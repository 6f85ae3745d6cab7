import NeoHook.InlineHook
import NeoHook.InstanceContents
import NeoHook.Quiescence
import NeoHook.SharedHooks
import NeoHook.InstalledRanges
import NeoHook.Relocation
import NeoHook.Coverage
import NeoHook.ThreadRedirects
import NeoHook.Notification
import NeoHook.TrapDetours
import NeoHook.TrapVerdicts
import NeoHook.LoaderDetour
import NeoHook.HandlerTables
import NeoHook.Delay
import NeoHook.DelayResources
import NeoHook.DelayUnloads
import NeoHook.JumpCodec
import NeoHook.GetPcCalls
import NeoHook.ExportStubs
import NeoHook.PageWrites
import NeoHook.Watchdog
import NeoHook.TrackedThreads
import NeoHook.HookToggles
import NeoHook.ExportRuns
import NeoHook.RegionScan
import NeoHook.UnwindCodes
import NeoHook.WatchdogThreads
import NeoHook.DebugRegisters
import NeoHook.PeExports
import NeoHook.PeImports
import NeoHook.PeBounds
import NeoHook.DiskImage
import NeoHook.JumpChains
import NeoHook.DiskReads
import NeoHook.ReturnAddresses
import NeoHook.SignatureAnalysis
import NeoHook.SignaturePaths
import NeoHook.Lib.X64
import NeoHook.Lib.X64Stack
import NeoHook.MidHook
import NeoHook.MidHookRun
import NeoHook.MidHookReturn
import NeoHook.MidHookUnwind
import NeoHook.MidHookStub
import NeoHook.StubMemory
import NeoHook.JumpMarks
import NeoHook.PatchHomes
import NeoHook.Lib.Overlay
import NeoHook.CodeBytes
import NeoHook.HandlerRelease
import NeoHook.HookRegistry
import NeoHook.DetectScan
import NeoHook.Reentrancy
import NeoHook.Lib.Simulation
import NeoHook.RelocatedRuns
import NeoHook.OfferedGateways
import NeoHook.HookChains
