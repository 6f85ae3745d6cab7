import NeoHook.Code
import NeoHook.Disasm

/-!
# INT3 hooks

`Int3Hook` of `int3.rs` and the call-original stub of `gateway.rs`.  An outcome the OS decides (a
protection change, the handler registration, whether a thread still dispatches a trap) is an
argument.
-/

namespace NeoHook

open ByteMap

inductive Int3HookError where
  | invalidParameter | noFreeSlot | alreadyHooked | handlerRegistrationFailed | patchFailed
  | gatewayBuildFailed
  deriving DecidableEq, Repr

/-- The opcode patched over the first byte of the target. -/
def int3Opcode : UInt8 := 0xCC

/-- Length of the ring of removed targets (`RETIRED_LEN`). -/
def retiredLen : ℕ := 1024

structure Int3Hook where
  target : ℕ
  detour : ℕ
  /-- The byte `0xCC` was written over. -/
  originalByte : UInt8
  slot : ℕ
  active : Bool
  gateway : Option Trampoline
  deriving DecidableEq

namespace Code

def setSlot (c : Code) (slot target detour : ℕ) : Code :=
  { c with int3 := { c.int3 with
      slotTarget := Function.update c.int3.slotTarget slot target
      slotDetour := Function.update c.int3.slotDetour slot detour } }

def setHandler (c : Code) (registered : Bool) : Code :=
  { c with int3 := { c.int3 with handler := registered } }

/-- `release_idle_handler`; `idle` is whether no thread still dispatches a trap. -/
def releaseIdleHandler (c : Code) (idle : Bool) : Code :=
  if c.int3.handler = false ∨ (List.range maxHooks).any (fun i => c.int3.slotTarget i ≠ 0) then c
  else if idle then
    { c with int3 := { c.int3 with handler := false, retired := fun _ => 0, retiredNext := 0 } }
  else c

/-- Records a removed target in the ring. -/
def recordRetired (c : Code) (target : ℕ) : Code :=
  { c with int3 := { c.int3 with
      retired := Function.update c.int3.retired c.int3.retiredNext target
      retiredNext := (c.int3.retiredNext + 1) % retiredLen } }

/-- The first free slot, unless the target has one already. -/
def freeSlot (c : Code) (target : ℕ) : Except Int3HookError ℕ :=
  if (List.range maxHooks).any (fun i => c.int3.slotTarget i = target) then .error .alreadyHooked
  else match (List.range maxHooks).find? (fun i => c.int3.slotTarget i = 0) with
    | none => .error .noFreeSlot
    | some i => .ok i

/-- Drops a call-original stub, if there is one. -/
def dropGateway (c : Code) (gateway : Option Trampoline) : Code :=
  match gateway with
  | none => c
  | some t => c.dropTrampoline t

end Code

/-- What the OS answers while a hook is armed or removed. -/
structure Int3Os where
  /-- `AddVectoredExceptionHandler` succeeds. -/
  handlerOk : Bool
  /-- The entry byte can be written. -/
  writeOk : Bool
  /-- No thread is inside the dispatch of a trap. -/
  idle : Bool

namespace Int3Hook

/-- `Int3Hook::arm`; the stub is dropped with the error. -/
def arm (c : Code) (target detour : ℕ) (gateway : Option Trampoline) (os : Int3Os) :
    Except Int3HookError Int3Hook × Code :=
  if c.overlapsLivePatch target 1 then (.error .alreadyHooked, c.dropGateway gateway)
  else match c.freeSlot target with
    | .error e => (.error e, c.dropGateway gateway)
    | .ok slot =>
      if c.int3.handler = false ∧ os.handlerOk = false then
        (.error .handlerRegistrationFailed, c.dropGateway gateway)
      else
        let c := (c.setHandler true).setSlot slot target detour
        match c.writeCodeBytes target [int3Opcode] none os.writeOk with
        | none =>
          (.error .patchFailed,
            ((c.setSlot slot 0 0).releaseIdleHandler os.idle).dropGateway gateway)
        | some c' => (.ok ⟨target, detour, c.mem target, slot, true, gateway⟩, c')

/-- Nothing refuses the hook before the breakpoint is written, and the write succeeds. -/
def Arms (c : Code) (target : ℕ) (os : Int3Os) : Prop :=
  c.overlapsLivePatch target 1 = false ∧ (∃ slot, c.freeSlot target = .ok slot) ∧
    (c.int3.handler = true ∨ os.handlerOk = true) ∧ os.writeOk = true

theorem Arms.of_same {c c' : Code} {target : ℕ} {os : Int3Os} (patches : c'.livePatches = c.livePatches)
    (int3 : c'.int3 = c.int3) (arms : Arms c' target os) : Arms c target os := by
  unfold Arms Code.overlapsLivePatch Code.armedInRange Code.freeSlot at arms ⊢
  rwa [patches, int3] at arms

/-- `Int3Hook::remove`. -/
def remove (c : Code) (h : Int3Hook) (os : Int3Os) : Code :=
  if h.active = false then c
  else
    let c := c.recordRetired h.target
    let c := (c.writeCodeBytes h.target [h.originalByte] none os.writeOk).getD c
    (c.setSlot h.slot 0 0).releaseIdleHandler os.idle

/-- `unhook` and `Drop`: removes the hook, then drops its call-original stub. -/
def drop (c : Code) (h : Int3Hook) (os : Int3Os) : Code := (remove c h os).dropGateway h.gateway

/-- `Int3Hook::forget`: only the slot's target is cleared. -/
def forget (c : Code) (h : Int3Hook) : Code :=
  if h.active then (c.setSlot h.slot 0 (c.int3.slotDetour h.slot)).dropGateway h.gateway
  else c.dropGateway h.gateway

end Int3Hook

end NeoHook
