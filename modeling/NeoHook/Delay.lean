import NeoHook.Int3
import NeoHook.Notification

/-!
# Delay hooks

The requests of `delay.rs`, the inline hook on `LdrLoadDll` they share, and the unload notification.
Each operation is a whole call.  What the loader, the commit of the `LdrLoadDll` hook and the OS
answer during it are arguments.
-/

namespace NeoHook

inductive DelayHookError where
  | invalidParameter | ldrHookFailed
  | installFailed (e : Int3HookError)
  deriving DecidableEq, Repr

/-- A request that waits for its module or is installed. -/
structure Pending where
  id : ℕ
  /-- Lower-cased file name. -/
  module : String
  func : String
  detour : ℕ
  hook : Option Int3Hook
  /-- Base of the image that holds the hook's target, recorded at install. -/
  moduleBase : ℕ

/-- `ldrHook` is the trampoline of the hook on `LdrLoadDll`. -/
structure DelayManager where
  nextId : ℕ
  pending : List Pending
  ldrHook : Option ℕ

/-- The modules as a call finds them. -/
structure LoaderView where
  /-- `resolve_loaded`. -/
  resolve : String → String → Option ℕ
  /-- `module_base_of`. -/
  baseOf : ℕ → Option ℕ
  /-- `read_entry_byte`. -/
  entryByte : ℕ → Option UInt8

/-- How the inline hook on `LdrLoadDll` comes about. -/
structure LdrOs where
  /-- `ntdll.dll` exports the function. -/
  found : Bool
  /-- The trampoline, if the attach succeeds. -/
  attach : Option ℕ
  committed : Bool
  /-- The entry can be restored, by the rollback of a failed commit or by the unhook. -/
  restored : Bool

structure RegisterOs where
  /-- The loader's answer to a registration of the notification. -/
  cookie : Option ℕ
  ldr : LdrOs
  int3 : Int3Os

structure RemoveOs where
  /-- The entry of `LdrLoadDll` can be restored. -/
  restored : Bool
  int3 : Int3Os
  /-- No thread is in flight when the unused handler is looked at. -/
  idle : Bool

structure DelayState where
  code : Code
  manager : DelayManager
  notification : Notification
  /-- `UNLOAD_MISSED`. -/
  unloadMissed : Bool
  /-- `ORIG_LDR`. -/
  origLdr : ℕ
  /-- The entry of `LdrLoadDll` jumps to the detour. -/
  patched : Bool
  /-- The `DelayHook` objects the program holds, by the numbers in them. -/
  hooks : List ℕ

/-! ### The notification, undisturbed -/

/-- A call of the notification functions runs to its end. -/
def NotifyCall.finish (N : Ntdll) (answer : Option ℕ) : ℕ → Notification → NotifyCall → Notification
  | 0, s, _ => s
  | n + 1, s, p =>
    match p.access N answer s with
    | (s, none) => s
    | (s, some p) => finish N answer n s p

/-- A null cookie counts as a failure. -/
def registerUnloadNotification (N : Ntdll) (answer : Option ℕ) (s : Notification) : Notification :=
  NotifyCall.finish N (answer.filter (· ≠ 0)) 5 s .load

def unregisterUnloadNotification (N : Ntdll) (s : Notification) : Notification :=
  NotifyCall.finish N none 3 s .swap

/-! ### The requests -/

/-- `still_installed`. -/
def stillInstalled (view : LoaderView) (target moduleBase : ℕ) (checkByte : Bool) : Bool :=
  if moduleBase = 0 ∨ view.baseOf target ≠ some moduleBase then false
  else !checkByte || view.entryByte target = some int3Opcode

/-- The hook of a request is forgotten if `stale` says so of it. -/
def Pending.forget (stale : Int3Hook → Bool) (c : Code) (p : Pending) : Code × Pending :=
  match p.hook with
  | none => (c, p)
  | some h => if stale h then (h.forget c, { p with hook := none }) else (c, p)

/-- `install_in_module`. -/
def installInModule (view : LoaderView) (c : Code) (target detour : ℕ) (os : Int3Os) :
    Except Int3HookError (Int3Hook × ℕ) × Code :=
  match view.baseOf target with
  | none => (.error .invalidParameter, c)
  | some base =>
    if target = 0 ∨ detour = 0 then (.error .invalidParameter, c)
    else match Int3Hook.arm c target detour none os with
      | (.error e, c) => (.error e, c)
      | (.ok h, c) => (.ok (h, base), c)

/-- A request is installed if its module is loaded; a failed install stays pending. -/
def Pending.installReady (view : LoaderView) (os : ℕ → Int3Os) (c : Code) (p : Pending) :
    Code × Pending :=
  match p.hook with
  | some _ => (c, p)
  | none =>
    match view.resolve p.module p.func with
    | none => (c, p)
    | some target =>
      match installInModule view c target p.detour (os p.id) with
      | (.error _, c) => (c, p)
      | (.ok (h, base), c) => (c, { p with hook := some h, moduleBase := base })

/-- A loop over the requests. -/
def eachPending (f : Code → Pending → Code × Pending) : Code → List Pending → Code × List Pending
  | c, [] => (c, [])
  | c, p :: rest =>
    ((eachPending f (f c p).1 rest).1, (f c p).2 :: (eachPending f (f c p).1 rest).2)

namespace DelayState

def setPending (s : DelayState) (r : Code × List Pending) : DelayState :=
  { s with code := r.1, manager := { s.manager with pending := r.2 } }

/-- `lock_manager`: every hook whose module is gone is dropped. -/
def lockManager (s : DelayState) (view : LoaderView) : DelayState :=
  let missed := s.unloadMissed || !s.notification.notified
  { s.setPending (eachPending (fun c p => p.forget
      (fun h => !stillInstalled view h.target p.moduleBase missed) c) s.code s.manager.pending) with
    unloadMissed := false }

/-- `ensure_ldr_hook`. -/
def ensureLdrHook (s : DelayState) (os : LdrOs) : Except DelayHookError Unit × DelayState :=
  if s.manager.ldrHook.isSome then (.ok (), s)
  else if os.found = false then (.error .ldrHookFailed, s)
  else match os.attach with
    | none => (.error .ldrHookFailed, s)
    | some tramp =>
      let s := { s with origLdr := tramp }
      if os.committed then
        (.ok (), { s with patched := true, manager := { s.manager with ldrHook := some tramp } })
      else (.error .ldrHookFailed, { s with patched := s.patched || !os.restored })

/-- Retires the `LdrLoadDll` hook once no request needs it. -/
def retireLdrHook (s : DelayState) (restored : Bool) : DelayState :=
  if s.manager.pending.isEmpty ∧ s.manager.ldrHook.isSome then
    { s with
      patched := s.patched && !restored
      manager := { s.manager with ldrHook := none } }
  else s

/-- `register_locked`. -/
def registerLocked (s : DelayState) (module func : String) (detour : ℕ) (view : LoaderView)
    (os : RegisterOs) : Except DelayHookError ℕ × DelayState :=
  match (s.lockManager view).ensureLdrHook os.ldr with
  | (.error e, s) => (.error e, s)
  | (.ok _, s) =>
    let id := s.manager.nextId
    let s := { s with manager := { s.manager with nextId := id + 1 } }
    let module := module.map Char.toLower
    let add (s : DelayState) (hook : Option Int3Hook) (base : ℕ) : DelayState :=
      { s.setPending (s.code, s.manager.pending ++ [⟨id, module, func, detour, hook, base⟩]) with
        hooks := s.hooks ++ [id] }
    match view.resolve module func with
    | none => (.ok id, add s none 0)
    | some target =>
      match installInModule view s.code target detour os.int3 with
      | (.ok (h, base), c) => (.ok id, add { s with code := c } (some h) base)
      | (.error e, c) =>
        (.error (.installFailed e), { s with code := c }.retireLdrHook os.ldr.restored)

/-- `DelayHook::register`. -/
def register (N : Ntdll) (s : DelayState) (module func : String) (detour : ℕ) (view : LoaderView)
    (os : RegisterOs) : Except DelayHookError ℕ × DelayState :=
  if detour = 0 ∨ module = "" ∨ func = "" then (.error .invalidParameter, s)
  else
    { s with notification := registerUnloadNotification N os.cookie s.notification }.registerLocked
      module func detour view os

/-- `DelayHook::is_active`. -/
def isActive (s : DelayState) (id : ℕ) (view : LoaderView) : Bool × DelayState :=
  let s := s.lockManager view
  (((s.manager.pending.find? fun p => p.id = id).map (·.hook.isSome)).getD false, s)

/-- `remove_locked`. -/
def removeLocked (s : DelayState) (id : ℕ) (view : LoaderView) (os : RemoveOs) : DelayState :=
  let s := s.lockManager view
  let code := match (s.manager.pending.find? fun p => p.id = id).bind (·.hook) with
    | none => s.code
    | some h => h.drop s.code os.int3
  (s.setPending (code, s.manager.pending.eraseP fun p => p.id = id)).retireLdrHook os.restored

/-- `DelayHook::remove`, for `unhook` and `Drop`. -/
def remove (N : Ntdll) (s : DelayState) (id : ℕ) (view : LoaderView) (os : RemoveOs) : DelayState :=
  let s := { s.removeLocked id view os with hooks := s.hooks.erase id }
  if s.manager.pending.isEmpty then
    { s with
      notification := unregisterUnloadNotification N s.notification
      code := s.code.releaseIdleHandler os.idle }
  else s

/-- `install_ready_pending`, after a load. -/
def installReadyPending (s : DelayState) (view : LoaderView) (os : ℕ → Int3Os) : DelayState :=
  let s := s.lockManager view
  s.setPending (eachPending (Pending.installReady view os) s.code s.manager.pending)

/-- `on_dll_notification` for an image that was unloaded; `busy` is whether the manager is locked. -/
def onDllNotification (s : DelayState) (base size : ℕ) (busy : Bool) : DelayState :=
  if busy then { s with unloadMissed := true }
  else s.setPending (eachPending (fun c p => p.forget
    (fun h => base ≤ h.target ∧ h.target < base + size) c) s.code s.manager.pending)

end DelayState

/-! ### Runs -/

inductive DelayOp where
  | register (module func : String) (detour : ℕ) (view : LoaderView) (os : RegisterOs)
  | isActive (hook : ℕ) (view : LoaderView)
  /-- `unhook`, or dropping the hook. -/
  | remove (hook : ℕ) (view : LoaderView) (os : RemoveOs)
  | loaded (view : LoaderView) (os : ℕ → Int3Os)
  | unloaded (base size : ℕ) (busy : Bool)

namespace DelayState

variable (N : Ntdll)

def step (s : DelayState) : DelayOp → DelayState
  | .register module func detour view os => (s.register N module func detour view os).2
  | .isActive hook view => (s.isActive hook view).2
  | .remove hook view os => if hook ∈ s.hooks then s.remove N hook view os else s
  | .loaded view os => if s.patched then s.installReadyPending view os else s
  | .unloaded base size busy =>
    if s.notification.registered = 0 then s else s.onDllNotification base size busy

def initial (code : Code) : DelayState where
  code
  manager := ⟨1, [], none⟩
  notification := .initial
  unloadMissed := false
  origLdr := 0
  patched := false
  hooks := []

/-- The states a run reaches when each call meets a condition on the state it is made in. -/
inductive Reachable (allowed : DelayState → DelayOp → Prop) : DelayState → Prop
  | initial (code : Code) : Reachable allowed (initial code)
  | step {s : DelayState} (op : DelayOp) : Reachable allowed s → allowed s op →
      Reachable allowed (s.step N op)

end DelayState

end NeoHook
