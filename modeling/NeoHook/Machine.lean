import NeoHook.Commit

/-!
# The process over whole runs

A state holds the code and table memory, the open transactions and every hook object of the
program; an operation is one call of the library, made by any thread.  The callers' side of the
contract of `detach` is built in: a hook behind a pointer that is queued for detach is neither
unhooked nor dropped before the transaction ends.
-/

namespace NeoHook

structure Transaction where
  pending : List PendingHook
  isPending : Bool
  deriving DecidableEq

structure State where
  process : Process
  /-- The transactions, by the number they were begun with. -/
  transactions : List (ℕ × Transaction)
  int3Hooks : List (ℕ × Int3Hook)
  /-- The next unused number for a transaction, a hook, a handle or an INT3 hook. -/
  fresh : ℕ

/-- What can be queued in a transaction. -/
inductive Request where
  | attach (target detour : ℕ) (followThunks : Bool) (os : AttachOs)
  | attachIat (module : ℕ) (dll func : String) (detour : ℕ) (readable : Bool)
  | attachEat (module : ℕ) (func : String) (detour : ℕ) (readable : Bool)
  | attachVtable (vtable index detour : ℕ) (readable : Bool)
  | attachVtableInstance (objectVptr index vtableLen detour : ℕ)
  | detach (target : Place)

inductive Op where
  | begin
  | queue (tx : ℕ) (r : Request)
  /-- `ffi` is whether the hooks go into a handle. -/
  | commit (tx : ℕ) (ffi : Bool) (os : CommitOs) (threads : Threads)
  /-- `abort`, or dropping the transaction. -/
  | abort (tx : ℕ)
  | enable (place : Place) (ok : Bool)
  | disable (place : Place) (ok : Bool)
  | unhook (place : Place) (ok dropOk retargetOk : Bool)
  | drop (place : Place) (ok retargetOk : Bool)
  /-- `gateway` is given for `install_with_original`. -/
  | int3Install (target detour : ℕ) (gateway : Option (AttachOs × Bool)) (os : Int3Os)
  /-- `unhook`, or dropping the hook. -/
  | int3Drop (hook : ℕ) (os : Int3Os)
  | beginPass
  | freeRegions (w : Snapshot) (os : ThreadOs)
  | settlePass (addOk : ℕ → Bool)

/-- Code and modules of the process that NeoHook does not own. -/
structure Env where
  codec : Codec
  modules : Modules
  /-- The memory the rest of the process uses. -/
  foreign : List Region

/-- One request against a queue. -/
def Request.run (E : Env) (p : Process) (pending : List PendingHook) :
    Request → Code × List PendingHook
  | .attach target detour follow os =>
    (attachInner E.codec E.foreign p.code pending target detour follow os).2
  | .attachIat module dll func detour readable =>
    (p.code, (NeoHook.attachIat E.modules p.tables pending module dll func detour readable).2)
  | .attachEat module func detour readable =>
    (p.code, (NeoHook.attachEat E.modules p.tables pending module func detour readable).2)
  | .attachVtable vtable index detour readable =>
    (p.code, (NeoHook.attachVtable p.tables pending vtable index detour readable).2)
  | .attachVtableInstance object index len detour =>
    (p.code, (NeoHook.attachVtableInstance p.tables pending object index len detour).2)
  | .detach target => (p.code, (queueDetach pending target (p.hookAt target).isSome).2)

/-- `Int3Hook::install` and `install_with_original`. -/
def Int3Hook.install (E : Env) (c : Code) (target detour : ℕ) (gateway : Option (AttachOs × Bool))
    (os : Int3Os) : Except Int3HookError Int3Hook × Code :=
  if target = 0 ∨ detour = 0 then (.error .invalidParameter, c)
  else match gateway with
    | none => Int3Hook.arm c target detour none os
    | some (aos, makeRx) =>
      match buildOriginalGateway E.codec E.foreign c target aos makeRx with
      | (none, c) => (.error .gatewayBuildFailed, c)
      | (some t, c) => Int3Hook.arm c target detour (some t) os

/-- The places of the hooks a commit returns. -/
def newPlaces (ffi : Bool) (fresh : ℕ) (hooks : List Hook) : List (Place × Hook) :=
  hooks.zipIdx.map fun h =>
    (if ffi then .handleIndex fresh h.2 else .hookPtr (fresh + h.2), h.1)

namespace State

def transaction (s : State) (tx : ℕ) : Option Transaction :=
  (s.transactions.find? fun e => e.1 = tx).map (·.2)

def setTransaction (s : State) (tx : ℕ) (t : Transaction) : State :=
  { s with transactions := (tx, t) :: s.transactions.eraseP fun e => e.1 = tx }

def setCode (s : State) (c : Code) : State := { s with process := { s.process with code := c } }

/-- A pending transaction borrows the hook. -/
def borrowed (s : State) (place : Place) : Bool :=
  match place with
  | .hookPtr _ => s.transactions.any fun e => PendingHook.detach place ∈ e.2.pending
  | .handleIndex _ _ => false

variable (E : Env)

/-- One call. -/
def step (s : State) : Op → State
  | .begin =>
    { s with transactions := (s.fresh, ⟨[], true⟩) :: s.transactions, fresh := s.fresh + 1 }
  | .queue tx r =>
    match s.transaction tx with
    | none => s
    | some t =>
      if t.isPending then
        let q := r.run E s.process t.pending
        (s.setTransaction tx { t with pending := q.2 }).setCode q.1
      else s
  | .commit tx ffi os threads =>
    match s.transaction tx with
    | none => s
    | some t =>
      if t.isPending = false ∨ s.process.code.pass.isSome then s
      else match NeoHook.commit E.modules E.foreign t.pending os s.process threads with
        | (.error _, p, _) => { s.setTransaction tx ⟨[], true⟩ with process := p }
        | (.ok hooks, p, _) =>
          { s.setTransaction tx ⟨[], false⟩ with
            process := { p with hooks := newPlaces ffi s.fresh hooks ++ p.hooks }
            fresh := s.fresh + hooks.length + 1 }
  | .abort tx =>
    match s.transaction tx with
    | none => s
    | some t =>
      if t.isPending then
        { s.setTransaction tx ⟨[], false⟩ with process := dropPending s.process t.pending }
      else s
  | .enable place ok =>
    match s.process.hookAt place with
    | none => s
    | some h =>
      match h.enable E.modules s.process.code s.process.tables ok with
      | .error _ => s
      | .ok (c, t, h) => { s with process := { s.process.put place h with code := c, tables := t } }
  | .disable place ok =>
    match s.process.hookAt place with
    | none => s
    | some h =>
      match h.disable E.modules s.process.code s.process.tables ok with
      | .error _ => s
      | .ok (c, t, h) => { s with process := { s.process.put place h with code := c, tables := t } }
  | .unhook place ok dropOk retargetOk =>
    match s.process.hookAt place with
    | none => s
    | some h =>
      if s.borrowed place then s
      else
        let r := h.unhook E.modules s.process.code s.process.tables ok dropOk retargetOk
        { s with process := { s.process.take place with code := r.1, tables := r.2 } }
  | .drop place ok retargetOk =>
    match s.process.hookAt place with
    | none => s
    | some h =>
      if s.borrowed place then s
      else
        let r := h.drop E.modules s.process.code s.process.tables ok retargetOk
        { s with process := { s.process.take place with code := r.1, tables := r.2 } }
  | .int3Install target detour gateway os =>
    match Int3Hook.install E s.process.code target detour gateway os with
    | (.error _, c) => s.setCode c
    | (.ok h, c) =>
      { s.setCode c with int3Hooks := (s.fresh, h) :: s.int3Hooks, fresh := s.fresh + 1 }
  | .int3Drop hook os =>
    match s.int3Hooks.find? fun e => e.1 = hook with
    | none => s
    | some e =>
      { s.setCode (e.2.drop s.process.code os) with
        int3Hooks := s.int3Hooks.eraseP fun e => e.1 = hook }
  | .beginPass => s.setCode s.process.code.beginPass
  | .freeRegions w os => s.setCode (s.process.code.freeRegions w os)
  | .settlePass addOk => s.setCode (s.process.code.settlePass addOk)

/-- Memory before anything is hooked. -/
def initial (pristine : ℕ → UInt8) (tables : Tables) : State where
  process :=
    { code :=
        { mem := pristine
          allocs := []
          managedGateways := ∅
          chainedGateways := fun _ => none
          livePatches := []
          int3 := ⟨fun _ => 0, fun _ => 0, fun _ => 0, 0, false⟩
          quarantine := []
          pass := none
          tables := fun _ => none
          functionTables := ∅
          births := fun _ => 0
          retiredLog := []
          freedLog := []
          unwound := []
          jumps := fun _ => none }
      tables
      hooks := [] }
  transactions := []
  int3Hooks := []
  fresh := 1

end State

/-! ### Calls that are not refused -/

/-- The request gets past its checks: an attach as far as its stub, any other one into the queue. -/
def Request.Acts (E : Env) (p : Process) (pending : List PendingHook) : Request → Prop
  | .attach target detour follow os =>
    attachBuilds E.codec p.code pending target detour follow os
  | r => (r.run E p pending).2 ≠ pending

/-- What the call is about is there: a pending transaction, a hook that nobody borrows, a breakpoint,
a pass to settle. -/
def Op.Acts (E : Env) (s : State) : Op → Prop
  | .queue tx r => ∃ t, s.transaction tx = some t ∧ t.isPending = true ∧ r.Acts E s.process t.pending
  | .commit tx _ _ _ =>
    (∃ t, s.transaction tx = some t ∧ t.isPending = true) ∧ s.process.code.pass = none
  | .abort tx => ∃ t, s.transaction tx = some t ∧ t.isPending = true
  | .enable place _ | .disable place _ => (s.process.hookAt place).isSome
  | .unhook place _ _ _ | .drop place _ _ =>
    (s.process.hookAt place).isSome ∧ s.borrowed place = false
  | .int3Install target detour _ _ => target ≠ 0 ∧ detour ≠ 0
  | .int3Drop hook _ => (s.int3Hooks.find? fun e => e.1 = hook).isSome
  | .settlePass _ => s.process.code.pass.isSome
  | .begin | .beginPass | .freeRegions _ _ => True

theorem Request.run_refused {E : Env} {p : Process} {pending : List PendingHook} {r : Request}
    (refused : ¬ r.Acts E p pending) : r.run E p pending = (p.code, pending) := by
  cases r with
  | attach target detour follow os => exact attachInner_refused E.codec E.foreign refused
  | attachIat | attachEat | attachVtable | attachVtableInstance | detach =>
    exact Prod.ext rfl (not_not.1 refused)

namespace State

variable (E : Env)

/-- The states a run reaches when each call meets a condition on the state it is made in. -/
inductive Reachable (allowed : State → Op → Prop) (pristine : ℕ → UInt8) : State → Prop
  | initial (tables : Tables) : Reachable allowed pristine (initial pristine tables)
  | step {s : State} (op : Op) : Reachable allowed pristine s → allowed s op →
      Reachable allowed pristine (s.step E op)

end State

end NeoHook
