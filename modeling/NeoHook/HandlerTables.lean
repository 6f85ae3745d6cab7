import NeoHook.Breakpoints
import NeoHook.Relocation
import NeoHook.Lib.SlotTable

/-!
# Slot tables and exception handlers over whole runs

The operations of `int3.rs` and `veh.rs` as whole calls: what the slot tables hold, when the vectored
handler is registered, and what a failed install leaves behind.
-/

namespace NeoHook

open SlotTable

/-! ### Hardware breakpoints -/

inductive VehHookError where
  | invalidParameter | noFreeSlot | alreadyHooked | handlerRegistrationFailed | gatewayBuildFailed
  deriving DecidableEq, Repr

/-- Length of the ring of removed targets (`RETIRED_COUNT`). -/
def retiredCount : ℕ := 16

/-- The statics of `veh.rs`. -/
structure VehTables where
  slotTarget : ℕ → ℕ
  slotDetour : ℕ → ℕ
  slotArmed : ℕ → ℕ
  retired : ℕ → ℕ
  retiredNext : ℕ
  handler : Bool
  keepHandler : Bool

structure VehHook where
  target : ℕ
  detour : ℕ
  slot : ℕ
  active : Bool
  gateway : Option Trampoline
  deriving DecidableEq

/-- What the OS answers while a breakpoint is armed or disarmed. -/
structure VehOs where
  /-- `AddVectoredExceptionHandler` succeeds. -/
  handlerOk : Bool
  /-- The threads as the pass over them sees them. -/
  threads : VehTrap.DebugOs
  /-- The debug registers of the threads before the pass. -/
  registers : ℕ → VehTrap.Context
  /-- No thread is inside the dispatch of a trap. -/
  idle : Bool

/-- The pass that clears the breakpoint in a slot: whether it reports success, and the registers
after it. -/
def VehOs.disarm (os : VehOs) (slot : ℕ) : Bool × (ℕ → VehTrap.Context) :=
  VehTrap.setBreakpointOnAllThreads os.threads slot 0 false os.registers

namespace VehTables

def setSlot (v : VehTables) (slot target detour : ℕ) : VehTables :=
  { v with
    slotTarget := Function.update v.slotTarget slot target
    slotDetour := Function.update v.slotDetour slot detour }

/-- The first free slot, unless the target has one already. -/
def freeSlot (v : VehTables) (target : ℕ) : Except VehHookError ℕ :=
  if (List.range slotCount).any (fun i => v.slotTarget i = target) then .error .alreadyHooked
  else match (List.range slotCount).find? (fun i => v.slotTarget i = 0) with
    | none => .error .noFreeSlot
    | some i => .ok i

/-- `release_idle_handler` of `veh.rs`. -/
def releaseIdleHandler (v : VehTables) (idle : Bool) : VehTables :=
  if v.handler = false ∨ v.keepHandler ∨
      (List.range slotCount).any (fun i => v.slotTarget i ≠ 0) then v
  else if idle then { v with handler := false }
  else v

/-- Publishes a slot. -/
def publish (v : VehTables) (slot target detour : ℕ) : VehTables :=
  { (v.setSlot slot target detour) with
    handler := true
    slotArmed := Function.update v.slotArmed slot target }

end VehTables

namespace VehHook

/-- `install_inner` behind the building of the stub; the stub is dropped with the error.  What the pass
that arms the breakpoint reports is not looked at. -/
def arm (c : Code) (v : VehTables) (target detour : ℕ) (gateway : Option Trampoline) (os : VehOs) :
    Except VehHookError VehHook × Code × VehTables :=
  match v.freeSlot target with
  | .error e => (.error e, c.dropGateway gateway, v)
  | .ok slot =>
    if v.handler = false ∧ os.handlerOk = false then
      (.error .handlerRegistrationFailed, c.dropGateway gateway, v)
    else (.ok ⟨target, detour, slot, true, gateway⟩, c, v.publish slot target detour)

/-- `VehHook::install` and `install_with_original`. -/
def install (E : Env) (c : Code) (v : VehTables) (target detour : ℕ)
    (gateway : Option (AttachOs × Bool)) (os : VehOs) :
    Except VehHookError VehHook × Code × VehTables :=
  if target = 0 ∨ detour = 0 then (.error .invalidParameter, c, v)
  else match gateway with
    | none => arm c v target detour none os
    | some (aos, makeRx) =>
      match buildOriginalGateway E.codec E.foreign c target aos makeRx with
      | (none, c) => (.error .gatewayBuildFailed, c, v)
      | (some t, c) => arm c v target detour (some t) os

/-- `VehHook::remove`. -/
def remove (v : VehTables) (h : VehHook) (os : VehOs) : VehTables :=
  if h.active = false then v
  else
    let v := { v with
      keepHandler := v.keepHandler || !(os.disarm h.slot).1
      retired := Function.update v.retired (v.retiredNext % retiredCount) h.target
      retiredNext := v.retiredNext + 1 }
    (v.setSlot h.slot 0 0).releaseIdleHandler os.idle

end VehHook

/-! ### Runs -/

/-- What the program does with its INT3 hooks. -/
inductive Int3Op where
  | install (target detour : ℕ) (gateway : Option (AttachOs × Bool)) (os : Int3Os)
  /-- `unhook`, or dropping the hook. -/
  | remove (hook : Int3Hook) (os : Int3Os)
  | forget (hook : Int3Hook)
  /-- `release_unused_handler`. -/
  | release (idle : Bool)

/-- Whether the thread scan of the operation, if it makes one, finds no thread in flight. -/
def Int3Op.idle : Int3Op → Bool
  | .install _ _ _ os | .remove _ os => os.idle
  | .forget _ => false
  | .release idle => idle

structure Int3Process where
  code : Code
  hooks : Multiset Int3Hook

namespace Int3Process

variable (E : Env)

def step (s : Int3Process) : Int3Op → Int3Process
  | .install target detour gateway os =>
    match Int3Hook.install E s.code target detour gateway os with
    | (.error _, c) => { s with code := c }
    | (.ok h, c) => ⟨c, h ::ₘ s.hooks⟩
  | .remove h os => if h ∈ s.hooks then ⟨h.drop s.code os, s.hooks.erase h⟩ else s
  | .forget h => if h ∈ s.hooks then ⟨h.forget s.code, s.hooks.erase h⟩ else s
  | .release idle => { s with code := s.code.releaseIdleHandler idle }

/-- Any sequence of the operations.  In between the rest of the library may do what it likes to the
code, as long as it leaves the tables of `int3.rs` alone. -/
inductive Reachable : Int3Process → Prop
  | initial (code : Code) : (∀ i, code.int3.slotTarget i = 0) → code.int3.handler = false →
      Reachable ⟨code, 0⟩
  | step {s : Int3Process} (op : Int3Op) : Reachable s → Reachable (s.step E op)
  | others {s : Int3Process} (code : Code) : Reachable s → code.int3 = s.code.int3 →
      Reachable { s with code }

end Int3Process

inductive VehOp where
  | install (target detour : ℕ) (gateway : Option (AttachOs × Bool)) (os : VehOs)
  /-- `unhook`, or dropping the hook. -/
  | remove (hook : VehHook) (os : VehOs)

def VehOp.idle : VehOp → Bool
  | .install _ _ _ os | .remove _ os => os.idle

structure VehProcess where
  code : Code
  veh : VehTables
  hooks : Multiset VehHook

namespace VehProcess

variable (E : Env)

def step (s : VehProcess) : VehOp → VehProcess
  | .install target detour gateway os =>
    match VehHook.install E s.code s.veh target detour gateway os with
    | (.error _, c, v) => ⟨c, v, s.hooks⟩
    | (.ok h, c, v) => ⟨c, v, h ::ₘ s.hooks⟩
  | .remove h os =>
    if h ∈ s.hooks then ⟨s.code.dropGateway h.gateway, h.remove s.veh os, s.hooks.erase h⟩ else s

inductive Reachable : VehProcess → Prop
  | initial (code : Code) (armed retired : ℕ → ℕ) :
      Reachable ⟨code, ⟨fun _ => 0, fun _ => 0, armed, retired, 0, false, false⟩, 0⟩
  | step {s : VehProcess} (op : VehOp) : Reachable s → Reachable (s.step E op)
  | others {s : VehProcess} (code : Code) : Reachable s → Reachable { s with code }

end VehProcess

/-! ### What is kept -/

/-- The slots belong to the live hooks, and a handler serves them. -/
structure Served (n : ℕ) (T : Table ℕ ℕ) (owners : Multiset (Owner ℕ ℕ)) (handler : Bool) : Prop where
  fits : T.Fits n owners
  registered : ¬ T.Empty n → handler = true

/-- An owner has its slot and a handler. -/
theorem Served.of_mem {n : ℕ} {T : Table ℕ ℕ} {owners : Multiset (Owner ℕ ℕ)} {handler : Bool}
    (served : Served n T owners handler) {o : Owner ℕ ℕ} (mem : o ∈ owners) :
    T.key o.slot = o.key ∧ T.value o.slot = o.value ∧ handler = true := by
  obtain ⟨lt, nonnull, key, value⟩ := served.fits.owned o mem
  exact ⟨key, value, served.registered fun empty => nonnull (key.symm.trans (empty _ lt))⟩

/-- The handler is removed only when no slot is in use and no thread was reported in flight. -/
def Releases (n : ℕ) (T' : Table ℕ ℕ) (handler handler' idle : Bool) : Prop :=
  handler = true → handler' = false → T'.Empty n ∧ idle = true

/-- Slots in use and free slots stay what they are; what a free slot still holds may be cleared. -/
structure SameSlots (T T' : Table ℕ ℕ) : Prop where
  keys : T'.key = T.key
  values : ∀ i, T.key i ≠ 0 → T'.value i = T.value i

def Code.slots (c : Code) : Table ℕ ℕ := ⟨c.int3.slotTarget, c.int3.slotDetour⟩

def Int3Hook.owner (h : Int3Hook) : Owner ℕ ℕ := ⟨h.target, h.detour, h.slot⟩

def VehTables.slots (v : VehTables) : Table ℕ ℕ := ⟨v.slotTarget, v.slotDetour⟩

def VehHook.owner (h : VehHook) : Owner ℕ ℕ := ⟨h.target, h.detour, h.slot⟩

section Lemmas

variable {n : ℕ} {T T' : Table ℕ ℕ} {owners : Multiset (Owner ℕ ℕ)} {handler : Bool}

/-- The search of `install` over the slots. -/
theorem empty_iff_any : T.Empty n ↔ (List.range n).any (fun i => T.key i ≠ 0) = false := by
  simp [Table.Empty, List.any_eq_false]

theorem any_iff_not_empty : (List.range n).any (fun i => T.key i ≠ 0) = true ↔ ¬ T.Empty n := by
  rw [empty_iff_any, Bool.not_eq_false]

end Lemmas

/-! ### The stub of `install_with_original` -/

section Stub

variable (E : Env) (c : Code)

/-- The code once the stub that `install_with_original` asks for is built. -/
def withStub (target detour : ℕ) (gateway : Option (AttachOs × Bool)) : Code :=
  if target = 0 ∨ detour = 0 then c
  else match gateway with
    | none => c
    | some (aos, makeRx) => (buildOriginalGateway E.codec E.foreign c target aos makeRx).2

variable {c}

theorem dropGateway_int3 (gateway : Option Trampoline) :
    (c.dropGateway gateway).int3 = c.int3 := by
  unfold Code.dropGateway Code.dropTrampoline Code.retire
  split
  · rfl
  · split_ifs <;> rfl

theorem dropGateway_mem (gateway : Option Trampoline) :
    (c.dropGateway gateway).mem = c.mem := by
  unfold Code.dropGateway Code.dropTrampoline Code.retire
  split
  · rfl
  · split_ifs <;> rfl

theorem dropGateway_slots (gateway : Option Trampoline) : (c.dropGateway gateway).slots = c.slots := by
  unfold Code.slots
  rw [dropGateway_int3]

theorem withStub_int3 (target detour : ℕ) (gateway : Option (AttachOs × Bool)) :
    (withStub E c target detour gateway).int3 = c.int3 := by
  unfold withStub
  split_ifs
  · rfl
  · cases gateway with
    | none => rfl
    | some p => exact buildOriginalGateway_same.2

end Stub

/-! ### INT3 hooks -/

section Int3

variable {c c' : Code} {target detour slot : ℕ} {gateway : Option Trampoline} {os : Int3Os}

theorem freeSlot_eq_ok (h : c.freeSlot target = .ok slot) :
    slot < Code.maxHooks ∧ c.slots.key slot = 0 ∧ ∀ i < Code.maxHooks, c.slots.key i ≠ target := by
  unfold Code.freeSlot at h
  split_ifs at h with taken
  split at h
  · cases h
  · rename_i i found
    cases h
    refine ⟨List.mem_range.mp (List.mem_of_find?_eq_some found), ?_, fun i lt same => taken ?_⟩
    · have zero := List.find?_some found
      exact of_decide_eq_true zero
    · exact List.any_eq_true.mpr ⟨i, List.mem_range.mpr lt, decide_eq_true same⟩

theorem setSlot_slots (target detour : ℕ) :
    (c.setSlot slot target detour).slots = c.slots.set slot target detour := rfl

theorem releaseIdleHandler_slots (idle : Bool) : (c.releaseIdleHandler idle).slots = c.slots := by
  unfold Code.releaseIdleHandler
  split_ifs <;> rfl

theorem releaseIdleHandler_mem (idle : Bool) : (c.releaseIdleHandler idle).mem = c.mem := by
  unfold Code.releaseIdleHandler
  split_ifs <;> rfl

theorem releaseIdleHandler_of_used {idle : Bool} (used : ¬ c.slots.Empty Code.maxHooks) :
    (c.releaseIdleHandler idle).int3.handler = c.int3.handler := by
  have any := any_iff_not_empty.mpr used
  unfold Code.releaseIdleHandler
  rw [if_pos (.inr any)]

theorem releaseIdleHandler_of_empty {idle : Bool} (empty : c.slots.Empty Code.maxHooks) :
    (c.releaseIdleHandler idle).int3.handler = (c.int3.handler && !idle) := by
  have any := empty_iff_any.mp empty
  unfold Code.releaseIdleHandler
  cases registered : c.int3.handler with
  | false =>
    rw [if_pos (.inl rfl)]
    exact registered
  | true =>
    have needed : ¬ (true = false ∨ (List.range Code.maxHooks).any
        (fun i => c.int3.slotTarget i ≠ 0) = true) := by
      rintro (no | used)
      · cases no
      · exact nomatch used.symm.trans any
    rw [if_neg needed]
    cases idle with
    | true => rfl
    | false => exact registered

theorem releases_releaseIdleHandler (idle : Bool) :
    Releases Code.maxHooks (c.releaseIdleHandler idle).slots c.int3.handler
      (c.releaseIdleHandler idle).int3.handler idle := by
  intro before after
  rw [releaseIdleHandler_slots]
  by_cases empty : c.slots.Empty Code.maxHooks
  · refine ⟨empty, ?_⟩
    rw [releaseIdleHandler_of_empty empty, before] at after
    simpa using after
  · rw [releaseIdleHandler_of_used empty, before] at after
    cases after

theorem Served.releaseIdleHandler {owners : Multiset (Owner ℕ ℕ)}
    (h : Served Code.maxHooks c.slots owners c.int3.handler) (idle : Bool) :
    Served Code.maxHooks (c.releaseIdleHandler idle).slots owners
      (c.releaseIdleHandler idle).int3.handler := by
  rw [releaseIdleHandler_slots]
  refine ⟨h.fits, fun used => ?_⟩
  rw [releaseIdleHandler_of_used used]
  exact h.registered used

theorem freeSlot_ne_patchFailed : c.freeSlot target ≠ .error .patchFailed := by
  unfold Code.freeSlot
  split_ifs
  · intro eq
    cases eq
  · split <;> intro eq <;> cases eq

/-- The table while the byte is written. -/
def published (c : Code) (slot target detour : ℕ) : Code :=
  (c.setHandler true).setSlot slot target detour

/-- The outcomes of an install: refused, given up when the byte could not be written, or done. -/
theorem Int3Hook.arm_cases (c : Code) (target detour : ℕ) (gateway : Option Trampoline)
    (os : Int3Os) :
    (∃ e ≠ .patchFailed, Int3Hook.arm c target detour gateway os =
      (.error e, c.dropGateway gateway)) ∨
    ∃ slot, c.freeSlot target = .ok slot ∧
      (Int3Hook.arm c target detour gateway os = (.error .patchFailed,
          (((published c slot target detour).setSlot slot 0 0).releaseIdleHandler
            os.idle).dropGateway gateway) ∨
        Int3Hook.arm c target detour gateway os =
          (.ok ⟨target, detour, c.mem target, slot, true, gateway⟩,
            (published c slot target detour).store target [int3Opcode] none)) := by
  unfold Int3Hook.arm
  by_cases overlaps : c.overlapsLivePatch target 1 = true
  · rw [if_pos overlaps]
    exact .inl ⟨.alreadyHooked, nofun, rfl⟩
  rw [if_neg overlaps]
  cases free : c.freeSlot target with
  | error e => exact .inl ⟨e, fun eq => freeSlot_ne_patchFailed (eq ▸ free), rfl⟩
  | ok slot =>
    by_cases refused : c.int3.handler = false ∧ os.handlerOk = false
    · simp only [if_pos refused]
      exact .inl ⟨.handlerRegistrationFailed, nofun, rfl⟩
    · simp only [if_neg refused]
      refine .inr ⟨slot, rfl, ?_⟩
      cases wrote : ((c.setHandler true).setSlot slot target detour).writeCodeBytes target
          [int3Opcode] none os.writeOk with
      | none => exact .inl rfl
      | some c' =>
        obtain ⟨-, rfl⟩ := Code.writeCodeBytes_some wrote
        exact .inr rfl

/-- A slot that was taken back is free again. -/
theorem sameSlots_taken_back (h : c.slots.key slot = 0) :
    SameSlots c.slots ((published c slot target detour).setSlot slot 0 0).slots := by
  refine ⟨funext fun i => ?_, fun i used => ?_⟩
  · by_cases here : i = slot
    · rw [here, setSlot_slots, Table.set_key_self, h]
    · rw [setSlot_slots, Table.set_key_of_ne _ _ _ here]
      exact Table.set_key_of_ne c.slots target detour here
  · have here : i ≠ slot := fun eq => used (eq ▸ h)
    rw [setSlot_slots, Table.set_value_of_ne _ _ _ here]
    exact Table.set_value_of_ne c.slots target detour here

theorem SameSlots.empty_iff {n : ℕ} {T T' : Table ℕ ℕ} (h : SameSlots T T') :
    T'.Empty n ↔ T.Empty n := by
  unfold Table.Empty
  rw [h.keys]

/-- What a failed install leaves behind: slots and bytes are as before, and so is the handler unless
the byte could not be written and no slot is in use; then it is tried to be removed. -/
structure Int3Undone (before after : Code) (e : Int3HookError) (idle : Bool) : Prop where
  slots : SameSlots before.slots after.slots
  bytes : after.mem = before.mem
  refused : e ≠ .patchFailed → after.int3.handler = before.int3.handler
  used : ¬ before.slots.Empty Code.maxHooks → after.int3.handler = before.int3.handler
  unused : e = .patchFailed → before.slots.Empty Code.maxHooks → after.int3.handler = !idle

theorem Int3Hook.arm_error {e : Int3HookError}
    (registered : ¬ c.slots.Empty Code.maxHooks → c.int3.handler = true)
    (failed : Int3Hook.arm c target detour gateway os = (.error e, c')) :
    Int3Undone c c' e os.idle := by
  rcases Int3Hook.arm_cases c target detour gateway os with
    ⟨e', early, eq⟩ | ⟨slot, free, eq | eq⟩
  · rw [eq] at failed
    cases failed
    refine ⟨?_, dropGateway_mem gateway, fun _ => ?_, fun _ => ?_, fun late => absurd late early⟩
    · rw [dropGateway_slots]
      exact ⟨rfl, fun i _ => rfl⟩
    · rw [dropGateway_int3]
    · rw [dropGateway_int3]
  · rw [eq] at failed
    cases failed
    have same : SameSlots c.slots ((published c slot target detour).setSlot slot 0 0).slots :=
      sameSlots_taken_back (freeSlot_eq_ok free).2.1
    refine ⟨?_, ?_, fun early => absurd rfl early, fun used => ?_, fun _ empty => ?_⟩
    · rw [dropGateway_slots, releaseIdleHandler_slots]
      exact same
    · rw [dropGateway_mem, releaseIdleHandler_mem]
      rfl
    · rw [dropGateway_int3, registered used,
        releaseIdleHandler_of_used fun empty => used (same.empty_iff.mp empty)]
      rfl
    · rw [dropGateway_int3, releaseIdleHandler_of_empty (same.empty_iff.mpr empty)]
      rfl
  · rw [eq] at failed
    cases failed

/-- What a successful install does. -/
theorem Int3Hook.arm_ok {owners : Multiset (Owner ℕ ℕ)} {h : Int3Hook} (nonnull : target ≠ 0)
    (served : Served Code.maxHooks c.slots owners c.int3.handler)
    (armed : Int3Hook.arm c target detour gateway os = (.ok h, c')) :
    h.active = true ∧ c'.int3.handler = true ∧
      Served Code.maxHooks c'.slots (h.owner ::ₘ owners) c'.int3.handler := by
  rcases Int3Hook.arm_cases c target detour gateway os with
    ⟨e', early, eq⟩ | ⟨slot, free, eq | eq⟩
  · rw [eq] at armed
    cases armed
  · rw [eq] at armed
    cases armed
  · rw [eq] at armed
    obtain ⟨lt, empty, other⟩ := freeSlot_eq_ok free
    cases armed
    exact ⟨rfl, rfl, served.fits.set lt empty nonnull other, fun _ => rfl⟩

/-- A hook gives its slot up, and the handler may go with the last one. -/
theorem Int3Hook.drop_served {owners : Multiset (Owner ℕ ℕ)} {h : Int3Hook} (active : h.active = true)
    (served : Served Code.maxHooks c.slots (h.owner ::ₘ owners) c.int3.handler) :
    Served Code.maxHooks (h.drop c os).slots owners (h.drop c os).int3.handler ∧
      Releases Code.maxHooks (h.drop c os).slots c.int3.handler (h.drop c os).int3.handler
        os.idle := by
  set wrote := ((c.recordRetired h.target).writeCodeBytes h.target [h.originalByte] none
    os.writeOk).getD (c.recordRetired h.target) with restored
  have tables : wrote.slots = c.slots ∧ wrote.int3.handler = c.int3.handler := by
    rw [restored]
    cases written : (c.recordRetired h.target).writeCodeBytes h.target [h.originalByte] none
        os.writeOk with
    | none => exact ⟨rfl, rfl⟩
    | some c' =>
      obtain ⟨-, rfl⟩ := Code.writeCodeBytes_some written
      exact ⟨rfl, rfl⟩
  have removed : h.drop c os =
      ((wrote.setSlot h.slot 0 0).releaseIdleHandler os.idle).dropGateway h.gateway := by
    unfold Int3Hook.drop Int3Hook.remove
    rw [if_neg (by rw [active]; decide)]
  have cleared : Served Code.maxHooks (wrote.setSlot h.slot 0 0).slots owners
      (wrote.setSlot h.slot 0 0).int3.handler := by
    have fits : (wrote.setSlot h.slot 0 0).slots.Fits Code.maxHooks owners := by
      rw [setSlot_slots, tables.1]
      exact served.fits.clear (c.slots.set_key_self 0 0) (fun i => c.slots.set_key_of_ne 0 0)
        (fun i => c.slots.set_value_of_ne 0 0)
    refine ⟨fits, fun used => tables.2.trans (served.registered fun empty => ?_)⟩
    obtain ⟨lt, nonnull, key, -⟩ := served.fits.owned _ (Multiset.mem_cons_self _ _)
    exact nonnull (key.symm.trans (empty _ lt))
  rw [removed, dropGateway_slots, dropGateway_int3]
  refine ⟨cleared.releaseIdleHandler os.idle, ?_⟩
  have releases := @releases_releaseIdleHandler (wrote.setSlot h.slot 0 0) os.idle
  rwa [show (wrote.setSlot h.slot 0 0).int3.handler = c.int3.handler from tables.2] at releases

theorem Int3Hook.forget_served {owners : Multiset (Owner ℕ ℕ)} {h : Int3Hook}
    (active : h.active = true)
    (served : Served Code.maxHooks c.slots (h.owner ::ₘ owners) c.int3.handler) :
    Served Code.maxHooks (h.forget c).slots owners (h.forget c).int3.handler ∧
      (h.forget c).int3.handler = c.int3.handler := by
  have forgot : h.forget c =
      (c.setSlot h.slot 0 (c.int3.slotDetour h.slot)).dropGateway h.gateway := by
    unfold Int3Hook.forget
    rw [if_pos active]
  obtain ⟨lt, nonnull, key, -⟩ := served.fits.owned _ (Multiset.mem_cons_self _ _)
  rw [forgot, dropGateway_slots, dropGateway_int3]
  refine ⟨⟨?_, fun used => served.registered fun empty => ?_⟩, rfl⟩
  · exact served.fits.clear (c.slots.set_key_self 0 _) (fun i => c.slots.set_key_of_ne 0 _)
      (fun i => c.slots.set_value_of_ne 0 _)
  · exact nonnull (key.symm.trans (empty _ lt))

end Int3

/-! ### Runs of INT3 hooks -/

namespace Int3Process

variable {E : Env} {s : Int3Process}

/-- The live hooks own the slots. -/
def Good (s : Int3Process) : Prop :=
  (∀ h ∈ s.hooks, h.active = true) ∧
    Served Code.maxHooks s.code.slots (s.hooks.map Int3Hook.owner) s.code.int3.handler

theorem Good.slot_of_mem {s : Int3Process} (good : s.Good) {h : Int3Hook} (mem : h ∈ s.hooks) :
    s.code.slots.key h.slot = h.target ∧ s.code.slots.value h.slot = h.detour ∧
      s.code.int3.handler = true :=
  good.2.of_mem (Multiset.mem_map_of_mem Int3Hook.owner mem)

/-- An install is one of `arm`, or it is refused before. -/
theorem install_cases (E : Env) (c : Code) (target detour : ℕ) (gateway : Option (AttachOs × Bool))
    (os : Int3Os) :
    (∃ e ≠ .patchFailed, Int3Hook.install E c target detour gateway os =
      (.error e, withStub E c target detour gateway)) ∨
    target ≠ 0 ∧ ∃ stub, Int3Hook.install E c target detour gateway os =
      Int3Hook.arm (withStub E c target detour gateway) target detour stub os := by
  unfold Int3Hook.install withStub
  by_cases null : target = 0 ∨ detour = 0
  · simp only [if_pos null]
    exact .inl ⟨.invalidParameter, (fun eq => by cases eq), rfl⟩
  · simp only [if_neg null]
    cases gateway with
    | none => exact .inr ⟨fun zero => null (.inl zero), none, rfl⟩
    | some p =>
      obtain ⟨aos, makeRx⟩ := p
      simp only
      cases built : buildOriginalGateway E.codec E.foreign c target aos makeRx with
      | mk stub c' =>
        cases stub with
        | none => exact .inl ⟨.gatewayBuildFailed, (fun eq => by cases eq), rfl⟩
        | some t => exact .inr ⟨fun zero => null (.inl zero), some t, rfl⟩

/-- What an operation may do to the handler, and what a failed install leaves behind. -/
structure Behaves (E : Env) (s : Int3Process) (op : Int3Op) : Prop where
  releases : Releases Code.maxHooks (s.step E op).code.slots s.code.int3.handler
    (s.step E op).code.int3.handler op.idle
  undone : ∀ target detour gateway os e, op = .install target detour gateway os →
    (Int3Hook.install E s.code target detour gateway os).1 = .error e →
    (s.step E op).hooks = s.hooks ∧
      Int3Undone (withStub E s.code target detour gateway) (s.step E op).code e os.idle

theorem served_withStub {owners : Multiset (Owner ℕ ℕ)} {c : Code}
    (h : Served Code.maxHooks c.slots owners c.int3.handler) (target detour : ℕ)
    (gateway : Option (AttachOs × Bool)) :
    Served Code.maxHooks (withStub E c target detour gateway).slots owners
      (withStub E c target detour gateway).int3.handler := by
  unfold Code.slots
  rw [withStub_int3]
  exact h

/-- A handler that was removed was not needed. -/
theorem releases_of_true {n : ℕ} {T : Table ℕ ℕ} {handler handler' idle : Bool}
    (h : handler = true → handler' = true) : Releases n T handler handler' idle :=
  fun before after => absurd ((h before).symm.trans after) nofun

theorem install_good (h : s.Good) {target detour : ℕ} {gateway : Option (AttachOs × Bool)}
    {os : Int3Os} :
    (s.step E (.install target detour gateway os)).Good ∧
      s.Behaves E (.install target detour gateway os) := by
  obtain ⟨active, served⟩ := h
  have stubbed := @served_withStub E _ s.code served target detour gateway
  have before : (withStub E s.code target detour gateway).int3.handler = s.code.int3.handler := by
    rw [withStub_int3]
  rcases install_cases E s.code target detour gateway os with
    ⟨e, early, eq⟩ | ⟨nonnull, stub, eq⟩
  · have moves : s.step E (.install target detour gateway os) =
        { s with code := withStub E s.code target detour gateway } := by
      simp only [step, eq]
    refine ⟨?_, ?_, ?_⟩
    · rw [moves]
      exact ⟨active, stubbed⟩
    · rw [moves]
      exact releases_of_true fun registered => before.trans registered
    · rintro _ _ _ _ e' ⟨⟩ failed
      rw [moves]
      rw [eq] at failed
      cases failed
      exact ⟨rfl, ⟨rfl, fun _ _ => rfl⟩, rfl, fun _ => rfl, fun _ => rfl,
        fun late => absurd late early⟩
  · cases armed : Int3Hook.arm (withStub E s.code target detour gateway) target detour stub os with
    | mk result c' =>
      rw [armed] at eq
      cases result with
      | error e =>
        have moves : s.step E (.install target detour gateway os) = { s with code := c' } := by
          simp only [step, eq]
        have undone := Int3Hook.arm_error stubbed.registered armed
        have kept (used : ¬ c'.slots.Empty Code.maxHooks) : c'.int3.handler = true := by
          have used : ¬ (withStub E s.code target detour gateway).slots.Empty Code.maxHooks :=
            fun empty => used (undone.slots.empty_iff.mpr empty)
          exact (undone.used used).trans (stubbed.registered used)
        refine ⟨?_, ?_, ?_⟩
        · rw [moves]
          exact ⟨active, stubbed.fits.keep undone.slots.keys fun i _ used => undone.slots.values i used,
            kept⟩
        · rw [moves]
          intro registered gone
          have empty : c'.slots.Empty Code.maxHooks := by
            by_contra used
            exact nomatch (kept used).symm.trans gone
          refine ⟨empty, ?_⟩
          by_cases late : e = .patchFailed
          · have left := undone.unused late (undone.slots.empty_iff.mp empty)
            have clear : os.idle = true := by simpa using left.symm.trans gone
            exact clear
          · have same := undone.refused late
            exact nomatch (same.trans (before.trans registered)).symm.trans gone
        · rintro _ _ _ _ e' ⟨⟩ failed
          rw [moves]
          rw [eq] at failed
          cases failed
          exact ⟨rfl, undone⟩
      | ok hook =>
        have moves : s.step E (.install target detour gateway os) = ⟨c', hook ::ₘ s.hooks⟩ := by
          simp only [step, eq]
        obtain ⟨alive, registered, served'⟩ := Int3Hook.arm_ok nonnull stubbed armed
        refine ⟨?_, ?_, ?_⟩
        · rw [moves]
          refine ⟨fun h mem => ?_, ?_⟩
          · rcases Multiset.mem_cons.mp mem with rfl | mem
            · exact alive
            · exact active h mem
          · rw [Multiset.map_cons]
            exact served'
        · rw [moves]
          exact releases_of_true fun _ => registered
        · rintro _ _ _ _ e' ⟨⟩ failed
          rw [eq] at failed
          cases failed

theorem step_good (h : s.Good) (op : Int3Op) : (s.step E op).Good ∧ s.Behaves E op := by
  obtain ⟨active, served⟩ := h
  have owned {hook : Int3Hook} (mem : hook ∈ s.hooks) :
      Served Code.maxHooks s.code.slots
        (hook.owner ::ₘ (s.hooks.erase hook).map Int3Hook.owner) s.code.int3.handler := by
    rw [← Multiset.map_cons, Multiset.cons_erase mem]
    exact served
  have others {hook : Int3Hook} : ∀ h ∈ s.hooks.erase hook, h.active = true :=
    fun h mem => active h (Multiset.mem_of_mem_erase mem)
  cases op with
  | install target detour gateway os => exact install_good ⟨active, served⟩
  | remove hook os =>
    by_cases mem : hook ∈ s.hooks
    · have moves : s.step E (.remove hook os) = ⟨hook.drop s.code os, s.hooks.erase hook⟩ := if_pos mem
      obtain ⟨served', releases⟩ : Served Code.maxHooks (hook.drop s.code os).slots _ _ ∧ _ :=
        Int3Hook.drop_served (active hook mem) (owned mem)
      refine ⟨?_, ?_, nofun⟩
      · rw [moves]
        exact ⟨others, served'⟩
      · rw [moves]
        exact releases
    · have moves : s.step E (.remove hook os) = s := if_neg mem
      refine ⟨?_, ?_, nofun⟩
      · rw [moves]
        exact ⟨active, served⟩
      · rw [moves]
        exact releases_of_true id
  | forget hook =>
    by_cases mem : hook ∈ s.hooks
    · have moves : s.step E (.forget hook) = ⟨hook.forget s.code, s.hooks.erase hook⟩ := if_pos mem
      obtain ⟨served', same⟩ := Int3Hook.forget_served (active hook mem) (owned mem)
      refine ⟨?_, ?_, nofun⟩
      · rw [moves]
        exact ⟨others, served'⟩
      · rw [moves]
        exact releases_of_true fun registered => same.trans registered
    · have moves : s.step E (.forget hook) = s := if_neg mem
      refine ⟨?_, ?_, nofun⟩
      · rw [moves]
        exact ⟨active, served⟩
      · rw [moves]
        exact releases_of_true id
  | release idle =>
    exact ⟨⟨active, served.releaseIdleHandler idle⟩, releases_releaseIdleHandler idle, nofun⟩

theorem Reachable.good (run : Reachable E s) : s.Good := by
  induction run with
  | initial code free idle =>
    exact ⟨fun h mem => absurd mem (Multiset.notMem_zero h),
      Table.fits_zero fun i _ => free i, fun used => absurd (fun i _ => free i) used⟩
  | step op _ ih => exact (step_good ih op).1
  | others code _ same ih =>
    obtain ⟨active, served⟩ := ih
    refine ⟨active, ?_⟩
    unfold Code.slots
    rw [same]
    exact served

end Int3Process

/-! ### Runs of hardware breakpoints -/

section Veh

variable {v v' : VehTables} {c c' : Code} {target detour slot : ℕ} {gateway : Option Trampoline}
  {os : VehOs} {owners : Multiset (Owner ℕ ℕ)}

theorem VehTables.freeSlot_eq_ok (h : v.freeSlot target = .ok slot) :
    slot < slotCount ∧ v.slots.key slot = 0 ∧ ∀ i < slotCount, v.slots.key i ≠ target := by
  unfold VehTables.freeSlot at h
  split_ifs at h with taken
  split at h
  · cases h
  · rename_i i found
    cases h
    refine ⟨List.mem_range.mp (List.mem_of_find?_eq_some found), ?_, fun i lt same => taken ?_⟩
    · have zero := List.find?_some found
      exact of_decide_eq_true zero
    · exact List.any_eq_true.mpr ⟨i, List.mem_range.mpr lt, decide_eq_true same⟩

theorem VehTables.releaseIdleHandler_slots (idle : Bool) :
    (v.releaseIdleHandler idle).slots = v.slots := by
  unfold VehTables.releaseIdleHandler
  split_ifs <;> rfl

/-- The handler goes only when no slot is in use and no thread is in flight. -/
theorem VehTables.releaseIdleHandler_eq (idle : Bool) :
    v.releaseIdleHandler idle = v ∨
      v.slots.Empty slotCount ∧ idle = true ∧ v.releaseIdleHandler idle = { v with handler := false } := by
  unfold VehTables.releaseIdleHandler
  by_cases needed : v.handler = false ∨ v.keepHandler = true ∨
      (List.range slotCount).any (fun i => v.slotTarget i ≠ 0) = true
  · rw [if_pos needed]
    exact .inl rfl
  · rw [if_neg needed]
    cases idle with
    | false => exact .inl rfl
    | true =>
      refine .inr ⟨?_, rfl, rfl⟩
      by_contra used
      exact needed (.inr (.inr (any_iff_not_empty.mpr used)))

theorem Served.releaseIdleVeh (h : Served slotCount v.slots owners v.handler) (idle : Bool) :
    Served slotCount (v.releaseIdleHandler idle).slots owners (v.releaseIdleHandler idle).handler ∧
      Releases slotCount (v.releaseIdleHandler idle).slots v.handler
        (v.releaseIdleHandler idle).handler idle := by
  rcases v.releaseIdleHandler_eq idle with same | ⟨empty, clear, gone⟩
  · rw [same]
    exact ⟨h, Int3Process.releases_of_true id⟩
  · rw [gone]
    exact ⟨⟨h.fits, fun used => absurd empty used⟩, fun _ _ => ⟨empty, clear⟩⟩

/-- An install fails before it has touched anything, or publishes a free slot. -/
theorem VehHook.arm_cases (c : Code) (v : VehTables) (target detour : ℕ)
    (gateway : Option Trampoline) (os : VehOs) :
    (∃ e, VehHook.arm c v target detour gateway os = (.error e, c.dropGateway gateway, v)) ∨
    ∃ slot, v.freeSlot target = .ok slot ∧ VehHook.arm c v target detour gateway os =
      (.ok ⟨target, detour, slot, true, gateway⟩, c, v.publish slot target detour) := by
  unfold VehHook.arm
  cases free : v.freeSlot target with
  | error e => exact .inl ⟨e, rfl⟩
  | ok slot =>
    by_cases refused : v.handler = false ∧ os.handlerOk = false
    · simp only [if_pos refused]
      exact .inl ⟨_, rfl⟩
    · simp only [if_neg refused]
      exact .inr ⟨slot, rfl, rfl⟩

theorem VehHook.install_cases (E : Env) (c : Code) (v : VehTables) (target detour : ℕ)
    (gateway : Option (AttachOs × Bool)) (os : VehOs) :
    (∃ e c', c'.mem = (withStub E c target detour gateway).mem ∧
      VehHook.install E c v target detour gateway os = (.error e, c', v)) ∨
    target ≠ 0 ∧ ∃ slot stub c', v.freeSlot target = .ok slot ∧
      VehHook.install E c v target detour gateway os =
        (.ok ⟨target, detour, slot, true, stub⟩, c', v.publish slot target detour) := by
  have armed (stub : Option Trampoline) (c : Code) :
      (∃ e, VehHook.arm c v target detour stub os = (.error e, c.dropGateway stub, v)) ∨
      ∃ slot, v.freeSlot target = .ok slot ∧ VehHook.arm c v target detour stub os =
        (.ok ⟨target, detour, slot, true, stub⟩, c, v.publish slot target detour) :=
    VehHook.arm_cases c v target detour stub os
  unfold VehHook.install withStub
  by_cases null : target = 0 ∨ detour = 0
  · simp only [if_pos null]
    exact .inl ⟨.invalidParameter, c, rfl, rfl⟩
  · simp only [if_neg null]
    have nonnull : target ≠ 0 := fun zero => null (.inl zero)
    cases gateway with
    | none =>
      rcases armed none c with ⟨e, eq⟩ | ⟨slot, free, eq⟩
      · exact .inl ⟨e, _, dropGateway_mem none, eq⟩
      · exact .inr ⟨nonnull, slot, none, c, free, eq⟩
    | some p =>
      obtain ⟨aos, makeRx⟩ := p
      simp only
      cases built : buildOriginalGateway E.codec E.foreign c target aos makeRx with
      | mk stub c' =>
        cases stub with
        | none => exact .inl ⟨.gatewayBuildFailed, c', rfl, rfl⟩
        | some t =>
          rcases armed (some t) c' with ⟨e, eq⟩ | ⟨slot, free, eq⟩
          · exact .inl ⟨e, _, dropGateway_mem (some t), eq⟩
          · exact .inr ⟨nonnull, slot, some t, c', free, eq⟩

/-- A breakpoint gives its slot up, and the handler may go with the last one. -/
theorem VehHook.remove_served {h : VehHook} (active : h.active = true)
    (served : Served slotCount v.slots (h.owner ::ₘ owners) v.handler) :
    Served slotCount (h.remove v os).slots owners (h.remove v os).handler ∧
      Releases slotCount (h.remove v os).slots v.handler (h.remove v os).handler os.idle := by
  obtain ⟨lt, nonnull, key, -⟩ := served.fits.owned _ (Multiset.mem_cons_self _ _)
  set cleared : VehTables := { v with
    keepHandler := v.keepHandler || !(os.disarm h.slot).1
    retired := Function.update v.retired (v.retiredNext % retiredCount) h.target
    retiredNext := v.retiredNext + 1 }.setSlot h.slot 0 0 with clears
  have removed : h.remove v os = cleared.releaseIdleHandler os.idle := by
    unfold VehHook.remove
    rw [if_neg (by rw [active]; decide)]
  have after : Served slotCount cleared.slots owners cleared.handler := by
    refine ⟨?_, fun used => served.registered fun empty => ?_⟩
    · exact served.fits.clear (v.slots.set_key_self 0 0) (fun i => v.slots.set_key_of_ne 0 0)
        (fun i => v.slots.set_value_of_ne 0 0)
    · exact nonnull (key.symm.trans (empty _ lt))
  rw [removed]
  exact after.releaseIdleVeh os.idle

end Veh

namespace VehProcess

variable {E : Env} {s : VehProcess}

def Good (s : VehProcess) : Prop :=
  (∀ h ∈ s.hooks, h.active = true) ∧
    Served slotCount s.veh.slots (s.hooks.map VehHook.owner) s.veh.handler

theorem Good.slot_of_mem (good : s.Good) {h : VehHook} (mem : h ∈ s.hooks) :
    s.veh.slots.key h.slot = h.target ∧ s.veh.slots.value h.slot = h.detour ∧
      s.veh.handler = true :=
  good.2.of_mem (Multiset.mem_map_of_mem VehHook.owner mem)

/-- What an operation may do to the handler, and what a failed install leaves behind. -/
structure Behaves (E : Env) (s : VehProcess) (op : VehOp) : Prop where
  releases : Releases slotCount (s.step E op).veh.slots s.veh.handler (s.step E op).veh.handler op.idle
  undone : ∀ target detour gateway os e, op = .install target detour gateway os →
    (VehHook.install E s.code s.veh target detour gateway os).1 = .error e →
    (s.step E op).hooks = s.hooks ∧ (s.step E op).veh = s.veh ∧
      (s.step E op).code.mem = (withStub E s.code target detour gateway).mem

theorem step_good (h : s.Good) (op : VehOp) : (s.step E op).Good ∧ s.Behaves E op := by
  obtain ⟨active, served⟩ := h
  cases op with
  | install target detour gateway os =>
    rcases VehHook.install_cases E s.code s.veh target detour gateway os with
      ⟨e, c', mem, eq⟩ | ⟨nonnull, slot, stub, c', free, eq⟩
    · have moves : s.step E (.install target detour gateway os) = ⟨c', s.veh, s.hooks⟩ := by
        simp only [step, eq]
      refine ⟨?_, ?_, ?_⟩
      · rw [moves]
        exact ⟨active, served⟩
      · rw [moves]
        exact Int3Process.releases_of_true id
      · rintro _ _ _ _ e' ⟨⟩ _
        rw [moves]
        exact ⟨rfl, rfl, mem⟩
    · have moves : s.step E (.install target detour gateway os) =
          ⟨c', s.veh.publish slot target detour, ⟨target, detour, slot, true, stub⟩ ::ₘ s.hooks⟩ := by
        simp only [step, eq]
      obtain ⟨lt, empty, other⟩ := VehTables.freeSlot_eq_ok free
      refine ⟨?_, ?_, ?_⟩
      · rw [moves]
        refine ⟨fun h mem => ?_, ?_⟩
        · rcases Multiset.mem_cons.mp mem with rfl | mem
          · rfl
          · exact active h mem
        · rw [Multiset.map_cons]
          exact ⟨served.fits.set lt empty nonnull other, fun _ => rfl⟩
      · rw [moves]
        exact Int3Process.releases_of_true fun _ => rfl
      · rintro _ _ _ _ e' ⟨⟩ failed
        rw [eq] at failed
        cases failed
  | remove hook os =>
    by_cases mem : hook ∈ s.hooks
    · have moves : s.step E (.remove hook os) =
          ⟨s.code.dropGateway hook.gateway, hook.remove s.veh os, s.hooks.erase hook⟩ := if_pos mem
      have owned : Served slotCount s.veh.slots
          (hook.owner ::ₘ (s.hooks.erase hook).map VehHook.owner) s.veh.handler := by
        rw [← Multiset.map_cons, Multiset.cons_erase mem]
        exact served
      obtain ⟨served', releases⟩ : Served slotCount (hook.remove s.veh os).slots _ _ ∧ _ :=
        VehHook.remove_served (active hook mem) owned
      refine ⟨?_, ?_, nofun⟩
      · rw [moves]
        exact ⟨fun h mem => active h (Multiset.mem_of_mem_erase mem), served'⟩
      · rw [moves]
        exact releases
    · have moves : s.step E (.remove hook os) = s := if_neg mem
      refine ⟨?_, ?_, nofun⟩
      · rw [moves]
        exact ⟨active, served⟩
      · rw [moves]
        exact Int3Process.releases_of_true id

theorem Reachable.good (run : Reachable E s) : s.Good := by
  induction run with
  | initial code armed retired =>
    exact ⟨fun h mem => absurd mem (Multiset.notMem_zero h), Table.fits_zero fun i _ => rfl,
      fun used => absurd (fun i _ => rfl) used⟩
  | step op _ ih => exact (step_good ih op).1
  | others code _ ih => exact ih

end VehProcess

/-- Over every run of either kind of hook: targets are distinct, each live hook has its slot, slots in
use have a handler, the handler goes only when it is not needed, and a failed install changes no
slot and no byte.  Whether the handler is registered after a failed install with no hook left is
decided by the threads in flight. -/
theorem handler_tables (E : Env) :
    (∀ s, Int3Process.Reachable E s → s.Good ∧ ∀ op, s.Behaves E op) ∧
      ∀ s, VehProcess.Reachable E s → s.Good ∧ ∀ op, s.Behaves E op :=
  ⟨fun _ run => ⟨run.good, fun op => (Int3Process.step_good run.good op).2⟩,
    fun _ run => ⟨run.good, fun op => (VehProcess.step_good run.good op).2⟩⟩

/-! ### A handler that outlives its hooks -/

/-- A hook on `0x2000`. -/
def sampleInt3Process : Int3Process :=
  Int3Process.step sampleEnv ⟨(State.initial samplePristine sampleTables).process.code, 0⟩
    (.install 0x2000 0x4000 none ⟨true, true, true⟩)

/-- The hook was removed while a thread was in flight. -/
def idleInt3Process : Int3Process :=
  sampleInt3Process.step sampleEnv
    (.remove ⟨0x2000, 0x4000, 0xB8, 0, true, none⟩ ⟨true, true, false⟩)

theorem sampleInt3Process_reachable : Int3Process.Reachable sampleEnv sampleInt3Process :=
  .step _ (.initial _ (fun _ => rfl) rfl)

/-- An install that fails when the thread is gone takes the handler with it. -/
theorem failed_install_releases_handler :
    Int3Process.Reachable sampleEnv idleInt3Process ∧ idleInt3Process.hooks = 0 ∧
      (Int3Hook.install sampleEnv idleInt3Process.code 0x2000 0x4000 none ⟨true, false, true⟩).1 =
        .error .patchFailed ∧
      idleInt3Process.code.int3.handler = true ∧
      (idleInt3Process.step sampleEnv
        (.install 0x2000 0x4000 none ⟨true, false, true⟩)).code.int3.handler = false := by
  exact ⟨.step _ sampleInt3Process_reachable, by decide +kernel, by decide +kernel,
    by decide +kernel, by decide +kernel⟩

theorem Int3Process.Reachable.foldl {E : Env} {s : Int3Process} (reached : Reachable E s)
    (ops : List Int3Op) : Int3Process.Reachable E (ops.foldl (Int3Process.step E) s) := by
  induction ops generalizing s with
  | nil => exact reached
  | cons op rest ih => exact ih (.step op reached)

theorem VehProcess.Reachable.foldl {E : Env} {s : VehProcess} (reached : Reachable E s)
    (ops : List VehOp) : VehProcess.Reachable E (ops.foldl (VehProcess.step E) s) := by
  induction ops generalizing s with
  | nil => exact reached
  | cons op rest ih => exact ih (.step op reached)

/-- Two hooks, an install that cannot write its breakpoint, and the first hook removed. -/
def int3Turnover : Int3Process :=
  [Int3Op.install 0x2000 0x4000 none ⟨true, true, true⟩,
    .install 0x1000 0x5000 none ⟨true, true, true⟩, .install 0x3000 0x4000 none ⟨true, false, true⟩,
    .remove ⟨0x2000, 0x4000, 0xB8, 0, true, none⟩ ⟨true, true, true⟩].foldl
    (Int3Process.step sampleEnv) ⟨(State.initial samplePristine sampleTables).process.code, 0⟩

def turnoverOs : VehOs := ⟨true, VehTrap.twoThreads, fun _ => ⟨0, 0, 0, 0, 0, 0, 0, 0⟩, true⟩

/-- The same with debug registers; the install fails for want of a detour. -/
def vehTurnover : VehProcess :=
  [VehOp.install 0x2000 0x4000 none turnoverOs, .install 0x1000 0x5000 none turnoverOs,
    .install 0x3000 0 none turnoverOs, .remove ⟨0x2000, 0x4000, 0, true, none⟩ turnoverOs].foldl
    (VehProcess.step sampleEnv) ⟨(State.initial samplePristine sampleTables).process.code,
      ⟨fun _ => 0, fun _ => 0, fun _ => 0, fun _ => 0, 0, false, false⟩, 0⟩

/-- The hook that is left has a handler, for either kind. -/
theorem turnover_served :
    int3Turnover.hooks = {⟨0x1000, 0x5000, 0xB8, 1, true, none⟩} ∧
      int3Turnover.code.int3.handler = true ∧
      vehTurnover.hooks = {⟨0x1000, 0x5000, 1, true, none⟩} ∧ vehTurnover.veh.handler = true := by
  obtain ⟨int3, veh⟩ := handler_tables sampleEnv
  have run : Int3Process.Reachable sampleEnv int3Turnover :=
    Int3Process.Reachable.foldl (.initial _ (fun _ => rfl) rfl) _
  have run' : VehProcess.Reachable sampleEnv vehTurnover :=
    VehProcess.Reachable.foldl (.initial _ _ _) _
  have slot : int3Turnover.code.slots.key 1 = 0x1000 := by decide +kernel
  have slot' : vehTurnover.veh.slots.key 1 = 0x1000 := by decide +kernel
  refine ⟨by decide +kernel, (int3 _ run).1.2.registered fun empty => ?_, by decide +kernel,
    (veh _ run').1.2.registered fun empty => ?_⟩
  · exact absurd (slot.symm.trans (empty 1 (by decide))) (by decide)
  · exact absurd (slot'.symm.trans (empty 1 (by decide))) (by decide)

end NeoHook
