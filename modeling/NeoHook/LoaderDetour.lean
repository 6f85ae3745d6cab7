import NeoHook.Lib.Pool
import Mathlib.Data.Multiset.Filter
import Mathlib.Algebra.Order.Group.Multiset
import Mathlib.Logic.Function.Basic

/-!
# The detour on `LdrLoadDll`

Threads run through `hooked_ldr_load_dll` while others register and drop delay hooks and reclaim
passes release stubs.  Stubs have the numbers of their allocations, so that a stub is never taken
for a later one at its address.  What the threads' registers, stacks and instruction pointers refer
to is part of the state, since it is all that a reclaim pass inspects.  `ORIG_LDR` is read and written
one access after another; the source's store and load are release and acquire.
-/

namespace NeoHook

open Pool

/-- Where a stub is in its life. -/
inductive StubState where
  | unused
  /-- Of a queued or an installed hook. -/
  | inUse
  | quarantined
  /-- Taken out of the quarantine by the pass under way. -/
  | drained
  | released
  deriving DecidableEq, Repr

/-- Where the thread that holds the manager is: the step it takes next. -/
inductive ManagerStep where
  /-- `ensure_ldr_hook`: the test of `ldr_hook`. -/
  | ensure
  | attach
  | storeOrig (stub : ℕ)
  /-- The commit writes the jump, and comes to its end. -/
  | patch (stub : ℕ)
  | publish (stub : ℕ)
  | rollback (stub : ℕ)
  /-- `register_locked` behind `ensure_ldr_hook`. -/
  | install
  /-- The `LdrLoadDll` hook was taken out of the manager and is unhooked. -/
  | unhook (stub : ℕ)
  | retire (stub : ℕ)
  deriving DecidableEq, Repr

structure LoaderState where
  /-- `ORIG_LDR`. -/
  origLdr : Option ℕ
  /-- The stub of the hook in the manager's `ldr_hook`. -/
  ldrHook : Option ℕ
  /-- How many requests the manager holds. -/
  pending : ℕ
  /-- The entry of `LdrLoadDll` jumps to the detour. -/
  patched : Bool
  stub : ℕ → StubState
  fresh : ℕ
  /-- The stubs that the threads refer to. -/
  references : Multiset ℕ
  /-- The transaction lock is held. -/
  transaction : Bool
  /-- The thread that holds the manager's lock. -/
  manager : Option ManagerStep

/-- Where a call is: the step it takes next. -/
inductive LoaderCall where
  /-- `DelayHook::register`: waiting for the transaction lock, and for the manager. -/
  | register
  | lockManager
  /-- `DelayHook::remove`, waiting for the manager. -/
  | remove
  /-- Holding the manager, with the transaction lock or without. -/
  | manage (transaction : Bool)
  /-- `reclaim`: the drain, the pass over the suspended threads and whether it can inspect each of them,
  and the end. -/
  | reclaim
  | free (inspects : Bool)
  | settle
  /-- `hooked_ldr_load_dll`: the load of `ORIG_LDR`, and the call. -/
  | detour
  | call (stub : ℕ)
  /-- In the trampoline, or behind its jump with the pointer still in a register or on the stack. -/
  | inside (stub : ℕ)
  /-- In the original, referring to the trampoline no more. -/
  | original
  deriving DecidableEq, Repr

namespace LoaderState

def initial : LoaderState where
  origLdr := none
  ldrHook := none
  pending := 0
  patched := false
  stub _ := .unused
  fresh := 0
  references := 0
  transaction := false
  manager := none

/-- The holder of the manager goes on to `w`, or releases the lock. -/
def goto (s : LoaderState) (w : Option ManagerStep) : LoaderState := { s with manager := w }

def setStub (s : LoaderState) (t : ℕ) (v : StubState) : LoaderState :=
  { s with stub := Function.update s.stub t v }

/-- Takes the `LdrLoadDll` hook out of the manager if no request is left. -/
def takeLdrHook (s : LoaderState) : LoaderState :=
  match s.ldrHook with
  | some t => if s.pending = 0 then { s with ldrHook := none }.goto (some (.unhook t)) else s.goto none
  | none => s.goto none

end LoaderState

/-- One step under the manager's lock; `ok` is the outcome of what it calls. -/
def ManagerStep.access (ok : Bool) (s : LoaderState) : ManagerStep → LoaderState
  | .ensure => s.goto (some (if s.ldrHook = none then .attach else .install))
  | .attach =>
    if ok then
      { s.setStub s.fresh .inUse with fresh := s.fresh + 1 }.goto (some (.storeOrig s.fresh))
    else s.goto none
  | .storeOrig t => { s with origLdr := some t }.goto (some (.patch t))
  | .patch t =>
    if ok then { s with patched := true }.goto (some (.publish t)) else s.goto (some (.retire t))
  | .publish t =>
    if ok then { s with ldrHook := some t }.goto (some .install) else s.goto (some (.rollback t))
  | .rollback t => { s with patched := false }.goto (some (.retire t))
  | .install => if ok then { s with pending := s.pending + 1 }.goto none else s.takeLdrHook
  | .unhook t => { s with patched := false }.goto (some (.retire t))
  | .retire t => (s.setStub t .quarantined).goto none

/-- One step of a call.  A thread drops its last reference to the trampoline at any time after it has
entered it, since the trampoline ends in a jump.  The detour ends when the original returns: what it
does then, `install_ready_pending`, concerns INT3 hooks only. -/
def LoaderCall.access (ok : Bool) (s : LoaderState) : LoaderCall → LoaderState × Option LoaderCall
  | .register => ({ s with transaction := true }, some .lockManager)
  | .lockManager => (s.goto (some .ensure), some (.manage true))
  | .remove =>
    let s' := { s with pending := s.pending - 1 }.takeLdrHook
    (s', if s'.manager = none then none else some (.manage false))
  | .manage transaction =>
    match s.manager with
    | none => (s, none)
    | some w =>
      let s' := w.access ok s
      if s'.manager = none then
        ({ s' with transaction := if transaction then false else s'.transaction }, none)
      else (s', some (.manage transaction))
  | .reclaim =>
    ({ s with
        transaction := true
        stub := fun t => if s.stub t = .quarantined then .drained else s.stub t }, some (.free ok))
  | .free inspects =>
    -- one step, since every thread is suspended
    ({ s with
        stub := fun t =>
          if s.stub t = .drained ∧ inspects ∧ t ∉ s.references then .released else s.stub t },
      some .settle)
  | .settle =>
    ({ s with
        transaction := false
        stub := fun t => if s.stub t = .drained then .quarantined else s.stub t }, none)
  | .detour =>
    match s.origLdr with
    | none => (s, none)
    | some t => ({ s with references := t ::ₘ s.references }, some (.call t))
  | .call t => (s, some (.inside t))
  | .inside t => ({ s with references := s.references.erase t }, some .original)
  | .original => (s, none)

/-- Any number of registrations, drops, passes and loads.  A thread comes into the detour through
the patched entry; the bytes of the entry can always be written back. -/
def loaderMachine : Machine LoaderState LoaderCall Bool where
  enter s p := match p with
    | .register | .remove | .reclaim => True
    | .detour => s.patched = true
    | _ => False
  answers s p _ := match p with
    | .register | .reclaim => s.transaction = false
    | .lockManager => s.manager = none
    | .remove => s.manager = none ∧ 0 < s.pending
    | _ => True
  access ok s p := p.access ok s

/-- No pass releases the stub that `ORIG_LDR` holds while a thread has come into the detour and not
loaded it yet. -/
def Covered (s : LoaderState) (p : LoaderCall) (rest : Multiset LoaderCall) : Prop :=
  p = .free true → ∀ t ∈ s.origLdr, s.stub t = .drained → t ∉ s.references →
    LoaderCall.detour ∉ rest

/-- The stub a thread's registers or stack refer to. -/
def LoaderCall.holds : LoaderCall → Option ℕ
  | .call t | .inside t => some t
  | _ => none

/-- The entry may be patched for the hook the step is about. -/
def ManagerStep.Patches : ManagerStep → Prop
  | .publish _ | .rollback _ | .unhook _ => True
  | _ => False

/-- What the holder of the manager has established. -/
def ManagerStep.Good (s : LoaderState) : ManagerStep → Prop
  | .ensure | .install => True
  | .attach => s.ldrHook = none
  | .storeOrig t => s.ldrHook = none ∧ s.stub t = .inUse
  | .patch t | .publish t | .rollback t | .unhook t | .retire t =>
    s.ldrHook = none ∧ s.stub t = .inUse ∧ s.origLdr = some t

namespace LoaderState

/-- What holds of the manager and the stubs. -/
structure Good (s : LoaderState) : Prop where
  hooked : ∀ t, s.ldrHook = some t → s.origLdr = some t ∧ s.stub t = .inUse
  manager : ∀ w, s.manager = some w → w.Good s
  patched : s.patched = true → s.ldrHook ≠ none ∨ ∃ w, s.manager = some w ∧ w.Patches

/-- What holds of the stubs the threads use. -/
structure Safe (s : LoaderState) (calls : Multiset LoaderCall) : Prop where
  references : s.references = calls.filterMap LoaderCall.holds
  kept : ∀ t ∈ s.references, s.stub t ≠ .released
  detour : LoaderCall.detour ∈ calls → ∀ t, s.origLdr = some t → s.stub t ≠ .released

variable {s s' : LoaderState}

/-- Outside the window in which an entry is patched or restored, a patched entry is that of the
manager's hook. -/
theorem Good.hooked_of_patched (h : s.Good) (quiet : ∀ w, s.manager = some w → ¬ w.Patches) :
    s.patched = true → s.ldrHook ≠ none := by
  intro patched
  rcases h.patched patched with hooked | ⟨w, at_, patches⟩
  · exact hooked
  · exact absurd patches (quiet w at_)

/-- A patched entry leads to a detour that finds a stub in use. -/
theorem Good.orig_of_patched (h : s.Good) (patched : s.patched = true) :
    ∀ t, s.origLdr = some t → s.stub t = .inUse := by
  intro t orig
  rcases h.patched patched with hooked | ⟨w, at_, patches⟩
  · obtain ⟨u, hook⟩ := Option.ne_none_iff_exists'.mp hooked
    obtain ⟨orig', used⟩ := h.hooked u hook
    rw [orig] at orig'
    exact Option.some.inj orig' ▸ used
  · have mine := h.manager w at_
    cases w with
    | publish u | rollback u | unhook u =>
      have same := mine.2.2
      rw [orig] at same
      exact Option.some.inj same ▸ mine.2.1
    | ensure | attach | storeOrig | patch | install | retire => exact patches.elim

theorem setStub_stub_of_ne {t u : ℕ} {v : StubState} (h : u ≠ t) :
    (s.setStub t v).stub u = s.stub u :=
  Function.update_of_ne h _ _

theorem setStub_stub_self {t : ℕ} {v : StubState} : (s.setStub t v).stub t = v :=
  Function.update_self _ _ _

/-- Stubs in use stay in use, and manager and entry are as before. -/
theorem Good.restub {stub : ℕ → StubState} {transaction : Bool} (h : s.Good)
    (keeps : ∀ t, s.stub t = .inUse → stub t = .inUse) : { s with stub, transaction }.Good := by
  refine ⟨fun t hook => ?_, fun w at_ => ?_, h.patched⟩
  · exact ⟨(h.hooked t hook).1, keeps t (h.hooked t hook).2⟩
  · have mine := h.manager w at_
    cases w with
    | ensure | install => trivial
    | attach => exact mine
    | storeOrig t => exact ⟨mine.1, keeps t mine.2⟩
    | patch t | publish t | rollback t | unhook t | retire t =>
      exact ⟨mine.1, keeps t mine.2.1, mine.2.2⟩

/-- What the threads refer to is no concern of the manager. -/
theorem Good.refer (h : s.Good) (references : Multiset ℕ) : { s with references }.Good := by
  refine ⟨h.hooked, fun w at_ => ?_, h.patched⟩
  have mine := h.manager w at_
  cases w <;> exact mine

theorem initial_good : initial.Good where
  hooked _ eq := nomatch eq
  manager _ eq := nomatch eq
  patched eq := nomatch eq

/-- The holder of the manager goes on, and the rest is as before. -/
theorem Good.goto {w : Option ManagerStep} (h : s.Good)
    (idle : s.patched = true → s.ldrHook ≠ none ∨ ∃ v, w = some v ∧ v.Patches)
    (next : ∀ v, w = some v → v.Good (s.goto w)) : (s.goto w).Good :=
  ⟨h.hooked, next, idle⟩

/-- The hook is taken out of the manager, or the lock is released. -/
theorem Good.takeLdrHook (h : s.Good) (idle : s.patched = true → s.ldrHook ≠ none) :
    s.takeLdrHook.Good := by
  have stays : (s.goto none).Good := h.goto (fun patched => .inl (idle patched)) nofun
  unfold LoaderState.takeLdrHook
  cases hook : s.ldrHook with
  | none => exact stays
  | some t =>
    obtain ⟨orig, used⟩ := h.hooked t hook
    by_cases last : s.pending = 0
    · simp only [if_pos last]
      refine ⟨nofun, ?_, fun _ => .inr ⟨_, rfl, trivial⟩⟩
      rintro w ⟨⟩
      exact ⟨rfl, used, orig⟩
    · simp only [if_neg last]
      exact stays

end LoaderState

open LoaderState

section Manager

variable {ok : Bool} {s : LoaderState}

theorem ManagerStep.access_good {w : ManagerStep} (h : s.Good) (at_ : s.manager = some w) :
    (w.access ok s).Good := by
  have mine := h.manager w at_
  have idle (quiet : ¬ w.Patches) : s.patched = true → s.ldrHook ≠ none :=
    h.hooked_of_patched fun v eq => Option.some.inj (at_.symm.trans eq) ▸ quiet
  cases w with
  | ensure =>
    refine h.goto (fun patched => .inl (idle id patched)) ?_
    rintro v ⟨⟩
    split_ifs with none_
    · exact none_
    · trivial
  | attach =>
    have unpatched : s.patched ≠ true := fun patched => idle id patched mine
    simp only [access]
    split_ifs
    · refine ⟨fun t hook => absurd (hook.symm.trans mine) nofun, ?_,
        fun patched => absurd patched unpatched⟩
      rintro v ⟨⟩
      exact ⟨mine, setStub_stub_self⟩
    · exact h.goto (fun patched => absurd patched unpatched) nofun
  | storeOrig t =>
    have unpatched : s.patched ≠ true := fun patched => idle id patched mine.1
    refine ⟨fun u hook => absurd (hook.symm.trans mine.1) nofun, ?_,
      fun patched => absurd patched unpatched⟩
    rintro v ⟨⟩
    exact ⟨mine.1, mine.2, rfl⟩
  | patch t =>
    have unpatched : s.patched ≠ true := fun patched => idle id patched mine.1
    simp only [access]
    split_ifs
    · refine ⟨h.hooked, ?_, fun _ => .inr ⟨_, rfl, trivial⟩⟩
      rintro v ⟨⟩
      exact mine
    · refine h.goto (fun patched => absurd patched unpatched) ?_
      rintro v ⟨⟩
      exact mine
  | publish t =>
    simp only [access]
    split_ifs
    · refine ⟨?_, ?_, fun _ => .inl nofun⟩
      · rintro u ⟨⟩
        exact ⟨mine.2.2, mine.2.1⟩
      · rintro v ⟨⟩
        trivial
    · refine h.goto (fun _ => .inr ⟨_, rfl, trivial⟩) ?_
      rintro v ⟨⟩
      exact mine
  | rollback t | unhook t =>
    refine ⟨h.hooked, ?_, nofun⟩
    rintro v ⟨⟩
    exact mine
  | install =>
    simp only [access]
    split_ifs
    · exact ⟨h.hooked, nofun, fun patched => .inl (idle id patched)⟩
    · exact h.takeLdrHook (idle id)
  | retire t =>
    refine ⟨fun u hook => absurd (hook.symm.trans mine.1) nofun, nofun, fun patched => ?_⟩
    exact absurd mine.1 (idle id patched)

/-- The holder of the manager releases nothing, and what it stores in `ORIG_LDR` is in use. -/
structure Harmless (s s' : LoaderState) : Prop where
  references : s'.references = s.references
  stub : ∀ t, s'.stub t = .released → s.stub t = .released
  orig : ∀ t, s'.origLdr = some t → s.origLdr = some t ∨ s'.stub t = .inUse

theorem Harmless.of_eq {s' : LoaderState} (references : s'.references = s.references)
    (stub : s'.stub = s.stub) (orig : s'.origLdr = s.origLdr) : Harmless s s' :=
  ⟨references, fun _ eq => stub ▸ eq, fun _ eq => .inl (orig ▸ eq)⟩

theorem harmless_takeLdrHook : Harmless s s.takeLdrHook := by
  unfold LoaderState.takeLdrHook
  cases s.ldrHook with
  | none => exact .of_eq rfl rfl rfl
  | some t =>
    by_cases last : s.pending = 0
    · simp only [if_pos last]
      exact .of_eq rfl rfl rfl
    · simp only [if_neg last]
      exact .of_eq rfl rfl rfl

theorem setStub_released {t u : ℕ} (v : StubState) (alive : v ≠ .released)
    (h : (s.setStub t v).stub u = .released) : s.stub u = .released := by
  by_cases same : u = t
  · rw [same, setStub_stub_self] at h
    exact absurd h alive
  · exact (setStub_stub_of_ne same).symm.trans h

theorem ManagerStep.harmless {w : ManagerStep} (h : s.Good) (at_ : s.manager = some w) :
    Harmless s (w.access ok s) := by
  have mine := h.manager w at_
  cases w with
  | attach =>
    simp only [access]
    split_ifs
    · exact ⟨rfl, fun t gone => setStub_released .inUse nofun gone, fun t eq => .inl eq⟩
    · exact .of_eq rfl rfl rfl
  | storeOrig t =>
    refine ⟨rfl, fun _ gone => gone, ?_⟩
    rintro u ⟨⟩
    exact .inr mine.2
  | retire t =>
    exact ⟨rfl, fun u gone => setStub_released .quarantined nofun gone, fun u eq => .inl eq⟩
  | patch | publish =>
    simp only [access]
    split_ifs <;> exact .of_eq rfl rfl rfl
  | install =>
    simp only [access]
    split_ifs
    · exact .of_eq rfl rfl rfl
    · exact harmless_takeLdrHook
  | ensure | rollback | unhook => exact .of_eq rfl rfl rfl

end Manager

/-! ### The threads -/

section Threads

variable {ok : Bool} {s s' : LoaderState} {rest : Multiset LoaderCall} {next : Option LoaderCall}

theorem LoaderState.Safe.harmless {p : LoaderCall} (h : s.Safe (p ::ₘ rest)) (plain : p.holds = none)
    (step : Harmless s s') (goes : ∀ q, next = some q → q.holds = none ∧ q ≠ .detour) :
    s'.Safe (left next + rest) := by
  have others : (left next + rest).filterMap LoaderCall.holds = rest.filterMap LoaderCall.holds := by
    cases next with
    | none => rw [left_none, zero_add]
    | some q => rw [left_some_add, Multiset.filterMap_cons_none _ _ (goes q rfl).1]
  refine ⟨?_, ?_, ?_⟩
  · rw [step.references, h.references, others, Multiset.filterMap_cons_none _ _ plain]
  · intro t mem gone
    rw [step.references] at mem
    exact h.kept t mem (step.stub t gone)
  · intro mem t orig gone
    have before : LoaderCall.detour ∈ p ::ₘ rest := by
      rcases Multiset.mem_add.mp mem with mem | mem
      · exact absurd rfl (goes _ (mem_left.mp mem)).2
      · exact Multiset.mem_cons_of_mem mem
    rcases step.orig t orig with orig | used
    · exact h.detour before t orig (step.stub t gone)
    · exact nomatch used.symm.trans gone

theorem loader_step_safe {p : LoaderCall} (good : s.Good) (h : s.Safe (p ::ₘ rest))
    (covered : Covered s p rest) (admits : loaderMachine.answers s p ok)
    (moves : p.access ok s = (s', next)) : s'.Good ∧ s'.Safe (left next + rest) := by
  cases p with
  | register =>
    obtain ⟨rfl, rfl⟩ := Prod.mk.inj moves
    refine ⟨good.restub fun _ used => used, h.harmless rfl (.of_eq rfl rfl rfl) ?_⟩
    rintro q ⟨⟩
    exact ⟨rfl, nofun⟩
  | lockManager =>
    obtain ⟨rfl, rfl⟩ := Prod.mk.inj moves
    have idle := good.hooked_of_patched fun w at_ => nomatch at_.symm.trans admits
    refine ⟨good.goto (fun patched => .inl (idle patched)) ?_,
      h.harmless rfl (.of_eq rfl rfl rfl) ?_⟩
    · rintro v ⟨⟩
      trivial
    · rintro q ⟨⟩
      exact ⟨rfl, nofun⟩
  | remove =>
    obtain ⟨rfl, rfl⟩ := Prod.mk.inj moves
    have fewer : { s with pending := s.pending - 1 }.Good :=
      ⟨good.hooked, fun w at_ => absurd (at_.symm.trans admits.1) nofun, good.patched⟩
    have idle := fewer.hooked_of_patched fun w at_ => nomatch at_.symm.trans admits.1
    have harmless : Harmless s { s with pending := s.pending - 1 }.takeLdrHook :=
      ⟨harmless_takeLdrHook.references, harmless_takeLdrHook.stub, harmless_takeLdrHook.orig⟩
    refine ⟨fewer.takeLdrHook idle, h.harmless rfl harmless fun q eq => ?_⟩
    split_ifs at eq
    cases eq
    exact ⟨rfl, nofun⟩
  | manage transaction =>
    simp only [LoaderCall.access] at moves
    cases at_ : s.manager with
    | none =>
      rw [at_] at moves
      obtain ⟨rfl, rfl⟩ := Prod.mk.inj moves
      exact ⟨good, h.harmless rfl (.of_eq rfl rfl rfl) nofun⟩
    | some w =>
      rw [at_] at moves
      have good' : (w.access ok s).Good := w.access_good good at_
      have harmless : Harmless s (w.access ok s) := w.harmless good at_
      simp only at moves
      by_cases ends : (w.access ok s).manager = none
      · rw [if_pos ends] at moves
        obtain ⟨rfl, rfl⟩ := Prod.mk.inj moves
        exact ⟨good'.restub fun _ used => used,
          h.harmless rfl ⟨harmless.references, harmless.stub, harmless.orig⟩ nofun⟩
      · rw [if_neg ends] at moves
        obtain ⟨rfl, rfl⟩ := Prod.mk.inj moves
        refine ⟨good', h.harmless rfl harmless ?_⟩
        rintro q ⟨⟩
        exact ⟨rfl, nofun⟩
  | reclaim =>
    obtain ⟨rfl, rfl⟩ := Prod.mk.inj moves
    refine ⟨good.restub fun t used => ?_, h.harmless rfl ⟨rfl, fun t gone => ?_, fun t eq => .inl eq⟩ ?_⟩
    · rw [if_neg (by rw [used]; decide)]
      exact used
    · simp only at gone
      split_ifs at gone
      exact gone
    · rintro q ⟨⟩
      exact ⟨rfl, nofun⟩
  | settle =>
    obtain ⟨rfl, rfl⟩ := Prod.mk.inj moves
    refine ⟨good.restub fun t used => ?_,
      h.harmless rfl ⟨rfl, fun t gone => ?_, fun t eq => .inl eq⟩ nofun⟩
    · rw [if_neg (by rw [used]; decide)]
      exact used
    · simp only at gone
      split_ifs at gone
      exact gone
  | free inspects =>
    obtain ⟨rfl, rfl⟩ := Prod.mk.inj moves
    have plain : (left (some LoaderCall.settle) + rest).filterMap LoaderCall.holds =
        (LoaderCall.free inspects ::ₘ rest).filterMap LoaderCall.holds := by
      rw [left_some_add, Multiset.filterMap_cons_none _ _ rfl, Multiset.filterMap_cons_none _ _ rfl]
    refine ⟨good.restub fun t used => ?_, h.references.trans plain.symm, fun t mem => ?_,
      fun mem t orig gone => ?_⟩
    · rw [if_neg (by rw [used]; exact fun h => nomatch h.1)]
      exact used
    · have kept := h.kept t mem
      have mem : t ∈ s.references := mem
      simp only [mem, not_true_eq_false, and_false, if_false]
      exact kept
    · have waiting : LoaderCall.detour ∈ rest := by
        rw [left_some_add] at mem
        exact (Multiset.mem_cons.mp mem).resolve_left nofun
      simp only at gone
      split_ifs at gone with frees
      · exact covered (congrArg LoaderCall.free frees.2.1) t orig frees.1 frees.2.2 waiting
      · exact h.detour (Multiset.mem_cons_of_mem waiting) t orig gone
  | detour =>
    have waiting := h.detour (Multiset.mem_cons_self _ _)
    simp only [LoaderCall.access] at moves
    split at moves
    · obtain ⟨rfl, rfl⟩ := Prod.mk.inj moves
      exact ⟨good, h.harmless rfl (.of_eq rfl rfl rfl) nofun⟩
    · rename_i t orig
      obtain ⟨rfl, rfl⟩ := Prod.mk.inj moves
      refine ⟨good.refer _, ?_, fun u mem => ?_, fun _ => waiting⟩
      · have before := h.references
        rw [Multiset.filterMap_cons_none _ _ rfl] at before
        rw [left_some_add, Multiset.filterMap_cons_some LoaderCall.holds _ _ rfl, ← before]
      · rcases Multiset.mem_cons.mp mem with rfl | mem
        · exact waiting u orig
        · exact h.kept u mem
  | call t =>
    obtain ⟨rfl, rfl⟩ := Prod.mk.inj moves
    refine ⟨good, ?_, h.kept, fun mem => h.detour ?_⟩
    · have before := h.references
      rw [Multiset.filterMap_cons_some LoaderCall.holds _ _ rfl] at before
      rw [left_some_add, Multiset.filterMap_cons_some LoaderCall.holds _ _ rfl]
      exact before
    · rw [left_some_add] at mem
      exact Multiset.mem_cons_of_mem ((Multiset.mem_cons.mp mem).resolve_left nofun)
  | inside t =>
    obtain ⟨rfl, rfl⟩ := Prod.mk.inj moves
    refine ⟨good.refer _, ?_, fun u mem => h.kept u (Multiset.mem_of_mem_erase mem), fun mem => ?_⟩
    · have before := h.references
      rw [Multiset.filterMap_cons_some LoaderCall.holds _ _ rfl] at before
      rw [left_some_add, Multiset.filterMap_cons_none _ _ rfl]
      change s.references.erase t = _
      rw [before, Multiset.erase_cons_head]
    · rw [left_some_add] at mem
      exact h.detour (Multiset.mem_cons_of_mem ((Multiset.mem_cons.mp mem).resolve_left nofun))
  | original =>
    obtain ⟨rfl, rfl⟩ := Prod.mk.inj moves
    exact ⟨good, h.harmless rfl (.of_eq rfl rfl rfl) nofun⟩

/-- A thread comes into the detour. -/
theorem loader_enter_safe {p : LoaderCall} {calls : Multiset LoaderCall} (good : s.Good)
    (h : s.Safe calls) (begins : loaderMachine.enter s p) : s.Safe (p ::ₘ calls) := by
  have plain : p.holds = none := by
    cases p with
    | call | inside | original => exact begins.elim
    | register | lockManager | remove | manage | reclaim | free | settle | detour => rfl
  refine ⟨?_, h.kept, fun mem t orig => ?_⟩
  · rw [Multiset.filterMap_cons_none _ _ plain]
    exact h.references
  · rcases Multiset.mem_cons.mp mem with rfl | mem
    · rw [good.orig_of_patched begins t orig]
      decide
    · exact h.detour mem t orig

end Threads

/-- The stub a thread calls through has not been released, in any run in which no pass releases the
stub `ORIG_LDR` holds under a thread that has yet to load it. -/
theorem called_stub_not_released {s : LoaderState} {calls : Multiset LoaderCall}
    (run : Reachable loaderMachine.program Covered LoaderState.initial s calls) :
    ∀ t, LoaderCall.call t ∈ calls → s.stub t ≠ .released := by
  let both : LoaderState → Multiset LoaderCall → Prop := fun s calls => s.Good ∧ s.Safe calls
  have inv : both s calls := by
    refine run.invariant ⟨initial_good, ⟨rfl, nofun, nofun⟩⟩ ?_ ?_
    · rintro s calls p ⟨good, safe⟩ begins
      exact ⟨good, loader_enter_safe good safe begins⟩
    · rintro s s' p rest next ⟨good, safe⟩ covered ⟨ok, admits, moves⟩
      exact loader_step_safe good safe covered admits moves
  intro t mem
  refine inv.2.kept t ?_
  rw [inv.2.references]
  exact (Multiset.mem_filterMap _ _).mpr ⟨.call t, mem, rfl⟩

/-! ### Releasing a stub before it is loaded -/

instance (s : LoaderState) (p : LoaderCall) : Decidable (loaderMachine.enter s p) :=
  match p with
  | .register | .remove | .reclaim => inferInstanceAs (Decidable True)
  | .detour => inferInstanceAs (Decidable (s.patched = true))
  | .lockManager | .manage _ | .free _ | .settle | .call _ | .inside _ | .original =>
    inferInstanceAs (Decidable False)

instance (s : LoaderState) (p : LoaderCall) (ok : Bool) : Decidable (loaderMachine.answers s p ok) :=
  match p with
  | .register | .reclaim => inferInstanceAs (Decidable (s.transaction = false))
  | .lockManager => inferInstanceAs (Decidable (s.manager = none))
  | .remove => inferInstanceAs (Decidable (s.manager = none ∧ 0 < s.pending))
  | .manage _ | .free _ | .settle | .detour | .call _ | .inside _ | .original =>
    inferInstanceAs (Decidable True)

instance (s : LoaderState) (p : LoaderCall) (rest : Multiset LoaderCall) :
    Decidable (Covered s p rest) :=
  inferInstanceAs (Decidable (p = .free true → ∀ t ∈ s.origLdr, s.stub t = .drained →
    t ∉ s.references → LoaderCall.detour ∉ rest))

/-- The first delay hook is registered and a thread comes into the detour. -/
def enterMoves : List (Pool.Move LoaderCall Bool) :=
  [.enter .register] ++ List.replicate 8 (.step 0 true) ++ [.enter .detour]

/-- The last delay hook is dropped and a pass runs. -/
def dropMoves : List (Pool.Move LoaderCall Bool) :=
  [.enter .remove] ++ List.replicate 3 (.step 0 true) ++ [.enter .reclaim] ++
    List.replicate 3 (.step 0 true)

theorem unloaded_pointer_dangles :
    ∃ s calls, Reachable loaderMachine.program (fun _ _ _ => True) LoaderState.initial s calls ∧
      LoaderCall.call 0 ∈ calls ∧ s.stub 0 = .released := by
  have admits : loaderMachine.AdmitsAll (fun _ _ _ => True) (LoaderState.initial, [])
      (enterMoves ++ dropMoves ++ [.step 0 true]) := by decide +kernel
  exact ⟨_, _, Machine.reachable_schedule admits, by decide +kernel⟩

theorem loaded_pointer_kept :
    let c := loaderMachine.run (LoaderState.initial, [])
      (enterMoves ++ [.step 0 true] ++ dropMoves)
    LoaderCall.call 0 ∈ c.2 ∧ c.1.stub 0 ≠ .released := by
  have admits : loaderMachine.AdmitsAll Covered (LoaderState.initial, [])
      (enterMoves ++ [.step 0 true] ++ dropMoves) := by decide +kernel
  have waits : LoaderCall.call 0 ∈ (loaderMachine.run (LoaderState.initial, [])
      (enterMoves ++ [.step 0 true] ++ dropMoves)).2 := by decide +kernel
  exact ⟨waits, called_stub_not_released (Machine.reachable_schedule admits) 0 waits⟩

end NeoHook
