import NeoHook.TrapSteps

/-!
# Detours of other addresses

A handler loads the target of a slot and then its detour.  A trap never ends in the detour of
another address in runs in which no install publishes its detour in a slot that a handler has
matched for another address and not read yet; without that it can.
-/

namespace NeoHook

open Pool

namespace TrapState

/-- What a handler that matched slot `i` for the address `a` will load. -/
def Serves (s : TrapState) (a i : ℕ) : Prop :=
  s.slotDetour i = 0 ∨ (a, s.slotDetour i) ∈ s.installs

end TrapState

/-- What the lock holder relies on. -/
def Writer.Sound (s : TrapState) : Writer → Prop
  | .find _ _ _ free => ∀ j, free = some j → s.slotTarget j = 0
  | .register _ _ slot | .storeDetour _ _ slot => s.slotTarget slot = 0
  | .storeArmed t d slot | .storeTarget t d slot =>
    s.slotTarget slot = 0 ∧ s.slotDetour slot = d ∧ (t, d) ∈ s.installs
  | _ => True

/-- Each published slot serves its target, and no handler has gone elsewhere. -/
structure TrapState.Sound (s : TrapState) : Prop where
  slots : ∀ i, s.slotTarget i = 0 ∨ s.Serves (s.slotTarget i) i
  writer : ∀ w, s.writer = some w → w.Sound s
  verdicts : ∀ a d, (a, .detour d) ∈ s.verdicts → (a, d) ∈ s.installs

/-- A handler that matched a slot will load a detour of its address. -/
def TrapCall.Sound (s : TrapState) : TrapCall → Prop
  | .scan t _ _ | .ring t _ | .readByte t | .resync t _ _ | .live t _ => t.addr ≠ 0
  | .matched t _ i => t.addr ≠ 0 ∧ s.Serves t.addr i
  | _ => True

/-- A handler has matched the slot for an address other than `t` and not loaded its detour yet. -/
def TrapCall.Awaits (slot t : ℕ) : TrapCall → Prop
  | .matched trap _ i => i = slot ∧ trap.addr ≠ t
  | _ => False

instance (slot t : ℕ) : DecidablePred (TrapCall.Awaits slot t)
  | .matched trap _ i => inferInstanceAs (Decidable (i = slot ∧ trap.addr ≠ t))
  | .scan .. | .ring .. | .readByte .. | .resync .. | .live .. | .relive .. | .want .. | .hold
  | .forget .. => inferInstanceAs (Decidable False)

/-- The next store of the lock holder changes the detour under a handler. -/
def Writer.Disturbs (q : TrapCall) : Writer → Prop
  | .storeDetour t _ slot => q.Awaits slot t
  | _ => False

instance (q : TrapCall) : DecidablePred (Writer.Disturbs q)
  | .storeDetour t _ slot => inferInstanceAs (Decidable (q.Awaits slot t))
  | .find .. | .register .. | .storeArmed .. | .storeTarget .. | .arm .. | .undoTarget ..
  | .undoDetour .. | .disarm .. | .retire .. | .restore .. | .clearTarget .. | .clearDetour ..
  | .releaseScan .. | .inFlight | .removeHandler | .clearRing .. => inferInstanceAs (Decidable False)

/-- An install publishes its detour only in a slot that no handler awaits for another address. -/
def Undisturbed (s : TrapState) (p : TrapCall) (rest : Multiset TrapCall) : Prop :=
  p = .hold → ∀ w ∈ s.writer, ∀ q ∈ rest, ¬ w.Disturbs q

instance (s : TrapState) (p : TrapCall) (rest : Multiset TrapCall) :
    Decidable (Undisturbed s p rest) :=
  inferInstanceAs (Decidable (p = .hold → ∀ w ∈ s.writer, ∀ q ∈ rest, ¬ w.Disturbs q))

namespace TrapState

variable {s s' : TrapState}

/-- What is left alone when detours and their record are: every handler's expectation. -/
theorem Serves.same {a i : ℕ} (h : s.Serves a i) (detours : s'.slotDetour i = s.slotDetour i)
    (installs : s.installs ⊆ s'.installs) : s'.Serves a i := by
  unfold Serves
  rw [detours]
  exact h.imp_right fun mem => installs mem

/-- Targets are kept or cleared and detours are kept. -/
theorem Sound.keep (h : s.Sound) (targets : ∀ i, s'.slotTarget i = 0 ∨ s'.slotTarget i = s.slotTarget i)
    (detours : s'.slotDetour = s.slotDetour) (installs : s'.installs = s.installs)
    (verdicts : s'.verdicts = s.verdicts) (writer : ∀ w, s'.writer = some w → w.Sound s') :
    s'.Sound where
  slots i := by
    rcases targets i with zero | same
    · exact .inl zero
    · rw [same]
      refine (h.slots i).imp_right fun serves => serves.same (congrFun detours i) ?_
      rw [installs]
      exact List.Subset.refl _
  writer := writer
  verdicts := by
    rw [verdicts, installs]
    exact h.verdicts

/-- The lock holder goes on without touching the tables. -/
theorem Sound.goto (h : s.Sound) {w : Option Writer} (sound : ∀ v, w = some v → v.Sound s) :
    (s.goto w).Sound :=
  h.keep (fun _ => .inr rfl) rfl rfl rfl fun v eq => by
    have := sound v eq
    cases v <;> exact this

theorem Sound.clearTarget (h : s.Sound) {slot : ℕ} {w : Writer}
    (sound : w.Sound ((s.storeTarget slot 0).goto w)) : ((s.storeTarget slot 0).goto (some w)).Sound := by
  refine h.keep (fun i => ?_) rfl rfl rfl fun v eq => ?_
  · by_cases same : i = slot
    · rw [same]
      exact .inl (Function.update_self slot 0 s.slotTarget)
    · exact .inr (Function.update_of_ne same 0 s.slotTarget)
  · rw [← Option.some.inj eq]
    exact sound

theorem Serves.clear {a i slot : ℕ} (h : s.Serves a i) : (s.storeDetour slot 0).Serves a i := by
  by_cases same : i = slot
  · rw [same]
    exact .inl (Function.update_self slot 0 s.slotDetour)
  · exact h.same (Function.update_of_ne same 0 s.slotDetour) (List.Subset.refl _)

theorem Sound.clearDetour (h : s.Sound) {slot : ℕ} {w : Writer}
    (sound : w.Sound ((s.storeDetour slot 0).goto w)) :
    ((s.storeDetour slot 0).goto (some w)).Sound where
  slots i := (h.slots i).imp_right Serves.clear
  writer w' eq := by
    rw [← Option.some.inj eq]
    exact sound
  verdicts := h.verdicts

/-- An install publishes its detour in a free slot. -/
theorem Sound.storeDetour (h : s.Sound) {t d slot : ℕ} {w : Writer} (free : s.slotTarget slot = 0)
    (sound : w.Sound ({ s.storeDetour slot d with installs := (t, d) :: s.installs }.goto w)) :
    ({ s.storeDetour slot d with installs := (t, d) :: s.installs }.goto (some w)).Sound where
  slots i := by
    by_cases same : i = slot
    · rw [same]
      exact .inl free
    · refine (h.slots i).imp_right fun serves => serves.same ?_ (List.subset_cons_self _ _)
      exact Function.update_of_ne same d s.slotDetour
  writer w' eq := by
    rw [← Option.some.inj eq]
    exact sound
  verdicts a d' mem := List.mem_cons_of_mem _ (h.verdicts a d' mem)

/-- An install publishes its target. -/
theorem Sound.storeTarget (h : s.Sound) {t d slot : ℕ} {w : Writer}
    (ready : s.slotDetour slot = d ∧ (t, d) ∈ s.installs)
    (sound : w.Sound ((s.storeTarget slot t).goto w)) :
    ((s.storeTarget slot t).goto (some w)).Sound where
  slots i := by
    by_cases same : i = slot
    · subst same
      right
      change s.slotDetour i = 0 ∨ (Function.update s.slotTarget i t i, s.slotDetour i) ∈ s.installs
      rw [Function.update_self, ready.1]
      exact .inr ready.2
    · change Function.update s.slotTarget slot t i = 0 ∨
        s.Serves (Function.update s.slotTarget slot t i) i
      rw [Function.update_of_ne same]
      exact h.slots i
  writer w' eq := by
    rw [← Option.some.inj eq]
    exact sound
  verdicts := h.verdicts

end TrapState

/-! ### The lock holder -/

section Holder

variable {kind : TrapKind} {ok : Bool} {s : TrapState}

theorem Writer.access_sound {w : Writer} (h : s.Sound) (at_ : s.writer = some w) :
    (w.access kind ok s).Sound := by
  have mine := h.writer w at_
  have done : (s.goto none).Sound := h.goto (fun _ eq => by cases eq)
  cases w with
  | find t d i free =>
    simp only [access]
    split_ifs with inside taken empty
    · exact done
    · refine h.goto ?_
      rintro v ⟨⟩ j found
      rw [← Option.some.inj found]
      exact empty.1
    · refine h.goto ?_
      rintro v ⟨⟩
      exact mine
    · cases free with
      | none => exact done
      | some slot =>
        refine h.goto ?_
        rintro v ⟨⟩
        exact mine slot rfl
  | register t d slot =>
    simp only [access]
    split_ifs
    · refine h.goto ?_
      rintro v ⟨⟩
      exact mine
    · refine h.keep (fun _ => .inr rfl) rfl rfl rfl ?_
      rintro v ⟨⟩
      exact mine
    · exact done
  | storeDetour t d slot =>
    refine h.storeDetour mine ?_
    have ready : s.slotTarget slot = 0 ∧ Function.update s.slotDetour slot d slot = d ∧
        (t, d) ∈ (t, d) :: s.installs :=
      ⟨mine, Function.update_self slot d s.slotDetour, List.mem_cons_self⟩
    cases kind <;> exact ready
  | storeArmed t d slot =>
    refine h.keep (fun _ => .inr rfl) rfl rfl rfl ?_
    rintro v ⟨⟩
    exact mine
  | storeTarget t d slot => exact h.storeTarget mine.2 trivial
  | arm t d slot =>
    cases kind with
    | veh => exact h.keep (fun _ => .inr rfl) rfl rfl rfl (fun _ eq => by cases eq)
    | int3 =>
      simp only [access]
      split_ifs
      · exact h.keep (fun _ => .inr rfl) rfl rfl rfl (fun _ eq => by cases eq)
      · refine h.goto ?_
        rintro v ⟨⟩
        trivial
  | undoTarget slot => exact h.clearTarget trivial
  | undoDetour slot => exact h.clearDetour trivial
  | disarm hook =>
    refine h.keep (fun _ => .inr rfl) rfl rfl rfl ?_
    rintro v ⟨⟩
    trivial
  | retire hook =>
    refine h.keep (fun _ => .inr rfl) rfl rfl rfl ?_
    rintro v ⟨⟩
    cases kind <;> trivial
  | restore hook =>
    simp only [access]
    split_ifs
    · refine h.keep (fun _ => .inr rfl) rfl rfl rfl ?_
      rintro v ⟨⟩
      trivial
    · refine h.goto ?_
      rintro v ⟨⟩
      trivial
  | clearTarget hook => exact h.clearTarget trivial
  | clearDetour hook => exact h.clearDetour trivial
  | releaseScan i =>
    simp only [access]
    split_ifs
    · exact done
    · refine h.goto ?_
      rintro v ⟨⟩
      trivial
    · exact done
    · refine h.goto ?_
      rintro v ⟨⟩
      trivial
  | inFlight =>
    simp only [access]
    split_ifs
    · refine h.goto ?_
      rintro v ⟨⟩
      trivial
    · exact done
  | removeHandler =>
    refine h.keep (fun _ => .inr rfl) rfl rfl rfl fun v eq => ?_
    cases kind with
    | int3 =>
      rw [← Option.some.inj eq]
      trivial
    | veh => cases eq
  | clearRing k =>
    simp only [access]
    split_ifs
    · refine h.keep (fun _ => .inr rfl) rfl rfl rfl ?_
      rintro v ⟨⟩
      trivial
    · exact h.keep (fun _ => .inr rfl) rfl rfl rfl (fun _ eq => by cases eq)

/-- A handler that matched a slot is served as before, unless an install publishes its detour there
for another address. -/
theorem Writer.access_serves {w : Writer} {a i : ℕ} (h : s.Serves a i)
    (mine : ∀ t d, w = .storeDetour t d i → a = t) : (w.access kind ok s).Serves a i := by
  have same : ∀ {s' : TrapState}, s'.slotDetour = s.slotDetour → s'.installs = s.installs →
      s'.Serves a i := by
    intro s' detours installs
    refine h.same (congrFun detours i) ?_
    rw [installs]
    exact List.Subset.refl _
  cases w with
  | storeDetour t d slot =>
    by_cases here : i = slot
    · subst here
      right
      change (a, Function.update s.slotDetour i d i) ∈ (t, d) :: s.installs
      rw [Function.update_self, mine t d rfl]
      exact List.mem_cons_self
    · refine h.same ?_ (List.subset_cons_self _ _)
      exact Function.update_of_ne here d s.slotDetour
  | undoDetour slot => exact h.clear
  | clearDetour hook => exact h.clear
  | find t d k free =>
    simp only [access]
    split_ifs
    · exact same rfl rfl
    · exact same rfl rfl
    · exact same rfl rfl
    · cases free <;> exact same rfl rfl
  | register | restore | inFlight | clearRing =>
    simp only [access]
    split_ifs <;> exact same rfl rfl
  | releaseScan =>
    simp only [access]
    split_ifs <;> exact same rfl rfl
  | arm t d slot =>
    simp only [access]
    cases kind with
    | veh => exact same rfl rfl
    | int3 =>
      simp only
      split_ifs <;> exact same rfl rfl
  | storeArmed | storeTarget | undoTarget | disarm | retire | clearTarget | removeHandler =>
    exact same rfl rfl

end Holder

/-! ### Steps and runs -/

section Run

variable {R : TrapRules} {ok : Bool} {s s' : TrapState} {p q : TrapCall} {next : Option TrapCall}
  {rest : Multiset TrapCall}

/-- A handler's expectation only depends on the detours and their record. -/
theorem TrapCall.Sound.same (h : q.Sound s) (detours : s'.slotDetour = s.slotDetour)
    (installs : s'.installs = s.installs) : q.Sound s' := by
  cases q with
  | matched t again i =>
    refine ⟨h.1, h.2.same (congrFun detours i) ?_⟩
    rw [installs]
    exact List.Subset.refl _
  | scan | ring | readByte | resync | live => exact h
  | relive | want | hold | forget => trivial

theorem TrapState.Sound.settle (h : s.Sound) {t : Trap} {v : Verdict}
    (served : ∀ d, v = .detour d → (t.addr, d) ∈ s.installs) : (s.settle t v).Sound where
  slots := h.slots
  writer := fun w eq => by
    have := h.writer w eq
    cases w <;> exact this
  verdicts a d mem := by
    rcases List.mem_cons.mp mem with eq | mem
    · obtain ⟨rfl, rfl⟩ := Prod.mk.inj eq
      exact served d rfl
    · exact h.verdicts a d mem

/-- What one access of a handler does: it leaves the tables alone. -/
theorem TrapCall.handler_sound (h : s.Sound) (mine : p.Sound s)
    (handles : p.access R.kind ok s = (s', next)) (plain : ∀ r, p ≠ .want r) (free : p ≠ .hold)
    (keeps : ∀ k, p ≠ .forget k) :
    s'.Sound ∧ (∀ q, next = some q → q.Sound s') ∧ s'.slotDetour = s.slotDetour ∧
      s'.installs = s.installs := by
  have leaves : ∀ {t : Trap} {v : Verdict}, (s.settle t v, none) = (s', next) →
      (∀ d, v = .detour d → (t.addr, d) ∈ s.installs) → s'.Sound ∧ (∀ q, next = some q → q.Sound s') ∧
        s'.slotDetour = s.slotDetour ∧ s'.installs = s.installs := by
    intro t v eq served
    obtain ⟨rfl, rfl⟩ := Prod.mk.inj eq
    exact ⟨h.settle served, (fun _ eq => by cases eq), rfl, rfl⟩
  have goes : ∀ {q : TrapCall}, (s, some q) = (s', next) → q.Sound s →
      s'.Sound ∧ (∀ q, next = some q → q.Sound s') ∧
        s'.slotDetour = s.slotDetour ∧ s'.installs = s.installs := by
    intro q eq sound
    obtain ⟨rfl, rfl⟩ := Prod.mk.inj eq
    refine ⟨h, ?_, rfl, rfl⟩
    rintro q ⟨⟩
    exact sound
  cases p with
  | scan t again i =>
    simp only [access] at handles
    split_ifs at handles with inside found
    · refine goes handles ⟨mine, ?_⟩
      rw [← found]
      refine (h.slots i).resolve_left ?_
      rw [found]
      exact mine
    · exact goes handles mine
    · unfold Trap.afterScan at handles
      split_ifs at handles
      · exact leaves handles (fun _ eq => by cases eq)
      · cases kind : R.kind with
        | int3 =>
          rw [kind] at handles
          exact goes handles mine
        | veh =>
          rw [kind] at handles
          exact goes handles mine
  | matched t again i =>
    simp only [access] at handles
    split_ifs at handles with found
    · refine leaves handles ?_
      rintro d ⟨⟩
      exact mine.2.resolve_left found
    · exact goes handles mine.1
  | ring t k =>
    simp only [access] at handles
    split_ifs at handles
    · cases kind : R.kind with
      | int3 =>
        rw [kind] at handles
        exact goes handles mine
      | veh =>
        rw [kind] at handles
        exact goes handles trivial
    · exact goes handles mine
    · exact leaves handles (fun _ eq => by cases eq)
  | readByte t =>
    simp only [access] at handles
    split_ifs at handles
    · exact leaves handles (fun _ eq => by cases eq)
    · exact goes handles mine
  | resync t i handled =>
    simp only [access] at handles
    split_ifs at handles
    · exact goes handles mine
    · exact goes handles mine
    · exact leaves handles (fun _ eq => by cases eq)
    · exact leaves handles (fun _ eq => by cases eq)
    · exact goes handles mine
  | live t i => exact goes handles mine
  | relive t i =>
    simp only [access] at handles
    split_ifs at handles
    · exact goes handles trivial
    · exact leaves handles (fun _ eq => by cases eq)
  | want r => exact absurd rfl (plain r)
  | hold => exact absurd rfl free
  | forget k => exact absurd rfl (keeps k)

theorem TrapState.storeTarget_zero {slot j : ℕ} (h : s.slotTarget j = 0) :
    (s.storeTarget slot 0).slotTarget j = 0 := by
  by_cases same : j = slot
  · rw [same]
    exact Function.update_self slot 0 s.slotTarget
  · exact (Function.update_of_ne same 0 s.slotTarget).trans h

/-- Forgetting a hook clears its target. -/
theorem TrapState.Sound.forget (h : s.Sound) (k : TrapHook) :
    ({ s with hooks := s.hooks.erase k }.storeTarget k.slot 0).Sound := by
  refine h.keep (fun i => ?_) rfl rfl rfl fun w eq => ?_
  · by_cases same : i = k.slot
    · rw [same]
      exact .inl (Function.update_self k.slot 0 s.slotTarget)
    · exact .inr (Function.update_of_ne same 0 s.slotTarget)
  · have before := h.writer w eq
    cases w with
    | find t d i free => exact fun j found => storeTarget_zero (before j found)
    | register | storeDetour => exact storeTarget_zero before
    | storeArmed | storeTarget => exact ⟨storeTarget_zero before.1, before.2⟩
    | arm | undoTarget | undoDetour | disarm | retire | restore | clearTarget | clearDetour
    | releaseScan | inFlight | removeHandler | clearRing => trivial

theorem TrapRequest.start_sound (r : TrapRequest) (h : s.Sound) : (r.start R.kind ok s).Sound := by
  cases r with
  | install t d =>
    simp only [start]
    split_ifs
    · exact h
    · refine h.goto ?_
      rintro v ⟨⟩ j found
      cases found
  | remove k =>
    refine h.keep (fun _ => .inr rfl) rfl rfl rfl fun v eq => ?_
    rw [← Option.some.inj eq]
    cases R.kind <;> trivial
  | release =>
    refine h.goto ?_
    rintro v ⟨⟩
    trivial

theorem TrapRequest.start_tables (r : TrapRequest) :
    (r.start R.kind ok s).slotDetour = s.slotDetour ∧
      (r.start R.kind ok s).installs = s.installs := by
  cases r with
  | install t d =>
    simp only [start]
    split_ifs <;> exact ⟨rfl, rfl⟩
  | remove | release => exact ⟨rfl, rfl⟩

/-- Each step keeps the tables sound and every handler served. -/
theorem trap_step_sound (h : s.Sound) (mine : p.Sound s) (others : ∀ q ∈ rest, q.Sound s)
    (allowed : Undisturbed s p rest) (moves : (trapMachine R).program.step s p s' next) :
    s'.Sound ∧ (∀ q, next = some q → q.Sound s') ∧ ∀ q ∈ rest, q.Sound s' := by
  obtain ⟨ok, -, moves⟩ := moves
  change p.access R.kind ok s = (s', next) at moves
  have idle : ∀ {b : Prop} [Decidable b] {q : TrapCall},
      (if b then none else some .hold) = some q → q.Sound s' := by
    intro b _ q eq
    split_ifs at eq
    rw [← Option.some.inj eq]
    trivial
  by_cases wants : ∃ r, p = .want r
  · obtain ⟨r, rfl⟩ := wants
    obtain ⟨rfl, rfl⟩ := Prod.mk.inj moves
    have tables := @TrapRequest.start_tables R ok s r
    exact ⟨r.start_sound h, fun q eq => idle eq, fun q mem =>
      (others q mem).same tables.1 tables.2⟩
  by_cases holds : p = .hold
  · subst holds
    simp only [TrapCall.access] at moves
    cases at_ : s.writer with
    | none =>
      rw [at_] at moves
      obtain ⟨rfl, rfl⟩ := Prod.mk.inj moves
      exact ⟨h, (fun _ eq => by cases eq), others⟩
    | some w =>
      rw [at_] at moves
      obtain ⟨rfl, rfl⟩ := Prod.mk.inj moves
      refine ⟨w.access_sound h at_, fun q eq => idle eq, fun q mem => ?_⟩
      have before := others q mem
      cases q with
      | matched t again i =>
        refine ⟨before.1, Writer.access_serves before.2 fun t' d eq => ?_⟩
        subst eq
        by_contra other
        exact allowed rfl _ at_ _ mem ⟨rfl, other⟩
      | scan | ring | readByte | resync | live => exact before
      | relive | want | hold | forget => trivial
  by_cases forgets : ∃ k, p = .forget k
  · obtain ⟨k, rfl⟩ := forgets
    obtain ⟨rfl, rfl⟩ := Prod.mk.inj moves
    exact ⟨h.forget k, (fun _ eq => by cases eq), fun q mem => (others q mem).same rfl rfl⟩
  · obtain ⟨sound, next_, detours, installs⟩ := TrapCall.handler_sound h mine moves
      (fun r eq => wants ⟨r, eq⟩) holds (fun k eq => forgets ⟨k, eq⟩)
    exact ⟨sound, next_, fun q mem => (others q mem).same detours installs⟩

theorem initial_sound (mem : ℕ → UInt8) : (TrapState.initial mem).Sound where
  slots _ := .inl rfl
  writer _ eq := by cases eq
  verdicts _ _ mem := absurd mem List.not_mem_nil

/-- No trap at an address ends in a detour that was never installed for it, in any run in which no
install publishes its detour in a slot that a handler has matched for another address and not read
yet. -/
theorem detours_of_address {mem : ℕ → UInt8} {calls : Multiset TrapCall}
    (run : Reachable (trapMachine R).program Undisturbed (TrapState.initial mem) s calls) :
    ∀ a d, (a, .detour d) ∈ s.verdicts → (a, d) ∈ s.installs := by
  have enter : ∀ {s p}, TrapState.Sound s → (trapMachine R).program.enter s p → p.Sound s := by
    intro s p _ begins
    change (trapMachine R).enter s p at begins
    cases p with
    | scan t again i =>
      cases again <;> cases i <;> first | exact begins.2.1 | exact begins.elim
    | want | hold | forget | relive => trivial
    | matched | ring | readByte | resync | live => exact begins.elim
  have both := run.each (initial_sound mem) enter fun shared own others allow moves =>
    trap_step_sound shared own others allow moves
  exact both.1.verdicts

end Run

/-! ### Reusing a slot under a handler -/

/-- Any trap, any call and any answer of the OS. -/
def freeTraps (kind : TrapKind) : TrapRules := ⟨kind, fun _ _ => True, True, fun _ _ => True⟩

instance (kind : TrapKind) (s : TrapState) (a : ℕ) : Decidable ((freeTraps kind).traps s a) :=
  inferInstanceAs (Decidable True)

instance (kind : TrapKind) : Decidable (freeTraps kind).forgets := inferInstanceAs (Decidable True)

instance (kind : TrapKind) (w : Writer) (ok : Bool) : Decidable ((freeTraps kind).answers w ok) :=
  inferInstanceAs (Decidable True)

/-- A trap at `0x1000`. -/
def sampleTrap : Trap := ⟨0x1000, [], false, 0⟩

/-- The locks are taken, a free slot is found, and a hardware breakpoint on `target` is armed. -/
def armMoves (target detour : ℕ) : List (Pool.Move TrapCall Bool) :=
  [.enter (.want (.install target detour)), .step 0 true] ++
    List.replicate (TrapKind.veh.slots + 6) (.step 0 true)

/-- A handler matches the first slot; its hook is removed and the slot goes to a hook on `0x2000`,
whose detour the handler then loads. -/
def reuseMoves : List (Pool.Move TrapCall Bool) :=
  armMoves 0x1000 0x3000 ++
    [.enter (.scan sampleTrap false 0), .step 0 true,
      .enter (.want (.remove ⟨0x1000, 0x3000, 0, 0⟩)), .step 0 true] ++
    List.replicate (TrapKind.veh.slots + 5) (.step 0 true) ++ [.step 0 false] ++
    armMoves 0x2000 0x4000 ++ [.step 0 true]

/-- Some run sends a trap at one address to a detour that was never installed there. -/
def Misdirects (kind : TrapKind) : Prop :=
  ∃ s calls, Reachable (trapMachine (freeTraps kind)).program (fun _ _ _ => True)
      (TrapState.initial fun _ => 0x90) s calls ∧
    (0x1000, .detour 0x4000) ∈ s.verdicts ∧ (0x1000, 0x4000) ∉ s.installs

theorem reused_slot_misdirects : Misdirects .veh ∧ Misdirects .int3 := by
  constructor
  · have admits : (trapMachine (freeTraps .veh)).AdmitsAll (fun _ _ _ => True)
        (TrapState.initial fun _ => 0x90, []) reuseMoves := by decide +kernel
    exact ⟨_, _, Machine.reachable_schedule admits, by decide +kernel⟩
  · have answers (w : Writer) : (freeTraps .int3).answers w true := trivial
    have fresh (j : ℕ) : (TrapState.initial fun _ => 0x90).slotTarget j = 0 := rfl
    have only := TrapState.installed_empty (t := 0x1000) (d := 0x3000) fresh
    have hooked := reachable_install (t := 0x1000) (d := 0x3000) answers .start rfl rfl (by decide)
      fresh
    have trapped := hooked.enter (TrapCall.scan sampleTrap false 0) ⟨trivial, by decide, rfl⟩
    have found := trapped.step _ 0 rfl trivial ⟨true, trivial, rfl⟩
    have unhooked := reachable_remove (h := ⟨0x1000, 0x3000, 0, 0x90⟩) answers found rfl trivial
      rfl (by decide) rfl only
    have reused := reachable_install (t := 0x2000) (d := 0x4000) answers unhooked rfl rfl (by decide)
      (TrapState.removed_empty only)
    have resumed := reused.step _ 0 rfl trivial ⟨true, trivial, rfl⟩
    exact ⟨_, _, resumed, by decide +kernel⟩

/-- A handler that finds the hook it trapped on. -/
def handledMoves : List (Pool.Move TrapCall Bool) :=
  armMoves 0x1000 0x3000 ++
    [.enter (.scan sampleTrap false 0), .step 0 true, .step 0 true]

theorem handled_by_own_detour :
    let s := ((trapMachine (freeTraps .veh)).run (TrapState.initial fun _ => 0x90, []) handledMoves).1
    (0x1000, .detour 0x3000) ∈ s.verdicts ∧ (0x1000, 0x3000) ∈ s.installs := by
  have admits : (trapMachine (freeTraps .veh)).AdmitsAll Undisturbed
      (TrapState.initial fun _ => 0x90, []) handledMoves := by decide +kernel
  have resumed : (0x1000, .detour 0x3000) ∈ ((trapMachine (freeTraps .veh)).run
      (TrapState.initial fun _ => 0x90, []) handledMoves).1.verdicts := by decide +kernel
  exact ⟨resumed, detours_of_address (Machine.reachable_schedule admits) _ _ resumed⟩

end NeoHook
