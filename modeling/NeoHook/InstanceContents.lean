import NeoHook.Instances

/-!
# What the clones of instance hooks hold

With instance hooks alone at work, a clone mirrors the object's own table except where an enabled
hook redirects a slot.  Together with the ownership invariant this describes every reachable state,
what the removal of the last hook restores, and that a failed install changes nothing.
-/

namespace NeoHook

open ByteMap

/-! ### The slots of installed hooks -/

/-- A slot of a registered clone is not one of another slot or of another clone. -/
theorem CloneInv.slot_ne {M : Modules} {w₀ : ℕ → ℕ} {t : Tables} {L : Multiset VTableInstanceHook}
    {S : Multiset (ℕ × ℕ)} (inv : CloneInv M w₀ t L S) {o o' i index : ℕ} {s s' : SharedClone}
    (hs : t.instanceClones o = some s) (hs' : t.instanceClones o' = some s') (hi : i < s'.len)
    (hx : index < s.len) (ne : o' ≠ o ∨ i ≠ index) :
    slotAddr s'.clone i ≠ slotAddr s.clone index := by
  by_cases e : o' = o
  · subst e
    obtain rfl : s' = s := Option.some.inj (hs'.symm.trans hs)
    exact fun h => ne.elim (· rfl) (· (slotAddr_inj.1 h))
  · exact (inv.clones_apart hs' hs e).ne (slotAddr_inClone hi) (slotAddr_inClone hx)

/-- The slot of each hook holds its detour or the pointer it found. -/
def CloneCells (t : Tables) (L : Multiset VTableInstanceHook) : Prop :=
  ∀ h ∈ L, t.words (slotAddr h.clonedVtable h.index) = if h.enabled then h.detour else h.originalPtr

namespace CloneCells

variable {M : Modules} {w₀ : ℕ → ℕ} {t t' : Tables} {L : Multiset VTableInstanceHook}
  {S : Multiset (ℕ × ℕ)} {h : VTableInstanceHook}

/-- Writes outside the slots of registered clones. -/
theorem frame (cells : CloneCells t L) (inv : CloneInv M w₀ t L S)
    (words : ∀ {o s i}, t.instanceClones o = some s → i < s.len →
      t'.words (slotAddr s.clone i) = t.words (slotAddr s.clone i)) : CloneCells t' L := by
  intro h hh
  obtain ⟨s, hs, hc, hi, -⟩ := inv.hook h hh
  have held := cells h hh
  rw [hc] at held ⊢
  rw [words hs hi]
  exact held

/-- A write to the slot of one hook leaves those of the others. -/
theorem setWord (cells : CloneCells t (h ::ₘ L)) (inv : CloneInv M w₀ t (h ::ₘ L) S) (v : ℕ) :
    CloneCells (t.setWord (slotAddr h.clonedVtable h.index) v) L := by
  intro k hk
  obtain ⟨s, hs, hc, hi, -⟩ := inv.hook h (Multiset.mem_cons_self _ _)
  obtain ⟨s', hs', hc', hi', -⟩ := inv.hook k (Multiset.mem_cons_of_mem hk)
  have held := cells k (Multiset.mem_cons_of_mem hk)
  have away : k.objectVptr ≠ h.objectVptr ∨ k.index ≠ h.index := by
    by_cases e : k.objectVptr = h.objectVptr
    · exact Or.inr (inv.index_ne k hk e)
    · exact Or.inl e
  rw [hc'] at held ⊢
  rw [hc]
  exact (Function.update_of_ne (inv.slot_ne hs hs' hi' hi away) _ _).trans held

theorem move {L' : Multiset VTableInstanceHook} {S' : Multiset (ℕ × ℕ)} (cells : CloneCells t L)
    (inv : CloneInv M w₀ t L S) (m : InstanceMove M t L S t' L' S') : CloneCells t' L' := by
  cases m with
  | stay => exact cells
  | newClone out =>
    refine cells.frame inv fun _ _ => ?_
    unfold Tables.newClonedVtable at out
    split_ifs at out
    split at out
    · cases out
    · split_ifs at out
      obtain ⟨-, rfl⟩ := Prod.mk.inj (Except.ok.inj out)
      rfl
  | dropClone => exact cells.frame inv fun _ _ => rfl
  | @fillClone _ _ clone len _ _ src hb hi =>
    refine cells.frame inv fun {o s i} hs hlt => Tables.fillClone_words hi ?_
    have ne : (s.clone, s.len) ≠ (clone, len) := fun e => (inv.clone_mem hs).2 (e ▸ hb)
    exact (inv.clone_apart (inv.clone_mem hs).1 (inv.storage_mem _ hb) ne).notMem
      (slotAddr_inClone hlt)
  | @joinClone _ _ o s index detour hs hi hf =>
    refine Multiset.forall_mem_cons.2 ⟨Function.update_self .., fun k hk => ?_⟩
    obtain ⟨s', hs', hc', hi', flag⟩ := inv.hook k hk
    have away : k.objectVptr ≠ o ∨ k.index ≠ index := by
      by_cases e : k.objectVptr = o
      · refine Or.inr fun same => ?_
        rw [e, hs] at hs'
        obtain rfl := Option.some.inj hs'
        rw [same, hf] at flag
        cases flag
      · exact Or.inl e
    have held := cells k hk
    rw [hc'] at held ⊢
    exact (Function.update_of_ne (inv.slot_ne hs hs' hi' hi away) _ _).trans held
  | @makeClone _ _ o clone len index detour ho hz hs hi hv =>
    have hb := Multiset.mem_cons_self (clone, len) S'
    have hm := inv.storage_mem _ hb
    refine Multiset.forall_mem_cons.2 ⟨?_, fun k hk => ?_⟩
    · have ne : slotAddr clone index ≠ o :=
        fun e => inv.object_notMem hm ho (e ▸ slotAddr_inClone hi)
      exact (Function.update_of_ne ne _ _).trans (Function.update_self ..)
    · obtain ⟨s', hs', hc', hi', -⟩ := inv.hook k hk
      have held := cells k hk
      rw [hc'] at held ⊢
      have ne : slotAddr s'.clone k.index ≠ o :=
        fun e => inv.object_notMem (inv.clone_mem hs').1 ho (e ▸ slotAddr_inClone hi')
      have other : (s'.clone, s'.len) ≠ (clone, len) := fun e => (inv.clone_mem hs').2 (e ▸ hb)
      refine (Function.update_of_ne ne _ _).trans ((Tables.fillClone_words hi ?_).trans held)
      exact (inv.clone_apart (inv.clone_mem hs').1 hm other).notMem (slotAddr_inClone hi')
  | @toggle _ _ h on =>
    exact Multiset.forall_mem_cons.2 ⟨Function.update_self .., cells.setWord inv _⟩
  | @remove _ _ h h' ok _ out =>
    obtain ⟨s, hs, eq⟩ := inv.performUnhook_eq ok
    rw [eq] at out
    split_ifs at out with last hok <;> obtain ⟨rfl, -⟩ := Prod.mk.inj (Except.ok.inj out)
    · intro k hk
      obtain ⟨s', hs', hc', hi', -⟩ := inv.hook k (Multiset.mem_cons_of_mem hk)
      have held := cells k (Multiset.mem_cons_of_mem hk)
      rw [hc'] at held ⊢
      have ne : slotAddr s'.clone k.index ≠ h.objectVptr := fun e =>
        inv.object_notMem (inv.clone_mem hs').1 (inv.vptr hs).1 (e ▸ slotAddr_inClone hi')
      exact (Function.update_of_ne ne _ _).trans held
    · exact cells.setWord inv h.originalPtr

end CloneCells

/-! ### What the clones hold -/

/-- While nothing but instance hooks writes tables: the tables of the process are untouched, and a
slot of a clone holds the detour of the enabled hook on it or else the entry of the original table. -/
structure CloneContents (M : Modules) (w₀ : ℕ → ℕ) (t : Tables) (L : Multiset VTableInstanceHook) :
    Prop where
  table : ∀ {a}, (∃ b ∈ M.tables, InRange b.1 b.2 a) → t.words a = w₀ a
  valid : ∀ {o s}, t.instanceClones o = some s → ValidTable M s.originalVtable s.len
  hook : ∀ h ∈ L, ∀ {s}, t.instanceClones h.objectVptr = some s →
    h.originalPtr = w₀ (slotAddr s.originalVtable h.index) ∧
      t.words (slotAddr s.clone h.index) = if h.enabled then h.detour else h.originalPtr
  rest : ∀ {o s i}, t.instanceClones o = some s → i < s.len →
    (∀ h ∈ L, h.objectVptr = o → h.index ≠ i) →
      t.words (slotAddr s.clone i) = w₀ (slotAddr s.originalVtable i)

namespace CloneContents

variable {M : Modules} {w₀ : ℕ → ℕ} {t t' : Tables} {L : Multiset VTableInstanceHook}
  {S : Multiset (ℕ × ℕ)} {h : VTableInstanceHook} {o index detour : ℕ}

theorem initial (M : Modules) (w₀ : ℕ → ℕ) (flags : ℕ → Bool) :
    CloneContents M w₀ (InstanceState.initial w₀ flags).tables 0 := by
  constructor <;> simp [InstanceState.initial]

/-- Writes outside the tables and the registered clones keep the contents. -/
theorem frame (con : CloneContents M w₀ t L) (inv : CloneInv M w₀ t L S)
    (clones : t'.instanceClones = t.instanceClones)
    (table : ∀ a, (∃ b ∈ M.tables, InRange b.1 b.2 a) → t'.words a = t.words a)
    (words : ∀ {o s i}, t.instanceClones o = some s → i < s.len →
      t'.words (slotAddr s.clone i) = t.words (slotAddr s.clone i)) :
    CloneContents M w₀ t' L where
  table ha := (table _ ha).trans (con.table ha)
  valid hs := con.valid (clones ▸ hs)
  hook h hh s hs := by
    rw [clones] at hs
    obtain ⟨s', hs', -, hi, -⟩ := inv.hook h hh
    obtain rfl : s' = s := Option.some.inj (hs'.symm.trans hs)
    rw [words hs hi]
    exact con.hook h hh hs
  rest hs hi none := by
    rw [clones] at hs
    rw [words hs hi]
    exact con.rest hs hi none

theorem fillClone (con : CloneContents M w₀ t L) (inv : CloneInv M w₀ t L S) {clone len : ℕ}
    (hb : (clone, len) ∈ S) (hi : index < len) (src detour : ℕ) :
    CloneContents M w₀ (t.fillClone src clone len index detour) L := by
  have hm := inv.storage_mem _ hb
  refine con.frame inv rfl (fun a ha => ?_) fun {o s i} hs hlt => ?_
  · exact Tables.fillClone_words hi (inv.table_notMem hm ha)
  · refine Tables.fillClone_words hi ?_
    have ne : (s.clone, s.len) ≠ (clone, len) := fun e => (inv.clone_mem hs).2 (e ▸ hb)
    exact (inv.clone_apart (inv.clone_mem hs).1 hm ne).notMem (slotAddr_inClone hlt)

theorem joinClone (con : CloneContents M w₀ t L) (inv : CloneInv M w₀ t L S) {s : SharedClone}
    (hs : t.instanceClones o = some s) (hi : index < s.len)
    (hf : t.flags (ownedFlag s.clone s.len index) = false) :
    CloneContents M w₀ (t.joinClone o s index detour)
      (⟨o, s.clone, index, t.words (slotAddr s.clone index), detour, true, true⟩ ::ₘ L) := by
  have noHook : ∀ h ∈ L, h.objectVptr = o → h.index ≠ index := by
    intro h hh ho e
    obtain ⟨s', hs', -, -, hflag⟩ := inv.hook h hh
    rw [ho] at hs'
    obtain rfl : s' = s := Option.some.inj (hs'.symm.trans hs)
    rw [e, hf] at hflag
    cases hflag
  have entry : ∀ {o' s'}, (t.joinClone o s index detour).instanceClones o' = some s' →
      ∃ s'', t.instanceClones o' = some s'' ∧ s'.clone = s''.clone ∧ s'.len = s''.len ∧
        s'.originalVtable = s''.originalVtable := by
    intro o' s' g
    by_cases e : o' = o
    · subst e
      rw [Tables.joinClone, Tables.setClone_self, Option.some.injEq] at g
      subst g
      exact ⟨s, hs, rfl, rfl, rfl⟩
    · exact ⟨s', (Tables.setClone_of_ne _ _ e).symm.trans g, rfl, rfl, rfl⟩
  exact {
    table := fun {a} ha => by
      refine (Function.update_of_ne (fun e => ?_) _ _).trans (con.table ha)
      exact inv.table_notMem (inv.clone_mem hs).1 ha (e ▸ slotAddr_inClone hi)
    valid := fun g => by
      obtain ⟨s', hs', -, hl, hv⟩ := entry g
      rw [hl, hv]
      exact con.valid hs'
    hook := fun h hh s' g => by
      obtain ⟨s'', hs'', hc, hl, hv⟩ := entry g
      rw [hc, hv]
      rcases Multiset.mem_cons.1 hh with rfl | hh
      · obtain rfl : s'' = s := Option.some.inj (hs''.symm.trans hs)
        exact ⟨con.rest hs hi noHook, Function.update_self ..⟩
      · obtain ⟨s₁, hs₁, -, hlt, -⟩ := inv.hook h hh
        obtain rfl : s₁ = s'' := Option.some.inj (hs₁.symm.trans hs'')
        have ne := inv.slot_ne hs hs₁ hlt hi (by
          by_cases e : h.objectVptr = o
          · exact Or.inr (noHook h hh e)
          · exact Or.inl e)
        obtain ⟨h₁, h₂⟩ := con.hook h hh hs₁
        exact ⟨h₁, (Function.update_of_ne ne _ _).trans h₂⟩
    rest := fun {o' s' i} g hlt none => by
      obtain ⟨s'', hs'', hc, hl, hv⟩ := entry g
      rw [hl] at hlt
      rw [hc, hv]
      have away : o' ≠ o ∨ i ≠ index := by
        by_cases e : o' = o
        · exact Or.inr fun e' => none _ (Multiset.mem_cons_self _ _) e.symm e'.symm
        · exact Or.inl e
      refine (Function.update_of_ne (inv.slot_ne hs hs'' hlt hi away) _ _).trans ?_
      exact con.rest hs'' hlt fun h hh => none h (Multiset.mem_cons_of_mem hh) }

theorem makeClone {clone len : ℕ} (con : CloneContents M w₀ t L)
    (inv : CloneInv M w₀ t L ((clone, len) ::ₘ S)) (ho : ValidObject M o)
    (hs : t.instanceClones o = none) (hi : index < len) (hv : ValidTable M (t.words o) len) :
    CloneContents M w₀ (t.makeClone o clone len index detour)
      (⟨o, clone, index, (t.copyTable (t.words o) clone len).words (slotAddr clone index), detour,
        true, true⟩ ::ₘ L) := by
  have hb := Multiset.mem_cons_self (clone, len) S
  have hm := inv.storage_mem _ hb
  have con' := con.fillClone inv hb hi (t.words o) detour
  have copied : ∀ i < len,
      (t.copyTable (t.words o) clone len).words (slotAddr clone i) = w₀ (slotAddr (t.words o) i) := by
    intro i hlt
    refine (if_pos ?_).trans ?_
    · simp only [slotAddr, wordSize]
      omega
    · have : t.words o + (slotAddr clone i - clone) = slotAddr (t.words o) i := by
        simp only [slotAddr]
        omega
      rw [this]
      exact con.table (hv.mem hlt)
  have object : ∀ {o' s' i}, t.instanceClones o' = some s' → i < s'.len → slotAddr s'.clone i ≠ o :=
    fun hs' hlt e => inv.object_notMem (inv.clone_mem hs').1 ho (e ▸ slotAddr_inClone hlt)
  have object' : ∀ {i}, i < len → slotAddr clone i ≠ o :=
    fun hlt e => inv.object_notMem hm ho (e ▸ slotAddr_inClone hlt)
  have entry : ∀ {o' s'}, (t.makeClone o clone len index detour).instanceClones o' = some s' →
      (o' = o ∧ s' = ⟨clone, len, t.words o, 1⟩) ∨ (o' ≠ o ∧ t.instanceClones o' = some s') := by
    intro o' s' g
    by_cases e : o' = o
    · subst e
      rw [Tables.makeClone, Tables.setClone_self, Option.some.injEq] at g
      exact Or.inl ⟨rfl, g.symm⟩
    · exact Or.inr ⟨e, (Tables.setClone_of_ne _ _ e).symm.trans g⟩
  exact {
    table := fun ha => (Function.update_of_ne (ho.ne_table ha) _ _).trans (con'.table ha)
    valid := fun g => by
      rcases entry g with ⟨-, rfl⟩ | ⟨-, g⟩
      · exact hv
      · exact con.valid g
    hook := fun h hh s' g => by
      rcases Multiset.mem_cons.1 hh with rfl | hh
      · rcases entry g with ⟨-, rfl⟩ | ⟨ne, -⟩
        · exact ⟨copied index hi,
            (Function.update_of_ne (object' hi) _ _).trans (Function.update_self ..)⟩
        · exact absurd rfl ne
      · rcases entry g with ⟨e, -⟩ | ⟨-, g⟩
        · obtain ⟨s₁, hs₁, -⟩ := inv.hook h hh
          rw [e, hs] at hs₁
          cases hs₁
        · obtain ⟨s₁, hs₁, -, hlt, -⟩ := inv.hook h hh
          obtain rfl : s₁ = s' := Option.some.inj (hs₁.symm.trans g)
          obtain ⟨h₁, h₂⟩ := con'.hook h hh g
          exact ⟨h₁, (Function.update_of_ne (object g hlt) _ _).trans h₂⟩
    rest := fun {o' s' i} g hlt none => by
      rcases entry g with ⟨e, rfl⟩ | ⟨-, g⟩
      · refine (Function.update_of_ne (object' hlt) _ _).trans ?_
        have ne : slotAddr clone i ≠ slotAddr clone index := fun e' =>
          none _ (Multiset.mem_cons_self _ _) e.symm (slotAddr_inj.1 e').symm
        exact (Function.update_of_ne ne _ _).trans (copied i hlt)
      · refine (Function.update_of_ne (object g hlt) _ _).trans ?_
        exact con'.rest g hlt fun h hh => none h (Multiset.mem_cons_of_mem hh) }

/-- Switching a hook on or off. -/
theorem toggle (con : CloneContents M w₀ t (h ::ₘ L)) (inv : CloneInv M w₀ t (h ::ₘ L) S) (on : Bool) :
    CloneContents M w₀
      (t.setWord (slotAddr h.clonedVtable h.index) (if on then h.detour else h.originalPtr))
      ({ h with enabled := on } ::ₘ L) := by
  obtain ⟨s, hs, hc, hi, -⟩ := inv.hook h (Multiset.mem_cons_self _ _)
  rw [hc]
  exact {
    table := fun {a} ha => by
      refine (Function.update_of_ne (fun e => ?_) _ _).trans (con.table ha)
      exact inv.table_notMem (inv.clone_mem hs).1 ha (e ▸ slotAddr_inClone hi)
    valid := con.valid
    hook := fun k hk s' g => by
      rcases Multiset.mem_cons.1 hk with rfl | hk
      · obtain rfl : s' = s := Option.some.inj (Eq.trans (Eq.symm g) hs)
        exact ⟨(con.hook h (Multiset.mem_cons_self _ _) hs).1, Function.update_self ..⟩
      · obtain ⟨s₁, hs₁, -, hlt, -⟩ := inv.hook k (Multiset.mem_cons_of_mem hk)
        obtain rfl : s₁ = s' := Option.some.inj (hs₁.symm.trans g)
        have ne := inv.slot_ne hs hs₁ hlt hi (by
          by_cases e : k.objectVptr = h.objectVptr
          · exact Or.inr (inv.index_ne k hk e)
          · exact Or.inl e)
        obtain ⟨h₁, h₂⟩ := con.hook k (Multiset.mem_cons_of_mem hk) hs₁
        exact ⟨h₁, (Function.update_of_ne ne _ _).trans h₂⟩
    rest := fun {o' s' i} g hlt none => by
      have away : o' ≠ h.objectVptr ∨ i ≠ h.index := by
        by_cases e : o' = h.objectVptr
        · exact Or.inr fun e' => none _ (Multiset.mem_cons_self _ _) e.symm e'.symm
        · exact Or.inl e
      refine (Function.update_of_ne (inv.slot_ne hs g hlt hi away) _ _).trans ?_
      refine con.rest g hlt fun k hk => ?_
      rcases Multiset.mem_cons.1 hk with rfl | hk
      · have self := none _ (Multiset.mem_cons_self _ _)
        exact self
      · exact none k (Multiset.mem_cons_of_mem hk) }

theorem leaveClone {s : SharedClone} (con : CloneContents M w₀ t (h ::ₘ L))
    (inv : CloneInv M w₀ t (h ::ₘ L) S) (hs : t.instanceClones h.objectVptr = some s) :
    CloneContents M w₀ (t.leaveClone h s) L := by
  -- The slot gets the value it has under a disabled hook.
  have off := con.toggle inv false
  obtain ⟨orig, held⟩ := off.hook _ (Multiset.mem_cons_self _ _) hs
  have entry : ∀ {o s'}, (t.leaveClone h s).instanceClones o = some s' →
      ∃ s'', t.instanceClones o = some s'' ∧ s'.clone = s''.clone ∧ s'.len = s''.len ∧
        s'.originalVtable = s''.originalVtable := by
    intro o s' g
    by_cases e : o = h.objectVptr
    · subst e
      rw [Tables.leaveClone, Tables.setClone_self, Option.some.injEq] at g
      subst g
      exact ⟨s, hs, rfl, rfl, rfl⟩
    · exact ⟨s', (Tables.setClone_of_ne _ _ e).symm.trans g, rfl, rfl, rfl⟩
  exact {
    table := off.table
    valid := fun g => by
      obtain ⟨s', hs', -, hl, hv⟩ := entry g
      rw [hl, hv]
      exact con.valid hs'
    hook := fun k hk s' g => by
      obtain ⟨s'', hs'', hc, hl, hv⟩ := entry g
      rw [hc, hv]
      exact off.hook k (Multiset.mem_cons_of_mem hk) hs''
    rest := fun {o s' i} g hlt none => by
      obtain ⟨s'', hs'', hc, hl, hv⟩ := entry g
      rw [hl] at hlt
      rw [hc, hv]
      by_cases e : o = h.objectVptr ∧ i = h.index
      · obtain ⟨rfl, rfl⟩ := e
        obtain rfl : s'' = s := Option.some.inj (hs''.symm.trans hs)
        exact held.trans orig
      · refine off.rest hs'' hlt fun k hk => ?_
        rcases Multiset.mem_cons.1 hk with rfl | hk
        · exact fun eo ei => e ⟨eo.symm, ei.symm⟩
        · exact none k hk }

theorem endClone {s : SharedClone} (con : CloneContents M w₀ t (h ::ₘ L))
    (inv : CloneInv M w₀ t (h ::ₘ L) S) (hs : t.instanceClones h.objectVptr = some s) :
    CloneContents M w₀ (t.endClone h.objectVptr s) L := by
  have ho := (inv.vptr hs).1
  have entry : ∀ {o s'}, (t.endClone h.objectVptr s).instanceClones o = some s' →
      o ≠ h.objectVptr ∧ t.instanceClones o = some s' := by
    intro o s' g
    by_cases e : o = h.objectVptr
    · subst e
      have : (t.endClone h.objectVptr s).instanceClones h.objectVptr = none :=
        Tables.setClone_self ..
      rw [this] at g
      cases g
    · exact ⟨e, (Function.update_of_ne e ..).symm.trans g⟩
  have object : ∀ {o' s' i}, t.instanceClones o' = some s' → i < s'.len →
      slotAddr s'.clone i ≠ h.objectVptr :=
    fun hs' hlt e => inv.object_notMem (inv.clone_mem hs').1 ho (e ▸ slotAddr_inClone hlt)
  exact {
    table := fun ha => (Function.update_of_ne (ho.ne_table ha) _ _).trans (con.table ha)
    valid := fun g => con.valid (entry g).2
    hook := fun k hk s' g => by
      obtain ⟨-, g⟩ := entry g
      obtain ⟨s₁, hs₁, -, hlt, -⟩ := inv.hook k (Multiset.mem_cons_of_mem hk)
      obtain rfl : s₁ = s' := Option.some.inj (hs₁.symm.trans g)
      obtain ⟨h₁, h₂⟩ := con.hook k (Multiset.mem_cons_of_mem hk) g
      exact ⟨h₁, (Function.update_of_ne (object g hlt) _ _).trans h₂⟩
    rest := fun {o s' i} g hlt none => by
      obtain ⟨ne, g⟩ := entry g
      refine (Function.update_of_ne (object g hlt) _ _).trans (con.rest g hlt fun k hk => ?_)
      rcases Multiset.mem_cons.1 hk with rfl | hk
      · exact fun eo => absurd eo.symm ne
      · exact none k hk }

theorem performUnhook (con : CloneContents M w₀ t (h ::ₘ L)) (inv : CloneInv M w₀ t (h ::ₘ L) S)
    {ok : Bool} {h' : VTableInstanceHook} (out : h.performUnhook t ok = .ok (t', h')) :
    CloneContents M w₀ t' L := by
  obtain ⟨s, hs, eq⟩ := inv.performUnhook_eq ok
  rw [eq] at out
  split_ifs at out with last hok <;> simp only [Except.ok.injEq, Prod.mk.injEq] at out
  · exact out.1 ▸ con.endClone inv hs
  · exact out.1 ▸ con.leaveClone inv hs

theorem move {L' : Multiset VTableInstanceHook} {S' : Multiset (ℕ × ℕ)}
    (con : CloneContents M w₀ t L) (inv : CloneInv M w₀ t L S)
    (m : InstanceMove M t L S t' L' S') : CloneContents M w₀ t' L' := by
  cases m with
  | stay => exact con
  | newClone out =>
    refine con.frame inv ?_ ?_ ?_ <;>
    · unfold Tables.newClonedVtable at out
      split_ifs at out
      split at out
      · cases out
      · split_ifs at out
        obtain ⟨-, rfl⟩ := Prod.mk.inj (Except.ok.inj out)
        intros
        rfl
  | dropClone => exact con.frame inv rfl (fun _ _ => rfl) fun _ _ => rfl
  | fillClone src hb hi => exact con.fillClone inv hb hi src _
  | joinClone hs hi hf => exact con.joinClone inv hs hi hf
  | makeClone ho hz hs hi hv => exact con.makeClone inv ho hs hi hv
  | toggle on => exact con.toggle inv on
  | remove out => exact con.performUnhook inv out

end CloneContents

namespace InstanceState

open VTableInstanceHook

variable {M : Modules} {w₀ : ℕ → ℕ} {s : InstanceState}

/-- The invariants of a reachable state. -/
theorem inv_of_reachable (r : Reachable M w₀ s) :
    CloneInv M w₀ s.tables s.installed s.storage ∧ CloneContents M w₀ s.tables s.installed ∧
      s.Inert := by
  induction r with
  | initial flags =>
    exact ⟨cloneInv_initial M w₀ flags, .initial M w₀ flags, fun _ h => absurd h (by simp [initial])⟩
  | step op _ safe ih =>
    obtain ⟨inv, con, inert⟩ := ih
    have m := step_move safe inert
    exact ⟨inv.move m, con.move inv m, inert_step inert⟩

/-! ### Reachable states -/

/-- As many flags of a clone are set as hooks are installed on its object. -/
theorem flags_card (inv : CloneInv M w₀ s.tables s.installed s.storage) {o : ℕ} {c : SharedClone}
    (hc : s.tables.instanceClones o = some c) :
    ((Finset.range c.len).filter fun i =>
      s.tables.flags (ownedFlag c.clone c.len i) = true).card =
        s.installed.countP fun h => h.objectVptr = o := by
  have nodup : ((s.installed.filter fun h => h.objectVptr = o).map (·.index)).Nodup := by
    refine Bag.nodup_map_filter ?_
    obtain ⟨l, hl, hp⟩ := inv.index
    exact ⟨l, hl, hp.imp fun hab ha hb => hab (ha.trans hb.symm)⟩
  have eq : ((Finset.range c.len).filter fun i => s.tables.flags (ownedFlag c.clone c.len i) = true) =
      ⟨_, nodup⟩ := by
    ext i
    simp only [Finset.mem_filter, Finset.mem_range, Finset.mem_mk, Multiset.mem_map,
      Multiset.mem_filter]
    constructor
    · rintro ⟨hi, hf⟩
      obtain ⟨h, hh, ho, rfl⟩ := inv.flag hc hi hf
      exact ⟨h, ⟨hh, ho⟩, rfl⟩
    · rintro ⟨h, ⟨hh, rfl⟩, rfl⟩
      obtain ⟨c', hc', -, hi, hf⟩ := inv.hook h hh
      obtain rfl : c' = c := Option.some.inj (hc'.symm.trans hc)
      exact ⟨hi, hf⟩
  rw [eq, Finset.card_mk, Multiset.card_map, Multiset.countP_eq_card_filter]

/-- What the clone of an object holds, whoever installed its hooks. -/
theorem clone_slots (con : CloneContents M w₀ s.tables s.installed) {o : ℕ} {c : SharedClone}
    (hc : s.tables.instanceClones o = some c) {i : ℕ} (hi : i < c.len) :
    (∀ h ∈ s.installed, h.objectVptr = o → h.index = i → h.enabled = true →
        s.tables.words (slotAddr c.clone i) = h.detour) ∧
      ((∀ h ∈ s.installed, h.objectVptr = o → h.index = i → h.enabled = false) →
        s.tables.words (slotAddr c.clone i) = s.tables.words (slotAddr c.originalVtable i)) := by
  refine ⟨?_, fun off => ?_⟩
  · rintro h hh rfl rfl he
    rw [(con.hook h hh hc).2, if_pos he]
  · rw [con.table ((con.valid hc).mem hi)]
    by_cases own : ∃ h ∈ s.installed, h.objectVptr = o ∧ h.index = i
    · obtain ⟨h, hh, rfl, rfl⟩ := own
      obtain ⟨orig, held⟩ := con.hook h hh hc
      rw [held, if_neg (by simp [off h hh rfl rfl]), orig]
    · exact con.rest hc hi fun h hh ho e => own ⟨h, hh, ho, e⟩

/-- The operation removes the hook, and the object's vptr can be written. -/
def Removes (h : VTableInstanceHook) : InstanceOp → Prop
  | .unhook k ok dropOk => k = h ∧ (ok = true ∨ dropOk = true)
  | .detachFinalize k ok => k = h ∧ ok = true
  | .drop k ok => k = h ∧ ok = true
  | _ => False

/-- Removing the last hook of an object ends its clone. -/
theorem removes_last {h : VTableInstanceHook} {op : InstanceOp} {c : SharedClone}
    (inv : CloneInv M w₀ s.tables s.installed s.storage) (mem : h ∈ s.hooks) (ha : h.active = true)
    (hc : s.tables.instanceClones h.objectVptr = some c)
    (last : (s.installed.countP fun k => k.objectVptr = h.objectVptr) = 1) (rem : Removes h op) :
    (s.step M op).tables = s.tables.endClone h.objectVptr c := by
  have hooks : c.hooks = 1 := (inv.count hc).2.trans last
  rw [installed_of_active mem ha] at inv
  have out : ∀ ok, h.performUnhook s.tables ok =
      if ok then .ok (s.tables.endClone h.objectVptr c, { h with clonedVtable := 0 })
      else .error (.vtable .protectFailed) := by
    intro ok
    obtain ⟨c', hc', out⟩ := inv.performUnhook_eq ok
    obtain rfl : c' = c := Option.some.inj (hc'.symm.trans hc)
    rw [out, if_pos hooks]
  have dropped : h.drop s.tables true = s.tables.endClone h.objectVptr c := by
    simp [VTableInstanceHook.drop, ha, out]
  cases op with
  | unhook k ok dropOk =>
    obtain ⟨rfl, writable⟩ := rem
    simp only [step, if_pos mem, forget, VTableInstanceHook.unhook, ha, out]
    cases ok with
    | true => simp [VTableInstanceHook.drop]
    | false =>
      obtain rfl : dropOk = true := by simpa using writable
      simpa using dropped
  | detachFinalize k ok =>
    obtain ⟨rfl, rfl⟩ := rem
    simp only [step, if_pos mem, update, (detachFinalize_fst true).1, dropped]
  | drop k ok =>
    obtain ⟨rfl, rfl⟩ := rem
    simp only [step, if_pos mem, forget, dropped]
  | newClone len at_ => exact rem.elim
  | dropClone table => exact rem.elim
  | installInto o index detour table ok => exact rem.elim
  | enable k => exact rem.elim
  | disable k => exact rem.elim

theorem installInto_error {o index detour : ℕ} {table : Option (ℕ × ℕ)} {ok : Bool}
    {e : VTableHookError} (inv : CloneInv M w₀ s.tables s.installed s.storage)
    (err : (installInto s.tables o index detour table ok).1 = .error e) :
    let s' := s.step M (.installInto o index detour table ok)
    s'.tables.instanceClones = s.tables.instanceClones ∧ s'.hooks = s.hooks ∧
      ∀ o', ValidObject M o' → s'.tables.words o' = s.tables.words o' := by
  intro s'
  simp only [s', step]
  split_ifs with mem
  · rcases out : installInto s.tables o index detour table ok with ⟨res, t', rest⟩
    rw [out] at err
    rcases installInto_cases out with ⟨e, rfl, -, rfl | ⟨clone, len, rfl, hi, rfl⟩⟩ |
      ⟨sc, -, -, -, -, rfl, -, -⟩ | ⟨clone, len, -, -, -, -, rfl, -, -⟩
    · exact ⟨rfl, rfl, fun _ _ => rfl⟩
    · refine ⟨rfl, rfl, fun o' ho' => Tables.fillClone_words hi ?_⟩
      exact inv.object_notMem (inv.storage_mem _ (mem _ rfl)) ho'
    · cases err
    · cases err
  · exact ⟨rfl, rfl, fun _ _ => rfl⟩

/-- In every reachable state the count of a registered clone, its flags, its slots and the object's
vptr describe the installed hooks, and no table of the process was written; the removal of the last
hook gives the object its table back and releases the clone, which nothing released before; and a
failed install leaves the registry and the objects as they were. -/
theorem instance_hooks_consistent (r : Reachable M w₀ s) :
    (∀ {o c}, s.tables.instanceClones o = some c →
      c.hooks = ((Finset.range c.len).filter fun i =>
        s.tables.flags (ownedFlag c.clone c.len i) = true).card ∧
      c.hooks = (s.installed.countP fun h => h.objectVptr = o) ∧
      s.tables.words o = c.clone ∧
      ∀ i < c.len,
        (∀ h ∈ s.installed, h.objectVptr = o → h.index = i → h.enabled = true →
          s.tables.words (slotAddr c.clone i) = h.detour) ∧
        ((∀ h ∈ s.installed, h.objectVptr = o → h.index = i → h.enabled = false) →
          s.tables.words (slotAddr c.clone i) = s.tables.words (slotAddr c.originalVtable i))) ∧
    (∀ {a}, (∃ b ∈ M.tables, InRange b.1 b.2 a) → s.tables.words a = w₀ a) ∧
    s.tables.badFree = false ∧
    (∀ h ∈ s.hooks, h.active = true →
      (s.installed.countP fun k => k.objectVptr = h.objectVptr) = 1 → ∀ op, Removes h op →
        ∃ c, s.tables.instanceClones h.objectVptr = some c ∧ (c.clone, c.len) ∈ s.tables.heap ∧
          (s.step M op).tables.instanceClones h.objectVptr = none ∧
          (s.step M op).tables.words h.objectVptr = w₀ h.objectVptr ∧
          (c.clone, c.len) ∉ (s.step M op).tables.heap ∧
          (s.step M op).tables.badFree = false) ∧
    ∀ {o index detour table ok e}, (installInto s.tables o index detour table ok).1 = .error e →
      let s' := s.step M (.installInto o index detour table ok)
      s'.tables.instanceClones = s.tables.instanceClones ∧ s'.hooks = s.hooks ∧
        ∀ o', ValidObject M o' → s'.tables.words o' = s.tables.words o' := by
  obtain ⟨inv, con, inert⟩ := inv_of_reachable r
  refine ⟨fun hc => ?_, con.table, inv.freed_once, fun h mem ha last op rem => ?_,
    fun err => installInto_error inv err⟩
  · have count := (inv.count hc).2
    exact ⟨count.trans (flags_card inv hc).symm, count, (inv.vptr hc).2.2.1,
      fun i hi => clone_slots con hc hi⟩
  · have hooked := inv.hook h (by
      rw [installed_of_active mem ha]
      exact Multiset.mem_cons_self _ _)
    obtain ⟨c, hc, -⟩ := hooked
    have tables := removes_last inv mem ha hc last rem
    have member := (inv.clone_mem hc).1
    refine ⟨c, hc, member, ?_, ?_, ?_, ?_⟩ <;> rw [tables]
    · exact Tables.setClone_self ..
    · exact (Function.update_self ..).trans (inv.vptr hc).2.2.2
    · exact fun h => (inv.mem_erase_heap.1 h).1 rfl
    · simp [Tables.endClone, Tables.dealloc, Tables.setClone, Tables.setWord, inv.freed_once, member]

end InstanceState

/-! ### A clone that outlives its hooks -/

namespace InstanceState

/-- The instance hook on the first slot of the object. -/
def sampleHook : VTableInstanceHook := ⟨0x2000, 0x3000, 0, 7, 0x5000, true, true⟩

def sampleRun : InstanceState :=
  (((initial Modules.oneObjectWords fun _ => false).step Modules.oneObject
    (.newClone 2 (some 0x3000))).step Modules.oneObject
    (.installInto 0x2000 0 0x5000 (some (0x3000, 2)) true)).step Modules.oneObject
    (.drop sampleHook false)

theorem sampleRun_reachable : Reachable Modules.oneObject Modules.oneObjectWords sampleRun := by
  refine .step _ (.step _ (.step _ (.initial _) trivial) ⟨?_, fun _ b hb => ?_⟩) trivial
  · exact ⟨(0x2000, 8), by decide, by decide⟩
  · cases hb
    exact ⟨(0x1000, 16), by decide, by decide, by decide⟩

theorem sampleRun_consistent :
    Reachable Modules.oneObject Modules.oneObjectWords sampleRun ∧
      (⟨0x3000, 2, 0x1000, 1⟩ : SharedClone).hooks =
        sampleRun.installed.countP fun h => h.objectVptr = 0x2000 := by
  refine ⟨sampleRun_reachable, ?_⟩
  have entry : sampleRun.tables.instanceClones 0x2000 = some ⟨0x3000, 2, 0x1000, 1⟩ := by decide
  exact ((instance_hooks_consistent sampleRun_reachable).1 entry).2.1

/-- A hook that is dropped while its object's vptr cannot be written leaves the clone registered
with a count of one and no live hook. -/
theorem registered_clone_without_live_hook :
    Reachable Modules.oneObject Modules.oneObjectWords sampleRun ∧
      ∃ c, sampleRun.tables.instanceClones 0x2000 = some c ∧
        c.hooks ≠ sampleRun.hooks.countP fun h => h.active = true ∧ h.objectVptr = 0x2000 :=
  ⟨sampleRun_reachable, ⟨0x3000, 2, 0x1000, 1⟩, by decide, by decide⟩

end InstanceState

end NeoHook
