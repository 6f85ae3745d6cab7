import NeoHook.Moves

/-!
# The gateway registries

What withdrawing, disposing of and publishing a hook do to the registries and to the memory behind
them: the code bytes, the allocations and the pass stay as they are, and a stub that leaves its owner
goes to the orphan table or to the quarantine, never to both and never nowhere.
-/

namespace NeoHook

open ByteMap

namespace Code

/-- The orphaned trampoline of a gateway. -/
def orphanAt (c : Code) (g : ℕ) : Option Region := (c.chainedGateways g).bind (·.orphan)

/-- Drained regions that a pass has not released. -/
def passRegions (c : Code) : List Region :=
  match c.pass with
  | none => []
  | some ⟨regions, none⟩ => regions
  | some ⟨_, some busy⟩ => busy

/-- Retired regions that are not released. -/
def retired (c : Code) : List Region := c.quarantine ++ c.passRegions

/-- How often a region stands in the orphan table, the quarantine or the pass. -/
def parked (c : Code) (r : Region) : ℕ :=
  (if c.orphanAt r.base = some r then 1 else 0) + c.retired.count r

/-- Only the registries of gateways and patches and the quarantine may differ. -/
structure SameMemory (c c' : Code) : Prop where
  mem : c'.mem = c.mem
  allocs : c'.allocs = c.allocs
  int3 : c'.int3 = c.int3
  pass : c'.pass = c.pass
  tables : c'.tables = c.tables
  functionTables : c'.functionTables = c.functionTables
  births : c'.births = c.births
  freedLog : c'.freedLog = c.freedLog
  unwound : c'.unwound = c.unwound
  jumps : c'.jumps = c.jumps

theorem SameMemory.refl (c : Code) : SameMemory c c :=
  ⟨rfl, rfl, rfl, rfl, rfl, rfl, rfl, rfl, rfl, rfl⟩

theorem SameMemory.trans {c c' c'' : Code} (h : SameMemory c c') (h' : SameMemory c' c'') :
    SameMemory c c'' :=
  ⟨h'.mem.trans h.mem, h'.allocs.trans h.allocs, h'.int3.trans h.int3, h'.pass.trans h.pass,
    h'.tables.trans h.tables, h'.functionTables.trans h.functionTables, h'.births.trans h.births,
    h'.freedLog.trans h.freedLog, h'.unwound.trans h.unwound, h'.jumps.trans h.jumps⟩

theorem SameMemory.allocId {c c' : Code} (h : SameMemory c c') (b : ℕ) : c'.allocId b = c.allocId b := by
  simp only [Code.allocId, h.births]

theorem SameMemory.passRegions {c c' : Code} (h : SameMemory c c') :
    c'.passRegions = c.passRegions := by
  unfold Code.passRegions
  rw [h.pass]

/-! ### Retiring -/

theorem retire_of_pos {c : Code} {r : Region} (base : r.base ≠ 0) (size : r.size ≠ 0) :
    c.retire r = { c with
      quarantine := c.quarantine ++ [r]
      retiredLog := c.allocId r.base :: c.retiredLog } :=
  if_neg (by simp [base, size])

theorem retire_sameMemory (c : Code) (r : Region) : SameMemory c (c.retire r) := by
  unfold retire
  split_ifs
  · exact .refl c
  · exact ⟨rfl, rfl, rfl, rfl, rfl, rfl, rfl, rfl, rfl, rfl⟩

@[simp] theorem retire_managedGateways (c : Code) (r : Region) :
    (c.retire r).managedGateways = c.managedGateways := by
  unfold retire
  split_ifs <;> rfl

@[simp] theorem retire_chainedGateways (c : Code) (r : Region) :
    (c.retire r).chainedGateways = c.chainedGateways := by
  unfold retire
  split_ifs <;> rfl

@[simp] theorem retire_livePatches (c : Code) (r : Region) :
    (c.retire r).livePatches = c.livePatches := by
  unfold retire
  split_ifs <;> rfl

theorem parked_retire {c : Code} {r : Region} (base : r.base ≠ 0) (size : r.size ≠ 0) (x : Region) :
    (c.retire r).parked x = c.parked x + if r = x then 1 else 0 := by
  rw [retire_of_pos base size]
  have counted : List.count x [r] = if r = x then 1 else 0 := by
    by_cases h : r = x <;> simp [h]
  change (if c.orphanAt x.base = some x then 1 else 0) +
      (c.quarantine ++ [r] ++ c.passRegions).count x =
    (if c.orphanAt x.base = some x then 1 else 0) + (c.quarantine ++ c.passRegions).count x + _
  simp only [List.count_append, counted]
  omega

theorem dropTrampoline_of_pos {c : Code} {t : Trampoline} (base : t.ptr ≠ 0) :
    c.dropTrampoline t = c.retire t.region :=
  if_neg base

theorem dropTrampoline_sameMemory (c : Code) (t : Trampoline) :
    SameMemory c (c.dropTrampoline t) := by
  unfold dropTrampoline
  split_ifs
  · exact .refl c
  · exact retire_sameMemory c _

@[simp] theorem dropTrampoline_managedGateways (c : Code) (t : Trampoline) :
    (c.dropTrampoline t).managedGateways = c.managedGateways := by
  unfold dropTrampoline
  split_ifs
  · rfl
  · simp

@[simp] theorem dropTrampoline_chainedGateways (c : Code) (t : Trampoline) :
    (c.dropTrampoline t).chainedGateways = c.chainedGateways := by
  unfold dropTrampoline
  split_ifs
  · rfl
  · simp

@[simp] theorem dropTrampoline_livePatches (c : Code) (t : Trampoline) :
    (c.dropTrampoline t).livePatches = c.livePatches := by
  unfold dropTrampoline
  split_ifs
  · rfl
  · simp

/-! ### The log of retired allocations -/

/-- An allocation is in the log of retired ones once for its release and once while it waits. -/
def Logged (c : Code) : Prop :=
  ∀ id, c.retiredLog.count id =
    c.freedLog.count id + (c.retired.map fun r => c.allocId r.base).count id

theorem Logged.retire {c : Code} (h : c.Logged) (r : Region) : (c.retire r).Logged := by
  intro id
  unfold Code.retire
  split_ifs
  · exact h id
  · have := h id
    simp only [retired, passRegions, allocId, List.map_append, List.count_append, List.count_cons,
      List.map_cons, List.map_nil, List.count_nil] at this ⊢
    omega

theorem Logged.dropTrampoline {c : Code} (h : c.Logged) (t : Trampoline) :
    (c.dropTrampoline t).Logged := by
  unfold Code.dropTrampoline
  split_ifs
  · exact h
  · exact h.retire _

/-! ### Dependents -/

/-- An orphan stands at its own address. -/
def OrphansOk (c : Code) : Prop :=
  ∀ {g r}, c.orphanAt g = some r → r.base = g ∧ r.base ≠ 0 ∧ r.size ≠ 0

/-- The chained entry of one gateway may change. -/
theorem parked_setChained_same {c : Code} {g : ℕ} {e : Option ChainedGateway}
    (same : e.bind (·.orphan) = c.orphanAt g) (r : Region) :
    (c.setChained g e).parked r = c.parked r := by
  have orphans : (c.setChained g e).orphanAt r.base = c.orphanAt r.base := by
    unfold orphanAt setChained
    by_cases hg : r.base = g
    · subst hg
      simpa [orphanAt] using same
    · simp [hg]
  unfold parked
  rw [orphans]
  rfl

end Code

namespace InlineHook

open Code

theorem releaseGateway_sameMemory (c : Code) (g : ℕ) : SameMemory c (releaseGateway c g) := by
  unfold releaseGateway removeGatewayDependent
  cases c.chainedGateways g with
  | none => exact ⟨rfl, rfl, rfl, rfl, rfl, rfl, rfl, rfl, rfl, rfl⟩
  | some e =>
    by_cases left : 0 < e.dependents - 1
    · simp only [if_pos left]
      split_ifs <;> exact ⟨rfl, rfl, rfl, rfl, rfl, rfl, rfl, rfl, rfl, rfl⟩
    · simp only [if_neg left]
      cases e.orphan with
      | none => exact ⟨rfl, rfl, rfl, rfl, rfl, rfl, rfl, rfl, rfl, rfl⟩
      | some r =>
        have same := retire_sameMemory (c.setChained g none) r
        exact ⟨same.mem, same.allocs, same.int3, same.pass, same.tables, same.functionTables,
          same.births, same.freedLog, same.unwound, same.jumps⟩

theorem release_unpublished {c : Code} {h : InlineHook} (pub : h.published = false) :
    (h.release c).1 = c := by
  unfold release
  rw [if_pos pub]

theorem release_normal {c : Code} {h : InlineHook} (pub : h.published = true)
    (kind : h.targetKind = .normal) : (h.release c).1 = c.unregisterLivePatch h.target := by
  unfold release
  rw [if_neg (by simp [pub]), kind]

theorem release_gateway {c : Code} {h : InlineHook} (pub : h.published = true)
    (kind : h.targetKind = .managedGateway) :
    (h.release c).1 = releaseGateway (c.unregisterLivePatch h.target) h.target := by
  unfold release
  rw [if_neg (by simp [pub]), kind]

theorem release_sameMemory (c : Code) (h : InlineHook) : SameMemory c (h.release c).1 := by
  have withdrawn : SameMemory c (c.unregisterLivePatch h.target) :=
    ⟨rfl, rfl, rfl, rfl, rfl, rfl, rfl, rfl, rfl, rfl⟩
  cases pub : h.published with
  | false =>
    rw [release_unpublished pub]
    exact .refl c
  | true =>
    cases kind : h.targetKind with
    | normal =>
      rw [release_normal pub kind]
      exact withdrawn
    | managedGateway =>
      rw [release_gateway pub kind]
      exact withdrawn.trans (releaseGateway_sameMemory _ _)

theorem dispose_chained {c : Code} {h : InlineHook} {e : ChainedGateway}
    (entry : c.chainedGateways h.trampoline.ptr = some e) (chained : 0 < e.dependents) :
    h.dispose c = (c.unregisterManagedGateway h.trampoline.ptr).setChained h.trampoline.ptr
      (some { e with orphan := some h.trampoline.region }) := by
  have entry' : (c.unregisterManagedGateway h.trampoline.ptr).chainedGateways h.trampoline.ptr =
      some e := entry
  unfold dispose orphanChainedGateway
  simp only [entry', if_pos chained]
  rfl

theorem dispose_free {c : Code} {h : InlineHook}
    (free : ∀ e, c.chainedGateways h.trampoline.ptr = some e → e.dependents = 0) :
    h.dispose c =
      (c.unregisterManagedGateway h.trampoline.ptr).dropTrampoline h.trampoline := by
  have same : (c.unregisterManagedGateway h.trampoline.ptr).chainedGateways = c.chainedGateways :=
    rfl
  unfold dispose orphanChainedGateway
  cases entry : c.chainedGateways h.trampoline.ptr with
  | none => simp only [same, entry]
  | some e => simp only [same, entry, free e entry, Nat.lt_irrefl, if_false]

/-- A hook that is disposed of either has hooks chained on its gateway or has none. -/
theorem dispose_cases (c : Code) (h : InlineHook) :
    (∃ e, c.chainedGateways h.trampoline.ptr = some e ∧ 0 < e.dependents) ∨
      ∀ e, c.chainedGateways h.trampoline.ptr = some e → e.dependents = 0 := by
  by_cases chained : ∃ e, c.chainedGateways h.trampoline.ptr = some e ∧ 0 < e.dependents
  · exact .inl chained
  · refine .inr fun e entry => ?_
    by_contra pos
    exact chained ⟨e, entry, by omega⟩

theorem dispose_sameMemory (c : Code) (h : InlineHook) : SameMemory c (h.dispose c) := by
  have kept : SameMemory c (c.unregisterManagedGateway h.trampoline.ptr) :=
    ⟨rfl, rfl, rfl, rfl, rfl, rfl, rfl, rfl, rfl, rfl⟩
  obtain ⟨e, entry, chained⟩ | free := dispose_cases c h
  · rw [dispose_chained entry chained]
    exact kept.trans ⟨rfl, rfl, rfl, rfl, rfl, rfl, rfl, rfl, rfl, rfl⟩
  · rw [dispose_free free]
    exact kept.trans (dropTrampoline_sameMemory _ _)

/-- One dependent less leaves every parked region parked. -/
theorem parked_releaseGateway {c : Code} (ok : c.OrphansOk) (g : ℕ) (r : Region) :
    (releaseGateway c g).parked r = c.parked r := by
  unfold releaseGateway removeGatewayDependent
  cases entry : c.chainedGateways g with
  | none => rfl
  | some e =>
    have orphan : c.orphanAt g = e.orphan := by simp [orphanAt, entry]
    by_cases left : 0 < e.dependents - 1
    · have same : (c.setChained g (some { e with dependents := e.dependents - 1 })).parked r =
          c.parked r := parked_setChained_same (by exact orphan.symm) r
      simp only [if_pos left]
      split_ifs <;> exact same
    · simp only [if_neg left]
      cases orphaned : e.orphan with
      | none =>
        rw [orphaned] at orphan
        have same : (c.setChained g none).parked r = c.parked r :=
          parked_setChained_same (by exact orphan.symm) r
        exact same
      | some r' =>
        rw [orphaned] at orphan
        obtain ⟨atG, base, size⟩ := ok orphan
        simp only [Option.isNone_some, Bool.false_eq_true, if_false]
        rw [parked_retire base size]
        by_cases hr : r' = r
        · subst hr
          simp [parked, orphanAt, setChained, entry, orphaned, atG, retired, passRegions]
          omega
        · have : (c.setChained g none).orphanAt r.base = some r ↔ c.orphanAt r.base = some r := by
            by_cases hg : r.base = g
            · rw [hg, orphan]
              simp [orphanAt, setChained, hr]
            · simp [orphanAt, setChained, hg]
          simp only [parked, this, if_neg hr, Nat.add_zero]
          rfl

theorem parked_release {c : Code} (ok : c.OrphansOk) (h : InlineHook) (r : Region) :
    (h.release c).1.parked r = c.parked r := by
  cases pub : h.published with
  | false => rw [release_unpublished pub]
  | true =>
    cases kind : h.targetKind with
    | normal =>
      rw [release_normal pub kind]
      rfl
    | managedGateway =>
      rw [release_gateway pub kind]
      exact parked_releaseGateway (c := c.unregisterLivePatch h.target) ok h.target r

/-- A hook that is disposed of parks its stub. -/
theorem parked_dispose {c : Code} {h : InlineHook} (base : h.trampoline.ptr ≠ 0)
    (size : h.trampoline.size ≠ 0) (none : c.orphanAt h.trampoline.ptr = none) (r : Region) :
    (h.dispose c).parked r = c.parked r + if h.trampoline.region = r then 1 else 0 := by
  obtain ⟨e, entry, chained⟩ | free := dispose_cases c h
  · rw [dispose_chained entry chained]
    by_cases hr : h.trampoline.region = r
    · subst hr
      have before : c.orphanAt h.trampoline.region.base ≠ some h.trampoline.region := by
        change c.orphanAt h.trampoline.ptr ≠ _
        simp [none]
      have after : ((c.unregisterManagedGateway h.trampoline.ptr).setChained h.trampoline.ptr
          (some { e with orphan := some h.trampoline.region })).orphanAt h.trampoline.region.base =
          some h.trampoline.region := by
        simp [orphanAt, setChained, Trampoline.region]
      unfold parked
      rw [if_neg before, if_pos after, if_pos rfl, Nat.zero_add, Nat.add_comm]
      rfl
    · have same : ((c.unregisterManagedGateway h.trampoline.ptr).setChained h.trampoline.ptr
          (some { e with orphan := some h.trampoline.region })).orphanAt r.base = some r ↔
          c.orphanAt r.base = some r := by
        by_cases hg : r.base = h.trampoline.ptr
        · rw [hg, none]
          simp [orphanAt, setChained, hr]
        · simp [orphanAt, setChained, unregisterManagedGateway, hg]
      simp only [parked, same, if_neg hr, Nat.add_zero]
      rfl
  · rw [dispose_free free, dropTrampoline_of_pos base, parked_retire base size]
    rfl

theorem logged_releaseGateway {c : Code} (logged : c.Logged) (g : ℕ) :
    (releaseGateway c g).Logged := by
  unfold releaseGateway removeGatewayDependent
  cases c.chainedGateways g with
  | none => exact logged
  | some e =>
    by_cases left : 0 < e.dependents - 1
    · simp only [if_pos left]
      split_ifs <;> exact logged
    · simp only [if_neg left]
      cases e.orphan with
      | none => exact logged
      | some r => exact Logged.retire (c := c.setChained g none) logged r

theorem logged_release {c : Code} (logged : c.Logged) (h : InlineHook) :
    (h.release c).1.Logged := by
  cases pub : h.published with
  | false =>
    rw [release_unpublished pub]
    exact logged
  | true =>
    cases kind : h.targetKind with
    | normal =>
      rw [release_normal pub kind]
      exact logged
    | managedGateway =>
      rw [release_gateway pub kind]
      exact logged_releaseGateway (c := c.unregisterLivePatch h.target) logged _

theorem logged_dispose {c : Code} (logged : c.Logged) (h : InlineHook) : (h.dispose c).Logged := by
  obtain ⟨e, entry, chained⟩ | free := dispose_cases c h
  · rw [dispose_chained entry chained]
    exact logged
  · rw [dispose_free free]
    exact Logged.dropTrampoline (c := c.unregisterManagedGateway h.trampoline.ptr) logged _

/-! ### Orphans -/

theorem orphanAt_releaseGateway {c : Code} {g g' : ℕ} {r : Region}
    (orphan : (releaseGateway c g).orphanAt g' = some r) : c.orphanAt g' = some r := by
  unfold releaseGateway removeGatewayDependent at orphan
  cases entry : c.chainedGateways g with
  | none =>
    simp only [entry] at orphan
    exact orphan
  | some e =>
    by_cases left : 0 < e.dependents - 1
    · simp only [entry, if_pos left] at orphan
      have same : (c.setChained g (some { e with dependents := e.dependents - 1 })).orphanAt g' =
          some r := by
        split_ifs at orphan <;> exact orphan
      by_cases hg : g' = g
      · subst hg
        simpa [orphanAt, setChained, entry] using same
      · simpa [orphanAt, setChained, hg] using same
    · simp only [entry, if_neg left] at orphan
      have same : (c.setChained g none).orphanAt g' = some r := by
        cases orphaned : e.orphan with
        | none =>
          rw [orphaned] at orphan
          exact orphan
        | some r' =>
          rw [orphaned] at orphan
          simpa [orphanAt] using orphan
      by_cases hg : g' = g
      · subst hg
        simp [orphanAt, setChained] at same
      · simpa [orphanAt, setChained, hg] using same

theorem orphanAt_release {c : Code} {h : InlineHook} {g : ℕ} {r : Region}
    (orphan : (h.release c).1.orphanAt g = some r) : c.orphanAt g = some r := by
  cases pub : h.published with
  | false =>
    rw [release_unpublished pub] at orphan
    exact orphan
  | true =>
    cases kind : h.targetKind with
    | normal =>
      rw [release_normal pub kind] at orphan
      exact orphan
    | managedGateway =>
      rw [release_gateway pub kind] at orphan
      exact orphanAt_releaseGateway (c := c.unregisterLivePatch h.target) orphan

theorem orphanAt_dispose {c : Code} {h : InlineHook} {g : ℕ} {r : Region}
    (orphan : (h.dispose c).orphanAt g = some r) :
    c.orphanAt g = some r ∨ (g = h.trampoline.ptr ∧ r = h.trampoline.region) := by
  obtain ⟨e, entry, chained⟩ | free := dispose_cases c h
  · rw [dispose_chained entry chained] at orphan
    by_cases hg : g = h.trampoline.ptr
    · subst hg
      simp only [orphanAt, setChained, Function.update_self, Option.bind_some,
        Option.some.injEq] at orphan
      exact .inr ⟨rfl, orphan.symm⟩
    · left
      simpa [orphanAt, setChained, unregisterManagedGateway, hg] using orphan
  · rw [dispose_free free] at orphan
    left
    unfold orphanAt at orphan
    rw [dropTrampoline_chainedGateways] at orphan
    exact orphan

/-! ### Entries and gateways -/

theorem releaseGateway_chained {c : Code} {g : ℕ} {e : ChainedGateway}
    (entry : c.chainedGateways g = some e) :
    (releaseGateway c g).chainedGateways = Function.update c.chainedGateways g
      (if 0 < e.dependents - 1 then some { e with dependents := e.dependents - 1 } else none) := by
  unfold releaseGateway removeGatewayDependent
  by_cases left : 0 < e.dependents - 1
  · simp only [entry, if_pos left]
    split_ifs <;> rfl
  · simp only [entry, if_neg left]
    cases e.orphan with
    | none => rfl
    | some r => exact retire_chainedGateways _ r

/-- The gateway is offered again if its owner is alive. -/
theorem releaseGateway_managed {c : Code} {g : ℕ} {e : ChainedGateway}
    (entry : c.chainedGateways g = some e) :
    (releaseGateway c g).managedGateways =
      if e.orphan = none then insert g c.managedGateways else c.managedGateways := by
  unfold releaseGateway removeGatewayDependent
  by_cases left : 0 < e.dependents - 1
  · simp only [entry, if_pos left]
    cases e.orphan <;> rfl
  · simp only [entry, if_neg left]
    cases e.orphan with
    | none => rfl
    | some r => exact retire_managedGateways _ r

theorem dispose_managed (c : Code) (h : InlineHook) :
    (h.dispose c).managedGateways = c.managedGateways.erase h.trampoline.ptr := by
  obtain ⟨e, entry, chained⟩ | free := dispose_cases c h
  · rw [dispose_chained entry chained]
    rfl
  · rw [dispose_free free, dropTrampoline_managedGateways]
    rfl

theorem dispose_chained_free {c : Code} {h : InlineHook}
    (free : ∀ e, c.chainedGateways h.trampoline.ptr = some e → e.dependents = 0) :
    (h.dispose c).chainedGateways = c.chainedGateways := by
  rw [dispose_free free, dropTrampoline_chainedGateways]
  rfl

/-! ### Live patches -/

theorem releaseGateway_livePatches (c : Code) (g : ℕ) :
    (releaseGateway c g).livePatches = c.livePatches := by
  unfold releaseGateway removeGatewayDependent
  cases c.chainedGateways g with
  | none => rfl
  | some e =>
    by_cases left : 0 < e.dependents - 1
    · simp only [if_pos left]
      split_ifs <;> rfl
    · simp only [if_neg left]
      cases e.orphan with
      | none => rfl
      | some r => exact retire_livePatches _ r

theorem release_livePatches {c : Code} {h : InlineHook} (pub : h.published = true) :
    (h.release c).1.livePatches = c.livePatches.filter fun p => p.1 ≠ h.target := by
  cases kind : h.targetKind with
  | normal =>
    rw [release_normal pub kind]
    rfl
  | managedGateway =>
    rw [release_gateway pub kind, releaseGateway_livePatches]
    rfl

theorem dispose_livePatches (c : Code) (h : InlineHook) :
    (h.dispose c).livePatches = c.livePatches := by
  obtain ⟨e, entry, chained⟩ | free := dispose_cases c h
  · rw [dispose_chained entry chained]
    rfl
  · rw [dispose_free free, dropTrampoline_livePatches]
    rfl

end InlineHook

/-! ### Publishing -/

open Code

theorem publishInline_sameMemory (c : Code) (h : InlineHook) : SameMemory c (publishInline c h).1 := by
  unfold publishInline
  cases h.targetKind <;> exact ⟨rfl, rfl, rfl, rfl, rfl, rfl, rfl, rfl, rfl, rfl⟩

theorem publishInline_normal {c : Code} {h : InlineHook} (kind : h.targetKind = .normal) :
    (publishInline c h).1.managedGateways = insert h.trampoline.ptr c.managedGateways ∧
      (publishInline c h).1.chainedGateways = c.chainedGateways := by
  unfold publishInline
  rw [kind]
  exact ⟨rfl, rfl⟩

theorem publishInline_gateway {c : Code} {h : InlineHook} (kind : h.targetKind = .managedGateway) :
    (publishInline c h).1.managedGateways =
        insert h.trampoline.ptr (c.managedGateways.erase h.target) ∧
      (publishInline c h).1.chainedGateways = Function.update c.chainedGateways h.target
        (some { (c.chainedGateways h.target).getD ⟨0, none⟩ with
          dependents := ((c.chainedGateways h.target).getD ⟨0, none⟩).dependents + 1 }) := by
  unfold publishInline
  rw [kind]
  exact ⟨rfl, rfl⟩

theorem publishInline_livePatches (c : Code) (h : InlineHook) :
    (publishInline c h).1.livePatches =
      (h.target, h.stolenLen) :: c.livePatches.filter fun p => p.1 ≠ h.target := by
  unfold publishInline
  cases h.targetKind <;> rfl

theorem orphanAt_publishInline (c : Code) (h : InlineHook) (g : ℕ) :
    (publishInline c h).1.orphanAt g = c.orphanAt g := by
  unfold publishInline
  cases h.targetKind with
  | normal => rfl
  | managedGateway =>
    by_cases hg : g = h.target
    · subst hg
      cases entry : c.chainedGateways h.target <;>
        simp [orphanAt, addGatewayDependent, setChained, registerManagedGateway, registerLivePatch,
          unregisterManagedGateway, entry]
    · simp [orphanAt, addGatewayDependent, setChained, registerManagedGateway, registerLivePatch,
        unregisterManagedGateway, hg]

theorem retired_publishInline (c : Code) (h : InlineHook) :
    (publishInline c h).1.retired = c.retired := by
  unfold publishInline
  cases h.targetKind <;> rfl

theorem parked_publishInline (c : Code) (h : InlineHook) (r : Region) :
    (publishInline c h).1.parked r = c.parked r := by
  unfold parked
  rw [orphanAt_publishInline, retired_publishInline]

theorem logged_publishInline {c : Code} (logged : c.Logged) (h : InlineHook) :
    (publishInline c h).1.Logged := by
  unfold publishInline
  cases h.targetKind <;> exact logged

end NeoHook
