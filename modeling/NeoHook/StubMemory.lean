import NeoHook.InstalledRanges

/-!
# Stub memory over whole runs

Every stub allocation is retired at most once and released at most once, never while a hook or a
queue holds it, and a retired one waits in the quarantine or in the running pass until it is
released.  The unwind tables of the allocations are registered but for those a pass has drained.
-/

namespace NeoHook

open ByteMap

/-! ### Once retired, once released -/

namespace Own

variable {v : View}

theorem allocId_inj (own : Own v) {r r' : Region} (hr : r ∈ v.code.allocs)
    (hr' : r' ∈ v.code.allocs) (same : v.code.allocId r.base = v.code.allocId r'.base) : r = r' :=
  own.eq_of_base hr hr' (congrArg Prod.fst same)

/-- Regions that wait to be released are distinct. -/
theorem retired_nodup (own : Own v) : v.code.retired.Nodup := by
  refine List.nodup_iff_count_le_one.2 fun r => ?_
  have := own.owners_le_one r
  unfold View.owners Code.parked at this
  omega

theorem waiting_nodup (own : Own v) :
    (v.code.retired.map fun r => v.code.allocId r.base).Nodup :=
  own.retired_nodup.map_on fun _ hr _ hr' same =>
    own.allocId_inj (own.retired_mem hr) (own.retired_mem hr') same

theorem retiredOnce (own : Own v) : v.code.retiredLog.Nodup := by
  refine List.nodup_iff_count_le_one.2 fun id => ?_
  rw [own.logged id]
  have freed := List.nodup_iff_count_le_one.1 own.freedOnce id
  have waiting := List.nodup_iff_count_le_one.1 own.waiting_nodup id
  by_cases gone : id ∈ v.code.freedLog
  · have absent : (v.code.retired.map fun r => v.code.allocId r.base).count id = 0 := by
      refine List.count_eq_zero.2 fun mem => ?_
      obtain ⟨r, hr, same⟩ := List.mem_map.1 mem
      exact (own.freedOld id gone).2 r (own.retired_mem hr) same
    omega
  · rw [List.count_eq_zero.2 gone]
    omega

theorem freed_retired (own : Own v) {id : AllocId} (freed : id ∈ v.code.freedLog) :
    id ∈ v.code.retiredLog := by
  apply List.count_pos_iff.1
  rw [own.logged id]
  have := List.count_pos_iff.2 freed
  omega

/-- What was retired and not released waits. -/
theorem waits (own : Own v) {id : AllocId} (retired : id ∈ v.code.retiredLog)
    (kept : id ∉ v.code.freedLog) : ∃ r ∈ v.code.retired, v.code.allocId r.base = id := by
  have pos := List.count_pos_iff.2 retired
  rw [own.logged id, List.count_eq_zero.2 kept, Nat.zero_add] at pos
  exact List.mem_map.1 (List.count_pos_iff.1 pos)

/-- A region with an owner other than the quarantine is neither retired nor released. -/
theorem held_kept (own : Own v) {r : Region} (held : v.code.parked r < v.owners r) :
    r ∈ v.code.allocs ∧ r ∉ v.code.retired ∧ v.code.allocId r.base ∉ v.code.retiredLog := by
  have there := own.mem_allocs (Nat.zero_lt_of_lt held)
  have waiting := not_retired_of_parked (own.parked_eq_zero held)
  exact ⟨there, waiting, own.notMem_retiredLog there waiting⟩

end Own

/-! ### Unwind tables -/

/-- A stub is not allocated where a running pass has drained a region. -/
def Pass.clearOf (pass : Option Pass) (base : ℕ) : Prop :=
  ∀ p, pass = some p → ∀ r ∈ p.regions, r.base ≠ base

/-- Rules for runs in which addresses that a pass releases are not used again before it ends, and in
which the OS accepts every table that is put back. -/
def Rules.settled : Rules where
  birth pass r := Pass.clearOf pass r.base
  write _ _ _ _ _ := True
  queue _ _ := True
  strand _ := True
  detach _ _ := True
  scar := True
  readd addOk := ∀ base, addOk base = true
  exports := True
  birth_of_idle _ := by
    rintro _ ⟨⟩
  write_of_exports _ _ _ _ _ _ := trivial
  write_sub _ _ _ := trivial

/-- The tables, against the allocations and the running pass. -/
structure Tabled (c : Code) : Prop where
  known : ∀ b, b ∈ c.functionTables ↔ c.tables b = some true
  live : ∀ r ∈ c.allocs, c.tables r.base ≠ none ↔ c.allocId r.base ∈ c.unwound
  placed : ∀ b, c.tables b ≠ none → (∃ r ∈ c.allocs, r.base = b) ∨
    ∃ p, c.pass = some p ∧ ∃ r ∈ p.regions, r.base = b
  off : ∀ b, c.tables b = some false → ∃ p, c.pass = some p ∧ ∃ r ∈ p.regions, r.base = b
  drained : ∀ p, c.pass = some p → ∀ r ∈ p.regions, c.tables r.base ≠ some true
  unused : ∀ p, c.pass = some p → ∀ r ∈ p.regions, ∀ r' ∈ c.allocs,
    r'.base = r.base → r' = r ∧ r ∈ c.passRegions
  busy : ∀ p, c.pass = some p → ∀ r ∈ c.passRegions, r ∈ p.regions
  old : ∀ id ∈ c.unwound, id.2 ≤ c.births id.1

namespace Tabled

variable {v v' : View} {c c' : Code} {foreign : List Region}

/-- The tables, the allocations and the pass are as they were. -/
theorem of_same (tabled : Tabled c) (allocs : c'.allocs = c.allocs) (births : c'.births = c.births)
    (tables : c'.tables = c.tables) (functionTables : c'.functionTables = c.functionTables)
    (unwound : c'.unwound = c.unwound) (pass : c'.pass = c.pass) : Tabled c' := by
  have regions : c'.passRegions = c.passRegions := by
    unfold Code.passRegions
    rw [pass]
  have ids : ∀ b, c'.allocId b = c.allocId b := fun b => by
    unfold Code.allocId
    rw [births]
  refine ⟨?_, ?_, ?_, ?_, ?_, ?_, ?_, ?_⟩
  · rw [functionTables, tables]
    exact tabled.known
  · intro r hr
    rw [allocs] at hr
    rw [tables, ids, unwound]
    exact tabled.live r hr
  · rw [tables, allocs, pass]
    exact tabled.placed
  · rw [tables, pass]
    exact tabled.off
  · rw [tables, pass]
    exact tabled.drained
  · rw [pass, allocs, regions]
    exact tabled.unused
  · rw [pass, regions]
    exact tabled.busy
  · rw [unwound, births]
    exact tabled.old

theorem of_sameMemory (tabled : Tabled c) (same : c.SameMemory c') : Tabled c' :=
  tabled.of_same same.allocs same.births same.tables same.functionTables same.unwound same.pass

theorem allocate (tabled : Tabled v.code) (own : Own v) {r : Region}
    (free : v.code.Free foreign r) (clear : Pass.clearOf v.code.pass r.base) :
    Tabled (v.code.allocate r) := by
  obtain ⟨-, size, -, apart, -⟩ := free
  have other : ∀ r' ∈ v.code.allocs, r'.base ≠ r.base := fun r' hr' eq =>
    Region.Apart.base_ne (apart r' hr') size (own.real r' hr').2 eq.symm
  have untabled : v.code.tables r.base = none := by
    by_contra tabledHere
    obtain ⟨r', hr', same⟩ | ⟨p, pass, r', hr', same⟩ := tabled.placed r.base tabledHere
    · exact other r' hr' same
    · exact clear p pass r' hr' same
  refine ⟨tabled.known, fun r' hr' => ?_, fun b known => ?_, tabled.off, tabled.drained,
    fun p pass r' hr' x hx same => ?_, tabled.busy, fun id unwound => ?_⟩
  · change v.code.tables r'.base ≠ none ↔ (v.code.allocate r).allocId r'.base ∈ v.code.unwound
    obtain rfl | hr' := List.mem_cons.1 hr'
    · rw [untabled]
      refine ⟨fun absurd => (absurd rfl).elim, fun unwound => ?_⟩
      have old := tabled.old _ unwound
      simp only [Code.allocId, Code.allocate, Function.update_self] at old
      omega
    · have same : (v.code.allocate r).allocId r'.base = v.code.allocId r'.base := by
        simp [Code.allocId, Code.allocate, other r' hr']
      rw [same]
      exact tabled.live r' hr'
  · obtain ⟨r', hr', same⟩ | inPass := tabled.placed b known
    · exact .inl ⟨r', List.mem_cons_of_mem _ hr', same⟩
    · exact .inr inPass
  · obtain rfl | hx := List.mem_cons.1 hx
    · exact absurd same.symm (clear p pass r' hr')
    · exact tabled.unused p pass r' hr' x hx same
  · have old := tabled.old id unwound
    change id.2 ≤ Function.update v.code.births r.base (v.code.births r.base + 1) id.1
    by_cases here : id.1 = r.base
    · rw [here, Function.update_self]
      rw [here] at old
      omega
    · rw [Function.update_of_ne here]
      exact old

theorem unwind (tabled : Tabled v.code) (own : Own v) {r : Region} (held : r ∈ v.held) :
    Tabled (v.code.registerTable r.base) := by
  have count := Multiset.count_pos.2 held
  obtain ⟨there, waiting, -⟩ := @Own.held_kept v own r (by unfold View.owners; omega)
  have outside : ∀ p, v.code.pass = some p → ∀ r' ∈ p.regions, r'.base ≠ r.base := by
    intro p pass r' hr' same
    obtain ⟨rfl, inPass⟩ := tabled.unused p pass r' hr' r there same.symm
    exact waiting (List.mem_append_right _ inPass)
  have table : ∀ b, (v.code.registerTable r.base).tables b =
      if b = r.base then some true else v.code.tables b := fun b => Function.update_apply ..
  refine ⟨fun b => ?_, fun r' hr' => ?_, fun b known => ?_, fun b off => ?_, fun p pass r' hr' => ?_,
    tabled.unused, tabled.busy, fun id unwound => ?_⟩
  · rw [table]
    change b ∈ insert r.base v.code.functionTables ↔ _
    rw [Finset.mem_insert]
    by_cases here : b = r.base
    · simp [here]
    · rw [if_neg here, or_iff_right here]
      exact tabled.known b
  · rw [table]
    change _ ↔ v.code.allocId r'.base ∈ v.code.allocId r.base :: v.code.unwound
    rw [List.mem_cons]
    by_cases here : r'.base = r.base
    · simp [here]
    · have apart : v.code.allocId r'.base ≠ v.code.allocId r.base :=
        fun same => here (congrArg Prod.fst same)
      rw [if_neg here, or_iff_right apart]
      exact tabled.live r' hr'
  · rw [table] at known
    by_cases here : b = r.base
    · exact .inl ⟨r, there, here.symm⟩
    · rw [if_neg here] at known
      exact tabled.placed b known
  · rw [table] at off
    by_cases here : b = r.base
    · simp [here] at off
    · rw [if_neg here] at off
      exact tabled.off b off
  · rw [table, if_neg (outside p pass r' hr')]
    exact tabled.drained p pass r' hr'
  · obtain rfl | unwound := List.mem_cons.1 unwound
    · exact le_rfl
    · exact tabled.old id unwound

theorem beginPass (tabled : Tabled v.code) (own : Own v) : Tabled v.code.beginPass := by
  unfold Code.beginPass
  split_ifs with idle
  · exact tabled
  · have none : v.code.pass = none := by
      cases h : v.code.pass with
      | none => rfl
      | some p => exact absurd (.inl (by simp [h])) idle
    have inAllocs : ∀ r ∈ v.code.quarantine, r ∈ v.code.allocs := fun r hr =>
      own.retired_mem (List.mem_append_left _ hr)
    have on : ∀ b, v.code.tables b ≠ some false := by
      intro b off
      obtain ⟨p, pass, -⟩ := tabled.off b off
      rw [none] at pass
      cases pass
    have table : ∀ b, (v.code.suspendTables (v.code.quarantine.map (·.base))).tables b =
        if b ∈ v.code.quarantine.map (·.base) then (v.code.tables b).map fun _ => false
        else v.code.tables b := fun _ => rfl
    have present : ∀ b, (v.code.suspendTables (v.code.quarantine.map (·.base))).tables b ≠
        Option.none ↔ v.code.tables b ≠ Option.none := by
      intro b
      rw [table]
      split_ifs
      · cases v.code.tables b <;> simp
      · exact Iff.rfl
    refine ⟨fun b => ?_, fun r hr => (present r.base).trans (tabled.live r hr), fun b known => ?_,
      fun b off => ?_, ?_, ?_, ?_, tabled.old⟩
    · change b ∈ v.code.functionTables.filter (fun b =>
        ¬ (b ∈ v.code.quarantine.map (·.base) ∧ v.code.tables b = some true)) ↔ _
      rw [table, Finset.mem_filter, tabled.known]
      by_cases drained : b ∈ v.code.quarantine.map (·.base)
      · rw [if_pos drained]
        cases v.code.tables b <;> simp [drained]
      · rw [if_neg drained]
        simp [drained]
    · obtain there | ⟨p, pass, -⟩ := tabled.placed b ((present b).1 known)
      · exact .inl there
      · rw [none] at pass
        cases pass
    · rw [table] at off
      split_ifs at off with drained
      · obtain ⟨r, hr, same⟩ := List.mem_map.1 drained
        exact ⟨_, rfl, r, hr, same⟩
      · exact absurd off (on b)
    · rintro _ ⟨⟩ r hr
      rw [table, if_pos (List.mem_map_of_mem hr)]
      cases v.code.tables r.base <;> simp
    · rintro _ ⟨⟩ r hr r' hr' same
      exact ⟨own.eq_of_base hr' (inAllocs r hr) same, hr⟩
    · rintro _ ⟨⟩ r hr
      exact hr

theorem freeRegions (tabled : Tabled v.code) (own : Own v) {regions freed busy : List Region}
    (pass : v.code.pass = some ⟨regions, none⟩) (split : (freed ++ busy).Perm regions) :
    Tabled (v.code.releaseRegions regions freed busy) := by
  have left : ∀ r ∈ v.code.allocs.diff freed, r ∈ v.code.allocs ∧ r ∉ freed := by
    intro r hr
    refine ⟨List.diff_subset _ _ hr, fun gone => ?_⟩
    have once := List.nodup_iff_count_le_one.1 own.nodup r
    have pos := List.count_pos_iff.2 hr
    have := List.count_pos_iff.2 gone
    rw [List.count_diff] at pos
    omega
  have inPass : ∀ {b}, (∃ p, v.code.pass = some p ∧ ∃ r ∈ p.regions, r.base = b) →
      ∃ r ∈ regions, r.base = b := by
    rintro b ⟨p, running, there⟩
    rw [pass] at running
    cases running
    exact there
  refine ⟨tabled.known, fun r hr => tabled.live r (left r hr).1, fun b known => ?_, fun b off => ?_,
    ?_, ?_, ?_, tabled.old⟩
  · obtain ⟨r, hr, same⟩ | there := tabled.placed b known
    · by_cases gone : r ∈ freed
      · exact .inr ⟨_, rfl, r, split.subset (List.mem_append_left _ gone), same⟩
      · refine .inl ⟨r, List.count_pos_iff.1 ?_, same⟩
        change 0 < (v.code.allocs.diff freed).count r
        rw [List.count_diff, List.count_eq_zero.2 gone]
        exact List.count_pos_iff.2 hr
    · exact .inr ⟨_, rfl, inPass there⟩
  · exact ⟨_, rfl, inPass (tabled.off b off)⟩
  · rintro _ ⟨⟩ r hr
    exact tabled.drained _ pass r hr
  · rintro _ ⟨⟩ r hr r' hr' same
    obtain ⟨there, notFreed⟩ := left r' hr'
    obtain ⟨rfl, -⟩ := tabled.unused _ pass r hr r' there same
    obtain mem | mem := List.mem_append.1 (split.symm.subset hr)
    · exact absurd mem notFreed
    · exact ⟨rfl, mem⟩
  · rintro _ ⟨⟩ r hr
    exact split.subset (List.mem_append_right _ hr)

/-- A table that a pass puts back or forgets. -/
theorem settled_table {c : Code} {bases busy : List ℕ} {addOk : ℕ → Bool} {b : ℕ}
    (accepts : ∀ b, addOk b = true) :
    (c.settleTables bases busy addOk).tables b = (if b ∈ bases then
      if b ∈ busy then (c.tables b).map fun _ => true else none
      else c.tables b) ∧
    (b ∈ (c.settleTables bases busy addOk).functionTables ↔ b ∈ c.functionTables ∨
      (b ∈ bases ∧ b ∈ busy ∧ c.tables b = some false)) := by
  constructor
  · simp only [Code.settleTables, accepts, Bool.or_true]
  · simp only [Code.settleTables, accepts, Finset.mem_union, List.mem_toFinset, List.mem_filter,
      decide_eq_true_eq, and_true]

theorem settlePass (tabled : Tabled v.code) (own : Own v) {addOk : ℕ → Bool}
    (accepts : ∀ b, addOk b = true) : Tabled (v.code.settlePass addOk) := by
  unfold Code.settlePass
  split
  · rename_i regions busy pass
    have inPass : ∀ {b}, (∃ p, v.code.pass = some p ∧ ∃ r ∈ p.regions, r.base = b) →
        b ∈ regions.map (·.base) := by
      rintro b ⟨p, running, r, hr, same⟩
      rw [pass] at running
      cases running
      exact List.mem_map.2 ⟨r, hr, same⟩
    have off : ∀ b, b ∈ regions.map (·.base) → v.code.tables b ≠ some true := by
      intro b mem
      obtain ⟨r, hr, rfl⟩ := List.mem_map.1 mem
      exact tabled.drained _ pass r hr
    have settled := fun b =>
      @settled_table v.code (regions.map (·.base)) (busy.map (·.base)) addOk b accepts
    have table := fun b => (settled b).1
    have registered := fun b => (settled b).2
    refine ⟨fun b => ?_, fun r hr => ?_, fun b known => .inl ?_, fun b stays => ?_, ?_, ?_, ?_,
      tabled.old⟩
    · refine (registered b).trans ?_
      rw [table b, tabled.known]
      by_cases drained : b ∈ regions.map (·.base)
      · have := off b drained
        rw [if_pos drained]
        split_ifs with busyHere
        · cases here : v.code.tables b with
          | none => simp
          | some on =>
            cases on with
            | true => exact absurd here this
            | false => simp [drained, busyHere]
        · simp [busyHere, this]
      · rw [if_neg drained]
        simp [drained]
    · refine Iff.trans ?_ (tabled.live r hr)
      rw [table r.base]
      by_cases drained : r.base ∈ regions.map (·.base)
      · obtain ⟨r', hr', same⟩ := List.mem_map.1 drained
        obtain ⟨rfl, there⟩ := tabled.unused _ pass r' hr' r hr same.symm
        have busyHere : r.base ∈ busy.map (·.base) := by
          refine List.mem_map_of_mem ?_
          unfold Code.passRegions at there
          rw [pass] at there
          exact there
        rw [if_pos drained, if_pos busyHere]
        cases v.code.tables r.base <;> simp
      · rw [if_neg drained]
    · rw [table b] at known
      split_ifs at known with drained busyHere
      · obtain ⟨r, hr, same⟩ := List.mem_map.1 busyHere
        refine ⟨r, own.retired_mem (List.mem_append_right _ ?_), same⟩
        unfold Code.passRegions
        rw [pass]
        exact hr
      · exact absurd rfl known
      · exact (tabled.placed b known).resolve_right fun there => drained (inPass there)
    · rw [table b] at stays
      split_ifs at stays with drained busyHere
      · cases here : v.code.tables b <;> simp [here] at stays
      · exact absurd (inPass (tabled.off b stays)) drained
    · rintro _ ⟨⟩
    · rintro _ ⟨⟩
    · rintro _ ⟨⟩
  · exact tabled

/-- Every move keeps the tables with their allocations. -/
theorem move (m : Move Rules.settled foreign v v') (own : Own v) (tabled : Tabled v.code) :
    Tabled v'.code := by
  cases m with
  | allocate free _ birth => exact tabled.allocate own free birth
  | fill | queue | patch | undo | strandFlight | restore | enable | strand | arm | handler | disarm
  | scar => exact tabled.of_same rfl rfl rfl rfl rfl rfl
  | unwind held => exact tabled.unwind own held
  | discard => exact tabled.of_sameMemory (Code.retire_sameMemory _ _)
  | giveUp => exact tabled.of_sameMemory (Code.dropTrampoline_sameMemory _ _)
  | publish => exact tabled.of_sameMemory (publishInline_sameMemory _ _)
  | unravel => exact tabled.of_sameMemory (InlineHook.dispose_sameMemory _ _)
  | @detach h =>
    have released := tabled.of_sameMemory (InlineHook.release_sameMemory v.code h)
    exact released.of_same rfl rfl rfl rfl rfl rfl
  | @remove h =>
    exact tabled.of_sameMemory ((InlineHook.release_sameMemory v.code h).trans
      (InlineHook.dispose_sameMemory (h.release v.code).1 h))
  | beginPass => exact tabled.beginPass own
  | freeRegions pass split => exact tabled.freeRegions own pass split
  | settlePass accepts => exact tabled.settlePass own accepts

theorem initial (pristine : ℕ → UInt8) (tables : Tables) :
    Tabled (View.initial pristine tables).code := by
  constructor <;> simp [View.initial, State.initial]

/-- A drained region is one of the pass. -/
theorem mem_pass {r : Region} (tabled : Tabled c) (waits : r ∈ c.passRegions) :
    ∃ p, c.pass = some p ∧ r ∈ p.regions := by
  cases running : c.pass with
  | none =>
    unfold Code.passRegions at waits
    rw [running] at waits
    cases waits
  | some p => exact ⟨p, rfl, tabled.busy p running r waits⟩

end Tabled

/-! ### Every run -/

/-- The tables of the stubs that have one are registered while the stub is not released and no pass
has drained it, and nothing else is registered. -/
structure Code.TablesFollow (c : Code) : Prop where
  live : ∀ r ∈ c.allocs, c.allocId r.base ∈ c.unwound →
    (r.base ∈ c.functionTables ↔ r ∉ c.passRegions)
  dead : ∀ b ∈ c.functionTables, ∃ r ∈ c.allocs, r.base = b ∧ c.allocId b ∈ c.unwound

theorem Tabled.follow {c : Code} (tabled : Tabled c) : c.TablesFollow where
  live r hr unwound := by
    have present := (tabled.live r hr).2 unwound
    rw [tabled.known]
    constructor
    · intro registered waits
      obtain ⟨p, pass, inside⟩ := tabled.mem_pass waits
      exact tabled.drained p pass r inside registered
    · intro free
      cases table : c.tables r.base with
      | none => exact absurd table present
      | some on =>
        cases on with
        | true => rfl
        | false =>
          obtain ⟨p, pass, r', hr', same⟩ := tabled.off r.base table
          obtain ⟨rfl, waits⟩ := tabled.unused p pass r' hr' r hr same.symm
          exact absurd waits free
  dead b registered := by
    have on := (tabled.known b).1 registered
    obtain ⟨r, hr, same⟩ | ⟨p, pass, r, hr, same⟩ := tabled.placed b (by rw [on]; simp)
    · refine ⟨r, hr, same, ?_⟩
      rw [← same]
      refine (tabled.live r hr).1 ?_
      rw [same, on]
      simp
    · rw [← same] at on
      exact absurd on (tabled.drained p pass r hr)

/-- The stubs that queues, hooks and INT3 hooks of the program hold. -/
def State.ownedStubs (s : State) : Multiset Region :=
  s.queued.map (·.trampoline.region) + s.hooks.map (·.trampoline.region) +
    (exportStubs s.process.installed + s.gateways)

structure State.StubsLinear (s : State) : Prop where
  retiredOnce : s.process.code.retiredLog.Nodup
  freedOnce : s.process.code.freedLog.Nodup
  freedRetired : ∀ id ∈ s.process.code.freedLog, id ∈ s.process.code.retiredLog
  waits : ∀ id ∈ s.process.code.retiredLog, id ∉ s.process.code.freedLog →
    ∃ r ∈ s.process.code.retired, r ∈ s.process.code.allocs ∧ s.process.code.allocId r.base = id
  owned : ∀ r ∈ s.ownedStubs,
    r ∈ s.process.code.allocs ∧ s.process.code.allocId r.base ∉ s.process.code.retiredLog

theorem Sim.owned_lt {R : Rules} {s : State} {v : View} (sim : Sim R s v) {r : Region}
    (owned : r ∈ s.ownedStubs) : v.code.parked r < v.owners r := by
  have objs : v.objs = s.hooks := by
    rw [sim.sees.objs]
    exact Multiset.add_zero _
  have pend : v.pend = s.queued := sim.sees.pend
  have held := Multiset.count_le_of_le r sim.sees.held
  have count := Multiset.count_pos.2 owned
  unfold State.ownedStubs at count
  rw [Multiset.count_add, Multiset.count_add, ← objs, ← pend] at count
  unfold View.owners
  change (exportStubs s.process.installed + s.gateways).count r ≤ v.held.count r at held
  omega

theorem Sim.stubsLinear {R : Rules} {s : State} {v : View} (sim : Sim R s v) (base : Base v) :
    s.StubsLinear := by
  have code : v.code = s.process.code := sim.sees.code
  have own := base.own
  refine ⟨?_, ?_, ?_, ?_, ?_⟩
  · rw [← code]
    exact own.retiredOnce
  · rw [← code]
    exact own.freedOnce
  · rw [← code]
    exact fun id => own.freed_retired
  · rw [← code]
    intro id retired kept
    obtain ⟨r, hr, same⟩ := own.waits retired kept
    exact ⟨r, hr, own.retired_mem hr, same⟩
  · rw [← code]
    intro r owned
    obtain ⟨there, -, waiting⟩ := own.held_kept (sim.owned_lt owned)
    exact ⟨there, waiting⟩

/-- A call that is not refused allocates no stub where the running pass has drained a region, and the
OS accepts the tables that are put back. -/
def Op.Settles (E : Env) (s : State) (op : Op) : Prop :=
  op.Acts E s → match op with
    | .queue _ (.attach _ _ _ os) => ∀ a, os.stubAt = some a → Pass.clearOf s.process.code.pass a
    | .int3Install target _ gateway _ => ∀ a,
      (gateway.bind fun g => originalGatewayAt E.codec s.process.code target g.1) = some a →
        Pass.clearOf s.process.code.pass a
    | .settlePass addOk => ∀ b, addOk b = true
    | _ => True

theorem Op.Settles.grants {E : Env} {s : State} {op : Op} (settles : op.Settles E s) :
    Rules.settled.Grants E s op := by
  intro acts
  have meets := settles acts
  cases op with
  | queue tx r =>
    cases r with
    | attach target detour follow os =>
      exact ⟨⟨fun at_ _ => meets _ at_, fun _ => trivial⟩, fun _ _ _ _ _ _ _ _ _ => trivial,
        fun _ _ _ _ _ _ _ _ => trivial⟩
    | attachIat | attachEat | attachVtable | attachVtableInstance | detach => trivial
  | commit tx ffi os threads =>
    exact fun t _ => ⟨fun _ _ _ _ _ _ _ _ => trivial, fun _ _ _ _ _ _ _ _ => trivial⟩
  | unhook place ok dropOk retargetOk => exact fun _ _ _ _ _ => trivial
  | drop place ok retargetOk => exact fun _ _ _ _ => trivial
  | int3Install target detour gateway os =>
    exact ⟨fun _ => trivial, fun at_ _ => meets _ at_, fun _ => trivial⟩
  | int3Drop hook os => exact fun _ => trivial
  | settlePass addOk => exact meets
  | begin | abort | enable | disable | beginPass | freeRegions => trivial

/-- Every run handles stub memory linearly, and the unwind tables follow the stubs in runs that use
no address again before the pass that released it has ended. -/
theorem stub_memory_linear (E : Env) (pristine : ℕ → UInt8) :
    (∀ s, State.Reachable E (fun _ _ => True) pristine s → s.StubsLinear) ∧
      ∀ s, State.Reachable E (fun s op => op.Settles E s) pristine s →
        s.process.code.TablesFollow := by
  constructor
  · intro s run
    have grants : ∀ {s op}, True → Rules.free.Grants E s op :=
      fun {s op} _ => Rules.free_grants E s op
    have kept : ∀ {v v'}, Move Rules.free E.foreign v v' → Base v → True → True :=
      fun _ _ _ => trivial
    obtain ⟨v, sim, base, -⟩ := run.sim grants (fun _ => trivial) kept
    exact sim.stubsLinear base
  · intro s run
    obtain ⟨v, sim, base, tabled⟩ := run.sim (R := Rules.settled)
      (fun settles => settles.grants) (Tabled.initial pristine)
      fun m base tabled => Tabled.move m base.own tabled
    have code : v.code = s.process.code := sim.sees.code
    exact code ▸ tabled.follow

/-! ### A drained stub -/

/-- A request for a hook whose stub gets unwind data. -/
def unwoundRequest : Request :=
  .attach 0x1000 0x3000 true { sampleAttachOs 0x20000 with unwindData := some [1], addTable := true }

def unwoundStub : Region := ⟨0x20000, 256⟩

def begunState : State := (State.initial samplePristine sampleTables).step sampleEnv .begin

def queuedState : State := begunState.step sampleEnv (.queue 1 unwoundRequest)

/-- The queue is given up and a pass drains its stub. -/
def drainedState : State := queuedState.run sampleEnv [.abort 1, .beginPass]

theorem queuedState_reachable {allowed : State → Op → Prop}
    (begins : allowed (State.initial samplePristine sampleTables) .begin)
    (queues : allowed begunState (.queue 1 unwoundRequest)) :
    State.Reachable sampleEnv allowed samplePristine queuedState :=
  .step _ (.step _ (.initial sampleTables) begins) queues

/-- A pass takes the tables away before it knows what it can release. -/
theorem drained_stub_has_no_table :
    State.Reachable sampleEnv (fun _ _ => True) samplePristine drainedState ∧
      ∃ r ∈ drainedState.process.code.allocs,
        drainedState.process.code.allocId r.base ∈ drainedState.process.code.unwound ∧
          r.base ∉ drainedState.process.code.functionTables := by
  refine ⟨(queuedState_reachable trivial trivial).run fun _ _ _ => trivial, ⟨0x20000, 256⟩, ?_⟩
  decide +kernel

/-- No other thread, and a caller with an empty stack. -/
def quietSnapshot : Snapshot where
  callerTid := 1
  caller := ⟨0x8000, 0xEFF0, []⟩
  live := []
  context _ := ⟨0, 0, []⟩
  memory :=
    { query := fun x => if x < 0xF000 then some ⟨0xE000, 0x1000, 0xE000, true, false⟩
        else some ⟨0xF000, 0x1000, 0, false, false⟩
      word := fun _ => 0 }

def quietThreads : ThreadOs where
  freezeLock := true
  tids := []
  openThread _ := .opened
  suspendThread _ := .suspended
  getThreadContext _ := true
  walk := none

/-- The pass ends without the freeze lock, so that it keeps the stub and puts its table back. -/
def settling : List Op :=
  [.abort 1, .beginPass, .freeRegions quietSnapshot { quietThreads with freezeLock := false },
    .settlePass fun _ => true]

def keptState : State := queuedState.run sampleEnv settling

theorem kept_stub_has_table :
    keptState.StubsLinear ∧ unwoundStub ∈ keptState.process.code.retired ∧
      unwoundStub.base ∈ keptState.process.code.functionTables := by
  obtain ⟨linear, follow⟩ := stub_memory_linear sampleEnv samplePristine
  have idle : begunState.process.code.pass = none := rfl
  have run : State.Reachable sampleEnv (fun s op => op.Settles sampleEnv s) samplePristine
      keptState := by
    refine (queuedState_reachable (fun _ => trivial) fun _ a _ p pass => ?_).run ?_
    · rw [idle] at pass
      cases pass
    · intro s op mem
      simp only [settling, List.mem_cons, List.not_mem_nil, or_false] at mem
      rcases mem with rfl | rfl | rfl | rfl
      · exact fun _ => trivial
      · exact fun _ => trivial
      · exact fun _ => trivial
      · exact fun _ _ => rfl
  have held : unwoundStub ∈ keptState.process.code.allocs := by decide +kernel
  have unwound : keptState.process.code.allocId unwoundStub.base ∈
      keptState.process.code.unwound := by
    decide +kernel
  have waits : unwoundStub ∉ keptState.process.code.passRegions := by decide +kernel
  have table : unwoundStub.base ∈ keptState.process.code.functionTables ↔
      unwoundStub ∉ keptState.process.code.passRegions :=
    (follow keptState run).live unwoundStub held unwound
  refine ⟨linear keptState ?_, by decide +kernel, ?_⟩
  · exact (queuedState_reachable trivial trivial).run fun _ _ _ => trivial
  · rw [table]
    exact waits

end NeoHook
