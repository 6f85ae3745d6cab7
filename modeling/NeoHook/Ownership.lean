import NeoHook.Registry
import NeoHook.Lib.Bag

/-!
# Stub ownership

Every stub allocation that is not released has exactly one owner: a queue entry, a hook, the program
itself, the orphan table, the quarantine or a pass.  The logs of retired and released allocations
follow.
-/

namespace NeoHook

open ByteMap

namespace View

/-- How often a region is owned. -/
def owners (v : View) (r : Region) : ℕ :=
  v.held.count r + (v.pend.map (·.trampoline.region)).count r +
    (v.objs.map (·.trampoline.region)).count r + (v.flight.map (·.trampoline.region)).count r +
    (v.stranded.map (·.trampoline.region)).count r + v.code.parked r

end View

structure Own (v : View) : Prop where
  counted : ∀ r, v.code.allocs.count r = v.owners r
  apart : v.code.allocs.Pairwise Region.Apart
  real : ∀ r ∈ v.code.allocs, r.base ≠ 0 ∧ 0 < r.size
  orphans : v.code.OrphansOk
  logged : v.code.Logged
  freedOnce : v.code.freedLog.Nodup
  freedOld : ∀ id ∈ v.code.freedLog, id.2 ≤ v.code.births id.1 ∧
    ∀ r ∈ v.code.allocs, v.code.allocId r.base ≠ id

namespace Own

variable {v : View}

theorem mem_allocs (own : Own v) {r : Region} (h : 0 < v.owners r) : r ∈ v.code.allocs := by
  rw [← own.counted r] at h
  exact List.count_pos_iff.1 h

theorem nodup (own : Own v) : v.code.allocs.Nodup := by
  refine own.apart.imp_of_mem fun {r r'} hr hr' apart => ?_
  rintro rfl
  exact Region.Apart.base_ne apart (own.real r hr).2 (own.real r hr).2 rfl

theorem owners_le_one (own : Own v) (r : Region) : v.owners r ≤ 1 := by
  rw [← own.counted r]
  exact List.nodup_iff_count_le_one.1 own.nodup r

/-- An allocation is known by its base. -/
theorem eq_of_base (own : Own v) {r r' : Region} (hr : r ∈ v.code.allocs) (hr' : r' ∈ v.code.allocs)
    (base : r.base = r'.base) : r = r' := by
  by_contra ne
  have symm : Std.Symm Region.Apart := ⟨fun _ _ h => h.symm⟩
  have apart := own.apart.forall hr hr' ne
  exact Region.Apart.base_ne apart (own.real r hr).2 (own.real r' hr').2 base

theorem objs_mem (own : Own v) {h : InlineHook} (hh : h ∈ v.objs) :
    h.trampoline.region ∈ v.code.allocs := by
  apply own.mem_allocs
  have := Multiset.count_pos.2 (Multiset.mem_map_of_mem (·.trampoline.region) hh)
  unfold View.owners
  omega

theorem flight_mem (own : Own v) {h : InlineHook} (hh : h ∈ v.flight) :
    h.trampoline.region ∈ v.code.allocs := by
  apply own.mem_allocs
  have := Multiset.count_pos.2 (Multiset.mem_map_of_mem (·.trampoline.region) hh)
  unfold View.owners
  omega

theorem stranded_mem (own : Own v) {h : InlineHook} (hh : h ∈ v.stranded) :
    h.trampoline.region ∈ v.code.allocs := by
  apply own.mem_allocs
  have := Multiset.count_pos.2 (Multiset.mem_map_of_mem (·.trampoline.region) hh)
  unfold View.owners
  omega

theorem pend_mem (own : Own v) {d : InlineData} (hd : d ∈ v.pend) :
    d.trampoline.region ∈ v.code.allocs := by
  apply own.mem_allocs
  have := Multiset.count_pos.2 (Multiset.mem_map_of_mem (·.trampoline.region) hd)
  unfold View.owners
  omega

theorem held_mem (own : Own v) {r : Region} (hr : r ∈ v.held) : r ∈ v.code.allocs := by
  apply own.mem_allocs
  have := Multiset.count_pos.2 hr
  unfold View.owners
  omega

theorem retired_mem (own : Own v) {r : Region} (hr : r ∈ v.code.retired) : r ∈ v.code.allocs := by
  apply own.mem_allocs
  have := List.count_pos_iff.2 hr
  unfold View.owners Code.parked
  omega

theorem orphan_mem (own : Own v) {g : ℕ} {r : Region} (hr : v.code.orphanAt g = some r) :
    r ∈ v.code.allocs := by
  apply own.mem_allocs
  have := (own.orphans hr).1
  subst this
  unfold View.owners Code.parked
  rw [if_pos hr]
  omega

/-- The allocation of an unreleased region that is neither in the quarantine nor in a pass was never
retired. -/
theorem notMem_retiredLog (own : Own v) {r : Region} (hr : r ∈ v.code.allocs)
    (waiting : r ∉ v.code.retired) : v.code.allocId r.base ∉ v.code.retiredLog := by
  intro logged
  have pos := List.count_pos_iff.2 logged
  rw [own.logged] at pos
  have freed : v.code.freedLog.count (v.code.allocId r.base) = 0 :=
    List.count_eq_zero.2 fun mem => (own.freedOld _ mem).2 r hr rfl
  rw [freed, Nat.zero_add] at pos
  obtain ⟨r', hr', eq⟩ := List.mem_map.1 (List.count_pos_iff.1 pos)
  have base : r'.base = r.base := congrArg Prod.fst eq
  exact waiting (own.eq_of_base (own.retired_mem hr') hr base ▸ hr')

/-- A region with another owner is not parked. -/
theorem parked_eq_zero (own : Own v) {r : Region} (h : v.code.parked r < v.owners r) :
    v.code.parked r = 0 := by
  have := own.owners_le_one r
  omega

theorem not_retired_of_parked {r : Region} (h : v.code.parked r = 0) : r ∉ v.code.retired := by
  intro mem
  have := List.count_pos_iff.2 mem
  unfold Code.parked at h
  omega

/-- A stub whose owner is not the orphan table has no orphan at its address. -/
theorem orphanAt_eq_none (own : Own v) {r : Region} (hr : r ∈ v.code.allocs)
    (h : v.code.parked r = 0) : v.code.orphanAt r.base = none := by
  cases orphan : v.code.orphanAt r.base with
  | none => rfl
  | some r' =>
    have base := (own.orphans orphan).1
    have eq := own.eq_of_base (own.orphan_mem orphan) hr base
    subst eq
    unfold Code.parked at h
    rw [if_pos orphan] at h
    omega

/-! ### Moves keep every stub owned once -/

variable {v' : View}

/-- Ownership only depends on the allocations, the logs and who owns what. -/
theorem of_same (own : Own v) (allocs : v'.code.allocs = v.code.allocs)
    (births : v'.code.births = v.code.births) (freedLog : v'.code.freedLog = v.code.freedLog)
    (owners : ∀ r, v'.owners r = v.owners r) (orphans : v'.code.OrphansOk)
    (logged : v'.code.Logged) : Own v' := by
  refine ⟨fun r => ?_, ?_, ?_, orphans, logged, ?_, fun id mem => ?_⟩
  · rw [allocs, owners, own.counted]
  · rw [allocs]
    exact own.apart
  · rw [allocs]
    exact own.real
  · rw [freedLog]
    exact own.freedOnce
  · rw [freedLog] at mem
    obtain ⟨old, gone⟩ := own.freedOld id mem
    rw [births, allocs]
    refine ⟨old, fun r hr => ?_⟩
    have := gone r hr
    unfold Code.allocId at this ⊢
    rwa [births]

theorem allocate (own : Own v) {foreign : List Region} {r : Region} (free : v.code.Free foreign r) :
    Own { v with code := v.code.allocate r, held := r ::ₘ v.held } := by
  obtain ⟨base, size, -, apart, -⟩ := free
  have other : ∀ r' ∈ v.code.allocs, r'.base ≠ r.base := fun r' hr' eq =>
    Region.Apart.base_ne (apart r' hr') size (own.real r' hr').2 eq.symm
  have kept : ∀ r' ∈ v.code.allocs,
      (v.code.allocate r).allocId r'.base = v.code.allocId r'.base := fun r' hr' => by
    simp [Code.allocId, Code.allocate, other r' hr']
  refine ⟨fun x => ?_, ?_, ?_, own.orphans, fun id => ?_, own.freedOnce, fun id mem => ?_⟩
  · have before := own.counted x
    have parked : (v.code.allocate r).parked x = v.code.parked x := rfl
    have allocs : (v.code.allocate r).allocs = r :: v.code.allocs := rfl
    simp only [View.owners, parked, allocs] at before ⊢
    by_cases hx : r = x
    · subst hx
      rw [List.count_cons_self, Multiset.count_cons_self]
      omega
    · rw [List.count_cons_of_ne hx, Multiset.count_cons_of_ne (Ne.symm hx)]
      exact before
  · exact List.pairwise_cons.2 ⟨apart, own.apart⟩
  · intro r' hr'
    obtain rfl | hr' := List.mem_cons.1 hr'
    · exact ⟨base, size⟩
    · exact own.real r' hr'
  · have same : (v.code.retired.map fun r' => (v.code.allocate r).allocId r'.base) =
        v.code.retired.map fun r' => v.code.allocId r'.base :=
      List.map_congr_left fun r' hr' => kept r' (own.retired_mem hr')
    change v.code.retiredLog.count id = v.code.freedLog.count id +
      (v.code.retired.map fun r' => (v.code.allocate r).allocId r'.base).count id
    rw [same]
    exact own.logged id
  · obtain ⟨old, gone⟩ := own.freedOld id mem
    constructor
    · by_cases hb : id.1 = r.base
      · simp only [Code.allocate, hb, Function.update_self]
        rw [hb] at old
        omega
      · simpa [Code.allocate, hb] using old
    · intro r' hr'
      obtain rfl | hr' := List.mem_cons.1 hr'
      · intro eq
        rw [← eq] at old
        simp only [Code.allocId, Code.allocate, Function.update_self] at old
        omega
      · rw [kept r' hr']
        exact gone r' hr'

/-- The stub of an owner that is not the orphan table has no orphan at its address. -/
theorem orphanAt_objs (own : Own v) {h : InlineHook} (hh : h ∈ v.objs) :
    v.code.orphanAt h.trampoline.ptr = none := by
  have pos := Multiset.count_pos.2 (Multiset.mem_map_of_mem (·.trampoline.region) hh)
  refine own.orphanAt_eq_none (own.objs_mem hh) (own.parked_eq_zero ?_)
  unfold View.owners
  omega

theorem orphanAt_flight (own : Own v) {h : InlineHook} (hh : h ∈ v.flight) :
    v.code.orphanAt h.trampoline.ptr = none := by
  have pos := Multiset.count_pos.2 (Multiset.mem_map_of_mem (·.trampoline.region) hh)
  refine own.orphanAt_eq_none (own.flight_mem hh) (own.parked_eq_zero ?_)
  unfold View.owners
  omega

theorem orphansOk_dispose {c : Code} {h : InlineHook} (ok : c.OrphansOk)
    (real : h.trampoline.region.base ≠ 0 ∧ 0 < h.trampoline.region.size) :
    (h.dispose c).OrphansOk := by
  intro g r orphan
  obtain orphan | ⟨rfl, rfl⟩ := InlineHook.orphanAt_dispose orphan
  · exact ok orphan
  · exact ⟨rfl, real.1, real.2.ne'⟩

theorem queue (own : Own v) {d : InlineData} {rest : Multiset Region}
    (held : v.held = d.trampoline.region ::ₘ rest) :
    Own { v with pend := d ::ₘ v.pend, held := rest } := by
  refine own.of_same rfl rfl rfl (fun r => ?_) own.orphans own.logged
  simp only [View.owners, held, Multiset.map_cons, Multiset.count_cons]
  omega

theorem discard (own : Own v) {r : Region} {rest : Multiset Region} (held : v.held = r ::ₘ rest) :
    Own { v with code := v.code.retire r, held := rest } := by
  obtain ⟨base, size⟩ := own.real r (own.held_mem (held ▸ Multiset.mem_cons_self r rest))
  have same := Code.retire_sameMemory v.code r
  refine own.of_same same.allocs same.births same.freedLog (fun x => ?_) (fun {g x} orphan => ?_)
    (own.logged.retire r)
  · simp only [View.owners, held, Code.parked_retire base size.ne', Multiset.count_cons,
      eq_comm (a := x)]
    omega
  · refine own.orphans (g := g) ?_
    simpa [Code.orphanAt] using orphan

theorem giveUp (own : Own v) {d : InlineData} {rest : Multiset InlineData}
    (pending : v.pend = d ::ₘ rest) : Own { v with code := d.drop v.code, pend := rest } := by
  have mem : d ∈ v.pend := pending ▸ Multiset.mem_cons_self d rest
  obtain ⟨base, size⟩ := own.real _ (own.pend_mem mem)
  have drop : d.drop v.code = v.code.retire d.trampoline.region :=
    Code.dropTrampoline_of_pos base
  have same := Code.retire_sameMemory v.code d.trampoline.region
  rw [drop]
  refine own.of_same same.allocs same.births same.freedLog (fun x => ?_) (fun {g x} orphan => ?_)
    (own.logged.retire _)
  · simp only [View.owners, pending, Code.parked_retire base size.ne', Multiset.map_cons,
      Multiset.count_cons, eq_comm (a := x)]
    omega
  · refine own.orphans (g := g) ?_
    simpa [Code.orphanAt] using orphan

theorem publish (own : Own v) {h : InlineHook} {rest : Multiset InlineHook}
    (flight : v.flight = h ::ₘ rest) :
    Own { v with
      code := (publishInline v.code h).1
      flight := rest
      objs := h.announced ::ₘ v.objs } := by
  have same := publishInline_sameMemory v.code h
  refine own.of_same same.allocs same.births same.freedLog (fun x => ?_) (fun {g x} orphan => ?_)
    (logged_publishInline own.logged h)
  · simp only [View.owners, flight, parked_publishInline, Multiset.map_cons, Multiset.count_cons,
      InlineHook.announced]
    omega
  · refine own.orphans (g := g) ?_
    rwa [← orphanAt_publishInline v.code h]

theorem unravel (own : Own v) {h : InlineHook} {rest : Multiset InlineHook}
    (flight : v.flight = h ::ₘ rest) : Own { v with code := h.dispose v.code, flight := rest } := by
  have mem : h ∈ v.flight := flight ▸ Multiset.mem_cons_self h rest
  have real := own.real _ (own.flight_mem mem)
  have same := InlineHook.dispose_sameMemory v.code h
  refine own.of_same same.allocs same.births same.freedLog (fun x => ?_)
    (orphansOk_dispose own.orphans real) (InlineHook.logged_dispose own.logged h)
  simp only [View.owners, flight,
    InlineHook.parked_dispose real.1 real.2.ne' (own.orphanAt_flight mem), Multiset.map_cons,
    Multiset.count_cons, eq_comm (a := x)]
  omega

theorem detach (own : Own v) {h : InlineHook} {rest : Multiset InlineHook}
    (objs : v.objs = h ::ₘ rest) :
    Own { v with
      code := (h.release v.code).1.unregisterManagedGateway h.trampoline.ptr
      objs := h.inert ::ₘ rest } := by
  have same := InlineHook.release_sameMemory v.code h
  refine own.of_same same.allocs same.births same.freedLog (fun x => ?_)
    (fun {g x} orphan => own.orphans (InlineHook.orphanAt_release orphan))
    (InlineHook.logged_release own.logged h)
  have parked : ((h.release v.code).1.unregisterManagedGateway h.trampoline.ptr).parked x =
      v.code.parked x := InlineHook.parked_release own.orphans h x
  simp only [View.owners, objs, parked, Multiset.map_cons, Multiset.count_cons, InlineHook.inert]

theorem remove (own : Own v) {h : InlineHook} {rest : Multiset InlineHook}
    (objs : v.objs = h ::ₘ rest) :
    Own { v with code := h.dispose (h.release v.code).1, objs := rest } := by
  have mem : h ∈ v.objs := objs ▸ Multiset.mem_cons_self h rest
  have real := own.real _ (own.objs_mem mem)
  have same := (InlineHook.release_sameMemory v.code h).trans
    (InlineHook.dispose_sameMemory (h.release v.code).1 h)
  have kept : (h.release v.code).1.OrphansOk := fun {g x} orphan =>
    own.orphans (InlineHook.orphanAt_release orphan)
  have none : (h.release v.code).1.orphanAt h.trampoline.ptr = none := by
    cases orphan : (h.release v.code).1.orphanAt h.trampoline.ptr with
    | none => rfl
    | some r =>
      have := InlineHook.orphanAt_release orphan
      rw [own.orphanAt_objs mem] at this
      cases this
  refine own.of_same same.allocs same.births same.freedLog (fun x => ?_)
    (orphansOk_dispose kept real)
    (InlineHook.logged_dispose (InlineHook.logged_release own.logged h) h)
  simp only [View.owners, objs, InlineHook.parked_dispose real.1 real.2.ne' none,
    InlineHook.parked_release own.orphans, Multiset.map_cons, Multiset.count_cons,
    eq_comm (a := x)]
  omega

/-! ### A release pass -/

theorem beginPass (own : Own v) : Own { v with code := v.code.beginPass } := by
  unfold Code.beginPass
  split_ifs with idle
  · exact own
  · have none : v.code.pass = none := by
      cases h : v.code.pass with
      | none => rfl
      | some p => exact absurd (.inl (by simp [h])) idle
    have before : v.code.retired = v.code.quarantine := by
      simp [Code.retired, Code.passRegions, none]
    refine own.of_same rfl rfl rfl (fun x => ?_) own.orphans (fun id => ?_)
    · have parked : v.code.parked x =
          (if v.code.orphanAt x.base = some x then 1 else 0) + v.code.quarantine.count x := by
        rw [Code.parked, before]
      simp only [View.owners, parked]
      rfl
    · have := own.logged id
      rw [before] at this
      exact this

theorem settlePass (own : Own v) (addOk : ℕ → Bool) :
    Own { v with code := v.code.settlePass addOk } := by
  unfold Code.settlePass
  split
  · rename_i regions busy pass
    have before : v.code.retired = v.code.quarantine ++ busy := by
      simp [Code.retired, Code.passRegions, pass]
    refine own.of_same rfl rfl rfl (fun x => ?_) own.orphans (fun id => ?_)
    · have parked : v.code.parked x = (if v.code.orphanAt x.base = some x then 1 else 0) +
          (v.code.quarantine ++ busy ++ []).count x := by
        rw [Code.parked, before, List.append_nil]
      simp only [View.owners, parked]
      rfl
    · have := own.logged id
      rw [before, ← List.append_nil (v.code.quarantine ++ busy)] at this
      exact this
  · exact own

theorem freeRegions (own : Own v) {regions freed busy : List Region}
    (pass : v.code.pass = some ⟨regions, none⟩) (split : (freed ++ busy).Perm regions) :
    Own { v with code := v.code.releaseRegions regions freed busy } := by
  have before : v.code.retired = v.code.quarantine ++ regions := by
    simp [Code.retired, Code.passRegions, pass]
  have counts : ∀ x, regions.count x = freed.count x + busy.count x := fun x => by
    rw [← split.count_eq, List.count_append]
  have sub : ∀ r ∈ freed, r ∈ v.code.allocs := fun r hr => own.retired_mem <| by
    rw [before]
    exact List.mem_append_right _ (split.subset (List.mem_append_left _ hr))
  have once : ∀ x, freed.count x ≤ v.code.allocs.count x := fun x => by
    have := counts x
    rw [own.counted, View.owners, Code.parked, before, List.count_append]
    omega
  have gone : ∀ r ∈ freed, ∀ r' ∈ v.code.allocs.diff freed, r'.base ≠ r.base := by
    intro r hr r' hr' base
    have eq := own.eq_of_base (List.diff_subset _ _ hr') (sub r hr) base
    subst eq
    have pos := List.count_pos_iff.2 hr'
    rw [List.count_diff] at pos
    have := List.count_pos_iff.2 hr
    have := List.nodup_iff_count_le_one.1 own.nodup r'
    omega
  have ids : (freed.map fun r => v.code.allocId r.base).Nodup := by
    refine List.Nodup.map_on (fun r hr r' hr' eq => ?_) ?_
    · exact own.eq_of_base (sub r hr) (sub r' hr') (congrArg Prod.fst eq)
    · refine List.nodup_iff_count_le_one.2 fun x => ?_
      exact (once x).trans (List.nodup_iff_count_le_one.1 own.nodup x)
  refine ⟨fun x => ?_, ?_, fun r hr => ?_, own.orphans, fun id => ?_, ?_, fun id mem => ?_⟩
  · have allocs := own.counted x
    have parked : v.code.parked x = (if v.code.orphanAt x.base = some x then 1 else 0) +
        (v.code.quarantine.count x + (freed.count x + busy.count x)) := by
      rw [Code.parked, before, List.count_append, counts]
    have after : (v.code.releaseRegions regions freed busy).parked x =
        (if v.code.orphanAt x.base = some x then 1 else 0) +
        (v.code.quarantine.count x + busy.count x) := by
      rw [← List.count_append]
      rfl
    have left : (v.code.releaseRegions regions freed busy).allocs = v.code.allocs.diff freed := rfl
    simp only [View.owners, parked] at allocs
    simp only [View.owners, after, left, List.count_diff, allocs]
    omega
  · exact own.apart.sublist (List.diff_sublist _ _)
  · exact own.real r (List.diff_subset _ _ hr)
  · have := own.logged id
    rw [before, List.map_append, List.count_append,
      ← (split.map fun r => v.code.allocId r.base).count_eq, List.map_append,
      List.count_append] at this
    change v.code.retiredLog.count id =
      ((freed.map fun r => v.code.allocId r.base) ++ v.code.freedLog).count id +
        ((v.code.quarantine ++ busy).map fun r => v.code.allocId r.base).count id
    rw [List.count_append, List.map_append, List.count_append]
    omega
  · refine List.nodup_append.2 ⟨ids, own.freedOnce, fun id mem id' mem' eq => ?_⟩
    subst eq
    obtain ⟨r, hr, rfl⟩ := List.mem_map.1 mem
    exact (own.freedOld _ mem').2 r (sub r hr) rfl
  · obtain mem | mem := List.mem_append.1 mem
    · obtain ⟨r, hr, rfl⟩ := List.mem_map.1 mem
      exact ⟨le_rfl, fun r' hr' eq => gone r hr r' hr' (congrArg Prod.fst eq)⟩
    · obtain ⟨old, other⟩ := own.freedOld id mem
      exact ⟨old, fun r hr => other r (List.diff_subset _ _ hr)⟩

/-- Every move keeps every stub owned once. -/
theorem move {R : Rules} {foreign : List Region} (m : Move R foreign v v') (own : Own v) : Own v' := by
  cases m with
  | allocate free => exact own.allocate free
  | fill | unwind | arm | handler | disarm | scar =>
    exact own.of_same rfl rfl rfl (fun _ => rfl) own.orphans own.logged
  | queue _ held => exact own.queue held
  | discard held => exact own.discard held
  | giveUp pending => exact own.giveUp pending
  | patch pending =>
    refine own.of_same rfl rfl rfl (fun x => ?_) own.orphans own.logged
    simp only [View.owners, pending, Multiset.map_cons, Multiset.count_cons, InlineData.install]
    change _ + v.code.parked x = _
    omega
  | publish flight => exact own.publish flight
  | undo flight =>
    refine own.of_same rfl rfl rfl (fun x => ?_) own.orphans own.logged
    simp only [View.owners, flight, Multiset.map_cons, InlineHook.disabled]
    rfl
  | unravel flight => exact own.unravel flight
  | strandFlight flight =>
    refine own.of_same rfl rfl rfl (fun x => ?_) own.orphans own.logged
    simp only [View.owners, flight, Multiset.map_cons, Multiset.count_cons]
    omega
  | restore objs =>
    refine own.of_same rfl rfl rfl (fun x => ?_) own.orphans own.logged
    simp only [View.owners, objs, Multiset.map_cons, InlineHook.disabled]
    rfl
  | enable objs =>
    refine own.of_same rfl rfl rfl (fun x => ?_) own.orphans own.logged
    simp only [View.owners, objs, Multiset.map_cons, InlineHook.reenabled]
    rfl
  | detach objs => exact own.detach objs
  | remove objs => exact own.remove objs
  | strand objs =>
    refine own.of_same rfl rfl rfl (fun x => ?_) own.orphans own.logged
    simp only [View.owners, objs, Multiset.map_cons, Multiset.count_cons]
    omega
  | beginPass => exact own.beginPass
  | freeRegions pass split => exact own.freeRegions pass split
  | settlePass => exact own.settlePass _

end Own

end NeoHook
