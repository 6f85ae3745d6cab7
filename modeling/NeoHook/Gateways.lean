import NeoHook.Ranges

/-!
# Gateways and their dependents

The table of chained gateways counts the published hooks on each gateway, a gateway in it has an
owner unless its trampoline is an orphan, and every gateway that is offered for chaining has one.
-/

namespace NeoHook

open ByteMap

namespace View

/-- The published hooks chained on a gateway. -/
def dependents (v : View) (g : ℕ) : ℕ :=
  v.installed.countP fun h => h.targetKind = .managedGateway ∧ h.target = g

/-- The gateway belongs to a hook that the program holds or that was left in place. -/
def Kept (v : View) (g : ℕ) : Prop := ∃ o ∈ v.objs + v.stranded, o.trampoline.ptr = g

end View

structure Gate (v : View) : Prop where
  free : ∀ {g}, v.code.chainedGateways g = none → v.dependents g = 0
  chained : ∀ {g e}, v.code.chainedGateways g = some e →
    e.dependents = v.dependents g ∧ 0 < v.dependents g
  owner : ∀ {g e}, v.code.chainedGateways g = some e → e.orphan = none → v.Kept g
  managed : ∀ {g}, g ∈ v.code.managedGateways → v.Kept g
  flightOwner : ∀ h ∈ v.flight, h.targetKind = .managedGateway → v.Kept h.target

namespace Gate

variable {v v' : View} {R : Rules} {foreign : List Region}

theorem of_same (gate : Gate v) (chained : v'.code.chainedGateways = v.code.chainedGateways)
    (managed : v'.code.managedGateways ⊆ v.code.managedGateways)
    (dependents : ∀ g, v'.dependents g = v.dependents g) (kept : ∀ {g}, v.Kept g → v'.Kept g)
    (flight : ∀ h ∈ v'.flight, h.targetKind = .managedGateway →
      ∃ h' ∈ v.flight, h'.targetKind = .managedGateway ∧ h'.target = h.target) : Gate v' := by
  refine ⟨fun {g} none => ?_, fun {g e} some => ?_, fun {g e} some orphan => ?_, fun {g} mem => ?_,
    fun h hh kind => ?_⟩
  · rw [dependents]
    exact gate.free (chained ▸ none)
  · rw [dependents]
    exact gate.chained (chained ▸ some)
  · exact kept (gate.owner (chained ▸ some) orphan)
  · exact kept (gate.managed (managed mem))
  · obtain ⟨h', hh', kind', target⟩ := flight h hh kind
    rw [← target]
    exact kept (gate.flightOwner h' hh' kind')

/-- An owner whose stub stays the same still keeps its gateway. -/
theorem kept_replace {h h' : InlineHook} {rest : Multiset InlineHook} (objs : v.objs = h ::ₘ rest)
    (objs' : v'.objs = h' ::ₘ rest) (stranded : v'.stranded = v.stranded)
    (stub : h'.trampoline = h.trampoline) {g : ℕ} (kept : v.Kept g) : v'.Kept g := by
  obtain ⟨o, mem, rfl⟩ := kept
  rw [objs, Multiset.cons_add] at mem
  unfold View.Kept
  rw [objs', stranded, Multiset.cons_add]
  obtain rfl | mem := Multiset.mem_cons.1 mem
  · exact ⟨h', Multiset.mem_cons_self _ _, by rw [stub]⟩
  · exact ⟨o, Multiset.mem_cons_of_mem mem, rfl⟩

theorem dependents_cons {h : InlineHook} {s : Multiset InlineHook} {v v' : View}
    (before : v.installed = h ::ₘ s) (after : v'.installed = s) (g : ℕ) :
    v.dependents g =
      v'.dependents g + if h.targetKind = .managedGateway ∧ h.target = g then 1 else 0 := by
  unfold View.dependents
  rw [before, after, Multiset.countP_cons]

theorem replace (gate : Gate v) {h h' : InlineHook} {rest : Multiset InlineHook} {c : Code}
    (objs : v.objs = h ::ₘ rest) (target : h'.target = h.target)
    (kind : h'.targetKind = h.targetKind) (pub : h'.published = h.published)
    (stub : h'.trampoline = h.trampoline)
    (chained : c.chainedGateways = v.code.chainedGateways)
    (managed : c.managedGateways = v.code.managedGateways) :
    Gate { v with code := c, objs := h' ::ₘ rest } := by
  refine gate.of_same chained (by rw [managed]) (fun g => ?_)
    (fun kept => kept_replace objs (by rfl) (by rfl) stub kept) fun x hx kindX => ⟨x, hx, kindX, rfl⟩
  have before := View.installed_objs objs
  have after : ({ v with code := c, objs := h' ::ₘ rest } : View).installed =
      publishedOf (h' ::ₘ (rest + v.stranded)) := View.installed_objs rfl
  unfold View.dependents
  rw [before, after]
  cases on : h.published with
  | true =>
    rw [publishedOf_cons_pos on, publishedOf_cons_pos (pub.trans on), Multiset.countP_cons,
      Multiset.countP_cons, target, kind]
  | false => rw [publishedOf_cons_neg on, publishedOf_cons_neg (pub.trans on)]

/-- A hook in flight has nothing chained on its gateway. -/
theorem chained_flight (gate : Gate v) (own : Own v) {h : InlineHook} {rest : Multiset InlineHook}
    (flight : v.flight = h ::ₘ rest) : v.code.chainedGateways h.trampoline.ptr = none := by
  have mem : h ∈ v.flight := flight ▸ Multiset.mem_cons_self _ _
  cases entry : v.code.chainedGateways h.trampoline.ptr with
  | none => rfl
  | some e =>
    have orphan : e.orphan = none := by
      have := own.orphanAt_flight mem
      simpa [Code.orphanAt, entry] using this
    obtain ⟨o, kept, same⟩ := gate.owner entry orphan
    have region : o.trampoline.region ∈ v.code.allocs := by
      obtain kept | kept := Multiset.mem_add.1 kept
      · exact own.objs_mem kept
      · exact own.stranded_mem kept
    have eq : o.trampoline.region = h.trampoline.region :=
      own.eq_of_base region (own.flight_mem mem) same
    have two := own.owners_le_one h.trampoline.region
    have inFlight := Multiset.count_pos.2 (Multiset.mem_map_of_mem (·.trampoline.region) mem)
    have inKept : 0 < (v.objs.map (·.trampoline.region)).count h.trampoline.region +
        (v.stranded.map (·.trampoline.region)).count h.trampoline.region := by
      rw [← Multiset.count_add, ← Multiset.map_add, Multiset.count_pos, ← eq]
      exact Multiset.mem_map_of_mem (·.trampoline.region) kept
    unfold View.owners at two
    omega

theorem publish (gate : Gate v) {h : InlineHook} {rest : Multiset InlineHook}
    (flight : v.flight = h ::ₘ rest) :
    Gate { v with
      code := (publishInline v.code h).1
      flight := rest
      objs := h.announced ::ₘ v.objs } := by
  have mem : h ∈ v.flight := flight ▸ Multiset.mem_cons_self _ _
  have installed : ({ v with
      code := (publishInline v.code h).1
      flight := rest
      objs := h.announced ::ₘ v.objs } : View).installed = h.announced ::ₘ v.installed := by
    rw [View.installed_objs rfl]
    exact publishedOf_cons_pos rfl
  have grown : ∀ {g}, v.Kept g → ({ v with
      code := (publishInline v.code h).1
      flight := rest
      objs := h.announced ::ₘ v.objs } : View).Kept g := fun {g} ⟨o, kept, same⟩ => by
    refine ⟨o, ?_, same⟩
    simp only [Multiset.cons_add]
    exact Multiset.mem_cons_of_mem kept
  have new : ({ v with
      code := (publishInline v.code h).1
      flight := rest
      objs := h.announced ::ₘ v.objs } : View).Kept h.trampoline.ptr :=
    ⟨h.announced, Multiset.mem_add.2 (.inl (Multiset.mem_cons_self _ _)), rfl⟩
  have dependents := dependents_cons installed (rfl : v.installed = v.installed)
  have inFlight : ∀ x ∈ rest, x.targetKind = .managedGateway → ({ v with
      code := (publishInline v.code h).1
      flight := rest
      objs := h.announced ::ₘ v.objs } : View).Kept x.target := fun x hx kind =>
    grown (gate.flightOwner x (flight ▸ Multiset.mem_cons_of_mem hx) kind)
  cases kind : h.targetKind with
  | normal =>
    obtain ⟨managed, chained⟩ := publishInline_normal (c := v.code) kind
    have other : ∀ g, ¬ (h.announced.targetKind = .managedGateway ∧ h.announced.target = g) := by
      simp [InlineHook.announced, kind]
    refine ⟨fun {g} none => ?_, fun {g e} some => ?_, fun {g e} some orphan => ?_,
      fun {g} hg => ?_, inFlight⟩
    · rw [dependents, if_neg (other g)]
      exact gate.free (chained ▸ none)
    · rw [dependents, if_neg (other g)]
      exact gate.chained (chained ▸ some)
    · exact grown (gate.owner (chained ▸ some) orphan)
    · rw [managed, Finset.mem_insert] at hg
      obtain rfl | hg := hg
      · exact new
      · exact grown (gate.managed hg)
  | managedGateway =>
    obtain ⟨managed, chained⟩ := publishInline_gateway (c := v.code) kind
    have counts : ∀ g, g ≠ h.target →
        ¬ (h.announced.targetKind = .managedGateway ∧ h.announced.target = g) :=
      fun g ne eq => ne eq.2.symm
    refine ⟨fun {g} none => ?_, fun {g e} some => ?_, fun {g e} some orphan => ?_,
      fun {g} hg => ?_, inFlight⟩
    · rw [chained] at none
      by_cases hg : g = h.target
      · simp [hg] at none
      · rw [Function.update_of_ne hg] at none
        rw [dependents, if_neg (counts g hg)]
        exact gate.free none
    · rw [chained] at some
      by_cases hg : g = h.target
      · subst hg
        rw [Function.update_self, Option.some.injEq] at some
        subst some
        rw [dependents, if_pos ⟨kind, rfl⟩]
        cases entry : v.code.chainedGateways h.target with
        | none => simp [gate.free entry]
        | some e => simp [(gate.chained entry).1]
      · rw [Function.update_of_ne hg] at some
        rw [dependents, if_neg (counts g hg)]
        exact gate.chained some
    · rw [chained] at some
      by_cases hg : g = h.target
      · subst hg
        exact grown (gate.flightOwner h mem kind)
      · rw [Function.update_of_ne hg] at some
        exact grown (gate.owner some orphan)
    · rw [managed, Finset.mem_insert] at hg
      obtain rfl | hg := hg
      · exact new
      · exact grown (gate.managed (Finset.mem_of_mem_erase hg))

/-- Withdrawing a hook leaves the tables right for the hooks that stay. -/
theorem release (gate : Gate v) {h : InlineHook} {rest : Multiset InlineHook}
    (objs : v.objs = h ::ₘ rest) {left : View}
    (installed : left.installed = publishedOf (rest + v.stranded)) :
    (∀ {g}, (h.release v.code).1.chainedGateways g = none → left.dependents g = 0) ∧
    (∀ {g e}, (h.release v.code).1.chainedGateways g = some e →
      e.dependents = left.dependents g ∧ 0 < left.dependents g) ∧
    (∀ {g e}, (h.release v.code).1.chainedGateways g = some e → e.orphan = none → v.Kept g) ∧
    ∀ {g}, g ∈ (h.release v.code).1.managedGateways → v.Kept g := by
  have before := View.installed_objs objs
  cases pub : h.published with
  | false =>
    rw [InlineHook.release_unpublished pub]
    rw [publishedOf_cons_neg pub] at before
    have same : ∀ g, left.dependents g = v.dependents g := fun g => by
      rw [View.dependents, View.dependents, installed, before]
    exact ⟨fun none => same _ ▸ gate.free none, fun some => same _ ▸ gate.chained some, gate.owner,
      gate.managed⟩
  | true =>
    rw [publishedOf_cons_pos pub] at before
    have counts := dependents_cons before installed
    cases kind : h.targetKind with
    | normal =>
      rw [InlineHook.release_normal pub kind]
      have same : ∀ g, left.dependents g = v.dependents g := fun g => by
        rw [counts, if_neg (by simp [kind]), Nat.add_zero]
      exact ⟨fun none => same _ ▸ gate.free none, fun some => same _ ▸ gate.chained some,
        gate.owner, gate.managed⟩
    | managedGateway =>
      rw [InlineHook.release_gateway pub kind]
      have self : v.dependents h.target = left.dependents h.target + 1 := by
        rw [counts, if_pos ⟨kind, rfl⟩]
      have other : ∀ {g}, g ≠ h.target → left.dependents g = v.dependents g := fun {g} ne => by
        rw [counts, if_neg (fun eq => ne eq.2.symm), Nat.add_zero]
      obtain ⟨e, entry⟩ : ∃ e, v.code.chainedGateways h.target = some e := by
        cases entry : v.code.chainedGateways h.target with
        | none =>
          have := gate.free entry
          omega
        | some e => exact ⟨e, rfl⟩
      have entry' : (v.code.unregisterLivePatch h.target).chainedGateways h.target = some e := entry
      rw [InlineHook.releaseGateway_chained entry', InlineHook.releaseGateway_managed entry']
      have count := (gate.chained entry).1
      refine ⟨fun {g} none => ?_, fun {g e'} some => ?_, fun {g e'} some orphan => ?_,
        fun {g} mem => ?_⟩
      · by_cases hg : g = h.target
        · subst hg
          rw [Function.update_self] at none
          split_ifs at none
          omega
        · rw [Function.update_of_ne hg] at none
          rw [other hg]
          exact gate.free none
      · by_cases hg : g = h.target
        · subst hg
          rw [Function.update_self] at some
          split_ifs at some with left
          simp only [Option.some.injEq] at some
          subst some
          dsimp only
          omega
        · rw [Function.update_of_ne hg] at some
          rw [other hg]
          exact gate.chained some
      · by_cases hg : g = h.target
        · subst hg
          rw [Function.update_self] at some
          split_ifs at some
          simp only [Option.some.injEq] at some
          subst some
          exact gate.owner entry orphan
        · rw [Function.update_of_ne hg] at some
          exact gate.owner some orphan
      · split_ifs at mem with orphan
        · obtain rfl | mem := Finset.mem_insert.1 mem
          · exact gate.owner entry orphan
          · exact gate.managed mem
        · exact gate.managed mem

theorem detach (gate : Gate v) {h : InlineHook} {rest : Multiset InlineHook}
    (objs : v.objs = h ::ₘ rest) (quiet : v.flight = 0) :
    Gate { v with
      code := (h.release v.code).1.unregisterManagedGateway h.trampoline.ptr
      objs := h.inert ::ₘ rest } := by
  have installed : ({ v with
      code := (h.release v.code).1.unregisterManagedGateway h.trampoline.ptr
      objs := h.inert ::ₘ rest } : View).installed = publishedOf (rest + v.stranded) := by
    rw [View.installed_objs rfl]
    exact publishedOf_cons_neg rfl
  have kept : ∀ {g}, v.Kept g → ({ v with
      code := (h.release v.code).1.unregisterManagedGateway h.trampoline.ptr
      objs := h.inert ::ₘ rest } : View).Kept g := fun kept =>
    kept_replace objs (by rfl) (by rfl) (by rfl) kept
  obtain ⟨free, chained, owner, managed⟩ := gate.release objs installed
  exact ⟨free, chained, fun some orphan => kept (owner some orphan),
    fun mem => kept (managed (Finset.mem_of_mem_erase mem)), by simp [quiet]⟩

theorem remove (gate : Gate v) {h : InlineHook} {rest : Multiset InlineHook}
    (objs : v.objs = h ::ₘ rest) (quiet : v.flight = 0) :
    Gate { v with code := h.dispose (h.release v.code).1, objs := rest } := by
  have installed : ({ v with code := h.dispose (h.release v.code).1, objs := rest } :
      View).installed = publishedOf (rest + v.stranded) := rfl
  have kept : ∀ {g}, g ≠ h.trampoline.ptr → v.Kept g →
      ({ v with code := h.dispose (h.release v.code).1, objs := rest } : View).Kept g := by
    rintro g ne ⟨o, mem, same⟩
    rw [objs, Multiset.cons_add] at mem
    obtain rfl | mem := Multiset.mem_cons.1 mem
    · exact absurd same.symm ne
    · exact ⟨o, mem, same⟩
  obtain ⟨free, chained, owner, managed⟩ := gate.release objs installed
  obtain ⟨e, entry, pos⟩ | none := InlineHook.dispose_cases (h.release v.code).1 h
  · have eq := InlineHook.dispose_chained entry pos
    have table : (h.dispose (h.release v.code).1).chainedGateways = Function.update
        (h.release v.code).1.chainedGateways h.trampoline.ptr
        (some { e with orphan := some h.trampoline.region }) := by
      rw [eq]
      rfl
    refine ⟨fun {g} none => ?_, fun {g e'} some => ?_, fun {g e'} some orphan => ?_,
      fun {g} mem => ?_, by simp [quiet]⟩
    · rw [table] at none
      by_cases hg : g = h.trampoline.ptr
      · simp [hg] at none
      · rw [Function.update_of_ne hg] at none
        exact free none
    · rw [table] at some
      by_cases hg : g = h.trampoline.ptr
      · subst hg
        rw [Function.update_self, Option.some.injEq] at some
        subst some
        obtain ⟨count, more⟩ := chained entry
        exact ⟨count, more⟩
      · rw [Function.update_of_ne hg] at some
        exact chained some
    · rw [table] at some
      by_cases hg : g = h.trampoline.ptr
      · subst hg
        rw [Function.update_self, Option.some.injEq] at some
        subst some
        cases orphan
      · rw [Function.update_of_ne hg] at some
        exact kept hg (owner some orphan)
    · rw [InlineHook.dispose_managed] at mem
      exact kept (Finset.ne_of_mem_erase mem) (managed (Finset.mem_of_mem_erase mem))
  · have table := InlineHook.dispose_chained_free none
    refine ⟨fun {g} none => ?_, fun {g e'} some => ?_, fun {g e'} some orphan => ?_,
      fun {g} mem => ?_, by simp [quiet]⟩
    · rw [table] at none
      exact free none
    · rw [table] at some
      exact chained some
    · rw [table] at some
      refine kept ?_ (owner some orphan)
      rintro rfl
      have := none e' some
      have := chained some
      omega
    · rw [InlineHook.dispose_managed] at mem
      exact kept (Finset.ne_of_mem_erase mem) (managed (Finset.mem_of_mem_erase mem))

theorem beginPass_same (c : Code) : c.beginPass.chainedGateways = c.chainedGateways ∧
    c.beginPass.managedGateways = c.managedGateways := by
  unfold Code.beginPass
  split_ifs <;> exact ⟨rfl, rfl⟩

theorem settlePass_same (c : Code) (addOk : ℕ → Bool) :
    (c.settlePass addOk).chainedGateways = c.chainedGateways ∧
      (c.settlePass addOk).managedGateways = c.managedGateways := by
  unfold Code.settlePass
  split <;> exact ⟨rfl, rfl⟩

theorem move (m : Move R foreign v v') (gate : Gate v) (own : Own v) (shapes : Shapes v) :
    Gate v' := by
  have sameFlight : ∀ h ∈ v.flight, h.targetKind = .managedGateway →
      ∃ h' ∈ v.flight, h'.targetKind = .managedGateway ∧ h'.target = h.target :=
    fun h hh kind => ⟨h, hh, kind, rfl⟩
  cases m with
  | allocate | fill | unwind | queue | arm | handler | disarm | scar | freeRegions =>
    exact gate.of_same rfl (Finset.Subset.refl _) (fun _ => rfl) id sameFlight
  | @discard r rest held =>
    exact gate.of_same (Code.retire_chainedGateways _ r) (by simp) (fun _ => rfl) id sameFlight
  | @giveUp d rest pending =>
    exact gate.of_same (Code.dropTrampoline_chainedGateways _ d.trampoline)
      (by simp [InlineData.drop]) (fun _ => rfl) id sameFlight
  | @patch d rest bytes _ _ _ _ _ owned =>
    refine ⟨gate.free, gate.chained, gate.owner, gate.managed, fun h hh kind => ?_⟩
    obtain rfl | hh := Multiset.mem_cons.1 hh
    · exact gate.managed (owned kind)
    · exact gate.flightOwner h hh kind
  | publish flight => exact gate.publish flight
  | @undo h rest flight =>
    refine gate.of_same rfl (Finset.Subset.refl _) (fun _ => rfl) id fun x hx kind => ?_
    obtain rfl | hx := Multiset.mem_cons.1 hx
    · exact ⟨h, flight ▸ Multiset.mem_cons_self _ _, kind, rfl⟩
    · exact ⟨x, flight ▸ Multiset.mem_cons_of_mem hx, kind, rfl⟩
  | @unravel h rest flight =>
    have free := gate.chained_flight own flight
    refine gate.of_same (InlineHook.dispose_chained_free (by simp [free])) ?_ (fun _ => rfl) id
      fun x hx kind => ⟨x, flight ▸ Multiset.mem_cons_of_mem hx, kind, rfl⟩
    simp only [InlineHook.dispose_managed]
    exact Finset.erase_subset _ _
  | @strandFlight h rest flight =>
    have pub := (shapes.flight h (flight ▸ Multiset.mem_cons_self _ _)).2.2
    refine gate.of_same rfl (Finset.Subset.refl _) (fun g => ?_) (fun {g} ⟨o, mem, same⟩ => ?_)
      fun x hx kind => ⟨x, flight ▸ Multiset.mem_cons_of_mem hx, kind, rfl⟩
    · change (publishedOf (v.objs + h ::ₘ v.stranded)).countP _ = _
      rw [Multiset.add_cons, publishedOf_cons_neg pub]
      rfl
    · refine ⟨o, ?_, same⟩
      change o ∈ v.objs + h ::ₘ v.stranded
      rw [Multiset.add_cons]
      exact Multiset.mem_cons_of_mem mem
  | restore objs => exact gate.replace objs rfl rfl rfl rfl rfl rfl
  | enable objs => exact gate.replace objs rfl rfl rfl rfl rfl rfl
  | detach objs quiet => exact gate.detach objs quiet
  | remove objs quiet => exact gate.remove objs quiet
  | @strand h rest objs =>
    have sum : rest + h ::ₘ v.stranded = v.objs + v.stranded := by
      rw [objs, Multiset.add_cons, Multiset.cons_add]
    refine gate.of_same rfl (Finset.Subset.refl _) (fun g => ?_) (fun {g} ⟨o, mem, same⟩ => ?_)
      sameFlight
    · change (publishedOf (rest + h ::ₘ v.stranded)).countP _ = _
      rw [sum]
      rfl
    · exact ⟨o, sum ▸ mem, same⟩
  | beginPass =>
    obtain ⟨chained, managed⟩ := beginPass_same v.code
    exact gate.of_same chained (by simp [managed]) (fun _ => rfl) id sameFlight
  | settlePass =>
    obtain ⟨chained, managed⟩ := settlePass_same v.code _
    exact gate.of_same chained (by simp [managed]) (fun _ => rfl) id sameFlight

end Gate

/-- What holds of every view of a run, whatever the rules. -/
structure Base (v : View) : Prop where
  own : Own v
  shapes : Shapes v
  dis : Dis v
  gate : Gate v

theorem Base.move {v v' : View} {R : Rules} {foreign : List Region} (m : Move R foreign v v')
    (base : Base v) : Base v' :=
  ⟨Own.move m base.own, Shapes.move m base.shapes, Dis.move m base.shapes base.dis,
    Gate.move m base.gate base.own base.shapes⟩

theorem Base.path {v v' : View} {R : Rules} {foreign : List Region} (path : Path R foreign v v')
    (base : Base v) : Base v' :=
  Path.invariant (fun m base => base.move m) path base

/-- A gateway with an owner is a stub. -/
theorem Base.kept_mem {v : View} (base : Base v) {g : ℕ} (kept : v.Kept g) :
    ∃ r ∈ v.code.allocs, r.base = g := by
  obtain ⟨o, mem, rfl⟩ := kept
  obtain mem | mem := Multiset.mem_add.1 mem
  · exact ⟨_, base.own.objs_mem mem, rfl⟩
  · exact ⟨_, base.own.stranded_mem mem, rfl⟩

end NeoHook
