import NeoHook.CodeBytes

/-!
# Gateways that are offered for chaining

As long as no hook is detached while another one is chained on its gateway, the managed gateways are
those of the published hooks that nothing is chained on.  A detached hook keeps its trampoline but is
not an orphan, so the hook chained on it would offer the gateway again when it is withdrawn.
-/

namespace NeoHook

open ByteMap

/-- The gateway belongs to a published hook that the program holds. -/
def View.Live (v : View) (g : ℕ) : Prop :=
  ∃ o ∈ v.objs, o.published = true ∧ o.trampoline.ptr = g

/-- The rules of runs that restore what they take and detach no hook that another one is chained
on. -/
def Rules.chaining (foreign : List Region) : Rules :=
  { Rules.restoring foreign with detach := fun c g => c.chainedGateways g = none }

theorem Move.restoring {foreign : List Region} {v v' : View}
    (m : Move (Rules.chaining foreign) foreign v v') : Move (Rules.restoring foreign) foreign v v' := by
  cases m with
  | allocate free quiet birth write => exact .allocate free quiet birth write
  | fill held lo hi write => exact .fill held lo hi write
  | unwind held => exact .unwind held
  | queue quiet held queued rule => exact .queue quiet held queued rule
  | discard held => exact .discard held
  | giveUp pending => exact .giveUp pending
  | patch pending target encoded clear apart owned =>
    exact .patch pending target encoded clear apart owned
  | publish flight => exact .publish flight
  | undo flight => exact .undo flight
  | unravel flight off => exact .unravel flight off
  | strandFlight flight rule => exact .strandFlight flight rule
  | restore objs active => exact .restore objs active
  | enable objs active off => exact .enable objs active off
  | detach objs quiet off rule => exact .detach objs quiet off trivial
  | remove objs quiet off => exact .remove objs quiet off
  | strand objs active rule => exact .strand objs active rule
  | arm quiet nonnull clear slot_eq rule => exact .arm quiet nonnull clear slot_eq rule
  | handler same => exact .handler same
  | disarm traps => exact .disarm traps
  | scar traps rule => exact .scar traps rule
  | beginPass => exact .beginPass
  | freeRegions pass split => exact .freeRegions pass split
  | settlePass rule => exact .settlePass rule

/-! ### One hook on a gateway -/

/-- At most one published hook is chained on a gateway. -/
theorem Dis.dependents_le_one {v : View} (dis : Dis v) (g : ℕ) : v.dependents g ≤ 1 := by
  by_contra many
  obtain ⟨h, mem, kind, target⟩ :=
    Multiset.countP_pos.1 (show 0 < v.dependents g by omega)
  obtain ⟨rest, installed⟩ := Multiset.exists_cons_of_mem mem
  have pairs := dis.distinct
  rw [installed, Bag.pairwise_cons] at pairs
  have others : rest.countP (fun x => x.targetKind = .managedGateway ∧ x.target = g) = 0 := by
    rw [Multiset.countP_eq_zero]
    rintro x there ⟨-, same⟩
    exact pairs.1 x there (target.trans same.symm)
  unfold View.dependents at many
  rw [installed, Multiset.countP_cons, others] at many
  split_ifs at many <;> omega

/-- Two hooks of the program do not share a trampoline. -/
theorem Own.ptr_ne {v : View} (own : Own v) {h o : InlineHook} {rest : Multiset InlineHook}
    (objs : v.objs = h ::ₘ rest) (mem : o ∈ rest) : o.trampoline.ptr ≠ h.trampoline.ptr := by
  intro same
  have there : o ∈ v.objs := objs ▸ Multiset.mem_cons_of_mem mem
  have eq : o.trampoline.region = h.trampoline.region :=
    own.eq_of_base (own.objs_mem there) (own.objs_mem (objs ▸ Multiset.mem_cons_self _ _)) same
  have once := own.owners_le_one h.trampoline.region
  have count := Multiset.count_pos.2 (Multiset.mem_map_of_mem (·.trampoline.region) mem)
  rw [eq] at count
  unfold View.owners at once
  rw [objs, Multiset.map_cons, Multiset.count_cons_self] at once
  omega

/-- A hook in flight has a trampoline of its own. -/
theorem Own.not_live_flight {v : View} (own : Own v) {h : InlineHook} (mem : h ∈ v.flight) :
    ¬ v.Live h.trampoline.ptr := by
  rintro ⟨o, there, -, same⟩
  have eq : o.trampoline.region = h.trampoline.region :=
    own.eq_of_base (own.objs_mem there) (own.flight_mem mem) same
  have once := own.owners_le_one h.trampoline.region
  have inObjs := Multiset.count_pos.2 (Multiset.mem_map_of_mem (·.trampoline.region) there)
  have inFlight := Multiset.count_pos.2 (Multiset.mem_map_of_mem (·.trampoline.region) mem)
  rw [eq] at inObjs
  unfold View.owners at once
  omega

/-! ### The invariant -/

/-- The managed gateways are those of the published hooks that nothing is chained on. -/
structure Offered (v : View) : Prop where
  owner : ∀ {g e}, v.code.chainedGateways g = some e → e.orphan = none → v.Live g
  managed : ∀ {g}, g ∈ v.code.managedGateways ↔ v.Live g ∧ v.code.chainedGateways g = none
  flightOwner : ∀ h ∈ v.flight, h.targetKind = .managedGateway → v.Live h.target

namespace Offered

variable {v v' : View} {foreign : List Region}

theorem of_same (offered : Offered v) (chained : v'.code.chainedGateways = v.code.chainedGateways)
    (managed : v'.code.managedGateways = v.code.managedGateways)
    (live : ∀ g, v'.Live g ↔ v.Live g)
    (flight : ∀ h ∈ v'.flight, h.targetKind = .managedGateway →
      ∃ h' ∈ v.flight, h'.targetKind = .managedGateway ∧ h'.target = h.target) : Offered v' := by
  refine ⟨fun {g e} some orphan => ?_, fun {g} => ?_, fun h mem kind => ?_⟩
  · exact (live g).2 (offered.owner (chained ▸ some) orphan)
  · rw [managed, chained, live]
    exact offered.managed
  · obtain ⟨h', mem', kind', target⟩ := flight h mem kind
    rw [live, ← target]
    exact offered.flightOwner h' mem' kind'

theorem live_replace {h h' : InlineHook} {rest : Multiset InlineHook} (objs : v.objs = h ::ₘ rest)
    (objs' : v'.objs = h' ::ₘ rest) (published : h'.published = h.published)
    (stub : h'.trampoline = h.trampoline) (g : ℕ) : v'.Live g ↔ v.Live g := by
  unfold View.Live
  simp only [objs, objs', Multiset.mem_cons, exists_eq_or_imp, published, stub]

/-- Without the hook, its gateway is no longer live. -/
theorem live_without (own : Own v) {h : InlineHook} {rest : Multiset InlineHook}
    (objs : v.objs = h ::ₘ rest)
    (objs' : ∀ o, (o ∈ v'.objs ∧ o.published = true) ↔ (o ∈ rest ∧ o.published = true)) (g : ℕ) :
    v'.Live g ↔ v.Live g ∧ g ≠ h.trampoline.ptr := by
  constructor
  · rintro ⟨o, mem, published, rfl⟩
    have there := ((objs' o).1 ⟨mem, published⟩).1
    exact ⟨⟨o, objs ▸ Multiset.mem_cons_of_mem there, published, rfl⟩, own.ptr_ne objs there⟩
  · rintro ⟨⟨o, mem, published, rfl⟩, ne⟩
    rw [objs] at mem
    obtain rfl | mem := Multiset.mem_cons.1 mem
    · exact absurd rfl ne
    · obtain ⟨there, on⟩ := (objs' o).2 ⟨mem, published⟩
      exact ⟨o, there, on, rfl⟩

theorem publish (offered : Offered v) (base : Base v) {h : InlineHook} {rest : Multiset InlineHook}
    (flight : v.flight = h ::ₘ rest) :
    Offered { v with
      code := (publishInline v.code h).1
      flight := rest
      objs := h.announced ::ₘ v.objs } := by
  have mem : h ∈ v.flight := flight ▸ Multiset.mem_cons_self _ _
  have unchained := base.gate.chained_flight base.own flight
  have fresh := base.own.not_live_flight mem
  have live : ∀ g, ({ v with
      code := (publishInline v.code h).1
      flight := rest
      objs := h.announced ::ₘ v.objs } : View).Live g ↔ g = h.trampoline.ptr ∨ v.Live g := by
    intro g
    constructor
    · rintro ⟨o, there, published, rfl⟩
      obtain rfl | there := Multiset.mem_cons.1 there
      · exact .inl rfl
      · exact .inr ⟨o, there, published, rfl⟩
    · rintro (rfl | ⟨o, there, published, rfl⟩)
      · exact ⟨h.announced, Multiset.mem_cons_self _ _, rfl, rfl⟩
      · exact ⟨o, Multiset.mem_cons_of_mem there, published, rfl⟩
  have inFlight : ∀ x ∈ rest, x.targetKind = .managedGateway → v.Live x.target := fun x there kind =>
    offered.flightOwner x (flight ▸ Multiset.mem_cons_of_mem there) kind
  cases kind : h.targetKind with
  | normal =>
    obtain ⟨managed, chained⟩ := publishInline_normal (c := v.code) kind
    refine ⟨fun {g e} some orphan => ?_, fun {g} => ?_, fun x there gateway => ?_⟩
    · exact (live g).2 (.inr (offered.owner (chained ▸ some) orphan))
    · rw [live, managed, chained, Finset.mem_insert, offered.managed]
      constructor
      · rintro (rfl | ⟨there, none⟩)
        · exact ⟨.inl rfl, unchained⟩
        · exact ⟨.inr there, none⟩
      · rintro ⟨rfl | there, none⟩
        · exact .inl rfl
        · exact .inr ⟨there, none⟩
    · exact (live _).2 (.inr (inFlight x there gateway))
  | managedGateway =>
    obtain ⟨managed, chained⟩ := publishInline_gateway (c := v.code) kind
    have owned := offered.flightOwner h mem kind
    have ne : h.target ≠ h.trampoline.ptr := fun eq => fresh (eq ▸ owned)
    refine ⟨fun {g e} some orphan => ?_, fun {g} => ?_, fun x there gateway => ?_⟩
    · rw [chained] at some
      by_cases here : g = h.target
      · subst here
        exact (live _).2 (.inr owned)
      · rw [Function.update_of_ne here] at some
        exact (live g).2 (.inr (offered.owner some orphan))
    · rw [live, managed, chained, Finset.mem_insert, Finset.mem_erase, offered.managed]
      by_cases here : g = h.target
      · subst here
        simp [ne]
      · rw [Function.update_of_ne here]
        constructor
        · rintro (rfl | ⟨-, there, none⟩)
          · exact ⟨.inl rfl, unchained⟩
          · exact ⟨.inr there, none⟩
        · rintro ⟨rfl | there, none⟩
          · exact .inl rfl
          · exact .inr ⟨here, there, none⟩
    · exact (live _).2 (.inr (inFlight x there gateway))

/-- Withdrawing a hook offers the gateway it was chained on, if that one's owner was not dropped. -/
theorem release (offered : Offered v) (base : Base v) {h : InlineHook} (mem : h ∈ v.objs) :
    (∀ {g e}, (h.release v.code).1.chainedGateways g = some e → e.orphan = none → v.Live g) ∧
    ∀ {g}, g ∈ (h.release v.code).1.managedGateways ↔
      v.Live g ∧ (h.release v.code).1.chainedGateways g = none := by
  cases published : h.published with
  | false =>
    rw [InlineHook.release_unpublished published]
    exact ⟨offered.owner, offered.managed⟩
  | true =>
    cases kind : h.targetKind with
    | normal =>
      rw [InlineHook.release_normal published kind]
      exact ⟨offered.owner, offered.managed⟩
    | managedGateway =>
      rw [InlineHook.release_gateway published kind]
      have depends : 0 < v.dependents h.target :=
        Multiset.countP_pos.2 ⟨h, View.mem_installed_of_objs mem published, kind, rfl⟩
      obtain ⟨e, entry⟩ : ∃ e, v.code.chainedGateways h.target = some e := by
        cases entry : v.code.chainedGateways h.target with
        | none =>
          have := base.gate.free entry
          omega
        | some e => exact ⟨e, rfl⟩
      have entry' : (v.code.unregisterLivePatch h.target).chainedGateways h.target = some e := entry
      have alone := base.dis.dependents_le_one h.target
      have count := (base.gate.chained entry).1
      rw [InlineHook.releaseGateway_chained entry', InlineHook.releaseGateway_managed entry',
        if_neg (show ¬ 0 < e.dependents - 1 by omega)]
      refine ⟨fun {g e'} some orphan => ?_, fun {g} => ?_⟩
      · by_cases here : g = h.target
        · rw [here, Function.update_self] at some
          cases some
        · rw [Function.update_of_ne here] at some
          exact offered.owner some orphan
      · change g ∈ (if e.orphan = none then insert h.target v.code.managedGateways
          else v.code.managedGateways) ↔ v.Live g ∧
            Function.update v.code.chainedGateways h.target none g = none
        by_cases here : g = h.target
        · subst here
          rw [Function.update_self]
          cases orphan : e.orphan with
          | none => simp [offered.owner entry orphan]
          | some r =>
            have dead : ¬ v.Live h.target := by
              rintro ⟨o, there, -, same⟩
              have none := base.own.orphanAt_objs there
              rw [same] at none
              unfold Code.orphanAt at none
              rw [entry, Option.bind_some, orphan] at none
              cases none
            rw [if_neg (by simp), offered.managed]
            simp [dead]
        · rw [Function.update_of_ne here, ← offered.managed]
          split_ifs
          · simp [here]
          · exact Iff.rfl

theorem detach (offered : Offered v) (base : Base v) {h : InlineHook} {rest : Multiset InlineHook}
    (objs : v.objs = h ::ₘ rest) (quiet : v.flight = 0)
    (rule : v.code.chainedGateways h.trampoline.ptr = none) :
    Offered { v with
      code := (h.release v.code).1.unregisterManagedGateway h.trampoline.ptr
      objs := h.inert ::ₘ rest } := by
  obtain ⟨owner, managed⟩ := offered.release base (objs ▸ Multiset.mem_cons_self _ _)
  have live := @live_without v { v with
      code := (h.release v.code).1.unregisterManagedGateway h.trampoline.ptr
      objs := h.inert ::ₘ rest } base.own h rest objs fun o => by
    simp only [Multiset.mem_cons]
    constructor
    · rintro ⟨rfl | mem, published⟩
      · cases published
      · exact ⟨mem, published⟩
    · rintro ⟨mem, published⟩
      exact ⟨.inr mem, published⟩
  have unchained := InlineHook.noNewChain_release v.code h _ rule
  refine ⟨fun {g e} some orphan => (live g).2 ⟨owner some orphan, ?_⟩, fun {g} => ?_, ?_⟩
  · rintro rfl
    exact absurd (unchained.symm.trans some) (by simp)
  · rw [live]
    change g ∈ (h.release v.code).1.managedGateways.erase h.trampoline.ptr ↔
      _ ∧ (h.release v.code).1.chainedGateways g = none
    rw [Finset.mem_erase, managed]
    tauto
  · rw [quiet]
    simp

theorem remove (offered : Offered v) (base : Base v) {h : InlineHook} {rest : Multiset InlineHook}
    (objs : v.objs = h ::ₘ rest) (quiet : v.flight = 0)
    (gate : Gate { v with code := h.dispose (h.release v.code).1, objs := rest }) :
    Offered { v with code := h.dispose (h.release v.code).1, objs := rest } := by
  obtain ⟨owner, managed⟩ := offered.release base (objs ▸ Multiset.mem_cons_self _ _)
  have live := @live_without v { v with code := h.dispose (h.release v.code).1, objs := rest }
    base.own h rest objs fun o => Iff.rfl
  obtain ⟨e, entry, pos⟩ | free := InlineHook.dispose_cases (h.release v.code).1 h
  · have table : (h.dispose (h.release v.code).1).chainedGateways = Function.update
        (h.release v.code).1.chainedGateways h.trampoline.ptr
        (some { e with orphan := some h.trampoline.region }) := by
      rw [InlineHook.dispose_chained entry pos]
      rfl
    refine ⟨fun {g e'} some orphan => ?_, fun {g} => ?_, by simp [quiet]⟩
    · rw [table] at some
      by_cases here : g = h.trampoline.ptr
      · rw [here, Function.update_self, Option.some.injEq] at some
        rw [← some] at orphan
        cases orphan
      · rw [Function.update_of_ne here] at some
        exact (live g).2 ⟨owner some orphan, here⟩
    · rw [live, table, InlineHook.dispose_managed, Finset.mem_erase, managed]
      by_cases here : g = h.trampoline.ptr
      · simp [here]
      · rw [Function.update_of_ne here]
        tauto
  · have table := InlineHook.dispose_chained_free free
    refine ⟨fun {g e'} some orphan => ?_, fun {g} => ?_, by simp [quiet]⟩
    · have positive := gate.chained some
      rw [table] at some
      refine (live g).2 ⟨owner some orphan, ?_⟩
      rintro rfl
      have := free e' some
      omega
    · rw [live, table, InlineHook.dispose_managed, Finset.mem_erase, managed]
      tauto

theorem move (m : Move (Rules.chaining foreign) foreign v v') (base : Base v) (offered : Offered v) :
    Offered v' := by
  have base' := base.move m
  have sameFlight : ∀ h ∈ v.flight, h.targetKind = .managedGateway →
      ∃ h' ∈ v.flight, h'.targetKind = .managedGateway ∧ h'.target = h.target :=
    fun h mem kind => ⟨h, mem, kind, rfl⟩
  cases m with
  | allocate | fill | unwind | queue | arm | handler | disarm | freeRegions =>
    exact offered.of_same rfl rfl (fun _ => Iff.rfl) sameFlight
  | @discard r rest held =>
    exact offered.of_same (Code.retire_chainedGateways _ r) (Code.retire_managedGateways _ r)
      (fun _ => Iff.rfl) sameFlight
  | @giveUp d rest pending =>
    exact offered.of_same (Code.dropTrampoline_chainedGateways _ d.trampoline)
      (Code.dropTrampoline_managedGateways _ d.trampoline) (fun _ => Iff.rfl) sameFlight
  | patch pending target encoded clear apart owned =>
    refine ⟨offered.owner, offered.managed, fun h mem kind => ?_⟩
    obtain rfl | mem := Multiset.mem_cons.1 mem
    · exact (offered.managed.1 (owned kind)).1
    · exact offered.flightOwner h mem kind
  | publish flight => exact offered.publish base flight
  | @undo h rest flight =>
    refine offered.of_same rfl rfl (fun _ => Iff.rfl) fun x mem kind => ?_
    obtain rfl | mem := Multiset.mem_cons.1 mem
    · exact ⟨h, flight ▸ Multiset.mem_cons_self _ _, kind, rfl⟩
    · exact ⟨x, flight ▸ Multiset.mem_cons_of_mem mem, kind, rfl⟩
  | @unravel h rest flight =>
    have free := base.gate.chained_flight base.own flight
    have dead := base.own.not_live_flight (flight ▸ Multiset.mem_cons_self h rest)
    refine offered.of_same (InlineHook.dispose_chained_free (by simp [free])) ?_
      (fun _ => Iff.rfl) fun x mem kind => ⟨x, flight ▸ Multiset.mem_cons_of_mem mem, kind, rfl⟩
    change (h.dispose v.code).managedGateways = _
    rw [InlineHook.dispose_managed]
    exact Finset.erase_eq_of_notMem fun mem => dead (offered.managed.1 mem).1
  | strandFlight flight rule => exact rule.elim
  | restore objs => exact offered.of_same rfl rfl (live_replace objs rfl rfl rfl) sameFlight
  | enable objs => exact offered.of_same rfl rfl (live_replace objs rfl rfl rfl) sameFlight
  | detach objs quiet off rule => exact offered.detach base objs quiet rule
  | remove objs quiet => exact offered.remove base objs quiet base'.gate
  | strand objs active rule => exact rule.elim
  | scar traps rule => exact rule.elim
  | beginPass =>
    obtain ⟨chained, managed⟩ := Gate.beginPass_same v.code
    exact offered.of_same chained managed (fun _ => Iff.rfl) sameFlight
  | settlePass =>
    obtain ⟨chained, managed⟩ := Gate.settlePass_same v.code _
    exact offered.of_same chained managed (fun _ => Iff.rfl) sameFlight

end Offered

end NeoHook
