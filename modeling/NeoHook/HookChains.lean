import NeoHook.OfferedGateways
import NeoHook.JumpCodec

/-!
# Chains of inline hooks

A gateway leads to the relocated instructions of its hook, or to where the gateway of the hook before
it led; a live and enabled hook chained on it puts its jump over that.  So the calls of a chain go
from the target to the first detour, from each gateway to the next one, and past every hook that is
disabled or gone.
-/

namespace NeoHook

open ByteMap

/-! ### Where gateways lead -/

namespace InlineHook

/-- The stub that `attach` builds at the gateway. -/
def entry (h : InlineHook) : List UInt8 :=
  match h.targetKind with
  | .normal => managedGatewayStub (h.trampoline.ptr + managedGatewayLen)
  | .managedGateway => h.origBytes

/-- Where the gateway leads when no hook is chained on it. -/
def destination (h : InlineHook) : ℕ := ofLeBytes (h.entry.drop 6)

theorem destination_of_entry {h : InlineHook} {dest : ℕ} (stub : h.entry = managedGatewayStub dest) :
    h.destination = dest % 2 ^ 64 := by
  unfold destination
  rw [stub]
  change ofLeBytes (leBytes 8 dest) = _
  rw [ofLeBytes_leBytes]
  norm_num

/-- The gateway of a hook on a function leads to the relocated instructions behind it. -/
theorem destination_normal {h : InlineHook} (kind : h.targetKind = .normal)
    (word : h.trampoline.ptr + managedGatewayLen < 2 ^ 64) :
    h.destination = h.trampoline.ptr + managedGatewayLen := by
  rw [@destination_of_entry h (h.trampoline.ptr + managedGatewayLen) (by simp [entry, kind]),
    Nat.mod_eq_of_lt word]

/-- What the gateway reads as depends on what `attach` knew only. -/
structure SameEntry (h h' : InlineHook) : Prop where
  stub : h'.trampoline = h.trampoline
  entry : h'.entry = h.entry

theorem SameEntry.refl (h : InlineHook) : h.SameEntry h := ⟨rfl, rfl⟩

end InlineHook

/-- The stub that `attach` has built at the gateway of the queued hook. -/
def InlineData.entry (d : InlineData) : List UInt8 :=
  match d.targetKind with
  | .normal => managedGatewayStub (d.trampoline.ptr + managedGatewayLen)
  | .managedGateway => d.origBytes

theorem InlineData.Queued.entry {c : Code} {d : InlineData} (queued : d.Queued c) :
    read c.mem d.trampoline.ptr managedGatewayLen = d.entry ∧
      ∃ dest, d.entry = managedGatewayStub dest := by
  unfold InlineData.entry
  cases kind : d.targetKind with
  | normal => exact ⟨(queued.normal kind).2, _, rfl⟩
  | managedGateway =>
    obtain ⟨-, -, -, dest, captured, stub⟩ := queued.gateway kind
    exact ⟨stub.trans captured.symm, dest, captured⟩

/-- The ground holds the stubs that `attach` built at the gateways. -/
structure Entries (ground : ℕ → UInt8) (v : View) : Prop where
  hooks : ∀ h ∈ v.keepers, read ground h.trampoline.ptr managedGatewayLen = h.entry ∧
    ∃ dest, h.entry = managedGatewayStub dest
  queued : ∀ d ∈ v.pend, read ground d.trampoline.ptr managedGatewayLen = d.entry ∧
    ∃ dest, d.entry = managedGatewayStub dest

/-- A gateway lies in the page of its stub. -/
theorem Own.gateway_covered {v : View} (own : Own v) {r : Region} (mem : r ∈ v.code.allocs) {x : ℕ}
    (inside : InRange r.base managedGatewayLen x) : r.Covers x := by
  have page := Region.page_le_mapped (own.real r mem).2
  refine inRange_of_sub le_rfl ?_ inside
  unfold pageSize at page
  unfold managedGatewayLen
  omega

/-- The stub of a hook is not under construction. -/
theorem Own.keeper_built {v : View} (own : Own v) {h : InlineHook} (mem : h ∈ v.keepers) :
    h.trampoline.region ∉ v.held := by
  intro held
  have once := own.owners_le_one h.trampoline.region
  have building := Multiset.count_pos.2 held
  have counted : ∀ {s : Multiset InlineHook}, h ∈ s →
      0 < (s.map (·.trampoline.region)).count h.trampoline.region := fun mem =>
    Multiset.count_pos.2 (Multiset.mem_map_of_mem (·.trampoline.region) mem)
  unfold View.owners at once
  rcases View.mem_keepers.1 mem with mem | mem | mem <;> have := counted mem <;> omega

/-- Neither is that of a queued hook. -/
theorem Own.pend_built {v : View} (own : Own v) {d : InlineData} (mem : d ∈ v.pend) :
    d.trampoline.region ∉ v.held := by
  intro held
  have once := own.owners_le_one d.trampoline.region
  have building := Multiset.count_pos.2 held
  have queued := Multiset.count_pos.2 (Multiset.mem_map_of_mem (·.trampoline.region) mem)
  unfold View.owners at once
  omega

namespace Entries

variable {ground ground' pristine : ℕ → UInt8} {foreign : List Region} {v v' : View}

/-- The ground stays where stubs are not under construction. -/
theorem carry (entries : Entries ground v) (base : Base v) (keeps : v.KeepsGround ground ground') :
    Entries ground' v := by
  have same : ∀ {r}, r ∈ v.code.allocs → r ∉ v.held →
      read ground' r.base managedGatewayLen = read ground r.base managedGatewayLen := by
    intro r there built
    apply read_congr
    intro x inside
    exact keeps r there built x (base.own.gateway_covered there inside)
  constructor
  · intro h mem
    obtain ⟨reads, stub⟩ := entries.hooks h mem
    exact ⟨(same (base.own.keeper_stub mem).1 (base.own.keeper_built mem)).trans reads, stub⟩
  · intro d mem
    obtain ⟨reads, stub⟩ := entries.queued d mem
    exact ⟨(same (base.own.pend_mem mem) (base.own.pend_built mem)).trans reads, stub⟩

/-- A move that makes hooks of queued ones only. -/
theorem step (entries : Entries ground v)
    (hooks : ∀ h ∈ v'.keepers, (∃ h' ∈ v.keepers, h'.SameEntry h) ∨
      ∃ d ∈ v.pend, d.trampoline = h.trampoline ∧ d.entry = h.entry)
    (pend : v'.pend ⊆ v.pend) : Entries ground v' := by
  refine ⟨fun h mem => ?_, fun d mem => entries.queued d (pend mem)⟩
  obtain ⟨h', mem', same⟩ | ⟨d, mem', stub, entry⟩ := hooks h mem
  · rw [same.stub, same.entry]
    exact entries.hooks h' mem'
  · rw [← stub, ← entry]
    exact entries.queued d mem'

/-- A move after which the same hooks are there, or fewer. -/
theorem fewer (entries : Entries ground v) (hooks : v'.keepers ⊆ v.keepers)
    (pend : v'.pend ⊆ v.pend) : Entries ground v' :=
  entries.step (fun h mem => .inl ⟨h, hooks mem, .refl h⟩) pend

/-- A hook takes other flags. -/
theorem flag (entries : Entries ground v) {h h' : InlineHook} {rest : Multiset InlineHook}
    (before : v.keepers = h ::ₘ rest) (after : v'.keepers = h' ::ₘ rest) (same : h.SameEntry h')
    (pend : v'.pend = v.pend) : Entries ground v' := by
  refine entries.step (fun x mem => ?_) (pend ▸ Multiset.Subset.refl _)
  rw [after] at mem
  obtain rfl | mem := Multiset.mem_cons.1 mem
  · exact .inl ⟨h, before ▸ Multiset.mem_cons_self _ _, same⟩
  · exact .inl ⟨x, before ▸ Multiset.mem_cons_of_mem mem, .refl x⟩

/-- The stub of a hook that is queued is a ground without patches. -/
theorem queue (entries : Entries ground v) {d : InlineData} {rest : Multiset Region}
    (base : Base { v with pend := d ::ₘ v.pend, held := rest })
    (sited : Sited foreign (OwnCode foreign) { v with pend := d ::ₘ v.pend, held := rest })
    (placed : Placed foreign { v with pend := d ::ₘ v.pend, held := rest })
    (laid : Laid pristine ground { v with pend := d ::ₘ v.pend, held := rest })
    (queued : d.Queued v.code) : Entries ground { v with pend := d ::ₘ v.pend, held := rest } := by
  refine ⟨entries.hooks, fun x mem => ?_⟩
  rcases Multiset.mem_cons.1 mem with rfl | mem
  · obtain ⟨reads, stub⟩ := queued.entry
    refine ⟨Eq.trans ?_ reads, stub⟩
    have there := base.own.pend_mem (Multiset.mem_cons_self x v.pend)
    obtain ⟨hooks, traps⟩ := Laid.stub_clear base sited placed (base.own.real _ there).2
      (sited.stubs _ there) fun r' mem' kept => by
        have symm : Std.Symm Region.Apart := ⟨fun _ _ h => h.symm⟩
        refine base.own.apart.forall there mem' ?_
        rintro rfl
        have once := base.own.owners_le_one x.trampoline.region
        unfold View.keeps at kept
        unfold View.owners Code.parked at once
        rw [Multiset.map_cons, Multiset.count_cons_self] at once
        omega
    have page := Region.page_le_mapped (base.own.real _ there).2
    have short : managedGatewayLen ≤ x.trampoline.region.mapped := by
      unfold pageSize at page
      unfold managedGatewayLen
      omega
    refine (laid.overlaid.read_bare (overlays_clear (fun h keeper on => ?_) fun t trap => ?_)).symm
    · have standing := base.shapes.standing_of_enabled placed.kept keeper on
      refine ⟨base.shapes.standing_shaped standing, (hooks h standing).mono le_rfl le_rfl le_rfl ?_⟩
      exact Nat.add_le_add_left short _
    · intro inside
      exact traps t trap (inRange_of_sub le_rfl (Nat.add_le_add_left short _) inside)
  · exact entries.queued x mem

theorem move (m : Move (Rules.restoring foreign) foreign v v') (base : Base v)
    (sited : Sited foreign (OwnCode foreign) v') (placed : Placed foreign v')
    (laid : Laid pristine ground' v') (keeps : v.KeepsGround ground ground')
    (entries : Entries ground v) : Entries ground' v' := by
  have base' := base.move m
  have carried := entries.carry base keeps
  have whole : v.pend ⊆ v.pend := Multiset.Subset.refl _
  have hooks : v.keepers ⊆ v.keepers := Multiset.Subset.refl _
  cases m with
  | allocate | fill | unwind | discard | arm | handler | disarm | beginPass | freeRegions | settlePass =>
    exact carried.fewer hooks whole
  | queue quiet held queued rule => exact carried.queue base' sited placed laid queued
  | giveUp pending => exact carried.fewer hooks (pending ▸ Multiset.subset_cons _ _)
  | @patch d rest bytes pending =>
    refine carried.step (fun h mem => ?_) (pending ▸ Multiset.subset_cons _ _)
    have keepers : View.keepers { v with
        code := v.code.store d.target bytes (some ((d.install v.code bytes).mark v.code))
        pend := rest
        flight := d.install v.code bytes ::ₘ v.flight } = d.install v.code bytes ::ₘ v.keepers :=
      View.keepers_flight rfl
    rw [keepers] at mem
    obtain rfl | mem := Multiset.mem_cons.1 mem
    · exact .inr ⟨d, pending ▸ Multiset.mem_cons_self _ _, rfl, rfl⟩
    · exact .inl ⟨h, mem, .refl h⟩
  | @publish h rest flight =>
    refine carried.flag (View.keepers_flight flight) (show _ = h.announced ::ₘ _ from ?_) ⟨rfl, rfl⟩ rfl
    unfold View.keepers
    rw [Multiset.cons_add]
  | undo flight =>
    exact carried.flag (View.keepers_flight flight) (View.keepers_flight rfl) ⟨rfl, rfl⟩ rfl
  | unravel flight =>
    refine carried.fewer ?_ whole
    rw [View.keepers_flight flight]
    exact Multiset.subset_cons _ _
  | strandFlight flight rule => exact rule.elim
  | restore objs | enable objs | detach objs =>
    exact carried.flag (View.keepers_objs objs) (View.keepers_objs rfl) ⟨rfl, rfl⟩ rfl
  | remove objs =>
    refine carried.fewer ?_ whole
    rw [View.keepers_objs objs]
    exact Multiset.subset_cons _ _
  | strand objs active rule => exact rule.elim
  | scar traps rule => exact rule.elim

end Entries

/-! ### Runs -/

/-- A commit that is not refused detaches no hook while another one is chained on its gateway, or is to
be by the same commit. -/
def Op.DetachesUnchained (E : Env) (s : State) (op : Op) : Prop :=
  op.Acts E s → match op with
    | .commit tx _ _ _ => ∀ t, s.transaction tx = some t → ∀ place, .detach place ∈ t.pending →
      ∀ h, s.process.hookAt place = some (.inline h) →
        s.process.code.chainedGateways h.trampoline.ptr = none ∧
          ∀ d, .inline d ∈ t.pending → d.targetKind = .managedGateway →
            d.target ≠ h.trampoline.ptr
    | _ => True

/-- What is taken out is restored, and no hook is detached from under another one. -/
def Op.KeepsChains (E : Env) (s : State) (op : Op) : Prop :=
  op.RestoresCode E s ∧ op.DetachesUnchained E s

theorem Op.KeepsChains.grants {E : Env} {s : State} {op : Op} (keeps : op.KeepsChains E s) :
    (Rules.chaining E.foreign).Grants E s op := by
  intro acts
  have granted := keeps.1.grants acts
  have unchained := keeps.2 acts
  cases op with
  | commit tx ffi os threads =>
    refine fun t present => ⟨(granted t present).strand, ?_⟩
    intro place mem hook gateway here stub c chains
    cases hook with
    | inline h =>
      cases Option.some.inj stub
      obtain ⟨none, others⟩ := unchained t present place mem h here
      exact chains _ none others
    | iat | eat | vtable | vtableInstance => cases stub
  | queue tx r =>
    cases r with
    | attach => exact ⟨⟨granted.birth, granted.write⟩, granted.gateway, granted.normal⟩
    | attachIat | attachEat | attachVtable | attachVtableInstance | detach => exact granted
  | int3Install target detour gateway os =>
    exact ⟨granted.1, granted.2.birth, granted.2.write⟩
  | begin | abort | enable | disable | unhook | drop | int3Drop | beginPass | freeRegions
  | settlePass => exact granted

theorem State.Reachable.mono {E : Env} {allowed allowed' : State → Op → Prop} {pristine : ℕ → UInt8}
    {s : State} (weaker : ∀ {s op}, allowed s op → allowed' s op)
    (run : State.Reachable E allowed pristine s) : State.Reachable E allowed' pristine s := by
  induction run with
  | initial tables => exact .initial tables
  | step op _ meets ih => exact .step op ih (weaker meets)

/-- What the moves of such a run keep. -/
structure Linked (foreign : List Region) (pristine : ℕ → UInt8) (v : View) : Prop where
  sited : Sited foreign (OwnCode foreign) v
  placed : Placed foreign v
  offered : Offered v
  laid : ∃ ground, Laid pristine ground v ∧ Entries ground v

theorem Linked.initial (foreign : List Region) (pristine : ℕ → UInt8) (tables : Tables) :
    Linked foreign pristine (View.initial pristine tables) := by
  obtain ⟨sited, placed, ground, laid⟩ := Restorable.initial foreign pristine tables
  have noHook : ∀ h : InlineHook, h ∉ (View.initial pristine tables).keepers := by
    intro h mem
    rcases View.mem_keepers.1 mem with mem | mem | mem <;> cases mem
  refine ⟨sited, placed, ⟨fun some => ?_, fun {g} => ⟨fun mem => ?_, fun live => ?_⟩, fun h mem => ?_⟩,
    ground, laid, fun h mem => absurd mem (noHook h), fun d mem => ?_⟩
  · cases some
  · exact absurd mem (Finset.notMem_empty g)
  · obtain ⟨o, mem, -⟩ := live.1
    cases mem
  · cases mem
  · cases mem

theorem Linked.move {foreign : List Region} {pristine : ℕ → UInt8} {v v' : View}
    (m : Move (Rules.chaining foreign) foreign v v') (base : Base v)
    (linked : Linked foreign pristine v) : Linked foreign pristine v' := by
  obtain ⟨sited, placed, offered, ground, laid, entries⟩ := linked
  have sited' := Sited.move (fun rule => rule) m.restoring sited
  have placed' := placed.move m.restoring base
  obtain ⟨ground', laid', keeps⟩ := laid.move m.restoring base sited placed
  exact ⟨sited', placed', offered.move m base, ground', laid',
    entries.move m.restoring base sited' placed' laid' keeps⟩

/-! ### Chains -/

/-- A jump of `n` readable bytes at the address leads to the destination. -/
def JumpsTo (mem : ℕ → UInt8) (a n dest : ℕ) : Prop :=
  ∀ readable, Reads readable a n → a + n ≤ 2 ^ 64 →
    detourCodeFromPointerOnce readable mem a = some dest

/-- How hooks on functions and on gateways behave.  A hook is live until it is detached or gone. -/
structure State.ChainsBehave (pristine : ℕ → UInt8) (s : State) : Prop where
  /-- The target of a live and enabled hook leads to its detour. -/
  detour : ∀ h ∈ s.hooks, h.active = true → h.enabled = true → h.detour < 2 ^ 64 →
    JumpsTo s.process.code.mem h.target h.stolenLen h.detour
  /-- The target of a disabled one holds the code that it saved. -/
  original : ∀ h ∈ s.hooks, h.active = true → h.enabled = false →
    read s.process.code.mem h.target h.stolenLen = h.origBytes
  /-- Where no enabled hook is, the code is the original code. -/
  bare : ∀ x, ¬ s.process.code.StubByte x →
    (∀ h ∈ s.hooks, h.active = true → h.enabled = true → ¬ InRange h.target h.stolenLen x) →
    (∀ t ∈ s.traps, t.target ≠ x) → s.process.code.mem x = pristine x
  /-- The gateway of a live hook leads to the detour of the live and enabled hook on it. -/
  chained : ∀ h ∈ s.hooks, h.active = true → ∀ x ∈ s.hooks, x.active = true → x.enabled = true →
    x.target = h.trampoline.ptr → x.detour < 2 ^ 64 →
    JumpsTo s.process.code.mem h.trampoline.ptr managedGatewayLen x.detour
  /-- Without one it leads where it led when it was built. -/
  onward : ∀ h ∈ s.hooks, h.active = true →
    (∀ x ∈ s.hooks, x.active = true → x.enabled = true → x.target ≠ h.trampoline.ptr) →
    JumpsTo s.process.code.mem h.trampoline.ptr managedGatewayLen h.destination
  /-- That is where the gateway the hook is chained on leads. -/
  previous : ∀ h ∈ s.hooks, ∀ x ∈ s.hooks, x.active = true → x.targetKind = .managedGateway →
    x.target = h.trampoline.ptr → x.destination = h.destination
  /-- A gateway is offered for chaining while its owner is live and no live hook is on it. -/
  offered : ∀ g, g ∈ s.process.code.managedGateways ↔
    (∃ o ∈ s.hooks, o.active = true ∧ o.trampoline.ptr = g) ∧
      ∀ x ∈ s.hooks, x.active = true → x.targetKind = .managedGateway → x.target ≠ g

/-- The bytes of an inline patch lead to the detour. -/
theorem InlineHook.Shaped.jumpsTo {h : InlineHook} (shaped : h.Shaped) {mem : ℕ → UInt8}
    (patched : read mem h.target h.stolenLen = h.patchBytes) (word : h.detour < 2 ^ 64) :
    JumpsTo mem h.target h.stolenLen h.detour := by
  intro readable reads room
  have same : write mem h.target h.patchBytes = mem := by
    rw [← patched, write_read_self]
  have encoded := shaped.encoded
  rw [inlinePatchBytes, if_neg (Nat.not_lt.2 shaped.room)] at encoded
  have bytes := (Except.ok.inj encoded).symm
  have within : ∀ {n}, n ≤ h.stolenLen → Reads readable h.target n :=
    fun le i k pos fits => reads i k pos (fits.trans le)
  have enough := shaped.room
  rw [← same, bytes]
  cases jump : h.jumpType with
  | relative5 =>
    rw [jump] at enough
    exact once_write_relative _ (within enough) word (shaped.jump.symm.trans jump)
  | absolute14 =>
    rw [jump] at enough
    have fits : h.target + 14 ≤ 2 ^ 64 := (Nat.add_le_add_left enough _).trans room
    exact once_write_absolute _ (within enough) fits word

/-- A gateway stub leads to its destination. -/
theorem InlineHook.jumpsTo_destination {h : InlineHook} {mem : ℕ → UInt8} {dest : ℕ}
    (stub : h.entry = managedGatewayStub dest)
    (reads : read mem h.trampoline.ptr managedGatewayLen = h.entry) :
    JumpsTo mem h.trampoline.ptr managedGatewayLen h.destination := by
  intro readable readables room
  have same : write mem h.trampoline.ptr (managedGatewayStub (dest % 2 ^ 64)) = mem := by
    have bytes : managedGatewayStub (dest % 2 ^ 64) = managedGatewayStub dest := by
      have wrapped := leBytes_ofLeBytes (leBytes 8 dest)
      rw [ofLeBytes_leBytes, length_leBytes] at wrapped
      unfold managedGatewayStub
      rw [← wrapped]
      norm_num
    rw [bytes, ← stub, ← reads, write_read_self]
  rw [destination_of_entry stub, ← same]
  have bare := @once_write_absolute readable mem h.trampoline.ptr (dest % 2 ^ 64) [] readables room
    (Nat.mod_lt _ (by norm_num))
  rwa [List.append_nil] at bare

namespace Linked

variable {foreign : List Region} {pristine ground : ℕ → UInt8} {v : View}

/-- A disabled hook's range holds what it saved. -/
theorem read_disabled (base : Base v) (placed : Placed foreign v) (laid : Laid pristine ground v)
    (idle : v.flight = 0) {h : InlineHook} (mem : h ∈ v.objs) (published : h.published = true)
    (off : h.enabled = false) : read v.code.mem h.target h.stolenLen = h.origBytes := by
  have standing : h ∈ v.standing := View.mem_standing.2 (.inl ⟨mem, published⟩)
  obtain ⟨rest, objs⟩ := Multiset.exists_cons_of_mem mem
  rw [laid.saved h standing]
  apply laid.overlaid.read_bare
  rw [View.keepers_objs objs, overlays_off off]
  apply overlays_clear
  · intro x there on
    have keeper : x ∈ v.keepers := View.keepers_objs objs ▸ Multiset.mem_cons_of_mem there
    refine ⟨base.shapes.standing_shaped (base.shapes.standing_of_enabled placed.kept keeper on), ?_⟩
    rw [idle, placed.kept, add_zero, add_zero] at there
    obtain ⟨-, same, active⟩ := base.shapes.objs x (objs ▸ Multiset.mem_cons_of_mem there)
    exact base.objs_apart objs published (.inl ⟨there, same.symm.trans (active on)⟩)
  · exact fun t trap => base.standing_traps standing trap

/-- A gateway that no enabled hook is chained on holds the ground. -/
theorem read_unchained (base : Base v) (sited : Sited foreign (OwnCode foreign) v)
    (placed : Placed foreign v) (laid : Laid pristine ground v) {r : Region} (there : r ∈ v.code.allocs)
    (clear : ∀ x ∈ v.keepers, x.enabled = true → x.target ≠ r.base) :
    read v.code.mem r.base managedGatewayLen = read ground r.base managedGatewayLen := by
  apply laid.overlaid.read_bare
  have page := Region.page_le_mapped (base.own.real r there).2
  have short : r.base + managedGatewayLen ≤ r.base + r.mapped := by
    unfold pageSize at page
    unfold managedGatewayLen
    omega
  apply overlays_clear
  · intro x keeper on
    have standing := base.shapes.standing_of_enabled placed.kept keeper on
    refine ⟨base.shapes.standing_shaped standing, ?_⟩
    exact (base.standing_apart_of_ne sited standing there fun _ => clear x keeper on).mono
      le_rfl le_rfl le_rfl short
  · intro t trap inside
    obtain ⟨f, mem, own⟩ := placed.traps t trap
    exact ByteMap.Apart.notMem (sited.stubs r there f mem) (inRange_of_sub le_rfl short inside) own

/-- A hook whose target is a gateway is chained on it. -/
theorem kind_of_target (base : Base v) (sited : Sited foreign (OwnCode foreign) v) {x : InlineHook}
    (keeper : x ∈ v.keepers) (shaped : x.Shaped) {r : Region} (there : r ∈ v.code.allocs)
    (target : x.target = r.base) : x.targetKind = .managedGateway := by
  cases kind : x.targetKind with
  | managedGateway => rfl
  | normal =>
    have size := (base.own.real r there).2
    have apart := (sited.hooks x keeper kind).apart shaped.stolenLen_pos size (sited.stubs r there)
    have page := Region.page_le_mapped size
    have pos := shaped.stolenLen_pos
    unfold pageSize at page
    unfold ByteMap.Apart at apart
    omega

/-- A gateway is offered while its owner is live and no live hook is chained on it. -/
theorem unchained_iff (base : Base v) (kept : v.stranded = 0) (g : ℕ) :
    v.code.chainedGateways g = none ↔
      ∀ x ∈ v.objs, x.active = true → x.targetKind = .managedGateway → x.target ≠ g := by
  have installed : ∀ {x}, x ∈ v.installed ↔ x ∈ v.objs ∧ x.published = true := by
    intro x
    unfold View.installed
    rw [kept, add_zero, mem_publishedOf]
  constructor
  · intro none x mem active kind target
    have published := (base.shapes.objs x mem).2.1.symm.trans active
    have depends : 0 < v.dependents g :=
      Multiset.countP_pos.2 ⟨x, installed.2 ⟨mem, published⟩, kind, target⟩
    have := base.gate.free none
    omega
  · intro away
    cases entry : v.code.chainedGateways g with
    | none => rfl
    | some e =>
      obtain ⟨x, mem, kind, target⟩ := Multiset.countP_pos.1 (base.gate.chained entry).2
      obtain ⟨there, published⟩ := installed.1 mem
      exact absurd target (away x there ((base.shapes.objs x there).2.1.trans published) kind)

end Linked

/-- In every run in which the writes that take hooks out succeed and no hook is detached from under
another one, chains behave. -/
theorem chains_behave {E : Env} {pristine : ℕ → UInt8} {s : State}
    (run : State.Reachable E (fun s op => op.KeepsChains E s) pristine s) :
    s.ChainsBehave pristine := by
  have intact := code_intact (run.mono fun keeps => keeps.1)
  obtain ⟨v, sim, base, sited, placed, offered, ground, laid, entries⟩ :=
    run.sim (R := Rules.chaining E.foreign) (fun keeps => keeps.grants)
      (Linked.initial E.foreign pristine) fun m base linked => Linked.move m base linked
  have code : v.code = s.process.code := sim.sees.code
  have idle : v.flight = 0 := sim.sees.flight
  have objs : v.objs = s.hooks := by
    rw [sim.sees.objs]
    exact Multiset.add_zero _
  have keepers : v.keepers = s.hooks := by
    unfold View.keepers
    rw [idle, placed.kept, objs, Multiset.add_zero, Multiset.add_zero]
  have shapes := base.shapes.objs
  have stubs := fun h => base.own.objs_mem (h := h)
  have unchained := Linked.unchained_iff base placed.kept
  have offers := @offered.managed
  rw [objs] at shapes stubs unchained
  unfold View.Live at offers
  rw [objs] at offers
  have jumps : ∀ h ∈ s.hooks, h.enabled = true → h.detour < 2 ^ 64 →
      JumpsTo s.process.code.mem h.target h.stolenLen h.detour := fun h mem on word =>
    (shapes h mem).1.jumpsTo (intact.patched h mem on) word
  refine ⟨fun h mem _ on word => jumps h mem on word, fun h mem active off => ?_,
    fun x stub hooks traps => ?_, fun h mem _ x there _ on target word => ?_,
    fun h mem _ clear => ?_, fun h mem x there active kind target => ?_, fun g => ?_⟩
  · rw [← code]
    exact Linked.read_disabled base placed laid idle (objs.symm ▸ mem)
      ((shapes h mem).2.1.symm.trans active) off
  · exact intact.outside x stub (fun h mem on => hooks h mem ((shapes h mem).2.2 on) on) traps
  · have kind := Linked.kind_of_target base sited (keepers.symm ▸ there) (shapes x there).1
      (stubs h mem) target
    have jump := jumps x there on word
    rwa [target, (shapes x there).1.gateway kind] at jump
  · obtain ⟨reads, dest, stub⟩ := entries.hooks h (keepers.symm ▸ mem)
    refine InlineHook.jumpsTo_destination stub (Eq.trans ?_ reads)
    rw [← code]
    apply Linked.read_unchained base sited placed laid (stubs h mem)
    rw [keepers]
    exact fun x there on => clear x there ((shapes x there).2.2 on) on
  · have standing : x ∈ v.standing :=
      View.mem_standing.2 (.inl ⟨objs.symm ▸ there, (shapes x there).2.1.symm.trans active⟩)
    have saved := laid.saved x standing
    rw [(shapes x there).1.gateway kind, target,
      (entries.hooks h (keepers.symm ▸ mem)).1] at saved
    have same : x.entry = h.entry := by
      rw [← saved]
      simp [InlineHook.entry, kind]
    unfold InlineHook.destination
    rw [same]
  · rw [← code, offers, unchained]
    refine and_congr_left fun _ => exists_congr fun o => and_congr_right fun mem => ?_
    rw [(shapes o mem).2.1]

/-! ### A detached owner -/

section

variable {E : Env} {s : State} {tx : ℕ} {ffi : Bool} {os : CommitOs} {threads : Threads}

/-- A commit that only installs. -/
theorem Op.DetachesUnchained.of_none
    (none : (s.transaction tx).map (fun t => t.pending.filterMap (·.detachTarget)) = some []) :
    (Op.commit tx ffi os threads).DetachesUnchained E s := by
  intro _ t present place mem
  rw [present] at none
  have empty : t.pending.filterMap (·.detachTarget) = [] := Option.some.inj none
  have listed : place ∈ t.pending.filterMap (·.detachTarget) := List.mem_filterMap.2 ⟨_, mem, rfl⟩
  rw [empty] at listed
  cases listed

/-- A commit that only detaches one hook. -/
theorem Op.DetachesUnchained.of_free {place : Place} {stub : Trampoline}
    (alone : (s.transaction tx).map (·.pending) = some [.detach place])
    (here : (s.process.hookAt place).bind (·.gateway) = some stub)
    (free : s.process.code.chainedGateways stub.ptr = none) :
    (Op.commit tx ffi os threads).DetachesUnchained E s := by
  intro _ t present other mem h found
  rw [present] at alone
  rw [show t.pending = [.detach place] from Option.some.inj alone] at mem ⊢
  cases List.mem_singleton.1 mem
  rw [found] at here
  cases Option.some.inj here
  refine ⟨free, fun d there => ?_⟩
  cases List.mem_singleton.1 there

end

/-- Two chained hooks; the second one is detached, and another one is chained in its place. -/
def rechained : List Op :=
  [.begin, .queue 1 (.attach 0x1000 0x3000 true (sampleAttachOs 0x20000)),
    .commit 1 false (sampleCommitOs []) sampleThreads, .begin,
    .queue 4 (.attach 0x20000 0x4000 true (sampleAttachOs 0x30000)),
    .commit 4 false (sampleCommitOs []) sampleThreads, .begin, .queue 7 (.detach (.hookPtr 5)),
    .commit 7 false (sampleCommitOs []) sampleThreads, .begin,
    .queue 9 (.attach 0x20000 0x5000 true (sampleAttachOs 0x40000)),
    .commit 9 false (sampleCommitOs []) sampleThreads]

def rechainedState : State := (State.initial samplePristine sampleTables).run sampleEnv rechained

theorem rechained_behaves :
    (rechainedState.hooks.filter fun h => h.active = true).map (·.target) = {0x1000, 0x20000} ∧
      rechainedState.ChainsBehave samplePristine := by
  have own : OwnCode sampleEnv.foreign 0x1000 5 := by
    intro x inside
    refine ⟨⟨0x1000, 0xF000⟩, List.mem_cons_self, inside.1, lt_of_lt_of_le inside.2 ?_⟩
    decide
  refine ⟨by decide +kernel, chains_behave ((State.Reachable.initial sampleTables).along ?_)⟩
  refine ⟨⟨fun _ => trivial, fun _ => trivial⟩, ⟨?_, fun _ => trivial⟩, ⟨.of_drops fun _ => rfl, ?_⟩,
    ⟨fun _ => trivial, fun _ => trivial⟩, ⟨?_, fun _ => trivial⟩, ⟨.of_drops fun _ => rfl, ?_⟩,
    ⟨fun _ => trivial, fun _ => trivial⟩, ⟨fun _ => trivial, fun _ => trivial⟩,
    ⟨.of_drops fun _ => rfl, ?_⟩, ⟨fun _ => trivial, fun _ => trivial⟩, ⟨?_, fun _ => trivial⟩,
    ⟨.of_drops fun _ => rfl, ?_⟩, trivial⟩
  · apply @Op.RestoresCode.of_own _ _ 1 0x1000 0x3000 true (sampleAttachOs 0x20000) 0x1000 5
    · decide +kernel
    · decide +kernel
    · decide +kernel
    · exact own
  · apply Op.DetachesUnchained.of_none
    decide +kernel
  · apply Op.RestoresCode.of_gateway
    · decide +kernel
    · decide +kernel
  · apply Op.DetachesUnchained.of_none
    decide +kernel
  · apply @Op.DetachesUnchained.of_free _ _ 7 _ _ _ (.hookPtr 5) ⟨0x30000, 64⟩
    · decide +kernel
    · decide +kernel
    · decide +kernel
  · apply Op.RestoresCode.of_gateway
    · decide +kernel
    · decide +kernel
  · apply Op.DetachesUnchained.of_none
    decide +kernel

/-- A hook is detached while another one is chained on its gateway, and that one is unhooked; a hook
that nothing is chained on is detached too. -/
def detachedOwner : List Op :=
  [.begin, .queue 1 (.attach 0x1000 0x3000 true (sampleAttachOs 0x20000)),
    .commit 1 false (sampleCommitOs []) sampleThreads, .begin,
    .queue 4 (.attach 0x20000 0x4000 true (sampleAttachOs 0x30000)),
    .commit 4 false (sampleCommitOs []) sampleThreads, .begin, .queue 7 (.detach (.hookPtr 2)),
    .commit 7 false (sampleCommitOs []) sampleThreads, .unhook (.hookPtr 5) true true true, .begin,
    .queue 9 (.attach 0x2000 0x3000 true (sampleAttachOs 0x40000)),
    .commit 9 false (sampleCommitOs []) sampleThreads, .begin, .queue 12 (.detach (.hookPtr 10)),
    .commit 12 false (sampleCommitOs []) sampleThreads]

def detachedOwnerState : State :=
  (State.initial samplePristine sampleTables).run sampleEnv detachedOwner

/-- A gateway is offered although no hook is live. -/
theorem State.not_chainsBehave {pristine : ℕ → UInt8} {s : State} {g : ℕ}
    (offered : g ∈ s.process.code.managedGateways)
    (idle : s.hooks.filter (fun h => h.active = true) = 0) : ¬ s.ChainsBehave pristine := by
  intro behaves
  obtain ⟨⟨o, mem, active, -⟩, -⟩ := (behaves.offered g).1 offered
  exact Multiset.filter_eq_nil.1 idle o mem active

/-- The gateways are offered as if a detached hook were an owner until it is dropped. -/
def State.OffersUndropped (s : State) : Prop :=
  ∀ g, g ∈ s.process.code.managedGateways ↔ (∃ o ∈ s.hooks, o.trampoline.ptr = g) ∧
    ∀ x ∈ s.hooks, x.active = true → x.targetKind = .managedGateway → x.target ≠ g

/-- A gateway is not offered although its owner was not dropped and no hook is live. -/
theorem State.not_offersUndropped {s : State} {g : ℕ}
    (kept : g ∈ s.hooks.map (·.trampoline.ptr))
    (idle : s.hooks.filter (fun h => h.active = true) = 0)
    (withdrawn : g ∉ s.process.code.managedGateways) : ¬ s.OffersUndropped := by
  intro offers
  obtain ⟨o, there, ptr⟩ := Multiset.mem_map.1 kept
  exact withdrawn ((offers g).2 ⟨⟨o, there, ptr⟩, fun x mem active =>
    absurd active (Multiset.filter_eq_nil.1 idle x mem)⟩)

/-- The gateway of the first hook is offered again although its owner is detached, and that of the
other one is not although its owner was not dropped. -/
theorem detached_owner_offered :
    State.Reachable sampleEnv (fun _ _ => True) samplePristine detachedOwnerState ∧
      ¬ detachedOwnerState.ChainsBehave samplePristine ∧ ¬ detachedOwnerState.OffersUndropped := by
  refine ⟨(State.Reachable.initial sampleTables).run fun _ _ _ => trivial, ?_, ?_⟩
  · apply @State.not_chainsBehave _ _ 0x20000
    · decide +kernel
    · decide +kernel
  · apply @State.not_offersUndropped _ 0x40000
    · decide +kernel
    · decide +kernel
    · decide +kernel

end NeoHook
