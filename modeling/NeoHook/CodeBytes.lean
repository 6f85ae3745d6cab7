import NeoHook.PatchHomes
import NeoHook.Lib.Overlay

/-!
# Code bytes over whole runs

Enabled hooks and INT3 hooks are patches laid over the bytes that stood there before, and everything
else outside the stubs is as it was when nothing was hooked.  So the bytes a hook saved are the bytes
its commit found, and without hooks the memory is pristine again.
-/

namespace NeoHook

open ByteMap

/-- A stub lay at the address at some time. -/
def Code.StubByte (c : Code) (x : ℕ) : Prop := ∃ b, 0 < c.births b ∧ InRange b pageSize x

/-- The block is memory of the process. -/
def OwnCode (foreign : List Region) (a n : ℕ) : Prop :=
  ∀ x, InRange a n x → ∃ f ∈ foreign, f.Covers x

theorem OwnCode.apart {foreign : List Region} {a n : ℕ} (own : OwnCode foreign a n) (pos : 0 < n)
    {r : Region} (size : 0 < r.size) (stub : ∀ f ∈ foreign, r.Apart f) :
    Apart r.base r.mapped a n := by
  have room := Region.size_le_mapped r
  by_contra meet
  unfold Apart at meet
  have inside : InRange a n (max r.base a) := ⟨le_max_right _ _, by omega⟩
  obtain ⟨f, mem, covered⟩ := own _ inside
  have covers : r.Covers (max r.base a) := ⟨le_max_left _ _, by omega⟩
  exact ByteMap.Apart.notMem (stub f mem) covers covered

/-! ### Patches of a view -/

def InlineHook.laid (h : InlineHook) : Patch := ⟨h.target, h.patchBytes⟩

def Int3Hook.laid (t : Int3Hook) : Patch := ⟨t.target, [int3Opcode]⟩

/-- The jumps of the enabled hooks and the breakpoints. -/
def overlays (hs : Multiset InlineHook) (ts : Multiset Int3Hook) : Multiset Patch :=
  (hs.filter fun h => h.enabled = true).map InlineHook.laid + ts.map Int3Hook.laid

section

variable {hs : Multiset InlineHook} {ts : Multiset Int3Hook} {h : InlineHook} {t : Int3Hook}

theorem overlays_on (on : h.enabled = true) : overlays (h ::ₘ hs) ts = h.laid ::ₘ overlays hs ts := by
  unfold overlays
  rw [Multiset.filter_cons_of_pos hs on, Multiset.map_cons, Multiset.cons_add]

theorem overlays_off (off : h.enabled = false) : overlays (h ::ₘ hs) ts = overlays hs ts := by
  unfold overlays
  rw [Multiset.filter_cons_of_neg]
  rw [off]
  exact Bool.false_ne_true

theorem overlays_trap : overlays hs (t ::ₘ ts) = t.laid ::ₘ overlays hs ts := by
  unfold overlays
  rw [Multiset.map_cons, Multiset.add_cons]

/-- A block that meets no enabled hook and no breakpoint. -/
theorem overlays_clear {a n : ℕ}
    (hooks : ∀ h ∈ hs, h.enabled = true → h.Shaped ∧ Apart h.target h.stolenLen a n)
    (traps : ∀ t ∈ ts, ¬ InRange a n t.target) : ∀ p ∈ overlays hs ts, p.Clear a n := by
  intro p mem
  rcases Multiset.mem_add.1 mem with laid | laid
  · obtain ⟨h, enabled, rfl⟩ := Multiset.mem_map.1 laid
    obtain ⟨there, on⟩ := Multiset.mem_filter.1 enabled
    obtain ⟨shaped, apart⟩ := hooks h there on
    unfold Patch.Clear InlineHook.laid
    rw [shaped.patch]
    exact apart
  · obtain ⟨t, there, rfl⟩ := Multiset.mem_map.1 laid
    have outside := traps t there
    unfold InRange at outside
    change Apart t.target 1 a n
    unfold Apart
    omega

end

namespace View

/-- The hooks whose range is theirs: published ones and those a commit is installing. -/
def standing (v : View) : Multiset InlineHook := publishedOf v.objs + v.flight

variable {v : View} {h : InlineHook}

theorem mem_standing : h ∈ v.standing ↔ (h ∈ v.objs ∧ h.published = true) ∨ h ∈ v.flight := by
  unfold standing
  rw [Multiset.mem_add, mem_publishedOf]

end View

/-- An enabled hook that is not left behind stands. -/
theorem Shapes.standing_of_enabled {v : View} (shapes : Shapes v) (kept : v.stranded = 0)
    {h : InlineHook} (keeper : h ∈ v.keepers) (on : h.enabled = true) : h ∈ v.standing := by
  rcases View.mem_keepers.1 keeper with mem | mem | mem
  · obtain ⟨-, same, active⟩ := shapes.objs h mem
    exact View.mem_standing.2 (.inl ⟨mem, same.symm.trans (active on)⟩)
  · exact View.mem_standing.2 (.inr mem)
  · rw [kept] at mem
    cases mem

theorem Shapes.standing_shaped {v : View} (shapes : Shapes v) {h : InlineHook}
    (standing : h ∈ v.standing) : h.Shaped := by
  rcases View.mem_standing.1 standing with ⟨mem, -⟩ | mem
  · exact (shapes.objs h mem).1
  · exact (shapes.flight h mem).1

namespace Base

variable {v : View}

/-- Hooks standing elsewhere patch elsewhere. -/
theorem objs_apart (base : Base v) {h : InlineHook} {rest : Multiset InlineHook}
    (objs : v.objs = h ::ₘ rest) (pub : h.published = true) {x : InlineHook}
    (other : (x ∈ rest ∧ x.published = true) ∨ x ∈ v.flight) :
    Apart x.target x.stolenLen h.target h.stolenLen := by
  have installed : v.installed = h ::ₘ publishedOf (rest + v.stranded) := by
    rw [View.installed_objs objs, publishedOf_cons_pos pub]
  rcases other with ⟨mem, published⟩ | flying
  · have pairs := base.dis.installed_apart
    have symm : Std.Symm InlineHook.RangesApart := ⟨fun _ _ => ByteMap.Apart.symm⟩
    rw [installed, Bag.pairwise_cons] at pairs
    exact (pairs.1 x (mem_publishedOf.2 ⟨Multiset.mem_add.2 (.inl mem), published⟩)).symm
  · have registered := base.dis.registered h (installed ▸ Multiset.mem_cons_self _ _)
    exact (base.dis.flightClear x flying _ registered).symm

theorem flight_apart (base : Base v) {h : InlineHook} {rest : Multiset InlineHook}
    (flight : v.flight = h ::ₘ rest) {x : InlineHook}
    (other : (x ∈ v.objs ∧ x.published = true) ∨ x ∈ rest) :
    Apart x.target x.stolenLen h.target h.stolenLen := by
  rcases other with ⟨mem, published⟩ | flying
  · have registered := base.dis.registered x (View.mem_installed_of_objs mem published)
    exact base.dis.flightClear h (flight ▸ Multiset.mem_cons_self _ _) _ registered
  · have pairs := base.dis.flightApart
    rw [flight, Bag.pairwise_cons] at pairs
    exact (pairs.1 x flying).symm

/-- No INT3 target lies in the range of a standing hook. -/
theorem standing_traps (base : Base v) {h : InlineHook} (standing : h ∈ v.standing) {t : Int3Hook}
    (trap : t ∈ v.traps) : ¬ InRange h.target h.stolenLen t.target := by
  obtain ⟨slot, target⟩ := base.dis.slots t trap
  have nonnull := (base.shapes.traps t trap).1
  rw [← target] at nonnull ⊢
  rcases View.mem_standing.1 standing with ⟨mem, published⟩ | mem
  · have registered := base.dis.registered h (View.mem_installed_of_objs mem published)
    exact (base.dis.armed t.slot slot nonnull).1 _ registered
  · exact (base.dis.armed t.slot slot nonnull).2 h mem

/-- The gateway a standing hook is chained on is kept. -/
theorem standing_home (base : Base v) {h : InlineHook} (standing : h ∈ v.standing)
    (kind : h.targetKind = .managedGateway) : ∃ r, r.base = h.target ∧ 0 < v.keeps r := by
  rcases View.mem_standing.1 standing with ⟨mem, published⟩ | mem
  · exact base.chained_home (View.mem_installed_of_objs mem published) kind
  · exact (base.gate.flightOwner h mem kind).home

/-- A stub that a standing hook is not chained on is apart from its range. -/
theorem standing_apart_stub (base : Base v) {foreign : List Region}
    (sited : Sited foreign (OwnCode foreign) v) {h : InlineHook} (standing : h ∈ v.standing)
    {r : Region} (size : 0 < r.size) (stub : ∀ f ∈ foreign, r.Apart f)
    (other : h.targetKind = .managedGateway →
      ∀ r' ∈ v.code.allocs, 0 < v.keeps r' → r'.base = h.target → r.Apart r') :
    Apart h.target h.stolenLen r.base r.mapped := by
  have shaped := base.shapes.standing_shaped standing
  have keeper : h ∈ v.keepers := by
    rcases View.mem_standing.1 standing with ⟨mem, -⟩ | mem
    · exact View.mem_keepers.2 (.inl mem)
    · exact View.mem_keepers.2 (.inr (.inl mem))
  apply ByteMap.Apart.symm
  cases kind : h.targetKind with
  | normal => exact (sited.hooks h keeper kind).apart shaped.stolenLen_pos size stub
  | managedGateway =>
    obtain ⟨r', home, kept⟩ := base.standing_home standing kind
    have there := (base.own.keeps_alone kept).1
    have page := Region.page_le_mapped (base.own.real r' there).2
    have len := shaped.gateway kind
    unfold pageSize at page
    unfold managedGatewayLen at len
    refine (other kind r' there kept home).mono le_rfl le_rfl ?_ ?_
    · omega
    · omega

/-- A stub is apart from a standing hook that is not chained on it. -/
theorem standing_apart_of_ne (base : Base v) {foreign : List Region}
    (sited : Sited foreign (OwnCode foreign) v) {h : InlineHook} (standing : h ∈ v.standing)
    {r : Region} (there : r ∈ v.code.allocs)
    (elsewhere : h.targetKind = .managedGateway → h.target ≠ r.base) :
    Apart h.target h.stolenLen r.base r.mapped := by
  have symm : Std.Symm Region.Apart := ⟨fun _ _ h => h.symm⟩
  refine base.standing_apart_stub sited standing (base.own.real r there).2 (sited.stubs r there) ?_
  intro kind r' mem _ home
  refine base.own.apart.forall there mem ?_
  rintro rfl
  exact elsewhere kind home.symm

end Base

/-! ### The invariant -/

/-- Nothing is left behind, a stub takes one page, and INT3 hooks stand on code of the process, at
most one on an address. -/
structure Placed (foreign : List Region) (v : View) : Prop where
  kept : v.stranded = 0
  born : ∀ r ∈ v.code.allocs, 0 < v.code.births r.base ∧ r.mapped ≤ pageSize
  traps : ∀ t ∈ v.traps, ∃ f ∈ foreign, f.Covers t.target
  targets : v.traps.Pairwise fun a b => a.target ≠ b.target

/-- The code bytes are the patches laid over a ground that is pristine outside the stubs and that
holds the bytes saved for every range. -/
structure Laid (pristine ground : ℕ → UInt8) (v : View) : Prop where
  overlaid : Overlaid ground (overlays v.keepers v.traps) v.code.mem
  outside : ∀ x, ¬ v.code.StubByte x → ground x = pristine x
  saved : ∀ h ∈ v.standing, h.origBytes = read ground h.target h.stolenLen
  found : ∀ h ∈ v.keepers, h.origBytes = h.found
  traps : ∀ t ∈ v.traps, t.originalByte = ground t.target
  queued : ∀ d ∈ v.pend, d.origBytes = read ground d.target d.stolenLen

/-- Rules under which what is written back is what was found. -/
def Rules.restoring (foreign : List Region) : Rules where
  birth _ _ := True
  write ds _ _ a n := n ≤ pageSize ∧ ∀ d ∈ ds, Apart a n d.target d.stolenLen
  queue _ d := d.targetKind = .normal → OwnCode foreign d.target d.stolenLen
  strand _ := False
  detach _ _ := True
  scar := False
  readd _ := True
  exports := False
  trap a := ∃ f ∈ foreign, f.Covers a
  birth_of_idle _ := trivial
  write_of_exports exports := exports.elim
  write_sub := fun ⟨small, apart⟩ low high =>
    ⟨by omega, fun d mem => (apart d mem).mono low high le_rfl le_rfl⟩

namespace Placed

variable {foreign : List Region} {v v' : View}

theorem same (placed : Placed foreign v) (stranded : v'.stranded = v.stranded)
    (allocs : v'.code.allocs = v.code.allocs) (births : v'.code.births = v.code.births)
    (traps : v'.traps = v.traps) : Placed foreign v' := by
  refine ⟨?_, ?_, ?_, ?_⟩
  · rw [stranded]
    exact placed.kept
  · rw [allocs, births]
    exact placed.born
  · rw [traps]
    exact placed.traps
  · rw [traps]
    exact placed.targets

instance : Std.Symm fun a b : Int3Hook => a.target ≠ b.target := ⟨fun _ _ => Ne.symm⟩

theorem arm (placed : Placed foreign v) (base : Base v) {target detour slot : ℕ} {c : Code}
    {gateway : Option Trampoline} {byte : UInt8} (allocs : c.allocs = v.code.allocs)
    (births : c.births = v.code.births) (clear : v.code.overlapsLivePatch target 1 = false)
    (own : ∃ f ∈ foreign, f.Covers target) :
    Placed foreign { v with
      code := c, traps := ⟨target, detour, byte, slot, true, gateway⟩ ::ₘ v.traps } := by
  have unarmed := Code.armedInRange_eq_false.1 (Code.overlapsLivePatch_eq_false.1 clear).1
  refine ⟨placed.kept, ?_, ?_, ?_⟩
  · change ∀ r ∈ c.allocs, 0 < c.births r.base ∧ r.mapped ≤ pageSize
    rw [allocs, births]
    exact placed.born
  · intro t mem
    rcases Multiset.mem_cons.1 mem with rfl | mem
    · exact own
    · exact placed.traps t mem
  · apply Bag.pairwise_cons.2
    refine ⟨fun t mem same => ?_, placed.targets⟩
    obtain ⟨slot, armed⟩ := base.dis.slots t mem
    have nonnull := (base.shapes.traps t mem).1
    refine unarmed t.slot slot (armed.symm ▸ nonnull) ?_
    rw [armed, ← same]
    exact inRange_self Nat.one_pos

theorem move (m : Move (Rules.restoring foreign) foreign v v') (base : Base v)
    (placed : Placed foreign v) : Placed foreign v' := by
  cases m with
  | @allocate r free quiet birth write =>
    refine ⟨placed.kept, fun r' mem => ?_, placed.traps, placed.targets⟩
    change 0 < Function.update v.code.births r.base (v.code.births r.base + 1) r'.base ∧ _
    rcases List.mem_cons.1 mem with rfl | mem
    · rw [Function.update_self]
      exact ⟨Nat.succ_pos _, write.1⟩
    · obtain ⟨old, small⟩ := placed.born r' mem
      refine ⟨?_, small⟩
      by_cases here : r'.base = r.base
      · rw [here, Function.update_self]
        exact Nat.succ_pos _
      · rw [Function.update_of_ne here]
        exact old
  | fill | unwind | queue | patch | undo | restore | enable | handler =>
    exact placed.same rfl rfl rfl rfl
  | @discard r rest held =>
    have memory := Code.retire_sameMemory v.code r
    exact placed.same rfl memory.allocs memory.births rfl
  | @giveUp d rest pending =>
    have memory := Code.dropTrampoline_sameMemory v.code d.trampoline
    exact placed.same rfl memory.allocs memory.births rfl
  | @publish h rest flight =>
    have memory := publishInline_sameMemory v.code h
    exact placed.same rfl memory.allocs memory.births rfl
  | @unravel h rest flight off =>
    have memory := InlineHook.dispose_sameMemory v.code h
    exact placed.same rfl memory.allocs memory.births rfl
  | strandFlight flight rule => exact rule.elim
  | @detach h rest objs quiet off rule =>
    have memory := InlineHook.release_sameMemory v.code h
    exact placed.same rfl memory.allocs memory.births rfl
  | @remove h rest objs quiet off =>
    have memory := (InlineHook.release_sameMemory v.code h).trans
      (InlineHook.dispose_sameMemory _ h)
    exact placed.same rfl memory.allocs memory.births rfl
  | strand objs active rule => exact rule.elim
  | arm quiet nonnull clear slot_eq rule => exact placed.arm base rfl rfl clear rule
  | @disarm t rest traps =>
    refine ⟨placed.kept, placed.born, fun t' mem => ?_, ?_⟩
    · exact placed.traps t' (traps ▸ Multiset.mem_cons_of_mem mem)
    · have pairs := placed.targets
      rw [traps, Bag.pairwise_cons] at pairs
      exact pairs.2
  | scar traps rule => exact rule.elim
  | beginPass =>
    refine placed.same rfl ?_ (Marked.beginPass_jumps v.code).2 rfl
    unfold Code.beginPass
    split_ifs <;> rfl
  | freeRegions pass split =>
    exact ⟨placed.kept, fun r mem => placed.born r (List.diff_subset _ _ mem), placed.traps,
      placed.targets⟩
  | @settlePass addOk rule =>
    refine placed.same rfl ?_ (Marked.settlePass_jumps v.code addOk).2 rfl
    unfold Code.settlePass
    split <;> rfl

end Placed

/-! ### Code bytes, move by move -/

namespace InlineHook

/-- The two hooks have the same range and the same saved bytes. -/
def Twin (h h' : InlineHook) : Prop :=
  h.target = h'.target ∧ h.stolenLen = h'.stolenLen ∧ h.origBytes = h'.origBytes ∧
    h.found = h'.found

theorem Twin.refl (h : InlineHook) : h.Twin h := ⟨rfl, rfl, rfl, rfl⟩

end InlineHook

/-- The ground changes only in stubs under construction. -/
def View.KeepsGround (v : View) (ground ground' : ℕ → UInt8) : Prop :=
  ∀ r ∈ v.code.allocs, r ∉ v.held → ∀ x, r.Covers x → ground' x = ground x

namespace Laid

variable {pristine ground : ℕ → UInt8} {foreign : List Region} {v v' : View}

/-- A move that writes no code. -/
theorem same (laid : Laid pristine ground v) (mem : v'.code.mem = v.code.mem)
    (births : v'.code.births = v.code.births)
    (patches : overlays v'.keepers v'.traps = overlays v.keepers v.traps)
    (standing : ∀ h ∈ v'.standing, ∃ h' ∈ v.standing, h'.Twin h)
    (keepers : ∀ h ∈ v'.keepers, ∃ h' ∈ v.keepers, h'.Twin h) (traps : v'.traps = v.traps)
    (pend : v'.pend ⊆ v.pend) : Laid pristine ground v' := by
  refine ⟨?_, fun x stub => ?_, fun h there => ?_, fun h there => ?_, ?_,
    fun d there => laid.queued d (pend there)⟩
  · rw [patches, mem]
    exact laid.overlaid
  · apply laid.outside
    unfold Code.StubByte at stub ⊢
    rwa [← births]
  · obtain ⟨h', there', target, len, orig, -⟩ := standing h there
    rw [← orig, ← target, ← len]
    exact laid.saved h' there'
  · obtain ⟨h', there', -, -, orig, found⟩ := keepers h there
    rw [← orig, ← found]
    exact laid.found h' there'
  · rw [traps]
    exact laid.traps

/-- The bytes of a stub are written. -/
theorem reground (laid : Laid pristine ground v) (base : Base v) (placed : Placed foreign v)
    {ground' : ℕ → UInt8} {c : Code} {held : Multiset Region} {a n : ℕ}
    (hooks : ∀ h ∈ v.standing, Apart h.target h.stolenLen a n)
    (traps : ∀ t ∈ v.traps, ¬ InRange a n t.target)
    (pend : ∀ d ∈ v.pend, Apart a n d.target d.stolenLen)
    (inside : ∀ x, InRange a n x → c.mem x = ground' x ∧ c.StubByte x)
    (outside : ∀ x, ¬ InRange a n x → c.mem x = v.code.mem x ∧ ground' x = ground x)
    (grows : ∀ x, v.code.StubByte x → c.StubByte x) :
    Laid pristine ground' { v with code := c, held := held } := by
  have clear : ∀ p ∈ overlays v.keepers v.traps, p.Clear a n := by
    apply overlays_clear _ traps
    intro h mem on
    have standing := base.shapes.standing_of_enabled placed.kept mem on
    exact ⟨base.shapes.standing_shaped standing, hooks h standing⟩
  have away : ∀ {b k}, Apart b k a n → read ground' b k = read ground b k := by
    intro b k apart
    apply read_congr
    intro x there
    exact (outside x (apart.notMem there)).2
  refine ⟨laid.overlaid.rebase clear (fun x there => (inside x there).1) outside,
    fun x stub => ?_, fun h there => ?_, laid.found, fun t there => ?_, fun d there => ?_⟩
  · by_cases here : InRange a n x
    · exact absurd (inside x here).2 stub
    · rw [(outside x here).2]
      exact laid.outside x fun old => stub (grows x old)
  · rw [away (hooks h there)]
    exact laid.saved h there
  · rw [(outside _ (traps t there)).2]
    exact laid.traps t there
  · rw [away (pend d there).symm]
    exact laid.queued d there

/-- A stub that no standing hook is chained on is clear of hooks and breakpoints. -/
theorem stub_clear (base : Base v) (sited : Sited foreign (OwnCode foreign) v)
    (placed : Placed foreign v) {r : Region} (size : 0 < r.size) (stub : ∀ f ∈ foreign, r.Apart f)
    (other : ∀ r' ∈ v.code.allocs, 0 < v.keeps r' → r.Apart r') :
    (∀ h ∈ v.standing, Apart h.target h.stolenLen r.base r.mapped) ∧
      ∀ t ∈ v.traps, ¬ r.Covers t.target := by
  constructor
  · intro h standing
    exact base.standing_apart_stub sited standing size stub fun _ r' there kept _ =>
      other r' there kept
  · intro t trap covered
    obtain ⟨f, mem, own⟩ := placed.traps t trap
    exact ByteMap.Apart.notMem (stub f mem) covered own

theorem allocate (laid : Laid pristine ground v) (base : Base v)
    (sited : Sited foreign (OwnCode foreign) v) (placed : Placed foreign v) {r : Region}
    (free : v.code.Free foreign r)
    (write : r.mapped ≤ pageSize ∧ ∀ d ∈ v.pend, Apart r.base r.mapped d.target d.stolenLen) :
    Laid pristine (fun x => if r.Covers x then 0 else ground x)
      { v with code := v.code.allocate r, held := r ::ₘ v.held } := by
  obtain ⟨-, size, -, stubs, own⟩ := free
  obtain ⟨hooks, traps⟩ := stub_clear base sited placed size own fun r' there _ => stubs r' there
  refine laid.reground base placed hooks traps write.2 (fun x inside => ⟨?_, ?_⟩)
    (fun x outside => ⟨?_, ?_⟩) fun x old => ?_
  · have covered : r.Covers x := inside
    change (if r.Covers x then 0 else v.code.mem x) = if r.Covers x then 0 else ground x
    rw [if_pos covered, if_pos covered]
  · refine ⟨r.base, ?_, inside.1, lt_of_lt_of_le inside.2 (Nat.add_le_add_left write.1 _)⟩
    rw [Marked.allocate_births, Function.update_self]
    exact Nat.succ_pos _
  · exact Code.allocate_mem_of_notMem outside
  · exact if_neg outside
  · obtain ⟨b, born, inside⟩ := old
    refine ⟨b, ?_, inside⟩
    rw [Marked.allocate_births]
    by_cases here : b = r.base
    · rw [here, Function.update_self]
      exact Nat.succ_pos _
    · rw [Function.update_of_ne here]
      exact born

theorem fill (laid : Laid pristine ground v) (base : Base v)
    (sited : Sited foreign (OwnCode foreign) v) (placed : Placed foreign v) {r : Region} {a : ℕ}
    {bs : List UInt8} (held : r ∈ v.held) (lo : r.base ≤ a) (hi : a + bs.length ≤ r.base + r.mapped)
    (pend : ∀ d ∈ v.pend, Apart a bs.length d.target d.stolenLen) :
    Laid pristine (write ground a bs) { v with code := v.code.store a bs none } := by
  have there := base.own.held_mem held
  obtain ⟨hooks, traps⟩ := stub_clear base sited placed (base.own.real r there).2
    (sited.stubs r there) fun r' mem kept => by
      have symm : Std.Symm Region.Apart := ⟨fun _ _ h => h.symm⟩
      refine base.own.apart.forall there mem ?_
      rintro rfl
      exact (base.own.keeps_alone kept).2.1 held
  obtain ⟨born, small⟩ := placed.born r there
  refine laid.reground base placed (fun h standing => ?_) (fun t trap inside => ?_) pend
    (fun x inside => ⟨?_, ?_⟩) (fun x outside => ⟨?_, ?_⟩) fun x old => old
  · exact (hooks h standing).mono le_rfl le_rfl lo hi
  · exact traps t trap (inRange_of_sub lo hi inside)
  · exact (write_of_mem inside).trans (write_of_mem inside).symm
  · have page := inRange_of_sub lo hi inside
    exact ⟨r.base, born, page.1, lt_of_lt_of_le page.2 (Nat.add_le_add_left small _)⟩
  · exact write_of_notMem outside
  · exact write_of_notMem outside

/-! #### Queueing -/

/-- A range that a new hook may take holds the ground. -/
theorem read_clear (laid : Laid pristine ground v) (base : Base v) (placed : Placed foreign v)
    {a n : ℕ} (clear : v.code.overlapsLivePatch a n = false)
    (flight : ∀ h ∈ v.flight, Apart h.target h.stolenLen a n) :
    (∀ p ∈ overlays v.keepers v.traps, p.Clear a n) ∧ read v.code.mem a n = read ground a n := by
  obtain ⟨unarmed, patches⟩ := Code.overlapsLivePatch_eq_false.1 clear
  have clear : ∀ p ∈ overlays v.keepers v.traps, p.Clear a n := by
    apply overlays_clear
    · intro h mem on
      have standing := base.shapes.standing_of_enabled placed.kept mem on
      refine ⟨base.shapes.standing_shaped standing, ?_⟩
      rcases View.mem_standing.1 standing with ⟨obj, published⟩ | flying
      · exact patches _ (base.dis.registered h (View.mem_installed_of_objs obj published))
      · exact flight h flying
    · intro t trap
      obtain ⟨slot, target⟩ := base.dis.slots t trap
      have nonnull := (base.shapes.traps t trap).1
      rw [← target] at nonnull ⊢
      exact Code.armedInRange_eq_false.1 unarmed t.slot slot nonnull
  exact ⟨clear, laid.overlaid.read_bare clear⟩

/-- A gateway that is offered for chaining holds the ground. -/
theorem read_gateway (laid : Laid pristine ground v) (base : Base v)
    (sited : Sited foreign (OwnCode foreign) v) (placed : Placed foreign v) (quiet : v.flight = 0)
    {g : ℕ} (managed : g ∈ v.code.managedGateways) (unchained : v.code.chainedGateways g = none) :
    read v.code.mem g managedGatewayLen = read ground g managedGatewayLen := by
  obtain ⟨r, home, kept⟩ := (base.gate.managed managed).home
  have there := (base.own.keeps_alone kept).1
  have size := (base.own.real r there).2
  have page := Region.page_le_mapped size
  have inside : g + managedGatewayLen ≤ r.base + r.mapped := by
    unfold pageSize at page
    unfold managedGatewayLen
    omega
  apply laid.overlaid.read_bare
  apply overlays_clear
  · intro h mem on
    have standing := base.shapes.standing_of_enabled placed.kept mem on
    refine ⟨base.shapes.standing_shaped standing, ?_⟩
    -- a hook chained on the gateway itself would be counted by its entry
    have elsewhere : h.targetKind = .managedGateway → h.target ≠ g := by
      rintro kind rfl
      rcases View.mem_standing.1 standing with ⟨obj, published⟩ | flying
      · have depends : 0 < v.dependents h.target :=
          Multiset.countP_pos.2 ⟨h, View.mem_installed_of_objs obj published, kind, rfl⟩
        have := base.gate.free unchained
        omega
      · rw [quiet] at flying
        cases flying
    refine (base.standing_apart_of_ne sited standing there ?_).mono le_rfl le_rfl home.le inside
    intro kind
    rw [home]
    exact elsewhere kind
  · intro t trap covered
    obtain ⟨f, mem, own⟩ := placed.traps t trap
    exact ByteMap.Apart.notMem (sited.stubs r there f mem) (inRange_of_sub home.le inside covered) own

/-! #### Hooks -/

theorem queue (laid : Laid pristine ground v) (base : Base v)
    (sited : Sited foreign (OwnCode foreign) v) (placed : Placed foreign v) (quiet : v.flight = 0)
    {d : InlineData} {rest : Multiset Region} (queued : d.Queued v.code) :
    Laid pristine ground { v with pend := d ::ₘ v.pend, held := rest } := by
  refine ⟨laid.overlaid, laid.outside, laid.saved, laid.found, laid.traps, fun x mem => ?_⟩
  rcases Multiset.mem_cons.1 mem with rfl | mem
  · rw [queued.captured]
    cases kind : x.targetKind with
    | normal =>
      refine (laid.read_clear base placed (queued.normal kind).1 fun h flying => ?_).2
      rw [quiet] at flying
      cases flying
    | managedGateway =>
      obtain ⟨len, managed, unchained, -⟩ := queued.gateway kind
      rw [len]
      exact laid.read_gateway base sited placed quiet managed unchained
  · exact laid.queued x mem

theorem patch (laid : Laid pristine ground v) (base : Base v) (placed : Placed foreign v)
    {d : InlineData} {rest : Multiset InlineData} {bytes : List UInt8} {mark : Option JumpMark}
    (pending : v.pend = d ::ₘ rest)
    (encoded : inlinePatchBytes d.target d.detour d.jumpType d.stolenLen = .ok bytes)
    (clear : v.code.overlapsLivePatch d.target d.stolenLen = false)
    (apart : ∀ h ∈ v.flight, Apart h.target h.stolenLen d.target d.stolenLen) :
    Laid pristine ground { v with
      code := v.code.store d.target bytes mark
      pend := rest
      flight := d.install v.code bytes ::ₘ v.flight } := by
  obtain ⟨free, bare⟩ := laid.read_clear base placed clear apart
  have saved := laid.queued d (pending ▸ Multiset.mem_cons_self _ _)
  have len := length_inlinePatchBytes encoded
  have keepers : View.keepers { v with
      code := v.code.store d.target bytes mark
      pend := rest
      flight := d.install v.code bytes ::ₘ v.flight } = d.install v.code bytes ::ₘ v.keepers :=
    View.keepers_flight rfl
  refine ⟨?_, laid.outside, fun h mem => ?_, fun h mem => ?_, laid.traps, fun x mem => ?_⟩
  · rw [keepers]
    change Overlaid ground (overlays (d.install v.code bytes ::ₘ v.keepers) v.traps) _
    rw [overlays_on rfl]
    refine @Overlaid.insert ground v.code.mem (d.install v.code bytes).laid _ laid.overlaid ?_
    intro p there
    change p.Clear d.target bytes.length
    rw [len]
    exact free p there
  · rcases View.mem_standing.1 mem with ⟨obj, published⟩ | flying
    · exact laid.saved h (View.mem_standing.2 (.inl ⟨obj, published⟩))
    · rcases Multiset.mem_cons.1 flying with rfl | flying
      · exact saved
      · exact laid.saved h (View.mem_standing.2 (.inr flying))
  · rw [keepers] at mem
    rcases Multiset.mem_cons.1 mem with rfl | mem
    · exact saved.trans bare.symm
    · exact laid.found h mem
  · exact laid.queued x (pending ▸ Multiset.mem_cons_of_mem mem)

/-- A hook's jump is taken out, if it is there. -/
theorem takeOut (laid : Laid pristine ground v) (base : Base v) (placed : Placed foreign v)
    {h : InlineHook} {rest : Multiset InlineHook} (standing : h ∈ v.standing)
    (before : v.keepers = h ::ₘ rest) (after : v'.keepers = h.disabled ::ₘ rest)
    (apart : ∀ x ∈ rest, x.enabled = true → Apart x.target x.stolenLen h.target h.stolenLen)
    (code : v'.code = v.code.store h.target h.origBytes none)
    (stands : ∀ x ∈ v'.standing, ∃ x' ∈ v.standing, x'.Twin x) (traps : v'.traps = v.traps)
    (pend : v'.pend = v.pend) : Laid pristine ground v' := by
  have shaped := base.shapes.standing_shaped standing
  have clear : ∀ p ∈ overlays rest v.traps, p.Clear h.target h.stolenLen := by
    apply overlays_clear
    · intro x mem on
      have keeper : x ∈ v.keepers := before ▸ Multiset.mem_cons_of_mem mem
      have there := base.shapes.standing_of_enabled placed.kept keeper on
      exact ⟨base.shapes.standing_shaped there, apart x mem on⟩
    · exact fun t trap => base.standing_traps standing trap
  have mem : v'.code.mem = write v.code.mem h.target (read ground h.target h.stolenLen) := by
    rw [code, ← laid.saved h standing]
    rfl
  have overlaid := laid.overlaid
  refine ⟨?_, fun x stub => ?_, fun x there => ?_, fun x there => ?_, ?_, ?_⟩
  · rw [after, traps, mem, overlays_off rfl]
    rw [before] at overlaid
    cases on : h.enabled with
    | false =>
      rw [overlays_off on] at overlaid
      exact overlaid.restore clear
    | true =>
      rw [overlays_on on] at overlaid
      rw [← shaped.patch] at clear ⊢
      exact overlaid.erase clear
  · apply laid.outside
    rw [code] at stub
    exact stub
  · obtain ⟨x', there', target, len, orig, -⟩ := stands x there
    rw [← orig, ← target, ← len]
    exact laid.saved x' there'
  · rw [after] at there
    rcases Multiset.mem_cons.1 there with rfl | there
    · exact laid.found h (before ▸ Multiset.mem_cons_self _ _)
    · exact laid.found x (before ▸ Multiset.mem_cons_of_mem there)
  · rw [traps]
    exact laid.traps
  · rw [pend]
    exact laid.queued

/-- A hook's jump is put back. -/
theorem enable (laid : Laid pristine ground v) (base : Base v) (placed : Placed foreign v)
    {h : InlineHook} {rest : Multiset InlineHook} (objs : v.objs = h ::ₘ rest)
    (published : h.published = true) (off : h.enabled = false) {mark : Option JumpMark} :
    Laid pristine ground { v with
      code := v.code.store h.target h.patchBytes mark, objs := h.reenabled ::ₘ rest } := by
  have mem : h ∈ v.objs := objs ▸ Multiset.mem_cons_self _ _
  have standing : h ∈ v.standing := View.mem_standing.2 (.inl ⟨mem, published⟩)
  have shaped := base.shapes.standing_shaped standing
  have before := View.keepers_objs objs
  have after : View.keepers { v with
      code := v.code.store h.target h.patchBytes mark, objs := h.reenabled ::ₘ rest } =
      h.reenabled ::ₘ (rest + (v.flight + v.stranded)) := View.keepers_objs rfl
  have clear : ∀ p ∈ overlays (rest + (v.flight + v.stranded)) v.traps,
      p.Clear h.target h.patchBytes.length := by
    rw [shaped.patch]
    apply overlays_clear
    · intro x mem on
      have keeper : x ∈ v.keepers := before ▸ Multiset.mem_cons_of_mem mem
      have there := base.shapes.standing_of_enabled placed.kept keeper on
      refine ⟨base.shapes.standing_shaped there, ?_⟩
      apply base.objs_apart objs published
      rcases Multiset.mem_add.1 mem with mem | mem
      · obtain ⟨-, same, active⟩ := base.shapes.objs x (objs ▸ Multiset.mem_cons_of_mem mem)
        exact .inl ⟨mem, same.symm.trans (active on)⟩
      · rw [placed.kept, Multiset.add_zero] at mem
        exact .inr mem
    · exact fun t trap => base.standing_traps standing trap
  refine ⟨?_, laid.outside, fun x there => ?_, fun x there => ?_, laid.traps, laid.queued⟩
  · rw [after]
    change Overlaid ground (overlays (h.reenabled ::ₘ (rest + (v.flight + v.stranded))) v.traps) _
    rw [overlays_on rfl]
    have overlaid := laid.overlaid
    rw [before, overlays_off off] at overlaid
    exact @Overlaid.insert ground v.code.mem h.reenabled.laid _ overlaid clear
  · rcases View.mem_standing.1 there with ⟨obj, pub⟩ | flying
    · rcases Multiset.mem_cons.1 obj with rfl | obj
      · exact laid.saved h standing
      · exact laid.saved x (View.mem_standing.2 (.inl ⟨objs ▸ Multiset.mem_cons_of_mem obj, pub⟩))
    · exact laid.saved x (View.mem_standing.2 (.inr flying))
  · rw [after] at there
    rcases Multiset.mem_cons.1 there with rfl | there
    · exact laid.found h (before ▸ Multiset.mem_cons_self _ _)
    · exact laid.found x (before ▸ Multiset.mem_cons_of_mem there)

/-! #### Breakpoints -/

theorem arm (laid : Laid pristine ground v) (base : Base v) (placed : Placed foreign v)
    (quiet : v.flight = 0) {target detour slot : ℕ} {gateway : Option Trampoline}
    (clear : v.code.overlapsLivePatch target 1 = false) :
    Laid pristine ground { v with
      code := (v.code.setSlot slot target detour).store target [int3Opcode] none
      traps := ⟨target, detour, v.code.mem target, slot, true, gateway⟩ ::ₘ v.traps } := by
  have still : ∀ h ∈ v.flight, Apart h.target h.stolenLen target 1 := by
    intro h flying
    rw [quiet] at flying
    cases flying
  obtain ⟨free, -⟩ := laid.read_clear base placed clear still
  refine ⟨?_, laid.outside, laid.saved, laid.found, fun t mem => ?_, laid.queued⟩
  · change Overlaid ground (overlays v.keepers (_ ::ₘ v.traps)) _
    rw [overlays_trap]
    exact @Overlaid.insert ground v.code.mem ⟨target, [int3Opcode]⟩ _ laid.overlaid free
  · rcases Multiset.mem_cons.1 mem with rfl | mem
    · apply laid.overlaid.bare
      intro p there
      exact (free p there).not_covers (inRange_self Nat.one_pos)
    · exact laid.traps t mem

theorem disarm (laid : Laid pristine ground v) (base : Base v) (placed : Placed foreign v)
    {t : Int3Hook} {rest : Multiset Int3Hook} (traps : v.traps = t ::ₘ rest) :
    Laid pristine ground { v with
      code := (v.code.store t.target [t.originalByte] none).setSlot t.slot 0 0, traps := rest } := by
  have trap : t ∈ v.traps := traps ▸ Multiset.mem_cons_self _ _
  have clear : ∀ p ∈ overlays v.keepers rest, p.Clear t.target 1 := by
    apply overlays_clear
    · intro h mem on
      have standing := base.shapes.standing_of_enabled placed.kept mem on
      refine ⟨base.shapes.standing_shaped standing, ?_⟩
      have outside := base.standing_traps standing trap
      unfold InRange at outside
      unfold Apart
      omega
    · intro t' mem inside
      have pairs := placed.targets
      rw [traps, Bag.pairwise_cons] at pairs
      have low := inside.1
      have high := inside.2
      exact pairs.1 t' mem (by omega)
  have byte : read ground t.target 1 = [t.originalByte] := by
    rw [laid.traps t trap]
    rfl
  have overlaid := laid.overlaid
  rw [traps, overlays_trap] at overlaid
  have restored := overlaid.erase clear
  change Overlaid ground (overlays v.keepers rest)
    (write v.code.mem t.target (read ground t.target 1)) at restored
  rw [byte] at restored
  exact ⟨restored, laid.outside, laid.saved, laid.found,
    fun t' mem => laid.traps t' (traps ▸ Multiset.mem_cons_of_mem mem), laid.queued⟩

/-! #### Every move -/

/-- A move that leaves hooks and breakpoints alone. -/
theorem stay (laid : Laid pristine ground v) (mem : v'.code.mem = v.code.mem)
    (births : v'.code.births = v.code.births) (standing : v'.standing = v.standing)
    (keepers : v'.keepers = v.keepers) (traps : v'.traps = v.traps) (pend : v'.pend ⊆ v.pend) :
    Laid pristine ground v' := by
  apply laid.same mem births _ _ _ traps pend
  · rw [keepers, traps]
  · intro h there
    exact ⟨h, standing ▸ there, .refl h⟩
  · intro h there
    exact ⟨h, keepers ▸ there, .refl h⟩

/-- A hook takes other flags. -/
theorem flag (laid : Laid pristine ground v) {h h' : InlineHook} {rest : Multiset InlineHook}
    (before : v.keepers = h ::ₘ rest) (after : v'.keepers = h' ::ₘ rest) (twin : h.Twin h')
    (enabled : h'.enabled = h.enabled) (patch : h'.patchBytes = h.patchBytes)
    (memory : Code.SameMemory v.code v'.code)
    (standing : ∀ x ∈ v'.standing, ∃ x' ∈ v.standing, x'.Twin x) (traps : v'.traps = v.traps)
    (pend : v'.pend = v.pend) : Laid pristine ground v' := by
  have patches : h'.laid = h.laid := by
    unfold InlineHook.laid
    rw [patch, twin.1]
  apply laid.same memory.mem memory.births _ standing _ traps
  · rw [pend]
    exact Multiset.Subset.refl _
  · rw [before, after, traps]
    cases on : h.enabled with
    | false => rw [overlays_off on, overlays_off (enabled.trans on)]
    | true => rw [overlays_on on, overlays_on (enabled.trans on), patches]
  · intro x there
    rw [after] at there
    rcases Multiset.mem_cons.1 there with rfl | there
    · exact ⟨h, before ▸ Multiset.mem_cons_self _ _, twin⟩
    · exact ⟨x, before ▸ Multiset.mem_cons_of_mem there, .refl x⟩

/-- A disabled hook goes. -/
theorem leave (laid : Laid pristine ground v) {h : InlineHook} {rest : Multiset InlineHook}
    (off : h.enabled = false) (before : v.keepers = h ::ₘ rest) (after : v'.keepers = rest)
    (memory : Code.SameMemory v.code v'.code)
    (standing : ∀ x ∈ v'.standing, x ∈ v.standing) (traps : v'.traps = v.traps)
    (pend : v'.pend = v.pend) : Laid pristine ground v' := by
  apply laid.same memory.mem memory.births _ _ _ traps
  · rw [pend]
    exact Multiset.Subset.refl _
  · rw [before, after, traps, overlays_off off]
  · intro x there
    exact ⟨x, standing x there, .refl x⟩
  · intro x there
    rw [after] at there
    exact ⟨x, before ▸ Multiset.mem_cons_of_mem there, .refl x⟩

theorem move (m : Move (Rules.restoring foreign) foreign v v') (base : Base v)
    (sited : Sited foreign (OwnCode foreign) v) (placed : Placed foreign v)
    (laid : Laid pristine ground v) :
    ∃ ground', Laid pristine ground' v' ∧ v.KeepsGround ground ground' := by
  have whole : v.pend ⊆ v.pend := Multiset.Subset.refl _
  have still : Laid pristine ground v' →
      ∃ ground', Laid pristine ground' v' ∧ v.KeepsGround ground ground' :=
    fun laid' => ⟨ground, laid', fun _ _ _ _ _ => rfl⟩
  cases m with
  | allocate free quiet birth write =>
    refine ⟨_, laid.allocate base sited placed free write, fun r' there _ x inside => ?_⟩
    exact if_neg fun covered => ByteMap.Apart.notMem (free.2.2.2.1 r' there) covered inside
  | @fill r a bs held lo hi write =>
    refine ⟨_, laid.fill base sited placed held lo hi write.2, fun r' there away x inside => ?_⟩
    have symm : Std.Symm Region.Apart := ⟨fun _ _ h => h.symm⟩
    have apart : r.Apart r' := by
      refine base.own.apart.forall (base.own.held_mem held) there ?_
      rintro rfl
      exact away held
    exact write_of_notMem fun here =>
      ByteMap.Apart.notMem apart (inRange_of_sub lo hi here) inside
  | unwind | handler => exact still (laid.stay rfl rfl rfl rfl rfl whole)
  | queue quiet held queued rule => exact still (laid.queue base sited placed quiet queued)
  | @discard r rest held =>
    have memory := Code.retire_sameMemory v.code r
    exact still (laid.stay memory.mem memory.births rfl rfl rfl whole)
  | @giveUp d rest pending =>
    have memory := Code.dropTrampoline_sameMemory v.code d.trampoline
    refine still (laid.stay memory.mem memory.births rfl rfl rfl ?_)
    intro x there
    rw [pending]
    exact Multiset.mem_cons_of_mem there
  | patch pending target encoded clear apart owned =>
    exact still (laid.patch base placed pending encoded clear apart)
  | @publish h rest flight =>
    refine still (@flag pristine ground v _ laid h h.announced _ (View.keepers_flight flight) ?_
      (.refl h) rfl rfl (publishInline_sameMemory v.code h) (fun x there => ?_) rfl rfl)
    · unfold View.keepers
      rw [Multiset.cons_add]
    · rcases View.mem_standing.1 there with ⟨obj, published⟩ | flying
      · rcases Multiset.mem_cons.1 obj with rfl | obj
        · refine ⟨h, View.mem_standing.2 (.inr ?_), .refl h⟩
          rw [flight]
          exact Multiset.mem_cons_self _ _
        · exact ⟨x, View.mem_standing.2 (.inl ⟨obj, published⟩), .refl x⟩
      · refine ⟨x, View.mem_standing.2 (.inr ?_), .refl x⟩
        rw [flight]
        exact Multiset.mem_cons_of_mem flying
  | @undo h rest flight =>
    have mem : h ∈ v.flight := flight ▸ Multiset.mem_cons_self _ _
    refine still (laid.takeOut base placed (View.mem_standing.2 (.inr mem))
      (View.keepers_flight flight) (View.keepers_flight rfl) (fun x there on => ?_) rfl
      (fun x there => ?_) rfl rfl)
    · apply base.flight_apart flight
      rcases Multiset.mem_add.1 there with obj | there
      · obtain ⟨-, same, active⟩ := base.shapes.objs x obj
        exact .inl ⟨obj, same.symm.trans (active on)⟩
      · rw [placed.kept, Multiset.add_zero] at there
        exact .inr there
    · rcases View.mem_standing.1 there with ⟨obj, published⟩ | flying
      · exact ⟨x, View.mem_standing.2 (.inl ⟨obj, published⟩), .refl x⟩
      · rcases Multiset.mem_cons.1 flying with rfl | flying
        · exact ⟨h, View.mem_standing.2 (.inr mem), .refl h⟩
        · refine ⟨x, View.mem_standing.2 (.inr ?_), .refl x⟩
          rw [flight]
          exact Multiset.mem_cons_of_mem flying
  | @unravel h rest flight off =>
    refine still (laid.leave off (View.keepers_flight flight) rfl
      (InlineHook.dispose_sameMemory v.code h) (fun x there => ?_) rfl rfl)
    rcases View.mem_standing.1 there with obj | flying
    · exact View.mem_standing.2 (.inl obj)
    · refine View.mem_standing.2 (.inr ?_)
      rw [flight]
      exact Multiset.mem_cons_of_mem flying
  | strandFlight flight rule => exact rule.elim
  | @restore h rest objs active =>
    have mem : h ∈ v.objs := objs ▸ Multiset.mem_cons_self _ _
    have published : h.published = true := (base.shapes.objs h mem).2.1.symm.trans active
    refine still (laid.takeOut base placed (View.mem_standing.2 (.inl ⟨mem, published⟩))
      (View.keepers_objs objs) (View.keepers_objs rfl) (fun x there on => ?_) rfl
      (fun x there => ?_) rfl rfl)
    · apply base.objs_apart objs published
      rcases Multiset.mem_add.1 there with obj | there
      · obtain ⟨-, same, active⟩ := base.shapes.objs x (objs ▸ Multiset.mem_cons_of_mem obj)
        exact .inl ⟨obj, same.symm.trans (active on)⟩
      · rw [placed.kept, Multiset.add_zero] at there
        exact .inr there
    · rcases View.mem_standing.1 there with ⟨obj, pub⟩ | flying
      · rcases Multiset.mem_cons.1 obj with rfl | obj
        · exact ⟨h, View.mem_standing.2 (.inl ⟨mem, published⟩), .refl h⟩
        · refine ⟨x, View.mem_standing.2 (.inl ⟨?_, pub⟩), .refl x⟩
          rw [objs]
          exact Multiset.mem_cons_of_mem obj
      · exact ⟨x, View.mem_standing.2 (.inr flying), .refl x⟩
  | @enable h rest objs active off =>
    have mem : h ∈ v.objs := objs ▸ Multiset.mem_cons_self _ _
    have published : h.published = true := (base.shapes.objs h mem).2.1.symm.trans active
    exact still (laid.enable base placed objs published off)
  | @detach h rest objs quiet off rule =>
    have released := InlineHook.release_sameMemory v.code h
    have memory : Code.SameMemory v.code
        ((h.release v.code).1.unregisterManagedGateway h.trampoline.ptr) :=
      ⟨released.mem, released.allocs, released.int3, released.pass, released.tables,
        released.functionTables, released.births, released.freedLog, released.unwound,
        released.jumps⟩
    refine still (@flag pristine ground v _ laid h h.inert _ (View.keepers_objs objs)
      (View.keepers_objs rfl) (.refl h) off.symm rfl memory (fun x there => ?_) rfl rfl)
    rcases View.mem_standing.1 there with ⟨obj, published⟩ | flying
    · rcases Multiset.mem_cons.1 obj with rfl | obj
      · cases published
      · refine ⟨x, View.mem_standing.2 (.inl ⟨?_, published⟩), .refl x⟩
        rw [objs]
        exact Multiset.mem_cons_of_mem obj
    · exact ⟨x, View.mem_standing.2 (.inr flying), .refl x⟩
  | @remove h rest objs quiet off =>
    refine still (laid.leave off (View.keepers_objs objs) rfl
      ((InlineHook.release_sameMemory v.code h).trans (InlineHook.dispose_sameMemory _ h))
      (fun x there => ?_) rfl rfl)
    rcases View.mem_standing.1 there with ⟨obj, published⟩ | flying
    · refine View.mem_standing.2 (.inl ⟨?_, published⟩)
      rw [objs]
      exact Multiset.mem_cons_of_mem obj
    · exact View.mem_standing.2 (.inr flying)
  | strand objs active rule => exact rule.elim
  | arm quiet nonnull clear slot_eq rule => exact still (laid.arm base placed quiet clear)
  | disarm traps => exact still (laid.disarm base placed traps)
  | scar traps rule => exact rule.elim
  | beginPass =>
    refine still (laid.stay ?_ (Marked.beginPass_jumps v.code).2 rfl rfl rfl whole)
    unfold Code.beginPass
    split_ifs <;> rfl
  | freeRegions pass split => exact still (laid.stay rfl rfl rfl rfl rfl whole)
  | @settlePass addOk rule =>
    refine still (laid.stay ?_ (Marked.settlePass_jumps v.code addOk).2 rfl rfl rfl whole)
    unfold Code.settlePass
    split <;> rfl

end Laid

/-! ### Runs -/

/-- What holds of the code bytes when nobody but NeoHook writes code. -/
structure State.CodeIntact (pristine : ℕ → UInt8) (s : State) : Prop where
  outside : ∀ x, ¬ s.process.code.StubByte x →
    (∀ h ∈ s.hooks, h.enabled = true → ¬ InRange h.target h.stolenLen x) →
    (∀ t ∈ s.traps, t.target ≠ x) → s.process.code.mem x = pristine x
  patched : ∀ h ∈ s.hooks, h.enabled = true →
    read s.process.code.mem h.target h.stolenLen = h.patchBytes
  trapped : ∀ t ∈ s.traps, s.process.code.mem t.target = int3Opcode
  saved : ∀ h ∈ s.hooks, h.origBytes = h.found
  restored : s.hooks = 0 → s.traps = 0 →
    ∀ x, ¬ s.process.code.StubByte x → s.process.code.mem x = pristine x

/-- The stub that the call may build is apart from every range that is queued to be patched. -/
def State.BuildsClear (s : State) (stubAt : Option ℕ) : Prop :=
  ∀ a, stubAt = some a → ∀ d ∈ s.queued, Apart a pageSize d.target d.stolenLen

/-- A call that is not refused queues no export hook and takes code from the process, not from a stub,
unless it takes the gateway path; its writes that take out a hook or a breakpoint succeed, and it
builds no stub where a queued hook is to be patched. -/
def Op.RestoresCode (E : Env) (s : State) (op : Op) : Prop :=
  op.Acts E s → match op with
    | .queue _ (.attach target detour follow os) =>
      (takesGatewayPath s.process.code target follow = false →
        let target := resolveTarget s.process.code target follow os
        ∀ n, Disassembler.getInstructionLen E.codec (os.readableFrom target) s.process.code.mem target
          (selectJump target detour).size = some n → OwnCode E.foreign target n) ∧
      s.BuildsClear os.stubAt
    | .queue _ (.attachEat ..) => False
    -- only a commit that fails in its install loop drops hooks
    | .commit tx _ os threads => ∀ t, s.transaction tx = some t → ∀ w,
      failedWindow E.modules E.foreign t.pending os s.process threads = some w →
        ∀ i < w.installed.length, os.dropOk i = true
    | .unhook place ok dropOk _ => ∀ h, s.process.hookAt place = some (.inline h) → h.active = true →
      ok = true ∨ dropOk = true
    | .drop place ok _ => ∀ h, s.process.hookAt place = some (.inline h) → h.active = true → ok = true
    | .int3Install target _ gateway os =>
      (Int3Hook.Arms s.process.code target os → ∃ f ∈ E.foreign, f.Covers target) ∧
      s.BuildsClear (gateway.bind fun g => originalGatewayAt E.codec s.process.code target g.1)
    | .int3Drop _ os => os.writeOk = true
    | _ => True

theorem Op.RestoresCode.grants {E : Env} {s : State} {op : Op} (restores : op.RestoresCode E s) :
    (Rules.restoring E.foreign).Grants E s op := by
  have stub : ∀ {at_}, s.BuildsClear at_ → (Rules.restoring E.foreign).GrantsStub
      s.process.code.pass s.queued s.hooks s.traps at_ := fun clear =>
    ⟨fun _ _ => trivial, fun at_ => ⟨le_rfl, clear _ at_⟩⟩
  intro acts
  have meets := restores acts
  cases op with
  | queue tx r =>
    cases r with
    | attach target detour follow os =>
      refine ⟨stub meets.2, fun _ {_ d} _ _ _ kind _ _ normal => ?_,
        fun path {_ d} queued _ resolved goes measured _ => ?_⟩
      · rw [kind] at normal
        cases normal
      · rw [queued.jump, goes, resolved] at measured
        rw [resolved]
        exact meets.1 path d.stolenLen measured
    | attachEat => exact meets
    | attachIat | attachVtable | attachVtableInstance | detach => trivial
  | commit tx ffi os threads =>
    refine fun t present => ⟨fun w failed i inside stuck _ _ _ => ?_, fun _ _ _ _ _ _ _ _ => trivial⟩
    rw [meets t present w failed i inside] at stuck
    cases stuck
  | unhook place ok dropOk retargetOk =>
    intro h here active first second
    rcases meets h here active with fine | fine
    · rw [first] at fine
      cases fine
    · rw [second] at fine
      cases fine
  | drop place ok retargetOk =>
    intro h here active stuck
    rw [meets h here active] at stuck
    cases stuck
  | int3Install target detour gateway os => exact ⟨meets.1, stub meets.2⟩
  | int3Drop hook os =>
    intro stuck
    rw [show os.writeOk = true from meets] at stuck
    cases stuck
  | begin | abort | enable | disable | beginPass | freeRegions | settlePass => trivial

/-- What the moves of such a run keep. -/
structure Restorable (foreign : List Region) (pristine : ℕ → UInt8) (v : View) : Prop where
  sited : Sited foreign (OwnCode foreign) v
  placed : Placed foreign v
  laid : ∃ ground, Laid pristine ground v

theorem Restorable.initial (foreign : List Region) (pristine : ℕ → UInt8) (tables : Tables) :
    Restorable foreign pristine (View.initial pristine tables) := by
  have noHook : ∀ h : InlineHook, h ∉ (View.initial pristine tables).keepers := by
    intro h mem
    rcases View.mem_keepers.1 mem with mem | mem | mem <;> cases mem
  refine ⟨Sited.initial foreign _ pristine tables, ⟨rfl, fun r mem => ?_, fun t mem => ?_, ?_⟩,
    pristine, ⟨?_, fun x _ => rfl, fun h mem => ?_, fun h mem => absurd mem (noHook h),
      fun t mem => ?_, fun d mem => ?_⟩⟩
  · cases mem
  · cases mem
  · exact ⟨[], rfl, .nil⟩
  · exact Overlaid.refl pristine
  · rcases View.mem_standing.1 mem with ⟨mem, -⟩ | mem <;> cases mem
  · cases mem
  · cases mem

theorem Restorable.move {foreign : List Region} {pristine : ℕ → UInt8} {v v' : View}
    (m : Move (Rules.restoring foreign) foreign v v') (base : Base v)
    (restorable : Restorable foreign pristine v) : Restorable foreign pristine v' := by
  obtain ⟨sited, placed, ground, laid⟩ := restorable
  obtain ⟨ground', laid', -⟩ := laid.move m base sited placed
  exact ⟨Sited.move (fun rule => rule) m sited, placed.move m base, ground', laid'⟩

/-- In every run that restores what it takes, the code bytes outside stubs are pristine but for the
enabled hooks and the breakpoints, and a hook has saved what its commit found. -/
theorem code_intact {E : Env} {pristine : ℕ → UInt8} {s : State}
    (run : State.Reachable E (fun s op => op.RestoresCode E s) pristine s) :
    s.CodeIntact pristine := by
  obtain ⟨v, sim, base, sited, placed, ground, laid⟩ := run.sim (R := Rules.restoring E.foreign)
    (fun restores => restores.grants) (Restorable.initial E.foreign pristine)
    fun m base restorable => Restorable.move m base restorable
  have code : v.code = s.process.code := sim.sees.code
  have traps : v.traps = s.traps := sim.sees.traps
  have flight : v.flight = 0 := sim.sees.flight
  have objs : v.objs = s.hooks := by
    rw [sim.sees.objs]
    exact Multiset.add_zero _
  have keepers : v.keepers = s.hooks := by
    unfold View.keepers
    rw [flight, placed.kept, objs, Multiset.add_zero, Multiset.add_zero]
  have overlaid := laid.overlaid
  rw [keepers, traps, code] at overlaid
  have shaped : ∀ h ∈ s.hooks, h.enabled = true → h.Shaped := fun h mem on =>
    base.shapes.standing_shaped
      (base.shapes.standing_of_enabled placed.kept (keepers.symm ▸ mem) on)
  have outside : ∀ x, ¬ s.process.code.StubByte x →
      (∀ h ∈ s.hooks, h.enabled = true → ¬ InRange h.target h.stolenLen x) →
      (∀ t ∈ s.traps, t.target ≠ x) → s.process.code.mem x = pristine x := by
    intro x stub hooks breakpoints
    rw [← laid.outside x (code.symm ▸ stub)]
    apply overlaid.bare
    intro p mem
    refine (overlays_clear (fun h mem on => ⟨shaped h mem on, ?_⟩) (fun t mem inside => ?_)
      p mem).not_covers (inRange_self Nat.one_pos)
    · have away := hooks h mem on
      unfold InRange at away
      unfold Apart
      omega
    · have low := inside.1
      have high := inside.2
      exact breakpoints t mem (by omega)
  refine ⟨outside, fun h mem on => ?_, fun t mem => ?_, fun h mem => ?_, fun hooks breakpoints x stub =>
    outside x stub ?_ ?_⟩
  · have patch : h.laid ∈ overlays s.hooks s.traps :=
      Multiset.mem_add.2 (.inl (Multiset.mem_map_of_mem _ (Multiset.mem_filter.2 ⟨mem, on⟩)))
    have holds := overlaid.patched _ patch
    change read _ h.target h.patchBytes.length = h.patchBytes at holds
    rwa [(shaped h mem on).patch] at holds
  · have patch : t.laid ∈ overlays s.hooks s.traps :=
      Multiset.mem_add.2 (.inr (Multiset.mem_map_of_mem _ mem))
    have holds := overlaid.patched _ patch
    change [s.process.code.mem t.target] = [int3Opcode] at holds
    exact List.head_eq_of_cons_eq holds
  · exact laid.found h (keepers.symm ▸ mem)
  · rw [hooks]
    intro h mem
    cases mem
  · rw [breakpoints]
    intro t mem
    cases mem

/-- No stub ever lay on memory of the process. -/
def Unstubbed (foreign : List Region) (v : View) : Prop :=
  ∀ x, v.code.StubByte x → ∀ f ∈ foreign, ¬ f.Covers x

theorem Unstubbed.same {foreign : List Region} {v v' : View} (clear : Unstubbed foreign v)
    (births : v'.code.births = v.code.births) : Unstubbed foreign v' := by
  intro x stub
  apply clear x
  unfold Code.StubByte at stub ⊢
  rwa [← births]

theorem Unstubbed.move {R : Rules} {foreign : List Region} {v v' : View} (m : Move R foreign v v')
    (clear : Unstubbed foreign v) : Unstubbed foreign v' := by
  cases m with
  | @allocate r free quiet birth write =>
    rintro x ⟨b, born, inside⟩ f mem
    change 0 < Function.update v.code.births r.base (v.code.births r.base + 1) b at born
    by_cases here : b = r.base
    · have size := Region.size_le_mapped r
      have page : pageSize ≤ r.mapped := by
        have positive := free.2.1
        unfold Region.mapped at size ⊢
        refine Nat.le_mul_of_pos_left _ (Nat.div_pos ?_ (by decide))
        omega
      refine ByteMap.Apart.notMem (free.2.2.2.2 f mem) (x := x) ⟨here ▸ inside.1, ?_⟩
      exact lt_of_lt_of_le inside.2 (by rw [here]; omega)
    · rw [Function.update_of_ne here] at born
      exact clear x ⟨b, born, inside⟩ f mem
  | fill | unwind | queue | patch | undo | strandFlight | restore | enable | strand | arm | handler
  | disarm | scar | freeRegions =>
    exact clear.same rfl
  | @discard r rest held => exact clear.same (Code.retire_sameMemory v.code r).births
  | @giveUp d rest pending =>
    exact clear.same (Code.dropTrampoline_sameMemory v.code d.trampoline).births
  | @publish h rest flight => exact clear.same (publishInline_sameMemory v.code h).births
  | @unravel h rest flight off => exact clear.same (InlineHook.dispose_sameMemory v.code h).births
  | @detach h rest objs quiet off rule =>
    exact clear.same (InlineHook.release_sameMemory v.code h).births
  | @remove h rest objs quiet off =>
    exact clear.same ((InlineHook.release_sameMemory v.code h).trans
      (InlineHook.dispose_sameMemory _ h)).births
  | beginPass => exact clear.same (Marked.beginPass_jumps v.code).2
  | @settlePass addOk rule => exact clear.same (Marked.settlePass_jumps v.code addOk).2

/-- What the moves of such a run keep, stubs included. -/
def Unspoiled (foreign : List Region) (pristine : ℕ → UInt8) (v : View) : Prop :=
  Restorable foreign pristine v ∧ Unstubbed foreign v

theorem Unspoiled.initial (foreign : List Region) (pristine : ℕ → UInt8) (tables : Tables) :
    Unspoiled foreign pristine (View.initial pristine tables) := by
  refine ⟨.initial foreign pristine tables, ?_⟩
  rintro x ⟨b, born, -⟩
  exact absurd born (Nat.lt_irrefl 0)

theorem Unspoiled.move {foreign : List Region} {pristine : ℕ → UInt8} {v v' : View}
    (m : Move (Rules.restoring foreign) foreign v v') (base : Base v)
    (kept : Unspoiled foreign pristine v) : Unspoiled foreign pristine v' :=
  ⟨Restorable.move m base kept.1, Unstubbed.move m kept.2⟩

/-- In such a run the code bytes are the jumps of the enabled hooks and the breakpoints, laid over a
ground that is pristine on memory of the process. -/
theorem State.Reachable.overlaid {E : Env} {pristine : ℕ → UInt8} {s : State}
    (run : State.Reachable E (fun s op => op.RestoresCode E s) pristine s) :
    (∀ h ∈ s.hooks, h.enabled = true → h.Shaped) ∧
      (∀ x, s.process.code.StubByte x → ∀ f ∈ E.foreign, ¬ f.Covers x) ∧
      ∃ ground, Overlaid ground (overlays s.hooks s.traps) s.process.code.mem ∧
        ∀ x, ¬ s.process.code.StubByte x → ground x = pristine x := by
  obtain ⟨v, sim, base, ⟨⟨-, placed, ground, laid⟩, clear⟩⟩ :=
    run.sim (R := Rules.restoring E.foreign) (fun restores => restores.grants)
      (Unspoiled.initial E.foreign pristine) fun m base kept => Unspoiled.move m base kept
  have code : v.code = s.process.code := sim.sees.code
  have traps : v.traps = s.traps := sim.sees.traps
  have flight : v.flight = 0 := sim.sees.flight
  have objs : v.objs = s.hooks := by
    rw [sim.sees.objs]
    exact Multiset.add_zero _
  have keepers : v.keepers = s.hooks := by
    unfold View.keepers
    rw [flight, placed.kept, objs, Multiset.add_zero, Multiset.add_zero]
  refine ⟨fun h mem on => ?_, ?_, ground, ?_, ?_⟩
  · exact base.shapes.standing_shaped
      (base.shapes.standing_of_enabled placed.kept (keepers.symm ▸ mem) on)
  · rw [← code]
    exact clear
  · rw [← keepers, ← traps, ← code]
    exact laid.overlaid
  · rw [← code]
    exact laid.outside

/-! ### A gateway address that is used again -/

/-- A hook is queued on a gateway that is then released, and the address becomes the gateway of
another hook before the queue is committed. -/
def reusedGateway : List Op :=
  [.begin, .queue 1 (.attach 0x1000 0x3000 true (sampleAttachOs 0x20000)),
    .commit 1 false (sampleCommitOs []) sampleThreads, .begin,
    .queue 4 (.attach 0x20000 0x4000 true (sampleAttachOs 0x30000)), .drop (.hookPtr 2) true true,
    .beginPass, .freeRegions quietSnapshot quietThreads, .settlePass fun _ => true, .begin,
    .queue 5 (.attach 0x2000 0x3000 true (sampleAttachOs 0x40000)),
    .commit 5 false (sampleCommitOs []) sampleThreads, .begin,
    .queue 8 (.attach 0x40000 0x5000 true (sampleAttachOs 0x20000)),
    .commit 8 false (sampleCommitOs []) sampleThreads,
    .commit 4 false (sampleCommitOs []) sampleThreads]

def reusedGatewayState : State :=
  (State.initial samplePristine sampleTables).run sampleEnv reusedGateway

theorem State.CodeIntact.saved_all {pristine : ℕ → UInt8} {s : State}
    (intact : s.CodeIntact pristine) : s.hooks.filter (fun h => h.origBytes ≠ h.found) = 0 :=
  Multiset.filter_eq_nil.2 fun h mem ne => ne (intact.saved h mem)

/-- The hook on the reused gateway saved the bytes of the gateway before. -/
theorem reused_gateway_differs :
    State.Reachable sampleEnv (fun _ _ => True) samplePristine reusedGatewayState ∧
      ¬ reusedGatewayState.CodeIntact samplePristine := by
  constructor
  · exact (State.Reachable.initial sampleTables).run fun _ _ _ => trivial
  · intro intact
    exact absurd intact.saved_all (by decide +kernel)

/-- Two chained hooks, an INT3 hook between two functions, and all of them removed again. -/
def hookedAndRestored : List Op :=
  [.begin, .queue 1 (.attach 0x1000 0x3000 true (sampleAttachOs 0x20000)),
    .commit 1 false (sampleCommitOs []) sampleThreads, .begin,
    .queue 4 (.attach 0x20000 0x4000 true (sampleAttachOs 0x30000)),
    .commit 4 false (sampleCommitOs []) sampleThreads,
    .int3Install 0x2000 0x4000 none sampleInt3Os, .drop (.hookPtr 2) true true,
    .int3Drop 7 sampleInt3Os, .unhook (.hookPtr 5) true true true]

def restoredState : State :=
  (State.initial samplePristine sampleTables).run sampleEnv hookedAndRestored

theorem State.BuildsClear.of_idle {s : State} (idle : s.queued = 0) (stubAt : Option ℕ) :
    s.BuildsClear stubAt := by
  intro a _ d mem
  rw [idle] at mem
  cases mem

/-- An attach to code of the process, when nothing is queued. -/
theorem Op.RestoresCode.of_own {E : Env} {s : State} {tx target detour : ℕ} {follow : Bool}
    {os : AttachOs} {a len : ℕ} (idle : s.queued = 0)
    (resolved : resolveTarget s.process.code target follow os = a)
    (measured : Disassembler.getInstructionLen E.codec (os.readableFrom a) s.process.code.mem a
      (selectJump a detour).size = some len) (own : OwnCode E.foreign a len) :
    (Op.queue tx (.attach target detour follow os)).RestoresCode E s := by
  refine fun _ => ⟨fun _ n again => ?_, .of_idle idle _⟩
  rw [resolved, measured] at again
  rw [resolved, ← Option.some.inj again]
  exact own

/-- An attach to a managed gateway, when nothing is queued. -/
theorem Op.RestoresCode.of_gateway {E : Env} {s : State} {tx target detour : ℕ} {follow : Bool}
    {os : AttachOs} (idle : s.queued = 0)
    (path : takesGatewayPath s.process.code target follow = true) :
    (Op.queue tx (.attach target detour follow os)).RestoresCode E s := by
  refine fun _ => ⟨fun off => ?_, .of_idle idle _⟩
  rw [path] at off
  cases off

theorem Op.RestoresCode.of_drops {E : Env} {s : State} {tx : ℕ} {ffi : Bool} {os : CommitOs}
    {threads : Threads} (drops : ∀ i, os.dropOk i = true) :
    (Op.commit tx ffi os threads).RestoresCode E s :=
  fun _ _ _ _ _ i _ => drops i

theorem hooked_and_restored :
    restoredState.hooks = 0 ∧ restoredState.traps = 0 ∧ restoredState.CodeIntact samplePristine := by
  have own : OwnCode sampleEnv.foreign 0x1000 5 := by
    intro x inside
    refine ⟨⟨0x1000, 0xF000⟩, List.mem_cons_self, inside.1, lt_of_lt_of_le inside.2 ?_⟩
    decide
  refine ⟨by decide +kernel, by decide +kernel,
    code_intact ((State.Reachable.initial sampleTables).along ?_)⟩
  refine ⟨fun _ => trivial, ?_, .of_drops fun _ => rfl, fun _ => trivial, ?_, .of_drops fun _ => rfl,
    fun _ => ⟨fun _ => ?_, fun _ none => ?_⟩, fun _ _ _ _ => rfl, fun _ => rfl, fun _ _ _ _ => .inl rfl,
    trivial⟩
  · apply @Op.RestoresCode.of_own _ _ 1 0x1000 0x3000 true (sampleAttachOs 0x20000) 0x1000 5
    · decide +kernel
    · decide +kernel
    · decide +kernel
    · exact own
  · apply Op.RestoresCode.of_gateway
    · decide +kernel
    · decide +kernel
  · exact ⟨⟨0x1000, 0xF000⟩, List.mem_cons_self, by decide⟩
  · cases none

end NeoHook
