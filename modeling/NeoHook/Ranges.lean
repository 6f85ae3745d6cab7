import NeoHook.Ownership

/-!
# Patched ranges

The ranges of installed inline hooks, the range a commit has patched and not published, and the
armed INT3 targets never meet.  `Shapes` collects what is fixed when a hook is made: its lengths, its
jump and how its flags go together.
-/

namespace NeoHook

open ByteMap

/-! ### Shapes -/

structure InlineData.Shaped (d : InlineData) : Prop where
  target : d.target ≠ 0
  jump : d.jumpType = selectJump d.target d.detour
  room : d.jumpType.size ≤ d.stolenLen
  orig : d.origBytes.length = d.stolenLen
  gateway : d.targetKind = .managedGateway → d.stolenLen = managedGatewayLen

structure InlineHook.Shaped (h : InlineHook) : Prop where
  target : h.target ≠ 0
  jump : h.jumpType = selectJump h.target h.detour
  room : h.jumpType.size ≤ h.stolenLen
  orig : h.origBytes.length = h.stolenLen
  encoded : inlinePatchBytes h.target h.detour h.jumpType h.stolenLen = .ok h.patchBytes
  gateway : h.targetKind = .managedGateway → h.stolenLen = managedGatewayLen

theorem JumpType.size_pos (j : JumpType) : 0 < j.size := by
  cases j <;> decide

theorem InlineHook.Shaped.stolenLen_pos {h : InlineHook} (shaped : h.Shaped) : 0 < h.stolenLen :=
  lt_of_lt_of_le h.jumpType.size_pos shaped.room

theorem InlineHook.Shaped.patch {h : InlineHook} (shaped : h.Shaped) :
    h.patchBytes.length = h.stolenLen :=
  length_inlinePatchBytes shaped.encoded

theorem InlineHook.Shaped.orig_ne_nil {h : InlineHook} (shaped : h.Shaped) : h.origBytes ≠ [] := by
  intro nil
  have := shaped.orig
  have := shaped.stolenLen_pos
  rw [nil] at *
  simp at *
  omega

theorem InlineHook.Shaped.congr {h h' : InlineHook} (shaped : h.Shaped)
    (target : h'.target = h.target) (detour : h'.detour = h.detour)
    (jump : h'.jumpType = h.jumpType) (len : h'.stolenLen = h.stolenLen)
    (orig : h'.origBytes = h.origBytes) (patch : h'.patchBytes = h.patchBytes)
    (kind : h'.targetKind = h.targetKind) : h'.Shaped := by
  refine ⟨?_, ?_, ?_, ?_, ?_, ?_⟩
  · rw [target]
    exact shaped.target
  · rw [jump, target, detour]
    exact shaped.jump
  · rw [jump, len]
    exact shaped.room
  · rw [orig, len]
    exact shaped.orig
  · rw [target, detour, jump, len, patch]
    exact shaped.encoded
  · rw [kind, len]
    exact shaped.gateway

theorem InlineData.Shaped.install {d : InlineData} (shaped : d.Shaped) (c : Code)
    {bytes : List UInt8}
    (encoded : inlinePatchBytes d.target d.detour d.jumpType d.stolenLen = .ok bytes) :
    (d.install c bytes).Shaped :=
  ⟨shaped.target, shaped.jump, shaped.room, shaped.orig, encoded, shaped.gateway⟩

structure Shapes (v : View) : Prop where
  pend : ∀ d ∈ v.pend, d.Shaped
  objs : ∀ h ∈ v.objs, h.Shaped ∧ h.active = h.published ∧ (h.enabled = true → h.active = true)
  flight : ∀ h ∈ v.flight, h.Shaped ∧ h.active = true ∧ h.published = false
  stranded : ∀ h ∈ v.stranded, h.Shaped ∧ h.active = true
  traps : ∀ t ∈ v.traps, t.target ≠ 0 ∧ t.active = true

namespace Shapes

variable {v v' : View} {R : Rules} {foreign : List Region}

/-- Flags may change along with the code. -/
theorem update (s : Shapes v) {h h' : InlineHook} {rest : Multiset InlineHook} {c : Code}
    (objs : v.objs = h ::ₘ rest)
    (new : h'.Shaped ∧ h'.active = h'.published ∧ (h'.enabled = true → h'.active = true)) :
    Shapes { v with code := c, objs := h' ::ₘ rest } := by
  refine ⟨s.pend, fun x hx => ?_, s.flight, s.stranded, s.traps⟩
  obtain rfl | hx := Multiset.mem_cons.1 hx
  · exact new
  · exact s.objs x (objs ▸ Multiset.mem_cons_of_mem hx)

theorem move (m : Move R foreign v v') (s : Shapes v) : Shapes v' := by
  have inObjs : ∀ {h rest}, v.objs = h ::ₘ rest → h.Shaped ∧ h.active = h.published ∧
      (h.enabled = true → h.active = true) := fun objs =>
    s.objs _ (objs ▸ Multiset.mem_cons_self _ _)
  have inFlight : ∀ {h rest}, v.flight = h ::ₘ rest → h.Shaped ∧ h.active = true ∧
      h.published = false := fun flight => s.flight _ (flight ▸ Multiset.mem_cons_self _ _)
  cases m with
  | allocate | fill | unwind | discard | handler | beginPass | freeRegions | settlePass =>
    exact ⟨s.pend, s.objs, s.flight, s.stranded, s.traps⟩
  | @queue d _ _ _ queued =>
    refine ⟨fun x hx => ?_, s.objs, s.flight, s.stranded, s.traps⟩
    obtain rfl | hx := Multiset.mem_cons.1 hx
    · refine ⟨queued.target, queued.jump, queued.room, ?_, fun kind => (queued.gateway kind).1⟩
      rw [queued.captured, length_read]
    · exact s.pend x hx
  | @giveUp d rest pending =>
    exact ⟨fun x hx => s.pend x (pending ▸ Multiset.mem_cons_of_mem hx), s.objs, s.flight,
      s.stranded, s.traps⟩
  | @patch d rest bytes pending _ encoded =>
    refine ⟨fun x hx => s.pend x (pending ▸ Multiset.mem_cons_of_mem hx), s.objs, fun x hx => ?_,
      s.stranded, s.traps⟩
    obtain rfl | hx := Multiset.mem_cons.1 hx
    · exact ⟨(s.pend d (pending ▸ Multiset.mem_cons_self _ _)).install _ encoded, rfl, rfl⟩
    · exact s.flight x hx
  | @publish h rest flight =>
    obtain ⟨shaped, active, -⟩ := inFlight flight
    refine ⟨s.pend, fun x hx => ?_,
      fun x hx => s.flight x (flight ▸ Multiset.mem_cons_of_mem hx), s.stranded, s.traps⟩
    obtain rfl | hx := Multiset.mem_cons.1 hx
    · exact ⟨shaped.congr rfl rfl rfl rfl rfl rfl rfl, active, fun _ => active⟩
    · exact s.objs x hx
  | @undo h rest flight =>
    obtain ⟨shaped, active, pub⟩ := inFlight flight
    refine ⟨s.pend, s.objs, fun x hx => ?_, s.stranded, s.traps⟩
    obtain rfl | hx := Multiset.mem_cons.1 hx
    · exact ⟨shaped.congr rfl rfl rfl rfl rfl rfl rfl, active, pub⟩
    · exact s.flight x (flight ▸ Multiset.mem_cons_of_mem hx)
  | @unravel h rest flight =>
    exact ⟨s.pend, s.objs, fun x hx => s.flight x (flight ▸ Multiset.mem_cons_of_mem hx),
      s.stranded, s.traps⟩
  | @strandFlight h rest flight =>
    obtain ⟨shaped, active, -⟩ := inFlight flight
    refine ⟨s.pend, s.objs, fun x hx => s.flight x (flight ▸ Multiset.mem_cons_of_mem hx),
      fun x hx => ?_, s.traps⟩
    obtain rfl | hx := Multiset.mem_cons.1 hx
    · exact ⟨shaped, active⟩
    · exact s.stranded x hx
  | restore objs active =>
    obtain ⟨shaped, same, -⟩ := inObjs objs
    exact s.update objs ⟨shaped.congr rfl rfl rfl rfl rfl rfl rfl, same, fun _ => active⟩
  | enable objs active =>
    obtain ⟨shaped, same, -⟩ := inObjs objs
    exact s.update objs ⟨shaped.congr rfl rfl rfl rfl rfl rfl rfl, same, fun _ => active⟩
  | detach objs =>
    obtain ⟨shaped, -, -⟩ := inObjs objs
    exact s.update objs ⟨shaped.congr rfl rfl rfl rfl rfl rfl rfl, rfl, by simp [InlineHook.inert]⟩
  | @remove h rest objs =>
    exact ⟨s.pend, fun x hx => s.objs x (objs ▸ Multiset.mem_cons_of_mem hx), s.flight,
      s.stranded, s.traps⟩
  | @strand h rest objs active =>
    refine ⟨s.pend, fun x hx => s.objs x (objs ▸ Multiset.mem_cons_of_mem hx), s.flight,
      fun x hx => ?_, s.traps⟩
    obtain rfl | hx := Multiset.mem_cons.1 hx
    · exact ⟨(inObjs objs).1, active⟩
    · exact s.stranded x hx
  | arm _ nonnull =>
    refine ⟨s.pend, s.objs, s.flight, s.stranded, fun x hx => ?_⟩
    obtain rfl | hx := Multiset.mem_cons.1 hx
    · exact ⟨nonnull, rfl⟩
    · exact s.traps x hx
  | @disarm t rest traps =>
    exact ⟨s.pend, s.objs, s.flight, s.stranded,
      fun x hx => s.traps x (traps ▸ Multiset.mem_cons_of_mem hx)⟩
  | @scar t rest traps =>
    exact ⟨s.pend, s.objs, s.flight, s.stranded,
      fun x hx => s.traps x (traps ▸ Multiset.mem_cons_of_mem hx)⟩

end Shapes

/-! ### Ranges -/

/-- The published ones among some hooks. -/
def publishedOf (s : Multiset InlineHook) : Multiset InlineHook :=
  s.filter fun h => h.published = true

theorem mem_publishedOf {s : Multiset InlineHook} {h : InlineHook} :
    h ∈ publishedOf s ↔ h ∈ s ∧ h.published = true := Multiset.mem_filter

theorem publishedOf_cons_pos {s : Multiset InlineHook} {h : InlineHook} (pub : h.published = true) :
    publishedOf (h ::ₘ s) = h ::ₘ publishedOf s := by
  simp [publishedOf, pub]

theorem publishedOf_cons_neg {s : Multiset InlineHook} {h : InlineHook}
    (pub : h.published = false) : publishedOf (h ::ₘ s) = publishedOf s := by
  simp [publishedOf, pub]

namespace View

/-- Hooks whose range is published, whether or not an object for them is left. -/
def installed (v : View) : Multiset InlineHook := publishedOf (v.objs + v.stranded)

theorem mem_installed_of_objs {v : View} {h : InlineHook} (hh : h ∈ v.objs)
    (pub : h.published = true) : h ∈ v.installed :=
  mem_publishedOf.2 ⟨Multiset.mem_add.2 (.inl hh), pub⟩

theorem installed_objs {v : View} {h : InlineHook} {rest : Multiset InlineHook}
    (objs : v.objs = h ::ₘ rest) : v.installed = publishedOf (h ::ₘ (rest + v.stranded)) := by
  rw [installed, objs, Multiset.cons_add]

end View

/-- No two patched ranges meet, and no armed INT3 target lies in one. -/
structure Dis (v : View) : Prop where
  patches : v.code.livePatches.Pairwise fun p q => Apart p.1 p.2 q.1 q.2
  positive : ∀ p ∈ v.code.livePatches, 0 < p.2
  registered : ∀ h ∈ v.installed, (h.target, h.stolenLen) ∈ v.code.livePatches
  distinct : v.installed.Pairwise fun a b => a.target ≠ b.target
  flightApart : v.flight.Pairwise fun a b => Apart a.target a.stolenLen b.target b.stolenLen
  flightClear : ∀ h ∈ v.flight, ∀ p ∈ v.code.livePatches, Apart p.1 p.2 h.target h.stolenLen
  armed : ∀ i < Code.maxHooks, v.code.int3.slotTarget i ≠ 0 →
    (∀ p ∈ v.code.livePatches, ¬ InRange p.1 p.2 (v.code.int3.slotTarget i)) ∧
    ∀ h ∈ v.flight, ¬ InRange h.target h.stolenLen (v.code.int3.slotTarget i)
  slots : ∀ t ∈ v.traps, t.slot < Code.maxHooks ∧ v.code.int3.slotTarget t.slot = t.target
  slotsDistinct : v.traps.Pairwise fun a b => a.slot ≠ b.slot

instance : Std.Symm fun a b : InlineHook => a.target ≠ b.target := ⟨fun _ _ => Ne.symm⟩

instance : Std.Symm fun a b : InlineHook => Apart a.target a.stolenLen b.target b.stolenLen :=
  ⟨fun _ _ => Apart.symm⟩

instance : Std.Symm fun a b : Int3Hook => a.slot ≠ b.slot := ⟨fun _ _ => Ne.symm⟩

namespace Dis

variable {v v' : View} {R : Rules} {foreign : List Region}

/-- Ranges only depend on the registries and the hooks. -/
theorem of_same (dis : Dis v) (patches : v'.code.livePatches = v.code.livePatches)
    (slots : v'.code.int3.slotTarget = v.code.int3.slotTarget)
    (installed : v'.installed = v.installed) (flight : v'.flight = v.flight)
    (traps : v'.traps = v.traps) : Dis v' := by
  refine ⟨?_, ?_, ?_, ?_, ?_, ?_, ?_, ?_, ?_⟩
  · rw [patches]
    exact dis.patches
  · rw [patches]
    exact dis.positive
  · rw [patches, installed]
    exact dis.registered
  · rw [installed]
    exact dis.distinct
  · rw [flight]
    exact dis.flightApart
  · rw [patches, flight]
    exact dis.flightClear
  · rw [patches, slots, flight]
    exact dis.armed
  · rw [slots, traps]
    exact dis.slots
  · rw [traps]
    exact dis.slotsDistinct

theorem replace (dis : Dis v) {h h' : InlineHook} {rest : Multiset InlineHook} {c : Code}
    (objs : v.objs = h ::ₘ rest) (target : h'.target = h.target) (len : h'.stolenLen = h.stolenLen)
    (pub : h'.published = h.published) (patches : c.livePatches = v.code.livePatches)
    (slots : c.int3.slotTarget = v.code.int3.slotTarget) :
    Dis { v with code := c, objs := h' ::ₘ rest } := by
  have before := View.installed_objs objs
  have after : ({ v with code := c, objs := h' ::ₘ rest } : View).installed =
      publishedOf (h' ::ₘ (rest + v.stranded)) := View.installed_objs rfl
  cases on : h.published with
  | true =>
    rw [publishedOf_cons_pos on] at before
    rw [publishedOf_cons_pos (pub.trans on)] at after
    refine ⟨?_, ?_, fun x hx => ?_, ?_, dis.flightApart, ?_, ?_, ?_, dis.slotsDistinct⟩
    · rw [patches]
      exact dis.patches
    · rw [patches]
      exact dis.positive
    · rw [patches]
      rw [after] at hx
      obtain rfl | hx := Multiset.mem_cons.1 hx
      · rw [target, len]
        exact dis.registered h (before ▸ Multiset.mem_cons_self _ _)
      · exact dis.registered x (before ▸ Multiset.mem_cons_of_mem hx)
    · rw [after]
      refine Bag.pairwise_replace (before ▸ dis.distinct) fun b ne => ?_
      rwa [target]
    · rw [patches]
      exact dis.flightClear
    · rw [patches, slots]
      exact dis.armed
    · rw [slots]
      exact dis.slots
  | false =>
    rw [publishedOf_cons_neg on] at before
    rw [publishedOf_cons_neg (pub.trans on)] at after
    exact dis.of_same patches slots (after.trans before.symm) rfl rfl

/-- A hook is withdrawn. -/
theorem withdraw (dis : Dis v) {h : InlineHook} {rest : Multiset InlineHook}
    (objs : v.objs = h ::ₘ rest) (pub : h.published = true) {v' : View}
    (patches : v'.code.livePatches = v.code.livePatches.filter fun p => p.1 ≠ h.target)
    (slots : v'.code.int3.slotTarget = v.code.int3.slotTarget)
    (installed : v'.installed = publishedOf (rest + v.stranded))
    (flight : v'.flight = v.flight) (traps : v'.traps = v.traps) : Dis v' := by
  have before : v.installed = h ::ₘ publishedOf (rest + v.stranded) := by
    rw [View.installed_objs objs, publishedOf_cons_pos pub]
  have distinct := dis.distinct
  rw [before, Bag.pairwise_cons] at distinct
  have sub : ∀ p ∈ v'.code.livePatches, p ∈ v.code.livePatches := fun p hp => by
    rw [patches] at hp
    exact List.mem_of_mem_filter hp
  refine ⟨?_, fun p hp => dis.positive p (sub p hp), fun x hx => ?_, ?_, ?_, ?_,
    fun i hi on => ?_, ?_, ?_⟩
  · rw [patches]
    exact dis.patches.filter _
  · rw [installed] at hx
    rw [patches, List.mem_filter]
    refine ⟨dis.registered x (before ▸ Multiset.mem_cons_of_mem hx), ?_⟩
    have := distinct.1 x hx
    simpa using this.symm
  · rw [installed]
    exact distinct.2
  · rw [flight]
    exact dis.flightApart
  · rw [flight]
    exact fun x hx p hp => dis.flightClear x hx p (sub p hp)
  · rw [slots] at on ⊢
    rw [flight]
    exact ⟨fun p hp => (dis.armed i hi on).1 p (sub p hp), (dis.armed i hi on).2⟩
  · rw [slots, traps]
    exact dis.slots
  · rw [traps]
    exact dis.slotsDistinct

/-- The slot an INT3 hook takes is free. -/
theorem freeSlot_spec {c : Code} {target slot : ℕ} (free : c.freeSlot target = .ok slot) :
    slot < Code.maxHooks ∧ c.int3.slotTarget slot = 0 := by
  unfold Code.freeSlot at free
  split_ifs at free
  cases found : (List.range Code.maxHooks).find? (fun i => c.int3.slotTarget i = 0) with
  | none => simp [found] at free
  | some i =>
    rw [found] at free
    simp only [Except.ok.injEq] at free
    subst free
    have zero := List.find?_some found
    exact ⟨List.mem_range.1 (List.mem_of_find?_eq_some found), by simpa using zero⟩

theorem arm (dis : Dis v) (shapes : Shapes v) {target detour slot : ℕ}
    {gateway : Option Trampoline} (quiet : v.flight = 0)
    (clear : v.code.overlapsLivePatch target 1 = false) (free : v.code.freeSlot target = .ok slot) :
    Dis { v with
      code := (v.code.setSlot slot target detour).store target [int3Opcode] none
      traps := ⟨target, detour, v.code.mem target, slot, true, gateway⟩ ::ₘ v.traps } := by
  obtain ⟨lt, zero⟩ := freeSlot_spec free
  have clearPatches := (Code.overlapsLivePatch_eq_false.1 clear).2
  have other : ∀ t ∈ v.traps, t.slot ≠ slot := fun t ht eq => by
    have same := (dis.slots t ht).2
    rw [eq, zero] at same
    exact (shapes.traps t ht).1 same.symm
  refine ⟨dis.patches, dis.positive, dis.registered, dis.distinct, dis.flightApart,
    dis.flightClear, fun i hi on => ?_, fun t ht => ?_, ?_⟩
  · by_cases eq : i = slot
    · subst eq
      simp only [Code.store, Code.setSlot, Function.update_self]
      refine ⟨fun p hp inside => ?_, by simp [quiet]⟩
      obtain apart | apart := clearPatches p hp <;> obtain ⟨h₁, h₂⟩ := inside <;> omega
    · simp only [Code.store, Code.setSlot, Function.update_of_ne eq] at on ⊢
      exact dis.armed i hi on
  · obtain rfl | ht := Multiset.mem_cons.1 ht
    · exact ⟨lt, by simp [Code.store, Code.setSlot]⟩
    · simp only [Code.store, Code.setSlot, Function.update_of_ne (other t ht)]
      exact dis.slots t ht
  · exact Bag.pairwise_cons.2 ⟨fun t ht => (other t ht).symm, dis.slotsDistinct⟩

/-- A slot is cleared. -/
theorem clearSlot (dis : Dis v) {t : Int3Hook} {rest : Multiset Int3Hook} {c : Code}
    (traps : v.traps = t ::ₘ rest) (patches : c.livePatches = v.code.livePatches)
    (slots : c.int3.slotTarget = Function.update v.code.int3.slotTarget t.slot 0) :
    Dis { v with code := c, traps := rest } := by
  have distinct := dis.slotsDistinct
  rw [traps, Bag.pairwise_cons] at distinct
  refine ⟨?_, ?_, ?_, dis.distinct, dis.flightApart, ?_, fun i hi on => ?_, fun x hx => ?_,
    distinct.2⟩
  · rw [patches]
    exact dis.patches
  · rw [patches]
    exact dis.positive
  · rw [patches]
    exact dis.registered
  · rw [patches]
    exact dis.flightClear
  · simp only [slots, patches] at on ⊢
    by_cases eq : i = t.slot
    · simp [eq] at on
    · rw [Function.update_of_ne eq] at on ⊢
      exact dis.armed i hi on
  · simp only [slots]
    rw [Function.update_of_ne (distinct.1 x hx).symm]
    exact dis.slots x (traps ▸ Multiset.mem_cons_of_mem hx)

theorem patch (dis : Dis v) {d : InlineData} {rest : Multiset InlineData} {bytes : List UInt8}
    (clear : v.code.overlapsLivePatch d.target d.stolenLen = false)
    (apart : ∀ h ∈ v.flight, Apart h.target h.stolenLen d.target d.stolenLen) (m : Option JumpMark) :
    Dis { v with
      code := v.code.store d.target bytes m
      pend := rest
      flight := d.install v.code bytes ::ₘ v.flight } := by
  obtain ⟨unarmed, clearPatches⟩ := Code.overlapsLivePatch_eq_false.1 clear
  refine ⟨dis.patches, dis.positive, dis.registered, dis.distinct, ?_, fun h hh => ?_,
    fun i hi on => ⟨(dis.armed i hi on).1, fun h hh => ?_⟩, dis.slots, dis.slotsDistinct⟩
  · exact Bag.pairwise_cons.2 ⟨fun h hh => (apart h hh).symm, dis.flightApart⟩
  · obtain rfl | hh := Multiset.mem_cons.1 hh
    · exact clearPatches
    · exact dis.flightClear h hh
  · obtain rfl | hh := Multiset.mem_cons.1 hh
    · exact Code.armedInRange_eq_false.1 unarmed i hi on
    · exact (dis.armed i hi on).2 h hh

theorem publish (dis : Dis v) (shapes : Shapes v) {h : InlineHook} {rest : Multiset InlineHook}
    (flight : v.flight = h ::ₘ rest) :
    Dis { v with
      code := (publishInline v.code h).1
      flight := rest
      objs := h.announced ::ₘ v.objs } := by
  have mem : h ∈ v.flight := flight ▸ Multiset.mem_cons_self _ _
  have pos := (shapes.flight h mem).1.stolenLen_pos
  have sub : ∀ x ∈ rest, x ∈ v.flight := fun x hx => flight ▸ Multiset.mem_cons_of_mem hx
  have other : ∀ p ∈ v.code.livePatches, p.1 ≠ h.target := fun p hp eq => by
    have := dis.positive p hp
    obtain apart | apart := dis.flightClear h mem p hp <;> omega
  have patches : (publishInline v.code h).1.livePatches =
      (h.target, h.stolenLen) :: v.code.livePatches := by
    rw [publishInline_livePatches, List.filter_eq_self.2]
    intro p hp
    simpa using other p hp
  have apart := dis.flightApart
  rw [flight, Bag.pairwise_cons] at apart
  have installed : ({ v with
      code := (publishInline v.code h).1
      flight := rest
      objs := h.announced ::ₘ v.objs } : View).installed = h.announced ::ₘ v.installed := by
    rw [View.installed_objs rfl]
    exact publishedOf_cons_pos rfl
  have same := publishInline_sameMemory v.code h
  refine ⟨?_, fun p hp => ?_, fun x hx => ?_, ?_, apart.2, fun x hx p hp => ?_,
    fun i hi on => ?_, ?_, dis.slotsDistinct⟩
  · rw [patches]
    exact List.pairwise_cons.2 ⟨fun p hp => (dis.flightClear h mem p hp).symm, dis.patches⟩
  · rw [patches] at hp
    obtain rfl | hp := List.mem_cons.1 hp
    · exact pos
    · exact dis.positive p hp
  · rw [patches]
    rw [installed] at hx
    obtain rfl | hx := Multiset.mem_cons.1 hx
    · exact List.mem_cons_self
    · exact List.mem_cons_of_mem _ (dis.registered x hx)
  · rw [installed, Bag.pairwise_cons]
    exact ⟨fun x hx => (other _ (dis.registered x hx)).symm, dis.distinct⟩
  · rw [patches] at hp
    obtain rfl | hp := List.mem_cons.1 hp
    · exact apart.1 x hx
    · exact dis.flightClear x (sub x hx) p hp
  · rw [same.int3] at on ⊢
    obtain ⟨clear, air⟩ := dis.armed i hi on
    rw [patches]
    refine ⟨fun p hp => ?_, fun x hx => air x (sub x hx)⟩
    obtain rfl | hp := List.mem_cons.1 hp
    · exact air h mem
    · exact clear p hp
  · rw [same.int3]
    exact dis.slots

/-- A hook leaves the flight. -/
theorem land (dis : Dis v) {h : InlineHook} {rest : Multiset InlineHook} {v' : View}
    (flight : v.flight = h ::ₘ rest) (patches : v'.code.livePatches = v.code.livePatches)
    (slots : v'.code.int3.slotTarget = v.code.int3.slotTarget)
    (installed : v'.installed = v.installed) (left : v'.flight = rest)
    (traps : v'.traps = v.traps) : Dis v' := by
  have apart := dis.flightApart
  rw [flight, Bag.pairwise_cons] at apart
  have sub : ∀ x ∈ rest, x ∈ v.flight := fun x hx => flight ▸ Multiset.mem_cons_of_mem hx
  refine ⟨?_, ?_, ?_, ?_, ?_, fun x hx => ?_, fun i hi on => ?_, ?_, ?_⟩
  · rw [patches]
    exact dis.patches
  · rw [patches]
    exact dis.positive
  · rw [patches, installed]
    exact dis.registered
  · rw [installed]
    exact dis.distinct
  · rw [left]
    exact apart.2
  · rw [left] at hx
    rw [patches]
    exact dis.flightClear x (sub x hx)
  · rw [slots] at on ⊢
    rw [patches, left]
    exact ⟨(dis.armed i hi on).1, fun x hx => (dis.armed i hi on).2 x (sub x hx)⟩
  · rw [slots, traps]
    exact dis.slots
  · rw [traps]
    exact dis.slotsDistinct

theorem undo (dis : Dis v) {h : InlineHook} {rest : Multiset InlineHook}
    (flight : v.flight = h ::ₘ rest) :
    Dis { v with
      code := v.code.store h.target h.origBytes none
      flight := h.disabled ::ₘ rest } := by
  have mem : h ∈ v.flight := flight ▸ Multiset.mem_cons_self _ _
  have sub : ∀ x ∈ rest, x ∈ v.flight := fun x hx => flight ▸ Multiset.mem_cons_of_mem hx
  refine ⟨dis.patches, dis.positive, dis.registered, dis.distinct, ?_, fun x hx => ?_,
    fun i hi on => ⟨(dis.armed i hi on).1, fun x hx => ?_⟩, dis.slots, dis.slotsDistinct⟩
  · have apart := dis.flightApart
    rw [flight] at apart
    exact Bag.pairwise_replace apart fun _ apart => apart
  · obtain rfl | hx := Multiset.mem_cons.1 hx
    · exact dis.flightClear h mem
    · exact dis.flightClear x (sub x hx)
  · obtain rfl | hx := Multiset.mem_cons.1 hx
    · exact (dis.armed i hi on).2 h mem
    · exact (dis.armed i hi on).2 x (sub x hx)

theorem beginPass_same (c : Code) :
    c.beginPass.livePatches = c.livePatches ∧ c.beginPass.int3 = c.int3 := by
  unfold Code.beginPass
  split_ifs <;> exact ⟨rfl, rfl⟩

theorem settlePass_same (c : Code) (addOk : ℕ → Bool) :
    (c.settlePass addOk).livePatches = c.livePatches ∧ (c.settlePass addOk).int3 = c.int3 := by
  unfold Code.settlePass
  split <;> exact ⟨rfl, rfl⟩

theorem move (m : Move R foreign v v') (shapes : Shapes v) (dis : Dis v) : Dis v' := by
  cases m with
  | allocate | fill | unwind | queue | freeRegions => exact dis.of_same rfl rfl rfl rfl rfl
  | @discard r rest held =>
    exact dis.of_same (Code.retire_livePatches _ r)
      (congrArg _ (Code.retire_sameMemory v.code r).int3) rfl rfl rfl
  | @giveUp d rest pending =>
    exact dis.of_same (Code.dropTrampoline_livePatches _ d.trampoline)
      (congrArg _ (Code.dropTrampoline_sameMemory v.code d.trampoline).int3) rfl rfl rfl
  | patch _ _ _ clear apart => exact dis.patch clear apart _
  | publish flight => exact dis.publish shapes flight
  | undo flight => exact dis.undo flight
  | @unravel h rest flight =>
    exact dis.land flight (InlineHook.dispose_livePatches v.code h)
      (congrArg _ (InlineHook.dispose_sameMemory v.code h).int3) rfl rfl rfl
  | @strandFlight h rest flight =>
    have pub := (shapes.flight h (flight ▸ Multiset.mem_cons_self _ _)).2.2
    refine dis.land flight rfl rfl ?_ rfl rfl
    change publishedOf (v.objs + h ::ₘ v.stranded) = _
    rw [Multiset.add_cons, publishedOf_cons_neg pub]
    rfl
  | restore objs => exact dis.replace objs rfl rfl rfl rfl rfl
  | enable objs => exact dis.replace objs rfl rfl rfl rfl rfl
  | @detach h rest objs =>
    have same := InlineHook.release_sameMemory v.code h
    cases pub : h.published with
    | true =>
      refine dis.withdraw objs pub (InlineHook.release_livePatches pub) (congrArg _ same.int3) ?_
        rfl rfl
      rw [View.installed_objs rfl]
      exact publishedOf_cons_neg rfl
    | false =>
      refine dis.replace objs rfl rfl pub.symm ?_ (congrArg _ same.int3)
      rw [InlineHook.release_unpublished pub]
      rfl
  | @remove h rest objs =>
    have same := (InlineHook.release_sameMemory v.code h).trans
      (InlineHook.dispose_sameMemory (h.release v.code).1 h)
    cases pub : h.published with
    | true =>
      refine dis.withdraw objs pub ?_ (congrArg _ same.int3) rfl rfl rfl
      rw [InlineHook.dispose_livePatches, InlineHook.release_livePatches pub]
    | false =>
      refine dis.of_same ?_ (congrArg _ same.int3) ?_ rfl rfl
      · rw [InlineHook.dispose_livePatches, InlineHook.release_unpublished pub]
      · rw [View.installed_objs objs, publishedOf_cons_neg pub]
        rfl
  | @strand h rest objs =>
    refine dis.of_same rfl rfl ?_ rfl rfl
    rw [View.installed_objs objs]
    change publishedOf (rest + h ::ₘ v.stranded) = _
    rw [Multiset.add_cons]
  | arm quiet _ clear free => exact dis.arm shapes quiet clear free
  | handler same => exact dis.of_same rfl same rfl rfl rfl
  | disarm traps => exact dis.clearSlot traps rfl rfl
  | scar traps => exact dis.clearSlot traps rfl rfl
  | beginPass =>
    exact dis.of_same (beginPass_same v.code).1 (congrArg _ (beginPass_same v.code).2) rfl rfl rfl
  | settlePass =>
    exact dis.of_same (settlePass_same v.code _).1 (congrArg _ (settlePass_same v.code _).2) rfl
      rfl rfl

end Dis

end NeoHook
