import NeoHook.Gateways

/-!
# Queueing, move by move

`attach_inner` and `build_original_gateway` as sequences of moves: a stub is allocated, filled while
nobody else owns it, and handed to a queue entry or retired.
-/

namespace NeoHook

open ByteMap

variable {R : Rules} {foreign : List Region} {v : View}

/-- What a run grants a call that builds a stub. -/
structure Rules.GrantsStub (R : Rules) (pass : Option Pass) (ds : Multiset InlineData)
    (hs : Multiset InlineHook) (ts : Multiset Int3Hook) (stubAt : Option ℕ) : Prop where
  birth : ∀ {a size}, stubAt = some a → size ≤ pageSize → R.birth pass ⟨a, size⟩
  write : ∀ {a}, stubAt = some a → R.write ds hs ts a pageSize

theorem Region.mapped_le_page {r : Region} (h : r.size ≤ pageSize) : r.mapped ≤ pageSize := by
  unfold mapped
  unfold pageSize at *
  omega

theorem Region.mapped_eq_page {r : Region} (pos : 0 < r.size) (h : r.size ≤ pageSize) :
    r.mapped = pageSize :=
  le_antisymm (mapped_le_page h) (page_le_mapped pos)

/-- A stub is allocated. -/
theorem allocNearbyTrampoline_path {at_ : Option ℕ} {size : ℕ} {c : Code} {t : Trampoline}
    (quiet : v.flight = 0)
    (grants : R.GrantsStub v.code.pass v.pend v.objs v.traps at_) (small : size ≤ pageSize)
    (alloc : v.code.allocNearbyTrampoline foreign at_ size = some (c, t)) :
    t.size = size ∧ at_ = some t.ptr ∧ v.code.Free foreign t.region ∧
      c = v.code.allocate t.region ∧
      Move R foreign v { v with code := c, held := t.region ::ₘ v.held } := by
  unfold Code.allocNearbyTrampoline at alloc
  cases at_ with
  | none => simp at alloc
  | some a =>
    simp only at alloc
    split_ifs at alloc with free
    simp only [Option.some.injEq, Prod.mk.injEq] at alloc
    obtain ⟨rfl, rfl⟩ := alloc
    refine ⟨rfl, rfl, free, rfl, Move.allocate free quiet (grants.birth rfl small) ?_⟩
    rw [Region.mapped_eq_page free.2.1 small]
    exact grants.write rfl

/-- A block of a stub under construction is written. -/
theorem fill_path {t : Trampoline} {rest : Multiset Region} {a : ℕ} {bs : List UInt8}
    {at_ : Option ℕ} (held : v.held = t.region ::ₘ rest) (pos : 0 < t.size)
    (grants : R.GrantsStub v.code.pass v.pend v.objs v.traps at_) (atStub : at_ = some t.ptr)
    (lo : t.ptr ≤ a) (hi : a + bs.length ≤ t.ptr + pageSize) :
    Path R foreign v { v with code := v.code.store a bs none } := by
  refine .single (Move.fill (held ▸ Multiset.mem_cons_self _ _) lo ?_ ?_)
  · have := Region.page_le_mapped (r := t.region) pos
    change a + bs.length ≤ t.ptr + t.region.mapped
    omega
  · exact R.write_sub (grants.write atStub) lo hi

theorem registerRelocated_path {t : Trampoline} {rest : Multiset Region} {offset : ℕ}
    {os : AttachOs} (held : v.held = t.region ::ₘ rest) (pos : 0 < t.size)
    (grants : R.GrantsStub v.code.pass v.pend v.objs v.traps os.stubAt)
    (atStub : os.stubAt = some t.ptr) (small : offset + unwindArea ≤ pageSize) :
    Path R foreign v { v with code := registerRelocated v.code t.ptr offset os } := by
  unfold registerRelocated
  cases os.unwindData with
  | none => exact .refl
  | some data =>
    have room : (data.take unwindArea).length ≤ unwindArea := List.length_take_le _ _
    have filled : Path R foreign v
        { v with code := v.code.store (t.ptr + offset) (data.take unwindArea) none } :=
      fill_path held pos grants atStub (by omega) (by omega)
    cases os.addTable with
    | false => exact filled
    | true =>
      refine filled.tail ?_
      exact Move.unwind (r := t.region) (held ▸ Multiset.mem_cons_self _ _)

/-- A stub under construction is given up. -/
theorem discard_path {t : Trampoline} {rest : Multiset Region} (held : v.held = t.region ::ₘ rest)
    (nonnull : t.ptr ≠ 0) :
    Path R foreign v { v with code := v.code.dropTrampoline t, held := rest } := by
  rw [Code.dropTrampoline_of_pos nonnull]
  exact .single (Move.discard held)

/-- What a run grants a call of `attach_inner`. -/
structure Rules.GrantsAttach (R : Rules) (C : Codec) (c : Code) (ds : Multiset InlineData)
    (hs : Multiset InlineHook) (ts : Multiset Int3Hook) (target detour : ℕ) (follow : Bool)
    (os : AttachOs) : Prop extends R.GrantsStub c.pass ds hs ts os.stubAt where
  gateway : takesGatewayPath c target follow = true → ∀ {c' d}, InlineData.Queued c' d →
    c'.livePatches = c.livePatches → c'.int3 = c.int3 → d.targetKind = .managedGateway →
    d.target = target → d.detour = detour → R.queue c' d
  normal : takesGatewayPath c target follow = false → ∀ {c' d}, InlineData.Queued c' d →
    d.targetKind = .normal → d.target = resolveTarget c target follow os → d.detour = detour →
    Disassembler.getInstructionLen C (os.readableFrom d.target) c.mem d.target d.jumpType.size =
      some d.stolenLen → R.queue c' d

/-- A queue call adds nothing or one inline entry. -/
theorem attachGateway_path (base : Base v) (quiet : v.flight = 0) {C : Codec}
    {pending : List PendingHook} {target detour : ℕ} {follow : Bool} {os : AttachOs}
    (grants : R.GrantsAttach C v.code v.pend v.objs v.traps target detour follow os)
    (nonnull : target ≠ 0) (path : takesGatewayPath v.code target follow = true)
    (unchained : v.code.chainedGateways target = none) :
    ∃ ds : List InlineData,
      (attachGateway foreign v.code pending target detour os).2.2 = pending ++ ds.map .inline ∧
      Path R foreign v { v with
        code := (attachGateway foreign v.code pending target detour os).2.1
        pend := ↑ds + v.pend } := by
  have nothing : Path R foreign v { v with code := v.code, pend := ↑([] : List InlineData) + v.pend } := by
    simp only [Multiset.coe_nil, Multiset.zero_add]
    exact .refl
  unfold attachGateway
  cases queuedInline pending target detour with
  | some queued => exact ⟨[], by simp, nothing⟩
  | none =>
    cases previous : readManagedGatewayTarget v.code.mem target with
    | none => exact ⟨[], by simp, nothing⟩
    | some dest =>
      cases alloc : v.code.allocNearbyTrampoline foreign os.stubAt gatewayStubSize with
      | none => exact ⟨[], by simp, nothing⟩
      | some ct =>
        obtain ⟨c, t⟩ := ct
        obtain ⟨size, atStub, free, rfl, allocated⟩ :=
          allocNearbyTrampoline_path quiet grants.toGrantsStub (by decide) alloc
        have managed : target ∈ v.code.managedGateways := by
          simp only [takesGatewayPath, Code.isManagedGateway, Bool.and_eq_true,
            decide_eq_true_eq] at path
          exact path.2
        obtain ⟨r, mem, atTarget⟩ := base.kept_mem (base.gate.managed managed)
        have apart : Apart t.ptr t.region.mapped target managedGatewayLen := by
          have apart := free.2.2.2.1 r mem
          have page := Region.page_le_mapped (base.own.real r mem).2
          refine apart.mono le_rfl le_rfl (by omega) ?_
          have : managedGatewayLen ≤ pageSize := by decide
          omega
        have pos : 0 < t.size := free.2.1
        have page := Region.page_le_mapped (r := t.region) pos
        have stub : (managedGatewayStub dest).length = managedGatewayLen :=
          length_managedGatewayStub dest
        have orig : read ((v.code.allocate t.region).store t.ptr (managedGatewayStub dest)
            none).mem target managedGatewayLen = managedGatewayStub dest := by
          refine Eq.trans (read_congr fun x hx => ?_) (read_of_readManagedGatewayTarget previous)
          have outside : ¬ InRange t.ptr t.region.mapped x := apart.symm.notMem hx
          have : ¬ InRange t.ptr (managedGatewayStub dest).length x := fun inside => by
            refine outside (inRange_of_sub le_rfl ?_ inside)
            rw [stub]
            have : managedGatewayLen ≤ pageSize := by decide
            omega
          rw [Code.store_mem_of_notMem this]
          exact Code.allocate_mem_of_notMem outside
        let d : InlineData :=
          { target, detour
            trampoline := t
            stolenLen := managedGatewayLen
            jumpType := selectJump target detour
            origBytes := read ((v.code.allocate t.region).store t.ptr (managedGatewayStub dest)
              none).mem target managedGatewayLen
            redirectBase := t.ptr
            targetKind := .managedGateway
            redirectMap := none }
        have queued : d.Queued
            ((v.code.allocate t.region).store t.ptr (managedGatewayStub dest) none) := by
          refine ⟨nonnull, rfl, selectJump_size_le _ _, rfl, by simp [d], fun _ =>
            ⟨rfl, managed, unchained, dest, orig, ?_⟩⟩
          have same := read_write_same (v.code.allocate t.region).mem t.ptr (managedGatewayStub dest)
          rwa [stub] at same
        refine ⟨[d], by simp [d], ?_⟩
        have filled : Path R foreign v { v with
            code := (v.code.allocate t.region).store t.ptr (managedGatewayStub dest) none
            held := t.region ::ₘ v.held } := by
          refine (Relation.ReflTransGen.single allocated).trans ?_
          exact fill_path rfl pos grants.toGrantsStub atStub le_rfl (by
            rw [stub]
            have : managedGatewayLen ≤ pageSize := by decide
            omega)
        refine filled.tail ?_
        exact Move.queue quiet rfl queued (grants.gateway path queued rfl rfl rfl rfl rfl)

theorem attachNormal_path (quiet : v.flight = 0) {C : Codec} {pending : List PendingHook}
    {target start detour : ℕ} {follow : Bool} {os : AttachOs}
    (grants : R.GrantsAttach C v.code v.pend v.objs v.traps start detour follow os)
    (nonnull : target ≠ 0) (path : takesGatewayPath v.code start follow = false)
    (resolved : target = resolveTarget v.code start follow os) :
    ∃ ds : List InlineData,
      (attachNormal C foreign v.code pending target detour os).2.2 = pending ++ ds.map .inline ∧
      Path R foreign v { v with
        code := (attachNormal C foreign v.code pending target detour os).2.1
        pend := ↑ds + v.pend } := by
  have nothing : ∀ {c}, Path R foreign v { v with code := c } →
      Path R foreign v { v with code := c, pend := ↑([] : List InlineData) + v.pend } := by
    intro c path
    simpa only [Multiset.coe_nil, Multiset.zero_add] using path
  unfold attachNormal
  cases queuedInline pending target detour with
  | some queued => exact ⟨[], by simp, nothing .refl⟩
  | none =>
    simp only
    cases measured : Disassembler.getInstructionLen C (os.readableFrom target) v.code.mem target
        (selectJump target detour).size with
    | none => exact ⟨[], by simp, nothing .refl⟩
    | some stolenLen =>
      simp only
      split_ifs with refused
      · exact ⟨[], by simp, nothing .refl⟩
      · obtain ⟨-, -, clear⟩ : _ ∧ _ ∧ v.code.overlapsLivePatch target stolenLen = false := by
          simpa only [not_or, Bool.not_eq_true] using refused
        cases alloc : v.code.allocNearbyTrampoline foreign os.stubAt trampAllocSize with
        | none => exact ⟨[], by simp, nothing .refl⟩
        | some ct =>
          obtain ⟨c, t⟩ := ct
          obtain ⟨size, atStub, free, rfl, allocated⟩ :=
            allocNearbyTrampoline_path quiet grants.toGrantsStub (by decide) alloc
          have pos : 0 < t.size := free.2.1
          have stubbed : Path R foreign v { v with
              code := v.code.allocate t.region
              held := t.region ::ₘ v.held } := .single allocated
          simp only
          cases relocated : Disassembler.relocate C (v.code.allocate t.region).mem target
              (t.ptr + managedGatewayLen) stolenLen with
          | none => exact ⟨[], by simp, nothing (stubbed.trans (discard_path rfl free.1))⟩
          | some relocation =>
            have fits := Disassembler.relocate_fits relocated
              (Disassembler.getInstructionLen_le_max measured (selectJump_size_le _ _))
            have filled : Path R foreign v { v with
                code := (v.code.allocate t.region).store (t.ptr + managedGatewayLen)
                  relocation.code none
                held := t.region ::ₘ v.held } := by
              refine stubbed.trans (fill_path rfl pos grants.toGrantsStub atStub (by omega) ?_)
              unfold RelocationMapping.writtenLen at fits
              omega
            simp only
            split_ifs with long
            · exact ⟨[], by simp, nothing (filled.trans (discard_path rfl free.1))⟩
            · let c₂ := ((v.code.allocate t.region).store (t.ptr + managedGatewayLen)
                relocation.code none).store t.ptr
                  (managedGatewayStub (t.ptr + managedGatewayLen)) none
              let c₃ := registerRelocated c₂ t.ptr trampCapacity os
              obtain ⟨patches, int3, -⟩ := registerRelocated_same c₂ t.ptr trampCapacity os
              have stub := length_managedGatewayStub (t.ptr + managedGatewayLen)
              have built : Path R foreign v { v with code := c₃, held := t.region ::ₘ v.held } := by
                refine (filled.trans (fill_path rfl pos grants.toGrantsStub atStub le_rfl ?_)).trans
                  (registerRelocated_path rfl pos grants.toGrantsStub atStub (by decide))
                rw [stub]
                have : managedGatewayLen ≤ pageSize := by decide
                omega
              let d : InlineData :=
                { target, detour, stolenLen
                  trampoline := t
                  jumpType := selectJump target detour
                  origBytes := read c₃.mem target stolenLen
                  redirectBase := t.ptr + managedGatewayLen
                  targetKind := .normal
                  redirectMap := some
                    ⟨relocation.oldInstructionOffsets, relocation.newInstructionOffsets⟩ }
              have queued : d.Queued c₃ := by
                refine ⟨nonnull, rfl, Disassembler.le_getInstructionLen measured, rfl, fun _ =>
                  ⟨?_, ?_⟩, by simp [d]⟩
                · rw [Code.overlapsLivePatch_eq_false, Code.armedInRange_eq_false] at clear ⊢
                  rw [patches, int3]
                  exact clear
                · have same := read_write_same ((v.code.allocate t.region).store
                    (t.ptr + managedGatewayLen) relocation.code none).mem t.ptr
                    (managedGatewayStub (t.ptr + managedGatewayLen))
                  rw [stub] at same
                  refine Eq.trans (read_congr fun x hx => ?_) same
                  refine registerRelocated_mem fun inside => ?_
                  obtain ⟨_, hi⟩ := hx
                  obtain ⟨lo, _⟩ := inside
                  have : managedGatewayLen ≤ trampCapacity := by decide
                  change x < t.ptr + managedGatewayLen at hi
                  omega
              refine ⟨[d], by simp [d, c₃, c₂], built.tail ?_⟩
              exact Move.queue quiet rfl queued
                (grants.normal path queued rfl resolved rfl measured)

/-- `attach_inner` is a sequence of moves that queues at most one inline hook. -/
theorem attachInner_path (base : Base v) (quiet : v.flight = 0) {C : Codec}
    {pending : List PendingHook} {target detour : ℕ} {follow : Bool} {os : AttachOs}
    (grants : R.GrantsAttach C v.code v.pend v.objs v.traps target detour follow os) :
    ∃ ds : List InlineData,
      (attachInner C foreign v.code pending target detour follow os).2.2 =
        pending ++ ds.map .inline ∧
      Path R foreign v { v with
        code := (attachInner C foreign v.code pending target detour follow os).2.1
        pend := ↑ds + v.pend } := by
  have nothing : Path R foreign v { v with code := v.code, pend := ↑([] : List InlineData) + v.pend } := by
    simp only [Multiset.coe_nil, Multiset.zero_add]
    exact .refl
  unfold attachInner
  split_ifs with null chained path
  · exact ⟨[], by simp, nothing⟩
  · exact ⟨[], by simp, nothing⟩
  · have follows : follow = true := by
      simp only [takesGatewayPath, Bool.and_eq_true] at path
      exact path.1
    have unchained : v.code.chainedGateways target = none := by
      simpa [follows, Code.isChainedGateway] using chained
    exact attachGateway_path base quiet grants (fun zero => null (.inl zero)) path unchained
  · simp only
    split_ifs with zero
    · exact ⟨[], by simp, nothing⟩
    · exact attachNormal_path quiet grants zero (by simpa using path) rfl

/-- `build_original_gateway` is a sequence of moves that leaves the stub with the caller. -/
theorem buildOriginalGateway_path (quiet : v.flight = 0) {C : Codec} {target : ℕ} {os : AttachOs}
    {makeRx : Bool} (grants : R.GrantsStub v.code.pass v.pend v.objs v.traps
      (originalGatewayAt C v.code target os)) :
    (∀ t ∈ (buildOriginalGateway C foreign v.code target os makeRx).1, t.ptr ≠ 0) ∧
    Path R foreign v { v with
      code := (buildOriginalGateway C foreign v.code target os makeRx).2
      held := ((buildOriginalGateway C foreign v.code target os makeRx).1.toList.map
        Trampoline.region : Multiset Region) + v.held } := by
  unfold buildOriginalGateway
  cases measured : Disassembler.getInstructionLen C (os.readableFrom target) v.code.mem target 1 with
  | none => exact ⟨by simp, by simpa using Path.refl⟩
  | some len =>
    rw [originalGatewayAt, measured, Option.bind_some] at grants
    simp only
    cases alloc : v.code.allocNearbyTrampoline foreign os.stubAt (gatewayCapacity + unwindArea) with
    | none => exact ⟨by simp, by simpa using Path.refl⟩
    | some ct =>
      obtain ⟨c, t⟩ := ct
      obtain ⟨size, atStub, free, rfl, allocated⟩ :=
        allocNearbyTrampoline_path quiet grants (by decide) alloc
      have pos : 0 < t.size := free.2.1
      have stubbed : Path R foreign v { v with
          code := v.code.allocate t.region
          held := t.region ::ₘ v.held } := .single allocated
      simp only
      cases relocated : Disassembler.relocate C (v.code.allocate t.region).mem target t.ptr len with
      | none =>
        exact ⟨by simp, by simpa using Path.trans stubbed (discard_path rfl free.1)⟩
      | some mapping =>
        have fits := Disassembler.relocate_fits relocated
          (Disassembler.getInstructionLen_le_max measured (by decide))
        have built : Path R foreign v { v with
            code := registerRelocated ((v.code.allocate t.region).store t.ptr mapping.code none)
              t.ptr gatewayCapacity os
            held := t.region ::ₘ v.held } := by
          refine (stubbed.trans (fill_path rfl pos grants atStub le_rfl ?_)).trans
            (registerRelocated_path rfl pos grants atStub (by decide))
          unfold RelocationMapping.writtenLen at fits
          omega
        cases makeRx with
        | true =>
          refine ⟨fun t' ht => ?_, by simpa using built⟩
          obtain rfl : t = t' := by simpa using ht
          exact free.1
        | false =>
          exact ⟨by simp, by simpa using Path.trans built (discard_path rfl free.1)⟩

end NeoHook
