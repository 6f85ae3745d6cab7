import NeoHook.InlineHook
import NeoHook.Reclaim
import NeoHook.Tables

/-!
# Queueing hooks

The queue of a `TransactionCore` and the operations that fill it: `attach` and `attach_exact` with
their shared `attach_inner`, the `attach_*` of the table hooks, and `detach`.
-/

namespace NeoHook

open ByteMap

/-- Where an installed hook lives, which is how a queued detach names it (`DetachTarget`). -/
inductive Place where
  | hookPtr (hook : ℕ)
  | handleIndex (handle index : ℕ)
  deriving DecidableEq, Repr

inductive PendingHook where
  | inline (data : InlineData)
  | iat (module : ℕ) (targetDll targetFunc : String) (detour slot : ℕ)
  | eat (module : ℕ) (targetFunc : String) (detour slot : ℕ)
  | vtable (vtable index detour : ℕ)
  | vtableInstance (objectVptr vtableLen index detour : ℕ)
  | detach (target : Place)
  deriving DecidableEq, Repr

/-- The inline hook of a queue entry. -/
def PendingHook.inlineData : PendingHook → Option InlineData
  | .inline d => some d
  | _ => none

/-- Drops a queue entry: the stub of an inline hook is retired. -/
def PendingHook.drop (c : Code) : PendingHook → Code
  | .inline d => d.drop c
  | _ => c

/-- What the OS and the loaded code answer while a hook is queued. -/
structure AttachOs where
  /-- The bytes at an address can be read. -/
  readable : ℕ → ℕ → Bool
  /-- `readable_bytes_from`. -/
  readableFrom : ℕ → ℕ
  /-- The address `VirtualAlloc` finds for the stub. -/
  stubAt : Option ℕ
  /-- The unwind data translated for the stub. -/
  unwindData : Option (List UInt8)
  /-- `RtlAddFunctionTable` accepts it. -/
  addTable : Bool

/-- Size of the stub of a hook chained on a gateway. -/
def gatewayStubSize : ℕ := max managedGatewayLen 64

/-- `tramp_capacity` of `attach_inner`. -/
def trampCapacity : ℕ := 128

def trampAllocSize : ℕ := trampCapacity + unwindArea

/-- Applies the same-target rule to an inline hook already queued on the target. -/
def queuedInline (pending : List PendingHook) (target detour : ℕ) :
    Option (Except DetourError ℕ) :=
  pending.findSome? fun p => match p with
    | .inline existing =>
      if existing.target = target then
        some (if existing.detour = detour then .ok existing.trampoline.ptr
          else .error .invalidParameter)
      else none
    | _ => none

/-- `register_relocated`: the unwind data goes behind the code of the stub. -/
def registerRelocated (c : Code) (region areaOffset : ℕ) (os : AttachOs) : Code :=
  match os.unwindData with
  | none => c
  | some data =>
    let c := c.store (region + areaOffset) (data.take unwindArea) none
    if os.addTable then c.registerTable region else c

theorem registerRelocated_same (c : Code) (gateway offset : ℕ) (os : AttachOs) :
    (registerRelocated c gateway offset os).livePatches = c.livePatches ∧
      (registerRelocated c gateway offset os).int3 = c.int3 ∧
      (registerRelocated c gateway offset os).pass = c.pass := by
  unfold registerRelocated
  cases os.unwindData with
  | none => exact ⟨rfl, rfl, rfl⟩
  | some data => cases os.addTable <;> exact ⟨rfl, rfl, rfl⟩

/-- The unwind data lies behind the code of the stub. -/
theorem registerRelocated_mem {c : Code} {gateway offset : ℕ} {os : AttachOs} {x : ℕ}
    (h : ¬ InRange (gateway + offset) unwindArea x) :
    (registerRelocated c gateway offset os).mem x = c.mem x := by
  unfold registerRelocated
  cases os.unwindData with
  | none => rfl
  | some data =>
    have outside : ¬ InRange (gateway + offset) (data.take unwindArea).length x := fun inside =>
      h (inRange_of_sub le_rfl (by have := List.length_take_le unwindArea data; omega) inside)
    cases os.addTable <;> exact write_of_notMem outside

section

variable (C : Codec) (foreign : List Region)

/-- The gateway branch of `attach_inner`. -/
def attachGateway (c : Code) (pending : List PendingHook) (target detour : ℕ) (os : AttachOs) :
    Except DetourError ℕ × Code × List PendingHook :=
  match queuedInline pending target detour with
  | some queued => (queued, c, pending)
  | none =>
    match readManagedGatewayTarget c.mem target with
    | none => (.error .invalidParameter, c, pending)
    | some previousTarget =>
      match c.allocNearbyTrampoline foreign os.stubAt gatewayStubSize with
      | none => (.error .allocationFailed, c, pending)
      | some (c, trampoline) =>
        let gateway := trampoline.ptr
        let c := c.store gateway (managedGatewayStub previousTarget) none
        let data : InlineData :=
          { target, detour, trampoline
            stolenLen := managedGatewayLen
            jumpType := selectJump target detour
            origBytes := read c.mem target managedGatewayLen
            redirectBase := gateway
            targetKind := .managedGateway
            redirectMap := none }
        (.ok gateway, c, pending ++ [.inline data])

/-- The stolen range overlaps an inline hook queued in the transaction. -/
def overlapsPending (pending : List PendingHook) (target len : ℕ) : Bool :=
  (pending.filterMap (·.inlineData)).any fun e => Code.rangesOverlap e.target e.stolenLen target len

/-- The other branch of `attach_inner`, for a target whose jump stubs were followed. -/
def attachNormal (c : Code) (pending : List PendingHook) (target detour : ℕ) (os : AttachOs) :
    Except DetourError ℕ × Code × List PendingHook :=
  match queuedInline pending target detour with
  | some queued => (queued, c, pending)
  | none =>
    let jumpType := selectJump target detour
    match Disassembler.getInstructionLen C (os.readableFrom target) c.mem target jumpType.size with
    | none => (.error .invalidParameter, c, pending)
    | some stolenLen =>
      if Disassembler.branchesInto C (os.readableFrom target) c.mem target stolenLen ∨
          overlapsPending pending target stolenLen ∨ c.overlapsLivePatch target stolenLen then
        (.error .invalidParameter, c, pending)
      else match c.allocNearbyTrampoline foreign os.stubAt trampAllocSize with
        | none => (.error .allocationFailed, c, pending)
        | some (c, trampoline) =>
          let gateway := trampoline.ptr
          let body := gateway + managedGatewayLen
          match Disassembler.relocate C c.mem target body stolenLen with
          | none => (.error .relocationFailed, c.dropTrampoline trampoline, pending)
          | some relocation =>
            let c := c.store body relocation.code none
            if trampCapacity < managedGatewayLen + relocation.writtenLen then
              (.error .relocationFailed, c.dropTrampoline trampoline, pending)
            else
              let c := c.store gateway (managedGatewayStub body) none
              let c := registerRelocated c gateway trampCapacity os
              let data : InlineData :=
                { target, detour, trampoline, stolenLen, jumpType
                  origBytes := read c.mem target stolenLen
                  redirectBase := body
                  targetKind := .normal
                  redirectMap := some
                    ⟨relocation.oldInstructionOffsets, relocation.newInstructionOffsets⟩ }
              (.ok gateway, c, pending ++ [.inline data])

/-- Whether `attach_inner` takes the gateway branch. -/
def takesGatewayPath (c : Code) (target : ℕ) (followThunks : Bool) : Bool :=
  followThunks && c.isManagedGateway target

/-- The address the other branch patches. -/
def resolveTarget (c : Code) (target : ℕ) (followThunks : Bool) (os : AttachOs) : ℕ :=
  if followThunks then detourCodeFromPointer os.readable c.mem target else target

/-- `attach_inner` of a pending transaction. -/
def attachInner (c : Code) (pending : List PendingHook) (target detour : ℕ) (followThunks : Bool)
    (os : AttachOs) : Except DetourError ℕ × Code × List PendingHook :=
  if target = 0 ∨ detour = 0 then (.error .invalidParameter, c, pending)
  else if followThunks && c.isChainedGateway target then (.error .invalidParameter, c, pending)
  else if takesGatewayPath c target followThunks then
    attachGateway foreign c pending target detour os
  else
    let target := resolveTarget c target followThunks os
    if target = 0 then (.error .invalidParameter, c, pending)
    else attachNormal C foreign c pending target detour os

/-- The attach gets to the allocation of its stub. -/
def attachBuilds (c : Code) (pending : List PendingHook) (target detour : ℕ) (followThunks : Bool)
    (os : AttachOs) : Prop :=
  target ≠ 0 ∧ detour ≠ 0 ∧ (followThunks && c.isChainedGateway target) = false ∧
    if takesGatewayPath c target followThunks then
      queuedInline pending target detour = none ∧ (readManagedGatewayTarget c.mem target).isSome
    else
      let target := resolveTarget c target followThunks os
      target ≠ 0 ∧ queuedInline pending target detour = none ∧
        ∃ n, Disassembler.getInstructionLen C (os.readableFrom target) c.mem target
            (selectJump target detour).size = some n ∧
          ¬ (Disassembler.branchesInto C (os.readableFrom target) c.mem target n ∨
            overlapsPending pending target n ∨ c.overlapsLivePatch target n)

/-- An attach that is refused before that changes nothing. -/
theorem attachInner_refused {c : Code} {pending : List PendingHook} {target detour : ℕ}
    {followThunks : Bool} {os : AttachOs}
    (refused : ¬ attachBuilds C c pending target detour followThunks os) :
    (attachInner C foreign c pending target detour followThunks os).2 = (c, pending) := by
  unfold attachInner
  split_ifs with null chained path
  · rfl
  · rfl
  · unfold attachGateway
    cases queued : queuedInline pending target detour with
    | some answer => rfl
    | none =>
      cases previous : readManagedGatewayTarget c.mem target with
      | none => rfl
      | some dest =>
        refine absurd ⟨fun zero => null (.inl zero), fun zero => null (.inr zero), ?_, ?_⟩ refused
        · simpa using chained
        · rw [if_pos path, previous]
          exact ⟨queued, rfl⟩
  · simp only
    split_ifs with zero
    · rfl
    unfold attachNormal
    cases queued : queuedInline pending (resolveTarget c target followThunks os) detour with
    | some answer => rfl
    | none =>
      simp only
      cases measured : Disassembler.getInstructionLen C
          (os.readableFrom (resolveTarget c target followThunks os)) c.mem
          (resolveTarget c target followThunks os)
          (selectJump (resolveTarget c target followThunks os) detour).size with
      | none => rfl
      | some n =>
        simp only
        split_ifs with blocked
        · rfl
        · refine absurd ⟨fun zero => null (.inl zero), fun zero => null (.inr zero), ?_, ?_⟩ refused
          · simpa using chained
          · rw [if_neg path]
            exact ⟨zero, queued, n, measured, blocked⟩

end

/-! ### The call-original stub of an INT3 hook -/

/-- `GATEWAY_CAPACITY` of `gateway.rs`. -/
def gatewayCapacity : ℕ := 64

/-- `build_original_gateway`; `makeRx` is whether the stub can be made executable. -/
def buildOriginalGateway (C : Codec) (foreign : List Region) (c : Code) (target : ℕ) (os : AttachOs)
    (makeRx : Bool) : Option Trampoline × Code :=
  match Disassembler.getInstructionLen C (os.readableFrom target) c.mem target 1 with
  | none => (none, c)
  | some len =>
    match c.allocNearbyTrampoline foreign os.stubAt (gatewayCapacity + unwindArea) with
    | none => (none, c)
    | some (c, tramp) =>
      match Disassembler.relocate C c.mem target tramp.ptr len with
      | none => (none, c.dropTrampoline tramp)
      | some mapping =>
        let c := c.store tramp.ptr mapping.code none
        let c := registerRelocated c tramp.ptr gatewayCapacity os
        if makeRx then (some tramp, c) else (none, c.dropTrampoline tramp)

/-- Where the stub of `build_original_gateway` is asked for, if it gets there. -/
def originalGatewayAt (C : Codec) (c : Code) (target : ℕ) (os : AttachOs) : Option ℕ :=
  (Disassembler.getInstructionLen C (os.readableFrom target) c.mem target 1).bind fun _ => os.stubAt

theorem dropTrampoline_same (c : Code) (t : Trampoline) :
    (c.dropTrampoline t).livePatches = c.livePatches ∧ (c.dropTrampoline t).int3 = c.int3 := by
  unfold Code.dropTrampoline Code.retire
  split_ifs <;> exact ⟨rfl, rfl⟩

theorem buildOriginalGateway_same {C : Codec} {foreign : List Region} {c : Code} {target : ℕ}
    {os : AttachOs} {makeRx : Bool} :
    (buildOriginalGateway C foreign c target os makeRx).2.livePatches = c.livePatches ∧
      (buildOriginalGateway C foreign c target os makeRx).2.int3 = c.int3 := by
  unfold buildOriginalGateway
  cases Disassembler.getInstructionLen C (os.readableFrom target) c.mem target 1 with
  | none => exact ⟨rfl, rfl⟩
  | some len =>
    simp only
    cases alloc : c.allocNearbyTrampoline foreign os.stubAt (gatewayCapacity + unwindArea) with
    | none => exact ⟨rfl, rfl⟩
    | some p =>
      obtain ⟨c', t⟩ := p
      obtain ⟨-, -, rfl⟩ := Code.allocNearbyTrampoline_eq_some alloc
      simp only
      cases Disassembler.relocate C (c.allocate t.region).mem target t.ptr len with
      | none => exact dropTrampoline_same _ _
      | some mapping =>
        simp only
        obtain ⟨patches, int3, -⟩ := registerRelocated_same
          ((c.allocate t.region).store t.ptr mapping.code none) t.ptr gatewayCapacity os
        split_ifs
        · exact ⟨patches, int3⟩
        · obtain ⟨patches', int3'⟩ := dropTrampoline_same (registerRelocated
            ((c.allocate t.region).store t.ptr mapping.code none) t.ptr gatewayCapacity os) t
          exact ⟨patches'.trans patches, int3'.trans int3⟩

/-! ### Table hooks and detaches -/

/-- Whether a live hook or one queued in this transaction already redirects the slot. -/
def tableSlotTaken (t : Tables) (pending : List PendingHook) (slot : ℕ) : Bool :=
  (pending.any fun p => match p with
    | .iat _ _ _ _ queued => queued = slot
    | .eat _ _ _ queued => queued = slot
    | .vtable vtable index _ => slotAddr vtable index = slot
    | _ => false) || t.tableSlotClaimed slot

/-- `attach_iat`; `readable` is whether the module base can be read. -/
def attachIat (M : Modules) (t : Tables) (pending : List PendingHook) (module : ℕ)
    (dll func : String) (detour : ℕ) (readable : Bool) :
    Except DetourError Unit × List PendingHook :=
  if readable = false then (.error .invalidParameter, pending)
  else match M.findImport module dll func with
    | .error e => (.error (.iat e), pending)
    | .ok slot =>
      if tableSlotTaken t pending slot then (.error .invalidParameter, pending)
      else (.ok (), pending ++ [.iat module dll func detour slot])

def attachEat (M : Modules) (t : Tables) (pending : List PendingHook) (module : ℕ) (func : String)
    (detour : ℕ) (readable : Bool) : Except DetourError Unit × List PendingHook :=
  if module = 0 ∨ detour = 0 ∨ readable = false then (.error .invalidParameter, pending)
  else match EatHook.findExport M t module func with
    | .error e => (.error (.eat e), pending)
    | .ok slot =>
      if tableSlotTaken t pending slot then (.error .invalidParameter, pending)
      else (.ok (), pending ++ [.eat module func detour slot])

def attachVtable (t : Tables) (pending : List PendingHook) (vtable index detour : ℕ)
    (readable : Bool) : Except DetourError ℕ × List PendingHook :=
  let slot := slotAddr vtable index
  if vtable = 0 ∨ detour = 0 ∨ readable = false ∨ tableSlotTaken t pending slot then
    (.error .invalidParameter, pending)
  else (.ok (t.words slot), pending ++ [.vtable vtable index detour])

def attachVtableInstance (t : Tables) (pending : List PendingHook)
    (objectVptr index vtableLen detour : ℕ) : Except DetourError ℕ × List PendingHook :=
  let queued := pending.any fun p => match p with
    | .vtableInstance object _ i _ => object = objectVptr ∧ i = index
    | _ => false
  let original := t.words objectVptr
  if objectVptr = 0 ∨ detour = 0 ∨ vtableLen = 0 ∨ vtableLen ≤ index ∨ original = 0 ∨ queued ∨
      t.instanceSlotHooked objectVptr index then
    (.error .invalidParameter, pending)
  else (.ok (t.words (slotAddr original index)),
    pending ++ [.vtableInstance objectVptr vtableLen index detour])

/-- `detach` and `detach_handle_index`; `present` is whether the place holds a hook. -/
def queueDetach (pending : List PendingHook) (target : Place) (present : Bool) :
    Except DetourError Unit × List PendingHook :=
  if PendingHook.detach target ∈ pending ∨ present = false then (.error .invalidParameter, pending)
  else (.ok (), pending ++ [.detach target])

end NeoHook
