import NeoHook.Disasm

/-!
# Unwind codes of a stub

`translate` of `unwind.rs`: the unwind codes of a function are carried over to a stub that runs a
relocated copy of part of its prologue.  Codes of instructions before the stub always apply, codes
of relocated instructions get the offset the instruction ends at in the stub, and codes of
instructions after the stub are dropped.

`parseOps` reads an array of codes as whole operations; `translate` is shown to carry operations
over, without reading outside the array.
-/

namespace NeoHook

namespace Unwind

def unwFlagChaininfo : UInt8 := 0x4

@[match_pattern] def uwopPushNonvol : ℕ := 0
@[match_pattern] def uwopAllocLarge : ℕ := 1
@[match_pattern] def uwopAllocSmall : ℕ := 2
@[match_pattern] def uwopSetFpreg : ℕ := 3
@[match_pattern] def uwopSaveNonvol : ℕ := 4
@[match_pattern] def uwopSaveNonvolFar : ℕ := 5
/-- `UWOP_EPILOG` in version 2 unwind info, `UWOP_SAVE_XMM` in version 1. -/
@[match_pattern] def uwopEpilogOrSaveXmm : ℕ := 6
/-- `UWOP_SPARE_CODE` in version 2, `UWOP_SAVE_XMM_FAR` in version 1. -/
@[match_pattern] def uwopSpareOrSaveXmmFar : ℕ := 7
@[match_pattern] def uwopSaveXmm128 : ℕ := 8
@[match_pattern] def uwopSaveXmm128Far : ℕ := 9
@[match_pattern] def uwopPushMachframe : ℕ := 10

/-! ### Codes -/

def offsetOf (code : UInt16) : ℕ := (code &&& 0xFF).toNat

def opOf (code : UInt16) : ℕ := ((code >>> 8) &&& 0xF).toNat

def infoOf (code : UInt16) : ℕ := (code >>> 12).toNat

/-- The code with its offset replaced. -/
def withOffset (code : UInt16) (offset : UInt8) : UInt16 := (code &&& 0xFF00) ||| offset.toUInt16

/-- The number of slots an operation takes. -/
def opLen (version op info : ℕ) : Option ℕ :=
  match op with
  | uwopPushNonvol | uwopAllocSmall | uwopSetFpreg | uwopPushMachframe => some 1
  | uwopAllocLarge => if info = 0 then some 2 else some 3
  | uwopSaveNonvol | uwopSaveXmm128 => some 2
  | uwopSaveNonvolFar | uwopSaveXmm128Far => some 3
  | uwopEpilogOrSaveXmm => if version = 2 then some 1 else some 2
  | uwopSpareOrSaveXmmFar => if version = 2 then some 2 else some 3
  | _ => none

/-- The operation describes an epilogue. -/
def isEpilog (version op : ℕ) : Bool :=
  version == 2 && (op == uwopEpilogOrSaveXmm || op == uwopSpareOrSaveXmmFar)

theorem opLen_pos {version op info len : ℕ} (known : opLen version op info = some len) :
    0 < len := by
  unfold opLen at known
  split at known <;> try split_ifs at known
  all_goals
    cases known
    try norm_num

/-- The layout of the other operations does not depend on the version. -/
theorem opLen_version {version op info : ℕ} (valid : version = 1 ∨ version = 2)
    (prologue : isEpilog version op = false) : opLen version op info = opLen 1 op info := by
  rcases valid with rfl | rfl
  · rfl
  · unfold opLen
    split <;> first | rfl | (simp [isEpilog, uwopEpilogOrSaveXmm, uwopSpareOrSaveXmmFar] at prologue)

/-! ### The translation -/

/-- An index outside its slice. -/
inductive Panic where
  | outOfRange
  deriving DecidableEq

structure Translated where
  slots : List UInt16
  prologSize : UInt8
  /-- `FrameRegister | FrameOffset << 4`. -/
  frame : UInt8
  deriving DecidableEq

/-- What becomes of an operation: it is kept with a new offset, it runs after the stub, or its
offset is not the end of a relocated instruction. -/
inductive Place where
  | kept (offset : ℕ)
  | after
  | unmapped
  | outOfRange
  deriving DecidableEq

def place (mapping : RelocationMapping) (delta stolenLen offset : ℕ) : Place :=
  if offset ≤ delta then .kept 0
  else if stolenLen < offset - delta then .after
  else if offset - delta = stolenLen then .kept mapping.jmpBackOffset
  else
    match mapping.oldInstructionOffsets.findIdx? (· == offset - delta) with
    | none => .unmapped
    | some index =>
      match mapping.newInstructionOffsets[index]? with
      | none => .outOfRange
      | some new => .kept new

/-- `source[start..stop]`. -/
def slots (source : List UInt16) (start stop : ℕ) : Option (List UInt16) :=
  if start ≤ stop ∧ stop ≤ source.length then some ((source.drop start).take (stop - start))
  else none

/-- What one turn of the loop does: it ends the translation, or passes an operation. -/
inductive Turn where
  | stop (result : Except Panic (Option Translated))
  | pass (len : ℕ) (t : Translated)

section Loop

variable (version : ℕ) (source : List UInt16) (mapping : RelocationMapping) (delta stolenLen : ℕ)

/-- The operation with the code `code` and `len` slots, at the slot `i`. -/
def turnAt (i : ℕ) (code : UInt16) (len : ℕ) (t : Translated) : Turn :=
  if source.length < i + len then .stop (.ok none)
  else if isEpilog version (opOf code) then .pass len t
  else
    match place mapping delta stolenLen (offsetOf code) with
    | .outOfRange => .stop (.error .outOfRange)
    | .unmapped => .stop (.ok none)
    | .after => .pass len (if opOf code = uwopSetFpreg then { t with frame := 0 } else t)
    | .kept new =>
      if 256 ≤ new then .stop (.ok none)
      else
        match slots source (i + 1) (i + len) with
        | none => .stop (.error .outOfRange)
        | some extra =>
          .pass len
            { t with
              slots := t.slots ++ withOffset code (UInt8.ofNat new) :: extra
              prologSize := max t.prologSize (UInt8.ofNat new) }

/-- One turn of the loop of `translate`, at the slot `i`. -/
def turn (i : ℕ) (t : Translated) : Turn :=
  match source[i]? with
  | none => .stop (.error .outOfRange)
  | some code =>
    match opLen version (opOf code) (infoOf code) with
    | none => .stop (.ok none)
    | some len => turnAt version source mapping delta stolenLen i code len t

variable {version source mapping delta stolenLen}

theorem turnAt_pass {i : ℕ} {code : UInt16} {len len' : ℕ} {t t' : Translated}
    (passed : turnAt version source mapping delta stolenLen i code len t = .pass len' t') :
    len' = len := by
  unfold turnAt at passed
  split at passed
  · cases passed
  · split at passed
    · cases passed
      rfl
    · split at passed
      · cases passed
      · cases passed
      · cases passed
        rfl
      · split at passed
        · cases passed
        · split at passed <;> cases passed
          rfl

theorem turn_pass {i len : ℕ} {t t' : Translated}
    (passed : turn version source mapping delta stolenLen i t = .pass len t') : 0 < len := by
  unfold turn at passed
  split at passed
  · cases passed
  · split at passed
    · cases passed
    · rename_i known
      rw [turnAt_pass passed]
      exact opLen_pos known

variable (version source mapping delta stolenLen)

/-- The loop of `translate`, from the slot `i` on. -/
def translateFrom (i : ℕ) (t : Translated) : Except Panic (Option Translated) :=
  if i < source.length then
    match _passed : turn version source mapping delta stolenLen i t with
    | .stop result => result
    | .pass len t' => translateFrom (i + len) t'
  else .ok (some t)
termination_by source.length - i
decreasing_by
  have := turn_pass _passed
  omega

end Loop

/-- What `RtlLookupFunctionEntry` and the unwind info it leads to say of a function. -/
structure FunctionEntry where
  imageBase : ℕ
  beginAddress : ℕ
  /-- The first byte of the unwind info: version and flags. -/
  header : UInt8
  frame : UInt8
  codes : List UInt16

def FunctionEntry.version (e : FunctionEntry) : ℕ := (e.header &&& 0x7).toNat

def FunctionEntry.flags (e : FunctionEntry) : UInt8 := e.header >>> 3

/-- `None` for `entry` is a leaf function. -/
def translate (entry : Option FunctionEntry) (target : ℕ) (mapping : RelocationMapping)
    (stolenLen : ℕ) : Except Panic (Option Translated) :=
  match entry with
  | none => .ok none
  | some e =>
    if e.flags &&& unwFlagChaininfo ≠ 0 ∨ ¬ (1 ≤ e.version ∧ e.version ≤ 2) then .ok none
    else if target < e.imageBase + e.beginAddress then .ok none
    else
      translateFrom e.version e.codes mapping (target - (e.imageBase + e.beginAddress)) stolenLen 0
        ⟨[], 0, e.frame⟩

/-! ### Operations -/

/-- An unwind operation: its code and the slots behind it. -/
structure Operation where
  code : UInt16
  extra : List UInt16
  deriving DecidableEq

namespace Operation

def offset (o : Operation) : ℕ := offsetOf o.code

def op (o : Operation) : ℕ := opOf o.code

def info (o : Operation) : ℕ := infoOf o.code

def slots (o : Operation) : List UInt16 := o.code :: o.extra

/-- The operation has all its slots. -/
def Whole (version : ℕ) (o : Operation) : Prop :=
  opLen version o.op o.info = some (o.extra.length + 1)

end Operation

/-- The first operation of an array of codes and the slots behind it. -/
def takeOp (version : ℕ) : List UInt16 → Option (Operation × List UInt16)
  | [] => none
  | code :: rest =>
    match opLen version (opOf code) (infoOf code) with
    | none => none
    | some len =>
      if rest.length + 1 < len then none
      else some (⟨code, rest.take (len - 1)⟩, rest.drop (len - 1))

/-- An array begins with an operation if the slots of the operation stand there. -/
theorem takeOp_eq_some {version : ℕ} {codes rest : List UInt16} {o : Operation} :
    takeOp version codes = some (o, rest) ↔ o.Whole version ∧ codes = o.slots ++ rest := by
  unfold Operation.Whole Operation.op Operation.info Operation.slots
  constructor
  · intro taken
    unfold takeOp at taken
    split at taken
    · cases taken
    · split at taken
      · cases taken
      · rename_i len known
        split_ifs at taken with fits
        cases taken
        have := opLen_pos known
        refine ⟨?_, ?_⟩
        · rw [known, List.length_take]
          congr 1
          omega
        · rw [List.cons_append, List.take_append_drop]
  · rintro ⟨known, rfl⟩
    have fits : ¬ (o.extra ++ rest).length + 1 < o.extra.length + 1 := by simp
    simp only [takeOp, List.cons_append, known, if_neg fits, Nat.add_sub_cancel, List.take_left,
      List.drop_left]

/-- The operations of an array of codes, if it holds only whole ones. -/
def parseOps (version : ℕ) (codes : List UInt16) : Option (List Operation) :=
  if codes = [] then some []
  else
    match _taken : takeOp version codes with
    | none => none
    | some (o, rest) => (parseOps version rest).map (o :: ·)
termination_by codes.length
decreasing_by
  have split := (takeOp_eq_some.mp _taken).2
  rw [split, Operation.slots, List.length_append, List.length_cons]
  omega

theorem parseOps_nil (version : ℕ) : parseOps version [] = some [] := by
  rw [parseOps, if_pos rfl]

theorem parseOps_append {version : ℕ} {o : Operation} (whole : o.Whole version)
    (rest : List UInt16) :
    parseOps version (o.slots ++ rest) = (parseOps version rest).map (o :: ·) := by
  have taken : takeOp version (o.slots ++ rest) = some (o, rest) := takeOp_eq_some.mpr ⟨whole, rfl⟩
  have some : o.slots ++ rest ≠ [] := by simp [Operation.slots]
  rw [parseOps, if_neg some]
  split
  · rename_i none
    rw [taken] at none
    cases none
  · rename_i found
    rw [taken] at found
    cases found
    rfl

/-- An array of whole operations is read back. -/
theorem parseOps_slots {version : ℕ} {ops : List Operation}
    (whole : ∀ o ∈ ops, o.Whole version) :
    parseOps version (ops.flatMap Operation.slots) = some ops := by
  induction ops with
  | nil => exact parseOps_nil version
  | cons o ops ih =>
    rw [List.flatMap_cons, parseOps_append (whole o List.mem_cons_self),
      ih fun other there => whole other (List.mem_cons_of_mem o there)]
    rfl

/-! ### Bits of a code -/

theorem offsetOf_withOffset (code : UInt16) (offset : UInt8) :
    offsetOf (withOffset code offset) = offset.toNat := by
  have bits : ((code &&& 0xFF00 ||| offset.toUInt16) &&& 0xFF).toBitVec =
      offset.toUInt16.toBitVec := by
    ext i inside
    interval_cases i <;> simp
  unfold offsetOf withOffset
  rw [← UInt16.toNat_toBitVec, bits]
  simp

theorem opOf_withOffset (code : UInt16) (offset : UInt8) :
    opOf (withOffset code offset) = opOf code := by
  have bits : (((code &&& 0xFF00 ||| offset.toUInt16) >>> 8) &&& 0xF).toBitVec =
      ((code >>> 8) &&& 0xF).toBitVec := by
    ext i inside
    interval_cases i <;> simp
  unfold opOf withOffset
  rw [← UInt16.toNat_toBitVec, bits, UInt16.toNat_toBitVec]

theorem infoOf_withOffset (code : UInt16) (offset : UInt8) :
    infoOf (withOffset code offset) = infoOf code := by
  have bits : ((code &&& 0xFF00 ||| offset.toUInt16) >>> 12).toBitVec =
      (code >>> 12).toBitVec := by
    ext i inside
    interval_cases i <;> simp
  unfold infoOf withOffset
  rw [← UInt16.toNat_toBitVec, bits, UInt16.toNat_toBitVec]

/-- The operation with its offset replaced. -/
def Operation.moved (o : Operation) (new : UInt8) : Operation := ⟨withOffset o.code new, o.extra⟩

theorem Operation.moved_offset (o : Operation) (new : UInt8) :
    (o.moved new).offset = new.toNat := offsetOf_withOffset o.code new

theorem Operation.moved_op (o : Operation) (new : UInt8) : (o.moved new).op = o.op :=
  opOf_withOffset o.code new

theorem Operation.moved_info (o : Operation) (new : UInt8) : (o.moved new).info = o.info :=
  infoOf_withOffset o.code new

/-- An operation that is no epilogue description is whole in version 1 too, wherever it moves. -/
theorem Operation.Whole.moved {version : ℕ} {o : Operation} (whole : o.Whole version)
    (valid : version = 1 ∨ version = 2) (prologue : isEpilog version o.op = false) (new : UInt8) :
    (o.moved new).Whole 1 := by
  unfold Operation.Whole at whole ⊢
  rw [Operation.moved_op, Operation.moved_info, ← opLen_version valid prologue, whole]
  rfl

/-! ### What the loop does -/

/-- The offsets of a mapping are in step: as many new as old ones, both increasing, and the jump
back behind the instructions. -/
structure Ordered (mapping : RelocationMapping) : Prop where
  sameLength : mapping.oldInstructionOffsets.length = mapping.newInstructionOffsets.length
  old : mapping.oldInstructionOffsets.Pairwise (· < ·)
  new : mapping.newInstructionOffsets.Pairwise (· < ·)
  back : ∀ n ∈ mapping.newInstructionOffsets, n < mapping.jmpBackOffset

section Carrying

variable (version : ℕ) (mapping : RelocationMapping) (delta stolenLen : ℕ)

/-- The translation passes the operations one after the other. -/
inductive Carries : List Operation → Translated → Translated → Prop where
  | done (t : Translated) : Carries [] t t
  | epilog {o : Operation} {ops : List Operation} {t t' : Translated}
      (epilog : isEpilog version o.op = true) (rest : Carries ops t t') : Carries (o :: ops) t t'
  | after {o : Operation} {ops : List Operation} {t t' : Translated}
      (prologue : isEpilog version o.op = false)
      (placed : place mapping delta stolenLen o.offset = .after)
      (rest : Carries ops (if o.op = uwopSetFpreg then { t with frame := 0 } else t) t') :
      Carries (o :: ops) t t'
  | kept {o : Operation} {ops : List Operation} {t t' : Translated} {new : ℕ}
      (prologue : isEpilog version o.op = false) (whole : o.Whole version)
      (placed : place mapping delta stolenLen o.offset = .kept new) (small : new < 256)
      (rest : Carries ops
        { t with
          slots := t.slots ++ (o.moved (UInt8.ofNat new)).slots
          prologSize := max t.prologSize (UInt8.ofNat new) } t') : Carries (o :: ops) t t'

variable {version mapping delta stolenLen} {source : List UInt16}

/-- With offsets in step the index into the new offsets is inside them. -/
theorem place_ne_outOfRange (ordered : Ordered mapping) (offset : ℕ) :
    place mapping delta stolenLen offset ≠ .outOfRange := by
  unfold place
  split_ifs
  · exact fun eq => by cases eq
  · exact fun eq => by cases eq
  · exact fun eq => by cases eq
  · split
    · exact fun eq => by cases eq
    · rename_i index found
      have inside : index < mapping.newInstructionOffsets.length := by
        rw [← ordered.sameLength]
        exact (List.findIdx?_eq_some_iff_findIdx_eq.mp found).1
      rw [List.getElem?_eq_getElem inside]
      exact fun eq => by cases eq

/-- A turn stops with `None`, or passes the operation at its slot. -/
theorem turn_cases (ordered : Ordered mapping) {i : ℕ} (inside : i < source.length)
    (t : Translated) :
    turn version source mapping delta stolenLen i t = .stop (.ok none) ∨
    ∃ o : Operation, o.Whole version ∧
      source.drop i = o.slots ++ source.drop (i + o.slots.length) ∧
      ∃ t', turn version source mapping delta stolenLen i t = .pass o.slots.length t' ∧
        ∀ {ops t''}, Carries version mapping delta stolenLen ops t' t'' →
          Carries version mapping delta stolenLen (o :: ops) t t'' := by
  have first : source.drop i = source[i] :: source.drop (i + 1) := List.drop_eq_getElem_cons inside
  unfold turn
  rw [List.getElem?_eq_getElem inside]
  simp only
  cases known : opLen version (opOf source[i]) (infoOf source[i]) with
  | none => exact .inl rfl
  | some len =>
    have positive := opLen_pos known
    simp only [turnAt]
    by_cases short : source.length < i + len
    · exact .inl (if_pos short)
    rw [if_neg short]
    have read : slots source (i + 1) (i + len) = some ((source.drop (i + 1)).take (len - 1)) := by
      unfold slots
      rw [if_pos ⟨by omega, by omega⟩]
      congr 2
      omega
    -- the operation at this slot
    let o : Operation := ⟨source[i], (source.drop (i + 1)).take (len - 1)⟩
    have length : o.slots.length = len := by
      show ((source.drop (i + 1)).take (len - 1)).length + 1 = len
      rw [List.length_take, List.length_drop]
      omega
    have whole : o.Whole version := by
      show opLen version (opOf source[i]) (infoOf source[i]) = some o.slots.length
      rw [length, known]
    have split : source.drop i = o.slots ++ source.drop (i + o.slots.length) := by
      have behind : source.drop (i + len) = (source.drop (i + 1)).drop (len - 1) := by
        rw [List.drop_drop]
        congr 1
        omega
      rw [length, behind, first]
      show _ = source[i] :: ((source.drop (i + 1)).take (len - 1) ++ _)
      rw [List.take_append_drop]
    have offset : offsetOf source[i] = o.offset := rfl
    have op : opOf source[i] = o.op := rfl
    rw [op, offset]
    cases epilog : isEpilog version o.op with
    | true =>
      refine .inr ⟨o, whole, split, t, ?_, fun rest => .epilog epilog rest⟩
      rw [length]
      rfl
    | false =>
      simp only [Bool.false_eq_true, if_false]
      cases placed : place mapping delta stolenLen o.offset with
      | outOfRange => exact absurd placed (place_ne_outOfRange ordered _)
      | unmapped => exact .inl rfl
      | after =>
        refine .inr ⟨o, whole, split, _, ?_, fun rest => .after epilog placed rest⟩
        rw [length]
      | kept new =>
        simp only
        by_cases large : 256 ≤ new
        · exact .inl (if_pos large)
        refine .inr ⟨o, whole, split, _, ?_, fun rest => .kept epilog whole placed (by omega) rest⟩
        rw [if_neg large, read, length]
        rfl

/-- The loop returns, and what it returns was carried over from whole operations. -/
theorem translateFrom_carries (ordered : Ordered mapping) (i : ℕ) (t : Translated) :
    ∃ result, translateFrom version source mapping delta stolenLen i t = .ok result ∧
      ∀ t', result = some t' → ∃ ops, parseOps version (source.drop i) = some ops ∧
        Carries version mapping delta stolenLen ops t t' := by
  induction distance : source.length - i using Nat.strong_induction_on generalizing i t with
  | _ n ih =>
    rw [translateFrom]
    split_ifs with inside
    · rcases @turn_cases version mapping delta stolenLen source ordered i inside t
        with stop | ⟨o, whole, split, t', pass, carries⟩
      · rw [stop]
        exact ⟨none, rfl, nofun⟩
      · rw [pass]
        have less : source.length - (i + o.slots.length) < n := by
          simp only [Operation.slots, List.length_cons]
          omega
        obtain ⟨result, returned, carried⟩ := ih _ less (i + o.slots.length) t' rfl
        refine ⟨result, returned, fun t'' same => ?_⟩
        obtain ⟨ops, parsed, rest⟩ := carried t'' same
        refine ⟨o :: ops, ?_, carries rest⟩
        rw [split, parseOps_append whole, parsed]
        rfl
    · refine ⟨some t, rfl, fun t' same => ?_⟩
      cases same
      refine ⟨[], ?_, .done t⟩
      rw [List.drop_eq_nil_of_le (by omega), parseOps_nil]

/-! ### Which operations are kept, and where -/

variable (mapping stolenLen)

/-- The instruction that ends `ended` bytes into the stolen code ends at `new` in the stub: the next
instruction, or the jump back, starts there. -/
def RelocatedEnd (ended new : ℕ) : Prop :=
  (ended = stolenLen ∧ new = mapping.jmpBackOffset) ∨
  (ended < stolenLen ∧ ∃ i : ℕ, mapping.oldInstructionOffsets[i]? = some ended ∧
    mapping.newInstructionOffsets[i]? = some new)

variable {mapping stolenLen}

theorem place_after {offset : ℕ} :
    place mapping delta stolenLen offset = .after ↔ delta + stolenLen < offset := by
  unfold place
  split_ifs
  · simp only [false_iff]
    omega
  · simp only [true_iff]
    omega
  · simp only [false_iff]
    omega
  · have : ¬ delta + stolenLen < offset := by omega
    simp only [this, iff_false]
    split
    · exact fun eq => by cases eq
    · split <;> exact fun eq => by cases eq

/-- Where a kept operation goes. -/
theorem place_kept {offset new : ℕ} (placed : place mapping delta stolenLen offset = .kept new) :
    offset ≤ delta + stolenLen ∧ (offset ≤ delta → new = 0) ∧
      (delta < offset → RelocatedEnd mapping stolenLen (offset - delta) new) := by
  unfold place at placed
  split_ifs at placed with early late last
  · cases placed
    exact ⟨by omega, fun _ => rfl, fun less => by omega⟩
  · cases placed
    exact ⟨by omega, fun less => by omega, fun _ => .inl ⟨last, rfl⟩⟩
  · refine ⟨by omega, fun less => by omega, fun _ => .inr ⟨by omega, ?_⟩⟩
    split at placed
    · cases placed
    · rename_i index found
      split at placed
      · cases placed
      · rename_i n read
        cases placed
        refine ⟨index, ?_, read⟩
        obtain ⟨inside, same, _⟩ := List.findIdx?_eq_some_iff_getElem.mp found
        rw [List.getElem?_eq_getElem inside]
        simpa using same

/-- The relocation keeps the order of the ends. -/
theorem RelocatedEnd.mono (ordered : Ordered mapping) {ended ended' new new' : ℕ}
    (here : RelocatedEnd mapping stolenLen ended new)
    (there : RelocatedEnd mapping stolenLen ended' new') (less : ended ≤ ended') : new ≤ new' := by
  rcases here with ⟨rfl, rfl⟩ | ⟨before, i, old, placed⟩
  · rcases there with ⟨_, rfl⟩ | ⟨before', _⟩
    · exact le_rfl
    · omega
  · rcases there with ⟨_, rfl⟩ | ⟨_, j, old', placed'⟩
    · exact (ordered.back new (List.mem_of_getElem? placed)).le
    · obtain ⟨inside, rfl⟩ := List.getElem?_eq_some_iff.mp old
      obtain ⟨inside', rfl⟩ := List.getElem?_eq_some_iff.mp old'
      obtain ⟨within, rfl⟩ := List.getElem?_eq_some_iff.mp placed
      obtain ⟨within', rfl⟩ := List.getElem?_eq_some_iff.mp placed'
      rcases Nat.lt_trichotomy i j with before' | rfl | behind
      · exact (List.pairwise_iff_getElem.mp ordered.new i j within within' before').le
      · exact le_rfl
      · have := List.pairwise_iff_getElem.mp ordered.old j i inside' inside behind
        omega

theorem place_mono (ordered : Ordered mapping) {offset offset' new new' : ℕ}
    (placed : place mapping delta stolenLen offset = .kept new)
    (placed' : place mapping delta stolenLen offset' = .kept new') (less : offset ≤ offset') :
    new ≤ new' := by
  obtain ⟨_, early, late⟩ := place_kept placed
  obtain ⟨_, _, late'⟩ := place_kept placed'
  by_cases first : offset ≤ delta
  · rw [early first]
    exact Nat.zero_le _
  · exact (late (by omega)).mono ordered (late' (by omega)) (by omega)

variable (version delta stolenLen)

/-- The operations that are no epilogue descriptions. -/
def prologueOps (ops : List Operation) : List Operation := ops.filter fun o => !isEpilog version o.op

/-- The operations of instructions that end before or in the stolen code. -/
def keptOps (ops : List Operation) : List Operation :=
  (prologueOps version ops).filter fun o => o.offset ≤ delta + stolenLen

variable (mapping) {version}

/-- The operation of the stub for an operation of the function. -/
structure CarriedOver (o o' : Operation) : Prop where
  op : o'.op = o.op
  info : o'.info = o.info
  extra : o'.extra = o.extra
  before : o.offset ≤ delta → o'.offset = 0
  within : delta < o.offset → RelocatedEnd mapping stolenLen (o.offset - delta) o'.offset

variable {mapping delta stolenLen}

/-- The operation is kept at the offset the loop gives it. -/
def KeptAs (mapping : RelocationMapping) (delta stolenLen : ℕ) (o o' : Operation) : Prop :=
  ∃ new < 256, place mapping delta stolenLen o.offset = .kept new ∧ o' = o.moved (UInt8.ofNat new)

theorem KeptAs.offset {o o' : Operation} (kept : KeptAs mapping delta stolenLen o o') :
    place mapping delta stolenLen o.offset = .kept o'.offset := by
  obtain ⟨new, small, placed, rfl⟩ := kept
  rw [placed, Operation.moved_offset, UInt8.toNat_ofNat', Nat.mod_eq_of_lt small]

theorem KeptAs.carriedOver {o o' : Operation} (kept : KeptAs mapping delta stolenLen o o') :
    CarriedOver mapping delta stolenLen o o' := by
  obtain ⟨_, before, within⟩ := place_kept kept.offset
  obtain ⟨new, _, _, rfl⟩ := kept
  exact ⟨Operation.moved_op o _, Operation.moved_info o _, rfl, before, within⟩

theorem toNat_max (a b : UInt8) : (max a b).toNat = max a.toNat b.toNat := by
  show (if a ≤ b then b else a).toNat = _
  split_ifs with less
  · rw [max_eq_right (UInt8.le_iff_toNat_le.mp less)]
  · rw [UInt8.le_iff_toNat_le] at less
    rw [max_eq_left (by omega)]

/-- What the translation leaves behind the slots it started with. -/
structure Left (version : ℕ) (mapping : RelocationMapping) (delta stolenLen : ℕ)
    (ops : List Operation) (t t' : Translated) (out : List Operation) : Prop where
  slots : t'.slots = t.slots ++ out.flatMap Operation.slots
  whole : ∀ o ∈ out, o.Whole 1
  kept : List.Forall₂ (KeptAs mapping delta stolenLen) (keptOps version delta stolenLen ops) out
  prologSize : t'.prologSize.toNat = (out.map Operation.offset).foldr max t.prologSize.toNat
  frame : t'.frame =
    if ∀ o ∈ prologueOps version ops, o.op = uwopSetFpreg → o.offset ≤ delta + stolenLen
    then t.frame else 0

theorem foldr_max (l : List ℕ) (a b : ℕ) : l.foldr max (max a b) = max a (l.foldr max b) := by
  induction l with
  | nil => rfl
  | cons n rest ih => rw [List.foldr_cons, List.foldr_cons, ih, max_left_comm]

theorem Carries.left (valid : version = 1 ∨ version = 2) {ops : List Operation}
    {t t' : Translated} (carries : Carries version mapping delta stolenLen ops t t') :
    ∃ out, Left version mapping delta stolenLen ops t t' out := by
  induction carries with
  | done t =>
    exact ⟨[], by simp, nofun, List.Forall₂.nil, rfl, by simp [prologueOps]⟩
  | @epilog o ops t t' epilog rest ih =>
    obtain ⟨out, left⟩ := ih
    have same : prologueOps version (o :: ops) = prologueOps version ops := by
      simp [prologueOps, epilog]
    refine ⟨out, left.slots, left.whole, ?_, left.prologSize, ?_⟩
    · rw [keptOps, same]
      exact left.kept
    · rw [left.frame, same]
  | @after o ops t t' prologue placed rest ih =>
    obtain ⟨out, left⟩ := ih
    have more : prologueOps version (o :: ops) = o :: prologueOps version ops := by
      simp [prologueOps, prologue]
    have late := place_after.mp placed
    have same : keptOps version delta stolenLen (o :: ops) =
        keptOps version delta stolenLen ops := by
      rw [keptOps, more, List.filter_cons_of_neg (by simpa using late), keptOps]
    refine ⟨out, ?_, left.whole, ?_, ?_, ?_⟩
    · rw [left.slots]
      split_ifs <;> rfl
    · rw [same]
      exact left.kept
    · rw [left.prologSize]
      split_ifs <;> rfl
    · rw [left.frame, more]
      simp only [List.forall_mem_cons]
      by_cases frame : o.op = uwopSetFpreg
      · have lost : ¬ o.offset ≤ delta + stolenLen := by omega
        simp [frame, lost]
      · simp [frame]
  | @kept o ops t t' new prologue whole placed small rest ih =>
    obtain ⟨out, left⟩ := ih
    have more : prologueOps version (o :: ops) = o :: prologueOps version ops := by
      simp [prologueOps, prologue]
    have early := (place_kept placed).1
    have also : keptOps version delta stolenLen (o :: ops) =
        o :: keptOps version delta stolenLen ops := by
      rw [keptOps, more, List.filter_cons_of_pos (by simpa using early), keptOps]
    refine ⟨o.moved (UInt8.ofNat new) :: out, ?_, ?_, ?_, ?_, ?_⟩
    · rw [left.slots, List.flatMap_cons, List.append_assoc]
    · rw [List.forall_mem_cons]
      exact ⟨whole.moved valid prologue _, left.whole⟩
    · rw [also]
      exact .cons ⟨new, small, placed, rfl⟩ left.kept
    · rw [left.prologSize, List.map_cons, List.foldr_cons, Operation.moved_offset, toNat_max,
        max_comm, foldr_max]
    · rw [left.frame, more]
      simp only [List.forall_mem_cons, early, implies_true, true_and]

end Carrying

/-- What is promised of the codes of a stub that starts `delta` bytes into the function. -/
structure Describes (e : FunctionEntry) (mapping : RelocationMapping) (delta stolenLen : ℕ)
    (t : Translated) (ops out : List Operation) : Prop where
  source : parseOps e.version e.codes = some ops
  parses : parseOps 1 t.slots = some out
  carried : List.Forall₂ (CarriedOver mapping delta stolenLen)
    (keptOps e.version delta stolenLen ops) out
  ordered : ((prologueOps e.version ops).map Operation.offset).Pairwise (· ≥ ·) →
    (out.map Operation.offset).Pairwise (· ≥ ·)
  prologSize : t.prologSize.toNat = (out.map Operation.offset).foldr max 0
  frame : t.frame =
    if ∀ o ∈ prologueOps e.version ops, o.op = uwopSetFpreg → o.offset ≤ delta + stolenLen
    then e.frame else 0

/-- Operations that are carried over one by one keep their order. -/
theorem kept_ordered {mapping : RelocationMapping} (ordered : Ordered mapping)
    {delta stolenLen : ℕ} {ops out : List Operation}
    (kept : List.Forall₂ (KeptAs mapping delta stolenLen) ops out)
    (descending : (ops.map Operation.offset).Pairwise (· ≥ ·)) :
    (out.map Operation.offset).Pairwise (· ≥ ·) := by
  rw [List.pairwise_map] at descending ⊢
  have length := kept.length_eq
  rw [List.pairwise_iff_getElem] at descending ⊢
  intro i j first second before
  have here := kept.get (i := i) (by omega) first
  have there := kept.get (i := j) (by omega) second
  exact place_mono ordered there.offset here.offset
    (descending i j (by omega) (by omega) before)

/-- `translate` reads inside its slices, and what it returns describes the stub. -/
theorem translate_describes (entry : Option FunctionEntry) (target : ℕ)
    (mapping : RelocationMapping) (stolenLen : ℕ) (ordered : Ordered mapping) :
    ∃ result, translate entry target mapping stolenLen = .ok result ∧
      ∀ t, result = some t → ∃ e ops out, entry = some e ∧ e.imageBase + e.beginAddress ≤ target ∧
        Describes e mapping (target - (e.imageBase + e.beginAddress)) stolenLen t ops out := by
  unfold translate
  split
  · exact ⟨none, rfl, nofun⟩
  · rename_i e
    split_ifs with refused outside
    · exact ⟨none, rfl, nofun⟩
    · exact ⟨none, rfl, nofun⟩
    · obtain ⟨result, returned, carried⟩ := @translateFrom_carries e.version mapping
        (target - (e.imageBase + e.beginAddress)) stolenLen e.codes ordered 0 ⟨[], 0, e.frame⟩
      refine ⟨result, returned, fun t same => ?_⟩
      obtain ⟨ops, parsed, carries⟩ := carried t same
      rw [List.drop_zero] at parsed
      have valid : e.version = 1 ∨ e.version = 2 := by
        have := not_or.mp refused
        omega
      obtain ⟨out, left⟩ := carries.left valid
      refine ⟨e, ops, out, rfl, by omega, parsed, ?_, ?_, ?_, left.prologSize, left.frame⟩
      · rw [left.slots, List.nil_append]
        exact parseOps_slots left.whole
      · exact left.kept.imp fun _ _ kept => kept.carriedOver
      · intro descending
        refine kept_ordered ordered left.kept ?_
        rw [List.pairwise_map] at descending ⊢
        exact descending.filter _

/-- `push rbp; mov rbp, rsp; sub rsp, 0x20`, with the frame register `rbp`. -/
def framePrologue : FunctionEntry := ⟨0x140000000, 0x1000, 0x01, 0x05, [0x3208, 0x0304, 0x5001]⟩

/-- The first two of its instructions, the second one grown by two bytes. -/
def frameMapping : RelocationMapping := ⟨[], [0, 1], [0, 3], 7⟩

theorem translate_framePrologue :
    translate (some framePrologue) 0x140001000 frameMapping 4 =
      .ok (some ⟨[0x0307, 0x5003], 7, 0x05⟩) ∧
    ∃ ops out, Describes framePrologue frameMapping 0 4 ⟨[0x0307, 0x5003], 7, 0x05⟩ ops out := by
  have value : translate (some framePrologue) 0x140001000 frameMapping 4 =
      .ok (some ⟨[0x0307, 0x5003], 7, 0x05⟩) := by decide +kernel
  refine ⟨value, ?_⟩
  have ordered : Ordered frameMapping := ⟨by decide, by decide, by decide, by decide⟩
  obtain ⟨result, returned, describes⟩ :=
    translate_describes (some framePrologue) 0x140001000 frameMapping 4 ordered
  rw [value] at returned
  cases returned
  obtain ⟨e, ops, out, same, _, described⟩ := describes _ rfl
  cases same
  exact ⟨ops, out, described⟩

end Unwind

end NeoHook
