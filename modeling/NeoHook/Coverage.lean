import NeoHook.Disasm

/-!
# How many bytes a patch steals

`get_instruction_len` walks over whole instructions until the patch is covered, and refuses to run
past the end of the function unless only padding is overwritten there.  The walk is described
without its state: by the leading instructions of the readable region.
-/

namespace NeoHook

open ByteMap

/-- What the external decoder promises: an instruction lies at the address it is decoded at, its
bytes are all among the given ones, and it depends on none after the next 15. -/
structure Codec.Decodes (C : Codec) : Prop where
  ip_eq : ∀ {bytes ip i}, C.decode bytes ip = some i → i.ip = ip
  len_le : ∀ {bytes ip i}, C.decode bytes ip = some i → i.len ≤ bytes.length
  decode_take : ∀ bytes ip, C.decode (bytes.take 15) ip = C.decode bytes ip

namespace Codec.Decodes

variable {C : Codec} (laws : C.Decodes)

include laws

theorem decode_nil (ip : ℕ) : C.decode [] ip = none := by
  cases found : C.decode [] ip with
  | none => rfl
  | some i =>
    have := laws.len_le found
    have := i.len_pos
    simp only [List.length_nil] at *
    omega

/-- A cut behind the next 15 bytes, or behind the last one, does not change the instruction. -/
theorem decode_cut {bytes : List UInt8} {k : ℕ} (ip : ℕ) (room : bytes.length ≤ k ∨ 15 ≤ k) :
    C.decode (bytes.take k) ip = C.decode bytes ip := by
  rcases room with whole | enough
  · rw [List.take_of_length_le whole]
  · rw [← laws.decode_take (bytes.take k), List.take_take, min_eq_left enough, laws.decode_take]

end Codec.Decodes

/-! ### A codec for a few instructions -/

/-- How an opcode of the sample codec continues. -/
structure OpcodeForm where
  len : ℕ
  len_pos : 0 < len
  len_le : len ≤ 15
  flow : FlowControl
  nearBranch : Bool
  padding : Bool
  callRel32 : Bool

/-- `nop`, `int3`, `ret`, `stc`, `mov eax, imm32`, `jc rel8`, `jmp rel8`, `jmp rel32` and
`call rel32`. -/
def sampleForm (op : UInt8) : Option OpcodeForm :=
  if op = 0x90 then some ⟨1, by decide, by decide, .next, false, true, false⟩
  else if op = 0xCC then some ⟨1, by decide, by decide, .interrupt, false, true, false⟩
  else if op = 0xC3 then some ⟨1, by decide, by decide, .return_, false, false, false⟩
  else if op = 0xF9 then some ⟨1, by decide, by decide, .next, false, false, false⟩
  else if op = 0xB8 then some ⟨5, by decide, by decide, .next, false, false, false⟩
  else if op = 0x72 then some ⟨2, by decide, by decide, .conditionalBranch, true, false, false⟩
  else if op = 0xEB then some ⟨2, by decide, by decide, .unconditionalBranch, true, false, false⟩
  else if op = 0xE9 then some ⟨5, by decide, by decide, .unconditionalBranch, true, false, false⟩
  else if op = 0xE8 then some ⟨5, by decide, by decide, .call, true, false, true⟩
  else none

/-- A sign-extended displacement, as a 64-bit number. -/
def displacement (bs : List UInt8) : ℕ :=
  if ofLeBytes bs < 2 ^ (8 * bs.length - 1) then ofLeBytes bs
  else ofLeBytes bs + 2 ^ 64 - 2 ^ (8 * bs.length)

def OpcodeForm.instruction (f : OpcodeForm) (bytes : List UInt8) (ip : ℕ) : Instruction where
  ip := ip
  len := f.len
  len_pos := f.len_pos
  flow := f.flow
  nearBranch := f.nearBranch
  nearBranchTarget :=
    if f.nearBranch then (ip + f.len + displacement ((bytes.take f.len).drop 1)) % 2 ^ 64 else 0
  fastFail := false
  padding := f.padding
  callRel32 := f.callRel32

def sampleDecode (bytes : List UInt8) (ip : ℕ) : Option Instruction := do
  let op ← bytes.head?
  let f ← sampleForm op
  if f.len ≤ bytes.length then some (f.instruction bytes ip) else none

theorem sampleDecode_eq_some {bytes : List UInt8} {ip : ℕ} {i : Instruction}
    (h : sampleDecode bytes ip = some i) :
    ∃ f : OpcodeForm, f.len ≤ bytes.length ∧ i = f.instruction bytes ip := by
  unfold sampleDecode at h
  simp only [Option.bind_eq_bind, Option.bind_eq_some_iff] at h
  obtain ⟨_, _, f, _, h⟩ := h
  split_ifs at h with fits
  exact ⟨f, fits, (Option.some.inj h).symm⟩

/-- The size of a block instruction's encoding. -/
def sampleSize : BlockInstr → ℕ
  | .original i =>
    if i.nearBranch then if i.flow = .conditionalBranch then 6 else 5
    else if i.len = 5 then 5 else 1
  | .pushImm32 _ _ => 5
  | .movRsp4Imm32 _ => 8
  | .jmp _ => 5

/-- Where each block instruction starts. -/
def sampleOffsets : List BlockInstr → ℕ → List ℕ
  | [], _ => []
  | b :: rest, at_ => at_ :: sampleOffsets rest (at_ + sampleSize b)

/-- The address of the block instruction that carries an original one's address. -/
def BlockInstr.ip? : BlockInstr → Option ℕ
  | .original i => some i.ip
  | .pushImm32 ip _ => some ip
  | _ => none

/-- A branch to a block instruction goes to its new place, any other keeps its target. -/
def sampleResolve (block : List BlockInstr) (at_ target : ℕ) : ℕ :=
  match block.findIdx? fun b => b.ip? = some target with
  | some k => (sampleOffsets block at_).getD k 0
  | none => target

def sampleRel32 (at_ target : ℕ) : List UInt8 := leBytes 4 (target + 2 ^ 64 - at_)

def sampleEncodeOne (resolve : ℕ → ℕ) (at_ : ℕ) : BlockInstr → List UInt8
  | .original i =>
    if i.nearBranch then
      if i.flow = .conditionalBranch then
        [0x0F, 0x82] ++ sampleRel32 (at_ + 6) (resolve i.nearBranchTarget)
      else (if i.flow = .call then 0xE8 else 0xE9) ::
        sampleRel32 (at_ + 5) (resolve i.nearBranchTarget)
    else if i.len = 5 then [0xB8, 0x2A, 0x00, 0x00, 0x00]
    else if i.flow = .return_ then [0xC3]
    else if i.flow = .interrupt then [0xCC]
    else if i.padding then [0x90] else [0xF9]
  | .pushImm32 _ imm => 0x68 :: leBytes 4 imm
  | .movRsp4Imm32 imm => [0xC7, 0x44, 0x24, 0x04] ++ leBytes 4 imm
  | .jmp target => 0xE9 :: sampleRel32 (at_ + 5) (resolve target)

def sampleEncode (block : List BlockInstr) (at_ : ℕ) : Option EncodedBlock :=
  let offsets := sampleOffsets block at_
  let code := (offsets.zip block).flatMap fun p => sampleEncodeOne (sampleResolve block at_) p.1 p.2
  some ⟨code, offsets.map fun o => some (o - at_)⟩

theorem length_sampleEncodeOne (resolve : ℕ → ℕ) (at_ : ℕ) (b : BlockInstr) :
    (sampleEncodeOne resolve at_ b).length = sampleSize b := by
  cases b with
  | original i =>
    simp only [sampleEncodeOne, sampleSize]
    split_ifs <;> simp [sampleRel32]
  | pushImm32 | movRsp4Imm32 | jmp => simp [sampleEncodeOne, sampleSize, sampleRel32]

theorem sampleSize_le (b : BlockInstr) : sampleSize b ≤ 8 := by
  cases b with
  | original i =>
    simp only [sampleSize]
    split_ifs <;> decide
  | pushImm32 | movRsp4Imm32 | jmp => simp [sampleSize]

theorem length_sampleCode_le (resolve : ℕ → ℕ) (placed : List (ℕ × BlockInstr)) :
    (placed.flatMap fun p => sampleEncodeOne resolve p.1 p.2).length ≤ 8 * placed.length := by
  induction placed with
  | nil => exact le_rfl
  | cons p rest ih =>
    have size := sampleSize_le p.2
    rw [List.flatMap_cons, List.length_append, length_sampleEncodeOne, List.length_cons]
    omega

/-- A decoder and encoder for a few instructions. -/
def sampleCodec : Codec where
  decode := sampleDecode
  decode_len h := by
    obtain ⟨f, -, rfl⟩ := sampleDecode_eq_some h
    exact f.len_le
  encode := sampleEncode
  encode_fits := by
    intro block at_ out few h
    obtain rfl := Option.some.inj h
    have short := length_sampleCode_le (sampleResolve block at_)
      ((sampleOffsets block at_).zip block)
    rw [List.length_zip] at short
    have room : managedGatewayLen + 8 * (3 * maxStolenLen + 1) ≤ pageSize := by decide
    simp only
    omega

theorem sampleCodec_decodes : sampleCodec.Decodes where
  ip_eq h := by
    obtain ⟨f, -, rfl⟩ := sampleDecode_eq_some h
    rfl
  len_le h := by
    obtain ⟨f, fits, rfl⟩ := sampleDecode_eq_some h
    exact fits
  decode_take bytes ip := by
    change sampleDecode _ _ = sampleDecode _ _
    have cut : ∀ f : OpcodeForm, (bytes.take 15).take f.len = bytes.take f.len := by
      intro f
      rw [List.take_take, min_eq_left f.len_le]
    have fits : ∀ f : OpcodeForm, f.len ≤ (bytes.take 15).length ↔ f.len ≤ bytes.length := by
      intro f
      have := f.len_le
      rw [List.length_take]
      omega
    unfold sampleDecode
    rw [List.head?_take, if_neg (by decide)]
    simp only [fits, OpcodeForm.instruction, cut]

namespace Disassembler

/-- The instructions at the head of the bytes, one behind the other. -/
def Leading (C : Codec) : List UInt8 → ℕ → List Instruction → Prop
  | _, _, [] => True
  | bytes, ip, i :: rest =>
    C.decode bytes ip = some i ∧ Leading C (bytes.drop i.len) (ip + i.len) rest

/-- The bytes a row of instructions takes. -/
def size (l : List Instruction) : ℕ := (l.map Instruction.len).sum

/-- The lengths of leading rows of instructions that cover `minSize` bytes. -/
def covers (C : Codec) (bytes : List UInt8) (address minSize : ℕ) : Set ℕ :=
  {n | minSize ≤ n ∧ ∃ l, Leading C bytes address l ∧ size l = n}

/-- A conditional jump into the window that lands at or behind the end of `e`. -/
def PassesOver (windowEnd : ℕ) (e j : Instruction) : Prop :=
  isConditionalJump j ∧ j.nearBranchTarget < windowEnd ∧ e.nextIp ≤ j.nearBranchTarget

/-- After an instruction that ends the function, and that no earlier jump passes over, there is
only padding. -/
def PaddedAfterEnd (windowEnd : ℕ) (l : List Instruction) : Prop :=
  ∀ before e between i after, l = before ++ e :: (between ++ i :: after) →
    endsFunction e → (∀ j ∈ before, ¬ PassesOver windowEnd e j) → i.padding

@[simp] theorem size_nil : size [] = 0 := rfl

@[simp] theorem size_cons (i : Instruction) (l : List Instruction) :
    size (i :: l) = i.len + size l := by
  simp [size]

theorem size_append (l l' : List Instruction) : size (l ++ l') = size l + size l' := by
  simp [size]

variable {C : Codec}

/-! ### Rows of leading instructions -/

theorem Leading.of_append {bytes : List UInt8} {ip : ℕ} {l l' : List Instruction}
    (h : Leading C bytes ip (l ++ l')) : Leading C bytes ip l := by
  induction l generalizing bytes ip with
  | nil => trivial
  | cons i rest ih => exact ⟨h.1, ih h.2⟩

/-- Of two leading rows one starts with the other. -/
theorem Leading.comparable {bytes : List UInt8} {ip : ℕ} {l l' : List Instruction}
    (h : Leading C bytes ip l) (h' : Leading C bytes ip l') : l <+: l' ∨ l' <+: l := by
  induction l generalizing bytes ip l' with
  | nil => exact .inl List.nil_prefix
  | cons i rest ih =>
    cases l' with
    | nil => exact .inr List.nil_prefix
    | cons j rest' =>
      obtain ⟨found, tail⟩ := h
      obtain ⟨found', tail'⟩ := h'
      rw [found, Option.some.injEq] at found'
      subst found'
      simp only [List.cons_prefix_cons, true_and]
      exact ih tail tail'

theorem size_le_of_isPrefix {l l' : List Instruction} (h : l <+: l') : size l ≤ size l' := by
  obtain ⟨rest, rfl⟩ := h
  rw [size_append]
  exact Nat.le_add_right _ _

theorem size_dropLast_lt {l : List Instruction} (nonempty : l ≠ []) : size l.dropLast < size l := by
  have split := List.dropLast_append_getLast nonempty
  have total := congrArg size split
  rw [size_append, size_cons, size_nil] at total
  have := (l.getLast nonempty).len_pos
  omega

/-- The shortest leading row that covers the patch is the one whose last instruction is needed. -/
theorem isLeast_covers_iff {bytes : List UInt8} {address minSize : ℕ} {l : List Instruction}
    (leading : Leading C bytes address l) (pos : 0 < minSize) :
    IsLeast (covers C bytes address minSize) (size l) ↔
      minSize ≤ size l ∧ size l.dropLast < minSize := by
  constructor
  · rintro ⟨⟨enough, -⟩, least⟩
    refine ⟨enough, ?_⟩
    by_contra short
    have nonempty : l ≠ [] := by
      rintro rfl
      simp only [size_nil] at enough
      omega
    have init : Leading C bytes address l.dropLast := by
      rw [← List.dropLast_append_getLast nonempty] at leading
      exact leading.of_append
    have := least ⟨not_lt.mp short, l.dropLast, init, rfl⟩
    have := size_dropLast_lt nonempty
    omega
  · rintro ⟨enough, short⟩
    refine ⟨⟨enough, l, leading, rfl⟩, ?_⟩
    rintro _ ⟨covered, l', leading', rfl⟩
    rcases leading.comparable leading' with first | second
    · exact size_le_of_isPrefix first
    · obtain ⟨rest, split⟩ := second
      rcases List.eq_nil_or_concat rest with rfl | ⟨init, i, rfl⟩
      · rw [← split, List.append_nil]
      · rw [← split, List.concat_eq_append, ← List.append_assoc, List.dropLast_concat,
          size_append] at short
        omega

/-! ### The walk -/

/-- The furthest address a conditional jump into the window reaches. -/
def reachAfter (windowEnd reach : ℕ) (i : Instruction) : ℕ :=
  if isConditionalJump i ∧ i.nearBranchTarget < windowEnd then max reach i.nearBranchTarget
  else reach

/-- What the walk checks, with the state it carries. -/
def Padded (windowEnd : ℕ) : Bool → ℕ → List Instruction → Prop
  | _, _, [] => True
  | ended, reach, i :: rest =>
    (ended → i.padding) ∧
      Padded windowEnd
        (ended || (endsFunction i && reachAfter windowEnd reach i < i.nextIp))
        (reachAfter windowEnd reach i) rest

theorem padded_ended {windowEnd reach : ℕ} {l : List Instruction} :
    Padded windowEnd true reach l ↔ ∀ i ∈ l, i.padding := by
  induction l generalizing reach with
  | nil => simp [Padded]
  | cons i rest ih =>
    simp only [Padded, Bool.true_or, ih, List.mem_cons, forall_eq_or_imp, true_imp_iff]

/-- The walk's check for a row entered with the jumps `seen`. -/
def PaddedFrom (windowEnd reach : ℕ) (l : List Instruction) : Prop :=
  ∀ before e between i after, l = before ++ e :: (between ++ i :: after) →
    endsFunction e → reach < e.nextIp → (∀ j ∈ before, ¬ PassesOver windowEnd e j) → i.padding

theorem reachAfter_lt_iff {windowEnd reach : ℕ} {e i : Instruction} :
    reachAfter windowEnd reach i < e.nextIp ↔ reach < e.nextIp ∧ ¬ PassesOver windowEnd e i := by
  unfold reachAfter PassesOver
  by_cases jump : isConditionalJump i = true ∧ i.nearBranchTarget < windowEnd
  · rw [if_pos jump, max_lt_iff]
    simp only [jump.1, jump.2, true_and, not_le]
  · rw [if_neg jump, ← and_assoc]
    exact ⟨fun h => ⟨h, fun passes => jump passes.1⟩, And.left⟩

theorem conditional_not_ends {i : Instruction} (jump : isConditionalJump i = true) :
    endsFunction i = false := by
  unfold isConditionalJump at jump
  simp only [Bool.and_eq_true, decide_eq_true_eq] at jump
  unfold endsFunction
  rw [jump.1]

/-- The instruction that ends a function is no conditional jump, so the reach is still the one
before it. -/
theorem reachAfter_of_ends {windowEnd reach : ℕ} {i : Instruction} (ends : endsFunction i = true) :
    reachAfter windowEnd reach i = reach := by
  unfold reachAfter
  refine if_neg fun jump => ?_
  rw [conditional_not_ends jump.1] at ends
  cases ends

theorem paddedFrom_cons {windowEnd reach : ℕ} {i : Instruction} {rest : List Instruction} :
    PaddedFrom windowEnd reach (i :: rest) ↔
      (endsFunction i → reach < i.nextIp → ∀ j ∈ rest, j.padding) ∧
        PaddedFrom windowEnd (reachAfter windowEnd reach i) rest := by
  constructor
  · intro h
    refine ⟨fun ends short j mem => ?_, fun before e between j after eq ends short none => ?_⟩
    · obtain ⟨between, after, rfl⟩ := List.append_of_mem mem
      exact h [] i between j after rfl ends short (fun _ mem => absurd mem List.not_mem_nil)
    · obtain ⟨short, kept⟩ := reachAfter_lt_iff.mp short
      refine h (i :: before) e between j after (by rw [eq]; rfl) ends short ?_
      intro k mem
      rcases List.mem_cons.mp mem with rfl | mem
      · exact kept
      · exact none k mem
  · rintro ⟨first, later⟩ before e between j after eq ends short none
    cases before with
    | nil =>
      simp only [List.nil_append, List.cons.injEq] at eq
      obtain ⟨rfl, rfl⟩ := eq
      exact first ends short j (List.mem_append_right _ List.mem_cons_self)
    | cons k before =>
      simp only [List.cons_append, List.cons.injEq] at eq
      obtain ⟨rfl, rfl⟩ := eq
      refine later before e between j after rfl ends ?_ fun k mem =>
        none k (List.mem_cons_of_mem _ mem)
      exact reachAfter_lt_iff.mpr ⟨short, none i List.mem_cons_self⟩

theorem padded_iff {windowEnd reach : ℕ} {l : List Instruction} :
    Padded windowEnd false reach l ↔ PaddedFrom windowEnd reach l := by
  induction l generalizing reach with
  | nil =>
    refine ⟨fun _ before e between i after eq => ?_, fun _ => trivial⟩
    cases before <;> cases eq
  | cons i rest ih =>
    rw [paddedFrom_cons]
    simp only [Padded, Bool.false_eq_true, false_imp_iff, true_and, Bool.false_or]
    cases ends : endsFunction i with
    | false => simp only [Bool.false_and, ih, Bool.false_eq_true, false_imp_iff, true_and]
    | true =>
      simp only [Bool.true_and, true_imp_iff, reachAfter_of_ends ends]
      by_cases short : reach < i.nextIp
      · simp only [short, decide_true, true_imp_iff, padded_ended]
        refine ⟨fun padding => ⟨padding, ?_⟩, And.left⟩
        intro before e between j after eq _ _ _
        exact padding j (eq ▸ by simp)
      · simp only [short, decide_false, ih, false_imp_iff, true_and]

/-- The walk finds the shortest leading row that covers what is left of the patch. -/
theorem coverLoop_eq_some_iff (laws : C.Decodes) {minSize windowEnd fuel k n : ℕ}
    {region : List UInt8} {ip total reach : ℕ} {ended : Bool} (less : total < minSize)
    (enough : minSize ≤ total + fuel) (room : region.length ≤ k ∨ minSize + 15 ≤ total + k) :
    coverLoop C minSize windowEnd fuel (region.take k) ip total ended reach = some n ↔
      ∃ l, Leading C region ip l ∧ total + size l = n ∧ minSize ≤ n ∧
        total + size l.dropLast < minSize ∧ Padded windowEnd ended reach l := by
  induction fuel generalizing region k ip total reach ended with
  | zero => omega
  | succ fuel ih =>
    have decoded : C.decode (region.take k) ip = C.decode region ip :=
      laws.decode_cut ip (room.imp_right fun _ => by omega)
    rw [coverLoop]
    -- a row that covers the rest of the patch has a first instruction
    have nonempty : ∀ {l : List Instruction}, total + size l = n → minSize ≤ n → l ≠ [] := by
      rintro l eq covered rfl
      simp only [size_nil] at eq
      omega
    have rowless : C.decode region ip = none → ∀ l, Leading C region ip l → total + size l = n →
        ¬ minSize ≤ n := by
      rintro missing (_ | ⟨i, rest⟩) leading eq covered
      · exact nonempty eq covered rfl
      · rw [leading.1] at missing
        cases missing
    by_cases out : region.take k = [] ∨ minSize ≤ total
    · rw [if_pos out]
      have empty := out.resolve_right (by omega)
      rw [empty, laws.decode_nil] at decoded
      simp only [reduceCtorEq, false_iff]
      rintro ⟨l, leading, eq, covered, -⟩
      exact rowless decoded.symm l leading eq covered
    rw [if_neg out, decoded]
    cases found : C.decode region ip with
    | none =>
      simp only [reduceCtorEq, false_iff]
      rintro ⟨l, leading, eq, covered, -⟩
      exact rowless found l leading eq covered
    | some i =>
      have head : ∀ {j : Instruction} {rest : List Instruction},
          Leading C region ip (j :: rest) → j = i := fun leading =>
        Option.some.inj (leading.1.symm.trans found)
      simp only
      by_cases stop : (ended && !i.padding) = true
      · rw [if_pos stop]
        simp only [reduceCtorEq, false_iff]
        rintro ⟨_ | ⟨j, rest⟩, leading, eq, covered, -, padded⟩
        · exact nonempty eq covered rfl
        · obtain rfl := head leading
          simp only [Bool.and_eq_true, Bool.not_eq_true'] at stop
          rw [padded.1 stop.1] at stop
          cases stop.2
      rw [if_neg stop]
      have go : ended = true → i.padding = true := by
        intro past
        by_contra bare
        exact stop (by rw [past, Bool.eq_false_iff.mpr bare]; rfl)
      by_cases last : minSize ≤ total + i.len
      · rw [if_pos last, Option.some.injEq]
        constructor
        · rintro rfl
          exact ⟨[i], ⟨found, trivial⟩, by simp, last, by simpa using less, go, trivial⟩
        · rintro ⟨_ | ⟨j, rest⟩, leading, eq, covered, short, -⟩
          · exact absurd rfl (nonempty eq covered)
          · obtain rfl := head leading
            cases rest with
            | nil => simpa using eq
            | cons k rest =>
              rw [List.dropLast_cons_of_ne_nil (by simp), size_cons] at short
              omega
      rw [if_neg last]
      change coverLoop C minSize windowEnd fuel ((region.take k).drop i.len) (ip + i.len)
        (total + i.len) (ended || (endsFunction i && decide (reachAfter windowEnd reach i < i.nextIp)))
        (reachAfter windowEnd reach i) = some n ↔ _
      have := i.len_pos
      rw [List.drop_take, ih (by omega) (by omega) (by rw [List.length_drop]; omega)]
      constructor
      · rintro ⟨l, leading, eq, covered, short, padded⟩
        have some : l ≠ [] := by
          rintro rfl
          simp only [size_nil] at eq
          omega
        refine ⟨i :: l, ⟨found, leading⟩, by rw [size_cons]; omega, covered, ?_, go, padded⟩
        rw [List.dropLast_cons_of_ne_nil some, size_cons]
        omega
      · rintro ⟨_ | ⟨j, l⟩, leading, eq, covered, short, padded⟩
        · exact absurd rfl (nonempty eq covered)
        · obtain rfl := head leading
          rw [size_cons] at eq
          have some : l ≠ [] := by
            rintro rfl
            simp only [size_nil] at eq
            omega
          rw [List.dropLast_cons_of_ne_nil some, size_cons] at short
          exact ⟨l, leading.2, by omega, covered, by omega, padded.2⟩

theorem Leading.size_le (laws : C.Decodes) {bytes : List UInt8} {ip : ℕ} {l : List Instruction}
    (h : Leading C bytes ip l) : size l ≤ bytes.length := by
  induction l generalizing bytes ip with
  | nil => exact Nat.zero_le _
  | cons i rest ih =>
    have first := laws.len_le h.1
    have later := ih h.2
    rw [List.length_drop] at later
    rw [size_cons]
    omega

theorem Leading.ip_eq (laws : C.Decodes) {bytes : List UInt8} {ip : ℕ} {before later : List Instruction}
    {i : Instruction} (h : Leading C bytes ip (before ++ i :: later)) : i.ip = ip + size before := by
  induction before generalizing bytes ip with
  | nil => exact laws.ip_eq h.1
  | cons j before ih =>
    rw [ih h.2, size_cons, Nat.add_assoc]

theorem Leading.len_le_max {bytes : List UInt8} {ip : ℕ} {l : List Instruction}
    (h : Leading C bytes ip l) : ∀ i ∈ l, i.len ≤ 15 := by
  induction l generalizing bytes ip with
  | nil => exact fun _ mem => absurd mem List.not_mem_nil
  | cons j rest ih =>
    intro i mem
    rcases List.mem_cons.mp mem with rfl | mem
    · exact C.decode_len h.1
    · exact ih h.2 i mem

/-- A row whose last instruction is needed runs at most 14 bytes past the patch. -/
theorem Leading.size_le_add {bytes : List UInt8} {ip minSize : ℕ}
    {l : List Instruction} (h : Leading C bytes ip l) (short : size l.dropLast < minSize) :
    size l ≤ minSize + 14 := by
  rcases List.eq_nil_or_concat l with rfl | ⟨init, i, rfl⟩
  · exact Nat.zero_le _
  · rw [List.concat_eq_append] at h short ⊢
    rw [List.dropLast_concat] at short
    have := h.len_le_max i (by simp)
    rw [size_append, size_cons, size_nil]
    omega

/-- With nothing jumped to so far, the walk's check is the one on the whole row. -/
theorem paddedFrom_zero {windowEnd : ℕ} {l : List Instruction} :
    PaddedFrom windowEnd 0 l ↔ PaddedAfterEnd windowEnd l := by
  refine ⟨fun h before e between i after eq ends => ?_, fun h before e between i after eq ends _ => ?_⟩
  · have pos : 0 < e.nextIp := Nat.add_pos_right _ e.len_pos
    exact h before e between i after eq ends pos
  · exact h before e between i after eq ends

theorem getInstructionLen_walk (laws : C.Decodes) {readable address minSize n : ℕ}
    {m : ℕ → UInt8} (pos : 0 < minSize) :
    getInstructionLen C readable m address minSize = some n ↔
      ∃ l, Leading C (read m address readable) address l ∧ size l = n ∧ minSize ≤ n ∧
        size l.dropLast < minSize ∧ PaddedAfterEnd (address + min (minSize + 15) readable) l := by
  unfold getInstructionLen
  by_cases short : readable = 0 ∨ readable < minSize
  · rw [if_pos short]
    simp only [reduceCtorEq, false_iff]
    rintro ⟨l, leading, rfl, covered, -⟩
    have inside := leading.size_le laws
    rw [length_read] at inside
    omega
  · rw [if_neg short, max_eq_left (by omega)]
    simp only
    rw [← take_read m address (min_le_right (minSize + 15) readable),
      coverLoop_eq_some_iff laws pos (by omega) (by rw [length_read]; omega)]
    simp only [Nat.zero_add, padded_iff, paddedFrom_zero]

/-- `get_instruction_len` returns the least length of leading instructions that covers the patch,
provided that nothing of another function is among them. -/
theorem getInstructionLen_eq_some_iff (laws : C.Decodes) {readable address minSize : ℕ}
    {m : ℕ → UInt8} (pos : 1 ≤ minSize) (n : ℕ) :
    (getInstructionLen C readable m address minSize = some n ↔
      IsLeast (covers C (read m address readable) address minSize) n ∧
        ∃ l, Leading C (read m address readable) address l ∧ size l = n ∧
          PaddedAfterEnd (address + min (minSize + 15) readable) l) ∧
      (getInstructionLen C readable m address minSize = some n → n ≤ minSize + 14) := by
  constructor
  · rw [getInstructionLen_walk laws pos]
    constructor
    · rintro ⟨l, leading, rfl, covered, short, padded⟩
      exact ⟨(isLeast_covers_iff leading pos).mpr ⟨covered, short⟩, l, leading, rfl, padded⟩
    · rintro ⟨least, l, leading, rfl, padded⟩
      obtain ⟨covered, short⟩ := (isLeast_covers_iff leading pos).mp least
      exact ⟨l, leading, rfl, covered, short, padded⟩
  · rw [getInstructionLen_walk laws pos]
    rintro ⟨l, leading, rfl, -, short, -⟩
    exact leading.size_le_add short

/-- `stc; jc +1; ret; mov eax, 42; ret` at `0x1000`. -/
def earlyExit : ℕ → UInt8 :=
  write (fun _ => 0) 0x1000 [0xF9, 0x72, 0x01, 0xC3, 0xB8, 0x2A, 0x00, 0x00, 0x00, 0xC3]

theorem earlyExit_covered :
    IsLeast (covers sampleCodec (read earlyExit 0x1000 10) 0x1000 5) 9 :=
  ((getInstructionLen_eq_some_iff sampleCodec_decodes (by decide) 9).1.mp
    (by decide)).1

end Disassembler

end NeoHook
