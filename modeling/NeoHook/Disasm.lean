import NeoHook.Basic

/-!
# Measuring and relocating the stolen instructions

`Disassembler` of `disasm.rs`.  The instruction decoder and the block encoder belong to an
external crate and are parameters (`Codec`); what the source builds on top of them (how many
bytes are stolen, which later branches forbid the patch, how a get-PC call is emulated and how the
offset map is read off the encoder) is translated here.
-/

namespace NeoHook

open ByteMap

inductive FlowControl where
  | next | unconditionalBranch | indirectBranch | conditionalBranch | return_ | call
  | indirectCall | interrupt | exception
  deriving DecidableEq, Repr

/-- What the engine reads from a decoded instruction; an invalid one is `none`. -/
structure Instruction where
  ip : ℕ
  len : ℕ
  len_pos : 0 < len
  flow : FlowControl
  /-- The first operand is a near branch target. -/
  nearBranch : Bool
  nearBranchTarget : ℕ
  /-- `int 29h` (`__fastfail`). -/
  fastFail : Bool
  /-- The mnemonic is `int3` or `nop`. -/
  padding : Bool
  /-- `call rel32`. -/
  callRel32 : Bool
  deriving DecidableEq

def Instruction.nextIp (i : Instruction) : ℕ := i.ip + i.len

/-- An instruction of the block handed to the encoder: an original one, or one of those
`emulate_get_pc_call` and the jump back introduce. -/
inductive BlockInstr where
  | original (i : Instruction)
  | pushImm32 (ip : ℕ) (imm : ℕ)
  | movRsp4Imm32 (imm : ℕ)
  | jmp (target : ℕ)

/-- The encoder's answer; an offset of `none` stands for `u32::MAX`. -/
structure EncodedBlock where
  code : List UInt8
  newInstructionOffsets : List (Option ℕ)

/-- The most bytes that are stolen: a patch has at most 14, and the last instruction under it reaches
at most 14 bytes further. -/
def maxStolenLen : ℕ := 28

/-- The external decoder and block encoder. -/
structure Codec where
  /-- The instruction at the head of the bytes, which lie at the given address. -/
  decode : List UInt8 → ℕ → Option Instruction
  /-- No x86 instruction is longer than 15 bytes. -/
  decode_len : ∀ {bytes ip i}, decode bytes ip = some i → i.len ≤ 15
  encode : List BlockInstr → ℕ → Option EncodedBlock
  /-- A block built from stolen instructions, three at most for each and the jump back, leaves room for
  the gateway stub in the page that holds it. -/
  encode_fits : ∀ {block at_ out}, block.length ≤ 3 * maxStolenLen + 1 → encode block at_ = some out →
    managedGatewayLen + out.code.length ≤ pageSize

structure RelocationMapping where
  code : List UInt8
  oldInstructionOffsets : List ℕ
  newInstructionOffsets : List ℕ
  jmpBackOffset : ℕ

def RelocationMapping.writtenLen (r : RelocationMapping) : ℕ := r.code.length

namespace Disassembler

def endsFunction (i : Instruction) : Bool :=
  match i.flow with
  | .return_ | .unconditionalBranch | .indirectBranch | .exception => true
  | .interrupt => i.fastFail
  | _ => false

def isConditionalJump (i : Instruction) : Bool :=
  i.flow = .conditionalBranch && i.nearBranch

variable (C : Codec)

/-- The loop of `get_instruction_len` over the bytes still to decode. -/
def coverLoop (minSize windowEnd : ℕ) :
    ℕ → List UInt8 → ℕ → ℕ → Bool → ℕ → Option ℕ
  | 0, _, _, _, _, _ => none
  | fuel + 1, bytes, ip, total, ended, reach =>
    if bytes = [] ∨ minSize ≤ total then none
    else match C.decode bytes ip with
      | none => none
      | some i =>
        if ended && !i.padding then none
        else if minSize ≤ total + i.len then some (total + i.len)
        else
          let reach := if isConditionalJump i ∧ i.nearBranchTarget < windowEnd
            then max reach i.nearBranchTarget else reach
          coverLoop minSize windowEnd fuel (bytes.drop i.len) (ip + i.len) (total + i.len)
            (ended || (endsFunction i && reach < i.nextIp)) reach

/-- Total length of the leading instructions that cover `minSize` bytes; `readable` is
`readable_bytes_from address`. -/
def getInstructionLen (readable : ℕ) (m : ℕ → UInt8) (address minSize : ℕ) : Option ℕ :=
  if readable = 0 ∨ readable < minSize then none
  else
    let readLen := min (max (minSize + 15) 15) readable
    coverLoop C minSize (address + readLen) minSize (read m address readLen) address 0 false 0

/-- The loop of `branches_into`. -/
def branchLoop (start end_ : ℕ) : ℕ → List UInt8 → ℕ → ℕ → Bool
  | 0, _, _, _ => false
  | fuel + 1, bytes, ip, reach =>
    if bytes = [] then false
    else match C.decode bytes ip with
      | none => false
      | some i =>
        if end_ ≤ i.ip ∧ i.nearBranch ∧ start < i.nearBranchTarget ∧ i.nearBranchTarget < end_ then true
        else
          let reach := if isConditionalJump i then max reach i.nearBranchTarget else reach
          if end_ ≤ i.ip ∧ endsFunction i ∧ reach < i.nextIp then false
          else branchLoop start end_ fuel (bytes.drop i.len) (ip + i.len) reach

/-- Whether the code after the stolen bytes branches into them past their first one. -/
def branchesInto (readable : ℕ) (m : ℕ → UInt8) (address len : ℕ) : Bool :=
  if readable ≤ len then false
  else
    let bytes := read m address (min readable (len + 512))
    branchLoop C address (address + len) bytes.length bytes address 0

/-- Decodes a whole block, or fails on its first invalid instruction. -/
def decodeAll : ℕ → List UInt8 → ℕ → Option (List Instruction)
  | 0, _, _ => some []
  | fuel + 1, bytes, ip =>
    if bytes = [] then some []
    else do
      let i ← C.decode bytes ip
      let rest ← decodeAll fuel (bytes.drop i.len) (ip + i.len)
      return i :: rest

/-- `emulate_get_pc_call`: the instructions that replace a call into the stolen range, `[]` when
the instruction is kept, and `none` when the call cannot be reproduced. -/
def emulateGetPcCall (i : Instruction) (decoded : List Instruction) (start end_ : ℕ) :
    Option (List BlockInstr) :=
  if !i.callRel32 ∨ i.nearBranchTarget < start ∨ end_ < i.nearBranchTarget then some []
  else if i.nearBranchTarget ≠ end_ ∧ ¬ decoded.any (·.ip = i.nearBranchTarget) then none
  else some [.pushImm32 i.ip (i.nextIp % 2 ^ 32), .movRsp4Imm32 (i.nextIp / 2 ^ 32),
    .jmp i.nearBranchTarget]

/-- The encoder's block and, for every original instruction, the index of the first block
instruction emitted for it. -/
def buildBlock (decoded : List Instruction) (start end_ : ℕ) :
    List Instruction → List BlockInstr → List ℕ → Option (List BlockInstr × List ℕ)
  | [], block, index => some (block, index)
  | i :: rest, block, index => do
    let seq ← emulateGetPcCall i decoded start end_
    buildBlock decoded start end_ rest (block ++ if seq = [] then [.original i] else seq)
      (index ++ [block.length])

/-- `Disassembler::relocate`: the bytes for `trampoline` and the offset map. -/
def relocate (m : ℕ → UInt8) (target trampoline stolenLen : ℕ) : Option RelocationMapping := do
  let decoded ← decodeAll C stolenLen (read m target stolenLen) target
  let (block, index) ← buildBlock decoded target (target + stolenLen) decoded [] []
  let block := block ++ [.jmp (target + stolenLen)]
  let out ← C.encode block trampoline
  if out.newInstructionOffsets.length < block.length then none
  else do
    let new ← index.mapM fun k => out.newInstructionOffsets.getD k none
    let back := (out.newInstructionOffsets.getD (block.length - 1) none).getD (2 ^ 32 - 1)
    return ⟨out.code, decoded.map fun i => i.ip - target, new, back⟩

variable {C}

theorem le_coverLoop {minSize windowEnd fuel n : ℕ} {bytes : List UInt8} {ip total reach : ℕ}
    {ended : Bool}
    (h : coverLoop C minSize windowEnd fuel bytes ip total ended reach = some n) : minSize ≤ n := by
  induction fuel generalizing bytes ip total ended reach with
  | zero => simp [coverLoop] at h
  | succ fuel ih =>
    rw [coverLoop] at h
    split_ifs at h
    split at h
    · cases h
    · split_ifs at h with hpad hlen
      · simp only [Option.some.injEq] at h
        omega
      · exact ih h
      · exact ih h

/-- The stolen bytes cover the requested patch. -/
theorem le_getInstructionLen {readable address minSize n : ℕ} {m : ℕ → UInt8}
    (h : getInstructionLen C readable m address minSize = some n) : minSize ≤ n := by
  unfold getInstructionLen at h
  split_ifs at h
  exact le_coverLoop h

theorem coverLoop_le {minSize windowEnd fuel n : ℕ} {bytes : List UInt8} {ip total reach : ℕ}
    {ended : Bool}
    (h : coverLoop C minSize windowEnd fuel bytes ip total ended reach = some n) :
    n ≤ minSize + 14 := by
  induction fuel generalizing bytes ip total ended reach with
  | zero => simp [coverLoop] at h
  | succ fuel ih =>
    rw [coverLoop] at h
    split_ifs at h with done
    split at h
    · cases h
    · rename_i i decoded
      have short := C.decode_len decoded
      split_ifs at h with hpad hlen
      · simp only [Option.some.injEq] at h
        omega
      · exact ih h
      · exact ih h

/-- No more is stolen for a patch than the longest instruction may reach past it. -/
theorem getInstructionLen_le_max {readable address minSize n : ℕ} {m : ℕ → UInt8}
    (h : getInstructionLen C readable m address minSize = some n) (patch : minSize ≤ 14) :
    n ≤ maxStolenLen := by
  unfold getInstructionLen at h
  split_ifs at h
  exact (coverLoop_le h).trans (Nat.add_le_add_right patch 14)

theorem length_decodeAll_le {fuel ip : ℕ} {bytes : List UInt8} {l : List Instruction}
    (h : decodeAll C fuel bytes ip = some l) : l.length ≤ fuel := by
  induction fuel generalizing bytes ip l with
  | zero =>
    obtain rfl : [] = l := Option.some.inj h
    exact le_rfl
  | succ fuel ih =>
    rw [decodeAll] at h
    split_ifs at h
    · obtain rfl : [] = l := Option.some.inj h
      exact Nat.zero_le _
    · simp only [Option.bind_eq_bind, Option.bind_eq_some_iff, Option.pure_def,
        Option.some.injEq] at h
      obtain ⟨i, -, rest, decoded, rfl⟩ := h
      exact Nat.succ_le_succ (ih decoded)

theorem length_emulateGetPcCall_le {i : Instruction} {decoded : List Instruction} {start end_ : ℕ}
    {seq : List BlockInstr} (h : emulateGetPcCall i decoded start end_ = some seq) :
    seq.length ≤ 3 := by
  unfold emulateGetPcCall at h
  split_ifs at h
  all_goals
    obtain rfl := Option.some.inj h
    simp

/-- At most three instructions are emitted for each stolen one. -/
theorem length_buildBlock_le {decoded later : List Instruction} {start end_ : ℕ}
    {block block' : List BlockInstr} {index index' : List ℕ}
    (h : buildBlock decoded start end_ later block index = some (block', index')) :
    block'.length ≤ block.length + 3 * later.length := by
  induction later generalizing block index with
  | nil =>
    obtain ⟨rfl, -⟩ := Prod.mk.inj (Option.some.inj h)
    exact le_rfl
  | cons i rest ih =>
    rw [buildBlock] at h
    simp only [Option.bind_eq_bind, Option.bind_eq_some_iff] at h
    obtain ⟨seq, emulated, h⟩ := h
    have emitted := ih h
    have few := length_emulateGetPcCall_le emulated
    rw [List.length_append] at emitted
    rw [List.length_cons]
    split_ifs at emitted
    · rw [List.length_singleton] at emitted
      omega
    · omega

/-- The copy of what is stolen for a patch and the gateway stub before it fit into a page. -/
theorem relocate_fits {m : ℕ → UInt8} {target trampoline n : ℕ} {r : RelocationMapping}
    (h : relocate C m target trampoline n = some r) (few : n ≤ maxStolenLen) :
    managedGatewayLen + r.writtenLen ≤ pageSize := by
  unfold relocate at h
  simp only [Option.bind_eq_bind, Option.bind_eq_some_iff] at h
  obtain ⟨_, decodes, ⟨block, _⟩, built, out, encoded, h⟩ := h
  split_ifs at h
  simp only [Option.bind_eq_some_iff, Option.pure_def, Option.some.injEq] at h
  obtain ⟨_, _, rfl⟩ := h
  refine C.encode_fits ?_ encoded
  have stolen := length_decodeAll_le decodes
  have emitted := length_buildBlock_le built
  rw [List.length_nil] at emitted
  change (block ++ [_]).length ≤ _
  rw [List.length_append, List.length_singleton]
  omega

end Disassembler

end NeoHook
