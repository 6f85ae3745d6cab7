import NeoHook.JumpCodec
import NeoHook.Relocation
import NeoHook.Lib.WordMap

/-!
# Stolen calls into the stolen range

`emulate_get_pc_call` of `disasm.rs` on both architectures.  A near call whose target is stolen
too reads its own return address, so the trampoline pushes the original one and jumps.  The
sequence leaves the processor as the call would, and goes on at the relocated target.
-/

namespace NeoHook

open ByteMap Disassembler

/-! ### The relocated block on both architectures -/

namespace Arch

variable (arch : Arch)

/-- `emulate_get_pc_call`: the instructions that replace a call into the stolen range, `[]` when
the instruction is kept, and `none` when the call cannot be reproduced. -/
def emulateGetPcCall (i : Instruction) (decoded : List Instruction) (start end_ : ℕ) :
    Option (List BlockInstr) :=
  if !i.callRel32 ∨ i.nearBranchTarget < start ∨ end_ < i.nearBranchTarget then some []
  else if i.nearBranchTarget ≠ end_ ∧ ¬ decoded.any (·.ip = i.nearBranchTarget) then none
  else match arch with
    | x86 => some [.pushImm32 i.ip (i.nextIp % 2 ^ 32), .jmp i.nearBranchTarget]
    | x86_64 => some [.pushImm32 i.ip (i.nextIp % 2 ^ 32), .movRsp4Imm32 (i.nextIp / 2 ^ 32),
        .jmp i.nearBranchTarget]

/-- The encoder's block and `block_index`. -/
def buildBlock (decoded : List Instruction) (start end_ : ℕ) :
    List Instruction → List BlockInstr → List ℕ → Option (List BlockInstr × List ℕ)
  | [], block, index => some (block, index)
  | i :: rest, block, index => do
    let seq ← arch.emulateGetPcCall i decoded start end_
    buildBlock decoded start end_ rest (block ++ if seq = [] then [.original i] else seq)
      (index ++ [block.length])

/-- `Disassembler::relocate`. -/
def relocate (C : Codec) (m : ℕ → UInt8) (target trampoline stolenLen : ℕ) :
    Option RelocationMapping := do
  let decoded ← decodeAll C stolenLen (read m target stolenLen) target
  let (block, index) ← arch.buildBlock decoded target (target + stolenLen) decoded [] []
  let block := block ++ [.jmp (target + stolenLen)]
  let out ← C.encode block trampoline
  if out.newInstructionOffsets.length < block.length then none
  else do
    let new ← index.mapM fun k => out.newInstructionOffsets.getD k none
    let back := (out.newInstructionOffsets.getD (block.length - 1) none).getD (2 ^ 32 - 1)
    return ⟨out.code, decoded.map fun i => i.ip - target, new, back⟩

theorem x86_64_emulateGetPcCall : x86_64.emulateGetPcCall = Disassembler.emulateGetPcCall := rfl

theorem x86_64_buildBlock (decoded : List Instruction) (start end_ : ℕ) (l : List Instruction)
    (block : List BlockInstr) (index : List ℕ) :
    x86_64.buildBlock decoded start end_ l block index =
      Disassembler.buildBlock decoded start end_ l block index := by
  induction l generalizing block index with
  | nil => rfl
  | cons i rest ih =>
    simp only [buildBlock, Disassembler.buildBlock, x86_64_emulateGetPcCall, ih]

/-- An x86_64 build relocates as the attach model does. -/
theorem x86_64_relocate : x86_64.relocate = Disassembler.relocate := by
  funext C m target trampoline stolenLen
  simp only [relocate, Disassembler.relocate, x86_64_buildBlock]

end Arch

/-! ### The processor -/

/-- What a call touches of a processor; `rest` is its other registers and its flags. -/
structure Cpu (w : ℕ) (R : Type) where
  ip : BitVec w
  sp : BitVec w
  mem : BitVec w → UInt8
  rest : R

namespace Cpu

variable {w : ℕ} {R : Type}

/-- Pushes a word. -/
def push (c : Cpu w R) (v : BitVec w) : Cpu w R :=
  { c with
    sp := c.sp - BitVec.ofNat w (w / 8)
    mem := WordMap.store c.mem (c.sp - BitVec.ofNat w (w / 8)) (leBytes (w / 8) v.toNat) }

/-- The call `i`: the address behind it goes on the stack. -/
def call (c : Cpu w R) (i : Instruction) : Cpu w R :=
  { c.push (BitVec.ofNat w i.nextIp) with ip := BitVec.ofNat w i.nearBranchTarget }

/-- One instruction the relocation introduces.  The code emitted for the following one is at
`next`, and a branch goes to `goes`. -/
def exec (c : Cpu w R) (next goes : BitVec w) : BlockInstr → Option (Cpu w R)
  | .pushImm32 _ imm => some { c.push ((BitVec.ofNat 32 imm).signExtend w) with ip := next }
  | .movRsp4Imm32 imm =>
    some { c with mem := WordMap.store c.mem (c.sp + 4) (leBytes 4 imm), ip := next }
  | .jmp _ => some { c with ip := goes }
  | .original _ => none

/-- The instructions of a block from the `k`-th one on: `place` is where the code of each lies,
and `goes` where its branch leads. -/
def run (place goes : ℕ → BitVec w) : ℕ → List BlockInstr → Cpu w R → Option (Cpu w R)
  | _, [], c => some c
  | k, b :: rest, c => do
    let c ← c.exec (place (k + 1)) (goes k) b
    run place goes (k + 1) rest c

/-- Sign extension keeps the low half. -/
theorem setWidth_signExtend (x : BitVec 32) : (x.signExtend 64).setWidth 32 = x := by
  apply BitVec.eq_of_getLsbD_eq
  intro i inside
  rw [BitVec.getLsbD_setWidth, BitVec.getLsbD_signExtend]
  simp [inside, show i < 64 by omega]

theorem leBytes_signExtend (v : ℕ) :
    leBytes 4 ((BitVec.ofNat 32 v).signExtend 64).toNat = leBytes 4 v := by
  rw [← leBytes_mod, ← leBytes_mod 4 v]
  congr 1
  show ((BitVec.ofNat 32 v).signExtend 64).toNat % 2 ^ 32 = v % 2 ^ 32
  rw [← BitVec.toNat_setWidth, setWidth_signExtend, BitVec.toNat_ofNat]

/-- Storing the sign-extended low half of a word and overwriting the high half stores the word. -/
theorem store_halves (m : BitVec 64 → UInt8) (a : BitVec 64) (v : ℕ) :
    WordMap.store
      (WordMap.store m a (leBytes 8 ((BitVec.ofNat 32 (v % 2 ^ 32)).signExtend 64).toNat))
      (a + 4) (leBytes 4 (v / 2 ^ 32)) =
    WordMap.store m a (leBytes 8 (BitVec.ofNat 64 v).toNat) := by
  have whole : leBytes 8 (BitVec.ofNat 64 v).toNat = leBytes 4 v ++ leBytes 4 (v / 2 ^ 32) := by
    rw [BitVec.toNat_ofNat, show 2 ^ 64 = 256 ^ 8 from rfl, leBytes_mod]
    exact leBytes_add 4 4 v
  have low : leBytes 4 ((BitVec.ofNat 32 (v % 2 ^ 32)).signExtend 64).toNat = leBytes 4 v := by
    rw [leBytes_signExtend]
    exact leBytes_mod 4 v
  have offset : (4 : BitVec 64) = BitVec.ofNat 64 (leBytes 4 v).length := by
    rw [length_leBytes]
    rfl
  rw [whole, leBytes_add 4 4 (BitVec.signExtend _ _).toNat, low, offset,
    WordMap.store_append _ _ (by simp) (by simp), WordMap.store_append _ _ (by simp) (by simp),
    WordMap.store_store _ _ (by simp)]

/-- The top of the stack after a call is the address behind it. -/
theorem load_call (arch : Arch) (c : Cpu arch.bits R) (i : Instruction) :
    WordMap.load (c.call i).mem (c.call i).sp (arch.bits / 8) =
      leBytes (arch.bits / 8) (i.nextIp % 2 ^ arch.bits) := by
  have fits : (leBytes (arch.bits / 8) (i.nextIp % 2 ^ arch.bits)).length ≤ 2 ^ arch.bits := by
    rw [length_leBytes]
    cases arch <;> decide
  have stored := WordMap.load_store c.mem (c.sp - BitVec.ofNat arch.bits (arch.bits / 8)) fits
  rw [length_leBytes] at stored
  rw [← BitVec.toNat_ofNat] at stored ⊢
  exact stored

theorem run_push (place goes : ℕ → BitVec 32) (k ip target : ℕ) (i : Instruction) (c : Cpu 32 R) :
    run place goes k [.pushImm32 ip (i.nextIp % 2 ^ 32), .jmp target] c =
      some { c.call i with ip := goes (k + 1) } := by
  have imm : (BitVec.ofNat 32 (i.nextIp % 2 ^ 32)).signExtend 32 = BitVec.ofNat 32 i.nextIp := by
    rw [BitVec.signExtend_eq]
    exact BitVec.eq_of_toNat_eq (by simp)
  simp only [run, exec, Option.bind_eq_bind, Option.bind_some, imm]
  rfl

theorem run_push_mov (place goes : ℕ → BitVec 64) (k ip target : ℕ) (i : Instruction)
    (c : Cpu 64 R) :
    run place goes k [.pushImm32 ip (i.nextIp % 2 ^ 32), .movRsp4Imm32 (i.nextIp / 2 ^ 32),
      .jmp target] c = some { c.call i with ip := goes (k + 2) } := by
  simp only [run, exec, push, call, Option.bind_eq_bind, Option.bind_some,
    show 64 / 8 = 8 from rfl, store_halves]

/-- The emitted sequence leaves what the call leaves, and goes where its jump goes. -/
theorem run_emulateGetPcCall (arch : Arch) {i : Instruction} {decoded : List Instruction}
    {start end_ : ℕ} {seq : List BlockInstr}
    (emulated : arch.emulateGetPcCall i decoded start end_ = some seq) (emits : seq ≠ [])
    (place goes : ℕ → BitVec arch.bits) (k : ℕ) (c : Cpu arch.bits R) :
    run place goes k seq c = some { c.call i with ip := goes (k + seq.length - 1) } := by
  unfold Arch.emulateGetPcCall at emulated
  split_ifs at emulated with keep middle
  · exact absurd (Option.some.inj emulated).symm emits
  · cases arch with
    | x86 =>
      obtain rfl := Option.some.inj emulated
      exact run_push place goes k _ _ i c
    | x86_64 =>
      obtain rfl := Option.some.inj emulated
      exact run_push_mov place goes k _ _ i c

end Cpu

/-! ### Where the pieces of the block lie -/

/-- The `n`-th of the pieces a list is joined from starts behind the pieces before it. -/
theorem getElem?_flatten_take {α : Type} {pieces : List (List α)} {n : ℕ} {piece : List α}
    (at_ : pieces[n]? = some piece) {d : ℕ} (inside : d < piece.length) :
    pieces.flatten[(pieces.take n).flatten.length + d]? = piece[d]? := by
  obtain ⟨bound, rfl⟩ := List.getElem?_eq_some_iff.mp at_
  have cut : pieces.flatten =
      (pieces.take n).flatten ++ (pieces[n] ++ (pieces.drop (n + 1)).flatten) := by
    conv_lhs => rw [← List.take_append_drop n pieces, List.flatten_append,
      List.drop_eq_getElem_cons bound, List.flatten_cons]
  rw [cut, List.getElem?_append_right (Nat.le_add_right _ _), Nat.add_sub_cancel_left,
    List.getElem?_append_left inside]

namespace Arch

variable (arch : Arch)

/-- What the block holds for one stolen instruction. -/
def emission (decoded : List Instruction) (start end_ : ℕ) (i : Instruction) :
    Option (List BlockInstr) :=
  (arch.emulateGetPcCall i decoded start end_).map fun seq =>
    if seq = [] then [.original i] else seq

variable {arch} {decoded : List Instruction} {start end_ : ℕ}

/-- A call into the stolen range is emulated, and its sequence ends with a jump to its target,
which is the end of the range or a stolen instruction. -/
theorem emulateGetPcCall_of_call {i : Instruction} {seq : List BlockInstr}
    (h : arch.emulateGetPcCall i decoded start end_ = some seq) (call : i.callRel32 = true)
    (low : start ≤ i.nearBranchTarget) (high : i.nearBranchTarget ≤ end_) :
    seq ≠ [] ∧ seq[seq.length - 1]? = some (.jmp i.nearBranchTarget) ∧
      (i.nearBranchTarget = end_ ∨ ∃ j ∈ decoded, j.ip = i.nearBranchTarget) := by
  unfold emulateGetPcCall at h
  rw [if_neg (by simp [call, low, high])] at h
  split_ifs at h with middle
  have boundary : i.nearBranchTarget = end_ ∨ ∃ j ∈ decoded, j.ip = i.nearBranchTarget := by
    simpa only [List.any_eq_true, decide_eq_true_eq, ne_eq, not_and_or, not_not] using middle
  cases arch <;> obtain rfl := Option.some.inj h <;>
    exact ⟨List.cons_ne_nil _ _, rfl, boundary⟩

/-- The first instruction emitted carries the original address, the others none. -/
theorem emission_ips {i : Instruction} {seq : List BlockInstr}
    (h : arch.emission decoded start end_ i = some seq) :
    (∃ first rest, seq = first :: rest ∧ first.ip? = some i.ip) ∧
      seq.filterMap (·.ip?) = [i.ip] := by
  unfold emission emulateGetPcCall at h
  split_ifs at h with keep middle
  · obtain rfl := Option.some.inj h
    exact ⟨⟨_, _, rfl, rfl⟩, rfl⟩
  · cases h
  · cases arch <;> obtain rfl := Option.some.inj h <;> exact ⟨⟨_, _, rfl, rfl⟩, rfl⟩

theorem buildBlock_eq_some {l : List Instruction} {block out : List BlockInstr}
    {index indexOut : List ℕ}
    (h : arch.buildBlock decoded start end_ l block index = some (out, indexOut)) :
    ∃ seqs new, l.mapM (arch.emission decoded start end_) = some seqs ∧
      out = block ++ seqs.flatten ∧ indexOut = index ++ new ∧ new.length = l.length ∧
      ∀ n < l.length, new[n]? = some (block.length + (seqs.take n).flatten.length) := by
  induction l generalizing block index with
  | nil =>
    simp only [buildBlock, Option.some.injEq, Prod.mk.injEq] at h
    exact ⟨[], [], rfl, by simp [h.1], by simp [h.2], rfl, by simp⟩
  | cons i rest ih =>
    simp only [buildBlock, Option.bind_eq_bind, Option.bind_eq_some_iff] at h
    obtain ⟨seq, emulated, h⟩ := h
    have emitted : arch.emission decoded start end_ i =
        some (if seq = [] then [.original i] else seq) := by
      rw [emission, emulated, Option.map_some]
    generalize (if seq = [] then [BlockInstr.original i] else seq) = piece at h emitted
    obtain ⟨seqs, new, mapped, rfl, rfl, length, starts⟩ := ih h
    refine ⟨piece :: seqs, block.length :: new, ?_, ?_, ?_, ?_, ?_⟩
    · simp [List.mapM_cons, emitted, mapped]
    · simp
    · simp
    · simp [length]
    · intro n inside
      cases n with
      | zero => simp
      | succ n =>
        have at_ := starts n (by simpa using inside)
        simp only [List.getElem?_cons_succ, at_, List.take_succ_cons, List.flatten_cons,
          List.length_append, Option.some.injEq]
        omega

theorem mapM_emission_ips {l : List Instruction} {seqs : List (List BlockInstr)}
    (h : l.mapM (arch.emission decoded start end_) = some seqs) :
    seqs.flatten.filterMap (·.ip?) = l.map (·.ip) := by
  induction l generalizing seqs with
  | nil =>
    obtain rfl : [] = seqs := by simpa using h
    rfl
  | cons i rest ih =>
    simp only [List.mapM_cons, Option.bind_eq_bind, Option.bind_eq_some_iff, Option.pure_def,
      Option.some.injEq] at h
    obtain ⟨seq, emitted, seqs, tail, rfl⟩ := h
    rw [List.flatten_cons, List.filterMap_append, (emission_ips emitted).2, ih tail,
      List.map_cons, List.singleton_append]

variable (arch) in
/-- The parts of a relocation: the stolen instructions, what the block holds for each of them,
`block_index`, and the encoder's answer. -/
structure Relocates (C : Codec) (m : ℕ → UInt8) (target trampoline stolenLen : ℕ)
    (r : RelocationMapping) (decoded : List Instruction) (seqs : List (List BlockInstr))
    (index : List ℕ) (out : EncodedBlock) : Prop where
  decodes : decodeAll C stolenLen (read m target stolenLen) target = some decoded
  emits : decoded.mapM (arch.emission decoded target (target + stolenLen)) = some seqs
  built : arch.buildBlock decoded target (target + stolenLen) decoded [] [] =
    some (seqs.flatten, index)
  encoded : C.encode (seqs.flatten ++ [.jmp (target + stolenLen)]) trampoline = some out
  offsets : index.mapM (fun k => out.newInstructionOffsets.getD k none) =
    some r.newInstructionOffsets

section Relocated

variable {C : Codec} {m : ℕ → UInt8} {target trampoline stolenLen : ℕ} {r : RelocationMapping}
  {seqs : List (List BlockInstr)} {index : List ℕ} {out : EncodedBlock}
  {destination : List BlockInstr → ℕ → ℕ → ℕ}

theorem relocate_eq_some (h : arch.relocate C m target trampoline stolenLen = some r) :
    ∃ decoded seqs index out,
      arch.Relocates C m target trampoline stolenLen r decoded seqs index out := by
  unfold relocate at h
  simp only [Option.bind_eq_bind, Option.bind_eq_some_iff] at h
  obtain ⟨decoded, decodes, ⟨block, index⟩, built, out, encoded, h⟩ := h
  split_ifs at h
  simp only [Option.bind_eq_some_iff, Option.pure_def, Option.some.injEq] at h
  obtain ⟨new, mapped, rfl⟩ := h
  obtain ⟨seqs, _, emits, rfl, rfl, -, -⟩ := buildBlock_eq_some built
  exact ⟨decoded, seqs, _, out, decodes, emits, built, encoded, mapped⟩

namespace Relocates

variable (parts : arch.Relocates C m target trampoline stolenLen r decoded seqs index out)

include parts

/-- `block_index` points behind everything emitted for the instructions before. -/
theorem index_eq {n : ℕ} (inside : n < decoded.length) :
    index[n]? = some (seqs.take n).flatten.length := by
  obtain ⟨seqs', new, emits, block, rfl, -, starts⟩ := buildBlock_eq_some parts.built
  obtain rfl : seqs = seqs' := Option.some.inj (parts.emits.symm.trans emits)
  simpa using starts n inside

theorem emission_at {n : ℕ} {i : Instruction} (at_ : decoded[n]? = some i) :
    ∃ seq, seqs[n]? = some seq ∧
      arch.emission decoded target (target + stolenLen) i = some seq := by
  obtain ⟨seq, emitted, found⟩ := getElem?_mapM parts.emits at_
  exact ⟨seq, found, emitted⟩

theorem nodup (laws : C.Decodes) :
    ((seqs.flatten ++ [BlockInstr.jmp (target + stolenLen)]).filterMap (·.ip?)).Nodup := by
  rw [List.filterMap_append, mapM_emission_ips parts.emits]
  simpa [BlockInstr.ip?] using ((decodeAll_leading parts.decodes).ips laws).1

/-- A stolen instruction lies before the end of the stolen range. -/
theorem ip_lt (laws : C.Decodes) {i : Instruction} (mem : i ∈ decoded) :
    i.ip < target + stolenLen := by
  obtain ⟨before, later, rfl⟩ := List.append_of_mem mem
  have leading := decodeAll_leading parts.decodes
  have place := leading.ip_eq laws
  have inside := leading.size_le laws
  have := i.len_pos
  rw [size_append, size_cons, length_read] at inside
  omega

/-- A jump of the block to a stolen instruction goes to its relocated copy. -/
theorem jump_relocated (laws : C.Decodes) (enc : C.Retargets destination) {k j t : ℕ}
    {i : Instruction} (jump : seqs.flatten[k]? = some (.jmp t)) (at_ : decoded[j]? = some i)
    (ip : i.ip = t) :
    ∃ o, r.newInstructionOffsets[j]? = some o ∧
      destination (seqs.flatten ++ [.jmp (target + stolenLen)]) trampoline k = trampoline + o := by
  have inside := (List.getElem?_eq_some_iff.mp at_).1
  obtain ⟨seq, found, emitted⟩ := parts.emission_at at_
  obtain ⟨⟨first, rest, rfl, carries⟩, -⟩ := emission_ips emitted
  obtain ⟨o, offset, new⟩ := getElem?_mapM parts.offsets (parts.index_eq inside)
  have head : seqs.flatten[(seqs.take j).flatten.length]? = some first :=
    getElem?_flatten_take found (d := 0) (by simp)
  refine ⟨o, new, enc.retargeted parts.encoded (parts.nodup laws) (b := .jmp t) ?_ rfl ?_
    (ip ▸ carries) offset⟩
  · rw [List.getElem?_append_left (List.getElem?_eq_some_iff.mp jump).1, jump]
  · rw [List.getElem?_append_left (List.getElem?_eq_some_iff.mp head).1, head]

/-- A jump of the block to the end of the range leaves the trampoline. -/
theorem jump_out (laws : C.Decodes) (enc : C.Retargets destination) {k : ℕ}
    (jump : seqs.flatten[k]? = some (.jmp (target + stolenLen))) :
    destination (seqs.flatten ++ [.jmp (target + stolenLen)]) trampoline k =
      target + stolenLen := by
  refine enc.kept parts.encoded (parts.nodup laws) (b := .jmp (target + stolenLen)) ?_ rfl ?_
  · rw [List.getElem?_append_left (List.getElem?_eq_some_iff.mp jump).1, jump]
  · intro b mem carries
    have listed : target + stolenLen ∈
        (seqs.flatten ++ [BlockInstr.jmp (target + stolenLen)]).filterMap (·.ip?) :=
      List.mem_filterMap.mpr ⟨b, mem, carries⟩
    rw [List.filterMap_append, mapM_emission_ips parts.emits] at listed
    simp only [BlockInstr.ip?, List.filterMap_cons, List.filterMap_nil, List.append_nil,
      List.mem_map] at listed
    obtain ⟨i, mem, eq⟩ := listed
    exact absurd eq (parts.ip_lt laws mem).ne

end Relocates

end Relocated

/-- `block_index` maps each stolen instruction to the first instruction emitted for it, however
many calls before it expand.  What is emitted for a near call into the stolen range, or to its
end, leaves the state of the processor that the call leaves: the original return address on top
of the stack, the stack pointer one word lower, the other registers and the flags as they were.
It goes on at the relocated copy of the call's target, or behind the range if that is the
target. -/
theorem getPcCalls_emulated {C : Codec} {destination : List BlockInstr → ℕ → ℕ → ℕ}
    (laws : C.Decodes) (enc : C.Retargets destination) {m : ℕ → UInt8}
    {target trampoline stolenLen : ℕ} {r : RelocationMapping}
    (h : arch.relocate C m target trampoline stolenLen = some r) :
    ∃ decoded seqs index out,
      arch.Relocates C m target trampoline stolenLen r decoded seqs index out ∧
      (∀ (n : ℕ) (i : Instruction), decoded[n]? = some i → ∃ k first rest, index[n]? = some k ∧
        k = (seqs.take n).flatten.length ∧ seqs[n]? = some (first :: rest) ∧
        seqs.flatten[k]? = some first ∧ first.ip? = some i.ip) ∧
      ∀ (n : ℕ) (i : Instruction), decoded[n]? = some i → i.callRel32 = true →
        target ≤ i.nearBranchTarget → i.nearBranchTarget ≤ target + stolenLen →
        ∃ k seq dest, index[n]? = some k ∧
          arch.emulateGetPcCall i decoded target (target + stolenLen) = some seq ∧
          (∀ d < seq.length, seqs.flatten[k + d]? = seq[d]?) ∧
          (i.nearBranchTarget = target + stolenLen ∧ dest = target + stolenLen ∨
            ∃ (j : ℕ) (i' : Instruction) (o : ℕ), decoded[j]? = some i' ∧
              i'.ip = i.nearBranchTarget ∧ r.newInstructionOffsets[j]? = some o ∧
              dest = trampoline + o) ∧
          ∀ (R : Type) (place : ℕ → BitVec arch.bits) (c : Cpu arch.bits R), ∃ c',
            Cpu.run place (fun n => BitVec.ofNat _ (destination
                (seqs.flatten ++ [.jmp (target + stolenLen)]) trampoline n)) k seq c = some c' ∧
              c' = { c.call i with ip := BitVec.ofNat _ dest } ∧
              WordMap.load c'.mem c'.sp (arch.bits / 8) =
                leBytes (arch.bits / 8) (i.nextIp % 2 ^ arch.bits) ∧
              c'.sp = c.sp - BitVec.ofNat _ (arch.bits / 8) ∧ c'.rest = c.rest := by
  obtain ⟨decoded, seqs, index, out, parts⟩ := relocate_eq_some h
  refine ⟨decoded, seqs, index, out, parts, ?_, ?_⟩
  · intro n i at_
    obtain ⟨seq, found, emitted⟩ := parts.emission_at at_
    obtain ⟨⟨first, rest, rfl, carries⟩, -⟩ := emission_ips emitted
    exact ⟨_, first, rest, parts.index_eq (List.getElem?_eq_some_iff.mp at_).1, rfl, found,
      getElem?_flatten_take found (d := 0) (by simp), carries⟩
  · intro n i at_ call low high
    obtain ⟨piece, found, emitted⟩ := parts.emission_at at_
    obtain ⟨seq, emulated, eq⟩ := Option.map_eq_some_iff.mp emitted
    obtain ⟨emits, last, boundary⟩ := emulateGetPcCall_of_call emulated call low high
    rw [if_neg emits] at eq
    subst eq
    have some_emitted : 0 < seq.length := List.length_pos_iff.mpr emits
    have place_of : ∀ d < seq.length,
        seqs.flatten[(seqs.take n).flatten.length + d]? = seq[d]? :=
      fun d inside => getElem?_flatten_take found inside
    have jump := (place_of (seq.length - 1) (by omega)).trans last
    rw [← Nat.add_sub_assoc some_emitted] at jump
    refine ⟨_, seq, destination (seqs.flatten ++ [.jmp (target + stolenLen)]) trampoline
      ((seqs.take n).flatten.length + seq.length - 1),
      parts.index_eq (List.getElem?_eq_some_iff.mp at_).1, emulated, place_of, ?_, ?_⟩
    · by_cases leaves : i.nearBranchTarget = target + stolenLen
      · rw [leaves] at jump
        exact .inl ⟨leaves, parts.jump_out laws enc jump⟩
      · obtain ⟨i', mem, ip⟩ := boundary.resolve_left leaves
        obtain ⟨j, at_'⟩ := List.mem_iff_getElem?.mp mem
        obtain ⟨o, new, goes⟩ := parts.jump_relocated laws enc jump at_' ip
        exact .inr ⟨j, i', o, at_', ip, new, goes⟩
    · intro R place c
      exact ⟨_, Cpu.run_emulateGetPcCall arch emulated emits place _ _ c, rfl,
        Cpu.load_call arch c i, rfl, rfl⟩

end Arch

/-- `call $+5; call $+5`: the first call's target is a call that expands as well. -/
def getPcTwice : ℕ → UInt8 :=
  write (fun _ => 0xCC) 0x1000 [0xE8, 0, 0, 0, 0, 0xE8, 0, 0, 0, 0]

/-- Both calls are emulated on both architectures, so the second one moves back in the block. -/
theorem getPcTwice_emulated :
    (∃ r decoded seqs out, Arch.x86_64.Relocates sampleCodec getPcTwice 0x1000 0x20000 10 r decoded
      seqs [0, 3] out) ∧
    ∃ r decoded seqs out, Arch.x86.Relocates sampleCodec getPcTwice 0x1000 0x20000 10 r decoded
      seqs [0, 2] out := by
  have index : ∀ (arch : Arch) (l : List ℕ),
      (decodeAll sampleCodec 10 (read getPcTwice 0x1000 10) 0x1000).bind (fun decoded =>
        (arch.buildBlock decoded 0x1000 0x100A decoded [] []).map Prod.snd) = some l →
      (arch.relocate sampleCodec getPcTwice 0x1000 0x20000 10).isSome →
      ∃ r decoded seqs out, arch.Relocates sampleCodec getPcTwice 0x1000 0x20000 10 r decoded
        seqs l out := by
    intro arch l built relocated
    obtain ⟨r, relocated⟩ := Option.isSome_iff_exists.mp relocated
    obtain ⟨decoded, seqs, index, out, parts, -⟩ :=
      Arch.getPcCalls_emulated sampleCodec_decodes sampleCodec_retargets relocated
    rw [parts.decodes, Option.bind_some, parts.built, Option.map_some] at built
    obtain rfl := Option.some.inj built
    exact ⟨r, decoded, seqs, out, parts⟩
  exact ⟨index .x86_64 [0, 3] (by decide +kernel) (by decide +kernel),
    index .x86 [0, 2] (by decide +kernel) (by decide +kernel)⟩

end NeoHook
