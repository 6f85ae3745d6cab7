import NeoHook.GetPcCalls
import NeoHook.Lib.Simulation

/-!
# Running the relocated code

What the stolen instructions do where they stood, the code `Disassembler::relocate` emits for them
does in the trampoline, and it goes on where they go on.  The processor is a parameter: what an
instruction does to the registers and the data, and which way it leaves.
-/

namespace NeoHook

open ByteMap Disassembler Relation

/-! ### Two machines -/

/-- Which way an instruction leaves. -/
inductive Transfer (w : ℕ) where
  | next
  /-- Its near branch is taken. -/
  | branch
  /-- A return, or a jump through a register or memory. -/
  | away (address : BitVec w)
  /-- Its near call is made. -/
  | call
  | callAway (address : BitVec w)

/-- The processor: the state an instruction leaves, apart from its own place and what a call pushes,
and the way it goes on. -/
structure Isa (w : ℕ) (R : Type) where
  exec : Instruction → Cpu w R → Option (Cpu w R × Transfer w)

variable {w : ℕ} {R : Type}

/-- Going on when the following code is at `next` and the near branch leads to `goes`. -/
def Cpu.land (c : Cpu w R) (next goes : BitVec w) : Transfer w → Cpu w R
  | .next => { c with ip := next }
  | .branch => { c with ip := goes }
  | .away address => { c with ip := address }
  | .call => { c.push next with ip := goes }
  | .callAway address => { c.push next with ip := address }

/-- The states agree but for their instruction pointers and the memory outside `D`. -/
structure Cpu.Agrees (D : Set (BitVec w)) (c c' : Cpu w R) : Prop where
  sp : c.sp = c'.sp
  mem : ∀ a ∈ D, c.mem a = c'.mem a
  rest : c.rest = c'.rest

/-- A transfer after which the code goes on by itself: no call that is kept, and no jump through a
register into the stolen bytes. -/
def Instruction.Proceeds (i : Instruction) (start n : ℕ) : Transfer w → Prop
  | .next | .branch => True
  | .away address => ¬ InRange start n address.toNat
  | .call => i.callRel32 = true ∧ start ≤ i.nearBranchTarget ∧ i.nearBranchTarget ≤ start + n
  | .callAway _ => False

/-- A call that the trampoline makes itself. -/
def Instruction.Calls (i : Instruction) (start n : ℕ) : Transfer w → Prop
  | .call => ¬ (i.callRel32 = true ∧ start ≤ i.nearBranchTarget ∧ i.nearBranchTarget ≤ start + n)
  | .callAway _ => True
  | .next | .branch | .away _ => False

namespace Isa

variable (I : Isa w R)

/-- One step of the code where it was. -/
def Original (decoded : List Instruction) (start n : ℕ) (c c' : Cpu w R) : Prop :=
  ∃ i ∈ decoded, c.ip = BitVec.ofNat w i.ip ∧ ∃ d f, I.exec i c = some (d, f) ∧
    i.Proceeds start n f ∧
    c' = d.land (BitVec.ofNat w i.nextIp) (BitVec.ofNat w i.nearBranchTarget) f

/-- One instruction of the block: an original one does what it does where it was. -/
def execBlock (next goes : BitVec w) (c : Cpu w R) : BlockInstr → Option (Cpu w R)
  | .original i =>
    (I.exec i { c with ip := BitVec.ofNat w i.ip }).map fun e => e.1.land next goes e.2
  | .pushImm32 ip imm => c.exec next goes (.pushImm32 ip imm)
  | .movRsp4Imm32 imm => c.exec next goes (.movRsp4Imm32 imm)
  | .jmp target => c.exec next goes (.jmp target)

/-- One step of the emitted code: the code for the `k`-th instruction of the block lies at
`place k`, and its branch leads to `goes k`. -/
def Relocated (block : List BlockInstr) (place goes : ℕ → BitVec w) (c c' : Cpu w R) : Prop :=
  ∃ k b, block[k]? = some b ∧ c.ip = place k ∧ I.execBlock (place (k + 1)) (goes k) c b = some c'

/-- What the processor promises of the stolen instructions: a `call rel32` makes a call, only near
branches and calls go to a near branch target, and what an instruction does is not affected by
memory outside `D`. -/
structure Lawful (D : Set (BitVec w)) (decoded : List Instruction) : Prop where
  call : ∀ i ∈ decoded, i.callRel32 = true → ∀ c, I.exec i c = some (c, .call)
  near : ∀ i ∈ decoded, ∀ {c d f}, I.exec i c = some (d, f) → f = .branch ∨ f = .call →
    i.nearBranch = true
  agrees : ∀ i ∈ decoded, ∀ {c c' d f}, c.Agrees D c' → c.ip = c'.ip → I.exec i c = some (d, f) →
    ∃ d', I.exec i c' = some (d', f) ∧ d.Agrees D d'

end Isa

/-- What the external encoder promises about places: `place` says where the code for each
instruction of a block lies, in order and inside the emitted code, and the offsets it returns are
those places. -/
structure Codec.Lays (C : Codec) (place : List BlockInstr → ℕ → ℕ → ℕ) : Prop where
  starts : ∀ {block at_ out}, C.encode block at_ = some out → place block at_ 0 = at_
  tracked : ∀ {block at_ out k o}, C.encode block at_ = some out →
    out.newInstructionOffsets.getD k none = some o → place block at_ k = at_ + o
  ascends : ∀ {block at_ out j k}, C.encode block at_ = some out → j < k → k < block.length →
    place block at_ j < place block at_ k
  inside : ∀ {block at_ out k}, C.encode block at_ = some out → k < block.length →
    place block at_ k < at_ + out.code.length

namespace Cpu

variable {D : Set (BitVec w)} {c c' : Cpu w R}

theorem Agrees.push (agrees : c.Agrees D c') (v : BitVec w) : (c.push v).Agrees D (c'.push v) := by
  refine ⟨?_, fun a inside => ?_, agrees.rest⟩
  · change c.sp - _ = c'.sp - _
    rw [agrees.sp]
  · change WordMap.store c.mem (c.sp - _) _ a = WordMap.store c'.mem (c'.sp - _) _ a
    rw [agrees.sp]
    unfold WordMap.store
    split_ifs
    · rfl
    · exact agrees.mem a inside

/-- Moving the instruction pointer does not matter. -/
theorem Agrees.at (agrees : c.Agrees D c') (a b : BitVec w) :
    ({ c with ip := a } : Cpu w R).Agrees D { c' with ip := b } :=
  ⟨agrees.sp, agrees.mem, agrees.rest⟩

end Cpu

/-! ### The row of stolen instructions -/

namespace Disassembler

variable {C : Codec}

/-- Decoding a whole block covers it. -/
theorem size_decodeAll (laws : C.Decodes) {fuel ip : ℕ} {bytes : List UInt8} {l : List Instruction}
    (h : decodeAll C fuel bytes ip = some l) (enough : bytes.length ≤ fuel) :
    size l = bytes.length := by
  induction fuel generalizing bytes ip l with
  | zero =>
    rw [decodeAll, Option.some.injEq] at h
    rw [← h, size_nil]
    omega
  | succ fuel ih =>
    rw [decodeAll] at h
    split_ifs at h with empty
    · rw [← Option.some.inj h, empty]
      rfl
    · simp only [Option.bind_eq_bind, Option.bind_eq_some_iff, Option.pure_def,
        Option.some.injEq] at h
      obtain ⟨i, found, rest, tail, rfl⟩ := h
      have := laws.len_le found
      have := i.len_pos
      have covered := ih tail (by rw [List.length_drop]; omega)
      rw [size_cons, covered, List.length_drop]
      omega

theorem Leading.ip_at (laws : C.Decodes) {bytes : List UInt8} {ip : ℕ} {l : List Instruction}
    (h : Leading C bytes ip l) {k : ℕ} {i : Instruction} (at_ : l[k]? = some i) :
    i.ip = ip + size (l.take k) := by
  obtain ⟨inside, found⟩ := List.getElem?_eq_some_iff.mp at_
  rw [← List.take_append_drop k l, List.drop_eq_getElem_cons inside, found] at h
  exact h.ip_eq laws

/-- Behind an instruction of the row lies the next one, or the row's end. -/
theorem Leading.next (laws : C.Decodes) {bytes : List UInt8} {ip : ℕ} {l : List Instruction}
    (h : Leading C bytes ip l) {k : ℕ} {i : Instruction} (at_ : l[k]? = some i) :
    (∃ i', l[k + 1]? = some i' ∧ i'.ip = i.nextIp) ∨
      (k + 1 = l.length ∧ i.nextIp = ip + size l) := by
  obtain ⟨inside, found⟩ := List.getElem?_eq_some_iff.mp at_
  have behind : ip + size (l.take (k + 1)) = i.nextIp := by
    rw [List.take_succ_eq_append_getElem inside, found, size_append, size_cons, size_nil,
      Instruction.nextIp, h.ip_at laws at_]
    omega
  by_cases last : k + 1 < l.length
  · left
    obtain ⟨i', there⟩ : ∃ i', l[k + 1]? = some i' := ⟨_, List.getElem?_eq_getElem last⟩
    exact ⟨i', there, (h.ip_at laws there).trans behind⟩
  · right
    rw [List.take_of_length_le (by omega)] at behind
    exact ⟨by omega, behind.symm⟩

end Disassembler

theorem length_mapM {α β : Type} {f : α → Option β} {l : List α} {l' : List β}
    (h : l.mapM f = some l') : l'.length = l.length := by
  induction l generalizing l' with
  | nil =>
    obtain rfl : [] = l' := by simpa using h
    rfl
  | cons x rest ih =>
    simp only [List.mapM_cons, Option.bind_eq_bind, Option.bind_eq_some_iff, Option.pure_def,
      Option.some.injEq] at h
    obtain ⟨y, -, rest', tail, rfl⟩ := h
    rw [List.length_cons, List.length_cons, ih tail]

/-! ### Where the two machines stand -/

/-- A stolen instruction and its relocated copy, or the same place outside the stolen bytes. -/
def RelocationMapping.Corresponds (r : RelocationMapping) (decoded : List Instruction)
    (target trampoline stolenLen : ℕ) (a b : BitVec w) : Prop :=
  (∃ (k : ℕ) (i : Instruction) (o : ℕ), decoded[k]? = some i ∧
    r.newInstructionOffsets[k]? = some o ∧ a = BitVec.ofNat w i.ip ∧
    b = BitVec.ofNat w (trampoline + o)) ∨
  (b = a ∧ ¬ InRange target stolenLen a.toNat)

/-- Every near branch of the row goes to an instruction of it, or out of the stolen bytes. -/
def BranchesLand (w : ℕ) (decoded : List Instruction) (target stolenLen : ℕ) : Prop :=
  ∀ i ∈ decoded, i.nearBranch = true → (∃ j ∈ decoded, j.ip = i.nearBranchTarget) ∨
    ¬ InRange target stolenLen (BitVec.ofNat w i.nearBranchTarget).toNat

theorem notInRange_end {target stolenLen : ℕ} (room : target + stolenLen < 2 ^ w) :
    ¬ InRange target stolenLen (BitVec.ofNat w (target + stolenLen)).toNat := by
  rw [BitVec.toNat_ofNat, Nat.mod_eq_of_lt room]
  exact fun inside => lt_irrefl _ inside.2

/-- The block handed to the encoder. -/
def relocatedBlock (seqs : List (List BlockInstr)) (end_ : ℕ) : List BlockInstr :=
  seqs.flatten ++ [.jmp end_]

/-- Where the trampoline may go on for the code to go on at `a`: at the corresponding place, or at
the jump back behind the last copy. -/
def RelocationMapping.Resumes (r : RelocationMapping) (decoded : List Instruction)
    (seqs : List (List BlockInstr)) (place : List BlockInstr → ℕ → ℕ → ℕ)
    (target trampoline stolenLen : ℕ) (a b : BitVec w) : Prop :=
  r.Corresponds decoded target trampoline stolenLen a b ∨
    a = BitVec.ofNat w (target + stolenLen) ∧
      b = BitVec.ofNat w (place (relocatedBlock seqs (target + stolenLen)) trampoline
        seqs.flatten.length)

/-- What is emitted for an instruction stands in the block from its index on. -/
theorem relocatedBlock_at {seqs : List (List BlockInstr)} {seq : List BlockInstr} {n d : ℕ}
    (end_ : ℕ) (at_ : seqs[n]? = some seq) (inside : d < seq.length) :
    (relocatedBlock seqs end_)[(seqs.take n).flatten.length + d]? = seq[d]? := by
  have found := getElem?_flatten_take at_ inside
  have here := found.trans (List.getElem?_eq_getElem inside)
  unfold relocatedBlock
  rw [List.getElem?_append_left (List.getElem?_eq_some_iff.mp here).1, found]

namespace Arch.Relocates

variable {arch : Arch} {C : Codec} {m : ℕ → UInt8} {target trampoline stolenLen : ℕ}
  {r : RelocationMapping} {decoded : List Instruction} {seqs : List (List BlockInstr)}
  {index : List ℕ} {out : EncodedBlock} {destination place : List BlockInstr → ℕ → ℕ → ℕ}

theorem code_eq (parts : arch.Relocates C m target trampoline stolenLen r decoded seqs index out)
    (h : arch.relocate C m target trampoline stolenLen = some r) : r.code = out.code := by
  unfold relocate at h
  simp only [Option.bind_eq_bind, parts.decodes, Option.bind_some, parts.built,
    parts.encoded] at h
  split_ifs at h
  simp only [Option.bind_eq_some_iff, Option.pure_def, Option.some.injEq] at h
  obtain ⟨_, _, rfl⟩ := h
  rfl

variable (parts : arch.Relocates C m target trampoline stolenLen r decoded seqs index out)

include parts

/-- The copy of a stolen instruction lies at its new offset. -/
theorem place_copy (lays : C.Lays place) {n : ℕ} {i : Instruction} (at_ : decoded[n]? = some i) :
    ∃ o, r.newInstructionOffsets[n]? = some o ∧
      place (relocatedBlock seqs (target + stolenLen)) trampoline (seqs.take n).flatten.length =
        trampoline + o := by
  obtain ⟨o, offset, new⟩ := getElem?_mapM parts.offsets
    (parts.index_eq (List.getElem?_eq_some_iff.mp at_).1)
  exact ⟨o, new, lays.tracked parts.encoded offset⟩

/-- Behind the code for an instruction lies the copy of the next one, or the jump back. -/
theorem continues (laws : C.Decodes) (lays : C.Lays place) {n : ℕ} {i : Instruction}
    {seq : List BlockInstr} (at_ : decoded[n]? = some i) (emitted : seqs[n]? = some seq) :
    r.Corresponds decoded target trampoline stolenLen (BitVec.ofNat w i.nextIp)
        (BitVec.ofNat w (place (relocatedBlock seqs (target + stolenLen)) trampoline
          ((seqs.take n).flatten.length + seq.length))) ∨
      i.nextIp = target + stolenLen ∧
        (seqs.take n).flatten.length + seq.length = seqs.flatten.length := by
  obtain ⟨inside, found⟩ := List.getElem?_eq_some_iff.mp emitted
  have behind : (seqs.take (n + 1)).flatten.length =
      (seqs.take n).flatten.length + seq.length := by
    rw [List.take_succ_eq_append_getElem inside, found]
    simp
  rw [← behind]
  rcases (decodeAll_leading parts.decodes).next laws at_ with ⟨i', there, ip⟩ | ⟨last, ends⟩
  · obtain ⟨o, new, place_eq⟩ := parts.place_copy lays there
    left
    rw [place_eq]
    exact .inl ⟨n + 1, i', o, there, new, by rw [ip], rfl⟩
  · have covered := size_decodeAll laws parts.decodes (by rw [length_read])
    rw [length_read] at covered
    have same : seqs.length = decoded.length := length_mapM parts.emits
    right
    refine ⟨ends.trans (by rw [covered]), ?_⟩
    rw [List.take_of_length_le (by omega)]

/-- The instruction of the block that carries a stolen address. -/
theorem carrier_at {j : ℕ} {i : Instruction} (at_ : decoded[j]? = some i) :
    ∃ first, (relocatedBlock seqs (target + stolenLen))[(seqs.take j).flatten.length]? =
      some first ∧ first.ip? = some i.ip := by
  obtain ⟨seq, found, emitted⟩ := parts.emission_at at_
  obtain ⟨⟨first, rest, rfl, carries⟩, -⟩ := emission_ips emitted
  exact ⟨first, relocatedBlock_at (d := 0) _ found (Nat.succ_pos _), carries⟩

/-- A branch out of the stolen bytes keeps its target. -/
theorem goes_kept (laws : C.Decodes) (enc : C.Retargets destination) {k t : ℕ} {b : BlockInstr}
    (there : (relocatedBlock seqs (target + stolenLen))[k]? = some b)
    (branch : b.branchTarget? = some t) (outside : ¬ InRange target stolenLen t) :
    destination (relocatedBlock seqs (target + stolenLen)) trampoline k = t := by
  apply enc.kept parts.encoded (parts.nodup laws) there branch
  intro b' mem carries
  have listed : t ∈ (seqs.flatten ++ [BlockInstr.jmp (target + stolenLen)]).filterMap (·.ip?) :=
    List.mem_filterMap.mpr ⟨b', mem, carries⟩
  rw [List.filterMap_append, mapM_emission_ips parts.emits] at listed
  simp only [BlockInstr.ip?, List.filterMap_cons, List.filterMap_nil, List.append_nil,
    List.mem_map] at listed
  obtain ⟨i, mem, rfl⟩ := listed
  exact outside ⟨((decodeAll_leading parts.decodes).ips laws).2 i mem, parts.ip_lt laws mem⟩

/-- A branch of the block goes where it went, or to the copy of that place. -/
theorem goes_corresponds (laws : C.Decodes) (enc : C.Retargets destination)
    (room : target + stolenLen < 2 ^ w) {k t : ℕ} {b : BlockInstr}
    (there : (relocatedBlock seqs (target + stolenLen))[k]? = some b)
    (branch : b.branchTarget? = some t)
    (lands : (∃ j ∈ decoded, j.ip = t) ∨ ¬ InRange target stolenLen (BitVec.ofNat w t).toNat) :
    r.Corresponds decoded target trampoline stolenLen (BitVec.ofNat w t)
      (BitVec.ofNat w (destination (relocatedBlock seqs (target + stolenLen)) trampoline k)) := by
  rcases lands with ⟨i, mem, rfl⟩ | outside
  · obtain ⟨j, at_⟩ := List.mem_iff_getElem?.mp mem
    obtain ⟨first, here, carries⟩ := parts.carrier_at at_
    obtain ⟨o, offset, new⟩ := getElem?_mapM parts.offsets
      (parts.index_eq (List.getElem?_eq_some_iff.mp at_).1)
    have goes : destination (relocatedBlock seqs (target + stolenLen)) trampoline k =
        trampoline + o :=
      enc.retargeted parts.encoded (parts.nodup laws) there branch here carries offset
    rw [goes]
    exact .inl ⟨j, i, o, at_, new, rfl, rfl⟩
  · rw [parts.goes_kept laws enc there branch]
    · exact .inr ⟨rfl, outside⟩
    · intro inside
      have := inside.2
      rw [BitVec.toNat_ofNat, Nat.mod_eq_of_lt (by omega)] at outside
      exact outside inside

end Arch.Relocates

/-! ### One step -/

/-- The machine that runs the trampoline. -/
def Isa.InTrampoline (I : Isa w R) (place destination : List BlockInstr → ℕ → ℕ → ℕ)
    (seqs : List (List BlockInstr)) (trampoline end_ : ℕ) : Cpu w R → Cpu w R → Prop :=
  I.Relocated (relocatedBlock seqs end_)
    (fun k => BitVec.ofNat w (place (relocatedBlock seqs end_) trampoline k))
    (fun k => BitVec.ofNat w (destination (relocatedBlock seqs end_) trampoline k))

namespace Isa

variable {I : Isa w R}

/-- What the relocation introduces is executed as such. -/
theorem execBlock_of_exec {c c' : Cpu w R} {next goes : BitVec w} {b : BlockInstr}
    (h : c.exec next goes b = some c') : I.execBlock next goes c b = some c' := by
  cases b with
  | original i => cases h
  | pushImm32 | movRsp4Imm32 | jmp => exact h

/-- A sequence whose instructions but the last fall through runs where it lies. -/
theorem relocated_run {block : List BlockInstr} {place goes : ℕ → BitVec w}
    {seq : List BlockInstr} {k : ℕ} {c c' : Cpu w R} (emits : seq ≠ [])
    (lies : ∀ d < seq.length, block[k + d]? = seq[d]?)
    (falls : ∀ b ∈ seq.dropLast, ∀ {next goes} {c c' : Cpu w R},
      c.exec next goes b = some c' → c'.ip = next)
    (here : c.ip = place k) (run : Cpu.run place goes k seq c = some c') :
    TransGen (I.Relocated block place goes) c c' := by
  induction seq generalizing k c with
  | nil => exact absurd rfl emits
  | cons b rest ih =>
    rw [Cpu.run, Option.bind_eq_bind, Option.bind_eq_some_iff] at run
    obtain ⟨c₁, first, run⟩ := run
    have step : I.Relocated block place goes c c₁ :=
      ⟨k, b, lies 0 (Nat.succ_pos _), here, execBlock_of_exec first⟩
    by_cases last : rest = []
    · subst last
      obtain rfl := Option.some.inj run
      exact .single step
    · rw [List.dropLast_cons_of_ne_nil last] at falls
      refine .head step (ih last (fun d inside => ?_) ?_ (falls b List.mem_cons_self first) run)
      · have there := lies (d + 1) (Nat.succ_lt_succ inside)
        rw [List.getElem?_cons_succ] at there
        rw [Nat.add_assoc, Nat.add_comm 1]
        exact there
      · exact fun b mem => falls b (List.mem_cons_of_mem _ mem)

end Isa

/-- An emulated call is one into the stolen range, and its sequence falls through to its jump. -/
theorem Arch.emulateGetPcCall_emits {arch : Arch} {i : Instruction} {decoded : List Instruction}
    {start end_ : ℕ} {seq : List BlockInstr}
    (h : arch.emulateGetPcCall i decoded start end_ = some seq) (emits : seq ≠ []) :
    (i.callRel32 = true ∧ start ≤ i.nearBranchTarget ∧ i.nearBranchTarget ≤ end_) ∧
      ∀ b ∈ seq.dropLast, ∀ {next goes} {c c' : Cpu w R},
        c.exec next goes b = some c' → c'.ip = next := by
  unfold emulateGetPcCall at h
  split_ifs at h with keep middle
  · exact absurd (Option.some.inj h).symm emits
  · simp only [not_or, Bool.not_eq_true', Bool.not_eq_false, not_lt] at keep
    refine ⟨keep, ?_⟩
    cases arch with
    | x86 =>
      obtain rfl := Option.some.inj h
      intro b mem next goes c c' exec
      obtain rfl := List.mem_singleton.mp mem
      obtain rfl := Option.some.inj exec
      rfl
    | x86_64 =>
      obtain rfl := Option.some.inj h
      intro b mem next goes c c' exec
      rcases List.mem_pair.mp mem with rfl | rfl <;>
        · obtain rfl := Option.some.inj exec
          rfl

namespace Arch.Relocates

variable {arch : Arch} {C : Codec} {m : ℕ → UInt8} {target trampoline stolenLen : ℕ}
  {r : RelocationMapping} {decoded : List Instruction} {seqs : List (List BlockInstr)}
  {index : List ℕ} {out : EncodedBlock} {destination place : List BlockInstr → ℕ → ℕ → ℕ}
  {I : Isa arch.bits R} {D : Set (BitVec arch.bits)} {c c' : Cpu arch.bits R}

/-- A kept instruction does in the trampoline what it did where it was. -/
theorem kept_step {n : ℕ} {i : Instruction} {d : Cpu arch.bits R} {f : Transfer arch.bits}
    (lawful : I.Lawful D decoded) (mem : i ∈ decoded) (kept : seqs[n]? = some [.original i])
    (exec : I.exec i c = some (d, f)) (agrees : c.Agrees D c')
    (here : c.ip = BitVec.ofNat _ i.ip)
    (there : c'.ip = BitVec.ofNat _ (place (relocatedBlock seqs (target + stolenLen)) trampoline
      (seqs.take n).flatten.length)) :
    ∃ d', d.Agrees D d' ∧ I.InTrampoline place destination seqs trampoline (target + stolenLen) c'
      (d'.land
        (BitVec.ofNat _ (place (relocatedBlock seqs (target + stolenLen)) trampoline
          ((seqs.take n).flatten.length + 1)))
        (BitVec.ofNat _ (destination (relocatedBlock seqs (target + stolenLen)) trampoline
          (seqs.take n).flatten.length)) f) := by
  have moved : c.Agrees D { c' with ip := BitVec.ofNat _ i.ip } :=
    ⟨agrees.sp, agrees.mem, agrees.rest⟩
  obtain ⟨d', exec', agrees'⟩ := lawful.agrees i mem moved here exec
  refine ⟨d', agrees', (seqs.take n).flatten.length, .original i, ?_, there, ?_⟩
  · exact relocatedBlock_at (d := 0) _ kept Nat.one_pos
  · simp only [Isa.execBlock, exec', Option.map_some]

/-- The sequence for a call into the stolen range ends as the call does. -/
theorem emulated_run {n : ℕ} {i : Instruction} {seq : List BlockInstr}
    (emulated : arch.emulateGetPcCall i decoded target (target + stolenLen) = some seq)
    (emits : seq ≠ []) (found : seqs[n]? = some seq)
    (there : c'.ip = BitVec.ofNat _ (place (relocatedBlock seqs (target + stolenLen)) trampoline
      (seqs.take n).flatten.length)) :
    TransGen (I.InTrampoline place destination seqs trampoline (target + stolenLen)) c'
      { c'.call i with
        ip := BitVec.ofNat _ (destination (relocatedBlock seqs (target + stolenLen)) trampoline
          ((seqs.take n).flatten.length + seq.length - 1)) } :=
  Isa.relocated_run emits (fun _ inside => relocatedBlock_at _ found inside)
    (emulateGetPcCall_emits emulated emits).2 there
    (Cpu.run_emulateGetPcCall arch emulated emits _ _ _ c')

variable (parts : arch.Relocates C m target trampoline stolenLen r decoded seqs index out)

include parts

/-- The jump back leaves the trampoline. -/
theorem jump_back (laws : C.Decodes) (enc : C.Retargets destination)
    (there : c'.ip = BitVec.ofNat _ (place (relocatedBlock seqs (target + stolenLen)) trampoline
      seqs.flatten.length)) :
    I.InTrampoline place destination seqs trampoline (target + stolenLen) c'
      { c' with ip := BitVec.ofNat _ (target + stolenLen) } := by
  have last : (relocatedBlock seqs (target + stolenLen))[seqs.flatten.length]? =
      some (.jmp (target + stolenLen)) := by
    unfold relocatedBlock
    rw [List.getElem?_append_right le_rfl, Nat.sub_self]
    rfl
  refine ⟨seqs.flatten.length, _, last, there, ?_⟩
  simp only
  rw [parts.goes_kept laws enc last rfl fun inside => lt_irrefl _ inside.2]
  rfl

/-- The copy of the instruction the code stands at. -/
theorem stands (laws : C.Decodes) (lays : C.Lays place)
    (room : target + stolenLen < 2 ^ arch.bits) {i : Instruction} (mem : i ∈ decoded)
    (here : c.ip = BitVec.ofNat _ i.ip)
    (corresponds : r.Corresponds decoded target trampoline stolenLen c.ip c'.ip) :
    ∃ n seq, decoded[n]? = some i ∧
      arch.emulateGetPcCall i decoded target (target + stolenLen) = some seq ∧
      seqs[n]? = some (if seq = [] then [.original i] else seq) ∧
      c'.ip = BitVec.ofNat _ (place (relocatedBlock seqs (target + stolenLen)) trampoline
        (seqs.take n).flatten.length) := by
  have small : ∀ j ∈ decoded, j.ip < 2 ^ arch.bits := fun j mem => by
    have := parts.ip_lt laws mem
    omega
  obtain ⟨distinct, low⟩ := (decodeAll_leading parts.decodes).ips laws
  rcases corresponds with ⟨n, i', o, at_, new, place_i, there⟩ | ⟨-, outside⟩
  · have same : i'.ip = i.ip := by
      have eq := congrArg BitVec.toNat (place_i.symm.trans here)
      rwa [BitVec.toNat_ofNat, BitVec.toNat_ofNat,
        Nat.mod_eq_of_lt (small i' (List.mem_of_getElem? at_)), Nat.mod_eq_of_lt (small i mem)] at eq
    obtain rfl : i' = i := List.inj_on_of_nodup_map distinct (List.mem_of_getElem? at_) mem same
    obtain ⟨o', new', place_eq⟩ := parts.place_copy lays at_
    obtain rfl := Option.some.inj (new.symm.trans new')
    obtain ⟨seq, found, emission⟩ := parts.emission_at at_
    obtain ⟨seq₀, emulated, rfl⟩ := Option.map_eq_some_iff.mp emission
    exact ⟨n, seq₀, at_, emulated, found, by rw [place_eq, there]⟩
  · refine absurd ?_ outside
    rw [here, BitVec.toNat_ofNat, Nat.mod_eq_of_lt (small i mem)]
    exact ⟨low i mem, parts.ip_lt laws mem⟩

/-- One step of the code where it was is one or more steps of the trampoline. -/
theorem simulates (laws : C.Decodes) (enc : C.Retargets destination) (lays : C.Lays place)
    (room : target + stolenLen < 2 ^ arch.bits) (lawful : I.Lawful D decoded)
    (lands : BranchesLand arch.bits decoded target stolenLen) :
    Simulates (I.Original decoded target stolenLen)
      (I.InTrampoline place destination seqs trampoline (target + stolenLen))
      fun c c' => c.Agrees D c' ∧
        r.Corresponds decoded target trampoline stolenLen c.ip c'.ip := by
  rintro c e c' ⟨agrees, corresponds⟩ ⟨i, mem, here, d, f, exec, proceeds, rfl⟩
  obtain ⟨n, seq, at_, emulated, found, there⟩ := parts.stands laws lays room mem here corresponds
  by_cases keeps : seq = []
  · rw [if_pos keeps] at found
    obtain ⟨d', agrees', step⟩ := kept_step lawful mem found exec
      agrees here there
    cases f with
    | next =>
      rcases parts.continues laws lays at_ found with onward | ⟨ends, last⟩
      · exact ⟨_, .single step, ⟨agrees'.sp, agrees'.mem, agrees'.rest⟩, onward⟩
      · refine ⟨_, .tail (.single step) (parts.jump_back laws enc ?_),
          ⟨agrees'.sp, agrees'.mem, agrees'.rest⟩, .inr ⟨?_, ?_⟩⟩
        · rw [← last]
          rfl
        · change _ = BitVec.ofNat _ i.nextIp
          rw [ends]
        · change ¬ InRange _ _ (BitVec.ofNat _ i.nextIp).toNat
          rw [ends]
          exact notInRange_end room
    | branch =>
      have near := lawful.near i mem exec (.inl rfl)
      have original := relocatedBlock_at (d := 0) (target + stolenLen) found Nat.one_pos
      refine ⟨_, .single step, ⟨agrees'.sp, agrees'.mem, agrees'.rest⟩, ?_⟩
      exact parts.goes_corresponds laws enc room original (by simp [BlockInstr.branchTarget?, near])
        (lands i mem near)
    | away address =>
      exact ⟨_, .single step, ⟨agrees'.sp, agrees'.mem, agrees'.rest⟩, .inr ⟨rfl, proceeds⟩⟩
    | call =>
      obtain ⟨call, low, high⟩ := proceeds
      exact absurd keeps (emulateGetPcCall_of_call emulated call low high).1
    | callAway address => exact proceeds.elim
  · rw [if_neg keeps] at found
    obtain ⟨⟨call, low, high⟩, -⟩ := @emulateGetPcCall_emits arch.bits R _ _ _ _ _ _ emulated keeps
    obtain ⟨-, last, boundary⟩ := emulateGetPcCall_of_call emulated call low high
    obtain ⟨rfl, rfl⟩ := Prod.mk.inj (Option.some.inj ((lawful.call i mem call c).symm.trans exec))
    refine ⟨_, emulated_run emulated keeps found there, ?_, ?_⟩
    · have pushed := agrees.push (BitVec.ofNat _ i.nextIp)
      exact ⟨pushed.sp, pushed.mem, pushed.rest⟩
    · have pos : 0 < seq.length := List.length_pos_iff.mpr keeps
      have jump := (relocatedBlock_at (d := seq.length - 1) (target + stolenLen) found
        (by omega)).trans last
      rw [← Nat.add_sub_assoc pos] at jump
      refine parts.goes_corresponds laws enc room jump rfl ?_
      rcases boundary with leaves | inside
      · rw [leaves]
        exact .inr (notInRange_end room)
      · exact .inl inside

/-- A call that is kept is made from the trampoline, and returns to where the code goes on. -/
theorem call_mirrored (laws : C.Decodes) (enc : C.Retargets destination) (lays : C.Lays place)
    (room : target + stolenLen < 2 ^ arch.bits) (lawful : I.Lawful D decoded)
    (lands : BranchesLand arch.bits decoded target stolenLen) {i : Instruction}
    (mem : i ∈ decoded) {d : Cpu arch.bits R} {f : Transfer arch.bits} (agrees : c.Agrees D c')
    (corresponds : r.Corresponds decoded target trampoline stolenLen c.ip c'.ip)
    (here : c.ip = BitVec.ofNat _ i.ip) (exec : I.exec i c = some (d, f))
    (calls : i.Calls target stolenLen f) :
    ∃ d' back goes, d.Agrees D d' ∧
      I.InTrampoline place destination seqs trampoline (target + stolenLen) c'
        (d'.land back goes f) ∧
      r.Resumes decoded seqs place target trampoline stolenLen (BitVec.ofNat _ i.nextIp) back ∧
      (f = .call → r.Corresponds decoded target trampoline stolenLen
        (BitVec.ofNat _ i.nearBranchTarget) goes) := by
  obtain ⟨n, seq, at_, emulated, found, there⟩ := parts.stands laws lays room mem here corresponds
  by_cases keeps : seq = []
  · rw [if_pos keeps] at found
    obtain ⟨d', agrees', step⟩ := kept_step lawful mem found exec
      agrees here there
    refine ⟨d', _, _, agrees', step, ?_, fun call => ?_⟩
    · rcases parts.continues laws lays at_ found with onward | ⟨ends, last⟩
      · exact .inl onward
      · refine .inr ⟨by rw [ends], ?_⟩
        rw [← last]
        rfl
    · have near := lawful.near i mem exec (.inr call)
      have original := relocatedBlock_at (d := 0) (target + stolenLen) found Nat.one_pos
      exact parts.goes_corresponds laws enc room original (by simp [BlockInstr.branchTarget?, near])
        (lands i mem near)
  · have inside := (@emulateGetPcCall_emits arch.bits R _ _ _ _ _ _ emulated keeps).1
    obtain ⟨-, rfl⟩ := Prod.mk.inj
      (Option.some.inj ((lawful.call i mem inside.1 c).symm.trans exec))
    exact absurd inside calls

/-- The places of a block that fits in the address space differ. -/
theorem deterministic (lays : C.Lays place)
    (fits : trampoline + out.code.length ≤ 2 ^ arch.bits) :
    Relator.RightUnique
      (I.InTrampoline place destination seqs trampoline (target + stolenLen)) := by
  have encoded : C.encode (relocatedBlock seqs (target + stolenLen)) trampoline = some out :=
    parts.encoded
  rintro c c₁ c₂ ⟨j, b, atj, herej, first⟩ ⟨k, b', atk, herek, second⟩
  have insidej := (List.getElem?_eq_some_iff.mp atj).1
  have insidek := (List.getElem?_eq_some_iff.mp atk).1
  have boundj := lays.inside encoded insidej
  have boundk := lays.inside encoded insidek
  have same : place (relocatedBlock seqs (target + stolenLen)) trampoline j =
      place (relocatedBlock seqs (target + stolenLen)) trampoline k := by
    have eq := congrArg BitVec.toNat (herej.symm.trans herek)
    rwa [BitVec.toNat_ofNat, BitVec.toNat_ofNat, Nat.mod_eq_of_lt (by omega),
      Nat.mod_eq_of_lt (by omega)] at eq
  obtain rfl : j = k := by
    rcases lt_trichotomy j k with less | eq | less
    · exact absurd same (lays.ascends encoded less insidek).ne
    · exact eq
    · exact absurd same (lays.ascends encoded less insidej).ne'
  obtain rfl := Option.some.inj (atj.symm.trans atk)
  exact Option.some.inj (first.symm.trans second)

end Arch.Relocates

/-! ### Whole runs -/

/-- The trampoline does what the code does where it was: it is entered where the code is, its run is
matched from any place the code can go on at, and a call that is kept returns to such a place. -/
structure Isa.Mirrors (I : Isa w R) (D : Set (BitVec w)) (r : RelocationMapping)
    (decoded : List Instruction) (seqs : List (List BlockInstr))
    (place destination : List BlockInstr → ℕ → ℕ → ℕ) (target trampoline stolenLen : ℕ) : Prop where
  entry : 0 < stolenLen → r.Corresponds decoded target trampoline stolenLen
    (BitVec.ofNat w target) (BitVec.ofNat w trampoline)
  deterministic : Relator.RightUnique
    (I.InTrampoline place destination seqs trampoline (target + stolenLen))
  runs : ∀ {c c' e : Cpu w R}, c.Agrees D c' →
    r.Resumes decoded seqs place target trampoline stolenLen c.ip c'.ip →
    ReflTransGen (I.Original decoded target stolenLen) c e →
    ∃ e', ReflTransGen (I.InTrampoline place destination seqs trampoline (target + stolenLen))
        c' e' ∧
      e.Agrees D e' ∧ r.Corresponds decoded target trampoline stolenLen e.ip e'.ip
  calls : ∀ {c c' d : Cpu w R} {i : Instruction} {f : Transfer w}, c.Agrees D c' →
    r.Corresponds decoded target trampoline stolenLen c.ip c'.ip → i ∈ decoded →
    c.ip = BitVec.ofNat w i.ip → I.exec i c = some (d, f) → i.Calls target stolenLen f →
    ∃ d' back goes, d.Agrees D d' ∧
      I.InTrampoline place destination seqs trampoline (target + stolenLen) c'
        (d'.land back goes f) ∧
      r.Resumes decoded seqs place target trampoline stolenLen (BitVec.ofNat w i.nextIp) back ∧
      (f = .call → r.Corresponds decoded target trampoline stolenLen
        (BitVec.ofNat w i.nearBranchTarget) goes)

/-- Whatever the stolen instructions are, as long as their branches land on instructions: running
them in the trampoline is running them where they stood, up to the place where they are left. -/
theorem Arch.relocated_code_mirrors {arch : Arch} {C : Codec}
    {destination place : List BlockInstr → ℕ → ℕ → ℕ} (laws : C.Decodes)
    (enc : C.Retargets destination) (lays : C.Lays place) {m : ℕ → UInt8}
    {target trampoline stolenLen : ℕ} {r : RelocationMapping}
    (h : arch.relocate C m target trampoline stolenLen = some r)
    (room : target + stolenLen < 2 ^ arch.bits)
    (fits : trampoline + r.writtenLen ≤ 2 ^ arch.bits) :
    ∃ decoded seqs index out,
      arch.Relocates C m target trampoline stolenLen r decoded seqs index out ∧
      ∀ (R : Type) (I : Isa arch.bits R) (D : Set (BitVec arch.bits)), I.Lawful D decoded →
        BranchesLand arch.bits decoded target stolenLen →
        I.Mirrors D r decoded seqs place destination target trampoline stolenLen := by
  obtain ⟨decoded, seqs, index, out, parts⟩ := relocate_eq_some h
  refine ⟨decoded, seqs, index, out, parts, fun R I D lawful lands => ⟨fun some_stolen => ?_, ?_, ?_,
    fun agrees corresponds mem here exec calls => ?_⟩⟩
  · cases first : decoded[0]? with
    | none =>
      have covered := size_decodeAll laws parts.decodes (by rw [length_read])
      rw [List.eq_nil_of_length_eq_zero (Nat.le_zero.mp (List.getElem?_eq_none_iff.mp first)),
        size_nil, length_read] at covered
      omega
    | some i =>
      obtain ⟨o, new, start⟩ := parts.place_copy lays first
      have encoded : C.encode (relocatedBlock seqs (target + stolenLen)) trampoline = some out :=
        parts.encoded
      have ip := (decodeAll_leading parts.decodes).ip_at laws first
      refine .inl ⟨0, i, o, first, new, ?_, ?_⟩
      · rw [ip]
        rfl
      · rw [← start]
        exact congrArg _ (lays.starts encoded).symm
  · rw [RelocationMapping.writtenLen, parts.code_eq h] at fits
    exact parts.deterministic lays fits
  · intro c c' e agrees resumes path
    rcases resumes with corresponds | ⟨ended, back⟩
    · exact (parts.simulates laws enc lays room lawful lands).run ⟨agrees, corresponds⟩ path
    · rcases path.cases_head with rfl | ⟨e', ⟨i, mem, here, -⟩, -⟩
      · refine ⟨_, .single (parts.jump_back laws enc back), ⟨agrees.sp, agrees.mem, agrees.rest⟩, ?_⟩
        rw [ended]
        exact .inr ⟨rfl, notInRange_end room⟩
      · have low := parts.ip_lt laws mem
        have eq := congrArg BitVec.toNat (here.symm.trans ended)
        rw [BitVec.toNat_ofNat, BitVec.toNat_ofNat, Nat.mod_eq_of_lt (by omega),
          Nat.mod_eq_of_lt room] at eq
        omega
  · exact parts.call_mirrored laws enc lays room lawful lands mem agrees corresponds here exec calls

end NeoHook
