import NeoHook.Lib.WordMap

/-!
# Straight-line code of a processor

A part of x86-64: the registers and the memory of a thread in user mode, the effect of some
instructions on them, and the decoding of these from bytes.  `execute` runs code without branches up
to the jump that leaves it; a call runs a function that is given by its effect.
-/

namespace X64

open ByteMap WordMap

inductive Reg where
  | rax | rcx | rdx | rbx | rsp | rbp | rsi | rdi
  | r8 | r9 | r10 | r11 | r12 | r13 | r14 | r15
  deriving DecidableEq, Repr

/-- The register with a number in the encoding of an instruction. -/
def Reg.ofNumber : ℕ → Reg
  | 0 => .rax
  | 1 => .rcx
  | 2 => .rdx
  | 3 => .rbx
  | 4 => .rsp
  | 5 => .rbp
  | 6 => .rsi
  | 7 => .rdi
  | 8 => .r8
  | 9 => .r9
  | 10 => .r10
  | 11 => .r11
  | 12 => .r12
  | 13 => .r13
  | 14 => .r14
  | _ => .r15

/-- The number of a register in the encoding of an instruction. -/
def Reg.number : Reg → ℕ
  | .rax => 0
  | .rcx => 1
  | .rdx => 2
  | .rbx => 3
  | .rsp => 4
  | .rbp => 5
  | .rsi => 6
  | .rdi => 7
  | .r8 => 8
  | .r9 => 9
  | .r10 => 10
  | .r11 => 11
  | .r12 => 12
  | .r13 => 13
  | .r14 => 14
  | .r15 => 15

/-- A memory operand: a base register and a displacement. -/
structure Mem where
  base : Reg
  disp : BitVec 64
  deriving DecidableEq

inductive Instr where
  | push (r : Reg)
  | pop (r : Reg)
  | pushfq
  | popfq
  | cld
  | movImm (r : Reg) (v : BitVec 64)
  | movMemImm (m : Mem) (v : BitVec 64)
  | mov (dst src : Reg)
  | movLoad (dst : Reg) (m : Mem)
  | movStore (m : Mem) (src : Reg)
  | xchg (m : Mem) (r : Reg)
  | lea (r : Reg) (m : Mem)
  | andImm (r : Reg) (v : BitVec 64)
  | subImm (r : Reg) (v : BitVec 64)
  | test (a b : Reg)
  | cmovz (dst src : Reg)
  | movupsStore (m : Mem) (x : Fin 16)
  | movupsLoad (x : Fin 16) (m : Mem)
  | stmxcsr (m : Mem)
  | ldmxcsr (m : Mem)
  | vextractUpper (m : Mem) (x : Fin 16)
  | vinsertUpper (dst src : Fin 16) (m : Mem)
  | call (r : Reg)
  | jmp (m : Mem)
  deriving DecidableEq

/-! ### Decoding -/

/-- A signed displacement or immediate of one byte. -/
def imm8 (b : UInt8) : BitVec 64 := b.toBitVec.signExtend 64

/-- A signed displacement or immediate of four bytes. -/
def imm32 (bs : List UInt8) : BitVec 64 := (BitVec.ofNat 32 (ofLeBytes bs)).signExtend 64

inductive Operand where
  | reg (n : ℕ)
  | mem (m : Mem)
  deriving DecidableEq

/-- A ModRM byte with what belongs to it: the register field, the operand and the number of
bytes. -/
structure ModRm where
  field : ℕ
  operand : Operand
  len : ℕ
  deriving DecidableEq

/-- The memory operand whose displacement follows, behind `len` bytes. -/
def decodeMem (mode field base len : ℕ) (bytes : List UInt8) : Option ModRm :=
  match mode, bytes with
  | 0, _ => some ⟨field, .mem ⟨.ofNumber base, 0⟩, len⟩
  | 1, a :: _ => some ⟨field, .mem ⟨.ofNumber base, imm8 a⟩, len + 1⟩
  | 2, a :: b :: c :: d :: _ => some ⟨field, .mem ⟨.ofNumber base, imm32 [a, b, c, d]⟩, len + 4⟩
  | _, _ => none

/-- A ModRM byte; `r`, `x` and `b` extend its fields.  Index registers and addresses relative to the
instruction are left out. -/
def decodeModRm (r x b : ℕ) : List UInt8 → Option ModRm
  | [] => none
  | m :: rest =>
    if m.toNat / 64 = 3 then some ⟨m.toNat / 8 % 8 + r, .reg (m.toNat % 8 + b), 1⟩
    else if m.toNat % 8 = 4 then
      match rest with
      | [] => none
      | s :: rest =>
        if s.toNat / 8 % 8 + x ≠ 4 ∨ (m.toNat / 64 = 0 ∧ s.toNat % 8 = 5) then none
        else decodeMem (m.toNat / 64) (m.toNat / 8 % 8 + r) (s.toNat % 8 + b) 2 rest
    else if m.toNat / 64 = 0 ∧ m.toNat % 8 = 5 then none
    else decodeMem (m.toNat / 64) (m.toNat / 8 % 8 + r) (m.toNat % 8 + b) 1 rest

/-- An instruction of 64-bit operands with a ModRM byte; `rest` is what follows the byte's own. -/
def decodeWide (op : UInt8) (m : ModRm) (rest : List UInt8) : Option (Instr × ℕ) :=
  let field := Reg.ofNumber m.field
  match op, m.operand, rest with
  | 0x85, .reg n, _ => some (.test (.ofNumber n) field, 1 + m.len)
  | 0x87, .mem a, _ => some (.xchg a field, 1 + m.len)
  | 0x89, .reg n, _ => some (.mov (.ofNumber n) field, 1 + m.len)
  | 0x89, .mem a, _ => some (.movStore a field, 1 + m.len)
  | 0x8B, .reg n, _ => some (.mov field (.ofNumber n), 1 + m.len)
  | 0x8B, .mem a, _ => some (.movLoad field a, 1 + m.len)
  | 0x8D, .mem a, _ => some (.lea field a, 1 + m.len)
  | 0xC7, .mem a, b0 :: b1 :: b2 :: b3 :: _ =>
    if m.field % 8 = 0 then some (.movMemImm a (imm32 [b0, b1, b2, b3]), 1 + m.len + 4) else none
  | 0x81, .reg n, b0 :: b1 :: b2 :: b3 :: _ =>
    if m.field % 8 = 5 then some (.subImm (.ofNumber n) (imm32 [b0, b1, b2, b3]), 1 + m.len + 4)
    else none
  | 0x83, .reg n, b0 :: _ =>
    if m.field % 8 = 4 then some (.andImm (.ofNumber n) (imm8 b0), 1 + m.len + 1)
    else if m.field % 8 = 5 then some (.subImm (.ofNumber n) (imm8 b0), 1 + m.len + 1)
    else none
  | _, _, _ => none

/-- An instruction of the map `0F`. -/
def decodeTwoByte (wide : Bool) (op : UInt8) (m : ModRm) : Option (Instr × ℕ) :=
  match op, m.operand with
  | 0x10, .mem a => some (.movupsLoad (Fin.ofNat 16 m.field) a, 2 + m.len)
  | 0x11, .mem a => some (.movupsStore a (Fin.ofNat 16 m.field), 2 + m.len)
  | 0x44, .reg n =>
    if wide then some (.cmovz (.ofNumber m.field) (.ofNumber n), 2 + m.len) else none
  | 0xAE, .mem a =>
    if m.field % 8 = 2 then some (.ldmxcsr a, 2 + m.len)
    else if m.field % 8 = 3 then some (.stmxcsr a, 2 + m.len)
    else none
  | _, _ => none

/-- An instruction behind its REX prefix. -/
def decodeOpcode (wide : Bool) (r x b : ℕ) : List UInt8 → Option (Instr × ℕ)
  | [] => none
  | op :: rest =>
    if op.toNat / 8 = 0x50 / 8 then some (.push (.ofNumber (op.toNat % 8 + b)), 1)
    else if op.toNat / 8 = 0x58 / 8 then some (.pop (.ofNumber (op.toNat % 8 + b)), 1)
    else if op = 0x9C then some (.pushfq, 1)
    else if op = 0x9D then some (.popfq, 1)
    else if op = 0xFC then some (.cld, 1)
    else if op.toNat / 8 = 0xB8 / 8 then
      if wide ∧ 8 ≤ rest.length then
        some (.movImm (.ofNumber (op.toNat % 8 + b)) (BitVec.ofNat 64 (ofLeBytes (rest.take 8))), 9)
      else none
    else if op = 0x0F then
      match rest with
      | [] => none
      | op :: rest => (decodeModRm r x b rest).bind (decodeTwoByte wide op)
    else if op = 0xFF then
      match decodeModRm r x b rest with
      | some ⟨field, .reg n, len⟩ =>
        if field % 8 = 2 then some (.call (.ofNumber n), 1 + len) else none
      | some ⟨field, .mem a, len⟩ =>
        if field % 8 = 4 then some (.jmp a, 1 + len) else none
      | none => none
    else if wide then
      (decodeModRm r x b rest).bind fun m => decodeWide op m (rest.drop m.len)
    else none

/-- `vextractf128` and `vinsertf128` with the upper lane, behind the byte `C4`. -/
def decodeVex : List UInt8 → Option (Instr × ℕ)
  | p0 :: p1 :: op :: rest =>
    if p0.toNat % 32 ≠ 3 ∨ p1.toNat % 8 ≠ 5 ∨ 128 ≤ p1.toNat then none
    else
      match decodeModRm (if p0.toNat / 128 = 0 then 8 else 0)
          (if p0.toNat / 64 % 2 = 0 then 8 else 0) (if p0.toNat / 32 % 2 = 0 then 8 else 0) rest with
      | some ⟨field, .mem a, len⟩ =>
        if rest.drop len |>.head? |>.elim true (· ≠ 1) then none
        else if op = 0x18 then
          some (.vinsertUpper (Fin.ofNat 16 field) (Fin.ofNat 16 (15 - p1.toNat / 8)) a, 5 + len)
        else if op = 0x19 ∧ p1.toNat / 8 = 15 then
          some (.vextractUpper a (Fin.ofNat 16 field), 5 + len)
        else none
      | _ => none
  | _ => none

/-- The instruction that the bytes start with, and its length. -/
def decode (bytes : List UInt8) : Option (Instr × ℕ) :=
  match bytes with
  | [] => none
  | p :: rest =>
    if p = 0xC4 then decodeVex rest
    else if p.toNat / 16 = 4 then
      (decodeOpcode (p.toNat / 8 % 2 = 1) (p.toNat / 4 % 2 * 8) (p.toNat / 2 % 2 * 8)
        (p.toNat % 2 * 8) rest).map fun d => (d.1, d.2 + 1)
    else decodeOpcode false 0 0 0 bytes

/-! ### Effects -/

/-- The state of a thread. -/
structure Cpu where
  reg : Reg → BitVec 64
  flags : BitVec 64
  mxcsr : BitVec 32
  xmm : Fin 16 → BitVec 128
  upper : Fin 16 → BitVec 128
  mem : BitVec 64 → UInt8

/-- A bit of the flags. -/
def flag (k : ℕ) (on : Bool) : BitVec 64 := if on then 1#64 <<< k else 0

/-- The flags that arithmetic sets. -/
def statusMask : BitVec 64 := 0x8D5

def setStatus (flags : BitVec 64) (cf pf af zf sf vf : Bool) : BitVec 64 :=
  (flags &&& ~~~statusMask) |||
    (flag 0 cf ||| flag 2 pf ||| flag 4 af ||| flag 6 zf ||| flag 7 sf ||| flag 11 vf)

/-- The low byte has an even number of ones. -/
def parity (v : BitVec 64) : Bool :=
  ((List.range 8).filter fun i => v.getLsbD i).length % 2 = 0

/-- The flags after a logical operation with the result `v`. -/
def logicFlags (flags v : BitVec 64) : BitVec 64 :=
  setStatus flags false (parity v) false (v == 0) (v.getLsbD 63) false

/-- The flags after the subtraction `a - b`. -/
def subFlags (flags a b : BitVec 64) : BitVec 64 :=
  setStatus flags (a.toNat < b.toNat) (parity (a - b)) (a.toNat % 16 < b.toNat % 16)
    (a - b == 0) ((a - b).getLsbD 63)
    (a.getLsbD 63 != b.getLsbD 63 && a.getLsbD 63 != (a - b).getLsbD 63)

/-- The zero flag. -/
def zero (flags : BitVec 64) : Bool := flags.getLsbD 6

/-- What `pushfq` stores of the flags: all but RF and VM. -/
def pushMask : BitVec 64 := 0xFCFFFF

/-- What `popfq` writes in user mode: CF, PF, AF, ZF, SF, TF, DF, OF, NT, AC and ID. -/
def popMask : BitVec 64 := 0x244DD5

/-- The flags after `popfq` has read `v`; RF is cleared. -/
def popFlags (flags v : BitVec 64) : BitVec 64 :=
  (flags &&& ~~~(popMask ||| 0x10000)) ||| (v &&& popMask)

namespace Cpu

def setReg (c : Cpu) (r : Reg) (v : BitVec 64) : Cpu := { c with reg := Function.update c.reg r v }

def address (c : Cpu) (m : Mem) : BitVec 64 := c.reg m.base + m.disp

def read64 (c : Cpu) (a : BitVec 64) : BitVec 64 := BitVec.ofNat 64 (ofLeBytes (load c.mem a 8))

def write (c : Cpu) (a : BitVec 64) (bs : List UInt8) : Cpu := { c with mem := store c.mem a bs }

def write64 (c : Cpu) (a v : BitVec 64) : Cpu := c.write a (leBytes 8 v.toNat)

def push (c : Cpu) (v : BitVec 64) : Cpu :=
  (c.setReg .rsp (c.reg .rsp - 8)).write64 (c.reg .rsp - 8) v

@[simp] theorem setReg_self (c : Cpu) (r : Reg) (v : BitVec 64) : (c.setReg r v).reg r = v :=
  Function.update_self _ _ _

theorem setReg_of_ne (c : Cpu) {r r' : Reg} (v : BitVec 64) (other : r' ≠ r) :
    (c.setReg r v).reg r' = c.reg r' := Function.update_of_ne other _ _

@[simp] theorem setReg_flags (c : Cpu) (r : Reg) (v : BitVec 64) :
    (c.setReg r v).flags = c.flags := rfl

@[simp] theorem setReg_mxcsr (c : Cpu) (r : Reg) (v : BitVec 64) :
    (c.setReg r v).mxcsr = c.mxcsr := rfl

@[simp] theorem setReg_xmm (c : Cpu) (r : Reg) (v : BitVec 64) : (c.setReg r v).xmm = c.xmm := rfl

@[simp] theorem setReg_upper (c : Cpu) (r : Reg) (v : BitVec 64) :
    (c.setReg r v).upper = c.upper := rfl

@[simp] theorem setReg_mem (c : Cpu) (r : Reg) (v : BitVec 64) : (c.setReg r v).mem = c.mem := rfl

@[simp] theorem address_zero (c : Cpu) (r : Reg) : c.address ⟨r, 0⟩ = c.reg r :=
  BitVec.add_zero _

@[simp] theorem write_reg (c : Cpu) (a : BitVec 64) (bs : List UInt8) :
    (c.write a bs).reg = c.reg := rfl

@[simp] theorem write_mem (c : Cpu) (a : BitVec 64) (bs : List UInt8) :
    (c.write a bs).mem = store c.mem a bs := rfl

@[simp] theorem write_flags (c : Cpu) (a : BitVec 64) (bs : List UInt8) :
    (c.write a bs).flags = c.flags := rfl

@[simp] theorem write_mxcsr (c : Cpu) (a : BitVec 64) (bs : List UInt8) :
    (c.write a bs).mxcsr = c.mxcsr := rfl

@[simp] theorem write_xmm (c : Cpu) (a : BitVec 64) (bs : List UInt8) :
    (c.write a bs).xmm = c.xmm := rfl

@[simp] theorem write_upper (c : Cpu) (a : BitVec 64) (bs : List UInt8) :
    (c.write a bs).upper = c.upper := rfl

theorem read64_of_load {c : Cpu} {a v : BitVec 64} (bytes : load c.mem a 8 = leBytes 8 v.toNat) :
    c.read64 a = v := by
  unfold read64
  rw [bytes, ofLeBytes_leBytes]
  apply BitVec.eq_of_toNat_eq
  have := v.isLt
  rw [BitVec.toNat_ofNat]
  omega

/-- The effect of an instruction that is no call and no jump; `none` is a fault. -/
def step (c : Cpu) : Instr → Option Cpu
  | .push r => some (c.push (c.reg r))
  | .pop r => some ((c.setReg .rsp (c.reg .rsp + 8)).setReg r (c.read64 (c.reg .rsp)))
  | .pushfq => some (c.push (c.flags &&& pushMask))
  | .popfq => some { c.setReg .rsp (c.reg .rsp + 8) with
      flags := popFlags c.flags (c.read64 (c.reg .rsp)) }
  | .cld => some { c with flags := c.flags &&& ~~~(flag 10 true) }
  | .movImm r v => some (c.setReg r v)
  | .movMemImm m v => some (c.write64 (c.address m) v)
  | .mov dst src => some (c.setReg dst (c.reg src))
  | .movLoad dst m => some (c.setReg dst (c.read64 (c.address m)))
  | .movStore m src => some (c.write64 (c.address m) (c.reg src))
  | .xchg m r => some ((c.write64 (c.address m) (c.reg r)).setReg r (c.read64 (c.address m)))
  | .lea r m => some (c.setReg r (c.address m))
  | .andImm r v => some { c.setReg r (c.reg r &&& v) with
      flags := logicFlags c.flags (c.reg r &&& v) }
  | .subImm r v => some { c.setReg r (c.reg r - v) with flags := subFlags c.flags (c.reg r) v }
  | .test a b => some { c with flags := logicFlags c.flags (c.reg a &&& c.reg b) }
  | .cmovz dst src => some (c.setReg dst (if zero c.flags then c.reg src else c.reg dst))
  | .movupsStore m x => some (c.write (c.address m) (leBytes 16 (c.xmm x).toNat))
  | .movupsLoad x m => some { c with
      xmm := Function.update c.xmm x (BitVec.ofNat 128 (ofLeBytes (load c.mem (c.address m) 16))) }
  | .stmxcsr m => some (c.write (c.address m) (leBytes 4 c.mxcsr.toNat))
  | .ldmxcsr m =>
    let v := BitVec.ofNat 32 (ofLeBytes (load c.mem (c.address m) 4))
    if v.toNat < 2 ^ 16 then some { c with mxcsr := v } else none
  | .vextractUpper m x => some (c.write (c.address m) (leBytes 16 (c.upper x).toNat))
  | .vinsertUpper dst src m => some { c with
      xmm := Function.update c.xmm dst (c.xmm src)
      upper := Function.update c.upper dst
        (BitVec.ofNat 128 (ofLeBytes (load c.mem (c.address m) 16))) }
  | .call _ => none
  | .jmp _ => none

end Cpu

/-! ### Execution -/

/-- Runs the code at `ip` up to the jump that leaves it, and returns where it goes.  A call pushes
the address behind it; `callee` maps a function and the state in which it is entered to the state in
which it has returned. -/
def execute (callee : BitVec 64 → Cpu → Cpu) (ip : BitVec 64) (code : List UInt8) (c : Cpu) :
    Option (BitVec 64 × Cpu) :=
  match decode code with
  | none => none
  | some (i, len) =>
    if _inside : 0 < len ∧ len ≤ code.length then
      match i with
      | .jmp m => some (c.read64 (c.address m), c)
      | .call r =>
        execute callee (ip + BitVec.ofNat 64 len) (code.drop len)
          (callee (c.reg r) (c.push (ip + BitVec.ofNat 64 len)))
      | i =>
        match c.step i with
        | none => none
        | some c => execute callee (ip + BitVec.ofNat 64 len) (code.drop len) c
    else none
termination_by code.length
decreasing_by
  all_goals
    rw [List.length_drop]
    omega

/-- The bytes are the instruction, whatever follows them. -/
def Encodes (chunk : List UInt8) (i : Instr) : Prop :=
  0 < chunk.length ∧ ∀ rest, decode (chunk ++ rest) = some (i, chunk.length)

/-- A 64-bit register is set to a constant. -/
theorem encodes_movImm {p op : UInt8} (v : BitVec 64) (wide : p.toNat / 8 = 9)
    (small : p.toNat % 8 < 2) (mov : op.toNat / 8 = 0xB8 / 8) :
    Encodes (p :: op :: leBytes 8 v.toNat)
      (.movImm (.ofNumber (op.toNat % 8 + p.toNat % 2 * 8)) v) := by
  refine ⟨by simp, fun rest => ?_⟩
  have value : BitVec.ofNat 64 (ofLeBytes (leBytes 8 v.toNat)) = v := by
    rw [ofLeBytes_leBytes]
    apply BitVec.eq_of_toNat_eq
    rw [BitVec.toNat_ofNat]
    have := v.isLt
    omega
  have bytes : (leBytes 8 v.toNat ++ rest).take 8 = leBytes 8 v.toNat :=
    List.take_left' (length_leBytes 8 _)
  have long : 8 ≤ (leBytes 8 v.toNat ++ rest).length := by simp
  have vex : p ≠ 0xC4 := by
    rintro rfl
    exact absurd wide (by decide)
  have others : op ≠ 0x9C ∧ op ≠ 0x9D ∧ op ≠ 0xFC := by
    refine ⟨?_, ?_, ?_⟩ <;> rintro rfl <;> exact absurd mov (by decide)
  have rex : decode (p :: op :: (leBytes 8 v.toNat ++ rest)) =
      (decodeOpcode (p.toNat / 8 % 2 = 1) (p.toNat / 4 % 2 * 8) (p.toNat / 2 % 2 * 8)
        (p.toNat % 2 * 8) (op :: (leBytes 8 v.toNat ++ rest))).map fun d => (d.1, d.2 + 1) := by
    rw [decode, if_neg vex, if_pos (by omega)]
  rw [List.cons_append, List.cons_append, rex, decodeOpcode.eq_def]
  simp only
  rw [if_neg (by omega), if_neg (by omega), if_neg others.1, if_neg others.2.1,
    if_neg others.2.2, if_pos mov, if_pos ⟨by simp [wide], long⟩, bytes, value]
  simp

variable {callee : BitVec 64 → Cpu → Cpu} {ip : BitVec 64} {chunk rest : List UInt8}
  {c c' : Cpu}

theorem execute_step {i : Instr} (encodes : Encodes chunk i) (step : c.step i = some c') :
    execute callee ip (chunk ++ rest) c =
      execute callee (ip + BitVec.ofNat 64 chunk.length) rest c' := by
  have inside : 0 < chunk.length ∧ chunk.length ≤ (chunk ++ rest).length :=
    ⟨encodes.1, by rw [List.length_append]; omega⟩
  rw [execute, encodes.2 rest]
  simp only
  rw [dif_pos inside]
  cases i
  case call r => cases step
  case jmp m => cases step
  all_goals
    simp only [step, List.drop_left]

theorem execute_call {r : Reg} (encodes : Encodes chunk (.call r)) :
    execute callee ip (chunk ++ rest) c =
      execute callee (ip + BitVec.ofNat 64 chunk.length) rest
        (callee (c.reg r) (c.push (ip + BitVec.ofNat 64 chunk.length))) := by
  have inside : 0 < chunk.length ∧ chunk.length ≤ (chunk ++ rest).length :=
    ⟨encodes.1, by rw [List.length_append]; omega⟩
  rw [execute, encodes.2 rest]
  simp only
  rw [dif_pos inside, List.drop_left]

theorem execute_jmp {m : Mem} (encodes : Encodes chunk (.jmp m)) :
    execute callee ip (chunk ++ rest) c = some (c.read64 (c.address m), c) := by
  have inside : 0 < chunk.length ∧ chunk.length ≤ (chunk ++ rest).length :=
    ⟨encodes.1, by rw [List.length_append]; omega⟩
  rw [execute, encodes.2 rest]
  simp only
  rw [dif_pos inside]

/-- The instructions lead from one state to the other. -/
def Runs (is : List Instr) (c c' : Cpu) : Prop := is.foldlM Cpu.step c = some c'

theorem Runs.nil : Runs [] c c := rfl

theorem Runs.cons {i : Instr} {is : List Instr} {c'' : Cpu} (step : c.step i = some c')
    (rest : Runs is c' c'') : Runs (i :: is) c c'' := by
  unfold Runs
  rw [List.foldlM_cons, step]
  exact rest

theorem Runs.append {is js : List Instr} {c'' : Cpu} (first : Runs is c c')
    (second : Runs js c' c'') : Runs (is ++ js) c c'' := by
  unfold Runs at first ⊢
  rw [List.foldlM_append, first]
  exact second

/-- Running assembled instructions is running their bytes. -/
theorem execute_runs {chunks : List (List UInt8)} {is : List Instr}
    (assembled : List.Forall₂ Encodes chunks is) (runs : Runs is c c') :
    execute callee ip (chunks.flatten ++ rest) c =
      execute callee (ip + BitVec.ofNat 64 chunks.flatten.length) rest c' := by
  induction assembled generalizing ip c with
  | nil =>
    obtain rfl : c = c' := Option.some.inj runs
    simp
  | @cons chunk i chunks is encodes _ ih =>
    unfold Runs at runs
    rw [List.foldlM_cons] at runs
    cases step : c.step i with
    | none =>
      rw [step] at runs
      cases runs
    | some next =>
      rw [step] at runs
      rw [List.flatten_cons, List.append_assoc, execute_step encodes step, ih runs,
        List.length_append, BitVec.ofNat_add, BitVec.add_assoc]

/-- An instruction is left by something else than the next one. -/
def Instr.leaves : Instr → Bool
  | .call _ | .jmp _ => true
  | _ => false

/-- Running the instructions ends in a fault. -/
def Faults (is : List Instr) (c : Cpu) : Prop := is.foldlM Cpu.step c = none

theorem Faults.here {i : Instr} {is : List Instr} (step : c.step i = none) : Faults (i :: is) c := by
  unfold Faults
  rw [List.foldlM_cons, step]
  rfl

theorem Runs.faults {is js : List Instr} (first : Runs is c c') (second : Faults js c') :
    Faults (is ++ js) c := by
  unfold Runs at first
  unfold Faults at second ⊢
  rw [List.foldlM_append, first]
  exact second

theorem execute_fault {i : Instr} (encodes : Encodes chunk i) (stays : i.leaves = false)
    (step : c.step i = none) : execute callee ip (chunk ++ rest) c = none := by
  have inside : 0 < chunk.length ∧ chunk.length ≤ (chunk ++ rest).length :=
    ⟨encodes.1, by rw [List.length_append]; omega⟩
  rw [execute, encodes.2 rest]
  simp only
  rw [dif_pos inside]
  cases i
  case call r => cases stays
  case jmp m => cases stays
  all_goals
    simp only [step]

theorem execute_faults {chunks : List (List UInt8)} {is : List Instr}
    (assembled : List.Forall₂ Encodes chunks is) (stay : ∀ i ∈ is, i.leaves = false)
    (faults : Faults is c) : execute callee ip (chunks.flatten ++ rest) c = none := by
  induction assembled generalizing ip c with
  | nil => cases faults
  | @cons chunk i chunks is encodes _ ih =>
    obtain ⟨here, later⟩ := List.forall_mem_cons.mp stay
    unfold Faults at faults
    rw [List.foldlM_cons] at faults
    rw [List.flatten_cons, List.append_assoc]
    cases step : c.step i with
    | none => exact execute_fault encodes here step
    | some next =>
      rw [step] at faults
      rw [execute_step encodes step]
      exact ih later faults

/-- The instructions that the bytes decode to, each with the offset behind it. -/
def listing (offset : ℕ) (code : List UInt8) : List (Instr × ℕ) :=
  match decode code with
  | none => []
  | some (i, len) =>
    if _inside : 0 < len ∧ len ≤ code.length then
      (i, offset + len) :: listing (offset + len) (code.drop len)
    else []
termination_by code.length
decreasing_by
  rw [List.length_drop]
  omega

theorem listing_nil (offset : ℕ) : listing offset [] = [] := by
  rw [listing]
  rfl

theorem listing_append {i : Instr} (encodes : Encodes chunk i) (offset : ℕ) :
    listing offset (chunk ++ rest) =
      (i, offset + chunk.length) :: listing (offset + chunk.length) rest := by
  have inside : 0 < chunk.length ∧ chunk.length ≤ (chunk ++ rest).length :=
    ⟨encodes.1, by rw [List.length_append]; omega⟩
  rw [listing, encodes.2 rest]
  simp only
  rw [dif_pos inside, List.drop_left]

/-- Where the chunks end. -/
def ends (offset : ℕ) : List (List UInt8) → List ℕ
  | [] => []
  | chunk :: rest => (offset + chunk.length) :: ends (offset + chunk.length) rest

theorem length_ends (offset : ℕ) (chunks : List (List UInt8)) :
    (ends offset chunks).length = chunks.length := by
  induction chunks generalizing offset with
  | nil => rfl
  | cons chunk rest ih => rw [ends, List.length_cons, ih, List.length_cons]

theorem lt_of_mem_ends {chunks : List (List UInt8)} (filled : ∀ chunk ∈ chunks, 0 < chunk.length)
    {offset e : ℕ} (member : e ∈ ends offset chunks) : offset < e := by
  induction chunks generalizing offset with
  | nil => cases member
  | cons chunk rest ih =>
    obtain ⟨here, later⟩ := List.forall_mem_cons.mp filled
    rcases List.mem_cons.mp member with rfl | behind
    · omega
    · have := ih later behind
      omega

theorem ends_pairwise {chunks : List (List UInt8)} (filled : ∀ chunk ∈ chunks, 0 < chunk.length)
    (offset : ℕ) : (ends offset chunks).Pairwise (· < ·) := by
  induction chunks generalizing offset with
  | nil => exact List.Pairwise.nil
  | cons chunk rest ih =>
    have later := (List.forall_mem_cons.mp filled).2
    exact List.Pairwise.cons (fun e member => lt_of_mem_ends later member) (ih later _)

theorem listing_flatten {chunks : List (List UInt8)} {is : List Instr}
    (assembled : List.Forall₂ Encodes chunks is) (offset : ℕ) :
    listing offset chunks.flatten = is.zip (ends offset chunks) := by
  induction assembled generalizing offset with
  | nil => exact listing_nil offset
  | cons encodes _ ih => rw [List.flatten_cons, listing_append encodes, ih, ends, List.zip_cons_cons]

theorem listing_fst {chunks : List (List UInt8)} {is : List Instr}
    (assembled : List.Forall₂ Encodes chunks is) (offset : ℕ) :
    (listing offset chunks.flatten).map Prod.fst = is := by
  rw [listing_flatten assembled]
  exact List.map_fst_zip (by rw [length_ends, assembled.length_eq])

theorem listing_snd {chunks : List (List UInt8)} {is : List Instr}
    (assembled : List.Forall₂ Encodes chunks is) (offset : ℕ) :
    (listing offset chunks.flatten).map Prod.snd = ends offset chunks := by
  rw [listing_flatten assembled]
  exact List.map_snd_zip (by rw [length_ends, assembled.length_eq])

/-- The ends in a listing increase. -/
theorem listing_increasing {chunks : List (List UInt8)} {is : List Instr}
    (assembled : List.Forall₂ Encodes chunks is) (offset : ℕ) :
    ((listing offset chunks.flatten).map Prod.snd).Pairwise (· < ·) := by
  have filled := ((List.forall₂_and_left _ _).mp (assembled.imp fun chunk i encodes =>
    (⟨encodes.1, encodes⟩ : 0 < chunk.length ∧ Encodes chunk i))).1
  rw [listing_snd assembled]
  exact ends_pairwise filled offset

end X64
