import NeoHook.JumpChains
import NeoHook.Lib.Worklist

/-!
# Analysing the code of a function

`Analysis` of `signature.rs`, as built for x86_64: it walks every path of a function and notes which
arguments the instructions read.  The decoder and its instruction information belong to an external
crate; an instruction is what the source reads of the two.  The crate is built without VEX and EVEX,
so that there are sixteen vector registers.
-/

namespace NeoHook

namespace Infer

/-! ### Instructions -/

inductive FlowControl where
  | next | unconditionalBranch | indirectBranch | conditionalBranch | return_ | call
  | indirectCall | interrupt | xbeginXabortXend | exception
  deriving DecidableEq

/-- A register: the general ones with their full register, their size and whether they are its second
byte. -/
inductive Register where
  | none
  | gpr (full : Fin 16) (size : ℕ) (high : Bool)
  | xmm (number : Fin 16)
  | other (id : ℕ)
  deriving DecidableEq

def Register.size : Register → ℕ
  | .none | .other _ => 0
  | .gpr _ size _ => size
  | .xmm _ => 16

inductive OpAccess where
  | none | read | condRead | write | condWrite | readWrite | readCondWrite | noMemAccess
  deriving DecidableEq

/-- The operand is read. -/
def OpAccess.reads : OpAccess → Bool
  | .read | .condRead | .readWrite | .readCondWrite => true
  | _ => false

/-- The operand is written in any case. -/
def OpAccess.overwrites : OpAccess → Bool
  | .write | .readWrite => true
  | _ => false

/-- The mnemonics that the source names; the others have the name that the crate prints. -/
inductive Mnemonic where
  | add | and | fldcw | fldenv | lea | leave | mov | movapd | movaps | movd | movq | movsd | movss
  | movsx | movsxd | movupd | movups | movzx | or | pop | push | pxor | sbb | sub | xor | xorpd
  | xorps
  | other (name : String)
  deriving DecidableEq

def mnemonicName : Mnemonic → String
  | .add => "Add" | .and => "And" | .fldcw => "Fldcw" | .fldenv => "Fldenv" | .lea => "Lea"
  | .leave => "Leave" | .mov => "Mov" | .movapd => "Movapd" | .movaps => "Movaps"
  | .movd => "Movd" | .movq => "Movq" | .movsd => "Movsd" | .movss => "Movss"
  | .movsx => "Movsx" | .movsxd => "Movsxd" | .movupd => "Movupd" | .movups => "Movups"
  | .movzx => "Movzx" | .or => "Or" | .pop => "Pop" | .push => "Push" | .pxor => "Pxor"
  | .sbb => "Sbb" | .sub => "Sub" | .xor => "Xor" | .xorpd => "Xorpd" | .xorps => "Xorps"
  | .other name => name

/-- An operand; `immediate` stands for the kinds that `is_immediate` lists and `nearBranch` for the
near branches. -/
inductive Operand where
  | register (r : Register)
  | memory
  | nearBranch
  | immediate (value : ℕ)
  | other
  deriving DecidableEq

inductive MemorySize where
  | float32 | float64
  | other (size : ℕ)
  deriving DecidableEq

def MemorySize.size : MemorySize → ℕ
  | .float32 => 4
  | .float64 => 8
  | .other size => size

structure UsedRegister where
  register : Register
  access : OpAccess
  deriving DecidableEq

structure UsedMemory where
  base : Register
  index : Register
  displacement : ℕ
  access : OpAccess
  memorySize : MemorySize
  deriving DecidableEq

/-- What the analysis reads of an instruction and its information. -/
structure Instruction where
  ip : ℕ
  nextIp : ℕ
  mnemonic : Mnemonic
  flow : FlowControl
  operands : List Operand
  nearBranchTarget : ℕ
  memoryBase : Register
  memoryIndex : Register
  memoryDisplacement : ℕ
  /-- The address of an operand relative to the instruction pointer. -/
  ipRelMemoryAddress : Option ℕ
  usedRegisters : List UsedRegister
  usedMemory : List UsedMemory
  deriving DecidableEq

def Instruction.op0Register (i : Instruction) : Option Register :=
  match i.operands with
  | .register r :: _ => some r
  | _ => none

/-! ### States of a path -/

def maxSteps : ℕ := 20000

def maxCalleeSteps : ℕ := 4000

def maxDepth : ℕ := 2

def maxCallees : ℕ := 32

def maxFunctionBytes : ℕ := 0x10000

def word : ℤ := 8

def firstStackArg : ℤ := 0x28

/-- The slots of `rcx`, `rdx`, `r8` and `r9`. -/
def gpArgRegs : Vector (Fin 32) 4 := #v[1, 2, 8, 9]

def rax : Fin 32 := 0

/-- The general registers are numbered by literals. -/
scoped instance neZero_sixteen : NeZero 16 := ⟨by decide⟩

def rsp : Fin 16 := 4

def rbp : Fin 16 := 5

def xmm0 : Fin 32 := 16

inductive ValueKind where
  | int8 | int16 | int32 | int64 | pointer | float | double | unknown
  deriving DecidableEq, Repr

/-- Where a value came from. -/
inductive Origin where
  | reg (slot : Fin 4)
  | stack (offset : ℤ)
  deriving DecidableEq

/-- A stack address: an anchor and an offset from it. -/
abbrev Slot := ℕ × ℤ

def entrySlot : Slot := (0, 0)

structure PathState where
  written : BitVec 32
  holds : Vector (Option Origin) 32
  stack : Vector (Option Slot) 16
  spills : List (Slot × Origin)
  retWidth : ℕ
  retXmm : Option ValueKind
  x87 : Bool
  deriving DecidableEq

def PathState.entry : PathState where
  written := 0
  holds := Vector.replicate 32 none
  stack := (Vector.replicate 16 none).set rsp (some entrySlot)
  spills := []
  retWidth := 0
  retXmm := none
  x87 := false

def regIndex : Register → Option (Fin 32)
  | .xmm number => some ⟨16 + number, by omega⟩
  | .gpr full _ _ => some ⟨full, by omega⟩
  | .none | .other _ => none

/-- The index of a general register. -/
def gpIndex (r : Register) : Option (Fin 16) :=
  match regIndex r with
  | some index => if below : (index : ℕ) < 16 then some ⟨index, below⟩ else none
  | none => none

/-- The argument slot a register is at entry. -/
def argSlot (index : Fin 32) : Option (Fin 4) :=
  match (List.finRange 4).find? fun slot => gpArgRegs[slot] = index with
  | some slot => some slot
  | none => if below : xmm0 ≤ index ∧ index.val < 20 then some ⟨index - 16, by omega⟩ else none

def isXmmIndex (index : Fin 32) : Bool := xmm0 ≤ index

/-- The argument that a register holds on this path. -/
def PathState.origin (state : PathState) (index : Fin 32) : Option Origin :=
  if state.written.getLsbD index = false then (argSlot index).map .reg else state.holds[index]

/-- The registers a call clobbers. -/
def volatile : BitVec 32 :=
  1 <<< 0 ||| 1 <<< 1 ||| 1 <<< 2 ||| 0xF <<< 8 ||| 0x3F <<< 16

/-- A 64-bit number, read as a signed one. -/
def toI64 (n : ℕ) : ℤ := (n : ℤ).bmod (2 ^ 64)

/-- A stack address moved by an offset, which wraps. -/
def shifted (slot : Option Slot) (offset : ℤ) : Option Slot :=
  slot.map fun s => (s.1, (s.2 + offset).bmod (2 ^ 64))

/-- The slot that `[reg + disp]` addresses. -/
def stackSlot (state : PathState) (base index : Register) (disp : ℕ) : Option Slot :=
  if index ≠ .none then none
  else
    match gpIndex base with
    | some base => shifted state.stack[base] (toI64 disp)
    | none => none

/-! ### Kinds of instructions -/

/-- Idioms that set a register without depending on it. -/
def Instruction.zeroing (i : Instruction) : Bool :=
  match i.operands with
  | [.register r, .register r'] =>
    r = r' && [.xor, .sub, .sbb, .pxor, .xorps, .xorpd].contains i.mnemonic
  | [.register _, .immediate value] =>
    (i.mnemonic = .or && toI64 value = -1) || (i.mnemonic = .and && value = 0)
  | _ => false

def Instruction.pushesRegister (i : Instruction) : Bool :=
  i.mnemonic = .push && i.op0Register.isSome

/-- The kind of an SSE instruction on one value. -/
def xmmKind (mnemonic : Mnemonic) : Option ValueKind :=
  let name := (mnemonicName mnemonic).toList
  if mnemonic = .movd ∨ mnemonic = .movq then none
  else if "ss".toList.isSuffixOf name ∨ "Cvtss".toList.isPrefixOf name ∨
      name = "Ucomiss".toList ∨ name = "Comiss".toList then
    some .float
  else if "sd".toList.isSuffixOf name ∨ "Cvtsd".toList.isPrefixOf name ∨
      name = "Ucomisd".toList ∨ name = "Comisd".toList then
    some .double
  else none

def Mnemonic.moves : Mnemonic → Bool
  | .mov | .movzx | .movsx | .movsxd | .movaps | .movapd | .movups | .movupd | .movss | .movsd
  | .movq | .movd => true
  | _ => false

/-- The argument that a move copies. -/
def copySource (i : Instruction) (state : PathState) : Option Origin :=
  if i.mnemonic.moves = false then none
  else
    match i.operands with
    | [_, .register r] =>
      match regIndex r with
      | some index => state.origin index
      | none => none
    | [_, .memory] =>
      match stackSlot state i.memoryBase i.memoryIndex i.memoryDisplacement with
      | some slot =>
        match state.spills.find? fun spill => spill.1 = slot with
        | some spill => some spill.2
        | none =>
          if slot.1 = entrySlot.1 ∧ firstStackArg ≤ slot.2 then some (.stack slot.2) else none
      | none => none
    | _ => none

/-! ### The state behind an instruction -/

/-- The stack pointer behind a push, a pop or a `leave`. -/
def trackStackPointer (i : Instruction) (state : PathState) : PathState :=
  match i.mnemonic with
  | .push => { state with stack := state.stack.set rsp (shifted state.stack[rsp] (-word)) }
  | .pop => { state with stack := state.stack.set rsp (shifted state.stack[rsp] word) }
  | .leave => { state with stack := state.stack.set rsp (shifted state.stack[rbp] word) }
  | _ => state

/-- The register that gets a stack address, and the address. -/
def dstStack (i : Instruction) (before : Vector (Option Slot) 16) :
    Option (Fin 16 × Option Slot) :=
  if i.mnemonic = .push ∨ i.mnemonic = .pop then none
  else
    match i.op0Register.bind gpIndex with
    | none => none
    | some dst =>
      let anchored :=
        match i.mnemonic, i.operands with
        | .mov, [_, .register r] => (gpIndex r).bind fun r => before[r]
        | .lea, _ =>
          if i.memoryIndex = .none then
            (gpIndex i.memoryBase).bind fun b => shifted before[b] (toI64 i.memoryDisplacement)
          else none
        | .add, [_, .immediate value] => shifted before[dst] (toI64 value)
        | .sub, [_, .immediate value] => shifted before[dst] (-toI64 value)
        | .and, [_, .immediate _] => if before[dst].isSome then some (i.ip, 0) else none
        | _, _ => none
      some (dst, anchored)

/-- What `pop reg` reloads. -/
def popped (i : Instruction) (before : Vector (Option Slot) 16) (spills : List (Slot × Origin)) :
    Option Origin :=
  if i.mnemonic = .pop ∧ i.op0Register.isSome then
    before[rsp].bind fun slot => (spills.find? fun spill => spill.1 = slot).map Prod.snd
  else none

/-- The spills with one slot written. -/
def spill (spills : List (Slot × Origin)) (slot : Slot) (origin : Option Origin) :
    List (Slot × Origin) :=
  let kept := spills.filter fun spill => spill.1 ≠ slot
  match origin with
  | some origin => if kept.length < 32 then kept ++ [(slot, origin)] else kept
  | none => kept

/-- The spills behind `push reg` or a move to the stack. -/
def trackSpills (i : Instruction) (copied : Option Origin) (state : PathState) : PathState :=
  match i.mnemonic, i.operands with
  | .push, .register r :: _ =>
    match state.stack[rsp] with
    | some slot =>
      { state with spills := spill state.spills slot ((regIndex r).bind state.origin) }
    | none => state
  | .mov, [.memory, .register _] =>
    match stackSlot state i.memoryBase i.memoryIndex i.memoryDisplacement with
    | some slot => { state with spills := spill state.spills slot copied }
    | none => state
  | _, _ => state

/-- The write of one register. -/
def writeRegister (i : Instruction) (state : PathState) (used : UsedRegister) : PathState :=
  if used.access.overwrites = false then state
  else
    match regIndex used.register with
    | none => state
    | some index =>
      if index.val = rsp then state
      else
        { state with
          written := state.written ||| BitVec.twoPow 32 index
          holds := state.holds.set index none
          stack := if below : index.val < 16 then state.stack.set index none else state.stack
          retWidth :=
            if index = rax then
              match i.op0Register with
              | some r => if regIndex r = some rax then r.size else used.register.size
              | none => used.register.size
            else state.retWidth
          retXmm :=
            if index = xmm0 then (xmmKind i.mnemonic).or (some .unknown) else state.retXmm }

/-- The argument in the base register of a `lea`. -/
def leaBase (i : Instruction) (state : PathState) : Option Origin :=
  if i.mnemonic = .lea then (regIndex i.memoryBase).bind state.origin else none

/-- The register with the argument that the instruction puts there. -/
def hold (i : Instruction) (origin : Option Origin) (state : PathState) : PathState :=
  match i.op0Register.bind regIndex, origin with
  | some dst, some origin => { state with holds := state.holds.set dst (some origin) }
  | _, _ => state

/-- The x87 stack. -/
def trackX87 (i : Instruction) (state : PathState) : PathState :=
  let name := (mnemonicName i.mnemonic).toList
  if ("Fld".toList.isPrefixOf name ∧ i.mnemonic ≠ .fldcw ∧ i.mnemonic ≠ .fldenv) ∨
      "Fild".toList.isPrefixOf name then
    { state with x87 := true }
  else if "Fstp".toList.isPrefixOf name ∨ "Fistp".toList.isPrefixOf name ∨
      "pp".toList.isSuffixOf name then
    { state with x87 := false }
  else state

/-- What a call leaves of the state. -/
def clobber (state : PathState) : PathState :=
  { state with
    written := state.written ||| volatile
    holds := Vector.ofFn fun index => if volatile.getLsbD index then none else state.holds[index]
    stack := Vector.ofFn fun index => if volatile.getLsbD index then none else state.stack[index]
    retWidth := 8
    retXmm := some .unknown }

def Instruction.calls (i : Instruction) : Bool := i.flow = .call || i.flow = .indirectCall

/-- The state behind an instruction, before a call clobbers its registers. -/
def trackWrites (i : Instruction) (state : PathState) : PathState :=
  let copied := copySource i state
  let lea := leaBase i state
  let before := state.stack
  let dst := dstStack i before
  let reloaded := popped i before state.spills
  let state := trackSpills i copied (trackStackPointer i state)
  let state := i.usedRegisters.foldl (writeRegister i) state
  let state := if i.zeroing then state else hold i (copied.or lea) state
  let state :=
    match dst with
    | some (dst, anchored) => { state with stack := state.stack.set dst anchored }
    | none => state
  trackX87 i (hold i reloaded state)

/-- The state behind an instruction. -/
def trackState (i : Instruction) (state : PathState) : PathState :=
  if i.calls then clobber (trackWrites i state) else trackWrites i state

/-! ### Evidence -/

/-- What is known about one argument across all paths. -/
structure Evidence where
  used : Bool
  width : ℕ
  pointer : Bool
  float : Bool
  double : Bool
  deriving DecidableEq

namespace Evidence

def default : Evidence := ⟨false, 0, false, false, false⟩

def merge (e other : Evidence) : Evidence :=
  if other.used = false then e
  else ⟨true, max e.width other.width, e.pointer || other.pointer, e.float || other.float,
    e.double || other.double⟩

def read (e : Evidence) (width : ℕ) : Evidence := { e with used := true, width := max e.width width }

def asPointer (e : Evidence) : Evidence := { e with pointer := true }

/-- The evidence of a read by an instruction of the kind. -/
def readAs (e : Evidence) (kind : Option ValueKind) : Evidence :=
  { e with
    used := true, float := e.float || kind = some .float, double := e.double || kind = some .double }

/-- The evidence of a memory read. -/
def readMemory (e : Evidence) (size : MemorySize) : Evidence :=
  { e with
    used := true, width := max e.width (min size.size 8), float := e.float || size = .float32,
    double := e.double || size = .float64 }

end Evidence

/-- What a callee reads of its arguments and returns. -/
structure CalleeUse where
  regs : Vector Evidence 4
  xmm : Vector Evidence 4
  stack : List (ℤ × Evidence)
  stackCleanup : ℕ
  returns : Option ValueKind
  returned : Bool
  complete : Bool
  deriving DecidableEq

structure Analysis where
  entry : ℕ
  depth : ℕ
  budget : ℕ
  callees : List (ℕ × Option CalleeUse)
  bounds : Option (ℕ × ℕ)
  regs : Vector Evidence 4
  xmm : Vector Evidence 4
  stack : List (ℤ × Evidence)
  returnsInt : Option ℕ
  returnsXmm : Option ValueKind
  returnsX87 : Bool
  rets : ℕ
  voidRets : ℕ
  stackCleanup : ℕ
  complete : Bool
  deriving DecidableEq

/-- The code, the memory and the answers of the system. -/
structure Env where
  /-- `decode_at`. -/
  decodeAt : ℕ → Option Instruction
  mem : ℕ → UInt8
  query : ℕ → Option Mbi
  readableBytesFrom : ℕ → ℕ
  /-- `RtlLookupFunctionEntry`: the image base, the begin and the end of the function. -/
  lookupFunctionEntry : ℕ → Option (ℕ × ℕ × ℕ)

def Env.functionBounds (env : Env) (entry : ℕ) : Option (ℕ × ℕ) :=
  match env.lookupFunctionEntry entry with
  | some (imageBase, first, last) =>
    if imageBase + first = entry then some (imageBase + first, imageBase + last) else none
  | none => none

/-- Where a call or jump goes: a direct target, or the pointer in an import slot. -/
def Env.branchTarget (env : Env) (i : Instruction) : Option ℕ :=
  match i.operands with
  | .nearBranch :: _ => some i.nearBranchTarget
  | .memory :: _ =>
    let slot :=
      match i.ipRelMemoryAddress with
      | some address => some address
      | none =>
        if i.memoryBase = Register.none ∧ i.memoryIndex = Register.none then
          some i.memoryDisplacement
        else none
    slot.bind fun slot =>
      if env.readableBytesFrom slot < 8 then none
      else
        let target := ByteMap.ofLeBytes (ByteMap.read env.mem slot 8)
        if target ≠ 0 then some target else none
  | _ => none

namespace Analysis

def new (env : Env) (entry : ℕ) : Analysis where
  entry := entry
  depth := 0
  budget := maxSteps
  callees := []
  bounds := env.functionBounds entry
  regs := Vector.replicate 4 .default
  xmm := Vector.replicate 4 .default
  stack := []
  returnsInt := none
  returnsXmm := none
  returnsX87 := false
  rets := 0
  voidRets := 0
  stackCleanup := 0
  complete := true

/-- The evidence of an origin, changed. -/
def evidence (a : Analysis) (origin : Origin) (f : Evidence → Evidence) : Analysis :=
  match origin with
  | .reg slot => { a with regs := a.regs.set slot (f a.regs[slot]) }
  | .stack offset =>
    match a.stack.findIdx? fun entry => entry.1 = offset with
    | some pos => { a with stack := a.stack.modify pos fun entry => (entry.1, f entry.2) }
    | none => { a with stack := a.stack ++ [(offset, f .default)] }

def xmmEvidence (a : Analysis) (slot : Fin 4) (f : Evidence → Evidence) : Analysis :=
  { a with xmm := a.xmm.set slot (f a.xmm[slot]) }

/-- Whether a jump to `target` stays inside the function. -/
def isInternal (a : Analysis) (target : ℕ) : Bool :=
  match a.bounds with
  | some (first, last) => first ≤ target && target < last
  | none => a.entry ≤ target && target < a.entry + maxFunctionBytes

def returnKind (a : Analysis) : Option ValueKind :=
  if a.returnsXmm.isSome then a.returnsXmm
  else
    match a.returnsInt with
    | some 1 => some .int8
    | some 2 => some .int16
    | some 4 => some .int32
    | some _ => some .int64
    | none => if a.returnsX87 then some .double else none

def calleeUseOf (a : Analysis) : CalleeUse :=
  ⟨a.regs, a.xmm, a.stack, a.stackCleanup, a.returnKind, 0 < a.rets, a.complete⟩

/-! ### One instruction -/

/-- The read of one register. -/
def readRegister (i : Instruction) (state : PathState) (a : Analysis) (used : UsedRegister) :
    Analysis :=
  if used.access.reads = false then a
  else
    match regIndex used.register with
    | none => a
    | some index =>
      match state.origin index with
      | none => a
      | some origin =>
        if isXmmIndex index then
          match origin with
          | .reg slot => a.xmmEvidence slot fun e => e.readAs (xmmKind i.mnemonic)
          | .stack _ => a
        else a.evidence origin fun e => e.read used.register.size

/-- The base of a memory operand: an argument used as an address is a pointer. -/
def readBase (state : PathState) (a : Analysis) (used : UsedMemory) : Analysis :=
  match (regIndex used.base).bind state.origin with
  | some origin => if used.access ≠ .noMemAccess then a.evidence origin .asPointer else a
  | none => a

/-- A memory operand: a read of a stack slot above the return address is an argument. -/
def readMemory (state : PathState) (a : Analysis) (used : UsedMemory) : Analysis :=
  let a := readBase state a used
  if used.access.reads = false then a
  else
    match stackSlot state used.base used.index used.displacement with
    | none => a
    | some slot =>
      if slot.1 = entrySlot.1 ∧ firstStackArg ≤ slot.2 ∧
          ¬ state.spills.any fun spill => spill.1 = slot then
        a.evidence (.stack slot.2) fun e => e.readMemory used.memorySize
      else a

/-- The reads of an instruction. -/
def readOperands (a : Analysis) (i : Instruction) (state : PathState) : Analysis :=
  let a :=
    if i.zeroing = false ∧ i.pushesRegister = false then
      i.usedRegisters.foldl (readRegister i state) a
    else a
  i.usedMemory.foldl (readMemory state) a

/-- An argument register that the callee reads and this function still holds. -/
def forwardReg (callee : CalleeUse) (state : PathState) (a : Analysis) (slot : Fin 4) : Analysis :=
  if callee.regs[slot].used = false then a
  else
    let reg := gpArgRegs[slot]
    let origin :=
      if state.written.getLsbD reg = false then some (.reg slot) else state.holds[reg]
    match origin with
    | some origin => a.evidence origin fun e => e.merge callee.regs[slot]
    | none => a

def forwardXmm (callee : CalleeUse) (state : PathState) (a : Analysis) (slot : Fin 4) : Analysis :=
  if callee.xmm[slot].used ∧ state.written.getLsbD (xmm0 + slot) = false then
    a.xmmEvidence slot fun e => e.merge callee.xmm[slot]
  else a

/-- A stack argument that the callee reads. -/
def forwardStack (a : Analysis) (entry : ℤ × Evidence) : Analysis :=
  if firstStackArg ≤ entry.1 then a.evidence (.stack entry.1) fun e => e.merge entry.2 else a

/-- The arguments that the callee reads where they are still this function's own. -/
def forward (a : Analysis) (callee : CalleeUse) (state : PathState) (tail : Bool) : Analysis :=
  let a := (List.finRange 4).foldl (forwardReg callee state) a
  let a := (List.finRange 4).foldl (forwardXmm callee state) a
  if tail ∧ state.stack[rsp] = some entrySlot then
    let a := callee.stack.foldl forwardStack a
    { a with stackCleanup := max a.stackCleanup callee.stackCleanup }
  else a

def onReturn (a : Analysis) (i : Instruction) (state : PathState) : Analysis :=
  let a := { a with rets := a.rets + 1 }
  let a :=
    match i.operands with
    | [.immediate value] => { a with stackCleanup := max a.stackCleanup (value % 2 ^ 32) }
    | _ => a
  if state.retXmm.isSome ∧ state.retWidth = 0 then
    let kind := (state.retXmm.filter fun kind => kind ≠ .unknown).or a.returnsXmm
    { a with returnsXmm := kind.or (some .unknown) }
  else if state.retWidth ≠ 0 then
    { a with returnsInt := some (max (a.returnsInt.getD 0) state.retWidth) }
  else if state.x87 then { a with returnsX87 := true }
  else { a with voidRets := a.voidRets + 1 }

section Callees

variable (env : Env) (runCallee : Analysis → Analysis)

/-- A callee, analysed one level deeper. -/
def calleeOf (depth target : ℕ) : Option CalleeUse :=
  let entry := Arch.x86_64.detourCodeFromPointer env.query env.mem target
  if entry ≠ 0 ∧ env.readableBytesFrom entry ≠ 0 then
    some (runCallee { new env entry with depth := depth + 1, budget := maxCalleeSteps }).calleeUseOf
  else none

/-- `callee_use`: each callee is analysed once. -/
def calleeUse (a : Analysis) (target : ℕ) : Option CalleeUse × Analysis :=
  if maxDepth ≤ a.depth then (none, a)
  else
    match a.callees.lookup target with
    | some cached => (cached, a)
    | none =>
      if maxCallees ≤ a.callees.length then (none, a)
      else
        let result := calleeOf env runCallee a.depth target
        (result, { a with callees := (target, result) :: a.callees })

/-- The callee of a call or of a tail jump. -/
def calleeAt (a : Analysis) (i : Instruction) : Option CalleeUse × Analysis :=
  match env.branchTarget i with
  | some target => a.calleeUse env runCallee target
  | none => (none, a)

/-- `step`: what an instruction reveals, and the state behind it. -/
def step (a : Analysis) (i : Instruction) (state : PathState) : Analysis × PathState :=
  let a := a.readOperands i state
  let a :=
    if i.calls then
      match a.calleeAt env runCallee i with
      | (some callee, a) => a.forward callee (trackWrites i state) false
      | (none, a) => a
    else a
  (a, trackState i state)

/-- `tail_call`: a jump out of the function continues in its target. -/
def tailCall (a : Analysis) (i : Instruction) (state : PathState) : Analysis :=
  match a.calleeAt env runCallee i with
  | (none, a) => { a with complete := false }
  | (some callee, a) =>
    let a := a.forward callee state true
    let a := { a with complete := a.complete && callee.complete }
    if callee.returned = false then a
    else
      let a := { a with rets := a.rets + 1 }
      match callee.returns with
      | some .float => { a with returnsXmm := some .float }
      | some .double => { a with returnsXmm := some .double }
      | some .unknown => a
      | some .int8 => { a with returnsInt := some (max (a.returnsInt.getD 0) 1) }
      | some .int16 => { a with returnsInt := some (max (a.returnsInt.getD 0) 2) }
      | some .int32 => { a with returnsInt := some (max (a.returnsInt.getD 0) 4) }
      | some _ => { a with returnsInt := some (max (a.returnsInt.getD 0) 8) }
      | none => { a with voidRets := a.voidRets + 1 }

/-! ### The walk -/

/-- An address on a path, with what is known there. -/
abbrev Node := ℕ × PathState

/-- What follows an instruction: the accumulated analysis, the branch put aside and the address the
path goes on at. -/
def follow (a : Analysis) (i : Instruction) (state : PathState) :
    Worklist.Visit Node Analysis :=
  match i.flow with
  | .return_ => ⟨a.onReturn i state, [], none⟩
  | .conditionalBranch =>
    if a.isInternal i.nearBranchTarget then
      ⟨a, [(i.nearBranchTarget, state)], some (i.nextIp, state)⟩
    else ⟨{ a with complete := false }, [], some (i.nextIp, state)⟩
  | .unconditionalBranch =>
    if i.operands.head? = some .nearBranch ∧ a.isInternal i.nearBranchTarget then
      ⟨a, [], some (i.nearBranchTarget, state)⟩
    else ⟨a.tailCall env runCallee i state, [], none⟩
  | .indirectBranch => ⟨a.tailCall env runCallee i state, [], none⟩
  | .exception | .interrupt => ⟨a, [], none⟩
  | .next | .call | .indirectCall | .xbeginXabortXend => ⟨a, [], some (i.nextIp, state)⟩

/-- The body of the loop of `run`. -/
def visit (a : Analysis) (node : Node) : Worklist.Visit Node Analysis :=
  match env.decodeAt node.1 with
  | none => ⟨{ a with complete := false }, [], none⟩
  | some i =>
    let stepped := a.step env runCallee i node.2
    stepped.1.follow env runCallee i stepped.2

def giveUp (a : Analysis) : Analysis := { a with complete := false }

/-- `run`, with the runs of the callees given. -/
def runWith (a : Analysis) : Worklist.Search Node Analysis :=
  Worklist.explore (visit env runCallee) giveUp a.budget
    (Worklist.Search.start a (a.entry, PathState.entry))

end Callees

/-- `run` with so many levels of callees. -/
def runLevels (env : Env) : ℕ → Analysis → Worklist.Search Node Analysis
  | 0, a => a.runWith env id
  | n + 1, a => a.runWith env fun callee => (runLevels env n callee).acc

/-- `run`: at the greatest depth no callee is analysed. -/
def run (env : Env) (a : Analysis) : Worklist.Search Node Analysis :=
  a.runLevels env (maxDepth - a.depth)

/-! ### The argument registers -/

/-- If the register is an argument register, its argument is recorded as used. -/
structure Records (a : Analysis) (index : Fin 32) : Prop where
  regs : ∀ slot : Fin 4, gpArgRegs[slot] = index → a.regs[slot].used = true
  xmm : ∀ slot : Fin 4, xmm0.val + slot.val = index.val → a.xmm[slot].used = true

section ArgumentRegisters

variable {i : Instruction} {state : PathState} {a : Analysis}

theorem argSlot_gp (slot : Fin 4) : argSlot gpArgRegs[slot] = some slot := by
  revert slot
  decide

theorem argSlot_xmm (slot : Fin 4) (index : Fin 32) (same : xmm0.val + slot.val = index.val) :
    argSlot index = some slot ∧ isXmmIndex index = true := by
  revert slot index
  decide

theorem gp_not_xmm (slot : Fin 4) : isXmmIndex gpArgRegs[slot] = false := by
  revert slot
  decide

theorem origin_of_clear {index : Fin 32} (clear : state.written.getLsbD index = false) :
    state.origin index = (argSlot index).map .reg := if_pos clear

/-- The read of a general argument register that is not written. -/
theorem readRegister_gp {used : UsedRegister} {slot : Fin 4} (reads : used.access.reads = true)
    (named : regIndex used.register = some gpArgRegs[slot])
    (clear : state.written.getLsbD gpArgRegs[slot] = false) :
    readRegister i state a used = a.evidence (.reg slot) fun e => e.read used.register.size := by
  have origin : state.origin gpArgRegs[slot] = some (.reg slot) := by
    rw [origin_of_clear clear, argSlot_gp, Option.map_some]
  unfold readRegister
  simp only [reads, named, origin, gp_not_xmm, Bool.true_eq_false, Bool.false_eq_true, if_false]

/-- The read of a vector argument register that is not written. -/
theorem readRegister_xmm {used : UsedRegister} {slot : Fin 4} {index : Fin 32}
    (reads : used.access.reads = true) (named : regIndex used.register = some index)
    (same : xmm0.val + slot.val = index.val) (clear : state.written.getLsbD index = false) :
    readRegister i state a used =
      a.xmmEvidence slot fun e => e.readAs (xmmKind i.mnemonic) := by
  obtain ⟨own, vector⟩ := argSlot_xmm slot index same
  have origin : state.origin index = some (.reg slot) := by
    rw [origin_of_clear clear, own, Option.map_some]
  unfold readRegister
  simp only [reads, named, origin, vector, Bool.true_eq_false, if_false, if_true]

end ArgumentRegisters

end Analysis

end Infer

end NeoHook
