import NeoHook.Lib.X64
import NeoHook.UnwindCodes

/-!
# The stub of a mid-function hook

`build_stub` of `midhook.rs` for x86_64.  The patched function jumps to the stub, which saves the
registers in a `HookContext` on the stack, calls the handler with a pointer to it, restores the
registers from it and jumps on.  The bytes are run by the processor of `Lib/X64`; the handler is any
function that keeps to the calling convention.

Between the context and the stack of the hooked function stands the hooked address, where a called
function would have its return address; the unwind codes describe the stack below it.
-/

namespace NeoHook

open ByteMap WordMap X64

namespace MidHook

/-! ### `HookContext` -/

structure Xmm where
  low : BitVec 64
  high : BitVec 64
  deriving DecidableEq

/-- The register as one value. -/
def Xmm.bits (x : Xmm) : BitVec 128 := x.high ++ x.low

/-- The state at the hook site, as the handler sees it. -/
structure HookContext where
  rflags : BitVec 64
  rax : BitVec 64
  rcx : BitVec 64
  rdx : BitVec 64
  rbx : BitVec 64
  rbp : BitVec 64
  rsi : BitVec 64
  rdi : BitVec 64
  r8 : BitVec 64
  r9 : BitVec 64
  r10 : BitVec 64
  r11 : BitVec 64
  r12 : BitVec 64
  r13 : BitVec 64
  r14 : BitVec 64
  r15 : BitVec 64
  mxcsr : BitVec 32
  reserved : BitVec 32
  xmm : Fin 16 → Xmm
  redirectRip : BitVec 64

/-- The registers of the context, in the order of its fields; `rsp` is none of them. -/
def savedRegs : List Reg :=
  [.rax, .rcx, .rdx, .rbx, .rbp, .rsi, .rdi, .r8, .r9, .r10, .r11, .r12, .r13, .r14, .r15]

/-- The field of a register. -/
def HookContext.register (x : HookContext) : Reg → BitVec 64
  | .rax => x.rax
  | .rcx => x.rcx
  | .rdx => x.rdx
  | .rbx => x.rbx
  | .rsp => 0
  | .rbp => x.rbp
  | .rsi => x.rsi
  | .rdi => x.rdi
  | .r8 => x.r8
  | .r9 => x.r9
  | .r10 => x.r10
  | .r11 => x.r11
  | .r12 => x.r12
  | .r13 => x.r13
  | .r14 => x.r14
  | .r15 => x.r15

/-- The layout of the context in memory. -/
def HookContext.bytes (x : HookContext) : List UInt8 :=
  leBytes 8 x.rflags.toNat ++
    ((savedRegs.flatMap fun r => leBytes 8 (x.register r).toNat) ++
      (leBytes 4 x.mxcsr.toNat ++ (leBytes 4 x.reserved.toNat ++
        (((List.finRange 16).flatMap fun n =>
          leBytes 8 (x.xmm n).low.toNat ++ leBytes 8 (x.xmm n).high.toNat) ++
          leBytes 8 x.redirectRip.toNat))))

/-! ### `build_stub` -/

/-- An instruction of the stub, with the unwind code recorded behind it. -/
structure Piece where
  bytes : List UInt8
  unwind : Option ℕ

def plain (bytes : List UInt8) : Piece := ⟨bytes, none⟩

def uwopPushNonvol : ℕ := 0

def uwopAllocSmall : ℕ := 2

def uwopSetFpreg : ℕ := 3

/-- The unwind code for an allocation. -/
def alloc (bytes : ℕ) : ℕ := uwopAllocSmall ||| ((bytes / 8 - 1) <<< 4)

/-- `lea rsp, [rsp - 16]`, `movups [rsp], xmmN`. -/
def saveXmm (n : ℕ) : List Piece :=
  [⟨[0x48, 0x8D, 0x64, 0x24, 0xF0], some (alloc 16)⟩,
    plain ((if 8 ≤ n then [(0x44 : UInt8)] else []) ++
      [0x0F, 0x11, UInt8.ofNat (0x04 ||| ((n &&& 7) <<< 3)), 0x24])]

/-- `movups xmmN, [rsp]`, `lea rsp, [rsp + 16]`. -/
def restoreXmm (n : ℕ) : List Piece :=
  [plain ((if 8 ≤ n then [(0x44 : UInt8)] else []) ++
      [0x0F, 0x10, UInt8.ofNat (0x04 ||| ((n &&& 7) <<< 3)), 0x24]),
    plain [0x48, 0x8D, 0x64, 0x24, 0x10]]

/-- `push` of the register with the number. -/
def pushReg (reg : ℕ) : Piece :=
  ⟨(if 8 ≤ reg then [(0x41 : UInt8)] else []) ++ [UInt8.ofNat (0x50 ||| (reg &&& 7))],
    some (uwopPushNonvol ||| (reg <<< 4))⟩

/-- `ymm_upper`: the upper half of `ymmN` is written to `[rsp + disp]` or read from there. -/
def ymmUpper (n disp : ℕ) (insert : Bool) : Piece :=
  plain ([0xC4, if n < 8 then 0xE3 else 0x63,
    if insert then UInt8.ofNat ((((255 - n) &&& 0xF) <<< 3) ||| 0x05) else 0x7D,
    if insert then 0x18 else 0x19, UInt8.ofNat (0x84 ||| ((n &&& 7) <<< 3)), 0x24] ++
    leBytes 4 disp ++ [0x01])

/-- The code up to the frame pointer. -/
def prologue (site : BitVec 64) : List Piece :=
  [plain [0x41, 0x53],
    plain (0x49 :: 0xBB :: leBytes 8 site.toNat),
    plain [0x4C, 0x87, 0x1C, 0x24],
    ⟨[0x48, 0x8D, 0x64, 0x24, 0xF8], some (alloc 8)⟩,
    plain [0x48, 0xC7, 0x04, 0x24, 0x00, 0x00, 0x00, 0x00]] ++
  ((List.finRange 16).reverse.flatMap fun n => saveXmm n.val) ++
  [⟨[0x48, 0x8D, 0x64, 0x24, 0xF8], some (alloc 8)⟩,
    plain [0x0F, 0xAE, 0x1C, 0x24]] ++
  [15, 14, 13, 12, 11, 10, 9, 8, 7, 6, 5, 3, 2, 1, 0].map pushReg ++
  [⟨[0x9C], some (alloc 8)⟩,
    plain [0xFC],
    plain [0x48, 0x89, 0xE1],
    ⟨[0x48, 0x89, 0xE5], some uwopSetFpreg⟩]

/-- The code in front of the call of the handler. -/
def beforeCall (handler : BitVec 64) (avx : Bool) : List Piece :=
  [plain [0x48, 0x83, 0xE4, 0xF0]] ++
  (if avx then plain [0x48, 0x81, 0xEC, 0x00, 0x01, 0x00, 0x00] ::
    (List.finRange 16).map fun n => ymmUpper n.val (n.val * 16) false
  else []) ++
  [plain [0x48, 0x83, 0xEC, 0x20],
    plain (0x48 :: 0xB8 :: leBytes 8 handler.toNat)]

/-- The code behind the call, up to where the frame is taken apart. -/
def afterCall (avx : Bool) : List Piece :=
  (if avx then (List.finRange 16).map fun n => ymmUpper n.val (32 + n.val * 16) true else []) ++
  [plain [0x48, 0x89, 0xEC]]

/-- `REDIRECT_OFF`. -/
def redirectOff : ℕ := 392

/-- The choice of where to go on. -/
def chooseTarget (gateway : BitVec 64) : List Piece :=
  [plain ([0x48, 0x8B, 0x85] ++ leBytes 4 redirectOff),
    plain (0x48 :: 0xB9 :: leBytes 8 gateway.toNat),
    plain [0x48, 0x85, 0xC0],
    plain [0x48, 0x0F, 0x44, 0xC1],
    plain ([0x48, 0x89, 0x85] ++ leBytes 4 redirectOff)]

/-- The restoring of the registers. -/
def restore : List Piece :=
  [[0x9D], [0x58], [0x59], [0x5A], [0x5B], [0x5D], [0x5E], [0x5F], [0x41, 0x58], [0x41, 0x59],
    [0x41, 0x5A], [0x41, 0x5B], [0x41, 0x5C], [0x41, 0x5D], [0x41, 0x5E], [0x41, 0x5F],
    [0x0F, 0xAE, 0x14, 0x24], [0x48, 0x8D, 0x64, 0x24, 0x08]].map plain ++
  ((List.finRange 16).flatMap fun n => restoreXmm n.val) ++
  [plain [0x48, 0x8D, 0x64, 0x24, 0x10]]

/-- Unwind data: the codes in the order the unwinder reads them. -/
structure StubUnwind where
  slots : List UInt16
  prologSize : UInt8
  frame : UInt8
  stop : ℕ
  deriving DecidableEq

structure Stub where
  bytes : List UInt8
  unwind : StubUnwind
  deriving DecidableEq

def bytesOf (pieces : List Piece) : List UInt8 := (pieces.map Piece.bytes).flatten

/-- The recorded codes, each with the offset behind its instruction. -/
def recorded (offset : ℕ) : List Piece → List (ℕ × ℕ)
  | [] => []
  | p :: rest =>
    match p.unwind with
    | none => recorded (offset + p.bytes.length) rest
    | some op => (offset + p.bytes.length, op) :: recorded (offset + p.bytes.length) rest

def buildStub (site handler gateway : BitVec 64) (avx : Bool) : Stub :=
  let saving := prologue site
  let calling := beforeCall handler avx ++ [plain [0xFF, 0xD0]] ++ afterCall avx
  ⟨bytesOf saving ++ bytesOf calling ++ bytesOf (chooseTarget gateway) ++ bytesOf restore ++
      [0xFF, 0x64, 0x24, 0xF0],
    ⟨(recorded 0 saving).reverse.map fun code => UInt16.ofNat ((code.2 <<< 8) ||| code.1),
      UInt8.ofNat (bytesOf saving).length, 5, (bytesOf saving ++ bytesOf calling).length⟩⟩

/-! ### The instructions of the stub -/

def top : Mem := ⟨.rsp, 0⟩

def saveXmmCode (n : Fin 16) : List Instr := [.lea .rsp ⟨.rsp, -16⟩, .movupsStore top n]

def restoreXmmCode (n : Fin 16) : List Instr := [.movupsLoad n top, .lea .rsp ⟨.rsp, 16⟩]

def siteCode (site : BitVec 64) : List Instr :=
  [.push .r11, .movImm .r11 site, .xchg top .r11]

def prologueCode (site : BitVec 64) : List Instr :=
  siteCode site ++
  ([.lea .rsp ⟨.rsp, -8⟩, .movMemImm top 0] ++
  (((List.finRange 16).reverse.flatMap saveXmmCode) ++
  ([.lea .rsp ⟨.rsp, -8⟩, .stmxcsr top] ++
  (savedRegs.reverse.map .push ++
  [.pushfq, .cld, .mov .rcx .rsp, .mov .rbp .rsp]))))

def spillCode : List Instr :=
  .subImm .rsp 256 :: (List.finRange 16).map fun n =>
    .vextractUpper ⟨.rsp, BitVec.ofNat 64 (n.val * 16)⟩ n

def beforeCallCode (handler : BitVec 64) (avx : Bool) : List Instr :=
  [.andImm .rsp (-16)] ++ ((if avx then spillCode else []) ++
    [.subImm .rsp 32, .movImm .rax handler])

def reloadCode : List Instr :=
  (List.finRange 16).map fun n => .vinsertUpper n n ⟨.rsp, BitVec.ofNat 64 (32 + n.val * 16)⟩

def afterCallCode (avx : Bool) : List Instr :=
  (if avx then reloadCode else []) ++ [.mov .rsp .rbp]

def redirectSlot : Mem := ⟨.rbp, 392⟩

def chooseTargetCode (gateway : BitVec 64) : List Instr :=
  [.movLoad .rax redirectSlot, .movImm .rcx gateway, .test .rax .rax, .cmovz .rax .rcx,
    .movStore redirectSlot .rax]

def restoreCode : List Instr :=
  .popfq :: (savedRegs.map .pop ++ ([.ldmxcsr top, .lea .rsp ⟨.rsp, 8⟩] ++
    ((List.finRange 16).flatMap restoreXmmCode ++ [.lea .rsp ⟨.rsp, 16⟩])))

/-- The pieces are the instructions. -/
def Codes (pieces : List Piece) (is : List Instr) : Prop :=
  List.Forall₂ Encodes (pieces.map Piece.bytes) is

theorem Codes.nil : Codes [] [] := List.Forall₂.nil

theorem Codes.cons {p : Piece} {ps : List Piece} {i : Instr} {is : List Instr}
    (first : Encodes p.bytes i) (others : Codes ps is) : Codes (p :: ps) (i :: is) :=
  List.Forall₂.cons first others

theorem Codes.append {ps qs : List Piece} {is js : List Instr} (first : Codes ps is)
    (second : Codes qs js) : Codes (ps ++ qs) (is ++ js) := by
  unfold Codes at *
  rw [List.map_append]
  exact List.rel_append first second

theorem Codes.flatMap {α : Type} {l : List α} {f : α → List Piece} {g : α → List Instr}
    (each : ∀ a ∈ l, Codes (f a) (g a)) : Codes (l.flatMap f) (l.flatMap g) := by
  induction l with
  | nil => exact .nil
  | cons a rest ih =>
    obtain ⟨here, later⟩ := List.forall_mem_cons.mp each
    exact here.append (ih later)

theorem Codes.map {α : Type} {l : List α} {f : α → Piece} {g : α → Instr}
    (each : ∀ a ∈ l, Encodes (f a).bytes (g a)) : Codes (l.map f) (l.map g) := by
  induction l with
  | nil => exact .nil
  | cons a rest ih =>
    obtain ⟨here, later⟩ := List.forall_mem_cons.mp each
    exact .cons here (ih later)

theorem saveXmm_codes (n : Fin 16) : Codes (saveXmm n.val) (saveXmmCode n) := by
  refine .cons ⟨by decide, fun _ => rfl⟩ (.cons ?_ .nil)
  fin_cases n <;> exact ⟨by decide, fun _ => rfl⟩

theorem restoreXmm_codes (n : Fin 16) : Codes (restoreXmm n.val) (restoreXmmCode n) := by
  refine .cons ?_ (.cons ⟨by decide, fun _ => rfl⟩ .nil)
  fin_cases n <;> exact ⟨by decide, fun _ => rfl⟩

theorem ymmUpper_spill (n : Fin 16) :
    Encodes (ymmUpper n.val (n.val * 16) false).bytes
      (.vextractUpper ⟨.rsp, BitVec.ofNat 64 (n.val * 16)⟩ n) := by
  fin_cases n <;> exact ⟨by decide, fun _ => rfl⟩

theorem ymmUpper_reload (n : Fin 16) :
    Encodes (ymmUpper n.val (32 + n.val * 16) true).bytes
      (.vinsertUpper n n ⟨.rsp, BitVec.ofNat 64 (32 + n.val * 16)⟩) := by
  fin_cases n <;> exact ⟨by decide, fun _ => rfl⟩

theorem pushes_codes :
    Codes ([15, 14, 13, 12, 11, 10, 9, 8, 7, 6, 5, 3, 2, 1, 0].map pushReg)
      (savedRegs.reverse.map .push) := by
  simp only [List.map_cons, List.map_nil, savedRegs, List.reverse_cons, List.reverse_nil,
    List.nil_append, List.cons_append]
  repeat' first
    | exact Codes.nil
    | refine Codes.cons ⟨by decide, fun _ => rfl⟩ ?_

theorem prologue_codes (site : BitVec 64) : Codes (prologue site) (prologueCode site) := by
  unfold prologue prologueCode siteCode
  simp only [List.append_assoc, List.cons_append, List.nil_append]
  refine .cons ⟨by decide, fun _ => rfl⟩ (.cons (encodes_movImm site rfl (by decide) rfl) ?_)
  refine .cons ⟨by decide, fun _ => rfl⟩ (.cons ⟨by decide, fun _ => rfl⟩ ?_)
  refine .cons ⟨by decide, fun _ => rfl⟩ (Codes.append (Codes.flatMap fun n _ => saveXmm_codes n) ?_)
  refine .cons ⟨by decide, fun _ => rfl⟩ (.cons ⟨by decide, fun _ => rfl⟩ (pushes_codes.append ?_))
  refine .cons ⟨by decide, fun _ => rfl⟩ (.cons ⟨by decide, fun _ => rfl⟩ ?_)
  exact .cons ⟨by decide, fun _ => rfl⟩ (.cons ⟨by decide, fun _ => rfl⟩ .nil)

theorem beforeCall_codes (handler : BitVec 64) (avx : Bool) :
    Codes (beforeCall handler avx) (beforeCallCode handler avx) := by
  unfold beforeCall beforeCallCode
  rw [List.append_assoc]
  refine Codes.append (.cons ⟨by decide, fun _ => rfl⟩ .nil) (Codes.append ?_ ?_)
  · cases avx
    · exact Codes.nil
    · simp only [if_true, spillCode]
      exact .cons ⟨by decide, fun _ => rfl⟩ (Codes.map fun n _ => ymmUpper_spill n)
  · exact .cons ⟨by decide, fun _ => rfl⟩
      (.cons (encodes_movImm handler rfl (by decide) rfl) .nil)

theorem afterCall_codes (avx : Bool) : Codes (afterCall avx) (afterCallCode avx) := by
  unfold afterCall afterCallCode
  refine Codes.append ?_ (.cons ⟨by decide, fun _ => rfl⟩ .nil)
  cases avx
  · exact Codes.nil
  · exact Codes.map fun n _ => ymmUpper_reload n

theorem chooseTarget_codes (gateway : BitVec 64) :
    Codes (chooseTarget gateway) (chooseTargetCode gateway) := by
  refine .cons ⟨by decide, fun _ => rfl⟩ (.cons (encodes_movImm gateway rfl (by decide) rfl) ?_)
  refine .cons ⟨by decide, fun _ => rfl⟩ (.cons ⟨by decide, fun _ => rfl⟩ ?_)
  exact .cons ⟨by decide, fun _ => rfl⟩ .nil

theorem restore_codes : Codes restore restoreCode := by
  have tail : Codes (((List.finRange 16).flatMap fun n => restoreXmm n.val) ++
      [plain [0x48, 0x8D, 0x64, 0x24, 0x10]])
      ((List.finRange 16).flatMap restoreXmmCode ++ [.lea .rsp ⟨.rsp, 16⟩]) :=
    Codes.append (Codes.flatMap fun n _ => restoreXmm_codes n)
      (.cons ⟨by decide, fun _ => rfl⟩ .nil)
  unfold restore restoreCode
  simp only [List.map_cons, List.map_nil, savedRegs, List.cons_append, List.nil_append]
  repeat' first
    | exact tail
    | refine Codes.cons ⟨by decide, fun _ => rfl⟩ ?_

end MidHook

end NeoHook
