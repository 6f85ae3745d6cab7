import NeoHook.Jump
import NeoHook.Quiescence

/-!
# The jump encoders and decoders on both architectures

`Jump.lean` has the encoders and decoders of an x86_64 build.  This file adds those of an x86
build, the check a decoder makes before it reads (`is_readable_range` of `code.rs`) and the stub
of an export hook, and shows that each decoder reads back what each encoder wrote.

Word arithmetic wraps, as in a release build.
-/

namespace NeoHook

open ByteMap

/-- The `target_arch` of a build. -/
inductive Arch where
  | x86 | x86_64
  deriving DecidableEq, Repr

/-- The width of an address. -/
def Arch.bits : Arch → ℕ
  | x86 => 32
  | x86_64 => 64

/-! ### The encoders and decoders of an x86 build -/

namespace X86

/-- The address `a + off`, wrapped to 32 bits. -/
def offsetPtr (a : ℕ) (off : ℤ) : ℕ := (((a : ℤ) + off) % 2 ^ 32).toNat

/-- The displacement of a `jmp rel32` at `target` to `dest`, as a wrapped 32-bit difference. -/
def jumpOffset (target dest : ℕ) : ℤ := ((dest : ℤ) - target - 5).bmod (2 ^ 32)

/-- The jump an inline hook writes over its target.  There is no absolute jump on x86. -/
def inlinePatchBytes (target detour : ℕ) (jumpType : JumpType) (stolenLen : ℕ) :
    Except DetourError (List UInt8) :=
  match jumpType with
  | .relative5 =>
    if stolenLen < 5 then .error .invalidParameter
    else .ok (0xE9 :: leBytes 4 (jumpOffset target detour % 2 ^ 32).toNat ++
      List.replicate (stolenLen - 5) 0x90)
  | .absolute14 => .error .invalidParameter

/-- `E9` and the displacement from `src`. -/
def managedGatewayStub (src dst : ℕ) : List UInt8 :=
  0xE9 :: leBytes 4 (jumpOffset src dst % 2 ^ 32).toNat

def writeManagedGatewayStub (m : ℕ → UInt8) (src dst : ℕ) : ℕ → UInt8 :=
  write m src (managedGatewayStub src dst)

def readManagedGatewayTarget (m : ℕ → UInt8) (src : ℕ) : Option ℕ :=
  if read m src 1 = [0xE9] then
    some (offsetPtr src (5 + signed 32 (ofLeBytes (read m (src + 1) 4))))
  else none

section Follow

variable (readable : ℕ → ℕ → Bool) (m : ℕ → UInt8)

def resolveFfJump (src : ℕ) : Option ℕ := do
  let modrm ← readValue readable m (src + 1) 1
  if modrm = 0x25 then
    let slot ← readValue readable m (src + 2) 4
    readValue readable m slot 4
  else none

def detourCodeFromPointerOnce (src : ℕ) : Option ℕ := do
  let op0 ← readValue readable m src 1
  if op0 = 0xE9 then
    let rel ← readValue readable m (src + 1) 4
    return offsetPtr src (5 + signed 32 rel)
  else if op0 = 0xEB then
    let rel ← readValue readable m (src + 1) 1
    return offsetPtr src (2 + signed 8 rel)
  else if op0 = 0xFF then resolveFfJump readable m src
  else if op0 = 0xB8 then
    let tail ← readValue readable m (src + 5) 2
    if tail = 0xE0FF then readValue readable m (src + 1) 4 else none
  else if op0 = 0x68 then
    let tail ← readValue readable m (src + 5) 1
    if tail = 0xC3 then readValue readable m (src + 1) 4 else none
  else none

end Follow

end X86

/-! ### Both builds -/

namespace Arch

variable (arch : Arch)

/-- The jump type `attach` picks. -/
def selectJump (target detour : ℕ) : JumpType :=
  match arch with
  | x86 => .relative5
  | x86_64 => NeoHook.selectJump target detour

def inlinePatchBytes (target detour : ℕ) (jumpType : JumpType) (stolenLen : ℕ) :
    Except DetourError (List UInt8) :=
  match arch with
  | x86 => X86.inlinePatchBytes target detour jumpType stolenLen
  | x86_64 => NeoHook.inlinePatchBytes target detour jumpType stolenLen

def managedGatewayStub (src dst : ℕ) : List UInt8 :=
  match arch with
  | x86 => X86.managedGatewayStub src dst
  | x86_64 => NeoHook.managedGatewayStub dst

def writeManagedGatewayStub (m : ℕ → UInt8) (src dst : ℕ) : ℕ → UInt8 :=
  match arch with
  | x86 => X86.writeManagedGatewayStub m src dst
  | x86_64 => NeoHook.writeManagedGatewayStub m src dst

def readManagedGatewayTarget (m : ℕ → UInt8) (src : ℕ) : Option ℕ :=
  match arch with
  | x86 => X86.readManagedGatewayTarget m src
  | x86_64 => NeoHook.readManagedGatewayTarget m src

def detourCodeFromPointerOnce (readable : ℕ → ℕ → Bool) (m : ℕ → UInt8) (src : ℕ) : Option ℕ :=
  match arch with
  | x86 => X86.detourCodeFromPointerOnce readable m src
  | x86_64 => NeoHook.detourCodeFromPointerOnce readable m src

end Arch

/-- The thunk of an export hook on x86_64: `jmp [rip+0]` and the absolute destination. -/
def writeAbsJumpStub (m : ℕ → UInt8) (src dst : ℕ) : ℕ → UInt8 :=
  write m src ([0xFF, 0x25, 0, 0, 0, 0] ++ leBytes 8 dst)

/-- `is_readable_range`: one committed, accessible region holds the whole range. -/
def isReadableRange (arch : Arch) (query : ℕ → Option Mbi) (ptr len : ℕ) : Bool :=
  if ptr = 0 ∨ len = 0 then false
  else match query ptr with
    | none => false
    | some mbi =>
      mbi.readable && decide (mbi.baseAddress + mbi.regionSize < 2 ^ arch.bits) &&
        decide (ptr + len < 2 ^ arch.bits) && decide (mbi.baseAddress ≤ ptr) &&
        decide (ptr + len ≤ mbi.baseAddress + mbi.regionSize)

/-- The `n` bytes at `a` are readable process memory: at each of them `VirtualQuery` reports a
committed, accessible region below the end of the address space that reaches to the last one. -/
def Mapped (arch : Arch) (query : ℕ → Option Mbi) (a n : ℕ) : Prop :=
  0 < a ∧ ∀ x, InRange a n x → ∃ mbi, query x = some mbi ∧ mbi.readable = true ∧
    mbi.baseAddress ≤ x ∧ a + n ≤ mbi.baseAddress + mbi.regionSize ∧
    mbi.baseAddress + mbi.regionSize < 2 ^ arch.bits

theorem Mapped.isReadableRange {arch : Arch} {query : ℕ → Option Mbi} {a n : ℕ}
    (mapped : Mapped arch query a n) {x k : ℕ} (low : a ≤ x) (high : x + k ≤ a + n)
    (some_bytes : 0 < k) : NeoHook.isReadableRange arch query x k = true := by
  obtain ⟨mbi, found, read, base, reach, top⟩ := mapped.2 x ⟨low, by omega⟩
  have start := mapped.1
  unfold NeoHook.isReadableRange
  rw [if_neg (by omega), found]
  simp only [read, Bool.true_and, Bool.and_eq_true, decide_eq_true_eq]
  omega

/-! ### Displacements -/

/-- The low half of a number, read as a signed one. -/
theorem signed_emod (z : ℤ) : signed 32 (z % 2 ^ 32).toNat = z.bmod (2 ^ 32) := by
  have low := Int.emod_nonneg z (show (2 ^ 32 : ℤ) ≠ 0 by decide)
  have high := Int.emod_lt_of_pos z (show (0 : ℤ) < 2 ^ 32 by decide)
  simp only [signed, Int.bmod_def]
  split_ifs <;> omega

/-- The displacement an encoder stores, as a decoder reads it. -/
theorem signed_ofLeBytes (z : ℤ) :
    signed 32 (ofLeBytes (leBytes 4 (z % 2 ^ 32).toNat)) = z.bmod (2 ^ 32) := by
  have low := Int.emod_nonneg z (show (2 ^ 32 : ℤ) ≠ 0 by decide)
  have high := Int.emod_lt_of_pos z (show (0 : ℤ) < 2 ^ 32 by decide)
  rw [ofLeBytes_leBytes, Nat.mod_eq_of_lt (by omega), signed_emod]

theorem offsetPtr_jumpOffset {src dst : ℕ} (h : dst < 2 ^ 64) :
    offsetPtr src (5 + jumpOffset src dst) = dst := by
  simp only [offsetPtr, jumpOffset, Int.bmod_def]
  split_ifs <;> omega

/-- A displacement that fits in an `i32` is the one a decoder reads. -/
theorem offsetPtr_of_relative5 {src dst : ℕ} (h : dst < 2 ^ 64)
    (near : selectJump src dst = .relative5) :
    offsetPtr src (5 + signed 32 (ofLeBytes (leBytes 4 (jumpOffset src dst % 2 ^ 32).toNat))) =
      dst := by
  unfold selectJump at near
  split_ifs at near with fits
  rw [signed_ofLeBytes, Int.bmod_eq_of_le (by omega) (by omega), offsetPtr_jumpOffset h]

theorem X86.offsetPtr_of_relative {src dst : ℕ} (h : dst < 2 ^ 32) :
    X86.offsetPtr src
      (5 + signed 32 (ofLeBytes (leBytes 4 (X86.jumpOffset src dst % 2 ^ 32).toNat))) = dst := by
  rw [signed_ofLeBytes]
  simp only [X86.offsetPtr, X86.jumpOffset, Int.bmod_def]
  split_ifs <;> omega

/-! ### Decoding each shape of jump -/

section Decode

variable {readable : ℕ → ℕ → Bool} {m : ℕ → UInt8} {src : ℕ}

theorem readValue_eq {a n : ℕ} (ok : readable a n = true) :
    readValue readable m a n = some (ofLeBytes (read m a n)) := if_pos ok

/-- Every read inside the `n` bytes at `a` passes the decoder's check. -/
def Reads (readable : ℕ → ℕ → Bool) (a n : ℕ) : Prop :=
  ∀ i k, 0 < k → i + k ≤ n → readable (a + i) k = true

theorem once_relative {rel : List UInt8} (reads : Reads readable src 5)
    (opcode : read m src 1 = [0xE9]) (operand : read m (src + 1) 4 = rel) :
    detourCodeFromPointerOnce readable m src =
      some (offsetPtr src (5 + signed 32 (ofLeBytes rel))) := by
  have first : readable src 1 = true := reads 0 1 (by omega) (by omega)
  unfold detourCodeFromPointerOnce
  rw [readValue_eq first, opcode, readValue_eq (reads 1 4 (by omega) (by omega)), operand]
  rfl

theorem X86.once_relative {rel : List UInt8} (reads : Reads readable src 5)
    (opcode : read m src 1 = [0xE9]) (operand : read m (src + 1) 4 = rel) :
    X86.detourCodeFromPointerOnce readable m src =
      some (X86.offsetPtr src (5 + signed 32 (ofLeBytes rel))) := by
  have first : readable src 1 = true := reads 0 1 (by omega) (by omega)
  unfold X86.detourCodeFromPointerOnce
  rw [readValue_eq first, opcode, readValue_eq (reads 1 4 (by omega) (by omega)), operand]
  rfl

/-- `jmp [rip+0]` goes to the address stored behind it. -/
theorem once_absolute {dst : List UInt8} (reads : Reads readable src 14) (room : src + 14 ≤ 2 ^ 64)
    (opcode : read m src 1 = [0xFF]) (modrm : read m (src + 1) 1 = [0x25])
    (disp : read m (src + 2) 4 = [0, 0, 0, 0]) (operand : read m (src + 6) 8 = dst) :
    detourCodeFromPointerOnce readable m src = some (ofLeBytes dst) := by
  have first : readable src 1 = true := reads 0 1 (by omega) (by omega)
  have slot : offsetPtr (src + 2 + 4) 0 = src + 6 := by
    simp only [offsetPtr]
    omega
  have rip : resolveRipIndirectJump readable m src 2 = some (ofLeBytes dst) := by
    unfold resolveRipIndirectJump
    rw [readValue_eq (reads 2 4 (by omega) (by omega)), disp]
    show readValue readable m (offsetPtr (src + 2 + 4) 0) 8 = _
    rw [slot, readValue_eq (reads 6 8 (by omega) (by omega)), operand]
  have ff : resolveFfJump readable m src = some (ofLeBytes dst) := by
    unfold resolveFfJump
    rw [readValue_eq (reads 1 1 (by omega) (by omega)), modrm]
    exact rip
  unfold detourCodeFromPointerOnce
  rw [readValue_eq first, opcode]
  exact ff

end Decode

/-! ### What is written reads back -/

theorem Mapped.reads {arch : Arch} {query : ℕ → Option Mbi} {a n : ℕ}
    (mapped : Mapped arch query a n) {k : ℕ} (le : k ≤ n) :
    Reads (NeoHook.isReadableRange arch query) a k := by
  intro i j positive fits
  exact mapped.isReadableRange (by omega) (by omega) positive

theorem Mapped.room {arch : Arch} {query : ℕ → Option Mbi} {a n : ℕ}
    (mapped : Mapped arch query a n) (positive : 0 < n) : a + n ≤ 2 ^ arch.bits := by
  obtain ⟨mbi, -, -, -, reach, top⟩ := mapped.2 a (inRange_self positive)
  omega

theorem once_write_relative {readable : ℕ → ℕ → Bool} {m : ℕ → UInt8} {src dst : ℕ}
    (pad : List UInt8) (reads : Reads readable src 5) (word : dst < 2 ^ 64)
    (near : selectJump src dst = .relative5) :
    detourCodeFromPointerOnce readable (write m src (jumpBytes src dst .relative5 ++ pad)) src =
      some dst := by
  rw [once_relative reads (read_write_slice m src _ (i := 0) (k := 1) (by simp [jumpBytes]))
    (read_write_slice m src _ (i := 1) (k := 4) (by simp [jumpBytes]))]
  have operand : ((jumpBytes src dst .relative5 ++ pad).drop 1).take 4 =
      leBytes 4 (jumpOffset src dst % 2 ^ 32).toNat := by
    simp [jumpBytes]
  rw [operand, offsetPtr_of_relative5 word near]

theorem X86.once_write_relative {readable : ℕ → ℕ → Bool} {m : ℕ → UInt8} {src dst : ℕ}
    (pad : List UInt8) (reads : Reads readable src 5) (word : dst < 2 ^ 32) :
    X86.detourCodeFromPointerOnce readable
      (write m src (X86.managedGatewayStub src dst ++ pad)) src = some dst := by
  rw [X86.once_relative reads
    (read_write_slice m src _ (i := 0) (k := 1) (by simp [X86.managedGatewayStub]))
    (read_write_slice m src _ (i := 1) (k := 4) (by simp [X86.managedGatewayStub]))]
  have operand : ((X86.managedGatewayStub src dst ++ pad).drop 1).take 4 =
      leBytes 4 (X86.jumpOffset src dst % 2 ^ 32).toNat := by
    simp [X86.managedGatewayStub]
  rw [operand, X86.offsetPtr_of_relative word]

theorem once_write_absolute {readable : ℕ → ℕ → Bool} {m : ℕ → UInt8} {src dst : ℕ}
    (pad : List UInt8) (reads : Reads readable src 14) (room : src + 14 ≤ 2 ^ 64)
    (word : dst < 2 ^ 64) :
    detourCodeFromPointerOnce readable (write m src (managedGatewayStub dst ++ pad)) src =
      some dst := by
  have long : 14 ≤ (managedGatewayStub dst ++ pad).length := by
    simp [managedGatewayStub]
  have operand : ((managedGatewayStub dst ++ pad).drop 6).take 8 = leBytes 8 dst := by
    simp [managedGatewayStub]
  rw [once_absolute reads room (read_write_slice m src _ (i := 0) (k := 1) (by omega))
    (read_write_slice m src _ (i := 1) (k := 1) (by omega))
    (read_write_slice m src _ (i := 2) (k := 4) (by omega))
    (read_write_slice m src _ (i := 6) (k := 8) (by omega)), operand, ofLeBytes_leBytes,
    Nat.mod_eq_of_lt (by omega)]

/-- The patch of an inline hook, decoded at its target. -/
theorem patch_reads_back (arch : Arch) {query : ℕ → Option Mbi} {target detour stolenLen : ℕ}
    (word : detour < 2 ^ arch.bits) (enough : (arch.selectJump target detour).size ≤ stolenLen)
    (mapped : Mapped arch query target stolenLen) (m : ℕ → UInt8) :
    ∃ bs, arch.inlinePatchBytes target detour (arch.selectJump target detour) stolenLen = .ok bs ∧
      bs.length = stolenLen ∧
      arch.detourCodeFromPointerOnce (isReadableRange arch query) (write m target bs) target =
        some detour := by
  cases arch with
  | x86 =>
    have five : 5 ≤ stolenLen := enough
    refine ⟨X86.managedGatewayStub target detour ++ List.replicate (stolenLen - 5) 0x90,
      if_neg (by omega), ?_, X86.once_write_relative _ (mapped.reads five) word⟩
    simp [X86.managedGatewayStub]
    omega
  | x86_64 =>
    refine ⟨_, if_neg (Nat.not_lt.2 enough), ?_, ?_⟩
    · rw [List.length_append, length_jumpBytes, List.length_replicate]
      exact Nat.add_sub_cancel' enough
    · cases selected : NeoHook.selectJump target detour with
      | relative5 =>
        have five : 5 ≤ stolenLen := by
          simpa only [Arch.selectJump, selected, JumpType.size] using enough
        simp only [Arch.selectJump, selected]
        exact once_write_relative _ (mapped.reads five) word selected
      | absolute14 =>
        have fourteen : 14 ≤ stolenLen := by
          simpa only [Arch.selectJump, selected, JumpType.size] using enough
        have room : target + stolenLen ≤ 2 ^ 64 := mapped.room (by omega)
        simp only [Arch.selectJump, selected]
        exact once_write_absolute _ (mapped.reads fourteen) (by omega) word

/-- The target of a gateway is the destination it was written for. -/
theorem gateway_reads_back (arch : Arch) {dst : ℕ} (word : dst < 2 ^ arch.bits) (m : ℕ → UInt8)
    (src : ℕ) :
    arch.readManagedGatewayTarget (arch.writeManagedGatewayStub m src dst) src = some dst := by
  cases arch with
  | x86 =>
    have opcode : read (X86.writeManagedGatewayStub m src dst) src 1 = [0xE9] :=
      read_write_slice m src _ (i := 0) (k := 1) (by simp [X86.managedGatewayStub])
    have operand : read (X86.writeManagedGatewayStub m src dst) (src + 1) 4 =
        leBytes 4 (X86.jumpOffset src dst % 2 ^ 32).toNat := by
      rw [X86.writeManagedGatewayStub, read_write_slice _ _ _ (by simp [X86.managedGatewayStub])]
      simp [X86.managedGatewayStub, List.take_of_length_le]
    show X86.readManagedGatewayTarget (X86.writeManagedGatewayStub m src dst) src = some dst
    unfold X86.readManagedGatewayTarget
    rw [if_pos opcode, operand, X86.offsetPtr_of_relative word]
  | x86_64 =>
    have opcode : read (NeoHook.writeManagedGatewayStub m src dst) src 6 =
        [0xFF, 0x25, 0, 0, 0, 0] :=
      read_write_slice m src _ (i := 0) (k := 6) (by simp [managedGatewayStub])
    have operand : read (NeoHook.writeManagedGatewayStub m src dst) (src + 6) 8 =
        leBytes 8 dst := by
      rw [NeoHook.writeManagedGatewayStub, read_write_slice _ _ _ (by simp [managedGatewayStub])]
      simp [managedGatewayStub, List.take_of_length_le]
    show NeoHook.readManagedGatewayTarget (NeoHook.writeManagedGatewayStub m src dst) src = some dst
    unfold NeoHook.readManagedGatewayTarget
    rw [if_pos opcode, operand, ofLeBytes_leBytes, Nat.mod_eq_of_lt (show dst < 256 ^ 8 from word)]

/-- Following a gateway goes where it was written to go. -/
theorem gateway_followed (arch : Arch) {query : ℕ → Option Mbi} {src dst : ℕ}
    (word : dst < 2 ^ arch.bits)
    (mapped : Mapped arch query src (arch.managedGatewayStub src dst).length) (m : ℕ → UInt8) :
    arch.detourCodeFromPointerOnce (isReadableRange arch query)
      (arch.writeManagedGatewayStub m src dst) src = some dst := by
  cases arch with
  | x86 =>
    have five : 5 ≤ (X86.managedGatewayStub src dst).length := by simp [X86.managedGatewayStub]
    have followed := X86.once_write_relative (m := m) [] (mapped.reads five) word
    rwa [List.append_nil] at followed
  | x86_64 =>
    have len : (Arch.x86_64.managedGatewayStub src dst).length = 14 := length_managedGatewayStub dst
    rw [len] at mapped
    have followed := once_write_absolute (m := m) [] (mapped.reads le_rfl)
      (mapped.room (by decide)) word
    rwa [List.append_nil] at followed

/-- The encoders and decoders agree.  With the jump type `attach` picks, the patch of an inline
hook fills the stolen bytes and decodes to the detour; the target of a gateway reads back; and
following a gateway, or the stub of an export hook, goes to the encoded destination. -/
theorem jumps_read_back (arch : Arch) (query : ℕ → Option Mbi) (m : ℕ → UInt8) :
    (∀ target detour stolenLen, detour < 2 ^ arch.bits →
      (arch.selectJump target detour).size ≤ stolenLen → Mapped arch query target stolenLen →
      ∃ bs, arch.inlinePatchBytes target detour (arch.selectJump target detour) stolenLen = .ok bs ∧
        bs.length = stolenLen ∧
        arch.detourCodeFromPointerOnce (isReadableRange arch query) (write m target bs) target =
          some detour) ∧
    (∀ src dst, dst < 2 ^ arch.bits →
      arch.readManagedGatewayTarget (arch.writeManagedGatewayStub m src dst) src = some dst ∧
      (Mapped arch query src (arch.managedGatewayStub src dst).length →
        arch.detourCodeFromPointerOnce (isReadableRange arch query)
          (arch.writeManagedGatewayStub m src dst) src = some dst)) ∧
    ∀ stub dst, dst < 2 ^ 64 → Mapped .x86_64 query stub 14 →
      Arch.x86_64.detourCodeFromPointerOnce (isReadableRange .x86_64 query)
        (writeAbsJumpStub m stub dst) stub = some dst := by
  refine ⟨?_, ?_, ?_⟩
  · intro target detour stolenLen word enough mapped
    exact patch_reads_back arch word enough mapped m
  · intro src dst word
    exact ⟨gateway_reads_back arch word m src, fun mapped => gateway_followed arch word mapped m⟩
  · intro stub dst word mapped
    exact gateway_followed .x86_64 word
      (by rwa [show (Arch.x86_64.managedGatewayStub stub dst).length = 14 from
        length_managedGatewayStub dst]) m

/-- A region of 64 KiB at 64 KiB. -/
def oneRegion : ℕ → Option Mbi := fun _ => some ⟨0x10000, 0x10000, 0x10000, true, false⟩

theorem oneRegion_mapped (arch : Arch) {a n : ℕ} (low : 0x10000 ≤ a) (high : a + n ≤ 0x20000) :
    Mapped arch oneRegion a n := by
  refine ⟨by omega, fun x hx => ⟨_, rfl, rfl, ?_, ?_, ?_⟩⟩
  · exact le_trans low hx.1
  · exact high
  · cases arch <;> decide

/-- A detour out of reach of a five-byte jump on x86_64, and one across the end of the address
space on x86. -/
theorem jumps_read_back_far :
    (∃ bs, Arch.x86_64.inlinePatchBytes 0x11000 0x7FFF00000000
        (Arch.x86_64.selectJump 0x11000 0x7FFF00000000) 15 = .ok bs ∧ bs.length = 15 ∧
      Arch.x86_64.detourCodeFromPointerOnce (isReadableRange .x86_64 oneRegion)
        (write (fun _ => 0) 0x11000 bs) 0x11000 = some 0x7FFF00000000) ∧
    Arch.x86.readManagedGatewayTarget
      (Arch.x86.writeManagedGatewayStub (fun _ => 0) 0x11000 0xFFFFFFF0) 0x11000 =
        some 0xFFFFFFF0 :=
  ⟨(jumps_read_back .x86_64 oneRegion fun _ => 0).1 0x11000 0x7FFF00000000 15 (by decide)
      (by decide) (oneRegion_mapped .x86_64 (by decide) (by decide)),
    ((jumps_read_back .x86 oneRegion fun _ => 0).2.1 0x11000 0xFFFFFFF0 (by decide)).1⟩

end NeoHook
