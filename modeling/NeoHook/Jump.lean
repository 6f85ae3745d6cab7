import NeoHook.Basic

/-!
# Jumps and gateway stubs

The encoders of `transaction.rs` (`inline_patch_bytes`, `write_managed_gateway_stub`) and the
decoders that read their output back (`read_managed_gateway_target` and
`detour_code_from_pointer` of `code.rs`), for x86_64.
-/

namespace NeoHook

open ByteMap

/-- The value of an unsigned number reinterpreted as a two's complement one of `2 ^ k`. -/
def signed (k v : ℕ) : ℤ := if 2 * v < 2 ^ k then (v : ℤ) else (v : ℤ) - 2 ^ k

/-- The address `a + off`, wrapped to 64 bits. -/
def offsetPtr (a : ℕ) (off : ℤ) : ℕ := (((a : ℤ) + off) % 2 ^ 64).toNat

inductive JumpType where
  | relative5 | absolute14
  deriving DecidableEq, Repr

/-- Bytes the bare jump needs. -/
def JumpType.size : JumpType → ℕ
  | relative5 => 5
  | absolute14 => 14

/-- The displacement of a `jmp rel32` at `target` to `dest`, as a wrapped 64-bit difference. -/
def jumpOffset (target dest : ℕ) : ℤ := ((dest : ℤ) - target - 5).bmod (2 ^ 64)

/-- `attach` picks the five-byte jump whenever the displacement fits in an `i32`. -/
def selectJump (target detour : ℕ) : JumpType :=
  if -(2 ^ 31) ≤ jumpOffset target detour ∧ jumpOffset target detour < 2 ^ 31 then .relative5
  else .absolute14

/-- The bare jump of a type at `target`. -/
def jumpBytes (target dest : ℕ) : JumpType → List UInt8
  | .relative5 => 0xE9 :: leBytes 4 (jumpOffset target dest % 2 ^ 32).toNat
  | .absolute14 => [0xFF, 0x25, 0, 0, 0, 0] ++ leBytes 8 dest

/-- The jump an inline hook writes over its target, padded with NOPs to the stolen length. -/
def inlinePatchBytes (target detour : ℕ) (jumpType : JumpType) (stolenLen : ℕ) :
    Except DetourError (List UInt8) :=
  if stolenLen < jumpType.size then .error .invalidParameter
  else .ok (jumpBytes target detour jumpType ++ List.replicate (stolenLen - jumpType.size) 0x90)

/-- `FF 25 00 00 00 00` and the absolute destination. -/
def managedGatewayStub (dst : ℕ) : List UInt8 := [0xFF, 0x25, 0, 0, 0, 0] ++ leBytes 8 dst

def writeManagedGatewayStub (m : ℕ → UInt8) (src dst : ℕ) : ℕ → UInt8 :=
  write m src (managedGatewayStub dst)

def readManagedGatewayTarget (m : ℕ → UInt8) (src : ℕ) : Option ℕ :=
  if read m src 6 = [0xFF, 0x25, 0, 0, 0, 0] then some (ofLeBytes (read m (src + 6) 8)) else none

/-! ### Following jump stubs -/

section Follow

variable (readable : ℕ → ℕ → Bool) (m : ℕ → UInt8)

/-- `read_value`: the little-endian value of `n` readable bytes. -/
def readValue (ptr : ℕ) (n : ℕ) : Option ℕ :=
  if readable ptr n then some (ofLeBytes (read m ptr n)) else none

def resolveRipIndirectJump (src : ℕ) (dispOffset : ℕ) : Option ℕ := do
  let disp ← readValue readable m (src + dispOffset) 4
  readValue readable m (offsetPtr (src + dispOffset + 4) (signed 32 disp)) 8

def resolveFfJump (src : ℕ) : Option ℕ := do
  let modrm ← readValue readable m (src + 1) 1
  if modrm = 0x25 then resolveRipIndirectJump readable m src 2 else none

def detourCodeFromPointerOnce (src : ℕ) : Option ℕ := do
  let op0 ← readValue readable m src 1
  if op0 = 0xE9 then
    let rel ← readValue readable m (src + 1) 4
    return offsetPtr src (5 + signed 32 rel)
  else if op0 = 0xEB then
    let rel ← readValue readable m (src + 1) 1
    return offsetPtr src (2 + signed 8 rel)
  else if op0 = 0xFF then resolveFfJump readable m src
  else if op0 = 0x48 then
    let op1 ← readValue readable m (src + 1) 1
    let op2 ← readValue readable m (src + 2) 1
    if op1 = 0xFF ∧ op2 = 0x25 then resolveRipIndirectJump readable m src 3
    else if op1 = 0xB8 then
      let tail ← readValue readable m (src + 10) 2
      if tail = 0xE0FF then readValue readable m (src + 2) 8 else none
    else none
  else if op0 = 0x49 then
    let op1 ← readValue readable m (src + 1) 1
    if op1 = 0xBA then
      let tail ← readValue readable m (src + 10) 3
      if tail = 0xE2FF41 then readValue readable m (src + 2) 8 else none
    else none
  else none

def maxJumpFollows : ℕ := 32

/-- The loop of `detour_code_from_pointer`, with the follows that are left and the addresses
already visited. -/
def followJumps : ℕ → List ℕ → ℕ → ℕ
  | 0, _, current => current
  | n + 1, seen, current =>
    if current ∈ seen then current
    else match detourCodeFromPointerOnce readable m current with
      | none => current
      | some next => if next = 0 then current else followJumps n (current :: seen) next

def detourCodeFromPointer (pointer : ℕ) : ℕ :=
  if pointer = 0 then 0 else followJumps readable m maxJumpFollows [] pointer

end Follow

/-! ### The encoders read back -/

theorem length_jumpBytes (target dest : ℕ) (j : JumpType) :
    (jumpBytes target dest j).length = j.size := by
  cases j <;> simp [jumpBytes, JumpType.size]

theorem selectJump_size_le (target detour : ℕ) :
    (selectJump target detour).size ≤ managedGatewayLen := by
  cases selectJump target detour <;> decide

theorem length_managedGatewayStub (dst : ℕ) :
    (managedGatewayStub dst).length = managedGatewayLen := by
  simp [managedGatewayStub, managedGatewayLen]

/-- A stub that reads as a gateway is one. -/
theorem read_of_readManagedGatewayTarget {m : ℕ → UInt8} {a dst : ℕ}
    (h : readManagedGatewayTarget m a = some dst) :
    read m a managedGatewayLen = managedGatewayStub dst := by
  unfold readManagedGatewayTarget at h
  split_ifs at h with opcode
  simp only [Option.some.injEq] at h
  have operand := leBytes_ofLeBytes (read m (a + 6) 8)
  rw [length_read, h] at operand
  rw [managedGatewayStub, show managedGatewayLen = 6 + 8 from rfl, read_append, opcode, operand]

/-- The patch fills exactly the stolen bytes. -/
theorem length_inlinePatchBytes {target detour : ℕ} {j : JumpType} {n : ℕ} {bs : List UInt8}
    (h : inlinePatchBytes target detour j n = .ok bs) : bs.length = n := by
  unfold inlinePatchBytes at h
  split_ifs at h with hn
  simp only [Except.ok.injEq] at h
  subst h
  rw [List.length_append, length_jumpBytes, List.length_replicate]
  omega

end NeoHook
