import NeoHook.Lib.ByteMap

/-!
# Common types

Addresses, stub allocations and the errors of the hooking engine, for the x86_64 build.
Pointers are natural numbers and `0` is the null pointer; arithmetic that wraps in the source is
reduced modulo `2 ^ 64` where it is encoded into, or decoded from, instruction bytes.
-/

namespace NeoHook

/-- Size of a pointer-sized slot. -/
def wordSize : ℕ := 8

def pageSize : ℕ := 0x1000

/-- `MANAGED_GATEWAY_LEN` on x86_64: `jmp [rip+0]` and its 8-byte operand. -/
def managedGatewayLen : ℕ := 14

/-- A stub allocation, as the quarantine and `VirtualFree` see it. -/
structure Region where
  base : ℕ
  size : ℕ
  deriving DecidableEq, Repr

namespace Region

/-- Bytes `VirtualAlloc` maps for the region: its size rounded up to whole pages. -/
def mapped (r : Region) : ℕ := (r.size + (pageSize - 1)) / pageSize * pageSize

/-- The address lies in the mapped pages of the region. -/
def Covers (r : Region) (x : ℕ) : Prop := ByteMap.InRange r.base r.mapped x

instance (r : Region) (x : ℕ) : Decidable (r.Covers x) :=
  inferInstanceAs (Decidable (ByteMap.InRange _ _ _))

theorem size_le_mapped (r : Region) : r.size ≤ r.mapped := by
  unfold mapped pageSize
  omega

theorem page_le_mapped {r : Region} (h : 0 < r.size) : pageSize ≤ r.mapped := by
  unfold mapped pageSize
  omega

/-- The mapped pages of two regions do not overlap. -/
def Apart (r r' : Region) : Prop := ByteMap.Apart r.base r.mapped r'.base r'.mapped

instance (r r' : Region) : Decidable (r.Apart r') := inferInstanceAs (Decidable (ByteMap.Apart ..))

theorem Apart.symm {r r' : Region} (h : r.Apart r') : r'.Apart r := ByteMap.Apart.symm h

theorem Apart.base_ne {r r' : Region} (h : r.Apart r') (hr : 0 < r.size) (hr' : 0 < r'.size) :
    r.base ≠ r'.base := by
  have h₁ := page_le_mapped hr
  have h₂ := page_le_mapped hr'
  unfold pageSize at h₁ h₂
  unfold Apart ByteMap.Apart at h
  intro e
  omega

end Region

/-- An owned stub (`alloc::Trampoline`); a null `ptr` marks one whose memory was moved out. -/
structure Trampoline where
  ptr : ℕ
  size : ℕ
  deriving DecidableEq, Repr

def Trampoline.region (t : Trampoline) : Region := ⟨t.ptr, t.size⟩

/-- The trampoline left behind by `std::mem::replace`. -/
def Trampoline.null : Trampoline := ⟨0, 0⟩

inductive HookKind where
  | inline | iat | eat | vtable | vtableInstance | detach
  deriving DecidableEq, Repr

inductive IatHookError where
  | invalidParameter | invalidPeImage | importTableUnavailable | nameResolutionUnavailable
  | targetNotFound | protectFailed
  deriving DecidableEq, Repr

inductive EatHookError where
  | invalidParameter | invalidPeImage | exportTableUnavailable | targetNotFound
  | targetIsForwarder | detourUnreachable | protectFailed
  deriving DecidableEq, Repr

inductive VTableHookError where
  | invalidParameter | allocationFailed | protectFailed
  deriving DecidableEq, Repr

inductive DetourError where
  | notStarted | allocationFailed | relocationFailed | invalidParameter
  | iat (e : IatHookError) | eat (e : EatHookError) | vtable (e : VTableHookError)
  | commitFailed (index : ℕ) (kind : HookKind) (source : DetourError)
  deriving DecidableEq, Repr

end NeoHook
