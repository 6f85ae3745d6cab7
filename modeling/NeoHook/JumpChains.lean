import NeoHook.Lib.Chase
import NeoHook.JumpCodec

/-!
# Chains of jump stubs

`detour_code_from_pointer` on either architecture: from a pointer it follows jump stubs, each at
most once and 32 of them at most.  A chain that is short enough is followed to its end, or to the
entry of its cycle, and what is found there is not moved by looking again.
-/

namespace NeoHook

open Chase ByteMap

namespace Arch

variable (arch : Arch) (query : ℕ → Option Mbi) (m : ℕ → UInt8)

/-- The loop of `detour_code_from_pointer`. -/
def followJumps : ℕ → List ℕ → ℕ → ℕ
  | 0, _, current => current
  | n + 1, seen, current =>
    if current ∈ seen then current
    else
      match arch.detourCodeFromPointerOnce (isReadableRange arch query) m current with
      | none => current
      | some next => if next = 0 then current else followJumps n (current :: seen) next

def detourCodeFromPointer (pointer : ℕ) : ℕ :=
  if pointer = 0 then 0 else followJumps arch query m maxJumpFollows [] pointer

/-- The destination of a readable jump stub that leads somewhere. -/
def stubTarget (src : ℕ) : Option ℕ :=
  (arch.detourCodeFromPointerOnce (isReadableRange arch query) m src).filter fun dst => dst ≠ 0

/-- The x86_64 build is the one that `attach` uses. -/
theorem x86_64_detourCodeFromPointer (pointer : ℕ) :
    x86_64.detourCodeFromPointer query m pointer =
      NeoHook.detourCodeFromPointer (isReadableRange x86_64 query) m pointer := by
  have loop : ∀ n seen current, followJumps x86_64 query m n seen current =
      NeoHook.followJumps (isReadableRange x86_64 query) m n seen current := by
    intro n
    induction n with
    | zero => exact fun _ _ => rfl
    | succ n ih =>
      intro seen current
      simp only [followJumps, NeoHook.followJumps, ih]
      rfl
  unfold detourCodeFromPointer NeoHook.detourCodeFromPointer
  rw [loop]

variable {arch query m}

/-- Nothing is read at the null pointer. -/
theorem stubTarget_null : arch.stubTarget query m 0 = none := by
  cases arch <;> rfl

theorem followJumps_eq (n : ℕ) (seen : List ℕ) (current : ℕ) :
    arch.followJumps query m n seen current = chase (arch.stubTarget query m) n seen current := by
  induction n generalizing seen current with
  | zero => rfl
  | succ n ih =>
    rw [followJumps, chase]
    split_ifs with there
    · rfl
    · cases once : arch.detourCodeFromPointerOnce (isReadableRange arch query) m current with
      | none =>
        have target : arch.stubTarget query m current = none := by
          rw [stubTarget, once]
          rfl
        rw [target]
      | some next =>
        by_cases null : next = 0
        · have target : arch.stubTarget query m current = none := by
            rw [stubTarget, once]
            simp [null]
          rw [target]
          simp [null]
        · have target : arch.stubTarget query m current = some next := by
            rw [stubTarget, once]
            simp [null]
          rw [target]
          simp [null, ih]

theorem detourCodeFromPointer_eq (pointer : ℕ) :
    arch.detourCodeFromPointer query m pointer =
      chase (arch.stubTarget query m) maxJumpFollows [] pointer := by
  unfold detourCodeFromPointer
  split_ifs with null
  · rw [null, maxJumpFollows, chase, stubTarget_null]
    rfl
  · exact followJumps_eq _ _ _

/-- A chain of fewer than 32 stubs is followed to its end or to the entry of its cycle, where the
resolution stays. -/
theorem detourCodeFromPointer_stops {x : ℕ → ℕ} {k : ℕ}
    (chain : Path (arch.stubTarget query m) x k) (few : k < maxJumpFollows)
    (stops : arch.stubTarget query m (x k) = none ∨ ∃ i < k, x i = x k) :
    ∃ j ≤ k, Stops (arch.stubTarget query m) x k j ∧
      arch.detourCodeFromPointer query m (x 0) = x j ∧
      arch.detourCodeFromPointer query m (x j) = x j := by
  obtain ⟨j, le, end_, reached, stays⟩ := chase_stops chain few stops
  exact ⟨j, le, end_, by rw [detourCodeFromPointer_eq, reached],
    by rw [detourCodeFromPointer_eq, stays]⟩

/-- A page with a near jump to a short jump to itself. -/
def stubPage : ℕ → UInt8 :=
  write (write (fun _ => 0xC3) 0x1000 [0xE9, 0xFB, 0, 0, 0]) 0x1100 [0xEB, 0xFE]

def stubQuery : ℕ → Option Mbi := fun _ =>
  some
    { baseAddress := 0x1000, regionSize := 0x1000, allocationBase := 0x1000, commit := true,
      guarded := false }

theorem detourCodeFromPointer_stubPage :
    let places := fun i => if i = 0 then 0x1000 else 0x1100
    ∃ j ≤ 2, Stops (x86_64.stubTarget stubQuery stubPage) places 2 j ∧
      x86_64.detourCodeFromPointer stubQuery stubPage 0x1000 = places j ∧
      x86_64.detourCodeFromPointer stubQuery stubPage (places j) = places j := by
  intro places
  have chain : Path (x86_64.stubTarget stubQuery stubPage) places 2 := by
    intro i less
    match i, less with
    | 0, _ => decide
    | 1, _ => decide
  exact @detourCodeFromPointer_stops x86_64 stubQuery stubPage places 2 chain (by decide)
    (.inr ⟨1, by decide, rfl⟩)

end Arch

end NeoHook
