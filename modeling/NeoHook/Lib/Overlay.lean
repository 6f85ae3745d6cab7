import NeoHook.Lib.ByteMap

/-!
# Patches laid over a memory

A memory that differs from a ground memory exactly where patches are laid over it.  A patch that is
clear of the others is added by writing its bytes and taken out by writing back the ground, in any
order; the ground itself may be changed where no patch lies.
-/

namespace ByteMap

/-- A block of bytes and its address. -/
structure Patch where
  base : ℕ
  bytes : List UInt8

namespace Patch

def Covers (p : Patch) (x : ℕ) : Prop := InRange p.base p.bytes.length x

/-- The patch does not meet the block of `n` bytes at `a`. -/
def Clear (p : Patch) (a n : ℕ) : Prop := Apart p.base p.bytes.length a n

theorem Clear.not_covers {p : Patch} {a n x : ℕ} (clear : p.Clear a n) (inside : InRange a n x) :
    ¬ p.Covers x :=
  Apart.notMem (Apart.symm clear) inside

end Patch

/-- The memory holds the patches, and the ground elsewhere. -/
structure Overlaid (ground : ℕ → UInt8) (ps : Multiset Patch) (m : ℕ → UInt8) : Prop where
  patched : ∀ p ∈ ps, read m p.base p.bytes.length = p.bytes
  bare : ∀ x, (∀ p ∈ ps, ¬ p.Covers x) → m x = ground x

namespace Overlaid

variable {ground ground' m m' : ℕ → UInt8} {p : Patch} {ps : Multiset Patch} {a n : ℕ}

theorem refl (m : ℕ → UInt8) : Overlaid m 0 m := by
  constructor
  · intro p mem
    cases mem
  · intro x _
    rfl

/-- Where no patch lies, the ground shows. -/
theorem read_bare (laid : Overlaid ground ps m) (clear : ∀ p ∈ ps, p.Clear a n) :
    read m a n = read ground a n := by
  apply read_congr
  intro x inside
  apply laid.bare
  intro p mem
  exact (clear p mem).not_covers inside

/-- A patch is added. -/
theorem insert (laid : Overlaid ground ps m) (clear : ∀ q ∈ ps, q.Clear p.base p.bytes.length) :
    Overlaid ground (p ::ₘ ps) (write m p.base p.bytes) := by
  constructor
  · intro q mem
    rcases Multiset.mem_cons.1 mem with rfl | mem
    · exact read_write_same m q.base q.bytes
    · rw [read_write_apart (Apart.symm (clear q mem))]
      exact laid.patched q mem
  · intro x outside
    have away : ¬ p.Covers x := outside p (Multiset.mem_cons_self _ _)
    rw [write_of_notMem away]
    apply laid.bare
    intro q mem
    exact outside q (Multiset.mem_cons_of_mem mem)

/-- Writing back the ground where no patch lies changes nothing. -/
theorem restore (laid : Overlaid ground ps m) (clear : ∀ p ∈ ps, p.Clear a n) :
    Overlaid ground ps (write m a (read ground a n)) := by
  rw [← laid.read_bare clear, write_read_self]
  exact laid

/-- A patch is taken out by writing back the ground. -/
theorem erase (laid : Overlaid ground (p ::ₘ ps) m)
    (clear : ∀ q ∈ ps, q.Clear p.base p.bytes.length) :
    Overlaid ground ps (write m p.base (read ground p.base p.bytes.length)) := by
  constructor
  · intro q mem
    rw [read_write_apart]
    · exact laid.patched q (Multiset.mem_cons_of_mem mem)
    · rw [length_read]
      exact Apart.symm (clear q mem)
  · intro x outside
    by_cases inside : p.Covers x
    · rw [write_of_mem (by rwa [length_read])]
      exact getD_read_sub inside
    · rw [write_of_notMem (by rwa [length_read])]
      apply laid.bare
      intro q mem
      rcases Multiset.mem_cons.1 mem with rfl | mem
      · exact inside
      · exact outside q mem

/-- The ground changes in a block that no patch meets. -/
theorem rebase (laid : Overlaid ground ps m) (clear : ∀ p ∈ ps, p.Clear a n)
    (inside : ∀ x, InRange a n x → m' x = ground' x)
    (outside : ∀ x, ¬ InRange a n x → m' x = m x ∧ ground' x = ground x) :
    Overlaid ground' ps m' := by
  constructor
  · intro p mem
    rw [← laid.patched p mem, length_read]
    apply read_congr
    intro x covered
    exact (outside x (Apart.notMem (clear p mem) covered)).1
  · intro x away
    by_cases there : InRange a n x
    · exact inside x there
    · obtain ⟨same, ground⟩ := outside x there
      rw [same, ground]
      exact laid.bare x away

end Overlaid

end ByteMap
