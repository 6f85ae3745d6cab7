import NeoHook.Lib.ByteMap

/-!
# Words rewritten in place

A list of words of a byte-addressed memory, each rewritten from its own bytes.  A window of the
memory only sees the words that reach into it, and words behind one another are rewritten from what
the memory held at the start.
-/

namespace ByteMap

/-- A word: its address and its number of bytes. -/
abbrev Word := ℕ × ℕ

/-! ### Windows -/

/-- Setting a byte of a window. -/
theorem set_read (m : ℕ → UInt8) {a n x : ℕ} (inside : InRange a n x) (b : UInt8) :
    (read m a n).set (x - a) b = read (write m x [b]) a n := by
  obtain ⟨low, high⟩ := inside
  apply List.ext_getElem
  · rw [List.length_set, length_read, length_read]
  · intro i first second
    rw [List.getElem_set]
    simp only [ByteMap.read, List.getElem_map, List.getElem_range]
    split_ifs with same
    · subst same
      rw [Nat.add_sub_cancel' low, write_of_mem (inRange_self (by simp)), Nat.sub_self]
      rfl
    · refine (write_of_notMem ?_).symm
      rintro ⟨front, back⟩
      simp only [List.length_singleton] at back
      omega

/-! ### Rewriting -/

variable (f : List UInt8 → List UInt8)

/-- The memory with one word rewritten. -/
def rewriteWord (m : ℕ → UInt8) (w : Word) : ℕ → UInt8 := write m w.1 (f (read m w.1 w.2))

/-- The memory with the words rewritten one after the other. -/
def rewriteWords (m : ℕ → UInt8) (words : List Word) : ℕ → UInt8 := words.foldl (rewriteWord f) m

/-- Each word starts behind the one before it. -/
def Ascending (words : List Word) : Prop := words.Pairwise fun v w => v.1 + v.2 ≤ w.1

variable {f} {m : ℕ → UInt8}

/-- A rewriting that keeps the length of a word leaves the bytes outside of it as they were. -/
theorem read_rewriteWord_apart (keeps : ∀ bs, (f bs).length = bs.length) {w : Word} {a n : ℕ}
    (apart : Apart w.1 w.2 a n) : read (rewriteWord f m w) a n = read m a n := by
  unfold rewriteWord
  refine read_write_apart ?_
  rw [keeps, length_read]
  exact apart

theorem read_rewriteWords_apart (keeps : ∀ bs, (f bs).length = bs.length) {words : List Word}
    {a n : ℕ} (apart : ∀ w ∈ words, Apart w.1 w.2 a n) :
    read (rewriteWords f m words) a n = read m a n := by
  induction words generalizing m with
  | nil => rfl
  | cons w rest ih =>
    calc read (rewriteWords f (rewriteWord f m w) rest) a n
        = read (rewriteWord f m w) a n := ih fun v there => apart v (List.mem_cons_of_mem w there)
      _ = read m a n := read_rewriteWord_apart keeps (apart w List.mem_cons_self)

theorem rewriteWords_append (front back : List Word) :
    rewriteWords f m (front ++ back) = rewriteWords f (rewriteWords f m front) back :=
  List.foldl_append

/-- Behind a rewritten word the other words are as they were. -/
theorem read_rewriteWord_behind (keeps : ∀ bs, (f bs).length = bs.length) {w : Word}
    {rest : List Word} (ascending : Ascending (w :: rest)) {v : Word} (there : v ∈ rest) :
    read (rewriteWord f m w) v.1 v.2 = read m v.1 v.2 :=
  read_rewriteWord_apart keeps (.inl (List.rel_of_pairwise_cons ascending there))

/-- Rewriting every word to itself changes nothing. -/
theorem rewriteWords_self {words : List Word} (same : ∀ bs, f bs = bs) :
    rewriteWords f m words = m := by
  induction words generalizing m with
  | nil => rfl
  | cons w rest ih =>
    have first : rewriteWord f m w = m := by
      unfold rewriteWord
      rw [same, write_read_self]
    calc rewriteWords f (rewriteWord f m w) rest = rewriteWord f m w := ih
      _ = m := first

end ByteMap
