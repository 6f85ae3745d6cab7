import Mathlib

/-!
# Byte-addressed memory

A memory is a total map from addresses to bytes.  `read` and `write` move a block of bytes,
`InRange` is membership in a half-open block, and `leBytes` / `ofLeBytes` are the little-endian
images of a number.  Reading what was written, framing a write, and overwriting a block with its
own contents are the rules the memory proofs use.
-/

namespace ByteMap

/-- The address `x` lies in the block of `n` bytes at `a`. -/
def InRange (a n x : ℕ) : Prop := a ≤ x ∧ x < a + n

instance (a n x : ℕ) : Decidable (InRange a n x) := inferInstanceAs (Decidable (_ ∧ _))

/-- The blocks of `n` bytes at `a` and of `k` bytes at `b` do not overlap. -/
def Apart (a n b k : ℕ) : Prop := a + n ≤ b ∨ b + k ≤ a

instance (a n b k : ℕ) : Decidable (Apart a n b k) := inferInstanceAs (Decidable (_ ∨ _))

theorem Apart.symm {a n b k : ℕ} (h : Apart a n b k) : Apart b k a n := Or.symm h

theorem Apart.notMem {a n b k x : ℕ} (h : Apart a n b k) (ha : InRange a n x) :
    ¬ InRange b k x := by
  rintro ⟨h₁, h₂⟩
  obtain ⟨h₃, h₄⟩ := ha
  rcases h with h | h <;> omega

/-- Shrinking both blocks keeps them apart. -/
theorem Apart.mono {a n b k a' n' b' k' : ℕ} (h : Apart a n b k) (ha : a ≤ a')
    (ha' : a' + n' ≤ a + n) (hb : b ≤ b') (hb' : b' + k' ≤ b + k) : Apart a' n' b' k' := by
  rcases h with h | h
  · exact Or.inl (by omega)
  · exact Or.inr (by omega)

theorem inRange_self {a n : ℕ} (h : 0 < n) : InRange a n a := ⟨le_rfl, by omega⟩

theorem inRange_of_sub {a n b k x : ℕ} (hb : a ≤ b) (hk : b + k ≤ a + n) (h : InRange b k x) :
    InRange a n x :=
  ⟨hb.trans h.1, lt_of_lt_of_le h.2 hk⟩

/-! ### Reading and writing blocks -/

/-- The `n` bytes at `a`. -/
def read (m : ℕ → UInt8) (a n : ℕ) : List UInt8 := (List.range n).map fun i => m (a + i)

/-- The memory `m` with the bytes `bs` stored at `a`. -/
def write (m : ℕ → UInt8) (a : ℕ) (bs : List UInt8) : ℕ → UInt8 :=
  fun x => if InRange a bs.length x then bs.getD (x - a) 0 else m x

@[simp] theorem length_read (m : ℕ → UInt8) (a n : ℕ) : (read m a n).length = n := by
  simp [read]

theorem getD_read (m : ℕ → UInt8) (a n i : ℕ) (h : i < n) : (read m a n).getD i 0 = m (a + i) := by
  simp [read, List.getD, h]

theorem getD_read_sub {m : ℕ → UInt8} {a n x : ℕ} (h : InRange a n x) :
    (read m a n).getD (x - a) 0 = m x := by
  rw [getD_read _ _ _ _ (by have := h.1; have := h.2; omega), Nat.add_sub_cancel' h.1]

theorem read_congr {m m' : ℕ → UInt8} {a n : ℕ} (h : ∀ x, InRange a n x → m x = m' x) :
    read m a n = read m' a n := by
  apply List.map_congr_left
  intro i hi
  exact h _ ⟨by omega, by have := List.mem_range.1 hi; omega⟩

theorem write_of_mem {m : ℕ → UInt8} {a : ℕ} {bs : List UInt8} {x : ℕ}
    (h : InRange a bs.length x) : write m a bs x = bs.getD (x - a) 0 := if_pos h

theorem write_of_notMem {m : ℕ → UInt8} {a : ℕ} {bs : List UInt8} {x : ℕ}
    (h : ¬ InRange a bs.length x) : write m a bs x = m x := if_neg h

@[simp] theorem write_nil (m : ℕ → UInt8) (a : ℕ) : write m a [] = m := by
  funext x
  exact write_of_notMem fun h => by have := h.1; have := h.2; simp only [List.length_nil] at this; omega

/-- A block reads back as it was written. -/
theorem read_write_same (m : ℕ → UInt8) (a : ℕ) (bs : List UInt8) :
    read (write m a bs) a bs.length = bs := by
  apply List.ext_getElem
  · simp
  · intro i h₁ h₂
    have hr : InRange a bs.length (a + i) := ⟨by omega, by omega⟩
    simp only [read, List.getElem_map, List.getElem_range, write_of_mem hr, Nat.add_sub_cancel_left]
    exact List.getD_eq_getElem _ _ h₂

/-- Writing one block leaves a block apart from it as it was. -/
theorem read_write_apart {m : ℕ → UInt8} {a b n : ℕ} {bs : List UInt8}
    (h : Apart a bs.length b n) : read (write m a bs) b n = read m b n :=
  read_congr fun _ hx => write_of_notMem (h.symm.notMem hx)

/-- Storing a block's own contents changes nothing. -/
theorem write_read_self (m : ℕ → UInt8) (a n : ℕ) : write m a (read m a n) = m := by
  funext x
  by_cases h : InRange a n x
  · rw [write_of_mem (by simpa using h), getD_read_sub h]
  · exact write_of_notMem (by simpa using h)

theorem read_append (m : ℕ → UInt8) (a n k : ℕ) :
    read m a (n + k) = read m a n ++ read m (a + n) k := by
  unfold read
  rw [List.range_add, List.map_append, List.map_map]
  simp [Function.comp_def, Nat.add_assoc]

theorem take_read (m : ℕ → UInt8) (a : ℕ) {n k : ℕ} (le : k ≤ n) :
    (read m a n).take k = read m a k := by
  unfold read
  rw [← List.map_take, List.take_range, min_eq_left le]

theorem take_read_min (m : ℕ → UInt8) (a n k : ℕ) :
    (read m a n).take k = read m a (min k n) := by
  unfold read
  rw [← List.map_take, List.take_range]

/-- Storing two blocks one behind the other is storing them as one. -/
theorem write_append (m : ℕ → UInt8) (a : ℕ) (bs cs : List UInt8) :
    write m a (bs ++ cs) = write (write m a bs) (a + bs.length) cs := by
  funext x
  have total : (bs ++ cs).length = bs.length + cs.length := List.length_append
  by_cases second : InRange (a + bs.length) cs.length x
  · have low := second.1
    have high := second.2
    rw [write_of_mem second, write_of_mem ⟨by omega, by omega⟩,
      List.getD_append_right _ _ _ _ (by omega), Nat.sub_add_eq]
  · rw [write_of_notMem second]
    by_cases first : InRange a bs.length x
    · have low := first.1
      have high := first.2
      rw [write_of_mem first, write_of_mem ⟨low, by omega⟩, List.getD_append _ _ _ _ (by omega)]
    · rw [write_of_notMem first, write_of_notMem]
      unfold InRange at *
      omega

theorem drop_read (m : ℕ → UInt8) (a n k : ℕ) : (read m a n).drop k = read m (a + k) (n - k) := by
  apply List.ext_getElem
  · simp
  · intro i h₁ h₂
    simp [read, Nat.add_assoc]

/-- A slice of a block reads back as it was written. -/
theorem read_write_slice (m : ℕ → UInt8) (a : ℕ) (bs : List UInt8) {i k : ℕ}
    (h : i + k ≤ bs.length) : read (write m a bs) (a + i) k = (bs.drop i).take k := by
  conv_rhs => rw [← read_write_same m a bs, drop_read]
  rw [take_read _ _ (by omega)]

/-! ### Little-endian numbers -/

/-- The low `n` bytes of `v`, least significant first. -/
def leBytes : ℕ → ℕ → List UInt8
  | 0, _ => []
  | n + 1, v => UInt8.ofNat v :: leBytes n (v / 256)

/-- The number whose little-endian bytes are given. -/
def ofLeBytes : List UInt8 → ℕ
  | [] => 0
  | b :: bs => b.toNat + 256 * ofLeBytes bs

@[simp] theorem length_leBytes (n v : ℕ) : (leBytes n v).length = n := by
  induction n generalizing v with
  | zero => rfl
  | succ n ih => simp [leBytes, ih]

/-- The low bytes of a number come before the bytes of the rest. -/
theorem leBytes_add (n k v : ℕ) : leBytes (n + k) v = leBytes n v ++ leBytes k (v / 256 ^ n) := by
  induction n generalizing v with
  | zero => simp [leBytes]
  | succ n ih =>
    rw [Nat.succ_add, leBytes, leBytes, ih, List.cons_append, Nat.div_div_eq_div_mul,
      Nat.pow_succ']

theorem ofLeBytes_leBytes (n v : ℕ) : ofLeBytes (leBytes n v) = v % 256 ^ n := by
  induction n generalizing v with
  | zero => simp [leBytes, ofLeBytes, Nat.mod_one]
  | succ n ih =>
    have hb : (UInt8.ofNat v).toNat = v % 256 := by simp
    rw [leBytes, ofLeBytes, ih, hb, Nat.pow_succ', Nat.mod_mul]

theorem ofLeBytes_lt (bs : List UInt8) : ofLeBytes bs < 256 ^ bs.length := by
  induction bs with
  | nil => exact Nat.one_pos
  | cons b rest ih =>
    have := b.toNat_lt
    rw [ofLeBytes, List.length_cons, Nat.pow_succ]
    omega

theorem leBytes_ofLeBytes (bs : List UInt8) : leBytes bs.length (ofLeBytes bs) = bs := by
  induction bs with
  | nil => rfl
  | cons b bs ih =>
    have byte := b.toNat_lt
    have head : UInt8.ofNat (b.toNat + 256 * ofLeBytes bs) = b := by
      apply UInt8.toNat_inj.1
      rw [UInt8.toNat_ofNat']
      omega
    rw [List.length_cons, leBytes, ofLeBytes, head,
      show (b.toNat + 256 * ofLeBytes bs) / 256 = ofLeBytes bs by omega, ih]

/-- The low bytes of a number only depend on its low digits. -/
theorem leBytes_mod (n v : ℕ) : leBytes n (v % 256 ^ n) = leBytes n v := by
  have length := length_leBytes n v
  rw [← ofLeBytes_leBytes]
  nth_rewrite 1 [← length]
  exact leBytes_ofLeBytes _

end ByteMap
