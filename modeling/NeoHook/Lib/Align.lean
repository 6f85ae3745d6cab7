import Mathlib

/-!
# Rounding addresses

Rounding a word of `w` bits to a multiple of a power of two with a mask, as machine code does it.
`down` and `up` are the multiples next to an address; between two neighbouring multiples there is
no other.
-/

namespace Align

variable {w k : ℕ}

/-- The complement of a word. -/
def lnot (w x : ℕ) : ℕ := 2 ^ w - (x + 1)

/-- `addr & !(align - 1)`. -/
def down (w addr align : ℕ) : ℕ := addr &&& lnot w (align - 1)

/-- `(addr + align - 1) & !(align - 1)`, where the sum wraps. -/
def up (w addr align : ℕ) : ℕ := (addr + align - 1) % 2 ^ w &&& lnot w (align - 1)

theorem testBit_lnot (le : k ≤ w) (i : ℕ) :
    (lnot w (2 ^ k - 1)).testBit i = (decide (i < w) && !decide (i < k)) := by
  have small : 2 ^ k - 1 < 2 ^ w :=
    lt_of_lt_of_le (Nat.sub_lt (Nat.two_pow_pos k) one_pos) (Nat.pow_le_pow_right two_pos le)
  rw [lnot, Nat.testBit_two_pow_sub_succ small, Nat.testBit_two_pow_sub_one]

/-- Masking the low bits rounds down. -/
theorem down_eq (le : k ≤ w) {addr : ℕ} (word : addr < 2 ^ w) :
    down w addr (2 ^ k) = addr / 2 ^ k * 2 ^ k := by
  apply Nat.eq_of_testBit_eq
  intro i
  rw [down, Nat.testBit_and, testBit_lnot le, Nat.testBit_mul_two_pow, Nat.testBit_div_two_pow]
  by_cases low : i < k
  · simp [low, Nat.not_le.2 low]
  · by_cases high : i < w
    · simp [low, high, Nat.not_lt.1 low]
    · have zero : addr.testBit i = false :=
        Nat.testBit_lt_two_pow (word.trans_le (Nat.pow_le_pow_right two_pos (Nat.not_lt.1 high)))
      simp [low, high, Nat.not_lt.1 low, zero]

theorem dvd_down (le : k ≤ w) {addr : ℕ} (word : addr < 2 ^ w) : 2 ^ k ∣ down w addr (2 ^ k) := by
  rw [down_eq le word]
  exact Nat.dvd_mul_left _ _

theorem down_le (le : k ≤ w) {addr : ℕ} (word : addr < 2 ^ w) : down w addr (2 ^ k) ≤ addr := by
  rw [down_eq le word]
  exact Nat.div_mul_le_self _ _

theorem lt_down_add (le : k ≤ w) {addr : ℕ} (word : addr < 2 ^ w) :
    addr < down w addr (2 ^ k) + 2 ^ k := by
  rw [down_eq le word]
  exact Nat.lt_div_mul_add (Nat.two_pow_pos k)

/-- Without overflow, rounding up is rounding down what is almost one step further. -/
theorem up_eq {addr : ℕ} (room : addr + 2 ^ k ≤ 2 ^ w) :
    up w addr (2 ^ k) = down w (addr + 2 ^ k - 1) (2 ^ k) := by
  have := Nat.two_pow_pos k
  rw [up, down, Nat.mod_eq_of_lt (by omega)]

theorem dvd_up (le : k ≤ w) {addr : ℕ} (room : addr + 2 ^ k ≤ 2 ^ w) :
    2 ^ k ∣ up w addr (2 ^ k) := by
  have := Nat.two_pow_pos k
  rw [up_eq room]
  exact dvd_down le (by omega)

theorem le_up (le : k ≤ w) {addr : ℕ} (room : addr + 2 ^ k ≤ 2 ^ w) : addr ≤ up w addr (2 ^ k) := by
  have := Nat.two_pow_pos k
  have := lt_down_add le (show addr + 2 ^ k - 1 < 2 ^ w by omega)
  rw [up_eq room]
  omega

theorem up_lt (le : k ≤ w) {addr : ℕ} (room : addr + 2 ^ k ≤ 2 ^ w) :
    up w addr (2 ^ k) < addr + 2 ^ k := by
  have := Nat.two_pow_pos k
  have := down_le le (show addr + 2 ^ k - 1 < 2 ^ w by omega)
  rw [up_eq room]
  omega

/-- Different multiples are at least one step apart. -/
theorem add_le_of_dvd {a c d : ℕ} (hc : a ∣ c) (hd : a ∣ d) (lt : c < d) : c + a ≤ d := by
  have step := Nat.le_of_dvd (Nat.sub_pos_of_lt lt) (Nat.dvd_sub hd hc)
  omega

end Align
