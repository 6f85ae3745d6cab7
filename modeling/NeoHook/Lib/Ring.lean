import Mathlib.Data.List.Basic
import Mathlib.Logic.Function.Basic
import Mathlib.Data.Nat.ModEq

/-!
# Rings

A ring of cells remembers the last values pushed into it: the next one goes to the cell of its
number modulo the length.
-/

namespace Ring

variable {α : Type} {n next : ℕ} {cell : ℕ → α} {pushed : List α}

/-- The ring of `n` cells holds the last `n` values pushed, and `next` is where the next one goes. -/
structure Holds (n : ℕ) (cell : ℕ → α) (next : ℕ) (pushed : List α) : Prop where
  next : next % n = pushed.length % n
  recent : ∀ k (less : k < pushed.length), pushed.length ≤ k + n → cell (k % n) = pushed[k]

theorem holds_nil (first : next % n = 0) : Holds n cell next [] :=
  ⟨first.trans (Nat.zero_mod n).symm, fun _ less => absurd less (Nat.not_lt_zero _)⟩

/-- Two numbers less than `n` apart have different cells. -/
theorem mod_ne_of_lt {k l : ℕ} (less : k < l) (close : l < k + n) : k % n ≠ l % n := by
  intro eq
  have dvd := (Nat.modEq_iff_dvd' less.le).mp eq
  have le := Nat.le_of_dvd (by omega) dvd
  omega

theorem Holds.push (h : Holds n cell next pushed) (v : α) {next' : ℕ}
    (eq : next' % n = (next + 1) % n) :
    Holds n (Function.update cell (next % n) v) next' (pushed ++ [v]) := by
  constructor
  · rw [eq, List.length_append, List.length_singleton, Nat.add_mod, h.next, ← Nat.add_mod]
  · intro k less close
    rw [List.length_append, List.length_singleton] at less close
    obtain before | rfl := Nat.lt_succ_iff_lt_or_eq.mp less
    · have other : k % n ≠ next % n := by
        rw [h.next]
        exact mod_ne_of_lt before (by omega)
      rw [Function.update_of_ne other, List.getElem_append_left before]
      exact h.recent k before (by omega)
    · rw [h.next, Function.update_self, List.getElem_append_right le_rfl]
      simp

/-- Each of the last `n` values is in a cell. -/
theorem Holds.exists_cell (h : Holds n cell next pushed) (pos : 0 < n) {v : α}
    (mem : v ∈ pushed.drop (pushed.length - n)) : ∃ i < n, cell i = v := by
  obtain ⟨k, less, rfl⟩ := List.mem_iff_getElem.mp mem
  rw [List.length_drop] at less
  refine ⟨(pushed.length - n + k) % n, Nat.mod_lt _ pos, ?_⟩
  rw [List.getElem_drop, h.recent _ (by omega) (by omega)]

end Ring
