import Mathlib.Order.Basic
import Mathlib.Data.Nat.Find

/-!
# Following a partial function

`chase` follows a partial function from a place until it has no value there or the place has been
visited, for at most `n` steps.  With enough steps it ends at the place without a value, or at the
entry of the cycle; and from there it leads nowhere else.
-/

namespace Chase

variable {α : Type} [DecidableEq α] (next : α → Option α)

/-- The place reached from `a` in at most `n` steps, stopping at the places already seen. -/
def chase : ℕ → List α → α → α
  | 0, _, a => a
  | n + 1, seen, a =>
    if a ∈ seen then a
    else
      match next a with
      | none => a
      | some b => chase n (a :: seen) b

/-- The first `k` steps of a path. -/
def Path (x : ℕ → α) (k : ℕ) : Prop := ∀ i < k, next (x i) = some (x (i + 1))

/-- Before its `k`-th place the path does not meet itself. -/
def Distinct (x : ℕ → α) (k : ℕ) : Prop := ∀ i j, i < j → j < k → x i ≠ x j

variable {next} {x : ℕ → α} {k n : ℕ}

omit [DecidableEq α] in
theorem Path.mono {j : ℕ} (path : Path next x k) (le : j ≤ k) : Path next x j :=
  fun i less => path i (by omega)

omit [DecidableEq α] in
theorem Distinct.mono {j : ℕ} (distinct : Distinct x k) (le : j ≤ k) : Distinct x j :=
  fun a b less inside => distinct a b less (by omega)

/-- What every step keeps, the loop keeps. -/
theorem chase_induction {P : α → Prop} (step : ∀ a b, P a → next a = some b → P b) {a : α}
    (start : P a) (n : ℕ) (seen : List α) : P (chase next n seen a) := by
  induction n generalizing seen a with
  | zero => exact start
  | succ n ih =>
    rw [chase]
    split_ifs with there
    · exact start
    · cases found : next a with
      | none => exact start
      | some b => exact ih (step a b start found) _

/-- The loop runs along a path that does not meet itself. -/
theorem chase_path (path : Path next x k) (distinct : Distinct x k) (enough : k ≤ n) :
    chase next n [] (x 0) = chase next (n - k) ((List.range k).map x).reverse (x k) := by
  induction k with
  | zero => rfl
  | succ k ih =>
    rw [ih (path.mono (by omega)) (distinct.mono (by omega)) (by omega)]
    have fresh : x k ∉ ((List.range k).map x).reverse := by
      intro there
      obtain ⟨i, less, same⟩ := List.mem_map.mp (List.mem_reverse.mp there)
      exact distinct i k (List.mem_range.mp less) (by omega) same
    obtain ⟨m, left⟩ : ∃ m, n - k = m + 1 := ⟨n - k - 1, by omega⟩
    rw [left, chase, if_neg fresh, path k (by omega), show n - (k + 1) = m by omega]
    simp only
    rw [List.range_succ, List.map_append, List.reverse_append]
    rfl

/-- A path that ends leads to its end. -/
theorem chase_end (path : Path next x k) (distinct : Distinct x k) (enough : k < n)
    (ends : next (x k) = none) : chase next n [] (x 0) = x k := by
  rw [chase_path path distinct (by omega)]
  obtain ⟨m, left⟩ : ∃ m, n - k = m + 1 := ⟨n - k - 1, by omega⟩
  rw [left, chase]
  split_ifs with there
  · rfl
  · rw [ends]

/-- A path that meets itself leads to where it does. -/
theorem chase_cycle (path : Path next x k) (distinct : Distinct x k) (enough : k ≤ n) {i : ℕ}
    (less : i < k) (meets : x i = x k) : chase next n [] (x 0) = x k := by
  rw [chase_path path distinct enough]
  cases n - k with
  | zero => rfl
  | succ m =>
    have there : x k ∈ ((List.range k).map x).reverse :=
      List.mem_reverse.mpr (List.mem_map.mpr ⟨i, List.mem_range.mpr less, meets⟩)
    rw [chase, if_pos there]

omit [DecidableEq α] in
/-- A path that ends does not meet itself. -/
theorem Path.distinct (path : Path next x k) (ends : next (x k) = none) : Distinct x (k + 1) := by
  intro i j less inside same
  have along : ∀ d, j + d ≤ k → x (i + d) = x (j + d) := by
    intro d
    induction d with
    | zero => exact fun _ => same
    | succ d ih =>
      intro le
      have step := path (i + d) (by omega)
      rw [ih (by omega), path (j + d) (by omega)] at step
      exact (Option.some.inj step).symm
  have back := along (k - j) (by omega)
  rw [show j + (k - j) = k by omega] at back
  have step := path (i + (k - j)) (by omega)
  rw [back, ends] at step
  cases step

/-- Where a path stops: at a place without a value, or at the place that the path meets again
first. -/
def Stops (next : α → Option α) (x : ℕ → α) (k j : ℕ) : Prop :=
  next (x j) = none ∨ ∃ i, j < i ∧ i ≤ k ∧ x j = x i ∧ Distinct x i

/-- With enough steps the loop ends where the path stops, and from there it leads nowhere else. -/
theorem chase_stops (path : Path next x k) (enough : k < n)
    (stops : next (x k) = none ∨ ∃ i < k, x i = x k) :
    ∃ j ≤ k, Stops next x k j ∧ chase next n [] (x 0) = x j ∧ chase next n [] (x j) = x j := by
  by_cases meets : ∃ j ≤ k, ∃ i < j, x i = x j
  · let j := Nat.find meets
    obtain ⟨le, i, less, same⟩ := Nat.find_spec meets
    have distinct : Distinct x j := by
      intro a b first second equal
      exact Nat.find_min meets second ⟨by omega, a, first, equal⟩
    refine ⟨i, by omega, .inr ⟨j, less, le, same, distinct⟩, ?_, ?_⟩
    · rw [chase_cycle (path.mono le) distinct (by omega) less same, same]
    · have turn : Path next (fun d => x (i + d)) (j - i) := fun d small => path (i + d) (by omega)
      have apart : Distinct (fun d => x (i + d)) (j - i) :=
        fun a b first second => distinct (i + a) (i + b) (by omega) (by omega)
      have back : x (i + (j - i)) = x i := by
        rw [show i + (j - i) = j by omega, same]
      have result := @chase_cycle α _ next (fun d => x (i + d)) (j - i) n turn apart (by omega) 0
        (by omega) back.symm
      simp only [Nat.add_zero] at result
      rw [result, back]
  · have ends : next (x k) = none := by
      rcases stops with ends | ⟨i, less, same⟩
      · exact ends
      · exact absurd ⟨k, le_rfl, i, less, same⟩ meets
    have distinct := path.distinct ends
    refine ⟨k, le_rfl, .inl ends, chase_end path (distinct.mono (by omega)) enough ends, ?_⟩
    exact @chase_end α _ next (fun _ => x k) 0 n (fun i less => absurd less (by omega))
      (fun i j _ less => absurd less (by omega)) (by omega) ends

end Chase
