import Mathlib.Data.List.Basic

/-!
# Computations that index slices

A computation may find nothing, as with `Option`, and may index a slice out of range, which ends the
program.  `Safe` says that it does not, and what holds of the value it finds; it is proved along the
steps of the computation.
-/

/-- A slice was indexed out of its range. -/
inductive SliceError where
  | outOfRange
  deriving DecidableEq

/-- A computation that finds a value or nothing, unless it indexes out of range. -/
abbrev Sliced := OptionT (Except SliceError)

namespace Sliced

variable {α β σ : Type}

def ofOption (o : Option α) : Sliced α := OptionT.mk (.ok o)

/-- The computation that indexes out of range. -/
def fault : Sliced α := OptionT.mk (.error .outOfRange)

/-- What the computation finds, if anything. -/
def attempt (x : Sliced α) : Sliced (Option α) := OptionT.mk (x.run.map some)

/-- `&l[i..j]`. -/
def slice (l : List α) (i j : ℕ) : Sliced (List α) :=
  if i ≤ j ∧ j ≤ l.length then pure ((l.drop i).take (j - i)) else fault

/-- `l[i] = a`. -/
def assign (l : List α) (i : ℕ) (a : α) : Sliced (List α) :=
  if i < l.length then pure (l.set i a) else fault

/-- No index is out of range, and the value, if one is found, has the property. -/
def Safe (x : Sliced α) (Q : α → Prop) : Prop :=
  match x.run with
  | .error _ => False
  | .ok none => True
  | .ok (some a) => Q a

variable {Q : α → Prop} {R : β → Prop}

theorem safe_pure {a : α} (holds : Q a) : Safe (pure a) Q := holds

theorem Safe.bind {x : Sliced α} {f : α → Sliced β} (first : Safe x Q)
    (rest : ∀ a, Q a → Safe (f a) R) : Safe (x >>= f) R := by
  unfold Safe at first ⊢
  rw [OptionT.run_bind]
  cases found : x.run with
  | error e =>
    rw [found] at first
    exact first.elim
  | ok o =>
    rw [found] at first
    cases o with
    | none => trivial
    | some a => exact rest a first

theorem Safe.mono {Q' : α → Prop} {x : Sliced α} (safe : Safe x Q) (weaker : ∀ a, Q a → Q' a) :
    Safe x Q' := by
  unfold Safe at safe ⊢
  split
  · rename_i found
    rw [found] at safe
    exact safe
  · trivial
  · rename_i a found
    rw [found] at safe
    exact weaker a safe

theorem Safe.attempt {x : Sliced α} (safe : Safe x Q) :
    Safe x.attempt fun o => ∀ a, o = some a → Q a := by
  unfold Safe at safe ⊢
  unfold Sliced.attempt
  cases found : x.run with
  | error e =>
    rw [found] at safe
    exact safe
  | ok o =>
    rw [found] at safe
    intro a same
    cases same
    exact safe

/-- A value with the property is found. -/
def Finds (x : Sliced α) (Q : α → Prop) : Prop := ∃ a, x.run = .ok (some a) ∧ Q a

theorem Finds.safe {x : Sliced α} (finds : Finds x Q) : Safe x Q := by
  obtain ⟨a, found, holds⟩ := finds
  unfold Safe
  rw [found]
  exact holds

theorem finds_pure {a : α} (holds : Q a) : Finds (pure a) Q := ⟨a, rfl, holds⟩

theorem run_bind_of_found {x : Sliced α} {a : α} (found : x.run = .ok (some a))
    (f : α → Sliced β) : (x >>= f).run = (f a).run := by
  rw [OptionT.run_bind, found]
  rfl

theorem run_ofOption {o : Option α} {a : α} (found : o = some a) :
    (ofOption o).run = .ok (some a) := congrArg Except.ok found

theorem run_slice {l : List α} {i j : ℕ} (order : i ≤ j) (inside : j ≤ l.length) :
    (slice l i j).run = .ok (some ((l.drop i).take (j - i))) := by
  unfold slice
  rw [if_pos ⟨order, inside⟩]
  rfl

theorem safe_bind_iff {x : Sliced α} {f : α → Sliced β} {a : α}
    (found : x.run = .ok (some a)) : Safe (x >>= f) R ↔ Safe (f a) R := by
  unfold Safe
  rw [run_bind_of_found found]

theorem safe_some_bind_iff {f : α → Sliced β} {a : α} :
    Safe (ofOption (some a) >>= f) R ↔ Safe (f a) R := safe_bind_iff rfl

theorem safe_bind_pure_iff {x : Sliced α} {f : α → β} :
    Safe (x >>= fun a => pure (f a)) (fun _ => True) ↔ Safe x fun _ => True := by
  unfold Safe
  rw [OptionT.run_bind]
  cases x.run with
  | error e => rfl
  | ok o => cases o <;> rfl

/-- Nothing is done with a value that is not found. -/
theorem safe_bind_of_lost {x : Sliced α} (f : α → Sliced β) (lost : x.run = .ok none) :
    Safe (x >>= f) R := by
  unfold Safe
  rw [OptionT.run_bind, lost]
  trivial

theorem Finds.bind {x : Sliced α} {f : α → Sliced β} (first : Finds x Q)
    (rest : ∀ a, Q a → Finds (f a) R) : Finds (x >>= f) R := by
  obtain ⟨a, found, holds⟩ := first
  obtain ⟨b, found', holds'⟩ := rest a holds
  exact ⟨b, (run_bind_of_found found f).trans found', holds'⟩

theorem finds_ofOption {o : Option α} {a : α} (found : o = some a) (holds : Q a) :
    Finds (ofOption o) Q := ⟨a, congrArg Except.ok found, holds⟩

theorem finds_slice {l : List α} {i j : ℕ} (order : i ≤ j) (inside : j ≤ l.length) :
    Finds (slice l i j) fun part => part.length = j - i := by
  unfold slice
  rw [if_pos ⟨order, inside⟩]
  refine finds_pure ?_
  rw [List.length_take, List.length_drop]
  omega

/-- A safe computation that starts with a slice stays inside the list with it. -/
theorem Safe.of_slice {l : List α} {i j : ℕ} {f : List α → Sliced β}
    (safe : Safe (slice l i j >>= f) R) :
    j ≤ l.length ∧ Safe (f ((l.drop i).take (j - i))) R := by
  unfold slice at safe
  by_cases inside : i ≤ j ∧ j ≤ l.length
  · rw [if_pos inside] at safe
    exact ⟨inside.2, safe⟩
  · rw [if_neg inside] at safe
    exact safe.elim

theorem finds_assign {l : List α} {i : ℕ} {a : α} (inside : i < l.length) :
    Finds (assign l i a) fun l' => l'.length = l.length := by
  unfold assign
  rw [if_pos inside]
  exact finds_pure List.length_set

/-- A loop whose turns keep an invariant. -/
theorem safe_foldlM {I : σ → Prop} {f : σ → α → Sliced σ} {l : List α}
    (turn : ∀ s, ∀ a ∈ l, I s → Safe (f s a) I) {s : σ} (start : I s) : Safe (l.foldlM f s) I := by
  induction l generalizing s with
  | nil => exact safe_pure start
  | cons a rest ih =>
    rw [List.foldlM_cons]
    exact (turn s a List.mem_cons_self start).bind fun s' kept =>
      ih (fun s b there => turn s b (List.mem_cons_of_mem a there)) kept

end Sliced
