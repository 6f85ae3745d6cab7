import Mathlib.Data.List.Basic

/-!
# Computations with a log

A computation that returns a value and a log of what it did on the way.  `All` says that every entry
of the log has a property; it is proved along the steps of the computation, with the values the
earlier steps returned at hand.
-/

/-- A value with the log of the computation that returned it. -/
structure Logged (ε α : Type) where
  value : α
  log : List ε

namespace Logged

variable {ε α β σ : Type}

instance : Monad (Logged ε) where
  pure a := ⟨a, []⟩
  bind x f := ⟨(f x.value).value, x.log ++ (f x.value).log⟩

/-- The computation that logs one entry. -/
def tell (e : ε) : Logged ε Unit := ⟨(), [e]⟩

@[simp] theorem value_pure (a : α) : (pure a : Logged ε α).value = a := rfl

@[simp] theorem value_bind (x : Logged ε α) (f : α → Logged ε β) :
    (x >>= f).value = (f x.value).value := rfl

@[simp] theorem value_tell (e : ε) : (tell e).value = () := rfl

/-- One turn of a search: the rest runs only when the turn has no result. -/
def orElse (turn : Logged ε (Option α)) (rest : Logged ε α) : Logged ε α := do
  match ← turn with
  | some result => return result
  | none => rest

theorem value_orElse (turn : Logged ε (Option α)) (rest : Logged ε α) :
    (turn.orElse rest).value = turn.value.getD rest.value := by
  unfold orElse
  rw [value_bind]
  cases turn.value <;> rfl

/-- Every entry of the log has the property. -/
def All (P : ε → Prop) (x : Logged ε α) : Prop := ∀ e ∈ x.log, P e

variable {P : ε → Prop}

theorem all_pure (a : α) : (pure a : Logged ε α).All P := nofun

theorem all_tell {e : ε} (entry : P e) : (tell e).All P := by
  intro other there
  rw [List.mem_singleton.mp there]
  exact entry

theorem All.bind {x : Logged ε α} {f : α → Logged ε β} (first : x.All P)
    (rest : (f x.value).All P) : (x >>= f).All P := by
  intro e there
  rcases List.mem_append.mp there with early | late
  · exact first e early
  · exact rest e late

theorem All.orElse {turn : Logged ε (Option α)} {rest : Logged ε α} (first : turn.All P)
    (later : turn.value = none → rest.All P) : (turn.orElse rest).All P := by
  refine first.bind ?_
  cases result : turn.value with
  | none => exact later result
  | some a => exact all_pure a

theorem All.mono {Q : ε → Prop} {x : Logged ε α} (all : x.All P) (weaker : ∀ e, P e → Q e) :
    x.All Q := fun e there => weaker e (all e there)

/-- A loop whose turns log only entries with the property. -/
theorem all_foldlM {f : σ → α → Logged ε σ} {l : List α}
    (turn : ∀ s, ∀ a ∈ l, (f s a).All P) (s : σ) : (l.foldlM f s).All P := by
  induction l generalizing s with
  | nil => exact all_pure s
  | cons a rest ih =>
    rw [List.foldlM_cons]
    exact (turn s a List.mem_cons_self).bind
      (ih (fun s b there => turn s b (List.mem_cons_of_mem a there)) _)

end Logged
