import Mathlib.Data.Multiset.AddSub
import Mathlib.Data.Multiset.MapFold

/-!
# Threads over a shared state

A pool of calls in progress, each at some control point, takes atomic steps in any order.  Runs can
be restricted by a condition on the state, the call that steps and the other calls.
-/

namespace Pool

variable {σ π : Type}

/-- The calls a thread may begin, and one atomic step of a call: the new state, and where the call
goes on unless it has returned. -/
structure Program (σ π : Type) where
  enter : σ → π → Prop
  step : σ → π → σ → Option π → Prop

/-- What is in progress of a call after a step. -/
def left : Option π → Multiset π
  | none => 0
  | some p => {p}

@[simp] theorem left_none : left (none : Option π) = 0 := rfl

@[simp] theorem left_some_add (p : π) (rest : Multiset π) : left (some p) + rest = p ::ₘ rest :=
  Multiset.singleton_add p rest

theorem mem_left {q : π} {next : Option π} : q ∈ left next ↔ next = some q := by
  cases next with
  | none => simp [left]
  | some p => simp [left, eq_comm]

/-- The states a run reaches, with the calls in progress there. -/
inductive Reachable (P : Program σ π) (allowed : σ → π → Multiset π → Prop) (init : σ) :
    σ → Multiset π → Prop
  | start : Reachable P allowed init init 0
  | enter {s : σ} {calls : Multiset π} (p : π) : Reachable P allowed init s calls → P.enter s p →
      Reachable P allowed init s (p ::ₘ calls)
  | step {s s' : σ} {calls : Multiset π} (p : π) (rest : Multiset π) {next : Option π} :
      Reachable P allowed init s calls → calls = p ::ₘ rest → allowed s p rest →
      P.step s p s' next → Reachable P allowed init s' (left next + rest)

variable {P : Program σ π} {allowed : σ → π → Multiset π → Prop} {init : σ}

/-- What holds at the start and is kept when a call begins and when one steps, always holds. -/
theorem Reachable.invariant {Inv : σ → Multiset π → Prop} (start : Inv init 0)
    (enter : ∀ {s calls p}, Inv s calls → P.enter s p → Inv s (p ::ₘ calls))
    (step : ∀ {s s' p rest next}, Inv s (p ::ₘ rest) → allowed s p rest → P.step s p s' next →
      Inv s' (left next + rest))
    {s : σ} {calls : Multiset π} (run : Reachable P allowed init s calls) : Inv s calls := by
  induction run with
  | start => exact start
  | enter p _ begins ih => exact enter ih begins
  | step p rest _ split allow moves ih =>
    subst split
    exact step ih allow moves

/-- An invariant of the shared state together with one of each call: a step has to establish both
for the call that takes it and to keep those of the other calls. -/
theorem Reachable.each {Shared : σ → Prop} {Own : σ → π → Prop} (start : Shared init)
    (enter : ∀ {s p}, Shared s → P.enter s p → Own s p)
    (step : ∀ {s s' p rest next}, Shared s → Own s p → (∀ q ∈ rest, Own s q) →
      allowed s p rest → P.step s p s' next →
      Shared s' ∧ (∀ q, next = some q → Own s' q) ∧ ∀ q ∈ rest, Own s' q)
    {s : σ} {calls : Multiset π} (run : Reachable P allowed init s calls) :
    Shared s ∧ ∀ q ∈ calls, Own s q := by
  let both : σ → Multiset π → Prop := fun s calls => Shared s ∧ ∀ q ∈ calls, Own s q
  refine @invariant σ π P allowed init both ?_ ?_ ?_ s calls run
  · exact ⟨start, fun q mem => absurd mem (Multiset.notMem_zero q)⟩
  · rintro s calls p ⟨shared, own⟩ begins
    refine ⟨shared, fun q mem => ?_⟩
    rcases Multiset.mem_cons.mp mem with rfl | mem
    · exact enter shared begins
    · exact own q mem
  · rintro s s' p rest next ⟨shared, own⟩ allow moves
    obtain ⟨shared', mine, others⟩ := step shared (own p (Multiset.mem_cons_self p rest))
      (fun q mem => own q (Multiset.mem_cons_of_mem mem)) allow moves
    refine ⟨shared', fun q mem => ?_⟩
    rcases Multiset.mem_add.mp mem with mem | mem
    · exact mine q (mem_left.mp mem)
    · exact others q mem

/-! ### Machines and schedules -/

/-- A program whose steps are computed: `access` is the step of a call for an answer of the
environment that `answers` admits. -/
structure Machine (σ π α : Type) where
  enter : σ → π → Prop
  answers : σ → π → α → Prop
  access : α → σ → π → σ × Option π

def Machine.program {α : Type} (M : Machine σ π α) : Program σ π where
  enter := M.enter
  step s p s' next := ∃ a, M.answers s p a ∧ M.access a s p = (s', next)

/-- One entry of a schedule: a call begins, or the call at a position of the pool steps. -/
inductive Move (π α : Type) where
  | enter (p : π)
  | step (k : ℕ) (a : α)

namespace Machine

variable {α : Type} (M : Machine σ π α) (allowed : σ → π → Multiset π → Prop)

/-- Carries out one entry; the call that moved comes to the front. -/
def exec (c : σ × List π) : Move π α → σ × List π
  | .enter p => (c.1, p :: c.2)
  | .step k a =>
    match c.2[k]? with
    | none => c
    | some p => ((M.access a c.1 p).1, (M.access a c.1 p).2.toList ++ c.2.eraseIdx k)

def run (c : σ × List π) (moves : List (Move π α)) : σ × List π := moves.foldl M.exec c

/-- The entry can be carried out. -/
def Admits (c : σ × List π) : Move π α → Prop
  | .enter p => M.enter c.1 p
  | .step k a => ∃ p ∈ c.2[k]?, M.answers c.1 p a ∧ allowed c.1 p (c.2.eraseIdx k)

/-- Each entry of a schedule can be carried out where it stands. -/
def AdmitsAll : σ × List π → List (Move π α) → Prop
  | _, [] => True
  | c, m :: rest => M.Admits allowed c m ∧ AdmitsAll (M.exec c m) rest

instance [∀ s p, Decidable (M.enter s p)] [∀ s p a, Decidable (M.answers s p a)]
    [∀ s p rest, Decidable (allowed s p rest)] (c : σ × List π) (m : Move π α) :
    Decidable (M.Admits allowed c m) :=
  match m with
  | .enter p => inferInstanceAs (Decidable (M.enter c.1 p))
  | .step k a => inferInstanceAs
      (Decidable (∃ p ∈ c.2[k]?, M.answers c.1 p a ∧ allowed c.1 p (c.2.eraseIdx k)))

instance decidableAdmitsAll [∀ s p, Decidable (M.enter s p)] [∀ s p a, Decidable (M.answers s p a)]
    [∀ s p rest, Decidable (allowed s p rest)] :
    ∀ (c : σ × List π) (moves : List (Move π α)), Decidable (M.AdmitsAll allowed c moves)
  | _, [] => inferInstanceAs (Decidable True)
  | c, m :: rest =>
    have := decidableAdmitsAll (M.exec c m) rest
    inferInstanceAs (Decidable (M.Admits allowed c m ∧ M.AdmitsAll allowed (M.exec c m) rest))

variable {M} {allowed}

/-- A schedule that can be carried out is a run. -/
theorem reachable_run {c : σ × List π} {moves : List (Move π α)}
    (reached : Reachable M.program allowed init c.1 c.2) (admits : M.AdmitsAll allowed c moves) :
    Reachable M.program allowed init (M.run c moves).1 (M.run c moves).2 := by
  induction moves generalizing c with
  | nil => exact reached
  | cons m rest ih =>
    refine ih ?_ admits.2
    have here := admits.1
    cases m with
    | enter p => exact reached.enter p here
    | step k a =>
      obtain ⟨p, found, answers, allow⟩ := here
      have found : c.2[k]? = some p := found
      obtain ⟨inside, rfl⟩ := List.getElem?_eq_some_iff.mp found
      have split : (c.2 : Multiset π) = c.2[k] ::ₘ (c.2.eraseIdx k : Multiset π) := by
        rw [Multiset.cons_coe, Multiset.coe_eq_coe]
        exact (List.getElem_cons_eraseIdx_perm inside).symm
      have moved := reached.step c.2[k] _ split allow ⟨a, answers, rfl⟩
      have done : M.exec c (.step k a) = ((M.access a c.1 c.2[k]).1,
          (M.access a c.1 c.2[k]).2.toList ++ c.2.eraseIdx k) := by
        simp only [exec, found]
      rw [done]
      cases next : (M.access a c.1 c.2[k]).2 with
      | none =>
        rw [next] at moved
        simpa using moved
      | some q =>
        rw [next] at moved
        simpa using moved

/-- A schedule from the start. -/
theorem reachable_schedule {init : σ} {moves : List (Move π α)}
    (admits : M.AdmitsAll allowed (init, []) moves) :
    Reachable M.program allowed init (M.run (init, []) moves).1 (M.run (init, []) moves).2 :=
  reachable_run .start admits

end Machine

end Pool
