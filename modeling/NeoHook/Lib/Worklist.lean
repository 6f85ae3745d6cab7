import Mathlib.Data.List.Basic
import Mathlib.Logic.Relation

/-!
# Searches with a worklist

A search visits nodes, each at most once.  A visit changes an accumulator, puts nodes aside for later
and may go on with one node at once.  After a number of visits the search gives up.

A search ends.  When it has not given up, every node that a chain of successors leads to has been
visited; an invariant of the accumulator holds in the end; and so does what a visit establishes for
its node and later visits keep.
-/

namespace Worklist

/-- What a visit does. -/
structure Visit (ν σ : Type) where
  acc : σ
  later : List ν
  onward : Option ν

structure Search (ν σ : Type) where
  acc : σ
  seen : List ν
  work : List ν
  current : Option ν
  steps : ℕ
  exhausted : Bool

variable {ν σ : Type}

/-- A search before its first visit. -/
def Search.start (acc : σ) (node : ν) : Search ν σ := ⟨acc, [], [node], none, 0, false⟩

variable [DecidableEq ν] (visit : σ → ν → Visit ν σ) (giveUp : σ → σ) (budget : ℕ)

/-- One turn of the search; `none` when it has ended. -/
def turn (s : Search ν σ) : Option (Search ν σ) :=
  if s.exhausted then none
  else
    match s.current with
    | none =>
      match s.work with
      | [] => none
      | node :: work => some { s with current := some node, work := work }
    | some node =>
      if node ∈ s.seen then some { s with current := none }
      else if budget < s.steps + 1 then
        some { s with
          acc := giveUp s.acc, seen := node :: s.seen, steps := s.steps + 1, exhausted := true }
      else
        let v := visit s.acc node
        some
          { acc := v.acc, seen := node :: s.seen, work := v.later ++ s.work, current := v.onward,
            steps := s.steps + 1, exhausted := false }

/-- The visits left, and the nodes waiting for theirs. -/
def Search.left (s : Search ν σ) : ℕ × ℕ :=
  (if s.exhausted then 0 else 1 + (budget + 1 - s.steps),
    2 * s.work.length + if s.current.isSome then 1 else 0)

variable {visit giveUp budget}

/-- What a turn does. -/
theorem turn_eq_some {s s' : Search ν σ} (h : turn visit giveUp budget s = some s') :
    s.exhausted = false ∧
      ((∃ node work, s.current = none ∧ s.work = node :: work ∧
          s' = { s with current := some node, work := work }) ∨
        ∃ node, s.current = some node ∧
          ((node ∈ s.seen ∧ s' = { s with current := none }) ∨
            (node ∉ s.seen ∧ budget < s.steps + 1 ∧
              s' = { s with
                acc := giveUp s.acc, seen := node :: s.seen, steps := s.steps + 1,
                exhausted := true }) ∨
            (node ∉ s.seen ∧ s.steps + 1 ≤ budget ∧
              s' = ⟨(visit s.acc node).acc, node :: s.seen, (visit s.acc node).later ++ s.work,
                (visit s.acc node).onward, s.steps + 1, false⟩))) := by
  unfold turn at h
  by_cases ended : s.exhausted = true
  · rw [if_pos ended] at h
    cases h
  rw [if_neg ended] at h
  refine ⟨Bool.not_eq_true _ ▸ ended, ?_⟩
  cases busy : s.current with
  | none =>
    rw [busy] at h
    cases waiting : s.work with
    | nil =>
      rw [waiting] at h
      cases h
    | cons node work =>
      rw [waiting] at h
      exact .inl ⟨node, work, rfl, rfl, (Option.some.inj h).symm⟩
  | some node =>
    rw [busy] at h
    simp only at h
    refine .inr ⟨node, rfl, ?_⟩
    by_cases old : node ∈ s.seen
    · rw [if_pos old] at h
      exact .inl ⟨old, (Option.some.inj h).symm⟩
    rw [if_neg old] at h
    by_cases spent : budget < s.steps + 1
    · rw [if_pos spent] at h
      exact .inr (.inl ⟨old, spent, (Option.some.inj h).symm⟩)
    · rw [if_neg spent] at h
      exact .inr (.inr ⟨old, by omega, (Option.some.inj h).symm⟩)

theorem turn_eq_none {s : Search ν σ} (h : turn visit giveUp budget s = none)
    (going : s.exhausted = false) : s.current = none ∧ s.work = [] := by
  unfold turn at h
  rw [if_neg (by rw [going]; exact Bool.false_ne_true)] at h
  cases busy : s.current with
  | none =>
    rw [busy] at h
    cases waiting : s.work with
    | nil => exact ⟨rfl, rfl⟩
    | cons node work =>
      rw [waiting] at h
      cases h
  | some node =>
    rw [busy] at h
    simp only at h
    split_ifs at h

/-- Every turn leaves fewer visits, or as many and fewer nodes waiting. -/
theorem turn_left {s s' : Search ν σ} (h : turn visit giveUp budget s = some s') :
    Prod.Lex (· < ·) (· < ·) (s'.left budget) (s.left budget) := by
  obtain ⟨going, ⟨node, work, idle, waiting, rfl⟩ | ⟨node, busy, rest⟩⟩ := turn_eq_some h
  · unfold Search.left
    rw [idle, waiting]
    refine Prod.Lex.right _ ?_
    simp only [Option.isSome_some, Option.isSome_none, List.length_cons, if_true,
      Bool.false_eq_true, if_false]
    omega
  · obtain ⟨old, rfl⟩ | ⟨fresh, spent, rfl⟩ | ⟨fresh, room, rfl⟩ := rest
    · unfold Search.left
      rw [busy]
      refine Prod.Lex.right _ ?_
      simp only [Option.isSome_some, Option.isSome_none, if_true, Bool.false_eq_true, if_false]
      omega
    · unfold Search.left
      rw [going]
      refine Prod.Lex.left _ _ ?_
      simp only [Bool.false_eq_true, if_false, if_true]
      omega
    · unfold Search.left
      rw [going]
      refine Prod.Lex.left _ _ ?_
      simp only [Bool.false_eq_true, if_false]
      omega

variable (visit giveUp budget)

/-- The turns of a search until it ends. -/
def explore (s : Search ν σ) : Search ν σ :=
  match _h : turn visit giveUp budget s with
  | none => s
  | some s' => explore s'
termination_by s.left budget
decreasing_by exact turn_left _h

variable {visit giveUp budget}

/-- A property that every turn keeps holds in the end, and the search has ended. -/
theorem explore_rule {I : Search ν σ → Prop}
    (keeps : ∀ s s', I s → turn visit giveUp budget s = some s' → I s') {s : Search ν σ}
    (start : I s) :
    I (explore visit giveUp budget s) ∧
      turn visit giveUp budget (explore visit giveUp budget s) = none := by
  fun_induction explore visit giveUp budget s with
  | case1 s ended => exact ⟨start, ended⟩
  | case2 s s' next ih => exact ih (keeps s s' start next)

/-- A search reaches its end in finitely many turns. -/
theorem explore_turns (s : Search ν σ) :
    Relation.ReflTransGen (fun s s' => turn visit giveUp budget s = some s') s
        (explore visit giveUp budget s) ∧
      turn visit giveUp budget (explore visit giveUp budget s) = none :=
  explore_rule (fun _ _ reached next => reached.tail next) .refl

/-- The search after so many turns. -/
def turns (visit : σ → ν → Visit ν σ) (giveUp : σ → σ) (budget : ℕ) : ℕ → Search ν σ → Search ν σ
  | 0, s => s
  | n + 1, s =>
    match turn visit giveUp budget s with
    | none => s
    | some s' => turns visit giveUp budget n s'

/-- A search is run by as many turns as it takes. -/
theorem explore_turn (n : ℕ) (s : Search ν σ) :
    explore visit giveUp budget s =
      explore visit giveUp budget (turns visit giveUp budget n s) := by
  induction n generalizing s with
  | zero => rfl
  | succ n ih =>
    rw [turns]
    cases next : turn visit giveUp budget s with
    | none => rfl
    | some s' =>
      have once : explore visit giveUp budget s = explore visit giveUp budget s' := by
        rw [explore]
        split
        · rename_i ended
          rw [ended] at next
          cases next
        · rename_i other same
          rw [next] at same
          cases same
          rfl
      rw [once]
      exact ih s'

theorem explore_ended {s : Search ν σ} (ended : turn visit giveUp budget s = none) :
    explore visit giveUp budget s = s := by
  rw [explore]
  split
  · rfl
  · rename_i other same
    rw [ended] at same
    cases same

/-- The search visits the node at some turn. -/
def Visited (visit : σ → ν → Visit ν σ) (giveUp : σ → σ) (budget : ℕ) (start : Search ν σ)
    (node : ν) : Prop :=
  ∃ s, Relation.ReflTransGen (fun s s' => turn visit giveUp budget s = some s') start s ∧
    s.current = some node ∧ turn visit giveUp budget s =
      some ⟨(visit s.acc node).acc, node :: s.seen, (visit s.acc node).later ++ s.work,
        (visit s.acc node).onward, s.steps + 1, false⟩

/-- The search has seen the node or will get to it. -/
def Search.Meets (s : Search ν σ) (node : ν) : Prop :=
  node ∈ s.seen ∨ node ∈ s.work ∨ s.current = some node

/-- No node is lost before the search gives up. -/
theorem Search.Meets.turn {s s' : Search ν σ} {node : ν} (meets : s.Meets node)
    (h : Worklist.turn visit giveUp budget s = some s') : s'.Meets node := by
  obtain ⟨going, ⟨first, work, idle, waiting, rfl⟩ | ⟨first, busy, rest⟩⟩ := turn_eq_some h
  · rcases meets with seen | later | here
    · exact .inl seen
    · rw [waiting] at later
      rcases List.mem_cons.mp later with rfl | later
      · exact .inr (.inr rfl)
      · exact .inr (.inl later)
    · rw [idle] at here
      cases here
  · obtain ⟨old, rfl⟩ | ⟨fresh, spent, rfl⟩ | ⟨fresh, room, rfl⟩ := rest
    · rcases meets with seen | later | here
      · exact .inl seen
      · exact .inr (.inl later)
      · rw [busy] at here
        cases here
        exact .inl old
    · rcases meets with seen | later | here
      · exact .inl (List.mem_cons_of_mem _ seen)
      · exact .inr (.inl later)
      · exact .inr (.inr here)
    · rcases meets with seen | later | here
      · exact .inl (List.mem_cons_of_mem _ seen)
      · exact .inr (.inl (List.mem_append_right _ later))
      · rw [busy] at here
        cases here
        exact .inl List.mem_cons_self

section Rules

variable {Inv : σ → Prop} {Next : ν → ν → Prop} {P : ν → σ → Prop}

/-- Rules of a search: its accumulator keeps an invariant, a visit offers the successors of its node,
and it establishes a property of its node that later visits keep. -/
structure Explores (visit : σ → ν → Visit ν σ) (giveUp : σ → σ) (Inv : σ → Prop)
    (Next : ν → ν → Prop) (P : ν → σ → Prop) : Prop where
  keeps : ∀ acc node, Inv acc → Inv (visit acc node).acc
  gives : ∀ acc, Inv acc → Inv (giveUp acc)
  offers : ∀ acc node next, Inv acc → Next node next →
    next ∈ (visit acc node).later ∨ (visit acc node).onward = some next
  does : ∀ acc node, Inv acc → P node (visit acc node).acc
  stays : ∀ acc node other, Inv acc → P other acc → P other (visit acc node).acc

/-- The search on its way. -/
structure Kept (visit : σ → ν → Visit ν σ) (giveUp : σ → σ) (budget : ℕ)
    (start : Search ν σ) (Inv : σ → Prop) (Next : ν → ν → Prop) (P : ν → σ → Prop)
    (s : Search ν σ) : Prop where
  inv : Inv s.acc
  run : Relation.ReflTransGen (fun s s' => turn visit giveUp budget s = some s') start s
  visited : s.exhausted = false → ∀ node ∈ s.seen, Visited visit giveUp budget start node
  closed : s.exhausted = false → ∀ node ∈ s.seen, ∀ next, Next node next → s.Meets next
  done : s.exhausted = false → ∀ node ∈ s.seen, P node s.acc

theorem Explores.turn (rules : Explores visit giveUp Inv Next P) {start s s' : Search ν σ}
    (kept : Kept visit giveUp budget start Inv Next P s)
    (h : Worklist.turn visit giveUp budget s = some s') :
    Kept visit giveUp budget start Inv Next P s' := by
  have run := kept.run.tail h
  have meets : ∀ node, s.Meets node → s'.Meets node := fun node meets => meets.turn h
  obtain ⟨going, ⟨node, work, idle, waiting, rfl⟩ | ⟨node, busy, rest⟩⟩ := turn_eq_some h
  · exact
      { inv := kept.inv
        run := run
        visited := kept.visited
        closed := fun going node seen next succ => meets next (kept.closed going node seen next succ)
        done := kept.done }
  · obtain ⟨old, rfl⟩ | ⟨fresh, spent, rfl⟩ | ⟨fresh, room, rfl⟩ := rest
    · exact
        { inv := kept.inv
          run := run
          visited := kept.visited
          closed := fun going node seen next succ =>
            meets next (kept.closed going node seen next succ)
          done := kept.done }
    · exact
        { inv := rules.gives _ kept.inv
          run := run
          visited := nofun
          closed := nofun
          done := nofun }
    · refine
        { inv := rules.keeps _ _ kept.inv
          run := run
          visited := fun _ other seen => ?_
          closed := fun _ other seen next succ => ?_
          done := fun _ other seen => ?_ }
      · rcases List.mem_cons.mp seen with rfl | before
        · exact ⟨s, kept.run, busy, h⟩
        · exact kept.visited going other before
      · rcases List.mem_cons.mp seen with rfl | before
        · rcases rules.offers s.acc other next kept.inv succ with later | onward
          · exact .inr (.inl (List.mem_append_left _ later))
          · exact .inr (.inr onward)
        · exact meets next (kept.closed going other before next succ)
      · rcases List.mem_cons.mp seen with rfl | before
        · exact rules.does _ _ kept.inv
        · exact rules.stays _ _ _ kept.inv (kept.done going other before)

/-- A search that has ended without giving up has visited whatever its first node leads to. -/
theorem Explores.explore (rules : Explores visit giveUp Inv Next P) {acc : σ} {first : ν}
    (start : Inv acc) :
    let last := Worklist.explore visit giveUp budget (Search.start acc first)
    Inv last.acc ∧
      (last.exhausted = false → ∀ node, Relation.ReflTransGen Next first node →
        Visited visit giveUp budget (Search.start acc first) node ∧ P node last.acc) := by
  intro last
  have begins : Kept visit giveUp budget (Search.start acc first) Inv Next P
      (Search.start acc first) :=
    { inv := start, run := .refl, visited := fun _ _ => nofun,
      closed := fun _ _ => nofun, done := fun _ _ => nofun }
  obtain ⟨kept, ended⟩ := explore_rule (fun s s' kept next => rules.turn kept next) begins
  have meets : last.Meets first :=
    (explore_rule (I := fun s => s.Meets first) (fun _ _ meets next => meets.turn next)
      (.inr (.inl List.mem_cons_self))).1
  refine ⟨kept.inv, fun going node reached => ?_⟩
  have settled : ∀ node, last.Meets node → node ∈ last.seen := by
    intro node meets
    obtain ⟨idle, finished⟩ := turn_eq_none ended going
    rcases meets with seen | later | here
    · exact seen
    · rw [finished] at later
      cases later
    · rw [idle] at here
      cases here
  have seen : node ∈ last.seen := by
    induction reached with
    | refl => exact settled first meets
    | tail _ next ih => exact settled _ (kept.closed going _ ih _ next)
  exact ⟨kept.visited going node seen, kept.done going node seen⟩

end Rules

end Worklist
