import NeoHook.Lib.Bag

/-!
# Reentrancy guards

`reentrancy.rs`: each use of `reentrancy_guard!` has a flag in every thread, which `enter` sets and
the drop of the guard clears.  A guard never leaves its thread, but its owner may keep it beyond the
call that entered, drop it early, or forget it.

In every run of all threads the flag of a call site is set in a thread just while the one guard of the
site lives there, so `enter` fails exactly then.  Where a detour keeps its guard until it returns, as
documented, the guard goes to the outermost call, and a thread that has returned from everything has
no flag set.
-/

namespace NeoHook

namespace Reentrancy

/-- A call site of the macro in a thread. -/
structure Site where
  thread : ℕ
  key : ℕ
  deriving DecidableEq

/-- The flags, the guards that live, and those that were forgotten. -/
structure Guards where
  flag : Site → Bool
  alive : Multiset Site
  forgotten : Multiset Site

namespace Guards

def initial : Guards := ⟨fun _ => false, 0, 0⟩

/-- `ReentrancyGuard::enter`: whether there is a guard. -/
def enter (g : Guards) (site : Site) : Bool × Guards :=
  if g.flag site then (false, g)
  else (true, { g with flag := Function.update g.flag site true, alive := site ::ₘ g.alive })

/-- `drop` of a guard of the site. -/
def drop (g : Guards) (site : Site) : Guards :=
  { g with flag := Function.update g.flag site false, alive := g.alive.erase site }

/-- `mem::forget` of a guard of the site. -/
def forget (g : Guards) (site : Site) : Guards :=
  { g with alive := g.alive.erase site, forgotten := site ::ₘ g.forgotten }

/-- A step of some thread; a guard that is dropped or forgotten lives. -/
inductive Step : Guards → Guards → Prop
  | enter (g : Guards) (site : Site) : Step g (g.enter site).2
  | drop {g : Guards} {site : Site} (alive : site ∈ g.alive) : Step g (g.drop site)
  | forget {g : Guards} {site : Site} (alive : site ∈ g.alive) : Step g (g.forget site)

/-- A run of all threads. -/
def Reachable (g : Guards) : Prop := Relation.ReflTransGen Step initial g

/-- A site has one guard at most, and its flag tells whether it has one. -/
structure Inv (g : Guards) : Prop where
  single : (g.alive + g.forgotten).Nodup
  flag : ∀ site, g.flag site = true ↔ site ∈ g.alive + g.forgotten

variable {g g' : Guards} {site : Site}

theorem Inv.enter (inv : g.Inv) (site : Site) : (g.enter site).2.Inv := by
  unfold Guards.enter
  by_cases set : g.flag site = true
  · rw [if_pos set]
    exact inv
  · rw [if_neg set]
    have fresh : site ∉ g.alive + g.forgotten := fun mem => set ((inv.flag site).mpr mem)
    constructor
    · rw [Multiset.cons_add]
      exact Multiset.nodup_cons.mpr ⟨fresh, inv.single⟩
    · intro other
      change Function.update g.flag site true other = true ↔ other ∈ site ::ₘ g.alive + g.forgotten
      rw [Multiset.cons_add, Multiset.mem_cons]
      by_cases same : other = site
      · rw [same, Function.update_self]
        exact iff_of_true rfl (.inl rfl)
      · rw [Function.update_of_ne same, inv.flag other]
        exact ⟨.inr, fun either => either.resolve_left same⟩

theorem Inv.drop (inv : g.Inv) (alive : site ∈ g.alive) : (g.drop site).Inv := by
  have moved : g.alive.erase site + g.forgotten = (g.alive + g.forgotten).erase site :=
    (Multiset.erase_add_left_pos _ alive).symm
  constructor
  · change (g.alive.erase site + g.forgotten).Nodup
    rw [moved]
    exact inv.single.erase site
  · intro other
    change Function.update g.flag site false other = true ↔
      other ∈ g.alive.erase site + g.forgotten
    rw [moved, inv.single.mem_erase_iff]
    by_cases same : other = site
    · rw [same, Function.update_self]
      exact iff_of_false Bool.false_ne_true fun both => both.1 rfl
    · rw [Function.update_of_ne same, inv.flag other]
      exact ⟨fun mem => ⟨same, mem⟩, fun both => both.2⟩

theorem Inv.forget (inv : g.Inv) (alive : site ∈ g.alive) : (g.forget site).Inv := by
  have moved : g.alive.erase site + site ::ₘ g.forgotten = g.alive + g.forgotten := by
    rw [Multiset.add_cons, ← Multiset.cons_add, Multiset.cons_erase alive]
  constructor
  · change (g.alive.erase site + site ::ₘ g.forgotten).Nodup
    rw [moved]
    exact inv.single
  · intro other
    change g.flag other = true ↔ other ∈ g.alive.erase site + site ::ₘ g.forgotten
    rw [moved]
    exact inv.flag other

theorem Inv.step (step : Step g g') (inv : g.Inv) : g'.Inv := by
  cases step with
  | enter => exact inv.enter _
  | drop alive => exact inv.drop alive
  | forget alive => exact inv.forget alive

theorem Reachable.inv (run : g.Reachable) : g.Inv := by
  induction run with
  | refl => exact ⟨Multiset.nodup_zero, fun site => by simp [initial]⟩
  | tail _ step ih => exact ih.step step

/-- In every run of all threads a site has one guard at most, its flag is set just while it has one,
and `enter` succeeds just when it has none. -/
theorem guard_single (run : g.Reachable) (site : Site) :
    (g.alive + g.forgotten).count site ≤ 1 ∧
      (g.flag site = true ↔ site ∈ g.alive + g.forgotten) ∧
      ((g.enter site).1 = true ↔ site ∉ g.alive + g.forgotten) := by
  have inv := run.inv
  refine ⟨Multiset.nodup_iff_count_le_one.mp inv.single site, inv.flag site, ?_⟩
  rw [← inv.flag site]
  unfold enter
  split_ifs with set
  · exact iff_of_false not_false (not_not_intro set)
  · exact iff_of_true rfl set

theorem forgotten_guard_blocks :
    ((initial.enter ⟨1, 7⟩).2.forget ⟨1, 7⟩).Reachable ∧
      (((initial.enter ⟨1, 7⟩).2.forget ⟨1, 7⟩).enter ⟨1, 7⟩).1 = false := by
  have run : ((initial.enter ⟨1, 7⟩).2.forget ⟨1, 7⟩).Reachable :=
    .tail (.single (.enter initial ⟨1, 7⟩)) (.forget (Multiset.mem_singleton_self _))
  refine ⟨run, Bool.eq_false_iff.mpr fun entered => ?_⟩
  refine (guard_single run ⟨1, 7⟩).2.2.mp entered ?_
  exact Multiset.mem_add.mpr (.inr (Multiset.mem_singleton_self _))

end Guards

/-! ### Detours that keep their guard until they return -/

/-- A call of a detour, and whether it has the guard of its call site. -/
structure Frame where
  key : ℕ
  guarded : Bool

/-- The guards, and the calls each thread is in, innermost first. -/
structure Calls where
  guards : Guards
  stack : ℕ → List Frame

namespace Calls

def initial : Calls := ⟨Guards.initial, fun _ => []⟩

/-- A thread calls a detour, which tries to enter. -/
def call (c : Calls) (thread key : ℕ) : Calls :=
  let entered := c.guards.enter ⟨thread, key⟩
  ⟨entered.2, Function.update c.stack thread (⟨key, entered.1⟩ :: c.stack thread)⟩

/-- The innermost call of a thread returns, or unwinds, and drops its guard if it has one. -/
def leave (c : Calls) (thread : ℕ) : Calls :=
  match c.stack thread with
  | [] => c
  | f :: rest =>
    ⟨if f.guarded then c.guards.drop ⟨thread, f.key⟩ else c.guards,
      Function.update c.stack thread rest⟩

inductive Step : Calls → Calls → Prop
  | call (c : Calls) (thread key : ℕ) : Step c (c.call thread key)
  | leave (c : Calls) (thread : ℕ) : Step c (c.leave thread)

def Reachable (c : Calls) : Prop := Relation.ReflTransGen Step initial c

/-- In each suffix of the stack the guard of a key is with its outermost call. -/
def Outermost : List Frame → Prop
  | [] => True
  | f :: outer => (f.guarded = true ↔ ∀ f' ∈ outer, f'.key ≠ f.key) ∧ Outermost outer

structure Inv (c : Calls) : Prop where
  guards : c.guards.Reachable
  kept : c.guards.forgotten = 0
  outermost : ∀ thread, Outermost (c.stack thread)
  flag : ∀ thread key, c.guards.flag ⟨thread, key⟩ = true ↔ ∃ f ∈ c.stack thread, f.key = key

variable {c c' : Calls}

theorem Inv.call (inv : c.Inv) (thread key : ℕ) : (c.call thread key).Inv := by
  have fresh : (c.guards.enter ⟨thread, key⟩).1 = true ↔ ∀ f ∈ c.stack thread, f.key ≠ key := by
    have flag := inv.flag thread key
    unfold Guards.enter
    split_ifs with set
    · refine iff_of_false not_false fun none => ?_
      obtain ⟨f, mem, same⟩ := flag.mp set
      exact none f mem same
    · exact iff_of_true rfl fun f mem same => set (flag.mpr ⟨f, mem, same⟩)
  have flags : ∀ site, (c.guards.enter ⟨thread, key⟩).2.flag site =
      (c.guards.flag site || decide (site = ⟨thread, key⟩)) := by
    intro site
    unfold Guards.enter
    split_ifs with set
    · by_cases same : site = ⟨thread, key⟩
      · rw [same, set]
        rfl
      · simp [same]
    · by_cases same : site = ⟨thread, key⟩
      · simp [same]
      · simp [same]
  refine ⟨inv.guards.tail (.enter _ _), ?_, fun other => ?_, fun other key' => ?_⟩
  · change (c.guards.enter ⟨thread, key⟩).2.forgotten = 0
    unfold Guards.enter
    split_ifs <;> exact inv.kept
  · change Outermost (Function.update c.stack thread _ other)
    by_cases same : other = thread
    · rw [same, Function.update_self]
      exact ⟨fresh, inv.outermost thread⟩
    · rw [Function.update_of_ne same]
      exact inv.outermost other
  · change (c.guards.enter ⟨thread, key⟩).2.flag ⟨other, key'⟩ = true ↔
      ∃ f ∈ Function.update c.stack thread _ other, f.key = key'
    rw [flags, Bool.or_eq_true, inv.flag, decide_eq_true_eq, Site.mk.injEq]
    by_cases same : other = thread
    · rw [same, Function.update_self, List.exists_mem_cons_iff, or_comm]
      exact or_congr_left ⟨fun both => both.2.symm, fun here => ⟨rfl, here.symm⟩⟩
    · rw [Function.update_of_ne same]
      exact or_iff_left fun both => same both.1

theorem Inv.leave (inv : c.Inv) (thread : ℕ) : (c.leave thread).Inv := by
  unfold Calls.leave
  cases stack : c.stack thread with
  | nil => exact inv
  | cons f rest =>
    have outermost := inv.outermost thread
    rw [stack] at outermost
    obtain ⟨guarded, outer⟩ := outermost
    have held : c.guards.flag ⟨thread, f.key⟩ = true :=
      (inv.flag thread f.key).mpr ⟨f, stack ▸ List.mem_cons_self, rfl⟩
    have others : ∀ other, Outermost (Function.update c.stack thread rest other) := by
      intro other
      by_cases same : other = thread
      · rw [same, Function.update_self]
        exact outer
      · rw [Function.update_of_ne same]
        exact inv.outermost other
    -- The key is on the stack after the call exactly if the guard was not its own.
    have shadowed : f.guarded = false ↔ ∃ f' ∈ rest, f'.key = f.key := by
      rw [← Bool.not_eq_true, guarded]
      simp only [not_forall, not_not, exists_prop]
    have flags : ∀ (g : Guards), (∀ site, site ≠ ⟨thread, f.key⟩ → g.flag site = c.guards.flag site) →
        (g.flag ⟨thread, f.key⟩ = true ↔ f.guarded = false) → ∀ other key,
          g.flag ⟨other, key⟩ = true ↔ ∃ f' ∈ Function.update c.stack thread rest other, f'.key = key := by
      intro g frame here other key
      by_cases same : other = thread
      · rw [same, Function.update_self]
        by_cases own : key = f.key
        · rw [own, here, shadowed]
        · rw [frame _ fun eq => own (congrArg Site.key eq), inv.flag, stack,
            List.exists_mem_cons_iff]
          exact or_iff_right fun eq => own eq.symm
      · rw [Function.update_of_ne same, frame _ fun eq => same (congrArg Site.thread eq), inv.flag]
    change (⟨if f.guarded then c.guards.drop ⟨thread, f.key⟩ else c.guards,
      Function.update c.stack thread rest⟩ : Calls).Inv
    cases kind : f.guarded with
    | true =>
      rw [if_pos rfl]
      have alive : (⟨thread, f.key⟩ : Site) ∈ c.guards.alive := by
        have mem := (inv.guards.inv.flag ⟨thread, f.key⟩).mp held
        rwa [inv.kept, Multiset.add_zero] at mem
      refine ⟨inv.guards.tail (.drop alive), inv.kept, others,
        flags _ (fun site ne => Function.update_of_ne ne _ _) ?_⟩
      change Function.update c.guards.flag ⟨thread, f.key⟩ false _ = true ↔ _
      rw [kind, Function.update_self]
      decide
    | false =>
      rw [if_neg Bool.false_ne_true]
      exact ⟨inv.guards, inv.kept, others, flags _ (fun _ _ => rfl) (iff_of_true held kind)⟩

theorem Inv.step (step : Step c c') (inv : c.Inv) : c'.Inv := by
  cases step with
  | call thread key => exact inv.call thread key
  | leave thread => exact inv.leave thread

theorem Reachable.inv (run : c.Reachable) : c.Inv := by
  induction run with
  | refl => exact ⟨.refl, rfl, fun _ => trivial, fun _ _ => by simp [initial, Guards.initial]⟩
  | tail _ step ih => exact ih.step step

/-- In every run of all threads in which detours keep their guards until they return, a call has the
guard of its site just when no call around it in its thread is of the same site, and a flag is set
just while its thread is in a call of the site. -/
theorem guards_outermost (run : c.Reachable) (thread : ℕ) :
    (∀ inner f outer, c.stack thread = inner ++ f :: outer →
      (f.guarded = true ↔ ∀ f' ∈ outer, f'.key ≠ f.key)) ∧
      ∀ key, c.guards.flag ⟨thread, key⟩ = true ↔ ∃ f ∈ c.stack thread, f.key = key := by
  refine ⟨fun inner f outer eq => ?_, run.inv.flag thread⟩
  have whole := run.inv.outermost thread
  rw [eq] at whole
  clear eq
  induction inner with
  | nil => exact whole.1
  | cons first rest ih => exact ih whole.2

theorem recursive_call_forwards :
    ((((initial.call 1 7).call 1 9).call 1 7).stack 1).map Frame.guarded = [false, true, true] ∧
      ∀ key, ((((initial.call 1 7).call 1 9).call 1 7).guards.flag ⟨1, key⟩ = true ↔
        key = 7 ∨ key = 9) := by
  have run : (((initial.call 1 7).call 1 9).call 1 7).Reachable :=
    ((Relation.ReflTransGen.single (.call initial 1 7)).tail (.call _ 1 9)).tail (.call _ 1 7)
  refine ⟨by decide, fun key => ?_⟩
  rw [(guards_outermost run 1).2 key]
  change (∃ f ∈ [(⟨7, false⟩ : Frame), ⟨9, true⟩, ⟨7, true⟩], f.key = key) ↔ _
  simp only [List.mem_cons, List.not_mem_nil, or_false, exists_eq_or_imp, exists_eq_left]
  omega

end Calls

end Reentrancy

end NeoHook
