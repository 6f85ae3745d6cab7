import NeoHook.CodeBytes
import NeoHook.HookFrames

/-!
# The registry of named hooks

`registry.rs`: a table from names to hooks that its owner has moved in, on top of the calls of the
library.  Every operation is a sequence of those calls on hooks that the registry owns, so what holds
of runs of the library holds with a registry in between.
-/

namespace NeoHook

/-- A hook the registry owns, by the place it was moved in from, and its registration number. -/
structure SendHook where
  hook : Place
  seq : ℕ
  deriving DecidableEq

/-- The process with the statics of `registry.rs`.  The order of the table is the hash map's and says
nothing. -/
structure RegistryState where
  state : State
  registry : Option (List (String × SendHook))
  nextSeq : ℕ

namespace RegistryState

variable (r : RegistryState) (E : Env)

def entries : List (String × SendHook) := r.registry.getD []

def get (name : String) : Option SendHook := (r.entries.find? fun e => e.1 = name).map (·.2)

/-- Makes a call of the library. -/
def call (op : Op) : RegistryState := { r with state := r.state.step E op }

/-- `register`: the hook stored under the name before is handed back. -/
def register (name : String) (hook : Place) : Option Place × RegistryState :=
  ((r.get name).map (·.hook),
    { r with
      registry := some ((name, ⟨hook, r.nextSeq⟩) :: r.entries.eraseP fun e => e.1 = name)
      nextSeq := r.nextSeq + 1 })

/-- `take`: the hook is handed back as it is. -/
def take (name : String) : Option Place × RegistryState :=
  ((r.get name).map (·.hook),
    { r with registry := r.registry.map fun m => m.eraseP fun e => e.1 = name })

/-- Whether the hook at a place answers a toggle with an error. -/
def toggled (place : Place) (toggle : Hook → Except DetourError (Code × Tables × Hook)) :
    Except DetourError Bool :=
  match r.state.process.hookAt place with
  | none => .ok true
  | some h => (toggle h).map fun _ => true

def enable (name : String) (ok : Bool) : Except DetourError Bool × RegistryState :=
  match r.get name with
  | none => (.ok false, r)
  | some h =>
    (r.toggled h.hook (Hook.enable E.modules r.state.process.code r.state.process.tables ok),
      r.call E (.enable h.hook ok))

def disable (name : String) (ok : Bool) : Except DetourError Bool × RegistryState :=
  match r.get name with
  | none => (.ok false, r)
  | some h =>
    (r.toggled h.hook (Hook.disable E.modules r.state.process.code r.state.process.tables ok),
      r.call E (.disable h.hook ok))

def isEnabled (name : String) : Option Bool :=
  (r.get name).bind fun h => (r.state.process.hookAt h.hook).map Hook.isEnabled

/-- `unhook`, up to the error of the hook: the hook is taken out first. -/
def unhook (name : String) (ok dropOk retargetOk : Bool) : Bool × RegistryState :=
  match r.take name with
  | (none, r) => (false, r)
  | (some hook, r) => (true, r.call E (.unhook hook ok dropOk retargetOk))

/-- The hooks of the table, newest first. -/
def newestFirst : List SendHook :=
  (r.entries.map (·.2)).insertionSort fun a b => b.seq ≤ a.seq

/-- `unhook_all`; the OS answers for each hook whether the writes that restore its target succeed. -/
def unhookAll (os : Place → Bool × Bool) : ℕ × RegistryState :=
  (r.newestFirst.length,
    { r with
      state := r.newestFirst.foldl
        (fun s h => s.step E (.drop h.hook (os h.hook).1 (os h.hook).2)) r.state
      registry := none })

def names : List String := r.entries.map (·.1)

def count : ℕ := r.entries.length

end RegistryState

/-- What a program does with a registry. -/
inductive RegistryOp where
  | register (name : String) (hook : Place)
  | take (name : String)
  | enable (name : String) (ok : Bool)
  | disable (name : String) (ok : Bool)
  | unhook (name : String) (ok dropOk retargetOk : Bool)
  | unhookAll (os : Place → Bool × Bool)
  /-- A call of the library that does not go through the registry. -/
  | other (op : Op)

namespace RegistryState

variable (E : Env) (r : RegistryState)

def step : RegistryOp → RegistryState
  | .register name hook => (r.register name hook).2
  | .take name => (r.take name).2
  | .enable name ok => (r.enable E name ok).2
  | .disable name ok => (r.disable E name ok).2
  | .unhook name ok dropOk retargetOk => (r.unhook E name ok dropOk retargetOk).2
  | .unhookAll os => (r.unhookAll E os).2
  | .other op => r.call E op

/-- The calls of the library an operation makes. -/
def calls : RegistryOp → List Op
  | .register _ _ | .take _ => []
  | .enable name ok => ((r.get name).map fun h => Op.enable h.hook ok).toList
  | .disable name ok => ((r.get name).map fun h => Op.disable h.hook ok).toList
  | .unhook name ok dropOk retargetOk =>
    ((r.get name).map fun h => Op.unhook h.hook ok dropOk retargetOk).toList
  | .unhookAll os => r.newestFirst.map fun h => .drop h.hook (os h.hook).1 (os h.hook).2
  | .other op => [op]

/-- The places the registry owns. -/
def owned : List Place := r.entries.map (·.2.hook)

/-- The call names the place: it works on the hook there, or borrows it for a detach. -/
def Names (s : State) (place : Place) : Op → Prop
  | .queue _ (.detach other) => other = place
  | op => op.Touches s place

/-- What the borrow checker and the contract of `detach` ask for: a hook is moved in by its owner, who
has not queued it for a detach, and is then out of reach. -/
def Owns : RegistryOp → Prop
  | .register _ hook => (∃ n, hook = .hookPtr n) ∧ (r.state.process.hookAt hook).isSome = true ∧
      hook ∉ r.owned ∧ r.state.borrowed hook = false
  | .other op => ∀ place ∈ r.owned, ¬ Names r.state place op
  | _ => True

/-- The states a run with a registry reaches when each call meets a condition. -/
inductive Reachable (allowed : State → Op → Prop) (pristine : ℕ → UInt8) : RegistryState → Prop
  | initial (tables : Tables) : Reachable allowed pristine ⟨.initial pristine tables, none, 0⟩
  | step {r : RegistryState} (op : RegistryOp) : Reachable allowed pristine r → r.Owns op →
      r.state.Meets E allowed (r.calls op) → Reachable allowed pristine (r.step E op)

end RegistryState

/-! ### Hooks that are out of reach -/

section Held

variable {E : Env} {s : State} {place : Place} {op : Op}

/-- The hooks a request adds to a queue; a detach among them is of the place it names. -/
def Request.Adds (q : Request) (pending pending' : List PendingHook) : Prop :=
  ∃ hooks, pending' = pending ++ hooks ∧ ∀ target, .detach target ∈ hooks → q = .detach target

section Adds

variable {q : Request} {pending : List PendingHook}

theorem Request.adds_nothing : q.Adds pending pending :=
  ⟨[], (List.append_nil _).symm, fun _ none => nomatch none⟩

theorem Request.adds_hook {hook : PendingHook} (table : hook.detachTarget = none) :
    q.Adds pending (pending ++ [hook]) := by
  refine ⟨[hook], rfl, fun target mem => ?_⟩
  rw [← List.mem_singleton.mp mem] at table
  cases table

theorem attachInner_adds (c : Code) (target detour : ℕ) (follow : Bool) (os : AttachOs) :
    q.Adds pending (attachInner E.codec E.foreign c pending target detour follow os).2.2 := by
  unfold attachInner
  split_ifs
  · exact Request.adds_nothing
  · exact Request.adds_nothing
  · unfold attachGateway
    split
    · exact Request.adds_nothing
    · split
      · exact Request.adds_nothing
      · split
        · exact Request.adds_nothing
        · exact Request.adds_hook rfl
  · unfold attachNormal
    simp only
    split_ifs
    · exact Request.adds_nothing
    · split
      · exact Request.adds_nothing
      · split
        · exact Request.adds_nothing
        · split_ifs
          · exact Request.adds_nothing
          · split
            · exact Request.adds_nothing
            · split
              · exact Request.adds_nothing
              · split_ifs
                · exact Request.adds_nothing
                · exact Request.adds_hook rfl

theorem Request.run_adds (p : Process) (pending : List PendingHook) (q : Request) :
    q.Adds pending (q.run E p pending).2 := by
  cases q with
  | attach target detour follow os => exact attachInner_adds p.code target detour follow os
  | attachIat module dll func detour readable =>
    unfold run NeoHook.attachIat
    simp only
    split_ifs
    · exact adds_nothing
    · split
      · exact adds_nothing
      · split_ifs
        · exact adds_nothing
        · exact adds_hook rfl
  | attachEat module func detour readable =>
    unfold run NeoHook.attachEat
    simp only
    split_ifs
    · exact adds_nothing
    · split
      · exact adds_nothing
      · split_ifs
        · exact adds_nothing
        · exact adds_hook rfl
  | attachVtable vtable index detour readable =>
    unfold run NeoHook.attachVtable
    simp only
    split_ifs
    · exact adds_nothing
    · exact adds_hook rfl
  | attachVtableInstance object index len detour =>
    unfold run NeoHook.attachVtableInstance
    simp only
    split_ifs
    · exact adds_nothing
    · exact adds_hook rfl
  | detach other =>
    unfold run queueDetach
    simp only
    split_ifs
    · exact adds_nothing
    · refine ⟨[.detach other], rfl, fun target mem => ?_⟩
      cases List.mem_singleton.mp mem
      rfl

end Adds

/-- No transaction has queued the hook at the place for a detach. -/
def State.Free (s : State) (place : Place) : Prop :=
  ∀ e ∈ s.transactions, .detach place ∉ e.2.pending

theorem State.free_of_borrowed {n : ℕ} (clear : s.borrowed (.hookPtr n) = false) :
    s.Free (.hookPtr n) := by
  intro e mem queued
  have none := List.any_eq_false.mp clear e mem
  exact none (decide_eq_true queued)

theorem State.Free.not_borrowed {n : ℕ} (free : s.Free (.hookPtr n)) :
    s.borrowed (.hookPtr n) = false := by
  refine List.any_eq_false.mpr fun e mem => ?_
  simpa using free e mem

theorem State.Free.setTransaction (free : s.Free place) {tx : ℕ} {t : Transaction}
    (clear : .detach place ∉ t.pending) : (s.setTransaction tx t).Free place := by
  intro e mem
  obtain rfl | mem := List.mem_cons.mp mem
  · exact clear
  · exact free e (List.mem_of_mem_eraseP mem)

theorem State.Free.transaction (free : s.Free place) {tx : ℕ} {t : Transaction}
    (present : s.transaction tx = some t) : .detach place ∉ t.pending :=
  free _ (List.mem_of_find?_eq_some (State.find_of_transaction present))

/-- A call borrows the hook only when it names it. -/
theorem State.Free.step (free : s.Free place) (away : ¬ RegistryState.Names s place op) :
    (s.step E op).Free place := by
  cases op with
  | begin =>
    intro e mem
    obtain rfl | mem := List.mem_cons.mp mem
    · exact List.not_mem_nil
    · exact free e mem
  | queue tx q =>
    rw [State.step]
    split
    · exact free
    · next t present =>
      split_ifs
      · refine free.setTransaction fun mem => ?_
        obtain ⟨hooks, eq, named⟩ := @Request.run_adds E s.process t.pending q
        rw [eq] at mem
        obtain mem | mem := List.mem_append.mp mem
        · exact free.transaction present mem
        · rw [named place mem] at away
          exact away rfl
      · exact free
  | commit tx ffi os threads =>
    rw [State.step]
    split
    · exact free
    · split_ifs
      · exact free
      · split
        · exact free.setTransaction (t := ⟨[], true⟩) List.not_mem_nil
        · exact free.setTransaction (t := ⟨[], false⟩) List.not_mem_nil
  | abort tx =>
    rw [State.step]
    split
    · exact free
    · split_ifs
      · exact free.setTransaction (t := ⟨[], false⟩) List.not_mem_nil
      · exact free
  | enable other ok | disable other ok =>
    rw [State.step]
    split
    · exact free
    · split <;> exact free
  | unhook other ok dropOk retargetOk | drop other ok retargetOk =>
    rw [State.step]
    split
    · exact free
    · split_ifs <;> exact free
  | int3Install target detour gateway os =>
    rw [State.step]
    split <;> exact free
  | int3Drop hook os =>
    rw [State.step]
    split <;> exact free
  | beginPass | freeRegions w os | settlePass addOk => exact free

/-- A hook that its owner holds, and that no transaction has borrowed. -/
structure State.Held (s : State) (place : Place) : Prop where
  pointer : ∃ n, place = .hookPtr n
  live : (s.process.hookAt place).isSome = true
  free : s.Free place

theorem State.Held.not_borrowed (held : s.Held place) : s.borrowed place = false := by
  obtain ⟨n, rfl⟩ := held.pointer
  exact held.free.not_borrowed

theorem State.Held.number_lt (held : s.Held place) (numbered : s.Numbered) :
    place.number < s.fresh := by
  obtain ⟨hook, present⟩ := Option.isSome_iff_exists.mp held.live
  have mem := List.mem_of_find?_eq_some (Process.find_of_hookAt present)
  exact numbered.below place (List.mem_map_of_mem mem)

/-- A call that does not name the hook leaves it held. -/
theorem State.Held.step (held : s.Held place) (numbered : s.Numbered)
    (away : ¬ RegistryState.Names s place op) : (s.step E op).Held place := by
  refine ⟨held.pointer, ?_, held.free.step away⟩
  have frames := @State.step_frames E s numbered op
  rw [frames.same place (held.number_lt numbered) ?_]
  · exact held.live
  · intro touched
    cases op with
    | queue => exact touched
    | begin | commit | abort | enable | disable | unhook | drop | int3Install | int3Drop | beginPass
    | freeRegions | settlePass => exact away touched

theorem State.Held.enable (held : s.Held place) (ok : Bool) :
    (s.step E (.enable place ok)).Held place := by
  rw [State.step]
  split
  · exact held
  · split
    · exact held
    · exact ⟨held.pointer, Option.isSome_of_eq_some Process.hookAt_put_self, held.free⟩

theorem State.Held.disable (held : s.Held place) (ok : Bool) :
    (s.step E (.disable place ok)).Held place := by
  rw [State.step]
  split
  · exact held
  · split
    · exact held
    · exact ⟨held.pointer, Option.isSome_of_eq_some Process.hookAt_put_self, held.free⟩

/-- A held hook that is dropped or unhooked is gone. -/
theorem State.Held.drop_gone (held : s.Held place) (numbered : s.Numbered) (ok retargetOk : Bool) :
    (s.step E (.drop place ok retargetOk)).process.hookAt place = none := by
  rw [State.step]
  split
  · next gone => exact gone
  · rw [if_neg (by rw [held.not_borrowed]; decide)]
    exact Process.hookAt_take_self numbered.nodup

end Held

/-! ### Tearing down -/

section Teardown

variable {E : Env} {s : State}

/-- The drops of `unhook_all`. -/
def dropEach (E : Env) (os : Place → Bool × Bool) (s : State) (hooks : List SendHook) : State :=
  hooks.foldl (fun s h => s.step E (.drop h.hook (os h.hook).1 (os h.hook).2)) s

/-- What the drops of distinct held hooks do. -/
structure TornDown (s s' : State) (places : List Place) : Prop where
  numbered : s'.Numbered
  fresh : s.fresh ≤ s'.fresh
  gone : ∀ place ∈ places, s'.process.hookAt place = none
  same : ∀ place, place.number < s.fresh → place ∉ places →
    s'.process.hookAt place = s.process.hookAt place
  held : ∀ place ∉ places, s.Held place → s'.Held place
  old : s'.process.hooks.map (·.1) ⊆ s.process.hooks.map (·.1)

theorem State.drop_old (place : Place) (ok retargetOk : Bool) :
    (s.step E (.drop place ok retargetOk)).process.hooks.map (·.1) ⊆ s.process.hooks.map (·.1) := by
  rw [State.step]
  split
  · exact List.Subset.refl _
  · split_ifs
    · exact List.Subset.refl _
    · exact (List.eraseP_sublist.map _).subset

theorem dropEach_tornDown (numbered : s.Numbered) (os : Place → Bool × Bool) (hooks : List SendHook)
    (distinct : (hooks.map (·.hook)).Nodup) (held : ∀ h ∈ hooks, s.Held h.hook) :
    TornDown s (dropEach E os s hooks) (hooks.map (·.hook)) := by
  induction hooks generalizing s with
  | nil =>
    exact ⟨numbered, le_rfl, by simp, fun _ _ _ => rfl, fun _ _ held => held, List.Subset.refl _⟩
  | cons h rest ih =>
    obtain ⟨new, distinct⟩ := List.nodup_cons.mp distinct
    have here := held h List.mem_cons_self
    have frames := @State.step_frames E s numbered (.drop h.hook (os h.hook).1 (os h.hook).2)
    have others : ∀ {place : Place}, place ≠ h.hook → s.Held place →
        (s.step E (.drop h.hook (os h.hook).1 (os h.hook).2)).Held place :=
      fun ne held => held.step numbered fun eq => ne eq.symm
    obtain ⟨numbered', fresh, gone, same, kept, old⟩ := @ih
      (s.step E (.drop h.hook (os h.hook).1 (os h.hook).2)) frames.numbered distinct
      fun h' mem => others (fun eq => new (List.mem_map.mpr ⟨h', mem, eq⟩))
        (held h' (List.mem_cons_of_mem _ mem))
    refine ⟨numbered', frames.fresh.trans fresh, fun place mem => ?_, fun place below away => ?_,
      fun place away held => ?_, List.Subset.trans old (State.drop_old h.hook _ _)⟩
    · rw [List.map_cons] at mem
      obtain rfl | mem := List.mem_cons.mp mem
      · have below := here.number_lt numbered
        refine (same h.hook (below.trans_le frames.fresh) new).trans ?_
        exact here.drop_gone numbered _ _
      · exact gone place mem
    · rw [List.map_cons, List.mem_cons, not_or] at away
      refine (same place (below.trans_le frames.fresh) away.2).trans ?_
      exact frames.same place below fun eq => away.1 eq.symm
    · rw [List.map_cons, List.mem_cons, not_or] at away
      exact kept place away.2 (others away.1 held)

end Teardown

/-! ### Runs -/

namespace RegistryState

variable {E : Env} {r : RegistryState} {allowed : State → Op → Prop} {pristine : ℕ → UInt8}

/-- The registry holds its hooks, each under one name, in the order of their registration. -/
structure Good (r : RegistryState) : Prop where
  numbered : r.state.Numbered
  names : r.names.Nodup
  seqs : (r.entries.map fun e => e.2.seq).Nodup
  below : ∀ e ∈ r.entries, e.2.seq < r.nextSeq
  places : r.owned.Nodup
  held : ∀ place ∈ r.owned, r.state.Held place

theorem get_mem {name : String} {h : SendHook} (found : r.get name = some h) :
    r.entries.find? (fun e => e.1 = name) = some (name, h) := by
  obtain ⟨⟨name', h'⟩, there, eq⟩ := Option.map_eq_some_iff.mp found
  have key := List.find?_some there
  simp only [decide_eq_true_eq] at key eq
  rw [there, key, eq]

/-- A hook that is taken out leaves the others. -/
theorem Good.sub {r' : RegistryState} (good : r.Good) (state : r'.state = r.state)
    (next : r'.nextSeq = r.nextSeq) (sub : r'.entries.Sublist r.entries) : r'.Good := by
  refine ⟨state ▸ good.numbered, (sub.map _).nodup good.names, (sub.map _).nodup good.seqs,
    fun e mem => next ▸ good.below e (sub.subset mem), (sub.map _).nodup good.places,
    fun place mem => state ▸ good.held place ((sub.map _).subset mem)⟩

theorem take_entries (name : String) :
    (r.take name).2.entries = r.entries.eraseP fun e => e.1 = name := by
  unfold take entries
  cases r.registry <;> rfl

theorem Good.take (good : r.Good) (name : String) : (r.take name).2.Good :=
  good.sub rfl rfl (take_entries name ▸ List.eraseP_sublist)

/-- What is taken is no longer owned. -/
theorem Good.notMem_take (good : r.Good) {name : String} {h : SendHook}
    (found : r.get name = some h) : h.hook ∈ r.owned ∧ h.hook ∉ (r.take name).2.owned := by
  have perm := (Bag.perm_cons_eraseP (get_mem found)).map fun e => e.2.hook
  have nodup := perm.nodup_iff.mp good.places
  rw [List.map_cons, List.nodup_cons] at nodup
  refine ⟨perm.mem_iff.mpr List.mem_cons_self, ?_⟩
  unfold owned
  rw [take_entries]
  exact nodup.1

theorem Good.register (good : r.Good) (name : String) {hook : Place}
    (held : r.state.Held hook) (new : hook ∉ r.owned) : (r.register name hook).2.Good := by
  have sub : (r.entries.eraseP fun e => e.1 = name).Sublist r.entries := List.eraseP_sublist
  refine ⟨good.numbered, ?_, ?_, fun e mem => ?_, ?_, fun place mem => ?_⟩
  · exact List.nodup_cons.mpr ⟨Bag.key_notMem_eraseP good.names, (sub.map _).nodup good.names⟩
  · refine List.nodup_cons.mpr ⟨fun mem => ?_, (sub.map _).nodup good.seqs⟩
    obtain ⟨e, there, eq⟩ := List.mem_map.mp mem
    exact absurd eq (good.below e (sub.subset there)).ne
  · obtain rfl | mem := List.mem_cons.mp mem
    · exact Nat.lt_succ_self _
    · exact (good.below e (sub.subset mem)).trans (Nat.lt_succ_self _)
  · exact List.nodup_cons.mpr
      ⟨fun mem => new ((sub.map _).subset mem), (sub.map _).nodup good.places⟩
  · obtain rfl | mem := List.mem_cons.mp mem
    · exact held
    · exact good.held place ((sub.map _).subset mem)

/-- A call that leaves the hooks of the registry held. -/
theorem Good.call (good : r.Good) (op : Op)
    (held : ∀ place ∈ r.owned, (r.state.step E op).Held place) : (r.call E op).Good :=
  ⟨(State.step_frames good.numbered op).numbered, good.names, good.seqs, good.below, good.places, held⟩

theorem newestFirst_perm : r.newestFirst.Perm (r.entries.map (·.2)) := List.perm_insertionSort _ _

theorem Good.newestFirst_distinct (good : r.Good) : (r.newestFirst.map (·.hook)).Nodup := by
  have perm := (@newestFirst_perm r).map (·.hook)
  rw [List.map_map] at perm
  exact perm.nodup_iff.mpr good.places

theorem newestFirst_owned {h : SendHook} (mem : h ∈ r.newestFirst) : h.hook ∈ r.owned := by
  obtain ⟨e, there, rfl⟩ := List.mem_map.mp (newestFirst_perm.mem_iff.mp mem)
  exact List.mem_map_of_mem there

/-- The teardown goes from the newest registration to the oldest. -/
theorem Good.newestFirst_sorted (good : r.Good) :
    r.newestFirst.Pairwise fun a b => b.seq < a.seq := by
  have sorted : r.newestFirst.Pairwise fun a b => b.seq ≤ a.seq :=
    List.pairwise_insertionSort (fun a b : SendHook => b.seq ≤ a.seq) _
  have distinct : r.newestFirst.Pairwise fun a b => a.seq ≠ b.seq := by
    have perm := (@newestFirst_perm r).map (·.seq)
    rw [List.map_map] at perm
    exact List.pairwise_map.mp (perm.nodup_iff.mpr good.seqs)
  exact (sorted.and distinct).imp fun ⟨le, ne⟩ => lt_of_le_of_ne le ne.symm

theorem Good.tornDown (good : r.Good) (os : Place → Bool × Bool) :
    TornDown r.state (dropEach E os r.state r.newestFirst) (r.newestFirst.map (·.hook)) :=
  dropEach_tornDown good.numbered os r.newestFirst good.newestFirst_distinct
    fun _ mem => good.held _ (newestFirst_owned mem)

theorem Good.step (good : r.Good) (op : RegistryOp) (owns : r.Owns op) : (r.step E op).Good := by
  cases op with
  | register name hook =>
    obtain ⟨⟨n, rfl⟩, live, new, clear⟩ := owns
    exact good.register name ⟨⟨n, rfl⟩, live, State.free_of_borrowed clear⟩ new
  | take name => exact good.take name
  | enable name ok =>
    simp only [RegistryState.step, enable]
    split
    · exact good
    · next h found =>
      refine good.call _ fun place mem => ?_
      by_cases here : h.hook = place
      · exact here ▸ (good.held _ (here ▸ mem)).enable ok
      · exact (good.held place mem).step good.numbered here
  | disable name ok =>
    simp only [RegistryState.step, disable]
    split
    · exact good
    · next h found =>
      refine good.call _ fun place mem => ?_
      by_cases here : h.hook = place
      · exact here ▸ (good.held _ (here ▸ mem)).disable ok
      · exact (good.held place mem).step good.numbered here
  | unhook name ok dropOk retargetOk =>
    have taken := good.take name
    simp only [RegistryState.step, unhook]
    cases found : r.get name with
    | none =>
      have eq : r.take name = (none, (r.take name).2) := by
        unfold RegistryState.take
        rw [found]
        rfl
      rw [eq]
      exact taken
    | some h =>
      have eq : r.take name = (some h.hook, (r.take name).2) := by
        unfold RegistryState.take
        rw [found]
        rfl
      rw [eq]
      refine taken.call _ fun place mem => ?_
      refine (taken.held place mem).step taken.numbered fun here => ?_
      exact (good.notMem_take found).2 (here ▸ mem)
  | unhookAll os =>
    exact ⟨(good.tornDown os).numbered, List.nodup_nil, List.nodup_nil,
      fun e mem => (List.not_mem_nil mem).elim, List.nodup_nil,
      fun place mem => (List.not_mem_nil mem).elim⟩
  | other op =>
    exact good.call op fun place mem => (good.held place mem).step good.numbered (owns place mem)

theorem Reachable.good (run : Reachable E allowed pristine r) : r.Good := by
  induction run with
  | initial tables =>
    exact ⟨⟨fun place mem => (List.not_mem_nil mem).elim, List.nodup_nil⟩, List.nodup_nil,
      List.nodup_nil, fun e mem => (List.not_mem_nil mem).elim, List.nodup_nil,
      fun place mem => (List.not_mem_nil mem).elim⟩
  | step op _ owns _ ih => exact ih.step op owns

/-! ### As calls of the library -/

/-- An operation makes its calls and does nothing else to the library. -/
theorem step_state (op : RegistryOp) : (r.step E op).state = r.state.run E (r.calls op) := by
  cases op with
  | register name hook => rfl
  | take name => rfl
  | enable name ok =>
    simp only [RegistryState.step, enable, calls]
    cases r.get name <;> rfl
  | disable name ok =>
    simp only [RegistryState.step, disable, calls]
    cases r.get name <;> rfl
  | unhook name ok dropOk retargetOk =>
    simp only [RegistryState.step, unhook, calls, RegistryState.take]
    cases r.get name <;> rfl
  | unhookAll os =>
    simp only [RegistryState.step, unhookAll, calls, State.run]
    rw [List.foldl_map]
  | other op => rfl

/-- A run with a registry is a run of the library. -/
theorem Reachable.calls_reachable (run : Reachable E allowed pristine r) :
    State.Reachable E allowed pristine r.state := by
  induction run with
  | initial tables => exact .initial tables
  | step op _ _ fine ih =>
    rw [step_state]
    exact ih.along fine

/-- What `unhook_all` does: it drops the hooks it owns from the newest registration to the oldest, and
leaves every other hook as it is. -/
structure TearsDown (E : Env) (r : RegistryState) (os : Place → Bool × Bool) : Prop where
  all : r.newestFirst.Perm (r.entries.map (·.2))
  newest : r.newestFirst.Pairwise fun a b => b.seq < a.seq
  drops : (r.unhookAll E os).2.state = r.state.run E (r.newestFirst.map fun h =>
    .drop h.hook (os h.hook).1 (os h.hook).2)
  counted : (r.unhookAll E os).1 = r.count
  empty : (r.unhookAll E os).2.count = 0
  gone : ∀ place ∈ r.owned, (r.unhookAll E os).2.state.process.hookAt place = none
  others : ∀ place ∉ r.owned, ∀ hook, r.state.process.hookAt place = some hook →
    (r.unhookAll E os).2.state.process.hookAt place = some hook

theorem owned_iff {place : Place} : place ∈ r.newestFirst.map (·.hook) ↔ place ∈ r.owned := by
  have perm := (@newestFirst_perm r).map (·.hook)
  rw [List.map_map] at perm
  exact perm.mem_iff

theorem Good.tearsDown (good : r.Good) (os : Place → Bool × Bool) : r.TearsDown E os := by
  have torn := @Good.tornDown E r good os
  refine ⟨newestFirst_perm, good.newestFirst_sorted, step_state (.unhookAll os), ?_, rfl,
    fun place mem => torn.gone place (owned_iff.mpr mem), fun place away hook live => ?_⟩
  · change r.newestFirst.length = r.entries.length
    rw [newestFirst_perm.length_eq, List.length_map]
  · have below : place.number < r.state.fresh :=
      good.numbered.below place
        (List.mem_map_of_mem (List.mem_of_find?_eq_some (Process.find_of_hookAt live)))
    refine (torn.same place below fun mem => away (owned_iff.mp mem)).trans live

/-- In every run with a registry: names and hooks are distinct, each hook it owns is live and
borrowed by no transaction, `unhook_all` drops them all in reverse registration order, and the
library has only seen calls it could have seen without a registry. -/
theorem registry_runs {E : Env} {allowed : State → Op → Prop} {pristine : ℕ → UInt8}
    {r : RegistryState} (run : Reachable E allowed pristine r) :
    r.names.Nodup ∧ r.owned.Nodup ∧ (∀ place ∈ r.owned, r.state.Held place) ∧
      (∀ os, r.TearsDown E os) ∧ State.Reachable E allowed pristine r.state :=
  ⟨run.good.names, run.good.places, run.good.held, run.good.tearsDown, run.calls_reachable⟩

/-! ### Teardown restores the code -/

theorem dropEach_int3 (s : State) (hooks : List SendHook) (os : Place → Bool × Bool) :
    (dropEach E os s hooks).int3Hooks = s.int3Hooks := by
  unfold dropEach
  induction hooks generalizing s with
  | nil => rfl
  | cons h rest ih =>
    rw [List.foldl_cons, ih, State.step]
    split
    · rfl
    · split_ifs <;> rfl

/-- Drops whose writes succeed meet the conditions of a run that restores what it takes. -/
theorem allowed_drops (s : State) (hooks : List SendHook) (os : Place → Bool × Bool)
    (writes : ∀ h ∈ hooks, (os h.hook).1 = true) :
    s.Meets E (fun s op => op.RestoresCode E s)
      (hooks.map fun h => .drop h.hook (os h.hook).1 (os h.hook).2) := by
  induction hooks generalizing s with
  | nil => trivial
  | cons h rest ih =>
    exact ⟨fun _ _ _ _ => writes h List.mem_cons_self,
      ih _ fun h' mem => writes h' (List.mem_cons_of_mem _ mem)⟩

/-- Without hooks and breakpoints the code outside the stubs is pristine. -/
theorem pristine_of_bare {s : State}
    (run : State.Reachable E (fun s op => op.RestoresCode E s) pristine s)
    (hooks : s.process.hooks = []) (traps : s.int3Hooks = []) (x : ℕ)
    (stub : ¬ s.process.code.StubByte x) : s.process.code.mem x = pristine x := by
  obtain ⟨-, -, ground, overlaid, outside⟩ := run.overlaid
  have bare : overlays s.hooks s.traps = 0 := by
    simp [overlays, State.hooks, State.traps, Process.installed, hooks, traps, inlineHooks]
  rw [← outside x stub]
  apply overlaid.bare x
  rw [bare]
  intro p mem
  exact (Multiset.notMem_zero p mem).elim

/-- An `unhook_all` whose writes succeed is one more step of such a run. -/
theorem unhookAll_reachable {E : Env} {pristine : ℕ → UInt8} {r : RegistryState}
    (run : Reachable E (fun s op => op.RestoresCode E s) pristine r) (os : Place → Bool × Bool)
    (writes : ∀ place ∈ r.owned, (os place).1 = true) :
    State.Reachable E (fun s op => op.RestoresCode E s) pristine (r.unhookAll E os).2.state := by
  rw [show (r.unhookAll E os).2.state = _ from step_state (.unhookAll os)]
  refine run.calls_reachable.along (allowed_drops _ _ os fun h mem => ?_)
  exact writes h.hook (newestFirst_owned mem)

/-- When the registry owns every hook and no breakpoint is armed, `unhook_all` restores the code of
the process, byte for byte outside the stubs. -/
theorem unhookAll_restores {E : Env} {pristine : ℕ → UInt8} {r : RegistryState}
    (run : Reachable E (fun s op => op.RestoresCode E s) pristine r)
    (all : ∀ e ∈ r.state.process.hooks, e.1 ∈ r.owned) (traps : r.state.int3Hooks = [])
    (os : Place → Bool × Bool) (writes : ∀ place ∈ r.owned, (os place).1 = true) :
    ∀ x, ¬ (r.unhookAll E os).2.state.process.code.StubByte x →
      (r.unhookAll E os).2.state.process.code.mem x = pristine x := by
  have after := unhookAll_reachable run os writes
  have torn := @Good.tornDown E r run.good os
  refine fun x => pristine_of_bare after ?_ ?_ x
  · refine List.eq_nil_iff_forall_not_mem.mpr fun e mem => ?_
    obtain ⟨e', before, eq⟩ := List.mem_map.mp (torn.old (List.mem_map_of_mem mem))
    have gone := torn.gone e.1 (owned_iff.mpr (eq ▸ all e' before))
    exact List.find?_eq_none.mp (Option.map_eq_none_iff.mp gone) e mem (decide_eq_true rfl)
  · exact (dropEach_int3 r.state r.newestFirst os).trans traps

/-! ### A registry with two chained hooks -/

def run (E : Env) (r : RegistryState) (ops : List RegistryOp) : RegistryState :=
  ops.foldl (step E) r

/-- Every operation is one the owner may make, and its calls meet a condition. -/
def Follows (E : Env) (allowed : State → Op → Prop) : RegistryState → List RegistryOp → Prop
  | _, [] => True
  | r, op :: rest => r.Owns op ∧ r.state.Meets E allowed (r.calls op) ∧
      (r.step E op).Follows E allowed rest

theorem Reachable.along (reached : Reachable E allowed pristine r) {ops : List RegistryOp}
    (follows : r.Follows E allowed ops) : Reachable E allowed pristine (r.run E ops) := by
  induction ops generalizing r with
  | nil => exact reached
  | cons op rest ih => exact ih (.step op reached follows.1 follows.2.1) follows.2.2

/-- With an empty registry every other call is the program's to make. -/
theorem owns_other (none : r.owned = []) (op : Op) : r.Owns (.other op) := by
  intro place mem
  rw [none] at mem
  cases mem

/-- A hook, one on its gateway, and both moved into the registry. -/
def parkChain : List RegistryOp :=
  [.other .begin, .other (.queue 1 (.attach 0x1000 0x3000 true (sampleAttachOs 0x20000))),
    .other (.commit 1 false (sampleCommitOs []) sampleThreads), .other .begin,
    .other (.queue 4 (.attach 0x20000 0x4000 true (sampleAttachOs 0x30000))),
    .other (.commit 4 false (sampleCommitOs []) sampleThreads),
    .register "base" (.hookPtr 2), .register "next" (.hookPtr 5)]

def parkedChain : RegistryState :=
  run sampleEnv ⟨State.initial samplePristine sampleTables, none, 0⟩ parkChain

theorem parkedChain_reachable :
    Reachable sampleEnv (fun s op => op.RestoresCode sampleEnv s) samplePristine parkedChain := by
  have own : OwnCode sampleEnv.foreign 0x1000 5 := by
    intro x inside
    refine ⟨⟨0x1000, 0xF000⟩, List.mem_cons_self, inside.1, lt_of_lt_of_le inside.2 ?_⟩
    decide
  refine (Reachable.initial sampleTables).along ?_
  refine ⟨owns_other rfl _, ⟨fun _ => trivial, trivial⟩, owns_other rfl _, ⟨?_, trivial⟩,
    owns_other rfl _, ⟨.of_drops fun _ => rfl, trivial⟩, owns_other rfl _, ⟨fun _ => trivial, trivial⟩,
    owns_other rfl _, ⟨?_, trivial⟩, owns_other rfl _, ⟨.of_drops fun _ => rfl, trivial⟩,
    ⟨⟨2, rfl⟩, ?_, ?_, ?_⟩, trivial, ⟨⟨5, rfl⟩, ?_, ?_, ?_⟩, trivial, trivial⟩
  · apply @Op.RestoresCode.of_own _ _ 1 0x1000 0x3000 true (sampleAttachOs 0x20000) 0x1000 5
    · decide +kernel
    · decide +kernel
    · decide +kernel
    · exact own
  · apply Op.RestoresCode.of_gateway
    · decide +kernel
    · decide +kernel
  · decide +kernel
  · decide +kernel
  · decide +kernel
  · decide +kernel
  · decide +kernel
  · decide +kernel

/-- The hook on the gateway goes before the hook it is chained on. -/
theorem parkedChain_runs :
    parkedChain.newestFirst.map (·.hook) = [.hookPtr 5, .hookPtr 2] ∧
      ∀ os, parkedChain.TearsDown sampleEnv os := by
  refine ⟨by decide +kernel, ?_⟩
  exact (registry_runs parkedChain_reachable).2.2.2.1

/-- The first byte of the hooked function is no stub, and is back. -/
theorem parkedChain_restores :
    (parkedChain.unhookAll sampleEnv fun _ => (true, true)).2.state.process.code.mem 0x1000 =
      samplePristine 0x1000 := by
  have after := unhookAll_reachable parkedChain_reachable (fun _ => (true, true)) fun _ _ => rfl
  apply unhookAll_restores parkedChain_reachable
  · decide +kernel
  · decide +kernel
  · exact fun _ _ => rfl
  · intro stub
    refine after.overlaid.2.1 _ stub ⟨0x1000, 0xF000⟩ List.mem_cons_self ?_
    exact ⟨by decide, by decide⟩

end RegistryState

end NeoHook
