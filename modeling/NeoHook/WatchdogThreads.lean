import NeoHook.Watchdog

/-!
# The watchdog and the threads of the process

`restore_quiescent` of `watchdog.rs`, thread by thread: what it suspends, writes and resumes.  A
thread that the snapshot does not list, or that cannot be opened or suspended, is passed over, so a
rewrite has every other thread suspended exactly when all of them were listed and could be, or nothing
is written at all.

A sweep holds the lock of the region list from the comparison to the report, and `unguard` takes the
same lock.  `Step` lets calls of other threads run between the writes of a sweep; a region whose
guard was removed is not written by any later step.
-/

namespace NeoHook

namespace Watchdog

open ByteMap

/-! ### The actions of `restore_quiescent` -/

/-- What a call of `restore_quiescent` meets. -/
structure Process where
  transactionFree : Bool
  codeFree : Bool
  freezeFree : Bool
  /-- The ids of the other threads that have not ended. -/
  live : List ℕ
  /-- `enumerate_process_threads`: the ids of the Toolhelp snapshot. -/
  tids : List ℕ
  openThread : ℕ → Bool
  suspendThread : ℕ → Bool
  /-- What `GetThreadContext` reads while the thread is suspended. -/
  ip : ℕ → Option ℕ
  failsAfter : ℕ → Option ℕ

/-- The threads that are suspended: one that cannot be opened or suspended is passed over. -/
def Process.suspendAll (p : Process) : List ℕ → List ℕ
  | [] => []
  | tid :: rest =>
    if !p.openThread tid then p.suspendAll rest
    else if !p.suspendThread tid then p.suspendAll rest
    else tid :: p.suspendAll rest

def Process.handles (p : Process) : List ℕ := p.suspendAll p.tids

/-- The threads as the rewrites see them. -/
def Process.sweepOs (p : Process) : SweepOs :=
  ⟨p.transactionFree, p.codeFree, p.freezeFree, p.handles.map p.ip, p.failsAfter⟩

/-- The address lies in the region. -/
def Region.Holds (r : Region) (ip : ℕ) : Prop :=
  r.target ≤ ip ∧ ip < saturatingAdd r.target r.expected.length

instance (r : Region) (ip : ℕ) : Decidable (r.Holds ip) := by unfold Region.Holds; infer_instance

/-- A thread with a known position is in the region. -/
def SweepOs.occupied (os : SweepOs) (r : Region) : Bool :=
  os.ips.any fun ip => ip.any fun ip =>
    r.target ≤ ip && ip < saturatingAdd r.target r.expected.length

/-- A write to a region; `some k` fails after `k` bytes. -/
abbrev Attempt := Region × Option ℕ

/-- The writes of the loop over the regions, from the `n`-th region on. -/
def attempts (os : SweepOs) : ℕ → List Region → List Attempt
  | _, [] => []
  | n, r :: rest =>
    if os.occupied r then attempts os (n + 1) rest
    else (r, os.failsAfter n) :: attempts os (n + 1) rest

inductive Action where
  | suspend (tid : ℕ)
  | write (a : Attempt)
  | resume (tid : ℕ)
  deriving DecidableEq

/-- The locks are free. -/
def SweepOs.free (os : SweepOs) : Bool := os.transactionFree && os.codeFree && os.freezeFree

/-- The writes of `restore_quiescent`: none while the position of a suspended thread is unknown. -/
def writes (os : SweepOs) (targets : List Region) : List Attempt :=
  if os.free && os.ips.all Option.isSome then attempts os 0 targets else []

/-- `restore_quiescent`, as the calls it makes. -/
def actions (p : Process) (targets : List Region) : List Action :=
  if p.sweepOs.free then
    p.handles.map .suspend ++ (writes p.sweepOs targets).map .write ++ p.handles.map .resume
  else []

/-- The bytes after a write. -/
def store (m : ℕ → UInt8) (a : Attempt) : ℕ → UInt8 :=
  match a.2 with
  | none => write m a.1.target a.1.expected
  | some k => write m a.1.target (a.1.expected.take k)

theorem rewriteLoop_mem (os : SweepOs) (n : ℕ) (targets : List Region) (m : ℕ → UInt8) :
    (rewriteLoop os n targets m).2 = (attempts os n targets).foldl store m := by
  induction targets generalizing n m with
  | nil => rfl
  | cons r rest ih =>
    have inside : (os.ips.any fun ip => ip.any fun ip =>
        decide (r.target ≤ ip) && decide (ip < saturatingAdd r.target r.expected.length)) =
        os.occupied r := rfl
    rw [rewriteLoop, attempts, inside]
    split_ifs
    · exact ih (n + 1) m
    · rw [List.foldl_cons]
      cases outcome : os.failsAfter n with
      | none => exact ih (n + 1) _
      | some k => exact ih (n + 1) _

/-- The memory after `restore_quiescent` is that after its writes. -/
theorem restoreQuiescent_mem (os : SweepOs) (targets : List Region) (m : ℕ → UInt8) :
    (restoreQuiescent os targets m).2 = (writes os targets).foldl store m := by
  have guard : (os.transactionFree && os.codeFree && os.freezeFree && os.ips.all Option.isSome) =
      (os.free && os.ips.all Option.isSome) := rfl
  unfold restoreQuiescent writes
  rw [guard]
  split_ifs
  · exact rewriteLoop_mem os 0 targets m
  · rfl

/-! ### Rewriting with every other thread suspended -/

/-- At every write of the calls all live threads are suspended at a known place outside the region,
and every thread suspended is resumed later. -/
structure Safe (p : Process) (targets : List Region) : Prop where
  quiet : ∀ before r k after, actions p targets = before ++ .write (r, k) :: after →
    ∀ tid ∈ p.live,
      .suspend tid ∈ before ∧ .resume tid ∉ before ∧ ∃ ip, p.ip tid = some ip ∧ ¬ r.Holds ip
  resumed : ∀ before tid after, actions p targets = before ++ .suspend tid :: after →
    .resume tid ∈ after

/-- The thread is in the snapshot and can be opened and suspended. -/
structure Process.Stops (p : Process) (tid : ℕ) : Prop where
  listed : tid ∈ p.tids
  opened : p.openThread tid = true
  suspended : p.suspendThread tid = true

/-- Every live thread is listed and can be opened and suspended. -/
def Process.Stoppable (p : Process) : Prop := ∀ tid ∈ p.live, p.Stops tid

/-- There is nothing the pass may write: a lock is taken, the position of a suspended thread is
unknown, or every region has a suspended thread in it. -/
def Process.Idle (p : Process) (targets : List Region) : Prop :=
  ¬ (p.transactionFree = true ∧ p.codeFree = true ∧ p.freezeFree = true) ∨
  (∃ tid, p.Stops tid ∧ p.ip tid = none) ∨
  ∀ r ∈ targets, ∃ tid, p.Stops tid ∧ ∃ ip, p.ip tid = some ip ∧ r.Holds ip

theorem Process.mem_suspendAll {p : Process} {tids : List ℕ} {tid : ℕ} :
    tid ∈ p.suspendAll tids ↔
      tid ∈ tids ∧ p.openThread tid = true ∧ p.suspendThread tid = true := by
  induction tids with
  | nil => simp [suspendAll]
  | cons other rest ih =>
    rw [suspendAll, List.mem_cons]
    split_ifs with closed running
    · rw [ih]
      constructor
      · rintro ⟨there, rest⟩
        exact ⟨.inr there, rest⟩
      · rintro ⟨rfl | there, opened, rest⟩
        · simp [opened] at closed
        · exact ⟨there, opened, rest⟩
    · rw [ih]
      constructor
      · rintro ⟨there, rest⟩
        exact ⟨.inr there, rest⟩
      · rintro ⟨rfl | there, opened, stopped⟩
        · simp [stopped] at running
        · exact ⟨there, opened, stopped⟩
    · rw [List.mem_cons, ih]
      constructor
      · rintro (rfl | ⟨there, rest⟩)
        · exact ⟨.inl rfl, by simpa using closed, by simpa using running⟩
        · exact ⟨.inr there, rest⟩
      · rintro ⟨rfl | there, rest⟩
        · exact .inl rfl
        · exact .inr ⟨there, rest⟩

theorem Process.mem_handles {p : Process} {tid : ℕ} : tid ∈ p.handles ↔ p.Stops tid := by
  unfold Process.handles
  rw [mem_suspendAll]
  exact ⟨fun ⟨listed, opened, suspended⟩ => ⟨listed, opened, suspended⟩,
    fun stops => ⟨stops.listed, stops.opened, stops.suspended⟩⟩

theorem Process.occupied_iff (p : Process) (r : Region) :
    p.sweepOs.occupied r = true ↔ ∃ tid, p.Stops tid ∧ ∃ ip, p.ip tid = some ip ∧ r.Holds ip := by
  unfold SweepOs.occupied Process.sweepOs
  simp only [List.any_map, List.any_eq_true, Function.comp, Option.any_eq_true, mem_handles,
    Bool.and_eq_true, decide_eq_true_eq, Region.Holds]

theorem Process.positions_known (p : Process) :
    p.sweepOs.ips.all Option.isSome = true ↔ ∀ tid, p.Stops tid → ∃ ip, p.ip tid = some ip := by
  unfold Process.sweepOs
  simp only [List.all_map, List.all_eq_true, Function.comp, mem_handles, Option.isSome_iff_exists]

/-- A region is written if no thread is in it. -/
theorem mem_attempts {os : SweepOs} {n : ℕ} {targets : List Region} {a : Attempt}
    (there : a ∈ attempts os n targets) : a.1 ∈ targets ∧ os.occupied a.1 = false := by
  induction targets generalizing n with
  | nil => cases there
  | cons r rest ih =>
    rw [attempts] at there
    split_ifs at there with inside
    · exact (ih there).imp_left (List.mem_cons_of_mem r)
    · rcases List.mem_cons.mp there with rfl | later
      · exact ⟨List.mem_cons_self, by simpa using inside⟩
      · exact (ih later).imp_left (List.mem_cons_of_mem r)

theorem attempts_eq_nil {os : SweepOs} {n : ℕ} {targets : List Region} :
    attempts os n targets = [] ↔ ∀ r ∈ targets, os.occupied r = true := by
  induction targets generalizing n with
  | nil => simp [attempts]
  | cons r rest ih =>
    rw [attempts, List.forall_mem_cons]
    split_ifs with inside
    · rw [ih]
      exact ⟨fun all => ⟨inside, all⟩, And.right⟩
    · simp [inside]

/-- The pass is idle exactly when it writes nothing. -/
theorem Process.idle_iff (p : Process) (targets : List Region) :
    p.Idle targets ↔ writes p.sweepOs targets = [] := by
  have free : p.sweepOs.free = true ↔
      p.transactionFree = true ∧ p.codeFree = true ∧ p.freezeFree = true := by
    simp [SweepOs.free, Process.sweepOs, and_assoc]
  have known := p.positions_known
  unfold Process.Idle writes
  rw [← free]
  by_cases locks : p.sweepOs.free = true
  · by_cases all : p.sweepOs.ips.all Option.isSome = true
    · rw [if_pos (by rw [locks, all]; rfl), attempts_eq_nil]
      simp only [locks, not_true_eq_false, false_or, ← p.occupied_iff]
      constructor
      · rintro (⟨tid, stops, none⟩ | occupied)
        · obtain ⟨ip, some⟩ := known.mp all tid stops
          rw [none] at some
          cases some
        · exact occupied
      · exact .inr
    · rw [if_neg (by simp [all])]
      simp only [iff_true]
      rw [known] at all
      push Not at all
      obtain ⟨tid, stops, none⟩ := all
      refine .inr (.inl ⟨tid, stops, ?_⟩)
      exact Option.eq_none_iff_forall_ne_some.mpr none
  · rw [if_neg (by simp [locks])]
    simp [locks]

/-- An element of the middle part of a list stands behind all of the first part. -/
theorem split_middle {α : Type} {first middle last before after : List α} {x : α}
    (split : first ++ middle ++ last = before ++ x :: after) (notFirst : x ∉ first)
    (notLast : x ∉ last) : ∃ early late, middle = early ++ x :: late ∧ before = first ++ early := by
  rw [List.append_assoc] at split
  rcases List.append_eq_append_iff.mp split with ⟨early, rfl, rest⟩ | ⟨more, rfl, rest⟩
  · rcases List.append_eq_append_iff.mp rest with ⟨more, rfl, tail⟩ | ⟨more, rfl, tail⟩
    · exact absurd (tail ▸ (by simp)) notLast
    · cases more with
      | nil =>
        rw [List.nil_append] at tail
        exact absurd (tail ▸ (by simp)) notLast
      | cons y late =>
        cases tail
        exact ⟨early, late, rfl, rfl⟩
  · cases more with
    | nil =>
      rw [List.append_nil] at notFirst ⊢
      rw [List.nil_append] at rest
      cases middle with
      | nil =>
        rw [List.nil_append] at rest
        exact absurd (rest ▸ (by simp)) notLast
      | cons y late =>
        cases rest
        exact ⟨[], late, rfl, by simp⟩
    | cons y more =>
      cases rest
      exact absurd (by simp) notFirst

/-- `restore_quiescent` is safe exactly when every live thread is listed and can be suspended, or there
is nothing it may write. -/
theorem safe_iff (p : Process) (targets : List Region) :
    Safe p targets ↔ p.Stoppable ∨ p.Idle targets := by
  constructor
  · intro safe
    by_contra neither
    rw [not_or, p.idle_iff] at neither
    obtain ⟨running, some⟩ := neither
    unfold Process.Stoppable at running
    push Not at running
    obtain ⟨tid, live, missed⟩ := running
    obtain ⟨⟨r, k⟩, rest, plan⟩ := List.exists_cons_of_ne_nil some
    have free : p.sweepOs.free = true := by
      by_contra taken
      simp [writes, taken] at plan
    have split : actions p targets = p.handles.map .suspend ++
        .write (r, k) :: (rest.map .write ++ p.handles.map .resume) := by
      unfold actions
      rw [if_pos free, plan]
      simp
    have suspended := (safe.quiet _ _ _ _ split tid live).1
    obtain ⟨other, held, same⟩ := List.mem_map.mp suspended
    cases same
    exact missed (Process.mem_handles.mp held)
  · intro condition
    constructor
    · intro before r k after split tid live
      unfold actions at split
      split_ifs at split with free
      · obtain ⟨early, late, planned, rfl⟩ := split_middle split (by simp) (by simp)
        obtain ⟨plan, behind, written, rfl, _⟩ := List.map_eq_append_iff.mp planned
        have write : (r, k) ∈ writes p.sweepOs targets := by
          rw [written]
          rename_i shape
          obtain ⟨a, tail, rfl, same, _⟩ := List.map_eq_cons_iff.mp shape
          cases same
          simp
        have all : p.sweepOs.ips.all Option.isSome = true := by
          by_contra unknown
          simp [writes, unknown] at write
        have attempt : (r, k) ∈ attempts p.sweepOs 0 targets := by
          simpa [writes, free, all] using write
        have stoppable : p.Stoppable := by
          rcases condition with stoppable | idle
          · exact stoppable
          · rw [p.idle_iff] at idle
            rw [idle] at write
            cases write
        have stops := stoppable tid live
        obtain ⟨ip, position⟩ := p.positions_known.mp all tid stops
        refine ⟨?_, by simp, ip, position, fun inside => ?_⟩
        · exact List.mem_append_left _ (List.mem_map_of_mem (Process.mem_handles.mpr stops))
        · have vacant := (mem_attempts attempt).2
          have occupied := (p.occupied_iff r).mpr ⟨tid, stops, ip, position, inside⟩
          rw [vacant] at occupied
          cases occupied
      · simp at split
    · intro before tid after split
      unfold actions at split
      split_ifs at split with free
      · rw [List.append_assoc] at split
        have held : tid ∈ p.handles := by
          have : Action.suspend tid ∈ p.handles.map .suspend ++
              ((writes p.sweepOs targets).map .write ++ p.handles.map .resume) := by
            rw [split]
            simp
          simpa using this
        rcases List.append_eq_append_iff.mp split with ⟨early, rfl, rest⟩ | ⟨more, same, rest⟩
        · have : Action.suspend tid ∈ (writes p.sweepOs targets).map .write ++
              p.handles.map .resume := by
            rw [rest]
            simp
          simp at this
        · cases more with
          | nil =>
            have : Action.suspend tid ∈ (writes p.sweepOs targets).map .write ++
                p.handles.map .resume := by
              rw [List.nil_append] at rest
              rw [← rest]
              simp
            simp at this
          | cons x more =>
            cases rest
            simp [held]
      · simp at split

/-! ### Sweeps beside the calls of other threads -/

/-- A sweep that holds the lock of the region list. -/
structure Sweeping where
  os : SweepOs
  mode : WatchMode
  scanned : List (Region × Option (List UInt8))
  /-- The writes still to come. -/
  pending : List Attempt

/-- The shared state, the sweep in progress and the regions of `guard` calls that wait for the lock
with the id they were given. -/
structure Running where
  shared : Shared
  sweeping : Option Sweeping
  inserting : List Region

/-- What is seen of a step. -/
inductive Label where
  | unguarded (id : ℕ)
  | wrote (r : Region)
  | other
  deriving DecidableEq

/-- The writes of a sweep in the given mode. -/
def sweepWrites (os : SweepOs) (mode : WatchMode) (scanned : List (Region × Option (List UInt8))) :
    List Attempt :=
  if mode = .restore then writes os (differing scanned) else []

/-- The outcomes of the rewrites of a sweep; they do not depend on the bytes. -/
def sweepRestored (os : SweepOs) (mode : WatchMode)
    (scanned : List (Region × Option (List UInt8))) (m : ℕ → UInt8) : List Bool :=
  if mode = .restore then (restoreQuiescent os (differing scanned) m).1
  else (differing scanned).map fun _ => false

/-- One step of the sweep or of another thread.  The mode is read before the lock is taken, so it
may be an older one; the id of `guard` is drawn before the lock is taken and returned behind it. -/
inductive Step : Running → Label → Running → Prop where
  | tamper (s : Running) (a : ℕ) (bs : List UInt8) :
      Step s .other { s with shared := { s.shared with mem := write s.shared.mem a bs } }
  | setMode (s : Running) (mode : WatchMode) :
      Step s .other { s with shared := { s.shared with mode := mode } }
  | setCallback (s : Running) (callback : Bool) :
      Step s .other { s with shared := { s.shared with callback := callback } }
  | draw (s : Running) (target : ℕ) (expected : List UInt8) :
      Step s .other { s with
        shared := { s.shared with nextId := s.shared.nextId + 1 }
        inserting := ⟨s.shared.nextId, target, expected, false⟩ :: s.inserting }
  | insert (s : Running) (r : Region) (before after : List Region) (idle : s.sweeping = none)
      (waits : s.inserting = before ++ r :: after) :
      Step s .other { s with
        shared := { s.shared with regions := s.shared.regions ++ [r] }
        inserting := before ++ after }
  | unguard (s : Running) (id : ℕ) (idle : s.sweeping = none) (drawn : id < s.shared.nextId)
      (returned : ∀ r ∈ s.inserting, r.id ≠ id) :
      Step s (.unguarded id) { s with shared := (Watchdog.unguard s.shared id).2 }
  | lock (s : Running) (os : SweepOs) (mode : WatchMode) (idle : s.sweeping = none) :
      Step s .other { s with
        sweeping := some ⟨os, mode, s.shared.regions.map (scanRegion s.shared.mem),
          sweepWrites os mode (s.shared.regions.map (scanRegion s.shared.mem))⟩ }
  | write (s : Running) (w : Sweeping) (a : Attempt) (rest : List Attempt)
      (holds : s.sweeping = some w) (next : w.pending = a :: rest) :
      Step s (.wrote a.1) { s with
        shared := { s.shared with mem := store s.shared.mem a }
        sweeping := some { w with pending := rest } }
  | unlock (s : Running) (w : Sweeping) (holds : s.sweeping = some w) (done : w.pending = []) :
      Step s .other { s with
        shared := { s.shared with
          regions := (reportLoop w.scanned
            (sweepRestored w.os w.mode w.scanned s.shared.mem)).1
          restorations := s.shared.restorations +
            (sweepRestored w.os w.mode w.scanned s.shared.mem).count true }
        sweeping := none }

inductive Steps : Running → List Label → Running → Prop where
  | nil (s : Running) : Steps s [] s
  | cons {s s' s'' : Running} {l : Label} {ls : List Label} (step : Step s l s')
      (rest : Steps s' ls s'') : Steps s (l :: ls) s''

theorem Steps.append {s s' s'' : Running} {ls ls' : List Label} (first : Steps s ls s')
    (second : Steps s' ls' s'') : Steps s (ls ++ ls') s'' := by
  induction first with
  | nil => exact second
  | cons step _ ih => exact .cons step (ih second)

theorem Steps.split {s s'' : Running} {before after : List Label}
    (steps : Steps s (before ++ after) s'') :
    ∃ s', Steps s before s' ∧ Steps s' after s'' := by
  induction before generalizing s with
  | nil => exact ⟨s, .nil s, steps⟩
  | cons l ls ih =>
    cases steps with
    | cons step rest =>
      obtain ⟨s', early, late⟩ := ih rest
      exact ⟨s', .cons step early, late⟩

/-! #### A sweep on its own is the sweep of one step -/

theorem rewriteLoop_outcomes (os : SweepOs) (n : ℕ) (targets : List Region) (m m' : ℕ → UInt8) :
    (rewriteLoop os n targets m).1 = (rewriteLoop os n targets m').1 := by
  induction targets generalizing n m m' with
  | nil => rfl
  | cons r rest ih =>
    rw [rewriteLoop, rewriteLoop]
    split_ifs
    · exact congrArg (false :: ·) (ih (n + 1) m m')
    · cases os.failsAfter n with
      | none => exact congrArg (true :: ·) (ih (n + 1) _ _)
      | some k => exact congrArg (false :: ·) (ih (n + 1) _ _)

theorem sweepRestored_mem (os : SweepOs) (mode : WatchMode)
    (scanned : List (Region × Option (List UInt8))) (m m' : ℕ → UInt8) :
    sweepRestored os mode scanned m = sweepRestored os mode scanned m' := by
  unfold sweepRestored restoreQuiescent
  split_ifs
  · exact rewriteLoop_outcomes os 0 _ m m'
  · rfl
  · rfl

theorem write_steps (s : Running) (w : Sweeping) (holds : s.sweeping = some w) :
    Steps s (w.pending.map fun a => .wrote a.1) { s with
      shared := { s.shared with mem := w.pending.foldl store s.shared.mem }
      sweeping := some { w with pending := [] } } := by
  obtain ⟨os, mode, scanned, pending⟩ := w
  induction pending generalizing s with
  | nil =>
    have same : s = { s with sweeping := some ⟨os, mode, scanned, []⟩ } := by rw [← holds]
    exact same ▸ .nil s
  | cons a rest ih =>
    exact .cons (.write s _ a rest holds rfl) (ih _ rfl)

theorem rewrites_eq (os : SweepOs) (s : Shared) :
    rewrites os s =
      (sweepRestored os s.mode (s.regions.map (scanRegion s.mem)) s.mem,
        (sweepWrites os s.mode (s.regions.map (scanRegion s.mem))).foldl store s.mem) := by
  unfold rewrites sweepRestored sweepWrites
  simp only
  split_ifs
  · rw [← restoreQuiescent_mem]
  · rfl

/-- The steps of a sweep that nothing interrupts lead to the state after `sweep`. -/
theorem sweep_steps (os : SweepOs) (s : Running) (idle : s.sweeping = none) :
    ∃ labels, Steps s labels { s with shared := (sweep os s.shared).1 } := by
  let w : Sweeping := ⟨os, s.shared.mode, s.shared.regions.map (scanRegion s.shared.mem),
    sweepWrites os s.shared.mode (s.shared.regions.map (scanRegion s.shared.mem))⟩
  have writing := write_steps { s with sweeping := some w } w rfl
  have unlock := Step.unlock
    { s with
      shared := { s.shared with mem := w.pending.foldl store s.shared.mem }
      sweeping := some { w with pending := [] } } { w with pending := [] } rfl rfl
  refine ⟨.other :: (w.pending.map (fun a => .wrote a.1) ++ [.other]),
    .cons (.lock s os s.shared.mode idle) (writing.append (.cons unlock ?_))⟩
  have last : Running.mk (sweep os s.shared).1 none s.inserting =
      { s with shared := (sweep os s.shared).1 } := by rw [← idle]
  rw [← last]
  unfold sweep
  rw [rewrites_eq]
  simp only [sweepRestored_mem w.os w.mode w.scanned (w.pending.foldl store s.shared.mem)
    s.shared.mem]
  exact .nil _

/-! #### A region that is no longer guarded -/

/-- The id was handed out and belongs to no region of the list, of a sweep or of a `guard` call. -/
structure Gone (id : ℕ) (s : Running) : Prop where
  drawn : id < s.shared.nextId
  regions : ∀ r ∈ s.shared.regions, r.id ≠ id
  inserting : ∀ r ∈ s.inserting, r.id ≠ id
  scanned : ∀ w, s.sweeping = some w → ∀ x ∈ w.scanned, x.1.id ≠ id
  pending : ∀ w, s.sweeping = some w → ∀ a ∈ w.pending, a.1.id ≠ id

theorem scanRegion_id (m : ℕ → UInt8) (r : Region) : (scanRegion m r).1.id = r.id := by
  unfold scanRegion
  split_ifs <;> rfl

/-- The writes of a sweep go to regions it compared. -/
theorem mem_sweepWrites {os : SweepOs} {mode : WatchMode}
    {scanned : List (Region × Option (List UInt8))} {a : Attempt}
    (there : a ∈ sweepWrites os mode scanned) : ∃ x ∈ scanned, x.1 = a.1 := by
  unfold sweepWrites writes at there
  split_ifs at there
  · obtain ⟨x, found, same⟩ := List.mem_filterMap.mp (mem_attempts there).1
    obtain ⟨_, _, equal⟩ := Option.map_eq_some_iff.mp same
    exact ⟨x, found, equal⟩
  · cases there
  · cases there

/-- A report keeps the ids of the regions. -/
theorem reportLoop_ids (scanned : List (Region × Option (List UInt8))) (restored : List Bool) :
    (reportLoop scanned restored).1.map (·.id) = scanned.map (·.1.id) := by
  induction scanned generalizing restored with
  | nil => rfl
  | cons x rest ih =>
    obtain ⟨r, found⟩ := x
    cases found with
    | none => simp [reportLoop, ih]
    | some bytes =>
      simp only [reportLoop]
      split_ifs <;> simp [ih]

/-- No step brings the id back, and none writes its region. -/
theorem Gone.step {id : ℕ} {s s' : Running} {l : Label} (gone : Gone id s) (step : Step s l s') :
    Gone id s' ∧ ∀ r, l = .wrote r → r.id ≠ id := by
  obtain ⟨drawn, regions, inserting, scanned, pending⟩ := gone
  cases step with
  | tamper a bs => exact ⟨⟨drawn, regions, inserting, scanned, pending⟩, nofun⟩
  | setMode mode => exact ⟨⟨drawn, regions, inserting, scanned, pending⟩, nofun⟩
  | setCallback callback => exact ⟨⟨drawn, regions, inserting, scanned, pending⟩, nofun⟩
  | draw target expected =>
    refine ⟨⟨Nat.lt_succ_of_lt drawn, regions, ?_, scanned, pending⟩, nofun⟩
    intro r there
    rcases List.mem_cons.mp there with rfl | waits
    · exact (Nat.ne_of_lt drawn).symm
    · exact inserting r waits
  | insert r before after idle waits =>
    rw [waits] at inserting
    refine ⟨⟨drawn, ?_, ?_, scanned, pending⟩, nofun⟩
    · intro other there
      rcases List.mem_append.mp there with old | new
      · exact regions other old
      · rw [List.mem_singleton.mp new]
        exact inserting r (by simp)
    · intro other there
      refine inserting other ?_
      rcases List.mem_append.mp there with early | late
      · exact List.mem_append_left _ early
      · exact List.mem_append_right _ (List.mem_cons_of_mem r late)
  | unguard other idle known returned =>
    refine ⟨⟨drawn, ?_, inserting, scanned, pending⟩, nofun⟩
    intro r there
    exact regions r (List.mem_filter.mp there).1
  | lock os mode idle =>
    have compared : ∀ x ∈ s.shared.regions.map (scanRegion s.shared.mem), x.1.id ≠ id := by
      intro x there
      obtain ⟨r, found, rfl⟩ := List.mem_map.mp there
      rw [scanRegion_id]
      exact regions r found
    refine ⟨⟨drawn, regions, inserting, ?_, ?_⟩, nofun⟩
    · intro w holds
      cases holds
      exact compared
    · intro w holds a planned
      cases holds
      obtain ⟨x, found, same⟩ := mem_sweepWrites planned
      rw [← same]
      exact compared x found
  | write w a rest holds next =>
    have later := pending w holds
    rw [next] at later
    refine ⟨⟨drawn, regions, inserting, ?_, ?_⟩, ?_⟩
    · intro w' holds'
      cases holds'
      exact scanned w holds
    · intro w' holds' b there
      cases holds'
      exact later b (List.mem_cons_of_mem a there)
    · intro r same
      cases same
      exact later a List.mem_cons_self
  | unlock w holds done =>
    refine ⟨⟨drawn, ?_, inserting, nofun, nofun⟩, nofun⟩
    intro r there same
    have listed : r.id ∈ w.scanned.map (·.1.id) := by
      rw [← reportLoop_ids]
      exact List.mem_map_of_mem there
    obtain ⟨x, found, equal⟩ := List.mem_map.mp listed
    exact scanned w holds x found (equal.trans same)

theorem Gone.steps {id : ℕ} {s s' : Running} {ls : List Label} (gone : Gone id s)
    (steps : Steps s ls s') : ∀ r, .wrote r ∈ ls → r.id ≠ id := by
  induction steps with
  | nil => exact nofun
  | cons step _ ih =>
    obtain ⟨still, unwritten⟩ := gone.step step
    intro r there
    rcases List.mem_cons.mp there with here | later
    · exact unwritten r here.symm
    · exact ih still r later

/-- `unguard` leaves nothing behind that could write the region. -/
theorem gone_of_unguard {id : ℕ} {s s' : Running} (step : Step s (.unguarded id) s') :
    Gone id s' := by
  cases step with
  | unguard _ idle drawn returned =>
    refine ⟨drawn, ?_, returned, ?_, ?_⟩
    · intro r there
      simpa using (List.mem_filter.mp there).2
    · intro w holds
      rw [idle] at holds
      cases holds
    · intro w holds
      rw [idle] at holds
      cases holds

/-- A rewrite meets every other thread suspended outside the region, and those suspended are resumed,
exactly when every live thread is listed and can be suspended or there is nothing to write; and no step
behind an `unguard` writes the region that was given up. -/
theorem restores_safely_iff (p : Process) (targets : List Region) (s s' : Running)
    (before after : List Label) (id : ℕ) :
    (Safe p targets ↔ p.Stoppable ∨ p.Idle targets) ∧
    (Steps s (before ++ .unguarded id :: after) s' → ∀ r, .wrote r ∈ after → r.id ≠ id) := by
  refine ⟨safe_iff p targets, fun steps => ?_⟩
  obtain ⟨_, _, rest⟩ := steps.split
  cases rest with
  | cons step later => exact (gone_of_unguard step).steps later

/-- A region to rewrite. -/
def sampleRegion : Region := ⟨1, 0x1000, [0xE9], true⟩

/-- A process with one other thread, which cannot be opened and runs in the region. -/
def deniedProcess : Process where
  transactionFree := true
  codeFree := true
  freezeFree := true
  live := [4]
  tids := [4]
  openThread _ := false
  suspendThread _ := false
  ip _ := some 0x1000
  failsAfter _ := none

/-- The same thread can be opened and suspended, but was created after the snapshot. -/
def lateProcess : Process :=
  { deniedProcess with tids := [], openThread := fun _ => true, suspendThread := fun _ => true }

/-- The region is rewritten while that thread runs. -/
theorem denied_thread_unsafe :
    ¬ Safe deniedProcess [sampleRegion] ∧ ¬ Safe lateProcess [sampleRegion] := by
  constructor
  · intro safe
    have held := (safe.quiet [] sampleRegion none [] rfl 4 (List.mem_singleton_self 4)).1
    cases held
  · intro safe
    have held := (safe.quiet [] sampleRegion none [] rfl 4 (List.mem_singleton_self 4)).1
    cases held

end Watchdog

end NeoHook
