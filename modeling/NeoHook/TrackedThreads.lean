import NeoHook.Machine

/-!
# Tracked threads

`update_thread` opens a handle, a commit suspends the tracked threads for its patch phase, and every
way out of a transaction resumes them, closes the handles and gives up the transaction lock.  Other
threads run between any two system calls: they exit, and they take and release the lock.
-/

namespace NeoHook

/-! ### The operating system -/

/-- What a handle refers to. -/
inductive Object where
  | thread (t : ℕ)
  | snapshot
  deriving DecidableEq, Repr

structure ThreadState where
  exited : Bool
  suspendCount : ℕ
  deriving DecidableEq, Repr

/-- `MAXIMUM_SUSPEND_COUNT`. -/
def maximumSuspendCount : ℕ := 127

structure Kernel where
  /-- The number of system calls so far. -/
  clock : ℕ
  threads : ℕ → ThreadState
  /-- Every handle opened so far; a handle is its position. -/
  handles : List Object
  /-- How often each handle was closed. -/
  closes : ℕ → ℕ
  /-- The thread that holds `TRANSACTION_LOCK`. -/
  owner : Option ℕ

/-- What another thread does. -/
inductive Foreign where
  | exit (t : ℕ)
  | lock (t : ℕ)
  | unlock (t : ℕ)
  deriving DecidableEq, Repr

/-- Answers of the OS, by the number of the system call. -/
structure KernelOs where
  currentProcess : ℕ
  currentThread : ℕ
  /-- The thread `OpenThread` opens for an id. -/
  openThread : ℕ → ℕ → Option ℕ
  /-- `SuspendThread` is not refused. -/
  suspendOk : ℕ → Bool
  /-- The process and thread ids of a snapshot. -/
  snapshot : ℕ → Option (List (ℕ × ℕ))
  /-- What other threads do before the call. -/
  foreign : ℕ → List Foreign

namespace Kernel

variable (os : KernelOs)

def setThread (k : Kernel) (t : ℕ) (s : ThreadState) : Kernel :=
  { k with threads := Function.update k.threads t s }

/-- A thread that exits is no longer suspended; only a free lock can be taken. -/
def foreign (k : Kernel) : Foreign → Kernel
  | .exit t => if (k.threads t).exited then k else k.setThread t ⟨true, 0⟩
  | .lock t => if k.owner = none ∧ t ≠ os.currentThread then { k with owner := some t } else k
  | .unlock t =>
    if k.owner = some t ∧ t ≠ os.currentThread then { k with owner := none } else k

/-- Time passes until the next system call. -/
def tick (k : Kernel) : Kernel :=
  { (os.foreign k.clock).foldl (foreign os) k with clock := k.clock + 1 }

def push (k : Kernel) (o : Object) : Kernel :=
  { k with
    handles := k.handles ++ [o]
    closes := Function.update k.closes k.handles.length 0 }

/-- `OpenThread`. -/
def openThread (k : Kernel) (id : ℕ) : Option ℕ × Kernel :=
  match os.openThread k.clock id with
  | none => (none, k.tick os)
  | some t => (some (k.tick os).handles.length, (k.tick os).push (.thread t))

/-- `CloseHandle`. -/
def closeHandle (k : Kernel) (h : ℕ) : Kernel :=
  { k.tick os with closes := Function.update (k.tick os).closes h ((k.tick os).closes h + 1) }

/-- The thread of an open handle. -/
def threadOf (k : Kernel) (h : ℕ) : Option ℕ :=
  match k.handles[h]? with
  | some (.thread t) => if k.closes h = 0 then some t else none
  | _ => none

/-- `SuspendThread`, `false` for `u32::MAX`. -/
def suspendThread (k : Kernel) (h : ℕ) : Bool × Kernel :=
  match (k.tick os).threadOf h with
  | none => (false, k.tick os)
  | some t =>
    let s := (k.tick os).threads t
    if s.exited ∨ maximumSuspendCount ≤ s.suspendCount ∨ os.suspendOk k.clock = false then
      (false, k.tick os)
    else (true, (k.tick os).setThread t { s with suspendCount := s.suspendCount + 1 })

/-- `ResumeThread`, which leaves a thread that is not suspended alone. -/
def resumeThread (k : Kernel) (h : ℕ) : Kernel :=
  match (k.tick os).threadOf h with
  | none => k.tick os
  | some t =>
    let s := (k.tick os).threads t
    (k.tick os).setThread t { s with suspendCount := s.suspendCount - 1 }

/-- `lock_transaction`, which waits until the lock is free. -/
def lockTransaction (k : Kernel) : Kernel :=
  { k.tick os with owner := some os.currentThread }

/-- `enumerate_process_threads`. -/
def enumerateProcessThreads (k : Kernel) : List ℕ × Kernel :=
  match os.snapshot k.clock with
  | none => ([], k.tick os)
  | some entries =>
    ((entries.filter fun e => e.1 = os.currentProcess ∧ e.2 ≠ os.currentThread).map (·.2),
      ((k.tick os).push .snapshot).closeHandle os (k.tick os).handles.length)

end Kernel

/-! ### The transaction -/

/-- `Vec::swap_remove`. -/
def swapRemove {α : Type*} (l : List α) (i : ℕ) : List α :=
  match l.getLast? with
  | none => []
  | some last => (l.set i last).dropLast

theorem length_swapRemove {α : Type*} (l : List α) (i : ℕ) :
    (swapRemove l i).length = l.length - 1 := by
  unfold swapRemove
  cases h : l.getLast? with
  | none => simp [List.getLast?_eq_none_iff.1 h]
  | some last => simp

structure TransactionCore where
  threads : List ℕ
  threadsSuspended : Bool
  pendingHooks : List PendingHook
  isPending : Bool
  /-- The transaction holds the lock itself. -/
  globalLock : Bool

/-- `begin`. -/
def TransactionCore.begin : TransactionCore := ⟨[], false, [], true, false⟩

/-- A transaction with the process around it. -/
structure Session where
  core : TransactionCore
  kernel : Kernel
  process : Process
  contexts : Threads

namespace Session

variable (os : KernelOs)

def acquireGlobalLock (s : Session) : Session :=
  if s.core.globalLock = false ∧ s.kernel.owner ≠ some os.currentThread then
    { s with core := { s.core with globalLock := true }, kernel := s.kernel.lockTransaction os }
  else s

/-- `update_thread`; the error of a finished transaction is its unchanged state. -/
def updateThread (s : Session) (id : ℕ) : Session :=
  if s.core.isPending = false then s
  else if id = 0 ∨ id = os.currentThread then s
  else match s.kernel.openThread os id with
    | (none, k) => { s with kernel := k }
    | (some h, k) =>
      let s := acquireGlobalLock os { s with kernel := k }
      { s with core := { s.core with threads := s.core.threads ++ [h] } }

def updateAllThreads (s : Session) : Session :=
  let ids := s.kernel.enumerateProcessThreads os
  ids.1.foldl (updateThread os) { s with kernel := ids.2 }

/-- The loop of `suspend_threads`, from position `i` on. -/
def suspendFrom (i : ℕ) (threads : List ℕ) (k : Kernel) : List ℕ × Kernel :=
  if hi : i < threads.length then
    match k.suspendThread os threads[i] with
    | (false, k) => suspendFrom i (swapRemove threads i) (k.closeHandle os threads[i])
    | (true, k) => suspendFrom (i + 1) threads k
  else (threads, k)
termination_by threads.length - i
decreasing_by
  · rw [length_swapRemove]
    omega
  · omega

def suspendThreads (s : Session) : Session :=
  if s.core.threadsSuspended then s
  else
    let r := suspendFrom os 0 s.core.threads s.kernel
    { s with
      core := { s.core with threads := r.1, threadsSuspended := true }
      kernel := r.2 }

def resumeThreads (s : Session) : Session :=
  if s.core.threadsSuspended then
    { s with
      core := { s.core with threadsSuspended := false }
      kernel := s.core.threads.foldl (Kernel.resumeThread os) s.kernel }
  else s

/-- Dropping the guard of the transaction lock. -/
def releaseGlobalLock (s : Session) : Session :=
  { s with
    core := { s.core with globalLock := false }
    kernel := if s.core.globalLock then { s.kernel with owner := none } else s.kernel }

def cleanupThreads (s : Session) : Session :=
  let s := s.resumeThreads os
  releaseGlobalLock { s with
    core := { s.core with threads := [] }
    kernel := s.core.threads.foldl (Kernel.closeHandle os) s.kernel }

def abort (s : Session) : Session :=
  if s.core.isPending = false then s
  else
    let s := cleanupThreads os { s with
      core := { s.core with pendingHooks := [] }
      process := dropPending s.process s.core.pendingHooks }
    { s with core := { s.core with isPending := false } }

/-- `Drop`. -/
def drop (s : Session) : Session := if s.core.isPending then s.abort os else s

/-- The answers of the OS in the patch phase, about the threads that are suspended. -/
def answers (s : Session) (a : CommitOs) : CommitOs :=
  { a with threads := s.core.threads.filterMap s.kernel.threadOf }

/-- `commit` of the queue it has taken, with the transaction lock held. -/
def commitQueue (E : Env) (a : CommitOs) (pending : List PendingHook) (s : Session) :
    Except DetourError (List Hook) × Session :=
  match reserveAll E.modules E.foreign a [] [] pending s.process with
  | (.error e, p) => (.error e, { s.cleanupThreads os with process := dropPending p pending })
  | (.ok reserved, p) =>
    match orphaned p.code pending with
    | some index =>
      (.error (.commitFailed index .inline .invalidParameter),
        { s.cleanupThreads os with process := dropPending (dropReserved p reserved) pending })
    | none =>
      let s := s.suspendThreads os
      let a := s.answers a
      match installAll E.modules a 0 (pending.zip reserved)
          ⟨p, ⟨s.contexts, [], []⟩, [], [], []⟩ with
      | (some (e, rest), w) =>
        let r := rollback E.modules a w rest
        (.error e, { s.cleanupThreads os with process := r.1, contexts := r.2 })
      | (none, w) =>
        let s := s.resumeThreads os
        let r := publishAll w.process.code w.installed
        let s := s.cleanupThreads os
        let p := finalizeDetaches E.modules a { w.process with code := r.1 } w.detached
        (.ok r.2, { s with
          core := { s.core with isPending := false }
          process := dropReserved p w.spare
          contexts := w.redirects.threads })

/-- The queue is left empty. -/
def takeQueue (s : Session) : Session := { s with core := { s.core with pendingHooks := [] } }

/-- `commit`. -/
def commit (E : Env) (a : CommitOs) (s : Session) : Except DetourError (List Hook) × Session :=
  if s.core.isPending = false then (.error .notStarted, s)
  else
    let s := s.acquireGlobalLock os
    commitQueue os E a s.core.pendingHooks s.takeQueue

end Session

/-- One call on the transaction, or what the rest of the program does between two calls. -/
inductive Call where
  | updateThread (id : ℕ)
  | updateAllThreads
  | queue (r : Request)
  | commit (a : CommitOs)
  | abort
  | others (p : Process) (contexts : Threads)

/-- How a transaction ends. -/
inductive Ending where
  | commit (a : CommitOs)
  | abort
  | drop

namespace Session

variable (E : Env) (os : KernelOs)

def begin (k : Kernel) (p : Process) (contexts : Threads) : Session := ⟨.begin, k, p, contexts⟩

/-- Queueing a hook is refused once the transaction is finished. -/
def queue (s : Session) (r : Request) : Session :=
  if s.core.isPending then
    let q := r.run E s.process s.core.pendingHooks
    { s with
      core := { s.core with pendingHooks := q.2 }
      process := { s.process with code := q.1 } }
  else s

def call (s : Session) : Call → Session
  | .updateThread id => s.updateThread os id
  | .updateAllThreads => s.updateAllThreads os
  | .queue r => s.queue E r
  | .commit a => (s.commit os E a).2
  | .abort => s.abort os
  | .others p contexts => { s with process := p, contexts }

def finish (s : Session) : Ending → Session
  | .commit a => (s.commit os E a).2
  | .abort => s.abort os
  | .drop => s.drop os

end Session

/-! ### The patch phase -/

/-- The reservations do not depend on the threads. -/
theorem reserveAll_threads (M : Modules) (foreign : List Region) (a : CommitOs) (threads : List ℕ)
    (earlier : List PendingHook) (reserved : List Reserved) (pending : List PendingHook)
    (p : Process) :
    reserveAll M foreign { a with threads } earlier reserved pending p =
      reserveAll M foreign a earlier reserved pending p := by
  induction pending generalizing earlier reserved p with
  | nil => rfl
  | cons hook rest ih =>
    unfold reserveAll
    have same : reserve M foreign earlier earlier.length hook { a with threads } p =
        reserve M foreign earlier earlier.length hook a p := rfl
    rw [same]
    split
    · rfl
    · exact ih _ _ _

namespace Session

variable (os : KernelOs)

theorem contexts_suspendThreads (s : Session) : (s.suspendThreads os).contexts = s.contexts := by
  unfold suspendThreads
  split_ifs <;> rfl

theorem contexts_cleanupThreads (s : Session) : (s.cleanupThreads os).contexts = s.contexts := by
  show (s.resumeThreads os).contexts = s.contexts
  unfold resumeThreads
  split_ifs <;> rfl

theorem commitQueue_eq (E : Env) (a : CommitOs) (pending : List PendingHook) (s : Session) :
    NeoHook.commit E.modules E.foreign pending ((s.suspendThreads os).answers a) s.process
      s.contexts = ((commitQueue os E a pending s).1, (commitQueue os E a pending s).2.process,
        (commitQueue os E a pending s).2.contexts) := by
  have reserving : reserveAll E.modules E.foreign ((s.suspendThreads os).answers a) [] [] pending
      s.process = reserveAll E.modules E.foreign a [] [] pending s.process :=
    reserveAll_threads _ _ _ _ _ _ _ _
  unfold commitQueue NeoHook.commit
  rw [reserving]
  rcases reserveAll E.modules E.foreign a [] [] pending s.process with ⟨e | reserved, p⟩
  · simp only [contexts_cleanupThreads]
  · simp only
    rcases orphaned p.code pending with _ | index
    · simp only [contexts_suspendThreads]
      rcases installAll E.modules ((s.suspendThreads os).answers a) 0 (pending.zip reserved)
        ⟨p, ⟨s.contexts, [], []⟩, [], [], []⟩ with ⟨_ | ⟨e, rest⟩, w⟩ <;> rfl
    · simp only [contexts_cleanupThreads]

/-- What `commit` does to code, tables and thread contexts, with the threads it could suspend. -/
theorem commit_eq (E : Env) (a : CommitOs) (s : Session) (pending : s.core.isPending = true) :
    ∃ threads, NeoHook.commit E.modules E.foreign s.core.pendingHooks { a with threads }
      s.process s.contexts =
        ((s.commit os E a).1, (s.commit os E a).2.process, (s.commit os E a).2.contexts) := by
  unfold commit
  rw [if_neg (by simp [pending])]
  refine ⟨(((s.acquireGlobalLock os).takeQueue.suspendThreads os).answers a).threads,
    Eq.trans ?_ (commitQueue_eq os E a _ _)⟩
  unfold acquireGlobalLock
  split_ifs <;> rfl

end Session

/-! ### Tracked handles are open, and suspensions are counted -/

theorem swapRemove_concat {α : Type*} (l : List α) (last : α) (i : ℕ) :
    swapRemove (l ++ [last]) i = if i < l.length then l.set i last else l := by
  unfold swapRemove
  rw [List.getLast?_concat]
  by_cases hi : i < l.length
  · rw [if_pos hi]
    show ((l ++ [last]).set i last).dropLast = _
    rw [List.set_append_left _ _ hi, List.dropLast_concat]
  · rw [if_neg hi]
    show ((l ++ [last]).set i last).dropLast = _
    rw [List.set_append_right _ _ (not_lt.1 hi)]
    cases i - l.length with
    | zero => exact List.dropLast_concat
    | succ n => exact List.dropLast_concat

/-- Taking a position out this way rearranges what is left. -/
theorem perm_cons_swapRemove {α : Type*} {l : List α} {i : ℕ} (hi : i < l.length) :
    l.Perm (l[i] :: swapRemove l i) := by
  induction l using List.reverseRecOn with
  | nil => cases hi
  | append_singleton l last _ =>
    rw [swapRemove_concat]
    by_cases lt : i < l.length
    · rw [if_pos lt, List.getElem_append_left lt]
      have moved : (last :: l.eraseIdx i).Perm (l.set i last) :=
        (List.set_perm_cons_eraseIdx lt last).symm
      have front : l.Perm (l[i] :: l.eraseIdx i) := (List.getElem_cons_eraseIdx_perm lt).symm
      exact (List.perm_append_singleton last l).trans
        ((front.cons last).trans ((List.Perm.swap _ _ _).trans (moved.cons _)))
    · rw [if_neg lt, List.getElem_append_right (not_lt.1 lt)]
      simp

theorem take_swapRemove {α : Type*} {l : List α} {i : ℕ} (hi : i < l.length) :
    (swapRemove l i).take i = l.take i := by
  induction l using List.reverseRecOn with
  | nil => cases hi
  | append_singleton l last _ =>
    rw [swapRemove_concat]
    have le : i ≤ l.length := by
      rw [List.length_append, List.length_singleton] at hi
      omega
    rw [List.take_append_of_le_length le]
    by_cases lt : i < l.length
    · rw [if_pos lt, List.take_set_of_le (le_refl i)]
    · rw [if_neg lt]

namespace Kernel

/-- A handle of the thread. -/
def refersTo (k : Kernel) (t h : ℕ) : Bool := k.handles[h]? = some (.thread t)

theorem refersTo_setThread (k : Kernel) (t : ℕ) (s : ThreadState) :
    (k.setThread t s).refersTo = k.refersTo := rfl

/-- What has become of the kernel since `start`: a transaction tracks some of the handles opened
since, and holds some of the tracked threads suspended. -/
structure Ledger (start : Kernel) (suspended tracked : List ℕ) (k : Kernel) : Prop where
  opened : start.handles <+: k.handles
  nodup : tracked.Nodup
  sub : suspended ⊆ tracked
  /-- A tracked handle was opened since and is open. -/
  tracked_open : ∀ h ∈ tracked,
    start.handles.length ≤ h ∧ h < k.handles.length ∧ k.closes h = 0
  /-- Every other handle opened since was closed once. -/
  closed_once : ∀ h, start.handles.length ≤ h → h < k.handles.length → h ∉ tracked →
    k.closes h = 1
  untouched : ∀ h < start.handles.length, k.closes h = start.closes h
  /-- A running thread has its own count and one for each suspension. -/
  running : ∀ t, (k.threads t).exited = false → (start.threads t).exited = false ∧
    (k.threads t).suspendCount =
      (start.threads t).suspendCount + suspended.countP (k.refersTo t)
  exited_since : ∀ t, (k.threads t).exited = true → (start.threads t).exited = false →
    (k.threads t).suspendCount = 0
  exited_before : ∀ t, (start.threads t).exited = true →
    (k.threads t).suspendCount = (start.threads t).suspendCount ∧
      ∀ h ∈ suspended, k.refersTo t h = false

namespace Ledger

variable {os : KernelOs} {start k : Kernel} {suspended tracked : List ℕ}

theorem refl (k : Kernel) : Ledger k [] [] k where
  opened := List.prefix_rfl
  nodup := List.nodup_nil
  sub := List.Subset.refl _
  tracked_open := fun h mem => absurd mem List.not_mem_nil
  closed_once := fun h le lt _ => absurd lt (not_lt.2 le)
  untouched := fun h _ => rfl
  running := fun t live => ⟨live, rfl⟩
  exited_since := fun t gone live => absurd gone (by rw [live]; exact Bool.false_ne_true)
  exited_before := fun t _ => ⟨rfl, fun h mem => absurd mem List.not_mem_nil⟩

/-- Only the threads, the handles and how often they were closed count. -/
theorem congr (ledger : Ledger start suspended tracked k) {k' : Kernel}
    (threads : k'.threads = k.threads) (handles : k'.handles = k.handles)
    (closes : k'.closes = k.closes) : Ledger start suspended tracked k' := by
  obtain ⟨clock, threads', handles', closes', owner⟩ := k'
  subst threads handles closes
  exact ⟨ledger.opened, ledger.nodup, ledger.sub, ledger.tracked_open, ledger.closed_once,
    ledger.untouched, ledger.running, ledger.exited_since, ledger.exited_before⟩

theorem perm (ledger : Ledger start suspended tracked k) {suspended' tracked' : List ℕ}
    (hs : suspended.Perm suspended') (ht : tracked.Perm tracked') :
    Ledger start suspended' tracked' k where
  opened := ledger.opened
  nodup := ht.nodup_iff.1 ledger.nodup
  sub := fun h mem => ht.mem_iff.1 (ledger.sub (hs.mem_iff.2 mem))
  tracked_open := fun h mem => ledger.tracked_open h (ht.mem_iff.2 mem)
  closed_once := fun h le lt out => ledger.closed_once h le lt fun mem => out (ht.mem_iff.1 mem)
  untouched := ledger.untouched
  running := fun t live => by
    rw [← hs.countP_eq]
    exact ledger.running t live
  exited_since := ledger.exited_since
  exited_before := fun t gone =>
    ⟨(ledger.exited_before t gone).1,
      fun h mem => (ledger.exited_before t gone).2 h (hs.mem_iff.2 mem)⟩

/-! ### What the other threads do -/

theorem foreign (ledger : Ledger start suspended tracked k) (f : Foreign) :
    Ledger start suspended tracked (k.foreign os f) := by
  cases f with
  | exit t =>
    simp only [Kernel.foreign]
    by_cases gone : (k.threads t).exited = true
    · rw [if_pos gone]
      exact ledger
    · rw [if_neg gone]
      have live : (k.threads t).exited = false := Bool.eq_false_of_not_eq_true gone
      refine ⟨ledger.opened, ledger.nodup, ledger.sub, ledger.tracked_open, ledger.closed_once,
        ledger.untouched, fun u live' => ?_, fun u gone' live' => ?_, fun u before => ?_⟩
      · have ne : u ≠ t := by
          rintro rfl
          simp [setThread] at live'
        simp only [setThread, Function.update_of_ne ne] at live' ⊢
        exact ledger.running u live'
      · by_cases eq : u = t
        · subst eq
          simp [setThread]
        · simp only [setThread, Function.update_of_ne eq] at gone' ⊢
          exact ledger.exited_since u gone' live'
      · have ne : u ≠ t := by
          rintro rfl
          rw [(ledger.running u live).1] at before
          cases before
        simp only [setThread, Function.update_of_ne ne]
        exact ledger.exited_before u before
  | lock t =>
    simp only [Kernel.foreign]
    split_ifs
    · exact ledger.congr rfl rfl rfl
    · exact ledger
  | unlock t =>
    simp only [Kernel.foreign]
    split_ifs
    · exact ledger.congr rfl rfl rfl
    · exact ledger

theorem tick (ledger : Ledger start suspended tracked k) :
    Ledger start suspended tracked (k.tick os) := by
  have all : ∀ (fs : List Foreign) (k : Kernel), Ledger start suspended tracked k →
      Ledger start suspended tracked (fs.foldl (Kernel.foreign os) k) := by
    intro fs
    induction fs with
    | nil => exact fun k ledger => ledger
    | cons f fs ih => exact fun k ledger => ih _ (ledger.foreign f)
  exact (all _ k ledger).congr rfl rfl rfl

/-! ### System calls -/

theorem refersTo_push (o : Object) {t h : ℕ} (lt : h < k.handles.length) :
    (k.push o).refersTo t h = k.refersTo t h := by
  unfold refersTo push
  rw [List.getElem?_append_left lt]

theorem length_push (o : Object) : (k.push o).handles.length = k.handles.length + 1 := by
  simp [Kernel.push]

theorem push (ledger : Ledger start suspended tracked k) (o : Object) :
    Ledger start suspended (tracked ++ [k.handles.length]) (k.push o) where
  opened := ledger.opened.trans (List.prefix_append _ _)
  nodup := by
    refine ledger.nodup.append (List.nodup_singleton _) ?_
    rw [List.disjoint_singleton]
    exact fun mem => lt_irrefl _ (ledger.tracked_open _ mem).2.1
  sub := fun h mem => List.mem_append_left _ (ledger.sub mem)
  tracked_open := fun h mem => by
    rw [length_push]
    rcases List.mem_append.1 mem with mem | mem
    · obtain ⟨le, lt, still⟩ := ledger.tracked_open h mem
      exact ⟨le, by omega, (Function.update_of_ne (by omega) _ _).trans still⟩
    · obtain rfl := List.mem_singleton.1 mem
      exact ⟨ledger.opened.length_le, by omega, Function.update_self _ _ _⟩
  closed_once := fun h le lt out => by
    rw [List.mem_append, List.mem_singleton, not_or] at out
    rw [length_push] at lt
    exact (Function.update_of_ne out.2 _ _).trans
      (ledger.closed_once h le (by have := out.2; omega) out.1)
  untouched := fun h lt => by
    have le := ledger.opened.length_le
    exact (Function.update_of_ne (by omega) _ _).trans (ledger.untouched h lt)
  running := fun t live => by
    refine ⟨(ledger.running t live).1, (ledger.running t live).2.trans ?_⟩
    congr 1
    refine List.countP_congr fun h mem => ?_
    rw [refersTo_push o (ledger.tracked_open h (ledger.sub mem)).2.1]
  exited_since := ledger.exited_since
  exited_before := fun t gone => by
    refine ⟨(ledger.exited_before t gone).1, fun h mem => ?_⟩
    rw [refersTo_push o (ledger.tracked_open h (ledger.sub mem)).2.1]
    exact (ledger.exited_before t gone).2 h mem

theorem closeHandle {h : ℕ} (ledger : Ledger start suspended (h :: tracked) k)
    (sub : suspended ⊆ tracked) : Ledger start suspended tracked (k.closeHandle os h) := by
  replace ledger : Ledger start suspended (h :: tracked) (k.tick os) := ledger.tick
  obtain ⟨fresh, nodup⟩ := List.nodup_cons.1 ledger.nodup
  obtain ⟨le, lt, still⟩ := ledger.tracked_open h List.mem_cons_self
  refine ⟨ledger.opened, nodup, sub, fun g mem => ?_, fun g le' lt' out => ?_, fun g lt' => ?_,
    ledger.running, ledger.exited_since, ledger.exited_before⟩
  · have ne : g ≠ h := fun eq => fresh (eq ▸ mem)
    obtain ⟨le', lt', still'⟩ := ledger.tracked_open g (List.mem_cons_of_mem h mem)
    exact ⟨le', lt', (Function.update_of_ne ne _ _).trans still'⟩
  · by_cases eq : g = h
    · subst eq
      show Function.update _ g _ g = 1
      rw [Function.update_self, still]
    · exact (Function.update_of_ne eq _ _).trans
        (ledger.closed_once g le' lt' fun mem => (List.mem_cons.1 mem).elim eq out)
  · exact (Function.update_of_ne (by omega) _ _).trans (ledger.untouched g lt')

theorem handle_of_threadOf {t h : ℕ} (found : k.threadOf h = some t) :
    k.handles[h]? = some (.thread t) := by
  unfold threadOf at found
  split at found
  · next u eq =>
    split_ifs at found
    rw [eq, ← Option.some.inj found]
  · cases found

theorem refersTo_iff {t u h : ℕ} (found : k.threadOf h = some t) :
    k.refersTo u h = true ↔ t = u := by
  rw [refersTo, handle_of_threadOf found, decide_eq_true_eq, Option.some.injEq, Object.thread.injEq]

/-- An open handle of no thread. -/
theorem refersTo_of_threadOf_eq_none {h : ℕ} (none : k.threadOf h = none) (still : k.closes h = 0)
    (t : ℕ) : k.refersTo t h = false := by
  unfold threadOf at none
  unfold refersTo
  split at none
  · next u eq => simp [still] at none
  · next ne => exact decide_eq_false (ne t)

theorem suspendThread {h : ℕ} {done : Bool} {k' : Kernel}
    (ledger : Ledger start suspended tracked k) (mem : h ∈ tracked)
    (call : k.suspendThread os h = (done, k')) :
    Ledger start (if done then h :: suspended else suspended) tracked k' := by
  replace ledger : Ledger start suspended tracked (k.tick os) := ledger.tick
  unfold Kernel.suspendThread at call
  cases found : (k.tick os).threadOf h with
  | none =>
    rw [found] at call
    obtain ⟨rfl, rfl⟩ := Prod.mk.inj call
    exact ledger
  | some t =>
    simp only [found] at call
    by_cases refused : ((k.tick os).threads t).exited = true ∨
        maximumSuspendCount ≤ ((k.tick os).threads t).suspendCount ∨ os.suspendOk k.clock = false
    · rw [if_pos refused] at call
      obtain ⟨rfl, rfl⟩ := Prod.mk.inj call
      exact ledger
    · rw [if_neg refused] at call
      obtain ⟨rfl, rfl⟩ := Prod.mk.inj call
      have live : ((k.tick os).threads t).exited = false :=
        Bool.eq_false_of_not_eq_true fun gone => refused (Or.inl gone)
      rw [if_pos rfl]
      refine ⟨ledger.opened, ledger.nodup, List.cons_subset.2 ⟨mem, ledger.sub⟩,
        ledger.tracked_open, ledger.closed_once, ledger.untouched, fun u live' => ?_,
        fun u gone live' => ?_, fun u gone => ?_⟩
      · by_cases eq : u = t
        · subst eq
          obtain ⟨before, count⟩ := ledger.running u live
          refine ⟨before, ?_⟩
          rw [refersTo_setThread, List.countP_cons_of_pos ((refersTo_iff found).2 rfl)]
          simp only [setThread, Function.update_self, count]
          rfl
        · rw [refersTo_setThread,
            List.countP_cons_of_neg fun refers => eq ((refersTo_iff found).1 refers).symm]
          simp only [setThread, Function.update_of_ne eq] at live' ⊢
          exact ledger.running u live'
      · have ne : u ≠ t := by
          rintro rfl
          simp [setThread, live] at gone
        simp only [setThread, Function.update_of_ne ne] at gone ⊢
        exact ledger.exited_since u gone live'
      · have ne : t ≠ u := by
          rintro rfl
          rw [(ledger.running t live).1] at gone
          cases gone
        simp only [setThread, Function.update_of_ne ne.symm]
        refine ⟨(ledger.exited_before u gone).1, fun g mem' => ?_⟩
        rcases List.mem_cons.1 mem' with rfl | mem'
        · exact Bool.eq_false_of_not_eq_true fun refers => ne ((refersTo_iff found).1 refers)
        · exact (ledger.exited_before u gone).2 g mem'

theorem resumeThread {h : ℕ} (ledger : Ledger start (h :: suspended) tracked k) :
    Ledger start suspended tracked (k.resumeThread os h) := by
  replace ledger : Ledger start (h :: suspended) tracked (k.tick os) := ledger.tick
  obtain ⟨mem, sub⟩ := List.cons_subset.1 ledger.sub
  unfold Kernel.resumeThread
  cases found : (k.tick os).threadOf h with
  | none =>
    have other := refersTo_of_threadOf_eq_none found (ledger.tracked_open h mem).2.2
    refine ⟨ledger.opened, ledger.nodup, sub, ledger.tracked_open, ledger.closed_once,
      ledger.untouched, fun t live => ?_, ledger.exited_since, fun t gone =>
        ⟨(ledger.exited_before t gone).1,
          fun g mem' => (ledger.exited_before t gone).2 g (List.mem_cons_of_mem h mem')⟩⟩
    have running := ledger.running t live
    rwa [List.countP_cons_of_neg (by simp [other t])] at running
  | some t =>
    refine ⟨ledger.opened, ledger.nodup, sub, ledger.tracked_open, ledger.closed_once,
      ledger.untouched, fun u live => ?_, fun u gone live => ?_, fun u gone => ?_⟩
    · by_cases eq : u = t
      · subst eq
        simp only [setThread, Function.update_self] at live ⊢
        obtain ⟨before, count⟩ := ledger.running u live
        rw [List.countP_cons_of_pos ((refersTo_iff found).2 rfl)] at count
        refine ⟨before, ?_⟩
        rw [count]
        rfl
      · simp only [setThread, Function.update_of_ne eq] at live ⊢
        have running := ledger.running u live
        rwa [List.countP_cons_of_neg fun refers => eq ((refersTo_iff found).1 refers).symm]
          at running
    · by_cases eq : u = t
      · subst eq
        simp only [setThread, Function.update_self] at gone ⊢
        rw [ledger.exited_since u gone live]
      · simp only [setThread, Function.update_of_ne eq] at gone ⊢
        exact ledger.exited_since u gone live
    · obtain ⟨count, others⟩ := ledger.exited_before u gone
      have ne : u ≠ t := by
        rintro rfl
        have := others h List.mem_cons_self
        rw [(refersTo_iff found).2 rfl] at this
        cases this
      simp only [setThread, Function.update_of_ne ne]
      exact ⟨count, fun g mem' => others g (List.mem_cons_of_mem h mem')⟩

theorem resumeAll (ledger : Ledger start suspended tracked k) :
    Ledger start [] tracked (suspended.foldl (Kernel.resumeThread os) k) := by
  induction suspended generalizing k with
  | nil => exact ledger
  | cons h suspended ih => exact ih ledger.resumeThread

theorem closeAll (ledger : Ledger start [] tracked k) :
    Ledger start [] [] (tracked.foldl (Kernel.closeHandle os) k) := by
  induction tracked generalizing k with
  | nil => exact ledger
  | cons h tracked ih => exact ih (ledger.closeHandle (List.nil_subset _))

/-- The loop of `suspend_threads` leaves exactly the suspended threads tracked. -/
theorem suspendFrom (i : ℕ) (threads : List ℕ) (k : Kernel)
    (ledger : Ledger start (threads.take i) threads k) :
    Ledger start (Session.suspendFrom os i threads k).1 (Session.suspendFrom os i threads k).1
      (Session.suspendFrom os i threads k).2 := by
  induction i, threads, k using Session.suspendFrom.induct os with
  | case1 i threads k lt k' call ih =>
    rw [Session.suspendFrom, dif_pos lt, call]
    have whole := (ledger.suspendThread (List.getElem_mem lt) call).perm (List.Perm.refl _)
      (perm_cons_swapRemove lt)
    refine ih (?_ : Ledger start _ _ _)
    rw [take_swapRemove lt]
    refine whole.closeHandle ?_
    rw [← take_swapRemove lt]
    exact List.take_subset i _
  | case2 i threads k lt k' call ih =>
    rw [Session.suspendFrom, dif_pos lt, call]
    refine ih ((ledger.suspendThread (List.getElem_mem lt) call).perm ?_ (List.Perm.refl _))
    rw [if_pos rfl, List.take_add_one, List.getElem?_eq_getElem lt]
    exact (List.perm_append_singleton _ _).symm
  | case3 i threads k ge =>
    rw [Session.suspendFrom, dif_neg ge]
    rwa [List.take_of_length_le (not_lt.1 ge)] at ledger

end Ledger

/-! ### The transaction lock -/

theorem foreign_owner (os : KernelOs) (k : Kernel) (f : Foreign) :
    (k.foreign os f).owner = some os.currentThread ↔ k.owner = some os.currentThread := by
  cases f with
  | exit t =>
    simp only [foreign]
    split_ifs <;> rfl
  | lock t =>
    simp only [foreign]
    split_ifs with free
    · rw [free.1, Option.some.injEq]
      exact ⟨fun eq => absurd eq free.2, fun eq => nomatch eq⟩
    · rfl
  | unlock t =>
    simp only [foreign]
    split_ifs with held
    · rw [held.1, Option.some.injEq]
      exact ⟨(fun eq => nomatch eq), fun eq => absurd eq held.2⟩
    · rfl

/-- Other threads neither take the lock from this one nor give it to it. -/
theorem tick_owner (os : KernelOs) (k : Kernel) :
    (k.tick os).owner = some os.currentThread ↔ k.owner = some os.currentThread := by
  have all : ∀ (fs : List Foreign) (k : Kernel),
      (fs.foldl (foreign os) k).owner = some os.currentThread ↔
        k.owner = some os.currentThread := by
    intro fs
    induction fs with
    | nil => exact fun k => Iff.rfl
    | cons f fs ih => exact fun k => (ih _).trans (foreign_owner os k f)
  exact all _ k

/-- This thread holds the lock as it did at `start`, or since the transaction took it. -/
structure LockKept (os : KernelOs) (start : Kernel) (globalLock : Bool) (k : Kernel) : Prop where
  owner : k.owner = some os.currentThread ↔
    globalLock = true ∨ start.owner = some os.currentThread
  taken : globalLock = true → start.owner ≠ some os.currentThread

namespace LockKept

variable {os : KernelOs} {start k : Kernel} {globalLock : Bool}

theorem tick (kept : LockKept os start globalLock k) : LockKept os start globalLock (k.tick os) :=
  ⟨(tick_owner os k).trans kept.owner, kept.taken⟩

theorem congr (kept : LockKept os start globalLock k) {k' : Kernel} (owner : k'.owner = k.owner) :
    LockKept os start globalLock k' :=
  ⟨by rw [owner]; exact kept.owner, kept.taken⟩

theorem closeHandle (kept : LockKept os start globalLock k) (h : ℕ) :
    LockKept os start globalLock (k.closeHandle os h) := kept.tick.congr rfl

theorem suspendThread (kept : LockKept os start globalLock k) {h : ℕ} {done : Bool} {k' : Kernel}
    (call : k.suspendThread os h = (done, k')) : LockKept os start globalLock k' := by
  refine kept.tick.congr ?_
  simp only [Kernel.suspendThread] at call
  split at call
  · rw [← (Prod.mk.inj call).2]
  · split_ifs at call <;> rw [← (Prod.mk.inj call).2]
    rfl

theorem resumeThread (kept : LockKept os start globalLock k) (h : ℕ) :
    LockKept os start globalLock (k.resumeThread os h) := by
  refine kept.tick.congr ?_
  unfold Kernel.resumeThread
  split <;> rfl

theorem foldl (f : Kernel → ℕ → Kernel)
    (step : ∀ k h, LockKept os start globalLock k → LockKept os start globalLock (f k h))
    (kept : LockKept os start globalLock k) (handles : List ℕ) :
    LockKept os start globalLock (handles.foldl f k) := by
  induction handles generalizing k with
  | nil => exact kept
  | cons h handles ih => exact ih (step k h kept)

theorem suspendFrom (i : ℕ) (threads : List ℕ) (k : Kernel)
    (kept : LockKept os start globalLock k) :
    LockKept os start globalLock (Session.suspendFrom os i threads k).2 := by
  induction i, threads, k using Session.suspendFrom.induct os with
  | case1 i threads k lt k' call ih =>
    rw [Session.suspendFrom, dif_pos lt, call]
    exact ih ((kept.suspendThread call).closeHandle _)
  | case2 i threads k lt k' call ih =>
    rw [Session.suspendFrom, dif_pos lt, call]
    exact ih (kept.suspendThread call)
  | case3 i threads k ge =>
    rw [Session.suspendFrom, dif_neg ge]
    exact kept

end LockKept

end Kernel

namespace Session

open Kernel

variable {E : Env} {os : KernelOs} {start : Kernel} {s : Session}

/-- What holds at every point of a transaction begun at `start`. -/
structure Kept (os : KernelOs) (start : Kernel) (s : Session) : Prop where
  ledger : Ledger start (if s.core.threadsSuspended then s.core.threads else []) s.core.threads
    s.kernel
  lock : LockKept os start s.core.globalLock s.kernel

/-- Nothing is tracked or held any more. -/
structure Released (os : KernelOs) (start : Kernel) (s : Session) : Prop where
  threads : s.core.threads = []
  resumed : s.core.threadsSuspended = false
  unlocked : s.core.globalLock = false
  ledger : Ledger start [] [] s.kernel
  lock : LockKept os start false s.kernel

/-- What holds between two calls. -/
structure Settled (os : KernelOs) (start : Kernel) (s : Session) : Prop where
  kept : Kept os start s
  resumed : s.core.threadsSuspended = false
  finished : s.core.isPending = false → s.core.threads = [] ∧ s.core.globalLock = false

theorem Released.settled (released : Released os start s) : Settled os start s where
  kept := by
    refine ⟨?_, ?_⟩
    · rw [released.resumed, released.threads]
      exact released.ledger
    · rw [released.unlocked]
      exact released.lock
  resumed := released.resumed
  finished := fun _ => ⟨released.threads, released.unlocked⟩

theorem Settled.released (settled : Settled os start s) (done : s.core.isPending = false) :
    Released os start s where
  threads := (settled.finished done).1
  resumed := settled.resumed
  unlocked := (settled.finished done).2
  ledger := by
    have ledger := settled.kept.ledger
    rwa [settled.resumed, (settled.finished done).1] at ledger
  lock := by
    have lock := settled.kept.lock
    rwa [(settled.finished done).2] at lock

/-- The tracked threads, the kernel and the lock are all a session is judged by. -/
theorem Released.congr (released : Released os start s) {s' : Session}
    (threads : s'.core.threads = s.core.threads)
    (suspended : s'.core.threadsSuspended = s.core.threadsSuspended)
    (globalLock : s'.core.globalLock = s.core.globalLock) (kernel : s'.kernel = s.kernel) :
    Released os start s' where
  threads := threads.trans released.threads
  resumed := suspended.trans released.resumed
  unlocked := globalLock.trans released.unlocked
  ledger := by
    rw [kernel]
    exact released.ledger
  lock := by
    rw [kernel]
    exact released.lock

theorem settled_begin (k : Kernel) (p : Process) (contexts : Threads) :
    Settled os k (begin k p contexts) where
  kept := ⟨Ledger.refl k, ⟨by simp [begin, TransactionCore.begin], fun held => nomatch held⟩⟩
  resumed := rfl
  finished := fun done => nomatch done

/-! ### The parts of a call -/

theorem kept_acquireGlobalLock (kept : Kept os start s) :
    Kept os start (s.acquireGlobalLock os) := by
  unfold acquireGlobalLock
  by_cases free : s.core.globalLock = false ∧ s.kernel.owner ≠ some os.currentThread
  · rw [if_pos free]
    refine ⟨kept.ledger.tick.congr rfl rfl rfl, ?_, fun _ before => ?_⟩
    · exact ⟨fun _ => Or.inl rfl, fun _ => rfl⟩
    · exact free.2 (kept.lock.owner.2 (Or.inr before))
  · rw [if_neg free]
    exact kept

theorem kept_suspendThreads (kept : Kept os start s) : Kept os start (s.suspendThreads os) := by
  unfold suspendThreads
  by_cases suspended : s.core.threadsSuspended = true
  · rw [if_pos suspended]
    exact kept
  · rw [if_neg suspended]
    have ledger := kept.ledger
    rw [if_neg suspended] at ledger
    exact ⟨Ledger.suspendFrom 0 _ _ ledger, kept.lock.suspendFrom 0 _ _⟩

theorem kept_resumeThreads (kept : Kept os start s) : Kept os start (s.resumeThreads os) := by
  unfold resumeThreads
  by_cases suspended : s.core.threadsSuspended = true
  · rw [if_pos suspended]
    have ledger := kept.ledger
    rw [if_pos suspended] at ledger
    exact ⟨ledger.resumeAll, kept.lock.foldl _ (fun k h kept => kept.resumeThread h) _⟩
  · rw [if_neg suspended]
    exact kept

theorem resumeThreads_resumed (s : Session) :
    (s.resumeThreads os).core.threadsSuspended = false := by
  unfold resumeThreads
  split_ifs with suspended
  · rfl
  · exact Bool.eq_false_of_not_eq_true suspended

/-- Dropping the guard gives the lock up if the transaction took it. -/
theorem lockKept_release {globalLock : Bool} {k : Kernel} (lock : LockKept os start globalLock k) :
    LockKept os start false (if globalLock then { k with owner := none } else k) := by
  cases globalLock with
  | false => exact lock
  | true =>
    refine ⟨⟨(fun eq => nomatch eq), fun before => ?_⟩, fun held => nomatch held⟩
    exact absurd (before.resolve_left Bool.false_ne_true) (lock.taken rfl)

theorem released_cleanupThreads (kept : Kept os start s) :
    Released os start (s.cleanupThreads os) := by
  have resumed := kept_resumeThreads kept
  have ledger := resumed.ledger
  rw [resumeThreads_resumed] at ledger
  have lock := resumed.lock.foldl (Kernel.closeHandle os) (fun k h kept => kept.closeHandle h)
    (s.resumeThreads os).core.threads
  refine ⟨rfl, resumeThreads_resumed s, rfl, ?_, lockKept_release lock⟩
  show Ledger start [] [] (if (s.resumeThreads os).core.globalLock then _ else _)
  split_ifs
  · exact ledger.closeAll.congr rfl rfl rfl
  · exact ledger.closeAll

/-! ### Whole calls -/

theorem settled_updateThread (settled : Settled os start s) (id : ℕ) :
    Settled os start (s.updateThread os id) := by
  unfold updateThread
  split_ifs with done skipped
  · exact settled
  · exact settled
  · have pending : s.core.isPending ≠ false := done
    cases opened : os.openThread s.kernel.clock id with
    | none =>
      simp only [Kernel.openThread, opened]
      exact ⟨⟨settled.kept.ledger.tick, settled.kept.lock.tick⟩, settled.resumed,
        fun done => absurd done pending⟩
    | some t =>
      simp only [Kernel.openThread, opened]
      set k := (s.kernel.tick os).push (.thread t) with k_eq
      have ledger := settled.kept.ledger
      rw [settled.resumed] at ledger
      have pushed : Kept os start { s with
          core := { s.core with threads := s.core.threads ++ [(s.kernel.tick os).handles.length] }
          kernel := k } := by
        refine ⟨?_, settled.kept.lock.tick.congr rfl⟩
        show Ledger start (if s.core.threadsSuspended then _ else []) _ _
        rw [settled.resumed]
        exact ledger.tick.push _
      have acquired := kept_acquireGlobalLock pushed
      unfold acquireGlobalLock at acquired ⊢
      split_ifs at acquired ⊢ with free
      · exact ⟨acquired, settled.resumed, fun done => absurd done pending⟩
      · exact ⟨acquired, settled.resumed, fun done => absurd done pending⟩

theorem settled_updateAllThreads (settled : Settled os start s) :
    Settled os start (s.updateAllThreads os) := by
  have all : ∀ (ids : List ℕ) (s : Session), Settled os start s →
      Settled os start (ids.foldl (updateThread os) s) := by
    intro ids
    induction ids with
    | nil => exact fun s settled => settled
    | cons id ids ih => exact fun s settled => ih _ (settled_updateThread settled id)
  refine all _ _ ⟨⟨?_, ?_⟩, settled.resumed, settled.finished⟩
  · have ledger := settled.kept.ledger
    rw [settled.resumed] at ledger
    show Ledger start (if s.core.threadsSuspended then _ else []) s.core.threads _
    rw [settled.resumed]
    unfold enumerateProcessThreads
    cases os.snapshot s.kernel.clock with
    | none => exact ledger.tick
    | some entries =>
      exact ((ledger.tick.push .snapshot).perm (List.Perm.refl _)
        (List.perm_append_singleton _ _)).closeHandle (List.nil_subset _)
  · show LockKept os start s.core.globalLock _
    unfold enumerateProcessThreads
    cases os.snapshot s.kernel.clock with
    | none => exact settled.kept.lock.tick
    | some entries =>
      have pushed : LockKept os start s.core.globalLock ((s.kernel.tick os).push .snapshot) :=
        settled.kept.lock.tick.congr rfl
      exact pushed.closeHandle _

theorem released_abort (settled : Settled os start s) : Released os start (s.abort os) := by
  unfold abort
  by_cases done : s.core.isPending = false
  · rw [if_pos done]
    exact settled.released done
  · rw [if_neg done]
    have kept : Kept os start { s with
        core := { s.core with pendingHooks := [] }
        process := dropPending s.process s.core.pendingHooks } :=
      ⟨settled.kept.ledger, settled.kept.lock⟩
    exact (released_cleanupThreads kept).congr rfl rfl rfl rfl

theorem released_drop (settled : Settled os start s) : Released os start (s.drop os) := by
  unfold drop
  split_ifs with pending
  · exact released_abort settled
  · exact settled.released (Bool.eq_false_of_not_eq_true pending)

/-- Every way out of `commit` releases what the transaction tracked and held. -/
theorem released_commitQueue (kept : Kept os start s) (a : CommitOs) (pending : List PendingHook) :
    Released os start (commitQueue os E a pending s).2 := by
  have frozen := kept_suspendThreads kept
  unfold commitQueue
  split
  · exact (released_cleanupThreads kept).congr rfl rfl rfl rfl
  · split
    · exact (released_cleanupThreads kept).congr rfl rfl rfl rfl
    · simp only
      split
      · exact (released_cleanupThreads frozen).congr rfl rfl rfl rfl
      · exact (released_cleanupThreads (kept_resumeThreads frozen)).congr rfl rfl rfl rfl

theorem released_commit (settled : Settled os start s) (a : CommitOs) :
    Released os start (s.commit os E a).2 := by
  unfold commit
  by_cases done : s.core.isPending = false
  · rw [if_pos done]
    exact settled.released done
  · rw [if_neg done]
    have acquired := kept_acquireGlobalLock settled.kept
    have taken : Kept os start (s.acquireGlobalLock os).takeQueue :=
      ⟨acquired.ledger, acquired.lock⟩
    exact released_commitQueue taken a _

theorem settled_call (settled : Settled os start s) (c : Call) :
    Settled os start (s.call E os c) := by
  cases c with
  | updateThread id => exact settled_updateThread settled id
  | updateAllThreads => exact settled_updateAllThreads settled
  | queue r =>
    show Settled os start (s.queue E r)
    unfold queue
    split_ifs
    · exact ⟨⟨settled.kept.ledger, settled.kept.lock⟩, settled.resumed, settled.finished⟩
    · exact settled
  | commit a => exact (released_commit settled a).settled
  | abort => exact (released_abort settled).settled
  | others p contexts =>
    exact ⟨⟨settled.kept.ledger, settled.kept.lock⟩, settled.resumed, settled.finished⟩

theorem settled_calls (settled : Settled os start s) (calls : List Call) :
    Settled os start (calls.foldl (call E os) s) := by
  induction calls generalizing s with
  | nil => exact settled
  | cons c calls ih => exact ih (settled_call settled c)

theorem released_finish (settled : Settled os start s) (e : Ending) :
    Released os start (s.finish E os e) := by
  cases e with
  | commit a => exact released_commit settled a
  | abort => exact released_abort settled
  | drop => exact released_drop settled

/-- However a transaction ends, every thread has the suspend count it had before the transaction
began (none, if it has exited since), every handle opened for it was closed exactly once and no
other handle was, and this thread holds the transaction lock only if it did before. -/
theorem threads_handles_lock_restored (E : Env) (os : KernelOs) (k : Kernel) (p : Process)
    (contexts : Threads) (calls : List Call) (e : Ending) :
    let s := (calls.foldl (call E os) (begin k p contexts)).finish E os e
    (∀ t, (s.kernel.threads t).suspendCount =
      if (s.kernel.threads t).exited ∧ (k.threads t).exited = false then 0
      else (k.threads t).suspendCount) ∧
    (∀ h, k.handles.length ≤ h → h < s.kernel.handles.length → s.kernel.closes h = 1) ∧
    (∀ h < k.handles.length, s.kernel.closes h = k.closes h) ∧
    s.core.globalLock = false ∧
    (s.kernel.owner = some os.currentThread ↔ k.owner = some os.currentThread) := by
  intro s
  have released : Released os k s :=
    released_finish (settled_calls (settled_begin k p contexts) calls) e
  refine ⟨fun t => ?_, fun h le lt => released.ledger.closed_once h le lt List.not_mem_nil,
    released.ledger.untouched, released.unlocked, ?_⟩
  · cases now : (s.kernel.threads t).exited with
    | false =>
      rw [if_neg fun both => nomatch both.1]
      exact (released.ledger.running t now).2
    | true =>
      cases before : (k.threads t).exited with
      | false =>
        rw [if_pos ⟨rfl, rfl⟩]
        exact released.ledger.exited_since t now before
      | true =>
        rw [if_neg fun both => nomatch both.2]
        exact (released.ledger.exited_before t before).1
  · rw [released.lock.owner]
    exact or_iff_right Bool.false_ne_true

end Session

end NeoHook
