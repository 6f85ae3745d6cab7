import NeoHook.Basic

/-!
# The quiescence check

`free_quiescent_regions` of `reclaim.rs` and what it calls: freezing and inspecting the other
threads, scanning their stacks, and catching up with threads created meanwhile.

What a pass sees of the process is a `Snapshot`; the answers of the thread functions of the OS are
`ThreadOs`.  `ThreadOs.Sound` collects what the code relies on from them.
-/

namespace NeoHook

/-- What `VirtualQuery` reports for an address. -/
structure Mbi where
  baseAddress : ℕ
  regionSize : ℕ
  allocationBase : ℕ
  commit : Bool
  /-- `PAGE_NOACCESS` or `PAGE_GUARD`. -/
  guarded : Bool
  deriving DecidableEq, Repr

/-- The largest address. -/
def usizeMax : ℕ := 2 ^ 64 - 1

def saturatingAdd (a b : ℕ) : ℕ := min (a + b) usizeMax

def Mbi.regionEnd (m : Mbi) : ℕ := saturatingAdd m.baseAddress m.regionSize

def Mbi.readable (m : Mbi) : Bool := m.commit && !m.guarded

/-- The registers of a thread. -/
structure Context where
  ip : ℕ
  sp : ℕ
  registers : List ℕ
  deriving DecidableEq, Repr

/-- The address lies in the region. -/
def Region.contains (r : Region) (addr : ℕ) : Bool :=
  r.base ≤ addr && addr < saturatingAdd r.base r.size

/-- Memory while the other threads are frozen. -/
structure Memory where
  query : ℕ → Option Mbi
  word : ℕ → ℕ

/-- `VirtualQuery` describes whole pages: an answer extends to the end of a run of pages with the
same attributes, and the pages of one allocation are consecutive. -/
structure Memory.Sound (m : Memory) : Prop where
  covers : ∀ {x i}, m.query x = some i → i.baseAddress ≤ x ∧ x < i.baseAddress + i.regionSize ∧
    i.baseAddress + i.regionSize ≤ usizeMax ∧ wordSize ∣ i.baseAddress + i.regionSize
  same : ∀ {x y i}, m.query x = some i → x ≤ y → y < i.baseAddress + i.regionSize →
    ∃ j, m.query y = some j ∧ j.allocationBase = i.allocationBase ∧ j.readable = i.readable ∧
      j.baseAddress + j.regionSize = i.baseAddress + i.regionSize
  contiguous : ∀ {x y z i j k}, m.query x = some i → m.query y = some j → m.query z = some k →
    x ≤ y → y ≤ z → k.readable = true → i.allocationBase = k.allocationBase →
    j.allocationBase = i.allocationBase

/-- The other threads of the process when regions are released, by thread id. -/
structure Snapshot where
  callerTid : ℕ
  caller : Context
  live : List ℕ
  context : ℕ → Context
  memory : Memory

inductive OpenResult where
  | opened | invalidParameter | denied
  deriving DecidableEq, Repr

/-- `SuspendThread`, with what `GetExitCodeThread` says about a thread it fails for. -/
inductive SuspendResult where
  | suspended | exited | failed
  deriving DecidableEq, Repr

/-- Answers of the OS during a pass. -/
structure ThreadOs where
  /-- The freeze lock is free. -/
  freezeLock : Bool
  /-- The Toolhelp snapshot, without the calling thread. -/
  tids : List ℕ
  openThread : ℕ → OpenResult
  suspendThread : ℕ → SuspendResult
  getThreadContext : ℕ → Bool
  /-- `NtGetNextThread`, if there is one: the thread ids one walk lists while the given threads are
  frozen.  A walk ends at the first call that fails. -/
  walk : Option (List ℕ → List ℕ)

/-! ### Marking regions -/

/-- `mark`: the flags of the regions with those set that the address falls into. -/
def mark (regions : List Region) (addr : ℕ) (busy : List Bool) : List Bool :=
  List.zipWith (fun r b => b || r.contains addr) regions busy

/-- `MAX_STACK_SCAN_BYTES`. -/
def maxStackScanBytes : ℕ := 32 * 1024 * 1024

/-- The inner loop of `scan_stack` over the slots of one run of pages: whether the stack is within
the budget, the bytes scanned so far, and the flags. -/
def scanSlots (m : Memory) (regions : List Region) :
    ℕ → ℕ → ℕ → List Bool → Bool × ℕ × List Bool
  | 0, _, scanned, busy => (true, scanned, busy)
  | n + 1, slot, scanned, busy =>
    if maxStackScanBytes < scanned + wordSize then (false, scanned + wordSize, busy)
    else scanSlots m regions n (slot + wordSize) (scanned + wordSize)
      (mark regions (m.word slot) busy)

def nextMultipleOf (a n : ℕ) : ℕ := (a + (n - 1)) / n * n

/-- The outer loop of `scan_stack`: whether the stack was read in full, and the flags. -/
def scanLoop (m : Memory) (regions : List Region) (stackAllocation addr scanned : ℕ)
    (busy : List Bool) : Bool × List Bool :=
  match m.query addr with
  | none => (false, busy)
  | some i =>
    if i.allocationBase ≠ stackAllocation then (true, busy)
    else if _ : i.regionEnd ≤ addr then (true, busy)
    else if i.readable then
      let slot := nextMultipleOf addr wordSize
      match scanSlots m regions ((i.regionEnd - slot) / wordSize) slot scanned busy with
      | (false, _, busy) => (false, busy)
      | (true, scanned, busy) => scanLoop m regions stackAllocation i.regionEnd scanned busy
    else scanLoop m regions stackAllocation i.regionEnd scanned busy
termination_by usizeMax - addr
decreasing_by
  all_goals
    have : i.regionEnd ≤ usizeMax := min_le_right _ _
    omega

def scanStack (m : Memory) (regions : List Region) (sp : ℕ) (busy : List Bool) : Bool × List Bool :=
  match m.query sp with
  | none => (false, busy)
  | some i => scanLoop m regions i.allocationBase sp 0 busy

/-- `inspect_thread`: whether the thread was inspected in full, and the flags. -/
def inspectThread (m : Memory) (regions : List Region) (c : Context) (readable : Bool)
    (busy : List Bool) : Bool × List Bool :=
  if readable = false then (false, busy)
  else scanStack m regions c.sp
    ((c.ip :: c.registers).foldl (fun busy addr => mark regions addr busy) busy)

/-! ### The pass -/

/-- What a pass has collected. -/
structure Progress where
  handles : List ℕ
  frozen : List ℕ
  inspectedAll : Bool
  busy : List Bool

section Pass

variable (w : Snapshot) (os : ThreadOs) (regions : List Region)

/-- The first loop: one thread of the snapshot is opened and suspended. -/
def freezeThread (p : Progress) (tid : ℕ) : Progress :=
  match os.openThread tid with
  | .invalidParameter => p
  | .denied => { p with inspectedAll := false }
  | .opened =>
    match os.suspendThread tid with
    | .exited => { p with frozen := p.frozen ++ [tid] }
    | .failed => { p with inspectedAll := false }
    | .suspended => { p with handles := p.handles ++ [tid], frozen := p.frozen ++ [tid] }

/-- The second loop: one frozen thread is inspected. -/
def inspectFrozen (p : Progress) (tid : ℕ) : Progress :=
  match inspectThread w.memory regions (w.context tid) (os.getThreadContext tid) p.busy with
  | (ok, busy) => { p with inspectedAll := p.inspectedAll && ok, busy := busy }

/-- How one walk of `catch_up_new_threads` ends. -/
inductive WalkEnd where
  /-- Nothing new was found. -/
  | done
  /-- A new thread was frozen and inspected: walk again. -/
  | restart
  /-- A thread could not be caught up. -/
  | failed
  deriving DecidableEq, Repr

/-- One walk over the listed threads. -/
def walkThreads (capacity : ℕ) : List ℕ → Progress → WalkEnd × Progress
  | [], p => (.done, p)
  | tid :: rest, p =>
    if tid = w.callerTid ∨ tid = 0 ∨ tid ∈ p.frozen then walkThreads capacity rest p
    else if p.handles.length = capacity ∨ p.frozen.length = capacity then (.failed, p)
    else match os.suspendThread tid with
      | .failed => (.failed, p)
      | .exited => walkThreads capacity rest { p with frozen := p.frozen ++ [tid] }
      | .suspended =>
        let p := { p with handles := p.handles ++ [tid], frozen := p.frozen ++ [tid] }
        match inspectThread w.memory regions (w.context tid) (os.getThreadContext tid) p.busy with
        | (ok, busy) => (if ok then .restart else .failed, { p with busy := busy })

/-- `WALK_ROUNDS`. -/
def walkRounds : ℕ := 4

/-- The rounds of `catch_up_new_threads`. -/
def catchUpRounds (capacity : ℕ) (walk : List ℕ → List ℕ) : ℕ → Progress → Bool × Progress
  | 0, p => (false, p)
  | n + 1, p =>
    match walkThreads w os regions capacity (walk p.frozen) p with
    | (.done, p) => (true, p)
    | (.failed, p) => (false, p)
    | (.restart, p) => catchUpRounds capacity walk n p

def catchUpNewThreads (capacity : ℕ) (p : Progress) : Bool × Progress :=
  match os.walk with
  | none => (true, p)
  | some walk => catchUpRounds w os regions capacity walk walkRounds p

/-- `NEW_THREAD_SLACK`. -/
def newThreadSlack : ℕ := 32

/-- The scan of a pass, up to the decision what to release. -/
def inspectProcess : Progress :=
  let p := os.tids.foldl (freezeThread os) ⟨[], [], true, List.replicate regions.length false⟩
  let p := p.handles.foldl (inspectFrozen w os regions) p
  match catchUpNewThreads w os regions (os.tids.length + newThreadSlack) p with
  | (ok, p) => { p with inspectedAll := p.inspectedAll && ok }

/-- `free_quiescent_regions`: the regions it releases and the ones it returns as still busy. -/
def freeQuiescentRegions : List Region × List Region :=
  if os.freezeLock = false then ([], regions)
  else
    let p := inspectProcess w os regions
    let decided := regions.zip (p.busy.map fun b => b || !p.inspectedAll)
    ((decided.filter fun d => !d.2).map (·.1), (decided.filter fun d => d.2).map (·.1))

end Pass

/-! ### What a pass has to guarantee -/

/-- An aligned word of the committed, readable part of the stack above the stack pointer. -/
def StackSlot (m : Memory) (sp a : ℕ) : Prop :=
  wordSize ∣ a ∧ sp ≤ a ∧ ∃ i j, m.query sp = some i ∧ m.query a = some j ∧
    j.allocationBase = i.allocationBase ∧ j.readable = true

/-- A code address the thread may use: its instruction pointer, a register or a word of its stack. -/
def Holds (m : Memory) (c : Context) (v : ℕ) : Prop :=
  v = c.ip ∨ v ∈ c.registers ∨ ∃ a, StackSlot m c.sp a ∧ v = m.word a

/-- The thread has an instruction pointer, register or stack word in the region. -/
def Refers (m : Memory) (c : Context) (r : Region) : Prop := ∃ v, Holds m c v ∧ r.contains v = true

/-- What the code relies on from the thread functions: an id that is no thread's is reported as
such and not used again during the pass. -/
structure ThreadOs.Sound (os : ThreadOs) (w : Snapshot) : Prop where
  caller : w.callerTid ∉ w.live
  nonzero : 0 ∉ w.live
  invalid : ∀ {tid}, os.openThread tid = .invalidParameter → tid ∉ w.live
  exited : ∀ {tid}, os.suspendThread tid = .exited → tid ∉ w.live

/-- The walk is the last one: the threads it meets are the caller, frozen or gone. -/
def ThreadOs.EndsWalk (os : ThreadOs) (callerTid : ℕ) (walk : List ℕ → List ℕ) (frozen : List ℕ) :
    Prop :=
  ∀ tid ∈ walk frozen, tid = callerTid ∨ tid = 0 ∨ tid ∈ frozen ∨ os.suspendThread tid = .exited

/-- The thread is neither in the Toolhelp snapshot nor always met by the last walk, as one that was
created behind the snapshot where `NtGetNextThread` is missing or fails. -/
def ThreadOs.Misses (os : ThreadOs) (callerTid tid : ℕ) : Prop :=
  tid ∉ os.tids ∧ ∀ walk, os.walk = some walk →
    ∃ frozen, os.EndsWalk callerTid walk frozen ∧ tid ∉ walk frozen

/-- Inspecting the thread fails somewhere. -/
def CannotInspect (w : Snapshot) (os : ThreadOs) (tid : ℕ) : Prop :=
  os.Misses w.callerTid tid ∨ (tid ∈ os.tids ∧ os.openThread tid = .denied) ∨
    os.suspendThread tid ≠ .suspended ∨ os.getThreadContext tid = false ∨
    (scanStack w.memory [] (w.context tid).sp []).1 = false

/-- No region is released that a thread of the process refers to, and nothing is released when a
thread cannot be inspected. -/
def ReleasesOnlyIdle (w : Snapshot) (os : ThreadOs) (regions : List Region) : Prop :=
  (∀ r ∈ (freeQuiescentRegions w os regions).1, ¬ Refers w.memory w.caller r ∧
    ∀ tid ∈ w.live, ¬ Refers w.memory (w.context tid) r) ∧
  ((∃ tid ∈ w.live, CannotInspect w os tid) → (freeQuiescentRegions w os regions).1 = [])

/-! ### The flags collect the addresses seen -/

/-- The flags after the addresses `vs` were marked. -/
def marks (regions : List Region) (vs : List ℕ) : List Bool :=
  regions.map fun r => vs.any r.contains

theorem mark_marks (regions : List Region) (vs : List ℕ) (v : ℕ) :
    mark regions v (marks regions vs) = marks regions (vs ++ [v]) := by
  unfold mark marks
  rw [List.zipWith_map_right]
  simp [List.zipWith_self]

theorem foldl_mark (regions : List Region) (vs us : List ℕ) :
    us.foldl (fun busy addr => mark regions addr busy) (marks regions vs) =
      marks regions (vs ++ us) := by
  induction us generalizing vs with
  | nil => simp
  | cons u us ih =>
    rw [List.foldl_cons, mark_marks, ih]
    simp

variable {m : Memory} {regions : List Region}

/-- The slots of a run of pages are all marked when the budget suffices. -/
theorem scanSlots_marks (n slot scanned : ℕ) (vs : List ℕ) :
    ∃ us, (scanSlots m regions n slot scanned (marks regions vs)).2.2 = marks regions (vs ++ us) ∧
      ((scanSlots m regions n slot scanned (marks regions vs)).1 = true →
        ∀ k < n, m.word (slot + wordSize * k) ∈ us) := by
  induction n generalizing slot scanned vs with
  | zero => exact ⟨[], by simp [scanSlots]⟩
  | succ n ih =>
    unfold scanSlots
    split_ifs with tooDeep
    · exact ⟨[], by simp⟩
    · rw [mark_marks]
      obtain ⟨us, eq, all⟩ := ih (slot + wordSize) (scanned + wordSize) (vs ++ [m.word slot])
      refine ⟨m.word slot :: us, by rw [eq]; simp, fun ok k hk => ?_⟩
      cases k with
      | zero => simp
      | succ k =>
        have := all ok k (by omega)
        rw [show slot + wordSize + wordSize * k = slot + wordSize * (k + 1) by
          simp only [wordSize]; omega] at this
        exact List.mem_cons_of_mem _ this

/-- The budget of a scan does not depend on the regions it looks for. -/
theorem scanSlots_budget (n slot scanned : ℕ) (busy : List Bool) :
    scanSlots m [] n slot scanned [] =
      ((scanSlots m regions n slot scanned busy).1,
        (scanSlots m regions n slot scanned busy).2.1, []) := by
  induction n generalizing slot scanned busy with
  | zero => rfl
  | succ n ih =>
    unfold scanSlots
    split_ifs
    · rfl
    · exact ih _ _ _

/-- The aligned addresses from `a` on start at its next multiple. -/
theorem nextMultipleOf_le {a b : ℕ} (le : a ≤ b) (aligned : wordSize ∣ b) :
    nextMultipleOf a wordSize ≤ b := by
  unfold nextMultipleOf
  unfold wordSize at aligned ⊢
  omega

theorem Memory.Sound.regionEnd_eq (sound : m.Sound) {x : ℕ} {i : Mbi} (found : m.query x = some i) :
    i.regionEnd = i.baseAddress + i.regionSize :=
  min_eq_left (sound.covers found).2.2.1

/-- Every readable word of the stack from `addr` on is marked by a scan that completes. -/
theorem scanLoop_marks (sound : m.Sound) {sp : ℕ} {top : Mbi} (atSp : m.query sp = some top)
    (addr scanned : ℕ) (busy : List Bool) (above : sp ≤ addr) (vs : List ℕ)
    (marked : busy = marks regions vs) :
    ∃ us, (scanLoop m regions top.allocationBase addr scanned busy).2 = marks regions (vs ++ us) ∧
      ((scanLoop m regions top.allocationBase addr scanned busy).1 = true →
        ∀ a j, wordSize ∣ a → addr ≤ a → m.query a = some j →
          j.allocationBase = top.allocationBase → j.readable = true → m.word a ∈ us) := by
  fun_induction scanLoop m regions top.allocationBase addr scanned busy generalizing vs with
  | case1 => exact ⟨[], by simpa using marked, by simp⟩
  | case2 addr _ _ i found other =>
    refine ⟨[], by simpa using marked, fun _ a j _ le foundA same read => ?_⟩
    exact absurd (sound.contiguous atSp found foundA above le read same.symm) other
  | case3 addr _ _ i found _ ended =>
    have := (sound.covers found).2.1
    rw [sound.regionEnd_eq found] at ended
    omega
  | case4 addr scanned busy i found same inside readable slot n flags tooDeep =>
    subst marked
    obtain ⟨us, eq, -⟩ :=
      @scanSlots_marks m regions ((i.regionEnd - slot) / wordSize) slot scanned vs
    rw [tooDeep] at eq
    exact ⟨us, eq, by simp⟩
  | case5 addr scanned busy i found same inside readable slot n flags complete ih =>
    subst marked
    obtain ⟨us, eq, all⟩ :=
      @scanSlots_marks m regions ((i.regionEnd - slot) / wordSize) slot scanned vs
    rw [complete] at eq all
    obtain ⟨us', eq', all'⟩ := ih (by omega) (vs ++ us) eq
    refine ⟨us ++ us', by rw [eq', List.append_assoc], fun ok a j aligned le foundA sameA read => ?_⟩
    by_cases below : a < i.regionEnd
    · have ends : wordSize ∣ i.regionEnd := by
        rw [sound.regionEnd_eq found]
        exact (sound.covers found).2.2.2
      have starts : wordSize ∣ slot := Dvd.intro_left _ rfl
      have first : slot ≤ a := nextMultipleOf_le le aligned
      have word := all rfl ((a - slot) / wordSize) (by simp only [wordSize] at *; omega)
      rw [show slot + wordSize * ((a - slot) / wordSize) = a by
        simp only [wordSize] at *; omega] at word
      exact List.mem_append_left _ word
    · exact List.mem_append_right _ (all' ok a j aligned (by omega) foundA sameA read)
  | case6 addr scanned busy i found same inside unreadable ih =>
    obtain ⟨us, eq, all⟩ := ih (by omega) vs marked
    refine ⟨us, eq, fun ok a j aligned le foundA sameA read => ?_⟩
    refine all ok a j aligned ?_ foundA sameA read
    by_contra below
    rw [sound.regionEnd_eq found] at below
    obtain ⟨k, foundK, -, readK, -⟩ := sound.same found le (by omega)
    rw [foundA] at foundK
    cases foundK
    exact unreadable (readK ▸ read)

/-- Whether a scan completes does not depend on the regions it looks for. -/
theorem scanLoop_budget (stackAllocation addr scanned : ℕ) (busy : List Bool) :
    (scanLoop m regions stackAllocation addr scanned busy).1 =
      (scanLoop m [] stackAllocation addr scanned []).1 := by
  fun_induction scanLoop m regions stackAllocation addr scanned busy with
  | case1 addr _ _ lost => rw [scanLoop, lost]
  | case2 addr _ _ i found other =>
    rw [scanLoop, found]
    simp only [if_pos other]
  | case3 addr _ _ i found same ended =>
    rw [scanLoop, found]
    simp only [if_neg same, dif_pos ended]
  | case4 addr scanned busy i found same inside readable slot n flags tooDeep =>
    have budget := @scanSlots_budget m regions ((i.regionEnd - slot) / wordSize) slot scanned busy
    rw [tooDeep] at budget
    rw [scanLoop, found]
    simp only [if_neg same, dif_neg inside, if_pos readable, slot, budget]
  | case5 addr scanned busy i found same inside readable slot n flags complete ih =>
    have budget := @scanSlots_budget m regions ((i.regionEnd - slot) / wordSize) slot scanned busy
    rw [complete] at budget
    rw [ih]
    conv_rhs => rw [scanLoop, found]
    simp only [if_neg same, dif_neg inside, if_pos readable, slot, budget]
  | case6 addr scanned busy i found same inside unreadable ih =>
    rw [ih]
    conv_rhs => rw [scanLoop, found]
    simp only [if_neg same, dif_neg inside, if_neg unreadable]

theorem scanStack_budget (sp : ℕ) (busy : List Bool) :
    (scanStack m regions sp busy).1 = (scanStack m [] sp []).1 := by
  unfold scanStack
  cases m.query sp with
  | none => rfl
  | some i => exact scanLoop_budget _ _ _ _

/-! ### One thread -/

/-- The thread was read in full, and every code address it may use is among `vs`. -/
structure Inspected (w : Snapshot) (os : ThreadOs) (vs : List ℕ) (tid : ℕ) : Prop where
  suspended : os.suspendThread tid = .suspended
  readable : os.getThreadContext tid = true
  scanned : (scanStack w.memory [] (w.context tid).sp []).1 = true
  seen : ∀ {v}, Holds w.memory (w.context tid) v → v ∈ vs

theorem Inspected.mono {w : Snapshot} {os : ThreadOs} {vs : List ℕ} {tid : ℕ}
    (h : Inspected w os vs tid) (us : List ℕ) : Inspected w os (vs ++ us) tid :=
  ⟨h.suspended, h.readable, h.scanned, fun holds => List.mem_append_left _ (h.seen holds)⟩

/-- A thread that `inspect_thread` reads in full has every code address it may use marked. -/
theorem inspectThread_marks (sound : m.Sound) (c : Context) (readable : Bool) (vs : List ℕ) :
    ∃ us, (inspectThread m regions c readable (marks regions vs)).2 = marks regions (vs ++ us) ∧
      ((inspectThread m regions c readable (marks regions vs)).1 = true →
        readable = true ∧ (scanStack m [] c.sp []).1 = true ∧ ∀ v, Holds m c v → v ∈ us) := by
  unfold inspectThread
  by_cases read : readable = true
  · rw [if_neg (by simp [read]), foldl_mark, scanStack_budget]
    cases found : m.query c.sp with
    | none =>
      refine ⟨c.ip :: c.registers, ?_, fun ok => ?_⟩
      · simp only [scanStack, found]
      · simp [scanStack, found] at ok
    | some top =>
      obtain ⟨us, eq, all⟩ := scanLoop_marks sound found c.sp 0
        (marks regions (vs ++ (c.ip :: c.registers))) le_rfl _ rfl
      refine ⟨(c.ip :: c.registers) ++ us, ?_, fun ok => ⟨read, ok, fun v holds => ?_⟩⟩
      · simp only [scanStack, found, eq, List.append_assoc]
      · simp only [scanStack, found] at ok
        rw [scanLoop_budget] at all
        obtain rfl | inReg | ⟨a, ⟨aligned, le, i, j, foundI, foundJ, same, readJ⟩, rfl⟩ := holds
        · simp
        · simp [inReg]
        · rw [found] at foundI
          cases foundI
          exact List.mem_append_right _ (all ok a j aligned le foundJ same readJ)
  · rw [if_pos (by simpa using read)]
    exact ⟨[], by simp, by simp⟩

/-! ### The pass over all threads -/

section Pass

variable {w : Snapshot} {os : ThreadOs}

/-- After the first loop: a recorded thread is suspended or gone, and every listed thread is
accounted for unless the pass has given up. -/
structure Frozen (os : ThreadOs) (listed : List ℕ) (p : Progress) : Prop where
  handles : ∀ tid ∈ p.handles, os.suspendThread tid = .suspended
  frozen : ∀ tid ∈ p.frozen, os.suspendThread tid = .exited ∨ tid ∈ p.handles
  all : p.inspectedAll = true → ∀ tid ∈ listed, os.openThread tid ≠ .denied ∧
    (os.openThread tid = .invalidParameter ∨ tid ∈ p.frozen)

theorem freezeThread_frozen {listed : List ℕ} {p : Progress} (h : Frozen os listed p) (tid : ℕ) :
    Frozen os (listed ++ [tid]) (freezeThread os p tid) := by
  unfold freezeThread
  cases opened : os.openThread tid with
  | invalidParameter =>
    refine ⟨h.handles, h.frozen, fun ok t ht => ?_⟩
    rw [List.mem_append, List.mem_singleton] at ht
    obtain ht | rfl := ht
    · exact h.all ok t ht
    · exact ⟨by simp [opened], .inl opened⟩
  | denied => exact ⟨h.handles, h.frozen, by simp⟩
  | opened =>
    cases suspended : os.suspendThread tid with
    | exited =>
      refine ⟨h.handles, fun t ht => ?_, fun ok t ht => ?_⟩
      · rw [List.mem_append, List.mem_singleton] at ht
        obtain ht | rfl := ht
        · exact h.frozen t ht
        · exact .inl suspended
      · rw [List.mem_append, List.mem_singleton] at ht
        obtain ht | rfl := ht
        · obtain ⟨open', listed'⟩ := h.all ok t ht
          exact ⟨open', listed'.imp_right (List.mem_append_left _)⟩
        · exact ⟨by simp [opened], .inr (by simp)⟩
    | failed => exact ⟨h.handles, h.frozen, by simp⟩
    | suspended =>
      refine ⟨fun t ht => ?_, fun t ht => ?_, fun ok t ht => ?_⟩
      · rw [List.mem_append, List.mem_singleton] at ht
        obtain ht | rfl := ht
        · exact h.handles t ht
        · exact suspended
      · rw [List.mem_append, List.mem_singleton] at ht
        obtain ht | rfl := ht
        · exact (h.frozen t ht).imp_right (List.mem_append_left _)
        · exact .inr (by simp)
      · rw [List.mem_append, List.mem_singleton] at ht
        obtain ht | rfl := ht
        · obtain ⟨open', listed'⟩ := h.all ok t ht
          exact ⟨open', listed'.imp_right (List.mem_append_left _)⟩
        · exact ⟨by simp [opened], .inr (by simp)⟩

theorem freezeThreads_frozen (tids : List ℕ) {listed : List ℕ} {p : Progress}
    (h : Frozen os listed p) : Frozen os (listed ++ tids) (tids.foldl (freezeThread os) p) := by
  induction tids generalizing listed p with
  | nil => simpa using h
  | cons tid tids ih =>
    rw [List.foldl_cons]
    simpa using ih (freezeThread_frozen h tid)

theorem freezeThread_busy (p : Progress) (tid : ℕ) : (freezeThread os p tid).busy = p.busy := by
  unfold freezeThread
  cases os.openThread tid <;> cases os.suspendThread tid <;> rfl

theorem freezeThreads_busy (tids : List ℕ) (p : Progress) :
    (tids.foldl (freezeThread os) p).busy = p.busy := by
  induction tids generalizing p with
  | nil => rfl
  | cons tid tids ih => rw [List.foldl_cons, ih, freezeThread_busy]

/-- The second loop leaves every handle inspected, unless the pass has given up. -/
theorem inspectFrozen_marks (sound : w.memory.Sound) (tids : List ℕ) {p : Progress} {vs : List ℕ}
    (busy : p.busy = marks regions vs)
    (suspended : ∀ tid ∈ tids, os.suspendThread tid = .suspended) :
    ∃ us, (tids.foldl (inspectFrozen w os regions) p).busy = marks regions (vs ++ us) ∧
      (tids.foldl (inspectFrozen w os regions) p).frozen = p.frozen ∧
      ((tids.foldl (inspectFrozen w os regions) p).inspectedAll = true →
        p.inspectedAll = true ∧ ∀ tid ∈ tids, Inspected w os (vs ++ us) tid) := by
  induction tids generalizing p vs with
  | nil => exact ⟨[], by simpa using busy, rfl, by simp⟩
  | cons tid tids ih =>
    obtain ⟨us, eq, all⟩ := @inspectThread_marks _ regions sound (w.context tid)
      (os.getThreadContext tid) vs
    rw [← busy] at eq all
    obtain ⟨us', eq', frozen', all'⟩ := @ih (inspectFrozen w os regions p tid) (vs ++ us) eq
      fun t ht => suspended t (List.mem_cons_of_mem _ ht)
    rw [List.foldl_cons]
    refine ⟨us ++ us', by rw [eq', List.append_assoc], frozen', fun ok => ?_⟩
    obtain ⟨okTid, rest⟩ := all' ok
    have both : p.inspectedAll = true ∧ (inspectThread w.memory regions (w.context tid)
        (os.getThreadContext tid) p.busy).1 = true := by
      simpa [inspectFrozen] using okTid
    obtain ⟨readable, scanned, seen⟩ := all both.2
    refine ⟨both.1, fun t ht => ?_⟩
    rw [← List.append_assoc]
    obtain rfl | ht := List.mem_cons.1 ht
    · refine Inspected.mono ⟨suspended t (by simp), readable, scanned, fun holds => ?_⟩ us'
      exact List.mem_append_right _ (seen _ holds)
    · exact rest t ht

/-- Every recorded thread is gone or inspected. -/
def CaughtUp (w : Snapshot) (os : ThreadOs) (regions : List Region) (p : Progress) : Prop :=
  ∃ vs, p.busy = marks regions vs ∧
    ∀ tid ∈ p.frozen, os.suspendThread tid = .exited ∨ Inspected w os vs tid

/-- A walk that does not fail keeps the recorded threads inspected, and one that meets nothing new
has met only threads that cannot run. -/
theorem walkThreads_caughtUp (sound : w.memory.Sound) (capacity : ℕ) (tids : List ℕ) {p : Progress}
    (h : CaughtUp w os regions p) {result : WalkEnd} {p' : Progress}
    (eq : walkThreads w os regions capacity tids p = (result, p')) (ok : result ≠ .failed) :
    CaughtUp w os regions p' ∧ p.frozen ⊆ p'.frozen ∧
      (result = .done → ∀ tid ∈ tids, tid = w.callerTid ∨ tid = 0 ∨ tid ∈ p.frozen ∨
        os.suspendThread tid = .exited) := by
  induction tids generalizing p with
  | nil =>
    cases eq
    exact ⟨h, List.Subset.refl _, by simp⟩
  | cons tid tids ih =>
    unfold walkThreads at eq
    split_ifs at eq with known full
    · obtain ⟨caught, sub, met⟩ := ih h eq
      refine ⟨caught, sub, fun done t ht => ?_⟩
      obtain rfl | ht := List.mem_cons.1 ht
      · obtain known | known | known := known
        · exact .inl known
        · exact .inr (.inl known)
        · exact .inr (.inr (.inl known))
      · exact met done t ht
    · cases eq
      exact absurd rfl ok
    · obtain ⟨vs, busy, seen⟩ := h
      cases suspended : os.suspendThread tid with
      | failed =>
        simp only [suspended] at eq
        cases eq
        exact absurd rfl ok
      | exited =>
        simp only [suspended] at eq
        have next : CaughtUp w os regions { p with frozen := p.frozen ++ [tid] } := by
          refine ⟨vs, busy, fun t ht => ?_⟩
          rw [List.mem_append, List.mem_singleton] at ht
          obtain ht | rfl := ht
          · exact seen t ht
          · exact .inl suspended
        obtain ⟨caught, sub, met⟩ := ih next eq
        refine ⟨caught, fun t ht => sub (List.mem_append_left _ ht), fun done t ht => ?_⟩
        obtain rfl | ht := List.mem_cons.1 ht
        · exact .inr (.inr (.inr suspended))
        · obtain h | h | h | h := met done t ht
          · exact .inl h
          · exact .inr (.inl h)
          · rw [List.mem_append, List.mem_singleton] at h
            obtain h | rfl := h
            · exact .inr (.inr (.inl h))
            · exact .inr (.inr (.inr suspended))
          · exact .inr (.inr (.inr h))
      | suspended =>
        obtain ⟨us, marked, all⟩ := @inspectThread_marks _ regions sound (w.context tid)
          (os.getThreadContext tid) vs
        rw [← busy] at marked all
        simp only [suspended] at eq
        cases read : (inspectThread w.memory regions (w.context tid) (os.getThreadContext tid)
            p.busy).1 with
        | false =>
          simp only [read] at eq
          cases eq
          exact absurd rfl ok
        | true =>
          simp only [read] at eq
          cases eq
          obtain ⟨readable, scanned, inspected⟩ := all read
          refine ⟨⟨vs ++ us, marked, fun t ht => ?_⟩, fun t ht => List.mem_append_left _ ht, by simp⟩
          rw [List.mem_append, List.mem_singleton] at ht
          obtain ht | rfl := ht
          · exact (seen t ht).imp_right (Inspected.mono · us)
          · exact .inr ⟨suspended, readable, scanned,
              fun holds => List.mem_append_right _ (inspected _ holds)⟩

/-- Rounds that come to an end end with a walk that met only threads that cannot run. -/
theorem catchUpRounds_caughtUp (sound : w.memory.Sound) (capacity : ℕ) (walk : List ℕ → List ℕ)
    (n : ℕ) {p : Progress} (h : CaughtUp w os regions p) {p' : Progress}
    (eq : catchUpRounds w os regions capacity walk n p = (true, p')) :
    CaughtUp w os regions p' ∧ p.frozen ⊆ p'.frozen ∧
      ∃ frozen ⊆ p'.frozen, os.EndsWalk w.callerTid walk frozen := by
  induction n generalizing p with
  | zero => cases eq
  | succ n ih =>
    unfold catchUpRounds at eq
    cases walked : walkThreads w os regions capacity (walk p.frozen) p with
    | mk result q =>
      rw [walked] at eq
      cases result with
      | failed => cases eq
      | done =>
        cases eq
        obtain ⟨caught, sub, met⟩ := walkThreads_caughtUp sound capacity _ h walked (by simp)
        exact ⟨caught, sub, p.frozen, sub, met rfl⟩
      | restart =>
        obtain ⟨caught, sub, -⟩ := walkThreads_caughtUp sound capacity _ h walked (by simp)
        obtain ⟨done, later, last⟩ := ih caught eq
        exact ⟨done, fun tid there => later (sub there), last⟩

theorem walkThreads_inspectedAll (capacity : ℕ) (tids : List ℕ) (p : Progress) :
    (walkThreads w os regions capacity tids p).2.inspectedAll = p.inspectedAll := by
  induction tids generalizing p with
  | nil => rfl
  | cons tid tids ih =>
    unfold walkThreads
    split_ifs
    · exact ih p
    · rfl
    · cases os.suspendThread tid with
      | failed => rfl
      | exited => exact ih _
      | suspended => rfl

theorem catchUpRounds_inspectedAll (capacity : ℕ) (walk : List ℕ → List ℕ) (n : ℕ) (p : Progress) :
    (catchUpRounds w os regions capacity walk n p).2.inspectedAll = p.inspectedAll := by
  induction n generalizing p with
  | zero => rfl
  | succ n ih =>
    have kept := @walkThreads_inspectedAll regions w os capacity (walk p.frozen) p
    unfold catchUpRounds
    cases walked : walkThreads w os regions capacity (walk p.frozen) p with
    | mk result q =>
      rw [walked] at kept
      cases result with
      | failed => exact kept
      | done => exact kept
      | restart => exact (ih q).trans kept

/-- When a pass has inspected all threads, every running one was read in full and its code
addresses are marked, if every one was listed or walked. -/
theorem inspectProcess_complete (memory : w.memory.Sound) (threads : os.Sound w)
    (reached : ∀ tid ∈ w.live, ¬ os.Misses w.callerTid tid)
    (ok : (inspectProcess w os regions).inspectedAll = true) :
    ∃ vs, (inspectProcess w os regions).busy = marks regions vs ∧ ∀ tid ∈ w.live,
      (tid ∈ os.tids → os.openThread tid ≠ .denied) ∧ Inspected w os vs tid := by
  let start : Progress := ⟨[], [], true, List.replicate regions.length false⟩
  let p₁ := os.tids.foldl (freezeThread os) start
  let p₂ := p₁.handles.foldl (inspectFrozen w os regions) p₁
  have frozen : Frozen os os.tids p₁ := by
    have := @freezeThreads_frozen os os.tids [] start ⟨by simp [start], by simp [start], by simp⟩
    simpa using this
  have unmarked : p₁.busy = marks regions [] := by
    rw [freezeThreads_busy]
    simp [start, marks]
  obtain ⟨vs, busy, kept, all⟩ := inspectFrozen_marks memory p₁.handles unmarked frozen.handles
  obtain ⟨caught, p₃, eq⟩ : ∃ c p, catchUpNewThreads w os regions
      (os.tids.length + newThreadSlack) p₂ = (c, p) := ⟨_, _, rfl⟩
  have result : inspectProcess w os regions =
      { p₃ with inspectedAll := p₃.inspectedAll && caught } := by
    unfold inspectProcess
    change (match catchUpNewThreads w os regions (os.tids.length + newThreadSlack) p₂ with
      | (ok, p) => { p with inspectedAll := p.inspectedAll && ok }) = _
    rw [eq]
  rw [result] at ok ⊢
  obtain ⟨ok₃, rfl⟩ : p₃.inspectedAll = true ∧ caught = true := by simpa using ok
  unfold catchUpNewThreads at eq
  cases walker : os.walk with
  | none =>
    rw [walker] at eq
    cases eq
    obtain ⟨ok₁, inspected⟩ := all ok₃
    refine ⟨[] ++ vs, busy, fun tid live => ?_⟩
    have listed : tid ∈ os.tids := by
      by_contra unlisted
      refine reached tid live ⟨unlisted, fun walk there => ?_⟩
      rw [walker] at there
      cases there
    obtain ⟨opened, known⟩ := frozen.all ok₁ tid listed
    refine ⟨fun _ => opened, ?_⟩
    obtain gone | known := known
    · exact absurd live (threads.invalid gone)
    obtain gone | known := frozen.frozen tid known
    · exact absurd live (threads.exited gone)
    · exact inspected tid known
  | some walk =>
    rw [walker] at eq
    have kept₃ := @catchUpRounds_inspectedAll regions w os (os.tids.length + newThreadSlack) walk
      walkRounds p₂
    simp only at eq
    rw [eq] at kept₃
    obtain ⟨ok₁, inspected⟩ := all (kept₃.symm.trans ok₃)
    have caught₂ : CaughtUp w os regions p₂ := by
      refine ⟨[] ++ vs, busy, fun tid known => ?_⟩
      rw [kept] at known
      exact (frozen.frozen tid known).imp_right (inspected tid)
    obtain ⟨⟨us, busy₃, seen⟩, later, last, sub, met⟩ :=
      catchUpRounds_caughtUp memory _ walk _ caught₂ eq
    have known : ∀ tid ∈ p₃.frozen, tid ∈ w.live → Inspected w os us tid := fun tid known live =>
      (seen tid known).resolve_left fun gone => threads.exited gone live
    refine ⟨us, busy₃, fun tid live => ⟨fun listed => (frozen.all ok₁ tid listed).1, ?_⟩⟩
    by_cases listed : tid ∈ os.tids
    · obtain gone | there := (frozen.all ok₁ tid listed).2
      · exact absurd live (threads.invalid gone)
      · refine known tid (later ?_) live
        rw [kept]
        exact there
    · -- the last walk meets every live thread that is not listed
      have walked : tid ∈ walk last := by
        by_contra unmet
        refine reached tid live ⟨listed, fun other there => ⟨last, ?_⟩⟩
        obtain rfl : walk = other := Option.some.inj (walker.symm.trans there)
        exact ⟨met, unmet⟩
      obtain rfl | rfl | there | gone := met tid walked
      · exact absurd live threads.caller
      · exact absurd live threads.nonzero
      · exact known tid (sub there) live
      · exact absurd live (threads.exited gone)

/-! ### What is released -/

/-- A region is released only by a pass that inspected all threads and did not mark it. -/
theorem released_marks (memory : w.memory.Sound) (threads : os.Sound w)
    (reached : ∀ tid ∈ w.live, ¬ os.Misses w.callerTid tid) {r : Region}
    (released : r ∈ (freeQuiescentRegions w os regions).1) :
    ∃ vs, vs.any r.contains = false ∧ ∀ tid ∈ w.live,
      (tid ∈ os.tids → os.openThread tid ≠ .denied) ∧ Inspected w os vs tid := by
  unfold freeQuiescentRegions at released
  split_ifs at released with locked
  · simp at released
  · simp only [List.mem_map, List.mem_filter] at released
    obtain ⟨⟨r', b⟩, ⟨decided, idle⟩, rfl⟩ := released
    cases ok : (inspectProcess w os regions).inspectedAll with
    | false =>
      rw [ok] at decided
      have := List.of_mem_zip decided
      simp at this idle
      exact absurd idle (by simp [this.2])
    | true =>
      obtain ⟨vs, busy, complete⟩ := inspectProcess_complete memory threads reached ok
      refine ⟨vs, ?_, complete⟩
      rw [ok, busy] at decided
      simp only [marks, List.map_map, ← List.map_prod_left_eq_zip, List.mem_map] at decided
      obtain ⟨r, -, decided⟩ := decided
      cases decided
      simpa using idle

/-- What the pass guarantees about the other threads, whatever the calling thread does. -/
theorem released_idle (memory : w.memory.Sound) (threads : os.Sound w)
    (reached : ∀ tid ∈ w.live, ¬ os.Misses w.callerTid tid) :
    (∀ r ∈ (freeQuiescentRegions w os regions).1,
      ∀ tid ∈ w.live, ¬ Refers w.memory (w.context tid) r) ∧
    ((∃ tid ∈ w.live, CannotInspect w os tid) → (freeQuiescentRegions w os regions).1 = []) := by
  refine ⟨fun r released tid live ⟨v, holds, inside⟩ => ?_, fun ⟨tid, live, cannot⟩ => ?_⟩
  · obtain ⟨vs, idle, complete⟩ := released_marks memory threads reached released
    rw [List.any_eq_false] at idle
    exact idle v ((complete tid live).2.seen holds) inside
  · rw [List.eq_nil_iff_forall_not_mem]
    intro r released
    obtain ⟨vs, -, complete⟩ := released_marks memory threads reached released
    obtain ⟨opened, inspected⟩ := complete tid live
    obtain missed | ⟨listed, denied⟩ | failed | unreadable | deep := cannot
    · exact reached tid live missed
    · exact opened listed denied
    · exact failed inspected.suspended
    · simp [inspected.readable] at unreadable
    · simp [inspected.scanned] at deep

theorem released_subset : (freeQuiescentRegions w os regions).1 ⊆ regions := by
  intro r released
  unfold freeQuiescentRegions at released
  split_ifs at released
  · simp at released
  · simp only [List.mem_map, List.mem_filter] at released
    obtain ⟨⟨r', b⟩, ⟨decided, -⟩, rfl⟩ := released
    exact (List.of_mem_zip decided).1

/-! ### No region is lost -/

theorem length_mark {busy : List Bool} (len : busy.length = regions.length) (addr : ℕ) :
    (mark regions addr busy).length = regions.length := by
  simp [mark, len]

theorem length_scanSlots {m : Memory} (n slot scanned : ℕ) {busy : List Bool}
    (len : busy.length = regions.length) :
    (scanSlots m regions n slot scanned busy).2.2.length = regions.length := by
  induction n generalizing slot scanned busy with
  | zero => exact len
  | succ n ih =>
    unfold scanSlots
    split_ifs
    · exact len
    · exact ih _ _ (length_mark len _)

theorem length_scanLoop {m : Memory} (stackAllocation addr scanned : ℕ) {busy : List Bool}
    (len : busy.length = regions.length) :
    (scanLoop m regions stackAllocation addr scanned busy).2.length = regions.length := by
  fun_induction scanLoop m regions stackAllocation addr scanned busy with
  | case1 | case2 | case3 => exact len
  | case4 addr scanned busy i _ _ _ _ slot scanned' busy' scan =>
    have := @length_scanSlots regions m ((i.regionEnd - slot) / wordSize) slot scanned busy len
    rwa [scan] at this
  | case5 addr scanned busy i _ _ _ _ slot scanned' busy' scan ih =>
    have := @length_scanSlots regions m ((i.regionEnd - slot) / wordSize) slot scanned busy len
    rw [scan] at this
    exact ih this
  | case6 addr scanned busy i _ _ _ _ ih => exact ih len

theorem length_inspectThread {m : Memory} (c : Context) (readable : Bool) {busy : List Bool}
    (len : busy.length = regions.length) :
    (inspectThread m regions c readable busy).2.length = regions.length := by
  have marked : ∀ (vs : List ℕ) {busy : List Bool}, busy.length = regions.length →
      (vs.foldl (fun busy addr => mark regions addr busy) busy).length = regions.length := by
    intro vs
    induction vs with
    | nil => exact id
    | cons v vs ih => exact fun len => ih (length_mark len v)
  unfold inspectThread scanStack
  split_ifs
  · exact len
  · split
    · exact marked _ len
    · exact length_scanLoop _ _ _ (marked _ len)

theorem length_walkThreads (capacity : ℕ) (tids : List ℕ) {p : Progress}
    (len : p.busy.length = regions.length) :
    (walkThreads w os regions capacity tids p).2.busy.length = regions.length := by
  induction tids generalizing p with
  | nil => exact len
  | cons tid rest ih =>
    unfold walkThreads
    split_ifs
    · exact ih len
    · exact len
    · cases os.suspendThread tid with
      | failed => exact len
      | exited => exact @ih { p with frozen := p.frozen ++ [tid] } len
      | suspended => exact length_inspectThread _ _ len

theorem length_catchUpRounds (capacity : ℕ) (walk : List ℕ → List ℕ) (n : ℕ) {p : Progress}
    (len : p.busy.length = regions.length) :
    (catchUpRounds w os regions capacity walk n p).2.busy.length = regions.length := by
  induction n generalizing p with
  | zero => exact len
  | succ n ih =>
    have kept := @length_walkThreads regions w os capacity (walk p.frozen) p len
    unfold catchUpRounds
    cases walked : walkThreads w os regions capacity (walk p.frozen) p with
    | mk result q =>
      rw [walked] at kept
      cases result with
      | failed => exact kept
      | done => exact kept
      | restart => exact ih kept

theorem length_inspectProcess : (inspectProcess w os regions).busy.length = regions.length := by
  have inspected : ∀ (tids : List ℕ) {p : Progress}, p.busy.length = regions.length →
      (tids.foldl (inspectFrozen w os regions) p).busy.length = regions.length := by
    intro tids
    induction tids with
    | nil => exact id
    | cons tid tids ih => exact fun len => ih (length_inspectThread _ _ len)
  unfold inspectProcess catchUpNewThreads
  have started : (os.tids.foldl (freezeThread os)
      ⟨[], [], true, List.replicate regions.length false⟩).busy.length = regions.length := by
    rw [freezeThreads_busy]
    simp
  cases os.walk with
  | none => exact inspected _ started
  | some walk => exact length_catchUpRounds _ _ _ (inspected _ started)

/-- Every region a pass was given is released or returned as busy. -/
theorem freeQuiescentRegions_perm :
    ((freeQuiescentRegions w os regions).1 ++ (freeQuiescentRegions w os regions).2).Perm
      regions := by
  unfold freeQuiescentRegions
  split_ifs
  · exact .refl _
  · let flags := (inspectProcess w os regions).busy.map fun b =>
      b || !(inspectProcess w os regions).inspectedAll
    have len : regions.length ≤ flags.length := by
      simp [flags, length_inspectProcess]
    have split := List.filter_append_perm (fun d : Region × Bool => !d.2) (regions.zip flags)
    have firsts : (regions.zip flags).map (·.1) = regions := List.map_fst_zip len
    conv_rhs => rw [← firsts]
    simpa [List.map_append] using split.map (·.1)

end Pass

/-- Answers of the OS in a process whose only thread is the caller. -/
def ThreadOs.alone (callerTid : ℕ) : ThreadOs where
  freezeLock := true
  tids := []
  openThread _ := .opened
  suspendThread _ := .suspended
  getThreadContext _ := true
  walk := some fun _ => [callerTid]

/-- A pass that meets no other thread releases everything. -/
theorem released_of_unmet {w : Snapshot} {os : ThreadOs} (free : os.freezeLock = true)
    (unlisted : os.tids = [])
    (unwalked : ∀ walk, os.walk = some walk → ∀ frozen, ∀ tid ∈ walk frozen, tid = w.callerTid)
    (regions : List Region) : (freeQuiescentRegions w os regions).1 = regions := by
  have skips : ∀ capacity tids (p : Progress), (∀ tid ∈ tids, tid = w.callerTid) →
      walkThreads w os regions capacity tids p = (.done, p) := by
    intro capacity tids p own
    induction tids with
    | nil => rfl
    | cons tid rest ih =>
      unfold walkThreads
      rw [if_pos (.inl (own tid List.mem_cons_self))]
      exact ih fun t mem => own t (List.mem_cons_of_mem tid mem)
  have pass : inspectProcess w os regions =
      ⟨[], [], true, List.replicate regions.length false⟩ := by
    unfold inspectProcess catchUpNewThreads
    cases walker : os.walk with
    | none => simp [unlisted]
    | some walk =>
      simp [unlisted, walkRounds, catchUpRounds, skips _ _ _ (unwalked walk walker _)]
  unfold freeQuiescentRegions
  rw [if_neg (by simp [free]), pass]
  simp only [Bool.not_true, Bool.or_false, List.map_id_fun', id_eq]
  rw [← List.map_const', ← List.map_prod_left_eq_zip]
  simp [List.filter_map, Function.comp_def]

/-- A pass with no other thread in the process releases everything. -/
theorem released_alone (w : Snapshot) (regions : List Region) :
    (freeQuiescentRegions w (.alone w.callerTid) regions).1 = regions := by
  refine released_of_unmet rfl rfl ?_ regions
  rintro walk ⟨⟩ frozen tid mem
  exact List.mem_singleton.mp mem

/-- The same process before Windows 8: no walk, and a snapshot without the threads created since. -/
def ThreadOs.unwalked : ThreadOs := { ThreadOs.alone 0 with walk := none }

theorem ThreadOs.unwalked_sound {w : Snapshot} (caller : w.callerTid ∉ w.live)
    (nonzero : 0 ∉ w.live) : ThreadOs.unwalked.Sound w where
  caller := caller
  nonzero := nonzero
  invalid opened := by cases opened
  exited suspended := by cases suspended

/-- A pass is safe for every set of other threads, contexts and outcomes exactly when its caller refers
to none of the regions and no thread is missed, or there is nothing to release: the calling thread and
the threads missed are those that nobody inspects. -/
theorem releases_only_idle_iff (callerTid : ℕ) (caller : Context) (memory : Memory)
    (sound : memory.Sound) (regions : List Region) (missed : List ℕ)
    (others : ∀ tid ∈ missed, tid ≠ callerTid ∧ tid ≠ 0) :
    (∀ live context os, ThreadOs.Sound os ⟨callerTid, caller, live, context, memory⟩ →
      (∀ tid, tid ∈ missed ↔ tid ∈ live ∧ os.Misses callerTid tid) →
      ReleasesOnlyIdle ⟨callerTid, caller, live, context, memory⟩ os regions) ↔
    (∀ r ∈ regions, ¬ Refers memory caller r) ∧ missed = [] ∨ regions = [] := by
  constructor
  · intro safe
    by_cases all : missed = []
    · refine .inl ⟨fun r hr => ?_, all⟩
      let w : Snapshot := ⟨callerTid, caller, [], fun _ => caller, memory⟩
      have alone : (ThreadOs.alone callerTid).Sound w :=
        ⟨by simp [w], by simp [w], by simp [w], by simp [w]⟩
      refine ((safe _ _ _ alone (by simp [all])).1 r ?_).1
      rw [released_alone w regions]
      exact hr
    · right
      let w : Snapshot := ⟨callerTid, caller, missed, fun _ => caller, memory⟩
      have unwalked : ThreadOs.unwalked.Sound w :=
        ThreadOs.unwalked_sound (fun mem => (others _ mem).1 rfl) fun mem => (others _ mem).2 rfl
      have misses : ∀ tid, ThreadOs.unwalked.Misses callerTid tid := fun tid =>
        ⟨List.not_mem_nil, fun walk there => by cases there⟩
      obtain ⟨tid, mem⟩ := List.exists_mem_of_ne_nil missed all
      have nothing := (safe _ _ _ unwalked fun tid => by simp [misses tid]).2
        ⟨tid, mem, .inl (misses tid)⟩
      have everything := @released_of_unmet w ThreadOs.unwalked rfl rfl
        (fun walk walked => by cases walked) regions
      exact everything.symm.trans nothing
  · rintro (⟨idle, none⟩ | rfl) live context os threads misses
    · have reached : ∀ tid ∈ live, ¬ os.Misses callerTid tid := by
        intro tid mem missing
        have := (misses tid).2 ⟨mem, missing⟩
        rw [none] at this
        cases this
      obtain ⟨others, nothing⟩ := @released_idle regions _ _ sound threads reached
      exact ⟨fun r released => ⟨idle r (released_subset released), others r released⟩, nothing⟩
    · have empty : (freeQuiescentRegions ⟨callerTid, caller, live, context, memory⟩ os []).1 = [] :=
        List.eq_nil_of_subset_nil released_subset
      rw [ReleasesOnlyIdle, empty]
      exact ⟨fun r mem => absurd mem List.not_mem_nil, fun _ => rfl⟩

/-- One stack at `0x10000`, with the given word at `0x1ff00`; the rest of the address space is
free. -/
def Memory.oneStack (returnAddress : ℕ) : Memory where
  query x :=
    if x < 0x10000 then some ⟨0, 0x10000, 0, false, false⟩
    else if x < 0x20000 then some ⟨0x10000, 0x10000, 0x10000, true, false⟩
    else if x < 2 ^ 47 then some ⟨0x20000, 2 ^ 47 - 0x20000, 0, false, false⟩
    else none
  word a := if a = 0x1ff00 then returnAddress else 0

theorem Memory.oneStack_sound (returnAddress : ℕ) : (Memory.oneStack returnAddress).Sound := by
  refine ⟨fun {x i} found => ?_, fun {x y i} found le lt => ?_,
    fun {x y z i j k} found₁ found₂ found₃ le le' read same => ?_⟩
  · simp only [oneStack] at found
    split_ifs at found <;> cases found <;> simp only [usizeMax, wordSize] <;> omega
  · simp only [oneStack] at found ⊢
    split_ifs at found <;> cases found <;> simp only at lt
    · exact ⟨_, if_pos lt, rfl, rfl, rfl⟩
    · rw [if_neg (by omega), if_pos (by omega)]
      exact ⟨_, rfl, rfl, rfl, rfl⟩
    · rw [if_neg (by omega), if_neg (by omega), if_pos (by omega)]
      exact ⟨_, rfl, rfl, rfl, rfl⟩
  · simp only [oneStack] at found₁ found₂ found₃
    split_ifs at found₃ <;> cases found₃ <;> simp only [Mbi.readable] at read
    · simp at read
    · split_ifs at found₁ <;> cases found₁ <;> simp only at same
      · omega
      · rw [if_neg (by omega), if_pos (by omega)] at found₂
        cases found₂
        rfl
      · omega
    · simp at read

/-- A caller whose stack does not reach into the region, and no thread missed. -/
theorem oneStack_releases_idle :
    ¬ Refers (Memory.oneStack 0) ⟨0x400000, 0x1f000, []⟩ ⟨0x5000, 64⟩ ∧
    ∀ live context os,
      ThreadOs.Sound os ⟨1, ⟨0x400000, 0x1f000, []⟩, live, context, Memory.oneStack 0⟩ →
      (∀ tid, tid ∈ [] ↔ tid ∈ live ∧ os.Misses 1 tid) →
      ReleasesOnlyIdle ⟨1, ⟨0x400000, 0x1f000, []⟩, live, context, Memory.oneStack 0⟩ os
        [⟨0x5000, 64⟩] := by
  have idle : ¬ Refers (Memory.oneStack 0) ⟨0x400000, 0x1f000, []⟩ ⟨0x5000, 64⟩ := by
    rintro ⟨v, rfl | inReg | ⟨a, -, rfl⟩, inside⟩
    · revert inside
      decide
    · simp at inReg
    · simp [Memory.oneStack, Region.contains] at inside
  refine ⟨idle, (releases_only_idle_iff _ _ _ (Memory.oneStack_sound 0) _ [] (by simp)).2 ?_⟩
  simpa using idle

/-- A handler called from a stub calls `reclaim`: the return address into the stub is on the
caller's stack, and the stub is released.  A thread that nobody lists is not inspected either: thread 2
runs in the stub that is released. -/
theorem stub_below_caller_released :
    ((Memory.oneStack 0x5010).Sound ∧
    (ThreadOs.alone 1).Sound ⟨1, ⟨0x400000, 0x1f000, []⟩, [], fun _ => ⟨0, 0, []⟩,
      Memory.oneStack 0x5010⟩ ∧
    Refers (Memory.oneStack 0x5010) ⟨0x400000, 0x1f000, []⟩ ⟨0x5000, 64⟩ ∧
    (freeQuiescentRegions ⟨1, ⟨0x400000, 0x1f000, []⟩, [], fun _ => ⟨0, 0, []⟩,
      Memory.oneStack 0x5010⟩ (.alone 1) [⟨0x5000, 64⟩]).1 = [⟨0x5000, 64⟩] ∧
    ¬ ReleasesOnlyIdle ⟨1, ⟨0x400000, 0x1f000, []⟩, [], fun _ => ⟨0, 0, []⟩,
      Memory.oneStack 0x5010⟩ (.alone 1) [⟨0x5000, 64⟩]) ∧
    ThreadOs.unwalked.Sound ⟨1, ⟨0x400000, 0x1f000, []⟩, [2], fun _ => ⟨0x5010, 0x1f000, []⟩,
      Memory.oneStack 0⟩ ∧
    ¬ ReleasesOnlyIdle ⟨1, ⟨0x400000, 0x1f000, []⟩, [2], fun _ => ⟨0x5010, 0x1f000, []⟩,
      Memory.oneStack 0⟩ ThreadOs.unwalked [⟨0x5000, 64⟩] := by
  have refers : Refers (Memory.oneStack 0x5010) ⟨0x400000, 0x1f000, []⟩ ⟨0x5000, 64⟩ :=
    ⟨0x5010, .inr (.inr ⟨0x1ff00, ⟨by decide, by decide, _, _, rfl, rfl, rfl, rfl⟩, rfl⟩), by decide⟩
  have released := released_alone ⟨1, ⟨0x400000, 0x1f000, []⟩, [], fun _ => ⟨0, 0, []⟩,
    Memory.oneStack 0x5010⟩ [⟨0x5000, 64⟩]
  have late := @released_of_unmet ⟨1, ⟨0x400000, 0x1f000, []⟩, [2], fun _ => ⟨0x5010, 0x1f000, []⟩,
    Memory.oneStack 0⟩ ThreadOs.unwalked rfl rfl (fun walk walked => by cases walked) [⟨0x5000, 64⟩]
  refine ⟨⟨Memory.oneStack_sound _, ⟨by simp, by simp, by simp, by simp⟩, refers, released,
    fun safe => (safe.1 ⟨0x5000, 64⟩ ?_).1 refers⟩,
    ThreadOs.unwalked_sound (by simp) (by simp), fun safe => ?_⟩
  · rw [released]
    exact List.mem_singleton_self _
  · refine (safe.1 ⟨0x5000, 64⟩ ?_).2 2 (List.mem_singleton_self 2) ⟨0x5010, .inl rfl, by decide⟩
    rw [late]
    exact List.mem_singleton_self _

end NeoHook
