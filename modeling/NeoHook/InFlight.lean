import NeoHook.Quiescence

/-!
# Exceptions in flight

`inflight.rs`: the other threads are suspended once and their stacks are searched for the records of
exceptions that are still being dispatched, and for saved contexts that arm a debug register.  The
search finds exactly what is there: a thread it clears is not in the dispatch of a trap.
-/

namespace NeoHook

/-- What a scan looks for. -/
structure TrapScan where
  /-- The exception code, as an unsigned number. -/
  code : ℕ
  isTrapAddress : ℕ → Bool
  savedDebugRegisters : Bool

/-- Offset of `ExceptionAddress` inside `EXCEPTION_RECORD` (`ADDRESS_OFFSET`). -/
def addressOffset : ℕ := 16

/-- `CONTEXT_DEBUG`, the flags of a context that carries the debug registers. -/
def contextDebug : ℕ := 0x00100010

/-- Offsets inside `CONTEXT`, and its size. -/
def contextFlagsOffset : ℕ := 0x30
def dr0Offset : ℕ := 0x48
def dr7Offset : ℕ := 0x70
def contextSize : ℕ := 0x4D0

/-- The four bytes at an aligned address. -/
def Memory.dword (m : Memory) (a : ℕ) : ℕ := m.word a % 2 ^ 32

section Scan

variable (m : Memory) (q : TrapScan)

/-- The `n`-th iteration of `arms_debug_register`. -/
def armsRegister (slot regionStart regionEnd n : ℕ) : Bool :=
  if slot < dr0Offset + n * wordSize then false
  else
    let base := slot - (dr0Offset + n * wordSize)
    if base < regionStart ∨ regionEnd < saturatingAdd base contextSize then false
    else m.dword (base + contextFlagsOffset) &&& contextDebug = contextDebug &&
      (m.word (base + dr7Offset)).testBit (2 * n)

def armsDebugRegister (slot regionStart regionEnd : ℕ) : Bool :=
  (List.range 4).any (armsRegister m slot regionStart regionEnd)

/-- The body of the inner loop of `dispatching`. -/
def slotMatches (regionStart regionEnd slot : ℕ) : Bool :=
  q.isTrapAddress (m.word slot) &&
    ((regionStart + addressOffset ≤ slot && m.dword (slot - addressOffset) = q.code) ||
      (q.savedDebugRegisters && armsDebugRegister m slot regionStart regionEnd))

/-- The inner loop over the slots of one run of pages: the bytes scanned so far, or `none` once the
thread counts as in flight. -/
def dispatchSlots (regionStart regionEnd : ℕ) : ℕ → ℕ → ℕ → Option ℕ
  | 0, _, scanned => some scanned
  | n + 1, slot, scanned =>
    if maxStackScanBytes < scanned + wordSize then none
    else if slotMatches m q regionStart regionEnd slot then none
    else dispatchSlots regionStart regionEnd n (slot + wordSize) (scanned + wordSize)

/-- The outer loop of `dispatching`. -/
def dispatchLoop (sp stackAllocation addr scanned : ℕ) : Bool :=
  match m.query addr with
  | none => true
  | some i =>
    if i.allocationBase ≠ stackAllocation then false
    else if _ : i.regionEnd ≤ addr then false
    else if i.readable then
      let regionStart := max i.baseAddress sp
      let slot := nextMultipleOf regionStart wordSize
      match dispatchSlots m q regionStart i.regionEnd ((i.regionEnd - slot) / wordSize) slot
          scanned with
      | none => true
      | some scanned => dispatchLoop sp stackAllocation i.regionEnd scanned
    else dispatchLoop sp stackAllocation i.regionEnd scanned
termination_by usizeMax - addr
decreasing_by
  all_goals
    have : i.regionEnd ≤ usizeMax := min_le_right _ _
    omega

/-- The instruction pointer is at a trap, or just past it. -/
def stoppedAtTrap (ip : ℕ) : Bool :=
  q.isTrapAddress ip || q.isTrapAddress ((ip + (2 ^ 64 - 1)) % 2 ^ 64)

/-- `dispatching`; `readable` is whether `GetThreadContext` succeeds. -/
def dispatching (c : Context) (readable : Bool) : Bool :=
  if readable = false then true
  else if stoppedAtTrap q c.ip then true
  else match m.query c.sp with
    | none => true
    | some i => dispatchLoop m q c.sp i.allocationBase c.sp 0

end Scan

/-- The first loop of `exceptions_in_flight`: one thread is opened and suspended. -/
def suspendForScan (os : ThreadOs) (p : Bool × List ℕ) (tid : ℕ) : Bool × List ℕ :=
  match os.openThread tid with
  | .invalidParameter => p
  | .denied => (true, p.2)
  | .opened =>
    match os.suspendThread tid with
    | .exited => p
    | .failed => (true, p.2)
    | .suspended => (p.1, p.2 ++ [tid])

def exceptionsInFlight (w : Snapshot) (os : ThreadOs) (q : TrapScan) : Bool :=
  match os.tids.foldl (suspendForScan os) (false, []) with
  | (true, _) => true
  | (false, handles) => handles.any fun tid =>
      dispatching w.memory q (w.context tid) (os.getThreadContext tid)

/-! ### What is looked for -/

/-- `VirtualQuery` rounds the address down to its page and measures whole pages from there. -/
structure Memory.Paged (m : Memory) : Prop extends m.Sound where
  base : ∀ {x i}, m.query x = some i → i.baseAddress = x / pageSize * pageSize
  size : ∀ {x i}, m.query x = some i → pageSize ∣ i.regionSize

section Spec

variable (m : Memory) (q : TrapScan)

/-- The bytes from `a` up to `b` lie above the stack pointer in one readable run of pages. -/
def OnStack (sp a b : ℕ) : Prop :=
  sp ≤ a ∧ a < b ∧ ∃ i j, m.query sp = some i ∧ m.query a = some j ∧
    j.allocationBase = i.allocationBase ∧ j.readable = true ∧ b ≤ j.baseAddress + j.regionSize

/-- The record of an exception with the code, raised at a trap address. -/
def RecordAt (sp r : ℕ) : Prop :=
  wordSize ∣ r ∧ OnStack m sp r (r + addressOffset + wordSize) ∧ m.dword r = q.code ∧
    q.isTrapAddress (m.word (r + addressOffset)) = true

/-- A saved context with a trap address in an enabled debug register. -/
def ArmedContextAt (sp b : ℕ) : Prop :=
  wordSize ∣ b ∧ OnStack m sp b (b + contextSize) ∧
    m.dword (b + contextFlagsOffset) &&& contextDebug = contextDebug ∧
    ∃ n < 4, (m.word (b + dr7Offset)).testBit (2 * n) = true ∧
      q.isTrapAddress (m.word (b + (dr0Offset + n * wordSize))) = true

/-- The thread is in the dispatch of a trap, or gets a trap back when it resumes. -/
def InDispatch (c : Context) : Prop :=
  stoppedAtTrap q c.ip = true ∨ (∃ r, RecordAt m q c.sp r) ∨
    (q.savedDebugRegisters = true ∧ ∃ b, ArmedContextAt m q c.sp b)

/-- The stack can be read in full: no query fails and the budget suffices. -/
def StackReadable (sp : ℕ) : Prop := (scanStack m [] sp []).1 = true

end Spec

/-! ### One run of pages -/

variable {m : Memory} {q : TrapScan} {sp : ℕ}

/-- The stack slot at `a` belongs to a record or to a saved context that is looked for. -/
def Evidence (m : Memory) (q : TrapScan) (sp a : ℕ) : Prop :=
  q.isTrapAddress (m.word a) = true ∧
    ((∃ r, a = r + addressOffset ∧ OnStack m sp r (a + wordSize) ∧ m.dword r = q.code) ∨
      (q.savedDebugRegisters = true ∧ ∃ b, ∃ n < 4, a = b + (dr0Offset + n * wordSize) ∧
        OnStack m sp b (b + contextSize) ∧
        m.dword (b + contextFlagsOffset) &&& contextDebug = contextDebug ∧
        (m.word (b + dr7Offset)).testBit (2 * n) = true))

/-- No run of pages reaches past `addr` from below. -/
def Closed (m : Memory) (sp addr : ℕ) : Prop :=
  ∀ a j, sp ≤ a → a < addr → m.query a = some j → j.baseAddress + j.regionSize ≤ addr

/-- A run of readable stack pages, as the outer loop meets it. -/
structure StackRun (m : Memory) (sp addr : ℕ) (top i : Mbi) : Prop where
  paged : m.Paged
  atSp : m.query sp = some top
  above : sp ≤ addr
  start : addr = sp ∨ pageSize ∣ addr
  closed : Closed m sp addr
  found : m.query addr = some i
  same : i.allocationBase = top.allocationBase

namespace StackRun

variable {addr : ℕ} {top i : Mbi}

theorem regionEnd_eq (run : StackRun m sp addr top i) :
    i.regionEnd = i.baseAddress + i.regionSize :=
  run.paged.toSound.regionEnd_eq run.found

theorem lt_regionEnd (run : StackRun m sp addr top i) : addr < i.regionEnd := by
  rw [run.regionEnd_eq]
  exact (run.paged.covers run.found).2.1

theorem regionEnd_lt (run : StackRun m sp addr top i) : i.regionEnd < usizeMax := by
  rw [run.regionEnd_eq]
  obtain ⟨-, -, le, aligned⟩ := run.paged.covers run.found
  unfold usizeMax wordSize at *
  omega

/-- The scan of a run starts where the loop stands. -/
theorem regionStart_eq (run : StackRun m sp addr top i) : max i.baseAddress sp = addr := by
  have base := run.paged.base run.found
  have above := run.above
  unfold pageSize at base
  obtain rfl | aligned := run.start
  · rw [max_eq_right (by omega)]
  · unfold pageSize at aligned
    rw [max_eq_left (by omega)]
    omega

theorem aligned_regionEnd (run : StackRun m sp addr top i) : pageSize ∣ i.regionEnd := by
  rw [run.regionEnd_eq, run.paged.base run.found]
  exact Nat.dvd_add (Dvd.intro_left _ rfl) (run.paged.size run.found)

/-- Past a run no page run reaches over its end either. -/
theorem closed_regionEnd (run : StackRun m sp addr top i) : Closed m sp i.regionEnd := by
  intro a j le less foundA
  by_cases before : a < addr
  · have := run.closed a j le before foundA
    have := run.lt_regionEnd
    omega
  · rw [run.regionEnd_eq] at less ⊢
    obtain ⟨j', foundA', -, -, ends⟩ := run.paged.same run.found (by omega) less
    rw [foundA] at foundA'
    cases foundA'
    omega

/-- What lies in the run. -/
theorem onStack (run : StackRun m sp addr top i) (readable : i.readable = true) {a b : ℕ}
    (le : addr ≤ a) (less : a < b) (ends : b ≤ i.regionEnd) : OnStack m sp a b := by
  rw [run.regionEnd_eq] at ends
  obtain ⟨j, foundA, base, read, end_⟩ := run.paged.same run.found le (by omega)
  have above := run.above
  exact ⟨by omega, less, top, j, run.atSp, foundA, base.trans run.same, read.trans readable,
    by omega⟩

/-- Something on the stack that reaches into the run lies in it. -/
theorem of_onStack (run : StackRun m sp addr top i) {a b x : ℕ} (on : OnStack m sp a b)
    (le : a ≤ x) (less : x < b) (inRun : addr ≤ x) (below : x < i.regionEnd) :
    addr ≤ a ∧ b ≤ i.regionEnd := by
  obtain ⟨above, -, -, j, -, foundA, -, -, ends⟩ := on
  have first : addr ≤ a := by
    by_contra before
    have := run.closed a j above (by omega) foundA
    omega
  rw [run.regionEnd_eq] at below ⊢
  obtain ⟨j', foundA', -, -, end_⟩ := run.paged.same run.found first (by omega)
  rw [foundA] at foundA'
  cases foundA'
  exact ⟨first, by omega⟩

theorem le_of_saturatingAdd_le {a b c : ℕ} (le : saturatingAdd a b ≤ c) (less : c < usizeMax) :
    a + b ≤ c := by
  obtain le | le := min_le_iff.mp le
  · exact le
  · exact absurd le (not_le.mpr less)

theorem lt_add_contextSize (b : ℕ) : b < b + contextSize :=
  Nat.lt_add_of_pos_right (by decide)

/-- The inner test of a slot finds what is there. -/
theorem armsRegister_iff (run : StackRun m sp addr top i) (readable : i.readable = true) {a : ℕ}
    (le : addr ≤ a) (ends : a + wordSize ≤ i.regionEnd) {n : ℕ} (four : n < 4) :
    armsRegister m a addr i.regionEnd n = true ↔ ∃ b, a = b + (dr0Offset + n * wordSize) ∧
      OnStack m sp b (b + contextSize) ∧
      m.dword (b + contextFlagsOffset) &&& contextDebug = contextDebug ∧
      (m.word (b + dr7Offset)).testBit (2 * n) = true := by
  have last := run.regionEnd_lt
  have spans : dr0Offset + n * wordSize + wordSize ≤ contextSize := by
    unfold dr0Offset wordSize contextSize
    omega
  unfold armsRegister
  by_cases short : a < dr0Offset + n * wordSize
  · rw [if_pos short]
    refine ⟨by simp, ?_⟩
    rintro ⟨b, rfl, -⟩
    omega
  · rw [if_neg short]
    obtain ⟨b, rfl⟩ := Nat.exists_eq_add_of_le' (not_lt.mp short)
    rw [Nat.add_sub_cancel]
    by_cases outside : b < addr ∨ i.regionEnd < saturatingAdd b contextSize
    · simp only [if_pos outside]
      refine ⟨by simp, ?_⟩
      rintro ⟨b', eq, on, -⟩
      obtain rfl : b = b' := by omega
      have inside := run.of_onStack on (x := b + (dr0Offset + n * wordSize)) (by omega)
        (by unfold wordSize at *; omega) le (by unfold wordSize at *; omega)
      have below : saturatingAdd b contextSize ≤ i.regionEnd := (min_le_left _ _).trans inside.2
      omega
    · simp only [if_neg outside, Bool.and_eq_true, decide_eq_true_eq]
      rw [not_or, not_lt, not_lt] at outside
      have ends' := le_of_saturatingAdd_le outside.2 last
      constructor
      · rintro ⟨flags, enabled⟩
        exact ⟨b, rfl, run.onStack readable outside.1 (lt_add_contextSize b) ends', flags, enabled⟩
      · rintro ⟨b', eq, -, flags, enabled⟩
        obtain rfl : b = b' := by omega
        exact ⟨flags, enabled⟩

theorem slotMatches_iff (run : StackRun m sp addr top i) (readable : i.readable = true) {a : ℕ}
    (le : addr ≤ a) (ends : a + wordSize ≤ i.regionEnd) :
    slotMatches m q addr i.regionEnd a = true ↔ Evidence m q sp a := by
  have record : (addr + addressOffset ≤ a ∧ m.dword (a - addressOffset) = q.code) ↔
      ∃ r, a = r + addressOffset ∧ OnStack m sp r (a + wordSize) ∧ m.dword r = q.code := by
    constructor
    · rintro ⟨room, code⟩
      obtain ⟨r, rfl⟩ := Nat.exists_eq_add_of_le' (show addressOffset ≤ a by omega)
      rw [Nat.add_sub_cancel] at code
      exact ⟨r, rfl, run.onStack readable (by omega) (by unfold wordSize; omega) ends, code⟩
    · rintro ⟨r, rfl, on, code⟩
      rw [Nat.add_sub_cancel]
      have inside := run.of_onStack on (x := r + addressOffset) (by omega)
        (by unfold wordSize; omega) le (by unfold wordSize at ends; omega)
      exact ⟨by omega, code⟩
  have context : armsDebugRegister m a addr i.regionEnd = true ↔
      ∃ b, ∃ n < 4, a = b + (dr0Offset + n * wordSize) ∧ OnStack m sp b (b + contextSize) ∧
        m.dword (b + contextFlagsOffset) &&& contextDebug = contextDebug ∧
        (m.word (b + dr7Offset)).testBit (2 * n) = true := by
    unfold armsDebugRegister
    rw [List.any_eq_true]
    constructor
    · rintro ⟨n, mem, arms⟩
      have four := List.mem_range.mp mem
      obtain ⟨b, eq, rest⟩ := (run.armsRegister_iff readable le ends four).mp arms
      exact ⟨b, n, four, eq, rest⟩
    · rintro ⟨b, n, four, eq, rest⟩
      exact ⟨n, List.mem_range.mpr four,
        (run.armsRegister_iff readable le ends four).mpr ⟨b, eq, rest⟩⟩
  unfold slotMatches Evidence
  rw [Bool.and_eq_true, Bool.or_eq_true, Bool.and_eq_true, Bool.and_eq_true, decide_eq_true_eq,
    decide_eq_true_eq, record, context]

end StackRun

/-! ### The whole stack -/

theorem dispatchSlots_eq_some {regionStart regionEnd : ℕ} (n slot scanned s : ℕ) :
    dispatchSlots m q regionStart regionEnd n slot scanned = some s ↔
      scanSlots m [] n slot scanned [] = (true, s, []) ∧
        ∀ k < n, slotMatches m q regionStart regionEnd (slot + wordSize * k) = false := by
  induction n generalizing slot scanned with
  | zero => simp [dispatchSlots, scanSlots]
  | succ n ih =>
    unfold dispatchSlots scanSlots
    by_cases tooDeep : maxStackScanBytes < scanned + wordSize
    · simp [if_pos tooDeep]
    · rw [if_neg tooDeep, if_neg tooDeep]
      have marked : mark [] (m.word slot) [] = [] := rfl
      have shift : ∀ k, slot + wordSize + wordSize * k = slot + wordSize * (k + 1) := by
        intro k
        rw [Nat.mul_succ]
        omega
      rw [marked]
      by_cases here : slotMatches m q regionStart regionEnd slot = true
      · rw [if_pos here]
        refine ⟨by simp, fun all => ?_⟩
        have clear := all.2 0 (Nat.succ_pos n)
        rw [Nat.mul_zero, Nat.add_zero, here] at clear
        cases clear
      · rw [if_neg here, ih]
        refine and_congr_right fun _ => ⟨fun clear k less => ?_, fun clear k less => ?_⟩
        · cases k with
          | zero => simpa using here
          | succ k =>
            rw [← shift]
            exact clear k (Nat.lt_of_succ_lt_succ less)
        · rw [shift]
          exact clear (k + 1) (Nat.succ_lt_succ less)

/-- The slots of one run of pages are clear when the scan passes it. -/
theorem StackRun.dispatchSlots_iff {addr : ℕ} {top i : Mbi} (run : StackRun m sp addr top i)
    (readable : i.readable = true) (scanned s : ℕ) :
    dispatchSlots m q addr i.regionEnd
        ((i.regionEnd - nextMultipleOf addr wordSize) / wordSize)
        (nextMultipleOf addr wordSize) scanned = some s ↔
      scanSlots m [] ((i.regionEnd - nextMultipleOf addr wordSize) / wordSize)
        (nextMultipleOf addr wordSize) scanned [] = (true, s, []) ∧
        ∀ a, wordSize ∣ a → addr ≤ a → a < i.regionEnd → ¬ Evidence m q sp a := by
  have first : addr ≤ nextMultipleOf addr wordSize := by
    unfold nextMultipleOf wordSize
    omega
  have starts : wordSize ∣ nextMultipleOf addr wordSize := Dvd.intro_left _ rfl
  have ends : wordSize ∣ i.regionEnd :=
    Nat.dvd_trans (Dvd.intro 0x200 rfl) run.aligned_regionEnd
  rw [dispatchSlots_eq_some]
  refine and_congr_right fun _ => ⟨fun clear a aligned le less evidence => ?_,
    fun clear k less => ?_⟩
  · have le' := nextMultipleOf_le le aligned
    have fits : a + wordSize ≤ i.regionEnd := by
      unfold wordSize at aligned ends ⊢
      omega
    have hit := (run.slotMatches_iff readable le fits).mpr evidence
    have miss := clear ((a - nextMultipleOf addr wordSize) / wordSize)
      (by unfold wordSize at *; omega)
    rw [show nextMultipleOf addr wordSize +
      wordSize * ((a - nextMultipleOf addr wordSize) / wordSize) = a by
        unfold wordSize at *; omega, hit] at miss
    cases miss
  · have fits : nextMultipleOf addr wordSize + wordSize * k + wordSize ≤ i.regionEnd := by
      unfold wordSize at *
      omega
    rw [Bool.eq_false_iff]
    intro hit
    refine clear _ ?_ (by omega) (by unfold wordSize at *; omega)
      ((run.slotMatches_iff readable (by omega) fits).mp hit)
    exact Nat.dvd_add starts (Nat.dvd_mul_right _ _)

/-- The scan of `reclaim.rs` reads a run of pages in full just when it stays in the budget there. -/
theorem StackRun.scanLoop_iff {addr : ℕ} {top i : Mbi} (run : StackRun m sp addr top i)
    (readable : i.readable = true) (scanned : ℕ) :
    (scanLoop m [] top.allocationBase addr scanned []).1 = true ↔
      ∃ s, scanSlots m [] ((i.regionEnd - nextMultipleOf addr wordSize) / wordSize)
          (nextMultipleOf addr wordSize) scanned [] = (true, s, []) ∧
        (scanLoop m [] top.allocationBase i.regionEnd s []).1 = true := by
  have budget := @scanSlots_budget m [] ((i.regionEnd - nextMultipleOf addr wordSize) / wordSize)
    (nextMultipleOf addr wordSize) scanned []
  rw [scanLoop, run.found]
  simp only [if_neg (not_not.mpr run.same), dif_neg (not_le.mpr run.lt_regionEnd), if_pos readable]
  rw [budget]
  cases (scanSlots m [] ((i.regionEnd - nextMultipleOf addr wordSize) / wordSize)
    (nextMultipleOf addr wordSize) scanned []).1 with
  | false => simp
  | true => simp

theorem StackRun.next {addr : ℕ} {top i : Mbi} (run : StackRun m sp addr top i) :
    sp ≤ i.regionEnd ∧ (i.regionEnd = sp ∨ pageSize ∣ i.regionEnd) ∧ Closed m sp i.regionEnd :=
  ⟨run.above.trans run.lt_regionEnd.le, .inr run.aligned_regionEnd, run.closed_regionEnd⟩

/-- The thread is cleared just when its stack can be read in full and holds nothing that is looked
for. -/
theorem dispatchLoop_eq_false {top : Mbi} (paged : m.Paged) (atSp : m.query sp = some top)
    (addr scanned : ℕ) (above : sp ≤ addr) (start : addr = sp ∨ pageSize ∣ addr)
    (closed : Closed m sp addr) :
    dispatchLoop m q sp top.allocationBase addr scanned = false ↔
      (scanLoop m [] top.allocationBase addr scanned []).1 = true ∧
        ∀ a j, wordSize ∣ a → addr ≤ a → m.query a = some j →
          j.allocationBase = top.allocationBase → j.readable = true → ¬ Evidence m q sp a := by
  fun_induction dispatchLoop m q sp top.allocationBase addr scanned with
  | case1 addr _ lost =>
    rw [scanLoop, lost]
    simp
  | case2 addr _ i found other =>
    rw [scanLoop, found]
    simp only [if_pos other]
    refine ⟨fun _ => ⟨trivial, fun a j _ le foundA same read => ?_⟩, fun _ => trivial⟩
    exact absurd (paged.contiguous atSp found foundA above le read same.symm) other
  | case3 addr _ i found same ended =>
    have := (paged.covers found).2.1
    rw [paged.toSound.regionEnd_eq found] at ended
    omega
  | case4 addr scanned i found same inside readable regionStart slot tooMuch =>
    have run : StackRun m sp addr top i :=
      ⟨paged, atSp, above, start, closed, found, not_not.mp same⟩
    refine ⟨by simp, fun ⟨read, clear⟩ => ?_⟩
    obtain ⟨s, passed, -⟩ := (run.scanLoop_iff readable scanned).mp read
    have eq := (@StackRun.dispatchSlots_iff m q sp addr top i run readable scanned s).mpr
      ⟨passed, fun a aligned le less => ?_⟩
    · simp only [slot, regionStart, run.regionStart_eq] at tooMuch
      rw [tooMuch] at eq
      cases eq
    · obtain ⟨j, foundA, base, read, -⟩ := paged.same found le (run.regionEnd_eq ▸ less)
      exact clear a j aligned le foundA (base.trans run.same) (read.trans readable)
  | case5 addr scanned i found same inside readable regionStart slot s passed ih =>
    have run : StackRun m sp addr top i :=
      ⟨paged, atSp, above, start, closed, found, not_not.mp same⟩
    simp only [slot, regionStart, run.regionStart_eq] at passed
    rw [ih run.next.1 run.next.2.1 run.next.2.2, run.scanLoop_iff readable scanned]
    obtain ⟨scan, here⟩ := (run.dispatchSlots_iff readable scanned s).mp passed
    constructor
    · rintro ⟨read, clear⟩
      refine ⟨⟨s, scan, read⟩, fun a j aligned le foundA base read => ?_⟩
      by_cases below : a < i.regionEnd
      · exact here a aligned le below
      · exact clear a j aligned (not_lt.mp below) foundA base read
    · rintro ⟨⟨s', scan', read⟩, clear⟩
      rw [scan] at scan'
      cases scan'
      exact ⟨read, fun a j aligned le => clear a j aligned (run.lt_regionEnd.le.trans le)⟩
  | case6 addr scanned i found same inside unreadable ih =>
    have run : StackRun m sp addr top i :=
      ⟨paged, atSp, above, start, closed, found, not_not.mp same⟩
    rw [ih run.next.1 run.next.2.1 run.next.2.2]
    conv_rhs => rw [scanLoop, found]
    simp only [if_neg same, dif_neg inside, if_neg unreadable]
    refine and_congr_right fun _ => ⟨fun clear a j aligned le foundA base read => ?_,
      fun clear a j aligned le => clear a j aligned (run.lt_regionEnd.le.trans le)⟩
    refine clear a j aligned ?_ foundA base read
    by_contra below
    obtain ⟨k, foundK, -, readK, -⟩ := paged.same found le
      (run.regionEnd_eq ▸ not_le.mp below)
    rw [foundA] at foundK
    cases foundK
    exact unreadable (readK ▸ read)

/-! ### One thread -/

theorem Evidence.slot {a : ℕ} (evidence : Evidence m q sp a) (sound : m.Sound) :
    ∃ i j, m.query sp = some i ∧ m.query a = some j ∧ j.allocationBase = i.allocationBase ∧
      j.readable = true ∧ sp ≤ a := by
  have within : ∀ {r b}, OnStack m sp r b → r ≤ a → a < b → ∃ i j, m.query sp = some i ∧
      m.query a = some j ∧ j.allocationBase = i.allocationBase ∧ j.readable = true ∧ sp ≤ a := by
    rintro r b ⟨above, -, i, j, atSp, found, base, read, ends⟩ le less
    obtain ⟨k, foundK, baseK, readK, -⟩ := sound.same found le (by omega)
    exact ⟨i, k, atSp, foundK, baseK.trans base, readK.trans read, above.trans le⟩
  obtain ⟨-, ⟨r, rfl, on, -⟩ | ⟨-, b, n, four, rfl, on, -⟩⟩ := evidence
  · exact within on (Nat.le_add_right _ _) (Nat.lt_add_of_pos_right (by decide))
  · refine within on (Nat.le_add_right _ _) ?_
    unfold dr0Offset wordSize contextSize
    omega

/-- What is in flight stands in some aligned slot of the stack. -/
theorem inDispatch_iff (c : Context) : InDispatch m q c ↔
    stoppedAtTrap q c.ip = true ∨ ∃ a, wordSize ∣ a ∧ Evidence m q c.sp a := by
  unfold InDispatch
  refine or_congr_right ⟨?_, ?_⟩
  · rintro (⟨r, aligned, on, code, trap⟩ | ⟨saved, b, aligned, on, flags, n, four, enabled, trap⟩)
    · exact ⟨r + addressOffset, Nat.dvd_add aligned (by decide), trap, .inl ⟨r, rfl, on, code⟩⟩
    · refine ⟨b + (dr0Offset + n * wordSize), ?_, trap,
        .inr ⟨saved, b, n, four, rfl, on, flags, enabled⟩⟩
      exact Nat.dvd_add aligned (Nat.dvd_add (by decide) (Dvd.intro_left _ rfl))
  · rintro ⟨a, aligned, trap, ⟨r, rfl, on, code⟩ | ⟨saved, b, n, four, rfl, on, flags, enabled⟩⟩
    · exact .inl ⟨r, (Nat.dvd_add_left (by decide)).mp aligned, on, code, trap⟩
    · refine .inr ⟨saved, b, ?_, on, flags, n, four, enabled, trap⟩
      exact (Nat.dvd_add_left (Nat.dvd_add (by decide) (Dvd.intro_left _ rfl))).mp aligned

/-- A thread is cleared just when its context and its stack can be read and it is not in the
dispatch of a trap. -/
theorem dispatching_eq_false (paged : m.Paged) (c : Context) (readable : Bool) :
    dispatching m q c readable = false ↔
      readable = true ∧ StackReadable m c.sp ∧ ¬ InDispatch m q c := by
  rw [inDispatch_iff]
  unfold dispatching StackReadable scanStack
  cases readable with
  | false => simp
  | true =>
    by_cases stopped : stoppedAtTrap q c.ip = true
    · simp [stopped]
    · cases atSp : m.query c.sp with
      | none => simp [stopped]
      | some top =>
        have closed : Closed m c.sp c.sp := fun a j le less => by omega
        simp only [if_neg stopped, Bool.true_eq_false, if_false,
          dispatchLoop_eq_false paged atSp c.sp 0 le_rfl (.inl rfl) closed]
        rw [true_and]
        refine and_congr_right fun _ => ⟨?_, fun clear a j aligned _ _ _ _ evidence =>
          clear (.inr ⟨a, aligned, evidence⟩)⟩
        rintro clear (stops | ⟨a, aligned, evidence⟩)
        · exact stopped stops
        · obtain ⟨i, j, atSp', found, base, read, le⟩ := evidence.slot paged.toSound
          rw [atSp] at atSp'
          cases atSp'
          exact clear a j aligned le found base read evidence

/-! ### All threads -/

/-- What the scan accepts from a thread it has listed. -/
def ClearedBy (w : Snapshot) (os : ThreadOs) (q : TrapScan) (tid : ℕ) : Prop :=
  os.openThread tid = .invalidParameter ∨
    (os.openThread tid = .opened ∧ os.suspendThread tid = .exited) ∨
    (os.openThread tid = .opened ∧ os.suspendThread tid = .suspended ∧
      os.getThreadContext tid = true ∧ StackReadable w.memory (w.context tid).sp ∧
      ¬ InDispatch w.memory q (w.context tid))

/-- The thread cannot be opened or stopped and is not known to be gone. -/
def refusedBy (os : ThreadOs) (tid : ℕ) : Bool :=
  match os.openThread tid with
  | .invalidParameter => false
  | .denied => true
  | .opened => os.suspendThread tid = .failed

/-- The thread is suspended for the scan. -/
def suspendedBy (os : ThreadOs) (tid : ℕ) : Bool :=
  os.openThread tid = .opened && os.suspendThread tid = .suspended

theorem suspendForScan_eq (os : ThreadOs) (p : Bool × List ℕ) (tid : ℕ) :
    suspendForScan os p tid =
      (p.1 || refusedBy os tid, p.2 ++ if suspendedBy os tid then [tid] else []) := by
  unfold suspendForScan refusedBy suspendedBy
  cases os.openThread tid <;> cases os.suspendThread tid <;> simp

theorem foldl_suspendForScan (os : ThreadOs) (tids : List ℕ) (p : Bool × List ℕ) :
    tids.foldl (suspendForScan os) p =
      (p.1 || tids.any (refusedBy os), p.2 ++ tids.filter (suspendedBy os)) := by
  induction tids generalizing p with
  | nil => simp
  | cons tid tids ih =>
    rw [List.foldl_cons, ih, suspendForScan_eq, List.any_cons, List.filter_cons, Bool.or_assoc]
    split_ifs <;> simp

variable {w : Snapshot} {os : ThreadOs}

/-- No thread is in flight just when none refuses the scan and every suspended one is cleared. -/
theorem exceptionsInFlight_eq_false_iff : exceptionsInFlight w os q = false ↔
    ∀ tid ∈ os.tids, refusedBy os tid = false ∧ (suspendedBy os tid = true →
      dispatching w.memory q (w.context tid) (os.getThreadContext tid) = false) := by
  unfold exceptionsInFlight
  rw [foldl_suspendForScan, Bool.false_or, List.nil_append]
  cases refused : os.tids.any (refusedBy os) with
  | true =>
    obtain ⟨tid, mem, refuses⟩ := List.any_eq_true.mp refused
    refine ⟨by simp, fun all => ?_⟩
    exact nomatch (all tid mem).1.symm.trans refuses
  | false =>
    rw [List.any_eq_false] at refused
    simp only [List.any_eq_false, List.mem_filter, Bool.not_eq_true, and_imp]
    exact ⟨fun all tid mem => ⟨by simpa using refused tid mem, all tid mem⟩,
      fun all tid mem => (all tid mem).2⟩

theorem clearedBy_iff (paged : w.memory.Paged) (tid : ℕ) : ClearedBy w os q tid ↔
    refusedBy os tid = false ∧ (suspendedBy os tid = true →
      dispatching w.memory q (w.context tid) (os.getThreadContext tid) = false) := by
  rw [dispatching_eq_false paged]
  unfold ClearedBy refusedBy suspendedBy
  cases os.openThread tid <;> cases os.suspendThread tid <;> simp

/-- The scan answers that no exception is in flight just when every thread it has listed is gone, or
was read in full and is not in the dispatch of a trap. -/
theorem exceptionsInFlight_exact (w : Snapshot) (os : ThreadOs) (q : TrapScan)
    (paged : w.memory.Paged) :
    exceptionsInFlight w os q = false ↔ ∀ tid ∈ os.tids, ClearedBy w os q tid := by
  rw [exceptionsInFlight_eq_false_iff]
  exact forall₂_congr fun tid _ => (clearedBy_iff paged tid).symm

/-! ### A thread parked in a dispatch -/

/-- `STATUS_BREAKPOINT`. -/
def statusBreakpoint : ℕ := 0x80000003

/-- Two allocations of sixteen pages. -/
def parkedQuery (x : ℕ) : Option Mbi :=
  if x < 0x10000 then none
  else if x < 0x20000 then
    some ⟨x / pageSize * pageSize, 0x20000 - x / pageSize * pageSize, 0x10000, true, false⟩
  else if x < 0x30000 then
    some ⟨x / pageSize * pageSize, 0x30000 - x / pageSize * pageSize, 0x20000, true, false⟩
  else none

/-- The record of a breakpoint at `0x401000`, on the stack. -/
def parkedMemory : Memory where
  query := parkedQuery
  word a := if a = 0x11000 then statusBreakpoint else if a = 0x11010 then 0x401000 else 0

def parkedSnapshot (sp : ℕ) : Snapshot :=
  ⟨1, ⟨0x500000, 0x2000, []⟩, [1, 2], fun _ => ⟨0x600000, sp, []⟩, parkedMemory⟩

def oneThreadOs : ThreadOs :=
  ⟨true, [2], fun _ => .opened, fun _ => .suspended, fun _ => true, none⟩

def parkedScan : TrapScan := ⟨statusBreakpoint, fun a => a = 0x401000, false⟩

theorem parkedQuery_eq_some {x : ℕ} {i : Mbi} (found : parkedQuery x = some i) :
    ∃ a, (a = 0x10000 ∨ a = 0x20000) ∧ a ≤ x ∧ x < a + 0x10000 ∧
      i = ⟨x / pageSize * pageSize, a + 0x10000 - x / pageSize * pageSize, a, true, false⟩ := by
  unfold parkedQuery at found
  split_ifs at found with below inFirst inSecond
  · cases found
    exact ⟨0x10000, .inl rfl, by omega, by omega, rfl⟩
  · cases found
    exact ⟨0x20000, .inr rfl, by omega, by omega, rfl⟩

theorem parkedQuery_of_mem {a x : ℕ} (alloc : a = 0x10000 ∨ a = 0x20000) (le : a ≤ x)
    (less : x < a + 0x10000) : parkedQuery x =
      some ⟨x / pageSize * pageSize, a + 0x10000 - x / pageSize * pageSize, a, true, false⟩ := by
  unfold parkedQuery
  obtain rfl | rfl := alloc
  · rw [if_neg (by omega), if_pos (by omega)]
  · rw [if_neg (by omega), if_neg (by omega), if_pos (by omega)]

theorem parkedMemory_paged : parkedMemory.Paged where
  covers := by
    intro x i found
    obtain ⟨a, alloc, le, less, rfl⟩ := parkedQuery_eq_some found
    unfold usizeMax wordSize pageSize
    simp only
    omega
  same := by
    intro x y i found le less
    obtain ⟨a, alloc, leX, lessX, rfl⟩ := parkedQuery_eq_some found
    have inside : x / pageSize * pageSize ≤ x := Nat.div_mul_le_self _ _
    have inside' : y / pageSize * pageSize ≤ y := Nat.div_mul_le_self _ _
    change y < x / pageSize * pageSize + (a + 0x10000 - x / pageSize * pageSize) at less
    have foundY := @parkedQuery_of_mem a y alloc (by omega) (by omega)
    refine ⟨_, foundY, ?_, ?_, ?_⟩
    · change a = a
      rfl
    · simp only [Mbi.readable]
    · change y / pageSize * pageSize + (a + 0x10000 - y / pageSize * pageSize) =
        x / pageSize * pageSize + (a + 0x10000 - x / pageSize * pageSize)
      omega
  contiguous := by
    intro x y z i j k foundX foundY foundZ leY leZ _ same
    obtain ⟨a, alloc, leA, lessA, rfl⟩ := parkedQuery_eq_some foundX
    obtain ⟨b, alloc', leB, lessB, rfl⟩ := parkedQuery_eq_some foundY
    obtain ⟨c, alloc'', leC, lessC, rfl⟩ := parkedQuery_eq_some foundZ
    simp only at same ⊢
    omega
  base := by
    intro x i found
    obtain ⟨a, -, -, -, rfl⟩ := parkedQuery_eq_some found
    rfl
  size := by
    intro x i found
    obtain ⟨a, alloc, le, less, rfl⟩ := parkedQuery_eq_some found
    simp only [pageSize]
    omega

/-- While the record lies above the stack pointer the thread is in flight. -/
theorem parked_thread_in_flight :
    exceptionsInFlight (parkedSnapshot 0x10F00) oneThreadOs parkedScan = true := by
  rw [← Bool.not_eq_false, exceptionsInFlight_exact _ _ _ parkedMemory_paged]
  intro all
  obtain opened | ⟨-, gone⟩ | ⟨-, -, -, -, idle⟩ := all 2 (by decide)
  · cases opened
  · cases gone
  · have atSp := @parkedQuery_of_mem 0x10000 0x10F00 (.inl rfl) (by decide) (by decide)
    have atRecord := @parkedQuery_of_mem 0x10000 0x11000 (.inl rfl) (by decide) (by decide)
    refine idle (.inr (.inl ⟨0x11000, by decide, ⟨by decide, by decide, ?_⟩, by decide, by decide⟩))
    exact ⟨_, _, atSp, atRecord, rfl, rfl, by decide⟩

end NeoHook
