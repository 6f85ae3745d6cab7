import NeoHook.Quiescence

/-!
# The watchdog

`watchdog.rs`: regions with the bytes they must hold are compared on every sweep; one that differs
is rewritten, if the mode says so and no thread is inside it, and reported once per episode.

A run is a sequence of calls of the owner, changes of bytes by others and sweeps of the background
thread.  The lock of the region list makes each of them one step.  `Watched` adds to the state what
the last sweep saw of every region.
-/

namespace NeoHook

open ByteMap

inductive WatchMode where
  | restore | detectOnly
  deriving DecidableEq, Repr

inductive WatchdogError where
  | invalidParameter
  deriving DecidableEq, Repr

namespace Watchdog

/-- A guarded region: its bytes must be `expected`. -/
structure Region where
  id : ℕ
  target : ℕ
  expected : List UInt8
  tampered : Bool
  deriving DecidableEq

structure TamperEvent where
  guardId : ℕ
  target : ℕ
  expected : List UInt8
  found : List UInt8
  restored : Bool
  deriving DecidableEq

/-- What a rewrite of regions meets: the three locks it tries, the instruction pointers of the
threads it suspends (`none` for one that cannot be read), and for the `n`-th rewrite `none` if it
succeeds, or how many bytes it stored before it failed. -/
structure SweepOs where
  transactionFree : Bool
  codeFree : Bool
  freezeFree : Bool
  ips : List (Option ℕ)
  failsAfter : ℕ → Option ℕ

/-- The state shared with the background thread, and the bytes of the process. -/
structure Shared where
  mem : ℕ → UInt8
  regions : List Region
  restorations : ℕ
  nextId : ℕ
  mode : WatchMode
  /-- A callback is installed. -/
  callback : Bool

/-! ### Sweeping -/

/-- The bytes a region holds. -/
def Region.current (r : Region) (m : ℕ → UInt8) : List UInt8 := read m r.target r.expected.length

def Region.intact (r : Region) (m : ℕ → UInt8) : Bool := r.current m = r.expected

/-- The comparison of one region: the bytes found there if they differ. -/
def scanRegion (m : ℕ → UInt8) (r : Region) : Region × Option (List UInt8) :=
  if r.intact m then ({ r with tampered := false }, none) else (r, some (r.current m))

/-- The rewrites of `restore_quiescent` from the `n`-th on, with all positions known. -/
def rewriteLoop (os : SweepOs) : ℕ → List Region → (ℕ → UInt8) → List Bool × (ℕ → UInt8)
  | _, [], m => ([], m)
  | n, r :: rest, m =>
    if os.ips.any fun ip => ip.any fun ip =>
        r.target ≤ ip && ip < saturatingAdd r.target r.expected.length then
      let (restored, m) := rewriteLoop os (n + 1) rest m
      (false :: restored, m)
    else
      match os.failsAfter n with
      | none =>
        let (restored, m) := rewriteLoop os (n + 1) rest (write m r.target r.expected)
        (true :: restored, m)
      | some k =>
        let (restored, m) := rewriteLoop os (n + 1) rest (write m r.target (r.expected.take k))
        (false :: restored, m)

/-- `restore_quiescent`: which regions were rewritten. -/
def restoreQuiescent (os : SweepOs) (targets : List Region) (m : ℕ → UInt8) :
    List Bool × (ℕ → UInt8) :=
  if os.transactionFree && os.codeFree && os.freezeFree && os.ips.all Option.isSome then
    rewriteLoop os 0 targets m
  else (targets.map fun _ => false, m)

/-- The loop over the regions that differ, in order with the outcomes of their rewrites. -/
def reportLoop : List (Region × Option (List UInt8)) → List Bool → List Region × List TamperEvent
  | [], _ => ([], [])
  | (r, none) :: rest, restored =>
    let (regions, hits) := reportLoop rest restored
    (r :: regions, hits)
  | (r, some found) :: rest, restored =>
    let (regions, hits) := reportLoop rest restored.tail
    if r.tampered then (r :: regions, hits)
    else ({ r with tampered := true } :: regions,
      ⟨r.id, r.target, r.expected, found, restored.headD false⟩ :: hits)

/-- The regions that differ. -/
def differing (scanned : List (Region × Option (List UInt8))) : List Region :=
  scanned.filterMap fun p => p.2.map fun _ => p.1

/-- What a sweep rewrites. -/
def rewrites (os : SweepOs) (s : Shared) : List Bool × (ℕ → UInt8) :=
  let tampered := differing (s.regions.map (scanRegion s.mem))
  if s.mode = .restore then restoreQuiescent os tampered s.mem
  else (tampered.map fun _ => false, s.mem)

/-- `sweep`, with the events the callback gets. -/
def sweep (os : SweepOs) (s : Shared) : Shared × List TamperEvent :=
  let scanned := s.regions.map (scanRegion s.mem)
  let (restored, m) := rewrites os s
  let (regions, hits) := reportLoop scanned restored
  ({ s with
      mem := m
      regions := regions
      restorations := s.restorations + restored.count true },
    if s.callback then hits else [])

/-! ### The owner's calls -/

def insertRegion (s : Shared) (target : ℕ) (expected : List UInt8) : Shared × ℕ :=
  ({ s with
      nextId := s.nextId + 1
      regions := s.regions ++ [⟨s.nextId, target, expected, false⟩] }, s.nextId)

def guard (s : Shared) (target len : ℕ) : Except WatchdogError ℕ × Shared :=
  if target = 0 ∨ len = 0 then (.error .invalidParameter, s)
  else let (s, id) := insertRegion s target (read s.mem target len)
    (.ok id, s)

def guardBytes (s : Shared) (target : ℕ) (expected : List UInt8) :
    Except WatchdogError ℕ × Shared :=
  if target = 0 ∨ expected = [] then (.error .invalidParameter, s)
  else let (s, id) := insertRegion s target expected
    (.ok id, s)

def unguard (s : Shared) (id : ℕ) : Bool × Shared :=
  let regions := s.regions.filter fun r => r.id ≠ id
  (regions.length ≠ s.regions.length, { s with regions := regions })

/-- One step of a run. -/
inductive Event where
  /-- Somebody else stores bytes. -/
  | tamper (a : ℕ) (bs : List UInt8)
  | setMode (mode : WatchMode)
  | onTamper
  | clearOnTamper
  | guard (target len : ℕ)
  | guardBytes (target : ℕ) (expected : List UInt8)
  | unguard (id : ℕ)
  | sweep (os : SweepOs)

def step (s : Shared) : Event → Shared
  | .tamper a bs => { s with mem := write s.mem a bs }
  | .setMode mode => { s with mode := mode }
  | .onTamper => { s with callback := true }
  | .clearOnTamper => { s with callback := false }
  | .guard target len => (guard s target len).2
  | .guardBytes target expected => (guardBytes s target expected).2
  | .unguard id => (unguard s id).2
  | .sweep os => (sweep os s).1

/-- A watchdog right after `with_interval`. -/
def initial (m : ℕ → UInt8) : Shared := ⟨m, [], 0, 1, .restore, false⟩

/-! ### What a sweep does -/

/-- After a sweep the flag of a region says whether the sweep found it different. -/
theorem reportLoop_regions (m : ℕ → UInt8) (regions : List Region) (restored : List Bool) :
    (reportLoop (regions.map (scanRegion m)) restored).1 =
      regions.map fun r => { r with tampered := !r.intact m } := by
  induction regions generalizing restored with
  | nil => rfl
  | cons r rest ih =>
    cases same : r.intact m with
    | true => simp [scanRegion, same, reportLoop, ih]
    | false =>
      cases flag : r.tampered with
      | true =>
        have whole : ({ r with tampered := true } : Region) = r := by rw [← flag]
        simp [scanRegion, same, reportLoop, flag, ih, whole]
      | false => simp [scanRegion, same, reportLoop, flag, ih]

/-- A sweep reports the regions that differ and are not flagged. -/
theorem reportLoop_hits (m : ℕ → UInt8) (regions : List Region) (restored : List Bool) :
    (reportLoop (regions.map (scanRegion m)) restored).2.map (·.guardId) =
      (regions.filter fun r => !r.intact m && !r.tampered).map (·.id) := by
  induction regions generalizing restored with
  | nil => rfl
  | cons r rest ih =>
    cases same : r.intact m with
    | true => simp [scanRegion, same, reportLoop, ih]
    | false =>
      cases flag : r.tampered with
      | true => simp [scanRegion, same, reportLoop, flag, ih]
      | false => simp [scanRegion, same, reportLoop, flag, ih]

theorem rewriteLoop_length (os : SweepOs) (n : ℕ) (targets : List Region) (m : ℕ → UInt8) :
    (rewriteLoop os n targets m).1.length = targets.length := by
  induction targets generalizing n m with
  | nil => rfl
  | cons r rest ih =>
    rw [rewriteLoop]
    split_ifs
    · simp [ih]
    · split <;> simp [ih]

theorem rewrites_length (os : SweepOs) (s : Shared) :
    (rewrites os s).1.length = (differing (s.regions.map (scanRegion s.mem))).length := by
  unfold rewrites
  simp only
  split_ifs
  · unfold restoreQuiescent
    split_ifs
    · exact rewriteLoop_length os 0 _ _
    · simp
  · simp

/-- The regions a sweep rewrites. -/
def rewritten (os : SweepOs) (s : Shared) : List Region :=
  (((differing (s.regions.map (scanRegion s.mem))).zip (rewrites os s).1).filter (·.2)).map (·.1)

theorem rewritten_length (os : SweepOs) (s : Shared) :
    (rewritten os s).length = (rewrites os s).1.count true := by
  have length := rewrites_length os s
  unfold rewritten
  generalize differing (s.regions.map (scanRegion s.mem)) = targets at *
  generalize (rewrites os s).1 = restored at *
  rw [List.length_map]
  induction targets generalizing restored with
  | nil =>
    obtain rfl := List.eq_nil_of_length_eq_zero length
    rfl
  | cons r rest ih =>
    cases restored with
    | nil => cases length
    | cons b bs =>
      have := ih bs (by simpa using length)
      cases b <;> simp [this]

/-! ### Runs -/

/-- What a sweep saw of a region: whether it was intact at the start and at the end. -/
structure Seen where
  intact : Bool
  matched : Bool
  deriving DecidableEq

/-- A watchdog with what the last sweep saw of every region. -/
structure Watched where
  dog : Shared
  seen : ℕ → Option Seen

namespace Watched

def step (w : Watched) (e : Event) : Watched where
  dog := Watchdog.step w.dog e
  seen := match e with
    | .sweep os => fun id =>
      match w.dog.regions.find? fun r => r.id = id with
      | some r => some ⟨r.intact w.dog.mem, r.intact (sweep os w.dog).1.mem⟩
      | none => w.seen id
    | _ => w.seen

def initial (m : ℕ → UInt8) : Watched := ⟨Watchdog.initial m, fun _ => none⟩

def run (w : Watched) (es : List Event) : Watched := es.foldl step w

/-- This is the region's first sweep, or it matched at the end of the last one. -/
def startsEpisode (w : Watched) (r : Region) : Bool :=
  match w.seen r.id with
  | none => true
  | some p => p.matched

/-- The next sweep calls back for exactly the regions that differ and start an episode, once each,
and counts the regions it rewrites. -/
structure Reports (w : Watched) (os : SweepOs) : Prop where
  calls : (sweep os w.dog).2.map (·.guardId) =
    (w.dog.regions.filter fun r => !r.intact w.dog.mem && w.startsEpisode r).map (·.id)
  counts : (sweep os w.dog).1.restorations = w.dog.restorations + (rewritten os w.dog).length

/-- No region that differs now was turned from different to intact, or from intact to different,
by the last sweep. -/
def Steady (w : Watched) : Prop :=
  ∀ r ∈ w.dog.regions, r.intact w.dog.mem = false →
    ∀ p, w.seen r.id = some p → p.intact = p.matched

/-- What holds along every run. -/
structure Inv (w : Watched) : Prop where
  ids : (w.dog.regions.map (·.id)).Nodup
  below : ∀ r ∈ w.dog.regions, r.id < w.dog.nextId
  fresh : ∀ id, w.dog.nextId ≤ id → w.seen id = none
  flag : ∀ r ∈ w.dog.regions, r.tampered = match w.seen r.id with
    | none => false
    | some p => !p.intact

theorem inv_initial (m : ℕ → UInt8) : (initial m).Inv :=
  ⟨List.nodup_nil, fun _ mem => absurd mem List.not_mem_nil, fun _ _ => rfl,
    fun _ mem => absurd mem List.not_mem_nil⟩

/-- A call that neither sweeps nor changes the regions and their numbers. -/
theorem Inv.same {w w' : Watched} (inv : w.Inv) (regions : w'.dog.regions = w.dog.regions)
    (nextId : w'.dog.nextId = w.dog.nextId) (seen : w'.seen = w.seen) : w'.Inv := by
  refine ⟨?_, ?_, ?_, ?_⟩
  · rw [regions]
    exact inv.ids
  · rw [regions, nextId]
    exact inv.below
  · rw [nextId, seen]
    exact inv.fresh
  · rw [regions, seen]
    exact inv.flag

theorem Inv.insert {w : Watched} (inv : w.Inv) (target : ℕ) (expected : List UInt8) :
    Inv ⟨(insertRegion w.dog target expected).1, w.seen⟩ := by
  refine ⟨?_, ?_, ?_, ?_⟩
  · simp only [insertRegion, List.map_append, List.map_cons, List.map_nil]
    refine List.nodup_append.2 ⟨inv.ids, List.nodup_singleton _, ?_⟩
    intro a mem b mem'
    obtain ⟨r, old, rfl⟩ := List.mem_map.1 mem
    rw [List.mem_singleton.1 mem']
    exact (inv.below r old).ne
  · intro r mem
    rcases List.mem_append.1 mem with mem | mem
    · exact Nat.lt_succ_of_lt (inv.below r mem)
    · rw [List.mem_singleton.1 mem]
      exact Nat.lt_succ_self _
  · intro id le
    exact inv.fresh id (Nat.le_of_succ_le le)
  · intro r mem
    rcases List.mem_append.1 mem with mem | mem
    · exact inv.flag r mem
    · rw [List.mem_singleton.1 mem]
      simp only [inv.fresh w.dog.nextId le_rfl]

theorem Inv.sweep {w : Watched} (inv : w.Inv) (os : SweepOs) : (w.step (.sweep os)).Inv := by
  have regions : (w.step (.sweep os)).dog.regions =
      w.dog.regions.map fun r => { r with tampered := !r.intact w.dog.mem } :=
    reportLoop_regions w.dog.mem w.dog.regions _
  have found : ∀ r ∈ w.dog.regions, (w.step (.sweep os)).seen r.id =
      some ⟨r.intact w.dog.mem, r.intact (Watchdog.sweep os w.dog).1.mem⟩ := by
    intro r mem
    have unique : w.dog.regions.find? (fun r' => r'.id = r.id) = some r := by
      have present : (w.dog.regions.find? fun r' => r'.id = r.id).isSome = true := by
        rw [List.find?_isSome]
        exact ⟨r, mem, decide_eq_true rfl⟩
      obtain ⟨r', found⟩ := Option.isSome_iff_exists.1 present
      have same := List.find?_some found
      rw [found, List.inj_on_of_nodup_map inv.ids (List.mem_of_find?_eq_some found) mem
        (of_decide_eq_true same)]
    simp only [step, unique]
  refine ⟨?_, ?_, ?_, ?_⟩
  · rw [regions, List.map_map]
    exact inv.ids
  · intro r mem
    rw [regions] at mem
    obtain ⟨r, old, rfl⟩ := List.mem_map.1 mem
    exact inv.below r old
  · intro id le
    have absent : w.dog.regions.find? (fun r => r.id = id) = none := by
      rw [List.find?_eq_none]
      intro r mem
      have := inv.below r mem
      have le : w.dog.nextId ≤ id := le
      simp only [decide_eq_true_eq]
      omega
    simp only [step, absent]
    exact inv.fresh id le
  · intro r mem
    rw [regions] at mem
    obtain ⟨r, old, rfl⟩ := List.mem_map.1 mem
    simp only [found r old]

/-- Every step keeps the invariant. -/
theorem Inv.step {w : Watched} (inv : w.Inv) (e : Event) : (w.step e).Inv := by
  cases e with
  | tamper a bs => exact inv.same rfl rfl rfl
  | setMode mode => exact inv.same rfl rfl rfl
  | onTamper => exact inv.same rfl rfl rfl
  | clearOnTamper => exact inv.same rfl rfl rfl
  | guard target len =>
    by_cases invalid : target = 0 ∨ len = 0
    · refine inv.same ?_ ?_ rfl <;> simp only [Watched.step, Watchdog.step, guard, if_pos invalid]
    · have added := inv.insert target (read w.dog.mem target len)
      simpa only [Watched.step, Watchdog.step, guard, if_neg invalid] using added
  | guardBytes target expected =>
    by_cases invalid : target = 0 ∨ expected = []
    · refine inv.same ?_ ?_ rfl <;>
        simp only [Watched.step, Watchdog.step, guardBytes, if_pos invalid]
    · have added := inv.insert target expected
      simpa only [Watched.step, Watchdog.step, guardBytes, if_neg invalid] using added
  | unguard id =>
    have fewer : ∀ r ∈ (w.step (.unguard id)).dog.regions, r ∈ w.dog.regions :=
      fun r mem => (List.mem_filter.1 mem).1
    exact ⟨inv.ids.sublist (List.filter_sublist.map _), fun r mem => inv.below r (fewer r mem),
      inv.fresh, fun r mem => inv.flag r (fewer r mem)⟩
  | sweep os => exact inv.sweep os

theorem Inv.run {w : Watched} (inv : w.Inv) (es : List Event) : (w.run es).Inv := by
  induction es generalizing w with
  | nil => exact inv
  | cons e rest ih => exact ih (inv.step e)

/-- Two selections from a list whose keys differ have the same keys only if they agree. -/
theorem map_filter_eq_iff {α β : Type} {f : α → β} {l : List α} (nodup : (l.map f).Nodup)
    (p q : α → Bool) : (l.filter p).map f = (l.filter q).map f ↔ ∀ x ∈ l, p x = q x := by
  have mem_iff : ∀ (p : α → Bool), ∀ x ∈ l, f x ∈ (l.filter p).map f ↔ p x = true := by
    intro p x mem
    constructor
    · intro selected
      obtain ⟨y, found, eq⟩ := List.mem_map.1 selected
      obtain ⟨mem', holds⟩ := List.mem_filter.1 found
      rwa [← List.inj_on_of_nodup_map nodup mem' mem eq]
    · intro holds
      exact List.mem_map.2 ⟨x, List.mem_filter.2 ⟨mem, holds⟩, rfl⟩
  constructor
  · intro eq x mem
    rw [Bool.eq_iff_iff, ← mem_iff p x mem, ← mem_iff q x mem, eq]
  · intro agree
    rw [List.filter_congr agree]

/-- A sweep counts the regions it rewrites. -/
theorem sweep_restorations (os : SweepOs) (s : Shared) :
    (sweep os s).1.restorations = s.restorations + (rewritten os s).length := by
  rw [rewritten_length]
  rfl

/-- With the invariant, a sweep reports as it should exactly in a steady state. -/
theorem Inv.reports_iff {w : Watched} (inv : w.Inv) (installed : w.dog.callback = true)
    (os : SweepOs) : w.Reports os ↔ w.Steady := by
  have calls : (Watchdog.sweep os w.dog).2.map (·.guardId) =
      (w.dog.regions.filter fun r => !r.intact w.dog.mem && !r.tampered).map (·.id) := by
    simp only [Watchdog.sweep, installed, if_true]
    exact reportLoop_hits w.dog.mem w.dog.regions _
  have agree : ∀ r ∈ w.dog.regions,
      ((!r.intact w.dog.mem && !r.tampered) = (!r.intact w.dog.mem && w.startsEpisode r)) ↔
        (r.intact w.dog.mem = false → ∀ p, w.seen r.id = some p → p.intact = p.matched) := by
    intro r mem
    rw [inv.flag r mem, startsEpisode]
    cases r.intact w.dog.mem with
    | true => simp
    | false =>
      cases w.seen r.id with
      | none => simp
      | some p => simp
  constructor
  · intro reports r mem differs
    have same := (map_filter_eq_iff inv.ids _ _).1 (calls.symm.trans reports.calls) r mem
    exact (agree r mem).1 same differs
  · intro steady
    refine ⟨calls.trans ?_, sweep_restorations os w.dog⟩
    exact (map_filter_eq_iff inv.ids _ _).2 fun r mem => (agree r mem).2 (steady r mem)

end Watched

/-- In every run, a sweep with a callback installed reports exactly the regions that differ and
either are swept for the first time or matched at the end of the last sweep, if and only if the
last sweep turned none of the regions that differ now from different to intact, by rewriting it,
or from intact to different, by rewriting one that overlaps it. -/
theorem sweeps_report_iff (m : ℕ → UInt8) (before : List Event)
    (installed : ((Watched.initial m).run before).dog.callback = true) (os : SweepOs) :
    ((Watched.initial m).run before).Reports os ↔ ((Watched.initial m).run before).Steady :=
  ((Watched.inv_initial m).run before).reports_iff installed os

/-- Nothing stands in the way of a rewrite. -/
def freeOs : SweepOs := ⟨true, true, true, [], fun _ => none⟩

/-- A patch is guarded, reverted, rewritten by a sweep, and reverted again. -/
def revertedTwice : List Event :=
  [.onTamper, .guardBytes 0x1000 [0xE9], .tamper 0x1000 [0x90], .sweep freeOs, .tamper 0x1000 [0x90]]

/-- The second reversion is not reported. -/
theorem revertedTwice_unreported :
    ((Watched.initial fun _ => 0xE9).run revertedTwice).dog.callback = true ∧
      ¬ ((Watched.initial fun _ => 0xE9).run revertedTwice).Reports freeOs := by
  refine ⟨rfl, fun reports => ?_⟩
  have calls := reports.calls
  revert calls
  decide +kernel

/-- The first reversion is. -/
theorem revertedOnce_reported :
    ((Watched.initial fun _ => 0xE9).run (revertedTwice.take 3)).Reports freeOs := by
  rw [sweeps_report_iff _ _ rfl]
  intro r mem differs p seen
  cases seen

end Watchdog

end NeoHook
