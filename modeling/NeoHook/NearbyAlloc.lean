import NeoHook.Quiescence
import NeoHook.Lib.Align

/-!
# Allocating near a target

`TrampolineAlloc` of `alloc.rs` on x86_64.  `alloc_nearby` walks the free regions around a target
and takes the aligned start closest to it; `alloc_export_stub` takes the first one above a module
base.  What the OS reports (`SYSTEM_INFO`, `VirtualQuery`) and where it allocates are parameters.
-/

namespace NeoHook

namespace TrampolineAlloc

/-- What the scans read of a `MEMORY_BASIC_INFORMATION`. -/
structure MemoryInfo where
  baseAddress : ℕ
  regionSize : ℕ
  /-- `MEM_FREE`. -/
  free : Bool
  deriving DecidableEq, Repr

def MemoryInfo.regionEnd (i : MemoryInfo) : ℕ := saturatingAdd i.baseAddress i.regionSize

/-- The fields of `SYSTEM_INFO` the allocator uses. -/
structure SystemInfo where
  allocationGranularity : ℕ
  minimumApplicationAddress : ℕ
  maximumApplicationAddress : ℕ
  deriving DecidableEq, Repr

/-- The granularity is a power of two, and the usable addresses end well before the last word. -/
structure SystemInfo.Sound (si : SystemInfo) : Prop where
  granularity : ∃ k, si.allocationGranularity = 2 ^ k
  room : si.maximumApplicationAddress + si.allocationGranularity < 2 ^ 64

def alignUp (addr align : ℕ) : ℕ := Align.up 64 addr align

def alignDown (addr align : ℕ) : ℕ := Align.down 64 addr align

def absDiff (a b : ℕ) : ℕ := max a b - min a b

/-- One turn of the loop over the two neighbours of the ideal address. -/
def closer (lo hi target : ℕ) (best : Option ℕ) (cand : ℕ) : Option ℕ :=
  if lo ≤ cand ∧ cand ≤ hi then
    match best with
    | some b => if absDiff b target ≤ absDiff cand target then some b else some cand
    | none => some cand
  else best

/-- `nearest_aligned_candidate`: the aligned start in a region closest to the target. -/
def nearestAlignedCandidate (regionStart regionEnd target size minAddr maxAddr align : ℕ) :
    Option ℕ :=
  if regionEnd < size ∨ maxAddr < size then none
  else
    let lo := max (max regionStart minAddr) (max align 1)
    let hi := min (regionEnd - size) (maxAddr - size)
    if hi < lo then none
    else
      let ideal := max lo (min target hi)
      match [alignDown ideal align, alignUp ideal align].foldl (closer lo hi target) none with
      | some best => some best
      | none =>
        let snapped := alignUp lo align
        if snapped ≤ hi then some snapped else none

/-- An aligned start for `size` bytes inside a region and a window.  Address 0 is none. -/
structure IsStart (regionStart regionEnd size minAddr maxAddr align c : ℕ) : Prop where
  aligned : align ∣ c
  nonzero : 0 < c
  region_le : regionStart ≤ c
  le_region : c + size ≤ regionEnd
  window_le : minAddr ≤ c
  le_window : c + size ≤ maxAddr

section Nearest

variable {regionEnd size maxAddr k : ℕ}

/-- The starts are the multiples between the bounds `lo` and `hi` of the source. -/
theorem isStart_iff (regionStart minAddr : ℕ) {align : ℕ} (c : ℕ) (positive : 0 < align)
    (fits : size ≤ regionEnd) (fits' : size ≤ maxAddr) :
    IsStart regionStart regionEnd size minAddr maxAddr align c ↔
      align ∣ c ∧ max (max regionStart minAddr) (max align 1) ≤ c ∧
        c ≤ min (regionEnd - size) (maxAddr - size) := by
  constructor
  · intro start
    have := Nat.le_of_dvd start.nonzero start.aligned
    have := start.region_le
    have := start.le_region
    have := start.window_le
    have := start.le_window
    exact ⟨start.aligned, by omega, by omega⟩
  · rintro ⟨aligned, low, high⟩
    exact ⟨aligned, by omega, by omega, by omega, by omega, by omega⟩

/-- The two neighbours of the ideal address: the one kept lies in bounds, none lies closer, and if
none is kept there is no multiple in bounds. -/
theorem foldl_closer (target : ℕ) {lo hi ideal : ℕ} (order : lo ≤ hi)
    (clamp : ideal = max lo (min target hi)) (small : k ≤ 64) (room : hi + 2 ^ k ≤ 2 ^ 64) :
    match [alignDown ideal (2 ^ k), alignUp ideal (2 ^ k)].foldl (closer lo hi target) none with
    | some best => (2 ^ k ∣ best ∧ lo ≤ best ∧ best ≤ hi) ∧
        ∀ c, 2 ^ k ∣ c → lo ≤ c → c ≤ hi → absDiff best target ≤ absDiff c target
    | none => ∀ c, 2 ^ k ∣ c → lo ≤ c → ¬ c ≤ hi := by
  have step := Nat.two_pow_pos k
  have down_dvd := Align.dvd_down small (show ideal < 2 ^ 64 by omega)
  have down_le := Align.down_le small (show ideal < 2 ^ 64 by omega)
  have lt_down := Align.lt_down_add small (show ideal < 2 ^ 64 by omega)
  have up_dvd := Align.dvd_up small (show ideal + 2 ^ k ≤ 2 ^ 64 by omega)
  have le_up := Align.le_up small (show ideal + 2 ^ k ≤ 2 ^ 64 by omega)
  have up_lt := Align.up_lt small (show ideal + 2 ^ k ≤ 2 ^ 64 by omega)
  -- a multiple lies at or below the lower neighbour, or at or above the upper one
  have outside : ∀ c, 2 ^ k ∣ c →
      c ≤ Align.down 64 ideal (2 ^ k) ∨ Align.up 64 ideal (2 ^ k) ≤ c := by
    intro c dvd
    by_contra between
    have above := Align.add_le_of_dvd down_dvd dvd (by omega)
    have below := Align.add_le_of_dvd dvd up_dvd (by omega)
    omega
  simp only [alignDown, alignUp]
  generalize Align.down 64 ideal (2 ^ k) = down at *
  generalize Align.up 64 ideal (2 ^ k) = up at *
  simp only [List.foldl_cons, List.foldl_nil, closer]
  by_cases first : lo ≤ down ∧ down ≤ hi
  · by_cases second : lo ≤ up ∧ up ≤ hi
    · rw [if_pos first, if_pos second]
      simp only
      by_cases keep : absDiff down target ≤ absDiff up target
      · rw [if_pos keep]
        refine ⟨⟨down_dvd, first⟩, fun c dvd low high => ?_⟩
        have := outside c dvd
        simp only [absDiff] at keep ⊢
        omega
      · rw [if_neg keep]
        refine ⟨⟨up_dvd, second⟩, fun c dvd low high => ?_⟩
        have := outside c dvd
        simp only [absDiff] at keep ⊢
        omega
    · rw [if_pos first, if_neg second]
      refine ⟨⟨down_dvd, first⟩, fun c dvd low high => ?_⟩
      have := outside c dvd
      simp only [absDiff]
      omega
  · rw [if_neg first]
    by_cases second : lo ≤ up ∧ up ≤ hi
    · rw [if_pos second]
      refine ⟨⟨up_dvd, second⟩, fun c dvd low high => ?_⟩
      have := outside c dvd
      simp only [absDiff]
      omega
    · rw [if_neg second]
      intro c dvd low high
      have := outside c dvd
      omega

/-- The candidate is the closest of all aligned starts, and there is one if there is a start. -/
theorem nearestAlignedCandidate_spec (regionStart regionEnd target size minAddr : ℕ)
    (small : k ≤ 64) (room : maxAddr + 2 ^ k ≤ 2 ^ 64) :
    match nearestAlignedCandidate regionStart regionEnd target size minAddr maxAddr (2 ^ k) with
    | some best => IsStart regionStart regionEnd size minAddr maxAddr (2 ^ k) best ∧
        ∀ c, IsStart regionStart regionEnd size minAddr maxAddr (2 ^ k) c →
          absDiff best target ≤ absDiff c target
    | none => ∀ c, ¬ IsStart regionStart regionEnd size minAddr maxAddr (2 ^ k) c := by
  have step := Nat.two_pow_pos k
  unfold nearestAlignedCandidate
  by_cases narrow : regionEnd < size ∨ maxAddr < size
  · rw [if_pos narrow]
    intro c start
    have := start.le_region
    have := start.le_window
    omega
  rw [if_neg narrow]
  have start_iff := fun c => isStart_iff regionStart minAddr c step
    (show size ≤ regionEnd by omega) (show size ≤ maxAddr by omega)
  generalize max (max regionStart minAddr) (max (2 ^ k) 1) = lo at *
  have top : min (regionEnd - size) (maxAddr - size) ≤ maxAddr := by omega
  generalize min (regionEnd - size) (maxAddr - size) = hi at *
  simp only
  by_cases empty : hi < lo
  · rw [if_pos empty]
    intro c start
    have := (start_iff c).1 start
    omega
  rw [if_neg empty]
  have best := foldl_closer target (Nat.not_lt.1 empty) rfl small
    (show hi + 2 ^ k ≤ 2 ^ 64 by omega)
  cases found : [alignDown (max lo (min target hi)) (2 ^ k),
      alignUp (max lo (min target hi)) (2 ^ k)].foldl (closer lo hi target) none with
  | some b =>
    rw [found] at best
    refine ⟨(start_iff b).2 best.1, fun c start => ?_⟩
    obtain ⟨dvd, low, high⟩ := (start_iff c).1 start
    exact best.2 c dvd low high
  | none =>
    rw [found] at best
    have snapped := best (alignUp lo (2 ^ k)) (Align.dvd_up small (by omega))
      (Align.le_up small (by omega))
    simp only
    rw [if_neg snapped]
    intro c start
    obtain ⟨dvd, low, high⟩ := (start_iff c).1 start
    exact best c dvd low high

end Nearest

/-! ### `alloc_nearby` -/

def i32Max : ℕ := 2 ^ 31 - 1

/-- How far from the target the window reaches: 1 MiB and the size short of 2 GiB. -/
def range (size : ℕ) : ℕ := i32Max - (1024 * 1024 + size) % 2 ^ 64

section AllocNearby

variable (si : SystemInfo) (target size : ℕ)

def minAddr : ℕ :=
  max (max (target - range size) si.minimumApplicationAddress) si.allocationGranularity

def maxAddr : ℕ := min (saturatingAdd target (range size)) si.maximumApplicationAddress

/-- The candidate in a region the scan was told of. -/
def candidate (i : MemoryInfo) : Option ℕ :=
  if i.free ∧ size ≤ i.regionSize then
    nearestAlignedCandidate i.baseAddress i.regionEnd target size (minAddr si target size)
      (maxAddr si target size) si.allocationGranularity
  else none

/-- The scan of `alloc_nearby`; `query n addr` is the answer to its `n`-th `VirtualQuery`. -/
def scan (query : ℕ → ℕ → Option MemoryInfo) (n current : ℕ) : List ℕ :=
  if current < maxAddr si target size then
    match query n current with
    | none => []
    | some i =>
      if i.regionEnd ≤ current then (candidate si target size i).toList
      else (candidate si target size i).toList ++ scan query (n + 1) i.regionEnd
  else []
termination_by maxAddr si target size - current

/-- The loop over the sorted candidates; `virtualAlloc n addr` is where the `n`-th call puts the
allocation it was asked for at `addr`. -/
def tryAlloc (virtualAlloc : ℕ → ℕ → Option ℕ) : ℕ → List ℕ → Option ℕ
  | _, [] => none
  | n, c :: rest =>
    match virtualAlloc n c with
    | none => tryAlloc virtualAlloc (n + 1) rest
    | some start =>
      if minAddr si target size ≤ start ∧ saturatingAdd start size ≤ maxAddr si target size then
        some start
      else tryAlloc virtualAlloc (n + 1) rest

def allocNearby (query : ℕ → ℕ → Option MemoryInfo) (virtualAlloc : ℕ → ℕ → Option ℕ) : Option ℕ :=
  if size = 0 then none
  else tryAlloc si target size virtualAlloc 0
    ((scan si target size query 0 (minAddr si target size)).mergeSort
      fun a b => absDiff a target ≤ absDiff b target)

/-- The regions the scan is told of. -/
def reports (query : ℕ → ℕ → Option MemoryInfo) (n current : ℕ) : List MemoryInfo :=
  if current < maxAddr si target size then
    match query n current with
    | none => []
    | some i =>
      if i.regionEnd ≤ current then [i] else i :: reports query (n + 1) i.regionEnd
  else []
termination_by maxAddr si target size - current

/-- A start in a region the scan is told of. -/
def StartIn (i : MemoryInfo) (c : ℕ) : Prop :=
  i.free = true ∧ IsStart i.baseAddress i.regionEnd size (minAddr si target size)
    (maxAddr si target size) si.allocationGranularity c

end AllocNearby

section Nearby

variable {si : SystemInfo} {target size : ℕ}

theorem scan_eq (query : ℕ → ℕ → Option MemoryInfo) (n current : ℕ) :
    scan si target size query n current =
      (reports si target size query n current).filterMap (candidate si target size) := by
  induction n, current using scan.induct si target size query with
  | case1 n current inside none =>
    rw [scan, reports, if_pos inside, if_pos inside, none]
    rfl
  | case2 n current inside i found stuck =>
    rw [scan, reports, if_pos inside, if_pos inside, found]
    simp only [if_pos stuck, List.filterMap_cons, List.filterMap_nil]
    cases candidate si target size i <;> rfl
  | case3 n current inside i found moves ih =>
    rw [scan, reports, if_pos inside, if_pos inside, found]
    simp only [if_neg moves, List.filterMap_cons, ih]
    cases candidate si target size i <;> rfl
  | case4 n current outside =>
    rw [scan, reports, if_neg outside, if_neg outside]
    rfl

/-- What the allocation loop returns lies in the window. -/
theorem tryAlloc_window {virtualAlloc : ℕ → ℕ → Option ℕ} {n : ℕ} {l : List ℕ} {a : ℕ}
    (h : tryAlloc si target size virtualAlloc n l = some a) :
    minAddr si target size ≤ a ∧ saturatingAdd a size ≤ maxAddr si target size := by
  induction l generalizing n with
  | nil => cases h
  | cons c rest ih =>
    rw [tryAlloc] at h
    split at h
    · exact ih h
    · split_ifs at h with inside
      · rw [← Option.some.inj h]
        exact inside
      · exact ih h

variable (sound : si.Sound)

include sound

theorem granularity_pos : 0 < si.allocationGranularity := by
  obtain ⟨k, eq⟩ := sound.granularity
  rw [eq]
  exact Nat.two_pow_pos k

theorem maxAddr_room (target size : ℕ) :
    maxAddr si target size + si.allocationGranularity < 2 ^ 64 := by
  have := sound.room
  unfold maxAddr
  omega

/-- The candidate in a region is its start closest to the target. -/
theorem candidate_spec (target size : ℕ) (i : MemoryInfo) :
    match candidate si target size i with
    | some best => StartIn si target size i best ∧
        ∀ c, StartIn si target size i c → absDiff best target ≤ absDiff c target
    | none => ∀ c, ¬ StartIn si target size i c := by
  obtain ⟨k, eq⟩ := sound.granularity
  have room := maxAddr_room sound target size
  have small : k ≤ 64 := by
    by_contra big
    have := Nat.pow_lt_pow_right (show 1 < 2 by decide) (show 64 < k by omega)
    omega
  unfold candidate StartIn
  by_cases large : i.free ∧ size ≤ i.regionSize
  · rw [if_pos large]
    have spec := nearestAlignedCandidate_spec i.baseAddress i.regionEnd target size
      (minAddr si target size) small
      (show maxAddr si target size + 2 ^ k ≤ 2 ^ 64 by rw [← eq]; exact room.le)
    rw [← eq] at spec
    split at spec
    · exact ⟨⟨large.1, spec.1⟩, fun c start => spec.2 c start.2⟩
    · exact fun c start => spec c start.2
  · rw [if_neg large]
    rintro c ⟨free, start⟩
    have fits := start.le_region
    have low := start.region_le
    have : i.regionEnd ≤ i.baseAddress + i.regionSize := min_le_left _ _
    exact large ⟨free, by omega⟩

/-- Everything between the first bytes of the target and what `alloc_nearby` returned is in reach
of a `rel32` jump, in both directions. -/
theorem rel32_of_window {a : ℕ} (positive : 0 < size) (low : minAddr si target size ≤ a)
    (high : a + size ≤ maxAddr si target size) {d b : ℕ} (first : d + 5 ≤ 2 ^ 20)
    (inside : a ≤ b) (inside' : b < a + size) :
    (-(2 ^ 31) ≤ (b : ℤ) - (target + d) - 5 ∧ (b : ℤ) - (target + d) - 5 < 2 ^ 31) ∧
      -(2 ^ 31) ≤ (target : ℤ) + d - b - 5 ∧ (target : ℤ) + d - b - 5 < 2 ^ 31 := by
  have room := maxAddr_room sound target size
  have near : target - range size ≤ minAddr si target size := by
    unfold minAddr
    omega
  have near' : maxAddr si target size ≤ target + range size := by
    unfold maxAddr saturatingAdd
    omega
  have reach : range size ≤ i32Max := Nat.sub_le _ _
  have slack : range size = i32Max - (1024 * 1024 + size) := by
    unfold range
    rw [Nat.mod_eq_of_lt (by unfold i32Max at reach; omega)]
  unfold i32Max at slack
  omega

/-- If every attempt at a start succeeds, the start returned is the closest one in all the free
regions the scan was told of. -/
theorem allocNearby_closest (query : ℕ → ℕ → Option MemoryInfo) (virtualAlloc : ℕ → ℕ → Option ℕ)
    (positive : 0 < size)
    (succeeds : ∀ i ∈ reports si target size query 0 (minAddr si target size),
      ∀ n c, StartIn si target size i c → virtualAlloc n c = some c)
    (exists_start : ∃ i ∈ reports si target size query 0 (minAddr si target size),
      ∃ c, StartIn si target size i c) :
    ∃ i ∈ reports si target size query 0 (minAddr si target size), ∃ a,
      StartIn si target size i a ∧ allocNearby si target size query virtualAlloc = some a ∧
      ∀ j ∈ reports si target size query 0 (minAddr si target size), ∀ c,
        StartIn si target size j c → absDiff a target ≤ absDiff c target := by
  let cands := scan si target size query 0 (minAddr si target size)
  have mem_cands : ∀ {c}, c ∈ cands ↔ ∃ i ∈ reports si target size query 0 (minAddr si target size),
      candidate si target size i = some c := by
    intro c
    simp only [cands, scan_eq, List.mem_filterMap]
  -- every start is matched by a candidate that is at least as close
  have matched : ∀ i ∈ reports si target size query 0 (minAddr si target size), ∀ c,
      StartIn si target size i c → ∃ b ∈ cands, absDiff b target ≤ absDiff c target := by
    intro i mem c start
    have spec := candidate_spec sound target size i
    cases found : candidate si target size i with
    | none => rw [found] at spec; exact absurd start (spec c)
    | some b => rw [found] at spec; exact ⟨b, mem_cands.2 ⟨i, mem, found⟩, spec.2 c start⟩
  let sorted := cands.mergeSort fun a b => decide (absDiff a target ≤ absDiff b target)
  have ordered : sorted.Pairwise fun a b => decide (absDiff a target ≤ absDiff b target) = true := by
    apply List.pairwise_mergeSort
    · intro a b c ab bc
      simp only [decide_eq_true_eq] at *
      omega
    · intro a b
      simp only [Bool.or_eq_true, decide_eq_true_eq]
      omega
  have mem_sorted : ∀ {c}, c ∈ sorted ↔ c ∈ cands := List.mem_mergeSort
  have result : allocNearby si target size query virtualAlloc =
      tryAlloc si target size virtualAlloc 0 sorted := if_neg positive.ne'
  clear_value sorted
  cases sorted with
  | nil =>
    obtain ⟨i, mem, c, start⟩ := exists_start
    obtain ⟨b, found, -⟩ := matched i mem c start
    exact absurd (mem_sorted.2 found) List.not_mem_nil
  | cons a rest =>
    obtain ⟨i, mem, found⟩ := mem_cands.1 (mem_sorted.1 List.mem_cons_self)
    have spec := candidate_spec sound target size i
    rw [found] at spec
    have window := spec.1.2.le_window
    have room := maxAddr_room sound target size
    have unsaturated : saturatingAdd a size = a + size :=
      min_eq_left (by unfold usizeMax; omega)
    refine ⟨i, mem, a, spec.1, ?_, ?_⟩
    · rw [result, tryAlloc, succeeds i mem 0 a spec.1]
      exact if_pos ⟨spec.1.2.window_le, by rw [unsaturated]; exact window⟩
    · intro j mem' c start
      obtain ⟨b, found', closer⟩ := matched j mem' c start
      rcases List.mem_cons.1 (mem_sorted.2 found') with rfl | later
      · exact closer
      · have first := List.rel_of_pairwise_cons ordered later
        simp only [decide_eq_true_eq] at first
        omega

end Nearby

/-! ### A map that stands still -/

/-- `VirtualQuery` on a map that does not change: it answers for every usable address with the
rest of the run of pages in the same state. -/
structure MapSound (si : SystemInfo) (map : ℕ → Option MemoryInfo) : Prop where
  answers : ∀ x < si.maximumApplicationAddress, ∃ i, map x = some i
  covers : ∀ {x i}, map x = some i → i.baseAddress ≤ x ∧ x < i.baseAddress + i.regionSize ∧
    i.baseAddress + i.regionSize ≤ usizeMax
  whole : ∀ {x y i}, map x = some i → i.baseAddress ≤ y → y < i.baseAddress + i.regionSize →
    ∃ j, map y = some j ∧ j.free = i.free
  maximal : ∀ {x i j}, map x = some i → i.free = true →
    map (i.baseAddress + i.regionSize) = some j → j.free = false

/-- The `n` bytes at `a` are free. -/
def FreeRange (map : ℕ → Option MemoryInfo) (a n : ℕ) : Prop :=
  ∀ x, a ≤ x → x < a + n → ∃ i, map x = some i ∧ i.free = true

/-- A free aligned start in the window. -/
structure FreeStart (si : SystemInfo) (target size : ℕ) (map : ℕ → Option MemoryInfo) (c : ℕ) :
    Prop where
  aligned : si.allocationGranularity ∣ c
  window_le : minAddr si target size ≤ c
  le_window : c + size ≤ maxAddr si target size
  free : FreeRange map c size

section Static

variable {si : SystemInfo} {target size : ℕ} {map : ℕ → Option MemoryInfo}

theorem MapSound.regionEnd_eq (static : MapSound si map) {x : ℕ} {i : MemoryInfo}
    (found : map x = some i) : i.regionEnd = i.baseAddress + i.regionSize :=
  min_eq_left (static.covers found).2.2

/-- A free start the scan has not passed yet lies in a region it is told of. -/
theorem FreeStart.reported (static : MapSound si map) (sound : si.Sound) (positive : 0 < size)
    {c : ℕ} (start : FreeStart si target size map c) (n : ℕ) {current : ℕ} (ahead : current ≤ c) :
    ∃ i ∈ reports si target size (fun _ => map) n current, StartIn si target size i c := by
  have := start.le_window
  induction n, current using reports.induct si target size (fun _ => map) with
  | case1 n current inside none =>
    obtain ⟨i, found⟩ := static.answers current (by unfold maxAddr at inside; omega)
    rw [found] at none
    cases none
  | case4 n current outside => omega
  | case2 n current inside i found stuck =>
    have covers := static.covers found
    rw [static.regionEnd_eq found] at stuck
    omega
  | case3 n current inside i found moves ih =>
    have covers := static.covers found
    rw [reports, if_pos inside]
    simp only [found, if_neg moves, List.mem_cons, exists_eq_or_imp]
    rw [static.regionEnd_eq found] at ih ⊢
    by_cases later : i.baseAddress + i.regionSize ≤ c
    · exact .inr (ih later)
    · left
      obtain ⟨j, at_c, free⟩ := start.free c le_rfl (by omega)
      obtain ⟨j', at_c', same⟩ := static.whole found (show i.baseAddress ≤ c by omega) (by omega)
      obtain rfl : j = j' := Option.some.inj (at_c.symm.trans at_c')
      have free' : i.free = true := same ▸ free
      have inside : c + size ≤ i.baseAddress + i.regionSize := by
        by_contra outside
        obtain ⟨e, at_end, free_end⟩ :=
          start.free (i.baseAddress + i.regionSize) (by omega) (by omega)
        rw [static.maximal found free' at_end] at free_end
        cases free_end
      refine ⟨free', start.aligned, ?_, by omega, ?_, start.window_le, start.le_window⟩
      · have := granularity_pos sound
        have := start.window_le
        unfold minAddr at this
        omega
      · rw [static.regionEnd_eq found]
        exact inside

theorem mem_reports {n current : ℕ} {i : MemoryInfo}
    (mem : i ∈ reports si target size (fun _ => map) n current) : ∃ x, map x = some i := by
  induction n, current using reports.induct si target size (fun _ => map) with
  | case1 n current inside none =>
    rw [reports, if_pos inside] at mem
    simp only [none, List.not_mem_nil] at mem
  | case4 n current outside =>
    rw [reports, if_neg outside] at mem
    cases mem
  | case2 n current inside j found stuck =>
    rw [reports, if_pos inside] at mem
    simp only [found, if_pos stuck, List.mem_singleton] at mem
    exact ⟨current, mem ▸ found⟩
  | case3 n current inside j found moves ih =>
    rw [reports, if_pos inside] at mem
    simp only [found, if_neg moves, List.mem_cons] at mem
    rcases mem with rfl | mem
    · exact ⟨current, found⟩
    · exact ih mem

/-- A start in a region the scan is told of is free. -/
theorem StartIn.freeStart (static : MapSound si map) {i : MemoryInfo} {x c : ℕ}
    (found : map x = some i) (start : StartIn si target size i c) :
    FreeStart si target size map c := by
  refine ⟨start.2.aligned, start.2.window_le, start.2.le_window, fun y low high => ?_⟩
  have fits := start.2.le_region
  rw [static.regionEnd_eq found] at fits
  obtain ⟨j, at_y, same⟩ := static.whole found (start.2.region_le.trans low) (by omega)
  exact ⟨j, at_y, same.trans start.1⟩

end Static

/-- The scan asks at most once for every address of its window. -/
theorem length_reports (si : SystemInfo) (target size : ℕ) (query : ℕ → ℕ → Option MemoryInfo)
    (n current : ℕ) :
    (reports si target size query n current).length ≤ maxAddr si target size - current := by
  induction n, current using reports.induct si target size query with
  | case1 n current inside none =>
    rw [reports, if_pos inside]
    simp [none]
  | case4 n current outside =>
    rw [reports, if_neg outside]
    exact Nat.zero_le _
  | case2 n current inside i found stuck =>
    rw [reports, if_pos inside]
    simp only [found, if_pos stuck, List.length_singleton]
    omega
  | case3 n current inside i found moves ih =>
    rw [reports, if_pos inside]
    simp only [found, if_neg moves, List.length_cons]
    omega

/-- `alloc_nearby`, whatever the OS reports.  The scan ends; what is returned lies in the window,
is not null and is in reach of every `rel32` jump from and to the first bytes of the target;
`nearest_aligned_candidate` finds the closest aligned start of a region if there is one; and if
the allocations at starts succeed, the start returned is the closest one in all the free regions
the scan was told of, and so, on a map that stands still, of all free ones in the window. -/
theorem allocNearby_nearest {si : SystemInfo} (sound : si.Sound) (target size : ℕ)
    (query : ℕ → ℕ → Option MemoryInfo) (virtualAlloc : ℕ → ℕ → Option ℕ) :
    (reports si target size query 0 (minAddr si target size)).length ≤
      maxAddr si target size - minAddr si target size ∧
    (∀ a, allocNearby si target size query virtualAlloc = some a →
      minAddr si target size ≤ a ∧ a + size ≤ maxAddr si target size ∧ a ≠ 0 ∧
      ∀ d b : ℕ, d + 5 ≤ 2 ^ 20 → a ≤ b → b < a + size →
        (-(2 ^ 31) ≤ (b : ℤ) - (target + d) - 5 ∧ (b : ℤ) - (target + d) - 5 < 2 ^ 31) ∧
        -(2 ^ 31) ≤ (target : ℤ) + d - b - 5 ∧ (target : ℤ) + d - b - 5 < 2 ^ 31) ∧
    (∀ regionStart regionEnd lo hi, hi + si.allocationGranularity ≤ 2 ^ 64 →
      ((∃ c, nearestAlignedCandidate regionStart regionEnd target size lo hi
          si.allocationGranularity = some c) ↔
        ∃ c, IsStart regionStart regionEnd size lo hi si.allocationGranularity c) ∧
      ∀ c, nearestAlignedCandidate regionStart regionEnd target size lo hi
          si.allocationGranularity = some c →
        IsStart regionStart regionEnd size lo hi si.allocationGranularity c ∧
        ∀ c', IsStart regionStart regionEnd size lo hi si.allocationGranularity c' →
          absDiff c target ≤ absDiff c' target) ∧
    (0 < size →
      (∀ i ∈ reports si target size query 0 (minAddr si target size),
        ∀ n c, StartIn si target size i c → virtualAlloc n c = some c) →
      (∃ i ∈ reports si target size query 0 (minAddr si target size),
        ∃ c, StartIn si target size i c) →
      ∃ i ∈ reports si target size query 0 (minAddr si target size), ∃ a,
        StartIn si target size i a ∧ allocNearby si target size query virtualAlloc = some a ∧
        ∀ j ∈ reports si target size query 0 (minAddr si target size), ∀ c,
          StartIn si target size j c → absDiff a target ≤ absDiff c target) ∧
    ∀ map, MapSound si map → (query = fun _ => map) → 0 < size →
      (∀ n c, FreeStart si target size map c → virtualAlloc n c = some c) →
      (∃ c, FreeStart si target size map c) →
      ∃ a, FreeStart si target size map a ∧
        allocNearby si target size query virtualAlloc = some a ∧
        ∀ c, FreeStart si target size map c → absDiff a target ≤ absDiff c target := by
  refine ⟨length_reports si target size query 0 _, ?_, ?_, ?_, ?_⟩
  · intro a result
    unfold allocNearby at result
    split_ifs at result with empty
    obtain ⟨low, high⟩ := tryAlloc_window result
    have room := maxAddr_room sound target size
    have step := granularity_pos sound
    have high' : a + size ≤ maxAddr si target size := by
      unfold saturatingAdd usizeMax at high
      omega
    have first : si.allocationGranularity ≤ minAddr si target size := le_max_right _ _
    exact ⟨low, high', by omega, fun d b near inside inside' =>
      rel32_of_window sound (by omega) low high' near inside inside'⟩
  · intro regionStart regionEnd lo hi room
    obtain ⟨k, eq⟩ := sound.granularity
    rw [eq] at room ⊢
    have small : k ≤ 64 := by
      by_contra big
      have := Nat.pow_lt_pow_right (show 1 < 2 by decide) (show 64 < k by omega)
      omega
    have spec := nearestAlignedCandidate_spec regionStart regionEnd target size lo small room
    split at spec
    · rename_i best found
      refine ⟨⟨fun _ => ⟨best, spec.1⟩, fun _ => ⟨best, found⟩⟩, fun c eq => ?_⟩
      obtain rfl : best = c := Option.some.inj (found.symm.trans eq)
      exact spec
    · rename_i missing
      refine ⟨⟨?_, ?_⟩, ?_⟩
      · rintro ⟨c, found⟩
        rw [missing] at found
        cases found
      · rintro ⟨c, start⟩
        exact absurd start (spec c)
      · intro c found
        rw [missing] at found
        cases found
  · intro positive succeeds exists_start
    exact allocNearby_closest sound query virtualAlloc positive succeeds exists_start
  · rintro map static rfl positive succeeds ⟨c, start⟩
    obtain ⟨i, mem, a, start_a, result, closest⟩ := allocNearby_closest sound (fun _ => map)
      virtualAlloc positive (fun i mem n c start => by
        obtain ⟨x, found⟩ := mem_reports mem
        exact succeeds n c (start.freeStart static found))
      (by
        obtain ⟨i, mem, start⟩ := start.reported static sound positive 0 start.window_le
        exact ⟨i, mem, c, start⟩)
    obtain ⟨x, found⟩ := mem_reports mem
    refine ⟨a, start_a.freeStart static found, result, fun c start => ?_⟩
    obtain ⟨j, mem', start'⟩ := start.reported static sound positive 0 start.window_le
    exact closest j mem' c start'

/-- The usual limits of a 64-bit process. -/
def sampleSystem : SystemInfo := ⟨0x10000, 0x10000, 0x7FFFFFFEFFFF⟩

/-- A module in the region at `0x40000`, and nothing else. -/
def sampleMap (x : ℕ) : Option MemoryInfo :=
  if x < 0x40000 then some ⟨0, 0x40000, true⟩
  else if x < 0x50000 then some ⟨0x40000, 0x10000, false⟩
  else if x < 0x7FFFFFFF0000 then some ⟨0x50000, 0x7FFFFFFA0000, true⟩
  else none

theorem sampleSystem_sound : sampleSystem.Sound := ⟨⟨16, rfl⟩, by decide⟩

theorem sampleMap_sound : MapSound sampleSystem sampleMap := by
  refine ⟨?_, ?_, ?_, ?_⟩
  · intro x below
    simp only [sampleSystem] at below
    unfold sampleMap
    split_ifs
    · exact ⟨_, rfl⟩
    · exact ⟨_, rfl⟩
    · exact ⟨_, rfl⟩
    · omega
  · intro x i found
    unfold sampleMap at found
    split_ifs at found <;> obtain rfl := Option.some.inj found <;>
      simp only [usizeMax] <;> omega
  · intro x y i found low high
    unfold sampleMap at found ⊢
    split_ifs at found <;> obtain rfl := Option.some.inj found <;> simp only at low high ⊢
    · exact ⟨_, if_pos (by omega), rfl⟩
    · exact ⟨_, by rw [if_neg (by omega), if_pos (by omega)], rfl⟩
    · exact ⟨_, by rw [if_neg (by omega), if_neg (by omega), if_pos (by omega)], rfl⟩
  · intro x i j found free next
    unfold sampleMap at found
    split_ifs at found <;> obtain rfl := Option.some.inj found
    · rw [Option.some.inj (next.symm.trans (by rfl : _ = some ⟨0x40000, 0x10000, false⟩))]
    · cases free
    · cases next

/-- A trampoline for the module goes at most 64 KiB away from it. -/
theorem sampleMap_nearest :
    ∃ a, allocNearby sampleSystem 0x40000 64 (fun _ => sampleMap) (fun _ c => some c) = some a ∧
      absDiff a 0x40000 ≤ 0x10000 := by
  have start : FreeStart sampleSystem 0x40000 64 sampleMap 0x30000 := by
    refine ⟨by decide, by decide, by decide, fun x low high => ⟨_, if_pos (by omega), rfl⟩⟩
  obtain ⟨a, -, result, closest⟩ := (allocNearby_nearest sampleSystem_sound 0x40000 64
    (fun _ => sampleMap) (fun _ c => some c)).2.2.2.2 sampleMap sampleMap_sound rfl (by decide)
    (fun _ _ _ => rfl) ⟨_, start⟩
  exact ⟨a, result, closest _ start⟩

end TrampolineAlloc

end NeoHook
