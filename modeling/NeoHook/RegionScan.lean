import NeoHook.Basic
import NeoHook.Signatures

/-!
# Scanning the process memory

`scan_committed` of `scan.rs`: a range is walked region by region, as `VirtualQuery` reports them,
and each committed region that may be read is scanned for a signature.  The walk ends whatever
`VirtualQuery` answers.

A `Layout` is a partition of the user address space into regions.  Over it the matches found are
the places of the range at which the signature lies in one region that qualifies, in ascending
order; a range that reaches the end of the address space is refused.
-/

namespace NeoHook

def memCommit : UInt32 := 0x1000

def pageNoaccess : UInt32 := 0x01

def pageGuard : UInt32 := 0x100

/-- `EXECUTABLE_FLAGS`. -/
def executableFlags : UInt32 := 0x10 ||| 0x20 ||| 0x40 ||| 0x80

namespace RegionScan

/-- The part of `MEMORY_BASIC_INFORMATION` the scan reads. -/
structure Information where
  baseAddress : ℕ
  regionSize : ℕ
  state : UInt32
  protect : UInt32
  deriving DecidableEq

/-- The region with this state and protection is scanned. -/
def scanned (executableOnly : Bool) (state protect : UInt32) : Bool :=
  let committed := state == memCommit
  let blocked := protect &&& (pageNoaccess ||| pageGuard) != 0
  let execOk := !executableOnly || protect &&& executableFlags != 0
  committed && !blocked && execOk

/-- `from_raw_parts`. -/
def slice (mem : ℕ → UInt8) (start len : ℕ) : List UInt8 :=
  (List.range len).map fun i => mem (start + i)

section Walk

variable (query : ℕ → Option Information) (mem : ℕ → UInt8) (p : Pattern)
  (executableOnly firstOnly : Bool)

/-- The matches in the part of a region that lies in the range. -/
def window (scanStart scanEnd : ℕ) : List ℕ :=
  if scanStart < scanEnd ∧ p.len ≤ scanEnd - scanStart then
    if firstOnly then
      ((scan (slice mem scanStart (scanEnd - scanStart)) p).map (scanStart + ·)).toList
    else (scanAll (slice mem scanStart (scanEnd - scanStart)) p).map (scanStart + ·)
  else []

/-- The matches of one region, seen from `cursor`. -/
def regionMatches (rangeEnd cursor : ℕ) (mbi : Information) : List ℕ :=
  if scanned executableOnly mbi.state mbi.protect then
    window mem p firstOnly (max cursor mbi.baseAddress)
      (min (mbi.baseAddress + mbi.regionSize) rangeEnd)
  else []

/-- The loop of `scan_committed`. -/
def walk (rangeEnd cursor : ℕ) (results : List ℕ) : List ℕ :=
  if cursor < rangeEnd then
    match query cursor with
    | none => results
    | some mbi =>
      if 2 ^ 64 ≤ mbi.baseAddress + mbi.regionSize then results
      else
        let found := regionMatches mem p executableOnly firstOnly rangeEnd cursor mbi
        if firstOnly ∧ found ≠ [] then results ++ found
        else if mbi.baseAddress + mbi.regionSize ≤ cursor then results ++ found
        else walk rangeEnd (mbi.baseAddress + mbi.regionSize) (results ++ found)
  else results
termination_by rangeEnd - cursor

def scanCommitted (start len : ℕ) : List ℕ :=
  if p.len = 0 ∨ len < p.len then []
  else if 2 ^ 64 ≤ start + len then []
  else walk query mem p executableOnly firstOnly (start + len) start []

end Walk

/-! ### Layouts of the address space -/

/-- A run of pages with one state and protection. -/
structure Run where
  base : ℕ
  stop : ℕ
  state : UInt32
  protect : UInt32
  deriving DecidableEq

/-- The addresses of the process below `limit`, each in one run of pages. -/
structure Layout where
  limit : ℕ
  run : ℕ → Run
  limit_lt : limit < 2 ^ 64
  covers : ∀ a < limit, (run a).base ≤ a ∧ a < (run a).stop
  below : ∀ a < limit, (run a).stop ≤ limit
  same : ∀ a < limit, ∀ b, (run a).base ≤ b → b < (run a).stop → run b = run a

/-- `VirtualQuery`: the run of an address, from the page of the address on. -/
def Layout.query (L : Layout) (a : ℕ) : Option Information :=
  if a < L.limit then
    some ⟨a / pageSize * pageSize, (L.run a).stop - a / pageSize * pageSize,
      (L.run a).state, (L.run a).protect⟩
  else none

/-- The signature occurs at `a`, inside the range and inside one run that is scanned. -/
structure Occurs (L : Layout) (mem : ℕ → UInt8) (p : Pattern) (executableOnly : Bool)
    (start rangeEnd a : ℕ) : Prop where
  start_le : start ≤ a
  le_end : a + p.len ≤ rangeEnd
  inside : ∃ b < L.limit, (L.run b).base ≤ a ∧ a + p.len ≤ (L.run b).stop ∧
    scanned executableOnly (L.run b).state (L.run b).protect
  fixed : ∀ j b, p.positions[j]? = some (some b) → mem (a + j) = b

section Matches

variable {L : Layout} {mem : ℕ → UInt8} {p : Pattern} {executableOnly : Bool}

theorem mem_slice_scanAll {start len offset : ℕ} :
    offset ∈ scanAll (slice mem start len) p ↔
      offset + p.len ≤ len ∧ ∀ j b, p.positions[j]? = some (some b) →
        mem (start + offset + j) = b := by
  have length : (slice mem start len).length = len := by simp [slice]
  rw [Pattern.mem_scanAll, length]
  refine and_congr_right fun fits => ?_
  unfold Pattern.Fits
  refine forall₂_congr fun j b => ?_
  refine imp_congr_right fun fixed => ?_
  have small : j < p.len := by
    rw [← Pattern.positions_length]
    exact (List.getElem?_eq_some_iff.mp fixed).1
  have inside : offset + j < len := by omega
  simp [slice, inside, Nat.add_assoc]

/-- The matches of a window. -/
theorem mem_window {scanStart scanEnd a : ℕ} :
    a ∈ window mem p false scanStart scanEnd ↔
      scanStart ≤ a ∧ a + p.len ≤ scanEnd ∧
        ∀ j b, p.positions[j]? = some (some b) → mem (a + j) = b := by
  have positive := p.len_pos
  simp only [window, Bool.false_eq_true, if_false]
  split_ifs with wide
  · simp only [List.mem_map, mem_slice_scanAll]
    constructor
    · rintro ⟨offset, ⟨fits, fixed⟩, rfl⟩
      exact ⟨by omega, by omega, fixed⟩
    · rintro ⟨low, high, fixed⟩
      refine ⟨a - scanStart, ⟨by omega, ?_⟩, by omega⟩
      have place : scanStart + (a - scanStart) = a := by omega
      rw [place]
      exact fixed
  · simp only [List.not_mem_nil, false_iff, not_and]
    intro low high
    omega

theorem window_ascending {scanStart scanEnd : ℕ} :
    (window mem p false scanStart scanEnd).Pairwise (· < ·) := by
  simp only [window, Bool.false_eq_true, if_false]
  split_ifs
  · rw [List.pairwise_map]
    exact (Pattern.scanAll_ascending _ _).imp fun less => by omega
  · exact List.Pairwise.nil

/-- The first match of a window. -/
theorem window_first {scanStart scanEnd : ℕ} :
    window mem p true scanStart scanEnd = (window mem p false scanStart scanEnd).take 1 := by
  simp only [window, Bool.false_eq_true, if_false, if_true]
  split_ifs
  · rw [Pattern.scan_eq_head]
    cases scanAll (slice mem scanStart (scanEnd - scanStart)) p <;> rfl
  · rfl

theorem regionMatches_first (rangeEnd cursor : ℕ) (mbi : Information) :
    regionMatches mem p executableOnly true rangeEnd cursor mbi =
      (regionMatches mem p executableOnly false rangeEnd cursor mbi).take 1 := by
  unfold regionMatches
  split_ifs
  · exact window_first
  · rfl

/-- The walk only adds to its results. -/
theorem walk_append (query : ℕ → Option Information) (firstOnly : Bool) (rangeEnd cursor : ℕ)
    (results : List ℕ) :
    walk query mem p executableOnly firstOnly rangeEnd cursor results =
      results ++ walk query mem p executableOnly firstOnly rangeEnd cursor [] := by
  induction distance : rangeEnd - cursor using Nat.strong_induction_on generalizing cursor results
    with
  | _ n ih =>
    rw [walk, walk.eq_def query mem p executableOnly firstOnly rangeEnd cursor []]
    split_ifs with more
    · cases query cursor with
      | none => simp
      | some mbi =>
        simp only
        split_ifs with overflow first stuck
        · simp
        · simp
        · simp
        · have less : rangeEnd - (mbi.baseAddress + mbi.regionSize) < n := by omega
          rw [ih _ less _ _ rfl, ih _ less _ ([] ++ _) rfl]
          simp
    · simp

/-- The first-only walk returns the head of what the whole walk returns. -/
theorem walk_first (query : ℕ → Option Information) (rangeEnd cursor : ℕ) :
    walk query mem p executableOnly true rangeEnd cursor [] =
      (walk query mem p executableOnly false rangeEnd cursor []).take 1 := by
  induction distance : rangeEnd - cursor using Nat.strong_induction_on generalizing cursor with
  | _ n ih =>
    rw [walk, walk.eq_def query mem p executableOnly false rangeEnd cursor []]
    split_ifs with more
    · cases query cursor with
      | none => rfl
      | some mbi =>
        simp only [regionMatches_first, List.nil_append, false_and, if_false, true_and]
        cases regionMatches mem p executableOnly false rangeEnd cursor mbi with
        | nil =>
          simp only [List.take_nil, ne_eq, not_true_eq_false, if_false]
          split_ifs with overflow stuck
          · rfl
          · rfl
          · exact ih _ (by omega) _ rfl
        | cons a found =>
          have some : (List.take 1 (a :: found)) ≠ [] := by simp
          simp only [some, ne_eq, not_false_eq_true, if_true]
          split_ifs with overflow stuck
          · rfl
          · rfl
          · rw [walk_append]
            rfl
    · rfl

/-- What `VirtualQuery` says at an address of a layout. -/
theorem Layout.query_eq_some {a : ℕ} {mbi : Information} (answer : L.query a = some mbi) :
    a < L.limit ∧ mbi.baseAddress ≤ a ∧ mbi.baseAddress + mbi.regionSize = (L.run a).stop ∧
      mbi.state = (L.run a).state ∧ mbi.protect = (L.run a).protect := by
  unfold Layout.query at answer
  split_ifs at answer with inside
  cases answer
  have page : a / pageSize * pageSize ≤ a := Nat.div_mul_le_self a pageSize
  have := (L.covers a inside).2
  refine ⟨inside, page, ?_, rfl, rfl⟩
  show a / pageSize * pageSize + ((L.run a).stop - a / pageSize * pageSize) = _
  omega

theorem Layout.query_eq_none {a : ℕ} (answer : L.query a = none) : L.limit ≤ a := by
  unfold Layout.query at answer
  split_ifs at answer with inside
  omega

/-- The matches of one region are the occurrences from the cursor to its end. -/
theorem mem_regionMatches {rangeEnd cursor a : ℕ} {mbi : Information}
    (answer : L.query cursor = some mbi) :
    a ∈ regionMatches mem p executableOnly false rangeEnd cursor mbi ↔
      Occurs L mem p executableOnly cursor rangeEnd a ∧ a < (L.run cursor).stop := by
  obtain ⟨inside, base, stop, state, protect⟩ := L.query_eq_some answer
  have positive := p.len_pos
  have covers := L.covers cursor inside
  unfold regionMatches
  rw [state, protect, stop, max_eq_left base]
  constructor
  · intro found
    split_ifs at found with allowed
    · obtain ⟨low, high, fixed⟩ := mem_window.mp found
      have within : a + p.len ≤ (L.run cursor).stop := high.trans (min_le_left _ _)
      refine ⟨⟨low, high.trans (min_le_right _ _), ⟨cursor, inside, ?_, within, allowed⟩, fixed⟩, ?_⟩
      · omega
      · omega
    · cases found
  · rintro ⟨⟨low, high, ⟨b, below, first, last, allowed⟩, fixed⟩, before⟩
    have same : L.run cursor = L.run b := by
      have here : L.run a = L.run cursor := L.same cursor inside a (by omega) before
      rw [← here]
      exact L.same b below a first (by omega)
    rw [← same] at last allowed
    rw [if_pos allowed]
    exact mem_window.mpr ⟨low, le_min last high, fixed⟩

/-- What the walk finds from the cursor on. -/
theorem mem_walk (rangeEnd cursor a : ℕ) :
    a ∈ walk L.query mem p executableOnly false rangeEnd cursor [] ↔
      Occurs L mem p executableOnly cursor rangeEnd a := by
  induction distance : rangeEnd - cursor using Nat.strong_induction_on generalizing cursor with
  | _ n ih =>
    have positive := p.len_pos
    rw [walk]
    split_ifs with more
    · cases answer : L.query cursor with
      | none =>
        simp only [List.not_mem_nil, false_iff]
        rintro ⟨low, _, ⟨b, below, _, last, _⟩, _⟩
        have := L.query_eq_none answer
        have := L.below b below
        omega
      | some mbi =>
        obtain ⟨inside, base, stop, _, _⟩ := L.query_eq_some answer
        have covers := L.covers cursor inside
        have fits : ¬ 2 ^ 64 ≤ (L.run cursor).stop := by
          have := L.below cursor inside
          have := L.limit_lt
          omega
        have onward : ¬ (L.run cursor).stop ≤ cursor := by omega
        simp only [stop, fits, onward, false_and, if_false, List.nil_append]
        rw [walk_append, List.mem_append, mem_regionMatches answer, ih _ (by omega) _ rfl]
        constructor
        · rintro (⟨occurs, _⟩ | ⟨low, high, within, fixed⟩)
          · exact occurs
          · exact ⟨by omega, high, within, fixed⟩
        · rintro ⟨low, high, within, fixed⟩
          by_cases before : a < (L.run cursor).stop
          · exact .inl ⟨⟨low, high, within, fixed⟩, before⟩
          · exact .inr ⟨by omega, high, within, fixed⟩
    · simp only [List.not_mem_nil, false_iff]
      rintro ⟨low, high, _, _⟩
      omega

theorem walk_ascending (rangeEnd cursor : ℕ) :
    (walk L.query mem p executableOnly false rangeEnd cursor []).Pairwise (· < ·) := by
  induction distance : rangeEnd - cursor using Nat.strong_induction_on generalizing cursor with
  | _ n ih =>
    rw [walk]
    split_ifs with more
    · cases answer : L.query cursor with
      | none => exact List.Pairwise.nil
      | some mbi =>
        obtain ⟨inside, base, stop, _, _⟩ := L.query_eq_some answer
        have covers := L.covers cursor inside
        have region :
            (regionMatches mem p executableOnly false rangeEnd cursor mbi).Pairwise (· < ·) := by
          unfold regionMatches
          split_ifs
          · exact window_ascending
          · exact List.Pairwise.nil
        simp only [stop, false_and, if_false, List.nil_append]
        split_ifs
        · exact List.Pairwise.nil
        · exact region
        · rw [walk_append, List.pairwise_append]
          refine ⟨region, ih _ (by omega) _ rfl, fun a early b late => ?_⟩
          have := ((mem_regionMatches answer).mp early).2
          have := ((mem_walk _ _ _).mp late).start_le
          omega
    · exact List.Pairwise.nil

theorem walk_congr {q : Pattern} (same : p.positions = q.positions) (query : ℕ → Option Information)
    (firstOnly : Bool) :
    walk query mem p executableOnly firstOnly = walk query mem q executableOnly firstOnly := by
  have region : regionMatches mem p executableOnly firstOnly =
      regionMatches mem q executableOnly firstOnly := by
    funext rangeEnd cursor mbi
    unfold regionMatches window
    simp only [Pattern.len_congr same, Pattern.scan_congr same, Pattern.scanAll_congr same]
  funext rangeEnd cursor results
  induction distance : rangeEnd - cursor using Nat.strong_induction_on generalizing cursor results
    with
  | _ n ih =>
    rw [walk, walk.eq_def query mem q, region]
    split_ifs with more
    · cases query cursor with
      | none => rfl
      | some mbi =>
        simp only
        split_ifs
        · rfl
        · rfl
        · rfl
        · exact ih _ (by omega) _ _ rfl
    · rfl

end Matches

/-- The matches of a range whose end is an address are the occurrences of the signature in it, in
ascending order, and any other range has none; the first-only path returns the first of them; and a
pattern gives the same matches in either dialect. -/
theorem scanCommitted_spec (L : Layout) (mem : ℕ → UInt8) (start len : ℕ) (p : Pattern)
    (executableOnly : Bool) :
    (start + len < 2 ^ 64 →
      (scanCommitted L.query mem p executableOnly false start len).Pairwise (· < ·) ∧
      ∀ a, a ∈ scanCommitted L.query mem p executableOnly false start len ↔
        Occurs L mem p executableOnly start (start + len) a) ∧
    (2 ^ 64 ≤ start + len → scanCommitted L.query mem p executableOnly false start len = []) ∧
    scanCommitted L.query mem p executableOnly true start len =
      (scanCommitted L.query mem p executableOnly false start len).take 1 ∧
    ∀ pattern mask signature, Pattern.fromCodeStyle pattern mask = .ok p →
      Pattern.Equivalent pattern mask signature →
      ∃ q, Pattern.parse signature = .ok q ∧
        (∀ haystack, scan haystack q = scan haystack p ∧ scanAll haystack q = scanAll haystack p) ∧
        ∀ firstOnly, scanCommitted L.query mem q executableOnly firstOnly start len =
          scanCommitted L.query mem p executableOnly firstOnly start len := by
  refine ⟨fun fits => ?_, fun past => ?_, ?_, fun pattern mask signature built equivalent => ?_⟩
  · unfold scanCommitted
    split_ifs with short overflow
    · refine ⟨List.Pairwise.nil, fun a => ?_⟩
      simp only [List.not_mem_nil, false_iff]
      rintro ⟨low, high, _, _⟩
      have := p.len_pos
      omega
    · omega
    · exact ⟨walk_ascending _ _, mem_walk _ _⟩
  · unfold scanCommitted
    split_ifs
    · rfl
    · rfl
  · unfold scanCommitted
    split_ifs
    · rfl
    · rfl
    · exact walk_first _ _ _
  · obtain ⟨q, parsed, same⟩ := Pattern.parse_equivalent built equivalent
    refine ⟨q, parsed, fun haystack => ?_, fun firstOnly => ?_⟩
    · exact ⟨Pattern.scan_congr same haystack, Pattern.scanAll_congr same haystack⟩
    · unfold scanCommitted
      rw [Pattern.len_congr same, walk_congr same]

/-- One committed page at `0x10000` and free memory around it. -/
def Layout.onePage : Layout where
  limit := 0x7FFE0000
  run a :=
    if a < 0x10000 then ⟨0, 0x10000, 0x10000, 0x01⟩
    else if a < 0x11000 then ⟨0x10000, 0x11000, memCommit, 0x02⟩
    else ⟨0x11000, 0x7FFE0000, 0x10000, 0x01⟩
  limit_lt := by norm_num
  covers a inside := by
    split_ifs <;> constructor <;> simp only <;> omega
  below a inside := by
    split_ifs <;> norm_num
  same a inside b low high := by
    split_ifs at low high ⊢ <;> first | rfl | (simp only at low high; omega)

/-- One fixed byte. -/
def nop : Pattern := ⟨[0x90], [true], rfl, by simp⟩

theorem occurs_onePage {start rangeEnd : ℕ} (low : start ≤ 0x10000) (high : 0x10001 ≤ rangeEnd) :
    Occurs Layout.onePage (fun _ => 0x90) nop false start rangeEnd 0x10000 where
  start_le := low
  le_end := high
  inside := ⟨0x10000, by decide, by decide, by decide, by decide⟩
  fixed := by
    intro j b found
    match j with
    | 0 => simpa [nop, Pattern.positions] using found
    | j + 1 => simp [nop, Pattern.positions] at found

/-- A page of code at `0x10000` with a page of data behind it. -/
def Layout.twoPages : Layout where
  limit := 0x7FFE0000
  run a :=
    if a < 0x10000 then ⟨0, 0x10000, 0x10000, 0x01⟩
    else if a < 0x11000 then ⟨0x10000, 0x11000, memCommit, 0x20⟩
    else if a < 0x12000 then ⟨0x11000, 0x12000, memCommit, 0x04⟩
    else ⟨0x12000, 0x7FFE0000, 0x10000, 0x01⟩
  limit_lt := by norm_num
  covers a inside := by
    split_ifs <;> constructor <;> simp only <;> omega
  below a inside := by
    split_ifs <;> norm_num
  same a inside b low high := by
    split_ifs at low high ⊢ <;> first | rfl | (simp only at low high; omega)

/-- A byte between two fixed ones. -/
def gapped : Pattern := ⟨[0x90, 0, 0x90], [true, false, true], rfl, by simp⟩

/-- A different byte stands before the last one of the code page. -/
def oddByte (a : ℕ) : UInt8 := if a = 0x10FFE then 0x41 else 0x90

theorem fixed_gapped {a : ℕ} (first : a ≠ 0x10FFE) (last : a + 2 ≠ 0x10FFE) :
    ∀ j b, gapped.positions[j]? = some (some b) → oddByte (a + j) = b := by
  intro j b found
  match j with
  | 0 => simpa [gapped, Pattern.positions, oddByte, first] using found
  | 1 => simp [gapped, Pattern.positions] at found
  | 2 => simpa [gapped, Pattern.positions, oddByte, last] using found
  | j + 3 => simp [gapped, Pattern.positions] at found

/-- The gap may be anything, and nothing is found across the end of a page. -/
theorem scanCommitted_twoPages :
    let found := scanCommitted Layout.twoPages.query oddByte gapped false false 0x10000 0x2000
    0x10FFD ∈ found ∧ 0x10FFF ∉ found ∧ 0x11000 ∈ found ∧
      ∃ q, Pattern.parse "90 ?? 90" = .ok q ∧ ∀ haystack,
        scan haystack q = scan haystack gapped ∧ scanAll haystack q = scanAll haystack gapped := by
  obtain ⟨matches_, _, _, dialects⟩ :=
    scanCommitted_spec Layout.twoPages oddByte 0x10000 0x2000 gapped false
  have occurrences := (matches_ (by norm_num)).2
  refine ⟨?_, fun mem => ?_, ?_, ?_⟩
  · refine (occurrences 0x10FFD).mpr ⟨by norm_num, by decide, ?_, fixed_gapped (by decide) (by decide)⟩
    exact ⟨0x10000, by decide, by decide, by decide, by decide⟩
  · obtain ⟨b, _, low, high, _⟩ := ((occurrences 0x10FFF).mp mem).inside
    have width : gapped.len = 3 := rfl
    simp only [Layout.twoPages] at low high
    split_ifs at low high <;> simp only [width] at low high <;> omega
  · refine (occurrences 0x11000).mpr ⟨by norm_num, by decide, ?_, fixed_gapped (by decide) (by decide)⟩
    exact ⟨0x11000, by decide, by decide, by decide, by decide⟩
  · have spelled : Pattern.Equivalent [0x90, 0, 0x90] "x?x" "90 ?? 90" := by
      have tokens : Pattern.splitWhitespace "90 ?? 90" = [['9', '0'], ['?', '?'], ['9', '0']] := by
        decide
      unfold Pattern.Equivalent
      rw [tokens]
      have fixed : Pattern.Spells (0x90, 'x') ['9', '0'] := ⟨by decide, by decide⟩
      exact .cons fixed (.cons (Or.inr rfl) (.cons fixed .nil))
    obtain ⟨q, parsed, same, _⟩ := dialects [0x90, 0, 0x90] "x?x" "90 ?? 90" (by decide) spelled
    exact ⟨q, parsed, same⟩

/-- A range up to the end of the address space is refused, whatever lies in it. -/
theorem scanCommitted_whole_space :
    ¬ ∀ a, a ∈ scanCommitted Layout.onePage.query (fun _ => 0x90) nop false false 0x10000
        (2 ^ 64 - 0x10000) ↔
      Occurs Layout.onePage (fun _ => 0x90) nop false 0x10000 (0x10000 + (2 ^ 64 - 0x10000)) a := by
  intro same
  have found := (same 0x10000).mpr (occurs_onePage (by norm_num) (by norm_num))
  have overflow : 2 ^ 64 ≤ 0x10000 + (2 ^ 64 - 0x10000) := by norm_num
  simp only [scanCommitted, overflow, if_true, ite_self, List.not_mem_nil] at found

end RegionScan

end NeoHook
