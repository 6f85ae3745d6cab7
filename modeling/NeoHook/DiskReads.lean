import NeoHook.Lib.Rewrites
import NeoHook.DiskImage

/-!
# Reading a module file as the loader maps it

The loader maps the sections of a file and then adds the distance from the preferred base to every
relocated word.  `DiskImage.read` returns a window of that memory: the relocations of the file are
sorted, so it only looks at those that can reach into the window, and adds the distance to each word
as the file has it.
-/

namespace NeoHook

open ByteMap

namespace Disk

/-- The number of bytes that a relocation of this kind rewrites. -/
def relocationWidth (kind : ℕ) : ℕ := if kind = imageRelBasedDir64 then 8 else 4

/-- The word of a relocation. -/
def relocatedWord (r : ℕ × ℕ) : Word := (r.1, relocationWidth r.2)

/-! ### What the loader maps -/

namespace DiskImage

variable (image : DiskImage)

/-- The byte of a section at the RVA: past the raw data the section is zero. -/
def sectionByte (s : Section) (rva : ℕ) : UInt8 :=
  if rva - s.virtualAddress < s.rawSize then
    image.bytes.getD (s.rawOffset + (rva - s.virtualAddress)) 0
  else 0

/-- The sections of the file, mapped at their RVAs. -/
def mapped (rva : ℕ) : UInt8 :=
  match image.sectionOf rva with
  | some s => image.sectionByte s rva
  | none => 0

/-- `base - image_base`, as 64-bit words. -/
def delta (base : ℕ) : ℕ := (base + 2 ^ 64 - image.imageBase) % 2 ^ 64

/-- The distance added to a word. -/
def addDelta (delta : ℕ) (word : List UInt8) : List UInt8 :=
  leBytes word.length (ofLeBytes word + delta)

/-- The words that the loader relocates. -/
def relocatedWords : List Word := image.relocations.map relocatedWord

/-- The module as the loader maps it at `base`. -/
def loaded (base : ℕ) : ℕ → UInt8 :=
  rewriteWords (addDelta (image.delta base)) image.mapped image.relocatedWords

/-- A file with sections apart, raw data inside the file, and relocations that are sorted, apart and
each inside one section. -/
structure Tidy : Prop where
  apart : image.sections.Pairwise fun s t => ∀ rva, ¬ (s.spans rva ∧ t.spans rva)
  inFile : ∀ s ∈ image.sections, 0 < s.rawSize → s.rawOffset + s.rawSize ≤ image.bytes.length
  sorted : Ascending image.relocatedWords
  placed : ∀ w ∈ image.relocatedWords, ∃ s ∈ image.sections, s.spans w.1 ∧
    w.1 + w.2 ≤ s.virtualAddress + max s.virtualSize s.rawSize

/-- `read` without its shortcut for the preferred base. -/
def readRelocated (rva len delta : ℕ) : Sliced (List UInt8) := do
  let out ← image.raw rva len
  let first := partitionPoint (fun r : ℕ × ℕ => r.1 + 8 ≤ rva) image.relocations
  let later ← Sliced.slice image.relocations first image.relocations.length
  relocate image rva (rva + out.length) delta later out

end DiskImage

variable {image : DiskImage} {s : Section} {rva len : ℕ}

theorem length_addDelta (delta : ℕ) (word : List UInt8) :
    (DiskImage.addDelta delta word).length = word.length := length_leBytes _ _

theorem addDelta_zero (word : List UInt8) : DiskImage.addDelta 0 word = word := by
  unfold DiskImage.addDelta
  rw [Nat.add_zero, leBytes_ofLeBytes]

/-! ### Sections -/

theorem spans_iff : s.spans rva = true ↔
    s.virtualAddress ≤ rva ∧ rva < s.virtualAddress + max s.virtualSize s.rawSize := by
  unfold Section.spans
  rw [Bool.and_eq_true, decide_eq_true_eq, decide_eq_true_eq]

theorem sectionOf_spans (found : image.sectionOf rva = some s) :
    s ∈ image.sections ∧ s.spans rva = true := by
  unfold DiskImage.sectionOf at found
  exact ⟨List.mem_of_find?_eq_some found,
    @List.find?_some Section (fun s => s.spans rva) s image.sections found⟩

/-- In a list of sections apart, the one that spans the RVA is found. -/
theorem find_section {sections : List Section}
    (apart : sections.Pairwise fun s t => ∀ rva, ¬ (s.spans rva ∧ t.spans rva))
    (there : s ∈ sections) (spans : s.spans rva = true) :
    sections.find? (fun s => s.spans rva) = some s := by
  induction sections with
  | nil => cases there
  | cons t rest ih =>
    rw [List.find?_cons]
    cases here : t.spans rva with
    | false =>
      rcases List.mem_cons.mp there with rfl | later
      · rw [here] at spans
        cases spans
      · exact ih (List.Pairwise.of_cons apart) later
    | true =>
      rcases List.mem_cons.mp there with rfl | later
      · rfl
      · exact absurd ⟨here, spans⟩ (List.rel_of_pairwise_cons apart later rva)

/-- The rest of the section from the RVA on is found in it. -/
theorem sectionOf_add (tidy : image.Tidy) (found : image.sectionOf rva = some s) {i : ℕ}
    (less : i < s.left rva) : image.sectionOf (rva + i) = some s := by
  obtain ⟨there, spans⟩ := sectionOf_spans found
  obtain ⟨low, high⟩ := spans_iff.mp spans
  refine find_section tidy.apart there (spans_iff.mpr ⟨by omega, ?_⟩)
  unfold Section.left at less
  omega

theorem mapped_add (tidy : image.Tidy) (found : image.sectionOf rva = some s) {i : ℕ}
    (less : i < s.left rva) : image.mapped (rva + i) = image.sectionByte s (rva + i) := by
  unfold DiskImage.mapped
  rw [sectionOf_add tidy found less]

/-! ### The file bytes of a window -/

theorem copyFromSlice_eq {out bytes : List UInt8} {copy : ℕ} (fits : copy ≤ out.length)
    (same : bytes.length = copy) :
    (copyFromSlice out copy bytes).run = .ok (some (bytes ++ out.drop copy)) := by
  unfold copyFromSlice
  have part : ((out.drop 0).take (copy - 0)).length = bytes.length := by
    rw [List.length_take, List.length_drop]
    omega
  rw [Sliced.run_bind_of_found (Sliced.run_slice (Nat.zero_le copy) fits), if_pos part]
  rfl

theorem backed (tidy : image.Tidy) (found : image.sectionOf rva = some s) :
    image.Backed rva len := by
  refine ⟨s, found, fun inside => ?_⟩
  have whole := tidy.inFile s (sectionOf_spans found).1 (by omega)
  omega

/-- Copied bytes in front of zeros. -/
theorem zeroFilled_eq {bytes : List UInt8} {start copy n : ℕ} (fits : copy ≤ n)
    (inside : start + copy ≤ bytes.length) :
    (bytes.drop start).take copy ++ (List.replicate n 0).drop copy =
      (List.range n).map fun i => if i < copy then bytes.getD (start + i) 0 else 0 := by
  have length : ((bytes.drop start).take copy).length = copy := by
    rw [List.length_take, List.length_drop]
    omega
  apply List.ext_getElem
  · simp only [List.length_append, length, List.length_drop, List.length_replicate,
      List.length_map, List.length_range]
    omega
  · intro i first second
    rw [List.getElem_map, List.getElem_range]
    by_cases copied : i < copy
    · have there : start + i < bytes.length := by omega
      rw [List.getElem_append_left (by omega), List.getElem_take, List.getElem_drop, if_pos copied,
        List.getD_eq_getElem _ _ there]
    · rw [List.getElem_append_right (by omega), List.getElem_drop, List.getElem_replicate,
        if_neg copied]

/-- The bytes of a window of a section. -/
theorem read_mapped (tidy : image.Tidy) (found : image.sectionOf rva = some s) {n : ℕ}
    (cut : n ≤ s.left rva) :
    read image.mapped rva n = (List.range n).map fun i =>
      if i < s.rawSize - (rva - s.virtualAddress) then
        image.bytes.getD (s.rawOffset + (rva - s.virtualAddress) + i) 0 else 0 := by
  obtain ⟨low, -⟩ := spans_iff.mp (sectionOf_spans found).2
  refine List.map_congr_left fun i there => ?_
  have less := List.mem_range.mp there
  rw [mapped_add tidy found (by omega)]
  unfold DiskImage.sectionByte
  rw [show rva + i - s.virtualAddress = rva - s.virtualAddress + i by omega, Nat.add_assoc]
  refine if_congr ?_ rfl rfl
  omega

/-- `raw` returns the window of the mapped sections, cut at the end of the section. -/
theorem raw_eq (tidy : image.Tidy) (found : image.sectionOf rva = some s) :
    (image.raw rva len).run = .ok (some (read image.mapped rva (min len (s.left rva)))) := by
  rw [read_mapped tidy found (Nat.min_le_right _ _)]
  unfold DiskImage.raw
  rw [Sliced.run_bind_of_found (Sliced.run_ofOption found)]
  change (if _ then _ else _ : Sliced (List UInt8)).run = _
  rw [show min len (max s.virtualSize s.rawSize - (rva - s.virtualAddress)) =
    min len (s.left rva) from rfl]
  generalize min len (s.left rva) = n
  by_cases inside : rva - s.virtualAddress < s.rawSize
  · have whole := tidy.inFile s (sectionOf_spans found).1 (by omega)
    have part : getRange image.bytes (s.rawOffset + (rva - s.virtualAddress))
        (s.rawOffset + (rva - s.virtualAddress) + min n (s.rawSize - (rva - s.virtualAddress))) =
          some ((image.bytes.drop (s.rawOffset + (rva - s.virtualAddress))).take
            (min n (s.rawSize - (rva - s.virtualAddress)))) := by
      refine getRange_eq_some.mpr ⟨Nat.le_add_right _ _, by omega, ?_⟩
      rw [Nat.add_sub_cancel_left]
    rw [if_pos inside, Sliced.run_bind_of_found (Sliced.run_ofOption part), copyFromSlice_eq,
      zeroFilled_eq (Nat.min_le_left _ _) (by omega)]
    · refine congrArg (fun l => Except.ok (some l)) (List.map_congr_left fun i there => ?_)
      have less := List.mem_range.mp there
      exact if_congr (by omega) rfl rfl
    · rw [List.length_replicate]
      exact Nat.min_le_left _ _
    · rw [List.length_take, List.length_drop]
      omega
  · rw [if_neg inside]
    refine congrArg (fun l => Except.ok (some l)) (List.ext_getElem (by simp) fun i first _ => ?_)
    rw [List.getElem_replicate, List.getElem_map, if_neg (by omega)]

/-! ### Relocations -/

variable {delta : ℕ}

/-- A relocation inside one section is found, and adds the distance to the word of the file. -/
theorem patchedBytes_eq (tidy : image.Tidy) {r : ℕ × ℕ}
    (there : relocatedWord r ∈ image.relocatedWords) :
    (patchedBytes image delta r.1 r.2).run =
      .ok (some (some
        (DiskImage.addDelta delta (read image.mapped r.1 (relocationWidth r.2))))) := by
  obtain ⟨s, inside, spans, fits⟩ := tidy.placed _ there
  have found : image.sectionOf r.1 = some s := find_section tidy.apart inside spans
  have whole : relocationWidth r.2 ≤ s.left r.1 := by
    obtain ⟨low, -⟩ := spans_iff.mp spans
    unfold Section.left
    unfold relocatedWord at fits low
    simp only at fits low
    omega
  have raw : (image.raw r.1 (relocationWidth r.2)).attempt.run =
      .ok (some (some (read image.mapped r.1 (relocationWidth r.2)))) := by
    unfold Sliced.attempt
    rw [raw_eq tidy found, Nat.min_eq_left whole]
    rfl
  unfold patchedBytes
  rw [show (if r.2 = imageRelBasedDir64 then 8 else 4) = relocationWidth r.2 from rfl]
  simp only
  rw [Sliced.run_bind_of_found raw]
  simp only [length_read]
  rw [if_neg (Nat.lt_irrefl _),
    Sliced.run_bind_of_found (Sliced.run_slice (Nat.zero_le _) (length_read _ _ _).ge)]
  rw [Nat.sub_zero, List.drop_zero, take_read _ _ le_rfl]
  unfold DiskImage.addDelta
  rw [length_read]
  rfl

/-- The part of a patch that falls into the window is written. -/
theorem applyPatch_eq (m : ℕ → UInt8) (rva n reloc : ℕ) (patched : List UInt8) :
    (applyPatch rva (rva + n) reloc patched (read m rva n)).run =
      .ok (some (read (write m reloc patched) rva n)) := by
  have loop : ∀ (bs : List UInt8) (k : ℕ) (m : ℕ → UInt8),
      ((bs.zipIdx k).foldlM
        (fun out byte =>
          if rva ≤ reloc + byte.2 ∧ reloc + byte.2 < rva + n then
            Sliced.assign out (reloc + byte.2 - rva) byte.1
          else return out) (read m rva n) : Sliced (List UInt8)).run =
        .ok (some (read (write m (reloc + k) bs) rva n)) := by
    intro bs
    induction bs with
    | nil =>
      intro k m
      rw [write_nil]
      rfl
    | cons b rest ih =>
      intro k m
      have one : write m (reloc + k) (b :: rest) =
          write (write m (reloc + k) [b]) (reloc + (k + 1)) rest :=
        write_append m (reloc + k) [b] rest
      have turn : (if rva ≤ reloc + k ∧ reloc + k < rva + n then
          Sliced.assign (read m rva n) (reloc + k - rva) b
        else return read m rva n : Sliced (List UInt8)).run =
          .ok (some (read (write m (reloc + k) [b]) rva n)) := by
        split_ifs with inside
        · unfold Sliced.assign
          rw [length_read, if_pos (by omega), set_read m inside]
          rfl
        · rw [read_write_apart]
          · rfl
          · rw [List.length_singleton]
            unfold Apart
            omega
      rw [List.zipIdx_cons, List.foldlM_cons, Sliced.run_bind_of_found turn, ih, one]
  exact loop patched 0 m

/-- The loop over sorted relocations rewrites the words of the window, when it finds them as the
file has them. -/
theorem relocate_eq (tidy : image.Tidy) {rva n : ℕ} (relocations : List (ℕ × ℕ)) {m : ℕ → UInt8}
    (there : ∀ r ∈ relocations, relocatedWord r ∈ image.relocatedWords)
    (sorted : Ascending (relocations.map relocatedWord))
    (fresh : ∀ w ∈ relocations.map relocatedWord, read m w.1 w.2 = read image.mapped w.1 w.2) :
    (relocate image rva (rva + n) delta relocations (read m rva n)).run =
      .ok (some (read (rewriteWords (DiskImage.addDelta delta) m (relocations.map relocatedWord))
        rva n)) := by
  induction relocations generalizing m with
  | nil => rfl
  | cons r rest ih =>
    obtain ⟨reloc, kind⟩ := r
    rw [relocate]
    by_cases behind : rva + n ≤ reloc
    · have untouched : read (rewriteWords (DiskImage.addDelta delta) m
          (((reloc, kind) :: rest).map relocatedWord)) rva n = read m rva n := by
        refine read_rewriteWords_apart (length_addDelta delta) fun w listed => .inr ?_
        rcases List.mem_cons.mp listed with rfl | later
        · exact behind
        · have order := List.rel_of_pairwise_cons sorted later
          unfold relocatedWord at order
          simp only at order
          omega
      rw [if_pos behind, untouched]
      rfl
    · have patch := @patchedBytes_eq image delta tidy (reloc, kind) (there _ List.mem_cons_self)
      have word : write m reloc (DiskImage.addDelta delta
          (read image.mapped reloc (relocationWidth kind))) =
            rewriteWord (DiskImage.addDelta delta) m (relocatedWord (reloc, kind)) := by
        unfold rewriteWord
        rw [fresh _ List.mem_cons_self]
        rfl
      rw [if_neg behind, Sliced.run_bind_of_found patch]
      simp only
      rw [Sliced.run_bind_of_found (applyPatch_eq m rva n reloc _), word]
      refine ih (fun r later => there r (List.mem_cons_of_mem _ later))
        (List.Pairwise.of_cons sorted) fun w later => ?_
      rw [read_rewriteWord_behind (length_addDelta delta) sorted later]
      exact fresh w (List.mem_cons_of_mem _ later)

/-- The general path of `read` returns the window of the loaded module. -/
theorem readRelocated_eq (tidy : image.Tidy) (found : image.sectionOf rva = some s) :
    (image.readRelocated rva len delta).run =
      .ok (some (read (rewriteWords (DiskImage.addDelta delta) image.mapped image.relocatedWords)
        rva (min len (s.left rva)))) := by
  let before := image.relocations.takeWhile fun r => decide (r.1 + 8 ≤ rva)
  let later := image.relocations.dropWhile fun r => decide (r.1 + 8 ≤ rva)
  have whole : before ++ later = image.relocations := List.takeWhile_append_dropWhile
  have rest : image.relocations.drop before.length = later := by
    rw [← whole, List.drop_left]
  have words : image.relocatedWords = before.map relocatedWord ++ later.map relocatedWord := by
    rw [← List.map_append, whole]
    rfl
  have sorted := tidy.sorted
  rw [words] at sorted
  obtain ⟨-, ascending, order⟩ := List.pairwise_append.mp sorted
  -- the words that are skipped end before the window
  have skipped : read (rewriteWords (DiskImage.addDelta delta) image.mapped
      (before.map relocatedWord)) rva (min len (s.left rva)) =
        read image.mapped rva (min len (s.left rva)) := by
    refine read_rewriteWords_apart (length_addDelta delta) fun w listed => .inl ?_
    obtain ⟨r, there, rfl⟩ := List.mem_map.mp listed
    have ends : r.1 + 8 ≤ rva := by
      have holds := @List.mem_takeWhile_imp _ (fun r : ℕ × ℕ => decide (r.1 + 8 ≤ rva)) _ _ there
      exact of_decide_eq_true holds
    have width : relocationWidth r.2 ≤ 8 := by
      unfold relocationWidth
      split_ifs <;> omega
    unfold relocatedWord
    simp only
    omega
  have result := @relocate_eq image delta tidy rva (min len (s.left rva)) later
    (rewriteWords (DiskImage.addDelta delta) image.mapped (before.map relocatedWord))
    (fun r there => List.mem_map_of_mem (by rw [← whole]; exact List.mem_append_right _ there))
    ascending
    (fun w there => read_rewriteWords_apart (length_addDelta delta) fun v front =>
      .inl (order v front w there))
  rw [skipped, ← rewriteWords_append, ← words] at result
  unfold DiskImage.readRelocated
  rw [Sliced.run_bind_of_found (raw_eq tidy found)]
  simp only [length_read]
  have slice := @Sliced.run_slice _ image.relocations before.length image.relocations.length
    (List.takeWhile_sublist _).length_le le_rfl
  rw [rest, List.take_of_length_le (by rw [← rest, List.length_drop])] at slice
  change (Sliced.slice image.relocations before.length image.relocations.length >>= _).run = _
  rw [Sliced.run_bind_of_found slice]
  exact result

/-- `read` is its general path: at the preferred base no word changes. -/
theorem read_eq (tidy : image.Tidy) (found : image.sectionOf rva = some s) (base : ℕ) :
    (image.read rva len base).run = (image.readRelocated rva len (image.delta base)).run := by
  have raw := @raw_eq image s rva len tidy found
  unfold DiskImage.read
  rw [Sliced.run_bind_of_found raw]
  change (if image.delta base = 0 then _ else _ : Sliced (List UInt8)).run = _
  split_ifs with preferred
  · rw [readRelocated_eq tidy found, preferred, rewriteWords_self addDelta_zero]
    rfl
  · unfold DiskImage.readRelocated
    rw [Sliced.run_bind_of_found raw]
    rfl

/-- In a tidy file `read` returns the window of the loaded module, cut at the end of the section; a
smaller window is that part of it, and at the preferred base it is what the file has. -/
theorem reads_loaded (tidy : image.Tidy) (found : image.sectionOf rva = some s) (base : ℕ) :
    (image.read rva len base).run =
        .ok (some (read (image.loaded base) rva (min len (s.left rva)))) ∧
      (∀ i n, i < s.left rva → i + n ≤ len → ∃ out,
        (image.read rva len base).run = .ok (some out) ∧
          (image.read (rva + i) n base).run = .ok (some ((out.drop i).take n))) ∧
      (image.readRelocated rva len 0).run = (image.raw rva len).run := by
  have whole : ∀ {rva len}, image.sectionOf rva = some s → (image.read rva len base).run =
      .ok (some (read (image.loaded base) rva (min len (s.left rva)))) := by
    intro rva len found
    rw [read_eq tidy found, readRelocated_eq tidy found]
    rfl
  refine ⟨whole found, fun i n less fits => ⟨_, whole found, ?_⟩, ?_⟩
  · obtain ⟨low, -⟩ := spans_iff.mp (sectionOf_spans found).2
    have left : s.left (rva + i) = s.left rva - i := by
      unfold Section.left
      omega
    rw [whole (sectionOf_add tidy found less), drop_read, left, take_read_min,
      show min n (min len (s.left rva) - i) = min n (s.left rva - i) by omega]
  · rw [readRelocated_eq tidy found, rewriteWords_self addDelta_zero, raw_eq tidy found]

/-- A file whose second relocated word reaches past the raw data of its section. -/
def smallImage : DiskImage :=
  { bytes := [0xA1, 0x45, 0x23, 0x01, 0x00, 0xC3, 0x00, 0x10, 0x01, 0x00],
    sections := [⟨0x1000, 16, 0, 10, true⟩, ⟨0x2000, 4, 0, 0, false⟩],
    imageBase := 0x10000,
    relocations := [(0x1001, imageRelBasedHighlow), (0x1006, imageRelBasedDir64)],
    exportFunctions := none }

theorem smallImage_tidy : smallImage.Tidy := by
  refine ⟨?_, by decide, by unfold Ascending; decide, by decide⟩
  refine List.pairwise_pair.mpr fun rva both => ?_
  have first := (spans_iff.mp both.1).2
  have second := (spans_iff.mp both.2).1
  simp only at first second
  omega

theorem smallImage_reads :
    (smallImage.read 0x1003 6 0x30000).run =
        .ok (some (read (smallImage.loaded 0x30000) 0x1003 6)) ∧
      (∀ i n, i < 13 → i + n ≤ 6 → ∃ out, (smallImage.read 0x1003 6 0x30000).run = .ok (some out) ∧
        (smallImage.read (0x1003 + i) n 0x30000).run = .ok (some ((out.drop i).take n))) ∧
      (smallImage.readRelocated 0x1003 6 0).run = (smallImage.raw 0x1003 6).run :=
  @reads_loaded smallImage ⟨0x1000, 16, 0, 10, true⟩ 0x1003 6 smallImage_tidy (by decide) 0x30000

end Disk

end NeoHook
