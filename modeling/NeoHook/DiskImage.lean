import NeoHook.Lib.ByteMap
import NeoHook.Lib.Sliced

/-!
# Module files

`DiskImage` of `detect.rs`: the file of a module, parsed to compare it with the module in memory.
The bytes come from a file, so nothing about them is given.  `raw` cuts what it returns at the end
of the section; callers that index its result at fixed places have to cope with short results.
-/

namespace NeoHook

open ByteMap

namespace Disk

/-- `bytes.get(i..j)`. -/
def getRange (bytes : List UInt8) (i j : ℕ) : Option (List UInt8) :=
  if i ≤ j ∧ j ≤ bytes.length then some ((bytes.drop i).take (j - i)) else none

/-- The number of `len` bytes at `pos`: `u16_at`, `u32_at` and `u64_at`. -/
def numberAt (bytes : List UInt8) (pos len : ℕ) : Option ℕ :=
  (getRange bytes pos (pos + len)).map ofLeBytes

/-- A section of the file. -/
structure Section where
  virtualAddress : ℕ
  virtualSize : ℕ
  rawOffset : ℕ
  rawSize : ℕ
  executable : Bool
  deriving DecidableEq

/-- The parts of a module's file needed to rebuild its original code. -/
structure DiskImage where
  bytes : List UInt8
  sections : List Section
  imageBase : ℕ
  relocations : List (ℕ × ℕ)
  exportFunctions : Option (ℕ × ℕ × ℕ)
  deriving DecidableEq

def imageRelBasedHighlow : ℕ := 3

def imageRelBasedDir64 : ℕ := 10

inductive DetectedHookKind where
  | inlineJump | breakpoint | hardwareBreakpoint | modifiedCode | importRedirect | exportRedirect
  deriving DecidableEq, Repr

structure DetectedHook where
  kind : DetectedHookKind
  address : ℕ
  function : Option String
  destination : Option ℕ
  destinationModule : Option String
  deriving DecidableEq

/-! ### Bytes of a section -/

/-- The section spans the RVA, in memory or in the file. -/
def Section.spans (s : Section) (rva : ℕ) : Bool :=
  s.virtualAddress ≤ rva && rva < s.virtualAddress + max s.virtualSize s.rawSize

def DiskImage.sectionOf (image : DiskImage) (rva : ℕ) : Option Section :=
  image.sections.find? fun s => s.spans rva

/-- `out[..copy].copy_from_slice(bytes)`. -/
def copyFromSlice (out : List UInt8) (copy : ℕ) (bytes : List UInt8) : Sliced (List UInt8) := do
  let part ← Sliced.slice out 0 copy
  if part.length = bytes.length then return bytes ++ out.drop copy else Sliced.fault

/-- `raw`: the file bytes of the range, cut at the end of its section. -/
def DiskImage.raw (image : DiskImage) (rva len : ℕ) : Sliced (List UInt8) := do
  let s ← Sliced.ofOption (image.sectionOf rva)
  let inner := rva - s.virtualAddress
  let len := min len (max s.virtualSize s.rawSize - inner)
  let out := List.replicate len 0
  if inner < s.rawSize then do
    let start := s.rawOffset + inner
    let copy := min len (s.rawSize - inner)
    let bytes ← Sliced.ofOption (getRange image.bytes start (start + copy))
    copyFromSlice out copy bytes
  else return out

def DiskImage.isExecutable (image : DiskImage) (rva : ℕ) : Bool :=
  image.sections.any fun s =>
    s.executable && s.virtualAddress ≤ rva && rva < s.virtualAddress + s.virtualSize

/-! ### `parse` -/

/-- What the headers of a file say. -/
structure Headers where
  sections : List Section
  imageBase : ℕ
  relocDirectory : Option (ℕ × ℕ)
  exportDirectory : Option (ℕ × ℕ)
  deriving DecidableEq

def directoryAt (bytes : List UInt8) (directories index : ℕ) : Option (ℕ × ℕ) := do
  let rva ← numberAt bytes (directories + index * 8) 4
  let size ← numberAt bytes (directories + index * 8 + 4) 4
  if rva ≠ 0 ∧ size ≠ 0 then some (rva, size) else none

def sectionAt (bytes : List UInt8) (table i : ℕ) : Option Section := do
  let characteristics ← numberAt bytes (table + i * 40 + 36) 4
  let virtualSize ← numberAt bytes (table + i * 40 + 8) 4
  let virtualAddress ← numberAt bytes (table + i * 40 + 12) 4
  let rawSize ← numberAt bytes (table + i * 40 + 16) 4
  let rawOffset ← numberAt bytes (table + i * 40 + 20) 4
  return ⟨virtualAddress, virtualSize, rawOffset, rawSize, characteristics.testBit 29⟩

/-- `parse` up to the directories. -/
def parseHeaders (bytes : List UInt8) : Option Headers := do
  guard ((← numberAt bytes 0 2) = 0x5A4D)
  let nt ← numberAt bytes 0x3C 4
  guard ((← numberAt bytes nt 4) = 0x4550)
  let sectionCount ← numberAt bytes (nt + 6) 2
  let optionalSize ← numberAt bytes (nt + 20) 2
  guard ((← numberAt bytes (nt + 24) 2) = 0x20B)
  let imageBase ← numberAt bytes (nt + 48) 8
  let sections ← (List.range sectionCount).mapM (sectionAt bytes (nt + 24 + optionalSize))
  return ⟨sections, imageBase, directoryAt bytes (nt + 136) 5, directoryAt bytes (nt + 136) 0⟩

/-- `as_chunks::<2>().0`, as numbers. -/
def words : List UInt8 → List ℕ
  | low :: high :: rest => (low.toNat + 256 * high.toNat) :: words rest
  | _ => []

/-- The relocations of one block. -/
def blockRelocations (page : ℕ) (entries : List UInt8) : List (ℕ × ℕ) :=
  (words entries).filterMap fun entry =>
    if entry / 4096 = imageRelBasedHighlow ∨ entry / 4096 = imageRelBasedDir64 then
      some (page + entry % 4096, entry / 4096)
    else none

/-- The page and the size of the block at `pos`. -/
def blockHeader (blocks : List UInt8) (pos : ℕ) : Sliced (ℕ × ℕ) := do
  let page ← Sliced.slice blocks pos (pos + 4)
  let size ← Sliced.slice blocks (pos + 4) (pos + 8)
  return (ofLeBytes page, ofLeBytes size)

/-- The loop over the blocks of base relocations. -/
def relocationsFrom (blocks : List UInt8) (pos : ℕ) : Sliced (List (ℕ × ℕ)) := do
  if pos + 8 ≤ blocks.length then
    let header ← blockHeader blocks pos
    if header.2 < 8 ∨ blocks.length < pos + header.2 then return []
    else do
      let entries ← Sliced.slice blocks (pos + 8) (pos + header.2)
      let rest ← relocationsFrom blocks (pos + header.2)
      return blockRelocations header.1 entries ++ rest
  else return []
termination_by blocks.length - pos

/-- The order of `sort_unstable` on relocations. -/
def relocationLe (a b : ℕ × ℕ) : Bool := a.1 < b.1 || (a.1 == b.1 && a.2 ≤ b.2)

/-- The base relocations of an image whose headers are known. -/
def relocationsOf (image : DiskImage) : Option (ℕ × ℕ) → Sliced (List (ℕ × ℕ))
  | none => return []
  | some (rva, size) => do
    let blocks ← image.raw rva size
    let relocations ← relocationsFrom blocks 0
    return relocations.mergeSort relocationLe

/-- The function table, its entry count and the ordinal base of the export directory. -/
def exportFunctionsOf (image : DiskImage) : Option (ℕ × ℕ) → Sliced (Option (ℕ × ℕ × ℕ))
  | none => return none
  | some (rva, _) => do
    let header ← image.raw rva 40
    let base ← Sliced.slice header 16 20
    let count ← Sliced.slice header 20 24
    let functions ← Sliced.slice header 28 32
    return some (ofLeBytes functions, ofLeBytes count, ofLeBytes base)

/-- The image of the headers, without its directories. -/
def Headers.image (h : Headers) (bytes : List UInt8) : DiskImage :=
  ⟨bytes, h.sections, h.imageBase, [], none⟩

def DiskImage.parse (bytes : List UInt8) : Sliced DiskImage := do
  let h ← Sliced.ofOption (parseHeaders bytes)
  let relocations ← relocationsOf (h.image bytes) h.relocDirectory
  let exportFunctions ← exportFunctionsOf (h.image bytes) h.exportDirectory
  return ⟨bytes, h.sections, h.imageBase, relocations, exportFunctions⟩

/-! ### `read` -/

/-- The relocated bytes of a relocation; `none` where they do not lie in one section. -/
def patchedBytes (image : DiskImage) (delta reloc kind : ℕ) : Sliced (Option (List UInt8)) := do
  let width := if kind = imageRelBasedDir64 then 8 else 4
  match ← (image.raw reloc width).attempt with
  | none => return none
  | some original =>
    if original.length < width then return none
    else do
      let word ← Sliced.slice original 0 width
      return some (leBytes width (ofLeBytes word + delta))

/-- The bytes of a patch that fall into the window. -/
def applyPatch (rva stop reloc : ℕ) (patched out : List UInt8) : Sliced (List UInt8) :=
  patched.zipIdx.foldlM
    (fun out byte =>
      if rva ≤ reloc + byte.2 ∧ reloc + byte.2 < stop then
        Sliced.assign out (reloc + byte.2 - rva) byte.1
      else return out) out

/-- The loop over the relocations of a window. -/
def relocate (image : DiskImage) (rva stop delta : ℕ) :
    List (ℕ × ℕ) → List UInt8 → Sliced (List UInt8)
  | [], out => return out
  | (reloc, kind) :: rest, out =>
    if stop ≤ reloc then return out
    else do
      match ← patchedBytes image delta reloc kind with
      | none => relocate image rva stop delta rest out
      | some patched => do
        let out ← applyPatch rva stop reloc patched out
        relocate image rva stop delta rest out

/-- `partition_point` of a list that the predicate partitions. -/
def partitionPoint {α : Type} (p : α → Bool) (l : List α) : ℕ := (l.takeWhile p).length

/-- `read`: the bytes of the range as the loader maps them at `base`. -/
def DiskImage.read (image : DiskImage) (rva len base : ℕ) : Sliced (List UInt8) := do
  let out ← image.raw rva len
  let delta := (base + 2 ^ 64 - image.imageBase) % 2 ^ 64
  if delta = 0 then return out
  else do
    let first := partitionPoint (fun r : ℕ × ℕ => r.1 + 8 ≤ rva) image.relocations
    let later ← Sliced.slice image.relocations first image.relocations.length
    relocate image rva (rva + out.length) delta later out

/-! ### `export_redirect` -/

/-- `export_redirect`; whether an address is an export of a system module, and the name of a module,
are answers of the system. -/
def DiskImage.exportRedirect (isSystemExport : ℕ → Bool) (moduleNameOf : ℕ → Option String)
    (image : DiskImage) (base ordinal live : ℕ) : Sliced DetectedHook := do
  let (functions, count, ordinalBase) ← Sliced.ofOption image.exportFunctions
  if ordinal < ordinalBase ∨ count ≤ ordinal - ordinalBase then Sliced.ofOption none
  else do
    let entry ← image.raw (functions + (ordinal - ordinalBase) * 4) 4
    let file ← Sliced.slice entry 0 4
    if ofLeBytes file = (live + 2 ^ 64 - base) % 2 ^ 64 ∨ isSystemExport live then
      Sliced.ofOption none
    else return ⟨.exportRedirect, (base + functions + (ordinal - ordinalBase) * 4) % 2 ^ 64, none,
      some live, moduleNameOf live⟩

/-! ### What `raw` returns -/

/-- The bytes left in the section from the RVA on. -/
def Section.left (s : Section) (rva : ℕ) : ℕ :=
  max s.virtualSize s.rawSize - (rva - s.virtualAddress)

/-- A section spans the RVA, and the file holds the bytes it promises for the range. -/
def DiskImage.Backed (image : DiskImage) (rva len : ℕ) : Prop :=
  ∃ s, image.sectionOf rva = some s ∧ (rva - s.virtualAddress < s.rawSize →
    s.rawOffset + (rva - s.virtualAddress) +
      min (min len (s.left rva)) (s.rawSize - (rva - s.virtualAddress)) ≤ image.bytes.length)

/-- If a section of the image spans the RVA, at least `n` bytes of it are left there. -/
def DiskImage.Room (image : DiskImage) (rva n : ℕ) : Prop :=
  ∀ s, image.sectionOf rva = some s → n ≤ s.left rva

variable {image : DiskImage}

theorem getRange_eq_some {bytes part : List UInt8} {i j : ℕ} :
    getRange bytes i j = some part ↔
      i ≤ j ∧ j ≤ bytes.length ∧ part = (bytes.drop i).take (j - i) := by
  unfold getRange
  constructor
  · intro found
    split_ifs at found with inside
    exact ⟨inside.1, inside.2, (Option.some.inj found).symm⟩
  · rintro ⟨order, inside, rfl⟩
    rw [if_pos ⟨order, inside⟩]

theorem copyFromSlice_finds {out bytes : List UInt8} {copy : ℕ} (fits : copy ≤ out.length)
    (same : bytes.length = copy) :
    Sliced.Finds (copyFromSlice out copy bytes) fun r => r.length = out.length := by
  unfold copyFromSlice
  refine (Sliced.finds_slice (Nat.zero_le _) fits).bind fun part length => ?_
  rw [if_pos (by omega)]
  refine Sliced.finds_pure ?_
  rw [List.length_append, List.length_drop]
  omega

/-- A range that the file backs is cut at the end of its section. -/
theorem raw_finds {rva len : ℕ} {s : Section} (found : image.sectionOf rva = some s)
    (backed : image.Backed rva len) :
    Sliced.Finds (image.raw rva len) fun out => out.length = min len (s.left rva) := by
  obtain ⟨s', found', backed⟩ := backed
  obtain rfl : s = s' := Option.some.inj (found.symm.trans found')
  unfold DiskImage.raw
  refine (Sliced.finds_ofOption (Q := (· = s)) found rfl).bind fun s' same => ?_
  subst same
  simp only
  split_ifs with inside
  · have fits := backed inside
    unfold Section.left at fits ⊢
    have bytes := getRange_eq_some.mpr ⟨Nat.le_add_right _ _, fits, rfl⟩
    refine (Sliced.finds_ofOption (Q := fun part : List UInt8 => part.length =
      min (min len (max s'.virtualSize s'.rawSize - (rva - s'.virtualAddress)))
        (s'.rawSize - (rva - s'.virtualAddress))) bytes ?_).bind fun part length => ?_
    · rw [List.length_take, List.length_drop]
      omega
    · have fits : part.length ≤ (List.replicate
          (min len (max s'.virtualSize s'.rawSize - (rva - s'.virtualAddress)))
            (0 : UInt8)).length := by
        rw [List.length_replicate, length]
        exact Nat.min_le_left _ _
      have copied := copyFromSlice_finds fits rfl
      rwa [List.length_replicate, length] at copied
  · exact Sliced.finds_pure List.length_replicate

theorem raw_lost {rva len : ℕ} (lost : ¬ image.Backed rva len) :
    (image.raw rva len).run = .ok none := by
  unfold DiskImage.raw
  cases found : image.sectionOf rva with
  | none => rfl
  | some s =>
    have start : (Sliced.ofOption (some s)).run = .ok (some s) := rfl
    rw [Sliced.run_bind_of_found start]
    simp only
    split_ifs with inside
    · cases bytes : getRange image.bytes (s.rawOffset + (rva - s.virtualAddress))
          (s.rawOffset + (rva - s.virtualAddress) +
            min (min len (max s.virtualSize s.rawSize - (rva - s.virtualAddress)))
              (s.rawSize - (rva - s.virtualAddress))) with
      | none => rfl
      | some part =>
        exact absurd ⟨s, found, fun _ => (getRange_eq_some.mp bytes).2.1⟩ lost
    · exact absurd ⟨s, found, fun inside' => absurd inside' inside⟩ lost

theorem raw_safe (image : DiskImage) (rva len : ℕ) :
    Sliced.Safe (image.raw rva len) fun out => out.length ≤ len := by
  by_cases backed : image.Backed rva len
  · obtain ⟨s, found, _⟩ := id backed
    exact (raw_finds found backed).safe.mono fun out length => by omega
  · unfold Sliced.Safe
    rw [raw_lost backed]
    trivial

/-! ### Relocations -/

theorem blockHeader_finds {blocks : List UInt8} {pos : ℕ} (more : pos + 8 ≤ blocks.length) :
    Sliced.Finds (blockHeader blocks pos) fun _ => True := by
  unfold blockHeader
  refine (Sliced.finds_slice (by omega) (by omega)).bind fun page _ => ?_
  refine (Sliced.finds_slice (by omega) (by omega)).bind fun size _ => ?_
  exact Sliced.finds_pure trivial

/-- The loop over the blocks stays inside them. -/
theorem relocationsFrom_finds (blocks : List UInt8) (pos : ℕ) :
    Sliced.Finds (relocationsFrom blocks pos) fun _ => True := by
  fun_induction relocationsFrom blocks pos with
  | case1 pos more ih =>
    refine (blockHeader_finds more).bind fun header _ => ?_
    split_ifs with stop
    · exact Sliced.finds_pure trivial
    · refine (Sliced.finds_slice (by omega) (by omega)).bind fun entries _ => ?_
      exact (ih header stop).bind fun rest _ => Sliced.finds_pure trivial
  | case2 pos done => exact Sliced.finds_pure trivial

/-- The relocations are found when the file backs their directory. -/
theorem relocationsOf_finds {directory : Option (ℕ × ℕ)}
    (backed : ∀ rva size, directory = some (rva, size) → image.Backed rva size) :
    Sliced.Finds (relocationsOf image directory) fun _ => True := by
  unfold relocationsOf
  split
  · exact Sliced.finds_pure trivial
  · rename_i rva size
    have here := backed rva size rfl
    obtain ⟨s, found, _⟩ := id here
    refine (raw_finds found here).bind fun blocks _ => ?_
    exact (relocationsFrom_finds blocks 0).bind fun relocations _ => Sliced.finds_pure trivial

theorem relocationsOf_lost {rva size : ℕ} (lost : ¬ image.Backed rva size) :
    (relocationsOf image (some (rva, size))).run = .ok none := by
  unfold relocationsOf
  rw [OptionT.run_bind, raw_lost lost]
  rfl

theorem patchedBytes_safe (image : DiskImage) (delta reloc kind : ℕ) :
    Sliced.Safe (patchedBytes image delta reloc kind) fun _ => True := by
  unfold patchedBytes
  generalize (if kind = imageRelBasedDir64 then 8 else 4) = width
  refine (raw_safe image reloc width).attempt.bind fun found _ => ?_
  split
  · exact Sliced.safe_pure trivial
  · split_ifs with short
    · exact Sliced.safe_pure trivial
    · refine (Sliced.finds_slice (by omega) (by omega)).safe.bind fun word _ => ?_
      exact Sliced.safe_pure trivial

/-- A patch is written inside the window. -/
theorem applyPatch_safe {rva stop reloc : ℕ} {patched out : List UInt8}
    (window : rva + out.length = stop) :
    Sliced.Safe (applyPatch rva stop reloc patched out) fun out => rva + out.length = stop := by
  refine Sliced.safe_foldlM (fun out byte _ window => ?_) window
  split_ifs with inside
  · exact (Sliced.finds_assign (by omega)).safe.mono fun out' length => by omega
  · exact Sliced.safe_pure window

theorem relocate_safe {rva stop delta : ℕ} (relocations : List (ℕ × ℕ)) {out : List UInt8}
    (window : rva + out.length = stop) :
    Sliced.Safe (relocate image rva stop delta relocations out) fun _ => True := by
  induction relocations generalizing out with
  | nil => exact Sliced.safe_pure trivial
  | cons r rest ih =>
    obtain ⟨reloc, kind⟩ := r
    rw [relocate]
    split_ifs with behind
    · exact Sliced.safe_pure trivial
    · refine (patchedBytes_safe image delta reloc kind).bind fun patched _ => ?_
      split
      · exact ih window
      · exact (applyPatch_safe window).bind fun out' window' => ih window'

theorem read_safe (image : DiskImage) (rva len base : ℕ) :
    Sliced.Safe (image.read rva len base) fun _ => True := by
  unfold DiskImage.read
  refine (raw_safe image rva len).bind fun out _ => ?_
  simp only
  split_ifs with same
  · exact Sliced.safe_pure trivial
  · have first : partitionPoint (fun r : ℕ × ℕ => decide (r.1 + 8 ≤ rva)) image.relocations ≤
        image.relocations.length := (List.takeWhile_sublist _).length_le
    refine (Sliced.finds_slice first le_rfl).safe.bind fun later _ => ?_
    exact relocate_safe later rfl

/-! ### Exports -/

/-- What `raw` returns for a backed range has `n` bytes exactly when there is room for them. -/
theorem raw_room {rva len n : ℕ} (less : n ≤ len) (backed : image.Backed rva len) :
    ∃ out, (image.raw rva len).run = .ok (some out) ∧ (n ≤ out.length ↔ image.Room rva n) := by
  obtain ⟨s, found, _⟩ := id backed
  obtain ⟨out, run, length⟩ := raw_finds found backed
  refine ⟨out, run, ?_⟩
  constructor
  · intro long s' found'
    obtain rfl : s = s' := Option.some.inj (found.symm.trans found')
    omega
  · intro room
    have := room s found
    omega

/-- The header of the export directory is indexed inside its bytes exactly when there is room. -/
theorem exportFunctionsOf_safe_iff {rva size : ℕ} :
    Sliced.Safe (exportFunctionsOf image (some (rva, size))) (fun _ => True) ↔
      (image.Backed rva 40 → image.Room rva 32) := by
  unfold exportFunctionsOf
  by_cases backed : image.Backed rva 40
  · obtain ⟨header, run, long⟩ := raw_room (n := 32) (by norm_num) backed
    rw [← long]
    constructor
    · intro safe _
      exact ((Sliced.safe_bind_iff run).mp safe).of_slice.2.of_slice.2.of_slice.1
    · intro room
      have long' := room backed
      rw [Sliced.safe_bind_iff run]
      refine Sliced.Finds.safe ?_
      refine (Sliced.finds_slice (by omega) (by omega)).bind fun base _ => ?_
      refine (Sliced.finds_slice (by omega) (by omega)).bind fun count _ => ?_
      refine (Sliced.finds_slice (by omega) (by omega)).bind fun functions _ => ?_
      exact Sliced.finds_pure trivial
  · exact iff_of_true (Sliced.safe_bind_of_lost _ (raw_lost backed)) fun b => absurd b backed

/-- The entry of the export is indexed inside its bytes exactly when there is room. -/
def EntryRoom (image : DiskImage) (ordinal : ℕ) : Prop :=
  ∀ functions count ordinalBase, image.exportFunctions = some (functions, count, ordinalBase) →
    ordinalBase ≤ ordinal → ordinal - ordinalBase < count →
    image.Backed (functions + (ordinal - ordinalBase) * 4) 4 →
    image.Room (functions + (ordinal - ordinalBase) * 4) 4

theorem exportRedirect_safe_iff (isSystemExport : ℕ → Bool) (moduleNameOf : ℕ → Option String)
    (base ordinal live : ℕ) :
    Sliced.Safe (image.exportRedirect isSystemExport moduleNameOf base ordinal live)
      (fun _ => True) ↔ EntryRoom image ordinal := by
  unfold DiskImage.exportRedirect EntryRoom
  cases exports : image.exportFunctions with
  | none => exact iff_of_true (Sliced.safe_bind_of_lost _ rfl) nofun
  | some entry =>
    obtain ⟨functions, count, ordinalBase⟩ := entry
    rw [Sliced.safe_some_bind_iff]
    simp only
    by_cases outside : ordinal < ordinalBase ∨ count ≤ ordinal - ordinalBase
    · rw [if_pos outside]
      refine iff_of_true trivial ?_
      intro functions' count' ordinalBase' same order less
      cases same
      omega
    · rw [if_neg outside]
      have own : (∀ functions' count' ordinalBase',
          some (functions, count, ordinalBase) = some (functions', count', ordinalBase') →
          ordinalBase' ≤ ordinal → ordinal - ordinalBase' < count' →
          image.Backed (functions' + (ordinal - ordinalBase') * 4) 4 →
          image.Room (functions' + (ordinal - ordinalBase') * 4) 4) ↔
          (image.Backed (functions + (ordinal - ordinalBase) * 4) 4 →
            image.Room (functions + (ordinal - ordinalBase) * 4) 4) := by
        constructor
        · exact fun all => all functions count ordinalBase rfl (by omega) (by omega)
        · intro here functions' count' ordinalBase' same _ _
          cases same
          exact here
      rw [own]
      by_cases backed : image.Backed (functions + (ordinal - ordinalBase) * 4) 4
      · obtain ⟨bytes, run, long⟩ := raw_room (n := 4) le_rfl backed
        rw [← long, Sliced.safe_bind_iff run]
        constructor
        · intro safe _
          exact safe.of_slice.1
        · intro room
          have long' := room backed
          refine (Sliced.finds_slice (by omega) (by omega)).safe.bind fun file _ => ?_
          split_ifs with same
          · trivial
          · trivial
      · exact iff_of_true (Sliced.safe_bind_of_lost _ (raw_lost backed))
          fun b => absurd b backed

/-! ### Whole files -/

/-- When the headers of the file can be read and it backs the relocation directory and the export
directory, 32 bytes are left in the section of the export directory. -/
def DirectoryRoom (bytes : List UInt8) : Prop :=
  ∀ h, parseHeaders bytes = some h →
    (∀ rva size, h.relocDirectory = some (rva, size) → (h.image bytes).Backed rva size) →
    ∀ rva size, h.exportDirectory = some (rva, size) →
      (h.image bytes).Backed rva 40 → (h.image bytes).Room rva 32

theorem parse_safe_iff (bytes : List UInt8) :
    Sliced.Safe (DiskImage.parse bytes) (fun _ => True) ↔ DirectoryRoom bytes := by
  unfold DiskImage.parse DirectoryRoom
  cases headers : parseHeaders bytes with
  | none => exact iff_of_true (Sliced.safe_bind_of_lost _ rfl) nofun
  | some h =>
    rw [Sliced.safe_some_bind_iff]
    by_cases backed : ∀ rva size, h.relocDirectory = some (rva, size) →
        (h.image bytes).Backed rva size
    · obtain ⟨relocations, run, _⟩ := relocationsOf_finds backed
      have stage : Sliced.Safe (exportFunctionsOf (h.image bytes) h.exportDirectory)
          (fun _ => True) ↔ ∀ rva size, h.exportDirectory = some (rva, size) →
            (h.image bytes).Backed rva 40 → (h.image bytes).Room rva 32 := by
        cases h.exportDirectory with
        | none => exact iff_of_true trivial nofun
        | some directory =>
          obtain ⟨rva, size⟩ := directory
          rw [exportFunctionsOf_safe_iff]
          constructor
          · intro room rva' size' same
            cases same
            exact room
          · exact fun all => all rva size rfl
      rw [Sliced.safe_bind_iff run, Sliced.safe_bind_pure_iff, stage]
      constructor
      · intro room h' same _
        cases same
        exact room
      · exact fun all => all h rfl backed
    · have lost : (relocationsOf (h.image bytes) h.relocDirectory).run = .ok none := by
        push Not at backed
        obtain ⟨rva, size, directory, lost⟩ := backed
        rw [directory]
        exact relocationsOf_lost lost
      refine iff_of_true (Sliced.safe_bind_of_lost _ lost) ?_
      intro h' same backed'
      cases same
      exact absurd backed' backed

/-- No function over the file and the image parsed from it indexes out of range. -/
def NoFault (isSystemExport : ℕ → Bool) (moduleNameOf : ℕ → Option String) (bytes : List UInt8)
    (rva len base ordinal live : ℕ) : Prop :=
  Sliced.Safe (DiskImage.parse bytes) fun image =>
    Sliced.Safe (image.raw rva len) (fun out => out.length ≤ len) ∧
      Sliced.Safe (image.read rva len base) (fun _ => True) ∧
      Sliced.Safe (image.exportRedirect isSystemExport moduleNameOf base ordinal live)
        (fun _ => True)

/-- Nothing is indexed out of range exactly when there is room for the header of the export
directory and for the entry of the ordinal. -/
theorem noFault_iff (isSystemExport : ℕ → Bool) (moduleNameOf : ℕ → Option String)
    (bytes : List UInt8) (rva len base ordinal live : ℕ) :
    NoFault isSystemExport moduleNameOf bytes rva len base ordinal live ↔
      DirectoryRoom bytes ∧
        ∀ image, (DiskImage.parse bytes).run = .ok (some image) → EntryRoom image ordinal := by
  unfold NoFault
  rw [← parse_safe_iff]
  unfold Sliced.Safe
  cases parsed : (DiskImage.parse bytes).run with
  | error e => simp
  | ok found =>
    cases found with
    | none => simp
    | some image =>
      have entry := @exportRedirect_safe_iff image isSystemExport moduleNameOf base ordinal live
      simp only [true_and, Except.ok.injEq, Option.some.injEq, forall_eq']
      rw [← entry]
      constructor
      · exact fun all => all.2.2
      · exact fun redirect => ⟨raw_safe image rva len, read_safe image rva len base, redirect⟩

/-- A file whose export directory lies in a section of 16 bytes. -/
def shortFile : List UInt8 :=
  (List.range 0xF8).map fun a =>
    ([(0x00, 0x4D), (0x01, 0x5A), (0x3C, 0x40), (0x40, 0x50), (0x41, 0x45), (0x46, 1), (0x54, 0x78),
      (0x58, 0x0B), (0x59, 0x02), (0xC9, 0x10), (0xCC, 40), (0xD8, 0x10),
      (0xDD, 0x10)].lookup a).getD 0

/-- Parsing the file indexes the header of the export directory out of its range. -/
theorem shortFile_faults :
    (DiskImage.parse shortFile).run = .error .outOfRange := by
  decide +kernel

end Disk

end NeoHook
