import NeoHook.PeImage

/-!
# Exports of a mapped image

`find_export_slot` of `eat.rs` looks a name up in the export tables; `enumerate_exports` of
`introspect.rs` lists the function table with one name for each entry.  The two walks over the same
three tables are compared position by position of the name table.

A function index has room for one name only, and the last position of the name table that gives it
one decides.  So the two agree exactly when no earlier name of an index is needed, and the other
oddities the walks treat differently (empty entries, forwarders whose text cannot be read, ordinals
that do not fit, names that occur twice) do not meet a name.
-/

namespace NeoHook

namespace Pe

/-- The fields of `IMAGE_EXPORT_DIRECTORY` that are used. -/
structure ExportDirectory where
  base : ℕ
  numberOfFunctions : ℕ
  numberOfNames : ℕ
  addressOfFunctions : ℕ
  addressOfNames : ℕ
  addressOfNameOrdinals : ℕ
  deriving DecidableEq

def exportDirectoryAt (mem : ℕ → UInt8) (ptr : ℕ) : ExportDirectory :=
  ⟨number mem (ptr + 16) 4, number mem (ptr + 20) 4, number mem (ptr + 24) 4,
    number mem (ptr + 28) 4, number mem (ptr + 32) 4, number mem (ptr + 36) 4⟩

structure ExportInfo where
  ordinal : ℕ
  name : Option (List UInt8)
  address : ℕ
  forwarder : Option (List UInt8)
  deriving DecidableEq

/-- An export directory with its place in the image. -/
structure Exports where
  rva : ℕ
  size : ℕ
  directory : ExportDirectory
  deriving DecidableEq

section Walks

variable (mem : ℕ → UInt8) (image : ModuleImage)

/-- The export directory, as both walks find it. -/
def exportDirectory : Walk (Option Exports) := do
  match ← dataDirectory mem image 0 with
  | none => return none
  | some (rva, size) =>
    match rvaToPtr image 40 rva with
    | none => return none
    | some ptr => do
      touch ptr 40
      return some ⟨rva, size, exportDirectoryAt mem ptr⟩

/-- `exp_rva.saturating_add(exp_size)`. -/
def Exports.stop (x : Exports) : ℕ := min (x.rva + x.size) (2 ^ 64 - 1)

/-- The RVA points back into the export directory. -/
def Exports.inside (x : Exports) (rva : ℕ) : Bool := x.rva ≤ rva && rva < x.stop

/-! ### `find_export_slot` -/

/-- The slot of the function that the `i`-th name belongs to, with the RVA it holds. -/
def slotOfName (x : Exports) (i : ℕ) : Walk (Except EatHookError (ℕ × ℕ)) := do
  match ← readU16 mem image x.directory.addressOfNameOrdinals i with
  | none => return .error .exportTableUnavailable
  | some index =>
    if x.directory.numberOfFunctions ≤ index then return .error .exportTableUnavailable
    else
      match (checkedMul index 4).bind (checkedAdd x.directory.addressOfFunctions) with
      | none => return .error .exportTableUnavailable
      | some slotRva =>
        match rvaToPtr image 4 slotRva with
        | none => return .error .exportTableUnavailable
        | some slot => do
          let original ← load mem slot 4
          return if x.inside original then .error .targetIsForwarder else .ok (slot, original)

/-- The loop over the names. -/
def findName (x : Exports) (target : List UInt8) :
    List ℕ → Walk (Except EatHookError (ℕ × ℕ))
  | [] => return .error .targetNotFound
  | i :: rest => do
    match ← readU32 mem image x.directory.addressOfNames i with
    | none => findName x target rest
    | some nameRva => do
      match ← readCString mem image nameRva with
      | none => findName x target rest
      | some name =>
        if name ≠ target then findName x target rest else slotOfName mem image x i

def findExportSlot (target : List UInt8) : Walk (Except EatHookError (ℕ × ℕ)) := do
  match ← exportDirectory mem image with
  | none => return .error .exportTableUnavailable
  | some x => findName mem image x target (List.range x.directory.numberOfNames)

/-! ### `enumerate_exports` -/

def arrayFits (rva count elemSize : ℕ) : Bool :=
  match (checkedMul count elemSize).bind (checkedAdd rva) with
  | none => false
  | some stop => stop ≤ image.size

def tablesFit (d : ExportDirectory) : Bool :=
  arrayFits image d.addressOfFunctions d.numberOfFunctions 4 &&
    (d.numberOfNames == 0 ||
      (arrayFits image d.addressOfNames d.numberOfNames 4 &&
        arrayFits image d.addressOfNameOrdinals d.numberOfNames 2))

/-- One turn of the loop that maps function indices to names. -/
def nameTurn (d : ExportDirectory) (names : List (Option (List UInt8))) (i : ℕ) :
    Walk (List (Option (List UInt8))) := do
  match ← readU32 mem image d.addressOfNames i with
  | none => return names
  | some nameRva => do
    match ← readU16 mem image d.addressOfNameOrdinals i with
    | none => return names
    | some index =>
      if index < d.numberOfFunctions then do
        let name ← readCString mem image nameRva
        return names.set index name
      else return names

/-- The forwarder text of a function RVA that points back into the export directory. -/
def forwarderOf (x : Exports) (functionRva : ℕ) : Walk (Option (List UInt8)) :=
  if x.inside functionRva then readCString mem image functionRva else return none

/-- One turn of the loop over the function table. -/
def exportTurn (x : Exports) (exports : List ExportInfo)
    (entry : Option (List UInt8) × ℕ) : Walk (List ExportInfo) := do
  match ← readU32 mem image x.directory.addressOfFunctions entry.2 with
  | none => return exports
  | some functionRva => do
    if functionRva = 0 then return exports
    let forwarder ← forwarderOf mem image x functionRva
    if 2 ^ 32 ≤ x.directory.base + entry.2 then return exports
    return exports ++ [⟨x.directory.base + entry.2, entry.1,
      (image.baseAddress + functionRva) % 2 ^ 64, forwarder⟩]

/-- `enumerate_exports` of an image whose headers are valid. -/
def exportsOf : Walk (List ExportInfo) := do
  match ← exportDirectory mem image with
  | none => return []
  | some x =>
    if !tablesFit image x.directory then return []
    let names ← (List.range x.directory.numberOfNames).foldlM (nameTurn mem image x.directory)
      (List.replicate x.directory.numberOfFunctions none)
    names.zipIdx.foldlM (exportTurn mem image x) []

end Walks

/-- `enumerate_exports`. -/
def enumerateExports (query : ℕ → Option RegionScan.Information) (mem : ℕ → UInt8)
    (handle : ℕ) : Walk (Except PeError (List ExportInfo)) := do
  match ← parseModuleImage query mem handle with
  | .error e => return .error e
  | .ok image => .ok <$> exportsOf mem image

theorem enumerateExports_value {query : ℕ → Option RegionScan.Information} {mem : ℕ → UInt8}
    {handle : ℕ} {image : ModuleImage}
    (parsed : (parseModuleImage query mem handle).value = .ok image) :
    (enumerateExports query mem handle).value = .ok (exportsOf mem image).value := by
  unfold enumerateExports
  rw [Logged.value_bind, parsed]
  rfl

/-! ### The tables -/

/-- The tables of the export directory lie inside the image. -/
structure TablesInside (image : ModuleImage) (d : ExportDirectory) : Prop where
  mapped : image.baseAddress + image.size < 2 ^ 64
  functions : 0 < d.numberOfFunctions → 0 < d.addressOfFunctions
  functions_le : d.addressOfFunctions + d.numberOfFunctions * 4 ≤ image.size
  names : 0 < d.numberOfNames → 0 < d.addressOfNames ∧ 0 < d.addressOfNameOrdinals
  names_le : 0 < d.numberOfNames → d.addressOfNames + d.numberOfNames * 4 ≤ image.size
  ordinals_le : 0 < d.numberOfNames → d.addressOfNameOrdinals + d.numberOfNames * 2 ≤ image.size

section Tables

variable (mem : ℕ → UInt8) (image : ModuleImage) (x : Exports)

/-- The place of the `k`-th entry of the function table. -/
def slotAt (k : ℕ) : ℕ := image.baseAddress + (x.directory.addressOfFunctions + k * 4)

/-- The `k`-th entry of the function table. -/
def rvaAt (k : ℕ) : ℕ := number mem (slotAt image x k) 4

/-- The `i`-th name, if it can be read. -/
def nameAt (i : ℕ) : Option (List UInt8) :=
  (readCString mem image
    (number mem (image.baseAddress + (x.directory.addressOfNames + i * 4)) 4)).value

/-- The function index of the `i`-th name. -/
def indexAt (i : ℕ) : ℕ :=
  number mem (image.baseAddress + (x.directory.addressOfNameOrdinals + i * 2)) 2

variable {mem image x}

theorem rvaToPtr_inside {width rva : ℕ} (mapped : image.baseAddress + image.size < 2 ^ 64)
    (positive : 0 < width) (some : 0 < rva) (fits : rva + width ≤ image.size) :
    rvaToPtr image width rva = Option.some (image.baseAddress + rva) := by
  unfold rvaToPtr checkedAdd
  rw [if_neg (by omega), if_pos (by omega)]
  simp only
  rw [if_neg (by omega), if_pos (by omega)]

theorem readElement_inside {width baseRva count i : ℕ}
    (mapped : image.baseAddress + image.size < 2 ^ 64) (positive : 0 < width)
    (some : 0 < baseRva) (fits : baseRva + count * width ≤ image.size) (less : i < count) :
    (readElement mem image width baseRva i).value =
      Option.some (number mem (image.baseAddress + (baseRva + i * width)) width) := by
  have last : (i + 1) * width ≤ count * width := Nat.mul_le_mul_right width less
  rw [Nat.add_mul, Nat.one_mul] at last
  unfold readElement checkedMul
  rw [if_pos (by omega)]
  simp only [checkedAdd]
  rw [if_pos (by omega)]
  simp only
  rw [rvaToPtr_inside mapped positive (by omega) (by omega)]
  rfl

variable (inside : TablesInside image x.directory)

include inside

theorem readU32_function {k : ℕ} (less : k < x.directory.numberOfFunctions) :
    (readU32 mem image x.directory.addressOfFunctions k).value = some (rvaAt mem image x k) :=
  readElement_inside inside.mapped (by norm_num) (inside.functions (by omega))
    inside.functions_le less

theorem readU32_name {i : ℕ} (less : i < x.directory.numberOfNames) :
    (readU32 mem image x.directory.addressOfNames i).value =
      some (number mem (image.baseAddress + (x.directory.addressOfNames + i * 4)) 4) :=
  readElement_inside inside.mapped (by norm_num) (inside.names (by omega)).1
    (inside.names_le (by omega)) less

theorem readU16_ordinal {i : ℕ} (less : i < x.directory.numberOfNames) :
    (readU16 mem image x.directory.addressOfNameOrdinals i).value =
      some (indexAt mem image x i) :=
  readElement_inside inside.mapped (by norm_num) (inside.names (by omega)).2
    (inside.ordinals_le (by omega)) less

theorem tablesFit_inside : tablesFit image x.directory = true := by
  have mapped := inside.mapped
  have functions := inside.functions_le
  have fits : ∀ rva count width : ℕ, rva + count * width ≤ image.size →
      arrayFits image rva count width = true := by
    intro rva count width le
    unfold arrayFits checkedMul
    rw [if_pos (by omega)]
    simp only [Option.bind_some, checkedAdd]
    rw [if_pos (by omega)]
    simpa using le
  unfold tablesFit
  rw [fits _ _ _ functions, Bool.true_and]
  rcases Nat.eq_zero_or_pos x.directory.numberOfNames with none | some
  · simp [none]
  · rw [fits _ _ _ (inside.names_le some), fits _ _ _ (inside.ordinals_le some)]
    simp

/-! ### What the walks return -/

/-- The slot behind the `i`-th name. -/
theorem slotOfName_value {i : ℕ} (less : i < x.directory.numberOfNames) :
    (slotOfName mem image x i).value =
      if x.directory.numberOfFunctions ≤ indexAt mem image x i then
        .error .exportTableUnavailable
      else if x.inside (rvaAt mem image x (indexAt mem image x i)) then .error .targetIsForwarder
      else .ok (slotAt image x (indexAt mem image x i),
        rvaAt mem image x (indexAt mem image x i)) := by
  have mapped := inside.mapped
  have functions := inside.functions_le
  unfold slotOfName
  rw [Logged.value_bind, readU16_ordinal inside less]
  simp only
  by_cases large : x.directory.numberOfFunctions ≤ indexAt mem image x i
  · rw [if_pos large, if_pos large]
    rfl
  · have slotRva : (checkedMul (indexAt mem image x i) 4).bind
        (checkedAdd x.directory.addressOfFunctions) =
          some (x.directory.addressOfFunctions + indexAt mem image x i * 4) := by
      unfold checkedMul
      rw [if_pos (by omega)]
      simp only [Option.bind_some, checkedAdd]
      rw [if_pos (by omega)]
    have slot : rvaToPtr image 4 (x.directory.addressOfFunctions + indexAt mem image x i * 4) =
        some (slotAt image x (indexAt mem image x i)) := by
      have := inside.functions (by omega)
      exact rvaToPtr_inside mapped (by norm_num) (by omega) (by omega)
    rw [if_neg large, if_neg large, slotRva]
    simp only [slot]
    rfl

/-- The loop over the names goes to the first position with the name. -/
theorem findName_value (target : List UInt8) {positions : List ℕ}
    (less : ∀ i ∈ positions, i < x.directory.numberOfNames) :
    (findName mem image x target positions).value =
      match positions.find? fun i => nameAt mem image x i == some target with
      | none => .error .targetNotFound
      | some i => (slotOfName mem image x i).value := by
  induction positions with
  | nil => rfl
  | cons i rest ih =>
    obtain ⟨here, later⟩ := List.forall_mem_cons.mp less
    rw [findName, Logged.value_bind, readU32_name inside here]
    simp only [Logged.value_bind]
    have name : (readCString mem image
        (number mem (image.baseAddress + (x.directory.addressOfNames + i * 4)) 4)).value =
          nameAt mem image x i := rfl
    rw [name]
    cases read : nameAt mem image x i with
    | none =>
      rw [List.find?_cons_of_neg (by simp [read])]
      exact ih later
    | some found =>
      simp only
      by_cases same : found = target
      · rw [if_neg (by simpa using same), List.find?_cons_of_pos (by simp [read, same])]
      · rw [if_pos same, List.find?_cons_of_neg (by simp [read, same])]
        exact ih later

/-- The names of the function indices once the loop over the name table has run. -/
theorem nameTurn_value {i : ℕ} (less : i < x.directory.numberOfNames)
    (names : List (Option (List UInt8))) (length : names.length = x.directory.numberOfFunctions) :
    (nameTurn mem image x.directory names i).value =
      names.set (indexAt mem image x i) (nameAt mem image x i) := by
  unfold nameTurn
  rw [Logged.value_bind, readU32_name inside less]
  simp only [Logged.value_bind]
  rw [readU16_ordinal inside less]
  simp only
  split_ifs with small
  · rfl
  · rw [List.set_eq_of_length_le (by omega)]
    rfl

/-- One turn of the loop over the function table. -/
theorem exportTurn_value {k : ℕ} (less : k < x.directory.numberOfFunctions)
    (exports : List ExportInfo) (name : Option (List UInt8)) :
    (exportTurn mem image x exports (name, k)).value =
      if rvaAt mem image x k = 0 ∨ 2 ^ 32 ≤ x.directory.base + k then exports
      else exports ++ [⟨x.directory.base + k, name,
        (image.baseAddress + rvaAt mem image x k) % 2 ^ 64,
        (forwarderOf mem image x (rvaAt mem image x k)).value⟩] := by
  unfold exportTurn
  rw [Logged.value_bind, readU32_function inside less]
  simp only
  by_cases zero : rvaAt mem image x k = 0
  · rw [if_pos zero, if_pos (.inl zero)]
    rfl
  · rw [if_neg zero, Logged.value_bind]
    by_cases large : 2 ^ 32 ≤ x.directory.base + k
    · rw [if_pos large, if_pos (.inr large)]
      rfl
    · rw [if_neg large, if_neg (by simp only [zero, large, or_self, not_false_eq_true])]
      rfl

omit inside

variable (mem image x)

/-- The name the loop over the given positions leaves for a function index. -/
def nameFrom (name : Option (List UInt8)) (positions : List ℕ) (k : ℕ) : Option (List UInt8) :=
  positions.foldl (fun name i => if indexAt mem image x i = k then nameAt mem image x i else name)
    name

/-- The name listed for a function index. -/
def listedName (k : ℕ) : Option (List UInt8) :=
  nameFrom mem image x none (List.range x.directory.numberOfNames) k

/-- What is listed for a function index. -/
def listedExport (k : ℕ) : Option ExportInfo :=
  if rvaAt mem image x k = 0 ∨ 2 ^ 32 ≤ x.directory.base + k then none
  else some ⟨x.directory.base + k, listedName mem image x k,
    (image.baseAddress + rvaAt mem image x k) % 2 ^ 64,
    (forwarderOf mem image x (rvaAt mem image x k)).value⟩

variable {mem image x}

include inside

theorem names_value {positions : List ℕ} (less : ∀ i ∈ positions, i < x.directory.numberOfNames)
    (names : List (Option (List UInt8))) (length : names.length = x.directory.numberOfFunctions) :
    (positions.foldlM (nameTurn mem image x.directory) names).value.length =
      x.directory.numberOfFunctions ∧
    ∀ k name, names[k]? = some name →
      (positions.foldlM (nameTurn mem image x.directory) names).value[k]? =
        some (nameFrom mem image x name positions k) := by
  induction positions generalizing names with
  | nil => exact ⟨length, fun k name read => read⟩
  | cons i rest ih =>
    obtain ⟨here, later⟩ := List.forall_mem_cons.mp less
    rw [List.foldlM_cons, Logged.value_bind, nameTurn_value inside here names length]
    obtain ⟨kept, read⟩ := ih later (names.set (indexAt mem image x i) (nameAt mem image x i))
      (by rw [List.length_set, length])
    refine ⟨kept, fun k name there => ?_⟩
    have small := (List.getElem?_eq_some_iff.mp there).1
    unfold nameFrom
    rw [List.foldl_cons]
    refine read k _ ?_
    rw [List.getElem?_set]
    by_cases same : indexAt mem image x i = k
    · rw [if_pos same, if_pos (by omega), if_pos same]
    · rw [if_neg same, if_neg same]
      exact there

/-- The exports listed are those of the function indices. -/
theorem mem_exports {names : List (Option (List UInt8))}
    (length : names.length = x.directory.numberOfFunctions)
    (listed : ∀ k name, names[k]? = some name → name = listedName mem image x k)
    (e : ExportInfo) :
    e ∈ (names.zipIdx.foldlM (exportTurn mem image x) []).value ↔
      ∃ k < x.directory.numberOfFunctions, listedExport mem image x k = some e := by
  have turns : ∀ (entries : List (Option (List UInt8) × ℕ)) (exports : List ExportInfo),
      (∀ entry ∈ entries, names[entry.2]? = some entry.1) →
      (e ∈ (entries.foldlM (exportTurn mem image x) exports).value ↔
        e ∈ exports ∨ ∃ entry ∈ entries, listedExport mem image x entry.2 = some e) := by
    intro entries
    induction entries with
    | nil =>
      intro exports _
      simp
    | cons entry rest ih =>
      intro exports there
      obtain ⟨here, later⟩ := List.forall_mem_cons.mp there
      have small : entry.2 < x.directory.numberOfFunctions := by
        rw [← length]
        exact (List.getElem?_eq_some_iff.mp here).1
      have name := listed entry.2 entry.1 here
      have turn : (exportTurn mem image x exports entry).value =
          exports ++ (listedExport mem image x entry.2).toList := by
        rw [show entry = (entry.1, entry.2) from rfl, exportTurn_value inside small exports entry.1,
          listedExport, ← name]
        split_ifs <;> simp
      rw [List.foldlM_cons, Logged.value_bind, ih _ later, turn]
      simp only [List.mem_append, Option.mem_toList, List.exists_mem_cons_iff, or_assoc]
  rw [turns _ _ fun entry there => List.mem_zipIdx_iff_getElem?.mp there]
  simp only [List.not_mem_nil, false_or]
  constructor
  · rintro ⟨entry, there, shown⟩
    refine ⟨entry.2, ?_, shown⟩
    rw [← length]
    exact (List.getElem?_eq_some_iff.mp (List.mem_zipIdx_iff_getElem?.mp there)).1
  · rintro ⟨k, small, shown⟩
    refine ⟨(names[k], k), List.mem_zipIdx_iff_getElem?.mpr ?_, shown⟩
    exact List.getElem?_eq_getElem (by omega)

omit inside

variable (mem image x)

/-! ### Positions of the name table -/

/-- The first position with the name. -/
def Found (i : ℕ) (name : List UInt8) : Prop :=
  i < x.directory.numberOfNames ∧ nameAt mem image x i = some name ∧
    ∀ j < i, nameAt mem image x j ≠ some name

/-- The last position with its function index, which has the name. -/
def Decides (i : ℕ) (name : List UInt8) : Prop :=
  i < x.directory.numberOfNames ∧ nameAt mem image x i = some name ∧
    ∀ j, i < j → j < x.directory.numberOfNames → indexAt mem image x j ≠ indexAt mem image x i

/-- The function index is in range, in use, and its ordinal fits. -/
def Shown (k : ℕ) : Prop :=
  k < x.directory.numberOfFunctions ∧ rvaAt mem image x k ≠ 0 ∧ x.directory.base + k < 2 ^ 32

/-- The entry of the function index points back into the export directory. -/
def Forwards (k : ℕ) : Prop := x.inside (rvaAt mem image x k) = true

variable {mem image x}

theorem nameFrom_range (n k : ℕ) (name : List UInt8) :
    nameFrom mem image x none (List.range n) k = some name ↔
      ∃ i < n, indexAt mem image x i = k ∧ nameAt mem image x i = some name ∧
        ∀ j, i < j → j < n → indexAt mem image x j ≠ k := by
  induction n with
  | zero => simp [nameFrom]
  | succ n ih =>
    have step : nameFrom mem image x none (List.range (n + 1)) k =
        if indexAt mem image x n = k then nameAt mem image x n
        else nameFrom mem image x none (List.range n) k := by
      simp [nameFrom, List.range_succ]
    rw [step]
    by_cases last : indexAt mem image x n = k
    · rw [if_pos last]
      constructor
      · intro read
        exact ⟨n, by omega, last, read, fun j behind inside => by omega⟩
      · rintro ⟨i, less, _, read, later⟩
        have same : i = n := by
          by_contra other
          exact later n (by omega) (by omega) last
        rw [← same]
        exact read
    · rw [if_neg last, ih]
      constructor
      · rintro ⟨i, less, index, read, later⟩
        refine ⟨i, by omega, index, read, fun j behind inside => ?_⟩
        rcases Nat.lt_succ_iff_lt_or_eq.mp inside with less' | rfl
        · exact later j behind less'
        · exact last
      · rintro ⟨i, less, index, read, later⟩
        have before : i ≠ n := by
          rintro rfl
          exact last index
        exact ⟨i, by omega, index, read, fun j behind inside => later j behind (by omega)⟩

theorem listedName_eq_some (k : ℕ) (name : List UInt8) :
    listedName mem image x k = some name ↔
      ∃ i, Decides mem image x i name ∧ indexAt mem image x i = k := by
  unfold listedName Decides
  rw [nameFrom_range]
  constructor
  · rintro ⟨i, less, rfl, read, later⟩
    exact ⟨i, ⟨less, read, later⟩, rfl⟩
  · rintro ⟨i, ⟨less, read, later⟩, rfl⟩
    exact ⟨i, less, rfl, read, later⟩

variable (directory : (exportDirectory mem image).value = some x)

include inside directory

/-- What `find_export_slot` returns. -/
theorem findExportSlot_ok (name : List UInt8) (slot rva : ℕ) :
    (findExportSlot mem image name).value = .ok (slot, rva) ↔
      ∃ i, Found mem image x i name ∧
        indexAt mem image x i < x.directory.numberOfFunctions ∧
        ¬ Forwards mem image x (indexAt mem image x i) ∧
        slot = slotAt image x (indexAt mem image x i) ∧
        rva = rvaAt mem image x (indexAt mem image x i) := by
  unfold findExportSlot
  rw [Logged.value_bind, directory]
  simp only
  rw [findName_value inside name fun i there => List.mem_range.mp there]
  have found : ∀ i, ((List.range x.directory.numberOfNames).find?
      fun i => nameAt mem image x i == some name) = some i ↔ Found mem image x i name := by
    intro i
    rw [List.find?_range_eq_some]
    unfold Found
    simp only [beq_iff_eq, List.mem_range, Bool.not_eq_true', beq_eq_false_iff_ne]
    tauto
  cases result : (List.range x.directory.numberOfNames).find?
      fun i => nameAt mem image x i == some name with
  | none =>
    simp only [reduceCtorEq, false_iff]
    rintro ⟨i, first, _⟩
    rw [← found, result] at first
    cases first
  | some i =>
    have first := (found i).mp result
    simp only [slotOfName_value inside first.1]
    constructor
    · intro ok
      split_ifs at ok with large forwards
      simp only [Except.ok.injEq, Prod.mk.injEq] at ok
      exact ⟨i, first, by omega, forwards, ok.1.symm, ok.2.symm⟩
    · rintro ⟨j, other, small, code, rfl, rfl⟩
      have same : j = i := by
        rw [← found, result] at other
        exact (Option.some.inj other).symm
      subst same
      unfold Forwards at code
      rw [if_neg (by omega), if_neg code]

/-- What `enumerate_exports` lists. -/
theorem mem_exportsOf (e : ExportInfo) :
    e ∈ (exportsOf mem image).value ↔
      ∃ k < x.directory.numberOfFunctions, listedExport mem image x k = some e := by
  unfold exportsOf
  rw [Logged.value_bind, directory]
  simp only [tablesFit_inside inside, Bool.not_true, Bool.false_eq_true, if_false,
    Logged.value_bind]
  obtain ⟨length, read⟩ := names_value inside (fun i there => List.mem_range.mp there)
    (List.replicate x.directory.numberOfFunctions none) List.length_replicate
  refine mem_exports inside length (fun k name there => ?_) e
  have small : k < x.directory.numberOfFunctions := by
    rw [← length]
    exact (List.getElem?_eq_some_iff.mp there).1
  have listed := read k none (by simp [small])
  rw [there] at listed
  exact Option.some.inj listed

omit inside directory

variable (mem image x)

/-! ### When the two walks agree -/

/-- The slot found for a name is that of the export listed with the name, and every name of the name
table is listed. -/
structure Agree : Prop where
  slots : ∀ name slot, (∃ rva, (findExportSlot mem image name).value = .ok (slot, rva)) ↔
    ∃ e ∈ (exportsOf mem image).value, e.name = some name ∧ e.forwarder = none ∧
      slotAt image x (e.ordinal - x.directory.base) = slot
  address : ∀ name slot rva, (findExportSlot mem image name).value = .ok (slot, rva) →
    ∀ e ∈ (exportsOf mem image).value, e.name = some name → e.forwarder = none →
      slotAt image x (e.ordinal - x.directory.base) = slot →
      e.address = (image.baseAddress + rva) % 2 ^ 64
  names : ∀ i < x.directory.numberOfNames, ∀ name, nameAt mem image x i = some name →
    ∃ e ∈ (exportsOf mem image).value, e.name = some name

/-- The name table is consistent.  A name whose first position leads to a function that is no
forwarder leads to an entry in use, and the last position with that function index has the same
name.  The last position with a function index in use has, unless the entry is a forwarder with a
text, an entry that is no forwarder and a name whose first position has that index.  And every name
is that of the last position with some function index in use. -/
structure Consistent : Prop where
  found : ∀ i name, Found mem image x i name →
    indexAt mem image x i < x.directory.numberOfFunctions →
    ¬ Forwards mem image x (indexAt mem image x i) →
    Shown mem image x (indexAt mem image x i) ∧
      ∃ j, Decides mem image x j name ∧ indexAt mem image x j = indexAt mem image x i
  decided : ∀ j name, Decides mem image x j name → Shown mem image x (indexAt mem image x j) →
    (forwarderOf mem image x (rvaAt mem image x (indexAt mem image x j))).value = none →
    ¬ Forwards mem image x (indexAt mem image x j) ∧
      ∃ i, Found mem image x i name ∧ indexAt mem image x i = indexAt mem image x j
  named : ∀ i < x.directory.numberOfNames, ∀ name, nameAt mem image x i = some name →
    ∃ j, Decides mem image x j name ∧ Shown mem image x (indexAt mem image x j)

variable {mem image x}

theorem slotAt_inj {k k' : ℕ} : slotAt image x k = slotAt image x k' ↔ k = k' := by
  unfold slotAt
  omega

theorem forwarderOf_code {k : ℕ} (code : ¬ Forwards mem image x k) :
    (forwarderOf mem image x (rvaAt mem image x k)).value = none := by
  unfold Forwards at code
  unfold forwarderOf
  rw [if_neg code]
  rfl

include inside directory

/-- An export is listed with a name exactly when the last position with its index has the name. -/
theorem listed_iff (name : List UInt8) (P : ExportInfo → Prop) :
    (∃ e ∈ (exportsOf mem image).value, e.name = some name ∧ P e) ↔
      ∃ j, Decides mem image x j name ∧ Shown mem image x (indexAt mem image x j) ∧
        P ⟨x.directory.base + indexAt mem image x j, some name,
          (image.baseAddress + rvaAt mem image x (indexAt mem image x j)) % 2 ^ 64,
          (forwarderOf mem image x (rvaAt mem image x (indexAt mem image x j))).value⟩ := by
  constructor
  · rintro ⟨e, there, named, holds⟩
    obtain ⟨k, small, listed⟩ := (mem_exportsOf inside directory e).mp there
    unfold listedExport at listed
    split_ifs at listed with hidden
    cases listed
    obtain ⟨j, decides, rfl⟩ := (listedName_eq_some k name).mp named
    refine ⟨j, decides, ⟨small, ?_, ?_⟩, ?_⟩
    · exact fun zero => hidden (.inl zero)
    · exact lt_of_not_ge fun large => hidden (.inr large)
    · rw [← named]
      exact holds
  · rintro ⟨j, decides, shown, holds⟩
    refine ⟨_, (mem_exportsOf inside directory _).mpr ⟨indexAt mem image x j, shown.1, ?_⟩, rfl,
      holds⟩
    have name' := (listedName_eq_some (indexAt mem image x j) name).mpr ⟨j, decides, rfl⟩
    have used : ¬ (rvaAt mem image x (indexAt mem image x j) = 0 ∨
        2 ^ 32 ≤ x.directory.base + indexAt mem image x j) := by
      rintro (zero | large)
      · exact shown.2.1 zero
      · have := shown.2.2
        omega
    unfold listedExport
    rw [if_neg used, name']

/-- Over an image with its export tables inside, the two walks agree exactly when the name table is
consistent. -/
theorem exports_agree_iff : Agree mem image x ↔ Consistent mem image x := by
  have ordinal : ∀ j, x.directory.base + indexAt mem image x j - x.directory.base =
      indexAt mem image x j := fun j => by omega
  constructor
  · intro agree
    refine ⟨?_, ?_, ?_⟩
    · intro i name first small code
      have ok := (findExportSlot_ok inside directory name _ _).mpr
        ⟨i, first, small, code, rfl, rfl⟩
      obtain ⟨j, decides, shown, _, same⟩ := (listed_iff inside directory name
        fun e => e.forwarder = none ∧ slotAt image x (e.ordinal - x.directory.base) =
          slotAt image x (indexAt mem image x i)).mp ((agree.slots name _).mp ⟨_, ok⟩)
      rw [slotAt_inj, ordinal] at same
      exact ⟨same ▸ shown, j, decides, same⟩
    · intro j name decides shown direct
      have listed := (listed_iff inside directory name
        fun e => e.forwarder = none ∧ slotAt image x (e.ordinal - x.directory.base) =
          slotAt image x (indexAt mem image x j)).mpr
          ⟨j, decides, shown, direct, by rw [ordinal]⟩
      obtain ⟨rva, ok⟩ := (agree.slots name _).mpr listed
      obtain ⟨i, first, _, code, same, _⟩ := (findExportSlot_ok inside directory name _ _).mp ok
      rw [slotAt_inj] at same
      exact ⟨same ▸ code, i, first, same.symm⟩
    · intro i less name read
      obtain ⟨e, there, named⟩ := agree.names i less name read
      obtain ⟨j, decides, shown, _⟩ := (listed_iff inside directory name fun _ => True).mp
        ⟨e, there, named, trivial⟩
      exact ⟨j, decides, shown⟩
  · intro consistent
    refine ⟨?_, ?_, ?_⟩
    · intro name slot
      rw [listed_iff inside directory name
        fun e => e.forwarder = none ∧ slotAt image x (e.ordinal - x.directory.base) = slot]
      constructor
      · rintro ⟨rva, ok⟩
        obtain ⟨i, first, small, code, rfl, _⟩ := (findExportSlot_ok inside directory name _ _).mp ok
        obtain ⟨shown, j, decides, same⟩ := consistent.found i name first small code
        rw [← same] at shown code ⊢
        exact ⟨j, decides, shown, forwarderOf_code code, by rw [ordinal]⟩
      · rintro ⟨j, decides, shown, direct, rfl⟩
        obtain ⟨code, i, first, same⟩ := consistent.decided j name decides shown direct
        refine ⟨_, (findExportSlot_ok inside directory name _ _).mpr
          ⟨i, first, ?_, ?_, ?_, rfl⟩⟩
        · rw [same]
          exact shown.1
        · rw [same]
          exact code
        · rw [ordinal, same]
    · intro name slot rva ok e there named direct same
      obtain ⟨i, _, _, _, rfl, rfl⟩ := (findExportSlot_ok inside directory name _ _).mp ok
      obtain ⟨k, _, listed⟩ := (mem_exportsOf inside directory e).mp there
      unfold listedExport at listed
      split_ifs at listed
      cases listed
      rw [slotAt_inj] at same
      simp only [Nat.add_sub_cancel_left] at same
      rw [same]
    · intro i less name read
      obtain ⟨j, decides, shown⟩ := consistent.named i less name read
      obtain ⟨e, there, named, _⟩ := (listed_iff inside directory name fun _ => True).mpr
        ⟨j, decides, shown, trivial⟩
      exact ⟨e, there, named⟩

end Tables

section Plain

variable {mem : ℕ → UInt8} {image : ModuleImage} {x : Exports}

/-- Without repeated names and function indices the name table is consistent if every named entry is in
use and every forwarder has a text. -/
theorem consistent_of_distinct
    (indices : ∀ i < x.directory.numberOfNames, ∀ j < x.directory.numberOfNames,
      indexAt mem image x i = indexAt mem image x j → i = j)
    (names : ∀ i < x.directory.numberOfNames, ∀ j < x.directory.numberOfNames,
      nameAt mem image x i = nameAt mem image x j → i = j)
    (shown : ∀ i < x.directory.numberOfNames, Shown mem image x (indexAt mem image x i))
    (texts : ∀ i < x.directory.numberOfNames, Forwards mem image x (indexAt mem image x i) →
      (forwarderOf mem image x (rvaAt mem image x (indexAt mem image x i))).value ≠ none) :
    Consistent mem image x := by
  have decides : ∀ i name, i < x.directory.numberOfNames → nameAt mem image x i = some name →
      Decides mem image x i name := by
    intro i name less read
    refine ⟨less, read, fun j behind inside same => ?_⟩
    exact absurd (indices j inside i less same) (by omega)
  refine ⟨?_, ?_, fun i less name read => ⟨i, decides i name less read, shown i less⟩⟩
  · rintro i name ⟨less, read, _⟩ _ _
    exact ⟨shown i less, i, decides i name less read, rfl⟩
  · rintro j name ⟨less, read, _⟩ _ direct
    refine ⟨fun forwards => texts j less forwards direct, j, ⟨less, read, fun i before same => ?_⟩, rfl⟩
    exact absurd (names i (before.trans less) j less (same.trans read.symm)) (by omega)

end Plain

/-- The bytes of an image at `0x10000` with two exported functions and a forwarder, under the names
`A`, `B` and `C`. -/
def threeExports (a : ℕ) : UInt8 :=
  ([(0x3C, 0x40), (0xC4, 1), (0xC9, 0x01), (0xCC, 0x60),
    (0x110, 1), (0x114, 3), (0x118, 3), (0x11C, 0x28), (0x11D, 0x01), (0x120, 0x34),
    (0x121, 0x01), (0x124, 0x40), (0x125, 0x01),
    (0x129, 0x03), (0x12C, 0x04), (0x12D, 0x03), (0x130, 0x50), (0x131, 0x01),
    (0x134, 0x46), (0x135, 0x01), (0x138, 0x48), (0x139, 0x01), (0x13C, 0x4A), (0x13D, 0x01),
    (0x142, 1), (0x144, 2), (0x146, 0x41), (0x148, 0x42), (0x14A, 0x43),
    (0x150, 0x58), (0x151, 0x2E), (0x152, 0x59)].lookup (a - 0x10000)).getD 0

def sampleImage : ModuleImage := ⟨0x10000, 0x400⟩

def threeDirectory : Exports := ⟨0x100, 0x60, ⟨1, 3, 3, 0x128, 0x134, 0x140⟩⟩

/-- The three names are found and listed, the last one as a forwarder. -/
theorem three_agree :
    Agree threeExports sampleImage threeDirectory ∧
      (exportsOf threeExports sampleImage).value = [⟨1, some [0x41], 0x10300, none⟩,
        ⟨2, some [0x42], 0x10304, none⟩, ⟨3, some [0x43], 0x10150, some [0x58, 0x2E, 0x59]⟩] := by
  have inside : TablesInside sampleImage threeDirectory.directory := by
    constructor <;> simp [sampleImage, threeDirectory]
  have directory : (exportDirectory threeExports sampleImage).value = some threeDirectory := by
    decide +kernel
  refine ⟨(exports_agree_iff inside directory).mpr (consistent_of_distinct ?_ ?_ ?_ ?_), ?_⟩
  · decide +kernel
  · decide +kernel
  · unfold Shown
    decide +kernel
  · unfold Forwards
    decide +kernel
  · decide +kernel

/-- The bytes of an image with one exported function and the names `A` and `B` for it. -/
def aliasExports (a : ℕ) : UInt8 :=
  ([(0x3C, 0x40), (0xC4, 1), (0xC9, 0x01), (0xCC, 0x60),
    (0x110, 1), (0x114, 1), (0x118, 2), (0x11C, 0x28), (0x11D, 0x01), (0x120, 0x2C),
    (0x121, 0x01), (0x124, 0x34), (0x125, 0x01),
    (0x129, 0x03), (0x12C, 0x38), (0x12D, 0x01), (0x130, 0x3A), (0x131, 0x01),
    (0x138, 0x41), (0x13A, 0x42)].lookup (a - 0x10000)).getD 0

def aliasDirectory : Exports := ⟨0x100, 0x60, ⟨1, 1, 2, 0x128, 0x12C, 0x134⟩⟩

/-- With two names for the function the first one is not listed. -/
theorem alias_not_listed :
    (exportDirectory aliasExports sampleImage).value = some aliasDirectory ∧
    TablesInside sampleImage aliasDirectory.directory ∧
    ¬ Agree aliasExports sampleImage aliasDirectory := by
  refine ⟨by decide +kernel, ?_, fun agree => ?_⟩
  · constructor <;> simp [sampleImage, aliasDirectory]
  · have name : nameAt aliasExports sampleImage aliasDirectory 0 = some [0x41] := by decide +kernel
    have listed : (exportsOf aliasExports sampleImage).value = [⟨1, some [0x42], 0x10300, none⟩] := by
      decide +kernel
    obtain ⟨e, there, named⟩ := agree.names 0 (by decide) _ name
    rw [listed, List.mem_singleton] at there
    rw [there] at named
    cases named

end Pe

end NeoHook
