import NeoHook.PeImage

/-!
# Imports of a mapped image

Three walks over the import descriptors of an image: `enumerate_imports` of `introspect.rs` lists
the imports, `import_slots` of `detect.rs` their slots, and `find_import_thunk` of `iat.rs` looks
one of them up.  `importTable` is the list of entries behind all three.

They end differently on malformed tables.  A DLL name that cannot be read ends the list of imports
but voids the list of slots; a function name that cannot be read, or a slot outside the image, makes
the search give up the descriptor but not the list.
-/

namespace NeoHook

namespace Pe

/-- The fields of `IMAGE_IMPORT_DESCRIPTOR` that are used. -/
structure ImportDescriptor where
  originalFirstThunk : ℕ
  name : ℕ
  firstThunk : ℕ
  deriving DecidableEq

def importDescriptorAt (mem : ℕ → UInt8) (ptr : ℕ) : ImportDescriptor :=
  ⟨number mem ptr 4, number mem (ptr + 12) 4, number mem (ptr + 16) 4⟩

/-- The name table, or the IAT where there is none. -/
def ImportDescriptor.lookupBase (d : ImportDescriptor) : ℕ :=
  if d.originalFirstThunk ≠ 0 then d.originalFirstThunk else d.firstThunk

structure ImportInfo where
  dll : List UInt8
  name : Option (List UInt8)
  ordinal : Option ℕ
  address : ℕ
  deriving DecidableEq

inductive InternalIatHookError where
  | noImportDirectory | malformedImportDirectory | nameResolutionUnavailable | targetNotFound
  deriving DecidableEq, Repr

theorem rvaToPtr_eq_some {image : ModuleImage} {size rva ptr : ℕ} :
    rvaToPtr image size rva = some ptr ↔
      rva ≠ 0 ∧ size ≠ 0 ∧ rva + size < 2 ^ 64 ∧ rva + size ≤ image.size ∧
        image.baseAddress + rva < 2 ^ 64 ∧ ptr = image.baseAddress + rva := by
  unfold rvaToPtr checkedAdd
  constructor
  · intro found
    by_cases zero : rva = 0 ∨ size = 0
    · rw [if_pos zero] at found
      cases found
    · rw [if_neg zero] at found
      by_cases fits : rva + size < 2 ^ 64
      · rw [if_pos fits] at found
        simp only [Option.ite_none_left_eq_some, Option.ite_none_right_eq_some,
          Option.some.injEq] at found
        exact ⟨by omega, by omega, fits, by omega, found.2.1, found.2.2.symm⟩
      · rw [if_neg fits] at found
        cases found
  · rintro ⟨some, width, fits, inside, place, rfl⟩
    rw [if_neg (by omega), if_pos fits]
    simp only
    rw [if_neg (by omega), if_pos place]

@[simp] theorem load_value (mem : ℕ → UInt8) (addr len : ℕ) :
    (load mem addr len).value = number mem addr len := rfl

section Walks

variable (mem : ℕ → UInt8) (image : ModuleImage)

/-! ### `enumerate_imports` and `import_slots` -/

/-- The loop over the entries of one descriptor, from `offset` on. -/
def walkThunks {β : Type} (visit : ℕ → ℕ → Walk β) (lookupBase offset : ℕ) : Walk (List β) := do
  let _ ← plus lookupBase offset
  match _inside : rvaToPtr image 8 (lookupBase + offset) with
  | none => return []
  | some ptr => do
    let lookup ← load mem ptr 8
    if lookup = 0 then return []
    else do
      let entry ← visit lookup offset
      let _ ← plus offset 8
      let rest ← walkThunks visit lookupBase (offset + 8)
      return entry :: rest
termination_by image.size - (lookupBase + offset)
decreasing_by
  have := rvaToPtr_eq_some.mp _inside
  omega

/-- The loop over the descriptors; `unreadable` is the outcome at a DLL name that cannot be read. -/
def walkDescriptors {β : Type} (visit : List UInt8 → ImportDescriptor → Walk (List β))
    (unreadable : Option (List β)) (descRva : ℕ) : Walk (Option (List β)) := do
  match _inside : rvaToPtr image 20 descRva with
  | none => return some []
  | some ptr => do
    touch ptr 20
    if (importDescriptorAt mem ptr).name = 0 then return some []
    else do
      match ← readCString mem image (importDescriptorAt mem ptr).name with
      | none => return unreadable
      | some dll => do
        let here ← visit dll (importDescriptorAt mem ptr)
        let _ ← plus descRva 20
        let rest ← walkDescriptors visit unreadable (descRva + 20)
        return rest.map (here ++ ·)
termination_by image.size - descRva
decreasing_by
  have := rvaToPtr_eq_some.mp _inside
  omega

/-- The entries of one descriptor. -/
def descriptorThunks {β : Type} (visit : ℕ → ℕ → Walk β) (d : ImportDescriptor) : Walk (List β) :=
  if d.lookupBase ≠ 0 then walkThunks mem image visit d.lookupBase 0 else return []

/-- `IMAGE_ORDINAL_FLAG`. -/
def isOrdinal (lookup : ℕ) : Bool := 2 ^ 63 ≤ lookup

/-- The name and the ordinal of an import. -/
def importName (lookup : ℕ) : Walk (Option (List UInt8) × Option ℕ) :=
  if isOrdinal lookup then return (none, some (lookup % 2 ^ 16))
  else do
    let nameRva ← plus lookup 2
    let name ← readCString mem image nameRva
    return (name, none)

def importAt (dll : List UInt8) (d : ImportDescriptor) (lookup offset : ℕ) : Walk ImportInfo := do
  let slotRva ← plus d.firstThunk offset
  let address ← readUsize mem image slotRva
  let name ← importName mem image lookup
  return ⟨dll, name.1, name.2, address.getD 0⟩

/-- `enumerate_imports` of an image whose headers are valid. -/
def importsOf : Walk (List ImportInfo) := do
  match ← dataDirectoryRva mem image 1 with
  | none => return []
  | some rva => do
    let imports ← walkDescriptors mem image
      (fun dll d => descriptorThunks mem image (importAt mem image dll d) d) (some []) rva
    return imports.getD []

def importSlotAt (d : ImportDescriptor) (_lookup offset : ℕ) : Walk ℕ := do
  let iat ← plus image.baseAddress d.firstThunk
  plus iat offset

/-- `import_slots` of an image whose headers are valid. -/
def importSlotsOf : Walk (Option (List ℕ)) := do
  match ← dataDirectoryRva mem image 1 with
  | none => return none
  | some rva =>
    walkDescriptors mem image
      (fun _ d => descriptorThunks mem image (importSlotAt image d) d) none rva

/-! ### `find_import_thunk` -/

def readImportName (lookup : ℕ) : Walk (Option (List UInt8)) :=
  match checkedAdd lookup 2 with
  | none => return none
  | some nameRva => cStrBytes mem image nameRva

/-- The name behind a lookup is the one searched for; `none` when it cannot be read. -/
def thunkNamed (target : List UInt8) (lookup : ℕ) : Walk (Option Bool) :=
  if isOrdinal lookup then return some false
  else do
    match ← readImportName mem image lookup with
    | none => return none
    | some name => return some (name == target)

/-- One turn of the loop of `find_thunk_in_descriptor`; `none` goes on. -/
def thunkTurn (target : List UInt8) (thunk original : ℕ) :
    Walk (Option (Except InternalIatHookError ℕ)) := do
  let lookup ← load mem original 8
  if lookup = 0 then return some (.error .targetNotFound)
  else do
    match ← thunkNamed mem image target lookup with
    | none => return some (.error .malformedImportDirectory)
    | some named => return if named then some (.ok thunk) else none

/-- The loop of `find_thunk_in_descriptor`; behind `rva_to_ptr` its additions do not overflow. -/
def findThunk (target : List UInt8) (thunkRva originalRva : ℕ) :
    Walk (Except InternalIatHookError ℕ) :=
  match rvaToPtr image 8 thunkRva with
  | none => return .error .malformedImportDirectory
  | some thunk =>
    match _inside : rvaToPtr image 8 originalRva with
    | none => return .error .malformedImportDirectory
    | some original =>
      (thunkTurn mem image target thunk original).orElse
        (findThunk target (thunkRva + 8) (originalRva + 8))
termination_by image.size - originalRva
decreasing_by
  have := rvaToPtr_eq_some.mp _inside
  omega

def findThunkInDescriptor (d : ImportDescriptor) (target : List UInt8) :
    Walk (Except InternalIatHookError ℕ) :=
  if d.firstThunk = 0 then return .error .malformedImportDirectory
  else if d.originalFirstThunk = 0 then return .error .nameResolutionUnavailable
  else findThunk mem image target d.firstThunk d.originalFirstThunk

def toAsciiLowercase (b : UInt8) : UInt8 := if 0x41 ≤ b ∧ b ≤ 0x5A then b + 0x20 else b

/-- `[u8]::eq_ignore_ascii_case`. -/
def eqIgnoreAsciiCase (a b : List UInt8) : Bool :=
  a.map toAsciiLowercase == b.map toAsciiLowercase

/-- The loop of `find_import_thunk`. -/
def findImportThunk (dll target : List UInt8) (notFound : InternalIatHookError) (descRva : ℕ) :
    Walk (Except InternalIatHookError ℕ) := do
  match _inside : rvaToPtr image 20 descRva with
  | none => return .error .malformedImportDirectory
  | some ptr => do
    touch ptr 20
    if (importDescriptorAt mem ptr).name = 0 then return .error notFound
    else do
      match ← cStrBytes mem image (importDescriptorAt mem ptr).name with
      | none => return .error .malformedImportDirectory
      | some name =>
        if eqIgnoreAsciiCase name dll then do
          match ← findThunkInDescriptor mem image (importDescriptorAt mem ptr) target with
          | .ok thunk => return .ok thunk
          | .error .targetNotFound => findImportThunk dll target notFound (descRva + 20)
          | .error e => findImportThunk dll target e (descRva + 20)
        else findImportThunk dll target notFound (descRva + 20)
termination_by image.size - descRva
decreasing_by
  all_goals
    have := rvaToPtr_eq_some.mp _inside
    omega

/-- `find_import_address` of an image whose headers are valid. -/
def findImportAddress (dll target : List UInt8) : Walk (Except InternalIatHookError ℕ) := do
  match ← dataDirectoryRva mem image 1 with
  | none => return .error .noImportDirectory
  | some rva => findImportThunk mem image dll target .targetNotFound rva

end Walks

/-! ### The table behind the walks -/

/-- An import: its descriptor, its lookup word and the offset of both its words in their tables. -/
structure ImportEntry where
  descriptor : ImportDescriptor
  lookup : ℕ
  offset : ℕ
  deriving DecidableEq

section Table

variable (mem : ℕ → UInt8) (image : ModuleImage)

/-- The lookup words up to the terminator or the end of the image, with their offsets. -/
def lookups (lookupBase offset : ℕ) : List (ℕ × ℕ) :=
  match _inside : rvaToPtr image 8 (lookupBase + offset) with
  | none => []
  | some ptr =>
    if number mem ptr 8 = 0 then []
    else (number mem ptr 8, offset) :: lookups lookupBase (offset + 8)
termination_by image.size - (lookupBase + offset)
decreasing_by
  have := rvaToPtr_eq_some.mp _inside
  omega

/-- The descriptors up to the terminator or the end of the image. -/
def descriptorsFrom (descRva : ℕ) : List ImportDescriptor :=
  match _inside : rvaToPtr image 20 descRva with
  | none => []
  | some ptr =>
    if (importDescriptorAt mem ptr).name = 0 then []
    else importDescriptorAt mem ptr :: descriptorsFrom (descRva + 20)
termination_by image.size - descRva
decreasing_by
  have := rvaToPtr_eq_some.mp _inside
  omega

def importDescriptors : List ImportDescriptor :=
  match (dataDirectoryRva mem image 1).value with
  | none => []
  | some rva => descriptorsFrom mem image rva

/-- The name of the DLL, if it can be read. -/
def dllName (d : ImportDescriptor) : Option (List UInt8) := (readCString mem image d.name).value

/-- The descriptors in front of the first DLL name that cannot be read. -/
def readableDescriptors : List ImportDescriptor :=
  (importDescriptors mem image).takeWhile fun d => (dllName mem image d).isSome

def entriesOf (d : ImportDescriptor) : List ImportEntry :=
  if d.lookupBase ≠ 0 then
    (lookups mem image d.lookupBase 0).map fun word => ⟨d, word.1, word.2⟩
  else []

/-- The imports of the image. -/
def importTable : List ImportEntry := (readableDescriptors mem image).flatMap (entriesOf mem image)

/-- What is reported of an import. -/
def ImportEntry.toImport (e : ImportEntry) : ImportInfo :=
  (importAt mem image ((dllName mem image e.descriptor).getD []) e.descriptor e.lookup
    e.offset).value

/-- The address of the slot of an import. -/
def ImportEntry.slot (e : ImportEntry) : ℕ :=
  image.baseAddress + e.descriptor.firstThunk + e.offset

/-- The search goes past the import: its slot lies inside the image and its name, if it has one,
ends inside the image. -/
def ImportEntry.legible (e : ImportEntry) : Bool :=
  (rvaToPtr image 8 (e.descriptor.firstThunk + e.offset)).isSome &&
    (isOrdinal e.lookup || (cStrBytes mem image (e.lookup + 2)).value.isSome)

/-- The imports of a descriptor that the search reaches. -/
def searchedEntries (d : ImportDescriptor) : List ImportEntry :=
  if d.firstThunk ≠ 0 ∧ d.originalFirstThunk ≠ 0 then
    (entriesOf mem image d).takeWhile fun e => e.legible mem image
  else []

/-- The imports that the search reaches. -/
def searchTable : List ImportEntry :=
  (readableDescriptors mem image).flatMap (searchedEntries mem image)

/-- The import has the DLL name, ASCII case aside, and the function name. -/
def ImportEntry.wanted (dll func : List UInt8) (e : ImportEntry) : Bool :=
  eqIgnoreAsciiCase (e.toImport mem image).dll dll && (e.toImport mem image).name == some func

end Table

section Views

variable {mem : ℕ → UInt8} {image : ModuleImage}

theorem walkThunks_outside {β : Type} {visit : ℕ → ℕ → Walk β} {lookupBase offset : ℕ}
    (outside : rvaToPtr image 8 (lookupBase + offset) = none) :
    walkThunks mem image visit lookupBase offset = (do
      let _ ← plus lookupBase offset
      return []) := by
  rw [walkThunks]
  refine bind_congr fun _ => ?_
  split
  · rfl
  · rename_i inside
    rw [outside] at inside
    cases inside

theorem walkThunks_inside {β : Type} {visit : ℕ → ℕ → Walk β} {lookupBase offset ptr : ℕ}
    (inside : rvaToPtr image 8 (lookupBase + offset) = some ptr) :
    walkThunks mem image visit lookupBase offset = (do
      let _ ← plus lookupBase offset
      let lookup ← load mem ptr 8
      if lookup = 0 then return []
      else do
        let entry ← visit lookup offset
        let _ ← plus offset 8
        let rest ← walkThunks mem image visit lookupBase (offset + 8)
        return entry :: rest) := by
  rw [walkThunks]
  refine bind_congr fun _ => ?_
  split
  · rename_i outside
    rw [inside] at outside
    cases outside
  · rename_i ptr' inside'
    obtain rfl : ptr = ptr' := Option.some.inj (inside.symm.trans inside')
    rfl

theorem walkDescriptors_outside {β : Type} {visit : List UInt8 → ImportDescriptor → Walk (List β)}
    {unreadable : Option (List β)} {descRva : ℕ} (outside : rvaToPtr image 20 descRva = none) :
    walkDescriptors mem image visit unreadable descRva = pure (some []) := by
  rw [walkDescriptors]
  split
  · rfl
  · rename_i inside
    rw [outside] at inside
    cases inside

theorem walkDescriptors_inside {β : Type} {visit : List UInt8 → ImportDescriptor → Walk (List β)}
    {unreadable : Option (List β)} {descRva ptr : ℕ}
    (inside : rvaToPtr image 20 descRva = some ptr) :
    walkDescriptors mem image visit unreadable descRva = (do
      touch ptr 20
      if (importDescriptorAt mem ptr).name = 0 then return some []
      else do
        match ← readCString mem image (importDescriptorAt mem ptr).name with
        | none => return unreadable
        | some dll => do
          let here ← visit dll (importDescriptorAt mem ptr)
          let _ ← plus descRva 20
          let rest ← walkDescriptors mem image visit unreadable (descRva + 20)
          return rest.map (here ++ ·)) := by
  rw [walkDescriptors]
  split
  · rename_i outside
    rw [inside] at outside
    cases outside
  · rename_i ptr' inside'
    obtain rfl : ptr = ptr' := Option.some.inj (inside.symm.trans inside')
    rfl

/-- The loop over a descriptor visits its lookup words. -/
theorem walkThunks_value {β : Type} (visit : ℕ → ℕ → Walk β) (lookupBase offset : ℕ) :
    (walkThunks mem image visit lookupBase offset).value =
      (lookups mem image lookupBase offset).map fun word => (visit word.1 word.2).value := by
  fun_induction lookups mem image lookupBase offset with
  | case1 offset outside =>
    rw [walkThunks_outside outside, Logged.value_bind]
    rfl
  | case2 offset ptr inside zero =>
    rw [walkThunks_inside inside, Logged.value_bind]
    rw [Logged.value_bind, load_value, if_pos zero]
    rfl
  | case3 offset ptr inside used ih =>
    rw [walkThunks_inside inside, Logged.value_bind]
    rw [Logged.value_bind, load_value, if_neg used, List.map_cons, ← ih]
    rfl

/-- The loop over the descriptors visits those with a readable DLL name, and ends as told at the
first other one. -/
theorem walkDescriptors_value {β : Type} (visit : List UInt8 → ImportDescriptor → Walk (List β))
    (unreadable : Option (List β)) (descRva : ℕ) :
    (walkDescriptors mem image visit unreadable descRva).value =
      (if (descriptorsFrom mem image descRva).all fun d => (dllName mem image d).isSome then some []
        else unreadable).map
        ((((descriptorsFrom mem image descRva).takeWhile fun d =>
          (dllName mem image d).isSome).flatMap fun d =>
            (visit ((dllName mem image d).getD []) d).value) ++ ·) := by
  fun_induction descriptorsFrom mem image descRva with
  | case1 descRva outside =>
    rw [walkDescriptors_outside outside]
    rfl
  | case2 descRva ptr inside zero =>
    rw [walkDescriptors_inside inside]
    rw [Logged.value_bind, if_pos zero]
    rfl
  | case3 descRva ptr inside used ih =>
    rw [walkDescriptors_inside inside]
    rw [Logged.value_bind, if_neg used, Logged.value_bind]
    have name : (readCString mem image (importDescriptorAt mem ptr).name).value =
        dllName mem image (importDescriptorAt mem ptr) := rfl
    rw [name]
    cases read : dllName mem image (importDescriptorAt mem ptr) with
    | none => simp [read]
    | some dll =>
      simp only [Logged.value_bind, Logged.value_pure, ih, List.all_cons, read,
        Option.isSome_some, Bool.true_and, List.takeWhile_cons_of_pos, List.flatMap_cons,
        Option.getD_some, Option.map_map]
      congr 1
      funext rest
      simp [List.append_assoc]

theorem descriptorThunks_value {β : Type} (visit : ℕ → ℕ → Walk β) (d : ImportDescriptor) :
    (descriptorThunks mem image visit d).value =
      (entriesOf mem image d).map fun e => (visit e.lookup e.offset).value := by
  unfold descriptorThunks entriesOf
  split_ifs with table
  · rw [walkThunks_value, List.map_map]
    rfl
  · rfl

theorem descriptor_of_mem {d : ImportDescriptor} {e : ImportEntry}
    (there : e ∈ entriesOf mem image d) : e.descriptor = d := by
  unfold entriesOf at there
  split_ifs at there with table
  · obtain ⟨word, _, rfl⟩ := List.mem_map.mp there
    rfl
  · cases there

/-- `enumerate_imports` lists the import table. -/
theorem importsOf_value :
    (importsOf mem image).value =
      (importTable mem image).map fun e => e.toImport mem image := by
  unfold importsOf importTable readableDescriptors importDescriptors
  rw [Logged.value_bind]
  cases directory : (dataDirectoryRva mem image 1).value with
  | none => rfl
  | some rva =>
    simp only [Logged.value_bind, Logged.value_pure, walkDescriptors_value, ite_self,
      Option.map_some, Option.getD_some, List.append_nil, List.map_flatMap]
    refine List.flatMap_congr fun d _ => ?_
    rw [descriptorThunks_value]
    refine List.map_congr_left fun e there => ?_
    rw [← descriptor_of_mem there]
    rfl

/-- `import_slots` lists the slots of the import table, if every DLL name can be read. -/
theorem importSlotsOf_value :
    (importSlotsOf mem image).value =
      if ((dataDirectoryRva mem image 1).value.isSome &&
          (importDescriptors mem image).all fun d => (dllName mem image d).isSome) then
        some ((importTable mem image).map fun e => e.slot image)
      else none := by
  unfold importSlotsOf importTable readableDescriptors importDescriptors
  rw [Logged.value_bind]
  cases directory : (dataDirectoryRva mem image 1).value with
  | none => rfl
  | some rva =>
    simp only [Option.isSome_some, Bool.true_and, walkDescriptors_value]
    split_ifs with readable
    · simp only [Option.map_some, List.append_nil, List.map_flatMap, Option.some.injEq]
      refine List.flatMap_congr fun d _ => ?_
      rw [descriptorThunks_value]
      refine List.map_congr_left fun e there => ?_
      rw [← descriptor_of_mem there]
      rfl
    · rfl

/-! ### The search -/

/-- The name of the import is the target, as bytes. -/
def ImportEntry.named (mem : ℕ → UInt8) (image : ModuleImage) (target : List UInt8)
    (e : ImportEntry) : Bool :=
  !isOrdinal e.lookup && (cStrBytes mem image (e.lookup + 2)).value == some target

theorem thunkNamed_value (target : List UInt8) (lookup : ℕ) :
    (thunkNamed mem image target lookup).value =
      if isOrdinal lookup then some false
      else (cStrBytes mem image (lookup + 2)).value.map (· == target) := by
  unfold thunkNamed
  split_ifs with ordinal
  · rfl
  · have small : lookup + 2 < 2 ^ 64 := by
      simp only [isOrdinal, decide_eq_true_eq, not_le] at ordinal
      omega
    rw [Logged.value_bind]
    unfold readImportName checkedAdd
    rw [if_pos small]
    simp only
    cases (cStrBytes mem image (lookup + 2)).value <;> rfl

theorem findThunk_outside {target : List UInt8} {thunkRva originalRva : ℕ}
    (outside : rvaToPtr image 8 originalRva = none) :
    findThunk mem image target thunkRva originalRva =
      pure (.error .malformedImportDirectory) := by
  rw [findThunk]
  cases rvaToPtr image 8 thunkRva with
  | none => rfl
  | some thunk =>
    simp only
    split
    · rfl
    · rename_i inside
      rw [outside] at inside
      cases inside

theorem findThunk_inside {target : List UInt8} {thunkRva originalRva original : ℕ}
    (inside : rvaToPtr image 8 originalRva = some original) :
    findThunk mem image target thunkRva originalRva =
      match rvaToPtr image 8 thunkRva with
      | none => pure (.error .malformedImportDirectory)
      | some thunk => (thunkTurn mem image target thunk original).orElse
          (findThunk mem image target (thunkRva + 8) (originalRva + 8)) := by
  rw [findThunk]
  cases rvaToPtr image 8 thunkRva with
  | none => rfl
  | some thunk =>
    simp only
    split
    · rename_i outside
      rw [inside] at outside
      cases outside
    · rename_i original' inside'
      obtain rfl : original = original' := Option.some.inj (inside.symm.trans inside')
      rfl

/-- The loop of `find_thunk_in_descriptor` goes to the first import with the name, as far as the
imports are legible. -/
theorem findThunk_value (target : List UInt8) (d : ImportDescriptor) (offset : ℕ) :
    (findThunk mem image target (d.firstThunk + offset)
        (d.originalFirstThunk + offset)).value.toOption =
      ((((lookups mem image d.originalFirstThunk offset).map fun word =>
        (⟨d, word.1, word.2⟩ : ImportEntry)).takeWhile fun e => e.legible mem image).find?
          fun e => e.named mem image target).map fun e => e.slot image := by
  fun_induction lookups mem image d.originalFirstThunk offset with
  | case1 offset outside =>
    rw [findThunk_outside outside]
    cases rvaToPtr image 8 (d.firstThunk + offset) with
    | none => rfl
    | some thunk =>
      rfl
  | case2 offset ptr inside zero =>
    rw [findThunk_inside inside]
    cases rvaToPtr image 8 (d.firstThunk + offset) with
    | none => rfl
    | some thunk =>
      rw [Logged.value_orElse, thunkTurn, Logged.value_bind, load_value, if_pos zero]
      rfl
  | case3 offset ptr inside used ih =>
    rw [findThunk_inside inside, List.map_cons]
    cases slot : rvaToPtr image 8 (d.firstThunk + offset) with
    | none =>
      rw [List.takeWhile_cons_of_neg (by simp [ImportEntry.legible, slot])]
      rfl
    | some thunk =>
      have place : thunk = image.baseAddress + (d.firstThunk + offset) :=
        (rvaToPtr_eq_some.mp slot).2.2.2.2.2
      rw [Logged.value_orElse, thunkTurn, Logged.value_bind, load_value, if_neg used,
        Logged.value_bind, thunkNamed_value]
      by_cases ordinal : isOrdinal (number mem ptr 8) = true
      · rw [if_pos ordinal,
          List.takeWhile_cons_of_pos (by simp [ImportEntry.legible, slot, ordinal]),
          List.find?_cons_of_neg (by simp [ImportEntry.named, ordinal]), ← ih]
        rfl
      · rw [if_neg ordinal]
        cases name : (cStrBytes mem image (number mem ptr 8 + 2)).value with
        | none =>
          rw [List.takeWhile_cons_of_neg (by simp [ImportEntry.legible, ordinal, name])]
          rfl
        | some bytes =>
          rw [List.takeWhile_cons_of_pos (by simp [ImportEntry.legible, slot, name])]
          by_cases same : bytes = target
          · rw [List.find?_cons_of_pos (by simp [ImportEntry.named, ordinal, name, same])]
            simp [same, ImportEntry.slot, place, Nat.add_assoc, Except.toOption]
          · rw [List.find?_cons_of_neg (by simp [ImportEntry.named, name, same]), ← ih]
            simp [same, Nat.add_assoc]

theorem findThunkInDescriptor_value (d : ImportDescriptor) (target : List UInt8) :
    (findThunkInDescriptor mem image d target).value.toOption =
      ((searchedEntries mem image d).find? fun e => e.named mem image target).map
        fun e => e.slot image := by
  unfold findThunkInDescriptor searchedEntries
  by_cases iat : d.firstThunk = 0
  · rw [if_pos iat, if_neg (by simp [iat])]
    rfl
  · by_cases names : d.originalFirstThunk = 0
    · rw [if_neg iat, if_pos names, if_neg (by simp [names])]
      rfl
    · have table : entriesOf mem image d =
          (lookups mem image d.originalFirstThunk 0).map fun word => ⟨d, word.1, word.2⟩ := by
        unfold entriesOf ImportDescriptor.lookupBase
        rw [if_pos names, if_pos names]
      rw [if_neg iat, if_neg names, if_pos ⟨iat, names⟩, table]
      exact findThunk_value target d 0

theorem findImportThunk_outside {dll target : List UInt8} {notFound : InternalIatHookError}
    {descRva : ℕ} (outside : rvaToPtr image 20 descRva = none) :
    findImportThunk mem image dll target notFound descRva =
      pure (.error .malformedImportDirectory) := by
  rw [findImportThunk]
  split
  · rfl
  · rename_i inside
    rw [outside] at inside
    cases inside

theorem findImportThunk_inside {dll target : List UInt8} {notFound : InternalIatHookError}
    {descRva ptr : ℕ} (inside : rvaToPtr image 20 descRva = some ptr) :
    findImportThunk mem image dll target notFound descRva = (do
      touch ptr 20
      if (importDescriptorAt mem ptr).name = 0 then return .error notFound
      else do
        match ← cStrBytes mem image (importDescriptorAt mem ptr).name with
        | none => return .error .malformedImportDirectory
        | some name =>
          if eqIgnoreAsciiCase name dll then do
            match ← findThunkInDescriptor mem image (importDescriptorAt mem ptr) target with
            | .ok thunk => return .ok thunk
            | .error .targetNotFound =>
              findImportThunk mem image dll target notFound (descRva + 20)
            | .error e => findImportThunk mem image dll target e (descRva + 20)
          else findImportThunk mem image dll target notFound (descRva + 20)) := by
  rw [findImportThunk]
  split
  · rename_i outside
    rw [inside] at outside
    cases outside
  · rename_i ptr' inside'
    obtain rfl : ptr = ptr' := Option.some.inj (inside.symm.trans inside')
    rfl

/-- The loop of `find_import_thunk` goes to the first import with the name in a descriptor of the
DLL, as far as the names of the DLLs can be read. -/
theorem findImportThunk_value (dll target : List UInt8) (notFound : InternalIatHookError)
    (descRva : ℕ) :
    (findImportThunk mem image dll target notFound descRva).value.toOption =
      ((descriptorsFrom mem image descRva).takeWhile fun d =>
        (cStrBytes mem image d.name).value.isSome).findSome? fun d =>
          if eqIgnoreAsciiCase ((cStrBytes mem image d.name).value.getD []) dll then
            ((searchedEntries mem image d).find? fun e => e.named mem image target).map
              fun e => e.slot image
          else none := by
  fun_induction descriptorsFrom mem image descRva generalizing notFound with
  | case1 descRva outside =>
    rw [findImportThunk_outside outside]
    rfl
  | case2 descRva ptr inside zero =>
    rw [findImportThunk_inside inside]
    rw [Logged.value_bind, if_pos zero]
    rfl
  | case3 descRva ptr inside used ih =>
    rw [findImportThunk_inside inside]
    rw [Logged.value_bind, if_neg used, Logged.value_bind]
    cases name : (cStrBytes mem image (importDescriptorAt mem ptr).name).value with
    | none =>
      rw [List.takeWhile_cons_of_neg (by simp [name])]
      rfl
    | some bytes =>
      rw [List.takeWhile_cons_of_pos (by simp [name]), List.findSome?_cons, name]
      simp only [Option.getD_some]
      split_ifs with same
      · rw [← findThunkInDescriptor_value, Logged.value_bind]
        cases (findThunkInDescriptor mem image (importDescriptorAt mem ptr) target).value with
        | ok thunk => rfl
        | error e => cases e <;> exact ih _
      · exact ih notFound

variable (mem image)

/-- Every DLL name that ends inside the image is UTF-8. -/
def Utf8DllNames : Prop :=
  ∀ d ∈ importDescriptors mem image, ∀ bytes,
    (cStrBytes mem image d.name).value = some bytes → validUtf8 bytes = true

variable {mem image}

theorem readCString_eq_some {rva : ℕ} {name : List UInt8} :
    (readCString mem image rva).value = some name ↔
      (cStrBytes mem image rva).value = some name ∧ validUtf8 name = true := by
  unfold readCString
  rw [Logged.value_bind]
  cases (cStrBytes mem image rva).value with
  | none => simp
  | some bytes =>
    by_cases valid : validUtf8 bytes = true
    · simp only [valid, if_true, Logged.value_pure, Option.some.injEq]
      constructor
      · rintro rfl
        exact ⟨rfl, valid⟩
      · exact And.left
    · simp only [valid, Logged.value_pure, Option.some.injEq]
      constructor
      · nofun
      · rintro ⟨rfl, valid'⟩
        exact absurd valid' valid

/-- A name searched for is UTF-8, so the import is listed with it exactly when its bytes are the
name. -/
theorem wanted_eq {dll func : List UInt8} (valid : validUtf8 func = true) (e : ImportEntry) :
    e.wanted mem image dll func =
      (eqIgnoreAsciiCase ((dllName mem image e.descriptor).getD []) dll &&
        e.named mem image func) := by
  have name : ((e.toImport mem image).name == some func) = e.named mem image func := by
    have listed : (e.toImport mem image).name = (importName mem image e.lookup).value.1 := rfl
    rw [listed, Bool.eq_iff_iff, beq_iff_eq]
    unfold importName ImportEntry.named
    split_ifs with ordinal
    · simp [ordinal]
    · have read : (readCString mem image (e.lookup + 2)).value = some func ↔
          (cStrBytes mem image (e.lookup + 2)).value = some func := by
        rw [readCString_eq_some]
        exact ⟨And.left, fun same => ⟨same, valid⟩⟩
      simpa [ordinal, plus] using read
  unfold ImportEntry.wanted
  rw [name]
  rfl

/-- The search over a list of descriptors with UTF-8 names. -/
theorem search_eq {dll func : List UInt8} (valid : validUtf8 func = true)
    {ds : List ImportDescriptor}
    (utf8 : ∀ d ∈ ds, ∀ bytes, (cStrBytes mem image d.name).value = some bytes →
      validUtf8 bytes = true) :
    ((ds.takeWhile fun d => (cStrBytes mem image d.name).value.isSome).findSome? fun d =>
        if eqIgnoreAsciiCase ((cStrBytes mem image d.name).value.getD []) dll then
          ((searchedEntries mem image d).find? fun e => e.named mem image func).map
            fun e => e.slot image
        else none) =
      (((ds.takeWhile fun d => (dllName mem image d).isSome).flatMap
        (searchedEntries mem image)).find? fun e => e.wanted mem image dll func).map
          fun e => e.slot image := by
  induction ds with
  | nil => rfl
  | cons d rest ih =>
    have later := ih fun d there => utf8 d (List.mem_cons_of_mem _ there)
    have same : dllName mem image d = (cStrBytes mem image d.name).value := by
      cases read : (cStrBytes mem image d.name).value with
      | none =>
        rw [Option.eq_none_iff_forall_ne_some]
        intro name there
        have := (readCString_eq_some.mp there).1
        rw [read] at this
        cases this
      | some bytes =>
        exact readCString_eq_some.mpr ⟨read, utf8 d List.mem_cons_self bytes read⟩
    cases read : (cStrBytes mem image d.name).value with
    | none =>
      rw [List.takeWhile_cons_of_neg (by simp [read]),
        List.takeWhile_cons_of_neg (by simp [same, read])]
      rfl
    | some name =>
      rw [List.takeWhile_cons_of_pos (by simp [read]),
        List.takeWhile_cons_of_pos (by simp [same, read]), List.findSome?_cons, read,
        List.flatMap_cons, List.find?_append, later]
      have here : ((searchedEntries mem image d).find? fun e => e.wanted mem image dll func) =
          if eqIgnoreAsciiCase name dll then
            (searchedEntries mem image d).find? fun e => e.named mem image func
          else none := by
        have descriptor : ∀ e ∈ searchedEntries mem image d, e.wanted mem image dll func =
            (eqIgnoreAsciiCase name dll && e.named mem image func) := by
          intro e there
          have own : e.descriptor = d := by
            unfold searchedEntries at there
            split_ifs at there with tables
            · exact descriptor_of_mem ((List.takeWhile_sublist _).mem there)
            · cases there
          rw [wanted_eq valid, own, same, read, Option.getD_some]
        rw [List.find?_congr descriptor]
        split_ifs with matching
        · simp [matching]
        · simp [matching]
      rw [here, Option.getD_some]
      split_ifs with matching
      · cases (searchedEntries mem image d).find? fun e => e.named mem image func <;> rfl
      · rfl

/-- `find_import_address` goes to the first import it reaches with the two names. -/
theorem findImportAddress_value (utf8 : Utf8DllNames mem image) (dll : List UInt8)
    {func : List UInt8} (valid : validUtf8 func = true) :
    (findImportAddress mem image dll func).value.toOption =
      ((searchTable mem image).find? fun e => e.wanted mem image dll func).map
        fun e => e.slot image := by
  unfold Utf8DllNames importDescriptors at utf8
  unfold findImportAddress searchTable readableDescriptors importDescriptors
  rw [Logged.value_bind]
  cases directory : (dataDirectoryRva mem image 1).value with
  | none => rfl
  | some rva =>
    rw [directory] at utf8
    simp only
    rw [findImportThunk_value]
    exact search_eq valid utf8

/-- An import is reported with the word in its slot. -/
theorem toImport_address (mapped : image.Mapped) (e : ImportEntry) :
    (e.toImport mem image).address =
      if image.baseAddress < e.slot image ∧
          e.slot image + 8 ≤ image.baseAddress + image.size then number mem (e.slot image) 8
      else 0 := by
  have base := mapped.base_lt
  have size := mapped.size_lt
  have address : (e.toImport mem image).address =
      (readUsize mem image (e.descriptor.firstThunk + e.offset)).value.getD 0 := rfl
  rw [address]
  unfold readUsize ImportEntry.slot
  split_ifs with inside
  · have place : rvaToPtr image 8 (e.descriptor.firstThunk + e.offset) =
        some (image.baseAddress + e.descriptor.firstThunk + e.offset) :=
      rvaToPtr_eq_some.mpr ⟨by omega, by omega, by omega, by omega, by omega, by omega⟩
    rw [place]
    rfl
  · have place : rvaToPtr image 8 (e.descriptor.firstThunk + e.offset) = none := by
      rw [Option.eq_none_iff_forall_ne_some]
      intro ptr there
      have := rvaToPtr_eq_some.mp there
      omega
    rw [place]
    rfl

variable (mem image)

/-- How the three walks fit together.  The imports and, when there are any, the slots go through
the import table in its order; an import has the word in its slot as its address, unless the slot is
the start of the image or does not lie inside it; and the search finds the slot of the first import
with the two names that it reaches. -/
structure ImportViews : Prop where
  listed : (importsOf mem image).value = (importTable mem image).map fun e => e.toImport mem image
  slots : ∀ slots, (importSlotsOf mem image).value = some slots →
    slots = (importTable mem image).map fun e => e.slot image
  address : ∀ e ∈ importTable mem image, (e.toImport mem image).address =
    if image.baseAddress < e.slot image ∧ e.slot image + 8 ≤ image.baseAddress + image.size then
      number mem (e.slot image) 8
    else 0
  present : (importsOf mem image).value ≠ [] →
    (∀ d ∈ importDescriptors mem image, (dllName mem image d).isSome) →
    (importSlotsOf mem image).value.isSome
  first : Utf8DllNames mem image → ∀ dll func slot, validUtf8 func = true →
    (findImportAddress mem image dll func).value = .ok slot →
    ∃ e, ((searchTable mem image).find? fun e => e.wanted mem image dll func) = some e ∧
      e.slot image = slot

variable {mem image}

/-- The walks over the imports of a mapped image fit together. -/
theorem imports_fit (mapped : image.Mapped) : ImportViews mem image := by
  refine ⟨importsOf_value, ?_, fun e _ => toImport_address mapped e, ?_, ?_⟩
  · intro slots found
    rw [importSlotsOf_value] at found
    split_ifs at found with readable
    exact (Option.some.inj found).symm
  · intro listed readable
    have directory : (dataDirectoryRva mem image 1).value.isSome = true := by
      cases absent : (dataDirectoryRva mem image 1).value with
      | some rva => rfl
      | none =>
        rw [importsOf_value] at listed
        unfold importTable readableDescriptors importDescriptors at listed
        rw [absent] at listed
        exact absurd rfl listed
    have all : ((importDescriptors mem image).all fun d => (dllName mem image d).isSome) = true :=
      List.all_eq_true.mpr readable
    rw [importSlotsOf_value, directory, all]
    rfl
  · intro utf8 dll func slot valid found
    have value := findImportAddress_value utf8 dll valid
    rw [found] at value
    obtain ⟨e, there, place⟩ := Option.map_eq_some_iff.mp value.symm
    exact ⟨e, there, place⟩

end Views

/-- The bytes of an image at `0x10000` that imports `F` from `A` in three descriptors: behind a
name outside the image, alone, and without an IAT. -/
def sampleImports (a : ℕ) : UInt8 :=
  ([(0x00, 0x4D), (0x01, 0x5A), (0x3C, 0x40), (0xC4, 2), (0xD1, 0x02),
    (0x200, 0x80), (0x201, 0x02), (0x20C, 0xE0), (0x20D, 0x02), (0x210, 0xA0), (0x211, 0x02),
    (0x214, 0x00), (0x215, 0x03), (0x220, 0xE0), (0x221, 0x02), (0x224, 0x10), (0x225, 0x03),
    (0x228, 0x20), (0x229, 0x03), (0x234, 0xE0), (0x235, 0x02),
    (0x281, 0x10), (0x288, 0xF0), (0x289, 0x02), (0x2A8, 1),
    (0x2E0, 0x41), (0x2F2, 0x46), (0x300, 0xF0), (0x301, 0x02), (0x310, 2),
    (0x320, 0xF0), (0x321, 0x02)].lookup (a - 0x10000)).getD 0

def importImage : ModuleImage := ⟨0x10000, 0x400⟩

theorem sampleImports_fit : ImportViews sampleImports importImage :=
  imports_fit ⟨by decide, by decide⟩

/-- The search passes over the first descriptor, which also imports `F` from `A`, for the second;
and the import without an IAT has the address null, with its slot at the start of the image. -/
theorem import_passed_over :
    Utf8DllNames sampleImports importImage ∧
    (findImportAddress sampleImports importImage [0x61] [0x46]).value = .ok 0x10310 ∧
    (((importTable sampleImports importImage).filter fun e =>
      e.descriptor.firstThunk ≠ 0 ∧ e.descriptor.originalFirstThunk ≠ 0).find? fun e =>
        e.wanted sampleImports importImage [0x61] [0x46]).map (fun e => e.slot importImage) =
      some 0x102A8 ∧
    (importSlotsOf sampleImports importImage).value = some [0x102A0, 0x102A8, 0x10310, 0x10000] ∧
    (importsOf sampleImports importImage).value.map ImportInfo.address = [0, 1, 2, 0] ∧
    number sampleImports 0x10000 8 = 0x5A4D := by
  refine ⟨?_, by decide +kernel, by decide +kernel, by decide +kernel, by decide +kernel,
    by decide +kernel⟩
  have names : ∀ d ∈ importDescriptors sampleImports importImage,
      (cStrBytes sampleImports importImage d.name).value = some [0x41] := by decide +kernel
  intro d there bytes read
  rw [names d there] at read
  rw [← Option.some.inj read]
  decide

end Pe

end NeoHook
