import NeoHook.PeExports
import NeoHook.PeImports

/-!
# Bounds of the walks over an image

What the walks over the tables of an image read, whatever the image holds.  Once the headers are
valid, every read lies inside the image, or in the two headers, which the check of the headers found
readable; `SizeOfImage` is not compared with the headers, so these need not lie inside the image.
The sums formed without a check stay below `2 ^ 64`.

The walks are total functions: each loop runs at most once for each position of the image, or
for each entry of a counted table.
-/

namespace NeoHook

namespace Pe

/-- The NT headers of the module at an address. -/
def ntAddress (mem : ℕ → UInt8) (baseAddress : ℕ) : ℕ :=
  baseAddress + number mem (baseAddress + 0x3C) 4

/-- The bytes lie in the DOS header or in the NT headers. -/
def InHeaders (mem : ℕ → UInt8) (baseAddress addr len : ℕ) : Prop :=
  (baseAddress ≤ addr ∧ addr + len ≤ baseAddress + dosHeaderSize) ∨
    (ntAddress mem baseAddress ≤ addr ∧ addr + len ≤ ntAddress mem baseAddress + ntHeadersSize)

/-- The bytes lie inside the image. -/
def ModuleImage.Contains (image : ModuleImage) (addr len : ℕ) : Prop :=
  image.baseAddress ≤ addr ∧ addr + len ≤ image.baseAddress + image.size

/-- A read inside the image, or a sum that fits an address. -/
def InImage (image : ModuleImage) : Access → Prop
  | .read addr len => image.Contains addr len
  | .sum value => value < 2 ^ 64

/-- A read inside the image or its headers, or a sum that fits an address. -/
def Bounded (mem : ℕ → UInt8) (image : ModuleImage) : Access → Prop
  | .read addr len => image.Contains addr len ∨ InHeaders mem image.baseAddress addr len
  | .sum value => value < 2 ^ 64

theorem InImage.bounded {mem : ℕ → UInt8} {image : ModuleImage} :
    ∀ e, InImage image e → Bounded mem image e
  | .read _ _, inside => .inl inside
  | .sum _, small => small

theorem bounded_nt {mem : ℕ → UInt8} {image : ModuleImage} {addr len : ℕ}
    (lower : ntAddress mem image.baseAddress ≤ addr)
    (upper : addr + len ≤ ntAddress mem image.baseAddress + 264) :
    Bounded mem image (.read addr len) := .inr (.inr ⟨lower, upper⟩)

/-! ### Steps -/

section Steps

variable {P : Access → Prop} {mem : ℕ → UInt8}

theorem all_touch {addr len : ℕ} (inside : P (.read addr len)) : (touch addr len).All P :=
  Logged.all_tell inside

theorem all_plus {a b : ℕ} (small : P (.sum (a + b))) : (plus a b).All P :=
  (Logged.all_tell small).bind (Logged.all_pure _)

theorem all_load {addr len : ℕ} (inside : P (.read addr len)) : (load mem addr len).All P :=
  (all_touch inside).bind (Logged.all_pure _)

theorem number_lt (mem : ℕ → UInt8) (addr len : ℕ) : number mem addr len < 256 ^ len := by
  have := ByteMap.ofLeBytes_lt (ByteMap.read mem addr len)
  rwa [ByteMap.length_read] at this

variable {image : ModuleImage}

theorem contains_rvaToPtr {size rva ptr : ℕ} (inside : rvaToPtr image size rva = some ptr) :
    image.Contains ptr size := by
  obtain ⟨_, _, _, fits, _, rfl⟩ := rvaToPtr_eq_some.mp inside
  exact ⟨by omega, by omega⟩

/-- The loop over a string reads below its end. -/
theorem all_cStrFrom {start stop cur : ℕ} (lower : image.baseAddress ≤ cur)
    (upper : stop ≤ image.baseAddress + image.size) :
    (cStrFrom mem start stop cur).All (InImage image) := by
  fun_induction cStrFrom mem start stop cur with
  | case1 cur more ih =>
    refine (all_load ⟨lower, by omega⟩).bind ?_
    split_ifs with zero
    · exact Logged.all_pure _
    · exact ih (by omega)
  | case2 cur done => exact Logged.all_pure _

theorem all_cStrBytes (rva : ℕ) : (cStrBytes mem image rva).All (InImage image) := by
  unfold cStrBytes checkedAdd
  split_ifs with outside start stop
  · exact Logged.all_pure _
  · exact all_cStrFrom (by omega) le_rfl
  all_goals exact Logged.all_pure _

theorem all_readCString (rva : ℕ) : (readCString mem image rva).All (InImage image) := by
  unfold readCString
  refine (all_cStrBytes rva).bind ?_
  cases (cStrBytes mem image rva).value with
  | none => exact Logged.all_pure _
  | some bytes => exact Logged.all_pure _

theorem all_readElement (width baseRva index : ℕ) :
    (readElement mem image width baseRva index).All (InImage image) := by
  unfold readElement
  split
  · exact Logged.all_pure _
  · split
    · exact Logged.all_pure _
    · split
      · exact Logged.all_pure _
      · rename_i ptr inside
        exact (all_load (contains_rvaToPtr inside)).bind (Logged.all_pure _)

theorem all_readUsize (rva : ℕ) : (readUsize mem image rva).All (InImage image) := by
  unfold readUsize
  split
  · exact Logged.all_pure _
  · rename_i ptr inside
    exact (all_load (contains_rvaToPtr inside)).bind (Logged.all_pure _)

end Steps

/-! ### Exports -/

section Exports

variable {mem : ℕ → UInt8} {image : ModuleImage} (x : Exports)

theorem all_slotOfName (i : ℕ) : (slotOfName mem image x i).All (InImage image) := by
  unfold slotOfName
  refine (all_readElement 2 _ _).bind ?_
  split
  · exact Logged.all_pure _
  · split_ifs with large
    · exact Logged.all_pure _
    · split
      · exact Logged.all_pure _
      · split
        · exact Logged.all_pure _
        · rename_i slot inside
          exact (all_load (contains_rvaToPtr inside)).bind (Logged.all_pure _)

theorem all_findName (target : List UInt8) (positions : List ℕ) :
    (findName mem image x target positions).All (InImage image) := by
  induction positions with
  | nil => exact Logged.all_pure _
  | cons i rest ih =>
    refine (all_readElement 4 _ _).bind ?_
    split
    · exact ih
    · refine (all_readCString _).bind ?_
      split
      · exact ih
      · split_ifs with other
        · exact ih
        · exact all_slotOfName x i

theorem all_nameTurn (d : ExportDirectory) (names : List (Option (List UInt8))) (i : ℕ) :
    (nameTurn mem image d names i).All (InImage image) := by
  unfold nameTurn
  refine (all_readElement 4 _ _).bind ?_
  split
  · exact Logged.all_pure _
  · refine (all_readElement 2 _ _).bind ?_
    split
    · exact Logged.all_pure _
    · split_ifs with small
      · exact (all_readCString _).bind (Logged.all_pure _)
      · exact Logged.all_pure _

theorem all_forwarderOf (rva : ℕ) : (forwarderOf mem image x rva).All (InImage image) := by
  unfold forwarderOf
  split_ifs with inside
  · exact all_readCString rva
  · exact Logged.all_pure _

theorem all_exportTurn (exports : List ExportInfo) (entry : Option (List UInt8) × ℕ) :
    (exportTurn mem image x exports entry).All (InImage image) := by
  unfold exportTurn
  refine (all_readElement 4 _ _).bind ?_
  split
  · exact Logged.all_pure _
  · split_ifs with zero large
    · exact Logged.all_pure _
    · exact (all_forwarderOf x _).bind (Logged.all_pure _)
    · exact (all_forwarderOf x _).bind (Logged.all_pure _)

end Exports

/-! ### Imports -/

section Imports

variable {mem : ℕ → UInt8} {image : ModuleImage} (mapped : image.Mapped)

include mapped

theorem all_walkThunks {β : Type} {visit : ℕ → ℕ → Walk β} {lookupBase offset : ℕ}
    (visits : ∀ lookup offset, offset ≤ image.size → (visit lookup offset).All (InImage image))
    (base : lookupBase < 2 ^ 32) (small : offset ≤ image.size) :
    (walkThunks mem image visit lookupBase offset).All (InImage image) := by
  have size := mapped.size_lt
  have sum : InImage image (.sum (lookupBase + offset)) := show _ < 2 ^ 64 by omega
  fun_induction lookups mem image lookupBase offset with
  | case1 offset outside =>
    rw [walkThunks_outside outside]
    exact (all_plus sum).bind (Logged.all_pure _)
  | case2 offset ptr inside zero =>
    rw [walkThunks_inside inside]
    refine (all_plus sum).bind ((all_load (contains_rvaToPtr inside)).bind ?_)
    rw [load_value, if_pos zero]
    exact Logged.all_pure _
  | case3 offset ptr inside used ih =>
    obtain ⟨_, _, _, fits, _, _⟩ := rvaToPtr_eq_some.mp inside
    have next : InImage image (.sum (offset + 8)) := show _ < 2 ^ 64 by omega
    rw [walkThunks_inside inside]
    refine (all_plus sum).bind ((all_load (contains_rvaToPtr inside)).bind ?_)
    rw [load_value, if_neg used]
    refine (visits _ _ small).bind ((all_plus next).bind ((ih (by omega) ?_).bind ?_))
    · exact show _ < 2 ^ 64 by omega
    · exact Logged.all_pure _

theorem all_walkDescriptors {β : Type} {visit : List UInt8 → ImportDescriptor → Walk (List β)}
    (visits : ∀ dll ptr, (visit dll (importDescriptorAt mem ptr)).All (InImage image))
    (unreadable : Option (List β)) (descRva : ℕ) :
    (walkDescriptors mem image visit unreadable descRva).All (InImage image) := by
  have size := mapped.size_lt
  fun_induction descriptorsFrom mem image descRva with
  | case1 descRva outside =>
    rw [walkDescriptors_outside outside]
    exact Logged.all_pure _
  | case2 descRva ptr inside zero =>
    rw [walkDescriptors_inside inside]
    refine (all_touch (contains_rvaToPtr inside)).bind ?_
    rw [if_pos zero]
    exact Logged.all_pure _
  | case3 descRva ptr inside used ih =>
    obtain ⟨_, _, _, fits, _, _⟩ := rvaToPtr_eq_some.mp inside
    have next : InImage image (.sum (descRva + 20)) := show _ < 2 ^ 64 by omega
    rw [walkDescriptors_inside inside]
    refine (all_touch (contains_rvaToPtr inside)).bind ?_
    rw [if_neg used]
    refine (all_readCString _).bind ?_
    split
    · exact Logged.all_pure _
    · exact (visits _ ptr).bind ((all_plus next).bind (ih.bind (Logged.all_pure _)))

theorem all_descriptorThunks {β : Type} {visit : ℕ → ℕ → Walk β} {ptr : ℕ}
    (visits : ∀ lookup offset, offset ≤ image.size → (visit lookup offset).All (InImage image)) :
    (descriptorThunks mem image visit (importDescriptorAt mem ptr)).All (InImage image) := by
  have names := number_lt mem ptr 4
  have iat := number_lt mem (ptr + 16) 4
  unfold descriptorThunks
  split_ifs with table
  · refine all_walkThunks mapped visits ?_ (Nat.zero_le _)
    unfold ImportDescriptor.lookupBase importDescriptorAt
    split_ifs with absent
    · exact names
    · exact iat
  · exact Logged.all_pure _

omit mapped in
theorem all_importName (lookup : ℕ) : (importName mem image lookup).All (InImage image) := by
  unfold importName
  split_ifs with ordinal
  · exact Logged.all_pure _
  · have small : InImage image (.sum (lookup + 2)) := by
      simp only [isOrdinal, decide_eq_true_eq, not_le] at ordinal
      exact show _ < 2 ^ 64 by omega
    exact (all_plus small).bind ((all_readCString _).bind (Logged.all_pure _))

theorem all_importAt (dll : List UInt8) {ptr offset : ℕ} (small : offset ≤ image.size)
    (lookup : ℕ) :
    (importAt mem image dll (importDescriptorAt mem ptr) lookup offset).All (InImage image) := by
  have size := mapped.size_lt
  have iat : (importDescriptorAt mem ptr).firstThunk < 256 ^ 4 := number_lt mem (ptr + 16) 4
  have slot : InImage image (.sum ((importDescriptorAt mem ptr).firstThunk + offset)) :=
    show _ < 2 ^ 64 by omega
  exact (all_plus slot).bind ((all_readUsize _).bind
    ((all_importName lookup).bind (Logged.all_pure _)))

theorem all_importSlotAt {ptr offset : ℕ} (small : offset ≤ image.size) (lookup : ℕ) :
    (importSlotAt image (importDescriptorAt mem ptr) lookup offset).All (InImage image) := by
  have base := mapped.base_lt
  have size := mapped.size_lt
  have thunk : (importDescriptorAt mem ptr).firstThunk < 256 ^ 4 := number_lt mem (ptr + 16) 4
  have iat : InImage image (.sum (image.baseAddress + (importDescriptorAt mem ptr).firstThunk)) :=
    show _ < 2 ^ 64 by omega
  have slot : InImage image
      (.sum (image.baseAddress + (importDescriptorAt mem ptr).firstThunk + offset)) :=
    show _ < 2 ^ 64 by omega
  exact (all_plus iat).bind (all_plus slot)

omit mapped

theorem all_thunkNamed (target : List UInt8) (lookup : ℕ) :
    (thunkNamed mem image target lookup).All (InImage image) := by
  unfold thunkNamed
  split_ifs with ordinal
  · exact Logged.all_pure _
  · have name : (readImportName mem image lookup).All (InImage image) := by
      unfold readImportName
      split
      · exact Logged.all_pure _
      · exact all_cStrBytes _
    refine name.bind ?_
    split
    · exact Logged.all_pure _
    · exact Logged.all_pure _

theorem all_findThunk (target : List UInt8) (thunkRva originalRva : ℕ) :
    (findThunk mem image target thunkRva originalRva).All (InImage image) := by
  fun_induction findThunk mem image target thunkRva originalRva with
  | case1 thunkRva originalRva outside => exact Logged.all_pure _
  | case2 thunkRva originalRva thunk slot outside => exact Logged.all_pure _
  | case3 thunkRva originalRva thunk slot original inside ih =>
    refine Logged.All.orElse ?_ fun _ => ih
    unfold thunkTurn
    refine (all_load (contains_rvaToPtr inside)).bind ?_
    split_ifs with zero
    · exact Logged.all_pure _
    · refine (all_thunkNamed target _).bind ?_
      split
      · exact Logged.all_pure _
      · exact Logged.all_pure _

theorem all_findThunkInDescriptor (d : ImportDescriptor) (target : List UInt8) :
    (findThunkInDescriptor mem image d target).All (InImage image) := by
  unfold findThunkInDescriptor
  split_ifs with iat names
  · exact Logged.all_pure _
  · exact Logged.all_pure _
  · exact all_findThunk target _ _

theorem all_findImportThunk (dll target : List UInt8) (notFound : InternalIatHookError)
    (descRva : ℕ) :
    (findImportThunk mem image dll target notFound descRva).All (InImage image) := by
  fun_induction descriptorsFrom mem image descRva generalizing notFound with
  | case1 descRva outside =>
    rw [findImportThunk_outside outside]
    exact Logged.all_pure _
  | case2 descRva ptr inside zero =>
    rw [findImportThunk_inside inside]
    refine (all_touch (contains_rvaToPtr inside)).bind ?_
    rw [if_pos zero]
    exact Logged.all_pure _
  | case3 descRva ptr inside used ih =>
    rw [findImportThunk_inside inside]
    refine (all_touch (contains_rvaToPtr inside)).bind ?_
    rw [if_neg used]
    refine (all_cStrBytes _).bind ?_
    split
    · exact Logged.all_pure _
    · split_ifs with same
      · refine (all_findThunkInDescriptor _ target).bind ?_
        split
        · exact Logged.all_pure _
        · exact ih _
        · exact ih _
      · exact ih _

end Imports

/-! ### Headers -/

section Headers

variable {query : ℕ → Option RegionScan.Information} {mem : ℕ → UInt8}

/-- What the check of the headers has established. -/
structure ValidHeaders (query : ℕ → Option RegionScan.Information) (mem : ℕ → UInt8)
    (image : ModuleImage) : Prop where
  dos : isReadable query image.baseAddress dosHeaderSize = true
  offset : 0 < number mem (image.baseAddress + 0x3C) 4 ∧
    number mem (image.baseAddress + 0x3C) 4 < maxELfanew
  nt : isReadable query (ntAddress mem image.baseAddress) ntHeadersSize = true
  size : image.size = number mem (ntAddress mem image.baseAddress + 80) 4

/-- A read of bytes that were found readable. -/
def Readable (query : ℕ → Option RegionScan.Information) : Access → Prop
  | .read addr len => ∃ start size, isReadable query start size = true ∧ start ≤ addr ∧
      addr + len ≤ start + size
  | .sum value => value < 2 ^ 64

/-- The check reads only what it has found readable. -/
theorem all_parseModuleImage (handle : ℕ) :
    (parseModuleImage query mem handle).All (Readable query) := by
  unfold parseModuleImage
  split_ifs with null unreadable
  · exact Logged.all_pure _
  · exact Logged.all_pure _
  · have dos : ∀ addr len, handle ≤ addr → addr + len ≤ handle + 64 →
        Readable query (.read addr len) :=
      fun addr len lower upper => ⟨handle, dosHeaderSize, by simpa using unreadable, lower, upper⟩
    unfold parseDos
    refine (all_load (dos handle 2 (by omega) (by omega))).bind ?_
    split_ifs with magic
    · exact Logged.all_pure _
    · refine (all_load (dos (handle + 0x3C) 4 (by omega) (by omega))).bind ?_
      split_ifs with offset
      · exact Logged.all_pure _
      · cases checkedAdd handle (load mem (handle + 0x3C) 4).value with
        | none => exact Logged.all_pure _
        | some nt =>
          simp only
          split_ifs with unreadable'
          · exact Logged.all_pure _
          · have headers : ∀ addr len, nt ≤ addr → addr + len ≤ nt + 264 →
                Readable query (.read addr len) :=
              fun addr len lower upper =>
                ⟨nt, ntHeadersSize, by simpa using unreadable', lower, upper⟩
            refine (all_load (headers nt 4 (by omega) (by omega))).bind ?_
            split_ifs with signature
            · exact Logged.all_pure _
            · refine (all_load (headers (nt + 24) 2 (by omega) (by omega))).bind ?_
              split_ifs with magic'
              · exact Logged.all_pure _
              · refine (all_load (headers (nt + 80) 4 (by omega) (by omega))).bind ?_
                split_ifs with empty
                · exact Logged.all_pure _
                · exact Logged.all_pure _

/-- A value behind a check that has passed. -/
theorem value_unless {α : Type} {c : Prop} [Decidable c] {e : PeError}
    {rest : Walk (Except PeError α)} {a : α}
    (ok : (if c then pure (.error e) else rest : Walk (Except PeError α)).value = .ok a) :
    ¬ c ∧ rest.value = .ok a := by
  by_cases stop : c
  · rw [if_pos stop] at ok
    cases ok
  · rw [if_neg stop] at ok
    exact ⟨stop, ok⟩

theorem valid_of_parsed {handle : ℕ} {image : ModuleImage}
    (parsed : (parseModuleImage query mem handle).value = .ok image) :
    image.baseAddress = handle ∧ ValidHeaders query mem image := by
  obtain ⟨null, parsed⟩ := value_unless parsed
  obtain ⟨dos, parsed⟩ := value_unless parsed
  obtain ⟨magic, parsed⟩ := value_unless parsed
  obtain ⟨offset, parsed⟩ := value_unless parsed
  rw [load_value] at offset parsed
  unfold checkedAdd at parsed
  split_ifs at parsed with fits
  · obtain ⟨nt, parsed⟩ := value_unless parsed
    obtain ⟨signature, parsed⟩ := value_unless parsed
    obtain ⟨magic', parsed⟩ := value_unless parsed
    obtain ⟨empty, parsed⟩ := value_unless parsed
    cases parsed
    refine ⟨rfl, by simpa using dos, ?_, by simpa [ntAddress] using nt, rfl⟩
    unfold maxELfanew at offset ⊢
    simp only
    omega

variable {image : ModuleImage}

/-- The address space of a process ends below `2 ^ 47`, where `VirtualQuery` fails. -/
theorem mapped_of_valid (user : ∀ addr mbi, query addr = some mbi → addr < 2 ^ 47)
    (valid : ValidHeaders query mem image) : image.Mapped := by
  have size := number_lt mem (ntAddress mem image.baseAddress + 80) 4
  refine ⟨?_, by rw [valid.size]; exact size⟩
  have dos := valid.dos
  unfold isReadable at dos
  split at dos
  · cases dos
  · rename_i stop sum
    have less : image.baseAddress < stop := by
      unfold checkedAdd dosHeaderSize at sum
      split_ifs at sum
      cases sum
      omega
    rw [readableFrom, if_pos less] at dos
    cases region : query image.baseAddress with
    | none =>
      rw [region] at dos
      cases dos
    | some mbi => exact user _ mbi region

variable (valid : ValidHeaders query mem image) (mapped : image.Mapped)

include valid mapped

/-- The NT headers are found where the check found them. -/
theorem ntHeaders_bounded :
    (ntHeaders mem image).value = ntAddress mem image.baseAddress ∧
      (ntHeaders mem image).All (Bounded mem image) := by
  have base := mapped.base_lt
  have offset := valid.offset.2
  unfold maxELfanew at offset
  have extend : signExtend (number mem (image.baseAddress + 0x3C) 4) =
      number mem (image.baseAddress + 0x3C) 4 := by
    unfold signExtend
    rw [if_pos (by omega)]
  refine ⟨?_, ?_⟩
  · unfold ntHeaders
    rw [Logged.value_bind, load_value, extend]
    rfl
  · refine (all_load (.inr (.inl ⟨by omega, by unfold dosHeaderSize; omega⟩))).bind ?_
    rw [load_value, extend]
    exact all_plus (show _ < 2 ^ 64 by omega)

theorem dataDirectory_bounded {index : ℕ} (entry : index < 16) :
    (dataDirectory mem image index).All (Bounded mem image) := by
  obtain ⟨nt, headers⟩ := ntHeaders_bounded valid mapped
  unfold dataDirectory
  refine headers.bind ?_
  rw [nt]
  refine (all_load (bounded_nt (by omega) (by omega))).bind ?_
  split_ifs with absent
  · exact Logged.all_pure _
  · refine (all_touch (bounded_nt (by omega) (by omega))).bind ?_
    simp only
    split_ifs with empty
    · exact Logged.all_pure _
    · split
      · exact Logged.all_pure _
      · exact Logged.all_pure _

theorem dataDirectoryRva_bounded {index : ℕ} (entry : index < 16) :
    (dataDirectoryRva mem image index).All (Bounded mem image) := by
  obtain ⟨nt, headers⟩ := ntHeaders_bounded valid mapped
  unfold dataDirectoryRva
  refine headers.bind ?_
  rw [nt]
  refine (all_load (bounded_nt (by omega) (by omega))).bind ?_
  split_ifs with absent
  · exact Logged.all_pure _
  · exact (all_load (bounded_nt (by omega) (by omega))).bind (Logged.all_pure _)

theorem exportDirectory_bounded : (exportDirectory mem image).All (Bounded mem image) := by
  unfold exportDirectory
  refine (dataDirectory_bounded valid mapped (by norm_num)).bind ?_
  split
  · exact Logged.all_pure _
  · split
    · exact Logged.all_pure _
    · rename_i ptr inside
      exact (all_touch (.inl (contains_rvaToPtr inside))).bind (Logged.all_pure _)

theorem findExportSlot_bounded (target : List UInt8) :
    (findExportSlot mem image target).All (Bounded mem image) := by
  unfold findExportSlot
  refine (exportDirectory_bounded valid mapped).bind ?_
  split
  · exact Logged.all_pure _
  · exact (all_findName _ target _).mono InImage.bounded

theorem exportsOf_bounded : (exportsOf mem image).All (Bounded mem image) := by
  unfold exportsOf
  refine (exportDirectory_bounded valid mapped).bind ?_
  split
  · exact Logged.all_pure _
  · rename_i x _
    split_ifs with fits
    · exact Logged.all_pure _
    · refine Logged.All.bind ?_ ?_
      · exact (Logged.all_foldlM (fun names i _ => all_nameTurn x.directory names i) _).mono
          InImage.bounded
      · exact (Logged.all_foldlM (fun exports entry _ => all_exportTurn x exports entry) _).mono
          InImage.bounded

theorem importsOf_bounded : (importsOf mem image).All (Bounded mem image) := by
  unfold importsOf
  refine (dataDirectoryRva_bounded valid mapped (by norm_num)).bind ?_
  split
  · exact Logged.all_pure _
  · refine Logged.All.bind ((all_walkDescriptors mapped (fun dll ptr => ?_) _ _).mono
      InImage.bounded) (Logged.all_pure _)
    exact all_descriptorThunks mapped fun lookup offset small =>
      all_importAt mapped dll small lookup

theorem importSlotsOf_bounded : (importSlotsOf mem image).All (Bounded mem image) := by
  unfold importSlotsOf
  refine (dataDirectoryRva_bounded valid mapped (by norm_num)).bind ?_
  split
  · exact Logged.all_pure _
  · refine (all_walkDescriptors mapped (fun dll ptr => ?_) _ _).mono InImage.bounded
    exact all_descriptorThunks mapped fun lookup offset small =>
      all_importSlotAt mapped small lookup

theorem findImportAddress_bounded (dll target : List UInt8) :
    (findImportAddress mem image dll target).All (Bounded mem image) := by
  unfold findImportAddress
  refine (dataDirectoryRva_bounded valid mapped (by norm_num)).bind ?_
  split
  · exact Logged.all_pure _
  · exact (all_findImportThunk dll target _ _).mono InImage.bounded

end Headers

/-! ### All walks -/

/-- Every walk over the image stays in bounds. -/
structure WalksBounded (mem : ℕ → UInt8) (image : ModuleImage) : Prop where
  directory : ∀ index < 16, (dataDirectory mem image index).All (Bounded mem image)
  directoryRva : ∀ index < 16, (dataDirectoryRva mem image index).All (Bounded mem image)
  findImport : ∀ dll func, (findImportAddress mem image dll func).All (Bounded mem image)
  findExport : ∀ name, (findExportSlot mem image name).All (Bounded mem image)
  exports : (exportsOf mem image).All (Bounded mem image)
  imports : (importsOf mem image).All (Bounded mem image)
  slots : (importSlotsOf mem image).All (Bounded mem image)

/-- Whatever a module in the address space holds: the check of its headers reads only what it has
found readable, and once it has passed, the headers are readable and every walk over the image
stays inside the image and these headers. -/
theorem walks_bounded {query : ℕ → Option RegionScan.Information}
    (user : ∀ addr mbi, query addr = some mbi → addr < 2 ^ 47) (mem : ℕ → UInt8) (handle : ℕ) :
    (parseModuleImage query mem handle).All (Readable query) ∧
      ∀ image, (parseModuleImage query mem handle).value = .ok image →
        isReadable query image.baseAddress dosHeaderSize = true ∧
        isReadable query (ntAddress mem image.baseAddress) ntHeadersSize = true ∧
        WalksBounded mem image := by
  refine ⟨all_parseModuleImage handle, ?_⟩
  intro image parsed
  obtain ⟨_, valid⟩ := valid_of_parsed parsed
  have mapped := mapped_of_valid user valid
  exact ⟨valid.dos, valid.nt,
    { directory := fun _ entry => dataDirectory_bounded valid mapped entry
      directoryRva := fun _ entry => dataDirectoryRva_bounded valid mapped entry
      findImport := findImportAddress_bounded valid mapped
      findExport := findExportSlot_bounded valid mapped
      exports := exportsOf_bounded valid mapped
      imports := importsOf_bounded valid mapped
      slots := importSlotsOf_bounded valid mapped }⟩

/-- A committed region of `0x1000` bytes at `0x10000`. -/
def onePage (addr : ℕ) : Option RegionScan.Information :=
  if 0x10000 ≤ addr ∧ addr < 0x11000 then some ⟨0x10000, 0x1000, memCommit, 4⟩ else none

/-- The bytes of a module at `0x10000` with the exports `A`, `B` and `C` and with four imports in
three descriptors. -/
def fullModule (a : ℕ) : UInt8 :=
  ([(0x00, 0x4D), (0x01, 0x5A), (0x40, 0x50), (0x41, 0x45), (0x58, 0x0B), (0x59, 0x02), (0x91, 0x04),
    (0xC4, 16), (0xD1, 0x02)].lookup (a - 0x10000)).getD
      (if a < 0x10200 then threeExports a else sampleImports a)

theorem fullModule_bounded :
    WalksBounded fullModule importImage ∧
      (exportsOf fullModule importImage).value.map ExportInfo.name =
        [some [0x41], some [0x42], some [0x43]] ∧
      (importsOf fullModule importImage).value.map ImportInfo.address = [0, 1, 2, 0] := by
  have user : ∀ addr mbi, onePage addr = some mbi → addr < 2 ^ 47 := by
    intro addr mbi found
    unfold onePage at found
    split_ifs at found with inside
    omega
  have parsed : (parseModuleImage onePage fullModule 0x10000).value = .ok importImage := by
    decide +kernel
  refine ⟨((walks_bounded user fullModule 0x10000).2 _ parsed).2.2, ?_, ?_⟩
  · decide +kernel
  · decide +kernel

/-- The headers of a module at `0x10000` whose `SizeOfImage` is one byte. -/
def tinyModule (a : ℕ) : UInt8 :=
  ([(0x00, 0x4D), (0x01, 0x5A), (0x3C, 0x40), (0x40, 0x50), (0x41, 0x45), (0x58, 0x0B),
    (0x59, 0x02), (0x90, 1), (0xC4, 16)].lookup (a - 0x10000)).getD 0

theorem tinyModule_parsed :
    (parseModuleImage onePage tinyModule 0x10000).value = .ok ⟨0x10000, 1⟩ := by
  decide +kernel

/-- The search for a directory reads the headers, which the image does not contain. -/
theorem headers_outside_image :
    (parseModuleImage onePage tinyModule 0x10000).value = .ok ⟨0x10000, 1⟩ ∧
    .read 0x1003C 4 ∈ (dataDirectory tinyModule ⟨0x10000, 1⟩ 0).log ∧
    ¬ ModuleImage.Contains ⟨0x10000, 1⟩ 0x1003C 4 := by
  refine ⟨tinyModule_parsed, ?_, ?_⟩
  · decide +kernel
  · unfold ModuleImage.Contains
    decide

end Pe

end NeoHook
