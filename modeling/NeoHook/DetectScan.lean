import NeoHook.DetectBreakpoints
import NeoHook.DetectRuns
import NeoHook.PeBounds

/-!
# Scanning a module for hooks

`import_redirects` and `scan_module_hooks` of `detect.rs`.  The imports of a module and their slots
are listed by two walks; what is reported of an import stands in its own slot.  A scan lists the hooks
of the exports, with their names, and the redirected imports.
-/

namespace NeoHook

open ByteMap Disk

namespace Detect

/-! ### Imports and exports -/

/-- A name of a module, as a string. -/
def text (name : List UInt8) : String := (String.fromUTF8? name.toByteArray).getD ""

namespace Detector

variable (D : Detector) (mem : ℕ → UInt8)

def isSystemExport (address : ℕ) : Bool :=
  match D.moduleOf address with
  | none => false
  | some module =>
    D.isSystemModule module &&
      match (Pe.enumerateExports D.query mem module).value with
      | .ok exports => exports.any fun e => e.address == address
      | .error _ => false

/-- `GetProcAddress`: an export of a module by its name. -/
abbrev ProcAddress := ℕ → List UInt8 → Option ℕ

/-- The slot holds an export of that name in the module it points into. -/
def boundByLoader (procAddress : ProcAddress) (address : ℕ) (name : List UInt8) : Bool :=
  match D.moduleOf address with
  | none => false
  | some module => procAddress module name == some address

/-- The turn of one import in the loop of `import_redirects`; a name with a null byte is no
`CString`. -/
def importRedirect (procAddress : ProcAddress) (i : Pe.ImportInfo) (slot : ℕ) :
    Option DetectedHook :=
  match i.name with
  | none => none
  | some name =>
    if i.address = 0 ∨ 0 ∈ name ∨ D.boundByLoader procAddress i.address name ∨
        D.isSystemExport mem i.address then none
    else some ⟨.importRedirect, slot, some (text i.dll ++ "!" ++ text name), some i.address,
      D.moduleNameOf i.address⟩

/-- `import_redirects`. -/
def importRedirects (procAddress : ProcAddress) (handle : ℕ) : List DetectedHook :=
  match (Pe.parseModuleImage D.query mem handle).value with
  | .error _ => []
  | .ok image =>
    match (Pe.importSlotsOf mem image).value with
    | none => []
    | some slots =>
      ((Pe.importsOf mem image).value.zip slots).filterMap fun entry =>
        D.importRedirect mem procAddress entry.1 entry.2

/-- The name of an export, or `#` and its ordinal. -/
def exportName (e : Pe.ExportInfo) : String := (e.name.map text).getD ("#" ++ toString e.ordinal)

/-- The turn of one export in the loop of `scan_module_hooks`. -/
def exportHook (disk : DiskImage) (base : ℕ) (breakpoints : List ℕ) (e : Pe.ExportInfo) :
    Except SliceError (Option DetectedHook) := do
  if e.forwarder.isSome then return none
  else
    let name := exportName e
    match ← (disk.exportRedirect (D.isSystemExport mem) D.moduleNameOf base e.ordinal e.address).run
    with
    | some hook => return some { hook with function := some name }
    | none =>
      if disk.isExecutable ((e.address + 2 ^ 64 - base) % 2 ^ 64) then
        match ← (D.inlineHook mem e.address disk base).run with
        | some hook => return some { hook with function := some name }
        | none =>
          return (hookAt breakpoints e.address).map fun hook => { hook with function := some name }
      else return none

/-- The hooks of the exports. -/
def exportHooks (disk : DiskImage) (base : ℕ) (breakpoints : List ℕ) :
    List Pe.ExportInfo → Except SliceError (List DetectedHook)
  | [] => return []
  | e :: rest => do
    let hook ← D.exportHook mem disk base breakpoints e
    let hooks ← exportHooks disk base breakpoints rest
    return hook.toList ++ hooks

/-- `scan_module_hooks` of a module whose file has been loaded. -/
def scanModuleHooks (procAddress : ProcAddress) (disk : DiskImage) (base : ℕ)
    (breakpoints : List ℕ) : Except SliceError (List DetectedHook) := do
  let exports := match (Pe.enumerateExports D.query mem base).value with
    | .ok exports => exports
    | .error _ => []
  let hooks ← D.exportHooks mem disk base breakpoints exports
  return hooks ++ D.importRedirects mem procAddress base

/-! ### What is listed -/

variable {D mem}

theorem mem_exportHooks {disk : DiskImage} {base : ℕ} {breakpoints : List ℕ}
    {exports : List Pe.ExportInfo} {hooks : List DetectedHook}
    (done : D.exportHooks mem disk base breakpoints exports = .ok hooks) (hook : DetectedHook) :
    hook ∈ hooks ↔
      ∃ e ∈ exports, D.exportHook mem disk base breakpoints e = .ok (some hook) := by
  induction exports generalizing hooks with
  | nil =>
    cases done
    simp
  | cons e rest ih =>
    unfold exportHooks at done
    cases turn : D.exportHook mem disk base breakpoints e with
    | error fault =>
      rw [turn] at done
      cases done
    | ok found =>
      rw [turn] at done
      cases others : D.exportHooks mem disk base breakpoints rest with
      | error fault =>
        simp only [others] at done
        cases done
      | ok more =>
        simp only [others] at done
        cases done
        rw [List.mem_append, ih others, List.exists_mem_cons_iff, turn]
        cases found <;> simp [eq_comm]

/-- An import that is reported: it has a name, its slot holds something, and neither the export of
that name nor an export of a system module is what it holds. -/
structure Redirected (D : Detector) (mem : ℕ → UInt8) (procAddress : ProcAddress)
    (image : Pe.ModuleImage) (e : Pe.ImportEntry) (name : List UInt8) (value : ℕ) : Prop where
  listed : e ∈ Pe.importTable mem image
  named : (e.toImport mem image).name = some name ∧ 0 ∉ name
  inside : image.baseAddress < e.slot image ∧ e.slot image + 8 ≤ image.baseAddress + image.size
  holds : Pe.number mem (e.slot image) 8 = value ∧ value ≠ 0
  foreign : D.boundByLoader procAddress value name = false ∧ D.isSystemExport mem value = false

theorem importRedirect_eq_some {procAddress : ProcAddress} {i : Pe.ImportInfo} {slot : ℕ}
    {hook : DetectedHook} :
    D.importRedirect mem procAddress i slot = some hook ↔
      ∃ name, i.name = some name ∧ 0 ∉ name ∧ i.address ≠ 0 ∧
        D.boundByLoader procAddress i.address name = false ∧ D.isSystemExport mem i.address = false ∧
        hook = ⟨.importRedirect, slot, some (text i.dll ++ "!" ++ text name), some i.address,
          D.moduleNameOf i.address⟩ := by
  unfold importRedirect
  cases i.name with
  | none => simp
  | some name =>
    simp only [Option.ite_none_left_eq_some, Option.some.injEq, not_or, Bool.not_eq_true, ne_eq,
      exists_eq_left']
    constructor
    · rintro ⟨⟨some_, clean, unbound, private_⟩, rfl⟩
      exact ⟨clean, some_, unbound, private_, rfl⟩
    · rintro ⟨clean, some_, unbound, private_, rfl⟩
      exact ⟨⟨some_, clean, unbound, private_⟩, rfl⟩

/-- The imports and their slots are listed in the same order. -/
theorem importRedirects_eq {procAddress : ProcAddress} {handle : ℕ} {image : Pe.ModuleImage}
    (parsed : (Pe.parseModuleImage D.query mem handle).value = .ok image)
    (readable : ∀ d ∈ Pe.importDescriptors mem image, (Pe.dllName mem image d).isSome) :
    D.importRedirects mem procAddress handle =
      (Pe.importTable mem image).filterMap fun e =>
        D.importRedirect mem procAddress (e.toImport mem image) (e.slot image) := by
  unfold importRedirects
  rw [parsed]
  simp only
  rw [Pe.importSlotsOf_value, Pe.importsOf_value]
  split_ifs with listed
  · simp only
    rw [List.zip_map', List.filterMap_map]
    rfl
  · have absent : (Pe.dataDirectoryRva mem image 1).value = none := by
      rw [Bool.and_eq_true, not_and_or] at listed
      refine Option.not_isSome_iff_eq_none.mp (listed.resolve_right (not_not_intro ?_))
      exact List.all_eq_true.mpr readable
    have empty : Pe.importTable mem image = [] := by
      unfold Pe.importTable Pe.readableDescriptors Pe.importDescriptors
      rw [absent]
      rfl
    rw [empty]
    rfl

/-- The report of import hooks: when every DLL name of the import table can be read, these are the
imports whose slot does not hold what the loader put there, each with its own slot and what stands
in it. -/
theorem importRedirects_exact {procAddress : ProcAddress} {handle : ℕ} {image : Pe.ModuleImage}
    (parsed : (Pe.parseModuleImage D.query mem handle).value = .ok image) (mapped : image.Mapped)
    (readable : ∀ d ∈ Pe.importDescriptors mem image, (Pe.dllName mem image d).isSome)
    (hook : DetectedHook) :
    hook ∈ D.importRedirects mem procAddress handle ↔
      ∃ e name value, D.Redirected mem procAddress image e name value ∧
        hook = ⟨.importRedirect, e.slot image,
          some (text (e.toImport mem image).dll ++ "!" ++ text name), some value,
          D.moduleNameOf value⟩ := by
  rw [importRedirects_eq parsed readable, List.mem_filterMap]
  simp only [importRedirect_eq_some]
  constructor
  · rintro ⟨e, listed, name, named, clean, nonzero, unbound, private_, rfl⟩
    have address := @Pe.toImport_address mem image mapped e
    split_ifs at address with inside
    · refine ⟨e, name, _, ⟨listed, ⟨named, clean⟩, inside, ⟨address.symm, nonzero⟩, unbound,
        private_⟩, rfl⟩
    · exact absurd address nonzero
  · rintro ⟨e, name, value, ⟨listed, ⟨named, clean⟩, inside, ⟨holds, nonzero⟩, unbound, private_⟩,
      rfl⟩
    have address := @Pe.toImport_address mem image mapped e
    rw [if_pos inside, holds] at address
    refine ⟨e, listed, name, named, clean, ?_⟩
    rw [address]
    exact ⟨nonzero, unbound, private_, rfl⟩

/-- An export that is reported: its entry in the export table differs from the file, or its code has
changed, or a thread has a breakpoint on it. -/
inductive ExportFound (D : Detector) (mem : ℕ → UInt8) (disk : DiskImage) (base : ℕ)
    (breakpoints : List ℕ) (e : Pe.ExportInfo) : DetectedHook → Prop
  | entry {hook : DetectedHook}
      (changed : (disk.exportRedirect (D.isSystemExport mem) D.moduleNameOf base e.ordinal
        e.address).run = .ok (some hook)) :
      ExportFound D mem disk base breakpoints e { hook with function := some (exportName e) }
  | code {hook : DetectedHook}
      (same : (disk.exportRedirect (D.isSystemExport mem) D.moduleNameOf base e.ordinal
        e.address).run = .ok none)
      (executable : disk.isExecutable ((e.address + 2 ^ 64 - base) % 2 ^ 64) = true)
      (changed : (D.inlineHook mem e.address disk base).run = .ok (some hook)) :
      ExportFound D mem disk base breakpoints e { hook with function := some (exportName e) }
  | breakpoint
      (same : (disk.exportRedirect (D.isSystemExport mem) D.moduleNameOf base e.ordinal
        e.address).run = .ok none)
      (executable : disk.isExecutable ((e.address + 2 ^ 64 - base) % 2 ^ 64) = true)
      (unchanged : (D.inlineHook mem e.address disk base).run = .ok none)
      (armed : e.address ∈ breakpoints) :
      ExportFound D mem disk base breakpoints e
        ⟨.hardwareBreakpoint, e.address, some (exportName e), none, none⟩

section Export

variable {disk : DiskImage} {base : ℕ} {breakpoints : List ℕ} {e : Pe.ExportInfo}
  {hook : DetectedHook}

theorem ExportFound.exportHook_eq (here : e.forwarder = none)
    (found : D.ExportFound mem disk base breakpoints e hook) :
    D.exportHook mem disk base breakpoints e = .ok (some hook) := by
  unfold exportHook
  rw [here]
  cases found with
  | entry changed =>
    rw [changed]
    rfl
  | code same executable changed =>
    rw [same]
    change (if disk.isExecutable ((e.address + 2 ^ 64 - base) % 2 ^ 64) = true then _ else _) = _
    rw [if_pos executable, changed]
    rfl
  | breakpoint same executable unchanged armed =>
    rw [same]
    change (if disk.isExecutable ((e.address + 2 ^ 64 - base) % 2 ^ 64) = true then _ else _) = _
    rw [if_pos executable, unchanged]
    unfold hookAt
    rw [if_pos armed]
    rfl

/-- What the turn of an export finds. -/
theorem exportHook_eq_some :
    D.exportHook mem disk base breakpoints e = .ok (some hook) ↔
      e.forwarder = none ∧ D.ExportFound mem disk base breakpoints e hook := by
  refine ⟨fun found => ?_, fun both => both.2.exportHook_eq both.1⟩
  unfold exportHook at found
  cases here : e.forwarder with
  | some name =>
    rw [here] at found
    cases found
  | none =>
    rw [here] at found
    cases entry : (disk.exportRedirect (D.isSystemExport mem) D.moduleNameOf base e.ordinal
        e.address).run with
    | error fault =>
      rw [entry] at found
      cases found
    | ok redirected =>
      rw [entry] at found
      cases redirected with
      | some redirect =>
        cases found
        exact ⟨rfl, .entry entry⟩
      | none =>
        change (if disk.isExecutable ((e.address + 2 ^ 64 - base) % 2 ^ 64) = true then _
          else Except.ok none) = _ at found
        by_cases executable : disk.isExecutable ((e.address + 2 ^ 64 - base) % 2 ^ 64) = true
        swap
        · rw [if_neg executable] at found
          cases found
        rw [if_pos executable] at found
        cases code : (D.inlineHook mem e.address disk base).run with
        | error fault =>
          rw [code] at found
          cases found
        | ok changed =>
          rw [code] at found
          cases changed with
          | some change =>
            cases found
            exact ⟨rfl, .code entry executable code⟩
          | none =>
            change Except.ok ((hookAt breakpoints e.address).map _) = _ at found
            unfold hookAt at found
            split_ifs at found with armed
            · cases found
              exact ⟨rfl, .breakpoint entry executable code armed⟩
            · cases found

/-- What a scan of a module lists: the exports that are no forwarders and whose entry, code or debug
registers give them away, each under its name, and the imports whose slot does not hold what the
loader put there. -/
theorem scanModuleHooks_exact {procAddress : ProcAddress} {image : Pe.ModuleImage}
    (parsed : (Pe.parseModuleImage D.query mem base).value = .ok image) (mapped : image.Mapped)
    (readable : ∀ d ∈ Pe.importDescriptors mem image, (Pe.dllName mem image d).isSome)
    {hooks : List DetectedHook}
    (done : D.scanModuleHooks mem procAddress disk base breakpoints = .ok hooks)
    (hook : DetectedHook) :
    hook ∈ hooks ↔
      (∃ e ∈ (Pe.exportsOf mem image).value, e.forwarder = none ∧
        D.ExportFound mem disk base breakpoints e hook) ∨
      ∃ e name value, D.Redirected mem procAddress image e name value ∧
        hook = ⟨.importRedirect, e.slot image,
          some (text (e.toImport mem image).dll ++ "!" ++ text name), some value,
          D.moduleNameOf value⟩ := by
  unfold scanModuleHooks at done
  rw [Pe.enumerateExports_value parsed] at done
  cases turns : D.exportHooks mem disk base breakpoints (Pe.exportsOf mem image).value with
  | error fault =>
    simp only [turns] at done
    cases done
  | ok found =>
    simp only [turns] at done
    cases done
    rw [List.mem_append, mem_exportHooks turns, importRedirects_exact parsed mapped readable]
    simp only [exportHook_eq_some]

end Export

/-! ### A module with hooks of every kind -/

/-- The bytes of a module at `0x10000` with the exports `A`, `B` and `C`, which imports `F` from `A`.
The code of `A`, the entry of `C` and the import slot lead into memory of no module. -/
def hookedModule (a : ℕ) : UInt8 :=
  ([(0x00, 0x4D), (0x01, 0x5A), (0x40, 0x50), (0x41, 0x45), (0x58, 0x0B), (0x59, 0x02), (0x91, 0x04),
    (0xC4, 16), (0xD1, 0x02), (0x12C, 0x20), (0x130, 0x00), (0x131, 0x00), (0x132, 0x02),
    (0x200, 0x80), (0x201, 0x02), (0x20C, 0xE0), (0x20D, 0x02), (0x210, 0xA0), (0x211, 0x02),
    (0x280, 0xF0), (0x281, 0x02), (0x2A2, 0x03), (0x2E0, 0x41), (0x2F2, 0x46),
    (0x300, 0xE9), (0x301, 0xFB), (0x302, 0xFC), (0x303, 0x01), (0x320, 0xB8), (0x321, 0x2A),
    (0x325, 0xC3)].lookup (a - 0x10000)).getD
      (if a < 0x10200 then Pe.threeExports a else 0)

/-- Its file: the function table, and the code of `A` and `B`. -/
def hookedFile : DiskImage where
  bytes :=
    let func := [0xB8, 0x2A, 0x00, 0x00, 0x00, 0xC3] ++ List.replicate 26 0x00
    [0x00, 0x03, 0x00, 0x00, 0x20, 0x03, 0x00, 0x00, 0x40, 0x03, 0x00, 0x00] ++ func ++ func
  sections := [⟨0x128, 12, 0, 12, false⟩, ⟨0x300, 64, 12, 64, true⟩]
  imageBase := 0x10000
  relocations := []
  exportFunctions := some (0x128, 3, 1)

def hookedDetector : Detector where
  decode := sampleDecode
  query := Pe.onePage
  moduleOf _ := none
  moduleNameOf _ := none
  isSystemModule _ := false

/-- A scan with a breakpoint on `B` lists the code of `A`, the breakpoint, the entry of `C` and the
import. -/
theorem hookedModule_listed :
    ∃ hooks, hookedDetector.scanModuleHooks hookedModule (fun _ _ => none) hookedFile 0x10000
        [0x10320] = .ok hooks ∧
      ⟨.inlineJump, 0x10300, some (text [0x41]), some 0x30000, none⟩ ∈ hooks ∧
      ⟨.hardwareBreakpoint, 0x10320, some (text [0x42]), none, none⟩ ∈ hooks ∧
      ⟨.exportRedirect, 0x10130, some (text [0x43]), some 0x30000, none⟩ ∈ hooks ∧
      ⟨.importRedirect, 0x102A0, some (text [0x41] ++ "!" ++ text [0x46]), some 0x30000, none⟩ ∈
        hooks := by
  have parsed : (Pe.parseModuleImage hookedDetector.query hookedModule 0x10000).value =
      .ok ⟨0x10000, 0x400⟩ := by
    decide +kernel
  have exports : (Pe.exportsOf hookedModule ⟨0x10000, 0x400⟩).value =
      [⟨1, some [0x41], 0x10300, none⟩, ⟨2, some [0x42], 0x10320, none⟩,
        ⟨3, some [0x43], 0x30000, none⟩] := by
    decide +kernel
  have code : hookedDetector.ExportFound hookedModule hookedFile 0x10000 [0x10320]
      ⟨1, some [0x41], 0x10300, none⟩
      ⟨.inlineJump, 0x10300, some (text [0x41]), some 0x30000, none⟩ :=
    @ExportFound.code _ _ _ _ _ _ ⟨.inlineJump, 0x10300, none, some 0x30000, none⟩
      (by decide +kernel) (by decide) (by decide +kernel)
  have breakpoint : hookedDetector.ExportFound hookedModule hookedFile 0x10000 [0x10320]
      ⟨2, some [0x42], 0x10320, none⟩
      ⟨.hardwareBreakpoint, 0x10320, some (text [0x42]), none, none⟩ :=
    .breakpoint (by decide +kernel) (by decide) (by decide +kernel) (by decide)
  have entry : hookedDetector.ExportFound hookedModule hookedFile 0x10000 [0x10320]
      ⟨3, some [0x43], 0x30000, none⟩
      ⟨.exportRedirect, 0x10130, some (text [0x43]), some 0x30000, none⟩ :=
    @ExportFound.entry _ _ _ _ _ _ ⟨.exportRedirect, 0x10130, none, some 0x30000, none⟩
      (by decide +kernel)
  obtain ⟨hooks, done⟩ : ∃ hooks, hookedDetector.scanModuleHooks hookedModule (fun _ _ => none)
      hookedFile 0x10000 [0x10320] = .ok hooks := by
    unfold scanModuleHooks
    rw [Pe.enumerateExports_value parsed, exports]
    simp only [exportHooks, code.exportHook_eq rfl, breakpoint.exportHook_eq rfl,
      entry.exportHook_eq rfl]
    exact ⟨_, rfl⟩
  have dll : (Pe.ImportEntry.toImport hookedModule ⟨0x10000, 0x400⟩
      ⟨⟨0x280, 0x2E0, 0x2A0⟩, 0x2F0, 0⟩).dll = [0x41] := by
    decide +kernel
  have listed := scanModuleHooks_exact parsed ⟨by decide, by decide⟩ (by decide +kernel) done
  refine ⟨hooks, done, (listed _).mpr (.inl ⟨_, ?_, rfl, code⟩),
    (listed _).mpr (.inl ⟨_, ?_, rfl, breakpoint⟩), (listed _).mpr (.inl ⟨_, ?_, rfl, entry⟩),
    (listed _).mpr (.inr ⟨⟨⟨0x280, 0x2E0, 0x2A0⟩, 0x2F0, 0⟩, [0x46], 0x30000, ?_, ?_⟩)⟩
  · simp [exports]
  · simp [exports]
  · simp [exports]
  · exact ⟨by decide +kernel, by decide +kernel, by decide, by decide +kernel, rfl, rfl⟩
  · rw [dll]
    rfl

end Detector

end Detect

end NeoHook
