import NeoHook.Machine
import NeoHook.PageWrites
import NeoHook.InstanceContents
import NeoHook.Coverage
import NeoHook.Ranges

/-!
# Flags and memory of one hook

Every kind of hook writes its redirect and its original content through page protections that have
to be lifted before the store and put back after it.  A table slot whose protection cannot be put
back is written back; a range of code is written whole or not at all.  So the `enabled` flag of a
hook tells what its range or slot holds, whichever of the protection changes fail.
-/

namespace NeoHook

open ByteMap

/-- Code and tables. -/
structure ProcessMemory where
  code : Code
  tables : Tables

/-- The protections a write meets and which changes of them fail. -/
structure Protect where
  /-- The pages of a table slot can be made writable, and get their protection back. -/
  lift : Bool
  restore : Bool
  /-- The same for the pages of code, with the protections they have. -/
  pages : ProtectOs
  prot : ℕ → ℕ

/-- Both protection changes around the write of a table slot succeed. -/
def Protect.slotOk (os : Protect) : Bool := os.lift && os.restore

namespace ProcessMemory

/-! ### Writes -/

/-- The write of one table slot, undone when the protection cannot be restored. -/
def storeSlot (m : ProcessMemory) (slot value : ℕ) (os : Protect) : Bool × ProcessMemory :=
  if os.lift = false then (false, m)
  else
    let previous := m.tables.words slot
    let t := m.tables.setWord slot value
    if os.restore = false then (false, { m with tables := t.setWord slot previous })
    else (true, { m with tables := t })

/-- `write_slot_locked`. -/
def writeSlotLocked (m : ProcessMemory) (slot value : ℕ) (os : Protect) :
    Except DetourError Unit × ProcessMemory :=
  if slot = 0 then (.error (.vtable .invalidParameter), m)
  else match m.storeSlot slot value os with
    | (false, m) => (.error (.vtable .protectFailed), m)
    | (true, m) => (.ok (), m)

/-- `write_vptr_locked`. -/
def writeVptrLocked (m : ProcessMemory) (objectVptr value : ℕ) (os : Protect) :
    Except DetourError Unit × ProcessMemory :=
  m.writeSlotLocked objectVptr value os

/-- `write_export_slot_with`. -/
def writeExportSlotWith (m : ProcessMemory) (slot rva : ℕ) (os : Protect) :
    Except DetourError Unit × ProcessMemory :=
  if slot = 0 then (.error (.eat .invalidParameter), m)
  else match m.storeSlot slot rva os with
    | (false, m) => (.error (.eat .protectFailed), m)
    | (true, m) => (.ok (), m)

/-- `hook_import`. -/
def hookImport (M : Modules) (m : ProcessMemory) (module : ℕ) (dll func : String) (detour : ℕ)
    (os : Protect) : Except DetourError Unit × ProcessMemory :=
  if module = 0 ∨ detour = 0 then (.error (.iat .invalidParameter), m)
  else match M.findImport module dll func with
    | .error e => (.error (.iat e), m)
    | .ok slot =>
      match m.storeSlot slot detour os with
      | (false, m) => (.error (.iat .protectFailed), m)
      | (true, m) => (.ok (), m)

/-- `write_clone_slot`: a clone is heap memory, which needs no protection change. -/
def writeCloneSlot (m : ProcessMemory) (h : VTableInstanceHook) (value : ℕ) :
    Except DetourError Unit × ProcessMemory :=
  if h.clonedVtable = 0 then (.error (.vtable .invalidParameter), m)
  else (.ok (), { m with tables := m.tables.setWord (slotAddr h.clonedVtable h.index) value })

/-- `write_code_bytes`. -/
def writeCodeBytes (m : ProcessMemory) (target : ℕ) (bytes : List UInt8) (mark : Option JumpMark)
    (os : Protect) : Bool × ProcessMemory :=
  if target = 0 ∨ bytes = [] then (false, m)
  else match writePages os.pages target bytes false ⟨m.code.mem, os.prot, 0, [], false⟩ with
    | (false, s, _) => (false, { m with code := { m.code with mem := s.mem } })
    | (true, s, _) => (true, { m with code := { m.code.store target bytes mark with mem := s.mem } })

/-- `patch_target`. -/
def patchTarget (m : ProcessMemory) (target : ℕ) (bytes : List UInt8) (mark : Option JumpMark)
    (os : Protect) : Except DetourError Unit × ProcessMemory :=
  if target = 0 ∨ bytes = [] then (.error .invalidParameter, m)
  else match m.writeCodeBytes target bytes mark os with
    | (false, m) => (.error .relocationFailed, m)
    | (true, m) => (.ok (), m)

end ProcessMemory

/-! ### Hooks of any kind -/

namespace Hook

variable (M : Modules)

def isActive : Hook → Bool
  | .inline h => h.active
  | .iat h => h.active
  | .eat h => h.active
  | .vtable h => h.active
  | .vtableInstance h => h.active

def setEnabled (enabled : Bool) : Hook → Hook
  | .inline h => .inline { h with enabled }
  | .iat h => .iat { h with enabled }
  | .eat h => .eat { h with enabled }
  | .vtable h => .vtable { h with enabled }
  | .vtableInstance h => .vtableInstance { h with enabled }

def deactivate : Hook → Hook
  | .inline h => .inline { h with active := false }
  | .iat h => .iat { h with active := false }
  | .eat h => .eat { h with active := false }
  | .vtable h => .vtable { h with active := false }
  | .vtableInstance h => .vtableInstance { h with active := false }

/-- The write of `enable`. -/
def writeRedirect (m : ProcessMemory) (os : Protect) :
    Hook → Except DetourError Unit × ProcessMemory
  | .inline h => m.patchTarget h.target h.patchBytes (some (h.mark m.code)) os
  | .iat h => m.hookImport M h.module h.dllName h.funcName h.detour os
  | .eat h => m.writeExportSlotWith h.slotPtr h.detourRva os
  | .vtable h => m.writeSlotLocked h.slot h.detour os
  | .vtableInstance h => m.writeCloneSlot h h.detour

/-- The write of `disable`. -/
def writeOriginal (m : ProcessMemory) (os : Protect) :
    Hook → Except DetourError Unit × ProcessMemory
  | .inline h => m.patchTarget h.target h.origBytes none os
  | .iat h => m.hookImport M h.module h.dllName h.funcName h.originalPtr os
  | .eat h => m.writeExportSlotWith h.slotPtr h.originalRva os
  | .vtable h => m.writeSlotLocked h.slot h.originalPtr os
  | .vtableInstance h => m.writeCloneSlot h h.originalPtr

/-- `disable`, the same for every kind. -/
def disableUnder (m : ProcessMemory) (os : Protect) (h : Hook) :
    Except DetourError Unit × ProcessMemory × Hook :=
  if h.isEnabled = false then (.ok (), m, h)
  else match h.writeOriginal M m os with
    | (.error e, m) => (.error e, m, h)
    | (.ok (), m) => (.ok (), m, h.setEnabled false)

/-- `enable`, the same for every kind. -/
def enableUnder (m : ProcessMemory) (os : Protect) (h : Hook) :
    Except DetourError Unit × ProcessMemory × Hook :=
  if h.isActive = false then (.error .invalidParameter, m, h)
  else if h.isEnabled then (.ok (), m, h)
  else match h.writeRedirect M m os with
    | (.error e, m) => (.error e, m, h)
    | (.ok (), m) => (.ok (), m, h.setEnabled true)

/-! ### Removal -/

/-- `perform_unhook` of an instance hook. -/
def unhookInstance (m : ProcessMemory) (os : Protect) (h : VTableInstanceHook) :
    Except DetourError Unit × ProcessMemory × VTableInstanceHook :=
  if h.objectVptr = 0 ∨ h.clonedVtable = 0 then (.error (.vtable .invalidParameter), m, h)
  else match m.tables.instanceClones h.objectVptr with
    | none => (.error (.vtable .invalidParameter), m, h)
    | some s =>
      if s.hooks = 1 then
        let back := if m.tables.words h.objectVptr = s.clone
          then m.writeVptrLocked h.objectVptr s.originalVtable os else (.ok (), m)
        match back with
        | (.error e, m) => (.error e, m, h)
        | (.ok (), m) =>
          (.ok (), { m with
            tables := (m.tables.setClone h.objectVptr none).dealloc s.clone s.len },
            { h with clonedVtable := 0 })
      else
        let t := (m.tables.setWord (slotAddr h.clonedVtable h.index) h.originalPtr).setFlag
          (ownedFlag s.clone s.len h.index) false
        (.ok (), { m with
          tables := t.setClone h.objectVptr (some { s with hooks := s.hooks - 1 }) },
          { h with clonedVtable := 0 })

/-- `perform_unhook`. -/
def performUnhook (m : ProcessMemory) (os : Protect) :
    Hook → Except DetourError Unit × ProcessMemory × Hook
  | .inline h =>
    if h.target = 0 ∨ h.origBytes.length ≠ h.stolenLen then
      (.error .invalidParameter, m, .inline h)
    else match m.writeCodeBytes h.target h.origBytes none os with
      | (false, m) => (.error .relocationFailed, m, .inline h)
      | (true, m) => (.ok (), m, .inline h)
  | .vtableInstance h =>
    let r := unhookInstance m os h
    (r.1, r.2.1, .vtableInstance r.2.2)
  | h =>
    let r := h.writeOriginal M m os
    (r.1, r.2, h)

/-- What is given up once the original content is back: registrations, claims, stubs. -/
def letGo (m : ProcessMemory) (retargetOk : Bool) : Hook → ProcessMemory
  | .inline h =>
    let r := h.release m.code
    { m with code := r.2.dispose r.1 }
  | .iat h => { m with tables := m.tables.releaseTableSlot h.slot }
  | .eat h =>
    ⟨m.code.retireStub h.stub h.originalPtr retargetOk, m.tables.releaseTableSlot h.slotPtr⟩
  | .vtable h => { m with tables := m.tables.releaseTableSlot h.slot }
  | .vtableInstance _ => m

/-- A hook that has nothing left to give up when it is dropped. -/
def settled : Hook → Bool
  | .inline _ => false
  | .iat h => !h.claimed
  | .eat h => !h.claimed
  | .vtable h => !h.claimed
  | .vtableInstance h => !h.active

/-- `Drop`. -/
def dropUnder (m : ProcessMemory) (os : Protect) (retargetOk : Bool) (h : Hook) : ProcessMemory :=
  if h.settled then m
  else if h.isActive = false then h.letGo m retargetOk
  else match h.performUnhook M m os with
    | (.error _, m, _) => m
    | (.ok (), m, h) => h.letGo m retargetOk

/-- `unhook` consumes the hook: a failed attempt is followed by the one of `Drop`. -/
def unhookUnder (m : ProcessMemory) (os dropOs : Protect) (retargetOk : Bool) (h : Hook) :
    Except DetourError Unit × ProcessMemory :=
  if h.isActive = false then (.ok (), h.dropUnder M m dropOs retargetOk)
  else match h.performUnhook M m os with
    | (.error e, m, h) => (.error e, h.dropUnder M m dropOs retargetOk)
    | (.ok (), m, h) => (.ok (), h.deactivate.dropUnder M m dropOs retargetOk)

/-! ### Detaching -/

/-- `detach_prepare`: whether the hook was enabled. -/
def detachPrepare (m : ProcessMemory) (os : Protect) (h : Hook) :
    Except DetourError Bool × ProcessMemory × Hook :=
  if h.isEnabled then
    match h.disableUnder M m os with
    | (.error e, m, h) => (.error e, m, h)
    | (.ok (), m, h) => (.ok true, m, h)
  else (.ok false, m, h)

/-- `detach_rollback`, whose error the commit discards. -/
def detachRollback (m : ProcessMemory) (wasEnabled : Bool) (os : Protect) (h : Hook) :
    ProcessMemory × Hook :=
  if wasEnabled then (h.enableUnder M m os).2 else (m, h)

/-- The claim on its slot is given up. -/
def unclaim : Hook → Hook
  | .inline h => .inline { h with published := false }
  | .iat h => .iat { h with claimed := false }
  | .eat h => .eat { h with claimed := false, stub := none }
  | .vtable h => .vtable { h with claimed := false }
  | .vtableInstance h => .vtableInstance h

/-- `detach_finalize`. -/
def detachFinalizeUnder (m : ProcessMemory) (os : Protect) (retargetOk : Bool) (h : Hook) :
    ProcessMemory × Hook :=
  match h with
  | .inline i =>
    let m := if i.enabled then (m.patchTarget i.target i.origBytes none os).2 else m
    let r := i.release m.code
    ({ m with code := r.1.unregisterManagedGateway i.trampoline.ptr },
      ((Hook.inline r.2).setEnabled false).deactivate)
  | .vtableInstance i =>
    if i.active then
      let r := unhookInstance m os i
      (r.2.1, ((Hook.vtableInstance r.2.2).setEnabled false).deactivate)
    else (m, ((Hook.vtableInstance i).setEnabled false).deactivate)
  | h =>
    match h.disableUnder M m os with
    | (.error _, m, h) => (m, (h.setEnabled false).deactivate)
    | (.ok (), m, h) =>
      if h.settled then (m, (h.setEnabled false).deactivate)
      else (h.letGo m retargetOk, ((h.setEnabled false).deactivate).unclaim)

/-- A commit that detaches the hook; `others` is the error of another entry of its queue. -/
def detachUnder (m : ProcessMemory) (os after : Protect) (retargetOk : Bool)
    (others : Option DetourError) (h : Hook) : Except DetourError Unit × ProcessMemory × Hook :=
  match h.detachPrepare M m os with
  | (.error e, m, h) => (.error e, m, h)
  | (.ok wasEnabled, m, h) =>
    match others with
    | some e => (.error e, h.detachRollback M m wasEnabled after)
    | none => (.ok (), h.detachFinalizeUnder M m after retargetOk)

end Hook

/-! ### What a hook's range or slot holds -/

inductive Content where
  | bytes (bs : List UInt8)
  | word (w : ℕ)
  deriving DecidableEq, Repr

namespace Hook

/-- The bytes of the range, or the pointer in the slot; the slot of an instance hook is the one the
object dispatches through. -/
def content (m : ProcessMemory) : Hook → Content
  | .inline h => .bytes (read m.code.mem h.target h.stolenLen)
  | .iat h => .word (m.tables.words h.slot)
  | .eat h => .word (m.tables.words h.slotPtr)
  | .vtable h => .word (m.tables.words h.slot)
  | .vtableInstance h => .word (m.tables.words (slotAddr (m.tables.words h.objectVptr) h.index))

/-- The content that leads to the detour. -/
def redirect : Hook → Content
  | .inline h => .bytes h.patchBytes
  | .iat h => .word h.detour
  | .eat h => .word h.detourRva
  | .vtable h => .word h.detour
  | .vtableInstance h => .word h.detour

/-- The content before the hook. -/
def original : Hook → Content
  | .inline h => .bytes h.origBytes
  | .iat h => .word h.originalPtr
  | .eat h => .word h.originalRva
  | .vtable h => .word h.originalPtr
  | .vtableInstance h => .word h.originalPtr

end Hook

/-- The clone of an instance hook is registered and in use, and lies apart from the object and its
own table. -/
structure VTableInstanceHook.Registered (t : Tables) (h : VTableInstanceHook) : Prop where
  registered : ∃ s, t.instanceClones h.objectVptr = some s ∧ s.clone = h.clonedVtable ∧
    t.words (slotAddr s.originalVtable h.index) = h.originalPtr ∧
    slotAddr s.originalVtable h.index ≠ h.objectVptr ∧
    slotAddr s.originalVtable h.index ≠ slotAddr h.clonedVtable h.index
  vptr : t.words h.objectVptr = h.clonedVtable
  apart : h.objectVptr ≠ slotAddr h.clonedVtable h.index

theorem VTableInstanceHook.Registered.withFlags {t : Tables} {h : VTableInstanceHook}
    (r : h.Registered t) (active enabled : Bool) : { h with active, enabled }.Registered t :=
  ⟨r.registered, r.vptr, r.apart⟩

namespace Hook

variable (M : Modules)

/-- What is fixed when a hook is made: an inline hook's patch and saved bytes cover its range, which
is short; an import hook finds its slot by name; an instance hook has a clone until it is removed. -/
def Placed (m : ProcessMemory) : Hook → Prop
  | .inline h => h.target ≠ 0 ∧ 0 < h.stolenLen ∧ h.origBytes.length = h.stolenLen ∧
      h.patchBytes.length = h.stolenLen ∧
      h.target + h.stolenLen ≤ pageOf h.target + maxBatchPages * pageSize
  | .iat h => M.findImport h.module h.dllName h.funcName = .ok h.slot
  | .eat _ => True
  | .vtable _ => True
  | .vtableInstance h => (h.clonedVtable ≠ 0 → h.Registered m.tables) ∧
      (h.clonedVtable = 0 → h.active = false)

/-- The flag of the hook tells what its range or slot holds. -/
structure Tracks (m : ProcessMemory) (h : Hook) : Prop where
  placed : h.Placed M m
  content : h.content m = if h.isEnabled then h.redirect else h.original
  inert : h.isActive = false → h.isEnabled = false

end Hook

/-! ### Writes are whole or nothing -/

namespace ProcessMemory

variable {M : Modules} {m m' : ProcessMemory} {os : Protect}

/-- A write that fails leaves everything as it was. -/
theorem storeSlot_eq (m : ProcessMemory) (slot value : ℕ) (os : Protect) :
    m.storeSlot slot value os =
      if os.slotOk then (true, { m with tables := m.tables.setWord slot value })
      else (false, m) := by
  unfold storeSlot Protect.slotOk
  cases os.lift with
  | false => simp
  | true =>
    cases os.restore with
    | false => simp [Tables.setWord]
    | true => simp

theorem writeSlotLocked_eq (m : ProcessMemory) (slot value : ℕ) (os : Protect) :
    (∃ e, m.writeSlotLocked slot value os = (.error e, m)) ∨
      m.writeSlotLocked slot value os =
        (.ok (), { m with tables := m.tables.setWord slot value }) := by
  unfold writeSlotLocked
  rw [storeSlot_eq]
  split_ifs
  · exact Or.inl ⟨_, rfl⟩
  · exact Or.inr rfl
  · exact Or.inl ⟨_, rfl⟩

theorem writeExportSlotWith_eq (m : ProcessMemory) (slot rva : ℕ) (os : Protect) :
    (∃ e, m.writeExportSlotWith slot rva os = (.error e, m)) ∨
      m.writeExportSlotWith slot rva os =
        (.ok (), { m with tables := m.tables.setWord slot rva }) := by
  unfold writeExportSlotWith
  rw [storeSlot_eq]
  split_ifs
  · exact Or.inl ⟨_, rfl⟩
  · exact Or.inr rfl
  · exact Or.inl ⟨_, rfl⟩

theorem hookImport_eq {module slot : ℕ} {dll func : String}
    (found : M.findImport module dll func = .ok slot) (m : ProcessMemory) (detour : ℕ)
    (os : Protect) :
    (∃ e, m.hookImport M module dll func detour os = (.error e, m)) ∨
      m.hookImport M module dll func detour os =
        (.ok (), { m with tables := m.tables.setWord slot detour }) := by
  unfold hookImport
  simp only [found, storeSlot_eq]
  split_ifs
  · exact Or.inl ⟨_, rfl⟩
  · exact Or.inr rfl
  · exact Or.inl ⟨_, rfl⟩

/-- A write of code within one batch of pages. -/
theorem writeCodeBytes_eq {target : ℕ} {bytes : List UInt8}
    (short : target + bytes.length ≤ pageOf target + maxBatchPages * pageSize) (m : ProcessMemory)
    (mark : Option JumpMark) (os : Protect) :
    m.writeCodeBytes target bytes mark os = (false, m) ∨
      m.writeCodeBytes target bytes mark os =
        (true, { m with code := m.code.store target bytes mark }) := by
  unfold writeCodeBytes
  split_ifs
  · exact Or.inl rfl
  · set s : Pages := ⟨m.code.mem, os.prot, 0, [], false⟩
    rcases wrote : writePages os.pages target bytes false s with ⟨ok, s', saved⟩
    obtain ⟨-, -, -, stored, failed⟩ := writePages_done wrote
    cases ok with
    | false =>
      left
      simp only [(failed rfl short).1]
      rfl
    | true =>
      right
      simp only [(stored rfl).1]
      rfl

end ProcessMemory

namespace Hook

variable {M : Modules} {m m' : ProcessMemory} {os : Protect} {h h' : Hook}

@[simp] theorem content_setEnabled (m : ProcessMemory) (b : Bool) (h : Hook) :
    (h.setEnabled b).content m = h.content m := by
  cases h <;> rfl

@[simp] theorem redirect_setEnabled (b : Bool) (h : Hook) :
    (h.setEnabled b).redirect = h.redirect := by
  cases h <;> rfl

@[simp] theorem original_setEnabled (b : Bool) (h : Hook) :
    (h.setEnabled b).original = h.original := by
  cases h <;> rfl

@[simp] theorem isEnabled_setEnabled (b : Bool) (h : Hook) : (h.setEnabled b).isEnabled = b := by
  cases h <;> rfl

@[simp] theorem isActive_setEnabled (b : Bool) (h : Hook) :
    (h.setEnabled b).isActive = h.isActive := by
  cases h <;> rfl

theorem setEnabled_setEnabled (b c : Bool) (h : Hook) :
    (h.setEnabled b).setEnabled c = h.setEnabled c := by
  cases h <;> rfl

@[simp] theorem content_deactivate (m : ProcessMemory) (h : Hook) :
    h.deactivate.content m = h.content m := by
  cases h <;> rfl

@[simp] theorem original_deactivate (h : Hook) : h.deactivate.original = h.original := by
  cases h <;> rfl

@[simp] theorem isActive_deactivate (h : Hook) : h.deactivate.isActive = false := by
  cases h <;> rfl

@[simp] theorem isEnabled_deactivate (h : Hook) : h.deactivate.isEnabled = h.isEnabled := by
  cases h <;> rfl

theorem placed_setEnabled (placed : h.Placed M m) (b : Bool) : (h.setEnabled b).Placed M m := by
  cases h with
  | vtableInstance i => exact ⟨fun clone => (placed.1 clone).withFlags _ _, placed.2⟩
  | _ => exact placed

theorem placed_deactivate (placed : h.Placed M m) : h.deactivate.Placed M m := by
  cases h with
  | vtableInstance i => exact ⟨fun clone => (placed.1 clone).withFlags _ _, fun _ => rfl⟩
  | _ => exact placed

/-- A write of the hook fails and changes nothing, or puts the content in place. -/
def Writes (M : Modules) (m : ProcessMemory) (h : Hook) (c : Content)
    (r : Except DetourError Unit × ProcessMemory) : Prop :=
  (∃ e, r = (.error e, m)) ∨ ∃ m', r = (.ok (), m') ∧ h.content m' = c ∧ h.Placed M m'

theorem writes_inline {i : InlineHook} {bytes : List UInt8} {mark : Option JumpMark}
    (placed : (Hook.inline i).Placed M m) (length : bytes.length = i.stolenLen) :
    Writes M m (.inline i) (.bytes bytes) (m.patchTarget i.target bytes mark os) := by
  obtain ⟨target, positive, orig, patch, short⟩ := placed
  unfold ProcessMemory.patchTarget
  split_ifs
  · exact Or.inl ⟨_, rfl⟩
  · rcases ProcessMemory.writeCodeBytes_eq (by rw [length]; exact short) m mark os with eq | eq
    · rw [eq]
      exact Or.inl ⟨_, rfl⟩
    · rw [eq]
      refine Or.inr ⟨_, rfl, ?_, target, positive, orig, patch, short⟩
      show Content.bytes (read (write m.code.mem i.target bytes) i.target i.stolenLen) = _
      rw [← length, read_write_same]

theorem writes_instance {i : VTableInstanceHook} {value : ℕ}
    (placed : (Hook.vtableInstance i).Placed M m) :
    Writes M m (.vtableInstance i) (.word value) (m.writeCloneSlot i value) := by
  unfold ProcessMemory.writeCloneSlot
  by_cases null : i.clonedVtable = 0
  · rw [if_pos null]
    exact Or.inl ⟨_, rfl⟩
  · rw [if_neg null]
    obtain ⟨⟨s, found, clone, entry, vptr, slot⟩, dispatch, apart⟩ := placed.1 null
    have kept : (m.tables.setWord (slotAddr i.clonedVtable i.index) value).words i.objectVptr =
        i.clonedVtable := (Function.update_of_ne apart _ _).trans dispatch
    refine Or.inr ⟨_, rfl, ?_, fun _ => ⟨⟨s, found, clone, ?_, vptr, slot⟩, kept, apart⟩, placed.2⟩
    · show Content.word ((m.tables.setWord _ value).words (slotAddr ((m.tables.setWord _ value).words
        i.objectVptr) i.index)) = _
      rw [kept]
      exact congrArg Content.word (Function.update_self _ _ _)
    · exact (Function.update_of_ne slot _ _).trans entry

theorem writes_redirect (placed : h.Placed M m) (os : Protect) :
    Writes M m h h.redirect (h.writeRedirect M m os) := by
  cases h with
  | inline i => exact writes_inline placed placed.2.2.2.1
  | iat i =>
    rcases ProcessMemory.hookImport_eq placed m i.detour os with ⟨e, eq⟩ | eq
    · exact Or.inl ⟨e, eq⟩
    · exact Or.inr ⟨_, eq, congrArg Content.word (Function.update_self _ _ _), placed⟩
  | eat i =>
    rcases m.writeExportSlotWith_eq i.slotPtr i.detourRva os with ⟨e, eq⟩ | eq
    · exact Or.inl ⟨e, eq⟩
    · exact Or.inr ⟨_, eq, congrArg Content.word (Function.update_self _ _ _), trivial⟩
  | vtable i =>
    rcases m.writeSlotLocked_eq i.slot i.detour os with ⟨e, eq⟩ | eq
    · exact Or.inl ⟨e, eq⟩
    · exact Or.inr ⟨_, eq, congrArg Content.word (Function.update_self _ _ _), trivial⟩
  | vtableInstance i => exact writes_instance placed

theorem writes_original (placed : h.Placed M m) (os : Protect) :
    Writes M m h h.original (h.writeOriginal M m os) := by
  cases h with
  | inline i => exact writes_inline placed placed.2.2.1
  | iat i =>
    rcases ProcessMemory.hookImport_eq placed m i.originalPtr os with ⟨e, eq⟩ | eq
    · exact Or.inl ⟨e, eq⟩
    · exact Or.inr ⟨_, eq, congrArg Content.word (Function.update_self _ _ _), placed⟩
  | eat i =>
    rcases m.writeExportSlotWith_eq i.slotPtr i.originalRva os with ⟨e, eq⟩ | eq
    · exact Or.inl ⟨e, eq⟩
    · exact Or.inr ⟨_, eq, congrArg Content.word (Function.update_self _ _ _), trivial⟩
  | vtable i =>
    rcases m.writeSlotLocked_eq i.slot i.originalPtr os with ⟨e, eq⟩ | eq
    · exact Or.inl ⟨e, eq⟩
    · exact Or.inr ⟨_, eq, congrArg Content.word (Function.update_self _ _ _), trivial⟩
  | vtableInstance i => exact writes_instance placed

/-! ### Enabling and disabling -/

theorem setEnabled_of_eq {b : Bool} (eq : h.isEnabled = b) : h.setEnabled b = h := by
  cases h <;> cases eq <;> rfl

theorem tracks_setEnabled {b : Bool} (active : b = true → h.isActive = true)
    (placed : h.Placed M m') (content : h.content m' = if b then h.redirect else h.original) :
    (h.setEnabled b).Tracks M m' where
  placed := placed_setEnabled placed b
  content := by simpa using content
  inert := fun gone => by
    rw [isActive_setEnabled] at gone
    rw [isEnabled_setEnabled]
    cases b with
    | false => rfl
    | true => rw [active rfl] at gone; cases gone

theorem enableUnder_cases (tracks : h.Tracks M m) (os : Protect) :
    (∃ e, h.enableUnder M m os = (.error e, m, h)) ∨
      ∃ m', h.enableUnder M m os = (.ok (), m', h.setEnabled true) ∧
        (h.setEnabled true).Tracks M m' := by
  unfold enableUnder
  by_cases gone : h.isActive = false
  · rw [if_pos gone]
    exact Or.inl ⟨_, rfl⟩
  · rw [if_neg gone]
    by_cases on : h.isEnabled = true
    · rw [if_pos on]
      exact Or.inr ⟨m, by rw [setEnabled_of_eq on], by rw [setEnabled_of_eq on]; exact tracks⟩
    · rw [if_neg on]
      rcases writes_redirect tracks.placed os with ⟨e, eq⟩ | ⟨m', eq, content, placed⟩
      · rw [eq]
        exact Or.inl ⟨e, rfl⟩
      · rw [eq]
        exact Or.inr ⟨m', rfl, tracks_setEnabled (fun _ => by simpa using gone) placed content⟩

theorem disableUnder_cases (tracks : h.Tracks M m) (os : Protect) :
    (∃ e, h.disableUnder M m os = (.error e, m, h)) ∨
      ∃ m', h.disableUnder M m os = (.ok (), m', h.setEnabled false) ∧
        (h.setEnabled false).Tracks M m' := by
  unfold disableUnder
  by_cases off : h.isEnabled = false
  · rw [if_pos off]
    exact Or.inr ⟨m, by rw [setEnabled_of_eq off], by rw [setEnabled_of_eq off]; exact tracks⟩
  · rw [if_neg off]
    rcases writes_original tracks.placed os with ⟨e, eq⟩ | ⟨m', eq, content, placed⟩
    · rw [eq]
      exact Or.inl ⟨e, rfl⟩
    · rw [eq]
      exact Or.inr ⟨m', rfl, tracks_setEnabled (fun on => nomatch on) placed content⟩

theorem enableUnder_twice (done : h.enableUnder M m os = (.ok (), m', h')) (os' : Protect) :
    h'.enableUnder M m' os' = (.ok (), m', h') := by
  unfold enableUnder at done
  by_cases gone : h.isActive = false
  · rw [if_pos gone] at done
    cases done
  · rw [if_neg gone] at done
    by_cases on : h.isEnabled = true
    · rw [if_pos on] at done
      cases done
      rw [enableUnder, if_neg gone, if_pos on]
    · rw [if_neg on] at done
      split at done
      · cases done
      · cases done
        rw [enableUnder, isActive_setEnabled, if_neg gone, if_pos (isEnabled_setEnabled true h)]

theorem disableUnder_twice (done : h.disableUnder M m os = (.ok (), m', h')) (os' : Protect) :
    h'.disableUnder M m' os' = (.ok (), m', h') := by
  unfold disableUnder at done
  by_cases off : h.isEnabled = false
  · rw [if_pos off] at done
    cases done
    rw [disableUnder, if_pos off]
  · rw [if_neg off] at done
    split at done
    · cases done
    · cases done
      rw [disableUnder, if_pos (isEnabled_setEnabled false h)]

/-! ### The operations of the kinds -/

/-- The result of an operation that changes nothing when it fails. -/
def outcome (m : ProcessMemory) (h : Hook) :
    Except DetourError (Code × Tables × Hook) → Except DetourError Unit × ProcessMemory × Hook
  | .error e => (.error e, m, h)
  | .ok (c, t, h) => (.ok (), ⟨c, t⟩, h)

theorem patchTarget_eq {target : ℕ} {bytes : List UInt8}
    (short : target + bytes.length ≤ pageOf target + maxBatchPages * pageSize) (m : ProcessMemory)
    (mark : Option JumpMark) (os : Protect) :
    ∃ ok, m.patchTarget target bytes mark os =
      match InlineHook.patchTarget m.code target bytes mark ok with
      | .error e => (.error e, m)
      | .ok c => (.ok (), { m with code := c }) := by
  unfold ProcessMemory.patchTarget InlineHook.patchTarget Code.writeCodeBytes
  by_cases null : target = 0 ∨ bytes = []
  · refine ⟨true, ?_⟩
    rw [if_pos null, if_pos null]
  · rw [if_neg null]
    rcases ProcessMemory.writeCodeBytes_eq short m mark os with eq | eq
    · refine ⟨false, ?_⟩
      rw [if_neg null, eq]
      simp
    · refine ⟨true, ?_⟩
      rw [if_neg null, eq]
      rw [not_or] at null
      simp [null.1, null.2]

theorem hookImport_atomic (m : ProcessMemory) (module : ℕ) (dll func : String) (detour : ℕ)
    (os : Protect) :
    m.hookImport M module dll func detour os =
      match IatHook.hookImport M m.tables module dll func detour os.slotOk with
      | .error e => (.error (.iat e), m)
      | .ok (_, t) => (.ok (), { m with tables := t }) := by
  unfold ProcessMemory.hookImport IatHook.hookImport
  by_cases null : module = 0 ∨ detour = 0
  · rw [if_pos null, if_pos null]
  · rw [if_neg null, if_neg null]
    cases M.findImport module dll func with
    | error e => rfl
    | ok slot =>
      simp only [ProcessMemory.storeSlot_eq, bind, Except.bind]
      cases os.slotOk <;> rfl

theorem writeExportSlotWith_atomic (m : ProcessMemory) (slot rva : ℕ) (os : Protect) :
    m.writeExportSlotWith slot rva os =
      match EatHook.writeExportRva m.tables slot rva os.slotOk with
      | .error e => (.error e, m)
      | .ok t => (.ok (), { m with tables := t }) := by
  unfold ProcessMemory.writeExportSlotWith EatHook.writeExportRva
  rw [ProcessMemory.storeSlot_eq]
  split_ifs <;> rfl

theorem writeSlotLocked_atomic (m : ProcessMemory) (slot value : ℕ) (os : Protect) :
    m.writeSlotLocked slot value os =
      match m.tables.writeSlot slot value os.slotOk with
      | .error e => (.error (.vtable e), m)
      | .ok t => (.ok (), { m with tables := t }) := by
  unfold ProcessMemory.writeSlotLocked Tables.writeSlot
  rw [ProcessMemory.storeSlot_eq]
  split_ifs <;> rfl

/-- `disable` of each kind, with an outcome of its write. -/
theorem disableUnder_eq (placed : h.Placed M m) (os : Protect) :
    ∃ ok, h.disableUnder M m os = outcome m h (h.disable M m.code m.tables ok) := by
  unfold disableUnder
  cases h with
  | inline i =>
    obtain ⟨-, -, orig, -, short⟩ := placed
    obtain ⟨ok, eq⟩ := patchTarget_eq (by rw [orig]; exact short) m none os
    refine ⟨ok, ?_⟩
    simp only [writeOriginal, eq, Hook.disable, InlineHook.disable, isEnabled]
    by_cases off : i.enabled = false
    · rw [if_pos off, if_pos off]
      rfl
    rw [if_neg off, if_neg off]
    cases InlineHook.patchTarget m.code i.target i.origBytes none ok <;> rfl
  | iat i =>
    refine ⟨os.slotOk, ?_⟩
    simp only [writeOriginal, hookImport_atomic, Hook.disable, IatHook.disable, isEnabled]
    by_cases off : i.enabled = false
    · rw [if_pos off, if_pos off]
      rfl
    rw [if_neg off, if_neg off]
    rcases IatHook.hookImport M m.tables i.module i.dllName i.funcName i.originalPtr
      os.slotOk with e | ⟨original, t⟩ <;> rfl
  | eat i =>
    refine ⟨os.slotOk, ?_⟩
    simp only [writeOriginal, writeExportSlotWith_atomic, Hook.disable, EatHook.disable, isEnabled]
    by_cases off : i.enabled = false
    · rw [if_pos off, if_pos off]
      rfl
    rw [if_neg off, if_neg off]
    cases EatHook.writeExportRva m.tables i.slotPtr i.originalRva os.slotOk <;> rfl
  | vtable i =>
    refine ⟨os.slotOk, ?_⟩
    simp only [writeOriginal, writeSlotLocked_atomic, Hook.disable, VTableHook.disable, isEnabled]
    by_cases off : i.enabled = false
    · rw [if_pos off, if_pos off]
      rfl
    rw [if_neg off, if_neg off]
    cases m.tables.writeSlot i.slot i.originalPtr os.slotOk <;> rfl
  | vtableInstance i =>
    refine ⟨true, ?_⟩
    simp only [writeOriginal, ProcessMemory.writeCloneSlot, Hook.disable,
      VTableInstanceHook.disable, VTableInstanceHook.writeCloneSlot]
    have flag : (Hook.vtableInstance i).isEnabled = i.enabled := rfl
    by_cases off : i.enabled = false
    · rw [if_pos (flag.trans off), if_pos off]
      rfl
    rw [if_neg (flag ▸ off), if_neg off]
    by_cases null : i.clonedVtable = 0
    · rw [if_pos null, if_pos null]
      rfl
    · rw [if_neg null, if_neg null]
      rfl

/-- `enable` of each kind, with an outcome of its write. -/
theorem enableUnder_eq (placed : h.Placed M m) (os : Protect) :
    ∃ ok, h.enableUnder M m os = outcome m h (h.enable M m.code m.tables ok) := by
  unfold enableUnder
  cases h with
  | inline i =>
    obtain ⟨-, -, -, patch, short⟩ := placed
    obtain ⟨ok, eq⟩ := patchTarget_eq (by rw [patch]; exact short) m (some (i.mark m.code)) os
    refine ⟨ok, ?_⟩
    simp only [writeRedirect, eq, Hook.enable, InlineHook.enable, isEnabled, isActive]
    by_cases inactive : i.active = false
    · rw [if_pos inactive, if_pos inactive]
      rfl
    rw [if_neg inactive, if_neg inactive]
    by_cases on : i.enabled = true
    · rw [if_pos on, if_pos on]
      rfl
    rw [if_neg on, if_neg on]
    cases InlineHook.patchTarget m.code i.target i.patchBytes (some (i.mark m.code)) ok <;> rfl
  | iat i =>
    refine ⟨os.slotOk, ?_⟩
    simp only [writeRedirect, hookImport_atomic, Hook.enable, IatHook.enable, isEnabled, isActive]
    by_cases inactive : i.active = false
    · rw [if_pos inactive, if_pos inactive]
      rfl
    rw [if_neg inactive, if_neg inactive]
    by_cases on : i.enabled = true
    · rw [if_pos on, if_pos on]
      rfl
    rw [if_neg on, if_neg on]
    rcases IatHook.hookImport M m.tables i.module i.dllName i.funcName i.detour
      os.slotOk with e | ⟨original, t⟩ <;> rfl
  | eat i =>
    refine ⟨os.slotOk, ?_⟩
    simp only [writeRedirect, writeExportSlotWith_atomic, Hook.enable, EatHook.enable, isEnabled,
      isActive]
    by_cases inactive : i.active = false
    · rw [if_pos inactive, if_pos inactive]
      rfl
    rw [if_neg inactive, if_neg inactive]
    by_cases on : i.enabled = true
    · rw [if_pos on, if_pos on]
      rfl
    rw [if_neg on, if_neg on]
    cases EatHook.writeExportRva m.tables i.slotPtr i.detourRva os.slotOk <;> rfl
  | vtable i =>
    refine ⟨os.slotOk, ?_⟩
    simp only [writeRedirect, writeSlotLocked_atomic, Hook.enable, VTableHook.enable, isEnabled,
      isActive]
    by_cases inactive : i.active = false
    · rw [if_pos inactive, if_pos inactive]
      rfl
    rw [if_neg inactive, if_neg inactive]
    by_cases on : i.enabled = true
    · rw [if_pos on, if_pos on]
      rfl
    rw [if_neg on, if_neg on]
    cases m.tables.writeSlot i.slot i.detour os.slotOk <;> rfl
  | vtableInstance i =>
    refine ⟨true, ?_⟩
    simp only [writeRedirect, ProcessMemory.writeCloneSlot, Hook.enable,
      VTableInstanceHook.enable, VTableInstanceHook.writeCloneSlot]
    have live : (Hook.vtableInstance i).isActive = i.active := rfl
    have flag : (Hook.vtableInstance i).isEnabled = i.enabled := rfl
    by_cases inactive : i.active = false
    · rw [if_pos (live.trans inactive), if_pos inactive]
      rfl
    rw [if_neg (live ▸ inactive), if_neg inactive]
    by_cases on : i.enabled = true
    · rw [if_pos (flag.trans on), if_pos on]
      rfl
    rw [if_neg (flag ▸ on), if_neg on]
    by_cases null : i.clonedVtable = 0
    · rw [if_pos null, if_pos null]
      rfl
    · rw [if_neg null, if_neg null]
      rfl

/-! ### Removal -/

theorem unhookInstance_cases {i : VTableInstanceHook} (placed : (Hook.vtableInstance i).Placed M m)
    (os : Protect) :
    (∃ e, unhookInstance m os i = (.error e, m, i)) ∨
      ∃ m', unhookInstance m os i = (.ok (), m', { i with clonedVtable := 0 }) ∧
        (Hook.vtableInstance i).content m' = .word i.originalPtr := by
  unfold unhookInstance
  by_cases null : i.objectVptr = 0 ∨ i.clonedVtable = 0
  · rw [if_pos null]
    exact Or.inl ⟨_, rfl⟩
  · rw [if_neg null]
    obtain ⟨⟨s, found, clone, entry, vptr, slot⟩, dispatch, apart⟩ :=
      placed.1 fun zero => null (Or.inr zero)
    simp only [found, clone, if_pos dispatch]
    by_cases last : s.hooks = 1
    · rw [if_pos last]
      unfold ProcessMemory.writeVptrLocked
      rcases m.writeSlotLocked_eq i.objectVptr s.originalVtable os with ⟨e, eq⟩ | eq
      · rw [eq]
        exact Or.inl ⟨e, rfl⟩
      · rw [eq]
        refine Or.inr ⟨_, rfl, congrArg Content.word ?_⟩
        show Function.update m.tables.words i.objectVptr s.originalVtable
          (slotAddr (Function.update m.tables.words i.objectVptr s.originalVtable i.objectVptr)
            i.index) = _
        rw [Function.update_self, Function.update_of_ne vptr]
        exact entry
    · rw [if_neg last]
      refine Or.inr ⟨_, rfl, congrArg Content.word ?_⟩
      show Function.update m.tables.words (slotAddr i.clonedVtable i.index) i.originalPtr
        (slotAddr (Function.update m.tables.words (slotAddr i.clonedVtable i.index) i.originalPtr
          i.objectVptr) i.index) = _
      rw [Function.update_of_ne apart, dispatch, Function.update_self]

/-- A removal that fails changes nothing; one that succeeds brings the original content back. -/
theorem performUnhook_cases (placed : h.Placed M m) (os : Protect) :
    (∃ e, h.performUnhook M m os = (.error e, m, h)) ∨
      ∃ m' h', h.performUnhook M m os = (.ok (), m', h') ∧ h.content m' = h.original ∧
        ∀ m, h'.content m = h.content m := by
  cases h with
  | inline i =>
    obtain ⟨target, positive, orig, patch, short⟩ := placed
    unfold performUnhook
    simp only
    split_ifs
    · exact Or.inl ⟨_, rfl⟩
    · rcases ProcessMemory.writeCodeBytes_eq (by rw [orig]; exact short) m none os with eq | eq
      · rw [eq]
        exact Or.inl ⟨_, rfl⟩
      · rw [eq]
        refine Or.inr ⟨_, _, rfl, ?_, fun _ => rfl⟩
        show Content.bytes (read (write m.code.mem i.target i.origBytes) i.target i.stolenLen) = _
        rw [← orig, read_write_same]
        rfl
  | vtableInstance i =>
    rcases unhookInstance_cases placed os with ⟨e, eq⟩ | ⟨m', eq, content⟩
    · exact Or.inl ⟨e, by simp only [performUnhook, eq]⟩
    · exact Or.inr ⟨m', .vtableInstance { i with clonedVtable := 0 },
        by simp only [performUnhook, eq], content, fun _ => rfl⟩
  | iat i =>
    rcases writes_original placed os with ⟨e, eq⟩ | ⟨m', eq, content, -⟩
    · exact Or.inl ⟨e, by simp only [performUnhook, eq]⟩
    · exact Or.inr ⟨m', _, by simp only [performUnhook, eq], content, fun _ => rfl⟩
  | eat i =>
    rcases writes_original placed os with ⟨e, eq⟩ | ⟨m', eq, content, -⟩
    · exact Or.inl ⟨e, by simp only [performUnhook, eq]⟩
    · exact Or.inr ⟨m', _, by simp only [performUnhook, eq], content, fun _ => rfl⟩
  | vtable i =>
    rcases writes_original placed os with ⟨e, eq⟩ | ⟨m', eq, content, -⟩
    · exact Or.inl ⟨e, by simp only [performUnhook, eq]⟩
    · exact Or.inr ⟨m', _, by simp only [performUnhook, eq], content, fun _ => rfl⟩

/-- Giving up claims and stubs does not touch the range or slot. -/
theorem content_letGo (m : ProcessMemory) (retargetOk : Bool) (h : Hook) :
    h.content (h.letGo m retargetOk) = h.content m := by
  cases h with
  | inline i =>
    show Content.bytes (read ((i.release m.code).2.dispose (i.release m.code).1).mem i.target
      i.stolenLen) = _
    rw [(InlineHook.dispose_sameMemory _ _).mem, (InlineHook.release_sameMemory _ _).mem]
    rfl
  | _ => rfl

/-- A dropped hook leaves its range or slot alone or brings the original content back. -/
theorem dropUnder_content (placed : h.Placed M m) (os : Protect) (retargetOk : Bool) :
    h.content (h.dropUnder M m os retargetOk) = h.content m ∨
      h.content (h.dropUnder M m os retargetOk) = h.original := by
  unfold dropUnder
  split_ifs
  · exact Or.inl rfl
  · exact Or.inl (content_letGo m retargetOk h)
  · rcases performUnhook_cases placed os with ⟨e, eq⟩ | ⟨m', h', eq, content, same⟩
    · rw [eq]
      exact Or.inl rfl
    · rw [eq]
      refine Or.inr ?_
      show h.content (h'.letGo m' retargetOk) = h.original
      rw [← same, content_letGo, same]
      exact content

/-- Dropping an inactive hook leaves its range or slot alone. -/
theorem dropUnder_of_inactive (inactive : h.isActive = false) (m : ProcessMemory) (os : Protect)
    (retargetOk : Bool) : h.content (h.dropUnder M m os retargetOk) = h.content m := by
  unfold dropUnder
  rw [if_pos inactive]
  split_ifs
  · rfl
  · exact content_letGo m retargetOk h

theorem unhookUnder_content (tracks : h.Tracks M m) (os dropOs : Protect) (retargetOk : Bool) :
    ((h.unhookUnder M m os dropOs retargetOk).1 = .ok () →
      h.content (h.unhookUnder M m os dropOs retargetOk).2 = h.original) ∧
    (h.content (h.unhookUnder M m os dropOs retargetOk).2 = h.content m ∨
      h.content (h.unhookUnder M m os dropOs retargetOk).2 = h.original) := by
  unfold unhookUnder
  by_cases gone : h.isActive = false
  · rw [if_pos gone]
    have kept := dropUnder_of_inactive (M := M) gone m dropOs retargetOk
    have content := tracks.content
    rw [tracks.inert gone] at content
    exact ⟨fun _ => kept.trans content, Or.inl kept⟩
  · rw [if_neg gone]
    rcases performUnhook_cases tracks.placed os with ⟨e, eq⟩ | ⟨m', h', eq, content, same⟩
    · rw [eq]
      exact ⟨(fun done => nomatch done), dropUnder_content tracks.placed dropOs retargetOk⟩
    · rw [eq]
      have restored : h.content (h'.deactivate.dropUnder M m' dropOs retargetOk) = h.original := by
        rw [← same, ← content_deactivate,
          dropUnder_of_inactive (isActive_deactivate h'), content_deactivate, same]
        exact content
      exact ⟨fun _ => restored, Or.inr restored⟩

/-! ### Detaching -/

theorem detachPrepare_cases (tracks : h.Tracks M m) (os : Protect) :
    (∃ e, h.detachPrepare M m os = (.error e, m, h)) ∨
      ∃ m', h.detachPrepare M m os = (.ok h.isEnabled, m', h.setEnabled false) ∧
        (h.setEnabled false).Tracks M m' ∧ (h.isEnabled = false → m' = m) := by
  unfold detachPrepare
  cases on : h.isEnabled with
  | false =>
    rw [if_neg Bool.false_ne_true, setEnabled_of_eq on]
    exact Or.inr ⟨m, rfl, tracks, fun _ => rfl⟩
  | true =>
    rw [if_pos rfl]
    rcases disableUnder_cases tracks os with ⟨e, eq⟩ | ⟨m', eq, after⟩
    · rw [eq]
      exact Or.inl ⟨e, rfl⟩
    · rw [eq]
      exact Or.inr ⟨m', rfl, after, fun off => nomatch off⟩

/-- A hook that is turned off and inactive still tells what its range or slot holds. -/
theorem tracks_inert (placed : h.Placed M m) (content : h.content m = h.original) :
    ((h.setEnabled false).deactivate).Tracks M m where
  placed := placed_deactivate (placed_setEnabled placed false)
  content := by simpa using content
  inert := fun _ => by simp

theorem placed_unclaim (placed : h.Placed M m) : h.unclaim.Placed M m := by
  cases h <;> exact placed

theorem tracks_unclaim (tracks : h.Tracks M m) : h.unclaim.Tracks M m where
  placed := placed_unclaim tracks.placed
  content := by
    have content := tracks.content
    cases h <;> exact content
  inert := by
    have inert := tracks.inert
    cases h <;> exact inert

theorem placed_letGo (placed : h.Placed M m) (retargetOk : Bool) :
    h.Placed M (h.letGo m retargetOk) := by
  cases h <;> exact placed

/-- The end of `detach_finalize` for a hook on a claimed slot that holds the original content. -/
theorem tracks_finalized (placed : h.Placed M m) (content : h.content m = h.original)
    (retargetOk : Bool) :
    let r := if h.settled then (m, (h.setEnabled false).deactivate)
      else (h.letGo m retargetOk, ((h.setEnabled false).deactivate).unclaim)
    r.2.Tracks M r.1 ∧ r.2.isActive = false := by
  intro r
  by_cases settled : h.settled = true
  · simp only [r, if_pos settled]
    exact ⟨tracks_inert placed content, isActive_deactivate _⟩
  · simp only [r, if_neg settled]
    refine ⟨tracks_unclaim (tracks_inert (placed_letGo placed retargetOk) ?_), ?_⟩
    · rw [content_letGo]
      exact content
    · cases h <;> rfl

theorem detachFinalizeUnder_tracks (tracks : h.Tracks M m) (off : h.isEnabled = false) (os : Protect)
    (retargetOk : Bool) :
    (h.detachFinalizeUnder M m os retargetOk).2.Tracks M
        (h.detachFinalizeUnder M m os retargetOk).1 ∧
      (h.detachFinalizeUnder M m os retargetOk).2.isActive = false := by
  have content := tracks.content
  rw [off, if_neg Bool.false_ne_true] at content
  cases h with
  | inline i =>
    have plain : i.enabled = false := off
    simp only [detachFinalizeUnder, plain, Bool.false_eq_true, if_false]
    have fields : ∀ c, (i.release c).2 = i ∨ (i.release c).2 = { i with published := false } := by
      intro c
      unfold InlineHook.release
      split_ifs
      · exact Or.inl rfl
      · exact Or.inr rfl
    have bytes : ((i.release m.code).1.unregisterManagedGateway i.trampoline.ptr).mem = m.code.mem :=
      (InlineHook.release_sameMemory m.code i).mem
    rcases fields m.code with eq | eq <;> rw [eq]
    · refine ⟨tracks_inert tracks.placed ?_, isActive_deactivate _⟩
      simp only [Hook.content, bytes]
      exact content
    · refine ⟨tracks_inert tracks.placed ?_, isActive_deactivate _⟩
      simp only [Hook.content, bytes]
      exact content
  | vtableInstance i =>
    unfold detachFinalizeUnder
    simp only
    by_cases active : i.active = true
    · rw [if_pos active]
      rcases unhookInstance_cases tracks.placed os with ⟨e, eq⟩ | ⟨m', eq, restored⟩
      · rw [eq]
        exact ⟨tracks_inert tracks.placed content, rfl⟩
      · rw [eq]
        refine ⟨⟨?_, restored, fun _ => rfl⟩, rfl⟩
        exact ⟨fun clone => absurd rfl clone, fun _ => rfl⟩
    · rw [if_neg active]
      exact ⟨tracks_inert tracks.placed content, rfl⟩
  | iat i =>
    simp only [detachFinalizeUnder, disableUnder, off, if_true]
    exact tracks_finalized tracks.placed content retargetOk
  | eat i =>
    simp only [detachFinalizeUnder, disableUnder, off, if_true]
    exact tracks_finalized tracks.placed content retargetOk
  | vtable i =>
    simp only [detachFinalizeUnder, disableUnder, off, if_true]
    exact tracks_finalized tracks.placed content retargetOk

theorem detachUnder_cases (tracks : h.Tracks M m) (os after : Protect) (retargetOk : Bool)
    (others : Option DetourError) :
    let r := h.detachUnder M m os after retargetOk others
    r.2.2.Tracks M r.2.1 ∧ (r.1 = .ok () ∨ h.isActive = false → r.2.2.isActive = false) ∧
      (∀ e, r.1 = .error e → (r.2.2 = h ∧ h.content r.2.1 = h.content m) ∨
        (others = some e ∧ h.isEnabled = true ∧ r.2.2.isEnabled = false)) := by
  intro r
  rcases detachPrepare_cases tracks os with ⟨e, eq⟩ | ⟨m', eq, prepared, same⟩
  · have r_eq : r = (.error e, m, h) := by
      simp only [r, detachUnder, eq]
    rw [r_eq]
    exact ⟨tracks, fun done => done.resolve_left (fun ok => nomatch ok),
      fun _ _ => Or.inl ⟨rfl, rfl⟩⟩
  · cases others with
    | none =>
      have r_eq : r = (.ok (), (h.setEnabled false).detachFinalizeUnder M m' after retargetOk) := by
        simp only [r, detachUnder, eq]
      rw [r_eq]
      have done := detachFinalizeUnder_tracks prepared (isEnabled_setEnabled false h) after retargetOk
      exact ⟨done.1, fun _ => done.2, fun _ failed => nomatch failed⟩
    | some e =>
      have r_eq : r = (.error e, (h.setEnabled false).detachRollback M m' h.isEnabled after) := by
        simp only [r, detachUnder, eq]
      rw [r_eq]
      unfold detachRollback
      cases on : h.isEnabled with
      | false =>
        rw [if_neg Bool.false_ne_true, same on, setEnabled_of_eq on]
        exact ⟨tracks, fun done => done.resolve_left (fun ok => nomatch ok),
          fun _ _ => Or.inl ⟨rfl, rfl⟩⟩
      | true =>
        rw [if_pos rfl]
        rcases enableUnder_cases prepared after with ⟨e', eq'⟩ | ⟨m'', eq', restored⟩
        · rw [eq']
          refine ⟨prepared, fun done => ?_, fun e'' failed => Or.inr ⟨?_, rfl, ?_⟩⟩
          · exact (isActive_setEnabled false h).trans (done.resolve_left (fun ok => nomatch ok))
          · rw [Except.error.inj failed]
          · exact isEnabled_setEnabled false h
        · have twice : (h.setEnabled false).setEnabled true = h := by
            rw [setEnabled_setEnabled, setEnabled_of_eq on]
          rw [twice] at eq' restored
          rw [eq']
          refine ⟨restored, fun done => done.resolve_left (fun ok => nomatch ok),
            fun _ _ => Or.inl ⟨rfl, ?_⟩⟩
          rw [restored.content, tracks.content]

end Hook

/-! ### Hooks as the code makes them -/

/-- Lengths of a queued inline hook. -/
theorem attachInner_lengths {C : Codec} (laws : C.Decodes) {foreign : List Region} {c c' : Code}
    {pending : List PendingHook} {target detour gateway : ℕ} {follow : Bool} {os : AttachOs}
    {d : InlineData} (attached : attachInner C foreign c pending target detour follow os =
      (.ok gateway, c', pending ++ [.inline d])) :
    d.target ≠ 0 ∧ d.origBytes.length = d.stolenLen ∧ 0 < d.stolenLen ∧ d.stolenLen ≤ 28 := by
  have same : ∀ {e : Except DetourError ℕ} {c₁ : Code},
      (e, c₁, pending) ≠ (.ok gateway, c', pending ++ [.inline d]) := by
    intro e c₁ eq
    simp at eq
  unfold attachInner at attached
  split_ifs at attached with null chained path
  · exact absurd attached same
  · exact absurd attached same
  · unfold attachGateway at attached
    split at attached
    · exact absurd attached same
    · split at attached
      · exact absurd attached same
      · split at attached
        · exact absurd attached same
        · simp only [Prod.mk.injEq, List.append_cancel_left_eq, List.cons.injEq,
            PendingHook.inline.injEq, and_true] at attached
          obtain ⟨-, -, rfl⟩ := attached
          have len : 0 < managedGatewayLen ∧ managedGatewayLen ≤ 28 := by decide
          exact ⟨fun zero => null (Or.inl zero), length_read _ _ _, len.1, len.2⟩
  · simp only at attached
    split_ifs at attached with zero
    · exact absurd attached same
    · unfold attachNormal at attached
      split at attached
      · exact absurd attached same
      · simp only at attached
        split at attached
        · exact absurd attached same
        · rename_i stolenLen measured
          split_ifs at attached
          · exact absurd attached same
          · split at attached
            · exact absurd attached same
            · split at attached
              · exact absurd attached same
              · split_ifs at attached
                · exact absurd attached same
                · simp only [Prod.mk.injEq, List.append_cancel_left_eq, List.cons.injEq,
                    PendingHook.inline.injEq, and_true] at attached
                  obtain ⟨-, -, rfl⟩ := attached
                  have pos := JumpType.size_pos
                    (selectJump (resolveTarget c target follow os) detour)
                  have size := selectJump_size_le (resolveTarget c target follow os) detour
                  obtain ⟨l, leading, rfl, covered, short, -⟩ :=
                    (Disassembler.getInstructionLen_walk laws pos).1 measured
                  have bound := leading.size_le_add short
                  exact ⟨zero, length_read _ _ _, pos.trans_le covered,
                    bound.trans (Nat.add_le_add_right size 14)⟩

/-- A hook that was just installed, or a live instance hook. -/
inductive Hook.Fresh (M : Modules) : ProcessMemory → Hook → Prop
  | inline {C : Codec} (laws : C.Decodes) {foreign : List Region} {c c' : Code}
      {pending : List PendingHook} {target detour gateway : ℕ} {follow : Bool} {os : AttachOs}
      {d : InlineData} {patch : List UInt8} {index : ℕ} {answers : CommitOs} {w w' : Window}
      (attached : attachInner C foreign c pending target detour follow os =
        (.ok gateway, c', pending ++ [.inline d]))
      (word : d.target < 2 ^ 64)
      (installed : installInline index d (.patch patch) answers w = (.ok (), w')) :
      Fresh M ⟨w'.process.code, w'.process.tables⟩ (.inline (d.install w.process.code patch))
  | iat (c : Code) {t t' : Tables} {module detour slot : ℕ} {dll func : String} {ok : Bool}
      {h : IatHook} (found : M.findImport module dll func = .ok slot)
      (installed : IatHook.install M t module dll func detour slot ok = (.ok h, t')) :
      Fresh M ⟨c, t'⟩ (.iat h)
  | eat (c : Code) {t t' : Tables} {module : ℕ} {func : String} {prepared : PreparedEat} {ok : Bool}
      {h : EatHook} (installed : EatHook.install t module func prepared ok = (.ok h, t')) :
      Fresh M ⟨c, t'⟩ (.eat h)
  | vtable (c : Code) {t t' : Tables} {vtable index detour : ℕ} {ok : Bool} {h : VTableHook}
      (installed : VTableHook.install t vtable index detour ok = (.ok h, t')) :
      Fresh M ⟨c, t'⟩ (.vtable h)
  | vtableInstance (c : Code) {words : ℕ → ℕ} {s : InstanceState} {h : VTableInstanceHook}
      (reached : InstanceState.Reachable M words s) (mem : h ∈ s.hooks) (active : h.active = true) :
      Fresh M ⟨c, s.tables⟩ (.vtableInstance h)

namespace Hook

variable {M : Modules} {m : ProcessMemory} {h : Hook}

theorem installInline_eq {index : ℕ} {d : InlineData} {patch : List UInt8} {os : CommitOs}
    {w w' : Window} (installed : installInline index d (.patch patch) os w = (.ok (), w')) :
    patch.length = d.stolenLen ∧ w'.process.code.mem = write w.process.code.mem d.target patch := by
  unfold installInline at installed
  split at installed
  · cases installed
  · simp only at installed
    split_ifs at installed with armed length
    · cases installed
    · cases installed
    · split at installed
      · cases installed
      · rename_i c wrote
        obtain ⟨-, rfl⟩ := Code.writeCodeBytes_some wrote
        obtain rfl := (Prod.mk.inj installed).2
        exact ⟨not_not.1 length, rfl⟩

theorem Fresh.tracks (fresh : Fresh M m h) : h.Tracks M m := by
  cases fresh with
  | inline laws attached word installed =>
    rename_i d patch index answers w w'
    obtain ⟨target, orig, positive, bound⟩ := attachInner_lengths laws attached
    obtain ⟨length, bytes⟩ := installInline_eq installed
    have start := lt_pageOf_add word
    refine ⟨⟨target, positive, orig, length, ?_⟩, ?_, fun inactive => nomatch inactive⟩
    · show d.target + d.stolenLen ≤ pageOf d.target + maxBatchPages * pageSize
      unfold maxBatchPages pageSize at *
      omega
    · show Content.bytes (read w'.process.code.mem d.target d.stolenLen) = .bytes patch
      rw [bytes, ← length, read_write_same]
  | iat c found installed =>
    unfold IatHook.install at installed
    split at installed
    · cases installed
    · unfold IatHook.hookImport at installed
      rw [found] at installed
      simp only [bind, Except.bind] at installed
      split_ifs at installed
      · cases installed
      · obtain ⟨hook, rfl⟩ := Prod.mk.inj installed
        obtain rfl := Except.ok.inj hook
        refine ⟨found, ?_, fun inactive => nomatch inactive⟩
        exact congrArg Content.word (Function.update_self _ _ _)
      · cases installed
  | eat c installed =>
    unfold EatHook.install at installed
    split at installed
    · cases installed
    · unfold EatHook.writeExportRva at installed
      split_ifs at installed
      · cases installed
      · obtain ⟨hook, rfl⟩ := Prod.mk.inj installed
        obtain rfl := Except.ok.inj hook
        refine ⟨trivial, ?_, fun inactive => nomatch inactive⟩
        exact congrArg Content.word (Function.update_self _ _ _)
      · cases installed
  | vtable c installed =>
    unfold VTableHook.install at installed
    simp only at installed
    split_ifs at installed
    · cases installed
    · split at installed
      · cases installed
      · obtain ⟨hook, rfl⟩ := Prod.mk.inj installed
        obtain rfl := Except.ok.inj hook
        refine ⟨trivial, ?_, fun inactive => nomatch inactive⟩
        exact congrArg Content.word (Function.update_self _ _ _)
    · split at installed <;> cases installed
  | vtableInstance c reached mem active =>
    rename_i words s i
    obtain ⟨inv, con, -⟩ := InstanceState.inv_of_reachable reached
    have live : i ∈ s.installed := by
      rw [InstanceState.installed_of_active mem active]
      exact Multiset.mem_cons_self _ _
    obtain ⟨shared, found, clone, short, -⟩ := inv.hook i live
    obtain ⟨object, nonnull, vptr, -⟩ := inv.vptr found
    obtain ⟨original, slot⟩ := con.hook i live found
    have heap := (inv.clone_mem found).1
    obtain ⟨block, table, low, high⟩ := con.valid found
    have entry : InRange block.1 block.2 (slotAddr shared.originalVtable i.index) := by
      unfold InRange slotAddr
      unfold wordSize at *
      omega
    have away : i.objectVptr ≠ slotAddr i.clonedVtable i.index := by
      rw [clone]
      exact fun eq => inv.object_notMem heap object (eq ▸ slotAddr_inClone short)
    refine ⟨⟨fun _ => ⟨⟨shared, found, clone.symm, ?_, ?_, ?_⟩, vptr.trans clone.symm, away⟩,
      fun null => ?_⟩, ?_, fun gone => ?_⟩
    · rw [original]
      exact con.table ⟨block, table, entry⟩
    · obtain ⟨o, mem', inside⟩ := object
      exact fun eq => (M.objects_apart block table o mem').notMem entry (eq ▸ inside)
    · rw [clone]
      exact fun eq => inv.table_notMem heap ⟨block, table, entry⟩ (eq ▸ slotAddr_inClone short)
    · rw [clone] at null
      exact absurd null (inv.heap_free _ heap).1
    · show Content.word (s.tables.words (slotAddr (s.tables.words i.objectVptr) i.index)) = _
      rw [vptr, slot]
      cases on : i.enabled <;> simp [Hook.isEnabled, on, Hook.redirect, Hook.original]
    · exact absurd active (by rw [show i.active = false from gone]; exact Bool.false_ne_true)

end Hook

/-! ### Runs -/

/-- One call on a hook. -/
inductive HookCall where
  | enable (os : Protect)
  | disable (os : Protect)
  | detach (os after : Protect) (retargetOk : Bool) (others : Option DetourError)
  | unhook (os dropOs : Protect) (retargetOk : Bool)

/-- A hook until `unhook` consumes it, and whether a detach has succeeded. -/
structure ToggleState where
  memory : ProcessMemory
  hook : Option Hook
  detached : Bool

namespace ToggleState

variable (M : Modules)

def call (s : ToggleState) (c : HookCall) : ToggleState :=
  match s.hook with
  | none => s
  | some h =>
    match c with
    | .enable os =>
      let r := h.enableUnder M s.memory os
      { s with memory := r.2.1, hook := some r.2.2 }
    | .disable os =>
      let r := h.disableUnder M s.memory os
      { s with memory := r.2.1, hook := some r.2.2 }
    | .detach os after retargetOk others =>
      let r := h.detachUnder M s.memory os after retargetOk others
      ⟨r.2.1, some r.2.2, s.detached || r.1.isOk⟩
    | .unhook os dropOs retargetOk =>
      { s with memory := (h.unhookUnder M s.memory os dropOs retargetOk).2, hook := none }

/-- What holds between two calls. -/
def Sound (s : ToggleState) : Prop :=
  ∀ h, s.hook = some h → h.Tracks M s.memory ∧ (s.detached = true → h.isActive = false)

variable {M}

theorem sound_call {s : ToggleState} (sound : s.Sound M) (c : HookCall) : (s.call M c).Sound M := by
  intro h' now
  cases held : s.hook with
  | none =>
    simp only [call, held] at now
    cases now
  | some h =>
    obtain ⟨tracks, gone⟩ := sound h held
    cases c with
    | enable os =>
      simp only [call, held, Option.some.injEq] at now ⊢
      subst now
      rcases Hook.enableUnder_cases tracks os with ⟨e, eq⟩ | ⟨m', eq, after⟩
      · rw [eq]
        exact ⟨tracks, gone⟩
      · rw [eq]
        exact ⟨after, fun done => (Hook.isActive_setEnabled true h).trans (gone done)⟩
    | disable os =>
      simp only [call, held, Option.some.injEq] at now ⊢
      subst now
      rcases Hook.disableUnder_cases tracks os with ⟨e, eq⟩ | ⟨m', eq, after⟩
      · rw [eq]
        exact ⟨tracks, gone⟩
      · rw [eq]
        exact ⟨after, fun done => (Hook.isActive_setEnabled false h).trans (gone done)⟩
    | detach os after retargetOk others =>
      simp only [call, held, Option.some.injEq] at now ⊢
      subst now
      have outcome := Hook.detachUnder_cases tracks os after retargetOk others
      refine ⟨outcome.1, fun detached => outcome.2.1 ?_⟩
      rcases Bool.or_eq_true_iff.1 detached with before | ok
      · exact Or.inr (gone before)
      · left
        cases result : (h.detachUnder M s.memory os after retargetOk others).1 with
        | error e =>
          rw [result] at ok
          cases ok
        | ok u => rfl
    | unhook os dropOs retargetOk =>
      simp only [call, held] at now
      cases now

theorem sound_calls {s : ToggleState} (sound : s.Sound M) (calls : List HookCall) :
    (calls.foldl (call M) s).Sound M := by
  induction calls generalizing s with
  | nil => exact sound
  | cons c calls ih => exact ih (sound_call sound c)

/-- For a hook of any kind, after any calls with any protection changes failing: the flag tells
what the range or slot holds; `enable` and `disable` that fail change nothing, and repeated they do
nothing; after a detach that succeeded `enable` is refused; a detach that fails leaves the hook as it
was, unless another entry of the queue failed and the redirect could not be written back; and
`unhook` brings the original content back, or fails and leaves the redirect or the original content,
since dropping the hook tries once more. -/
theorem flag_tells_content (M : Modules) (m : ProcessMemory) (h₀ : Hook) (fresh : h₀.Fresh M m)
    (calls : List HookCall) :
    let s := calls.foldl (call M) ⟨m, some h₀, false⟩
    ∀ h, s.hook = some h →
      (h.content s.memory = if h.isEnabled then h.redirect else h.original) ∧
      (h.redirect ≠ h.original → (h.isEnabled = true ↔ h.content s.memory = h.redirect) ∧
        (h.isEnabled = false ↔ h.content s.memory = h.original)) ∧
      (∀ os e, (h.enableUnder M s.memory os).1 = .error e →
        (h.enableUnder M s.memory os).2 = (s.memory, h)) ∧
      (∀ os e, (h.disableUnder M s.memory os).1 = .error e →
        (h.disableUnder M s.memory os).2 = (s.memory, h)) ∧
      (∀ os os' m' h', h.enableUnder M s.memory os = (.ok (), m', h') →
        h'.enableUnder M m' os' = (.ok (), m', h')) ∧
      (∀ os os' m' h', h.disableUnder M s.memory os = (.ok (), m', h') →
        h'.disableUnder M m' os' = (.ok (), m', h')) ∧
      (s.detached = true → ∀ os,
        h.enableUnder M s.memory os = (.error .invalidParameter, s.memory, h)) ∧
      (∀ os after retargetOk others e,
        let r := h.detachUnder M s.memory os after retargetOk others
        r.1 = .error e → (r.2.2 = h ∧ h.content r.2.1 = h.content s.memory) ∨
          (others = some e ∧ h.isEnabled = true ∧ r.2.2.isEnabled = false)) ∧
      ∀ os dropOs retargetOk,
        let r := h.unhookUnder M s.memory os dropOs retargetOk
        (r.1 = .ok () → h.content r.2 = h.original) ∧
          (h.content r.2 = h.content s.memory ∨ h.content r.2 = h.original) := by
  intro s h held
  have start : (⟨m, some h₀, false⟩ : ToggleState).Sound M := by
    rintro h ⟨⟩
    exact ⟨fresh.tracks, fun detached => nomatch detached⟩
  obtain ⟨tracks, gone⟩ := sound_calls start calls h held
  refine ⟨tracks.content, fun differ => ?_, fun os e failed => ?_, fun os e failed => ?_,
    fun os os' m' h' done => Hook.enableUnder_twice done os',
    fun os os' m' h' done => Hook.disableUnder_twice done os', fun detached os => ?_,
    fun os after retargetOk others e => (Hook.detachUnder_cases tracks os after retargetOk others).2.2 e,
    fun os dropOs retargetOk => Hook.unhookUnder_content tracks os dropOs retargetOk⟩
  · rw [tracks.content]
    cases h.isEnabled with
    | false => simp [Ne.symm differ]
    | true => simp [differ]
  · rcases Hook.enableUnder_cases tracks os with ⟨e', eq⟩ | ⟨m', eq, -⟩
    · rw [eq]
    · rw [eq] at failed
      cases failed
  · rcases Hook.disableUnder_cases tracks os with ⟨e', eq⟩ | ⟨m', eq, -⟩
    · rw [eq]
    · rw [eq] at failed
      cases failed
  · unfold Hook.enableUnder
    rw [if_pos (gone detached)]

/-- Protections that can all be changed, and ones that cannot. -/
def granted : Protect := ⟨true, true, ⟨fun _ => false, fun _ => false⟩, fun _ => pageReadonly⟩

def refused : Protect := ⟨false, false, ⟨fun _ => true, fun _ => true⟩, fun _ => pageReadonly⟩

/-- A VTable hook on the first slot of the table at `0x1000`. -/
def sampleVtable : VTableHook := ⟨0x1000, 7, 0x5000, true, true, true⟩

def sampleMemory : ProcessMemory where
  code := (State.initial (fun _ => 0) (InstanceState.initial Modules.oneObjectWords
    fun _ => false).tables).process.code
  tables := (VTableHook.install (InstanceState.initial Modules.oneObjectWords fun _ => false).tables
    0x1000 0 0x5000 true).2

theorem sampleVtable_fresh : (Hook.vtable sampleVtable).Fresh Modules.oneObject sampleMemory :=
  .vtable _ (show VTableHook.install (InstanceState.initial Modules.oneObjectWords
    fun _ => false).tables 0x1000 0 0x5000 true = (.ok sampleVtable, _) by rfl)

/-- After a `disable` that succeeds and an `enable` whose page cannot be made writable, the slot
holds the original pointer. -/
theorem sampleVtable_disabled :
    let s := [HookCall.disable granted, .enable refused].foldl (call Modules.oneObject)
      ⟨sampleMemory, some (.vtable sampleVtable), false⟩
    ∃ h, s.hook = some h ∧ h.isEnabled = false ∧ h.content s.memory = .word 7 := by
  intro s
  refine ⟨.vtable { sampleVtable with enabled := false }, rfl, rfl, ?_⟩
  exact (flag_tells_content Modules.oneObject sampleMemory (.vtable sampleVtable) sampleVtable_fresh
    [.disable granted, .enable refused] _ rfl).1

/-- An `unhook` that fails can still change the slot: the page is refused at first and granted when
the hook is dropped. -/
theorem failed_unhook_restores :
    (Hook.vtable sampleVtable).Fresh Modules.oneObject sampleMemory ∧
      ∃ r, (Hook.vtable sampleVtable).unhookUnder Modules.oneObject sampleMemory refused granted true
          = (.error (.vtable .protectFailed), r) ∧
        (Hook.vtable sampleVtable).content sampleMemory = .word 0x5000 ∧
        (Hook.vtable sampleVtable).content r = .word 7 :=
  ⟨sampleVtable_fresh, _, rfl, rfl, rfl⟩

end ToggleState

end NeoHook
