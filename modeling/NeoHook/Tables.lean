import NeoHook.Basic

/-!
# Table hooks

The hooks that redirect a pointer in a table: `IatHook` and `EatHook` of `transaction.rs`,
`VTableHook` and `VTableInstanceHook` of `vtable.rs`.  Memory is a map of pointer-sized cells; an
export slot is a cell that holds an RVA.  `ok` is whether the protection changes around a write
succeed: when one of them fails, the source leaves the cell as it was.
-/

namespace NeoHook

open ByteMap

/-- A clone shared by the instance hooks of one object. -/
structure SharedClone where
  clone : ℕ
  len : ℕ
  originalVtable : ℕ
  hooks : ℕ
  deriving DecidableEq, Repr

structure Tables where
  words : ℕ → ℕ
  /-- Slots claimed by a live import, export or VTable hook. -/
  tableSlots : Finset ℕ
  /-- The clones by the object's vptr field. -/
  instanceClones : ℕ → Option SharedClone
  /-- The ownership flags behind the slots of a clone, by address. -/
  flags : ℕ → Bool
  /-- Clone storage that is allocated, as address and number of slots. -/
  heap : List (ℕ × ℕ)
  /-- Whether storage was released that was not allocated; nothing reads it. -/
  badFree : Bool

/-- The loaded modules: how their headers resolve names, and the memory the process uses for tables
and objects, as blocks of base and bytes. -/
structure Modules where
  findImport : ℕ → String → String → Except IatHookError ℕ
  exportSlot : ℕ → String → Except EatHookError ℕ
  /-- The RVA lies in the module's export directory. -/
  isForwarder : ℕ → ℕ → Bool
  tables : List (ℕ × ℕ)
  objects : List (ℕ × ℕ)
  objects_apart : ∀ b ∈ tables, ∀ o ∈ objects, Apart b.1 b.2 o.1 o.2
  import_mem : ∀ {module dll func slot}, findImport module dll func = .ok slot →
    ∃ b ∈ tables, InRange b.1 b.2 slot
  export_mem : ∀ {module func slot}, exportSlot module func = .ok slot →
    ∃ b ∈ tables, InRange b.1 b.2 slot

/-- Address of a slot of a table. -/
def slotAddr (table index : ℕ) : ℕ := table + wordSize * index

/-- Address of the ownership flag of a slot of a clone. -/
def ownedFlag (clone len index : ℕ) : ℕ := clone + wordSize * len + index

/-- Bytes a clone of `len` slots takes, with its flags. -/
def cloneBytes (len : ℕ) : ℕ := wordSize * len + len

namespace Tables

def setWord (t : Tables) (a v : ℕ) : Tables := { t with words := Function.update t.words a v }

def setFlag (t : Tables) (a : ℕ) (v : Bool) : Tables :=
  { t with flags := Function.update t.flags a v }

/-- Claims a slot for a new hook; `none` if a live hook owns it. -/
def claimTableSlot (t : Tables) (slot : ℕ) : Option Tables :=
  if slot ∈ t.tableSlots then none else some { t with tableSlots := insert slot t.tableSlots }

def releaseTableSlot (t : Tables) (slot : ℕ) : Tables :=
  { t with tableSlots := t.tableSlots.erase slot }

def tableSlotClaimed (t : Tables) (slot : ℕ) : Bool := slot ∈ t.tableSlots

/-- `write_slot_locked` and its likes. -/
def writeSlot (t : Tables) (slot value : ℕ) (ok : Bool) : Except VTableHookError Tables :=
  if slot = 0 then .error .invalidParameter
  else if ok then .ok (t.setWord slot value)
  else .error .protectFailed

/-! ### Clone storage -/

/-- The allocator can hand out `n` bytes at `a`: nothing else uses them. -/
def FreeBlock (M : Modules) (t : Tables) (a n : ℕ) : Prop :=
  a ≠ 0 ∧ (∀ b ∈ t.heap, Apart a n b.1 (cloneBytes b.2)) ∧
    (∀ b ∈ M.tables, Apart a n b.1 b.2) ∧ ∀ b ∈ M.objects, Apart a n b.1 b.2

instance (M : Modules) (t : Tables) (a n : ℕ) : Decidable (t.FreeBlock M a n) :=
  inferInstanceAs (Decidable (_ ∧ _))

/-- `ClonedVtable::new`, with the address the allocator would return. -/
def newClonedVtable (M : Modules) (t : Tables) (len : ℕ) (at_ : Option ℕ) :
    Except VTableHookError (ℕ × Tables) :=
  if len = 0 then .error .invalidParameter
  else match at_ with
    | none => .error .allocationFailed
    | some a =>
      if cloneBytes len < 2 ^ 63 ∧ t.FreeBlock M a (cloneBytes len) then
        .ok (a, { t with heap := (a, len) :: t.heap })
      else .error .allocationFailed

def dealloc (t : Tables) (clone len : ℕ) : Tables :=
  { t with heap := t.heap.erase (clone, len), badFree := t.badFree || (clone, len) ∉ t.heap }

def setClone (t : Tables) (object : ℕ) (e : Option SharedClone) : Tables :=
  { t with instanceClones := Function.update t.instanceClones object e }

/-- Whether a live instance hook redirects the slot of the object. -/
def instanceSlotHooked (t : Tables) (object index : ℕ) : Bool :=
  match t.instanceClones object with
  | none => false
  | some s => decide (index < s.len) && t.flags (ownedFlag s.clone s.len index)

/-- Copies a table over a clone and clears the clone's flags. -/
def copyTable (t : Tables) (src dst len : ℕ) : Tables :=
  { t with
    words := fun a =>
      if dst ≤ a ∧ a < dst + wordSize * len ∧ (a - dst) % wordSize = 0 then t.words (src + (a - dst))
      else t.words a
    flags := fun a => if InRange (ownedFlag dst len 0) len a then false else t.flags a }

end Tables

/-! ### Import hooks -/

structure IatHook where
  module : ℕ
  dllName : String
  funcName : String
  originalPtr : ℕ
  slot : ℕ
  claimed : Bool
  active : Bool
  detour : ℕ
  enabled : Bool
  deriving DecidableEq, Repr

namespace IatHook

variable (M : Modules)

/-- `IatHook::hook_import` of `iat.rs`: the old pointer of the import slot. -/
def hookImport (t : Tables) (module : ℕ) (dll func : String) (detour : ℕ) (ok : Bool) :
    Except IatHookError (ℕ × Tables) :=
  if module = 0 ∨ detour = 0 then .error .invalidParameter
  else do
    let slot ← M.findImport module dll func
    if ok then .ok (t.words slot, t.setWord slot detour) else .error .protectFailed

/-- The import branch of the commit loop. -/
def install (t : Tables) (module : ℕ) (dll func : String) (detour slot : ℕ) (ok : Bool) :
    Except DetourError IatHook × Tables :=
  match t.claimTableSlot slot with
  | none => (.error .invalidParameter, t)
  | some t =>
    match hookImport M t module dll func detour ok with
    | .error e => (.error (.iat e), t.releaseTableSlot slot)
    | .ok (original, t) => (.ok ⟨module, dll, func, original, slot, true, true, detour, true⟩, t)

def disable (t : Tables) (h : IatHook) (ok : Bool) : Except DetourError (Tables × IatHook) :=
  if h.enabled = false then .ok (t, h)
  else match hookImport M t h.module h.dllName h.funcName h.originalPtr ok with
    | .error e => .error (.iat e)
    | .ok (_, t) => .ok (t, { h with enabled := false })

def enable (t : Tables) (h : IatHook) (ok : Bool) : Except DetourError (Tables × IatHook) :=
  if h.active = false then .error .invalidParameter
  else if h.enabled then .ok (t, h)
  else match hookImport M t h.module h.dllName h.funcName h.detour ok with
    | .error e => .error (.iat e)
    | .ok (_, t) => .ok (t, { h with enabled := true })

def performUnhook (t : Tables) (h : IatHook) (ok : Bool) : Except DetourError Tables :=
  match hookImport M t h.module h.dllName h.funcName h.originalPtr ok with
  | .error e => .error (.iat e)
  | .ok (_, t) => .ok t

def detachFinalize (t : Tables) (h : IatHook) (ok : Bool) : Tables × IatHook :=
  match disable M t h ok with
  | .error _ => (t, { h with active := false, enabled := false })
  | .ok (t, h) =>
    if h.claimed then
      (t.releaseTableSlot h.slot, { h with active := false, enabled := false, claimed := false })
    else (t, { h with active := false, enabled := false })

def drop (t : Tables) (h : IatHook) (ok : Bool) : Tables :=
  if h.claimed = false then t
  else if h.active = false then t.releaseTableSlot h.slot
  else match performUnhook M t h ok with
    | .error _ => t
    | .ok t => t.releaseTableSlot h.slot

/-- `unhook` consumes the hook: a failed attempt is followed by the one of `Drop`. -/
def unhook (t : Tables) (h : IatHook) (ok dropOk : Bool) : Except DetourError Unit × Tables :=
  if h.active = false then (.ok (), drop M t h dropOk)
  else match performUnhook M t h ok with
    | .error e => (.error e, drop M t h dropOk)
    | .ok t => (.ok (), drop M t { h with active := false } dropOk)

end IatHook

/-! ### Export hooks -/

structure EatHook where
  module : ℕ
  funcName : String
  slotPtr : ℕ
  originalRva : ℕ
  detourRva : ℕ
  originalPtr : ℕ
  stub : Option Trampoline
  claimed : Bool
  active : Bool
  enabled : Bool
  deriving DecidableEq, Repr

/-- A resolved export hook whose slot is not written yet. -/
structure PreparedEat where
  slotPtr : ℕ
  detourRva : ℕ
  stub : Option Trampoline
  deriving DecidableEq, Repr

namespace EatHook

/-- `find_export_slot`. -/
def findExport (M : Modules) (t : Tables) (module : ℕ) (func : String) : Except EatHookError ℕ := do
  if module = 0 then .error .invalidParameter
  else
    let slot ← M.exportSlot module func
    if M.isForwarder module (t.words slot) then .error .targetIsForwarder else .ok slot

def writeExportRva (t : Tables) (slot rva : ℕ) (ok : Bool) : Except DetourError Tables :=
  if slot = 0 then .error (.eat .invalidParameter)
  else if ok then .ok (t.setWord slot rva)
  else .error (.eat .protectFailed)

/-- `install_eat`. -/
def install (t : Tables) (module : ℕ) (func : String) (p : PreparedEat) (ok : Bool) :
    Except DetourError EatHook × Tables :=
  match t.claimTableSlot p.slotPtr with
  | none => (.error .invalidParameter, t)
  | some t =>
    match writeExportRva t p.slotPtr p.detourRva ok with
    | .error e => (.error e, t.releaseTableSlot p.slotPtr)
    | .ok t' =>
      let original := t.words p.slotPtr
      (.ok ⟨module, func, p.slotPtr, original, p.detourRva, (module + original) % 2 ^ 64, p.stub,
        true, true, true⟩, t')

def disable (t : Tables) (h : EatHook) (ok : Bool) : Except DetourError (Tables × EatHook) :=
  if h.enabled = false then .ok (t, h)
  else do
    let t ← writeExportRva t h.slotPtr h.originalRva ok
    return (t, { h with enabled := false })

def enable (t : Tables) (h : EatHook) (ok : Bool) : Except DetourError (Tables × EatHook) :=
  if h.active = false then .error .invalidParameter
  else if h.enabled then .ok (t, h)
  else do
    let t ← writeExportRva t h.slotPtr h.detourRva ok
    return (t, { h with enabled := true })

def performUnhook (t : Tables) (h : EatHook) (ok : Bool) : Except DetourError Tables :=
  writeExportRva t h.slotPtr h.originalRva ok

/-- The third component is the stub `retire_stub` points at the original export. -/
def detachFinalize (t : Tables) (h : EatHook) (ok : Bool) : Tables × EatHook × Option Trampoline :=
  match disable t h ok with
  | .error _ => (t, { h with active := false, enabled := false }, none)
  | .ok (t, h) =>
    if h.claimed then
      (t.releaseTableSlot h.slotPtr,
        { h with active := false, enabled := false, claimed := false, stub := none }, h.stub)
    else (t, { h with active := false, enabled := false }, none)

def drop (t : Tables) (h : EatHook) (ok : Bool) : Tables × Option Trampoline :=
  if h.claimed = false then (t, none)
  else if h.active = false then (t.releaseTableSlot h.slotPtr, h.stub)
  else match performUnhook t h ok with
    | .error _ => (t, none)
    | .ok t => (t.releaseTableSlot h.slotPtr, h.stub)

def unhook (t : Tables) (h : EatHook) (ok dropOk : Bool) :
    Except DetourError Unit × Tables × Option Trampoline :=
  if h.active = false then (.ok (), drop t h dropOk)
  else match performUnhook t h ok with
    | .error e => (.error e, drop t h dropOk)
    | .ok t => (.ok (), drop t { h with active := false } dropOk)

end EatHook

/-! ### VTable hooks -/

structure VTableHook where
  slot : ℕ
  originalPtr : ℕ
  detour : ℕ
  claimed : Bool
  active : Bool
  enabled : Bool
  deriving DecidableEq, Repr

namespace VTableHook

def install (t : Tables) (vtable index detour : ℕ) (ok : Bool) :
    Except VTableHookError VTableHook × Tables :=
  if vtable = 0 ∨ detour = 0 then (.error .invalidParameter, t)
  else
    let slot := slotAddr vtable index
    match t.claimTableSlot slot with
    | none => (.error .invalidParameter, t)
    | some t =>
      if ok then (.ok ⟨slot, t.words slot, detour, true, true, true⟩, t.setWord slot detour)
      else (.error .protectFailed, t.releaseTableSlot slot)

def disable (t : Tables) (h : VTableHook) (ok : Bool) : Except DetourError (Tables × VTableHook) :=
  if h.enabled = false then .ok (t, h)
  else match t.writeSlot h.slot h.originalPtr ok with
    | .error e => .error (.vtable e)
    | .ok t => .ok (t, { h with enabled := false })

def enable (t : Tables) (h : VTableHook) (ok : Bool) : Except DetourError (Tables × VTableHook) :=
  if h.active = false then .error .invalidParameter
  else if h.enabled then .ok (t, h)
  else match t.writeSlot h.slot h.detour ok with
    | .error e => .error (.vtable e)
    | .ok t => .ok (t, { h with enabled := true })

def performUnhook (t : Tables) (h : VTableHook) (ok : Bool) : Except DetourError Tables :=
  match t.writeSlot h.slot h.originalPtr ok with
  | .error e => .error (.vtable e)
  | .ok t => .ok t

def detachFinalize (t : Tables) (h : VTableHook) (ok : Bool) : Tables × VTableHook :=
  match disable t h ok with
  | .error _ => (t, { h with active := false, enabled := false })
  | .ok (t, h) =>
    if h.claimed then
      (t.releaseTableSlot h.slot, { h with active := false, enabled := false, claimed := false })
    else (t, { h with active := false, enabled := false })

def drop (t : Tables) (h : VTableHook) (ok : Bool) : Tables :=
  if h.claimed = false then t
  else if h.active = false then t.releaseTableSlot h.slot
  else match performUnhook t h ok with
    | .error _ => t
    | .ok t => t.releaseTableSlot h.slot

def unhook (t : Tables) (h : VTableHook) (ok dropOk : Bool) : Except DetourError Unit × Tables :=
  if h.active = false then (.ok (), drop t h dropOk)
  else match performUnhook t h ok with
    | .error e => (.error e, drop t h dropOk)
    | .ok t => (.ok (), drop t { h with active := false } dropOk)

end VTableHook

/-! ### VTable instance hooks -/

structure VTableInstanceHook where
  objectVptr : ℕ
  clonedVtable : ℕ
  index : ℕ
  originalPtr : ℕ
  detour : ℕ
  active : Bool
  enabled : Bool
  deriving DecidableEq, Repr

namespace VTableInstanceHook

/-- `install_into`: `table` is the clone storage made up front, and the last component is what is
left of it. -/
def installInto (t : Tables) (objectVptr index detour : ℕ) (table : Option (ℕ × ℕ)) (ok : Bool) :
    Except VTableHookError VTableInstanceHook × Tables × Option (ℕ × ℕ) :=
  if objectVptr = 0 ∨ detour = 0 then (.error .invalidParameter, t, table)
  else match t.instanceClones objectVptr with
    | some s =>
      if s.len ≤ index then (.error .invalidParameter, t, table)
      else if t.words objectVptr ≠ s.clone ∨ t.flags (ownedFlag s.clone s.len index) then
        (.error .invalidParameter, t, table)
      else
        let slot := slotAddr s.clone index
        let t' := ((t.setWord slot detour).setFlag (ownedFlag s.clone s.len index) true).setClone
          objectVptr (some { s with hooks := s.hooks + 1 })
        (.ok ⟨objectVptr, s.clone, index, t.words slot, detour, true, true⟩, t', table)
    | none =>
      match table with
      | none => (.error .allocationFailed, t, table)
      | some (clone, len) =>
        if len ≤ index then (.error .invalidParameter, t, table)
        else
          let original := t.words objectVptr
          if original = 0 then (.error .invalidParameter, t, table)
          else
            let t := t.copyTable original clone len
            let slot := slotAddr clone index
            let hook : VTableInstanceHook :=
              ⟨objectVptr, clone, index, t.words slot, detour, true, true⟩
            let t := (t.setWord slot detour).setFlag (ownedFlag clone len index) true
            match t.writeSlot objectVptr clone ok with
            | .error e => (.error e, t, table)
            | .ok t => (.ok hook, t.setClone objectVptr (some ⟨clone, len, original, 1⟩), none)

def writeCloneSlot (t : Tables) (h : VTableInstanceHook) (value : ℕ) : Except DetourError Tables :=
  if h.clonedVtable = 0 then .error (.vtable .invalidParameter)
  else .ok (t.setWord (slotAddr h.clonedVtable h.index) value)

def disable (t : Tables) (h : VTableInstanceHook) :
    Except DetourError (Tables × VTableInstanceHook) :=
  if h.enabled = false then .ok (t, h)
  else do
    let t ← writeCloneSlot t h h.originalPtr
    return (t, { h with enabled := false })

def enable (t : Tables) (h : VTableInstanceHook) :
    Except DetourError (Tables × VTableInstanceHook) :=
  if h.active = false then .error .invalidParameter
  else if h.enabled then .ok (t, h)
  else do
    let t ← writeCloneSlot t h h.detour
    return (t, { h with enabled := true })

/-- `perform_unhook`; `ok` is whether the object's vptr can be written. -/
def performUnhook (t : Tables) (h : VTableInstanceHook) (ok : Bool) :
    Except DetourError (Tables × VTableInstanceHook) :=
  if h.objectVptr = 0 ∨ h.clonedVtable = 0 then .error (.vtable .invalidParameter)
  else match t.instanceClones h.objectVptr with
    | none => .error (.vtable .invalidParameter)
    | some s =>
      if s.hooks = 1 then
        let back := if t.words h.objectVptr = s.clone
          then t.writeSlot h.objectVptr s.originalVtable ok else .ok t
        match back with
        | .error e => .error (.vtable e)
        | .ok t =>
          .ok ((t.setClone h.objectVptr none).dealloc s.clone s.len, { h with clonedVtable := 0 })
      else
        let t := (t.setWord (slotAddr h.clonedVtable h.index) h.originalPtr).setFlag
          (ownedFlag s.clone s.len h.index) false
        .ok (t.setClone h.objectVptr (some { s with hooks := s.hooks - 1 }),
          { h with clonedVtable := 0 })

def detachFinalize (t : Tables) (h : VTableInstanceHook) (ok : Bool) :
    Tables × VTableInstanceHook :=
  if h.active = false then (t, { h with enabled := false })
  else match performUnhook t h ok with
    | .error _ => (t, { h with active := false, enabled := false })
    | .ok (t, h) => (t, { h with active := false, enabled := false })

def drop (t : Tables) (h : VTableInstanceHook) (ok : Bool) : Tables :=
  if h.active = false then t
  else match performUnhook t h ok with
    | .error _ => t
    | .ok (t, _) => t

def unhook (t : Tables) (h : VTableInstanceHook) (ok dropOk : Bool) :
    Except DetourError Unit × Tables :=
  if h.active = false then (.ok (), t)
  else match performUnhook t h ok with
    | .error e => (.error e, drop t h dropOk)
    | .ok (t, h) => (.ok (), drop t { h with active := false } dropOk)

end VTableInstanceHook

end NeoHook
