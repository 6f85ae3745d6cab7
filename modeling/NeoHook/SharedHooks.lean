import NeoHook.Instances

/-!
# Hooks on shared tables

Import, export and VTable hooks redirect a slot that every user of the table reads.  They own it
through the registry of claimed slots; instance hooks own theirs through flags in a clone.  The
machine of this module runs all four kinds on one memory.
-/

namespace NeoHook

open ByteMap

inductive SharedHook where
  | iat (h : IatHook)
  | eat (h : EatHook)
  | vtable (h : VTableHook)
  deriving DecidableEq

namespace SharedHook

variable (M : Modules)

def slot : SharedHook → ℕ
  | .iat h => h.slot
  | .eat h => h.slotPtr
  | .vtable h => h.slot

/-- What the slot held before the hook. -/
def original : SharedHook → ℕ
  | .iat h => h.originalPtr
  | .eat h => h.originalRva
  | .vtable h => h.originalPtr

/-- What the slot holds while the hook is enabled. -/
def redirect : SharedHook → ℕ
  | .iat h => h.detour
  | .eat h => h.detourRva
  | .vtable h => h.detour

def claimed : SharedHook → Bool
  | .iat h => h.claimed
  | .eat h => h.claimed
  | .vtable h => h.claimed

def active : SharedHook → Bool
  | .iat h => h.active
  | .eat h => h.active
  | .vtable h => h.active

def enabled : SharedHook → Bool
  | .iat h => h.enabled
  | .eat h => h.enabled
  | .vtable h => h.enabled

def setEnabled (on : Bool) : SharedHook → SharedHook
  | .iat h => .iat { h with enabled := on }
  | .eat h => .eat { h with enabled := on }
  | .vtable h => .vtable { h with enabled := on }

def disable (t : Tables) (ok : Bool) : SharedHook → Except DetourError (Tables × SharedHook)
  | .iat h => (IatHook.disable M t h ok).map fun r => (r.1, .iat r.2)
  | .eat h => (EatHook.disable t h ok).map fun r => (r.1, .eat r.2)
  | .vtable h => (VTableHook.disable t h ok).map fun r => (r.1, .vtable r.2)

def enable (t : Tables) (ok : Bool) : SharedHook → Except DetourError (Tables × SharedHook)
  | .iat h => (IatHook.enable M t h ok).map fun r => (r.1, .iat r.2)
  | .eat h => (EatHook.enable t h ok).map fun r => (r.1, .eat r.2)
  | .vtable h => (VTableHook.enable t h ok).map fun r => (r.1, .vtable r.2)

def performUnhook (t : Tables) (ok : Bool) : SharedHook → Except DetourError Tables
  | .iat h => IatHook.performUnhook M t h ok
  | .eat h => EatHook.performUnhook t h ok
  | .vtable h => VTableHook.performUnhook t h ok

def detachFinalize (t : Tables) (ok : Bool) : SharedHook → Tables × SharedHook
  | .iat h => let r := IatHook.detachFinalize M t h ok; (r.1, .iat r.2)
  | .eat h => let r := EatHook.detachFinalize t h ok; (r.1, .eat r.2.1)
  | .vtable h => let r := VTableHook.detachFinalize t h ok; (r.1, .vtable r.2)

def drop (t : Tables) (ok : Bool) : SharedHook → Tables
  | .iat h => IatHook.drop M t h ok
  | .eat h => (EatHook.drop t h ok).1
  | .vtable h => VTableHook.drop t h ok

def unhook (t : Tables) (ok dropOk : Bool) : SharedHook → Tables
  | .iat h => (IatHook.unhook M t h ok dropOk).2
  | .eat h => (EatHook.unhook t h ok dropOk).2.1
  | .vtable h => (VTableHook.unhook t h ok dropOk).2

/-! ### One description for the three kinds -/

/-- An import hook finds its slot by name. -/
def Resolved : SharedHook → Prop
  | .iat h => h.module ≠ 0 ∧ M.findImport h.module h.dllName h.funcName = .ok h.slot
  | .eat h => h.slotPtr ≠ 0
  | .vtable h => h.slot ≠ 0

/-- A value the hook can write: an import slot takes no null pointer. -/
def Writable (v : ℕ) : SharedHook → Prop
  | .iat _ => v ≠ 0
  | .eat _ => True
  | .vtable _ => True

/-- The write each kind makes to its slot. -/
def write (t : Tables) (v : ℕ) (ok : Bool) : SharedHook → Except DetourError Tables
  | .iat h =>
    match IatHook.hookImport M t h.module h.dllName h.funcName v ok with
    | .error e => .error (.iat e)
    | .ok r => .ok r.2
  | .eat h => EatHook.writeExportRva t h.slotPtr v ok
  | .vtable h =>
    match t.writeSlot h.slot v ok with
    | .error e => .error (.vtable e)
    | .ok t => .ok t

variable {M} {t t' : Tables} {h h' : SharedHook} {v : ℕ} {ok dropOk : Bool}

/-- A write that succeeds sets the hook's slot. -/
theorem write_cases (res : h.Resolved M) (out : h.write M t v ok = .ok t') :
    t' = t.setWord h.slot v := by
  cases h with
  | iat h =>
    simp only [write, IatHook.hookImport, res.2] at out
    split_ifs at out with hz wr
    · cases out
      rfl
    · cases out
  | eat h =>
    simp only [write, EatHook.writeExportRva] at out
    split_ifs at out
    cases out
    rfl
  | vtable h =>
    simp only [write, Tables.writeSlot] at out
    split_ifs at out
    cases out
    rfl

/-- Writing a value the slot can take succeeds when the page can be written. -/
theorem write_ok (res : h.Resolved M) (wr : h.Writable v) :
    h.write M t v true = .ok (t.setWord h.slot v) := by
  cases h with
  | iat h =>
    simp only [Writable] at wr
    simp only [write, IatHook.hookImport, res.2, if_neg (not_or.2 ⟨res.1, wr⟩)]
    rfl
  | eat h =>
    simp only [Resolved] at res
    simp only [write, EatHook.writeExportRva, if_neg res, if_true, slot]
  | vtable h =>
    simp only [Resolved] at res
    simp only [write, Tables.writeSlot, if_neg res, if_true, slot]

theorem performUnhook_eq : h.performUnhook M t ok = h.write M t h.original ok := by
  cases h with
  | iat h =>
    simp only [performUnhook, IatHook.performUnhook, write, original]
    cases IatHook.hookImport M t h.module h.dllName h.funcName h.originalPtr ok <;> rfl
  | eat h => rfl
  | vtable h => rfl

theorem disable_eq : h.disable M t ok =
    if h.enabled = false then .ok (t, h)
    else (h.write M t h.original ok).map fun t => (t, h.setEnabled false) := by
  by_cases off : h.enabled = false
  · rw [if_pos off]
    cases h <;> simp only [enabled] at off <;>
      simp [disable, IatHook.disable, EatHook.disable, VTableHook.disable, off, Except.map]
  · rw [if_neg off]
    cases h with
    | iat h =>
      simp only [enabled] at off
      simp only [disable, IatHook.disable, if_neg off, write, original]
      cases IatHook.hookImport M t h.module h.dllName h.funcName h.originalPtr ok <;> rfl
    | eat h =>
      simp only [enabled] at off
      simp only [disable, EatHook.disable, if_neg off, write, original]
      cases EatHook.writeExportRva t h.slotPtr h.originalRva ok <;> rfl
    | vtable h =>
      simp only [enabled] at off
      simp only [disable, VTableHook.disable, if_neg off, write, original]
      cases t.writeSlot h.slot h.originalPtr ok <;> rfl

theorem enable_eq : h.enable M t ok =
    if h.active = false then .error .invalidParameter
    else if h.enabled = true then .ok (t, h)
    else (h.write M t h.redirect ok).map fun t => (t, h.setEnabled true) := by
  by_cases gone : h.active = false
  · rw [if_pos gone]
    cases h <;> simp only [active] at gone <;>
      simp [enable, IatHook.enable, EatHook.enable, VTableHook.enable, gone, Except.map]
  rw [if_neg gone]
  by_cases on : h.enabled = true
  · rw [if_pos on]
    cases h <;> simp only [active, enabled] at gone on <;>
      simp [enable, IatHook.enable, EatHook.enable, VTableHook.enable, gone, on, Except.map]
  · rw [if_neg on]
    cases h with
    | iat h =>
      simp only [active, enabled] at gone on
      simp only [enable, IatHook.enable, if_neg gone, if_neg on, write, redirect]
      cases IatHook.hookImport M t h.module h.dllName h.funcName h.detour ok <;> rfl
    | eat h =>
      simp only [active, enabled] at gone on
      simp only [enable, EatHook.enable, if_neg gone, if_neg on, write, redirect]
      cases EatHook.writeExportRva t h.slotPtr h.detourRva ok <;> rfl
    | vtable h =>
      simp only [active, enabled] at gone on
      simp only [enable, VTableHook.enable, if_neg gone, if_neg on, write, redirect]
      cases t.writeSlot h.slot h.detour ok <;> rfl

theorem drop_eq : h.drop M t ok =
    if h.claimed = false then t
    else if h.active = false then t.releaseTableSlot h.slot
    else match h.write M t h.original ok with
      | .error _ => t
      | .ok t => t.releaseTableSlot h.slot := by
  rw [← performUnhook_eq]
  cases h with
  | iat h => rfl
  | eat h =>
    change (EatHook.drop t h ok).1 = if h.claimed = false then t
      else if h.active = false then t.releaseTableSlot h.slotPtr
      else match EatHook.performUnhook t h ok with
        | .error _ => t
        | .ok t => t.releaseTableSlot h.slotPtr
    unfold EatHook.drop
    split_ifs
    · rfl
    · rfl
    · cases EatHook.performUnhook t h ok <;> rfl
  | vtable h => rfl

/-- After `unhook` restored the slot, `Drop` releases it. -/
theorem unhook_eq : h.unhook M t ok dropOk =
    if h.active = false then h.drop M t dropOk
    else match h.write M t h.original ok with
      | .error _ => h.drop M t dropOk
      | .ok t => if h.claimed = false then t else t.releaseTableSlot h.slot := by
  rw [← performUnhook_eq]
  cases h with
  | iat h =>
    change (IatHook.unhook M t h ok dropOk).2 = if h.active = false then IatHook.drop M t h dropOk
      else match IatHook.performUnhook M t h ok with
        | .error _ => IatHook.drop M t h dropOk
        | .ok t => if h.claimed = false then t else t.releaseTableSlot h.slot
    unfold IatHook.unhook
    split_ifs
    · rfl
    all_goals cases IatHook.performUnhook M t h ok <;> simp_all [IatHook.drop]
  | eat h =>
    change (EatHook.unhook t h ok dropOk).2.1 = if h.active = false then (EatHook.drop t h dropOk).1
      else match EatHook.performUnhook t h ok with
        | .error _ => (EatHook.drop t h dropOk).1
        | .ok t => if h.claimed = false then t else t.releaseTableSlot h.slotPtr
    unfold EatHook.unhook
    split_ifs
    · rfl
    all_goals cases EatHook.performUnhook t h ok <;> simp_all [EatHook.drop]
  | vtable h =>
    change (VTableHook.unhook t h ok dropOk).2 = if h.active = false then VTableHook.drop t h dropOk
      else match VTableHook.performUnhook t h ok with
        | .error _ => VTableHook.drop t h dropOk
        | .ok t => if h.claimed = false then t else t.releaseTableSlot h.slot
    unfold VTableHook.unhook
    split_ifs
    · rfl
    all_goals cases VTableHook.performUnhook t h ok <;> simp_all [VTableHook.drop]

/-- Finalizing a detach that was prepared: the slot is released and the object is inert. -/
theorem detachFinalize_disabled (off : h.enabled = false) (t : Tables) (ok : Bool) :
    (h.detachFinalize M t ok).1 = (if h.claimed = true then t.releaseTableSlot h.slot else t) ∧
      (h.detachFinalize M t ok).2.claimed = false ∧ (h.detachFinalize M t ok).2.active = false ∧
      (h.detachFinalize M t ok).2.enabled = false := by
  cases h with
  | iat h =>
    simp only [enabled] at off
    simp only [detachFinalize, IatHook.detachFinalize, IatHook.disable, off, if_true]
    split_ifs with hc <;> simp_all [claimed, active, enabled, slot]
  | eat h =>
    simp only [enabled] at off
    simp only [detachFinalize, EatHook.detachFinalize, EatHook.disable, off, if_true]
    split_ifs with hc <;> simp_all [claimed, active, enabled, slot]
  | vtable h =>
    simp only [enabled] at off
    simp only [detachFinalize, VTableHook.detachFinalize, VTableHook.disable, off, if_true]
    split_ifs with hc <;> simp_all [claimed, active, enabled, slot]

@[simp] theorem slot_setEnabled (on : Bool) : (h.setEnabled on).slot = h.slot := by cases h <;> rfl

@[simp] theorem original_setEnabled (on : Bool) : (h.setEnabled on).original = h.original := by
  cases h <;> rfl

@[simp] theorem redirect_setEnabled (on : Bool) : (h.setEnabled on).redirect = h.redirect := by
  cases h <;> rfl

@[simp] theorem claimed_setEnabled (on : Bool) : (h.setEnabled on).claimed = h.claimed := by
  cases h <;> rfl

@[simp] theorem active_setEnabled (on : Bool) : (h.setEnabled on).active = h.active := by
  cases h <;> rfl

@[simp] theorem enabled_setEnabled (on : Bool) : (h.setEnabled on).enabled = on := by cases h <;> rfl

@[simp] theorem resolved_setEnabled (on : Bool) : (h.setEnabled on).Resolved M ↔ h.Resolved M := by
  cases h <;> exact Iff.rfl

@[simp] theorem writable_setEnabled (on : Bool) : (h.setEnabled on).Writable v ↔ h.Writable v := by
  cases h <;> exact Iff.rfl

end SharedHook

/-- The address is a slot of a table of the process. -/
def InTables (M : Modules) (a : ℕ) : Prop := ∃ b ∈ M.tables, InRange b.1 b.2 a

/-! ### The claimed slots -/

/-- The registry and the tables agree with the hooks `L` that hold a claim. -/
structure SlotInv (M : Modules) (w₀ : ℕ → ℕ) (t : Tables) (L : Multiset SharedHook) : Prop where
  claimed : ∀ h ∈ L, h.slot ∈ t.tableSlots
  owner : ∀ a ∈ t.tableSlots, ∃ h ∈ L, h.slot = a
  distinct : L.Pairwise fun h h' => h.slot ≠ h'.slot
  table : ∀ h ∈ L, InTables M h.slot
  resolved : ∀ h ∈ L, h.Resolved M
  original : ∀ h ∈ L, h.original = w₀ h.slot
  writable : ∀ h ∈ L, h.Writable h.original
  held : ∀ h ∈ L, t.words h.slot = if h.enabled = true then h.redirect else h.original
  rest : ∀ a, InTables M a → a ∉ t.tableSlots → t.words a = w₀ a

instance : Std.Symm fun h h' : SharedHook => h.slot ≠ h'.slot := ⟨fun _ _ h => h.symm⟩

/-- Everything a step can do to the tables and the hooks that hold a claim. -/
inductive SharedMove (M : Modules) : Tables → Multiset SharedHook → Tables → Multiset SharedHook → Prop
  | stay {t L} : SharedMove M t L t L
  | claim {t L} (h : SharedHook) (free : h.slot ∉ t.tableSlots) (mem : InTables M h.slot)
      (res : h.Resolved M) (wr : h.Writable h.original) (orig : h.original = t.words h.slot)
      (on : h.enabled = true) :
      SharedMove M t L
        ({ t with tableSlots := insert h.slot t.tableSlots }.setWord h.slot h.redirect) (h ::ₘ L)
  | toggle {t L h} (on : Bool) :
      SharedMove M t (h ::ₘ L) (t.setWord h.slot (if on then h.redirect else h.original))
        (h.setEnabled on ::ₘ L)
  | restore {t L h} :
      SharedMove M t (h ::ₘ L) ((t.setWord h.slot h.original).releaseTableSlot h.slot) L
  | withdraw {t L h} (off : h.enabled = false) :
      SharedMove M t (h ::ₘ L) (t.releaseTableSlot h.slot) L

namespace SlotInv

variable {M : Modules} {w₀ : ℕ → ℕ} {t t' : Tables} {L L' : Multiset SharedHook} {h : SharedHook}

theorem initial (M : Modules) (w₀ : ℕ → ℕ) (flags : ℕ → Bool) :
    SlotInv M w₀ (InstanceState.initial w₀ flags).tables 0 := by
  constructor <;> simp [InstanceState.initial, Multiset.pairwise_zero]

/-- Changes outside the tables keep the invariant. -/
theorem frame (inv : SlotInv M w₀ t L) (slots : t'.tableSlots = t.tableSlots)
    (words : ∀ a, InTables M a → t'.words a = t.words a) : SlotInv M w₀ t' L :=
  { inv with
    claimed := slots ▸ inv.claimed
    owner := slots ▸ inv.owner
    held := fun h hh => (words _ (inv.table h hh)).trans (inv.held h hh)
    rest := fun a ha hn => (words a ha).trans (inv.rest a ha (slots ▸ hn)) }

theorem slot_ne (inv : SlotInv M w₀ t (h ::ₘ L)) : ∀ k ∈ L, k.slot ≠ h.slot :=
  fun k hk => ((Bag.pairwise_cons.1 inv.distinct).1 k hk).symm

/-- A hook that leaves with its slot restored. -/
theorem leave (inv : SlotInv M w₀ t (h ::ₘ L)) (words : t'.words h.slot = w₀ h.slot)
    (others : ∀ a, a ≠ h.slot → t'.words a = t.words a)
    (slots : t'.tableSlots = t.tableSlots.erase h.slot) : SlotInv M w₀ t' L where
  claimed k hk := by
    rw [slots, Finset.mem_erase]
    exact ⟨inv.slot_ne k hk, inv.claimed k (Multiset.mem_cons_of_mem hk)⟩
  owner a ha := by
    rw [slots, Finset.mem_erase] at ha
    obtain ⟨k, hk, e⟩ := inv.owner a ha.2
    rcases Multiset.mem_cons.1 hk with rfl | hk
    · exact absurd e.symm ha.1
    · exact ⟨k, hk, e⟩
  distinct := (Bag.pairwise_cons.1 inv.distinct).2
  table k hk := inv.table k (Multiset.mem_cons_of_mem hk)
  resolved k hk := inv.resolved k (Multiset.mem_cons_of_mem hk)
  original k hk := inv.original k (Multiset.mem_cons_of_mem hk)
  writable k hk := inv.writable k (Multiset.mem_cons_of_mem hk)
  held k hk := (others _ (inv.slot_ne k hk)).trans (inv.held k (Multiset.mem_cons_of_mem hk))
  rest a ha hn := by
    by_cases e : a = h.slot
    · exact e ▸ words
    · rw [slots, Finset.mem_erase, not_and] at hn
      exact (others a e).trans (inv.rest a ha (hn e))

theorem move (inv : SlotInv M w₀ t L) (m : SharedMove M t L t' L') : SlotInv M w₀ t' L' := by
  cases m with
  | stay => exact inv
  | claim h free mem res wr orig on =>
    have ne : ∀ k ∈ L, k.slot ≠ h.slot := fun k hk e => free (e ▸ inv.claimed k hk)
    exact {
      claimed := fun k hk => by
        rcases Multiset.mem_cons.1 hk with rfl | hk
        · exact Finset.mem_insert_self _ _
        · exact Finset.mem_insert_of_mem (inv.claimed k hk)
      owner := fun a ha => by
        rcases Finset.mem_insert.1 ha with rfl | ha
        · exact ⟨h, Multiset.mem_cons_self _ _, rfl⟩
        · obtain ⟨k, hk, e⟩ := inv.owner a ha
          exact ⟨k, Multiset.mem_cons_of_mem hk, e⟩
      distinct := Bag.pairwise_cons.2 ⟨fun k hk => (ne k hk).symm, inv.distinct⟩
      table := Multiset.forall_mem_cons.2 ⟨mem, inv.table⟩
      resolved := Multiset.forall_mem_cons.2 ⟨res, inv.resolved⟩
      original := Multiset.forall_mem_cons.2 ⟨orig.trans (inv.rest _ mem free), inv.original⟩
      writable := Multiset.forall_mem_cons.2 ⟨wr, inv.writable⟩
      held := Multiset.forall_mem_cons.2 ⟨by
        rw [if_pos on]
        exact Function.update_self .., fun k hk =>
          (Function.update_of_ne (ne k hk) _ _).trans (inv.held k hk)⟩
      rest := fun a ha hn => by
        obtain ⟨e, hn⟩ := not_or.1 (mt Finset.mem_insert.2 hn)
        exact (Function.update_of_ne e _ _).trans (inv.rest a ha hn) }
  | @toggle L h on =>
    have self := Multiset.mem_cons_self h L
    exact {
      claimed := fun k hk => by
        rcases Multiset.mem_cons.1 hk with rfl | hk
        · rw [SharedHook.slot_setEnabled]
          exact inv.claimed h self
        · exact inv.claimed k (Multiset.mem_cons_of_mem hk)
      owner := fun a ha => by
        obtain ⟨k, hk, e⟩ := inv.owner a ha
        rcases Multiset.mem_cons.1 hk with rfl | hk
        · exact ⟨_, Multiset.mem_cons_self _ _, by simpa using e⟩
        · exact ⟨k, Multiset.mem_cons_of_mem hk, e⟩
      distinct := Bag.pairwise_replace inv.distinct fun k hk => by simpa using hk
      table := Multiset.forall_mem_cons.2 ⟨by simpa using inv.table h self,
        fun k hk => inv.table k (Multiset.mem_cons_of_mem hk)⟩
      resolved := Multiset.forall_mem_cons.2 ⟨by simpa using inv.resolved h self,
        fun k hk => inv.resolved k (Multiset.mem_cons_of_mem hk)⟩
      original := Multiset.forall_mem_cons.2 ⟨by simpa using inv.original h self,
        fun k hk => inv.original k (Multiset.mem_cons_of_mem hk)⟩
      writable := Multiset.forall_mem_cons.2 ⟨by simpa using inv.writable h self,
        fun k hk => inv.writable k (Multiset.mem_cons_of_mem hk)⟩
      held := Multiset.forall_mem_cons.2 ⟨by
        simp only [SharedHook.slot_setEnabled, SharedHook.enabled_setEnabled,
          SharedHook.redirect_setEnabled, SharedHook.original_setEnabled]
        exact Function.update_self .., fun k hk =>
          (Function.update_of_ne (inv.slot_ne k hk) _ _).trans
            (inv.held k (Multiset.mem_cons_of_mem hk))⟩
      rest := fun a ha hn => by
        have e : a ≠ h.slot := fun e => hn (e ▸ inv.claimed h self)
        exact (Function.update_of_ne e _ _).trans (inv.rest a ha hn) }
  | @restore L h =>
    have orig := inv.original h (Multiset.mem_cons_self _ _)
    exact inv.leave ((Function.update_self ..).trans orig)
      (fun a e => Function.update_of_ne e _ _) rfl
  | @withdraw L h off =>
    have held := inv.held h (Multiset.mem_cons_self _ _)
    rw [if_neg (by simp [off]), inv.original h (Multiset.mem_cons_self _ _)] at held
    exact inv.leave held (fun a _ => rfl) rfl

end SlotInv

/-! ### The machine -/

structure TableState where
  inst : InstanceState
  /-- The import, export and VTable hooks the program holds. -/
  hooks : Multiset SharedHook
  /-- Hooks that were dropped although their slot could not be written back. -/
  stranded : Multiset SharedHook

inductive TableOp where
  | instance_ (op : InstanceOp)
  | installIat (module : ℕ) (dll func : String) (detour : ℕ) (ok : Bool)
  | installEat (module : ℕ) (func : String) (detourRva : ℕ) (stub : Option Trampoline) (ok : Bool)
  | installVtable (vtable index detour : ℕ) (ok : Bool)
  | enable (h : SharedHook) (ok : Bool)
  | disable (h : SharedHook) (ok : Bool)
  | unhook (h : SharedHook) (ok dropOk : Bool)
  | detachFinalize (h : SharedHook) (ok : Bool)
  | drop (h : SharedHook) (ok : Bool)

namespace TableState

variable (M : Modules)

def tables (s : TableState) : Tables := s.inst.tables

def setTables (s : TableState) (t : Tables) : TableState :=
  { s with inst := { s.inst with tables := t } }

/-- The outcome of an install: a hook to hold, or an error. -/
def installed (s : TableState) {α ε : Type} (f : α → SharedHook) (r : Except ε α × Tables) :
    TableState :=
  match r with
  | (.error _, t) => s.setTables t
  | (.ok h, t) => { s.setTables t with hooks := f h ::ₘ s.hooks }

/-- The outcome of switching a hook. -/
def switched (s : TableState) (h : SharedHook) (r : Except DetourError (Tables × SharedHook)) :
    TableState :=
  match r with
  | .error _ => s
  | .ok (t, h') => { s.setTables t with hooks := h' ::ₘ s.hooks.erase h }

/-- The hook is gone; it stays in `stranded` if its slot could not be restored. -/
def forget (s : TableState) (h : SharedHook) (failed : Bool) (t : Tables) : TableState :=
  { s.setTables t with
    hooks := s.hooks.erase h
    stranded := if failed then h ::ₘ s.stranded else s.stranded }

/-- Restoring the slot of a live hook is tried and fails. -/
def restoreFails (t : Tables) (h : SharedHook) (ok : Bool) : Bool :=
  h.claimed && h.active && (h.performUnhook M t ok).toOption.isNone

def step (s : TableState) : TableOp → TableState
  | .instance_ op => { s with inst := s.inst.step M op }
  | .installIat module dll func detour ok =>
    match M.findImport module dll func with
    | .error _ => s
    | .ok slot => s.installed .iat (IatHook.install M s.tables module dll func detour slot ok)
  | .installEat module func detourRva stub ok =>
    match EatHook.findExport M s.tables module func with
    | .error _ => s
    | .ok slot => s.installed .eat (EatHook.install s.tables module func ⟨slot, detourRva, stub⟩ ok)
  | .installVtable vtable index detour ok =>
    s.installed .vtable (VTableHook.install s.tables vtable index detour ok)
  | .enable h ok => if h ∈ s.hooks then s.switched h (h.enable M s.tables ok) else s
  | .disable h ok => if h ∈ s.hooks then s.switched h (h.disable M s.tables ok) else s
  | .unhook h ok dropOk =>
    if h ∈ s.hooks then
      s.forget h (restoreFails M s.tables h ok && restoreFails M s.tables h dropOk)
        (h.unhook M s.tables ok dropOk)
    else s
  | .detachFinalize h ok =>
    if h ∈ s.hooks then
      let r := h.detachFinalize M s.tables ok
      { s.setTables r.1 with hooks := r.2 ::ₘ s.hooks.erase h }
    else s
  | .drop h ok =>
    if h ∈ s.hooks then s.forget h (restoreFails M s.tables h ok) (h.drop M s.tables ok) else s

def run (s : TableState) (ops : List TableOp) : TableState := ops.foldl (step M) s

def initial (words : ℕ → ℕ) (flags : ℕ → Bool) : TableState := ⟨.initial words flags, 0, 0⟩

/-- What the callers of an operation promise: a VTable slot is a slot of a table of the process or
of a clone that is in use, and a detach is finalized after the hook was disabled for it. -/
def Safe (s : TableState) : TableOp → Prop
  | .instance_ op => s.inst.Safe M op
  | .installVtable vtable index _ _ => InTables M (slotAddr vtable index) ∨
      ∃ b ∈ s.tables.heap, ∃ i < b.2, slotAddr vtable index = slotAddr b.1 i
  | .detachFinalize h _ => h.enabled = false
  | _ => True

/-- No VTable hook is put on a slot of a clone, and the import slots that are hooked hold a
pointer. -/
def Exclusive (s : TableState) : TableOp → Prop
  | .installVtable vtable index _ _ => ∀ b ∈ s.tables.heap, ¬ InClone b (slotAddr vtable index)
  | .installIat module dll func _ _ =>
    ∀ slot, M.findImport module dll func = .ok slot → s.tables.words slot ≠ 0
  | _ => True

/-- Every operation of a run meets its contract and the condition. -/
def Meets (s : TableState) : List TableOp → Prop
  | [] => True
  | op :: ops => (s.Safe M op ∧ s.Exclusive M op) ∧ (s.step M op).Meets ops

/-- When the operation removes a hook, the slot or vptr it restores can be written. -/
def Restores : TableOp → Prop
  | .instance_ (.unhook _ ok dropOk) => ok = true ∨ dropOk = true
  | .instance_ (.detachFinalize _ ok) => ok = true
  | .instance_ (.drop _ ok) => ok = true
  | .unhook _ ok dropOk => ok = true ∨ dropOk = true
  | .drop _ ok => ok = true
  | _ => True

/-- The slots live hooks redirect, one entry a hook. -/
def redirected (s : TableState) : Multiset ℕ :=
  (s.hooks.filter fun h => h.active = true).map (·.slot) +
    (s.inst.hooks.filter fun h => h.active = true).map fun h => slotAddr h.clonedVtable h.index

/-- The hooks that hold a claim. -/
def holders (s : TableState) : Multiset SharedHook :=
  s.hooks.filter (fun h => h.claimed = true) + s.stranded

/-! ### Steps as moves -/

variable {M} {w₀ : ℕ → ℕ} {s : TableState} {h h' : SharedHook} {t : Tables}

/-- The holders other than one hook the program holds. -/
def otherHolders (s : TableState) (h : SharedHook) : Multiset SharedHook :=
  (s.hooks.erase h).filter (fun h => h.claimed = true) + s.stranded

theorem holders_of_claimed (mem : h ∈ s.hooks) (hc : h.claimed = true) :
    s.holders = h ::ₘ s.otherHolders h := by
  unfold holders otherHolders
  conv_lhs => rw [← Multiset.cons_erase mem]
  simp [hc]

theorem holders_of_unclaimed (mem : h ∈ s.hooks) (hc : h.claimed = false) :
    s.holders = s.otherHolders h := by
  unfold holders otherHolders
  conv_lhs => rw [← Multiset.cons_erase mem]
  simp [hc]

/-- A hook the program holds is live and holds its claim, or it is inert. -/
def Live (h : SharedHook) : Prop :=
  h.claimed = true ∧ h.active = true ∨ h.claimed = false ∧ h.active = false ∧ h.enabled = false

/-- The invariants of a state. -/
structure Inv (M : Modules) (w₀ : ℕ → ℕ) (s : TableState) : Prop where
  clones : CloneInv M w₀ s.tables s.inst.installed s.inst.storage
  inert : s.inst.Inert
  slots : SlotInv M w₀ s.tables s.holders
  live : ∀ h ∈ s.hooks, Live h

theorem inv_initial (M : Modules) (w₀ : ℕ → ℕ) (flags : ℕ → Bool) : Inv M w₀ (initial w₀ flags) where
  clones := cloneInv_initial M w₀ flags
  inert := fun _ h => absurd h (by simp [initial, InstanceState.initial])
  slots := .initial M w₀ flags
  live := fun _ h => absurd h (by simp [initial])

/-- What a call on a shared hook does: a move of the claimed slots, and nothing to the objects of the
instance hooks. -/
structure SharedStep (M : Modules) (s s' : TableState) : Prop where
  inst : s'.inst = { s.inst with tables := s'.tables }
  move : SharedMove M s.tables s.holders s'.tables s'.holders
  live : ∀ h ∈ s'.hooks, Live h

theorem SharedStep.refl (inv : Inv M w₀ s) : SharedStep M s s := ⟨rfl, .stay, inv.live⟩

/-- A move of the claimed slots writes at most a slot of a table, and nothing the registry of clones
keeps. -/
theorem SharedStep.frame {s' : TableState} (step : SharedStep M s s') (inv : Inv M w₀ s) :
    s'.tables.instanceClones = s.tables.instanceClones ∧ s'.tables.heap = s.tables.heap ∧
      s'.tables.badFree = s.tables.badFree ∧ s'.tables.flags = s.tables.flags ∧
      ∀ a, ¬ InTables M a → s'.tables.words a = s.tables.words a := by
  obtain ⟨-, m, -⟩ := step
  have other : ∀ h ∈ s.holders, ∀ a, ¬ InTables M a → a ≠ h.slot :=
    fun h hh a out e => out (e ▸ inv.slots.table h hh)
  generalize s.tables = t at m other ⊢
  generalize s.holders = L at m other
  generalize s'.tables = t' at m ⊢
  generalize s'.holders = L' at m
  cases m with
  | stay => exact ⟨rfl, rfl, rfl, rfl, fun _ _ => rfl⟩
  | claim h free mem =>
    have ne : ∀ a, ¬ InTables M a → a ≠ h.slot := fun a out e => out (e ▸ mem)
    exact ⟨rfl, rfl, rfl, rfl, fun a out => Function.update_of_ne (ne a out) _ _⟩
  | @toggle _ h on =>
    exact ⟨rfl, rfl, rfl, rfl, fun a out =>
      Function.update_of_ne (other h (Multiset.mem_cons_self _ _) a out) _ _⟩
  | @restore _ h =>
    exact ⟨rfl, rfl, rfl, rfl, fun a out =>
      Function.update_of_ne (other h (Multiset.mem_cons_self _ _) a out) _ _⟩
  | withdraw off => exact ⟨rfl, rfl, rfl, rfl, fun _ _ => rfl⟩

theorem Inv.shared {s' : TableState} (inv : Inv M w₀ s) (step : SharedStep M s s') :
    Inv M w₀ s' := by
  obtain ⟨hc, hh, hb, hf, hw⟩ := step.frame inv
  have object : ∀ o, ValidObject M o → s'.tables.words o = s.tables.words o :=
    fun o ho => hw o fun mem => ho.ne_table mem rfl
  have clones := inv.clones.frame hc hh hb object fun _ _ => by rw [hf]
  exact ⟨by rw [step.inst]; exact clones, by rw [step.inst]; exact inv.inert,
    inv.slots.move step.move, step.live⟩

/-- A hook that an install may add. -/
structure Fresh (M : Modules) (t : Tables) (h : SharedHook) : Prop where
  free : h.slot ∉ t.tableSlots
  mem : InTables M h.slot
  res : h.Resolved M
  wr : h.Writable h.original
  orig : h.original = t.words h.slot
  on : h.enabled = true
  claimed : h.claimed = true
  active : h.active = true

/-- The tables after a hook was added. -/
def added (t : Tables) (h : SharedHook) : Tables :=
  { t with tableSlots := insert h.slot t.tableSlots }.setWord h.slot h.redirect

theorem Inv.install {α ε : Type} {f : α → SharedHook} {r : Except ε α × Tables} (inv : Inv M w₀ s)
    (spec : (∃ e, r = (.error e, s.tables)) ∨
      ∃ a, r = (.ok a, added s.tables (f a)) ∧ Fresh M s.tables (f a)) :
    SharedStep M s (s.installed f r) := by
  rcases spec with ⟨e, rfl⟩ | ⟨a, rfl, fresh⟩
  · exact .refl inv
  · refine ⟨rfl, ?_, (Multiset.forall_mem_cons.2 ⟨Or.inl ⟨fresh.claimed, fresh.active⟩, inv.live⟩)⟩
    have holders : (s.installed f (Except.ok (ε := ε) a, added s.tables (f a))).holders =
        f a ::ₘ s.holders := by
      simp [TableState.installed, TableState.holders, TableState.setTables, fresh.claimed]
    rw [holders]
    exact .claim (f a) fresh.free fresh.mem fresh.res fresh.wr fresh.orig fresh.on

theorem release_claim {slot : ℕ} (free : slot ∉ t.tableSlots) :
    Tables.releaseTableSlot { t with tableSlots := insert slot t.tableSlots } slot = t := by
  simp [Tables.releaseTableSlot, Finset.erase_insert free]

theorem iat_spec {module detour slot : ℕ} {dll func : String} {ok : Bool}
    (found : M.findImport module dll func = .ok slot) (bound : t.words slot ≠ 0) :
    (∃ e, IatHook.install M t module dll func detour slot ok = (.error e, t)) ∨
      ∃ h, IatHook.install M t module dll func detour slot ok = (.ok h, added t (.iat h)) ∧
        Fresh M t (.iat h) := by
  unfold IatHook.install Tables.claimTableSlot
  by_cases taken : slot ∈ t.tableSlots
  · simp only [if_pos taken]
    exact Or.inl ⟨_, rfl⟩
  · simp only [if_neg taken, IatHook.hookImport, found]
    split_ifs with null wr
    · exact Or.inl ⟨_, by rw [release_claim taken]⟩
    · exact Or.inr ⟨_, rfl, taken, M.import_mem found, ⟨(not_or.1 null).1, found⟩, bound, rfl, rfl,
        rfl, rfl⟩
    · exact Or.inl ⟨.iat .protectFailed, by simp only [bind, Except.bind, release_claim taken]⟩

theorem eat_spec {module detourRva slot : ℕ} {func : String} {stub : Option Trampoline} {ok : Bool}
    (mem : InTables M slot) :
    (∃ e, EatHook.install t module func ⟨slot, detourRva, stub⟩ ok = (.error e, t)) ∨
      ∃ h, EatHook.install t module func ⟨slot, detourRva, stub⟩ ok = (.ok h, added t (.eat h)) ∧
        Fresh M t (.eat h) := by
  unfold EatHook.install Tables.claimTableSlot EatHook.writeExportRva
  by_cases taken : slot ∈ t.tableSlots
  · simp only [if_pos taken]
    exact Or.inl ⟨_, rfl⟩
  · simp only [if_neg taken]
    split_ifs with null wr
    · exact Or.inl ⟨_, by rw [release_claim taken]⟩
    · exact Or.inr ⟨_, rfl, taken, mem, null, trivial, rfl, rfl, rfl, rfl⟩
    · exact Or.inl ⟨_, by rw [release_claim taken]⟩

theorem vtable_spec {vtable index detour : ℕ} {ok : Bool} (mem : InTables M (slotAddr vtable index)) :
    (∃ e, VTableHook.install t vtable index detour ok = (.error e, t)) ∨
      ∃ h, VTableHook.install t vtable index detour ok = (.ok h, added t (.vtable h)) ∧
        Fresh M t (.vtable h) := by
  unfold VTableHook.install
  by_cases null : vtable = 0 ∨ detour = 0
  · rw [if_pos null]
    exact Or.inl ⟨_, rfl⟩
  · simp only [if_neg null, Tables.claimTableSlot]
    by_cases taken : slotAddr vtable index ∈ t.tableSlots
    · simp only [if_pos taken]
      exact Or.inl ⟨_, rfl⟩
    · simp only [if_neg taken]
      have nonnull : slotAddr vtable index ≠ 0 := by
        have := (not_or.1 null).1
        unfold slotAddr
        omega
      split_ifs with wr
      · exact Or.inr ⟨_, rfl, taken, mem, nonnull, trivial, rfl, rfl, rfl, rfl⟩
      · exact Or.inl ⟨_, by rw [release_claim taken]⟩

/-- Switching a live hook is a move; an inert hook cannot be switched on and is off. -/
theorem Inv.switch {r : Except DetourError (Tables × SharedHook)} (inv : Inv M w₀ s)
    (mem : h ∈ s.hooks) (on ok : Bool)
    (spec : (∃ e, r = .error e) ∨ r = .ok (s.tables, h) ∨ h.active = true ∧
      r = (h.write M s.tables (if on then h.redirect else h.original) ok).map
        fun t => (t, h.setEnabled on)) :
    SharedStep M s (s.switched h r) := by
  rcases spec with ⟨e, rfl⟩ | rfl | ⟨ha, rfl⟩
  · exact .refl inv
  · have same : s.switched h (.ok (s.tables, h)) = s := by
      simp [switched, setTables, tables, Multiset.cons_erase mem]
    exact same.symm ▸ .refl inv
  · have hc : h.claimed = true := by
      rcases inv.live h mem with live | inert
      · exact live.1
      · rw [inert.2.1] at ha
        cases ha
    have holder : h ∈ s.holders := by
      rw [holders_of_claimed mem hc]
      exact Multiset.mem_cons_self _ _
    cases out : h.write M s.tables (if on then h.redirect else h.original) ok with
    | error e => exact .refl inv
    | ok t =>
      obtain rfl := SharedHook.write_cases (inv.slots.resolved h holder) out
      refine ⟨rfl, ?_, ?_⟩
      · rw [holders_of_claimed mem hc]
        have holders : ∀ t, (s.switched h (.ok (t, h.setEnabled on))).holders =
            h.setEnabled on ::ₘ s.otherHolders h := by
          intro t
          simp [switched, setTables, TableState.holders, otherHolders, hc]
        exact (holders _).symm ▸ .toggle on
      · refine Multiset.forall_mem_cons.2 ⟨Or.inl ⟨by simpa using hc, by simpa using ha⟩, ?_⟩
        exact fun k hk => inv.live k (Multiset.mem_of_mem_erase hk)

/-- Removing a hook the program holds. -/
theorem Inv.gone {failed : Bool} (inv : Inv M w₀ s) (mem : h ∈ s.hooks)
    (inert : h.claimed = false → failed = false ∧ t = s.tables)
    (failure : h.claimed = true → failed = true → t = s.tables)
    (success : h.claimed = true → failed = false →
      t = (s.tables.setWord h.slot h.original).releaseTableSlot h.slot) :
    SharedStep M s (s.forget h failed t) := by
  refine ⟨rfl, ?_, fun k hk => inv.live k (Multiset.mem_of_mem_erase hk)⟩
  cases hc : h.claimed with
  | false =>
    obtain ⟨rfl, rfl⟩ := inert hc
    rw [holders_of_unclaimed mem hc]
    exact .stay
  | true =>
    rw [holders_of_claimed mem hc]
    cases failed with
    | true =>
      rw [failure hc rfl]
      have holders : (s.forget h true s.tables).holders = h ::ₘ s.otherHolders h := by
        simp [TableState.forget, TableState.holders, otherHolders, setTables]
      rw [holders]
      exact .stay
    | false =>
      rw [success hc rfl]
      exact .restore

theorem restoreFails_iff {ok : Bool} (live : Live h) : restoreFails M t h ok = true ↔
    h.claimed = true ∧ ∃ e, h.write M t h.original ok = .error e := by
  unfold restoreFails
  rw [SharedHook.performUnhook_eq]
  rcases live with ⟨hc, ha⟩ | ⟨hc, ha, -⟩ <;>
    cases h.write M t h.original ok <;> simp [Except.toOption, hc, ha]

theorem Inv.drop (inv : Inv M w₀ s) (mem : h ∈ s.hooks) (ok : Bool) :
    SharedStep M s (s.forget h (restoreFails M s.tables h ok) (h.drop M s.tables ok)) := by
  have live := inv.live h mem
  have active : h.claimed = true → h.active ≠ false := by
    rcases live with ⟨-, ha⟩ | ⟨hc, -⟩
    · simp [ha]
    · simp [hc]
  refine inv.gone mem (fun hc => ?_) (fun hc failed => ?_) fun hc failed => ?_
  · rw [SharedHook.drop_eq, if_pos hc]
    exact ⟨by simp [restoreFails, hc], rfl⟩
  · obtain ⟨-, e, out⟩ := (restoreFails_iff live).1 failed
    rw [SharedHook.drop_eq, if_neg (by simp [hc]), if_neg (active hc), out]
  · have res := inv.slots.resolved h (by
      rw [holders_of_claimed mem hc]
      exact Multiset.mem_cons_self _ _)
    cases out : h.write M s.tables h.original ok with
    | error e =>
      rw [(restoreFails_iff live).2 ⟨hc, e, out⟩] at failed
      cases failed
    | ok t =>
      rw [SharedHook.drop_eq, if_neg (by simp [hc]), if_neg (active hc), out,
        SharedHook.write_cases res out]

theorem Inv.unhook (inv : Inv M w₀ s) (mem : h ∈ s.hooks) (ok dropOk : Bool) :
    SharedStep M s (s.forget h (restoreFails M s.tables h ok && restoreFails M s.tables h dropOk)
      (h.unhook M s.tables ok dropOk)) := by
  have live := inv.live h mem
  have drop := inv.drop mem dropOk
  cases first : restoreFails M s.tables h ok with
  | true =>
    obtain ⟨hc, e, out⟩ := (restoreFails_iff live).1 first
    have eq : h.unhook M s.tables ok dropOk = h.drop M s.tables dropOk := by
      rw [SharedHook.unhook_eq, out]
      simp
    rw [eq, Bool.true_and]
    exact drop
  | false =>
    rw [Bool.false_and]
    refine inv.gone mem (fun hc => ⟨rfl, ?_⟩) (fun _ failed => by cases failed) fun hc _ => ?_
    · have ha : h.active = false := by
        rcases live with ⟨hc', -⟩ | ⟨-, ha, -⟩
        · rw [hc] at hc'
          cases hc'
        · exact ha
      rw [SharedHook.unhook_eq, if_pos ha, SharedHook.drop_eq, if_pos hc]
    · have ha : h.active ≠ false := by
        rcases live with ⟨-, ha⟩ | ⟨hc', -⟩
        · simp [ha]
        · rw [hc] at hc'
          cases hc'
      have res := inv.slots.resolved h (by
        rw [holders_of_claimed mem hc]
        exact Multiset.mem_cons_self _ _)
      cases out : h.write M s.tables h.original ok with
      | error e =>
        rw [(restoreFails_iff live).2 ⟨hc, e, out⟩] at first
        cases first
      | ok t =>
        rw [SharedHook.unhook_eq, if_neg ha, out, SharedHook.write_cases res out]
        simp [hc]

theorem findExport_mem {module slot : ℕ} {func : String}
    (found : EatHook.findExport M t module func = .ok slot) : InTables M slot := by
  unfold EatHook.findExport at found
  split_ifs at found
  cases out : M.exportSlot module func with
  | error e => rw [out] at found; cases found
  | ok slot' =>
    rw [out] at found
    simp only [bind, Except.bind] at found
    split_ifs at found
    obtain rfl := Except.ok.inj found
    exact M.export_mem out

/-- The operation concerns the instance hooks. -/
def OnInstance : TableOp → Prop
  | .instance_ _ => True
  | _ => False

theorem Inv.sharedStep {op : TableOp} (inv : Inv M w₀ s) (safe : s.Safe M op)
    (excl : s.Exclusive M op) (shared : ¬ OnInstance op) : SharedStep M s (s.step M op) := by
  cases op with
  | instance_ op => exact absurd trivial shared
  | installIat module dll func detour ok =>
    simp only [TableState.step]
    cases found : M.findImport module dll func with
    | error e => exact .refl inv
    | ok slot => exact inv.install (iat_spec found (excl slot found))
  | installEat module func detourRva stub ok =>
    simp only [TableState.step]
    cases found : EatHook.findExport M s.tables module func with
    | error e => exact .refl inv
    | ok slot => exact inv.install (eat_spec (findExport_mem found))
  | installVtable vtable index detour ok =>
    refine inv.install (vtable_spec (safe.resolve_right ?_))
    rintro ⟨b, hb, i, hi, e⟩
    exact excl b hb (e ▸ slotAddr_inClone hi)
  | enable h ok =>
    simp only [TableState.step]
    split_ifs with mem
    · refine inv.switch mem true ok ?_
      rw [SharedHook.enable_eq]
      by_cases gone : h.active = false
      · exact Or.inl ⟨_, if_pos gone⟩
      rw [if_neg gone]
      by_cases on : h.enabled = true
      · exact Or.inr (Or.inl (if_pos on))
      · exact Or.inr (Or.inr ⟨by simpa using gone, if_neg on⟩)
    · exact .refl inv
  | disable h ok =>
    simp only [TableState.step]
    split_ifs with mem
    · refine inv.switch mem false ok ?_
      rw [SharedHook.disable_eq]
      by_cases off : h.enabled = false
      · exact Or.inr (Or.inl (if_pos off))
      · refine Or.inr (Or.inr ⟨?_, if_neg off⟩)
        rcases inv.live h mem with live | inert
        · exact live.2
        · exact absurd inert.2.2 off
    · exact .refl inv
  | unhook h ok dropOk =>
    simp only [TableState.step]
    split_ifs with mem
    · exact inv.unhook mem ok dropOk
    · exact .refl inv
  | detachFinalize h ok =>
    simp only [TableState.step]
    split_ifs with mem
    · obtain ⟨ht, hc', ha', he'⟩ := SharedHook.detachFinalize_disabled (M := M) safe s.tables ok
      refine ⟨rfl, ?_, Multiset.forall_mem_cons.2 ⟨Or.inr ⟨hc', ha', he'⟩,
        fun k hk => inv.live k (Multiset.mem_of_mem_erase hk)⟩⟩
      have holders : ∀ t, ({ s.setTables t with
          hooks := (h.detachFinalize M s.tables ok).2 ::ₘ s.hooks.erase h } : TableState).holders =
            s.otherHolders h := by
        intro t
        simp [TableState.holders, otherHolders, setTables, hc']
      rw [holders]
      change SharedMove M s.tables s.holders (h.detachFinalize M s.tables ok).1 _
      rw [ht]
      split_ifs with hc
      · rw [holders_of_claimed mem hc]
        exact .withdraw safe
      · rw [holders_of_unclaimed mem (by simpa using hc)]
        exact .stay
    · exact .refl inv
  | drop h ok =>
    simp only [TableState.step]
    split_ifs with mem
    · exact inv.drop mem ok
    · exact .refl inv

/-- Every operation that meets its contract and the condition keeps the invariants. -/
theorem Inv.step {op : TableOp} (inv : Inv M w₀ s) (safe : s.Safe M op) (excl : s.Exclusive M op) :
    Inv M w₀ (s.step M op) := by
  by_cases kind : OnInstance op
  · cases op with
    | instance_ op =>
      have m := InstanceState.step_move safe inv.inert
      obtain ⟨slots, words⟩ := inv.clones.move_table m
      exact ⟨inv.clones.move m, InstanceState.inert_step inv.inert, inv.slots.frame slots words,
        inv.live⟩
    | _ => exact kind.elim
  · exact inv.shared (inv.sharedStep safe excl kind)

theorem Inv.run (inv : Inv M w₀ s) {ops : List TableOp} (meets : s.Meets M ops) :
    Inv M w₀ (s.run M ops) := by
  induction ops generalizing s with
  | nil => exact inv
  | cons op ops ih => exact ih (inv.step meets.1.1 meets.1.2) meets.2

/-! ### Removals that succeed strand nothing -/

theorem restoreFails_true (inv : Inv M w₀ s) (mem : h ∈ s.hooks) :
    restoreFails M s.tables h true = false := by
  cases failed : restoreFails M s.tables h true with
  | false => rfl
  | true =>
    obtain ⟨hc, e, out⟩ := (restoreFails_iff (inv.live h mem)).1 failed
    have holder : h ∈ s.holders := by
      rw [holders_of_claimed mem hc]
      exact Multiset.mem_cons_self _ _
    rw [SharedHook.write_ok (inv.slots.resolved h holder) (inv.slots.writable h holder)] at out
    cases out

theorem removalFails_true {k : VTableInstanceHook} (inv : Inv M w₀ s) (mem : k ∈ s.inst.hooks) :
    k.removalFails s.tables true = false := by
  cases failed : k.removalFails s.tables true with
  | false => rfl
  | true =>
    obtain ⟨ha, e, out⟩ := InstanceState.removalFails_iff.1 failed
    have clones := inv.clones
    rw [InstanceState.installed_of_active mem ha] at clones
    obtain ⟨c, -, eq⟩ := clones.performUnhook_eq true
    rw [eq, if_pos rfl] at out
    split_ifs at out

/-- Nothing is stranded by an operation whose restoring writes succeed. -/
theorem stranded_step {op : TableOp} (inv : Inv M w₀ s) (restores : Restores op) :
    (s.step M op).stranded = s.stranded ∧ (s.step M op).inst.stranded = s.inst.stranded := by
  cases op with
  | instance_ op =>
    refine ⟨rfl, ?_⟩
    cases op with
    | newClone len at_ =>
      simp only [TableState.step, InstanceState.step]
      split <;> rfl
    | dropClone table =>
      simp only [TableState.step, InstanceState.step]
      split_ifs <;> rfl
    | installInto o index detour table ok =>
      simp only [TableState.step, InstanceState.step]
      split_ifs
      · split <;> rfl
      · rfl
    | enable k =>
      simp only [TableState.step, InstanceState.step]
      split_ifs
      · split <;> rfl
      · rfl
    | disable k =>
      simp only [TableState.step, InstanceState.step]
      split_ifs
      · split <;> rfl
      · rfl
    | unhook k ok dropOk =>
      simp only [TableState.step, InstanceState.step]
      split_ifs with mem
      · have never := removalFails_true inv mem
        rw [TableState.tables] at never
        rcases restores with rfl | rfl <;> simp [InstanceState.forget, never]
      · rfl
    | detachFinalize k ok =>
      simp only [Restores] at restores
      subst restores
      simp only [TableState.step, InstanceState.step]
      by_cases mem : k ∈ s.inst.hooks
      · have never := removalFails_true inv mem
        rw [TableState.tables] at never
        simp [mem, never, InstanceState.update]
      · rw [if_neg mem]
    | drop k ok =>
      simp only [Restores] at restores
      subst restores
      simp only [TableState.step, InstanceState.step]
      split_ifs with mem
      · have never := removalFails_true inv mem
        rw [TableState.tables] at never
        simp [InstanceState.forget, never]
      · rfl
  | installIat module dll func detour ok =>
    simp only [TableState.step]
    split
    · exact ⟨rfl, rfl⟩
    · unfold TableState.installed
      split <;> exact ⟨rfl, rfl⟩
  | installEat module func detourRva stub ok =>
    simp only [TableState.step]
    split
    · exact ⟨rfl, rfl⟩
    · unfold TableState.installed
      split <;> exact ⟨rfl, rfl⟩
  | installVtable vtable index detour ok =>
    simp only [TableState.step]
    unfold TableState.installed
    split <;> exact ⟨rfl, rfl⟩
  | enable h ok =>
    simp only [TableState.step]
    split_ifs
    · unfold TableState.switched
      split <;> exact ⟨rfl, rfl⟩
    · exact ⟨rfl, rfl⟩
  | disable h ok =>
    simp only [TableState.step]
    split_ifs
    · unfold TableState.switched
      split <;> exact ⟨rfl, rfl⟩
    · exact ⟨rfl, rfl⟩
  | unhook h ok dropOk =>
    simp only [TableState.step]
    split_ifs with mem
    · have never := restoreFails_true inv mem
      refine ⟨?_, rfl⟩
      rcases restores with rfl | rfl <;> simp [forget, never, setTables]
    · exact ⟨rfl, rfl⟩
  | detachFinalize h ok =>
    simp only [TableState.step]
    split_ifs <;> exact ⟨rfl, rfl⟩
  | drop h ok =>
    simp only [Restores] at restores
    subst restores
    simp only [TableState.step]
    split_ifs with mem
    · exact ⟨by simp [forget, restoreFails_true inv mem, setTables], rfl⟩
    · exact ⟨rfl, rfl⟩

theorem stranded_run {ops : List TableOp} (inv : Inv M w₀ s) (meets : s.Meets M ops)
    (restores : ∀ op ∈ ops, Restores op) :
    (s.run M ops).stranded = s.stranded ∧ (s.run M ops).inst.stranded = s.inst.stranded := by
  induction ops generalizing s with
  | nil => exact ⟨rfl, rfl⟩
  | cons op ops ih =>
    obtain ⟨h₁, h₂⟩ := stranded_step inv (restores op (List.mem_cons_self ..))
    obtain ⟨h₃, h₄⟩ := ih (inv.step meets.1.1 meets.1.2) meets.2
      fun op' h => restores op' (List.mem_cons_of_mem _ h)
    exact ⟨h₃.trans h₁, h₄.trans h₂⟩

/-! ### Whole runs -/

theorem claimed_of_active (inv : Inv M w₀ s) {h : SharedHook} (mem : h ∈ s.hooks)
    (ha : h.active = true) : h ∈ s.holders := by
  rcases inv.live h mem with live | inert
  · rw [holders_of_claimed mem live.1]
    exact Multiset.mem_cons_self _ _
  · rw [inert.2.1] at ha
    cases ha

theorem slots_nodup (inv : Inv M w₀ s) :
    ((s.hooks.filter fun h => h.active = true).map (·.slot)).Nodup := by
  have eq : (s.hooks.filter fun h => h.active = true) = s.hooks.filter fun h => h.claimed = true := by
    refine Multiset.filter_congr fun h mem => ?_
    rcases inv.live h mem with live | inert
    · simp [live.1, live.2]
    · simp [inert.1, inert.2.1]
  rw [eq]
  exact Multiset.nodup_of_le (Multiset.map_le_map (Multiset.le_add_right _ s.stranded))
    (Bag.nodup_map inv.slots.distinct)

theorem cells_nodup (inv : Inv M w₀ s) :
    ((s.inst.hooks.filter fun h => h.active = true).map fun h =>
      slotAddr h.clonedVtable h.index).Nodup := by
  refine Multiset.nodup_of_le (Multiset.map_le_map (Multiset.le_add_right _ s.inst.stranded))
    (Bag.nodup_map (Bag.pairwise_imp_of_mem inv.clones.index fun h hh k hk diff => ?_))
  obtain ⟨c, hc, hcl, hi, -⟩ := inv.clones.hook h hh
  obtain ⟨c', hc', hcl', hi', -⟩ := inv.clones.hook k hk
  rw [hcl, hcl']
  by_cases e : h.objectVptr = k.objectVptr
  · rw [e] at hc
    obtain rfl : c' = c := Option.some.inj (hc'.symm.trans hc)
    exact fun same => diff e (slotAddr_inj.1 same)
  · exact (inv.clones.clones_apart hc hc' e).ne (slotAddr_inClone hi) (slotAddr_inClone hi')

/-- In a run that puts no VTable hook on a slot of a clone: no slot is redirected by two live hooks,
the slots live hooks write are memory in use, and once no hook is live and every removal could write
its slot back, the tables and the objects hold what they held at first. -/
theorem table_hooks_exclusive (flags : ℕ → Bool) {ops : List TableOp}
    (meets : (initial w₀ flags).Meets M ops) :
    let s := (initial w₀ flags).run M ops
    s.redirected.Nodup ∧
    (∀ h ∈ s.hooks, h.active = true → InTables M h.slot) ∧
    (∀ k ∈ s.inst.hooks, k.active = true → ValidObject M k.objectVptr ∧
      ∃ len, (k.clonedVtable, len) ∈ s.tables.heap ∧ k.index < len) ∧
    ((∀ op ∈ ops, Restores op) → (∀ h ∈ s.hooks, h.active = false) →
      (∀ k ∈ s.inst.hooks, k.active = false) →
      (∀ a, InTables M a → s.tables.words a = w₀ a) ∧
      ∀ o, ValidObject M o → s.tables.words o = w₀ o) := by
  intro s
  have inv : Inv M w₀ s := (inv_initial M w₀ flags).run meets
  have table : ∀ h ∈ s.hooks, h.active = true → InTables M h.slot :=
    fun h mem ha => inv.slots.table h (claimed_of_active inv mem ha)
  have cell : ∀ k ∈ s.inst.hooks, k.active = true → ∃ c,
      s.tables.instanceClones k.objectVptr = some c ∧ k.clonedVtable = c.clone ∧ k.index < c.len := by
    intro k mem ha
    obtain ⟨c, hc, hcl, hi, -⟩ := inv.clones.hook k (by
      rw [InstanceState.installed_of_active mem ha]
      exact Multiset.mem_cons_self _ _)
    exact ⟨c, hc, hcl, hi⟩
  refine ⟨?_, table, fun k mem ha => ?_, fun restores gone gone' => ?_⟩
  · refine Multiset.nodup_add.2 ⟨slots_nodup inv, cells_nodup inv, ?_⟩
    rw [Multiset.disjoint_left]
    intro a ha ha'
    obtain ⟨h, hh, rfl⟩ := Multiset.mem_map.1 ha
    obtain ⟨k, hk, e⟩ := Multiset.mem_map.1 ha'
    obtain ⟨hh, ha⟩ := Multiset.mem_filter.1 hh
    obtain ⟨hk, hka⟩ := Multiset.mem_filter.1 hk
    obtain ⟨c, hc, hcl, hi⟩ := cell k hk hka
    refine inv.clones.table_notMem (inv.clones.clone_mem hc).1 (table h hh ha) ?_
    rw [← e, hcl]
    exact slotAddr_inClone hi
  · obtain ⟨c, hc, hcl, hi⟩ := cell k mem ha
    exact ⟨(inv.clones.vptr hc).1, c.len, hcl ▸ (inv.clones.clone_mem hc).1, hi⟩
  · obtain ⟨str, str'⟩ := stranded_run (inv_initial M w₀ flags) meets restores
    have noHolder : ∀ h ∈ s.holders, False := by
      intro h hh
      rcases Multiset.mem_add.1 hh with hh | hh
      · obtain ⟨mem, hc⟩ := Multiset.mem_filter.1 hh
        rcases inv.live h mem with live | inert
        · rw [gone h mem] at live
          cases live.2
        · rw [inert.1] at hc
          cases hc
      · rw [str] at hh
        exact absurd hh (Multiset.notMem_zero _)
    have noInstalled : ∀ k ∈ s.inst.installed, False := by
      intro k hk
      rcases Multiset.mem_add.1 hk with hk | hk
      · obtain ⟨mem, ha⟩ := Multiset.mem_filter.1 hk
        rw [gone' k mem] at ha
        cases ha
      · rw [str'] at hk
        exact absurd hk (Multiset.notMem_zero _)
    refine ⟨fun a ha => inv.slots.rest a ha fun h => ?_, fun o ho => ?_⟩
    · obtain ⟨h, hh, -⟩ := inv.slots.owner a h
      exact noHolder h hh
    · refine inv.clones.free_vptr ho ?_
      cases hc : s.tables.instanceClones o with
      | none => rfl
      | some c =>
        obtain ⟨pos, count⟩ := inv.clones.count hc
        rw [Multiset.countP_eq_zero.2 fun k hk => (noInstalled k hk).elim] at count
        omega

/-! ### A VTable hook on a clone -/

/-- An instance hook on the object, then a VTable hook on the table its vptr points to now. -/
def cloneRun : List TableOp :=
  [.instance_ (.newClone 2 (some 0x3000)),
    .instance_ (.installInto 0x2000 0 0x5000 (some (0x3000, 2)) true),
    .installVtable 0x3000 0 0x6000 true]

/-- A VTable hook whose table is the vptr of an instance-hooked object shares a slot with the
instance hook. -/
theorem clone_slot_redirected_twice :
    let s := (initial Modules.oneObjectWords fun _ => false).run Modules.oneObject cloneRun
    s.tables.words 0x2000 = 0x3000 ∧ ¬ s.redirected.Nodup := by
  decide

/-- The same two hooks on different tables. -/
def tableRun : List TableOp :=
  [.instance_ (.newClone 2 (some 0x3000)),
    .instance_ (.installInto 0x2000 0 0x5000 (some (0x3000, 2)) true),
    .installVtable 0x1000 0 0x6000 true]

theorem tableRun_exclusive :
    (initial Modules.oneObjectWords fun _ => false).Meets Modules.oneObject tableRun ∧
      ((initial Modules.oneObjectWords fun _ => false).run Modules.oneObject
        tableRun).redirected.Nodup := by
  have meets : (initial Modules.oneObjectWords fun _ => false).Meets Modules.oneObject tableRun := by
    refine ⟨⟨trivial, trivial⟩, ⟨⟨⟨(0x2000, 8), by decide, by decide⟩, fun _ b hb => ?_⟩, trivial⟩,
      ⟨Or.inl ⟨(0x1000, 16), by decide, by decide⟩, ?_⟩, trivial⟩
    · cases hb
      exact ⟨(0x1000, 16), by decide, by decide, by decide⟩
    · unfold Exclusive InClone
      decide
  exact ⟨meets, (table_hooks_exclusive _ meets).1⟩

end TableState

end NeoHook
