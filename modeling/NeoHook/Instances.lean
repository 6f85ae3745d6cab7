import NeoHook.Tables
import NeoHook.Lib.Bag

/-!
# Instance hooks over whole runs

A machine whose steps are the operations of `VTableInstanceHook` on any number of objects, and the
invariant that ties the clone registry, the ownership flags, the objects' vptrs and the clone
storage to the hooks that are installed.

A removal whose vptr write fails leaves the hook's clone registered for good, although nothing is
left that could remove it.  The machine keeps such hooks in `stranded`.
-/

namespace NeoHook

open ByteMap

/-! ### The machine -/

/-- The address is the vptr field of an object of the process. -/
def ValidObject (M : Modules) (o : ℕ) : Prop := ∃ b ∈ M.objects, InRange b.1 b.2 o

/-- `len` slots at `a` are a table of the process. -/
def ValidTable (M : Modules) (a len : ℕ) : Prop :=
  ∃ b ∈ M.tables, b.1 ≤ a ∧ a + wordSize * len ≤ b.1 + b.2

structure InstanceState where
  tables : Tables
  /-- The hook objects the program holds. -/
  hooks : Multiset VTableInstanceHook
  /-- Clone storage made for an install to come. -/
  storage : Multiset (ℕ × ℕ)
  /-- Hooks that were removed although their object's vptr could not be written back. -/
  stranded : Multiset VTableInstanceHook

inductive InstanceOp where
  /-- `ClonedVtable::new`. -/
  | newClone (len : ℕ) (at_ : Option ℕ)
  /-- Clone storage that no install took over is dropped. -/
  | dropClone (table : ℕ × ℕ)
  | installInto (objectVptr index detour : ℕ) (table : Option (ℕ × ℕ)) (ok : Bool)
  | enable (h : VTableInstanceHook)
  | disable (h : VTableInstanceHook)
  | unhook (h : VTableInstanceHook) (ok dropOk : Bool)
  | detachFinalize (h : VTableInstanceHook) (ok : Bool)
  | drop (h : VTableInstanceHook) (ok : Bool)

namespace VTableInstanceHook

/-- An attempt to remove the hook is made and fails. -/
def removalFails (t : Tables) (h : VTableInstanceHook) (ok : Bool) : Bool :=
  h.active && (performUnhook t h ok).toOption.isNone

end VTableInstanceHook

namespace InstanceState

open VTableInstanceHook

/-- The hook is gone; it stays in `stranded` if its removal failed. -/
def forget (s : InstanceState) (h : VTableInstanceHook) (failed : Bool) (t : Tables) :
    InstanceState :=
  { s with
    tables := t
    hooks := s.hooks.erase h
    stranded := if failed then h ::ₘ s.stranded else s.stranded }

/-- The hook takes a new value. -/
def update (s : InstanceState) (h h' : VTableInstanceHook) (t : Tables) : InstanceState :=
  { s with tables := t, hooks := h' ::ₘ s.hooks.erase h }

def step (M : Modules) (s : InstanceState) : InstanceOp → InstanceState
  | .newClone len at_ =>
    match s.tables.newClonedVtable M len at_ with
    | .error _ => s
    | .ok (a, t) => { s with tables := t, storage := (a, len) ::ₘ s.storage }
  | .dropClone table =>
    if table ∈ s.storage then
      { s with
        tables := s.tables.dealloc table.1 table.2
        storage := s.storage.erase table }
    else s
  | .installInto objectVptr index detour table ok =>
    if ∀ b ∈ table, b ∈ s.storage then
      match installInto s.tables objectVptr index detour table ok with
      | (.error _, t, _) => { s with tables := t }
      | (.ok h, t, rest) =>
        { s with
          tables := t
          hooks := h ::ₘ s.hooks
          storage := match table, rest with
            | some b, none => s.storage.erase b
            | _, _ => s.storage }
    else s
  | .enable h =>
    if h ∈ s.hooks then
      match VTableInstanceHook.enable s.tables h with
      | .error _ => s
      | .ok (t, h') => s.update h h' t
    else s
  | .disable h =>
    if h ∈ s.hooks then
      match VTableInstanceHook.disable s.tables h with
      | .error _ => s
      | .ok (t, h') => s.update h h' t
    else s
  | .unhook h ok dropOk =>
    if h ∈ s.hooks then
      s.forget h (removalFails s.tables h ok && removalFails s.tables h dropOk)
        (VTableInstanceHook.unhook s.tables h ok dropOk).2
    else s
  | .detachFinalize h ok =>
    if h ∈ s.hooks then
      let (t, h') := VTableInstanceHook.detachFinalize s.tables h ok
      { s.update h h' t with
        stranded := if removalFails s.tables h ok then h ::ₘ s.stranded else s.stranded }
    else s
  | .drop h ok =>
    if h ∈ s.hooks then
      s.forget h (removalFails s.tables h ok) (VTableInstanceHook.drop s.tables h ok)
    else s

/-- What the callers of an operation promise: the object and its table are memory of the process. -/
def Safe (M : Modules) (s : InstanceState) : InstanceOp → Prop
  | .installInto objectVptr _ _ table _ =>
    ValidObject M objectVptr ∧ (s.tables.instanceClones objectVptr = none →
      ∀ b ∈ table, ValidTable M (s.tables.words objectVptr) b.2)
  | _ => True

/-- No hook is installed yet. -/
def initial (words : ℕ → ℕ) (flags : ℕ → Bool) : InstanceState :=
  ⟨⟨words, ∅, fun _ => none, flags, [], false⟩, 0, 0, 0⟩

/-- The states a run from the memory `words` reaches. -/
inductive Reachable (M : Modules) (words : ℕ → ℕ) : InstanceState → Prop
  | initial (flags : ℕ → Bool) : Reachable M words (initial words flags)
  | step {s : InstanceState} (op : InstanceOp) : Reachable M words s → s.Safe M op →
      Reachable M words (s.step M op)

/-- The hooks that are installed: the live ones and those whose removal failed. -/
def installed (s : InstanceState) : Multiset VTableInstanceHook :=
  s.hooks.filter (fun h => h.active = true) + s.stranded

end InstanceState

/-- One table of two slots and one object that uses it. -/
def Modules.oneObject : Modules where
  findImport _ _ _ := .error .targetNotFound
  exportSlot _ _ := .error .targetNotFound
  isForwarder _ _ := false
  tables := [(0x1000, 16)]
  objects := [(0x2000, 8)]
  objects_apart := by decide
  import_mem h := by cases h
  export_mem h := by cases h

/-- The object's vptr holds the table. -/
def Modules.oneObjectWords (a : ℕ) : ℕ := if a = 0x2000 then 0x1000 else 7

/-! ### Addresses in a clone -/

/-- Two blocks of clone storage do not overlap. -/
def BlockApart (b b' : ℕ × ℕ) : Prop := Apart b.1 (cloneBytes b.2) b'.1 (cloneBytes b'.2)

instance : Std.Symm BlockApart := ⟨fun _ _ h => Apart.symm h⟩

/-- The address lies in a block of clone storage. -/
def InClone (b : ℕ × ℕ) (a : ℕ) : Prop := InRange b.1 (cloneBytes b.2) a

theorem slotAddr_inClone {clone len i : ℕ} (h : i < len) : InClone (clone, len) (slotAddr clone i) := by
  simp only [InClone, InRange, slotAddr, cloneBytes, wordSize]
  omega

theorem ownedFlag_inClone {clone len i : ℕ} (h : i < len) :
    InClone (clone, len) (ownedFlag clone len i) := by
  simp only [InClone, InRange, ownedFlag, cloneBytes, wordSize]
  omega

theorem slotAddr_inj {clone i j : ℕ} : slotAddr clone i = slotAddr clone j ↔ i = j := by
  simp only [slotAddr, wordSize]
  omega

theorem ownedFlag_inj {clone len i j : ℕ} : ownedFlag clone len i = ownedFlag clone len j ↔ i = j := by
  simp only [ownedFlag]
  omega

theorem BlockApart.ne {b b' : ℕ × ℕ} (h : BlockApart b b') {a a' : ℕ} (ha : InClone b a)
    (ha' : InClone b' a') : a ≠ a' :=
  fun e => h.notMem ha (e ▸ ha')

/-! ### The invariant -/

/-- The registry, the flags, the vptrs and the clone storage agree with the installed hooks `L` and
the storage `S` that is not in use yet; `w₀` is the memory before any hook. -/
structure CloneInv (M : Modules) (w₀ : ℕ → ℕ) (t : Tables) (L : Multiset VTableInstanceHook)
    (S : Multiset (ℕ × ℕ)) : Prop where
  heap_apart : t.heap.Pairwise BlockApart
  heap_free : ∀ b ∈ t.heap, b.1 ≠ 0 ∧ 0 < b.2 ∧
    (∀ d ∈ M.tables, Apart b.1 (cloneBytes b.2) d.1 d.2) ∧
      ∀ d ∈ M.objects, Apart b.1 (cloneBytes b.2) d.1 d.2
  storage_mem : ∀ b ∈ S, b ∈ t.heap
  storage_nodup : S.Nodup
  clone_mem : ∀ {o s}, t.instanceClones o = some s → (s.clone, s.len) ∈ t.heap ∧ (s.clone, s.len) ∉ S
  clone_inj : ∀ {o o' s s'}, t.instanceClones o = some s → t.instanceClones o' = some s' →
    s.clone = s'.clone → o = o'
  vptr : ∀ {o s}, t.instanceClones o = some s →
    ValidObject M o ∧ o ≠ 0 ∧ t.words o = s.clone ∧ s.originalVtable = w₀ o
  free_vptr : ∀ {o}, ValidObject M o → t.instanceClones o = none → t.words o = w₀ o
  count : ∀ {o s}, t.instanceClones o = some s →
    0 < s.hooks ∧ s.hooks = L.countP fun h => h.objectVptr = o
  index : L.Pairwise fun h h' => h.objectVptr = h'.objectVptr → h.index ≠ h'.index
  hook : ∀ h ∈ L, ∃ s, t.instanceClones h.objectVptr = some s ∧ h.clonedVtable = s.clone ∧
    h.index < s.len ∧ t.flags (ownedFlag s.clone s.len h.index) = true
  flag : ∀ {o s i}, t.instanceClones o = some s → i < s.len →
    t.flags (ownedFlag s.clone s.len i) = true → ∃ h ∈ L, h.objectVptr = o ∧ h.index = i
  heap_used : ∀ b ∈ t.heap, b ∈ S ∨ ∃ o s, t.instanceClones o = some s ∧ b = (s.clone, s.len)
  freed_once : t.badFree = false

instance : Std.Symm fun h h' : VTableInstanceHook =>
    h.objectVptr = h'.objectVptr → h.index ≠ h'.index :=
  ⟨fun _ _ h e => (h e.symm).symm⟩

theorem cloneInv_initial (M : Modules) (w₀ : ℕ → ℕ) (flags : ℕ → Bool) :
    CloneInv M w₀ (InstanceState.initial w₀ flags).tables 0 0 := by
  constructor <;> simp [InstanceState.initial, Multiset.pairwise_zero]

namespace CloneInv

variable {M : Modules} {w₀ : ℕ → ℕ} {t t' : Tables} {L : Multiset VTableInstanceHook}
  {S : Multiset (ℕ × ℕ)}

/-- The block of a registered clone and another block of the heap do not overlap. -/
theorem clone_apart (inv : CloneInv M w₀ t L S) {b b' : ℕ × ℕ} (hb : b ∈ t.heap) (hb' : b' ∈ t.heap)
    (ne : b ≠ b') : BlockApart b b' :=
  inv.heap_apart.forall hb hb' ne

theorem clones_apart (inv : CloneInv M w₀ t L S) {o o' : ℕ} {s s' : SharedClone}
    (hs : t.instanceClones o = some s) (hs' : t.instanceClones o' = some s') (ne : o ≠ o') :
    BlockApart (s.clone, s.len) (s'.clone, s'.len) := by
  refine inv.clone_apart (inv.clone_mem hs).1 (inv.clone_mem hs').1 fun e => ne ?_
  exact inv.clone_inj hs hs' (Prod.mk.inj e).1

theorem object_notMem (inv : CloneInv M w₀ t L S) {b : ℕ × ℕ} (hb : b ∈ t.heap) {o : ℕ}
    (ho : ValidObject M o) : ¬ InClone b o := by
  obtain ⟨d, hd, ho⟩ := ho
  exact ((inv.heap_free b hb).2.2.2 d hd).symm.notMem ho

theorem not_self_apart (inv : CloneInv M w₀ t L S) {b : ℕ × ℕ} (hb : b ∈ t.heap) :
    ¬ BlockApart b b := by
  have := (inv.heap_free b hb).2.1
  simp only [BlockApart, Apart, cloneBytes, wordSize]
  omega

theorem heap_nodup (inv : CloneInv M w₀ t L S) : t.heap.Nodup := by
  refine List.Pairwise.imp_of_mem (fun hb _ h e => ?_) inv.heap_apart
  subst e
  exact inv.not_self_apart hb h

/-- Writes elsewhere keep the invariant. -/
theorem frame (inv : CloneInv M w₀ t L S) (clones : t'.instanceClones = t.instanceClones)
    (heap : t'.heap = t.heap) (freed : t'.badFree = t.badFree)
    (words : ∀ o, ValidObject M o → t'.words o = t.words o)
    (flags : ∀ {o s i}, t.instanceClones o = some s → i < s.len →
      t'.flags (ownedFlag s.clone s.len i) = t.flags (ownedFlag s.clone s.len i)) :
    CloneInv M w₀ t' L S where
  heap_apart := heap ▸ inv.heap_apart
  heap_free := heap ▸ inv.heap_free
  storage_mem := heap ▸ inv.storage_mem
  storage_nodup := inv.storage_nodup
  clone_mem hs := heap ▸ inv.clone_mem (clones ▸ hs)
  clone_inj hs hs' := inv.clone_inj (clones ▸ hs) (clones ▸ hs')
  vptr hs := by
    obtain ⟨ho, hz, hw, hv⟩ := inv.vptr (clones ▸ hs)
    exact ⟨ho, hz, (words _ ho).trans hw, hv⟩
  free_vptr ho hs := (words _ ho).trans (inv.free_vptr ho (clones ▸ hs))
  count hs := inv.count (clones ▸ hs)
  index := inv.index
  hook h hh := by
    obtain ⟨s, hs, hc, hi, hf⟩ := inv.hook h hh
    exact ⟨s, clones ▸ hs, hc, hi, (flags hs hi).trans hf⟩
  flag hs hi hf := by
    rw [clones] at hs
    exact inv.flag hs hi ((flags hs hi).symm.trans hf)
  heap_used b hb := by
    rw [clones]
    exact inv.heap_used b (heap ▸ hb)
  freed_once := freed.trans inv.freed_once

/-- A hook whose flags change keeps its place. -/
theorem replace {h h' : VTableInstanceHook} (inv : CloneInv M w₀ t (h ::ₘ L) S)
    (object : h'.objectVptr = h.objectVptr) (clone : h'.clonedVtable = h.clonedVtable)
    (idx : h'.index = h.index) : CloneInv M w₀ t (h' ::ₘ L) S :=
  { inv with
    count := fun hs => by
      have := inv.count hs
      simpa only [Multiset.countP_cons, object] using this
    index := Bag.pairwise_replace inv.index fun b hb => by simpa only [object, idx] using hb
    hook := fun k hk => by
      rcases Multiset.mem_cons.1 hk with rfl | hk
      · rw [object, clone, idx]
        exact inv.hook h (Multiset.mem_cons_self _ _)
      · exact inv.hook k (Multiset.mem_cons_of_mem hk)
    flag := fun hs hi hf => by
      obtain ⟨k, hk, ho, hi⟩ := inv.flag hs hi hf
      rcases Multiset.mem_cons.1 hk with rfl | hk
      · exact ⟨h', Multiset.mem_cons_self _ _, object.trans ho, idx.trans hi⟩
      · exact ⟨k, Multiset.mem_cons_of_mem hk, ho, hi⟩ }

/-! ### What each operation does to the invariant -/

theorem newClone (inv : CloneInv M w₀ t L S) {len a : ℕ} {at_ : Option ℕ}
    (h : t.newClonedVtable M len at_ = .ok (a, t')) : CloneInv M w₀ t' L ((a, len) ::ₘ S) := by
  unfold Tables.newClonedVtable at h
  split_ifs at h with hlen
  cases at_ with
  | none => cases h
  | some a' =>
    simp only at h
    split_ifs at h with free
    simp only [Except.ok.injEq, Prod.mk.injEq] at h
    obtain ⟨rfl, rfl⟩ := h
    obtain ⟨-, hz, hheap, htab, hobj⟩ := free
    have fresh : (a', len) ∉ t.heap := fun hb => by
      have := hheap _ hb
      simp only [Apart, cloneBytes, wordSize] at this
      omega
    exact { inv with
      heap_apart := List.pairwise_cons.2 ⟨hheap, inv.heap_apart⟩
      heap_free := fun b hb => by
        rcases List.mem_cons.1 hb with rfl | hb
        · exact ⟨hz, Nat.pos_of_ne_zero hlen, htab, hobj⟩
        · exact inv.heap_free b hb
      storage_mem := fun b hb => by
        rcases Multiset.mem_cons.1 hb with rfl | hb
        · exact List.mem_cons_self ..
        · exact List.mem_cons_of_mem _ (inv.storage_mem b hb)
      storage_nodup := Multiset.nodup_cons.2
        ⟨fun hb => fresh (inv.storage_mem _ hb), inv.storage_nodup⟩
      clone_mem := fun hs => by
        obtain ⟨hm, hn⟩ := inv.clone_mem hs
        refine ⟨List.mem_cons_of_mem _ hm, fun hb => ?_⟩
        rcases Multiset.mem_cons.1 hb with e | hb
        · exact fresh (e ▸ hm)
        · exact hn hb
      heap_used := fun b hb => by
        rcases List.mem_cons.1 hb with rfl | hb
        · exact Or.inl (Multiset.mem_cons_self _ _)
        · exact (inv.heap_used b hb).imp_left (Multiset.mem_cons_of_mem ·) }

theorem mem_erase_heap (inv : CloneInv M w₀ t L S) {b b' : ℕ × ℕ} :
    b ∈ t.heap.erase b' ↔ b ≠ b' ∧ b ∈ t.heap :=
  inv.heap_nodup.mem_erase_iff

theorem dropClone {b : ℕ × ℕ} (inv : CloneInv M w₀ t L (b ::ₘ S)) :
    CloneInv M w₀ (t.dealloc b.1 b.2) L S := by
  have hb : b ∈ t.heap := inv.storage_mem b (Multiset.mem_cons_self _ _)
  have nodup := Multiset.nodup_cons.1 inv.storage_nodup
  exact { inv with
    heap_apart := inv.heap_apart.sublist List.erase_sublist
    heap_free := fun b' hb' => inv.heap_free b' (inv.mem_erase_heap.1 hb').2
    storage_mem := fun b' hb' => inv.mem_erase_heap.2
      ⟨fun e : b' = b => nodup.1 (e ▸ hb'), inv.storage_mem b' (Multiset.mem_cons_of_mem hb')⟩
    storage_nodup := nodup.2
    clone_mem := fun hs => by
      obtain ⟨hm, hn⟩ := inv.clone_mem hs
      rw [Multiset.mem_cons, not_or] at hn
      exact ⟨inv.mem_erase_heap.2 ⟨hn.1, hm⟩, hn.2⟩
    heap_used := fun b' hb' => by
      obtain ⟨ne, hm⟩ := inv.mem_erase_heap.1 hb'
      refine (inv.heap_used b' hm).imp_left fun hs => ?_
      exact (Multiset.mem_cons.1 hs).resolve_left ne
    freed_once := by simp [Tables.dealloc, inv.freed_once, hb] }

/-- Writing a cell of a clone keeps the invariant. -/
theorem setWord_clone (inv : CloneInv M w₀ t L S) {b : ℕ × ℕ} (hb : b ∈ t.heap) {a : ℕ}
    (ha : InClone b a) (v : ℕ) : CloneInv M w₀ (t.setWord a v) L S := by
  refine inv.frame rfl rfl rfl (fun o ho => ?_) fun _ _ => rfl
  have ne : o ≠ a := fun e => inv.object_notMem hb ho (e ▸ ha)
  exact Function.update_of_ne ne _ _

end CloneInv

/-! ### The branches of an install -/

/-- The table of the object is copied and the slot of the copy is patched. -/
def Tables.fillClone (t : Tables) (src clone len index detour : ℕ) : Tables :=
  ((t.copyTable src clone len).setWord (slotAddr clone index) detour).setFlag
    (ownedFlag clone len index) true

/-- A further hook on an object that has a clone. -/
def Tables.joinClone (t : Tables) (o : ℕ) (s : SharedClone) (index detour : ℕ) : Tables :=
  ((t.setWord (slotAddr s.clone index) detour).setFlag (ownedFlag s.clone s.len index) true).setClone
    o (some { s with hooks := s.hooks + 1 })

/-- The first hook on an object. -/
def Tables.makeClone (t : Tables) (o clone len index detour : ℕ) : Tables :=
  ((t.fillClone (t.words o) clone len index detour).setWord o clone).setClone o
    (some ⟨clone, len, t.words o, 1⟩)

theorem Tables.setClone_self (t : Tables) (o : ℕ) (e : Option SharedClone) :
    (t.setClone o e).instanceClones o = e := Function.update_self ..

theorem Tables.setClone_of_ne (t : Tables) {o o' : ℕ} (e : Option SharedClone) (ne : o' ≠ o) :
    (t.setClone o e).instanceClones o' = t.instanceClones o' := Function.update_of_ne ne ..

/-- Everything `install_into` can do. -/
theorem VTableInstanceHook.installInto_cases {t t' : Tables} {o index detour : ℕ}
    {table rest : Option (ℕ × ℕ)} {ok : Bool} {res : Except VTableHookError VTableInstanceHook}
    (h : installInto t o index detour table ok = (res, t', rest)) :
    (∃ e, res = .error e ∧ rest = table ∧ (t' = t ∨ ∃ clone len, table = some (clone, len) ∧
        index < len ∧ t' = t.fillClone (t.words o) clone len index detour)) ∨
      (∃ s, t.instanceClones o = some s ∧ index < s.len ∧ t.words o = s.clone ∧
        t.flags (ownedFlag s.clone s.len index) = false ∧
        res = .ok ⟨o, s.clone, index, t.words (slotAddr s.clone index), detour, true, true⟩ ∧
        t' = t.joinClone o s index detour ∧ rest = table) ∨
      ∃ clone len, t.instanceClones o = none ∧ table = some (clone, len) ∧ index < len ∧ o ≠ 0 ∧
        res = .ok ⟨o, clone, index,
          (t.copyTable (t.words o) clone len).words (slotAddr clone index), detour, true, true⟩ ∧
        t' = t.makeClone o clone len index detour ∧ rest = none := by
  unfold installInto at h
  split_ifs at h with hz
  · simp only [Prod.mk.injEq] at h
    exact Or.inl ⟨_, h.1.symm, h.2.2.symm, Or.inl h.2.1.symm⟩
  rw [not_or] at hz
  cases hs : t.instanceClones o with
  | some s =>
    simp only [hs] at h
    split_ifs at h with hlen hown
    · simp only [Prod.mk.injEq] at h
      exact Or.inl ⟨_, h.1.symm, h.2.2.symm, Or.inl h.2.1.symm⟩
    · simp only [Prod.mk.injEq] at h
      exact Or.inl ⟨_, h.1.symm, h.2.2.symm, Or.inl h.2.1.symm⟩
    · rw [not_or, not_not, Bool.not_eq_true] at hown
      simp only [Prod.mk.injEq] at h
      exact Or.inr (Or.inl ⟨s, rfl, by omega, hown.1, hown.2, h.1.symm, h.2.1.symm, h.2.2.symm⟩)
  | none =>
    simp only [hs] at h
    cases table with
    | none =>
      simp only [Prod.mk.injEq] at h
      exact Or.inl ⟨_, h.1.symm, h.2.2.symm, Or.inl h.2.1.symm⟩
    | some b =>
      obtain ⟨clone, len⟩ := b
      simp only at h
      split_ifs at h with hlen hnull
      · simp only [Prod.mk.injEq] at h
        exact Or.inl ⟨_, h.1.symm, h.2.2.symm, Or.inl h.2.1.symm⟩
      · simp only [Prod.mk.injEq] at h
        exact Or.inl ⟨_, h.1.symm, h.2.2.symm, Or.inl h.2.1.symm⟩
      · unfold Tables.writeSlot at h
        rw [if_neg hz.1] at h
        cases ok with
        | false =>
          simp only [Bool.false_eq_true, if_false, Prod.mk.injEq] at h
          exact Or.inl ⟨_, h.1.symm, h.2.2.symm,
            Or.inr ⟨clone, len, rfl, by omega, h.2.1.symm⟩⟩
        | true =>
          simp only [if_true, Prod.mk.injEq] at h
          exact Or.inr (Or.inr ⟨clone, len, rfl, rfl, by omega, hz.1, h.1.symm, h.2.1.symm,
            h.2.2.symm⟩)

namespace Tables

variable {t : Tables} {src clone len index detour a : ℕ}

theorem fillClone_words (hi : index < len) (ha : ¬ InClone (clone, len) a) :
    (t.fillClone src clone len index detour).words a = t.words a := by
  have ne : a ≠ slotAddr clone index := fun e => ha (e ▸ slotAddr_inClone hi)
  refine (Function.update_of_ne ne _ _).trans (if_neg fun h => ha ?_)
  simp only [InClone, InRange, cloneBytes]
  omega

theorem fillClone_flags (hi : index < len) (ha : ¬ InClone (clone, len) a) :
    (t.fillClone src clone len index detour).flags a = t.flags a := by
  have ne : a ≠ ownedFlag clone len index := fun e => ha (e ▸ ownedFlag_inClone hi)
  refine (Function.update_of_ne ne _ _).trans (if_neg fun h => ha ?_)
  simp only [InClone, InRange, cloneBytes, ownedFlag] at h ⊢
  omega

/-- In the new clone exactly the patched slot is owned. -/
theorem fillClone_owned {i : ℕ} (hi : i < len) :
    (t.fillClone src clone len index detour).flags (ownedFlag clone len i) = decide (i = index) := by
  by_cases e : i = index
  · subst e
    exact (Function.update_self ..).trans (by simp)
  · have ne : ownedFlag clone len i ≠ ownedFlag clone len index := fun h => e (ownedFlag_inj.1 h)
    refine (Function.update_of_ne ne _ _).trans ((if_pos ?_).trans (by simp [e]))
    simp only [InRange, ownedFlag]
    omega

end Tables

namespace CloneInv

variable {M : Modules} {w₀ : ℕ → ℕ} {t : Tables} {L : Multiset VTableInstanceHook}
  {S : Multiset (ℕ × ℕ)} {o index detour : ℕ}

/-- Storage that no clone uses may hold anything. -/
theorem fillClone (inv : CloneInv M w₀ t L S) {clone len : ℕ} (hb : (clone, len) ∈ S)
    (hi : index < len) (src detour : ℕ) :
    CloneInv M w₀ (t.fillClone src clone len index detour) L S := by
  have hm := inv.storage_mem _ hb
  refine inv.frame rfl rfl rfl (fun o ho => ?_) fun {o s i} hs hlt => ?_
  · exact Tables.fillClone_words hi (inv.object_notMem hm ho)
  · refine Tables.fillClone_flags hi ?_
    have ne : (s.clone, s.len) ≠ (clone, len) := fun e => (inv.clone_mem hs).2 (e ▸ hb)
    exact (inv.clone_apart (inv.clone_mem hs).1 hm ne).notMem (ownedFlag_inClone hlt)

/-- A registered clone's flag survives a flag write to another slot. -/
theorem flag_ne (inv : CloneInv M w₀ t L S) {o' : ℕ} {s s' : SharedClone} {i : ℕ}
    (hs : t.instanceClones o = some s) (hs' : t.instanceClones o' = some s') (hi : i < s'.len)
    (hx : index < s.len) (ne : o' ≠ o ∨ i ≠ index) :
    ownedFlag s'.clone s'.len i ≠ ownedFlag s.clone s.len index := by
  by_cases e : o' = o
  · subst e
    obtain rfl : s' = s := Option.some.inj (hs'.symm.trans hs)
    exact fun h => ne.elim (· rfl) (· (ownedFlag_inj.1 h))
  · exact (inv.clones_apart hs' hs e).ne (ownedFlag_inClone hi) (ownedFlag_inClone hx)

theorem joinClone (inv : CloneInv M w₀ t L S) {s : SharedClone} {v : ℕ}
    (hs : t.instanceClones o = some s) (hi : index < s.len)
    (hf : t.flags (ownedFlag s.clone s.len index) = false) :
    CloneInv M w₀ (t.joinClone o s index detour)
      (⟨o, s.clone, index, v, detour, true, true⟩ ::ₘ L) S := by
  have words : ∀ o', ValidObject M o' → (t.joinClone o s index detour).words o' = t.words o' := by
    intro o' ho'
    refine Function.update_of_ne (fun e => inv.object_notMem (inv.clone_mem hs).1 ho' ?_) _ _
    exact e ▸ slotAddr_inClone hi
  -- Apart from the count, the entries are the ones of before.
  have entry : ∀ {o' s'}, (t.joinClone o s index detour).instanceClones o' = some s' →
      ∃ s'', t.instanceClones o' = some s'' ∧ s'.clone = s''.clone ∧ s'.len = s''.len ∧
        s'.originalVtable = s''.originalVtable ∧ s'.hooks = s''.hooks + if o = o' then 1 else 0 := by
    intro o' s' h
    by_cases e : o' = o
    · subst e
      rw [Tables.joinClone, Tables.setClone_self, Option.some.injEq] at h
      subst h
      exact ⟨s, hs, rfl, rfl, rfl, by simp⟩
    · exact ⟨s', (Tables.setClone_of_ne _ _ e).symm.trans h, rfl, rfl, rfl, by simp [Ne.symm e]⟩
  have noHook : ∀ h ∈ L, h.objectVptr = o → h.index ≠ index := by
    intro h hh ho e
    obtain ⟨s', hs', -, -, hflag⟩ := inv.hook h hh
    rw [ho] at hs'
    obtain rfl : s' = s := Option.some.inj (hs'.symm.trans hs)
    rw [e, hf] at hflag
    cases hflag
  exact { inv with
    clone_mem := fun h => by
      obtain ⟨s', hs', hc, hl, -⟩ := entry h
      rw [hc, hl]
      exact inv.clone_mem hs'
    clone_inj := fun h h' e => by
      obtain ⟨s₁, hs₁, hc₁, -⟩ := entry h
      obtain ⟨s₂, hs₂, hc₂, -⟩ := entry h'
      exact inv.clone_inj hs₁ hs₂ (hc₁.symm.trans (e.trans hc₂))
    vptr := fun h => by
      obtain ⟨s', hs', hc, -, hv, -⟩ := entry h
      obtain ⟨ho, hz, hw, hv'⟩ := inv.vptr hs'
      exact ⟨ho, hz, (words _ ho).trans (hw.trans hc.symm), hv.trans hv'⟩
    free_vptr := fun {o'} ho h => by
      have ne : o' ≠ o := by
        rintro rfl
        simp [Tables.joinClone, Tables.setClone] at h
      exact (words _ ho).trans (inv.free_vptr ho ((Function.update_of_ne ne ..).symm.trans h))
    count := fun h => by
      obtain ⟨s', hs', -, -, -, hn⟩ := entry h
      have := inv.count hs'
      rw [Multiset.countP_cons, hn]
      exact ⟨by omega, by rw [this.2]⟩
    index := Bag.pairwise_cons.2 ⟨fun h hh e => (noHook h hh e.symm).symm, inv.index⟩
    hook := fun h hh => by
      rcases Multiset.mem_cons.1 hh with rfl | hh
      · exact ⟨_, Function.update_self .., rfl, hi, Function.update_self ..⟩
      · obtain ⟨s', hs', hc, hlt, hflag⟩ := inv.hook h hh
        have flag : (t.joinClone o s index detour).flags (ownedFlag s'.clone s'.len h.index) = true := by
          refine (Function.update_of_ne (inv.flag_ne hs hs' hlt hi ?_) _ _).trans hflag
          by_cases e : h.objectVptr = o
          · exact Or.inr (noHook h hh e)
          · exact Or.inl e
        by_cases e : h.objectVptr = o
        · rw [e] at hs'
          obtain rfl : s' = s := Option.some.inj (hs'.symm.trans hs)
          refine ⟨{ s' with hooks := s'.hooks + 1 }, ?_, hc, hlt, flag⟩
          rw [e]
          exact Tables.setClone_self ..
        · exact ⟨s', (Tables.setClone_of_ne _ _ e).trans hs', hc, hlt, flag⟩
    flag := fun {o' s' i} h hlt hflag => by
      obtain ⟨s₁, hs₁, hc, hl, -⟩ := entry h
      rw [hl] at hlt
      by_cases e : o' = o ∧ i = index
      · exact ⟨_, Multiset.mem_cons_self _ _, e.1.symm, e.2.symm⟩
      · have ne := inv.flag_ne hs hs₁ hlt hi (not_and_or.1 e)
        rw [hc, hl] at hflag
        obtain ⟨k, hk, hko, hki⟩ :=
          inv.flag hs₁ hlt ((Function.update_of_ne ne _ _).symm.trans hflag)
        exact ⟨k, Multiset.mem_cons_of_mem hk, hko, hki⟩
    heap_used := fun b hb => by
      refine (inv.heap_used b hb).imp_right ?_
      rintro ⟨o', s', hs', rfl⟩
      by_cases e : o' = o
      · subst e
        obtain rfl : s' = s := Option.some.inj (hs'.symm.trans hs)
        exact ⟨o', _, Function.update_self .., rfl⟩
      · exact ⟨o', s', (Function.update_of_ne e ..).trans hs', rfl⟩ }

theorem makeClone {clone len v : ℕ} (inv : CloneInv M w₀ t L ((clone, len) ::ₘ S))
    (ho : ValidObject M o) (hz : o ≠ 0) (hs : t.instanceClones o = none) (hi : index < len) :
    CloneInv M w₀ (t.makeClone o clone len index detour)
      (⟨o, clone, index, v, detour, true, true⟩ ::ₘ L) S := by
  have hb := Multiset.mem_cons_self (clone, len) S
  have hm := inv.storage_mem _ hb
  have nodup := Multiset.nodup_cons.1 inv.storage_nodup
  have inv' := inv.fillClone hb hi (t.words o) detour
  have words : ∀ o', o' ≠ o → ValidObject M o' →
      (t.makeClone o clone len index detour).words o' = t.words o' := by
    intro o' ne ho'
    exact (Function.update_of_ne ne _ _).trans
      (Tables.fillClone_words hi (inv.object_notMem hm ho'))
  -- An entry is the new one, or one of before whose block is apart from the new block.
  have entry : ∀ {o' s'}, (t.makeClone o clone len index detour).instanceClones o' = some s' →
      (o' = o ∧ s' = ⟨clone, len, t.words o, 1⟩) ∨ (o' ≠ o ∧ t.instanceClones o' = some s') := by
    intro o' s' h
    by_cases e : o' = o
    · subst e
      rw [Tables.makeClone, Tables.setClone_self, Option.some.injEq] at h
      exact Or.inl ⟨rfl, h.symm⟩
    · exact Or.inr ⟨e, (Tables.setClone_of_ne _ _ e).symm.trans h⟩
  have self : (t.makeClone o clone len index detour).instanceClones o =
      some ⟨clone, len, t.words o, 1⟩ := Tables.setClone_self ..
  have clone_ne : ∀ {o' s'}, t.instanceClones o' = some s' → s'.clone ≠ clone := by
    intro o' s' h e
    have := (inv.clone_mem h).2
    by_cases el : s'.len = len
    · exact this (by rw [e, el]; exact hb)
    · have apart := inv.clone_apart (inv.clone_mem h).1 hm fun e' => el (Prod.mk.inj e').2
      have := (inv.heap_free _ (inv.clone_mem h).1).2.1
      simp only [BlockApart, Apart, cloneBytes, wordSize, e] at apart this
      omega
  have noHook : ∀ h ∈ L, h.objectVptr ≠ o := by
    rintro h hh rfl
    obtain ⟨s', hs', -⟩ := inv.hook h hh
    rw [hs] at hs'
    cases hs'
  exact { inv with
    storage_mem := fun b hb => inv.storage_mem b (Multiset.mem_cons_of_mem hb)
    storage_nodup := nodup.2
    clone_mem := fun h => by
      rcases entry h with ⟨-, rfl⟩ | ⟨-, h⟩
      · exact ⟨hm, nodup.1⟩
      · obtain ⟨h₁, h₂⟩ := inv.clone_mem h
        exact ⟨h₁, fun h => h₂ (Multiset.mem_cons_of_mem h)⟩
    clone_inj := fun h h' e => by
      rcases entry h with ⟨eo, rfl⟩ | ⟨-, g⟩ <;> rcases entry h' with ⟨eo', rfl⟩ | ⟨-, g'⟩
      · exact eo.trans eo'.symm
      · exact absurd e.symm (clone_ne g')
      · exact absurd e (clone_ne g)
      · exact inv.clone_inj g g' e
    vptr := fun h => by
      rcases entry h with ⟨rfl, rfl⟩ | ⟨ne, h⟩
      · exact ⟨ho, hz, Function.update_self .., inv.free_vptr ho hs⟩
      · obtain ⟨ho', hz', hw, hv⟩ := inv.vptr h
        exact ⟨ho', hz', (words _ ne ho').trans hw, hv⟩
    free_vptr := fun {o'} ho' h => by
      have ne : o' ≠ o := by
        rintro rfl
        rw [self] at h
        cases h
      exact (words _ ne ho').trans
        (inv.free_vptr ho' ((Tables.setClone_of_ne _ _ ne).symm.trans h))
    count := fun h => by
      rw [Multiset.countP_cons]
      rcases entry h with ⟨eo, rfl⟩ | ⟨ne, h⟩
      · have empty : L.countP (fun h => h.objectVptr = o) = 0 :=
          Multiset.countP_eq_zero.2 noHook
        simp [eo, empty]
      · simpa [Ne.symm ne] using inv.count h
    index := Bag.pairwise_cons.2 ⟨fun h hh e => absurd e.symm (noHook h hh), inv.index⟩
    hook := fun h hh => by
      rcases Multiset.mem_cons.1 hh with rfl | hh
      · exact ⟨_, self, rfl, hi, (Tables.fillClone_owned hi).trans (decide_eq_true rfl)⟩
      · obtain ⟨s', hs', hc, hlt, hflag⟩ := inv'.hook h hh
        exact ⟨s', (Tables.setClone_of_ne _ _ (noHook h hh)).trans hs', hc, hlt, hflag⟩
    flag := fun {o' s' i} h hlt hflag => by
      rcases entry h with ⟨rfl, rfl⟩ | ⟨-, h⟩
      · have owned : decide (i = index) = true := (Tables.fillClone_owned hlt).symm.trans hflag
        exact ⟨_, Multiset.mem_cons_self _ _, rfl, (of_decide_eq_true owned).symm⟩
      · obtain ⟨k, hk, hko, hki⟩ := inv'.flag h hlt hflag
        exact ⟨k, Multiset.mem_cons_of_mem hk, hko, hki⟩
    heap_used := fun b hb => by
      rcases inv.heap_used b hb with hb | ⟨o', s', hs', rfl⟩
      · rcases Multiset.mem_cons.1 hb with rfl | hb
        · exact Or.inr ⟨o, _, self, rfl⟩
        · exact Or.inl hb
      · have ne : o' ≠ o := by
          rintro rfl
          rw [hs] at hs'
          cases hs'
        exact Or.inr ⟨o', s', (Tables.setClone_of_ne _ _ ne).trans hs', rfl⟩ }

end CloneInv

/-! ### The branches of a removal -/

/-- A hook leaves a clone that other hooks still use. -/
def Tables.leaveClone (t : Tables) (h : VTableInstanceHook) (s : SharedClone) : Tables :=
  ((t.setWord (slotAddr h.clonedVtable h.index) h.originalPtr).setFlag
    (ownedFlag s.clone s.len h.index) false).setClone h.objectVptr
      (some { s with hooks := s.hooks - 1 })

/-- The last hook leaves: the object gets its table back and the clone is released. -/
def Tables.endClone (t : Tables) (o : ℕ) (s : SharedClone) : Tables :=
  ((t.setWord o s.originalVtable).setClone o none).dealloc s.clone s.len

namespace CloneInv

variable {M : Modules} {w₀ : ℕ → ℕ} {t : Tables} {L : Multiset VTableInstanceHook}
  {S : Multiset (ℕ × ℕ)} {h : VTableInstanceHook}

/-- Removing an installed hook fails only for the last one, when the vptr cannot be written. -/
theorem performUnhook_eq (inv : CloneInv M w₀ t (h ::ₘ L) S) (ok : Bool) :
    ∃ s, t.instanceClones h.objectVptr = some s ∧
      h.performUnhook t ok =
        if s.hooks = 1 then
          if ok then .ok (t.endClone h.objectVptr s, { h with clonedVtable := 0 })
          else .error (.vtable .protectFailed)
        else .ok (t.leaveClone h s, { h with clonedVtable := 0 }) := by
  obtain ⟨s, hs, hc, -, -⟩ := inv.hook h (Multiset.mem_cons_self _ _)
  obtain ⟨-, hz, hw, -⟩ := inv.vptr hs
  have hc0 : h.clonedVtable ≠ 0 := hc ▸ (inv.heap_free _ (inv.clone_mem hs).1).1
  refine ⟨s, hs, ?_⟩
  unfold VTableInstanceHook.performUnhook
  rw [if_neg (not_or.2 ⟨hz, hc0⟩)]
  simp only [hs]
  split_ifs with h1 hok
  · simp only [if_true, Tables.writeSlot, if_neg hz, hok]
    rfl
  · simp only [Tables.writeSlot, if_neg hz, hok, Bool.false_eq_true, if_false]
  · rfl

/-- No other installed hook sits on the slot of `h`. -/
theorem index_ne (inv : CloneInv M w₀ t (h ::ₘ L) S) :
    ∀ k ∈ L, k.objectVptr = h.objectVptr → k.index ≠ h.index :=
  fun k hk e => ((Bag.pairwise_cons.1 inv.index).1 k hk e.symm).symm

theorem leaveClone {s : SharedClone} (inv : CloneInv M w₀ t (h ::ₘ L) S)
    (hs : t.instanceClones h.objectVptr = some s) (shared : s.hooks ≠ 1) :
    CloneInv M w₀ (t.leaveClone h s) L S := by
  obtain ⟨s₁, hs₁, hc, hi, -⟩ := inv.hook h (Multiset.mem_cons_self _ _)
  obtain rfl : s₁ = s := Option.some.inj (hs₁.symm.trans hs)
  have words : ∀ o, ValidObject M o → (t.leaveClone h s₁).words o = t.words o := by
    intro o ho
    refine Function.update_of_ne (fun e => inv.object_notMem (inv.clone_mem hs).1 ho ?_) _ _
    rw [e, hc]
    exact slotAddr_inClone hi
  have entry : ∀ {o s'}, (t.leaveClone h s₁).instanceClones o = some s' →
      ∃ s'', t.instanceClones o = some s'' ∧ s'.clone = s''.clone ∧ s'.len = s''.len ∧
        s'.originalVtable = s''.originalVtable ∧
        s'.hooks = s''.hooks - if h.objectVptr = o then 1 else 0 := by
    intro o s' g
    by_cases e : o = h.objectVptr
    · subst e
      rw [Tables.leaveClone, Tables.setClone_self, Option.some.injEq] at g
      subst g
      exact ⟨s₁, hs, rfl, rfl, rfl, by simp⟩
    · exact ⟨s', (Tables.setClone_of_ne _ _ e).symm.trans g, rfl, rfl, rfl, by simp [Ne.symm e]⟩
  exact { inv with
    clone_mem := fun g => by
      obtain ⟨s', hs', hc, hl, -⟩ := entry g
      rw [hc, hl]
      exact inv.clone_mem hs'
    clone_inj := fun g g' e => by
      obtain ⟨s₁, hs₁, hc₁, -⟩ := entry g
      obtain ⟨s₂, hs₂, hc₂, -⟩ := entry g'
      exact inv.clone_inj hs₁ hs₂ (hc₁.symm.trans (e.trans hc₂))
    vptr := fun g => by
      obtain ⟨s', hs', hc, -, hv, -⟩ := entry g
      obtain ⟨ho, hz, hw, hv'⟩ := inv.vptr hs'
      exact ⟨ho, hz, (words _ ho).trans (hw.trans hc.symm), hv.trans hv'⟩
    free_vptr := fun {o} ho g => by
      have ne : o ≠ h.objectVptr := by
        rintro rfl
        simp [Tables.leaveClone, Tables.setClone] at g
      exact (words _ ho).trans (inv.free_vptr ho ((Tables.setClone_of_ne _ _ ne).symm.trans g))
    count := fun {o s'} g => by
      obtain ⟨s'', hs'', -, -, -, hn⟩ := entry g
      have cnt := inv.count hs''
      rw [Multiset.countP_cons] at cnt
      rw [hn]
      by_cases e : h.objectVptr = o
      · subst e
        obtain rfl : s'' = s₁ := Option.some.inj (hs''.symm.trans hs)
        simp only [if_true] at cnt ⊢
        omega
      · simpa only [if_neg e, Nat.add_zero, Nat.sub_zero] using cnt
    index := (Bag.pairwise_cons.1 inv.index).2
    hook := fun k hk => by
      obtain ⟨s', hs', hc', hlt, hflag⟩ := inv.hook k (Multiset.mem_cons_of_mem hk)
      have flag : (t.leaveClone h s₁).flags (ownedFlag s'.clone s'.len k.index) = true := by
        refine (Function.update_of_ne (inv.flag_ne hs hs' hlt hi ?_) _ _).trans hflag
        by_cases e : k.objectVptr = h.objectVptr
        · exact Or.inr (inv.index_ne k hk e)
        · exact Or.inl e
      by_cases e : k.objectVptr = h.objectVptr
      · rw [e] at hs'
        obtain rfl : s' = s₁ := Option.some.inj (hs'.symm.trans hs)
        refine ⟨{ s' with hooks := s'.hooks - 1 }, ?_, hc', hlt, flag⟩
        rw [e]
        exact Tables.setClone_self ..
      · exact ⟨s', (Tables.setClone_of_ne _ _ e).trans hs', hc', hlt, flag⟩
    flag := fun {o s' i} g hlt hflag => by
      obtain ⟨s'', hs'', hc', hl, -⟩ := entry g
      rw [hl] at hlt
      rw [hc', hl] at hflag
      by_cases e : o = h.objectVptr ∧ i = h.index
      · obtain ⟨rfl, rfl⟩ := e
        obtain rfl : s'' = s₁ := Option.some.inj (hs''.symm.trans hs)
        have : (t.leaveClone h s'').flags (ownedFlag s''.clone s''.len h.index) = false :=
          Function.update_self ..
        rw [this] at hflag
        cases hflag
      · have ne := inv.flag_ne hs hs'' hlt hi (not_and_or.1 e)
        obtain ⟨k, hk, hko, hki⟩ :=
          inv.flag hs'' hlt ((Function.update_of_ne ne _ _).symm.trans hflag)
        rcases Multiset.mem_cons.1 hk with rfl | hk
        · exact absurd ⟨hko.symm, hki.symm⟩ e
        · exact ⟨k, hk, hko, hki⟩
    heap_used := fun b hb => by
      refine (inv.heap_used b hb).imp_right ?_
      rintro ⟨o, s', hs', rfl⟩
      by_cases e : o = h.objectVptr
      · subst e
        obtain rfl : s' = s₁ := Option.some.inj (hs'.symm.trans hs)
        exact ⟨h.objectVptr, _, Tables.setClone_self .., rfl⟩
      · exact ⟨o, s', (Tables.setClone_of_ne _ _ e).trans hs', rfl⟩ }

theorem endClone {s : SharedClone} (inv : CloneInv M w₀ t (h ::ₘ L) S)
    (hs : t.instanceClones h.objectVptr = some s) (last : s.hooks = 1) :
    CloneInv M w₀ (t.endClone h.objectVptr s) L S := by
  have hm := inv.clone_mem hs
  have entry : ∀ {o s'}, (t.endClone h.objectVptr s).instanceClones o = some s' →
      o ≠ h.objectVptr ∧ t.instanceClones o = some s' := by
    intro o s' g
    by_cases e : o = h.objectVptr
    · subst e
      have : (t.endClone h.objectVptr s).instanceClones h.objectVptr = none :=
        Tables.setClone_self ..
      rw [this] at g
      cases g
    · exact ⟨e, (Function.update_of_ne e ..).symm.trans g⟩
  have words : ∀ o, o ≠ h.objectVptr → (t.endClone h.objectVptr s).words o = t.words o :=
    fun o ne => Function.update_of_ne ne ..
  have alone : ∀ k ∈ L, k.objectVptr ≠ h.objectVptr := by
    have cnt := (inv.count hs).2
    rw [Multiset.countP_cons, if_pos rfl, last] at cnt
    exact Multiset.countP_eq_zero.1 (by omega)
  have clone_ne : ∀ {o s'}, o ≠ h.objectVptr → t.instanceClones o = some s' →
      (s'.clone, s'.len) ≠ (s.clone, s.len) :=
    fun ne hs' e => ne (inv.clone_inj hs' hs (Prod.mk.inj e).1)
  exact { inv with
    heap_apart := inv.heap_apart.sublist List.erase_sublist
    heap_free := fun b hb => inv.heap_free b (inv.mem_erase_heap.1 hb).2
    storage_mem := fun b hb => inv.mem_erase_heap.2
      ⟨fun e => hm.2 (e ▸ hb), inv.storage_mem b hb⟩
    clone_mem := fun g => by
      obtain ⟨ne, g⟩ := entry g
      exact ⟨inv.mem_erase_heap.2 ⟨clone_ne ne g, (inv.clone_mem g).1⟩, (inv.clone_mem g).2⟩
    clone_inj := fun g g' => inv.clone_inj (entry g).2 (entry g').2
    vptr := fun g => by
      obtain ⟨ne, g⟩ := entry g
      obtain ⟨ho, hz, hw, hv⟩ := inv.vptr g
      exact ⟨ho, hz, (words _ ne).trans hw, hv⟩
    free_vptr := fun {o} ho g => by
      by_cases e : o = h.objectVptr
      · subst e
        exact (Function.update_self ..).trans (inv.vptr hs).2.2.2
      · exact (words _ e).trans (inv.free_vptr ho ((Function.update_of_ne e ..).symm.trans g))
    count := fun g => by
      obtain ⟨ne, g⟩ := entry g
      have cnt := inv.count g
      rwa [Multiset.countP_cons, if_neg (Ne.symm ne), Nat.add_zero] at cnt
    index := (Bag.pairwise_cons.1 inv.index).2
    hook := fun k hk => by
      obtain ⟨s', hs', hc, hlt, hflag⟩ := inv.hook k (Multiset.mem_cons_of_mem hk)
      exact ⟨s', (Function.update_of_ne (alone k hk) ..).trans hs', hc, hlt, hflag⟩
    flag := fun g hlt hflag => by
      obtain ⟨ne, g⟩ := entry g
      obtain ⟨k, hk, hko, hki⟩ := inv.flag g hlt hflag
      rcases Multiset.mem_cons.1 hk with rfl | hk
      · exact absurd hko.symm ne
      · exact ⟨k, hk, hko, hki⟩
    heap_used := fun b hb => by
      obtain ⟨ne, hb⟩ := inv.mem_erase_heap.1 hb
      refine (inv.heap_used b hb).imp_right ?_
      rintro ⟨o, s', hs', rfl⟩
      have eo : o ≠ h.objectVptr := by
        rintro rfl
        obtain rfl : s' = s := Option.some.inj (hs'.symm.trans hs)
        exact ne rfl
      exact ⟨o, s', (Function.update_of_ne eo ..).trans hs', rfl⟩
    freed_once := by
      simp [Tables.endClone, Tables.dealloc, Tables.setClone, Tables.setWord, inv.freed_once, hm.1] }

/-- A removal that succeeds takes the hook out of the installed ones. -/
theorem performUnhook (inv : CloneInv M w₀ t (h ::ₘ L) S) {ok : Bool} {t' : Tables}
    {h' : VTableInstanceHook} (out : h.performUnhook t ok = .ok (t', h')) :
    CloneInv M w₀ t' L S := by
  obtain ⟨s, hs, eq⟩ := inv.performUnhook_eq ok
  rw [eq] at out
  split_ifs at out with last hok <;> simp only [Except.ok.injEq, Prod.mk.injEq] at out
  · exact out.1 ▸ inv.endClone hs last
  · exact out.1 ▸ inv.leaveClone hs last

end CloneInv

/-! ### Steps as moves -/

/-- Everything a step can do to the tables, the installed hooks and the unused clone storage. -/
inductive InstanceMove (M : Modules) : Tables → Multiset VTableInstanceHook → Multiset (ℕ × ℕ) →
    Tables → Multiset VTableInstanceHook → Multiset (ℕ × ℕ) → Prop
  | stay {t L S} : InstanceMove M t L S t L S
  | newClone {t L S t' a len at_} (h : t.newClonedVtable M len at_ = .ok (a, t')) :
      InstanceMove M t L S t' L ((a, len) ::ₘ S)
  | dropClone {t L S b} : InstanceMove M t L (b ::ₘ S) (t.dealloc b.1 b.2) L S
  | fillClone {t L S clone len index detour} (src : ℕ) (hb : (clone, len) ∈ S) (hi : index < len) :
      InstanceMove M t L S (t.fillClone src clone len index detour) L S
  | joinClone {t L S o s index detour} (hs : t.instanceClones o = some s) (hi : index < s.len)
      (hf : t.flags (ownedFlag s.clone s.len index) = false) :
      InstanceMove M t L S (t.joinClone o s index detour)
        (⟨o, s.clone, index, t.words (slotAddr s.clone index), detour, true, true⟩ ::ₘ L) S
  | makeClone {t L S o clone len index detour} (ho : ValidObject M o) (hz : o ≠ 0)
      (hs : t.instanceClones o = none) (hi : index < len) (hv : ValidTable M (t.words o) len) :
      InstanceMove M t L ((clone, len) ::ₘ S) (t.makeClone o clone len index detour)
        (⟨o, clone, index, (t.copyTable (t.words o) clone len).words (slotAddr clone index), detour,
          true, true⟩ ::ₘ L) S
  | toggle {t L S h} (on : Bool) :
      InstanceMove M t (h ::ₘ L) S
        (t.setWord (slotAddr h.clonedVtable h.index) (if on then h.detour else h.originalPtr))
        ({ h with enabled := on } ::ₘ L) S
  | remove {t L S h h' ok t'} (out : h.performUnhook t ok = .ok (t', h')) :
      InstanceMove M t (h ::ₘ L) S t' L S

theorem CloneInv.move {M : Modules} {w₀ : ℕ → ℕ} {t t' : Tables}
    {L L' : Multiset VTableInstanceHook} {S S' : Multiset (ℕ × ℕ)} (inv : CloneInv M w₀ t L S)
    (m : InstanceMove M t L S t' L' S') : CloneInv M w₀ t' L' S' := by
  cases m with
  | stay => exact inv
  | newClone h => exact inv.newClone h
  | dropClone => exact inv.dropClone
  | fillClone src hb hi => exact inv.fillClone hb hi src _
  | joinClone hs hi hf => exact inv.joinClone hs hi hf
  | makeClone ho hz hs hi hv => exact inv.makeClone ho hz hs hi
  | @toggle _ _ h on =>
    obtain ⟨s, hs, hc, hi, -⟩ := inv.hook h (Multiset.mem_cons_self _ _)
    have mem : InClone (s.clone, s.len) (slotAddr h.clonedVtable h.index) := by
      rw [hc]
      exact slotAddr_inClone hi
    exact (inv.setWord_clone (inv.clone_mem hs).1 mem _).replace rfl rfl rfl
  | remove out => exact inv.performUnhook out

theorem ValidTable.mem {M : Modules} {a len i : ℕ} (h : ValidTable M a len) (hi : i < len) :
    ∃ b ∈ M.tables, InRange b.1 b.2 (slotAddr a i) := by
  obtain ⟨b, hb, h₁, h₂⟩ := h
  refine ⟨b, hb, ?_⟩
  simp only [InRange, slotAddr, wordSize] at h₂ ⊢
  omega

theorem CloneInv.table_notMem {M : Modules} {w₀ : ℕ → ℕ} {t : Tables}
    {L : Multiset VTableInstanceHook} {S : Multiset (ℕ × ℕ)} (inv : CloneInv M w₀ t L S)
    {b : ℕ × ℕ} (hb : b ∈ t.heap) {a : ℕ} (ha : ∃ d ∈ M.tables, InRange d.1 d.2 a) :
    ¬ InClone b a := by
  obtain ⟨d, hd, ha⟩ := ha
  exact ((inv.heap_free b hb).2.2.1 d hd).symm.notMem ha

theorem ValidObject.ne_table {M : Modules} {o a : ℕ} (ho : ValidObject M o)
    (ha : ∃ d ∈ M.tables, InRange d.1 d.2 a) : a ≠ o := by
  obtain ⟨d, hd, ha⟩ := ha
  obtain ⟨b, hb, ho⟩ := ho
  rintro rfl
  exact (M.objects_apart d hd b hb).notMem ha ho

/-- Instance hooks write no table of the process and claim no slot of one. -/
theorem CloneInv.move_table {M : Modules} {w₀ : ℕ → ℕ} {t t' : Tables}
    {L L' : Multiset VTableInstanceHook} {S S' : Multiset (ℕ × ℕ)} (inv : CloneInv M w₀ t L S)
    (m : InstanceMove M t L S t' L' S') :
    t'.tableSlots = t.tableSlots ∧
      ∀ a, (∃ d ∈ M.tables, InRange d.1 d.2 a) → t'.words a = t.words a := by
  have slot : ∀ {o s i a}, t.instanceClones o = some s → i < s.len →
      (∃ d ∈ M.tables, InRange d.1 d.2 a) → a ≠ slotAddr s.clone i :=
    fun hs hi ha e => inv.table_notMem (inv.clone_mem hs).1 ha (e ▸ slotAddr_inClone hi)
  cases m with
  | stay => exact ⟨rfl, fun _ _ => rfl⟩
  | newClone out =>
    unfold Tables.newClonedVtable at out
    split_ifs at out
    split at out
    · cases out
    · split_ifs at out
      obtain ⟨-, rfl⟩ := Prod.mk.inj (Except.ok.inj out)
      exact ⟨rfl, fun _ _ => rfl⟩
  | dropClone => exact ⟨rfl, fun _ _ => rfl⟩
  | fillClone src hb hi =>
    exact ⟨rfl, fun a ha =>
      Tables.fillClone_words hi (inv.table_notMem (inv.storage_mem _ hb) ha)⟩
  | joinClone hs hi hf => exact ⟨rfl, fun a ha => Function.update_of_ne (slot hs hi ha) _ _⟩
  | makeClone ho hz hs hi hv =>
    refine ⟨rfl, fun a ha => (Function.update_of_ne (ho.ne_table ha) _ _).trans ?_⟩
    exact Tables.fillClone_words hi
      (inv.table_notMem (inv.storage_mem _ (Multiset.mem_cons_self _ _)) ha)
  | @toggle _ _ h on =>
    obtain ⟨s, hs, hc, hi, -⟩ := inv.hook h (Multiset.mem_cons_self _ _)
    exact ⟨rfl, fun a ha => Function.update_of_ne (hc ▸ slot hs hi ha) _ _⟩
  | @remove _ _ h h' ok _ out =>
    obtain ⟨s, hs, hc, hi, -⟩ := inv.hook h (Multiset.mem_cons_self _ _)
    obtain ⟨s', hs', eq⟩ := inv.performUnhook_eq ok
    obtain rfl : s' = s := Option.some.inj (hs'.symm.trans hs)
    rw [eq] at out
    split_ifs at out with last hok <;> obtain ⟨rfl, -⟩ := Prod.mk.inj (Except.ok.inj out)
    · exact ⟨rfl, fun a ha => Function.update_of_ne ((inv.vptr hs).1.ne_table ha) _ _⟩
    · exact ⟨rfl, fun a ha => Function.update_of_ne (hc ▸ slot hs hi ha) _ _⟩

namespace InstanceState

open VTableInstanceHook

/-- A detached hook is not enabled. -/
def Inert (s : InstanceState) : Prop := ∀ h ∈ s.hooks, h.active = false → h.enabled = false

/-- The installed hooks other than one the program holds. -/
def others (s : InstanceState) (h : VTableInstanceHook) : Multiset VTableInstanceHook :=
  (s.hooks.erase h).filter (fun h => h.active = true) + s.stranded

variable {M : Modules} {w₀ : ℕ → ℕ} {s : InstanceState} {h h' : VTableInstanceHook} {t : Tables}

theorem installed_of_active (mem : h ∈ s.hooks) (ha : h.active = true) :
    s.installed = h ::ₘ s.others h := by
  unfold installed others
  rw [← Multiset.cons_add]
  conv_lhs => rw [← Multiset.cons_erase mem]
  simp [ha]

theorem installed_of_inactive (mem : h ∈ s.hooks) (ha : h.active = false) :
    s.installed = s.others h := by
  unfold installed others
  conv_lhs => rw [← Multiset.cons_erase mem]
  simp [ha]

theorem installed_update (ha : h'.active = true) :
    (s.update h h' t).installed = h' ::ₘ s.others h := by
  simp [installed, update, others, ha]

theorem installed_forget : (s.forget h false t).installed = s.others h := rfl

theorem installed_forget_failed : (s.forget h true t).installed = h ::ₘ s.others h := by
  simp only [installed, forget, others, if_true]
  rw [Multiset.add_cons]

/-- Removing a held hook by any of its operations: a move, or a failure that strands it. -/
theorem removal_move (mem : h ∈ s.hooks) {failed : Bool}
    (failure : failed = true → h.active = true ∧ t = s.tables)
    (success : failed = false → h.active = true →
      ∃ ok h', h.performUnhook s.tables ok = .ok (t, h'))
    (inert : h.active = false → t = s.tables) :
    InstanceMove M s.tables s.installed s.storage t (s.forget h failed t).installed s.storage := by
  cases ha : h.active with
  | false =>
    have nf : failed = false := by
      cases failed with
      | false => rfl
      | true => exact absurd (failure rfl).1 (by simp [ha])
    subst nf
    rw [inert ha, installed_of_inactive mem ha, installed_forget]
    exact .stay
  | true =>
    rw [installed_of_active mem ha]
    cases failed with
    | true =>
      rw [(failure rfl).2, installed_forget_failed]
      exact .stay
    | false =>
      obtain ⟨ok, h', out⟩ := success rfl ha
      exact .remove out

theorem removalFails_iff {ok : Bool} : removalFails t h ok = true ↔
    h.active = true ∧ ∃ e, h.performUnhook t ok = .error e := by
  unfold removalFails
  cases h.performUnhook t ok <;> simp [Except.toOption]

theorem removalFails_eq_false {ok : Bool} (ha : h.active = true) :
    removalFails t h ok = false ↔ ∃ r, h.performUnhook t ok = .ok r := by
  unfold removalFails
  cases h.performUnhook t ok <;> simp [Except.toOption, ha]

theorem drop_move (mem : h ∈ s.hooks) (ok : Bool) :
    InstanceMove M s.tables s.installed s.storage (h.drop s.tables ok)
      (s.forget h (removalFails s.tables h ok) (h.drop s.tables ok)).installed s.storage := by
  refine removal_move mem (fun failed => ?_) (fun failed ha => ?_) fun ha => ?_
  · obtain ⟨ha, e, out⟩ := removalFails_iff.1 failed
    exact ⟨ha, by simp [VTableInstanceHook.drop, ha, out]⟩
  · obtain ⟨⟨t', h'⟩, out⟩ := (removalFails_eq_false ha).1 failed
    exact ⟨ok, h', by simp [VTableInstanceHook.drop, ha, out]⟩
  · simp [VTableInstanceHook.drop, ha]

theorem unhook_move (mem : h ∈ s.hooks) (ok dropOk : Bool) :
    InstanceMove M s.tables s.installed s.storage (h.unhook s.tables ok dropOk).2
      (s.forget h (removalFails s.tables h ok && removalFails s.tables h dropOk)
        (h.unhook s.tables ok dropOk).2).installed s.storage := by
  refine removal_move mem (fun failed => ?_) (fun failed ha => ?_) fun ha => ?_
  · rw [Bool.and_eq_true] at failed
    obtain ⟨ha, e, out⟩ := removalFails_iff.1 failed.1
    obtain ⟨-, e', out'⟩ := removalFails_iff.1 failed.2
    exact ⟨ha, by simp [VTableInstanceHook.unhook, VTableInstanceHook.drop, ha, out, out']⟩
  · cases out : h.performUnhook s.tables ok with
    | ok r => exact ⟨ok, r.2, by simp [VTableInstanceHook.unhook, VTableInstanceHook.drop, ha, out]⟩
    | error e =>
      have first : removalFails s.tables h ok = true := removalFails_iff.2 ⟨ha, e, out⟩
      rw [first, Bool.true_and] at failed
      obtain ⟨⟨t', h'⟩, out'⟩ := (removalFails_eq_false ha).1 failed
      exact ⟨dropOk, h',
        by simp [VTableInstanceHook.unhook, VTableInstanceHook.drop, ha, out, out']⟩
  · simp [VTableInstanceHook.unhook, ha]

/-- `detach_finalize` removes the hook like `Drop` does and leaves an inert object behind. -/
theorem detachFinalize_fst (ok : Bool) :
    (h.detachFinalize t ok).1 = h.drop t ok ∧ (h.detachFinalize t ok).2.active = false ∧
      (h.detachFinalize t ok).2.enabled = false := by
  unfold VTableInstanceHook.detachFinalize VTableInstanceHook.drop
  cases ha : h.active with
  | false => simp
  | true => cases out : h.performUnhook t ok <;> simp

theorem enable_cases {h' : VTableInstanceHook} {t' : Tables}
    (out : VTableInstanceHook.enable t h = .ok (t', h')) : h.active = true ∧
      (t' = t ∧ h' = h ∨ t' = t.setWord (slotAddr h.clonedVtable h.index) h.detour ∧
        h' = { h with enabled := true }) := by
  unfold VTableInstanceHook.enable writeCloneSlot at out
  split_ifs at out with ha he hz
  · simp only [Except.ok.injEq, Prod.mk.injEq] at out
    exact ⟨by simpa using ha, Or.inl ⟨out.1.symm, out.2.symm⟩⟩
  · cases out
  · obtain ⟨rfl, rfl⟩ := Prod.mk.inj (Except.ok.inj out)
    exact ⟨by simpa using ha, Or.inr ⟨rfl, rfl⟩⟩

theorem disable_cases {h' : VTableInstanceHook} {t' : Tables}
    (out : VTableInstanceHook.disable t h = .ok (t', h')) :
    t' = t ∧ h' = h ∨ h.enabled = true ∧
      t' = t.setWord (slotAddr h.clonedVtable h.index) h.originalPtr ∧
        h' = { h with enabled := false } := by
  unfold VTableInstanceHook.disable writeCloneSlot at out
  split_ifs at out with he hz
  · simp only [Except.ok.injEq, Prod.mk.injEq] at out
    exact Or.inl ⟨out.1.symm, out.2.symm⟩
  · cases out
  · obtain ⟨rfl, rfl⟩ := Prod.mk.inj (Except.ok.inj out)
    exact Or.inr ⟨by simpa using he, rfl, rfl⟩

theorem update_self (mem : h ∈ s.hooks) : s.update h h s.tables = s := by
  simp [update, Multiset.cons_erase mem]

theorem toggle_move (mem : h ∈ s.hooks) (ha : h.active = true) (on : Bool) (v : ℕ)
    (hv : v = if on then h.detour else h.originalPtr) :
    InstanceMove M s.tables s.installed s.storage
      (s.tables.setWord (slotAddr h.clonedVtable h.index) v)
      (s.update h { h with enabled := on } (s.tables.setWord (slotAddr h.clonedVtable h.index) v)).installed
      s.storage := by
  subst hv
  rw [installed_of_active mem ha, installed_update (show ({ h with enabled := on } :
    VTableInstanceHook).active = true from ha)]
  exact .toggle on

/-- A whole operation is one move. -/
theorem step_move {op : InstanceOp} (safe : s.Safe M op) (inert : s.Inert) :
    InstanceMove M s.tables s.installed s.storage (s.step M op).tables (s.step M op).installed
      (s.step M op).storage := by
  cases op with
  | newClone len at_ =>
    simp only [step]
    cases out : s.tables.newClonedVtable M len at_ with
    | error e => exact .stay
    | ok r => exact .newClone out
  | dropClone table =>
    simp only [step]
    split_ifs with mem
    · have move := InstanceMove.dropClone (M := M) (t := s.tables) (L := s.installed)
        (S := s.storage.erase table) (b := table)
      rw [Multiset.cons_erase mem] at move
      exact move
    · exact .stay
  | installInto o index detour table ok =>
    simp only [step]
    split_ifs with mem
    · rcases out : installInto s.tables o index detour table ok with ⟨res, t', rest⟩
      rcases installInto_cases out with ⟨e, rfl, -, rfl | ⟨clone, len, rfl, hi, rfl⟩⟩ |
        ⟨sc, hs, hi, hw, hf, rfl, rfl, rfl⟩ | ⟨clone, len, hs, rfl, hi, hz, rfl, rfl, rfl⟩
      · exact .stay
      · exact .fillClone _ (mem _ rfl) hi
      · simp only [installed, Multiset.filter_cons_of_pos, Multiset.cons_add]
        cases rest <;> exact .joinClone hs hi hf
      · have eq : s.storage = (clone, len) ::ₘ s.storage.erase (clone, len) :=
          (Multiset.cons_erase (mem _ rfl)).symm
        simp only [installed, Multiset.filter_cons_of_pos, Multiset.cons_add]
        conv =>
          arg 4
          rw [eq]
        exact .makeClone safe.1 hz hs hi (safe.2 hs _ rfl)
    · exact .stay
  | enable h =>
    simp only [step]
    split_ifs with mem
    · cases out : VTableInstanceHook.enable s.tables h with
      | error e => exact .stay
      | ok r =>
        obtain ⟨ha, ⟨ht, hh⟩ | ⟨ht, hh⟩⟩ := enable_cases out
        · simp only [ht, hh, update_self mem]
          exact .stay
        · simp only [ht, hh]
          exact toggle_move mem ha true _ rfl
    · exact .stay
  | disable h =>
    simp only [step]
    split_ifs with mem
    · cases out : VTableInstanceHook.disable s.tables h with
      | error e => exact .stay
      | ok r =>
        obtain ⟨ht, hh⟩ | ⟨he, ht, hh⟩ := disable_cases out
        · simp only [ht, hh, update_self mem]
          exact .stay
        · have ha : h.active = true := by
            by_contra ha
            have := inert h mem (by simpa using ha)
            rw [this] at he
            cases he
          simp only [ht, hh]
          exact toggle_move mem ha false _ rfl
    · exact .stay
  | unhook h ok dropOk =>
    simp only [step]
    split_ifs with mem
    · exact unhook_move mem ok dropOk
    · exact .stay
  | detachFinalize h ok =>
    by_cases mem : h ∈ s.hooks
    · obtain ⟨ht, ha, -⟩ := detachFinalize_fst (h := h) (t := s.tables) ok
      have inst : (s.step M (.detachFinalize h ok)).installed =
          (s.forget h (removalFails s.tables h ok) (h.drop s.tables ok)).installed := by
        simp [step, mem, installed, forget, update, ha]
      rw [inst]
      simp only [step, if_pos mem, update, ht]
      exact drop_move mem ok
    · simp only [step, if_neg mem]
      exact .stay
  | drop h ok =>
    simp only [step]
    split_ifs with mem
    · exact drop_move mem ok
    · exact .stay

theorem inert_step {op : InstanceOp} (inert : s.Inert) : (s.step M op).Inert := by
  have erase : ∀ h, ∀ k ∈ s.hooks.erase h, k.active = false → k.enabled = false :=
    fun h k hk => inert k (Multiset.mem_of_mem_erase hk)
  cases op with
  | newClone len at_ =>
    simp only [step]
    split <;> exact inert
  | dropClone table =>
    simp only [step]
    split_ifs <;> exact inert
  | installInto o index detour table ok =>
    simp only [step]
    split_ifs with mem
    · rcases out : installInto s.tables o index detour table ok with ⟨res, t', rest⟩
      rcases installInto_cases out with ⟨e, rfl, -, -⟩ | ⟨sc, -, -, -, -, rfl, -, -⟩ |
        ⟨clone, len, -, -, -, -, rfl, -, -⟩
      · exact inert
      all_goals
        intro k hk ha
        rcases Multiset.mem_cons.1 hk with rfl | hk
        · cases ha
        · exact inert k hk ha
    · exact inert
  | enable h =>
    simp only [step]
    split_ifs with mem
    · cases out : VTableInstanceHook.enable s.tables h with
      | error e => exact inert
      | ok r =>
        obtain ⟨ha, ⟨-, hh⟩ | ⟨-, hh⟩⟩ := enable_cases out
        all_goals
          intro k hk hk'
          rcases Multiset.mem_cons.1 hk with rfl | hk
          · rw [hh] at hk'
            exact absurd (ha.symm.trans hk') (by simp)
          · exact erase h k hk hk'
    · exact inert
  | disable h =>
    simp only [step]
    split_ifs with mem
    · cases out : VTableInstanceHook.disable s.tables h with
      | error e => exact inert
      | ok r =>
        intro k hk hk'
        rcases Multiset.mem_cons.1 hk with rfl | hk
        · obtain ⟨-, hh⟩ | ⟨-, -, hh⟩ := disable_cases out
          · rw [hh] at hk' ⊢
            exact inert h mem hk'
          · rw [hh]
        · exact erase h k hk hk'
    · exact inert
  | unhook h ok dropOk =>
    simp only [step]
    split_ifs with mem
    · exact erase h
    · exact inert
  | detachFinalize h ok =>
    simp only [step]
    by_cases mem : h ∈ s.hooks
    · rw [if_pos mem]
      intro k hk hk'
      rcases Multiset.mem_cons.1 hk with rfl | hk
      · exact (detachFinalize_fst ok).2.2
      · exact erase h k hk hk'
    · rw [if_neg mem]
      exact inert
  | drop h ok =>
    simp only [step]
    split_ifs with mem
    · exact erase h
    · exact inert

end InstanceState

end NeoHook
