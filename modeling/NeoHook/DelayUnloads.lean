import NeoHook.Int3
import NeoHook.Lib.Pool

/-!
# Delay hooks and unloads

Modules are loaded, unloaded and loaded again while calls of `delay.rs` run.  A call holds the
manager's lock from `lock_manager` to its end; each access to a flag, each look at a module or a byte
and each write of a byte is a step.  The loader unmaps an image and then calls `on_dll_notification`,
which takes the lock only if it is free.  Requests have increasing numbers and the manager keeps them
in that order.  The accesses interleave as if memory were sequentially consistent; the source's flags
are release stores and acquire loads.
-/

namespace NeoHook

open Pool

/-- A loaded module, by the number of the load. -/
structure Image where
  number : ℕ
  base : ℕ
  size : ℕ
  deriving DecidableEq, Repr

def Image.Covers (img : Image) (x : ℕ) : Prop := img.base ≤ x ∧ x < img.base + img.size

instance (img : Image) : DecidablePred img.Covers := fun _ => inferInstanceAs (Decidable (_ ∧ _))

/-- The INT3 hook of a request, with the image it was installed into. -/
structure DelayTarget where
  target : ℕ
  img : Image
  originalByte : UInt8
  deriving DecidableEq, Repr

/-- What a call does with the manager. -/
inductive DelayTask where
  | isActive
  /-- `unhook`, or dropping the hook. -/
  | remove (id : ℕ)
  | register
  /-- `install_ready_pending`. -/
  | ready
  deriving DecidableEq, Repr

/-- Where the holder of the lock is: the step it takes next. -/
inductive DelayHolder where
  /-- `lock_manager` takes `UNLOAD_MISSED` and reads `UNLOAD_NOTIFIED`. -/
  | swap (task : DelayTask)
  | flag (task : DelayTask)
  /-- `still_installed` of a request: the base of its module, and the byte if an unload was missed. -/
  | check (k : ℕ) (missed : Bool) (task : DelayTask)
  | byte (k : ℕ) (task : DelayTask)
  /-- Behind `lock_manager`. -/
  | body (task : DelayTask)
  /-- The write of an unhook. -/
  | restore (hook : DelayTarget)
  /-- `resolve_loaded` for a new request, or for a pending one. -/
  | resolve (slot : Option ℕ)
  /-- `install_in_module`: the base of the target's module, and the write. -/
  | base (slot : Option ℕ) (target : ℕ)
  | install (slot : Option ℕ) (target : ℕ) (img : Image)
  deriving DecidableEq, Repr

structure UnloadState where
  /-- The image that is mapped at an address. -/
  imageAt : ℕ → Option Image
  /-- The number of the next load. -/
  fresh : ℕ
  mem : ℕ → UInt8
  /-- The requests in the manager, and their hooks. -/
  alive : ℕ → Bool
  hook : ℕ → Option DelayTarget
  nextId : ℕ
  /-- `UNLOAD_MISSED`. -/
  missed : Bool
  /-- `UNLOAD_NOTIFIED`, and whether a notification is registered. -/
  notified : Bool
  registered : Bool
  /-- The loader has unmapped the image and not called the notification yet. -/
  unloading : Option Image
  holder : Option DelayHolder
  /-- Images whose unload was reported since the present holder of the lock took `UNLOAD_MISSED`.
  This and the next field are history that nothing reads. -/
  sinceLock : List Image
  /-- For each byte written for a delay hook: whether the image it belongs to was mapped there. -/
  writes : List Bool

/-- Where a call is: the step it takes next. -/
inductive UnloadCall where
  | want (task : DelayTask)
  | hold
  /-- The loader maps a module with the given bytes. -/
  | load (base size : ℕ) (bytes : ℕ → UInt8)
  | unmap (img : Image)
  | notify (img : Image)
  /-- `register_unload_notification` or `unregister_unload_notification` registers or unregisters a
  notification or stores into `UNLOAD_NOTIFIED`. -/
  | setNotification (registered notified : Bool)

/-- What the loader and the INT3 engine answer. -/
structure UnloadAnswer where
  target : Option ℕ
  ok : Bool
  deriving DecidableEq, Repr

namespace UnloadState

def initial : UnloadState where
  imageAt _ := none
  fresh := 0
  mem _ := 0
  alive _ := false
  hook _ := none
  nextId := 1
  missed := false
  notified := false
  registered := false
  unloading := none
  holder := none
  sinceLock := []
  writes := []

def goto (s : UnloadState) (w : Option DelayHolder) : UnloadState := { s with holder := w }

/-- The hook's own image is not mapped at its target any more. -/
def Stale (s : UnloadState) (h : DelayTarget) : Prop := s.imageAt h.target ≠ some h.img

/-- `module_base_of`. -/
def moduleBaseOf (s : UnloadState) (x : ℕ) : Option ℕ := (s.imageAt x).map (·.base)

/-- `read_entry_byte`; memory that is no module's is taken for unreadable. -/
def entryByte (s : UnloadState) (x : ℕ) : Option UInt8 := (s.imageAt x).map fun _ => s.mem x

/-- `Int3Hook::forget`. -/
def forget (s : UnloadState) (k : ℕ) : UnloadState :=
  { s with hook := Function.update s.hook k none }

/-- A byte is written for a delay hook in an image. -/
def write (s : UnloadState) (x : ℕ) (byte : UInt8) (img : Image) : UnloadState :=
  { s with
    mem := Function.update s.mem x byte
    writes := decide (s.imageAt x = some img) :: s.writes }

/-- The next pending request, or the end of a registration. -/
def next (s : UnloadState) : Option ℕ → UnloadState
  | none => s.goto none
  | some k => s.goto (some (.resolve (some (k + 1))))

/-- The request gets its hook, or a new one is added. -/
def setHook (s : UnloadState) (slot : Option ℕ) (hook : Option DelayTarget) : UnloadState :=
  match slot with
  | none => { s with
      alive := Function.update s.alive s.nextId true
      hook := Function.update s.hook s.nextId hook
      nextId := s.nextId + 1 }
  | some k => { s with hook := Function.update s.hook k hook }

end UnloadState

/-- One step under the manager's lock. -/
def DelayHolder.access (a : UnloadAnswer) (s : UnloadState) : DelayHolder → UnloadState
  | .swap task =>
    { s with missed := false, sinceLock := [] }.goto
      (some (if s.missed then .check 0 true task else .flag task))
  | .flag task => s.goto (some (.check 0 (!s.notified) task))
  | .check k missed task =>
    if k < s.nextId then
      match s.hook k with
      | none => s.goto (some (.check (k + 1) missed task))
      | some h =>
        if h.img.base = 0 ∨ s.moduleBaseOf h.target ≠ some h.img.base then
          (s.forget k).goto (some (.check (k + 1) missed task))
        else s.goto (some (if missed then .byte k task else .check (k + 1) missed task))
    else s.goto (some (.body task))
  | .byte k task =>
    match s.hook k with
    | none => s.goto (some (.check (k + 1) true task))
    | some h =>
      (if s.entryByte h.target = some int3Opcode then s else s.forget k).goto
        (some (.check (k + 1) true task))
  | .body task =>
    match task with
    | .isActive => s.goto none
    | .remove i =>
      match s.hook i with
      | none => { s with alive := Function.update s.alive i false }.goto none
      | some h =>
        { s.forget i with alive := Function.update s.alive i false }.goto (some (.restore h))
    | .register => s.goto (some (.resolve none))
    | .ready => s.goto (some (.resolve (some 0)))
  | .restore h => (if a.ok then s.write h.target h.originalByte h.img else s).goto none
  | .resolve none =>
    match a.target with
    | none => (s.setHook none none).goto none
    | some target => s.goto (some (.base none target))
  | .resolve (some k) =>
    if k < s.nextId then
      if s.alive k ∧ s.hook k = none then
        match a.target with
        | none => s.next (some k)
        | some target => s.goto (some (.base (some k) target))
      else s.next (some k)
    else s.goto none
  | .base slot target =>
    match s.imageAt target with
    | none => s.next slot
    | some img => s.goto (some (.install slot target img))
  | .install slot target img =>
    -- `AlreadyHooked`: the slot of a hook that was not forgotten still holds its target
    if a.ok ∧ ∀ i < s.nextId, (s.hook i).map (·.target) ≠ some target then
      ((s.write target int3Opcode img).setHook slot (some ⟨target, img, s.mem target⟩)).next slot
    else s.next slot

/-- `on_dll_notification` for an unload. -/
def UnloadState.onDllNotification (s : UnloadState) (img : Image) : UnloadState :=
  match s.holder with
  | some _ => { s with missed := true, sinceLock := img :: s.sinceLock }
  | none => { s with
      hook := fun i => (s.hook i).filter fun h => ¬ img.Covers h.target }

/-- One step of a call. -/
def UnloadCall.access (a : UnloadAnswer) (s : UnloadState) :
    UnloadCall → UnloadState × Option UnloadCall
  | .want task => (s.goto (some (.swap task)), some .hold)
  | .hold =>
    match s.holder with
    | none => (s, none)
    | some w => (w.access a s, if (w.access a s).holder = none then none else some .hold)
  | .load base size bytes =>
    let img : Image := ⟨s.fresh, base, size⟩
    ({ s with
        imageAt := fun x => if img.Covers x then some img else s.imageAt x
        mem := fun x => if img.Covers x then bytes x else s.mem x
        fresh := s.fresh + 1 }, none)
  | .unmap img =>
    let s' := { s with imageAt := fun x => if s.imageAt x = some img then none else s.imageAt x }
    if s.registered then ({ s' with unloading := some img }, some (.notify img))
    else ({ s' with sinceLock := img :: s.sinceLock }, none)
  | .notify img => ({ s.onDllNotification img with unloading := none }, none)
  | .setNotification registered notified => ({ s with registered, notified }, none)

/-- Any number of calls and loader events.  The loader does one thing at a time and maps modules
where nothing is mapped. -/
def unloadMachine : Machine UnloadState UnloadCall UnloadAnswer where
  enter _ p := match p with
    | .want _ | .load .. | .unmap _ | .setNotification .. => True
    | .hold | .notify _ => False
  answers s p _ := match p with
    | .want _ => s.holder = none
    | .hold | .setNotification .. => True
    | .load base size _ => s.unloading = none ∧ base ≠ 0 ∧ 0 < size ∧
        ∀ x < size, s.imageAt (base + x) = none
    | .unmap img => s.unloading = none ∧ s.imageAt img.base = some img
    | .notify img => s.unloading = some img
  access a s p := p.access a s

/-! ### When unloads come at the right time -/

/-- The holder of the lock relies on the image: it removes a request that it has found installed in
it, or is about to write a byte there. -/
def DelayHolder.Relies (s : UnloadState) (img : Image) : DelayHolder → Prop
  | .check k _ (.remove i) | .byte k (.remove i) => i < k ∧ ∃ h ∈ s.hook i, h.img = img
  | .body (.remove i) => ∃ h ∈ s.hook i, h.img = img
  | .restore h => h.img = img
  | .install _ _ img' => img' = img
  | _ => False

/-- The holder of the lock removes a request in the image and has taken the flags for saying that no
unload was missed, but has not looked at the request yet. -/
def DelayHolder.Overlooks (s : UnloadState) (img : Image) : DelayHolder → Prop
  | .flag (.remove i) => s.notified = true ∧ ∃ h ∈ s.hook i, h.img = img
  | .check k missed (.remove i) => missed = false ∧ k ≤ i ∧ ∃ h ∈ s.hook i, h.img = img
  | _ => False

/-- No image is unmapped that the holder of the lock relies on, and none is reported, or goes without
a report, that it would overlook; what is mapped over the target of a hook that is gone has no `0xCC`
there; and `UNLOAD_NOTIFIED` is set only while a notification is registered and no hook is gone. -/
def WellTimed (s : UnloadState) (p : UnloadCall) (_ : Multiset UnloadCall) : Prop :=
  match p with
  | .unmap img => ∀ w ∈ s.holder, ¬ w.Relies s img ∧ (s.registered = false → ¬ w.Overlooks s img)
  | .notify img => ∀ w ∈ s.holder, ¬ w.Overlooks s img
  | .load base size bytes => ∀ i < s.nextId, ∀ h ∈ s.hook i, s.Stale h →
      (⟨s.fresh, base, size⟩ : Image).Covers h.target → bytes h.target ≠ int3Opcode
  | .setNotification registered notified => notified = true →
      registered = true ∧ ∀ i < s.nextId, ∀ h ∈ s.hook i, ¬ s.Stale h
  | .want _ | .hold => True

instance (s : UnloadState) (h : DelayTarget) : Decidable (s.Stale h) :=
  inferInstanceAs (Decidable (_ ≠ _))

instance (s : UnloadState) (img : Image) : DecidablePred (DelayHolder.Relies s img)
  | .check k _ (.remove i) | .byte k (.remove i) =>
    inferInstanceAs (Decidable (i < k ∧ ∃ h ∈ s.hook i, h.img = img))
  | .body (.remove i) => inferInstanceAs (Decidable (∃ h ∈ s.hook i, h.img = img))
  | .restore h => inferInstanceAs (Decidable (h.img = img))
  | .install _ _ img' => inferInstanceAs (Decidable (img' = img))
  | .check _ _ .isActive | .check _ _ .register | .check _ _ .ready | .byte _ .isActive
  | .byte _ .register | .byte _ .ready | .body .isActive | .body .register | .body .ready
  | .swap _ | .flag _ | .resolve _ | .base .. => inferInstanceAs (Decidable False)

instance (s : UnloadState) (img : Image) : DecidablePred (DelayHolder.Overlooks s img)
  | .flag (.remove i) =>
    inferInstanceAs (Decidable (s.notified = true ∧ ∃ h ∈ s.hook i, h.img = img))
  | .check k missed (.remove i) =>
    inferInstanceAs (Decidable (missed = false ∧ k ≤ i ∧ ∃ h ∈ s.hook i, h.img = img))
  | .check _ _ .isActive | .check _ _ .register | .check _ _ .ready
  | .flag .isActive | .flag .register | .flag .ready | .swap _ | .byte .. | .body _ | .restore _
  | .resolve _ | .base .. | .install .. => inferInstanceAs (Decidable False)

instance (s : UnloadState) (p : UnloadCall) (rest : Multiset UnloadCall) :
    Decidable (WellTimed s p rest) :=
  match p with
  | .unmap img => inferInstanceAs (Decidable (∀ w ∈ s.holder,
      ¬ w.Relies s img ∧ (s.registered = false → ¬ w.Overlooks s img)))
  | .notify img => inferInstanceAs (Decidable (∀ w ∈ s.holder, ¬ w.Overlooks s img))
  | .load base size bytes => inferInstanceAs (Decidable (∀ i < s.nextId, ∀ h ∈ s.hook i,
      s.Stale h → (⟨s.fresh, base, size⟩ : Image).Covers h.target → bytes h.target ≠ int3Opcode))
  | .setNotification registered notified => inferInstanceAs (Decidable (notified = true →
      registered = true ∧ ∀ i < s.nextId, ∀ h ∈ s.hook i, ¬ s.Stale h))
  | .want _ | .hold => inferInstanceAs (Decidable True)

instance (s : UnloadState) (p : UnloadCall) : Decidable (unloadMachine.enter s p) :=
  match p with
  | .want _ | .load .. | .unmap _ | .setNotification .. => inferInstanceAs (Decidable True)
  | .hold | .notify _ => inferInstanceAs (Decidable False)

instance (s : UnloadState) (p : UnloadCall) (a : UnloadAnswer) :
    Decidable (unloadMachine.answers s p a) :=
  match p with
  | .want _ => inferInstanceAs (Decidable (s.holder = none))
  | .hold | .setNotification .. => inferInstanceAs (Decidable True)
  | .load base size _ => inferInstanceAs (Decidable (s.unloading = none ∧ base ≠ 0 ∧ 0 < size ∧
      ∀ x < size, s.imageAt (base + x) = none))
  | .unmap img => inferInstanceAs (Decidable (s.unloading = none ∧ s.imageAt img.base = some img))
  | .notify img => inferInstanceAs (Decidable (s.unloading = some img))

/-! ### What holds of every state -/

namespace UnloadState

/-- The images that are mapped and the hooks in them: images do not overlap, a hook lies in the image
it was installed into, no two hooks have one target, and where another image is mapped over a hook
there is no `0xCC`. -/
structure Placed (s : UnloadState) : Prop where
  images : ∀ {x img}, s.imageAt x = some img →
    img.Covers x ∧ img.base ≠ 0 ∧ img.number < s.fresh ∧ ∀ y, img.Covers y → s.imageAt y = some img
  hooks : ∀ {i h}, s.hook i = some h →
    h.img.Covers h.target ∧ h.img.base ≠ 0 ∧ h.img.number < s.fresh ∧ i < s.nextId
  bytes : ∀ {i h}, s.hook i = some h → s.Stale h →
    s.imageAt h.target = none ∨ s.mem h.target ≠ int3Opcode
  distinct : ∀ {i j h h'}, s.hook i = some h → s.hook j = some h' → h.target = h'.target → i = j
  unmapped : ∀ {img x}, s.unloading = some img → img.Covers x → s.imageAt x = none
  notified : s.notified = true → s.registered = true
  writes : ∀ w ∈ s.writes, w = true

/-- The unload of the image is under way, or was reported since the flags were taken and flagged
again. -/
def Excused (s : UnloadState) (img : Image) : Prop :=
  s.unloading = some img ∨ img ∈ s.sinceLock ∧ (s.missed = true ∨ s.notified = false)

/-- Why the manager may still have a hook that is gone. -/
def Seen (s : UnloadState) (i : ℕ) (img : Image) : Option DelayHolder → Prop
  | none | some (.swap _) => s.unloading = some img ∨ s.missed = true ∨ s.notified = false
  | some (.flag task) =>
    s.unloading = some img ∨ s.notified = false ∨ task ≠ .remove i ∧ s.Excused img
  | some (.check k missed task) =>
    k ≤ i ∧ (missed = true ∨ s.unloading = some img) ∨ task ≠ .remove i ∧ s.Excused img
  | some (.byte k task) => k ≤ i ∨ task ≠ .remove i ∧ s.Excused img
  | some (.body task) => task ≠ .remove i ∧ s.Excused img
  | some _ => s.Excused img

/-- What the holder of the lock has made sure of. -/
def Ready (s : UnloadState) : DelayHolder → Prop
  | .restore h => s.imageAt h.target = some h.img ∧ ∀ j, ∀ h' ∈ s.hook j, h'.target ≠ h.target
  | .base slot _ => ∀ k ∈ slot, k < s.nextId
  | .install slot target img => s.imageAt target = some img ∧ ∀ k ∈ slot, k < s.nextId
  | _ => True

structure Sound (s : UnloadState) : Prop where
  placed : s.Placed
  seen : ∀ {i h}, s.hook i = some h → s.Stale h → s.Seen i h.img s.holder
  ready : ∀ {w}, s.holder = some w → s.Ready w

theorem Sound.initial : initial.Sound where
  placed := by
    constructor <;> simp [UnloadState.initial]
  seen installed := absurd installed nofun
  ready held := absurd held nofun

/-! ### Steps under the lock -/

theorem Excused.flagged {s : UnloadState} {img : Image} (excused : s.Excused img) :
    s.unloading = some img ∨ s.missed = true ∨ s.notified = false :=
  excused.imp_right And.right

theorem forget_hook {s : UnloadState} {k i : ℕ} {h : DelayTarget} :
    (s.forget k).hook i = some h ↔ i ≠ k ∧ s.hook i = some h := by
  by_cases same : i = k
  · subst same
    simp [forget]
  · simp [forget, same]

theorem Placed.forget {s : UnloadState} (P : s.Placed) (k : ℕ) : (s.forget k).Placed where
  images := P.images
  hooks installed := P.hooks (forget_hook.mp installed).2
  bytes installed := P.bytes (forget_hook.mp installed).2
  distinct one two := P.distinct (forget_hook.mp one).2 (forget_hook.mp two).2
  unmapped := P.unmapped
  notified := P.notified
  writes := P.writes

/-- The holder goes on behind a step that changes nothing else. -/
theorem Placed.go {s : UnloadState} (P : s.Placed) {next : Option DelayHolder}
    (seen : ∀ i h, s.hook i = some h → s.Stale h → s.Seen i h.img next)
    (ready : ∀ w, next = some w → s.Ready w) : (s.goto next).Sound where
  placed := ⟨P.images, P.hooks, P.bytes, P.distinct, P.unmapped, P.notified, P.writes⟩
  seen {i h} installed stale := by
    have old := seen i h installed stale
    rcases next with _ | w
    · exact old
    · cases w <;> exact old
  ready {w} held := by
    have old := ready w held
    cases w <;> exact old

/-- The call returns. -/
theorem Placed.done {s : UnloadState} (P : s.Placed)
    (seen : ∀ i h, s.hook i = some h → s.Stale h → s.Excused h.img) : (s.goto none).Sound :=
  P.go (fun i h installed stale => (seen i h installed stale).flagged) (fun _ held => nomatch held)

/-- The next pending request. -/
theorem Placed.next {s : UnloadState} (P : s.Placed) (slot : Option ℕ)
    (seen : ∀ i h, s.hook i = some h → s.Stale h → s.Excused h.img) : (s.next slot).Sound := by
  cases slot with
  | none => exact P.done seen
  | some k =>
    refine P.go seen ?_
    rintro w ⟨⟩
    trivial

theorem Placed.alive {s : UnloadState} (P : s.Placed) (f : ℕ → Bool) :
    { s with alive := f }.Placed :=
  ⟨P.images, P.hooks, P.bytes, P.distinct, P.unmapped, P.notified, P.writes⟩

section Validating

variable {s : UnloadState} (S : s.Sound)

include S

theorem Sound.swap {task : DelayTask} (held : s.holder = some (.swap task)) (a : UnloadAnswer) :
    ((DelayHolder.swap task).access a s).Sound := by
  have P := S.placed
  have flagged : ∀ {i h}, s.hook i = some h → s.Stale h →
      s.unloading = some h.img ∨ s.missed = true ∨ s.notified = false := by
    intro i h installed stale
    have seen := S.seen installed stale
    rw [held] at seen
    exact seen
  have P' : { s with missed := false, sinceLock := [] }.Placed :=
    ⟨P.images, P.hooks, P.bytes, P.distinct, P.unmapped, P.notified, P.writes⟩
  cases missed : s.missed with
  | true =>
    simp only [DelayHolder.access, missed, if_true]
    refine P'.go (fun i h _ _ => Or.inl ⟨Nat.zero_le i, Or.inl rfl⟩) ?_
    rintro w ⟨⟩
    trivial
  | false =>
    simp only [DelayHolder.access, missed, Bool.false_eq_true, if_false]
    refine P'.go ?_ ?_
    · intro i h installed stale
      rcases flagged installed stale with unloading | was | unset
      · exact Or.inl unloading
      · exact absurd (missed.symm.trans was) nofun
      · exact Or.inr (Or.inl unset)
    · rintro w ⟨⟩
      trivial

theorem Sound.flag {task : DelayTask} (held : s.holder = some (.flag task)) (a : UnloadAnswer) :
    ((DelayHolder.flag task).access a s).Sound := by
  refine S.placed.go ?_ ?_
  · intro i h installed stale
    have seen := S.seen installed stale
    rw [held] at seen
    rcases seen with unloading | unset | other
    · exact Or.inl ⟨Nat.zero_le i, Or.inr unloading⟩
    · exact Or.inl ⟨Nat.zero_le i, Or.inl (by simp [unset])⟩
    · exact Or.inr other
  · rintro w ⟨⟩
    trivial

/-- A request behind the one that was looked at is still to be looked at. -/
theorem Sound.later {k : ℕ} {missed : Bool} {task : DelayTask}
    (held : s.holder = some (.check k missed task)) {i : ℕ} {h : DelayTarget} (behind : i ≠ k)
    (installed : s.hook i = some h) (stale : s.Stale h) :
    s.Seen i h.img (some (.check (k + 1) missed task)) := by
  have seen := S.seen installed stale
  rw [held] at seen
  rcases seen with ⟨le, flagged⟩ | other
  · exact Or.inl ⟨Nat.lt_of_le_of_ne le behind.symm, flagged⟩
  · exact Or.inr other

theorem Sound.check {k : ℕ} {missed : Bool} {task : DelayTask}
    (held : s.holder = some (.check k missed task)) (a : UnloadAnswer) :
    ((DelayHolder.check k missed task).access a s).Sound := by
  have P := S.placed
  by_cases inside : k < s.nextId
  · simp only [DelayHolder.access, if_pos inside]
    cases installed : s.hook k with
    | none =>
      refine P.go (fun i h here stale => S.later held ?_ here stale) ?_
      · rintro rfl
        exact absurd (installed.symm.trans here) nofun
      · rintro w ⟨⟩
        trivial
    | some h =>
      by_cases gone : h.img.base = 0 ∨ s.moduleBaseOf h.target ≠ some h.img.base
      · simp only [if_pos gone]
        refine (P.forget k).go (fun i h' here stale => ?_) ?_
        · obtain ⟨behind, here⟩ := forget_hook.mp here
          exact S.later held behind here stale
        · rintro w ⟨⟩
          trivial
      · simp only [if_neg gone]
        cases missed with
        | true =>
          refine P.go (fun i h' here stale => ?_) ?_
          · have seen := S.seen here stale
            rw [held] at seen
            exact seen.imp_left And.left
          · rintro w ⟨⟩
            trivial
        | false =>
          refine P.go (fun i h' here stale => ?_) ?_
          · by_cases same : i = k
            · subst same
              obtain rfl : h = h' := Option.some.inj (installed.symm.trans here)
              have seen := S.seen here stale
              rw [held] at seen
              rcases seen with ⟨_, wrong | unloading⟩ | other
              · exact absurd wrong nofun
              · have none := P.unmapped unloading (P.hooks here).1
                exact absurd (Or.inr (by simp [moduleBaseOf, none])) gone
              · exact Or.inr other
            · exact S.later held same here stale
          · rintro w ⟨⟩
            trivial
  · simp only [DelayHolder.access, if_neg inside]
    refine P.go (fun i h here stale => ?_) ?_
    · have seen := S.seen here stale
      rw [held] at seen
      rcases seen with ⟨le, _⟩ | other
      · have := (P.hooks here).2.2.2
        omega
      · exact other
    · rintro w ⟨⟩
      trivial

theorem Sound.byte {k : ℕ} {task : DelayTask} (held : s.holder = some (.byte k task))
    (a : UnloadAnswer) : ((DelayHolder.byte k task).access a s).Sound := by
  have P := S.placed
  have later : ∀ {i h}, i ≠ k → s.hook i = some h → s.Stale h →
      s.Seen i h.img (some (.check (k + 1) true task)) := by
    intro i h behind here stale
    have seen := S.seen here stale
    rw [held] at seen
    exact seen.imp_left fun le => ⟨Nat.lt_of_le_of_ne le behind.symm, Or.inl rfl⟩
  simp only [DelayHolder.access]
  cases installed : s.hook k with
  | none =>
    refine P.go (fun i h here stale => later ?_ here stale) ?_
    · rintro rfl
      exact absurd (installed.symm.trans here) nofun
    · rintro w ⟨⟩
      trivial
  | some h =>
    by_cases there : s.entryByte h.target = some int3Opcode
    · simp only [if_pos there]
      refine P.go (fun i h' here stale => ?_) ?_
      · by_cases same : i = k
        · subst same
          obtain rfl : h = h' := Option.some.inj (installed.symm.trans here)
          rcases P.bytes here stale with none | other
          · simp [entryByte, none] at there
          · simp only [entryByte, Option.map_eq_some_iff] at there
            obtain ⟨_, _, equal⟩ := there
            exact absurd equal other
        · exact later same here stale
      · rintro w ⟨⟩
        trivial
    · simp only [if_neg there]
      refine (P.forget k).go (fun i h' here stale => ?_) ?_
      · obtain ⟨behind, here⟩ := forget_hook.mp here
        exact later behind here stale
      · rintro w ⟨⟩
        trivial

end Validating

/-! ### Steps that remove and install -/

/-- Writing at a place that no hook has as its target. -/
theorem Placed.write {s : UnloadState} (P : s.Placed) {x : ℕ} {img : Image} (byte : UInt8)
    (mapped : s.imageAt x = some img) (apart : ∀ j, ∀ h ∈ s.hook j, h.target ≠ x) :
    (s.write x byte img).Placed where
  images := P.images
  hooks := P.hooks
  bytes {i h} installed stale := by
    refine (P.bytes installed stale).imp_right fun other => ?_
    simp only [UnloadState.write, Function.update_of_ne (apart i h installed)]
    exact other
  distinct := P.distinct
  unmapped := P.unmapped
  notified := P.notified
  writes w mem := by
    rcases List.mem_cons.mp mem with rfl | mem
    · exact decide_eq_true mapped
    · exact P.writes w mem

theorem setHook_hook (s : UnloadState) (slot : Option ℕ) (v : Option DelayTarget) :
    (s.setHook slot v).hook = Function.update s.hook (slot.getD s.nextId) v := by
  cases slot <;> rfl

theorem le_setHook_nextId (s : UnloadState) (slot : Option ℕ) (v : Option DelayTarget) :
    s.nextId ≤ (s.setHook slot v).nextId := by
  cases slot with
  | none => exact Nat.le_succ s.nextId
  | some k => exact le_rfl

theorem setHook_inside (s : UnloadState) {slot : Option ℕ} (v : Option DelayTarget)
    (inside : ∀ k ∈ slot, k < s.nextId) : slot.getD s.nextId < (s.setHook slot v).nextId := by
  cases slot with
  | none => exact Nat.lt_succ_self s.nextId
  | some k => exact inside k rfl

/-- What a hook is after a request has got one: the new one, or an old one. -/
theorem hook_of_setHook {s : UnloadState} {slot : Option ℕ} {v : Option DelayTarget} {i : ℕ}
    {h : DelayTarget} (installed : (s.setHook slot v).hook i = some h) :
    i = slot.getD s.nextId ∧ v = some h ∨ i ≠ slot.getD s.nextId ∧ s.hook i = some h := by
  rw [setHook_hook] at installed
  by_cases same : i = slot.getD s.nextId
  · subst same
    rw [Function.update_self] at installed
    exact Or.inl ⟨rfl, installed⟩
  · rw [Function.update_of_ne same] at installed
    exact Or.inr ⟨same, installed⟩

/-- A request gets a hook in an image that is mapped, at a target of its own, or none. -/
theorem Placed.setHook {s : UnloadState} (P : s.Placed) {slot : Option ℕ} {v : Option DelayTarget}
    (inside : ∀ k ∈ slot, k < s.nextId)
    (mapped : ∀ h ∈ v, s.imageAt h.target = some h.img)
    (apart : ∀ h ∈ v, ∀ j, ∀ h' ∈ s.hook j, h'.target ≠ h.target) :
    (s.setHook slot v).Placed := by
  have imageAt : (s.setHook slot v).imageAt = s.imageAt := by cases slot <;> rfl
  have fresh : (s.setHook slot v).fresh = s.fresh := by cases slot <;> rfl
  have mem : (s.setHook slot v).mem = s.mem := by cases slot <;> rfl
  have unloading : (s.setHook slot v).unloading = s.unloading := by cases slot <;> rfl
  refine ⟨?_, ?_, ?_, ?_, ?_, ?_, ?_⟩
  · rw [imageAt, fresh]
    exact P.images
  · intro i h installed
    rw [fresh]
    rcases hook_of_setHook installed with ⟨rfl, new⟩ | ⟨_, old⟩
    · obtain ⟨covers, base, number, _⟩ := P.images (mapped h new)
      exact ⟨covers, base, number, s.setHook_inside v inside⟩
    · obtain ⟨covers, base, number, below⟩ := P.hooks old
      exact ⟨covers, base, number, below.trans_le (s.le_setHook_nextId slot v)⟩
  · intro i h installed stale
    simp only [Stale, imageAt] at stale
    rw [imageAt, mem]
    rcases hook_of_setHook installed with ⟨_, new⟩ | ⟨_, old⟩
    · exact absurd (mapped h new) stale
    · exact P.bytes old stale
  · intro i j h h' one two same
    rcases hook_of_setHook one with ⟨rfl, new⟩ | ⟨_, old⟩
    · rcases hook_of_setHook two with ⟨rfl, _⟩ | ⟨_, old'⟩
      · rfl
      · exact absurd same.symm (apart h new j h' old')
    · rcases hook_of_setHook two with ⟨rfl, new'⟩ | ⟨_, old'⟩
      · exact absurd same (apart h' new' i h old)
      · exact P.distinct old old' same
  · rw [imageAt, unloading]
    exact P.unmapped
  · intro set
    cases slot <;> exact P.notified set
  · intro w
    cases slot <;> exact P.writes w

/-- Hooks that are gone stay excused when a request gets a hook. -/
theorem excused_setHook {s : UnloadState} {slot : Option ℕ} {v : Option DelayTarget}
    (mapped : ∀ h ∈ v, s.imageAt h.target = some h.img)
    (seen : ∀ i h, s.hook i = some h → s.Stale h → s.Excused h.img) (i : ℕ) (h : DelayTarget)
    (installed : (s.setHook slot v).hook i = some h) (stale : (s.setHook slot v).Stale h) :
    (s.setHook slot v).Excused h.img := by
  have stale : s.Stale h := by
    cases slot <;> exact stale
  have excused : s.Excused h.img := by
    rcases hook_of_setHook installed with ⟨_, new⟩ | ⟨_, old⟩
    · exact absurd (mapped h new) stale
    · exact seen i h old stale
  cases slot <;> exact excused

section Working

variable {s : UnloadState} (S : s.Sound)

include S

theorem Sound.body {task : DelayTask} (held : s.holder = some (.body task)) (a : UnloadAnswer) :
    ((DelayHolder.body task).access a s).Sound := by
  have P := S.placed
  have seen : ∀ {i h}, s.hook i = some h → s.Stale h → task ≠ .remove i ∧ s.Excused h.img := by
    intro i h here stale
    have seen := S.seen here stale
    rw [held] at seen
    exact seen
  cases task with
  | isActive => exact P.done fun i h here stale => (seen here stale).2
  | register =>
    refine P.go (fun i h here stale => (seen here stale).2) ?_
    rintro w ⟨⟩
    trivial
  | ready =>
    refine P.go (fun i h here stale => (seen here stale).2) ?_
    rintro w ⟨⟩
    trivial
  | remove k =>
    simp only [DelayHolder.access]
    cases installed : s.hook k with
    | none =>
      exact (P.alive _).done fun i h here stale => (seen here stale).2
    | some h =>
      have live : ¬ s.Stale h := fun stale => (seen installed stale).1 rfl
      refine ((P.forget k).alive _).go (fun i h' here stale => ?_) ?_
      · obtain ⟨_, here⟩ := forget_hook.mp here
        exact (seen here stale).2
      · rintro w ⟨⟩
        refine ⟨not_not.mp live, fun j h' here same => ?_⟩
        obtain ⟨other, here⟩ := forget_hook.mp here
        exact other (P.distinct here installed same)

/-- Behind the validation nothing but an excuse keeps a hook that is gone. -/
theorem Sound.excused {w : DelayHolder} (held : s.holder = some w)
    (behind : ∀ i img, s.Seen i img (some w) → s.Excused img) :
    ∀ i h, s.hook i = some h → s.Stale h → s.Excused h.img := by
  intro i h here stale
  have seen := S.seen here stale
  rw [held] at seen
  exact behind i h.img seen

theorem Sound.restore {h : DelayTarget} (held : s.holder = some (.restore h)) (a : UnloadAnswer) :
    ((DelayHolder.restore h).access a s).Sound := by
  have P := S.placed
  obtain ⟨mapped, apart⟩ := S.ready held
  have seen := S.excused held fun i img excused => excused
  simp only [DelayHolder.access]
  by_cases ok : a.ok = true
  · simp only [if_pos ok]
    exact (P.write h.originalByte mapped apart).done seen
  · simp only [if_neg ok]
    exact P.done seen

theorem Sound.resolve {slot : Option ℕ} (held : s.holder = some (.resolve slot))
    (a : UnloadAnswer) : ((DelayHolder.resolve slot).access a s).Sound := by
  have P := S.placed
  have seen := S.excused held fun i img excused => excused
  cases slot with
  | none =>
    simp only [DelayHolder.access]
    cases a.target with
    | none =>
      refine (P.setHook ?_ ?_ ?_).done (excused_setHook ?_ seen) <;> exact fun _ none => nomatch none
    | some target =>
      refine P.go seen ?_
      rintro w ⟨⟩
      exact fun k none => nomatch none
  | some k =>
    simp only [DelayHolder.access]
    by_cases inside : k < s.nextId
    · simp only [if_pos inside]
      by_cases pending : s.alive k = true ∧ s.hook k = none
      · simp only [if_pos pending]
        cases a.target with
        | none => exact P.next (some k) seen
        | some target =>
          refine P.go seen ?_
          rintro w ⟨⟩ j ⟨⟩
          exact inside
      · simp only [if_neg pending]
        exact P.next (some k) seen
    · simp only [if_neg inside]
      exact P.done seen

theorem Sound.base {slot : Option ℕ} {target : ℕ} (held : s.holder = some (.base slot target))
    (a : UnloadAnswer) : ((DelayHolder.base slot target).access a s).Sound := by
  have P := S.placed
  have seen := S.excused held fun i img excused => excused
  have inside := S.ready held
  simp only [DelayHolder.access]
  cases mapped : s.imageAt target with
  | none => exact P.next slot seen
  | some img =>
    refine P.go seen ?_
    rintro w ⟨⟩
    exact ⟨mapped, inside⟩

theorem Sound.install {slot : Option ℕ} {target : ℕ} {img : Image}
    (held : s.holder = some (.install slot target img)) (a : UnloadAnswer) :
    ((DelayHolder.install slot target img).access a s).Sound := by
  have P := S.placed
  have seen := S.excused held fun i img excused => excused
  obtain ⟨mapped, inside⟩ := S.ready held
  simp only [DelayHolder.access]
  by_cases free : a.ok = true ∧ ∀ i < s.nextId, (s.hook i).map (·.target) ≠ some target
  · simp only [if_pos free]
    have apart : ∀ j, ∀ h ∈ s.hook j, h.target ≠ target := by
      intro j h here same
      refine free.2 j (P.hooks here).2.2.2 ?_
      rw [show s.hook j = some h from here]
      exact congrArg some same
    refine ((P.write int3Opcode mapped apart).setHook inside ?_ ?_).next slot
      (excused_setHook ?_ seen)
    · rintro h ⟨⟩
      exact mapped
    · rintro h ⟨⟩
      exact apart
    · rintro h ⟨⟩
      exact mapped
  · simp only [if_neg free]
    exact P.next slot seen

/-- Every step under the lock keeps it. -/
theorem Sound.access {w : DelayHolder} (held : s.holder = some w) (a : UnloadAnswer) :
    (w.access a s).Sound := by
  cases w with
  | swap task => exact S.swap held a
  | flag task => exact S.flag held a
  | check k missed task => exact S.check held a
  | byte k task => exact S.byte held a
  | body task => exact S.body held a
  | restore h => exact S.restore held a
  | resolve slot => exact S.resolve held a
  | base slot target => exact S.base held a
  | install slot target img => exact S.install held a

end Working

/-! ### Loader events -/

/-- A loaded image takes the place of none. -/
theorem Placed.load {s : UnloadState} (P : s.Placed) {base size : ℕ} {bytes : ℕ → UInt8}
    (idle : s.unloading = none) (nonzero : base ≠ 0)
    (free : ∀ x < size, s.imageAt (base + x) = none)
    (clean : ∀ i < s.nextId, ∀ h ∈ s.hook i, s.Stale h →
      (⟨s.fresh, base, size⟩ : Image).Covers h.target → bytes h.target ≠ int3Opcode)
    (a : UnloadAnswer) :
    ((UnloadCall.load base size bytes).access a s).1.Placed ∧
      ∀ h : DelayTarget, h.img.number < s.fresh →
        (((UnloadCall.load base size bytes).access a s).1.Stale h ↔ s.Stale h) := by
  let new : Image := ⟨s.fresh, base, size⟩
  have none : ∀ {x}, new.Covers x → s.imageAt x = none := by
    rintro x ⟨low, high⟩
    have := free (x - base) (by simp only [new] at low high; omega)
    rwa [Nat.add_sub_cancel' low] at this
  have old : ∀ {x img}, s.imageAt x = some img → ¬ new.Covers x := by
    intro x img mapped covers
    exact absurd ((none covers).symm.trans mapped) nofun
  have imageAt : ∀ x, ((UnloadCall.load base size bytes).access a s).1.imageAt x =
      if new.Covers x then some new else s.imageAt x := fun x => rfl
  have mem : ∀ x, ((UnloadCall.load base size bytes).access a s).1.mem x =
      if new.Covers x then bytes x else s.mem x := fun x => rfl
  have stale : ∀ h : DelayTarget, h.img.number < s.fresh →
      (((UnloadCall.load base size bytes).access a s).1.Stale h ↔ s.Stale h) := by
    intro h below
    simp only [Stale, imageAt]
    by_cases covers : new.Covers h.target
    · rw [if_pos covers, none covers]
      refine ⟨fun _ => nofun, fun _ same => ?_⟩
      have : h.img.number = s.fresh := congrArg Image.number (Option.some.inj same).symm
      omega
    · rw [if_neg covers]
  refine ⟨⟨?_, ?_, ?_, P.distinct, ?_, P.notified, P.writes⟩, stale⟩
  · intro x img mapped
    rw [imageAt] at mapped
    by_cases covers : new.Covers x
    · rw [if_pos covers] at mapped
      obtain rfl := Option.some.inj mapped
      refine ⟨covers, nonzero, Nat.lt_succ_self s.fresh, fun y inside => ?_⟩
      rw [imageAt, if_pos inside]
    · rw [if_neg covers] at mapped
      obtain ⟨there, base, number, whole⟩ := P.images mapped
      refine ⟨there, base, Nat.lt_succ_of_lt number, fun y inside => ?_⟩
      rw [imageAt, if_neg (old (whole y inside))]
      exact whole y inside
  · intro i h installed
    obtain ⟨covers, base, number, below⟩ := P.hooks installed
    exact ⟨covers, base, Nat.lt_succ_of_lt number, below⟩
  · intro i h installed gone
    obtain ⟨_, _, number, below⟩ := P.hooks installed
    have gone := (stale h number).mp gone
    rw [imageAt, mem]
    by_cases covers : new.Covers h.target
    · rw [if_pos covers, if_pos covers]
      exact Or.inr (clean i below h installed gone covers)
    · rw [if_neg covers, if_neg covers]
      exact P.bytes installed gone
  · intro img x unloading
    exact absurd (idle.symm.trans unloading) nofun

/-- An image is unmapped as a whole. -/
theorem Placed.unmap {s : UnloadState} (P : s.Placed) {img : Image}
    (mapped : s.imageAt img.base = some img) (unloading : Option Image) (sinceLock : List Image)
    (under : ∀ img', unloading = some img' → img' = img) :
    { s with
      imageAt := fun x => if s.imageAt x = some img then none else s.imageAt x
      unloading := unloading
      sinceLock := sinceLock }.Placed where
  images {x img'} here := by
    by_cases same : s.imageAt x = some img
    · simp only [if_pos same] at here
      exact absurd here nofun
    · simp only [if_neg same] at here
      obtain ⟨covers, base, number, whole⟩ := P.images here
      refine ⟨covers, base, number, fun y inside => ?_⟩
      have there := whole y inside
      have differs : ¬ s.imageAt y = some img := by
        rw [there, ← here]
        exact same
      exact (if_neg differs).trans there
  hooks := P.hooks
  bytes {i h} installed stale := by
    by_cases same : s.imageAt h.target = some img
    · exact Or.inl (if_pos same)
    · simp only [Stale, if_neg same] at stale
      simp only [if_neg same]
      exact P.bytes installed stale
  distinct := P.distinct
  unmapped {img' x} is covers := by
    obtain rfl := under img' is
    exact if_pos ((P.images mapped).2.2.2 x covers)
  notified := P.notified
  writes := P.writes

theorem Sound.load {s : UnloadState} (S : s.Sound) {base size : ℕ} {bytes : ℕ → UInt8}
    (idle : s.unloading = none) (nonzero : base ≠ 0)
    (free : ∀ x < size, s.imageAt (base + x) = none)
    (clean : ∀ i < s.nextId, ∀ h ∈ s.hook i, s.Stale h →
      (⟨s.fresh, base, size⟩ : Image).Covers h.target → bytes h.target ≠ int3Opcode)
    (a : UnloadAnswer) : ((UnloadCall.load base size bytes).access a s).1.Sound := by
  obtain ⟨placed, same⟩ := S.placed.load idle nonzero free clean a
  refine ⟨placed, fun {i h} installed stale => ?_, fun {w} held => ?_⟩
  · exact S.seen installed ((same h (S.placed.hooks installed).2.2.1).mp stale)
  · have keep : ∀ {x img}, s.imageAt x = some img →
        ((UnloadCall.load base size bytes).access a s).1.imageAt x = some img := by
      intro x img mapped
      refine (if_neg fun covers => ?_).trans mapped
      obtain ⟨low, high⟩ := covers
      have none := free (x - base) (by simp only at low high; omega)
      rw [Nat.add_sub_cancel' low] at none
      exact absurd (none.symm.trans mapped) nofun
    have ready := S.ready held
    cases w with
    | restore h => exact ⟨keep ready.1, ready.2⟩
    | install slot target img => exact ⟨keep ready.1, ready.2⟩
    | base slot target => exact ready
    | _ => trivial

/-- A hook that an unmapping makes stale was in the image. -/
theorem img_of_unmap {s : UnloadState} {img : Image} {h : DelayTarget}
    (stale : (if s.imageAt h.target = some img then none else s.imageAt h.target) ≠ some h.img) :
    s.Stale h ∨ s.imageAt h.target = some h.img ∧ h.img = img := by
  by_cases same : s.imageAt h.target = some img
  · by_cases own : h.img = img
    · exact Or.inr ⟨own ▸ same, own⟩
    · exact Or.inl fun mapped => own (Option.some.inj (mapped.symm.trans same))
  · rw [if_neg same] at stale
    exact Or.inl stale

/-- What the holder has made sure of is kept by an unmapping it does not rely on. -/
theorem Ready.unmap {s s' : UnloadState} {img : Image} {w : DelayHolder} (ready : s.Ready w)
    (relies : ¬ w.Relies s img)
    (imageAt : ∀ x, s'.imageAt x = if s.imageAt x = some img then none else s.imageAt x)
    (hook : s'.hook = s.hook) (nextId : s'.nextId = s.nextId) : s'.Ready w := by
  have keep : ∀ {x img'}, img' ≠ img → s.imageAt x = some img' → s'.imageAt x = some img' := by
    intro x img' other mapped
    rw [imageAt, mapped, if_neg]
    exact fun same => other (Option.some.inj same)
  cases w with
  | restore h => exact ⟨keep relies ready.1, by rw [hook]; exact ready.2⟩
  | install slot target img' => exact ⟨keep relies ready.1, by rw [nextId]; exact ready.2⟩
  | base slot target =>
    show ∀ k ∈ slot, k < s'.nextId
    rw [nextId]
    exact ready
  | _ => trivial

theorem Excused.mono {s s' : UnloadState} {img : Image} (excused : s.Excused img)
    (unloading : s.unloading = some img → s'.unloading = some img)
    (sinceLock : s.sinceLock ⊆ s'.sinceLock) (missed : s.missed = true → s'.missed = true)
    (notified : s.notified = false → s'.notified = false) : s'.Excused img := by
  rcases excused with under | ⟨mem, flag⟩
  · exact Or.inl (unloading under)
  · exact Or.inr ⟨sinceLock mem, flag.imp missed notified⟩

theorem Seen.mono {s s' : UnloadState} {i : ℕ} {img : Image} {w : Option DelayHolder}
    (seen : s.Seen i img w) (unloading : s.unloading = some img → s'.unloading = some img)
    (sinceLock : s.sinceLock ⊆ s'.sinceLock) (missed : s.missed = true → s'.missed = true)
    (notified : s.notified = false → s'.notified = false) : s'.Seen i img w := by
  have excused : s.Excused img → s'.Excused img := fun e =>
    e.mono unloading sinceLock missed notified
  rcases w with _ | w
  · exact seen.imp unloading (Or.imp missed notified)
  · cases w with
    | swap task => exact seen.imp unloading (Or.imp missed notified)
    | flag task => exact seen.imp unloading (Or.imp notified (And.imp_right excused))
    | check k m task =>
      exact seen.imp (And.imp_right (Or.imp_right unloading)) (And.imp_right excused)
    | byte k task => exact seen.imp_right (And.imp_right excused)
    | body task => exact And.imp_right excused seen
    | _ => exact excused seen

/-- A hook that becomes stale is seen, if the holder neither relies on its image nor overlooks that
it is unloaded. -/
theorem Seen.of_excused {s s' : UnloadState} {i : ℕ} {h : DelayTarget} {holder : Option DelayHolder}
    (installed : s.hook i = some h) (excused : s'.Excused h.img)
    (notified : s'.notified = s.notified)
    (relies : ∀ w ∈ holder, ¬ w.Relies s h.img)
    (overlooks : ∀ w ∈ holder, s'.unloading = some h.img ∨ ¬ w.Overlooks s h.img) :
    s'.Seen i h.img holder := by
  rcases holder with _ | w
  · exact excused.flagged
  · have relies := relies w rfl
    have overlooks := overlooks w rfl
    cases w with
    | swap task => exact excused.flagged
    | flag task =>
      rcases overlooks with under | overlooks
      · exact Or.inl under
      · by_cases mine : task = .remove i
        · subst mine
          refine Or.inr (Or.inl ?_)
          rw [notified]
          cases flag : s.notified with
          | false => rfl
          | true => exact absurd ⟨flag, h, installed, rfl⟩ overlooks
        · exact Or.inr (Or.inr ⟨mine, excused⟩)
    | check k m task =>
      by_cases mine : task = .remove i
      · subst mine
        have ahead : k ≤ i := not_lt.mp fun passed => relies ⟨passed, h, installed, rfl⟩
        refine Or.inl ⟨ahead, ?_⟩
        cases m with
        | true => exact Or.inl rfl
        | false => exact Or.inr (overlooks.resolve_right fun o => o ⟨rfl, ahead, h, installed, rfl⟩)
      · exact Or.inr ⟨mine, excused⟩
    | byte k task =>
      by_cases mine : task = .remove i
      · subst mine
        exact Or.inl (not_lt.mp fun passed => relies ⟨passed, h, installed, rfl⟩)
      · exact Or.inr ⟨mine, excused⟩
    | body task =>
      refine ⟨?_, excused⟩
      rintro rfl
      exact relies ⟨h, installed, rfl⟩
    | _ => exact excused

theorem Sound.unmap {s : UnloadState} (S : s.Sound) {img : Image} (idle : s.unloading = none)
    (mapped : s.imageAt img.base = some img)
    (timed : ∀ w ∈ s.holder, ¬ w.Relies s img ∧ (s.registered = false → ¬ w.Overlooks s img))
    (a : UnloadAnswer) : ((UnloadCall.unmap img).access a s).1.Sound := by
  have P := S.placed
  have ready : ∀ {w}, s.holder = some w → s.Ready w ∧ ¬ w.Relies s img := fun {w} held =>
    ⟨S.ready held, (timed w held).1⟩
  simp only [UnloadCall.access]
  by_cases registered : s.registered = true
  · rw [if_pos registered]
    refine ⟨P.unmap mapped (some img) s.sinceLock fun img' is => (Option.some.inj is).symm,
      fun {i h} installed stale => ?_, fun {w} held => ?_⟩
    · rcases img_of_unmap stale with old | ⟨_, rfl⟩
      · refine (S.seen installed old).mono (fun under => ?_) (List.Subset.refl _) id id
        exact absurd (idle.symm.trans under) nofun
      · exact Seen.of_excused installed (Or.inl rfl) rfl (fun w held => (timed w held).1)
          fun w _ => Or.inl rfl
    · exact (ready held).1.unmap (ready held).2 (fun x => rfl) rfl rfl
  · have unset : s.notified = false := Bool.eq_false_iff.mpr fun flag => registered (P.notified flag)
    rw [if_neg registered]
    refine ⟨P.unmap mapped s.unloading (img :: s.sinceLock) fun img' is =>
        absurd (idle.symm.trans is) nofun, fun {i h} installed stale => ?_, fun {w} held => ?_⟩
    · rcases img_of_unmap stale with old | ⟨_, rfl⟩
      · exact (S.seen installed old).mono id (List.subset_cons_self _ _) id id
      · exact Seen.of_excused installed (Or.inr ⟨List.mem_cons_self, Or.inr unset⟩) rfl
          (fun w held => (timed w held).1)
          fun w held => Or.inr ((timed w held).2 (Bool.eq_false_iff.mpr registered))
    · exact (ready held).1.unmap (ready held).2 (fun x => rfl) rfl rfl

/-- A hook whose unload is reported stays seen, if the holder does not overlook it. -/
theorem Seen.notify {s s' : UnloadState} {i : ℕ} {h : DelayTarget} {w : DelayHolder}
    (seen : s.Seen i h.img (some w)) (installed : s.hook i = some h)
    (overlooks : ¬ w.Overlooks s h.img) (excused : s'.Excused h.img) (missed : s'.missed = true)
    (notified : s'.notified = s.notified) : s'.Seen i h.img (some w) := by
  cases w with
  | swap task => exact Or.inr (Or.inl missed)
  | flag task =>
    by_cases mine : task = .remove i
    · subst mine
      refine Or.inr (Or.inl ?_)
      rw [notified]
      cases flag : s.notified with
      | false => rfl
      | true => exact absurd ⟨flag, h, installed, rfl⟩ overlooks
    · exact Or.inr (Or.inr ⟨mine, excused⟩)
  | check k m task =>
    rcases seen with ⟨ahead, _⟩ | ⟨other, _⟩
    · cases m with
      | true => exact Or.inl ⟨ahead, Or.inl rfl⟩
      | false =>
        refine Or.inr ⟨?_, excused⟩
        rintro rfl
        exact overlooks ⟨rfl, ahead, h, installed, rfl⟩
    · exact Or.inr ⟨other, excused⟩
  | byte k task => exact seen.imp_right fun other => ⟨other.1, excused⟩
  | body task => exact ⟨seen.1, excused⟩
  | _ => exact excused

theorem Sound.notify {s : UnloadState} (S : s.Sound) {img : Image}
    (unloading : s.unloading = some img) (timed : ∀ w ∈ s.holder, ¬ w.Overlooks s img)
    (a : UnloadAnswer) : ((UnloadCall.notify img).access a s).1.Sound := by
  have P := S.placed
  cases held : s.holder with
  | none =>
    simp only [UnloadCall.access, onDllNotification, held]
    have kept : ∀ {i h}, (s.hook i).filter (fun h => ¬ img.Covers h.target) = some h →
        s.hook i = some h ∧ ¬ img.Covers h.target := by
      intro i h filtered
      simpa using Option.filter_eq_some_iff.mp filtered
    refine ⟨⟨P.images, fun here => P.hooks (kept here).1, fun here => P.bytes (kept here).1,
      fun one two => P.distinct (kept one).1 (kept two).1, fun under => absurd under nofun,
      P.notified, P.writes⟩, fun {i h} here stale => ?_, fun {w} is => ?_⟩
    · obtain ⟨installed, outside⟩ := kept here
      have seen := S.seen installed stale
      rw [held] at seen
      rcases seen with under | flagged
      · have own : img = h.img := Option.some.inj (unloading.symm.trans under)
        rw [own] at outside
        exact absurd (P.hooks installed).1 outside
      · exact Or.inr flagged
    · exact absurd is nofun
  | some w =>
    simp only [UnloadCall.access, onDllNotification, held]
    refine ⟨⟨P.images, P.hooks, P.bytes, P.distinct, fun under => absurd under nofun, P.notified,
      P.writes⟩, fun {i h} here stale => ?_, fun {v} is => ?_⟩
    · have seen := S.seen here stale
      rw [held] at seen
      by_cases own : h.img = img
      · subst own
        exact seen.notify here (timed w held) (Or.inr ⟨List.mem_cons_self, Or.inl rfl⟩) rfl rfl
      · refine seen.mono (fun under => ?_) (List.subset_cons_self _ _) (fun _ => rfl) id
        exact absurd (Option.some.inj (unloading.symm.trans under)).symm own
    · have ready := S.ready (held.trans is)
      cases v <;> exact ready

theorem Sound.setNotification {s : UnloadState} (S : s.Sound) {registered notified : Bool}
    (timed : notified = true →
      registered = true ∧ ∀ i < s.nextId, ∀ h ∈ s.hook i, ¬ s.Stale h) :
    { s with registered := registered, notified := notified }.Sound := by
  have P := S.placed
  refine ⟨⟨P.images, P.hooks, P.bytes, P.distinct, P.unmapped, fun set => (timed set).1, P.writes⟩,
    fun {i h} here stale => ?_, fun {w} held => ?_⟩
  · cases notified with
    | true => exact absurd stale ((timed rfl).2 i (P.hooks here).2.2.2 h here)
    | false => exact (S.seen here stale).mono id (List.Subset.refl _) id fun _ => rfl
  · have ready := S.ready held
    cases w <;> exact ready

/-! ### Whole runs -/

/-- Each step of a well-timed run keeps it. -/
theorem Sound.step {s : UnloadState} (S : s.Sound) {p : UnloadCall} {rest : Multiset UnloadCall}
    (timed : WellTimed s p rest) {a : UnloadAnswer} (answers : unloadMachine.answers s p a) :
    (p.access a s).1.Sound := by
  cases p with
  | want task =>
    have idle : s.holder = none := answers
    refine S.placed.go (fun i h here stale => ?_) ?_
    · have seen := S.seen here stale
      rw [idle] at seen
      exact seen
    · rintro w ⟨⟩
      trivial
  | hold =>
    simp only [UnloadCall.access]
    cases held : s.holder with
    | none => exact S
    | some w => exact S.access held a
  | load base size bytes =>
    obtain ⟨idle, nonzero, _, free⟩ := answers
    exact S.load idle nonzero free timed a
  | unmap img => exact S.unmap answers.1 answers.2 timed a
  | notify img => exact S.notify answers timed a
  | setNotification registered notified => exact S.setNotification timed

theorem Sound.reachable {s : UnloadState} {calls : Multiset UnloadCall}
    (run : Reachable unloadMachine.program WellTimed UnloadState.initial s calls) : s.Sound := by
  let sound : UnloadState → Multiset UnloadCall → Prop := fun s _ => s.Sound
  have start : sound UnloadState.initial 0 := .initial
  refine Reachable.invariant start (fun S _ => S) ?_ run
  rintro s s' p rest next S timed ⟨a, answers, moves⟩
  have kept := S.step timed answers
  rw [show p.access a s = (s', next) from moves] at kept
  exact kept

end UnloadState

/-- The holder of the lock is behind the validation of `lock_manager`. -/
def DelayHolder.Validated : DelayHolder → Prop
  | .swap _ | .flag _ | .check .. | .byte .. => False
  | .body _ | .restore _ | .resolve _ | .base .. | .install .. => True

/-- In every well-timed run each byte is written into the image of its hook.  A call that has
validated the hooks finds those pending whose image is gone, unless the unload is under way or was
reported since the call took `UNLOAD_MISSED`; and while the lock is free a hook whose image is gone
is about to be reported, or the flags make the next call look for it. -/
theorem delay_unloads {s : UnloadState} {calls : Multiset UnloadCall}
    (run : Reachable unloadMachine.program WellTimed UnloadState.initial s calls) :
    (∀ w ∈ s.writes, w = true) ∧
    (∀ w ∈ s.holder, w.Validated → ∀ i, ∀ h ∈ s.hook i, s.Stale h →
      s.unloading = some h.img ∨ h.img ∈ s.sinceLock) ∧
    (s.holder = none → ∀ i, ∀ h ∈ s.hook i, s.Stale h →
      s.unloading = some h.img ∨ s.missed = true ∨ s.notified = false) := by
  have S := UnloadState.Sound.reachable run
  refine ⟨S.placed.writes, fun w held validated i h here stale => ?_, fun free i h here stale => ?_⟩
  · have seen := S.seen here stale
    rw [show s.holder = some w from held] at seen
    have excused : s.Excused h.img := by
      cases w with
      | swap task => exact absurd validated id
      | flag task => exact absurd validated id
      | check k missed task => exact absurd validated id
      | byte k task => exact absurd validated id
      | body task => exact seen.2
      | _ => exact seen
    exact excused.imp_right And.left
  · have seen := S.seen here stale
    rw [free] at seen
    exact seen

/-- A module with a hook is unloaded while `is_active` has the lock, and is loaded again: the next
`unhook` writes nothing into it. -/
def missedMoves : List (Pool.Move UnloadCall UnloadAnswer) :=
  let go : Pool.Move UnloadCall UnloadAnswer := .step 0 ⟨some 104, true⟩
  [.enter (.load 100 16 fun _ => 0x40), go, .enter (.setNotification true true), go,
    .enter (.want .register), go, go, go, go, go, go, go, go, go,
    .enter (.want .isActive), go, go,
    .enter (.unmap ⟨0, 100, 16⟩), go, go, .enter (.load 100 16 fun _ => 0x50), go,
    go, go, go, go, go,
    .enter (.want (.remove 1)), go, go, go, go, go, go, go]

theorem missed_unload_forgotten :
    unloadMachine.AdmitsAll WellTimed (.initial, []) missedMoves ∧
    (unloadMachine.run (.initial, []) missedMoves).1.hook 1 = none ∧
    ∀ w ∈ (unloadMachine.run (.initial, []) missedMoves).1.writes, w = true := by
  have admits : unloadMachine.AdmitsAll WellTimed (.initial, []) missedMoves := by
    decide +kernel
  have pending : (unloadMachine.run (.initial, []) missedMoves).1.hook 1 = none := by
    decide +kernel
  exact ⟨admits, pending, (delay_unloads (Machine.reachable_schedule admits)).1⟩

/-! ### An unload between the validation and the write -/

/-- A module with a hook, and a call that has validated it and is about to restore its byte. -/
def removeMoves : List (Pool.Move UnloadCall UnloadAnswer) :=
  let go : Pool.Move UnloadCall UnloadAnswer := .step 0 ⟨some 104, true⟩
  [.enter (.load 100 16 fun _ => 0x40), go, .enter (.setNotification true true), go,
    .enter (.want .register), go, go, go, go, go, go, go, go, go,
    .enter (.want (.remove 1)), go, go, go, go, go, go, go]

/-- The module is unloaded, which is flagged, and loaded again before the byte is written. -/
def reloadMoves : List (Pool.Move UnloadCall UnloadAnswer) :=
  let go : Pool.Move UnloadCall UnloadAnswer := .step 0 ⟨some 104, true⟩
  [.enter (.unmap ⟨0, 100, 16⟩), go, go, .enter (.load 100 16 fun _ => 0x50), go, go]

/-- The byte of the old image is written into the new one. -/
theorem unloaded_module_written :
    ∃ s calls, Reachable unloadMachine.program (fun _ _ _ => True) UnloadState.initial s calls ∧
      false ∈ s.writes := by
  have admits : unloadMachine.AdmitsAll (fun _ _ _ => True) (.initial, [])
      (removeMoves ++ reloadMoves) := by
    decide +kernel
  have written : false ∈ (unloadMachine.run (.initial, []) (removeMoves ++ reloadMoves)).1.writes := by
    decide +kernel
  exact ⟨_, _, Machine.reachable_schedule admits, written⟩

end NeoHook
