import NeoHook.Queueing

/-!
# Stages of a call

A stage is the part of a view that the program's own objects determine: it knows neither the hooks
that were left in place nor the stubs that were leaked.  A call leads from stage to stage when every
view of the first one has a path to a view of the second.  The operations on a single hook are here.
-/

namespace NeoHook

open ByteMap

structure Stage where
  code : Code
  objs : Multiset InlineHook
  flight : Multiset InlineHook
  pend : Multiset InlineData
  traps : Multiset Int3Hook
  held : Multiset Region

/-- The stage is what the program sees of the view. -/
structure Stage.Sees (s : Stage) (v : View) : Prop where
  code : v.code = s.code
  objs : v.objs = s.objs
  flight : v.flight = s.flight
  pend : v.pend = s.pend
  traps : v.traps = s.traps
  held : s.held ≤ v.held

/-- Moves that the rules allow lead from one stage to the other. -/
def Leads (R : Rules) (foreign : List Region) (s s' : Stage) : Prop :=
  ∀ v : View, Base v → s.Sees v → ∃ v', Path R foreign v v' ∧ s'.Sees v'

variable {R : Rules} {foreign : List Region}

namespace Leads

theorem refl (s : Stage) : Leads R foreign s s := fun v _ sees => ⟨v, .refl, sees⟩

theorem trans {s s' s'' : Stage} (h : Leads R foreign s s') (h' : Leads R foreign s' s'') :
    Leads R foreign s s'' := by
  intro v base sees
  obtain ⟨v₁, path, sees₁⟩ := h v base sees
  obtain ⟨v₂, path', sees₂⟩ := h' v₁ (base.path path) sees₁
  exact ⟨v₂, path.trans path', sees₂⟩

/-- A stage that refers to fewer stubs is seen as well. -/
theorem forget {s s' : Stage} (h : Leads R foreign s s') {held : Multiset Region}
    (le : held ≤ s'.held) : Leads R foreign s { s' with held := held } := by
  intro v base sees
  obtain ⟨v', path, sees'⟩ := h v base sees
  exact ⟨v', path, sees'.code, sees'.objs, sees'.flight, sees'.pend, sees'.traps,
    le.trans sees'.held⟩

/-- What every view of the stage satisfies may be used. -/
theorem of_base {s s' : Stage} {P : Prop} (fact : ∀ {v}, Base v → s.Sees v → P)
    (h : P → Leads R foreign s s') : Leads R foreign s s' :=
  fun v base sees => h (fact base sees) v base sees

end Leads

section

variable {c : Code} {objs flight : Multiset InlineHook} {pend : Multiset InlineData}
  {traps : Multiset Int3Hook} {held : Multiset Region} {h : InlineHook}

/-! ### Single moves -/

theorem leads_fill {r : Region} {a : ℕ} {bs : List UInt8} (mem : r ∈ held) (lo : r.base ≤ a)
    (hi : a + bs.length ≤ r.base + pageSize) (exports : R.exports) :
    Leads R foreign ⟨c, objs, flight, pend, traps, held⟩
      ⟨c.store a bs none, objs, flight, pend, traps, held⟩ := by
  rintro v base ⟨rfl, rfl, rfl, rfl, rfl, le⟩
  have mem' : r ∈ v.held := Multiset.mem_of_le le mem
  have real := base.own.real r (base.own.held_mem mem')
  have page := Region.page_le_mapped real.2
  exact ⟨_, .single (.fill mem' lo (by omega) (R.write_of_exports exports _ _ _ _ _)), rfl, rfl, rfl,
    rfl, rfl, le⟩

theorem leads_discard {t : Trampoline} :
    Leads R foreign ⟨c, objs, flight, pend, traps, t.region ::ₘ held⟩
      ⟨c.dropTrampoline t, objs, flight, pend, traps, held⟩ := by
  rintro v base ⟨rfl, rfl, rfl, rfl, rfl, le⟩
  obtain ⟨rest, eq⟩ := Multiset.exists_cons_of_mem (Multiset.mem_of_le le (Multiset.mem_cons_self _ _))
  have real := base.own.real _ (base.own.held_mem (eq ▸ Multiset.mem_cons_self _ _))
  refine ⟨_, discard_path eq real.1, rfl, rfl, rfl, rfl, rfl, ?_⟩
  rw [eq] at le
  exact (Multiset.cons_le_cons_iff _).1 le

theorem leads_giveUp {d : InlineData} :
    Leads R foreign ⟨c, objs, flight, d ::ₘ pend, traps, held⟩
      ⟨d.drop c, objs, flight, pend, traps, held⟩ := by
  rintro v - ⟨rfl, rfl, rfl, pending, rfl, le⟩
  exact ⟨_, .single (.giveUp pending), rfl, rfl, rfl, rfl, rfl, le⟩

theorem leads_publish :
    Leads R foreign ⟨c, objs, h ::ₘ flight, pend, traps, held⟩
      ⟨(publishInline c h).1, h.announced ::ₘ objs, flight, pend, traps, held⟩ := by
  rintro v - ⟨rfl, rfl, inFlight, rfl, rfl, le⟩
  exact ⟨_, .single (.publish inFlight), rfl, rfl, rfl, rfl, rfl, le⟩

theorem leads_undo :
    Leads R foreign ⟨c, objs, h ::ₘ flight, pend, traps, held⟩
      ⟨c.store h.target h.origBytes none, objs, h.disabled ::ₘ flight, pend, traps, held⟩ := by
  rintro v - ⟨rfl, rfl, inFlight, rfl, rfl, le⟩
  exact ⟨_, .single (.undo inFlight), rfl, rfl, rfl, rfl, rfl, le⟩

theorem leads_unravel (off : h.enabled = false) :
    Leads R foreign ⟨c, objs, h ::ₘ flight, pend, traps, held⟩
      ⟨h.dispose c, objs, flight, pend, traps, held⟩ := by
  rintro v - ⟨rfl, rfl, inFlight, rfl, rfl, le⟩
  exact ⟨_, .single (.unravel inFlight off), rfl, rfl, rfl, rfl, rfl, le⟩

theorem leads_strandFlight (rule : R.strand h) :
    Leads R foreign ⟨c, objs, h ::ₘ flight, pend, traps, held⟩
      ⟨c, objs, flight, pend, traps, held⟩ := by
  rintro v - ⟨rfl, rfl, inFlight, rfl, rfl, le⟩
  exact ⟨_, .single (.strandFlight inFlight rule), rfl, rfl, rfl, rfl, rfl, le⟩

theorem leads_restore (active : h.active = true) :
    Leads R foreign ⟨c, h ::ₘ objs, flight, pend, traps, held⟩
      ⟨c.store h.target h.origBytes none, h.disabled ::ₘ objs, flight, pend, traps, held⟩ := by
  rintro v - ⟨rfl, inObjs, rfl, rfl, rfl, le⟩
  exact ⟨_, .single (.restore inObjs active), rfl, rfl, rfl, rfl, rfl, le⟩

theorem leads_enable (active : h.active = true) (off : h.enabled = false) :
    Leads R foreign ⟨c, h ::ₘ objs, flight, pend, traps, held⟩
      ⟨c.store h.target h.patchBytes (some (h.mark c)), h.reenabled ::ₘ objs, flight, pend, traps,
        held⟩ := by
  rintro v - ⟨rfl, inObjs, rfl, rfl, rfl, le⟩
  exact ⟨_, .single (.enable inObjs active off), rfl, rfl, rfl, rfl, rfl, le⟩

theorem leads_detach (off : h.enabled = false) (rule : R.detach c h.trampoline.ptr) :
    Leads R foreign ⟨c, h ::ₘ objs, 0, pend, traps, held⟩
      ⟨(h.release c).1.unregisterManagedGateway h.trampoline.ptr, h.inert ::ₘ objs, 0, pend, traps,
        held⟩ := by
  rintro v - ⟨rfl, inObjs, quiet, rfl, rfl, le⟩
  exact ⟨_, .single (.detach inObjs quiet off rule), rfl, rfl, quiet, rfl, rfl, le⟩

theorem leads_remove (off : h.enabled = false) :
    Leads R foreign ⟨c, h ::ₘ objs, 0, pend, traps, held⟩
      ⟨h.dispose (h.release c).1, objs, 0, pend, traps, held⟩ := by
  rintro v - ⟨rfl, inObjs, quiet, rfl, rfl, le⟩
  exact ⟨_, .single (.remove inObjs quiet off), rfl, rfl, quiet, rfl, rfl, le⟩

theorem leads_strand (active : h.active = true) (rule : R.strand h) :
    Leads R foreign ⟨c, h ::ₘ objs, flight, pend, traps, held⟩
      ⟨c, objs, flight, pend, traps, held⟩ := by
  rintro v - ⟨rfl, inObjs, rfl, rfl, rfl, le⟩
  exact ⟨_, .single (.strand inObjs active rule), rfl, rfl, rfl, rfl, rfl, le⟩

end

/-! ### Inline hooks -/

namespace InlineHook

variable {c c' : Code} {h h' : InlineHook} {ok : Bool}

theorem patchTarget_ok {target : ℕ} {bytes : List UInt8} {mark : Option JumpMark}
    (eq : patchTarget c target bytes mark ok = .ok c') : c' = c.store target bytes mark := by
  unfold patchTarget Code.writeCodeBytes at eq
  split_ifs at eq
  simp only [Except.ok.injEq] at eq
  exact eq.symm

theorem disable_ok (eq : h.disable c ok = .ok (c', h')) :
    (h.enabled = false ∧ c' = c ∧ h' = h) ∨
      (h.enabled = true ∧ c' = c.store h.target h.origBytes none ∧ h' = h.disabled) := by
  unfold disable at eq
  split_ifs at eq with off
  · simp only [Except.ok.injEq, Prod.mk.injEq] at eq
    exact .inl ⟨off, eq.1.symm, eq.2.symm⟩
  · cases patched : patchTarget c h.target h.origBytes none ok with
    | error e => simp [patched, bind, Except.bind] at eq
    | ok c₁ =>
      simp only [patched, bind, Except.bind, pure, Except.pure, Except.ok.injEq,
        Prod.mk.injEq] at eq
      exact .inr ⟨by simpa using off, eq.1 ▸ patchTarget_ok patched, eq.2.symm⟩

theorem enable_ok (eq : h.enable c ok = .ok (c', h')) :
    h.active = true ∧ ((h.enabled = true ∧ c' = c ∧ h' = h) ∨
      (h.enabled = false ∧ c' = c.store h.target h.patchBytes (some (h.mark c)) ∧
        h' = h.reenabled)) := by
  unfold enable at eq
  split_ifs at eq with inactive on
  · simp only [Except.ok.injEq, Prod.mk.injEq] at eq
    exact ⟨by simpa using inactive, .inl ⟨on, eq.1.symm, eq.2.symm⟩⟩
  · cases patched : patchTarget c h.target h.patchBytes (some (h.mark c)) ok with
    | error e => simp [patched, bind, Except.bind] at eq
    | ok c₁ =>
      simp only [patched, bind, Except.bind, pure, Except.pure, Except.ok.injEq,
        Prod.mk.injEq] at eq
      exact ⟨by simpa using inactive, .inr ⟨by simpa using on, eq.1 ▸ patchTarget_ok patched,
        eq.2.symm⟩⟩

/-- Only the write itself can fail when the bytes of a well-formed hook are restored. -/
theorem performUnhook_eq (shaped : h.Shaped) :
    h.performUnhook c ok = if ok then .ok (c.store h.target h.origBytes none)
      else .error .relocationFailed := by
  unfold performUnhook Code.writeCodeBytes
  rw [if_neg (by simp [shaped.target, shaped.orig])]
  cases ok with
  | true => simp [shaped.target, shaped.orig_ne_nil]
  | false => simp

theorem release_trampoline (c : Code) (h : InlineHook) :
    (h.release c).2.trampoline = h.trampoline := by
  unfold release
  split_ifs <;> rfl

theorem release_disabled (c : Code) (h : InlineHook) :
    (h.disabled.release c).1 = (h.release c).1 := by
  unfold release disabled
  cases h.published <;> rfl

theorem dispose_congr {c : Code} {h h' : InlineHook} (stub : h'.trampoline = h.trampoline) :
    h'.dispose c = h.dispose c := by
  unfold dispose
  rw [stub]

theorem dispose_unregister (c : Code) (h : InlineHook) :
    h.dispose (c.unregisterManagedGateway h.trampoline.ptr) = h.dispose c := by
  have same : (c.unregisterManagedGateway h.trampoline.ptr).unregisterManagedGateway
      h.trampoline.ptr = c.unregisterManagedGateway h.trampoline.ptr := by
    simp [Code.unregisterManagedGateway]
  unfold dispose
  rw [same]

theorem drop_inactive (inactive : h.active = false) :
    h.drop c ok = h.dispose (h.release c).1 := by
  unfold drop
  rw [if_neg (by simp [inactive])]
  exact dispose_congr (release_trampoline c h)

theorem drop_restored (shaped : h.Shaped) (active : h.active = true) :
    h.drop c true = h.dispose (h.release (c.store h.target h.origBytes none)).1 := by
  unfold drop
  rw [if_pos active, performUnhook_eq shaped]
  exact dispose_congr (release_trampoline _ h)

theorem drop_stuck (shaped : h.Shaped) (active : h.active = true) : h.drop c false = c := by
  unfold drop
  rw [if_pos active, performUnhook_eq shaped]
  rfl

theorem unhook_restored {dropOk : Bool} (shaped : h.Shaped) (active : h.active = true) :
    (h.unhook c true dropOk).2 = h.dispose (h.release (c.store h.target h.origBytes none)).1 := by
  let c₁ := c.store h.target h.origBytes none
  have stub := release_trampoline c₁ h
  have withdrawn : (h.release c₁).2.published = false := by
    unfold release
    split_ifs with pub
    · exact pub
    · rfl
  have done : (h.unhook c true dropOk).2 =
      drop ((h.release c₁).1.unregisterManagedGateway (h.release c₁).2.trampoline.ptr)
        { (h.release c₁).2 with active := false } dropOk := by
    unfold unhook
    rw [if_neg (by simp [active]), performUnhook_eq shaped]
    rfl
  rw [done, drop_inactive rfl, release_unpublished (by exact withdrawn), stub,
    dispose_congr (h := h) (by exact stub), dispose_unregister]

theorem unhook_failed {dropOk : Bool} (shaped : h.Shaped) (active : h.active = true) :
    (h.unhook c false dropOk).2 = h.drop c dropOk := by
  unfold unhook
  rw [if_neg (by simp [active]), performUnhook_eq shaped]
  rfl

theorem unhook_inactive {dropOk : Bool} (inactive : h.active = false) :
    (h.unhook c ok dropOk).2 = h.drop c dropOk := by
  unfold unhook
  rw [if_pos inactive]

variable {objs flight : Multiset InlineHook} {pend : Multiset InlineData}
  {traps : Multiset Int3Hook} {held : Multiset Region}

theorem leads_disable (eq : h.disable c ok = .ok (c', h')) :
    Leads R foreign ⟨c, h ::ₘ objs, flight, pend, traps, held⟩
      ⟨c', h' ::ₘ objs, flight, pend, traps, held⟩ := by
  obtain ⟨-, rfl, rfl⟩ | ⟨on, rfl, rfl⟩ := disable_ok eq
  · exact .refl _
  · refine .of_base (fun base sees => ?_) fun active => leads_restore active
    exact (base.shapes.objs h (sees.objs ▸ Multiset.mem_cons_self _ _)).2.2 on

theorem leads_enable (eq : h.enable c ok = .ok (c', h')) :
    Leads R foreign ⟨c, h ::ₘ objs, flight, pend, traps, held⟩
      ⟨c', h' ::ₘ objs, flight, pend, traps, held⟩ := by
  obtain ⟨active, ⟨-, rfl, rfl⟩ | ⟨off, rfl, rfl⟩⟩ := enable_ok eq
  · exact .refl _
  · exact NeoHook.leads_enable active off

/-- What is known of a hook the program holds. -/
theorem shaped_of_objs {s : Stage} {v : View} (base : Base v) (sees : s.Sees v) (mem : h ∈ s.objs) :
    h.Shaped ∧ (h.active = false → h.enabled = false) := by
  obtain ⟨shaped, -, on⟩ := base.shapes.objs h (sees.objs ▸ mem)
  refine ⟨shaped, fun inactive => ?_⟩
  cases enabled : h.enabled with
  | true => exact absurd (on enabled) (by simp [inactive])
  | false => rfl

theorem leads_takeOut (active : h.active = true) :
    Leads R foreign ⟨c, h ::ₘ objs, 0, pend, traps, held⟩
      ⟨h.dispose (h.release (c.store h.target h.origBytes none)).1, objs, 0, pend, traps, held⟩ := by
  let c₁ := c.store h.target h.origBytes none
  have gone : Leads R foreign ⟨c₁, h.disabled ::ₘ objs, 0, pend, traps, held⟩
      ⟨h.dispose (h.disabled.release c₁).1, objs, 0, pend, traps, held⟩ :=
    leads_remove (h := h.disabled) rfl
  rw [release_disabled] at gone
  exact (leads_restore active).trans gone

theorem leads_drop (rule : h.active = true → ok = false → R.strand h) :
    Leads R foreign ⟨c, h ::ₘ objs, 0, pend, traps, held⟩
      ⟨h.drop c ok, objs, 0, pend, traps, held⟩ := by
  refine .of_base (fun base sees => shaped_of_objs base sees (Multiset.mem_cons_self _ _))
    fun ⟨shaped, idle⟩ => ?_
  cases active : h.active with
  | false =>
    rw [drop_inactive active]
    exact leads_remove (idle active)
  | true =>
    cases ok with
    | false =>
      rw [drop_stuck shaped active]
      exact leads_strand active (rule active rfl)
    | true =>
      rw [drop_restored shaped active]
      exact leads_takeOut active

theorem leads_unhook {dropOk : Bool}
    (rule : h.active = true → ok = false → dropOk = false → R.strand h) :
    Leads R foreign ⟨c, h ::ₘ objs, 0, pend, traps, held⟩
      ⟨(h.unhook c ok dropOk).2, objs, 0, pend, traps, held⟩ := by
  refine .of_base (fun base sees => shaped_of_objs base sees (Multiset.mem_cons_self _ _))
    fun ⟨shaped, _⟩ => ?_
  cases active : h.active with
  | false =>
    rw [unhook_inactive active]
    exact leads_drop fun on => absurd on (by simp [active])
  | true =>
    cases ok with
    | false =>
      rw [unhook_failed shaped active]
      exact leads_drop fun _ => rule active rfl
    | true =>
      rw [unhook_restored shaped active]
      exact leads_takeOut active

theorem detachFinalize_disabled (off : h.enabled = false) :
    (h.detachFinalize c ok).1 =
        (h.release c).1.unregisterManagedGateway h.trampoline.ptr ∧
      (h.detachFinalize c ok).2 = h.inert := by
  unfold detachFinalize release inert
  cases pub : h.published with
  | false => simp [off, pub]
  | true => simp [off, pub]

theorem leads_detachFinalize (off : h.enabled = false) (rule : R.detach c h.trampoline.ptr) :
    Leads R foreign ⟨c, h ::ₘ objs, 0, pend, traps, held⟩
      ⟨(h.detachFinalize c ok).1, (h.detachFinalize c ok).2 ::ₘ objs, 0, pend, traps, held⟩ := by
  obtain ⟨code, hook⟩ : _ ∧ (h.detachFinalize c ok).2 = h.inert := detachFinalize_disabled off
  rw [code, hook]
  exact leads_detach off rule

/-- A hook of a failed commit is dropped. -/
theorem leads_dropFlight (rule : ok = false → h.published = false → R.strand h) :
    Leads R foreign ⟨c, objs, h ::ₘ flight, pend, traps, held⟩
      ⟨h.drop c ok, objs, flight, pend, traps, held⟩ := by
  refine .of_base (fun base sees => base.shapes.flight h (sees.flight ▸ Multiset.mem_cons_self _ _))
    fun ⟨shaped, active, pub⟩ => ?_
  cases ok with
  | false =>
    rw [drop_stuck shaped active]
    exact leads_strandFlight (rule rfl pub)
  | true =>
    rw [drop_restored shaped active, release_unpublished pub]
    exact leads_undo.trans (leads_unravel rfl)

end InlineHook

/-! ### Hooks of any kind -/

theorem map_eq_ok {ε α β : Type*} {f : α → β} {x : Except ε α} {b : β} :
    x.map f = .ok b ↔ ∃ a, x = .ok a ∧ f a = b := by
  cases x <;> simp [Except.map]

theorem EatHook.disable_stub {t t' : Tables} {h h' : EatHook} {ok : Bool}
    (eq : h.disable t ok = .ok (t', h')) : h'.stub = h.stub := by
  unfold EatHook.disable at eq
  split_ifs at eq with off
  · simp only [Except.ok.injEq, Prod.mk.injEq] at eq
    rw [eq.2]
  · cases written : writeExportRva t h.slotPtr h.originalRva ok with
    | error e => simp [written, bind, Except.bind] at eq
    | ok t₁ =>
      simp only [written, bind, Except.bind, pure, Except.pure, Except.ok.injEq,
        Prod.mk.injEq] at eq
      rw [← eq.2]

theorem EatHook.enable_stub {t t' : Tables} {h h' : EatHook} {ok : Bool}
    (eq : h.enable t ok = .ok (t', h')) : h'.stub = h.stub := by
  unfold EatHook.enable at eq
  split_ifs at eq with inactive on
  · simp only [Except.ok.injEq, Prod.mk.injEq] at eq
    rw [eq.2]
  · cases written : writeExportRva t h.slotPtr h.detourRva ok with
    | error e => simp [written, bind, Except.bind] at eq
    | ok t₁ =>
      simp only [written, bind, Except.bind, pure, Except.pure, Except.ok.injEq,
        Prod.mk.injEq] at eq
      rw [← eq.2]

theorem EatHook.drop_stub (t : Tables) (h : EatHook) (ok : Bool) :
    (h.drop t ok).2 = none ∨ (h.drop t ok).2 = h.stub := by
  unfold EatHook.drop
  split_ifs
  · exact .inl rfl
  · exact .inr rfl
  · cases h.performUnhook t ok
    · exact .inl rfl
    · exact .inr rfl

theorem EatHook.unhook_stub (t : Tables) (h : EatHook) (ok dropOk : Bool) :
    (h.unhook t ok dropOk).2.2 = none ∨ (h.unhook t ok dropOk).2.2 = h.stub := by
  unfold EatHook.unhook
  split_ifs
  · exact drop_stub t h dropOk
  · cases h.performUnhook t ok with
    | error e => exact drop_stub t h dropOk
    | ok t' => exact drop_stub t' { h with active := false } dropOk

namespace Hook

/-- The hook itself, when it is an inline hook. -/
def objs (h : Hook) : Multiset InlineHook := (h.inlineHook.toList : Multiset InlineHook)

/-- The stub of an export hook. -/
def stubs (h : Hook) : Multiset Region :=
  (h.exportStub.toList.map Trampoline.region : Multiset Region)

@[simp] theorem objs_inline (h : InlineHook) : (Hook.inline h).objs = {h} := rfl

@[simp] theorem stubs_inline (h : InlineHook) : (Hook.inline h).stubs = 0 := rfl

theorem objs_of_none {h : Hook} (none : h.inlineHook = none) : h.objs = 0 := by
  simp [objs, none]

/-- An inline hook is not enabled. -/
def Idle (h : Hook) : Prop := ∀ i, h.inlineHook = some i → i.enabled = false

/-- The hook has kept its stubs. -/
structure SameStubs (h h' : Hook) : Prop where
  exportStub : h'.exportStub = h.exportStub
  trampoline : h'.inlineHook.map (·.trampoline) = h.inlineHook.map (·.trampoline)

theorem SameStubs.refl (h : Hook) : SameStubs h h := ⟨rfl, rfl⟩

theorem SameStubs.stubs {h h' : Hook} (same : SameStubs h h') : h'.stubs = h.stubs := by
  unfold Hook.stubs
  rw [same.exportStub]

section

variable {M : Modules} {c c' : Code} {t t' : Tables} {ok retargetOk : Bool} {hook hook' : Hook}
  {objs flight : Multiset InlineHook} {pend : Multiset InlineData} {traps : Multiset Int3Hook}
  {held : Multiset Region}

theorem disable_spec (eq : hook.disable M c t ok = .ok (c', t', hook')) :
    SameStubs hook hook' ∧ hook'.Idle ∧
      Leads R foreign ⟨c, hook.objs + objs, flight, pend, traps, held⟩
        ⟨c', hook'.objs + objs, flight, pend, traps, held⟩ := by
  cases hook with
  | inline h =>
    obtain ⟨⟨c₁, h₁⟩, disabled, eq⟩ := map_eq_ok.1 eq
    simp only [Prod.mk.injEq] at eq
    obtain ⟨rfl, rfl, rfl⟩ := eq
    refine ⟨⟨rfl, ?_⟩, ?_, InlineHook.leads_disable disabled⟩
    · obtain ⟨-, -, rfl⟩ | ⟨-, -, rfl⟩ := InlineHook.disable_ok disabled <;> rfl
    · rintro i ⟨rfl⟩
      obtain ⟨off, -, rfl⟩ | ⟨-, -, rfl⟩ := InlineHook.disable_ok disabled
      · exact off
      · rfl
  | eat h =>
    obtain ⟨⟨t₁, h₁⟩, disabled, eq⟩ := map_eq_ok.1 eq
    simp only [Prod.mk.injEq] at eq
    obtain ⟨rfl, rfl, rfl⟩ := eq
    exact ⟨⟨EatHook.disable_stub disabled, rfl⟩, by rintro _ ⟨⟩, .refl _⟩
  | iat h | vtable h | vtableInstance h =>
    obtain ⟨⟨t₁, h₁⟩, -, eq⟩ := map_eq_ok.1 eq
    simp only [Prod.mk.injEq] at eq
    obtain ⟨rfl, rfl, rfl⟩ := eq
    exact ⟨⟨rfl, rfl⟩, by rintro _ ⟨⟩, .refl _⟩

theorem enable_spec (eq : hook.enable M c t ok = .ok (c', t', hook')) :
    SameStubs hook hook' ∧
      Leads R foreign ⟨c, hook.objs + objs, flight, pend, traps, held⟩
        ⟨c', hook'.objs + objs, flight, pend, traps, held⟩ := by
  cases hook with
  | inline h =>
    obtain ⟨⟨c₁, h₁⟩, enabled, eq⟩ := map_eq_ok.1 eq
    simp only [Prod.mk.injEq] at eq
    obtain ⟨rfl, rfl, rfl⟩ := eq
    refine ⟨⟨rfl, ?_⟩, InlineHook.leads_enable enabled⟩
    obtain ⟨-, ⟨-, -, rfl⟩ | ⟨-, -, rfl⟩⟩ := InlineHook.enable_ok enabled <;> rfl
  | eat h =>
    obtain ⟨⟨t₁, h₁⟩, enabled, eq⟩ := map_eq_ok.1 eq
    simp only [Prod.mk.injEq] at eq
    obtain ⟨rfl, rfl, rfl⟩ := eq
    exact ⟨⟨EatHook.enable_stub enabled, rfl⟩, .refl _⟩
  | iat h | vtable h | vtableInstance h =>
    obtain ⟨⟨t₁, h₁⟩, -, eq⟩ := map_eq_ok.1 eq
    simp only [Prod.mk.injEq] at eq
    obtain ⟨rfl, rfl, rfl⟩ := eq
    exact ⟨⟨rfl, rfl⟩, .refl _⟩

/-- A leaked export stub is pointed at the original export. -/
theorem leads_retireStub {stub : Option Trampoline} {originalPtr : ℕ}
    (mem : ∀ t, stub = some t → t.region ∈ held) (exports : stub ≠ none → R.exports) :
    Leads R foreign ⟨c, objs, flight, pend, traps, held⟩
      ⟨c.retireStub stub originalPtr ok, objs, flight, pend, traps, held⟩ := by
  cases stub with
  | none => exact .refl _
  | some t =>
    cases ok with
    | false => exact .refl _
    | true =>
      refine leads_fill (mem t rfl) (Nat.le_add_right _ _) ?_ (exports (by simp))
      change t.ptr + 6 + (leBytes 8 originalPtr).length ≤ t.ptr + pageSize
      rw [length_leBytes]
      unfold pageSize
      omega

/-- An export hook that keeps its stub or leaks it after pointing it at the original export. -/
theorem leads_leak {stub left : Option Trampoline} {originalPtr : ℕ}
    (given : left = none ∨ left = stub) (exports : stub ≠ none → R.exports) :
    Leads R foreign
      ⟨c, objs, flight, pend, traps, (stub.toList.map Trampoline.region : Multiset Region) + held⟩
      ⟨c.retireStub left originalPtr ok, objs, flight, pend, traps,
        (stub.toList.map Trampoline.region : Multiset Region) + held⟩ := by
  obtain rfl | rfl := given
  · exact .refl _
  · refine leads_retireStub (fun t eq => ?_) exports
    subst eq
    exact Multiset.mem_add.2 (.inl (by simp))

theorem leads_drop (rule : ∀ h, hook = .inline h → h.active = true → ok = false → R.strand h)
    (exports : hook.exportStub ≠ none → R.exports) :
    Leads R foreign ⟨c, hook.objs + objs, 0, pend, traps, hook.stubs + held⟩
      ⟨(hook.drop M c t ok retargetOk).1, objs, 0, pend, traps, held⟩ := by
  cases hook with
  | inline h =>
    rw [objs_inline, stubs_inline, Multiset.singleton_add, Multiset.zero_add]
    exact InlineHook.leads_drop (rule h rfl)
  | eat h =>
    rw [objs_of_none rfl, Multiset.zero_add]
    exact (leads_leak (EatHook.drop_stub t h ok) exports).forget (Multiset.le_add_left _ _)
  | iat h | vtable h | vtableInstance h =>
    rw [objs_of_none rfl, Multiset.zero_add]
    exact (Leads.refl _).forget (Multiset.le_add_left _ _)

theorem leads_unhook {dropOk : Bool}
    (rule : ∀ h, hook = .inline h → h.active = true → ok = false → dropOk = false → R.strand h)
    (exports : hook.exportStub ≠ none → R.exports) :
    Leads R foreign ⟨c, hook.objs + objs, 0, pend, traps, hook.stubs + held⟩
      ⟨(hook.unhook M c t ok dropOk retargetOk).1, objs, 0, pend, traps, held⟩ := by
  cases hook with
  | inline h =>
    rw [objs_inline, stubs_inline, Multiset.singleton_add, Multiset.zero_add]
    exact InlineHook.leads_unhook (rule h rfl)
  | eat h =>
    rw [objs_of_none rfl, Multiset.zero_add]
    exact (leads_leak (EatHook.unhook_stub t h ok dropOk) exports).forget (Multiset.le_add_left _ _)
  | iat h | vtable h | vtableInstance h =>
    rw [objs_of_none rfl, Multiset.zero_add]
    exact (Leads.refl _).forget (Multiset.le_add_left _ _)

/-- A hook of a failed commit is dropped. -/
theorem leads_dropFlight
    (rule : ∀ h, hook = .inline h → ok = false → h.published = false → R.strand h)
    (exports : hook.exportStub ≠ none → R.exports) :
    Leads R foreign ⟨c, objs, hook.objs + flight, pend, traps, hook.stubs + held⟩
      ⟨(hook.drop M c t ok retargetOk).1, objs, flight, pend, traps, held⟩ := by
  cases hook with
  | inline h =>
    rw [objs_inline, stubs_inline, Multiset.singleton_add, Multiset.zero_add]
    exact InlineHook.leads_dropFlight (rule h rfl)
  | eat h =>
    rw [objs_of_none rfl, Multiset.zero_add]
    exact (leads_leak (EatHook.drop_stub t h ok) exports).forget (Multiset.le_add_left _ _)
  | iat h | vtable h | vtableInstance h =>
    rw [objs_of_none rfl, Multiset.zero_add]
    exact (Leads.refl _).forget (Multiset.le_add_left _ _)

/-- What a finished detach leaves of a hook. -/
structure Detached (h h' : Hook) : Prop where
  idle : h'.Idle
  inactive : ∀ i, h'.inlineHook = some i → i.active = false
  exportStub : h'.exportStub = none ∨ h'.exportStub = h.exportStub
  trampoline : h'.inlineHook.map (·.trampoline) = h.inlineHook.map (·.trampoline)

theorem detachFinalize_spec (idle : hook.Idle)
    (rule : ∀ h, hook = .inline h → R.detach c h.trampoline.ptr)
    (exports : hook.exportStub ≠ none → R.exports) :
    Detached hook (hook.detachFinalize M c t ok retargetOk).2.2 ∧
      Leads R foreign ⟨c, hook.objs + objs, 0, pend, traps, hook.stubs + held⟩
        ⟨(hook.detachFinalize M c t ok retargetOk).1,
          (hook.detachFinalize M c t ok retargetOk).2.2.objs + objs, 0, pend, traps,
          (hook.detachFinalize M c t ok retargetOk).2.2.stubs + held⟩ := by
  cases hook with
  | inline h =>
    have off := idle h rfl
    obtain ⟨-, inert⟩ : _ ∧ (h.detachFinalize c ok).2 = h.inert :=
      InlineHook.detachFinalize_disabled off
    refine ⟨⟨?_, ?_, .inr rfl, ?_⟩, ?_⟩
    · rintro i ⟨rfl⟩
      rw [inert]
      rfl
    · rintro i ⟨rfl⟩
      rw [inert]
      rfl
    · simp only [detachFinalize, inlineHook, inert]
      rfl
    · exact InlineHook.leads_detachFinalize off (rule h rfl)
  | eat h =>
    have given : ((h.detachFinalize t ok).2.2 = none ∨ (h.detachFinalize t ok).2.2 = h.stub) ∧
        ((h.detachFinalize t ok).2.1.stub = none ∨ (h.detachFinalize t ok).2.1.stub = h.stub) := by
      unfold EatHook.detachFinalize
      cases disabled : h.disable t ok with
      | error e => exact ⟨.inl rfl, .inr rfl⟩
      | ok r =>
        obtain ⟨t₁, h₁⟩ := r
        have same := EatHook.disable_stub disabled
        simp only
        split_ifs
        · exact ⟨.inr same, .inl rfl⟩
        · exact ⟨.inl rfl, .inr same⟩
    refine ⟨⟨by rintro _ ⟨⟩, by rintro _ ⟨⟩, given.2, rfl⟩, ?_⟩
    refine (leads_leak given.1 exports).forget (Multiset.add_le_add_right ?_)
    obtain none | same := given.2
    · simp only [stubs, exportStub, detachFinalize, none]
      exact Multiset.zero_le _
    · simp only [stubs, exportStub, detachFinalize, same]
      rfl
  | iat h | vtable h | vtableInstance h =>
    exact ⟨⟨by rintro _ ⟨⟩, by rintro _ ⟨⟩, .inr rfl, rfl⟩, .refl _⟩

end

end Hook

end NeoHook
