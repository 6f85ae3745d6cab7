import NeoHook.Installing

/-!
# Committing, move by move

The end of `commit` and the whole of it as a sequence of moves: the rollback of a failed commit, and
the publication and the finished detaches of a successful one.
-/

namespace NeoHook

open ByteMap

variable {R : Rules} {foreign : List Region}

/-! ### Rolling back -/

section

variable {M : Modules} {os : CommitOs} {p : Process} {new flight : Multiset InlineHook}
  {pend : Multiset InlineData} {traps : Multiset Int3Hook} {held : Multiset Region}

theorem rollbackDetach_spec (target : Place) (wasEnabled ok : Bool) (p : Process)
    (exports : ExportsOk R p.installed) :
    ExportsOk R (rollbackDetach M p target wasEnabled ok).installed ∧
      Leads R foreign (p.stage new flight pend traps held)
        ((rollbackDetach M p target wasEnabled ok).stage new flight pend traps held) := by
  unfold rollbackDetach
  cases present : p.hookAt target with
  | none => exact ⟨exports, .refl _⟩
  | some hook =>
    cases wasEnabled with
    | false => exact ⟨exports, .refl _⟩
    | true =>
      cases enabled : hook.enable M p.code p.tables ok with
      | error e => simpa only [enabled] using ⟨exports, .refl _⟩
      | ok r =>
        obtain ⟨c, t, hook'⟩ := r
        obtain ⟨same, -⟩ := @Hook.enable_spec R [] M p.code c p.tables t ok hook hook' 0 0 0 0 0 enabled
        simp only [enabled, if_true]
        exact ⟨Process.exportsOk_put present exports (.inr same.exportStub),
          Process.leads_enableAt present enabled⟩

theorem rollbackDetaches_spec (detached : List ((Place × Bool) × ℕ)) (p : Process)
    (exports : ExportsOk R p.installed) :
    ExportsOk R (detached.foldr (fun d p => rollbackDetach M p d.1.1 d.1.2 (os.reenableOk d.2))
        p).installed ∧
      Leads R foreign (p.stage new flight pend traps held)
        ((detached.foldr (fun d p => rollbackDetach M p d.1.1 d.1.2 (os.reenableOk d.2)) p).stage new
          flight pend traps held) := by
  induction detached with
  | nil => exact ⟨exports, .refl _⟩
  | cons d rest ih =>
    obtain ⟨exports', lead⟩ := ih
    obtain ⟨exports'', last⟩ := @rollbackDetach_spec R foreign M new flight pend traps held d.1.1
      d.1.2 (os.reenableOk d.2) _ exports'
    exact ⟨exports'', lead.trans last⟩

/-- What the last loop of the rollback leaves of a hook with the given position: it is disabled
unless the write that undoes it failed. -/
def Undone (os : CommitOs) (h : Hook × ℕ) : Prop :=
  ∀ i, h.1 = .inline i → os.undoOk h.2 = true → i.enabled = false

/-- Undoing one hook of the commit. -/
theorem leads_undoHook {c c' : Code} {t t' : Tables} {hook hook' : Hook} {ok : Bool}
    {objs : Multiset InlineHook} (eq : hook.disable M c t ok = .ok (c', t', hook')) :
    Leads R foreign ⟨c, objs, hook.objs + flight, pend, traps, held⟩
      ⟨c', objs, hook'.objs + flight, pend, traps, held⟩ := by
  cases hook with
  | inline h =>
    obtain ⟨⟨c₁, h₁⟩, disabled, eq⟩ := map_eq_ok.1 eq
    simp only [Prod.mk.injEq] at eq
    obtain ⟨rfl, rfl, rfl⟩ := eq
    obtain ⟨-, rfl, rfl⟩ | ⟨-, rfl, rfl⟩ := InlineHook.disable_ok disabled
    · exact .refl _
    · exact leads_undo
  | iat h | eat h | vtable h | vtableInstance h =>
    obtain ⟨⟨t₁, h₁⟩, -, eq⟩ := map_eq_ok.1 eq
    simp only [Prod.mk.injEq] at eq
    obtain ⟨rfl, rfl, rfl⟩ := eq
    exact .refl _

theorem undo_fails {c : Code} {t : Tables} {h : InlineHook} {e : DetourError} {ok : Bool}
    (shaped : h.Shaped) (eq : (Hook.inline h).disable M c t ok = .error e) : ok = false := by
  cases ok with
  | false => rfl
  | true =>
    simp only [Hook.disable, InlineHook.disable, InlineHook.patchTarget, Code.writeCodeBytes,
      shaped.target, shaped.orig_ne_nil, bind, Except.bind, pure, Except.pure, or_self, if_false,
      reduceCtorEq] at eq
    split_ifs at eq <;> cases eq

theorem inlineHooks_cons (h : Hook) (hooks : List Hook) :
    inlineHooks (h :: hooks) = h.objs + inlineHooks hooks := by
  simp [inlineHooks]

theorem exportStubs_cons (h : Hook) (hooks : List Hook) :
    exportStubs (h :: hooks) = h.stubs + exportStubs hooks := by
  simp [exportStubs]

/-- What the last loop of the rollback makes of the hooks of the commit. -/
structure UndoneAll (R : Rules) (os : CommitOs) (before after : List (Hook × ℕ)) : Prop where
  undone : ∀ h ∈ after, Undone os h
  indices : after.map (·.2) = before.map (·.2)
  stubs : exportStubs (after.map (·.1)) = exportStubs (before.map (·.1))
  exports : ExportsOk R (before.map (·.1)) → ExportsOk R (after.map (·.1))

theorem UndoneAll.cons {before after : List (Hook × ℕ)} (all : UndoneAll R os before after)
    {hook hook' : Hook} {index : ℕ} (undone : Undone os (hook', index))
    (stub : hook'.exportStub = hook.exportStub) :
    UndoneAll R os ((hook, index) :: before) ((hook', index) :: after) := by
  refine ⟨?_, congrArg (List.cons index) all.indices, ?_, fun exports h mem => ?_⟩
  · rintro h mem
    obtain rfl | mem := List.mem_cons.1 mem
    · exact undone
    · exact all.undone h mem
  · rw [List.map_cons, List.map_cons, exportStubs_cons, exportStubs_cons, all.stubs]
    unfold Hook.stubs
    rw [stub]
  · obtain rfl | mem := List.mem_cons.1 mem
    · simpa only [stub] using exports hook List.mem_cons_self
    · exact all.exports (fun h mem => exports h (List.mem_cons_of_mem _ mem)) h mem

theorem undoInstalled_cons (hook : Hook) (index : ℕ) (rest : List (Hook × ℕ)) (p : Process) :
    undoInstalled M os p ((hook, index) :: rest) =
      match hook.disable M (undoInstalled M os p rest).1.code (undoInstalled M os p rest).1.tables
          (os.undoOk index) with
      | .error _ => ((undoInstalled M os p rest).1, (hook, index) :: (undoInstalled M os p rest).2)
      | .ok (c, t, hook') => ({ (undoInstalled M os p rest).1 with code := c, tables := t },
          (hook', index) :: (undoInstalled M os p rest).2) := rfl

theorem undoInstalled_hooks (installed : List (Hook × ℕ)) (p : Process) :
    (undoInstalled M os p installed).1.hooks = p.hooks := by
  induction installed with
  | nil => rfl
  | cons h rest ih =>
    rw [undoInstalled_cons]
    split <;> exact ih

theorem undoInstalled_spec (installed : List (Hook × ℕ)) (p : Process)
    (shaped : ∀ h ∈ inlineHooks (installed.map (·.1)), h.Shaped) :
    UndoneAll R os installed (undoInstalled M os p installed).2 ∧
      Leads R foreign
        (p.stage new (inlineHooks (installed.map (·.1)) + flight) pend traps held)
        ((undoInstalled M os p installed).1.stage new
          (inlineHooks ((undoInstalled M os p installed).2.map (·.1)) + flight) pend traps held) := by
  induction installed generalizing flight with
  | nil => exact ⟨⟨by simp [undoInstalled], rfl, rfl, id⟩, .refl _⟩
  | cons h rest ih =>
    obtain ⟨hook, index⟩ := h
    rw [List.map_cons, inlineHooks_cons] at shaped ⊢
    obtain ⟨all, lead⟩ := @ih (hook.objs + flight) fun h mem =>
      shaped h (Multiset.mem_add.2 (.inr mem))
    rw [add_left_comm (inlineHooks _) hook.objs, add_left_comm (inlineHooks _) hook.objs] at lead
    rw [undoInstalled_cons]
    cases disabled : hook.disable M (undoInstalled M os p rest).1.code
        (undoInstalled M os p rest).1.tables (os.undoOk index) with
    | error e =>
      refine ⟨all.cons ?_ rfl, ?_⟩
      · rintro i rfl fine
        have := undo_fails (shaped i (Multiset.mem_add.2 (.inl (by simp)))) disabled
        simp_all
      · simp only [List.map_cons, inlineHooks_cons, Multiset.add_assoc]
        exact lead
    | ok r =>
      obtain ⟨c, t, hook'⟩ := r
      obtain ⟨same, idle, -⟩ := @Hook.disable_spec R [] M _ c _ t _ hook hook' 0 0 0 0 0 disabled
      refine ⟨all.cons (fun i eq _ => idle i (by rw [show hook' = .inline i from eq]; rfl))
        same.exportStub, ?_⟩
      simp only [List.map_cons, inlineHooks_cons, Multiset.add_assoc]
      exact lead.trans (leads_undoHook disabled)

theorem dropInstalled_hooks (installed : List (Hook × ℕ)) (p : Process) :
    (dropInstalled M os p installed).hooks = p.hooks := by
  induction installed generalizing p with
  | nil => rfl
  | cons h rest ih => exact ih _

theorem leads_dropInstalled (installed : List (Hook × ℕ)) (p : Process)
    (rule : ∀ h ∈ installed, ∀ i, h.1 = .inline i → os.dropOk h.2 = false → i.published = false →
      R.strand i)
    (exports : ExportsOk R (installed.map (·.1))) :
    Leads R foreign
      (p.stage new (inlineHooks (installed.map (·.1)) + flight) pend traps
        (exportStubs (installed.map (·.1)) + held))
      ((dropInstalled M os p installed).stage new flight pend traps held) := by
  induction installed generalizing p with
  | nil =>
    simp only [List.map_nil, inlineHooks, exportStubs, List.sum_nil, zero_add]
    exact .refl _
  | cons h rest ih =>
    obtain ⟨hook, index⟩ := h
    refine Leads.trans ?_ (ih
      { p with
        code := (hook.drop M p.code p.tables (os.dropOk index) (os.retargetOk index)).1
        tables := (hook.drop M p.code p.tables (os.dropOk index) (os.retargetOk index)).2 }
      (fun h mem => rule h (List.mem_cons_of_mem _ mem))
      fun h mem => exports h (List.mem_cons_of_mem _ mem))
    unfold Process.stage
    simp only [List.map_cons, inlineHooks_cons, exportStubs_cons, Multiset.add_assoc]
    rw [add_left_comm (exportStubs p.installed) hook.stubs]
    exact Hook.leads_dropFlight (rule _ List.mem_cons_self) (exports hook List.mem_cons_self)

/-- The rollback of a failed commit. -/
theorem rollback_spec {p : Process} {pending : List PendingHook} {w : Window}
    {rest : List (PendingHook × Reserved)} (ok : w.Ok R p pending rest)
    (rule : ∀ i < w.installed.length, os.dropOk i = false → ∀ h : InlineHook, h.published = false →
      (os.undoOk i = true → h.enabled = false) → R.strand h) :
    ExportsOk R (rollback M os w rest).1.installed ∧
      Leads R foreign (w.stage rest pend traps held)
        ((rollback M os w rest).1.stage 0 0 pend traps held) := by
  have exports : ExportsOk R w.process.installed := fun h mem =>
    ok.exports h (List.mem_append_left _ mem)
  have exportsNew : ExportsOk R (w.installed.zipIdx.map (·.1)) := by
    rw [List.zipIdx_map_fst]
    exact fun h mem => ok.exports h (List.mem_append_right _ mem)
  obtain ⟨exports₁, lead₁⟩ := @rollbackDetaches_spec R foreign M os 0 (inlineHooks w.installed)
    (pendingData (rest.map (·.1)) + pend) traps
    (exportStubs w.installed + (reservedStubs (w.spare ++ rest.map (·.2)) + held))
    w.detached.zipIdx w.process exports
  let p₁ := rollbackDetaches M os w.process w.detached
  let undone := undoInstalled M os p₁ w.installed.zipIdx
  let p₂ := dropInstalled M os undone.1 undone.2
  have hooks : (rollback M os w rest).1.hooks = p₁.hooks :=
    (dropReserved_hooks _ _).trans ((dropInstalled_hooks _ _).trans (undoInstalled_hooks _ _))
  refine ⟨?_, lead₁.trans ?_⟩
  · unfold Process.installed
    rw [hooks]
    exact exports₁
  · refine .of_base (P := ∀ h ∈ inlineHooks (w.installed.zipIdx.map (·.1)), h.Shaped)
      (fun base sees h mem => ?_) fun shaped => ?_
    · rw [List.zipIdx_map_fst] at mem
      exact (base.shapes.flight h (sees.flight ▸ mem)).1
    · obtain ⟨all, lead₂⟩ := @undoInstalled_spec R foreign M os 0 0
        (pendingData (rest.map (·.1)) + pend) traps
        (exportStubs w.installed + (reservedStubs (w.spare ++ rest.map (·.2)) + held))
        w.installed.zipIdx p₁ shaped
      have stubs := all.stubs
      rw [List.zipIdx_map_fst, Multiset.add_zero] at lead₂
      rw [List.zipIdx_map_fst] at stubs
      have dropped : Leads R foreign
          (undone.1.stage 0 (inlineHooks (undone.2.map (·.1)) + 0)
            (pendingData (rest.map (·.1)) + pend) traps (exportStubs (undone.2.map (·.1)) +
              (reservedStubs (w.spare ++ rest.map (·.2)) + held)))
          (p₂.stage 0 0 (pendingData (rest.map (·.1)) + pend) traps
            (reservedStubs (w.spare ++ rest.map (·.2)) + held)) := by
        refine leads_dropInstalled _ _ (fun h mem i eq stuck pub => ?_) (all.exports exportsNew)
        have index : h.2 ∈ w.installed.zipIdx.map (·.2) := all.indices ▸ List.mem_map_of_mem mem
        rw [List.zipIdx_map_snd, List.mem_range'_1] at index
        exact rule h.2 (by omega) stuck i pub fun fine => all.undone h mem i eq fine
      refine lead₂.trans ?_
      rw [← stubs]
      exact dropped.trans ((leads_dropPending _ p₂).trans (leads_dropReserved _ _))

end

/-! ### Publishing -/

/-- No gateway is chained on that was not before. -/
def Code.NoNewChain (c c' : Code) : Prop :=
  ∀ g, c.chainedGateways g = none → c'.chainedGateways g = none

theorem Code.NoNewChain.of_eq {c c' : Code} (h : c'.chainedGateways = c.chainedGateways) :
    c.NoNewChain c' := by
  intro g none
  rw [h, none]

theorem Code.NoNewChain.trans {c c' c'' : Code} (h : c.NoNewChain c') (h' : c'.NoNewChain c'') :
    c.NoNewChain c'' := fun g none => h' g (h g none)

namespace InlineHook

theorem noNewChain_release (c : Code) (h : InlineHook) : c.NoNewChain (h.release c).1 := by
  cases pub : h.published with
  | false =>
    rw [release_unpublished pub]
    exact .of_eq rfl
  | true =>
    cases kind : h.targetKind with
    | normal =>
      rw [release_normal pub kind]
      exact .of_eq rfl
    | managedGateway =>
      rw [release_gateway pub kind]
      intro g none
      cases entry : (c.unregisterLivePatch h.target).chainedGateways h.target with
      | none =>
        unfold releaseGateway Code.removeGatewayDependent
        simp only [entry]
        exact none
      | some e =>
        rw [releaseGateway_chained entry, Function.update_apply]
        split_ifs with here left
        · subst here
          exact absurd (none.symm.trans entry) (by simp)
        · rfl
        · exact none

theorem noNewChain_dispose (c : Code) (h : InlineHook) : c.NoNewChain (h.dispose c) := by
  obtain ⟨e, entry, chained⟩ | free := dispose_cases c h
  · rw [dispose_chained entry chained]
    intro g none
    unfold Code.setChained
    simp only [Function.update_apply]
    split_ifs with here
    · subst here
      exact absurd (none.symm.trans entry) (by simp)
    · exact none
  · exact .of_eq (dispose_chained_free free)

theorem noNewChain_drop (c : Code) (h : InlineHook) (ok : Bool) : c.NoNewChain (h.drop c ok) := by
  have gone : ∀ c, Code.NoNewChain c (dispose (h.release c).1 (h.release c).2) := fun c =>
    (noNewChain_release c h).trans (noNewChain_dispose _ _)
  unfold drop
  split_ifs
  · unfold performUnhook
    split_ifs
    · exact .of_eq rfl
    · cases written : c.writeCodeBytes h.target h.origBytes none ok with
      | none => exact .of_eq rfl
      | some c' =>
        obtain ⟨-, rfl⟩ := Code.writeCodeBytes_some written
        exact Code.NoNewChain.trans (.of_eq rfl) (gone (c.store h.target h.origBytes none))
  · exact gone c

end InlineHook

namespace Hook

variable {M : Modules}

theorem noNewChain_retireStub (c : Code) (stub : Option Trampoline) (original : ℕ) (ok : Bool) :
    c.NoNewChain (c.retireStub stub original ok) := by
  unfold Code.retireStub
  cases stub with
  | none => exact .of_eq rfl
  | some t => cases ok <;> exact .of_eq rfl

theorem noNewChain_drop (c : Code) (t : Tables) (ok retargetOk : Bool) (hook : Hook) :
    c.NoNewChain (hook.drop M c t ok retargetOk).1 := by
  cases hook with
  | inline h => exact h.noNewChain_drop c ok
  | eat h => exact noNewChain_retireStub c _ _ _
  | iat h | vtable h | vtableInstance h => exact .of_eq rfl

theorem noNewChain_detachFinalize (c : Code) (t : Tables) (ok retargetOk : Bool) {hook : Hook}
    (idle : hook.Idle) : c.NoNewChain (hook.detachFinalize M c t ok retargetOk).1 := by
  cases hook with
  | inline h =>
    obtain ⟨code, -⟩ : (h.detachFinalize c ok).1 = _ ∧ _ :=
      InlineHook.detachFinalize_disabled (idle h rfl)
    intro g none
    change (h.detachFinalize c ok).1.chainedGateways g = _
    rw [code]
    exact h.noNewChain_release c g none
  | eat h => exact noNewChain_retireStub c _ _ _
  | iat h | vtable h | vtableInstance h => exact .of_eq rfl

end Hook

section

variable {objs flight : Multiset InlineHook} {pend : Multiset InlineData}
  {traps : Multiset Int3Hook} {held : Multiset Region}

theorem publish_exportStub (c : Code) (h : Hook) : (publish c h).2.exportStub = h.exportStub := by
  cases h <;> rfl

theorem leads_publishHook {c : Code} {h : Hook} :
    Leads R foreign ⟨c, objs, h.objs + flight, pend, traps, held⟩
      ⟨(publish c h).1, (publish c h).2.objs + objs, flight, pend, traps, held⟩ := by
  cases h with
  | inline h => exact leads_publish
  | iat | eat | vtable | vtableInstance =>
    rw [Hook.objs_of_none rfl, Multiset.zero_add]
    change Leads R foreign _ ⟨c, 0 + objs, flight, pend, traps, held⟩
    rw [Multiset.zero_add]
    exact .refl _

theorem publishAll_spec (hooks : List Hook) (c : Code) :
    exportStubs (publishAll c hooks).2 = exportStubs hooks ∧
      (ExportsOk R hooks → ExportsOk R (publishAll c hooks).2) ∧
      (∀ g, c.chainedGateways g = none → (∀ h ∈ inlineHooks hooks,
          h.targetKind = .managedGateway → h.target ≠ g) →
        (publishAll c hooks).1.chainedGateways g = none) ∧
      Leads R foreign ⟨c, objs, inlineHooks hooks + flight, pend, traps, held⟩
        ⟨(publishAll c hooks).1, inlineHooks (publishAll c hooks).2 + objs, flight, pend, traps,
          held⟩ := by
  induction hooks generalizing c objs with
  | nil =>
    refine ⟨rfl, id, fun g none _ => none, ?_⟩
    simp only [inlineHooks, publishAll, List.map_nil, List.sum_nil, zero_add]
    exact .refl _
  | cons h rest ih =>
    obtain ⟨stubs, exports, chains, lead⟩ := @ih ((publish c h).2.objs + objs) (publish c h).1
    simp only [publishAll]
    refine ⟨?_, fun ok x mem => ?_, fun g none others => ?_, ?_⟩
    · rw [exportStubs_cons, exportStubs_cons, stubs]
      unfold Hook.stubs
      rw [publish_exportStub]
    · obtain rfl | mem := List.mem_cons.1 mem
      · simpa only [publish_exportStub] using ok h List.mem_cons_self
      · exact exports (fun x mem => ok x (List.mem_cons_of_mem _ mem)) x mem
    · rw [inlineHooks_cons] at others
      refine chains g ?_ fun x mem => others x (Multiset.mem_add.2 (.inr mem))
      cases h with
      | iat | eat | vtable | vtableInstance => exact none
      | inline i =>
        cases kind : i.targetKind with
        | normal =>
          change (publishInline c i).1.chainedGateways g = _
          rw [(publishInline_normal kind).2]
          exact none
        | managedGateway =>
          change (publishInline c i).1.chainedGateways g = _
          have ne := others i (Multiset.mem_add.2 (.inl (by simp))) kind
          rw [(publishInline_gateway kind).2, Function.update_of_ne ne.symm]
          exact none
    · rw [inlineHooks_cons, inlineHooks_cons, Multiset.add_assoc,
        Multiset.add_comm (publish c h).2.objs, Multiset.add_assoc]
      exact leads_publishHook.trans lead

end

/-! ### Finishing the detaches -/

section

variable {M : Modules} {os : CommitOs} {new : Multiset InlineHook} {pend : Multiset InlineData}
  {traps : Multiset Int3Hook} {held : Multiset Region}

theorem finalizeDetach_spec {index : ℕ} {target : Place} {p : Process}
    (exports : ExportsOk R p.installed) (idle : ∀ hook, p.hookAt target = some hook → hook.Idle)
    (rule : ∀ hook t, p.hookAt target = some hook → hook.gateway = some t → R.detach p.code t.ptr) :
    ExportsOk R (finalizeDetach M os p index target).installed ∧
      p.code.NoNewChain (finalizeDetach M os p index target).code ∧
      (∀ other, other ≠ target →
        (finalizeDetach M os p index target).hookAt other = p.hookAt other) ∧
      Leads R foreign (p.stage new 0 pend traps held)
        ((finalizeDetach M os p index target).stage new 0 pend traps held) := by
  unfold finalizeDetach
  cases present : p.hookAt target with
  | none => exact ⟨exports, .of_eq rfl, fun _ _ => rfl, .refl _⟩
  | some hook =>
    have idle := idle hook present
    obtain ⟨exportsHere, exportsRest⟩ := Process.exportsOk_take present exports
    have detachRule : ∀ h, hook = .inline h → R.detach p.code h.trampoline.ptr := by
      rintro h rfl
      exact rule _ _ present rfl
    let r := hook.detachFinalize M p.code p.tables (os.finalizeOk index) (os.retargetOk index)
    have finalized : ∀ objs held, Hook.Detached hook r.2.2 ∧ Leads R foreign
        ⟨p.code, hook.objs + objs, 0, pend, traps, hook.stubs + held⟩
        ⟨r.1, r.2.2.objs + objs, 0, pend, traps, r.2.2.stubs + held⟩ := fun objs held =>
      Hook.detachFinalize_spec idle detachRule exportsHere
    have detached := (finalized 0 0).1
    have chain : p.code.NoNewChain r.1 := Hook.noNewChain_detachFinalize _ _ _ _ idle
    cases target with
    | hookPtr n =>
      refine ⟨Process.exportsOk_put present exports detached.exportStub, chain, fun other ne => ?_,
        Process.leads_put present fun objs held => (finalized objs held).2⟩
      exact Process.hookAt_put_of_ne ne
    | handleIndex handle i =>
      refine ⟨exportsRest, chain.trans (Hook.noNewChain_drop _ _ _ _ _), fun other ne => ?_, ?_⟩
      · exact Process.hookAt_take_of_ne ne
      · refine Process.leads_take present fun objs held => (finalized objs held).2.trans ?_
        refine Hook.leads_drop (fun h eq active => ?_) fun some => ?_
        · have off := detached.inactive h (by rw [eq]; rfl)
          exact absurd active (by simp [off])
        · obtain none | same := detached.exportStub
          · exact absurd none some
          · exact exportsHere (same ▸ some)

theorem finalizeDetaches_spec {p₀ : Process} (detached : List ((Place × Bool) × ℕ)) (p : Process)
    (exports : ExportsOk R p.installed) (distinct : (detached.map (·.1.1)).Nodup)
    (idle : ∀ e ∈ detached, ∀ hook, p.hookAt e.1.1 = some hook → hook.Idle)
    (steady : ∀ e ∈ detached,
      (p.hookAt e.1.1).map Hook.gateway = (p₀.hookAt e.1.1).map Hook.gateway)
    (rule : ∀ e ∈ detached, ∀ hook t, p₀.hookAt e.1.1 = some hook → hook.gateway = some t →
      ∀ c, p.code.NoNewChain c → R.detach c t.ptr) :
    ExportsOk R
        (detached.foldl (fun p d => finalizeDetach M os p d.2 d.1.1) p).installed ∧
      Leads R foreign (p.stage new 0 pend traps held)
        ((detached.foldl (fun p d => finalizeDetach M os p d.2 d.1.1) p).stage new 0 pend traps
          held) := by
  induction detached generalizing p with
  | nil => exact ⟨exports, .refl _⟩
  | cons d rest ih =>
    rw [List.map_cons, List.nodup_cons] at distinct
    have ne : ∀ e ∈ rest, e.1.1 ≠ d.1.1 := fun e mem same =>
      distinct.1 (same ▸ List.mem_map_of_mem mem)
    obtain ⟨exports', chain, others, lead⟩ := @finalizeDetach_spec R foreign M os new pend traps held
      d.2 d.1.1 p exports (idle d List.mem_cons_self) fun hook t present stub => by
        have same := steady d List.mem_cons_self
        rw [present, Option.map_some, stub] at same
        obtain ⟨hook₀, present₀, stub₀⟩ := Option.map_eq_some_iff.1 same.symm
        exact rule d List.mem_cons_self hook₀ t present₀ stub₀ _ (.of_eq rfl)
    obtain ⟨exports'', lead'⟩ := ih (finalizeDetach M os p d.2 d.1.1) exports' distinct.2
      (fun e mem hook present =>
        idle e (List.mem_cons_of_mem _ mem) hook (others _ (ne e mem) ▸ present))
      (fun e mem => by
        rw [others _ (ne e mem)]
        exact steady e (List.mem_cons_of_mem _ mem))
      fun e mem hook t present stub c later =>
        rule e (List.mem_cons_of_mem _ mem) hook t present stub c (chain.trans later)
    exact ⟨exports'', lead.trans lead'⟩

end

/-! ### The commit -/

/-- What a run grants a commit. -/
structure Rules.GrantsCommit (R : Rules) (M : Modules) (foreign : List Region) (p : Process)
    (pending : List PendingHook) (os : CommitOs) (threads : Threads) : Prop where
  strand : ∀ w, failedWindow M foreign pending os p threads = some w → ∀ i < w.installed.length,
    os.dropOk i = false → ∀ h : InlineHook, h.published = false →
      (os.undoOk i = true → h.enabled = false) → R.strand h
  detach : ∀ place, .detach place ∈ pending → ∀ hook t, p.hookAt place = some hook →
    hook.gateway = some t → ∀ c,
    (∀ g, p.code.chainedGateways g = none →
      (∀ d, .inline d ∈ pending → d.targetKind = .managedGateway → d.target ≠ g) →
      c.chainedGateways g = none) → R.detach c t.ptr

/-- The hooks a commit returns. -/
def returned {ε : Type} : Except ε (List Hook) → List Hook
  | .ok hooks => hooks
  | .error _ => []

section

variable {M : Modules} {os : CommitOs} {pend : Multiset InlineData} {traps : Multiset Int3Hook}
  {held : Multiset Region}

theorem owned_of_orphaned {c : Code} {pending : List PendingHook} (none : orphaned c pending = none)
    {d : InlineData} (mem : .inline d ∈ pending) (kind : d.targetKind = .managedGateway) :
    d.target ∈ c.managedGateways := by
  unfold orphaned at none
  rw [List.findIdx?_eq_none_iff] at none
  simpa [kind, Code.isManagedGateway] using none _ mem

/-- The window before the install loop. -/
theorem Window.ok_start {pending : List PendingHook} {reserved : List Reserved} {p p₀ : Process}
    {redirects : Redirects} (prepared : Prepared p.code pending reserved)
    (orphans : orphaned p.code pending = none) (exports : ExportsOk R p.installed)
    (exportsLeft : ∀ h ∈ pending, h.isExport = true → R.exports)
    (same : p₀.code.SameRegistries p.code) (hooks : p.hooks = p₀.hooks) :
    (⟨p, redirects, [], [], []⟩ : Window).Ok R p₀ pending (pending.zip reserved) := by
  have firsts : (pending.zip reserved).map (·.1) = pending :=
    List.map_fst_zip (le_of_eq prepared.fits.length_eq)
  have left : ∀ e ∈ pending.zip reserved, e.1 ∈ pending := fun e mem => (List.of_mem_zip mem).1
  have fits : ∀ e ∈ pending.zip reserved, Fits p₀.code e.1 e.2 := by
    intro e mem d eq
    obtain ⟨bytes, patch, encoded, apart⟩ := List.forall₂_iff_zip.1 prepared.fits |>.2 mem d eq
    exact ⟨bytes, patch, encoded, same.livePatches ▸ apart⟩
  have data : (pending.zip reserved).filterMap (·.1.inlineData) =
      pending.filterMap (·.inlineData) := by
    conv_rhs => rw [← firsts, List.filterMap_map]
    rfl
  have targets : (pending.zip reserved).filterMap (·.1.detachTarget) =
      pending.filterMap (·.detachTarget) := by
    conv_rhs => rw [← firsts, List.filterMap_map]
    rfl
  refine ⟨same, fits, fun e mem d eq kind => ?_, data ▸ prepared.apart,
    by simp [inlineHooks], left, by simp [inlineHooks], by simpa using targets, by simp,
    fun place => ?_, by simpa using exports, fun e mem => exportsLeft e.1 (left e mem)⟩
  · rw [← same.managedGateways]
    exact owned_of_orphaned orphans (eq ▸ left e mem) kind
  · simp only [Process.hookAt, hooks]

/-- The successful end of a commit. -/
theorem succeed_spec {pending : List PendingHook} {p : Process} {threads : Threads} {w : Window}
    (ok : w.Ok R p pending []) (distinct : (pending.filterMap (·.detachTarget)).Nodup)
    (grants : R.GrantsCommit M foreign p pending os threads) :
    ExportsOk R (finalizeDetaches M os
        { w.process with code := (publishAll w.process.code w.installed).1 } w.detached).installed ∧
      ExportsOk R (publishAll w.process.code w.installed).2 ∧
      Leads R foreign (w.stage [] pend traps held)
        ((dropReserved (finalizeDetaches M os
          { w.process with code := (publishAll w.process.code w.installed).1 }
          w.detached) w.spare).stage (inlineHooks (publishAll w.process.code w.installed).2) 0 pend
          traps (exportStubs (publishAll w.process.code w.installed).2 + held)) := by
  let published := publishAll w.process.code w.installed
  let p₁ : Process := { w.process with code := published.1 }
  have exports : ExportsOk R w.process.installed := fun h mem =>
    ok.exports h (List.mem_append_left _ mem)
  obtain ⟨stubs, exportsNew, chains, lead⟩ := @publishAll_spec R foreign
    (inlineHooks w.process.installed) 0 pend traps
    (exportStubs w.process.installed + (reservedStubs w.spare + (exportStubs published.2 + held)))
    w.installed w.process.code
  have places : w.detached.map (·.1) = pending.filterMap (·.detachTarget) := by
    simpa using ok.places
  have detachedAt : ∀ e ∈ w.detached.zipIdx, e.1 ∈ w.detached := fun e mem =>
    List.mem_of_getElem? (List.mem_zipIdx_iff_getElem?.1 mem)
  have inQueue : ∀ e ∈ w.detached, .detach e.1 ∈ pending := by
    intro e mem
    have : e.1 ∈ pending.filterMap (·.detachTarget) := places ▸ List.mem_map_of_mem mem
    obtain ⟨hook, mem, eq⟩ := List.mem_filterMap.1 this
    cases hook with
    | detach target =>
      simp only [PendingHook.detachTarget, Option.some.injEq] at eq
      exact eq ▸ mem
    | inline | iat | eat | vtable | vtableInstance => cases eq
  have distinct' : (w.detached.zipIdx.map (·.1.1)).Nodup := by
    have : w.detached.zipIdx.map (·.1.1) = w.detached.map (·.1) := by
      conv_rhs => rw [← List.zipIdx_map_fst 0 w.detached, List.map_map]
      rfl
    rw [this, places]
    exact distinct
  obtain ⟨exports', lead'⟩ := @finalizeDetaches_spec R foreign M os (inlineHooks published.2) pend
    traps (reservedStubs w.spare + (exportStubs published.2 + held)) p w.detached.zipIdx p₁ exports
    distinct' (fun e mem => ok.idle e.1 (detachedAt e mem)) (fun e _ => ok.steady e.1.1)
    fun e mem hook t present stub c later => by
      refine grants.detach e.1.1 (inQueue _ (detachedAt e mem)) hook t present stub c
        fun g unchained unqueued => later g (chains g ?_ fun h mem kind target => ?_)
      · rw [ok.same.chainedGateways]
        exact unchained
      · obtain ⟨d, queued, kind', target'⟩ := ok.source h mem
        exact unqueued d queued (kind'.trans kind) (target'.trans target)
  have start : w.stage [] pend traps held = ⟨w.process.code, inlineHooks w.process.installed,
      inlineHooks w.installed + 0, pend, traps, exportStubs w.process.installed +
        (reservedStubs w.spare + (exportStubs published.2 + held))⟩ := by
    rw [show exportStubs published.2 = _ from stubs]
    simp only [Window.stage, Process.stage, List.map_nil, List.append_nil, add_zero]
    rw [show pendingData [] = 0 from rfl, Multiset.zero_add, add_left_comm (exportStubs w.installed)]
  have middle : (⟨published.1, inlineHooks published.2 + inlineHooks w.process.installed, 0, pend,
      traps, exportStubs w.process.installed + (reservedStubs w.spare +
        (exportStubs published.2 + held))⟩ : Stage) = p₁.stage (inlineHooks published.2) 0 pend traps
          (reservedStubs w.spare + (exportStubs published.2 + held)) := by
    rw [Multiset.add_comm (inlineHooks published.2)]
    rfl
  refine ⟨exports', exportsNew fun h mem => ok.exports h (List.mem_append_right _ mem), ?_⟩
  rw [start]
  exact (middle ▸ lead).trans (lead'.trans (leads_dropReserved w.spare _))

theorem commit_spec {pending : List PendingHook} {p p' : Process} {threads threads' : Threads}
    {r : Except DetourError (List Hook)} (idle : p.code.pass = none)
    (exports : ExportsOk R p.installed) (queued : ∀ h ∈ pending, h.isExport = true → R.exports)
    (distinct : (pending.filterMap (·.detachTarget)).Nodup)
    (grants : R.GrantsCommit M foreign p pending os threads)
    (eq : commit M foreign pending os p threads = (r, p', threads')) :
    ExportsOk R p'.installed ∧ ExportsOk R (returned r) ∧
      Leads R foreign (p.stage 0 0 (pendingData pending + pend) traps held)
        (p'.stage (inlineHooks (returned r)) 0 pend traps (exportStubs (returned r) + held)) := by
  have none : ExportsOk R [] := fun h mem => by cases mem
  have settle : ∀ {p₁ : Process} {e : DetourError}, Leads R foreign
        (p.stage 0 0 (pendingData pending + pend) traps held) (p₁.stage 0 0 pend traps held) →
      Leads R foreign (p.stage 0 0 (pendingData pending + pend) traps held)
        (p₁.stage (inlineHooks (returned (.error e : Except DetourError (List Hook)))) 0 pend traps
          (exportStubs (returned (.error e : Except DetourError (List Hook))) + held)) := by
    intro p₁ e lead
    simpa only [returned, inlineHooks, exportStubs, List.map_nil, List.sum_nil, zero_add] using lead
  unfold commit at eq
  cases made : reserveAll M foreign os [] [] pending p with
  | mk reserved p₁ =>
    obtain ⟨hooks, spec⟩ := @reserveAll_spec R foreign M 0 (pendingData pending + pend) traps held os
      pending [] [] p p₁ reserved idle queued ⟨.nil, .nil⟩ made
    have exports₁ : ExportsOk R p₁.installed := by
      unfold Process.installed
      rw [hooks]
      exact exports
    simp only [made] at eq
    cases reserved with
    | error e =>
      simp only [Prod.mk.injEq] at eq
      obtain ⟨rfl, rfl, -⟩ := eq
      simp only [reservedStubs, List.map_nil, List.sum_nil, zero_add] at spec
      exact ⟨exports₁, none, settle (spec.trans (leads_dropPending pending p₁))⟩
    | ok reserved =>
      obtain ⟨same, prepared, lead⟩ := spec
      simp only [reservedStubs, List.map_nil, List.sum_nil, zero_add, List.nil_append] at prepared lead
      cases orphans : orphaned p₁.code pending with
      | some index =>
        simp only [orphans, Prod.mk.injEq] at eq
        obtain ⟨rfl, rfl, -⟩ := eq
        refine ⟨?_, none, settle (lead.trans ((leads_dropReserved reserved p₁).trans
          (leads_dropPending pending _)))⟩
        unfold Process.installed
        rw [dropPending_hooks, dropReserved_hooks]
        exact exports₁
      | none =>
        have ok := @Window.ok_start R pending reserved p₁ p ⟨threads, [], []⟩ prepared orphans exports₁
          queued same hooks
        cases installed : installAll M os 0 (pending.zip reserved)
            ⟨p₁, ⟨threads, [], []⟩, [], [], []⟩ with
        | mk failure w =>
          obtain ⟨ok', lead'⟩ := @installAll_spec R foreign p pending _ w _ pend traps held os 0 M
            failure ok installed
          have start : (⟨p₁, ⟨threads, [], []⟩, [], [], []⟩ : Window).stage (pending.zip reserved) pend
              traps held = p₁.stage 0 0 (pendingData pending + pend) traps
                (reservedStubs reserved + held) := by
            have firsts : (pending.zip reserved).map (·.1) = pending :=
              List.map_fst_zip (le_of_eq prepared.fits.length_eq)
            have seconds : (pending.zip reserved).map (·.2) = reserved :=
              List.map_snd_zip (le_of_eq prepared.fits.length_eq.symm)
            simp only [Window.stage, firsts, seconds, inlineHooks, exportStubs, List.map_nil,
              List.sum_nil, zero_add, List.nil_append]
          rw [start] at lead'
          simp only [orphans, installed] at eq
          cases failure with
          | some failed =>
            obtain ⟨e, rest⟩ := failed
            simp only [Prod.mk.injEq] at eq
            obtain ⟨rfl, rfl, -⟩ := eq
            have failed : failedWindow M foreign pending os p threads = some w := by
              unfold failedWindow
              simp only [made, orphans, installed, Option.isSome_none, Bool.false_eq_true, if_false]
            obtain ⟨exports', lead''⟩ := @rollback_spec R foreign M os pend traps held p pending w rest
              ok' (grants.strand w failed)
            exact ⟨exports', none, settle (lead.trans (lead'.trans lead''))⟩
          | none =>
            simp only [Prod.mk.injEq] at eq
            obtain ⟨rfl, rfl, -⟩ := eq
            obtain ⟨exports', exportsNew, lead''⟩ := @succeed_spec R foreign M os pend traps held
              pending p threads w ok' distinct grants
            refine ⟨?_, exportsNew, lead.trans (lead'.trans lead'')⟩
            unfold Process.installed
            rw [dropReserved_hooks]
            exact exports'

end

end NeoHook
