import NeoHook.Reserving

/-!
# Installing, move by move

The install loop of `commit`.  `Window.Ok` is what it keeps: the entries that are left still fit
between the live patches and the hooks already in flight, and the hooks it detached are disabled.
-/

namespace NeoHook

open ByteMap

variable {R : Rules} {foreign : List Region}

theorem inlineHooks_snoc (hooks : List Hook) (h : Hook) :
    inlineHooks (hooks ++ [h]) = h.objs + inlineHooks hooks := by
  simp [inlineHooks, add_comm]

theorem exportStubs_snoc (hooks : List Hook) (h : Hook) :
    exportStubs (hooks ++ [h]) = h.stubs + exportStubs hooks := by
  simp [exportStubs, add_comm]

/-- The place a queue entry detaches. -/
def PendingHook.detachTarget : PendingHook → Option Place
  | .detach target => some target
  | _ => none

/-- The trampoline of an inline hook. -/
def Hook.gateway (h : Hook) : Option Trampoline := h.inlineHook.map (·.trampoline)

/-- The stage of the install loop with the entries that are left. -/
def Window.stage (w : Window) (rest : List (PendingHook × Reserved)) (pend : Multiset InlineData)
    (traps : Multiset Int3Hook) (held : Multiset Region) : Stage :=
  w.process.stage 0 (inlineHooks w.installed) (pendingData (rest.map (·.1)) + pend) traps
    (exportStubs w.installed + (reservedStubs (w.spare ++ rest.map (·.2)) + held))

/-- What the install loop keeps, with the entries that are left. -/
structure Window.Ok (R : Rules) (p : Process) (pending : List PendingHook) (w : Window)
    (rest : List (PendingHook × Reserved)) : Prop where
  same : p.code.SameRegistries w.process.code
  fits : ∀ e ∈ rest, Fits p.code e.1 e.2
  owned : ∀ e ∈ rest, ∀ d, e.1 = .inline d → d.targetKind = .managedGateway →
    d.target ∈ p.code.managedGateways
  apart : (rest.filterMap (·.1.inlineData)).Pairwise fun d d' =>
    Apart d.target d.stolenLen d'.target d'.stolenLen
  landed : ∀ h ∈ inlineHooks w.installed, ∀ d ∈ rest.filterMap (·.1.inlineData),
    Apart h.target h.stolenLen d.target d.stolenLen
  left : ∀ e ∈ rest, e.1 ∈ pending
  source : ∀ h ∈ inlineHooks w.installed, ∃ d, .inline d ∈ pending ∧ d.targetKind = h.targetKind ∧
    d.target = h.target
  places : w.detached.map (·.1) ++ rest.filterMap (·.1.detachTarget) =
    pending.filterMap (·.detachTarget)
  idle : ∀ e ∈ w.detached, ∀ hook, w.process.hookAt e.1 = some hook → hook.Idle
  steady : ∀ place, (w.process.hookAt place).map Hook.gateway = (p.hookAt place).map Hook.gateway
  exports : ExportsOk R (w.process.installed ++ w.installed)
  exportsLeft : ∀ e ∈ rest, e.1.isExport = true → R.exports

namespace Window.Ok

variable {p : Process} {pending : List PendingHook} {w w' : Window} {hook : PendingHook}
  {reserved : Reserved} {rest : List (PendingHook × Reserved)}

/-- A step that changes nothing but tables and threads. -/
theorem of_eq (ok : w.Ok R p pending rest) (code : w'.process.code = w.process.code)
    (hooks : w'.process.hooks = w.process.hooks) (installed : w'.installed = w.installed)
    (detached : w'.detached = w.detached) : w'.Ok R p pending rest := by
  have hookAt : ∀ place, w'.process.hookAt place = w.process.hookAt place := by
    intro place
    unfold Process.hookAt
    rw [hooks]
  refine ⟨code ▸ ok.same, ok.fits, ok.owned, ok.apart, installed ▸ ok.landed, ok.left,
    installed ▸ ok.source, detached ▸ ok.places,
    ?_, ?_, ?_, ok.exportsLeft⟩
  · intro e mem hook at_
    exact ok.idle e (detached ▸ mem) hook (hookAt e.1 ▸ at_)
  · intro place
    rw [hookAt]
    exact ok.steady place
  · unfold Process.installed
    rw [hooks, installed]
    exact ok.exports

/-- A table hook is installed. -/
theorem push (ok : w.Ok R p pending ((hook, reserved) :: rest)) {t : Tables} {h : Hook}
    {spare : List Reserved} (table : h.inlineHook = none) (notDetach : hook.detachTarget = none)
    (notInline : hook.inlineData = none) (exports : h.exportStub ≠ none → R.exports) :
    (w.push t h spare).Ok R p pending rest := by
  have apart := ok.apart
  have landed := ok.landed
  have places := ok.places
  simp only [List.filterMap_cons, notInline] at apart landed
  simp only [List.filterMap_cons, notDetach] at places
  have same : inlineHooks (w.push t h spare).installed = inlineHooks w.installed := by
    change inlineHooks (w.installed ++ [h]) = _
    rw [inlineHooks_snoc, Hook.objs_of_none table, Multiset.zero_add]
  refine ⟨ok.same, fun e mem => ok.fits e (List.mem_cons_of_mem _ mem),
    fun e mem => ok.owned e (List.mem_cons_of_mem _ mem), apart, ?_,
    fun e mem => ok.left e (List.mem_cons_of_mem _ mem), ?_, places, ok.idle, ok.steady, ?_,
    fun e mem => ok.exportsLeft e (List.mem_cons_of_mem _ mem)⟩
  · exact fun x mem => landed x (same ▸ mem)
  · exact fun x mem => ok.source x (same ▸ mem)
  · intro x mem
    change x ∈ w.process.installed ++ (w.installed ++ [h]) at mem
    rw [← List.append_assoc, List.mem_append, List.mem_singleton] at mem
    obtain mem | rfl := mem
    · exact ok.exports x mem
    · exact exports

/-- The jump of an inline hook is written. -/
theorem patched {d : InlineData} (ok : w.Ok R p pending ((.inline d, reserved) :: rest))
    {bytes : List UInt8} {mark : Option JumpMark} {r : Redirects} {h : InlineHook}
    (target : h.target = d.target) (len : h.stolenLen = d.stolenLen)
    (kind : h.targetKind = d.targetKind) :
    ({ w with
        redirects := r
        process := { w.process with code := w.process.code.store d.target bytes mark }
        installed := w.installed ++ [.inline h] } : Window).Ok R p pending rest := by
  have apart := ok.apart
  have landed := ok.landed
  simp only [List.filterMap_cons, PendingHook.inlineData] at apart landed
  rw [List.pairwise_cons] at apart
  refine ⟨⟨ok.same.livePatches, ok.same.managedGateways, ok.same.chainedGateways, ok.same.int3,
    ok.same.pass⟩, fun e mem => ok.fits e (List.mem_cons_of_mem _ mem),
    fun e mem => ok.owned e (List.mem_cons_of_mem _ mem), apart.2, ?_,
    fun e mem => ok.left e (List.mem_cons_of_mem _ mem), ?_, ok.places, ok.idle, ok.steady,
    ?_, fun e mem => ok.exportsLeft e (List.mem_cons_of_mem _ mem)⟩
  · intro x mem d' mem'
    rw [inlineHooks_snoc, Hook.objs_inline, Multiset.singleton_add, Multiset.mem_cons] at mem
    obtain rfl | mem := mem
    · rw [target, len]
      exact apart.1 d' mem'
    · exact landed x mem d' (List.mem_cons_of_mem _ mem')
  · intro x mem
    rw [inlineHooks_snoc, Hook.objs_inline, Multiset.singleton_add, Multiset.mem_cons] at mem
    obtain rfl | mem := mem
    · exact ⟨d, ok.left _ List.mem_cons_self, kind.symm, target.symm⟩
    · exact ok.source x mem
  · intro x mem
    change x ∈ w.process.installed ++ (w.installed ++ [.inline h]) at mem
    rw [← List.append_assoc, List.mem_append, List.mem_singleton] at mem
    obtain mem | rfl := mem
    · exact ok.exports x mem
    · exact fun stub => absurd rfl stub

end Window.Ok

section

variable {p : Process} {pending : List PendingHook} {w w' : Window} {hook : PendingHook}
  {reserved : Reserved} {rest : List (PendingHook × Reserved)} {pend : Multiset InlineData}
  {traps : Multiset Int3Hook} {held : Multiset Region} {os : CommitOs} {index : ℕ} {M : Modules}

theorem leads_patch {c : Code} {objs flight : Multiset InlineHook} {d : InlineData}
    {bytes : List UInt8} (target : d.target ≠ 0)
    (encoded : inlinePatchBytes d.target d.detour d.jumpType d.stolenLen = .ok bytes)
    (clear : c.overlapsLivePatch d.target d.stolenLen = false)
    (apart : ∀ h ∈ flight, Apart h.target h.stolenLen d.target d.stolenLen)
    (owned : d.targetKind = .managedGateway → d.target ∈ c.managedGateways) :
    Leads R foreign ⟨c, objs, flight, d ::ₘ pend, traps, held⟩
      ⟨c.store d.target bytes (some ((d.install c bytes).mark c)), objs,
        d.install c bytes ::ₘ flight, pend, traps, held⟩ := by
  rintro v - ⟨rfl, rfl, rfl, pending, rfl, le⟩
  exact ⟨_, .single (.patch pending target encoded clear apart owned), rfl, rfl, rfl, rfl, rfl, le⟩

theorem installInline_spec {d : InlineData} {r : Except DetourError Unit}
    (ok : w.Ok R p pending ((.inline d, reserved) :: rest))
    (eq : installInline index d reserved os w = (r, w')) :
    match r with
    | .error _ => w'.Ok R p pending ((.inline d, reserved) :: rest) ∧
        Leads R foreign (w.stage ((.inline d, reserved) :: rest) pend traps held)
          (w'.stage ((.inline d, reserved) :: rest) pend traps held)
    | .ok () => w'.Ok R p pending rest ∧
        Leads R foreign (w.stage ((.inline d, reserved) :: rest) pend traps held)
          (w'.stage rest pend traps held) := by
  unfold installInline at eq
  cases redirected : redirectAll w.process.code.mem os.toThreadAnswers d index os.threads
      w.redirects with
  | mk failure redirects =>
    rw [redirected] at eq
    cases failure with
    | some e =>
      obtain ⟨rfl, rfl⟩ := Prod.mk.inj eq
      exact ⟨ok.of_eq rfl rfl rfl rfl, .refl _⟩
    | none =>
      obtain ⟨bytes, rfl, encoded, patches⟩ := ok.fits _ List.mem_cons_self d rfl
      simp only at eq
      split_ifs at eq with armed length
      · obtain ⟨rfl, rfl⟩ := Prod.mk.inj eq
        exact ⟨ok.of_eq rfl rfl rfl rfl, .refl _⟩
      · obtain ⟨rfl, rfl⟩ := Prod.mk.inj eq
        exact ⟨ok.of_eq rfl rfl rfl rfl, .refl _⟩
      · cases written : w.process.code.writeCodeBytes d.target bytes
            (some ((d.install w.process.code bytes).mark w.process.code)) (os.patchOk index) with
        | none =>
          rw [written] at eq
          obtain ⟨rfl, rfl⟩ := Prod.mk.inj eq
          exact ⟨ok.of_eq rfl rfl rfl rfl, .refl _⟩
        | some c =>
          obtain ⟨target, rfl⟩ := Code.writeCodeBytes_some written
          rw [written] at eq
          obtain ⟨rfl, rfl⟩ := Prod.mk.inj eq
          refine ⟨ok.patched rfl rfl rfl, ?_⟩
          have clear : w.process.code.overlapsLivePatch d.target d.stolenLen = false :=
            Code.overlapsLivePatch_eq_false.2
              ⟨by simpa using armed, ok.same.livePatches ▸ patches⟩
          have owned : d.targetKind = .managedGateway → d.target ∈ w.process.code.managedGateways :=
            fun kind => ok.same.managedGateways ▸ ok.owned _ List.mem_cons_self d rfl kind
          have apart : ∀ h ∈ inlineHooks w.installed,
              Apart h.target h.stolenLen d.target d.stolenLen :=
            fun h mem => ok.landed h mem d List.mem_cons_self
          have stubs : reservedStubs (w.spare ++ .patch bytes :: rest.map (·.2)) =
              reservedStubs (w.spare ++ rest.map (·.2)) := by
            simp [reservedStubs, Reserved.stubs]
          unfold Window.stage Process.stage
          simp only [List.map_cons, pendingData_inline, Multiset.cons_add, stubs, inlineHooks_snoc,
            exportStubs_snoc, Hook.objs_inline, Hook.stubs_inline, Multiset.singleton_add,
            Multiset.zero_add]
          exact leads_patch target encoded clear apart owned

theorem Hook.disable_sameRegistries {c c' : Code} {t t' : Tables} {ok : Bool} {hook hook' : Hook}
    (eq : hook.disable M c t ok = .ok (c', t', hook')) : c.SameRegistries c' := by
  cases hook with
  | inline h =>
    obtain ⟨⟨c₁, h₁⟩, disabled, eq⟩ := map_eq_ok.1 eq
    simp only [Prod.mk.injEq] at eq
    obtain ⟨rfl, -, -⟩ := eq
    obtain ⟨-, rfl, -⟩ | ⟨-, rfl, -⟩ := InlineHook.disable_ok disabled
    · exact .refl _
    · exact ⟨rfl, rfl, rfl, rfl, rfl⟩
  | iat h | eat h | vtable h | vtableInstance h =>
    obtain ⟨⟨t₁, h₁⟩, -, eq⟩ := map_eq_ok.1 eq
    simp only [Prod.mk.injEq] at eq
    obtain ⟨rfl, -, -⟩ := eq
    exact .refl _

theorem Hook.idle_of_isEnabled {hook : Hook} (off : hook.isEnabled = false) : hook.Idle := by
  cases hook with
  | inline h =>
    rintro i ⟨rfl⟩
    exact off
  | iat h | eat h | vtable h | vtableInstance h => rintro i ⟨⟩

theorem prepareDetach_cases {target : Place} {wasEnabled ok : Bool} {p p' : Process}
    (eq : prepareDetach M p target ok = .ok (wasEnabled, p')) :
    ∃ hook, p.hookAt target = some hook ∧
      ((hook.isEnabled = false ∧ wasEnabled = false ∧ p' = p) ∨
        ∃ c t hook', hook.isEnabled = true ∧ wasEnabled = true ∧
          hook.disable M p.code p.tables ok = .ok (c, t, hook') ∧
          p' = { p.put target hook' with code := c, tables := t }) := by
  unfold prepareDetach at eq
  cases present : p.hookAt target with
  | none => simp [present] at eq
  | some hook =>
    refine ⟨hook, rfl, ?_⟩
    simp only [present] at eq
    split_ifs at eq with on
    · cases disabled : hook.disable M p.code p.tables ok with
      | error e => simp [disabled] at eq
      | ok r =>
        obtain ⟨c, t, hook'⟩ := r
        simp only [disabled, Except.ok.injEq, Prod.mk.injEq] at eq
        exact .inr ⟨c, t, hook', on, eq.1.symm, rfl, eq.2.symm⟩
    · simp only [Except.ok.injEq, Prod.mk.injEq] at eq
      exact .inl ⟨by simpa using on, eq.1.symm, eq.2.symm⟩

theorem Process.exportsOk_put {place : Place} {hook hook' : Hook} {p : Process}
    (present : p.hookAt place = some hook) (ok : ExportsOk R p.installed)
    (stub : hook'.exportStub = none ∨ hook'.exportStub = hook.exportStub) :
    ExportsOk R (p.put place hook').installed := by
  obtain ⟨here, others⟩ := exportsOk_take present ok
  intro h mem
  obtain rfl | mem := List.mem_cons.1 mem
  · obtain none | same := stub
    · exact fun some => absurd none some
    · rwa [same]
  · exact others h mem

/-- A hook is detached in the suspend window. -/
theorem Window.Ok.detached {target : Place} {wasEnabled ok : Bool} {p' : Process}
    (fine : w.Ok R p pending ((.detach target, reserved) :: rest))
    (eq : prepareDetach M w.process target ok = .ok (wasEnabled, p')) :
    ({ w with process := p', detached := w.detached ++ [(target, wasEnabled)] } : Window).Ok R p
        pending rest := by
  have places := fine.places
  simp only [List.filterMap_cons, PendingHook.detachTarget] at places
  have places' : (w.detached ++ [(target, wasEnabled)]).map (·.1) ++
      rest.filterMap (·.1.detachTarget) = pending.filterMap (·.detachTarget) := by
    rw [List.map_append, List.append_assoc]
    exact places
  have member : ∀ {e : Place × Bool}, e ∈ w.detached ++ [(target, wasEnabled)] →
      e ∈ w.detached ∨ e.1 = target := by
    intro e mem
    obtain mem | mem := List.mem_append.1 mem
    · exact .inl mem
    · exact .inr (by rw [List.mem_singleton.1 mem])
  obtain ⟨hook, present, ⟨off, -, rfl⟩ | ⟨c, t, hook', -, -, disabled, rfl⟩⟩ :=
    prepareDetach_cases eq
  · refine ⟨fine.same, fun e mem => fine.fits e (List.mem_cons_of_mem _ mem),
      fun e mem => fine.owned e (List.mem_cons_of_mem _ mem), fine.apart, fine.landed,
      fun e mem => fine.left e (List.mem_cons_of_mem _ mem), fine.source, places', ?_,
      fine.steady, fine.exports, fun e mem => fine.exportsLeft e (List.mem_cons_of_mem _ mem)⟩
    intro e mem h at_
    obtain mem | here := member mem
    · exact fine.idle e mem h at_
    · rw [here, present, Option.some.injEq] at at_
      exact at_ ▸ Hook.idle_of_isEnabled off
  · obtain ⟨same, idle, -⟩ := @Hook.disable_spec R [] M w.process.code c w.process.tables t ok hook
      hook' 0 0 0 0 0 disabled
    refine ⟨fine.same.trans (Hook.disable_sameRegistries disabled),
      fun e mem => fine.fits e (List.mem_cons_of_mem _ mem),
      fun e mem => fine.owned e (List.mem_cons_of_mem _ mem), fine.apart, fine.landed,
      fun e mem => fine.left e (List.mem_cons_of_mem _ mem), fine.source, places', ?_,
      ?_, ?_, fun e mem => fine.exportsLeft e (List.mem_cons_of_mem _ mem)⟩
    · intro e mem h at_
      change (w.process.put target hook').hookAt e.1 = some h at at_
      by_cases here : e.1 = target
      · rw [here, Process.hookAt_put_self, Option.some.injEq] at at_
        exact at_ ▸ idle
      · rw [Process.hookAt_put_of_ne here] at at_
        obtain mem | eq := member mem
        · exact fine.idle e mem h at_
        · exact absurd eq here
    · intro place
      change ((w.process.put target hook').hookAt place).map Hook.gateway = _
      by_cases here : place = target
      · subst here
        rw [Process.hookAt_put_self, ← fine.steady, present]
        exact congrArg some same.trampoline
      · rw [Process.hookAt_put_of_ne here]
        exact fine.steady place
    · intro h mem
      obtain mem | mem := List.mem_append.1 mem
      · exact Process.exportsOk_put present
          (fun h mem => fine.exports h (List.mem_append_left _ mem)) (.inr same.exportStub) h mem
      · exact fine.exports h (List.mem_append_right _ mem)

/-- A table hook joins the hooks of the commit. -/
theorem leads_push {t : Tables} {h : Hook} {spare : List Reserved} (table : h.inlineHook = none)
    (notInline : hook.inlineData = none)
    (stubs : h.stubs + reservedStubs spare ≤ reserved.stubs) :
    Leads R foreign (w.stage ((hook, reserved) :: rest) pend traps held)
      ((w.push t h spare).stage rest pend traps held) := by
  have queued : pendingData (hook :: rest.map (·.1)) = pendingData (rest.map (·.1)) := by
    simp [pendingData, notInline]
  have owned : exportStubs (w.installed ++ [h]) +
        (reservedStubs ((w.spare ++ spare) ++ rest.map (·.2)) + held) ≤
      exportStubs w.installed + (reservedStubs (w.spare ++ reserved :: rest.map (·.2)) + held) := by
    have before : exportStubs w.installed +
        (reservedStubs (w.spare ++ reserved :: rest.map (·.2)) + held) = reserved.stubs +
          (exportStubs w.installed + (reservedStubs (w.spare ++ rest.map (·.2)) + held)) := by
      unfold reservedStubs
      simp only [List.map_append, List.map_cons, List.sum_append, List.sum_cons]
      abel
    have after : exportStubs (w.installed ++ [h]) +
        (reservedStubs ((w.spare ++ spare) ++ rest.map (·.2)) + held) =
          (h.stubs + reservedStubs spare) +
          (exportStubs w.installed + (reservedStubs (w.spare ++ rest.map (·.2)) + held)) := by
      rw [exportStubs_snoc]
      unfold reservedStubs
      simp only [List.map_append, List.sum_append]
      abel
    rw [before, after]
    exact Multiset.add_le_add_right stubs
  have hooks : inlineHooks (w.installed ++ [h]) = inlineHooks w.installed := by
    rw [inlineHooks_snoc, Hook.objs_of_none table, Multiset.zero_add]
  unfold Window.stage Process.stage Window.push
  simp only [List.map_cons, queued, hooks]
  exact (Leads.refl _).forget (Multiset.add_le_add_left owned)

theorem EatHook.install_stub {t t' : Tables} {module : ℕ} {func : String} {prepared : PreparedEat}
    {ok : Bool} {h : EatHook} (eq : EatHook.install t module func prepared ok = (.ok h, t')) :
    h.stub = prepared.stub := by
  unfold EatHook.install at eq
  split at eq
  · simp at eq
  · split at eq
    · simp at eq
    · simp only [Prod.mk.injEq, Except.ok.injEq] at eq
      rw [← eq.1]

theorem installStep_spec {r : Except (HookKind × DetourError) Unit}
    (ok : w.Ok R p pending ((hook, reserved) :: rest))
    (eq : installStep M index hook reserved os w = (r, w')) :
    match r with
    | .error _ => w'.Ok R p pending ((hook, reserved) :: rest) ∧
        Leads R foreign (w.stage ((hook, reserved) :: rest) pend traps held)
          (w'.stage ((hook, reserved) :: rest) pend traps held)
    | .ok () => w'.Ok R p pending rest ∧
        Leads R foreign (w.stage ((hook, reserved) :: rest) pend traps held)
          (w'.stage rest pend traps held) := by
  have noStub : ∀ {h : Hook}, h.exportStub = none → h.exportStub ≠ none → R.exports :=
    fun none some => absurd none some
  unfold installStep at eq
  cases hook with
  | inline d =>
    cases installed : installInline index d reserved os w with
    | mk made w₁ =>
      have spec := @installInline_spec R foreign p pending w w₁ reserved rest pend traps held os index
        d made ok installed
      simp only [installed] at eq
      cases made <;>
        obtain ⟨rfl, rfl⟩ := Prod.mk.inj eq <;>
        exact spec
  | iat module dll func detour slot =>
    simp only at eq
    split at eq
    · obtain ⟨rfl, rfl⟩ := Prod.mk.inj eq
      exact ⟨ok.of_eq rfl rfl rfl rfl, .refl _⟩
    · obtain ⟨rfl, rfl⟩ := Prod.mk.inj eq
      exact ⟨ok.push rfl rfl rfl (noStub rfl), leads_push rfl rfl (Multiset.zero_le _)⟩
  | vtable vtable i detour =>
    simp only at eq
    split at eq
    · obtain ⟨rfl, rfl⟩ := Prod.mk.inj eq
      exact ⟨ok.of_eq rfl rfl rfl rfl, .refl _⟩
    · obtain ⟨rfl, rfl⟩ := Prod.mk.inj eq
      exact ⟨ok.push rfl rfl rfl (noStub rfl), leads_push rfl rfl (Multiset.zero_le _)⟩
  | eat module func detour slot =>
    cases reserved with
    | nothing | patch | table =>
      obtain ⟨rfl, rfl⟩ := Prod.mk.inj eq
      exact ⟨ok, .refl _⟩
    | eat prepared =>
      have exports := ok.exportsLeft _ List.mem_cons_self rfl
      cases installed : EatHook.install w.process.tables module func prepared (os.patchOk index) with
      | mk made t =>
        simp only [installed] at eq
        cases made with
        | error e =>
          obtain ⟨rfl, rfl⟩ := Prod.mk.inj eq
          exact ⟨ok.of_eq rfl rfl rfl rfl, .refl _⟩
        | ok h =>
          obtain ⟨rfl, rfl⟩ := Prod.mk.inj eq
          refine ⟨ok.push rfl rfl rfl fun _ => exports, leads_push rfl rfl ?_⟩
          simp only [Hook.stubs, Hook.exportStub, EatHook.install_stub installed, Reserved.stubs,
            reservedStubs, List.map_nil, List.sum_nil, add_zero]
          rfl
  | vtableInstance object len i detour =>
    cases reserved with
    | nothing | patch | eat =>
      obtain ⟨rfl, rfl⟩ := Prod.mk.inj eq
      exact ⟨ok, .refl _⟩
    | table storage =>
      simp only at eq
      split at eq
      · obtain ⟨rfl, rfl⟩ := Prod.mk.inj eq
        exact ⟨ok.of_eq rfl rfl rfl rfl, .refl _⟩
      · obtain ⟨rfl, rfl⟩ := Prod.mk.inj eq
        exact ⟨ok.push rfl rfl rfl (noStub rfl), leads_push rfl rfl (Multiset.zero_le _)⟩
  | detach target =>
    cases prepared : prepareDetach M w.process target (os.patchOk index) with
    | error e =>
      simp only [prepared] at eq
      obtain ⟨rfl, rfl⟩ := Prod.mk.inj eq
      exact ⟨ok, .refl _⟩
    | ok made =>
      obtain ⟨wasEnabled, p'⟩ := made
      simp only [prepared] at eq
      obtain ⟨rfl, rfl⟩ := Prod.mk.inj eq
      refine ⟨ok.detached prepared, ?_⟩
      have forgotten : Leads R foreign (w.stage ((.detach target, reserved) :: rest) pend traps held)
          (w.stage rest pend traps held) := by
        refine (Leads.refl _).forget (Multiset.add_le_add_left (Multiset.add_le_add_left
          (Multiset.add_le_add_right ?_)))
        simp only [reservedStubs, List.map_append, List.map_cons, List.sum_append, List.sum_cons]
        exact Multiset.add_le_add_left (Multiset.le_add_left _ _)
      refine forgotten.trans ?_
      obtain ⟨found, present, ⟨-, -, rfl⟩ | ⟨c, t, hook', -, -, disabled, rfl⟩⟩ :=
        prepareDetach_cases prepared
      · exact .refl _
      · exact Process.leads_disableAt present disabled

/-- What is left of the queue when the install loop ends. -/
def unhandled {ε : Type} :
    Option (ε × List (PendingHook × Reserved)) → List (PendingHook × Reserved)
  | none => []
  | some (_, rest) => rest

theorem installAll_spec {r : Option (DetourError × List (PendingHook × Reserved))}
    (ok : w.Ok R p pending rest) (eq : installAll M os index rest w = (r, w')) :
    w'.Ok R p pending (unhandled r) ∧
      Leads R foreign (w.stage rest pend traps held) (w'.stage (unhandled r) pend traps held) := by
  induction rest generalizing index w with
  | nil =>
    obtain ⟨rfl, rfl⟩ := Prod.mk.inj eq
    exact ⟨ok, .refl _⟩
  | cons e rest ih =>
    obtain ⟨hook, reserved⟩ := e
    unfold installAll at eq
    cases step : installStep M index hook reserved os w with
    | mk made w₁ =>
      have spec := @installStep_spec R foreign p pending w w₁ hook reserved rest pend traps held os
        index M made ok step
      simp only [step] at eq
      cases made with
      | error e =>
        obtain ⟨rfl, rfl⟩ := Prod.mk.inj eq
        exact spec
      | ok u =>
        obtain ⟨ok', lead⟩ := ih spec.1 eq
        exact ⟨ok', spec.2.trans lead⟩

end

end NeoHook
