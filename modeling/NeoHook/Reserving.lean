import NeoHook.Stages

/-!
# Reserving, move by move

The stage of a process in the middle of a commit, and the part of `commit` before any thread is
suspended: the stubs of export hooks are reserved, every queued jump is encoded and checked against
the live patches, and all of it can be given up again.
-/

namespace NeoHook

open ByteMap

variable {R : Rules} {foreign : List Region}

/-! ### Bags of hooks -/

/-- The inline hooks of a list of hooks. -/
def inlineHooks (hooks : List Hook) : Multiset InlineHook := (hooks.map Hook.objs).sum

/-- The stubs of the export hooks of a list of hooks. -/
def exportStubs (hooks : List Hook) : Multiset Region := (hooks.map Hook.stubs).sum

/-- Export hooks with a stub are used only if the rules have them. -/
def ExportsOk (R : Rules) (hooks : List Hook) : Prop := ∀ h ∈ hooks, h.exportStub ≠ none → R.exports

namespace Process

variable {p : Process} {place other : Place} {hook hook' : Hook}

/-- The installed hooks. -/
def installed (p : Process) : List Hook := p.hooks.map (·.2)

theorem find_of_hookAt (present : p.hookAt place = some hook) :
    p.hooks.find? (fun e => e.1 = place) = some (place, hook) := by
  unfold hookAt at present
  obtain ⟨⟨place', hook'⟩, found, eq⟩ := Option.map_eq_some_iff.1 present
  have key := List.find?_some found
  simp only [decide_eq_true_eq] at key eq
  rw [found, key, eq]

theorem perm_take (present : p.hookAt place = some hook) :
    p.installed.Perm (hook :: (p.take place).installed) :=
  (Bag.perm_cons_eraseP (find_of_hookAt present)).map _

theorem inlineHooks_take (present : p.hookAt place = some hook) :
    inlineHooks p.installed = hook.objs + inlineHooks (p.take place).installed := by
  have perm := ((perm_take present).map Hook.objs).sum_eq
  rwa [List.map_cons, List.sum_cons] at perm

theorem exportStubs_take (present : p.hookAt place = some hook) :
    exportStubs p.installed = hook.stubs + exportStubs (p.take place).installed := by
  have perm := ((perm_take present).map Hook.stubs).sum_eq
  rwa [List.map_cons, List.sum_cons] at perm

theorem exportsOk_take (present : p.hookAt place = some hook) (ok : ExportsOk R p.installed) :
    (hook.exportStub ≠ none → R.exports) ∧ ExportsOk R (p.take place).installed := by
  have perm := perm_take present
  exact ⟨ok hook (perm.mem_iff.2 List.mem_cons_self),
    fun h mem => ok h (perm.mem_iff.2 (List.mem_cons_of_mem _ mem))⟩

theorem hookAt_put_self : (p.put place hook).hookAt place = some hook := by
  simp [hookAt, put]

theorem hookAt_put_of_ne (ne : other ≠ place) :
    (p.put place hook).hookAt other = p.hookAt other := by
  unfold hookAt put
  rw [List.find?_cons_of_neg (by simpa using ne.symm), Bag.find?_eraseP]
  intro e key
  simp only [decide_eq_true_eq] at key
  simpa [key] using ne.symm

theorem hookAt_take_of_ne (ne : other ≠ place) : (p.take place).hookAt other = p.hookAt other := by
  unfold hookAt take
  rw [Bag.find?_eraseP]
  intro e key
  simp only [decide_eq_true_eq] at key
  simpa [key] using ne.symm

/-- The stage of a process with hooks that have no place yet and what others own. -/
def stage (p : Process) (new flight : Multiset InlineHook) (pend : Multiset InlineData)
    (traps : Multiset Int3Hook) (held : Multiset Region) : Stage :=
  ⟨p.code, inlineHooks p.installed + new, flight, pend, traps, exportStubs p.installed + held⟩

section

variable {c : Code} {t : Tables} {new flight : Multiset InlineHook} {pend : Multiset InlineData}
  {traps : Multiset Int3Hook} {held : Multiset Region}

/-- A hook takes a new value at its place. -/
theorem leads_put (present : p.hookAt place = some hook)
    (lead : ∀ objs held, Leads R foreign
      ⟨p.code, hook.objs + objs, flight, pend, traps, hook.stubs + held⟩
      ⟨c, hook'.objs + objs, flight, pend, traps, hook'.stubs + held⟩) :
    Leads R foreign (p.stage new flight pend traps held)
      (({ p.put place hook' with code := c, tables := t } : Process).stage new flight pend traps
        held) := by
  have before : p.stage new flight pend traps held =
      ⟨p.code, hook.objs + (inlineHooks (p.take place).installed + new), flight, pend, traps,
        hook.stubs + (exportStubs (p.take place).installed + held)⟩ := by
    unfold stage
    rw [inlineHooks_take present, exportStubs_take present, Multiset.add_assoc, Multiset.add_assoc]
  have after : ({ p.put place hook' with code := c, tables := t } : Process).stage new flight pend
      traps held = ⟨c, hook'.objs + (inlineHooks (p.take place).installed + new), flight, pend, traps,
        hook'.stubs + (exportStubs (p.take place).installed + held)⟩ := by
    rw [← Multiset.add_assoc, ← Multiset.add_assoc]
    rfl
  rw [before, after]
  exact lead _ _

/-- A hook is taken out of its place. -/
theorem leads_take (present : p.hookAt place = some hook)
    (lead : ∀ objs held, Leads R foreign
      ⟨p.code, hook.objs + objs, flight, pend, traps, hook.stubs + held⟩
      ⟨c, objs, flight, pend, traps, held⟩) :
    Leads R foreign (p.stage new flight pend traps held)
      (({ p.take place with code := c, tables := t } : Process).stage new flight pend traps
        held) := by
  have before : p.stage new flight pend traps held =
      ⟨p.code, hook.objs + (inlineHooks (p.take place).installed + new), flight, pend, traps,
        hook.stubs + (exportStubs (p.take place).installed + held)⟩ := by
    unfold stage
    rw [inlineHooks_take present, exportStubs_take present, Multiset.add_assoc, Multiset.add_assoc]
  rw [before]
  exact lead _ _

theorem leads_disableAt {M : Modules} {ok : Bool} (present : p.hookAt place = some hook)
    (eq : hook.disable M p.code p.tables ok = .ok (c, t, hook')) :
    Leads R foreign (p.stage new flight pend traps held)
      (({ p.put place hook' with code := c, tables := t } : Process).stage new flight pend traps
        held) := by
  refine leads_put present fun objs held => ?_
  obtain ⟨same, -, lead⟩ := Hook.disable_spec (R := R) eq
  rw [same.stubs]
  exact lead

theorem leads_enableAt {M : Modules} {ok : Bool} (present : p.hookAt place = some hook)
    (eq : hook.enable M p.code p.tables ok = .ok (c, t, hook')) :
    Leads R foreign (p.stage new flight pend traps held)
      (({ p.put place hook' with code := c, tables := t } : Process).stage new flight pend traps
        held) := by
  refine leads_put present fun objs held => ?_
  obtain ⟨same, lead⟩ := Hook.enable_spec (R := R) eq
  rw [same.stubs]
  exact lead

end

end Process

/-! ### Giving up what is queued or reserved -/

/-- The inline hooks of a queue. -/
def pendingData (pending : List PendingHook) : Multiset InlineData :=
  (pending.filterMap (·.inlineData) : Multiset InlineData)

theorem pendingData_inline (d : InlineData) (rest : List PendingHook) :
    pendingData (.inline d :: rest) = d ::ₘ pendingData rest := rfl

theorem pendingData_append (l l' : List PendingHook) :
    pendingData (l ++ l') = pendingData l + pendingData l' := by
  unfold pendingData
  rw [List.filterMap_append, Multiset.coe_add]

/-- The stub of a reservation. -/
def Reserved.stubs : Reserved → Multiset Region
  | .eat prepared => (prepared.stub.toList.map Trampoline.region : Multiset Region)
  | _ => 0

def reservedStubs (reserved : List Reserved) : Multiset Region := (reserved.map Reserved.stubs).sum

section

variable {new flight : Multiset InlineHook} {pend : Multiset InlineData}
  {traps : Multiset Int3Hook} {held : Multiset Region}

theorem leads_dropGateway {c : Code} {objs : Multiset InlineHook} {gateway : Option Trampoline} :
    Leads R foreign ⟨c, objs, flight, pend, traps,
        (gateway.toList.map Trampoline.region : Multiset Region) + held⟩
      ⟨c.dropGateway gateway, objs, flight, pend, traps, held⟩ := by
  cases gateway with
  | none => exact (Leads.refl _).forget (Multiset.le_add_left _ _)
  | some t => exact leads_discard

theorem leads_dropPending (pending : List PendingHook) (p : Process) :
    Leads R foreign (p.stage new flight (pendingData pending + pend) traps held)
      ((dropPending p pending).stage new flight pend traps held) := by
  induction pending generalizing p with
  | nil =>
    change Leads R foreign (p.stage new flight (0 + pend) traps held) _
    rw [Multiset.zero_add]
    exact .refl _
  | cons hook rest ih =>
    refine Leads.trans ?_ (ih { p with code := hook.drop p.code })
    cases hook with
    | inline d =>
      rw [pendingData_inline, Multiset.cons_add]
      exact leads_giveUp
    | iat | eat | vtable | vtableInstance | detach => exact .refl _

theorem leads_dropReserved (reserved : List Reserved) (p : Process) :
    Leads R foreign (p.stage new flight pend traps (reservedStubs reserved + held))
      ((dropReserved p reserved).stage new flight pend traps held) := by
  induction reserved generalizing p with
  | nil =>
    change Leads R foreign (p.stage new flight pend traps (0 + held)) _
    rw [Multiset.zero_add]
    exact .refl _
  | cons r rest ih =>
    refine Leads.trans ?_ (ih (Reserved.drop p r))
    have split : reservedStubs (r :: rest) = r.stubs + reservedStubs rest := by
      simp [reservedStubs]
    rw [split, Multiset.add_assoc]
    cases r with
    | nothing | patch bytes =>
      change Leads R foreign (p.stage new flight pend traps (0 + (reservedStubs rest + held))) _
      rw [Multiset.zero_add]
      exact .refl _
    | table storage =>
      change Leads R foreign (p.stage new flight pend traps (0 + (reservedStubs rest + held))) _
      rw [Multiset.zero_add]
      cases storage <;> exact .refl _
    | eat prepared =>
      unfold Process.stage
      rw [← Multiset.add_assoc, Multiset.add_comm (exportStubs p.installed), Multiset.add_assoc]
      exact leads_dropGateway

theorem dropPending_hooks (p : Process) (pending : List PendingHook) :
    (dropPending p pending).hooks = p.hooks := rfl

theorem dropReserved_hooks (p : Process) (reserved : List Reserved) :
    (dropReserved p reserved).hooks = p.hooks := by
  induction reserved generalizing p with
  | nil => rfl
  | cons r rest ih =>
    refine (ih (Reserved.drop p r)).trans ?_
    unfold Reserved.drop
    split <;> rfl

end

/-! ### Reserving -/

/-- The registries of gateways, patches and INT3 hooks are the same, and so is the pass. -/
structure Code.SameRegistries (c c' : Code) : Prop where
  livePatches : c'.livePatches = c.livePatches
  managedGateways : c'.managedGateways = c.managedGateways
  chainedGateways : c'.chainedGateways = c.chainedGateways
  int3 : c'.int3 = c.int3
  pass : c'.pass = c.pass

theorem Code.SameRegistries.refl (c : Code) : SameRegistries c c := ⟨rfl, rfl, rfl, rfl, rfl⟩

theorem Code.SameRegistries.trans {c c' c'' : Code} (h : SameRegistries c c')
    (h' : SameRegistries c' c'') : SameRegistries c c'' :=
  ⟨h'.livePatches.trans h.livePatches, h'.managedGateways.trans h.managedGateways,
    h'.chainedGateways.trans h.chainedGateways, h'.int3.trans h.int3, h'.pass.trans h.pass⟩

theorem Code.SameRegistries.overlapsLivePatch {c c' : Code} (h : SameRegistries c c')
    (target len : ℕ) : c'.overlapsLivePatch target len = c.overlapsLivePatch target len := by
  unfold Code.overlapsLivePatch Code.armedInRange
  rw [h.int3, h.livePatches]

/-- What reserving one queue entry, or a failure to, leaves to be dropped. -/
def reservation {ε : Type} : Except ε Reserved → Multiset Region
  | .ok r => r.stubs
  | .error _ => 0

section

variable {M : Modules} {new : Multiset InlineHook} {pend : Multiset InlineData}
  {traps : Multiset Int3Hook} {held : Multiset Region}

theorem allocate_of_some {c c' : Code} {at_ : Option ℕ} {size : ℕ} {t : Trampoline}
    (alloc : c.allocNearbyTrampoline foreign at_ size = some (c', t)) :
    c' = c.allocate t.region := by
  unfold Code.allocNearbyTrampoline at alloc
  cases at_ with
  | none => simp at alloc
  | some a =>
    simp only at alloc
    split_ifs at alloc
    simp only [Option.some.injEq, Prod.mk.injEq] at alloc
    obtain ⟨rfl, rfl⟩ := alloc
    rfl

/-- The stub of an export hook is allocated. -/
theorem leads_exportStub {c c' : Code} {objs : Multiset InlineHook} {at_ : Option ℕ} {size : ℕ}
    {t : Trampoline} (idle : c.pass = none) (exports : R.exports) (small : size ≤ pageSize)
    (alloc : c.allocNearbyTrampoline foreign at_ size = some (c', t)) :
    Leads R foreign ⟨c, objs, 0, pend, traps, held⟩
      ⟨c', objs, 0, pend, traps, t.region ::ₘ held⟩ := by
  rintro v - ⟨rfl, rfl, quiet, rfl, rfl, le⟩
  have grants : R.GrantsStub v.code.pass v.pend v.objs v.traps at_ :=
    ⟨fun _ _ => idle ▸ R.birth_of_idle _, fun _ => R.write_of_exports exports _ _ _ _ _⟩
  obtain ⟨-, -, -, -, move⟩ := allocNearbyTrampoline_path quiet grants small alloc
  exact ⟨_, .single move, rfl, rfl, quiet, rfl, rfl, Multiset.cons_le_cons _ le⟩

theorem prepareExport_spec {c c' : Code} {t : Tables} {module : ℕ} {func : String} {detour : ℕ}
    {at_ : Option ℕ} {objs : Multiset InlineHook} {r : Except DetourError PreparedEat}
    (idle : c.pass = none) (exports : R.exports)
    (eq : prepareExport M foreign c t module func detour at_ = (r, c')) :
    c.SameRegistries c' ∧ Leads R foreign ⟨c, objs, 0, pend, traps, held⟩
      ⟨c', objs, 0, pend, traps, reservation (r.map Reserved.eat) + held⟩ := by
  have nothing : Leads R foreign ⟨c, objs, 0, pend, traps, held⟩
      ⟨c, objs, 0, pend, traps, 0 + held⟩ := by
    rw [Multiset.zero_add]
    exact .refl _
  unfold prepareExport at eq
  by_cases null : module = 0 ∨ detour = 0
  · rw [if_pos null] at eq
    obtain ⟨rfl, rfl⟩ := Prod.mk.inj eq
    exact ⟨.refl _, nothing⟩
  · rw [if_neg null] at eq
    cases found : EatHook.findExport M t module func with
    | error e =>
      rw [found] at eq
      obtain ⟨rfl, rfl⟩ := Prod.mk.inj eq
      exact ⟨.refl _, nothing⟩
    | ok slot =>
      simp only [found] at eq
      split_ifs at eq with near
      · obtain ⟨rfl, rfl⟩ := Prod.mk.inj eq
        exact ⟨.refl _, nothing⟩
      · cases alloc : c.allocNearbyTrampoline foreign at_ managedGatewayLen with
        | none =>
          rw [alloc] at eq
          obtain ⟨rfl, rfl⟩ := Prod.mk.inj eq
          exact ⟨.refl _, nothing⟩
        | some ct =>
          obtain ⟨c₁, stub⟩ := ct
          rw [alloc] at eq
          obtain ⟨rfl, rfl⟩ := Prod.mk.inj eq
          obtain rfl := allocate_of_some alloc
          refine ⟨⟨rfl, rfl, rfl, rfl, rfl⟩, (leads_exportStub idle exports (by decide) alloc).trans ?_⟩
          refine leads_fill (r := stub.region) (Multiset.mem_cons_self _ _) le_rfl ?_ exports
          rw [length_managedGatewayStub]
          exact Nat.add_le_add_left (by decide) _

/-- A queue entry is an export hook. -/
def PendingHook.isExport : PendingHook → Bool
  | .eat .. => true
  | _ => false

/-- An inline entry and its reservation fit: the jump is encoded and no live patch is in the way. -/
def Fits (c : Code) (hook : PendingHook) (r : Reserved) : Prop :=
  ∀ d, hook = .inline d → ∃ bytes, r = .patch bytes ∧
    inlinePatchBytes d.target d.detour d.jumpType d.stolenLen = .ok bytes ∧
    ∀ q ∈ c.livePatches, Apart q.1 q.2 d.target d.stolenLen

theorem reserve_spec {earlier : List PendingHook} {index : ℕ} {hook : PendingHook} {os : CommitOs}
    {p p' : Process} {r : Except (HookKind × DetourError) Reserved} (idle : p.code.pass = none)
    (exports : hook.isExport = true → R.exports)
    (eq : reserve M foreign earlier index hook os p = (r, p')) :
    p'.hooks = p.hooks ∧ p.code.SameRegistries p'.code ∧
      (∀ slot, r = .ok slot → Fits p.code hook slot) ∧
      (∀ slot d, r = .ok slot → hook = .inline d →
        overlapsPending earlier d.target d.stolenLen = false) ∧
      Leads R foreign (p.stage new 0 pend traps held)
        (p'.stage new 0 pend traps (reservation r + held)) := by
  have nothing : ∀ {t : Tables}, Leads R foreign (p.stage new 0 pend traps held)
      (({ p with tables := t } : Process).stage new 0 pend traps (0 + held)) := by
    intro t
    rw [Multiset.zero_add]
    exact .refl _
  unfold reserve at eq
  cases hook with
  | iat | vtable | detach =>
    obtain ⟨rfl, rfl⟩ := Prod.mk.inj eq
    exact ⟨rfl, .refl _, by rintro _ - _ ⟨⟩, by rintro _ _ - ⟨⟩, nothing⟩
  | inline d =>
    simp only at eq
    split_ifs at eq with refused
    · obtain ⟨rfl, rfl⟩ := Prod.mk.inj eq
      exact ⟨rfl, .refl _, by rintro _ ⟨⟩, by rintro _ _ ⟨⟩, nothing⟩
    · rw [not_or, Bool.not_eq_true, Bool.not_eq_true] at refused
      cases encoded : inlinePatchBytes d.target d.detour d.jumpType d.stolenLen with
      | error e =>
        rw [encoded] at eq
        obtain ⟨rfl, rfl⟩ := Prod.mk.inj eq
        exact ⟨rfl, .refl _, by rintro _ ⟨⟩, by rintro _ _ ⟨⟩, nothing⟩
      | ok bytes =>
        rw [encoded] at eq
        obtain ⟨rfl, rfl⟩ := Prod.mk.inj eq
        refine ⟨rfl, .refl _, ?_, ?_, nothing⟩
        · rintro _ ⟨rfl⟩ _ ⟨rfl⟩
          exact ⟨bytes, rfl, encoded, (Code.overlapsLivePatch_eq_false.1 refused.2).2⟩
        · rintro _ _ - ⟨rfl⟩
          exact refused.1
  | vtableInstance object len index detour =>
    simp only at eq
    split at eq
    all_goals
      obtain ⟨rfl, rfl⟩ := Prod.mk.inj eq
      exact ⟨rfl, .refl _, by rintro _ - _ ⟨⟩, by rintro _ _ - ⟨⟩, nothing⟩
  | eat module func detour slot =>
    simp only at eq
    cases prepared : prepareExport M foreign p.code p.tables module func detour (os.stubAt index) with
    | mk made c =>
      obtain ⟨same, lead⟩ : p.code.SameRegistries c ∧ Leads R foreign (p.stage new 0 pend traps held)
          ⟨c, inlineHooks p.installed + new, 0, pend, traps,
            reservation (made.map Reserved.eat) + (exportStubs p.installed + held)⟩ :=
        prepareExport_spec idle (exports rfl) prepared
      rw [add_left_comm] at lead
      rw [prepared] at eq
      cases made with
      | error e =>
        obtain ⟨rfl, rfl⟩ := Prod.mk.inj eq
        exact ⟨rfl, same, by rintro _ ⟨⟩, by rintro _ _ ⟨⟩, lead⟩
      | ok made =>
        obtain ⟨rfl, rfl⟩ := Prod.mk.inj eq
        exact ⟨rfl, same, by rintro _ - _ ⟨⟩, by rintro _ _ - ⟨⟩, lead⟩

/-- The entries of a queue with their reservations. -/
structure Prepared (c : Code) (pending : List PendingHook) (reserved : List Reserved) : Prop where
  fits : List.Forall₂ (Fits c) pending reserved
  apart : (pending.filterMap (·.inlineData)).Pairwise fun d d' =>
    Apart d.target d.stolenLen d'.target d'.stolenLen

theorem Prepared.snoc {c c' : Code} {pending : List PendingHook} {reserved : List Reserved}
    (prepared : Prepared c pending reserved) (same : c.SameRegistries c') {hook : PendingHook}
    {r : Reserved} (fits : Fits c hook r)
    (clear : ∀ d, hook = .inline d → overlapsPending pending d.target d.stolenLen = false) :
    Prepared c' (pending ++ [hook]) (reserved ++ [r]) := by
  have move : ∀ {hook r}, Fits c hook r → Fits c' hook r := by
    intro hook r fits d eq
    obtain ⟨bytes, patch, encoded, apart⟩ := fits d eq
    exact ⟨bytes, patch, encoded, same.livePatches ▸ apart⟩
  refine ⟨List.rel_append (prepared.fits.imp fun _ _ => move) (.cons (move fits) .nil), ?_⟩
  rw [List.filterMap_append, List.pairwise_append]
  refine ⟨prepared.apart, ?_, fun d mem d' mem' => ?_⟩
  · cases hook <;> simp [PendingHook.inlineData]
  · cases hook with
    | inline e =>
      obtain rfl : d' = e := by simpa [PendingHook.inlineData] using mem'
      have none := clear d' rfl
      unfold overlapsPending at none
      rw [List.any_eq_false] at none
      exact Code.rangesOverlap_eq_false.1 (by simpa using none d mem)
    | iat | eat | vtable | vtableInstance | detach => simp [PendingHook.inlineData] at mem'

theorem reservedStubs_snoc (reserved : List Reserved) (r : Reserved) :
    reservedStubs (reserved ++ [r]) = r.stubs + reservedStubs reserved := by
  simp [reservedStubs, add_comm]

theorem reserveAll_spec {os : CommitOs} {rest earlier : List PendingHook} {reserved : List Reserved}
    {p p' : Process} {r : Except DetourError (List Reserved)} (idle : p.code.pass = none)
    (exports : ∀ h ∈ rest, h.isExport = true → R.exports)
    (prepared : Prepared p.code earlier reserved)
    (eq : reserveAll M foreign os earlier reserved rest p = (r, p')) :
    p'.hooks = p.hooks ∧
      match r with
      | .error _ => Leads R foreign (p.stage new 0 pend traps (reservedStubs reserved + held))
          (p'.stage new 0 pend traps held)
      | .ok all => p.code.SameRegistries p'.code ∧ Prepared p'.code (earlier ++ rest) all ∧
          Leads R foreign (p.stage new 0 pend traps (reservedStubs reserved + held))
            (p'.stage new 0 pend traps (reservedStubs all + held)) := by
  induction rest generalizing earlier reserved p with
  | nil =>
    obtain ⟨rfl, rfl⟩ := Prod.mk.inj eq
    refine ⟨rfl, .refl _, ?_, .refl _⟩
    rwa [List.append_nil]
  | cons hook rest ih =>
    unfold reserveAll at eq
    cases made : reserve M foreign earlier earlier.length hook os p with
    | mk slot p₁ =>
      obtain ⟨hooks, same, fits, clear, lead⟩ := @reserve_spec R foreign M new pend traps
        (reservedStubs reserved + held) earlier earlier.length hook os p p₁ slot idle
        (exports hook List.mem_cons_self) made
      rw [made] at eq
      cases slot with
      | error e =>
        obtain ⟨rfl, rfl⟩ := Prod.mk.inj eq
        refine ⟨(dropReserved_hooks _ _).trans hooks, lead.trans ?_⟩
        rw [show reservation (Except.error e : Except (HookKind × DetourError) Reserved) = 0 from rfl,
          Multiset.zero_add]
        exact leads_dropReserved reserved p₁
      | ok slot =>
        rw [show reservation (Except.ok slot : Except (HookKind × DetourError) Reserved) = slot.stubs
          from rfl, ← Multiset.add_assoc, ← reservedStubs_snoc] at lead
        obtain ⟨hooks', rest⟩ := ih (same.pass.trans idle)
          (fun h mem => exports h (List.mem_cons_of_mem _ mem))
          (prepared.snoc same (fits slot rfl) fun d => clear slot d rfl) eq
        refine ⟨hooks'.trans hooks, ?_⟩
        cases r with
        | error e => exact lead.trans rest
        | ok all =>
          obtain ⟨same', prepared', lead'⟩ := rest
          refine ⟨same.trans same', ?_, lead.trans lead'⟩
          rwa [List.append_assoc] at prepared'

end

end NeoHook
