import NeoHook.Committing

/-!
# Runs, move by move

Every call of the library is a sequence of moves.  A run whose calls meet what a set of rules grants
is therefore a path of moves, and what every move keeps holds in every state the run reaches.
-/

namespace NeoHook

open ByteMap

namespace State

variable (s : State)

/-- The inline hooks queued in any transaction. -/
def queued : Multiset InlineData := (s.transactions.map fun e => pendingData e.2.pending).sum

/-- The inline hooks the program holds. -/
def hooks : Multiset InlineHook := inlineHooks s.process.installed

/-- The INT3 hooks the program holds. -/
def traps : Multiset Int3Hook := (s.int3Hooks.map (·.2) : Multiset Int3Hook)

/-- The call-original stubs of INT3 hooks. -/
def gateways : Multiset Region := (s.int3Hooks.map fun e =>
  (e.2.gateway.toList.map Trampoline.region : Multiset Region)).sum

/-- The stage between two calls. -/
def stage : Stage := s.process.stage 0 0 s.queued s.traps s.gateways

/-- What a state keeps besides the stage. -/
structure Ok (R : Rules) (s : State) : Prop where
  exports : ExportsOk R s.process.installed
  exportsQueued : ∀ e ∈ s.transactions, ∀ h ∈ e.2.pending, h.isExport = true → R.exports
  distinct : ∀ e ∈ s.transactions, (e.2.pending.filterMap (·.detachTarget)).Nodup

end State

/-- What a run grants a call that is not refused. -/
def Rules.GrantsCall (R : Rules) (E : Env) (s : State) : Op → Prop
  | .queue _ (.attach target detour follow os) =>
    R.GrantsAttach E.codec s.process.code s.queued s.hooks s.traps target detour follow os
  | .queue _ (.attachEat ..) => R.exports
  | .commit tx _ os threads => ∀ t, s.transaction tx = some t →
    R.GrantsCommit E.modules E.foreign s.process t.pending os threads
  | .unhook place ok dropOk _ => ∀ h, s.process.hookAt place = some (.inline h) →
    h.active = true → ok = false → dropOk = false → R.strand h
  | .drop place ok _ => ∀ h, s.process.hookAt place = some (.inline h) →
    h.active = true → ok = false → R.strand h
  | .int3Install target _ gateway os => (Int3Hook.Arms s.process.code target os → R.trap target) ∧
    R.GrantsStub s.process.code.pass s.queued s.hooks s.traps
      (gateway.bind fun g => originalGatewayAt E.codec s.process.code target g.1)
  | .int3Drop _ os => os.writeOk = false → R.scar
  | .settlePass addOk => R.readd addOk
  | _ => True

/-- What a run grants a call. -/
def Rules.Grants (R : Rules) (E : Env) (s : State) (op : Op) : Prop :=
  op.Acts E s → R.GrantsCall E s op

variable {R : Rules} {E : Env} {s : State}

namespace State

/-! ### Transactions -/

theorem find_of_transaction {tx : ℕ} {t : Transaction} (present : s.transaction tx = some t) :
    s.transactions.find? (fun e => e.1 = tx) = some (tx, t) := by
  unfold transaction at present
  obtain ⟨⟨n, t'⟩, found, eq⟩ := Option.map_eq_some_iff.1 present
  have key := List.find?_some found
  simp only [decide_eq_true_eq] at key eq
  rw [found, key, eq]

theorem perm_setTransaction {tx : ℕ} {t : Transaction} (present : s.transaction tx = some t) :
    s.transactions.Perm ((tx, t) :: s.transactions.eraseP fun e => e.1 = tx) :=
  Bag.perm_cons_eraseP (find_of_transaction present)

/-- What the other transactions have queued. -/
def queuedElsewhere (s : State) (tx : ℕ) : Multiset InlineData :=
  ((s.transactions.eraseP fun e => e.1 = tx).map fun e => pendingData e.2.pending).sum

theorem queued_eq {tx : ℕ} {t : Transaction} (present : s.transaction tx = some t) :
    s.queued = pendingData t.pending + s.queuedElsewhere tx := by
  have perm := ((perm_setTransaction present).map fun e => pendingData e.2.pending).sum_eq
  rwa [List.map_cons, List.sum_cons] at perm

theorem queued_setTransaction (tx : ℕ) (t : Transaction) :
    (s.setTransaction tx t).queued = pendingData t.pending + s.queuedElsewhere tx := by
  unfold queued setTransaction
  rw [List.map_cons, List.sum_cons]
  rfl

/-- A transaction takes a new queue. -/
theorem Ok.setTransaction (ok : s.Ok R) {tx : ℕ} {t' : Transaction} {p : Process} {fresh : ℕ}
    (exports : ExportsOk R p.installed)
    (queued : ∀ h ∈ t'.pending, h.isExport = true → R.exports)
    (distinct : (t'.pending.filterMap (·.detachTarget)).Nodup) :
    State.Ok R { s.setTransaction tx t' with process := p, fresh := fresh } := by
  have member : ∀ e ∈ (s.setTransaction tx t').transactions, e = (tx, t') ∨ e ∈ s.transactions := by
    intro e mem
    obtain rfl | mem := List.mem_cons.1 mem
    · exact .inl rfl
    · exact .inr (List.mem_of_mem_eraseP mem)
  refine ⟨exports, fun e mem => ?_, fun e mem => ?_⟩
  · obtain rfl | mem := member e mem
    · exact queued
    · exact ok.exportsQueued e mem
  · obtain rfl | mem := member e mem
    · exact distinct
    · exact ok.distinct e mem

theorem Ok.of_transaction (ok : s.Ok R) {tx : ℕ} {t : Transaction}
    (present : s.transaction tx = some t) :
    (∀ h ∈ t.pending, h.isExport = true → R.exports) ∧
      (t.pending.filterMap (·.detachTarget)).Nodup := by
  have mem := List.mem_of_find?_eq_some (find_of_transaction present)
  exact ⟨ok.exportsQueued _ mem, ok.distinct _ mem⟩

end State

/-! ### Queueing -/

/-- What a request makes of a queue: the inline hooks it adds, and that detaches stay distinct. -/
structure Queues (R : Rules) (pending pending' : List PendingHook) (ds : List InlineData) : Prop where
  data : pendingData pending' = ↑ds + pendingData pending
  exports : (∀ h ∈ pending, h.isExport = true → R.exports) →
    ∀ h ∈ pending', h.isExport = true → R.exports
  distinct : (pending.filterMap (·.detachTarget)).Nodup →
    (pending'.filterMap (·.detachTarget)).Nodup

namespace Queues

variable {pending pending' : List PendingHook}

theorem refl (pending : List PendingHook) : Queues R pending pending [] :=
  ⟨(Multiset.zero_add _).symm, id, id⟩

theorem inlines (pending : List PendingHook) (ds : List InlineData) :
    Queues R pending (pending ++ ds.map .inline) ds := by
  refine ⟨?_, fun queued h mem => ?_, fun distinct => ?_⟩
  · rw [pendingData_append, Multiset.add_comm]
    congr 1
    unfold pendingData
    rw [List.filterMap_map]
    exact congrArg _ (List.filterMap_some ..)
  · obtain mem | mem := List.mem_append.1 mem
    · exact queued h mem
    · obtain ⟨d, -, rfl⟩ := List.mem_map.1 mem
      simp [PendingHook.isExport]
  · rw [List.filterMap_append, List.filterMap_map]
    have none : ds.filterMap (PendingHook.detachTarget ∘ PendingHook.inline) = [] := by
      simp [List.filterMap_eq_nil_iff, PendingHook.detachTarget]
    rwa [none, List.append_nil]

theorem snoc {hook : PendingHook} (table : hook.inlineData = none)
    (exports : hook.isExport = true → R.exports)
    (new : ∀ target, hook = .detach target → .detach target ∉ pending) :
    Queues R pending (pending ++ [hook]) [] := by
  refine ⟨?_, fun queued h mem => ?_, fun distinct => ?_⟩
  · rw [pendingData_append]
    simp [pendingData, table]
  · obtain mem | mem := List.mem_append.1 mem
    · exact queued h mem
    · obtain rfl := List.mem_singleton.1 mem
      exact exports
  · rw [List.filterMap_append]
    cases hook with
    | detach target =>
      refine List.nodup_append.2 ⟨distinct, by simp [PendingHook.detachTarget], ?_⟩
      rintro place mem _ here rfl
      obtain ⟨h, mem, eq⟩ := List.mem_filterMap.1 mem
      obtain rfl : place = target := by simpa [PendingHook.detachTarget] using here
      cases h with
      | detach target' =>
        simp only [PendingHook.detachTarget, Option.some.injEq] at eq
        exact new _ rfl (eq ▸ mem)
      | inline | iat | eat | vtable | vtableInstance => cases eq
    | inline d => cases table
    | iat | eat | vtable | vtableInstance => simpa [PendingHook.detachTarget] using distinct

end Queues

theorem Request.run_spec {pending : List PendingHook} {r : Request} {tx : ℕ} {v : View}
    (base : Base v) (sees : s.stage.Sees v) (grants : R.GrantsCall E s (.queue tx r)) :
    ∃ ds v', Queues R pending (r.run E s.process pending).2 ds ∧ Path R E.foreign v v' ∧
      Stage.Sees { s.stage with
        code := (r.run E s.process pending).1
        pend := ↑ds + s.queued } v' := by
  have nothing : Path R E.foreign v v ∧ Stage.Sees { s.stage with
      code := s.process.code
      pend := ↑([] : List InlineData) + s.queued } v := by
    rw [Multiset.coe_nil, Multiset.zero_add]
    exact ⟨.refl, sees⟩
  cases r with
  | attach target detour follow os =>
    have objs : v.objs = s.hooks := by
      rw [sees.objs]
      exact Multiset.add_zero _
    have grants : R.GrantsAttach E.codec v.code v.pend v.objs v.traps target detour follow os := by
      rw [sees.code, sees.pend, sees.traps, objs]
      exact grants
    obtain ⟨ds, queue, path⟩ := @attachInner_path R E.foreign v base sees.flight E.codec pending
      target detour follow os grants
    rw [sees.code] at queue path
    refine ⟨ds, _, ?_, path, rfl, sees.objs, sees.flight, ?_, sees.traps, sees.held⟩
    · change Queues R pending (attachInner E.codec E.foreign s.process.code pending target detour follow
        os).2.2 ds
      rw [show (attachInner E.codec E.foreign s.process.code pending target detour follow os).2.2 = _
        from queue]
      exact .inlines pending ds
    · change ↑ds + v.pend = _
      rw [sees.pend]
      rfl
  | attachIat module dll func detour readable =>
    refine ⟨[], v, ?_, nothing⟩
    simp only [run, NeoHook.attachIat]
    split_ifs
    · exact .refl _
    · cases E.modules.findImport module dll func with
      | error e => exact .refl _
      | ok slot =>
        simp only
        split_ifs
        · exact .refl _
        · exact .snoc rfl (by simp [PendingHook.isExport]) (by simp)
  | attachEat module func detour readable =>
    refine ⟨[], v, ?_, nothing⟩
    simp only [run, NeoHook.attachEat]
    split_ifs
    · exact .refl _
    · cases EatHook.findExport E.modules s.process.tables module func with
      | error e => exact .refl _
      | ok slot =>
        simp only
        split_ifs
        · exact .refl _
        · exact .snoc rfl (fun _ => grants) (by simp)
  | attachVtable vtable index detour readable =>
    refine ⟨[], v, ?_, nothing⟩
    simp only [run, NeoHook.attachVtable]
    split_ifs
    · exact .refl _
    · exact .snoc rfl (by simp [PendingHook.isExport]) (by simp)
  | attachVtableInstance object index len detour =>
    refine ⟨[], v, ?_, nothing⟩
    simp only [run, NeoHook.attachVtableInstance]
    split_ifs
    · exact .refl _
    · exact .snoc rfl (by simp [PendingHook.isExport]) (by simp)
  | detach target =>
    refine ⟨[], v, ?_, nothing⟩
    simp only [run, queueDetach]
    split_ifs with refused
    · exact .refl _
    · refine .snoc rfl (by simp [PendingHook.isExport]) ?_
      rintro _ ⟨rfl⟩ mem
      exact refused (.inl mem)

/-! ### INT3 hooks -/

section

variable {c : Code} {objs : Multiset InlineHook} {pend : Multiset InlineData}
  {traps : Multiset Int3Hook} {held : Multiset Region} {foreign : List Region}

theorem leads_handler {i : Int3Tables} (same : i.slotTarget = c.int3.slotTarget) :
    Leads R foreign ⟨c, objs, 0, pend, traps, held⟩
      ⟨{ c with int3 := i }, objs, 0, pend, traps, held⟩ := by
  rintro v - ⟨rfl, rfl, quiet, rfl, rfl, le⟩
  exact ⟨_, .single (.handler same), rfl, rfl, quiet, rfl, rfl, le⟩

theorem leads_arm {target detour slot : ℕ} {gateway : Option Trampoline} (nonnull : target ≠ 0)
    (clear : c.overlapsLivePatch target 1 = false) (free : c.freeSlot target = .ok slot)
    (rule : R.trap target) :
    Leads R foreign ⟨c, objs, 0, pend, traps, held⟩
      ⟨(c.setSlot slot target detour).store target [int3Opcode] none, objs, 0, pend,
        ⟨target, detour, c.mem target, slot, true, gateway⟩ ::ₘ traps, held⟩ := by
  rintro v - ⟨rfl, rfl, quiet, rfl, rfl, le⟩
  exact ⟨_, .single (.arm quiet nonnull clear free rule), rfl, rfl, quiet, rfl, rfl, le⟩

theorem leads_disarm {t : Int3Hook} :
    Leads R foreign ⟨c, objs, 0, pend, t ::ₘ traps, held⟩
      ⟨(c.store t.target [t.originalByte] none).setSlot t.slot 0 0, objs, 0, pend, traps, held⟩ := by
  rintro v - ⟨rfl, rfl, quiet, rfl, armed, le⟩
  exact ⟨_, .single (.disarm armed), rfl, rfl, quiet, rfl, rfl, le⟩

theorem leads_scar {t : Int3Hook} (rule : R.scar) :
    Leads R foreign ⟨c, objs, 0, pend, t ::ₘ traps, held⟩
      ⟨c.setSlot t.slot 0 0, objs, 0, pend, traps, held⟩ := by
  rintro v - ⟨rfl, rfl, quiet, rfl, armed, le⟩
  exact ⟨_, .single (.scar armed rule), rfl, rfl, quiet, rfl, rfl, le⟩

theorem leads_releaseIdleHandler {idle : Bool} :
    Leads R foreign ⟨c, objs, 0, pend, traps, held⟩
      ⟨c.releaseIdleHandler idle, objs, 0, pend, traps, held⟩ := by
  unfold Code.releaseIdleHandler
  split_ifs
  · exact .refl _
  · exact leads_handler rfl
  · exact .refl _

/-- The stub of an INT3 hook. -/
def gatewayStubs (gateway : Option Trampoline) : Multiset Region :=
  (gateway.toList.map Trampoline.region : Multiset Region)

theorem Int3Hook.arm_spec {c' : Code} {target detour : ℕ} {gateway : Option Trampoline}
    {os : Int3Os} {r : Except Int3HookError Int3Hook} (nonnull : target ≠ 0)
    (rule : Int3Hook.Arms c target os → R.trap target)
    (eq : Int3Hook.arm c target detour gateway os = (r, c')) :
    match r with
    | .error _ => Leads R foreign ⟨c, objs, 0, pend, traps, gatewayStubs gateway + held⟩
        ⟨c', objs, 0, pend, traps, held⟩
    | .ok h => h.gateway = gateway ∧
        Leads R foreign ⟨c, objs, 0, pend, traps, gatewayStubs gateway + held⟩
          ⟨c', objs, 0, pend, h ::ₘ traps, gatewayStubs gateway + held⟩ := by
  unfold Int3Hook.arm at eq
  by_cases overlap : c.overlapsLivePatch target 1 = true
  · rw [if_pos overlap] at eq
    obtain ⟨rfl, rfl⟩ := Prod.mk.inj eq
    exact leads_dropGateway
  · rw [if_neg overlap] at eq
    cases free : c.freeSlot target with
    | error e =>
      rw [free] at eq
      obtain ⟨rfl, rfl⟩ := Prod.mk.inj eq
      exact leads_dropGateway
    | ok slot =>
      simp only [free] at eq
      by_cases refused : c.int3.handler = false ∧ os.handlerOk = false
      · rw [if_pos refused] at eq
        obtain ⟨rfl, rfl⟩ := Prod.mk.inj eq
        exact leads_dropGateway
      · rw [if_neg refused] at eq
        obtain ⟨-, empty⟩ := Dis.freeSlot_spec free
        cases written : ((c.setHandler true).setSlot slot target detour).writeCodeBytes target
            [int3Opcode] none os.writeOk with
        | none =>
          rw [written] at eq
          obtain ⟨rfl, rfl⟩ := Prod.mk.inj eq
          refine Leads.trans ?_ (leads_releaseIdleHandler.trans leads_dropGateway)
          refine leads_handler (funext fun i => ?_)
          by_cases here : i = slot
          · subst here
            simp [Code.setSlot, empty]
          · simp [Code.setSlot, Code.setHandler, here]
        | some c₁ =>
          obtain ⟨-, rfl⟩ := Code.writeCodeBytes_some written
          rw [written] at eq
          obtain ⟨rfl, rfl⟩ := Prod.mk.inj eq
          refine ⟨rfl, ?_⟩
          have handled : Leads R foreign ⟨c, objs, 0, pend, traps, gatewayStubs gateway + held⟩
              ⟨c.setHandler true, objs, 0, pend, traps, gatewayStubs gateway + held⟩ :=
            leads_handler rfl
          have clear : c.overlapsLivePatch target 1 = false := by simpa using overlap
          have writable : os.writeOk = true := by
            unfold Code.writeCodeBytes at written
            by_contra fails
            rw [if_pos (.inr (.inr (Bool.eq_false_iff.mpr fails)))] at written
            cases written
          have handler : c.int3.handler = true ∨ os.handlerOk = true := by
            by_contra unhandled
            exact refused (by simpa using unhandled)
          exact handled.trans (leads_arm nonnull clear free
            (rule ⟨clear, ⟨slot, free⟩, handler, writable⟩))

theorem Int3Hook.leads_drop {h : Int3Hook} {os : Int3Os} (rule : os.writeOk = false → R.scar) :
    Leads R foreign ⟨c, objs, 0, pend, h ::ₘ traps, gatewayStubs h.gateway + held⟩
      ⟨h.drop c os, objs, 0, pend, traps, held⟩ := by
  refine .of_base (fun base sees => base.shapes.traps h (sees.traps ▸ Multiset.mem_cons_self _ _))
    fun ⟨nonnull, active⟩ => ?_
  refine Leads.trans ?_ leads_dropGateway
  unfold Int3Hook.remove
  rw [if_neg (by simp [active])]
  refine Leads.trans ?_ leads_releaseIdleHandler
  have recorded : Leads R foreign ⟨c, objs, 0, pend, h ::ₘ traps, gatewayStubs h.gateway + held⟩
      ⟨c.recordRetired h.target, objs, 0, pend, h ::ₘ traps, gatewayStubs h.gateway + held⟩ :=
    leads_handler rfl
  refine recorded.trans ?_
  unfold Code.writeCodeBytes
  cases ok : os.writeOk with
  | true =>
    rw [if_neg (by simp [nonnull])]
    exact leads_disarm
  | false =>
    rw [if_pos (by simp)]
    exact leads_scar (rule ok)

end

/-! ### One call -/

theorem newPlaces_snd (ffi : Bool) (fresh : ℕ) (hooks : List Hook) :
    (newPlaces ffi fresh hooks).map (·.2) = hooks := by
  unfold newPlaces
  rw [List.map_map]
  exact List.zipIdx_map_fst 0 hooks

/-- A state with the view its run has reached. -/
structure Sim (R : Rules) (s : State) (v : View) : Prop where
  ok : s.Ok R
  sees : s.stage.Sees v

namespace Sim

variable {v : View}

/-- A call that only changes the code. -/
theorem of_leads (base : Base v) (sim : Sim R s v) {s' : State} (ok : s'.Ok R)
    (lead : Leads R E.foreign s.stage s'.stage) : ∃ v', Path R E.foreign v v' ∧ Sim R s' v' := by
  obtain ⟨v', path, sees⟩ := lead v base sim.sees
  exact ⟨v', path, ok, sees⟩

theorem queue (base : Base v) (sim : Sim R s v) {tx : ℕ} {r : Request}
    (grants : R.Grants E s (.queue tx r)) :
    ∃ v', Path R E.foreign v v' ∧ Sim R (s.step E (.queue tx r)) v' := by
  simp only [State.step]
  cases present : s.transaction tx with
  | none => exact ⟨v, .refl, sim⟩
  | some t =>
    simp only
    split_ifs with pending
    · obtain ⟨exports, distinct⟩ := sim.ok.of_transaction present
      obtain ⟨ds, v', queues, path, sees⟩ : ∃ ds v',
          Queues R t.pending (r.run E s.process t.pending).2 ds ∧ Path R E.foreign v v' ∧
            Stage.Sees { s.stage with
              code := (r.run E s.process t.pending).1
              pend := ↑ds + s.queued } v' := by
        by_cases acts : r.Acts E s.process t.pending
        · exact @Request.run_spec R E s t.pending r tx v base sim.sees
            (grants ⟨t, present, pending, acts⟩)
        · rw [Request.run_refused acts]
          refine ⟨[], v, .refl _, .refl, ?_⟩
          rw [Multiset.coe_nil, Multiset.zero_add]
          exact sim.sees
      refine ⟨v', path, sim.ok.setTransaction sim.ok.exports (queues.exports exports)
        (queues.distinct distinct), sees.code, sees.objs, sees.flight, ?_, sees.traps, sees.held⟩
      rw [sees.pend, State.queued_eq present, ← Multiset.add_assoc, ← queues.data]
      exact (State.queued_setTransaction (s := s) tx ⟨_, t.isPending⟩).symm
    · exact ⟨v, .refl, sim⟩

theorem commit (base : Base v) (sim : Sim R s v) {tx : ℕ} {ffi : Bool} {os : CommitOs}
    {threads : Threads} (grants : R.Grants E s (.commit tx ffi os threads)) :
    ∃ v', Path R E.foreign v v' ∧ Sim R (s.step E (.commit tx ffi os threads)) v' := by
  simp only [State.step]
  cases present : s.transaction tx with
  | none => exact ⟨v, .refl, sim⟩
  | some t =>
    simp only
    by_cases refused : t.isPending = false ∨ s.process.code.pass.isSome = true
    · rw [if_pos refused]
      exact ⟨v, .refl, sim⟩
    · rw [if_neg refused]
      have idle : s.process.code.pass = none := by
        simpa using (not_or.1 refused).2
      have pending : t.isPending = true := by
        simpa using (not_or.1 refused).1
      obtain ⟨exports, distinct⟩ := sim.ok.of_transaction present
      cases committed : NeoHook.commit E.modules E.foreign t.pending os s.process threads with
      | mk r rest =>
        obtain ⟨p, threads'⟩ := rest
        obtain ⟨exports', exportsNew, lead⟩ := @commit_spec R E.foreign E.modules os
          (s.queuedElsewhere tx) s.traps s.gateways t.pending s.process p threads threads' r idle
          sim.ok.exports exports distinct (grants ⟨⟨t, present, pending⟩, idle⟩ t present) committed
        rw [← State.queued_eq present] at lead
        cases r with
        | error e =>
          have after : State.stage { s.setTransaction tx ⟨[], true⟩ with process := p } =
              p.stage 0 0 (s.queuedElsewhere tx) s.traps s.gateways := by
            rw [← Multiset.zero_add (s.queuedElsewhere tx)]
            rfl
          refine of_leads base sim
            (sim.ok.setTransaction exports' (by simp) (by simp [List.Nodup])) ?_
          rw [after]
          simp only [returned, inlineHooks, exportStubs, List.map_nil, List.sum_nil,
            zero_add] at lead
          exact lead
        | ok hooks =>
          let p' : Process := { p with hooks := newPlaces ffi s.fresh hooks ++ p.hooks }
          have installed : p'.installed = hooks ++ p.installed := by
            unfold Process.installed
            rw [List.map_append, newPlaces_snd]
          have after : State.stage { s.setTransaction tx ⟨[], false⟩ with
                process := p'
                fresh := s.fresh + hooks.length + 1 } =
              p.stage (inlineHooks hooks) 0 (s.queuedElsewhere tx) s.traps
                (exportStubs hooks + s.gateways) := by
            have objs : inlineHooks p'.installed + 0 = inlineHooks p.installed + inlineHooks hooks := by
              simp [installed, inlineHooks, add_comm]
            have stubs : exportStubs p'.installed + s.gateways =
                exportStubs p.installed + (exportStubs hooks + s.gateways) := by
              simp [installed, exportStubs, add_left_comm, add_assoc]
            have pend : (s.setTransaction tx ⟨[], false⟩).queued = s.queuedElsewhere tx := by
              rw [State.queued_setTransaction]
              exact Multiset.zero_add _
            change (⟨p.code, inlineHooks p'.installed + 0, 0,
              (s.setTransaction tx ⟨[], false⟩).queued, s.traps,
              exportStubs p'.installed + s.gateways⟩ : Stage) = _
            rw [objs, stubs, pend]
            rfl
          refine of_leads base sim (sim.ok.setTransaction ?_ (by simp) (by simp [List.Nodup])) ?_
          · rw [installed]
            intro h mem
            obtain mem | mem := List.mem_append.1 mem
            · exact exportsNew h mem
            · exact exports' h mem
          · rw [after]
            exact lead

theorem abort (base : Base v) (sim : Sim R s v) (tx : ℕ) :
    ∃ v', Path R E.foreign v v' ∧ Sim R (s.step E (.abort tx)) v' := by
  simp only [State.step]
  cases present : s.transaction tx with
  | none => exact ⟨v, .refl, sim⟩
  | some t =>
    simp only
    split_ifs
    · have after : State.stage { s.setTransaction tx ⟨[], false⟩ with
          process := dropPending s.process t.pending } =
          (dropPending s.process t.pending).stage 0 0 (s.queuedElsewhere tx) s.traps s.gateways := by
        rw [← Multiset.zero_add (s.queuedElsewhere tx)]
        rfl
      have before : s.stage = s.process.stage 0 0
          (pendingData t.pending + s.queuedElsewhere tx) s.traps s.gateways := by
        rw [← State.queued_eq present]
        rfl
      refine of_leads base sim
        (sim.ok.setTransaction sim.ok.exports (by simp) (by simp [List.Nodup])) ?_
      rw [after, before]
      exact leads_dropPending t.pending s.process
    · exact ⟨v, .refl, sim⟩

/-- The hooks of the state change. -/
theorem ok_process (ok : s.Ok R) {p : Process} (exports : ExportsOk R p.installed) :
    State.Ok R { s with process := p } :=
  ⟨exports, ok.exportsQueued, ok.distinct⟩

theorem enable (base : Base v) (sim : Sim R s v) (place : Place) (ok : Bool) :
    ∃ v', Path R E.foreign v v' ∧ Sim R (s.step E (.enable place ok)) v' := by
  simp only [State.step]
  cases present : s.process.hookAt place with
  | none => exact ⟨v, .refl, sim⟩
  | some hook =>
    simp only
    cases enabled : hook.enable E.modules s.process.code s.process.tables ok with
    | error e => exact ⟨v, .refl, sim⟩
    | ok r =>
      obtain ⟨c, t, hook'⟩ := r
      obtain ⟨same, -⟩ := @Hook.enable_spec R [] E.modules _ c _ t ok hook hook' 0 0 0 0 0 enabled
      exact of_leads base sim
        (ok_process sim.ok (Process.exportsOk_put present sim.ok.exports (.inr same.exportStub)))
        (Process.leads_enableAt present enabled)

theorem disable (base : Base v) (sim : Sim R s v) (place : Place) (ok : Bool) :
    ∃ v', Path R E.foreign v v' ∧ Sim R (s.step E (.disable place ok)) v' := by
  simp only [State.step]
  cases present : s.process.hookAt place with
  | none => exact ⟨v, .refl, sim⟩
  | some hook =>
    simp only
    cases disabled : hook.disable E.modules s.process.code s.process.tables ok with
    | error e => exact ⟨v, .refl, sim⟩
    | ok r =>
      obtain ⟨c, t, hook'⟩ := r
      obtain ⟨same, -⟩ := @Hook.disable_spec R [] E.modules _ c _ t ok hook hook' 0 0 0 0 0 disabled
      exact of_leads base sim
        (ok_process sim.ok (Process.exportsOk_put present sim.ok.exports (.inr same.exportStub)))
        (Process.leads_disableAt present disabled)

theorem unhook (base : Base v) (sim : Sim R s v) {place : Place} {ok dropOk retargetOk : Bool}
    (grants : R.Grants E s (.unhook place ok dropOk retargetOk)) :
    ∃ v', Path R E.foreign v v' ∧ Sim R (s.step E (.unhook place ok dropOk retargetOk)) v' := by
  simp only [State.step]
  cases present : s.process.hookAt place with
  | none => exact ⟨v, .refl, sim⟩
  | some hook =>
    simp only
    split_ifs with borrowed
    · exact ⟨v, .refl, sim⟩
    · obtain ⟨here, others⟩ := Process.exportsOk_take present sim.ok.exports
      refine of_leads base sim (ok_process sim.ok others) (Process.leads_take present fun _ _ => ?_)
      have acts : (s.process.hookAt place).isSome ∧ s.borrowed place = false :=
        ⟨present ▸ rfl, Bool.eq_false_iff.mpr borrowed⟩
      refine Hook.leads_unhook (fun h eq => grants acts h ?_) here
      rw [← eq]
      exact present

theorem drop (base : Base v) (sim : Sim R s v) {place : Place} {ok retargetOk : Bool}
    (grants : R.Grants E s (.drop place ok retargetOk)) :
    ∃ v', Path R E.foreign v v' ∧ Sim R (s.step E (.drop place ok retargetOk)) v' := by
  simp only [State.step]
  cases present : s.process.hookAt place with
  | none => exact ⟨v, .refl, sim⟩
  | some hook =>
    simp only
    split_ifs with borrowed
    · exact ⟨v, .refl, sim⟩
    · obtain ⟨here, others⟩ := Process.exportsOk_take present sim.ok.exports
      refine of_leads base sim (ok_process sim.ok others) (Process.leads_take present fun _ _ => ?_)
      have acts : (s.process.hookAt place).isSome ∧ s.borrowed place = false :=
        ⟨present ▸ rfl, Bool.eq_false_iff.mpr borrowed⟩
      refine Hook.leads_drop (fun h eq => grants acts h ?_) here
      rw [← eq]
      exact present

/-- Arming an INT3 hook, with the stub the caller built for it. -/
theorem arm {v : View} (base : Base v) (sim : State.Ok R s) {c : Code} {gateway : Option Trampoline}
    (sees : Stage.Sees ⟨c, s.hooks, 0, s.queued, s.traps,
      gatewayStubs gateway + (exportStubs s.process.installed + s.gateways)⟩ v)
    {target detour : ℕ} {os : Int3Os} (nonnull : target ≠ 0)
    (rule : Int3Hook.Arms c target os → R.trap target) :
    ∃ v', Path R E.foreign v v' ∧
      Sim R (match Int3Hook.arm c target detour gateway os with
        | (.error _, c) => s.setCode c
        | (.ok h, c) =>
          { s.setCode c with int3Hooks := (s.fresh, h) :: s.int3Hooks, fresh := s.fresh + 1 }) v' := by
  cases armed : Int3Hook.arm c target detour gateway os with
  | mk r c' =>
    have spec := @Int3Hook.arm_spec R c s.hooks s.queued s.traps
      (exportStubs s.process.installed + s.gateways) E.foreign c' target detour gateway os r nonnull
      rule armed
    cases r with
    | error e =>
      obtain ⟨v', path, sees'⟩ := spec v base sees
      refine ⟨v', path, ⟨sim.exports, sim.exportsQueued, sim.distinct⟩, sees'.code, ?_, sees'.flight,
        sees'.pend, sees'.traps, sees'.held⟩
      rw [sees'.objs]
      exact (Multiset.add_zero _).symm
    | ok h =>
      obtain ⟨stub, lead⟩ := spec
      obtain ⟨v', path, sees'⟩ := lead v base sees
      refine ⟨v', path, ⟨sim.exports, sim.exportsQueued, sim.distinct⟩, sees'.code, ?_, sees'.flight,
        sees'.pend, sees'.traps, ?_⟩
      · rw [sees'.objs]
        exact (Multiset.add_zero _).symm
      · refine le_trans (le_of_eq ?_) sees'.held
        change exportStubs s.process.installed + State.gateways
          { s.setCode c' with int3Hooks := (s.fresh, h) :: s.int3Hooks, fresh := s.fresh + 1 } = _
        have split : State.gateways { s.setCode c' with
            int3Hooks := (s.fresh, h) :: s.int3Hooks
            fresh := s.fresh + 1 } = gatewayStubs gateway + s.gateways := by
          unfold State.gateways
          rw [List.map_cons, List.sum_cons, stub]
          rfl
        rw [split, add_left_comm]

theorem int3Install (base : Base v) (sim : Sim R s v) {target detour : ℕ}
    {gateway : Option (AttachOs × Bool)} {os : Int3Os}
    (grants : R.Grants E s (.int3Install target detour gateway os)) :
    ∃ v', Path R E.foreign v v' ∧ Sim R (s.step E (.int3Install target detour gateway os)) v' := by
  have objs : v.objs = s.hooks := by
    rw [sim.sees.objs]
    exact Multiset.add_zero _
  have unchanged : Sim R (s.setCode s.process.code) v := sim
  simp only [State.step, Int3Hook.install]
  by_cases null : target = 0 ∨ detour = 0
  · rw [if_pos null]
    exact ⟨v, .refl, unchanged⟩
  · rw [if_neg null]
    have nonnull : target ≠ 0 := fun zero => null (.inl zero)
    obtain ⟨rule, stubGrants⟩ := grants ⟨nonnull, fun zero => null (.inr zero)⟩
    cases gateway with
    | none =>
      refine arm base sim.ok ⟨sim.sees.code, objs, sim.sees.flight, sim.sees.pend, sim.sees.traps, ?_⟩
        nonnull rule
      exact (le_of_eq (Multiset.zero_add _)).trans sim.sees.held
    | some g =>
      obtain ⟨aos, makeRx⟩ := g
      have stubGrants : R.GrantsStub v.code.pass v.pend v.objs v.traps
          (originalGatewayAt E.codec v.code target aos) := by
        rw [sim.sees.code, sim.sees.pend, sim.sees.traps, objs]
        exact stubGrants
      obtain ⟨-, path⟩ := @buildOriginalGateway_path R E.foreign v sim.sees.flight E.codec target aos
        makeRx stubGrants
      rw [sim.sees.code] at path
      have base' := base.path path
      simp only
      change Path R E.foreign v { v with
        code := (buildOriginalGateway E.codec E.foreign s.process.code target aos makeRx).2
        held := gatewayStubs
          (buildOriginalGateway E.codec E.foreign s.process.code target aos makeRx).1 + v.held } at path
      cases built : buildOriginalGateway E.codec E.foreign s.process.code target aos makeRx with
      | mk stub c =>
        rw [built] at path
        have base' := base.path path
        cases stub with
        | none =>
          refine ⟨_, path, ⟨sim.ok.exports, sim.ok.exportsQueued, sim.ok.distinct⟩, rfl, sim.sees.objs,
            sim.sees.flight, sim.sees.pend, sim.sees.traps, ?_⟩
          exact sim.sees.held.trans (Multiset.le_add_left _ _)
        | some t =>
          obtain ⟨patches, int3⟩ := @buildOriginalGateway_same E.codec E.foreign s.process.code target
            aos makeRx
          rw [built] at patches int3
          obtain ⟨v', path', sim'⟩ := @arm R E s _ base' sim.ok c (some t)
            ⟨rfl, objs, sim.sees.flight, sim.sees.pend, sim.sees.traps,
              Multiset.add_le_add_left sim.sees.held⟩ target detour os nonnull
            fun arms => rule (arms.of_same patches int3)
          exact ⟨v', path.trans path', sim'⟩

theorem int3Drop (base : Base v) (sim : Sim R s v) {hook : ℕ} {os : Int3Os}
    (grants : R.Grants E s (.int3Drop hook os)) :
    ∃ v', Path R E.foreign v v' ∧ Sim R (s.step E (.int3Drop hook os)) v' := by
  simp only [State.step]
  cases found : s.int3Hooks.find? fun e => e.1 = hook with
  | none => exact ⟨v, .refl, sim⟩
  | some e =>
    let s' : State := { s.setCode (e.2.drop s.process.code os) with
      int3Hooks := s.int3Hooks.eraseP fun e => e.1 = hook }
    have perm := Bag.perm_cons_eraseP found
    have traps : s.traps = e.2 ::ₘ s'.traps := Multiset.coe_eq_coe.2 (perm.map _)
    have stubs : s.gateways = gatewayStubs e.2.gateway + s'.gateways := by
      have sum := (perm.map fun e =>
        (e.2.gateway.toList.map Trampoline.region : Multiset Region)).sum_eq
      rwa [List.map_cons, List.sum_cons] at sum
    refine @of_leads R E s v base sim s' ⟨sim.ok.exports, sim.ok.exportsQueued, sim.ok.distinct⟩ ?_
    have before : s.stage = ⟨s.process.code, inlineHooks s.process.installed + 0, 0, s.queued,
        e.2 ::ₘ s'.traps, gatewayStubs e.2.gateway +
          (exportStubs s.process.installed + s'.gateways)⟩ := by
      rw [← traps, add_left_comm, ← stubs]
      rfl
    rw [before]
    exact Int3Hook.leads_drop (grants (Option.isSome_of_eq_some found))

theorem pass (sim : Sim R s v) {c : Code} (move : ∀ {v}, v.code = s.process.code →
      Path R E.foreign v { v with code := c }) :
    ∃ v', Path R E.foreign v v' ∧ Sim R (s.setCode c) v' := by
  refine ⟨_, move sim.sees.code, ⟨sim.ok.exports, sim.ok.exportsQueued, sim.ok.distinct⟩, rfl,
    sim.sees.objs, sim.sees.flight, sim.sees.pend, sim.sees.traps, sim.sees.held⟩

/-- One call is a sequence of moves. -/
theorem step (base : Base v) (sim : Sim R s v) {op : Op} (grants : R.Grants E s op) :
    ∃ v', Path R E.foreign v v' ∧ Sim R (s.step E op) v' := by
  cases op with
  | begin =>
    refine ⟨v, .refl, ⟨sim.ok.exports, ?_, ?_⟩, sim.sees.code, sim.sees.objs, sim.sees.flight, ?_,
      sim.sees.traps, sim.sees.held⟩
    · intro e mem
      obtain rfl | mem := List.mem_cons.1 mem
      · simp
      · exact sim.ok.exportsQueued e mem
    · intro e mem
      obtain rfl | mem := List.mem_cons.1 mem
      · simp
      · exact sim.ok.distinct e mem
    · rw [sim.sees.pend]
      exact (Multiset.zero_add _).symm
  | queue tx r => exact queue base sim grants
  | commit tx ffi os threads => exact commit base sim grants
  | abort tx => exact abort base sim tx
  | enable place ok => exact enable base sim place ok
  | disable place ok => exact disable base sim place ok
  | unhook place ok dropOk retargetOk => exact unhook base sim grants
  | drop place ok retargetOk => exact drop base sim grants
  | int3Install target detour gateway os => exact int3Install base sim grants
  | int3Drop hook os => exact int3Drop base sim grants
  | beginPass => exact pass sim fun eq => eq ▸ .single .beginPass
  | freeRegions w os =>
    refine pass sim fun {v} eq => ?_
    unfold Code.freeRegions
    split
    · next regions draining =>
      rw [← eq] at draining ⊢
      exact .single (.freeRegions draining freeQuiescentRegions_perm)
    · rw [← eq]
      exact .refl
  | settlePass addOk =>
    cases running : s.process.code.pass with
    | none =>
      have idle : s.process.code.settlePass addOk = s.process.code := by
        unfold Code.settlePass
        rw [running]
      exact pass sim fun eq => by rw [idle, ← eq]; exact .refl
    | some _ =>
      have busy := Option.isSome_of_eq_some running
      exact pass sim fun eq => eq ▸ .single (.settlePass (grants busy))

end Sim

/-! ### Whole runs -/

/-- The view of a process that nothing is hooked in. -/
def View.initial (pristine : ℕ → UInt8) (tables : Tables) : View where
  code := (State.initial pristine tables).process.code
  objs := 0
  flight := 0
  stranded := 0
  pend := 0
  traps := 0
  held := 0

theorem Base.initial (pristine : ℕ → UInt8) (tables : Tables) :
    Base (View.initial pristine tables) := by
  have none : (View.initial pristine tables).installed = 0 := rfl
  have pairs : ∀ {α : Type} {r : α → α → Prop}, (0 : Multiset α).Pairwise r := ⟨[], rfl, .nil⟩
  refine ⟨⟨?_, .nil, ?_, ?_, ?_, .nil, ?_⟩, ⟨?_, ?_, ?_, ?_, ?_⟩,
    ⟨.nil, ?_, ?_, none ▸ pairs, pairs, ?_, ?_, ?_, pairs⟩, ⟨?_, ?_, ?_, ?_, ?_⟩⟩
  · intro r
    simp [View.initial, State.initial, View.owners, Code.parked, Code.orphanAt, Code.retired,
      Code.passRegions]
  all_goals simp [View.initial, State.initial, Code.OrphansOk, Code.orphanAt, View.installed,
    publishedOf, View.dependents, Code.Logged, Code.retired, Code.passRegions]

theorem Sim.initial (pristine : ℕ → UInt8) (tables : Tables) :
    Sim R (State.initial pristine tables) (View.initial pristine tables) := by
  refine ⟨⟨?_, ?_, ?_⟩, rfl, rfl, rfl, rfl, rfl, le_rfl⟩
  · intro h mem
    cases mem
  · intro e mem
    cases mem
  · intro e mem
    cases mem

/-- A run whose calls the rules grant is a path of moves, and what every move keeps holds of it. -/
theorem State.Reachable.sim {allowed : State → Op → Prop} {pristine : ℕ → UInt8} {Inv : View → Prop}
    (run : State.Reachable E allowed pristine s)
    (grants : ∀ {s op}, allowed s op → R.Grants E s op)
    (start : ∀ tables, Inv (View.initial pristine tables))
    (move : ∀ {v v'}, Move R E.foreign v v' → Base v → Inv v → Inv v') :
    ∃ v, Sim R s v ∧ Base v ∧ Inv v := by
  induction run with
  | initial tables => exact ⟨_, .initial pristine tables, .initial pristine tables, start tables⟩
  | step op _ meets ih =>
    obtain ⟨v, sim, base, inv⟩ := ih
    obtain ⟨v', path, sim'⟩ := sim.step base (grants meets)
    have both : Base v' ∧ Inv v' := Path.invariant
      (fun m (both : Base _ ∧ Inv _) => ⟨both.1.move m, move m both.1 both.2⟩) path ⟨base, inv⟩
    exact ⟨v', sim', both⟩

end NeoHook
