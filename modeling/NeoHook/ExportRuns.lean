import NeoHook.ExportLedger
import NeoHook.InstalledRanges

/-!
# Runs with export hooks

The calls of `Machine` restricted to export hooks: transactions that queue export hooks and
detaches, and everything that can be done to the hooks they install.  Each part of a commit is a few
moves of the ledger, so every call keeps its invariant.
-/

namespace NeoHook

open ByteMap

/-- The export hook. -/
def Hook.exportHook : Hook → Option EatHook
  | .eat h => some h
  | _ => none

def exportHooks (hooks : List Hook) : Multiset EatHook := ↑(hooks.filterMap Hook.exportHook)

/-- Every hook is an export hook. -/
def OnlyExports (hooks : List Hook) : Prop := ∀ h ∈ hooks, ∃ k, h = Hook.eat k

@[simp] theorem exportHooks_cons (k : EatHook) (hooks : List Hook) :
    exportHooks (.eat k :: hooks) = k ::ₘ exportHooks hooks := rfl

theorem exportHooks_snoc (k : EatHook) (hooks : List Hook) :
    exportHooks (hooks ++ [.eat k]) = k ::ₘ exportHooks hooks := by
  unfold exportHooks
  rw [List.filterMap_append, ← Multiset.coe_add, add_comm]
  rfl

variable {w₀ : ℕ → ℕ} {M : Modules} {foreign : List Region}

namespace Process

/-- The ledger of a process and a commit in progress. -/
def ledger (p : Process) (flight : Multiset EatHook) (spare : Multiset Region) (log : StubLog) :
    StubLedger :=
  ⟨p.code, p.tables, exportHooks p.installed + flight, spare, log⟩

/-- The process has export hooks only, and its ledger is in order. -/
structure InOrder (w₀ : ℕ → ℕ) (p : Process) (flight : Multiset EatHook)
    (spare : Multiset Region) (log : StubLog) : Prop where
  only : OnlyExports p.installed
  inv : (p.ledger flight spare log).Inv w₀

variable {p : Process} {place : Place} {hook : Hook} {k k' : EatHook} {flight : Multiset EatHook}
  {spare : Multiset Region} {log log' : StubLog} {c : Code} {t : Tables}

theorem InOrder.hookAt (order : p.InOrder w₀ flight spare log)
    (present : p.hookAt place = some hook) : ∃ k, hook = .eat k :=
  order.only hook ((perm_take present).mem_iff.2 List.mem_cons_self)

theorem exportHooks_take (present : p.hookAt place = some (.eat k)) :
    exportHooks p.installed = k ::ₘ exportHooks (p.take place).installed :=
  Multiset.coe_eq_coe.2 ((perm_take present).filterMap _)

theorem OnlyExports.take (only : OnlyExports p.installed) (place : Place) :
    OnlyExports (p.take place).installed := by
  intro h mem
  obtain ⟨e, left, rfl⟩ := List.mem_map.1 mem
  exact only _ (List.mem_map.2 ⟨e, List.mem_of_mem_eraseP left, rfl⟩)

theorem ledger_live (present : p.hookAt place = some (.eat k)) (flight : Multiset EatHook)
    (spare : Multiset Region) (log : StubLog) :
    (p.ledger flight spare log).live =
      k ::ₘ (exportHooks (p.take place).installed + flight) := by
  rw [← Multiset.cons_add, ← exportHooks_take present]
  rfl

/-- The hook at a place takes a new value. -/
theorem InOrder.put (order : p.InOrder w₀ flight spare log)
    (present : p.hookAt place = some (.eat k))
    (moves : ∀ rest, (p.ledger flight spare log).live = k ::ₘ rest →
      StubLedger.Inv w₀ ⟨c, t, k' ::ₘ rest, spare, log'⟩) :
    InOrder w₀ { p.put place (.eat k') with code := c, tables := t } flight spare log' := by
  refine ⟨?_, ?_⟩
  · rintro h (_ | ⟨_, mem⟩)
    · exact ⟨k', rfl⟩
    · exact OnlyExports.take order.only place h mem
  · have moved := moves _ (ledger_live present flight spare log)
    rw [← Multiset.cons_add] at moved
    exact moved

/-- The hook is taken out of its place. -/
theorem InOrder.take (order : p.InOrder w₀ flight spare log)
    (present : p.hookAt place = some (.eat k))
    (moves : ∀ rest, (p.ledger flight spare log).live = k ::ₘ rest →
      StubLedger.Inv w₀ ⟨c, t, rest, spare, log'⟩) :
    InOrder w₀ { p.take place with code := c, tables := t } flight spare log' :=
  ⟨OnlyExports.take order.only place, moves _ (ledger_live present flight spare log)⟩

theorem InOrder.disableAt (order : p.InOrder w₀ flight spare log)
    (present : p.hookAt place = some hook) {ok : Bool} {hook' : Hook}
    (eq : hook.disable M p.code p.tables ok = .ok (c, t, hook')) :
    InOrder w₀ { p.put place hook' with code := c, tables := t } flight spare log ∧
      hook'.isEnabled = false ∧ c = p.code := by
  obtain ⟨k, rfl⟩ := order.hookAt present
  obtain ⟨⟨t, k'⟩, disabled, eq⟩ := map_eq_ok.1 eq
  simp only [Prod.mk.injEq] at eq
  obtain ⟨rfl, rfl, rfl⟩ := eq
  exact ⟨order.put present fun rest live => (order.inv.disable live disabled).1,
    (order.inv.disable (ledger_live present flight spare log) disabled).2, rfl⟩

theorem InOrder.enableAt (order : p.InOrder w₀ flight spare log)
    (present : p.hookAt place = some hook) {ok : Bool} {hook' : Hook}
    (eq : hook.enable M p.code p.tables ok = .ok (c, t, hook')) :
    InOrder w₀ { p.put place hook' with code := c, tables := t } flight spare log := by
  obtain ⟨k, rfl⟩ := order.hookAt present
  obtain ⟨⟨t, k'⟩, enabled, eq⟩ := map_eq_ok.1 eq
  simp only [Prod.mk.injEq] at eq
  obtain ⟨rfl, rfl, rfl⟩ := eq
  exact order.put present fun rest live => order.inv.enable live enabled

/-- Only the code changes, and no stub an entry has named. -/
theorem InOrder.setCode (order : p.InOrder w₀ flight spare log)
    {spare' : Multiset Region} (stubs : StubsKept c (stubRegions log.hooks + spare'))
    (same : ∀ r ∈ stubRegions log.hooks,
      read c.mem r.base managedGatewayLen = read p.code.mem r.base managedGatewayLen) :
    InOrder w₀ { p with code := c } flight spare' log :=
  ⟨order.only, order.inv.setCode stubs same⟩

end Process

/-! ### Reserving stubs -/

section Reserving

variable {p p' : Process} {flight : Multiset EatHook} {spare : Multiset Region}
  {log : StubLog}

/-- A queue entry for an export hook or a detach, with what a commit reserves for it. -/
inductive ExportEntry : PendingHook × Reserved → Prop
  | eat {module detour slot : ℕ} {func : String} {prepared : PreparedEat} :
    ExportEntry (.eat module func detour slot, .eat prepared)
  | detach {target : Place} : ExportEntry (.detach target, .nothing)

/-- A queue with export hooks and detaches only. -/
def PendingHook.onExports : PendingHook → Bool
  | .eat .. | .detach _ => true
  | _ => false

theorem prepareExport_inOrder (order : p.InOrder w₀ flight spare log)
    {module detour : ℕ} {func : String} {at_ : Option ℕ} {c : Code}
    {r : Except DetourError PreparedEat}
    (eq : prepareExport M foreign p.code p.tables module func detour at_ = (r, c)) :
    Process.InOrder w₀ { p with code := c } flight
      ((match r with
        | .error _ => 0
        | .ok prepared => (Reserved.eat prepared).stubs) + spare) log := by
  have nothing : Process.InOrder w₀ { p with code := p.code } flight (0 + spare)
      log := by
    rw [zero_add]
    exact order
  unfold prepareExport at eq
  by_cases null : module = 0 ∨ detour = 0
  · rw [if_pos null] at eq
    obtain ⟨rfl, rfl⟩ := eq
    exact nothing
  · rw [if_neg null] at eq
    cases found : EatHook.findExport M p.tables module func with
    | error e =>
      rw [found] at eq
      obtain ⟨rfl, rfl⟩ := eq
      exact nothing
    | ok slot =>
      rw [found] at eq
      simp only at eq
      by_cases near : module ≤ detour ∧ detour - module < 2 ^ 32
      · rw [if_pos near] at eq
        obtain ⟨rfl, rfl⟩ := eq
        exact nothing
      · rw [if_neg near] at eq
        cases alloc : p.code.allocNearbyTrampoline foreign at_ managedGatewayLen with
        | none =>
          rw [alloc] at eq
          obtain ⟨rfl, rfl⟩ := eq
          exact nothing
        | some a =>
          obtain ⟨c', stub⟩ := a
          rw [alloc] at eq
          obtain ⟨rfl, rfl⟩ := eq
          obtain ⟨⟨size, -⟩, free, rfl⟩ := Code.allocNearbyTrampoline_eq_some alloc
          obtain ⟨stubs, same⟩ := order.inv.stubs.allocate free size detour
          refine order.setCode ?_ fun r mem => same r (Multiset.mem_add.2 (.inl mem))
          rw [← Multiset.add_cons] at stubs
          exact stubs

theorem reserve_inOrder (order : p.InOrder w₀ flight spare log)
    {hook : PendingHook} (exports : hook.onExports = true) {earlier : List PendingHook} {index : ℕ}
    {os : CommitOs} {r : Except (HookKind × DetourError) Reserved}
    (eq : reserve M foreign earlier index hook os p = (r, p')) :
    match r with
    | .error _ => p'.InOrder w₀ flight spare log
    | .ok reserved => ExportEntry (hook, reserved) ∧
        p'.InOrder w₀ flight (reserved.stubs + spare) log := by
  cases hook with
  | inline d => cases exports
  | iat module dll func detour slot => cases exports
  | vtable vtable i detour => cases exports
  | vtableInstance object len i detour => cases exports
  | detach target =>
    obtain ⟨rfl, rfl⟩ := eq
    refine ⟨.detach, ?_⟩
    change p.InOrder w₀ flight (0 + spare) log
    rw [zero_add]
    exact order
  | eat module func detour slot =>
    unfold reserve at eq
    cases prepared : prepareExport M foreign p.code p.tables module func detour (os.stubAt index) with
    | mk r' c =>
      have done := prepareExport_inOrder order prepared
      simp only [prepared] at eq
      cases r' with
      | error e =>
        obtain ⟨rfl, rfl⟩ := eq
        rw [zero_add] at done
        exact done
      | ok e =>
        obtain ⟨rfl, rfl⟩ := eq
        exact ⟨.eat, done⟩

theorem dropReserved_inOrder {reserved : List Reserved}
    (entries : ∀ r ∈ reserved, ∃ hook, ExportEntry (hook, r))
    (order : p.InOrder w₀ flight (reservedStubs reserved + spare) log) :
    (dropReserved p reserved).InOrder w₀ flight spare log := by
  induction reserved generalizing p with
  | nil =>
    rw [show reservedStubs [] = 0 from rfl, zero_add] at order
    exact order
  | cons r rest ih =>
    refine ih (p := Reserved.drop p r) (fun r' mem => entries r' (List.mem_cons_of_mem _ mem)) ?_
    rw [show reservedStubs (r :: rest) = r.stubs + reservedStubs rest from rfl, add_assoc] at order
    obtain ⟨hook, entry⟩ := entries r List.mem_cons_self
    cases entry with
    | detach =>
      rw [show Reserved.nothing.stubs = 0 from rfl, zero_add] at order
      exact order
    | @eat _ _ _ _ prepared =>
      cases stub : prepared.stub with
      | none =>
        rw [show (Reserved.eat prepared).stubs = 0 by simp [Reserved.stubs, stub], zero_add]
          at order
        simp only [Reserved.drop, stub, Code.dropGateway]
        exact order
      | some t =>
        have one : (Reserved.eat prepared).stubs = {t.region} := by
          simp [Reserved.stubs, stub]
        rw [one, Multiset.singleton_add] at order
        simp only [Reserved.drop, stub, Code.dropGateway]
        have stubs := order.inv.stubs
        change StubsKept p.code (stubRegions log.hooks + t.region ::ₘ (reservedStubs rest + spare))
          at stubs
        rw [Multiset.add_cons] at stubs
        obtain ⟨dropped, same⟩ := stubs.discard
        refine order.setCode dropped fun r mem => ?_
        rw [same]

theorem reserveAll_inOrder {os : CommitOs} {rest earlier : List PendingHook}
    {reserved : List Reserved} {r : Except DetourError (List Reserved)}
    (exports : ∀ hook ∈ rest, hook.onExports = true)
    (entries : ∀ e ∈ earlier.zip reserved, ExportEntry e) (length : earlier.length = reserved.length)
    (order : p.InOrder w₀ flight (reservedStubs reserved) log)
    (eq : reserveAll M foreign os earlier reserved rest p = (r, p')) :
    match r with
    | .error _ => p'.InOrder w₀ flight 0 log
    | .ok reserved' => (∀ e ∈ (earlier ++ rest).zip reserved', ExportEntry e) ∧
        (earlier ++ rest).length = reserved'.length ∧
        p'.InOrder w₀ flight (reservedStubs reserved') log := by
  induction rest generalizing earlier reserved p with
  | nil =>
    obtain ⟨rfl, rfl⟩ := eq
    rw [List.append_nil]
    exact ⟨entries, length, order⟩
  | cons hook rest ih =>
    unfold reserveAll at eq
    cases one : reserve M foreign earlier earlier.length hook os p with
    | mk r₁ p₁ =>
      have done := reserve_inOrder order (exports hook List.mem_cons_self) one
      rw [one] at eq
      cases r₁ with
      | error e =>
        obtain ⟨kind, source⟩ := e
        obtain ⟨rfl, rfl⟩ := eq
        refine dropReserved_inOrder (fun r mem => ?_) (by rwa [add_zero])
        obtain ⟨i, found⟩ := List.mem_iff_getElem?.1 mem
        obtain ⟨inside, rfl⟩ := List.getElem?_eq_some_iff.1 found
        refine ⟨earlier[i], entries _ ?_⟩
        rw [← List.getElem_zip (h := by rw [List.length_zip]; omega)]
        exact List.getElem_mem _
      | ok slot =>
        obtain ⟨entry, done⟩ := done
        have entries' : ∀ e ∈ (earlier ++ [hook]).zip (reserved ++ [slot]), ExportEntry e := by
          intro e mem
          rw [List.zip_append length] at mem
          rcases List.mem_append.1 mem with mem | mem
          · exact entries e mem
          · obtain rfl := List.mem_singleton.1 mem
            exact entry
        have more := ih (fun h mem => exports h (List.mem_cons_of_mem _ mem)) entries'
          (by simp [length]) (by rwa [reservedStubs_snoc]) eq
        rw [List.append_assoc] at more
        cases r with
        | error e => exact more
        | ok reserved' => exact more

end Reserving

/-! ### The suspend window -/

/-- The log with the entries that have been written in the window; `before` is the log when the
commit began. -/
def Window.log (before : StubLog) (w : Window) : StubLog :=
  before.write w.process.code (w.installed.filterMap Hook.exportHook)

/-- The window of a commit that installs and detaches export hooks. -/
structure Window.InOrder (w₀ : ℕ → ℕ) (before : StubLog) (w : Window)
    (entries : List (PendingHook × Reserved)) : Prop where
  only : OnlyExports w.installed
  process : w.process.InOrder w₀ (exportHooks w.installed)
    (reservedStubs (entries.map (·.2))) (w.log before)
  spare : w.spare = []
  queued : ∀ e ∈ entries, ExportEntry e
  places : (w.detached.map (·.1) ++ entries.filterMap (·.1.detachTarget)).Nodup
  off : ∀ d ∈ w.detached, ∀ hook, w.process.hookAt d.1 = some hook → hook.isEnabled = false

theorem EatHook.install_cases (t : Tables) (module : ℕ) (func : String) (prepared : PreparedEat)
    (ok : Bool) :
    (∃ e, EatHook.install t module func prepared ok = (.error e, t)) ∨
      prepared.slotPtr ≠ 0 ∧ prepared.slotPtr ∉ t.tableSlots ∧
        EatHook.install t module func prepared ok =
          (.ok ⟨module, func, prepared.slotPtr, t.words prepared.slotPtr, prepared.detourRva,
              (module + t.words prepared.slotPtr) % 2 ^ 64, prepared.stub, true, true, true⟩,
            { t with
              words := Function.update t.words prepared.slotPtr prepared.detourRva
              tableSlots := insert prepared.slotPtr t.tableSlots }) := by
  unfold EatHook.install Tables.claimTableSlot
  by_cases taken : prepared.slotPtr ∈ t.tableSlots
  · rw [if_pos taken]
    exact .inl ⟨_, rfl⟩
  · rw [if_neg taken]
    have released : ({ t with tableSlots := insert prepared.slotPtr t.tableSlots } :
        Tables).releaseTableSlot prepared.slotPtr = t := by
      unfold Tables.releaseTableSlot
      rw [Finset.erase_insert taken]
    simp only [EatHook.writeExportRva]
    by_cases null : prepared.slotPtr = 0
    · rw [if_pos null, released]
      exact .inl ⟨_, rfl⟩
    · rw [if_neg null]
      cases ok with
      | false =>
        rw [if_neg (by decide), released]
        exact .inl ⟨_, rfl⟩
      | true => exact .inr ⟨null, taken, rfl⟩

section Window

variable {w w' : Window} {before : StubLog} {entries rest : List (PendingHook × Reserved)}
  {os : CommitOs} {index : ℕ}

/-- The entries a step of the install loop leaves. -/
def leftAfter (r : Except (HookKind × DetourError) Unit) (e : PendingHook × Reserved)
    (rest : List (PendingHook × Reserved)) : List (PendingHook × Reserved) :=
  match r with
  | .error _ => e :: rest
  | .ok () => rest

/-- An export hook is installed. -/
theorem Window.InOrder.installEat {module detour slot : ℕ} {func : String} {prepared : PreparedEat}
    (order : w.InOrder w₀ before ((.eat module func detour slot, .eat prepared) :: rest))
    {r : Except (HookKind × DetourError) Unit}
    (eq : installStep M index (.eat module func detour slot) (.eat prepared) os w = (r, w')) :
    w'.InOrder w₀ before
      (leftAfter r (.eat module func detour slot, .eat prepared) rest) := by
  simp only [installStep] at eq
  rcases EatHook.install_cases w.process.tables module func prepared (os.patchOk index) with
    ⟨e, failed⟩ | ⟨nonnull, free, installed⟩
  · rw [failed] at eq
    obtain ⟨rfl, rfl⟩ := eq
    exact order
  · rw [installed] at eq
    obtain ⟨rfl, rfl⟩ := eq
    refine ⟨?_, ⟨order.process.only, ?_⟩, ?_, fun e mem => order.queued e (List.mem_cons_of_mem _ mem),
      order.places, order.off⟩
    · intro h mem
      rcases List.mem_append.1 mem with mem | mem
      · exact order.only h mem
      · exact ⟨_, List.mem_singleton.1 mem⟩
    · let k : EatHook := ⟨module, func, prepared.slotPtr, w.process.tables.words prepared.slotPtr,
        prepared.detourRva, (module + w.process.tables.words prepared.slotPtr) % 2 ^ 64,
        prepared.stub, true, true, true⟩
      let t : Tables := { w.process.tables with
        words := Function.update w.process.tables.words prepared.slotPtr prepared.detourRva
        tableSlots := insert prepared.slotPtr w.process.tables.tableSlots }
      have taken : reservedStubs (((PendingHook.eat module func detour slot, Reserved.eat prepared) ::
          rest).map (·.2)) = stubRegions [k] + reservedStubs (rest.map (·.2)) := by
        cases stub : prepared.stub with
        | none => simp [reservedStubs, stubRegions, Reserved.stubs, stub, k]
        | some t => simp [reservedStubs, stubRegions, Reserved.stubs, stub, k]
      have moved := order.process.inv.install (k := k) (t := t) rfl nonnull free rfl rfl taken rfl rfl
      rw [Window.log, Window.push, exportHooks_snoc, List.filterMap_append, StubLog.write_append]
      unfold Process.ledger
      rw [Multiset.add_cons]
      exact moved
    · change w.spare ++ [] = []
      rw [order.spare, List.append_nil]

/-- A hook is disabled for a detach. -/
theorem Window.InOrder.prepareDetach {target : Place}
    (order : w.InOrder w₀ before ((.detach target, .nothing) :: rest))
    {r : Except (HookKind × DetourError) Unit}
    (eq : installStep M index (.detach target) .nothing os w = (r, w')) :
    w'.InOrder w₀ before (leftAfter r (.detach target, .nothing) rest) := by
  have places : (w.detached.map (·.1) ++ target :: rest.filterMap (·.1.detachTarget)).Nodup :=
    order.places
  have apart : ∀ d ∈ w.detached, d.1 ≠ target := fun d mem eq =>
    (List.nodup_append.1 places).2.2 _ (List.mem_map_of_mem mem) _ List.mem_cons_self eq
  have moved : (w.detached.map (·.1) ++ [target] ++ rest.filterMap (·.1.detachTarget)).Nodup := by
    rw [List.append_assoc]
    exact places
  have queued : ∀ e ∈ rest, ExportEntry e := fun e mem =>
    order.queued e (List.mem_cons_of_mem _ mem)
  have finish : ∀ {p : Process} {wasEnabled : Bool},
      p.InOrder w₀ (exportHooks w.installed) (reservedStubs (rest.map (·.2))) (w.log before) →
      p.code = w.process.code →
      (∀ hook, p.hookAt target = some hook → hook.isEnabled = false) →
      (∀ d ∈ w.detached, p.hookAt d.1 = w.process.hookAt d.1) →
      Window.InOrder w₀ before
        { w with process := p, detached := w.detached ++ [(target, wasEnabled)] } rest := by
    intro p wasEnabled inOrder code now others
    refine ⟨order.only, ?_, order.spare, queued, by rwa [List.map_append], ?_⟩
    · rw [Window.log, code]
      exact inOrder
    intro d mem hook present
    rcases List.mem_append.1 mem with mem | mem
    · rw [others d mem] at present
      exact order.off d mem hook present
    · obtain rfl := List.mem_singleton.1 mem
      exact now hook present
  have process : w.process.InOrder w₀ (exportHooks w.installed)
      (reservedStubs (rest.map (·.2))) (w.log before) := by
    have same := order.process
    rw [List.map_cons, show reservedStubs (Reserved.nothing :: rest.map (·.2)) =
      0 + reservedStubs (rest.map (·.2)) from rfl, zero_add] at same
    exact same
  simp only [installStep, NeoHook.prepareDetach] at eq
  cases present : w.process.hookAt target with
  | none =>
    rw [present] at eq
    obtain ⟨rfl, rfl⟩ := eq
    exact order
  | some hook =>
    rw [present] at eq
    simp only at eq
    by_cases on : hook.isEnabled = true
    · rw [if_pos on] at eq
      cases disabled : hook.disable M w.process.code w.process.tables (os.patchOk index) with
      | error e =>
        rw [disabled] at eq
        obtain ⟨rfl, rfl⟩ := eq
        exact order
      | ok r' =>
        obtain ⟨c, t, hook'⟩ := r'
        rw [disabled] at eq
        obtain ⟨rfl, rfl⟩ := eq
        obtain ⟨inOrder, off, same⟩ := process.disableAt present disabled
        refine finish inOrder same (fun hook present' => ?_) fun d mem =>
          Process.hookAt_put_of_ne (apart d mem)
        have same : Process.hookAt { w.process.put target hook' with code := c, tables := t } target =
          some hook' := Process.hookAt_put_self
        obtain rfl := Option.some.inj (same.symm.trans present')
        exact off
    · rw [if_neg on] at eq
      obtain ⟨rfl, rfl⟩ := eq
      refine finish process rfl (fun hook' present' => ?_) fun _ _ => rfl
      obtain rfl := Option.some.inj (present.symm.trans present')
      exact Bool.eq_false_iff.2 on

theorem Window.InOrder.installAll (order : w.InOrder w₀ before entries)
    {r : Option (DetourError × List (PendingHook × Reserved))}
    (eq : installAll M os index entries w = (r, w')) :
    w'.InOrder w₀ before ((r.map (·.2)).getD []) := by
  induction entries generalizing w index with
  | nil =>
    obtain ⟨rfl, rfl⟩ := eq
    exact order
  | cons e rest ih =>
    obtain ⟨hook, reserved⟩ := e
    unfold NeoHook.installAll at eq
    cases step : installStep M index hook reserved os w with
    | mk r₁ w₁ =>
      have done : w₁.InOrder w₀ before (leftAfter r₁ (hook, reserved) rest) := by
        have entry := order.queued _ List.mem_cons_self
        cases entry with
        | eat => exact order.installEat step
        | detach => exact order.prepareDetach step
      rw [step] at eq
      cases r₁ with
      | error e =>
        obtain ⟨kind, source⟩ := e
        obtain ⟨rfl, rfl⟩ := eq
        exact done
      | ok u => exact ih done eq

end Window

/-! ### Rolling back -/

section Finishing

variable {p : Process} {flight : Multiset EatHook} {spare : Multiset Region} {log log' : StubLog}
  {os : CommitOs}

theorem rollbackDetaches_inOrder (order : p.InOrder w₀ flight spare log)
    (detached : List (Place × Bool)) :
    (rollbackDetaches M os p detached).InOrder w₀ flight spare log := by
  unfold rollbackDetaches
  induction detached.zipIdx with
  | nil => exact order
  | cons d rest ih =>
    rw [List.foldr_cons]
    generalize rest.foldr (fun d p => rollbackDetach M p d.1.1 d.1.2 (os.reenableOk d.2)) p = q at ih
    unfold rollbackDetach
    cases present : q.hookAt d.1.1 with
    | none => exact ih
    | some hook =>
      simp only
      split_ifs
      · cases enabled : hook.enable M q.code q.tables (os.reenableOk d.2) with
        | error e => exact ih
        | ok r => exact ih.enableAt present enabled
      · exact ih

/-- A hook in flight takes a new value. -/
theorem Process.InOrder.flying {k k' : EatHook} {t : Tables} {c : Code}
    (order : p.InOrder w₀ (k ::ₘ flight) spare log)
    (moves : ∀ rest, (p.ledger (k ::ₘ flight) spare log).live = k ::ₘ rest →
      StubLedger.Inv w₀ ⟨c, t, k' ::ₘ rest, spare, log⟩) :
    Process.InOrder w₀ { p with code := c, tables := t } (k' ::ₘ flight) spare log := by
  refine ⟨order.only, ?_⟩
  have moved := moves (exportHooks p.installed + flight) (Multiset.add_cons _ _ _)
  rw [← Multiset.add_cons] at moved
  exact moved

theorem undoInstalled_inOrder {installed : List (Hook × ℕ)}
    (only : OnlyExports (installed.map (·.1)))
    (order : p.InOrder w₀ (exportHooks (installed.map (·.1)) + flight) spare log) :
    OnlyExports ((undoInstalled M os p installed).2.map (·.1)) ∧
      (undoInstalled M os p installed).1.InOrder w₀
        (exportHooks ((undoInstalled M os p installed).2.map (·.1)) + flight) spare log := by
  induction installed generalizing flight with
  | nil => exact ⟨only, order⟩
  | cons h rest ih =>
    obtain ⟨hook, index⟩ := h
    obtain ⟨k, rfl⟩ := only hook List.mem_cons_self
    rw [List.map_cons, exportHooks_cons, Multiset.cons_add, ← Multiset.add_cons] at order
    obtain ⟨only', order'⟩ := ih (fun h mem => only h (List.mem_cons_of_mem _ mem)) order
    rw [undoInstalled_cons]
    generalize undoInstalled M os p rest = done at only' order'
    have stays : ∀ k', OnlyExports (Hook.eat k' :: done.2.map (·.1)) := by
      rintro k' h (_ | ⟨_, mem⟩)
      · exact ⟨k', rfl⟩
      · exact only' h mem
    rw [Multiset.add_cons] at order'
    cases disabled : Hook.disable M done.1.code done.1.tables (os.undoOk index) (.eat k) with
    | error e =>
      refine ⟨stays k, ?_⟩
      rw [List.map_cons, exportHooks_cons, Multiset.cons_add]
      exact order'
    | ok r =>
      obtain ⟨⟨t, k'⟩, off, rfl⟩ := map_eq_ok.1 disabled
      refine ⟨stays k', ?_⟩
      rw [List.map_cons, exportHooks_cons, Multiset.cons_add]
      exact order'.flying fun rest live => (order'.inv.disable live off).1

/-- A hook goes, if it is an export hook. -/
def StubLog.leaveHook (log : StubLog) (hook : Hook) (ok retargetOk : Bool) : StubLog :=
  match hook.exportHook with
  | none => log
  | some k => log.leave k ok retargetOk

/-- The hooks that a failed commit takes back go. -/
def StubLog.leaveInstalled (os : CommitOs) (log : StubLog) (installed : List (Hook × ℕ)) : StubLog :=
  installed.foldl (fun log h => log.leaveHook h.1 (os.dropOk h.2) (os.retargetOk h.2)) log

theorem dropInstalled_inOrder {installed : List (Hook × ℕ)}
    (only : OnlyExports (installed.map (·.1)))
    (order : p.InOrder w₀ (exportHooks (installed.map (·.1)) + flight) spare log) :
    (dropInstalled M os p installed).InOrder w₀ flight spare (log.leaveInstalled os installed) := by
  induction installed generalizing p log with
  | nil =>
    change p.InOrder w₀ (0 + flight) spare log at order
    rwa [zero_add] at order
  | cons h rest ih =>
    obtain ⟨hook, index⟩ := h
    obtain ⟨k, rfl⟩ := only hook List.mem_cons_self
    rw [List.map_cons, exportHooks_cons, Multiset.cons_add] at order
    refine @ih _ (log.leave k (os.dropOk index) (os.retargetOk index))
      (fun h mem => only h (List.mem_cons_of_mem _ mem)) ⟨order.only, ?_⟩
    exact order.inv.drop (Multiset.add_cons _ _ _) (os.dropOk index) (os.retargetOk index)

theorem dropPending_of_exports {pending : List PendingHook}
    (exports : ∀ hook ∈ pending, hook.onExports = true) (p : Process) :
    dropPending p pending = p := by
  have same : pending.foldl PendingHook.drop p.code = p.code := by
    induction pending with
    | nil => rfl
    | cons hook rest ih =>
      have first : PendingHook.drop p.code hook = p.code := by
        have exported := exports hook List.mem_cons_self
        cases hook with
        | inline d => cases exported
        | iat | eat | vtable | vtableInstance | detach => rfl
      rw [List.foldl_cons, first]
      exact ih fun h mem => exports h (List.mem_cons_of_mem _ mem)
  unfold dropPending
  rw [same]

theorem ExportEntry.onExports {e : PendingHook × Reserved} (entry : ExportEntry e) :
    e.1.onExports = true := by
  cases entry <;> rfl

/-- The hooks that a failed commit takes back, as they are when they are dropped. -/
def undoneHooks (M : Modules) (os : CommitOs) (w : Window) : List (Hook × ℕ) :=
  (undoInstalled M os (rollbackDetaches M os w.process w.detached) w.installed.zipIdx).2

theorem rollback_inOrder {w : Window} {before : StubLog}
    {left : List (PendingHook × Reserved)} (order : w.InOrder w₀ before left) :
    (rollback M os w left).1.InOrder w₀ 0 0
      ((w.log before).leaveInstalled os (undoneHooks M os w)) := by
  have enabled : (rollbackDetaches M os w.process w.detached).InOrder w₀
      (exportHooks w.installed) (reservedStubs (left.map (·.2))) (w.log before) :=
    rollbackDetaches_inOrder order.process w.detached
  have flying : w.installed.zipIdx.map (·.1) = w.installed := List.zipIdx_map_fst 0 _
  have only : OnlyExports (w.installed.zipIdx.map (·.1)) := flying.symm ▸ order.only
  have order' : (rollbackDetaches M os w.process w.detached).InOrder w₀
      (exportHooks (w.installed.zipIdx.map (·.1)) + 0) (reservedStubs (left.map (·.2)))
      (w.log before) := by
    rw [flying, add_zero]
    exact enabled
  obtain ⟨only', undone⟩ := @undoInstalled_inOrder w₀ M _ _ _ _ os _ only order'
  have gone := @dropInstalled_inOrder w₀ M _ _ _ _ os _ only' undone
  have pending : ∀ hook ∈ left.map (·.1), hook.onExports = true := by
    intro hook mem
    obtain ⟨e, listed, rfl⟩ := List.mem_map.1 mem
    exact (order.queued e listed).onExports
  unfold rollback
  simp only
  rw [dropPending_of_exports pending, order.spare, List.nil_append]
  refine dropReserved_inOrder (fun r mem => ?_) (by rwa [add_zero])
  obtain ⟨e, listed, rfl⟩ := List.mem_map.1 mem
  exact ⟨e.1, order.queued e listed⟩

/-! ### Finishing -/

theorem publishAll_of_exports {hooks : List Hook} (only : OnlyExports hooks) (c : Code) :
    publishAll c hooks = (c, hooks) := by
  induction hooks with
  | nil => rfl
  | cons h rest ih =>
    obtain ⟨k, rfl⟩ := only h List.mem_cons_self
    unfold publishAll
    simp only [publish, ih fun h mem => only h (List.mem_cons_of_mem _ mem)]

theorem Hook.drop_unclaimed {k : EatHook} {c : Code} {t : Tables} {ok retargetOk : Bool}
    (unclaimed : k.claimed = false) : Hook.drop M c t ok retargetOk (.eat k) = (c, t) := by
  simp only [Hook.drop, EatHook.drop, if_pos unclaimed, Code.retireStub]

/-- The hook that a detach finds goes. -/
def StubLog.leaveDetached (os : CommitOs) (p : Process) (log : StubLog) (index : ℕ) (target : Place) :
    StubLog :=
  match p.hookAt target with
  | none => log
  | some hook => log.leaveHook hook true (os.retargetOk index)

/-- A detach is finished; the hooks at other places stay. -/
theorem finalizeDetach_inOrder (order : p.InOrder w₀ flight spare log) (index : ℕ)
    {target : Place} (off : ∀ hook, p.hookAt target = some hook → hook.isEnabled = false) :
    (finalizeDetach M os p index target).InOrder w₀ flight spare
        (log.leaveDetached os p index target) ∧
      ∀ other, other ≠ target →
        (finalizeDetach M os p index target).hookAt other = p.hookAt other := by
  unfold finalizeDetach StubLog.leaveDetached
  cases present : p.hookAt target with
  | none => exact ⟨order, fun _ _ => rfl⟩
  | some hook =>
    obtain ⟨k, rfl⟩ := order.hookAt present
    have finished := fun rest (live : (p.ledger flight spare log).live = k ::ₘ rest) =>
      order.inv.detachFinalize live (off _ present) (os.finalizeOk index) (os.retargetOk index)
    cases target with
    | hookPtr n =>
      exact ⟨order.put present fun rest live => (finished rest live).1,
        fun other ne => Process.hookAt_put_of_ne ne⟩
    | handleIndex handle n =>
      refine ⟨order.take present fun rest live => ?_,
        fun other ne => Process.hookAt_take_of_ne ne⟩
      obtain ⟨inv, unclaimed⟩ := finished rest live
      have gone := inv.forget rfl unclaimed
      change (k.detachFinalize p.tables (os.finalizeOk index)).2.1.claimed = false at unclaimed
      simp only [Hook.detachFinalize, Hook.drop_unclaimed unclaimed]
      exact gone

/-- The hooks that a commit detaches go. -/
def StubLog.leaveAll (os : CommitOs) (p : Process) (log : StubLog)
    (detached : List ((Place × Bool) × ℕ)) : StubLog :=
  detached.foldl (fun log d => log.leaveDetached os p d.2 d.1.1) log

theorem finalizeDetaches_inOrder (order : p.InOrder w₀ flight spare log)
    {detached : List (Place × Bool)} (places : (detached.map (·.1)).Nodup)
    (off : ∀ d ∈ detached, ∀ hook, p.hookAt d.1 = some hook → hook.isEnabled = false) :
    (finalizeDetaches M os p detached).InOrder w₀ flight spare
      (log.leaveAll os p detached.zipIdx) := by
  have whole : ∀ (q : Process) (first : ℕ) (log : StubLog), q.InOrder w₀ flight spare log →
      (∀ d ∈ detached, q.hookAt d.1 = p.hookAt d.1) →
      ((detached.zipIdx first).foldl (fun q d => finalizeDetach M os q d.2 d.1.1) q).InOrder w₀ flight
        spare (log.leaveAll os p (detached.zipIdx first)) := by
    induction detached with
    | nil => exact fun q first log order _ => order
    | cons d rest ih =>
      intro q first log order same
      obtain ⟨fresh, places⟩ := List.nodup_cons.1 places
      have here := same d List.mem_cons_self
      obtain ⟨done, others⟩ := @finalizeDetach_inOrder _ M _ _ _ _ os order first _
        (fun hook present => off d List.mem_cons_self hook (here.symm.trans present))
      have logged : log.leaveDetached os q first d.1 = log.leaveDetached os p first d.1 := by
        unfold StubLog.leaveDetached
        rw [here]
      rw [logged] at done
      rw [List.zipIdx_cons]
      refine ih places (fun d' mem => off d' (List.mem_cons_of_mem _ mem)) _ (first + 1) _ done
        fun d' mem => ?_
      have ne : d'.1 ≠ d.1 := fun eq => fresh (List.mem_map.2 ⟨d', mem, eq⟩)
      exact (others d'.1 ne).trans (same d' (List.mem_cons_of_mem _ mem))
  exact whole p 0 log order fun _ _ => rfl

end Finishing

/-! ### Whole commits -/

section Commit

variable (M) (foreign)

/-- What a commit adds to the log: the export hooks whose entry it writes, also those it takes back,
and those that go. -/
def commitLog (pending : List PendingHook) (os : CommitOs) (p : Process) (threads : Threads)
    (log : StubLog) : StubLog :=
  match reserveAll M foreign os [] [] pending p with
  | (.error _, _) => log
  | (.ok reserved, p) =>
    match orphaned p.code pending with
    | some _ => log
    | none =>
      match installAll M os 0 (pending.zip reserved) ⟨p, ⟨threads, [], []⟩, [], [], []⟩ with
      | (some _, w) => (w.log log).leaveInstalled os (undoneHooks M os w)
      | (none, w) => (w.log log).leaveAll os w.process w.detached.zipIdx

variable {M} {foreign}

theorem orphaned_of_exports {pending : List PendingHook}
    (exports : ∀ hook ∈ pending, hook.onExports = true) (c : Code) : orphaned c pending = none := by
  refine List.findIdx?_eq_none_iff.2 fun hook mem => ?_
  have exported := exports hook mem
  cases hook with
  | inline d => cases exported
  | iat | eat | vtable | vtableInstance | detach => rfl

theorem commit_inOrder {pending : List PendingHook} {os : CommitOs} {p p' : Process}
    {threads threads' : Threads} {log : StubLog} {r : Except DetourError (List Hook)}
    (order : p.InOrder w₀ 0 0 log)
    (exports : ∀ hook ∈ pending, hook.onExports = true)
    (distinct : (pending.filterMap (·.detachTarget)).Nodup)
    (eq : commit M foreign pending os p threads = (r, p', threads')) :
    OnlyExports (returned r) ∧ p'.InOrder w₀ (exportHooks (returned r)) 0
      (commitLog M foreign pending os p threads log) := by
  unfold commit at eq
  unfold commitLog
  cases reserving : reserveAll M foreign os [] [] pending p with
  | mk r₁ p₁ =>
    have reserved := reserveAll_inOrder exports (by simp) rfl order reserving
    rw [reserving] at eq
    cases r₁ with
    | error e =>
      obtain ⟨rfl, rfl, rfl⟩ := eq
      rw [dropPending_of_exports exports]
      exact ⟨(fun h mem => by cases mem), reserved⟩
    | ok slots =>
      obtain ⟨entries, length, reserved⟩ := reserved
      simp only [orphaned_of_exports exports] at eq ⊢
      have fst : (pending.zip slots).map (·.1) = pending :=
        List.map_fst_zip (le_of_eq length)
      have snd : (pending.zip slots).map (·.2) = slots :=
        List.map_snd_zip (le_of_eq length.symm)
      have places : (pending.zip slots).filterMap (·.1.detachTarget) =
          pending.filterMap (·.detachTarget) := by
        conv_rhs => rw [← fst, List.filterMap_map]
        rfl
      have start : Window.InOrder w₀ log ⟨p₁, ⟨threads, [], []⟩, [], [], []⟩
          (pending.zip slots) := by
        refine ⟨(fun h mem => by cases mem), ?_, rfl, entries, ?_, (fun d mem => by cases mem)⟩
        · rw [snd, Window.log, List.filterMap_nil, StubLog.write_nil]
          exact reserved
        · rw [List.map_nil, List.nil_append, places]
          exact distinct
      cases installing : installAll M os 0 (pending.zip slots)
          ⟨p₁, ⟨threads, [], []⟩, [], [], []⟩ with
      | mk r₂ w =>
        have done := start.installAll installing
        rw [installing] at eq
        cases r₂ with
        | some failure =>
          obtain ⟨e, left⟩ := failure
          obtain ⟨rfl, rfl, rfl⟩ := eq
          exact ⟨(fun h mem => by cases mem), rollback_inOrder done⟩
        | none =>
          simp only [publishAll_of_exports done.only] at eq
          obtain ⟨rfl, rfl, rfl⟩ := eq
          refine ⟨done.only, ?_⟩
          have places : (w.detached.map (·.1) ++ ([] : List Place)).Nodup := done.places
          rw [List.append_nil] at places
          rw [done.spare]
          exact finalizeDetaches_inOrder done.process places done.off

end Commit

/-! ### Calls -/

def Request.onExports : Request → Bool
  | .attachEat .. | .detach _ => true
  | _ => false

/-- The call is about export hooks, or it is one of the steps in which waiting stubs are released. -/
def Op.onExports : Op → Bool
  | .queue _ r => r.onExports
  | .int3Install .. | .int3Drop .. => false
  | _ => true

/-- What a call adds to the log; a hook that a transaction borrows does not go. -/
def Op.log (E : Env) (s : State) (log : StubLog) : Op → StubLog
  | .commit tx _ os threads =>
    match s.transaction tx with
    | none => log
    | some t =>
      if t.isPending = false ∨ s.process.code.pass.isSome then log
      else commitLog E.modules E.foreign t.pending os s.process threads log
  | .unhook place ok dropOk retargetOk =>
    match s.process.hookAt place with
    | none => log
    | some hook => if s.borrowed place then log else log.leaveHook hook (ok || dropOk) retargetOk
  | .drop place ok retargetOk =>
    match s.process.hookAt place with
    | none => log
    | some hook => if s.borrowed place then log else log.leaveHook hook ok retargetOk
  | _ => log

/-- A call on export hooks. -/
def ExportOp := { op : Op // op.onExports = true }

/-- A state and the log of the export hooks. -/
structure ExportRun where
  state : State
  log : StubLog

namespace ExportRun

/-- One call. -/
def step (E : Env) (s : ExportRun) (op : ExportOp) : ExportRun :=
  ⟨s.state.step E op.1, op.1.log E s.state s.log⟩

/-- The ledger between two calls. -/
def ledger (s : ExportRun) : StubLedger := s.state.process.ledger 0 0 s.log

/-- What holds between two calls. -/
structure Inv (w₀ : ℕ → ℕ) (s : ExportRun) : Prop where
  process : s.state.process.InOrder w₀ 0 0 s.log
  exports : ∀ e ∈ s.state.transactions, ∀ hook ∈ e.2.pending, hook.onExports = true
  distinct : ∀ e ∈ s.state.transactions, (e.2.pending.filterMap (·.detachTarget)).Nodup

variable {E : Env} {s : ExportRun}

/-- A transaction takes a new queue. -/
theorem Inv.setTransaction (inv : s.Inv w₀) {tx fresh : ℕ} {t : Transaction}
    {p : Process} {log : StubLog} (process : p.InOrder w₀ 0 0 log)
    (exports : ∀ hook ∈ t.pending, hook.onExports = true)
    (distinct : (t.pending.filterMap (·.detachTarget)).Nodup) :
    Inv w₀
      ⟨{ s.state.setTransaction tx t with process := p, fresh := fresh }, log⟩ where
  process := process
  exports := by
    rintro e (_ | ⟨_, mem⟩)
    · exact exports
    · exact inv.exports e (List.mem_of_mem_eraseP mem)
  distinct := by
    rintro e (_ | ⟨_, mem⟩)
    · exact distinct
    · exact inv.distinct e (List.mem_of_mem_eraseP mem)

/-- Only the process changes. -/
theorem Inv.setProcess (inv : s.Inv w₀) {p : Process} {log : StubLog}
    (process : p.InOrder w₀ 0 0 log) : Inv w₀ ⟨{ s.state with process := p }, log⟩ :=
  ⟨process, inv.exports, inv.distinct⟩

/-- Queueing an export hook or a detach. -/
theorem request_onExports {r : Request} (exports : r.onExports = true) {p : Process}
    {pending : List PendingHook} (queued : ∀ hook ∈ pending, hook.onExports = true)
    (distinct : (pending.filterMap (·.detachTarget)).Nodup) :
    (r.run E p pending).1 = p.code ∧
      (∀ hook ∈ (r.run E p pending).2, hook.onExports = true) ∧
      ((r.run E p pending).2.filterMap (·.detachTarget)).Nodup := by
  cases r with
  | attach | attachIat | attachVtable | attachVtableInstance => cases exports
  | attachEat module func detour readable =>
    refine ⟨rfl, ?_⟩
    simp only [Request.run, NeoHook.attachEat]
    by_cases null : module = 0 ∨ detour = 0 ∨ readable = false
    · rw [if_pos null]
      exact ⟨queued, distinct⟩
    · rw [if_neg null]
      cases EatHook.findExport E.modules p.tables module func with
      | error e => exact ⟨queued, distinct⟩
      | ok slot =>
        simp only
        split_ifs
        · exact ⟨queued, distinct⟩
        · refine ⟨fun hook mem => ?_, ?_⟩
          · rcases List.mem_append.1 mem with mem | mem
            · exact queued hook mem
            · rw [List.mem_singleton.1 mem]
              rfl
          · rw [List.filterMap_append]
            change (_ ++ []).Nodup
            rwa [List.append_nil]
  | detach target =>
    refine ⟨rfl, ?_⟩
    simp only [Request.run, queueDetach]
    by_cases refused : PendingHook.detach target ∈ pending ∨ (p.hookAt target).isSome = false
    · rw [if_pos refused]
      exact ⟨queued, distinct⟩
    · rw [if_neg refused]
      refine ⟨fun hook mem => ?_, ?_⟩
      · rcases List.mem_append.1 mem with mem | mem
        · exact queued hook mem
        · rw [List.mem_singleton.1 mem]
          rfl
      · rw [List.filterMap_append]
        change (_ ++ [target]).Nodup
        refine List.nodup_append.2 ⟨distinct, List.nodup_singleton _, fun place mem other here => ?_⟩
        rintro rfl
        obtain ⟨hook, listed, place_eq⟩ := List.mem_filterMap.1 mem
        rw [List.mem_singleton.1 here] at place_eq
        cases hook with
        | detach target' =>
          obtain rfl := Option.some.inj place_eq
          exact refused (.inl listed)
        | inline | iat | eat | vtable | vtableInstance => cases place_eq

theorem inv_commit (inv : s.Inv w₀) {tx : ℕ} {ffi : Bool} {os : CommitOs} {threads : Threads} :
    Inv w₀ (s.step E ⟨.commit tx ffi os threads, rfl⟩) := by
  simp only [step, State.step, Op.log]
  cases present : s.state.transaction tx with
  | none => exact inv
  | some t =>
    simp only
    by_cases idle : t.isPending = false ∨ s.state.process.code.pass.isSome = true
    · rw [if_pos idle, if_pos idle]
      exact inv
    · rw [if_neg idle, if_neg idle]
      have mem := List.mem_of_find?_eq_some (State.find_of_transaction present)
      cases committed : NeoHook.commit E.modules E.foreign t.pending os s.state.process threads with
      | mk r rest =>
        obtain ⟨p, threads'⟩ := rest
        obtain ⟨only, order⟩ :=
          commit_inOrder inv.process (inv.exports _ mem) (inv.distinct _ mem) committed
        cases r with
        | error e => exact inv.setTransaction order (by simp) (by simp)
        | ok hooks =>
          refine inv.setTransaction ⟨?_, ?_⟩ (by simp) (by simp)
          · unfold Process.installed
            rw [List.map_append, newPlaces_snd]
            intro h mem
            rcases List.mem_append.1 mem with mem | mem
            · exact only h mem
            · exact order.only h mem
          · have live : exportHooks (Process.installed
                { p with hooks := newPlaces ffi s.state.fresh hooks ++ p.hooks }) + 0 =
                exportHooks p.installed + exportHooks hooks := by
              unfold Process.installed exportHooks
              rw [List.map_append, newPlaces_snd, List.filterMap_append, ← Multiset.coe_add,
                add_zero, add_comm]
            have inv' := order.inv
            unfold Process.ledger at inv' ⊢
            rw [live]
            exact inv'

/-- Each call keeps the invariant. -/
theorem Inv.step (inv : s.Inv w₀) (op : ExportOp) : Inv w₀ (s.step E op) := by
  have pass : ∀ {c : Code}, StubsKept c (stubRegions s.log.hooks + 0) ∧
      c.mem = s.state.process.code.mem → Inv w₀ ⟨s.state.setCode c, s.log⟩ := by
    rintro c ⟨stubs, mem⟩
    exact inv.setProcess (inv.process.setCode stubs fun r _ => by rw [mem])
  obtain ⟨op, exports⟩ := op
  cases op with
  | int3Install | int3Drop => cases exports
  | begin =>
    refine ⟨inv.process, ?_, ?_⟩
    · rintro e (_ | ⟨_, mem⟩)
      · exact fun hook mem => by cases mem
      · exact inv.exports e mem
    · rintro e (_ | ⟨_, mem⟩)
      · exact List.nodup_nil
      · exact inv.distinct e mem
  | queue tx r =>
    simp only [ExportRun.step, State.step]
    cases present : s.state.transaction tx with
    | none => exact inv
    | some t =>
      simp only
      split_ifs
      · have mem := List.mem_of_find?_eq_some (State.find_of_transaction present)
        obtain ⟨code, queued, distinct⟩ :=
          request_onExports (E := E) (p := s.state.process) exports (inv.exports _ mem)
            (inv.distinct _ mem)
        rw [code]
        exact inv.setTransaction inv.process queued distinct
      · exact inv
  | commit tx ffi os threads => exact inv_commit inv
  | abort tx =>
    simp only [ExportRun.step, State.step]
    cases present : s.state.transaction tx with
    | none => exact inv
    | some t =>
      simp only
      split_ifs
      · have mem := List.mem_of_find?_eq_some (State.find_of_transaction present)
        rw [dropPending_of_exports (inv.exports _ mem)]
        exact inv.setTransaction inv.process (by simp) (by simp)
      · exact inv
  | enable place ok =>
    simp only [ExportRun.step, State.step]
    cases present : s.state.process.hookAt place with
    | none => exact inv
    | some hook =>
      simp only
      cases enabled : hook.enable E.modules s.state.process.code s.state.process.tables ok with
      | error e => exact inv
      | ok r => exact inv.setProcess (inv.process.enableAt present enabled)
  | disable place ok =>
    simp only [ExportRun.step, State.step]
    cases present : s.state.process.hookAt place with
    | none => exact inv
    | some hook =>
      simp only
      cases disabled : hook.disable E.modules s.state.process.code s.state.process.tables ok with
      | error e => exact inv
      | ok r => exact inv.setProcess (inv.process.disableAt present disabled).1
  | unhook place ok dropOk retargetOk =>
    simp only [ExportRun.step, State.step, Op.log]
    cases present : s.state.process.hookAt place with
    | none => exact inv
    | some hook =>
      simp only
      split_ifs
      · exact inv
      · obtain ⟨k, rfl⟩ := inv.process.hookAt present
        exact inv.setProcess (inv.process.take present fun rest live =>
          inv.process.inv.unhook live ok dropOk retargetOk)
  | drop place ok retargetOk =>
    simp only [ExportRun.step, State.step, Op.log]
    cases present : s.state.process.hookAt place with
    | none => exact inv
    | some hook =>
      simp only
      split_ifs
      · exact inv
      · obtain ⟨k, rfl⟩ := inv.process.hookAt present
        exact inv.setProcess (inv.process.take present fun rest live =>
          inv.process.inv.drop live ok retargetOk)
  | beginPass => exact pass inv.process.inv.stubs.beginPass
  | freeRegions w os => exact pass (inv.process.inv.stubs.freeRegions w os)
  | settlePass addOk => exact pass (inv.process.inv.stubs.settlePass addOk)

/-- Nothing is hooked yet. -/
def initial (pristine : ℕ → UInt8) (tables : Tables) : ExportRun :=
  ⟨State.initial pristine tables, ⟨[], [], []⟩⟩

theorem inv_initial (pristine : ℕ → UInt8) (tables : Tables) :
    Inv tables.words (initial pristine tables) where
  process :=
    { only := List.forall_mem_nil _
      inv :=
        { stubs := ⟨List.Pairwise.nil, List.forall_mem_nil _, le_rfl,
            (fun r mem => absurd mem (Multiset.notMem_zero r)),
            (fun r mem => absurd mem (Multiset.notMem_zero r))⟩
          claimed := fun k mem => absurd mem (Multiset.notMem_zero k)
          unclaimed := fun k mem => absurd mem (Multiset.notMem_zero k)
          distinct := ⟨[], rfl, List.Pairwise.nil⟩
          original := List.forall_mem_nil _
          entries := fun _ => .inl rfl
          stranded := List.forall_mem_nil _
          followed := List.forall_mem_nil _ } }
  exports := List.forall_mem_nil _
  distinct := List.forall_mem_nil _

theorem Inv.run (inv : s.Inv w₀) (ops : List ExportOp) :
    Inv w₀ (ops.foldl (ExportRun.step E) s) := by
  induction ops generalizing s with
  | nil => exact inv
  | cons op rest ih => exact ih (inv.step op)

/-- In every run of calls on export hooks: the stub of a hook whose entry was ever written stays
allocated and is never queued for release.  As long as the hook owns the entry it holds what it held
when the entry was written, and from then on it jumps to the original export, unless it was this
stub that could not be written then.  An entry that no enabled hook owns holds what it held at the
start.  The exception to both is a hook that went while its entry could not be written: the entry
stays claimed, with what it held, and the stub stays as it is. -/
theorem stubs_outlive_hooks (E : Env) (pristine : ℕ → UInt8) (tables : Tables) (ops : List ExportOp) :
    let s := ops.foldl (step E) (initial pristine tables)
    (∀ e ∈ s.log.written, e.1.originalPtr = (e.1.module + tables.words e.1.slotPtr) % 2 ^ 64 ∧
      ∀ t, e.1.stub = some t →
        t.region ∈ s.ledger.code.allocs ∧ t.region ∉ s.ledger.code.retired ∧
          (s.ledger.Owned e.1 → s.ledger.Holds t e.2) ∧
          (¬ s.ledger.Owned e.1 → e.1 ∉ s.log.stranded.map EatHook.asInstalled →
            s.ledger.Retargeted e.1 t ∨
              e.1 ∈ s.log.refused.map EatHook.asInstalled ∧ s.ledger.Holds t e.2)) ∧
      (∀ h ∈ s.log.stranded, s.ledger.Stranded h ∧
        s.ledger.tables.words h.slotPtr = (if h.enabled then h.detourRva else h.originalRva) ∧
        ∃ e ∈ s.log.written, e.1 = h.asInstalled ∧ ∀ t, h.stub = some t → s.ledger.Holds t e.2) ∧
      ∀ slot, (¬ ∃ k ∈ s.ledger.live, k.enabled = true ∧ k.slotPtr = slot) →
        s.ledger.tables.words slot = tables.words slot ∨
          ∃ h ∈ s.log.stranded, h.enabled = true ∧ h.slotPtr = slot := by
  intro s
  have inv : s.ledger.Inv tables.words := ((inv_initial pristine tables).run ops).process.inv
  refine ⟨fun e mem => ⟨?_, fun t stub => ?_⟩, fun h mem => ?_, fun slot free => ?_⟩
  · obtain ⟨rva, ptr⟩ := inv.original e.1 (StubLedger.mem_hooks mem)
    rw [ptr, rva]
  · have kept : t.region ∈ stubRegions s.log.hooks + 0 :=
      Multiset.mem_add.2 (.inl (StubLedger.mem_stubRegions (StubLedger.mem_hooks mem) stub))
    refine ⟨inv.stubs.mem_allocs kept, inv.stubs.not_retired kept, fun owned => ?_,
      fun free left => ?_⟩
    · rcases inv.followed e mem t stub with ⟨-, free, -⟩ | ⟨holds, -⟩
      · exact absurd owned free
      · exact holds
    · rcases inv.followed e mem t stub with ⟨retargeted, -⟩ | ⟨holds, owned | stranded | refused⟩
      · exact .inl retargeted
      · exact absurd owned free
      · exact absurd stranded left
      · exact .inr ⟨refused, holds⟩
  · obtain ⟨logged, stranded, word⟩ := inv.stranded h mem
    obtain ⟨e, written, eq⟩ := List.mem_map.1 logged
    refine ⟨stranded, word, e, written, eq, fun t stub => ?_⟩
    rcases inv.followed e written t (by rw [eq]; exact stub) with ⟨-, -, left⟩ | ⟨holds, -⟩
    · exact absurd (eq ▸ List.mem_map_of_mem mem) left
    · exact holds
  · rcases inv.entries slot with same | ⟨k, mem, -, on, at_⟩ | stranded
    · exact .inl same
    · exact absurd ⟨k, mem, on, at_⟩ free
    · exact .inr stranded

/-! ### A hook that cannot be removed -/

/-- A module at `0x1000` with one export. -/
def oneExport : Modules where
  findImport _ _ _ := .error .targetNotFound
  exportSlot _ _ := .ok 0x1100
  isForwarder _ _ := false
  tables := [(0x1100, 4)]
  objects := []
  objects_apart _ _ _ mem := nomatch mem
  import_mem eq := nomatch eq
  export_mem eq := ⟨(0x1100, 4), List.mem_cons_self, by
    obtain rfl := Except.ok.inj eq
    decide⟩

def oneExportEnv : Env := { sampleEnv with modules := oneExport }

/-- The export is hooked through a stub and the hook is dropped; `ok` and `retargetOk` are whether
the entry and the stub can be written then. -/
def hookAndDrop (ok retargetOk : Bool) : List ExportOp :=
  [⟨.begin, rfl⟩, ⟨.queue 1 (.attachEat 0x1000 "f" 0x200000000 true), rfl⟩,
    ⟨.commit 1 false { sampleCommitOs [] with stubAt := fun _ => some 0x20000 } sampleThreads, rfl⟩,
    ⟨.drop (.hookPtr 2) ok retargetOk, rfl⟩]

/-- The state after `hookAndDrop`. -/
def dropped (ok retargetOk : Bool) : ExportRun :=
  (hookAndDrop ok retargetOk).foldl (step oneExportEnv) (initial samplePristine sampleTables)

example : (dropped true true).ledger.tables.words 0x1100 = 0 ∧
    read (dropped true true).ledger.code.mem 0x20000 managedGatewayLen = managedGatewayStub 0x1000 := by
  decide +kernel

/-- A hook is dropped while its entry cannot be written: no hook is left, the entry holds the offset
of the stub, and the stub jumps to the detour.  So it does also when only the stub cannot be
written. -/
theorem dropped_hook_keeps_entry :
    ((dropped false true).log.hooks.map (·.stub) = [some ⟨0x20000, 14⟩] ∧
      (dropped false true).ledger.live = 0 ∧ sampleTables.words 0x1100 = 0 ∧
      (dropped false true).ledger.tables.words 0x1100 = 0x1F000 ∧
      read (dropped false true).ledger.code.mem 0x20000 managedGatewayLen =
        managedGatewayStub 0x200000000) ∧
    (dropped true false).ledger.live = 0 ∧ (dropped true false).ledger.tables.words 0x1100 = 0 ∧
      read (dropped true false).ledger.code.mem 0x20000 managedGatewayLen =
        managedGatewayStub 0x200000000 := by
  decide +kernel

end ExportRun

end NeoHook
