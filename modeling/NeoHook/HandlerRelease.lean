import NeoHook.HandlerTables
import NeoHook.InFlight
import NeoHook.Lib.Ring

/-!
# Removing the exception handlers

`release_idle_handler` of `int3.rs` and of `veh.rs` with the scan that it waits for.  The rings of
removed targets remember what was unhooked, the scan looks for traps at what they remember, and so a
handler goes only when no thread that was found is still in the dispatch of a trap of the hooks
removed last.
-/

namespace NeoHook

open SlotTable

/-- `STATUS_SINGLE_STEP`. -/
def statusSingleStep : ℕ := 0x80000004

/-- `RELEASE_ATTEMPTS`. -/
def releaseAttempts : ℕ := 5

/-- The loop of `release_idle_handler`: one of the attempts finds nothing in flight.  What an attempt
sees of the process is its snapshot and the answers of the OS. -/
def idleWithin (seen : ℕ → Snapshot × ThreadOs) (q : TrapScan) : Bool :=
  (List.range releaseAttempts).any fun k => !exceptionsInFlight (seen k).1 (seen k).2 q

/-- What `release_idle_handler` of `int3.rs` looks for. -/
def Code.trapScan (c : Code) : TrapScan where
  code := statusBreakpoint
  isTrapAddress addr := addr ≠ 0 && (List.range retiredLen).any fun i => c.int3.retired i = addr
  savedDebugRegisters := false

/-- What `release_idle_handler` of `veh.rs` looks for. -/
def VehTables.trapScan (v : VehTables) : TrapScan where
  code := statusSingleStep
  isTrapAddress addr := addr ≠ 0 && ((List.range retiredCount).any (fun i => v.retired i = addr) ||
    (List.range slotCount).any fun i => v.slotArmed i = addr)
  savedDebugRegisters := true

/-! ### What a scan clears -/

/-- A scan for fewer addresses finds less. -/
theorem InDispatch.mono {m : Memory} {q q' : TrapScan} {c : Context} (h : InDispatch m q' c)
    (code : q'.code = q.code) (saved : q'.savedDebugRegisters = q.savedDebugRegisters)
    (traps : ∀ a, q'.isTrapAddress a = true → q.isTrapAddress a = true) : InDispatch m q c := by
  obtain stopped | ⟨r, aligned, on, found, trap⟩ |
    ⟨asked, b, aligned, on, flags, n, four, enabled, trap⟩ := h
  · refine .inl ?_
    unfold stoppedAtTrap at stopped ⊢
    rw [Bool.or_eq_true] at stopped ⊢
    exact stopped.imp (traps _) (traps _)
  · exact .inr (.inl ⟨r, aligned, on, found.trans code, traps _ trap⟩)
  · exact .inr (.inr ⟨saved ▸ asked, b, aligned, on, flags, n, four, enabled, traps _ trap⟩)

theorem ClearedBy.mono {w : Snapshot} {os : ThreadOs} {q q' : TrapScan} {tid : ℕ}
    (h : ClearedBy w os q tid) (code : q'.code = q.code)
    (saved : q'.savedDebugRegisters = q.savedDebugRegisters)
    (traps : ∀ a, q'.isTrapAddress a = true → q.isTrapAddress a = true) : ClearedBy w os q' tid := by
  obtain gone | exited | ⟨opened, suspended, context, read, idle⟩ := h
  · exact .inl gone
  · exact .inr (.inl exited)
  · exact .inr (.inr ⟨opened, suspended, context, read,
      fun busy => idle (busy.mono code saved traps)⟩)

/-- At one of the attempts no thread that was listed is in the dispatch of a trap at `addrs`. -/
def NoneDispatching (seen : ℕ → Snapshot × ThreadOs) (code : ℕ) (saved : Bool) (addrs : List ℕ) :
    Prop :=
  ∃ k < releaseAttempts, ∀ tid ∈ (seen k).2.tids,
    ClearedBy (seen k).1 (seen k).2 ⟨code, fun a => a ∈ addrs, saved⟩ tid

theorem noneDispatching_of_idle {seen : ℕ → Snapshot × ThreadOs} {q : TrapScan} {addrs : List ℕ}
    (paged : ∀ k, (seen k).1.memory.Paged) (idle : idleWithin seen q = true)
    (traps : ∀ a ∈ addrs, q.isTrapAddress a = true) :
    NoneDispatching seen q.code q.savedDebugRegisters addrs := by
  obtain ⟨k, mem, clear⟩ := List.any_eq_true.mp idle
  refine ⟨k, List.mem_range.mp mem, fun tid listed => ?_⟩
  rw [Bool.not_eq_true', exceptionsInFlight_eq_false_iff] at clear
  have cleared := (clearedBy_iff (paged k) tid).mpr (clear tid listed)
  exact cleared.mono rfl rfl fun a inList => traps a (of_decide_eq_true inList)

/-! ### The ring of `int3.rs` -/

namespace Int3Process

variable {E : Env} {s : Int3Process}

/-- The targets removed, with what the operation removes. -/
def recordRemoved (s : Int3Process) (op : Int3Op) (removed : List ℕ) : List ℕ :=
  match op with
  | .remove h _ => if h ∈ s.hooks then removed ++ [h.target] else removed
  | _ => removed

/-- What the scan of the operation looks for. -/
def trapScan (s : Int3Process) (op : Int3Op) : TrapScan :=
  match op with
  | .remove h _ => if h ∈ s.hooks then (s.code.recordRetired h.target).trapScan else s.code.trapScan
  | _ => s.code.trapScan

/-- A run, with the targets it has removed since the handler was registered. -/
inductive Logged (E : Env) : Int3Process → List ℕ → Prop
  | initial (code : Code) : (∀ i, code.int3.slotTarget i = 0) → code.int3.handler = false →
      code.int3.retiredNext = 0 → Logged E ⟨code, 0⟩ []
  | step {s : Int3Process} {removed : List ℕ} (op : Int3Op) : Logged E s removed →
      Logged E (s.step E op)
        (if (s.step E op).code.int3.handler then s.recordRemoved op removed else [])
  | others {s : Int3Process} {removed : List ℕ} (code : Code) : Logged E s removed →
      code.int3 = s.code.int3 → Logged E { s with code } removed

theorem Logged.reachable {removed : List ℕ} (run : Logged E s removed) : Reachable E s := by
  induction run with
  | initial code free idle _ => exact .initial code free idle
  | step op _ ih => exact .step op ih
  | others code _ same ih => exact .others code ih same

/-- The ring of removed targets, and the handler it serves. -/
structure SameRing (i i' : Int3Tables) : Prop where
  retired : i'.retired = i.retired
  next : i'.retiredNext = i.retiredNext
  registered : i.handler = true → i'.handler = true

/-- The ring is as it was, or it was emptied with the handler. -/
def KeepsRing (i i' : Int3Tables) : Prop :=
  SameRing i i' ∨ i'.handler = false ∧ i'.retiredNext = 0

theorem keepsRing_releaseIdleHandler {c : Code} {i : Int3Tables} (same : SameRing i c.int3)
    (idle : Bool) : KeepsRing i (c.releaseIdleHandler idle).int3 := by
  unfold Code.releaseIdleHandler
  split_ifs
  · exact .inl same
  · exact .inr ⟨rfl, rfl⟩
  · exact .inl same

theorem keepsRing_install (target detour : ℕ) (gateway : Option (AttachOs × Bool)) (os : Int3Os) :
    KeepsRing s.code.int3 (s.step E (.install target detour gateway os)).code.int3 := by
  have stubbed : SameRing s.code.int3 (withStub E s.code target detour gateway).int3 := by
    rw [withStub_int3]
    exact ⟨rfl, rfl, id⟩
  have moves : (s.step E (.install target detour gateway os)).code =
      (Int3Hook.install E s.code target detour gateway os).2 := by
    simp only [step]
    split
    · next eq => rw [eq]
    · next eq => rw [eq]
  rw [moves]
  obtain ⟨e, -, eq⟩ | ⟨-, stub, eq⟩ := install_cases E s.code target detour gateway os
  · rw [eq]
    exact .inl stubbed
  · rw [eq]
    obtain ⟨e, -, eq⟩ | ⟨slot, -, eq | eq⟩ :=
      Int3Hook.arm_cases (withStub E s.code target detour gateway) target detour stub os
    · rw [eq]
      simp only [dropGateway_int3]
      exact .inl stubbed
    · rw [eq]
      simp only [dropGateway_int3]
      refine keepsRing_releaseIdleHandler ?_ os.idle
      exact ⟨stubbed.retired, stubbed.next, fun _ => rfl⟩
    · rw [eq]
      exact .inl ⟨stubbed.retired, stubbed.next, fun _ => rfl⟩

theorem keepsRing_remove {h : Int3Hook} (active : h.active = true) (os : Int3Os) :
    KeepsRing (s.code.recordRetired h.target).int3 (h.drop s.code os).int3 := by
  unfold Int3Hook.drop Int3Hook.remove
  rw [if_neg (by rw [active]; decide), dropGateway_int3]
  refine keepsRing_releaseIdleHandler ?_ os.idle
  cases written : (s.code.recordRetired h.target).writeCodeBytes h.target [h.originalByte] none
      os.writeOk with
  | none => exact ⟨rfl, rfl, id⟩
  | some c' =>
    obtain ⟨-, rfl⟩ := Code.writeCodeBytes_some written
    exact ⟨rfl, rfl, id⟩

/-- The ring holds the targets removed last. -/
structure Remembers (i : Int3Tables) (removed : List ℕ) : Prop where
  ring : Ring.Holds retiredLen i.retired i.retiredNext removed
  bound : i.retiredNext < retiredLen
  nonnull : ∀ a ∈ removed, a ≠ 0
  registered : removed ≠ [] → i.handler = true

theorem Remembers.keep {i i' : Int3Tables} {removed : List ℕ} (h : Remembers i removed)
    (keeps : KeepsRing i i') : Remembers i' (if i'.handler then removed else []) := by
  obtain same | ⟨gone, first⟩ := keeps
  · have kept : Remembers i' removed := by
      refine ⟨?_, ?_, h.nonnull, fun some => same.registered (h.registered some)⟩
      · rw [same.retired, same.next]
        exact h.ring
      · rw [same.next]
        exact h.bound
    cases handler : i'.handler with
    | true => exact kept
    | false =>
      cases removed with
      | nil => exact kept
      | cons a rest => exact nomatch (kept.registered nofun).symm.trans handler
  · rw [gone]
    exact ⟨Ring.holds_nil (by rw [first]; rfl), by rw [first]; decide, by simp, by simp⟩

theorem Remembers.record {c : Code} {removed : List ℕ} (h : Remembers c.int3 removed) {target : ℕ}
    (nonnull : target ≠ 0) (registered : c.int3.handler = true) :
    Remembers (c.recordRetired target).int3 (removed ++ [target]) := by
  have push := h.ring.push target (Nat.mod_mod (c.int3.retiredNext + 1) retiredLen)
  rw [Nat.mod_eq_of_lt h.bound] at push
  refine ⟨push, Nat.mod_lt _ (by decide), fun a mem => ?_, fun _ => registered⟩
  obtain mem | mem := List.mem_append.mp mem
  · exact h.nonnull a mem
  · rw [List.mem_singleton.mp mem]
    exact nonnull

/-- The scan looks for traps at every target the ring remembers. -/
theorem Remembers.traps {c : Code} {removed : List ℕ} (h : Remembers c.int3 removed) :
    ∀ a ∈ removed.drop (removed.length - retiredLen), c.trapScan.isTrapAddress a = true := by
  intro a mem
  obtain ⟨i, less, eq⟩ := h.ring.exists_cell (by decide) mem
  have nonnull := h.nonnull a (List.mem_of_mem_drop mem)
  unfold Code.trapScan
  simp only [Bool.and_eq_true, decide_eq_true_eq, List.any_eq_true, List.mem_range]
  exact ⟨by simpa using nonnull, i, less, eq⟩

theorem Good.owner_bound (good : s.Good) {h : Int3Hook} (mem : h ∈ s.hooks) :
    h.active = true ∧ h.target ≠ 0 ∧ s.code.int3.handler = true := by
  have owned := good.2.fits.owned _ (Multiset.mem_map_of_mem Int3Hook.owner mem)
  exact ⟨good.1 h mem, owned.2.1, (good.slot_of_mem mem).2.2⟩

theorem keepsRing_step (good : s.Good) (op : Int3Op) {removed : List ℕ}
    (h : Remembers s.code.int3 removed) :
    ∃ c : Code, s.trapScan op = c.trapScan ∧ Remembers c.int3 (s.recordRemoved op removed) ∧
      KeepsRing c.int3 (s.step E op).code.int3 := by
  have same : SameRing s.code.int3 s.code.int3 := ⟨rfl, rfl, id⟩
  cases op with
  | install target detour gateway os =>
    exact ⟨s.code, rfl, h, keepsRing_install target detour gateway os⟩
  | remove hook os =>
    by_cases mem : hook ∈ s.hooks
    · obtain ⟨active, nonnull, registered⟩ := good.owner_bound mem
      refine ⟨s.code.recordRetired hook.target, if_pos mem, ?_, ?_⟩
      · rw [recordRemoved, if_pos mem]
        exact h.record nonnull registered
      · rw [step, if_pos mem]
        exact keepsRing_remove active os
    · refine ⟨s.code, if_neg mem, ?_, ?_⟩
      · rw [recordRemoved, if_neg mem]
        exact h
      · rw [step, if_neg mem]
        exact .inl same
  | forget hook =>
    refine ⟨s.code, rfl, h, .inl ?_⟩
    rw [step]
    split_ifs with mem
    · unfold Int3Hook.forget
      rw [if_pos (good.owner_bound mem).1, dropGateway_int3]
      exact ⟨rfl, rfl, id⟩
    · exact same
  | release idle => exact ⟨s.code, rfl, h, keepsRing_releaseIdleHandler same idle⟩

theorem Logged.remembers {removed : List ℕ} (run : Logged E s removed) :
    Remembers s.code.int3 removed := by
  induction run with
  | initial code _ _ first =>
    refine ⟨Ring.holds_nil ?_, ?_, by simp, by simp⟩
    · rw [first]
      rfl
    · rw [first]
      decide
  | step op run ih =>
    obtain ⟨c, -, remembers, keeps⟩ := keepsRing_step run.reachable.good op ih
    exact remembers.keep keeps
  | others code _ same ih =>
    rw [same]
    exact ih

end Int3Process

/-- In every run, when the INT3 handler goes no hook is left, and no thread that was listed is in the
dispatch of a trap of the 1024 hooks removed last.  The log begins again when the handler is registered
again, since the ring of removed targets was emptied with the handler before. -/
theorem int3_handler_outlives_traps (E : Env) {s : Int3Process} {removed : List ℕ}
    (run : Int3Process.Logged E s removed) (op : Int3Op) (seen : ℕ → Snapshot × ThreadOs)
    (paged : ∀ k, (seen k).1.memory.Paged) (scans : op.idle = idleWithin seen (s.trapScan op))
    (registered : s.code.int3.handler = true) (gone : (s.step E op).code.int3.handler = false) :
    (s.step E op).hooks = 0 ∧ NoneDispatching seen statusBreakpoint false
      ((s.recordRemoved op removed).drop ((s.recordRemoved op removed).length - retiredLen)) := by
  obtain ⟨good, behaves⟩ := Int3Process.step_good run.reachable.good op
  obtain ⟨empty, idle⟩ := behaves.releases registered gone
  refine ⟨Multiset.eq_zero_of_forall_notMem fun h mem => ?_, ?_⟩
  · exact nomatch (good.owner_bound mem).2.2.symm.trans gone
  · obtain ⟨c, eq, remembers, -⟩ :=
      @Int3Process.keepsRing_step E s run.reachable.good op removed run.remembers
    rw [scans, eq] at idle
    exact noneDispatching_of_idle paged idle remembers.traps

/-- Every attempt sees one other thread, which has left the dispatch its stack still shows below the
stack pointer. -/
def resumedThread : ℕ → Snapshot × ThreadOs := fun _ => (parkedSnapshot 0x1F000, oneThreadOs)

theorem sampleInt3Process_logged : ∃ removed, Int3Process.Logged sampleEnv sampleInt3Process removed :=
  ⟨_, .step _ (.initial _ (fun _ => rfl) rfl rfl)⟩

theorem sampleInt3Process_releases :
    let op := .remove ⟨0x2000, 0x4000, 0xB8, 0, true, none⟩ ⟨true, true, true⟩
    ∃ removed, (sampleInt3Process.step sampleEnv op).hooks = 0 ∧
      NoneDispatching resumedThread statusBreakpoint false
        ((sampleInt3Process.recordRemoved op removed).drop
          ((sampleInt3Process.recordRemoved op removed).length - retiredLen)) := by
  intro op
  obtain ⟨removed, run⟩ := sampleInt3Process_logged
  refine ⟨removed, int3_handler_outlives_traps sampleEnv run op resumedThread
    (fun _ => parkedMemory_paged) ?_ ?_ ?_⟩
  · decide +kernel
  · decide +kernel
  · decide +kernel

/-! ### The ring of `veh.rs` -/

/-- Records a removed target in the ring. -/
def VehTables.recordRetired (v : VehTables) (target : ℕ) (disarmed : Bool) : VehTables :=
  { v with
    keepHandler := v.keepHandler || !disarmed
    retired := Function.update v.retired (v.retiredNext % retiredCount) target
    retiredNext := v.retiredNext + 1 }

namespace VehProcess

variable {E : Env} {s : VehProcess} {log : List (VehHook × VehOs)}

/-- The hooks removed, each with what the OS answered then. -/
def recordRemoved (s : VehProcess) (op : VehOp) (log : List (VehHook × VehOs)) :
    List (VehHook × VehOs) :=
  match op with
  | .remove h os => if h ∈ s.hooks then log ++ [(h, os)] else log
  | _ => log

/-- What the scan of the operation looks for. -/
def trapScan (s : VehProcess) (op : VehOp) : TrapScan :=
  match op with
  | .remove h os =>
    if h ∈ s.hooks then (s.veh.recordRetired h.target (os.disarm h.slot).1).trapScan
    else s.veh.trapScan
  | _ => s.veh.trapScan

/-- A run, with what it has removed. -/
inductive Logged (E : Env) : VehProcess → List (VehHook × VehOs) → Prop
  | initial (code : Code) (armed retired : ℕ → ℕ) :
      Logged E ⟨code, ⟨fun _ => 0, fun _ => 0, armed, retired, 0, false, false⟩, 0⟩ []
  | step {s : VehProcess} {log : List (VehHook × VehOs)} (op : VehOp) : Logged E s log →
      Logged E (s.step E op) (s.recordRemoved op log)
  | others {s : VehProcess} {log : List (VehHook × VehOs)} (code : Code) : Logged E s log →
      Logged E { s with code } log

theorem Logged.reachable (run : Logged E s log) : Reachable E s := by
  induction run with
  | initial code armed retired => exact .initial code armed retired
  | step op _ ih => exact .step op ih
  | others code _ ih => exact .others code ih

/-- The ring holds the targets removed last, and the handler is kept once a breakpoint stayed. -/
structure Remembers (v : VehTables) (log : List (VehHook × VehOs)) : Prop where
  ring : Ring.Holds retiredCount v.retired v.retiredNext (log.map (·.1.target))
  owned : ∀ e ∈ log, e.1.slot < slotCount ∧ e.1.target ≠ 0
  disarmed : v.keepHandler = false → ∀ e ∈ log, (e.2.disarm e.1.slot).1 = true

theorem Remembers.of_same {v v' : VehTables} (h : Remembers v log) (retired : v'.retired = v.retired)
    (next : v'.retiredNext = v.retiredNext) (keep : v'.keepHandler = v.keepHandler) :
    Remembers v' log := by
  refine ⟨?_, h.owned, fun none => h.disarmed (keep ▸ none)⟩
  rw [retired, next]
  exact h.ring

theorem Remembers.record {v : VehTables} (h : Remembers v log) {hook : VehHook}
    (small : hook.slot < slotCount) (nonnull : hook.target ≠ 0) (os : VehOs) :
    Remembers (v.recordRetired hook.target (os.disarm hook.slot).1) (log ++ [(hook, os)]) := by
  refine ⟨?_, fun e mem => ?_, fun keep e mem => ?_⟩
  · rw [List.map_append]
    exact h.ring.push hook.target rfl
  · obtain mem | mem := List.mem_append.mp mem
    · exact h.owned e mem
    · rw [List.mem_singleton.mp mem]
      exact ⟨small, nonnull⟩
  · have both : v.keepHandler = false ∧ (os.disarm hook.slot).1 = true := by
      simpa [VehTables.recordRetired] using keep
    obtain mem | mem := List.mem_append.mp mem
    · exact h.disarmed both.1 e mem
    · rw [List.mem_singleton.mp mem]
      exact both.2

theorem Remembers.releaseIdleHandler {v : VehTables} (h : Remembers v log) (idle : Bool) :
    Remembers (v.releaseIdleHandler idle) log := by
  obtain eq | ⟨-, -, eq⟩ := v.releaseIdleHandler_eq idle
  · rw [eq]
    exact h
  · rw [eq]
    exact h.of_same rfl rfl rfl

/-- The scan looks for traps at every target the ring remembers. -/
theorem Remembers.traps {v : VehTables} (h : Remembers v log) :
    ∀ a ∈ (log.map (·.1.target)).drop (log.length - retiredCount),
      v.trapScan.isTrapAddress a = true := by
  intro a mem
  obtain ⟨e, inLog, rfl⟩ := List.mem_map.mp (List.mem_of_mem_drop mem)
  rw [← List.length_map (fun e : VehHook × VehOs => e.1.target)] at mem
  obtain ⟨i, less, eq⟩ := h.ring.exists_cell (by decide) mem
  unfold VehTables.trapScan
  simp only [Bool.and_eq_true, decide_eq_true_eq, Bool.or_eq_true, List.any_eq_true, List.mem_range]
  exact ⟨by simpa using (h.owned e inLog).2, .inl ⟨i, less, eq⟩⟩

theorem Good.owner_bound (good : s.Good) {h : VehHook} (mem : h ∈ s.hooks) :
    h.active = true ∧ h.slot < slotCount ∧ h.target ≠ 0 ∧ s.veh.handler = true := by
  obtain ⟨small, nonnull, -⟩ := good.2.fits.owned _ (Multiset.mem_map_of_mem VehHook.owner mem)
  exact ⟨good.1 h mem, small, nonnull, (good.slot_of_mem mem).2.2⟩

theorem remembers_step (good : s.Good) (op : VehOp) (h : Remembers s.veh log) :
    Remembers (s.step E op).veh (s.recordRemoved op log) ∧
      ∃ v, s.trapScan op = v.trapScan ∧ Remembers v (s.recordRemoved op log) := by
  cases op with
  | install target detour gateway os =>
    refine ⟨?_, s.veh, rfl, h⟩
    obtain ⟨e, c', -, eq⟩ | ⟨-, slot, stub, c', -, eq⟩ :=
      VehHook.install_cases E s.code s.veh target detour gateway os
    · simp only [step, eq]
      exact h
    · simp only [step, eq]
      exact h.of_same rfl rfl rfl
  | remove hook os =>
    by_cases mem : hook ∈ s.hooks
    · obtain ⟨active, small, nonnull, -⟩ := good.owner_bound mem
      have recorded := h.record small nonnull os
      rw [recordRemoved, if_pos mem, step, if_pos mem, trapScan, if_pos mem]
      refine ⟨?_, _, rfl, recorded⟩
      simp only [VehHook.remove, active, Bool.true_eq_false, if_false]
      refine Remembers.releaseIdleHandler ?_ os.idle
      exact recorded.of_same rfl rfl rfl
    · rw [recordRemoved, if_neg mem, step, if_neg mem, trapScan, if_neg mem]
      exact ⟨h, s.veh, rfl, h⟩

theorem Logged.remembers (run : Logged E s log) : Remembers s.veh log := by
  induction run with
  | initial code armed retired => exact ⟨Ring.holds_nil rfl, by simp, by simp⟩
  | step op run ih => exact (remembers_step run.reachable.good op ih).1
  | others code _ ih => exact ih

/-- The handler goes only while no unhook has left a breakpoint behind. -/
theorem keepHandler_of_released {v : VehTables} {idle : Bool} (registered : v.handler = true)
    (gone : (v.releaseIdleHandler idle).handler = false) :
    (v.releaseIdleHandler idle).keepHandler = false := by
  unfold VehTables.releaseIdleHandler at gone ⊢
  split_ifs at gone ⊢ with needed
  · exact nomatch registered.symm.trans gone
  · rw [not_or, not_or] at needed
    exact Bool.eq_false_iff.mpr needed.2.1
  · exact nomatch registered.symm.trans gone

theorem keepHandler_of_gone (good : s.Good) (op : VehOp) (registered : s.veh.handler = true)
    (gone : (s.step E op).veh.handler = false) : (s.step E op).veh.keepHandler = false := by
  cases op with
  | install target detour gateway os =>
    obtain ⟨e, c', -, eq⟩ | ⟨-, slot, stub, c', -, eq⟩ :=
      VehHook.install_cases E s.code s.veh target detour gateway os
    · simp only [step, eq] at gone
      exact absurd (registered.symm.trans gone) (by decide)
    · simp only [step, eq] at gone
      cases gone
  | remove hook os =>
    by_cases mem : hook ∈ s.hooks
    · rw [step, if_pos mem] at gone ⊢
      have active := (good.owner_bound mem).1
      simp only [VehHook.remove, active, Bool.true_eq_false, if_false] at gone ⊢
      exact keepHandler_of_released registered gone
    · rw [step, if_neg mem] at gone
      exact absurd (registered.symm.trans gone) (by decide)

end VehProcess

/-- The pass that clears the breakpoint in the slot has done so in the calling thread and in every
thread it listed that runs. -/
def VehOs.Disarms (os : VehOs) (slot : ℕ) : Prop :=
  ∀ tid, os.threads.Reaches tid → VehTrap.Programmed ((os.disarm slot).2 tid) slot 0 false

/-- In every run, when the VEH handler goes no hook is left, every unhook had cleared its breakpoint
in the calling thread and in every running thread that it listed, and no thread that the scan listed is
in the dispatch of a trap of the 16 hooks removed last or has one of them armed in a context it resumes
with. -/
theorem veh_handler_outlives_traps (E : Env) {s : VehProcess} {log : List (VehHook × VehOs)}
    (run : VehProcess.Logged E s log) (op : VehOp) (seen : ℕ → Snapshot × ThreadOs)
    (paged : ∀ k, (seen k).1.memory.Paged) (scans : op.idle = idleWithin seen (s.trapScan op))
    (registered : s.veh.handler = true) (gone : (s.step E op).veh.handler = false) :
    (s.step E op).hooks = 0 ∧ (∀ e ∈ s.recordRemoved op log, e.2.Disarms e.1.slot) ∧
      NoneDispatching seen statusSingleStep true
        (((s.recordRemoved op log).map (·.1.target)).drop
          ((s.recordRemoved op log).length - retiredCount)) := by
  obtain ⟨good, behaves⟩ := VehProcess.step_good run.reachable.good op
  obtain ⟨empty, idle⟩ := behaves.releases registered gone
  obtain ⟨after, v, eq, remembers⟩ :=
    @VehProcess.remembers_step E s log run.reachable.good op run.remembers
  refine ⟨Multiset.eq_zero_of_forall_notMem fun h mem => ?_, fun e mem => ?_, ?_⟩
  · exact nomatch (good.owner_bound mem).2.2.2.symm.trans gone
  · have all := after.disarmed (VehProcess.keepHandler_of_gone run.reachable.good op registered gone)
    exact (VehTrap.setBreakpointOnAllThreads_swept (after.owned e mem).1 (all e mem)).here
  · rw [scans, eq] at idle
    exact noneDispatching_of_idle paged idle remembers.traps

/-- A breakpoint is armed at `0x2000` in the first slot. -/
def armedRegisters : VehTrap.Context := ⟨0x2000, 0, 0, 0, 0, 1, 0, 0⟩

/-- A breakpoint on `0x2000`. -/
def sampleVehProcess : VehProcess :=
  VehProcess.step sampleEnv
    ⟨(State.initial samplePristine sampleTables).process.code,
      ⟨fun _ => 0, fun _ => 0, fun _ => 0, fun _ => 0, 0, false, false⟩, 0⟩
    (.install 0x2000 0x4000 none ⟨true, VehTrap.twoThreads, fun _ => armedRegisters, true⟩)

theorem sampleVehProcess_logged : VehProcess.Logged sampleEnv sampleVehProcess [] :=
  .step _ (.initial _ _ _)

/-- The hook is removed, in both threads, and the handler goes with it. -/
theorem sampleVehProcess_releases :
    let os : VehOs := ⟨true, VehTrap.twoThreads, fun _ => armedRegisters, true⟩
    (sampleVehProcess.step sampleEnv (.remove ⟨0x2000, 0x4000, 0, true, none⟩ os)).hooks = 0 ∧
      VehTrap.debugAddress ((os.disarm 0).2 2) 0 = 0 ∧
      NoneDispatching resumedThread statusSingleStep true [0x2000] := by
  intro os
  have removed : sampleVehProcess.recordRemoved (.remove ⟨0x2000, 0x4000, 0, true, none⟩ os) [] =
      [(⟨0x2000, 0x4000, 0, true, none⟩, os)] := by
    rw [VehProcess.recordRemoved, if_pos (by decide +kernel)]
    rfl
  obtain ⟨hooks, disarmed, dispatching⟩ := veh_handler_outlives_traps sampleEnv
    sampleVehProcess_logged (.remove ⟨0x2000, 0x4000, 0, true, none⟩ os) resumedThread
    (fun _ => parkedMemory_paged) (by decide +kernel) (by decide +kernel) (by decide +kernel)
  rw [removed] at disarmed dispatching
  have listed : VehTrap.twoThreads.Reaches 2 :=
    .inr ⟨List.mem_cons_self, VehTrap.twoThreads_alive 2⟩
  exact ⟨hooks, (disarmed _ List.mem_cons_self 2 listed).register, dispatching⟩

end NeoHook
