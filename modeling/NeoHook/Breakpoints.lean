import NeoHook.Quiescence

/-!
# Hardware breakpoints in the threads

`program_slot`, `set_debug_register` and `set_breakpoint_on_all_threads` of `veh.rs`: a breakpoint is
armed and cleared in the calling thread and in each thread that the Toolhelp snapshot lists.  A pass
that reports success has programmed its slot in every listed thread that runs; it has kept the other
slots, and threads that it does not list are as they were.  The registers have their width on x86_64.
-/

namespace NeoHook

/-- Number of breakpoint registers (`SLOT_COUNT`). -/
def slotCount : ℕ := 4

namespace VehTrap

/-- The part of `CONTEXT` the handler may change. -/
structure Context where
  dr0 : BitVec 64
  dr1 : BitVec 64
  dr2 : BitVec 64
  dr3 : BitVec 64
  dr6 : BitVec 64
  dr7 : BitVec 64
  eflags : BitVec 32
  rip : BitVec 64
  deriving DecidableEq

/-- The address held in `DR<slot>`. -/
def debugAddress (ctx : Context) (slot : ℕ) : BitVec 64 :=
  match slot with
  | 0 => ctx.dr0
  | 1 => ctx.dr1
  | 2 => ctx.dr2
  | _ => ctx.dr3

def setDebugAddress (ctx : Context) (slot : ℕ) (value : BitVec 64) : Context :=
  match slot with
  | 0 => { ctx with dr0 := value }
  | 1 => { ctx with dr1 := value }
  | 2 => { ctx with dr2 := value }
  | _ => { ctx with dr3 := value }

/-- `DR7` with the fields of a slot set. -/
def slotControl (dr7 : BitVec 64) (slot : ℕ) (enable : Bool) : BitVec 64 :=
  let localEnable : BitVec 64 := 1#64 <<< (slot * 2)
  let cleared := dr7 &&& ~~~(0xF#64 <<< (16 + slot * 4))
  if enable then cleared ||| localEnable else cleared &&& ~~~localEnable

def programSlot (ctx : Context) (slot address : ℕ) (enable : Bool) : Context :=
  { (setDebugAddress ctx slot (if enable then BitVec.ofNat 64 address else 0)) with
    dr7 := slotControl ctx.dr7 slot enable }

/-! ### What a slot owns -/

/-- The bit of `DR7` belongs to the slot: its local enable bit and its condition and length. -/
def Owns (slot bit : ℕ) : Prop := bit = 2 * slot ∨ (16 + 4 * slot ≤ bit ∧ bit < 20 + 4 * slot)

/-- The fields of a slot: its register and all its bits of `DR7`, the global enable bit too. -/
def SameSlot (ctx ctx' : Context) (slot : ℕ) : Prop :=
  debugAddress ctx' slot = debugAddress ctx slot ∧
  ∀ bit, Owns slot bit ∨ bit = 2 * slot + 1 → ctx'.dr7.getLsbD bit = ctx.dr7.getLsbD bit

theorem getLsbD_fifteen (bit : ℕ) : (0xF#64).getLsbD bit = decide (bit < 4) := by
  have mask : (15 : ℕ) = 2 ^ 4 - 1 := rfl
  rw [BitVec.getLsbD_ofNat, mask, Nat.testBit_two_pow_sub_one]
  by_cases small : bit < 4
  · simp [small, show bit < 64 by omega]
  · simp [small]

theorem getLsbD_one (bit : ℕ) : (1#64).getLsbD bit = decide (bit = 0) := by
  rw [BitVec.getLsbD_one]
  simp

/-- Setting a slot keeps the bits of `DR7` that the slot does not own. -/
theorem slotControl_frame (dr7 : BitVec 64) {slot bit : ℕ} (enable : Bool) (other : ¬ Owns slot bit) :
    (slotControl dr7 slot enable).getLsbD bit = dr7.getLsbD bit := by
  unfold Owns at other
  by_cases inside : bit < 64
  · have field : (0xF#64 <<< (16 + slot * 4)).getLsbD bit = false := by
      rw [BitVec.getLsbD_shiftLeft, getLsbD_fifteen]
      simp only [Bool.and_eq_false_iff, decide_eq_false_iff_not, Bool.not_eq_false']
      simp only [decide_eq_true_eq]
      omega
    have on : (1#64 <<< (slot * 2)).getLsbD bit = false := by
      rw [BitVec.getLsbD_shiftLeft, getLsbD_one]
      simp only [Bool.and_eq_false_iff, decide_eq_false_iff_not, Bool.not_eq_false']
      simp only [decide_eq_true_eq]
      omega
    unfold slotControl
    cases enable <;>
      simp only [if_true, Bool.false_eq_true, if_false, BitVec.getLsbD_and, BitVec.getLsbD_or,
        BitVec.getLsbD_not, field, on, inside, decide_true, Bool.not_false, Bool.and_true,
        Bool.or_false]
  · rw [BitVec.getLsbD_of_ge _ _ (by omega), BitVec.getLsbD_of_ge _ _ (by omega)]

/-- `program_slot` changes only the register of its slot and the bits of `DR7` the slot owns. -/
theorem debugAddress_programSlot (ctx : Context) {slot other : ℕ} (address : ℕ) (enable : Bool)
    (small : slot < slotCount) (small' : other < slotCount) (ne : other ≠ slot) :
    debugAddress (programSlot ctx slot address enable) other = debugAddress ctx other := by
  unfold slotCount at small small'
  interval_cases slot <;> interval_cases other <;> first | rfl | exact absurd rfl ne

theorem programSlot_dr6 (ctx : Context) (slot address : ℕ) (enable : Bool) :
    (programSlot ctx slot address enable).dr6 = ctx.dr6 := by
  unfold programSlot setDebugAddress
  split <;> rfl

theorem programSlot_eflags (ctx : Context) (slot address : ℕ) (enable : Bool) :
    (programSlot ctx slot address enable).eflags = ctx.eflags := by
  unfold programSlot setDebugAddress
  split <;> rfl

theorem programSlot_rip (ctx : Context) (slot address : ℕ) (enable : Bool) :
    (programSlot ctx slot address enable).rip = ctx.rip := by
  unfold programSlot setDebugAddress
  split <;> rfl

theorem programSlot_sameSlot (ctx : Context) {slot other : ℕ} (address : ℕ) (enable : Bool)
    (small : slot < slotCount) (small' : other < slotCount) (ne : other ≠ slot) :
    SameSlot ctx (programSlot ctx slot address enable) other := by
  refine ⟨debugAddress_programSlot ctx address enable small small' ne, fun bit owned => ?_⟩
  refine slotControl_frame ctx.dr7 enable ?_
  unfold Owns slotCount at *
  omega

theorem SameSlot.refl (ctx : Context) (slot : ℕ) : SameSlot ctx ctx slot := ⟨rfl, fun _ _ => rfl⟩

theorem SameSlot.trans {ctx ctx' ctx'' : Context} {slot : ℕ} (first : SameSlot ctx ctx' slot)
    (second : SameSlot ctx' ctx'' slot) : SameSlot ctx ctx'' slot :=
  ⟨second.1.trans first.1, fun bit owned => (second.2 bit owned).trans (first.2 bit owned)⟩

theorem slotControl_local (dr7 : BitVec 64) {slot : ℕ} (enable : Bool) (small : slot < slotCount) :
    (slotControl dr7 slot enable).getLsbD (2 * slot) = enable := by
  unfold slotCount at small
  have on : (1#64 <<< (slot * 2)).getLsbD (2 * slot) = true := by
    rw [BitVec.getLsbD_shiftLeft, getLsbD_one]
    simp
    omega
  unfold slotControl
  cases enable <;>
    simp only [if_true, Bool.false_eq_true, if_false, BitVec.getLsbD_and, BitVec.getLsbD_or,
      BitVec.getLsbD_not, on, Bool.or_true, Bool.not_true, Bool.and_false]

/-- Programming a slot clears its condition. -/
theorem slotControl_condition (dr7 : BitVec 64) {slot : ℕ} (bit : ℕ) (enable : Bool)
    (small : slot < slotCount) (low : 16 + 4 * slot ≤ bit) (high : bit < 20 + 4 * slot) :
    (slotControl dr7 slot enable).getLsbD bit = false := by
  unfold slotCount at small
  have field : (0xF#64 <<< (16 + slot * 4)).getLsbD bit = true := by
    rw [BitVec.getLsbD_shiftLeft, getLsbD_fifteen]
    simp only [Bool.and_eq_true, decide_eq_true_eq, Bool.not_eq_true', decide_eq_false_iff_not]
    omega
  have on : (1#64 <<< (slot * 2)).getLsbD bit = false := by
    rw [BitVec.getLsbD_shiftLeft, getLsbD_one]
    simp only [Bool.and_eq_false_iff, decide_eq_false_iff_not, Bool.not_eq_false']
    simp only [decide_eq_true_eq]
    omega
  unfold slotControl
  cases enable <;>
    simp only [if_true, Bool.false_eq_true, if_false, BitVec.getLsbD_and, BitVec.getLsbD_or,
      BitVec.getLsbD_not, field, on, Bool.not_true, Bool.and_false, Bool.false_and, Bool.or_false]

theorem debugAddress_self (ctx : Context) {slot : ℕ} (address : ℕ) (enable : Bool)
    (small : slot < slotCount) :
    debugAddress (programSlot ctx slot address enable) slot =
      if enable then BitVec.ofNat 64 address else 0 := by
  unfold slotCount at small
  interval_cases slot <;> rfl

/-- The slot holds what was programmed: its register, its local enable bit and an execution
condition. -/
structure Programmed (ctx : Context) (slot address : ℕ) (enable : Bool) : Prop where
  register : debugAddress ctx slot = if enable then BitVec.ofNat 64 address else 0
  bit : ctx.dr7.getLsbD (2 * slot) = enable
  condition : ∀ bit, 16 + 4 * slot ≤ bit → bit < 20 + 4 * slot → ctx.dr7.getLsbD bit = false

theorem programSlot_programmed (ctx : Context) {slot : ℕ} (address : ℕ) (enable : Bool)
    (small : slot < slotCount) :
    Programmed (programSlot ctx slot address enable) slot address enable := by
  refine ⟨debugAddress_self ctx address enable small, ?_, fun bit low high => ?_⟩
  · exact slotControl_local ctx.dr7 enable small
  · exact slotControl_condition ctx.dr7 bit enable small low high

/-! ### A pass over the threads -/

/-- The threads of the process, as the functions that visit each of them see it. -/
structure DebugOs where
  /-- The calling thread. -/
  self : ℕ
  /-- `enumerate_process_threads`. -/
  tids : List ℕ
  openThread : ℕ → OpenResult
  suspendThread : ℕ → SuspendResult
  getThreadContext : ℕ → Bool
  setThreadContext : ℕ → Bool

section Veh

variable (os : DebugOs) (slot address : ℕ) (enable : Bool)

/-- `set_debug_register`. -/
def setDebugRegister (tid : ℕ) (contexts : ℕ → Context) : Bool × (ℕ → Context) :=
  if os.getThreadContext tid && os.setThreadContext tid then
    (true, Function.update contexts tid (programSlot (contexts tid) slot address enable))
  else (false, contexts)

/-- The turn of one other thread. -/
def setOther (tid : ℕ) (contexts : ℕ → Context) : Bool × (ℕ → Context) :=
  match os.openThread tid with
  | .invalidParameter => (true, contexts)
  | .denied => (false, contexts)
  | .opened =>
    match os.suspendThread tid with
    | .suspended => setDebugRegister os slot address enable tid contexts
    | .exited => (true, contexts)
    | .failed => (false, contexts)

/-- The loop over the other threads. -/
def setOthers : List ℕ → Bool × (ℕ → Context) → Bool × (ℕ → Context)
  | [], done => done
  | tid :: rest, done =>
    let turn := setOther os slot address enable tid done.2
    setOthers rest (done.1 && turn.1, turn.2)

/-- `set_breakpoint_on_all_threads`; the second component are the threads' registers after it. -/
def setBreakpointOnAllThreads (contexts : ℕ → Context) : Bool × (ℕ → Context) :=
  setOthers os slot address enable os.tids
    (setDebugRegister os slot address enable os.self contexts)

end Veh

/-! ### What a pass leaves -/

/-- The thread runs: it can be opened, and its exit code does not say that it has ended. -/
structure DebugOs.Alive (os : DebugOs) (tid : ℕ) : Prop where
  opens : os.openThread tid ≠ .invalidParameter
  runs : os.suspendThread tid ≠ .exited

/-- The pass comes to the thread. -/
def DebugOs.Lists (os : DebugOs) (tid : ℕ) : Prop := tid = os.self ∨ tid ∈ os.tids

/-- The pass comes to the thread, and it runs. -/
def DebugOs.Reaches (os : DebugOs) (tid : ℕ) : Prop := tid = os.self ∨ (tid ∈ os.tids ∧ os.Alive tid)

section Pass

variable {os : DebugOs} {slot address : ℕ} {enable : Bool} {contexts contexts' : ℕ → Context}

/-- One turn programs the slot of one thread, or leaves every thread as it is and reports so unless
the thread is gone. -/
structure Turn (os : DebugOs) (slot address : ℕ) (enable : Bool) (tid : ℕ)
    (contexts : ℕ → Context) (turn : Bool × (ℕ → Context)) : Prop where
  outcome : turn.2 = contexts ∨
    turn.2 = Function.update contexts tid (programSlot (contexts tid) slot address enable)
  done : turn.1 = true → os.Alive tid →
    turn.2 = Function.update contexts tid (programSlot (contexts tid) slot address enable)

theorem setDebugRegister_turn (tid : ℕ) : Turn os slot address enable tid contexts
    (setDebugRegister os slot address enable tid contexts) := by
  unfold setDebugRegister
  split_ifs with reached
  · exact ⟨.inr rfl, fun _ _ => rfl⟩
  · exact ⟨.inl rfl, fun ok => by cases ok⟩

theorem setOther_turn (tid : ℕ) : Turn os slot address enable tid contexts
    (setOther os slot address enable tid contexts) := by
  unfold setOther
  cases opened : os.openThread tid with
  | invalidParameter => exact ⟨.inl rfl, fun _ alive => absurd opened alive.opens⟩
  | denied => exact ⟨.inl rfl, fun ok => by cases ok⟩
  | opened =>
    simp only
    cases suspended : os.suspendThread tid with
    | suspended => exact setDebugRegister_turn tid
    | exited => exact ⟨.inl rfl, fun _ alive => absurd suspended alive.runs⟩
    | failed => exact ⟨.inl rfl, fun ok => by cases ok⟩

/-- The other slots are kept, the threads that were not listed are as they were, and the slot is
programmed in the threads that are done. -/
structure Swept (slot address : ℕ) (enable : Bool) (listed done : ℕ → Prop)
    (contexts contexts' : ℕ → Context) : Prop where
  other : ∀ tid, ∀ other < slotCount, other ≠ slot → SameSlot (contexts tid) (contexts' tid) other
  missed : ∀ tid, ¬ listed tid → contexts' tid = contexts tid
  here : ∀ tid, done tid → Programmed (contexts' tid) slot address enable

theorem Swept.turn {listed done : ℕ → Prop} {tid : ℕ} {turn : Bool × (ℕ → Context)}
    (small : slot < slotCount) (swept : Swept slot address enable listed done contexts contexts')
    (step : Turn os slot address enable tid contexts' turn) (ok : turn.1 = true) :
    Swept slot address enable (fun t => listed t ∨ t = tid)
      (fun t => done t ∨ (t = tid ∧ os.Alive tid)) contexts turn.2 := by
  refine ⟨fun t other inside ne => ?_, fun t away => ?_, fun t finished => ?_⟩
  · rcases step.outcome with same | set
    · rw [same]
      exact swept.other t other inside ne
    · rw [set]
      by_cases here : t = tid
      · rw [here, Function.update_self]
        exact (swept.other tid other inside ne).trans
          (programSlot_sameSlot _ address enable small inside ne)
      · rw [Function.update_of_ne here]
        exact swept.other t other inside ne
  · obtain ⟨unlisted, ne⟩ := not_or.mp away
    rcases step.outcome with same | set
    · rw [same]
      exact swept.missed t unlisted
    · rw [set, Function.update_of_ne ne]
      exact swept.missed t unlisted
  · by_cases set : turn.2 = Function.update contexts' tid
        (programSlot (contexts' tid) slot address enable)
    · rw [set]
      by_cases here : t = tid
      · rw [here, Function.update_self]
        exact programSlot_programmed _ address enable small
      · rw [Function.update_of_ne here]
        exact swept.here t (finished.resolve_right fun both => here both.1)
    · rcases finished with before | ⟨rfl, alive⟩
      · rw [step.outcome.resolve_right set]
        exact swept.here t before
      · exact absurd (step.done ok alive) set

/-- The loop reports success only if every turn did. -/
theorem setOthers_ok {tids : List ℕ} {done : Bool × (ℕ → VehTrap.Context)}
    (ok : (setOthers os slot address enable tids done).1 = true) : done.1 = true := by
  induction tids generalizing done with
  | nil => exact ok
  | cons tid rest ih =>
    have both : (done.1 && (setOther os slot address enable tid done.2).1) = true := ih ok
    exact (Bool.and_eq_true_iff.mp both).1

theorem Swept.others {listed done : ℕ → Prop} {tids : List ℕ} {start : Bool × (ℕ → Context)}
    (small : slot < slotCount) (swept : Swept slot address enable listed done contexts start.2)
    (ok : (setOthers os slot address enable tids start).1 = true) :
    Swept slot address enable (fun t => listed t ∨ t ∈ tids)
      (fun t => done t ∨ (t ∈ tids ∧ os.Alive t)) contexts
      (setOthers os slot address enable tids start).2 := by
  induction tids generalizing listed done start with
  | nil =>
    refine ⟨swept.other, fun t away => swept.missed t (not_or.mp away).1,
      fun t finished => swept.here t (finished.resolve_right ?_)⟩
    rintro ⟨none, -⟩
    cases none
  | cons tid rest ih =>
    have unfolded : setOthers os slot address enable (tid :: rest) start =
        setOthers os slot address enable rest
          (start.1 && (setOther os slot address enable tid start.2).1,
            (setOther os slot address enable tid start.2).2) := rfl
    rw [unfolded] at ok ⊢
    have both : (start.1 && (setOther os slot address enable tid start.2).1) = true :=
      setOthers_ok ok
    have turned := (Bool.and_eq_true_iff.mp both).2
    have further := swept.turn small (setOther_turn tid) turned
    have next := @ih _ _ (start.1 && (setOther os slot address enable tid start.2).1,
      (setOther os slot address enable tid start.2).2) further ok
    refine ⟨next.other, fun t away => next.missed t ?_, fun t finished => next.here t ?_⟩
    · rw [List.mem_cons, not_or, not_or] at away
      exact not_or.mpr ⟨not_or.mpr ⟨away.1, away.2.1⟩, away.2.2⟩
    · rcases finished with before | ⟨mem, alive⟩
      · exact .inl (.inl before)
      · rcases List.mem_cons.mp mem with rfl | mem
        · exact .inl (.inr ⟨rfl, alive⟩)
        · exact .inr ⟨mem, alive⟩

/-- A pass that reports success has programmed the slot in every thread it lists that runs. -/
theorem setBreakpointOnAllThreads_swept (small : slot < slotCount)
    (ok : (setBreakpointOnAllThreads os slot address enable contexts).1 = true) :
    Swept slot address enable os.Lists os.Reaches contexts
      (setBreakpointOnAllThreads os slot address enable contexts).2 := by
  have first : (setDebugRegister os slot address enable os.self contexts).1 = true :=
    setOthers_ok ok
  refine @Swept.others os slot address enable contexts _ _ os.tids _ small
    ⟨fun t other inside ne => ?_, fun t away => ?_, fun t here => ?_⟩ ok
  · rcases (setDebugRegister_turn os.self).outcome with same | set
    · rw [same]
      exact SameSlot.refl _ _
    · rw [set]
      by_cases here : t = os.self
      · rw [here, Function.update_self]
        exact programSlot_sameSlot _ address enable small inside ne
      · rw [Function.update_of_ne here]
        exact SameSlot.refl _ _
  · rcases (setDebugRegister_turn os.self).outcome with same | set
    · rw [same]
    · rw [set, Function.update_of_ne away]
  · have reached : (os.getThreadContext os.self && os.setThreadContext os.self) = true := by
      by_contra off
      unfold setDebugRegister at first
      rw [if_neg off] at first
      cases first
    unfold setDebugRegister
    rw [if_pos reached]
    change Programmed (Function.update contexts os.self _ t) slot address enable
    rw [here, Function.update_self]
    exact programSlot_programmed _ address enable small

end Pass

/-- The calling thread 1 and another one, whose registers can be read and written. -/
def twoThreads : DebugOs where
  self := 1
  tids := [2]
  openThread _ := .opened
  suspendThread _ := .suspended
  getThreadContext _ := true
  setThreadContext _ := true

theorem twoThreads_alive (tid : ℕ) : twoThreads.Alive tid := by
  constructor
  · intro gone
    cases gone
  · intro gone
    cases gone

end VehTrap

end NeoHook
