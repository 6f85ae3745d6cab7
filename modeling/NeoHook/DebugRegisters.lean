import NeoHook.HandlerTables

/-!
# Debug registers in a trap

`veh_handler` of `veh.rs`, and what `program_slot` keeps, on the context of the thread that trapped.
A trap at a live hook goes to its detour; a breakpoint that fired for a hook that is gone is taken
out of the context and the thread resumes; every other trap is left to the handlers behind.

A resumed trap is not seen by anyone else.  If a register of another component fired in the same
trap, its owner never learns of it.  The registers have their width on x86_64; x86 is not modelled.
-/

namespace NeoHook

namespace VehTrap

/-- `STATUS_SINGLE_STEP`. -/
def statusSingleStep : BitVec 32 := 0x80000004

/-- `DR6_SINGLE_STEP`, set by a trap-flag step. -/
def dr6SingleStep : BitVec 64 := 0x4000

inductive Disposition where
  | continueExecution | continueSearch
  deriving DecidableEq, Repr

structure Record where
  exceptionCode : BitVec 32
  exceptionAddress : ℕ
  deriving DecidableEq

/-- `EXCEPTION_POINTERS`; `none` is a null pointer. -/
structure Pointers where
  exceptionRecord : Option Record
  contextRecord : Option Context
  deriving DecidableEq

/-- `DR6` reports the register. -/
def fired (hits : BitVec 64) (slot : ℕ) : Bool := hits &&& (1#64 <<< slot) != 0

/-- The loop over the slots that takes out of the context the breakpoints at `fault` that fired, as
far as `ours` lets it; tells whether there was one. -/
def resync (v : VehTables) (ours : ℕ → Bool) (hits : BitVec 64) (fault : ℕ) :
    List ℕ → Context → Context × Bool
  | [], ctx => (ctx, false)
  | slot :: rest, ctx =>
    if fired hits slot && (debugAddress ctx slot).toNat == fault && ours slot then
      ((resync v ours hits fault rest
        (programSlot ctx slot (v.slotTarget slot) (v.slotTarget slot != 0))).1, true)
    else resync v ours hits fault rest ctx

/-- The detour of a live hook at the address. -/
def liveDetour (v : VehTables) (fault : ℕ) : Option ℕ :=
  ((List.range slotCount).find? fun i =>
    v.slotTarget i == fault && v.slotDetour i != 0).map v.slotDetour

/-- The address is that of a recently removed hook. -/
def isRetired (v : VehTables) (fault : ℕ) : Bool :=
  (List.range retiredCount).any fun k => v.retired k == fault

/-- The end of the handler for a trap that is resumed: `DR6` cleared, resume flag set. -/
def resume (ctx : Context) : Context := { ctx with dr6 := 0, eflags := ctx.eflags ||| 0x10000 }

/-- The handler from the point where there is no live hook. -/
def disarmStale (v : VehTables) (ctx : Context) (fault : ℕ) : Disposition × Context :=
  let hits := ctx.dr6 &&& 0xF
  let (ctx₁, handled) :=
    resync v (fun slot => v.slotArmed slot == fault) hits fault (List.range slotCount) ctx
  if handled then (.continueExecution, resume ctx₁)
  else if ctx₁.dr6 &&& dr6SingleStep == 0 && isRetired v fault then
    (.continueExecution,
      resume (resync v (fun _ => true) hits fault (List.range slotCount) ctx₁).1)
  else (.continueSearch, ctx₁)

/-- `veh_handler`; a null pointer for `info` is `none`. -/
def vehHandler (v : VehTables) (info : Option Pointers) : Disposition × Option Pointers :=
  match info with
  | some ⟨some record, some ctx⟩ =>
    if record.exceptionCode ≠ statusSingleStep then (.continueSearch, info)
    else if record.exceptionAddress = 0 then (.continueSearch, info)
    else
      match liveDetour v record.exceptionAddress with
      | some detour =>
        (.continueExecution, some ⟨some record, some { ctx with rip := BitVec.ofNat 64 detour }⟩)
      | none =>
        let (disposition, ctx') := disarmStale v ctx record.exceptionAddress
        (disposition, some ⟨some record, some ctx'⟩)
  | _ => (.continueSearch, info)

/-! ### The loops over the slots -/

section Resync

variable (v : VehTables) (ours : ℕ → Bool) (hits : BitVec 64) (fault : ℕ)

/-- The loop takes the slot out of the context. -/
def Passes (ctx : Context) (slot : ℕ) : Prop :=
  fired hits slot = true ∧ (debugAddress ctx slot).toNat = fault ∧ ours slot = true

variable {v ours hits fault}

/-- What the loop over the slots does. -/
structure Resynced (slots : List ℕ) (ctx : Context) (result : Context × Bool) : Prop where
  handled : result.2 = true ↔ ∃ slot ∈ slots, Passes ours hits fault ctx slot
  unchanged : result.2 = false → result.1 = ctx
  slot : ∀ other < slotCount, (other ∈ slots → ¬ Passes ours hits fault ctx other) →
    SameSlot ctx result.1 other
  bit : ∀ b, (∀ other < slotCount, ¬ Owns other b) → result.1.dr7.getLsbD b = ctx.dr7.getLsbD b
  dr6 : result.1.dr6 = ctx.dr6
  eflags : result.1.eflags = ctx.eflags
  rip : result.1.rip = ctx.rip

theorem resync_resynced {slots : List ℕ} (nodup : slots.Nodup)
    (small : ∀ slot ∈ slots, slot < slotCount) (ctx : Context) :
    @Resynced ours hits fault slots ctx (resync v ours hits fault slots ctx) := by
  induction slots generalizing ctx with
  | nil =>
    exact ⟨by simp [resync], fun _ => rfl, fun other _ _ => SameSlot.refl ctx other,
      fun _ _ => rfl, rfl, rfl, rfl⟩
  | cons slot rest ih =>
    obtain ⟨fresh, nodup⟩ := List.nodup_cons.mp nodup
    obtain ⟨here, small⟩ := List.forall_mem_cons.mp small
    have test : (fired hits slot && (debugAddress ctx slot).toNat == fault && ours slot) = true ↔
        Passes ours hits fault ctx slot := by
      simp [Passes, and_assoc]
    rw [resync]
    by_cases passes : Passes ours hits fault ctx slot
    · rw [if_pos (test.mpr passes)]
      have frame : ∀ other < slotCount, other ≠ slot → SameSlot ctx
          (programSlot ctx slot (v.slotTarget slot) (v.slotTarget slot != 0)) other :=
        fun other inside ne => programSlot_sameSlot ctx _ _ here inside ne
      have again := ih nodup small
        (programSlot ctx slot (v.slotTarget slot) (v.slotTarget slot != 0))
      refine ⟨?_, nofun, ?_, ?_, ?_, ?_, ?_⟩
      · simp only [true_iff]
        exact ⟨slot, List.mem_cons_self, passes⟩
      · intro other inside misses
        have ne : other ≠ slot := by
          rintro rfl
          exact misses List.mem_cons_self passes
        refine (frame other inside ne).trans (again.slot other inside fun listed passed => ?_)
        refine misses (List.mem_cons_of_mem slot listed) ?_
        obtain ⟨hit, holds, own⟩ := passed
        rw [(frame other inside ne).1] at holds
        exact ⟨hit, holds, own⟩
      · intro b unowned
        rw [again.bit b unowned]
        exact slotControl_frame ctx.dr7 _ (unowned slot here)
      · rw [again.dr6, programSlot_dr6]
      · rw [again.eflags, programSlot_eflags]
      · rw [again.rip, programSlot_rip]
    · rw [if_neg (mt test.mp passes)]
      have again := ih nodup small ctx
      refine ⟨?_, again.unchanged, ?_, again.bit, again.dr6, again.eflags, again.rip⟩
      · rw [again.handled]
        simp [passes]
      · intro other inside misses
        exact again.slot other inside fun listed => misses (List.mem_cons_of_mem slot listed)

theorem resync_slots (ctx : Context) :
    @Resynced ours hits fault (List.range slotCount) ctx
      (resync v ours hits fault (List.range slotCount) ctx) :=
  resync_resynced List.nodup_range (fun _ listed => List.mem_range.mp listed) ctx

end Resync

/-! ### The handler -/

/-- A register that `DR6` reports. -/
def Fired (ctx : Context) (slot : ℕ) : Prop := ctx.dr6.getLsbD slot = true

theorem and_bit_eq_zero (x : BitVec 64) {bit : ℕ} (small : bit < 64) :
    x &&& (1#64 <<< bit) = 0 ↔ x.getLsbD bit = false := by
  have power : BitVec.twoPow 64 bit ≠ 0 := by
    intro zero
    have set := congrArg (fun y => BitVec.getLsbD y bit) zero
    simp [small] at set
  have masked := BitVec.and_twoPow x bit
  unfold BitVec.twoPow at masked power
  rw [masked]
  cases x.getLsbD bit
  · simp
  · simpa using power

theorem fired_iff (ctx : Context) {slot : ℕ} (small : slot < slotCount) :
    fired (ctx.dr6 &&& 0xF) slot = true ↔ Fired ctx slot := by
  unfold slotCount at small
  have low : (0xF#64).getLsbD slot = true := by
    rw [getLsbD_fifteen]
    simpa using small
  unfold fired Fired
  rw [bne_iff_ne, ne_eq, and_bit_eq_zero _ (by omega), Bool.not_eq_false, BitVec.getLsbD_and]
  show (ctx.dr6.getLsbD slot && (0xF#64).getLsbD slot) = true ↔ _
  rw [low, Bool.and_true]

theorem singleStep_iff (ctx : Context) :
    (ctx.dr6 &&& dr6SingleStep == 0) = true ↔ ctx.dr6.getLsbD 14 = false := by
  rw [beq_iff_eq]
  exact @and_bit_eq_zero ctx.dr6 14 (by norm_num)

/-- There is a live hook at the address. -/
def Live (v : VehTables) (fault : ℕ) : Prop :=
  ∃ i < slotCount, v.slotTarget i = fault ∧ v.slotDetour i ≠ 0

/-- A register fired at an address the hooks armed in it, which it still holds. -/
def ArmedHit (v : VehTables) (ctx : Context) (fault : ℕ) : Prop :=
  ∃ slot < slotCount, Fired ctx slot ∧ (debugAddress ctx slot).toNat = fault ∧
    v.slotArmed slot = fault

/-- The address is that of a recently removed hook and the trap is no trap-flag step. -/
def RetiredHit (v : VehTables) (ctx : Context) (fault : ℕ) : Prop :=
  ctx.dr6.getLsbD 14 = false ∧ ∃ k < retiredCount, v.retired k = fault

theorem isRetired_iff (v : VehTables) (fault : ℕ) :
    isRetired v fault = true ↔ ∃ k < retiredCount, v.retired k = fault := by
  simp [isRetired]

theorem liveDetour_eq_none (v : VehTables) (fault : ℕ) :
    liveDetour v fault = none ↔ ¬ Live v fault := by
  unfold liveDetour Live
  simp only [Option.map_eq_none_iff, List.find?_eq_none, List.mem_range, Bool.and_eq_true,
    beq_iff_eq, bne_iff_ne, not_and, not_exists]

/-- A trap without a live hook is resumed exactly when it is known as one of ours; a trap that is
left to others leaves the context as it is. -/
theorem disarmStale_spec (v : VehTables) (ctx : Context) (fault : ℕ) :
    ((disarmStale v ctx fault).1 = .continueExecution ↔
      ArmedHit v ctx fault ∨ RetiredHit v ctx fault) ∧
    ((disarmStale v ctx fault).1 = .continueSearch → (disarmStale v ctx fault).2 = ctx) ∧
    (∀ slot < slotCount, ¬ (Fired ctx slot ∧ (debugAddress ctx slot).toNat = fault) →
      SameSlot ctx (disarmStale v ctx fault).2 slot) ∧
    ∀ b, (∀ slot < slotCount, ¬ Owns slot b) →
      (disarmStale v ctx fault).2.dr7.getLsbD b = ctx.dr7.getLsbD b := by
  have first := @resync_slots v (fun slot => v.slotArmed slot == fault) (ctx.dr6 &&& 0xF) fault ctx
  have armed : (resync v (fun slot => v.slotArmed slot == fault) (ctx.dr6 &&& 0xF) fault
      (List.range slotCount) ctx).2 = true ↔ ArmedHit v ctx fault := by
    rw [first.handled]
    unfold ArmedHit Passes
    refine exists_congr fun slot => ?_
    rw [List.mem_range]
    refine and_congr_right fun small => ?_
    rw [fired_iff ctx small, beq_iff_eq]
  have hit : ∀ ours : ℕ → Bool, ∀ slot < slotCount,
      ¬ (Fired ctx slot ∧ (debugAddress ctx slot).toNat = fault) →
      ¬ Passes ours (ctx.dr6 &&& 0xF) fault ctx slot := by
    rintro ours slot small misses ⟨fired, holds, _⟩
    exact misses ⟨(fired_iff ctx small).mp fired, holds⟩
  unfold disarmStale
  simp only
  cases handled : (resync v (fun slot => v.slotArmed slot == fault) (ctx.dr6 &&& 0xF) fault
      (List.range slotCount) ctx).2 with
  | true =>
    simp only [if_true]
    refine ⟨?_, nofun, ?_, ?_⟩
    · simp only [true_iff]
      exact .inl (armed.mp handled)
    · intro slot small misses
      exact first.slot slot small fun _ => hit _ slot small misses
    · exact first.bit
  | false =>
    have same := first.unchanged handled
    have unarmed : ¬ ArmedHit v ctx fault := by
      rw [← armed, handled]
      exact Bool.false_ne_true
    rw [same]
    simp only [Bool.false_eq_true, if_false]
    split_ifs with late
    · rw [Bool.and_eq_true, singleStep_iff, isRetired_iff] at late
      have second := @resync_slots v (fun _ => true) (ctx.dr6 &&& 0xF) fault ctx
      refine ⟨?_, nofun, ?_, ?_⟩
      · simp only [true_iff]
        exact .inr late
      · intro slot small misses
        exact second.slot slot small fun _ => hit _ slot small misses
      · exact second.bit
    · rw [Bool.and_eq_true, singleStep_iff, isRetired_iff] at late
      refine ⟨?_, fun _ => rfl, fun slot _ _ => SameSlot.refl ctx slot, fun _ _ => rfl⟩
      simp only [false_iff, not_or]
      exact ⟨unarmed, late⟩

/-! ### What is promised of a trap -/

/-- What is promised of the handler, where `foreign` are the registers that hold a breakpoint of
another component. -/
structure Promised (v : VehTables) (foreign : ℕ → Prop) (info : Option Pointers) : Prop where
  search : (vehHandler v info).1 = .continueSearch → (vehHandler v info).2 = info
  resumed : (vehHandler v info).1 = .continueExecution →
    ∃ record ctx ctx', info = some ⟨some record, some ctx⟩ ∧
      (vehHandler v info).2 = some ⟨some record, some ctx'⟩ ∧
      (¬ Live v record.exceptionAddress →
        ((∃ slot < slotCount, Fired ctx slot ∧ v.slotArmed slot = record.exceptionAddress) ∨
          RetiredHit v ctx record.exceptionAddress) ∧
        (∀ slot < slotCount,
          ¬ (Fired ctx slot ∧ (debugAddress ctx slot).toNat = record.exceptionAddress) →
          SameSlot ctx ctx' slot) ∧
        (∀ b, (∀ slot < slotCount, ¬ Owns slot b) → ctx'.dr7.getLsbD b = ctx.dr7.getLsbD b) ∧
        ∀ slot < slotCount, foreign slot → ¬ Fired ctx slot)

/-- No register of another component fired in a trap that the handler takes for its own. -/
def Undisturbed (v : VehTables) (foreign : ℕ → Prop) (info : Option Pointers) : Prop :=
  ∀ fault ctx, info = some ⟨some ⟨statusSingleStep, fault⟩, some ctx⟩ → fault ≠ 0 →
    ¬ Live v fault → ArmedHit v ctx fault ∨ RetiredHit v ctx fault →
    ∀ slot < slotCount, foreign slot → ¬ Fired ctx slot

/-- `program_slot` keeps to its own register and bits. -/
def KeepsToSlot (ctx : Context) (slot address : ℕ) (enable : Bool) : Prop :=
  (∀ other < slotCount, other ≠ slot →
    debugAddress (programSlot ctx slot address enable) other = debugAddress ctx other) ∧
  (∀ b, ¬ Owns slot b →
    (programSlot ctx slot address enable).dr7.getLsbD b = ctx.dr7.getLsbD b) ∧
  (programSlot ctx slot address enable).dr6 = ctx.dr6 ∧
  (programSlot ctx slot address enable).eflags = ctx.eflags ∧
  (programSlot ctx slot address enable).rip = ctx.rip

theorem programSlot_keepsToSlot (ctx : Context) {slot : ℕ} (address : ℕ) (enable : Bool)
    (small : slot < slotCount) : KeepsToSlot ctx slot address enable :=
  ⟨fun _ small' ne => debugAddress_programSlot ctx address enable small small' ne,
    fun _ unowned => slotControl_frame ctx.dr7 enable unowned,
    programSlot_dr6 ctx slot address enable, programSlot_eflags ctx slot address enable,
    programSlot_rip ctx slot address enable⟩

/-- What the handler does with a single step at an address without a live hook. -/
theorem vehHandler_stale (v : VehTables) {fault : ℕ} (ctx : Context) (nonzero : fault ≠ 0)
    (dead : ¬ Live v fault) :
    vehHandler v (some ⟨some ⟨statusSingleStep, fault⟩, some ctx⟩) =
      ((disarmStale v ctx fault).1,
        some ⟨some ⟨statusSingleStep, fault⟩, some (disarmStale v ctx fault).2⟩) := by
  unfold vehHandler
  simp only [ne_eq, not_true_eq_false, if_false, nonzero, (liveDetour_eq_none v fault).mpr dead]

/-- Every other exception is passed on as it is, or goes to the detour of a live hook. -/
theorem vehHandler_cases (v : VehTables) (info : Option Pointers) :
    vehHandler v info = (.continueSearch, info) ∨
    (∃ record ctx ctx', info = some ⟨some record, some ctx⟩ ∧ Live v record.exceptionAddress ∧
      vehHandler v info = (.continueExecution, some ⟨some record, some ctx'⟩)) ∨
    ∃ fault ctx, info = some ⟨some ⟨statusSingleStep, fault⟩, some ctx⟩ ∧ fault ≠ 0 ∧
      ¬ Live v fault := by
  match info with
  | none => exact .inl rfl
  | some ⟨none, _⟩ => exact .inl rfl
  | some ⟨some _, none⟩ => exact .inl rfl
  | some ⟨some ⟨code, fault⟩, some ctx⟩ =>
    by_cases step : code = statusSingleStep
    · by_cases zero : fault = 0
      · left
        simp [vehHandler, zero]
      · by_cases live : Live v fault
        · right
          left
          cases found : liveDetour v fault with
          | none => exact absurd live ((liveDetour_eq_none v fault).mp found)
          | some detour =>
            refine ⟨_, _, { ctx with rip := BitVec.ofNat 64 detour }, rfl, live, ?_⟩
            simp [vehHandler, step, zero, found]
        · right
          right
          exact ⟨fault, ctx, by rw [step], zero, live⟩
    · left
      simp [vehHandler, step]

/-- The handler keeps its promises exactly when no register of another component fired in a trap it
takes for its own; `program_slot` always keeps to its slot. -/
theorem vehHandler_promised_iff (v : VehTables) (foreign : ℕ → Prop) (info : Option Pointers) :
    (Promised v foreign info ∧ ∀ ctx slot address enable, slot < slotCount →
      KeepsToSlot ctx slot address enable) ↔ Undisturbed v foreign info := by
  constructor
  · rintro ⟨promised, _⟩ fault ctx rfl nonzero dead hit
    have handled := vehHandler_stale v ctx nonzero dead
    have resumes : (disarmStale v ctx fault).1 = .continueExecution :=
      (disarmStale_spec v ctx fault).1.mpr hit
    obtain ⟨record, before, _, same, _, stale⟩ := promised.resumed (by rw [handled]; exact resumes)
    cases same
    exact (stale dead).2.2.2
  · intro undisturbed
    refine ⟨?_, fun ctx slot address enable small => programSlot_keepsToSlot ctx address enable small⟩
    rcases vehHandler_cases v info with
      passed | ⟨record, ctx, ctx', rfl, live, jumped⟩ | ⟨fault, ctx, rfl, nonzero, dead⟩
    · constructor
      · intro _
        rw [passed]
      · intro resumed
        rw [passed] at resumed
        cases resumed
    · constructor
      · intro search
        rw [jumped] at search
        cases search
      · intro _
        rw [jumped]
        exact ⟨record, ctx, ctx', rfl, rfl, fun dead => absurd live dead⟩
    · have handled := vehHandler_stale v ctx nonzero dead
      obtain ⟨resumes, unchanged, slots, bits⟩ := disarmStale_spec v ctx fault
      constructor
      · intro search
        rw [handled] at search ⊢
        simp only [unchanged search]
      · intro resumed
        rw [handled] at resumed ⊢
        have hit := resumes.mp resumed
        refine ⟨_, ctx, _, rfl, rfl, fun _ => ⟨?_, slots, bits, ?_⟩⟩
        · rcases hit with ⟨slot, small, fired, _, armed⟩ | retired
          · exact .inl ⟨slot, small, fired, armed⟩
          · exact .inr retired
        · exact undisturbed fault ctx rfl nonzero dead hit

/-- The tables after the hook at `0x1000` in the first slot was removed. -/
def removedHook : VehTables :=
  { slotTarget := fun _ => 0
    slotDetour := fun _ => 0
    slotArmed := fun slot => if slot = 0 then 0x1000 else 0
    retired := fun k => if k = 0 then 0x1000 else 0
    retiredNext := 1
    handler := true
    keepHandler := false }

/-- A trap at `0x1000` reported for the third register, which another component armed there. -/
def foreignHit : Option Pointers :=
  some ⟨some ⟨statusSingleStep, 0x1000⟩, some ⟨0, 0, 0x1000, 0, 0x4, 0x10, 0, 0x1000⟩⟩

/-- The breakpoint of the other component is swallowed. -/
theorem foreignHit_swallowed :
    ¬ (Promised removedHook (· = 2) foreignHit ∧ ∀ ctx slot address enable, slot < slotCount →
      KeepsToSlot ctx slot address enable) := by
  rintro ⟨promised, _⟩
  obtain ⟨record, ctx, _, same, _, stale⟩ := promised.resumed (by decide)
  cases same
  have dead : ¬ Live removedHook 0x1000 := by
    rintro ⟨i, _, target, _⟩
    cases target
  exact (stale dead).2.2.2 2 (by decide) rfl rfl

end VehTrap

end NeoHook
