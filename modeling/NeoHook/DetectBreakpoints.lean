import NeoHook.Breakpoints
import NeoHook.Detect

/-!
# Detecting hardware breakpoints

`HardwareBreakpoints` of `detect.rs`, the execution breakpoints armed in the threads of the process.
After a pass of `set_breakpoint_on_all_threads` that reports success the detection sees the slot that
was programmed, and the other slots and the threads that the pass did not list as they were.
-/

namespace NeoHook

open ByteMap Disk

namespace Detect

open VehTrap

/-- The address of an execution breakpoint that is enabled in the slot, 0 for none. -/
def breakpointIn (ctx : VehTrap.Context) (slot : ℕ) : ℕ :=
  let enabled := ctx.dr7 &&& (3#64 <<< (slot * 2)) != 0
  let execute := (ctx.dr7 >>> (16 + slot * 4)) &&& 3#64 == 0
  if enabled && execute then (debugAddress ctx slot).toNat else 0

section Capture

variable (os : DebugOs) (contexts : ℕ → VehTrap.Context)

/-- The closure `read` of `capture`. -/
def readBreakpoints (tid : ℕ) : List ℕ :=
  if os.getThreadContext tid then (List.range slotCount).map (breakpointIn (contexts tid))
  else List.replicate slotCount 0

/-- The breakpoints of another thread. -/
def readOther (tid : ℕ) : List ℕ :=
  match os.openThread tid, os.suspendThread tid with
  | .opened, .suspended => readBreakpoints os contexts tid
  | _, _ => []

/-- `HardwareBreakpoints::capture`. -/
def capture : List ℕ :=
  let addresses := readBreakpoints os contexts os.self ++ os.tids.flatMap (readOther os contexts)
  ((addresses.filter fun address => address ≠ 0).mergeSort fun a b => a ≤ b).dedup

end Capture

/-- `hook_at`; `binary_search` finds an address of the sorted list. -/
def hookAt (addresses : List ℕ) (func : ℕ) : Option DetectedHook :=
  if func ∈ addresses then some ⟨.hardwareBreakpoint, func, none, none, none⟩ else none

/-! ### What a slot shows -/

theorem getLsbD_three (bit : ℕ) : (3#64).getLsbD bit = decide (bit < 2) := by
  have mask : (3 : ℕ) = 2 ^ 2 - 1 := rfl
  rw [BitVec.getLsbD_ofNat, mask, Nat.testBit_two_pow_sub_one]
  by_cases small : bit < 2
  · simp [small, show bit < 64 by omega]
  · simp [small]

/-- A field of two bits that is not zero has one of them set. -/
theorem field_ne_zero (x : BitVec 64) (bit : ℕ) (small : bit + 1 < 64) :
    (x &&& (3#64 <<< bit) != 0) = (x.getLsbD bit || x.getLsbD (bit + 1)) := by
  have masked : ∀ i < 64, (x &&& (3#64 <<< bit)).getLsbD i =
      (x.getLsbD i && decide (i = bit ∨ i = bit + 1)) := by
    intro i less
    rw [BitVec.getLsbD_and, BitVec.getLsbD_shiftLeft, getLsbD_three]
    congr 1
    rw [Bool.eq_iff_iff]
    simp only [Bool.and_eq_true, decide_eq_true_eq, Bool.not_eq_true', decide_eq_false_iff_not]
    omega
  rw [Bool.eq_iff_iff, bne_iff_ne, ne_eq, Bool.or_eq_true]
  constructor
  · intro nonzero
    by_contra neither
    apply nonzero
    apply BitVec.eq_of_getLsbD_eq
    intro i less
    change _ = (0#64).getLsbD i
    rw [masked i less, BitVec.getLsbD_zero, Bool.and_eq_false_iff, decide_eq_false_iff_not]
    by_cases here : i = bit ∨ i = bit + 1
    · left
      rcases here with rfl | rfl
      · exact Bool.eq_false_iff.mpr fun set => neither (.inl set)
      · exact Bool.eq_false_iff.mpr fun set => neither (.inr set)
    · exact .inr here
  · rintro (set | set) zero
    · have bits := masked bit (by omega)
      rw [zero, set] at bits
      simp at bits
    · have bits := masked (bit + 1) small
      rw [zero, set] at bits
      simp at bits

/-- A field of two bits is zero when neither of them is set. -/
theorem field_eq_zero (x : BitVec 64) (bit : ℕ) :
    ((x >>> bit) &&& 3#64 == 0) = (!x.getLsbD bit && !x.getLsbD (bit + 1)) := by
  have shifted := field_ne_zero (x >>> bit) 0 (by omega)
  rw [BitVec.shiftLeft_zero, BitVec.getLsbD_ushiftRight, BitVec.getLsbD_ushiftRight,
    Nat.add_zero, Nat.zero_add] at shifted
  rw [← Bool.not_or, ← shifted, bne, Bool.not_not]

/-- The breakpoint in a slot, bit by bit. -/
theorem breakpointIn_eq (ctx : VehTrap.Context) {slot : ℕ} (small : slot < slotCount) :
    breakpointIn ctx slot =
      if (ctx.dr7.getLsbD (2 * slot) || ctx.dr7.getLsbD (2 * slot + 1)) &&
          (!ctx.dr7.getLsbD (16 + 4 * slot) && !ctx.dr7.getLsbD (17 + 4 * slot)) then
        (debugAddress ctx slot).toNat
      else 0 := by
  unfold slotCount at small
  unfold breakpointIn
  rw [field_ne_zero _ _ (by omega), field_eq_zero, Nat.mul_comm slot 2,
    Nat.mul_comm slot 4, show 16 + 4 * slot + 1 = 17 + 4 * slot by omega]

/-- The fields of a slot decide it. -/
theorem breakpointIn_of_same {ctx ctx' : VehTrap.Context} {slot : ℕ} (small : slot < slotCount)
    (same : SameSlot ctx ctx' slot) : breakpointIn ctx' slot = breakpointIn ctx slot := by
  obtain ⟨address, bits⟩ := same
  rw [breakpointIn_eq _ small, breakpointIn_eq _ small, address, bits _ (.inl (.inl rfl)),
    bits _ (.inr rfl), bits (16 + 4 * slot) (.inl (.inr ⟨by omega, by omega⟩)),
    bits (17 + 4 * slot) (.inl (.inr ⟨by omega, by omega⟩))]

/-- A programmed slot shows its address, and a cleared one shows nothing. -/
theorem breakpointIn_programmed {ctx : VehTrap.Context} {slot address : ℕ} {enable : Bool}
    (small : slot < slotCount) (word : address < 2 ^ 64)
    (programmed : Programmed ctx slot address enable) :
    breakpointIn ctx slot = if enable then address else 0 := by
  obtain ⟨register, bit, condition⟩ := programmed
  rw [breakpointIn_eq _ small, register, bit, condition (16 + 4 * slot) (by omega) (by omega),
    condition (17 + 4 * slot) (by omega) (by omega)]
  cases enable with
  | true =>
    simp only [Bool.true_or, Bool.not_false, Bool.and_true, if_true, BitVec.toNat_ofNat]
    exact Nat.mod_eq_of_lt word
  | false =>
    simp only [Bool.false_eq_true, if_false]
    exact ite_self 0

/-! ### What the detection sees of it -/

theorem mem_capture {os : DebugOs} {contexts : ℕ → VehTrap.Context} {a : ℕ} :
    a ∈ capture os contexts ↔ a ≠ 0 ∧
      ∃ tid, (tid = os.self ∨ (tid ∈ os.tids ∧ os.openThread tid = .opened ∧
        os.suspendThread tid = .suspended)) ∧ os.getThreadContext tid = true ∧
        ∃ slot < slotCount, breakpointIn (contexts tid) slot = a := by
  have reads : ∀ tid, a ≠ 0 → (a ∈ readBreakpoints os contexts tid ↔
      os.getThreadContext tid = true ∧ ∃ slot < slotCount, breakpointIn (contexts tid) slot = a) := by
    intro tid nonzero
    unfold readBreakpoints
    split_ifs with read
    · simp only [List.mem_map, List.mem_range, read, true_and]
    · simp only [List.mem_replicate, read, Bool.false_eq_true, false_and, iff_false, not_and]
      exact fun _ => nonzero
  have others : ∀ tid, a ≠ 0 → (a ∈ readOther os contexts tid ↔
      os.openThread tid = .opened ∧ os.suspendThread tid = .suspended ∧
        a ∈ readBreakpoints os contexts tid) := by
    intro tid nonzero
    unfold readOther
    cases os.openThread tid <;> cases os.suspendThread tid <;> simp
  unfold capture
  simp only [List.mem_dedup, List.mem_mergeSort, List.mem_filter, List.mem_append,
    List.mem_flatMap, decide_eq_true_eq]
  constructor
  · rintro ⟨here | ⟨tid, mem, there⟩, nonzero⟩
    · exact ⟨nonzero, os.self, .inl rfl, (reads _ nonzero).mp here⟩
    · obtain ⟨opened, suspended, there⟩ := (others tid nonzero).mp there
      exact ⟨nonzero, tid, .inr ⟨mem, opened, suspended⟩, (reads tid nonzero).mp there⟩
  · rintro ⟨nonzero, tid, rfl | ⟨mem, opened, suspended⟩, there⟩
    · exact ⟨.inl ((reads _ nonzero).mpr there), nonzero⟩
    · refine ⟨.inr ⟨tid, mem, (others tid nonzero).mpr ⟨opened, suspended, ?_⟩⟩, nonzero⟩
      exact (reads tid nonzero).mpr there

/-- The threads that run: the detection reads each of them, and those that the pass of the hooks lists
are not reported gone to it. -/
structure Watched (os os' : DebugOs) (live : ℕ → Prop) : Prop where
  self : live os.self
  alive : ∀ tid ∈ os.tids, live tid → os.Alive tid
  seen : ∀ tid, (tid = os'.self ∨ (tid ∈ os'.tids ∧ os'.openThread tid = .opened ∧
    os'.suspendThread tid = .suspended)) ∧ os'.getThreadContext tid = true ↔ live tid

/-- What a VEH hook programs is what the detection reads.  After a pass over the threads that reports
success the detection finds a hook at an address just when the pass enabled that address, or another
slot of some thread has an execution breakpoint there, or any slot of a thread that the pass did not
list. -/
theorem hookAt_after_pass {os os' : DebugOs} {live : ℕ → Prop} (watched : Watched os os' live)
    {slot address : ℕ} (small : slot < slotCount) (word : address < 2 ^ 64) (enable : Bool)
    (contexts : ℕ → VehTrap.Context)
    (ok : (setBreakpointOnAllThreads os slot address enable contexts).1 = true) (func : ℕ) :
    hookAt (capture os' (setBreakpointOnAllThreads os slot address enable contexts).2) func =
        some ⟨.hardwareBreakpoint, func, none, none, none⟩ ↔
      func ≠ 0 ∧ ((enable = true ∧ func = address) ∨ ∃ tid, live tid ∧
        ∃ other < slotCount, (other ≠ slot ∨ ¬ os.Lists tid) ∧
          breakpointIn (contexts tid) other = func) := by
  have swept := setBreakpointOnAllThreads_swept small ok
  have shown : hookAt (capture os' (setBreakpointOnAllThreads os slot address enable contexts).2)
      func = some ⟨.hardwareBreakpoint, func, none, none, none⟩ ↔
        func ∈ capture os' (setBreakpointOnAllThreads os slot address enable contexts).2 := by
    unfold hookAt
    split_ifs with mem
    · exact iff_of_true rfl mem
    · exact iff_of_false (fun eq => by cases eq) mem
  have kept : ∀ tid, ∀ other < slotCount, other ≠ slot ∨ ¬ os.Lists tid →
      breakpointIn ((setBreakpointOnAllThreads os slot address enable contexts).2 tid) other =
        breakpointIn (contexts tid) other := by
    intro tid other inside elsewhere
    rcases elsewhere with ne | unlisted
    · exact breakpointIn_of_same inside (swept.other tid other inside ne)
    · rw [swept.missed tid unlisted]
  have set : ∀ tid, live tid → os.Lists tid →
      breakpointIn ((setBreakpointOnAllThreads os slot address enable contexts).2 tid) slot =
        if enable then address else 0 := by
    intro tid runs listed
    refine breakpointIn_programmed small word (swept.here tid ?_)
    exact listed.imp_right fun mem => ⟨mem, watched.alive tid mem runs⟩
  rw [shown, mem_capture]
  refine and_congr_right fun nonzero => ⟨?_, ?_⟩
  · rintro ⟨tid, known, read, other, inside, there⟩
    have runs := (watched.seen tid).mp ⟨known, read⟩
    by_cases elsewhere : other ≠ slot ∨ ¬ os.Lists tid
    · rw [kept tid other inside elsewhere] at there
      exact .inr ⟨tid, runs, other, inside, elsewhere, there⟩
    · rw [not_or, not_not, not_not] at elsewhere
      obtain ⟨rfl, listed⟩ := elsewhere
      rw [set tid runs listed] at there
      cases enable with
      | true => exact .inl ⟨rfl, there.symm⟩
      | false => exact absurd there.symm nonzero
  · rintro (⟨on, there⟩ | ⟨tid, runs, other, inside, elsewhere, there⟩)
    · obtain ⟨known, read⟩ := (watched.seen os.self).mpr watched.self
      refine ⟨os.self, known, read, slot, small, ?_⟩
      rw [set os.self watched.self (.inl rfl), on, there]
      rfl
    · obtain ⟨known, read⟩ := (watched.seen tid).mpr runs
      exact ⟨tid, known, read, other, inside, (kept tid other inside elsewhere).trans there⟩

def idleRegisters : VehTrap.Context := ⟨0, 0, 0, 0, 0, 0, 0, 0⟩

/-- The pass armed both threads that run.  A third one that it did not list, but the detection does,
keeps the breakpoint it has in the same slot. -/
theorem twoThreads_breakpoint :
    let os' : DebugOs := { twoThreads with tids := [2, 3] }
    let contexts : ℕ → VehTrap.Context := fun tid =>
      if tid = 3 then programSlot idleRegisters 1 0x6000 true else idleRegisters
    let after := (setBreakpointOnAllThreads twoThreads 1 0x5000 true contexts).2
    hookAt (capture os' after) 0x5000 = some ⟨.hardwareBreakpoint, 0x5000, none, none, none⟩ ∧
      hookAt (capture os' after) 0x6000 = some ⟨.hardwareBreakpoint, 0x6000, none, none, none⟩ := by
  intro os' contexts after
  have watched : Watched twoThreads os' fun tid => tid = 1 ∨ tid ∈ [2, 3] := by
    refine ⟨.inl rfl, fun tid _ _ => twoThreads_alive tid, fun tid => ?_⟩
    constructor
    · rintro ⟨here | ⟨there, -, -⟩, -⟩
      · exact .inl here
      · exact .inr there
    · rintro (here | there)
      · exact ⟨.inl here, rfl⟩
      · exact ⟨.inr ⟨there, rfl, rfl⟩, rfl⟩
  constructor
  · exact (hookAt_after_pass watched (by decide) (by decide) true contexts rfl 0x5000).mpr
      ⟨by decide, .inl ⟨rfl, rfl⟩⟩
  · refine (hookAt_after_pass watched (by decide) (by decide) true contexts rfl 0x6000).mpr
      ⟨by decide, .inr ⟨3, .inr (by decide), 1, by decide, .inr ?_, by decide +kernel⟩⟩
    rintro (here | there)
    · cases here
    · exact absurd there (by decide)

end Detect

end NeoHook
