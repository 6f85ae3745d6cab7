import NeoHook.Int3
import NeoHook.Lib.Pool
import Mathlib.Algebra.Order.Group.Multiset

/-!
# Exception handlers and slot tables, step by step

`int3.rs` and `veh.rs` share one protocol: a table of slots that the exception handlers read without
a lock, and installs and removals that write it under one.  The machine here takes each load and
store of either side as a step of its own.  The thread that holds the locks has its position in the
state, so that a step of a handler sees the table in whatever stage that thread left it.  Loads and
stores interleave and a load returns the last value stored; the source asks for release and acquire
order only.
-/

namespace NeoHook

open Pool

/-- Which of the two engines: software or hardware breakpoints. -/
inductive TrapKind where
  | int3 | veh
  deriving DecidableEq, Repr

/-- Number of slots (`MAX_HOOKS`, `SLOT_COUNT`). -/
def TrapKind.slots : TrapKind → ℕ
  | .int3 => Code.maxHooks
  | .veh => 4

/-- Length of the ring of removed targets (`RETIRED_LEN`, `RETIRED_COUNT`). -/
def TrapKind.ringLen : TrapKind → ℕ
  | .int3 => retiredLen
  | .veh => 16

/-- A hook object; `originalByte` is that of an INT3 hook. -/
structure TrapHook where
  target : ℕ
  detour : ℕ
  slot : ℕ
  originalByte : UInt8
  deriving DecidableEq, Repr

/-- How a handler leaves: to a detour, to the instruction that trapped, or with
`EXCEPTION_CONTINUE_SEARCH`. -/
inductive Verdict where
  | detour (detour : ℕ) | rerun | search
  deriving DecidableEq, Repr

/-- Where the thread that holds the locks is: the access it makes next. -/
inductive Writer where
  /-- The loop that looks for a free slot. -/
  | find (target detour i : ℕ) (free : Option ℕ)
  | register (target detour slot : ℕ)
  | storeDetour (target detour slot : ℕ)
  | storeArmed (target detour slot : ℕ)
  | storeTarget (target detour slot : ℕ)
  /-- The write of `0xCC`; `veh.rs` arms every thread instead. -/
  | arm (target detour slot : ℕ)
  | undoTarget (slot : ℕ)
  | undoDetour (slot : ℕ)
  /-- `veh.rs` disarms every thread. -/
  | disarm (hook : TrapHook)
  | retire (hook : TrapHook)
  /-- `int3.rs` writes the original byte back. -/
  | restore (hook : TrapHook)
  | clearTarget (hook : TrapHook)
  | clearDetour (hook : TrapHook)
  /-- The loop of `release_idle_handler` over the slots. -/
  | releaseScan (i : ℕ)
  | inFlight
  | removeHandler
  | clearRing (k : ℕ)
  deriving DecidableEq, Repr

/-- Tables, code bytes and hook objects of one engine.  The last four fields are history that no
function reads. -/
structure TrapState where
  slotTarget : ℕ → ℕ
  slotDetour : ℕ → ℕ
  slotArmed : ℕ → ℕ
  retired : ℕ → ℕ
  retiredNext : ℕ
  mem : ℕ → UInt8
  handler : Bool
  keepHandler : Bool
  /-- The hooks the program holds. -/
  hooks : Multiset TrapHook
  /-- The thread that holds the locks. -/
  writer : Option Writer
  /-- Target and detour of every install that came to publish its detour. -/
  installs : List (ℕ × ℕ)
  /-- Address and outcome of every trap handled. -/
  verdicts : List (ℕ × Verdict)
  /-- How many targets were recorded as removed. -/
  retirements : ℕ
  /-- The byte is the `0xCC` of a hook. -/
  patched : ℕ → Bool

/-- A trap a thread takes: the debug slots that DR6 reports for the address and whether it reports a
single step (`veh.rs` only), and how many targets had been retired by then. -/
structure Trap where
  addr : ℕ
  fired : List ℕ
  singleStep : Bool
  since : ℕ
  deriving DecidableEq, Repr

/-- What a thread asks for under the locks. -/
inductive TrapRequest where
  | install (target detour : ℕ)
  | remove (hook : TrapHook)
  /-- `release_unused_handler`. -/
  | release
  deriving DecidableEq, Repr

/-- Where a call is: the access it makes next. -/
inductive TrapCall where
  /-- `find_detour`: the load of a slot's target, and of its detour once the target matched;
  `again` is set for the second scan of `int3_handler`. -/
  | scan (trap : Trap) (again : Bool) (i : ℕ)
  | matched (trap : Trap) (again : Bool) (i : ℕ)
  | ring (trap : Trap) (k : ℕ)
  | readByte (trap : Trap)
  /-- The loops of `veh_handler` over the fired slots: the loads of the armed address and of the
  live target. -/
  | resync (trap : Trap) (i : ℕ) (handled : Bool)
  | live (trap : Trap) (i : ℕ)
  | relive (trap : Trap) (i : ℕ)
  /-- Waiting for the locks, and holding them. -/
  | want (request : TrapRequest)
  | hold
  /-- `Int3Hook::forget`, which takes no lock. -/
  | forget (hook : TrapHook)
  deriving DecidableEq, Repr

namespace TrapState

def initial (mem : ℕ → UInt8) : TrapState where
  slotTarget _ := 0
  slotDetour _ := 0
  slotArmed _ := 0
  retired _ := 0
  retiredNext := 0
  mem
  handler := false
  keepHandler := false
  hooks := 0
  writer := none
  installs := []
  verdicts := []
  retirements := 0
  patched _ := false

def storeTarget (s : TrapState) (slot value : ℕ) : TrapState :=
  { s with slotTarget := Function.update s.slotTarget slot value }

def storeDetour (s : TrapState) (slot value : ℕ) : TrapState :=
  { s with slotDetour := Function.update s.slotDetour slot value }

/-- The lock holder goes on to `w`, or releases the locks. -/
def goto (s : TrapState) (w : Option Writer) : TrapState := { s with writer := w }

/-- A handler returns. -/
def settle (s : TrapState) (trap : Trap) (v : Verdict) : TrapState :=
  { s with verdicts := (trap.addr, v) :: s.verdicts }

/-- Records a removed target in the ring. -/
def retire (s : TrapState) (len target : ℕ) : TrapState :=
  { s with
    retired := Function.update s.retired s.retiredNext target
    retiredNext := (s.retiredNext + 1) % len
    retirements := s.retirements + 1 }

/-- Writes a code byte; `ours` is whether it is the `0xCC` of a hook. -/
def poke (s : TrapState) (target : ℕ) (byte : UInt8) (ours : Bool) : TrapState :=
  { s with
    mem := Function.update s.mem target byte
    patched := Function.update s.patched target ours }

end TrapState

/-- One access of the lock holder; `ok` is the answer of the OS where it makes a call, and for
`inFlight` whether no thread is found dispatching a trap. -/
def Writer.access (kind : TrapKind) (ok : Bool) (s : TrapState) : Writer → TrapState
  | .find t d i free =>
    if i < kind.slots then
      if s.slotTarget i = t then s.goto none
      else s.goto (some (.find t d (i + 1) (if s.slotTarget i = 0 ∧ free = none then some i else free)))
    else match free with
      | none => s.goto none
      | some slot => s.goto (some (.register t d slot))
  | .register t d slot =>
    if s.handler then s.goto (some (.storeDetour t d slot))
    else if ok then { s with handler := true }.goto (some (.storeDetour t d slot))
    else s.goto none
  | .storeDetour t d slot =>
    { s.storeDetour slot d with installs := (t, d) :: s.installs }.goto
      (some (match kind with | .int3 => .storeTarget t d slot | .veh => .storeArmed t d slot))
  | .storeArmed t d slot =>
    { s with slotArmed := Function.update s.slotArmed slot t }.goto (some (.storeTarget t d slot))
  | .storeTarget t d slot => (s.storeTarget slot t).goto (some (.arm t d slot))
  | .arm t d slot =>
    match kind with
    | .veh => { s with hooks := ⟨t, d, slot, 0⟩ ::ₘ s.hooks }.goto none
    | .int3 =>
      if ok then
        { s.poke t int3Opcode true with hooks := ⟨t, d, slot, s.mem t⟩ ::ₘ s.hooks }.goto none
      else s.goto (some (.undoTarget slot))
  | .undoTarget slot => (s.storeTarget slot 0).goto (some (.undoDetour slot))
  | .undoDetour slot => (s.storeDetour slot 0).goto (some (.releaseScan 0))
  | .disarm h => { s with keepHandler := s.keepHandler || !ok }.goto (some (.retire h))
  | .retire h =>
    (s.retire kind.ringLen h.target).goto
      (some (match kind with | .int3 => .restore h | .veh => .clearTarget h))
  | .restore h =>
    (if ok then s.poke h.target h.originalByte false else s).goto (some (.clearTarget h))
  | .clearTarget h => (s.storeTarget h.slot 0).goto (some (.clearDetour h))
  | .clearDetour h => (s.storeDetour h.slot 0).goto (some (.releaseScan 0))
  | .releaseScan i =>
    if s.handler = false ∨ (kind = .veh ∧ s.keepHandler) then s.goto none
    else if i < kind.slots then
      s.goto (if s.slotTarget i = 0 then some (.releaseScan (i + 1)) else none)
    else s.goto (some .inFlight)
  | .inFlight => s.goto (if ok then some .removeHandler else none)
  | .removeHandler =>
    { s with handler := false }.goto (match kind with | .int3 => some (.clearRing 0) | .veh => none)
  | .clearRing k =>
    if k < kind.ringLen then
      { s with retired := Function.update s.retired k 0 }.goto (some (.clearRing (k + 1)))
    else { s with retiredNext := 0 }.goto none

/-- The locks are taken for a request; `ok` is, for an INT3 install, whether no inline patch covers
the target. -/
def TrapRequest.start (kind : TrapKind) (ok : Bool) (s : TrapState) : TrapRequest → TrapState
  | .install t d => if kind = .int3 ∧ ok = false then s else s.goto (some (.find t d 0 none))
  | .remove h =>
    { s with hooks := s.hooks.erase h }.goto
      (some (match kind with | .int3 => .retire h | .veh => .disarm h))
  | .release => s.goto (some (.releaseScan 0))

/-- Behind the first scan of a handler that found nothing. -/
def Trap.afterScan (kind : TrapKind) (s : TrapState) (t : Trap) (again : Bool) :
    TrapState × Option TrapCall :=
  if again then (s.settle t .search, none)
  else match kind with
    | .int3 => (s, some (.ring t 0))
    | .veh => (s, some (.resync t 0 false))

/-- One access of a call. -/
def TrapCall.access (kind : TrapKind) (ok : Bool) (s : TrapState) :
    TrapCall → TrapState × Option TrapCall
  | .scan t again i =>
    if i < kind.slots then
      (s, some (if s.slotTarget i = t.addr then .matched t again i else .scan t again (i + 1)))
    else t.afterScan kind s again
  | .matched t again i =>
    if s.slotDetour i ≠ 0 then (s.settle t (.detour (s.slotDetour i)), none)
    else (s, some (.scan t again (i + 1)))
  | .ring t k =>
    if k < kind.ringLen then
      if s.retired k = t.addr then
        (s, some (match kind with | .int3 => .readByte t | .veh => .relive t 0))
      else (s, some (.ring t (k + 1)))
    else (s.settle t .search, none)
  | .readByte t =>
    if s.mem t.addr ≠ int3Opcode then (s.settle t .rerun, none) else (s, some (.scan t true 0))
  | .resync t i handled =>
    if i < kind.slots then
      (s, some (if i ∈ t.fired ∧ s.slotArmed i = t.addr then .live t i
        else .resync t (i + 1) handled))
    else if handled then (s.settle t .rerun, none)
    else if t.singleStep then (s.settle t .search, none)
    else (s, some (.ring t 0))
  | .live t i => (s, some (.resync t (i + 1) true))
  | .relive t i =>
    if i < kind.slots then (s, some (.relive t (i + 1))) else (s.settle t .rerun, none)
  | .want r =>
    let s' := r.start kind ok s
    (s', if s'.writer = none then none else some .hold)
  | .hold =>
    match s.writer with
    | none => (s, none)
    | some w =>
      let s' := w.access kind ok s
      (s', if s'.writer = none then none else some .hold)
  | .forget h => ({ s with hooks := s.hooks.erase h }.storeTarget h.slot 0, none)

/-- What a run of the machine may contain besides the steps of calls already begun. -/
structure TrapRules where
  kind : TrapKind
  /-- The addresses a thread can trap at. -/
  traps : TrapState → ℕ → Prop
  /-- Hooks of unloaded modules are forgotten. -/
  forgets : Prop
  /-- The answers of the OS. -/
  answers : Writer → Bool → Prop

/-- Any number of traps, installs, removals and releases. -/
def trapMachine (R : TrapRules) : Machine TrapState TrapCall Bool where
  enter s p := match p with
    | .scan t false 0 => R.traps s t.addr ∧ t.addr ≠ 0 ∧ t.since = s.retirements
    | .want (.install t d) => t ≠ 0 ∧ d ≠ 0
    | .want (.remove _) => True
    | .want .release => R.kind = .int3
    | .forget _ => R.kind = .int3 ∧ R.forgets
    | _ => False
  answers s p ok := match p with
    | .want (.remove h) => s.writer = none ∧ h ∈ s.hooks
    | .want _ => s.writer = none
    | .hold => ∃ w ∈ s.writer, R.answers w ok
    | .forget h => h ∈ s.hooks
    | _ => True
  access ok s p := p.access R.kind ok s

section Decide

variable (R : TrapRules) [∀ s a, Decidable (R.traps s a)] [Decidable R.forgets]
  [∀ w ok, Decidable (R.answers w ok)]

instance (s : TrapState) (p : TrapCall) : Decidable ((trapMachine R).enter s p) :=
  match p with
  | .scan t false 0 =>
    inferInstanceAs (Decidable (R.traps s t.addr ∧ t.addr ≠ 0 ∧ t.since = s.retirements))
  | .want (.install t d) => inferInstanceAs (Decidable (t ≠ 0 ∧ d ≠ 0))
  | .want (.remove _) => inferInstanceAs (Decidable True)
  | .want .release => inferInstanceAs (Decidable (R.kind = .int3))
  | .forget _ => inferInstanceAs (Decidable (R.kind = .int3 ∧ R.forgets))
  | .scan _ true _ | .scan _ false (_ + 1) | .matched .. | .ring .. | .readByte .. | .resync ..
  | .live .. | .relive .. | .hold => inferInstanceAs (Decidable False)

instance (s : TrapState) (p : TrapCall) (ok : Bool) : Decidable ((trapMachine R).answers s p ok) :=
  match p with
  | .want (.remove h) => inferInstanceAs (Decidable (s.writer = none ∧ h ∈ s.hooks))
  | .want (.install ..) | .want .release => inferInstanceAs (Decidable (s.writer = none))
  | .hold => inferInstanceAs (Decidable (∃ w ∈ s.writer, R.answers w ok))
  | .forget h => inferInstanceAs (Decidable (h ∈ s.hooks))
  | .scan .. | .matched .. | .ring .. | .readByte .. | .resync .. | .live .. | .relive .. =>
    inferInstanceAs (Decidable True)

end Decide

/-! ### Loops that find nothing -/

section Loops

variable {R : TrapRules} {init s : TrapState} {rest : Multiset TrapCall}
  (answers : ∀ w, R.answers w true)

include answers in
/-- One step of the lock holder. -/
theorem reachable_hold {w v : Writer}
    (run : Reachable (trapMachine R).program (fun _ _ _ => True) init s (.hold ::ₘ rest))
    (at_ : s.writer = some w) {s' : TrapState} (moves : w.access R.kind true s = s')
    (goes : s'.writer = some v) :
    Reachable (trapMachine R).program (fun _ _ _ => True) init s' (.hold ::ₘ rest) := by
  have access : (trapMachine R).access true s .hold = (s', some .hold) := by
    simp only [trapMachine, TrapCall.access, at_, moves, goes, reduceCtorEq, if_false]
  have admitted : (trapMachine R).answers s .hold true := ⟨w, at_, answers w⟩
  have next := run.step .hold rest rfl trivial ⟨true, admitted, access⟩
  rwa [left_some_add] at next

/-- The locks are taken. -/
theorem reachable_want {r : TrapRequest} {ok : Bool} {w : Writer}
    (run : Reachable (trapMachine R).program (fun _ _ _ => True) init s rest)
    (begins : (trapMachine R).enter s (.want r)) (admits : (trapMachine R).answers s (.want r) ok)
    {s' : TrapState} (moves : r.start R.kind ok s = s') (goes : s'.writer = some w) :
    Reachable (trapMachine R).program (fun _ _ _ => True) init s' (.hold ::ₘ rest) := by
  have access : (trapMachine R).access ok s (.want r) = (s', some .hold) := by
    simp only [trapMachine, TrapCall.access, moves, goes, reduceCtorEq, if_false]
  have next := (run.enter (TrapCall.want r) begins).step _ rest rfl trivial ⟨ok, admits, access⟩
  rwa [left_some_add] at next

/-- The last step of the lock holder. -/
theorem reachable_unlock {w : Writer} {ok : Bool}
    (run : Reachable (trapMachine R).program (fun _ _ _ => True) init s (.hold ::ₘ rest))
    (at_ : s.writer = some w) (admits : R.answers w ok) {s' : TrapState}
    (moves : w.access R.kind ok s = s') (goes : s'.writer = none) :
    Reachable (trapMachine R).program (fun _ _ _ => True) init s' rest := by
  have access : (trapMachine R).access ok s .hold = (s', none) := by
    simp only [trapMachine, TrapCall.access, at_, moves, goes, if_true]
  have admitted : (trapMachine R).answers s .hold ok := ⟨w, at_, admits⟩
  have next := run.step .hold rest rfl trivial ⟨ok, admitted, access⟩
  rwa [left_none, zero_add] at next

include answers in
/-- The search for a free slot goes through the slots behind the first free one. -/
theorem reachable_find {t d i slot : ℕ}
    (run : Reachable (trapMachine R).program (fun _ _ _ => True) init s (.hold ::ₘ rest))
    (at_ : s.writer = some (.find t d i (some slot))) (le : i ≤ R.kind.slots)
    (other : ∀ j, i ≤ j → s.slotTarget j ≠ t) :
    Reachable (trapMachine R).program (fun _ _ _ => True) init
      (s.goto (some (.find t d R.kind.slots (some slot)))) (.hold ::ₘ rest) := by
  obtain ⟨n, reach⟩ := Nat.exists_eq_add_of_le le
  induction n generalizing s i with
  | zero =>
    have same : s.goto (some (.find t d R.kind.slots (some slot))) = s := by
      rw [reach, Nat.add_zero, ← at_]
      rfl
    rw [same]
    exact run
  | succ n ih =>
    have inside : i < R.kind.slots := by omega
    have moves : Writer.access R.kind true s (.find t d i (some slot)) =
        s.goto (some (.find t d (i + 1) (some slot))) := by
      simp only [Writer.access, if_pos inside, if_neg (other i le_rfl), reduceCtorEq, and_false,
        if_false]
    have next := reachable_hold answers run at_ moves rfl
    have done := ih next rfl (by omega) (fun j le => other j (by omega)) (by omega)
    exact done

include answers in
/-- `release_idle_handler` finds no slot in use. -/
theorem reachable_releaseScan {i : ℕ}
    (run : Reachable (trapMachine R).program (fun _ _ _ => True) init s (.hold ::ₘ rest))
    (at_ : s.writer = some (.releaseScan i)) (le : i ≤ R.kind.slots)
    (needed : ¬ (s.handler = false ∨ (R.kind = .veh ∧ s.keepHandler)))
    (empty : ∀ j, i ≤ j → s.slotTarget j = 0) :
    Reachable (trapMachine R).program (fun _ _ _ => True) init
      (s.goto (some (.releaseScan R.kind.slots))) (.hold ::ₘ rest) := by
  obtain ⟨n, reach⟩ := Nat.exists_eq_add_of_le le
  induction n generalizing s i with
  | zero =>
    have same : s.goto (some (.releaseScan R.kind.slots)) = s := by
      rw [reach, Nat.add_zero, ← at_]
      rfl
    rw [same]
    exact run
  | succ n ih =>
    have inside : i < R.kind.slots := by omega
    have moves : Writer.access R.kind true s (.releaseScan i) =
        s.goto (some (.releaseScan (i + 1))) := by
      simp only [Writer.access, if_neg needed, if_pos inside, if_pos (empty i le_rfl)]
    have next := reachable_hold answers run at_ moves rfl
    have done := ih next rfl (by omega) needed (fun j le => empty j (by omega)) (by omega)
    exact done

/-- `find_detour` finds no slot for the address. -/
theorem reachable_scan {t : Trap} {again : Bool} {i : ℕ}
    (run : Reachable (trapMachine R).program (fun _ _ _ => True) init s (.scan t again i ::ₘ rest))
    (le : i ≤ R.kind.slots) (other : ∀ j, i ≤ j → s.slotTarget j ≠ t.addr) :
    Reachable (trapMachine R).program (fun _ _ _ => True) init s
      (.scan t again R.kind.slots ::ₘ rest) := by
  obtain ⟨n, reach⟩ := Nat.exists_eq_add_of_le le
  induction n generalizing i with
  | zero =>
    rw [reach, Nat.add_zero]
    exact run
  | succ n ih =>
    have inside : i < R.kind.slots := by omega
    have access : (trapMachine R).access true s (.scan t again i) =
        (s, some (.scan t again (i + 1))) := by
      simp only [trapMachine, TrapCall.access, if_pos inside, if_neg (other i le_rfl)]
    have admitted : (trapMachine R).answers s (.scan t again i) true := trivial
    have next := run.step (.scan t again i) rest rfl trivial ⟨true, admitted, access⟩
    rw [left_some_add] at next
    exact ih next (by omega) (fun j le => other j (by omega)) (by omega)

/-! ### Whole operations of one INT3 hook -/

/-- The only hook is installed. -/
def TrapState.installed (s : TrapState) (t d : ℕ) : TrapState :=
  { s with
    slotTarget := Function.update s.slotTarget 0 t
    slotDetour := Function.update s.slotDetour 0 d
    handler := true
    mem := Function.update s.mem t int3Opcode
    patched := Function.update s.patched t true
    installs := (t, d) :: s.installs
    hooks := ⟨t, d, 0, s.mem t⟩ ::ₘ s.hooks
    writer := none }

/-- The only hook is removed and the handler kept. -/
def TrapState.removed (s : TrapState) (h : TrapHook) : TrapState :=
  { s.retire retiredLen h.target with
    mem := Function.update s.mem h.target h.originalByte
    patched := Function.update s.patched h.target false
    slotTarget := Function.update s.slotTarget h.slot 0
    slotDetour := Function.update s.slotDetour h.slot 0
    hooks := s.hooks.erase h
    writer := none }

theorem TrapState.installed_empty {t d : ℕ} (empty : ∀ j, s.slotTarget j = 0) :
    ∀ j ≠ 0, (s.installed t d).slotTarget j = 0 := fun j other =>
  (Function.update_of_ne other _ _).trans (empty j)

theorem TrapState.removed_empty {h : TrapHook} (empty : ∀ j ≠ h.slot, s.slotTarget j = 0) :
    ∀ j, (s.removed h).slotTarget j = 0 := by
  intro j
  by_cases here : j = h.slot
  · rw [here]
    exact Function.update_self h.slot 0 s.slotTarget
  · exact (Function.update_of_ne here 0 s.slotTarget).trans (empty j here)

include answers in
theorem reachable_install {t d : ℕ}
    (run : Reachable (trapMachine R).program (fun _ _ _ => True) init s rest)
    (int3 : R.kind = .int3) (free : s.writer = none) (nonnull : t ≠ 0 ∧ d ≠ 0)
    (empty : ∀ j, s.slotTarget j = 0) :
    Reachable (trapMachine R).program (fun _ _ _ => True) init (s.installed t d) rest := by
  obtain ⟨kind, traps, forgets, admitted⟩ := R
  obtain rfl : kind = .int3 := int3
  have other (j : ℕ) : s.slotTarget j ≠ t := fun eq => nonnull.1 (eq.symm.trans (empty j))
  have inside : 0 < TrapKind.int3.slots := by decide
  have locks : TrapRequest.start .int3 true s (.install t d) =
      s.goto (some (.find t d 0 none)) := by
    simp only [TrapRequest.start, Bool.true_eq_false, and_false, if_false]
  have holds := reachable_want run (r := .install t d) nonnull free locks rfl
  have finds : Writer.access .int3 true (s.goto (some (.find t d 0 none))) (.find t d 0 none) =
      s.goto (some (.find t d 1 (some 0))) := by
    simp only [Writer.access, TrapState.goto, if_pos inside]
    rw [if_neg (other 0), if_pos ⟨empty 0, trivial⟩]
  have behind := reachable_find answers (reachable_hold answers holds rfl finds rfl) rfl inside
    fun j _ => other j
  have registers : Writer.access .int3 true (s.goto (some (.register t d 0))) (.register t d 0) =
      { s with handler := true }.goto (some (.storeDetour t d 0)) := by
    by_cases registered : s.handler = true
    · simp only [Writer.access, TrapState.goto, registered, if_true]
    · simp only [Writer.access, TrapState.goto, if_neg registered, if_true]
  have stores := reachable_hold answers (reachable_hold answers behind rfl rfl rfl) rfl registers rfl
  have armed := reachable_hold answers (reachable_hold answers stores rfl rfl rfl) rfl rfl rfl
  exact reachable_unlock armed rfl (answers _) rfl rfl

include answers in
theorem reachable_remove {h : TrapHook}
    (run : Reachable (trapMachine R).program (fun _ _ _ => True) init s rest)
    (int3 : R.kind = .int3) (busy : R.answers .inFlight false) (free : s.writer = none)
    (held : h ∈ s.hooks) (registered : s.handler = true)
    (empty : ∀ j ≠ h.slot, s.slotTarget j = 0) :
    Reachable (trapMachine R).program (fun _ _ _ => True) init (s.removed h) rest := by
  obtain ⟨kind, traps, forgets, admitted⟩ := R
  obtain rfl : kind = .int3 := int3
  have admits : (trapMachine ⟨.int3, traps, forgets, admitted⟩).answers s (.want (.remove h)) true :=
    ⟨free, held⟩
  have holds := reachable_want run (r := .remove h) trivial admits rfl rfl
  have restores := reachable_hold answers holds rfl rfl rfl
  have clears := reachable_hold answers (reachable_hold answers restores rfl rfl rfl) rfl rfl rfl
  have scans := reachable_hold answers clears rfl rfl rfl
  have needed : ¬ (s.handler = false ∨ (TrapKind.int3 = .veh ∧ s.keepHandler)) := by
    rw [registered]
    rintro (none_ | ⟨other, -⟩)
    · cases none_
    · cases other
  have idle := reachable_releaseScan answers scans rfl (Nat.zero_le _) needed
    fun j _ => TrapState.removed_empty empty j
  have asks {s' : TrapState}
      (needed : ¬ (s'.handler = false ∨ (TrapKind.int3 = .veh ∧ s'.keepHandler))) :
      Writer.access .int3 true s' (.releaseScan TrapKind.int3.slots) =
        s'.goto (some .inFlight) := by
    simp only [Writer.access, if_neg needed, lt_irrefl, if_false]
  exact reachable_unlock (reachable_hold answers idle rfl (asks needed) rfl) rfl busy rfl rfl

end Loops

end NeoHook
