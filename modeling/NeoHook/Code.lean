import NeoHook.Jump

/-!
# Code memory and its registries

The process-wide state behind inline and INT3 hooks: code bytes, the stub allocations, the managed
and chained gateways and the live patches of `transaction.rs`, the quarantine of `reclaim.rs`, the
function tables of `unwind.rs` and the slots of `int3.rs`.

The last five fields of `Code` are history that no function of the program reads: they let a
statement speak about an allocation whose address is used again later, and about who wrote a byte.
-/

namespace NeoHook

open ByteMap

/-- An allocation and not only its address: the base with the number of allocations made there. -/
abbrev AllocId := ℕ × ℕ

/-- The hook whose jump was written over a range, with the trampoline it belongs to. -/
structure JumpMark where
  target : ℕ
  len : ℕ
  stub : AllocId
  deriving DecidableEq, Repr

/-- Hooks chained on a managed gateway. -/
structure ChainedGateway where
  dependents : ℕ
  /-- The gateway's trampoline once its owner was dropped. -/
  orphan : Option Region
  deriving DecidableEq, Repr

/-- The INT3 tables and the manager of `int3.rs`. -/
structure Int3Tables where
  slotTarget : ℕ → ℕ
  slotDetour : ℕ → ℕ
  retired : ℕ → ℕ
  retiredNext : ℕ
  handler : Bool

/-- A reclaim pass in progress: the regions it drained and, once it has released what it can, the
ones it keeps. -/
structure Pass where
  regions : List Region
  stillBusy : Option (List Region)

structure Code where
  mem : ℕ → UInt8
  /-- Stub allocations that have not been released. -/
  allocs : List Region
  managedGateways : Finset ℕ
  chainedGateways : ℕ → Option ChainedGateway
  livePatches : List (ℕ × ℕ)
  int3 : Int3Tables
  quarantine : List Region
  pass : Option Pass
  /-- `TABLES` of `unwind.rs`: the `registered` flag by allocation base. -/
  tables : ℕ → Option Bool
  /-- Bases with a function table registered with the OS. -/
  functionTables : Finset ℕ
  /-- How many allocations were made at each base. -/
  births : ℕ → ℕ
  /-- Allocations pushed to the quarantine, latest first. -/
  retiredLog : List AllocId
  /-- Allocations released by `VirtualFree`, latest first. -/
  freedLog : List AllocId
  /-- Allocations a function table was registered for. -/
  unwound : List AllocId
  /-- The hook whose jump was last written at a byte. -/
  jumps : ℕ → Option JumpMark

namespace Code

/-- The identity of the allocation at `base`. -/
def allocId (c : Code) (base : ℕ) : AllocId := (base, c.births base)

/-! ### Code writes -/

/-- Stores bytes; `mark` is the hook whose jump they are. -/
def store (c : Code) (target : ℕ) (bytes : List UInt8) (mark : Option JumpMark) : Code :=
  { c with
    mem := write c.mem target bytes
    jumps := fun x => if InRange target bytes.length x then mark else c.jumps x }

theorem store_mem_of_notMem {c : Code} {target : ℕ} {bytes : List UInt8} {mark : Option JumpMark}
    {x : ℕ} (h : ¬ InRange target bytes.length x) :
    (c.store target bytes mark).mem x = c.mem x := write_of_notMem h

/-- `write_code_bytes`; `ok` is whether the protection changes succeed. -/
def writeCodeBytes (c : Code) (target : ℕ) (bytes : List UInt8) (mark : Option JumpMark)
    (ok : Bool) : Option Code :=
  if target = 0 ∨ bytes = [] ∨ ok = false then none else some (c.store target bytes mark)

theorem writeCodeBytes_some {c c' : Code} {target : ℕ} {bytes : List UInt8}
    {mark : Option JumpMark} {ok : Bool} (eq : c.writeCodeBytes target bytes mark ok = some c') :
    target ≠ 0 ∧ c' = c.store target bytes mark := by
  unfold writeCodeBytes at eq
  by_cases refused : target = 0 ∨ bytes = [] ∨ ok = false
  · rw [if_pos refused] at eq
    cases eq
  · rw [if_neg refused] at eq
    exact ⟨fun zero => refused (.inl zero), (Option.some.inj eq).symm⟩

/-! ### Stub allocations -/

/-- `VirtualAlloc` can hand out the region: it overlaps neither a stub nor the memory the rest of
the process uses. -/
def Free (foreign : List Region) (c : Code) (r : Region) : Prop :=
  r.base ≠ 0 ∧ 0 < r.size ∧ r.base + r.mapped ≤ 2 ^ 64 ∧
    (∀ r' ∈ c.allocs, r.Apart r') ∧ ∀ r' ∈ foreign, r.Apart r'

instance (foreign : List Region) (c : Code) (r : Region) : Decidable (c.Free foreign r) :=
  inferInstanceAs (Decidable (_ ∧ _))

/-- A fresh stub allocation, filled with zeros. -/
def allocate (c : Code) (r : Region) : Code :=
  { c with
    mem := fun x => if r.Covers x then 0 else c.mem x
    allocs := r :: c.allocs
    births := Function.update c.births r.base (c.births r.base + 1)
    jumps := fun x => if r.Covers x then none else c.jumps x }

theorem allocate_mem_of_notMem {c : Code} {r : Region} {x : ℕ} (h : ¬ r.Covers x) :
    (c.allocate r).mem x = c.mem x := if_neg h

/-- `alloc_nearby_trampoline`, with the address the OS would return. -/
def allocNearbyTrampoline (foreign : List Region) (c : Code) (at_ : Option ℕ) (size : ℕ) :
    Option (Code × Trampoline) :=
  match at_ with
  | none => none
  | some a => if c.Free foreign ⟨a, size⟩ then some (c.allocate ⟨a, size⟩, ⟨a, size⟩) else none

theorem allocNearbyTrampoline_eq_some {foreign : List Region} {c c' : Code} {at_ : Option ℕ}
    {size : ℕ} {t : Trampoline} (h : c.allocNearbyTrampoline foreign at_ size = some (c', t)) :
    (t.size = size ∧ at_ = some t.ptr) ∧ c.Free foreign t.region ∧ c' = c.allocate t.region := by
  unfold allocNearbyTrampoline at h
  cases at_ with
  | none => cases h
  | some a =>
    simp only at h
    split_ifs at h with free
    simp only [Option.some.injEq, Prod.mk.injEq] at h
    obtain ⟨rfl, rfl⟩ := h
    exact ⟨⟨rfl, rfl⟩, free, rfl⟩

/-- `reclaim::retire`. -/
def retire (c : Code) (r : Region) : Code :=
  if r.base = 0 ∨ r.size = 0 then c
  else { c with
    quarantine := c.quarantine ++ [r]
    retiredLog := c.allocId r.base :: c.retiredLog }

/-- `Drop for Trampoline`. -/
def dropTrampoline (c : Code) (t : Trampoline) : Code :=
  if t.ptr = 0 then c else c.retire t.region

/-! ### Gateways -/

def registerManagedGateway (c : Code) (ptr : ℕ) : Code :=
  { c with managedGateways := insert ptr c.managedGateways }

def unregisterManagedGateway (c : Code) (ptr : ℕ) : Code :=
  { c with managedGateways := c.managedGateways.erase ptr }

def isManagedGateway (c : Code) (ptr : ℕ) : Bool := ptr ∈ c.managedGateways

def isChainedGateway (c : Code) (ptr : ℕ) : Bool := (c.chainedGateways ptr).isSome

def setChained (c : Code) (ptr : ℕ) (e : Option ChainedGateway) : Code :=
  { c with chainedGateways := Function.update c.chainedGateways ptr e }

def addGatewayDependent (c : Code) (gateway : ℕ) : Code :=
  let e := (c.chainedGateways gateway).getD ⟨0, none⟩
  c.setChained gateway (some { e with dependents := e.dependents + 1 })

/-- Drops one dependent: whether the owner is still alive, and the orphan to retire. -/
def removeGatewayDependent (c : Code) (gateway : ℕ) : (Bool × Option Region) × Code :=
  match c.chainedGateways gateway with
  | none => ((true, none), c)
  | some e =>
    let alive := e.orphan.isNone
    let left := e.dependents - 1
    if 0 < left then ((alive, none), c.setChained gateway (some { e with dependents := left }))
    else ((alive, e.orphan), c.setChained gateway none)

/-- Hands a dropped hook's trampoline to the hooks chained on it; `false` if there are none. -/
def orphanChainedGateway (c : Code) (gateway : ℕ) (size : ℕ) : Bool × Code :=
  match c.chainedGateways gateway with
  | some e =>
    if 0 < e.dependents then
      (true, c.setChained gateway (some { e with orphan := some ⟨gateway, size⟩ }))
    else (false, c)
  | none => (false, c)

/-! ### Live patches -/

def registerLivePatch (c : Code) (target : ℕ) (len : ℕ) : Code :=
  { c with livePatches := (target, len) :: c.livePatches.filter fun p => p.1 ≠ target }

def unregisterLivePatch (c : Code) (target : ℕ) : Code :=
  { c with livePatches := c.livePatches.filter fun p => p.1 ≠ target }

/-- Number of INT3 slots (`MAX_HOOKS`). -/
def maxHooks : ℕ := 256

/-- An armed INT3 slot lies in the range. -/
def armedInRange (c : Code) (start len : ℕ) : Bool :=
  (List.range maxHooks).any fun i =>
    c.int3.slotTarget i ≠ 0 && start ≤ c.int3.slotTarget i && c.int3.slotTarget i - start < len

def rangesOverlap (a aLen b bLen : ℕ) : Bool := a < b + bLen && b < a + aLen

def overlapsLivePatch (c : Code) (target : ℕ) (len : ℕ) : Bool :=
  c.armedInRange target len || c.livePatches.any fun p => rangesOverlap p.1 p.2 target len

theorem rangesOverlap_eq_false {a aLen b bLen : ℕ} :
    rangesOverlap a aLen b bLen = false ↔ Apart a aLen b bLen := by
  simp only [rangesOverlap, Apart, Bool.and_eq_false_iff, decide_eq_false_iff_not, not_lt]
  exact or_comm

theorem armedInRange_eq_false {c : Code} {start len : ℕ} :
    c.armedInRange start len = false ↔
      ∀ i < maxHooks, c.int3.slotTarget i ≠ 0 → ¬ InRange start len (c.int3.slotTarget i) := by
  simp only [armedInRange, List.any_eq_false, List.mem_range, Bool.and_eq_true, decide_eq_true_eq,
    not_and, InRange]
  refine forall₂_congr fun i _ => ?_
  constructor
  · intro h hz hs
    have := h ⟨hz, hs⟩
    omega
  · rintro h ⟨hz, hs⟩
    have := h hz hs
    omega

/-- Nothing installed patches the range: no armed slot is in it and every live patch is apart. -/
theorem overlapsLivePatch_eq_false {c : Code} {target len : ℕ} :
    c.overlapsLivePatch target len = false ↔
      c.armedInRange target len = false ∧
        ∀ p ∈ c.livePatches, Apart p.1 p.2 target len := by
  simp only [overlapsLivePatch, Bool.or_eq_false_iff, List.any_eq_false, Bool.not_eq_true,
    rangesOverlap_eq_false]

end Code

end NeoHook
