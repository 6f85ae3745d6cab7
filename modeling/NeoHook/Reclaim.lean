import NeoHook.Code
import NeoHook.Quiescence

/-!
# Unwind tables and release passes

The function tables of `unwind.rs` and the three parts of `reclaim`: draining the quarantine,
releasing the regions nothing refers to, and putting the others back.  Between the parts other
threads run: a pass holds the transaction lock, which stops commits but neither `attach` nor the
drop of a hook.
-/

namespace NeoHook

/-- `UNWIND_AREA` on x86_64. -/
def unwindArea : ℕ := 128

namespace Code

/-! ### Function tables -/

/-- The end of `register_codes`: the table of a stub is registered with the OS. -/
def registerTable (c : Code) (base : ℕ) : Code :=
  { c with
    tables := Function.update c.tables base (some true)
    functionTables := insert base c.functionTables
    unwound := c.allocId base :: c.unwound }

/-- `unwind::suspend`: the tables of the given stubs are deleted. -/
def suspendTables (c : Code) (bases : List ℕ) : Code :=
  { c with
    tables := fun b => if b ∈ bases then (c.tables b).map fun _ => false else c.tables b
    functionTables := c.functionTables.filter fun b => ¬ (b ∈ bases ∧ c.tables b = some true) }

/-- `unwind::settle`: the tables of released stubs are forgotten and the others registered again,
as far as the OS accepts them. -/
def settleTables (c : Code) (bases stillBusy : List ℕ) (addOk : ℕ → Bool) : Code :=
  { c with
    tables := fun b =>
      if b ∈ bases then
        if b ∈ stillBusy then (c.tables b).map fun registered => registered || addOk b else none
      else c.tables b
    functionTables := c.functionTables ∪ (bases.filter fun b =>
      b ∈ stillBusy ∧ c.tables b = some false ∧ addOk b).toFinset }

/-! ### A release pass -/

/-- The first part of `reclaim`: the quarantine is drained. -/
def beginPass (c : Code) : Code :=
  if c.pass.isSome ∨ c.quarantine = [] then c
  else
    { c.suspendTables (c.quarantine.map (·.base)) with
      pass := some ⟨c.quarantine, none⟩
      quarantine := [] }

/-- A pass releases some of its regions with `VirtualFree` and keeps the others. -/
def releaseRegions (c : Code) (regions freed busy : List Region) : Code :=
  { c with
    allocs := c.allocs.diff freed
    pass := some ⟨regions, some busy⟩
    freedLog := freed.map (fun r => c.allocId r.base) ++ c.freedLog }

/-- The second part: `free_quiescent_regions` on the drained regions. -/
def freeRegions (c : Code) (w : Snapshot) (os : ThreadOs) : Code :=
  match c.pass with
  | some ⟨regions, none⟩ =>
    let (freed, busy) := freeQuiescentRegions w os regions
    c.releaseRegions regions freed busy
  | _ => c

/-- The last part: the regions that stay go back to the quarantine. -/
def settlePass (c : Code) (addOk : ℕ → Bool) : Code :=
  match c.pass with
  | some ⟨regions, some busy⟩ =>
    { c.settleTables (regions.map (·.base)) (busy.map (·.base)) addOk with
      pass := none
      quarantine := c.quarantine ++ busy }
  | _ => c

end Code

end NeoHook
