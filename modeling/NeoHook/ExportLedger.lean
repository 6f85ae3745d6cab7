import NeoHook.Lib.Bag
import NeoHook.Registry

/-!
# Export hooks and their jump stubs

On x86_64 a detour out of the reach of an export entry is reached through a jump stub.  The address
of the stub may have been handed out while the entry named it, so the stub is never released: it
stays as it is as long as a hook owns the entry and jumps to the original export afterwards.  The
runs of this file use export hooks only.  Every hook whose entry a commit has written is logged with
what its stub held then, also when the commit takes it back.  So is every hook that goes while its
entry cannot be written, or its stub.
-/

namespace NeoHook

open ByteMap

/-! ### Stub memory -/

/-- The opcode of a jump stub; the destination follows. -/
def stubOpcode : List UInt8 := [0xFF, 0x25, 0, 0, 0, 0]

/-- The regions are allocated, each once and apart from what waits for its release, and hold jump
stubs. -/
structure StubsKept (c : Code) (kept : Multiset Region) : Prop where
  apart : c.allocs.Pairwise Region.Apart
  allocated : ∀ r ∈ c.allocs, r.base ≠ 0 ∧ 0 < r.size
  owned : kept + ↑c.retired ≤ (↑c.allocs : Multiset Region)
  size : ∀ r ∈ kept, r.size = managedGatewayLen
  opcode : ∀ r ∈ kept, read c.mem r.base 6 = stubOpcode

namespace StubsKept

variable {c c' : Code} {kept : Multiset Region} {r r' : Region}

theorem mem_allocs (inv : StubsKept c kept) (mem : r ∈ kept) : r ∈ c.allocs :=
  Multiset.mem_coe.1 (Multiset.mem_of_le inv.owned (Multiset.mem_add.2 (.inl mem)))

theorem apart_of_ne (inv : StubsKept c kept) (mem : r ∈ c.allocs) (mem' : r' ∈ c.allocs)
    (ne : r ≠ r') : r.Apart r' :=
  haveI : Std.Symm Region.Apart := ⟨fun _ _ h => h.symm⟩
  inv.apart.forall mem mem' ne

theorem nodup (inv : StubsKept c kept) : (kept + ↑c.retired).Nodup := by
  refine Multiset.nodup_of_le inv.owned (Multiset.coe_nodup.2 ?_)
  refine inv.apart.imp_of_mem fun mem mem' apart eq => ?_
  exact apart.base_ne (inv.allocated _ mem).2 (inv.allocated _ mem').2 (congrArg Region.base eq)

theorem not_retired (inv : StubsKept c kept) (mem : r ∈ kept) : r ∉ c.retired := fun retired =>
  Multiset.disjoint_left.1 (Multiset.nodup_add.1 inv.nodup).2.2 mem (Multiset.mem_coe.2 retired)

/-- A stub lies in its pages. -/
theorem stub_le_mapped (inv : StubsKept c kept) (mem : r ∈ kept) : managedGatewayLen ≤ r.mapped :=
  (inv.size r mem).symm.trans_le r.size_le_mapped

/-- Memory that differs in the pages of one region only. -/
theorem read_of_outside {m : ℕ → UInt8} {m' : ℕ → UInt8} (apart : r.Apart r')
    (outside : ∀ x, ¬ r'.Covers x → m' x = m x) {n : ℕ} (le : n ≤ r.mapped) :
    read m' r.base n = read m r.base n := by
  refine read_congr fun x inside => outside x ?_
  exact apart.notMem (inRange_of_sub le_rfl (by omega) inside)

/-- Only the waiting regions change. -/
theorem of_same (inv : StubsKept c kept) (mem : c'.mem = c.mem) (allocs : c'.allocs = c.allocs)
    (retired : c'.retired.Perm c.retired) : StubsKept c' kept where
  apart := allocs ▸ inv.apart
  allocated := allocs ▸ inv.allocated
  owned := by
    rw [allocs, Multiset.coe_eq_coe.2 retired]
    exact inv.owned
  size := inv.size
  opcode := mem ▸ inv.opcode

/-- A new stub. -/
theorem allocate {foreign : List Region} (inv : StubsKept c kept) (free : c.Free foreign r)
    (size : r.size = managedGatewayLen) (detour : ℕ) :
    StubsKept ((c.allocate r).store r.base (managedGatewayStub detour) none) (r ::ₘ kept) ∧
      ∀ r' ∈ kept, read ((c.allocate r).store r.base (managedGatewayStub detour) none).mem r'.base
        managedGatewayLen = read c.mem r'.base managedGatewayLen := by
  obtain ⟨base, pos, -, apart, -⟩ := free
  have fits : (managedGatewayStub detour).length ≤ r.mapped := by
    have le := r.size_le_mapped
    rw [size] at le
    exact le
  have outside : ∀ x, ¬ r.Covers x →
      ((c.allocate r).store r.base (managedGatewayStub detour) none).mem x = c.mem x := by
    intro x away
    rw [Code.store_mem_of_notMem fun inside => away (inRange_of_sub le_rfl (by omega) inside),
      Code.allocate_mem_of_notMem away]
  have same : ∀ r' ∈ kept, ∀ n ≤ r'.mapped,
      read ((c.allocate r).store r.base (managedGatewayStub detour) none).mem r'.base n =
        read c.mem r'.base n := fun r' mem n le =>
    read_of_outside (apart r' (inv.mem_allocs mem)).symm outside le
  refine ⟨⟨List.pairwise_cons.2 ⟨apart, inv.apart⟩, ?_, ?_, ?_, ?_⟩, fun r' mem =>
    same r' mem _ (inv.stub_le_mapped mem)⟩
  · rintro r' (_ | ⟨_, mem⟩)
    · exact ⟨base, pos⟩
    · exact inv.allocated r' mem
  · change r ::ₘ kept + ↑c.retired ≤ (r ::ₘ (↑c.allocs : Multiset Region))
    rw [Multiset.cons_add]
    exact Multiset.cons_le_cons r inv.owned
  · intro r' mem
    rcases Multiset.mem_cons.1 mem with rfl | mem
    · exact size
    · exact inv.size r' mem
  · intro r' mem
    rcases Multiset.mem_cons.1 mem with rfl | mem
    · rw [← take_read _ _ (show 6 ≤ managedGatewayLen by decide)]
      have whole := read_write_same (c.allocate r').mem r'.base (managedGatewayStub detour)
      exact congrArg (List.take 6) whole
    · have le := inv.stub_le_mapped mem
      rw [same r' mem 6 ((show 6 ≤ managedGatewayLen by decide).trans le)]
      exact inv.opcode r' mem

/-- A stub that no entry has named is dropped. -/
theorem discard {t : Trampoline} (inv : StubsKept c (t.region ::ₘ kept)) :
    StubsKept (c.dropTrampoline t) kept ∧ (c.dropTrampoline t).mem = c.mem := by
  obtain ⟨base, pos⟩ := inv.allocated _ (inv.mem_allocs (Multiset.mem_cons_self _ _))
  have eq : c.dropTrampoline t = c.retire t.region := if_neg base
  have retire : c.retire t.region = { c with
      quarantine := c.quarantine ++ [t.region]
      retiredLog := c.allocId t.region.base :: c.retiredLog } :=
    if_neg (not_or.2 ⟨base, pos.ne'⟩)
  rw [eq, retire]
  refine ⟨⟨inv.apart, inv.allocated, ?_, fun r mem => inv.size r (Multiset.mem_cons_of_mem mem),
    fun r mem => inv.opcode r (Multiset.mem_cons_of_mem mem)⟩, rfl⟩
  refine le_of_eq_of_le ?_ inv.owned
  change kept + ↑((c.quarantine ++ [t.region]) ++ c.passRegions) =
    t.region ::ₘ kept + ↑(c.quarantine ++ c.passRegions)
  simp only [← Multiset.coe_add, Multiset.coe_singleton, ← Multiset.singleton_add]
  abel

/-- A stub gets another destination. -/
theorem retarget (inv : StubsKept c kept) (mem : r ∈ kept) (dst : ℕ) :
    StubsKept (c.store (r.base + 6) (leBytes 8 dst) none) kept ∧
      read (c.store (r.base + 6) (leBytes 8 dst) none).mem r.base managedGatewayLen =
        managedGatewayStub dst ∧
      ∀ r' ∈ kept, r' ≠ r →
        read (c.store (r.base + 6) (leBytes 8 dst) none).mem r'.base managedGatewayLen =
          read c.mem r'.base managedGatewayLen := by
  have le := inv.stub_le_mapped mem
  have outside : ∀ x, ¬ r.Covers x →
      (c.store (r.base + 6) (leBytes 8 dst) none).mem x = c.mem x := by
    intro x away
    refine Code.store_mem_of_notMem fun inside => away ?_
    refine inRange_of_sub (by omega) ?_ inside
    rw [length_leBytes]
    unfold managedGatewayLen at le
    omega
  have others : ∀ r' ∈ kept, r' ≠ r → ∀ n ≤ r'.mapped,
      read (c.store (r.base + 6) (leBytes 8 dst) none).mem r'.base n = read c.mem r'.base n :=
    fun r' mem' ne n le => read_of_outside
      (inv.apart_of_ne (inv.mem_allocs mem') (inv.mem_allocs mem) ne) outside le
  have opcode : read (c.store (r.base + 6) (leBytes 8 dst) none).mem r.base 6 = stubOpcode := by
    rw [← inv.opcode r mem]
    exact read_write_apart (Or.inr le_rfl)
  refine ⟨⟨inv.apart, inv.allocated, inv.owned, inv.size, fun r' mem' => ?_⟩, ?_,
    fun r' mem' ne => others r' mem' ne _ (inv.stub_le_mapped mem')⟩
  · by_cases eq : r' = r
    · exact eq ▸ opcode
    · rw [others r' mem' eq 6 ((show 6 ≤ managedGatewayLen by decide).trans
        (inv.stub_le_mapped mem'))]
      exact inv.opcode r' mem'
  · have split := read_append (c.store (r.base + 6) (leBytes 8 dst) none).mem r.base 6 8
    have operand := read_write_same c.mem (r.base + 6) (leBytes 8 dst)
    rw [length_leBytes] at operand
    change read _ r.base (6 + 8) = _
    rw [split, opcode]
    exact congrArg (stubOpcode ++ ·) operand

theorem beginPass (inv : StubsKept c kept) :
    StubsKept c.beginPass kept ∧ c.beginPass.mem = c.mem := by
  unfold Code.beginPass
  split_ifs with idle
  · exact ⟨inv, rfl⟩
  · have none : c.pass = none := by simpa using (not_or.1 idle).1
    refine ⟨inv.of_same rfl rfl ?_, rfl⟩
    change ([] ++ c.quarantine).Perm (c.quarantine ++ c.passRegions)
    rw [Code.passRegions, none, List.append_nil]
    exact .refl _

theorem freeRegions (inv : StubsKept c kept) (w : Snapshot) (os : ThreadOs) :
    StubsKept (c.freeRegions w os) kept ∧ (c.freeRegions w os).mem = c.mem := by
  unfold Code.freeRegions
  split
  · next regions pass =>
    have perm : ((freeQuiescentRegions w os regions).1 ++
        (freeQuiescentRegions w os regions).2).Perm regions := freeQuiescentRegions_perm
    revert perm
    generalize freeQuiescentRegions w os regions = outcome
    obtain ⟨freed, busy⟩ := outcome
    intro perm
    have before : (↑c.retired : Multiset Region) = ↑c.quarantine + (↑freed + ↑busy) := by
      rw [Code.retired, Code.passRegions, pass, ← Multiset.coe_add, Multiset.coe_add freed,
        Multiset.coe_eq_coe.2 perm]
    have sub : c.allocs.diff freed ⊆ c.allocs := List.diff_subset _ _
    refine ⟨⟨inv.apart.sublist (List.diff_sublist _ _), fun r mem => inv.allocated r (sub mem), ?_,
      inv.size, inv.opcode⟩, rfl⟩
    have le := inv.owned
    rw [before] at le
    change kept + ↑(c.quarantine ++ busy) ≤ (↑(c.allocs.diff freed) : Multiset Region)
    rw [← Multiset.coe_sub, ← Multiset.coe_add]
    refine le_tsub_of_add_le_right (le_of_eq_of_le ?_ le)
    abel
  · exact ⟨inv, rfl⟩

theorem settlePass (inv : StubsKept c kept) (addOk : ℕ → Bool) :
    StubsKept (c.settlePass addOk) kept ∧ (c.settlePass addOk).mem = c.mem := by
  unfold Code.settlePass
  split
  · next regions busy pass =>
    refine ⟨inv.of_same rfl rfl ?_, rfl⟩
    change ((c.quarantine ++ busy) ++ []).Perm (c.quarantine ++ c.passRegions)
    rw [Code.passRegions, pass, List.append_nil]
  · exact ⟨inv, rfl⟩

end StubsKept

/-! ### The ledger -/

/-- The hook as it was when it was installed. -/
def EatHook.asInstalled (h : EatHook) : EatHook :=
  { h with claimed := true, active := true, enabled := true }

/-- What the stub of a hook holds. -/
def EatHook.stubBytes (c : Code) (h : EatHook) : List UInt8 :=
  match h.stub with
  | none => []
  | some t => read c.mem t.ptr managedGatewayLen

/-- The hooks whose entry was written, each with what its stub held then; the hooks that went while
their entry could not be written and those whose stub could not be, as they were when they went. -/
structure StubLog where
  written : List (EatHook × List UInt8)
  stranded : List EatHook
  refused : List EatHook

namespace StubLog

def hooks (log : StubLog) : List EatHook := log.written.map (·.1)

/-- Entries are written for the first time. -/
def write (log : StubLog) (c : Code) (hooks : List EatHook) : StubLog :=
  { log with written := log.written ++ hooks.map fun k => (k, k.stubBytes c) }

/-- A hook goes; `ok` and `retargetOk` are whether its entry and then its stub can be written. -/
def leave (log : StubLog) (k : EatHook) (ok retargetOk : Bool) : StubLog :=
  if k.claimed = false then log
  else if ok = false then { log with stranded := k :: log.stranded }
  else if retargetOk = false then { log with refused := k :: log.refused }
  else log

variable {log : StubLog} {k : EatHook} {ok retargetOk : Bool}

@[simp] theorem leave_written : (log.leave k ok retargetOk).written = log.written := by
  unfold leave
  split_ifs <;> rfl

@[simp] theorem leave_hooks : (log.leave k ok retargetOk).hooks = log.hooks :=
  congrArg (List.map Prod.fst) leave_written

@[simp] theorem leave_true_stranded : (log.leave k true retargetOk).stranded = log.stranded := by
  unfold leave
  split_ifs <;> first | rfl | contradiction

theorem leave_unclaimed (unclaimed : k.claimed = false) : log.leave k ok retargetOk = log :=
  if_pos unclaimed

theorem leave_false (claimed : k.claimed = true) :
    log.leave k false retargetOk = { log with stranded := k :: log.stranded } := by
  rw [leave, if_neg (by rw [claimed]; decide), if_pos rfl]

theorem refused_subset_leave : log.refused ⊆ (log.leave k ok retargetOk).refused := by
  unfold leave
  split_ifs
  · exact List.Subset.refl _
  · exact List.Subset.refl _
  · exact List.subset_cons_self _ _
  · exact List.Subset.refl _

theorem mem_leave_refused (claimed : k.claimed = true) : k ∈ (log.leave k true false).refused := by
  rw [leave, if_neg (by rw [claimed]; decide), if_neg (by decide), if_pos rfl]
  exact List.mem_cons_self

@[simp] theorem write_nil {c : Code} : log.write c [] = log := by
  rw [write, List.map_nil, List.append_nil]

theorem write_append {c : Code} {l l' : List EatHook} :
    log.write c (l ++ l') = (log.write c l).write c l' := by
  rw [write, List.map_append, ← List.append_assoc]
  rfl

theorem write_hooks {c : Code} {l : List EatHook} : (log.write c l).hooks = log.hooks ++ l := by
  rw [hooks, write, List.map_append, List.map_map]
  exact congrArg (log.hooks ++ ·) (List.map_id l)

end StubLog

/-- Code and tables with the export hooks that exist, the stubs no entry has named yet and the log. -/
structure StubLedger where
  code : Code
  tables : Tables
  live : Multiset EatHook
  spare : Multiset Region
  log : StubLog

/-- The stubs of a list of hooks. -/
def stubRegions (hooks : List EatHook) : Multiset Region :=
  ↑(hooks.filterMap fun h => h.stub.map Trampoline.region)

namespace StubLedger

variable (w₀ : ℕ → ℕ)

/-- A hook that exists still owns the entry. -/
def Owned (v : StubLedger) (h : EatHook) : Prop :=
  ∃ k ∈ v.live, k.claimed = true ∧ k.asInstalled = h

/-- The entry stays claimed and no hook owns it. -/
def Stranded (v : StubLedger) (h : EatHook) : Prop :=
  h.slotPtr ∈ v.tables.tableSlots ∧ ∀ k ∈ v.live, k.claimed = true → k.slotPtr ≠ h.slotPtr

def Holds (v : StubLedger) (t : Trampoline) (bytes : List UInt8) : Prop :=
  read v.code.mem t.ptr managedGatewayLen = bytes

/-- The stub jumps to the original export. -/
def Retargeted (v : StubLedger) (h : EatHook) (t : Trampoline) : Prop :=
  v.Holds t (managedGatewayStub h.originalPtr)

/-- What a stub whose entry was written holds: what it held then, as long as its hook has not gone or
when it could not be retargeted as it went, and a jump to the original export otherwise. -/
def Followed (v : StubLedger) (e : EatHook × List UInt8) (t : Trampoline) : Prop :=
  (v.Retargeted e.1 t ∧ ¬ v.Owned e.1 ∧ e.1 ∉ v.log.stranded.map EatHook.asInstalled) ∨
    v.Holds t e.2 ∧ (v.Owned e.1 ∨ e.1 ∈ v.log.stranded.map EatHook.asInstalled ∨
      e.1 ∈ v.log.refused.map EatHook.asInstalled)

/-- What holds between the steps of a run; `w₀` are the entries at its start. -/
structure Inv (v : StubLedger) : Prop where
  stubs : StubsKept v.code (stubRegions v.log.hooks + v.spare)
  claimed : ∀ k ∈ v.live, k.claimed = true →
    k.active = true ∧ k.slotPtr ≠ 0 ∧ k.slotPtr ∈ v.tables.tableSlots ∧ k.asInstalled ∈ v.log.hooks ∧
      v.tables.words k.slotPtr = if k.enabled then k.detourRva else k.originalRva
  unclaimed : ∀ k ∈ v.live, k.claimed = false → k.active = false ∧ k.enabled = false
  distinct : v.live.Pairwise fun a b => a.claimed = true → b.claimed = true → a.slotPtr ≠ b.slotPtr
  original : ∀ h ∈ v.log.hooks, h.originalRva = w₀ h.slotPtr ∧
    h.originalPtr = (h.module + h.originalRva) % 2 ^ 64
  entries : ∀ a, v.tables.words a = w₀ a ∨
    (∃ k ∈ v.live, k.claimed = true ∧ k.enabled = true ∧ k.slotPtr = a) ∨
    ∃ h ∈ v.log.stranded, h.enabled = true ∧ h.slotPtr = a
  stranded : ∀ h ∈ v.log.stranded, h.asInstalled ∈ v.log.hooks ∧ v.Stranded h ∧
    v.tables.words h.slotPtr = if h.enabled then h.detourRva else h.originalRva
  followed : ∀ e ∈ v.log.written, ∀ t, e.1.stub = some t → v.Followed e t

/-! ### Moves of the ledger -/

variable {w₀} {v v' : StubLedger}

instance : Std.Symm fun a b : EatHook =>
    a.claimed = true → b.claimed = true → a.slotPtr ≠ b.slotPtr :=
  ⟨fun _ _ h hb ha => (h ha hb).symm⟩

theorem mem_stubRegions {hooks : List EatHook} {h : EatHook} {t : Trampoline} (mem : h ∈ hooks)
    (stub : h.stub = some t) : t.region ∈ stubRegions hooks :=
  Multiset.mem_coe.2 (List.mem_filterMap.2 ⟨h, mem, by rw [stub, Option.map_some]⟩)

theorem mem_hooks {log : StubLog} {e : EatHook × List UInt8} (mem : e ∈ log.written) :
    e.1 ∈ log.hooks :=
  List.mem_map_of_mem mem

/-- The stub of an entry stays as it is, and its hook has not gone. -/
theorem Followed.keep {e : EatHook × List UInt8} {t : Trampoline} (followed : v.Followed e t)
    (same : read v'.code.mem t.ptr managedGatewayLen = read v.code.mem t.ptr managedGatewayLen)
    (owned : v'.Owned e.1 ↔ v.Owned e.1)
    (stranded : e.1 ∈ v'.log.stranded.map EatHook.asInstalled ↔
      e.1 ∈ v.log.stranded.map EatHook.asInstalled)
    (refused : v.log.refused ⊆ v'.log.refused) : v'.Followed e t := by
  unfold Followed Retargeted Holds
  rw [same, owned, stranded]
  refine followed.imp_right fun ⟨holds, gone⟩ => ⟨holds, gone.imp_right (Or.imp_right ?_)⟩
  exact fun mem => List.map_subset _ refused mem

/-- Code changes, but no stub that an entry has named. -/
theorem Inv.setCode (inv : v.Inv w₀) {c : Code} {spare : Multiset Region}
    (stubs : StubsKept c (stubRegions v.log.hooks + spare))
    (same : ∀ r ∈ stubRegions v.log.hooks,
      read c.mem r.base managedGatewayLen = read v.code.mem r.base managedGatewayLen) :
    Inv w₀ { v with code := c, spare } where
  stubs := stubs
  claimed := inv.claimed
  unclaimed := inv.unclaimed
  distinct := inv.distinct
  original := inv.original
  entries := inv.entries
  stranded := inv.stranded
  followed e mem t stub :=
    (inv.followed e mem t stub).keep (same _ (mem_stubRegions (mem_hooks mem) stub)) Iff.rfl Iff.rfl
      (List.Subset.refl _)

/-- Stubs are told apart by their address. -/
theorem Inv.eq_of_stub (inv : v.Inv w₀) {h h' : EatHook} {t t' : Trampoline}
    (mem : h ∈ v.log.hooks) (mem' : h' ∈ v.log.hooks) (stub : h.stub = some t)
    (stub' : h'.stub = some t') (eq : t.region = t'.region) : h = h' := by
  have nodup : (stubRegions v.log.hooks).Nodup :=
    (Multiset.nodup_add.1 (Multiset.nodup_add.1 inv.stubs.nodup).1).1
  exact Bag.eq_of_nodup_filterMap (Multiset.coe_nodup.1 nodup) mem mem'
    (by rw [stub, Option.map_some]) (by rw [stub', Option.map_some, eq])

/-- An entry that is not claimed holds what it held at the start. -/
theorem Inv.pristine (inv : v.Inv w₀) {a : ℕ} (free : a ∉ v.tables.tableSlots) :
    v.tables.words a = w₀ a := by
  rcases inv.entries a with same | ⟨k, mem, claimed, -, rfl⟩ | ⟨h, mem, -, rfl⟩
  · exact same
  · exact absurd (inv.claimed k mem claimed).2.2.1 free
  · exact absurd (inv.stranded h mem).2.1.1 free

/-- The entry of a hook that owns one is not stranded. -/
theorem Inv.slot_ne_stranded (inv : v.Inv w₀) {k h : EatHook} (live : k ∈ v.live)
    (claimed : k.claimed = true) (mem : h ∈ v.log.stranded) : h.slotPtr ≠ k.slotPtr :=
  ((inv.stranded h mem).2.1.2 k live claimed).symm

theorem Inv.not_stranded (inv : v.Inv w₀) {k : EatHook} (live : k ∈ v.live)
    (claimed : k.claimed = true) : k.asInstalled ∉ v.log.stranded.map EatHook.asInstalled := by
  intro mem
  obtain ⟨h, logged, eq⟩ := List.mem_map.1 mem
  have slots := congrArg EatHook.slotPtr eq
  exact inv.slot_ne_stranded live claimed logged slots

/-- A hook is installed. -/
theorem Inv.install (inv : v.Inv w₀) {k : EatHook} {spare : Multiset Region}
    {t : Tables} (installed : k.asInstalled = k) (nonnull : k.slotPtr ≠ 0)
    (free : k.slotPtr ∉ v.tables.tableSlots) (rva : k.originalRva = v.tables.words k.slotPtr)
    (ptr : k.originalPtr = (k.module + k.originalRva) % 2 ^ 64)
    (reserved : v.spare = stubRegions [k] + spare)
    (words : t.words = Function.update v.tables.words k.slotPtr k.detourRva)
    (slots : t.tableSlots = insert k.slotPtr v.tables.tableSlots) :
    Inv w₀ ⟨v.code, t, k ::ₘ v.live, spare, v.log.write v.code [k]⟩ := by
  have claimed : k.claimed = true := by rw [← installed]; rfl
  have enabled : k.enabled = true := by rw [← installed]; rfl
  have other : ∀ k' ∈ v.live, k'.claimed = true → k'.slotPtr ≠ k.slotPtr :=
    fun k' mem held eq => free (eq ▸ (inv.claimed k' mem held).2.2.1)
  have nodup : (stubRegions v.log.hooks + v.spare).Nodup := (Multiset.nodup_add.1 inv.stubs.nodup).1
  have hooks : (v.log.write v.code [k]).hooks = v.log.hooks ++ [k] := StubLog.write_hooks
  refine ⟨?_, fun k' mem held => ?_, fun k' mem held => ?_, ?_, fun h mem => ?_, fun a => ?_,
    fun h mem => ?_, fun e mem t' stub => ?_⟩
  · have eq : stubRegions (v.log.hooks ++ [k]) + spare = stubRegions v.log.hooks + v.spare := by
      unfold stubRegions at reserved ⊢
      rw [reserved, List.filterMap_append, ← Multiset.coe_add, add_assoc]
    rw [hooks, eq]
    exact inv.stubs
  · rw [hooks]
    rcases Multiset.mem_cons.1 mem with rfl | mem
    · refine ⟨by rw [← installed]; rfl, nonnull, slots ▸ Finset.mem_insert_self _ _, ?_, ?_⟩
      · rw [installed]
        exact List.mem_append_right _ List.mem_cons_self
      · rw [words, Function.update_self, enabled, if_pos rfl]
    · obtain ⟨active, nonnull', slot, logged, word⟩ := inv.claimed k' mem held
      refine ⟨active, nonnull', slots ▸ Finset.mem_insert_of_mem slot,
        List.mem_append_left _ logged, ?_⟩
      rw [words, Function.update_of_ne (other k' mem held), word]
  · rcases Multiset.mem_cons.1 mem with rfl | mem
    · rw [claimed] at held
      cases held
    · exact inv.unclaimed k' mem held
  · exact Bag.pairwise_cons.2 ⟨fun k' mem _ held => (other k' mem held).symm, inv.distinct⟩
  · rw [hooks] at mem
    rcases List.mem_append.1 mem with mem | mem
    · exact inv.original h mem
    · obtain rfl := List.mem_singleton.1 mem
      exact ⟨rva.trans (inv.pristine free), ptr⟩
  · by_cases here : a = k.slotPtr
    · exact .inr (.inl ⟨k, Multiset.mem_cons_self _ _, claimed, enabled, here.symm⟩)
    · have word : t.words a = v.tables.words a := by rw [words, Function.update_of_ne here]
      rcases inv.entries a with same | ⟨k', mem, held⟩ | stranded
      · exact .inl (word.trans same)
      · exact .inr (.inl ⟨k', Multiset.mem_cons_of_mem mem, held⟩)
      · exact .inr (.inr stranded)
  · obtain ⟨logged, ⟨slot, alone⟩, word⟩ := inv.stranded h mem
    have ne : h.slotPtr ≠ k.slotPtr := fun eq => free (eq ▸ slot)
    refine ⟨hooks ▸ List.mem_append_left _ logged, ⟨slots ▸ Finset.mem_insert_of_mem slot, ?_⟩, ?_⟩
    · intro k' mem held
      rcases Multiset.mem_cons.1 mem with rfl | mem
      · exact ne.symm
      · exact alone k' mem held
    · rw [words, Function.update_of_ne ne, word]
  · rcases List.mem_append.1 mem with earlier | now
    · refine (inv.followed e earlier t' stub).keep rfl ⟨?_, ?_⟩ Iff.rfl (List.Subset.refl _)
      · rintro ⟨k', live, held, eq⟩
        rcases Multiset.mem_cons.1 live with rfl | live
        · -- the new stub was in reserve, so the hook is not one of those logged before
          rw [← eq, installed] at stub
          have again : t'.region ∈ v.spare :=
            reserved ▸ Multiset.mem_add.2 (.inl (mem_stubRegions List.mem_cons_self stub))
          have before : t'.region ∈ stubRegions v.log.hooks :=
            mem_stubRegions (mem_hooks earlier) (by rw [← eq, installed]; exact stub)
          exact absurd again (Multiset.disjoint_left.1 (Multiset.nodup_add.1 nodup).2.2 before)
        · exact ⟨k', live, held, eq⟩
      · rintro ⟨k', live, owns⟩
        exact ⟨k', Multiset.mem_cons_of_mem live, owns⟩
    · obtain rfl := List.mem_singleton.1 now
      right
      refine ⟨?_, .inl ⟨k, Multiset.mem_cons_self _ _, claimed, installed⟩⟩
      change _ = k.stubBytes v.code
      rw [EatHook.stubBytes, stub]

/-- A hook is enabled or disabled. -/
theorem Inv.switch (inv : v.Inv w₀) {k : EatHook} {rest : Multiset EatHook}
    (live : v.live = k ::ₘ rest) (claimed : k.claimed = true) (on : Bool) :
    Inv w₀ { v with
      tables := v.tables.setWord k.slotPtr (if on then k.detourRva else k.originalRva)
      live := { k with enabled := on } ::ₘ rest } := by
  have mem_k : k ∈ v.live := live ▸ Multiset.mem_cons_self _ _
  have mem_rest : ∀ {k'}, k' ∈ rest → k' ∈ v.live := fun mem => live ▸ Multiset.mem_cons_of_mem mem
  obtain ⟨active, nonnull, slot, logged, -⟩ := inv.claimed k mem_k claimed
  have distinct := inv.distinct
  rw [live, Bag.pairwise_cons] at distinct
  have other : ∀ k' ∈ rest, k'.claimed = true → k'.slotPtr ≠ k.slotPtr :=
    fun k' mem held => (distinct.1 k' mem claimed held).symm
  refine ⟨inv.stubs, fun k' mem held => ?_, fun k' mem held => ?_, ?_, inv.original, fun a => ?_,
    fun h mem => ?_, fun e mem t' stub => ?_⟩
  · rcases Multiset.mem_cons.1 mem with rfl | mem
    · exact ⟨active, nonnull, slot, logged, Function.update_self ..⟩
    · obtain ⟨active', nonnull', slot', logged', word⟩ := inv.claimed k' (mem_rest mem) held
      refine ⟨active', nonnull', slot', logged', ?_⟩
      exact (Function.update_of_ne (other k' mem held) _ _).trans word
  · rcases Multiset.mem_cons.1 mem with rfl | mem
    · cases claimed.symm.trans held
    · exact inv.unclaimed k' (mem_rest mem) held
  · exact Bag.pairwise_cons.2 ⟨distinct.1, distinct.2⟩
  · by_cases here : a = k.slotPtr
    · cases on with
      | true => exact .inr (.inl ⟨_, Multiset.mem_cons_self _ _, claimed, rfl, here.symm⟩)
      | false =>
        left
        rw [here]
        exact (Function.update_self ..).trans (inv.original _ logged).1
    · have word : (v.tables.setWord k.slotPtr (if on then k.detourRva else k.originalRva)).words a =
          v.tables.words a := Function.update_of_ne here _ _
      rcases inv.entries a with same | ⟨k', mem, held, on', at_⟩ | stranded
      · exact .inl (word.trans same)
      · rw [live] at mem
        rcases Multiset.mem_cons.1 mem with rfl | mem
        · exact absurd at_.symm here
        · exact .inr (.inl ⟨k', Multiset.mem_cons_of_mem mem, held, on', at_⟩)
      · exact .inr (.inr stranded)
  · obtain ⟨logged', ⟨slot', alone⟩, word⟩ := inv.stranded h mem
    refine ⟨logged', ⟨slot', fun k' mem held => ?_⟩, ?_⟩
    · rcases Multiset.mem_cons.1 mem with rfl | mem
      · exact alone k mem_k held
      · exact alone k' (mem_rest mem) held
    · exact (Function.update_of_ne (inv.slot_ne_stranded mem_k claimed mem) _ _).trans word
  · refine (inv.followed e mem t' stub).keep rfl ⟨?_, ?_⟩ Iff.rfl (List.Subset.refl _)
    · rintro ⟨k', mem', held, eq⟩
      rcases Multiset.mem_cons.1 mem' with rfl | mem'
      · exact ⟨k, mem_k, claimed, eq⟩
      · exact ⟨k', mem_rest mem', held, eq⟩
    · rintro ⟨k', mem', held, eq⟩
      rw [live] at mem'
      rcases Multiset.mem_cons.1 mem' with rfl | mem'
      · exact ⟨_, Multiset.mem_cons_self _ _, claimed, eq⟩
      · exact ⟨k', Multiset.mem_cons_of_mem mem', held, eq⟩

/-- `retire_stub` of a logged hook: the other stubs stay as they are. -/
theorem Inv.retireStub (inv : v.Inv w₀) {k : EatHook} (logged : k.asInstalled ∈ v.log.hooks)
    (ok : Bool) :
    let c := v.code.retireStub k.stub k.originalPtr ok
    StubsKept c (stubRegions v.log.hooks + v.spare) ∧
      (∀ t, k.stub = some t → read c.mem t.ptr managedGatewayLen =
        if ok then managedGatewayStub k.originalPtr else read v.code.mem t.ptr managedGatewayLen) ∧
      ∀ h ∈ v.log.hooks, h ≠ k.asInstalled → ∀ t, h.stub = some t →
        read c.mem t.ptr managedGatewayLen = read v.code.mem t.ptr managedGatewayLen := by
  intro c
  cases stub : k.stub with
  | none =>
    have eq : c = v.code := by simp only [c, stub, Code.retireStub]
    rw [eq]
    exact ⟨inv.stubs, (fun t none => by cases none), fun _ _ _ _ _ => rfl⟩
  | some t =>
    cases ok with
    | true =>
      have eq : c = v.code.store (t.region.base + 6) (leBytes 8 k.originalPtr) none := by
        simp only [c, stub, Code.retireStub, if_true]
        rfl
      have mem := mem_stubRegions logged stub
      obtain ⟨stubs, mine, others⟩ :=
        inv.stubs.retarget (Multiset.mem_add.2 (.inl mem)) k.originalPtr
      rw [← eq] at stubs mine others
      refine ⟨stubs, ?_, fun h memH ne t' stub' => ?_⟩
      · rintro _ ⟨⟩
        exact mine
      · refine others t'.region (Multiset.mem_add.2 (.inl (mem_stubRegions memH stub')))
          fun same => ne ?_
        exact inv.eq_of_stub memH logged stub' stub same
    | false =>
      have eq : c = v.code := by simp only [c, stub, Code.retireStub, Bool.false_eq_true, if_false]
      rw [eq]
      exact ⟨inv.stubs, fun _ _ => rfl, fun _ _ _ _ _ => rfl⟩

section

variable {k : EatHook} {rest : Multiset EatHook}

/-- A hook goes: the other hooks own what they owned. -/
theorem owned_rest (live : v.live = k ::ₘ rest) (rest_eq : v'.live = rest) {h : EatHook}
    (ne : h ≠ k.asInstalled) : v'.Owned h ↔ v.Owned h := by
  constructor
  · rintro ⟨k', mem, owns⟩
    rw [rest_eq] at mem
    exact ⟨k', live ▸ Multiset.mem_cons_of_mem mem, owns⟩
  · rintro ⟨k', mem, held, eq⟩
    rw [live] at mem
    rcases Multiset.mem_cons.1 mem with rfl | mem
    · exact absurd eq.symm ne
    · exact ⟨k', rest_eq ▸ mem, held, eq⟩

/-- A logged hook that is there held its stub as it was. -/
theorem Inv.holds_of_live (inv : v.Inv w₀) (mem : k ∈ v.live) (claimed : k.claimed = true)
    {e : EatHook × List UInt8} (logged : e ∈ v.log.written) (eq : e.1 = k.asInstalled)
    {t : Trampoline} (stub : e.1.stub = some t) : v.Holds t e.2 := by
  rcases inv.followed e logged t stub with ⟨-, free, -⟩ | ⟨holds, -⟩
  · exact absurd ⟨k, mem, claimed, eq.symm⟩ free
  · exact holds

/-- A hook gives its entry back. -/
theorem Inv.release (inv : v.Inv w₀) (live : v.live = k ::ₘ rest) (claimed : k.claimed = true)
    {t : Tables} (ok : Bool) (value : t.words k.slotPtr = k.originalRva)
    (words : ∀ a, a ≠ k.slotPtr → t.words a = v.tables.words a)
    (slots : t.tableSlots = v.tables.tableSlots.erase k.slotPtr) :
    Inv w₀ ⟨v.code.retireStub k.stub k.originalPtr ok, t, rest, v.spare, v.log.leave k true ok⟩ := by
  have mem_k : k ∈ v.live := live ▸ Multiset.mem_cons_self _ _
  have mem_rest : ∀ {k'}, k' ∈ rest → k' ∈ v.live := fun mem => live ▸ Multiset.mem_cons_of_mem mem
  obtain ⟨-, -, -, logged, -⟩ := inv.claimed k mem_k claimed
  have distinct := inv.distinct
  rw [live, Bag.pairwise_cons] at distinct
  have other : ∀ k' ∈ rest, k'.claimed = true → k'.slotPtr ≠ k.slotPtr :=
    fun k' mem held => (distinct.1 k' mem claimed held).symm
  obtain ⟨stubs, mine, others⟩ := inv.retireStub logged ok
  refine ⟨?_, fun k' mem held => ?_, fun k' mem held => inv.unclaimed k' (mem_rest mem) held,
    distinct.2, fun h mem => inv.original h (by simpa using mem), fun a => ?_, fun h mem => ?_,
    fun e mem t' stub => ?_⟩
  · rw [StubLog.leave_hooks]
    exact stubs
  · obtain ⟨active', nonnull', slot', logged', word⟩ := inv.claimed k' (mem_rest mem) held
    have ne := other k' mem held
    exact ⟨active', nonnull', slots ▸ Finset.mem_erase.2 ⟨ne, slot'⟩, by simpa using logged',
      (words _ ne).trans word⟩
  · rw [StubLog.leave_true_stranded]
    by_cases here : a = k.slotPtr
    · left
      rw [here]
      exact value.trans (inv.original _ logged).1
    · have word := words a here
      rcases inv.entries a with same | ⟨k', mem, held, on', at_⟩ | stranded
      · exact .inl (word.trans same)
      · rw [live] at mem
        rcases Multiset.mem_cons.1 mem with rfl | mem
        · exact absurd at_.symm here
        · exact .inr (.inl ⟨k', mem, held, on', at_⟩)
      · exact .inr (.inr stranded)
  · rw [StubLog.leave_true_stranded] at mem
    obtain ⟨logged', ⟨slot, alone⟩, word⟩ := inv.stranded h mem
    have ne := inv.slot_ne_stranded mem_k claimed mem
    refine ⟨by simpa using logged', ⟨slots ▸ Finset.mem_erase.2 ⟨ne, slot⟩, ?_⟩,
      (words _ ne).trans word⟩
    exact fun k' mem held => alone k' (mem_rest mem) held
  · rw [StubLog.leave_written] at mem
    by_cases here : e.1 = k.asInstalled
    · have held := inv.holds_of_live mem_k claimed mem here stub
      have stub_k : k.stub = some t' := by rw [← stub, here]; rfl
      have now := mine t' stub_k
      cases ok with
      | true =>
        left
        refine ⟨?_, ?_, ?_⟩
        · rw [here]
          exact now
        · rintro ⟨k', mem', held', eq⟩
          have slots := congrArg EatHook.slotPtr (eq.trans here)
          exact other k' mem' held' slots
        · rw [StubLog.leave_true_stranded, here]
          exact inv.not_stranded mem_k claimed
      | false =>
        right
        refine ⟨now.trans held, .inr (.inr ?_)⟩
        rw [here]
        exact List.mem_map_of_mem (StubLog.mem_leave_refused claimed)
    · refine (inv.followed e mem t' stub).keep (others e.1 (mem_hooks mem) here t' stub)
        (owned_rest live rfl here) ?_ StubLog.refused_subset_leave
      rw [StubLog.leave_true_stranded]

/-- A hook is dropped whose entry cannot be written. -/
theorem Inv.strand (inv : v.Inv w₀) (live : v.live = k ::ₘ rest) (claimed : k.claimed = true)
    (retargetOk : Bool) :
    Inv w₀ { v with live := rest, log := v.log.leave k false retargetOk } := by
  have mem_k : k ∈ v.live := live ▸ Multiset.mem_cons_self _ _
  have mem_rest : ∀ {k'}, k' ∈ rest → k' ∈ v.live := fun mem => live ▸ Multiset.mem_cons_of_mem mem
  obtain ⟨-, -, slot, logged, word⟩ := inv.claimed k mem_k claimed
  have distinct := inv.distinct
  rw [live, Bag.pairwise_cons] at distinct
  rw [StubLog.leave_false claimed]
  refine ⟨inv.stubs, fun k' mem held => inv.claimed k' (mem_rest mem) held,
    fun k' mem held => inv.unclaimed k' (mem_rest mem) held, distinct.2, inv.original,
    fun a => ?_, fun h mem => ?_, fun e mem t' stub => ?_⟩
  · rcases inv.entries a with same | ⟨k', mem, held, on', at_⟩ | ⟨h, mem, on', at_⟩
    · exact .inl same
    · rw [live] at mem
      rcases Multiset.mem_cons.1 mem with rfl | mem
      · exact .inr (.inr ⟨k', List.mem_cons_self, on', at_⟩)
      · exact .inr (.inl ⟨k', mem, held, on', at_⟩)
    · exact .inr (.inr ⟨h, List.mem_cons_of_mem _ mem, on', at_⟩)
  · rcases List.mem_cons.1 mem with rfl | mem
    · exact ⟨logged, ⟨slot, fun k' mem held => (distinct.1 k' mem claimed held).symm⟩, word⟩
    · obtain ⟨logged', ⟨slot', alone⟩, word'⟩ := inv.stranded h mem
      exact ⟨logged', ⟨slot', fun k' mem held => alone k' (mem_rest mem) held⟩, word'⟩
  · by_cases here : e.1 = k.asInstalled
    · right
      refine ⟨inv.holds_of_live mem_k claimed mem here stub, .inr (.inl ?_)⟩
      rw [here]
      exact List.mem_cons_self
    · refine (inv.followed e mem t' stub).keep rfl (owned_rest live rfl here) ?_
        (List.Subset.refl _)
      rw [List.map_cons, List.mem_cons, or_iff_right here]

end

/-- A hook without a claim does not count. -/
theorem inv_cons_unclaimed {k : EatHook} {rest : Multiset EatHook} (unclaimed : k.claimed = false) :
    Inv w₀ { v with live := k ::ₘ rest } ↔
      (k.active = false ∧ k.enabled = false) ∧ Inv w₀ { v with live := rest } := by
  have held_iff : ∀ {P : EatHook → Prop}, (∃ k' ∈ k ::ₘ rest, k'.claimed = true ∧ P k') ↔
      ∃ k' ∈ rest, k'.claimed = true ∧ P k' := by
    intro P
    constructor
    · rintro ⟨k', mem, held, prop⟩
      rcases Multiset.mem_cons.1 mem with rfl | mem
      · cases unclaimed.symm.trans held
      · exact ⟨k', mem, held, prop⟩
    · rintro ⟨k', mem, held, prop⟩
      exact ⟨k', Multiset.mem_cons_of_mem mem, held, prop⟩
  have all_iff : ∀ {P : EatHook → Prop}, (∀ k' ∈ k ::ₘ rest, k'.claimed = true → P k') ↔
      ∀ k' ∈ rest, k'.claimed = true → P k' := by
    intro P
    rw [Multiset.forall_mem_cons]
    exact and_iff_right fun held => nomatch unclaimed.symm.trans held
  have stranded_iff : ∀ {h}, Stranded { v with live := k ::ₘ rest } h ↔
      Stranded { v with live := rest } h := and_congr_right fun _ => all_iff
  constructor
  · intro inv
    refine ⟨inv.unclaimed k (Multiset.mem_cons_self _ _) unclaimed, inv.stubs,
      all_iff.1 inv.claimed, fun k' mem => inv.unclaimed k' (Multiset.mem_cons_of_mem mem),
      (Bag.pairwise_cons.1 inv.distinct).2, inv.original, fun a => ?_, fun h mem => ?_,
      fun e mem t stub => ?_⟩
    · exact (inv.entries a).imp_right (Or.imp_left held_iff.1)
    · exact (inv.stranded h mem).imp_right (And.imp_left stranded_iff.1)
    · exact (inv.followed e mem t stub).keep rfl held_iff.symm Iff.rfl (List.Subset.refl _)
  · rintro ⟨inert, inv⟩
    refine ⟨inv.stubs, all_iff.2 inv.claimed, fun k' mem held => ?_, ?_, inv.original, fun a => ?_,
      fun h mem => ?_, fun e mem t stub => ?_⟩
    · rcases Multiset.mem_cons.1 mem with rfl | mem
      · exact inert
      · exact inv.unclaimed k' mem held
    · exact Bag.pairwise_cons.2
        ⟨(fun _ _ held => nomatch unclaimed.symm.trans held), inv.distinct⟩
    · exact (inv.entries a).imp_right (Or.imp_left held_iff.2)
    · exact (inv.stranded h mem).imp_right (And.imp_left stranded_iff.2)
    · exact (inv.followed e mem t stub).keep rfl held_iff Iff.rfl (List.Subset.refl _)

theorem Inv.inert (inv : v.Inv w₀) {k : EatHook} (unclaimed : k.claimed = false)
    (inactive : k.active = false) (off : k.enabled = false) :
    Inv w₀ { v with live := k ::ₘ v.live } :=
  (inv_cons_unclaimed unclaimed).2 ⟨⟨inactive, off⟩, inv⟩

theorem Inv.forget (inv : v.Inv w₀) {k : EatHook} {rest : Multiset EatHook}
    (live : v.live = k ::ₘ rest) (unclaimed : k.claimed = false) :
    Inv w₀ { v with live := rest } := by
  have eq : v = { v with live := k ::ₘ rest } := by rw [← live]
  rw [eq] at inv
  exact ((inv_cons_unclaimed unclaimed).1 inv).2

/-! ### Operations on a hook -/

section

variable {k : EatHook} {rest : Multiset EatHook} {t : Tables}

theorem writeExportRva_eq (nonnull : k.slotPtr ≠ 0) (rva : ℕ) (ok : Bool) :
    EatHook.writeExportRva t k.slotPtr rva ok =
      if ok then .ok (t.setWord k.slotPtr rva) else .error (.eat .protectFailed) :=
  if_neg nonnull

/-- Switching a hook on or off writes its entry. -/
theorem Inv.write (inv : v.Inv w₀) (live : v.live = k ::ₘ rest)
    (claimed : k.claimed = true) (on : Bool) {ok : Bool} {t : Tables}
    (eq : EatHook.writeExportRva v.tables k.slotPtr (if on then k.detourRva else k.originalRva) ok =
      .ok t) :
    Inv w₀ { v with tables := t, live := { k with enabled := on } ::ₘ rest } := by
  obtain ⟨-, nonnull, -⟩ := inv.claimed k (live ▸ Multiset.mem_cons_self _ _) claimed
  rw [writeExportRva_eq nonnull] at eq
  cases ok with
  | false => cases eq
  | true =>
    obtain rfl := Except.ok.inj eq
    exact inv.switch live claimed on

theorem Inv.claimed_of_enabled (inv : v.Inv w₀) (mem : k ∈ v.live)
    (on : k.enabled = true ∨ k.active = true) : k.claimed = true := by
  by_contra unclaimed
  obtain ⟨inactive, off⟩ := inv.unclaimed k mem (Bool.eq_false_iff.2 unclaimed)
  rcases on with on | on
  · cases off.symm.trans on
  · cases inactive.symm.trans on

theorem Inv.disable (inv : v.Inv w₀) (live : v.live = k ::ₘ rest) {ok : Bool}
    {k' : EatHook} (eq : k.disable v.tables ok = .ok (t, k')) :
    Inv w₀ { v with tables := t, live := k' ::ₘ rest } ∧ k'.enabled = false := by
  unfold EatHook.disable at eq
  by_cases off : k.enabled = false
  · rw [if_pos off] at eq
    obtain ⟨rfl, rfl⟩ := Prod.mk.inj (Except.ok.inj eq)
    exact ⟨live ▸ inv, off⟩
  · rw [if_neg off] at eq
    cases written : EatHook.writeExportRva v.tables k.slotPtr k.originalRva ok with
    | error e => rw [written] at eq; cases eq
    | ok t' =>
      rw [written] at eq
      obtain ⟨rfl, rfl⟩ := Prod.mk.inj (Except.ok.inj eq)
      have claimed := inv.claimed_of_enabled (live ▸ Multiset.mem_cons_self k rest)
        (.inl (Bool.eq_true_of_not_eq_false off))
      exact ⟨inv.write live claimed false written, rfl⟩

theorem Inv.enable (inv : v.Inv w₀) (live : v.live = k ::ₘ rest) {ok : Bool}
    {k' : EatHook} (eq : k.enable v.tables ok = .ok (t, k')) :
    Inv w₀ { v with tables := t, live := k' ::ₘ rest } := by
  unfold EatHook.enable at eq
  split_ifs at eq with inactive on
  · obtain ⟨rfl, rfl⟩ := Prod.mk.inj (Except.ok.inj eq)
    exact live ▸ inv
  · cases written : EatHook.writeExportRva v.tables k.slotPtr k.detourRva ok with
    | error e => rw [written] at eq; cases eq
    | ok t' =>
      rw [written] at eq
      obtain ⟨rfl, rfl⟩ := Prod.mk.inj (Except.ok.inj eq)
      have claimed := inv.claimed_of_enabled (live ▸ Multiset.mem_cons_self k rest)
        (.inr (Bool.eq_true_of_not_eq_false inactive))
      exact inv.write live claimed true written

/-- A removal that writes the original entry. -/
theorem Inv.restore (inv : v.Inv w₀) (live : v.live = k ::ₘ rest) (claimed : k.claimed = true)
    (ok : Bool) :
    Inv w₀ ⟨v.code.retireStub k.stub k.originalPtr ok,
      (v.tables.setWord k.slotPtr k.originalRva).releaseTableSlot k.slotPtr, rest, v.spare,
      v.log.leave k true ok⟩ :=
  inv.release live claimed ok (Function.update_self ..)
    (fun _ ne => Function.update_of_ne ne _ _) rfl

theorem Inv.drop (inv : v.Inv w₀) (live : v.live = k ::ₘ rest) (ok retargetOk : Bool) :
    Inv w₀ ⟨v.code.retireStub (k.drop v.tables ok).2 k.originalPtr retargetOk,
      (k.drop v.tables ok).1, rest, v.spare, v.log.leave k ok retargetOk⟩ := by
  unfold EatHook.drop
  by_cases unclaimed : k.claimed = false
  · rw [if_pos unclaimed, StubLog.leave_unclaimed unclaimed]
    exact inv.forget live unclaimed
  · rw [if_neg unclaimed]
    have claimed := Bool.eq_true_of_not_eq_false unclaimed
    obtain ⟨active, nonnull, -⟩ := inv.claimed k (live ▸ Multiset.mem_cons_self _ _) claimed
    rw [if_neg (by rw [active]; decide), EatHook.performUnhook, writeExportRva_eq nonnull]
    cases ok with
    | true => exact inv.restore live claimed retargetOk
    | false => exact inv.strand live claimed retargetOk

theorem Inv.unhook (inv : v.Inv w₀) (live : v.live = k ::ₘ rest) (ok dropOk retargetOk : Bool) :
    Inv w₀ ⟨v.code.retireStub (k.unhook v.tables ok dropOk).2.2 k.originalPtr retargetOk,
      (k.unhook v.tables ok dropOk).2.1, rest, v.spare, v.log.leave k (ok || dropOk) retargetOk⟩ := by
  unfold EatHook.unhook
  by_cases inactive : k.active = false
  · rw [if_pos inactive]
    by_cases claimed : k.claimed = true
    · have active := (inv.claimed k (live ▸ Multiset.mem_cons_self _ _) claimed).1
      cases inactive.symm.trans active
    · have unclaimed := Bool.eq_false_iff.2 claimed
      rw [EatHook.drop, if_pos unclaimed, StubLog.leave_unclaimed unclaimed]
      exact inv.forget live unclaimed
  · rw [if_neg inactive]
    have claimed := inv.claimed_of_enabled (live ▸ Multiset.mem_cons_self k rest)
      (.inr (Bool.eq_true_of_not_eq_false inactive))
    obtain ⟨-, nonnull, -⟩ := inv.claimed k (live ▸ Multiset.mem_cons_self _ _) claimed
    rw [EatHook.performUnhook, writeExportRva_eq nonnull]
    cases ok with
    | true =>
      rw [if_pos rfl]
      simp only [EatHook.drop, claimed, Bool.true_eq_false, if_false, if_true, Bool.true_or]
      exact inv.restore live claimed retargetOk
    | false => exact inv.drop live dropOk retargetOk

/-- The end of a detach; the hook was disabled when the threads were suspended. -/
theorem Inv.detachFinalize (inv : v.Inv w₀) (live : v.live = k ::ₘ rest)
    (off : k.enabled = false) (ok retargetOk : Bool) :
    Inv w₀ ⟨v.code.retireStub (k.detachFinalize v.tables ok).2.2 k.originalPtr retargetOk,
      (k.detachFinalize v.tables ok).1, (k.detachFinalize v.tables ok).2.1 ::ₘ rest, v.spare,
      v.log.leave k true retargetOk⟩ ∧ (k.detachFinalize v.tables ok).2.1.claimed = false := by
  unfold EatHook.detachFinalize
  rw [EatHook.disable, if_pos off]
  by_cases claimed : k.claimed = true
  · simp only [if_pos claimed]
    obtain ⟨-, -, -, -, word⟩ := inv.claimed k (live ▸ Multiset.mem_cons_self _ _) claimed
    rw [off, if_neg (by decide)] at word
    have released := inv.release live claimed (t := v.tables.releaseTableSlot k.slotPtr) retargetOk
      word (fun _ _ => rfl) rfl
    exact ⟨released.inert rfl rfl rfl, trivial⟩
  · have unclaimed := Bool.eq_false_iff.2 claimed
    simp only [if_neg claimed]
    rw [StubLog.leave_unclaimed unclaimed]
    exact ⟨(inv.forget live unclaimed).inert unclaimed rfl rfl, unclaimed⟩

end

end StubLedger

end NeoHook
