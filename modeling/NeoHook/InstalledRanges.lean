import NeoHook.Relocation
import NeoHook.Runs

/-!
# Installed hooks never overlap

In every run, whatever the calls and whatever the OS answers, the ranges of installed inline hooks
are pairwise disjoint and contain no target of an INT3 hook.
-/

namespace NeoHook

open ByteMap

/-- Rules that allow every move. -/
def Rules.free : Rules where
  birth _ _ := True
  write _ _ _ _ _ := True
  queue _ _ := True
  strand _ := True
  detach _ _ := True
  scar := True
  readd _ := True
  exports := True
  birth_of_idle _ := trivial
  write_of_exports _ _ _ _ _ _ := trivial
  write_sub _ _ _ := trivial

/-- Free rules grant every call. -/
theorem Rules.free_grants (E : Env) (s : State) (op : Op) : Rules.free.Grants E s op := by
  have stub : ∀ {pass ds hs ts at_}, Rules.free.GrantsStub pass ds hs ts at_ :=
    ⟨fun _ _ => trivial, fun _ => trivial⟩
  intro _
  cases op with
  | queue tx r =>
    cases r with
    | attach target detour follow os => exact ⟨stub, fun _ _ _ _ _ _ _ _ _ => trivial,
        fun _ _ _ _ _ _ _ _ => trivial⟩
    | attachIat | attachEat | attachVtable | attachVtableInstance | detach => trivial
  | commit tx ffi os threads =>
    exact fun t _ => ⟨fun _ _ _ _ _ _ _ _ => trivial, fun _ _ _ _ _ _ _ _ => trivial⟩
  | unhook place ok dropOk retargetOk => exact fun _ _ _ _ _ => trivial
  | drop place ok retargetOk => exact fun _ _ _ _ => trivial
  | int3Install target detour gateway os => exact ⟨fun _ => trivial, stub⟩
  | int3Drop hook os => exact fun _ => trivial
  | begin | abort | enable | disable | beginPass | freeRegions | settlePass => trivial

/-- Two hooks patch disjoint ranges. -/
def InlineHook.RangesApart (a b : InlineHook) : Prop :=
  Apart a.target a.stolenLen b.target b.stolenLen

/-- The inline hooks that are installed: not detached, enabled or not. -/
def State.installedHooks (s : State) : Multiset InlineHook := s.hooks.filter fun h => h.active = true

theorem Dis.installed_apart {v : View} (dis : Dis v) : v.installed.Pairwise InlineHook.RangesApart := by
  refine Bag.pairwise_imp_of_mem dis.distinct fun a ha b hb targets => ?_
  have symm : Std.Symm fun p q : ℕ × ℕ => Apart p.1 p.2 q.1 q.2 := ⟨fun _ _ => Apart.symm⟩
  refine dis.patches.forall (dis.registered a ha) (dis.registered b hb) ?_
  intro eq
  exact targets (congrArg Prod.fst eq)

/-- The installed hooks of a state are published hooks of its view. -/
theorem Sim.installedHooks_le {R : Rules} {s : State} {v : View} (sim : Sim R s v) (base : Base v) :
    s.installedHooks ≤ v.installed := by
  have objs : v.objs = s.hooks := by
    rw [sim.sees.objs]
    exact Multiset.add_zero _
  have same : s.installedHooks = publishedOf v.objs := by
    unfold State.installedHooks publishedOf
    rw [← objs]
    refine Multiset.filter_congr fun h mem => ?_
    rw [(base.shapes.objs h mem).2.1]
  rw [same]
  exact Multiset.filter_le_filter _ (Multiset.le_add_right _ _)

/-- Installed inline hooks patch pairwise disjoint ranges with no INT3 target in them. -/
theorem installed_ranges_disjoint {E : Env} {pristine : ℕ → UInt8} {s : State}
    (run : State.Reachable E (fun _ _ => True) pristine s) :
    s.installedHooks.Pairwise InlineHook.RangesApart ∧
      ∀ h ∈ s.installedHooks, ∀ t ∈ s.traps, ¬ InRange h.target h.stolenLen t.target := by
  have grants : ∀ {s op}, True → Rules.free.Grants E s op := fun {s op} _ => Rules.free_grants E s op
  have kept : ∀ {v v'}, Move Rules.free E.foreign v v' → Base v → True → True :=
    fun _ _ _ => trivial
  obtain ⟨v, sim, base, -⟩ := run.sim grants (fun _ => trivial) kept
  have sub := sim.installedHooks_le base
  refine ⟨Bag.pairwise_of_le base.dis.installed_apart sub, fun h mem t trap => ?_⟩
  have trap : t ∈ v.traps := sim.sees.traps ▸ trap
  obtain ⟨slot, target⟩ := base.dis.slots t trap
  have nonnull := (base.shapes.traps t trap).1
  rw [← target] at nonnull ⊢
  exact (base.dis.armed t.slot slot nonnull).1 _ (base.dis.registered h (Multiset.mem_of_le sub mem))

/-! ### A run -/

/-- A commit in which every OS call succeeds. -/
def sampleCommitOs (threads : List ℕ) : CommitOs where
  threads
  query _ := none
  getContext _ _ := true
  setContext _ _ := true
  threadCapacity := 8
  stackCapacity := 8
  cloneAt _ := none
  stubAt _ := none
  patchOk _ := true
  reenableOk _ := true
  restoreOk _ := true
  undoOk _ := true
  dropOk _ := true
  finalizeOk _ := true
  retargetOk _ := true

def sampleThreads : Threads := ⟨fun _ => 0x8000, fun _ => 0x9000, fun _ => 0⟩

def sampleInt3Os : Int3Os := ⟨true, true, true⟩

/-- Runs a list of calls. -/
def State.run (E : Env) (s : State) (ops : List Op) : State := ops.foldl (State.step E) s

theorem State.Reachable.run {E : Env} {allowed : State → Op → Prop} {pristine : ℕ → UInt8}
    {s : State} (reached : Reachable E allowed pristine s) {ops : List Op}
    (meets : ∀ s, ∀ op ∈ ops, allowed s op) : Reachable E allowed pristine (s.run E ops) := by
  induction ops generalizing s with
  | nil => exact reached
  | cons op rest ih =>
    exact ih (.step op reached (meets s op List.mem_cons_self)) fun s op mem =>
      meets s op (List.mem_cons_of_mem _ mem)

/-- An inline hook on the first function and an INT3 hook on the second. -/
def twoHooks : List Op :=
  [.begin, .queue 1 (.attach 0x1000 0x3000 true (sampleAttachOs 0x20000)),
    .commit 1 false (sampleCommitOs []) sampleThreads, .int3Install 0x2000 0x4000 none sampleInt3Os]

/-- Two inline hooks, an INT3 hook that is refused inside the second one's range, and one behind it. -/
def threeHooks : List Op :=
  [.begin, .queue 1 (.attach 0x1000 0x3000 true (sampleAttachOs 0x20000)),
    .queue 1 (.attach 0x2000 0x3000 true (sampleAttachOs 0x21000)),
    .commit 1 false (sampleCommitOs []) sampleThreads, .int3Install 0x2004 0x4000 none sampleInt3Os,
    .int3Install 0x2005 0x4000 none sampleInt3Os]

theorem threeHooks_disjoint :
    let s := (State.initial samplePristine sampleTables).run sampleEnv threeHooks
    s.installedHooks.map (fun h => (h.target, h.stolenLen)) = {(0x1000, 5), (0x2000, 5)} ∧
      s.traps.map (·.target) = {0x2005} ∧ s.installedHooks.Pairwise InlineHook.RangesApart ∧
      ∀ h ∈ s.installedHooks, ∀ t ∈ s.traps, ¬ InRange h.target h.stolenLen t.target := by
  refine ⟨by decide +kernel, by decide +kernel, ?_⟩
  exact installed_ranges_disjoint ((State.Reachable.initial sampleTables).run fun _ _ _ => trivial)

end NeoHook
