import NeoHook.JumpMarks

/-!
# The memory behind a patch

A live hook patches memory that is there to stay: code of the process, or the gateway of another
hook, which is kept until the hook is gone.  This holds in every run in which stub memory is patched
on the gateway path only.
-/

namespace NeoHook

open ByteMap

/-- The address lies in memory that is neither retired nor released. -/
def Code.Housed (foreign : List Region) (c : Code) (x : ℕ) : Prop :=
  (∃ f ∈ foreign, f.Covers x) ∨ ∃ r ∈ c.allocs, r.Covers x ∧ r ∉ c.retired

/-- The hook patches a range inside the region. -/
def InlineHook.Inside (h : InlineHook) (r : Region) : Prop :=
  r.base ≤ h.target ∧ h.target + h.stolenLen ≤ r.base + r.mapped

/-- No live hook patches a retired stub, and each patches memory that is still there. -/
def State.PatchesHoused (foreign : List Region) (s : State) : Prop :=
  ∀ h ∈ s.installedHooks, (∀ r ∈ s.process.code.retired, ¬ h.Inside r) ∧
    s.process.code.Housed foreign h.target

/-! ### Where hooks are placed -/

/-- Stubs are apart from the rest of the process, and every hook but a chained one patches where the
condition holds. -/
structure Sited (foreign : List Region) (site : ℕ → ℕ → Prop) (v : View) : Prop where
  stubs : ∀ r ∈ v.code.allocs, ∀ f ∈ foreign, r.Apart f
  queued : ∀ d ∈ v.pend, d.targetKind = .normal → site d.target d.stolenLen
  hooks : ∀ h ∈ v.keepers, h.targetKind = .normal → site h.target h.stolenLen

namespace Sited

variable {foreign : List Region} {site : ℕ → ℕ → Prop} {v v' : View}

/-- A move that allocates no stub, queues nothing and makes no hook of a new place. -/
theorem of_sub (sited : Sited foreign site v) (allocs : v'.code.allocs ⊆ v.code.allocs)
    (pend : v'.pend ⊆ v.pend)
    (keepers : ∀ h ∈ v'.keepers,
      ∃ h' ∈ v.keepers, h'.targetKind = h.targetKind ∧ h'.target = h.target ∧
        h'.stolenLen = h.stolenLen) :
    Sited foreign site v' := by
  refine ⟨fun r hr => sited.stubs r (allocs hr), fun d hd => sited.queued d (pend hd),
    fun h mem kind => ?_⟩
  obtain ⟨h', mem', same, target, len⟩ := keepers h mem
  rw [← target, ← len]
  apply sited.hooks h' mem'
  rw [same]
  exact kind

/-- A move that leaves stubs, queues and hooks alone. -/
theorem same (sited : Sited foreign site v) (allocs : v'.code.allocs = v.code.allocs)
    (pend : v'.pend ⊆ v.pend) (keepers : v'.keepers ⊆ v.keepers) : Sited foreign site v' := by
  apply sited.of_sub _ pend
  · intro h mem
    exact ⟨h, keepers mem, rfl, rfl, rfl⟩
  · rw [allocs]
    exact List.Subset.refl _

/-- One hook takes other flags. -/
theorem replace (sited : Sited foreign site v) {h h' : InlineHook} {rest : Multiset InlineHook}
    (allocs : v'.code.allocs = v.code.allocs) (pend : v'.pend = v.pend)
    (before : v.keepers = h ::ₘ rest) (after : v'.keepers = h' ::ₘ rest)
    (kind : h.targetKind = h'.targetKind) (target : h.target = h'.target)
    (len : h.stolenLen = h'.stolenLen) : Sited foreign site v' := by
  apply sited.of_sub
  · rw [allocs]
    exact List.Subset.refl _
  · rw [pend]
    exact Multiset.Subset.refl _
  · intro x mem
    rw [after] at mem
    rcases Multiset.mem_cons.1 mem with rfl | mem
    · exact ⟨h, before ▸ Multiset.mem_cons_self _ _, kind, target, len⟩
    · exact ⟨x, before ▸ Multiset.mem_cons_of_mem mem, rfl, rfl, rfl⟩

theorem allocate (sited : Sited foreign site v) {r : Region} (free : v.code.Free foreign r) :
    Sited foreign site { v with code := v.code.allocate r, held := r ::ₘ v.held } := by
  refine ⟨fun r' hr' f hf => ?_, sited.queued, sited.hooks⟩
  rcases List.mem_cons.1 hr' with rfl | hr'
  · exact free.2.2.2.2 f hf
  · exact sited.stubs r' hr' f hf

theorem patch (sited : Sited foreign site v) {d : InlineData} {rest : Multiset InlineData}
    {bytes : List UInt8} {c : Code} (pending : v.pend = d ::ₘ rest)
    (allocs : c.allocs = v.code.allocs) :
    Sited foreign site
      { v with code := c, pend := rest, flight := d.install v.code bytes ::ₘ v.flight } := by
  refine ⟨fun r hr => sited.stubs r (allocs ▸ hr), fun x hx => ?_, fun h mem kind => ?_⟩
  · exact sited.queued x (pending ▸ Multiset.mem_cons_of_mem hx)
  · rw [View.keepers_flight rfl] at mem
    rcases Multiset.mem_cons.1 mem with rfl | mem
    · exact sited.queued d (pending ▸ Multiset.mem_cons_self _ _) kind
    · exact sited.hooks h mem kind

theorem move {R : Rules}
    (placed : ∀ {c d}, R.queue c d → d.targetKind = .normal → site d.target d.stolenLen)
    (m : Move R foreign v v') (sited : Sited foreign site v) :
    Sited foreign site v' := by
  have whole : v.pend ⊆ v.pend := Multiset.Subset.refl _
  have every : v.keepers ⊆ v.keepers := Multiset.Subset.refl _
  cases m with
  | allocate free quiet birth write => exact sited.allocate free
  | fill | unwind | arm | handler | disarm | scar => exact sited.same rfl whole every
  | @queue d rest quiet held queued rule =>
    refine ⟨sited.stubs, fun x hx kind => ?_, sited.hooks⟩
    rcases Multiset.mem_cons.1 hx with rfl | hx
    · exact placed rule kind
    · exact sited.queued x hx kind
  | @discard r rest held =>
    exact sited.same (Code.retire_sameMemory v.code r).allocs whole every
  | @giveUp d rest pending =>
    refine sited.same (Code.dropTrampoline_sameMemory v.code d.trampoline).allocs ?_ every
    intro x hx
    rw [pending]
    exact Multiset.mem_cons_of_mem hx
  | patch pending target encoded clear apart owned => exact sited.patch pending rfl
  | @publish h rest flight =>
    refine @replace _ _ _ _ sited h h.announced _ (publishInline_sameMemory v.code h).allocs rfl
      (View.keepers_flight flight) ?_ rfl rfl rfl
    unfold View.keepers
    rw [Multiset.cons_add]
  | @undo h rest flight =>
    exact sited.replace rfl rfl (View.keepers_flight flight) (View.keepers_flight rfl) rfl rfl rfl
  | @unravel h rest flight off =>
    refine sited.same (InlineHook.dispose_sameMemory v.code h).allocs whole ?_
    intro x mem
    rw [View.keepers_flight flight]
    exact Multiset.mem_cons_of_mem mem
  | @strandFlight h rest flight rule =>
    refine sited.same rfl whole ?_
    intro x mem
    unfold View.keepers at mem ⊢
    rw [Multiset.add_cons] at mem
    rwa [flight, Multiset.cons_add]
  | @restore h rest objs active =>
    exact sited.replace rfl rfl (View.keepers_objs objs) (View.keepers_objs rfl) rfl rfl rfl
  | @enable h rest objs active off =>
    exact sited.replace rfl rfl (View.keepers_objs objs) (View.keepers_objs rfl) rfl rfl rfl
  | @detach h rest objs quiet off rule =>
    exact sited.replace (InlineHook.release_sameMemory v.code h).allocs rfl
      (View.keepers_objs objs) (View.keepers_objs rfl) rfl rfl rfl
  | @remove h rest objs quiet off =>
    have memory := (InlineHook.release_sameMemory v.code h).trans
      (InlineHook.dispose_sameMemory _ h)
    refine sited.same memory.allocs whole ?_
    intro x mem
    rw [View.keepers_objs objs]
    exact Multiset.mem_cons_of_mem mem
  | @strand h rest objs active rule =>
    refine sited.same rfl whole ?_
    intro x mem
    unfold View.keepers at mem ⊢
    rw [Multiset.add_cons, Multiset.add_cons] at mem
    rwa [objs, Multiset.cons_add]
  | beginPass =>
    refine sited.same ?_ whole every
    unfold Code.beginPass
    split_ifs <;> rfl
  | freeRegions pass split =>
    exact sited.of_sub (List.diff_subset _ _) whole fun h mem =>
      ⟨h, mem, rfl, rfl, rfl⟩
  | settlePass rule =>
    refine sited.same ?_ whole every
    unfold Code.settlePass
    split <;> rfl

end Sited

/-! ### Chained hooks -/

/-- How often a region is the stub of a hook or of a hook that was dropped while others are chained
on it. -/
def View.keeps (v : View) (r : Region) : ℕ :=
  (v.objs.map (·.trampoline.region)).count r + (v.stranded.map (·.trampoline.region)).count r +
    if v.code.orphanAt r.base = some r then 1 else 0

/-- Such a region is neither under construction nor retired. -/
theorem Own.keeps_alone {v : View} (own : Own v) {r : Region} (kept : 0 < v.keeps r) :
    r ∈ v.code.allocs ∧ r ∉ v.held ∧ r ∉ v.code.retired := by
  have once := own.owners_le_one r
  unfold View.keeps at kept
  unfold View.owners Code.parked at once
  refine ⟨own.mem_allocs ?_, fun mem => ?_, fun mem => ?_⟩
  · unfold View.owners Code.parked
    omega
  · have := Multiset.count_pos.2 mem
    omega
  · have := List.count_pos_iff.2 mem
    omega

theorem View.Kept.home {v : View} {g : ℕ} (kept : v.Kept g) : ∃ r, r.base = g ∧ 0 < v.keeps r := by
  obtain ⟨o, mem, ptr⟩ := kept
  refine ⟨o.trampoline.region, ptr, ?_⟩
  unfold View.keeps
  have count : ∀ {s : Multiset InlineHook}, o ∈ s →
      0 < (s.map (·.trampoline.region)).count o.trampoline.region := fun mem =>
    Multiset.count_pos.2 (Multiset.mem_map_of_mem (·.trampoline.region) mem)
  rcases Multiset.mem_add.1 mem with mem | mem
  · have := count mem
    omega
  · have := count mem
    omega

/-- The gateway a published hook is chained on is kept. -/
theorem Base.chained_home {v : View} (base : Base v) {h : InlineHook} (published : h ∈ v.installed)
    (kind : h.targetKind = .managedGateway) : ∃ r, r.base = h.target ∧ 0 < v.keeps r := by
  have depends : 0 < v.dependents h.target :=
    Multiset.countP_pos.2 ⟨h, published, kind, rfl⟩
  cases chained : v.code.chainedGateways h.target with
  | none =>
    have := base.gate.free chained
    omega
  | some e =>
    cases orphan : e.orphan with
    | none => exact (base.gate.owner chained orphan).home
    | some r =>
      have parked : v.code.orphanAt h.target = some r := by
        unfold Code.orphanAt
        rw [chained]
        exact orphan
      have home := (base.own.orphans parked).1
      refine ⟨r, home, ?_⟩
      unfold View.keeps
      rw [home, if_pos parked]
      omega

/-- A published hook patches memory that is still there and in no retired stub. -/
theorem Base.housed {foreign : List Region} {v : View} (base : Base v)
    (sited : Sited foreign (fun a _ => ∃ f ∈ foreign, f.Covers a) v)
    {h : InlineHook} (published : h ∈ v.installed) :
    (∀ r ∈ v.code.retired, ¬ h.Inside r) ∧ v.code.Housed foreign h.target := by
  obtain ⟨mem, -⟩ := mem_publishedOf.1 published
  have keeper : h ∈ v.keepers := by
    rcases Multiset.mem_add.1 mem with mem | mem
    · exact View.mem_keepers.2 (.inl mem)
    · exact View.mem_keepers.2 (.inr (.inr mem))
  have shaped : h.Shaped := by
    rcases Multiset.mem_add.1 mem with mem | mem
    · exact (base.shapes.objs h mem).1
    · exact (base.shapes.stranded h mem).1
  have first : ∀ {r : Region}, h.Inside r → r.Covers h.target := by
    intro r inside
    have := shaped.stolenLen_pos
    exact ⟨inside.1, by have := inside.2; omega⟩
  cases kind : h.targetKind with
  | normal =>
    obtain ⟨f, own, covered⟩ := sited.hooks h keeper kind
    refine ⟨fun r waiting inside => ?_, .inl ⟨f, own, covered⟩⟩
    have apart := sited.stubs r (base.own.retired_mem waiting) f own
    exact ByteMap.Apart.notMem apart (first inside) covered
  | managedGateway =>
    obtain ⟨r, home, keeps⟩ := base.chained_home published kind
    obtain ⟨there, -, kept⟩ := base.own.keeps_alone keeps
    have size := (base.own.real r there).2
    have covered : r.Covers h.target := by
      have := Region.size_le_mapped r
      rw [← home]
      exact ⟨le_rfl, by omega⟩
    refine ⟨fun r' waiting inside => ?_, .inr ⟨r, there, covered, kept⟩⟩
    have other : r ≠ r' := by
      rintro rfl
      exact kept waiting
    have symm : Std.Symm Region.Apart := ⟨fun _ _ h => h.symm⟩
    have apart := base.own.apart.forall there (base.own.retired_mem waiting) other
    exact ByteMap.Apart.notMem apart covered (first inside)

/-! ### Runs -/

/-- Rules under which only chained hooks patch stubs. -/
def Rules.homed (foreign : List Region) : Rules where
  birth _ _ := True
  write _ _ _ _ _ := True
  queue _ d := d.targetKind = .normal → ∃ f ∈ foreign, f.Covers d.target
  strand _ := True
  detach _ _ := True
  scar := True
  readd _ := True
  exports := True
  birth_of_idle _ := trivial
  write_of_exports _ _ _ _ _ _ := trivial
  write_sub _ _ _ := trivial

/-- An attach that is not refused takes the gateway path, or what it can read is memory of the process
or a stub, and what it patches is no stub. -/
def Op.PatchesOwn (E : Env) (s : State) (op : Op) : Prop :=
  op.Acts E s → match op with
    | .queue _ (.attach target _ follow os) => takesGatewayPath s.process.code target follow = false →
      os.Maps E.foreign s.process.code ∧
        ∀ r ∈ s.process.code.allocs, ¬ r.Covers (resolveTarget s.process.code target follow os)
    | _ => True

theorem Op.PatchesOwn.grants {E : Env} {s : State} {op : Op} (own : op.PatchesOwn E s) :
    (Rules.homed E.foreign).Grants E s op := by
  intro acts
  have meets := own acts
  cases op with
  | queue tx r =>
    cases r with
    | attach target detour follow os =>
      refine ⟨⟨fun _ _ => trivial, fun _ => trivial⟩, fun _ {_ d} _ _ _ kind _ _ normal => ?_,
        fun path {_ d} queued _ resolved _ measured _ => ?_⟩
      · rw [kind] at normal
        cases normal
      · obtain ⟨maps, outside⟩ := meets path
        have readable : os.readableFrom d.target ≠ 0 := by
          intro none
          unfold Disassembler.getInstructionLen at measured
          rw [if_pos (.inl none)] at measured
          cases measured
        obtain ⟨r, mem, covered⟩ := maps d.target d.target ⟨le_rfl, by omega⟩
        rcases List.mem_append.1 mem with mem | mem
        · exact ⟨r, mem, covered⟩
        · rw [resolved] at covered
          exact absurd covered (outside r mem)
    | attachIat | attachEat | attachVtable | attachVtableInstance | detach => trivial
  | commit tx ffi os threads =>
    exact fun t _ => ⟨fun _ _ _ _ _ _ _ _ => trivial, fun _ _ _ _ _ _ _ _ => trivial⟩
  | unhook place ok dropOk retargetOk => exact fun _ _ _ _ _ => trivial
  | drop place ok retargetOk => exact fun _ _ _ _ => trivial
  | int3Install target detour gateway os =>
    exact ⟨fun _ => trivial, fun _ _ => trivial, fun _ => trivial⟩
  | int3Drop hook os => exact fun _ => trivial
  | begin | abort | enable | disable | beginPass | freeRegions | settlePass => trivial

theorem Sited.initial (foreign : List Region) (site : ℕ → ℕ → Prop) (pristine : ℕ → UInt8)
    (tables : Tables) : Sited foreign site (View.initial pristine tables) := by
  refine ⟨fun r hr => ?_, fun d hd => ?_, fun h mem => ?_⟩
  · cases hr
  · cases hd
  · cases mem

/-- No live hook's patch lies in a retired stub, in every run in which stub memory is patched on the
gateway path only. -/
theorem live_patches_housed {E : Env} {pristine : ℕ → UInt8} {s : State}
    (run : State.Reachable E (fun s op => op.PatchesOwn E s) pristine s) :
    s.PatchesHoused E.foreign := by
  obtain ⟨v, sim, base, sited⟩ := run.sim (R := Rules.homed E.foreign)
    (fun own => own.grants)
    (Sited.initial E.foreign (fun a _ => ∃ f ∈ E.foreign, f.Covers a) pristine)
    fun m _ sited => Sited.move (fun rule => rule) m sited
  have code : v.code = s.process.code := sim.sees.code
  intro h live
  have published := Multiset.mem_of_le (sim.installedHooks_le base) live
  rw [← code]
  exact base.housed sited published

/-! ### A gateway hooked before it is published -/

/-- Each call meets the condition in the state it is made in. -/
def State.Meets (E : Env) (allowed : State → Op → Prop) : State → List Op → Prop
  | _, [] => True
  | s, op :: rest => allowed s op ∧ (s.step E op).Meets E allowed rest

theorem State.Reachable.along {E : Env} {allowed : State → Op → Prop} {pristine : ℕ → UInt8}
    {s : State} (reached : Reachable E allowed pristine s) {ops : List Op}
    (meets : s.Meets E allowed ops) : Reachable E allowed pristine (s.run E ops) := by
  induction ops generalizing s with
  | nil => exact reached
  | cons op rest ih => exact ih (.step op reached meets.1) meets.2

/-- An attach that can read the stubs too. -/
def stubReadingOs (stubAt : ℕ) : AttachOs :=
  { sampleAttachOs stubAt with readableFrom := fun _ => 64 }

/-- One transaction hooks a function and the gateway that the first `attach` returned; then the
first hook is dropped. -/
def earlyChain : List Op :=
  [.begin, .queue 1 (.attach 0x1000 0x3000 true (sampleAttachOs 0x20000)),
    .queue 1 (.attach 0x20000 0x4000 true (stubReadingOs 0x30000)),
    .commit 1 false (sampleCommitOs []) sampleThreads, .drop (.hookPtr 2) true true]

def earlyChainState : State := (State.initial samplePristine sampleTables).run sampleEnv earlyChain

/-- A range that a live hook patches lies in a retired stub. -/
theorem State.retired_inside {s : State} {target len : ℕ} {r : Region}
    (live : (target, len) ∈ s.installedHooks.map fun h => (h.target, h.stolenLen))
    (retired : r ∈ s.process.code.retired)
    (inside : r.base ≤ target ∧ target + len ≤ r.base + r.mapped) :
    ∃ h ∈ s.installedHooks, ∃ r ∈ s.process.code.retired, h.Inside r := by
  obtain ⟨h, mem, range⟩ := Multiset.mem_map.1 live
  obtain ⟨rfl, rfl⟩ := Prod.mk.inj range
  exact ⟨h, mem, r, retired, inside⟩

/-- The stub that the second hook patches is retired while that hook is live. -/
theorem early_chain_retired :
    State.Reachable sampleEnv (fun _ _ => True) samplePristine earlyChainState ∧
      ∃ h ∈ earlyChainState.installedHooks, ∃ r ∈ earlyChainState.process.code.retired,
        h.Inside r := by
  constructor
  · exact (State.Reachable.initial sampleTables).run fun _ _ _ => trivial
  · apply @State.retired_inside _ 0x2000E 5 ⟨0x20000, 256⟩
    · decide +kernel
    · decide +kernel
    · decide

/-- The second hook comes in a transaction of its own. -/
def lateChain : List Op :=
  [.begin, .queue 1 (.attach 0x1000 0x3000 true (sampleAttachOs 0x20000)),
    .commit 1 false (sampleCommitOs []) sampleThreads, .begin,
    .queue 4 (.attach 0x20000 0x4000 true (sampleAttachOs 0x30000)),
    .commit 4 false (sampleCommitOs []) sampleThreads, .drop (.hookPtr 2) true true]

def lateChainState : State := (State.initial samplePristine sampleTables).run sampleEnv lateChain

theorem late_chain_housed :
    lateChainState.installedHooks.map (·.target) = {0x20000} ∧
      lateChainState.PatchesHoused sampleEnv.foreign := by
  have maps : ∀ a (s : State), (sampleAttachOs a).Maps sampleEnv.foreign s.process.code := by
    intro a s from_ x inside
    obtain ⟨r, mem, covered⟩ := sampleAttachOs_maps samplePristine a from_ x inside
    rcases List.mem_append.1 mem with mem | mem
    · exact ⟨r, List.mem_append_left _ mem, covered⟩
    · cases mem
  refine ⟨by decide +kernel, live_patches_housed ((State.Reachable.initial sampleTables).along ?_)⟩
  refine ⟨fun _ => trivial, fun _ _ => ⟨maps _ _, fun r there => ?_⟩, fun _ => trivial,
    fun _ => trivial, fun _ path => ?_, fun _ => trivial, fun _ => trivial, trivial⟩
  · cases there
  · exact absurd path (by decide +kernel)

end NeoHook
