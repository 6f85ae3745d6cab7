import NeoHook.StubMemory

/-!
# Jumps that are left in place

Whatever code writes fail, a jump that still stands at a target belongs to a hook that keeps its
stub, and its range stays registered, in every run in which no failed commit gives up a hook whose
jump it could not take out.
-/

namespace NeoHook

open ByteMap

/-- Every byte of the jump is as the hook wrote it. -/
def Code.HoldsJump (c : Code) (m : JumpMark) : Prop :=
  0 < m.len ∧ ∀ x, InRange m.target m.len x → c.jumps x = some m

/-- The range is a live patch and the stub of the hook that wrote the jump was never retired. -/
def Code.Protects (c : Code) (m : JumpMark) : Prop :=
  (m.target, m.len) ∈ c.livePatches ∧ m.stub ∉ c.retiredLog

/-! ### The hook of a jump -/

/-- The hooks that have a stub, whether or not the program still holds them. -/
def View.keepers (v : View) : Multiset InlineHook := v.objs + (v.flight + v.stranded)

namespace View

variable {v : View} {h : InlineHook}

theorem mem_keepers : h ∈ v.keepers ↔ h ∈ v.objs ∨ h ∈ v.flight ∨ h ∈ v.stranded := by
  unfold keepers
  rw [Multiset.mem_add, Multiset.mem_add]

/-- A keeper of a view with one of its hooks set apart. -/
theorem keepers_objs {rest : Multiset InlineHook} (objs : v.objs = h ::ₘ rest) :
    v.keepers = h ::ₘ (rest + (v.flight + v.stranded)) := by
  unfold keepers
  rw [objs, Multiset.cons_add]

theorem keepers_flight {rest : Multiset InlineHook} (flight : v.flight = h ::ₘ rest) :
    v.keepers = h ::ₘ (v.objs + (rest + v.stranded)) := by
  unfold keepers
  rw [flight, Multiset.cons_add, Multiset.add_cons]

end View

/-- An enabled hook has its stub and its jump's range around the byte. -/
def View.Holder (v : View) (m : JumpMark) (x : ℕ) : Prop :=
  ∃ h ∈ v.keepers, h.enabled = true ∧ h.mark v.code = m ∧ InRange m.target m.len x

/-- Every jump has its hook, and a hook that was given up with its jump in place is published. -/
structure Marked (v : View) : Prop where
  held : ∀ x m, v.code.jumps x = some m → v.Holder m x
  stranded : ∀ h ∈ v.stranded, h.enabled = true → h.published = true

namespace Marked

variable {v v' : View}

/-- A move that writes no code. -/
theorem carry (marked : Marked v) (jumps : v'.code.jumps = v.code.jumps)
    (births : v'.code.births = v.code.births)
    (kept : ∀ h ∈ v.keepers, h.enabled = true →
      ∃ h' ∈ v'.keepers, h'.enabled = true ∧ h'.mark v.code = h.mark v.code)
    (stranded : ∀ h ∈ v'.stranded, h.enabled = true → h.published = true) : Marked v' := by
  refine ⟨fun x m mark => ?_, stranded⟩
  rw [jumps] at mark
  obtain ⟨h, mem, on, rfl, inside⟩ := marked.held x m mark
  obtain ⟨h', mem', on', same⟩ := kept h mem on
  refine ⟨h', mem', on', ?_, inside⟩
  rw [← same]
  unfold InlineHook.mark Code.allocId
  rw [births]

/-- A move that writes one block of code: the hooks whose jump it writes over may go. -/
theorem overwrite (marked : Marked v) {a : ℕ} {bytes : List UInt8} {mark : Option JumpMark}
    (jumps : v'.code.jumps = (v.code.store a bytes mark).jumps)
    (births : v'.code.births = v.code.births)
    (new : ∀ m, mark = some m → ∃ h ∈ v'.keepers, h.enabled = true ∧ h.mark v.code = m ∧
      m.target = a ∧ m.len = bytes.length)
    (kept : ∀ h ∈ v.keepers, h.enabled = true →
      (∃ h' ∈ v'.keepers, h'.enabled = true ∧ h'.mark v.code = h.mark v.code) ∨
        (h.target = a ∧ h.stolenLen = bytes.length))
    (stranded : ∀ h ∈ v'.stranded, h.enabled = true → h.published = true) : Marked v' := by
  have same : ∀ h : InlineHook, h.mark v'.code = h.mark v.code := by
    intro h
    unfold InlineHook.mark Code.allocId
    rw [births]
  refine ⟨fun x m written => ?_, stranded⟩
  rw [jumps] at written
  change (if InRange a bytes.length x then mark else v.code.jumps x) = some m at written
  by_cases inside : InRange a bytes.length x
  · rw [if_pos inside] at written
    obtain ⟨h, mem, on, rfl, target, len⟩ := new m written
    refine ⟨h, mem, on, same h, ?_⟩
    rwa [target, len]
  · rw [if_neg inside] at written
    obtain ⟨h, mem, on, rfl, there⟩ := marked.held x m written
    rcases kept h mem on with ⟨h', mem', on', eq⟩ | ⟨target, len⟩
    · exact ⟨h', mem', on', (same h').trans eq, there⟩
    · apply absurd _ inside
      rw [← target, ← len]
      exact there

/-- A move that writes no jump and keeps every hook. -/
theorem fill (marked : Marked v) {a : ℕ} {bytes : List UInt8}
    (jumps : v'.code.jumps = (v.code.store a bytes none).jumps)
    (births : v'.code.births = v.code.births) (keepers : v'.keepers = v.keepers)
    (stranded : v'.stranded = v.stranded) : Marked v' := by
  apply marked.overwrite jumps births
  · intro m none
    cases none
  · intro h mem on
    left
    exact ⟨h, keepers ▸ mem, on, rfl⟩
  · rw [stranded]
    exact marked.stranded

/-- A hook's jump is taken out. -/
theorem takeOut (marked : Marked v) {h : InlineHook} {rest : Multiset InlineHook}
    (shaped : h.Shaped) (before : v.keepers = h ::ₘ rest) (after : v'.keepers = h.disabled ::ₘ rest)
    (jumps : v'.code.jumps = (v.code.store h.target h.origBytes none).jumps)
    (births : v'.code.births = v.code.births)
    (stranded : v'.stranded = v.stranded) : Marked v' := by
  apply marked.overwrite jumps births
  · intro m none
    cases none
  · intro x mem on
    rw [before] at mem
    rcases Multiset.mem_cons.1 mem with rfl | mem
    · right
      exact ⟨rfl, shaped.orig.symm⟩
    · left
      refine ⟨x, ?_, on, rfl⟩
      rw [after]
      exact Multiset.mem_cons_of_mem mem
  · rw [stranded]
    exact marked.stranded

/-- A disabled hook leaves or takes other flags. -/
theorem leave (marked : Marked v) {h : InlineHook} {rest : Multiset InlineHook}
    (off : h.enabled = false) (before : v.keepers = h ::ₘ rest) (after : rest ≤ v'.keepers)
    (memory : Code.SameMemory v.code v'.code) (stranded : v'.stranded = v.stranded) :
    Marked v' := by
  apply marked.carry memory.jumps memory.births
  · intro x mem on
    rw [before] at mem
    rcases Multiset.mem_cons.1 mem with rfl | mem
    · rw [off] at on
      cases on
    · exact ⟨x, Multiset.mem_of_le after mem, on, rfl⟩
  · rw [stranded]
    exact marked.stranded

/-- A hook is given up with its jump in place. -/
theorem abandon (marked : Marked v) {h : InlineHook} (code : v'.code = v.code)
    (keepers : v'.keepers = v.keepers) (stranded : v'.stranded = h ::ₘ v.stranded)
    (rule : h.enabled = true → h.published = true) : Marked v' := by
  apply marked.carry (congrArg Code.jumps code) (congrArg Code.births code)
  · intro x mem on
    exact ⟨x, keepers ▸ mem, on, rfl⟩
  · intro x mem on
    rw [stranded] at mem
    rcases Multiset.mem_cons.1 mem with rfl | mem
    · exact rule on
    · exact marked.stranded x mem on

/-- A move that changes neither the code bytes nor the hooks. -/
theorem same (marked : Marked v) (jumps : v'.code.jumps = v.code.jumps)
    (births : v'.code.births = v.code.births) (keepers : v'.keepers = v.keepers)
    (stranded : v'.stranded = v.stranded) : Marked v' := by
  apply marked.carry jumps births
  · intro h mem on
    exact ⟨h, keepers ▸ mem, on, rfl⟩
  · rw [stranded]
    exact marked.stranded

end Marked

/-- A keeper's stub is an allocation that is not retired. -/
theorem Own.keeper_stub {v : View} (own : Own v) {h : InlineHook} (keeper : h ∈ v.keepers) :
    h.trampoline.region ∈ v.code.allocs ∧ h.trampoline.region ∉ v.code.retired ∧
      v.code.allocId h.trampoline.ptr ∉ v.code.retiredLog := by
  have count : ∀ {s : Multiset InlineHook}, h ∈ s →
      0 < (s.map (·.trampoline.region)).count h.trampoline.region := fun mem =>
    Multiset.count_pos.2 (Multiset.mem_map_of_mem (·.trampoline.region) mem)
  apply own.held_kept
  unfold View.owners
  rcases View.mem_keepers.1 keeper with mem | mem | mem
  · have := count mem
    omega
  · have := count mem
    omega
  · have := count mem
    omega

/-! ### Moves -/

/-- Rules under which no hook is given up with its jump in place before it is published. -/
def Rules.announced : Rules where
  birth _ _ := True
  write _ _ _ _ _ := True
  queue _ _ := True
  strand h := h.enabled = true → h.published = true
  detach _ _ := True
  scar := True
  readd _ := True
  exports := True
  birth_of_idle _ := trivial
  write_of_exports _ _ _ _ _ _ := trivial
  write_sub _ _ _ := trivial

namespace Marked

variable {v v' : View} {foreign : List Region}

theorem allocate_births (c : Code) (r : Region) :
    (c.allocate r).births = Function.update c.births r.base (c.births r.base + 1) := rfl

theorem allocate (marked : Marked v) (own : Own v) {r : Region} (free : v.code.Free foreign r) :
    Marked { v with code := v.code.allocate r, held := r ::ₘ v.held } := by
  refine ⟨fun x m mark => ?_, marked.stranded⟩
  change (if r.Covers x then none else v.code.jumps x) = some m at mark
  by_cases covered : r.Covers x
  · rw [if_pos covered] at mark
    cases mark
  · rw [if_neg covered] at mark
    obtain ⟨h, mem, on, rfl, inside⟩ := marked.held x m mark
    refine ⟨h, mem, on, ?_, inside⟩
    have there := (own.keeper_stub mem).1
    have elsewhere : h.trampoline.ptr ≠ r.base := by
      have apart := free.2.2.2.1 _ there
      exact (Region.Apart.base_ne apart free.2.1 (own.real _ there).2).symm
    unfold InlineHook.mark Code.allocId
    rw [allocate_births, Function.update_of_ne elsewhere]

theorem beginPass_jumps (c : Code) :
    c.beginPass.jumps = c.jumps ∧ c.beginPass.births = c.births := by
  unfold Code.beginPass
  split_ifs <;> exact ⟨rfl, rfl⟩

theorem settlePass_jumps (c : Code) (addOk : ℕ → Bool) :
    (c.settlePass addOk).jumps = c.jumps ∧ (c.settlePass addOk).births = c.births := by
  unfold Code.settlePass
  split <;> exact ⟨rfl, rfl⟩

theorem move (m : Move Rules.announced foreign v v') (base : Base v) (marked : Marked v) :
    Marked v' := by
  have shapedObj : ∀ {h rest}, v.objs = h ::ₘ rest → h.Shaped := fun objs =>
    (base.shapes.objs _ (objs ▸ Multiset.mem_cons_self _ _)).1
  have shapedFlight : ∀ {h rest}, v.flight = h ::ₘ rest → h.Shaped := fun flight =>
    (base.shapes.flight _ (flight ▸ Multiset.mem_cons_self _ _)).1
  cases m with
  | allocate free quiet birth write => exact marked.allocate base.own free
  | fill held lo hi write => exact marked.fill rfl rfl rfl rfl
  | unwind | queue | handler | scar =>
    exact marked.same rfl rfl rfl rfl
  | @discard r rest held =>
    have memory := Code.retire_sameMemory v.code r
    exact marked.same memory.jumps memory.births rfl rfl
  | @giveUp d rest pending =>
    have memory := Code.dropTrampoline_sameMemory v.code d.trampoline
    exact marked.same memory.jumps memory.births rfl rfl
  | @patch d rest bytes pending target encoded clear apart owned =>
    have after : View.keepers { v with
        code := v.code.store d.target bytes (some ((d.install v.code bytes).mark v.code))
        pend := rest
        flight := d.install v.code bytes ::ₘ v.flight } =
        d.install v.code bytes ::ₘ (v.objs + (v.flight + v.stranded)) := View.keepers_flight rfl
    refine @overwrite v _ marked d.target bytes _ rfl rfl ?_ ?_ marked.stranded
    · rintro m ⟨⟩
      refine ⟨d.install v.code bytes, ?_, rfl, rfl, rfl, ?_⟩
      · rw [after]
        exact Multiset.mem_cons_self _ _
      · exact (length_inlinePatchBytes encoded).symm
    · intro h mem on
      left
      refine ⟨h, ?_, on, rfl⟩
      rw [after]
      exact Multiset.mem_cons_of_mem mem
  | @publish h rest flight =>
    have memory := publishInline_sameMemory v.code h
    apply marked.carry memory.jumps memory.births
    · intro x mem on
      rw [View.keepers_flight flight] at mem
      rcases Multiset.mem_cons.1 mem with rfl | mem
      · refine ⟨x.announced, View.mem_keepers.2 (.inl (Multiset.mem_cons_self _ _)), on, rfl⟩
      · refine ⟨x, ?_, on, rfl⟩
        unfold View.keepers
        rw [Multiset.cons_add]
        exact Multiset.mem_cons_of_mem mem
    · exact marked.stranded
  | @undo h rest flight =>
    exact marked.takeOut (shapedFlight flight) (View.keepers_flight flight)
      (View.keepers_flight rfl) rfl rfl rfl
  | @unravel h rest flight off =>
    exact marked.leave off (View.keepers_flight flight) le_rfl
      (InlineHook.dispose_sameMemory v.code h) rfl
  | @strandFlight h rest flight rule =>
    have kept : View.keepers { v with flight := rest, stranded := h ::ₘ v.stranded } =
        v.keepers := by
      unfold View.keepers
      rw [flight, Multiset.add_cons, Multiset.cons_add]
    exact marked.abandon rfl kept rfl rule
  | @restore h rest objs active =>
    exact marked.takeOut (shapedObj objs) (View.keepers_objs objs) (View.keepers_objs rfl) rfl rfl
      rfl
  | @enable h rest objs active off =>
    have after : View.keepers { v with
        code := v.code.store h.target h.patchBytes (some (h.mark v.code))
        objs := h.reenabled ::ₘ rest } = h.reenabled ::ₘ (rest + (v.flight + v.stranded)) :=
      View.keepers_objs rfl
    refine @overwrite v _ marked h.target h.patchBytes _ rfl rfl ?_ ?_ marked.stranded
    · rintro m ⟨⟩
      refine ⟨h.reenabled, ?_, rfl, rfl, rfl, (shapedObj objs).patch.symm⟩
      rw [after]
      exact Multiset.mem_cons_self _ _
    · intro x mem on
      rw [View.keepers_objs objs] at mem
      rcases Multiset.mem_cons.1 mem with rfl | mem
      · right
        exact ⟨rfl, (shapedObj objs).patch.symm⟩
      · left
        refine ⟨x, ?_, on, rfl⟩
        rw [after]
        exact Multiset.mem_cons_of_mem mem
  | @detach h rest objs quiet off rule =>
    refine marked.leave off (View.keepers_objs objs) ?_ ?_ rfl
    · have after : View.keepers { v with
        code := (h.release v.code).1.unregisterManagedGateway h.trampoline.ptr
        objs := h.inert ::ₘ rest } = h.inert ::ₘ (rest + (v.flight + v.stranded)) :=
        View.keepers_objs rfl
      rw [after]
      exact Multiset.le_cons_self _ _
    · have memory := InlineHook.release_sameMemory v.code h
      exact ⟨memory.mem, memory.allocs, memory.int3, memory.pass, memory.tables,
        memory.functionTables, memory.births, memory.freedLog, memory.unwound, memory.jumps⟩
  | @remove h rest objs quiet off =>
    exact marked.leave off (View.keepers_objs objs) le_rfl
      ((InlineHook.release_sameMemory v.code h).trans (InlineHook.dispose_sameMemory _ h)) rfl
  | @strand h rest objs active rule =>
    have kept : View.keepers { v with objs := rest, stranded := h ::ₘ v.stranded } =
        v.keepers := by
      unfold View.keepers
      rw [objs, Multiset.add_cons, Multiset.add_cons, Multiset.cons_add]
    exact marked.abandon rfl kept rfl rule
  | arm quiet nonnull clear slot_eq rule => exact marked.fill rfl rfl rfl rfl
  | disarm traps => exact marked.fill rfl rfl rfl rfl
  | beginPass =>
    obtain ⟨jumps, births⟩ := beginPass_jumps v.code
    exact marked.same jumps births rfl rfl
  | freeRegions pass split => exact marked.same rfl rfl rfl rfl
  | @settlePass addOk rule =>
    obtain ⟨jumps, births⟩ := settlePass_jumps v.code addOk
    exact marked.same jumps births rfl rfl

end Marked

/-! ### Runs -/

namespace State.Reachable

variable {E : Env} {allowed : State → Op → Prop} {pristine : ℕ → UInt8} {s : State}

theorem anything (run : Reachable E allowed pristine s) :
    Reachable E (fun _ _ => True) pristine s := by
  induction run with
  | initial tables => exact .initial tables
  | step op _ _ ih => exact .step op ih trivial

/-- What holds in every state of every run holds wherever a call is made. -/
theorem strengthen {Good : State → Prop}
    (good : ∀ s, Reachable E (fun _ _ => True) pristine s → Good s)
    (run : Reachable E allowed pristine s) :
    Reachable E (fun s op => allowed s op ∧ Good s) pristine s := by
  induction run with
  | initial tables => exact .initial tables
  | step op before meets ih => exact .step op ih ⟨meets, good _ before.anything⟩

end State.Reachable

/-- The hooks in use are those a commit has published. -/
def State.ActivePublished (s : State) : Prop := ∀ h ∈ s.hooks, h.active = h.published

theorem State.Reachable.activePublished {E : Env} {pristine : ℕ → UInt8} {s : State}
    (run : Reachable E (fun _ _ => True) pristine s) : s.ActivePublished := by
  have grants : ∀ {s op}, True → Rules.free.Grants E s op := fun {s op} _ => Rules.free_grants E s op
  have kept : ∀ {v v'}, Move Rules.free E.foreign v v' → Base v → True → True :=
    fun _ _ _ => trivial
  obtain ⟨v, sim, base, -⟩ := run.sim grants (fun _ => trivial) kept
  have objs : v.objs = s.hooks := by
    rw [sim.sees.objs]
    exact Multiset.add_zero _
  intro h mem
  exact (base.shapes.objs h (objs ▸ mem)).2.1

/-- No hook that a failing commit has installed keeps its jump: the write that undoes it or the one of
its drop succeeds. -/
def Op.Undoes (E : Env) (s : State) (op : Op) : Prop :=
  op.Acts E s → match op with
    | .commit tx _ os threads => ∀ t, s.transaction tx = some t → ∀ w,
      failedWindow E.modules E.foreign t.pending os s.process threads = some w →
        ∀ i < w.installed.length, os.undoOk i = true ∨ os.dropOk i = true
    | _ => True

theorem Op.Undoes.grants {E : Env} {s : State} {op : Op} (undoes : op.Undoes E s)
    (published : s.ActivePublished) : Rules.announced.Grants E s op := by
  have strand : ∀ {place h}, s.process.hookAt place = some (.inline h) → h.active = true →
      Rules.announced.strand h := by
    intro place h present active _
    rw [← active]
    apply Eq.symm
    apply published
    unfold State.hooks
    rw [Process.inlineHooks_take present]
    exact Multiset.mem_add.2 (.inl (Multiset.mem_singleton_self _))
  intro acts
  have meets := undoes acts
  cases op with
  | queue tx r =>
    cases r with
    | attach target detour follow os =>
      exact ⟨⟨fun _ _ => trivial, fun _ => trivial⟩, fun _ _ _ _ _ _ _ _ _ => trivial,
        fun _ _ _ _ _ _ _ _ => trivial⟩
    | attachIat | attachEat | attachVtable | attachVtableInstance | detach => trivial
  | commit tx ffi os threads =>
    refine fun t present => ⟨fun w failed i inside stuck h _ undone on => ?_,
      fun _ _ _ _ _ _ _ _ => trivial⟩
    rcases meets t present w failed i inside with fine | fine
    · rw [undone fine] at on
      cases on
    · rw [stuck] at fine
      cases fine
  | unhook place ok dropOk retargetOk => exact fun _ present active _ _ => strand present active
  | drop place ok retargetOk => exact fun _ present active _ => strand present active
  | int3Install target detour gateway os =>
    exact ⟨fun _ => trivial, fun _ _ => trivial, fun _ => trivial⟩
  | int3Drop hook os => exact fun _ => trivial
  | begin | abort | enable | disable | beginPass | freeRegions | settlePass => trivial

theorem Marked.initial (pristine : ℕ → UInt8) (tables : Tables) :
    Marked (View.initial pristine tables) := by
  constructor
  · intro x m mark
    cases mark
  · intro h mem
    cases mem

theorem Marked.protects {v : View} (marked : Marked v) (base : Base v) (idle : v.flight = 0)
    {m : JumpMark} (held : v.code.HoldsJump m) : v.code.Protects m := by
  obtain ⟨positive, bytes⟩ := held
  have first : InRange m.target m.len m.target := ⟨le_rfl, by omega⟩
  obtain ⟨h, mem, on, rfl, -⟩ := marked.held _ _ (bytes _ first)
  have published : h ∈ v.installed := by
    rcases View.mem_keepers.1 mem with obj | flying | stranded
    · obtain ⟨-, same, active⟩ := base.shapes.objs h obj
      exact View.mem_installed_of_objs obj (same.symm.trans (active on))
    · rw [idle] at flying
      cases flying
    · exact mem_publishedOf.2 ⟨Multiset.mem_add.2 (.inr stranded), marked.stranded h stranded on⟩
  exact ⟨base.dis.registered h published, (base.own.keeper_stub mem).2.2⟩

/-- A jump that is left at its target stays registered and keeps its stub, in every run in which no
failed commit gives up a hook whose jump it could not take out. -/
theorem held_jumps_protected {E : Env} {pristine : ℕ → UInt8} {s : State}
    (run : State.Reachable E (fun s op => op.Undoes E s) pristine s) :
    ∀ m, s.process.code.HoldsJump m → s.process.code.Protects m := by
  have run := run.strengthen fun _ run => run.activePublished
  obtain ⟨v, sim, base, marked⟩ := run.sim (R := Rules.announced)
    (fun meets => meets.1.grants meets.2) (Marked.initial pristine)
    fun m base marked => Marked.move m base marked
  have code : v.code = s.process.code := sim.sees.code
  have idle : v.flight = 0 := sim.sees.flight
  intro m held
  rw [← code] at held ⊢
  exact marked.protects base idle held

/-! ### A jump that is given up -/

theorem Code.HoldsJump.of_marks {c : Code} {m : JumpMark} (positive : 0 < m.len)
    (marks : ∀ i < m.len, c.jumps (m.target + i) = some m) : c.HoldsJump m := by
  refine ⟨positive, fun x inside => ?_⟩
  have low := inside.1
  have offset := marks (x - m.target) (by have := inside.2; omega)
  rwa [Nat.add_sub_cancel' low] at offset

/-- Two hooks are queued and the second cannot be patched; the writes that would take out the first
jump fail too. -/
def givenUp : List Op :=
  [.begin, .queue 1 (.attach 0x1000 0x3000 true (sampleAttachOs 0x20000)),
    .queue 1 (.attach 0x2000 0x3000 true (sampleAttachOs 0x21000)),
    .commit 1 false { sampleCommitOs [] with
      patchOk := fun i => i = 0, undoOk := fun _ => false, dropOk := fun _ => false }
      sampleThreads]

/-- The jump of `givenUp` that stays. -/
def givenUpJump : JumpMark := ⟨0x1000, 5, (0x20000, 1)⟩

def givenUpState : State := (State.initial samplePristine sampleTables).run sampleEnv givenUp

/-- A failed commit leaves a jump in place that nothing registers. -/
theorem given_up_jump_unprotected :
    State.Reachable sampleEnv (fun _ _ => True) samplePristine givenUpState ∧
      givenUpState.process.code.HoldsJump givenUpJump ∧
      ¬ givenUpState.process.code.Protects givenUpJump ∧
      givenUpState.process.code.overlapsLivePatch 0x1000 5 = false := by
  have marks : ∀ i < 5, givenUpState.process.code.jumps (givenUpJump.target + i) =
      some givenUpJump := by
    decide +kernel
  have unregistered : (givenUpJump.target, givenUpJump.len) ∉
      givenUpState.process.code.livePatches := by
    decide +kernel
  exact ⟨(State.Reachable.initial sampleTables).run fun _ _ _ => trivial,
    Code.HoldsJump.of_marks (by decide) marks, fun protects => unregistered protects.1,
    by decide +kernel⟩

/-- A commit fails and so does the write of its rollback, but not the one of the drop.  The hook is
queued again and committed, and the write that would restore its target fails when it is dropped. -/
def heldJump : List Op :=
  [.begin, .queue 1 (.attach 0x1000 0x3000 true (sampleAttachOs 0x20000)),
    .queue 1 (.attach 0x2000 0x3000 true (sampleAttachOs 0x21000)),
    .commit 1 false { sampleCommitOs [] with patchOk := fun i => i = 0, undoOk := fun _ => false }
      sampleThreads,
    .queue 1 (.attach 0x1000 0x3000 true (sampleAttachOs 0x22000)),
    .commit 1 false (sampleCommitOs []) sampleThreads, .drop (.hookPtr 2) false true]

/-- The jump of the hook that is gone. -/
def leftJump : JumpMark := ⟨0x1000, 5, (0x22000, 1)⟩

def heldJumpState : State := (State.initial samplePristine sampleTables).run sampleEnv heldJump

theorem held_jump_protected :
    heldJumpState.hooks = 0 ∧ heldJumpState.process.code.HoldsJump leftJump ∧
      heldJumpState.process.code.Protects leftJump := by
  have marks : ∀ i < 5, heldJumpState.process.code.jumps (leftJump.target + i) = some leftJump := by
    decide +kernel
  have holds : heldJumpState.process.code.HoldsJump leftJump :=
    Code.HoldsJump.of_marks (by decide) marks
  have run : State.Reachable sampleEnv (fun s op => op.Undoes sampleEnv s) samplePristine
      heldJumpState := by
    refine (State.Reachable.initial sampleTables).run fun s op mem => ?_
    simp only [heldJump, List.mem_cons, List.not_mem_nil, or_false] at mem
    rcases mem with rfl | rfl | rfl | rfl | rfl | rfl | rfl
    · exact fun _ => trivial
    · exact fun _ => trivial
    · exact fun _ => trivial
    · exact fun _ _ _ _ _ i _ => .inr rfl
    · exact fun _ => trivial
    · exact fun _ _ _ _ _ i _ => .inl rfl
    · exact fun _ => trivial
  exact ⟨by decide +kernel, holds, held_jumps_protected run leftJump holds⟩

end NeoHook
