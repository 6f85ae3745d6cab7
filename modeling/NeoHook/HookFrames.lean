import NeoHook.Runs

/-!
# Which hooks a call changes

A call changes the hooks it names and no others, and a place, once given away, is not used again.
-/

namespace NeoHook

namespace Process

variable {p p' p'' : Process} {place : Place} {places : List Place} {hook : Hook}

/-- Only the hooks at `places` may have changed or gone. -/
structure Keeps (places : List Place) (p p' : Process) : Prop where
  subperm : (p'.hooks.map (·.1)).Subperm (p.hooks.map (·.1))
  same : ∀ other ∉ places, p'.hookAt other = p.hookAt other

theorem Keeps.of_hooks (same : p'.hooks = p.hooks) : Keeps places p p' := by
  refine ⟨?_, fun other _ => ?_⟩
  · rw [same]
  · unfold hookAt
    rw [same]

theorem Keeps.trans (first : Keeps places p p') (second : Keeps places p' p'') :
    Keeps places p p'' :=
  ⟨second.subperm.trans first.subperm,
    fun other away => (second.same other away).trans (first.same other away)⟩

theorem Keeps.mono {more : List Place} (keeps : Keeps places p p') (sub : places ⊆ more) :
    Keeps more p p' :=
  ⟨keeps.subperm, fun other away => keeps.same other fun mem => away (sub mem)⟩

theorem keeps_put (present : p.hookAt place = some hook) (mem : place ∈ places) (hook' : Hook)
    (c : Code) (t : Tables) : Keeps places p { p.put place hook' with code := c, tables := t } := by
  have perm := (Bag.perm_cons_eraseP (find_of_hookAt present)).map (·.1)
  refine ⟨?_, fun other away => ?_⟩
  · exact perm.symm.subperm
  · exact @hookAt_put_of_ne p place other hook' (fun eq => away (eq ▸ mem))

theorem keeps_take (mem : place ∈ places) (c : Code) (t : Tables) :
    Keeps places p { p.take place with code := c, tables := t } := by
  refine ⟨?_, fun other away => ?_⟩
  · exact (List.eraseP_sublist.map _).subperm
  · exact @hookAt_take_of_ne p place other (fun eq => away (eq ▸ mem))

/-- A place that is taken is empty. -/
theorem hookAt_take_self (nodup : (p.hooks.map (·.1)).Nodup) : (p.take place).hookAt place = none := by
  unfold hookAt take
  rw [Option.map_eq_none_iff, List.find?_eq_none]
  intro e mem here
  have key : e.1 = place := of_decide_eq_true here
  exact Bag.key_notMem_eraseP nodup (key ▸ List.mem_map_of_mem mem)

end Process

open Process

/-! ### Commits -/

section Commit

variable {M : Modules} {foreign : List Region} {os : CommitOs} {p : Process} {w : Window}

theorem reserve_hooks (earlier : List PendingHook) (index : ℕ) (hook : PendingHook) :
    (reserve M foreign earlier index hook os p).2.hooks = p.hooks := by
  unfold reserve
  split
  · split_ifs
    · rfl
    · split <;> rfl
  · split <;> rfl
  · split <;> rfl
  · rfl

theorem reserveAll_hooks (earlier : List PendingHook) (reserved : List Reserved)
    (pending : List PendingHook) :
    (reserveAll M foreign os earlier reserved pending p).2.hooks = p.hooks := by
  induction pending generalizing earlier reserved p with
  | nil => rfl
  | cons hook rest ih =>
    have step := @reserve_hooks M foreign os p earlier earlier.length hook
    unfold reserveAll
    split
    · next eq =>
      rw [eq] at step
      rw [dropReserved_hooks]
      exact step
    · next eq =>
      rw [eq] at step
      rw [ih]
      exact step

theorem installInline_process (index : ℕ) (d : InlineData) (reserved : Reserved) :
    (installInline index d reserved os w).2.process.hooks = w.process.hooks ∧
      (installInline index d reserved os w).2.detached = w.detached := by
  unfold installInline
  split
  · exact ⟨rfl, rfl⟩
  · split
    · simp only
      split_ifs
      · exact ⟨rfl, rfl⟩
      · exact ⟨rfl, rfl⟩
      · split <;> exact ⟨rfl, rfl⟩
    · exact ⟨rfl, rfl⟩

/-- What a step of the install loop does to the hooks of the program. -/
theorem installStep_keeps (index : ℕ) (hook : PendingHook) (reserved : Reserved) {places : List Place}
    (targets : ∀ target, hook.detachTarget = some target → target ∈ places) :
    Keeps places w.process (installStep M index hook reserved os w).2.process ∧
      ∀ d ∈ (installStep M index hook reserved os w).2.detached, d ∈ w.detached ∨ d.1 ∈ places := by
  have unchanged : ∀ {w' : Window}, w'.process.hooks = w.process.hooks → w'.detached = w.detached →
      Keeps places w.process w'.process ∧ ∀ d ∈ w'.detached, d ∈ w.detached ∨ d.1 ∈ places :=
    fun hooks detached => ⟨.of_hooks hooks, fun d mem => .inl (detached ▸ mem)⟩
  unfold installStep
  cases hook with
  | inline d =>
    obtain ⟨hooks, detached⟩ := @installInline_process os w index d reserved
    simp only
    split
    · next eq =>
      rw [eq] at hooks detached
      exact unchanged hooks detached
    · next eq =>
      rw [eq] at hooks detached
      exact unchanged hooks detached
  | iat module dll func detour slot =>
    simp only
    split
    · exact unchanged rfl rfl
    · exact unchanged rfl rfl
  | eat module func detour slot =>
    simp only
    split
    · split
      · exact unchanged rfl rfl
      · exact unchanged rfl rfl
    · exact unchanged rfl rfl
  | vtable vtable i detour =>
    simp only
    split
    · exact unchanged rfl rfl
    · exact unchanged rfl rfl
  | vtableInstance object len i detour =>
    simp only
    split
    · split
      · exact unchanged rfl rfl
      · exact unchanged rfl rfl
    · exact unchanged rfl rfl
  | detach target =>
    have mem := targets target rfl
    simp only
    cases prepared : prepareDetach M w.process target (os.patchOk index) with
    | error e => exact unchanged rfl rfl
    | ok r =>
      obtain ⟨wasEnabled, p'⟩ := r
      refine ⟨?_, fun d there => ?_⟩
      · change Keeps places w.process p'
        unfold prepareDetach at prepared
        cases present : w.process.hookAt target with
        | none =>
          rw [present] at prepared
          cases prepared
        | some hook =>
          rw [present] at prepared
          simp only at prepared
          by_cases on : hook.isEnabled = true
          · rw [if_pos on] at prepared
            cases disabled : hook.disable M w.process.code w.process.tables (os.patchOk index) with
            | error e =>
              rw [disabled] at prepared
              cases prepared
            | ok r =>
              obtain ⟨c, t, hook'⟩ := r
              rw [disabled] at prepared
              cases prepared
              exact keeps_put present mem hook' c t
          · rw [if_neg on] at prepared
            cases prepared
            exact .of_hooks rfl
      · obtain old | new := List.mem_append.mp there
        · exact .inl old
        · rw [List.mem_singleton.mp new]
          exact .inr mem

theorem installAll_keeps {places : List Place} (entries : List (PendingHook × Reserved))
    (targets : ∀ e ∈ entries, ∀ target, e.1.detachTarget = some target → target ∈ places)
    (detached : ∀ d ∈ w.detached, d.1 ∈ places) (index : ℕ) :
    Keeps places w.process (installAll M os index entries w).2.process ∧
      ∀ d ∈ (installAll M os index entries w).2.detached, d.1 ∈ places := by
  induction entries generalizing w index with
  | nil => exact ⟨.of_hooks rfl, detached⟩
  | cons e rest ih =>
    obtain ⟨hook, reserved⟩ := e
    obtain ⟨keeps, more⟩ := @installStep_keeps M os w index hook reserved places
      (targets _ List.mem_cons_self)
    have detached' : ∀ d ∈ (installStep M index hook reserved os w).2.detached, d.1 ∈ places := by
      intro d mem
      obtain old | new := more d mem
      · exact detached d old
      · exact new
    unfold installAll
    split
    · next eq =>
      rw [eq] at keeps detached'
      exact ⟨keeps, detached'⟩
    · next eq =>
      rw [eq] at keeps detached'
      obtain ⟨keeps', detached''⟩ := ih (fun e mem => targets e (List.mem_cons_of_mem _ mem))
        detached' (index + 1)
      exact ⟨keeps.trans keeps', detached''⟩

theorem rollbackDetach_keeps {target : Place} {places : List Place} (mem : target ∈ places)
    (wasEnabled ok : Bool) : Keeps places p (rollbackDetach M p target wasEnabled ok) := by
  unfold rollbackDetach
  split
  · exact .of_hooks rfl
  · next hook present =>
    split_ifs
    · split
      · exact .of_hooks rfl
      · exact keeps_put present mem _ _ _
    · exact .of_hooks rfl

theorem rollbackDetaches_keeps {places : List Place} {detached : List (Place × Bool)}
    (within : ∀ d ∈ detached, d.1 ∈ places) : Keeps places p (rollbackDetaches M os p detached) := by
  unfold rollbackDetaches
  generalize 0 = first
  induction detached generalizing first with
  | nil => exact .of_hooks rfl
  | cons d rest ih =>
    rw [List.zipIdx_cons, List.foldr_cons]
    exact (ih (fun d mem => within d (List.mem_cons_of_mem _ mem)) (first + 1)).trans
      (rollbackDetach_keeps (within d List.mem_cons_self) _ _)

theorem rollback_keeps {places : List Place} (within : ∀ d ∈ w.detached, d.1 ∈ places)
    (rest : List (PendingHook × Reserved)) : Keeps places w.process (rollback M os w rest).1 := by
  have detaches : Keeps places w.process (rollbackDetaches M os w.process w.detached) :=
    rollbackDetaches_keeps within
  refine detaches.trans (.of_hooks ?_)
  unfold rollback
  simp only
  rw [dropReserved_hooks, dropPending_hooks, dropInstalled_hooks, undoInstalled_hooks]

theorem finalizeDetach_keeps {target : Place} {places : List Place} (mem : target ∈ places)
    (index : ℕ) : Keeps places p (finalizeDetach M os p index target) := by
  unfold finalizeDetach
  split
  · exact .of_hooks rfl
  · next hook present =>
    simp only
    split
    · exact keeps_put present mem _ _ _
    · exact keeps_take mem _ _

theorem finalizeDetaches_keeps {places : List Place} {detached : List (Place × Bool)}
    (within : ∀ d ∈ detached, d.1 ∈ places) : Keeps places p (finalizeDetaches M os p detached) := by
  unfold finalizeDetaches
  generalize 0 = first
  induction detached generalizing p first with
  | nil => exact .of_hooks rfl
  | cons d rest ih =>
    rw [List.zipIdx_cons, List.foldl_cons]
    exact (finalizeDetach_keeps (within d List.mem_cons_self) _).trans
      (ih (fun d mem => within d (List.mem_cons_of_mem _ mem)) (first + 1))

/-- A commit, failed or not, changes no hook but the ones it detaches. -/
theorem commit_keeps (pending : List PendingHook) (threads : Threads) :
    Keeps (pending.filterMap (·.detachTarget)) p (commit M foreign pending os p threads).2.1 := by
  have reserved_hooks := @reserveAll_hooks M foreign os p [] [] pending
  unfold commit
  split
  · next eq =>
    rw [eq] at reserved_hooks
    exact .of_hooks reserved_hooks
  · next reserved p' eq =>
    rw [eq] at reserved_hooks
    split
    · refine .of_hooks ?_
      rw [dropPending_hooks, dropReserved_hooks]
      exact reserved_hooks
    · have first : Keeps (pending.filterMap (·.detachTarget)) p p' := .of_hooks reserved_hooks
      obtain ⟨keeps, within⟩ := @installAll_keeps M os ⟨p', ⟨threads, [], []⟩, [], [], []⟩
        (pending.filterMap (·.detachTarget)) (pending.zip reserved)
        (fun e mem target isTarget =>
          List.mem_filterMap.mpr ⟨e.1, (List.of_mem_zip (a := e.1) (b := e.2) mem).1, isTarget⟩)
        (fun _ mem => absurd mem List.not_mem_nil) 0
      split
      · next w eq' =>
        rw [eq'] at keeps within
        exact (first.trans keeps).trans (rollback_keeps within _)
      · next w eq' =>
        rw [eq'] at keeps within
        refine (first.trans keeps).trans ?_
        have published : Keeps (pending.filterMap (·.detachTarget)) w.process
            { w.process with code := (publishAll w.process.code w.installed).1 } := .of_hooks rfl
        have finished : Keeps (pending.filterMap (·.detachTarget)) _
            (finalizeDetaches M os { w.process with
              code := (publishAll w.process.code w.installed).1 } w.detached) :=
          finalizeDetaches_keeps within
        refine (published.trans finished).trans (.of_hooks ?_)
        exact dropReserved_hooks _ _

end Commit

/-! ### Calls -/

/-- The number a place was given away with. -/
def Place.number : Place → ℕ
  | .hookPtr hook => hook
  | .handleIndex handle _ => handle

/-- Places are distinct, and none has a number that is still to be given away. -/
structure State.Numbered (s : State) : Prop where
  below : ∀ place ∈ s.process.hooks.map (·.1), place.number < s.fresh
  nodup : (s.process.hooks.map (·.1)).Nodup

/-- The call works on the hook at the place. -/
def Op.Touches (s : State) (place : Place) : Op → Prop
  | .commit tx _ _ _ => ∃ t, s.transaction tx = some t ∧ .detach place ∈ t.pending
  | .enable other _ | .disable other _ | .unhook other _ _ _ | .drop other _ _ => other = place
  | _ => False

section Calls

variable {E : Env} {s : State}

theorem mem_detachTargets {pending : List PendingHook} {place : Place} :
    place ∈ pending.filterMap (·.detachTarget) ↔ .detach place ∈ pending := by
  rw [List.mem_filterMap]
  constructor
  · rintro ⟨h, mem, eq⟩
    cases h with
    | detach target =>
      cases eq
      exact mem
    | inline | iat | eat | vtable | vtableInstance => cases eq
  · exact fun mem => ⟨_, mem, rfl⟩

theorem newPlaces_number {ffi : Bool} {fresh : ℕ} {hooks : List Hook} {place : Place}
    (mem : place ∈ (newPlaces ffi fresh hooks).map (·.1)) :
    fresh ≤ place.number ∧ place.number ≤ fresh + hooks.length := by
  obtain ⟨e, there, rfl⟩ := List.mem_map.mp mem
  obtain ⟨h, listed, rfl⟩ := List.mem_map.mp there
  have less := (List.mem_zipIdx listed).2.1
  cases ffi with
  | true => exact ⟨le_rfl, Nat.le_add_right _ _⟩
  | false =>
    simp only [Bool.false_eq_true, if_false, Place.number]
    omega

theorem newPlaces_nodup (ffi : Bool) (fresh : ℕ) (hooks : List Hook) :
    ((newPlaces ffi fresh hooks).map (·.1)).Nodup := by
  have numbers : hooks.zipIdx.map Prod.snd = List.range hooks.length := by
    rw [List.zipIdx_map_snd, List.range_eq_range']
  have positions : ((newPlaces ffi fresh hooks).map (·.1)) =
      (List.range hooks.length).map fun i =>
        if ffi then Place.handleIndex fresh i else .hookPtr (fresh + i) := by
    unfold newPlaces
    rw [List.map_map, ← numbers, List.map_map]
    rfl
  rw [positions]
  refine List.nodup_range.map fun i j eq => ?_
  cases ffi with
  | true => simpa using eq
  | false => simpa using eq

/-- Places that are left stay distinct. -/
theorem State.Numbered.keeps {s' : State} {places : List Place} (numbered : s.Numbered)
    (keeps : Process.Keeps places s.process s'.process) (fresh : s.fresh ≤ s'.fresh) :
    s'.Numbered := by
  refine ⟨fun place mem => ?_, ?_⟩
  · exact (numbered.below place (keeps.subperm.subset mem)).trans_le fresh
  · obtain ⟨l, perm, sub⟩ := keeps.subperm
    exact perm.nodup_iff.mp (sub.nodup numbered.nodup)

/-- What a call does to the hooks at the places given away. -/
structure Frames (s s' : State) (touched : Place → Prop) : Prop where
  numbered : s'.Numbered
  fresh : s.fresh ≤ s'.fresh
  same : ∀ place, place.number < s.fresh → ¬ touched place →
    s'.process.hookAt place = s.process.hookAt place

theorem Frames.of_keeps {s' : State} {touched : Place → Prop} {places : List Place}
    (numbered : s.Numbered) (keeps : Process.Keeps places s.process s'.process)
    (fresh : s.fresh ≤ s'.fresh) (within : ∀ place ∈ places, touched place) :
    Frames s s' touched :=
  ⟨numbered.keeps keeps fresh, fresh,
    fun place _ away => keeps.same place fun mem => away (within place mem)⟩

theorem Frames.of_hooks {s' : State} {touched : Place → Prop} (numbered : s.Numbered)
    (hooks : s'.process.hooks = s.process.hooks) (fresh : s.fresh ≤ s'.fresh) :
    Frames s s' touched :=
  @Frames.of_keeps s s' touched [] numbered (.of_hooks hooks) fresh fun _ none => nomatch none

/-- A commit that succeeds gives out new places. -/
theorem Frames.place {s' s'' : State} {touched : Place → Prop} {ffi : Bool} {hooks : List Hook}
    (frames : Frames s s' touched) (fresh : s'.fresh = s.fresh)
    (eq : s''.process.hooks = newPlaces ffi s.fresh hooks ++ s'.process.hooks)
    (fresh' : s''.fresh = s.fresh + hooks.length + 1) : Frames s s'' touched := by
  have old : ∀ place ∈ s'.process.hooks.map (·.1), place.number < s.fresh := fun place mem =>
    fresh ▸ frames.numbered.below place mem
  refine ⟨⟨fun place mem => ?_, ?_⟩, by omega, fun place below away => ?_⟩
  · rw [eq, List.map_append] at mem
    obtain new | mem := List.mem_append.mp mem
    · have := newPlaces_number new
      omega
    · have := old place mem
      omega
  · rw [eq, List.map_append]
    refine List.nodup_append.mpr ⟨newPlaces_nodup _ _ _, frames.numbered.nodup, ?_⟩
    rintro place new _ mem rfl
    have := newPlaces_number new
    have := old place mem
    omega
  · rw [← frames.same place below away]
    unfold Process.hookAt
    rw [eq, List.find?_append]
    have none : (newPlaces ffi s.fresh hooks).find? (fun e => e.1 = place) = none := by
      rw [List.find?_eq_none]
      intro e mem here
      have := newPlaces_number (List.mem_map_of_mem mem)
      rw [of_decide_eq_true here] at this
      omega
    rw [none, Option.none_or]

/-- A call leaves every hook alone that it does not work on. -/
theorem State.step_frames (numbered : s.Numbered) (op : Op) :
    Frames s (s.step E op) fun place => op.Touches s place := by
  have still : ∀ {s' : State}, s'.process.hooks = s.process.hooks → s.fresh ≤ s'.fresh →
      Frames s s' fun place => op.Touches s place := Frames.of_hooks numbered
  cases op with
  | begin => exact still rfl (Nat.le_succ _)
  | queue tx r =>
    rw [step]
    split
    · exact still rfl le_rfl
    · split_ifs
      · exact still rfl le_rfl
      · exact still rfl le_rfl
  | commit tx ffi os threads =>
    rw [step]
    split
    · exact still rfl le_rfl
    · next t present =>
      split_ifs
      · exact still rfl le_rfl
      · have keeps := @commit_keeps E.modules E.foreign os s.process t.pending threads
        have frames : ∀ {s' : State}, s'.process = (NeoHook.commit E.modules E.foreign t.pending os
            s.process threads).2.1 → s.fresh ≤ s'.fresh →
            Frames s s' fun place => (Op.commit tx ffi os threads).Touches s place := by
          intro s' eq fresh
          refine .of_keeps numbered (eq ▸ keeps) fresh fun place mem => ?_
          exact ⟨t, present, mem_detachTargets.mp mem⟩
        split
        · next eq => exact frames (congrArg (·.2.1) eq).symm le_rfl
        · next hooks p _ eq =>
          have done : Frames s { s with process := p } _ := frames (congrArg (·.2.1) eq).symm le_rfl
          exact done.place rfl rfl rfl
  | abort tx =>
    rw [step]
    split
    · exact still rfl le_rfl
    · split_ifs
      · exact still rfl le_rfl
      · exact still rfl le_rfl
  | enable place ok | disable place ok =>
    rw [step]
    split
    · exact still rfl le_rfl
    · next h present =>
      split
      · exact still rfl le_rfl
      · exact .of_keeps numbered
          (Process.keeps_put present (List.mem_singleton_self place) _ _ _) le_rfl
          fun other mem => (List.mem_singleton.mp mem).symm
  | unhook place ok dropOk retargetOk | drop place ok retargetOk =>
    rw [step]
    split
    · exact still rfl le_rfl
    · split_ifs
      · exact still rfl le_rfl
      · exact .of_keeps numbered (Process.keeps_take (List.mem_singleton_self place) _ _) le_rfl
          fun other mem => (List.mem_singleton.mp mem).symm
  | int3Install target detour gateway os =>
    rw [step]
    split
    · exact still rfl le_rfl
    · exact still rfl (Nat.le_succ _)
  | int3Drop hook os =>
    rw [step]
    split
    · exact still rfl le_rfl
    · exact still rfl le_rfl
  | beginPass => exact still rfl le_rfl
  | freeRegions w os => exact still rfl le_rfl
  | settlePass addOk => exact still rfl le_rfl

end Calls

end NeoHook
