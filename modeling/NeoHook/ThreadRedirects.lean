import NeoHook.Relocation

/-!
# Where suspended threads are sent

A commit that succeeds has moved every instruction pointer out of the bytes it patched, and what it
moved it moved to the relocated copy of the same instruction.  Each inline hook makes one pass over
the suspended threads, in the order of the queue; the bytes before a target are read while the
patches of the earlier hooks are in place.
-/

namespace NeoHook

open ByteMap

/-! ### One pass -/

/-- What a pass does with an instruction pointer. -/
def IpStep (d : InlineData) (x x' : ℕ) : Prop :=
  x' = x ∨ InRange d.target d.stolenLen x ∧ mapRedirectAddressExact d x = .ok (some x')

/-- What a pass does with a stack word. -/
def StackStep (mem : ℕ → UInt8) (d : InlineData) (x x' : ℕ) : Prop :=
  x' = x ∨ isPlausibleReturnAddress mem d x = true ∧ mapRedirectAddressExact d x = .ok (some x')

/-- The addresses the first hook sends threads to are not stolen by the second. -/
def InlineData.Clears (d e : InlineData) : Prop :=
  ∀ x x', mapRedirectAddressExact d x = .ok (some x') → ¬ InRange e.target e.stolenLen x'

theorem inRange_of_isPlausibleReturnAddress {mem : ℕ → UInt8} {d : InlineData} {x : ℕ}
    (h : isPlausibleReturnAddress mem d x = true) : InRange d.target d.stolenLen x := by
  unfold isPlausibleReturnAddress at h
  split_ifs at h with outside
  simp only [not_or, not_le] at outside
  exact ⟨outside.1.le, outside.2⟩

theorem IpStep.trans {d : InlineData} (clears : d.Clears d) {x y z : ℕ} (one : IpStep d x y)
    (two : IpStep d y z) : IpStep d x z := by
  rcases one with rfl | ⟨inside, moved⟩
  · exact two
  · rcases two with rfl | ⟨again, _⟩
    · exact Or.inr ⟨inside, moved⟩
    · exact absurd again (clears x y moved)

theorem StackStep.trans {mem : ℕ → UInt8} {d : InlineData} (clears : d.Clears d) {x y z : ℕ}
    (one : StackStep mem d x y) (two : StackStep mem d y z) : StackStep mem d x z := by
  rcases one with rfl | ⟨accepted, moved⟩
  · exact two
  · rcases two with rfl | ⟨again, _⟩
    · exact Or.inr ⟨accepted, moved⟩
    · exact absurd (inRange_of_isPlausibleReturnAddress again) (clears x y moved)

/-- What a pass, or a part of one, does with all threads. -/
structure Passes (mem : ℕ → UInt8) (d : InlineData) (r r' : Redirects) : Prop where
  ip : ∀ t, IpStep d (r.threads.ip t) (r'.threads.ip t)
  stack : ∀ slot, StackStep mem d (r.threads.stack slot) (r'.threads.stack slot)

section Pass

variable {mem : ℕ → UInt8} {os : ThreadAnswers} {d : InlineData} {index thread : ℕ}

theorem Passes.refl (r : Redirects) : Passes mem d r r :=
  ⟨fun _ => Or.inl rfl, fun _ => Or.inl rfl⟩

theorem Passes.trans (clears : d.Clears d) {r₁ r₂ r₃ : Redirects} (one : Passes mem d r₁ r₂)
    (two : Passes mem d r₂ r₃) : Passes mem d r₁ r₃ :=
  ⟨fun t => (one.ip t).trans clears (two.ip t),
    fun slot => (one.stack slot).trans clears (two.stack slot)⟩

theorem redirectSlot_passes {slot : ℕ} {r r' : Redirects}
    (h : redirectSlot mem os d thread slot r = (none, r')) :
    Passes mem d r r' ∧ r'.threads.ip = r.threads.ip := by
  unfold redirectSlot at h
  simp only at h
  by_cases rejected : isPlausibleReturnAddress mem d (r.threads.stack slot) = false
  · rw [if_pos rejected, Prod.mk.injEq] at h
    obtain ⟨-, rfl⟩ := h
    exact ⟨.refl r, rfl⟩
  · rw [if_neg rejected] at h
    cases moved : mapRedirectAddressExact d (r.threads.stack slot) with
    | error e =>
      rw [moved] at h
      simp at h
    | ok there =>
      rw [moved] at h
      cases there with
      | none =>
        obtain ⟨-, rfl⟩ := Prod.mk.injEq .. ▸ h
        exact ⟨.refl r, rfl⟩
      | some x' =>
        simp only at h
        by_cases full : r.redirectedStacks.length = os.stackCapacity
        · rw [if_pos full] at h
          simp at h
        · rw [if_neg full, Prod.mk.injEq] at h
          obtain ⟨-, rfl⟩ := h
          refine ⟨⟨fun _ => Or.inl rfl, fun s => ?_⟩, rfl⟩
          by_cases same : s = slot
          · subst same
            refine Or.inr ⟨Bool.eq_true_of_not_eq_false rejected, ?_⟩
            simpa using moved
          · exact Or.inl (Function.update_of_ne same _ _)

theorem redirectSlots_passes (clears : d.Clears d) {n slot scanned scanned' : ℕ} {r r' : Redirects}
    (h : redirectSlots mem os d thread n slot scanned r = (none, scanned', r')) :
    Passes mem d r r' ∧ r'.threads.ip = r.threads.ip := by
  induction n generalizing slot scanned r with
  | zero =>
    simp only [redirectSlots, Prod.mk.injEq] at h
    obtain ⟨-, -, rfl⟩ := h
    exact ⟨.refl r, rfl⟩
  | succ n ih =>
    rw [redirectSlots] at h
    split_ifs at h with far
    · simp at h
    · cases step : redirectSlot mem os d thread slot r with
      | mk failure r₁ =>
        rw [step] at h
        cases failure with
        | some e => simp at h
        | none =>
          obtain ⟨first, ip⟩ := redirectSlot_passes step
          obtain ⟨rest, ip'⟩ := ih h
          exact ⟨first.trans clears rest, ip'.trans ip⟩

theorem redirectStack_passes (clears : d.Clears d) {stackAllocation region scanned : ℕ}
    {r r' : Redirects}
    (h : redirectStack mem os d thread stackAllocation region scanned r = (none, r')) :
    Passes mem d r r' ∧ r'.threads.ip = r.threads.ip := by
  induction region, scanned, r using redirectStack.induct mem os d thread stackAllocation with
  | case1 region scanned r query =>
    rw [redirectStack, query] at h
    obtain ⟨-, rfl⟩ := Prod.mk.injEq .. ▸ h
    exact ⟨.refl r, rfl⟩
  | case2 region scanned r i query other =>
    rw [redirectStack, query] at h
    simp only [if_pos other, Prod.mk.injEq] at h
    obtain ⟨-, rfl⟩ := h
    exact ⟨.refl r, rfl⟩
  | case3 region scanned r i query same ends =>
    rw [redirectStack, query] at h
    simp only [if_neg same, dif_pos ends, Prod.mk.injEq] at h
    obtain ⟨-, rfl⟩ := h
    exact ⟨.refl r, rfl⟩
  | case4 region scanned r i query same more readable slot e scanned' r₁ slots =>
    rw [redirectStack, query] at h
    simp only [if_neg same, dif_neg more, if_pos readable] at h
    rw [slots] at h
    simp at h
  | case5 region scanned r i query same more readable slot scanned' r₁ slots ih =>
    rw [redirectStack, query] at h
    simp only [if_neg same, dif_neg more, if_pos readable] at h
    rw [slots] at h
    obtain ⟨first, ip⟩ := redirectSlots_passes clears slots
    obtain ⟨rest, ip'⟩ := ih h
    exact ⟨first.trans clears rest, ip'.trans ip⟩
  | case6 region scanned r i query same more guarded ih =>
    rw [redirectStack, query] at h
    simp only [if_neg same, dif_neg more, if_neg guarded] at h
    exact ih h

theorem redirectIp_passes (clears : d.Clears d) {r r' : Redirects}
    (h : redirectIp os d index thread r = (none, r')) :
    Passes mem d r r' ∧ ¬ InRange d.target d.stolenLen (r'.threads.ip thread) := by
  unfold redirectIp at h
  simp only at h
  by_cases outside : ¬ InRange d.target d.stolenLen (r.threads.ip thread)
  · rw [if_pos outside, Prod.mk.injEq] at h
    obtain ⟨-, rfl⟩ := h
    exact ⟨.refl r, outside⟩
  · rw [if_neg outside] at h
    have inside := not_not.mp outside
    cases moved : mapRedirectAddressExact d (r.threads.ip thread) with
    | error e =>
      rw [moved] at h
      simp at h
    | ok there =>
      rw [moved] at h
      cases there with
      | none => simp at h
      | some x' =>
        simp only at h
        by_cases full : r.redirectedThreads.length = os.threadCapacity
        · rw [if_pos full] at h
          simp at h
        · rw [if_neg full] at h
          by_cases set : os.setContext index thread = true
          · rw [if_pos set, Prod.mk.injEq] at h
            obtain ⟨-, rfl⟩ := h
            have there : Function.update r.threads.ip thread x' thread = x' :=
              Function.update_self thread x' r.threads.ip
            refine ⟨⟨fun t => ?_, fun _ => Or.inl rfl⟩, ?_⟩
            · by_cases same : t = thread
              · subst same
                simp only [there]
                exact Or.inr ⟨inside, moved⟩
              · exact Or.inl (Function.update_of_ne same _ _)
            · simp only [there]
              exact clears _ x' moved
          · rw [if_neg set] at h
            simp at h

theorem redirectRipRelativeThreads_passes (clears : d.Clears d) {r r' : Redirects}
    (h : redirectRipRelativeThreads mem os d index r thread = (none, r')) :
    Passes mem d r r' ∧ (os.getContext index thread = true →
      ¬ InRange d.target d.stolenLen (r'.threads.ip thread)) := by
  unfold redirectRipRelativeThreads at h
  by_cases unread : os.getContext index thread = false
  · rw [if_pos unread, Prod.mk.injEq] at h
    obtain ⟨-, rfl⟩ := h
    exact ⟨.refl r, fun read => absurd (unread.symm.trans read) nofun⟩
  · rw [if_neg unread] at h
    cases step : redirectIp os d index thread r with
    | mk failure r₁ =>
      rw [step] at h
      cases failure with
      | some e => simp at h
      | none =>
        obtain ⟨first, clear⟩ : Passes mem d r r₁ ∧ _ := redirectIp_passes clears step
        simp only at h
        cases query : os.query (r₁.threads.sp thread) with
        | none =>
          rw [query] at h
          obtain ⟨-, rfl⟩ := Prod.mk.injEq .. ▸ h
          exact ⟨first, fun _ => clear⟩
        | some i =>
          rw [query] at h
          obtain ⟨rest, ip⟩ := redirectStack_passes clears h
          exact ⟨first.trans clears rest, fun _ => ip ▸ clear⟩

/-- A pass over all threads: who can be read is outside the stolen bytes afterwards. -/
theorem redirectAll_passes (clears : d.Clears d) {threads : List ℕ} {r r' : Redirects}
    (h : redirectAll mem os d index threads r = (none, r')) :
    Passes mem d r r' ∧ ∀ t ∈ threads, os.getContext index t = true →
      ¬ InRange d.target d.stolenLen (r'.threads.ip t) := by
  induction threads generalizing r with
  | nil =>
    rw [redirectAll, Prod.mk.injEq] at h
    obtain ⟨-, rfl⟩ := h
    exact ⟨.refl r, fun t mem => absurd mem List.not_mem_nil⟩
  | cons thread rest ih =>
    rw [redirectAll] at h
    cases step : redirectRipRelativeThreads mem os d index r thread with
    | mk failure r₁ =>
      rw [step] at h
      cases failure with
      | some e => simp at h
      | none =>
        obtain ⟨first, clear⟩ := redirectRipRelativeThreads_passes clears step
        obtain ⟨later, others⟩ := ih h
        refine ⟨first.trans clears later, fun t mem read => ?_⟩
        rcases List.mem_cons.mp mem with rfl | mem
        · rcases later.ip t with same | ⟨inside, _⟩
          · rw [same]
            exact clear read
          · exact absurd inside (clear read)
        · exact others t mem read

end Pass

/-! ### All passes of a commit -/

/-- The memory each inline hook's pass reads, and the hook. -/
def installPasses (M : Modules) (os : CommitOs) :
    ℕ → List (PendingHook × Reserved) → Window → List ((ℕ → UInt8) × InlineData)
  | _, [], _ => []
  | index, (hook, reserved) :: rest, w =>
    (hook.inlineData.map fun d => (w.process.code.mem, d)).toList ++
      installPasses M os (index + 1) rest (installStep M index hook reserved os w).2

/-- The passes of a commit whose resources could be reserved. -/
def commitPasses (M : Modules) (foreign : List Region) (pending : List PendingHook) (os : CommitOs)
    (p : Process) (threads : Threads) : List ((ℕ → UInt8) × InlineData) :=
  match reserveAll M foreign os [] [] pending p with
  | (.error _, _) => []
  | (.ok reserved, p) =>
    installPasses M os 0 (pending.zip reserved) ⟨p, ⟨threads, [], []⟩, [], [], []⟩

/-- An address goes through the passes one after the other. -/
inductive Carried (step : (ℕ → UInt8) → InlineData → ℕ → ℕ → Prop) :
    List ((ℕ → UInt8) × InlineData) → ℕ → ℕ → Prop
  | nil (x : ℕ) : Carried step [] x x
  | cons {mem : ℕ → UInt8} {d : InlineData} {rest : List ((ℕ → UInt8) × InlineData)} {x y z : ℕ} :
      step mem d x y → Carried step rest y z → Carried step ((mem, d) :: rest) x z

/-- An address that no pass moves stays. -/
theorem Carried.fixed {step : (ℕ → UInt8) → InlineData → ℕ → ℕ → Prop}
    {passes : List ((ℕ → UInt8) × InlineData)} {x z : ℕ} (carried : Carried step passes x z)
    (fixed : ∀ q ∈ passes, ∀ y, step q.1 q.2 x y → y = x) : z = x := by
  induction carried with
  | nil x => rfl
  | @cons mem d rest x y z moved _ ih =>
    obtain rfl : y = x := fixed (mem, d) List.mem_cons_self y moved
    exact ih fun q mem => fixed q (List.mem_cons_of_mem _ mem)

theorem Carried.mono {step step' : (ℕ → UInt8) → InlineData → ℕ → ℕ → Prop}
    {passes : List ((ℕ → UInt8) × InlineData)} {x z : ℕ} (carried : Carried step passes x z)
    (weaker : ∀ q ∈ passes, ∀ x y, step q.1 q.2 x y → step' q.1 q.2 x y) :
    Carried step' passes x z := by
  induction carried with
  | nil x => exact .nil x
  | @cons mem d rest x y z moved _ ih =>
    exact .cons (weaker (mem, d) List.mem_cons_self x y moved)
      (ih fun q mem => weaker q (List.mem_cons_of_mem _ mem))

section Commit

variable {M : Modules} {os : CommitOs}

/-- An inline hook is installed behind its pass. -/
theorem installInline_passes {index : ℕ} {d : InlineData} {reserved : Reserved} {w w' : Window}
    (clears : d.Clears d) (h : installInline index d reserved os w = (.ok (), w')) :
    Passes w.process.code.mem d w.redirects w'.redirects ∧
      (∀ t ∈ os.threads, os.getContext index t = true →
        ¬ InRange d.target d.stolenLen (w'.redirects.threads.ip t)) ∧
      ∃ hook : InlineHook, hook.target = d.target ∧ hook.stolenLen = d.stolenLen ∧
        w'.installed = w.installed ++ [.inline hook] := by
  unfold installInline at h
  cases pass : redirectAll w.process.code.mem os.toThreadAnswers d index os.threads w.redirects with
  | mk failure r =>
    rw [pass] at h
    cases failure with
    | some e => simp at h
    | none =>
      obtain ⟨passes, clear⟩ := redirectAll_passes clears pass
      simp only at h
      cases reserved with
      | patch patch =>
        simp only at h
        by_cases armed : w.process.code.armedInRange d.target d.stolenLen = true
        · rw [if_pos armed] at h
          simp at h
        by_cases short : patch.length ≠ d.stolenLen
        · rw [if_neg armed, if_pos short] at h
          simp at h
        rw [if_neg armed, if_neg short] at h
        split at h
        · simp at h
        · rw [Prod.mk.injEq] at h
          obtain ⟨-, rfl⟩ := h
          exact ⟨passes, clear, d.install w.process.code patch, rfl, rfl, rfl⟩
      | nothing => simp at h
      | table storage => simp at h
      | eat prepared => simp at h

/-- The other queue entries leave the threads alone. -/
theorem installStep_redirects {index : ℕ} {hook : PendingHook} {reserved : Reserved}
    {w w' : Window} (other : hook.inlineData = none)
    (h : installStep M index hook reserved os w = (.ok (), w')) :
    w'.redirects = w.redirects ∧
      ∀ i : InlineHook, .inline i ∈ w'.installed → .inline i ∈ w.installed := by
  have pushed : ∀ {t : Tables} {h : Hook} {spare : List Reserved}, h.inlineHook = none →
      (w.push t h spare).redirects = w.redirects ∧
        ∀ i : InlineHook, .inline i ∈ (w.push t h spare).installed → .inline i ∈ w.installed := by
    intro t h spare plain
    refine ⟨rfl, fun i mem => ?_⟩
    rcases List.mem_append.mp mem with mem | mem
    · exact mem
    · rw [← List.mem_singleton.mp mem] at plain
      exact absurd plain nofun
  cases hook with
  | inline d => exact absurd other nofun
  | iat module dll func detour slot =>
    simp only [installStep] at h
    split at h
    · simp at h
    · rw [Prod.mk.injEq] at h
      obtain ⟨-, rfl⟩ := h
      exact pushed rfl
  | eat module func detour slot =>
    cases reserved with
    | eat prepared =>
      simp only [installStep] at h
      split at h
      · simp at h
      · rw [Prod.mk.injEq] at h
        obtain ⟨-, rfl⟩ := h
        exact pushed rfl
    | nothing => simp [installStep] at h
    | patch bytes => simp [installStep] at h
    | table storage => simp [installStep] at h
  | vtable vtable i detour =>
    simp only [installStep] at h
    split at h
    · simp at h
    · rw [Prod.mk.injEq] at h
      obtain ⟨-, rfl⟩ := h
      exact pushed rfl
  | vtableInstance object len i detour =>
    cases reserved with
    | table storage =>
      simp only [installStep] at h
      split at h
      · simp at h
      · rw [Prod.mk.injEq] at h
        obtain ⟨-, rfl⟩ := h
        exact pushed rfl
    | nothing => simp [installStep] at h
    | patch bytes => simp [installStep] at h
    | eat prepared => simp [installStep] at h
  | detach target =>
    simp only [installStep] at h
    split at h
    · simp at h
    · rw [Prod.mk.injEq] at h
      obtain ⟨-, rfl⟩ := h
      exact ⟨rfl, fun i mem => mem⟩

theorem PendingHook.eq_inline {hook : PendingHook} {d : InlineData}
    (h : hook.inlineData = some d) : hook = .inline d := by
  cases hook with
  | inline e => rw [Option.some.inj h]
  | _ => exact absurd h nofun

/-- The thread could be suspended and its context can be read. -/
def CommitOs.Tracks (os : CommitOs) (t : ℕ) : Prop :=
  t ∈ os.threads ∧ ∀ index, os.getContext index t = true

/-- The install loop: `done` are the hooks whose passes came before. -/
theorem installAll_passes {entries : List (PendingHook × Reserved)} {index : ℕ} {w w' : Window}
    (h : installAll M os index entries w = (none, w')) {done : List InlineData}
    (self : ∀ d ∈ (entries.map Prod.fst).filterMap PendingHook.inlineData, d.Clears d)
    (pairs : ((entries.map Prod.fst).filterMap PendingHook.inlineData).Pairwise
      fun d e => e.Clears d)
    (before : ∀ d ∈ done, ∀ e ∈ (entries.map Prod.fst).filterMap PendingHook.inlineData, e.Clears d)
    (clear : ∀ d ∈ done, ∀ t, os.Tracks t →
      ¬ InRange d.target d.stolenLen (w.redirects.threads.ip t))
    (known : ∀ i, .inline i ∈ w.installed →
      ∃ d ∈ done, i.target = d.target ∧ i.stolenLen = d.stolenLen) :
    (∀ t, Carried (fun _ => IpStep) (installPasses M os index entries w)
      (w.redirects.threads.ip t) (w'.redirects.threads.ip t)) ∧
    (∀ slot, Carried StackStep (installPasses M os index entries w)
      (w.redirects.threads.stack slot) (w'.redirects.threads.stack slot)) ∧
    ∀ i, .inline i ∈ w'.installed → ∀ t, os.Tracks t →
      ¬ InRange i.target i.stolenLen (w'.redirects.threads.ip t) := by
  induction entries generalizing index w done with
  | nil =>
    rw [installAll, Prod.mk.injEq] at h
    obtain ⟨-, rfl⟩ := h
    refine ⟨fun t => .nil _, fun slot => .nil _, fun i mem t tracks => ?_⟩
    obtain ⟨d, old, target, len⟩ := known i mem
    rw [target, len]
    exact clear d old t tracks
  | cons entry rest ih =>
    obtain ⟨hook, reserved⟩ := entry
    rw [installAll] at h
    cases step : installStep M index hook reserved os w with
    | mk outcome w₁ =>
      rw [step] at h
      cases outcome with
      | error e => simp at h
      | ok _ =>
        simp only at h
        cases kind : hook.inlineData with
        | none =>
          obtain ⟨same, old⟩ := installStep_redirects kind step
          simp only [List.map_cons, List.filterMap_cons, kind] at self pairs before
          have later := ih h self pairs before (same ▸ clear) fun i mem => known i (old i mem)
          rw [same] at later
          have none : installPasses M os index ((hook, reserved) :: rest) w =
              installPasses M os (index + 1) rest w₁ := by
            rw [installPasses, kind, step]
            rfl
          rw [none]
          exact later
        | some d =>
          obtain rfl := PendingHook.eq_inline kind
          have first : installPasses M os index ((.inline d, reserved) :: rest) w =
              (w.process.code.mem, d) :: installPasses M os (index + 1) rest w₁ := by
            rw [installPasses, kind, step]
            rfl
          simp only [List.map_cons, List.filterMap_cons, kind, List.forall_mem_cons,
            List.pairwise_cons] at self pairs before
          have installed : installInline index d reserved os w = (.ok (), w₁) := by
            simp only [installStep] at step
            split at step
            · simp at step
            · rename_i w₂ eq
              obtain rfl : w₂ = w₁ := (Prod.mk.inj step).2
              exact eq
          obtain ⟨pass, outside, hook, target, len, grown⟩ := installInline_passes self.1 installed
          have stays : ∀ e ∈ done, ∀ t, os.Tracks t →
              ¬ InRange e.target e.stolenLen (w₁.redirects.threads.ip t) := by
            intro e old t tracks
            rcases pass.ip t with same | ⟨_, moved⟩
            · rw [same]
              exact clear e old t tracks
            · exact (before e old).1 _ _ moved
          have later := @ih (index + 1) w₁ h (d :: done) self.2 pairs.2
            (List.forall_mem_cons.mpr ⟨pairs.1, fun e old => (before e old).2⟩)
            (List.forall_mem_cons.mpr
              ⟨fun t tracks => outside t tracks.1 (tracks.2 index), stays⟩)
            (fun i mem => by
              rw [grown] at mem
              rcases List.mem_append.mp mem with mem | mem
              · obtain ⟨e, old, same⟩ := known i mem
                exact ⟨e, List.mem_cons_of_mem d old, same⟩
              · obtain rfl : i = hook := by simpa using mem
                exact ⟨d, List.mem_cons_self, target, len⟩)
          rw [first]
          exact ⟨fun t => .cons (pass.ip t) (later.1 t),
            fun slot => .cons (pass.stack slot) (later.2.1 slot), later.2.2⟩

theorem map_fst_zip_sublist {α β : Type} (l : List α) (l' : List β) :
    ((l.zip l').map Prod.fst).Sublist l := by
  induction l generalizing l' with
  | nil => exact List.Sublist.refl []
  | cons a rest ih =>
    cases l' with
    | nil => exact List.nil_sublist _
    | cons b rest' => exact (ih rest').cons_cons a

theorem mem_publishAll {i : InlineHook} {hooks : List Hook} {c : Code}
    (mem : .inline i ∈ (publishAll c hooks).2) :
    ∃ j : InlineHook, .inline j ∈ hooks ∧ i.target = j.target ∧ i.stolenLen = j.stolenLen := by
  induction hooks generalizing c with
  | nil => exact absurd mem List.not_mem_nil
  | cons hook rest ih =>
    rcases List.mem_cons.mp mem with same | mem
    · cases hook with
      | inline j =>
        refine ⟨j, List.mem_cons_self, ?_⟩
        obtain rfl : i = { j with published := true } := Hook.inline.inj same
        exact ⟨rfl, rfl⟩
      | iat | eat | vtable | vtableInstance => exact absurd same nofun
    · obtain ⟨j, old, same⟩ := ih mem
      exact ⟨j, List.mem_cons_of_mem _ old, same⟩

/-- What a commit that succeeds has done. -/
theorem commit_passes {foreign : List Region} {pending : List PendingHook} {p p' : Process}
    {threads threads' : Threads} {hooks : List Hook}
    (h : commit M foreign pending os p threads = (.ok hooks, p', threads'))
    (self : ∀ d ∈ pending.filterMap PendingHook.inlineData, d.Clears d)
    (pairs : (pending.filterMap PendingHook.inlineData).Pairwise fun d e => e.Clears d) :
    (∀ t, Carried (fun _ => IpStep) (commitPasses M foreign pending os p threads)
      (threads.ip t) (threads'.ip t)) ∧
    (∀ slot, Carried StackStep (commitPasses M foreign pending os p threads)
      (threads.stack slot) (threads'.stack slot)) ∧
    ∀ i, .inline i ∈ hooks → ∀ t, os.Tracks t → ¬ InRange i.target i.stolenLen (threads'.ip t) := by
  unfold commit at h
  unfold commitPasses
  cases reserves : reserveAll M foreign os [] [] pending p with
  | mk outcome p₁ =>
    rw [reserves] at h
    cases outcome with
    | error e => simp at h
    | ok reserved =>
      simp only at h ⊢
      cases orphan : orphaned p₁.code pending with
      | some index =>
        rw [orphan] at h
        simp at h
      | none =>
        rw [orphan] at h
        simp only at h
        cases installs : installAll M os 0 (pending.zip reserved)
            ⟨p₁, ⟨threads, [], []⟩, [], [], []⟩ with
        | mk failure w =>
          rw [installs] at h
          cases failure with
          | some e => simp at h
          | none =>
            simp only [Prod.mk.injEq, Except.ok.injEq] at h
            obtain ⟨rfl, -, rfl⟩ := h
            have sub := (map_fst_zip_sublist pending reserved).filterMap PendingHook.inlineData
            have none : ∀ d ∈ ([] : List InlineData), False := fun d mem => List.not_mem_nil mem
            obtain ⟨ips, words, clear⟩ := @installAll_passes M os _ _ _ _ installs []
              (fun d mem => self d (sub.mem mem)) (pairs.sublist sub)
              (fun d mem => (none d mem).elim) (fun d mem => (none d mem).elim)
              (fun i mem => absurd mem List.not_mem_nil)
            refine ⟨ips, words, fun i mem t tracks => ?_⟩
            obtain ⟨j, old, target, len⟩ := mem_publishAll mem
            rw [target, len]
            exact clear j old t tracks

end Commit

/-! ### Stubs of queued hooks -/

/-- The offsets the external encoder reports are those of instructions in its code. -/
def Codec.OffsetsInside (C : Codec) : Prop :=
  ∀ {block at_ out k o}, C.encode block at_ = some out →
    out.newInstructionOffsets.getD k none = some o → o < out.code.length

/-- The address `x'` is the relocated copy of the stolen instruction at `x`: the place the encoder
reports for the block instruction that carries its address.  A gateway stub is copied as it is. -/
def InlineData.IsCopy (C : Codec) (d : InlineData) (x x' : ℕ) : Prop :=
  match d.targetKind with
  | .managedGateway => x' = d.redirectBase + (x - d.target)
  | .normal => ∃ m decoded block out i k b o, read m d.target d.stolenLen = d.origBytes ∧
      Disassembler.stolenBlock C m d.target d.stolenLen = some (decoded, block) ∧
      C.encode block d.redirectBase = some out ∧ i ∈ decoded ∧ i.ip = x ∧
      block[k]? = some b ∧ BlockInstr.ip? b = some x ∧
      out.newInstructionOffsets.getD k none = some o ∧ x' = d.redirectBase + o

/-- Threads are sent into the stub of a hook, to the copy of their instruction. -/
structure InlineData.Built (C : Codec) (d : InlineData) (r : Region) : Prop where
  lands : ∀ {x x'}, mapRedirectAddressExact d x = .ok (some x') → r.Covers x'
  copies : ∀ {x x'}, mapRedirectAddressExact d x = .ok (some x') → d.IsCopy C x x'

/-- The stolen bytes are mapped: they belong to the process or to a stub. -/
def InlineData.Mapped (foreign : List Region) (c : Code) (d : InlineData) : Prop :=
  ∀ x, InRange d.target d.stolenLen x → ∃ r ∈ foreign ++ c.allocs, r.Covers x

section Attached

variable {C : Codec} {foreign : List Region} {c c' : Code} {pending queued : List PendingHook}
  {target detour g : ℕ} {follow : Bool} {os : AttachOs} {d : InlineData}

/-- Where a hook that relocates sends an address: to the new offset of the instruction there. -/
theorem mapRedirectAddressExact_normal {map : RedirectMap} {x x' : ℕ}
    (normal : d.targetKind = .normal) (redirects : d.redirectMap = some map)
    (h : mapRedirectAddressExact d x = .ok (some x')) :
    d.target ≤ x ∧ ∃ n, map.oldInstructionOffsets[n]? = some (x - d.target) ∧
      x' = d.redirectBase + map.newInstructionOffsets.getD n 0 := by
  unfold mapRedirectAddressExact at h
  by_cases outside : ¬ InRange d.target d.stolenLen x
  · rw [if_pos outside] at h
    simp at h
  rw [if_neg outside, normal, redirects] at h
  simp only at h
  by_cases large : 2 ^ 32 ≤ x - d.target
  · rw [if_pos large] at h
    simp at h
  rw [if_neg large] at h
  cases found : map.oldInstructionOffsets.findIdx? fun o => o = x - d.target with
  | none =>
    rw [found] at h
    simp at h
  | some n =>
    rw [found] at h
    simp only at h
    by_cases lost : map.newInstructionOffsets.getD n 0 = 2 ^ 32 - 1
    · rw [if_pos lost] at h
      simp at h
    rw [if_neg lost] at h
    obtain ⟨below, holds, -⟩ := List.findIdx?_eq_some_iff_getElem.mp found
    refine ⟨(not_not.mp outside).1, n, ?_, ?_⟩
    · rw [List.getElem?_eq_getElem below]
      exact congrArg some (of_decide_eq_true holds)
    · exact (Option.some.inj (Except.ok.inj h)).symm

theorem attachNormal_built (laws : C.Decodes) (inside : C.OffsetsInside)
    (h : attachNormal C foreign c pending target detour os = (.ok g, c', pending ++ [.inline d]))
    (mapped : d.Mapped foreign c) : ∃ r, c.Free foreign r ∧ d.Built C r := by
  obtain ⟨rfl, normal, measured, -, r, relocation, free, base, relocated, map, orig⟩ :=
    attachNormal_eq_ok h
  have apart : ∀ x, InRange d.target d.stolenLen x → ¬ r.Covers x := by
    intro x stolen
    obtain ⟨r', mem, covers⟩ := mapped x stolen
    have apart : r.Apart r' := by
      rcases List.mem_append.mp mem with mem | mem
      · exact free.2.2.2.2 r' mem
      · exact free.2.2.2.1 r' mem
    exact fun mine => apart.symm.notMem covers mine
  have same : read (c.allocate r).mem d.target d.stolenLen = d.origBytes := by
    rw [orig apart]
    exact read_congr fun x stolen => Code.allocate_mem_of_notMem (apart x stolen)
  obtain ⟨decoded, block, index, out, stolen, decodes, emitted, encoded, offsets, code, old⟩ :=
    Disassembler.relocate_eq_some relocated
  have place : ∀ {x x'}, mapRedirectAddressExact d x = .ok (some x') →
      ∃ i k b o, i ∈ decoded ∧ i.ip = x ∧
        (block ++ [.jmp (d.target + d.stolenLen)])[k]? = some b ∧ BlockInstr.ip? b = some x ∧
        out.newInstructionOffsets.getD k none = some o ∧ x' = d.redirectBase + o := by
    intro x x' moved
    obtain ⟨low, n, at_, rfl⟩ := mapRedirectAddressExact_normal normal map moved
    simp only [old, List.getElem?_map, Option.map_eq_some_iff] at at_
    obtain ⟨i, found, offset⟩ := at_
    have above := ((Disassembler.decodeAll_leading decodes).ips laws).2 i (List.mem_of_getElem? found)
    obtain rfl : i.ip = x := by omega
    obtain ⟨k, b, position, emits, ip⟩ := emitted.index_ip n i found
    rw [Nat.zero_add] at position
    obtain ⟨o, reported, new⟩ := Disassembler.getElem?_mapM offsets position
    refine ⟨i, k, b, o, List.mem_of_getElem? found, rfl, ?_, ip, reported, ?_⟩
    · rw [List.getElem?_append_left (List.getElem?_eq_some_iff.mp emits).1]
      exact emits
    · rw [List.getD_eq_getElem?_getD, new, Option.getD_some]
  refine ⟨r, free, ⟨fun {x x'} moved => ?_, fun {x x'} moved => ?_⟩⟩
  · obtain ⟨_, _, _, o, _, _, _, _, reported, rfl⟩ := place moved
    have below := inside encoded reported
    have fits := Disassembler.relocate_fits relocated
      (Disassembler.getInstructionLen_le_max measured (selectJump_size_le _ _))
    rw [RelocationMapping.writtenLen, code] at fits
    have page := Region.page_le_mapped free.2.1
    rw [base]
    exact ⟨by omega, by omega⟩
  · obtain ⟨i, k, b, o, mem, ip, at_, carries, reported, same'⟩ := place moved
    rw [InlineData.IsCopy, normal]
    exact ⟨_, decoded, _, out, i, k, b, o, same, stolen, encoded, mem, ip, at_, carries, reported,
      same'⟩

theorem attachGateway_built
    (h : attachGateway foreign c pending target detour os = (.ok g, c', pending ++ [.inline d])) :
    ∃ r, c.Free foreign r ∧ d.Built C r := by
  have refused : ∀ {e : Except DetourError ℕ} {c₁ : Code},
      (e, c₁, pending) ≠ (.ok g, c', pending ++ [.inline d]) := by
    intro e c₁ eq
    simp at eq
  unfold attachGateway at h
  cases earlier : queuedInline pending target detour with
  | some queued =>
    rw [earlier] at h
    exact absurd h refused
  | none =>
    rw [earlier] at h
    simp only at h
    cases previous : readManagedGatewayTarget c.mem target with
    | none =>
      rw [previous] at h
      exact absurd h refused
    | some dest =>
      rw [previous] at h
      simp only at h
      cases alloc : c.allocNearbyTrampoline foreign os.stubAt gatewayStubSize with
      | none =>
        rw [alloc] at h
        exact absurd h refused
      | some ct =>
        obtain ⟨c₁, t⟩ := ct
        rw [alloc] at h
        obtain ⟨-, free, -⟩ := Code.allocNearbyTrampoline_eq_some alloc
        simp only [Prod.mk.injEq, List.append_cancel_left_eq, List.cons.injEq,
          PendingHook.inline.injEq, and_true] at h
        obtain ⟨-, -, rfl⟩ := h
        have page := Region.page_le_mapped free.2.1
        have small : managedGatewayLen ≤ pageSize := by decide
        have place : ∀ {x x'}, mapRedirectAddressExact
            { target, detour, trampoline := t, stolenLen := managedGatewayLen
              jumpType := selectJump target detour
              origBytes := read (c₁.store t.ptr (managedGatewayStub dest) none).mem target
                managedGatewayLen
              redirectBase := t.ptr, targetKind := .managedGateway, redirectMap := none } x =
              .ok (some x') → InRange target managedGatewayLen x ∧ x' = t.ptr + (x - target) := by
          intro x x' moved
          unfold mapRedirectAddressExact at moved
          by_cases outside : ¬ InRange target managedGatewayLen x
          · rw [if_pos outside] at moved
            simp at moved
          · rw [if_neg outside] at moved
            exact ⟨not_not.mp outside, (Option.some.inj (Except.ok.inj moved)).symm⟩
        refine ⟨t.region, free, ⟨fun {x x'} moved => ?_, fun {x x'} moved => (place moved).2⟩⟩
        obtain ⟨⟨low, high⟩, rfl⟩ := place moved
        change t.ptr ≤ _ ∧ _ < t.ptr + t.region.mapped
        omega

theorem attachGateway_queued
    (h : attachGateway foreign c pending target detour os = (.ok g, c', queued)) :
    queued = pending ∨ ∃ d, queued = pending ++ [.inline d] := by
  unfold attachGateway at h
  split at h
  · exact .inl (Prod.mk.inj (Prod.mk.inj h).2).2.symm
  split at h
  · exact .inl (Prod.mk.inj (Prod.mk.inj h).2).2.symm
  split at h
  · exact .inl (Prod.mk.inj (Prod.mk.inj h).2).2.symm
  · exact .inr ⟨_, (Prod.mk.inj (Prod.mk.inj h).2).2.symm⟩

theorem attachNormal_queued
    (h : attachNormal C foreign c pending target detour os = (.ok g, c', queued)) :
    queued = pending ∨ ∃ d, queued = pending ++ [.inline d] := by
  unfold attachNormal at h
  split at h
  · exact .inl (Prod.mk.inj (Prod.mk.inj h).2).2.symm
  simp only at h
  split at h
  · exact .inl (Prod.mk.inj (Prod.mk.inj h).2).2.symm
  split at h
  · exact .inl (Prod.mk.inj (Prod.mk.inj h).2).2.symm
  split at h
  · exact .inl (Prod.mk.inj (Prod.mk.inj h).2).2.symm
  split at h
  · exact .inl (Prod.mk.inj (Prod.mk.inj h).2).2.symm
  split at h
  · exact .inl (Prod.mk.inj (Prod.mk.inj h).2).2.symm
  · exact .inr ⟨_, (Prod.mk.inj (Prod.mk.inj h).2).2.symm⟩

/-- A successful attach finds the hook queued, or queues one whose stub is fresh. -/
theorem attachInner_built (laws : C.Decodes) (inside : C.OffsetsInside)
    (h : attachInner C foreign c pending target detour follow os = (.ok g, c', queued))
    (mapped : ∀ d, .inline d ∈ queued → d.Mapped foreign c) :
    queued = pending ∨
      ∃ d r, queued = pending ++ [.inline d] ∧ c.Free foreign r ∧ d.Built C r := by
  unfold attachInner at h
  split_ifs at h with null chained gateway
  · simp at h
  · simp at h
  · rcases attachGateway_queued h with same | ⟨d, rfl⟩
    · exact .inl same
    · obtain ⟨r, free, built⟩ := attachGateway_built h
      exact .inr ⟨d, r, rfl, free, built⟩
  · simp only at h
    split_ifs at h with zero
    · simp at h
    · rcases attachNormal_queued h with same | ⟨d, rfl⟩
      · exact .inl same
      · obtain ⟨r, free, built⟩ := attachNormal_built laws inside h (mapped d (by simp))
        exact .inr ⟨d, r, rfl, free, built⟩

/-- A fresh stub does not lie over mapped bytes. -/
theorem InlineData.Built.clears {e : InlineData} {r : Region} (built : d.Built C r)
    (free : c.Free foreign r) (mapped : e.Mapped foreign c) : d.Clears e := by
  intro x x' moved stolen
  obtain ⟨r', mem, covers⟩ := mapped x' stolen
  have apart : r.Apart r' := by
    rcases List.mem_append.mp mem with mem | mem
    · exact free.2.2.2.2 r' mem
    · exact free.2.2.2.1 r' mem
  exact apart.symm.notMem covers (built.lands moved)

end Attached

/-! ### How the queue was filled -/

/-- A queue filled by the operations of a transaction, whatever else happens to the code between
them.  While a hook is queued the code of every target is mapped. -/
inductive Queue (C : Codec) (foreign : List Region) : List PendingHook → Prop
  | nil : Queue C foreign []
  | attach {pending queued : List PendingHook} {c c' : Code} {target detour g : ℕ} {follow : Bool}
      {os : AttachOs} : Queue C foreign pending →
      attachInner C foreign c pending target detour follow os = (.ok g, c', queued) →
      (∀ d, .inline d ∈ queued → d.Mapped foreign c) → Queue C foreign queued
  | other {pending : List PendingHook} (hook : PendingHook) : Queue C foreign pending →
      hook.inlineData = none → Queue C foreign (pending ++ [hook])

theorem mem_filterMap_inlineData {pending : List PendingHook} {d : InlineData} :
    d ∈ pending.filterMap PendingHook.inlineData ↔ .inline d ∈ pending := by
  rw [List.mem_filterMap]
  exact ⟨fun ⟨_, mem, is⟩ => PendingHook.eq_inline is ▸ mem, fun mem => ⟨_, mem, rfl⟩⟩

/-- No hook of a queue sends threads into its own stolen bytes or those of an earlier one, and each
sends them to the copies of their instructions. -/
theorem Queue.clears {C : Codec} {foreign : List Region} {pending : List PendingHook}
    (queue : Queue C foreign pending) (laws : C.Decodes) (inside : C.OffsetsInside) :
    (∀ d ∈ pending.filterMap PendingHook.inlineData, d.Clears d ∧
      ∀ {x x'}, mapRedirectAddressExact d x = .ok (some x') → d.IsCopy C x x') ∧
    (pending.filterMap PendingHook.inlineData).Pairwise fun d e => e.Clears d := by
  induction queue with
  | nil => exact ⟨fun d mem => absurd mem List.not_mem_nil, List.Pairwise.nil⟩
  | other hook _ plain ih => simpa [plain] using ih
  | @attach pending queued c c' target detour g follow os _ attached mapped ih =>
    rcases attachInner_built laws inside attached mapped with rfl | ⟨d, r, rfl, free, built⟩
    · exact ih
    · have mine : d.Mapped foreign c := mapped d (by simp)
      simp only [List.filterMap_append, List.filterMap_cons, PendingHook.inlineData,
        List.filterMap_nil]
      refine ⟨fun e mem => ?_, ?_⟩
      · rcases List.mem_append.mp mem with old | new
        · exact ih.1 e old
        · rw [List.mem_singleton.mp new]
          exact ⟨built.clears free mine, built.copies⟩
      · refine List.pairwise_append.mpr ⟨ih.2, List.pairwise_singleton _ _, fun e old f new => ?_⟩
        rw [List.mem_singleton.mp new]
        refine built.clears free (mapped e (List.mem_append_left _ ?_))
        exact mem_filterMap_inlineData.mp old

/-! ### The commit -/

/-- What the claim of a hook's pass is: an instruction pointer inside the stolen bytes goes to the
copy of its instruction. -/
def IpMove (C : Codec) (_ : ℕ → UInt8) (d : InlineData) (x x' : ℕ) : Prop :=
  x' = x ∨ InRange d.target d.stolenLen x ∧ d.IsCopy C x x'

/-- A stack word behind bytes that read as a call goes to the copy of the instruction it points
at. -/
def StackMove (C : Codec) (mem : ℕ → UInt8) (d : InlineData) (x x' : ℕ) : Prop :=
  x' = x ∨ isPlausibleReturnAddress mem d x = true ∧ d.IsCopy C x x'

theorem mem_installPasses {M : Modules} {os : CommitOs} {entries : List (PendingHook × Reserved)}
    {index : ℕ} {w : Window} {q : (ℕ → UInt8) × InlineData}
    (mem : q ∈ installPasses M os index entries w) :
    q.2 ∈ (entries.map Prod.fst).filterMap PendingHook.inlineData := by
  induction entries generalizing index w with
  | nil => exact absurd mem List.not_mem_nil
  | cons entry rest ih =>
    obtain ⟨hook, reserved⟩ := entry
    rw [installPasses] at mem
    rw [List.map_cons, mem_filterMap_inlineData, List.mem_cons]
    rcases List.mem_append.mp mem with mem | mem
    · left
      simp only [Option.mem_toList, Option.map_eq_some_iff] at mem
      obtain ⟨d, is, rfl⟩ := mem
      exact (PendingHook.eq_inline is).symm
    · exact .inr (mem_filterMap_inlineData.mp (ih mem))

theorem mem_commitPasses {M : Modules} {foreign : List Region} {pending : List PendingHook}
    {os : CommitOs} {p : Process} {threads : Threads} {q : (ℕ → UInt8) × InlineData}
    (mem : q ∈ commitPasses M foreign pending os p threads) :
    q.2 ∈ pending.filterMap PendingHook.inlineData := by
  unfold commitPasses at mem
  split at mem
  · exact absurd mem List.not_mem_nil
  · exact ((map_fst_zip_sublist pending _).filterMap _).mem (mem_installPasses mem)

/-- After a commit that succeeds no thread that was suspended and read has its instruction pointer
in a patch of the commit; each pass moves instruction pointers and stack words only to the copies of
the instructions they point at; and a stack word stays unless some pass finds bytes before it that
read as a call ending there, strictly inside the stolen bytes. -/
theorem commit_redirects {C : Codec} (laws : C.Decodes) (inside : C.OffsetsInside) {M : Modules}
    {foreign : List Region} {pending : List PendingHook} (queue : Queue C foreign pending)
    {os : CommitOs} {p p' : Process} {threads threads' : Threads} {hooks : List Hook}
    (committed : commit M foreign pending os p threads = (.ok hooks, p', threads')) :
    (∀ i, .inline i ∈ hooks → ∀ t, os.Tracks t →
      ¬ InRange i.target i.stolenLen (threads'.ip t)) ∧
    (∀ t, Carried (IpMove C) (commitPasses M foreign pending os p threads)
      (threads.ip t) (threads'.ip t)) ∧
    (∀ slot, Carried (StackMove C) (commitPasses M foreign pending os p threads)
      (threads.stack slot) (threads'.stack slot)) ∧
    ∀ slot, (∀ q ∈ commitPasses M foreign pending os p threads,
        isPlausibleReturnAddress q.1 q.2 (threads.stack slot) = false) →
      threads'.stack slot = threads.stack slot := by
  obtain ⟨each, pairs⟩ := queue.clears laws inside
  obtain ⟨ips, words, clear⟩ := commit_passes committed (fun d mem => (each d mem).1) pairs
  refine ⟨clear, fun t => ?_, fun slot => ?_, fun slot rejected => ?_⟩
  · refine (ips t).mono fun q mem x y step => step.imp_right fun moved => ⟨moved.1, ?_⟩
    exact (each q.2 (mem_commitPasses mem)).2 moved.2
  · refine (words slot).mono fun q mem x y step => step.imp_right fun moved => ⟨moved.1, ?_⟩
    exact (each q.2 (mem_commitPasses mem)).2 moved.2
  · refine (words slot).fixed fun q mem y step => ?_
    rcases step with same | ⟨accepted, _⟩
    · exact same
    · exact absurd ((rejected q mem).symm.trans accepted) nofun

/-! ### A stack word behind a constant -/

/-- A commit of one inline hook. -/
theorem commit_one {M : Modules} {foreign : List Region} {os : CommitOs} {p : Process}
    {threads : Threads} {d : InlineData} {patch : List UInt8} {r : Redirects}
    (free : p.code.overlapsLivePatch d.target d.stolenLen = false)
    (bytes : inlinePatchBytes d.target d.detour d.jumpType d.stolenLen = .ok patch)
    (normal : d.targetKind = .normal) (long : patch.length = d.stolenLen)
    (room : d.target ≠ 0 ∧ patch ≠ [] ∧ os.patchOk 0 = true)
    (pass : redirectAll p.code.mem os.toThreadAnswers d 0 os.threads ⟨threads, [], []⟩ =
      (none, r)) :
    ∃ hooks p', commit M foreign [.inline d] os p threads = (.ok hooks, p', r.threads) := by
  have reserves : reserveAll M foreign os [] [] [.inline d] p = (.ok [.patch patch], p) := by
    have none : overlapsPending [] d.target d.stolenLen = false := rfl
    simp [reserveAll, reserve, none, free, bytes]
  have kept : orphaned p.code [.inline d] = none := by
    simp [orphaned, normal]
  have armed : p.code.armedInRange d.target d.stolenLen = false :=
    (Code.overlapsLivePatch_eq_false.mp free).1
  have writes : ∀ mark, p.code.writeCodeBytes d.target patch mark (os.patchOk 0) =
      some (p.code.store d.target patch mark) := by
    intro mark
    unfold Code.writeCodeBytes
    rw [if_neg]
    simp [room]
  let hook := d.install p.code patch
  have installs : installAll M os 0 ([.inline d].zip [.patch patch])
      ⟨p, ⟨threads, [], []⟩, [], [], []⟩ = (none,
        ⟨{ p with code := p.code.store d.target patch (some (hook.mark p.code)) }, r,
          [.inline hook], [], []⟩) := by
    simp [installAll, installStep, installInline, pass, armed, writes, long, hook]
  unfold commit
  rw [reserves]
  simp only [kept, installs]
  exact ⟨_, _, rfl⟩

/-- The stack of a thread is one run of pages. -/
theorem redirectStack_one {mem : ℕ → UInt8} {os : ThreadAnswers} {d : InlineData}
    {thread region scanned scanned' : ℕ} {r r' : Redirects} {i : Mbi}
    (query : os.query region = some i) (more : region < i.regionEnd) (readable : i.readable = true)
    (slots : redirectSlots mem os d thread
      ((i.regionEnd - nextMultipleOf region wordSize) / wordSize) (nextMultipleOf region wordSize)
      scanned r = (none, scanned', r'))
    (last : os.query i.regionEnd = none) :
    redirectStack mem os d thread i.allocationBase region scanned r = (none, r') := by
  rw [redirectStack, query]
  simp only [ne_eq, not_true, if_false, dif_neg (not_le.mpr more), if_pos readable, slots]
  rw [redirectStack, last]

/-- `mov eax, 0xE82A; ret` at `0x100A`, and at `0x1010` the function `stc; mov eax, 42; ret`. -/
def constantBefore : ℕ → UInt8 :=
  write (fun _ => 0xCC) 0x100A
    [0xB8, 0x2A, 0xE8, 0x00, 0x00, 0xC3, 0xF9, 0xB8, 0x2A, 0x00, 0x00, 0x00, 0xC3]

def constantAttach : Except DetourError ℕ × Code × List PendingHook :=
  attachInner sampleCodec sampleEnv.foreign (State.initial constantBefore sampleTables).process.code
    [] 0x1010 0x3000 true (sampleAttachOs 0x20000)

def constantData : InlineData where
  target := 0x1010
  detour := 0x3000
  trampoline := ⟨0x20000, trampAllocSize⟩
  stolenLen := 6
  jumpType := .relative5
  origBytes := [0xF9, 0xB8, 0x2A, 0x00, 0x00, 0x00]
  redirectBase := 0x20000 + managedGatewayLen
  targetKind := .normal
  redirectMap := some ⟨[0, 1], [0, 1]⟩

def constantProcess : Process := ⟨constantAttach.2.1, sampleTables, []⟩

/-- One thread, with a stack of one word at `0x8000`. -/
def constantOs : CommitOs where
  threads := [7]
  query a := if a = 0x8000 then some ⟨0x8000, 8, 0x8000, true, false⟩ else none
  getContext _ _ := true
  setContext _ _ := true
  threadCapacity := 8
  stackCapacity := 8
  cloneAt _ := none
  stubAt _ := none
  patchOk _ := true
  reenableOk _ := true
  restoreOk _ := true
  undoOk _ := true
  dropOk _ := true
  finalizeOk _ := true
  retargetOk _ := true

/-- The thread is at the `mov`, and its stack holds the address of the `mov`. -/
def constantThreads : Threads where
  ip _ := 0x1011
  sp _ := 0x8000
  stack _ := 0x1011

theorem constant_queue : Queue sampleCodec sampleEnv.foreign [.inline constantData] := by
  have result : constantAttach.1 = .ok 0x20000 := by decide +kernel
  have queued : constantAttach.2.2 = [.inline constantData] := by decide +kernel
  have attached : constantAttach = (.ok 0x20000, constantAttach.2.1, [.inline constantData]) := by
    rw [← result, ← queued]
  refine Queue.attach .nil attached fun d mem x stolen => ?_
  obtain rfl : d = constantData := by simpa using mem
  refine ⟨⟨0x1000, 0xF000⟩, List.mem_append_left _ List.mem_cons_self, ?_⟩
  obtain ⟨low, high⟩ := stolen
  simp only [constantData] at low high
  refine ⟨?_, ?_⟩
  · change 0x1000 ≤ x
    omega
  · change x < 0x1000 + 0xF000
    omega

/-- The commit moves the thread and the word to the copy of the `mov`. -/
theorem constant_commit :
    ∃ hooks p', commit sampleModules sampleEnv.foreign [.inline constantData] constantOs
      constantProcess constantThreads = (.ok hooks, p',
        { constantThreads with
          ip := Function.update constantThreads.ip 7 0x2000F
          stack := Function.update constantThreads.stack 0x8000 0x2000F }) := by
  have moved : mapRedirectAddressExact constantData 0x1011 = .ok (some 0x2000F) := by
    decide +kernel
  have accepted : isPlausibleReturnAddress constantProcess.code.mem constantData 0x1011 = true := by
    decide +kernel
  have pass : redirectAll constantProcess.code.mem constantOs.toThreadAnswers constantData 0
      constantOs.threads ⟨constantThreads, [], []⟩ = (none,
        ⟨{ constantThreads with
            ip := Function.update constantThreads.ip 7 0x2000F
            stack := Function.update constantThreads.stack 0x8000 0x2000F },
          [(7, 0x1011)], [(7, 0x8000, 0x1011)]⟩) := by
    have inside : InRange constantData.target constantData.stolenLen 0x1011 := by decide
    have ip : redirectIp constantOs.toThreadAnswers constantData 0 7 ⟨constantThreads, [], []⟩ =
        (none, ⟨{ constantThreads with ip := Function.update constantThreads.ip 7 0x2000F },
          [(7, 0x1011)], []⟩) := by
      unfold redirectIp
      rw [show constantThreads.ip 7 = 0x1011 from rfl, if_neg (not_not.mpr inside), moved]
      rfl
    have slots : ∀ r : Redirects, r.threads.stack = constantThreads.stack →
        r.redirectedStacks = [] →
        redirectSlots constantProcess.code.mem constantOs.toThreadAnswers constantData 7 1 0x8000 0
          r = (none, 8, { r with
            threads := { r.threads with
              stack := Function.update constantThreads.stack 0x8000 0x2000F }
            redirectedStacks := [(7, 0x8000, 0x1011)] }) := by
      intro r words log
      have word : r.threads.stack 0x8000 = 0x1011 := by rw [words]; rfl
      have step : redirectSlot constantProcess.code.mem constantOs.toThreadAnswers constantData 7
          0x8000 r = (none, { r with
            threads := { r.threads with
              stack := Function.update constantThreads.stack 0x8000 0x2000F }
            redirectedStacks := [(7, 0x8000, 0x1011)] }) := by
        unfold redirectSlot
        simp only [word, accepted, moved, words, log]
        rfl
      rw [redirectSlots, step]
      rfl
    have stack : ∀ r : Redirects, r.threads.stack = constantThreads.stack →
        r.redirectedStacks = [] →
        redirectStack constantProcess.code.mem constantOs.toThreadAnswers constantData 7 0x8000
          0x8000 0 r = (none, { r with
            threads := { r.threads with
              stack := Function.update constantThreads.stack 0x8000 0x2000F }
            redirectedStacks := [(7, 0x8000, 0x1011)] }) := by
      intro r words log
      exact redirectStack_one (i := ⟨0x8000, 8, 0x8000, true, false⟩) rfl (by decide) rfl
        (slots r words log) rfl
    rw [show constantOs.threads = [7] from rfl, redirectAll, redirectRipRelativeThreads,
      if_neg (by decide), ip]
    simp only
    rw [show constantOs.query (constantThreads.sp 7) = some ⟨0x8000, 8, 0x8000, true, false⟩ from rfl]
    simp only
    rw [show constantThreads.sp 7 = 0x8000 from rfl, stack _ rfl rfl]
    rfl
  have patched : inlinePatchBytes constantData.target constantData.detour constantData.jumpType
      constantData.stolenLen = .ok [0xE9, 0xEB, 0x1F, 0, 0, 0x90] := by
    decide +kernel
  exact commit_one (by decide +kernel) patched rfl rfl (by decide) pass

theorem constant_redirected :
    ∃ hooks p' threads', commit sampleModules sampleEnv.foreign [.inline constantData] constantOs
        constantProcess constantThreads = (.ok hooks, p', threads') ∧
      (∀ i, .inline i ∈ hooks → ¬ InRange i.target i.stolenLen (threads'.ip 7)) ∧
      Carried (IpMove sampleCodec) (commitPasses sampleModules sampleEnv.foreign
        [.inline constantData] constantOs constantProcess constantThreads) 0x1011 0x2000F := by
  obtain ⟨hooks, p', committed⟩ := constant_commit
  have tracks : constantOs.Tracks 7 := ⟨List.mem_cons_self, fun _ => rfl⟩
  obtain ⟨clear, moves, -⟩ := commit_redirects sampleCodec_decodes
    (fun encoded reported => sampleCodec_retargets.offset_lt encoded reported) constant_queue
    committed
  exact ⟨hooks, p', _, committed, fun i mem => clear i mem 7 tracks, moves 7⟩

/-- No instruction from `0x100A` to the end of the stolen bytes is a call, and yet the word is
moved: the constant of the first `mov` holds the opcode of one. -/
theorem constant_word_moved :
    ∃ hooks p' threads', commit sampleModules sampleEnv.foreign [.inline constantData] constantOs
        constantProcess constantThreads = (.ok hooks, p', threads') ∧
      (∃ code, Disassembler.decodeAll sampleCodec 12 (read constantProcess.code.mem 0x100A 12)
          0x100A = some code ∧ code.map Instruction.ip = [0x100A, 0x100F, 0x1010, 0x1011] ∧
        ∀ i ∈ code, i.flow ≠ .call ∧ i.flow ≠ .indirectCall) ∧
      constantThreads.stack 0x8000 = 0x1011 ∧ threads'.stack 0x8000 = 0x2000F := by
  obtain ⟨hooks, p', committed⟩ := constant_commit
  have there : Function.update constantThreads.stack 0x8000 0x2000F 0x8000 = 0x2000F :=
    Function.update_self 0x8000 0x2000F constantThreads.stack
  refine ⟨hooks, p', _, committed, ?_, rfl, there⟩
  have decodes : (Disassembler.decodeAll sampleCodec 12 (read constantProcess.code.mem 0x100A 12)
      0x100A).isSome := by
    decide +kernel
  have known : (Disassembler.decodeAll sampleCodec 12 (read constantProcess.code.mem 0x100A 12)
      0x100A).map (fun code => (code.map Instruction.ip,
        code.all fun i => i.flow ≠ .call ∧ i.flow ≠ .indirectCall)) =
      some ([0x100A, 0x100F, 0x1010, 0x1011], true) := by
    decide +kernel
  obtain ⟨code, is⟩ := Option.isSome_iff_exists.mp decodes
  rw [is, Option.map_some, Option.some.injEq, Prod.mk.injEq] at known
  refine ⟨code, is, known.1, fun i mem => ?_⟩
  exact of_decide_eq_true (List.all_eq_true.mp known.2 i mem)

end NeoHook
