import NeoHook.CodeBytes
import NeoHook.Detect

/-!
# Detection over whole runs

NeoHook's own hooks, seen by its own detection.  In every state of a run that restores what it takes,
an enabled inline hook and a breakpoint on a function of a module are reported, and a function whose
first bytes no hook covers is not: hooks that were disabled, detached or dropped leave no trace.
-/

namespace NeoHook

open ByteMap Disk

namespace Detect

namespace Detector

/-- What is reported of a function in a state, against the hooks of the state. -/
structure Reports (D : Detector) (pristine : ℕ → UInt8) (s : State) (image : DiskImage)
    (base func len : ℕ) (first : Instruction) : Prop where
  /-- An enabled hook on a function that is not a jump stub itself; the near jump over an indirect
  call or jump through memory is taken for the loader's. -/
  hooked : ∀ h ∈ s.hooks, h.enabled = true → h.target = func → h.detour ≠ 0 → h.detour < 2 ^ 64 →
    detourCodeFromPointerOnce (isReadableRange .x86_64 D.readableQuery) pristine func = none →
    (h.jumpType = .relative5 → importForm first = false) →
    ∀ d, D.Leads s.process.code.mem h.detour d →
      (D.inlineHook s.process.code.mem func image base).run =
        .ok (if D.isSelfPatch ⟨.inlineJump, func, none, some d, D.moduleNameOf d⟩ then none
          else some ⟨.inlineJump, func, none, some d, D.moduleNameOf d⟩)
  trapped : ∀ t ∈ s.traps, t.target = func → pristine func ≠ int3Opcode →
    (D.inlineHook s.process.code.mem func image base).run =
      .ok (some ⟨.breakpoint, func, none, none, none⟩)
  clean : (∀ h ∈ s.hooks, h.enabled = true → Apart h.target h.stolenLen func len) →
    (∀ t ∈ s.traps, ¬ InRange func len t.target) →
    (D.inlineHook s.process.code.mem func image base).run = .ok none

variable {D : Detector}

theorem read_head {m : ℕ → UInt8} {a n : ℕ} (positive : 0 < n) : (read m a n).take 1 = [m a] := by
  rw [take_read m a positive]
  rfl

/-- In every run that restores what it takes, the detection reports the hooks of the library and
nothing else. -/
theorem detects_hooks {E : Env} {pristine : ℕ → UInt8} {s : State}
    (run : State.Reachable E (fun s op => op.RestoresCode E s) pristine s) (decodes : D.Decodes)
    {image : DiskImage} {base func : ℕ} {sec : Section} (resident : D.Resident image base func sec)
    (own : OwnCode E.foreign func (fileCode image base func sec).length)
    (file : read pristine func (fileCode image base func sec).length =
      fileCode image base func sec)
    {i : Instruction} (first : D.decode (fileCode image base func sec) func = some i) :
    D.Reports pristine s image base func (fileCode image base func sec).length i := by
  obtain ⟨shaped, stubs, ground, laid, outside⟩ := run.overlaid
  have positive : 0 < (fileCode image base func sec).length :=
    lt_of_lt_of_le i.len_pos (decodes.short first).2
  refine ⟨fun h mem on target nonnull word plain direct d leads => ?_, fun t mem target plain => ?_,
    fun hooks traps => ?_⟩
  · have shape := shaped h mem on
    have patch : h.laid ∈ overlays s.hooks s.traps :=
      Multiset.mem_add.2 (.inl (Multiset.mem_map_of_mem _ (Multiset.mem_filter.2 ⟨mem, on⟩)))
    have whole : read s.process.code.mem h.target h.patchBytes.length = h.patchBytes :=
      laid.patched _ patch
    have encoded := shape.encoded
    rw [shape.jump] at encoded direct
    have room := shape.room
    rw [shape.jump] at room
    unfold inlinePatchBytes at encoded
    rw [if_neg (by omega)] at encoded
    have bytes := Except.ok.inj encoded
    rw [target] at whole bytes direct
    refine jump_reported resident decodes file plain first direct ?_ nonnull word leads
    have size : (jumpBytes func h.detour (selectJump func h.detour)).length =
        (selectJump func h.detour).size := length_jumpBytes _ _ _
    rw [← bytes, List.length_append] at whole
    have head := congrArg (List.take (selectJump func h.detour).size) whole
    rw [take_read _ _ (by omega), List.take_append_of_le_length (by omega),
      List.take_of_length_le (by omega)] at head
    exact head
  · have patch : t.laid ∈ overlays s.hooks s.traps :=
      Multiset.mem_add.2 (.inr (Multiset.mem_map_of_mem _ mem))
    have whole : read s.process.code.mem t.target 1 = [int3Opcode] := laid.patched _ patch
    rw [target] at whole
    refine breakpoint_reported resident decodes first ?_ (List.head_eq_of_cons_eq whole)
    rw [← file, read_head positive]
    exact fun same => plain (List.head_eq_of_cons_eq same)
  · have clear := overlays_clear (fun h mem on => ⟨shaped h mem on, hooks h mem on⟩) traps
    refine unchanged_silent resident ?_
    rw [laid.read_bare clear]
    refine (read_congr fun x inside => outside x fun stub => ?_).trans file
    obtain ⟨f, mem, covers⟩ := own x inside
    exact stubs x stub f mem covers

/-! ### A run with two hooks -/

def twoHooksState : State := (State.initial samplePristine sampleTables).run sampleEnv twoHooks

theorem twoHooks_restores :
    State.Reachable sampleEnv (fun s op => op.RestoresCode sampleEnv s) samplePristine
      twoHooksState := by
  refine (State.Reachable.initial sampleTables).along
    ⟨fun _ => trivial, ?_, .of_drops fun _ => rfl, fun _ => ⟨fun _ => ?_, ?_⟩, trivial⟩
  · apply @Op.RestoresCode.of_own _ _ 1 0x1000 0x3000 true (sampleAttachOs 0x20000) 0x1000 5
    · decide +kernel
    · decide +kernel
    · decide +kernel
    · intro x inside
      refine ⟨⟨0x1000, 0xF000⟩, List.mem_cons_self, inside.1, lt_of_lt_of_le inside.2 ?_⟩
      decide
  · exact ⟨⟨0x1000, 0xF000⟩, List.mem_cons_self, by decide⟩
  · intro g none
    cases none

theorem sampleFile_own {func len : ℕ} (above : 0x1000 ≤ func) (below : func + len ≤ 0x10000) :
    OwnCode sampleEnv.foreign func len := by
  intro x inside
  have low := inside.1
  have high := inside.2
  refine ⟨⟨0x1000, 0xF000⟩, List.mem_cons_self, above.trans low, ?_⟩
  · change x < 0x1000 + (0xF000 + (pageSize - 1)) / pageSize * pageSize
    unfold pageSize
    omega

theorem Leads.stay {D : Detector} {m : ℕ → UInt8} {a : ℕ}
    (ends : Arch.x86_64.stubTarget D.readableQuery m a = none) : D.Leads m a a :=
  ⟨fun _ => a, 0, rfl, rfl, by decide, fun i less => absurd less (by omega), ends⟩

/-- The hook on the first function leads into private memory; the second has the breakpoint. -/
theorem twoHooks_reported :
    (sampleDetector.inlineHook twoHooksState.process.code.mem 0x1000 sampleFile 0x1000).run =
        .ok (some ⟨.inlineJump, 0x1000, none, some 0x3000, none⟩) ∧
      (sampleDetector.inlineHook twoHooksState.process.code.mem 0x2000 sampleFile 0x1000).run =
        .ok (some ⟨.breakpoint, 0x2000, none, none, none⟩) := by
  have hooked : 0 < (twoHooksState.hooks.filter fun h =>
      h.enabled = true ∧ h.target = 0x1000 ∧ h.detour = 0x3000).card := by
    decide +kernel
  have trapped : 0 < (twoHooksState.traps.filter fun t => t.target = 0x2000).card := by
    decide +kernel
  have ends : Arch.x86_64.stubTarget sampleDetector.readableQuery twoHooksState.process.code.mem
      0x3000 = none := by
    decide +kernel
  have run := twoHooks_restores
  generalize twoHooksState = s at *
  have first := detects_hooks run sampleDetector_decodes
    (sampleFile_resident 0x1000 ⟨0, 48, 0, 48, true⟩ (by decide) (by decide)
      (by decide) (by decide))
    (sampleFile_own (by decide) (by decide +kernel)) (by decide +kernel)
    (i := ⟨5, by decide, .mov, .next, .register, .immediate32, 0, 0, 0, 42, 0⟩) rfl
  have second := detects_hooks run sampleDetector_decodes
    (sampleFile_resident 0x2000 ⟨0x1000, 48, 48, 48, true⟩ (by decide)
      (by decide) (by decide) (by decide))
    (sampleFile_own (by decide) (by decide +kernel)) (by decide +kernel)
    (i := ⟨5, by decide, .mov, .next, .register, .immediate32, 0, 0, 0, 42, 0⟩) rfl
  obtain ⟨h, mem⟩ := Multiset.card_pos_iff_exists_mem.mp hooked
  obtain ⟨mem, on, target, detour⟩ := Multiset.mem_filter.mp mem
  obtain ⟨t, there⟩ := Multiset.card_pos_iff_exists_mem.mp trapped
  obtain ⟨there, stands⟩ := Multiset.mem_filter.mp there
  have plain : detourCodeFromPointerOnce (isReadableRange .x86_64 sampleDetector.readableQuery)
      samplePristine 0x1000 = none := by
    decide +kernel
  refine ⟨first.hooked h mem on target ?_ ?_ plain (fun _ => rfl) 0x3000 ?_,
    second.trapped t there stands (by decide +kernel)⟩
  · rw [detour]
    decide
  · rw [detour]
    decide
  · rw [detour]
    exact .stay ends

end Detector

end Detect

end NeoHook
