import NeoHook.SignatureAnalysis

/-!
# The paths that the analysis walks

A path of a function is a chain of its instructions from the entry, through fall-through, jumps inside
the function and both sides of conditional branches.  Unless its budget runs out, `Analysis.run` visits
the end of every path with the state that the path leaves there.  So every argument register that some
path reads before it is written is recorded, and the analysis is complete only if no path is left at
an instruction that could not be followed.
-/

namespace NeoHook

namespace Infer

/-! ### Paths -/

/-- The addresses behind an instruction that belong to the function. -/
def Analysis.successors (a : Analysis) (i : Instruction) : List ℕ :=
  match i.flow with
  | .return_ | .exception | .interrupt | .indirectBranch => []
  | .conditionalBranch =>
    if a.isInternal i.nearBranchTarget then [i.nearBranchTarget, i.nextIp] else [i.nextIp]
  | .unconditionalBranch =>
    if i.operands.head? = some .nearBranch ∧ a.isInternal i.nearBranchTarget then
      [i.nearBranchTarget]
    else []
  | .next | .call | .indirectCall | .xbeginXabortXend => [i.nextIp]

/-- A path from the entry of the function to an address. -/
inductive Path (env : Env) (a : Analysis) : List Instruction → ℕ → Prop
  | entry : Path env a [] a.entry
  | next {path : List Instruction} {ip : ℕ} {i : Instruction} {ip' : ℕ} (before : Path env a path ip)
    (decoded : env.decodeAt ip = some i) (follows : ip' ∈ a.successors i) :
    Path env a (path ++ [i]) ip'

/-- The state that a path leaves. -/
def stateAfter (path : List Instruction) : PathState :=
  path.foldl (fun state i => trackState i state) PathState.entry

/-- The instruction reads a register, not as a zeroing idiom or as the push of a register. -/
def Instruction.Reads (i : Instruction) (index : Fin 32) : Prop :=
  i.zeroing = false ∧ i.pushesRegister = false ∧
    ∃ used ∈ i.usedRegisters, used.access.reads = true ∧ regIndex used.register = some index

/-- The instruction writes a register, or calls a function that may. -/
def Instruction.Overwrites (i : Instruction) (index : Fin 32) : Prop :=
  (∃ used ∈ i.usedRegisters, used.access.overwrites = true ∧
      regIndex used.register = some index) ∨
    (i.calls = true ∧ volatile.getLsbD index = true)

/-! ### What a path has written -/

section Written

variable {i : Instruction} {state : PathState} {index : Fin 32}

theorem written_trackStackPointer : (trackStackPointer i state).written = state.written := by
  unfold trackStackPointer
  split <;> rfl

theorem written_trackSpills {copied : Option Origin} :
    (trackSpills i copied state).written = state.written := by
  unfold trackSpills
  split
  · split <;> rfl
  · split <;> rfl
  · rfl

theorem written_hold {origin : Option Origin} : (hold i origin state).written = state.written := by
  unfold hold
  split <;> rfl

theorem written_trackX87 : (trackX87 i state).written = state.written := by
  unfold trackX87
  simp only
  split_ifs <;> rfl

theorem written_writeRegister {used : UsedRegister}
    (written : (writeRegister i state used).written.getLsbD index = true) :
    state.written.getLsbD index = true ∨
      (used.access.overwrites = true ∧ regIndex used.register = some index) := by
  unfold writeRegister at written
  by_cases kept : used.access.overwrites = false
  · rw [if_pos kept] at written
    exact .inl written
  rw [if_neg kept] at written
  cases named : regIndex used.register with
  | none =>
    rw [named] at written
    exact .inl written
  | some other =>
    rw [named] at written
    simp only at written
    by_cases stack : other.val = rsp
    · rw [if_pos stack] at written
      exact .inl written
    · rw [if_neg stack, BitVec.getLsbD_or, Bool.or_eq_true, BitVec.getLsbD_twoPow,
        Bool.and_eq_true, decide_eq_true_eq] at written
      rcases written with before | ⟨-, same⟩
      · exact .inl before
      · exact .inr ⟨by rwa [Bool.not_eq_false] at kept, congrArg some (Fin.ext (of_decide_eq_true same))⟩

theorem written_writeRegisters (used : List UsedRegister)
    (written : (used.foldl (writeRegister i) state).written.getLsbD index = true) :
    state.written.getLsbD index = true ∨
      ∃ u ∈ used, u.access.overwrites = true ∧ regIndex u.register = some index := by
  induction used generalizing state with
  | nil => exact .inl written
  | cons u rest ih =>
    rcases ih written with before | ⟨v, later, writes⟩
    · rcases written_writeRegister before with first | writes
      · exact .inl first
      · exact .inr ⟨u, List.mem_cons_self, writes⟩
    · exact .inr ⟨v, List.mem_cons_of_mem u later, writes⟩

theorem trackWrites_written : (trackWrites i state).written =
    (i.usedRegisters.foldl (writeRegister i)
      (trackSpills i (copySource i state) (trackStackPointer i state))).written := by
  unfold trackWrites
  simp only [written_trackX87, written_hold]
  split
  · split_ifs
    · rfl
    · exact written_hold
  · split_ifs
    · rfl
    · exact written_hold

theorem written_trackWrites (written : (trackWrites i state).written.getLsbD index = true) :
    state.written.getLsbD index = true ∨
      ∃ u ∈ i.usedRegisters, u.access.overwrites = true ∧ regIndex u.register = some index := by
  rw [trackWrites_written] at written
  rcases written_writeRegisters i.usedRegisters written with before | writes
  · rw [written_trackSpills, written_trackStackPointer] at before
    exact .inl before
  · exact .inr writes

/-- Behind an instruction only the registers it overwrites are newly written. -/
theorem written_trackState (written : (trackState i state).written.getLsbD index = true) :
    state.written.getLsbD index = true ∨ i.Overwrites index := by
  unfold trackState at written
  split_ifs at written with calls
  · unfold clobber at written
    simp only [BitVec.getLsbD_or, Bool.or_eq_true] at written
    rcases written with before | clobbered
    · exact (written_trackWrites before).imp_right .inl
    · exact .inr (.inr ⟨calls, clobbered⟩)
  · exact (written_trackWrites written).imp_right .inl

end Written

/-- What is written at the end of a path was written on it. -/
theorem written_stateAfter {path : List Instruction} {index : Fin 32}
    (written : (stateAfter path).written.getLsbD index = true) :
    ∃ i ∈ path, i.Overwrites index := by
  induction path using List.reverseRecOn with
  | nil =>
    have clear : (stateAfter []).written.getLsbD index = false := by
      simp [stateAfter, PathState.entry]
    rw [clear] at written
    cases written
  | append_singleton path i ih =>
    unfold stateAfter at written
    rw [List.foldl_append] at written
    rcases written_trackState written with before | here
    · obtain ⟨j, there, writes⟩ := ih before
      exact ⟨j, List.mem_append_left _ there, writes⟩
    · exact ⟨i, List.mem_append_right _ List.mem_cons_self, here⟩

/-! ### What the analysis keeps -/

/-- What every part of the analysis keeps: the function, the evidence, what made it incomplete, and
that the callees it knows are analysed. -/
structure Analysis.Extends (env : Env) (runCallee : Analysis → Analysis) (a b : Analysis) : Prop where
  entry : b.entry = a.entry
  bounds : b.bounds = a.bounds
  depth : b.depth = a.depth
  regs : ∀ slot : Fin 4, a.regs[slot].used = true → b.regs[slot].used = true
  xmm : ∀ slot : Fin 4, a.xmm[slot].used = true → b.xmm[slot].used = true
  complete : b.complete = true → a.complete = true
  callees : ∀ target use, (target, use) ∈ b.callees →
    (target, use) ∈ a.callees ∨ use = Analysis.calleeOf env runCallee a.depth target

namespace Analysis

section Keeps

variable {env : Env} {runCallee : Analysis → Analysis} {a b c : Analysis} {i : Instruction}
  {state : PathState}

theorem Extends.refl (a : Analysis) : Extends env runCallee a a where
  entry := rfl
  bounds := rfl
  depth := rfl
  regs _ used := used
  xmm _ used := used
  complete := id
  callees _ _ there := .inl there

theorem Extends.trans (first : Extends env runCallee a b) (second : Extends env runCallee b c) :
    Extends env runCallee a c where
  entry := second.entry.trans first.entry
  bounds := second.bounds.trans first.bounds
  depth := second.depth.trans first.depth
  regs slot used := second.regs slot (first.regs slot used)
  xmm slot used := second.xmm slot (first.xmm slot used)
  complete whole := first.complete (second.complete whole)
  callees target use there := by
    rcases second.callees target use there with before | analysed
    · exact first.callees target use before
    · rw [first.depth] at analysed
      exact .inr analysed

theorem Extends.foldl {α : Type} {f : Analysis → α → Analysis} (l : List α)
    (turn : ∀ a x, Extends env runCallee a (f a x)) (a : Analysis) :
    Extends env runCallee a (l.foldl f a) := by
  induction l generalizing a with
  | nil => exact .refl a
  | cons x rest ih => exact (turn a x).trans (ih (f a x))

theorem Extends.internal (extends_ : Extends env runCallee a b) (target : ℕ) :
    b.isInternal target = a.isInternal target := by
  unfold isInternal
  rw [extends_.bounds, extends_.entry]

theorem Extends.successors (extends_ : Extends env runCallee a b) :
    b.successors i = a.successors i := by
  unfold Analysis.successors
  rw [extends_.internal]

theorem Extends.records (extends_ : Extends env runCallee a b) {index : Fin 32}
    (records : a.Records index) : b.Records index where
  regs slot same := extends_.regs slot (records.regs slot same)
  xmm slot same := extends_.xmm slot (records.xmm slot same)

/-- Evidence is changed so that a used argument stays used. -/
theorem extends_evidence {f : Evidence → Evidence} (keeps : ∀ e, e.used = true → (f e).used = true)
    (origin : Origin) : Extends env runCallee a (a.evidence origin f) := by
  unfold evidence
  split
  · rename_i slot
    refine { Extends.refl a with regs := fun other used => ?_ }
    simp only [Fin.getElem_fin, Vector.getElem_set]
    split_ifs with same
    · have : slot = other := Fin.ext same
      subst this
      exact keeps _ used
    · exact used
  · split
    · exact { Extends.refl a with }
    · exact { Extends.refl a with }

theorem extends_xmmEvidence {f : Evidence → Evidence}
    (keeps : ∀ e, e.used = true → (f e).used = true) (slot : Fin 4) :
    Extends env runCallee a (a.xmmEvidence slot f) := by
  refine { Extends.refl a with xmm := fun other used => ?_ }
  unfold xmmEvidence
  simp only [Fin.getElem_fin, Vector.getElem_set]
  split_ifs with same
  · have : slot = other := Fin.ext same
    subst this
    exact keeps _ used
  · exact used

theorem used_merge {e other : Evidence} (used : e.used = true) : (e.merge other).used = true := by
  unfold Evidence.merge
  split_ifs
  · exact used
  · rfl

theorem extends_readRegister (used : UsedRegister) :
    Extends env runCallee a (readRegister i state a used) := by
  unfold readRegister
  split_ifs
  · exact .refl a
  · split
    · exact .refl a
    · split
      · exact .refl a
      · split_ifs
        · split
          · exact extends_xmmEvidence (fun _ _ => rfl) _
          · exact .refl a
        · exact extends_evidence (fun _ _ => rfl) _

theorem extends_readBase (used : UsedMemory) :
    Extends env runCallee a (readBase state a used) := by
  unfold readBase
  split
  · split_ifs
    · refine extends_evidence (fun e used => ?_) _
      exact used
    · exact .refl a
  · exact .refl a

theorem extends_readMemory (used : UsedMemory) :
    Extends env runCallee a (readMemory state a used) := by
  refine (@extends_readBase env runCallee a state used).trans ?_
  unfold readMemory
  simp only
  generalize readBase state a used = b
  split_ifs with reads
  · exact .refl b
  · split
    · exact .refl b
    · split_ifs
      · exact extends_evidence (fun _ _ => rfl) _
      · exact .refl b

theorem extends_readOperands : Extends env runCallee a (a.readOperands i state) := by
  unfold readOperands
  simp only
  refine Extends.trans ?_ (Extends.foldl _ (fun _ used => extends_readMemory used) _)
  split_ifs
  · exact Extends.foldl _ (fun _ used => extends_readRegister used) a
  · exact .refl a

theorem extends_forward {callee : CalleeUse} {tail : Bool} :
    Extends env runCallee a (a.forward callee state tail) := by
  have regs : ∀ (a : Analysis) slot, Extends env runCallee a (forwardReg callee state a slot) := by
    intro a slot
    unfold forwardReg
    split_ifs
    · exact .refl a
    · simp only
      split
      · exact extends_evidence (fun _ => used_merge) _
      · exact .refl a
  have xmm : ∀ (a : Analysis) slot, Extends env runCallee a (forwardXmm callee state a slot) := by
    intro a slot
    unfold forwardXmm
    split_ifs
    · exact extends_xmmEvidence (fun _ => used_merge) _
    · exact .refl a
  have stack : ∀ (a : Analysis) entry, Extends env runCallee a (forwardStack a entry) := by
    intro a entry
    unfold forwardStack
    split_ifs
    · exact extends_evidence (fun _ => used_merge) _
    · exact .refl a
  have registers := (Extends.foldl (List.finRange 4) regs a).trans
    (Extends.foldl (List.finRange 4) xmm _)
  unfold forward
  simp only
  split_ifs
  · exact registers.trans { Extends.foldl callee.stack stack _ with }
  · exact registers

theorem extends_calleeUse (target : ℕ) :
    Extends env runCallee a (a.calleeUse env runCallee target).2 := by
  unfold calleeUse
  by_cases deep : maxDepth ≤ a.depth
  · rw [if_pos deep]
    exact .refl a
  rw [if_neg deep]
  cases a.callees.lookup target with
  | some cached => exact .refl a
  | none =>
    simp only
    by_cases full : maxCallees ≤ a.callees.length
    · rw [if_pos full]
      exact .refl a
    rw [if_neg full]
    refine { @Extends.refl env runCallee a with callees := fun other use there => ?_ }
    rcases List.mem_cons.mp there with same | before
    · cases same
      exact .inr rfl
    · exact .inl before

theorem extends_calleeAt : Extends env runCallee a (a.calleeAt env runCallee i).2 := by
  unfold calleeAt
  split
  · exact extends_calleeUse _
  · exact .refl a

/-- A call only adds to what the operands reveal. -/
theorem extends_step_reads :
    Extends env runCallee (a.readOperands i state) (a.step env runCallee i state).1 := by
  have known := @extends_calleeAt env runCallee (a.readOperands i state) i
  unfold step
  simp only
  split_ifs
  · split
    · rename_i callee b found
      rw [found] at known
      exact known.trans extends_forward
    · rename_i b found
      rw [found] at known
      exact known
  · exact .refl _

theorem extends_step : Extends env runCallee a (a.step env runCallee i state).1 :=
  extends_readOperands.trans extends_step_reads

theorem extends_onReturn : Extends env runCallee a (a.onReturn i state) := by
  unfold onReturn
  simp only
  split_ifs
  all_goals
    split
    · exact { Extends.refl a with }
    · exact { Extends.refl a with }

/-- The callee of a tail jump, analysed to its end. -/
def TailAnalysed (env : Env) (runCallee : Analysis → Analysis) (a : Analysis) (i : Instruction) :
    Prop :=
  ∃ target callee, env.branchTarget i = some target ∧ a.depth < maxDepth ∧
    calleeOf env runCallee a.depth target = some callee ∧ callee.complete = true

/-- All callees that the analysis knows are analysed. -/
def Known (env : Env) (runCallee : Analysis → Analysis) (a : Analysis) : Prop :=
  ∀ target use, (target, use) ∈ a.callees → use = calleeOf env runCallee a.depth target

theorem calleeUse_known (known : a.Known env runCallee) {target : ℕ} {callee : CalleeUse}
    (found : (a.calleeUse env runCallee target).1 = some callee) :
    a.depth < maxDepth ∧ calleeOf env runCallee a.depth target = some callee := by
  unfold calleeUse at found
  by_cases deep : maxDepth ≤ a.depth
  · rw [if_pos deep] at found
    cases found
  rw [if_neg deep] at found
  refine ⟨Nat.lt_of_not_le deep, ?_⟩
  cases cached : a.callees.lookup target with
  | some use =>
    rw [cached] at found
    have there : (target, use) ∈ a.callees := by
      obtain ⟨front, back, split, -⟩ := List.lookup_eq_some_iff.mp cached
      rw [split]
      exact List.mem_append_right _ List.mem_cons_self
    rw [← known target use there]
    exact found
  | none =>
    rw [cached] at found
    simp only at found
    by_cases full : maxCallees ≤ a.callees.length
    · rw [if_pos full] at found
      cases found
    · rw [if_neg full] at found
      exact found

theorem calleeAt_known (known : a.Known env runCallee) {callee : CalleeUse}
    (found : (a.calleeAt env runCallee i).1 = some callee) :
    ∃ target, env.branchTarget i = some target ∧ a.depth < maxDepth ∧
      calleeOf env runCallee a.depth target = some callee := by
  unfold calleeAt at found
  cases target : env.branchTarget i with
  | none =>
    rw [target] at found
    cases found
  | some t =>
    rw [target] at found
    exact ⟨t, rfl, calleeUse_known known found⟩

theorem extends_tailCall : Extends env runCallee a (a.tailCall env runCallee i state) := by
  have known := @extends_calleeAt env runCallee a i
  unfold tailCall
  split
  · rename_i b found
    rw [found] at known
    exact { known with complete := nofun }
  · rename_i callee b found
    rw [found] at known
    have taken : Extends env runCallee a
        { b.forward callee state true with
          complete := (b.forward callee state true).complete && callee.complete } := by
      have passed := known.trans (@extends_forward env runCallee b state callee true)
      refine { passed with complete := fun whole => passed.complete ?_ }
      exact (Bool.and_eq_true _ _ ▸ whole).1
    simp only
    split_ifs
    · exact taken
    · split
      all_goals exact { taken with }

/-- A tail jump leaves the analysis complete only if its callee is analysed to its end. -/
theorem tailAnalysed (known : a.Known env runCallee)
    (whole : (a.tailCall env runCallee i state).complete = true) :
    TailAnalysed env runCallee a i := by
  unfold tailCall at whole
  split at whole
  · cases whole
  · rename_i callee b found
    obtain ⟨target, branch, shallow, analysed⟩ :=
      @calleeAt_known env runCallee a i known callee (by rw [found])
    refine ⟨target, callee, branch, shallow, analysed, ?_⟩
    simp only at whole
    split_ifs at whole
    · exact (Bool.and_eq_true _ _ ▸ whole).2
    · split at whole
      all_goals exact (Bool.and_eq_true _ _ ▸ whole).2

theorem Extends.known (extends_ : Extends env runCallee a b) (known : a.Known env runCallee) :
    b.Known env runCallee := by
  intro target use there
  rw [extends_.depth]
  rcases extends_.callees target use there with before | analysed
  · exact known target use before
  · exact analysed

/-! ### One visit -/

/-- No path is lost at the instruction: a branch stays inside the function, or a tail jump goes to a
callee that is analysed to its end. -/
def Leads (env : Env) (runCallee : Analysis → Analysis) (a : Analysis) (i : Instruction) : Prop :=
  match i.flow with
  | .conditionalBranch => a.isInternal i.nearBranchTarget = true
  | .unconditionalBranch =>
    (i.operands.head? = some .nearBranch ∧ a.isInternal i.nearBranchTarget = true) ∨
      TailAnalysed env runCallee a i
  | .indirectBranch => TailAnalysed env runCallee a i
  | .next | .return_ | .call | .indirectCall | .interrupt | .xbeginXabortXend | .exception => True

theorem Extends.leads (extends_ : Extends env runCallee a b) (leads : b.Leads env runCallee i) :
    a.Leads env runCallee i := by
  unfold Leads TailAnalysed at *
  rw [extends_.internal, extends_.depth] at leads
  exact leads

theorem extends_follow : Extends env runCallee a (a.follow env runCallee i state).acc := by
  unfold follow
  cases i.flow with
  | return_ => exact extends_onReturn
  | conditionalBranch =>
    simp only
    split_ifs
    · exact .refl a
    · exact { @Extends.refl env runCallee a with complete := nofun }
  | unconditionalBranch =>
    simp only
    split_ifs
    · exact .refl a
    · exact extends_tailCall
  | indirectBranch => exact extends_tailCall
  | next | call | indirectCall | interrupt | xbeginXabortXend | exception => exact .refl a

/-- The successors of an instruction are offered. -/
theorem follow_offers {ip : ℕ} (follows : ip ∈ a.successors i) :
    (ip, state) ∈ (a.follow env runCallee i state).later ∨
      (a.follow env runCallee i state).onward = some (ip, state) := by
  unfold successors at follows
  unfold follow
  cases flow : i.flow with
  | return_ | exception | interrupt | indirectBranch =>
    rw [flow] at follows
    cases follows
  | conditionalBranch =>
    rw [flow] at follows
    simp only at follows ⊢
    split_ifs at follows ⊢ with internal
    · rcases List.mem_pair.mp follows with rfl | rfl
      · exact .inl List.mem_cons_self
      · exact .inr rfl
    · rw [List.mem_singleton.mp follows]
      exact .inr rfl
  | unconditionalBranch =>
    rw [flow] at follows
    simp only at follows ⊢
    split_ifs at follows ⊢ with internal
    · rw [List.mem_singleton.mp follows]
      exact .inr rfl
    · cases follows
  | next | call | indirectCall | xbeginXabortXend =>
    rw [flow] at follows
    rw [List.mem_singleton.mp follows]
    exact .inr rfl

theorem leads_of_follow (known : a.Known env runCallee)
    (whole : (a.follow env runCallee i state).acc.complete = true) : a.Leads env runCallee i := by
  unfold follow at whole
  unfold Leads
  cases flow : i.flow with
  | return_ | exception | interrupt | next | call | indirectCall | xbeginXabortXend => trivial
  | conditionalBranch =>
    rw [flow] at whole
    simp only at whole ⊢
    split_ifs at whole with internal
    exact internal
  | unconditionalBranch =>
    rw [flow] at whole
    simp only at whole ⊢
    split_ifs at whole with internal
    · exact .inl internal
    · exact .inr (tailAnalysed known whole)
  | indirectBranch =>
    rw [flow] at whole
    exact tailAnalysed known whole

/-- The read of a register that is not written is recorded. -/
theorem readRegister_records {used : UsedRegister} {index : Fin 32}
    (reads : used.access.reads = true) (named : regIndex used.register = some index)
    (clear : state.written.getLsbD index = false) :
    (readRegister i state a used).Records index := by
  constructor
  · rintro slot rfl
    rw [readRegister_gp reads named clear]
    simp [evidence, Evidence.read]
  · intro slot same
    rw [readRegister_xmm reads named same clear]
    simp [xmmEvidence, Evidence.readAs]

theorem readRegisters_record (env : Env) (runCallee : Analysis → Analysis)
    {registers : List UsedRegister} {used : UsedRegister} {index : Fin 32}
    (there : used ∈ registers) (reads : used.access.reads = true)
    (named : regIndex used.register = some index)
    (clear : state.written.getLsbD index = false) :
    (registers.foldl (readRegister i state) a).Records index := by
  induction registers generalizing a with
  | nil => cases there
  | cons first rest ih =>
    rcases List.mem_cons.mp there with rfl | later
    · have behind := @Extends.foldl env runCallee _ (readRegister i state) rest
        (fun _ other => extends_readRegister other) (readRegister i state a used)
      exact behind.records (readRegister_records reads named clear)
    · exact ih later

/-- The registers that an instruction reads before they are written are recorded. -/
theorem step_records {index : Fin 32} (reads : i.Reads index)
    (clear : state.written.getLsbD index = false) :
    (a.step env runCallee i state).1.Records index := by
  obtain ⟨idiom, push, used, there, access, named⟩ := reads
  refine (@extends_step_reads env runCallee a i state).records ?_
  have registers := readRegisters_record (a := a) (i := i) env runCallee there access named clear
  unfold readOperands
  rw [if_pos ⟨idiom, push⟩]
  exact (@Extends.foldl env runCallee _ (readMemory state) i.usedMemory
    (fun _ memory => extends_readMemory memory) _).records registers

end Keeps

/-! ### The run -/

/-- What a visit of a node leaves: the arguments read there are recorded, and the analysis is only
complete if no path is lost there. -/
structure Noted (env : Env) (runCallee : Analysis → Analysis) (a : Analysis) (node : Node)
    (acc : Analysis) : Prop where
  reads : ∀ i index, env.decodeAt node.1 = some i → i.Reads index →
    node.2.written.getLsbD index = false → acc.Records index
  whole : acc.complete = true → ∃ i, env.decodeAt node.1 = some i ∧ a.Leads env runCallee i

/-- The nodes behind a node. -/
def Next (env : Env) (a : Analysis) (node node' : Node) : Prop :=
  ∃ i, env.decodeAt node.1 = some i ∧ node'.1 ∈ a.successors i ∧
    node'.2 = trackState i node.2

section Run

variable {env : Env} {runCallee : Analysis → Analysis} {a acc : Analysis}

theorem extends_visit (node : Node) :
    Extends env runCallee acc (acc.visit env runCallee node).acc := by
  unfold visit
  split
  · exact { @Extends.refl env runCallee acc with complete := nofun }
  · exact extends_step.trans extends_follow

theorem visit_notes (known : a.Known env runCallee) (extends_ : Extends env runCallee a acc)
    (node : Node) : Noted env runCallee a node (acc.visit env runCallee node).acc := by
  unfold visit
  cases decoded : env.decodeAt node.1 with
  | none =>
    refine ⟨fun i index own => ?_, nofun⟩
    rw [decoded] at own
    cases own
  | some i =>
    simp only
    have stepped := extends_.trans (@extends_step env runCallee acc i node.2)
    refine ⟨fun j index own reads clear => ?_, fun whole => ⟨i, decoded, ?_⟩⟩
    · rw [decoded] at own
      cases own
      exact (@extends_follow env runCallee _ i _).records (step_records reads clear)
    · exact stepped.leads (leads_of_follow (stepped.known known) whole)

theorem visit_offers (extends_ : Extends env runCallee a acc) {node node' : Node}
    (next : Next env a node node') :
    node' ∈ (acc.visit env runCallee node).later ∨
      (acc.visit env runCallee node).onward = some node' := by
  obtain ⟨i, decoded, follows, state⟩ := next
  obtain ⟨ip', state'⟩ := node'
  simp only at follows state
  subst state
  have stepped := extends_.trans (@extends_step env runCallee acc i node.2)
  rw [← stepped.successors] at follows
  unfold visit
  rw [decoded]
  exact follow_offers follows

/-- The rules of the run. -/
theorem explores (known : a.Known env runCallee) :
    Worklist.Explores (visit env runCallee) giveUp (Extends env runCallee a) (Next env a)
      (Noted env runCallee a) where
  keeps _ node extends_ := extends_.trans (extends_visit node)
  gives _ extends_ := { extends_ with complete := nofun }
  offers _ _ _ extends_ next := visit_offers extends_ next
  does _ node extends_ := visit_notes known extends_ node
  stays acc node other _ noted := by
    have behind := @extends_visit env runCallee acc node
    exact
      { reads := fun i index decoded reads clear =>
          behind.records (noted.reads i index decoded reads clear)
        whole := fun whole => noted.whole (behind.complete whole) }

end Run

end Analysis

namespace Analysis

/-- The path ends at the instruction: in a return, a trap or a tail jump to a function whose own
analysis is complete. -/
def Ends (env : Env) (a : Analysis) (i : Instruction) : Prop :=
  i.flow = .return_ ∨ i.flow = .exception ∨ i.flow = .interrupt ∨
    ((i.flow = .unconditionalBranch ∨ i.flow = .indirectBranch) ∧
      TailAnalysed env (fun callee => (run env callee).acc) a i)

/-- The runs of the callees of a function. -/
def calleeRun (env : Env) (a : Analysis) : Analysis → Analysis :=
  match maxDepth - a.depth with
  | 0 => id
  | n + 1 => fun callee => (runLevels env n callee).acc

section Fresh

variable {env : Env} {a : Analysis} {i : Instruction}

theorem run_eq : run env a = a.runWith env (a.calleeRun env) := by
  unfold run calleeRun
  cases maxDepth - a.depth <;> rfl

/-- A callee is analysed by its own run. -/
theorem calleeOf_calleeRun (shallow : a.depth < maxDepth) (target : ℕ) :
    calleeOf env (a.calleeRun env) a.depth target =
      calleeOf env (fun callee => (run env callee).acc) a.depth target := by
  obtain ⟨n, levels⟩ : ∃ n, maxDepth - a.depth = n + 1 := ⟨maxDepth - a.depth - 1, by omega⟩
  have deeper : maxDepth - (a.depth + 1) = n := by omega
  unfold calleeOf calleeRun run
  rw [levels]
  simp only [deeper]

/-- Where no path is lost, one that does not go on ends. -/
theorem Leads.ends (leads : a.Leads env (a.calleeRun env) i) :
    (i.flow = .conditionalBranch → a.isInternal i.nearBranchTarget = true) ∧
      (a.successors i = [] → a.Ends env i) := by
  have tail : TailAnalysed env (a.calleeRun env) a i →
      TailAnalysed env (fun callee => (run env callee).acc) a i := by
    rintro ⟨target, callee, branch, shallow, analysed, whole⟩
    rw [calleeOf_calleeRun shallow] at analysed
    exact ⟨target, callee, branch, shallow, analysed, whole⟩
  unfold Leads at leads
  unfold successors Ends
  cases flow : i.flow with
  | return_ | exception | interrupt => exact ⟨nofun, fun _ => by simp⟩
  | next | call | indirectCall | xbeginXabortXend => exact ⟨nofun, nofun⟩
  | conditionalBranch =>
    rw [flow] at leads
    refine ⟨fun _ => leads, fun none => ?_⟩
    simp only at none leads
    rw [if_pos leads] at none
    cases none
  | unconditionalBranch =>
    rw [flow] at leads
    refine ⟨nofun, fun none => .inr (.inr (.inr ⟨.inl rfl, ?_⟩))⟩
    rcases leads with inside | analysed
    · simp only at none
      rw [if_pos inside] at none
      cases none
    · exact tail analysed
  | indirectBranch =>
    rw [flow] at leads
    exact ⟨nofun, fun _ => .inr (.inr (.inr ⟨.inr rfl, tail leads⟩))⟩

end Fresh

end Analysis

/-- A path leads from node to node. -/
theorem Path.nodes {env : Env} {a : Analysis} {path : List Instruction} {ip : ℕ}
    (walks : Path env a path ip) :
    Relation.ReflTransGen (Analysis.Next env a) (a.entry, PathState.entry)
      (ip, stateAfter path) := by
  induction walks with
  | entry => exact .refl
  | next before decoded follows ih =>
    refine ih.tail ⟨_, decoded, follows, ?_⟩
    unfold stateAfter
    rw [List.foldl_append]
    rfl

/-- The run of a fresh analysis ends.  If its budget has not run out, it has visited the end of every
path with the state that the path leaves; an argument register that the path has not written and that
is read there is recorded; and the analysis is complete only if the path goes on, to both sides of a
conditional branch, or ends in a return, a trap or a function that is analysed to its end. -/
theorem run_explores (env : Env) (entry depth budget : ℕ) :
    let a := { Analysis.new env entry with depth := depth, budget := budget }
    let start := Worklist.Search.start a (entry, PathState.entry)
    let turn := Worklist.turn (Analysis.visit env (a.calleeRun env)) Analysis.giveUp budget
    let last := a.run env
    (Relation.ReflTransGen (fun s s' => turn s = some s') start last ∧ turn last = none) ∧
      (last.exhausted = false → ∀ path ip, Path env a path ip →
        Worklist.Visited (Analysis.visit env (a.calleeRun env)) Analysis.giveUp budget start
            (ip, stateAfter path) ∧
          (∀ i index, env.decodeAt ip = some i → i.Reads index →
            (∀ j ∈ path, ¬ j.Overwrites index) → last.acc.Records index) ∧
          (last.acc.complete = true → ∃ i, env.decodeAt ip = some i ∧
            (i.flow = .conditionalBranch → a.isInternal i.nearBranchTarget = true) ∧
            (a.successors i = [] → a.Ends env i))) := by
  intro a start turn last
  have known : a.Known env (a.calleeRun env) := nofun
  have runs : last = Worklist.explore (Analysis.visit env (a.calleeRun env)) Analysis.giveUp budget
      start := Analysis.run_eq
  obtain ⟨-, result⟩ := @Worklist.Explores.explore _ _ _ _ _ budget _ _ _
    (Analysis.explores known) a (entry, PathState.entry) (Analysis.Extends.refl a)
  refine ⟨runs ▸ Worklist.explore_turns start, fun going path ip walks => ?_⟩
  rw [runs] at going
  obtain ⟨visited, noted⟩ := result going (ip, stateAfter path) walks.nodes
  rw [runs]
  refine ⟨visited, fun i index decoded reads fresh => ?_, fun whole => ?_⟩
  · refine noted.reads i index decoded reads ?_
    by_contra written
    rw [Bool.not_eq_false] at written
    obtain ⟨j, there, writes⟩ := written_stateAfter written
    exact fresh j there writes
  · obtain ⟨i, decoded, leads⟩ := noted.whole whole
    exact ⟨i, decoded, leads.ends⟩

/-! ### A function with a branch -/

/-- An instruction without memory operands. -/
def plainInstruction (ip len : ℕ) (mnemonic : Mnemonic) (flow : FlowControl)
    (operands : List Operand) (nearBranchTarget : ℕ) (usedRegisters : List UsedRegister) :
    Instruction :=
  { ip := ip, nextIp := ip + len, mnemonic := mnemonic, flow := flow, operands := operands,
    nearBranchTarget := nearBranchTarget, memoryBase := .none, memoryIndex := .none,
    memoryDisplacement := 0, ipRelMemoryAddress := none, usedRegisters := usedRegisters,
    usedMemory := [] }

/-- `cmp edx, 1`. -/
def compareSecond : Instruction :=
  plainInstruction 0x1000 3 (.other "Cmp") .next [.register (.gpr 2 4 false), .immediate 1] 0
    [⟨.gpr 2 4 false, .read⟩]

/-- `je 0x1007`. -/
def skipClear : Instruction :=
  plainInstruction 0x1003 2 (.other "Je") .conditionalBranch [.nearBranch] 0x1007 []

/-- `xor ecx, ecx`. -/
def clearFirst : Instruction :=
  plainInstruction 0x1005 2 .xor .next [.register (.gpr 1 4 false), .register (.gpr 1 4 false)] 0
    [⟨.gpr 1 8 false, .write⟩]

/-- `mov eax, ecx`. -/
def copyFirst : Instruction :=
  plainInstruction 0x1007 2 .mov .next [.register (.gpr 0 4 false), .register (.gpr 1 4 false)] 0
    [⟨.gpr 0 8 false, .write⟩, ⟨.gpr 1 4 false, .read⟩]

/-- `ret`. -/
def leaveFunction : Instruction :=
  { plainInstruction 0x1009 1 (.other "Ret") .return_ [] 0 [⟨.gpr 4 8 false, .readWrite⟩] with
    usedMemory := [⟨.gpr 4 8 false, .none, 0, .read, .other 8⟩] }

/-- A process with a function that clears `ecx` unless `edx` is one, and returns `ecx`. -/
def branchEnv : Env :=
  { decodeAt := fun ip =>
      [compareSecond, skipClear, clearFirst, copyFirst, leaveFunction].find? fun i => i.ip = ip
    mem := fun _ => 0, query := fun _ => none, readableBytesFrom := fun _ => 0,
    lookupFunctionEntry := fun _ => none }

def branchAnalysis : Analysis := { Analysis.new branchEnv 0x1000 with depth := 0, budget := 10 }

/-- The path over the branch reads `ecx`, which the other path overwrites first. -/
theorem copyFirst_recorded :
    clearFirst.Overwrites 1 ∧ (branchAnalysis.run branchEnv).acc.Records 1 := by
  have going : (branchAnalysis.run branchEnv).exhausted = false := by
    rw [Analysis.run_eq]
    unfold Analysis.runWith
    rw [Worklist.explore_turn 20, Worklist.explore_ended]
    · decide +kernel
    · decide +kernel
  have start : Path branchEnv branchAnalysis [compareSecond] 0x1003 :=
    Path.entry.next (i := compareSecond) (by decide) (by decide)
  have path : Path branchEnv branchAnalysis [compareSecond, skipClear] 0x1007 :=
    start.next (i := skipClear) (by decide) (by decide)
  have reads : copyFirst.Reads 1 :=
    ⟨by decide, by decide, ⟨.gpr 1 4 false, .read⟩, by decide, by decide, by decide⟩
  have kept : ∀ j ∈ [compareSecond, skipClear], ¬ j.Overwrites 1 := by
    unfold Instruction.Overwrites
    decide
  have walked := (run_explores branchEnv 0x1000 0 10).2 going _ _ path
  refine ⟨.inl ⟨⟨.gpr 1 8 false, .write⟩, by decide⟩, ?_⟩
  exact walked.2.1 copyFirst 1 (by decide) reads kept

end Infer

end NeoHook
