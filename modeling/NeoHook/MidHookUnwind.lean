import NeoHook.MidHook

/-!
# The unwind codes of the stub of a mid-function hook

The codes that `build_stub` records are those of the instructions that its prologue decodes to, and
at the end of every instruction they account for what it has taken from the stack.
-/

namespace NeoHook

open ByteMap WordMap X64

namespace MidHook

/-! ### Codes and instructions -/

/-- The codes in the order of the prologue: offset, operation and its argument. -/
def StubUnwind.codes (u : StubUnwind) : List (ℕ × ℕ × ℕ) :=
  u.slots.reverse.map fun s => (Unwind.offsetOf s, Unwind.opOf s, Unwind.infoOf s)

/-- The bytes that an operation describes to be on the stack. -/
def taken (op info : ℕ) : ℕ :=
  if op = uwopPushNonvol then 8 else if op = uwopAllocSmall then 8 * (info + 1) else 0

/-- The bytes on the stack at an offset, by the codes. -/
def StubUnwind.framed (u : StubUnwind) (offset : ℕ) : ℕ :=
  ((u.codes.filter fun c => c.1 ≤ offset).map fun c => taken c.2.1 c.2.2).sum

/-- The operation for an instruction that changes the stack pointer or sets the frame pointer. -/
def unwindOf : Instr → Option (ℕ × ℕ)
  | .push r => some (uwopPushNonvol, r.number)
  | .pushfq => some (uwopAllocSmall, 0)
  | .lea .rsp ⟨.rsp, d⟩ => some (uwopAllocSmall, (-d).toNat / 8 - 1)
  | .mov .rbp .rsp => some (uwopSetFpreg, 0)
  | _ => none

/-- The codes are those of the instructions behind the first `skip`, and at the end of each of these
they tell what has been taken from the stack since. -/
structure StubUnwind.Describes (u : StubUnwind) (code : List (Instr × ℕ)) (skip : ℕ) : Prop where
  codes : u.codes = (code.drop skip).filterMap fun i => (unwindOf i.1).map fun op => (i.2, op)
  taken : ∀ before after : List (Instr × ℕ), code.drop skip = before ++ after →
    ∀ i stop, before.getLast? = some (i, stop) → ∀ c c', Runs (before.map Prod.fst) c c' →
      c'.reg .rsp = c.reg .rsp - BitVec.ofNat 64 (u.framed stop)

/-! ### What instructions take -/

def stackUse (i : Instr) : ℕ := (unwindOf i).elim 0 fun op => taken op.1 op.2

/-- The operation tells how the instruction moves the stack pointer. -/
def Adjusts (i : Instr) : Prop :=
  ∀ c c' : X64.Cpu, c.step i = some c' → c'.reg .rsp = c.reg .rsp - BitVec.ofNat 64 (stackUse i)

theorem adjusts_push (r : Reg) : Adjusts (.push r) := by
  rintro c _ ⟨⟩
  exact X64.Cpu.setReg_self c .rsp _

theorem adjusts_pushfq : Adjusts .pushfq := by
  rintro c _ ⟨⟩
  exact X64.Cpu.setReg_self c .rsp _

theorem adjusts_lea {n : ℕ} (use : stackUse (.lea .rsp ⟨.rsp, -BitVec.ofNat 64 n⟩) = n) :
    Adjusts (.lea .rsp ⟨.rsp, -BitVec.ofNat 64 n⟩) := by
  rintro c _ ⟨⟩
  rw [use, X64.Cpu.setReg_self, X64.Cpu.address, ← sub_eq_add_neg]

/-- An instruction that leaves the stack pointer alone. -/
theorem adjusts_of_kept {i : Instr} (use : stackUse i = 0)
    (kept : ∀ c c' : X64.Cpu, c.step i = some c' → c'.reg .rsp = c.reg .rsp) : Adjusts i := by
  intro c c' step
  rw [use, kept c c' step]
  exact (sub_zero _).symm

theorem adjusts_write {i : Instr} (use : stackUse i = 0) (a : X64.Cpu → BitVec 64)
    (bs : X64.Cpu → List UInt8) (step : ∀ c : X64.Cpu, c.step i = some (c.write (a c) (bs c))) :
    Adjusts i := by
  refine adjusts_of_kept use fun c c' ran => ?_
  rw [step c] at ran
  cases ran
  rfl

theorem adjusts_mov {r : Reg} (other : r ≠ .rsp) (use : stackUse (.mov r .rsp) = 0) :
    Adjusts (.mov r .rsp) := by
  refine adjusts_of_kept use ?_
  rintro c _ ⟨⟩
  exact X64.Cpu.setReg_of_ne c _ other.symm

/-- A run moves the stack pointer by what its instructions take. -/
theorem Runs.stackUse {is : List Instr} (adjust : ∀ i ∈ is, Adjusts i) {c c' : X64.Cpu}
    (runs : Runs is c c') :
    c'.reg .rsp = c.reg .rsp - BitVec.ofNat 64 (is.map MidHook.stackUse).sum := by
  induction is generalizing c with
  | nil =>
    obtain rfl : c = c' := Option.some.inj runs
    exact (sub_zero _).symm
  | cons i is ih =>
    obtain ⟨here, later⟩ := List.forall_mem_cons.mp adjust
    unfold Runs at runs
    rw [List.foldlM_cons] at runs
    cases step : c.step i with
    | none =>
      rw [step] at runs
      cases runs
    | some next =>
      rw [step] at runs
      rw [ih later runs, here c next step, List.map_cons, List.sum_cons, BitVec.ofNat_add,
        sub_add_eq_sub_sub]

theorem sum_taken (code : List (Instr × ℕ)) :
    ((code.filterMap fun i => (unwindOf i.1).map fun op => (i.2, op)).map
      fun c => taken c.2.1 c.2.2).sum = (code.map fun i => stackUse i.1).sum := by
  induction code with
  | nil => rfl
  | cons i rest ih =>
    rw [List.map_cons, List.sum_cons, ← ih, stackUse]
    cases use : unwindOf i.1 with
    | none =>
      rw [List.filterMap_cons_none (by rw [use]; rfl), Option.elim_none, Nat.zero_add]
    | some op =>
      rw [List.filterMap_cons_some (by rw [use]; rfl), List.map_cons, List.sum_cons,
        Option.elim_some]

/-- Where the ends increase, the codes up to the end of an instruction are those of the instructions
up to it. -/
theorem framed_eq {u : StubUnwind} {before after : List (Instr × ℕ)} {i : Instr} {stop : ℕ}
    (codes : u.codes = (before ++ after).filterMap fun i => (unwindOf i.1).map fun op => (i.2, op))
    (increasing : ((before ++ after).map Prod.snd).Pairwise (· < ·))
    (last : before.getLast? = some (i, stop)) :
    u.framed stop = (before.map fun i => stackUse i.1).sum := by
  obtain ⟨first, rfl⟩ := List.getLast?_eq_some_iff.mp last
  rw [List.map_append, List.pairwise_append, List.map_append, List.pairwise_append] at increasing
  obtain ⟨⟨-, -, upTo⟩, -, beyond⟩ := increasing
  have low : ∀ j ∈ first ++ [(i, stop)], j.2 ≤ stop := by
    intro j member
    rcases List.mem_append.mp member with early | here
    · exact le_of_lt (upTo j.2 (List.mem_map_of_mem early) stop (by simp))
    · rw [List.mem_singleton.mp here]
  have high : ∀ j ∈ after, stop < j.2 := fun j member =>
    beyond stop (by simp) j.2 (List.mem_map_of_mem member)
  have coded : ∀ (code : List (Instr × ℕ)) (c : ℕ × ℕ × ℕ),
      c ∈ (code.filterMap fun i => (unwindOf i.1).map fun op => (i.2, op)) →
        ∃ j ∈ code, j.2 = c.1 := by
    intro code c member
    obtain ⟨j, inside, found⟩ := List.mem_filterMap.mp member
    obtain ⟨op, -, rfl⟩ := Option.map_eq_some_iff.mp found
    exact ⟨j, inside, rfl⟩
  unfold StubUnwind.framed
  rw [codes, List.filterMap_append, List.filter_append]
  rw [List.filter_eq_self.mpr, List.filter_eq_nil_iff.mpr, List.append_nil, sum_taken]
  · intro c member
    obtain ⟨j, inside, same⟩ := coded _ c member
    have := high j inside
    simp only [decide_eq_true_eq]
    omega
  · intro c member
    obtain ⟨j, inside, same⟩ := coded _ c member
    rw [← same]
    exact decide_eq_true (low j inside)

/-! ### The prologue -/

theorem prologueCode_adjusts (site : BitVec 64) : ∀ i ∈ (prologueCode site).drop 3, Adjusts i := by
  have entry : (siteCode site).length = 3 := rfl
  have split : (prologueCode site).drop 3 = _ := List.drop_left' entry
  have pushes : ∀ i ∈ savedRegs.reverse.map Instr.push, Adjusts i := by
    intro i member
    obtain ⟨r, -, rfl⟩ := List.mem_map.mp member
    exact adjusts_push r
  have vectors : ∀ i ∈ (List.finRange 16).reverse.flatMap saveXmmCode, Adjusts i := by
    intro i member
    obtain ⟨n, -, here⟩ := List.mem_flatMap.mp member
    rcases List.mem_cons.mp here with rfl | here
    · exact @adjusts_lea 16 rfl
    · obtain rfl := List.mem_singleton.mp here
      exact adjusts_write rfl _ _ fun _ => rfl
  rw [split]
  simp only [List.forall_mem_append, List.forall_mem_cons, List.not_mem_nil, false_imp_iff,
    implies_true, and_true]
  refine ⟨⟨@adjusts_lea 8 rfl, adjusts_write rfl _ _ fun _ => rfl⟩, vectors,
    ⟨@adjusts_lea 8 rfl, adjusts_write rfl _ _ fun _ => rfl⟩, pushes, adjusts_pushfq,
    adjusts_of_kept rfl ?_, adjusts_mov (by decide) rfl, adjusts_mov (by decide) rfl⟩
  rintro c _ ⟨⟩
  rfl

/-- Only one instruction holds the hooked address. -/
theorem prologue_eq (site : BitVec 64) :
    prologue site = plain [0x41, 0x53] :: plain (0x49 :: 0xBB :: leBytes 8 site.toNat) ::
      (prologue 0).drop 2 := rfl

/-- The offsets do not depend on the hooked address. -/
theorem prologue_ends (site : BitVec 64) : ends 0 ((prologue site).map Piece.bytes) =
    2 :: 12 :: ends 12 (((prologue 0).drop 2).map Piece.bytes) := by
  rw [prologue_eq, List.map_cons, List.map_cons, ends, ends]
  simp [plain]

theorem prologue_recorded (site : BitVec 64) :
    recorded 0 (prologue site) = recorded 12 ((prologue 0).drop 2) := by
  rw [prologue_eq, recorded, recorded]
  simp [plain]

theorem length_prologue (site : BitVec 64) : (bytesOf (prologue site)).length = 221 := by
  have rest : (bytesOf ((prologue 0).drop 2)).length = 209 := by decide +kernel
  unfold bytesOf at rest ⊢
  rw [prologue_eq, List.map_cons, List.map_cons, List.flatten_cons, List.flatten_cons,
    List.length_append, List.length_append, rest]
  simp [plain]

/-- The bytes that the unwind data calls the prologue. -/
theorem take_prolog (site handler gateway : BitVec 64) (avx : Bool) :
    (buildStub site handler gateway avx).bytes.take
      (buildStub site handler gateway avx).unwind.prologSize.toNat = bytesOf (prologue site) := by
  have size : (buildStub site handler gateway avx).unwind.prologSize.toNat =
      (bytesOf (prologue site)).length := by
    show (UInt8.ofNat (bytesOf (prologue site)).length).toNat = _
    rw [length_prologue]
    rfl
  rw [size]
  unfold buildStub
  simp only [List.append_assoc]
  exact List.take_left

theorem prologue_listing (site : BitVec 64) :
    listing 0 (bytesOf (prologue site)) =
      (prologueCode site).zip (2 :: 12 :: ends 12 (((prologue 0).drop 2).map Piece.bytes)) := by
  rw [← prologue_ends site]
  exact listing_flatten (prologue_codes site) 0

theorem prologue_codes_eq (site handler gateway : BitVec 64) (avx : Bool) :
    (buildStub site handler gateway avx).unwind.codes =
      ((listing 0 (bytesOf (prologue site))).drop 3).filterMap
        fun i => (unwindOf i.1).map fun op => (i.2, op) := by
  have slots : (buildStub site handler gateway avx).unwind.slots.reverse =
      (recorded 0 (prologue site)).map fun code => UInt16.ofNat ((code.2 <<< 8) ||| code.1) := by
    unfold buildStub
    simp only [List.map_reverse, List.reverse_reverse]
  have tail : (prologueCode site).drop 3 = (prologueCode 0).drop 3 := rfl
  unfold StubUnwind.codes
  rw [slots, prologue_recorded, prologue_listing, List.zip, List.drop_zipWith, tail]
  decide +kernel

/-- The recorded codes describe the prologue behind the slot of the hooked address. -/
theorem prologue_described (site handler gateway : BitVec 64) (avx : Bool) :
    (buildStub site handler gateway avx).unwind.Describes
      (listing 0 ((buildStub site handler gateway avx).bytes.take
        (buildStub site handler gateway avx).unwind.prologSize.toNat)) 3 := by
  rw [take_prolog]
  refine ⟨prologue_codes_eq site handler gateway avx, ?_⟩
  intro before after split i stop last c c' runs
  have increasing : (((listing 0 (bytesOf (prologue site))).drop 3).map Prod.snd).Pairwise
      (· < ·) := by
    rw [List.map_drop]
    exact (listing_increasing (prologue_codes site) 0).sublist (List.drop_sublist 3 _)
  have adjust : ∀ i ∈ ((listing 0 (bytesOf (prologue site))).drop 3).map Prod.fst, Adjusts i := by
    rw [List.map_drop, bytesOf, listing_fst (prologue_codes site)]
    exact prologueCode_adjusts site
  have codes := prologue_codes_eq site handler gateway avx
  rw [split] at increasing adjust codes
  rw [List.map_append, List.forall_mem_append] at adjust
  rw [framed_eq codes increasing last, Runs.stackUse adjust.1 runs, List.map_map]
  rfl

end MidHook

end NeoHook
