import NeoHook.Lib.Align
import NeoHook.Lib.X64Stack
import NeoHook.MidHook

/-!
# A run of the stub

What the stub of a mid-function hook does from the jump that enters it to the one that leaves it.
The prologue puts the hooked address and the context on the stack; around the call the stack pointer
is aligned and the upper halves of the vector registers are kept beside it; and the registers are
taken from the context that the handler has left.
-/

namespace NeoHook

open ByteMap WordMap X64

namespace MidHook

/-! ### The context -/

def Xmm.ofBits (v : BitVec 128) : Xmm := ⟨v.extractLsb' 0 64, v.extractLsb' 64 64⟩

theorem Xmm.bits_ofBits (v : BitVec 128) : (Xmm.ofBits v).bits = v := by
  unfold Xmm.bits Xmm.ofBits
  apply BitVec.eq_of_getLsbD_eq
  intro i inside
  simp only [BitVec.getLsbD_append, BitVec.getLsbD_extractLsb']
  split_ifs with low
  · simp [low]
  · have : i - 64 < 64 := by omega
    simp [this, show 64 + (i - 64) = i by omega]

theorem Xmm.toNat_bits (x : Xmm) : x.bits.toNat = x.low.toNat + 2 ^ 64 * x.high.toNat := by
  unfold Xmm.bits
  rw [BitVec.toNat_append, Nat.shiftLeft_eq, Nat.mul_comm,
    ← Nat.two_pow_add_eq_or_of_lt x.low.isLt, Nat.add_comm]

/-- The two halves in memory are the register in memory. -/
theorem Xmm.leBytes_bits (x : Xmm) :
    leBytes 16 x.bits.toNat = leBytes 8 x.low.toNat ++ leBytes 8 x.high.toNat := by
  have low := x.low.isLt
  have mod : x.bits.toNat % 256 ^ 8 = x.low.toNat := by
    rw [x.toNat_bits]
    omega
  have div : x.bits.toNat / 256 ^ 8 = x.high.toNat := by
    rw [x.toNat_bits]
    omega
  rw [leBytes_add 8 8, ← leBytes_mod 8 x.bits.toNat, mod, div]

/-- The context of a state; `reserved` is what the padding happens to hold. -/
def live (c : X64.Cpu) (reserved : BitVec 32) : HookContext where
  rflags := c.flags &&& pushMask
  rax := c.reg .rax
  rcx := c.reg .rcx
  rdx := c.reg .rdx
  rbx := c.reg .rbx
  rbp := c.reg .rbp
  rsi := c.reg .rsi
  rdi := c.reg .rdi
  r8 := c.reg .r8
  r9 := c.reg .r9
  r10 := c.reg .r10
  r11 := c.reg .r11
  r12 := c.reg .r12
  r13 := c.reg .r13
  r14 := c.reg .r14
  r15 := c.reg .r15
  mxcsr := c.mxcsr
  reserved := reserved
  xmm := fun n => .ofBits (c.xmm n)
  redirectRip := 0

theorem length_bytes (x : HookContext) : x.bytes.length = 400 := by
  simp [HookContext.bytes, savedRegs, List.length_flatMap]

/-! ### The prologue -/

variable {c₀ c : X64.Cpu} {content : List UInt8}

/-- The hooked address is put on the stack. -/
theorem run_site (c₀ : X64.Cpu) (site : BitVec 64) :
    ∃ c, Runs (siteCode site) c₀ c ∧ Saved c₀ c (leBytes 8 site.toNat) := by
  have pushed := (Saved.refl c₀).push (by simp) (c₀.reg .r11)
  have held : (c₀.push (c₀.reg .r11)).read64 ((c₀.push (c₀.reg .r11)).reg .rsp) = c₀.reg .r11 := by
    apply X64.Cpu.read64_of_load
    have stack := pushed.stack
    rwa [List.append_nil, length_leBytes] at stack
  have written := @Saved.overwrite _ _ _ _ (leBytes 8 site.toNat) pushed (by simp) (by simp)
  rw [List.append_nil] at written
  refine ⟨_, .cons rfl (.cons rfl (.cons rfl .nil)), ?_⟩
  convert written using 1
  have stackPointer : ((c₀.push (c₀.reg .r11)).setReg .r11 site).address top =
      (c₀.push (c₀.reg .r11)).reg .rsp := by
    rw [top, X64.Cpu.address_zero, X64.Cpu.setReg_of_ne _ _ (by decide)]
  have exchanged : ((c₀.push (c₀.reg .r11)).setReg .r11 site).read64
      ((c₀.push (c₀.reg .r11)).reg .rsp) = c₀.reg .r11 := held
  rw [stackPointer, exchanged, X64.Cpu.setReg_self]
  have regs : Function.update (Function.update (c₀.push (c₀.reg .r11)).reg .r11 site) .r11
      (c₀.reg .r11) = (c₀.push (c₀.reg .r11)).reg := by
    rw [Function.update_idem]
    exact Function.update_eq_self_iff.mpr (pushed.regs .r11 (by decide)).symm
  unfold X64.Cpu.write64 X64.Cpu.setReg X64.Cpu.write
  simp only
  rw [regs]

/-- `lea rsp, [rsp - n]`. -/
theorem step_lower (c : X64.Cpu) (n : ℕ) :
    c.step (.lea .rsp ⟨.rsp, -BitVec.ofNat 64 n⟩) =
      some (c.setReg .rsp (c.reg .rsp - BitVec.ofNat 64 n)) := by
  rw [X64.Cpu.step, X64.Cpu.address, ← sub_eq_add_neg]

theorem step_lower_top (c : X64.Cpu) (v : BitVec 64) : (c.setReg .rsp v).address top = v := by
  rw [top, X64.Cpu.address_zero, X64.Cpu.setReg_self]

/-- The slot of the redirection is put on the stack, as zero. -/
theorem run_slot (saved : Saved c₀ c content) (fits : 8 + content.length < 2 ^ 64) :
    ∃ c', Runs [.lea .rsp ⟨.rsp, -8⟩, .movMemImm top 0] c c' ∧
      Saved c₀ c' (leBytes 8 0 ++ content) := by
  have written := @Saved.block _ _ _ saved (leBytes 8 0) (by rwa [length_leBytes])
  rw [length_leBytes] at written
  refine ⟨_, .cons (step_lower c 8) (.cons rfl .nil), ?_⟩
  rw [step_lower_top]
  exact written

/-- A vector register is put on the stack. -/
theorem run_saveXmm (saved : Saved c₀ c content) (fits : 16 + content.length < 2 ^ 64)
    (n : Fin 16) :
    ∃ c', Runs (saveXmmCode n) c c' ∧ Saved c₀ c' (leBytes 16 (c₀.xmm n).toNat ++ content) := by
  have written := @Saved.block _ _ _ saved (leBytes 16 (c₀.xmm n).toNat) (by rwa [length_leBytes])
  rw [length_leBytes] at written
  refine ⟨_, .cons (step_lower c 16) (.cons rfl .nil), ?_⟩
  rw [step_lower_top, X64.Cpu.setReg_xmm, saved.xmm]
  exact written

theorem run_saveXmms (saved : Saved c₀ c content) (ns : List (Fin 16))
    (fits : 16 * ns.length + content.length < 2 ^ 64) :
    ∃ c', Runs (ns.flatMap saveXmmCode) c c' ∧
      Saved c₀ c' ((ns.reverse.flatMap fun n => leBytes 16 (c₀.xmm n).toNat) ++ content) := by
  induction ns generalizing c content with
  | nil => exact ⟨c, Runs.nil, saved⟩
  | cons n rest ih =>
    rw [List.length_cons] at fits
    obtain ⟨next, first, stored⟩ := run_saveXmm saved (by omega) n
    obtain ⟨c', runs, result⟩ := ih stored (by rw [List.length_append, length_leBytes]; omega)
    refine ⟨c', Runs.append first runs, ?_⟩
    simpa [List.flatMap_append] using result

/-- The control word of the vector unit is put on the stack, with four bytes of padding. -/
theorem run_mxcsr (saved : Saved c₀ c content) (fits : 8 + content.length < 2 ^ 64) :
    ∃ (reserved : BitVec 32) (c' : X64.Cpu), Runs [.lea .rsp ⟨.rsp, -8⟩, .stmxcsr top] c c' ∧
      Saved c₀ c' (leBytes 4 c₀.mxcsr.toNat ++ (leBytes 4 reserved.toNat ++ content)) := by
  obtain ⟨pad, padding, written⟩ :=
    @Saved.store _ _ _ saved 8 (leBytes 4 c₀.mxcsr.toNat) (by simp) fits
  rw [length_leBytes] at padding
  have bytes : leBytes 4 (BitVec.ofNat 32 (ofLeBytes pad)).toNat = pad := by
    have bound := ofLeBytes_lt pad
    rw [padding] at bound
    rw [BitVec.toNat_ofNat, Nat.mod_eq_of_lt (by omega)]
    have whole := leBytes_ofLeBytes pad
    rwa [padding] at whole
  refine ⟨BitVec.ofNat 32 (ofLeBytes pad), _, .cons (step_lower c 8) (.cons rfl .nil), ?_⟩
  rw [step_lower_top, X64.Cpu.setReg_mxcsr, saved.mxcsr, bytes]
  exact written

/-- The prologue: the context and the hooked address are on the stack, with the frame pointer at the
context. -/
structure Framed (c₀ : X64.Cpu) (site : BitVec 64) (reserved : BitVec 32) (c : X64.Cpu) : Prop where
  rsp : c.reg .rsp = c₀.reg .rsp - 408
  rcx : c.reg .rcx = c₀.reg .rsp - 408
  rbp : c.reg .rbp = c₀.reg .rsp - 408
  context : load c.mem (c₀.reg .rsp - 408) 400 = (live c₀ reserved).bytes
  site : load c.mem (c₀.reg .rsp - 8) 8 = leBytes 8 site.toNat
  outside : ∀ x, 408 ≤ (c₀.reg .rsp - 1 - x).toNat → c.mem x = c₀.mem x
  flags : c.flags = c₀.flags &&& ~~~(flag 10 true)
  upper : c.upper = c₀.upper

/-- What the prologue puts on the stack is the context of the state it was entered in. -/
theorem live_bytes (c₀ : X64.Cpu) (reserved : BitVec 32) :
    (live c₀ reserved).bytes = leBytes 8 (c₀.flags &&& pushMask).toNat ++
      ((savedRegs.flatMap fun r => leBytes 8 (c₀.reg r).toNat) ++
        (leBytes 4 c₀.mxcsr.toNat ++ (leBytes 4 reserved.toNat ++
          (((List.finRange 16).flatMap fun n => leBytes 16 (c₀.xmm n).toNat) ++ leBytes 8 0)))) := by
  unfold HookContext.bytes
  have regs : (savedRegs.flatMap fun r => leBytes 8 ((live c₀ reserved).register r).toNat) =
      savedRegs.flatMap fun r => leBytes 8 (c₀.reg r).toNat := rfl
  have vectors : (fun n => leBytes 8 ((live c₀ reserved).xmm n).low.toNat ++
      leBytes 8 ((live c₀ reserved).xmm n).high.toNat) = fun n => leBytes 16 (c₀.xmm n).toNat := by
    funext n
    rw [← Xmm.leBytes_bits, live, Xmm.bits_ofBits]
  rw [regs, vectors]
  rfl

theorem run_prologue (c₀ : X64.Cpu) (site : BitVec 64) :
    ∃ (reserved : BitVec 32) (c : X64.Cpu),
      Runs (prologueCode site) c₀ c ∧ Framed c₀ site reserved c := by
  obtain ⟨c₁, first, atSite⟩ := run_site c₀ site
  obtain ⟨c₂, second, atSlot⟩ := run_slot atSite (by simp)
  obtain ⟨c₃, third, atXmm⟩ := run_saveXmms atSlot (List.finRange 16).reverse (by simp)
  obtain ⟨reserved, c₄, fourth, atMxcsr⟩ := run_mxcsr atXmm (by simp [List.length_flatMap])
  obtain ⟨c₅, fifth, atRegs⟩ := @Saved.pushes _ _ _ atMxcsr savedRegs.reverse (by decide)
    (by simp [List.length_flatMap, savedRegs])
  have atFlags := atRegs.push (by simp [List.length_flatMap, savedRegs]) (c₅.flags &&& pushMask)
  rw [List.reverse_reverse, List.reverse_reverse, atRegs.flags] at atFlags
  have content : leBytes 8 (c₀.flags &&& pushMask).toNat ++
      ((savedRegs.flatMap fun r => leBytes 8 (c₀.reg r).toNat) ++
        (leBytes 4 c₀.mxcsr.toNat ++ (leBytes 4 reserved.toNat ++
          (((List.finRange 16).flatMap fun n => leBytes 16 (c₀.xmm n).toNat) ++
            (leBytes 8 0 ++ leBytes 8 site.toNat))))) =
      (live c₀ reserved).bytes ++ leBytes 8 site.toNat := by
    rw [live_bytes]
    simp only [List.append_assoc]
  rw [content] at atFlags
  have length : ((live c₀ reserved).bytes ++ leBytes 8 site.toNat).length = 408 := by
    rw [List.length_append, length_bytes, length_leBytes]
  have stack := atFlags.stack
  have stackPointer := atFlags.rsp
  rw [length] at stack stackPointer
  rw [stackPointer, show 408 = 400 + 8 from rfl, load_add] at stack
  refine ⟨reserved, _, first.append (second.append (third.append (fourth.append (fifth.append
    (.cons rfl (.cons rfl (.cons rfl (.cons rfl .nil)))))))), ?_⟩
  have start : c₀.reg .rsp - 8 = c₀.reg .rsp - 408 + BitVec.ofNat 64 400 := by
    rw [sub_add, show (408 : BitVec 64) - BitVec.ofNat 64 400 = 8 from rfl]
  rw [atRegs.flags]
  exact {
    rsp := stackPointer
    rcx := stackPointer
    rbp := stackPointer
    context := List.append_inj_left stack (by rw [length_load, length_bytes])
    site := by
      rw [start]
      exact List.append_inj_right stack (by rw [length_load, length_bytes])
    outside := fun x far => atFlags.outside x (by rw [length]; exact far)
    flags := by
      show c₅.flags &&& _ = _
      rw [atRegs.flags]
    upper := atFlags.upper }

/-! ### The call -/

/-- Only the stack below the pointer of `c` has changed, by at most `n` bytes. -/
structure Lowered (c : X64.Cpu) (n : ℕ) (c' : X64.Cpu) : Prop where
  rsp : c'.reg .rsp = c.reg .rsp - BitVec.ofNat 64 n
  regs : ∀ r, r ≠ .rsp → r ≠ .rax → c'.reg r = c.reg r
  outside : ∀ x, n ≤ (c.reg .rsp - 1 - x).toNat → c'.mem x = c.mem x
  direction : c'.flags.getLsbD 10 = c.flags.getLsbD 10
  upper : c'.upper = c.upper

theorem setStatus_direction (flags : BitVec 64) (cf pf af zf sf vf : Bool) :
    (setStatus flags cf pf af zf sf vf).getLsbD 10 = flags.getLsbD 10 := by
  have others : (flag 0 cf ||| flag 2 pf ||| flag 4 af ||| flag 6 zf ||| flag 7 sf |||
      flag 11 vf).getLsbD 10 = false := by
    cases cf <;> cases pf <;> cases af <;> cases zf <;> cases sf <;> cases vf <;> rfl
  have kept : (~~~statusMask).getLsbD 10 = true := rfl
  rw [setStatus, BitVec.getLsbD_or, others, BitVec.getLsbD_and, kept, Bool.and_true, Bool.or_false]

/-- The mask rounds down to a multiple of 16. -/
theorem and_neg16 (a : BitVec 64) : a &&& -16 = a - BitVec.ofNat 64 (a.toNat % 16) := by
  have bound := a.isLt
  have down := Align.down_eq (show 4 ≤ 64 by decide) bound
  apply BitVec.eq_of_toNat_eq
  rw [BitVec.toNat_and, BitVec.toNat_sub, BitVec.toNat_ofNat]
  have mask : (-16 : BitVec 64).toNat = Align.lnot 64 (2 ^ 4 - 1) := rfl
  rw [mask]
  unfold Align.down at down
  rw [down]
  omega

variable {n : ℕ} {c' : X64.Cpu}

theorem lowered_and (c : X64.Cpu) :
    ∃ c', c.step (.andImm .rsp (-16)) = some c' ∧ Lowered c ((c.reg .rsp).toNat % 16) c' ∧
      (c'.reg .rsp).toNat % 16 = 0 := by
  refine ⟨_, rfl, ?_, ?_⟩
  · exact {
      rsp := by
        rw [← and_neg16]
        exact X64.Cpu.setReg_self c .rsp _
      regs := fun r other _ => X64.Cpu.setReg_of_ne _ _ other
      outside := fun _ _ => rfl
      direction := setStatus_direction _ _ _ _ _ _ _
      upper := rfl }
  · rw [X64.Cpu.setReg_self, and_neg16, BitVec.toNat_sub, BitVec.toNat_ofNat]
    have := (c.reg .rsp).isLt
    omega

theorem lowered_sub (c : X64.Cpu) (k : ℕ) :
    ∃ c', c.step (.subImm .rsp (BitVec.ofNat 64 k)) = some c' ∧ Lowered c k c' := by
  refine ⟨_, rfl, ?_⟩
  exact {
    rsp := X64.Cpu.setReg_self c .rsp _
    regs := fun r other _ => X64.Cpu.setReg_of_ne _ _ other
    outside := fun _ _ => rfl
    direction := setStatus_direction _ _ _ _ _ _ _
    upper := rfl }

/-- A return address is pushed. -/
theorem lowered_push (c : X64.Cpu) (v : BitVec 64) : Lowered c 8 (c.push v) where
  rsp := X64.Cpu.setReg_self c .rsp _
  regs := fun r other _ => X64.Cpu.setReg_of_ne _ _ other
  outside := fun x far =>
    store_below (by rw [length_leBytes]) (by decide) far
  direction := rfl
  upper := rfl

theorem Lowered.trans {k : ℕ} {c'' : X64.Cpu} (first : Lowered c n c') (second : Lowered c' k c'')
    (small : n < 2 ^ 64) : Lowered c (n + k) c'' where
  rsp := by rw [second.rsp, first.rsp, BitVec.ofNat_add, sub_add_eq_sub_sub]
  regs := fun r other plain => (second.regs r other plain).trans (first.regs r other plain)
  outside := fun x far => by
    have place : c'.reg .rsp - 1 - x = c.reg .rsp - 1 - x - BitVec.ofNat 64 n := by
      rw [first.rsp]
      generalize BitVec.ofNat 64 n = n
      abel
    have bound := (c.reg .rsp - 1 - x).isLt
    rw [← first.outside x (by omega)]
    refine second.outside x ?_
    rw [place, BitVec.toNat_sub, BitVec.toNat_ofNat, Nat.mod_eq_of_lt small]
    omega
  direction := second.direction.trans first.direction
  upper := second.upper.trans first.upper

/-- The place of the upper half of a register, counted from the stack pointer. -/
def slotAt (a : BitVec 64) (n : Fin 16) : BitVec 64 := a + BitVec.ofNat 64 (n.val * 16)

/-- The upper halves are stored. -/
theorem run_spills (c : X64.Cpu) (ns : List (Fin 16)) :
    ∃ m : BitVec 64 → UInt8,
      Runs (ns.map fun n => .vextractUpper ⟨.rsp, BitVec.ofNat 64 (n.val * 16)⟩ n) c
        { c with mem := m } ∧
      (∀ n ∈ ns, load m (slotAt (c.reg .rsp) n) 16 = leBytes 16 (c.upper n).toNat) ∧
      (∀ n ∉ ns, load m (slotAt (c.reg .rsp) n) 16 = load c.mem (slotAt (c.reg .rsp) n) 16) ∧
      ∀ x, 256 ≤ (x - c.reg .rsp).toNat → m x = c.mem x := by
  induction ns generalizing c with
  | nil => exact ⟨c.mem, Runs.nil, by simp, fun _ _ => rfl, fun _ _ => rfl⟩
  | cons k rest ih =>
    obtain ⟨m, runs, stored, kept, outside⟩ :=
      ih (c.write (slotAt (c.reg .rsp) k) (leBytes 16 (c.upper k).toNat))
    simp only [X64.Cpu.write_reg, X64.Cpu.write_upper, X64.Cpu.write_mem] at stored kept outside
    have here : load (store c.mem (slotAt (c.reg .rsp) k) (leBytes 16 (c.upper k).toNat))
        (slotAt (c.reg .rsp) k) 16 = leBytes 16 (c.upper k).toNat := by
      have back := @load_store 64 c.mem (slotAt (c.reg .rsp) k) (leBytes 16 (c.upper k).toNat)
        (by simp)
      rwa [length_leBytes] at back
    refine ⟨m, Runs.cons rfl runs, ?_, ?_, ?_⟩
    · intro n member
      by_cases later : n ∈ rest
      · exact stored n later
      · obtain rfl := (List.mem_cons.mp member).resolve_right later
        rw [kept n later, here]
    · intro n absent
      obtain ⟨other, later⟩ := not_or.mp (fun both => absent (List.mem_cons.mpr both))
      rw [kept n later]
      refine load_congr fun i less => store_of_le ?_
      have small := n.isLt
      have small' := k.isLt
      have apart : n.val ≠ k.val := fun same => other (Fin.ext same)
      unfold slotAt
      rw [length_leBytes, BitVec.add_assoc, ← BitVec.ofNat_add]
      rcases Nat.lt_or_gt_of_ne apart with below | above
      · rw [toNat_sub_add _ _ (by omega), add_sub_cancel_left, BitVec.toNat_ofNat]
        split_ifs <;> omega
      · rw [toNat_add_sub _ (by omega) (by omega)]
        omega
    · intro x far
      rw [outside x far]
      refine store_of_le ?_
      have small := k.isLt
      unfold slotAt
      rw [length_leBytes, toNat_sub_add _ _ (by omega)]
      have := (x - c.reg .rsp).isLt
      split_ifs <;> omega

/-- What stands above the pointer is as it was. -/
theorem Lowered.above (lowered : Lowered c n c') {d k : ℕ} (fits : n + d + k < 2 ^ 64) :
    load c'.mem (c.reg .rsp + BitVec.ofNat 64 d) k =
      load c.mem (c.reg .rsp + BitVec.ofNat 64 d) k := by
  refine load_congr fun i less => lowered.outside _ ?_
  have place : c.reg .rsp - 1 - (c.reg .rsp + BitVec.ofNat 64 d + BitVec.ofNat 64 i) =
      -BitVec.ofNat 64 (1 + d + i) := by
    rw [BitVec.ofNat_add, BitVec.ofNat_add, show BitVec.ofNat 64 1 = 1 from rfl]
    generalize BitVec.ofNat 64 d = d
    generalize BitVec.ofNat 64 i = i
    abel
  rw [place, BitVec.toNat_neg, BitVec.toNat_ofNat]
  omega

/-- The stack is aligned, and with AVX the upper halves are kept above the pointer. -/
structure Spilled (c : X64.Cpu) (avx : Bool) (n : ℕ) (c' : X64.Cpu) : Prop where
  lowered : Lowered c n c'
  aligned : (c'.reg .rsp).toNat % 16 = 0
  small : n < 272
  upper : avx = true → 256 ≤ n ∧
    ∀ k, load c'.mem (slotAt (c'.reg .rsp) k) 16 = leBytes 16 (c.upper k).toNat

/-- The upper halves are stored below the pointer. -/
theorem lowered_spills (c : X64.Cpu) :
    ∃ c', Runs spillCode c c' ∧ Lowered c 256 c' ∧
      ∀ k, load c'.mem (slotAt (c'.reg .rsp) k) 16 = leBytes 16 (c.upper k).toNat := by
  obtain ⟨c₁, sub, low⟩ := lowered_sub c 256
  obtain ⟨m, runs, stored, -, outside⟩ := run_spills c₁ (List.finRange 16)
  refine ⟨{ c₁ with mem := m }, .cons sub runs, ?_, fun k => ?_⟩
  · refine ⟨low.rsp, low.regs, fun x far => ?_, low.direction, low.upper⟩
    rw [← low.outside x far]
    apply outside
    have place : x - c₁.reg .rsp = BitVec.ofNat 64 256 - 1 - (c.reg .rsp - 1 - x) := by
      rw [low.rsp]
      abel
    have bound := (c.reg .rsp - 1 - x).isLt
    rw [place]
    generalize c.reg .rsp - 1 - x = d at far bound ⊢
    rw [BitVec.toNat_sub, show (BitVec.ofNat 64 256 - 1).toNat = 255 from rfl]
    omega
  · show load m (slotAt (c₁.reg .rsp) k) 16 = _
    rw [stored k (List.mem_finRange k), low.upper]

theorem run_spill (c : X64.Cpu) (avx : Bool) :
    ∃ n c', Runs ([.andImm .rsp (-16)] ++ if avx then spillCode else []) c c' ∧
      Spilled c avx n c' := by
  obtain ⟨c₁, mask, low₁, aligned⟩ := lowered_and c
  have less : (c.reg .rsp).toNat % 16 < 16 := Nat.mod_lt _ (by decide)
  cases avx with
  | false =>
    exact ⟨(c.reg .rsp).toNat % 16, c₁, .cons mask .nil, low₁, aligned, by omega, by simp⟩
  | true =>
    obtain ⟨c₂, runs, low₂, stored⟩ := lowered_spills c₁
    refine ⟨(c.reg .rsp).toNat % 16 + 256, c₂, .cons mask runs, low₁.trans low₂ (by omega), ?_,
      by omega, fun _ => ⟨by omega, fun k => ?_⟩⟩
    · rw [low₂.rsp, BitVec.toNat_sub, BitVec.toNat_ofNat]
      omega
    · rw [stored k, low₁.upper]

/-- The rest of the way into the handler. -/
theorem run_enter (c : X64.Cpu) (handler : BitVec 64) :
    ∃ c', Runs [.subImm .rsp 32, .movImm .rax handler] c c' ∧ c'.reg .rax = handler ∧
      ∀ back, Lowered c 40 (c'.push back) := by
  obtain ⟨c₁, sub, low⟩ := lowered_sub c 32
  have set : Lowered c 32 (c₁.setReg .rax handler) :=
    ⟨(X64.Cpu.setReg_of_ne _ _ (by decide)).trans low.rsp,
      fun r other plain => (X64.Cpu.setReg_of_ne _ _ plain).trans (low.regs r other plain),
      low.outside, low.direction, low.upper⟩
  exact ⟨_, .cons sub (.cons rfl .nil), X64.Cpu.setReg_self _ _ _,
    fun back => set.trans (lowered_push _ back) (by decide)⟩

/-- The state in which the handler is entered, `c₀` being the one in which the stub is. -/
structure Entered (c₀ : X64.Cpu) (site : BitVec 64) (reserved : BitVec 32) (e : X64.Cpu) : Prop where
  context : e.reg .rcx = c₀.reg .rsp - 408
  block : load e.mem (e.reg .rcx) 400 = (live c₀ reserved).bytes
  site : load e.mem (c₀.reg .rsp - 8) 8 = leBytes 8 site.toNat
  aligned : (e.reg .rsp + 8).toNat % 16 = 0
  near : (e.reg .rcx - (e.reg .rsp + 40)).toNat < 272
  direction : e.flags.getLsbD 10 = false
  outside : ∀ x, 720 ≤ (c₀.reg .rsp - 1 - x).toNat → e.mem x = c₀.mem x

/-- What the stub relies on across the call. -/
structure Kept (c₀ : X64.Cpu) (avx : Bool) (e : X64.Cpu) : Prop where
  rbp : e.reg .rbp = c₀.reg .rsp - 408
  upper : avx = true → 256 ≤ (e.reg .rcx - (e.reg .rsp + 40)).toNat ∧
    ∀ n, load e.mem (slotAt (e.reg .rsp + 40) n) 16 = leBytes 16 (c₀.upper n).toNat

theorem run_beforeCall {site : BitVec 64} {reserved : BitVec 32}
    (framed : Framed c₀ site reserved c) (handler : BitVec 64) (avx : Bool) :
    ∃ c', Runs (beforeCallCode handler avx) c c' ∧ c'.reg .rax = handler ∧
      ∀ back, Entered c₀ site reserved (c'.push back) ∧ Kept c₀ avx (c'.push back) := by
  obtain ⟨n, c₁, first, spilled⟩ := run_spill c avx
  obtain ⟨c₂, second, target, lowered⟩ := run_enter c₁ handler
  have small := spilled.small
  have runs := Runs.append first second
  rw [List.append_assoc] at runs
  refine ⟨c₂, runs, target, fun back => ?_⟩
  have inner := lowered back
  have outer := spilled.lowered.trans inner (by omega)
  have rcx : (c₂.push back).reg .rcx = c₀.reg .rsp - 408 :=
    (outer.regs .rcx (by decide) (by decide)).trans framed.rcx
  have home : (c₂.push back).reg .rsp + 40 = c₁.reg .rsp := by
    rw [inner.rsp, show (40 : BitVec 64) = BitVec.ofNat 64 40 from rfl, sub_add_cancel]
  constructor
  · exact {
      context := rcx
      block := by
        have same := @Lowered.above _ _ _ outer 0 400 (by omega)
        rw [show BitVec.ofNat 64 0 = 0 from rfl, add_zero, framed.rsp] at same
        rw [rcx, same, framed.context]
      site := by
        have same := @Lowered.above _ _ _ outer 400 8 (by omega)
        have place : c₀.reg .rsp - 408 + BitVec.ofNat 64 400 = c₀.reg .rsp - 8 := by
          rw [sub_add, show (408 : BitVec 64) - BitVec.ofNat 64 400 = 8 from rfl]
        rw [framed.rsp, place] at same
        rw [same, framed.site]
      aligned := by
        have place : (c₂.push back).reg .rsp + 8 = c₁.reg .rsp - 32 := by
          rw [← home]
          abel
        have aligned := spilled.aligned
        rw [place, BitVec.toNat_sub, show (32 : BitVec 64).toNat = 32 from rfl]
        omega
      near := by
        rw [home, rcx, ← framed.rsp, spilled.lowered.rsp, sub_sub_cancel, BitVec.toNat_ofNat]
        omega
      direction := by
        rw [outer.direction, framed.flags, BitVec.getLsbD_and, BitVec.getLsbD_not]
        simp [flag]
      outside := fun x far => by
        have place : c.reg .rsp - 1 - x = c₀.reg .rsp - 1 - x - 408 := by
          rw [framed.rsp]
          abel
        have bound := (c₀.reg .rsp - 1 - x).isLt
        rw [← framed.outside x (by omega)]
        refine outer.outside x ?_
        rw [place, BitVec.toNat_sub, show (408 : BitVec 64).toNat = 408 from rfl]
        omega }
  · exact {
      rbp := (outer.regs .rbp (by decide) (by decide)).trans framed.rbp
      upper := fun on => by
        obtain ⟨large, stored⟩ := spilled.upper on
        rw [home, rcx]
        refine ⟨?_, fun k => ?_⟩
        · rw [spilled.lowered.rsp, framed.rsp, sub_sub_cancel, BitVec.toNat_ofNat]
          omega
        · have same := @Lowered.above _ _ _ inner (k.val * 16) 16 (by omega)
          rw [slotAt, same, ← framed.upper]
          exact stored k }

end MidHook

end NeoHook
