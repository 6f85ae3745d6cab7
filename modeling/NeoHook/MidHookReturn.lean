import NeoHook.MidHookRun

/-!
# The way back from the handler

What the stub does behind the call of its handler: it reloads the upper halves, chooses where to go
on, takes the registers from the context that the handler has left, and leaves.
-/

namespace NeoHook

open ByteMap WordMap X64

namespace MidHook

/-! ### Taking from the stack -/

/-- The bytes from the stack pointer on. -/
def Stacked (c : X64.Cpu) (content : List UInt8) : Prop :=
  load c.mem (c.reg .rsp) content.length = content

variable {c c' : X64.Cpu} {bs rest : List UInt8}

theorem Stacked.top (stacked : Stacked c (bs ++ rest)) : load c.mem (c.reg .rsp) bs.length = bs := by
  unfold Stacked at stacked
  rw [List.length_append, load_add] at stacked
  exact List.append_inj_left stacked (length_load _ _ _)

theorem Stacked.drop (stacked : Stacked c (bs ++ rest)) (mem : c'.mem = c.mem)
    (rsp : c'.reg .rsp = c.reg .rsp + BitVec.ofNat 64 bs.length) : Stacked c' rest := by
  unfold Stacked at stacked ⊢
  rw [List.length_append, load_add] at stacked
  rw [mem, rsp]
  exact List.append_inj_right stacked (length_load _ _ _)

theorem Stacked.read64 {v : BitVec 64} (stacked : Stacked c (leBytes 8 v.toNat ++ rest)) :
    c.read64 (c.reg .rsp) = v := by
  apply X64.Cpu.read64_of_load
  have top := stacked.top
  rwa [length_leBytes] at top

/-- The state with the given registers taken from the stack. -/
def popped (c : X64.Cpu) (rs : List Reg) (v : Reg → BitVec 64) : X64.Cpu :=
  { c with reg := fun r =>
      if r = Reg.rsp then (c.reg .rsp) + BitVec.ofNat 64 (8 * rs.length)
      else if r ∈ rs then v r else c.reg r }

theorem popped_nil (c : X64.Cpu) (v : Reg → BitVec 64) : popped c [] v = c := by
  have same : (popped c [] v).reg = c.reg := by
    funext r
    show (if r = .rsp then _ else _) = _
    by_cases pointer : r = .rsp
    · rw [if_pos pointer, pointer]
      exact add_zero _
    · rw [if_neg pointer, if_neg List.not_mem_nil]
  show { c with reg := (popped c [] v).reg } = c
  rw [same]

theorem popped_cons (c : X64.Cpu) {r : Reg} {rs : List Reg} (v : Reg → BitVec 64) (other : r ≠ .rsp) :
    popped c (r :: rs) v = popped ((c.setReg .rsp (c.reg .rsp + 8)).setReg r (v r)) rs v := by
  have same : (popped c (r :: rs) v).reg =
      (popped ((c.setReg .rsp (c.reg .rsp + 8)).setReg r (v r)) rs v).reg := by
    funext q
    simp only [popped, List.length_cons, List.mem_cons]
    by_cases pointer : q = .rsp
    · rw [if_pos pointer, if_pos pointer, X64.Cpu.setReg_of_ne _ _ other.symm, X64.Cpu.setReg_self,
        Nat.mul_succ, Nat.add_comm, BitVec.ofNat_add, ← add_assoc]
      rfl
    · rw [if_neg pointer, if_neg pointer]
      by_cases later : q ∈ rs
      · rw [if_pos (Or.inr later), if_pos later]
      · rw [if_neg later]
        by_cases here : q = r
        · rw [if_pos (Or.inl here), here, X64.Cpu.setReg_self]
        · rw [if_neg (by simp [here, later]), X64.Cpu.setReg_of_ne _ _ here,
            X64.Cpu.setReg_of_ne _ _ pointer]
  unfold popped at same ⊢
  simp only [X64.Cpu.setReg_flags, X64.Cpu.setReg_mxcsr, X64.Cpu.setReg_xmm,
    X64.Cpu.setReg_upper, X64.Cpu.setReg_mem] at same ⊢
  rw [same]

/-- Registers are popped. -/
theorem run_pops {rs : List Reg} (v : Reg → BitVec 64) (others : ∀ r ∈ rs, r ≠ .rsp)
    (stacked : Stacked c ((rs.flatMap fun r => leBytes 8 (v r).toNat) ++ rest)) :
    Runs (rs.map .pop) c (popped c rs v) := by
  induction rs generalizing c with
  | nil =>
    rw [popped_nil]
    exact Runs.nil
  | cons r rs ih =>
    obtain ⟨here, later⟩ := List.forall_mem_cons.mp others
    rw [List.flatMap_cons, List.append_assoc] at stacked
    have moved : ((c.setReg .rsp (c.reg .rsp + 8)).setReg r (v r)).reg .rsp = c.reg .rsp + 8 := by
      rw [X64.Cpu.setReg_of_ne _ _ here.symm, X64.Cpu.setReg_self]
    have dropped : Stacked ((c.setReg .rsp (c.reg .rsp + 8)).setReg r (v r)) _ :=
      stacked.drop rfl (by
        rw [moved, length_leBytes]
        rfl)
    rw [popped_cons c v here]
    exact Runs.cons (by rw [X64.Cpu.step, stacked.read64]) (ih later dropped)

theorem step_raise (c : X64.Cpu) (n : ℕ) :
    c.step (.lea .rsp ⟨.rsp, BitVec.ofNat 64 n⟩) =
      some (c.setReg .rsp (c.reg .rsp + BitVec.ofNat 64 n)) := rfl

theorem step_popfq {v : BitVec 64} (stacked : Stacked c (leBytes 8 v.toNat ++ rest)) :
    c.step .popfq = some { c.setReg .rsp (c.reg .rsp + 8) with flags := popFlags c.flags v } := by
  rw [X64.Cpu.step, stacked.read64]

theorem step_ldmxcsr {v : BitVec 32} (stacked : Stacked c (leBytes 4 v.toNat ++ rest)) :
    c.step (.ldmxcsr top) = if v.toNat < 2 ^ 16 then some { c with mxcsr := v } else none := by
  have bytes := stacked.top
  have bound := v.isLt
  have value : BitVec.ofNat 32 (ofLeBytes (load c.mem (c.address top) 4)) = v := by
    rw [length_leBytes] at bytes
    rw [top, X64.Cpu.address_zero, bytes, ofLeBytes_leBytes]
    apply BitVec.eq_of_toNat_eq
    rw [BitVec.toNat_ofNat]
    omega
  rw [X64.Cpu.step, value]

theorem step_restoreXmm {n : Fin 16} {v : BitVec 128}
    (stacked : Stacked c (leBytes 16 v.toNat ++ rest)) :
    c.step (.movupsLoad n top) = some { c with xmm := Function.update c.xmm n v } := by
  have bytes := stacked.top
  have bound := v.isLt
  have value : BitVec.ofNat 128 (ofLeBytes (load c.mem (c.address top) 16)) = v := by
    rw [length_leBytes] at bytes
    rw [top, X64.Cpu.address_zero, bytes, ofLeBytes_leBytes]
    apply BitVec.eq_of_toNat_eq
    rw [BitVec.toNat_ofNat]
    omega
  rw [X64.Cpu.step, value]

/-- One value is set, and then more of them. -/
theorem ite_update {α : Type} (v f : Fin 16 → α) (n : Fin 16) (ns : List (Fin 16)) (k : Fin 16) :
    (if k ∈ ns then v k else Function.update f n (v n) k) =
      if k ∈ n :: ns then v k else f k := by
  by_cases later : k ∈ ns
  · rw [if_pos later, if_pos (List.mem_cons_of_mem _ later)]
  · rw [if_neg later]
    by_cases here : k = n
    · rw [here, Function.update_self, if_pos List.mem_cons_self]
    · rw [Function.update_of_ne here, if_neg (by simp [here, later])]

/-- Vector registers are taken from the stack. -/
theorem run_restoreXmms {ns : List (Fin 16)} (v : Fin 16 → BitVec 128)
    (stacked : Stacked c ((ns.flatMap fun n => leBytes 16 (v n).toNat) ++ rest)) :
    Runs (ns.flatMap restoreXmmCode) c
      { c.setReg .rsp (c.reg .rsp + BitVec.ofNat 64 (16 * ns.length)) with
        xmm := fun n => if n ∈ ns then v n else c.xmm n } := by
  induction ns generalizing c with
  | nil =>
    have same : c.setReg .rsp (c.reg .rsp + BitVec.ofNat 64 (16 * 0)) = c := by
      unfold X64.Cpu.setReg
      rw [show BitVec.ofNat 64 (16 * 0) = 0 from rfl, add_zero, Function.update_eq_self]
    simp only [List.length_nil, same, List.not_mem_nil, if_false]
    exact Runs.nil
  | cons n ns ih =>
    rw [List.flatMap_cons, List.append_assoc] at stacked
    have dropped : Stacked (({ c with xmm := Function.update c.xmm n (v n) } : X64.Cpu).setReg .rsp
        (c.reg .rsp + BitVec.ofNat 64 16)) _ :=
      stacked.drop rfl (by rw [X64.Cpu.setReg_self, length_leBytes])
    have runs := Runs.cons (step_restoreXmm stacked) (Runs.cons (step_raise _ 16) (ih dropped))
    have pointer : c.reg .rsp + BitVec.ofNat 64 16 + BitVec.ofNat 64 (16 * ns.length) =
        c.reg .rsp + BitVec.ofNat 64 (16 * (n :: ns).length) := by
      rw [add_assoc, ← BitVec.ofNat_add, List.length_cons, Nat.mul_succ, Nat.add_comm]
    simp only [X64.Cpu.setReg, Function.update_idem, Function.update_self, pointer,
      ite_update] at runs ⊢
    exact runs

/-! ### Restoring -/

/-- The context without the redirection. -/
def HookContext.saved (x : HookContext) : List UInt8 :=
  leBytes 8 x.rflags.toNat ++ ((savedRegs.flatMap fun r => leBytes 8 (x.register r).toNat) ++
    (leBytes 4 x.mxcsr.toNat ++ (leBytes 4 x.reserved.toNat ++
      (List.finRange 16).flatMap fun n => leBytes 16 (x.xmm n).bits.toNat)))

theorem length_saved (x : HookContext) : x.saved.length = 392 := by
  simp [HookContext.saved, savedRegs, List.length_flatMap]

theorem bytes_eq (x : HookContext) : x.bytes = x.saved ++ leBytes 8 x.redirectRip.toNat := by
  unfold HookContext.bytes HookContext.saved
  simp only [Xmm.leBytes_bits, List.append_assoc]

theorem mem_savedRegs {r : Reg} (other : r ≠ .rsp) : r ∈ savedRegs := by
  cases r
  case rsp => exact absurd rfl other
  all_goals
    decide

/-- The registers are those of the context, and the stack is as it was in front of the frame. -/
structure Restored (c : X64.Cpu) (x : HookContext) (c' : X64.Cpu) : Prop where
  rsp : c'.reg .rsp = c.reg .rsp + 408
  regs : ∀ r, r ≠ .rsp → c'.reg r = x.register r
  flags : c'.flags = popFlags c.flags x.rflags
  mxcsr : c'.mxcsr = x.mxcsr
  xmm : ∀ n, c'.xmm n = (x.xmm n).bits
  upper : c'.upper = c.upper
  mem : c'.mem = c.mem

/-- The flags and the general registers are restored. -/
theorem run_restoreRegs {x : HookContext} (stacked : Stacked c (x.saved ++ rest)) :
    ∃ c', Runs (.popfq :: savedRegs.map .pop) c c' ∧
      c'.reg .rsp = c.reg .rsp + 128 ∧ (∀ r, r ≠ .rsp → c'.reg r = x.register r) ∧
      c'.flags = popFlags c.flags x.rflags ∧ c'.upper = c.upper ∧ c'.mem = c.mem := by
  unfold HookContext.saved at stacked
  simp only [List.append_assoc] at stacked
  have first := step_popfq stacked
  have second := @Stacked.drop _ { c.setReg .rsp (c.reg .rsp + 8) with
    flags := popFlags c.flags x.rflags } _ _ stacked rfl (by
      rw [length_leBytes]
      exact X64.Cpu.setReg_self c .rsp _)
  refine ⟨_, .cons first (run_pops x.register (by decide) second), ?_, fun r other => ?_, rfl, rfl,
    rfl⟩
  · show (c.setReg .rsp (c.reg .rsp + 8)).reg .rsp + BitVec.ofNat 64 (8 * 15) = _
    rw [X64.Cpu.setReg_self, add_assoc]
    rfl
  · show (if r = .rsp then _ else if r ∈ savedRegs then x.register r else _) = _
    rw [if_neg other, if_pos (mem_savedRegs other)]

/-- What then stands on the stack. -/
theorem Stacked.behindRegs {x : HookContext} (stacked : Stacked c (x.saved ++ rest))
    (mem : c'.mem = c.mem) (rsp : c'.reg .rsp = c.reg .rsp + 128) :
    Stacked c' (leBytes 4 x.mxcsr.toNat ++ (leBytes 4 x.reserved.toNat ++
      (((List.finRange 16).flatMap fun n => leBytes 16 (x.xmm n).bits.toNat) ++ rest))) := by
  unfold HookContext.saved at stacked
  rw [← List.append_assoc (leBytes 8 _), List.append_assoc] at stacked
  have dropped := @Stacked.drop _ c' _ _ stacked mem (by
    rw [rsp]
    simp only [List.length_append, length_leBytes, List.length_flatMap]
    rfl)
  simpa only [List.append_assoc] using dropped

theorem run_restore {x : HookContext} (stacked : Stacked c (x.saved ++ rest))
    (valid : x.mxcsr.toNat < 2 ^ 16) : ∃ c', Runs restoreCode c c' ∧ Restored c x c' := by
  obtain ⟨c₁, first, rsp, regs, flags, upper, mem⟩ := run_restoreRegs stacked
  have atMxcsr := stacked.behindRegs mem rsp
  have load := step_ldmxcsr atMxcsr
  rw [if_pos valid] at load
  rw [← List.append_assoc] at atMxcsr
  have atXmm := @Stacked.drop _
    (({ c₁ with mxcsr := x.mxcsr } : X64.Cpu).setReg .rsp (c₁.reg .rsp + BitVec.ofNat 64 8)) _ _
    atMxcsr rfl (by
      rw [X64.Cpu.setReg_self, List.length_append, length_leBytes, length_leBytes])
  have vectors := run_restoreXmms (fun n => (x.xmm n).bits) atXmm
  have runs : Runs restoreCode c _ := first.append
    (Runs.append (.cons load (.cons (step_raise _ 8) .nil))
      (vectors.append (.cons (step_raise _ 16) .nil)))
  refine ⟨_, runs, ?_⟩
  exact {
    rsp := by
      rw [X64.Cpu.setReg_self]
      show (X64.Cpu.setReg _ _ _).reg .rsp + _ = _
      rw [X64.Cpu.setReg_self, X64.Cpu.setReg_self, rsp, add_assoc, add_assoc, add_assoc]
      rfl
    regs := fun r other => by
      rw [X64.Cpu.setReg_of_ne _ _ other]
      show (X64.Cpu.setReg _ _ _).reg r = _
      rw [X64.Cpu.setReg_of_ne _ _ other, X64.Cpu.setReg_of_ne _ _ other]
      exact regs r other
    flags := flags
    mxcsr := rfl
    xmm := fun n => if_pos (List.mem_finRange n)
    upper := upper
    mem := mem }

/-! ### Back from the call -/

/-- What a function that keeps to the calling convention leaves as it was: it takes its return
address from the stack, keeps the frame pointer, and does not touch what its caller has put between
the home area of the arguments and the context it is given. -/
structure Returns (e r : X64.Cpu) : Prop where
  rsp : r.reg .rsp = e.reg .rsp + 8
  rbp : r.reg .rbp = e.reg .rbp
  frame : ∀ x, (x - (e.reg .rsp + 40)).toNat < (e.reg .rcx - (e.reg .rsp + 40)).toNat →
    r.mem x = e.mem x

/-- The upper halves are reloaded. -/
theorem run_reloads {ns : List (Fin 16)} (v : Fin 16 → BitVec 128)
    (stored : ∀ n, load c.mem (c.reg .rsp + BitVec.ofNat 64 (32 + n.val * 16)) 16 =
      leBytes 16 (v n).toNat) :
    Runs (ns.map fun n => .vinsertUpper n n ⟨.rsp, BitVec.ofNat 64 (32 + n.val * 16)⟩) c
      { c with upper := fun n => if n ∈ ns then v n else c.upper n } := by
  induction ns generalizing c with
  | nil =>
    simp only [List.not_mem_nil, if_false]
    exact Runs.nil
  | cons n ns ih =>
    have bound := (v n).isLt
    have value : BitVec.ofNat 128 (ofLeBytes (load c.mem
        (c.address ⟨.rsp, BitVec.ofNat 64 (32 + n.val * 16)⟩) 16)) = v n := by
      rw [X64.Cpu.address, stored n, ofLeBytes_leBytes]
      apply BitVec.eq_of_toNat_eq
      rw [BitVec.toNat_ofNat]
      omega
    have step : c.step (.vinsertUpper n n ⟨.rsp, BitVec.ofNat 64 (32 + n.val * 16)⟩) =
        some { c with upper := Function.update c.upper n (v n) } := by
      rw [X64.Cpu.step, value, Function.update_eq_self]
    have runs := Runs.cons step (@ih { c with upper := Function.update c.upper n (v n) } stored)
    simp only [ite_update] at runs
    exact runs

theorem run_afterCall {c₀ e r : X64.Cpu} {avx : Bool} (kept : Kept c₀ avx e) (returns : Returns e r) :
    ∃ c, Runs (afterCallCode avx) r c ∧ c.reg .rsp = c₀.reg .rsp - 408 ∧
      c.reg .rbp = c₀.reg .rsp - 408 ∧ c.flags = r.flags ∧ c.mem = r.mem ∧
      (avx = true → c.upper = c₀.upper) := by
  have frame : r.reg .rbp = c₀.reg .rsp - 408 := returns.rbp.trans kept.rbp
  cases avx with
  | false =>
    refine ⟨_, .cons rfl .nil, (X64.Cpu.setReg_self _ _ _).trans frame,
      (X64.Cpu.setReg_of_ne _ _ (by decide)).trans frame, rfl, rfl, by simp⟩
  | true =>
    obtain ⟨large, stored⟩ := kept.upper rfl
    have reloads := @run_reloads r (List.finRange 16) c₀.upper fun n => by
      have place : r.reg .rsp + BitVec.ofNat 64 (32 + n.val * 16) = slotAt (e.reg .rsp + 40) n := by
        rw [returns.rsp, slotAt, BitVec.ofNat_add, ← add_assoc, add_assoc (e.reg .rsp)]
        rfl
      rw [place, ← stored n]
      refine load_congr fun i less => returns.frame _ ?_
      have small := n.isLt
      rw [slotAt, BitVec.add_assoc, ← BitVec.ofNat_add, add_sub_cancel_left, BitVec.toNat_ofNat]
      omega
    refine ⟨_, reloads.append (.cons rfl .nil), (X64.Cpu.setReg_self _ _ _).trans frame,
      (X64.Cpu.setReg_of_ne _ _ (by decide)).trans frame, rfl, rfl, fun _ => ?_⟩
    funext n
    exact if_pos (List.mem_finRange n)

/-! ### Where to go on -/

theorem zero_logicFlags (flags v : BitVec 64) : zero (logicFlags flags v) = (v == 0) := by
  have status : ∀ cf pf af zf sf vf : Bool, (flag 0 cf ||| flag 2 pf ||| flag 4 af ||| flag 6 zf |||
      flag 7 sf ||| flag 11 vf).getLsbD 6 = zf := by decide
  have masked : (~~~statusMask).getLsbD 6 = false := rfl
  rw [zero, logicFlags, setStatus, BitVec.getLsbD_or, status, BitVec.getLsbD_and, masked,
    Bool.and_false, Bool.false_or]

/-- `popfq` overwrites what arithmetic sets. -/
theorem popFlags_logicFlags (flags v w : BitVec 64) :
    popFlags (logicFlags flags v) w = popFlags flags w := by
  have status : ∀ cf pf af zf sf vf : Bool, (flag 0 cf ||| flag 2 pf ||| flag 4 af ||| flag 6 zf |||
      flag 7 sf ||| flag 11 vf) &&& ~~~(popMask ||| 0x10000) = 0#64 := by decide
  have masks : ~~~statusMask &&& ~~~(popMask ||| 0x10000) = ~~~(popMask ||| 0x10000) := by decide
  rw [popFlags, popFlags, logicFlags, setStatus, BitVec.and_or_distrib_right, status, BitVec.or_zero,
    BitVec.and_assoc, masks]

/-- The address at which the function goes on. -/
def HookContext.target (x : HookContext) (gateway : BitVec 64) : BitVec 64 :=
  if x.redirectRip = 0 then gateway else x.redirectRip

/-- The address is put in `rax`. -/
theorem run_choice {redirect : BitVec 64} (gateway : BitVec 64)
    (value : c.read64 (c.address redirectSlot) = redirect) :
    ∃ c', Runs [.movLoad .rax redirectSlot, .movImm .rcx gateway, .test .rax .rax, .cmovz .rax .rcx]
        c c' ∧ c'.reg .rax = (if redirect = 0 then gateway else redirect) ∧
      (∀ r, r ≠ .rax → r ≠ .rcx → c'.reg r = c.reg r) ∧
      c'.flags = logicFlags c.flags redirect ∧ c'.upper = c.upper ∧ c'.mem = c.mem := by
  have load : c.step (.movLoad .rax redirectSlot) = some (c.setReg .rax redirect) := by
    rw [X64.Cpu.step, value]
  refine ⟨_, .cons load (.cons rfl (.cons rfl (.cons rfl .nil))), ?_, fun r first second => ?_, ?_,
    rfl, rfl⟩
  · rw [X64.Cpu.setReg_self]
    show (if zero (logicFlags c.flags (((c.setReg .rax redirect).setReg .rcx gateway).reg .rax &&&
      ((c.setReg .rax redirect).setReg .rcx gateway).reg .rax)) = true
      then ((c.setReg .rax redirect).setReg .rcx gateway).reg .rcx
      else ((c.setReg .rax redirect).setReg .rcx gateway).reg .rax) = _
    rw [zero_logicFlags, X64.Cpu.setReg_self, X64.Cpu.setReg_of_ne _ _ (by decide), X64.Cpu.setReg_self,
      BitVec.and_self]
    simp only [beq_iff_eq]
  · rw [X64.Cpu.setReg_of_ne _ _ first]
    exact (X64.Cpu.setReg_of_ne _ _ second).trans (X64.Cpu.setReg_of_ne _ _ first)
  · show logicFlags c.flags (((c.setReg .rax redirect).setReg .rcx gateway).reg .rax &&&
      ((c.setReg .rax redirect).setReg .rcx gateway).reg .rax) = _
    rw [X64.Cpu.setReg_of_ne _ _ (by decide), X64.Cpu.setReg_self, BitVec.and_self]

theorem run_chooseTarget {x : HookContext} (gateway : BitVec 64)
    (frame : c.reg .rbp = c.reg .rsp) (context : load c.mem (c.reg .rsp) 400 = x.bytes) :
    ∃ c', Runs (chooseTargetCode gateway) c c' ∧ c'.reg .rsp = c.reg .rsp ∧
      Stacked c' (x.saved ++ leBytes 8 (x.target gateway).toNat) ∧
      (∀ w, popFlags c'.flags w = popFlags c.flags w) ∧ c'.upper = c.upper ∧
      ∀ y, 400 ≤ (y - c.reg .rsp).toNat → c'.mem y = c.mem y := by
  rw [bytes_eq, show 400 = 392 + 8 from rfl, load_add] at context
  have kept := List.append_inj_left context (by rw [length_load, length_saved])
  have redirect := List.append_inj_right context (by rw [length_load, length_saved])
  have slot : c.address redirectSlot = c.reg .rsp + BitVec.ofNat 64 392 := by
    rw [redirectSlot, X64.Cpu.address, frame]
    rfl
  obtain ⟨d, runs, target, regs, flags, upper, mem⟩ := @run_choice c x.redirectRip gateway (by
    apply X64.Cpu.read64_of_load
    rw [slot, redirect])
  have rsp : d.reg .rsp = c.reg .rsp := regs .rsp (by decide) (by decide)
  have slot' : d.address redirectSlot = c.reg .rsp + BitVec.ofNat 64 392 := by
    rw [← slot, X64.Cpu.address, X64.Cpu.address]
    rw [regs redirectSlot.base (by decide) (by decide)]
  refine ⟨_, Runs.append runs (.cons rfl .nil), rsp, ?_, fun w => ?_, upper, fun y far => ?_⟩
  · have whole : (x.saved ++ leBytes 8 (x.target gateway).toNat).length = 392 + 8 := by
      rw [List.length_append, length_saved, length_leBytes]
    unfold Stacked
    rw [whole]
    show load (store d.mem (d.address redirectSlot) (leBytes 8 (d.reg .rax).toNat)) (d.reg .rsp) _ = _
    rw [slot', rsp, mem, target, load_add, ← HookContext.target]
    congr 1
    · rw [← kept]
      refine load_congr fun i less => store_of_le ?_
      rw [length_leBytes, toNat_sub_add _ _ (by decide), add_sub_cancel_left, BitVec.toNat_ofNat]
      split_ifs <;> omega
    · have back := @load_store 64 c.mem (c.reg .rsp + BitVec.ofNat 64 392)
        (leBytes 8 (x.target gateway).toNat) (by simp)
      rwa [length_leBytes] at back
  · show popFlags d.flags w = _
    rw [flags, popFlags_logicFlags]
  · show store d.mem (d.address redirectSlot) (leBytes 8 (d.reg .rax).toNat) y = _
    rw [slot', mem]
    refine store_of_le ?_
    have bound := (y - c.reg .rsp).isLt
    rw [length_leBytes, toNat_sub_add _ _ (by decide), if_pos (by omega)]
    omega

end MidHook

end NeoHook
