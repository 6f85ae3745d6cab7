import NeoHook.MidHookReturn
import NeoHook.MidHookUnwind

/-!
# A mid-function hook from the jump into its stub to the jump out of it

The whole run of the bytes that `build_stub` emits, for every state of the hooked function and
every handler.
-/

namespace NeoHook

open ByteMap WordMap X64

namespace MidHook

/-! ### Contexts in memory -/

/-- Every block of `k` bytes is a word. -/
theorem exists_word {k : ℕ} {bs : List UInt8} (length : bs.length = k) :
    ∃ v : BitVec (8 * k), bs = leBytes k v.toNat := by
  have bound := ofLeBytes_lt bs
  have size : 256 ^ bs.length = 2 ^ (8 * k) := by rw [length, Nat.pow_mul]
  have whole := leBytes_ofLeBytes bs
  refine ⟨BitVec.ofNat (8 * k) (ofLeBytes bs), ?_⟩
  rw [BitVec.toNat_ofNat, Nat.mod_eq_of_lt (size ▸ bound), ← length, whole]

theorem exists_words {ι : Type} [DecidableEq ι] {k : ℕ} {is : List ι} (nodup : is.Nodup)
    {bs : List UInt8} (length : bs.length = k * is.length) :
    ∃ v : ι → BitVec (8 * k), bs = is.flatMap fun i => leBytes k (v i).toNat := by
  induction is generalizing bs with
  | nil => exact ⟨fun _ => 0, List.length_eq_zero_iff.mp length⟩
  | cons i is ih =>
    obtain ⟨fresh, nodup⟩ := List.nodup_cons.mp nodup
    rw [List.length_cons, Nat.mul_succ] at length
    obtain ⟨first, head⟩ := @exists_word k (bs.take k) (by rw [List.length_take]; omega)
    obtain ⟨v, tail⟩ := @ih nodup (bs.drop k) (by rw [List.length_drop]; omega)
    refine ⟨Function.update v i first, ?_⟩
    have others : (is.flatMap fun j => leBytes k (Function.update v i first j).toNat) =
        is.flatMap fun j => leBytes k (v j).toNat := by
      refine List.flatMap_congr fun j member => ?_
      have other : j ≠ i := by
        rintro rfl
        exact fresh member
      rw [Function.update_of_ne other]
    rw [List.flatMap_cons, Function.update_self, others, ← head, ← tail, List.take_append_drop]

theorem exists_append {n k : ℕ} {bs : List UInt8} (length : bs.length = n + k) :
    ∃ first second : List UInt8, bs = first ++ second ∧ first.length = n ∧ second.length = k :=
  ⟨bs.take n, bs.drop n, (List.take_append_drop n bs).symm, by rw [List.length_take]; omega,
    by rw [List.length_drop]; omega⟩

/-- Every block of the size of a context is one. -/
theorem exists_context {bs : List UInt8} (length : bs.length = 400) :
    ∃ x : HookContext, bs = x.bytes := by
  obtain ⟨flags, afterFlags, rfl, size, behindFlags⟩ := @exists_append 8 392 bs length
  obtain ⟨rflags, rfl⟩ := exists_word size
  obtain ⟨regs, afterRegs, rfl, size, behindRegs⟩ := @exists_append 120 272 _ behindFlags
  obtain ⟨register, rfl⟩ := @exists_words Reg _ 8 savedRegs (by decide) regs size
  obtain ⟨word, afterMxcsr, rfl, size, behindMxcsr⟩ := @exists_append 4 268 _ behindRegs
  obtain ⟨mxcsr, rfl⟩ := exists_word size
  obtain ⟨word, afterReserved, rfl, size, behindReserved⟩ := @exists_append 4 264 _ behindMxcsr
  obtain ⟨reserved, rfl⟩ := exists_word size
  obtain ⟨vectors, slot, rfl, size, ended⟩ := @exists_append 256 8 _ behindReserved
  obtain ⟨xmm, rfl⟩ := @exists_words (Fin 16) _ 16 (List.finRange 16) (List.nodup_finRange 16)
    vectors size
  obtain ⟨redirectRip, rfl⟩ := exists_word ended
  refine ⟨⟨rflags, register .rax, register .rcx, register .rdx, register .rbx, register .rbp,
    register .rsi, register .rdi, register .r8, register .r9, register .r10, register .r11,
    register .r12, register .r13, register .r14, register .r15, mxcsr, reserved,
    fun n => .ofBits (xmm n), redirectRip⟩, ?_⟩
  rw [bytes_eq]
  unfold HookContext.saved
  simp only [List.append_assoc, Xmm.bits_ofBits]
  rfl

/-! ### The run -/

theorem bytesOf_append (ps qs : List Piece) : bytesOf (ps ++ qs) = bytesOf ps ++ bytesOf qs := by
  unfold bytesOf
  rw [List.map_append, List.flatten_append]

variable {c₀ : X64.Cpu}

/-- The state in which the hooked function goes on, `r` being the one the handler has returned in
and `x` the context it has left. -/
structure Resumed (c₀ r : X64.Cpu) (x : HookContext) (gateway : BitVec 64) (avx : Bool)
    (out : BitVec 64 × X64.Cpu) : Prop where
  target : out.1 = x.target gateway
  regs : ∀ q, q ≠ .rsp → out.2.reg q = x.register q
  rsp : out.2.reg .rsp = c₀.reg .rsp
  flags : out.2.flags = popFlags r.flags x.rflags
  mxcsr : out.2.mxcsr = x.mxcsr
  xmm : ∀ n, out.2.xmm n = (x.xmm n).bits
  upper : avx = true → out.2.upper = c₀.upper
  outside : ∀ y, 408 ≤ (c₀.reg .rsp - 1 - y).toNat → out.2.mem y = r.mem y

/-- The way from the call to the restoring of the registers. -/
theorem run_back {e r : X64.Cpu} {site : BitVec 64} {reserved : BitVec 32} {avx : Bool}
    (entered : Entered c₀ site reserved e) (kept : Kept c₀ avx e) (returns : Returns e r)
    {x : HookContext} (left : load r.mem (e.reg .rcx) 400 = x.bytes) (gateway : BitVec 64) :
    ∃ c, Runs (afterCallCode avx ++ chooseTargetCode gateway) r c ∧
      c.reg .rsp = c₀.reg .rsp - 408 ∧
      Stacked c (x.saved ++ leBytes 8 (x.target gateway).toNat) ∧
      (∀ w, popFlags c.flags w = popFlags r.flags w) ∧ (avx = true → c.upper = c₀.upper) ∧
      ∀ y, 408 ≤ (c₀.reg .rsp - 1 - y).toNat → c.mem y = r.mem y := by
  obtain ⟨c₁, first, rsp, rbp, flags, mem, upper⟩ := run_afterCall kept returns
  obtain ⟨c₂, second, rsp', stacked, flags', upper', outside⟩ :=
    @run_chooseTarget c₁ x gateway (rbp.trans rsp.symm) (by rw [mem, rsp, ← entered.context, left])
  refine ⟨c₂, first.append second, rsp'.trans rsp, stacked, fun w => ?_, fun on => ?_, fun y far => ?_⟩
  · rw [flags', flags]
  · rw [upper', upper on]
  · rw [← mem]
    refine outside y ?_
    have place : y - c₁.reg .rsp = 407 - (c₀.reg .rsp - 1 - y) := by
      rw [rsp, show (407 : BitVec 64) = 408 - 1 from rfl]
      generalize (408 : BitVec 64) = n
      abel
    have bound := (c₀.reg .rsp - 1 - y).isLt
    rw [place, BitVec.toNat_sub, show (407 : BitVec 64).toNat = 407 from rfl]
    omega

/-- The bytes up to the call, and those behind it. -/
theorem bytes_split (site handler gateway : BitVec 64) (avx : Bool) :
    (buildStub site handler gateway avx).bytes =
      bytesOf (prologue site ++ beforeCall handler avx) ++ ([0xFF, 0xD0] ++
        (bytesOf (afterCall avx ++ chooseTarget gateway ++ restore) ++
          ([0xFF, 0x64, 0x24, 0xF0] ++ []))) := by
  simp only [buildStub, bytesOf_append, List.append_assoc, List.append_nil]
  rfl

/-- The instructions behind the call. -/
def backCode (gateway : BitVec 64) (avx : Bool) : List Instr :=
  afterCallCode avx ++ chooseTargetCode gateway ++ restoreCode

theorem back_codes (gateway : BitVec 64) (avx : Bool) :
    Codes (afterCall avx ++ chooseTarget gateway ++ restore) (backCode gateway avx) :=
  ((afterCall_codes avx).append (chooseTarget_codes gateway)).append restore_codes

theorem back_stays (gateway : BitVec 64) (avx : Bool) :
    ∀ i ∈ backCode gateway avx, i.leaves = false := by
  unfold backCode
  rw [List.forall_mem_append, List.forall_mem_append]
  refine ⟨⟨?_, ?_⟩, by decide⟩
  · cases avx <;> decide
  · simp [chooseTargetCode, Instr.leaves]

/-- A context whose `mxcsr` has a reserved bit cannot be restored. -/
theorem restore_faults {c : X64.Cpu} {rest : List UInt8} {x : HookContext}
    (stacked : Stacked c (x.saved ++ rest)) (reserved : 2 ^ 16 ≤ x.mxcsr.toNat) :
    Faults restoreCode c := by
  obtain ⟨c₁, first, rsp, -, -, -, mem⟩ := run_restoreRegs stacked
  have load := step_ldmxcsr (stacked.behindRegs mem rsp)
  rw [if_neg (by omega)] at load
  exact first.faults (Faults.here load)

/-- The whole run: up to the call, and from the return to the jump out of the stub. -/
theorem execute_stub (site handler gateway ip : BitVec 64) (avx : Bool) (c₀ : X64.Cpu) :
    ∃ (reserved : BitVec 32) (e : X64.Cpu), Entered c₀ site reserved e ∧
      ∀ callee : BitVec 64 → X64.Cpu → X64.Cpu, Returns e (callee handler e) →
        ∀ x : HookContext, load (callee handler e).mem (e.reg .rcx) 400 = x.bytes →
          if x.mxcsr.toNat < 2 ^ 16 then
            ∃ out, execute callee ip (buildStub site handler gateway avx).bytes c₀ = some out ∧
              Resumed c₀ (callee handler e) x gateway avx out
          else execute callee ip (buildStub site handler gateway avx).bytes c₀ = none := by
  obtain ⟨reserved, c₁, first, framed⟩ := run_prologue c₀ site
  obtain ⟨c₂, second, target, entering⟩ := run_beforeCall framed handler avx
  have codes := (prologue_codes site).append (beforeCall_codes handler avx)
  let behind := ip + BitVec.ofNat 64 (bytesOf (prologue site ++ beforeCall handler avx)).length
  obtain ⟨entered, kept⟩ := entering (behind + 2)
  refine ⟨reserved, c₂.push (behind + 2), entered, fun callee returns x left => ?_⟩
  obtain ⟨c₃, third, rsp, stacked, flags, upper, outside⟩ :=
    run_back entered kept returns left gateway
  have called : execute callee ip (buildStub site handler gateway avx).bytes c₀ =
      execute callee (behind + 2) (bytesOf (afterCall avx ++ chooseTarget gateway ++ restore) ++
        ([0xFF, 0x64, 0x24, 0xF0] ++ [])) (callee handler (c₂.push (behind + 2))) := by
    rw [bytes_split]
    unfold bytesOf
    rw [execute_runs codes (first.append second), execute_call (r := .rax) ⟨by decide, fun _ => rfl⟩,
      target]
    rfl
  rw [called]
  unfold bytesOf
  split_ifs with valid
  · obtain ⟨c₄, fourth, restored⟩ := run_restore stacked valid
    rw [execute_runs (back_codes gateway avx) (third.append fourth),
      execute_jmp (m := ⟨.rsp, -16⟩) ⟨by decide, fun _ => rfl⟩]
    refine ⟨_, rfl, ?_⟩
    have frame : c₄.reg .rsp = c₀.reg .rsp := by
      rw [restored.rsp, rsp, sub_add_cancel]
    exact {
      target := by
        apply X64.Cpu.read64_of_load
        have slot : c₄.address ⟨.rsp, -16⟩ = c₃.reg .rsp + BitVec.ofNat 64 392 := by
          rw [X64.Cpu.address, restored.rsp, add_assoc]
          rfl
        have whole := stacked
        unfold Stacked at whole
        rw [List.length_append, load_add, length_saved, length_leBytes] at whole
        rw [slot, restored.mem]
        exact List.append_inj_right whole (by rw [length_load, length_saved])
      regs := restored.regs
      rsp := frame
      flags := by rw [restored.flags, flags]
      mxcsr := restored.mxcsr
      xmm := restored.xmm
      upper := fun on => restored.upper.trans (upper on)
      outside := fun y far => by
        rw [restored.mem]
        exact outside y far }
  · exact execute_faults (back_codes gateway avx) (back_stays gateway avx)
      (third.faults (restore_faults stacked (by omega)))

/-- For every state at the hook site, the handler is entered with the context of that state; whatever
context it leaves, the hooked function goes on with the registers of that context and its own stack
pointer, at the redirection or at the gateway.  `popfq` does not write what is not the thread's to
write, and a control word with a reserved bit faults.  The unwind codes are those of the prologue. -/
theorem buildStub_runs (site handler gateway ip : BitVec 64) (avx : Bool) (c₀ : X64.Cpu) :
    (∃ (reserved : BitVec 32) (e : X64.Cpu), Entered c₀ site reserved e ∧
      ∀ callee : BitVec 64 → X64.Cpu → X64.Cpu, Returns e (callee handler e) →
        (∃ x : HookContext, load (callee handler e).mem (e.reg .rcx) 400 = x.bytes) ∧
        ∀ x : HookContext, load (callee handler e).mem (e.reg .rcx) 400 = x.bytes →
          if x.mxcsr.toNat < 2 ^ 16 then
            ∃ out, execute callee ip (buildStub site handler gateway avx).bytes c₀ = some out ∧
              Resumed c₀ (callee handler e) x gateway avx out
          else execute callee ip (buildStub site handler gateway avx).bytes c₀ = none) ∧
    (buildStub site handler gateway avx).unwind.Describes
      (listing 0 ((buildStub site handler gateway avx).bytes.take
        (buildStub site handler gateway avx).unwind.prologSize.toNat)) 3 := by
  refine ⟨?_, prologue_described site handler gateway avx⟩
  obtain ⟨reserved, e, entered, run⟩ := execute_stub site handler gateway ip avx c₀
  exact ⟨reserved, e, entered, fun callee returns =>
    ⟨exists_context (length_load _ _ _), run callee returns⟩⟩

/-! ### Handlers that only write their context -/

/-- A handler that leaves the given context. -/
def leaving (x : HookContext) (e : X64.Cpu) : X64.Cpu :=
  { (e.write (e.reg .rcx) x.bytes).setReg .rsp (e.reg .rsp + 8) with flags := 0x202 }

theorem leaving_returns {site : BitVec 64} {reserved : BitVec 32} {e : X64.Cpu}
    (entered : Entered c₀ site reserved e) (x : HookContext) : Returns e (leaving x e) where
  rsp := X64.Cpu.setReg_self (e.write (e.reg .rcx) x.bytes) .rsp _
  rbp := by
    show ((e.write (e.reg .rcx) x.bytes).setReg .rsp (e.reg .rsp + 8)).reg .rbp = _
    rw [X64.Cpu.setReg_of_ne _ _ (by decide), X64.Cpu.write_reg]
  frame := fun y inside => by
    refine store_of_le ?_
    have near := entered.near
    have place : y - e.reg .rcx =
        y - (e.reg .rsp + 40) - (e.reg .rcx - (e.reg .rsp + 40)) :=
      (sub_sub_sub_cancel_right _ _ _).symm
    rw [length_bytes, place, BitVec.toNat_sub]
    omega

theorem leaving_context (x : HookContext) (e : X64.Cpu) :
    load (leaving x e).mem (e.reg .rcx) 400 = x.bytes := by
  have back := @load_store 64 e.mem (e.reg .rcx) x.bytes (by rw [length_bytes]; decide)
  rwa [length_bytes] at back

/-- A context that is zero but for its control word and its redirection. -/
def bareContext (mxcsr : BitVec 32) (redirectRip : BitVec 64) : HookContext :=
  ⟨0, 0, 0, 0, 0, 0, 0, 0, 0, 0, 0, 0, 0, 0, 0, 0, mxcsr, 0, fun _ => ⟨0, 0⟩, redirectRip⟩

/-- A thread with an empty stack. -/
def idleCpu : X64.Cpu :=
  ⟨fun r => if r = .rsp then 0x10000 else 0, 0x202, 0x1F80, fun _ => 0, fun _ => 0, fun _ => 0⟩

theorem redirected_runs : ∃ out,
    execute (fun _ => leaving (bareContext 0x1F80 7)) 0 (buildStub 1 2 3 true).bytes idleCpu =
      some out ∧ out.1 = 7 ∧ out.2.reg .rsp = 0x10000 := by
  obtain ⟨⟨reserved, e, entered, run⟩, -⟩ := buildStub_runs 1 2 3 0 true idleCpu
  have runs := (run (fun _ => leaving (bareContext 0x1F80 7)) (leaving_returns entered _)).2
    (bareContext 0x1F80 7) (leaving_context _ e)
  rw [if_pos (by decide)] at runs
  obtain ⟨out, ran, resumed⟩ := runs
  exact ⟨out, ran, resumed.target, resumed.rsp⟩

/-- A handler that clears the flags of its context does not clear those that only the system writes,
and one that leaves a reserved bit in the control word does not return. -/
theorem leaving_differs :
    (∃ out, execute (fun _ => leaving (bareContext 0x1F80 0)) 0 (buildStub 1 2 3 true).bytes
      idleCpu = some out ∧ out.2.flags ≠ (bareContext 0x1F80 0).rflags) ∧
    execute (fun _ => leaving (bareContext 0x10000 0)) 0 (buildStub 1 2 3 true).bytes idleCpu =
      none := by
  obtain ⟨reserved, e, entered, run⟩ := execute_stub 1 2 3 0 true idleCpu
  constructor
  · have runs := run (fun _ => leaving (bareContext 0x1F80 0)) (leaving_returns entered _)
      (bareContext 0x1F80 0) (leaving_context _ e)
    rw [if_pos (by decide)] at runs
    obtain ⟨out, ran, resumed⟩ := runs
    refine ⟨out, ran, ?_⟩
    rw [resumed.flags]
    show popFlags 0x202 0 ≠ 0
    decide
  · have runs := run (fun _ => leaving (bareContext 0x10000 0)) (leaving_returns entered _)
      (bareContext 0x10000 0) (leaving_context _ e)
    rwa [if_neg (by decide)] at runs

end MidHook

end NeoHook
