import NeoHook.Lib.X64

/-!
# Stacks

What a thread puts on its stack and takes from it.  `Saved` says that since some earlier state only
the stack has grown, by the given bytes; `reserve` and `overwrite` are its rules, and pushes are made
of them.  Addresses wrap, so nothing is asked of the stack pointer.
-/

namespace X64

open ByteMap WordMap

variable {c₀ c : Cpu} {content : List UInt8}

/-- What has been stored below `s` does not reach a place that is further below. -/
theorem store_below {m : BitVec 64 → UInt8} {s x : BitVec 64} {bs : List UInt8} {n : ℕ}
    (length : bs.length ≤ n) (small : n < 2 ^ 64) (far : n ≤ (s - 1 - x).toNat) :
    store m (s - BitVec.ofNat 64 n) bs x = m x := by
  refine store_of_le ?_
  have place : x = s - 1 - BitVec.ofNat 64 (s - 1 - x).toNat := by
    rw [BitVec.ofNat_toNat, BitVec.setWidth_eq, sub_sub_cancel]
  have bound := (s - 1 - x).isLt
  generalize (s - 1 - x).toNat = d at *
  have distance : x - (s - BitVec.ofNat 64 n) = BitVec.ofNat 64 n - 1 - BitVec.ofNat 64 d := by
    rw [place]
    abel
  rw [distance, BitVec.toNat_sub, BitVec.toNat_sub, BitVec.toNat_ofNat, BitVec.toNat_ofNat,
    Nat.mod_eq_of_lt small, Nat.mod_eq_of_lt bound, show (1 : BitVec 64).toNat = 1 from rfl]
  omega

/-- Only the stack has changed since `c₀`: the content has been put on it. -/
structure Saved (c₀ c : Cpu) (content : List UInt8) : Prop where
  rsp : c.reg .rsp = c₀.reg .rsp - BitVec.ofNat 64 content.length
  stack : load c.mem (c.reg .rsp) content.length = content
  outside : ∀ x, content.length ≤ (c₀.reg .rsp - 1 - x).toNat → c.mem x = c₀.mem x
  regs : ∀ r, r ≠ .rsp → c.reg r = c₀.reg r
  flags : c.flags = c₀.flags
  mxcsr : c.mxcsr = c₀.mxcsr
  xmm : c.xmm = c₀.xmm
  upper : c.upper = c₀.upper

theorem Saved.refl (c : Cpu) : Saved c c [] where
  rsp := by simp
  stack := rfl
  outside := fun _ _ => rfl
  regs := fun _ _ => rfl
  flags := rfl
  mxcsr := rfl
  xmm := rfl
  upper := rfl

/-- The stack pointer is moved down. -/
theorem Saved.reserve (saved : Saved c₀ c content) (n : ℕ) :
    Saved c₀ (c.setReg .rsp (c.reg .rsp - BitVec.ofNat 64 n))
      (load c.mem (c.reg .rsp - BitVec.ofNat 64 n) n ++ content) where
  rsp := by
    rw [List.length_append, length_load, BitVec.ofNat_add, Cpu.setReg_self, saved.rsp]
    abel
  stack := by
    rw [List.length_append, length_load, Cpu.setReg_self, Cpu.setReg_mem, load_add,
      BitVec.sub_add_cancel, saved.stack]
  outside := fun x far => saved.outside x (by rw [List.length_append] at far; omega)
  regs := fun r other => by
    rw [Cpu.setReg_of_ne _ _ other]
    exact saved.regs r other
  flags := saved.flags
  mxcsr := saved.mxcsr
  xmm := saved.xmm
  upper := saved.upper

/-- The top of the stack is written. -/
theorem Saved.overwrite {old bs : List UInt8} (saved : Saved c₀ c (old ++ content))
    (same : old.length = bs.length) (fits : (old ++ content).length < 2 ^ 64) :
    Saved c₀ (c.write (c.reg .rsp) bs) (bs ++ content) where
  rsp := by
    rw [List.length_append, ← same, ← List.length_append]
    exact saved.rsp
  stack := by
    have whole := saved.stack
    rw [List.length_append] at whole fits ⊢
    rw [load_add] at whole
    have rest := List.append_inj_right whole (by simp)
    have behind : load (store c.mem (c.reg .rsp) bs) (c.reg .rsp + BitVec.ofNat 64 bs.length)
        content.length = load c.mem (c.reg .rsp + BitVec.ofNat 64 bs.length) content.length := by
      have apart := @load_store_behind 64 c.mem (c.reg .rsp) bs 0 bs.length content.length
        (by omega) (by omega)
      rwa [show BitVec.ofNat 64 0 = 0 from rfl, add_zero] at apart
    rw [Cpu.write_mem, Cpu.write_reg, load_add, load_store _ _ (by omega), behind, ← same, rest]
  outside := fun x far => by
    rw [List.length_append] at far fits
    have kept := saved.outside x (by rw [List.length_append]; omega)
    rw [← kept]
    show store c.mem (c.reg .rsp) bs x = c.mem x
    rw [saved.rsp]
    exact store_below (by rw [List.length_append]; omega) (by rw [List.length_append]; omega)
      (by rw [List.length_append]; omega)
  regs := saved.regs
  flags := saved.flags
  mxcsr := saved.mxcsr
  xmm := saved.xmm
  upper := saved.upper

/-- Room is made on the stack and its lower end is written. -/
theorem Saved.store (saved : Saved c₀ c content) {n : ℕ} {bs : List UInt8} (length : bs.length ≤ n)
    (fits : n + content.length < 2 ^ 64) :
    ∃ pad : List UInt8, pad.length = n - bs.length ∧
      Saved c₀ ((c.setReg .rsp (c.reg .rsp - BitVec.ofNat 64 n)).write
        (c.reg .rsp - BitVec.ofNat 64 n) bs) (bs ++ (pad ++ content)) := by
  have reserved := saved.reserve n
  obtain ⟨k, rfl⟩ := Nat.exists_eq_add_of_le length
  rw [load_add, List.append_assoc] at reserved
  have written := @Saved.overwrite _ _ _ _ bs reserved (by simp)
    (by simp only [List.length_append, length_load]; omega)
  rw [Cpu.setReg_self] at written
  exact ⟨_, by rw [length_load]; omega, written⟩

/-- A whole block is put on the stack. -/
theorem Saved.block (saved : Saved c₀ c content) {bs : List UInt8}
    (fits : bs.length + content.length < 2 ^ 64) :
    Saved c₀ ((c.setReg .rsp (c.reg .rsp - BitVec.ofNat 64 bs.length)).write
      (c.reg .rsp - BitVec.ofNat 64 bs.length) bs) (bs ++ content) := by
  obtain ⟨pad, length, written⟩ := saved.store le_rfl fits
  obtain rfl := List.length_eq_zero_iff.mp (by simpa using length)
  exact written

/-- A value is pushed. -/
theorem Saved.push (saved : Saved c₀ c content) (fits : 8 + content.length < 2 ^ 64)
    (v : BitVec 64) : Saved c₀ (c.push v) (leBytes 8 v.toNat ++ content) := by
  have written := @Saved.block _ _ _ saved (leBytes 8 v.toNat) (by rwa [length_leBytes])
  rw [length_leBytes] at written
  exact written

/-- Registers are pushed. -/
theorem Saved.pushes (saved : Saved c₀ c content) {rs : List Reg} (others : ∀ r ∈ rs, r ≠ .rsp)
    (fits : 8 * rs.length + content.length < 2 ^ 64) :
    ∃ c', Runs (rs.map .push) c c' ∧
      Saved c₀ c' ((rs.reverse.flatMap fun r => leBytes 8 (c₀.reg r).toNat) ++ content) := by
  induction rs generalizing c content with
  | nil => exact ⟨c, Runs.nil, saved⟩
  | cons r rest ih =>
    obtain ⟨here, later⟩ := List.forall_mem_cons.mp others
    rw [List.length_cons] at fits
    have pushed := saved.push (by omega) (c.reg r)
    rw [saved.regs r here] at pushed
    obtain ⟨c', runs, result⟩ := ih pushed later
      (by rw [List.length_append, length_leBytes]; omega)
    refine ⟨c', Runs.cons (by rw [Cpu.step, saved.regs r here]) runs, ?_⟩
    simpa [List.flatMap_append] using result

end X64
