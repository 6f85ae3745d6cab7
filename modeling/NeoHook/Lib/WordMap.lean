import NeoHook.Lib.ByteMap

/-!
# Byte-addressed memory with wrapping addresses

A memory whose addresses are words of `w` bits: a block may run across the end of the address space.
`store` and `load` move a block of bytes; a store of two parts is the two stores one after the
other, and a store over another of the same size replaces it.
-/

namespace WordMap

open ByteMap

variable {w : ℕ}

/-- The memory `m` with the bytes `bs` stored at `a`. -/
def store (m : BitVec w → UInt8) (a : BitVec w) (bs : List UInt8) : BitVec w → UInt8 :=
  fun x => if (x - a).toNat < bs.length then bs.getD (x - a).toNat 0 else m x

/-- The `n` bytes at `a`. -/
def load (m : BitVec w → UInt8) (a : BitVec w) (n : ℕ) : List UInt8 :=
  (List.range n).map fun i => m (a + BitVec.ofNat w i)

/-- A block that fits in the address space reads back as it was stored. -/
theorem load_store (m : BitVec w → UInt8) (a : BitVec w) {bs : List UInt8}
    (fits : bs.length ≤ 2 ^ w) : load (store m a bs) a bs.length = bs := by
  apply List.ext_getElem
  · simp [load]
  · intro i _ inside
    have place : (a + BitVec.ofNat w i - a).toNat = i := by
      rw [add_sub_cancel_left, BitVec.toNat_ofNat, Nat.mod_eq_of_lt (by omega)]
    simp only [load, store, List.getElem_map, List.getElem_range, place, if_pos inside]
    exact List.getD_eq_getElem _ _ inside

/-- The distance to a place `n` bytes further on. -/
theorem toNat_sub_add (x a : BitVec w) {n : ℕ} (small : n < 2 ^ w) :
    (x - (a + BitVec.ofNat w n)).toNat =
      if n ≤ (x - a).toNat then (x - a).toNat - n else (x - a).toNat + 2 ^ w - n := by
  have split : x - (a + BitVec.ofNat w n) = (x - a) - BitVec.ofNat w n := by
    rw [sub_add_eq_sub_sub]
  have bound := (x - a).isLt
  rw [split, BitVec.toNat_sub, BitVec.toNat_ofNat, Nat.mod_eq_of_lt small]
  split_ifs with le
  · rw [show 2 ^ w - n + (x - a).toNat = ((x - a).toNat - n) + 2 ^ w by omega, Nat.add_mod_right,
      Nat.mod_eq_of_lt (by omega)]
  · rw [Nat.mod_eq_of_lt (by omega)]
    omega

theorem store_append (m : BitVec w → UInt8) (a : BitVec w) {bs cs : List UInt8}
    (fits : bs.length + cs.length ≤ 2 ^ w) (some_after : 0 < cs.length) :
    store m a (bs ++ cs) = store (store m a bs) (a + BitVec.ofNat w bs.length) cs := by
  funext x
  have bound := (x - a).isLt
  simp only [store, toNat_sub_add x a (show bs.length < 2 ^ w by omega), List.length_append]
  by_cases before : (x - a).toNat < bs.length
  · rw [if_pos (by omega), if_neg (show ¬ bs.length ≤ (x - a).toNat by omega), if_neg (by omega),
      if_pos before, List.getD_append _ _ _ _ before]
  · rw [if_pos (show bs.length ≤ (x - a).toNat by omega), if_neg before,
      List.getD_append_right _ _ _ _ (by omega)]
    by_cases inside : (x - a).toNat < bs.length + cs.length
    · rw [if_pos inside, if_pos (by omega)]
    · rw [if_neg inside, if_neg (by omega)]

theorem store_store (m : BitVec w → UInt8) (a : BitVec w) {bs cs : List UInt8}
    (same : bs.length = cs.length) : store (store m a bs) a cs = store m a cs := by
  funext x
  simp only [store, same]
  split_ifs <;> rfl

@[simp] theorem length_load (m : BitVec w → UInt8) (a : BitVec w) (n : ℕ) :
    (load m a n).length = n := by
  simp [load]

theorem load_congr {m m' : BitVec w → UInt8} {a : BitVec w} {n : ℕ}
    (same : ∀ i < n, m (a + BitVec.ofNat w i) = m' (a + BitVec.ofNat w i)) :
    load m a n = load m' a n := by
  unfold load
  refine List.map_congr_left fun i there => ?_
  exact same i (List.mem_range.mp there)

/-- A block is its two parts. -/
theorem load_add (m : BitVec w → UInt8) (a : BitVec w) (n k : ℕ) :
    load m a (n + k) = load m a n ++ load m (a + BitVec.ofNat w n) k := by
  unfold load
  rw [List.range_add, List.map_append, List.map_map]
  congr 1
  refine List.map_congr_left fun i _ => ?_
  simp only [Function.comp, BitVec.ofNat_add, BitVec.add_assoc]

/-- A store does not change what lies outside its block. -/
theorem store_of_le {m : BitVec w → UInt8} {a x : BitVec w} {bs : List UInt8}
    (outside : bs.length ≤ (x - a).toNat) : store m a bs x = m x := by
  unfold store
  rw [if_neg (by omega)]

theorem toNat_add_sub (a : BitVec w) {d e : ℕ} (le : d ≤ e) (small : e < 2 ^ w) :
    (a + BitVec.ofNat w e - (a + BitVec.ofNat w d)).toNat = e - d := by
  have split : a + BitVec.ofNat w e - (a + BitVec.ofNat w d) = BitVec.ofNat w (e - d) := by
    rw [add_sub_add_left_eq_sub, ← BitVec.ofNat_sub_ofNat_of_le _ _ (by omega) le]
  rw [split, BitVec.toNat_ofNat, Nat.mod_eq_of_lt (by omega)]

/-- A block behind the one stored, counted from a common base. -/
theorem load_store_behind (m : BitVec w → UInt8) (a : BitVec w) {bs : List UInt8} {d e n : ℕ}
    (behind : d + bs.length ≤ e) (fits : e + n ≤ 2 ^ w) :
    load (store m (a + BitVec.ofNat w d) bs) (a + BitVec.ofNat w e) n =
      load m (a + BitVec.ofNat w e) n := by
  refine load_congr fun i less => store_of_le ?_
  rw [BitVec.add_assoc, ← BitVec.ofNat_add, toNat_add_sub a (by omega) (by omega)]
  omega

end WordMap
