import Mathlib.Data.Multiset.AddSub
import Mathlib.Data.Multiset.MapFold
import Mathlib.Data.Multiset.ZeroCons
import Mathlib.Logic.Function.Basic

/-!
# Slot tables

A table of slots with a key and a value each.  A slot is free while its key is null; otherwise it
belongs to one owner, who knows the slot.
-/

namespace SlotTable

variable {α β : Type}

structure Table (α β : Type) where
  key : ℕ → α
  value : ℕ → β

structure Owner (α β : Type) where
  key : α
  value : β
  slot : ℕ

namespace Table

/-- Writes a slot. -/
def set (T : Table α β) (slot : ℕ) (key : α) (value : β) : Table α β :=
  ⟨Function.update T.key slot key, Function.update T.value slot value⟩

section Set

variable (T : Table α β) {i slot : ℕ} (key : α) (value : β)

theorem set_key_self : (T.set slot key value).key slot = key := Function.update_self _ _ _

theorem set_value_self : (T.set slot key value).value slot = value := Function.update_self _ _ _

theorem set_key_of_ne (h : i ≠ slot) : (T.set slot key value).key i = T.key i :=
  Function.update_of_ne h _ _

theorem set_value_of_ne (h : i ≠ slot) : (T.set slot key value).value i = T.value i :=
  Function.update_of_ne h _ _

end Set

/-- No slot is in use. -/
def Empty [Zero α] (n : ℕ) (T : Table α β) : Prop := ∀ i < n, T.key i = 0

/-- The first `n` slots are in use by the owners, each with a key of its own. -/
structure Fits [Zero α] (n : ℕ) (T : Table α β) (owners : Multiset (Owner α β)) : Prop where
  distinct : ∀ i < n, ∀ j < n, T.key i ≠ 0 → T.key i = T.key j → i = j
  owned : ∀ o ∈ owners, o.slot < n ∧ o.key ≠ 0 ∧ T.key o.slot = o.key ∧ T.value o.slot = o.value
  nodup : (owners.map (·.slot)).Nodup
  used : ∀ i < n, T.key i ≠ 0 → ∃ o ∈ owners, o.slot = i

variable [Zero α] {n : ℕ} {T T' : Table α β} {owners : Multiset (Owner α β)}

theorem fits_zero (h : T.Empty n) : T.Fits n 0 where
  distinct i lt _ _ used := absurd (h i lt) used
  owned o mem := absurd mem (Multiset.notMem_zero o)
  nodup := Multiset.nodup_zero
  used i lt used := absurd (h i lt) used

/-- Without owners no slot is in use. -/
theorem Fits.empty (h : T.Fits n 0) : T.Empty n := by
  intro i lt
  by_contra used
  obtain ⟨o, mem, -⟩ := h.used i lt used
  exact Multiset.notMem_zero o mem

/-- A free slot goes to a key that has none. -/
theorem Fits.set {slot : ℕ} {key : α} {value : β} (h : T.Fits n owners) (lt : slot < n)
    (free : T.key slot = 0) (nonnull : key ≠ 0) (other : ∀ i < n, T.key i ≠ key) :
    (T.set slot key value).Fits n (⟨key, value, slot⟩ ::ₘ owners) := by
  have apart {o : Owner α β} (mem : o ∈ owners) : o.slot ≠ slot := by
    obtain ⟨-, used, key, -⟩ := h.owned o mem
    exact fun eq => used (key.symm.trans (eq ▸ free))
  refine ⟨?_, ?_, ?_, ?_⟩
  · intro i lti j ltj used same
    by_cases here : i = slot <;> by_cases there : j = slot
    · rw [here, there]
    · rw [here, set_key_self, set_key_of_ne T key value there] at same
      exact absurd same.symm (other j ltj)
    · rw [there, set_key_self, set_key_of_ne T key value here] at same
      exact absurd same (other i lti)
    · rw [set_key_of_ne T key value here] at used same
      rw [set_key_of_ne T key value there] at same
      exact h.distinct i lti j ltj used same
  · intro o mem
    rcases Multiset.mem_cons.mp mem with rfl | mem
    · exact ⟨lt, nonnull, T.set_key_self key value, T.set_value_self key value⟩
    · rw [set_key_of_ne T key value (apart mem), set_value_of_ne T key value (apart mem)]
      exact h.owned o mem
  · rw [Multiset.map_cons, Multiset.nodup_cons]
    refine ⟨fun mem => ?_, h.nodup⟩
    obtain ⟨o, held, same⟩ := Multiset.mem_map.mp mem
    exact apart held same
  · intro i lti used
    by_cases here : i = slot
    · exact ⟨_, Multiset.mem_cons_self _ _, here.symm⟩
    · rw [set_key_of_ne T key value here] at used
      obtain ⟨o, mem, at_⟩ := h.used i lti used
      exact ⟨o, Multiset.mem_cons_of_mem mem, at_⟩

/-- An owner gives its slot up; the value may stay behind. -/
theorem Fits.clear {o : Owner α β} (h : T.Fits n (o ::ₘ owners)) (cleared : T'.key o.slot = 0)
    (keys : ∀ i ≠ o.slot, T'.key i = T.key i) (values : ∀ i ≠ o.slot, T'.value i = T.value i) :
    T'.Fits n owners := by
  have nodup := h.nodup
  rw [Multiset.map_cons, Multiset.nodup_cons] at nodup
  have apart {o' : Owner α β} (mem : o' ∈ owners) : o'.slot ≠ o.slot :=
    fun same => nodup.1 (same ▸ Multiset.mem_map_of_mem (·.slot) mem)
  refine ⟨?_, ?_, nodup.2, ?_⟩
  · intro i lti j ltj used same
    have here : i ≠ o.slot := fun eq => used (eq ▸ cleared)
    have there : j ≠ o.slot := fun eq => used (same.trans (eq ▸ cleared))
    rw [keys i here] at used same
    rw [keys j there] at same
    exact h.distinct i lti j ltj used same
  · intro o' mem
    rw [keys _ (apart mem), values _ (apart mem)]
    exact h.owned o' (Multiset.mem_cons_of_mem mem)
  · intro i lti used
    have here : i ≠ o.slot := fun eq => used (eq ▸ cleared)
    rw [keys i here] at used
    obtain ⟨o', mem, at_⟩ := h.used i lti used
    rcases Multiset.mem_cons.mp mem with rfl | mem
    · exact absurd at_.symm here
    · exact ⟨o', mem, at_⟩

/-- Only the value of a free slot changes. -/
theorem Fits.keep (h : T.Fits n owners) (keys : T'.key = T.key)
    (values : ∀ i < n, T.key i ≠ 0 → T'.value i = T.value i) : T'.Fits n owners := by
  refine ⟨keys ▸ h.distinct, fun o mem => ?_, h.nodup, keys ▸ h.used⟩
  obtain ⟨lt, nonnull, key, value⟩ := h.owned o mem
  rw [keys, values o.slot lt (key ▸ nonnull)]
  exact ⟨lt, nonnull, key, value⟩

end Table

end SlotTable
