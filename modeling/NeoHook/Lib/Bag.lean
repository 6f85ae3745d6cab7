import Mathlib

/-!
# Bags of objects

Rules for a multiset of objects one of which is added, replaced or taken out: how a symmetric
relation between its members and a count of its members change.
-/

namespace Bag

variable {α : Type*}

theorem pairwise_cons {r : α → α → Prop} [Std.Symm r] {a : α} {s : Multiset α} :
    (a ::ₘ s).Pairwise r ↔ (∀ b ∈ s, r a b) ∧ s.Pairwise r := by
  induction s using Quotient.inductionOn with
  | h l =>
    simp only [Multiset.quot_mk_to_coe, Multiset.cons_coe, Multiset.pairwise_coe_iff_pairwise,
      List.pairwise_cons, Multiset.mem_coe]

/-- Members of a pairwise related bag stay related when one is replaced by another that is related
to the rest in the same way. -/
theorem pairwise_replace {r : α → α → Prop} [Std.Symm r] {a a' : α} {s : Multiset α}
    (h : (a ::ₘ s).Pairwise r) (ha : ∀ b, r a b → r a' b) : (a' ::ₘ s).Pairwise r := by
  rw [pairwise_cons] at h ⊢
  exact ⟨fun b hb => ha b (h.1 b hb), h.2⟩

theorem nodup_map {β : Type*} {f : α → β} {s : Multiset α} (h : s.Pairwise fun a b => f a ≠ f b) :
    (s.map f).Nodup := by
  obtain ⟨l, rfl, hl⟩ := h
  rw [Multiset.map_coe, Multiset.coe_nodup, List.Nodup, List.pairwise_map]
  exact hl

/-- A pairwise relation may be weakened using what holds of every member. -/
theorem pairwise_imp_of_mem {r q : α → α → Prop} {s : Multiset α} (h : s.Pairwise r)
    (hq : ∀ a ∈ s, ∀ b ∈ s, r a b → q a b) : s.Pairwise q := by
  obtain ⟨l, rfl, hl⟩ := h
  exact ⟨l, rfl, hl.imp_of_mem fun ha hb => hq _ ha _ hb⟩

theorem pairwise_of_le {r : α → α → Prop} {s t : Multiset α} (h : s.Pairwise r) (le : t ≤ s) :
    t.Pairwise r := by
  obtain ⟨l, rfl, hl⟩ := h
  induction t using Quotient.inductionOn with
  | h l' =>
    obtain ⟨l'', perm, sub⟩ := Multiset.coe_le.1 le
    exact ⟨l'', (Multiset.coe_eq_coe.2 perm).symm, hl.sublist sub⟩

/-- Selected members that differ pairwise in `f` have as many values of `f`. -/
theorem nodup_map_filter {β : Type*} {p : α → Prop} [DecidablePred p] {f : α → β} {s : Multiset α}
    (h : s.Pairwise fun a b => p a → p b → f a ≠ f b) : ((s.filter p).map f).Nodup := by
  obtain ⟨l, rfl, hl⟩ := h
  rw [Multiset.filter_coe, Multiset.map_coe, Multiset.coe_nodup, List.Nodup, List.pairwise_map]
  refine (hl.filter p).imp_of_mem fun ha hb hab => ?_
  rw [List.mem_filter] at ha hb
  exact hab (of_decide_eq_true ha.2) (of_decide_eq_true hb.2)

/-! ### A list with keys -/

/-- Taking the first match out of a list and putting it in front rearranges the list. -/
theorem perm_cons_eraseP {p : α → Bool} {l : List α} {a : α} (h : l.find? p = some a) :
    l.Perm (a :: l.eraseP p) := by
  obtain ⟨ha, as, bs, rfl, none⟩ := List.find?_eq_some_iff_append.1 h
  rw [List.eraseP_append_right _ (fun b hb => by simpa using none b hb), List.eraseP_cons_of_pos ha]
  exact List.perm_middle

/-- Taking out the first match for one key leaves the first match for another. -/
theorem find?_eraseP {p q : α → Bool} {l : List α} (h : ∀ a, p a = true → q a = false) :
    (l.eraseP p).find? q = l.find? q := by
  induction l with
  | nil => rfl
  | cons a l ih =>
    cases hp : p a with
    | true => rw [List.eraseP_cons_of_pos hp, List.find?_cons_of_neg (by simp [h a hp])]
    | false =>
      rw [List.eraseP_cons_of_neg (by simp [hp])]
      cases hq : q a with
      | true => rw [List.find?_cons_of_pos hq, List.find?_cons_of_pos hq]
      | false =>
        rw [List.find?_cons_of_neg (by simp [hq]), List.find?_cons_of_neg (by simp [hq]), ih]

/-- With distinct keys a key that is taken out is gone. -/
theorem key_notMem_eraseP {κ β : Type*} [DecidableEq κ] {l : List (κ × β)} {k : κ}
    (nodup : (l.map Prod.fst).Nodup) : k ∉ (l.eraseP fun e => e.1 = k).map Prod.fst := by
  induction l with
  | nil => simp
  | cons a l ih =>
    rw [List.map_cons, List.nodup_cons] at nodup
    by_cases here : a.1 = k
    · rw [List.eraseP_cons_of_pos (by simpa using here)]
      exact here ▸ nodup.1
    · rw [List.eraseP_cons_of_neg (by simpa using here), List.map_cons, List.mem_cons, not_or]
      exact ⟨fun eq => here eq.symm, ih nodup.2⟩

/-- Only one element of a list is sent to a value that its images hold once. -/
theorem index_eq_of_nodup_filterMap {β : Type*} {f : α → Option β} {l : List α}
    (nodup : (l.filterMap f).Nodup) {i j : ℕ} {a b : α} {t : β} (hi : l[i]? = some a)
    (hj : l[j]? = some b) (ha : f a = some t) (hb : f b = some t) : i = j := by
  induction l generalizing i j with
  | nil => simp at hi
  | cons x rest ih =>
    have later : ∀ {y : α} {n : ℕ}, rest[n]? = some y → f y = some t → f x ≠ some t := by
      intro y n at_ to_ fx
      rw [List.filterMap_cons, fx] at nodup
      refine (List.nodup_cons.mp nodup).1 (List.mem_filterMap.mpr ⟨y, ?_, to_⟩)
      exact List.mem_of_getElem? at_
    have tail : (rest.filterMap f).Nodup := by
      rw [List.filterMap_cons] at nodup
      split at nodup
      · exact nodup
      · exact (List.nodup_cons.mp nodup).2
    cases i with
    | zero =>
      rw [List.getElem?_cons_zero, Option.some.injEq] at hi
      cases j with
      | zero => rfl
      | succ j => exact absurd (hi ▸ ha) (later hj hb)
    | succ i =>
      cases j with
      | zero =>
        rw [List.getElem?_cons_zero, Option.some.injEq] at hj
        exact absurd (hj ▸ hb) (later hi ha)
      | succ j => rw [ih tail hi hj]

theorem eq_of_nodup_filterMap {β : Type*} {f : α → Option β} {l : List α}
    (nodup : (l.filterMap f).Nodup) {a b : α} {t : β} (mem : a ∈ l) (mem' : b ∈ l)
    (ha : f a = some t) (hb : f b = some t) : a = b := by
  obtain ⟨i, hi⟩ := List.mem_iff_getElem?.1 mem
  obtain ⟨j, hj⟩ := List.mem_iff_getElem?.1 mem'
  obtain rfl := index_eq_of_nodup_filterMap nodup hi hj ha hb
  exact Option.some.inj (hi.symm.trans hj)

end Bag
