import Mathlib.Data.List.Perm.Basic

/-!
# Swap-with-last deletion

An unordered array drops entry `i` by moving its last entry there and forgetting the last
slot.  What is left is the old list less that entry, up to order (`perm_cons_swapRemove`),
and the slots before `i` are as they were (`getElem?_swapRemove_of_lt`).
-/

namespace Limine.Lib

variable {α : Type*}

def swapRemove (l : List α) (i : Nat) : List α :=
  match l.getLast? with
  | none => l
  | some z => if i < l.length - 1 then (l.set i z).dropLast else l.dropLast

theorem swapRemove_concat (l : List α) (z : α) (i : Nat) :
    swapRemove (l ++ [z]) i = if i < l.length then l.set i z else l := by
  unfold swapRemove
  rw [List.getLast?_concat]
  simp only [List.length_append, List.length_singleton, Nat.add_sub_cancel]
  split
  · next h => rw [List.set_append_left _ _ h, List.dropLast_concat]
  · rw [List.dropLast_concat]

theorem exists_concat_of_getElem? {l : List α} {i : Nat} {e : α} (h : l[i]? = some e) :
    ∃ l' z, l = l' ++ [z] := by
  have hne : l ≠ [] := by
    rintro rfl
    simp at h
  exact ⟨l.dropLast, l.getLast hne, (List.dropLast_append_getLast hne).symm⟩

theorem length_swapRemove {l : List α} {i : Nat} {e : α} (h : l[i]? = some e) :
    (swapRemove l i).length + 1 = l.length := by
  obtain ⟨l', z, rfl⟩ := exists_concat_of_getElem? h
  rw [swapRemove_concat]
  split <;> simp

theorem swapRemove_map {β : Type*} (f : α → β) (l : List α) (i : Nat) :
    swapRemove (l.map f) i = (swapRemove l i).map f := by
  rcases List.eq_nil_or_concat' l with rfl | ⟨l', z, rfl⟩
  · rfl
  · rw [List.map_append, List.map_singleton, swapRemove_concat, swapRemove_concat, List.length_map]
    split
    · rw [List.map_set]
    · rfl

/-- What entry `i` was set to does not matter. -/
theorem swapRemove_set {l : List α} {i : Nat} (h : i < l.length) (z : α) :
    swapRemove (l.set i z) i = swapRemove l i := by
  rcases List.eq_nil_or_concat' l with rfl | ⟨l', y, rfl⟩
  · rfl
  · by_cases hi : i < l'.length
    · rw [List.set_append_left _ _ hi, swapRemove_concat, swapRemove_concat, List.length_set, if_pos hi,
        if_pos hi, List.set_set]
    · obtain rfl : i = l'.length := by
        simp only [List.length_append, List.length_singleton] at h
        omega
      rw [List.set_append_right _ _ (Nat.le_refl _), Nat.sub_self, List.set_cons_zero, swapRemove_concat,
        swapRemove_concat, if_neg hi, if_neg hi]

theorem getElem?_swapRemove_of_lt {l : List α} {i k : Nat} {e : α} (h : l[i]? = some e)
    (hk : k < i) : (swapRemove l i)[k]? = l[k]? := by
  obtain ⟨l', z, rfl⟩ := exists_concat_of_getElem? h
  have hi : i < l'.length + 1 := by
    have := (List.getElem?_eq_some_iff.mp h).1
    simpa using this
  rw [swapRemove_concat]
  split
  · rw [List.getElem?_set_ne (by omega), List.getElem?_append_left (by omega)]
  · rw [List.getElem?_append_left (by omega)]

/-- Replacing entry `i` trades one element for another, up to order. -/
theorem perm_cons_set {l : List α} {i : Nat} {e : α} (h : l[i]? = some e) (z : α) :
    (z :: l).Perm (e :: l.set i z) := by
  induction l generalizing i with
  | nil => simp at h
  | cons a l ih =>
    cases i with
    | zero =>
      obtain rfl : a = e := by simpa using h
      exact List.Perm.swap _ _ _
    | succ i =>
      have h' : l[i]? = some e := by simpa using h
      exact (List.Perm.swap a z l).trans (((ih h').cons a).trans (List.Perm.swap e a _))

theorem perm_cons_swapRemove {l : List α} {i : Nat} {e : α} (h : l[i]? = some e) :
    l.Perm (e :: swapRemove l i) := by
  obtain ⟨l', z, rfl⟩ := exists_concat_of_getElem? h
  have hi : i < l'.length + 1 := by
    have := (List.getElem?_eq_some_iff.mp h).1
    simpa using this
  rw [swapRemove_concat]
  split
  · next hlt =>
    rw [List.getElem?_append_left hlt] at h
    exact (List.perm_append_singleton z l').trans (perm_cons_set h z)
  · next hge =>
    obtain rfl : i = l'.length := by omega
    obtain rfl : z = e := by simpa using h
    exact List.perm_append_singleton _ _

theorem take_swapRemove {l : List α} {i : Nat} {e : α} (h : l[i]? = some e) :
    (swapRemove l i).take i = l.take i := by
  apply List.ext_getElem?
  intro k
  by_cases hk : k < i
  · rw [List.getElem?_take_of_lt hk, List.getElem?_take_of_lt hk, getElem?_swapRemove_of_lt h hk]
  · rw [List.getElem?_take_eq_none (by omega), List.getElem?_take_eq_none (by omega)]

theorem drop_eq_cons {l : List α} {i : Nat} {e : α} (h : l[i]? = some e) :
    l.drop i = e :: l.drop (i + 1) := by
  obtain ⟨hi, rfl⟩ := List.getElem?_eq_some_iff.mp h
  exact List.drop_eq_getElem_cons hi

theorem drop_swapRemove_perm {l : List α} {i : Nat} {e : α} (h : l[i]? = some e) :
    ((swapRemove l i).drop i).Perm (l.drop (i + 1)) := by
  have h1 : l.Perm (e :: (l.take i ++ l.drop (i + 1))) := by
    conv_lhs => rw [← List.take_append_drop i l, drop_eq_cons h]
    exact List.perm_middle
  have h2 := ((perm_cons_swapRemove h).symm.trans h1).cons_inv
  rw [← List.take_append_drop i (swapRemove l i), take_swapRemove h] at h2
  exact (List.perm_append_left_iff _).mp h2

theorem take_succ_set {l : List α} {i : Nat} {e : α} (h : l[i]? = some e) (e' : α) :
    (l.set i e').take (i + 1) = l.take i ++ [e'] := by
  obtain ⟨hi, -⟩ := List.getElem?_eq_some_iff.mp h
  rw [List.take_add_one, List.getElem?_set_self hi, List.take_set_of_le (Nat.le_refl i)]
  rfl

/-- Every entry but the `i`th survives the deletion of entry `i`. -/
theorem mem_swapRemove_of_ne {l : List α} {i k : Nat} {e r : α} (he : l[i]? = some e)
    (hr : l[k]? = some r) (hk : k ≠ i) : r ∈ swapRemove l i := by
  obtain ⟨l', z, rfl⟩ := exists_concat_of_getElem? hr
  have hi : i < l'.length + 1 := by simpa using (List.getElem?_eq_some_iff.mp he).1
  have hlt : k < l'.length + 1 := by simpa using (List.getElem?_eq_some_iff.mp hr).1
  rw [swapRemove_concat]
  rcases Nat.lt_succ_iff_lt_or_eq.mp hlt with hkl | rfl
  · rw [List.getElem?_append_left hkl] at hr
    split
    · apply List.mem_of_getElem? (i := k)
      rw [List.getElem?_set_ne (Ne.symm hk), hr]
    · exact List.mem_of_getElem? hr
  · obtain rfl : z = r := by simpa using hr
    split
    · next hil => exact List.mem_set hil z
    · omega

end Limine.Lib
