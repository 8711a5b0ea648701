import Mathlib.Data.List.Basic

/-!
# Lists made of chunks

A list that is put together from one chunk for each element is the list of one item for each exactly where
every chunk is that item, as long as no chunk is empty.
-/

namespace Limine.Lib

variable {α β : Type}

theorem length_le_flatMap {f : α → List β} (l : List α) (h : ∀ a ∈ l, f a ≠ []) :
    l.length ≤ (l.flatMap f).length := by
  induction l with
  | nil => exact Nat.le_refl _
  | cons a l ih =>
    have hrest := ih fun b hb => h b (List.mem_cons_of_mem a hb)
    have hfirst := List.length_pos_iff.mpr (h a List.mem_cons_self)
    rw [List.flatMap_cons, List.length_append, List.length_cons]
    omega

theorem flatMap_eq_map_iff {f : α → List β} {g : α → β} {l : List α} (h : ∀ a ∈ l, f a ≠ []) :
    l.flatMap f = l.map g ↔ ∀ a ∈ l, f a = [g a] := by
  induction l with
  | nil => simp
  | cons a l ih =>
    have hrest : ∀ b ∈ l, f b ≠ [] := fun b hb => h b (List.mem_cons_of_mem a hb)
    rw [List.flatMap_cons, List.map_cons, List.forall_mem_cons, ← ih hrest]
    constructor
    · intro heq
      obtain ⟨b, chunk, hchunk⟩ := List.exists_cons_of_ne_nil (h a List.mem_cons_self)
      rw [hchunk, List.cons_append, List.cons.injEq] at heq
      -- a longer chunk would leave too few items for the rest
      have hnil : chunk = [] := by
        have hlen := congrArg List.length heq.2
        have hle := length_le_flatMap l hrest
        rw [List.length_append, List.length_map] at hlen
        exact List.length_eq_zero_iff.mp (by omega)
      subst hnil
      exact ⟨by rw [hchunk, heq.1], heq.2⟩
    · rintro ⟨hfirst, hrest⟩
      rw [hfirst, hrest]
      rfl

end Limine.Lib
