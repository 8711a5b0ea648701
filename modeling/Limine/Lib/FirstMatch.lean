import Mathlib.Data.List.Infix

/-!
# The first that is taken, and the last that was

A search that takes the first element of a list passing a test, where the test is wider than what is
looked for: when is what it takes right all the same.

    find? finds only what is meant  ↔  each element wrongly taken stands after one that is meant   (find?_meant_iff)
-/

namespace Limine.Lib

variable {α : Type}

/-- Every element that passes the test and is not meant stands after one that passes and is. -/
def Preceded (taken meant : α → Prop) (l : List α) : Prop :=
  ∀ before v after, l = before ++ v :: after → taken v → ¬ meant v → ∃ w ∈ before, taken w ∧ meant w

theorem find?_meant_iff {p : α → Bool} {meant : α → Prop} {l : List α} :
    (∀ v, l.find? p = some v → meant v) ↔ Preceded (fun v => p v = true) meant l := by
  constructor
  · intro h before v after hl hv hmeant
    -- the one found stands at `v` or before it, and is not `v`
    obtain ⟨w, hw⟩ : ∃ w, before.find? p = some w := by
      rw [← Option.ne_none_iff_exists']
      intro hnone
      refine hmeant (h v ?_)
      rw [hl, List.find?_append, hnone, Option.none_or, List.find?_cons_of_pos hv]
    refine ⟨w, List.mem_of_find?_eq_some hw, List.find?_some hw, h w ?_⟩
    rw [hl, List.find?_append, hw, Option.some_or]
  · intro h v hv
    obtain ⟨hp, before, after, hl, hbefore⟩ := List.find?_eq_some_iff_append.mp hv
    by_contra hmeant
    obtain ⟨w, hw, hpw, -⟩ := h before v after hl hp hmeant
    have := hbefore w hw
    simp [hpw] at this

/-- One list goes on where the other ends, or both are the same. -/
def Comparable (p q : List α) : Prop := p <+: q ∨ q <+: p

@[simp] theorem comparable_nil_left (q : List α) : Comparable [] q := .inl List.nil_prefix

@[simp] theorem comparable_nil_right (p : List α) : Comparable p [] := .inr List.nil_prefix

@[simp] theorem comparable_cons {a b : α} {p q : List α} :
    Comparable (a :: p) (b :: q) ↔ a = b ∧ Comparable p q := by
  simp only [Comparable, List.cons_prefix_cons]
  grind

theorem Comparable.refl (p : List α) : Comparable p p := .inl (List.prefix_refl p)

instance [DecidableEq α] (p q : List α) : Decidable (Comparable p q) :=
  inferInstanceAs (Decidable (p <+: q ∨ q <+: p))

/-!
## The last of a kind in a history

A history is a list with the newest entry at its end.
-/

section
variable {p : α → Prop} {h front back : List α} {x t : α}

/-- `x` is the last entry of `h` with `p`; `back` came since. -/
structure Last (p : α → Prop) (h front : List α) (x : α) (back : List α) : Prop where
  split : h = front ++ x :: back
  here : p x
  since : ∀ t ∈ back, ¬p t

theorem Last.of_concat (ht : p t) : Last p (h ++ [t]) h t [] :=
  ⟨rfl, ht, fun _ hmem => absurd hmem (List.not_mem_nil)⟩

theorem Last.concat (hlast : Last p h front x back) (ht : ¬p t) : Last p (h ++ [t]) front x (back ++ [t]) := by
  refine ⟨?_, hlast.here, fun u hu => ?_⟩
  · rw [hlast.split, List.append_assoc, List.cons_append]
  · rcases List.mem_append.mp hu with hu | hu
    · exact hlast.since u hu
    · rw [List.mem_singleton.mp hu]
      exact ht

end

end Limine.Lib
