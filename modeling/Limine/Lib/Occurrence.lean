import Mathlib.Data.List.Basic

/-!
# Occurrences

Where a pattern stands in a text, and where it does so first.  To overwrite what is behind the first
occurrence moves no occurrence up to it.
-/

namespace Limine.Lib

section
variable {α : Type}

/-- The pattern stands at position `s` of the text. -/
def OccursAt (pattern text : List α) (s : Nat) : Prop := ∀ k, k < pattern.length → text[s + k]? = pattern[k]?

structure FirstAt (pattern text : List α) (s : Nat) : Prop where
  occurs : OccursAt pattern text s
  first : ∀ s', s' < s → ¬OccursAt pattern text s'

/-- The text with something else from a position on. -/
def overwrite (text new : List α) (pos : Nat) : List α := text.take pos ++ new ++ text.drop (pos + new.length)

variable {pattern text new : List α} {s pos : Nat}

theorem OccursAt.length_le (h : OccursAt pattern text s) : pattern = [] ∨ s + pattern.length ≤ text.length := by
  by_cases hempty : pattern = []
  · exact Or.inl hempty
  · have hpos := List.length_pos_iff.mpr hempty
    have hlast := h (pattern.length - 1) (by omega)
    rw [List.getElem?_eq_getElem (l := pattern) (by omega)] at hlast
    have hlt := (List.getElem?_eq_some_iff.mp hlast).1
    exact Or.inr (by omega)

theorem FirstAt.unique {s' : Nat} (h : FirstAt pattern text s) (h' : FirstAt pattern text s') : s = s' := by
  rcases Nat.lt_trichotomy s s' with hlt | heq | hgt
  · exact absurd h.occurs (h'.first s hlt)
  · exact heq
  · exact absurd h'.occurs (h.first s' hgt)

theorem length_overwrite (h : pos + new.length ≤ text.length) : (overwrite text new pos).length = text.length := by
  simp [overwrite]
  omega

theorem take_overwrite (h : pos ≤ text.length) : (overwrite text new pos).take pos = text.take pos := by
  unfold overwrite
  rw [List.append_assoc, List.take_append_of_le_length (by rw [List.length_take]; omega), List.take_take, Nat.min_self]

theorem drop_overwrite (h : pos ≤ text.length) :
    (overwrite text new pos).drop (pos + new.length) = text.drop (pos + new.length) := by
  have hlength : (text.take pos ++ new).length = pos + new.length := by
    rw [List.length_append, List.length_take]
    omega
  unfold overwrite
  rw [← hlength, List.drop_left]

/-- Before the position nothing changes. -/
theorem getElem?_overwrite_of_lt {k : Nat} (hpos : pos ≤ text.length) (hk : k < pos) :
    (overwrite text new pos)[k]? = text[k]? := by
  rw [← List.getElem?_take_of_lt hk, take_overwrite hpos, List.getElem?_take_of_lt hk]

/-- Nor behind what is overwritten. -/
theorem getElem?_overwrite_of_le {k : Nat} (hpos : pos ≤ text.length) (hk : pos + new.length ≤ k) :
    (overwrite text new pos)[k]? = text[k]? := by
  obtain ⟨d, rfl⟩ := Nat.exists_eq_add_of_le hk
  rw [← List.getElem?_drop, drop_overwrite hpos, List.getElem?_drop]

/-- The last of two writes to one place stays. -/
theorem overwrite_overwrite {new' : List α} (hpos : pos ≤ text.length) (hlength : new.length = new'.length) :
    overwrite (overwrite text new pos) new' pos = overwrite text new' pos := by
  rw [overwrite, take_overwrite hpos, ← hlength, drop_overwrite hpos, hlength]
  rfl

/-- To write what is there changes nothing. -/
theorem overwrite_self {n : Nat} (h : pos + n ≤ text.length) : overwrite text ((text.drop pos).take n) pos = text := by
  have hlength : ((text.drop pos).take n).length = n := by
    rw [List.length_take, List.length_drop]
    omega
  unfold overwrite
  rw [hlength, List.append_assoc, ← List.drop_drop, List.take_append_drop, List.take_append_drop]

theorem occursAt_overwrite {s' : Nat} (hpos : pos ≤ text.length) (hs : s' + pattern.length ≤ pos) :
    OccursAt pattern (overwrite text new pos) s' ↔ OccursAt pattern text s' := by
  unfold OccursAt
  refine forall_congr' fun k => forall_congr' fun hk => ?_
  rw [getElem?_overwrite_of_lt hpos (by omega)]

/-- The first occurrence stays the first when what is behind it is overwritten. -/
theorem FirstAt.overwrite (h : FirstAt pattern text s) (hpos : s + pattern.length ≤ text.length) :
    FirstAt pattern (Lib.overwrite text new (s + pattern.length)) s where
  occurs := (occursAt_overwrite hpos (Nat.le_refl _)).mpr h.occurs
  first := by
    intro s' hs' hoccurs
    exact h.first s' hs' ((occursAt_overwrite hpos (by omega)).mp hoccurs)

end

end Limine.Lib
