import Mathlib.Data.List.DropRight

/-!
# Lines of a text

`lineStarts sep prev l` are the texts from each start of a line on, where `prev` is what stands before
`l`: a line starts at the very beginning or after a separator.
-/

namespace Limine.Lib

variable {α : Type}

def lineStarts [DecidableEq α] (sep : α) : Option α → List α → List (List α)
  | _, [] => []
  | prev, c :: cs =>
    if prev = none ∨ prev = some sep then (c :: cs) :: lineStarts sep (some c) cs
    else lineStarts sep (some c) cs

theorem lineStarts_cons [DecidableEq α] (sep : α) (prev : Option α) (c : α) (cs : List α) :
    lineStarts sep prev (c :: cs) = if prev = none ∨ prev = some sep then (c :: cs) :: lineStarts sep (some c) cs
      else lineStarts sep (some c) cs := rfl

/-- What stands before the rest, after the part `l` of the text. -/
def lastOf (prev : Option α) (l : List α) : Option α := (l.getLast?).or prev

theorem lastOf_cons (prev : Option α) (c : α) (l : List α) :
    lastOf prev (c :: l) = lastOf (some c) l := by
  unfold lastOf
  cases l with
  | nil => rfl
  | cons d l => simp [List.getLast?_eq_some_getLast]

/-- A line that starts in the first part goes on in the second. -/
theorem lineStarts_append [DecidableEq α] (sep : α) (l m : List α) : ∀ prev : Option α,
    lineStarts sep prev (l ++ m) =
      (lineStarts sep prev l).map (· ++ m) ++ lineStarts sep (lastOf prev l) m := by
  induction l with
  | nil =>
    intro prev
    rfl
  | cons c l ih =>
    intro prev
    rw [List.cons_append, lineStarts_cons, lineStarts_cons, ih, lastOf_cons]
    split
    · rfl
    · rfl

/-- No line starts before the next separator. -/
theorem lineStarts_of_inside [DecidableEq α] {sep : α} {l : List α} : ∀ {prev : α}, prev ≠ sep → sep ∉ l →
    lineStarts sep (some prev) l = [] := by
  induction l with
  | nil =>
    intro prev _ _
    rfl
  | cons c l ih =>
    intro prev hprev hl
    rw [List.mem_cons, not_or] at hl
    rw [lineStarts_cons, if_neg (by simp [hprev])]
    exact ih (Ne.symm hl.1) hl.2

theorem length_lineStarts_le [DecidableEq α] (sep : α) (l : List α) : ∀ prev : Option α,
    (lineStarts sep prev l).length ≤ l.length := by
  induction l with
  | nil =>
    intro prev
    exact Nat.le_refl 0
  | cons c l ih =>
    intro prev
    have h := ih (some c)
    rw [lineStarts_cons]
    split
    · rw [List.length_cons, List.length_cons]
      omega
    · rw [List.length_cons]
      omega

theorem lineStarts_suffix [DecidableEq α] {sep : α} {l : List α} : ∀ {prev : Option α} {s : List α},
    s ∈ lineStarts sep prev l → s <:+ l ∧ s ≠ [] := by
  induction l with
  | nil =>
    intro prev s hs
    cases hs
  | cons c l ih =>
    intro prev s hs
    have hrec : s ∈ lineStarts sep (some c) l → s <:+ c :: l ∧ s ≠ [] := by
      intro h
      obtain ⟨hsuf, hne⟩ := ih h
      exact ⟨hsuf.trans (List.suffix_cons c l), hne⟩
    rw [lineStarts_cons] at hs
    split at hs
    · rcases List.mem_cons.mp hs with rfl | hs
      · exact ⟨List.suffix_refl _, List.cons_ne_nil c l⟩
      · exact hrec hs
    · exact hrec hs

/-- What stands before the start of a line. -/
theorem lineStarts_split [DecidableEq α] {sep : α} {l : List α} : ∀ {prev : Option α} {s : List α},
    s ∈ lineStarts sep prev l → ∃ g, l = g ++ s ∧ (lastOf prev g = none ∨ lastOf prev g = some sep) := by
  induction l with
  | nil =>
    intro prev s hs
    cases hs
  | cons c l ih =>
    intro prev s hs
    have hrec : s ∈ lineStarts sep (some c) l →
        ∃ g, c :: l = g ++ s ∧ (lastOf prev g = none ∨ lastOf prev g = some sep) := by
      intro h
      obtain ⟨g, hg, hlast⟩ := ih h
      refine ⟨c :: g, by rw [hg, List.cons_append], ?_⟩
      rwa [lastOf_cons]
    rw [lineStarts_cons] at hs
    split at hs
    · next hstart =>
      rcases List.mem_cons.mp hs with rfl | hs
      · exact ⟨[], rfl, hstart⟩
      · exact hrec hs
    · exact hrec hs

/-! ## Up to a byte -/

theorem dropWhile_eq_drop (p : α → Bool) (l : List α) :
    l.dropWhile p = l.drop (l.takeWhile p).length := by
  induction l with
  | nil => rfl
  | cons a l ih =>
    cases hp : p a with
    | true => simp [hp, ih]
    | false => simp [hp]

/-- Where something stays, everything before it does. -/
theorem rdropWhile_cons {p : α → Bool} {a : α} {l : List α} (h : ∃ b ∈ a :: l, p b = false) :
    (a :: l).rdropWhile p = a :: l.rdropWhile p := by
  induction l using List.reverseRecOn with
  | nil =>
    obtain ⟨b, hb, hpb⟩ := h
    rw [List.mem_singleton.mp hb] at hpb
    rw [List.rdropWhile_singleton, if_neg (by simp [hpb]), List.rdropWhile_nil]
  | append_singleton l b ih =>
    rw [← List.cons_append]
    cases hb : p b with
    | true =>
      rw [List.rdropWhile_concat_pos _ _ _ hb, List.rdropWhile_concat_pos _ _ _ hb]
      apply ih
      obtain ⟨d, hd, hpd⟩ := h
      rw [← List.cons_append, List.mem_append, List.mem_singleton] at hd
      rcases hd with hd | rfl
      · exact ⟨d, hd, hpd⟩
      · rw [hb] at hpd
        cases hpd
    | false =>
      rw [List.rdropWhile_concat_neg _ _ _ (by simp [hb]), List.rdropWhile_concat_neg _ _ _ (by simp [hb]),
        List.cons_append]

theorem rdropWhile_append {p : α → Bool} {l m : List α}
    (h : m.rdropWhile p ≠ [] ∨ l.rdropWhile p = l) : (l ++ m).rdropWhile p = l ++ m.rdropWhile p := by
  unfold List.rdropWhile at h ⊢
  rw [List.reverse_append, List.dropWhile_append]
  by_cases hm : m.reverse.dropWhile p = []
  · rw [hm] at h ⊢
    rw [if_pos List.isEmpty_nil, List.reverse_nil, List.append_nil]
    exact h.resolve_left fun hne => hne rfl
  · rw [if_neg (by simpa using hm), List.reverse_append, List.reverse_reverse]

theorem rtakeWhile_append {p : α → Bool} {l m : List α} (h : ∀ a ∈ m, p a = true) :
    (l ++ m).rtakeWhile p = l.rtakeWhile p ++ m := by
  unfold List.rtakeWhile
  rw [List.reverse_append, List.takeWhile_append_of_pos (by simpa using h), List.reverse_append,
    List.reverse_reverse]

end Limine.Lib
