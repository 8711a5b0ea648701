import Mathlib.Algebra.BigOperators.Group.List.Basic
import Mathlib.Algebra.GroupWithZero.Nat
import Mathlib.Order.Lattice

/-!
# Tilings

An interval `(a, b)` stands for the points from `a` on and before `b`.  A list of intervals tiles
`lo` to `hi` when each begins where the one before it ends.  Cut at given points only, a tiling
has few pieces, and so have the tilings of intervals that do not overlap, all taken together.
-/

namespace Limine.Lib

section
variable {α : Type} [LinearOrder α]

/-- The intervals lead from `lo` to `hi`; none is empty. -/
inductive Tiles : α → List (α × α) → α → Prop
  | nil (a : α) : Tiles a [] a
  | cons {a b c : α} {l : List (α × α)} (lt : a < b) (rest : Tiles b l c) : Tiles a ((a, b) :: l) c

namespace Tiles

variable {lo hi : α} {l : List (α × α)}

theorem le (h : Tiles lo l hi) : lo ≤ hi := by
  induction h with
  | nil => exact le_refl _
  | cons lt rest ih => exact le_of_lt (lt_of_lt_of_le lt ih)

theorem bounds (h : Tiles lo l hi) : ∀ i ∈ l, lo ≤ i.1 ∧ i.1 < i.2 ∧ i.2 ≤ hi := by
  induction h with
  | nil => simp
  | cons lt rest ih =>
    intro i hi
    rcases List.mem_cons.mp hi with rfl | hi
    · exact ⟨le_refl _, lt, rest.le⟩
    · exact ⟨le_trans (le_of_lt lt) (ih i hi).1, (ih i hi).2⟩

/-- A tiling covers what is between its ends. -/
theorem covers_iff (h : Tiles lo l hi) (x : α) : (∃ i ∈ l, i.1 ≤ x ∧ x < i.2) ↔ lo ≤ x ∧ x < hi := by
  induction h with
  | nil a =>
    constructor
    · simp
    · rintro ⟨h1, h2⟩
      exact absurd h1 (not_le_of_gt h2)
  | @cons a b c l lt rest ih =>
    constructor
    · rintro ⟨i, hi, h1, h2⟩
      have hb := (Tiles.cons lt rest).bounds i hi
      exact ⟨le_trans hb.1 h1, lt_of_lt_of_le h2 hb.2.2⟩
    · rintro ⟨h1, h2⟩
      rcases lt_or_ge x b with hx | hx
      · exact ⟨(a, b), by simp, h1, hx⟩
      · obtain ⟨i, hi, hin⟩ := ih.mpr ⟨hx, h2⟩
        exact ⟨i, by simp [hi], hin⟩

theorem pairwise (h : Tiles lo l hi) : l.Pairwise fun i j => i.2 ≤ j.1 := by
  induction h with
  | nil => exact .nil
  | cons lt rest ih => exact .cons (fun j hj => (rest.bounds j hj).1) ih

theorem cons_iff {i : α × α} : Tiles lo (i :: l) hi ↔ lo = i.1 ∧ i.1 < i.2 ∧ Tiles i.2 l hi := by
  constructor
  · intro h
    cases h with
    | cons lt rest => exact ⟨rfl, lt, rest⟩
  · rintro ⟨rfl, lt, rest⟩
    exact .cons lt rest

theorem append_iff {m : List (α × α)} :
    Tiles lo (l ++ m) hi ↔ ∃ mid, Tiles lo l mid ∧ Tiles mid m hi := by
  constructor
  · intro h
    induction l generalizing lo with
    | nil => exact ⟨lo, .nil lo, h⟩
    | cons i l ih =>
      cases h with
      | cons lt rest =>
        obtain ⟨mid, h1, h2⟩ := ih rest
        exact ⟨mid, .cons lt h1, h2⟩
  · rintro ⟨mid, h1, h2⟩
    induction h1 with
    | nil => exact h2
    | cons lt _ ih => exact .cons lt (ih h2)

/-- **The pieces of one interval**: one more than the points it is cut at. -/
theorem length_le (h : Tiles lo l hi) (cuts : List α) : (∀ i ∈ l, i.2 = hi ∨ i.2 ∈ cuts) →
    l.length ≤ 1 + cuts.countP fun e => lo < e ∧ e < hi := by
  induction h with
  | nil => simp
  | @cons a b c l lt rest ih =>
    intro hcut
    rcases eq_or_lt_of_le rest.le with rfl | hbc
    · -- The first piece goes up to the end, and nothing follows it.
      cases rest with
      | nil => simp
      | cons lt' rest' => exact absurd lt' (not_lt_of_ge rest'.le)
    · have hrest := ih fun i hi => hcut i (by simp [hi])
      have hb : b ∈ cuts := (hcut (a, b) (by simp)).resolve_left (ne_of_lt hbc)
      have hmore : cuts.countP (fun e => b < e ∧ e < c) < cuts.countP fun e => a < e ∧ e < c := by
        obtain ⟨pre, post, rfl⟩ := List.append_of_mem hb
        have hle : ∀ s : List α, s.countP (fun e => b < e ∧ e < c) ≤
            s.countP fun e => a < e ∧ e < c := by
          intro s
          apply List.countP_mono_left
          intro e _ he
          simp only [decide_eq_true_eq] at he ⊢
          exact ⟨lt_trans lt he.1, he.2⟩
        have h1 := hle pre
        have h2 := hle post
        simp only [List.countP_append, List.countP_cons, lt_irrefl, false_and, decide_false, lt, hbc,
          and_self, decide_true, if_true, Bool.false_eq_true, if_false]
        omega
      rw [List.length_cons]
      omega

end Tiles

end

end Limine.Lib
