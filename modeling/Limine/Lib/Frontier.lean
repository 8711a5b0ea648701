import Mathlib.Data.List.Basic
import Mathlib.Order.Bounds.Basic

/-!
# Frontiers

A frontier starts at an address and moves to the end of any interval that it stands in.  Where no interval
moves it any more it is the first address from the start on that no interval covers, in whatever order
the intervals came.
-/

namespace Limine.Lib

/-- Some interval has the address. -/
def Covered (l : List (Nat × Nat)) (a : Nat) : Prop := ∃ i ∈ l, i.1 ≤ a ∧ a < i.2

/-- The frontier after one interval. -/
def advance (f : Nat) (i : Nat × Nat) : Nat := if i.1 ≤ f ∧ i.2 > f then i.2 else f

/-- Everything from the start to the frontier is covered. -/
structure Reached (l : List (Nat × Nat)) (start f : Nat) : Prop where
  start_le : start ≤ f
  covered : ∀ a, start ≤ a → a < f → Covered l a

/-- The intervals that could still move a frontier. -/
def ahead (l : List (Nat × Nat)) (f : Nat) : Nat := l.countP fun i => decide (f < i.2)

section
variable {l : List (Nat × Nat)} {start f : Nat} {i : Nat × Nat}

theorem le_advance (f : Nat) (i : Nat × Nat) : f ≤ advance f i := by
  unfold advance
  split <;> omega

theorem Reached.refl (l : List (Nat × Nat)) (start : Nat) : Reached l start start where
  start_le := Nat.le_refl _
  covered := by
    intro a hlow hhigh
    omega

theorem Reached.advance (h : Reached l start f) (hi : i ∈ l) : Reached l start (advance f i) where
  start_le := Nat.le_trans h.start_le (le_advance f i)
  covered := by
    intro a hlow hhigh
    unfold Lib.advance at hhigh
    split at hhigh
    · next hin =>
      by_cases ha : a < f
      · exact h.covered a hlow ha
      · exact ⟨i, hi, by omega, hhigh⟩
    · exact h.covered a hlow hhigh

/-- A frontier that no interval moves is the first address that none covers. -/
theorem Reached.isLeast (h : Reached l start f) (hstill : ∀ i ∈ l, Lib.advance f i = f) :
    IsLeast {a | start ≤ a ∧ ¬Covered l a} f := by
  constructor
  · refine ⟨h.start_le, ?_⟩
    rintro ⟨i, hi, hlow, hhigh⟩
    have hmoved := hstill i hi
    unfold Lib.advance at hmoved
    rw [if_pos ⟨hlow, hhigh⟩] at hmoved
    omega
  · rintro a ⟨hlow, ha⟩
    by_contra hlt
    exact ha (h.covered a hlow (by omega))

theorem ahead_le_length (l : List (Nat × Nat)) (f : Nat) : ahead l f ≤ l.length := List.countP_le_length

theorem ahead_antitone {f' : Nat} (h : f ≤ f') : ahead l f' ≤ ahead l f := by
  apply List.countP_mono_left
  intro i _ hi
  rw [decide_eq_true_eq] at hi ⊢
  omega

/-- An interval that moves the frontier is not ahead of it any more. -/
theorem ahead_lt (hi : i ∈ l) (hmoved : f < advance f i) : ahead l (advance f i) < ahead l f := by
  have hend : advance f i = i.2 := by
    unfold advance at hmoved ⊢
    split at hmoved
    · next hin => exact if_pos hin
    · omega
  obtain ⟨front, back, rfl⟩ := List.append_of_mem hi
  have hfront := ahead_antitone (l := front) hmoved.le
  have hback := ahead_antitone (l := back) hmoved.le
  unfold ahead at hfront hback ⊢
  simp only [List.countP_append, List.countP_cons, hend, decide_eq_true_eq] at hfront hback hmoved ⊢
  rw [if_neg (by omega), if_pos hmoved]
  omega

end

end Limine.Lib
