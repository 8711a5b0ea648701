import Mathlib

/-!
# How much of a window intervals cover

Disjoint intervals cover a window where the lengths of their parts in it add up to its length.
-/

namespace Limine.Lib

/-- The length of the part of `[lo, hi)` in `[base, top)`. -/
def overlap (base top : Nat) (i : Nat × Nat) : Nat := min i.2 top - max i.1 base

/-- What the intervals cover of the window. -/
def coveredIn (base top : Nat) (l : List (Nat × Nat)) : Finset Nat :=
  (Finset.Ico base top).filter fun a => ∃ i ∈ l, i.1 ≤ a ∧ a < i.2

section
variable {base top : Nat} {i : Nat × Nat} {l : List (Nat × Nat)}

theorem mem_coveredIn {a : Nat} :
    a ∈ coveredIn base top l ↔ (base ≤ a ∧ a < top) ∧ ∃ i ∈ l, i.1 ≤ a ∧ a < i.2 := by
  unfold coveredIn
  rw [Finset.mem_filter, Finset.mem_Ico]

theorem overlap_eq_card : overlap base top i = (coveredIn base top [i]).card := by
  have hpart : coveredIn base top [i] = Finset.Ico (max i.1 base) (min i.2 top) := by
    ext a
    rw [mem_coveredIn, Finset.mem_Ico]
    simp only [List.mem_singleton, exists_eq_left]
    omega
  rw [hpart, Nat.card_Ico]
  rfl

theorem coveredIn_cons : coveredIn base top (i :: l) = coveredIn base top [i] ∪ coveredIn base top l := by
  ext a
  rw [Finset.mem_union, mem_coveredIn, mem_coveredIn, mem_coveredIn, ← and_or_left]
  simp

theorem sum_overlap_eq_card (base top : Nat)
    (hd : l.Pairwise fun i j => i.1 = i.2 ∨ j.1 = j.2 ∨ i.2 ≤ j.1 ∨ j.2 ≤ i.1) :
    (l.map (overlap base top)).sum = (coveredIn base top l).card := by
  induction l with
  | nil => simp [coveredIn]
  | cons i l ih =>
    obtain ⟨hi, hd⟩ := List.pairwise_cons.mp hd
    have hdisjoint : Disjoint (coveredIn base top [i]) (coveredIn base top l) := by
      rw [Finset.disjoint_left]
      intro a ha hrest
      obtain ⟨-, j, hj, hlow, hhigh⟩ := mem_coveredIn.mp hrest
      obtain ⟨-, i', hi', hlow', hhigh'⟩ := mem_coveredIn.mp ha
      rw [List.mem_singleton] at hi'
      subst hi'
      have hapart := hi j hj
      omega
    rw [List.map_cons, List.sum_cons, ih hd, coveredIn_cons, Finset.card_union_of_disjoint hdisjoint, overlap_eq_card]

theorem card_coveredIn_le (base top : Nat) (l : List (Nat × Nat)) : (coveredIn base top l).card ≤ top - base := by
  rw [← Nat.card_Ico]
  exact Finset.card_filter_le _ _

/-- The window is covered where as many addresses are covered as it has. -/
theorem card_coveredIn_eq_iff :
    (coveredIn base top l).card = top - base ↔ ∀ a, base ≤ a → a < top → ∃ i ∈ l, i.1 ≤ a ∧ a < i.2 := by
  rw [← Nat.card_Ico base top, coveredIn, Finset.card_filter_eq_iff]
  constructor
  · intro h a hlow hhigh
    exact h a (Finset.mem_Ico.mpr ⟨hlow, hhigh⟩)
  · intro h a ha
    obtain ⟨hlow, hhigh⟩ := Finset.mem_Ico.mp ha
    exact h a hlow hhigh

end

end Limine.Lib
