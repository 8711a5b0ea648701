import Mathlib.Data.List.Nodup
import Mathlib.Data.List.Count
import Mathlib.Algebra.Order.Ring.Nat

/-!
# Pictures cut into rectangles

A swatch is a rectangle of cells; the cell in column `x` of row `y` of a picture of width `w` has the index
`w * y + x`.  When every cell is in exactly one swatch, the swatches, visited row by row and one after the other,
have every index exactly once (`visits_perm`).
-/

namespace Limine.Lib

structure Swatch where
  left : Nat
  right : Nat
  top : Nat
  bottom : Nat

namespace Swatch

def Contains (p : Swatch) (x y : Nat) : Prop := p.left ≤ x ∧ x < p.right ∧ p.top ≤ y ∧ y < p.bottom

instance (p : Swatch) (x y : Nat) : Decidable (p.Contains x y) := inferInstanceAs (Decidable (_ ∧ _ ∧ _ ∧ _))

/-- The swatch lies in a picture of width `w` and height `h`. -/
structure Inside (p : Swatch) (w h : Nat) : Prop where
  left_le : p.left ≤ p.right
  right_le : p.right ≤ w
  top_le : p.top ≤ p.bottom
  bottom_le : p.bottom ≤ h

/-- What `f` makes of the cells, row by row. -/
def visit {β : Type} (p : Swatch) (f : Nat → Nat → β) : List β :=
  (List.range' p.top (p.bottom - p.top)).flatMap fun y => (List.range' p.left (p.right - p.left)).map fun x => f x y

section Visit
variable {β γ : Type} {p : Swatch} {f : Nat → Nat → β} {w h x y x' y' : Nat}

theorem mem_visit {b : β} : b ∈ p.visit f ↔ ∃ x y, p.Contains x y ∧ f x y = b := by
  simp only [visit, List.mem_flatMap, List.mem_map, List.mem_range'_1]
  constructor
  · rintro ⟨y, hy, x, hx, hb⟩
    exact ⟨x, y, ⟨hx.1, by omega, hy.1, by omega⟩, hb⟩
  · rintro ⟨x, y, hin, hb⟩
    obtain ⟨hleft, hright, htop, hbottom⟩ := hin
    exact ⟨y, ⟨htop, by omega⟩, x, ⟨hleft, by omega⟩, hb⟩

theorem map_visit (g : β → γ) : (p.visit f).map g = p.visit fun x y => g (f x y) := by
  simp only [visit, List.map_flatMap, List.map_map]
  rfl

theorem nodup_visit (hinj : ∀ x y x' y', p.Contains x y → p.Contains x' y' → f x y = f x' y' → x = x' ∧ y = y') :
    (p.visit f).Nodup := by
  rw [visit, List.nodup_flatMap]
  constructor
  · intro y hy
    rw [List.mem_range'_1] at hy
    apply List.Nodup.map_on _ (List.nodup_range')
    intro x hx x' hx' heq
    rw [List.mem_range'_1] at hx hx'
    refine (hinj x y x' y ⟨hx.1, ?_, hy.1, ?_⟩ ⟨hx'.1, ?_, hy.1, ?_⟩ heq).1
    all_goals omega
  · refine List.Pairwise.imp_of_mem (fun {y y'} hy hy' hne => ?_) List.nodup_range'
    show List.Disjoint _ _
    rw [List.disjoint_left]
    intro b hb hb'
    rw [List.mem_range'_1] at hy hy'
    obtain ⟨x, hx, rfl⟩ := List.mem_map.mp hb
    obtain ⟨x', hx', heq⟩ := List.mem_map.mp hb'
    rw [List.mem_range'_1] at hx hx'
    refine hne (hinj x' y' x y ⟨hx'.1, ?_, hy'.1, ?_⟩ ⟨hx.1, ?_, hy.1, ?_⟩ heq).2.symm
    all_goals omega

end Visit

/-! ## Indices -/

section Index
variable {p : Swatch} {w h x y x' y' : Nat}

theorem index_lt (hx : x < w) (hy : y < h) : w * y + x < w * h := by
  calc
    w * y + x < w * y + w := Nat.add_lt_add_left hx _
    _ = w * (y + 1) := (Nat.mul_succ w y).symm
    _ ≤ w * h := Nat.mul_le_mul_left w hy

theorem index_inj (hx : x < w) (hx' : x' < w) (heq : w * y + x = w * y' + x') : x = x' ∧ y = y' := by
  have hy : y = y' := by
    have hdiv := congrArg (· / w) heq
    have hpos : 0 < w := by omega
    simpa [Nat.mul_add_div hpos, Nat.div_eq_of_lt hx, Nat.div_eq_of_lt hx'] using hdiv
  subst hy
  exact ⟨Nat.add_left_cancel heq, rfl⟩

theorem exists_cell {i : Nat} (hi : i < w * h) : ∃ x y, x < w ∧ y < h ∧ w * y + x = i := by
  have hw : 0 < w := by
    apply Nat.pos_of_ne_zero
    rintro rfl
    rw [Nat.zero_mul] at hi
    exact absurd hi (Nat.not_lt_zero i)
  exact ⟨i % w, i / w, Nat.mod_lt i hw, Nat.div_lt_of_lt_mul hi, Nat.div_add_mod i w⟩

/-- A swatch visits the cells in it once and no others. -/
theorem count_visit (hright : p.right ≤ w) (hx : x < w) :
    (p.visit fun x y => w * y + x).count (w * y + x) = if p.Contains x y then 1 else 0 := by
  have hinj : ∀ x y x' y', p.Contains x y → p.Contains x' y' → w * y + x = w * y' + x' → x = x' ∧ y = y' :=
    fun x y x' y' hin hin' heq => index_inj (Nat.lt_of_lt_of_le hin.2.1 hright) (Nat.lt_of_lt_of_le hin'.2.1 hright) heq
  split
  · next hin => exact List.count_eq_one_of_mem (nodup_visit hinj) (mem_visit.mpr ⟨x, y, hin, rfl⟩)
  · next hout =>
    rw [List.count_eq_zero]
    intro hmem
    obtain ⟨x', y', hin, heq⟩ := mem_visit.mp hmem
    obtain ⟨rfl, rfl⟩ := index_inj (Nat.lt_of_lt_of_le hin.2.1 hright) hx heq
    exact hout hin

/-- The swatches cover the picture and do not overlap. -/
structure Cut (ps : List Swatch) (w h : Nat) : Prop where
  inside : ∀ p ∈ ps, p.Inside w h
  once : ∀ x y, x < w → y < h → ps.countP (fun p => p.Contains x y) = 1

theorem count_visits {ps : List Swatch} (hright : ∀ p ∈ ps, p.right ≤ w) (hx : x < w) :
    (ps.flatMap fun p => p.visit fun x y => w * y + x).count (w * y + x) = ps.countP fun p => p.Contains x y := by
  induction ps with
  | nil => rfl
  | cons p ps ih =>
    obtain ⟨hp, hps⟩ := List.forall_mem_cons.mp hright
    rw [List.flatMap_cons, List.count_append, ih hps, count_visit hp hx, List.countP_cons, Nat.add_comm]
    simp

theorem Cut.visits_perm {ps : List Swatch} (hcut : Cut ps w h) :
    (ps.flatMap fun p => p.visit fun x y => w * y + x).Perm (List.range (w * h)) := by
  rw [List.perm_iff_count]
  intro i
  by_cases hi : i < w * h
  · obtain ⟨x, y, hx, hy, rfl⟩ := exists_cell hi
    rw [count_visits (fun p hp => (hcut.inside p hp).right_le) hx, hcut.once x y hx hy]
    exact (List.count_eq_one_of_mem List.nodup_range (List.mem_range.mpr hi)).symm
  · rw [List.count_eq_zero.mpr fun hmem => hi (List.mem_range.mp hmem), List.count_eq_zero]
    intro hmem
    obtain ⟨p, hp, hvisit⟩ := List.mem_flatMap.mp hmem
    obtain ⟨x, y, hin, rfl⟩ := mem_visit.mp hvisit
    have hinside := hcut.inside p hp
    exact hi (index_lt (Nat.lt_of_lt_of_le hin.2.1 hinside.right_le) (Nat.lt_of_lt_of_le hin.2.2.2 hinside.bottom_le))

end Index

end Swatch

end Limine.Lib
