import Mathlib.Tactic.Ring
import Limine.Lib.Raster

/-!
# Boxes laid out in cells

Boxes of one size in the cells of a grid, row by row, with a gap between any two: they are apart from each other, and
inside the box that the grid is laid out in where that has room for its columns and its rows.  A column of boxes is a
grid of one column.

    cell_within, cell_apart
-/

namespace Limine.Lib

/-! ## Rectangles in one another and apart -/

structure Rect.Within (r box : Rect) : Prop where
  left_le : box.x ≤ r.x
  top_le : box.y ≤ r.y
  right_le : r.x + r.width ≤ box.x + box.width
  bottom_le : r.y + r.height ≤ box.y + box.height

/-- No point is in both. -/
def Rect.Apart (r r' : Rect) : Prop := ∀ x y, r.Contains x y → ¬ r'.Contains x y

theorem Rect.apart_of_right_le {r r' : Rect} (h : r.x + r.width ≤ r'.x) : r.Apart r' := by
  intro x y hin hin'
  obtain ⟨-, hright, -⟩ := hin
  obtain ⟨hleft, -⟩ := hin'
  omega

theorem Rect.apart_of_bottom_le {r r' : Rect} (h : r.y + r.height ≤ r'.y) : r.Apart r' := by
  intro x y hin hin'
  obtain ⟨-, -, -, hbottom⟩ := hin
  obtain ⟨-, -, htop, -⟩ := hin'
  omega

theorem Rect.Apart.symm {r r' : Rect} (h : r.Apart r') : r'.Apart r := fun x y hin' hin => h x y hin hin'

/-! ## A part of what is left over -/

/-- What is shifted by the half or the whole of the room that is left stays inside. -/
theorem shift_le (room : Int) {align : Int} (hroom : 0 ≤ room) (halign : 0 ≤ align ∧ align ≤ 2) :
    0 ≤ (room * align).tdiv 2 ∧ (room * align).tdiv 2 ≤ room := by
  have hnonneg : 0 ≤ room * align := Int.mul_nonneg hroom halign.1
  have htwice : room * align ≤ room * 2 := Int.mul_le_mul_of_nonneg_left halign.2 hroom
  rw [Int.tdiv_eq_ediv_of_nonneg hnonneg]
  omega

/-! ## A grid -/

section
variable {box : Rect} {width height gap : Int} {cols : Nat}

/-- Cell `i` of a grid of `cols` columns. -/
def cell (box : Rect) (width height gap : Int) (cols i : Nat) : Rect :=
  ⟨box.x + ((i % cols : Nat) : Int) * (width + gap), box.y + ((i / cols : Nat) : Int) * (height + gap), width, height⟩

/-- The end of place `k` of `n`. -/
theorem place_le {size : Int} {k n : Nat} (hsize : 0 ≤ size) (hgap : 0 ≤ gap) (hk : k < n) :
    (k : Int) * (size + gap) + size ≤ n * size + (n - 1) * gap := by
  have hle : (k + 1 : Int) ≤ n := by omega
  calc (k : Int) * (size + gap) + size = (k + 1) * size + k * gap := by ring
    _ ≤ n * size + (n - 1) * gap :=
      Int.add_le_add (Int.mul_le_mul_of_nonneg_right hle hsize) (Int.mul_le_mul_of_nonneg_right (by omega) hgap)

/-- A place ends before a later one begins. -/
theorem place_apart {size : Int} {k l : Nat} (hsize : 0 ≤ size) (hgap : 0 ≤ gap) (h : k < l) :
    (k : Int) * (size + gap) + size ≤ l * (size + gap) := by
  have hle : (k + 1 : Int) * (size + gap) ≤ l * (size + gap) :=
    Int.mul_le_mul_of_nonneg_right (by omega) (by omega)
  rw [Int.add_mul, Int.one_mul] at hle
  omega

theorem cell_within {n i : Nat} (hcols : 0 < cols) (hwidth : 0 ≤ width) (hheight : 0 ≤ height) (hgap : 0 ≤ gap)
    (hi : i / cols < n) (hfitsAcross : cols * width + (cols - 1) * gap ≤ box.width)
    (hfitsDown : n * height + (n - 1) * gap ≤ box.height) : (cell box width height gap cols i).Within box := by
  have hacross : ((i % cols : Nat) : Int) * (width + gap) + width ≤ cols * width + (cols - 1) * gap :=
    place_le hwidth hgap (Nat.mod_lt i hcols)
  have hdown : ((i / cols : Nat) : Int) * (height + gap) + height ≤ n * height + (n - 1) * gap :=
    place_le hheight hgap hi
  have hright : 0 ≤ ((i % cols : Nat) : Int) * (width + gap) := Int.mul_nonneg (Int.natCast_nonneg _) (by omega)
  have hbelow : 0 ≤ ((i / cols : Nat) : Int) * (height + gap) := Int.mul_nonneg (Int.natCast_nonneg _) (by omega)
  constructor
  · show box.x ≤ box.x + ((i % cols : Nat) : Int) * (width + gap)
    omega
  · show box.y ≤ box.y + ((i / cols : Nat) : Int) * (height + gap)
    omega
  · show box.x + ((i % cols : Nat) : Int) * (width + gap) + width ≤ box.x + box.width
    omega
  · show box.y + ((i / cols : Nat) : Int) * (height + gap) + height ≤ box.y + box.height
    omega

/-- Two cells are in different rows, or in one row and different columns. -/
theorem cell_apart {i j : Nat} (hwidth : 0 ≤ width) (hheight : 0 ≤ height) (hgap : 0 ≤ gap) (h : i < j) :
    (cell box width height gap cols i).Apart (cell box width height gap cols j) := by
  rcases Nat.lt_or_eq_of_le (Nat.div_le_div_right (c := cols) h.le) with hrow | hrow
  · apply Rect.apart_of_bottom_le
    show box.y + ((i / cols : Nat) : Int) * (height + gap) + height ≤ box.y + ((j / cols : Nat) : Int) * (height + gap)
    have hdown := place_apart hheight hgap hrow
    omega
  · have hcolumn : i % cols < j % cols := by
      have hi := Nat.div_add_mod i cols
      have hj := Nat.div_add_mod j cols
      rw [hrow] at hi
      omega
    apply Rect.apart_of_right_le
    show box.x + ((i % cols : Nat) : Int) * (width + gap) + width ≤ box.x + ((j % cols : Nat) : Int) * (width + gap)
    have hacross := place_apart hwidth hgap hcolumn
    omega

end

end Limine.Lib
