import Mathlib.Logic.Function.Basic
import Mathlib.Tactic.Linarith
import Limine.Lib.Triple

/-!
# Rasters in memory

A raster of width `w` keeps the cell in column `x` of row `y` at index `y * w + x` of a memory.
Every access goes through the bounds of the memory it is made to.

    saveRect, anything inside the rectangle, restoreRect: the raster is as it was    (SameOutside.eq_of_restored)
-/

namespace Limine.Lib

/-- An access at this index of a memory of this size. -/
structure Outside where
  index : Int
  size : Int
deriving DecidableEq, Repr

/-! ## Loops -/

section
variable {σ ε : Type}

/-- `n` turns of a loop, from `i` on. -/
def forTurns (body : Int → σ → Except ε σ) : Nat → Int → σ → Except ε σ
  | 0, _, s => .ok s
  | n + 1, i, s => do
    let s ← body i s
    forTurns body n (i + 1) s

/-- `for (i = lo; i < hi; i++)` -/
def forRange (lo hi : Int) (body : Int → σ → Except ε σ) (s : σ) : Except ε σ :=
  forTurns body (hi - lo).toNat lo s

/-- The loop rule: `inv i` holds before the turn of `i`. -/
theorem forRange_ends {allowed : ε → Prop} {lo hi : Int} {body : Int → σ → Except ε σ} (inv : Int → σ → Prop)
    (hstep : ∀ i s, lo ≤ i → i < hi → inv i s → Ends allowed (body i s) (inv (i + 1))) {s : σ} (hs : inv lo s) :
    Ends allowed (forRange lo hi body s) (inv (max lo hi)) := by
  have hturns : ∀ (n : Nat) (i : Int) (s : σ), lo ≤ i → i + n = max lo hi → inv i s →
      Ends allowed (forTurns body n i s) (inv (max lo hi)) := by
    intro n
    induction n with
    | zero =>
      intro i s _ hend hs
      rw [show i = max lo hi by omega] at hs
      exact hs
    | succ n ih =>
      intro i s hlo hend hs
      exact (hstep i s hlo (by omega) hs).bind fun s' hs' => ih (i + 1) s' (by omega) (by omega) hs'
  exact hturns _ lo s (Int.le_refl lo) (by omega) hs

/-- The rule for an invariant that is the same in every turn. -/
theorem forRange_keeps {allowed : ε → Prop} {lo hi : Int} {body : Int → σ → Except ε σ} (inv : σ → Prop)
    (hstep : ∀ i s, lo ≤ i → i < hi → inv s → Ends allowed (body i s) inv) {s : σ} (hs : inv s) :
    Ends allowed (forRange lo hi body s) inv :=
  forRange_ends (fun _ => inv) hstep hs

/-- The same of a loop that has ended well. -/
theorem forRange_keeps_of_ok {lo hi : Int} {body : Int → σ → Except ε σ} (inv : σ → Prop)
    (hstep : ∀ i s s', lo ≤ i → i < hi → inv s → body i s = .ok s' → inv s') {s s' : σ} (hs : inv s)
    (h : forRange lo hi body s = .ok s') : inv s' := by
  refine (forRange_keeps inv (fun i s hlo hhi hinv => ?_) hs : Ends (fun _ => True) _ _).of_ok h
  cases hbody : body i s with
  | error e => trivial
  | ok s' => exact hstep i s s' hlo hhi hinv hbody

end

/-! ## Cells -/

section
variable {α : Type}

def readAt (size : Int) (mem : Int → α) (i : Int) : Except Outside α :=
  if 0 ≤ i ∧ i < size then .ok (mem i) else .error ⟨i, size⟩

def writeAt (size : Int) (mem : Int → α) (i : Int) (a : α) : Except Outside (Int → α) :=
  if 0 ≤ i ∧ i < size then .ok (Function.update mem i a) else .error ⟨i, size⟩

/-- `memcpy` of `n` cells between two memories. -/
def copyCells (size : Int) (mem : Int → α) (i : Int) (size' : Int) (mem' : Int → α) (i' n : Int) :
    Except Outside (Int → α) :=
  if n < 0 ∨ i < 0 ∨ size < i + n then .error ⟨i, size⟩
  else if i' < 0 ∨ size' < i' + n then .error ⟨i', size'⟩
  else .ok fun a => if i' ≤ a ∧ a < i' + n then mem (i + (a - i')) else mem' a

theorem cell_bounds {w h x y : Int} (hx : 0 ≤ x) (hxw : x < w) (hy : 0 ≤ y) (hyh : y < h) :
    0 ≤ y * w + x ∧ y * w + x < w * h := by
  have hmul : 0 ≤ y * w := Int.mul_nonneg hy (by omega)
  have hrow : (y + 1) * w ≤ h * w := Int.mul_le_mul_of_nonneg_right (by omega) (by omega)
  rw [Int.add_mul, Int.one_mul] at hrow
  rw [Int.mul_comm w h]
  omega

theorem cell_inj {w x y x' y' : Int} (hx : 0 ≤ x) (hxw : x < w) (hx' : 0 ≤ x') (hxw' : x' < w)
    (h : y * w + x = y' * w + x') : x = x' ∧ y = y' := by
  have hy : y = y' := by
    have hdiv := congrArg (· / w) h
    have hl : (y * w + x) / w = y := by
      rw [Int.add_comm, Int.add_mul_ediv_right _ _ (by omega), Int.ediv_eq_zero_of_lt hx hxw, Int.zero_add]
    have hr : (y' * w + x') / w = y' := by
      rw [Int.add_comm, Int.add_mul_ediv_right _ _ (by omega), Int.ediv_eq_zero_of_lt hx' hxw', Int.zero_add]
    simpa [hl, hr] using hdiv
  subst hy
  exact ⟨by omega, rfl⟩

end

/-! ## Rectangles -/

structure Rect where
  x : Int
  y : Int
  width : Int
  height : Int
deriving DecidableEq, Repr

def Rect.Contains (r : Rect) (x y : Int) : Prop := r.x ≤ x ∧ x < r.x + r.width ∧ r.y ≤ y ∧ y < r.y + r.height

instance (r : Rect) (x y : Int) : Decidable (r.Contains x y) :=
  inferInstanceAs (Decidable (_ ∧ _ ∧ _ ∧ _))

/-- The rectangle lies in a raster of width `w` and height `h`. -/
structure Rect.Fits (r : Rect) (w h : Int) : Prop where
  x_nonneg : 0 ≤ r.x
  y_nonneg : 0 ≤ r.y
  width_nonneg : 0 ≤ r.width
  height_nonneg : 0 ≤ r.height
  right_le : r.x + r.width ≤ w
  bottom_le : r.y + r.height ≤ h

section
variable {α : Type} {r : Rect} {w h : Int}

/-- The memories differ in cells of the rectangle at most. -/
def SameOutside (r : Rect) (w : Int) (f g : Int → α) : Prop :=
  ∀ a, (∀ x y, r.Contains x y → a ≠ y * w + x) → f a = g a

theorem SameOutside.refl (f : Int → α) : SameOutside r w f f := fun _ _ => rfl

theorem SameOutside.update {f g : Int → α} (hfg : SameOutside r w f g) {x y : Int} (hin : r.Contains x y) (c : α) :
    SameOutside r w (Function.update f (y * w + x) c) g := by
  intro a ha
  rw [Function.update_of_ne (ha x y hin)]
  exact hfg a ha

/-- The rows of the rectangle, one after the other, into `backing`. -/
def saveRect (r : Rect) (w size : Int) (mem : Int → α) (size' : Int) (backing : Int → α) :
    Except Outside (Int → α) :=
  forRange 0 r.height (fun dy backing =>
    copyCells size mem ((r.y + dy) * w + r.x) size' backing (dy * r.width) r.width) backing

/-- The rows back into the rectangle. -/
def restoreRect (r : Rect) (w size : Int) (mem : Int → α) (size' : Int) (backing : Int → α) :
    Except Outside (Int → α) :=
  forRange 0 r.height (fun dy mem =>
    copyCells size' backing (dy * r.width) size mem ((r.y + dy) * w + r.x) r.width) mem

theorem copyCells_ok {size i size' i' n : Int} {mem mem' : Int → α} (hn : 0 ≤ n) (hi : 0 ≤ i) (hin : i + n ≤ size)
    (hi' : 0 ≤ i') (hin' : i' + n ≤ size') :
    copyCells size mem i size' mem' i' n =
      .ok fun a => if i' ≤ a ∧ a < i' + n then mem (i + (a - i')) else mem' a := by
  rw [copyCells, if_neg (by omega), if_neg (by omega)]

/-- A row of the rectangle lies in the raster. -/
theorem row_bounds (hr : r.Fits w h) {dy : Int} (hdy : 0 ≤ dy) (hlt : dy < r.height) :
    0 ≤ (r.y + dy) * w + r.x ∧ (r.y + dy) * w + r.x + r.width ≤ w * h := by
  have hy := hr.y_nonneg
  have hb := hr.bottom_le
  have hx := hr.x_nonneg
  have hright := hr.right_le
  have hw := hr.width_nonneg
  have hmul : 0 ≤ (r.y + dy) * w := Int.mul_nonneg (by omega) (by omega)
  have hrow : (r.y + dy + 1) * w ≤ h * w := Int.mul_le_mul_of_nonneg_right (by omega) (by omega)
  rw [Int.add_mul (r.y + dy), Int.one_mul] at hrow
  rw [Int.mul_comm w h]
  omega

theorem backing_bounds (hr : r.Fits w h) {dy : Int} (hdy : 0 ≤ dy) (hlt : dy < r.height) :
    0 ≤ dy * r.width ∧ dy * r.width + r.width ≤ r.width * r.height := by
  have hw := hr.width_nonneg
  have hmul : 0 ≤ dy * r.width := Int.mul_nonneg hdy hw
  have hrow : (dy + 1) * r.width ≤ r.height * r.width := Int.mul_le_mul_of_nonneg_right (by omega) hw
  rw [Int.add_mul, Int.one_mul] at hrow
  rw [Int.mul_comm r.width r.height]
  omega

theorem saveRect_ends {size' : Int} (hr : r.Fits w h) (hsize : r.width * r.height ≤ size') (mem backing : Int → α) :
    Ends (fun _ => False) (saveRect r w (w * h) mem size' backing) fun backing' =>
      ∀ dx dy, 0 ≤ dx → dx < r.width → 0 ≤ dy → dy < r.height →
        backing' (dy * r.width + dx) = mem ((r.y + dy) * w + (r.x + dx)) := by
  rw [saveRect]
  refine (forRange_ends (fun i backing' => ∀ dx dy, 0 ≤ dx → dx < r.width → 0 ≤ dy → dy < i →
    backing' (dy * r.width + dx) = mem ((r.y + dy) * w + (r.x + dx))) ?_ ?_).imp ?_
  · intro i backing' hi hlt hinv
    have hrow := row_bounds hr hi hlt
    have hback := backing_bounds hr hi hlt
    rw [copyCells_ok hr.width_nonneg hrow.1 hrow.2 hback.1 (by omega)]
    intro dx dy hdx hdxw hdy hdyi
    by_cases heq : dy = i
    · subst heq
      show (if _ then _ else _) = _
      rw [if_pos (by omega)]
      congr 1
      omega
    · have hapart : ¬(i * r.width ≤ dy * r.width + dx ∧ dy * r.width + dx < i * r.width + r.width) := by
        have hmul : (dy + 1) * r.width ≤ i * r.width :=
          Int.mul_le_mul_of_nonneg_right (by omega) hr.width_nonneg
        rw [Int.add_mul, Int.one_mul] at hmul
        omega
      show (if _ then _ else _) = _
      rw [if_neg hapart]
      exact hinv dx dy hdx hdxw hdy (by omega)
  · intro dx dy _ _ hdy hdy'
    omega
  · intro backing' hinv dx dy hdx hdxw hdy hdyh
    exact hinv dx dy hdx hdxw hdy (by omega)

theorem restoreRect_ends {size' : Int} (hr : r.Fits w h) (hsize : r.width * r.height ≤ size')
    (mem backing : Int → α) :
    Ends (fun _ => False) (restoreRect r w (w * h) mem size' backing) fun mem' =>
      SameOutside r w mem' mem ∧ ∀ dx dy, 0 ≤ dx → dx < r.width → 0 ≤ dy → dy < r.height →
        mem' ((r.y + dy) * w + (r.x + dx)) = backing (dy * r.width + dx) := by
  rw [restoreRect]
  refine (forRange_ends (fun i mem' => SameOutside r w mem' mem ∧
    ∀ dx dy, 0 ≤ dx → dx < r.width → 0 ≤ dy → dy < i →
      mem' ((r.y + dy) * w + (r.x + dx)) = backing (dy * r.width + dx)) ?_ ?_).imp ?_
  · rintro i mem' hi hlt ⟨hsame, hinv⟩
    have hrow := row_bounds hr hi hlt
    have hback := backing_bounds hr hi hlt
    rw [copyCells_ok hr.width_nonneg hback.1 (by omega) hrow.1 hrow.2]
    constructor
    · intro a ha
      show (if _ then _ else _) = _
      rw [if_neg, hsame a ha]
      rintro ⟨hlo, hhi⟩
      refine ha (a - (r.y + i) * w) (r.y + i) ⟨?_, ?_, ?_, ?_⟩ ?_ <;> omega
    · intro dx dy hdx hdxw hdy hdyi
      by_cases heq : dy = i
      · subst heq
        show (if _ then _ else _) = _
        rw [if_pos (by omega)]
        congr 1
        omega
      · have hx := hr.x_nonneg
        have hright := hr.right_le
        have hapart : (r.y + dy + 1) * w ≤ (r.y + i) * w :=
          Int.mul_le_mul_of_nonneg_right (by omega) (by omega)
        rw [Int.add_mul (r.y + dy), Int.one_mul] at hapart
        show (if _ then _ else _) = _
        rw [if_neg (by omega)]
        exact hinv dx dy hdx hdxw hdy (by omega)
  · refine ⟨SameOutside.refl mem, fun dx dy _ _ hdy hdy' => ?_⟩
    omega
  · rintro mem' ⟨hsame, hinv⟩
    exact ⟨hsame, fun dx dy hdx hdxw hdy hdyh => hinv dx dy hdx hdxw hdy (by omega)⟩

/-- **Save and restore**: whatever happens inside the rectangle in between is undone. -/
theorem SameOutside.eq_of_restored {mem painted mem' backing : Int → α} (hpainted : SameOutside r w painted mem)
    (hsaved : ∀ dx dy, 0 ≤ dx → dx < r.width → 0 ≤ dy → dy < r.height →
      backing (dy * r.width + dx) = mem ((r.y + dy) * w + (r.x + dx)))
    (hrest : SameOutside r w mem' painted)
    (hrestored : ∀ dx dy, 0 ≤ dx → dx < r.width → 0 ≤ dy → dy < r.height →
      mem' ((r.y + dy) * w + (r.x + dx)) = backing (dy * r.width + dx)) : mem' = mem := by
  funext a
  by_cases hin : ∃ x y, r.Contains x y ∧ a = y * w + x
  · obtain ⟨x, y, hc, rfl⟩ := hin
    obtain ⟨hx, hxr, hy, hyb⟩ := hc
    have h1 := hrestored (x - r.x) (y - r.y) (by omega) (by omega) (by omega) (by omega)
    have h2 := hsaved (x - r.x) (y - r.y) (by omega) (by omega) (by omega) (by omega)
    rw [h2, show r.y + (y - r.y) = y by omega, show r.x + (x - r.x) = x by omega] at h1
    exact h1
  · have hout : ∀ x y, r.Contains x y → a ≠ y * w + x := fun x y hc heq => hin ⟨x, y, hc, heq⟩
    rw [hrest a hout, hpainted a hout]

end

end Limine.Lib
