import Limine.Ui.Display

/-!
# Images on the canvas

`ui_image` stretches an image over a rectangle of the canvas; the part of it outside the canvas is
left out.

    ui_image changes cells of its rectangle only, and reads the image within its bounds    (uiImage_ends)
-/

namespace Limine.Ui

open Lib

/-- `struct ui_asset` as `ui_png_read` fills it with a maximum dimension of 256. -/
structure UiAsset where
  width : Nat
  height : Nat
  pixels : Int → UInt8
  width_pos : 0 < width
  height_pos : 0 < height
  width_le : width ≤ 256
  height_le : height ≤ 256

def UiAsset.size (image : UiAsset) : Int := (image.width * 4 : Nat) * image.height

def blend (dst src alpha : UInt32) : UInt32 :=
  let inv := 255 - alpha
  ([0, 8, 16] : List UInt32).foldl (fun value shift =>
    let channel := (((dst >>> shift) &&& 255) * inv + ((src >>> shift) &&& 255) * alpha + 127) / 255
    value ||| channel <<< shift) 0

/-- A cell that `pixel` leaves alone. -/
def Canvas.skips (c : Canvas) (x y : Int) : Prop :=
  x < 0 ∨ y < 0 ∨ x ≥ c.width ∨ y ≥ c.height ∨
    c.clip.any fun clip => decide (x < clip.left ∨ y < clip.top ∨ x ≥ clip.right ∨ y ≥ clip.bottom)

instance (c : Canvas) (x y : Int) : Decidable (c.skips x y) := by
  unfold Canvas.skips
  infer_instance

def pixel (c : Canvas) (x y : Int) (colour alpha : UInt32) : Except Outside Canvas :=
  if c.skips x y ∨ alpha = 0 then .ok c
  else do
    let dst ← readAt (c.width * c.height) c.pixels (y * c.width + x)
    let pixels ← writeAt (c.width * c.height) c.pixels (y * c.width + x)
      (if alpha = 255 then colour &&& (0xffffff : UInt32) else blend dst colour alpha)
    return { c with pixels }

def interpolate (a b f : UInt32) : UInt32 := (a * (256 - f) + b * f + 128) >>> 8

/-- The four bytes `sample` reads for a channel. -/
def sample (image : UiAsset) (x y channel : Nat) : Except Outside UInt32 := do
  let ix := x / 256
  let iy := y / 256
  let nx := if ix + 1 < image.width then ix + 1 else ix
  let ny := if iy + 1 < image.height then iy + 1 else iy
  let byteAt := fun (row column : Nat) =>
    readAt image.size image.pixels ((row : Int) * (image.width * 4 : Nat) + (column * 4 + channel : Nat))
  let a ← byteAt iy ix
  let b ← byteAt iy nx
  let a' ← byteAt ny ix
  let b' ← byteAt ny nx
  return interpolate
    (interpolate a.toUInt32 b.toUInt32 (UInt32.ofNat (x % 256)))
    (interpolate a'.toUInt32 b'.toUInt32 (UInt32.ofNat (x % 256)))
    (UInt32.ofNat (y % 256))

/-- The colour of the image at `(sx, sy)`. -/
def sampleColour (image : UiAsset) (sx sy : Nat) : Except Outside UInt32 := do
  let blue ← sample image sx sy 0
  let green ← sample image sx sy 1
  let red ← sample image sx sy 2
  let alpha ← sample image sx sy 3
  return blue ||| green <<< 8 ||| red <<< 16 ||| alpha <<< 24

/-- The place in the image of one of `extent` cells, in 256ths; an `unsigned`. -/
def sourceOf (dimension : Nat) (cell extent : Int) : Nat :=
  (cell.toNat * (dimension - 1) * 256 / (if extent > 1 then (extent - 1).toNat else 1)) % 2 ^ 32

def imagePixel (image : UiAsset) (x y width height dy dx : Int) (c : Canvas) : Except Outside Canvas := do
  let colour ← sampleColour image (sourceOf image.width dx width) (sourceOf image.height dy height)
  pixel c (x + dx) (y + dy) colour (colour >>> 24)

/-- `dx < width && x + dx < c->width` ends the rows, and the same of `dy` the image. -/
def imageRow (image : UiAsset) (x y width height dy : Int) (c : Canvas) : Except Outside Canvas :=
  forRange (if x < 0 then -x else 0) (min width (c.width - x)) (imagePixel image x y width height dy) c

def uiImage (c : Canvas) (image : UiAsset) (x y width height : Int) : Except Outside Canvas :=
  if width ≤ 0 ∨ height ≤ 0 then .ok c
  else forRange (if y < 0 then -y else 0) (min height (c.height - y)) (imageRow image x y width height) c

/-! ## What painting changes -/

/-- The canvases differ in cells of the rectangle at most. -/
structure Painted (r : Rect) (c c' : Canvas) : Prop where
  width_eq : c'.width = c.width
  height_eq : c'.height = c.height
  same : SameOutside r c.width c'.pixels c.pixels

theorem Painted.refl (r : Rect) (c : Canvas) : Painted r c c := ⟨rfl, rfl, SameOutside.refl c.pixels⟩

theorem Painted.trans {r : Rect} {c c' c'' : Canvas} (h : Painted r c c') (h' : Painted r c' c'') : Painted r c c'' :=
  ⟨h'.width_eq.trans h.width_eq, h'.height_eq.trans h.height_eq, fun a ha => by
    have hin := h'.same a
    rw [h.width_eq] at hin
    rw [hin ha, h.same a ha]⟩

theorem pixel_ends (c : Canvas) {r : Rect} {x y : Int} (hin : r.Contains x y) (colour alpha : UInt32) :
    Ends (fun _ => False) (pixel c x y colour alpha) (Painted r c) := by
  rw [pixel]
  split
  · exact Painted.refl r c
  · rename_i hskip
    rw [Canvas.skips] at hskip
    have hbounds : 0 ≤ y * c.width + x ∧ y * c.width + x < c.width * c.height :=
      cell_bounds (by omega) (by omega) (by omega) (by omega)
    rw [readAt, if_pos hbounds, ok_bind, writeAt, if_pos hbounds, ok_bind]
    exact ⟨rfl, rfl, (SameOutside.refl c.pixels).update hin _⟩

/-- The place in the image is within it. -/
theorem sourceOf_le {dimension : Nat} {cell extent : Int} (hcell : cell < extent) :
    sourceOf dimension cell extent / 256 ≤ dimension - 1 := by
  have hle : sourceOf dimension cell extent ≤ (dimension - 1) * 256 := by
    refine (Nat.mod_le _ _).trans ?_
    split
    · refine Nat.div_le_of_le_mul ?_
      rw [Nat.mul_assoc]
      exact Nat.mul_le_mul_right _ (by omega)
    · rw [show cell.toNat = 0 by omega]
      simp
  omega

theorem sample_ends (image : UiAsset) {x y channel : Nat} (hx : x / 256 ≤ image.width - 1)
    (hy : y / 256 ≤ image.height - 1) (hchannel : channel < 4) :
    Ends (fun _ => False) (sample image x y channel) fun _ => True := by
  have hwidth := image.width_pos
  have hheight := image.height_pos
  have hread : ∀ row column : Nat, row < image.height → column < image.width →
      0 ≤ (row : Int) * (image.width * 4 : Nat) + (column * 4 + channel : Nat) ∧
        (row : Int) * (image.width * 4 : Nat) + (column * 4 + channel : Nat) < image.size :=
    fun row column hrow hcolumn => cell_bounds (by omega) (by omega) (by omega) (by omega)
  have hnx : (if x / 256 + 1 < image.width then x / 256 + 1 else x / 256) < image.width := by
    split <;> omega
  have hny : (if y / 256 + 1 < image.height then y / 256 + 1 else y / 256) < image.height := by
    split <;> omega
  rw [sample]
  simp only [readAt]
  rw [if_pos (hread _ _ (by omega) (by omega)), ok_bind, if_pos (hread _ _ (by omega) hnx), ok_bind,
    if_pos (hread _ _ hny (by omega)), ok_bind, if_pos (hread _ _ hny hnx), ok_bind]
  trivial

theorem sampleColour_ends (image : UiAsset) {sx sy : Nat} (hx : sx / 256 ≤ image.width - 1)
    (hy : sy / 256 ≤ image.height - 1) :
    Ends (fun _ => False) (sampleColour image sx sy) fun _ => True := by
  rw [sampleColour]
  refine (sample_ends image hx hy (by omega)).bind fun _ _ => ?_
  refine (sample_ends image hx hy (by omega)).bind fun _ _ => ?_
  refine (sample_ends image hx hy (by omega)).bind fun _ _ => ?_
  exact (sample_ends image hx hy (by omega)).bind fun _ _ => trivial

/-- What of a rectangle at `(left, top)` is on a canvas of this size. -/
def onCanvas (left top width height canvasWidth canvasHeight : Int) : Rect :=
  let right := if left + width > canvasWidth then canvasWidth else left + width
  let bottom := if top + height > canvasHeight then canvasHeight else top + height
  let x := if left < 0 then 0 else left
  let y := if top < 0 then 0 else top
  ⟨x, y, right - x, bottom - y⟩

/-- What is left of a range where the canvas has cells. -/
theorem clipped_iff {start size limit x : Int} :
    ((if start < 0 then 0 else start) ≤ x ∧ x < (if start < 0 then 0 else start) +
      ((if start + size > limit then limit else start + size) - if start < 0 then 0 else start)) ↔
      start ≤ x ∧ x < start + size ∧ 0 ≤ x ∧ x < limit := by
  split <;> split <;> omega

theorem onCanvas_contains {left top width height cw ch x y : Int} :
    (onCanvas left top width height cw ch).Contains x y ↔
      left ≤ x ∧ x < left + width ∧ 0 ≤ x ∧ x < cw ∧ top ≤ y ∧ y < top + height ∧ 0 ≤ y ∧ y < ch := by
  simp only [onCanvas, Rect.Contains]
  rw [← and_assoc, clipped_iff, clipped_iff]
  simp only [and_assoc]

/-- **An image** is painted on the cells of its rectangle that the canvas has. -/
theorem uiImage_ends (c : Canvas) (image : UiAsset) (x y width height : Int) :
    Ends (fun _ => False) (uiImage c image x y width height)
      (Painted (onCanvas x y width height c.width c.height) c) := by
  rw [uiImage]
  split
  · exact Painted.refl _ c
  · refine forRange_keeps (Painted (onCanvas x y width height c.width c.height) c) ?_ (Painted.refl _ c)
    intro dy c' hdy hdyh hpainted
    rw [imageRow]
    refine forRange_keeps (Painted (onCanvas x y width height c.width c.height) c) ?_ hpainted
    intro dx c'' hdx hdxw hpainted'
    rw [hpainted.width_eq] at hdxw
    rw [imagePixel]
    refine (sampleColour_ends image (sourceOf_le (by omega)) (sourceOf_le (by omega))).bind fun colour _ => ?_
    refine (pixel_ends c'' (onCanvas_contains.mpr ?_) colour (colour >>> 24)).imp fun _ h => hpainted'.trans h
    split at hdy <;> split at hdx <;> omega

end Limine.Ui
