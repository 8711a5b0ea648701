import Mathlib.Tactic.IntervalCases
import Mathlib.Tactic.Ring
import Limine.Lib.Raster

/-!
# The canvas on the display

`ui_display_blit` copies a rectangle of the canvas to the framebuffer, turned by up to three
clockwise quarter turns.  A framebuffer cell shows the canvas cell at `logicalAt`.

    after a blit of `r`, a cell shows the canvas where `r` has it, and is as before elsewhere    (uiDisplayBlit_ends)
-/

namespace Limine.Ui

open Lib

/-- What `ui_display` uses of `struct fb_info`. -/
structure FbInfo where
  framebufferPitch : Nat
  framebufferWidth : Nat
  framebufferHeight : Nat
  framebufferBpp : Nat
  redMaskSize : Nat
  redMaskShift : Nat
  greenMaskSize : Nat
  greenMaskShift : Nat
  blueMaskSize : Nat
  blueMaskShift : Nat
  framebufferAddr : Nat
deriving DecidableEq, Repr

/-- `struct ui_display`. -/
structure Display where
  fb : FbInfo
  rotation : Nat
  width : Int
  height : Int
deriving DecidableEq, Repr

/-- What `ui_display_init` refuses. -/
def FbInfo.refused (fb : FbInfo) (rotation : Nat) : Prop :=
  rotation > 3 ∨ fb.framebufferBpp ≠ 32 ∨ fb.framebufferWidth < 600 ∨ fb.framebufferHeight < 600 ∨
    fb.framebufferWidth > 4096 ∨ fb.framebufferHeight > 4096 ∨
    fb.framebufferWidth * fb.framebufferHeight > 4096 * 2160 ∨
    (fb.framebufferWidth < 800 ∧ fb.framebufferHeight < 800) ∨ fb.framebufferAddr = 0 ∨
    fb.framebufferPitch < fb.framebufferWidth * 4 ∨ fb.framebufferPitch > 65536 ∨
    fb.framebufferPitch &&& 3 ≠ 0 ∨
    fb.redMaskSize ≠ 8 ∨ fb.greenMaskSize ≠ 8 ∨ fb.blueMaskSize ≠ 8 ∨ fb.greenMaskShift ≠ 8 ∨
    ¬(fb.redMaskShift = 16 ∧ fb.blueMaskShift = 0 ∨ fb.redMaskShift = 0 ∧ fb.blueMaskShift = 16)

instance (fb : FbInfo) (rotation : Nat) : Decidable (fb.refused rotation) := by
  unfold FbInfo.refused
  infer_instance

def uiDisplayInit (fb : FbInfo) (rotation : Nat) : Option Display :=
  if fb.refused rotation then none
  else
    some
      { fb, rotation
        width := if rotation &&& 1 ≠ 0 then fb.framebufferHeight else fb.framebufferWidth
        height := if rotation &&& 1 ≠ 0 then fb.framebufferWidth else fb.framebufferHeight }

/-- The cells from `left` and `top` on, up to `right` and `bottom`. -/
structure Clip where
  left : Int
  top : Int
  right : Int
  bottom : Int
deriving DecidableEq, Repr

/-- `struct ui_canvas`; `clip` is `none` where it is not `clipped`. -/
structure Canvas where
  pixels : Int → UInt32
  width : Int
  height : Int
  clip : Option Clip

namespace Display

variable (d : Display)

/-- The canvas cell of a framebuffer cell. -/
def logicalAt (x y : Int) : Int × Int :=
  match d.rotation with
  | 1 => (y, d.height - 1 - x)
  | 2 => (d.width - 1 - x, d.height - 1 - y)
  | 3 => (d.width - 1 - y, x)
  | _ => (x, y)

def OnScreen (x y : Int) : Prop :=
  0 ≤ x ∧ x < d.fb.framebufferWidth ∧ 0 ≤ y ∧ y < d.fb.framebufferHeight

instance (x y : Int) : Decidable (d.OnScreen x y) := inferInstanceAs (Decidable (_ ∧ _ ∧ _ ∧ _))

/-- `ui_display_position`; as a `size_t`, a negative number is past the width. -/
def uiDisplayPosition (x y : Int) : Option (Int × Int) :=
  if d.OnScreen x y then some (d.logicalAt x y) else none

/-- The distance of two rows of the framebuffer, in pixels. -/
def stride : Int := (d.fb.framebufferPitch / 4 : Nat)

def fbSize : Int := d.stride * d.fb.framebufferHeight

/-- A canvas pixel as the framebuffer has it. -/
def toFb (value : UInt32) : UInt32 :=
  if d.fb.redMaskShift = 0 then
    (value &&& (0xff00 : UInt32)) ||| ((value >>> 16) &&& (0xff : UInt32)) ||| ((value &&& (0xff : UInt32)) <<< 16)
  else value

/-- Where the source moves as the framebuffer cell moves to the right. -/
def step (canvas : Canvas) : Int :=
  match d.rotation with
  | 0 => 1
  | 1 => -canvas.width
  | 2 => -1
  | _ => canvas.width

/-- The framebuffer cells of the canvas cells from `(x0, y0)` to `(x1, y1)`. -/
def turnedBox (canvas : Canvas) (x0 y0 x1 y1 : Int) : Clip :=
  match d.rotation with
  | 1 => ⟨canvas.height - y1, x0, canvas.height - y0, x1⟩
  | 2 => ⟨canvas.width - x1, canvas.height - y1, canvas.width - x0, canvas.height - y0⟩
  | 3 => ⟨y0, canvas.width - x1, y1, canvas.width - x0⟩
  | _ => ⟨x0, y0, x1, y1⟩

/-- One pixel of a row; `source` is carried along. -/
def blitPixel (canvas : Canvas) (py px : Int) (s : Int × (Int → UInt32)) :
    Except Outside (Int × (Int → UInt32)) := do
  let value ← readAt (canvas.width * canvas.height) canvas.pixels s.1
  let screen ← writeAt d.fbSize s.2 (py * d.stride + px) (d.toFb value)
  return (s.1 + d.step canvas, screen)

def blitRow (canvas : Canvas) (left endX py : Int) (screen : Int → UInt32) : Except Outside (Int → UInt32) :=
  match d.uiDisplayPosition left py with
  | none => .error ⟨left, d.fb.framebufferWidth⟩
  | some (lx, ly) => do
    let s ← forRange left endX (d.blitPixel canvas py) (ly * canvas.width + lx, screen)
    return s.2

def uiDisplayBlit (canvas : Canvas) (x y width height : Int) (screen : Int → UInt32) :
    Except Outside (Int → UInt32) :=
  if canvas.width ≠ d.width ∨ canvas.height ≠ d.height ∨ width ≤ 0 ∨ height ≤ 0 then .ok screen
  else
    let x0 := if x < 0 then 0 else x
    let y0 := if y < 0 then 0 else y
    let x1 := if x + width > canvas.width then canvas.width else x + width
    let y1 := if y + height > canvas.height then canvas.height else y + height
    if x0 ≥ x1 ∨ y0 ≥ y1 then .ok screen
    else
      let box := d.turnedBox canvas x0 y0 x1 y1
      forRange box.top box.bottom (d.blitRow canvas box.left box.right) screen

/-! ## What a display keeps -/

/-- What holds of a display that `ui_display_init` has accepted. -/
structure Accepted : Prop where
  rotation_le : d.rotation ≤ 3
  width_eq : d.width = if d.rotation = 1 ∨ d.rotation = 3 then d.fb.framebufferHeight else d.fb.framebufferWidth
  height_eq : d.height = if d.rotation = 1 ∨ d.rotation = 3 then d.fb.framebufferWidth else d.fb.framebufferHeight
  width_le_stride : (d.fb.framebufferWidth : Int) ≤ d.stride

end Display

theorem uiDisplayInit_accepted {fb : FbInfo} {rotation : Nat} {d : Display}
    (h : uiDisplayInit fb rotation = some d) : d.Accepted := by
  rw [uiDisplayInit] at h
  split at h
  · cases h
  · rename_i hfb
    simp only [FbInfo.refused, not_or, not_lt] at hfb
    obtain ⟨hrot, -, -, -, -, -, -, -, -, hpitch, -⟩ := hfb
    have hodd : rotation &&& 1 ≠ 0 ↔ rotation = 1 ∨ rotation = 3 := by
      interval_cases rotation <;> simp
    obtain rfl := (Option.some.inj h).symm
    refine ⟨hrot, ?_, ?_, ?_⟩
    · simp only [hodd]
      split <;> simp
    · simp only [hodd]
      split <;> simp
    · show (fb.framebufferWidth : Int) ≤ (fb.framebufferPitch / 4 : Nat)
      omega

namespace Display

variable {d : Display} {canvas : Canvas}

/-- The canvas cell of a framebuffer cell is on the canvas. -/
theorem logicalAt_bounds (hd : d.Accepted) {x y : Int} (hon : d.OnScreen x y) :
    0 ≤ (d.logicalAt x y).1 ∧ (d.logicalAt x y).1 < d.width ∧
      0 ≤ (d.logicalAt x y).2 ∧ (d.logicalAt x y).2 < d.height := by
  obtain ⟨hx, hxw, hy, hyh⟩ := hon
  have hrot := hd.rotation_le
  rw [hd.width_eq, hd.height_eq, logicalAt, hd.width_eq, hd.height_eq]
  generalize d.rotation = rotation at hrot ⊢
  interval_cases rotation <;> simp <;> omega

/-- The canvas has the size of the display. -/
structure FitsCanvas (d : Display) (canvas : Canvas) : Prop where
  width_eq : canvas.width = d.width
  height_eq : canvas.height = d.height

/-- The index of the canvas cell that a framebuffer cell shows. -/
def sourceAt (d : Display) (x y : Int) : Int := (d.logicalAt x y).2 * d.width + (d.logicalAt x y).1

/-- What a framebuffer cell shows of a canvas. -/
def shownAt (d : Display) (pixels : Int → UInt32) (x y : Int) : UInt32 := d.toFb (pixels (d.sourceAt x y))

theorem sourceAt_bounds (hd : d.Accepted) {x y : Int} (hon : d.OnScreen x y) :
    0 ≤ d.sourceAt x y ∧ d.sourceAt x y < d.width * d.height := by
  obtain ⟨hx, hxw, hy, hyh⟩ := logicalAt_bounds hd hon
  exact cell_bounds hx hxw hy hyh

/-- One cell to the right is one `step` further in the canvas. -/
theorem sourceAt_succ (hd : d.Accepted) (hc : d.FitsCanvas canvas) (x y : Int) :
    d.sourceAt (x + 1) y = d.sourceAt x y + d.step canvas := by
  have hrot := hd.rotation_le
  rw [sourceAt, sourceAt, step, logicalAt, logicalAt, hc.width_eq]
  generalize d.rotation = rotation at hrot ⊢
  interval_cases rotation <;> simp <;> ring

/-- The cell in row `y` and column `x` of the framebuffer. -/
theorem screen_bounds (hd : d.Accepted) {x y : Int} (hon : d.OnScreen x y) :
    0 ≤ y * d.stride + x ∧ y * d.stride + x < d.fbSize := by
  have hstride := hd.width_le_stride
  obtain ⟨hx, hxw, hy, hyh⟩ := hon
  exact cell_bounds hx (by omega) hy hyh

theorem screen_inj (hd : d.Accepted) {x y x' y' : Int} (hon : d.OnScreen x y) (hon' : d.OnScreen x' y')
    (h : y * d.stride + x = y' * d.stride + x') : x = x' ∧ y = y' := by
  have hstride := hd.width_le_stride
  obtain ⟨hx, hxw, -, -⟩ := hon
  obtain ⟨hx', hxw', -, -⟩ := hon'
  exact cell_inj hx (by omega) hx' (by omega) h

/-! ## Blits -/

/-- `screen'` is `screen`, but that the cells with `p` show the canvas. -/
def Blitted (d : Display) (pixels : Int → UInt32) (p : Int → Int → Prop) (screen screen' : Int → UInt32) : Prop :=
  ∀ x y, d.OnScreen x y →
    (p x y → screen' (y * d.stride + x) = d.shownAt pixels x y) ∧
      (¬p x y → screen' (y * d.stride + x) = screen (y * d.stride + x))

theorem Blitted.none {pixels screen : Int → UInt32} {p : Int → Int → Prop}
    (hp : ∀ x y, d.OnScreen x y → ¬p x y) : d.Blitted pixels p screen screen :=
  fun x y hon => ⟨fun h => absurd h (hp x y hon), fun _ => rfl⟩

theorem Blitted.trans {pixels s₁ s₂ s₃ : Int → UInt32} {p q r : Int → Int → Prop} (h₁₂ : d.Blitted pixels p s₁ s₂)
    (h₂₃ : d.Blitted pixels q s₂ s₃) (hr : ∀ x y, d.OnScreen x y → (r x y ↔ p x y ∨ q x y)) :
    d.Blitted pixels r s₁ s₃ := by
  intro x y hon
  rw [hr x y hon]
  constructor
  · intro h
    by_cases hq : q x y
    · exact (h₂₃ x y hon).1 hq
    · rw [(h₂₃ x y hon).2 hq]
      exact (h₁₂ x y hon).1 (h.resolve_right hq)
  · intro h
    rw [(h₂₃ x y hon).2 fun hq => h (.inr hq)]
    exact (h₁₂ x y hon).2 fun hp => h (.inl hp)

theorem blitPixel_ends (hd : d.Accepted) (hc : d.FitsCanvas canvas) {px py : Int} (hon : d.OnScreen px py)
    (screen : Int → UInt32) :
    Ends (fun _ => False) (d.blitPixel canvas py px (d.sourceAt px py, screen)) fun s =>
      s.1 = d.sourceAt (px + 1) py ∧
        d.Blitted canvas.pixels (fun x y => x = px ∧ y = py) screen s.2 := by
  have hsource := sourceAt_bounds hd hon
  have hscreen := screen_bounds hd hon
  rw [blitPixel, readAt, hc.width_eq, hc.height_eq, if_pos hsource, ok_bind, writeAt, if_pos hscreen, ok_bind]
  refine ⟨(sourceAt_succ hd hc px py).symm, fun x y hon' => ⟨?_, fun hne => ?_⟩⟩
  · rintro ⟨rfl, rfl⟩
    show Function.update screen _ _ _ = _
    rw [Function.update_self, shownAt]
  · show Function.update screen _ _ _ = _
    rw [Function.update_of_ne]
    intro heq
    exact hne (screen_inj hd hon' hon heq)

theorem blitRow_ends (hd : d.Accepted) (hc : d.FitsCanvas canvas) {left right py : Int} (hleft : 0 ≤ left)
    (hlt : left < right) (hright : right ≤ d.fb.framebufferWidth) (hpy : 0 ≤ py)
    (hpyh : py < d.fb.framebufferHeight) (screen : Int → UInt32) :
    Ends (fun _ => False) (d.blitRow canvas left right py screen)
      (d.Blitted canvas.pixels (fun x y => left ≤ x ∧ x < right ∧ y = py) screen) := by
  have hposition : d.uiDisplayPosition left py = some (d.logicalAt left py) :=
    if_pos ⟨hleft, by omega, hpy, hpyh⟩
  rw [blitRow, hposition]
  have hsource : (d.logicalAt left py).2 * canvas.width + (d.logicalAt left py).1 = d.sourceAt left py := by
    rw [hc.width_eq, sourceAt]
  -- before the turn of `px`, the cells left of it are painted
  refine Ends.bind (forRange_ends (fun px s => s.1 = d.sourceAt px py ∧
    d.Blitted canvas.pixels (fun x y => left ≤ x ∧ x < px ∧ y = py) screen s.2) ?_ ⟨hsource, ?_⟩) ?_
  · rintro px ⟨source, screen'⟩ hlo hhi ⟨hsource, hblitted⟩
    obtain rfl : source = d.sourceAt px py := hsource
    have hon : d.OnScreen px py := ⟨by omega, by omega, hpy, hpyh⟩
    refine (blitPixel_ends hd hc hon screen').imp ?_
    rintro s ⟨hs, hpixel⟩
    exact ⟨hs, hblitted.trans hpixel fun x y _ => by omega⟩
  · exact Blitted.none fun x y _ => by omega
  · rintro ⟨source, screen'⟩ ⟨-, hblitted⟩
    rw [Int.max_eq_right hlt.le] at hblitted
    exact hblitted

/-- The turned box has the cells that show the canvas cells. -/
theorem turnedBox_iff (hd : d.Accepted) (hc : d.FitsCanvas canvas) (x0 y0 x1 y1 x y : Int) :
    ((d.turnedBox canvas x0 y0 x1 y1).left ≤ x ∧ x < (d.turnedBox canvas x0 y0 x1 y1).right ∧
        (d.turnedBox canvas x0 y0 x1 y1).top ≤ y ∧ y < (d.turnedBox canvas x0 y0 x1 y1).bottom) ↔
      x0 ≤ (d.logicalAt x y).1 ∧ (d.logicalAt x y).1 < x1 ∧
        y0 ≤ (d.logicalAt x y).2 ∧ (d.logicalAt x y).2 < y1 := by
  have hrot := hd.rotation_le
  rw [turnedBox, logicalAt, hc.width_eq, hc.height_eq]
  generalize d.rotation = rotation at hrot ⊢
  interval_cases rotation <;> simp <;> omega

theorem turnedBox_bounds (hd : d.Accepted) (hc : d.FitsCanvas canvas) {x0 y0 x1 y1 : Int} (hx0 : 0 ≤ x0)
    (hx : x0 < x1) (hx1 : x1 ≤ d.width) (hy0 : 0 ≤ y0) (hy : y0 < y1) (hy1 : y1 ≤ d.height) :
    0 ≤ (d.turnedBox canvas x0 y0 x1 y1).left ∧
      (d.turnedBox canvas x0 y0 x1 y1).left < (d.turnedBox canvas x0 y0 x1 y1).right ∧
      (d.turnedBox canvas x0 y0 x1 y1).right ≤ d.fb.framebufferWidth ∧
      0 ≤ (d.turnedBox canvas x0 y0 x1 y1).top ∧
      (d.turnedBox canvas x0 y0 x1 y1).top < (d.turnedBox canvas x0 y0 x1 y1).bottom ∧
      (d.turnedBox canvas x0 y0 x1 y1).bottom ≤ d.fb.framebufferHeight := by
  have hrot := hd.rotation_le
  rw [hd.width_eq] at hx1
  rw [hd.height_eq] at hy1
  rw [turnedBox, hc.width_eq, hc.height_eq, hd.width_eq, hd.height_eq]
  generalize d.rotation = rotation at hrot hx1 hy1 ⊢
  interval_cases rotation <;> simp at hx1 hy1 ⊢ <;> omega

/-- **Blit**: the cells that show a canvas cell of the rectangle show it afterwards; the others stay. -/
theorem uiDisplayBlit_ends (hd : d.Accepted) (hc : d.FitsCanvas canvas) (r : Rect) (screen : Int → UInt32) :
    Ends (fun _ => False) (d.uiDisplayBlit canvas r.x r.y r.width r.height screen)
      (d.Blitted canvas.pixels (fun x y => r.Contains (d.logicalAt x y).1 (d.logicalAt x y).2) screen) := by
  rw [uiDisplayBlit, hc.width_eq, hc.height_eq]
  split
  · refine Blitted.none fun x y _ hin => ?_
    rw [Rect.Contains] at hin
    omega
  · rename_i hsize
    extract_lets x0 y0 x1 y1 box
    have hx0 : x0 = max r.x 0 := by grind
    have hy0 : y0 = max r.y 0 := by grind
    have hx1 : x1 = min (r.x + r.width) d.width := by grind
    have hy1 : y1 = min (r.y + r.height) d.height := by grind
    clear_value x0 y0 x1 y1
    have hin : ∀ x y, d.OnScreen x y → (r.Contains (d.logicalAt x y).1 (d.logicalAt x y).2 ↔
        x0 ≤ (d.logicalAt x y).1 ∧ (d.logicalAt x y).1 < x1 ∧
          y0 ≤ (d.logicalAt x y).2 ∧ (d.logicalAt x y).2 < y1) := by
      intro x y hon
      have hbounds := logicalAt_bounds hd hon
      rw [Rect.Contains]
      omega
    split
    · refine Blitted.none fun x y hon h => ?_
      rw [hin x y hon] at h
      omega
    · have hbox : 0 ≤ box.left ∧ box.left < box.right ∧ box.right ≤ d.fb.framebufferWidth ∧
          0 ≤ box.top ∧ box.top < box.bottom ∧ box.bottom ≤ d.fb.framebufferHeight :=
        turnedBox_bounds hd hc (by omega) (by omega) (by omega) (by omega) (by omega) (by omega)
      have hturned := turnedBox_iff hd hc x0 y0 x1 y1
      change ∀ x y, (box.left ≤ x ∧ x < box.right ∧ box.top ≤ y ∧ y < box.bottom) ↔ _ at hturned
      clear_value box
      obtain ⟨hleft, hwide, hright, htop, htall, hbottom⟩ := hbox
      refine (forRange_ends (fun py => d.Blitted canvas.pixels
        (fun x y => box.left ≤ x ∧ x < box.right ∧ box.top ≤ y ∧ y < py) screen) ?_ ?_).imp ?_
      · intro py screen' hlo hhi hblitted
        refine (blitRow_ends hd hc hleft hwide hright (by omega) (by omega) screen').imp fun screen'' hrow => ?_
        exact hblitted.trans hrow fun x y _ => by omega
      · exact Blitted.none fun x y _ => by omega
      · intro screen' hblitted x y hon
        rw [Int.max_eq_right htall.le] at hblitted
        show (r.Contains _ _ → _) ∧ (¬r.Contains _ _ → _)
        rw [hin x y hon, ← hturned]
        exact hblitted x y hon

end Display

end Limine.Ui
