import Limine.Gterm.Canvas
import Limine.Lib.Patchwork
import Limine.Lib.Triple
import Mathlib.Data.Nat.Sqrt
import Mathlib.Tactic.Ring

/-!
# What is on the canvas

The nine rectangles of `generate_canvas` cut the canvas (`layout_cut`), and a rectangle is drawn pixel by pixel with
what its style takes of the image (`genloop_eq`).  A pixel of the gradient is as far from the box as the floor of a
square root says (`blendGradientFromBox_eq`).
-/

namespace Limine.Gterm

open Limine.Lib

/-! ## `sqrt` -/

section Sqrt
variable {k fuel n root : Nat}

theorem sqrtLoop_zero (fuel op res : Nat) : sqrtLoop fuel op res 0 = res := by
  cases fuel with
  | zero => rfl
  | succ fuel => rw [sqrtLoop, if_pos rfl]

/-- One turn decides about bit `k` of the root. -/
theorem sqrtLoop_turn (hle : root * root ≤ n) (hlt : n < (root + 2 ^ (k + 1)) * (root + 2 ^ (k + 1)))
    (hrest : ∀ root, root * root ≤ n → n < (root + 2 ^ k) * (root + 2 ^ k) →
      sqrtLoop fuel (n - root * root) (root * 2 ^ k) (4 ^ k / 4) = Nat.sqrt n) :
    sqrtLoop (fuel + 1) (n - root * root) (root * 2 ^ (k + 1)) (4 ^ k) = Nat.sqrt n := by
  have hone : 4 ^ k = 2 ^ k * 2 ^ k := by rw [← Nat.mul_pow]
  have htwice : root * 2 ^ (k + 1) = 2 * (root * 2 ^ k) := by ring
  have hnext : (root + 2 ^ k) * (root + 2 ^ k) = root * root + (root * 2 ^ (k + 1) + 4 ^ k) := by
    rw [htwice, hone]
    ring
  rw [sqrtLoop, if_neg (Nat.ne_of_gt (Nat.pow_pos (by decide)))]
  by_cases hbit : (root + 2 ^ k) * (root + 2 ^ k) ≤ n
  · have hop : n - root * root - (root * 2 ^ (k + 1) + 4 ^ k) = n - (root + 2 ^ k) * (root + 2 ^ k) := by omega
    have hres : (root * 2 ^ (k + 1) + 2 * 4 ^ k) / 2 = (root + 2 ^ k) * 2 ^ k := by
      rw [htwice, hone, Nat.add_mul]
      omega
    rw [if_pos (by omega), hop, hres]
    refine hrest _ hbit ?_
    rwa [Nat.add_assoc, ← Nat.two_mul, ← Nat.pow_succ']
  · have hres : root * 2 ^ (k + 1) / 2 = root * 2 ^ k := by
      rw [htwice]
      omega
    rw [if_neg (by omega), hres]
    exact hrest root hle (Nat.lt_of_not_le hbit)

/-- The root so far is `root`, and bit `k` is the next to be tried. -/
theorem sqrtLoop_eq (hfuel : k < fuel) (hle : root * root ≤ n)
    (hlt : n < (root + 2 ^ (k + 1)) * (root + 2 ^ (k + 1))) :
    sqrtLoop fuel (n - root * root) (root * 2 ^ (k + 1)) (4 ^ k) = Nat.sqrt n := by
  obtain ⟨fuel, rfl⟩ := Nat.exists_eq_add_of_lt hfuel
  induction k generalizing root fuel with
  | zero =>
    refine sqrtLoop_turn hle hlt fun root hle hlt => ?_
    rw [Nat.pow_zero, Nat.div_eq_of_lt (by decide), sqrtLoop_zero, Nat.mul_one]
    exact Nat.eq_sqrt.mpr ⟨hle, hlt⟩
  | succ k ih =>
    refine sqrtLoop_turn hle hlt fun root hle hlt => ?_
    have hone : 4 ^ (k + 1) / 4 = 4 ^ k := by
      rw [Nat.pow_succ]
      omega
    have hfuel : k + 1 + fuel = k + fuel + 1 := by omega
    rw [hone, hfuel]
    exact ih hle hlt fuel (by omega)

theorem sqrtStart_zero (op fuel : Nat) : sqrtStart op fuel 0 = 0 := by
  cases fuel with
  | zero => rfl
  | succ fuel => rw [sqrtStart, if_neg (Nat.not_lt_zero op)]

theorem sqrtStart_eq (hfuel : k < fuel) (hlt : n < 4 ^ (k + 1)) :
    (∃ j, j ≤ k ∧ n < 4 ^ (j + 1) ∧ sqrtStart n fuel (4 ^ k) = 4 ^ j) ∨ n = 0 ∧ sqrtStart n fuel (4 ^ k) = 0 := by
  obtain ⟨fuel, rfl⟩ := Nat.exists_eq_add_of_lt hfuel
  induction k generalizing fuel with
  | zero =>
    rw [sqrtStart]
    split
    · next hgt =>
      refine Or.inr ⟨by omega, ?_⟩
      rw [Nat.pow_zero, Nat.div_eq_of_lt (by decide)]
      exact sqrtStart_zero _ _
    · exact Or.inl ⟨0, Nat.le_refl _, hlt, rfl⟩
  | succ k ih =>
    have hone : 4 ^ (k + 1) / 4 = 4 ^ k := by
      rw [Nat.pow_succ]
      omega
    have hfuel : k + 1 + fuel = k + fuel + 1 := by omega
    rw [sqrtStart]
    split
    · next hgt =>
      rw [hone, hfuel]
      rcases ih hgt fuel (by omega) with ⟨j, hj, hlt, heq⟩ | hzero
      · exact Or.inl ⟨j, by omega, hlt, heq⟩
      · exact Or.inr hzero
    · exact Or.inl ⟨k + 1, Nat.le_refl _, hlt, rfl⟩

theorem sqrt_eq (h : n < 2 ^ 64) : sqrt n = Nat.sqrt n := by
  unfold sqrt
  have hstart : (2 : Nat) ^ 62 = 4 ^ 31 := by decide
  rw [hstart]
  rcases sqrtStart_eq (show 31 < 32 by decide) (Nat.lt_of_lt_of_eq h (by decide)) with
    ⟨j, hj, hlt, heq⟩ | ⟨rfl, heq⟩
  · rw [heq]
    have hloop : sqrtLoop 32 (n - 0 * 0) (0 * 2 ^ (j + 1)) (4 ^ j) = Nat.sqrt n := by
      refine sqrtLoop_eq (by omega) (Nat.zero_le _) ?_
      rw [Nat.zero_add, ← Nat.mul_pow]
      exact hlt
    rwa [Nat.zero_mul, Nat.zero_mul, Nat.sub_zero] at hloop
  · rw [heq, sqrtLoop_zero]
    rfl

end Sqrt

/-! ## Rows -/

/-- What `image_open` and the two functions that set a style leave in an image. -/
structure Image.Opened (image : Image) (env : Env) : Prop where
  width_pos : 0 < image.imgWidth
  height_pos : 0 < image.imgHeight
  bpp : image.bpp = 32
  pitch : image.pitch = image.imgWidth * 4
  pixels_lt : image.imgWidth * image.imgHeight * 4 < 2 ^ env.sizeBits
  sizes : image.type ≠ .stretched → image.xSize = image.imgWidth ∧ image.ySize = image.imgHeight

namespace Image.Opened
variable {image : Image} {env : Env}

theorem imageOpen {x y : Nat} (hx : 0 < x) (hy : 0 < y) (hlt : x * y * 4 < 2 ^ env.sizeBits) (img : Nat → UInt32) :
    (imageOpen x y img).Opened env := ⟨hx, hy, rfl, rfl, hlt, fun _ => ⟨rfl, rfl⟩⟩

theorem makeCentered (h : image.Opened env) (htype : image.type ≠ .stretched) (frameXSize frameYSize : Int)
    (backColour : UInt32) : (imageMakeCentered image frameXSize frameYSize backColour).Opened env :=
  ⟨h.width_pos, h.height_pos, h.bpp, h.pitch, h.pixels_lt, fun _ => h.sizes htype⟩

theorem makeStretched (h : image.Opened env) (newXSize newYSize : Nat) :
    (imageMakeStretched image newXSize newYSize).Opened env :=
  ⟨h.width_pos, h.height_pos, h.bpp, h.pitch, h.pixels_lt, fun htype => absurd rfl htype⟩

end Image.Opened

/-- The canvas has pixels, and its bytes can be counted. -/
structure Fits (env : Env) (fb : FbInfo) : Prop where
  width_pos : 0 < fb.framebufferWidth
  height_pos : 0 < fb.framebufferHeight
  canvas_lt : fb.framebufferWidth * fb.framebufferHeight * 4 < 2 ^ env.sizeBits

theorem Env.size_of_lt {env : Env} {n : Nat} (h : n < 2 ^ env.sizeBits) : env.size n = n := Nat.mod_eq_of_lt h

theorem Env.size_le (env : Env) (n : Nat) : env.size n ≤ n := Nat.mod_le _ _

theorem Env.sub_of_le {env : Env} {a b : Nat} (ha : a < 2 ^ env.sizeBits) (hle : b ≤ a) : env.sub a b = a - b := by
  unfold Env.sub Env.size
  have heq : a + (2 ^ env.sizeBits - b) = a - b + 2 ^ env.sizeBits := by omega
  rw [heq, Nat.add_mod_right, Nat.mod_eq_of_lt (by omega)]

/-- The pixel in column `x` of row `y` of the image. -/
def Image.pixel (image : Image) (x y : Nat) : UInt32 := image.img (image.imgWidth * y * 4 + x * 4)

section Rows
variable {env : Env} {image : Image} {fb : FbInfo}

theorem Image.Opened.read (h : image.Opened env) {x y : Nat} (hx : x < image.imgWidth) (hy : y < image.imgHeight) :
    image.read (env.size (x * (image.bpp / 8) + env.size (image.pitch * y))) = .ok (image.pixel x y) := by
  have hindex := Swatch.index_lt hx hy
  have hlt := h.pixels_lt
  have hoff : image.imgWidth * 4 * y = image.imgWidth * y * 4 := by ring
  have hrow : env.size (image.imgWidth * y * 4) = image.imgWidth * y * 4 := Env.size_of_lt (by omega)
  rw [h.bpp, h.pitch, hoff, hrow, Env.size_of_lt (by omega), Image.read, if_pos (by omega), Image.pixel, Nat.add_comm]

theorem Fits.width_lt (h : Fits env fb) : fb.framebufferWidth < 2 ^ env.sizeBits := by
  have hmul := Nat.le_mul_of_pos_right fb.framebufferWidth h.height_pos
  have hlt := h.canvas_lt
  omega

theorem Fits.height_lt (h : Fits env fb) : fb.framebufferHeight < 2 ^ env.sizeBits := by
  have hmul := Nat.le_mul_of_pos_left fb.framebufferHeight h.width_pos
  have hlt := h.canvas_lt
  omega

/-- `inv` is what the place in the image is before the turn of `x`. -/
theorem rowLoop_eq (hfits : Fits env fb) {σ : Type} {step : Nat → σ → Except Fault (UInt32 × σ)}
    {blend : Nat → UInt32 → UInt32} {src : Nat → UInt32} {y xend : Nat} (inv : Nat → σ → Prop)
    (hxend : xend ≤ fb.framebufferWidth) (hy : y < fb.framebufferHeight)
    (hstep : ∀ x s, x < xend → inv x s → ∃ s', step x s = .ok (src x, s') ∧ inv (x + 1) s')
    {n x : Nat} {s : σ} {canvas : Puts} (hn : x + n = xend) (hs : inv x s) :
    rowLoop env (fb.framebufferWidth * fb.framebufferHeight * 4) step blend (env.size (fb.framebufferWidth * y)) n x s
      canvas = .ok (canvas ++ (List.range' x n).map fun x => (fb.framebufferWidth * y + x, blend x (src x))) := by
  induction n generalizing x s canvas with
  | zero =>
    rw [rowLoop, List.range'_zero, List.map_nil, List.append_nil]
  | succ n ih =>
    obtain ⟨s', hrun, hs'⟩ := hstep x s (by omega) hs
    have hindex := Swatch.index_lt (Nat.lt_of_lt_of_le (by omega : x < xend) hxend) hy
    have hlt := hfits.canvas_lt
    have hput : put (fb.framebufferWidth * fb.framebufferHeight * 4)
        (env.size (env.size (fb.framebufferWidth * y) + x)) (blend x (src x)) canvas =
          .ok (canvas ++ [(fb.framebufferWidth * y + x, blend x (src x))]) := by
      rw [Env.size_of_lt (by omega : fb.framebufferWidth * y < _), Env.size_of_lt (by omega), put, if_pos (by omega)]
    rw [rowLoop, hrun]
    show (put _ _ _ _ >>= _) = _
    rw [hput]
    show rowLoop _ _ _ _ _ _ _ _ _ = _
    rw [ih (by omega) hs', List.append_assoc, List.range'_succ, List.map_cons]
    rfl

theorem loopRows_eq {row : Nat → Puts → Except Fault Puts} {cells : Nat → Puts} {yend : Nat}
    (hrow : ∀ y canvas, y < yend → row y canvas = .ok (canvas ++ cells y)) {n y : Nat} {canvas : Puts}
    (hn : y + n = yend) : loopRows row n y canvas = .ok (canvas ++ (List.range' y n).flatMap cells) := by
  induction n generalizing y canvas with
  | zero =>
    rw [loopRows, List.range'_zero, List.flatMap_nil, List.append_nil]
  | succ n ih =>
    rw [loopRows, hrow y canvas (by omega)]
    show loopRows _ _ _ _ = _
    rw [ih (by omega), List.append_assoc, List.range'_succ, List.flatMap_cons]

/-! ## What a style takes of the image -/

/-- How far a pixel of a stretched image is from the next, in 64ths. -/
def ratio (env : Env) (image : Image) (fb : FbInfo) : Nat := env.size (image.imgWidth * 64) / fb.framebufferWidth

/-- The colour of the background at a pixel of the canvas. -/
def source (env : Env) (image : Image) (fb : FbInfo) (x y : Nat) : UInt32 :=
  match image.type with
  | .tiled => image.pixel (x % image.imgWidth) (y % image.imgHeight)
  | .centered =>
    let imageX : Int := x - image.xDisplacement
    let imageY : Int := y - image.yDisplacement
    if (imageY < 0 ∨ imageY ≥ image.ySize) ∨ (imageX < 0 ∨ imageX ≥ image.xSize) then image.backColour
    else image.pixel imageX.toNat imageY.toNat
  | .stretched =>
    image.pixel (ratio env image fb * x / 64) (env.size (y * image.imgHeight) / fb.framebufferHeight)

/-- The cells of a row from `xstart` on. -/
def rowPuts (fb : FbInfo) (blend : Blend) (src : Nat → Nat → UInt32) (xstart xend y : Nat) : Puts :=
  (List.range' xstart (xend - xstart)).map fun x => (fb.framebufferWidth * y + x, blend x y (src x y))

variable {blend : Blend} {xstart xend y : Nat} {canvas : Puts}

theorem tiledRow_eq (hfits : Fits env fb) (h : image.Opened env) (htype : image.type = .tiled)
    (hle : xstart ≤ xend) (hxend : xend ≤ fb.framebufferWidth) (hy : y < fb.framebufferHeight) :
    tiledRow env image fb (fb.framebufferWidth * fb.framebufferHeight * 4) blend xstart xend y canvas =
      .ok (canvas ++ rowPuts fb blend (source env image fb) xstart xend y) := by
  refine rowLoop_eq hfits (fun x imageX => imageX = x % image.imgWidth) hxend hy ?_ (by omega) rfl
  rintro x _ hx rfl
  have hread := h.read (Nat.mod_lt x h.width_pos) (Nat.mod_lt y h.height_pos)
  have hnext : (if x % image.imgWidth + 1 = image.imgWidth then 0 else x % image.imgWidth + 1) =
      (x + 1) % image.imgWidth := by
    have hmod := Nat.mod_lt x h.width_pos
    rw [Nat.add_mod x 1]
    split
    · next hlast =>
      by_cases hone : image.imgWidth = 1
      · rw [hone, Nat.mod_one]
      · rw [Nat.mod_eq_of_lt (a := 1) (by omega), hlast, Nat.mod_self]
    · next hlast => rw [Nat.mod_eq_of_lt (a := 1) (by omega), Nat.mod_eq_of_lt (a := x % image.imgWidth + 1) (by omega)]
  refine ⟨(x + 1) % image.imgWidth, ?_, rfl⟩
  rw [hread, ← hnext, source, htype]
  rfl

theorem centeredRow_eq (hfits : Fits env fb) (h : image.Opened env) (htype : image.type = .centered)
    (hle : xstart ≤ xend) (hxend : xend ≤ fb.framebufferWidth) (hy : y < fb.framebufferHeight) :
    centeredRow env image fb (fb.framebufferWidth * fb.framebufferHeight * 4) blend xstart xend y canvas =
      .ok (canvas ++ rowPuts fb blend (source env image fb) xstart xend y) := by
  obtain ⟨hxSize, hySize⟩ := h.sizes (by rw [htype]; decide)
  unfold centeredRow
  dsimp only
  split
  · next hout =>
    refine rowLoop_eq hfits (fun _ _ => True) hxend hy (fun x _ hx _ => ⟨(), ?_, trivial⟩) (by omega) trivial
    rw [source, htype]
    dsimp only
    rw [if_pos (Or.inl hout)]
    rfl
  · next hin =>
    refine rowLoop_eq hfits (fun _ _ => True) hxend hy (fun x _ hx _ => ⟨(), ?_, trivial⟩) (by omega) trivial
    rw [source, htype]
    dsimp only
    by_cases hx : (x : Int) - image.xDisplacement < 0 ∨ (x : Int) - image.xDisplacement ≥ image.xSize
    · rw [if_pos hx, if_pos (Or.inr hx)]
      rfl
    · rw [if_neg hx, if_neg (not_or.mpr ⟨hin, hx⟩), h.read (by omega) (by omega)]
      rfl

theorem ratio_mul_le {x : Nat} (hx : x ≤ fb.framebufferWidth) :
    ratio env image fb * x ≤ env.size (image.imgWidth * 64) :=
  Nat.le_trans (Nat.mul_le_mul_left _ hx) (Nat.div_mul_le_self _ _)

theorem stretchedRow_eq (hfits : Fits env fb) (h : image.Opened env) (htype : image.type = .stretched)
    (hle : xstart ≤ xend) (hxend : xend ≤ fb.framebufferWidth) (hy : y < fb.framebufferHeight) :
    stretchedRow env image fb (fb.framebufferWidth * fb.framebufferHeight * 4) blend xstart xend y canvas =
      .ok (canvas ++ rowPuts fb blend (source env image fb) xstart xend y) := by
  have hsize : ∀ x, x ≤ fb.framebufferWidth → env.size (ratio env image fb * x) = ratio env image fb * x := by
    intro x hx
    apply Env.size_of_lt
    exact Nat.lt_of_le_of_lt (ratio_mul_le hx) (Nat.mod_lt _ (Nat.two_pow_pos _))
  have hrow : env.size (y * image.imgHeight) / fb.framebufferHeight < image.imgHeight := by
    apply Nat.div_lt_of_lt_mul
    exact Nat.lt_of_le_of_lt (env.size_le _) (Nat.mul_lt_mul_of_pos_right hy h.height_pos)
  refine rowLoop_eq hfits (fun x imgX => imgX = ratio env image fb * x) hxend hy ?_ (by omega) (hsize _ (by omega))
  rintro x _ hx rfl
  have hcolumn : ratio env image fb * x / 64 < image.imgWidth := by
    apply Nat.div_lt_of_lt_mul
    have hle : ratio env image fb * (x + 1) ≤ env.size (image.imgWidth * 64) := ratio_mul_le (by omega)
    have hwidth := env.size_le (image.imgWidth * 64)
    rw [Nat.mul_succ] at hle
    by_cases hzero : ratio env image fb = 0
    · have hpos := h.width_pos
      rw [hzero, Nat.zero_mul]
      omega
    · omega
  refine ⟨env.size (ratio env image fb * x + ratio env image fb), ?_, hsize (x + 1) (by omega)⟩
  rw [h.read hcolumn hrow, source, htype]
  rfl

theorem imageRow_eq (hfits : Fits env fb) (h : image.Opened env) (hle : xstart ≤ xend)
    (hxend : xend ≤ fb.framebufferWidth) (hy : y < fb.framebufferHeight) :
    imageRow env image fb (fb.framebufferWidth * fb.framebufferHeight * 4) blend xstart xend y canvas =
      .ok (canvas ++ rowPuts fb blend (source env image fb) xstart xend y) := by
  unfold imageRow
  split
  · next htype => exact tiledRow_eq hfits h htype hle hxend hy
  · next htype => exact centeredRow_eq hfits h htype hle hxend hy
  · next htype => exact stretchedRow_eq hfits h htype hle hxend hy

/-- A rectangle is drawn cell by cell. -/
theorem genloop_eq (hfits : Fits env fb) (h : image.Opened env) {p : Swatch}
    (hin : p.Inside fb.framebufferWidth fb.framebufferHeight) :
    genloop env image fb (fb.framebufferWidth * fb.framebufferHeight * 4) blend p.left p.right p.top p.bottom canvas =
      .ok (canvas ++ p.visit fun x y => (fb.framebufferWidth * y + x, blend x y (source env image fb x y))) := by
  have hrow : ∀ y canvas, y < p.bottom →
      imageRow env image fb (fb.framebufferWidth * fb.framebufferHeight * 4) blend p.left p.right y canvas =
        .ok (canvas ++ rowPuts fb blend (source env image fb) p.left p.right y) :=
    fun y canvas hy => imageRow_eq hfits h hin.left_le hin.right_le (Nat.lt_of_lt_of_le hy hin.bottom_le)
  unfold genloop
  rw [if_neg (Nat.not_lt.mpr hin.left_le), if_neg (Nat.not_lt.mpr hin.top_le)]
  dsimp only
  rw [loopRows_eq hrow (Nat.add_sub_cancel' hin.top_le)]
  rfl

end Rows

/-! ## The rectangles -/

/-- How far the text box is from the edges. -/
def boxMargin (env : Env) (fb : FbInfo) : Nat := effectiveMarginFor env fb env.margin

/-- The width of the gradient. -/
def bandWidth (env : Env) (fb : FbInfo) : Nat :=
  if env.marginGradient > boxMargin env fb then boxMargin env fb else env.marginGradient

/-- The width of what is around the gradient. -/
def outerWidth (env : Env) (fb : FbInfo) : Nat := boxMargin env fb - bandWidth env fb

def externalSwatches (fb : FbInfo) (outer : Nat) : List Swatch :=
  [⟨0, fb.framebufferWidth, 0, outer⟩,
    ⟨0, fb.framebufferWidth, fb.framebufferHeight - outer, fb.framebufferHeight⟩,
    ⟨0, outer, outer, fb.framebufferHeight - outer⟩,
    ⟨fb.framebufferWidth - outer, fb.framebufferWidth, outer, fb.framebufferHeight - outer⟩]

def marginSwatches (fb : FbInfo) (outer box : Nat) : List Swatch :=
  [⟨outer, fb.framebufferWidth - outer, outer, box⟩,
    ⟨outer, fb.framebufferWidth - outer, fb.framebufferHeight - box, fb.framebufferHeight - outer⟩,
    ⟨outer, box, box, fb.framebufferHeight - box⟩,
    ⟨fb.framebufferWidth - box, fb.framebufferWidth - outer, box, fb.framebufferHeight - box⟩]

/-- What is at least so far from the edges. -/
def inset (fb : FbInfo) (far : Nat) : Swatch :=
  ⟨far, fb.framebufferWidth - far, far, fb.framebufferHeight - far⟩

/-- The rectangles in the order they are drawn, and how. -/
def layout (env : Env) (fb : FbInfo) : List (Swatch × Blend) :=
  (externalSwatches fb (outerWidth env fb)).map (·, blendExternal) ++
    ((if bandWidth env fb ≠ 0 then marginSwatches fb (outerWidth env fb) (boxMargin env fb) else []).map
      (·, blendMargin env fb) ++
    [(inset fb (boxMargin env fb), blendInternal env)])

section Layout
variable {env : Env} {image : Image} {fb : FbInfo}

theorem boxMargin_le (hfits : Fits env fb) :
    2 * boxMargin env fb ≤ fb.framebufferWidth ∧ 2 * boxMargin env fb ≤ fb.framebufferHeight := by
  have hwidth := hfits.width_lt
  have hheight := hfits.height_lt
  unfold boxMargin effectiveMarginFor
  rw [Env.size_of_lt (by omega : fb.framebufferWidth / 2 < _), Env.size_of_lt (by omega : fb.framebufferHeight / 2 < _)]
  dsimp only
  split <;> split <;> omega

theorem bandWidth_le (env : Env) (fb : FbInfo) : bandWidth env fb ≤ boxMargin env fb := by
  unfold bandWidth
  split <;> omega

/-- The cells of a rectangle with what is put there. -/
def swatchPuts (env : Env) (image : Image) (fb : FbInfo) (q : Swatch × Blend) : Puts :=
  q.1.visit fun x y => (fb.framebufferWidth * y + x, q.2 x y (source env image fb x y))

theorem externalSwatches_inside (hfits : Fits env fb) :
    ∀ p ∈ externalSwatches fb (outerWidth env fb), p.Inside fb.framebufferWidth fb.framebufferHeight := by
  obtain ⟨hboxX, hboxY⟩ := boxMargin_le hfits
  have houter : outerWidth env fb ≤ boxMargin env fb := Nat.sub_le _ _
  simp only [externalSwatches, List.forall_mem_cons, List.not_mem_nil, false_implies, implies_true, and_true]
  refine ⟨⟨?_, ?_, ?_, ?_⟩, ⟨?_, ?_, ?_, ?_⟩, ⟨?_, ?_, ?_, ?_⟩, ⟨?_, ?_, ?_, ?_⟩⟩
  all_goals dsimp only
  all_goals omega

theorem marginSwatches_inside (hfits : Fits env fb) : ∀ p ∈ marginSwatches fb (outerWidth env fb) (boxMargin env fb),
    p.Inside fb.framebufferWidth fb.framebufferHeight := by
  obtain ⟨hboxX, hboxY⟩ := boxMargin_le hfits
  have houter : outerWidth env fb ≤ boxMargin env fb := Nat.sub_le _ _
  simp only [marginSwatches, List.forall_mem_cons, List.not_mem_nil, false_implies, implies_true, and_true]
  refine ⟨⟨?_, ?_, ?_, ?_⟩, ⟨?_, ?_, ?_, ?_⟩, ⟨?_, ?_, ?_, ?_⟩, ⟨?_, ?_, ?_, ?_⟩⟩
  all_goals dsimp only
  all_goals omega

theorem inset_inside (hfits : Fits env fb) :
    (inset fb (boxMargin env fb)).Inside fb.framebufferWidth fb.framebufferHeight := by
  obtain ⟨hboxX, hboxY⟩ := boxMargin_le hfits
  refine ⟨?_, ?_, ?_, ?_⟩
  all_goals
    dsimp only [inset]
    omega

theorem drawCanvas_eq (hfits : Fits env fb) (h : image.Opened env) :
    drawCanvas env image fb (fb.framebufferWidth * fb.framebufferHeight * 4) =
      .ok ((layout env fb).flatMap (swatchPuts env image fb)) := by
  obtain ⟨hboxX, hboxY⟩ := boxMargin_le hfits
  have hband := bandWidth_le env fb
  have houter : outerWidth env fb = boxMargin env fb - bandWidth env fb := rfl
  have hloop : ∀ {p : Swatch}, p.Inside fb.framebufferWidth fb.framebufferHeight → ∀ (blend : Blend) (canvas : Puts),
      genloop env image fb (fb.framebufferWidth * fb.framebufferHeight * 4) blend p.left p.right p.top p.bottom canvas =
        .ok (canvas ++ swatchPuts env image fb (p, blend)) := fun hin _ _ => genloop_eq hfits h hin
  have hsubX : ∀ n, n ≤ boxMargin env fb → env.sub fb.framebufferWidth n = fb.framebufferWidth - n :=
    fun n hn => Env.sub_of_le hfits.width_lt (by omega)
  have hsubY : ∀ n, n ≤ boxMargin env fb → env.sub fb.framebufferHeight n = fb.framebufferHeight - n :=
    fun n hn => Env.sub_of_le hfits.height_lt (by omega)
  have hnoGradient : (if (boxMargin env fb : Int) - bandWidth env fb < 0 then (0 : Int)
      else boxMargin env fb - bandWidth env fb).toNat = outerWidth env fb := by
    split <;> omega
  have hboxDef : effectiveMarginFor env fb env.margin = boxMargin env fb := rfl
  have hbandDef : (if env.marginGradient > boxMargin env fb then boxMargin env fb else env.marginGradient) =
      bandWidth env fb := rfl
  have hexternal := externalSwatches_inside hfits
  have hmargin := marginSwatches_inside hfits
  have hinternal := inset_inside hfits
  rw [inset] at hinternal
  simp only [externalSwatches, marginSwatches, List.forall_mem_cons, List.not_mem_nil, false_implies, implies_true,
    and_true] at hexternal hmargin
  obtain ⟨he₁, he₂, he₃, he₄⟩ := hexternal
  obtain ⟨hm₁, hm₂, hm₃, hm₄⟩ := hmargin
  unfold drawCanvas
  dsimp only
  simp only [hboxDef, hbandDef, hnoGradient, hsubX _ (Nat.le_refl _), hsubY _ (Nat.le_refl _),
    hsubX (outerWidth env fb) (by omega), hsubY (outerWidth env fb) (by omega)]
  rw [hloop he₁, ok_bind, hloop he₂, ok_bind, hloop he₃, ok_bind, hloop he₄, ok_bind]
  unfold layout
  by_cases hzero : bandWidth env fb = 0
  · rw [if_neg (not_not.mpr hzero), if_neg (not_not.mpr hzero)]
    show genloop _ _ _ _ _ _ _ _ _ _ = _
    rw [hloop hinternal]
    simp [externalSwatches, inset]
  · rw [if_pos hzero, if_pos hzero, hloop hm₁, ok_bind, hloop hm₂, ok_bind, hloop hm₃, ok_bind, hloop hm₄, ok_bind,
      hloop hinternal]
    simp [externalSwatches, marginSwatches, inset]

/-! Every pixel is in one of the rectangles. -/

section Count
variable {x y : Nat}

theorem countP_external (hx : x < fb.framebufferWidth) (hy : y < fb.framebufferHeight) (outer : Nat)
    (hX : 2 * outer ≤ fb.framebufferWidth) (hY : 2 * outer ≤ fb.framebufferHeight) :
    (externalSwatches fb outer).countP (fun p => p.Contains x y) = if (inset fb outer).Contains x y then 0 else 1 := by
  simp only [externalSwatches, inset, List.countP_cons, List.countP_nil, Swatch.Contains]
  grind

theorem countP_margin {outer box : Nat} (hle : outer ≤ box) (hX : 2 * box ≤ fb.framebufferWidth)
    (hY : 2 * box ≤ fb.framebufferHeight) : (marginSwatches fb outer box).countP (fun p => p.Contains x y) =
      if (inset fb outer).Contains x y ∧ ¬ (inset fb box).Contains x y then 1 else 0 := by
  simp only [marginSwatches, inset, List.countP_cons, List.countP_nil, Swatch.Contains]
  grind

theorem countP_ring (hfits : Fits env fb) :
    (if bandWidth env fb ≠ 0 then marginSwatches fb (outerWidth env fb) (boxMargin env fb) else []).countP
        (fun p => p.Contains x y) =
      if (inset fb (outerWidth env fb)).Contains x y ∧ ¬ (inset fb (boxMargin env fb)).Contains x y then 1 else 0 := by
  obtain ⟨hboxX, hboxY⟩ := boxMargin_le hfits
  by_cases hzero : bandWidth env fb = 0
  · have houter : outerWidth env fb = boxMargin env fb := by
      unfold outerWidth
      omega
    rw [if_neg (not_not.mpr hzero), houter, if_neg (fun h => h.2 h.1), List.countP_nil]
  · have hle : outerWidth env fb ≤ boxMargin env fb := Nat.sub_le _ _
    rw [if_pos hzero, countP_margin hle hboxX hboxY]

theorem layout_swatches (env : Env) (fb : FbInfo) : (layout env fb).map Prod.fst =
    externalSwatches fb (outerWidth env fb) ++
      ((if bandWidth env fb ≠ 0 then marginSwatches fb (outerWidth env fb) (boxMargin env fb) else []) ++
        [inset fb (boxMargin env fb)]) := by
  simp only [layout, List.map_append, List.map_map, List.map_cons, List.map_nil, Function.comp_def, List.map_id']

/-- The rectangles that are drawn cut the canvas. -/
theorem layout_cut (hfits : Fits env fb) :
    Swatch.Cut ((layout env fb).map Prod.fst) fb.framebufferWidth fb.framebufferHeight where
  inside := by
    rw [layout_swatches]
    intro p hp
    rcases List.mem_append.mp hp with hp | hp
    · exact externalSwatches_inside hfits p hp
    · rcases List.mem_append.mp hp with hp | hp
      · split at hp
        · exact marginSwatches_inside hfits p hp
        · cases hp
      · rw [List.mem_singleton.mp hp]
        exact inset_inside hfits
  once := by
    intro x y hx hy
    obtain ⟨hboxX, hboxY⟩ := boxMargin_le hfits
    have houter : outerWidth env fb ≤ boxMargin env fb := Nat.sub_le _ _
    rw [layout_swatches, List.countP_append, List.countP_append, countP_external hx hy _ (by omega) (by omega),
      countP_ring hfits, List.countP_singleton]
    simp only [inset, Swatch.Contains]
    grind

end Count

end Layout

/-! ## The gradient -/

/-- How far a number is from those between `lo` and `hi`. -/
def axisDistance (lo hi x : Nat) : Nat := lo - x + (x - hi)

/-- The square of the distance from the upper left corner of a pixel to the text box. -/
def boxDistanceSq (env : Env) (fb : FbInfo) (x y : Nat) : Nat :=
  axisDistance (boxMargin env fb) (fb.framebufferWidth - boxMargin env fb) x ^ 2 +
    axisDistance (boxMargin env fb) (fb.framebufferHeight - boxMargin env fb) y ^ 2

/-- The distance in whole pixels. -/
def boxDistance (env : Env) (fb : FbInfo) (x y : Nat) : Nat := Nat.sqrt (boxDistanceSq env fb x y)

/-- The alpha at this distance from the box. -/
def bandAlpha (env : Env) (fb : FbInfo) (distance : Nat) : Nat :=
  (A env.defaultBg).toNat + (255 - (A env.defaultBg).toNat) / bandWidth env fb * distance

def withAlpha (colour : UInt32) (alpha : Nat) : UInt32 := colour &&& (0xffffff : UInt32) ||| UInt32.ofNat alpha <<< 24

section Gradient
variable {env : Env} {fb : FbInfo} {x y x' y' : Nat}

theorem boxDistance_mono (h : boxDistanceSq env fb x y ≤ boxDistanceSq env fb x' y') :
    boxDistance env fb x y ≤ boxDistance env fb x' y' := Nat.sqrt_le_sqrt h

theorem bandAlpha_mono {d d' : Nat} (h : d ≤ d') : bandAlpha env fb d ≤ bandAlpha env fb d' :=
  Nat.add_le_add_left (Nat.mul_le_mul_left _ h) _

/-- The alpha does not wrap. -/
theorem bandAlpha_le {d : Nat} (h : d ≤ bandWidth env fb) : bandAlpha env fb d ≤ 255 := by
  have halpha := (A env.defaultBg).toNat_lt
  have hstep : (255 - (A env.defaultBg).toNat) / bandWidth env fb * d ≤ 255 - (A env.defaultBg).toNat :=
    Nat.le_trans (Nat.mul_le_mul_left _ h) (Nat.div_mul_le_self _ _)
  unfold bandAlpha
  omega

/-- `x_distance` and `y_distance`, where they are used. -/
theorem distance_eq {lo n : Nat} (hn : n < 2 ^ env.sizeBits) (hlo : 2 * lo ≤ n) (hx : x < n)
    (hout : ¬ (x ≥ lo ∧ x < n - lo)) :
    (if x < lo then env.sub lo x else env.sub x (n - lo)) = axisDistance lo (n - lo) x := by
  unfold axisDistance
  split
  · rw [Env.sub_of_le (by omega) (by omega)]
    omega
  · rw [Env.sub_of_le (by omega) (by omega)]
    omega

theorem axisDistance_le {lo n : Nat} (hx : x < n) (hlo : 2 * lo ≤ n) : axisDistance lo (n - lo) x ≤ lo := by
  unfold axisDistance
  omega

/-- The square of a distance is no larger than the canvas. -/
theorem boxDistanceSq_lt (hfits : Fits env fb) (hx : x < fb.framebufferWidth) (hy : y < fb.framebufferHeight) :
    boxDistanceSq env fb x y < 2 ^ env.sizeBits := by
  obtain ⟨hboxX, hboxY⟩ := boxMargin_le hfits
  have hlt := hfits.canvas_lt
  have hsqX := Nat.pow_le_pow_left (axisDistance_le hx hboxX) 2
  have hsqY := Nat.pow_le_pow_left (axisDistance_le hy hboxY) 2
  have hbox : 4 * boxMargin env fb ^ 2 ≤ fb.framebufferWidth * fb.framebufferHeight := by
    calc
      4 * boxMargin env fb ^ 2 = 2 * boxMargin env fb * (2 * boxMargin env fb) := by ring
      _ ≤ fb.framebufferWidth * fb.framebufferHeight := Nat.mul_le_mul hboxX hboxY
  unfold boxDistanceSq
  omega

theorem axisDistance_of_mem {lo hi : Nat} (h : x ≥ lo ∧ x < hi) : axisDistance lo hi x = 0 := by
  unfold axisDistance
  omega

/-- `distance`, from `x_distance` and `y_distance` where these mean something. -/
theorem boxDistance_eq (hfits : Fits env fb) (hx : x < fb.framebufferWidth) (hy : y < fb.framebufferHeight)
    (hout : ¬ (inset fb (boxMargin env fb)).Contains x y) {xDistance yDistance : Nat}
    (hxDistance : ¬ (x ≥ boxMargin env fb ∧ x < fb.framebufferWidth - boxMargin env fb) →
      xDistance = axisDistance (boxMargin env fb) (fb.framebufferWidth - boxMargin env fb) x)
    (hyDistance : ¬ (y ≥ boxMargin env fb ∧ y < fb.framebufferHeight - boxMargin env fb) →
      yDistance = axisDistance (boxMargin env fb) (fb.framebufferHeight - boxMargin env fb) y) :
    (if x ≥ boxMargin env fb ∧ x < fb.framebufferWidth - boxMargin env fb then yDistance
      else if y ≥ boxMargin env fb ∧ y < fb.framebufferHeight - boxMargin env fb then xDistance
      else env.size (sqrt ((xDistance * xDistance % 2 ^ 64 + yDistance * yDistance % 2 ^ 64) % 2 ^ 64))) =
        boxDistance env fb x y := by
  by_cases hcolumn : x ≥ boxMargin env fb ∧ x < fb.framebufferWidth - boxMargin env fb
  · have hrow : ¬ (y ≥ boxMargin env fb ∧ y < fb.framebufferHeight - boxMargin env fb) :=
      fun hrow => hout ⟨hcolumn.1, hcolumn.2, hrow.1, hrow.2⟩
    rw [if_pos hcolumn, hyDistance hrow, boxDistance, boxDistanceSq, axisDistance_of_mem hcolumn, Nat.zero_pow (by decide),
      Nat.zero_add, Nat.sqrt_eq']
  · rw [if_neg hcolumn]
    by_cases hrow : y ≥ boxMargin env fb ∧ y < fb.framebufferHeight - boxMargin env fb
    · rw [if_pos hrow, hxDistance hcolumn, boxDistance, boxDistanceSq, axisDistance_of_mem hrow,
        Nat.zero_pow (by decide), Nat.add_zero, Nat.sqrt_eq']
    · have hlt := boxDistanceSq_lt hfits hx hy
      have hlt64 := Nat.lt_of_lt_of_le hlt (Nat.pow_le_pow_right (by decide) env.sizeBits_le)
      have hsum : xDistance * xDistance + yDistance * yDistance = boxDistanceSq env fb x y := by
        rw [hxDistance hcolumn, hyDistance hrow, boxDistanceSq, Nat.pow_two, Nat.pow_two]
      rw [if_neg hrow, ← Nat.add_mod, hsum, Nat.mod_eq_of_lt hlt64, sqrt_eq hlt64,
        Env.size_of_lt (Nat.lt_of_le_of_lt (Nat.sqrt_le_self _) hlt)]
      rfl

theorem blendGradientFromBox_eq (hfits : Fits env fb) (hx : x < fb.framebufferWidth) (hy : y < fb.framebufferHeight)
    (hout : ¬ (inset fb (boxMargin env fb)).Contains x y) (bgPx : UInt32) :
    blendGradientFromBox env fb x y bgPx env.defaultBg =
      if boxDistance env fb x y > bandWidth env fb then bgPx
      else colourBlend (withAlpha env.defaultBg (bandAlpha env fb (boxDistance env fb x y))) bgPx := by
  obtain ⟨hboxX, hboxY⟩ := boxMargin_le hfits
  have hsubX : env.sub fb.framebufferWidth (boxMargin env fb) = fb.framebufferWidth - boxMargin env fb :=
    Env.sub_of_le hfits.width_lt (by omega)
  have hsubY : env.sub fb.framebufferHeight (boxMargin env fb) = fb.framebufferHeight - boxMargin env fb :=
    Env.sub_of_le hfits.height_lt (by omega)
  have hboxDef : effectiveMarginFor env fb env.margin = boxMargin env fb := rfl
  have hbandDef : (if env.marginGradient > boxMargin env fb then boxMargin env fb else env.marginGradient) =
      bandWidth env fb := rfl
  have hdistance := boxDistance_eq hfits hx hy hout (distance_eq hfits.width_lt hboxX hx)
    (distance_eq hfits.height_lt hboxY hy)
  unfold blendGradientFromBox
  dsimp only
  simp only [hboxDef, hbandDef, hsubX, hsubY, hdistance]
  split
  · rfl
  · next hnear =>
    have halpha := bandAlpha_le (Nat.le_of_not_lt hnear)
    have hstep : (0xff - (A env.defaultBg).toNat) / bandWidth env fb < 256 :=
      Nat.lt_of_le_of_lt (Nat.div_le_self _ _) (by omega)
    unfold bandAlpha at halpha ⊢
    rw [Nat.mod_eq_of_lt hstep, Nat.mod_eq_of_lt (by omega)]
    rfl

end Gradient

/-! ## The canvas -/

/-- What a canvas shows; the band is what is between the text box and the outer part. -/
structure Painted (env : Env) (image : Image) (fb : FbInfo) (canvas : Puts) : Prop where
  once : (canvas.map Prod.fst).Perm (List.range (fb.framebufferWidth * fb.framebufferHeight))
  outer : ∀ x y, x < fb.framebufferWidth → y < fb.framebufferHeight →
    ¬ (inset fb (outerWidth env fb)).Contains x y → (fb.framebufferWidth * y + x, source env image fb x y) ∈ canvas
  box : ∀ x y, (inset fb (boxMargin env fb)).Contains x y →
    (fb.framebufferWidth * y + x, colourBlend env.defaultBg (source env image fb x y)) ∈ canvas
  band : ∀ x y, (inset fb (outerWidth env fb)).Contains x y → ¬ (inset fb (boxMargin env fb)).Contains x y →
    boxDistance env fb x y ≤ bandWidth env fb →
      (fb.framebufferWidth * y + x,
        colourBlend (withAlpha env.defaultBg (bandAlpha env fb (boxDistance env fb x y))) (source env image fb x y)) ∈ canvas
  corner : ∀ x y, (inset fb (outerWidth env fb)).Contains x y → ¬ (inset fb (boxMargin env fb)).Contains x y →
    bandWidth env fb < boxDistance env fb x y → (fb.framebufferWidth * y + x, source env image fb x y) ∈ canvas

section Canvas
variable {env : Env} {image : Image} {fb : FbInfo} {x y : Nat}

/-- A pixel of a rectangle is drawn the way the rectangle is. -/
theorem mem_layoutPuts (image : Image) {p : Swatch} {blend : Blend} (hmem : (p, blend) ∈ layout env fb) (hin : p.Contains x y) :
    (fb.framebufferWidth * y + x, blend x y (source env image fb x y)) ∈
      (layout env fb).flatMap (swatchPuts env image fb) :=
  List.mem_flatMap.mpr ⟨_, hmem, Swatch.mem_visit.mpr ⟨x, y, hin, rfl⟩⟩

theorem lt_of_inset {far : Nat} (h : (inset fb far).Contains x y) :
    x < fb.framebufferWidth ∧ y < fb.framebufferHeight :=
  ⟨Nat.lt_of_lt_of_le h.2.1 (Nat.sub_le _ _), Nat.lt_of_lt_of_le h.2.2.2 (Nat.sub_le _ _)⟩

theorem exists_external (hfits : Fits env fb) (hx : x < fb.framebufferWidth) (hy : y < fb.framebufferHeight)
    (hout : ¬ (inset fb (outerWidth env fb)).Contains x y) :
    ∃ p : Swatch, (p, blendExternal) ∈ layout env fb ∧ p.Contains x y := by
  obtain ⟨hboxX, hboxY⟩ := boxMargin_le hfits
  have houter : outerWidth env fb ≤ boxMargin env fb := Nat.sub_le _ _
  have hcount := countP_external hx hy (outerWidth env fb) (by omega) (by omega)
  rw [if_neg hout] at hcount
  obtain ⟨p, hp, hin⟩ := List.countP_pos_iff.mp (Nat.lt_of_lt_of_eq Nat.zero_lt_one hcount.symm)
  exact ⟨p, List.mem_append_left _ (List.mem_map_of_mem hp), of_decide_eq_true hin⟩

theorem exists_margin (hfits : Fits env fb) (hin : (inset fb (outerWidth env fb)).Contains x y)
    (hout : ¬ (inset fb (boxMargin env fb)).Contains x y) :
    ∃ p : Swatch, (p, blendMargin env fb) ∈ layout env fb ∧ p.Contains x y := by
  have hcount := countP_ring (x := x) (y := y) hfits
  have hring : (inset fb (outerWidth env fb)).Contains x y ∧ ¬ (inset fb (boxMargin env fb)).Contains x y := ⟨hin, hout⟩
  rw [if_pos hring] at hcount
  obtain ⟨p, hp, hin⟩ := List.countP_pos_iff.mp (Nat.lt_of_lt_of_eq Nat.zero_lt_one hcount.symm)
  exact ⟨p, List.mem_append_right _ (List.mem_append_left _ (List.mem_map_of_mem hp)), of_decide_eq_true hin⟩

theorem layoutPuts_painted (hfits : Fits env fb) :
    Painted env image fb ((layout env fb).flatMap (swatchPuts env image fb)) where
  once := by
    have hvisits : ((layout env fb).flatMap (swatchPuts env image fb)).map Prod.fst =
        ((layout env fb).map Prod.fst).flatMap fun p => p.visit fun x y => fb.framebufferWidth * y + x := by
      rw [List.map_flatMap, List.flatMap_map]
      exact List.flatMap_congr fun q _ => Swatch.map_visit _
    rw [hvisits]
    exact (layout_cut hfits).visits_perm
  outer := by
    intro x y hx hy hout
    obtain ⟨p, hp, hin⟩ := exists_external hfits hx hy hout
    exact mem_layoutPuts image hp hin
  box := by
    intro x y hin
    have hmem : (inset fb (boxMargin env fb), blendInternal env) ∈ layout env fb :=
      List.mem_append_right _ (List.mem_append_right _ List.mem_cons_self)
    exact mem_layoutPuts image hmem hin
  band := by
    intro x y hin hout hnear
    obtain ⟨p, hp, hcell⟩ := exists_margin hfits hin hout
    have hput := mem_layoutPuts image hp hcell
    rw [blendMargin, blendGradientFromBox_eq hfits (lt_of_inset hin).1 (lt_of_inset hin).2 hout, if_neg (Nat.not_lt.mpr hnear)] at hput
    exact hput
  corner := by
    intro x y hin hout hfar
    obtain ⟨p, hp, hcell⟩ := exists_margin hfits hin hout
    have hput := mem_layoutPuts image hp hcell
    rw [blendMargin, blendGradientFromBox_eq hfits (lt_of_inset hin).1 (lt_of_inset hin).2 hout, if_pos hfar] at hput
    exact hput

theorem generateCanvas_paints (hfits : Fits env fb) (h : image.Opened env) :
    ∃ canvas, generateCanvas env (some image) fb = .ok (some canvas) ∧ Painted env image fb canvas ∧
      (∀ d, d ≤ bandWidth env fb → bandAlpha env fb d ≤ 255) ∧
      ∀ x y x' y', boxDistanceSq env fb x y ≤ boxDistanceSq env fb x' y' →
        bandAlpha env fb (boxDistance env fb x y) ≤ bandAlpha env fb (boxDistance env fb x' y') := by
  refine ⟨_, ?_, layoutPuts_painted hfits, fun _ => bandAlpha_le, fun _ _ _ _ h => bandAlpha_mono (boxDistance_mono h)⟩
  have hlt := hfits.canvas_lt
  have hlt64 := Nat.lt_of_lt_of_le hlt (Nat.pow_le_pow_right (by decide) env.sizeBits_le)
  unfold generateCanvas
  dsimp only
  rw [if_neg (by omega), Env.size_of_lt (by omega), if_neg (by omega), drawCanvas_eq hfits h]
  rfl

/-- A framebuffer of 8 by 8 pixels with a margin and a gradient of 3, and an image of one pixel. -/
theorem generateCanvas_paints_small : ∃ canvas,
    generateCanvas ⟨64, by decide, 3, 3, 0x80000000⟩ (some (imageOpen 1 1 fun _ => 0x123456)) ⟨8, 8⟩ = .ok (some canvas) ∧
      Painted ⟨64, by decide, 3, 3, 0x80000000⟩ (imageOpen 1 1 fun _ => 0x123456) ⟨8, 8⟩ canvas := by
  have hfits : Fits ⟨64, by decide, 3, 3, 0x80000000⟩ ⟨8, 8⟩ := ⟨by decide, by decide, by decide⟩
  have hopened : (imageOpen 1 1 fun _ => 0x123456).Opened ⟨64, by decide, 3, 3, 0x80000000⟩ :=
    .imageOpen (by decide) (by decide) (by decide) _
  obtain ⟨canvas, hrun, hpainted, -⟩ := generateCanvas_paints hfits hopened
  exact ⟨canvas, hrun, hpainted⟩

end Canvas

/-- Where the bytes of the canvas cannot be counted there is none. -/
theorem generateCanvas_panics {env : Env} (image : Image) {fb : FbInfo} (hbits : env.sizeBits = 64)
    (hlarge : 2 ^ 64 ≤ fb.framebufferWidth * fb.framebufferHeight * 4) :
    generateCanvas env (some image) fb = .error (.panic "gterm: canvas size overflow") := by
  unfold generateCanvas
  dsimp only
  by_cases hproduct : fb.framebufferWidth * fb.framebufferHeight ≥ 2 ^ 64
  · rw [if_pos hproduct]
    rfl
  · have hsize : env.size (fb.framebufferWidth * fb.framebufferHeight) = fb.framebufferWidth * fb.framebufferHeight := by
      rw [Env.size_of_lt]
      rw [hbits]
      omega
    rw [if_neg hproduct, hsize, hbits, if_pos hlarge]
    rfl

/-! ## Pixels of the band that are not blended -/

theorem channel_lt (c : UInt32) {k : Nat} (hk : k ≤ 16) : ((c &&& 0xFF) <<< UInt32.ofNat k).toNat < 2 ^ 24 := by
  have hc : (c &&& 0xFF).toNat ≤ 255 := by
    rw [UInt32.toNat_and]
    exact Nat.and_le_right
  have hmod : (UInt32.ofNat k).toNat % 32 = k := by
    rw [UInt32.toNat_ofNat']
    omega
  have hpow : 2 ^ k ≤ 2 ^ 16 := Nat.pow_le_pow_right (by decide) hk
  rw [UInt32.toNat_shiftLeft, hmod, Nat.shiftLeft_eq]
  calc
    (c &&& 0xFF).toNat * 2 ^ k % 2 ^ 32 ≤ (c &&& 0xFF).toNat * 2 ^ k := Nat.mod_le _ _
    _ ≤ 255 * 2 ^ 16 := Nat.mul_le_mul hc hpow
    _ < 2 ^ 24 := by decide

theorem A_ARGB (r g b : UInt32) : A (ARGB 0 r g b) = 0 := by
  have hr := channel_lt r (k := 16) (by decide)
  have hg := channel_lt g (k := 8) (by decide)
  have hb := channel_lt b (k := 0) (by decide)
  have hlt : (ARGB 0 r g b).toNat < 2 ^ 24 := by
    unfold ARGB
    rw [UInt32.toNat_or, UInt32.toNat_or, UInt32.toNat_or]
    refine Nat.or_lt_two_pow (Nat.or_lt_two_pow (Nat.or_lt_two_pow (by decide) hr) hg) ?_
    simpa using hb
  unfold A
  apply UInt8.toNat_inj.mp
  rw [UInt32.toNat_toUInt8, UInt32.toNat_shiftRight, Nat.shiftRight_eq_div_pow]
  show (ARGB 0 r g b).toNat / 2 ^ 24 % 256 = 0
  rw [Nat.div_eq_of_lt hlt]

theorem A_colourBlend (fg bg : UInt32) : A (colourBlend fg bg) = 0 := A_ARGB _ _ _

/-- A backdrop shows in a corner of the band as it is, with a byte at its top that no blended colour has. -/
theorem generateCanvas_corner :
    (inset ⟨8, 8⟩ (outerWidth ⟨64, by decide, 3, 3, 0x80000000⟩ ⟨8, 8⟩)).Contains 0 0 ∧
      ¬ (inset ⟨8, 8⟩ (boxMargin ⟨64, by decide, 3, 3, 0x80000000⟩ ⟨8, 8⟩)).Contains 0 0 ∧
      (generateCanvas ⟨64, by decide, 3, 3, 0x80000000⟩
        (some (imageMakeCentered (imageOpen 1 1 fun _ => 0) 8 8 0xff112233)) ⟨8, 8⟩).map
          (fun canvas => canvas.map fun puts => decide ((0, 0xff112233) ∈ puts)) = .ok (some true) ∧
      (∀ alpha image, colourBlend (withAlpha 0x80000000 alpha) image ≠ 0xff112233) ∧
      generateCanvas ⟨64, by decide, 3, 3, 0x80000000⟩ (some (imageOpen 1 1 fun _ => 0)) ⟨2 ^ 32, 2 ^ 32⟩ =
        .error (.panic "gterm: canvas size overflow") := by
  refine ⟨by decide, by decide, by decide, fun alpha image heq => ?_,
    generateCanvas_panics _ rfl (by decide)⟩
  have hA := A_colourBlend (withAlpha 0x80000000 alpha) image
  rw [heq] at hA
  exact absurd hA (by decide)

end Limine.Gterm
