import Mathlib.Algebra.Group.Nat.Defs

/-!
# The background of the terminal

`generate_canvas` of `gterm.c` with what it calls.  The canvas is the list of its writes, the last one at the end; a
read outside the image and a write outside the canvas are outcomes of their own.
-/

namespace Limine.Gterm

/-! ## Colours -/

def A (rgb : UInt32) : UInt8 := (rgb >>> 24).toUInt8
def R (rgb : UInt32) : UInt8 := (rgb >>> 16).toUInt8
def G (rgb : UInt32) : UInt8 := (rgb >>> 8).toUInt8
def B (rgb : UInt32) : UInt8 := rgb.toUInt8

def ARGB (a r g b : UInt32) : UInt32 := a <<< 24 ||| (r &&& 0xFF) <<< 16 ||| (g &&& 0xFF) <<< 8 ||| b &&& 0xFF

def colourBlend (fg bg : UInt32) : UInt32 :=
  let alpha : UInt32 := 255 - (A fg).toUInt32
  let invAlpha : UInt32 := (A fg).toUInt32 + 1
  let r := ((alpha * (R fg).toUInt32 + invAlpha * (R bg).toUInt32) / 256).toUInt8
  let g := ((alpha * (G fg).toUInt32 + invAlpha * (G bg).toUInt32) / 256).toUInt8
  let b := ((alpha * (B fg).toUInt32 + invAlpha * (B bg).toUInt32) / 256).toUInt8
  ARGB 0 r.toUInt32 g.toUInt32 b.toUInt32

/-! ## The image and the globals -/

inductive Fault
  | panic (message : String)
  | canvas (index : Nat)
  | image (offset : Nat)
deriving DecidableEq, Repr

/-- What is read of `struct fb_info`. -/
structure FbInfo where
  framebufferWidth : Nat
  framebufferHeight : Nat

inductive ImageType
  | tiled
  | centered
  | stretched
deriving DecidableEq, Repr

/-- `struct image`; `img` has the word at each offset into the pixels. -/
structure Image where
  type : ImageType
  xSize : Nat
  ySize : Nat
  img : Nat → UInt32
  bpp : Nat
  pitch : Nat
  imgWidth : Nat
  imgHeight : Nat
  xDisplacement : Int
  yDisplacement : Int
  backColour : UInt32

/-- The end of `image_open`, on the `x` by `y` pixels of a decoder. -/
def imageOpen (x y : Nat) (img : Nat → UInt32) : Image :=
  { type := .tiled, xSize := x, ySize := y, img := img, bpp := 32, pitch := x * 4, imgWidth := x, imgHeight := y,
    xDisplacement := 0, yDisplacement := 0, backColour := 0 }

def imageMakeCentered (image : Image) (frameXSize frameYSize : Int) (backColour : UInt32) : Image :=
  { image with
    type := .centered
    xDisplacement := frameXSize.tdiv 2 - (image.xSize : Int).tdiv 2
    yDisplacement := frameYSize.tdiv 2 - (image.ySize : Int).tdiv 2
    backColour := backColour }

def imageMakeStretched (image : Image) (newXSize newYSize : Nat) : Image :=
  { image with type := .stretched, xSize := newXSize, ySize := newYSize }

/-- Four bytes of the pixels. -/
def Image.read (image : Image) (off : Nat) : Except Fault UInt32 :=
  if off + 4 ≤ image.imgWidth * image.imgHeight * 4 then .ok (image.img off) else .error (.image off)

/-- The globals, and the width of `size_t`. -/
structure Env where
  sizeBits : Nat
  sizeBits_le : sizeBits ≤ 64
  margin : Nat
  marginGradient : Nat
  defaultBg : UInt32

/-- A number as a `size_t`. -/
def Env.size (env : Env) (n : Nat) : Nat := n % 2 ^ env.sizeBits

/-- `a - b` on `size_t`. -/
def Env.sub (env : Env) (a b : Nat) : Nat := env.size (a + (2 ^ env.sizeBits - b))

/-! ## The gradient -/

/-- The first loop of `sqrt`. -/
def sqrtStart (op : Nat) : Nat → Nat → Nat
  | 0, one => one
  | fuel + 1, one => if one > op then sqrtStart op fuel (one / 4) else one

/-- The second loop. -/
def sqrtLoop : Nat → Nat → Nat → Nat → Nat
  | 0, _, res, _ => res
  | fuel + 1, op, res, one =>
    if one = 0 then res
    else if op ≥ res + one then sqrtLoop fuel (op - (res + one)) ((res + 2 * one) / 2) (one / 4)
    else sqrtLoop fuel op (res / 2) (one / 4)

/-- `sqrt` of `misc.c`. -/
def sqrt (nInput : Nat) : Nat := sqrtLoop 32 nInput 0 (sqrtStart nInput 32 (2 ^ 62))

def effectiveMarginFor (env : Env) (fb : FbInfo) (m : Nat) : Nat :=
  let maxMargin := env.size (fb.framebufferWidth / 2)
  let maxMargin := if fb.framebufferHeight / 2 < maxMargin then env.size (fb.framebufferHeight / 2) else maxMargin
  if m > maxMargin then maxMargin else m

def blendGradientFromBox (env : Env) (fb : FbInfo) (x y : Nat) (bgPx hex : UInt32) : UInt32 :=
  let effectiveMargin := effectiveMarginFor env fb env.margin
  let effectiveMarginGradient := if env.marginGradient > effectiveMargin then effectiveMargin else env.marginGradient
  let gradientStopX := env.sub fb.framebufferWidth effectiveMargin
  let gradientStopY := env.sub fb.framebufferHeight effectiveMargin
  let xDistance := if x < effectiveMargin then env.sub effectiveMargin x else env.sub x gradientStopX
  let yDistance := if y < effectiveMargin then env.sub effectiveMargin y else env.sub y gradientStopY
  let distance :=
    if x ≥ effectiveMargin ∧ x < gradientStopX then yDistance
    else if y ≥ effectiveMargin ∧ y < gradientStopY then xDistance
    else env.size (sqrt ((xDistance * xDistance % 2 ^ 64 + yDistance * yDistance % 2 ^ 64) % 2 ^ 64))
  if distance > effectiveMarginGradient then bgPx
  else
    let gradientStep := (0xff - (A hex).toNat) / effectiveMarginGradient % 256
    let newAlpha := ((A hex).toNat + gradientStep * distance) % 256
    colourBlend (hex &&& (0xffffff : UInt32) ||| UInt32.ofNat newAlpha <<< 24) bgPx

/-! ## Drawing a rectangle -/

/-- The writes to the canvas: an index and a colour. -/
abbrev Puts := List (Nat × UInt32)

/-- A write to a canvas of `size` bytes. -/
def put (size index : Nat) (colour : UInt32) (canvas : Puts) : Except Fault Puts :=
  if index * 4 + 4 ≤ size then .ok (canvas ++ [(index, colour)]) else .error (.canvas index)

/-- `blend` of `genloop`, by place. -/
abbrev Blend := Nat → Nat → UInt32 → UInt32

/-- `n` turns of the loop over `x`; `step` has the colour of the image and moves what the loop keeps of its place. -/
def rowLoop {σ : Type} (env : Env) (size : Nat) (step : Nat → σ → Except Fault (UInt32 × σ))
    (blend : Nat → UInt32 → UInt32) (canvasOff : Nat) : Nat → Nat → σ → Puts → Except Fault Puts
  | 0, _, _, canvas => .ok canvas
  | n + 1, x, place, canvas => do
    let (imgPixel, place) ← step x place
    let canvas ← put size (env.size (canvasOff + x)) (blend x imgPixel) canvas
    rowLoop env size step blend canvasOff n (x + 1) place canvas

/-- `n` turns of the loop over `y`. -/
def loopRows (row : Nat → Puts → Except Fault Puts) : Nat → Nat → Puts → Except Fault Puts
  | 0, _, canvas => .ok canvas
  | n + 1, y, canvas => do
    let canvas ← row y canvas
    loopRows row n (y + 1) canvas

section Rows
variable (env : Env) (image : Image) (fb : FbInfo) (size : Nat) (blend : Blend) (xstart xend y : Nat)

def tiledRow (canvas : Puts) : Except Fault Puts :=
  let off := env.size (image.pitch * (y % image.imgHeight))
  let canvasOff := env.size (fb.framebufferWidth * y)
  rowLoop env size (fun _ imageX => do
      let imgPixel ← image.read (env.size (imageX * (image.bpp / 8) + off))
      return (imgPixel, if imageX + 1 = image.imgWidth then 0 else imageX + 1))
    (fun x => blend x y) canvasOff (xend - xstart) xstart (xstart % image.imgWidth) canvas

def centeredRow (canvas : Puts) : Except Fault Puts :=
  let imageY : Int := y - image.yDisplacement
  let canvasOff := env.size (fb.framebufferWidth * y)
  if imageY < 0 ∨ imageY ≥ image.ySize then
    -- external part
    rowLoop env size (fun _ _ => return (image.backColour, ())) (fun x => blend x y) canvasOff (xend - xstart) xstart ()
      canvas
  else
    -- internal part
    let off := env.size (image.pitch * imageY.toNat)
    rowLoop env size (fun x _ => do
        let imageX : Int := x - image.xDisplacement
        if imageX < 0 ∨ imageX ≥ image.xSize then return (image.backColour, ())
        else
          let pixel ← image.read (env.size (imageX.toNat * (image.bpp / 8) + off))
          return (pixel, ()))
      (fun x => blend x y) canvasOff (xend - xstart) xstart () canvas

/-- The last 6 bits of `imgX` are the fixed point part. -/
def stretchedRow (canvas : Puts) : Except Fault Puts :=
  let imgY := env.size (y * image.imgHeight) / fb.framebufferHeight
  let off := env.size (image.pitch * imgY)
  let canvasOff := env.size (fb.framebufferWidth * y)
  let ratio := env.size (image.imgWidth * 64) / fb.framebufferWidth
  rowLoop env size (fun _ imgX => do
      let imgPixel ← image.read (env.size (imgX / 64 * (image.bpp / 8) + off))
      return (imgPixel, env.size (imgX + ratio)))
    (fun x => blend x y) canvasOff (xend - xstart) xstart (env.size (ratio * xstart)) canvas

def imageRow (canvas : Puts) : Except Fault Puts :=
  match image.type with
  | .tiled => tiledRow env image fb size blend xstart xend y canvas
  | .centered => centeredRow env image fb size blend xstart xend y canvas
  | .stretched => stretchedRow env image fb size blend xstart xend y canvas

end Rows

def genloop (env : Env) (image : Image) (fb : FbInfo) (size : Nat) (blend : Blend) (xstart xend ystart yend : Nat)
    (canvas : Puts) : Except Fault Puts :=
  let (xstart, xend) := if xstart > xend then (xend, xstart) else (xstart, xend)
  let (ystart, yend) := if ystart > yend then (yend, ystart) else (ystart, yend)
  loopRows (imageRow env image fb size blend xstart xend) (yend - ystart) ystart canvas

def blendExternal : Blend := fun _ _ orig => orig
def blendInternal (env : Env) : Blend := fun _ _ orig => colourBlend env.defaultBg orig
def blendMargin (env : Env) (fb : FbInfo) : Blend := fun x y orig => blendGradientFromBox env fb x y orig env.defaultBg

/-! ## The canvas -/

/-- The part of `generate_canvas` that draws, on a canvas of `size` bytes. -/
def drawCanvas (env : Env) (image : Image) (fb : FbInfo) (size : Nat) : Except Fault Puts := do
  let loopExternal := genloop env image fb size blendExternal
  let loopMargin := genloop env image fb size (blendMargin env fb)
  let loopInternal := genloop env image fb size (blendInternal env)
  let effectiveMargin := effectiveMarginFor env fb env.margin
  let effectiveMarginGradient := if env.marginGradient > effectiveMargin then effectiveMargin else env.marginGradient
  let marginNoGradient : Int := effectiveMargin - effectiveMarginGradient
  let marginNoGradient := (if marginNoGradient < 0 then 0 else marginNoGradient).toNat
  let scanStopX := env.sub fb.framebufferWidth marginNoGradient
  let scanStopY := env.sub fb.framebufferHeight marginNoGradient
  let canvas ← loopExternal 0 fb.framebufferWidth 0 marginNoGradient []
  let canvas ← loopExternal 0 fb.framebufferWidth scanStopY fb.framebufferHeight canvas
  let canvas ← loopExternal 0 marginNoGradient marginNoGradient scanStopY canvas
  let canvas ← loopExternal scanStopX fb.framebufferWidth marginNoGradient scanStopY canvas
  let gradientStopX := env.sub fb.framebufferWidth effectiveMargin
  let gradientStopY := env.sub fb.framebufferHeight effectiveMargin
  let canvas ←
    if effectiveMarginGradient ≠ 0 then do
      let canvas ← loopMargin marginNoGradient scanStopX marginNoGradient effectiveMargin canvas
      let canvas ← loopMargin marginNoGradient scanStopX gradientStopY scanStopY canvas
      let canvas ← loopMargin marginNoGradient effectiveMargin effectiveMargin gradientStopY canvas
      loopMargin gradientStopX scanStopX effectiveMargin gradientStopY canvas
    else pure canvas
  loopInternal effectiveMargin gradientStopX effectiveMargin gradientStopY canvas

/-- `generate_canvas`; without a background there is no canvas. -/
def generateCanvas (env : Env) (background : Option Image) (fb : FbInfo) : Except Fault (Option Puts) := do
  match background with
  | none => return none
  | some image =>
    if fb.framebufferWidth * fb.framebufferHeight ≥ 2 ^ 64 then throw (.panic "gterm: canvas size overflow")
    let bgCanvasSize := env.size (fb.framebufferWidth * fb.framebufferHeight)
    if bgCanvasSize * 4 ≥ 2 ^ env.sizeBits then throw (.panic "gterm: canvas size overflow")
    let canvas ← drawCanvas env image fb (bgCanvasSize * 4)
    return some canvas

end Limine.Gterm
