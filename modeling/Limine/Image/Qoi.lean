import Limine.Lib.ByteMemory
import Limine.Lib.Qoi

/-!
# `common/lib/qoi.c`

`qoi_decode` on a source of any bytes.  A read outside the source and a write outside the pixel
buffer are outcomes of their own, so that the theorems can say that they do not happen.
-/

namespace Limine.Image

open Lib

def QOI_OP_INDEX : UInt8 := 0x00
def QOI_OP_DIFF : UInt8 := 0x40
def QOI_OP_LUMA : UInt8 := 0x80
def QOI_OP_RUN : UInt8 := 0xc0
def QOI_OP_RGB : UInt8 := 0xfe
def QOI_OP_RGBA : UInt8 := 0xff
def QOI_OP_MASK : UInt8 := 0xc0
def QOI_HEADER_SIZE : Nat := 14
def QOI_PADDING_SIZE : Nat := 8
def QOI_MAX_DIM : Nat := 65536
def QOI_MAX_PIXELS : Nat := 400000000

def QOI_HASH (r g b a : UInt8) : Nat :=
  (r.toNat * 3 + g.toNat * 5 + b.toNat * 7 + a.toNat * 11) &&& 63

theorem QOI_HASH_lt (r g b a : UInt8) : QOI_HASH r g b a < 64 :=
  Nat.lt_succ_of_le Nat.and_le_right

theorem and_63_lt (op : UInt8) : (op &&& 0x3f).toNat < 64 := by
  rw [UInt8.toNat_and]
  exact Nat.lt_succ_of_le Nat.and_le_right

structure Env where
  /-- width of `size_t` -/
  sizeBits : Nat
  sizeBits_ge : 32 ≤ sizeBits
  /-- whether `ext_mem_alloc` finds that many bytes; it panics otherwise -/
  canAlloc : Nat → Bool

structure Source where
  bytes : ByteMemory
  size : Nat

/-- Why there is no image. -/
inductive Stop
  | null
  | outOfMemory
  | readOutside (i : Nat)
  | writeOutside (i : Nat)
deriving DecidableEq

def Source.read (src : Source) (i : Nat) : Except Stop UInt8 :=
  if i < src.size then .ok (src.bytes i) else .error (.readOutside i)

/-- `CHECKED_ADD` and `CHECKED_MUL` on `size_t`. -/
def Env.checked (env : Env) (n : Nat) : Except Stop Nat :=
  if n < 2 ^ env.sizeBits then .ok n else .error .null

def qoiBe32 (src : Source) (p : Nat) : Except Stop UInt32 := do
  let p0 ← src.read p
  let p1 ← src.read (p + 1)
  let p2 ← src.read (p + 2)
  let p3 ← src.read (p + 3)
  return p0.toUInt32 <<< 24 ||| p1.toUInt32 <<< 16 ||| p2.toUInt32 <<< 8 ||| p3.toUInt32

/-- The pixels of the new buffer, which `ext_mem_alloc` has zeroed. -/
def qoiAllocXrgb (env : Env) (pixels : Nat) : Except Stop (Array UInt32) := do
  let bytes ← env.checked (pixels * 4)
  let total ← env.checked (bytes + 16)
  if env.canAlloc total then return Array.replicate pixels 0 else throw .outOfMemory

/-- The variables that `qoi_decode` keeps from pixel to pixel. -/
structure Decoder where
  index : Vector UInt32 64
  run : Nat
  r : UInt8
  g : UInt8
  b : UInt8
  a : UInt8
  pos : Nat

/-- `x += d`, in `int` and cut back to `uint8_t`. -/
def addInt (x : UInt8) (d : Int) : UInt8 := UInt8.ofInt (x.toNat + d)

def pack (r g b a : UInt8) : UInt32 :=
  r.toUInt32 ||| g.toUInt32 <<< 8 ||| b.toUInt32 <<< 16 ||| a.toUInt32 <<< 24

def xrgb (r g b : UInt8) : UInt32 := r.toUInt32 <<< 16 ||| g.toUInt32 <<< 8 ||| b.toUInt32

/-- The chunk `op`, whose tag stands before `d.pos`. -/
def decodeOp (src : Source) (stop : Nat) (op : UInt8) (d : Decoder) : Except Stop Decoder :=
  if op = QOI_OP_RGB then
    if stop - d.pos < 3 then throw .null
    else do
      let r ← src.read d.pos
      let g ← src.read (d.pos + 1)
      let b ← src.read (d.pos + 2)
      return { d with r := r, g := g, b := b, pos := d.pos + 3 }
  else if op = QOI_OP_RGBA then
    if stop - d.pos < 4 then throw .null
    else do
      let r ← src.read d.pos
      let g ← src.read (d.pos + 1)
      let b ← src.read (d.pos + 2)
      let a ← src.read (d.pos + 3)
      return { d with r := r, g := g, b := b, a := a, pos := d.pos + 4 }
  else if op &&& QOI_OP_MASK = QOI_OP_INDEX then
    let v := d.index.get ⟨(op &&& 0x3f).toNat, and_63_lt op⟩
    return { d with
      r := v.toUInt8, g := (v >>> 8).toUInt8, b := (v >>> 16).toUInt8, a := (v >>> 24).toUInt8 }
  else if op &&& QOI_OP_MASK = QOI_OP_DIFF then
    return { d with
      r := addInt d.r ((op >>> 4 &&& 3).toNat - 2)
      g := addInt d.g ((op >>> 2 &&& 3).toNat - 2)
      b := addInt d.b ((op &&& 3).toNat - 2) }
  else if op &&& QOI_OP_MASK = QOI_OP_LUMA then
    if d.pos ≥ stop then throw .null
    else do
      let b2 ← src.read d.pos
      let dg : Int := (op &&& 0x3f).toNat - 32
      return { d with
        r := addInt d.r (dg + (b2 >>> 4 &&& 0xf).toNat - 8)
        g := addInt d.g dg
        b := addInt d.b (dg + (b2 &&& 0xf).toNat - 8)
        pos := d.pos + 1 }
  else return { d with run := (op &&& 0x3f).toNat }

/-- `index[QOI_HASH(r, g, b, a)] = …` -/
def Decoder.storeIndex (d : Decoder) : Decoder :=
  { d with index := d.index.set (QOI_HASH d.r d.g d.b d.a) (pack d.r d.g d.b d.a)
                      (QOI_HASH_lt d.r d.g d.b d.a) }

/-- What one turn of the loop does before it stores the pixel. -/
def nextPixel (src : Source) (stop : Nat) (d : Decoder) : Except Stop Decoder :=
  if d.run > 0 then return { d with run := d.run - 1 }
  else if d.pos ≥ stop then throw .null
  else do
    let op ← src.read d.pos
    let d ← decodeOp src stop op { d with pos := d.pos + 1 }
    return d.storeIndex

/-- The turns from `px` on, with `n` of them left. -/
def decodeFrom (src : Source) (stop : Nat) : Nat → Nat → Decoder → Array UInt32 →
    Except Stop (Array UInt32)
  | 0, _, _, out => .ok out
  | n + 1, px, d, out => do
    let d ← nextPixel src stop d
    if h : px < out.size then
      decodeFrom src stop n (px + 1) d (out.set px (xrgb d.r d.g d.b))
    else throw (.writeOutside px)

def Decoder.start : Decoder where
  index := Vector.replicate 64 0
  run := 0
  r := 0
  g := 0
  b := 0
  a := 0xff
  pos := QOI_HEADER_SIZE

structure Decoded where
  w : Nat
  h : Nat
  pixels : Array UInt32

/-- The checks of the header: the width and the height. -/
def qoiHeader (env : Env) (src : Source) : Except Stop (Nat × Nat) :=
  if src.size < QOI_HEADER_SIZE + QOI_PADDING_SIZE then throw .null
  else do
    let p0 ← src.read 0
    let p1 ← src.read 1
    let p2 ← src.read 2
    let p3 ← src.read 3
    if p0 ≠ 'q'.toUInt8 ∨ p1 ≠ 'o'.toUInt8 ∨ p2 ≠ 'i'.toUInt8 ∨ p3 ≠ 'f'.toUInt8 then throw .null
    else do
      let w ← qoiBe32 src 4
      let h ← qoiBe32 src 8
      let channels ← src.read 12
      let (w, h) := (w.toNat, h.toNat)
      if w = 0 ∨ h = 0 ∨ w > QOI_MAX_DIM ∨ h > QOI_MAX_DIM then throw .null
      else if channels ≠ 3 ∧ channels ≠ 4 then throw .null
      else do
        let pixels ← env.checked (w * h)
        if pixels > QOI_MAX_PIXELS then throw .null
        else return (w, h)

/-- `qoi_decode`; no source is the null pointer. -/
def qoiDecode (env : Env) : Option Source → Except Stop Decoded
  | none => throw .null
  | some src => do
    let (w, h) ← qoiHeader env src
    let out ← qoiAllocXrgb env (w * h)
    let out ← decodeFrom src (src.size - QOI_PADDING_SIZE) (w * h) 0 Decoder.start out
    return ⟨w, h, out⟩

end Limine.Image
