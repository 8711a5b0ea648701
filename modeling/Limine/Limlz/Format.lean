import Mathlib.Algebra.Group.Nat.Defs
import Mathlib.Data.List.Basic

/-!
# The limlz format

What `tools/limlzpack.c` and `stage1/decompressor.asm` both write down: the layout of the
probability model, the header and the checksum.
-/

namespace Limine.Limlz

def LIMLZ_HEADER_SIZE : Nat := 8
def LIMLZ_IS_REP : Nat := 192
def LIMLZ_REP_G0 : Nat := 204
def LIMLZ_REP_G1 : Nat := 216
def LIMLZ_REP_G2 : Nat := 228
def LIMLZ_REP_LONG : Nat := 240
def LIMLZ_SLOT : Nat := 432
def LIMLZ_SPECIAL : Nat := 688
def LIMLZ_ALIGN : Nat := 802
def LIMLZ_LENGTH : Nat := 818
def LIMLZ_REP_LENGTH : Nat := 1332
def LIMLZ_LITERAL : Nat := 1846

/-- `LIMLZ_PROBS`, which the decompressor computes as `PROBS`. -/
def PROBS : Nat := LIMLZ_LITERAL + 768 * 2 ^ 2

theorem PROBS_eq : PROBS = 4918 := rfl

def crcTable : Array UInt32 := #[
  0x00000000, 0x1db71064, 0x3b6e20c8, 0x26d930ac,
  0x76dc4190, 0x6b6b51f4, 0x4db26158, 0x5005713c,
  0xedb88320, 0xf00f9344, 0xd6d6a3e8, 0xcb61b38c,
  0x9b64c2b0, 0x86d3d2d4, 0xa00ae278, 0xbdbdf21c]

/-- One of the two table steps a byte takes. -/
def crcNibble (crc : UInt32) : UInt32 := (crc >>> 4) ^^^ crcTable[(crc &&& 15).toNat]!

def crcByte (crc : UInt32) (b : UInt8) : UInt32 := crcNibble (crcNibble (crc ^^^ b.toUInt32))

/-- `limlz_crc32`, and the loop at `.crc_byte`. -/
def crc32 (data : List UInt8) : UInt32 := ~~~(data.foldl crcByte 0xffffffff)

/-- `data[i]`. -/
def byteAt (data : List UInt8) (i : Nat) : UInt8 := data.getD i 0

/-- `limlz_read32`, of `data + i`. -/
def read32 (data : List UInt8) (i : Nat) : Nat :=
  (byteAt data i).toNat + (byteAt data (i + 1)).toNat * 2 ^ 8
    + (byteAt data (i + 2)).toNat * 2 ^ 16 + (byteAt data (i + 3)).toNat * 2 ^ 24

/-- The four bytes at `i` replaced by those of `value`. -/
def write32 (data : List UInt8) (i value : Nat) : List UInt8 :=
  (((data.set i (UInt8.ofNat value)).set (i + 1) (UInt8.ofNat (value / 2 ^ 8))).set (i + 2)
    (UInt8.ofNat (value / 2 ^ 16))).set (i + 3) (UInt8.ofNat (value / 2 ^ 24))

/-- `f` with a new value at one index. -/
def store {α : Type} (f : Nat → α) (i : Nat) (v : α) : Nat → α := fun j => if j = i then v else f j

/-- A 32-bit subtraction. -/
def sub32 (a b : Nat) : Nat := (a + (2 ^ 32 - b)) % 2 ^ 32

@[simp] theorem length_write32 (data : List UInt8) (i value : Nat) :
    (write32 data i value).length = data.length := by
  simp [write32]

theorem byteAt_eq_getElem {data : List UInt8} {i : Nat} (h : i < data.length) :
    byteAt data i = data[i] := by
  simp [byteAt, h]

theorem byteAt_take (data : List UInt8) {i n : Nat} (h : i < n) :
    byteAt (data.take n) i = byteAt data i := by
  simp [byteAt, List.getElem?_take_of_lt h]

theorem byteAt_set_of_ne (data : List UInt8) {i j : Nat} (b : UInt8) (h : i ≠ j) :
    byteAt (data.set i b) j = byteAt data j := by
  simp [byteAt, List.getElem?_set_ne h]

theorem byteAt_set_self {data : List UInt8} {i : Nat} (b : UInt8) (h : i < data.length) :
    byteAt (data.set i b) i = b := by
  simp [byteAt, h]

theorem byteAt_write32_of_ne (data : List UInt8) {i j : Nat} (value : Nat)
    (h : j < i ∨ i + 3 < j) : byteAt (write32 data i value) j = byteAt data j := by
  unfold write32
  rw [byteAt_set_of_ne _ _ (by omega), byteAt_set_of_ne _ _ (by omega),
    byteAt_set_of_ne _ _ (by omega), byteAt_set_of_ne _ _ (by omega)]

theorem byteAt_write32 {data : List UInt8} {i : Nat} (value : Nat) (h : i + 3 < data.length)
    {j : Nat} (hj : j < 4) :
    byteAt (write32 data i value) (i + j) = UInt8.ofNat (value / 2 ^ (8 * j)) := by
  unfold write32
  rcases (by omega : j = 0 ∨ j = 1 ∨ j = 2 ∨ j = 3) with rfl | rfl | rfl | rfl
  · rw [byteAt_set_of_ne _ _ (by omega), byteAt_set_of_ne _ _ (by omega),
      byteAt_set_of_ne _ _ (by omega), Nat.add_zero, byteAt_set_self _ (by omega)]
    simp
  · rw [byteAt_set_of_ne _ _ (by omega), byteAt_set_of_ne _ _ (by omega),
      byteAt_set_self _ (by rw [List.length_set]; omega)]
  · rw [byteAt_set_of_ne _ _ (by omega),
      byteAt_set_self _ (by rw [List.length_set, List.length_set]; omega)]
  · rw [byteAt_set_self _ (by rw [List.length_set, List.length_set, List.length_set]; omega)]

theorem read32_write32 {data : List UInt8} {i value : Nat} (h : i + 3 < data.length)
    (hvalue : value < 2 ^ 32) : read32 (write32 data i value) i = value := by
  have h0 := byteAt_write32 value h (by decide : 0 < 4)
  rw [Nat.add_zero] at h0
  rw [read32, h0, byteAt_write32 value h (by decide : 1 < 4),
    byteAt_write32 value h (by decide : 2 < 4), byteAt_write32 value h (by decide : 3 < 4),
    UInt8.toNat_ofNat', UInt8.toNat_ofNat', UInt8.toNat_ofNat', UInt8.toNat_ofNat']
  simp only [Nat.mul_zero, Nat.pow_zero, Nat.div_one, Nat.mul_one, Nat.reduceMul]
  omega

theorem read32_congr {data data' : List UInt8} {i : Nat}
    (h : ∀ j < 4, byteAt data (i + j) = byteAt data' (i + j)) : read32 data i = read32 data' i := by
  have h0 := h 0 (by decide)
  rw [Nat.add_zero] at h0
  unfold read32
  rw [h0, h 1 (by decide), h 2 (by decide), h 3 (by decide)]

theorem ext_byteAt {a b : List UInt8} (hlen : a.length = b.length)
    (h : ∀ i, byteAt a i = byteAt b i) : a = b := by
  apply List.ext_getElem hlen
  intro i ha hb
  have hi := h i
  rwa [byteAt_eq_getElem ha, byteAt_eq_getElem hb] at hi

theorem read32_lt (data : List UInt8) (i : Nat) : read32 data i < 2 ^ 32 := by
  have h0 := (byteAt data i).toNat_lt
  have h1 := (byteAt data (i + 1)).toNat_lt
  have h2 := (byteAt data (i + 2)).toNat_lt
  have h3 := (byteAt data (i + 3)).toNat_lt
  unfold read32
  omega

theorem sub32_of_le {a b : Nat} (h : b ≤ a) (ha : a < 2 ^ 32) : sub32 a b = a - b := by
  unfold sub32
  omega

end Limine.Limlz
