import Limine.Lib.Bytes

/-!
# Interval coding

A message is coded by an interval that every part of it narrows, with `digits` bytes before the
point.  A list of bytes codes the message when its first `digits` bytes spell a number in the
interval, and then it codes every part of it: a number in the interval of the whole is in all the
intervals before it.  What a reader keeps is the distance from the low end.
-/

namespace Limine.Lib

structure Interval where
  low : Nat
  width : Nat
  digits : Nat

namespace Interval

/-- The bytes spell a number in the interval. -/
structure Holds (i : Interval) (bs : List UInt8) : Prop where
  digits_le : i.digits ≤ bs.length
  low_le : i.low ≤ beNat (bs.take i.digits)
  lt_high : beNat (bs.take i.digits) < i.low + i.width

/-- How far up the number is. -/
def code (i : Interval) (bs : List UInt8) : Nat := beNat (bs.take i.digits) - i.low

/-- The part of the interval from `offset` on that is `width` wide. -/
def part (i : Interval) (offset width : Nat) : Interval :=
  { i with low := i.low + offset, width := width }

/-- The same interval, with one more byte before the point. -/
def refine (i : Interval) : Interval :=
  { low := i.low * 256, width := i.width * 256, digits := i.digits + 1 }

variable {i : Interval} {bs : List UInt8}

theorem Holds.of_part {offset width : Nat} (hle : offset + width ≤ i.width)
    (h : (i.part offset width).Holds bs) : i.Holds bs where
  digits_le := h.digits_le
  low_le := Nat.le_of_add_right_le h.low_le
  lt_high := by
    have hlt : beNat (bs.take i.digits) < i.low + offset + width := h.lt_high
    omega

theorem Holds.of_refine (h : i.refine.Holds bs) : i.Holds bs := by
  have hd : i.digits + 1 ≤ bs.length := h.digits_le
  have hl : i.low * 256 ≤ beNat (bs.take (i.digits + 1)) := h.low_le
  have hh : beNat (bs.take (i.digits + 1)) < i.low * 256 + i.width * 256 := h.lt_high
  have hb := (bs[i.digits]).toNat_lt
  rw [beNat_take_succ hd] at hl hh
  exact ⟨by omega, by omega, by omega⟩

theorem Holds.code_lt (h : i.Holds bs) : i.code bs < i.width := by
  have h1 := h.low_le
  have h2 := h.lt_high
  unfold code
  omega

theorem code_part (offset width : Nat) :
    (i.part offset width).code bs = i.code bs - offset :=
  Nat.sub_add_eq _ _ _

/-- A number in the part is at least `offset` up. -/
theorem Holds.offset_le {offset width : Nat} (h : (i.part offset width).Holds bs) :
    offset ≤ i.code bs := by
  have h1 : i.low + offset ≤ beNat (bs.take i.digits) := h.low_le
  unfold code
  omega

theorem Holds.code_refine (h : i.Holds bs) (hd : i.digits < bs.length) :
    i.refine.code bs = i.code bs * 256 + bs[i.digits].toNat := by
  have h1 := h.low_le
  show beNat (bs.take (i.digits + 1)) - i.low * 256 = _
  rw [beNat_take_succ hd]
  unfold code
  omega

end Interval

end Limine.Lib
