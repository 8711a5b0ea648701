import Mathlib.Algebra.Group.Nat.Defs
import Mathlib.Data.Nat.Init

/-!
# Fields of a machine word

An entry is made by or-ing values that lie in windows of their own; a mask that takes in a window
or misses it gives the value back or drops it.
-/

namespace Limine.Lib

/-- The word whose bits from `lo` up to below `hi` are set. -/
def bitWindow {n : Nat} (lo hi : Nat) : BitVec n := BitVec.ofNat n (2 ^ hi - 2 ^ lo)

/-- `x` has bits of `m` only. -/
def Within {n : Nat} (x m : BitVec n) : Prop := x &&& m = x

theorem testBit_window {lo hi : Nat} (h : lo ≤ hi) (i : Nat) :
    (2 ^ hi - 2 ^ lo).testBit i = (decide (lo ≤ i) && decide (i < hi)) := by
  obtain ⟨d, rfl⟩ := Nat.exists_eq_add_of_le h
  have hsub : 2 ^ (lo + d) - 2 ^ lo = (2 ^ d - 1) * 2 ^ lo := by
    rw [Nat.pow_add, Nat.sub_mul, Nat.one_mul, Nat.mul_comm]
  rw [hsub, Nat.testBit_mul_two_pow, Nat.testBit_two_pow_sub_one]
  by_cases hlo : lo ≤ i
  · simp only [hlo, decide_true, Bool.true_and]
    exact decide_eq_decide.mpr (by omega)
  · simp [hlo]

/-- A multiple of `2 ^ lo` below `2 ^ hi` lies in the window. -/
theorem within_ofNat {n lo hi a : Nat} (hd : 2 ^ lo ∣ a) (hlt : a < 2 ^ hi) :
    Within (BitVec.ofNat n a) (bitWindow lo hi) := by
  unfold Within bitWindow
  refine BitVec.eq_of_getLsbD_eq fun i hi' => ?_
  rw [BitVec.getLsbD_and, BitVec.getLsbD_ofNat, BitVec.getLsbD_ofNat]
  by_cases ha : a.testBit i = true
  · have hlo : lo ≤ i := by
      obtain ⟨c, rfl⟩ := hd
      rw [Nat.mul_comm, Nat.testBit_mul_two_pow] at ha
      exact of_decide_eq_true (Bool.and_eq_true_iff.mp ha).1
    have hhi : i < hi := by
      refine Nat.lt_of_not_le fun hge => ?_
      rw [Nat.testBit_lt_two_pow (Nat.lt_of_lt_of_le hlt (Nat.pow_le_pow_right (by decide) hge))] at ha
      cases ha
    rw [testBit_window (by omega), ha]
    simp [hi', hlo, hhi]
  · simp [ha]

theorem toNat_ofNat_of_lt {n hi a : Nat} (hlt : a < 2 ^ hi) (hn : hi ≤ n) : (BitVec.ofNat n a).toNat = a :=
  BitVec.toNat_ofNat a n ▸ Nat.mod_eq_of_lt (Nat.lt_of_lt_of_le hlt (Nat.pow_le_pow_right (by decide) hn))

/-- Moving a field down and up again. -/
theorem shift_field {n : Nat} (x m : BitVec n) (d : Nat) : ((x >>> d) &&& m) <<< d = x &&& (m <<< d) := by
  refine BitVec.eq_of_getLsbD_eq fun i hi => ?_
  rw [BitVec.getLsbD_shiftLeft, BitVec.getLsbD_and, BitVec.getLsbD_and, BitVec.getLsbD_ushiftRight,
    BitVec.getLsbD_shiftLeft]
  by_cases hd : i < d
  · simp [hd]
  · rw [show d + (i - d) = i by omega]
    simp [hd, hi]

namespace Within

variable {n : Nat} {x c m w : BitVec n}

/-- A mask that misses the window drops the value. -/
theorem and_eq_zero (h : Within x w) (hm : w &&& m = 0#n) : x &&& m = 0#n := by
  unfold Within at h
  rw [← h, BitVec.and_assoc, hm, BitVec.and_zero]

/-- A mask that takes in the window keeps the value. -/
theorem and_eq_self (h : Within x w) (hm : w &&& m = w) : x &&& m = x := by
  unfold Within at h
  rw [← h, BitVec.and_assoc, hm]

/-- Masks that agree on the window. -/
theorem and_congr (h : Within x w) {m' : BitVec n} (hm : w &&& m = w &&& m') : x &&& m = x &&& m' := by
  unfold Within at h
  rw [← h, BitVec.and_assoc, BitVec.and_assoc, hm]

theorem or_and_flags (h : Within x w) (hm : w &&& m = 0#n) : (x ||| c) &&& m = c &&& m := by
  rw [BitVec.and_or_distrib_right, h.and_eq_zero hm, BitVec.zero_or]

theorem or_and_value (h : Within x w) (hm : w &&& m = w) (hc : c &&& m = 0#n) : (x ||| c) &&& m = x := by
  rw [BitVec.and_or_distrib_right, h.and_eq_self hm, hc, BitVec.or_zero]

theorem getLsbD_eq_false (h : Within x w) {i : Nat} (hi : w.getLsbD i = false) : x.getLsbD i = false := by
  unfold Within at h
  rw [← h, BitVec.getLsbD_and, hi, Bool.and_false]

theorem getLsbD_or (h : Within x w) {i : Nat} (hi : w.getLsbD i = false) :
    (x ||| c).getLsbD i = c.getLsbD i := by
  rw [BitVec.getLsbD_or, h.getLsbD_eq_false hi, Bool.false_or]

end Within

/-! ## Aligned blocks -/

theorem testBit_div_mul (x lo i : Nat) : (x / 2 ^ lo * 2 ^ lo).testBit i = (decide (lo ≤ i) && x.testBit i) := by
  rw [Nat.testBit_mul_two_pow]
  by_cases h : lo ≤ i
  · simp only [h, decide_true, Bool.true_and, Nat.testBit_div_two_pow]
    rw [show i - lo + lo = i by omega]
  · simp [h]

/-- The mask of the bits from `lo` on rounds down. -/
theorem and_window {x lo hi : Nat} (h : lo ≤ hi) (hx : x < 2 ^ hi) : x &&& (2 ^ hi - 2 ^ lo) = x / 2 ^ lo * 2 ^ lo := by
  refine Nat.eq_of_testBit_eq fun i => ?_
  rw [Nat.testBit_and, testBit_window h, testBit_div_mul]
  by_cases hi' : i < hi
  · simp [hi', Bool.and_comm]
  · rw [Nat.testBit_lt_two_pow (Nat.lt_of_lt_of_le hx (Nat.pow_le_pow_right (by decide) (by omega)))]
    simp

/-- What rounds down to `b` is the block at `b`. -/
theorem div_mul_eq_iff {x b n : Nat} (hb : n ∣ b) (hn : 0 < n) : x / n * n = b ↔ b ≤ x ∧ x < b + n := by
  obtain ⟨c, rfl⟩ := hb
  rw [Nat.mul_comm n c]
  constructor
  · intro h
    have hdm := Nat.div_add_mod x n
    have hmod := Nat.mod_lt x hn
    rw [Nat.mul_comm, h] at hdm
    omega
  · rintro ⟨h1, h2⟩
    rw [← Nat.succ_mul] at h2
    rw [Nat.div_eq_of_lt_le h1 h2]

end Limine.Lib
