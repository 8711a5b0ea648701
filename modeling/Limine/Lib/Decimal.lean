import Mathlib.Algebra.Group.Nat.Defs
import Mathlib.Data.List.Basic

/-!
# Decimal numerals

The bytes of a number written in base 10, highest digit first, and the number they stand for.
-/

namespace Limine.Lib

def isDigit (b : UInt8) : Bool := 48 ≤ b && b ≤ 57

/-- The digits of `val`, lowest first, of which there are at least one. -/
def lowDigits : Nat → Nat → List UInt8
  | 0, _ => []
  | fuel + 1, val =>
    UInt8.ofNat (48 + val % 10) :: if 0 < val / 10 then lowDigits fuel (val / 10) else []

/-- A number in base 10; a number has no more digits than its value. -/
def decimal (val : Nat) : List UInt8 := (lowDigits (val + 1) val).reverse

/-- The value `n` with one more digit. -/
def addDigit (n : Nat) (b : UInt8) : Nat := n * 10 + (b.toNat - 48)

/-- Reading on from the value `n`. -/
def decimalFrom : List UInt8 → Nat → Nat
  | [], n => n
  | b :: digits, n => decimalFrom digits (addDigit n b)

theorem decimalFrom_append (a b : List UInt8) : ∀ n,
    decimalFrom (a ++ b) n = decimalFrom b (decimalFrom a n) := by
  induction a with
  | nil => intro n; rfl
  | cons c a ih => intro n; exact ih _

theorem digit_toNat (d : Nat) : (UInt8.ofNat (48 + d % 10)).toNat = 48 + d % 10 := by
  rw [UInt8.toNat_ofNat']
  omega

theorem isDigit_iff {b : UInt8} : isDigit b = true ↔ 48 ≤ b.toNat ∧ b.toNat ≤ 57 := by
  simp [isDigit, UInt8.le_iff_toNat_le]

theorem isDigit_lowDigits (fuel val : Nat) : ∀ b ∈ lowDigits fuel val, isDigit b = true := by
  induction fuel generalizing val with
  | zero => simp [lowDigits]
  | succ fuel ih =>
    intro b hb
    rw [lowDigits] at hb
    rcases List.mem_cons.mp hb with rfl | hb
    · rw [isDigit_iff, digit_toNat]
      omega
    · split at hb
      · exact ih _ b hb
      · simp at hb

theorem isDigit_decimal (val : Nat) : ∀ b ∈ decimal val, isDigit b = true := by
  intro b hb
  exact isDigit_lowDigits _ _ b (List.mem_reverse.mp hb)

theorem decimal_ne_nil (val : Nat) : decimal val ≠ [] := by
  simp [decimal, lowDigits]

theorem decimalFrom_lowDigits (fuel : Nat) : ∀ val, val < fuel →
    decimalFrom (lowDigits fuel val).reverse 0 = val := by
  induction fuel with
  | zero => omega
  | succ fuel ih =>
    intro val h
    rw [lowDigits, List.reverse_cons, decimalFrom_append]
    have hd := digit_toNat val
    split
    · next h0 =>
      have e := ih (val / 10) (by omega)
      rw [e]
      show addDigit (val / 10) _ = val
      rw [addDigit, hd]
      omega
    · next h0 =>
      show addDigit 0 _ = val
      rw [addDigit, hd]
      omega

/-- **The digits of a number read back.** -/
theorem decimalFrom_decimal (val : Nat) : decimalFrom (decimal val) 0 = val :=
  decimalFrom_lowDigits (val + 1) val (Nat.lt_succ_self val)

theorem decimal_inj {m n : Nat} (h : decimal m = decimal n) : m = n := by
  rw [← decimalFrom_decimal m, h, decimalFrom_decimal]

theorem le_decimalFrom (digits : List UInt8) : ∀ n, n ≤ decimalFrom digits n := by
  induction digits with
  | nil =>
    intro n
    exact Nat.le_refl n
  | cons b digits ih =>
    intro n
    refine Nat.le_trans ?_ (ih (addDigit n b))
    rw [addDigit]
    omega

end Limine.Lib
