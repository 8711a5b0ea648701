import Mathlib.Algebra.GroupWithZero.Nat
import Mathlib.Data.List.Basic

/-!
# Packed relative relocations

A list of 64-bit words stands for a list of addresses.  An even word is an address; an odd one is
a bitmap, whose bit `j + 1` stands for the word `j` places after the last one covered.  An address
covers one word, a bitmap 63.
-/

namespace Limine.Lib.Relr

/-- The addresses a bitmap adds, `base` being the first word it covers. -/
def bitmap (base word : Nat) : List Nat :=
  ((List.range 63).filter fun j => word.testBit (j + 1)).map fun j => (base + j * 8) % 2 ^ 64

/-- The addresses that `words` stand for, the next word to be covered being `base`. -/
def addresses : Nat → List Nat → List Nat
  | _, [] => []
  | base, word :: words =>
    if word % 2 = 0 then word :: addresses ((word + 8) % 2 ^ 64) words
    else bitmap base word ++ addresses ((base + 63 * 8) % 2 ^ 64) words

/-- `__builtin_popcountll` -/
def popcount (word : Nat) : Nat := ((List.range 64).filter fun i => word.testBit i).length

/-- How many addresses a word stands for. -/
def weight (word : Nat) : Nat := if word % 2 = 0 then 1 else popcount word - 1

theorem popcount_odd {word : Nat} (h : word % 2 = 1) (base : Nat) :
    popcount word = (bitmap base word).length + 1 := by
  have h0 : word.testBit 0 = true := by simp [h]
  unfold popcount bitmap
  rw [List.length_map, List.range_succ_eq_map, List.filter_cons_of_pos h0, List.length_cons,
    List.filter_map, List.length_map]
  rfl

/-- **The words stand for as many addresses as they have weight.** -/
theorem length_addresses (words : List Nat) : ∀ base,
    (addresses base words).length = (words.map weight).sum := by
  induction words with
  | nil => simp [addresses]
  | cons word words ih =>
    intro base
    rw [addresses, List.map_cons, List.sum_cons, weight]
    by_cases h : word % 2 = 0
    · rw [if_pos h, if_pos h, List.length_cons, ih]
      omega
    · have hp := popcount_odd (by omega : word % 2 = 1) base
      rw [if_neg h, if_neg h, List.length_append, ih, hp]
      omega

/-! ## Shifting through a bitmap -/

/-- The addresses of the bits `j`, `j + 1`, ... that are left in `bits`. -/
def shifted (base n bits j : Nat) : List Nat :=
  ((List.range n).filter fun i => bits.testBit i).map fun i => (base + (j + i) * 8) % 2 ^ 64

theorem shifted_zero (base n j : Nat) : shifted base n 0 j = [] := by simp [shifted]

theorem shifted_succ (base n bits j : Nat) :
    shifted base (n + 1) bits j =
      (if bits % 2 = 1 then [(base + j * 8) % 2 ^ 64] else []) ++ shifted base n (bits / 2) (j + 1) := by
  have hrest : ((List.range n).map Nat.succ).filter (fun i => bits.testBit i) =
      ((List.range n).filter fun i => (bits / 2).testBit i).map Nat.succ := by
    rw [List.filter_map]
    congr 1
    refine List.filter_congr fun i _ => ?_
    simp [Nat.testBit_succ]
  have hmap : (((List.range n).filter fun i => (bits / 2).testBit i).map Nat.succ).map
      (fun i => (base + (j + i) * 8) % 2 ^ 64) = shifted base n (bits / 2) (j + 1) := by
    rw [List.map_map]
    refine List.map_congr_left fun i _ => ?_
    show (base + (j + (i + 1)) * 8) % 2 ^ 64 = (base + (j + 1 + i) * 8) % 2 ^ 64
    rw [show j + (i + 1) = j + 1 + i by omega]
  unfold shifted at hmap ⊢
  rw [List.range_succ_eq_map]
  by_cases h : bits % 2 = 1
  · have h0 : bits.testBit 0 = true := by simp [h]
    rw [List.filter_cons_of_pos h0, List.map_cons, hrest, hmap, if_pos h]
    rfl
  · have h0 : ¬bits.testBit 0 = true := by simp [h]
    rw [List.filter_cons_of_neg h0, hrest, hmap, if_neg h]
    rfl

theorem bitmap_eq_shifted (base word : Nat) : bitmap base word = shifted base 63 (word / 2) 0 := by
  unfold bitmap shifted
  simp [Nat.testBit_succ]

end Limine.Lib.Relr
