import Limine.EfiPt.Walk
import Limine.Lib.BitWindow
import Mathlib.Data.Nat.Bitwise

/-!
# The bits of an entry

What the masks of `efi_pt.c` read from an entry, and what is left of one that was given a PAT index,
bit by bit.
-/

namespace Limine.EfiPt

open Limine.Lib Limine.Vmm

theorem getLsbD_shift_one {k b : Nat} (hb : b < 64) :
    ((1 : PtEntry) <<< k).getLsbD b = decide (b = k) := by
  rw [BitVec.getLsbD_shiftLeft, show (1 : PtEntry) = 1#64 from rfl, BitVec.getLsbD_one]
  by_cases h : b < k
  · simp [h]
    omega
  · simp [hb, h]
    omega

/-- A flag that is tested is a bit. -/
theorem and_flag_ne_zero {k : Nat} (hk : k < 64) (e : PtEntry) :
    e &&& (1 : PtEntry) <<< k ≠ 0 ↔ e.getLsbD k = true := by
  constructor
  · intro h
    by_contra hbit
    refine h (BitVec.eq_of_getLsbD_eq fun b hb => ?_)
    rw [BitVec.getLsbD_and, getLsbD_shift_one hb, show (0 : PtEntry) = 0#64 from rfl, BitVec.getLsbD_zero]
    by_cases hbk : b = k
    · subst hbk
      simp [hbit]
    · simp [hbk]
  · intro h hzero
    have hbit := congrArg (fun x : PtEntry => x.getLsbD k) hzero
    rw [BitVec.getLsbD_and, getLsbD_shift_one hk, h] at hbit
    simp at hbit

theorem present_iff (e : PtEntry) : e &&& pteP ≠ 0 ↔ e.getLsbD 0 = true :=
  and_flag_ne_zero (by decide) e

theorem isLeaf_iff (lvl : Nat) (e : PtEntry) :
    isLeaf lvl e = true ↔ lvl = 1 ∨ lvl ≤ 3 ∧ e.getLsbD 7 = true := by
  unfold isLeaf
  rw [decide_eq_true_iff, show e &&& ptePs ≠ 0 ↔ e.getLsbD 7 = true from and_flag_ne_zero (by decide) e]

theorem and_two_pow_ne_zero (idx k : Nat) : idx &&& 2 ^ k ≠ 0 ↔ idx.testBit k = true := by
  rw [Nat.and_two_pow]
  cases idx.testBit k <;> simp

theorem getLsbD_pteSetPat (e : PtEntry) (idx : Nat) (leaf4k : Bool) {b : Nat} (hb : b < 64) :
    (pteSetPat e idx leaf4k).getLsbD b =
      if b = 3 then idx.testBit 0 else if b = 4 then idx.testBit 1
      else if b = (if leaf4k then 7 else 12) then idx.testBit 2 else e.getLsbD b := by
  have h0 : idx &&& 1 ≠ 0 ↔ idx.testBit 0 = true := and_two_pow_ne_zero idx 0
  have h1 : idx &&& 2 ≠ 0 ↔ idx.testBit 1 = true := and_two_pow_ne_zero idx 1
  have h2 : idx &&& 4 ≠ 0 ↔ idx.testBit 2 = true := and_two_pow_ne_zero idx 2
  have hor : ∀ (p : Prop) [Decidable p] (x m : PtEntry), (if p then x ||| m else x).getLsbD b =
      (x.getLsbD b || (decide p && m.getLsbD b)) := by
    intro p _ x m
    split
    · next h => simp [h]
    · next h => simp [h]
  have hpat : (if leaf4k then ptePat4k else ptePatBig).getLsbD b =
      decide (b = if leaf4k then 7 else 12) := by
    cases leaf4k
    · exact getLsbD_shift_one hb
    · exact getLsbD_shift_one hb
  unfold pteSetPat
  dsimp only
  rw [hor, hor, hor, BitVec.getLsbD_and, BitVec.getLsbD_not, BitVec.getLsbD_or, BitVec.getLsbD_or, hpat,
    show ptePwt.getLsbD b = decide (b = 3) from getLsbD_shift_one hb,
    show ptePcd.getLsbD b = decide (b = 4) from getLsbD_shift_one hb]
  simp only [h0, h1, h2, Bool.decide_eq_true, hb, decide_true, Bool.true_and]
  generalize hk : (if leaf4k then 7 else 12) = k
  have hk' : k = 7 ∨ k = 12 := by
    rw [← hk]
    cases leaf4k
    · exact Or.inr rfl
    · exact Or.inl rfl
  by_cases h3 : b = 3
  · simp [h3]
    omega
  by_cases h4 : b = 4
  · simp [h4]
    omega
  by_cases h5 : b = k
  · subst h5
    simp [h3, h4]
  · simp [h3, h4, h5]

/-- The entries of a new table above the last level are large. -/
theorem splitEntry_large (e : PtEntry) {lvl : Nat} (hl : lvl ≠ 2) (i : Nat) :
    (splitEntry e lvl i).getLsbD 7 = true := by
  have hchild : ¬ lvl - 1 = 1 := by omega
  unfold splitEntry
  dsimp only
  rw [getLsbD_pteSetPat _ _ _ (by decide), if_neg (by decide), if_neg (by decide), if_neg (by simp [hchild]),
    if_neg hchild, BitVec.getLsbD_or, show ptePs.getLsbD 7 = true from rfl, Bool.or_true]

theorem wcLeaf_leaf {lvl : Nat} (h0 : lvl ≠ 0) (hl : lvl ≤ 3) (va : Nat) (e : PtEntry) (idx : Nat) :
    isLeaf lvl (wcLeaf lvl va e idx) = true := by
  rw [isLeaf_iff]
  by_cases h1 : lvl = 1
  · exact Or.inl h1
  refine Or.inr ⟨hl, ?_⟩
  unfold wcLeaf
  dsimp only
  rw [getLsbD_pteSetPat _ _ _ (by decide), if_neg (by decide), if_neg (by decide), if_neg (by simp [h1]),
    if_pos (by omega), BitVec.getLsbD_or, show ptePs.getLsbD 7 = true from rfl, Bool.or_true]

/-- A page that an entry can point to. -/
def PageOk (p : Nat) : Prop := 0x1000 ∣ p ∧ p < 2 ^ 52

theorem PageOk.within {p : Nat} (h : PageOk p) : Within (BitVec.ofNat 64 p) (bitWindow 12 52) :=
  within_ofNat h.1 h.2

theorem tableEntry_spec {p : Nat} (h : PageOk p) :
    tableOf (tableEntry p) = p ∧ tableEntry p &&& pteP ≠ 0 := by
  have hor : tableEntry p = BitVec.ofNat 64 p ||| (pteP ||| pteRw ||| pteUs) := by
    unfold tableEntry
    rw [BitVec.or_assoc, BitVec.or_assoc, BitVec.or_assoc]
  unfold tableOf
  rw [hor]
  constructor
  · rw [h.within.or_and_value (by decide) (by decide), toNat_ofNat_of_lt h.2 (by decide)]
  · rw [h.within.or_and_flags (by decide)]
    decide

end Limine.EfiPt
