import Limine.Lib.HeapSort
import Mathlib.Algebra.Group.Nat.Defs

/-!
# Sorting for FreeType

`ui_ft_qsort` sorts an array of which it knows only the size of an element.  The array is its bytes; a byte
that is read, written or compared outside of it is `none`.
-/

namespace Limine.Ui

open Limine.Lib

/-! ## The source -/

/-- The bytes of an element, as the comparison sees them. -/
abbrev Element (size : Nat) := Fin size → UInt8

/-- The array from a byte on. -/
def elementAt (base : List UInt8) (size offset : Nat) : Element size := fun j => base.getD (offset + j) 0

/-- A call of `compare` with two pointers into the array. -/
def compareAt {size : Nat} (compare : Element size → Element size → Int) (base : List UInt8) (a b : Nat) : Option Int :=
  if a + size ≤ base.length ∧ b + size ≤ base.length then
    some (compare (elementAt base size a) (elementAt base size b))
  else none

/-- The first `i` turns of the loop of `swap`. -/
def swap (base : List UInt8) (a b : Nat) : Nat → Option (List UInt8)
  | 0 => some base
  | i + 1 => do
    let base ← swap base a b i
    let value ← base[a + i]?
    let other ← base[b + i]?
    some ((base.set (a + i) other).set (b + i) value)

section
variable {size : Nat} (compare : Element size → Element size → Int)

/-- The condition of `child++`. -/
def childAdvances (base : List UInt8) (root count : Nat) : Option Bool :=
  if 2 * root + 2 < count then
    (compareAt compare base ((2 * root + 1) * size) ((2 * root + 2) * size)).map fun c => decide (c < 0)
  else some false

def sift (base : List UInt8) (root count : Nat) : Option (List UInt8) :=
  if _ : root < count / 2 then do
    let second ← childAdvances compare base root count
    let child := if second = true then 2 * root + 2 else 2 * root + 1
    let c ← compareAt compare base (root * size) (child * size)
    if c ≥ 0 then some base
    else do
      let base ← swap base (root * size) (child * size) size
      sift base child count
  else some base
termination_by count - root
decreasing_by
  split <;> omega

/-- The first loop of `ui_ft_qsort`. -/
def siftAll (count : Nat) : Nat → List UInt8 → Option (List UInt8)
  | 0, base => some base
  | i + 1, base => do
    let base ← sift compare base i count
    siftAll count i base

/-- The second loop. -/
def siftOut : Nat → List UInt8 → Option (List UInt8)
  | 0, base => some base
  | i + 1, base => do
    let base ← swap base 0 ((i + 1) * size) size
    let base ← sift compare base 0 (i + 1)
    siftOut i base

def uiFtQsort (sizeMax : Nat) (base : List UInt8) (count : Nat) : Option (List UInt8) :=
  if size = 0 ∨ count < 2 ∨ count > sizeMax / size then some base
  else do
    let base ← siftAll compare count (count / 2) base
    siftOut compare (count - 1) base

end

/-! ## Elements -/

/-- The elements of the array, by their index. -/
def element (base : List UInt8) (size k : Nat) : Element size := elementAt base size (k * size)

def elements (base : List UInt8) (size count : Nat) : List (Element size) := (List.range count).map (element base size)

/-- What `swap` leaves at every byte. -/
theorem swap_spec {base : List UInt8} {a b : Nat} : ∀ {n : Nat}, a + n ≤ base.length → b + n ≤ base.length →
    a + n ≤ b ∨ b + n ≤ a → ∃ base', swap base a b n = some base' ∧ base'.length = base.length ∧
      ∀ k, base'.getD k 0 =
        if a ≤ k ∧ k < a + n then base.getD (b + (k - a)) 0
        else if b ≤ k ∧ k < b + n then base.getD (a + (k - b)) 0
        else base.getD k 0 := by
  intro n
  induction n with
  | zero =>
    intro _ _ _
    refine ⟨base, rfl, rfl, fun k => ?_⟩
    rw [if_neg (by omega), if_neg (by omega)]
  | succ n ih =>
    intro ha hb hapart
    obtain ⟨mid, hmid, hlength, hbytes⟩ := ih (by omega) (by omega) (by omega)
    have hvalue : mid[a + n]? = some (base.getD (a + n) 0) := by
      have hget := hbytes (a + n)
      rw [if_neg (by omega), if_neg (by omega)] at hget
      rw [← hget, List.getD_eq_getElem?_getD, List.getElem?_eq_getElem (by omega), Option.getD_some]
    have hother : mid[b + n]? = some (base.getD (b + n) 0) := by
      have hget := hbytes (b + n)
      rw [if_neg (by omega), if_neg (by omega)] at hget
      rw [← hget, List.getD_eq_getElem?_getD, List.getElem?_eq_getElem (by omega), Option.getD_some]
    refine ⟨(mid.set (a + n) (base.getD (b + n) 0)).set (b + n) (base.getD (a + n) 0), ?_, ?_, fun k => ?_⟩
    · rw [swap, hmid]
      simp only [Option.bind_eq_bind, Option.bind_some, hvalue, hother]
    · rw [List.length_set, List.length_set, hlength]
    · rw [List.getD_eq_getElem?_getD, List.getElem?_set, List.getElem?_set, List.length_set]
      by_cases hkb : b + n = k
      · subst hkb
        rw [if_pos rfl, if_pos (by omega), if_neg (by omega), if_pos (by omega), Option.getD_some]
        congr 1
        omega
      · rw [if_neg hkb]
        by_cases hka : a + n = k
        · subst hka
          rw [if_pos rfl, if_pos (by omega), if_pos (by omega), Option.getD_some]
          congr 1
          omega
        · rw [if_neg hka, ← List.getD_eq_getElem?_getD, hbytes k]
          have hleft : (a ≤ k ∧ k < a + (n + 1)) ↔ (a ≤ k ∧ k < a + n) := by omega
          have hright : (b ≤ k ∧ k < b + (n + 1)) ↔ (b ≤ k ∧ k < b + n) := by omega
          simp only [hleft, hright]

theorem length_elements (base : List UInt8) (size count : Nat) : (elements base size count).length = count := by
  simp [elements]

/-- Where byte `j` of element `k` is. -/
theorem byte_lt {size count k j : Nat} (hk : k < count) (hj : j < size) : k * size + j < count * size :=
  calc k * size + j < (k + 1) * size := by
        rw [Nat.succ_mul]
        omega
    _ ≤ count * size := Nat.mul_le_mul_right size hk

theorem byte_mem_iff {size i k j : Nat} (hj : j < size) :
    (i * size ≤ k * size + j ∧ k * size + j < i * size + size) ↔ k = i := by
  constructor
  · rintro ⟨hlow, hhigh⟩
    rcases Nat.lt_trichotomy k i with hlt | heq | hgt
    · have hle := Nat.mul_le_mul_right size hlt
      rw [Nat.succ_mul] at hle
      omega
    · exact heq
    · have hle := Nat.mul_le_mul_right size hgt
      rw [Nat.succ_mul] at hle
      omega
  · rintro rfl
    omega

section
variable {size count : Nat} {base : List UInt8}

theorem end_le {k : Nat} (hlength : base.length = count * size) (hk : k < count) :
    k * size + size ≤ base.length := by
  rw [hlength, ← Nat.succ_mul]
  exact Nat.mul_le_mul_right size hk

/-- `swap` exchanges two elements. -/
theorem swap_elements {i j : Nat} (hlength : base.length = count * size) (hi : i < count) (hj : j < count)
    (hne : i ≠ j) : ∃ base', swap base (i * size) (j * size) size = some base' ∧ base'.length = count * size ∧
      element base' size = exchange (element base size) i j := by
  have hapart : i * size + size ≤ j * size ∨ j * size + size ≤ i * size := by
    rw [← Nat.succ_mul, ← Nat.succ_mul]
    rcases Nat.lt_or_gt_of_ne hne with hlt | hgt
    · exact Or.inl (Nat.mul_le_mul_right size hlt)
    · exact Or.inr (Nat.mul_le_mul_right size hgt)
  obtain ⟨base', hswap, hlength', hbytes⟩ := swap_spec (end_le hlength hi) (end_le hlength hj) hapart
  refine ⟨base', hswap, hlength'.trans hlength, ?_⟩
  funext k b
  show base'.getD (k * size + b) 0 = _
  rw [hbytes]
  simp only [byte_mem_iff b.isLt]
  by_cases hki : k = i
  · subst hki
    rw [if_pos rfl, exchange_left, Nat.add_sub_cancel_left]
    rfl
  · by_cases hkj : k = j
    · subst hkj
      rw [if_neg hki, if_pos rfl, exchange_right, Nat.add_sub_cancel_left]
      rfl
    · rw [if_neg hki, if_neg hkj, exchange_of_ne hki hkj]
      rfl

theorem compareAt_elements (compare : Element size → Element size → Int) {i j : Nat}
    (hlength : base.length = count * size) (hi : i < count) (hj : j < count) :
    compareAt compare base (i * size) (j * size) = some (compare (element base size i) (element base size j)) :=
  if_pos ⟨end_le hlength hi, end_le hlength hj⟩

end

/-! ## The loops are those of heapsort -/

section
variable {size : Nat} (compare : Element size → Element size → Int)

/-- The comparison as the algorithm uses it. -/
def comesBefore (x y : Element size) : Bool := decide (compare x y < 0)

theorem childAdvances_eq {base : List UInt8} {count n root : Nat} (hlength : base.length = count * size)
    (hn : n ≤ count) : childAdvances compare base root n =
      some (decide (laterChild (comesBefore compare) (element base size) root n = 2 * root + 2)) := by
  unfold childAdvances laterChild
  split
  · next hlt =>
    rw [compareAt_elements compare hlength (by omega) (by omega)]
    simp [hlt, comesBefore]
  · next hge =>
    simp [hge]

theorem child_eq (v : Nat → Element size) (root n : Nat) :
    (if decide (laterChild (comesBefore compare) v root n = 2 * root + 2) = true then 2 * root + 2 else 2 * root + 1) =
      laterChild (comesBefore compare) v root n := by
  unfold laterChild
  split <;> split <;> simp_all

theorem sift_elements {count n : Nat} (hn : n ≤ count) : ∀ (base : List UInt8) (root : Nat),
    base.length = count * size → ∃ base', sift compare base root n = some base' ∧ base'.length = count * size ∧
      element base' size = siftDown (comesBefore compare) (element base size) root n := by
  intro base root
  induction hk : n - root using Nat.strongRecOn generalizing base root with
  | ind k ih =>
    intro hlength
    rw [sift, siftDown]
    by_cases hroot : root < n / 2
    · rw [dif_pos hroot, dif_pos hroot, childAdvances_eq compare hlength hn]
      simp only [Option.bind_eq_bind, Option.bind_some, child_eq]
      have hbelow := lt_laterChild (comesBefore compare) (element base size) root n
      have hlt := laterChild_lt (comesBefore compare) hroot (element base size)
      rw [compareAt_elements compare hlength (by omega) (by omega)]
      simp only [Option.bind_some]
      generalize laterChild (comesBefore compare) (element base size) root n = child at *
      by_cases hstop : compare (element base size root) (element base size child) ≥ 0
      · rw [if_pos hstop, if_neg (by simpa [comesBefore] using hstop)]
        exact ⟨base, rfl, hlength, rfl⟩
      · rw [if_neg hstop, if_pos (by simpa [comesBefore] using hstop)]
        obtain ⟨mid, hswap, hmid, helements⟩ :=
          swap_elements hlength (i := root) (j := child) (by omega) (by omega) (by omega)
        rw [hswap, ← helements]
        exact ih (n - child) (by omega) mid child rfl hmid
    · rw [dif_neg hroot, dif_neg hroot]
      exact ⟨base, rfl, hlength, rfl⟩

theorem siftAll_elements (count : Nat) : ∀ (i : Nat) (base : List UInt8), base.length = count * size →
    ∃ base', siftAll compare count i base = some base' ∧ base'.length = count * size ∧
      element base' size = buildHeap (comesBefore compare) count i (element base size) := by
  intro i
  induction i with
  | zero => exact fun base hlength => ⟨base, rfl, hlength, rfl⟩
  | succ i ih =>
    intro base hlength
    obtain ⟨mid, hsift, hmid, helements⟩ := sift_elements compare (Nat.le_refl count) base i hlength
    rw [siftAll, hsift, buildHeap, ← helements]
    exact ih mid hmid

theorem siftOut_elements {count : Nat} : ∀ (i : Nat) (base : List UInt8), i < count → base.length = count * size →
    ∃ base', siftOut compare i base = some base' ∧ base'.length = count * size ∧
      element base' size = sortHeap (comesBefore compare) i (element base size) := by
  intro i
  induction i with
  | zero => exact fun base _ hlength => ⟨base, rfl, hlength, rfl⟩
  | succ i ih =>
    intro base hi hlength
    obtain ⟨mid, hswap, hmid, helements⟩ :=
      swap_elements hlength (i := 0) (j := i + 1) (by omega) hi (by omega)
    obtain ⟨mid', hsift, hmid', helements'⟩ := sift_elements compare (n := i + 1) (by omega) mid 0 hmid
    rw [Nat.zero_mul] at hswap
    rw [siftOut, hswap, sortHeap, ← helements, ← helements']
    simp only [Option.bind_eq_bind, Option.bind_some, hsift]
    exact ih mid' (by omega) hmid'

end

/-! ## The result -/

/-- What C asks of a comparison. -/
structure TotalPreorder {α : Type} (compare : α → α → Int) : Prop where
  oriented : ∀ a b, compare a b < 0 ↔ 0 < compare b a
  trans : ∀ a b c, compare a b ≤ 0 → compare b c ≤ 0 → compare a c ≤ 0

theorem TotalPreorder.strictPart {size : Nat} {compare : Element size → Element size → Int}
    (h : TotalPreorder compare) : StrictPart (comesBefore compare) fun a b => compare a b ≤ 0 where
  total := by
    intro a b
    have hab := h.oriented a b
    have hba := h.oriented b a
    omega
  trans := h.trans
  before_iff := by
    intro a b
    have hab := h.oriented a b
    unfold comesBefore
    rw [decide_eq_true_eq]
    omega

/-- Where the code returns at once there is nothing to sort. -/
theorem elements_pairwise_of_trivial {size : Nat} {compare : Element size → Element size → Int}
    (h : TotalPreorder compare) {base : List UInt8} {count : Nat} (htrivial : size = 0 ∨ count < 2) :
    (elements base size count).Pairwise fun a b => compare a b ≤ 0 := by
  have hle : ∀ a b : Nat, a < b → b < count → compare (element base size a) (element base size b) ≤ 0 := by
    intro a b hab hb
    rcases htrivial with rfl | hcount
    · have heq : element base 0 a = element base 0 b := by
        funext j
        exact j.elim0
      rw [heq]
      exact (h.strictPart.total _ _).elim id id
    · omega
  unfold elements
  rw [List.pairwise_map]
  apply List.Pairwise.imp_of_mem (R := fun a b => a < b)
  · intro a b _ hb hab
    exact hle a b hab (List.mem_range.mp hb)
  · exact List.pairwise_lt_range

/-- `ui_ft_qsort` sorts: it ends, stays inside the array, and leaves the elements, each with its bytes, in
order. -/
theorem uiFtQsort_sorts (sizeMax size count : Nat) (base : List UInt8) (compare : Element size → Element size → Int)
    (hlength : base.length = count * size) (hmax : count * size ≤ sizeMax) (hcompare : TotalPreorder compare) :
    ∃ sorted, uiFtQsort compare sizeMax base count = some sorted ∧ sorted.length = base.length ∧
      (elements sorted size count).Perm (elements base size count) ∧
      (elements sorted size count).Pairwise fun a b => compare a b ≤ 0 := by
  unfold uiFtQsort
  by_cases htrivial : size = 0 ∨ count < 2
  · rw [if_pos (by omega)]
    exact ⟨base, rfl, rfl, List.Perm.refl _, elements_pairwise_of_trivial hcompare htrivial⟩
  · have hfits : ¬count > sizeMax / size := by
      rw [Nat.not_lt]
      exact (Nat.le_div_iff_mul_le (by omega)).mpr hmax
    rw [if_neg (by omega)]
    obtain ⟨heap, hheap, hheapLength, hbuilt⟩ := siftAll_elements compare count (count / 2) base hlength
    obtain ⟨sorted, hsorted, hsortedLength, hout⟩ :=
      siftOut_elements compare (count - 1) heap (by omega) hheapLength
    have helements : element sorted size = heapSort (comesBefore compare) count (element base size) := by
      rw [hout, hbuilt]
      rfl
    refine ⟨sorted, ?_, hsortedLength.trans hlength.symm, ?_, ?_⟩
    · rw [hheap]
      exact hsorted
    · unfold elements
      rw [helements]
      exact (heapSort_rearranged _ _).perm
    · unfold elements
      rw [helements, List.pairwise_map]
      apply List.Pairwise.imp_of_mem (R := fun a b => a < b)
      · intro a b _ hb hab
        exact heapSort_sorted hcompare.strictPart _ a b hab (List.mem_range.mp hb)
      · exact List.pairwise_lt_range

/-- Elements of two bytes, of which the first is the key. -/
def byKey (x y : Element 2) : Int := (x 0).toNat - (y 0).toNat

theorem byKey_totalPreorder : TotalPreorder byKey where
  oriented := by
    intro a b
    unfold byKey
    omega
  trans := by
    intro a b c hab hbc
    unfold byKey at *
    omega

theorem uiFtQsort_sorts_byKey : ∃ sorted, uiFtQsort byKey (2 ^ 32 - 1) [9, 1, 5, 2, 9, 3, 0, 4, 7, 5] 5 = some sorted ∧
    sorted.length = 10 ∧
    (elements sorted 2 5).Perm (elements [9, 1, 5, 2, 9, 3, 0, 4, 7, 5] 2 5) ∧
    (elements sorted 2 5).Pairwise fun a b => byKey a b ≤ 0 :=
  uiFtQsort_sorts (2 ^ 32 - 1) 2 5 [9, 1, 5, 2, 9, 3, 0, 4, 7, 5] byKey rfl (by decide) byKey_totalPreorder

end Limine.Ui
