import Mathlib.Data.List.Nodup
import Mathlib.Logic.Equiv.Basic

/-!
# Heapsort

An array is a function, of which the first `n` places count.  `siftDown` mends a heap that is wrong at its
root only; `buildHeap` makes a heap, from the last parent down to the first place; `sortHeap` puts the
greatest of what is left behind it.  Every step exchanges two places, so that the result is a
rearrangement (`Rearranged`) of the array it started from.
-/

namespace Limine.Lib

section
variable {α : Type}

/-- `v` with two places exchanged. -/
def exchange (v : Nat → α) (i j : Nat) : Nat → α := fun k => v (Equiv.swap i j k)

variable (before : α → α → Bool)

/-- The child to compare with: the second one if there is one and the first is before it. -/
def laterChild (v : Nat → α) (root n : Nat) : Nat :=
  if 2 * root + 2 < n ∧ before (v (2 * root + 1)) (v (2 * root + 2)) = true then 2 * root + 2 else 2 * root + 1

theorem lt_laterChild (v : Nat → α) (root n : Nat) : root < laterChild before v root n := by
  unfold laterChild
  split <;> omega

def siftDown (v : Nat → α) (root n : Nat) : Nat → α :=
  if _ : root < n / 2 then
    if before (v root) (v (laterChild before v root n)) then
      siftDown (exchange v root (laterChild before v root n)) (laterChild before v root n) n
    else v
  else v
termination_by n - root
decreasing_by
  have hlt := lt_laterChild before v root n
  omega

/-- The heap of `n` places, given that the places from `i` on are. -/
def buildHeap (n : Nat) : Nat → (Nat → α) → (Nat → α)
  | 0, v => v
  | i + 1, v => buildHeap n i (siftDown before v i n)

/-- The heap of `i + 1` places, sorted. -/
def sortHeap : Nat → (Nat → α) → (Nat → α)
  | 0, v => v
  | i + 1, v => sortHeap i (siftDown before (exchange v 0 (i + 1)) 0 (i + 1))

def heapSort (n : Nat) (v : Nat → α) : Nat → α := sortHeap before (n - 1) (buildHeap before n (n / 2) v)

end

/-! ## Rearrangements -/

/-- `v'` has what `v` has, at other places below `n`. -/
def Rearranged {α : Type} (n : Nat) (v v' : Nat → α) : Prop :=
  ∃ σ : Equiv.Perm Nat, (∀ k, v' k = v (σ k)) ∧ ∀ k, n ≤ k → σ k = k

namespace Rearranged
variable {α : Type} {n : Nat} {v v' v'' : Nat → α}

theorem refl (n : Nat) (v : Nat → α) : Rearranged n v v := ⟨Equiv.refl Nat, fun _ => rfl, fun _ _ => rfl⟩

theorem trans (h : Rearranged n v v') (h' : Rearranged n v' v'') : Rearranged n v v'' := by
  obtain ⟨σ, hσ, hσfix⟩ := h
  obtain ⟨τ, hτ, hτfix⟩ := h'
  refine ⟨τ.trans σ, fun k => ?_, fun k hk => ?_⟩
  · rw [hτ, hσ]
    rfl
  · show σ (τ k) = k
    rw [hτfix k hk, hσfix k hk]

theorem mono {m : Nat} (h : Rearranged m v v') (hmn : m ≤ n) : Rearranged n v v' := by
  obtain ⟨σ, hσ, hfix⟩ := h
  exact ⟨σ, hσ, fun k hk => hfix k (Nat.le_trans hmn hk)⟩

theorem exchange {i j : Nat} (hi : i < n) (hj : j < n) : Rearranged n v (exchange v i j) :=
  ⟨Equiv.swap i j, fun _ => rfl, fun _ _ => Equiv.swap_apply_of_ne_of_ne (by omega) (by omega)⟩

theorem eq_of_le (h : Rearranged n v v') {k : Nat} (hk : n ≤ k) : v' k = v k := by
  obtain ⟨σ, hσ, hfix⟩ := h
  rw [hσ, hfix k hk]

/-- Nothing comes in from outside. -/
theorem exists_lt (h : Rearranged n v v') {k : Nat} (hk : k < n) : ∃ j, j < n ∧ v' k = v j := by
  obtain ⟨σ, hσ, hfix⟩ := h
  refine ⟨σ k, ?_, hσ k⟩
  by_contra hout
  have hfixed := hfix (σ k) (by omega)
  have heq := σ.injective hfixed
  omega

theorem perm (h : Rearranged n v v') : ((List.range n).map v').Perm ((List.range n).map v) := by
  obtain ⟨σ, hσ, hfix⟩ := h
  have hrange : ((List.range n).map σ).Perm (List.range n) := by
    apply (List.perm_ext_iff_of_nodup (List.Nodup.map σ.injective List.nodup_range) List.nodup_range).mpr
    intro a
    simp only [List.mem_map, List.mem_range]
    constructor
    · rintro ⟨k, hk, rfl⟩
      by_contra hout
      have heq := σ.injective (hfix (σ k) (by omega))
      omega
    · intro ha
      refine ⟨σ.symm a, ?_, σ.apply_symm_apply a⟩
      by_contra hout
      have hfixed := hfix (σ.symm a) (by omega)
      rw [σ.apply_symm_apply] at hfixed
      omega
  have hmap : (List.range n).map v' = ((List.range n).map σ).map v := by
    rw [List.map_map]
    exact List.map_congr_left fun k _ => hσ k
  rw [hmap]
  exact hrange.map v

end Rearranged

/-! ## Heaps -/

/-- `before` is the strict part of a total preorder `le`. -/
structure StrictPart {α : Type} (before : α → α → Bool) (le : α → α → Prop) : Prop where
  total : ∀ a b, le a b ∨ le b a
  trans : ∀ a b c, le a b → le b c → le a c
  before_iff : ∀ a b, before a b = true ↔ ¬le b a

def parent (c : Nat) : Nat := (c - 1) / 2

/-- No place from `lo` on has a greater child. -/
def HeapFrom {α : Type} (le : α → α → Prop) (lo n : Nat) (v : Nat → α) : Prop :=
  ∀ c, 0 < c → c < n → lo ≤ parent c → le (v c) (v (parent c))

/-- A heap but for the place `hole`, which may have greater children. -/
structure HeapExcept {α : Type} (le : α → α → Prop) (lo n hole : Nat) (v : Nat → α) : Prop where
  other : ∀ c, 0 < c → c < n → lo ≤ parent c → parent c ≠ hole → le (v c) (v (parent c))
  grand : ∀ c, 0 < c → c < n → parent c = hole → 0 < hole → lo ≤ parent hole → le (v c) (v (parent hole))

namespace StrictPart
variable {α : Type} {before : α → α → Bool} {le : α → α → Prop} {lo n root : Nat} {v : Nat → α}

theorem refl (h : StrictPart before le) (a : α) : le a a := (h.total a a).elim id id

theorem le_of_before (h : StrictPart before le) {a b : α} (hab : before a b = true) : le a b :=
  (h.total a b).resolve_right ((h.before_iff a b).mp hab)

theorem le_of_not_before (h : StrictPart before le) {a b : α} (hab : ¬before a b = true) : le b a :=
  not_not.mp (mt (h.before_iff a b).mpr hab)

end StrictPart

section
variable {α : Type} {before : α → α → Bool} {le : α → α → Prop} {lo n root : Nat} {v : Nat → α}

theorem parent_eq_iff {c : Nat} (hc : 0 < c) : parent c = root ↔ c = 2 * root + 1 ∨ c = 2 * root + 2 := by
  unfold parent
  omega

variable (before) in
theorem parent_laterChild (v : Nat → α) (root n : Nat) : parent (laterChild before v root n) = root := by
  unfold laterChild parent
  split <;> omega

variable (before) in
theorem laterChild_lt (hroot : root < n / 2) (v : Nat → α) : laterChild before v root n < n := by
  unfold laterChild
  split <;> omega

/-- The later child is the greatest child. -/
theorem le_laterChild (h : StrictPart before le) {c : Nat} (hc : 0 < c) (hn : c < n) (hparent : parent c = root) :
    le (v c) (v (laterChild before v root n)) := by
  unfold laterChild
  split
  · next hsecond =>
    rcases (parent_eq_iff hc).mp hparent with rfl | rfl
    · exact h.le_of_before hsecond.2
    · exact h.refl _
  · next hfirst =>
    rcases (parent_eq_iff hc).mp hparent with rfl | rfl
    · exact h.refl _
    · apply h.le_of_not_before
      intro hbefore
      exact hfirst ⟨hn, hbefore⟩

theorem exchange_left (v : Nat → α) (i j : Nat) : exchange v i j i = v j := by
  unfold exchange
  rw [Equiv.swap_apply_left]

theorem exchange_right (v : Nat → α) (i j : Nat) : exchange v i j j = v i := by
  unfold exchange
  rw [Equiv.swap_apply_right]

theorem exchange_of_ne {i j k : Nat} (hi : k ≠ i) (hj : k ≠ j) (v : Nat → α) : exchange v i j k = v k := by
  unfold exchange
  rw [Equiv.swap_apply_of_ne_of_ne hi hj]

/-- An exchange with the greatest child moves the hole there. -/
theorem HeapExcept.move (h : StrictPart before le) (hheap : HeapExcept le lo n root v)
    (hroot : root < n / 2) (hbefore : before (v root) (v (laterChild before v root n)) = true) :
    HeapExcept le lo n (laterChild before v root n) (exchange v root (laterChild before v root n)) := by
  have hchild : ∀ c, 0 < c → c < n → parent c = root → le (v c) (v (laterChild before v root n)) :=
    fun c hc hn hparent => le_laterChild h hc hn hparent
  have hparent := parent_laterChild before v root n
  have hbelow := lt_laterChild before v root n
  have hlt := laterChild_lt before hroot v
  generalize laterChild before v root n = child at *
  constructor
  · intro c hc hn hlo hne
    by_cases hcroot : c = root
    · subst hcroot
      have hp : parent c ≠ c := by
        unfold parent
        omega
      rw [exchange_left, exchange_of_ne hp hne]
      exact hheap.grand child (by omega) hlt hparent hc hlo
    · by_cases hcchild : c = child
      · subst hcchild
        rw [exchange_right, hparent, exchange_left]
        exact h.le_of_before hbefore
      · rw [exchange_of_ne hcroot hcchild]
        by_cases hp : parent c = root
        · rw [hp, exchange_left]
          exact hchild c hc hn hp
        · rw [exchange_of_ne hp hne]
          exact hheap.other c hc hn hlo hp
  · intro c hc hn hpc _ hlo
    have hbelow' : child < c := by
      unfold parent at hpc
      omega
    have hroot' : root ≠ child := by omega
    rw [hparent] at hlo ⊢
    rw [exchange_left, exchange_of_ne (by omega) (by omega)]
    have hpair := hheap.other c hc hn (by omega) (by omega)
    rw [hpc] at hpair
    exact hpair

theorem HeapExcept.done (h : StrictPart before le) (hheap : HeapExcept le lo n root v)
    (hroot : root < n / 2 → ¬before (v root) (v (laterChild before v root n)) = true) : HeapFrom le lo n v := by
  intro c hc hn hlo
  by_cases hp : parent c = root
  · have hin : root < n / 2 := by
      rcases (parent_eq_iff hc).mp hp with rfl | rfl <;> omega
    rw [hp]
    exact h.trans _ _ _ (le_laterChild h hc hn hp) (h.le_of_not_before (hroot hin))
  · exact hheap.other c hc hn hlo hp

theorem siftDown_heap (h : StrictPart before le) (hheap : HeapExcept le lo n root v) :
    HeapFrom le lo n (siftDown before v root n) := by
  induction v, root using siftDown.induct before n with
  | case1 v root hroot hbefore ih =>
    rw [siftDown, dif_pos hroot, if_pos hbefore]
    exact ih (hheap.move h hroot hbefore)
  | case2 v root hroot hstop =>
    rw [siftDown, dif_pos hroot, if_neg hstop]
    exact hheap.done h fun _ => hstop
  | case3 v root hleaf =>
    rw [siftDown, dif_neg hleaf]
    exact hheap.done h fun hroot => absurd hroot hleaf

theorem siftDown_rearranged (before : α → α → Bool) (v : Nat → α) (root n : Nat) :
    Rearranged n v (siftDown before v root n) := by
  induction v, root using siftDown.induct before n with
  | case1 v root hroot hbefore ih =>
    rw [siftDown, dif_pos hroot, if_pos hbefore]
    exact (Rearranged.exchange (by omega) (laterChild_lt before hroot v)).trans ih
  | case2 v root hroot hstop =>
    rw [siftDown, dif_pos hroot, if_neg hstop]
    exact Rearranged.refl n v
  | case3 v root hleaf =>
    rw [siftDown, dif_neg hleaf]
    exact Rearranged.refl n v

/-- The place above a heap is the only one that may be wrong. -/
theorem HeapFrom.except (hheap : HeapFrom le (lo + 1) n v) : HeapExcept le lo n lo v := by
  constructor
  · intro c hc hn hlo hne
    exact hheap c hc hn (by omega)
  · intro c _ _ _ hpos hlo
    unfold parent at hlo
    omega

theorem buildHeap_heap (h : StrictPart before le) : ∀ (i : Nat) {v : Nat → α}, HeapFrom le i n v →
    HeapFrom le 0 n (buildHeap before n i v) := by
  intro i
  induction i with
  | zero => exact fun hheap => hheap
  | succ i ih => exact fun hheap => ih (siftDown_heap h hheap.except)

theorem buildHeap_rearranged (before : α → α → Bool) (n : Nat) : ∀ (i : Nat) (v : Nat → α),
    Rearranged n v (buildHeap before n i v) := by
  intro i
  induction i with
  | zero => exact fun v => Rearranged.refl n v
  | succ i ih => exact fun v => (siftDown_rearranged before v i n).trans (ih _)

theorem heapFrom_leaves (le : α → α → Prop) (n : Nat) (v : Nat → α) : HeapFrom le (n / 2) n v := by
  intro c _ hn hlo
  unfold parent at hlo
  omega

/-- The first place of a heap is the greatest. -/
theorem HeapFrom.le_first (h : StrictPart before le) (hheap : HeapFrom le 0 n v) :
    ∀ k, k < n → le (v k) (v 0) := by
  intro k
  induction k using Nat.strongRecOn with
  | ind k ih =>
    intro hk
    by_cases hzero : k = 0
    · rw [hzero]
      exact h.refl _
    · have hparent : parent k < k := by
        unfold parent
        omega
      exact h.trans _ _ _ (hheap k (by omega) hk (Nat.zero_le _)) (ih _ hparent (by omega))

/-- A heap of `m` places, and behind it, in order, what is no less than all before it. -/
structure HeapThenSorted (le : α → α → Prop) (m n : Nat) (v : Nat → α) : Prop where
  heap : HeapFrom le 0 m v
  sorted : ∀ a b, a < b → m ≤ b → b < n → le (v a) (v b)

/-- A rearrangement of the front keeps what is behind it sorted. -/
theorem HeapThenSorted.sorted_of_rearranged {m : Nat} {v' : Nat → α} (hv : HeapThenSorted le m n v)
    (hr : Rearranged m v v') : ∀ a b, a < b → m ≤ b → b < n → le (v' a) (v' b) := by
  intro a b hab hm hn
  rw [hr.eq_of_le hm]
  by_cases ha : a < m
  · obtain ⟨j, hj, heq⟩ := hr.exists_lt ha
    rw [heq]
    exact hv.sorted j b (by omega) hm hn
  · rw [hr.eq_of_le (by omega)]
    exact hv.sorted a b hab hm hn

theorem HeapThenSorted.step (h : StrictPart before le) {i : Nat} (hv : HeapThenSorted le (i + 2) n v) :
    HeapThenSorted le (i + 1) n (siftDown before (exchange v 0 (i + 1)) 0 (i + 1)) := by
  have hsift := siftDown_rearranged before (exchange v 0 (i + 1)) 0 (i + 1)
  have hall := (Rearranged.exchange (v := v) (n := i + 2) (Nat.zero_lt_succ _) (Nat.lt_succ_self _)).trans
    (hsift.mono (Nat.le_succ _))
  constructor
  · apply siftDown_heap h
    constructor
    · intro c hc hn hlo hne
      rw [exchange_of_ne (by omega) (by omega), exchange_of_ne hne (by unfold parent; omega)]
      exact hv.heap c hc (by omega) hlo
    · intro c _ _ _ hpos
      omega
  · intro a b hab hlow hn
    by_cases hb : b = i + 1
    · -- the greatest of the heap
      subst hb
      rw [hsift.eq_of_le (Nat.le_refl _), exchange_right]
      obtain ⟨j, hj, heq⟩ := hall.exists_lt (k := a) (by omega)
      rw [heq]
      exact hv.heap.le_first h j hj
    · exact hv.sorted_of_rearranged hall a b hab (by omega) hn

theorem sortHeap_sorted (h : StrictPart before le) : ∀ (i : Nat) {v : Nat → α}, HeapThenSorted le (i + 1) n v →
    ∀ a b, a < b → b < n → le (sortHeap before i v a) (sortHeap before i v b) := by
  intro i
  induction i with
  | zero => exact fun hv a b hab hn => hv.sorted a b hab (by omega) hn
  | succ i ih => exact fun hv => ih (hv.step h)

theorem sortHeap_rearranged (before : α → α → Bool) : ∀ (i : Nat) (v : Nat → α),
    Rearranged (i + 1) v (sortHeap before i v) := by
  intro i
  induction i with
  | zero => exact fun v => Rearranged.refl 1 v
  | succ i ih =>
    intro v
    have hexchange := Rearranged.exchange (v := v) (Nat.zero_lt_succ (i + 1)) (Nat.lt_succ_self (i + 1))
    have hsift := (siftDown_rearranged before (exchange v 0 (i + 1)) 0 (i + 1)).mono (Nat.le_succ (i + 1))
    exact (hexchange.trans hsift).trans ((ih _).mono (Nat.le_succ _))

theorem heapSort_sorted (h : StrictPart before le) (v : Nat → α) :
    ∀ a b, a < b → b < n → le (heapSort before n v a) (heapSort before n v b) := by
  by_cases hn : n = 0
  · intro a b _ hlt
    omega
  · apply sortHeap_sorted h
    rw [Nat.sub_add_cancel (by omega)]
    constructor
    · exact buildHeap_heap h (n / 2) (heapFrom_leaves le n v)
    · intro a b _ hle hlt
      omega

theorem heapSort_rearranged (before : α → α → Bool) (v : Nat → α) : Rearranged n v (heapSort before n v) := by
  by_cases hn : n = 0
  · subst hn
    exact Rearranged.refl 0 v
  · have hsort := sortHeap_rearranged before (n - 1) (buildHeap before n (n / 2) v)
    rw [Nat.sub_add_cancel (by omega)] at hsort
    exact (buildHeap_rearranged before n (n / 2) v).trans hsort

end

end Limine.Lib
