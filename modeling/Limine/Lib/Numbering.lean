import Mathlib.Data.List.Count
import Mathlib.Data.List.Induction

/-!
# Numbering repeated names

The first item of a name keeps it; the `k`-th is renamed to `tag name k`.  A tag that tells names
and numbers apart leaves one way for two items to share their new name: a tagged name that is also
somebody's own (`numbered_injective_iff`).
-/

namespace Limine.Lib

variable {α : Type} [BEq α] [LawfulBEq α]

/-- The items before number `i` that have its name. -/
def occurrence (names : List α) (i : Nat) (h : i < names.length) : Nat :=
  (names.take i).count (names.get ⟨i, h⟩)

/-- The new name of item `i`. -/
def numbered (tag : α → Nat → α) (names : List α) (i : Nat) (h : i < names.length) : α :=
  if occurrence names i h = 0 then names.get ⟨i, h⟩
  else tag (names.get ⟨i, h⟩) (occurrence names i h + 1)

theorem occurrence_lt_count (names : List α) (i : Nat) (h : i < names.length) :
    occurrence names i h < names.count (names.get ⟨i, h⟩) := by
  have hsplit : names.take (i + 1) = names.take i ++ [names.get ⟨i, h⟩] := by simp
  have hle := (List.take_sublist (i + 1) names).count_le (names.get ⟨i, h⟩)
  rw [hsplit, List.count_append, List.count_singleton_self] at hle
  exact hle

theorem occurrence_lt {names : List α} {i j : Nat} (hi : i < names.length) (hj : j < names.length)
    (hij : i < j) (h : names.get ⟨i, hi⟩ = names.get ⟨j, hj⟩) :
    occurrence names i hi < occurrence names j hj := by
  have hsplit : names.take (i + 1) = names.take i ++ [names.get ⟨i, hi⟩] := by simp
  have hsub : (names.take (i + 1)).Sublist (names.take j) :=
    (List.take_prefix_take_left (by omega)).sublist
  have hle := hsub.count_le (names.get ⟨i, hi⟩)
  rw [hsplit, List.count_append, List.count_singleton_self] at hle
  show (names.take i).count _ < (names.take j).count _
  rw [← h]
  exact hle

/-- Every number up to the count is some item's. -/
theorem exists_occurrence (names : List α) (a : α) : ∀ k, k < names.count a →
    ∃ i h, names.get ⟨i, h⟩ = a ∧ occurrence names i h = k := by
  induction names using List.reverseRecOn with
  | nil => simp
  | append_singleton names b ih =>
    intro k hk
    rw [List.count_append] at hk
    by_cases hlt : k < names.count a
    · obtain ⟨i, h, hget, hocc⟩ := ih k hlt
      have h' : i < (names ++ [b]).length := by
        rw [List.length_append]
        omega
      have hget' : (names ++ [b]).get ⟨i, h'⟩ = a := by
        rw [← hget]
        simp [List.getElem_append_left h]
      refine ⟨i, h', hget', ?_⟩
      rw [occurrence, hget', List.take_append_of_le_length (by omega), ← hocc, occurrence, hget]
    · have hb : b = a := by
        by_contra hne
        rw [List.count_singleton, if_neg (by simpa using hne)] at hk
        omega
      subst hb
      rw [List.count_singleton_self] at hk
      have h' : names.length < (names ++ [b]).length := by simp
      refine ⟨names.length, h', by simp, ?_⟩
      rw [occurrence]
      simp
      omega

theorem numbered_ne {tag : α → Nat → α} (hinj : ∀ a b m n, tag a m = tag b n → a = b ∧ m = n)
    {names : List α} (hclash : ∀ a n, 2 ≤ n → n ≤ names.count a → tag a n ∉ names) {i j : Nat}
    (hi : i < names.length) (hj : j < names.length) (hij : i < j) :
    numbered tag names i hi ≠ numbered tag names j hj := by
  have hci := occurrence_lt_count names i hi
  have hcj := occurrence_lt_count names j hj
  intro heq
  rw [numbered, numbered] at heq
  split at heq
  · next h0 =>
    split at heq
    · next h0' =>
      have := occurrence_lt hi hj hij heq
      omega
    · next h0' =>
      refine hclash _ (occurrence names j hj + 1) (by omega) hcj ?_
      rw [← heq]
      exact List.get_mem names ⟨i, hi⟩
  · next h0 =>
    split at heq
    · next h0' =>
      refine hclash _ (occurrence names i hi + 1) (by omega) hci ?_
      rw [heq]
      exact List.get_mem names ⟨j, hj⟩
    · next h0' =>
      obtain ⟨hget, hocc⟩ := hinj _ _ _ _ heq
      have := occurrence_lt hi hj hij hget
      omega

/-- **When the new names are distinct.** -/
theorem numbered_injective_iff {tag : α → Nat → α}
    (hinj : ∀ a b m n, tag a m = tag b n → a = b ∧ m = n) (names : List α) :
    (∀ i j hi hj, numbered tag names i hi = numbered tag names j hj → i = j) ↔
      ∀ a n, 2 ≤ n → n ≤ names.count a → tag a n ∉ names := by
  constructor
  · intro hdistinct a n h2 hn hmem
    obtain ⟨j, hj, hget, hocc⟩ := exists_occurrence names a (n - 1) (by omega)
    obtain ⟨i, hi, hget', hocc'⟩ :=
      exists_occurrence names (tag a n) 0 (List.count_pos_iff.mpr hmem)
    have hij : i = j := by
      apply hdistinct i j hi hj
      rw [numbered, numbered, if_pos hocc', if_neg (by omega), hget, hget', hocc]
      congr 1
      omega
    subst hij
    omega
  · intro hclash i j hi hj heq
    rcases Nat.lt_trichotomy i j with hij | hij | hij
    · exact absurd heq (numbered_ne hinj hclash hi hj hij)
    · exact hij
    · exact absurd heq.symm (numbered_ne hinj hclash hj hi hij)

end Limine.Lib
