import Mathlib.Data.List.DropRight

/-!
# Strings in a buffer

A pointer into a buffer stands for the bytes from there up to the next NUL.  A string that the buffer holds is
held as long as nobody writes to its bytes or its NUL; a NUL that is written into it cuts it in two.
-/

namespace Limine.Lib

/-- The string at a pointer. -/
def cstring (data : List UInt8) (p : Nat) : List UInt8 := (data.drop p).takeWhile fun b => b ≠ 0

structure HoldsString (data : List UInt8) (p : Nat) (str : List UInt8) : Prop where
  bytes : ∀ k, k < str.length → data[p + k]? = str[k]?
  ends : data[p + str.length]? = some 0
  no_nul : ∀ c ∈ str, c ≠ 0

/-- The two buffers agree but for the bytes from `lo` up to `hi`. -/
def UnchangedOutside (data data' : List UInt8) (lo hi : Nat) : Prop := ∀ i, i < lo ∨ hi ≤ i → data'[i]? = data[i]?

namespace UnchangedOutside
variable {data data' data'' : List UInt8} {lo hi : Nat}

theorem refl (data : List UInt8) (lo hi : Nat) : UnchangedOutside data data lo hi := fun _ _ => rfl

theorem trans (h : UnchangedOutside data data' lo hi) (h' : UnchangedOutside data' data'' lo hi) :
    UnchangedOutside data data'' lo hi := fun i hi => (h' i hi).trans (h i hi)

theorem mono {lo' hi' : Nat} (h : UnchangedOutside data data' lo hi) (hlo : lo' ≤ lo) (hhi : hi ≤ hi') :
    UnchangedOutside data data' lo' hi' := by
  intro i hi
  exact h i (by omega)

theorem set {i : Nat} (c : UInt8) (hlo : lo ≤ i) (hhi : i < hi) : UnchangedOutside data (data.set i c) lo hi := by
  intro j hj
  rw [List.getElem?_set_ne (by omega)]

end UnchangedOutside

namespace HoldsString
variable {data data' : List UInt8} {p : Nat} {str : List UInt8}

theorem lt (h : HoldsString data p str) : p + str.length < data.length := (List.getElem?_eq_some_iff.mp h.ends).1

theorem drop_eq (h : HoldsString data p str) : data.drop p = str ++ 0 :: data.drop (p + str.length + 1) := by
  apply List.ext_getElem?
  intro k
  rw [List.getElem?_drop]
  rcases Nat.lt_trichotomy k str.length with hlt | heq | hgt
  · rw [List.getElem?_append_left hlt, h.bytes k hlt]
  · subst heq
    rw [List.getElem?_append_right (Nat.le_refl _), Nat.sub_self, h.ends]
    rfl
  · obtain ⟨d, rfl⟩ := Nat.exists_eq_add_of_lt hgt
    rw [List.getElem?_append_right (by omega)]
    have hindex : str.length + d + 1 - str.length = d + 1 := by omega
    rw [hindex, List.getElem?_cons_succ, List.getElem?_drop]
    congr 1
    omega

theorem cstring_eq (h : HoldsString data p str) : cstring data p = str := by
  unfold cstring
  rw [h.drop_eq, List.takeWhile_append_of_pos (by simpa using h.no_nul)]
  simp

/-- A text with a NUL behind it. -/
theorem of_text {text : List UInt8} (rest : List UInt8) (h : ∀ c ∈ text, c ≠ 0) :
    HoldsString (text ++ 0 :: rest) 0 text where
  bytes := by
    intro k hk
    rw [Nat.zero_add, List.getElem?_append_left hk]
  ends := by
    rw [Nat.zero_add, List.getElem?_append_right (Nat.le_refl _), Nat.sub_self]
    rfl
  no_nul := h

/-- Nobody wrote to the string. -/
theorem frame {lo hi : Nat} (h : HoldsString data p str) (hsame : UnchangedOutside data data' lo hi)
    (hout : p + str.length < lo ∨ hi ≤ p) : HoldsString data' p str where
  bytes := by
    intro k hk
    rw [hsame _ (by omega), h.bytes k hk]
  ends := by
    rw [hsame _ (by omega), h.ends]
  no_nul := h.no_nul

theorem drop {n : Nat} (h : HoldsString data p str) (hn : n ≤ str.length) : HoldsString data (p + n) (str.drop n) where
  bytes := by
    intro k hk
    rw [List.length_drop] at hk
    rw [List.getElem?_drop, Nat.add_assoc, h.bytes (n + k) (by omega)]
  ends := by
    have heq : p + n + (str.length - n) = p + str.length := by omega
    rw [List.length_drop, heq, h.ends]
  no_nul := by
    intro c hc
    exact h.no_nul c (List.mem_of_mem_drop hc)

/-- What is in front of a NUL that is written into the string. -/
theorem take {n : Nat} (h : HoldsString data p str) (hn : n ≤ str.length) : HoldsString (data.set (p + n) 0) p (str.take n) where
  bytes := by
    intro k hk
    rw [List.length_take] at hk
    rw [List.getElem?_set_ne (by omega), List.getElem?_take_of_lt (by omega), h.bytes k (by omega)]
  ends := by
    have hlt := h.lt
    rw [List.length_take_of_le hn, List.getElem?_set_self (by omega)]
  no_nul := by
    intro c hc
    exact h.no_nul c (List.mem_of_mem_take hc)

/-- And what is behind it. -/
theorem drop_set {n : Nat} (h : HoldsString data p str) (hn : n < str.length) :
    HoldsString (data.set (p + n) 0) (p + n + 1) (str.drop (n + 1)) :=
  (h.drop hn).frame (UnchangedOutside.set 0 (Nat.le_refl _) (Nat.lt_succ_self _)) (Or.inr (Nat.le_refl _))

theorem head (h : HoldsString data p str) : data.getD p 0 = str.headD 0 := by
  rw [List.getD_eq_getElem?_getD]
  cases str with
  | nil =>
    rw [← Nat.add_zero p]
    exact congrArg (·.getD 0) h.ends
  | cons c str =>
    rw [← Nat.add_zero p, h.bytes 0 (Nat.zero_lt_succ _)]
    rfl

/-- The byte at a pointer is the NUL exactly where the string is empty. -/
theorem headD_eq_zero_iff (h : HoldsString data p str) : str.headD 0 = 0 ↔ str = [] := by
  cases str with
  | nil => simp
  | cons c str => simpa using h.no_nul c List.mem_cons_self

theorem getD {k : Nat} (h : HoldsString data p str) (hk : k < str.length) : data.getD (p + k) 0 = str.getD k 0 := by
  rw [List.getD_eq_getElem?_getD, List.getD_eq_getElem?_getD, h.bytes k hk]

end HoldsString

end Limine.Lib
