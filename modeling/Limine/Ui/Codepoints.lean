import Limine.Lib.Bytes

/-!
# Text as code points

`next_codepoint` decodes UTF-8, one code point a call.  A text is its bytes with the NUL that ends them;
a read behind that is `none`.

    the calls up to the NUL end, and give back the code points of a text that is UTF-8    (codepoints_utf8)
    what is no UTF-8 starts with one of the kinds of `Malformed`                           (encoded_or_malformed)
-/

namespace Limine.Ui

open Limine.Lib

/-! ## The source -/

def questionMark : Nat := 63

/-- What the first byte says: `n`, `value` and `min`. -/
def leadByte (value : Nat) : Nat × Nat × Nat :=
  if value ≥ 0xc2 ∧ value ≤ 0xdf then (1, value &&& 0x1f, 0x80)
  else if value ≥ 0xe0 ∧ value ≤ 0xef then (2, value &&& 0x0f, 0x800)
  else if value ≥ 0xf0 ∧ value ≤ 0xf4 then (3, value &&& 7, 0x10000)
  else if value ≥ 0x80 ∨ value < 32 then (0, questionMark, 0)
  else (0, value, 0)

/-- The loop over the continuation bytes; no value where one is missing. -/
def continuation : Nat → Nat → List UInt8 → Option (Option Nat × List UInt8)
  | 0, value, p => some (some value, p)
  | _ + 1, _, [] => none
  | n + 1, value, b :: p =>
    if b &&& 0xc0 ≠ 0x80 then some (none, b :: p) else continuation n (value <<< 6 ||| (b &&& 0x3f).toNat) p

/-- The checks after the loop. -/
def checked (min : Nat) : Option Nat → Nat
  | none => questionMark
  | some value =>
    if value < min ∨ value > 0x10ffff ∨ (value ≥ 0xd800 ∧ value ≤ 0xdfff) then questionMark else value

/-- The code point, and the text behind it. -/
def nextCodepoint : List UInt8 → Option (Nat × List UInt8)
  | [] => none
  | b :: p =>
    (continuation (leadByte b.toNat).1 (leadByte b.toNat).2.1 p).map fun r => (checked (leadByte b.toNat).2.2 r.1, r.2)

theorem continuation_suffix : ∀ {n value : Nat} {p rest : List UInt8} {r : Option Nat},
    continuation n value p = some (r, rest) → rest <:+ p := by
  intro n
  induction n with
  | zero =>
    intro value p rest r h
    obtain ⟨-, rfl⟩ := Prod.mk.inj (Option.some.inj h)
    exact List.suffix_refl _
  | succ n ih =>
    intro value p rest r h
    cases p with
    | nil => cases h
    | cons b p =>
      rw [continuation] at h
      split at h
      · obtain ⟨-, rfl⟩ := Prod.mk.inj (Option.some.inj h)
        exact List.suffix_refl _
      · exact (ih h).trans (List.suffix_cons b p)

theorem nextCodepoint_length {text rest : List UInt8} {c : Nat} (h : nextCodepoint text = some (c, rest)) :
    rest.length < text.length := by
  cases text with
  | nil => cases h
  | cons b p =>
    obtain ⟨⟨r, rest'⟩, hrun, heq⟩ := Option.map_eq_some_iff.mp h
    obtain ⟨-, rfl⟩ := Prod.mk.inj heq
    exact Nat.lt_succ_of_le (continuation_suffix hrun).length_le

/-- The calls until the NUL. -/
def codepoints : List UInt8 → Option (List Nat)
  | [] => none
  | b :: p =>
    if b = 0 then some []
    else
      match _ : nextCodepoint (b :: p) with
      | none => none
      | some (c, rest) => (codepoints rest).map (c :: ·)
termination_by text => text.length
decreasing_by
  exact nextCodepoint_length ‹_›

/-! ## The bytes of a code point -/

/-- A continuation byte. -/
def IsTail (b : UInt8) : Prop := 0x80 ≤ b.toNat ∧ b.toNat ≤ 0xbf

instance (b : UInt8) : Decidable (IsTail b) := inferInstanceAs (Decidable (_ ∧ _))

/-- The continuation bytes of the low `6 * n` bits of `v`. -/
def tailBytes : Nat → Nat → List UInt8
  | 0, _ => []
  | n + 1, v => UInt8.ofNat (v / 64 ^ n % 64 + 0x80) :: tailBytes n v

/-- The form of `v` with `n` continuation bytes, whether it is the right one for `v` or not. -/
def form : Nat → Nat → List UInt8
  | 0, v => [UInt8.ofNat v]
  | 1, v => UInt8.ofNat (v / 64 % 0x20 + 0xc0) :: tailBytes 1 v
  | 2, v => UInt8.ofNat (v / 4096 % 0x10 + 0xe0) :: tailBytes 2 v
  | _, v => UInt8.ofNat (v / 262144 % 8 + 0xf0) :: tailBytes 3 v

/-- The continuation bytes that the code point needs. -/
def tails (v : Nat) : Nat := if v ≤ 0x7f then 0 else if v ≤ 0x7ff then 1 else if v ≤ 0xffff then 2 else 3

theorem utf8EncodeChar_eq (c : Char) : String.utf8EncodeChar c = form (tails c.toNat) c.toNat := by
  show String.utf8EncodeChar c = form (tails c.val.toNat) c.val.toNat
  unfold String.utf8EncodeChar tails
  dsimp only
  split
  · rfl
  · split
    · simp [form, tailBytes]
    · split <;> simp [form, tailBytes]

theorem tail_bits : ∀ b : UInt8, b &&& 0xc0 = 0x80 ↔ IsTail b :=
  forall_byte (by decide +kernel)

theorem tail_value : ∀ k < 64, IsTail (UInt8.ofNat (k + 0x80)) ∧ (UInt8.ofNat (k + 0x80) &&& 0x3f).toNat = k := by
  decide

theorem IsTail.eq_ofNat {b : UInt8} (h : IsTail b) : ∃ k < 64, b = UInt8.ofNat (k + 0x80) := by
  obtain ⟨hlow, hhigh⟩ := h
  refine ⟨b.toNat - 0x80, by omega, ?_⟩
  rw [Nat.sub_add_cancel hlow, UInt8.ofNat_toNat]

theorem continuation_tail {n value k : Nat} (hk : k < 64) (p : List UInt8) :
    continuation (n + 1) value (UInt8.ofNat (k + 0x80) :: p) = continuation n (value * 64 + k) p := by
  obtain ⟨htail, hvalue⟩ := tail_value k hk
  rw [continuation, if_neg (fun h => h ((tail_bits _).mpr htail)), hvalue, shiftLeft_or (k := 6) hk]
  rfl

theorem continuation_stop {n value : Nat} {b : UInt8} (hb : ¬IsTail b) (p : List UInt8) :
    continuation (n + 1) value (b :: p) = some (none, b :: p) := by
  rw [continuation, if_pos (mt (tail_bits b).mp hb)]

theorem continuation_tailBytes : ∀ (n value v : Nat) (p : List UInt8),
    continuation n value (tailBytes n v ++ p) = some (some (value * 64 ^ n + v % 64 ^ n), p) := by
  intro n
  induction n with
  | zero =>
    intro value v p
    simp [continuation, tailBytes, Nat.mod_one]
  | succ n ih =>
    intro value v p
    have hsplit : v % 64 ^ (n + 1) = v % 64 ^ n + 64 ^ n * (v / 64 ^ n % 64) := by
      rw [Nat.pow_succ, Nat.mod_mul]
    show continuation (n + 1) value (UInt8.ofNat (v / 64 ^ n % 64 + 0x80) :: (tailBytes n v ++ p)) = _
    rw [continuation_tail (Nat.mod_lt _ (by decide)), ih]
    congr 3
    rw [hsplit, Nat.pow_succ, Nat.add_mul, Nat.mul_assoc, Nat.mul_comm 64 (64 ^ n),
      Nat.mul_comm (v / 64 ^ n % 64) (64 ^ n)]
    omega

/-- The loop stops at a byte that is no continuation byte. -/
theorem continuation_front : ∀ {n value : Nat} {front : List UInt8} {next : UInt8} {p : List UInt8},
    front.length < n → (∀ b ∈ front, IsTail b) → ¬IsTail next →
    continuation n value (front ++ next :: p) = some (none, next :: p) := by
  intro n
  induction n with
  | zero =>
    intro _ _ _ _ hlt
    omega
  | succ n ih =>
    intro value front next p hlt htails hnext
    cases front with
    | nil => exact continuation_stop hnext p
    | cons b front =>
      obtain ⟨hb, hfront⟩ := List.forall_mem_cons.mp htails
      obtain ⟨k, hk, rfl⟩ := hb.eq_ofNat
      rw [List.cons_append, continuation_tail hk]
      exact ih (by simpa using hlt) hfront hnext

/-- What is above does not matter. -/
theorem tailBytes_add (k : Nat) : ∀ {m n v : Nat}, m ≤ n → tailBytes m (k * 64 ^ n + v) = tailBytes m v := by
  intro m
  induction m with
  | zero => intros; rfl
  | succ m ih =>
    intro n v hmn
    have hdigit : (k * 64 ^ n + v) / 64 ^ m % 64 = v / 64 ^ m % 64 := by
      obtain ⟨d, rfl⟩ := Nat.exists_eq_add_of_le hmn
      have hpow : k * 64 ^ (m + 1 + d) = 64 ^ m * (64 * (k * 64 ^ d)) := by
        rw [Nat.pow_add, Nat.pow_succ, Nat.mul_assoc (64 ^ m), ← Nat.mul_left_comm k, ← Nat.mul_left_comm k]
      rw [hpow, Nat.mul_add_div (Nat.pow_pos (by decide)), Nat.mul_add_mod]
    rw [tailBytes, tailBytes, hdigit, ih (by omega)]

/-- In a text that ends, either all continuation bytes are there or one is missing. -/
theorem tails_or_missing : ∀ (n : Nat) {p : List UInt8}, (∀ b ∈ p, b ≠ 0) →
    (∃ v rest, v < 64 ^ n ∧ p = tailBytes n v ++ rest) ∨
    ∃ front next rest, p ++ [0] = front ++ next :: rest ∧ front.length < n ∧ (∀ b ∈ front, IsTail b) ∧ ¬IsTail next := by
  intro n
  induction n with
  | zero =>
    intro p _
    exact Or.inl ⟨0, p, by decide, rfl⟩
  | succ n ih =>
    intro p hp
    cases p with
    | nil => exact Or.inr ⟨[], 0, [], rfl, Nat.succ_pos n, by simp, by decide⟩
    | cons b p =>
      by_cases hb : IsTail b
      · obtain ⟨k, hk, rfl⟩ := hb.eq_ofNat
        rcases ih (List.forall_mem_cons.mp hp).2 with ⟨v, rest, hv, rfl⟩ | ⟨front, next, rest, heq, hlt, htails, hnext⟩
        · refine Or.inl ⟨k * 64 ^ n + v, rest, ?_, ?_⟩
          · calc k * 64 ^ n + v < (k + 1) * 64 ^ n := by rw [Nat.succ_mul]; omega
              _ ≤ 64 * 64 ^ n := Nat.mul_le_mul_right _ hk
              _ = 64 ^ (n + 1) := by rw [Nat.pow_succ, Nat.mul_comm]
          · have hdiv : (k * 64 ^ n + v) / 64 ^ n % 64 = k := by
              rw [Nat.mul_comm, Nat.mul_add_div (Nat.pow_pos (by decide)), Nat.div_eq_of_lt hv, Nat.add_zero,
                Nat.mod_eq_of_lt hk]
            rw [tailBytes, hdiv, tailBytes_add k (Nat.le_refl n)]
            rfl
        · refine Or.inr ⟨UInt8.ofNat (k + 0x80) :: front, next, rest, ?_, ?_, ?_, hnext⟩
          · rw [List.cons_append, heq]
            rfl
          · simpa using hlt
          · exact List.forall_mem_cons.mpr ⟨hb, htails⟩
      · exact Or.inr ⟨[], b, p ++ [0], rfl, Nat.succ_pos n, by simp, hb⟩

/-! ## First bytes -/

/-- The least code point that `n` continuation bytes are for. -/
def minimum (n : Nat) : Nat := if n = 1 then 0x80 else if n = 2 then 0x800 else 0x10000

/-- The first byte without the bits of the code point. -/
def leadMark (n : Nat) : Nat := if n = 1 then 0xc0 else if n = 2 then 0xe0 else 0xf0

/-- The continuation bytes that a first byte asks for. -/
def expected (b : UInt8) : Nat := if b.toNat < 0xe0 then 1 else if b.toNat < 0xf0 then 2 else 3

theorem le_leadMark (n : Nat) : 0xc0 ≤ leadMark n := by
  unfold leadMark
  split
  · decide
  · split <;> decide

theorem leadByte_unused {l : Nat} (h : l < 32 ∨ (0x80 ≤ l ∧ l < 0xc2) ∨ 0xf5 ≤ l) :
    leadByte l = (0, questionMark, 0) := by
  unfold leadByte
  rw [if_neg (by omega), if_neg (by omega), if_neg (by omega), if_pos (by omega)]

theorem leadByte_ascii {l : Nat} (hlow : 32 ≤ l) (hhigh : l < 0x80) : leadByte l = (0, l, 0) := by
  unfold leadByte
  rw [if_neg (by omega), if_neg (by omega), if_neg (by omega), if_neg (by omega)]

theorem leadByte_lead {b : UInt8} (hlow : 0xc2 ≤ b.toNat) (hhigh : b.toNat ≤ 0xf4) :
    leadByte b.toNat = (expected b, b.toNat - leadMark (expected b), minimum (expected b)) := by
  have htwo : b.toNat &&& 0x1f = b.toNat % 32 := Nat.and_two_pow_sub_one_eq_mod _ 5
  have hthree : b.toNat &&& 0x0f = b.toNat % 16 := Nat.and_two_pow_sub_one_eq_mod _ 4
  have hfour : b.toNat &&& 7 = b.toNat % 8 := Nat.and_two_pow_sub_one_eq_mod _ 3
  unfold leadByte expected
  by_cases h2 : b.toNat < 0xe0
  · rw [if_pos (by omega), if_pos h2, htwo]
    simp only [leadMark, minimum, if_pos, Prod.mk.injEq, true_and, and_true]
    omega
  · by_cases h3 : b.toNat < 0xf0
    · rw [if_neg (by omega), if_pos (by omega), if_neg h2, if_pos h3, hthree]
      simp [leadMark, minimum]
      omega
    · rw [if_neg (by omega), if_neg (by omega), if_pos (by omega), if_neg h2, if_neg h3, hfour]
      simp [leadMark, minimum]
      omega

theorem nextCodepoint_unused {b : UInt8} (h : b.toNat < 32 ∨ (0x80 ≤ b.toNat ∧ b.toNat < 0xc2) ∨ 0xf5 ≤ b.toNat)
    (p : List UInt8) : nextCodepoint (b :: p) = some (questionMark, p) := by
  rw [nextCodepoint, leadByte_unused h]
  rfl

/-- A call at a first byte with all the bytes that it asks for. -/
theorem nextCodepoint_lead {b : UInt8} (hlow : 0xc2 ≤ b.toNat) (hhigh : b.toNat ≤ 0xf4) (v : Nat) (p : List UInt8) :
    nextCodepoint (b :: (tailBytes (expected b) v ++ p)) =
      some (checked (minimum (expected b))
        (some ((b.toNat - leadMark (expected b)) * 64 ^ expected b + v % 64 ^ expected b)), p) := by
  rw [nextCodepoint, leadByte_lead hlow hhigh]
  dsimp only
  rw [continuation_tailBytes]
  rfl

theorem toNat_ofNat_lead {x : Nat} (h : x < 256) : (UInt8.ofNat x).toNat = x := by
  rw [UInt8.toNat_ofNat']
  exact Nat.mod_eq_of_lt h

/-- What `n` continuation bytes and the bits of their first byte can say. -/
def capacity (n : Nat) : Nat := if n = 1 then 0x800 else if n = 2 then 0x10000 else 0x200000

/-- The form of a number that is not too large for it, from its first byte. -/
theorem form_eq {n v : Nat} (hn : n = 1 ∨ n = 2 ∨ n = 3) (hv : v < capacity n) : ∃ b : UInt8,
    form n v = b :: tailBytes n v ∧ b.toNat = leadMark n + v / 64 ^ n ∧ expected b = n := by
  obtain rfl | rfl | rfl := hn
  · have hv : v < 0x800 := hv
    have hb : (UInt8.ofNat (v / 64 % 0x20 + 0xc0)).toNat = 0xc0 + v / 64 := by
      rw [toNat_ofNat_lead (by omega)]
      omega
    refine ⟨_, rfl, hb, ?_⟩
    unfold expected
    rw [if_pos (by omega)]
  · have hv : v < 0x10000 := hv
    have hb : (UInt8.ofNat (v / 4096 % 0x10 + 0xe0)).toNat = 0xe0 + v / 4096 := by
      rw [toNat_ofNat_lead (by omega)]
      omega
    refine ⟨_, rfl, hb, ?_⟩
    unfold expected
    rw [if_neg (by omega), if_pos (by omega)]
  · have hv : v < 0x200000 := hv
    have hb : (UInt8.ofNat (v / 262144 % 8 + 0xf0)).toNat = 0xf0 + v / 262144 := by
      rw [toNat_ofNat_lead (by omega)]
      omega
    refine ⟨_, rfl, hb, ?_⟩
    unfold expected
    rw [if_neg (by omega), if_neg (by omega)]

theorem lead_range {n v : Nat} (hn : n = 1 ∨ n = 2 ∨ n = 3) (hmin : minimum n ≤ v) (hmax : v ≤ 0x10ffff)
    (hv : v < capacity n) : 0xc2 ≤ leadMark n + v / 64 ^ n ∧ leadMark n + v / 64 ^ n ≤ 0xf4 := by
  obtain rfl | rfl | rfl := hn
  · have hmin : 0x80 ≤ v := hmin
    have hv : v < 0x800 := hv
    show 0xc2 ≤ 0xc0 + v / 64 ∧ 0xc0 + v / 64 ≤ 0xf4
    omega
  · have hmin : 0x800 ≤ v := hmin
    have hv : v < 0x10000 := hv
    show 0xc2 ≤ 0xe0 + v / 4096 ∧ 0xe0 + v / 4096 ≤ 0xf4
    omega
  · show 0xc2 ≤ 0xf0 + v / 262144 ∧ 0xf0 + v / 262144 ≤ 0xf4
    omega

/-- A call at the form of a number: the number is checked, unless the first byte is none. -/
theorem nextCodepoint_form {n v : Nat} (hn : n = 1 ∨ n = 2 ∨ n = 3) (hv : v < capacity n) (p : List UInt8) :
    (v < minimum n ∨ 0x10ffff < v → ∃ rest, nextCodepoint (form n v ++ p) = some (questionMark, rest)) ∧
    (minimum n ≤ v → v ≤ 0x10ffff → nextCodepoint (form n v ++ p) = some (checked (minimum n) (some v), p)) := by
  obtain ⟨b, hform, hb, hexpected⟩ := form_eq hn hv
  have hvalue : (b.toNat - leadMark n) * 64 ^ n + v % 64 ^ n = v := by
    rw [hb, Nat.add_sub_cancel_left, Nat.mul_comm]
    exact Nat.div_add_mod v (64 ^ n)
  have hlead : 0xc2 ≤ b.toNat → b.toNat ≤ 0xf4 →
      nextCodepoint (form n v ++ p) = some (checked (minimum n) (some v), p) := by
    intro hlow hhigh
    have hcall := nextCodepoint_lead hlow hhigh v p
    rw [hexpected, hvalue] at hcall
    rw [hform]
    exact hcall
  constructor
  · intro hbad
    by_cases hunused : b.toNat < 0xc2 ∨ 0xf5 ≤ b.toNat
    · have hmark : 0xc0 ≤ b.toNat := by
        rw [hb]
        exact Nat.le_trans (le_leadMark n) (Nat.le_add_right _ _)
      rw [hform]
      exact ⟨_, nextCodepoint_unused (by omega) _⟩
    · refine ⟨p, ?_⟩
      rw [hlead (by omega) (by omega)]
      rw [checked, if_pos (by omega)]
  · intro hmin hmax
    have hrange := lead_range hn hmin hmax hv
    rw [← hb] at hrange
    exact hlead hrange.1 hrange.2

/-! ## Text that is UTF-8 -/

theorem Char.valid_toNat (c : Char) : c.toNat < 0xd800 ∨ (0xdfff < c.toNat ∧ c.toNat ≤ 0x10ffff) := by
  rcases c.valid with hlow | ⟨hgap, hhigh⟩
  · exact Or.inl hlow
  · exact Or.inr ⟨hgap, Nat.le_of_lt_succ hhigh⟩

/-- `n` continuation bytes are for the numbers from `minimum n` on that fit. -/
theorem tails_spec {v : Nat} (hascii : ¬v ≤ 0x7f) (hmax : v ≤ 0x10ffff) :
    (tails v = 1 ∨ tails v = 2 ∨ tails v = 3) ∧ minimum (tails v) ≤ v ∧ v < capacity (tails v) := by
  unfold tails
  rw [if_neg hascii]
  split
  · exact ⟨Or.inl rfl, by show 0x80 ≤ v; omega, by show v < 0x800; omega⟩
  · split
    · exact ⟨Or.inr (Or.inl rfl), by show 0x800 ≤ v; omega, by show v < 0x10000; omega⟩
    · exact ⟨Or.inr (Or.inr rfl), by show 0x10000 ≤ v; omega, by show v < 0x200000; omega⟩

/-- The code point is read back. -/
theorem nextCodepoint_encoded (c : Char) (hc : 32 ≤ c.toNat) (p : List UInt8) :
    nextCodepoint (String.utf8EncodeChar c ++ p) = some (c.toNat, p) := by
  have hvalid := Char.valid_toNat c
  rw [utf8EncodeChar_eq]
  generalize c.toNat = v at *
  by_cases hascii : v ≤ 0x7f
  · have htails : tails v = 0 := if_pos hascii
    have hb : (UInt8.ofNat v).toNat = v := toNat_ofNat_lead (by omega)
    rw [htails]
    show nextCodepoint (UInt8.ofNat v :: p) = _
    rw [nextCodepoint, hb, leadByte_ascii hc (by omega)]
    show some (checked 0 (some v), p) = some (v, p)
    rw [checked, if_neg (by omega)]
  · obtain ⟨hn, hmin, hcapacity⟩ := tails_spec hascii (by omega)
    rw [(nextCodepoint_form hn hcapacity p).2 hmin (by omega)]
    rw [checked, if_neg (by omega)]

theorem encoded_cons (c : Char) (hc : 32 ≤ c.toNat) : ∃ b p, String.utf8EncodeChar c = b :: p ∧ b ≠ 0 := by
  have hvalid := Char.valid_toNat c
  rw [utf8EncodeChar_eq]
  generalize c.toNat = v at *
  by_cases hascii : v ≤ 0x7f
  · have htails : tails v = 0 := if_pos hascii
    rw [htails]
    refine ⟨UInt8.ofNat v, [], rfl, fun h => ?_⟩
    have hb : (UInt8.ofNat v).toNat = v := toNat_ofNat_lead (by omega)
    rw [h] at hb
    have hzero : (0 : UInt8).toNat = 0 := rfl
    omega
  · obtain ⟨hn, -, hcapacity⟩ := tails_spec hascii (by omega)
    obtain ⟨b, hform, hb, -⟩ := form_eq hn hcapacity
    refine ⟨b, _, hform, fun h => ?_⟩
    have hmark := Nat.le_trans (le_leadMark (tails v)) (Nat.le_add_right _ (v / 64 ^ tails v))
    rw [← hb, h] at hmark
    exact absurd hmark (by decide)

/-- One turn of the calls. -/
theorem codepoints_cons {b : UInt8} {p rest : List UInt8} {c : Nat} (hb : b ≠ 0)
    (h : nextCodepoint (b :: p) = some (c, rest)) : codepoints (b :: p) = (codepoints rest).map (c :: ·) := by
  rw [codepoints, if_neg hb]
  split
  · next hnone =>
    rw [h] at hnone
    cases hnone
  · next c' rest' hsome =>
    rw [h] at hsome
    obtain ⟨rfl, rfl⟩ := Prod.mk.inj (Option.some.inj hsome)
    rfl

theorem codepoints_nul (p : List UInt8) : codepoints (0 :: p) = some [] := by
  rw [codepoints, if_pos rfl]

theorem codepoints_encoded : ∀ cs : List Char, (∀ c ∈ cs, 32 ≤ c.toNat) →
    codepoints (cs.flatMap String.utf8EncodeChar ++ [0]) = some (cs.map Char.toNat) := by
  intro cs
  induction cs with
  | nil => exact fun _ => codepoints_nul []
  | cons c cs ih =>
    intro hcs
    obtain ⟨hc, hcs⟩ := List.forall_mem_cons.mp hcs
    obtain ⟨b, p, hencoded, hb⟩ := encoded_cons c hc
    have hcall := nextCodepoint_encoded c hc (cs.flatMap String.utf8EncodeChar ++ [0])
    rw [List.flatMap_cons, List.append_assoc]
    rw [hencoded, List.cons_append] at hcall ⊢
    rw [codepoints_cons hb hcall, ih hcs]
    rfl

/-! ## Every text -/

/-- The loop reads no further than the NUL. -/
theorem continuation_text : ∀ {n value : Nat} {p : List UInt8}, (∀ b ∈ p, b ≠ 0) →
    ∃ r rest, continuation n value (p ++ [0]) = some (r, rest ++ [0]) ∧ rest <:+ p := by
  intro n
  induction n with
  | zero => exact fun {value p} _ => ⟨some value, p, rfl, List.suffix_refl p⟩
  | succ n ih =>
    intro value p hp
    cases p with
    | nil => exact ⟨none, [], continuation_stop (by decide) [], List.suffix_refl []⟩
    | cons b p =>
      by_cases hb : IsTail b
      · obtain ⟨k, hk, rfl⟩ := hb.eq_ofNat
        obtain ⟨r, rest, hrun, hsuffix⟩ := @ih (value * 64 + k) p (List.forall_mem_cons.mp hp).2
        refine ⟨r, rest, ?_, hsuffix.trans (List.suffix_cons _ p)⟩
        rw [List.cons_append, continuation_tail hk]
        exact hrun
      · exact ⟨none, b :: p, continuation_stop hb (p ++ [0]), List.suffix_refl _⟩

/-- A call takes some of the text, and not the NUL. -/
theorem nextCodepoint_text {b : UInt8} {p : List UInt8} (hp : ∀ b ∈ p, b ≠ 0) :
    ∃ c taken rest, b :: p = taken ++ rest ∧ taken ≠ [] ∧ nextCodepoint (b :: p ++ [0]) = some (c, rest ++ [0]) := by
  obtain ⟨r, rest, hrun, taken, rfl⟩ :=
    @continuation_text (leadByte b.toNat).1 (leadByte b.toNat).2.1 p hp
  refine ⟨checked (leadByte b.toNat).2.2 r, b :: taken, rest, rfl, List.cons_ne_nil _ _, ?_⟩
  rw [List.cons_append, nextCodepoint, hrun]
  rfl

theorem codepoints_text (text : List UInt8) (htext : ∀ b ∈ text, b ≠ 0) :
    ∃ cs, codepoints (text ++ [0]) = some cs := by
  induction hlength : text.length using Nat.strongRecOn generalizing text with
  | ind n ih =>
    cases text with
    | nil => exact ⟨[], codepoints_nul []⟩
    | cons b p =>
      obtain ⟨hb, hp⟩ := List.forall_mem_cons.mp htext
      obtain ⟨c, taken, rest, heq, htaken, hcall⟩ := nextCodepoint_text (b := b) hp
      have hshorter : rest.length < n := by
        have hpos := List.length_pos_iff.mpr htaken
        rw [heq, List.length_append] at hlength
        omega
      have hrest : ∀ b ∈ rest, b ≠ 0 := by
        intro b' hb'
        apply htext
        rw [heq]
        exact List.mem_append_right taken hb'
      obtain ⟨cs, hcs⟩ := ih rest.length hshorter rest hrest rfl
      refine ⟨c :: cs, ?_⟩
      rw [List.cons_append] at hcall ⊢
      rw [codepoints_cons hb hcall, hcs]
      rfl

/-! ## Text that is not -/

/-- The kinds of malformed text, up to the NUL. -/
inductive Malformed : List UInt8 → Prop
  | overlong {n v : Nat} {rest : List UInt8} (hn : n = 1 ∨ n = 2 ∨ n = 3) (hv : v < minimum n) : Malformed (form n v ++ rest)
  | surrogate {v : Nat} {rest : List UInt8} (hlow : 0xd800 ≤ v) (hhigh : v ≤ 0xdfff) : Malformed (form 2 v ++ rest)
  | aboveUnicode {v : Nat} {rest : List UInt8} (hlow : 0x10ffff < v) (hhigh : v < 0x200000) : Malformed (form 3 v ++ rest)
  | noLead {b : UInt8} {rest : List UInt8} (hb : 0xf8 ≤ b.toNat) : Malformed (b :: rest)
  | stray {b : UInt8} {rest : List UInt8} (hb : IsTail b) : Malformed (b :: rest)
  | truncated {b next : UInt8} {front rest : List UInt8} (hlow : 0xc0 ≤ b.toNat) (hhigh : b.toNat ≤ 0xf7)
      (hmissing : front.length < expected b) (hfront : ∀ c ∈ front, IsTail c) (hnext : ¬IsTail next) :
      Malformed (b :: (front ++ next :: rest))

theorem minimum_le_capacity {n : Nat} (hn : n = 1 ∨ n = 2 ∨ n = 3) : minimum n ≤ capacity n := by
  obtain rfl | rfl | rfl := hn <;> decide

theorem nextCodepoint_malformed {text : List UInt8} (h : Malformed text) :
    ∃ rest, nextCodepoint text = some (questionMark, rest) := by
  cases h with
  | @overlong n v rest hn hv =>
    exact (nextCodepoint_form hn (Nat.lt_of_lt_of_le hv (minimum_le_capacity hn)) rest).1 (Or.inl hv)
  | @surrogate v rest hlow hhigh =>
    refine ⟨rest, ?_⟩
    rw [(nextCodepoint_form (n := 2) (by decide) (by show v < 0x10000; omega) rest).2
      (by show 0x800 ≤ v; omega) (by omega)]
    rw [checked, if_pos (by omega)]
  | @aboveUnicode v rest hlow hhigh =>
    exact (nextCodepoint_form (n := 3) (by decide) hhigh rest).1 (Or.inr hlow)
  | @noLead b rest hb => exact ⟨rest, nextCodepoint_unused (by omega) rest⟩
  | @stray b rest hb => exact ⟨rest, nextCodepoint_unused (by unfold IsTail at hb; omega) rest⟩
  | @truncated b next front rest hlow hhigh hmissing hfront hnext =>
    by_cases hunused : b.toNat < 0xc2 ∨ 0xf5 ≤ b.toNat
    · exact ⟨_, nextCodepoint_unused (by omega) _⟩
    · refine ⟨next :: rest, ?_⟩
      rw [nextCodepoint, leadByte_lead (by omega) (by omega)]
      dsimp only
      rw [continuation_front hmissing hfront hnext]
      rfl

theorem Malformed.append {text : List UInt8} (h : Malformed text) (rest : List UInt8) : Malformed (text ++ rest) := by
  cases h with
  | overlong hn hv =>
    rw [List.append_assoc]
    exact .overlong hn hv
  | surrogate hlow hhigh =>
    rw [List.append_assoc]
    exact .surrogate hlow hhigh
  | aboveUnicode hlow hhigh =>
    rw [List.append_assoc]
    exact .aboveUnicode hlow hhigh
  | noLead hb => exact .noLead hb
  | stray hb => exact .stray hb
  | truncated hlow hhigh hmissing hfront hnext =>
    rw [List.cons_append, List.append_assoc]
    exact .truncated hlow hhigh hmissing hfront hnext

theorem expected_cases (b : UInt8) : expected b = 1 ∨ expected b = 2 ∨ expected b = 3 := by
  unfold expected
  split
  · exact Or.inl rfl
  · split
    · exact Or.inr (Or.inl rfl)
    · exact Or.inr (Or.inr rfl)

/-- A first byte with its continuation bytes is a form. -/
theorem form_of_lead {b : UInt8} (hlow : 0xc0 ≤ b.toNat) (hhigh : b.toNat ≤ 0xf7) {v : Nat} (hv : v < 64 ^ expected b) :
    ∃ value < capacity (expected b), b :: tailBytes (expected b) v = form (expected b) value := by
  have hbits : b.toNat - leadMark (expected b) + leadMark (expected b) = b.toNat ∧
      ((b.toNat - leadMark (expected b)) * 64 ^ expected b + v < capacity (expected b)) := by
    unfold expected at hv ⊢
    by_cases h2 : b.toNat < 0xe0
    · rw [if_pos h2] at hv ⊢
      show b.toNat - 0xc0 + 0xc0 = b.toNat ∧ (b.toNat - 0xc0) * 64 + v < 0x800
      omega
    · rw [if_neg h2] at hv ⊢
      by_cases h3 : b.toNat < 0xf0
      · rw [if_pos h3] at hv ⊢
        show b.toNat - 0xe0 + 0xe0 = b.toNat ∧ (b.toNat - 0xe0) * 4096 + v < 0x10000
        omega
      · rw [if_neg h3] at hv ⊢
        show b.toNat - 0xf0 + 0xf0 = b.toNat ∧ (b.toNat - 0xf0) * 262144 + v < 0x200000
        omega
  obtain ⟨hlead, hcapacity⟩ := hbits
  refine ⟨_, hcapacity, ?_⟩
  obtain ⟨b', hform, hb', -⟩ := form_eq (expected_cases b) hcapacity
  have hdiv : ((b.toNat - leadMark (expected b)) * 64 ^ expected b + v) / 64 ^ expected b =
      b.toNat - leadMark (expected b) := by
    rw [Nat.mul_comm, Nat.mul_add_div (Nat.pow_pos (by decide)), Nat.div_eq_of_lt hv, Nat.add_zero]
  rw [hdiv, Nat.add_comm, hlead] at hb'
  rw [hform, tailBytes_add _ (Nat.le_refl _), UInt8.toNat_inj.mp hb']

theorem exists_char {v : Nat} (h : v.isValidChar) : ∃ c : Char, c.toNat = v := ⟨Char.ofNatAux v h, rfl⟩

theorem tails_eq {n v : Nat} (hn : n = 1 ∨ n = 2 ∨ n = 3) (hmin : minimum n ≤ v) (hv : v < capacity n) : tails v = n := by
  unfold tails
  obtain rfl | rfl | rfl := hn
  · have hmin : 0x80 ≤ v := hmin
    have hv : v < 0x800 := hv
    rw [if_neg (by omega), if_pos (by omega)]
  · have hmin : 0x800 ≤ v := hmin
    have hv : v < 0x10000 := hv
    rw [if_neg (by omega), if_neg (by omega), if_pos (by omega)]
  · have hmin : 0x10000 ≤ v := hmin
    rw [if_neg (by omega), if_neg (by omega), if_neg (by omega)]

/-- The form of a number is the encoding of a character, or malformed. -/
theorem form_encoded_or_malformed {n v : Nat} (hn : n = 1 ∨ n = 2 ∨ n = 3) (hv : v < capacity n) (rest : List UInt8) :
    (∃ c : Char, 32 ≤ c.toNat ∧ form n v ++ rest = String.utf8EncodeChar c ++ rest) ∨ Malformed (form n v ++ rest) := by
  by_cases hover : v < minimum n
  · exact Or.inr (.overlong hn hover)
  · have htails := tails_eq hn (by omega) hv
    by_cases habove : 0x10ffff < v
    · obtain rfl | rfl | rfl := hn
      · exact absurd hv (by show ¬v < 0x800; omega)
      · exact absurd hv (by show ¬v < 0x10000; omega)
      · exact Or.inr (.aboveUnicode habove hv)
    · by_cases hsurrogate : 0xd800 ≤ v ∧ v ≤ 0xdfff
      · have hn : n = 2 := by
          rw [← htails]
          unfold tails
          rw [if_neg (by omega), if_neg (by omega), if_pos (by omega)]
        subst hn
        exact Or.inr (.surrogate hsurrogate.1 hsurrogate.2)
      · obtain ⟨c, hc⟩ := exists_char (v := v) (by unfold Nat.isValidChar; omega)
        refine Or.inl ⟨c, ?_, ?_⟩
        · have hmin : 0x80 ≤ minimum n := by obtain rfl | rfl | rfl := hn <;> decide
          omega
        · rw [utf8EncodeChar_eq, hc, htails]

/-- Text that is neither the start of UTF-8 nor a control byte is malformed in one of these ways. -/
theorem encoded_or_malformed {b : UInt8} {p : List UInt8} (hb : 32 ≤ b.toNat) (hp : ∀ b ∈ p, b ≠ 0) :
    (∃ (c : Char) (rest : List UInt8), 32 ≤ c.toNat ∧ b :: p ++ [0] = String.utf8EncodeChar c ++ rest) ∨
      Malformed (b :: p ++ [0]) := by
  by_cases hascii : b.toNat < 0x80
  · obtain ⟨c, hc⟩ := exists_char (v := b.toNat) (Or.inl (by omega))
    refine Or.inl ⟨c, p ++ [0], by omega, ?_⟩
    rw [utf8EncodeChar_eq, hc, tails, if_pos (by omega)]
    show b :: (p ++ [0]) = UInt8.ofNat b.toNat :: (p ++ [0])
    rw [UInt8.ofNat_toNat]
  · by_cases hstray : b.toNat ≤ 0xbf
    · exact Or.inr (.stray ⟨by omega, hstray⟩)
    · by_cases hnone : 0xf8 ≤ b.toNat
      · exact Or.inr (.noLead hnone)
      · rcases tails_or_missing (expected b) hp with ⟨v, rest, hv, rfl⟩ | ⟨front, next, rest, heq, hmissing, hfront, hnext⟩
        · obtain ⟨value, hcapacity, hform⟩ := form_of_lead (b := b) (by omega) (by omega) hv
          rw [← List.cons_append, hform, List.append_assoc]
          rcases form_encoded_or_malformed (expected_cases b) hcapacity (rest ++ [0]) with ⟨c, hc, heq⟩ | hbad
          · exact Or.inl ⟨c, rest ++ [0], hc, heq⟩
          · exact Or.inr hbad
        · rw [List.cons_append, heq]
          exact Or.inr (.truncated (by omega) (by omega) hmissing hfront hnext)

/-- `next_codepoint` over a whole text. -/
theorem codepoints_utf8 :
    (∀ text : List UInt8, (∀ b ∈ text, b ≠ 0) → ∃ cs, codepoints (text ++ [0]) = some cs) ∧
    (∀ text : List UInt8, (∀ b ∈ text, b ≠ 0) → text ≠ [] → ∃ c taken rest, text = taken ++ rest ∧ taken ≠ [] ∧
      nextCodepoint (text ++ [0]) = some (c, rest ++ [0])) ∧
    (∀ cs : List Char, (∀ c ∈ cs, 32 ≤ c.toNat) →
      codepoints (cs.flatMap String.utf8EncodeChar ++ [0]) = some (cs.map Char.toNat)) ∧
    (∀ text : List UInt8, Malformed text → ∃ rest, nextCodepoint text = some (questionMark, rest)) := by
  refine ⟨codepoints_text, fun text htext hne => ?_, codepoints_encoded, fun _ => nextCodepoint_malformed⟩
  obtain ⟨b, p, rfl⟩ := List.exists_cons_of_ne_nil hne
  exact nextCodepoint_text (List.forall_mem_cons.mp htext).2

/-- A cut sequence stops at the letter behind it. -/
example : nextCodepoint [0xe2, 0x82, 0x41, 0] = some (questionMark, [0x41, 0]) := by decide

/-! ## The width of a text -/

structure UiGlyph where
  index : Nat
  advance : Int
deriving DecidableEq, Repr

section
variable (glyph : Nat → Option UiGlyph) (kerning : Nat → Nat → Int) (tracking : Int)

/-- The loop of `ui_text_width`, up to a glyph that the font does not have: how many code points it took, and
`advance`. -/
def textAdvance : Nat → List UInt8 → Nat → Nat → Int → Option (Nat × Int)
  | 0, _, count, _, advance => some (count, advance)
  | _ + 1, [], _, _, _ => none
  | fuel + 1, b :: p, count, previous, advance =>
    if b = 0 then some (count, advance)
    else
      match nextCodepoint (b :: p) with
      | none => none
      | some (c, rest) =>
        match glyph c with
        | none => some (count + 1, advance)
        | some g =>
          textAdvance fuel rest (count + 1) g.index (advance + (kerning previous g.index + g.advance + tracking))

/-- The width in pixels; the advances are in 64ths of one. -/
def pixels (tracking : Int) (r : Nat × Int) : Int := ((if r.1 ≠ 0 then r.2 - tracking else r.2) + 32).tdiv 64

def uiTextWidth (text : List UInt8) : Option Int :=
  (textAdvance glyph kerning tracking 4096 text 0 0 0).map (pixels tracking)

/-- The advance of code points. -/
def advanceOf : List Nat → Nat → Nat → Int → Nat × Int
  | [], count, _, advance => (count, advance)
  | c :: cs, count, previous, advance =>
    match glyph c with
    | none => (count + 1, advance)
    | some g => advanceOf cs (count + 1) g.index (advance + (kerning previous g.index + g.advance + tracking))

theorem textAdvance_eq : ∀ (fuel : Nat) {text : List UInt8} {cs : List Nat} (count previous : Nat) (advance : Int),
    codepoints text = some cs → textAdvance glyph kerning tracking fuel text count previous advance =
      some (advanceOf glyph kerning tracking (cs.take fuel) count previous advance) := by
  intro fuel
  induction fuel with
  | zero => exact fun _ _ _ _ => rfl
  | succ fuel ih =>
    intro text cs count previous advance htext
    cases text with
    | nil =>
      rw [codepoints] at htext
      cases htext
    | cons b p =>
      rw [textAdvance]
      by_cases hb : b = 0
      · subst hb
        rw [codepoints_nul] at htext
        cases htext
        rw [if_pos rfl]
        rfl
      · rw [if_neg hb]
        cases hcall : nextCodepoint (b :: p) with
        | none =>
          rw [codepoints, if_neg hb] at htext
          split at htext
          · cases htext
          · next hsome =>
            rw [hcall] at hsome
            cases hsome
        | some r =>
          rw [codepoints_cons hb hcall] at htext
          obtain ⟨cs, hrest, rfl⟩ := Option.map_eq_some_iff.mp htext
          dsimp only
          rw [List.take_succ_cons, advanceOf]
          cases glyph r.1 with
          | none => rfl
          | some g => exact ih _ _ _ hrest

/-- The width of a text is that of its first 4096 code points. -/
theorem uiTextWidth_eq {text : List UInt8} {cs : List Nat} (h : codepoints text = some cs) :
    uiTextWidth glyph kerning tracking text =
      some (pixels tracking (advanceOf glyph kerning tracking (cs.take 4096) 0 0 0)) := by
  unfold uiTextWidth
  rw [textAdvance_eq glyph kerning tracking 4096 0 0 0 h]
  rfl

end

end Limine.Ui
