import Limine.Limlz.Sync
import Mathlib.Data.Nat.Bitwise

/-!
# Numbers, lengths, distances and literals

Each function of the encoder is read back by one of the decoder.
-/

namespace Limine.Limlz

open Lib RangeEncoder

/-- What the encoder does as `f`, the decoder reads as `a`. -/
abbrev ReadBack {α : Type} (s : Stream) (f : RangeEncoder → RangeEncoder) (x : Decode α)
    (a : α) : Prop :=
  Codes encodeEvent (Ready s) f x a

variable {s : Stream}

/-! ## Bits in reverse -/

theorem mod_two_pow_succ (value bits : Nat) :
    value % 2 ^ (bits + 1) = value % 2 ^ bits + (value.testBit bits).toNat * 2 ^ bits := by
  rw [Nat.mod_pow_succ, Nat.toNat_testBit, Nat.mul_comm]

/-- The node a reverse tree is at after the lowest `bits` bits of the value. -/
def reversed (value : Nat) : Nat → Nat
  | 0 => 1
  | bits + 1 => reversed value bits * 2 + (value.testBit bits).toNat

theorem reversed_pos (value bits : Nat) : 1 ≤ reversed value bits := by
  induction bits with
  | zero => exact Nat.le_refl 1
  | succ bits ih =>
    rw [reversed]
    omega

theorem reverseValue_reversed (value bits : Nat) : ∀ fuel ecx, bits < fuel →
    reverseValue fuel (reversed value bits) ecx = .ok (ecx * 2 ^ bits + value % 2 ^ bits) := by
  induction bits with
  | zero =>
    intro fuel ecx h
    obtain ⟨fuel, rfl⟩ : ∃ n, fuel = n + 1 := ⟨fuel - 1, by omega⟩
    rw [reverseValue, reversed, if_pos (by decide), Nat.pow_zero, Nat.mod_one, Nat.mul_one,
      Nat.add_zero]
  | succ bits ih =>
    intro fuel ecx h
    obtain ⟨fuel, rfl⟩ : ∃ n, fuel = n + 1 := ⟨fuel - 1, by omega⟩
    have hbit : (value.testBit bits).toNat ≤ 1 := Bool.toNat_le _
    have hpos := reversed_pos value bits
    have hdiv : (reversed value bits * 2 + (value.testBit bits).toNat) / 2 =
        reversed value bits := by omega
    have hmod : (reversed value bits * 2 + (value.testBit bits).toNat) % 2 =
        (value.testBit bits).toNat := by omega
    rw [reverseValue, reversed, hdiv, hmod, if_neg (by omega), ih _ _ (by omega),
      mod_two_pow_succ, Nat.pow_succ', Nat.add_mul, Nat.add_mul]
    have hassoc : ecx * (2 * 2 ^ bits) = ecx * 2 ^ bits + ecx * 2 ^ bits := by
      rw [Nat.mul_left_comm, Nat.two_mul]
    rw [hassoc]
    congr 1
    omega

theorem or_two_pow {a k j : Nat} (h : a % 2 ^ k = 0) (hj : j < k) (b : Bool) :
    (if b then a ||| 2 ^ j else a) = a + b.toNat * 2 ^ j := by
  cases b with
  | false => simp
  | true =>
    have hlt : 2 ^ j < 2 ^ k := Nat.pow_lt_pow_right (by decide) hj
    obtain ⟨q, rfl⟩ := Nat.dvd_of_mod_eq_zero h
    show 2 ^ k * q ||| 2 ^ j = 2 ^ k * q + 1 * 2 ^ j
    rw [← Nat.two_pow_add_eq_or_of_lt hlt, Nat.one_mul]

/-! ## Slots -/

theorem slotBits_of_lt {v : Nat} (h : v < 4) (fuel : Nat) : slotBits fuel v = 0 := by
  cases fuel with
  | zero => rfl
  | succ fuel => exact if_neg (by omega)

/-- The slot's bits leave the two highest ones of the value. -/
theorem slotBits_spec (fuel : Nat) : ∀ v, 4 ≤ v → v < 2 ^ (fuel + 2) →
    1 ≤ slotBits fuel v ∧ 2 ≤ v / 2 ^ slotBits fuel v ∧ v / 2 ^ slotBits fuel v < 4 := by
  induction fuel with
  | zero =>
    intro v h4 hlt
    omega
  | succ fuel ih =>
    intro v h4 hlt
    rw [slotBits, if_pos h4, Nat.pow_succ', ← Nat.div_div_eq_div_mul]
    by_cases hhalf : v / 2 < 4
    · rw [slotBits_of_lt hhalf, Nat.pow_zero, Nat.div_one]
      exact ⟨by omega, by omega, hhalf⟩
    · have hdouble : 2 ^ (fuel + 1 + 2) = 2 ^ (fuel + 2) * 2 := Nat.pow_succ 2 (fuel + 2)
      obtain ⟨h1, h2, h3⟩ := ih (v / 2) (by omega) (by omega)
      exact ⟨by omega, h2, h3⟩

/-! ## The bits of a literal -/

/-- The node a literal is at while `left` bits are to come. -/
def literalNode (byte : UInt8) (left : Nat) : Nat := (256 + byte.toNat) / 2 ^ left

theorem literalNode_succ (byte : UInt8) {n : Nat} (h : n < 8) :
    literalNode byte (n + 1) + literalNode byte (n + 1) + (byte.toNat.testBit n).toNat =
      literalNode byte n := by
  have hpow : 256 = 2 ^ n * (2 ^ (7 - n) * 2) := by
    rw [← Nat.pow_succ, ← Nat.pow_add, show n + (7 - n + 1) = 8 by omega]
  have hnode : literalNode byte n = 2 ^ (7 - n) * 2 + byte.toNat / 2 ^ n := by
    rw [literalNode, hpow, Nat.mul_add_div (Nat.two_pow_pos n)]
  have hhalf : literalNode byte (n + 1) = literalNode byte n / 2 := by
    rw [literalNode, literalNode, Nat.pow_succ, Nat.div_div_eq_div_mul]
  rw [hhalf, hnode, Nat.toNat_testBit]
  omega

theorem literalNode_lt (byte : UInt8) (n : Nat) : literalNode byte (n + 1) < 256 := by
  have hb := byte.toNat_lt
  have hhalf : literalNode byte (n + 1) = (256 + byte.toNat) / 2 / 2 ^ n := by
    rw [literalNode, Nat.pow_succ', Nat.div_div_eq_div_mul]
  have hle := Nat.div_le_self ((256 + byte.toNat) / 2) (2 ^ n)
  omega

/-- The bit above a literal's node is set while the byte it is matched with is followed. -/
theorem match_index {bh node m : Nat} (hbh : bh ≤ 1) (hnode : node < 256) :
    (bh * 2 ^ 8 + node) &&& m &&& LITERAL_MATCH_BIT = m &&& bh * 256 := by
  rw [Nat.and_comm _ m, Nat.and_assoc]
  congr 1
  show _ &&& 2 ^ 8 = _
  rw [Nat.and_two_pow]
  have hlow : node.testBit 8 = false := Nat.testBit_lt_two_pow hnode
  rcases (by omega : bh = 0 ∨ bh = 1) with rfl | rfl
  · rw [Nat.zero_mul, Nat.zero_add, hlow]
    rfl
  · rw [Nat.one_mul, Nat.testBit_two_pow_add_eq, hlow]
    rfl

section

variable (hfit : s.address + s.bytes.length < 2 ^ 32)
include hfit

theorem bit_readBack {index : Nat} (hindex : index < PROBS) (b : Bool) :
    ReadBack s (fun rc => rc.encodeBit index b) (bit s index) b :=
  Codes.single (bit_reads hfit hindex b)

theorem directBit_readBack (b : Bool) :
    ReadBack s (fun rc => rc.encodeDirect b) (directBit s) b :=
  Codes.single (directBit_reads hfit b)

/-! ## Trees -/

theorem treeLoop_readBack (index value bits : Nat) : ∀ node,
    2 * index + (node + 1) * 2 ^ bits ≤ 2 * PROBS →
    ReadBack s (encodeTreeLoop index value bits node) (treeLoop s index bits node)
      (node * 2 ^ bits + value % 2 ^ bits) := by
  induction bits with
  | zero =>
    intro node _
    rw [Nat.pow_zero, Nat.mul_one, Nat.mod_one, Nat.add_zero]
    exact Codes.pure node
  | succ bits ih =>
    intro node h
    have hpos := Nat.two_pow_pos bits
    have hle : node + 1 ≤ (node + 1) * 2 ^ bits := Nat.le_mul_of_pos_right _ hpos
    rw [Nat.pow_succ] at h
    have hindex : index + node < PROBS := by
      rw [← Nat.mul_assoc] at h
      omega
    have hbit : (value.testBit bits).toNat ≤ 1 := Bool.toNat_le _
    have hup : (node * 2 + (value.testBit bits).toNat + 1) * 2 ^ bits
        ≤ (node + 1) * (2 ^ bits * 2) := by
      rw [Nat.mul_comm (2 ^ bits), ← Nat.mul_assoc]
      exact Nat.mul_le_mul_right _ (by omega)
    have hvalue : (node * 2 + (value.testBit bits).toNat) * 2 ^ bits + value % 2 ^ bits =
        node * 2 ^ (bits + 1) + value % 2 ^ (bits + 1) := by
      rw [mod_two_pow_succ, Nat.pow_succ', Nat.add_mul, Nat.mul_assoc]
      omega
    have hnode : node + node + (value.testBit bits).toNat =
        node * 2 + (value.testBit bits).toNat := by omega
    have hrest : ReadBack s
        (encodeTreeLoop index value bits (node * 2 + (value.testBit bits).toNat))
        (treeLoop s index bits (node + node + (value.testBit bits).toNat))
        (node * 2 ^ (bits + 1) + value % 2 ^ (bits + 1)) := by
      rw [hnode, ← hvalue]
      exact ih _ (by omega)
    exact (bit_readBack hfit hindex (value.testBit bits)).bind hrest

theorem tree_readBack (index bits value : Nat) (hindex : index + 2 ^ bits ≤ PROBS)
    (hvalue : value < 2 ^ bits) :
    ReadBack s (fun rc => rc.encodeTree index bits value) (tree s index bits)
      (2 ^ bits + value) := by
  have h := treeLoop_readBack hfit index value bits 1 (by omega)
  rw [Nat.one_mul, Nat.mod_eq_of_lt hvalue] at h
  exact h

theorem encodeReverseLoop_readBack (index value left : Nat) : ∀ i,
    2 * index + (reversed value i + 1) * 2 ^ left ≤ 2 * PROBS →
    ReadBack s (encodeReverseLoop index value left i (reversed value i))
      (treeLoop s index left (reversed value i)) (reversed value (i + left)) := by
  induction left with
  | zero =>
    intro i _
    exact Codes.pure _
  | succ left ih =>
    intro i h
    have hpos := Nat.two_pow_pos left
    have hle : reversed value i + 1 ≤ (reversed value i + 1) * 2 ^ left :=
      Nat.le_mul_of_pos_right _ hpos
    rw [Nat.pow_succ] at h
    have hindex : index + reversed value i < PROBS := by
      rw [← Nat.mul_assoc] at h
      omega
    have hbit : (value.testBit i).toNat ≤ 1 := Bool.toNat_le _
    have hup : (reversed value (i + 1) + 1) * 2 ^ left
        ≤ (reversed value i + 1) * (2 ^ left * 2) := by
      rw [Nat.mul_comm (2 ^ left), ← Nat.mul_assoc, reversed]
      exact Nat.mul_le_mul_right _ (by omega)
    have hnode : reversed value i + reversed value i + (value.testBit i).toNat =
        reversed value (i + 1) := by
      rw [reversed]
      omega
    have hrest : ReadBack s (encodeReverseLoop index value left (i + 1) (reversed value (i + 1)))
        (treeLoop s index left (reversed value i + reversed value i + (value.testBit i).toNat))
        (reversed value (i + (left + 1))) := by
      rw [hnode, ← Nat.add_assoc, Nat.add_right_comm]
      exact ih (i + 1) (by omega)
    exact (bit_readBack hfit hindex (value.testBit i)).bind hrest

theorem reverse_readBack (index bits value : Nat) (hindex : index + 2 ^ bits ≤ PROBS)
    (hbits : bits < 32) (hvalue : value < 2 ^ bits) :
    ReadBack s (fun rc => rc.encodeReverse index bits value) (reverse s index bits) value := by
  have h := encodeReverseLoop_readBack hfit index value bits 0 (by
    show 2 * index + (1 + 1) * 2 ^ bits ≤ 2 * PROBS
    omega)
  rw [Nat.zero_add] at h
  have hr := reverseValue_reversed value bits 32 0 hbits
  rw [Nat.zero_mul, Nat.zero_add, Nat.mod_eq_of_lt hvalue] at hr
  exact h.bind_pure (Codes.lift hr)

/-! ## Lengths -/

theorem treeLength_readBack (index bits base edx : Nat) {length : Nat}
    (hindex : index + 2 ^ bits ≤ PROBS) (hmin : base ≤ length) (hmax : length < base + 2 ^ bits)
    (hedx : (2 ^ bits + (length - base) + edx) % 2 ^ 32 = length) :
    ReadBack s (fun rc => rc.encodeTree index bits (length - base))
      (treeLength s index bits edx) length := by
  have h := tree_readBack hfit index bits (length - base) hindex (by omega)
  apply h.bind_pure
  rw [hedx]
  exact Codes.pure length

theorem length_readBack {index length : Nat}
    (hindex : index + LENGTH_HIGH + LENGTH_HIGH_SIZE ≤ PROBS) (hmin : 2 ≤ length)
    (hmax : length ≤ LIMLZ_MAX_MATCH) :
    ReadBack s (fun rc => rc.encodeLength index 0 length) (Limlz.length s index 0) length := by
  have hle : index + 514 ≤ PROBS := hindex
  have hmax' : length ≤ 273 := hmax
  have hfirst := bit_readBack hfit (by omega : index < PROBS)
  by_cases h10 : length < 10
  · have hwrite : (fun rc : RangeEncoder => rc.encodeLength index 0 length) =
        fun rc => (rc.encodeBit index false).encodeTree (index + 2) 3 (length - 2) := by
      funext rc
      simp [encodeLength, h10, Nat.not_le.mpr h10]
    have hrest := treeLength_readBack hfit (index + 2) 3 2 (sub32 MATCH_MIN LENGTH_LOW_SIZE)
      (by show index + 2 + 2 ^ 3 ≤ PROBS; omega) hmin (by omega)
      (by simp only [sub32, MATCH_MIN, LENGTH_LOW_SIZE]; omega)
    rw [hwrite]
    exact (hfirst false).bind hrest
  have h10' := Nat.not_lt.mp h10
  have hsecond := bit_readBack hfit (by omega : index + 1 < PROBS)
  by_cases h18 : length < 18
  · have hwrite : (fun rc : RangeEncoder => rc.encodeLength index 0 length) =
        fun rc => ((rc.encodeBit index true).encodeBit (index + 1) false).encodeTree
          (index + 130) 3 (length - 10) := by
      funext rc
      simp [encodeLength, h10, h10', h18, Nat.not_le.mpr h18]
    have hrest := treeLength_readBack hfit (index + 130) 3 10
      (sub32 (MATCH_MIN + LENGTH_LOW_SIZE) LENGTH_MID_SIZE)
      (by show index + 130 + 2 ^ 3 ≤ PROBS; omega) h10' (by omega)
      (by simp only [sub32, MATCH_MIN, LENGTH_LOW_SIZE, LENGTH_MID_SIZE]; omega)
    rw [hwrite]
    refine (hfirst true).bind
      (g := fun rc => (rc.encodeBit (index + 1) false).encodeTree (index + 130) 3 (length - 10)) ?_
    exact (hsecond false).bind hrest
  · have h18' := Nat.not_lt.mp h18
    have hwrite : (fun rc : RangeEncoder => rc.encodeLength index 0 length) =
        fun rc => ((rc.encodeBit index true).encodeBit (index + 1) true).encodeTree
          (index + 258) 8 (length - 18) := by
      funext rc
      simp [encodeLength, h10, h10', h18, h18']
    have hbase : index + 1 + LENGTH_HIGH - 1 = index + 258 := by
      simp only [LENGTH_HIGH]
      omega
    have hrest := treeLength_readBack hfit (index + 258) 8 18
      (sub32 (MATCH_MIN + LENGTH_LOW_SIZE + LENGTH_MID_SIZE) LENGTH_HIGH_SIZE)
      (by show index + 258 + 2 ^ 8 ≤ PROBS; omega) h18' (by omega)
      (by
        simp only [sub32, MATCH_MIN, LENGTH_LOW_SIZE, LENGTH_MID_SIZE, LENGTH_HIGH_SIZE]
        omega)
    rw [← hbase] at hrest
    rw [hwrite, ← hbase]
    refine (hfirst true).bind
      (g := fun rc => (rc.encodeBit (index + 1) true).encodeTree (index + 1 + LENGTH_HIGH - 1) 8
        (length - 18)) ?_
    exact (hsecond true).bind hrest

/-! ## Distances -/

/-- The bits from the top down to bit 4, into a number that has none of them yet. -/
theorem direct_readBack (extra n : Nat) : ∀ ebx, ebx % 2 ^ (n + 5) = 0 →
    ReadBack s (encodeDirectLoop extra (n + 1)) (direct s (n + 5) ebx)
      (ebx + extra / 2 ^ 4 % 2 ^ (n + 1) * 2 ^ 4) := by
  induction n with
  | zero =>
    intro ebx h
    have hor := or_two_pow h (Nat.lt_succ_self 4) (extra.testBit 4)
    have hvalue : ebx + extra / 2 ^ 4 % 2 ^ (0 + 1) * 2 ^ 4 =
        ebx + (extra.testBit 4).toNat * 2 ^ 4 := by
      rw [Nat.toNat_testBit]
      rfl
    rw [hvalue, ← hor]
    exact (directBit_readBack hfit (extra.testBit 4)).bind_pure (Codes.pure _)
  | succ n ih =>
    intro ebx h
    have hor := or_two_pow h (Nat.lt_succ_self (n + 5)) (extra.testBit (n + 1 + 4))
    have hdvd : 2 ^ (n + 5) ∣ ebx :=
      Nat.dvd_trans (Nat.pow_dvd_pow 2 (Nat.le_succ _)) (Nat.dvd_of_mod_eq_zero h)
    have hmod : (ebx + (extra.testBit (n + 1 + 4)).toNat * 2 ^ (n + 5)) % 2 ^ (n + 5) = 0 :=
      Nat.mod_eq_zero_of_dvd (Nat.dvd_add hdvd (Nat.dvd_mul_left _ _))
    have hvalue : ebx + (extra.testBit (n + 1 + 4)).toNat * 2 ^ (n + 5) +
        extra / 2 ^ 4 % 2 ^ (n + 1) * 2 ^ 4 = ebx + extra / 2 ^ 4 % 2 ^ (n + 1 + 1) * 2 ^ 4 := by
      have hpow : 2 ^ (n + 5) = 2 ^ (n + 1) * 2 ^ 4 := Nat.pow_add 2 (n + 1) 4
      rw [mod_two_pow_succ _ (n + 1), Nat.testBit_div_two_pow, Nat.add_mul, hpow, ← Nat.mul_assoc]
      omega
    have hrest := ih _ hmod
    rw [hvalue, ← hor] at hrest
    exact (directBit_readBack hfit (extra.testBit (n + 1 + 4))).bind hrest

/-- The tree of `SLOT` that a length selects. -/
theorem slot_readBack (length slot : Nat) (hmin : 2 ≤ length) (hmax : length ≤ LIMLZ_MAX_MATCH)
    (hslot : slot < 64) :
    ReadBack s (fun rc => rc.encodeTree (LIMLZ_SLOT + (if length < 6 then length - 2 else 3) * 64)
        6 slot)
      (tree s (min (sub32 length MATCH_MIN) (LENGTH_STATES - 1) * 2 ^ SLOT_BITS + LIMLZ_SLOT)
        SLOT_BITS) (64 + slot) := by
  have hmax' : length ≤ 273 := hmax
  have hindex : min (sub32 length MATCH_MIN) (LENGTH_STATES - 1) * 2 ^ SLOT_BITS + LIMLZ_SLOT =
      LIMLZ_SLOT + (if length < 6 then length - 2 else 3) * 64 := by
    rw [sub32_of_le (by simp only [MATCH_MIN]; omega) (by omega)]
    simp only [MATCH_MIN, LENGTH_STATES, SLOT_BITS]
    split
    · omega
    · omega
  rw [hindex]
  apply tree_readBack hfit _ 6 slot _ hslot
  rw [PROBS_eq]
  simp only [LIMLZ_SLOT]
  split
  · omega
  · omega

/-- A number of at least 4, in the slot that says its two highest bits. -/
theorem slotDistance_readBack {bits high extra : Nat} (hbits : 1 ≤ bits)
    (hhigh : high = 2 ∨ high = 3) (hextra : extra < 2 ^ bits)
    (hlt : high * 2 ^ bits + extra + 1 < 2 ^ 32) :
    ReadBack s (fun rc =>
        if (bits + 1) * 2 + high % 2 < 14 then
          rc.encodeReverse (LIMLZ_SPECIAL + high * 2 ^ bits - ((bits + 1) * 2 + high % 2) - 1) bits
            extra
        else (encodeDirectLoop extra (bits - 4) rc).encodeReverse LIMLZ_ALIGN 4 (extra % 16))
      (slotDistance s ((bits + 1) * 2 + high % 2)) (high * 2 ^ bits + extra + 1) := by
  have hstart : ¬(bits + 1) * 2 + high % 2 < SLOT_MODEL_START := by
    simp only [SLOT_MODEL_START]
    omega
  have hecx : ((bits + 1) * 2 + high % 2) / 2 - 1 = bits := by omega
  have hebx : ((bits + 1) * 2 + high % 2) % 2 ||| 2 = high := by
    rw [show ((bits + 1) * 2 + high % 2) % 2 = high % 2 by omega]
    rcases hhigh with rfl | rfl
    · rfl
    · rfl
  unfold slotDistance
  rw [if_neg hstart, hecx, hebx]
  dsimp only
  by_cases h14 : (bits + 1) * 2 + high % 2 < 14
  · have hend : (bits + 1) * 2 + high % 2 < SLOT_MODEL_END := h14
    have hpow : 2 ^ bits ≤ 2 ^ 5 := Nat.pow_le_pow_right (by decide) (by omega)
    have hbase : (bits + 1) * 2 + high % 2 ≤ high * 2 ^ bits := by
      rcases (by omega : bits = 1 ∨ bits = 2 ∨ bits = 3 ∨ bits = 4 ∨ bits = 5) with
        rfl | rfl | rfl | rfl | rfl
      · omega
      · omega
      · omega
      · omega
      · omega
    have hprod : high * 2 ^ bits ≤ 3 * 2 ^ 5 := Nat.mul_le_mul (by omega) hpow
    have hindex : high * 2 ^ bits - ((bits + 1) * 2 + high % 2) + (LIMLZ_SPECIAL - 1) =
        LIMLZ_SPECIAL + high * 2 ^ bits - ((bits + 1) * 2 + high % 2) - 1 := by
      simp only [LIMLZ_SPECIAL]
      omega
    have hmax : LIMLZ_SPECIAL + high * 2 ^ bits - ((bits + 1) * 2 + high % 2) - 1 + 2 ^ bits
        ≤ PROBS := by
      rw [PROBS_eq]
      simp only [LIMLZ_SPECIAL]
      omega
    have hread := reverse_readBack hfit _ bits extra hmax (by omega) hextra
    simp only [if_pos h14]
    rw [if_pos hend, hindex]
    apply hread.bind_pure
    rw [Nat.mod_eq_of_lt hlt]
    exact Codes.pure _
  · have hend : ¬(bits + 1) * 2 + high % 2 < SLOT_MODEL_END := h14
    obtain ⟨n, rfl⟩ : ∃ n, bits = n + 5 := ⟨bits - 5, by omega⟩
    have hdirect := direct_readBack hfit extra n (high * 2 ^ (n + 5)) (Nat.mul_mod_left _ _)
    have hreverse := reverse_readBack hfit LIMLZ_ALIGN ALIGN_BITS (extra % 16) (by decide)
      (by decide) (Nat.mod_lt _ (by decide))
    have hextra' : extra / 2 ^ 4 % 2 ^ (n + 1) * 2 ^ 4 + extra % 16 = extra := by
      have hpow : 2 ^ (n + 5) = 2 ^ (n + 1) * 2 ^ 4 := Nat.pow_add 2 (n + 1) 4
      rw [Nat.mod_eq_of_lt (Nat.div_lt_of_lt_mul (by rw [Nat.mul_comm, ← hpow]; exact hextra))]
      omega
    simp only [if_neg h14]
    rw [if_neg hend]
    refine hdirect.bind (g := fun rc => rc.encodeReverse LIMLZ_ALIGN 4 (extra % 16)) ?_
    apply hreverse.bind_pure
    rw [Nat.add_assoc (high * 2 ^ (n + 5)), hextra', Nat.mod_eq_of_lt hlt]
    exact Codes.pure _

theorem distance_readBack {length distance : Nat} (hmin : 2 ≤ length)
    (hmax : length ≤ LIMLZ_MAX_MATCH) (hpos : 1 ≤ distance) (hlt : distance < 2 ^ 32) :
    ReadBack s (fun rc => rc.encodeDistance length distance) (Limlz.distance s length)
      distance := by
  obtain ⟨value, rfl⟩ : ∃ value, distance = value + 1 := ⟨distance - 1, by omega⟩
  by_cases h4 : value < 4
  · have hslot := slot_readBack hfit length value hmin hmax (by omega)
    have hwrite : (fun rc : RangeEncoder => rc.encodeDistance length (value + 1)) = fun rc =>
        rc.encodeTree (LIMLZ_SLOT + (if length < 6 then length - 2 else 3) * 64) 6 value := by
      funext rc
      simp [encodeDistance, h4, Nat.not_le.mpr h4]
    have hstart : value < SLOT_MODEL_START := h4
    have hread : slotDistance s value = pure (value + 1) := by
      unfold slotDistance
      rw [if_pos hstart, Nat.mod_eq_of_lt hlt]
    rw [hwrite]
    apply hslot.bind_pure
    rw [show 64 + value - 2 ^ SLOT_BITS = value from Nat.add_sub_cancel_left 64 value, hread]
    exact Codes.pure _
  · obtain ⟨h1, h2, h3⟩ := slotBits_spec 32 value (Nat.not_lt.mp h4) (by omega)
    generalize hbits : slotBits 32 value = bits at h1 h2 h3
    generalize hhigh : value / 2 ^ bits = high at h2 h3
    have hsplit : high * 2 ^ bits + value % 2 ^ bits = value := by
      rw [← hhigh, Nat.mul_comm]
      exact Nat.div_add_mod value (2 ^ bits)
    have hbits30 : bits < 31 := by
      apply (Nat.pow_lt_pow_iff_right (by decide : 1 < 2)).mp
      have := Nat.mul_le_mul_right (2 ^ bits) h2
      omega
    have hslot := slot_readBack hfit length ((bits + 1) * 2 + high % 2) hmin hmax (by omega)
    have hrest := slotDistance_readBack hfit h1 (by omega : high = 2 ∨ high = 3)
      (Nat.mod_lt value (Nat.two_pow_pos bits)) (by rw [hsplit]; exact hlt)
    rw [hsplit] at hrest
    have hor : 2 ||| ((bits + 1) * 2 + high % 2) % 2 = high := by
      rw [show ((bits + 1) * 2 + high % 2) % 2 = high % 2 by omega]
      rcases (by omega : high = 2 ∨ high = 3) with rfl | rfl
      · rfl
      · rfl
    have hwrite : (fun rc : RangeEncoder => rc.encodeDistance length (value + 1)) = fun rc =>
        (fun rc : RangeEncoder =>
          if (bits + 1) * 2 + high % 2 < 14 then
            rc.encodeReverse (LIMLZ_SPECIAL + high * 2 ^ bits - ((bits + 1) * 2 + high % 2) - 1)
              bits (value % 2 ^ bits)
          else (encodeDirectLoop (value % 2 ^ bits) (bits - 4) rc).encodeReverse LIMLZ_ALIGN 4
            (value % 2 ^ bits % 16))
        (rc.encodeTree (LIMLZ_SLOT + (if length < 6 then length - 2 else 3) * 64) 6
          ((bits + 1) * 2 + high % 2)) := by
      funext rc
      have hextra : value - high * 2 ^ bits = value % 2 ^ bits := by omega
      unfold encodeDistance
      dsimp only
      rw [Nat.add_sub_cancel, hbits, hhigh, if_pos (Nat.not_lt.mp h4), if_neg (by omega), hor,
        hextra]
    have hsub : (bits + 1) * 2 + high % 2 = 64 + ((bits + 1) * 2 + high % 2) - 2 ^ SLOT_BITS :=
      (Nat.add_sub_cancel_left 64 _).symm
    have hread := congrArg (slotDistance s) hsub
    rw [hread] at hrest
    rw [hwrite]
    exact hslot.bind (y := fun esi => slotDistance s (esi - 2 ^ SLOT_BITS)) hrest

/-! ## Literals -/

theorem literalBit_readBack {index : Nat} (hindex : index + LITERAL_CONTEXT_SIZE ≤ PROBS)
    (byte : UInt8) (n edx : Nat) {bh : Nat} (hbh : bh ≤ 1) :
    ReadBack s (fun rc => rc.encodeBit
        (index + literalNode byte (n + 1) + bh * 256 + (edx * 2 &&& bh * 256))
        (byte.toNat.testBit n))
      (bit s (((bh * 2 ^ 8 + literalNode byte (n + 1)) &&& edx * 2 &&& LITERAL_MATCH_BIT)
        + (bh * 2 ^ 8 + literalNode byte (n + 1)) + index)) (byte.toNat.testBit n) := by
  have hnode := literalNode_lt byte n
  have hand : edx * 2 &&& bh * 256 ≤ bh * 256 := Nat.and_le_right
  have hle : index + 768 ≤ PROBS := hindex
  have horder : (edx * 2 &&& bh * 256) + (bh * 2 ^ 8 + literalNode byte (n + 1)) + index =
      index + literalNode byte (n + 1) + bh * 256 + (edx * 2 &&& bh * 256) := by omega
  rw [match_index hbh hnode, horder]
  exact bit_readBack hfit (by omega) _

theorem literalLoop_readBack {index : Nat} (hindex : index + LITERAL_CONTEXT_SIZE ≤ PROBS)
    (byte : UInt8) (n : Nat) : ∀ edx bh, n < 8 → bh ≤ 1 →
    ReadBack s (encodeLiteralLoop index byte (n + 1) (literalNode byte (n + 1)) (bh * 256) edx)
      (literalLoop s index (n + 1) edx bh (literalNode byte (n + 1))) byte := by
  induction n with
  | zero =>
    intro edx bh hn hbh
    have hbit := literalBit_readBack hfit hindex byte 0 edx hbh
    apply hbit.bind_pure
    have hsum : 2 ^ 8 ≤ literalNode byte 1 + literalNode byte 1 + (byte.toNat.testBit 0).toNat := by
      rw [literalNode_succ byte hn, literalNode, Nat.pow_zero, Nat.div_one]
      exact Nat.le_add_right 256 _
    have hbyte : UInt8.ofNat (literalNode byte 0) = byte := by
      apply UInt8.toNat_inj.mp
      rw [UInt8.toNat_ofNat', literalNode]
      have := byte.toNat_lt
      omega
    rw [if_pos hsum, literalNode_succ byte hn, hbyte]
    exact Codes.pure byte
  | succ n ih =>
    intro edx bh hn hbh
    have hbit := literalBit_readBack hfit hindex byte (n + 1) edx hbh
    have hsum : ¬2 ^ 8 ≤ literalNode byte (n + 1) := Nat.not_le.mpr (literalNode_lt byte n)
    have hmod : literalNode byte (n + 1) % 2 = (byte.toNat.testBit (n + 1)).toNat := by
      have h1 := literalNode_succ byte hn
      have h2 := Bool.toNat_le (byte.toNat.testBit (n + 1))
      omega
    have hoffset : (if (byte.toNat.testBit (n + 1)).toNat ≠ edx * 2 / 2 ^ 8 % 2 then 0
        else bh * 256) =
        (if edx * 2 / 2 ^ 8 % 2 = literalNode byte (n + 1) % 2 then bh else 0) * 256 := by
      rw [hmod]
      split
      · next h => rw [if_neg (fun h' => h h'.symm), Nat.zero_mul]
      · next h => rw [if_pos (not_not.mp h).symm]
    have hrest := ih (edx * 2)
      (if edx * 2 / 2 ^ 8 % 2 = literalNode byte (n + 1) % 2 then bh else 0) (by omega)
      (by
        split
        · exact hbh
        · exact Nat.zero_le 1)
    have hnode : literalNode byte (n + 1 + 1) * 2 + (byte.toNat.testBit (n + 1)).toNat =
        literalNode byte (n + 1) := by
      have := literalNode_succ byte hn
      omega
    have hwrite : encodeLiteralLoop index byte (n + 1 + 1) (literalNode byte (n + 1 + 1))
        (bh * 256) edx = fun rc => encodeLiteralLoop index byte (n + 1) (literalNode byte (n + 1))
          ((if edx * 2 / 2 ^ 8 % 2 = literalNode byte (n + 1) % 2 then bh else 0) * 256) (edx * 2)
          (rc.encodeBit (index + literalNode byte (n + 1 + 1) + bh * 256 +
            (edx * 2 &&& bh * 256)) (byte.toNat.testBit (n + 1))) := by
      funext rc
      rw [encodeLiteralLoop, hnode, hoffset]
    rw [hwrite]
    refine hbit.bind (g := encodeLiteralLoop index byte (n + 1) (literalNode byte (n + 1))
      ((if edx * 2 / 2 ^ 8 % 2 = literalNode byte (n + 1) % 2 then bh else 0) * 256)
      (edx * 2)) ?_
    rw [literalNode_succ byte hn, if_neg hsum]
    exact hrest

/-- A literal, with the byte at the last distance where the state asks for it. -/
theorem literalByte_readBack {l : Layout} {data : List UInt8} {pos state dist : Nat} {z : Lz}
    (hlt : pos < data.length) (hfits : l.output + data.length < 2 ^ 32)
    (houtput : z.output = data.take pos) (hstate : z.state = state) (hrep : z.rep0 = dist)
    (hebx : z.ebx.toNat = if pos ≠ 0 then (byteAt data (pos - 1)).toNat else 0)
    (hpos : 7 ≤ state → 1 ≤ dist) (hdist : 7 ≤ state → dist ≤ pos) :
    ReadBack s (fun rc => rc.encodeLiteral data pos state dist) (literalByte l s z)
      (byteAt data pos) := by
  have hindex : z.ebx.toNat / 2 ^ 6 * LITERAL_CONTEXT_SIZE + LIMLZ_LITERAL + LITERAL_CONTEXT_SIZE
      ≤ PROBS := by
    have := z.ebx.toNat_lt
    rw [PROBS_eq]
    simp only [LITERAL_CONTEXT_SIZE, LIMLZ_LITERAL]
    omega
  have hcomm : LIMLZ_LITERAL + (if pos ≠ 0 then (byteAt data (pos - 1)).toNat else 0) / 2 ^ 6 * 768
      = z.ebx.toNat / 2 ^ 6 * LITERAL_CONTEXT_SIZE + LIMLZ_LITERAL := by
    rw [hebx, Nat.add_comm]
    rfl
  have hnode : literalNode (byteAt data pos) (7 + 1) = 1 := by
    have := (byteAt data pos).toNat_lt
    unfold literalNode
    omega
  by_cases h7 : state < 7
  · have h := literalLoop_readBack hfit hindex (byteAt data pos) 7 0 0 (by decide) (by decide)
    have hwrite : (fun rc : RangeEncoder => rc.encodeLiteral data pos state dist) =
        encodeLiteralLoop (z.ebx.toNat / 2 ^ 6 * LITERAL_CONTEXT_SIZE + LIMLZ_LITERAL)
          (byteAt data pos) 8 1 0 0 := by
      funext rc
      unfold encodeLiteral
      dsimp only
      rw [if_neg (Nat.not_le.mpr h7), hcomm]
      rfl
    unfold literalByte
    rw [hwrite, hstate, if_pos h7]
    rw [hnode] at h
    exact h
  · have h7' := Nat.not_lt.mp h7
    have h1 := hpos h7'
    have h2 := hdist h7'
    have hlen : z.output.length = pos := by
      rw [houtput, List.length_take, Nat.min_eq_left (Nat.le_of_lt hlt)]
    have hedi : z.edi l = l.output + pos := by
      rw [Lz.edi, hlen]
    have haddr : sub32 (l.output + pos) dist = l.output + (pos - dist) := by
      rw [sub32_of_le (by omega) (by omega)]
      omega
    have hread : readOutput l z.output (sub32 (z.edi l) z.rep0) =
        .ok (byteAt data (pos - dist)) := by
      rw [hedi, hrep, haddr, readOutput_at (by omega), houtput, byteAt_take _ (by omega)]
    have hwrite : (fun rc : RangeEncoder => rc.encodeLiteral data pos state dist) =
        encodeLiteralLoop (z.ebx.toNat / 2 ^ 6 * LITERAL_CONTEXT_SIZE + LIMLZ_LITERAL)
          (byteAt data pos) 8 1 256 (byteAt data (pos - dist)).toNat := by
      funext rc
      unfold encodeLiteral
      dsimp only
      rw [if_pos h7', hcomm]
      rfl
    have h := literalLoop_readBack hfit hindex (byteAt data pos) 7
      (byteAt data (pos - dist)).toNat 1 (by decide) (by decide)
    rw [hnode] at h
    unfold literalByte
    rw [hwrite, hstate, if_neg h7, hread]
    exact (Codes.lift rfl).bind h

end

end Limine.Limlz
