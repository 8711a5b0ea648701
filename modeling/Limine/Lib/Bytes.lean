import Mathlib.Algebra.Group.Nat.Defs
import Mathlib.Data.List.Basic

/-!
# Bytes and the numbers they spell

A fact about bytes by trying all 256 of them, bytes that are shifted next to each other as one number, and
the two orders in which a number is written as bytes.
-/

namespace Limine.Lib

theorem forall_byte {p : UInt8 → Prop} (h : ∀ n < 256, p (UInt8.ofNat n)) (b : UInt8) : p b := by
  have := h b.toNat b.toNat_lt
  rwa [UInt8.ofNat_toNat] at this

/-- The bytes from `a` on, `n` of them. -/
theorem mem_map_range' {a n : Nat} (h : a + n ≤ 256) (c : UInt8) :
    c ∈ (List.range' a n).map UInt8.ofNat ↔ a ≤ c.toNat ∧ c.toNat < a + n := by
  rw [List.mem_map]
  constructor
  · rintro ⟨k, hk, rfl⟩
    obtain ⟨hle, hlt⟩ := List.mem_range'_1.mp hk
    rw [UInt8.toNat_ofNat', Nat.mod_eq_of_lt (by omega)]
    exact ⟨hle, hlt⟩
  · intro hc
    exact ⟨c.toNat, List.mem_range'_1.mpr hc, UInt8.ofNat_toNat⟩

theorem ofInt_toNat (x : UInt8) : UInt8.ofInt x.toNat = x := by
  have := x.toNat_lt
  unfold UInt8.ofInt
  apply UInt8.toNat_inj.mp
  simp
  omega

theorem shiftLeft_or {x y k : Nat} (h : y < 2 ^ k) : x <<< k ||| y = x * 2 ^ k + y := by
  rw [← Nat.shiftLeft_add_eq_or_of_lt h, Nat.shiftLeft_eq]

theorem prepend_lt {x y k : Nat} (hx : x < 2 ^ 8) (hy : y < 2 ^ k) : x * 2 ^ k + y < 2 ^ (8 + k) := by
  calc
    x * 2 ^ k + y < (x + 1) * 2 ^ k := by rw [Nat.add_mul, Nat.one_mul]; omega
    _ ≤ 2 ^ 8 * 2 ^ k := Nat.mul_le_mul_right _ hx
    _ = 2 ^ (8 + k) := (Nat.pow_add 2 8 k).symm

/-- A byte that is shifted within 32 bits. -/
theorem toNat_shiftLeft (x : UInt8) {k : UInt32} (h : k.toNat ≤ 24) :
    (x.toUInt32 <<< k).toNat = x.toNat <<< k.toNat := by
  have hx := x.toNat_lt
  have hk : k.toNat % 32 = k.toNat := by omega
  have hpow : x.toNat * 2 ^ k.toNat < 2 ^ 8 * 2 ^ 24 := by
    apply Nat.mul_lt_mul_of_lt_of_le hx (Nat.pow_le_pow_right (by decide) h) (by decide)
  rw [UInt32.toNat_shiftLeft, hk, UInt8.toNat_toUInt32, Nat.mod_eq_of_lt]
  rw [Nat.shiftLeft_eq]
  omega

/-!
## Little-endian numbers

A number below `256 ^ n` is the `n` bytes of `leBytes n`, lowest first.
-/

def leBytes : Nat → Nat → List UInt8
  | 0, _ => []
  | n + 1, x => UInt8.ofNat (x % 256) :: leBytes n (x / 256)

def leNat : List UInt8 → Nat
  | [] => 0
  | b :: bs => b.toNat + 256 * leNat bs

theorem leBytes_succ (n x : Nat) : leBytes (n + 1) x = UInt8.ofNat (x % 256) :: leBytes n (x / 256) := rfl

theorem leNat_cons (b : UInt8) (bs : List UInt8) : leNat (b :: bs) = b.toNat + 256 * leNat bs := rfl

@[simp] theorem length_leBytes (n x : Nat) : (leBytes n x).length = n := by
  induction n generalizing x with
  | zero => rfl
  | succ n ih => rw [leBytes_succ, List.length_cons, ih]

theorem leNat_lt (bs : List UInt8) : leNat bs < 256 ^ bs.length := by
  induction bs with
  | nil => decide
  | cons b bs ih =>
    have hb := b.toNat_lt
    rw [leNat_cons, List.length_cons, Nat.pow_succ']
    omega

theorem leNat_leBytes {n x : Nat} (h : x < 256 ^ n) : leNat (leBytes n x) = x := by
  induction n generalizing x with
  | zero => exact (Nat.lt_one_iff.mp h).symm
  | succ n ih =>
    have h1 : x / 256 < 256 ^ n := Nat.div_lt_of_lt_mul (by rwa [Nat.pow_succ'] at h)
    rw [leBytes_succ, leNat_cons, ih h1, UInt8.toNat_ofNat']
    omega

theorem leBytes_leNat_of_length {n : Nat} {bs : List UInt8} (h : bs.length = n) :
    leBytes n (leNat bs) = bs := by
  induction bs generalizing n with
  | nil =>
    subst h
    rfl
  | cons b bs ih =>
    subst h
    have hb := b.toNat_lt
    have hmod : (b.toNat + 256 * leNat bs) % 256 = b.toNat := by omega
    have hdiv : (b.toNat + 256 * leNat bs) / 256 = leNat bs := by omega
    rw [leNat_cons, List.length_cons, leBytes_succ, hmod, hdiv, ih rfl, UInt8.ofNat_toNat]

/-- Byte `k` of a number is its bits from `8 * k` on. -/
theorem leBytes_eq_map (n x : Nat) :
    leBytes n x = (List.range n).map fun k => UInt8.ofNat (x >>> (8 * k)) := by
  induction n generalizing x with
  | zero => rfl
  | succ n ih =>
    rw [leBytes_succ, List.range_succ_eq_map, List.map_cons, List.map_map, ih]
    congr 1
    · rw [← UInt8.toNat_inj, UInt8.toNat_ofNat', UInt8.toNat_ofNat', Nat.mul_zero, Nat.shiftRight_zero]
      omega
    · refine List.map_congr_left fun k _ => ?_
      show UInt8.ofNat ((x / 256) >>> (8 * k)) = UInt8.ofNat (x >>> (8 * (k + 1)))
      rw [show 8 * (k + 1) = 8 + 8 * k by omega, Nat.shiftRight_add, Nat.shiftRight_eq_div_pow x 8]

/-! ## Numbers in a memory -/

/-- The number in the `n` bytes from `a` on. -/
def leAt (m : Nat → UInt8) (a n : Nat) : Nat := leNat ((List.range n).map fun i => m (a + i))

theorem leAt_lt (m : Nat → UInt8) (a n : Nat) : leAt m a n < 256 ^ n := by
  have h := leNat_lt ((List.range n).map fun i => m (a + i))
  rwa [List.length_map, List.length_range] at h

theorem leAt_congr {m m' : Nat → UInt8} {a n : Nat} (h : ∀ x, a ≤ x → x < a + n → m x = m' x) :
    leAt m a n = leAt m' a n := by
  unfold leAt
  congr 1
  refine List.map_congr_left fun i hi => ?_
  rw [List.mem_range] at hi
  exact h (a + i) (by omega) (by omega)

theorem leAt_eq_of_bytes {m : Nat → UInt8} {a n x : Nat} (hx : x < 256 ^ n)
    (h : ∀ k, k < n → m (a + k) = UInt8.ofNat (x >>> (8 * k))) : leAt m a n = x := by
  have hmap : (List.range n).map (fun k => m (a + k)) = leBytes n x := by
    rw [leBytes_eq_map]
    refine List.map_congr_left fun k hk => h k (List.mem_range.mp hk)
  unfold leAt
  rw [hmap, leNat_leBytes hx]

/-!
## Big-endian numbers

The number a list of bytes spells with the highest byte first, and what follows for a list that is
longer than what has been looked at.
-/

def beNat : List UInt8 → Nat
  | [] => 0
  | b :: bs => b.toNat * 256 ^ bs.length + beNat bs

theorem beNat_cons (b : UInt8) (bs : List UInt8) : beNat (b :: bs) = b.toNat * 256 ^ bs.length + beNat bs := rfl

theorem beNat_append (as bs : List UInt8) :
    beNat (as ++ bs) = beNat as * 256 ^ bs.length + beNat bs := by
  induction as with
  | nil => rw [List.nil_append, show beNat [] = 0 from rfl, Nat.zero_mul, Nat.zero_add]
  | cons a as ih =>
    rw [List.cons_append, beNat_cons, beNat_cons, ih, List.length_append, Nat.pow_add, Nat.add_mul,
      ← Nat.mul_assoc, Nat.add_assoc]

theorem beNat_lt (bs : List UInt8) : beNat bs < 256 ^ bs.length := by
  induction bs with
  | nil => exact Nat.one_pos
  | cons b bs ih =>
    have hb : (b.toNat + 1) * 256 ^ bs.length ≤ 256 * 256 ^ bs.length :=
      Nat.mul_le_mul_right _ b.toNat_lt
    rw [beNat_cons, List.length_cons, Nat.pow_succ']
    rw [Nat.add_mul, Nat.one_mul] at hb
    omega

theorem beNat_replicate (n : Nat) : beNat (List.replicate n 255) + 1 = 256 ^ n := by
  induction n with
  | zero => rfl
  | succ n ih =>
    have h255 : (255 : UInt8).toNat = 255 := rfl
    rw [List.replicate_succ, beNat_cons, List.length_replicate, h255, Nat.pow_succ']
    omega

theorem beNat_replicate_zero (n : Nat) : beNat (List.replicate n 0) = 0 := by
  induction n with
  | zero => rfl
  | succ n ih =>
    have h0 : (0 : UInt8).toNat = 0 := rfl
    rw [List.replicate_succ, beNat_cons, ih, h0, Nat.zero_mul]

/-- One more byte. -/
theorem beNat_take_succ {bs : List UInt8} {n : Nat} (h : n < bs.length) :
    beNat (bs.take (n + 1)) = beNat (bs.take n) * 256 + bs[n].toNat := by
  rw [List.take_succ_eq_append_getElem h, beNat_append, beNat_cons, show beNat [] = 0 from rfl, List.length_singleton,
    List.length_nil, Nat.pow_zero, Nat.pow_one, Nat.mul_one, Nat.add_zero]

end Limine.Lib
