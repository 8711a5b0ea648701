import Limine.Loader.Memory

/-!
# Where an image comes to lie

Loaders place an image by whole pages in the top 2 GiB of the address space: at its own address, or
at the lowest one there, and with KASLR a random multiple of the alignment above that.
-/

namespace Limine.Loader
open Limine.Lib

def fixedHigherHalfOffset64 : Nat := 0xffffffff80000000

/-! ## Pages -/

/-- What `ALIGN_UP` to a page returns where it does not overflow. -/
def pageUp (x : Nat) : Nat := (x + 4095) / 4096 * 4096

def pageDown (x : Nat) : Nat := x / 4096 * 4096

theorem alignDown_eq_pageDown (x : Nat) : alignDown x 4096 = pageDown x := rfl

theorem alignUp_eq_some {x y : Nat} (h : alignUp x 4096 = some y) : y = pageUp x ∧ x + 4095 < 2 ^ 64 := by
  unfold alignUp at h
  obtain ⟨z, hz, rfl⟩ := Option.map_eq_some_iff.mp h
  obtain ⟨hlt, rfl⟩ := checkedAdd_eq_some_iff.mp hz
  exact ⟨rfl, hlt⟩

theorem pageUp_mono {x y : Nat} (h : x ≤ y) : pageUp x ≤ pageUp y :=
  Nat.mul_le_mul_right 4096 (Nat.div_le_div_right (Nat.add_le_add_right h 4095))

theorem pageDown_mono {x y : Nat} (h : x ≤ y) : pageDown x ≤ pageDown y :=
  Nat.mul_le_mul_right 4096 (Nat.div_le_div_right h)

theorem le_pageUp (x : Nat) : x ≤ pageUp x := by
  unfold pageUp
  omega

theorem pageDown_le (x : Nat) : pageDown x ≤ x := by
  unfold pageDown
  omega

theorem pageDown_add (w d : Nat) : pageDown (4096 * w + d) = 4096 * w + pageDown d := by
  unfold pageDown
  omega

theorem pageUp_add (w d : Nat) : pageUp (4096 * w + d) = 4096 * w + pageUp d := by
  unfold pageUp
  omega

theorem pageDown_lt_pageUp_iff (x y : Nat) : pageDown x < pageUp y ↔ x / 4096 < (y + 4095) / 4096 :=
  Nat.mul_lt_mul_right (by decide)

/-- `a` is `x` moved by a slide, which may wrap around. -/
theorem add64_page {x k : Nat} (hx : x < 2 ^ 64) (hk : 4096 * k < 2 ^ 64) :
    add64 x (4096 * k) = x + 4096 * k ∨ add64 x (4096 * k) + 2 ^ 64 = x + 4096 * k := by
  unfold add64
  omega

/-- A slide by whole pages moves pages. -/
theorem pageDown_add64 {x k : Nat} (hx : x < 2 ^ 64) (hk : 4096 * k < 2 ^ 64) :
    pageDown (add64 x (4096 * k)) = add64 (pageDown x) (4096 * k) := by
  have hdm := Nat.div_add_mod x 4096
  have hmod := Nat.mod_lt x (by decide : 0 < 4096)
  have hdown : pageDown x = 4096 * (x / 4096) := Nat.mul_comm _ _
  rw [hdown]
  generalize x / 4096 = b at *
  generalize x % 4096 = c at *
  subst hdm
  have hquot : ∀ n, pageDown (4096 * n + c) = 4096 * n := by
    intro n
    unfold pageDown
    omega
  have hlt := add64_lt (4096 * b + c) (4096 * k)
  rcases add64_page hx hk with h | h
  · have hsum : add64 (4096 * b + c) (4096 * k) = 4096 * (b + k) + c := by omega
    rw [hsum, hquot, add64_eq (by omega)]
    omega
  · have hsum : add64 (4096 * b + c) (4096 * k) = 4096 * (b + k - 2 ^ 52) + c := by omega
    rw [hsum, hquot]
    unfold add64
    omega

/-! ## Ranges -/

/-- Some address is in both ranges. -/
def MemRange.Meets (a b : MemRange) : Prop := a.base < b.base + b.length ∧ b.base < a.base + a.length

theorem MemRange.Meets.symm {a b : MemRange} (h : a.Meets b) : b.Meets a := And.symm h

/-! ## The slide -/

def maxSimulatedTries : Nat := 0x10000

def trySlide (rand : Nat → UInt32) (maxAlign lowerSlide tryCount : Nat) : Nat :=
  add64 ((rand tryCount).toNat &&& not64 (maxAlign - 1)) lowerSlide

/-- `*virtual_base + slide + image_size < 0xffffffff80000000`, which relies on overflow. -/
def tooLow (minVaddr imageSize slide : Nat) : Bool :=
  add64 (add64 minVaddr slide) imageSize < 0xffffffff80000000

/-- The tries from number `tryCount` on, `n` of them still to come; `rand` are the values of
`safe_rand32`. -/
def kaslrSlide (msg : String) (rand : Nat → UInt32) (maxAlign minVaddr imageSize lowerSlide : Nat) :
    Nat → Nat → Load Nat
  | 0, _ => .error .outOfFuel
  | n + 1, tryCount =>
    if tooLow minVaddr imageSize (trySlide rand maxAlign lowerSlide tryCount) then
      if tryCount + 1 = maxSimulatedTries then panic msg
      else kaslrSlide msg rand maxAlign minVaddr imageSize lowerSlide n (tryCount + 1)
    else .ok (trySlide rand maxAlign lowerSlide tryCount)

theorem dvd_and_not64 (r : Nat) {k : Nat} (hk : k < 64) : 2 ^ k ∣ r &&& not64 (2 ^ k - 1) := by
  have hpos : 0 < 2 ^ k := Nat.two_pow_pos k
  have hle : 2 ^ k ≤ 2 ^ 64 := Nat.pow_le_pow_right (by omega) (by omega)
  have hmask : not64 (2 ^ k - 1) = 2 ^ k * (2 ^ (64 - k) - 1) := by
    unfold not64
    rw [Nat.mul_sub, ← Nat.pow_add, show k + (64 - k) = 64 by omega]
    omega
  refine Nat.dvd_of_mod_eq_zero ?_
  rw [Nat.and_mod_two_pow, hmask, Nat.mul_mod_right, Nat.and_zero]

/-- What the tries for a slide end with. -/
structure Slid (maxAlign minVaddr imageSize lowerSlide slide : Nat) : Prop where
  eq : ∃ r, r < 2 ^ 32 ∧ slide = add64 (r &&& not64 (maxAlign - 1)) lowerSlide
  high : tooLow minVaddr imageSize slide = false

theorem kaslrSlide_safely (msg : String) (rand : Nat → UInt32) {maxAlign minVaddr imageSize lowerSlide : Nat} (n : Nat) :
    ∀ tryCount, tryCount + (n + 1) = maxSimulatedTries →
      Safely (kaslrSlide msg rand maxAlign minVaddr imageSize lowerSlide (n + 1) tryCount)
        (Slid maxAlign minVaddr imageSize lowerSlide) := by
  have hfound : ∀ t, ¬tooLow minVaddr imageSize (trySlide rand maxAlign lowerSlide t) = true →
      Slid maxAlign minVaddr imageSize lowerSlide (trySlide rand maxAlign lowerSlide t) := fun t ht =>
    ⟨⟨_, (rand t).toNat_lt, rfl⟩, by simpa using ht⟩
  induction n with
  | zero =>
    intro tryCount htries
    rw [kaslrSlide]
    by_cases hlow : tooLow minVaddr imageSize (trySlide rand maxAlign lowerSlide tryCount) = true
    · rw [if_pos hlow, if_pos htries]
      exact Safely.panic
    · rw [if_neg hlow]
      exact hfound tryCount hlow
  | succ n ih =>
    intro tryCount htries
    rw [kaslrSlide]
    by_cases hlow : tooLow minVaddr imageSize (trySlide rand maxAlign lowerSlide tryCount) = true
    · rw [if_pos hlow, if_neg (by omega)]
      exact ih (tryCount + 1) (by omega)
    · rw [if_neg hlow]
      exact hfound tryCount hlow

/-- The slide of a try is whole pages on top of that without KASLR. -/
theorem Slid.pages {k minVaddr imageSize lowerSlide slide : Nat} (hk : 12 ≤ k ∧ k < 64)
    (h : Slid (2 ^ k) minVaddr imageSize lowerSlide slide) :
    ∃ x, 4096 ∣ x ∧ x < 2 ^ 32 ∧ slide = add64 x lowerSlide := by
  obtain ⟨⟨r, hr, rfl⟩, -⟩ := h
  have h1 : (4096 : Nat) ∣ r &&& not64 (2 ^ k - 1) :=
    Nat.dvd_trans (Nat.pow_dvd_pow 2 hk.1 : 2 ^ 12 ∣ 2 ^ k) (dvd_and_not64 r hk.2)
  have h2 : r &&& not64 (2 ^ k - 1) ≤ r := Nat.and_le_left
  exact ⟨_, h1, by omega, rfl⟩

theorem Slid.aligned {k minVaddr imageSize lowerSlide slide : Nat} (hk : 12 ≤ k ∧ k < 64)
    (hl : 4096 ∣ lowerSlide) (h : Slid (2 ^ k) minVaddr imageSize lowerSlide slide) :
    (4096 ∣ slide ∧ slide < 2 ^ 64) ∧ ∃ x, x < 2 ^ 32 ∧ slide = add64 x lowerSlide := by
  obtain ⟨x, hx, hlt, rfl⟩ := h.pages hk
  refine ⟨⟨?_, add64_lt _ _⟩, x, hlt, rfl⟩
  unfold add64
  omega

end Limine.Loader
