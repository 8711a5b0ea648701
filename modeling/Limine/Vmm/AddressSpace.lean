import Limine.Lib.RadixTable
import Mathlib.Data.Nat.ModEq

/-!
# Virtual addresses

The mapped part of a 64-bit address space is a low and a high half of `2 ^ half` bytes.  Walks use
the low `bits` bits of an address, and the half chooses the tree where each half has its own; `key`
is the address as the trees see it.
-/

namespace Limine.Vmm

open Limine.Lib

structure AddressSpace where
  /-- the level of the root tables -/
  levels : Nat
  half : Nat
  bits : Nat
  /-- each half has a tree of its own -/
  twoTrees : Bool
  levels_le : 12 + 9 * levels ≤ half
  half_le : half ≤ bits
  bits_le : bits ≤ 12 + 9 * (levels + 1)
  half_lt : twoTrees = false → half < bits
  bits_lt : bits < 64

namespace AddressSpace

variable (V : AddressSpace)

/-- The address lies in one of the halves. -/
def Valid (v : Nat) : Prop := v < 2 ^ V.half ∨ 2 ^ 64 - 2 ^ V.half ≤ v ∧ v < 2 ^ 64

instance (v : Nat) : Decidable (V.Valid v) := inferInstanceAs (Decidable (_ ∨ _))

/-- The number of the address's tree. -/
def tree (v : Nat) : Nat := if V.twoTrees then v / 2 ^ 63 else 0

def key (v : Nat) : Nat := V.tree v * pageBytes (V.levels + 1) + v % 2 ^ V.bits

def trees (root : Nat → Nat) : Trees := ⟨V.levels, root, if V.twoTrees then 2 else 1⟩

variable {V}

theorem Valid.lt {v : Nat} (h : V.Valid v) : v < 2 ^ 64 := by
  have h1 : 2 ^ V.half ≤ 2 ^ 64 :=
    Nat.pow_le_pow_right (by decide) (by have := V.half_le; have := V.bits_lt; omega)
  rcases h with h | h <;> omega

theorem mod_bits_lt (v : Nat) : v % 2 ^ V.bits < pageBytes (V.levels + 1) :=
  Nat.lt_of_lt_of_le (Nat.mod_lt _ (Nat.two_pow_pos _)) (Nat.pow_le_pow_right (by decide) V.bits_le)

theorem slotOf_key (v : Nat) : slotOf (V.levels + 1) (V.key v) = V.tree v := by
  unfold slotOf key
  rw [Nat.mul_comm, Nat.mul_add_div (pageBytes_pos _), Nat.div_eq_of_lt (mod_bits_lt v), Nat.add_zero]

theorem Valid.has {v : Nat} (h : V.Valid v) (root : Nat → Nat) : (V.trees root).Has (V.key v) := by
  have hlt := h.lt
  show slotOf (V.levels + 1) (V.key v) < if V.twoTrees then 2 else 1
  rw [slotOf_key, tree]
  split <;> omega

theorem slotIndex_key {k : Nat} (hk : k ≤ V.levels) (v : Nat) :
    slotIndex k (V.key v) = v % 2 ^ V.bits / pageBytes k % 512 := by
  have hdvd : pageBytes k * 512 ∣ pageBytes (V.levels + 1) := by
    rw [← pageBytes_succ]
    exact pageBytes_dvd (by omega)
  obtain ⟨c, hc⟩ := hdvd
  unfold slotIndex slotOf key
  rw [hc, Nat.mul_assoc, Nat.mul_left_comm, Nat.mul_add_div (pageBytes_pos _), Nat.mul_left_comm,
    Nat.mul_add_mod]

/-- A table index, as long as it is taken from the bits that all walks use. -/
theorem slotIndex_key_of_le {k : Nat} (hk : k ≤ V.levels) (hb : 12 + 9 * (k + 1) ≤ V.bits) (v : Nat) :
    slotIndex k (V.key v) = v / pageBytes k % 512 := by
  rw [slotIndex_key hk]
  have hd : pageBytes k * 512 ∣ 2 ^ V.bits := by
    rw [← pageBytes_succ]
    exact Nat.pow_dvd_pow 2 hb
  rw [← Nat.mod_mul_right_div_self, Nat.mod_mod_of_dvd _ hd, Nat.mod_mul_right_div_self]

/-! ## Pages -/

/-- Whether an address is valid, and its tree, depend on its page only. -/
theorem page_congr {k : Nat} (hk : k ≤ V.levels) {v v' : Nat} (h : v / pageBytes k = v' / pageBytes k) :
    (V.Valid v ↔ V.Valid v') ∧ V.tree v = V.tree v' ∧
      v % 2 ^ V.bits / pageBytes k = v' % 2 ^ V.bits / pageBytes k := by
  have h0 := pageBytes_pos k
  have hl := V.levels_le
  have hh := V.half_le
  have hb := V.bits_lt
  have hdvd : ∀ n, V.half ≤ n → pageBytes k ∣ 2 ^ n := fun n hn => Nat.pow_dvd_pow 2 (by omega)
  have hlt : ∀ n, V.half ≤ n → (v < 2 ^ n ↔ v' < 2 ^ n) := by
    intro n hn
    obtain ⟨c, hc⟩ := hdvd n hn
    rw [hc, Nat.mul_comm, ← Nat.div_lt_iff_lt_mul h0, ← Nat.div_lt_iff_lt_mul h0, h]
  have hle : 2 ^ 64 - 2 ^ V.half ≤ v ↔ 2 ^ 64 - 2 ^ V.half ≤ v' := by
    obtain ⟨c, hc⟩ := Nat.dvd_sub (hdvd 64 (by omega)) (hdvd V.half (Nat.le_refl _))
    rw [hc, Nat.mul_comm, ← Nat.le_div_iff_mul_le h0, ← Nat.le_div_iff_mul_le h0, h]
  refine ⟨?_, ?_, ?_⟩
  · unfold Valid
    rw [hlt V.half (Nat.le_refl _), hle, hlt 64 (by omega)]
  · obtain ⟨c, hc⟩ := hdvd 63 (by omega)
    unfold tree
    rw [hc, ← Nat.div_div_eq_div_mul, ← Nat.div_div_eq_div_mul, h]
  · obtain ⟨c, hc⟩ := hdvd V.bits hh
    rw [hc, Nat.mod_mul_right_div_self, Nat.mod_mul_right_div_self, h]

theorem key_div {k : Nat} (hk : k ≤ V.levels) (v : Nat) :
    ∃ c, V.key v = pageBytes k * (V.tree v * c + v % 2 ^ V.bits / pageBytes k) + v % pageBytes k ∧
      pageBytes (V.levels + 1) = pageBytes k * c := by
  obtain ⟨c, hc⟩ := @pageBytes_dvd k (V.levels + 1) (by omega)
  refine ⟨c, ?_, hc⟩
  have hd : pageBytes k ∣ 2 ^ V.bits :=
    Nat.pow_dvd_pow 2 (by have := V.levels_le; have := V.half_le; omega)
  have hm := Nat.div_add_mod (v % 2 ^ V.bits) (pageBytes k)
  rw [Nat.mod_mod_of_dvd _ hd] at hm
  unfold key
  rw [hc, Nat.mul_add, Nat.add_assoc, hm, Nat.mul_left_comm]

/-- The bytes of a page are the bytes of a page of the tree. -/
theorem key_page {k : Nat} (hk : k ≤ V.levels) {v i : Nat} (hv : V.Valid v) (hi : i < pageBytes k) :
    V.Valid (v / pageBytes k * pageBytes k + i) ∧
      V.key (v / pageBytes k * pageBytes k + i) = slotOf k (V.key v) * pageBytes k + i := by
  have h0 := pageBytes_pos k
  have hdiv : (v / pageBytes k * pageBytes k + i) / pageBytes k = v / pageBytes k := by
    rw [Nat.mul_comm, Nat.mul_add_div h0, Nat.div_eq_of_lt hi, Nat.add_zero]
  have hmod : (v / pageBytes k * pageBytes k + i) % pageBytes k = i := by
    rw [Nat.mul_comm, Nat.mul_add_mod, Nat.mod_eq_of_lt hi]
  obtain ⟨h1, h2, h3⟩ := page_congr hk hdiv
  refine ⟨h1.mpr hv, ?_⟩
  obtain ⟨c, hc, hc'⟩ := key_div hk (v / pageBytes k * pageBytes k + i)
  obtain ⟨c', hd, hd'⟩ := key_div hk v
  obtain rfl : c = c' := Nat.eq_of_mul_eq_mul_left h0 (hc'.symm.trans hd')
  rw [hc, h2, h3, hmod]
  unfold slotOf
  rw [hd, Nat.mul_add_div h0, Nat.div_eq_of_lt (Nat.mod_lt _ h0), Nat.add_zero, Nat.mul_comm]

theorem mod_bits_of_high {v : Nat} (h1 : 2 ^ 64 - 2 ^ V.half ≤ v) (h2 : v < 2 ^ 64) :
    v % 2 ^ V.bits = v - (2 ^ 64 - 2 ^ V.bits) := by
  have hle : 2 ^ V.half ≤ 2 ^ V.bits := Nat.pow_le_pow_right (by decide) V.half_le
  obtain ⟨z, hz⟩ : 2 ^ V.bits ∣ 2 ^ 64 - 2 ^ V.bits :=
    Nat.dvd_sub (Nat.pow_dvd_pow 2 (by have := V.bits_lt; omega)) (Nat.dvd_refl _)
  have hv : v = 2 ^ V.bits * z + (v - (2 ^ 64 - 2 ^ V.bits)) := by omega
  conv_lhs => rw [hv]
  rw [Nat.mul_add_mod]
  exact Nat.mod_eq_of_lt (by omega)

theorem key_inj {v v' : Nat} (hv : V.Valid v) (hv' : V.Valid v') (h : V.key v = V.key v') : v = v' := by
  have htree : V.tree v = V.tree v' := by rw [← slotOf_key, ← slotOf_key, h]
  have hmod : v % 2 ^ V.bits = v' % 2 ^ V.bits := by
    unfold key at h
    rw [htree] at h
    exact Nat.add_left_cancel h
  have hle : 2 ^ V.half ≤ 2 ^ V.bits := Nat.pow_le_pow_right (by decide) V.half_le
  have h63 : 2 ^ V.bits ≤ 2 ^ 63 := Nat.pow_le_pow_right (by decide) (by have := V.bits_lt; omega)
  -- the halves do not meet
  have apart : ∀ u u', u < 2 ^ V.half → 2 ^ 64 - 2 ^ V.half ≤ u' → u' < 2 ^ 64 →
      V.tree u = V.tree u' → u % 2 ^ V.bits = u' % 2 ^ V.bits → False := by
    intro u u' hu h1 h2 ht hm
    unfold tree at ht
    split at ht
    · omega
    · next htwo =>
      have hlt : 2 ^ (V.half + 1) ≤ 2 ^ V.bits :=
        Nat.pow_le_pow_right (by decide) (V.half_lt (Bool.eq_false_iff.mpr htwo))
      rw [Nat.pow_succ] at hlt
      rw [mod_bits_of_high h1 h2, Nat.mod_eq_of_lt (by omega)] at hm
      omega
  rcases hv with hv | ⟨h1, h2⟩
  · rcases hv' with hv' | ⟨h1', h2'⟩
    · rwa [Nat.mod_eq_of_lt (by omega), Nat.mod_eq_of_lt (by omega)] at hmod
    · exact (apart v v' hv h1' h2' htree hmod).elim
  · rcases hv' with hv' | ⟨h1', h2'⟩
    · exact (apart v' v hv' h1 h2 htree.symm hmod.symm).elim
    · rw [mod_bits_of_high h1 h2, mod_bits_of_high h1' h2'] at hmod
      omega

/-- An address lies in the page at `virt` if and only if the trees say so. -/
theorem slotOf_key_eq_iff {k : Nat} (hk : k ≤ V.levels) {v virt : Nat} (hv : V.Valid v)
    (hvirt : V.Valid virt) (hd : pageBytes k ∣ virt) :
    slotOf k (V.key v) = slotOf k (V.key virt) ↔ virt ≤ v ∧ v < virt + pageBytes k := by
  have h0 := pageBytes_pos k
  have hdm := Nat.div_add_mod' v (pageBytes k)
  have hlt := Nat.mod_lt v h0
  have hpage : virt / pageBytes k * pageBytes k = virt := Nat.div_mul_cancel hd
  constructor
  · intro h
    have h1 := (key_page hk hv h0).2
    have h2 := (key_page hk hvirt h0).2
    rw [h, ← h2] at h1
    have h3 := key_inj (key_page hk hv h0).1 (key_page hk hvirt h0).1 h1
    omega
  · rintro ⟨h1, h2⟩
    have hbase : v = virt / pageBytes k * pageBytes k + (v - virt) := by omega
    have hkey := (key_page hk hvirt (by omega : v - virt < pageBytes k)).2
    rw [← hbase] at hkey
    rw [hkey]
    show (slotOf k (V.key virt) * pageBytes k + (v - virt)) / pageBytes k = _
    rw [Nat.mul_comm, Nat.mul_add_div h0, Nat.div_eq_of_lt (by omega), Nat.add_zero]

end AddressSpace

end Limine.Vmm
