import Limine.Lib.BitWindow
import Limine.Loader.Placement

/-!
# Write combining through the variable MTRRs

`mtrr_wc_add_fb_range` cuts the pages of a framebuffer into blocks, each of a power of two at a multiple
of its size, and puts each block into the first register that is free.  A register compares the bits of
an address that its mask has.
-/

namespace Limine.Mtrr
open Limine.Lib Limine.Loader

/-! ## Registers -/

/-- `IA32_MTRR_PHYSBASEn` and `IA32_MTRR_PHYSMASKn` -/
structure Reg where
  base : Nat
  mask : Nat
deriving DecidableEq, Repr

/-- The variable MTRRs, as many as IA32_MTRRCAP counts, and `IA32_MTRR_DEF_TYPE`. -/
structure Mtrrs where
  vars : List Reg
  defType : Nat
deriving DecidableEq, Repr

/-- What the processor tells of itself: `mtrr_supported`, bit 10 of IA32_MTRRCAP, and the number of
physical bits where leaf 0x80000008 is there. -/
structure Cpu where
  mtrrSupported : Bool
  wcSupported : Bool
  maxphysaddr : Option Nat

def mtrrTypeWc : Nat := 1

namespace Reg

/-- Bit 11 of the mask. -/
def valid (r : Reg) : Bool := r.mask.testBit 11

def existMask (r : Reg) : Nat := r.mask &&& not64 0xfff

def existBase (r : Reg) : Nat := r.base &&& not64 0xfff

def type (r : Reg) : Nat := r.base % 256

/-- The processor takes `x` to be in the range of the register. -/
def Matches (r : Reg) (x : Nat) : Prop := r.valid = true ∧ x &&& r.existMask = r.existBase &&& r.existMask

instance (r : Reg) (x : Nat) : Decidable (r.Matches x) := inferInstanceAs (Decidable (_ ∧ _))

end Reg

/-! ## The source -/

/-- `__builtin_ctzll`, of what is not 0. -/
def ctz (x : Nat) : Nat := ((List.range 64).find? fun i => x.testBit i).getD 64

/-- The mask of a block. -/
def wcMask (size maxphysaddr : Nat) : Nat := (2 ^ maxphysaddr - 1) &&& not64 (size - 1)

def wcAddMtrr (vars : List Reg) (base size type maxphysaddr : Nat) : Option (List Reg) :=
  match vars.findIdx? fun r => !r.valid with
  | none => none
  | some slot => some (vars.set slot ⟨base ||| type, wcMask size maxphysaddr ||| 2 ^ 11⟩)

/-- The next block: as large as the alignment of `base` and the rest allow. -/
def chunkSize (base span : Nat) : Nat :=
  let alignK := if base ≠ 0 then 2 ^ ctz base else span
  let sizeK := 2 ^ Nat.log2 span
  if alignK < sizeK then alignK else sizeK

theorem chunkSize_pos {base span : Nat} (h : 0 < span) : 0 < chunkSize base span := by
  have hsize : 0 < 2 ^ Nat.log2 span := Nat.two_pow_pos _
  have halign : 0 < if base ≠ 0 then 2 ^ ctz base else span := by
    split
    · exact Nat.two_pow_pos _
    · exact h
  unfold chunkSize
  generalize (if base ≠ 0 then 2 ^ ctz base else span) = alignK at halign ⊢
  generalize 2 ^ Nat.log2 span = sizeK at hsize ⊢
  show 0 < if alignK < sizeK then alignK else sizeK
  split <;> assumption

/-- The registers, as far as they were written, and whether they sufficed. -/
def wcAddChunks (vars : List Reg) (base span type maxphysaddr : Nat) : List Reg × Bool :=
  if _hspan : 0 < span then
    match wcAddMtrr vars base (chunkSize base span) type maxphysaddr with
    | none => (vars, false)
    | some vars =>
      wcAddChunks vars (base + chunkSize base span) (span - chunkSize base span) type maxphysaddr
  else (vars, true)
termination_by span
decreasing_by
  have hpos : 0 < chunkSize base span := chunkSize_pos ‹0 < span›
  omega

/-- A valid register matches one of the pages. -/
def overlapsPages (base top : Nat) (r : Reg) : Bool :=
  r.valid && (List.range ((top - base + 0xfff) / 0x1000)).any fun k =>
    (base + k * 0x1000) &&& r.existMask == r.existBase &&& r.existMask

/-- The pages of a framebuffer; `none` where their end does not fit. -/
def pageRange (base size : Nat) : Option (Nat × Nat) := do
  let top ← alignUp (← checkedAdd base size) 0x1000
  return (alignDown base 0x1000, top)

/-- The writes between the checks and the return: the MTRRs are off for as long. -/
def program (s : Mtrrs) (base size maxphysaddr : Nat) : Mtrrs × Bool :=
  let mtrrDef := s.defType
  let s := { s with defType := mtrrDef &&& not64 (2 ^ 11) }
  let (vars, ok) := wcAddChunks s.vars base size mtrrTypeWc maxphysaddr
  ({ vars := vars, defType := mtrrDef }, ok)

def mtrrWcAddFbRange (cpu : Cpu) (s : Mtrrs) (base size : Nat) : Mtrrs × Bool :=
  if size = 0 ∨ cpu.mtrrSupported = false then (s, false)
  else if cpu.wcSupported = false then (s, false)
  else match cpu.maxphysaddr with
    | none => (s, false)
    | some maxphysaddr =>
      if maxphysaddr < 32 ∨ 52 < maxphysaddr then (s, false)
      else match pageRange base size with
        | none => (s, false)
        | some (base, top) =>
          if s.vars.any (overlapsPages base top) then (s, false)
          else program s base (top - base) maxphysaddr

/-! ## Blocks -/

theorem dvd_of_testBit {x i : Nat} (h : ∀ j < i, x.testBit j = false) : 2 ^ i ∣ x := by
  refine Nat.dvd_of_mod_eq_zero (Nat.eq_of_testBit_eq fun j => ?_)
  rw [Nat.testBit_mod_two_pow, Nat.zero_testBit]
  by_cases hj : j < i
  · simp [h j hj]
  · simp [hj]

theorem testBit_of_dvd {x i j : Nat} (h : 2 ^ i ∣ x) (hj : j < i) : x.testBit j = false := by
  obtain ⟨c, rfl⟩ := h
  rw [Nat.mul_comm, Nat.testBit_mul_two_pow, decide_eq_false (by omega), Bool.false_and]

theorem ctz_spec {x : Nat} (hx : x ≠ 0) (hlt : x < 2 ^ 64) : 2 ^ ctz x ∣ x ∧ x.testBit (ctz x) = true := by
  unfold ctz
  cases h : (List.range 64).find? fun i => x.testBit i with
  | none =>
    exfalso
    rw [List.find?_eq_none] at h
    refine hx (Nat.eq_of_testBit_eq fun i => ?_)
    rw [Nat.zero_testBit]
    by_cases hi : i < 64
    · simpa using h i (List.mem_range.mpr hi)
    · exact Nat.testBit_lt_two_pow (Nat.lt_of_lt_of_le hlt (Nat.pow_le_pow_right (by decide) (by omega)))
  | some i =>
    obtain ⟨hbit, hbefore⟩ := List.find?_range_eq_some.mp h
    refine ⟨dvd_of_testBit fun j hj => ?_, hbit⟩
    simpa using hbefore.2 j hj

/-- A block of whole pages at a multiple of its size. -/
structure Block (base size maxphysaddr : Nat) : Prop where
  pow : ∃ j, size = 2 ^ j ∧ 12 ≤ j ∧ j ≤ maxphysaddr
  dvd : size ∣ base
  fits : base + size ≤ 2 ^ maxphysaddr

theorem chunkSize_spec {base span maxphysaddr : Nat} (hpos : 0 < span) (hbase : 2 ^ 12 ∣ base) (hspan : 2 ^ 12 ∣ span)
    (hfits : base + span ≤ 2 ^ maxphysaddr) (hmax : maxphysaddr ≤ 52) :
    Block base (chunkSize base span) maxphysaddr ∧ chunkSize base span ≤ span ∧ 2 ^ 12 ∣ chunkSize base span := by
  have hlarge : 2 ^ 12 ≤ span := Nat.le_of_dvd hpos hspan
  have hlog : 2 ^ Nat.log2 span ≤ span := Nat.log2_self_le (by omega)
  have hlog12 : 12 ≤ Nat.log2 span := (Nat.le_log2 (by omega)).mpr hlarge
  have hpow : 2 ^ maxphysaddr ≤ 2 ^ 52 := Nat.pow_le_pow_right (by decide) hmax
  obtain ⟨j, hj, hj12, hle, hdvd⟩ : ∃ j, chunkSize base span = 2 ^ j ∧ 12 ≤ j ∧ 2 ^ j ≤ span ∧ 2 ^ j ∣ base := by
    unfold chunkSize
    by_cases hzero : base = 0
    · refine ⟨Nat.log2 span, ?_, hlog12, hlog, hzero ▸ Nat.dvd_zero _⟩
      dsimp only
      rw [if_neg (not_not_intro hzero), if_neg (by omega)]
    · obtain ⟨hctz, hbit⟩ := ctz_spec hzero (by omega)
      have hctz12 : 12 ≤ ctz base := by
        by_contra hsmall
        rw [testBit_of_dvd hbase (by omega)] at hbit
        cases hbit
      rw [if_pos hzero]
      dsimp only
      split
      · exact ⟨ctz base, rfl, hctz12, by omega, hctz⟩
      · next hge =>
        have hexp : Nat.log2 span ≤ ctz base := (Nat.pow_le_pow_iff_right (by decide)).mp (Nat.le_of_not_lt hge)
        exact ⟨Nat.log2 span, rfl, hlog12, hlog, Nat.dvd_trans (Nat.pow_dvd_pow 2 hexp) hctz⟩
  have hjmax : j ≤ maxphysaddr := (Nat.pow_le_pow_iff_right (by decide)).mp (by omega : 2 ^ j ≤ 2 ^ maxphysaddr)
  rw [hj]
  exact ⟨⟨⟨j, rfl, hj12, hjmax⟩, hdvd, by omega⟩, hle, Nat.pow_dvd_pow 2 hj12⟩

/-! ## One register -/

theorem wcMask_eq {j maxphysaddr : Nat} (hj : j ≤ maxphysaddr) (hmax : maxphysaddr ≤ 52) :
    wcMask (2 ^ j) maxphysaddr = 2 ^ maxphysaddr - 2 ^ j := by
  have hnot : not64 (2 ^ j - 1) = 2 ^ 64 - 2 ^ j := by
    have hle : 2 ^ j ≤ 2 ^ 64 := Nat.pow_le_pow_right (by decide) (by omega)
    have hpos : 0 < 2 ^ j := Nat.two_pow_pos j
    unfold not64
    omega
  refine Nat.eq_of_testBit_eq fun i => ?_
  rw [wcMask, hnot, Nat.testBit_and, Nat.testBit_two_pow_sub_one, testBit_window (by omega), testBit_window hj]
  by_cases hi : i < maxphysaddr
  · simp [hi, show i < 64 by omega]
  · simp [hi]

/-- The register of a block. -/
def blockReg (base size type maxphysaddr : Nat) : Reg := ⟨base ||| type, wcMask size maxphysaddr ||| 2 ^ 11⟩

section
variable {base size maxphysaddr : Nat}

theorem testBit_pageMask (x i : Nat) :
    (x &&& not64 0xfff).testBit i = (x.testBit i && (decide (12 ≤ i) && decide (i < 64))) := by
  rw [Nat.testBit_and]
  exact congrArg _ (testBit_window (show 12 ≤ 64 by decide) i)

theorem Block.valid (type : Nat) : (blockReg base size type maxphysaddr).valid = true := by
  unfold Reg.valid blockReg
  rw [Nat.testBit_or, Nat.testBit_two_pow_self, Bool.or_true]

theorem Block.type (hb : Block base size maxphysaddr) :
    (blockReg base size mtrrTypeWc maxphysaddr).type = mtrrTypeWc := by
  obtain ⟨⟨j, rfl, hj, -⟩, hdvd, -⟩ := hb
  have hbase : base % 2 ^ 8 = 0 :=
    Nat.mod_eq_zero_of_dvd (Nat.dvd_trans (Nat.pow_dvd_pow 2 (by omega)) hdvd)
  show (base ||| mtrrTypeWc) % 2 ^ 8 = mtrrTypeWc
  rw [Nat.or_mod_two_pow, hbase, Nat.zero_or]
  rfl

/-- **A register has exactly its block.** -/
theorem Block.matches_iff (hb : Block base size maxphysaddr) (hmax : maxphysaddr ≤ 52) {x : Nat}
    (hx : x < 2 ^ maxphysaddr) :
    (blockReg base size mtrrTypeWc maxphysaddr).Matches x ↔ base ≤ x ∧ x < base + size := by
  obtain ⟨⟨j, rfl, hj, hjmax⟩, hdvd, hfits⟩ := hb
  have hpos : 0 < 2 ^ j := Nat.two_pow_pos j
  have hmask : (blockReg base (2 ^ j) mtrrTypeWc maxphysaddr).existMask = 2 ^ maxphysaddr - 2 ^ j := by
    refine Nat.eq_of_testBit_eq fun i => ?_
    rw [Reg.existMask, testBit_pageMask, blockReg, wcMask_eq hjmax hmax, Nat.testBit_or, testBit_window hjmax,
      Nat.testBit_two_pow]
    by_cases hi : j ≤ i ∧ i < maxphysaddr
    · simp [hi, show 12 ≤ i by omega, show i < 64 by omega]
    · by_cases h11 : 11 = i
      · subst h11
        simp [show ¬j ≤ 11 by omega]
      · have hno : (decide (j ≤ i) && decide (i < maxphysaddr)) = false := by simpa using hi
        simp [hno, h11]
  have hbase : (blockReg base (2 ^ j) mtrrTypeWc maxphysaddr).existBase &&& (2 ^ maxphysaddr - 2 ^ j) = base := by
    have hself : base &&& (2 ^ maxphysaddr - 2 ^ j) = base :=
      (and_window hjmax (by omega)).trans (Nat.div_mul_cancel hdvd)
    refine Eq.trans (Nat.eq_of_testBit_eq fun i => ?_) hself
    rw [Nat.testBit_and, Nat.testBit_and, Reg.existBase, testBit_pageMask, testBit_window hjmax, blockReg,
      Nat.testBit_or]
    by_cases hi : j ≤ i ∧ i < maxphysaddr
    · have hone : mtrrTypeWc.testBit i = false := Nat.testBit_lt_two_pow (by
        have := Nat.pow_le_pow_right (n := 2) (by decide) (show 1 ≤ i by omega)
        unfold mtrrTypeWc
        omega)
      simp [hi, hone, show 12 ≤ i by omega, show i < 64 by omega]
    · have hno : (decide (j ≤ i) && decide (i < maxphysaddr)) = false := by simpa using hi
      rw [hno, Bool.and_false, Bool.and_false]
  unfold Reg.Matches
  rw [hmask, hbase, and_window hjmax hx, div_mul_eq_iff hdvd hpos]
  exact and_iff_right (Block.valid mtrrTypeWc)

end

/-! ## All registers -/

/-- A register that was free and has been written. -/
def NewlyProgrammed (vars vars' : List Reg) (r : Reg) : Prop :=
  ∃ (i : Nat) (old : Reg), vars[i]? = some old ∧ old.valid = false ∧ vars'[i]? = some r ∧ r.valid = true

/-- The free registers that were written make `[base, top)` write combining; the others are as before. -/
structure Programmed (maxphysaddr : Nat) (vars vars' : List Reg) (base top : Nat) : Prop where
  length : vars'.length = vars.length
  kept : ∀ (i : Nat) (old : Reg), vars[i]? = some old → vars'[i]? = some old ∨
    old.valid = false ∧ ∃ r : Reg, vars'[i]? = some r ∧ r.valid = true
  type : ∀ r, NewlyProgrammed vars vars' r → r.type = mtrrTypeWc
  exact : ∀ x < 2 ^ maxphysaddr, (∃ r, NewlyProgrammed vars vars' r ∧ r.Matches x) ↔ base ≤ x ∧ x < top

section
variable {maxphysaddr : Nat} {vars vars' vars'' : List Reg} {base top size : Nat}

theorem Programmed.refl (maxphysaddr : Nat) (vars : List Reg) (base : Nat) :
    Programmed maxphysaddr vars vars base base := by
  have hnone : ∀ r, ¬NewlyProgrammed vars vars r := by
    rintro r ⟨i, old, hold, hfree, hr, hvalid⟩
    rw [Option.some.inj (hr.symm.trans hold), hfree] at hvalid
    cases hvalid
  refine ⟨rfl, fun i old h => Or.inl h, fun r hr => absurd hr (hnone r), fun x _ => iff_of_false ?_ (by omega)⟩
  rintro ⟨r, hr, -⟩
  exact hnone r hr

theorem Programmed.kept_of_valid (h : Programmed maxphysaddr vars vars' base top) {i : Nat} {old : Reg}
    (hold : vars[i]? = some old) (hvalid : old.valid = true) : vars'[i]? = some old := by
  rcases h.kept i old hold with h | ⟨hfree, -⟩
  · exact h
  · rw [hvalid] at hfree
    cases hfree

/-- What is new after two stages was new in one of them. -/
theorem newlyProgrammed_trans {m : Nat} (h : Programmed maxphysaddr vars vars' base m)
    (h' : Programmed maxphysaddr vars' vars'' m top) (r : Reg) :
    NewlyProgrammed vars vars'' r ↔ NewlyProgrammed vars vars' r ∨ NewlyProgrammed vars' vars'' r := by
  constructor
  · rintro ⟨i, old, hold, hfree, hr, hvalid⟩
    rcases h.kept i old hold with hsame | ⟨-, r', hr', hvalid'⟩
    · exact Or.inr ⟨i, old, hsame, hfree, hr, hvalid⟩
    · obtain rfl := Option.some.inj ((h'.kept_of_valid hr' hvalid').symm.trans hr)
      exact Or.inl ⟨i, old, hold, hfree, hr', hvalid⟩
  · rintro (⟨i, old, hold, hfree, hr, hvalid⟩ | ⟨i, r', hr', hfree', hr, hvalid⟩)
    · exact ⟨i, old, hold, hfree, h'.kept_of_valid hr hvalid, hvalid⟩
    · have hlt : i < vars.length := h.length ▸ (List.getElem?_eq_some_iff.mp hr').1
      rcases h.kept i vars[i] (List.getElem?_eq_getElem hlt) with hsame | ⟨-, r'', hr'', hvalid''⟩
      · exact ⟨i, r', (List.getElem?_eq_getElem hlt).trans (hsame.symm.trans hr'), hfree', hr, hvalid⟩
      · rw [Option.some.inj (hr''.symm.trans hr'), hfree'] at hvalid''
        cases hvalid''

theorem Programmed.trans {m : Nat} (h : Programmed maxphysaddr vars vars' base m)
    (h' : Programmed maxphysaddr vars' vars'' m top) (hle : base ≤ m) (hle' : m ≤ top) :
    Programmed maxphysaddr vars vars'' base top where
  length := h'.length.trans h.length
  kept i old hold := by
    rcases h.kept i old hold with hsame | ⟨hfree, r, hr, hvalid⟩
    · exact h'.kept i old hsame
    · exact Or.inr ⟨hfree, r, h'.kept_of_valid hr hvalid, hvalid⟩
  type r hr := ((newlyProgrammed_trans h h' r).mp hr).elim (h.type r) (h'.type r)
  exact x hx := by
    have hfirst := h.exact x hx
    have hsecond := h'.exact x hx
    simp only [newlyProgrammed_trans h h', or_and_right, exists_or, hfirst, hsecond]
    omega

theorem Programmed.set {slot : Nat} {old : Reg} (hslot : vars[slot]? = some old) (hfree : old.valid = false)
    (hb : Block base size maxphysaddr) (hmax : maxphysaddr ≤ 52) :
    Programmed maxphysaddr vars (vars.set slot (blockReg base size mtrrTypeWc maxphysaddr)) base (base + size) := by
  have hlt : slot < vars.length := (List.getElem?_eq_some_iff.mp hslot).1
  have hself : (vars.set slot (blockReg base size mtrrTypeWc maxphysaddr))[slot]? =
      some (blockReg base size mtrrTypeWc maxphysaddr) := List.getElem?_set_self hlt
  have hnew : ∀ r, NewlyProgrammed vars (vars.set slot (blockReg base size mtrrTypeWc maxphysaddr)) r ↔
      r = blockReg base size mtrrTypeWc maxphysaddr := by
    intro r
    constructor
    · rintro ⟨i, old', hold', hfree', hr, hvalid⟩
      by_cases hi : slot = i
      · subst hi
        exact Option.some.inj (hr.symm.trans hself)
      · rw [List.getElem?_set_ne hi, hold'] at hr
        rw [← Option.some.inj hr, hfree'] at hvalid
        cases hvalid
    · rintro rfl
      exact ⟨slot, old, hslot, hfree, hself, Block.valid mtrrTypeWc⟩
  refine ⟨List.length_set, fun i old' hold' => ?_, fun r hr => ?_, fun x hx => ?_⟩
  · by_cases hi : slot = i
    · subst hi
      obtain rfl := Option.some.inj (hslot.symm.trans hold')
      exact Or.inr ⟨hfree, _, hself, Block.valid mtrrTypeWc⟩
    · rw [List.getElem?_set_ne hi]
      exact Or.inl hold'
  · rw [(hnew r).mp hr]
    exact hb.type
  · simp only [hnew, exists_eq_left]
    exact hb.matches_iff hmax hx

theorem wcAddMtrr_none {type : Nat} (h : wcAddMtrr vars base size type maxphysaddr = none) :
    ∀ r ∈ vars, r.valid = true := by
  unfold wcAddMtrr at h
  split at h
  · next hfind =>
    intro r hr
    simpa using List.findIdx?_eq_none_iff.mp hfind r hr
  · cases h

theorem wcAddMtrr_some {type : Nat} (h : wcAddMtrr vars base size type maxphysaddr = some vars') :
    ∃ (slot : Nat) (old : Reg), vars[slot]? = some old ∧ old.valid = false ∧
      vars' = vars.set slot (blockReg base size type maxphysaddr) := by
  unfold wcAddMtrr at h
  split at h
  · cases h
  · next slot hfind =>
    obtain ⟨hlt, hfree, -⟩ := List.findIdx?_eq_some_iff_getElem.mp hfind
    exact ⟨slot, vars[slot], List.getElem?_eq_getElem hlt, by simpa using hfree, (Option.some.inj h).symm⟩

/-- **The loop**: as long as there are free registers, the blocks line up. -/
theorem wcAddChunks_spec (hmax : maxphysaddr ≤ 52) (span : Nat) :
    ∀ vars base, 2 ^ 12 ∣ base → 2 ^ 12 ∣ span → base + span ≤ 2 ^ maxphysaddr →
      ∃ t, base ≤ t ∧ t ≤ base + span ∧
        Programmed maxphysaddr vars (wcAddChunks vars base span mtrrTypeWc maxphysaddr).1 base t ∧
        (t = base → (wcAddChunks vars base span mtrrTypeWc maxphysaddr).1 = vars) ∧
        ((wcAddChunks vars base span mtrrTypeWc maxphysaddr).2 = true → t = base + span) ∧
        ((wcAddChunks vars base span mtrrTypeWc maxphysaddr).2 = false → t < base + span ∧
          ∀ r ∈ (wcAddChunks vars base span mtrrTypeWc maxphysaddr).1, r.valid = true) := by
  induction span using Nat.strong_induction_on with
  | _ span ih =>
    intro vars base hbase hspan hfits
    rw [wcAddChunks]
    by_cases hpos : 0 < span
    · rw [dif_pos hpos]
      obtain ⟨hblock, hle, hdvd⟩ := chunkSize_spec hpos hbase hspan hfits hmax
      have hchunk := (chunkSize_pos hpos : 0 < chunkSize base span)
      cases hadd : wcAddMtrr vars base (chunkSize base span) mtrrTypeWc maxphysaddr with
      | none =>
        refine ⟨base, Nat.le_refl _, by omega, Programmed.refl _ _ _, fun _ => rfl, fun h => ?_,
          fun _ => ⟨by omega, wcAddMtrr_none hadd⟩⟩
        cases h
      | some vars' =>
        obtain ⟨slot, old, hslot, hfree, rfl⟩ := wcAddMtrr_some hadd
        obtain ⟨t, hlow, hhigh, hprog, -, hok, hfail⟩ := ih (span - chunkSize base span) (by omega)
          (vars.set slot (blockReg base (chunkSize base span) mtrrTypeWc maxphysaddr)) (base + chunkSize base span)
          (Nat.dvd_add hbase hdvd) (Nat.dvd_sub hspan hdvd) (by omega)
        refine ⟨t, by omega, by omega, (Programmed.set hslot hfree hblock hmax).trans hprog (by omega) hlow,
          fun h => by omega, fun h => ?_, fun h => ?_⟩
        · have := hok h
          omega
        · obtain ⟨hlt, hall⟩ := hfail h
          exact ⟨by omega, hall⟩
    · rw [dif_neg hpos]
      obtain rfl : span = 0 := by omega
      refine ⟨base, Nat.le_refl _, by omega, Programmed.refl _ _ _, fun _ => rfl, fun _ => rfl, fun h => ?_⟩
      cases h

end

/-! ## The framebuffer -/

/-- What the registers that were free and have been written do for the pages `[base, top)`. -/
structure Combined (maxphysaddr : Nat) (vars vars' : List Reg) (base top : Nat) : Prop
    extends Programmed maxphysaddr vars vars' base top where
  apart : ∀ r, NewlyProgrammed vars vars' r → ∀ old ∈ vars, ∀ x < 2 ^ maxphysaddr, r.Matches x → ¬old.Matches x

/-- A register sees no more of an address than its page. -/
theorem Reg.matches_page (r : Reg) (x : Nat) : r.Matches x ↔ r.Matches (x / 0x1000 * 0x1000) := by
  have hpage : x &&& r.existMask = (x / 0x1000 * 0x1000) &&& r.existMask := by
    refine Nat.eq_of_testBit_eq fun i => ?_
    rw [Nat.testBit_and, Nat.testBit_and, show (0x1000 : Nat) = 2 ^ 12 from rfl, testBit_div_mul, Reg.existMask,
      testBit_pageMask]
    by_cases hi : 12 ≤ i
    · simp [hi]
    · simp [hi]
  unfold Reg.Matches
  rw [hpage]

theorem not_matches_of_overlapsPages {base top : Nat} {r : Reg} (hbase : 0x1000 ∣ base)
    (h : overlapsPages base top r = false) {x : Nat} (hx : base ≤ x ∧ x < top) : ¬r.Matches x := by
  intro hmatch
  obtain ⟨hvalid, heq⟩ := (r.matches_page x).mp hmatch
  unfold overlapsPages at h
  rw [hvalid, Bool.true_and, List.any_eq_false] at h
  refine h ((x - base) / 0x1000) (List.mem_range.mpr (by omega)) ?_
  rw [show base + (x - base) / 0x1000 * 0x1000 = x / 0x1000 * 0x1000 by omega]
  simpa using heq

theorem pageRange_eq_some {base size : Nat} {r : Nat × Nat} (h : pageRange base size = some r) :
    r = (pageDown base, pageUp (base + size)) := by
  unfold pageRange at h
  obtain ⟨sum, hsum, h⟩ := Option.bind_eq_some_iff.mp h
  obtain ⟨top, htop, h⟩ := Option.bind_eq_some_iff.mp h
  obtain ⟨-, rfl⟩ := checkedAdd_eq_some_iff.mp hsum
  obtain ⟨rfl, -⟩ := alignUp_eq_some htop
  exact (Option.some.inj h).symm

/-- What the writes leave: all pages, or those that the free registers sufficed for. -/
theorem program_spec {s : Mtrrs} {base top maxphysaddr : Nat} (hbase : 0x1000 ∣ base) (htop : 0x1000 ∣ top)
    (hle : base ≤ top) (hfits : top ≤ 2 ^ maxphysaddr) (hmax : maxphysaddr ≤ 52)
    (hclear : ∀ r ∈ s.vars, overlapsPages base top r = false) :
    (program s base (top - base) maxphysaddr).1.defType = s.defType ∧
      ∃ t ≤ top, Combined maxphysaddr s.vars (program s base (top - base) maxphysaddr).1.vars base t ∧
        (t = base → (program s base (top - base) maxphysaddr).1.vars = s.vars) ∧ base ≤ t ∧
        ((program s base (top - base) maxphysaddr).2 = true → t = top) ∧
        ((program s base (top - base) maxphysaddr).2 = false → t < top ∧
          ∀ r ∈ (program s base (top - base) maxphysaddr).1.vars, r.valid = true) := by
  obtain ⟨t, hlow, hhigh, hprog, hsame, hok, hfail⟩ := wcAddChunks_spec hmax (top - base) s.vars base hbase
    (Nat.dvd_sub htop hbase) (by omega)
  refine ⟨rfl, t, by omega, ⟨hprog, fun r hr old hold x hx hmatch => ?_⟩, hsame, hlow, fun h => ?_, fun h => ?_⟩
  · have hin := (hprog.exact x hx).mp ⟨r, hr, hmatch⟩
    exact not_matches_of_overlapsPages hbase (hclear old hold) (by omega)
  · have := hok h
    omega
  · obtain ⟨hlt, hall⟩ := hfail h
    exact ⟨by omega, hall⟩

/-- **Write combining for a framebuffer**: true means that the free registers that were written match the
pages and nothing else; false, that no register has changed or that all of them are in use, with the first
of the pages in them. -/
theorem mtrrWcAddFbRange_spec {cpu : Cpu} {maxphysaddr : Nat} (hcpu : cpu.maxphysaddr = some maxphysaddr) (s : Mtrrs)
    {base size : Nat} (hfits : pageUp (base + size) ≤ 2 ^ maxphysaddr) :
    (mtrrWcAddFbRange cpu s base size).1.defType = s.defType ∧
      ((mtrrWcAddFbRange cpu s base size).2 = true →
        Combined maxphysaddr s.vars (mtrrWcAddFbRange cpu s base size).1.vars (pageDown base) (pageUp (base + size))) ∧
      ((mtrrWcAddFbRange cpu s base size).2 = false →
        (mtrrWcAddFbRange cpu s base size).1.vars = s.vars ∨
        ∃ t, pageDown base < t ∧ t < pageUp (base + size) ∧
          Combined maxphysaddr s.vars (mtrrWcAddFbRange cpu s base size).1.vars (pageDown base) t ∧
          ∀ r ∈ (mtrrWcAddFbRange cpu s base size).1.vars, r.valid = true) := by
  generalize hres : mtrrWcAddFbRange cpu s base size = res
  -- the checks
  have hrefused : res = (s, false) → res.1.defType = s.defType ∧
      (res.2 = true → Combined maxphysaddr s.vars res.1.vars (pageDown base) (pageUp (base + size))) ∧
      (res.2 = false → res.1.vars = s.vars ∨ ∃ t, pageDown base < t ∧ t < pageUp (base + size) ∧
        Combined maxphysaddr s.vars res.1.vars (pageDown base) t ∧ ∀ r ∈ res.1.vars, r.valid = true) := by
    rintro rfl
    exact ⟨rfl, nofun, fun _ => Or.inl rfl⟩
  unfold mtrrWcAddFbRange at hres
  rw [hcpu] at hres
  dsimp only at hres
  by_cases hsize : size = 0 ∨ cpu.mtrrSupported = false
  · rw [if_pos hsize] at hres
    exact hrefused hres.symm
  rw [if_neg hsize] at hres
  by_cases hwc : cpu.wcSupported = false
  · rw [if_pos hwc] at hres
    exact hrefused hres.symm
  rw [if_neg hwc] at hres
  by_cases hmax : maxphysaddr < 32 ∨ 52 < maxphysaddr
  · rw [if_pos hmax] at hres
    exact hrefused hres.symm
  rw [if_neg hmax] at hres
  cases hrange : pageRange base size with
  | none =>
    rw [hrange] at hres
    exact hrefused hres.symm
  | some r =>
    rw [hrange, pageRange_eq_some hrange] at hres
    dsimp only at hres
    by_cases hany : s.vars.any (overlapsPages (pageDown base) (pageUp (base + size))) = true
    · rw [if_pos hany] at hres
      exact hrefused hres.symm
    · rw [if_neg hany] at hres
      have hdown : pageDown base ≤ base := pageDown_le base
      have hup := le_pageUp (base + size)
      have hclear : ∀ r ∈ s.vars, overlapsPages (pageDown base) (pageUp (base + size)) r = false := fun r hr => by
        simpa using List.any_eq_false.mp (Bool.eq_false_iff.mpr hany) r hr
      obtain ⟨hdef, t, hle, hprog, hsame, hlow, hok, hfail⟩ := program_spec
        (show 0x1000 ∣ pageDown base from Nat.dvd_mul_left _ _)
        (show 0x1000 ∣ pageUp (base + size) from Nat.dvd_mul_left _ _) (by omega) hfits (by omega) hclear
      rw [hres] at hdef hprog hsame hok hfail
      refine ⟨hdef, fun h => hok h ▸ hprog, fun h => ?_⟩
      obtain ⟨hlt, hall⟩ := hfail h
      rcases Nat.eq_or_lt_of_le hlow with heq | hlow
      · exact Or.inl (hsame heq.symm)
      · exact Or.inr ⟨t, hlow, hlt, hprog, hall⟩

/-! ## Processors -/

def plainCpu : Cpu := ⟨true, true, some 36⟩

/-- Two registers: write back for what is below 2 GiB, and a free one. -/
def oneFree : Mtrrs := ⟨[⟨6, 0xf80000800⟩, ⟨0, 0⟩], 0xc00⟩

/-- 16 MiB at 3 GiB, one block. -/
theorem mtrrWcAddFbRange_block : Combined 36 oneFree.vars [⟨6, 0xf80000800⟩, ⟨0xc0000001, 0xfff000800⟩]
    0xc0000000 0xc1000000 := by
  have hrun : mtrrWcAddFbRange plainCpu oneFree 0xc0000000 0xffffff =
      (⟨[⟨6, 0xf80000800⟩, ⟨0xc0000001, 0xfff000800⟩], 0xc00⟩, true) := by decide +kernel
  have h := (mtrrWcAddFbRange_spec (show plainCpu.maxphysaddr = some 36 from rfl) oneFree
    (show pageUp (0xc0000000 + 0xffffff) ≤ 2 ^ 36 by decide)).2.1
  rw [hrun] at h
  exact h rfl

/-- Three pages that come to two blocks: the first of them stays in the only free register. -/
theorem mtrrWcAddFbRange_partial : ∃ s', mtrrWcAddFbRange plainCpu oneFree 0xc0001000 0x3000 = (s', false) ∧
    s'.vars ≠ oneFree.vars :=
  ⟨⟨[⟨6, 0xf80000800⟩, ⟨0xc0001001, 0xffffff800⟩], 0xc00⟩, by decide +kernel, by decide⟩

end Limine.Mtrr
