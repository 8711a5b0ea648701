import Mathlib.Data.Nat.ModEq
import Limine.Elf.Safety

/-!
# Where the segments come to lie

`elf64_load` takes memory and slides by the largest `p_align`, but relative to the lowest `p_vaddr`
rounded down to a page.  The addresses keep their place in the alignment only where that page is
aligned itself.
-/

namespace Limine.Elf
open Limine.Loader Limine.Lib

/-! ## Steps of a load -/

/-- How a load that returned got to its memory and its slide. -/
structure Steps (args : LoadArgs) (f : File) (r : Loaded) (maxAlign : Nat) (layout : Layout) : Prop where
  align : elf64MaxAlign f (elf64Hdr f.byte 0) = .ok maxAlign
  laid : forPhdrs f (elf64Hdr f.byte 0) (layoutStep r.isReloc args.ranges) {} = .ok layout
  memory : imageMemory args.alloc (sub64 layout.maxVaddr layout.base) maxAlign = .ok r.region
  slide : chooseSlide args r.isReloc maxAlign layout.base (sub64 layout.maxVaddr layout.base) layout.lowerSlide =
    .ok r.slide
  virtualBase : r.virtualBase = add64 layout.base r.slide

section
variable {args : LoadArgs} {f : File} {r : Loaded}

theorem elf64LoadImage_steps {hdr : Elf64Hdr} {isReloc : Bool} {maxAlign : Nat} {layout : Layout}
    (h : elf64LoadImage args f hdr isReloc maxAlign layout = .ok r) :
    r.isReloc = isReloc ∧
      imageMemory args.alloc (sub64 layout.maxVaddr layout.base) maxAlign = .ok r.region ∧
      chooseSlide args isReloc maxAlign layout.base (sub64 layout.maxVaddr layout.base) layout.lowerSlide =
        .ok r.slide ∧
      r.virtualBase = add64 layout.base r.slide := by
  unfold elf64LoadImage at h
  obtain ⟨-, -, h⟩ := except_bind_eq_ok.mp h
  obtain ⟨reg, hreg, h⟩ := except_bind_eq_ok.mp h
  obtain ⟨slide, hslide, h⟩ := except_bind_eq_ok.mp h
  obtain ⟨prepared, -, h⟩ := except_bind_eq_ok.mp h
  cases prepared with
  | none => cases h
  | some st =>
    obtain ⟨acc, -, h⟩ := except_bind_eq_ok.mp h
    obtain ⟨ranges, -, h⟩ := except_bind_eq_ok.mp h
    obtain rfl := Except.ok.inj h
    exact ⟨rfl, hreg, hslide, rfl⟩

theorem elf64Load_steps (h : elf64Load args f = .ok r) : ∃ maxAlign layout, Steps args f r maxAlign layout := by
  have hrun := h
  unfold elf64Load at hrun
  by_cases hsize : elf64HdrSize ≤ f.size
  · rw [File.read_eq (by omega), ok_bind] at hrun
    obtain ⟨relocatable, -, hrun⟩ := except_bind_eq_ok.mp hrun
    obtain ⟨maxAlign, hmax, hrun⟩ := except_bind_eq_ok.mp hrun
    obtain ⟨layout, hlayout, hrun⟩ := except_bind_eq_ok.mp hrun
    obtain ⟨hreloc, hmemory, hslide, hbase⟩ := elf64LoadImage_steps hrun
    rw [← hreloc] at hlayout hslide
    exact ⟨maxAlign, layout, hmax, hlayout, hmemory, hslide, hbase⟩
  · have hread : f.read 0 elf64HdrSize elf64Hdr = .error .fileBounds := if_neg (by omega)
    rw [hread] at hrun
    cases hrun

theorem Steps.laidOut {maxAlign : Nat} {layout : Layout} (h : elf64Load args f = .ok r)
    (hs : Steps args f r maxAlign layout) :
    LaidOut r.isReloc args.ranges (segments f (elf64Hdr f.byte 0)) layout := by
  obtain ⟨_, _, _, _, hloads⟩ := elf64Load_loads h
  have hlayout := hs.laid
  rw [forPhdrs_eq_segments hloads.table hloads.reach] at hlayout
  · exact (layout_foldlM fun p hp => segments_loadable hp).of_ok hlayout
  · intro s p hp
    unfold layoutStep
    rw [hp]
    rfl

end

/-! ## The largest alignment -/

/-- `align` of the source: `p_align`, where 0 means 1. -/
def Elf64Phdr.alignment (p : Elf64Phdr) : Nat := if p.align ≤ 1 then 1 else p.align

theorem maxAlign_dvd (ps : List Elf64Phdr) :
    Safely (ps.foldlM maxAlignStep (0, 0)) fun acc =>
      ∀ p ∈ ps, p.loadable = true → p.badAlign = false ∧ p.align ≤ acc.1 := by
  refine Ends.foldlM (fun (front : List Elf64Phdr) (acc : Nat × Nat) =>
    ∀ p ∈ front, p.loadable = true → p.badAlign = false ∧ p.align ≤ acc.1) ?_ (by simp)
  intro front p rest acc hps hfront
  unfold maxAlignStep
  cases hload : p.loadable with
  | false =>
    intro q hq hql
    rcases List.mem_append.mp hq with hq | hq
    · exact hfront q hq hql
    · rw [List.mem_singleton.mp hq, hload] at hql
      cases hql
  | true =>
    cases hbad : p.badAlign with
    | true => trivial
    | false =>
      intro q hq hql
      show _ ∧ _ ≤ if p.align > acc.1 then p.align else acc.1
      rcases List.mem_append.mp hq with hq | hq
      · have hle := (hfront q hq hql).2
        refine ⟨(hfront q hq hql).1, ?_⟩
        split <;> omega
      · rw [List.mem_singleton.mp hq]
        refine ⟨hbad, ?_⟩
        split <;> omega

theorem Elf64Phdr.alignment_pow {p : Elf64Phdr} (hp : p.badAlign = false) (hlt : p.align < 2 ^ 64) :
    ∃ j, p.alignment = 2 ^ j ∧ j < 64 := by
  unfold Elf64Phdr.alignment
  split
  · exact ⟨0, rfl, by decide⟩
  · obtain ⟨j, hj⟩ := isPowerOfTwo_of_not_badAlign hp (by omega)
    rw [hj] at hlt
    exact ⟨j, hj, (Nat.pow_lt_pow_iff_right (by omega)).mp hlt⟩

/-- The alignments of the segments divide that of the image. -/
theorem elf64MaxAlign_dvd {f : File} {hdr : Elf64Hdr} (ht : TableOk f hdr) (hr : hdr.phNum ≤ reach hdr) {a : Nat}
    (h : elf64MaxAlign f hdr = .ok a) :
    (∃ k, a = 2 ^ k ∧ 12 ≤ k ∧ k < 64) ∧
      ∀ p ∈ segments f hdr, ∃ j, p.alignment = 2 ^ j ∧ j < 64 ∧ p.alignment ∣ a := by
  have hpow := ((elf64MaxAlign_safely ht hr).of_ok h).1
  refine ⟨hpow, fun p hp => ?_⟩
  obtain ⟨k, rfl, hk⟩ := hpow
  obtain ⟨hmem, hload⟩ := List.mem_filter.mp hp
  have hlt : ∀ p ∈ phdrs f hdr, p.align < 2 ^ 64 := by
    intro p hp
    obtain ⟨i, -, rfl⟩ := List.mem_map.mp hp
    exact phdr_align_lt i
  unfold elf64MaxAlign checkPhdrSize at h
  obtain ⟨-, -, h⟩ := except_bind_eq_ok.mp h
  obtain ⟨acc, hacc, h⟩ := except_bind_eq_ok.mp h
  rw [forPhdrs_eq_foldlM ht hr] at hacc
  obtain ⟨-, -, h⟩ := except_bind_eq_ok.mp h
  have hmax : (if acc.1 < 4096 then 4096 else acc.1) = 2 ^ k := Except.ok.inj h
  obtain ⟨hgood, hle⟩ := (maxAlign_dvd (phdrs f hdr)).of_ok hacc p hmem hload
  obtain ⟨j, hj, hj64⟩ := Elf64Phdr.alignment_pow hgood (hlt p hmem)
  refine ⟨j, hj, hj64, ?_⟩
  have hbound : p.alignment ≤ 2 ^ k := by
    unfold Elf64Phdr.alignment
    split <;> split at hmax <;> omega
  rw [hj] at hbound ⊢
  exact Nat.pow_dvd_pow 2 ((Nat.pow_le_pow_iff_right (by omega)).mp hbound)

/-! ## Congruences -/

theorem add64_modEq {a : Nat} (ha : a ∣ 2 ^ 64) (x y : Nat) : add64 x y ≡ x + y [MOD a] :=
  (Nat.mod_modEq (x + y) (2 ^ 64)).of_dvd ha

/-- The address of a segment after the slide. -/
def Loaded.vaddrOf (r : Loaded) (p : Elf64Phdr) : Nat := add64 p.vaddr r.slide

/-- The memory it is in. -/
def Loaded.paddrOf (r : Loaded) (p : Elf64Phdr) : Nat := add64 r.region.base (sub64 (r.vaddrOf p) r.virtualBase)

/-- The addresses of the segment keep their place in its alignment. -/
def Congruent (r : Loaded) (p : Elf64Phdr) : Prop :=
  r.vaddrOf p ≡ p.vaddr [MOD p.alignment] ∧ r.paddrOf p ≡ r.vaddrOf p [MOD p.alignment]

theorem slid_sub {v base slide : Nat} (hle : base ≤ v) (hlt : v < 2 ^ 64) :
    sub64 (add64 v slide) (add64 base slide) = v - base := by
  unfold sub64 add64
  omega

/-- Both congruences come to the alignment of the slide and of the lowest page. -/
theorem congruent_iff (slide : Nat) {a v base region : Nat} (ha : a ∣ 2 ^ 64) (hregion : a ∣ region) (hle : base ≤ v)
    (hlt : v < 2 ^ 64) :
    (add64 v slide ≡ v [MOD a] ∧
        add64 region (sub64 (add64 v slide) (add64 base slide)) ≡ add64 v slide [MOD a]) ↔
      a ∣ slide ∧ a ∣ base := by
  rw [slid_sub hle hlt]
  have hphysical : add64 region (v - base) ≡ v - base [MOD a] := by
    have hzero : region + (v - base) ≡ 0 + (v - base) [MOD a] :=
      ((Nat.modEq_zero_iff_dvd).mpr hregion).add_right _
    rw [Nat.zero_add] at hzero
    exact (add64_modEq ha region (v - base)).trans hzero
  have hvirtual : add64 v slide ≡ v [MOD a] ↔ a ∣ slide := by
    rw [← Nat.modEq_zero_iff_dvd]
    constructor
    · intro h
      exact Nat.ModEq.add_left_cancel' v ((add64_modEq ha v slide).symm.trans h)
    · intro h
      exact (add64_modEq ha v slide).trans (h.add_left v)
  have hbase : v - base ≡ v [MOD a] ↔ a ∣ base := by
    rw [← Nat.modEq_zero_iff_dvd]
    constructor
    · intro h
      refine Nat.ModEq.add_left_cancel' (v - base) ?_
      rw [Nat.sub_add_cancel hle]
      exact h.symm
    · intro h
      have hsum := h.add_left (v - base)
      rw [Nat.sub_add_cancel hle] at hsum
      exact hsum.symm
  constructor
  · rintro ⟨h1, h2⟩
    exact ⟨hvirtual.mp h1, hbase.mp (hphysical.symm.trans (h2.trans h1))⟩
  · rintro ⟨h1, h2⟩
    have hfinal := hvirtual.mpr h1
    exact ⟨hfinal, hphysical.trans ((hbase.mpr h2).trans hfinal.symm)⟩

theorem pow_dvd_fixedHigherHalf_iff (j : Nat) : 2 ^ j ∣ fixedHigherHalfOffset64 ↔ 2 ^ j ≤ 2 ^ 31 := by
  constructor
  · intro h
    by_contra hlarge
    have hj : 32 ≤ j := by
      by_contra hsmall
      exact hlarge (Nat.pow_le_pow_right (by decide) (by omega))
    exact absurd (Nat.dvd_trans (Nat.pow_dvd_pow 2 hj) h) (by decide)
  · intro h
    have hj : j ≤ 31 := (Nat.pow_le_pow_iff_right (by decide)).mp h
    exact Nat.dvd_trans (Nat.pow_dvd_pow 2 hj) (by decide)

section
variable {args : LoadArgs} {f : File} {r : Loaded}

/-- A random slide is aligned as that without KASLR is. -/
theorem dvd_slide_iff {isReloc : Bool} {k base imageSize lowerSlide slide a : Nat} (hk : k < 64) (ha : a ∣ 2 ^ k)
    (h : chooseSlide args isReloc (2 ^ k) base imageSize lowerSlide = .ok slide) :
    a ∣ slide ↔ a ∣ lowerSlide := by
  rcases (chooseSlide_safely args isReloc (2 ^ k) base imageSize lowerSlide).of_ok h with rfl | ⟨-, hslid⟩
  · exact Iff.rfl
  · obtain ⟨⟨x, -, rfl⟩, -⟩ := hslid
    have ha64 : a ∣ 2 ^ 64 := Nat.dvd_trans ha (Nat.pow_dvd_pow 2 (by omega))
    have hx : a ∣ x &&& not64 (2 ^ k - 1) := Nat.dvd_trans ha (dvd_and_not64 x hk)
    refine Iff.trans ?_ (Nat.dvd_add_right hx)
    rw [← Nat.modEq_zero_iff_dvd, ← Nat.modEq_zero_iff_dvd]
    have hsum := add64_modEq ha64 (x &&& not64 (2 ^ k - 1)) lowerSlide
    exact ⟨fun h => hsum.symm.trans h, fun h => hsum.trans h⟩

/-- The lowest `p_vaddr`, rounded down to a page. -/
def lowestPage (f : File) : Nat :=
  pageDown (((segments f (elf64Hdr f.byte 0)).map Elf64Phdr.vaddr).foldl min (2 ^ 64 - 1))

theorem foldl_min_eq {l : List Nat} {m x : Nat} (hle : ∀ y ∈ l, m ≤ y) (hx : m ≤ x) (hmem : m = x ∨ m ∈ l) :
    l.foldl min x = m := by
  induction l generalizing x with
  | nil => exact (hmem.resolve_right (by simp)).symm
  | cons y l ih =>
    have hy := hle y List.mem_cons_self
    refine ih (fun z hz => hle z (List.mem_cons_of_mem y hz)) (by omega) ?_
    rcases hmem with rfl | hmem
    · exact Or.inl (by omega)
    · rcases List.mem_cons.mp hmem with rfl | hmem
      · exact Or.inl (by omega)
      · exact Or.inr hmem

theorem LaidOut.lowestPage_eq {isReloc ranges : Bool} {layout : Layout}
    (h : LaidOut isReloc ranges (segments f (elf64Hdr f.byte 0)) layout) (hlt : layout.minVaddr < 2 ^ 64) :
    lowestPage f = layout.base := by
  rw [lowestPage, Layout.base]
  congr 1
  refine foldl_min_eq (fun v hv => ?_) (by omega) ?_
  · obtain ⟨p, hp, rfl⟩ := List.mem_map.mp hv
    exact h.min p hp
  · rcases h.minMem with ⟨-, hmin⟩ | ⟨p, hp, hmin⟩
    · exact Or.inl hmin
    · exact Or.inr (List.mem_map.mpr ⟨p, hp, hmin⟩)

/-- **A load keeps the alignment of its segments** exactly where the lowest page has it, for alignments of
2 GiB at most. -/
theorem elf64Load_congruent_iff (h : elf64Load args f = .ok r) :
    (∀ p ∈ segments f (elf64Hdr f.byte 0), Congruent r p) ↔
      ∀ p ∈ segments f (elf64Hdr f.byte 0), p.alignment ∣ lowestPage f ∧ p.alignment ≤ 2 ^ 31 := by
  obtain ⟨maxAlign, layout, hs⟩ := elf64Load_steps h
  obtain ⟨_, _, _, _, hloads⟩ := elf64Load_loads h
  obtain ⟨⟨k, rfl, hk⟩, halign⟩ := elf64MaxAlign_dvd hloads.table hloads.reach hs.align
  have hlaid := hs.laidOut h
  have hregion := ((imageMemory_safely args.alloc _ _).of_ok hs.memory).2
  refine forall₂_congr fun p hp => ?_
  obtain ⟨j, hj, hj64, hdvd⟩ := halign p hp
  have hmin := hlaid.min p hp
  have hmax := hlaid.max p hp
  have hmaxlt := hlaid.maxLt
  have hbase : layout.base ≤ layout.minVaddr := pageDown_le _
  unfold Elf64Phdr.top at hmax
  have h64 : p.alignment ∣ 2 ^ 64 := Nat.dvd_trans hdvd (Nat.pow_dvd_pow 2 (by omega))
  have hcongr := congruent_iff r.slide h64 (Nat.dvd_trans hdvd hregion) (by omega : layout.base ≤ p.vaddr)
    (by omega)
  rw [hlaid.lowestPage_eq (by omega), Congruent, Loaded.paddrOf, Loaded.vaddrOf, hs.virtualBase, hcongr,
    dvd_slide_iff hk.2 hdvd hs.slide, and_comm]
  refine and_congr_right fun hpage => ?_
  rw [hj, ← pow_dvd_fixedHigherHalf_iff, ← hj]
  unfold Layout.lowerSlide
  cases hlower : layout.lowerToHigher with
  | true =>
    have hlow := hlaid.lower hlower p hp
    have hle : layout.base ≤ fixedHigherHalfOffset64 := by omega
    rw [if_pos rfl, sub64_eq hle (by decide)]
    constructor
    · intro h
      have hsum := Nat.dvd_add h hpage
      rwa [Nat.sub_add_cancel hle] at hsum
    · intro h
      exact Nat.dvd_sub h hpage
  | false =>
    rw [if_neg (by simp)]
    refine iff_of_true (Nat.dvd_zero _) ?_
    -- a page of the top 2 GiB is no multiple of more than 2 GiB
    rw [hj, pow_dvd_fixedHigherHalf_iff]
    by_contra hlarge
    have hj32 : 32 ≤ j := by
      by_contra hsmall
      exact hlarge (Nat.pow_le_pow_right (by decide) (by omega))
    have h32 : 2 ^ 32 ∣ layout.base := Nat.dvd_trans (Nat.pow_dvd_pow 2 hj32) (hj ▸ hpage)
    have hhigh : fixedHigherHalfOffset64 ≤ layout.minVaddr := by
      rcases hlaid.minMem with ⟨hnil, -⟩ | ⟨q, hq, hqmin⟩
      · rw [hnil] at hp
        cases hp
      · rw [← hqmin]
        exact hlaid.higher hlower q hq
    unfold Layout.base pageDown at h32
    unfold fixedHigherHalfOffset64 at hhigh
    omega

end

/-! ## A segment of larger alignment above the lowest page -/

/-- The dynamic section is the null entry at its end. -/
def placedWords (align : Nat) : List Nat :=
  hdrWords etDyn 56 2 ++ phdrWords ⟨ptLoad, 6, 0, 0x1000, 192, 192, align⟩ ++
    phdrWords ⟨ptDynamic, 6, 176, 0x10b0, 16, 16, 8⟩ ++ [0, 0]

def placedElf (align : Nat) : File :=
  ⟨8 * (placedWords align).length, by simp [placedWords, hdrWords, phdrWords], wordByte (placedWords align)⟩

def placedSegment (align : Nat) : Elf64Phdr := ⟨ptLoad, 6, 0, 0x1000, 192, 192, align⟩

theorem placedElf_loads (align slide : Nat)
    (hrun : (elf64Load plainArgs (placedElf align)).map Loaded.slide = .ok slide) :
    ∃ r, elf64Load plainArgs (placedElf align) = .ok r ∧ r.slide = slide := by
  cases hload : elf64Load plainArgs (placedElf align) with
  | error e =>
    rw [hload] at hrun
    cases hrun
  | ok r =>
    rw [hload] at hrun
    exact ⟨r, rfl, Except.ok.inj hrun⟩

theorem elf64Load_congruent_page : ∃ r, elf64Load plainArgs (placedElf 0x1000) = .ok r ∧
    ∀ p ∈ segments (placedElf 0x1000) (elf64Hdr (placedElf 0x1000).byte 0), Congruent r p := by
  obtain ⟨r, hload, -⟩ := placedElf_loads 0x1000 0xffffffff7ffff000 (by decide)
  exact ⟨r, hload, (elf64Load_congruent_iff hload).mpr (by decide)⟩

/-- The image is moved by an odd number of pages. -/
theorem elf64Load_incongruent : ∃ r, elf64Load plainArgs (placedElf 0x2000) = .ok r ∧
    placedSegment 0x2000 ∈ segments (placedElf 0x2000) (elf64Hdr (placedElf 0x2000).byte 0) ∧
    ¬r.vaddrOf (placedSegment 0x2000) ≡ (placedSegment 0x2000).vaddr [MOD (placedSegment 0x2000).alignment] := by
  obtain ⟨r, hload, hslide⟩ := placedElf_loads 0x2000 0xffffffff7ffff000 (by decide)
  refine ⟨r, hload, by decide, ?_⟩
  rw [Loaded.vaddrOf, hslide]
  decide

end Limine.Elf
