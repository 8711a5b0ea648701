import Limine.Elf.Loaded

/-!
# The ranges of a loaded executable

`elf64_get_ranges` goes over the program headers a second time, with the slide added.  Its ranges
are the hulls of the segments in whole pages, and because the layout loop made segments that share
a page agree on the permissions, ranges that meet agree on them too.
-/

namespace Limine.Elf
open Limine.Loader Limine.Lib

/-- `r` covers the pages of a segment that is moved by `slide`, with the permissions it asks for. -/
structure IsHull (slide : Nat) (p : Elf64Phdr) (r : MemRange) : Prop where
  base : r.base = pageDown (add64 p.vaddr slide)
  top : r.base + r.length = pageUp (add64 p.vaddr slide + p.memsz)
  fits : add64 p.vaddr slide + p.memsz + 4095 < 2 ^ 64
  permissions : r.permissions = permissionsOf p.flags

theorem isHull_rangeOf {slide : Nat} {p : Elf64Phdr} (h : add64 p.vaddr slide + p.memsz + 4095 < 2 ^ 64) :
    IsHull slide p (rangeOf slide p) := by
  have hdown := pageDown_le (add64 p.vaddr slide)
  have hup := le_pageUp (add64 p.vaddr slide + p.memsz)
  have hlt : pageUp (add64 p.vaddr slide + p.memsz) < 2 ^ 64 := by
    unfold pageUp
    omega
  refine ⟨rfl, ?_, h, rfl⟩
  show pageDown _ + sub64 (pageUp _) (pageDown _) = _
  rw [sub64_eq (by omega) hlt]
  omega

theorem IsHull.eq {slide : Nat} {p : Elf64Phdr} {r : MemRange} (h : IsHull slide p r) :
    r = rangeOf slide p := by
  have h' := isHull_rangeOf h.fits
  obtain ⟨base, length, permissions⟩ := r
  have hbase : base = (rangeOf slide p).base := h.base.trans h'.base.symm
  have htop : base + length = (rangeOf slide p).base + (rangeOf slide p).length := h.top.trans h'.top.symm
  have hperm : permissions = (rangeOf slide p).permissions := h.permissions.trans h'.permissions.symm
  have hlength : length = (rangeOf slide p).length := by omega
  rw [hbase, hlength, hperm]

/-- A byte in one of the pages of a segment that is moved by `slide`. -/
def Touches (slide : Nat) (p : Elf64Phdr) (v : Nat) : Prop :=
  pageDown (add64 p.vaddr slide) ≤ v ∧ v < pageUp (add64 p.vaddr slide + p.memsz)

theorem IsHull.touches_iff {slide : Nat} {p : Elf64Phdr} {a : MemRange} (ha : IsHull slide p a) (v : Nat) :
    Touches slide p v ↔ a.base ≤ v ∧ v < a.base + a.length := by
  unfold Touches
  rw [← ha.base, ← ha.top]

/-- Only the three bits that the layout loop compares make a difference. -/
theorem flags_congr {a b m : Nat} (h : a &&& 0b111 = b &&& 0b111) (hm : 0b111 &&& m = m) : a &&& m = b &&& m := by
  rw [← hm, ← Nat.and_assoc, h, Nat.and_assoc]

theorem permissionsOf_congr {a b : Nat} (h : a &&& 0b111 = b &&& 0b111) : permissionsOf a = permissionsOf b := by
  have hx : a &&& elfPfX = b &&& elfPfX := flags_congr h rfl
  have hw : a &&& elfPfW = b &&& elfPfW := flags_congr h rfl
  have hr : a &&& elfPfR = b &&& elfPfR := flags_congr h rfl
  unfold permissionsOf
  rw [hx, hw, hr]

/-- What is read from the permissions is what the segment asked for. -/
theorem permissionsOf_bits (flags : Nat) :
    (permissionsOf flags &&& memRangeW != 0) = (flags &&& elfPfW != 0) ∧
      (permissionsOf flags &&& memRangeX == 0) = (flags &&& elfPfX == 0) := by
  unfold permissionsOf
  by_cases hx : flags &&& elfPfX = 0
  · by_cases hw : flags &&& elfPfW = 0
    · by_cases hr : flags &&& elfPfR = 0 <;> simp [hx, hw, hr, memRangeW, memRangeR, memRangeX]
    · by_cases hr : flags &&& elfPfR = 0 <;> simp [hx, hw, hr, memRangeW, memRangeR, memRangeX]
  · by_cases hw : flags &&& elfPfW = 0
    · by_cases hr : flags &&& elfPfR = 0 <;> simp [hx, hw, hr, memRangeW, memRangeR, memRangeX]
    · by_cases hr : flags &&& elfPfR = 0 <;> simp [hx, hw, hr, memRangeW, memRangeR, memRangeX]

section
variable {f : File} {hdr : Elf64Hdr} {args : LoadArgs}

theorem elf64CheckHeader_isRelocatable {arch : Arch} {relocatable : Bool}
    (h : elf64CheckHeader arch f hdr = .ok relocatable) : elf64IsRelocatable f hdr = .ok relocatable := by
  unfold elf64CheckHeader at h
  obtain ⟨_, -, h⟩ := except_bind_eq_ok.mp h
  obtain ⟨_, -, h⟩ := except_bind_eq_ok.mp h
  obtain ⟨_, -, h⟩ := except_bind_eq_ok.mp h
  obtain ⟨_, -, h⟩ := except_bind_eq_ok.mp h
  obtain ⟨_, -, h⟩ := except_bind_eq_ok.mp h
  exact h

/-- Segments in the lower half are those of a relocatable executable, so all get a range. -/
theorem LaidOut.ranged {isReloc relocatable ranges : Bool} {layout : Layout}
    (h : LaidOut (isReloc && relocatable) ranges (segments f hdr) layout) :
    (phdrs f hdr).filter (ranged relocatable) = segments f hdr := by
  refine List.filter_congr fun p hp => ?_
  unfold Limine.Elf.ranged
  cases hload : p.loadable with
  | false => rfl
  | true =>
    have hmem : p ∈ segments f hdr := List.mem_filter.mpr ⟨hp, hload⟩
    by_cases hlow : p.vaddr < fixedHigherHalfOffset64
    · have hlower : layout.lowerToHigher = true := by
        by_contra hne
        have := h.higher (Bool.eq_false_iff.mpr hne) p hmem
        omega
      have hreloc : relocatable = true := (Bool.and_eq_true_iff.mp (h.lowerReloc hlower)).2
      simp [hreloc]
    · simp [hlow]

variable {r : Loaded} {relocatable : Bool} {layout : Layout} {t : Tables} {st : RelocState}

theorem Loads.ranges_eq (h : Loads args f hdr r relocatable layout t st) (hranges : args.ranges = true) :
    r.ranges = (segments f hdr).map (rangeOf r.slide) ∧
      ∀ p ∈ segments f hdr, IsHull r.slide p (rangeOf r.slide p) := by
  obtain ⟨isReloc, hreloc, hl, hfits⟩ :=
    (elf64GetRanges_safely args.alloc h.table h.reach r.slide).of_ok (h.ranges hranges)
  obtain rfl : relocatable = isReloc :=
    Except.ok.inj ((elf64CheckHeader_isRelocatable h.header).symm.trans hreloc)
  rw [h.laidOut.ranged] at hl hfits
  exact ⟨hl, fun p hp => isHull_rangeOf (hfits p hp)⟩

end

/-! ## Ranges that meet -/

/-- Where the slide wraps around for the higher of two segments only, their pages are far apart. -/
theorem pages_of_slid {a b k pv pm qv qm : Nat} (ha : a = pv + 4096 * k ∨ a + 2 ^ 64 = pv + 4096 * k)
    (hb : b = qv + 4096 * k ∨ b + 2 ^ 64 = qv + 4096 * k) (hq : qv + qm + 4095 < 2 ^ 64)
    (hle : pv + pm ≤ qv) (h1 : pageDown a < pageUp (b + qm)) (h2 : pageDown b < pageUp (a + pm)) :
    pageDown qv < pageUp (pv + pm) := by
  rw [pageDown_lt_pageUp_iff] at *
  omega

/-- Ranges that meet belong to segments that share a page. -/
theorem IsHull.shared {slide : Nat} {p q : Elf64Phdr} {a b : MemRange} (ha : IsHull slide p a)
    (hb : IsHull slide q b) (hslide : 4096 ∣ slide ∧ slide < 2 ^ 64) (hq : q.top + 4095 < 2 ^ 64)
    (hle : p.top ≤ q.vaddr) (hmeet : a.Meets b) : pageDown q.vaddr < pageUp p.top := by
  obtain ⟨⟨k, rfl⟩, hlt⟩ := hslide
  obtain ⟨h1, h2⟩ := hmeet
  rw [ha.base, hb.top] at h1
  rw [hb.base, ha.top] at h2
  unfold Elf64Phdr.top at *
  exact pages_of_slid (add64_page (by omega) hlt) (add64_page (by omega) hlt) hq hle h1 h2

theorem LaidOut.agree {isReloc : Bool} {ps : List Elf64Phdr} {layout : Layout} {slide : Nat}
    (h : LaidOut isReloc true ps layout) (hslide : 4096 ∣ slide ∧ slide < 2 ^ 64)
    (hhull : ∀ p ∈ ps, IsHull slide p (rangeOf slide p)) {p q : Elf64Phdr} (hp : p ∈ ps) (hq : q ∈ ps)
    (hmeet : (rangeOf slide p).Meets (rangeOf slide q)) : p.flags &&& 0b111 = q.flags &&& 0b111 := by
  have hshared : ps.Pairwise fun p q => (rangeOf slide p).Meets (rangeOf slide q) →
      p.flags &&& 0b111 = q.flags &&& 0b111 := by
    refine (List.Pairwise.and_mem.mp (h.sorted.and (h.pages rfl))).imp fun ⟨hp, hq, hle, hflags⟩ hmeet => ?_
    exact hflags ((hhull _ hp).shared (hhull _ hq) hslide (h.fits _ hq) hle hmeet)
  exact List.Pairwise.forall_of_forall_of_flip (fun _ _ _ => rfl) hshared
    (hshared.imp fun h hmeet => (h hmeet.symm).symm) hp hq hmeet

section
variable {f : File} {hdr : Elf64Hdr} {args : LoadArgs} {r : Loaded} {relocatable : Bool}
  {layout : Layout} {t : Tables} {st : RelocState}

/-- Segments that touch one page agree on the flags that the layout loop compares. -/
theorem Loads.agree (h : Loads args f hdr r relocatable layout t st) (hranges : args.ranges = true)
    {p q : Elf64Phdr} (hp : p ∈ segments f hdr) (hq : q ∈ segments f hdr) {v : Nat}
    (hpv : Touches r.slide p v) (hqv : Touches r.slide q v) : p.flags &&& 0b111 = q.flags &&& 0b111 := by
  have hhull := (h.ranges_eq hranges).2
  have hlaid := h.laidOut
  rw [hranges] at hlaid
  have h1 := ((hhull p hp).touches_iff v).mp hpv
  have h2 := ((hhull q hq).touches_iff v).mp hqv
  exact hlaid.agree h.slideAligned hhull hp hq ⟨by omega, by omega⟩

/-- Ranges that meet agree on the permissions. -/
theorem Loads.ranges_agree (h : Loads args f hdr r relocatable layout t st) (hranges : args.ranges = true)
    {a b : MemRange} (ha : a ∈ r.ranges) (hb : b ∈ r.ranges) (hmeet : a.Meets b) :
    a.permissions = b.permissions := by
  obtain ⟨hlist, hhull⟩ := h.ranges_eq hranges
  have hlaid := h.laidOut
  rw [hranges] at hlaid
  rw [hlist] at ha hb
  obtain ⟨p, hp, rfl⟩ := List.mem_map.mp ha
  obtain ⟨q, hq, rfl⟩ := List.mem_map.mp hb
  exact permissionsOf_congr (hlaid.agree h.slideAligned hhull hp hq hmeet)

end

/-! ## Where the segments come to lie -/

/-- The image lies in the top 2 GiB, and none of its segments wraps around. -/
structure Placed (r : Loaded) (ps : List Elf64Phdr) (base : Nat) : Prop where
  high : fixedHigherHalfOffset64 ≤ r.virtualBase
  aligned : 4096 ∣ r.virtualBase
  inside : ∀ p ∈ ps, base ≤ p.vaddr ∧ p.top ≤ base + r.region.size
  place : ∀ p ∈ ps, add64 p.vaddr r.slide = r.virtualBase + (p.vaddr - base)

/-- Where the range of a segment lies, from the start of the image on. -/
theorem Placed.hull {r : Loaded} {ps : List Elf64Phdr} {base : Nat}
    (h : Placed r ps base) {p : Elf64Phdr} (hp : p ∈ ps) {a : MemRange}
    (ha : IsHull r.slide p a) : ∃ first top, a.base = r.virtualBase + first ∧
      a.base + a.length = r.virtualBase + top ∧ 4096 ∣ first ∧ 4096 ∣ top ∧ first ≤ top ∧
      top < r.region.size + 4096 ∧ r.virtualBase + top < 2 ^ 64 := by
  obtain ⟨w, hw⟩ := h.aligned
  obtain ⟨h1, h2⟩ := h.inside p hp
  have hplace := h.place p hp
  have hfits := ha.fits
  have htop : p.top = p.vaddr + p.memsz := rfl
  have hbase := ha.base
  have hend := ha.top
  rw [hplace] at hfits hbase hend
  rw [hw, pageDown_add] at hbase
  rw [hw, Nat.add_assoc, pageUp_add] at hend
  rw [hw] at hfits ⊢
  refine ⟨_, _, hbase, hend, Nat.dvd_mul_left _ _, Nat.dvd_mul_left _ _, ?_, ?_, ?_⟩
  · have h3 := pageDown_le (p.vaddr - base)
    have h4 := le_pageUp (p.vaddr - base + p.memsz)
    omega
  · unfold pageUp
    omega
  · unfold pageUp
    omega

section
variable {f : File} {hdr : Elf64Hdr} {args : LoadArgs} {r : Loaded} {relocatable : Bool}
  {layout : Layout} {t : Tables} {st : RelocState}

theorem Loads.lowest (h : Loads args f hdr r relocatable layout t st) :
    ∃ p ∈ segments f hdr, p.vaddr = layout.minVaddr :=
  h.laidOut.minMem.resolve_left fun h0 => h.minVaddr h0.2

/-- Without KASLR the image lies in the top 2 GiB. -/
theorem Loads.lowerSlide_high (h : Loads args f hdr r relocatable layout t st) :
    fixedHigherHalfOffset64 ≤ add64 layout.base layout.lowerSlide := by
  obtain ⟨p, hp, hmin⟩ := h.lowest
  have hlt := h.laidOut.maxLt
  have hsize := h.regionSize
  have hbase : layout.base = pageDown layout.minVaddr := rfl
  unfold Layout.lowerSlide
  cases hlower : layout.lowerToHigher with
  | true =>
    unfold add64 sub64 fixedHigherHalfOffset64
    simp only [if_true]
    omega
  | false =>
    have hhigh := h.laidOut.higher hlower p hp
    have haligned : pageDown fixedHigherHalfOffset64 = fixedHigherHalfOffset64 := by decide
    have hle : fixedHigherHalfOffset64 ≤ layout.base := by
      rw [hbase, ← haligned]
      exact pageDown_mono (by omega)
    simp only [Bool.false_eq_true, if_false]
    rw [add64_eq (by omega), Nat.add_zero]
    exact hle

/-- Where no segment is in the lower half, KASLR keeps the image in the top 2 GiB. -/
theorem Loads.placed (h : Loads args f hdr r relocatable layout t st) (hsize : r.region.size ≤ 2 ^ 62)
    (hhigh : ∀ p ∈ segments f hdr, 2 ^ 63 ≤ pageDown (add64 p.vaddr r.slide)) :
    Placed r (segments f hdr) layout.base := by
  obtain ⟨p₀, hp₀, hmin⟩ := h.lowest
  obtain ⟨⟨k, hk⟩, hslide⟩ := h.slideAligned
  have hlt := h.laidOut.maxLt
  have hregion := h.regionSize
  have hvb : r.virtualBase = add64 layout.base r.slide := h.virtualBase
  obtain ⟨b, hb⟩ : 4096 ∣ layout.base := Nat.dvd_mul_left _ _
  -- the page of the lowest segment is the virtual base
  have hvb63 : 2 ^ 63 ≤ r.virtualBase := by
    have h0 := hhigh p₀ hp₀
    have h1 := h.laidOut.max p₀ hp₀
    have h2 : p₀.top = p₀.vaddr + p₀.memsz := rfl
    rw [hk, pageDown_add64 (by omega) (by omega), hmin] at h0
    rw [hvb, hk]
    exact h0
  have hbase : layout.base ≤ layout.minVaddr := pageDown_le _
  have hinside : ∀ p ∈ segments f hdr, layout.base ≤ p.vaddr ∧ p.top ≤ layout.base + r.region.size := by
    intro p hp
    have h1 := h.laidOut.min p hp
    have h2 := h.laidOut.max p hp
    omega
  refine ⟨?_, ?_, hinside, fun p hp => ?_⟩
  · have hlow := h.lowerSlide_high
    obtain ⟨x, hx, hslide⟩ : ∃ x, x < 2 ^ 32 ∧ r.slide = add64 x layout.lowerSlide := by
      rcases h.slide with hs | ⟨-, x, hx, hs⟩
      · refine ⟨0, by decide, ?_⟩
        have := h.slideAligned.2
        rw [hs] at this ⊢
        rw [add64_eq (by omega), Nat.zero_add]
      · exact ⟨x, hx, hs⟩
    rw [hslide] at hvb
    unfold fixedHigherHalfOffset64 at *
    unfold add64 at *
    omega
  · rw [hvb, hk, hb]
    unfold add64
    omega
  · obtain ⟨h1, h2⟩ := hinside p hp
    have h3 := hhigh p hp
    have h4 := pageDown_le (add64 p.vaddr r.slide)
    have h5 : p.top = p.vaddr + p.memsz := rfl
    rw [hvb] at hvb63 ⊢
    unfold add64 at *
    omega

end

end Limine.Elf
