import Limine.Elf.Placed
import Limine.Pe.Safety

/-!
# KASLR

Both loaders draw slides until `*virtual_base + slide + image_size < 0xffffffff80000000` fails.  The
sum may overflow twice; what is accepted is the top 2 GiB all the same.
-/

namespace Limine.Loader

/-- The image lies in the top 2 GiB. -/
structure InWindow (virtualBase imageSize : Nat) : Prop where
  low : fixedHigherHalfOffset64 ≤ virtualBase
  high : virtualBase + imageSize < 2 ^ 64

section
variable {minVaddr imageSize lowerSlide : Nat}

/-- **The comparison that relies on overflow.**  The slide without KASLR puts the image at the bottom of
the window, or nowhere else if it is in the window. -/
theorem inWindow_of_not_tooLow {x slide : Nat} (hx : x < 2 ^ 32) (hslide : slide = add64 x lowerSlide)
    (hbase : add64 minVaddr lowerSlide = fixedHigherHalfOffset64 ∨
      lowerSlide = 0 ∧ fixedHigherHalfOffset64 ≤ minVaddr ∧ minVaddr < 2 ^ 64)
    (hsize : imageSize < 2 ^ 63) (hlow : tooLow minVaddr imageSize slide = false) :
    InWindow (add64 minVaddr slide) imageSize := by
  -- the base before the random part
  obtain ⟨b, hb, hblt, hsum⟩ : ∃ b, fixedHigherHalfOffset64 ≤ b ∧ b < 2 ^ 64 ∧
      add64 minVaddr slide = add64 b x := by
    subst hslide
    rcases hbase with hbase | ⟨rfl, hbase, hlt⟩
    · refine ⟨_, Nat.le_refl _, by decide, ?_⟩
      rw [← hbase]
      unfold add64
      omega
    · refine ⟨minVaddr, hbase, hlt, ?_⟩
      unfold add64
      omega
  unfold tooLow at hlow
  rw [hsum] at hlow ⊢
  unfold fixedHigherHalfOffset64 at hb
  simp only [decide_eq_false_iff_not, Nat.not_lt] at hlow
  unfold add64 at hlow
  constructor
  · unfold fixedHigherHalfOffset64 add64
    omega
  · unfold add64
    omega

theorem Slid.inWindow {maxAlign slide : Nat} (h : Slid maxAlign minVaddr imageSize lowerSlide slide)
    (hbase : add64 minVaddr lowerSlide = fixedHigherHalfOffset64 ∨
      lowerSlide = 0 ∧ fixedHigherHalfOffset64 ≤ minVaddr ∧ minVaddr < 2 ^ 64)
    (hsize : imageSize < 2 ^ 63) : InWindow (add64 minVaddr slide) imageSize := by
  obtain ⟨⟨x, hx, rfl⟩, hlow⟩ := h
  have hle : x &&& not64 (maxAlign - 1) ≤ x := Nat.and_le_left
  exact inWindow_of_not_tooLow (Nat.lt_of_le_of_lt hle hx) rfl hbase hsize hlow

theorem lowerSlide_cases {v : Nat} (hv : v < 2 ^ 64) {lower : Bool}
    (hlower : lower = true → v ≤ fixedHigherHalfOffset64) (hhigher : lower = false → fixedHigherHalfOffset64 ≤ v) :
    add64 v (if lower = true then sub64 fixedHigherHalfOffset64 v else 0) = fixedHigherHalfOffset64 ∨
      (if lower = true then sub64 fixedHigherHalfOffset64 v else 0) = 0 ∧ fixedHigherHalfOffset64 ≤ v ∧
        v < 2 ^ 64 := by
  cases lower with
  | true =>
    left
    have hle := hlower rfl
    rw [if_pos rfl, sub64_eq hle (by decide), add64_eq] <;> unfold fixedHigherHalfOffset64 at * <;> omega
  | false => exact Or.inr ⟨rfl, hhigher rfl, hv⟩

variable {msg : String} {rand : Nat → UInt32} {maxAlign : Nat}

/-- What the tries from `tryCount` on come to: the first that is high enough, or the panic. -/
def Tried (msg : String) (rand : Nat → UInt32) (maxAlign minVaddr imageSize lowerSlide tryCount : Nat)
    (result : Load Nat) : Prop :=
  (∃ t, tryCount ≤ t ∧ t < maxSimulatedTries ∧
      (∀ u, tryCount ≤ u → u < t → tooLow minVaddr imageSize (trySlide rand maxAlign lowerSlide u) = true) ∧
      tooLow minVaddr imageSize (trySlide rand maxAlign lowerSlide t) = false ∧
      result = .ok (trySlide rand maxAlign lowerSlide t)) ∨
    (∀ u, tryCount ≤ u → u < maxSimulatedTries →
      tooLow minVaddr imageSize (trySlide rand maxAlign lowerSlide u) = true) ∧
    result = panic msg

/-- **The loop ends**, by the number of tries at the latest. -/
theorem kaslrSlide_tried (n : Nat) : ∀ tryCount, tryCount + (n + 1) = maxSimulatedTries →
    Tried msg rand maxAlign minVaddr imageSize lowerSlide tryCount
      (kaslrSlide msg rand maxAlign minVaddr imageSize lowerSlide (n + 1) tryCount) := by
  -- at the try itself
  have hfound : ∀ n tryCount, tryCount < maxSimulatedTries →
      tooLow minVaddr imageSize (trySlide rand maxAlign lowerSlide tryCount) = false →
      Tried msg rand maxAlign minVaddr imageSize lowerSlide tryCount
        (kaslrSlide msg rand maxAlign minVaddr imageSize lowerSlide (n + 1) tryCount) := by
    intro n tryCount hlt hhigh
    refine Or.inl ⟨tryCount, Nat.le_refl _, hlt, by omega, hhigh, ?_⟩
    rw [kaslrSlide, if_neg (by simp [hhigh])]
  induction n with
  | zero =>
    intro tryCount htries
    cases hlow : tooLow minVaddr imageSize (trySlide rand maxAlign lowerSlide tryCount) with
    | false => exact hfound 0 tryCount (by omega) hlow
    | true =>
      refine Or.inr ⟨fun u hu hlt => ?_, ?_⟩
      · obtain rfl : u = tryCount := by omega
        exact hlow
      · rw [kaslrSlide, if_pos hlow, if_pos htries]
  | succ n ih =>
    intro tryCount htries
    cases hlow : tooLow minVaddr imageSize (trySlide rand maxAlign lowerSlide tryCount) with
    | false => exact hfound (n + 1) tryCount (by omega) hlow
    | true =>
      have hstep : ∀ u, tryCount ≤ u → (tryCount + 1 ≤ u → tooLow minVaddr imageSize
          (trySlide rand maxAlign lowerSlide u) = true) →
          tooLow minVaddr imageSize (trySlide rand maxAlign lowerSlide u) = true := by
        intro u hu hrest
        rcases Nat.eq_or_lt_of_le hu with rfl | hu
        · exact hlow
        · exact hrest hu
      rw [kaslrSlide, if_pos hlow, if_neg (by omega)]
      rcases ih (tryCount + 1) (by omega) with ⟨t, hle, hlt, hbefore, hhigh, heq⟩ | ⟨hall, heq⟩
      · refine Or.inl ⟨t, by omega, hlt, fun u hu hut => ?_, hhigh, heq⟩
        exact hstep u hu fun hu => hbefore u hu hut
      · refine Or.inr ⟨fun u hu hlt => ?_, heq⟩
        exact hstep u hu fun hu => hall u hu hlt

end

end Limine.Loader

namespace Limine.Elf
open Limine.Loader Limine.Lib

theorem elf64Load_inWindow {args : LoadArgs} {f : File} {r : Loaded} (h : elf64Load args f = .ok r)
    (hreloc : r.isReloc = true) (hkaslr : args.kaslr = true) (hsize : r.region.size < 2 ^ 63) :
    InWindow r.virtualBase r.region.size := by
  obtain ⟨maxAlign, layout, hs⟩ := elf64Load_steps h
  obtain ⟨_, _, _, _, hloads⟩ := elf64Load_loads h
  obtain ⟨p, hp, -⟩ : ∃ p ∈ segments f (elf64Hdr f.byte 0), p.vaddr = _ :=
    hloads.laidOut.minMem.resolve_left fun hmin => hloads.minVaddr hmin.2
  have hlaid := hs.laidOut h
  have hmin := hlaid.min p hp
  have hfits := hlaid.fits p hp
  have hdown : layout.base ≤ layout.minVaddr := pageDown_le _
  unfold Elf64Phdr.top at hfits
  have hregion := ((imageMemory_safely args.alloc _ _).of_ok hs.memory).1
  have hslide := hs.slide
  unfold chooseSlide at hslide
  rw [hreloc, hkaslr, Bool.and_self, if_pos rfl] at hslide
  have hslid := (kaslrSlide_safely _ args.rand 0xffff 0 (by decide)).of_ok hslide
  rw [← hregion] at hslid
  rw [hs.virtualBase]
  refine hslid.inWindow (lowerSlide_cases (by omega) (fun hlower => ?_) fun hhigher => ?_) hsize
  · have := hlaid.lower hlower p hp
    omega
  · have hhigh : fixedHigherHalfOffset64 ≤ layout.minVaddr := by
      rcases hlaid.minMem with ⟨hnil, -⟩ | ⟨q, hq, hqmin⟩
      · rw [hnil] at hp
        cases hp
      · rw [← hqmin]
        exact hlaid.higher hhigher q hq
    unfold Layout.base pageDown
    unfold fixedHigherHalfOffset64 at hhigh ⊢
    omega

end Limine.Elf

namespace Limine.Pe
open Limine.Loader Limine.Lib

theorem pe64Load_slide {args : LoadArgs} {f : File} {r : Loaded} (h : pe64Load args f = .ok r) :
    ∃ slide, chooseSlide args (ntHeaders f) = .ok slide ∧ r.isReloc = (ntHeaders f).isReloc ∧
      r.virtualBase = add64 (ntHeaders f).imageBase slide := by
  unfold pe64Load at h
  obtain ⟨⟨dos, nt⟩, hvalid, h⟩ := except_bind_eq_ok.mp h
  obtain ⟨-, rfl⟩ := Prod.mk.inj ((pe64Validate_safely args.arch f).of_ok hvalid)
  obtain ⟨_, -, h⟩ := except_bind_eq_ok.mp h
  obtain ⟨_, -, h⟩ := except_bind_eq_ok.mp h
  obtain ⟨_, -, h⟩ := except_bind_eq_ok.mp h
  unfold pe64LoadImage at h
  obtain ⟨_, -, h⟩ := except_bind_eq_ok.mp h
  obtain ⟨_, -, h⟩ := except_bind_eq_ok.mp h
  obtain ⟨slide, hslide, h⟩ := except_bind_eq_ok.mp h
  obtain ⟨_, -, h⟩ := except_bind_eq_ok.mp h
  obtain ⟨_, -, h⟩ := except_bind_eq_ok.mp h
  obtain ⟨_, -, h⟩ := except_bind_eq_ok.mp h
  obtain ⟨_, -, h⟩ := except_bind_eq_ok.mp h
  obtain ⟨_, -, h⟩ := except_bind_eq_ok.mp h
  obtain ⟨_, -, h⟩ := except_bind_eq_ok.mp h
  obtain rfl := Except.ok.inj h
  exact ⟨slide, hslide, rfl, rfl⟩

theorem pe64Load_inWindow {args : LoadArgs} {f : File} {r : Loaded} (h : pe64Load args f = .ok r)
    (hreloc : r.isReloc = true) (hkaslr : args.kaslr = true) : InWindow r.virtualBase r.region.size := by
  obtain ⟨hbase, hsize, -⟩ := ntHeaders_lt f
  obtain ⟨-, hregion, -⟩ := (pe64Load_safely args f).of_ok h
  obtain ⟨slide, hslide, hisReloc, hvirtual⟩ := pe64Load_slide h
  unfold chooseSlide at hslide
  rw [← hisReloc, hreloc, hkaslr, Bool.and_self, if_pos rfl] at hslide
  have hslid := (kaslrSlide_safely _ args.rand 0xffff 0 (by decide)).of_ok hslide
  rw [hvirtual, hregion]
  refine hslid.inWindow (lowerSlide_cases hbase (fun hlower => ?_) fun hhigher => ?_) (by omega)
  · exact Nat.le_of_lt (of_decide_eq_true hlower)
  · exact Nat.le_of_not_lt (of_decide_eq_false hhigher)

end Limine.Pe

namespace Limine.Protos
open Limine.Loader

/-- **KASLR keeps the image in its window**, and its loop ends by the last try. -/
theorem kaslr_inWindow :
    (∀ args f r, Elf.elf64Load args f = .ok r → r.isReloc = true → args.kaslr = true →
      r.region.size < 2 ^ 63 → InWindow r.virtualBase r.region.size) ∧
    (∀ args f r, Pe.pe64Load args f = .ok r → r.isReloc = true → args.kaslr = true →
      InWindow r.virtualBase r.region.size) ∧
    ∀ msg rand maxAlign minVaddr imageSize lowerSlide,
      Tried msg rand maxAlign minVaddr imageSize lowerSlide 0
        (kaslrSlide msg rand maxAlign minVaddr imageSize lowerSlide maxSimulatedTries 0) :=
  ⟨fun _ _ _ => Elf.elf64Load_inWindow, fun _ _ _ => Pe.pe64Load_inWindow,
    fun _ _ _ _ _ _ => kaslrSlide_tried 0xffff 0 rfl⟩

/-- The first number moves the image past the end of the address space. -/
def someRand (next : UInt32) (tryCount : Nat) : UInt32 := if tryCount = 0 then 0xffffffff else next

theorem kaslr_inWindow_small :
    (∃ r, Elf.elf64Load { Elf.plainArgs with rand := someRand 0x12345678, kaslr := true } Elf.smallElf = .ok r ∧
      r.virtualBase = 0xffffffff92345000 ∧ InWindow r.virtualBase r.region.size) ∧
    ∃ r, Pe.pe64Load { Pe.plainPeArgs with rand := someRand 0, kaslr := true } (Pe.smallPe 0xedff00000) = .ok r ∧
      InWindow r.virtualBase r.region.size := by
  constructor
  · have hrun : (Elf.elf64Load { Elf.plainArgs with rand := someRand 0x12345678, kaslr := true } Elf.smallElf).map
        (fun r => (r.isReloc, r.region.size, r.virtualBase)) = .ok (true, 0x1190, 0xffffffff92345000) := by
      decide +kernel
    cases hload : Elf.elf64Load { Elf.plainArgs with rand := someRand 0x12345678, kaslr := true } Elf.smallElf with
    | error e =>
      rw [hload] at hrun
      cases hrun
    | ok r =>
      rw [hload] at hrun
      obtain ⟨hreloc, hsize, hbase⟩ : r.isReloc = true ∧ r.region.size = 0x1190 ∧ r.virtualBase = _ := by
        simpa using Except.ok.inj hrun
      exact ⟨r, rfl, hbase, kaslr_inWindow.1 _ _ r hload hreloc rfl (by rw [hsize]; decide)⟩
  · have hrun : (Pe.pe64Load { Pe.plainPeArgs with rand := someRand 0, kaslr := true } (Pe.smallPe 0xedff00000)).map
        (fun r => r.isReloc) = .ok true := by
      decide
    cases hload : Pe.pe64Load { Pe.plainPeArgs with rand := someRand 0, kaslr := true } (Pe.smallPe 0xedff00000) with
    | error e =>
      rw [hload] at hrun
      cases hrun
    | ok r =>
      rw [hload] at hrun
      exact ⟨r, rfl, kaslr_inWindow.2.1 _ _ r hload (Except.ok.inj hrun) rfl⟩

end Limine.Protos
