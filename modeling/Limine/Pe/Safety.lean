import Limine.Pe.Walk

/-!
# What `pe64_load` leaves behind

No run of `pe64_load` goes wrong.  The ranges follow each other and stay inside the pages of the
image; they lie on page boundaries exactly if the image does, and nothing checks `ImageBase`.
-/

namespace Limine.Pe
open Limine.Loader Limine.Lib

/-- The headers `pe64_validate` finds. -/
def ntHeaders (f : File) : ImageNtHeaders64 := imageNtHeaders64 f.byte (imageDosHeader f.byte 0).lfanew

theorem pe64Validate_safely (arch : Arch) (f : File) :
    Safely (pe64Validate arch f) fun r => r = (imageDosHeader f.byte 0, ntHeaders f) := by
  unfold pe64Validate
  refine Safely.panicIf_bind fun hdos => ?_
  simp only [decide_eq_false_iff_not, Nat.not_lt] at hdos
  rw [File.read_eq (by omega), ok_bind]
  refine Safely.panicIf_bind fun _ => ?_
  refine Safely.panicIf_bind fun hsize => ?_
  refine Safely.panicIf_bind fun hoff => ?_
  refine Safely.panicIf_bind fun _ => ?_
  simp only [decide_eq_false_iff_not, Nat.not_lt] at hsize hoff
  rw [File.read_eq (by omega), ok_bind]
  refine Safely.panicIf_bind fun _ => ?_
  refine Safely.panicIf_bind fun _ => ?_
  refine Safely.panicIf_bind fun _ => ?_
  refine Safely.panicIf_bind fun _ => ?_
  exact rfl

theorem ntHeaders_lt (f : File) : (ntHeaders f).imageBase < 2 ^ 64 ∧ (ntHeaders f).sizeOfImage < 2 ^ 32 ∧
    (ntHeaders f).sectionAlignment < 2 ^ 32 :=
  ⟨leAt_lt f.byte _ 8, leAt_lt f.byte _ 4, leAt_lt f.byte _ 4⟩

/-- What is known of the headers after the checks of the section table. -/
structure Checked (f : File) (off : Nat) (nt : ImageNtHeaders64) : Prop where
  table : off + nt.numberOfSections * imageSectionHeaderSize ≤ f.size
  sections : 0 < nt.numberOfSections
  alignment : ∃ k, nt.sectionAlignment = 2 ^ k ∧ 12 ≤ k ∧ k < 64

theorem checkSections_safely {f : File} {off : Nat} {nt : ImageNtHeaders64}
    (hlt : nt.sectionAlignment < 2 ^ 32) : Safely (checkSections f off nt) fun _ => Checked f off nt := by
  unfold checkSections
  refine Safely.panicIf_bind fun htable => ?_
  refine Safely.panicIf_bind fun _ => ?_
  refine Safely.panicIf_bind fun hcount => ?_
  refine Safely.panicIf_bind fun _ => ?_
  refine Safely.panicIf_bind fun hpow => ?_
  unfold panicIf
  split
  · exact Safely.panic
  · next hpage =>
    simp only [decide_eq_false_iff_not, beq_eq_false_iff_ne, Nat.not_lt] at htable hcount
    simp only [decide_eq_true_eq, Nat.not_lt] at hpage
    simp only [show nt.sectionAlignment > 1 by omega, decide_true, Bool.true_and, bne_eq_false_iff_eq] at hpow
    obtain ⟨k, hk⟩ := (Nat.and_sub_one_eq_zero_iff_isPowerOfTwo (by omega)).mp hpow
    refine ⟨htable, by omega, k, hk, ?_, ?_⟩
    · by_contra hlow
      have := Nat.pow_lt_pow_right (by omega : 1 < 2) (by omega : k < 12)
      omega
    · by_contra hhigh
      have := Nat.pow_le_pow_right (by omega : 0 < 2) (by omega : 64 ≤ k)
      omega

/-- The headers end before the first section, unless that begins with them. -/
theorem checkHeadersTop_safely {f : File} {off : Nat} {nt : ImageNtHeaders64} (h : Checked f off nt) :
    Safely (checkHeadersTop f off nt) fun _ => ∀ s, (sections f off nt.numberOfSections).head? = some s →
      s.virtualAddress ≠ 0 → pageUp nt.sizeOfHeaders ≤ s.virtualAddress := by
  unfold checkHeadersTop
  rw [sectionAt_eq h.table h.sections, ok_bind]
  have hhead : (sections f off nt.numberOfSections).head? =
      some (imageSectionHeader f.byte (off + 0 * imageSectionHeaderSize)) := by
    obtain ⟨n, hn⟩ := Nat.exists_eq_succ_of_ne_zero (Nat.ne_of_gt h.sections)
    unfold sections
    rw [hn, List.range_succ_eq_map]
    rfl
  rw [hhead]
  generalize imageSectionHeader f.byte (off + 0 * imageSectionHeaderSize) = first
  split
  · generalize hup : alignUp nt.sizeOfHeaders 0x1000 = rounded
    refine Safely.orPanic_bind fun headersTop hround => ?_
    rw [hround] at hup
    obtain ⟨rfl, -⟩ := alignUp_eq_some hup
    unfold panicIf
    split
    · exact Safely.panic
    · next htop =>
      rintro s ⟨⟩ -
      simpa using htop
  · next hzero =>
    rintro s ⟨⟩ hne
    exact absurd hne hzero

/-! ## The slide -/

theorem chooseSlide_safely (args : LoadArgs) {nt : ImageNtHeaders64}
    (halign : ∃ k, nt.sectionAlignment = 2 ^ k ∧ 12 ≤ k ∧ k < 64) :
    Safely (chooseSlide args nt) fun slide => ∃ x, 4096 ∣ x ∧ x < 2 ^ 32 ∧ slide = add64 x nt.lowerSlide := by
  obtain ⟨k, hk, hk12⟩ := halign
  unfold chooseSlide
  split
  · rw [hk]
    exact (kaslrSlide_safely _ args.rand 0xffff 0 (by decide)).imp fun slide h => h.pages hk12
  · refine ⟨0, Nat.dvd_zero _, by decide, ?_⟩
    have hlt : nt.lowerSlide < 2 ^ 64 := by
      unfold ImageNtHeaders64.lowerSlide
      split
      · exact sub64_lt _ _
      · decide
    rw [add64_eq (by omega), Nat.zero_add]

/-- `ImageBase` matters where the image is not moved to the higher half. -/
theorem virtualBase_aligned_iff {nt : ImageNtHeaders64} (hbase : nt.imageBase < 2 ^ 64) {x : Nat}
    (hx : 4096 ∣ x) : 4096 ∣ add64 nt.imageBase (add64 x nt.lowerSlide) ↔
      nt.imageBase < fixedHigherHalfOffset64 ∨ 4096 ∣ nt.imageBase := by
  unfold ImageNtHeaders64.lowerSlide ImageNtHeaders64.lowerToHigher
  by_cases hlow : nt.imageBase < fixedHigherHalfOffset64
  · simp only [hlow, decide_true, if_true, true_or, iff_true]
    unfold add64 sub64 fixedHigherHalfOffset64 at *
    omega
  · simp only [hlow, decide_false, Bool.false_eq_true, if_false, false_or]
    unfold add64
    omega

/-! ## The ranges -/

/-- Ranges at page offsets from `virtualBase`, one after the other. -/
structure Covers (virtualBase extent : Nat) (ranges : List MemRange) : Prop where
  nonempty : ranges ≠ []
  place : ∀ a ∈ ranges, ∃ o, a.base = virtualBase + o ∧ 4096 ∣ o ∧ 4096 ∣ a.length ∧ o + a.length ≤ extent
  sorted : ranges.Pairwise fun a b => a.base + a.length ≤ b.base

/-- Both ends of a range are at page boundaries, no two ranges meet, and all lie in the pages of the
image. -/
structure WellFormed (virtualBase sizeOfImage : Nat) (ranges : List MemRange) : Prop where
  aligned : ∀ a ∈ ranges, 4096 ∣ a.base ∧ 4096 ∣ a.base + a.length
  disjoint : ranges.Pairwise fun a b => a.base + a.length ≤ b.base ∨ b.base + b.length ≤ a.base
  inside : ∀ a ∈ ranges, virtualBase ≤ a.base ∧ a.base + a.length ≤ virtualBase + pageUp sizeOfImage

theorem Covers.wellFormed_iff {virtualBase sizeOfImage : Nat} {ranges : List MemRange}
    (h : Covers virtualBase (pageUp sizeOfImage) ranges) :
    WellFormed virtualBase sizeOfImage ranges ↔ 4096 ∣ virtualBase := by
  constructor
  · intro hwell
    obtain ⟨a, l, hl⟩ := List.exists_cons_of_ne_nil h.nonempty
    have ha : a ∈ ranges := by simp [hl]
    obtain ⟨o, hbase, ho, -⟩ := h.place a ha
    have := (hwell.aligned a ha).1
    omega
  · intro hpage
    refine ⟨fun a ha => ?_, h.sorted.imp Or.inl, fun a ha => ?_⟩
    · obtain ⟨o, hbase, ho, hlength, -⟩ := h.place a ha
      omega
    · obtain ⟨o, hbase, -, -, hle⟩ := h.place a ha
      omega

def roundUp (alignment x : Nat) : Nat := (x + (alignment - 1)) / alignment * alignment

theorem alignUp_eq_roundUp {x a y : Nat} (h : alignUp x a = some y) : y = roundUp a x := by
  unfold alignUp at h
  obtain ⟨z, hz, rfl⟩ := Option.map_eq_some_iff.mp h
  obtain ⟨-, rfl⟩ := checkedAdd_eq_some_iff.mp hz
  rfl

theorem roundUp_le {a x y : Nat} (ha : 0 < a) (h : a ∣ y) (hle : x ≤ y) : roundUp a x ≤ y := by
  obtain ⟨c, rfl⟩ := h
  unfold roundUp
  rw [Nat.mul_comm a c]
  refine Nat.mul_le_mul_right a (Nat.le_of_lt_succ ((Nat.div_lt_iff_lt_mul ha).mpr ?_))
  rw [Nat.succ_mul, Nat.mul_comm c a]
  omega

/-- The range of a section. -/
def sectionRange (alignment virtualBase imageTop : Nat) (s : ImageSectionHeader) : MemRange :=
  ⟨add64 virtualBase s.virtualAddress,
    clampLength imageTop (add64 virtualBase s.virtualAddress) (roundUp alignment s.virtualSize),
    permissionsOf s.characteristics⟩

/-- The range of the headers. -/
def headerRange (nt : ImageNtHeaders64) (virtualBase imageTop : Nat) : MemRange :=
  ⟨virtualBase, clampLength imageTop virtualBase (pageUp nt.sizeOfHeaders), memRangeR⟩

def headerRanges (headersWithinSection : Bool) (nt : ImageNtHeaders64) (virtualBase imageTop : Nat) :
    List MemRange :=
  if headersWithinSection then [] else [headerRange nt virtualBase imageTop]

def withinSection (ss : List ImageSectionHeader) : Bool := ss.any fun s => s.virtualAddress == 0

theorem count_foldlM (ss : List ImageSectionHeader) (b : Bool) (n : Nat) :
    ss.foldlM (fun (acc : Bool × Nat) s =>
      (.ok (if s.virtualAddress = 0 then true else acc.1, acc.2 + 1) : Load (Bool × Nat))) (b, n) =
      .ok (b || withinSection ss, n + ss.length) := by
  induction ss generalizing b n with
  | nil => simp [withinSection]; rfl
  | cons s ss ih =>
    rw [List.foldlM_cons, ok_bind, ih, List.length_cons, Nat.add_assoc, Nat.add_comm 1]
    unfold withinSection
    by_cases hs : s.virtualAddress = 0
    · simp [hs]
    · simp [hs, show (s.virtualAddress == 0) = false from beq_false_of_ne hs]

section
variable {nt : ImageNtHeaders64} {virtualBase imageTop : Nat}

theorem firstRanges_safely (within_ : Bool) (count : Nat) :
    Safely (firstRanges within_ nt virtualBase imageTop (if within_ then count else count + 1)) fun l =>
      l = headerRanges within_ nt virtualBase imageTop := by
  unfold firstRanges headerRanges
  cases within_ with
  | true => exact rfl
  | false =>
    unfold headersRange
    generalize hup : alignUp nt.sizeOfHeaders 0x1000 = rounded
    refine Safely.orPanic_bind fun length hround => ?_
    rw [hround] at hup
    obtain ⟨rfl, -⟩ := alignUp_eq_some hup
    exact rfl

/-- The second loop fills the array that the first one counted for. -/
theorem ranges_foldlM (within_ : Bool) (ss : List ImageSectionHeader) :
    Safely (ss.foldlM (rangeStep nt.sectionAlignment virtualBase imageTop
        (if within_ then ss.length else ss.length + 1)) (headerRanges within_ nt virtualBase imageTop)) fun l =>
      l = headerRanges within_ nt virtualBase imageTop ++
        ss.map (sectionRange nt.sectionAlignment virtualBase imageTop) := by
  refine Ends.foldlM (fun front (l : List MemRange) => l = headerRanges within_ nt virtualBase imageTop ++
    front.map (sectionRange nt.sectionAlignment virtualBase imageTop)) ?_ (by simp)
  rintro front s rest l hss rfl
  unfold rangeStep
  dsimp only
  generalize hup : alignUp s.virtualSize nt.sectionAlignment = rounded
  refine Safely.orPanic_bind fun length hround => ?_
  rw [hround] at hup
  obtain rfl := alignUp_eq_roundUp hup
  unfold pushRange
  rw [if_pos (by
    rw [List.length_append, List.length_map, hss, List.length_append, List.length_cons]
    unfold headerRanges
    cases within_ with
    | true => simp
    | false =>
      simp
      omega)]
  rw [List.map_append, ← List.append_assoc]
  exact rfl

/-- What the ranges are made of: laid out sections, with the headers in front of them. -/
structure RangesOf (nt : ImageNtHeaders64) (ss : List ImageSectionHeader) : Prop where
  nonempty : ss ≠ []
  alignment : ∃ k, nt.sectionAlignment = 2 ^ k ∧ 12 ≤ k ∧ k < 64
  laid : ∃ prevTop, Laid nt ss prevTop
  headers : ∀ s, ss.head? = some s → s.virtualAddress ≠ 0 → pageUp nt.sizeOfHeaders ≤ s.virtualAddress

theorem clampLength_eq {virtualBase extent o length : Nat} (hlt : virtualBase + extent < 2 ^ 64)
    (hle : o ≤ extent) :
    clampLength (virtualBase + extent) (virtualBase + o) length = min length (extent - o) := by
  unfold clampLength
  rw [sub64_eq (by omega) hlt, show virtualBase + extent - (virtualBase + o) = extent - o by omega]
  split <;> omega

theorem RangesOf.page_dvd {ss : List ImageSectionHeader} (h : RangesOf nt ss) : 4096 ∣ nt.sectionAlignment := by
  obtain ⟨k, hk, hk12, -⟩ := h.alignment
  rw [hk]
  exact (Nat.pow_dvd_pow 2 hk12 : 2 ^ 12 ∣ 2 ^ k)

/-- A section's range starts where the section does and ends before the image's last page does. -/
theorem RangesOf.sectionRange_eq {ss : List ImageSectionHeader} (h : RangesOf nt ss)
    (htop : virtualBase + pageUp nt.sizeOfImage < 2 ^ 64) {s : ImageSectionHeader} (hs : s ∈ ss) :
    sectionRange nt.sectionAlignment virtualBase (virtualBase + pageUp nt.sizeOfImage) s =
      ⟨virtualBase + s.virtualAddress, min (roundUp nt.sectionAlignment s.virtualSize)
        (pageUp nt.sizeOfImage - s.virtualAddress), permissionsOf s.characteristics⟩ := by
  obtain ⟨prevTop, hlaid⟩ := h.laid
  have hfits := hlaid.fits s hs
  have hup := le_pageUp nt.sizeOfImage
  unfold sectionRange
  rw [add64_eq (by omega), clampLength_eq htop (by omega)]

/-- A section in front of the other ends, rounded up, where that begins. -/
theorem RangesOf.section_le {ss : List ImageSectionHeader} (h : RangesOf nt ss) {prevTop : Nat}
    (hlaid : Laid nt ss prevTop) {s t : ImageSectionHeader} (hs : s ∈ ss) (ht : t ∈ ss)
    (hle : s.virtualAddress + s.virtualSize ≤ t.virtualAddress) :
    s.virtualAddress + roundUp nt.sectionAlignment s.virtualSize ≤ t.virtualAddress := by
  obtain ⟨k, hk, -⟩ := h.alignment
  have hpos : 0 < nt.sectionAlignment := by
    rw [hk]
    exact Nat.two_pow_pos k
  have hround := roundUp_le hpos (Nat.dvd_sub (hlaid.aligned t ht) (hlaid.aligned s hs))
    (by omega : s.virtualSize ≤ t.virtualAddress - s.virtualAddress)
  omega

theorem RangesOf.headers_le {ss : List ImageSectionHeader} (h : RangesOf nt ss) (hw : withinSection ss = false)
    {s : ImageSectionHeader} (hs : s ∈ ss) : pageUp nt.sizeOfHeaders ≤ s.virtualAddress := by
  obtain ⟨first, rest, rfl⟩ := List.exists_cons_of_ne_nil h.nonempty
  obtain ⟨prevTop, hlaid⟩ := h.laid
  have hzero : ∀ t ∈ first :: rest, t.virtualAddress ≠ 0 := by
    intro t ht hzero
    have := List.any_eq_false.mp hw t ht
    exact this (by simp [hzero])
  have hfirst := h.headers first rfl (hzero first (by simp))
  rcases List.mem_cons.mp hs with rfl | hs
  · exact hfirst
  · have := (List.pairwise_cons.mp hlaid.sorted).1 s hs
    omega

theorem dvd_min_of_dvd {k a b : Nat} (ha : k ∣ a) (hb : k ∣ b) : k ∣ min a b := by
  rw [Nat.min_def]
  split
  · exact ha
  · exact hb

/-- The header's range, where there is one. -/
theorem mem_headerRanges {within_ : Bool} (htop : virtualBase + pageUp nt.sizeOfImage < 2 ^ 64) {a : MemRange}
    (ha : a ∈ headerRanges within_ nt virtualBase (virtualBase + pageUp nt.sizeOfImage)) :
    within_ = false ∧
      a = ⟨virtualBase, min (pageUp nt.sizeOfHeaders) (pageUp nt.sizeOfImage), memRangeR⟩ := by
  unfold headerRanges at ha
  cases within_ with
  | true => cases ha
  | false =>
    have hclamp := @clampLength_eq virtualBase _ 0 (pageUp nt.sizeOfHeaders) htop (Nat.zero_le _)
    rw [Nat.add_zero, Nat.sub_zero] at hclamp
    obtain rfl := List.mem_singleton.mp ha
    refine ⟨rfl, ?_⟩
    unfold headerRange
    rw [hclamp]

theorem RangesOf.covers {ss : List ImageSectionHeader} (h : RangesOf nt ss)
    (htop : virtualBase + pageUp nt.sizeOfImage < 2 ^ 64) :
    Covers virtualBase (pageUp nt.sizeOfImage)
      (headerRanges (withinSection ss) nt virtualBase (virtualBase + pageUp nt.sizeOfImage) ++
        ss.map (sectionRange nt.sectionAlignment virtualBase (virtualBase + pageUp nt.sizeOfImage))) := by
  obtain ⟨prevTop, hlaid⟩ := h.laid
  have hpage := h.page_dvd
  have hextent : 4096 ∣ pageUp nt.sizeOfImage := Nat.dvd_mul_left _ _
  have hrange := fun s (hs : s ∈ ss) => h.sectionRange_eq htop hs
  refine ⟨?_, fun a ha => ?_, List.pairwise_append.mpr ⟨?_, ?_, fun a ha b hb => ?_⟩⟩
  · obtain ⟨s, rest, rfl⟩ := List.exists_cons_of_ne_nil h.nonempty
    simp
  · rcases List.mem_append.mp ha with ha | ha
    · rw [(mem_headerRanges htop ha).2]
      refine ⟨0, rfl, Nat.dvd_zero _, dvd_min_of_dvd (Nat.dvd_mul_left _ _) hextent, ?_⟩
      dsimp only
      omega
    · obtain ⟨s, hs, rfl⟩ := List.mem_map.mp ha
      have hva := Nat.dvd_trans hpage (hlaid.aligned s hs)
      have hfits := hlaid.fits s hs
      have hup := le_pageUp nt.sizeOfImage
      rw [hrange s hs]
      refine ⟨_, rfl, hva,
        dvd_min_of_dvd (Nat.dvd_trans hpage (Nat.dvd_mul_left _ _)) (Nat.dvd_sub hextent hva), ?_⟩
      dsimp only
      omega
  · unfold headerRanges
    split
    · exact List.Pairwise.nil
    · exact List.pairwise_singleton _ _
  · rw [List.pairwise_map]
    refine (List.Pairwise.and_mem.mp hlaid.sorted).imp fun ⟨hs, ht, hle⟩ => ?_
    have hround := h.section_le hlaid hs ht hle
    rw [hrange _ hs, hrange _ ht]
    dsimp only
    omega
  · obtain ⟨hw, rfl⟩ := mem_headerRanges htop ha
    obtain ⟨s, hs, rfl⟩ := List.mem_map.mp hb
    have hle := h.headers_le hw hs
    rw [hrange s hs]
    dsimp only
    omega

theorem getRanges_safely (alloc : Allocator) {f : File} {off : Nat} (hc : Checked f off nt)
    (h : RangesOf nt (sections f off nt.numberOfSections)) :
    Safely (getRanges alloc f off nt virtualBase) (Covers virtualBase (pageUp nt.sizeOfImage)) := by
  unfold getRanges
  rw [forSections_eq hc.table, count_foldlM, ok_bind]
  dsimp only
  rw [Bool.false_or, Nat.zero_add]
  refine (extMemAllocCounted_safely alloc 0 _ 24).bind fun _ _ => ?_
  generalize hup : alignUp nt.sizeOfImage 0x1000 = rounded
  refine Safely.orPanic_bind fun extent hround => ?_
  rw [hround] at hup
  obtain ⟨rfl, -⟩ := alignUp_eq_some hup
  refine Safely.orPanic_bind fun imageTop htop => ?_
  obtain ⟨hlt, rfl⟩ := checkedAdd_eq_some_iff.mp htop
  refine (firstRanges_safely _ _).bind fun ranges hranges => ?_
  subst hranges
  rw [forSections_eq hc.table]
  refine (ranges_foldlM _ _).imp fun l hl => ?_
  rw [hl]
  exact h.covers hlt

end

/-! ## The whole function -/

/-- No access outside the file or the image, and an end. -/
def MemorySafe (x : Load Loaded) : Prop := Safely x fun _ => True

/-- What a load that returns has done about the ranges. -/
def RangesDone (args : LoadArgs) (nt : ImageNtHeaders64) (r : Loaded) : Prop :=
  (∃ x, 4096 ∣ x ∧ r.virtualBase = add64 nt.imageBase (add64 x nt.lowerSlide)) ∧
    r.region.size = nt.sizeOfImage ∧ (args.ranges = true → Covers r.virtualBase (pageUp nt.sizeOfImage) r.ranges)

theorem pe64LoadImage_safely (args : LoadArgs) {f : File} {off : Nat} {nt : ImageNtHeaders64} {reg : Region}
    (hc : Checked f off nt) (hsize : reg.size = nt.sizeOfImage) :
    Safely (pe64LoadImage args f off nt reg) (RangesDone args nt) := by
  unfold pe64LoadImage
  refine Safely.panicIf_bind fun hheaders => ?_
  simp only [Bool.or_eq_false_iff, decide_eq_false_iff_not] at hheaders
  rw [memcpy_eq (by omega) ⟨Nat.le_refl _, by omega⟩, ok_bind]
  refine (chooseSlide_safely args hc.alignment).bind fun slide hslide => ?_
  rw [forSections_eq hc.table]
  refine (sections_loop_safely hsize _ _).bind fun acc hlaid => ?_
  refine (checkHeadersTop_safely hc).bind fun _ htop => ?_
  refine Safely.panicIf_bind fun _ => ?_
  refine (checkImports_safely hsize _).bind fun _ _ => ?_
  refine (applyRelocations_safely hsize nt.relocDir _).bind fun m _ => ?_
  have hof : RangesOf nt (sections f off nt.numberOfSections) := by
    refine ⟨?_, hc.alignment, ⟨_, hlaid⟩, htop⟩
    unfold sections
    have := hc.sections
    simp
    omega
  have hranges : Safely (loadRanges args f off nt (add64 nt.imageBase slide)) fun l =>
      args.ranges = true → Covers (add64 nt.imageBase slide) (pageUp nt.sizeOfImage) l := by
    unfold loadRanges
    cases args.ranges with
    | false => rintro ⟨⟩
    | true => exact (getRanges_safely args.alloc hc hof).imp fun l hl _ => hl
  refine hranges.bind fun l hl => ?_
  obtain ⟨x, hx, -, rfl⟩ := hslide
  exact ⟨⟨x, hx, rfl⟩, hsize, hl⟩

theorem pe64Load_safely (args : LoadArgs) (f : File) :
    Safely (pe64Load args f) (RangesDone args (ntHeaders f)) := by
  unfold pe64Load
  have hlt := (ntHeaders_lt f).2.2
  refine (pe64Validate_safely args.arch f).bind fun r hr => ?_
  subst hr
  generalize imageDosHeader f.byte 0 = dos
  generalize ntHeaders f = nt at hlt ⊢
  dsimp only
  refine (checkSections_safely hlt).bind fun _ hc => ?_
  refine Safely.panicIf_bind fun _ => ?_
  refine (imageMemory_safely args.alloc _ _).bind fun reg hreg => ?_
  exact pe64LoadImage_safely args hc hreg.1

/-- **PE loading is memory safe**, whatever the relocations do to their own blocks, and the ranges it
returns are well formed exactly if `ImageBase` is in the lower half or at a page boundary. -/
theorem pe64Load_wellFormed_iff (args : LoadArgs) (f : File) :
    MemorySafe (pe64Load args f) ∧
      ∀ r, pe64Load args f = .ok r → args.ranges = true →
        r.region.size = (ntHeaders f).sizeOfImage ∧
        (WellFormed r.virtualBase (ntHeaders f).sizeOfImage r.ranges ↔
          (ntHeaders f).imageBase < fixedHigherHalfOffset64 ∨ 4096 ∣ (ntHeaders f).imageBase) := by
  refine ⟨(pe64Load_safely args f).imp fun _ _ => trivial, fun r hrun hranges => ?_⟩
  obtain ⟨⟨x, hx, hbase⟩, hsize, hcovers⟩ := (pe64Load_safely args f).of_ok hrun
  refine ⟨hsize, ?_⟩
  rw [(hcovers hranges).wellFormed_iff, hbase]
  exact virtualBase_aligned_iff (ntHeaders_lt f).1 hx

/-! ## Files -/

/-- A section with one block of relocations, of which the first makes the second: it adds the slide
to the eight bytes that begin with it. -/
def smallPeWords (imageBase : Nat) : List Nat :=
  [imageDosSignature, 0, 0, 0, 0, 0, 0, 64 * 2 ^ 32,
    imageNtSignature + imageFileMachineAmd64 * 2 ^ 32 + 2 ^ 48, 0, imageOptionalHeader64Size * 2 ^ 32,
    imageNtOptionalHdr64Magic, 0, 0x1000, imageBase, 0x1000, 0, 0, 368 * 2 ^ 32 + 0x2000, 0, 0, 0, 0, 0,
    16 * 2 ^ 32, 0, 0, 0, 0, 0, 12 * 2 ^ 32 + 0x1000, 0, 0, 0, 0, 0, 0, 0, 0, 0, 0,
    0, 0x1000 * 2 ^ 32 + 0x800, 368 * 2 ^ 32 + 24, 0, (imageScnMemRead + imageScnMemWrite) * 2 ^ 32,
    12 * 2 ^ 32 + 0x1000, 0xa008, 0]

def smallPe (imageBase : Nat) : File := ⟨8 * 49, by decide, wordByte (smallPeWords imageBase)⟩

def plainPeArgs : LoadArgs := ⟨.x86_64, plainAlloc, fun _ => 0, false, true⟩

/-- The image is moved to the higher half. -/
theorem pe64Load_wellFormed_small : ∃ r, pe64Load plainPeArgs (smallPe 0xedff00000) = .ok r ∧
    leAt r.memory (r.region.base + 0x1010) 8 = r.slide ∧ WellFormed r.virtualBase 0x2000 r.ranges := by
  have hrun : (pe64Load plainPeArgs (smallPe 0xedff00000)).map (fun r =>
      (leAt r.memory (r.region.base + 0x1010) 8, r.slide)) = .ok (0xfffffff0a0100000, 0xfffffff0a0100000) := by
    decide
  cases hload : pe64Load plainPeArgs (smallPe 0xedff00000) with
  | error e =>
    rw [hload] at hrun
    cases hrun
  | ok r =>
    rw [hload] at hrun
    obtain ⟨hvalue, hslide⟩ := Prod.mk.inj (Except.ok.inj hrun)
    have hsize : (ntHeaders (smallPe 0xedff00000)).sizeOfImage = 0x2000 := by decide +kernel
    have hiff := ((pe64Load_wellFormed_iff plainPeArgs (smallPe 0xedff00000)).2 r hload rfl).2
    rw [hsize] at hiff
    exact ⟨r, rfl, hvalue.trans hslide.symm, hiff.mpr (by decide)⟩

/-- An `ImageBase` in the higher half that is not at a page boundary. -/
theorem pe64Load_misaligned : ∃ r, pe64Load plainPeArgs (smallPe 0xffffffff80000800) = .ok r ∧
    ¬WellFormed r.virtualBase (ntHeaders (smallPe 0xffffffff80000800)).sizeOfImage r.ranges := by
  have hrun : (pe64Load plainPeArgs (smallPe 0xffffffff80000800)).map (fun r => r.ranges) =
      .ok [⟨0xffffffff80000800, 0x1000, 4⟩, ⟨0xffffffff80001800, 0x1000, 6⟩] := by
    decide +kernel
  cases hload : pe64Load plainPeArgs (smallPe 0xffffffff80000800) with
  | error e =>
    rw [hload] at hrun
    cases hrun
  | ok r =>
    rw [hload] at hrun
    have hranges : r.ranges = [⟨0xffffffff80000800, 0x1000, 4⟩, ⟨0xffffffff80001800, 0x1000, 6⟩] :=
      Except.ok.inj hrun
    refine ⟨r, rfl, fun hwell => ?_⟩
    have haligned := (hwell.aligned ⟨0xffffffff80000800, 0x1000, 4⟩ (by rw [hranges]; simp)).1
    revert haligned
    decide

end Limine.Pe
