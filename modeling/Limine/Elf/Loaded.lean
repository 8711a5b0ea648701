import Limine.Elf.Reference

/-!
# What `elf64_load` leaves behind

Where the places of the program headers can be computed, every access of `elf64_load` is in bounds,
and what it returns is described by `Loads`: the segments are laid out, the relocations prepared,
the image is the one of the reference and the slide moves it by whole pages.
-/

namespace Limine.Elf
open Limine.Loader Limine.Lib

section
variable {f : File} {hdr : Elf64Hdr}

theorem elf64Validate_safely (arch : Arch) (hdr : Elf64Hdr) :
    Safely (elf64Validate arch hdr) fun _ => True := by
  unfold elf64Validate
  refine Safely.panicIf_bind fun _ => ?_
  refine Safely.panicIf_bind fun _ => ?_
  refine Safely.panicIf_bind fun _ => ?_
  unfold panicIf
  split
  · exact Safely.panic
  · trivial

/-- Where the checks of the header pass, the table lies in the file. -/
theorem elf64CheckHeader_safely (arch : Arch) (f : File) (hdr : Elf64Hdr) :
    Safely (elf64CheckHeader arch f hdr) fun _ => TableOk f hdr := by
  unfold elf64CheckHeader checkPhdrSize
  refine (elf64Validate_safely arch hdr).bind fun _ _ => ?_
  refine Safely.panicIf_bind fun _ => ?_
  refine Safely.panicIf_bind fun hsize => ?_
  refine Safely.orPanic_bind fun phdrTableEnd hend => ?_
  refine Safely.panicIf_bind fun hfits => ?_
  obtain ⟨size, hmul, hadd⟩ := Option.bind_eq_some_iff.mp hend
  obtain ⟨-, rfl⟩ := checkedMul_eq_some_iff.mp hmul
  obtain ⟨-, rfl⟩ := checkedAdd_eq_some_iff.mp hadd
  simp only [decide_eq_false_iff_not] at hsize hfits
  have htable : TableOk f hdr := ⟨by omega, by omega⟩
  exact (elf64IsRelocatable_safely htable).imp fun _ _ => htable

/-! ## The alignment -/

/-- A loadable header with an alignment that the source refuses. -/
def Elf64Phdr.refused (p : Elf64Phdr) : Bool := p.loadable && p.badAlign

theorem maxAlign_outcome (ps : List Elf64Phdr) (acc : Nat × Nat) :
    if ps.any Elf64Phdr.refused then ∃ msg, ps.foldlM maxAlignStep acc = Loader.panic msg
    else ∃ acc', ps.foldlM maxAlignStep acc = .ok acc' := by
  induction ps generalizing acc with
  | nil => exact ⟨acc, rfl⟩
  | cons p ps ih =>
    rw [List.any_cons, List.foldlM_cons, Elf64Phdr.refused, maxAlignStep]
    cases p.loadable with
    | false => exact ih acc
    | true =>
      cases p.badAlign with
      | true => exact ⟨_, rfl⟩
      | false => exact ih _

theorem phdr_align_lt (i : Nat) : (phdr f hdr i).align < 2 ^ 64 := leAt_lt f.byte _ 8

/-- `elf64_max_align` returns a power of 2 that is a multiple of the page size. -/
theorem elf64MaxAlign_safely (h : TableOk f hdr) (hr : hdr.phNum ≤ reach hdr) :
    Safely (elf64MaxAlign f hdr) fun a => (∃ k, a = 2 ^ k ∧ 12 ≤ k ∧ k < 64) ∧
      ∃ p, p ∈ segments f hdr := by
  unfold elf64MaxAlign checkPhdrSize
  refine Safely.panicIf_bind fun _ => ?_
  rw [forPhdrs_eq_foldlM h hr]
  have hlt : ∀ p ∈ phdrs f hdr, p.align < 2 ^ 64 := by
    intro p hp
    obtain ⟨i, -, rfl⟩ := List.mem_map.mp hp
    exact phdr_align_lt i
  refine (maxAlign_foldlM hlt).bind fun acc hacc => ?_
  obtain ⟨hpow, hacclt, hsome⟩ := hacc
  refine Safely.panicIf_bind fun hzero => ?_
  obtain ⟨p, hp, hload⟩ := hsome (by simpa using hzero)
  refine ⟨?_, p, List.mem_filter.mpr ⟨hp, hload⟩⟩
  show ∃ k, (if acc.1 < 4096 then 4096 else acc.1) = 2 ^ k ∧ 12 ≤ k ∧ k < 64
  split
  · exact ⟨12, rfl, Nat.le_refl _, by omega⟩
  · next hlarge =>
    obtain ⟨k, hk⟩ := hpow (by omega)
    refine ⟨k, hk, ?_, ?_⟩
    · by_contra hlt
      have := Nat.pow_lt_pow_right (by omega : 1 < 2) (by omega : k < 12)
      omega
    · rw [hk] at hacclt
      exact (Nat.pow_lt_pow_iff_right (by omega)).mp hacclt

/-! ## The slide -/

theorem chooseSlide_safely (args : LoadArgs) (isReloc : Bool)
    (maxAlign minVaddr imageSize lowerSlide : Nat) :
    Safely (chooseSlide args isReloc maxAlign minVaddr imageSize lowerSlide) fun slide =>
      slide = lowerSlide ∨ isReloc = true ∧ Slid maxAlign minVaddr imageSize lowerSlide slide := by
  unfold chooseSlide
  cases isReloc with
  | false => exact Or.inl rfl
  | true =>
    cases args.kaslr with
    | false => exact Or.inl rfl
    | true => exact (kaslrSlide_safely _ args.rand 0xffff 0 (by decide)).imp fun _ h => Or.inr ⟨rfl, h⟩

/-! ## The ranges -/

/-- The range of a segment. -/
def rangeOf (slide : Nat) (p : Elf64Phdr) : MemRange :=
  ⟨pageDown (add64 p.vaddr slide),
    sub64 (pageUp (add64 p.vaddr slide + p.memsz)) (pageDown (add64 p.vaddr slide)), permissionsOf p.flags⟩

theorem ranged_count (isReloc : Bool) (ps : List Elf64Phdr) (n : Nat) :
    ps.foldlM (fun count p => (.ok (if ranged isReloc p then count + 1 else count) : Load Nat)) n =
      .ok (n + (ps.filter (ranged isReloc)).length) := by
  induction ps generalizing n with
  | nil => rfl
  | cons p ps ih =>
    rw [List.foldlM_cons, ok_bind, ih]
    cases hr : ranged isReloc p with
    | true =>
      rw [List.filter_cons_of_pos hr, List.length_cons, if_pos rfl]
      congr 1
      omega
    | false =>
      rw [List.filter_cons_of_neg (by simp [hr])]
      rfl

/-- The second loop fills the array that the first one counted for. -/
theorem ranges_foldlM (isReloc : Bool) (slide : Nat) (ps : List Elf64Phdr) :
    Safely (ps.foldlM (rangeStep isReloc slide (ps.filter (ranged isReloc)).length) []) fun l =>
      l = (ps.filter (ranged isReloc)).map (rangeOf slide) ∧
      ∀ p ∈ ps.filter (ranged isReloc), add64 p.vaddr slide + p.memsz + 4095 < 2 ^ 64 := by
  refine Ends.foldlM (fun front (l : List MemRange) =>
    l = (front.filter (ranged isReloc)).map (rangeOf slide) ∧
    ∀ p ∈ front.filter (ranged isReloc), add64 p.vaddr slide + p.memsz + 4095 < 2 ^ 64) ?_
    ⟨rfl, by simp⟩
  rintro front p rest l hps ⟨rfl, hfits⟩
  rw [hps]
  unfold rangeStep
  cases hr : ranged isReloc p with
  | false =>
    have hfilter : (front ++ [p]).filter (ranged isReloc) = front.filter (ranged isReloc) := by simp [hr]
    rw [hfilter]
    exact ⟨rfl, hfits⟩
  | true =>
    refine Safely.orPanic_bind fun thisTop htop => ?_
    generalize hup : alignUp thisTop 4096 = rounded
    refine Safely.orPanic_bind fun top hround => ?_
    rw [hround] at hup
    obtain ⟨-, rfl⟩ := checkedAdd_eq_some_iff.mp htop
    obtain ⟨rfl, hlt⟩ := alignUp_eq_some hup
    rw [if_pos (by
      rw [List.length_map, List.filter_append, List.length_append, List.filter_cons_of_pos hr,
        List.length_cons]
      omega)]
    have hfilter : (front ++ [p]).filter (ranged isReloc) = front.filter (ranged isReloc) ++ [p] := by
      simp [hr]
    rw [hfilter]
    refine ⟨?_, forall_mem_concat hfits hlt⟩
    rw [List.map_append]
    rfl

theorem elf64GetRanges_safely (alloc : Allocator) (h : TableOk f hdr) (hr : hdr.phNum ≤ reach hdr)
    (slide : Nat) :
    Safely (elf64GetRanges alloc f hdr slide) fun l => ∃ isReloc,
      elf64IsRelocatable f hdr = .ok isReloc ∧
      l = ((phdrs f hdr).filter (ranged isReloc)).map (rangeOf slide) ∧
      ∀ p ∈ (phdrs f hdr).filter (ranged isReloc), add64 p.vaddr slide + p.memsz + 4095 < 2 ^ 64 := by
  unfold elf64GetRanges checkPhdrSize
  refine Safely.panicIf_bind fun _ => ?_
  refine (elf64IsRelocatable_safely h).and_eq.bind fun isReloc hreloc => ?_
  rw [forPhdrs_eq_foldlM h hr, ranged_count, ok_bind, Nat.zero_add]
  refine Safely.panicIf_bind fun _ => ?_
  refine (extMemAllocCounted_safely alloc 2 _ 24).bind fun _ _ => ?_
  rw [forPhdrs_eq_foldlM h hr]
  exact (ranges_foldlM isReloc slide (phdrs f hdr)).imp fun l hl => ⟨isReloc, hreloc.1, hl⟩

end

/-! ## The whole function -/

/-- The lowest address of the image. -/
def Layout.base (layout : Layout) : Nat := pageDown layout.minVaddr

/-- The slide without KASLR. -/
def Layout.lowerSlide (layout : Layout) : Nat :=
  if layout.lowerToHigher then sub64 fixedHigherHalfOffset64 layout.base else 0

/-- What `elf64_load` returns, and by what steps: the header, the layout of the segments, the tables
of the dynamic section, the array of relocations. -/
structure Loads (args : LoadArgs) (f : File) (hdr : Elf64Hdr) (r : Loaded) (relocatable : Bool)
    (layout : Layout) (t : Tables) (st : RelocState) : Prop where
  header : elf64CheckHeader args.arch f hdr = .ok relocatable
  table : TableOk f hdr
  reach : hdr.phNum ≤ reach hdr
  laidOut : LaidOut (args.isReloc && relocatable) args.ranges (segments f hdr) layout
  minVaddr : layout.minVaddr ≠ 2 ^ 64 - 1
  regionSize : layout.base + r.region.size = layout.maxVaddr
  regionAligned : 4096 ∣ r.region.base
  slideAligned : 4096 ∣ r.slide ∧ r.slide < 2 ^ 64
  slide : r.slide = layout.lowerSlide ∨
    tooLow layout.base r.region.size r.slide = false ∧
      ∃ x, x < 2 ^ 32 ∧ r.slide = add64 x layout.lowerSlide
  virtualBase : r.virtualBase = add64 layout.base r.slide
  tables : dynamicTables f hdr = .ok (some t)
  inFile : t.InFile f
  symbols : st.toSymTables = t.toSymTables
  count : countRelocations f t = .ok (st.relrCount, st.relocsI)
  counted : Counted f t st.relrCount st.relocsI
  prepared : Prepared f st (relocTable f t)
  built : Built args.arch f st.toSymTables r.slide r.region.base layout.base (segments f hdr)
    (relocTable f t) (segments f hdr) r.memory
  ranges : args.ranges = true → elf64GetRanges args.alloc f hdr r.slide = .ok r.ranges

section
variable {args : LoadArgs} {f : File} {hdr : Elf64Hdr}

theorem LaidOut.ordered {isReloc ranges : Bool} {ps : List Elf64Phdr} {s : Layout}
    (h : LaidOut isReloc ranges ps s) (hps : ∀ p ∈ ps, p.loadable = true) : Ordered s.base ps where
  low p hp := Nat.le_trans (pageDown_le _) (h.min p hp)
  memsz p hp := Elf64Phdr.loadable_memsz (hps p hp)
  sorted := h.sorted

theorem Layout.lowerSlide_spec (layout : Layout) :
    4096 ∣ layout.lowerSlide ∧ layout.lowerSlide < 2 ^ 64 := by
  unfold Layout.lowerSlide
  split
  · refine ⟨?_, sub64_lt _ _⟩
    unfold sub64 fixedHigherHalfOffset64 Layout.base pageDown
    omega
  · exact ⟨Nat.dvd_zero _, by decide⟩

theorem segments_loop_safely {st : RelocState} {reg : Region} {maxVaddr vbase slide : Nat}
    {table : List Elf64Rela} (ht : TableOk f hdr) (hr : hdr.phNum ≤ reach hdr)
    (h : Prepared f st table) (hord : Ordered vbase (segments f hdr))
    (hin : ∀ p ∈ segments f hdr, InImage reg vbase p) :
    Safely (forPhdrs f hdr (segmentStep args.arch f st reg maxVaddr vbase slide) (fun _ => 0, 0))
      fun acc => Built args.arch f st.toSymTables slide reg.base vbase (segments f hdr) table
        (segments f hdr) acc.1 := by
  rw [forPhdrs_eq_segments ht hr]
  · exact segments_foldlM h hord fun p hp => ⟨segments_loadable hp, hin p hp⟩
  · intro a p hp
    unfold segmentStep
    rw [hp]
    rfl

theorem elf64LoadImage_safely {relocatable : Bool} {maxAlign : Nat} {layout : Layout}
    (hheader : elf64CheckHeader args.arch f hdr = .ok relocatable) (ht : TableOk f hdr)
    (hr : hdr.phNum ≤ reach hdr) (halign : ∃ k, maxAlign = 2 ^ k ∧ 12 ≤ k ∧ k < 64)
    (hlaid : LaidOut (args.isReloc && relocatable) args.ranges (segments f hdr) layout) :
    Safely (elf64LoadImage args f hdr (args.isReloc && relocatable) maxAlign layout) fun r =>
      ∃ t st, Loads args f hdr r relocatable layout t st := by
  obtain ⟨k, rfl, hk⟩ := halign
  have hload : ∀ p ∈ segments f hdr, p.loadable = true := fun p hp => segments_loadable hp
  have hbase : layout.base ≤ layout.minVaddr := pageDown_le _
  have hmaxlt := hlaid.maxLt
  unfold elf64LoadImage
  rw [alignDown_eq_pageDown]
  refine Safely.panicIf_bind fun hmin => ?_
  have hmin : layout.minVaddr ≠ 2 ^ 64 - 1 := by simpa using hmin
  obtain ⟨p₀, hp₀, hp₀min⟩ := hlaid.minMem.resolve_left fun h => hmin h.2
  have hle : layout.base ≤ layout.maxVaddr := by
    have h1 := hlaid.max p₀ hp₀
    unfold Elf64Phdr.top at h1
    omega
  show Safely (imageMemory args.alloc (sub64 layout.maxVaddr layout.base) (2 ^ k) >>= _) _
  rw [sub64_eq hle hmaxlt]
  refine (imageMemory_safely args.alloc _ _).bind fun reg hreg => ?_
  have hregsize : layout.base + reg.size = layout.maxVaddr := by
    rw [hreg.1]
    omega
  refine (chooseSlide_safely args _ _ _ _ _).bind fun slide hslide => ?_
  refine (elf64PrepareRelocations_safely args.alloc ht hr).bind fun prepared hprepared => ?_
  cases prepared with
  | none => exact Safely.panic
  | some st =>
    obtain ⟨t, htables, hfile, hsym, ⟨hcount, hcounted⟩, hprep⟩ := hprepared st rfl
    have hin : ∀ p ∈ segments f hdr, InImage reg layout.base p := fun p hp => by
      have h1 := hlaid.fits p hp
      have h2 := hlaid.min p hp
      have h3 := hlaid.max p hp
      exact ⟨by omega, by omega, by omega⟩
    refine (segments_loop_safely ht hr hprep (hlaid.ordered hload) hin).bind fun acc hacc => ?_
    have hranges : Safely (loadRanges args f hdr slide) fun l =>
        args.ranges = true → elf64GetRanges args.alloc f hdr slide = .ok l := by
      unfold loadRanges
      cases args.ranges with
      | false => rintro ⟨⟩
      | true => exact (elf64GetRanges_safely args.alloc ht hr slide).and_eq.imp fun l hl _ => hl.1
    refine hranges.bind fun l hl => ⟨t, st, ?_⟩
    have hlower := layout.lowerSlide_spec
    have hslideOk : (4096 ∣ slide ∧ slide < 2 ^ 64) ∧ (slide = layout.lowerSlide ∨
        tooLow layout.base reg.size slide = false ∧ ∃ x, x < 2 ^ 32 ∧ slide = add64 x layout.lowerSlide) := by
      rcases hslide with rfl | ⟨-, hslid⟩
      · exact ⟨hlower, Or.inl rfl⟩
      · have hsize : sub64 layout.maxVaddr (pageDown layout.minVaddr) = reg.size :=
          (sub64_eq hle hmaxlt).trans hreg.1.symm
        rw [hsize] at hslid
        have haligned := hslid.aligned hk hlower.1
        exact ⟨haligned.1, Or.inr ⟨hslid.high, haligned.2⟩⟩
    exact {
      header := hheader, table := ht, reach := hr, laidOut := hlaid, minVaddr := hmin
      regionSize := hregsize
      regionAligned := Nat.dvd_trans (Nat.pow_dvd_pow 2 hk.1 : 2 ^ 12 ∣ 2 ^ k) hreg.2
      slideAligned := hslideOk.1, slide := hslideOk.2, virtualBase := rfl
      tables := htables, inFile := hfile, symbols := hsym, count := hcount, counted := hcounted
      prepared := hprep
      built := hacc, ranges := hl }

theorem elf64Load_safely {args : LoadArgs} {f : File} (hsize : elf64HdrSize ≤ f.size)
    (hr : (elf64Hdr f.byte 0).phNum ≤ reach (elf64Hdr f.byte 0)) :
    Safely (elf64Load args f) fun r => ∃ relocatable layout t st,
      Loads args f (elf64Hdr f.byte 0) r relocatable layout t st := by
  unfold elf64Load
  rw [File.read_eq (by omega), ok_bind]
  generalize elf64Hdr f.byte 0 = hdr at hr ⊢
  refine (elf64CheckHeader_safely args.arch f hdr).and_eq.bind fun relocatable hheader => ?_
  obtain ⟨hheader, ht⟩ := hheader
  refine (elf64MaxAlign_safely ht hr).bind fun maxAlign hmax => ?_
  have hlayout : Safely (forPhdrs f hdr (layoutStep (args.isReloc && relocatable) args.ranges) {})
      (LaidOut (args.isReloc && relocatable) args.ranges (segments f hdr)) := by
    rw [forPhdrs_eq_segments ht hr]
    · exact layout_foldlM fun p hp => segments_loadable hp
    · intro s p hp
      unfold layoutStep
      rw [hp]
      rfl
  refine hlayout.bind fun layout hlaid => ?_
  exact (elf64LoadImage_safely hheader ht hr hmax.1 hlaid).imp fun r hr => ⟨relocatable, layout, hr⟩

/-- A loop that returns has reached all headers. -/
theorem reach_of_forPhdrs {α : Type} (h : TableOk f hdr) {body : α → Elf64Phdr → Load α} {a b : α}
    (hrun : forPhdrs f hdr body a = .ok b) : hdr.phNum ≤ reach hdr := by
  rw [forPhdrs_eq h] at hrun
  obtain ⟨acc, -, hacc⟩ := except_bind_eq_ok.mp hrun
  by_contra hr
  rw [if_neg hr] at hacc
  cases hacc

/-- **What a load that returns has done.** -/
theorem elf64Load_loads {r : Loaded} (h : elf64Load args f = .ok r) :
    ∃ relocatable layout t st, Loads args f (elf64Hdr f.byte 0) r relocatable layout t st := by
  have hrun := h
  unfold elf64Load at hrun
  by_cases hsize : elf64HdrSize ≤ f.size
  · rw [File.read_eq (by omega), ok_bind] at hrun
    obtain ⟨relocatable, hheader, hrun⟩ := except_bind_eq_ok.mp hrun
    have ht := (elf64CheckHeader_safely args.arch f _).of_ok hheader
    obtain ⟨maxAlign, hmax, -⟩ := except_bind_eq_ok.mp hrun
    obtain ⟨-, -, hmax⟩ := except_bind_eq_ok.mp hmax
    obtain ⟨acc, hloop, -⟩ := except_bind_eq_ok.mp hmax
    exact (elf64Load_safely hsize (reach_of_forPhdrs ht hloop)).of_ok h
  · have hread : f.read 0 elf64HdrSize elf64Hdr = .error .fileBounds := if_neg (by omega)
    rw [hread] at hrun
    cases hrun

end

end Limine.Elf
