import Limine.Pe.Load

/-!
# The accesses of `pe64_load`

The sections are checked before they are copied, and a block of relocations before its entries are
read, whatever the relocations before it have made of it.
-/

namespace Limine.Pe
open Limine.Loader Limine.Lib

/-- The section table at `off`. -/
def sections (f : File) (off count : Nat) : List ImageSectionHeader :=
  (List.range count).map fun i => imageSectionHeader f.byte (off + i * imageSectionHeaderSize)

section
variable {f : File} {off count : Nat}

theorem sectionAt_eq (h : off + count * imageSectionHeaderSize ≤ f.size) {i : Nat} (hi : i < count) :
    sectionAt f off i = .ok (imageSectionHeader f.byte (off + i * imageSectionHeaderSize)) := by
  refine File.read_eq ?_
  unfold imageSectionHeaderSize at *
  omega

/-- A loop over the section table in the file is one over the list of its entries. -/
theorem forSections_eq {α : Type} (h : off + count * imageSectionHeaderSize ≤ f.size)
    (body : α → ImageSectionHeader → Load α) (a : α) :
    forSections f off count body a = (sections f off count).foldlM body a := by
  have hloop : ∀ (l : List Nat) (a : α), (∀ i ∈ l, i < count) →
      l.foldlM (fun a i => do
        let section_ ← sectionAt f off i
        body a section_) a =
      (l.map fun i => imageSectionHeader f.byte (off + i * imageSectionHeaderSize)).foldlM body a := by
    intro l
    induction l with
    | nil => intros; rfl
    | cons i l ih =>
      intro a hl
      obtain ⟨hi, hl⟩ := List.forall_mem_cons.mp hl
      rw [List.foldlM_cons, List.map_cons, List.foldlM_cons, sectionAt_eq h hi, ok_bind]
      congr 1
      funext a'
      exact ih a' hl
  exact hloop _ a fun i hi => List.mem_range.mp hi

end

/-! ## The sections -/

/-- What the loop over the sections has checked of `ss`. -/
structure Laid (nt : ImageNtHeaders64) (ss : List ImageSectionHeader) (prevTop : Nat) : Prop where
  fits : ∀ s ∈ ss, s.virtualAddress + s.virtualSize ≤ nt.sizeOfImage
  aligned : ∀ s ∈ ss, nt.sectionAlignment ∣ s.virtualAddress
  sorted : ss.Pairwise fun s t => s.virtualAddress + s.virtualSize ≤ t.virtualAddress
  prev : ∀ s ∈ ss, s.virtualAddress + s.virtualSize ≤ prevTop

theorem sectionStep_safely {f : File} {nt : ImageNtHeaders64} {reg : Region}
    (hsize : reg.size = nt.sizeOfImage) {ss : List ImageSectionHeader} {acc : Bytes × Nat}
    (h : Laid nt ss acc.2) (s : ImageSectionHeader) :
    Safely (sectionStep f nt reg acc s) fun acc => Laid nt (ss ++ [s]) acc.2 := by
  unfold sectionStep
  refine Safely.panicIf_bind fun hraw => ?_
  refine Safely.panicIf_bind fun hvirt => ?_
  refine Safely.panicIf_bind fun horder => ?_
  refine Safely.panicIf_bind fun halign => ?_
  refine Safely.panicIf_bind fun hfile => ?_
  simp only [decide_eq_false_iff_not, bne_eq_false_iff_eq] at hraw hvirt horder halign hfile
  have hfits := reg.fits
  rw [add64_eq (by omega), memcpy_eq (by omega) ⟨by omega, by omega⟩, ok_bind]
  refine ⟨forall_mem_concat h.fits (by omega), forall_mem_concat h.aligned (Nat.dvd_of_mod_eq_zero halign),
    pairwise_concat h.sorted fun t ht => ?_, forall_mem_concat (fun t ht => ?_) (Nat.le_refl _)⟩
  · have := h.prev t ht
    omega
  · have := h.prev t ht
    dsimp only
    omega

theorem sections_loop_safely {f : File} {nt : ImageNtHeaders64} {reg : Region}
    (hsize : reg.size = nt.sizeOfImage) (ss : List ImageSectionHeader) (m : Bytes) :
    Safely (ss.foldlM (sectionStep f nt reg) (m, 0)) fun acc => Laid nt ss acc.2 := by
  refine Ends.foldlM (fun front (acc : Bytes × Nat) => Laid nt front acc.2)
    (fun front s rest acc _ h => sectionStep_safely hsize h s) ?_
  exact ⟨by simp, by simp, List.Pairwise.nil, by simp⟩

/-! ## Imports and relocations -/

theorem checkImports_safely {nt : ImageNtHeaders64} {reg : Region} (hsize : reg.size = nt.sizeOfImage)
    (m : Bytes) : Safely (checkImports nt reg m) fun _ => True := by
  unfold checkImports
  split
  · refine Safely.panicIf_bind fun hbounds => ?_
    refine Safely.panicIf_bind fun _ => ?_
    unfold imageImportDescriptorSize at hbounds
    simp only [Bool.or_eq_false_iff, decide_eq_false_iff_not] at hbounds
    have hfits := reg.fits
    rw [add64_eq (by omega), loadNat_eq ⟨by omega, by omega⟩, ok_bind]
    unfold panicIf
    split
    · exact Safely.panic
    · trivial
  · trivial

theorem writeSize_safely (lowerToHigher : Bool) (type : Nat) :
    Safely (writeSize lowerToHigher type) fun _ => True := by
  unfold writeSize
  split
  · exact Safely.panicIf_bind fun _ => trivial
  · split
    · trivial
    · exact Safely.panic

/-- One entry reads the block and writes into the image, maybe into the block. -/
theorem relocStep_safely {a : RelocArgs} {reg : Region} (hsize : reg.size = a.imageSize)
    {blockVa relocs i : Nat} (hentry : reg.Has (relocs + 2 * i) 2) (m : Bytes) :
    Safely (relocStep a reg blockVa relocs m i) fun _ => True := by
  unfold relocStep
  rw [loadNat_eq hentry, ok_bind]
  generalize leAt m (relocs + 2 * i) 2 = entry
  split
  · trivial
  · refine (writeSize_safely a.lowerToHigher (entry >>> 12)).bind fun size _ => ?_
    refine Safely.panicIf_bind fun hbounds => ?_
    simp only [decide_eq_false_iff_not] at hbounds
    have hfits := reg.fits
    have hin : reg.Has (add64 (add64 reg.base blockVa) (entry &&& 0xfff)) size := by
      rw [add64_eq (by omega : reg.base + blockVa < 2 ^ 64), add64_eq (by omega)]
      exact ⟨by omega, by omega⟩
    dsimp only
    rw [loadNat_eq hin, ok_bind, storeNat_eq hin]
    trivial

/-- **The walk over the blocks ends**: each takes 8 bytes or more of the directory. -/
theorem relocBlocks_safely {a : RelocArgs} {reg : Region} (hsize : reg.size = a.imageSize)
    {dir : ImageDataDirectory} (hdir : dir.virtualAddress + dir.size ≤ reg.size) (fuel : Nat) :
    ∀ (offset : Nat) (m : Bytes), offset ≤ dir.size → dir.size - offset < 8 * fuel →
      Safely (relocBlocks a reg dir fuel offset m) fun _ => True := by
  have hfits := reg.fits
  induction fuel with
  | zero => intro offset m _ hfuel; omega
  | succ fuel ih =>
    intro offset m hle hfuel
    unfold relocBlocks
    rw [sub64_eq hle (by omega)]
    split
    · next hleft =>
      unfold imageBaseRelocationBlockSize at hleft
      refine Safely.panicIf_bind fun _ => ?_
      rw [add64_eq (by omega : reg.base + dir.virtualAddress < 2 ^ 64), add64_eq (by omega)]
      dsimp only
      rw [loadNat_eq ⟨by omega, by omega⟩, ok_bind, loadNat_eq ⟨by omega, by omega⟩, ok_bind]
      generalize leAt m (reg.base + dir.virtualAddress + offset) 4 = blockVa
      generalize leAt m (reg.base + dir.virtualAddress + offset + 4) 4 = blockSize
      refine Safely.panicIf_bind fun hmin => Safely.panicIf_bind fun hmax => Safely.panicIf_bind fun _ => ?_
      unfold imageBaseRelocationBlockSize at hmin
      simp only [decide_eq_false_iff_not] at hmin hmax
      have hentries : Safely ((List.range ((blockSize - imageBaseRelocationBlockSize) / 2)).foldlM
          (relocStep a reg blockVa (reg.base + dir.virtualAddress + offset + imageBaseRelocationBlockSize)) m)
          fun _ => True := by
        refine Ends.foldlM (fun _ _ => True) (fun front i rest m hl _ => ?_) trivial
        have hi : i < (blockSize - imageBaseRelocationBlockSize) / 2 := by
          rw [← List.mem_range, hl]
          simp
        unfold imageBaseRelocationBlockSize at *
        exact relocStep_safely hsize ⟨by omega, by omega⟩ m
      exact hentries.bind fun m _ => ih (offset + blockSize) m (by omega) (by omega)
    · trivial

theorem applyRelocations_safely {a : RelocArgs} {reg : Region} (hsize : reg.size = a.imageSize)
    (dir : ImageDataDirectory) (m : Bytes) : Safely (applyRelocations a reg dir m) fun _ => True := by
  unfold applyRelocations
  split
  · refine Safely.panicIf_bind fun hbounds => ?_
    simp only [Bool.or_eq_false_iff, decide_eq_false_iff_not] at hbounds
    have hdir : dir.virtualAddress + dir.size ≤ reg.size := by omega
    have hfuel : ∀ offset, dir.size - offset < 8 * (dir.size / imageBaseRelocationBlockSize + 1) := by
      unfold imageBaseRelocationBlockSize
      omega
    generalize hoffset : 0 = offset
    exact relocBlocks_safely hsize hdir _ offset m (by omega) (hfuel offset)
  · trivial

end Limine.Pe
