import Limine.Elf.Load
import Limine.Elf.Prepare

/-!
# The segments an accepted file has

The layout loop compares each segment with the one before only.  What it thereby establishes of any
two of them is `LaidOut`: they follow each other in memory, and where they share a page they agree
on its permissions.
-/

namespace Limine.Elf
open Limine.Loader Limine.Lib

/-- The end of a segment in memory. -/
def Elf64Phdr.top (p : Elf64Phdr) : Nat := p.vaddr + p.memsz

/-- The segments that are loaded. -/
def segments (f : File) (hdr : Elf64Hdr) : List Elf64Phdr := (phdrs f hdr).filter Elf64Phdr.loadable

section
variable {f : File} {hdr : Elf64Hdr}

/-- A loop that passes over the other headers is a loop over the segments. -/
theorem forPhdrs_eq_segments {α : Type} (h : TableOk f hdr) (hr : hdr.phNum ≤ reach hdr)
    {body : α → Elf64Phdr → Load α} (hskip : ∀ a p, p.loadable = false → body a p = .ok a) (a : α) :
    forPhdrs f hdr body a = (segments f hdr).foldlM body a := by
  rw [forPhdrs_eq_foldlM h hr, foldlM_filter_of_skip hskip]
  rfl

theorem segments_loadable {p : Elf64Phdr} (hp : p ∈ segments f hdr) : p.loadable = true :=
  (List.mem_filter.mp hp).2

theorem Elf64Phdr.loadable_memsz {p : Elf64Phdr} (hp : p.loadable = true) : p.memsz ≠ 0 := by
  unfold Elf64Phdr.loadable at hp
  simp only [Bool.and_eq_true, bne_iff_ne] at hp
  exact hp.2

end

/-! ## The alignment -/

theorem isPowerOfTwo_of_not_badAlign {p : Elf64Phdr} (h : p.badAlign = false) (h1 : 1 < p.align) :
    p.align.isPowerOfTwo := by
  unfold Elf64Phdr.badAlign at h
  simp only [h1, decide_true, Bool.true_and, bne_eq_false_iff_eq] at h
  exact (Nat.and_sub_one_eq_zero_iff_isPowerOfTwo (by omega)).mp h

/-- `ret` so far is 0 or 1 or a power of 2, and `loadable` counts. -/
theorem maxAlign_foldlM {ps : List Elf64Phdr} (hlt : ∀ p ∈ ps, p.align < 2 ^ 64) :
    Safely (ps.foldlM maxAlignStep (0, 0)) fun acc =>
      (1 < acc.1 → acc.1.isPowerOfTwo) ∧ acc.1 < 2 ^ 64 ∧
        (acc.2 ≠ 0 → ∃ p ∈ ps, p.loadable = true) := by
  refine Ends.foldlM (fun (front : List Elf64Phdr) (acc : Nat × Nat) => (1 < acc.1 → acc.1.isPowerOfTwo) ∧ acc.1 < 2 ^ 64 ∧
    (acc.2 ≠ 0 → ∃ p ∈ front, p.loadable = true)) ?_ ⟨by simp, by decide, by simp⟩
  intro front p rest acc hps ⟨hpow, hacc, hsome⟩
  have hp : p ∈ ps := by rw [hps]; simp
  unfold maxAlignStep
  cases hload : p.loadable with
  | false =>
    refine ⟨hpow, hacc, fun h => ?_⟩
    obtain ⟨q, hq, hql⟩ := hsome h
    exact ⟨q, List.mem_append_left _ hq, hql⟩
  | true =>
    cases hbad : p.badAlign with
    | true => trivial
    | false =>
      refine ⟨?_, ?_, fun _ => ⟨p, by simp, hload⟩⟩
      · show 1 < (if p.align > acc.1 then p.align else acc.1) → _
        split
        · exact isPowerOfTwo_of_not_badAlign hbad
        · exact hpow
      · show (if p.align > acc.1 then p.align else acc.1) < 2 ^ 64
        split
        · exact hlt p hp
        · exact hacc

/-! ## The layout -/

/-- What the layout loop knows after the segments `ps`. -/
structure LaidOut (isReloc ranges : Bool) (ps : List Elf64Phdr) (s : Layout) : Prop where
  fits : ∀ p ∈ ps, p.top + 4095 < 2 ^ 64
  min : ∀ p ∈ ps, s.minVaddr ≤ p.vaddr
  minMem : ps = [] ∧ s.minVaddr = 2 ^ 64 - 1 ∨ ∃ p ∈ ps, p.vaddr = s.minVaddr
  max : ∀ p ∈ ps, p.top ≤ s.maxVaddr
  maxLt : s.maxVaddr < 2 ^ 64
  prev : ∀ p ∈ ps, p.top ≤ s.prevTop
  sorted : ps.Pairwise fun p q => p.top ≤ q.vaddr
  lowerReloc : s.lowerToHigher = true → isReloc = true
  lower : s.lowerToHigher = true → ∀ p ∈ ps, p.vaddr < fixedHigherHalfOffset64
  notHigher : s.higherHalf = false → ∀ p ∈ ps, p.vaddr < fixedHigherHalfOffset64
  higher : s.lowerToHigher = false → ∀ p ∈ ps, fixedHigherHalfOffset64 ≤ p.vaddr
  rounded : ∀ p ∈ ps, pageUp p.top ≤ s.prevRoundedTop
  /-- Segments that reach into the page of what comes next have the flags of the last one. -/
  flags : ranges = true → ∀ p ∈ ps, ∀ a, s.prevTop ≤ a → pageDown a < pageUp p.top →
    p.flags &&& 0b111 = s.prevFlags
  pages : ranges = true → ps.Pairwise fun p q =>
    pageDown q.vaddr < pageUp p.top → p.flags &&& 0b111 = q.flags &&& 0b111

theorem LaidOut.nil (isReloc ranges : Bool) : LaidOut isReloc ranges [] {} where
  fits := by simp
  min := by simp
  minMem := Or.inl ⟨rfl, rfl⟩
  max := by simp
  maxLt := by decide
  prev := by simp
  sorted := List.Pairwise.nil
  lowerReloc := by simp
  lower := by simp
  notHigher := by simp
  higher := by simp
  rounded := by simp
  flags := by simp
  pages := fun _ => List.Pairwise.nil

/-- The halves of the address space do not mix. -/
theorem checkHalf_safely {isReloc ranges : Bool} {ps : List Elf64Phdr} {s : Layout}
    (h : LaidOut isReloc ranges ps s) (p : Elf64Phdr) :
    Safely (checkHalf isReloc s p) fun s' => LaidOut isReloc ranges ps s' ∧
      (s'.lowerToHigher = true → p.vaddr < fixedHigherHalfOffset64) ∧
      (s'.higherHalf = false → p.vaddr < fixedHigherHalfOffset64) ∧
      (s'.lowerToHigher = false → fixedHigherHalfOffset64 ≤ p.vaddr) := by
  unfold checkHalf
  split
  · next hlow =>
    refine Safely.panicIf_bind fun hreloc => Safely.panicIf_bind fun hhigh => ?_
    refine ⟨{ h with lowerReloc := fun _ => ?_, lower := fun _ => h.notHigher hhigh, higher := ?_ },
      fun _ => hlow, fun _ => hlow, ?_⟩
    · simpa using hreloc
    · rintro ⟨⟩
    · rintro ⟨⟩
  · next hlow =>
    refine Safely.panicIf_bind fun hlower => ?_
    refine ⟨{ h with notHigher := ?_ }, fun h0 => ?_, ?_, fun _ => Nat.le_of_not_lt hlow⟩
    · rintro ⟨⟩
    · rw [hlower] at h0
      cases h0
    · rintro ⟨⟩

/-- **One segment**: what is compared with the last one holds against all. -/
theorem layoutStep_safely {isReloc ranges : Bool} {ps : List Elf64Phdr} {s : Layout}
    (h : LaidOut isReloc ranges ps s) {p : Elf64Phdr} (hp : p.loadable = true) :
    Safely (layoutStep isReloc ranges s p) (LaidOut isReloc ranges (ps ++ [p])) := by
  unfold layoutStep
  rw [hp]
  refine (checkHalf_safely h p).bind fun s hs => ?_
  obtain ⟨h, hlower, hnotHigher, hhigher⟩ := hs
  refine Safely.orPanic_bind fun phdrEnd hend => ?_
  refine Safely.panicIf_bind fun hprev => ?_
  refine Safely.panicIf_bind fun hflags => ?_
  generalize hup : alignUp phdrEnd 4096 = rounded
  refine Safely.orPanic_bind fun roundedTop hround => ?_
  rw [hround] at hup
  obtain ⟨-, rfl⟩ := checkedAdd_eq_some_iff.mp hend
  obtain ⟨rfl, hfits⟩ := alignUp_eq_some hup
  simp only [decide_eq_false_iff_not] at hprev
  simp only [Bool.and_eq_false_iff, decide_eq_false_iff_not, bne_eq_false_iff_eq] at hflags
  rw [alignDown_eq_pageDown] at hflags
  have hmem := Elf64Phdr.loadable_memsz hp
  have htop : p.top = p.vaddr + p.memsz := rfl
  have hbefore : ∀ q ∈ ps, q.top ≤ p.vaddr := fun q hq => by
    have := h.prev q hq
    omega
  -- Whatever reaches into the page of this segment has the flags of the last one, and so has this one.
  have hshare : ranges = true → ∀ q ∈ ps, pageDown p.vaddr < pageUp q.top →
      q.flags &&& 0b111 = p.flags &&& 0b111 := by
    intro hranges q hq hpage
    rw [h.flags hranges q hq p.vaddr (by omega) hpage]
    rcases hflags with (h0 | h0) | h0
    · rw [hranges] at h0
      cases h0
    · have := h.rounded q hq
      omega
    · exact h0.symm
  exact {
    fits := forall_mem_concat h.fits hfits
    min := by
      refine forall_mem_concat (fun q hq => ?_) ?_
      · have := h.min q hq
        dsimp only
        split
        · omega
        · exact this
      · dsimp only
        split
        · exact Nat.le_refl _
        · omega
    minMem := by
      dsimp only
      right
      by_cases hmin : p.vaddr < s.minVaddr
      · exact ⟨p, by simp, by rw [if_pos hmin]⟩
      · rw [if_neg hmin]
        rcases h.minMem with ⟨-, h0⟩ | ⟨q, hq, hqv⟩
        · omega
        · exact ⟨q, List.mem_append_left _ hq, hqv⟩
    max := by
      refine forall_mem_concat (fun q hq => ?_) ?_
      · have := h.max q hq
        dsimp only
        split
        · omega
        · exact this
      · dsimp only
        split
        · exact Nat.le_refl _
        · omega
    maxLt := by
      have := h.maxLt
      dsimp only
      split
      · omega
      · exact this
    prev := by
      refine forall_mem_concat (fun q hq => ?_) (Nat.le_refl _)
      have := hbefore q hq
      dsimp only
      omega
    sorted := pairwise_concat h.sorted hbefore
    lowerReloc := h.lowerReloc
    lower := fun h0 => forall_mem_concat (h.lower h0) (hlower h0)
    notHigher := fun h0 => forall_mem_concat (h.notHigher h0) (hnotHigher h0)
    higher := fun h0 => forall_mem_concat (h.higher h0) (hhigher h0)
    rounded := by
      refine forall_mem_concat (fun q hq => ?_) (Nat.le_refl _)
      have := hbefore q hq
      exact pageUp_mono (by omega)
    flags := by
      intro hranges
      refine forall_mem_concat (fun q hq a ha hpage => ?_) fun a _ _ => rfl
      dsimp only at ha ⊢
      have hle : pageDown p.vaddr ≤ pageDown a := pageDown_mono (by omega)
      exact hshare hranges q hq (by omega)
    pages := fun hranges => pairwise_concat (h.pages hranges) (hshare hranges) }

theorem layout_foldlM {isReloc ranges : Bool} {ps : List Elf64Phdr} (hps : ∀ p ∈ ps, p.loadable = true) :
    Safely (ps.foldlM (layoutStep isReloc ranges) {}) (LaidOut isReloc ranges ps) := by
  refine Ends.foldlM (LaidOut isReloc ranges) ?_ (LaidOut.nil isReloc ranges)
  intro front p rest s hl hs
  exact layoutStep_safely hs (hps p (by rw [hl]; simp))

end Limine.Elf
