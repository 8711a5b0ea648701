import Limine.Elf.Image

/-!
# The image by its reference

The source copies a segment, relocates it and goes on to the next.  The reference copies all
segments first and then goes through the relocations once, in the order of the table.  Since the
segments do not overlap and a relocation reads nothing but what it writes, the two agree.
-/

namespace Limine.Elf
open Limine.Loader Limine.Lib

/-- Where an address of the file is, with `vbase` at `base`. -/
def place (base vbase a : Nat) : Nat := base + (a - vbase)

/-- Zeros, and the bytes of the segments in their places. -/
def copied (f : File) (vbase : Nat) (segs : List Elf64Phdr) : Bytes :=
  segs.foldl (copySegment f (place 0 vbase)) fun _ => 0

/-- The eight bytes of a relocation lie in one segment. -/
def insideSome (segs : List Elf64Phdr) (r : Elf64Rela) : Bool :=
  segs.any fun p => r.Inside p.vaddr p.memsz

/-- **The reference image**, by distance from the lowest address. -/
def reference (arch : Arch) (f : File) (st : SymTables) (slide vbase : Nat) (segs : List Elf64Phdr)
    (table : List Elf64Rela) : Load Bytes :=
  table.foldlM (fun m r =>
    if insideSome segs r then do
      let e ← relocEffect arch f st slide r
      return e.on m (place 0 vbase r.addr)
    else .ok m) (copied f vbase segs)

section
variable {arch : Arch} {f : File} {st : SymTables} {slide base vbase : Nat} {segs : List Elf64Phdr}
  {p q : Elf64Phdr}

/-- The addresses of a segment. -/
def Elf64Phdr.Covers (p : Elf64Phdr) (a : Nat) : Prop := p.vaddr ≤ a ∧ a < p.top

theorem reference_eq {table : List Elf64Rela}
    (hok : ∀ r ∈ table, insideSome segs r = true → ∃ e, relocEffect arch f st slide r = .ok e) :
    reference arch f st slide vbase segs table =
      .ok (table.foldl (relocate arch f st slide (insideSome segs) (place 0 vbase)) (copied f vbase segs)) := by
  unfold reference
  generalize copied f vbase segs = m
  induction table generalizing m with
  | nil => rfl
  | cons r table ih =>
    rw [List.foldlM_cons, List.foldl_cons, relocate]
    cases hin : insideSome segs r with
    | false => exact ih (fun r' hr' => hok r' (List.mem_cons_of_mem _ hr')) m
    | true =>
      obtain ⟨e, he⟩ := hok r (by simp) hin
      have hof : effectOf arch f st slide r = e := by rw [effectOf, he]
      rw [if_pos rfl, if_pos rfl, he, ok_bind, hof]
      exact ih (fun r' hr' => hok r' (List.mem_cons_of_mem _ hr')) _

/-! ## What stays unchanged -/

/-- A relocation changes nothing outside the segments it may be in. -/
theorem relocate_frame {inside : Elf64Rela → Bool} {r : Elf64Rela} {a : Nat} (hva : vbase ≤ a)
    (hout : inside r = true → vbase ≤ r.addr ∧ (a < r.addr ∨ r.addr + 8 ≤ a)) (m : Bytes) :
    relocate arch f st slide inside (place base vbase) m r (place base vbase a) = m (place base vbase a) := by
  unfold relocate place
  split
  · next h =>
    obtain ⟨h1, h2⟩ := hout h
    exact Effect.on_of_not_mem _ m (by omega)
  · rfl

theorem relocates_frame {inside : Elf64Rela → Bool} {a : Nat} (hva : vbase ≤ a) {table : List Elf64Rela}
    (hout : ∀ r, inside r = true → vbase ≤ r.addr ∧ (a < r.addr ∨ r.addr + 8 ≤ a)) (m : Bytes) :
    table.foldl (relocate arch f st slide inside (place base vbase)) m (place base vbase a) =
      m (place base vbase a) := by
  induction table generalizing m with
  | nil => rfl
  | cons r table ih => rw [List.foldl_cons, ih, relocate_frame hva (hout r)]

theorem copySegment_frame {a : Nat} (hva : vbase ≤ a) (hp : vbase ≤ p.vaddr)
    (hfilesz : p.filesz ≤ p.memsz) (hout : ¬p.Covers a) (m : Bytes) :
    copySegment f (place base vbase) m p (place base vbase a) = m (place base vbase a) := by
  unfold Elf64Phdr.Covers Elf64Phdr.top at hout
  unfold copySegment place
  exact overlay_of_not_mem (by omega)

theorem copySegments_frame {a : Nat} (hva : vbase ≤ a)
    (hsegs : ∀ p ∈ segs, vbase ≤ p.vaddr ∧ p.filesz ≤ p.memsz ∧ ¬p.Covers a) (m : Bytes) :
    segs.foldl (copySegment f (place base vbase)) m (place base vbase a) = m (place base vbase a) := by
  induction segs generalizing m with
  | nil => rfl
  | cons p segs ih =>
    obtain ⟨h1, h2, h3⟩ := hsegs p (by simp)
    rw [List.foldl_cons, ih (fun q hq => hsegs q (List.mem_cons_of_mem _ hq)),
      copySegment_frame hva h1 h2 h3]

/-! ## One segment on either side -/

/-- The two memories have the same bytes for a segment. -/
def Agree (base vbase : Nat) (p : Elf64Phdr) (m m₀ : Bytes) : Prop :=
  ∀ a, p.Covers a → m (place base vbase a) = m₀ (place 0 vbase a)

/-- Segments one after the other; none is empty. -/
structure Ordered (vbase : Nat) (segs : List Elf64Phdr) : Prop where
  low : ∀ p ∈ segs, vbase ≤ p.vaddr
  memsz : ∀ p ∈ segs, p.memsz ≠ 0
  sorted : segs.Pairwise fun p q => p.top ≤ q.vaddr

theorem Ordered.eq_or_apart (h : Ordered vbase segs) (hp : p ∈ segs) (hq : q ∈ segs) :
    p = q ∨ p.top ≤ q.vaddr ∨ q.top ≤ p.vaddr := by
  have h1 : segs.Pairwise fun p q => p = q ∨ p.top ≤ q.vaddr ∨ q.top ≤ p.vaddr :=
    h.sorted.imp fun hle => Or.inr (Or.inl hle)
  have h2 : segs.Pairwise fun p q => q = p ∨ q.top ≤ p.vaddr ∨ p.top ≤ q.vaddr :=
    h.sorted.imp fun hle => Or.inr (Or.inr hle)
  have hrefl : ∀ p ∈ segs, p = p ∨ p.top ≤ p.vaddr ∨ p.top ≤ p.vaddr := fun _ _ => Or.inl rfl
  exact List.Pairwise.forall_of_forall_of_flip hrefl h1 h2 hp hq

/-- A relocation that is inside another segment is apart from this one. -/
theorem Ordered.inside_apart (h : Ordered vbase segs) (hp : p ∈ segs) {r : Elf64Rela}
    (hin : insideSome segs r = true) (hnot : ¬r.Inside p.vaddr p.memsz) :
    vbase ≤ r.addr ∧ (r.addr + 8 ≤ p.vaddr ∨ p.top ≤ r.addr) := by
  unfold insideSome at hin
  obtain ⟨q, hq, hqin⟩ := List.any_eq_true.mp hin
  have hqin : r.Inside q.vaddr q.memsz := by simpa using hqin
  have hlow := h.low q hq
  obtain ⟨h1, h2⟩ := hqin
  rcases h.eq_or_apart hp hq with rfl | hle | hle
  · exact absurd ⟨h1, h2⟩ hnot
  · exact ⟨by omega, Or.inr (by omega)⟩
  · unfold Elf64Phdr.top at hle
    exact ⟨by omega, Or.inl (by omega)⟩

/-- **One relocation**: what it does to a segment is the same on either side. -/
theorem relocate_agree (h : Ordered vbase segs) (hp : p ∈ segs) {m m₀ : Bytes}
    (hagree : Agree base vbase p m m₀) (r : Elf64Rela) :
    Agree base vbase p
      (relocate arch f st slide (fun r => r.Inside p.vaddr p.memsz) (place base vbase) m r)
      (relocate arch f st slide (insideSome segs) (place 0 vbase) m₀ r) := by
  intro a ha
  have hlow := h.low p hp
  have hva : vbase ≤ a := Nat.le_trans hlow ha.1
  by_cases hin : r.Inside p.vaddr p.memsz
  · have hsome : insideSome segs r = true := List.any_eq_true.mpr ⟨p, hp, by simpa using hin⟩
    have h1 := hin.1
    have h2 := hin.2
    unfold relocate
    rw [if_pos (by simpa using hin), if_pos hsome]
    generalize effectOf arch f st slide r = e
    by_cases haddr : a < r.addr ∨ r.addr + 8 ≤ a
    · unfold place
      rw [Effect.on_of_not_mem e m (by omega), Effect.on_of_not_mem e m₀ (by omega)]
      exact hagree a ha
    · have hplace : ∀ b, place b vbase a = place b vbase r.addr + (a - r.addr) := by
        intro b
        unfold place
        omega
      rw [hplace base, hplace 0]
      refine Effect.on_congr e (fun i hi => ?_) (by omega)
      have hi := hagree (r.addr + i) ⟨by omega, by unfold Elf64Phdr.top; omega⟩
      have hadd : ∀ b, place b vbase (r.addr + i) = place b vbase r.addr + i := by
        intro b
        unfold place
        omega
      rwa [hadd base, hadd 0] at hi
  · rw [relocate_frame hva fun hr => absurd (by simpa using hr) hin, relocate_frame hva]
    · exact hagree a ha
    · intro hsome
      have hapart := h.inside_apart hp hsome hin
      have := ha.1
      have := ha.2
      exact ⟨hapart.1, by omega⟩

theorem relocates_agree (h : Ordered vbase segs) (hp : p ∈ segs) (table : List Elf64Rela) {m m₀ : Bytes}
    (hagree : Agree base vbase p m m₀) :
    Agree base vbase p
      (table.foldl (relocate arch f st slide (fun r => r.Inside p.vaddr p.memsz) (place base vbase)) m)
      (table.foldl (relocate arch f st slide (insideSome segs) (place 0 vbase)) m₀) := by
  induction table generalizing m m₀ with
  | nil => exact hagree
  | cons r table ih => exact ih (relocate_agree h hp hagree r)

/-- Copied onto zeros, a segment has the bytes that it has when all are copied. -/
theorem copied_agree {front rest : List Elf64Phdr} (h : Ordered vbase (front ++ p :: rest))
    (hfilesz : ∀ q ∈ front ++ p :: rest, q.filesz ≤ q.memsz) {m : Bytes}
    (hzero : ∀ a, p.Covers a → m (place base vbase a) = 0) :
    Agree base vbase p (copySegment f (place base vbase) m p) (copied f vbase (front ++ p :: rest)) := by
  intro a ha
  have hlow := h.low p (by simp)
  have hva : vbase ≤ a := Nat.le_trans hlow ha.1
  obtain ⟨-, hrest, hfront⟩ := List.pairwise_append.mp h.sorted
  have hafter : ∀ q ∈ rest, vbase ≤ q.vaddr ∧ q.filesz ≤ q.memsz ∧ ¬q.Covers a := fun q hq => by
    have hle := (List.pairwise_cons.mp hrest).1 q hq
    have := ha.2
    exact ⟨h.low q (by simp [hq]), hfilesz q (by simp [hq]), fun hc => absurd hc.1 (by omega)⟩
  have hbefore : ∀ q ∈ front, vbase ≤ q.vaddr ∧ q.filesz ≤ q.memsz ∧ ¬q.Covers a := fun q hq => by
    have hle := hfront q hq p (by simp)
    have := ha.1
    exact ⟨h.low q (by simp [hq]), hfilesz q (by simp [hq]), fun hc => absurd hc.2 (by omega)⟩
  unfold copied
  rw [List.foldl_append, List.foldl_cons, copySegments_frame hva hafter]
  generalize hm₀ : front.foldl (copySegment f (place 0 vbase)) (fun _ => 0) = m₀
  have hm₀a : m₀ (place 0 vbase a) = 0 := by rw [← hm₀, copySegments_frame hva hbefore]
  unfold copySegment
  by_cases hin : a < p.vaddr + p.filesz
  · have h1 := ha.1
    have hsub : ∀ b, place b vbase a - place b vbase p.vaddr = a - p.vaddr := by
      intro b
      unfold place
      omega
    rw [overlay_of_mem (by unfold place; omega) (by unfold place; omega),
      overlay_of_mem (by unfold place; omega) (by unfold place; omega), hsub, hsub]
  · rw [overlay_of_not_mem (by unfold place; omega), overlay_of_not_mem (by unfold place; omega),
      hzero a ha, hm₀a]

/-! ## The loop over the segments -/

/-- What is true of the image after the segments `front`. -/
structure Built (arch : Arch) (f : File) (st : SymTables) (slide base vbase : Nat)
    (segs : List Elf64Phdr) (table : List Elf64Rela) (front : List Elf64Phdr) (m : Bytes) : Prop where
  filesz : ∀ p ∈ front, p.filesz ≤ p.memsz
  effects : ∀ p ∈ front, ∀ r ∈ table, r.Inside p.vaddr p.memsz →
    ∃ e, relocEffect arch f st slide r = .ok e
  agree : (∀ p ∈ segs, p.filesz ≤ p.memsz) → ∀ p ∈ front, Agree base vbase p m
    (table.foldl (relocate arch f st slide (insideSome segs) (place 0 vbase)) (copied f vbase segs))
  zero : ∀ a, vbase ≤ a → (∀ p ∈ front, ¬p.Covers a) → m (place base vbase a) = 0

theorem Built.step {table : List Elf64Rela} {front rest : List Elf64Phdr} {m m' : Bytes}
    (h : Ordered vbase (front ++ p :: rest))
    (hb : Built arch f st slide base vbase (front ++ p :: rest) table front m)
    (hl : SegmentLoaded arch f st slide table (place base vbase) p m m') :
    Built arch f st slide base vbase (front ++ p :: rest) table (front ++ [p]) m' := by
  have hlow := h.low p (by simp)
  have heq : m' = table.foldl
      (relocate arch f st slide (fun r => r.Inside p.vaddr p.memsz) (place base vbase))
      (copySegment f (place base vbase) m p) := by
    rw [hl.applied.eq]
    congr 1
    funext m r
    unfold relocate
    by_cases hin : r.Inside p.vaddr p.memsz
    · have h1 := hin.1
      rw [if_pos (by simpa using hin), if_pos (by simpa using hin)]
      congr 1
      show base + (p.vaddr - vbase) + (r.addr - p.vaddr) = base + (r.addr - vbase)
      omega
    · rw [if_neg (by simpa using hin), if_neg (by simpa using hin)]
  have hframe : ∀ a, vbase ≤ a → ¬p.Covers a → m' (place base vbase a) = m (place base vbase a) := by
    intro a hva hout
    rw [heq, relocates_frame hva, copySegment_frame hva hlow hl.filesz hout]
    intro r hr
    have hr : r.Inside p.vaddr p.memsz := by simpa using hr
    unfold Elf64Phdr.Covers Elf64Phdr.top at hout
    obtain ⟨h1, h2⟩ := hr
    exact ⟨by omega, by omega⟩
  obtain ⟨-, -, hfront⟩ := List.pairwise_append.mp h.sorted
  have hapart : ∀ q ∈ front, ∀ a, q.Covers a → ¬p.Covers a := by
    intro q hq a ha hc
    have hle := hfront q hq p (by simp)
    have := ha.2
    have := hc.1
    omega
  exact {
    filesz := forall_mem_concat hb.filesz hl.filesz
    effects := forall_mem_concat hb.effects hl.applied.ok
    agree := by
      intro hfilesz
      refine forall_mem_concat (fun q hq a ha => ?_) ?_
      · have hq' := h.low q (by simp [hq])
        rw [hframe a (Nat.le_trans hq' ha.1) (hapart q hq a ha)]
        exact hb.agree hfilesz q hq a ha
      · rw [heq]
        refine relocates_agree h (by simp) table (copied_agree h hfilesz fun a ha => ?_)
        exact hb.zero a (Nat.le_trans hlow ha.1) fun q hq hc => hapart q hq a hc ha
    zero := by
      intro a hva hout
      rw [hframe a hva (hout p (by simp))]
      exact hb.zero a hva fun q hq => hout q (List.mem_append_left _ hq) }

/-- **The image equals its reference.** -/
theorem Built.reference {table : List Elf64Rela} {m : Bytes} (h : Ordered vbase segs)
    (hb : Built arch f st slide base vbase segs table segs m) :
    ∃ m₀, reference arch f st slide vbase segs table = .ok m₀ ∧ ∀ o, m (base + o) = m₀ o := by
  refine ⟨_, reference_eq fun r hr hin => ?_, fun o => ?_⟩
  · obtain ⟨p, hp, hpin⟩ := List.any_eq_true.mp hin
    exact hb.effects p hp r hr (by simpa using hpin)
  · have h1 : base + o = place base vbase (vbase + o) := by unfold place; omega
    have h2 : o = place 0 vbase (vbase + o) := by unfold place; omega
    rw [h1]
    conv_rhs => rw [h2]
    by_cases hsome : ∃ p ∈ segs, p.Covers (vbase + o)
    · obtain ⟨p, hp, hc⟩ := hsome
      exact hb.agree hb.filesz p hp _ hc
    · have hnone : ∀ p ∈ segs, ¬p.Covers (vbase + o) := fun p hp hc => hsome ⟨p, hp, hc⟩
      rw [hb.zero _ (by omega) hnone, relocates_frame (by omega)]
      · have hzero : copied f vbase segs (place 0 vbase (vbase + o)) = 0 := copySegments_frame (by omega)
          (fun p hp => ⟨h.low p hp, hb.filesz p hp, hnone p hp⟩) fun _ => 0
        exact hzero.symm
      · intro r hin
        obtain ⟨p, hp, hpin⟩ := List.any_eq_true.mp hin
        have hpin : r.Inside p.vaddr p.memsz := by simpa using hpin
        have hlow := h.low p hp
        have hout := hnone p hp
        unfold Elf64Phdr.Covers Elf64Phdr.top at hout
        obtain ⟨h1, h2⟩ := hpin
        exact ⟨by omega, by omega⟩

end

/-- The loop over the segments builds the image. -/
theorem segments_foldlM {arch : Arch} {f : File} {st : RelocState} {reg : Region}
    {maxVaddr vbase slide : Nat} {table : List Elf64Rela} {segs : List Elf64Phdr}
    (h : Prepared f st table) (hord : Ordered vbase segs)
    (hsegs : ∀ p ∈ segs, p.loadable = true ∧ InImage reg vbase p) :
    Safely (segs.foldlM (segmentStep arch f st reg maxVaddr vbase slide) (fun _ => 0, 0)) fun acc =>
      Built arch f st.toSymTables slide reg.base vbase segs table segs acc.1 := by
  refine Ends.foldlM (fun front (acc : Bytes × Nat) =>
    Built arch f st.toSymTables slide reg.base vbase segs table front acc.1) ?_
    ⟨by simp, by simp, by simp, fun _ _ _ => rfl⟩
  rintro front p rest acc rfl hb
  obtain ⟨hload, hin⟩ := hsegs p (by simp)
  exact (segmentStep_safely h hload hin acc).imp fun acc' hl => hb.step hord hl

end Limine.Elf
