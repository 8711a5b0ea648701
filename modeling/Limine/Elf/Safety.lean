import Limine.Elf.Loaded

/-!
# Memory safety of `elf64_load`

The bounds compose for every file, truncated or crafted, but for one thing: all the loops with a
`uint16_t` compute the place of a header from an `int` product, which overflows in a table of more
than 2 GiB.  The first of these loops is that of `elf64_max_align`.
-/

namespace Limine.Elf
open Limine.Loader Limine.Lib

/-- The run returns or panics; no access on the way is out of bounds or undefined. -/
def MemorySafe {α : Type} (x : Load α) : Prop := Safely x fun _ => True

/-- What keeps the products from overflowing: the header is refused, the table is small enough, or a
header before the first product that is too large is refused by `elf64_max_align`. -/
def PlacesFit (arch : Arch) (f : File) (hdr : Elf64Hdr) : Prop :=
  (∃ msg, elf64CheckHeader arch f hdr = Loader.panic msg) ∨
    (hdr.phNum - 1) * hdr.phdrSize < 2 ^ 31 ∨
    ∃ i, i < hdr.phNum ∧ i * hdr.phdrSize < 2 ^ 31 ∧ (phdr f hdr i).refused = true

section
variable {args : LoadArgs} {f : File} {hdr : Elf64Hdr}

theorem PlacesFit.of_small {arch : Arch} (h : (hdr.phNum - 1) * hdr.phdrSize < 2 ^ 31) :
    PlacesFit arch f hdr :=
  Or.inr (Or.inl h)

theorem le_reach_iff (h : TableOk f hdr) :
    hdr.phNum ≤ reach hdr ↔ (hdr.phNum - 1) * hdr.phdrSize < 2 ^ 31 := by
  rw [← lt_reach_iff h]
  have hpos : 0 < reach hdr := Nat.succ_pos _
  omega

theorem mem_reached (h : TableOk f hdr) {p : Elf64Phdr} :
    p ∈ (phdrs f hdr).take (reach hdr) ↔
      ∃ i, i < hdr.phNum ∧ i * hdr.phdrSize < 2 ^ 31 ∧ phdr f hdr i = p := by
  rw [phdrs, ← List.map_take, List.take_range]
  simp only [List.mem_map, List.mem_range, Nat.lt_min, lt_reach_iff h]
  constructor
  · rintro ⟨i, ⟨h1, h2⟩, h3⟩
    exact ⟨i, h2, h1, h3⟩
  · rintro ⟨i, h1, h2, h3⟩
    exact ⟨i, ⟨h2, h1⟩, h3⟩

theorem any_refused_iff (h : TableOk f hdr) :
    ((phdrs f hdr).take (reach hdr)).any Elf64Phdr.refused = true ↔
      ∃ i, i < hdr.phNum ∧ i * hdr.phdrSize < 2 ^ 31 ∧ (phdr f hdr i).refused = true := by
  rw [List.any_eq_true]
  constructor
  · rintro ⟨p, hp, hrefused⟩
    obtain ⟨i, h1, h2, rfl⟩ := (mem_reached h).mp hp
    exact ⟨i, h1, h2, hrefused⟩
  · rintro ⟨i, h1, h2, hrefused⟩
    exact ⟨phdr f hdr i, (mem_reached h).mpr ⟨i, h1, h2, rfl⟩, hrefused⟩

theorem elf64MaxAlign_of_refused (h : TableOk f hdr)
    (hrefused : ((phdrs f hdr).take (reach hdr)).any Elf64Phdr.refused = true) :
    ∃ msg, elf64MaxAlign f hdr = Loader.panic msg := by
  have hout := maxAlign_outcome ((phdrs f hdr).take (reach hdr)) (0, 0)
  rw [if_pos hrefused] at hout
  obtain ⟨msg, hmsg⟩ := hout
  have hsize : decide (hdr.phdrSize < elf64PhdrSize) = false := by
    have := h.size
    simp only [decide_eq_false_iff_not]
    omega
  refine ⟨msg, ?_⟩
  unfold elf64MaxAlign checkPhdrSize panicIf
  rw [hsize, forPhdrs_eq h, hmsg]
  rfl

/-- The loop of `elf64_max_align` overflows where it gets that far. -/
theorem elf64MaxAlign_overflows (h : TableOk f hdr) (hr : ¬hdr.phNum ≤ reach hdr)
    (hrefused : ¬((phdrs f hdr).take (reach hdr)).any Elf64Phdr.refused = true) :
    elf64MaxAlign f hdr = .error .signedOverflow := by
  have hout := maxAlign_outcome ((phdrs f hdr).take (reach hdr)) (0, 0)
  rw [if_neg hrefused] at hout
  obtain ⟨acc, hacc⟩ := hout
  have hsize : decide (hdr.phdrSize < elf64PhdrSize) = false := by
    have := h.size
    simp only [decide_eq_false_iff_not]
    omega
  unfold elf64MaxAlign checkPhdrSize panicIf
  rw [hsize, forPhdrs_eq h, hacc]
  simp only [hr, if_false]
  rfl

theorem elf64Load_overflows (hsize : elf64HdrSize ≤ f.size) {relocatable : Bool}
    (hheader : elf64CheckHeader args.arch f (elf64Hdr f.byte 0) = .ok relocatable)
    (hr : ¬((elf64Hdr f.byte 0).phNum - 1) * (elf64Hdr f.byte 0).phdrSize < 2 ^ 31)
    (hrefused : ¬∃ i, i < (elf64Hdr f.byte 0).phNum ∧ i * (elf64Hdr f.byte 0).phdrSize < 2 ^ 31 ∧
      (phdr f (elf64Hdr f.byte 0) i).refused = true) :
    elf64Load args f = .error .signedOverflow := by
  unfold elf64Load
  rw [File.read_eq (by omega), ok_bind]
  generalize elf64Hdr f.byte 0 = hdr at *
  have ht : TableOk f hdr := (elf64CheckHeader_safely args.arch f hdr).of_ok hheader
  rw [hheader, ok_bind, elf64MaxAlign_overflows ht (mt (le_reach_iff ht).mp hr)
    (mt (any_refused_iff ht).mp hrefused)]
  rfl

/-- **`elf64_load` is memory safe exactly where the products do not overflow.** -/
theorem elf64Load_safe_iff (args : LoadArgs) (f : File) (hsize : elf64HdrSize ≤ f.size) :
    MemorySafe (elf64Load args f) ↔ PlacesFit args.arch f (elf64Hdr f.byte 0) := by
  constructor
  · intro hsafe
    by_contra hnot
    obtain ⟨hheader, hnot⟩ := not_or.mp hnot
    obtain ⟨hr, hrefused⟩ := not_or.mp hnot
    cases hcheck : elf64CheckHeader args.arch f (elf64Hdr f.byte 0) with
    | ok relocatable =>
      rw [elf64Load_overflows hsize hcheck hr hrefused] at hsafe
      exact hsafe
    | error e =>
      have hends := elf64CheckHeader_safely args.arch f (elf64Hdr f.byte 0)
      rw [hcheck] at hends
      cases e with
      | panic msg => exact hheader ⟨msg, hcheck⟩
      | _ => exact hends
  · intro hfit
    cases hcheck : elf64CheckHeader args.arch f (elf64Hdr f.byte 0) with
    | error e =>
      have hends := elf64CheckHeader_safely args.arch f (elf64Hdr f.byte 0)
      rw [hcheck] at hends
      unfold MemorySafe elf64Load
      rw [File.read_eq (by omega), ok_bind, hcheck]
      exact hends
    | ok relocatable =>
      have ht : TableOk f (elf64Hdr f.byte 0) := (elf64CheckHeader_safely args.arch f _).of_ok hcheck
      rcases hfit with ⟨msg, hmsg⟩ | hr | hrefused
      · rw [hcheck] at hmsg
        cases hmsg
      · exact (elf64Load_safely hsize ((le_reach_iff ht).mpr hr)).imp fun _ _ => trivial
      · obtain ⟨msg, hmsg⟩ := elf64MaxAlign_of_refused ht ((any_refused_iff ht).mpr hrefused)
        unfold MemorySafe elf64Load
        rw [File.read_eq (by omega), ok_bind, hcheck, ok_bind, hmsg]
        exact Safely.panic

end

/-! ## Files -/

def hdrWords (type phdrSize phNum : Nat) : List Nat :=
  [0x00010102464c457f, 0, 2 ^ 32 + archX86_64 * 2 ^ 16 + type, 0, 64, 0,
    (phdrSize * 2 ^ 16 + 64) * 2 ^ 32, phNum]

def phdrWords (p : Elf64Phdr) : List Nat :=
  [p.flags * 2 ^ 32 + p.type, p.offset, p.vaddr, p.vaddr, p.filesz, p.memsz, p.align]

/-- Two segments that share a page, a word and a bitmap of DT_RELR, and one entry of DT_RELA. -/
def smallWords : List Nat :=
  hdrWords etDyn 56 3 ++ phdrWords ⟨ptLoad, 6, 0, 0, 384, 384, 0x1000⟩ ++
    phdrWords ⟨ptLoad, 6, 384, 400, 8, 0x1000, 1⟩ ++ phdrWords ⟨ptDynamic, 6, 232, 232, 112, 112, 8⟩ ++
    [dtRelr, 344, dtRelrsz, 16, dtRelrent, 8, dtRela, 360, dtRelasz, 24, dtRelaent, 24, dtNull, 0] ++
    [400, 3] ++ [416, 8, 0x10] ++ [0x1234]

def smallElf : File := ⟨8 * smallWords.length, by decide, wordByte smallWords⟩

/-- An ET_EXEC file of 4 GiB with 32774 empty program headers, 65528 bytes apart. -/
def hugeElf : File := ⟨2 ^ 32, by decide, wordByte (hdrWords etExec 65528 32774)⟩

def plainArgs : LoadArgs := ⟨.x86_64, plainAlloc, fun _ => 0, false, true, true⟩

theorem elf64Load_safe_small : MemorySafe (elf64Load plainArgs smallElf) := by
  have hsize : elf64HdrSize ≤ smallElf.size := by decide
  have hfit : ((elf64Hdr smallElf.byte 0).phNum - 1) * (elf64Hdr smallElf.byte 0).phdrSize < 2 ^ 31 := by
    decide
  have hiff := elf64Load_safe_iff plainArgs smallElf hsize
  rw [hiff]
  exact PlacesFit.of_small hfit

theorem leAt_zero {m : Nat → UInt8} {a n : Nat} (h : ∀ x, a ≤ x → m x = 0) : leAt m a n = 0 := by
  have hzero : ∀ n, leNat ((List.range n).map fun _ => 0) = 0 := by
    intro n
    rw [List.map_const', List.length_range]
    induction n with
    | zero => rfl
    | succ n ih =>
      rw [List.replicate_succ, leNat, ih]
      rfl
  unfold leAt
  rw [List.map_congr_left fun i _ => h (a + i) (Nat.le_add_right a i)]
  exact hzero n

/-- None of the empty program headers is loadable. -/
theorem hugeElf_refused (i : Nat) : (phdr hugeElf (elf64Hdr hugeElf.byte 0) i).refused = false := by
  have hoff : (elf64Hdr hugeElf.byte 0).phoff = 64 := by decide
  have hzero : ∀ x, 64 ≤ x → hugeElf.byte x = 0 := by
    intro x hx
    show UInt8.ofNat ((hdrWords etExec 65528 32774).getD (x / 8) 0 >>> (8 * (x % 8))) = 0
    have hlen : (hdrWords etExec 65528 32774).length = 8 := rfl
    rw [List.getD_eq_getElem?_getD, List.getElem?_eq_none (by omega)]
    simp
  have htype : (phdr hugeElf (elf64Hdr hugeElf.byte 0) i).type = 0 :=
    leAt_zero fun x hx => hzero x (by omega)
  unfold Elf64Phdr.refused Elf64Phdr.loadable
  rw [htype]
  rfl

theorem elf64Load_unsafe : ¬MemorySafe (elf64Load plainArgs hugeElf) := by
  have hheader : elf64CheckHeader .x86_64 hugeElf (elf64Hdr hugeElf.byte 0) = .ok false := by
    decide
  have hrun : elf64Load plainArgs hugeElf = .error .signedOverflow :=
    elf64Load_overflows (by decide) hheader (by decide) fun ⟨i, _, _, hi⟩ => by
      rw [hugeElf_refused i] at hi
      cases hi
  rw [hrun]
  exact id

end Limine.Elf
