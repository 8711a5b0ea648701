import Limine.Vmm.Walk

/-!
# x86-64

The PAT bit of a 4 KiB leaf is the large bit of the levels above, where it moves to bit 12, inside
the mask that `pte_addr` takes an address from.  Without 1 GiB pages `map_page` makes 2 MiB pages.
-/

namespace Limine.Vmm.X86

open Limine.Lib

/-! ## The source -/

def ptFlagValid : PtEntry := 1 <<< 0
def ptFlagWrite : PtEntry := 1 <<< 1
def ptFlagUser : PtEntry := 1 <<< 2
def ptFlagLarge : PtEntry := 1 <<< 7
def ptFlagNx : PtEntry := 1 <<< 63
def ptPaddrMask : PtEntry := 0x0000FFFFFFFFF000

def vmmFlagWrite : PtEntry := 1 <<< 1
def vmmFlagNoexec : PtEntry := 1 <<< 63
def vmmFlagFb : PtEntry := 1 <<< 3 ||| 1 <<< 12

def ptTableFlags : PtEntry := ptFlagValid ||| ptFlagWrite ||| ptFlagUser

def ptIsTable (x : PtEntry) : Bool := x &&& (ptFlagValid ||| ptFlagLarge) == ptFlagValid

def ptIsLarge (x : PtEntry) : Bool :=
  x &&& (ptFlagValid ||| ptFlagLarge) == ptFlagValid ||| ptFlagLarge

def ptToVmmFlags (x : PtEntry) : PtEntry := x &&& (ptFlagWrite ||| ptFlagNx ||| vmmFlagFb)

def pteNew (addr : Nat) (flags : PtEntry) : PtEntry := BitVec.ofNat 64 addr ||| flags

def pteAddr (pte : PtEntry) : Nat := (pte &&& ptPaddrMask).toNat

def largePagePhysOk (phys : Nat) : Bool := phys ≠ 0

def encoding : Encoding where
  isTable _ := ptIsTable
  isLarge := ptIsLarge
  toVmmFlags := ptToVmmFlags
  pteNew := pteNew
  pteAddr := pteAddr
  tableFlags := ptTableFlags
  maxLevel := 3

/-- What `cpuid` says. -/
structure Cpu where
  /-- `is_1gib_page_supported` -/
  page1GiB : Bool
  /-- `pat_supported` -/
  pat : Bool
  /-- the bits of a physical address -/
  maxPhyAddr : Nat
  maxPhyAddr_ge : 32 ≤ maxPhyAddr
  maxPhyAddr_le : maxPhyAddr ≤ 52

/-- The bits of the physical addresses that the processor has and `PT_PADDR_MASK` keeps. -/
def Cpu.paBits (cpu : Cpu) : Nat := min 48 cpu.maxPhyAddr

structure Pagemap where
  levels : Nat
  topLevel : Nat

def pagingMode5Lvl : Nat := 1

def newPagemap (pagingMode : Nat) : VmmM Pagemap := do
  let topLevel ← extMemAlloc
  return ⟨if pagingMode = pagingMode5Lvl then 5 else 4, topLevel⟩

/-- The flags `map_page` goes on with. -/
def presentFlags (cpu : Cpu) (flags : PtEntry) : PtEntry :=
  let flags := flags ||| ptFlagValid
  if flags &&& vmmFlagFb ≠ 0 ∧ cpu.pat = false then flags &&& ~~~vmmFlagFb else flags

/-- PML1 wants the PAT bit at 7 instead of 12. -/
def pml1Flags (flags : PtEntry) : PtEntry :=
  if flags &&& (1 <<< 12) ≠ 0 then (flags &&& ~~~((1 : PtEntry) <<< 12)) ||| 1 <<< 7 else flags

/-- The body of `map_page`, with `self` for its calls and those that `get_next_level` makes. -/
def mapPage (cpu : Cpu) (pagemap : Pagemap) (self : MapPage) : MapPage :=
  fun virtAddr physAddr flags pgSize => do
    let pml5Entry := (virtAddr &&& (0x1ff <<< 48)) >>> 48
    let pml4Entry := (virtAddr &&& (0x1ff <<< 39)) >>> 39
    let pml3Entry := (virtAddr &&& (0x1ff <<< 30)) >>> 30
    let pml2Entry := (virtAddr &&& (0x1ff <<< 21)) >>> 21
    let pml1Entry := (virtAddr &&& (0x1ff <<< 12)) >>> 12
    let flags := presentFlags cpu flags
    let getNextLevel := getNextLevel encoding self
    let pml4 ← if pagemap.levels = 5 then getNextLevel pagemap.topLevel virtAddr pgSize 4 pml5Entry
      else pure pagemap.topLevel
    let pml3 ← getNextLevel pml4 virtAddr pgSize 3 pml4Entry
    if pgSize = .size1GiB then
      if cpu.page1GiB then writeEntry pml3 pml3Entry (pteNew physAddr (flags ||| ptFlagLarge))
      else
        forStep 0x200000 0x40000000 (fun i => self (virtAddr + i) (physAddr + i) flags .size2MiB)
          (0x40000000 / 0x200000 + 1) 0
    else do
      let pml2 ← getNextLevel pml3 virtAddr pgSize 2 pml3Entry
      if pgSize = .size2MiB then writeEntry pml2 pml2Entry (pteNew physAddr (flags ||| ptFlagLarge))
      else do
        let pml1 ← getNextLevel pml2 virtAddr pgSize 1 pml2Entry
        writeEntry pml1 pml1Entry (pteNew physAddr (pml1Flags flags))

/-! ## The hardware -/

structure Page where
  phys : Nat
  writable : Bool
  noexec : Bool
  /-- the index into the PAT -/
  patIndex : Nat
deriving DecidableEq, Repr

/-- What the entries on the way allow. -/
structure Rights where
  writable : Bool
  noexec : Bool

def hwLeaf (cpu : Cpu) (v : Nat) (acc : Rights) (k : Nat) (pat : Bool) (e : PtEntry) :
    HwStep Rights Page :=
  if pat && !cpu.pat then .fault .reserved
  else
    .done ⟨(e &&& bitWindow (12 + 9 * k) cpu.maxPhyAddr).toNat + v % pageBytes k,
      acc.writable && e.getLsbD 1, acc.noexec || e.getLsbD 63,
      4 * pat.toNat + 2 * (e.getLsbD 4).toNat + (e.getLsbD 3).toNat⟩

/-- An entry of the walk, with `EFER.NXE` set.  The large bit is reserved above 1 GiB, and at 1 GiB
where there are no such pages; so are the address bits below a large page but for its PAT bit. -/
def hwStep (cpu : Cpu) (v : Nat) (acc : Rights) : Nat → PtEntry → HwStep Rights Page
  | 0, e =>
    if !e.getLsbD 0 then .fault .notMapped
    else if e &&& bitWindow cpu.maxPhyAddr 52 ≠ 0 then .fault .reserved
    else hwLeaf cpu v acc 0 (e.getLsbD 7) e
  | k + 1, e =>
    if !e.getLsbD 0 then .fault .notMapped
    else if e &&& bitWindow cpu.maxPhyAddr 52 ≠ 0 then .fault .reserved
    else if e.getLsbD 7 then
      if k = 0 ∨ k = 1 ∧ cpu.page1GiB then
        if e &&& bitWindow 13 (12 + 9 * (k + 1)) ≠ 0 then .fault .reserved
        else hwLeaf cpu v acc (k + 1) (e.getLsbD 12) e
      else .fault .reserved
    else
      .next ⟨acc.writable && e.getLsbD 1, acc.noexec || e.getLsbD 63⟩
        (e &&& bitWindow 12 cpu.maxPhyAddr).toNat

/-- The walk: an address is the sign extension of its low 48 or 57 bits. -/
def hwTranslate (cpu : Cpu) (s : Memory) (pagemap : Pagemap) (v : Nat) : Except Fault Page :=
  let bits := if pagemap.levels = 5 then 57 else 48
  if v < 2 ^ (bits - 1) ∨ 2 ^ 64 - 2 ^ (bits - 1) ≤ v then
    hwWalk (hwStep cpu v) s.mem (fun k => v / 2 ^ (12 + 9 * k) % 512) (pagemap.levels - 1) ⟨true, false⟩
      pagemap.topLevel
  else .error .notMapped

/-! ## Entries -/

def vmmFlags : Attr → PtEntry := Attr.toFlags vmmFlagWrite vmmFlagNoexec vmmFlagFb

/-- The flags of a leaf of level `k`. -/
def leafFlags (k : Nat) (a : Attr) : PtEntry :=
  let flags := vmmFlags a ||| ptFlagValid
  if k = 0 then pml1Flags flags else flags ||| ptFlagLarge

/-- What the macros read from the flags of a large leaf; `pte_addr` takes the PAT bit for a bit of
the address. -/
theorem largeFlags_spec (a : Attr) :
    ptIsTable (leafFlags 1 a) = false ∧ ptIsLarge (leafFlags 1 a) = true ∧
    ptToVmmFlags (leafFlags 1 a) = vmmFlags a ∧
    leafFlags 1 a &&& ptPaddrMask = (if a.fb then 1 <<< 12 else 0) := by
  revert a
  refine Attr.forall_of ?_
  decide

/-- What the hardware reads from the flags of a leaf. -/
theorem leafFlags_hw (a : Attr) : ∀ k, k < 3 →
    (leafFlags k a).getLsbD 0 = true ∧ (leafFlags k a).getLsbD 1 = a.write ∧
    (leafFlags k a).getLsbD 63 = a.noexec ∧ (leafFlags k a).getLsbD 3 = a.fb ∧
    (leafFlags k a).getLsbD 4 = false ∧ (leafFlags k a).getLsbD 7 = (if k = 0 then a.fb else true) ∧
    (0 < k → (leafFlags k a).getLsbD 12 = a.fb) ∧
    leafFlags k a &&& bitWindow 13 52 = 0#64 ∧ leafFlags k a &&& bitWindow 13 (12 + 9 * k) = 0#64 ∧
    leafFlags k a &&& bitWindow (12 + 9 * k) 52 = 0#64 := by
  revert a
  refine Attr.forall_of ?_
  decide

def PageOk (cpu : Cpu) (q : Nat) : Prop := 0x1000 ∣ q ∧ q < 2 ^ cpu.paBits

instance (cpu : Cpu) (q : Nat) : Decidable (PageOk cpu q) := inferInstanceAs (Decidable (_ ∧ _))

/-- The leaves there are; `fbOk` tells whether some may have the framebuffer's memory type. -/
structure LeafOk (cpu : Cpu) (fbOk : Bool) (k : Nat) (l : Leaf) : Prop where
  level : k < if cpu.page1GiB then 3 else 2
  fits : Fits (2 ^ cpu.paBits) k l
  fb : l.attr.fb = true → fbOk = true ∧ cpu.pat = true

variable {cpu : Cpu} {fbOk : Bool}

theorem LeafOk.lt {k : Nat} {l : Leaf} (h : LeafOk cpu fbOk k l) : k < 3 := by
  have := h.level
  split at this <;> omega

theorem Cpu.paBits_le (cpu : Cpu) : 2 ^ cpu.paBits ≤ 2 ^ 48 :=
  Nat.pow_le_pow_right (by decide) (Nat.min_le_left _ _)

theorem PageOk.lt {q : Nat} (h : PageOk cpu q) : q < 2 ^ 48 := Nat.lt_of_lt_of_le h.2 cpu.paBits_le

theorem PageOk.within {q : Nat} (h : PageOk cpu q) : Within (BitVec.ofNat 64 q) (bitWindow 12 48) :=
  within_ofNat h.1 h.lt

/-- The address of a leaf leaves the bits up to 12, or up to 21, to the flags. -/
theorem LeafOk.within {k : Nat} {l : Leaf} (h : LeafOk cpu fbOk k l) :
    Within (BitVec.ofNat 64 l.phys) (bitWindow 12 48) ∧
      (0 < k → Within (BitVec.ofNat 64 l.phys) (bitWindow 21 48)) :=
  ⟨(h.fits.mono cpu.paBits_le).within (by omega), fun hk => (h.fits.mono cpu.paBits_le).within (by omega)⟩

theorem LeafOk.toNat {k : Nat} {l : Leaf} (h : LeafOk cpu fbOk k l) :
    (BitVec.ofNat 64 l.phys).toNat = l.phys := (h.fits.mono cpu.paBits_le).toNat (by decide)

/-- `pte_addr` of a large leaf. -/
theorem pteAddr_large {k : Nat} {l : Leaf} (h : LeafOk cpu fbOk (k + 1) l) :
    pteAddr (pteNew l.phys (leafFlags (k + 1) l.attr)) = l.phys + if l.attr.fb then 0x1000 else 0 := by
  have hw := h.within.2 (Nat.succ_pos k)
  have hflags : leafFlags (k + 1) l.attr &&& ptPaddrMask = if l.attr.fb then 1 <<< 12 else 0 :=
    (largeFlags_spec l.attr).2.2.2
  unfold pteAddr pteNew
  rw [BitVec.and_or_distrib_right, hw.and_eq_self (by decide), hflags]
  cases l.attr.fb with
  | false => rw [if_neg Bool.false_ne_true, if_neg Bool.false_ne_true, BitVec.toNat_or, h.toNat]; exact Nat.or_zero _
  | true =>
    -- the address is a multiple of 2 MiB
    obtain ⟨c, hc⟩ := Nat.dvd_trans (@pageBytes_dvd 1 (k + 1) (by omega)) h.fits.aligned
    rw [if_pos rfl, if_pos rfl, BitVec.toNat_or, h.toNat, hc]
    exact (Nat.two_pow_add_eq_or_of_lt (by decide : 0x1000 < 2 ^ 21) c).symm

theorem pteNew_table {q : Nat} (h : PageOk cpu q) :
    ptIsTable (pteNew q ptTableFlags) = true ∧ pteAddr (pteNew q ptTableFlags) = q := by
  refine ⟨?_, ?_⟩
  · unfold ptIsTable pteNew
    rw [h.within.or_and_flags (by decide)]
    decide
  · unfold pteAddr pteNew
    rw [h.within.or_and_value (by decide) (by decide), toNat_ofNat_of_lt h.lt (by decide)]

def format (cpu : Cpu) (fbOk : Bool) : Format encoding where
  leafEntry k l := pteNew l.phys (leafFlags k l.attr)
  flagsOf := vmmFlags
  LeafOk := LeafOk cpu fbOk
  PageOk := PageOk cpu
  Splits _ l := l.attr.fb = false
  maxLevel_le := by decide
  isTable_zero _ := show ptIsTable 0 = false by decide
  isLarge_zero := by decide
  isTable_table k q h := (pteNew_table h).1
  pteAddr_table q h := (pteNew_table h).2
  isTable_leaf k l h := by
    show ptIsTable (BitVec.ofNat 64 l.phys ||| leafFlags 1 l.attr) = false
    unfold ptIsTable
    rw [h.within.1.or_and_flags (by decide)]
    exact (largeFlags_spec l.attr).1
  isLarge_leaf k l h := by
    show ptIsLarge (BitVec.ofNat 64 l.phys ||| leafFlags 1 l.attr) = true
    unfold ptIsLarge
    rw [h.within.1.or_and_flags (by decide)]
    exact (largeFlags_spec l.attr).2.1
  pteAddr_leaf k l h hfb := by
    have haddr := pteAddr_large h
    rw [hfb] at haddr
    exact haddr
  toVmmFlags_leaf k l h _ := by
    rw [← (largeFlags_spec l.attr).2.2.1]
    show ptToVmmFlags (BitVec.ofNat 64 l.phys ||| leafFlags 1 l.attr) = _
    unfold ptToVmmFlags
    rw [(h.within.2 (Nat.succ_pos k)).or_and_flags (by decide)]
  lt_maxLevel k l h := h.lt
  aligned k l h := h.fits.aligned
  leafOk_split k l d i h hd hi hdvd := ⟨Nat.lt_trans hd h.level, h.fits.split hd hi hdvd, h.fb⟩

/-! ## `map_page` -/

def space (fiveLvl : Bool) : AddressSpace where
  levels := if fiveLvl then 4 else 3
  half := if fiveLvl then 56 else 47
  bits := if fiveLvl then 57 else 48
  twoTrees := false
  levels_le := by cases fiveLvl <;> decide
  half_le := by cases fiveLvl <;> decide
  bits_le := by cases fiveLvl <;> decide
  half_lt := by cases fiveLvl <;> decide
  bits_lt := by cases fiveLvl <;> decide

variable {fiveLvl : Bool}

theorem space_index {k : Nat} (hk : k ≤ (space fiveLvl).levels) (v : Nat) :
    v / 2 ^ (12 + 9 * k) % 512 = slotIndex k ((space fiveLvl).key v) := by
  refine (AddressSpace.slotIndex_key_of_le hk ?_ v).symm
  cases fiveLvl with
  | false =>
    have hk3 : k ≤ 3 := hk
    show 12 + 9 * (k + 1) ≤ 48
    omega
  | true =>
    have hk4 : k ≤ 4 := hk
    show 12 + 9 * (k + 1) ≤ 57
    omega

/-- Flags that the processor can have stay as they are but for the present bit. -/
theorem presentFlags_of_ok {a : Attr} (h : a.fb = true → cpu.pat = true) :
    presentFlags cpu (vmmFlags a) = vmmFlags a ||| ptFlagValid ∧
      presentFlags cpu (vmmFlags a ||| ptFlagValid) = vmmFlags a ||| ptFlagValid := by
  have hfb : ∀ w n f, f = false → (vmmFlags ⟨w, n, f⟩ ||| ptFlagValid) &&& vmmFlagFb = 0 := by decide
  have hvalid : vmmFlags a ||| ptFlagValid ||| ptFlagValid = vmmFlags a ||| ptFlagValid := by
    rw [BitVec.or_assoc, BitVec.or_self]
  have hkeep : ¬ ((vmmFlags a ||| ptFlagValid) &&& vmmFlagFb ≠ 0 ∧ cpu.pat = false) := by
    rintro ⟨h1, h2⟩
    cases hf : a.fb with
    | false => exact h1 (hfb a.write a.noexec a.fb hf)
    | true => rw [h hf] at h2; cases h2
  unfold presentFlags
  dsimp only
  rw [hvalid, if_neg hkeep]
  exact ⟨rfl, rfl⟩

theorem mapPage_isMapAt {pagemap : Pagemap} (hlevels : pagemap.levels = (space fiveLvl).levels + 1)
    (self : MapPage) {size : PageSize} (hsize : size.level ≤ 2) :
    IsMapAt (format cpu fbOk) (space fiveLvl) (fun _ => pagemap.topLevel) (LeafOk cpu fbOk size.level)
      (mapPage cpu pagemap self) self size := by
  intro virt l hv hl
  refine ⟨fun k => virt / 2 ^ (12 + 9 * k) % 512, fun j hj => space_index hj virt, ?_⟩
  have hflags : presentFlags cpu ((format cpu fbOk).flagsOf l.attr) = vmmFlags l.attr ||| ptFlagValid :=
    (presentFlags_of_ok fun hfb => (hl.fb hfb).2).1
  unfold mapPage mapAt
  simp only [and_shift_index, hlevels, hflags]
  cases fiveLvl <;> cases size with
  | size4KiB => simp [descend, PageSize.level, space]; rfl
  | size2MiB => simp [descend, PageSize.level, space]; rfl
  | size1GiB =>
    have h1GiB : cpu.page1GiB = true := by
      cases h : cpu.page1GiB with
      | true => rfl
      | false =>
        have := hl.level
        rw [h] at this
        exact absurd this (by decide)
    simp [descend, PageSize.level, space, h1GiB]; rfl
  | size512GiB => exact absurd hsize (by decide)
  | size256TiB => exact absurd hsize (by decide)

/-! ## 1 GiB pages where there are none -/

/-- The way down to the table of 1 GiB pages, and what `map_page` does there instead. -/
theorem mapPage_noPage1GiB {pagemap : Pagemap} (hlevels : pagemap.levels = (space fiveLvl).levels + 1)
    (h1GiB : cpu.page1GiB = false) (self : MapPage) (virt phys : Nat) (flags : PtEntry) :
    mapPage cpu pagemap self virt phys flags .size1GiB =
      (descend encoding self virt .size1GiB (fun k => virt / 2 ^ (12 + 9 * k) % 512) (space fiveLvl).levels
        pagemap.topLevel >>= fun _ =>
          forStep 0x200000 0x40000000 (fun i => self (virt + i) (phys + i) (presentFlags cpu flags) .size2MiB)
            (0x40000000 / 0x200000 + 1) 0) := by
  unfold mapPage
  simp only [and_shift_index, hlevels]
  cases fiveLvl <;> simp [descend, PageSize.level, space, h1GiB]

theorem mapPage_flags {flags flags' : PtEntry} (h : presentFlags cpu flags = presentFlags cpu flags')
    (pagemap : Pagemap) (self : MapPage) (virt phys : Nat) (size : PageSize) :
    mapPage cpu pagemap self virt phys flags size = mapPage cpu pagemap self virt phys flags' size := by
  unfold mapPage
  rw [h]

/-- `map_page`, with the fuel for 1 GiB pages that are made of 2 MiB ones. -/
def mapPageRec (cpu : Cpu) (pagemap : Pagemap) : MapPage := fixMapPage (mapPage cpu pagemap) 3

theorem mapPageRec_mapsView {pagemap : Pagemap} (hlevels : pagemap.levels = (space fiveLvl).levels + 1)
    {size : PageSize} (hsize : size.level ≤ 2) (fuel : Nat) {s : Memory} {G : Tables Leaf} {own : Owner}
    (hrep : Rep (format cpu fbOk) ((space fiveLvl).trees fun _ => pagemap.topLevel) s G own) {virt : Nat}
    {l : Leaf} (hv : (space fiveLvl).Valid virt) (hl : LeafOk cpu fbOk size.level l)
    (hread : Readable (format cpu fbOk) ((space fiveLvl).trees fun _ => pagemap.topLevel) G size.level
      ((space fiveLvl).key virt)) :
    Runs (fixMapPage (mapPage cpu pagemap) (fuel + 2) virt l.phys (vmmFlags l.attr) size) s fun _ s' =>
      ∃ G' own', Rep (format cpu fbOk) ((space fiveLvl).trees fun _ => pagemap.topLevel) s' G' own' ∧
        MapsView ((space fiveLvl).trees fun _ => pagemap.topLevel) size.level ((space fiveLvl).key virt) l
          G G' := by
  have hlev : 2 ≤ (space fiveLvl).levels := by cases fiveLvl <;> decide
  exact fixMapPage_mapsView (F := format cpu fbOk) (fun self => mapPage_isMapAt hlevels self hsize)
    (Nat.le_trans hsize hlev) fuel hrep hv hl hread

/-- The 2 MiB pages are the 1 GiB page. -/
theorem mapPage_noPage1GiB_spec {pagemap : Pagemap} (hlevels : pagemap.levels = (space fiveLvl).levels + 1)
    (h1GiB : cpu.page1GiB = false) {s : Memory} {G : Tables Leaf} {own : Owner} {virt : Nat} {l : Leaf}
    (hrep : Rep (format cpu fbOk) ((space fiveLvl).trees fun _ => pagemap.topLevel) s G own)
    (hv : (space fiveLvl).Valid virt) (hdvd : pageBytes 2 ∣ virt) (hl : Fits (2 ^ cpu.paBits) 2 l)
    (hfb : l.attr.fb = true → fbOk = true ∧ cpu.pat = true) :
    Runs (mapPageRec cpu pagemap virt l.phys (vmmFlags l.attr) .size1GiB) s fun _ s' => ∃ G' own',
      Rep (format cpu fbOk) ((space fiveLvl).trees fun _ => pagemap.topLevel) s' G' own' ∧
      MapsRange (space fiveLvl) (fun _ => pagemap.topLevel) virt l.phys (pageBytes 2) l.attr G G' := by
  have hlev : 2 ≤ (space fiveLvl).levels := by cases fiveLvl <;> decide
  have hlow : ∀ k l, LeafOk cpu fbOk k l → k ≤ 1 := by
    intro k l h
    have := h.level
    rw [h1GiB] at this
    exact Nat.le_of_lt_succ this
  have hw := hv.has fun _ => pagemap.topLevel
  have hclear := hrep.clear (fun k l h => Nat.le_succ_of_le (hlow k l h)) hw
  obtain ⟨hflags, hflags'⟩ := presentFlags_of_ok fun h => (hfb h).2
  show Runs (mapPage cpu pagemap (fixMapPage (mapPage cpu pagemap) 2) _ _ _ _) s _
  rw [mapPage_noPage1GiB hlevels h1GiB, hflags]
  refine (descend_clear _ virt hw _ _ s G own hrep (Tables.tableAt_self _ _ _ _)
    (show PageSize.level .size1GiB ≤ (space fiveLvl).levels from hlev) hclear
    fun j hj => space_index hj virt).bind ?_
  rintro _ s' ⟨G', own', hrep', -, -, hquiet⟩
  have hpage := fun i (hi : i < pageBytes 2) => (AddressSpace.key_page hlev hv hi).1
  rw [Nat.div_mul_cancel hdvd] at hpage
  refine @forStep_runs _ _ _ (fun i s => ∃ G' own',
    Rep (format cpu fbOk) ((space fiveLvl).trees fun _ => pagemap.topLevel) s G' own' ∧
    MapsRange (space fiveLvl) (fun _ => pagemap.topLevel) virt l.phys i l.attr G G') (by decide) (by decide)
    (fun i s hi hid hinv => ?_) _ 0 s' (Nat.dvd_zero _) (Nat.zero_le _) (by decide)
    ⟨G', own', hrep', MapsRange.of_quiet hquiet _ _ _⟩
  obtain ⟨G₁, own₁, hrep₁, hrange⟩ := hinv
  have hd1 : pageBytes 1 ∣ virt + i :=
    Nat.dvd_add (Nat.dvd_trans (pageBytes_dvd (by decide)) hdvd) hid
  have hrun := @mapPageRec_mapsView cpu fbOk fiveLvl pagemap hlevels .size2MiB (by decide) 0 s G₁ own₁ hrep₁
    (virt + i) ⟨l.phys + i, l.attr⟩ (hpage i hi) ⟨by rw [h1GiB]; decide, hl.split (by decide) hi hid, hfb⟩
    (readable_of_splits hrep₁ (hpage i hi) fun k l h hk => absurd (hlow k l h) (Nat.not_le.mpr hk))
  have hcongr := mapPage_flags (hflags'.trans hflags.symm) pagemap (fixMapPage (mapPage cpu pagemap) 1)
    (virt + i) (l.phys + i) .size2MiB
  show Runs (mapPage cpu pagemap (fixMapPage (mapPage cpu pagemap) 1) _ _ _ _) s _
  rw [hcongr]
  refine hrun.imp ?_
  rintro _ s'' ⟨G₂, own₂, hrep₂, hview⟩
  exact ⟨G₂, own₂, hrep₂, hrange.append
    (hview.mapsRange (show 1 ≤ (space fiveLvl).levels by omega) (hpage i hi) hd1)⟩

/-- `map_page` writes one entry, but for 1 GiB pages where there are none. -/
theorem entry_or_noPage1GiB (cpu : Cpu) {size : PageSize} (hsize : size.level ≤ 2) :
    (size.level < if cpu.page1GiB then 3 else 2) ∨ cpu.page1GiB = false ∧ size = .size1GiB := by
  cases cpu.page1GiB with
  | true => exact .inl (Nat.lt_succ_of_le hsize)
  | false =>
    cases size with
    | size4KiB => exact .inl (by decide)
    | size2MiB => exact .inl (by decide)
    | size1GiB => exact .inr ⟨rfl, rfl⟩
    | size512GiB => exact absurd hsize (by decide)
    | size256TiB => exact absurd hsize (by decide)

/-- The pages `map_page` may be asked for, whatever the processor has. -/
structure AskOk (cpu : Cpu) (fbOk : Bool) (size : PageSize) (l : Leaf) : Prop where
  fits : Fits (2 ^ cpu.paBits) size.level l
  fb : l.attr.fb = true → fbOk = true ∧ cpu.pat = true

/-- `map_page` overlays its page, if the larger leaves there may be can be split. -/
theorem mapPageRec_spec {pagemap : Pagemap} (hlevels : pagemap.levels = (space fiveLvl).levels + 1)
    {size : PageSize} (hsize : size.level ≤ 2)
    (hsplit : ∀ k l, LeafOk cpu fbOk k l → size.level < k → l.attr.fb = false) :
    MapsPage (format cpu fbOk) (space fiveLvl) (fun _ => pagemap.topLevel) (AskOk cpu fbOk)
      (mapPageRec cpu pagemap) size := by
  intro s f virt l ht hv hdvd hl
  rcases entry_or_noPage1GiB cpu hsize with hlevel | ⟨h1GiB, rfl⟩
  · have hlev : 2 ≤ (space fiveLvl).levels := by cases fiveLvl <;> decide
    exact fixMapPage_mapsPage (F := format cpu fbOk) (fun self => mapPage_isMapAt hlevels self hsize)
      (Nat.le_trans hsize hlev) hsplit 1 s f virt l ht hv hdvd ⟨hlevel, hl.fits, hl.fb⟩
  · obtain ⟨G, own, hrep, hf⟩ := ht
    refine (mapPage_noPage1GiB_spec hlevels h1GiB hrep hv hdvd hl.fits hl.fb).imp ?_
    rintro _ s' ⟨G', own', hrep', hrange⟩
    exact hrange.translates hrep' hf

/-- `map_pages(pagemap, virt, phys, flags, count)` -/
def mapPages (cpu : Cpu) (pagemap : Pagemap) (c : MapCall) : VmmM Unit :=
  Vmm.mapPages largePagePhysOk (mapPageRec cpu pagemap) c.virt c.phys (vmmFlags c.attr) c.count

def fiveLvlOf (pagingMode : Nat) : Bool := pagingMode = pagingMode5Lvl

theorem newPagemap_spec (pagingMode : Nat) {s : Memory} (hs : SupplyOk (PageOk cpu) s.supply) :
    Runs (newPagemap pagingMode) s fun pm s' => pm.levels = (space (fiveLvlOf pagingMode)).levels + 1 ∧
      Translates (format cpu fbOk) (space (fiveLvlOf pagingMode)) (fun _ => pm.topLevel) (fun _ => none) s' := by
  unfold newPagemap
  refine Runs.extMemAlloc fun p ps hp => Runs.pure ⟨?_, ?_⟩
  · by_cases h : pagingMode = pagingMode5Lvl <;> simp [fiveLvlOf, space, h]
  · exact Translates.oneRoot (F := format cpu fbOk) rfl hs hp

theorem mapPages_spec {pagemap : Pagemap} (hlevels : pagemap.levels = (space fiveLvl).levels + 1) {c : MapCall}
    (hc : c.Ok (space fiveLvl) (2 ^ cpu.paBits)) (hfb : c.attr.fb = false) {s : Memory} {f : Nat → Option Leaf}
    (ht : Translates (format cpu false) (space fiveLvl) (fun _ => pagemap.topLevel) f s) :
    Runs (mapPages cpu pagemap c) s fun _ s' =>
      Translates (format cpu false) (space fiveLvl) (fun _ => pagemap.topLevel)
        (overlay c.virt c.phys c.count c.attr f) s' := by
  refine Vmm.mapPages_spec (F := format cpu false) (fun size hsize => mapPageRec_spec hlevels hsize
    fun k l hl _ => ?_) (hc.callOk fun size l _ hl ha => ⟨hl, fun h => ?_⟩) ht
  · cases hf : l.attr.fb with
    | false => rfl
    | true => exact (hl.fb hf).1.symm
  · rw [ha, hfb] at h
    cases h

/-! ## The hardware's view -/

def pageOf (l : Leaf) : Page := ⟨l.phys, l.attr.write, l.attr.noexec, 5 * l.attr.fb.toNat⟩

/-- The address field of a processor and the bits it reserves. -/
theorem window_spec : ∀ m, m < 53 → 32 ≤ m →
    (bitWindow 12 (min 48 m) &&& bitWindow m 52 : PtEntry) = 0#64 ∧
    (bitWindow 13 52 &&& bitWindow m 52 : PtEntry) = bitWindow m 52 ∧
    ptTableFlags &&& bitWindow m 52 = 0#64 ∧ ptTableFlags &&& bitWindow 12 m = 0#64 ∧
    ∀ k, k < 3 →
      (bitWindow (12 + 9 * k) (min 48 m) &&& bitWindow (12 + 9 * k) m : PtEntry) =
        bitWindow (12 + 9 * k) (min 48 m) ∧
      (bitWindow (12 + 9 * k) 52 &&& bitWindow (12 + 9 * k) m : PtEntry) = bitWindow (12 + 9 * k) m ∧
      (bitWindow (12 + 9 * k) (min 48 m) &&& bitWindow 13 (12 + 9 * k) : PtEntry) = 0#64 := by
  decide

theorem hwStep_table (v : Nat) {q : Nat} (h : PageOk cpu q) (k : Nat) :
    hwStep cpu v ⟨true, false⟩ (k + 1) (pteNew q ptTableFlags) = .next ⟨true, false⟩ q := by
  obtain ⟨h1, -, h3, h4, hk⟩ := window_spec cpu.maxPhyAddr (Nat.lt_succ_of_le cpu.maxPhyAddr_le) cpu.maxPhyAddr_ge
  have hbit : ∀ i, i < 12 ∨ i = 63 → (pteNew q ptTableFlags).getLsbD i = ptTableFlags.getLsbD i := by
    intro i hi
    refine h.within.getLsbD_or ?_
    unfold bitWindow
    rw [BitVec.getLsbD_ofNat, testBit_window (by decide)]
    rcases hi with hi | rfl
    · simp [Nat.not_le.mpr hi]
    · decide
  rw [hwStep, hbit 0 (by decide), hbit 1 (by decide), hbit 7 (by decide), hbit 63 (by decide)]
  have hw : Within (BitVec.ofNat 64 q) (bitWindow 12 cpu.paBits) := within_ofNat h.1 h.2
  unfold pteNew
  rw [hw.or_and_flags h1, h3, hw.or_and_value (hk 0 (by decide)).1 h4,
    toNat_ofNat_of_lt h.lt (by decide)]
  rfl

theorem hwLeaf_leaf (v : Nat) {k : Nat} {l : Leaf} (h : LeafOk cpu fbOk k l) :
    hwLeaf cpu v ⟨true, false⟩ k l.attr.fb (pteNew l.phys (leafFlags k l.attr)) =
      .done (pageOf ⟨l.phys + v % pageBytes k, l.attr⟩) := by
  obtain ⟨-, -, -, -, hk⟩ := window_spec cpu.maxPhyAddr (Nat.lt_succ_of_le cpu.maxPhyAddr_le) cpu.maxPhyAddr_ge
  obtain ⟨hk1, hk2, -⟩ := hk k h.lt
  obtain ⟨-, f1, f63, f3, f4, -, -, -, -, fpa⟩ := leafFlags_hw l.attr k h.lt
  have hw := h.within.1
  have hpat : ¬ (l.attr.fb && !cpu.pat) = true := by
    cases hf : l.attr.fb with
    | false => exact Bool.false_ne_true
    | true =>
      rw [(h.fb hf).2]
      exact Bool.false_ne_true
  have hflags : leafFlags k l.attr &&& bitWindow (12 + 9 * k) cpu.maxPhyAddr = 0#64 := by
    rw [← hk2, ← BitVec.and_assoc, fpa, BitVec.zero_and]
  unfold hwLeaf pteNew pageOf
  rw [if_neg hpat, hw.getLsbD_or (by decide), hw.getLsbD_or (by decide), hw.getLsbD_or (by decide),
    hw.getLsbD_or (by decide), f1, f63, f3, f4, (h.fits.within (Nat.le_refl _)).or_and_value hk1 hflags,
    h.toNat]
  cases l.attr.fb <;> rfl

theorem hwStep_leaf (v : Nat) {k : Nat} {l : Leaf} (h : LeafOk cpu fbOk k l) :
    hwStep cpu v ⟨true, false⟩ k (pteNew l.phys (leafFlags k l.attr)) =
      .done (pageOf ⟨l.phys + v % pageBytes k, l.attr⟩) := by
  obtain ⟨h1, h2, -, -, hk⟩ := window_spec cpu.maxPhyAddr (Nat.lt_succ_of_le cpu.maxPhyAddr_le) cpu.maxPhyAddr_ge
  obtain ⟨f0, -, -, -, -, f7, f12, f48, f13, -⟩ := leafFlags_hw l.attr k h.lt
  have hw := h.within.1
  have he0 : (pteNew l.phys (leafFlags k l.attr)).getLsbD 0 = true := (hw.getLsbD_or (by decide)).trans f0
  have he7 : (pteNew l.phys (leafFlags k l.attr)).getLsbD 7 = if k = 0 then l.attr.fb else true :=
    (hw.getLsbD_or (by decide)).trans f7
  have hpa : Within (BitVec.ofNat 64 l.phys) (bitWindow 12 cpu.paBits) := h.fits.within (by omega)
  have hres : ¬ pteNew l.phys (leafFlags k l.attr) &&& bitWindow cpu.maxPhyAddr 52 ≠ 0 := by
    unfold pteNew
    rw [hpa.or_and_flags h1, ← h2, ← BitVec.and_assoc, f48, BitVec.zero_and]
    exact fun h => h rfl
  rw [← hwLeaf_leaf v h]
  cases k with
  | zero =>
    rw [hwStep, he0, Bool.not_true, if_neg Bool.false_ne_true, if_neg hres, he7, if_pos rfl]
  | succ k =>
    have hw' := h.within.2 (Nat.succ_pos k)
    have he12 : (pteNew l.phys (leafFlags (k + 1) l.attr)).getLsbD 12 = l.attr.fb :=
      (hw'.getLsbD_or (by decide)).trans (f12 (Nat.succ_pos k))
    have hsize : k = 0 ∨ k = 1 ∧ cpu.page1GiB = true := by
      have := h.level
      split at this
      · next h1 =>
        rcases (by omega : k = 0 ∨ k = 1) with rfl | rfl
        · exact .inl rfl
        · exact .inr ⟨rfl, h1⟩
      · exact .inl (by omega)
    have hlow : ¬ pteNew l.phys (leafFlags (k + 1) l.attr) &&& bitWindow 13 (12 + 9 * (k + 1)) ≠ 0 := by
      unfold pteNew
      rw [(h.fits.within (Nat.le_refl _)).or_and_flags (hk (k + 1) h.lt).2.2, f13]
      exact fun h => h rfl
    rw [hwStep, he0, Bool.not_true, if_neg Bool.false_ne_true, if_neg hres, if_pos (he7.trans (if_neg (Nat.succ_ne_zero k))),
      if_pos hsize, if_neg hlow, he12]

/-- The hardware sees what the trees translate. -/
theorem hwTranslate_eq {pagemap : Pagemap} (hlevels : pagemap.levels = (space fiveLvl).levels + 1)
    {s : Memory} {f : Nat → Option Leaf}
    (ht : Translates (format cpu fbOk) (space fiveLvl) (fun _ => pagemap.topLevel) f s) {v : Nat}
    (hv : (space fiveLvl).Valid v) :
    hwTranslate cpu s pagemap v =
      match f v with
      | none => .error .notMapped
      | some l => .ok (pageOf l) := by
  have hcanon : v < 2 ^ (space fiveLvl).half ∨ 2 ^ 64 - 2 ^ (space fiveLvl).half ≤ v := hv.imp_right And.left
  have hhw := ht.hardware (hwStep cpu v) ⟨true, false⟩ pageOf (fun k => v / 2 ^ (12 + 9 * k) % 512) hv
    (fun k => by cases k <;> rfl) (fun k q hq => hwStep_table v hq k)
    (fun k l hl => hwStep_leaf v hl) fun k hk => space_index hk v
  unfold hwTranslate
  rw [hlevels]
  cases fiveLvl <;> exact (if_pos hcanon).trans hhw

/-- A new pagemap filled by calls of `map_pages` is to the hardware the overlay of the calls. -/
theorem x86_overlay (pagingMode : Nat) {s : Memory} (hs : SupplyOk (PageOk cpu) s.supply)
    {calls : List MapCall}
    (hcalls : ∀ c ∈ calls, c.Ok (space (fiveLvlOf pagingMode)) (2 ^ cpu.paBits) ∧ c.attr.fb = false) :
    Runs (buildPagemap (newPagemap pagingMode) (mapPages cpu) calls) s fun pagemap s' =>
      ∀ v, v < 2 ^ 64 →
        hwTranslate cpu s' pagemap v =
          match lastCall calls v with
          | none => .error .notMapped
          | some c => .ok ⟨c.phys + (v - c.virt), c.attr.write, c.attr.noexec, 0⟩ := by
  refine (buildPagemap_spec (fun pm _ => pm.topLevel) (@newPagemap_spec cpu false pagingMode s hs)
    fun pm hlevels c hc s f => mapPages_spec hlevels (hcalls c hc).1 (hcalls c hc).2).imp
      fun pagemap s' ⟨hlevels, ht⟩ v hlt => ?_
  generalize fiveLvlOf pagingMode = fiveLvl at *
  by_cases hvalid : (space fiveLvl).Valid v
  · rw [hwTranslate_eq hlevels ht hvalid]
    unfold lastLeaf
    cases h : lastCall calls v with
    | none => rfl
    | some c =>
      have hfb := (hcalls c (lastCall_eq_some h).1).2
      show Except.ok (Page.mk _ _ _ (5 * c.attr.fb.toNat)) = _
      rw [hfb]
      rfl
  · rw [lastCall_eq_none (fun c hc => (hcalls c hc).1) hvalid]
    unfold hwTranslate
    rw [hlevels]
    cases fiveLvl <;> exact if_neg fun h => hvalid (h.imp_right fun h' => ⟨h', hlt⟩)

theorem x86_overlay_overlap :
    ∃ pagemap s,
      buildPagemap (newPagemap pagingMode5Lvl) (mapPages ⟨true, true, 48, by decide, by decide⟩)
        (overlapCalls false) eightPages = .ok (pagemap, s) ∧
      hwTranslate ⟨true, true, 48, by decide, by decide⟩ s pagemap 0x200123 = .ok ⟨0x6123, true, false, 0⟩ ∧
      hwTranslate ⟨true, true, 48, by decide, by decide⟩ s pagemap 0x201123 = .ok ⟨0x9123, false, true, 0⟩ ∧
      hwTranslate ⟨true, true, 48, by decide, by decide⟩ s pagemap 0x202123 = .error .notMapped := by
  have hs : SupplyOk (PageOk ⟨true, true, 48, by decide, by decide⟩) eightPages.supply :=
    ⟨by decide, by decide⟩
  have hcalls : ∀ c ∈ overlapCalls false, c.Ok (space (fiveLvlOf pagingMode5Lvl)) (2 ^ 48) ∧
      c.attr.fb = false := by decide
  obtain ⟨pagemap, s, hrun, h⟩ := Runs.exists_ok (x86_overlay pagingMode5Lvl hs) hcalls (by decide +kernel)
  exact ⟨pagemap, s, hrun, h 0x200123 (by decide), h 0x201123 (by decide), h 0x202123 (by decide)⟩

end Limine.Vmm.X86
