import Limine.Vmm.Walk

/-!
# AArch64

Both descriptor formats: with `TCR_EL1.DS` the address field grows by two bits, and bits 51:50 of
the output address take the place of the shareability field.
-/

namespace Limine.Vmm.AArch64

open Limine.Lib

/-! ## The source -/

def ptFlagValid : PtEntry := 1 <<< 0
def ptFlagTable : PtEntry := 1 <<< 1
def ptFlag4kPage : PtEntry := 1 <<< 1
def ptFlagBlock : PtEntry := 0 <<< 1
def ptFlagReadonly : PtEntry := 1 <<< 7
def ptFlagInnerSh : PtEntry := 3 <<< 8
def ptFlagAccess : PtEntry := 1 <<< 10
def ptFlagPxn : PtEntry := 1 <<< 53
def ptFlagUxn : PtEntry := 1 <<< 54
def ptFlagWb : PtEntry := 0 <<< 2
def ptFlagFb : PtEntry := 1 <<< 2
def ptPaddrMask : PtEntry := 0x0000FFFFFFFFF000

def ptPaddrMaskDs : PtEntry := 0x0003FFFFFFFFF000
def ptOaHighMask : PtEntry := 3 <<< 8
def ptOaHighShift : Nat := 42

def ptTableFlags : PtEntry := ptFlagValid ||| ptFlagTable

def ptIsTable (x : PtEntry) : Bool :=
  x &&& (ptFlagValid ||| ptFlagTable) == ptFlagValid ||| ptFlagTable

def ptIsLarge (x : PtEntry) : Bool := x &&& (ptFlagValid ||| ptFlagTable) == ptFlagValid

def vmmFlagWrite : PtEntry := 1 <<< 0
def vmmFlagNoexec : PtEntry := 1 <<< 1
def vmmFlagFb : PtEntry := 1 <<< 2

section

-- `ds_encoding`, which `new_pagemap` sets for the pagemap to come
variable (dsEncoding : Bool)

def pteNew (addr : Nat) (flags : PtEntry) : PtEntry :=
  if dsEncoding then
    (BitVec.ofNat 64 addr &&& ptPaddrMaskDs) |||
      ((BitVec.ofNat 64 addr >>> ptOaHighShift) &&& ptOaHighMask) ||| flags
  else (BitVec.ofNat 64 addr &&& ptPaddrMask) ||| flags

def pteAddr (pte : PtEntry) : Nat :=
  if dsEncoding then ((pte &&& ptPaddrMaskDs) ||| ((pte &&& ptOaHighMask) <<< ptOaHighShift)).toNat
  else (pte &&& ptPaddrMask).toNat

def ptToVmmFlags (entry : PtEntry) : PtEntry :=
  (if entry &&& ptFlagReadonly = 0 then vmmFlagWrite else 0) |||
  (if entry &&& ptFlagPxn ≠ 0 then vmmFlagNoexec else 0) |||
  (if entry &&& ptFlagFb ≠ 0 then vmmFlagFb else 0)

def encoding : Encoding where
  isTable _ := ptIsTable
  isLarge := ptIsLarge
  toVmmFlags := ptToVmmFlags
  pteNew := pteNew dsEncoding
  pteAddr := pteAddr dsEncoding
  tableFlags := ptTableFlags
  maxLevel := 3

structure Pagemap where
  levels : Nat
  topLevel : Nat → Nat

def pagingMode5Lvl : Nat := 1

def newPagemap (pagingMode : Nat) : VmmM Pagemap := do
  let topLevel0 ← extMemAlloc
  let topLevel1 ← extMemAlloc
  return ⟨if pagingMode = pagingMode5Lvl then 5 else 4, fun half => if half = 0 then topLevel0 else topLevel1⟩

def realFlags (flags : PtEntry) : PtEntry :=
  ptFlagValid ||| ptFlagAccess ||| ptFlagWb |||
  -- under DS these bits are OA[51:50]
  (if dsEncoding then 0 else ptFlagInnerSh) |||
  (if flags &&& vmmFlagWrite = 0 then ptFlagReadonly else 0) |||
  (if flags &&& vmmFlagNoexec ≠ 0 then ptFlagPxn ||| ptFlagUxn else 0) |||
  (if flags &&& vmmFlagFb ≠ 0 then ptFlagFb else 0)

/-- The body of `map_page`, with `self` for the calls that `get_next_level` makes. -/
def mapPage (pagemap : Pagemap) (self : MapPage) : MapPage := fun virtAddr physAddr flags pgSize => do
  let pml5Entry := (virtAddr &&& (0xf <<< 48)) >>> 48
  let pml4Entry := (virtAddr &&& (0x1ff <<< 39)) >>> 39
  let pml3Entry := (virtAddr &&& (0x1ff <<< 30)) >>> 30
  let pml2Entry := (virtAddr &&& (0x1ff <<< 21)) >>> 21
  let pml1Entry := (virtAddr &&& (0x1ff <<< 12)) >>> 12
  let isHigherHalf := if virtAddr &&& (1 <<< 63) ≠ 0 then 1 else 0
  let realFlags := realFlags dsEncoding flags
  let getNextLevel := getNextLevel (encoding dsEncoding) self
  let topLevel := pagemap.topLevel isHigherHalf
  let pml4 ← if pagemap.levels = 5 then getNextLevel topLevel virtAddr pgSize 4 pml5Entry else pure topLevel
  let pml3 ← getNextLevel pml4 virtAddr pgSize 3 pml4Entry
  if pgSize = .size1GiB then
    writeEntry pml3 pml3Entry (pteNew dsEncoding physAddr (realFlags ||| ptFlagBlock))
  else do
    let pml2 ← getNextLevel pml3 virtAddr pgSize 2 pml3Entry
    if pgSize = .size2MiB then
      writeEntry pml2 pml2Entry (pteNew dsEncoding physAddr (realFlags ||| ptFlagBlock))
    else do
      let pml1 ← getNextLevel pml2 virtAddr pgSize 1 pml2Entry
      writeEntry pml1 pml1Entry (pteNew dsEncoding physAddr (realFlags ||| ptFlag4kPage))

end

/-! ## The hardware -/

structure Page where
  phys : Nat
  readOnly : Bool
  pxn : Bool
  uxn : Bool
  /-- the index into `MAIR_EL1` -/
  attrIndx : Nat
deriving DecidableEq, Repr

/-- What the table descriptors on the way forbid. -/
structure TableAttr where
  readOnly : Bool
  pxn : Bool
  uxn : Bool

/-- The output address of a descriptor of level `k`. -/
def outputAddress (ds : Bool) (k : Nat) (e : PtEntry) : Nat :=
  if ds then ((e &&& bitWindow (12 + 9 * k) 50) ||| ((e &&& bitWindow 8 10) <<< 42)).toNat
  else (e &&& bitWindow (12 + 9 * k) 48).toNat

def hwLeaf (ds : Bool) (v : Nat) (acc : TableAttr) (k : Nat) (e : PtEntry) : HwStep TableAttr Page :=
  if e.getLsbD 10 then
    .done ⟨outputAddress ds k e + v % pageBytes k, acc.readOnly || e.getLsbD 7, acc.pxn || e.getLsbD 53,
      acc.uxn || e.getLsbD 54, ((e &&& bitWindow 2 5) >>> 2).toNat⟩
  else .fault .access

/-- Bit 1 tells pages and tables from blocks, of which there are none at the last level and, but
for 512 GiB blocks under DS, none above 1 GiB. -/
def hwStep (ds : Bool) (v : Nat) (acc : TableAttr) (k : Nat) (e : PtEntry) : HwStep TableAttr Page :=
  if !e.getLsbD 0 then .fault .notMapped
  else if k = 0 then if e.getLsbD 1 then hwLeaf ds v acc 0 e else .fault .reserved
  else if e.getLsbD 1 then
    .next ⟨acc.readOnly || e.getLsbD 62, acc.pxn || e.getLsbD 59, acc.uxn || e.getLsbD 60⟩
      (outputAddress ds 0 e)
  else if k ≤ 2 ∨ k = 3 ∧ ds then hwLeaf ds v acc k e
  else .fault .reserved

/-- The walk: 48 virtual bits below each `TTBR`, or 52 under DS, the bits above being equal. -/
def hwTranslate (ds : Bool) (s : Memory) (pagemap : Pagemap) (v : Nat) : Except Fault Page :=
  let bits := if ds then 52 else 48
  if v < 2 ^ bits ∨ 2 ^ 64 - 2 ^ bits ≤ v then
    hwWalk (hwStep ds v) s.mem (fun k => v % 2 ^ bits / 2 ^ (12 + 9 * k) % 512) (if ds then 4 else 3)
      ⟨false, false, false⟩ (pagemap.topLevel (v / 2 ^ 63))
  else .error .notMapped

/-! ## Entries -/

variable {ds : Bool}

def leafFlags (ds : Bool) (k : Nat) (a : Attr) : PtEntry :=
  realFlags ds (a.toFlags vmmFlagWrite vmmFlagNoexec vmmFlagFb) |||
    if k = 0 then ptFlag4kPage else ptFlagBlock

/-- The bits of the physical addresses, and of the fields they are put in. -/
def paBits (ds : Bool) : Nat := if ds then 52 else 48

def fieldMask (ds : Bool) (k : Nat) : PtEntry :=
  if ds then bitWindow (12 + 9 * k) 50 ||| ptOaHighMask else bitWindow (12 + 9 * k) 48

theorem pteNew_eq (ds : Bool) (addr : Nat) (flags : PtEntry) :
    pteNew ds addr flags = pteNew ds addr 0 ||| flags := by
  have h0 : (0 : PtEntry) = 0#64 := rfl
  unfold pteNew
  cases ds
  · rw [if_neg Bool.false_ne_true, if_neg Bool.false_ne_true, h0, BitVec.or_zero]
  · rw [if_pos rfl, if_pos rfl, h0, BitVec.or_zero]

/-- How the masks of the two formats meet. -/
theorem masks_spec : ∀ k, k < 3 → ∀ j, j ≤ k →
    (bitWindow (12 + 9 * k) 52 &&& (ptPaddrMaskDs &&& bitWindow (12 + 9 * j) 50) : PtEntry) =
      bitWindow (12 + 9 * k) 52 &&& ptPaddrMaskDs ∧
    (bitWindow (12 + 9 * k) 48 &&& (ptPaddrMask &&& bitWindow (12 + 9 * j) 48) : PtEntry) =
      bitWindow (12 + 9 * k) 48 ∧
    (ptOaHighMask &&& bitWindow (12 + 9 * j) 50 : PtEntry) = 0#64 ∧
    (fieldMask true 0 &&& bitWindow (12 + 9 * j) 50 : PtEntry) = bitWindow (12 + 9 * j) 50 ∧
    (fieldMask false 0 &&& bitWindow (12 + 9 * j) 48 : PtEntry) = bitWindow (12 + 9 * j) 48 ∧
    (bitWindow (12 + 9 * k) 52 &&& (ptPaddrMaskDs ||| ptOaHighMask <<< 42) : PtEntry) =
      bitWindow (12 + 9 * k) 52 := by
  decide

/-- The address of a page and flags outside the address field: the hardware finds the address. -/
theorem outputAddress_pteNew {j k a : Nat} {c : PtEntry} (hk : k < 3) (hj : j ≤ k) (hd : pageBytes k ∣ a)
    (hlt : a < 2 ^ paBits ds) (hc : c &&& fieldMask ds 0 = 0#64) :
    outputAddress ds j (pteNew ds a c) = a := by
  obtain ⟨h1, h2, h3, h4, h5, h6⟩ := masks_spec k hk j hj
  unfold outputAddress pteNew
  cases ds with
  | false =>
    have hx : Within (BitVec.ofNat 64 a) (bitWindow (12 + 9 * k) 48) := within_ofNat hd hlt
    have hcw : c &&& bitWindow (12 + 9 * j) 48 = 0#64 := by
      rw [← h5, ← BitVec.and_assoc, hc, BitVec.zero_and]
    rw [if_neg Bool.false_ne_true, if_neg Bool.false_ne_true, BitVec.and_or_distrib_right, BitVec.and_assoc,
      hx.and_eq_self h2, hcw, BitVec.or_zero]
    exact toNat_ofNat_of_lt hlt (by decide)
  | true =>
    have hx : Within (BitVec.ofNat 64 a) (bitWindow (12 + 9 * k) 52) := within_ofNat hd hlt
    have hcw : c &&& bitWindow (12 + 9 * j) 50 = 0#64 := by
      rw [← h4, ← BitVec.and_assoc, hc, BitVec.zero_and]
    have hco : c &&& bitWindow 8 10 = 0#64 := by
      rw [show (bitWindow 8 10 : PtEntry) = fieldMask true 0 &&& bitWindow 8 10 by decide, ← BitVec.and_assoc,
        hc, BitVec.zero_and]
    rw [if_pos rfl, if_pos rfl]
    -- the low field gives the bits up to 49, the high field bits 50 and 51
    have hlow : ((BitVec.ofNat 64 a &&& ptPaddrMaskDs) ||| ((BitVec.ofNat 64 a >>> ptOaHighShift) &&& ptOaHighMask)
        ||| c) &&& bitWindow (12 + 9 * j) 50 = BitVec.ofNat 64 a &&& ptPaddrMaskDs := by
      rw [BitVec.and_or_distrib_right, BitVec.and_or_distrib_right, BitVec.and_assoc, hx.and_congr h1,
        BitVec.and_assoc, h3, hcw, BitVec.and_zero, BitVec.or_zero, BitVec.or_zero]
    have hhigh : ((BitVec.ofNat 64 a &&& ptPaddrMaskDs) ||| ((BitVec.ofNat 64 a >>> ptOaHighShift) &&& ptOaHighMask)
        ||| c) &&& bitWindow 8 10 = (BitVec.ofNat 64 a >>> ptOaHighShift) &&& ptOaHighMask := by
      rw [BitVec.and_or_distrib_right, BitVec.and_or_distrib_right, BitVec.and_assoc, BitVec.and_assoc,
        show ptPaddrMaskDs &&& bitWindow 8 10 = 0#64 by decide,
        show ptOaHighMask &&& bitWindow 8 10 = ptOaHighMask by decide, hco, BitVec.and_zero, BitVec.zero_or,
        BitVec.or_zero]
    rw [hlow, hhigh]
    unfold ptOaHighShift
    rw [shift_field, ← BitVec.and_or_distrib_left, hx.and_eq_self h6]
    exact toNat_ofNat_of_lt hlt (by decide)

theorem pteAddr_eq (e : PtEntry) : pteAddr ds e = outputAddress ds 0 e := by
  have h1 : ptPaddrMaskDs = bitWindow 12 50 := by decide
  have h2 : ptOaHighMask = bitWindow 8 10 := by decide
  have h3 : ptPaddrMask = bitWindow 12 48 := by decide
  unfold pteAddr outputAddress
  rw [h1, h2, h3]
  rfl

theorem pteNew_within (ds : Bool) (a : Nat) : Within (pteNew ds a 0) (fieldMask ds 0) := by
  have h0 : (0 : PtEntry) = 0#64 := rfl
  unfold Within pteNew
  cases ds with
  | false =>
    rw [if_neg Bool.false_ne_true, h0, BitVec.or_zero, BitVec.and_assoc,
      show ptPaddrMask &&& fieldMask false 0 = ptPaddrMask by decide]
  | true =>
    rw [if_pos rfl, h0, BitVec.or_zero, BitVec.and_or_distrib_right, BitVec.and_assoc, BitVec.and_assoc,
      show ptPaddrMaskDs &&& fieldMask true 0 = ptPaddrMaskDs by decide,
      show ptOaHighMask &&& fieldMask true 0 = ptOaHighMask by decide]

/-- Outside the address field an entry holds its flags. -/
theorem pteNew_and (a : Nat) {c m : PtEntry} (hm : fieldMask ds 0 &&& m = 0#64) :
    pteNew ds a c &&& m = c &&& m := by
  rw [pteNew_eq]
  exact (pteNew_within ds a).or_and_flags hm

theorem pteNew_getLsbD (a : Nat) {c : PtEntry} {i : Nat} (hi : (fieldMask ds 0).getLsbD i = false) :
    (pteNew ds a c).getLsbD i = c.getLsbD i := by
  rw [pteNew_eq]
  exact (pteNew_within ds a).getLsbD_or hi

/-- What the macros read from the flags of a block. -/
theorem blockFlags_spec (a : Attr) : ∀ ds,
    ptIsTable (leafFlags ds 1 a) = false ∧ ptIsLarge (leafFlags ds 1 a) = true ∧
    ptToVmmFlags (leafFlags ds 1 a) = a.toFlags vmmFlagWrite vmmFlagNoexec vmmFlagFb := by
  revert a
  refine Attr.forall_of ?_
  decide

/-- What the hardware reads from the flags of a leaf. -/
theorem leafFlags_hw (a : Attr) : ∀ ds k, k < 3 →
    (leafFlags ds k a).getLsbD 0 = true ∧ (leafFlags ds k a).getLsbD 1 = decide (k = 0) ∧
    (leafFlags ds k a).getLsbD 10 = true ∧ (leafFlags ds k a).getLsbD 7 = !a.write ∧
    (leafFlags ds k a).getLsbD 53 = a.noexec ∧ (leafFlags ds k a).getLsbD 54 = a.noexec ∧
    ((leafFlags ds k a &&& bitWindow 2 5) >>> 2).toNat = a.fb.toNat ∧
    leafFlags ds k a &&& fieldMask ds 0 = 0#64 := by
  revert a
  refine Attr.forall_of ?_
  decide

/-- The address field misses the bits that hold the flags. -/
theorem fieldMask_spec : ∀ ds,
    fieldMask ds 0 &&& (ptFlagValid ||| ptFlagTable) = 0#64 ∧ fieldMask ds 0 &&& ptFlagReadonly = 0#64 ∧
    fieldMask ds 0 &&& ptFlagPxn = 0#64 ∧ fieldMask ds 0 &&& ptFlagFb = 0#64 ∧
    fieldMask ds 0 &&& bitWindow 2 5 = 0#64 ∧
    ∀ i ∈ [0, 1, 7, 10, 53, 54, 59, 60, 62], (fieldMask ds 0).getLsbD i = false := by
  decide

theorem ptTableFlags_spec : ∀ ds,
    ptIsTable ptTableFlags = true ∧ ptTableFlags &&& fieldMask ds 0 = 0#64 ∧
    ptTableFlags.getLsbD 0 = true ∧ ptTableFlags.getLsbD 1 = true ∧ ptTableFlags.getLsbD 62 = false ∧
    ptTableFlags.getLsbD 59 = false ∧ ptTableFlags.getLsbD 60 = false := by
  decide

def PageOk (ds : Bool) (q : Nat) : Prop := 0x1000 ∣ q ∧ q < 2 ^ paBits ds

instance (ds : Bool) (q : Nat) : Decidable (PageOk ds q) := inferInstanceAs (Decidable (_ ∧ _))

def LeafOk (ds : Bool) (k : Nat) (l : Leaf) : Prop := k < 3 ∧ Fits (2 ^ paBits ds) k l

def format (ds : Bool) : Format (encoding ds) where
  leafEntry k l := pteNew ds l.phys (leafFlags ds k l.attr)
  flagsOf := Attr.toFlags vmmFlagWrite vmmFlagNoexec vmmFlagFb
  LeafOk := LeafOk ds
  PageOk := PageOk ds
  Splits _ _ := True
  maxLevel_le := show 3 ≤ 5 by decide
  isTable_zero _ := show ptIsTable 0 = false by decide
  isLarge_zero := show ptIsLarge 0 = false by decide
  isTable_table k q h := by
    show ptIsTable (pteNew ds q ptTableFlags) = true
    unfold ptIsTable
    rw [pteNew_and q (fieldMask_spec ds).1]
    exact (ptTableFlags_spec ds).1
  pteAddr_table q h :=
    (pteAddr_eq _).trans (outputAddress_pteNew (by decide : 0 < 3) (Nat.le_refl 0) h.1 h.2 (ptTableFlags_spec ds).2.1)
  isTable_leaf k l h := by
    show ptIsTable (pteNew ds l.phys (leafFlags ds 1 l.attr)) = false
    unfold ptIsTable
    rw [pteNew_and _ (fieldMask_spec ds).1]
    exact (blockFlags_spec l.attr ds).1
  isLarge_leaf k l h := by
    show ptIsLarge (pteNew ds l.phys (leafFlags ds 1 l.attr)) = true
    unfold ptIsLarge
    rw [pteNew_and _ (fieldMask_spec ds).1]
    exact (blockFlags_spec l.attr ds).2.1
  pteAddr_leaf k l h _ :=
    (pteAddr_eq _).trans (outputAddress_pteNew h.1 (Nat.zero_le _) h.2.aligned h.2.lt
      (leafFlags_hw l.attr ds (k + 1) h.1).2.2.2.2.2.2.2)
  toVmmFlags_leaf k l h _ := by
    rw [← (blockFlags_spec l.attr ds).2.2]
    show ptToVmmFlags (pteNew ds l.phys (leafFlags ds 1 l.attr)) = _
    unfold ptToVmmFlags
    rw [pteNew_and _ (fieldMask_spec ds).2.1, pteNew_and _ (fieldMask_spec ds).2.2.1,
      pteNew_and _ (fieldMask_spec ds).2.2.2.1]
  lt_maxLevel k l h := h.1
  aligned k l h := h.2.aligned
  leafOk_split k l d i h hd hi hdvd := ⟨Nat.lt_trans hd h.1, h.2.split hd hi hdvd⟩

/-! ## `map_page` -/

def space (ds : Bool) : AddressSpace where
  levels := if ds then 4 else 3
  half := if ds then 52 else 48
  bits := if ds then 52 else 48
  twoTrees := true
  levels_le := by cases ds <;> decide
  half_le := Nat.le_refl _
  bits_le := by cases ds <;> decide
  half_lt := by intro h; cases h
  bits_lt := by cases ds <;> decide

theorem and_shift_top (v : Nat) : (v &&& (0xf <<< 48)) >>> 48 = v % 2 ^ 52 / 2 ^ 48 % 512 := by
  rw [Nat.shiftRight_and_distrib, Nat.shiftLeft_shiftRight, Nat.shiftRight_eq_div_pow]
  have h : v / 2 ^ 48 &&& 0xf = v / 2 ^ 48 % 16 := Nat.and_two_pow_sub_one_eq_mod _ 4
  rw [h]
  omega

theorem mapPage_isMapAt {pagemap : Pagemap} (hlevels : pagemap.levels = (space ds).levels + 1)
    (self : MapPage) {size : PageSize} (hsize : size.level ≤ 2) :
    IsMapAt (format ds) (space ds) pagemap.topLevel (LeafOk ds size.level) (mapPage ds pagemap self) self
      size := by
  intro virt l hv hl
  refine ⟨fun k => if k = 4 then virt % 2 ^ 52 / 2 ^ 48 % 512 else virt / 2 ^ (12 + 9 * k) % 512,
    fun j hj => ?_, ?_⟩
  · dsimp only
    split
    · next h4 =>
      subst h4
      cases ds with
      | false => exact absurd hj (by decide)
      | true => exact (AddressSpace.slotIndex_key hj virt).symm
    · next h4 =>
      refine (AddressSpace.slotIndex_key_of_le hj ?_ virt).symm
      cases ds with
      | false =>
        have hj3 : j ≤ 3 := hj
        show 12 + 9 * (j + 1) ≤ 48
        omega
      | true =>
        have hj4 : j ≤ 4 := hj
        show 12 + 9 * (j + 1) ≤ 52
        omega
  have htree : (space ds).tree virt = virt / 2 ^ 63 := rfl
  unfold mapPage mapAt
  simp only [and_shift_index, and_shift_top, higher_half_eq hv.lt, htree, hlevels]
  cases ds <;> cases size with
  | size4KiB => simp [descend, PageSize.level, space]; rfl
  | size2MiB => simp [descend, PageSize.level, space]; rfl
  | size1GiB => simp [descend, PageSize.level, space]; rfl
  | size512GiB => exact absurd hsize (by decide)
  | size256TiB => exact absurd hsize (by decide)

/-- `map_pages(pagemap, virt, phys, flags, count)` -/
def mapPages (ds : Bool) (pagemap : Pagemap) (c : MapCall) : VmmM Unit :=
  Vmm.mapPages (fun _ => true) (fixMapPage (mapPage ds pagemap) 2) c.virt c.phys
    (c.attr.toFlags vmmFlagWrite vmmFlagNoexec vmmFlagFb) c.count

/-- What `new_pagemap` makes of `ds_encoding`. -/
def dsOf (pagingMode : Nat) : Bool := pagingMode = pagingMode5Lvl

theorem newPagemap_spec (pagingMode : Nat) {s : Memory} (hs : SupplyOk (PageOk (dsOf pagingMode)) s.supply) :
    Runs (newPagemap pagingMode) s fun pm s' =>
      pm.levels = (space (dsOf pagingMode)).levels + 1 ∧
      Translates (format (dsOf pagingMode)) (space (dsOf pagingMode)) pm.topLevel (fun _ => none) s' := by
  unfold newPagemap
  refine Runs.extMemAlloc fun p ps hp => Runs.extMemAlloc fun q qs hq => Runs.pure ⟨?_, ?_⟩
  · by_cases h : pagingMode = pagingMode5Lvl <;> simp [dsOf, space, h]
  · exact Translates.twoRoots (F := format _) hs (hp.trans (congrArg (p :: ·) hq))

theorem mapPages_spec {pagemap : Pagemap} (hlevels : pagemap.levels = (space ds).levels + 1) {c : MapCall}
    (hc : c.Ok (space ds) (2 ^ paBits ds)) {s : Memory} {f : Nat → Option Leaf}
    (ht : Translates (format ds) (space ds) pagemap.topLevel f s) :
    Runs (mapPages ds pagemap c) s fun _ s' =>
      Translates (format ds) (space ds) pagemap.topLevel (overlay c.virt c.phys c.count c.attr f) s' := by
  have hlev : 2 ≤ (space ds).levels := by cases ds <;> decide
  refine Vmm.mapPages_spec (F := format ds) (fun size hsize => fixMapPage_mapsPage
    (fun self => mapPage_isMapAt hlevels self hsize) (Nat.le_trans hsize hlev) (fun _ _ _ _ => trivial) 0)
    (hc.callOk fun size l hsize hl _ => ⟨Nat.lt_succ_of_le hsize, hl⟩) ht

/-! ## The hardware's view -/

def pageOf (l : Leaf) : Page := ⟨l.phys, !l.attr.write, l.attr.noexec, l.attr.noexec, l.attr.fb.toNat⟩

theorem hwStep_table (v : Nat) {q : Nat} (h : PageOk ds q) (k : Nat) :
    hwStep ds v ⟨false, false, false⟩ (k + 1) (pteNew ds q ptTableFlags) = .next ⟨false, false, false⟩ q := by
  have hbit : ∀ i ∈ [0, 1, 7, 10, 53, 54, 59, 60, 62],
      (pteNew ds q ptTableFlags).getLsbD i = ptTableFlags.getLsbD i :=
    fun i hi => pteNew_getLsbD q ((fieldMask_spec ds).2.2.2.2.2 i hi)
  obtain ⟨-, hflags, h0, h1, h62, h59, h60⟩ := ptTableFlags_spec ds
  unfold hwStep
  rw [hbit 0 (by decide), hbit 1 (by decide), hbit 62 (by decide), hbit 59 (by decide), hbit 60 (by decide),
    h0, h1, h62, h59, h60, outputAddress_pteNew (by decide : 0 < 3) (Nat.le_refl 0) h.1 h.2 hflags]
  rfl

theorem hwStep_leaf (v : Nat) {k : Nat} {l : Leaf} (h : LeafOk ds k l) :
    hwStep ds v ⟨false, false, false⟩ k (pteNew ds l.phys (leafFlags ds k l.attr)) =
      .done (pageOf ⟨l.phys + v % pageBytes k, l.attr⟩) := by
  have hbit : ∀ i ∈ [0, 1, 7, 10, 53, 54, 59, 60, 62],
      (pteNew ds l.phys (leafFlags ds k l.attr)).getLsbD i = (leafFlags ds k l.attr).getLsbD i :=
    fun i hi => pteNew_getLsbD l.phys ((fieldMask_spec ds).2.2.2.2.2 i hi)
  obtain ⟨h0, h1, h10, h7, h53, h54, hattr, hflags⟩ := leafFlags_hw l.attr ds k h.1
  have hleaf : hwLeaf ds v ⟨false, false, false⟩ k (pteNew ds l.phys (leafFlags ds k l.attr)) =
      .done (pageOf ⟨l.phys + v % pageBytes k, l.attr⟩) := by
    unfold hwLeaf pageOf
    rw [hbit 10 (by decide), hbit 7 (by decide), hbit 53 (by decide), hbit 54 (by decide), h10, h7, h53, h54,
      pteNew_and _ (fieldMask_spec ds).2.2.2.2.1, hattr,
      outputAddress_pteNew h.1 (Nat.le_refl k) h.2.aligned h.2.lt hflags]
    rfl
  rw [← hleaf]
  unfold hwStep
  rw [hbit 0 (by decide), hbit 1 (by decide), h0, h1]
  by_cases hk : k = 0
  · subst hk
    rfl
  · have hk2 : k ≤ 2 := Nat.le_of_lt_succ h.1
    simp [hk, hk2]

/-- The hardware sees what the trees translate. -/
theorem hwTranslate_eq {pagemap : Pagemap} {s : Memory} {f : Nat → Option Leaf}
    (ht : Translates (format ds) (space ds) pagemap.topLevel f s) {v : Nat} (hv : (space ds).Valid v) :
    hwTranslate ds s pagemap v =
      match f v with
      | none => .error .notMapped
      | some l => .ok (pageOf l) := by
  have hcanon : v < 2 ^ (space ds).bits ∨ 2 ^ 64 - 2 ^ (space ds).bits ≤ v := hv.imp_right And.left
  have hhw := ht.hardware (hwStep ds v) ⟨false, false, false⟩ pageOf
    (fun k => v % 2 ^ (space ds).bits / 2 ^ (12 + 9 * k) % 512) hv
    (fun k => rfl) (fun k q hq => hwStep_table v hq k) (fun k l hl => hwStep_leaf v hl)
    fun k hk => (AddressSpace.slotIndex_key hk v).symm
  unfold hwTranslate
  exact (if_pos hcanon).trans hhw

/-- A new pagemap filled by calls of `map_pages` is to the hardware the overlay of the calls. -/
theorem aarch64_overlay (pagingMode : Nat) {s : Memory}
    (hs : SupplyOk (PageOk (dsOf pagingMode)) s.supply) {calls : List MapCall}
    (hcalls : ∀ c ∈ calls, c.Ok (space (dsOf pagingMode)) (2 ^ paBits (dsOf pagingMode))) :
    Runs (buildPagemap (newPagemap pagingMode) (mapPages (dsOf pagingMode)) calls) s fun pagemap s' =>
      ∀ v, v < 2 ^ 64 →
        hwTranslate (dsOf pagingMode) s' pagemap v =
          match lastCall calls v with
          | none => .error .notMapped
          | some c => .ok ⟨c.phys + (v - c.virt), !c.attr.write, c.attr.noexec, c.attr.noexec,
              c.attr.fb.toNat⟩ := by
  refine (buildPagemap_spec Pagemap.topLevel (newPagemap_spec pagingMode hs)
    fun pm hlevels c hc s f => mapPages_spec hlevels (hcalls c hc)).imp fun pagemap s' ⟨_, ht⟩ v hlt => ?_
  generalize dsOf pagingMode = ds at *
  by_cases hvalid : (space ds).Valid v
  · rw [hwTranslate_eq ht hvalid]
    unfold lastLeaf
    cases lastCall calls v <;> rfl
  · rw [lastCall_eq_none hcalls hvalid]
    unfold hwTranslate
    exact if_neg fun h => hvalid (h.imp_right fun h' => ⟨h', hlt⟩)

theorem aarch64_overlay_overlap :
    ∃ pagemap s,
      buildPagemap (newPagemap pagingMode5Lvl) (mapPages (dsOf pagingMode5Lvl)) (overlapCalls true)
        eightPages = .ok (pagemap, s) ∧
      hwTranslate true s pagemap 0x200123 = .ok ⟨0x6123, false, false, false, 1⟩ ∧
      hwTranslate true s pagemap 0x201123 = .ok ⟨0x9123, true, true, true, 0⟩ ∧
      hwTranslate true s pagemap 0x202123 = .error .notMapped := by
  have hs : SupplyOk (PageOk (dsOf pagingMode5Lvl)) eightPages.supply := ⟨by decide, by decide⟩
  have hcalls : ∀ c ∈ overlapCalls true,
      c.Ok (space (dsOf pagingMode5Lvl)) (2 ^ paBits (dsOf pagingMode5Lvl)) := by decide
  obtain ⟨pagemap, s, hrun, h⟩ := Runs.exists_ok (aarch64_overlay pagingMode5Lvl hs) hcalls (by decide +kernel)
  exact ⟨pagemap, s, hrun, h 0x200123 (by decide), h 0x201123 (by decide), h 0x202123 (by decide)⟩

end Limine.Vmm.AArch64
