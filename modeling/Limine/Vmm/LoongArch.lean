import Limine.Lib.BitWindow
import Limine.Vmm.Walk

/-!
# LoongArch

Tables carry no flag at all, and the global bit of a 4 KiB leaf is the huge bit of a larger one,
whose own global bit is bit 12.  `hwStep` follows `LDDIR` and `LDPTE`.
-/

namespace Limine.Vmm.LoongArch

open Limine.Lib

/-! ## The source -/

def invalidPage : PtEntry := 0

def ptFlagValid : PtEntry := 1 <<< 0
def ptFlagDirty : PtEntry := 1 <<< 1
def ptFlagMatCc : PtEntry := 1 <<< 4
def ptFlagMatWuc : PtEntry := 1 <<< 5
def ptFlagGlobal : PtEntry := 1 <<< 6
def ptFlagHuge : PtEntry := 1 <<< 6
def ptFlagWrite : PtEntry := 1 <<< 8
def ptFlagHglobal : PtEntry := 1 <<< 12
def ptFlagNx : PtEntry := 1 <<< 62
def ptPaddrMask : PtEntry := 0x0000FFFFFFFFF000

/-- A huge entry stores `PA[PALEN-1:log2PageSize]`: 2 MiB at a 4 KiB granule. -/
def ptPaddrHmask : PtEntry := 0x0000FFFFFFE00000

def vmmFlagWrite : PtEntry := 1 <<< 0
def vmmFlagNoexec : PtEntry := 1 <<< 1
def vmmFlagFb : PtEntry := 1 <<< 2

def ptIsTable (levelIdx : Nat) (x : PtEntry) : Bool :=
  levelIdx > 0 && x &&& ptFlagValid == 0 && x != invalidPage

def ptIsLarge (x : PtEntry) : Bool :=
  x &&& (ptFlagHglobal ||| ptFlagHuge) == ptFlagHglobal ||| ptFlagHuge

def pteNew (addr : Nat) (flags : PtEntry) : PtEntry := BitVec.ofNat 64 addr ||| flags

def pteAddr (pte : PtEntry) : Nat :=
  if ptIsLarge pte then (pte &&& ptPaddrHmask).toNat else (pte &&& ptPaddrMask).toNat

def ptToVmmFlags (entry : PtEntry) : PtEntry :=
  (if entry &&& ptFlagWrite ≠ 0 then vmmFlagWrite else 0) |||
  (if entry &&& ptFlagNx ≠ 0 then vmmFlagNoexec else 0) |||
  (if entry &&& ptFlagMatWuc ≠ 0 then vmmFlagFb else 0)

def encoding : Encoding where
  isTable := ptIsTable
  isLarge := ptIsLarge
  toVmmFlags := ptToVmmFlags
  pteNew := pteNew
  pteAddr := pteAddr
  tableFlags := 0
  maxLevel := 3

structure Pagemap where
  pgd : Nat → Nat

def valen (cpucfgVal : BitVec 32) : Nat := ((cpucfgVal >>> 12) &&& 0xff).toNat + 1

def newPagemap (cpucfgVal : BitVec 32) : VmmM Pagemap :=
  if valen cpucfgVal < 48 then panic "vmm: VALEN values < 48 not currently supported"
  else do
    let pgd0 ← extMemAlloc
    let pgd1 ← extMemAlloc
    return ⟨fun half => if half = 0 then pgd0 else pgd1⟩

def realFlags (flags : PtEntry) : PtEntry :=
  ptFlagValid ||| ptFlagGlobal |||
  (if flags &&& vmmFlagWrite ≠ 0 then ptFlagDirty ||| ptFlagWrite else 0) |||
  (if flags &&& vmmFlagNoexec ≠ 0 then ptFlagNx else 0) |||
  (if flags &&& vmmFlagFb ≠ 0 then ptFlagMatWuc else ptFlagMatCc)

/-- The body of `map_page`, with `self` for the calls that `get_next_level` makes. -/
def mapPage (pagemap : Pagemap) (self : MapPage) : MapPage := fun virtAddr physAddr flags pgSize => do
  let pml4Entry := (virtAddr &&& (0x1ff <<< 39)) >>> 39
  let pml3Entry := (virtAddr &&& (0x1ff <<< 30)) >>> 30
  let pml2Entry := (virtAddr &&& (0x1ff <<< 21)) >>> 21
  let pml1Entry := (virtAddr &&& (0x1ff <<< 12)) >>> 12
  let isHigherHalf := if virtAddr &&& (1 <<< 63) ≠ 0 then 1 else 0
  let realFlags := realFlags flags
  let getNextLevel := getNextLevel encoding self
  let pml4 := pagemap.pgd isHigherHalf
  let pml3 ← getNextLevel pml4 virtAddr pgSize 3 pml4Entry
  if pgSize = .size1GiB then
    writeEntry pml3 pml3Entry (pteNew physAddr (realFlags ||| ptFlagHglobal ||| ptFlagHuge))
  else do
    let pml2 ← getNextLevel pml3 virtAddr pgSize 2 pml3Entry
    if pgSize = .size2MiB then
      writeEntry pml2 pml2Entry (pteNew physAddr (realFlags ||| ptFlagHglobal ||| ptFlagHuge))
    else do
      let pml1 ← getNextLevel pml2 virtAddr pgSize 1 pml2Entry
      writeEntry pml1 pml1Entry (pteNew physAddr realFlags)

/-! ## The hardware -/

inductive MemoryType
  | suc
  | cc
  | wuc
  | reserved
deriving DecidableEq, Repr

structure Page where
  phys : Nat
  writable : Bool
  dirty : Bool
  noexec : Bool
  memoryType : MemoryType
  isGlobal : Bool
deriving DecidableEq, Repr

/-- `MAT`, bits 5:4. -/
def memoryType (e : PtEntry) : MemoryType :=
  match e.getLsbD 5, e.getLsbD 4 with
  | false, false => .suc
  | false, true => .cc
  | true, false => .wuc
  | true, true => .reserved

/-- The page of a leaf of level `k`, which has its address in bits 47 to `12 + 9 * k`. -/
def hwLeaf (v k : Nat) (isGlobal : Bool) (e : PtEntry) : HwStep Unit Page :=
  if e.getLsbD 0 then
    .done ⟨(e &&& bitWindow (12 + 9 * k) 48).toNat + v % pageBytes k, e.getLsbD 8, e.getLsbD 1,
      e.getLsbD 62, memoryType e, isGlobal⟩
  else .fault .notMapped

/-- A directory entry is a leaf if its huge bit is set, and else the address of a table; the
invalid page has none. -/
def hwStep (v : Nat) (_ : Unit) : Nat → PtEntry → HwStep Unit Page
  | 0, e => hwLeaf v 0 (e.getLsbD 6) e
  | k + 1, e =>
    if e.getLsbD 6 then hwLeaf v (k + 1) (e.getLsbD 12) e
    else if e = invalidPage then .fault .notMapped
    else .next () (e &&& bitWindow 12 48).toNat

/-- The walk; the address must be the sign extension of its low `VALEN` bits. -/
def hwTranslate (valen : Nat) (s : Memory) (pagemap : Pagemap) (v : Nat) : Except Fault Page :=
  if v < 2 ^ (valen - 1) ∨ 2 ^ 64 - 2 ^ (valen - 1) ≤ v then
    hwWalk (hwStep v) s.mem (fun k => v / 2 ^ (12 + 9 * k) % 512) 3 () (pagemap.pgd (v / 2 ^ 63))
  else .error .notMapped

/-! ## Entries -/

/-- The flags of a leaf of level `k`. -/
def leafFlags (k : Nat) (a : Attr) : PtEntry :=
  let flags := realFlags (a.toFlags vmmFlagWrite vmmFlagNoexec vmmFlagFb)
  if k = 0 then flags else flags ||| ptFlagHglobal ||| ptFlagHuge

theorem hugeFlags_spec (a : Attr) :
    leafFlags 1 a &&& ptFlagValid ≠ 0 ∧ ptIsLarge (leafFlags 1 a) = true ∧
    leafFlags 1 a &&& ptPaddrHmask = 0 ∧
    ptToVmmFlags (leafFlags 1 a) = a.toFlags vmmFlagWrite vmmFlagNoexec vmmFlagFb := by
  revert a
  refine Attr.forall_of ?_
  decide

/-- What the hardware reads from the flags. -/
theorem leafFlags_hw (a : Attr) : ∀ k, k < 3 →
    (leafFlags k a).getLsbD 0 = true ∧ (leafFlags k a).getLsbD 8 = a.write ∧
    (leafFlags k a).getLsbD 1 = a.write ∧ (leafFlags k a).getLsbD 62 = a.noexec ∧
    memoryType (leafFlags k a) = (if a.fb then .wuc else .cc) ∧ (leafFlags k a).getLsbD 6 = true ∧
    (0 < k → (leafFlags k a).getLsbD 12 = true) ∧ leafFlags k a &&& bitWindow (12 + 9 * k) 48 = 0 := by
  revert a
  refine Attr.forall_of ?_
  decide

/-- The addresses a table may have: those that are no invalid page. -/
def PageOk (q : Nat) : Prop := 0x1000 ∣ q ∧ 0 < q ∧ q < 2 ^ 48

instance (q : Nat) : Decidable (PageOk q) := inferInstanceAs (Decidable (_ ∧ _))

def LeafOk (k : Nat) (l : Leaf) : Prop := k < 3 ∧ Fits (2 ^ 48) k l

theorem PageOk.toNat {q : Nat} (h : PageOk q) : (BitVec.ofNat 64 q).toNat = q :=
  toNat_ofNat_of_lt h.2.2 (by decide)

theorem PageOk.within {q : Nat} (h : PageOk q) : Within (BitVec.ofNat 64 q) (bitWindow 12 48) :=
  within_ofNat h.1 h.2.2

theorem pteNew_table (q : Nat) : pteNew q 0 = BitVec.ofNat 64 q := BitVec.or_zero

theorem ptIsTable_table {q : Nat} (h : PageOk q) (k : Nat) : ptIsTable (k + 1) (pteNew q 0) = true := by
  have hv : BitVec.ofNat 64 q &&& ptFlagValid = 0 := h.within.and_eq_zero (by decide)
  have hne : BitVec.ofNat 64 q ≠ invalidPage := by
    intro h0
    have hq := h.toNat
    rw [h0] at hq
    exact absurd hq.symm (Nat.ne_of_gt h.2.1)
  unfold ptIsTable
  rw [pteNew_table, hv]
  simp [hne]

/-- A table's address has the huge bit clear. -/
theorem ptIsLarge_table {q : Nat} (h : PageOk q) : ptIsLarge (BitVec.ofNat 64 q) = false := by
  refine beq_eq_false_iff_ne.mpr fun he => ?_
  have hhuge := congrArg (fun e => e &&& ptFlagHuge) he
  rw [BitVec.and_assoc, h.within.and_eq_zero (by decide)] at hhuge
  exact absurd hhuge (by decide)

theorem pteAddr_table {q : Nat} (h : PageOk q) : pteAddr (pteNew q 0) = q := by
  unfold pteAddr
  rw [pteNew_table, ptIsLarge_table h, if_neg Bool.false_ne_true, h.within.and_eq_self (by decide),
    h.toNat]

/-- What the macros read from a larger leaf. -/
theorem ptIsLarge_huge {k : Nat} {l : Leaf} (h : Fits (2 ^ 48) (k + 1) l) :
    ptIsLarge (pteNew l.phys (leafFlags (k + 1) l.attr)) = true := by
  have hw := h.within (show 21 ≤ 12 + 9 * (k + 1) by omega)
  unfold ptIsLarge pteNew
  rw [hw.or_and_flags (by decide)]
  exact (hugeFlags_spec l.attr).2.1

theorem pteAddr_huge {k : Nat} {l : Leaf} (h : Fits (2 ^ 48) (k + 1) l) :
    pteAddr (pteNew l.phys (leafFlags (k + 1) l.attr)) = l.phys := by
  have hw := h.within (show 21 ≤ 12 + 9 * (k + 1) by omega)
  unfold pteAddr
  rw [ptIsLarge_huge h, if_pos rfl]
  unfold pteNew
  have hflags : leafFlags (k + 1) l.attr &&& ptPaddrHmask = 0 := (hugeFlags_spec l.attr).2.2.1
  rw [hw.or_and_value (by decide) hflags, h.toNat (by decide)]

def format : Format encoding where
  leafEntry k l := pteNew l.phys (leafFlags k l.attr)
  flagsOf := Attr.toFlags vmmFlagWrite vmmFlagNoexec vmmFlagFb
  LeafOk := LeafOk
  PageOk := PageOk
  Splits _ _ := True
  maxLevel_le := by decide
  isTable_zero := by intro k; simp [encoding, ptIsTable, invalidPage]
  isLarge_zero := by decide
  isTable_table k q h := ptIsTable_table h k
  pteAddr_table q h := pteAddr_table h
  isTable_leaf k l h := by
    have hw := h.2.within (show 21 ≤ 12 + 9 * (k + 1) by omega)
    have hv : pteNew l.phys (leafFlags (k + 1) l.attr) &&& ptFlagValid ≠ 0 := by
      unfold pteNew
      rw [hw.or_and_flags (by decide)]
      exact (hugeFlags_spec l.attr).1
    show ptIsTable (k + 1) (pteNew l.phys (leafFlags (k + 1) l.attr)) = false
    unfold ptIsTable
    rw [beq_eq_false_iff_ne.mpr hv, Bool.and_false, Bool.false_and]
  isLarge_leaf k l h := ptIsLarge_huge h.2
  pteAddr_leaf k l h _ := pteAddr_huge h.2
  toVmmFlags_leaf k l h _ := by
    have hw := h.2.within (show 21 ≤ 12 + 9 * (k + 1) by omega)
    rw [← (hugeFlags_spec l.attr).2.2.2]
    show ptToVmmFlags (BitVec.ofNat 64 l.phys ||| _) = _
    unfold ptToVmmFlags
    rw [hw.or_and_flags (by decide), hw.or_and_flags (by decide), hw.or_and_flags (by decide)]
    rfl
  lt_maxLevel k l h := h.1
  aligned k l h := h.2.aligned
  leafOk_split k l d i h hd hi hdvd := ⟨Nat.lt_trans hd h.1, h.2.split hd hi hdvd⟩

/-! ## `map_page` -/

def space : AddressSpace where
  levels := 3
  half := 47
  bits := 48
  twoTrees := true
  levels_le := by decide
  half_le := by decide
  bits_le := by decide
  half_lt := by decide
  bits_lt := by decide

theorem mapPage_isMapAt (pagemap : Pagemap) (self : MapPage) {size : PageSize} (hsize : size.level ≤ 2) :
    IsMapAt format space pagemap.pgd (LeafOk size.level) (mapPage pagemap self) self size := by
  intro virt l hv hl
  refine ⟨fun k => virt / 2 ^ (12 + 9 * k) % 512, fun j hj => ?_, ?_⟩
  · have hj3 : j ≤ 3 := hj
    exact (AddressSpace.slotIndex_key_of_le hj (show 12 + 9 * (j + 1) ≤ 48 by omega) virt).symm
  have htree : space.tree virt = virt / 2 ^ 63 := rfl
  unfold mapPage mapAt
  simp only [and_shift_index, higher_half_eq hv.lt, htree]
  cases size with
  | size4KiB => simp [descend, PageSize.level, space]; rfl
  | size2MiB => simp [descend, PageSize.level, space]; rfl
  | size1GiB => simp [descend, PageSize.level, space]; rfl
  | size512GiB => exact absurd hsize (by decide)
  | size256TiB => exact absurd hsize (by decide)

/-- `map_pages(pagemap, virt, phys, flags, count)` -/
def mapPages (pagemap : Pagemap) (c : MapCall) : VmmM Unit :=
  Vmm.mapPages (fun _ => true) (fixMapPage (mapPage pagemap) 2) c.virt c.phys
    (c.attr.toFlags vmmFlagWrite vmmFlagNoexec vmmFlagFb) c.count

theorem newPagemap_spec {cpucfgVal : BitVec 32} (hvalen : 48 ≤ valen cpucfgVal) {s : Memory}
    (hs : SupplyOk PageOk s.supply) :
    Runs (newPagemap cpucfgVal) s fun pm s' =>
      True ∧ Translates format space pm.pgd (fun _ => none) s' := by
  unfold newPagemap
  rw [if_neg (by omega)]
  refine Runs.extMemAlloc fun p ps hp => Runs.extMemAlloc fun q qs hq => Runs.pure ?_
  exact ⟨trivial, Translates.twoRoots (F := format) hs (hp.trans (congrArg (p :: ·) hq))⟩

theorem mapPages_spec {pagemap : Pagemap} {c : MapCall} (hc : c.Ok space (2 ^ 48)) {s : Memory}
    {f : Nat → Option Leaf} (ht : Translates format space pagemap.pgd f s) :
    Runs (mapPages pagemap c) s fun _ s' =>
      Translates format space pagemap.pgd (overlay c.virt c.phys c.count c.attr f) s' := by
  refine Vmm.mapPages_spec (F := format) (fun size hsize => fixMapPage_mapsPage
    (fun self => mapPage_isMapAt pagemap self hsize) (Nat.le_succ_of_le hsize) (fun _ _ _ _ => trivial) 0)
    (hc.callOk fun size l hsize hl _ => ⟨Nat.lt_succ_of_le hsize, hl⟩) ht

/-! ## The hardware's view -/

def pageOf (l : Leaf) : Page :=
  ⟨l.phys, l.attr.write, l.attr.write, l.attr.noexec, if l.attr.fb then .wuc else .cc, true⟩

theorem hwStep_table (v : Nat) {q : Nat} (h : PageOk q) (k : Nat) :
    hwStep v () (k + 1) (pteNew q 0) = .next () q := by
  have h6 : (BitVec.ofNat 64 q).getLsbD 6 = false := h.within.getLsbD_eq_false (by decide)
  have hne : BitVec.ofNat 64 q ≠ invalidPage := fun h0 =>
    absurd (congrArg BitVec.toNat h0) (by rw [h.toNat]; exact Nat.ne_of_gt h.2.1)
  rw [hwStep, pteNew_table, h6, if_neg Bool.false_ne_true, if_neg hne, h.within.and_eq_self (by decide),
    h.toNat]

theorem hwLeaf_leaf (v : Nat) {k : Nat} {l : Leaf} (h : LeafOk k l) :
    hwLeaf v k true (pteNew l.phys (leafFlags k l.attr)) =
      .done (pageOf ⟨l.phys + v % pageBytes k, l.attr⟩) := by
  have hw := h.2.within (show 12 ≤ 12 + 9 * k by omega)
  obtain ⟨h0, h8, h1, h62, hmat, -, -, hmask⟩ := leafFlags_hw l.attr k h.1
  unfold memoryType at hmat
  unfold hwLeaf memoryType pteNew pageOf
  rw [hw.getLsbD_or (by decide), hw.getLsbD_or (by decide), hw.getLsbD_or (by decide),
    hw.getLsbD_or (by decide), hw.getLsbD_or (by decide), hw.getLsbD_or (by decide), h0, h8, h1, h62, hmat,
    if_pos rfl, (h.2.within (Nat.le_refl _)).or_and_value (BitVec.and_self) hmask, h.2.toNat (by decide)]

theorem hwStep_leaf (v : Nat) {k : Nat} {l : Leaf} (h : LeafOk k l) :
    hwStep v () k (pteNew l.phys (leafFlags k l.attr)) =
      .done (pageOf ⟨l.phys + v % pageBytes k, l.attr⟩) := by
  have hw := h.2.within (show 12 ≤ 12 + 9 * k by omega)
  obtain ⟨-, -, -, -, -, h6, h12, -⟩ := leafFlags_hw l.attr k h.1
  have he6 : (pteNew l.phys (leafFlags k l.attr)).getLsbD 6 = true := by
    unfold pteNew
    rw [hw.getLsbD_or (by decide), h6]
  rw [← hwLeaf_leaf v h]
  cases k with
  | zero => rw [hwStep, he6]
  | succ k =>
    have hw' := h.2.within (show 21 ≤ 12 + 9 * (k + 1) by omega)
    have he12 : (pteNew l.phys (leafFlags (k + 1) l.attr)).getLsbD 12 = true := by
      unfold pteNew
      rw [hw'.getLsbD_or (by decide), h12 (Nat.succ_pos k)]
    rw [hwStep, he6, if_pos rfl, he12]

/-- The hardware sees what the trees translate. -/
theorem hwTranslate_eq {bits : Nat} (hbits : 48 ≤ bits) {pagemap : Pagemap} {s : Memory}
    {f : Nat → Option Leaf} (ht : Translates format space pagemap.pgd f s) {v : Nat} (hv : space.Valid v) :
    hwTranslate bits s pagemap v =
      match f v with
      | none => .error .notMapped
      | some l => .ok (pageOf l) := by
  have hcanon : v < 2 ^ (bits - 1) ∨ 2 ^ 64 - 2 ^ (bits - 1) ≤ v := by
    have hpow : 2 ^ 47 ≤ 2 ^ (bits - 1) := Nat.pow_le_pow_right (by decide) (by omega)
    have hvalid' : v < 2 ^ 47 ∨ 2 ^ 64 - 2 ^ 47 ≤ v ∧ v < 2 ^ 64 := hv
    omega
  have hhw := ht.hardware (hwStep v) () pageOf (fun k => v / 2 ^ (12 + 9 * k) % 512) hv
    (fun k => by cases k <;> rfl) (fun k q hq => hwStep_table v hq k) (fun k l hl => hwStep_leaf v hl)
    fun k hk => by
      have hk3 : k ≤ 3 := hk
      exact (AddressSpace.slotIndex_key_of_le hk (show 12 + 9 * (k + 1) ≤ 48 by omega) v).symm
  unfold hwTranslate
  exact (if_pos hcanon).trans hhw

/-- A new pagemap filled by calls of `map_pages` is to the hardware the overlay of the calls.  A
processor that has more than 48 virtual bits does not tell the high addresses from the low ones. -/
theorem loongArch_overlay {cpucfgVal : BitVec 32} (hvalen : 48 ≤ valen cpucfgVal) {s : Memory}
    (hs : SupplyOk PageOk s.supply) {calls : List MapCall} (hcalls : ∀ c ∈ calls, c.Ok space (2 ^ 48)) :
    Runs (buildPagemap (newPagemap cpucfgVal) mapPages calls) s fun pagemap s' =>
      ∀ v, v < 2 ^ 64 → space.Valid v ∨ valen cpucfgVal = 48 →
        hwTranslate (valen cpucfgVal) s' pagemap v =
          match lastCall calls v with
          | none => .error .notMapped
          | some c => .ok ⟨c.phys + (v - c.virt), c.attr.write, c.attr.write, c.attr.noexec,
              if c.attr.fb then .wuc else .cc, true⟩ := by
  refine (buildPagemap_spec Pagemap.pgd (newPagemap_spec hvalen hs)
    fun pm _ c hc s f => mapPages_spec (hcalls c hc)).imp fun pagemap s' ⟨_, ht⟩ v hlt hv => ?_
  by_cases hvalid : space.Valid v
  · rw [hwTranslate_eq hvalen ht hvalid]
    unfold lastLeaf
    cases lastCall calls v <;> rfl
  · have hvalen48 := hv.resolve_left hvalid
    have hout : ¬ (v < 2 ^ 47 ∨ 2 ^ 64 - 2 ^ 47 ≤ v) := fun h => hvalid (h.imp_right fun h' => ⟨h', hlt⟩)
    unfold hwTranslate
    rw [hvalen48, if_neg hout, lastCall_eq_none hcalls hvalid]

theorem loongArch_overlay_overlap :
    ∃ pagemap s,
      buildPagemap (newPagemap 0x2f000) mapPages (overlapCalls true) eightPages = .ok (pagemap, s) ∧
      hwTranslate 48 s pagemap 0x200123 = .ok ⟨0x6123, true, true, false, .wuc, true⟩ ∧
      hwTranslate 48 s pagemap 0x201123 = .ok ⟨0x9123, false, false, true, .cc, true⟩ ∧
      hwTranslate 48 s pagemap 0x202123 = .error .notMapped := by
  have hs : SupplyOk PageOk eightPages.supply := ⟨by decide, by decide⟩
  have hcalls : ∀ c ∈ overlapCalls true, c.Ok space (2 ^ 48) := by decide
  obtain ⟨pagemap, s, hrun, h⟩ :=
    Runs.exists_ok (loongArch_overlay (by decide : 48 ≤ valen 0x2f000) hs) hcalls (by decide +kernel)
  exact ⟨pagemap, s, hrun, h 0x200123 (by decide) (.inr rfl), h 0x201123 (by decide) (.inr rfl),
    h 0x202123 (by decide) (.inr rfl)⟩

end Limine.Vmm.LoongArch
