import Limine.Vmm.Walk

/-!
# RISC-V

Sv39, Sv48 and Sv57, with and without Svpbmt.  An entry holds its address shifted right by two
bits, and it is a leaf by its permission bits alone.
-/

namespace Limine.Vmm.RiscV

open Limine.Lib

/-! ## The source -/

def ptFlagValid : PtEntry := 1 <<< 0
def ptFlagRead : PtEntry := 1 <<< 1
def ptFlagWrite : PtEntry := 1 <<< 2
def ptFlagExec : PtEntry := 1 <<< 3
def ptFlagAccessed : PtEntry := 1 <<< 6
def ptFlagDirty : PtEntry := 1 <<< 7
def ptFlagPbmtNc : PtEntry := 1 <<< 61
def ptPaddrMask : PtEntry := 0x003ffffffffffc00

def ptFlagRwx : PtEntry := ptFlagRead ||| ptFlagWrite ||| ptFlagExec

def ptTableFlags : PtEntry := ptFlagValid

def ptIsTable (x : PtEntry) : Bool := x &&& (ptFlagValid ||| ptFlagRwx) == ptFlagValid

def ptIsLarge (x : PtEntry) : Bool := x &&& (ptFlagValid ||| ptFlagRwx) > ptFlagValid

def vmmFlagWrite : PtEntry := 1 <<< 0
def vmmFlagNoexec : PtEntry := 1 <<< 1
def vmmFlagFb : PtEntry := 1 <<< 2

def pteNew (addr : Nat) (flags : PtEntry) : PtEntry :=
  ((BitVec.ofNat 64 addr >>> 2) &&& ptPaddrMask) ||| flags

def pteAddr (pte : PtEntry) : Nat := ((pte &&& ptPaddrMask) <<< 2).toNat

def ptToVmmFlags (entry : PtEntry) : PtEntry :=
  (if entry &&& ptFlagWrite ≠ 0 then vmmFlagWrite else 0) |||
  (if entry &&& ptFlagExec = 0 then vmmFlagNoexec else 0) |||
  (if entry &&& ptFlagPbmtNc ≠ 0 then vmmFlagFb else 0)

def encoding : Encoding where
  isTable _ := ptIsTable
  isLarge := ptIsLarge
  toVmmFlags := ptToVmmFlags
  pteNew := pteNew
  pteAddr := pteAddr
  tableFlags := ptTableFlags
  maxLevel := 5

structure Pagemap where
  maxPageSize : PageSize
  topLevel : Nat

/-- `PAGING_MODE_RISCV_*` -/
inductive PagingMode
  | sv39
  | sv48
  | sv57
deriving DecidableEq, Repr

def PagingMode.value : PagingMode → Nat
  | .sv39 => 8
  | .sv48 => 9
  | .sv57 => 10

def newPagemap (pagingMode : PagingMode) : VmmM Pagemap := do
  let topLevel ← extMemAlloc
  return ⟨PageSize.ofLevel (pagingMode.value - 6), topLevel⟩

/-- `pbmt_nc`, which `new_pagemap` sets if there is Svpbmt. -/
def pbmtNc (svpbmt : Bool) : PtEntry := if svpbmt then ptFlagPbmtNc else 0

def ptflags (svpbmt : Bool) (flags : PtEntry) : PtEntry :=
  ptFlagValid ||| ptFlagRead ||| ptFlagAccessed ||| ptFlagDirty |||
  (if flags &&& vmmFlagWrite ≠ 0 then ptFlagWrite else 0) |||
  (if flags &&& vmmFlagNoexec = 0 then ptFlagExec else 0) |||
  (if flags &&& vmmFlagFb ≠ 0 then pbmtNc svpbmt else 0)

/-- The loop of `map_page`, at `level`. -/
def mapPageLoop (self : MapPage) (virtAddr physAddr : Nat) (ptflags : PtEntry) (pageSize : PageSize) :
    Nat → Nat → VmmM Unit
  | 0, table =>
    let index := virtAddr >>> 12 &&& 0x1ff
    if 0 = pageSize.level then writeEntry table index (pteNew physAddr ptflags)
    -- no page size is that far below the start of the loop
    else fun _ => .error .outOfFuel
  | level + 1, table =>
    let index := virtAddr >>> (12 + 9 * (level + 1)) &&& 0x1ff
    if level + 1 = pageSize.level then writeEntry table index (pteNew physAddr ptflags)
    else do
      let table ← getNextLevel encoding self table virtAddr pageSize (level + 1) index
      mapPageLoop self virtAddr physAddr ptflags pageSize level table

/-- The body of `map_page`, with `self` for the calls that `get_next_level` makes. -/
def mapPage (svpbmt : Bool) (pagemap : Pagemap) (self : MapPage) : MapPage :=
  fun virtAddr physAddr flags pageSize =>
    let pageSize := if pageSize.level > pagemap.maxPageSize.level then pagemap.maxPageSize else pageSize
    mapPageLoop self virtAddr physAddr (ptflags svpbmt flags) pageSize pagemap.maxPageSize.level
      pagemap.topLevel

/-! ## The hardware -/

inductive MemoryType
  | pma
  | nc
  | io
  | reserved
deriving DecidableEq, Repr

structure Page where
  phys : Nat
  readable : Bool
  writable : Bool
  executable : Bool
  memoryType : MemoryType
deriving DecidableEq, Repr

/-- `PBMT`, bits 62:61. -/
def memoryType (e : PtEntry) : MemoryType :=
  match e.getLsbD 62, e.getLsbD 61 with
  | false, false => .pma
  | false, true => .nc
  | true, false => .io
  | true, true => .reserved

/-- `PPN`, as an address. -/
def physAddress (e : PtEntry) : Nat := ((e &&& bitWindow 10 54) <<< 2).toNat

/-- Reserved are `W` without `R`, bits 60:54 and 63, `PBMT` without Svpbmt, and its last value. -/
def reservedBits (svpbmt : Bool) (e : PtEntry) : Bool :=
  e.getLsbD 2 && !e.getLsbD 1 || e &&& bitWindow 54 61 != 0 || e.getLsbD 63 ||
    memoryType e == .reserved || !svpbmt && memoryType e != .pma

/-- The steps of the address translation that look at an entry; stores need the dirty bit. -/
def hwStep (svpbmt : Bool) (v : Nat) (_ : Unit) (k : Nat) (e : PtEntry) : HwStep Unit Page :=
  if !e.getLsbD 0 then .fault .notMapped
  else if reservedBits svpbmt e then .fault .reserved
  else if !e.getLsbD 1 && !e.getLsbD 3 then
    if e.getLsbD 4 || e.getLsbD 6 || e.getLsbD 7 || memoryType e != .pma then .fault .reserved
    else .next () (physAddress e)
  else if physAddress e % pageBytes k ≠ 0 then .fault .reserved
  else if !e.getLsbD 6 then .fault .access
  else .done ⟨physAddress e + v % pageBytes k, e.getLsbD 1, e.getLsbD 2 && e.getLsbD 7, e.getLsbD 3,
    memoryType e⟩

/-- `LEVELS` of the mode. -/
def PagingMode.levels : PagingMode → Nat
  | .sv39 => 3
  | .sv48 => 4
  | .sv57 => 5

/-- The walk: an address is the sign extension of its low bits, of which there are nine a level. -/
def hwTranslate (svpbmt : Bool) (mode : PagingMode) (s : Memory) (topLevel v : Nat) : Except Fault Page :=
  let bits := 12 + 9 * mode.levels
  if v < 2 ^ (bits - 1) ∨ 2 ^ 64 - 2 ^ (bits - 1) ≤ v then
    hwWalk (hwStep svpbmt v) s.mem (fun k => v / 2 ^ (12 + 9 * k) % 512) (mode.levels - 1) () topLevel
  else .error .notMapped

/-! ## Entries -/

variable {svpbmt : Bool}

def leafFlags (svpbmt : Bool) (a : Attr) : PtEntry :=
  ptflags svpbmt (a.toFlags vmmFlagWrite vmmFlagNoexec vmmFlagFb)

/-- Without Svpbmt `VMM_FLAG_FB` does nothing. -/
def normAttr (svpbmt : Bool) (a : Attr) : Attr := { a with fb := a.fb && svpbmt }

theorem leafFlags_norm (a : Attr) : ∀ svpbmt, leafFlags svpbmt a = leafFlags svpbmt (normAttr svpbmt a) := by
  revert a
  refine Attr.forall_of ?_
  decide

/-- The address of a page in its field. -/
theorem pteNew_eq {a : Nat} (hd : 0x1000 ∣ a) (hlt : a < 2 ^ 56) (c : PtEntry) :
    pteNew a c = BitVec.ofNat 64 (a / 4) ||| c ∧ Within (BitVec.ofNat 64 (a / 4)) (bitWindow 10 54) := by
  have hw : Within (BitVec.ofNat 64 (a / 4)) (bitWindow 10 54) := within_ofNat (by omega) (by omega)
  have hshift : BitVec.ofNat 64 a >>> 2 = BitVec.ofNat 64 (a / 4) := by
    refine BitVec.eq_of_toNat_eq ?_
    rw [BitVec.toNat_ushiftRight, toNat_ofNat_of_lt hlt (by decide),
      toNat_ofNat_of_lt (show a / 4 < 2 ^ 56 by omega) (by decide), Nat.shiftRight_eq_div_pow]
  refine ⟨?_, hw⟩
  unfold pteNew
  rw [hshift, hw.and_eq_self (by decide)]

/-- The address comes back from an entry whose flags stay out of the field. -/
theorem physAddress_pteNew {a : Nat} {c : PtEntry} (hd : 0x1000 ∣ a) (hlt : a < 2 ^ 56)
    (hc : c &&& bitWindow 10 54 = 0#64) : physAddress (pteNew a c) = a := by
  obtain ⟨heq, hw⟩ := pteNew_eq hd hlt c
  unfold physAddress
  rw [heq, hw.or_and_value (BitVec.and_self) hc, BitVec.toNat_shiftLeft,
    toNat_ofNat_of_lt (show a / 4 < 2 ^ 56 by omega) (by decide), Nat.shiftLeft_eq]
  omega

theorem pteAddr_eq (e : PtEntry) : pteAddr e = physAddress e := by
  have h : ptPaddrMask = bitWindow 10 54 := by decide
  unfold pteAddr physAddress
  rw [h]

/-- Outside the field an entry holds its flags. -/
theorem pteNew_and {a : Nat} {c m : PtEntry} (hd : 0x1000 ∣ a) (hlt : a < 2 ^ 56)
    (hm : bitWindow 10 54 &&& m = 0#64) : pteNew a c &&& m = c &&& m := by
  obtain ⟨heq, hw⟩ := pteNew_eq hd hlt c
  rw [heq, hw.or_and_flags hm]

theorem pteNew_getLsbD {a : Nat} {c : PtEntry} (hd : 0x1000 ∣ a) (hlt : a < 2 ^ 56) {i : Nat}
    (hi : i < 10 ∨ 54 ≤ i) : (pteNew a c).getLsbD i = c.getLsbD i := by
  obtain ⟨heq, hw⟩ := pteNew_eq hd hlt c
  rw [heq, hw.getLsbD_or]
  unfold bitWindow
  rw [BitVec.getLsbD_ofNat, testBit_window (by decide)]
  rcases hi with hi | hi
  · simp [Nat.not_le.mpr hi]
  · simp [Nat.not_lt.mpr hi]

/-- What the macros read from the flags of a leaf. -/
theorem leafFlags_spec (a : Attr) : ∀ svpbmt,
    ptIsTable (leafFlags svpbmt a) = false ∧ ptIsLarge (leafFlags svpbmt a) = true ∧
    leafFlags svpbmt a &&& bitWindow 10 54 = 0#64 ∧
    ptToVmmFlags (leafFlags svpbmt a) =
      (normAttr svpbmt a).toFlags vmmFlagWrite vmmFlagNoexec vmmFlagFb := by
  revert a
  refine Attr.forall_of ?_
  decide

def PageOk (q : Nat) : Prop := 0x1000 ∣ q ∧ q < 2 ^ 56

instance (q : Nat) : Decidable (PageOk q) := inferInstanceAs (Decidable (_ ∧ _))

def LeafOk (svpbmt : Bool) (k : Nat) (l : Leaf) : Prop :=
  k < 3 ∧ Fits (2 ^ 56) k l ∧ normAttr svpbmt l.attr = l.attr

theorem LeafOk.page_aligned {k : Nat} {l : Leaf} (h : LeafOk svpbmt k l) : 0x1000 ∣ l.phys :=
  Nat.dvd_trans (@pageBytes_dvd 0 k (Nat.zero_le k)) h.2.1.aligned

theorem pteNew_table {q : Nat} (h : PageOk q) :
    ptIsTable (pteNew q ptTableFlags) = true ∧ physAddress (pteNew q ptTableFlags) = q := by
  refine ⟨?_, physAddress_pteNew h.1 h.2 (by decide)⟩
  unfold ptIsTable
  rw [pteNew_and h.1 h.2 (by decide)]
  decide

def format (svpbmt : Bool) : Format encoding where
  leafEntry _ l := pteNew l.phys (leafFlags svpbmt l.attr)
  flagsOf := Attr.toFlags vmmFlagWrite vmmFlagNoexec vmmFlagFb
  LeafOk := LeafOk svpbmt
  PageOk := PageOk
  Splits _ _ := True
  maxLevel_le := by decide
  isTable_zero _ := show ptIsTable 0 = false by decide
  isLarge_zero := by decide
  isTable_table k q h := (pteNew_table h).1
  pteAddr_table q h := (pteAddr_eq _).trans (pteNew_table h).2
  isTable_leaf k l h := by
    show ptIsTable (pteNew l.phys (leafFlags svpbmt l.attr)) = false
    unfold ptIsTable
    rw [pteNew_and h.page_aligned h.2.1.lt (by decide)]
    exact (leafFlags_spec l.attr svpbmt).1
  isLarge_leaf k l h := by
    show ptIsLarge (pteNew l.phys (leafFlags svpbmt l.attr)) = true
    unfold ptIsLarge
    rw [pteNew_and h.page_aligned h.2.1.lt (by decide)]
    exact (leafFlags_spec l.attr svpbmt).2.1
  pteAddr_leaf k l h _ := (pteAddr_eq _).trans
    (physAddress_pteNew h.page_aligned h.2.1.lt (leafFlags_spec l.attr svpbmt).2.2.1)
  toVmmFlags_leaf k l h _ := by
    have hflags := (leafFlags_spec l.attr svpbmt).2.2.2
    rw [h.2.2] at hflags
    rw [← hflags]
    show ptToVmmFlags (pteNew l.phys (leafFlags svpbmt l.attr)) = _
    unfold ptToVmmFlags
    rw [pteNew_and h.page_aligned h.2.1.lt (by decide), pteNew_and h.page_aligned h.2.1.lt (by decide),
      pteNew_and h.page_aligned h.2.1.lt (by decide)]
  lt_maxLevel k l h := Nat.lt_of_lt_of_le h.1 (by decide)
  aligned k l h := h.2.1.aligned
  leafOk_split k l d i h hd hi hdvd := ⟨Nat.lt_trans hd h.1, h.2.1.split hd hi hdvd, h.2.2⟩

/-! ## `map_page` -/

def space (mode : PagingMode) : AddressSpace where
  levels := mode.levels - 1
  half := 12 + 9 * mode.levels - 1
  bits := 12 + 9 * mode.levels
  twoTrees := false
  levels_le := by cases mode <;> decide
  half_le := by cases mode <;> decide
  bits_le := by cases mode <;> decide
  half_lt := by cases mode <;> decide
  bits_lt := by cases mode <;> decide

theorem space_index {mode : PagingMode} {k : Nat} (hk : k ≤ (space mode).levels) (v : Nat) :
    v / 2 ^ (12 + 9 * k) % 512 = slotIndex k ((space mode).key v) := by
  refine (AddressSpace.slotIndex_key_of_le hk ?_ v).symm
  have hk' : k ≤ mode.levels - 1 := hk
  show 12 + 9 * (k + 1) ≤ 12 + 9 * mode.levels
  have : 0 < mode.levels := by cases mode <;> decide
  omega

theorem mapPageLoop_eq (self : MapPage) (virt phys : Nat) (flags : PtEntry) (size : PageSize) :
    ∀ k table, size.level ≤ k → mapPageLoop self virt phys flags size k table =
      (descend encoding self virt size (fun j => virt / 2 ^ (12 + 9 * j) % 512) k table >>= fun t =>
        writeEntry t (virt / 2 ^ (12 + 9 * size.level) % 512) (pteNew phys flags)) := by
  have hindex : ∀ j, virt >>> (12 + 9 * j) &&& 0x1ff = virt / 2 ^ (12 + 9 * j) % 512 := by
    intro j
    rw [Nat.shiftRight_eq_div_pow]
    exact Nat.and_two_pow_sub_one_eq_mod _ 9
  intro k
  induction k with
  | zero =>
    intro table hle
    have h0 : size.level = 0 := by omega
    rw [mapPageLoop, descend, h0, if_pos rfl, pure_bind, ← hindex 0]
  | succ k ih =>
    intro table hle
    rw [mapPageLoop, descend, hindex]
    by_cases hk : k + 1 = size.level
    · rw [if_pos hk, if_pos (by omega), pure_bind, ← hk]
    · rw [if_neg hk, if_neg (by omega), bind_assoc]
      refine congrArg _ (funext fun t => ?_)
      exact ih t (by omega)

theorem mapPage_isMapAt {mode : PagingMode} {pagemap : Pagemap}
    (hmax : pagemap.maxPageSize.level = (space mode).levels) (self : MapPage) {size : PageSize}
    (hsize : size.level ≤ 2) :
    IsMapAt (format svpbmt) (space mode) (fun _ => pagemap.topLevel) (LeafOk svpbmt size.level)
      (mapPage svpbmt pagemap self) self size := by
  intro virt l hv hl
  refine ⟨fun k => virt / 2 ^ (12 + 9 * k) % 512, fun j hj => space_index hj virt, ?_⟩
  have hle : size.level ≤ pagemap.maxPageSize.level := by
    have : 2 ≤ (space mode).levels := by cases mode <;> decide
    omega
  unfold mapPage mapAt
  dsimp only
  rw [if_neg (Nat.not_lt.mpr hle), mapPageLoop_eq _ _ _ _ _ _ _ hle, hmax]
  rfl

/-- `map_pages(pagemap, virt, phys, flags, count)` -/
def mapPages (svpbmt : Bool) (pagemap : Pagemap) (c : MapCall) : VmmM Unit :=
  Vmm.mapPages (fun _ => true) (fixMapPage (mapPage svpbmt pagemap) 2) c.virt c.phys
    (c.attr.toFlags vmmFlagWrite vmmFlagNoexec vmmFlagFb) c.count

def normCall (svpbmt : Bool) (c : MapCall) : MapCall := { c with attr := normAttr svpbmt c.attr }

theorem mapPages_norm (svpbmt : Bool) (pagemap : Pagemap) (c : MapCall) :
    mapPages svpbmt pagemap c = mapPages svpbmt pagemap (normCall svpbmt c) := by
  refine mapPages_congr (fun virt phys size => ?_) _ _ _
  have hflags := leafFlags_norm c.attr svpbmt
  unfold leafFlags at hflags
  show mapPage svpbmt pagemap _ virt phys _ size = mapPage svpbmt pagemap _ virt phys _ size
  unfold mapPage
  rw [hflags]
  rfl

theorem newPagemap_spec (mode : PagingMode) {s : Memory} (hs : SupplyOk PageOk s.supply) :
    Runs (newPagemap mode) s fun pm s' => pm.maxPageSize.level = (space mode).levels ∧
      Translates (format svpbmt) (space mode) (fun _ => pm.topLevel) (fun _ => none) s' := by
  unfold newPagemap
  refine Runs.extMemAlloc fun p ps hp => Runs.pure ⟨by cases mode <;> rfl, ?_⟩
  exact Translates.oneRoot (F := format svpbmt) rfl hs hp

theorem mapPages_spec {mode : PagingMode} {pagemap : Pagemap}
    (hmax : pagemap.maxPageSize.level = (space mode).levels) {c : MapCall}
    (hc : c.Ok (space mode) (2 ^ 56)) (hattr : normAttr svpbmt c.attr = c.attr) {s : Memory}
    {f : Nat → Option Leaf}
    (ht : Translates (format svpbmt) (space mode) (fun _ => pagemap.topLevel) f s) :
    Runs (mapPages svpbmt pagemap c) s fun _ s' =>
      Translates (format svpbmt) (space mode) (fun _ => pagemap.topLevel)
        (overlay c.virt c.phys c.count c.attr f) s' := by
  have hlev : 2 ≤ (space mode).levels := by cases mode <;> decide
  refine Vmm.mapPages_spec (F := format svpbmt) (fun size hsize => fixMapPage_mapsPage
    (fun self => mapPage_isMapAt hmax self hsize) (Nat.le_trans hsize hlev) (fun _ _ _ _ => trivial) 0)
    (hc.callOk fun size l hsize hl ha => ⟨Nat.lt_succ_of_le hsize, hl, ha ▸ hattr⟩) ht

/-! ## The hardware's view -/

def pageOf (l : Leaf) : Page :=
  ⟨l.phys, true, l.attr.write, !l.attr.noexec, if l.attr.fb then .nc else .pma⟩

/-- What the hardware reads from the flags of a leaf. -/
theorem leafFlags_hw (a : Attr) : ∀ svpbmt,
    (leafFlags svpbmt a).getLsbD 0 = true ∧ (leafFlags svpbmt a).getLsbD 1 = true ∧
    (leafFlags svpbmt a).getLsbD 2 = a.write ∧ (leafFlags svpbmt a).getLsbD 3 = !a.noexec ∧
    (leafFlags svpbmt a).getLsbD 6 = true ∧ (leafFlags svpbmt a).getLsbD 7 = true ∧
    reservedBits svpbmt (leafFlags svpbmt a) = false ∧
    memoryType (leafFlags svpbmt a) = (if (normAttr svpbmt a).fb then .nc else .pma) := by
  revert a
  refine Attr.forall_of ?_
  decide

/-- The hardware's tests see the flags. -/
theorem reservedBits_pteNew {a : Nat} {c : PtEntry} (hd : 0x1000 ∣ a) (hlt : a < 2 ^ 56) :
    memoryType (pteNew a c) = memoryType c ∧ reservedBits svpbmt (pteNew a c) = reservedBits svpbmt c := by
  have hmem : memoryType (pteNew a c) = memoryType c := by
    unfold memoryType
    rw [pteNew_getLsbD hd hlt (by decide), pteNew_getLsbD hd hlt (by decide)]
  refine ⟨hmem, ?_⟩
  unfold reservedBits
  rw [hmem, pteNew_getLsbD hd hlt (by decide), pteNew_getLsbD hd hlt (by decide),
    pteNew_getLsbD hd hlt (by decide), pteNew_and hd hlt (by decide)]

theorem hwStep_table (v : Nat) {q : Nat} (h : PageOk q) (k : Nat) :
    hwStep svpbmt v () k (pteNew q ptTableFlags) = .next () q := by
  have hbit : ∀ i, i < 10 → (pteNew q ptTableFlags).getLsbD i = ptTableFlags.getLsbD i :=
    fun i hi => pteNew_getLsbD h.1 h.2 (.inl hi)
  obtain ⟨hmem, hres⟩ := @reservedBits_pteNew svpbmt q ptTableFlags h.1 h.2
  have hres0 : ∀ svpbmt, reservedBits svpbmt ptTableFlags = false := by decide
  unfold hwStep
  rw [hmem, hres, hres0, hbit 0 (by decide), hbit 1 (by decide), hbit 3 (by decide), hbit 4 (by decide),
    hbit 6 (by decide), hbit 7 (by decide), (pteNew_table h).2]
  rfl

theorem hwStep_leaf (v : Nat) {k : Nat} {l : Leaf} (h : LeafOk svpbmt k l) :
    hwStep svpbmt v () k (pteNew l.phys (leafFlags svpbmt l.attr)) =
      .done (pageOf ⟨l.phys + v % pageBytes k, l.attr⟩) := by
  have hbit : ∀ i, i < 10 → (pteNew l.phys (leafFlags svpbmt l.attr)).getLsbD i =
      (leafFlags svpbmt l.attr).getLsbD i :=
    fun i hi => pteNew_getLsbD h.page_aligned h.2.1.lt (.inl hi)
  obtain ⟨hmem, hres⟩ := @reservedBits_pteNew svpbmt l.phys (leafFlags svpbmt l.attr) h.page_aligned h.2.1.lt
  obtain ⟨h0, h1, h2, h3, h6, h7, hres0, hmem0⟩ := leafFlags_hw l.attr svpbmt
  rw [h.2.2] at hmem0
  have haddr := physAddress_pteNew h.page_aligned h.2.1.lt (leafFlags_spec l.attr svpbmt).2.2.1
  unfold hwStep pageOf
  rw [hmem, hres, hres0, hbit 0 (by decide), hbit 1 (by decide), hbit 2 (by decide), hbit 3 (by decide),
    hbit 6 (by decide), hbit 7 (by decide), h0, h1, h2, h3, h6, h7, hmem0, haddr,
    Nat.mod_eq_zero_of_dvd h.2.1.aligned]
  simp

theorem lastCall_norm (calls : List MapCall) (v : Nat) :
    lastCall (calls.map (normCall svpbmt)) v = (lastCall calls v).map (normCall svpbmt) := by
  unfold lastCall
  rw [← List.map_reverse, List.find?_map]
  rfl

/-- The hardware sees what the trees translate. -/
theorem hwTranslate_eq {mode : PagingMode} {pagemap : Pagemap} {s : Memory} {f : Nat → Option Leaf}
    (ht : Translates (format svpbmt) (space mode) (fun _ => pagemap.topLevel) f s) {v : Nat}
    (hv : (space mode).Valid v) :
    hwTranslate svpbmt mode s pagemap.topLevel v =
      match f v with
      | none => .error .notMapped
      | some l => .ok (pageOf l) := by
  have hcanon : v < 2 ^ (space mode).half ∨ 2 ^ 64 - 2 ^ (space mode).half ≤ v := hv.imp_right And.left
  have hhw := ht.hardware (hwStep svpbmt v) () pageOf (fun k => v / 2 ^ (12 + 9 * k) % 512) hv
    (fun k => rfl) (fun k q hq => hwStep_table v hq (k + 1)) (fun k l hl => hwStep_leaf v hl)
    fun k hk => space_index hk v
  unfold hwTranslate
  exact (if_pos hcanon).trans hhw

/-- A new pagemap filled by calls of `map_pages` is to the hardware the overlay of the calls. -/
theorem riscv_overlay (svpbmt : Bool) (mode : PagingMode) {s : Memory} (hs : SupplyOk PageOk s.supply)
    {calls : List MapCall} (hcalls : ∀ c ∈ calls, c.Ok (space mode) (2 ^ 56)) :
    Runs (buildPagemap (newPagemap mode) (mapPages svpbmt) calls) s fun pagemap s' =>
      ∀ v, v < 2 ^ 64 →
        hwTranslate svpbmt mode s' pagemap.topLevel v =
          match lastCall calls v with
          | none => .error .notMapped
          | some c => .ok ⟨c.phys + (v - c.virt), true, c.attr.write, !c.attr.noexec,
              if c.attr.fb && svpbmt then .nc else .pma⟩ := by
  have hnorm : buildPagemap (newPagemap mode) (mapPages svpbmt) calls =
      buildPagemap (newPagemap mode) (mapPages svpbmt) (calls.map (normCall svpbmt)) := by
    unfold buildPagemap
    simp only [mapCalls_map _ (mapPages_norm svpbmt _) calls]
  have hcalls' : ∀ c ∈ calls.map (normCall svpbmt), c.Ok (space mode) (2 ^ 56) ∧
      normAttr svpbmt c.attr = c.attr := by
    intro c hc
    obtain ⟨c', hc', rfl⟩ := List.mem_map.mp hc
    obtain ⟨h1, h2, h3, h4, h5⟩ := hcalls c' hc'
    refine ⟨⟨h1, h2, h3, h4, h5⟩, ?_⟩
    simp [normCall, normAttr]
  rw [hnorm]
  refine (buildPagemap_spec (fun pm _ => pm.topLevel) (newPagemap_spec mode hs)
    fun pm hmax c hc s f => mapPages_spec hmax (hcalls' c hc).1 (hcalls' c hc).2).imp
      fun pagemap s' ⟨_, ht⟩ v hlt => ?_
  have hlast := @lastCall_norm svpbmt calls v
  by_cases hvalid : (space mode).Valid v
  · rw [hwTranslate_eq ht hvalid]
    unfold lastLeaf
    rw [hlast]
    cases lastCall calls v <;> rfl
  · rw [lastCall_eq_none hcalls hvalid]
    unfold hwTranslate
    exact if_neg fun h => hvalid (h.imp_right fun h' => ⟨h', hlt⟩)

theorem riscv_overlay_overlap :
    ∃ pagemap s,
      buildPagemap (newPagemap .sv39) (mapPages true) (overlapCalls true) eightPages = .ok (pagemap, s) ∧
      hwTranslate true .sv39 s pagemap.topLevel 0x200123 = .ok ⟨0x6123, true, true, true, .nc⟩ ∧
      hwTranslate true .sv39 s pagemap.topLevel 0x201123 = .ok ⟨0x9123, true, false, false, .pma⟩ ∧
      hwTranslate true .sv39 s pagemap.topLevel 0x202123 = .error .notMapped := by
  have hs : SupplyOk PageOk eightPages.supply := ⟨by decide, by decide⟩
  have hcalls : ∀ c ∈ overlapCalls true, c.Ok (space .sv39) (2 ^ 56) := by decide
  obtain ⟨pagemap, s, hrun, h⟩ := Runs.exists_ok (riscv_overlay true .sv39 hs) hcalls (by decide +kernel)
  exact ⟨pagemap, s, hrun, h 0x200123 (by decide), h 0x201123 (by decide), h 0x202123 (by decide)⟩

end Limine.Vmm.RiscV
