import Limine.Pmm.Room

/-!
# Mapping firmware tables

`map_single_table` carves a table out of the memory map as `MEMMAP_RESERVED_MAPPED`, padded to
whole pages on the sides where only usable or reserved memory is taken with it.  A table whose
first byte is ACPI memory is left alone.

    a run of calls →
      every table mapped, where that first byte speaks for its whole extent    (StartsDecide)
      other memory retyped only in the pages of a table's ends                 (Padding)
-/

namespace Limine.Acpi

open Limine.Lib Limine.Pmm MemmapEntry

/-- What `map_single_table` knows besides the map. -/
structure Machine where
  isI386 : Bool
  /-- the 32 bits at an address -/
  read32 : Nat → Nat

/-- One call of `map_single_table`. -/
structure TableCall where
  addr : Nat
  len : Nat
deriving DecidableEq, Repr

/-- `(uint32_t)-1`: the length is in the table's header. -/
def lenInHeader : Nat := 0xffffffff

def acpiPaddingIsSafe (m : Memmap) (base length : Nat) : Bool :=
  if length = 0 then true
  else
    match checkedAdd base length with
    | none => false
    | some top => m.all fun e =>
      match checkedAdd e.base e.length with
      | none => true
      | some entryTop =>
        if e.base ≥ top ∨ entryTop ≤ base then true
        else e.type = memmapUsable ∨ e.type = memmapReserved

/-- `length` of a call. -/
def TableCall.length (mc : Machine) (c : TableCall) : Nat :=
  if c.len ≠ lenInHeader then c.len else mc.read32 ((c.addr + 4) % 2 ^ 64)

/-- `addr + length` -/
def TableCall.top (mc : Machine) (c : TableCall) : Nat := (c.addr + c.length mc) % 2 ^ 64

/-- `aligned_base` after the padding before the table was tested. -/
def paddedBase (m : Memmap) (addr : Nat) : Nat :=
  let alignedBase := alignDown addr 4096
  if acpiPaddingIsSafe m alignedBase (addr - alignedBase) then alignedBase else addr

/-- `aligned_top` after the padding behind the table was tested. -/
def paddedTop (m : Memmap) (top alignedTop : Nat) : Nat :=
  if acpiPaddingIsSafe m top (alignedTop - top) then alignedTop else top

def mapSingleTable (cfg : Config) (mc : Machine) (m : Memmap) (c : TableCall) : Exec Memmap :=
  if mc.isI386 ∧ 0x100000000 ≤ c.addr then .ok m
  else
    match alignUp (c.top mc) 4096 with
    | none => .error (.panic "acpi: Alignment overflow")
    | some alignedTop =>
      let base := paddedBase m c.addr
      let top := paddedTop m (c.top mc) alignedTop
      let memmapType := pmmCheckType m c.addr
      if memmapType ≠ memmapAcpiReclaimable ∧ memmapType ≠ memmapAcpiNvs then do
        let (m, _) ← memmapAllocRangeIn cfg m base ((top + 2 ^ 64 - base) % 2 ^ 64)
          memmapReservedMapped 0 true false true
        return m
      else .ok m

/-- A run of calls, as `acpi_map_tables`, `smbios_map_tables` and `efi_map_runtime_entries` make
them. -/
def mapTables (cfg : Config) (mc : Machine) (m : Memmap) (calls : List TableCall) : Exec Memmap :=
  calls.foldlM (mapSingleTable cfg mc) m

/-! ## What a call is about -/

namespace TableCall

variable (mc : Machine) (c : TableCall)

/-- The i386 port passes over tables above 4 GiB. -/
def Visited : Prop := ¬ (mc.isI386 = true ∧ 0x100000000 ≤ c.addr)

/-- The addresses of the table. -/
def extent : Set Nat := {a | c.addr ≤ a ∧ a < c.addr + c.length mc}

/-- The extent ends inside 64 bits. -/
def Fits : Prop := c.addr + c.length mc < 2 ^ 64

/-- The address shares a page with an end of the table. -/
def Padding (a : Nat) : Prop :=
  a / 4096 = c.addr / 4096 ∨ 0 < c.length mc ∧ a / 4096 = (c.addr + c.length mc - 1) / 4096

end TableCall

/-- The address has a type that is mapped from base revision 4 on. -/
def Mapped (m : Memmap) (a : Nat) : Prop :=
  Covers m memmapReservedMapped a ∨ Covers m memmapAcpiReclaimable a ∨ Covers m memmapAcpiNvs a

/-- Nothing but usable and reserved memory at an address. -/
def Plain (m : Memmap) (a : Nat) : Prop := ∀ t ∈ typesAt m a, t = memmapUsable ∨ t = memmapReserved

/-- A table that starts in ACPI memory is mapped as a whole. -/
def StartDecides (mc : Machine) (m : Memmap) (c : TableCall) : Prop :=
  pmmCheckType m c.addr = memmapAcpiReclaimable ∨ pmmCheckType m c.addr = memmapAcpiNvs →
    ∀ a ∈ c.extent mc, Mapped m a

/-- Each call of a run finds it so. -/
def StartsDecide (cfg : Config) (mc : Machine) : Memmap → List TableCall → Prop
  | _, [] => True
  | m, c :: calls => StartDecides mc m c ∧
    ∀ m', mapSingleTable cfg mc m c = .ok m' → StartsDecide cfg mc m' calls

/-! ## One call -/

section Step

variable {cfg : Config} {mc : Machine} {m : Memmap} {c : TableCall}

theorem plain_of_safe (hm : NoneOverflows m) {base length : Nat}
    (h : acpiPaddingIsSafe m base length = true) {a : Nat} (h₁ : base ≤ a)
    (h₂ : a < base + length) : Plain m a := by
  unfold acpiPaddingIsSafe at h
  rw [if_neg (by omega)] at h
  cases htop : checkedAdd base length with
  | none =>
    rw [htop] at h
    cases h
  | some top =>
    obtain ⟨-, rfl⟩ := checkedAdd_eq_some_iff.mp htop
    rw [htop] at h
    rintro t ⟨e, he, rfl, ha⟩
    have he' := List.all_eq_true.mp h e he
    rw [checkedAdd_eq_some (hm e he)] at he'
    rw [mem_span] at ha
    dsimp only at he'
    rw [if_neg (by omega), decide_eq_true_iff] at he'
    exact he'

/-- The range that is carved holds the table, and what else it holds is padding. -/
theorem padded_spec (hm : NoneOverflows m) (hfit : c.Fits mc) {alignedTop : Nat}
    (ht : alignUp (c.top mc) 4096 = some alignedTop) :
    paddedBase m c.addr ≤ c.addr ∧
      c.addr + c.length mc ≤ paddedTop m (c.top mc) alignedTop ∧
      paddedTop m (c.top mc) alignedTop < 2 ^ 64 ∧
      ∀ a, paddedBase m c.addr ≤ a → a < paddedTop m (c.top mc) alignedTop →
        a ∈ c.extent mc ∨ c.Padding mc a ∧ Plain m a := by
  have htop : c.top mc = c.addr + c.length mc := Nat.mod_eq_of_lt hfit
  rw [htop] at ht ⊢
  obtain ⟨h₁, h₂, h₃, h₄⟩ := alignUp_spec (by decide) ht
  have hdown := alignDown_le c.addr 4096
  have hbase : paddedBase m c.addr ≤ c.addr ∧ ∀ a, paddedBase m c.addr ≤ a → a < c.addr →
      c.Padding mc a ∧ Plain m a := by
    unfold paddedBase
    dsimp only
    split
    · next hsafe =>
      refine ⟨hdown, fun a ha ha' => ⟨Or.inl ?_, ?_⟩⟩
      · unfold alignDown at ha
        omega
      · exact plain_of_safe hm hsafe ha (by omega)
    · exact ⟨Nat.le_refl _, fun a ha ha' => absurd ha' (by omega)⟩
  have htop' : c.addr + c.length mc ≤ paddedTop m (c.addr + c.length mc) alignedTop ∧
      paddedTop m (c.addr + c.length mc) alignedTop < 2 ^ 64 ∧
      ∀ a, c.addr + c.length mc ≤ a → a < paddedTop m (c.addr + c.length mc) alignedTop →
        c.Padding mc a ∧ Plain m a := by
    unfold paddedTop
    split
    · next hsafe =>
      refine ⟨h₁, h₄, fun a ha ha' => ⟨?_, ?_⟩⟩
      · -- the padding ends with the page of the last byte
        obtain ⟨k, rfl⟩ := h₃
        rcases Nat.eq_zero_or_pos (c.length mc) with hz | hpos
        · exact Or.inl (by omega)
        · exact Or.inr ⟨hpos, by omega⟩
      · exact plain_of_safe hm hsafe ha (by omega)
    · exact ⟨Nat.le_refl _, hfit, fun a ha ha' => absurd ha' (by omega)⟩
  refine ⟨hbase.1, htop'.1, htop'.2.1, fun a ha ha' => ?_⟩
  by_cases hlow : a < c.addr
  · exact Or.inr (hbase.2 a ha hlow)
  by_cases hhigh : c.addr + c.length mc ≤ a
  · exact Or.inr (htop'.2.2 a hhigh ha')
  · exact Or.inl ⟨by omega, by omega⟩

theorem Mapped.of_types {m' : Memmap} {a : Nat} (h : Mapped m a) (ht : typesAt m' a = typesAt m a) :
    Mapped m' a := by
  unfold Mapped Covers at h ⊢
  rw [ht]
  exact h

theorem Mapped.of_reserved {m' : Memmap} {a : Nat} (ht : typesAt m' a = {memmapReservedMapped}) :
    Mapped m' a := by
  left
  show memmapReservedMapped ∈ typesAt m' a
  rw [ht]
  rfl

/-- What one call does to the map. -/
structure TableStep (cfg : Config) (mc : Machine) (c : TableCall) (m m' : Memmap) : Prop where
  sanitised : Sanitised cfg.keepFirstPage false m'
  length_le : m'.length ≤ 2 * m.length + 1
  types : ∀ a, typesAt m' a = typesAt m a ∨ typesAt m' a = {memmapReservedMapped} ∧
    c.Visited mc ∧ (a ∈ c.extent mc ∨ c.Padding mc a ∧ Plain m a)
  mapped : c.Visited mc → StartDecides mc m c → ∀ a ∈ c.extent mc, Mapped m' a

theorem TableStep.keeps_mapped {m' : Memmap} (h : TableStep cfg mc c m m') {a : Nat}
    (ha : Mapped m a) : Mapped m' a := by
  rcases h.types a with ht | ⟨ht, -⟩
  · exact ha.of_types ht
  · exact Mapped.of_reserved ht

theorem splits_le (lo hi : Nat) (m : Memmap) : splits lo hi m ≤ m.length := List.countP_le_length

theorem mapSingleTable_ensures (hm : Sanitised cfg.keepFirstPage false m)
    (hfit : c.Visited mc → c.Fits mc) :
    (mapSingleTable cfg mc m c).Ensures
      (cfg.maxEntries ≤ 2 * m.length ∨ 2 ^ 64 ≤ c.addr + c.length mc + 4095)
      (TableStep cfg mc c m) := by
  have same : (c.Visited mc → ∀ a ∈ c.extent mc, StartDecides mc m c → Mapped m a) →
      TableStep cfg mc c m m := fun h =>
    ⟨hm, by omega, fun _ => Or.inl rfl, fun hv hs a ha => h hv a ha hs⟩
  unfold mapSingleTable
  by_cases hskip : mc.isI386 = true ∧ 0x100000000 ≤ c.addr
  · rw [if_pos hskip]
    exact same fun hv => absurd hskip hv
  rw [if_neg hskip]
  have hfit := hfit hskip
  cases ht : alignUp (c.top mc) 4096 with
  | none =>
    have htop : c.top mc = c.addr + c.length mc := Nat.mod_eq_of_lt hfit
    unfold alignUp at ht
    have := checkedAdd_eq_none_iff.mp (Option.map_eq_none_iff.mp ht)
    exact Or.inr (by omega)
  | some alignedTop =>
    obtain ⟨hb, hlen, hov, hpad⟩ := padded_spec hm.noneOverflows hfit ht
    dsimp only
    by_cases hacpi : pmmCheckType m c.addr = memmapAcpiReclaimable ∨
        pmmCheckType m c.addr = memmapAcpiNvs
    · rw [if_neg (by rwa [← not_or, not_not])]
      exact same fun _ a ha hs => hs hacpi a ha
    rw [if_pos (not_or.mp hacpi)]
    generalize paddedBase m c.addr = base at hb hpad
    generalize paddedTop m (c.top mc) alignedTop = top at hlen hov hpad
    rw [show (top + 2 ^ 64 - base) % 2 ^ 64 = top - base by omega]
    rcases Nat.eq_zero_or_pos (top - base) with hzero | hpos
    · have hrun : memmapAllocRangeIn cfg m base (top - base) memmapReservedMapped 0 true false true
          = .ok (m, true) := by
        unfold memmapAllocRangeIn
        exact if_pos hzero
      rw [hrun]
      refine same fun _ a ha => ?_
      have := ha.1
      have := ha.2
      omega
    · have hend : base + (top - base) = top := by omega
      have hrun : (memmapAllocRangeIn cfg m base (top - base) memmapReservedMapped 0 true false
          true).Ensures _ _ :=
        memmapAllocRangeIn_room cfg hm memmapReservedMapped hpos (by omega) (Or.inl rfl)
      rw [hend] at hrun
      refine (hrun.imp (fun h => Or.inl ?_) fun _ h => h).bind fun ⟨m', _⟩ ⟨_, hc⟩ => ?_
      · have := splits_le base top m
        omega
      have hin : ∀ a, base ≤ a ∧ a < top → typesAt m' a = {memmapReservedMapped} := by
        intro a ha
        rw [hc.types_inside (by omega)]
        ext t
        exact ⟨fun h => h.1, fun h => ⟨h, fun hu => absurd hu (by decide)⟩⟩
      refine ⟨hc.sanitised, ?_, fun a => ?_, fun _ _ a ha => ?_⟩
      · have := hc.length_le
        have := splits_le base (base + (top - base)) m
        omega
      · by_cases ha : base ≤ a ∧ a < top
        · exact Or.inr ⟨hin a ha, hskip, hpad a ha.1 ha.2⟩
        · exact Or.inl (hc.types_outside hm (by omega))
      · have h₁ := ha.1
        have h₂ := ha.2
        exact Mapped.of_reserved (hin a ⟨by omega, by omega⟩)

end Step

/-! ## A run of calls -/

section Run

variable (cfg : Config) (mc : Machine)

/-- What a run of calls does to the map. -/
structure TableRun (calls : List TableCall) (m m' : Memmap) : Prop where
  keeps : ∀ a, Mapped m a → Mapped m' a
  mapped : StartsDecide cfg mc m calls → ∀ c ∈ calls, c.Visited mc → ∀ a ∈ c.extent mc, Mapped m' a
  types : ∀ a, (∀ c ∈ calls, c.Visited mc → a ∉ c.extent mc) → typesAt m' a = typesAt m a ∨
    (∃ c ∈ calls, c.Visited mc ∧ c.Padding mc a) ∧ Plain m a ∧ typesAt m' a = {memmapReservedMapped}

theorem Plain.of_types {m m' : Memmap} {a : Nat} (h : Plain m' a) (ht : typesAt m' a = typesAt m a) :
    Plain m a := by
  unfold Plain
  rw [← ht]
  exact h

theorem mapTables_ensures (calls : List TableCall) :
    ∀ m, Sanitised cfg.keepFirstPage false m → (∀ c ∈ calls, c.Visited mc → c.Fits mc) →
      (mapTables cfg mc m calls).Ensures
        (cfg.maxEntries < 2 ^ calls.length * (m.length + 1) ∨
          ∃ c ∈ calls, 2 ^ 64 ≤ c.addr + c.length mc + 4095)
        (TableRun cfg mc calls m) := by
  unfold mapTables
  induction calls with
  | nil =>
    intro m _ _
    exact ⟨fun _ h => h, by simp, fun _ _ => Or.inl rfl⟩
  | cons c calls ih =>
    intro m hm hfit
    have hpow : 0 < 2 ^ calls.length := Nat.two_pow_pos _
    have hstep : (mapSingleTable cfg mc m c).Ensures _ _ :=
      mapSingleTable_ensures hm (hfit c List.mem_cons_self)
    rw [List.foldlM_cons, List.length_cons, Nat.pow_succ, Nat.mul_assoc]
    cases hrun : mapSingleTable cfg mc m c with
    | error stop =>
      rw [hrun] at hstep
      cases stop with
      | panic msg =>
        have hstop : cfg.maxEntries ≤ 2 * m.length ∨ 2 ^ 64 ≤ c.addr + c.length mc + 4095 := hstep
        refine hstop.imp (fun hfull => ?_) fun h => ⟨c, List.mem_cons_self, h⟩
        have := Nat.le_mul_of_pos_left (2 * (m.length + 1)) hpow
        omega
      | outOfFuel => exact hstep.elim
    | ok m₁ =>
      have hs := hstep.of_ok hrun
      refine (ih m₁ hs.sanitised fun x hx => hfit x (List.mem_cons_of_mem c hx)).imp ?_ ?_
      · rintro (hfull | ⟨x, hx, h⟩)
        · left
          have := hs.length_le
          have hgrow : m₁.length + 1 ≤ 2 * (m.length + 1) := by
            have := hs.length_le
            omega
          exact Nat.lt_of_lt_of_le hfull (Nat.mul_le_mul_left _ hgrow)
        · exact Or.inr ⟨x, List.mem_cons_of_mem c hx, h⟩
      · intro m' h
        refine ⟨fun a ha => h.keeps a (hs.keeps_mapped ha), ?_, fun a ha => ?_⟩
        · rintro ⟨hc, hrest⟩ x hx hv a ha
          rcases List.mem_cons.mp hx with rfl | hx
          · exact h.keeps a (hs.mapped hv hc a ha)
          · exact h.mapped (hrest m₁ hrun) x hx hv a ha
        · have hrest := h.types a fun x hx => ha x (List.mem_cons_of_mem c hx)
          rcases hs.types a with ht | ⟨ht, hv, hin⟩
          · rcases hrest with ht' | ⟨⟨x, hx, hp⟩, hplain, ht'⟩
            · exact Or.inl (ht'.trans ht)
            · exact Or.inr ⟨⟨x, List.mem_cons_of_mem c hx, hp⟩, hplain.of_types ht, ht'⟩
          · -- the padding of this call, which later ones keep
            obtain ⟨hp, hplain⟩ := hin.resolve_left (ha c List.mem_cons_self hv)
            refine Or.inr ⟨⟨c, List.mem_cons_self, hv, hp⟩, hplain, ?_⟩
            rcases hrest with ht' | ⟨-, -, ht'⟩
            · exact ht'.trans ht
            · exact ht'

/-- **Firmware tables end up mapped.**  A run panics only for want of room or where a page's end
is past 64 bits; other memory is retyped only as padding, and every table is mapped if the first
byte of each speaks for the whole of it. -/
theorem mapTables_maps (calls : List TableCall) (m : Memmap)
    (hm : Sanitised cfg.keepFirstPage false m) (hfit : ∀ c ∈ calls, c.Visited mc → c.Fits mc) :
    (mapTables cfg mc m calls).Ensures
      (cfg.maxEntries < 2 ^ calls.length * (m.length + 1) ∨
        ∃ c ∈ calls, 2 ^ 64 ≤ c.addr + c.length mc + 4095)
      fun m' =>
        (StartsDecide cfg mc m calls → ∀ c ∈ calls, c.Visited mc → ∀ a ∈ c.extent mc, Mapped m' a) ∧
        ∀ a, (∀ c ∈ calls, c.Visited mc → a ∉ c.extent mc) → typesAt m' a ≠ typesAt m a →
          (∃ c ∈ calls, c.Visited mc ∧ c.Padding mc a) ∧ Plain m a ∧
            typesAt m' a = {memmapReservedMapped} := by
  refine (mapTables_ensures cfg mc calls m hm hfit).imp id fun m' h => ⟨h.mapped, ?_⟩
  intro a ha hne
  exact (h.types a ha).resolve_left hne

/-- Two tables in one page, the second of which starts in the padding of the first. -/
theorem mapTables_maps_page :
    ∃ m', mapTables ⟨512, true, true⟩ ⟨false, fun _ => 0⟩ [⟨0x1000, 0x3000, memmapReserved⟩]
        [⟨0x1f00, 0x200⟩, ⟨0x2200, 0x80⟩] = .ok m' ∧
      ∀ a, 0x1f00 ≤ a → a < 0x2100 → Mapped m' a := by
  have hm : Sanitised true false [⟨0x1000, 0x3000, memmapReserved⟩] :=
    ⟨by unfold NoneOverflows; decide, List.pairwise_singleton _ _, List.pairwise_singleton _ _,
      by decide, fun e he ht => absurd ht (by rw [List.mem_singleton.mp he]; decide),
      fun _ _ _ => Or.inl rfl, List.IsChain.singleton _⟩
  have hfirst : mapSingleTable ⟨512, true, true⟩ ⟨false, fun _ => 0⟩
      [⟨0x1000, 0x3000, memmapReserved⟩] ⟨0x1f00, 0x200⟩ =
        .ok [⟨0x1000, 0x2000, memmapReservedMapped⟩, ⟨0x3000, 0x1000, memmapReserved⟩] := rfl
  have hstarts : StartsDecide ⟨512, true, true⟩ ⟨false, fun _ => 0⟩
      [⟨0x1000, 0x3000, memmapReserved⟩] [⟨0x1f00, 0x200⟩, ⟨0x2200, 0x80⟩] := by
    refine ⟨fun h => absurd h (by decide), fun m' hrun => ?_⟩
    obtain rfl := Except.ok.inj (hfirst.symm.trans hrun)
    exact ⟨fun h => absurd h (by decide), fun _ _ => trivial⟩
  have hrun := mapTables_maps ⟨512, true, true⟩ ⟨false, fun _ => 0⟩
    [⟨0x1f00, 0x200⟩, ⟨0x2200, 0x80⟩] [⟨0x1000, 0x3000, memmapReserved⟩] hm
    fun c hc _ => by
      rcases List.mem_pair.mp hc with rfl | rfl
      all_goals
        unfold TableCall.Fits
        decide
  refine ⟨_, rfl, fun a h₁ h₂ => ?_⟩
  exact (hrun.of_ok rfl).1 hstarts _ List.mem_cons_self (fun h => absurd h.1 (by decide)) a ⟨h₁, h₂⟩

/-- A table whose first page is ACPI memory and whose second is not: the second stays reserved. -/
theorem mapTables_straddles :
    Sanitised true false [⟨0x1000, 0x1000, memmapAcpiReclaimable⟩, ⟨0x2000, 0x1000, memmapReserved⟩] ∧
    ∃ m', mapTables ⟨512, true, true⟩ ⟨false, fun _ => 0⟩
        [⟨0x1000, 0x1000, memmapAcpiReclaimable⟩, ⟨0x2000, 0x1000, memmapReserved⟩]
        [⟨0x1f00, 0x200⟩] = .ok m' ∧
      0x2000 ∈ (⟨0x1f00, 0x200⟩ : TableCall).extent ⟨false, fun _ => 0⟩ ∧ ¬ Mapped m' 0x2000 := by
  refine ⟨⟨by unfold NoneOverflows; decide, ?_, ?_, by decide, ?_, fun _ _ _ => Or.inl rfl, ?_⟩,
    _, rfl, ⟨by decide, by decide⟩, ?_⟩
  · exact List.pairwise_pair.mpr (by decide)
  · exact List.pairwise_pair.mpr fun h => absurd h (by decide)
  · intro e he ht
    rcases List.mem_pair.mp he with rfl | rfl
    all_goals cases ht
  · exact List.isChain_cons_cons.mpr ⟨fun h => absurd h.2.1 (by decide), List.IsChain.singleton _⟩
  · simp [Mapped, Covers, typesAt, memmapReserved, memmapReservedMapped, memmapAcpiReclaimable,
      memmapAcpiNvs]

end Run

end Limine.Acpi
