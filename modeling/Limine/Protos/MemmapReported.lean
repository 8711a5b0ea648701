import Limine.Protos.HhdmWindow
import Limine.Pmm.ReclaimUefi

/-!
# What the memory map reports is mapped

`build_pagemap` fills the direct map from a snapshot of the memory map, and the executable is given
the map as it is at the end.  What is allocated in between was usable before, so it is mapped if the
snapshot holds every entry; but the snapshot has as many entries as there were before the allocation
that it is kept in.

    HeldBy offset calls: the direct map has the address
    Within … (HeldBy …) m → allocations, reclaiming EFI memory, sanitising → Within … (HeldBy …) m'
-/

namespace Limine.Protos
open Limine.Loader Limine.Lib Limine.Elf Limine.Vmm Limine.Pmm MemmapEntry
open Limine.Efi (EfiMemoryDescriptor)

/-! ## From the snapshot to the response -/

def extMemAlloc (cfg : Config) (s : PmmState) (count : Nat) : Exec (PmmState × Nat) :=
  extMemAllocTypeAlignedMode cfg s count memmapBootloaderReclaimable 4096 false

def extMemAllocCounted (cfg : Config) (s : PmmState) (count elemSize : Nat) : Exec (PmmState × Nat) :=
  match checkedMul count elemSize with
  | none => .error (.panic "ext_mem_alloc_counted: allocation size overflow")
  | some size => extMemAlloc cfg s size

/-- `sizeof(struct memmap_entry)` -/
def sizeofMemmapEntry : Nat := 24

/-- The snapshot of `build_pagemap`: the first entries of the array, of which `stale` are left behind
the ones in use. -/
def takeSnapshot (cfg : Config) (s : PmmState) (stale : Memmap) : Exec (PmmState × Memmap) := do
  let count := s.memmap.length
  let (s, _) ← extMemAllocCounted cfg s count sizeofMemmapEntry
  return (s, (s.memmap ++ stale).take count)

/-- Calls of `ext_mem_alloc` for so many bytes each. -/
def extMemAllocs (cfg : Config) (s : PmmState) (counts : List Nat) : Exec PmmState :=
  counts.foldlM (fun s count => do
    let (s, _) ← extMemAlloc cfg s count
    return s) s

/-- The firmware's map, on UEFI. -/
def reclaimed (cfg : Config) (efiMmap : Option (List EfiMemoryDescriptor)) (m : Memmap) : Exec Memmap :=
  match efiMmap with
  | some efiMmap => pmmReclaimUefiMem cfg efiMmap m false
  | none => .ok m

/-- `get_memmap`, after boot services. -/
def getMemmap (cfg : Config) (efiMmap : Option (List EfiMemoryDescriptor)) (s : PmmState) : Exec PmmState := do
  let m ← reclaimed cfg efiMmap s.memmap
  let m ← pmmSanitiseEntries cfg.maxEntries cfg.keepFirstPage m true
  return { s with memmap := m, allocationsDisallowed := true }

/-- The types whose memory the protocol places in the direct map. -/
def Reported (baseRevision type : Nat) : Prop :=
  type = memmapUsable ∨ type = memmapBootloaderReclaimable ∨ type = memmapKernelAndModules ∨
    type = memmapFramebuffer ∨
    4 ≤ baseRevision ∧ (type = memmapAcpiReclaimable ∨ type = memmapAcpiNvs ∨ type = memmapReservedMapped)

/-- No filter leaves them out. -/
theorem Reported.admitted {baseRevision type : Nat} (h : Reported baseRevision type) :
    directMapSkips baseRevision type = false := by
  unfold directMapSkips
  rcases h with rfl | rfl | rfl | rfl | ⟨hrev, rfl | rfl | rfl⟩
  · simp [memmapReserved, memmapBadMemory, memmapUsable]
  · simp [memmapReserved, memmapBadMemory, memmapUsable, memmapBootloaderReclaimable]
  · simp [memmapReserved, memmapBadMemory, memmapUsable, memmapBootloaderReclaimable, memmapKernelAndModules]
  · simp [memmapFramebuffer, memmapReserved, memmapBadMemory, memmapUsable, memmapBootloaderReclaimable,
      memmapKernelAndModules]
  all_goals
    have hthree : (baseRevision == 3) = false := by
      rw [beq_eq_false_iff_ne]
      omega
    rw [hthree]
    simp [memmapAcpiReclaimable, memmapAcpiNvs, memmapReservedMapped, memmapReserved, memmapBadMemory]

theorem directMapSkips_usable (baseRevision : Nat) : directMapSkips baseRevision memmapUsable = false :=
  Reported.admitted (.inl rfl)

theorem directMapSkips_efiReclaimable (baseRevision : Nat) :
    directMapSkips baseRevision memmapEfiReclaimable = false := by
  unfold directMapSkips
  simp [memmapEfiReclaimable, memmapReserved, memmapBadMemory]

/-! ## What is held stays held -/

section
variable {cfg : Config} {baseRevision : Nat} {held : Set Nat} {s : PmmState}

/-- An allocation takes usable memory, which is held. -/
theorem Within.extMemAllocAligned (h : Within baseRevision held s.memmap) (count type : Nat) {alignment : Nat}
    (ha : 0 < alignment) (allowHighAllocs : Bool) :
    (extMemAllocTypeAlignedMode cfg s count type alignment allowHighAllocs).Ensures True
      fun r => Within baseRevision held r.1.memmap := by
  refine (extMemAlloc_ensures cfg h.wf count type ha allowHighAllocs).imp id ?_
  rintro ⟨s', p⟩ ⟨n, hi, -, -, -, -, -, hres⟩
  obtain ⟨e, he, hu, h1, h2⟩ := hres.inEntry
  refine h.retype hres.holds fun _ a hlo hhi => ?_
  refine h.mem memmapUsable a (directMapSkips_usable _) ⟨e, he, hu, ?_⟩
  rw [mem_span]
  omega

theorem Within.extMemAlloc (h : Within baseRevision held s.memmap) {count : Nat} {r : PmmState × Nat}
    (hrun : extMemAlloc cfg s count = .ok r) : Within baseRevision held r.1.memmap := by
  have hpos : 0 < 4096 := by decide
  unfold Protos.extMemAlloc at hrun
  generalize 4096 = alignment at hpos hrun
  exact (h.extMemAllocAligned count memmapBootloaderReclaimable hpos false).of_ok hrun

theorem Within.extMemAllocs {counts : List Nat} {s' : PmmState} (h : Within baseRevision held s.memmap)
    (hrun : extMemAllocs cfg s counts = .ok s') : Within baseRevision held s'.memmap := by
  unfold Protos.extMemAllocs at hrun
  induction counts generalizing s with
  | nil =>
    cases hrun
    exact h
  | cons count counts ih =>
    rw [List.foldlM_cons] at hrun
    obtain ⟨s₁, hone, hrun⟩ := except_bind_eq_ok.mp hrun
    obtain ⟨r, halloc, hone⟩ := except_bind_eq_ok.mp hone
    cases hone
    exact ih (h.extMemAlloc halloc) hrun

/-- A descriptor gives a type to what it has in an entry noted before, which is held. -/
theorem Within.reclaimEntry {m m' : Memmap} (h : Within baseRevision held m) {r : MemmapEntry}
    (hr : ∀ a ∈ r.span, a ∈ held) {d : EfiMemoryDescriptor} {raw : Bool}
    (hrun : reclaimEntry cfg raw r m d = .ok m') : Within baseRevision held m' := by
  unfold Pmm.reclaimEntry at hrun
  cases hclip : clipToEntry r d with
  | none =>
    rw [hclip] at hrun
    cases hrun
    exact h
  | some p =>
    obtain ⟨b, n⟩ := p
    rw [hclip] at hrun
    obtain ⟨x, halloc, hrun⟩ := except_bind_eq_ok.mp hrun
    cases hrun
    obtain ⟨-, -, -, hspan⟩ := clipToEntry_some hclip
    have hout := (memmapAllocRangeIn_ensures cfg h.wf b n (ourType raw d.type) 0 true false false).of_ok halloc
    rcases hout with _ | _ | ⟨m₁, -, -, -, -, hholds⟩
    · exact h
    · exact h
    · exact h.retype hholds fun _ a h1 h2 => hr a ((hspan a).mp ⟨h1, h2⟩).1

theorem Within.pmmReclaimUefiMem {m m' : Memmap} (h : Within baseRevision held m)
    {efiMmap : List EfiMemoryDescriptor} {raw : Bool} (hrun : pmmReclaimUefiMem cfg efiMmap m raw = .ok m') :
    Within baseRevision held m' := by
  unfold Pmm.pmmReclaimUefiMem at hrun
  dsimp only at hrun
  split at hrun
  · cases hrun
  obtain ⟨m₁, hcarve, hsanitise⟩ := except_bind_eq_ok.mp hrun
  have hrecl : ∀ r ∈ m.filter fun e => e.type == memmapEfiReclaimable, ∀ a ∈ r.span, a ∈ held := by
    intro r hr a ha
    obtain ⟨hr, ht⟩ := List.mem_filter.mp hr
    exact h.mem memmapEfiReclaimable a (directMapSkips_efiReclaimable _) ⟨r, hr, beq_iff_eq.mp ht, ha⟩
  have h₁ : Within baseRevision held m₁ := by
    refine foldlM_keeps (fun r hr m m' hm hinner => ?_) h hcarve
    exact foldlM_keeps (fun d _ m m' hm hone => hm.reclaimEntry (hrecl r hr) hone) hm hinner
  obtain ⟨hwf, -, htypes⟩ := (sanitise_types h₁.wf.noneOverflows false).of_ok hsanitise
  exact h₁.of_types hwf htypes

theorem Within.getMemmap {efiMmap : Option (List EfiMemoryDescriptor)} {s' : PmmState}
    (h : Within baseRevision held s.memmap) (hrun : getMemmap cfg efiMmap s = .ok s') :
    Within baseRevision held s'.memmap := by
  obtain ⟨m, hreclaim, hrun⟩ := except_bind_eq_ok.mp hrun
  obtain ⟨m', hsanitise, hrun⟩ := except_bind_eq_ok.mp hrun
  cases hrun
  have h₁ : Within baseRevision held m := by
    cases efiMmap with
    | none =>
      cases hreclaim
      exact h
    | some efiMmap => exact h.pmmReclaimUefiMem hreclaim
  obtain ⟨hwf, -, htypes⟩ := (sanitise_types h₁.wf.noneOverflows true).of_ok hsanitise
  exact h₁.of_types hwf htypes

end

/-! ## The snapshot -/

/-- The addresses that the direct map leads to, at its offset. -/
def HeldBy (offset : Nat) (calls : List MapCall) : Set Nat :=
  {a | ∃ l, overlays64 calls (fun _ => none) (offset + a) = some l ∧ l.phys = a}

/-- No entry of an admitted type reaches past the end of the direct map's window. -/
def InWindow (baseRevision offset : Nat) (m : Memmap) : Prop :=
  ∀ e ∈ m, directMapSkips baseRevision e.type = false → offset + (e.base + e.length) ≤ 2 ^ 64

instance (baseRevision offset : Nat) (m : Memmap) : Decidable (InWindow baseRevision offset m) :=
  inferInstanceAs (Decidable (∀ e ∈ m, _))

section
variable {baseRevision offset : Nat} {snapshot : Memmap}

/-- In the window an entry has its addresses mapped, or they are in the first 4 GiB. -/
theorem directMapped_of_mem (hoffset : 2 ^ 63 ≤ offset) (hwindow : InWindow baseRevision offset snapshot)
    {e : MemmapEntry} (he : e ∈ snapshot) (hskip : directMapSkips baseRevision e.type = false) {a : Nat}
    (ha : a ∈ e.span) : DirectMapped baseRevision snapshot a := by
  have hend := hwindow e he hskip
  rw [mem_span] at ha
  by_cases hlow : baseRevision < 3 ∧ a < 0x100000000
  · exact .inl hlow
  · have hbase : hhdmBase baseRevision e.base ≤ a := by
      unfold hhdmBase
      split <;> omega
    refine .inr (.inl ⟨e, he, hskip, by omega, by omega, ?_, ?_⟩)
    · exact Nat.le_trans (alignDown_le _ _) hbase
    · omega

theorem directMapSkips_zero (type : Nat) : directMapSkips 0 type = false := by
  unfold directMapSkips
  simp

/-- In revision 0 the direct map does not get in its own way. -/
theorem not_directMapped_self (hoffset : 2 ^ 63 ≤ offset) (hwindow : InWindow 0 offset snapshot) (a : Nat) :
    ¬DirectMapped 0 snapshot (offset + a) := by
  have hend : ∀ e ∈ snapshot, (e.base + e.length + 0xfff) / 0x1000 * 0x1000 ≤ 2 ^ 63 := by
    intro e he
    have := hwindow e he (directMapSkips_zero _)
    omega
  rintro (⟨-, hlow⟩ | ⟨e, he, -, -, -, -, hext⟩ | ⟨e, he, -, -, -, hext⟩)
  · omega
  · have := hend e he
    omega
  · have := hend e he
    omega

/-- What the snapshot lets `build_pagemap` map is held. -/
theorem directMapped_held {mode : PagingMode} {randomise : Bool} {rand : Nat} (x86 nx : Bool)
    (ranges : List MemRange) (physicalBase virtualBase : Nat)
    (hwindow : InWindow baseRevision (setPagingMode mode randomise rand) snapshot) {a : Nat}
    (ha : setPagingMode mode randomise rand + a < 2 ^ 64) (hmapped : DirectMapped baseRevision snapshot a) :
    a ∈ HeldBy (setPagingMode mode randomise rand) (pagemapCalls x86 nx ranges physicalBase virtualBase
      baseRevision (setPagingMode mode randomise rand) snapshot) := by
  obtain ⟨h63, -⟩ := setPagingMode_ge mode randomise rand
  have hself : baseRevision = 0 → ¬DirectMapped 0 snapshot (setPagingMode mode randomise rand + a) := by
    rintro rfl
    exact not_directMapped_self h63 hwindow a
  have hspec := directMapCalls_overlay x86 (Nat.le_trans (by decide) h63) ha hself
    (overlays64 (ranges.map (rangeCall nx physicalBase virtualBase)) fun _ => none)
  show ∃ l, overlays64 (_ ++ _) _ _ = some l ∧ l.phys = a
  rw [overlays64_append, hspec]
  by_cases hfb : ∃ e ∈ snapshot, InFramebuffer e a
  · rw [if_pos hfb]
    exact ⟨_, rfl, rfl⟩
  · rw [if_neg hfb, if_pos hmapped]
    exact ⟨_, rfl, rfl⟩

end

/-- **What the memory map reports is mapped**, where every entry that the snapshot leaves out is of a
type the direct map leaves out, or in the first 4 GiB that the lower revisions map whole: whatever is
allocated before the snapshot and after it, each byte of the final map whose type the protocol places in
the direct map is there. -/
theorem reported_mapped (cfg : Config) (x86 nx randomise : Bool) (mode : PagingMode) (rand : Nat)
    (ranges : List MemRange) (physicalBase virtualBase baseRevision : Nat)
    (efiMmap : Option (List EfiMemoryDescriptor)) {keepFirstPage alignEntries : Bool}
    {s₀ s₁ s₂ s₃ s₄ : PmmState} (hm₀ : Sanitised keepFirstPage alignEntries s₀.memmap)
    (before after : List Nat) (stale : Memmap) {snapshot : Memmap}
    (hbefore : extMemAllocs cfg s₀ before = .ok s₁) (hsnapshot : takeSnapshot cfg s₁ stale = .ok (s₂, snapshot))
    (hafter : extMemAllocs cfg s₂ after = .ok s₃) (hget : getMemmap cfg efiMmap s₃ = .ok s₄)
    (hdropped : ∀ e ∈ s₂.memmap.drop s₁.memmap.length,
      directMapSkips baseRevision e.type = true ∨ baseRevision < 3 ∧ e.base + e.length ≤ 0x100000000)
    (hwindow : InWindow baseRevision (setPagingMode mode randomise rand) snapshot) :
    ∀ e ∈ s₄.memmap, Reported baseRevision e.type → ∀ a ∈ e.span,
      ∃ l, overlays64 (pagemapCalls x86 nx ranges physicalBase virtualBase baseRevision
        (setPagingMode mode randomise rand) snapshot) (fun _ => none)
          (setPagingMode mode randomise rand + a) = some l ∧ l.phys = a := by
  have hwf₀ : Within baseRevision Set.univ s₀.memmap :=
    ⟨⟨hm₀.noneOverflows, hm₀.disjoint⟩, fun _ _ _ _ => Set.mem_univ _⟩
  have hwf₁ := hwf₀.extMemAllocs hbefore
  obtain ⟨r, halloc, hret⟩ := except_bind_eq_ok.mp hsnapshot
  obtain ⟨rfl, rfl⟩ := Prod.mk.inj (Except.ok.inj hret)
  have hwf₂ : Wf r.1.memmap := by
    unfold extMemAllocCounted at halloc
    split at halloc
    · cases halloc
    · exact (hwf₁.extMemAlloc halloc).wf
  -- every address of the live map with an admitted type is mapped from the snapshot
  have hheld : Within baseRevision (HeldBy (setPagingMode mode randomise rand) (pagemapCalls x86 nx ranges
      physicalBase virtualBase baseRevision (setPagingMode mode randomise rand)
      ((r.1.memmap ++ stale).take s₁.memmap.length))) r.1.memmap := by
    refine ⟨hwf₂, ?_⟩
    rintro t a hskip ⟨e, he, rfl, ha⟩
    obtain ⟨h63, -⟩ := setPagingMode_ge mode randomise rand
    have hspan := mem_span.mp ha
    rw [← List.take_append_drop s₁.memmap.length r.1.memmap] at he
    rcases List.mem_append.mp he with he | he
    · have hmem : e ∈ (r.1.memmap ++ stale).take s₁.memmap.length := by
        rw [List.take_append]
        exact List.mem_append_left _ he
      have hend := hwindow e hmem hskip
      exact directMapped_held x86 nx ranges physicalBase virtualBase hwindow (by omega)
        (directMapped_of_mem h63 hwindow hmem hskip ha)
    · rcases hdropped e he with hskip' | ⟨hrev, hlow⟩
      · rw [hskip] at hskip'
        cases hskip'
      · have hbits : 37 ≤ mode.vaBits - 2 := by
          have := mode.vaBits_ge
          omega
        have hroom : 0x100000000 < 2 ^ (mode.vaBits - 2) :=
          Nat.lt_of_lt_of_le (by decide) (Nat.pow_le_pow_right (by decide) hbits)
        have hlt := window_lt mode randomise rand hroom
        exact directMapped_held x86 nx ranges physicalBase virtualBase hwindow (by omega)
          (.inl ⟨hrev, by omega⟩)
  have hend := (hheld.extMemAllocs hafter).getMemmap hget
  intro e he hreported a ha
  exact hend.mem e.type a hreported.admitted ⟨e, he, rfl, ha⟩

/-! ## Two runs -/

/-- The page tables of a small executable: four pages. -/
def fourTables : List Nat := [0x1000, 0x1000, 0x1000, 0x1000]

def smallExecutable : List MemRange := [⟨0xffffffff80000000, 0x1000, 7⟩]

/-- All memory in one entry. -/
def oneRegion : PmmState := ⟨[⟨0x100000, 0x10000000, memmapUsable⟩], 4096, false⟩

/-- The same with its upper part allocated. -/
def allocated (usable base length : Nat) (disallowed : Bool) : PmmState :=
  ⟨[⟨0x100000, usable, memmapUsable⟩, ⟨base, length, memmapBootloaderReclaimable⟩], 4096, disallowed⟩

/-- And four pages above it, as many as the page tables take. -/
def twoRegions : PmmState :=
  ⟨[⟨0x100000, 0x10000000, memmapUsable⟩, ⟨0x20000000, 0x4000, memmapUsable⟩], 4096, false⟩

theorem oneRegion_sanitised : Sanitised true false oneRegion.memmap :=
  ⟨by unfold NoneOverflows; decide, List.pairwise_singleton _ _, List.pairwise_singleton _ _, by decide,
    fun e he _ => by
      obtain rfl := List.mem_singleton.mp he
      exact ⟨by decide, fun h => absurd h (by decide)⟩,
    fun _ _ _ => .inl rfl, List.IsChain.singleton _⟩

/-- Where the snapshot's page is next to those of the page tables, nothing is dropped. -/
theorem reported_mapped_oneRegion :
    ∃ s₁ s₂ s₃ s₄ snapshot, extMemAllocs ⟨512, true, true⟩ oneRegion fourTables = .ok s₁ ∧
      takeSnapshot ⟨512, true, true⟩ s₁ [] = .ok (s₂, snapshot) ∧
      extMemAllocs ⟨512, true, true⟩ s₂ [0x2000] = .ok s₃ ∧ getMemmap ⟨512, true, true⟩ none s₃ = .ok s₄ ∧
      ∃ l, overlays64 (pagemapCalls true true smallExecutable 0x100000 0xffffffff80000000 3
        (setPagingMode .x86Lvl4 false 0) snapshot) (fun _ => none)
          (setPagingMode .x86Lvl4 false 0 + 0x100f9000) = some l ∧ l.phys = 0x100f9000 := by
  have hbefore : extMemAllocs ⟨512, true, true⟩ oneRegion fourTables =
      .ok (allocated 0xfffc000 0x100fc000 0x4000 false) := rfl
  have hsnapshot : takeSnapshot ⟨512, true, true⟩ (allocated 0xfffc000 0x100fc000 0x4000 false) [] =
      .ok (allocated 0xfffb000 0x100fb000 0x5000 false, (allocated 0xfffb000 0x100fb000 0x5000 false).memmap) := by
    decide +kernel
  have hafter : extMemAllocs ⟨512, true, true⟩ (allocated 0xfffb000 0x100fb000 0x5000 false) [0x2000] =
      .ok (allocated 0xfff9000 0x100f9000 0x7000 false) := rfl
  have hget : getMemmap ⟨512, true, true⟩ none (allocated 0xfff9000 0x100f9000 0x7000 false) =
      .ok (allocated 0xfff9000 0x100f9000 0x7000 true) := rfl
  have hwindow : InWindow 3 (setPagingMode .x86Lvl4 false 0) (allocated 0xfffb000 0x100fb000 0x5000 false).memmap := by
    decide
  refine ⟨_, _, _, _, _, hbefore, hsnapshot, hafter, hget, ?_⟩
  exact reported_mapped ⟨512, true, true⟩ true true false .x86Lvl4 0 smallExecutable 0x100000 0xffffffff80000000 3
    none oneRegion_sanitised fourTables [0x2000] [] hbefore hsnapshot hafter hget (by decide) hwindow
    ⟨0x100f9000, 0x7000, memmapBootloaderReclaimable⟩ (by decide) (.inr (.inl rfl)) 0x100f9000
    ⟨by decide, by decide⟩

/-- Where it is elsewhere, the entry of the page tables is not in the snapshot, and not mapped. -/
theorem reported_not_mapped :
    ∃ s₁ s₂ s₃ s₄ snapshot, extMemAllocs ⟨512, true, true⟩ twoRegions fourTables = .ok s₁ ∧
      takeSnapshot ⟨512, true, true⟩ s₁ [] = .ok (s₂, snapshot) ∧
      extMemAllocs ⟨512, true, true⟩ s₂ [0x2000] = .ok s₃ ∧ getMemmap ⟨512, true, true⟩ none s₃ = .ok s₄ ∧
      ⟨0x20000000, 0x4000, memmapBootloaderReclaimable⟩ ∈ s₄.memmap ∧
      overlays64 (pagemapCalls true true smallExecutable 0x100000 0xffffffff80000000 3
        (setPagingMode .x86Lvl4 false 0) snapshot) (fun _ => none)
          (setPagingMode .x86Lvl4 false 0 + 0x20000000) = none := by
  refine ⟨⟨[⟨0x100000, 0x10000000, memmapUsable⟩, ⟨0x20000000, 0x4000, memmapBootloaderReclaimable⟩], 4096, false⟩,
    ⟨[⟨0x100000, 0xffff000, memmapUsable⟩, ⟨0x100ff000, 0x1000, memmapBootloaderReclaimable⟩,
      ⟨0x20000000, 0x4000, memmapBootloaderReclaimable⟩], 4096, false⟩,
    ⟨[⟨0x100000, 0xfffd000, memmapUsable⟩, ⟨0x100fd000, 0x3000, memmapBootloaderReclaimable⟩,
      ⟨0x20000000, 0x4000, memmapBootloaderReclaimable⟩], 4096, false⟩,
    ⟨[⟨0x100000, 0xfffd000, memmapUsable⟩, ⟨0x100fd000, 0x3000, memmapBootloaderReclaimable⟩,
      ⟨0x20000000, 0x4000, memmapBootloaderReclaimable⟩], 4096, true⟩,
    [⟨0x100000, 0xffff000, memmapUsable⟩, ⟨0x100ff000, 0x1000, memmapBootloaderReclaimable⟩],
    rfl, rfl, rfl, rfl, by decide, ?_⟩
  decide

end Limine.Protos
