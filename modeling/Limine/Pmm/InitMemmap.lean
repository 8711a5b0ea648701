import Limine.Pmm.AllocRuns
import Limine.Pmm.Overflowing
import Limine.Lib.Triple

/-!
# `init_memmap` of the BIOS build

The E820 map is copied entry by entry, usable entries clipped against `[EBDA, 1 MiB)`, then sanitised, and
the loader's own range is taken out of it.
-/

namespace Limine.Pmm

open Limine.Lib MemmapEntry

def lowMemoryEnd : Nat := 0x100000

/-- `length -= n` on `uint64_t`, which wraps. -/
def shorten (e : MemmapEntry) (n : Nat) : MemmapEntry :=
  { e with length := if n ≤ e.length then e.length - n else e.length + 2 ^ 64 - n }

/-- The body of the loop for `e = e820_map[i]`: what is left of it in `memmap`; `none` is a `continue`. -/
def takeEntry (ebda : Nat) (e : MemmapEntry) : Option MemmapEntry :=
  match checkedAdd e.base e.length with
  | none => none
  | some top =>
    if e.type ≠ memmapUsable then some e
    else if (ebda ≤ e.base ∧ e.base < lowMemoryEnd) ∧ top ≤ lowMemoryEnd then none
    else
      let e := if ebda ≤ e.base ∧ e.base < lowMemoryEnd then
          { shorten e (lowMemoryEnd - e.base) with base := lowMemoryEnd }
        else e
      some (if ebda < top ∧ top ≤ lowMemoryEnd then shorten e (top - ebda) else e)

def takeLoop (maxEntries ebda : Nat) : Memmap → Memmap → Exec Memmap
  | [], m => .ok m
  | e :: rest, m =>
    if m.length = maxEntries then .error (.panic "Memory map exhausted.")
    else
      match takeEntry ebda e with
      | none => takeLoop maxEntries ebda rest m
      | some e' => takeLoop maxEntries ebda rest (m ++ [e'])

/-- The `bss_end` that the linker places; the BIOS loader is linked to run at `0xf000`. -/
structure Image where
  bssEnd : Nat
  start_le : 0xf000 ≤ bssEnd

/-- `ALIGN_UP` on `uintptr_t`, which has 32 bits here. -/
def Image.top (image : Image) : Option Nat :=
  if image.bssEnd + 4095 < 2 ^ 32 then some (alignDown (image.bssEnd + 4095) 4096) else none

/-- The BIOS build: the first page is not kept, and `memmap` has `maxEntries` slots. -/
def biosConfig (maxEntries : Nat) : Config := ⟨maxEntries, false, true⟩

def initMemmap (maxEntries ebda : Nat) (image : Image) (e820 : Memmap) : Exec PmmState := do
  let cfg := biosConfig maxEntries
  let m ← takeLoop maxEntries ebda e820 []
  let m ← pmmSanitiseEntries maxEntries cfg.keepFirstPage m false
  match image.top with
  | none => .error (.panic "Alignment overflow")
  | some bssTop =>
    let (m, _) ← memmapAllocRangeIn cfg m 4096 (bssTop - 4096) memmapBootloaderReclaimable 0 true false false
    let m ← pmmSanitiseEntries maxEntries cfg.keepFirstPage m false
    return ⟨m, 4096, false⟩

/-!
## What `init_memmap` makes of the E820 map

Every usable entry loses what it has of `[EBDA, 1 MiB)`, except one that reaches beyond both ends: no
branch of the clipping is for it (`takeEntry_spec`).  The map is taken in as it should be exactly where no
such entry leaves the hole usable (`initMemmap_takes_iff`).
-/

/-- `a` lies in the hole between the EBDA and 1 MiB. -/
def InHole (ebda a : Nat) : Prop := ebda ≤ a ∧ a < lowMemoryEnd

/-- `e` begins below the hole and ends above it. -/
def Escapes (ebda : Nat) (e : MemmapEntry) : Prop := e.base < ebda ∧ lowMemoryEnd < e.base + e.length

/-- The entries of an E820 map that do not overflow. -/
def valid (e820 : Memmap) : Memmap := e820.filter fun e => decide e.NoOverflow

theorem covers_valid_iff {e820 : Memmap} {t a : Nat} :
    Covers (valid e820) t a ↔ ∃ e ∈ e820, e.NoOverflow ∧ e.type = t ∧ a ∈ e.span := by
  simp only [covers_iff, valid, List.mem_filter, decide_eq_true_eq, and_assoc]

/-! ## One entry -/

section
variable {ebda : Nat} {e x : MemmapEntry}

theorem shorten_base (n : Nat) : (shorten e n).base = e.base := rfl

theorem shorten_of_le {n : Nat} (h : n ≤ e.length) : shorten e n = { e with length := e.length - n } := by
  unfold shorten
  rw [if_pos h]

/-- What an empty entry is shortened by wraps. -/
theorem shorten_overflows {n : Nat} (hl : e.length = 0) (h0 : 0 < n) (hn : n ≤ e.base) (hb : e.base < 2 ^ 64) :
    ¬ (shorten e n).NoOverflow := by
  have hlength : (shorten e n).length = e.length + 2 ^ 64 - n := if_neg (by omega)
  rw [NoOverflow, hlength, shorten_base]
  omega

/-- What becomes of an entry that does not overflow. -/
theorem takeEntry_cases (he : e.NoOverflow) (hebda : ebda < lowMemoryEnd) :
    (e.type ≠ memmapUsable ∧ takeEntry ebda e = some e) ∨
    (e.type = memmapUsable ∧ ∀ a ∈ e.span, InHole ebda a) ∧ takeEntry ebda e = none ∨
    (∃ x, takeEntry ebda e = some x ∧ e.type = memmapUsable ∧ x.type = memmapUsable ∧ x.NoOverflow ∧
      ∀ a, a ∈ x.span ↔ a ∈ e.span ∧ (InHole ebda a → Escapes ebda e)) ∨
    (∃ x, takeEntry ebda e = some x ∧ e.type = memmapUsable ∧ x.type = memmapUsable ∧ ¬ x.NoOverflow ∧
      x.base < 2 ^ 64 ∧ e.length = 0) := by
  simp only [takeEntry, checkedAdd_eq_some he]
  simp only [NoOverflow] at he
  simp only [InHole, Escapes, mem_span]
  have hlow : lowMemoryEnd = 0x100000 := rfl
  by_cases hu : e.type = memmapUsable
  · rw [if_neg (not_not.mpr hu)]
    by_cases hin : ebda ≤ e.base ∧ e.base < lowMemoryEnd
    · by_cases htop : e.base + e.length ≤ lowMemoryEnd
      · -- inside the hole
        rw [if_pos ⟨hin, htop⟩]
        exact .inr (.inl ⟨⟨hu, fun a ha => by omega⟩, rfl⟩)
      · -- it begins there
        rw [if_neg (fun h => htop h.2), if_pos hin, if_neg (fun h => htop h.2),
          shorten_of_le (by omega)]
        refine .inr (.inr (.inl ⟨_, rfl, hu, hu, ?_, fun a => ?_⟩))
        · simp only [NoOverflow]
          omega
        · simp only
          omega
    · rw [if_neg (fun h => hin h.1), if_neg hin]
      by_cases hend : ebda < e.base + e.length ∧ e.base + e.length ≤ lowMemoryEnd
      · rw [if_pos hend]
        by_cases hbase : e.base < ebda
        · -- it ends there
          rw [shorten_of_le (by omega)]
          refine .inr (.inr (.inl ⟨_, rfl, hu, hu, ?_, fun a => ?_⟩))
          · simp only [NoOverflow]
            omega
          · simp only
            omega
        · -- an empty entry at 1 MiB, whose length wraps
          exact .inr (.inr (.inr ⟨_, rfl, hu, hu, shorten_overflows (by omega) (by omega) (by omega) (by omega),
            by rw [shorten_base]; omega, by omega⟩))
      · rw [if_neg hend]
        exact .inr (.inr (.inl ⟨e, rfl, hu, hu, he, fun a => by omega⟩))
  · exact .inl ⟨hu, by rw [if_pos hu]⟩

theorem takeEntry_of_overflow (he : ¬ e.NoOverflow) : takeEntry ebda e = none := by
  rw [takeEntry, checkedAdd_eq_none_iff.mpr (Nat.le_of_not_lt he)]

end

/-! ## The map before the sanitiser -/

theorem takeLoop_eq (maxEntries ebda : Nat) (e820 m : Memmap) {m' : Memmap}
    (h : takeLoop maxEntries ebda e820 m = .ok m') : m' = m ++ e820.filterMap (takeEntry ebda) := by
  induction e820 generalizing m with
  | nil =>
    cases h
    rw [List.filterMap_nil, List.append_nil]
  | cons e rest ih =>
    rw [takeLoop] at h
    split at h
    · cases h
    · cases ht : takeEntry ebda e with
      | none =>
        rw [ht] at h
        rw [List.filterMap_cons_none ht]
        exact ih m h
      | some x =>
        rw [ht] at h
        rw [List.filterMap_cons_some ht, ih _ h, List.append_assoc, List.singleton_append]

/-- The map that the sanitiser works on, as far as it tells. -/
def taken (ebda : Nat) (e820 : Memmap) : Memmap := (e820.filterMap (takeEntry ebda)).map emptied

theorem takeEntry_passes {ebda : Nat} (hebda : ebda < lowMemoryEnd) (e820 : Memmap) :
    PassesFrom 0 (e820.filterMap (takeEntry ebda)) := by
  intro k x hx
  obtain ⟨e, -, ht⟩ := List.mem_filterMap.mp (List.mem_of_getElem? hx)
  by_cases he : e.NoOverflow
  · rcases takeEntry_cases he hebda with ⟨-, h⟩ | ⟨-, h⟩ | ⟨y, h, -, -, hy, -⟩ | ⟨y, h, -, hu, -, hb, -⟩
    · rw [h] at ht
      cases ht
      exact .inl he
    · rw [h] at ht
      cases ht
    · rw [h] at ht
      cases ht
      exact .inl hy
    · rw [h] at ht
      cases ht
      exact .inr ⟨Nat.zero_le k, hu, hb⟩
  · rw [takeEntry_of_overflow he] at ht
    cases ht

/-- Only usable entries lose something, and only of the hole. -/
theorem covers_taken_iff {ebda : Nat} (hebda : ebda < lowMemoryEnd) {e820 : Memmap} {t a : Nat} :
    Covers (taken ebda e820) t a ↔ ∃ e ∈ e820, e.NoOverflow ∧ e.type = t ∧ a ∈ e.span ∧
      (t = memmapUsable → InHole ebda a → Escapes ebda e) := by
  simp only [covers_iff, taken, List.mem_map, List.mem_filterMap]
  constructor
  · rintro ⟨_, ⟨x, ⟨e, he, ht⟩, rfl⟩, rfl, ha⟩
    by_cases hen : e.NoOverflow
    · refine ⟨e, he, hen, ?_⟩
      rcases takeEntry_cases hen hebda with ⟨hu, h⟩ | ⟨-, h⟩ | ⟨y, h, heu, hu, hy, hspan⟩ |
          ⟨y, h, -, -, hy, -⟩
      · rw [h] at ht
        cases ht
        rw [emptied_of_noOverflow hen] at ha ⊢
        exact ⟨rfl, ha, fun h => absurd h hu⟩
      · rw [h] at ht
        cases ht
      · rw [h] at ht
        cases ht
        rw [emptied_of_noOverflow hy] at ha ⊢
        obtain ⟨ha, hhole⟩ := (hspan a).mp ha
        exact ⟨heu.trans hu.symm, ha, fun _ => hhole⟩
      · rw [h] at ht
        cases ht
        rw [emptied_of_not hy] at ha
        have := mem_span.mp ha
        simp only at this
        omega
    · rw [takeEntry_of_overflow hen] at ht
      cases ht
  · rintro ⟨e, he, hen, rfl, ha, hhole⟩
    rcases takeEntry_cases hen hebda with ⟨hu, h⟩ | ⟨⟨hu, hall⟩, h⟩ | ⟨y, h, heu, hu, hy, hspan⟩ |
        ⟨y, h, -, -, -, -, hl⟩
    · exact ⟨e, ⟨e, ⟨e, he, h⟩, emptied_of_noOverflow hen⟩, rfl, ha⟩
    · -- an entry inside the hole does not escape from it
      have hesc := hhole hu (hall a ha)
      have hbase := hall e.base (mem_span.mpr ⟨Nat.le_refl _, by have := mem_span.mp ha; omega⟩)
      exact absurd hesc.1 (Nat.not_lt.mpr hbase.1)
    · exact ⟨y, ⟨y, ⟨e, he, h⟩, emptied_of_noOverflow hy⟩, hu.trans heu.symm, (hspan a).mpr ⟨ha, hhole heu⟩⟩
    · have := mem_span.mp ha
      omega

/-! ## The function -/

theorem Image.top_eq {image : Image} {bssTop : Nat} (h : image.top = some bssTop) :
    4096 < bssTop ∧ bssTop < 2 ^ 32 := by
  unfold Image.top at h
  have := image.start_le
  split at h
  · cases h
    unfold alignDown
    omega
  · cases h

/-- Nothing lies in an entry that overflows. -/
theorem memmapAllocRangeIn_of_overflow {cfg : Config} {m : Memmap} {bssTop : Nat} (hm : ∀ e ∈ m, ¬ e.NoOverflow)
    (hlo : 4096 < bssTop) (hhi : bssTop < 2 ^ 32) :
    memmapAllocRangeIn cfg m 4096 (bssTop - 4096) memmapBootloaderReclaimable 0 true false false =
      .error (.panic "Memory allocation failure.") := by
  have hany : m.any (holdsRange 0 4096 (4096 + (bssTop - 4096))) = false := by
    rw [List.any_eq_false]
    intro e he
    unfold holdsRange
    rw [checkedAdd_eq_none_iff.mpr (Nat.le_of_not_lt (hm e he))]
    simp
  unfold memmapAllocRangeIn
  rw [checkedAdd_eq_some (by omega)]
  simp [hany, show bssTop - 4096 ≠ 0 by omega]

/-- The types at the end: the loader's range apart, what the sanitiser makes of the clipped entries. -/
theorem initMemmap_types {maxEntries ebda : Nat} {image : Image} {e820 : Memmap} {s : PmmState}
    (hebda : ebda < lowMemoryEnd) (h : initMemmap maxEntries ebda image e820 = .ok s) :
    ∃ bssTop m, image.top = some bssTop ∧ Settles false false (taken ebda e820) m ∧
      s = ⟨s.memmap, 4096, false⟩ ∧
      Holds false (retype 4096 bssTop memmapBootloaderReclaimable (typesAt m)) s.memmap := by
  obtain ⟨m₀, htake, h⟩ := except_bind_eq_ok.mp h
  obtain ⟨m, hsan, h⟩ := except_bind_eq_ok.mp h
  rw [takeLoop_eq maxEntries ebda e820 [] htake, List.nil_append] at hsan
  have hpasses := takeEntry_passes hebda e820
  cases htop : image.top with
  | none =>
    rw [htop] at h
    cases h
  | some bssTop =>
    rw [htop] at h
    obtain ⟨hlo, hhi⟩ := Image.top_eq htop
    obtain ⟨⟨m₂, ok⟩, halloc, h⟩ := except_bind_eq_ok.mp h
    obtain ⟨m₃, hagain, h⟩ := except_bind_eq_ok.mp h
    cases h
    rcases pmmSanitiseEntries_emptied maxEntries false hpasses with hrun | ⟨m', hrun, hover⟩
    · obtain ⟨hclean, hsettles⟩ := (pmmSanitiseEntries_ensures maxEntries false hpasses.map_noneOverflows
        false).of_ok (hrun ▸ hsan)
      refine ⟨bssTop, m, rfl, hsettles, rfl, ?_⟩
      have hwf : Wf m := ⟨hclean.noneOverflows, hclean.disjoint⟩
      rcases (memmapAllocRangeIn_ensures (biosConfig maxEntries) hwf _ _ _ _ _ _ _).of_ok halloc with
        hpanic | hnothing | ⟨_, -, -, -, -, hholds⟩
      · cases hpanic
      · rcases hnothing with hzero | hsim
        · omega
        · cases hsim
      · rw [show 4096 + (bssTop - 4096) = bssTop by omega] at hholds
        exact (Holds.again (biosConfig maxEntries) hholds).of_ok hagain
    · cases hrun.symm.trans hsan
      rw [memmapAllocRangeIn_of_overflow hover hlo hhi] at halloc
      cases halloc

/-- The state it leaves is one that the allocators start from. -/
theorem initMemmap_start {maxEntries ebda : Nat} {image : Image} {e820 : Memmap} {s : PmmState}
    (hebda : ebda < lowMemoryEnd) (h : initMemmap maxEntries ebda image e820 = .ok s) : Start s := by
  obtain ⟨_, _, -, -, hs, hholds⟩ := initMemmap_types hebda h
  exact ⟨hholds.wf.noneOverflows, hholds.wf.disjoint, hholds.sorted, by rw [hs]⟩

section
variable {ebda bssTop a : Nat} {e820 m m' : Memmap}

theorem covers_above {t : Nat}
    (h : Holds false (retype 4096 bssTop memmapBootloaderReclaimable (typesAt m)) m') (ha : 0x1000 ≤ a)
    (htop : bssTop ≤ a) : Covers m' t a ↔ Covers m t a := by
  have hout : ¬ (4096 ≤ a ∧ a < bssTop) := by omega
  exact ⟨(h.frame a hout t).1, fun hc => (h.frame a hout t).2 hc fun _ => .inr ha⟩

/-- Above the loader, the types other than usable are those of the E820 map. -/
theorem covers_other_iff (hebda : ebda < lowMemoryEnd) {t : Nat} (hm : Settles false false (taken ebda e820) m)
    (h : Holds false (retype 4096 bssTop memmapBootloaderReclaimable (typesAt m)) m') (ha : 0x1000 ≤ a)
    (htop : bssTop ≤ a) (ht : t ≠ memmapUsable) : Covers m' t a ↔ Covers (valid e820) t a := by
  rw [covers_above h ha htop, hm.other a t ht, covers_taken_iff hebda, covers_valid_iff]
  simp only [ht, false_imp_iff, and_true]

/-- And what is usable is what a usable entry that need not be clipped there has alone. -/
theorem covers_usable_iff (hebda : ebda < lowMemoryEnd) (hm : Settles false false (taken ebda e820) m)
    (h : Holds false (retype 4096 bssTop memmapBootloaderReclaimable (typesAt m)) m') (ha : 0x1000 ≤ a)
    (htop : bssTop ≤ a) : Covers m' memmapUsable a ↔
      (∃ e ∈ e820, e.NoOverflow ∧ e.type = memmapUsable ∧ a ∈ e.span ∧ (InHole ebda a → Escapes ebda e)) ∧
      ∀ t, Covers (valid e820) t a → t = memmapUsable := by
  have hfree : Covers m memmapUsable a ↔ Free (taken ebda e820) a :=
    ⟨fun hc => (hm.usable a hc).1, fun hf => hm.free rfl a hf fun _ => .inr ha⟩
  have hcovers : Covers (taken ebda e820) memmapUsable a ↔
      ∃ e ∈ e820, e.NoOverflow ∧ e.type = memmapUsable ∧ a ∈ e.span ∧ (InHole ebda a → Escapes ebda e) := by
    rw [covers_taken_iff hebda]
    simp only [true_imp_iff]
  rw [covers_above h ha htop, hfree, Free, hcovers]
  refine and_congr_right fun _ => ⟨fun hall t ht => ?_, fun hall t ht => ?_⟩
  · by_contra hne
    refine hne (hall t ((covers_taken_iff hebda).mpr ?_))
    obtain ⟨e, he, hen, het, hae⟩ := covers_valid_iff.mp ht
    exact ⟨e, he, hen, het, hae, fun h => absurd h hne⟩
  · obtain ⟨e, he, hen, het, hae, -⟩ := (covers_taken_iff hebda).mp ht
    exact hall t (covers_valid_iff.mpr ⟨e, he, hen, het, hae⟩)

end

/-- What `init_memmap` has to make of the map; `bssTop` is the page-aligned end of the loader. -/
structure TakesIn (ebda bssTop : Nat) (e820 m : Memmap) : Prop where
  hole : ∀ a, InHole ebda a → ¬ Covers m memmapUsable a
  loader : ∀ a, 0x1000 ≤ a → a < bssTop → typesAt m a = {memmapBootloaderReclaimable}
  usable : ∀ a, 0x1000 ≤ a → bssTop ≤ a → ¬ InHole ebda a →
    (Covers m memmapUsable a ↔ Free (valid e820) a)
  other : ∀ a t, 0x1000 ≤ a → bssTop ≤ a → t ≠ memmapUsable → (Covers m t a ↔ Covers (valid e820) t a)

/-- Where a usable entry reaches beyond both ends of the hole, entries of other types cover what of the hole
lies above the loader. -/
def HoleCovered (ebda bssTop : Nat) (e820 : Memmap) : Prop :=
  ∀ a, InHole ebda a → bssTop ≤ a →
    (∃ e ∈ e820, e.NoOverflow ∧ e.type = memmapUsable ∧ Escapes ebda e) →
    ∃ e ∈ e820, e.NoOverflow ∧ e.type ≠ memmapUsable ∧ a ∈ e.span

theorem initMemmap_takes_iff {maxEntries ebda : Nat} {image : Image} {e820 : Memmap} {s : PmmState}
    (hlow : 0x1000 ≤ ebda) (hebda : ebda < lowMemoryEnd)
    (hrun : initMemmap maxEntries ebda image e820 = .ok s) :
    ∃ bssTop, image.top = some bssTop ∧
      (TakesIn ebda bssTop e820 s.memmap ↔ HoleCovered ebda bssTop e820) := by
  obtain ⟨bssTop, m, htop, hm, -, h⟩ := initMemmap_types hebda hrun
  have hloader : ∀ a, 0x1000 ≤ a → a < bssTop → typesAt s.memmap a = {memmapBootloaderReclaimable} :=
    fun a ha hlt => h.types_in ⟨ha, hlt⟩ fun _ => .inr ha
  refine ⟨bssTop, htop, ⟨fun htakes a hhole habove hesc => ?_, fun hcovered => ⟨?_, hloader, ?_, ?_⟩⟩⟩
  · have ha : 0x1000 ≤ a := Nat.le_trans hlow hhole.1
    by_contra hnone
    refine htakes.hole a hhole ((covers_usable_iff hebda hm h ha habove).mpr ⟨?_, fun t ht => ?_⟩)
    · obtain ⟨e, he, hen, hu, hlt, hgt⟩ := hesc
      exact ⟨e, he, hen, hu, mem_span.mpr ⟨by have := hhole.1; omega, by have := hhole.2; omega⟩,
        fun _ => ⟨hlt, hgt⟩⟩
    · by_contra hne
      obtain ⟨e, he, hen, rfl, hae⟩ := covers_valid_iff.mp ht
      exact hnone ⟨e, he, hen, hne, hae⟩
  · intro a hhole hc
    have ha : 0x1000 ≤ a := Nat.le_trans hlow hhole.1
    by_cases habove : bssTop ≤ a
    · obtain ⟨⟨e, he, hen, hu, -, hesc⟩, hall⟩ := (covers_usable_iff hebda hm h ha habove).mp hc
      obtain ⟨r, hr, hrn, hne, har⟩ := hcovered a hhole habove ⟨e, he, hen, hu, hesc hhole⟩
      exact hne (hall r.type (covers_valid_iff.mpr ⟨r, hr, hrn, rfl, har⟩))
    · rw [Covers, hloader a ha (Nat.lt_of_not_le habove)] at hc
      exact absurd hc (by decide)
  · intro a ha habove hout
    rw [covers_usable_iff hebda hm h ha habove, Free, covers_valid_iff]
    simp only [hout, false_imp_iff, and_true]
  · intro a t ha habove ht
    exact covers_other_iff hebda hm h ha habove ht

/-- A loader that ends at `0x50000`. -/
def smallImage : Image := ⟨0x50000, by decide⟩

/-- Low memory up to the EBDA, the BIOS, and memory from 1 MiB on. -/
def twoRanges : Memmap := [⟨0, 0x9fc00, 1⟩, ⟨0xf0000, 0x10000, 2⟩, ⟨0x100000, 0x10000, 1⟩]

def twoRangesTaken : PmmState :=
  ⟨[⟨0x1000, 0x4f000, 0x1000⟩, ⟨0x50000, 0x4fc00, 1⟩, ⟨0xf0000, 0x10000, 2⟩, ⟨0x100000, 0x10000, 1⟩], 4096, false⟩

theorem initMemmap_takes_iff_twoRanges : ∃ bssTop, smallImage.top = some bssTop ∧
    (TakesIn 0x9fc00 bssTop twoRanges twoRangesTaken.memmap ↔ HoleCovered 0x9fc00 bssTop twoRanges) :=
  have hrun : initMemmap 512 0x9fc00 smallImage twoRanges = .ok twoRangesTaken := by decide +kernel
  initMemmap_takes_iff (by decide) (by decide) hrun

/-- One usable entry from 0 up to 2 MiB: the video memory at `0xb8000` is usable. -/
theorem initMemmap_takes_hole : ∃ s, initMemmap 512 0x9fc00 smallImage [⟨0, 0x200000, 1⟩] = .ok s ∧
    ¬ TakesIn 0x9fc00 0x50000 [⟨0, 0x200000, 1⟩] s.memmap := by
  refine ⟨⟨[⟨0x1000, 0x4f000, 0x1000⟩, ⟨0x50000, 0x1b0000, 1⟩], 4096, false⟩, by decide +kernel, fun h => ?_⟩
  exact h.hole 0xb8000 ⟨by decide, by decide⟩ ⟨⟨0x50000, 0x1b0000, 1⟩, by simp, rfl, by decide, by decide⟩

end Limine.Pmm
