import Limine.Pmm.Room

/-!
# Maps whose usable memory is pages

What `init_memmap` leaves and every allocation and release of pages keeps: a sanitised map in which a
page is usable as a whole or not at all.  On such a map the allocator takes exactly the pages asked for.
-/

namespace Limine.Pmm

open Limine.Lib MemmapEntry

/-- Of the addresses of a page all are usable or none is. -/
def UsableByPage (m : Memmap) : Prop :=
  ∀ a b, a / 4096 = b / 4096 → Covers m memmapUsable a → Covers m memmapUsable b

structure PageMap (keepFirstPage : Bool) (m : Memmap) : Prop where
  sanitised : Sanitised keepFirstPage false m
  byPage : UsableByPage m

/-- The sanitiser makes such a map where it is asked to align. -/
theorem PageMap.of_aligned {keepFirstPage : Bool} {m : Memmap} (h : Sanitised keepFirstPage true m) :
    PageMap keepFirstPage m where
  sanitised :=
    { h with settled := fun e he hu => ⟨(h.settled e he hu).1, nofun⟩ }
  byPage := by
    rintro a b hab ⟨e, he, hu, ha⟩
    obtain ⟨⟨i, hi⟩, ⟨j, hj⟩⟩ := (h.settled e he hu).2 rfl
    refine ⟨e, he, hu, ?_⟩
    unfold pageSize at hi hj
    rw [mem_span] at ha ⊢
    omega

section
variable {keepFirstPage : Bool} {m m' : Memmap}

instance : Std.Symm Apart := ⟨fun _ _ h => h.symm⟩

/-- Two usable entries of an address are one entry. -/
theorem usable_entry_unique (hd : UsableDisjoint m) {e r : MemmapEntry} (he : e ∈ m) (hr : r ∈ m)
    (hu : e.type = memmapUsable) {a : Nat} (ha : a ∈ e.span) (ha' : a ∈ r.span) : e = r := by
  by_contra hne
  have hapart := hd.forall he hr hne
  exact Set.disjoint_left.mp (hapart (Or.inl hu)) ha ha'

theorem PageMap.top_dvd (h : PageMap keepFirstPage m) {e : MemmapEntry} (he : e ∈ m)
    (hu : e.type = memmapUsable) : 4096 ∣ e.base + e.length := by
  have hpos := h.sanitised.nonempty e he
  by_contra hdvd
  -- the address behind the entry is in the page of the last one in it
  have hlast : Covers m memmapUsable (e.base + e.length - 1) := ⟨e, he, hu, by omega, by omega⟩
  have hnext : Covers m memmapUsable (e.base + e.length) := h.byPage _ _ (by omega) hlast
  have hall : ∀ a, e.base ≤ a → a < e.base + e.length + 1 → Covers m memmapUsable a := by
    intro a hlo hhi
    by_cases ha : a = e.base + e.length
    · rw [ha]
      exact hnext
    · exact ⟨e, he, hu, hlo, by omega⟩
  obtain ⟨r, hr, -, hlo, hhi⟩ := h.sanitised.usable_entry (by omega) hall
  have heq := usable_entry_unique h.sanitised.disjoint he hr hu (a := e.base)
    ⟨Nat.le_refl _, by omega⟩ ⟨hlo, by omega⟩
  subst heq
  omega

/-- A carve of pages out of such a map leaves such a map. -/
theorem Carves.pageMap {lo length type : Nat} (h : Carves keepFirstPage lo length type m m')
    (hm : PageMap keepFirstPage m) (hlo : 4096 ∣ lo) (hlength : 4096 ∣ length) :
    PageMap keepFirstPage m' where
  sanitised := h.sanitised
  byPage := by
    intro a b hab ha
    obtain ⟨i, hi⟩ := hlo
    obtain ⟨j, hj⟩ := hlength
    unfold Covers at ha ⊢
    by_cases hin : lo ≤ a ∧ a < lo + length
    · rw [h.types_inside hin] at ha
      rw [h.types_inside (by omega)]
      refine ⟨ha.1, fun ht => ?_⟩
      exact (ha.2 ht).imp_right fun h4 => by omega
    · rw [h.types_outside hm.sanitised hin] at ha
      rw [h.types_outside hm.sanitised (by omega)]
      exact hm.byPage a b hab ha

/-! ## Taking and giving back pages -/

variable {cfg : Config}

/-- Where the search ends is a page boundary. -/
theorem extCandidate_top (h : PageMap keepFirstPage m) {e : MemmapEntry} (he : e ∈ m)
    {limit count alignment p top : Nat} (hlimit : 4096 ∣ limit ∨ 2 ^ 64 ≤ limit + 1)
    (hc : extCandidate limit count alignment e = some (p, top)) : 4096 ∣ top := by
  have hno : e.base + e.length < 2 ^ 64 := h.sanitised.noneOverflows e he
  unfold extCandidate at hc
  rw [checkedAdd_eq_some hno] at hc
  split at hc
  · cases hc
  next hu =>
  rw [not_not] at hu
  have htop := h.top_dvd he hu
  dsimp only at hc
  have hdvd : 4096 ∣ if limit < e.base + e.length then limit else e.base + e.length := by
    split
    · next hlt => exact hlimit.resolve_right (by omega)
    · exact htop
  generalize (if limit < e.base + e.length then limit else e.base + e.length) = entryTop at hc hdvd
  split at hc
  · cases hc
  split at hc
  · cases hc
  split at hc
  · cases hc
  obtain ⟨-, rfl⟩ := Prod.mk.inj (Option.some.inj hc)
  exact hdvd

theorem extSearch_top (h : PageMap keepFirstPage m) {count alignment p top : Nat} {allowHighAllocs : Bool}
    (hs : extSearch cfg m count alignment allowHighAllocs = some (p, top)) : 4096 ∣ top := by
  have found {limit : Nat} (hlimit : 4096 ∣ limit ∨ 2 ^ 64 ≤ limit + 1)
      (hf : m.reverse.findSome? (extCandidate limit count alignment) = some (p, top)) : 4096 ∣ top := by
    obtain ⟨e, he, hc⟩ := List.exists_of_findSome?_eq_some hf
    exact extCandidate_top h (List.mem_reverse.mp he) hlimit hc
  have hmax : 4096 ∣ uint64Max ∨ 2 ^ 64 ≤ uint64Max + 1 := Or.inr (Nat.le_refl _)
  unfold extSearch at hs
  split at hs
  · split at hs
    · next hr => exact found (Or.inl (by decide)) (hr.trans hs)
    · split at hs
      · exact found hmax hs
      · cases hs
  · exact found hmax hs

/-- `[lo, lo + length)` are pages that were usable, and all that has another type now. -/
structure TakesPages (keepFirstPage : Bool) (lo length type : Nat) (m m' : Memmap) : Prop where
  usable : ∀ a, lo ≤ a → a < lo + length → Covers m memmapUsable a
  lo_dvd : 4096 ∣ lo
  carves : Carves keepFirstPage lo length type m m'
  pageMap : PageMap keepFirstPage m'

variable (cfg) in
theorem extMemAlloc_pages {s : PmmState} (hm : PageMap cfg.keepFirstPage s.memmap) (count type : Nat)
    (allowHighAllocs : Bool) :
    (extMemAllocTypeAlignedMode cfg s count type 4096 allowHighAllocs).Ensures True fun r =>
      ∃ n, extCount count 4096 = some n ∧ 0 < n ∧ 4096 ∣ n ∧
        TakesPages cfg.keepFirstPage r.2 n type s.memmap r.1.memmap := by
  have hno := hm.sanitised.noneOverflows
  unfold extMemAllocTypeAlignedMode
  cases hn : extCount count 4096 with
  | none => trivial
  | some n =>
    obtain ⟨hndvd, hn0, -⟩ := extCount_spec (by decide) hn
    dsimp only
    split
    · trivial
    cases hs : extSearch cfg s.memmap n 4096 allowHighAllocs with
    | none => trivial
    | some r =>
      obtain ⟨p, top⟩ := r
      obtain ⟨e, he, hu, h1, h2, h3, h4, h5⟩ := extSearch_spec hno hn0 (by decide) hs
      have htop := extSearch_top hm hs
      have hlength : top - p = n := by
        obtain ⟨i, rfl⟩ := htop
        obtain ⟨j, rfl⟩ := h5
        obtain ⟨k, rfl⟩ := hndvd
        omega
      have hov : p + n < 2 ^ 64 := Nat.lt_of_le_of_lt (by omega) (hno e he)
      have hholds : holdsRange memmapUsable p (p + n) e = true :=
        (holdsRange_iff (hno e he)).mpr ⟨Or.inr hu, h1, by omega, by omega⟩
      dsimp only
      rw [hlength]
      unfold memmapAllocRange
      rw [bind_assoc]
      apply ((memmapAllocRangeIn_room cfg hm.sanitised type hn0 hov
        (Or.inr ⟨e, he, hholds⟩)).imp (fun _ => trivial) fun _ h => h).bind
      rintro ⟨m', ok⟩ ⟨-, hcarves⟩
      simp only [pure_bind]
      rw [hcarves.sanitised.eq_self]
      refine ⟨n, rfl, hn0, hndvd, ?_, h5, hcarves, hcarves.pageMap hm h5 hndvd⟩
      intro a hlo hhi
      exact ⟨e, he, hu, by omega, by omega⟩

variable (cfg) in
/-- A claim of usable pages takes them or changes nothing. -/
theorem memmapAllocRange_claim {s : PmmState} (hm : PageMap cfg.keepFirstPage s.memmap) {base length : Nat}
    (type : Nat) (hl : 0 < length) (hbase : 4096 ∣ base) (hlength : 4096 ∣ length) :
    (memmapAllocRange cfg s base length type memmapUsable false false false).Ensures True fun r =>
      if r.2 then TakesPages cfg.keepFirstPage base length type s.memmap r.1.memmap
      else r.1 = s := by
  have hno := hm.sanitised.noneOverflows
  by_cases hov : base + length < 2 ^ 64
  · by_cases hany : s.memmap.any (holdsRange memmapUsable base (base + length)) = true
    · obtain ⟨e, he, hholds⟩ := List.any_eq_true.mp hany
      obtain ⟨htype, h1, -, h2⟩ := (holdsRange_iff (hno e he)).mp hholds
      have hu : e.type = memmapUsable := htype.resolve_left (by decide)
      unfold memmapAllocRange
      apply ((memmapAllocRangeIn_room cfg hm.sanitised type hl hov
        (Or.inr ⟨e, he, hholds⟩)).imp (fun _ => trivial) fun _ h => h).bind
      rintro ⟨m', ok⟩ ⟨hok, hcarves⟩
      dsimp only at hok
      subst hok
      refine ⟨?_, hbase, hcarves, hcarves.pageMap hm hbase hlength⟩
      intro a hlo hhi
      exact ⟨e, he, hu, by omega, by omega⟩
    · unfold memmapAllocRange memmapAllocRangeIn
      rw [if_neg (by omega), if_neg (by simp), checkedAdd_eq_some hov]
      dsimp only
      rw [if_neg hany]
      exact rfl
  · unfold memmapAllocRange memmapAllocRangeIn
    rw [if_neg (by omega), if_neg (by simp), checkedAdd_eq_none_iff.mpr (by omega)]
    exact rfl

variable (cfg) in
/-- Pages can be given back whatever type they have. -/
theorem memmapAllocRange_release {s : PmmState} (hm : PageMap cfg.keepFirstPage s.memmap) {base length : Nat}
    (hl : 0 < length) (hov : base + length < 2 ^ 64) (hbase : 4096 ∣ base) (hlength : 4096 ∣ length) :
    (memmapAllocRange cfg s base length memmapUsable 0 false false true).Ensures True fun r =>
      Carves cfg.keepFirstPage base length memmapUsable s.memmap r.1.memmap ∧
        PageMap cfg.keepFirstPage r.1.memmap := by
  unfold memmapAllocRange
  apply ((memmapAllocRangeIn_room cfg hm.sanitised memmapUsable hl hov (Or.inl rfl)).imp
    (fun _ => trivial) fun _ h => h).bind
  rintro ⟨m', ok⟩ ⟨-, hcarves⟩
  exact ⟨hcarves, hcarves.pageMap hm hbase hlength⟩

end

end Limine.Pmm
