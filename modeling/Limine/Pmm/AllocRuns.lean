import Limine.Pmm.NewEntry
import Mathlib.Data.List.Pairwise

/-!
# Runs of the allocators

A run is a sequence of calls of `ext_mem_alloc_type_aligned_mode`, `conv_mem_alloc`,
`memmap_alloc_range` and `pmm_free` that do not panic, kept beside the list of the ranges in
use.  `Inv` is what every run preserves: the map's invariant, and that no range in use is
usable or meets another.
-/

namespace Limine.Pmm

open Limine.Lib MemmapEntry

/-! ## Calls -/

inductive Call
  | extMemAlloc (count type alignment : Nat) (allowHighAllocs : Bool)
  | convMemAlloc (count : Nat)
  | memmapAllocRange (base length type overlayType : Nat) (doPanic simulation newEntry : Bool)
  | pmmFree (ptr count : Nat)
deriving DecidableEq, Repr

/-- What a call returns. -/
inductive Ret
  | ptr (p : Nat)
  | bool (b : Bool)
  | void
deriving DecidableEq, Repr

def call (cfg : Config) (s : PmmState) : Call → Exec (PmmState × Ret)
  | .extMemAlloc count type alignment allowHighAllocs => do
    let (s, p) ← extMemAllocTypeAlignedMode cfg s count type alignment allowHighAllocs
    return (s, .ptr p)
  | .convMemAlloc count => do
    let (s, p) ← convMemAlloc cfg s count
    return (s, .ptr p)
  | .memmapAllocRange base length type overlayType doPanic simulation newEntry => do
    let (s, ok) ← memmapAllocRange cfg s base length type overlayType doPanic simulation newEntry
    return (s, .bool ok)
  | .pmmFree ptr count => do
    let s ← pmmFree cfg s ptr count
    return (s, .void)

/-- A range in use, and the size it was asked for if it was returned as a pointer. -/
structure Live where
  base : Nat
  count : Nat
  size : Option Nat
deriving DecidableEq, Repr

def Live.range (l : Live) : Set Nat := {a | l.base ≤ a ∧ a < l.base + l.count}

@[simp] theorem Live.mem_range {l : Live} {a : Nat} :
    a ∈ l.range ↔ l.base ≤ a ∧ a < l.base + l.count := Iff.rfl

instance : Std.Symm fun l l' : Live => Disjoint l.range l'.range := ⟨fun _ _ h => h.symm⟩

/-- The size `conv_mem_alloc` and `pmm_free` round `count` to. -/
def pageCount (count : Nat) : Option Nat := alignUp (if count = 0 then 1 else count) 4096

/-- A `memmap_alloc_range` call that takes usable memory into use. -/
def takesUsable (length type overlayType : Nat) (simulation newEntry : Bool) : Bool :=
  overlayType == memmapUsable && type != memmapUsable && !simulation && !newEntry && length != 0

/-- The range a call hands out. -/
def handedOut : Call → Ret → Option Live
  | .extMemAlloc count _ alignment _, .ptr p =>
    (extCount count alignment).map fun c => ⟨p, c, some count⟩
  | .convMemAlloc count, .ptr p => (pageCount count).map fun c => ⟨p, c, some count⟩
  | .memmapAllocRange base length type overlayType _ simulation newEntry, .bool true =>
    if takesUsable length type overlayType simulation newEntry then some ⟨base, length, none⟩ else none
  | _, _ => none

/-- The ranges in use after a call. -/
def liveAfter (live : List Live) (c : Call) (r : Ret) : List Live :=
  match c with
  | .pmmFree ptr count => live.filter fun l => !(l.base == ptr && l.size == some count)
  | _ => (handedOut c r).toList ++ live

/-- The calls a run may make: allocations of a type that is not usable, at an alignment that is
a power of two from 4096 on; frees of a pointer in use, with its size; and any
`memmap_alloc_range` that does not make a range in use usable. -/
def Allowed (live : List Live) : Call → Prop
  | .extMemAlloc _ type alignment _ => type ≠ memmapUsable ∧ ∃ k, 12 ≤ k ∧ alignment = 2 ^ k
  | .convMemAlloc _ => True
  | .memmapAllocRange base length type _ _ _ _ =>
    type = memmapUsable → ∀ l ∈ live, ∀ a ∈ l.range, ¬ (base ≤ a ∧ a < base + length)
  | .pmmFree ptr count => ∃ l ∈ live, l.base = ptr ∧ l.size = some count

/-! ## What each function does -/

/-- Outside `[lo, hi)` no address changes its type, but for usable ones out of reach. -/
def Frame (keepFirstPage : Bool) (lo hi : Nat) (m m' : Memmap) : Prop :=
  ∀ a, ¬ (lo ≤ a ∧ a < hi) → ∀ t, (Covers m' t a → Covers m t a) ∧
    (Covers m t a → InReach keepFirstPage t a → Covers m' t a)

theorem Frame.refl (keepFirstPage : Bool) (lo hi : Nat) (m : Memmap) :
    Frame keepFirstPage lo hi m m :=
  fun _ _ _ => ⟨id, fun h _ => h⟩

theorem Holds.frame {keepFirstPage : Bool} {lo hi type : Nat} {m m' : Memmap}
    (h : Holds keepFirstPage (retype lo hi type (typesAt m)) m') :
    Frame keepFirstPage lo hi m m' := by
  intro a ha t
  unfold Covers
  rw [h.types]
  unfold settled retype
  rw [if_neg ha]
  exact ⟨fun h => h.1, fun h hr => ⟨h, hr⟩⟩

theorem Holds.types_in {keepFirstPage : Bool} {lo hi type : Nat} {f : Nat → Set Nat} {m' : Memmap}
    (h : Holds keepFirstPage (retype lo hi type f) m') {a : Nat} (ha : lo ≤ a ∧ a < hi)
    (hr : InReach keepFirstPage type a) : typesAt m' a = {type} := by
  rw [h.types]
  unfold settled retype
  rw [if_pos ha]
  ext t
  simp only [Set.mem_singleton_iff, Set.mem_ofPred_eq]
  constructor
  · exact fun h => h.1
  · rintro rfl
    exact ⟨rfl, hr⟩

theorem holdsRange_iff {overlayType base top : Nat} {e : MemmapEntry} (he : e.NoOverflow) :
    holdsRange overlayType base top e = true ↔ (overlayType = 0 ∨ e.type = overlayType) ∧
      e.base ≤ base ∧ base < e.base + e.length ∧ top ≤ e.base + e.length := by
  unfold holdsRange
  rw [checkedAdd_eq_some he]
  split
  · next h =>
    obtain ⟨h1, h2⟩ := h
    simp [h1, h2]
  · next h =>
    have : overlayType = 0 ∨ e.type = overlayType := by
      by_contra hn
      rw [not_or] at hn
      exact h hn
    simp [this]

/-- The ways `memmap_alloc_range_in` returns. -/
inductive RangeOutcome (cfg : Config) (m : Memmap) (base length type overlayType : Nat)
    (doPanic simulation newEntry : Bool) : Memmap × Bool → Prop
  | refused : doPanic = false → (newEntry = true → 2 ^ 64 ≤ base + length) →
      RangeOutcome cfg m base length type overlayType doPanic simulation newEntry (m, false)
  | nothing : length = 0 ∨ simulation = true →
      RangeOutcome cfg m base length type overlayType doPanic simulation newEntry (m, true)
  | reserved (m' : Memmap) : simulation = false → length ≠ 0 → base + length < 2 ^ 64 →
      (newEntry = true ∨ ∃ e ∈ m, holdsRange overlayType base (base + length) e = true) →
      Holds cfg.keepFirstPage (retype base (base + length) type (typesAt m)) m' →
      RangeOutcome cfg m base length type overlayType doPanic simulation newEntry (m', true)

theorem memmapAllocRangeIn_ensures (cfg : Config) {m : Memmap} (hm : Wf m)
    (base length type overlayType : Nat) (doPanic simulation newEntry : Bool) :
    (memmapAllocRangeIn cfg m base length type overlayType doPanic simulation newEntry).Ensures True
      (RangeOutcome cfg m base length type overlayType doPanic simulation newEntry) := by
  unfold memmapAllocRangeIn
  dsimp only
  by_cases hl : length = 0
  · rw [if_pos hl]
    exact .nothing (Or.inl hl)
  rw [if_neg hl]
  by_cases hsn : (simulation && newEntry) = true
  · rw [if_pos hsn]
    exact .nothing (Or.inr (Bool.and_eq_true _ _ ▸ hsn).1)
  rw [if_neg hsn]
  cases hca : checkedAdd base length with
  | none =>
    cases doPanic with
    | true => trivial
    | false => exact .refused rfl fun _ => checkedAdd_eq_none_iff.mp hca
  | some top =>
    obtain ⟨hov, rfl⟩ := checkedAdd_eq_some_iff.mp hca
    -- the two calls on the way to `success`
    have success : simulation = false →
        (newEntry = true ∨ ∃ e ∈ m, holdsRange overlayType base (base + length) e = true) →
        (pmmNewEntry cfg.maxEntries m base length type >>= fun m' =>
          pmmSanitiseEntries cfg.maxEntries cfg.keepFirstPage m' false >>= fun m' =>
            (pure (m', true) : Exec (Memmap × Bool))).Ensures True
          (RangeOutcome cfg m base length type overlayType doPanic simulation newEntry) := by
      intro hs hw
      rw [← bind_assoc]
      exact (retype_holds cfg hm type hov).bind fun m' h => .reserved m' hs hl hov hw h
    dsimp only
    by_cases hany : m.any (holdsRange overlayType base (base + length)) = true
    · rw [if_pos hany]
      cases simulation with
      | true => exact .nothing (Or.inr rfl)
      | false => exact success rfl (Or.inr (List.any_eq_true.mp hany))
    · rw [if_neg hany]
      cases newEntry with
      | true =>
        cases simulation with
        | true => exact absurd rfl hsn
        | false => exact success rfl (Or.inl rfl)
      | false =>
        cases doPanic with
        | true => trivial
        | false => exact .refused rfl fun h => absurd h (by simp)

/-- `[lo, hi)` lay in one usable entry of `m`, and is all that `m'` gives another type. -/
structure Reserves (keepFirstPage : Bool) (lo hi type : Nat) (m m' : Memmap) : Prop where
  inEntry : ∃ e ∈ m, e.type = memmapUsable ∧ e.base ≤ lo ∧ hi ≤ e.base + e.length
  holds : Holds keepFirstPage (retype lo hi type (typesAt m)) m'

theorem extCandidate_spec {limit count alignment p top : Nat} {e : MemmapEntry}
    (he : e.NoOverflow) (hc : 0 < count) (ha : 0 < alignment)
    (h : extCandidate limit count alignment e = some (p, top)) :
    e.type = memmapUsable ∧ e.base ≤ p ∧ p + count ≤ top ∧ top ≤ e.base + e.length ∧
      top < p + count + alignment ∧ alignment ∣ p := by
  unfold extCandidate at h
  rw [checkedAdd_eq_some he] at h
  split at h
  · cases h
  next hu =>
  rw [not_not] at hu
  dsimp only at h
  generalize htop : (if limit < e.base + e.length then limit else e.base + e.length) = entryTop at h
  have hle : entryTop ≤ e.base + e.length := by
    subst htop
    split <;> omega
  split at h
  · cases h
  split at h
  · cases h
  split at h
  · cases h
  simp only [Option.some.injEq, Prod.mk.injEq] at h
  obtain ⟨rfl, rfl⟩ := h
  have h1 := alignDown_le (entryTop - count) alignment
  have h2 := lt_alignDown_add (entryTop - count) ha
  exact ⟨hu, by omega, by omega, hle, by omega, alignDown_dvd _ _⟩

theorem extSearch_spec {cfg : Config} {m : Memmap} (hm : NoneOverflows m) {count alignment p top : Nat}
    (hc : 0 < count) (ha : 0 < alignment) {allowHighAllocs : Bool}
    (h : extSearch cfg m count alignment allowHighAllocs = some (p, top)) :
    ∃ e ∈ m, e.type = memmapUsable ∧ e.base ≤ p ∧ p + count ≤ top ∧ top ≤ e.base + e.length ∧
      top < p + count + alignment ∧ alignment ∣ p := by
  have found : ∀ limit, m.reverse.findSome? (extCandidate limit count alignment) = some (p, top) →
      ∃ e ∈ m, e.type = memmapUsable ∧ e.base ≤ p ∧ p + count ≤ top ∧ top ≤ e.base + e.length ∧
        top < p + count + alignment ∧ alignment ∣ p := by
    intro limit h
    obtain ⟨e, he, hc'⟩ := List.exists_of_findSome?_eq_some h
    rw [List.mem_reverse] at he
    exact ⟨e, he, extCandidate_spec (hm e he) hc ha hc'⟩
  unfold extSearch at h
  split at h
  · split at h
    · next r hr => exact found _ (hr.trans h)
    · split at h
      · exact found _ h
      · cases h
  · exact found _ h

theorem extCount_spec {count alignment c : Nat} (ha : 0 < alignment)
    (h : extCount count alignment = some c) :
    alignment ∣ c ∧ 0 < c ∧ (if count = 0 then 1 else count) ≤ c := by
  unfold extCount at h
  obtain ⟨y, hy, rfl⟩ := Option.map_eq_some_iff.mp h
  obtain ⟨-, rfl⟩ := checkedAdd_eq_some_iff.mp hy
  have h1 := lt_alignDown_add ((if count = 0 then 1 else count) + (alignment - 1)) ha
  have h2 := alignDown_le ((if count = 0 then 1 else count) + (alignment - 1)) alignment
  have h3 : 1 ≤ if count = 0 then 1 else count := by split <;> omega
  exact ⟨alignDown_dvd _ _, by omega, by omega⟩

theorem memmapAllocRange_ensures (cfg : Config) {s : PmmState} (hm : Wf s.memmap)
    (base length type overlayType : Nat) (doPanic simulation newEntry : Bool) :
    (memmapAllocRange cfg s base length type overlayType doPanic simulation newEntry).Ensures True
      fun r => ∃ m', r.1 = { s with memmap := m' } ∧
        RangeOutcome cfg s.memmap base length type overlayType doPanic simulation newEntry (m', r.2) := by
  unfold memmapAllocRange
  exact (memmapAllocRangeIn_ensures cfg hm base length type overlayType doPanic simulation
    newEntry).bind fun r h => ⟨r.1, rfl, h⟩

/-- A successful `memmap_alloc_range` over usable memory only. -/
theorem RangeOutcome.reserves {cfg : Config} {m m' : Memmap} {base length type : Nat} {doPanic : Bool}
    (hm : NoneOverflows m) (hl : length ≠ 0)
    (h : RangeOutcome cfg m base length type memmapUsable doPanic false false (m', true)) :
    Reserves cfg.keepFirstPage base (base + length) type m m' := by
  rcases h with _ | h | ⟨_, -, -, hov, h, hh⟩
  · exact absurd h (by simp [hl])
  · rcases h with h | ⟨e, he, hr⟩
    · cases h
    · obtain ⟨h1, h2, -, h3⟩ := (holdsRange_iff (hm e he)).mp hr
      exact ⟨⟨e, he, h1.resolve_left (by decide), h2, h3⟩, hh⟩

/-- `memmap_alloc_range` takes a range that lies in one usable entry. -/
theorem memmapAllocRange_ensures_reserves (cfg : Config) {s : PmmState} (hm : Wf s.memmap)
    {base length type : Nat} {doPanic : Bool} (hl : length ≠ 0) {e : MemmapEntry}
    (he : e ∈ s.memmap) (hu : e.type = memmapUsable) (h1 : e.base ≤ base)
    (h2 : base + length ≤ e.base + e.length) :
    (memmapAllocRange cfg s base length type memmapUsable doPanic false false).Ensures True
      fun r => r.1.convBase = s.convBase ∧ r.1.allocationsDisallowed = s.allocationsDisallowed ∧
        Reserves cfg.keepFirstPage base (base + length) type s.memmap r.1.memmap := by
  have hno : e.base + e.length < 2 ^ 64 := hm.noneOverflows e he
  have hholds : holdsRange memmapUsable base (base + length) e = true :=
    (holdsRange_iff (hm.noneOverflows e he)).mpr ⟨Or.inr hu, h1, by omega, h2⟩
  have hany : s.memmap.any (holdsRange memmapUsable base (base + length)) = true :=
    List.any_eq_true.mpr ⟨e, he, hholds⟩
  unfold memmapAllocRange memmapAllocRangeIn
  rw [if_neg hl, if_neg (by simp), checkedAdd_eq_some (by omega)]
  dsimp only
  rw [if_pos hany, if_neg Bool.false_ne_true, ← bind_assoc, bind_assoc]
  refine (retype_holds cfg hm type (by omega)).bind fun m' h => ?_
  exact ⟨rfl, rfl, ⟨e, he, hu, h1, h2⟩, h⟩

theorem extMemAlloc_ensures (cfg : Config) {s : PmmState} (hm : Wf s.memmap)
    (count type : Nat) {alignment : Nat} (ha : 0 < alignment) (allowHighAllocs : Bool) :
    (extMemAllocTypeAlignedMode cfg s count type alignment allowHighAllocs).Ensures True
      fun r => ∃ n hi, extCount count alignment = some n ∧ alignment ∣ r.2 ∧ r.2 + n ≤ hi ∧
        hi < r.2 + n + alignment ∧ r.1.convBase = s.convBase ∧
        Reserves cfg.keepFirstPage r.2 hi type s.memmap r.1.memmap := by
  unfold extMemAllocTypeAlignedMode
  cases hn : extCount count alignment with
  | none => trivial
  | some n =>
    obtain ⟨-, hn0, -⟩ := extCount_spec ha hn
    dsimp only
    split
    · trivial
    cases hs : extSearch cfg s.memmap n alignment allowHighAllocs with
    | none => trivial
    | some r =>
      obtain ⟨p, top⟩ := r
      obtain ⟨e, he, hu, h1, h2, h3, h4, h5⟩ := extSearch_spec hm.noneOverflows hn0 ha hs
      dsimp only
      refine (memmapAllocRange_ensures cfg hm p (top - p) type memmapUsable true false false).bind ?_
      rintro ⟨s₁, ok⟩ ⟨m₁, rfl, hout⟩
      have hok : ok = true := by
        rcases hout with h | _ | _
        · cases h
        · rfl
        · rfl
      subst hok
      have hres := hout.reserves hm.noneOverflows (by omega)
      rw [Nat.add_sub_cancel' (by omega)] at hres
      refine (hres.holds.again cfg).bind fun m₂ h₂ => ?_
      exact ⟨n, top, rfl, h5, h2, h4, rfl, hres.inEntry, h₂⟩

theorem Reserves.lt {keepFirstPage : Bool} {lo hi type : Nat} {m m' : Memmap} (hm : NoneOverflows m)
    (h : Reserves keepFirstPage lo hi type m m') : hi < 2 ^ 64 := by
  obtain ⟨e, he, -, -, hle⟩ := h.inEntry
  exact Nat.lt_of_le_of_lt hle (hm e he)

/-- The end of conventional memory, `0x100000` in the source. -/
def convLimit : Nat := 0x100000

/-- The search ends: once `base` is past twice the limit, `base + count` is too large, also where
it wraps. -/
theorem convLoop_ensures (cfg : Config) {count : Nat} (h0 : count ≠ 0) (hc : count < 2 ^ 64)
    (hd : 4096 ∣ count) :
    ∀ fuel s, Wf s.memmap → 4096 ∣ s.convBase → s.convBase < 0x203000 →
      0x203000 ≤ s.convBase + 4096 * fuel →
      s.convBase ≤ convLimit ∨ count ≤ convLimit ∨ 2 ^ 64 - convLimit ≤ count →
      (convLoop cfg count fuel s).Ensures True fun r =>
        4096 ∣ r.2 ∧ r.1.convBase = r.2 + count ∧ r.2 + count ≤ convLimit ∧
        Reserves cfg.keepFirstPage r.2 (r.2 + count) memmapBootloaderReclaimable s.memmap
          r.1.memmap := by
  intro fuel
  induction fuel with
  | zero => intro s _ _ h1 h2; omega
  | succ fuel ih =>
    intro s hm hbd h1 h2 h3
    unfold convLoop
    unfold convLimit at h3
    split
    · trivial
    next hle =>
    have hout := memmapAllocRange_ensures cfg hm s.convBase count memmapBootloaderReclaimable
      memmapUsable false false false
    match hr : memmapAllocRange cfg s s.convBase count memmapBootloaderReclaimable memmapUsable
        false false false, hout with
    | .error (.panic _), _ => trivial
    | .ok (s', false), ⟨m', hs', ho⟩ =>
      dsimp only at hs' ho ⊢
      have hm' : m' = s.memmap := by
        cases ho
        rfl
      subst hm'
      subst hs'
      dsimp only
      refine ih _ hm (Nat.dvd_add hbd (Nat.dvd_refl _)) ?_ ?_ ?_
      · show s.convBase + 4096 < 0x203000
        omega
      · show 0x203000 ≤ s.convBase + 4096 + 4096 * fuel
        omega
      · show s.convBase + 4096 ≤ convLimit ∨ _
        unfold convLimit
        omega
    | .ok (s', true), ⟨m', hs', ho⟩ =>
      dsimp only at hs' ho ⊢
      have hres := ho.reserves hm.noneOverflows h0
      have hlt := hres.lt hm.noneOverflows
      subst hs'
      refine (hres.holds.again cfg).bind fun m₂ h₂ => ?_
      refine ⟨hbd, rfl, ?_, hres.inEntry, h₂⟩
      show s.convBase + count ≤ convLimit
      rw [Nat.mod_eq_of_lt hlt] at hle
      unfold convLimit
      omega

theorem pageCount_spec {count n : Nat} (h : pageCount count = some n) :
    n ≠ 0 ∧ n < 2 ^ 64 ∧ 4096 ∣ n ∧ ∀ c, 4096 ∣ c → (if count = 0 then 1 else count) ≤ c → n ≤ c := by
  obtain ⟨h1, h2, h3, h4⟩ := alignUp_spec (by decide) h
  have h5 : 1 ≤ if count = 0 then 1 else count := by split <;> omega
  refine ⟨by omega, h4, h3, fun c hc hle => ?_⟩
  omega

theorem convMemAlloc_ensures (cfg : Config) {s : PmmState} (hm : Wf s.memmap)
    (hbd : 4096 ∣ s.convBase) (hbl : s.convBase ≤ convLimit) (count : Nat) :
    (convMemAlloc cfg s count).Ensures True fun r => ∃ n, pageCount count = some n ∧
      4096 ∣ r.2 ∧ r.1.convBase = r.2 + n ∧ r.2 + n ≤ convLimit ∧
      Reserves cfg.keepFirstPage r.2 (r.2 + n) memmapBootloaderReclaimable s.memmap r.1.memmap := by
  have hbl' := hbl
  unfold convLimit at hbl'
  unfold convMemAlloc
  split
  · trivial
  have hp : alignUp (if count = 0 then 1 else count) 4096 = pageCount count := rfl
  rw [hp]
  cases hn : pageCount count with
  | none => trivial
  | some n =>
    obtain ⟨h0, hlt, hd, -⟩ := pageCount_spec hn
    exact (convLoop_ensures cfg h0 hlt hd 1024 s hm hbd (by omega) (by omega) (Or.inl hbl)).imp id
      fun r h => ⟨n, rfl, h⟩

theorem pmmFree_ensures (cfg : Config) {s : PmmState} (hm : Wf s.memmap) (ptr count : Nat)
    (hfit : ∀ n, pageCount count = some n → ptr + n < 2 ^ 64) :
    (pmmFree cfg s ptr count).Ensures True fun s' => s'.convBase = s.convBase ∧
      if ptr = 0 then s' = s
      else ∃ n, pageCount count = some n ∧
        Holds cfg.keepFirstPage (retype ptr (ptr + n) memmapUsable (typesAt s.memmap)) s'.memmap := by
  unfold pmmFree
  split
  · exact ⟨rfl, rfl⟩
  split
  · trivial
  have hp : alignUp (if count = 0 then 1 else count) 4096 = pageCount count := rfl
  rw [hp]
  cases hn : pageCount count with
  | none => trivial
  | some n =>
    obtain ⟨h0, -, -, -⟩ := pageCount_spec hn
    dsimp only
    split
    · trivial
    refine (memmapAllocRange_ensures cfg hm ptr n memmapUsable 0 false false true).bind ?_
    rintro ⟨s', ok⟩ ⟨m', rfl, hout⟩
    refine ⟨rfl, n, rfl, ?_⟩
    rcases hout with ⟨-, hov⟩ | h | ⟨_, -, -, -, -, hh⟩
    · exact absurd (hov rfl) (by have := hfit n hn; omega)
    · exact absurd h (by simp [h0])
    · exact hh

/-! ## What a run preserves -/

structure Inv (s : PmmState) (live : List Live) : Prop where
  wf : Wf s.memmap
  sorted : SortedByBase s.memmap
  convAligned : 4096 ∣ s.convBase
  convLow : s.convBase ≤ convLimit
  /-- nothing in use is usable -/
  inUse : ∀ l ∈ live, ∀ a ∈ l.range, ¬ Covers s.memmap memmapUsable a
  apart : live.Pairwise fun l l' => Disjoint l.range l'.range
  fits : ∀ l ∈ live, l.base + l.count < 2 ^ 64
  /-- what `pmm_free` gives back was handed out -/
  freeable : ∀ l ∈ live, ∀ n c, l.size = some n → pageCount n = some c → c ≤ l.count

/-- `[lo, hi)` was usable and nothing else before, is of type `type` and nothing else after, and
no range in use meets it. -/
def Takes (live : List Live) (type lo hi : Nat) (m m' : Memmap) : Prop :=
  ∀ a, lo ≤ a → a < hi → Free m a ∧ typesAt m' a = {type} ∧ ∀ l ∈ live, a ∉ l.range

/-- What a call does to the map, by call. -/
def Post (cfg : Config) (live : List Live) (m : Memmap) (c : Call) (r : Ret) (m' : Memmap) : Prop :=
  match c, r with
  | .extMemAlloc count type alignment _, .ptr p =>
    ∃ n hi, extCount count alignment = some n ∧ alignment ∣ p ∧ p + n ≤ hi ∧
      hi < p + n + alignment ∧ Takes live type p hi m m' ∧ Frame cfg.keepFirstPage p hi m m'
  | .convMemAlloc count, .ptr p =>
    ∃ n, pageCount count = some n ∧ 4096 ∣ p ∧
      Takes live memmapBootloaderReclaimable p (p + n) m m' ∧ Frame cfg.keepFirstPage p (p + n) m m'
  | .memmapAllocRange base length type overlayType _ simulation newEntry, .bool ok =>
    (ok = true → simulation = false → ∀ a, base ≤ a → a < base + length →
      InReach cfg.keepFirstPage type a → typesAt m' a = {type}) ∧
    (ok = true → takesUsable length type overlayType simulation newEntry = true →
      Takes live type base (base + length) m m') ∧
    Frame cfg.keepFirstPage base (base + length) m m'
  | .pmmFree ptr count, .void =>
    if ptr = 0 then m' = m
    else ∃ n, pageCount count = some n ∧ Frame cfg.keepFirstPage ptr (ptr + n) m m' ∧
      ∀ a, ptr ≤ a → a < ptr + n → InReach cfg.keepFirstPage memmapUsable a →
        typesAt m' a = {memmapUsable}
  | _, _ => False

theorem Reserves.takes {keepFirstPage : Bool} {lo hi type : Nat} {m m' : Memmap} {live : List Live}
    (hm : Wf m) (hu : ∀ l ∈ live, ∀ a ∈ l.range, ¬ Covers m memmapUsable a) (ht : type ≠ memmapUsable)
    (h : Reserves keepFirstPage lo hi type m m') : Takes live type lo hi m m' := by
  intro a hlo hhi
  obtain ⟨e, he, hu', h1, h2⟩ := h.inEntry
  have hc : Covers m memmapUsable a := ⟨e, he, hu', mem_span.mpr ⟨by omega, by omega⟩⟩
  exact ⟨(hm.free_iff a).mpr hc, h.holds.types_in ⟨hlo, hhi⟩ fun h => absurd h ht,
    fun l hl hal => hu l hl a hal hc⟩

/-- Taking a range into use keeps the invariant. -/
theorem Inv.take {keepFirstPage : Bool} {s s' : PmmState} {live : List Live} (h : Inv s live)
    {lo hi type : Nat} (ht : type ≠ memmapUsable)
    (hr : Reserves keepFirstPage lo hi type s.memmap s'.memmap)
    (hbd : 4096 ∣ s'.convBase) (hbl : s'.convBase ≤ convLimit) (l : Live) (hl : l.base = lo)
    (hc : l.base + l.count ≤ hi)
    (hf : ∀ n c, l.size = some n → pageCount n = some c → c ≤ l.count) : Inv s' (l :: live) := by
  have htakes := hr.takes h.wf h.inUse ht
  have hlt := hr.lt h.wf.noneOverflows
  have hin : ∀ a ∈ l.range, lo ≤ a ∧ a < hi := by
    intro a ha
    rw [Live.mem_range] at ha
    omega
  refine ⟨hr.holds.wf, hr.holds.sorted, hbd, hbl, ?_, ?_, ?_, ?_⟩
  · intro l' hl' a ha hcov
    by_cases hia : lo ≤ a ∧ a < hi
    · have h1 := (htakes a hia.1 hia.2).2.1
      unfold Covers at hcov
      rw [h1, Set.mem_singleton_iff] at hcov
      exact ht hcov.symm
    · rcases List.mem_cons.mp hl' with rfl | hl'
      · exact hia (hin a ha)
      · exact h.inUse l' hl' a ha ((hr.holds.frame a hia _).1 hcov)
  · refine List.pairwise_cons.mpr ⟨fun l' hl' => Set.disjoint_left.mpr fun a ha ha' => ?_, h.apart⟩
    obtain ⟨h1, h2⟩ := hin a ha
    exact (htakes a h1 h2).2.2 l' hl' ha'
  · intro l' hl'
    rcases List.mem_cons.mp hl' with rfl | hl'
    · omega
    · exact h.fits l' hl'
  · intro l' hl'
    rcases List.mem_cons.mp hl' with rfl | hl'
    · exact hf
    · exact h.freeable l' hl'

/-- Retyping a range that is not made usable where a range is in use keeps the invariant. -/
theorem Inv.retype {keepFirstPage : Bool} {s s' : PmmState} {live live' : List Live} (h : Inv s live)
    {lo hi type : Nat} (hsub : live'.Sublist live)
    (ht : type = memmapUsable → ∀ l ∈ live', ∀ a ∈ l.range, ¬ (lo ≤ a ∧ a < hi))
    (hh : Holds keepFirstPage (retype lo hi type (typesAt s.memmap)) s'.memmap)
    (hb : s'.convBase = s.convBase) : Inv s' live' := by
  refine ⟨hh.wf, hh.sorted, hb ▸ h.convAligned, hb ▸ h.convLow, ?_, h.apart.sublist hsub,
    fun l hl => h.fits l (hsub.subset hl), fun l hl => h.freeable l (hsub.subset hl)⟩
  intro l hl a ha hcov
  by_cases hia : lo ≤ a ∧ a < hi
  · have h1 := hh.types a
    unfold settled Pmm.retype at h1
    rw [if_pos hia] at h1
    unfold Covers at hcov
    rw [h1] at hcov
    exact ht (Set.mem_singleton_iff.mp hcov.1).symm l hl a ha hia
  · exact h.inUse l (hsub.subset hl) a ha ((hh.frame a hia _).1 hcov)

theorem Inv.drop {s s' : PmmState} {live live' : List Live} (h : Inv s live)
    (hsub : live'.Sublist live) (hs : s' = s) : Inv s' live' := by
  subst hs
  exact ⟨h.wf, h.sorted, h.convAligned, h.convLow, fun l hl => h.inUse l (hsub.subset hl),
    h.apart.sublist hsub, fun l hl => h.fits l (hsub.subset hl),
    fun l hl => h.freeable l (hsub.subset hl)⟩

theorem dvd_two_pow {k : Nat} (hk : 12 ≤ k) : 4096 ∣ 2 ^ k :=
  (by decide : 4096 = 2 ^ 12) ▸ Nat.pow_dvd_pow 2 hk

theorem extMemAlloc_call (cfg : Config) {s : PmmState} {live : List Live} (h : Inv s live)
    {count type alignment : Nat} (allowHighAllocs : Bool)
    (hc : Allowed live (.extMemAlloc count type alignment allowHighAllocs)) :
    (call cfg s (.extMemAlloc count type alignment allowHighAllocs)).Ensures True fun r =>
      Inv r.1 (liveAfter live (.extMemAlloc count type alignment allowHighAllocs) r.2) ∧
      Post cfg live s.memmap (.extMemAlloc count type alignment allowHighAllocs) r.2 r.1.memmap := by
  obtain ⟨ht, k, hk, rfl⟩ := hc
  have ha : 0 < 2 ^ k := Nat.two_pow_pos k
  refine (extMemAlloc_ensures cfg h.wf count type ha allowHighAllocs).bind ?_
  rintro ⟨s', p⟩ ⟨n, hi, hn, hd, hle, hlt, hb, hres⟩
  dsimp only at hd hle hlt hb hres
  obtain ⟨hdn, -, hcn⟩ := extCount_spec ha hn
  constructor
  · simp only [liveAfter, handedOut, hn, Option.map_some, Option.toList_some, List.singleton_append]
    refine h.take ht hres (hb ▸ h.convAligned) (hb ▸ h.convLow) _ rfl hle ?_
    intro m c hm hpc
    obtain rfl : count = m := by simpa using hm
    -- a whole number of pages is enough for `pmm_free`
    exact (pageCount_spec hpc).2.2.2 n (Nat.dvd_trans (dvd_two_pow hk) hdn) hcn
  · exact ⟨n, hi, hn, hd, hle, hlt, hres.takes h.wf h.inUse ht, hres.holds.frame⟩

theorem convMemAlloc_call (cfg : Config) {s : PmmState} {live : List Live} (h : Inv s live)
    (count : Nat) :
    (call cfg s (.convMemAlloc count)).Ensures True fun r =>
      Inv r.1 (liveAfter live (.convMemAlloc count) r.2) ∧
      Post cfg live s.memmap (.convMemAlloc count) r.2 r.1.memmap := by
  refine (convMemAlloc_ensures cfg h.wf h.convAligned h.convLow count).bind ?_
  rintro ⟨s', p⟩ ⟨n, hn, hd, hb, hle, hres⟩
  dsimp only at hd hb hle hres
  obtain ⟨-, -, hdn, -⟩ := pageCount_spec hn
  have ht : memmapBootloaderReclaimable ≠ memmapUsable := by decide
  constructor
  · simp only [liveAfter, handedOut, hn, Option.map_some, Option.toList_some, List.singleton_append]
    refine h.take ht hres (hb ▸ Nat.dvd_add hd hdn) (hb ▸ hle) _ rfl (Nat.le_refl _) ?_
    intro m c hm hpc
    obtain rfl : count = m := by simpa using hm
    exact (Option.some.inj (hpc.symm.trans hn)).le
  · exact ⟨n, hn, hd, hres.takes h.wf h.inUse ht, hres.holds.frame⟩

theorem takesUsable_iff {length type overlayType : Nat} {simulation newEntry : Bool} :
    takesUsable length type overlayType simulation newEntry = true ↔ overlayType = memmapUsable ∧
      type ≠ memmapUsable ∧ simulation = false ∧ newEntry = false ∧ length ≠ 0 := by
  simp [takesUsable, and_assoc]

theorem memmapAllocRange_call (cfg : Config) {s : PmmState} {live : List Live} (h : Inv s live)
    {base length type overlayType : Nat} {doPanic simulation newEntry : Bool}
    (hc : Allowed live (.memmapAllocRange base length type overlayType doPanic simulation newEntry)) :
    (call cfg s (.memmapAllocRange base length type overlayType doPanic simulation newEntry)).Ensures
      True fun r =>
        Inv r.1 (liveAfter live
          (.memmapAllocRange base length type overlayType doPanic simulation newEntry) r.2) ∧
        Post cfg live s.memmap
          (.memmapAllocRange base length type overlayType doPanic simulation newEntry) r.2 r.1.memmap := by
  refine (memmapAllocRange_ensures cfg h.wf base length type overlayType doPanic simulation
    newEntry).bind ?_
  rintro ⟨s', ok⟩ ⟨m', hs', hout⟩
  dsimp only at hs' hout
  subst hs'
  by_cases htu : ok = true ∧ takesUsable length type overlayType simulation newEntry = true
  · obtain ⟨rfl, htk⟩ := htu
    obtain ⟨rfl, ht, rfl, rfl, hl⟩ := takesUsable_iff.mp htk
    have hres := hout.reserves h.wf.noneOverflows hl
    have htakes := hres.takes h.wf h.inUse ht
    constructor
    · simp only [liveAfter, handedOut, htk, if_true, Option.toList_some, List.singleton_append]
      refine h.take ht hres ?_ ?_ ⟨base, length, none⟩ rfl (Nat.le_refl _) (by simp)
      · exact h.convAligned
      · exact h.convLow
    · exact ⟨fun _ _ a h1 h2 _ => (htakes a h1 h2).2.1, fun _ _ => htakes, hres.holds.frame⟩
  have hlive : liveAfter live
      (.memmapAllocRange base length type overlayType doPanic simulation newEntry) (.bool ok) = live := by
    unfold liveAfter handedOut
    cases ok with
    | false => rfl
    | true =>
      dsimp only
      rw [if_neg fun h => htu ⟨rfl, h⟩]
      rfl
  show Inv _ (liveAfter live _ (.bool ok)) ∧ _
  rw [hlive]
  rcases hout with _ | hnop | ⟨_, hsim, hl, hov, hw, hh⟩
  · exact ⟨h.drop (List.Sublist.refl _) rfl, by simp, by simp, Frame.refl _ _ _ _⟩
  · refine ⟨h.drop (List.Sublist.refl _) rfl, ?_, fun h1 h2 => absurd ⟨h1, h2⟩ htu, Frame.refl _ _ _ _⟩
    rintro - rfl a h1 h2
    obtain hl := hnop.resolve_right (by simp)
    omega
  · exact ⟨h.retype (List.Sublist.refl _) hc hh rfl, fun _ _ a h1 h2 hr => hh.types_in ⟨h1, h2⟩ hr,
      fun h1 h2 => absurd ⟨h1, h2⟩ htu, hh.frame⟩

theorem pmmFree_call (cfg : Config) {s : PmmState} {live : List Live} (h : Inv s live)
    {ptr count : Nat} (hc : Allowed live (.pmmFree ptr count)) :
    (call cfg s (.pmmFree ptr count)).Ensures True fun r =>
      Inv r.1 (liveAfter live (.pmmFree ptr count) r.2) ∧
      Post cfg live s.memmap (.pmmFree ptr count) r.2 r.1.memmap := by
  obtain ⟨l, hl, rfl, hsize⟩ := hc
  have hfit : ∀ n, pageCount count = some n → l.base + n < 2 ^ 64 := by
    intro n hn
    have h1 := h.freeable l hl count n hsize hn
    have h2 := h.fits l hl
    omega
  refine (pmmFree_ensures cfg h.wf l.base count hfit).bind ?_
  rintro s' ⟨hb, hs'⟩
  have hsub : (liveAfter live (.pmmFree l.base count) .void).Sublist live := List.filter_sublist
  split at hs'
  · next h0 => exact ⟨h.drop hsub hs', (if_pos h0).mpr (by rw [hs'])⟩
  · next h0 =>
    obtain ⟨n, hn, hh⟩ := hs'
    refine ⟨h.retype hsub (fun _ l' hl' a ha hin => ?_) hh hb, (if_neg h0).mpr ⟨n, hn, hh.frame,
      fun a h1 h2 hr => hh.types_in ⟨h1, h2⟩ hr⟩⟩
    -- the freed bytes are bytes of `l`, so a range that stays and holds one of them is `l`
    have hal : a ∈ l.range := by
      have := h.freeable l hl count n hsize hn
      rw [Live.mem_range]
      omega
    obtain ⟨hl'm, hkeep⟩ := List.mem_filter.mp hl'
    have hne : l ≠ l' := by
      rintro rfl
      simp [hsize] at hkeep
    exact Set.disjoint_left.mp (h.apart.forall hl hl'm hne) hal ha

/-- One call of a run keeps the invariant and does what it says. -/
theorem call_ensures (cfg : Config) {s : PmmState} {live : List Live} (h : Inv s live) {c : Call}
    (hc : Allowed live c) :
    (call cfg s c).Ensures True fun r =>
      Inv r.1 (liveAfter live c r.2) ∧ Post cfg live s.memmap c r.2 r.1.memmap := by
  cases c with
  | extMemAlloc count type alignment allowHighAllocs =>
    exact extMemAlloc_call cfg h allowHighAllocs hc
  | convMemAlloc count => exact convMemAlloc_call cfg h count
  | memmapAllocRange => exact memmapAllocRange_call cfg h hc
  | pmmFree => exact pmmFree_call cfg h hc

/-! ## Runs -/

/-- A state before any allocation. -/
structure Start (s : PmmState) : Prop where
  noneOverflows : NoneOverflows s.memmap
  disjoint : UsableDisjoint s.memmap
  sorted : SortedByBase s.memmap
  convBase : s.convBase = 4096

/-- The states a run from `s₀` reaches, with what is in use there. -/
inductive Runs (cfg : Config) (s₀ : PmmState) : PmmState → List Live → Prop
  | start : Runs cfg s₀ s₀ []
  | step {s s' : PmmState} {live : List Live} (c : Call) {r : Ret} : Runs cfg s₀ s live →
      Allowed live c → call cfg s c = .ok (s', r) → Runs cfg s₀ s' (liveAfter live c r)

theorem Start.inv {s : PmmState} (h : Start s) : Inv s [] :=
  ⟨⟨h.noneOverflows, h.disjoint⟩, h.sorted, by rw [h.convBase], by rw [h.convBase]; decide,
    by simp, List.Pairwise.nil, by simp, by simp⟩

theorem Runs.inv {cfg : Config} {s₀ s : PmmState} {live : List Live} (h₀ : Start s₀)
    (h : Runs cfg s₀ s live) : Inv s live := by
  induction h with
  | start => exact h₀.inv
  | step c _ hc hr ih => exact ((call_ensures cfg ih hc).of_ok hr).1

/-- **The allocators are sound.**  In every state a run reaches the map is sorted, no usable entry
overlaps another one, no range in use is usable and no two meet; and the next call, if it returns,
does what `Post` says. -/
theorem allocators_sound (cfg : Config) {s₀ s : PmmState} {live : List Live} (h₀ : Start s₀)
    (h : Runs cfg s₀ s live) :
    SortedByBase s.memmap ∧ UsableDisjoint s.memmap ∧
    (live.Pairwise fun l l' => Disjoint l.range l'.range) ∧
    (∀ l ∈ live, ∀ a ∈ l.range, ¬ Covers s.memmap memmapUsable a) ∧
    ∀ c s' r, Allowed live c → call cfg s c = .ok (s', r) →
      Post cfg live s.memmap c r s'.memmap := by
  have hi := h.inv h₀
  exact ⟨hi.sorted, hi.wf.disjoint, hi.apart, hi.inUse,
    fun c s' r hc hr => ((call_ensures cfg hi hc).of_ok hr).2⟩

/-- One usable entry of sixteen pages. -/
def oneEntry : PmmState := ⟨[⟨0x100000, 0x10000, memmapUsable⟩], 4096, false⟩

/-- The same after a page was handed out from its end. -/
def onePageOut : PmmState :=
  ⟨[⟨0x100000, 0xf000, memmapUsable⟩, ⟨0x10f000, 0x1000, memmapBootloaderReclaimable⟩], 4096, false⟩

theorem oneEntry_start : Start oneEntry := by
  refine ⟨?_, ?_, ?_, rfl⟩
  · unfold NoneOverflows
    decide
  · exact List.pairwise_singleton _ _
  · exact List.pairwise_singleton _ _

/-- A page is handed out and given back. -/
theorem allocators_sound_onePageOut :
    SortedByBase onePageOut.memmap ∧
    Post ⟨512, false, true⟩ [⟨0x10f000, 0x1000, some 0x1000⟩] onePageOut.memmap
      (.pmmFree 0x10f000 0x1000) .void oneEntry.memmap := by
  have hstep : call ⟨512, false, true⟩ oneEntry
      (.extMemAlloc 0x1000 memmapBootloaderReclaimable 4096 true) = .ok (onePageOut, .ptr 0x10f000) := rfl
  have hrun : Runs ⟨512, false, true⟩ oneEntry onePageOut [⟨0x10f000, 0x1000, some 0x1000⟩] :=
    .step (.extMemAlloc 0x1000 memmapBootloaderReclaimable 4096 true) .start
      ⟨by decide, 12, by decide, by decide⟩ hstep
  obtain ⟨h, -, -, -, hnext⟩ := allocators_sound ⟨512, false, true⟩ oneEntry_start hrun
  exact ⟨h, hnext (.pmmFree 0x10f000 0x1000) oneEntry .void ⟨_, List.mem_singleton_self _, rfl, rfl⟩ rfl⟩

/-- What `Allowed` rules out.  The page in use is handed out again once `memmap_alloc_range` has
made it usable; and so it is when another pointer, given back before, is given back again. -/
theorem allocators_unsound_otherwise :
    (call ⟨512, false, true⟩ oneEntry (.extMemAlloc 0x1000 memmapBootloaderReclaimable 4096 true) =
        .ok (onePageOut, .ptr 0x10f000) ∧
      call ⟨512, false, true⟩ onePageOut
        (.memmapAllocRange 0x10f000 0x1000 memmapUsable 0 true false false) =
        .ok (oneEntry, .bool true) ∧
      call ⟨512, false, true⟩ oneEntry (.extMemAlloc 0x1000 memmapBootloaderReclaimable 4096 true) =
        .ok (onePageOut, .ptr 0x10f000)) ∧
    ∃ s, call ⟨512, false, true⟩ oneEntry
        (.extMemAlloc 0x2000 memmapBootloaderReclaimable 4096 true) = .ok (s, .ptr 0x10e000) ∧
      call ⟨512, false, true⟩ s (.pmmFree 0x10e000 0x2000) = .ok (oneEntry, .void) ∧
      call ⟨512, false, true⟩ oneEntry (.extMemAlloc 0x1000 memmapBootloaderReclaimable 4096 true) =
        .ok (onePageOut, .ptr 0x10f000) ∧
      call ⟨512, false, true⟩ onePageOut (.pmmFree 0x10e000 0x2000) = .ok (oneEntry, .void) ∧
      call ⟨512, false, true⟩ oneEntry (.extMemAlloc 0x1000 memmapBootloaderReclaimable 4096 true) =
        .ok (onePageOut, .ptr 0x10f000) :=
  ⟨⟨rfl, rfl, rfl⟩, ⟨[⟨0x100000, 0xe000, 1⟩, ⟨0x10e000, 0x2000, 0x1000⟩], 4096, false⟩,
    rfl, rfl, rfl, rfl, rfl⟩

end Limine.Pmm
