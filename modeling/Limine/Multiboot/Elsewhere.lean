import Limine.Pmm.AllocRuns

/-!
# Ranges to be moved elsewhere

An image whose place is taken while the loader runs is put elsewhere first; the hand-off moves
it.  `elsewhere_append` looks for a place for one more range: below 4 GiB, in memory that is there,
and clear of where the ranges before it are and of where they will be.
-/

namespace Limine.Multiboot

open Limine.Lib Limine.Pmm

/-- `struct elsewhere_range`. -/
structure ElsewhereRange where
  elsewhere : Nat
  target : Nat
  length : Nat
deriving DecidableEq, Repr

/-- The end of the 32-bit address space. -/
def fourGiB : Nat := 0x100000000

def elsewhereOverlapCheck (base1 top1 base2 top2 : Nat) : Bool := base1 < top2 && base2 < top1

def elsewhereMemmapType (type : Nat) : Bool :=
  type = memmapUsable || type = memmapBootloaderReclaimable

/-- One turn of the loop over the map. -/
def nextCandidateIn (target length best : Nat) (e : MemmapEntry) : Nat :=
  if !elsewhereMemmapType e.type then best
  else
    match checkedAdd e.base e.length with
    | none => best
    | some top =>
      if fourGiB ≤ e.base then best
      else
        let top := if fourGiB < top then fourGiB else top
        if top ≤ target then best
        else if target < e.base then
          if top - e.base < length then best else if e.base < best then e.base else best
        else if top < best then top
        else best

/-- `elsewhere_next_memmap_candidate`. -/
def elsewhereNextMemmapCandidate (m : Memmap) (target length : Nat) : Option Nat :=
  let best := m.foldl (nextCandidateIn target length) uint64Max
  if best = uint64Max then none else alignUp best 4096

/-- What the checks against one range say of the target. -/
inductive Verdict
  | fits
  | retry (target : Nat) (wrapped : Bool)
  | refused
deriving DecidableEq, Repr

/-- The target moves past a conflict that ends at `top`. -/
def retryPast (top : Nat) (wrapped : Bool) : Verdict :=
  match alignUp top 4096 with
  | none => .refused
  | some target => .retry target wrapped

section
variable (cfg : Config)

/-- `memmap_alloc_range` as it is asked whether a range lies in an entry of this type. -/
def liesIn (m : Memmap) (base length type : Nat) : Exec Bool := do
  let (_, ok) ← memmapAllocRangeIn cfg m base length memmapBootloaderReclaimable type false true false
  return ok

section
variable (m : Memmap) (allowWraparound : Bool) (length : Nat)

/-- Where the search goes once there is no room above. -/
def wrapAround (wrapped : Bool) : Verdict :=
  if allowWraparound && !wrapped then .retry 0x100000 true else .refused

/-- The check that the memory exists. -/
def checkMemory (target : Nat) (wrapped : Bool) : Exec Verdict := do
  if ← liesIn cfg m target length memmapUsable then return .fits
  if ← liesIn cfg m target length memmapBootloaderReclaimable then return .fits
  match elsewhereNextMemmapCandidate m target length with
  | none => return wrapAround allowWraparound wrapped
  | some next => return .retry next wrapped

/-- One turn of the loop over the ranges. -/
def checkRange (target : Nat) (wrapped : Bool) (r : ElsewhereRange) : Exec Verdict :=
  match checkedAdd target length with
  | none => .ok .refused
  | some tTop =>
    if fourGiB < tTop then .ok (wrapAround allowWraparound wrapped)
    else
      match checkedAdd r.target r.length with
      | none => .ok .fits
      | some top =>
        if elsewhereOverlapCheck r.target top target tTop then .ok (retryPast top wrapped)
        else
          match checkedAdd r.elsewhere r.length with
          | none => .ok .fits
          | some top =>
            if elsewhereOverlapCheck r.elsewhere top target tTop then .ok (retryPast top wrapped)
            else checkMemory cfg m allowWraparound length target wrapped

/-- The loop over the ranges. -/
def checkRanges (target : Nat) (wrapped : Bool) : List ElsewhereRange → Exec Verdict
  | [] => .ok .fits
  | r :: ranges => do
    match ← checkRange cfg m allowWraparound length target wrapped r with
    | .fits => checkRanges target wrapped ranges
    | verdict => .ok verdict

/-- The passes over the ranges, of which `retries` are left; `none` is `false`. -/
def searchTarget (ranges : List ElsewhereRange) : Nat → Nat → Bool → Exec (Option Nat)
  | 0, _, _ => .ok none
  | retries + 1, target, wrapped => do
    match ← checkRanges cfg m allowWraparound length target wrapped ranges with
    | .fits => .ok (some target)
    | .retry target wrapped => searchTarget ranges retries target wrapped
    | .refused => .ok none

end

/-- The part of an entry that `elsewhere_reserve_target` notes, if it is usable. -/
def usablePart (base top : Nat) (e : MemmapEntry) : Option (Nat × Nat) :=
  if e.type ≠ memmapUsable then none
  else
    match checkedAdd e.base e.length with
    | none => none
    | some eTop =>
      let oBase := if e.base < base then base else e.base
      let oTop := if top < eTop then top else eTop
      if oBase < oTop then some (oBase, oTop - oBase) else none

/-- The parts that are noted, of which there is room for 64. -/
def usableParts (m : Memmap) (base top : Nat) : List (Nat × Nat) :=
  (m.filterMap (usablePart base top)).take 64

/-- The loop over the parts. -/
def reserveParts : List (Nat × Nat) → PmmState → Exec PmmState
  | [], s => .ok s
  | part :: parts, s => do
    let (s, _) ← memmapAllocRange cfg s part.1 part.2 memmapBootloaderReclaimable memmapUsable
      false false false
    reserveParts parts s

/-- `elsewhere_reserve_target`. -/
def elsewhereReserveTarget (s : PmmState) (base length : Nat) : Exec PmmState :=
  match checkedAdd base length with
  | none => .ok s
  | some top => reserveParts cfg (usableParts s.memmap base top) s

/-- Where the search begins: a target of -1 is the top of all ranges. -/
def firstTarget (ranges : List ElsewhereRange) (target : Nat) : Option Nat :=
  if target = uint64Max then
    let top := ranges.foldl (fun top r =>
      match checkedAdd r.target r.length with
      | none => top
      | some rTop => if top < rTop then rTop else top) 0
    alignUp top 4096
  else some target

/-- `elsewhere_append`: the state, the ranges and the target it leaves; `none` is `false`. -/
def elsewhereAppend (s : PmmState) (allowWraparound : Bool) (ranges : List ElsewhereRange)
    (rangesMax elsewhere target length : Nat) :
    Exec (PmmState × List ElsewhereRange × Option Nat) :=
  match firstTarget ranges target with
  | none => .ok (s, ranges, none)
  | some target => do
    match ← searchTarget cfg s.memmap allowWraparound length ranges 0x10000 target false with
    | none => .ok (s, ranges, none)
    | some target => do
      let s ← elsewhereReserveTarget cfg s target length
      if rangesMax ≤ ranges.length then .error (.panic "elsewhere: ranges array overflow")
      else .ok (s, ranges ++ [⟨elsewhere, target, length⟩], some target)

end

/-! ## A place that fits -/

/-- The two ranges share no address. -/
def Clear (base1 length1 base2 length2 : Nat) : Prop :=
  base1 + length1 ≤ base2 ∨ base2 + length2 ≤ base1

/-- The range does not run past the end of the address space, where it is or where it will be. -/
def ElsewhereRange.NoOverflow (r : ElsewhereRange) : Prop :=
  r.target + r.length < 2 ^ 64 ∧ r.elsewhere + r.length < 2 ^ 64

/-- The place lies in one entry of the map, of memory that is there. -/
def InRegion (m : Memmap) (target length : Nat) : Prop :=
  ∃ e ∈ m, elsewhereMemmapType e.type = true ∧ e.base ≤ target ∧ target + length ≤ e.base + e.length

/-- What the checks against one range establish. -/
structure FitsRange (m : Memmap) (target length : Nat) (r : ElsewhereRange) : Prop where
  below : target + length ≤ fourGiB
  offTarget : Clear r.target r.length target length
  offSource : Clear r.elsewhere r.length target length
  inRegion : InRegion m target length

section
variable {cfg : Config} {m : Memmap} {length : Nat}

theorem liesIn_ensures (hm : NoneOverflows m) (hl : length ≠ 0) (base type : Nat) :
    (liesIn cfg m base length type).Ensures False fun ok => ok = true → type ≠ 0 →
      ∃ e ∈ m, e.type = type ∧ e.base ≤ base ∧ base + length ≤ e.base + e.length := by
  unfold liesIn memmapAllocRangeIn
  rw [if_neg hl, if_neg (by simp)]
  cases hca : checkedAdd base length with
  | none => exact fun h => by cases h
  | some top =>
    obtain ⟨-, rfl⟩ := checkedAdd_eq_some_iff.mp hca
    dsimp only
    by_cases hany : m.any (holdsRange type base (base + length)) = true
    · rw [if_pos hany]
      intro _ ht
      obtain ⟨e, he, hholds⟩ := List.any_eq_true.mp hany
      obtain ⟨h1, h2, -, h3⟩ := (holdsRange_iff (hm e he)).mp hholds
      exact ⟨e, he, h1.resolve_left ht, h2, h3⟩
    · rw [if_neg hany]
      exact fun h => by cases h

theorem retryPast_ne_fits (top : Nat) (wrapped : Bool) : retryPast top wrapped ≠ .fits := by
  unfold retryPast
  generalize alignUp top 4096 = moved
  cases moved with
  | none => exact Verdict.noConfusion
  | some target => exact Verdict.noConfusion

theorem wrapAround_ne_fits (allowWraparound wrapped : Bool) :
    wrapAround allowWraparound wrapped ≠ .fits := by
  rw [wrapAround]
  split <;> simp

theorem checkMemory_ensures (hm : NoneOverflows m) (hl : length ≠ 0) (allowWraparound : Bool)
    (target : Nat) (wrapped : Bool) :
    (checkMemory cfg m allowWraparound length target wrapped).Ensures False fun v =>
      v = .fits → InRegion m target length := by
  unfold checkMemory
  have hin : ∀ type, elsewhereMemmapType type = true → type ≠ 0 →
      (liesIn cfg m target length type).Ensures False fun ok => ok = true → InRegion m target length := by
    intro type htype h0
    refine (liesIn_ensures hm hl target type).imp id fun ok h hok => ?_
    obtain ⟨e, he, rfl, h1, h2⟩ := h hok h0
    exact ⟨e, he, htype, h1, h2⟩
  refine (hin memmapUsable (by decide) (by decide)).bind fun ok hok => ?_
  split
  · next h => exact fun _ => hok h
  refine (hin memmapBootloaderReclaimable (by decide) (by decide)).bind fun ok hok => ?_
  split
  · next h => exact fun _ => hok h
  split
  · exact fun h => absurd h (wrapAround_ne_fits _ _)
  · exact fun h => by cases h

theorem clear_of_overlapCheck {base1 length1 base2 length2 : Nat}
    (h : ¬elsewhereOverlapCheck base1 (base1 + length1) base2 (base2 + length2) = true) :
    Clear base1 length1 base2 length2 := by
  rw [elsewhereOverlapCheck, Bool.and_eq_true, decide_eq_true_eq, decide_eq_true_eq] at h
  rw [Clear]
  omega

theorem checkRange_ensures (hm : NoneOverflows m) (hl : length ≠ 0) (allowWraparound : Bool)
    (target : Nat) (wrapped : Bool) {r : ElsewhereRange} (hr : r.NoOverflow) :
    (checkRange cfg m allowWraparound length target wrapped r).Ensures False fun v =>
      v = .fits → FitsRange m target length r := by
  unfold checkRange
  cases hca : checkedAdd target length with
  | none => exact fun h => by cases h
  | some tTop =>
    obtain ⟨-, rfl⟩ := checkedAdd_eq_some_iff.mp hca
    rw [checkedAdd_eq_some hr.1, checkedAdd_eq_some hr.2]
    dsimp only
    by_cases hbelow : fourGiB < target + length
    · rw [if_pos hbelow]
      exact fun h => absurd h (wrapAround_ne_fits _ _)
    rw [if_neg hbelow]
    by_cases htarget : elsewhereOverlapCheck r.target (r.target + r.length) target (target + length) = true
    · rw [if_pos htarget]
      exact fun h => absurd h (retryPast_ne_fits _ _)
    rw [if_neg htarget]
    by_cases hsource :
        elsewhereOverlapCheck r.elsewhere (r.elsewhere + r.length) target (target + length) = true
    · rw [if_pos hsource]
      exact fun h => absurd h (retryPast_ne_fits _ _)
    rw [if_neg hsource]
    refine (checkMemory_ensures hm hl allowWraparound target wrapped).imp id fun v h hv => ?_
    exact ⟨Nat.le_of_not_lt hbelow, clear_of_overlapCheck htarget, clear_of_overlapCheck hsource, h hv⟩

/-- **A pass over the ranges** ends with the target it began with, or says where to go on. -/
theorem checkRanges_ensures (hm : NoneOverflows m) (hl : length ≠ 0) (allowWraparound : Bool)
    (target : Nat) (wrapped : Bool) (ranges : List ElsewhereRange) :
    (∀ r ∈ ranges, r.NoOverflow) →
    (checkRanges cfg m allowWraparound length target wrapped ranges).Ensures False fun v =>
      v = .fits → ∀ r ∈ ranges, FitsRange m target length r := by
  induction ranges with
  | nil =>
    intro _ _ r hr
    cases hr
  | cons r ranges ih =>
    intro hno
    rw [checkRanges]
    refine (checkRange_ensures hm hl allowWraparound target wrapped (hno r (by simp))).bind ?_
    intro v hv
    cases v with
    | fits =>
      refine (ih fun r' hr' => hno r' (by simp [hr'])).imp id fun v h hfits r' hr' => ?_
      rcases List.mem_cons.mp hr' with rfl | hr'
      · exact hv rfl
      · exact h hfits r' hr'
    | retry target wrapped => exact fun h => by cases h
    | refused => exact fun h => by cases h

/-- **The search** ends, and where it finds a target, one pass over the ranges has accepted it. -/
theorem searchTarget_ensures (hm : NoneOverflows m) (hl : length ≠ 0) (allowWraparound : Bool)
    {ranges : List ElsewhereRange} (hno : ∀ r ∈ ranges, r.NoOverflow) (retries : Nat) :
    ∀ target wrapped,
      (searchTarget cfg m allowWraparound length ranges retries target wrapped).Ensures False fun found =>
        ∀ t, found = some t → ∀ r ∈ ranges, FitsRange m t length r := by
  induction retries with
  | zero =>
    intro target wrapped t h
    cases h
  | succ retries ih =>
    intro target wrapped
    rw [searchTarget]
    refine (checkRanges_ensures hm hl allowWraparound target wrapped ranges hno).bind ?_
    intro v hv
    cases v with
    | fits =>
      rintro t ⟨⟩
      exact hv rfl
    | retry target wrapped => exact ih target wrapped
    | refused =>
      intro t h
      cases h

/-! ## The place is taken -/

theorem usablePart_none {base top : Nat} {e : MemmapEntry} (he : e.NoOverflow)
    (h : e.type = memmapUsable → top ≤ e.base ∨ e.base + e.length ≤ base ∨ e.length = 0) :
    usablePart base top e = none := by
  rw [usablePart]
  by_cases hu : e.type = memmapUsable
  · have := h hu
    rw [if_neg (by simp [hu]), checkedAdd_eq_some he]
    dsimp only
    rw [if_neg]
    split <;> split <;> omega
  · rw [if_pos hu]

theorem usablePart_all {base length : Nat} {e : MemmapEntry} (he : e.NoOverflow)
    (hu : e.type = memmapUsable) (hl : length ≠ 0) (h1 : e.base ≤ base)
    (h2 : base + length ≤ e.base + e.length) :
    usablePart base (base + length) e = some (base, length) := by
  rw [usablePart, if_neg (by simp [hu]), checkedAdd_eq_some he]
  dsimp only
  have hbase : (if e.base < base then base else e.base) = base := by
    split <;> omega
  have htop : (if base + length < e.base + e.length then base + length else e.base + e.length) =
      base + length := by
    split <;> omega
  rw [hbase, htop, if_pos (by omega), Nat.add_sub_cancel_left]

/-- A range that lies in one entry is the only part there is, or none where the entry is in use. -/
theorem usableParts_of_mem (hm : Wf m) {base : Nat} {e : MemmapEntry} (hl : length ≠ 0)
    (he : e ∈ m) (h1 : e.base ≤ base) (h2 : base + length ≤ e.base + e.length) :
    usableParts m base (base + length) =
      if e.type = memmapUsable then [(base, length)] else [] := by
  obtain ⟨pre, post, rfl⟩ := List.append_of_mem he
  have hno := hm.noneOverflows
  have hdisj := hm.disjoint
  rw [UsableDisjoint, List.pairwise_append, List.pairwise_cons] at hdisj
  obtain ⟨-, ⟨hpost, -⟩, hpre⟩ := hdisj
  have hother : ∀ r, r ∈ pre ∨ r ∈ post → usablePart base (base + length) r = none := by
    intro r hr
    refine usablePart_none ?_ fun hu => ?_
    · rcases hr with hr | hr
      · exact hno r (by simp [hr])
      · exact hno r (by simp [hr])
    · have hd : Disjoint e.span r.span := by
        rcases hr with hr | hr
        · exact (hpre r hr e (by simp) (Or.inl hu)).symm
        · exact hpost r hr (Or.inr hu)
      rw [MemmapEntry.span_disjoint_iff] at hd
      omega
  have hnone : ∀ l : Memmap, (∀ r ∈ l, usablePart base (base + length) r = none) →
      l.filterMap (usablePart base (base + length)) = [] :=
    fun l h => List.filterMap_eq_nil_iff.mpr h
  rw [usableParts, List.filterMap_append, hnone pre fun r hr => hother r (Or.inl hr),
    List.filterMap_cons, hnone post fun r hr => hother r (Or.inr hr), List.nil_append]
  by_cases hu : e.type = memmapUsable
  · rw [usablePart_all (hno e (by simp)) hu hl h1 h2, if_pos hu]
    rfl
  · rw [usablePart, if_pos hu, if_neg hu]
    rfl

/-- What `elsewhere_reserve_target` does to a range that lies in one entry: the range is not usable
any more, and nothing else becomes usable. -/
theorem elsewhereReserveTarget_ensures {s : PmmState} (hm : Wf s.memmap) {base : Nat}
    (hl : length ≠ 0) (hin : InRegion s.memmap base length) :
    (elsewhereReserveTarget cfg s base length).Ensures True fun s' =>
      Wf s'.memmap ∧ ∀ a, Covers s'.memmap memmapUsable a →
        Covers s.memmap memmapUsable a ∧ ¬(base ≤ a ∧ a < base + length) := by
  obtain ⟨e, he, htype, h1, h2⟩ := hin
  have hno := hm.noneOverflows e he
  rw [MemmapEntry.NoOverflow] at hno
  rw [elsewhereReserveTarget, checkedAdd_eq_some (by omega)]
  dsimp only
  rw [usableParts_of_mem hm hl he h1 h2]
  by_cases hu : e.type = memmapUsable
  · rw [if_pos hu, reserveParts]
    refine (memmapAllocRange_ensures_reserves cfg hm hl he hu h1 h2).bind ?_
    rintro ⟨s', ok⟩ ⟨-, -, hres⟩
    refine ⟨hres.holds.wf, fun a ha => ?_⟩
    by_cases hin : base ≤ a ∧ a < base + length
    · have htypes := hres.holds.types a
      rw [Covers, htypes, settled, retype, if_pos hin] at ha
      exact absurd ha.1 (by decide)
    · exact ⟨(hres.holds.frame a hin _).1 ha, hin⟩
  · rw [if_neg hu]
    refine ⟨hm, fun a ha => ⟨ha, fun hin => hu ?_⟩⟩
    exact hm.disjoint.eq_of_covers ha ⟨e, he, rfl, by rw [MemmapEntry.mem_span]; omega⟩

/-- What one more range is: clear of all the others, where they are and where they will be, in
memory that was there, which is not usable any more. -/
structure Placed (m m' : Memmap) (ranges : List ElsewhereRange) (target length : Nat) : Prop where
  below : target + length ≤ fourGiB
  inRegion : InRegion m target length
  offTargets : ∀ r ∈ ranges, Clear r.target r.length target length
  offSources : ∀ r ∈ ranges, Clear r.elsewhere r.length target length
  reserved : ∀ a, target ≤ a → a < target + length → ¬Covers m' memmapUsable a

/-- What `elsewhere_append` leaves. -/
structure Appended (s : PmmState) (ranges : List ElsewhereRange) (elsewhere length : Nat)
    (r : PmmState × List ElsewhereRange × Option Nat) : Prop where
  wf : Wf r.1.memmap
  usable : ∀ a, Covers r.1.memmap memmapUsable a → Covers s.memmap memmapUsable a
  placed : ∀ target, r.2.2 = some target →
    r.2.1 = ranges ++ [⟨elsewhere, target, length⟩] ∧
      Placed s.memmap r.1.memmap ranges target length
  refused : r.2.2 = none → r.1 = s ∧ r.2.1 = ranges

theorem elsewhereAppend_ensures {s : PmmState} (hm : Wf s.memmap) {ranges : List ElsewhereRange}
    (hne : ranges ≠ []) (hno : ∀ r ∈ ranges, r.NoOverflow) (allowWraparound : Bool)
    (rangesMax elsewhere target : Nat) (hl : length ≠ 0) :
    (elsewhereAppend cfg s allowWraparound ranges rangesMax elsewhere target length).Ensures True
      (Appended s ranges elsewhere length) := by
  have hrefused : Appended s ranges elsewhere length (s, ranges, none) :=
    ⟨hm, fun _ h => h, nofun, fun _ => ⟨rfl, rfl⟩⟩
  rw [elsewhereAppend]
  cases firstTarget ranges target with
  | none => exact hrefused
  | some first =>
    refine ((searchTarget_ensures hm.noneOverflows hl allowWraparound hno 0x10000 first false).imp
      False.elim fun _ h => h).bind fun found hfound => ?_
    cases found with
    | none => exact hrefused
    | some t =>
      have hfits := hfound t rfl
      obtain ⟨r, hr⟩ := List.exists_mem_of_ne_nil ranges hne
      refine (elsewhereReserveTarget_ensures hm hl (hfits r hr).inRegion).bind fun s' h => ?_
      obtain ⟨hwf, husable⟩ := h
      split
      · trivial
      · refine ⟨hwf, fun a ha => (husable a ha).1, ?_, nofun⟩
        rintro target ⟨⟩
        refine ⟨rfl, (hfits r hr).below, (hfits r hr).inRegion, fun r hr => (hfits r hr).offTarget,
          fun r hr => (hfits r hr).offSource, ?_⟩
        intro a h1 h2 ha
        exact (husable a ha).2 ⟨h1, h2⟩

/-- **One more range finds its place, or nothing changes**: the search ends, and where it returns
true the target passed every check at once. -/
theorem elsewhereAppend_sound (cfg : Config) (s : PmmState) (allowWraparound : Bool)
    (ranges : List ElsewhereRange) (rangesMax elsewhere target length : Nat) (hm : Wf s.memmap)
    (hne : ranges ≠ []) (hno : ∀ r ∈ ranges, r.NoOverflow) (hl : length ≠ 0) :
    (elsewhereAppend cfg s allowWraparound ranges rangesMax elsewhere target length).Ensures True
      fun (s', ranges', found) =>
        (∀ t, found = some t → ranges' = ranges ++ [⟨elsewhere, t, length⟩] ∧
          Placed s.memmap s'.memmap ranges t length) ∧
        (found = none → ranges' = ranges ∧ s'.memmap = s.memmap) := by
  refine (elsewhereAppend_ensures hm hne hno allowWraparound rangesMax elsewhere target hl).imp id ?_
  intro r h
  exact ⟨h.placed, fun hnone => ⟨(h.refused hnone).2, by rw [(h.refused hnone).1]⟩⟩

/-- Usable memory from 1 MiB on, of which an image has taken the first two pages. -/
def imageStaged : PmmState :=
  ⟨[⟨0x100000, 0x2000, memmapBootloaderReclaimable⟩, ⟨0x102000, 0x1000000, memmapUsable⟩], 4096, false⟩

/-- A range from the end of memory goes behind the image it comes after. -/
theorem elsewhereAppend_behind :
    elsewhereAppend ⟨512, false, true⟩ imageStaged false [⟨0x102000, 0x100000, 0x2000⟩] 8 0x900000
        uint64Max 0x1000 =
      .ok (⟨[⟨0x100000, 0x2000, memmapBootloaderReclaimable⟩, ⟨0x102000, 0x2000, memmapUsable⟩,
          ⟨0x104000, 0x1000, memmapBootloaderReclaimable⟩, ⟨0x105000, 0xffd000, memmapUsable⟩], 4096, false⟩,
        [⟨0x102000, 0x100000, 0x2000⟩, ⟨0x900000, 0x104000, 0x1000⟩], some 0x104000) ∧
    Clear 0x102000 0x2000 0x104000 0x1000 := by
  have hrun : elsewhereAppend ⟨512, false, true⟩ imageStaged false [⟨0x102000, 0x100000, 0x2000⟩] 8
        0x900000 uint64Max 0x1000 =
      .ok (⟨[⟨0x100000, 0x2000, memmapBootloaderReclaimable⟩, ⟨0x102000, 0x2000, memmapUsable⟩,
          ⟨0x104000, 0x1000, memmapBootloaderReclaimable⟩, ⟨0x105000, 0xffd000, memmapUsable⟩], 4096, false⟩,
        [⟨0x102000, 0x100000, 0x2000⟩, ⟨0x900000, 0x104000, 0x1000⟩], some 0x104000) := by
    decide
  have hm : Wf imageStaged.memmap := by
    constructor
    · unfold NoneOverflows
      decide
    · refine List.pairwise_pair.mpr fun _ => ?_
      rw [MemmapEntry.span_disjoint_iff]
      decide
  have h := elsewhereAppend_sound ⟨512, false, true⟩ imageStaged false
    [⟨0x102000, 0x100000, 0x2000⟩] 8 0x900000 uint64Max 0x1000 hm (by simp)
    (by simp [ElsewhereRange.NoOverflow]) (by decide)
  rw [hrun] at h
  exact ⟨hrun, (h.1 0x104000 rfl).2.offSources ⟨0x102000, 0x100000, 0x2000⟩ (by simp)⟩

end

end Limine.Multiboot
