import Limine.Lib.Frontier
import Limine.Pmm.Memmap

/-!
# How much memory there is up to the first hole

`mmap_get_info` moves two frontiers over the usable entries, which may be in any order, until a pass moves
neither.  They end at the first hole from 0 and from 1 MiB on (`mmapLoop_spec`).  What is above 1 MiB is
returned in a `size_t`.
-/

namespace Limine.Pmm

open Limine.Lib

/-! ## The source -/

structure MemInfo where
  uppermem : Nat
  lowermem : Nat
deriving DecidableEq, Repr

/-- `lower_end`, `upper_end` and `progress`. -/
structure Frontiers where
  lowerEnd : Nat
  upperEnd : Nat
  progress : Bool
deriving DecidableEq, Repr

/-- One turn of the `for` loop. -/
def mmapVisit (s : Frontiers) (e : MemmapEntry) : Frontiers :=
  if e.type ≠ memmapUsable then s
  else
    match checkedAdd e.base e.length with
    | none => s
    | some top =>
      let s := if e.base ≤ s.lowerEnd ∧ top > s.lowerEnd then { s with lowerEnd := top, progress := true } else s
      if e.base ≤ s.upperEnd ∧ top > s.upperEnd then { s with upperEnd := top, progress := true } else s

/-- The `do` loop. -/
def mmapLoop (mmap : Memmap) : Nat → Nat → Nat → Exec (Nat × Nat)
  | 0, _, _ => .error .outOfFuel
  | fuel + 1, lowerEnd, upperEnd =>
    let s := mmap.foldl mmapVisit ⟨lowerEnd, upperEnd, false⟩
    if s.progress then mmapLoop mmap fuel s.lowerEnd s.upperEnd else .ok (s.lowerEnd, s.upperEnd)

/-- The fields of `struct meminfo` are of type `size_t`, of `sizeBits` bits. -/
def mmapGetInfo (sizeBits fuel : Nat) (mmap : Memmap) : Exec MemInfo := do
  let (lowerEnd, upperEnd) ← mmapLoop mmap fuel 0 0x100000
  let lowerEnd := if lowerEnd > 0x100000 then 0x100000 else lowerEnd
  .ok { lowermem := lowerEnd % 2 ^ sizeBits, uppermem := (upperEnd - 0x100000) % 2 ^ sizeBits }

/-! ## Two frontiers -/

/-- The entries that the loop does not pass over. -/
def counted (e : MemmapEntry) : Bool := e.type == memmapUsable && decide e.NoOverflow

def usableIntervals (m : Memmap) : List (Nat × Nat) := (m.filter counted).map fun e => (e.base, e.base + e.length)

/-- An address in memory that the code counts. -/
def UsableAt (m : Memmap) (a : Nat) : Prop := ∃ e ∈ m, e.type = memmapUsable ∧ e.NoOverflow ∧ a ∈ e.span

/-- Both frontiers take an interval. -/
def Frontiers.visit (s : Frontiers) (i : Nat × Nat) : Frontiers where
  lowerEnd := advance s.lowerEnd i
  upperEnd := advance s.upperEnd i
  progress := s.progress || decide (s.lowerEnd < advance s.lowerEnd i ∨ s.upperEnd < advance s.upperEnd i)

theorem counted_iff {e : MemmapEntry} : counted e = true ↔ e.type = memmapUsable ∧ e.NoOverflow := by
  simp [counted]

theorem covered_usableIntervals (m : Memmap) (a : Nat) : Covered (usableIntervals m) a ↔ UsableAt m a := by
  unfold Covered usableIntervals UsableAt
  simp only [List.mem_map, List.mem_filter, counted_iff]
  constructor
  · rintro ⟨-, ⟨e, ⟨he, htype, hno⟩, rfl⟩, hin⟩
    exact ⟨e, he, htype, hno, hin⟩
  · rintro ⟨e, he, htype, hno, hin⟩
    exact ⟨_, ⟨e, ⟨he, htype, hno⟩, rfl⟩, hin⟩

theorem UsableAt.lt {m : Memmap} {a : Nat} (h : UsableAt m a) : a < 2 ^ 64 := by
  obtain ⟨e, -, -, hno, -, hhigh⟩ := h
  exact Nat.lt_trans hhigh hno

theorem length_usableIntervals_le (m : Memmap) : (usableIntervals m).length ≤ m.length := by
  unfold usableIntervals
  rw [List.length_map]
  exact List.length_filter_le _ _

theorem mmapVisit_skip {s : Frontiers} {e : MemmapEntry} (he : ¬counted e = true) : mmapVisit s e = s := by
  unfold mmapVisit
  split
  · rfl
  · next htype =>
    have hover : checkedAdd e.base e.length = none := by
      apply if_neg
      intro hlt
      exact he (counted_iff.mpr ⟨not_not.mp htype, hlt⟩)
    rw [hover]

theorem mmapVisit_take {s : Frontiers} {e : MemmapEntry} (he : counted e = true) :
    mmapVisit s e = s.visit (e.base, e.base + e.length) := by
  obtain ⟨htype, hno⟩ := counted_iff.mp he
  unfold mmapVisit Frontiers.visit advance
  rw [if_neg (not_not.mpr htype), checkedAdd_eq_some hno]
  dsimp only
  split <;> split <;> simp_all

/-- A pass takes the intervals, one after the other. -/
theorem foldl_mmapVisit (m : Memmap) (s : Frontiers) :
    m.foldl mmapVisit s = (usableIntervals m).foldl Frontiers.visit s := by
  induction m generalizing s with
  | nil => rfl
  | cons e m ih =>
    rw [List.foldl_cons, ih]
    unfold usableIntervals
    by_cases he : counted e = true
    · rw [mmapVisit_take he, List.filter_cons_of_pos he, List.map_cons, List.foldl_cons]
    · rw [mmapVisit_skip he, List.filter_cons_of_neg he]

section
variable {l : List (Nat × Nat)}

/-- What a pass over some of the intervals does to the frontiers. -/
structure PassSpec (l part : List (Nat × Nat)) (s s' : Frontiers) : Prop where
  lower : Reached l 0 s.lowerEnd → Reached l 0 s'.lowerEnd
  upper : Reached l 0x100000 s.upperEnd → Reached l 0x100000 s'.upperEnd
  still : s'.progress = false → s' = s ∧ ∀ i ∈ part, advance s.lowerEnd i = s.lowerEnd ∧ advance s.upperEnd i = s.upperEnd
  ahead_le : ahead l s'.lowerEnd + ahead l s'.upperEnd ≤ ahead l s.lowerEnd + ahead l s.upperEnd
  ahead_lt : s'.progress = true → s.progress = true ∨
    ahead l s'.lowerEnd + ahead l s'.upperEnd < ahead l s.lowerEnd + ahead l s.upperEnd

theorem passSpec_visit {i : Nat × Nat} (hi : i ∈ l) (s : Frontiers) : PassSpec l [i] s (s.visit i) := by
  have hlower := le_advance s.lowerEnd i
  have hupper := le_advance s.upperEnd i
  have hlowerAhead := ahead_antitone (l := l) hlower
  have hupperAhead := ahead_antitone (l := l) hupper
  constructor
  · exact fun h => h.advance hi
  · exact fun h => h.advance hi
  · intro hstill
    simp only [Frontiers.visit, Bool.or_eq_false_iff, decide_eq_false_iff_not] at hstill
    have hlowerStill : advance s.lowerEnd i = s.lowerEnd := by omega
    have hupperStill : advance s.upperEnd i = s.upperEnd := by omega
    constructor
    · unfold Frontiers.visit
      rw [hlowerStill, hupperStill]
      simp
    · intro j hj
      rw [List.mem_singleton.mp hj]
      exact ⟨hlowerStill, hupperStill⟩
  · exact Nat.add_le_add hlowerAhead hupperAhead
  · intro hprogress
    simp only [Frontiers.visit, Bool.or_eq_true, decide_eq_true_eq] at hprogress
    show s.progress = true ∨ ahead l (advance s.lowerEnd i) + ahead l (advance s.upperEnd i) < _
    rcases hprogress with hprogress | hmoved | hmoved
    · exact Or.inl hprogress
    · have hlt := Lib.ahead_lt hi hmoved
      omega
    · have hlt := Lib.ahead_lt hi hmoved
      omega

theorem PassSpec.cons {i : Nat × Nat} {part : List (Nat × Nat)} {s s₁ s₂ : Frontiers} (h : PassSpec l [i] s s₁)
    (h' : PassSpec l part s₁ s₂) : PassSpec l (i :: part) s s₂ := by
  constructor
  · exact fun hr => h'.lower (h.lower hr)
  · exact fun hr => h'.upper (h.upper hr)
  · intro hstill
    obtain ⟨heq, hpart⟩ := h'.still hstill
    subst heq
    obtain ⟨heq, hi⟩ := h.still hstill
    subst heq
    exact ⟨rfl, List.forall_mem_cons.mpr ⟨hi i (List.mem_singleton.mpr rfl), hpart⟩⟩
  · exact Nat.le_trans h'.ahead_le h.ahead_le
  · intro hprogress
    have hle := h.ahead_le
    have hle' := h'.ahead_le
    rcases h'.ahead_lt hprogress with hprogress | hlt
    · rcases h.ahead_lt hprogress with hprogress | hlt
      · exact Or.inl hprogress
      · exact Or.inr (by omega)
    · exact Or.inr (by omega)

theorem passSpec_foldl : ∀ {part : List (Nat × Nat)} (s : Frontiers), (∀ i ∈ part, i ∈ l) →
    PassSpec l part s (part.foldl Frontiers.visit s) := by
  intro part
  induction part with
  | nil =>
    intro s _
    constructor
    · exact id
    · exact id
    · intro _
      exact ⟨rfl, by simp⟩
    · exact Nat.le_refl _
    · exact fun h => Or.inl h
  | cons i part ih =>
    intro s hpart
    obtain ⟨hi, hpart⟩ := List.forall_mem_cons.mp hpart
    exact (passSpec_visit hi s).cons (ih (s.visit i) hpart)

end

/-- The loop ends where neither frontier can move; every pass but the last leaves fewer entries ahead. -/
theorem mmapLoop_spec (m : Memmap) : ∀ {fuel lowerEnd upperEnd : Nat},
    Reached (usableIntervals m) 0 lowerEnd → Reached (usableIntervals m) 0x100000 upperEnd →
    ahead (usableIntervals m) lowerEnd + ahead (usableIntervals m) upperEnd < fuel →
    ∃ lower upper, mmapLoop m fuel lowerEnd upperEnd = .ok (lower, upper) ∧
      IsLeast {a | 0 ≤ a ∧ ¬Covered (usableIntervals m) a} lower ∧
      IsLeast {a | 0x100000 ≤ a ∧ ¬Covered (usableIntervals m) a} upper := by
  intro fuel
  induction fuel with
  | zero =>
    intro _ _ _ _ hfuel
    omega
  | succ fuel ih =>
    intro lowerEnd upperEnd hlower hupper hfuel
    have hpass := passSpec_foldl (l := usableIntervals m) ⟨lowerEnd, upperEnd, false⟩ fun i hi => hi
    unfold mmapLoop
    rw [foldl_mmapVisit]
    generalize (usableIntervals m).foldl Frontiers.visit ⟨lowerEnd, upperEnd, false⟩ = s at hpass ⊢
    cases hprogress : s.progress with
    | true =>
      rcases hpass.ahead_lt hprogress with hno | hlt
      · cases hno
      · dsimp only
        rw [if_pos hprogress]
        exact ih (hpass.lower hlower) (hpass.upper hupper) (Nat.lt_of_lt_of_le hlt (Nat.le_of_lt_succ hfuel))
    | false =>
      obtain ⟨rfl, hstill⟩ := hpass.still hprogress
      exact ⟨lowerEnd, upperEnd, rfl, hlower.isLeast fun i hi => (hstill i hi).1,
        hupper.isLeast fun i hi => (hstill i hi).2⟩

/-! ## What is returned -/

/-- What lies below the first hole, and what lies from 1 MiB up to the first hole from there on. -/
def MeasuresHoles (m : Memmap) (info : MemInfo) : Prop :=
  ∃ lower upper, IsLeast {a | ¬UsableAt m a} lower ∧ IsLeast {a | 0x100000 ≤ a ∧ ¬UsableAt m a} upper ∧
    info.lowermem = min 0x100000 lower ∧ info.uppermem = upper - 0x100000

/-- The result, with the part that `size_t` cuts off. -/
theorem mmapGetInfo_eq (sizeBits : Nat) (m : Memmap) : ∃ lower upper,
    IsLeast {a | ¬UsableAt m a} lower ∧ IsLeast {a | 0x100000 ≤ a ∧ ¬UsableAt m a} upper ∧
    ∀ fuel, 2 * m.length < fuel → mmapGetInfo sizeBits fuel m =
      .ok ⟨(upper - 0x100000) % 2 ^ sizeBits, min 0x100000 lower % 2 ^ sizeBits⟩ := by
  have hbound (f : Nat) : ahead (usableIntervals m) f ≤ m.length :=
    Nat.le_trans (ahead_le_length _ f) (length_usableIntervals_le m)
  have hahead : ahead (usableIntervals m) 0 + ahead (usableIntervals m) 0x100000 ≤ 2 * m.length := by
    have hlower := hbound 0
    have hupper := hbound 0x100000
    omega
  have hrun (fuel : Nat) (hfuel : 2 * m.length < fuel) := mmapLoop_spec m (Reached.refl (usableIntervals m) 0)
    (Reached.refl (usableIntervals m) 0x100000) (Nat.lt_of_le_of_lt hahead hfuel)
  simp only [covered_usableIntervals, Nat.zero_le, true_and] at hrun
  obtain ⟨lower, upper, -, hlower, hupper⟩ := hrun (2 * m.length + 1) (Nat.lt_succ_self _)
  refine ⟨lower, upper, hlower, hupper, fun fuel hfuel => ?_⟩
  obtain ⟨lower', upper', hloop, hlower', hupper'⟩ := hrun fuel hfuel
  rw [hlower'.unique hlower, hupper'.unique hupper] at hloop
  have hclamp : (if lower > 0x100000 then 0x100000 else lower) = min 0x100000 lower := by
    split <;> omega
  unfold mmapGetInfo
  rw [hloop, ← hclamp]
  rfl

theorem usableAt_perm {m m' : Memmap} (h : m.Perm m') (a : Nat) : UsableAt m a ↔ UsableAt m' a := by
  unfold UsableAt
  simp only [h.mem_iff]

/-- `mmap_get_info` ends, in any order of the entries with the same result, which is right unless the memory
from 1 MiB on is more than `size_t` can say. -/
theorem mmapGetInfo_measures_iff (sizeBits : Nat) (hsize : 32 ≤ sizeBits) (m : Memmap) :
    ∃ info, (∀ m', m.Perm m' → ∀ fuel, 2 * m.length < fuel → mmapGetInfo sizeBits fuel m' = .ok info) ∧
      (MeasuresHoles m info ↔ ∃ a, 0x100000 ≤ a ∧ a < 0x100000 + 2 ^ sizeBits ∧ ¬UsableAt m a) := by
  obtain ⟨lower, upper, hlower, hupper, hrun⟩ := mmapGetInfo_eq sizeBits m
  have hpow : 0x100000 < 2 ^ sizeBits :=
    Nat.lt_of_lt_of_le (by decide) (Nat.pow_le_pow_right (Nat.zero_lt_two) hsize)
  have hlow : min 0x100000 lower % 2 ^ sizeBits = min 0x100000 lower := Nat.mod_eq_of_lt (by omega)
  refine ⟨⟨(upper - 0x100000) % 2 ^ sizeBits, min 0x100000 lower % 2 ^ sizeBits⟩, fun m' hm fuel hfuel => ?_, ?_⟩
  · obtain ⟨lower', upper', hlower', hupper', hrun'⟩ := mmapGetInfo_eq sizeBits m'
    simp only [← usableAt_perm hm] at hlower' hupper'
    rw [hm.length_eq] at hfuel
    rw [hrun' fuel hfuel, hlower'.unique hlower, hupper'.unique hupper]
  · constructor
    · rintro ⟨lower', upper', -, hupper', -, hupperEq⟩
      rw [hupper'.unique hupper] at hupperEq
      have hlt : upper - 0x100000 < 2 ^ sizeBits := by
        rw [← hupperEq]
        exact Nat.mod_lt _ (by omega)
      exact ⟨upper, hupper.1.1, by omega, hupper.1.2⟩
    · rintro ⟨a, hmib, hlt, ha⟩
      have hle : upper ≤ a := hupper.2 ⟨hmib, ha⟩
      exact ⟨lower, upper, hlower, hupper, hlow, Nat.mod_eq_of_lt (by omega)⟩

/-- 8 GiB of memory in one piece, where `size_t` has 32 bits. -/
theorem mmapGetInfo_size32 : mmapGetInfo 32 3 [⟨0, 2 ^ 33, memmapUsable⟩] = .ok ⟨0xfff00000, 0x100000⟩ ∧
    ¬MeasuresHoles [⟨0, 2 ^ 33, memmapUsable⟩] ⟨0xfff00000, 0x100000⟩ := by
  constructor
  · decide
  · rintro ⟨-, upper, -, ⟨⟨-, hhole⟩, -⟩, -, hupper⟩
    apply hhole
    exact ⟨_, List.mem_singleton.mpr rfl, rfl, by decide, Nat.zero_le _, by
      dsimp only at hupper ⊢
      omega⟩

/-- The same where it has 64, and with the entries cut up and out of order. -/
theorem mmapGetInfo_measures_iff_size64 : ∃ info, MeasuresHoles
    [⟨2 ^ 32, 2 ^ 32, memmapUsable⟩, ⟨0x1000, 2 ^ 32, memmapUsable⟩, ⟨0, 0x1000, memmapUsable⟩] info := by
  obtain ⟨info, -, h⟩ := mmapGetInfo_measures_iff 64 (by decide)
    [⟨2 ^ 32, 2 ^ 32, memmapUsable⟩, ⟨0x1000, 2 ^ 32, memmapUsable⟩, ⟨0, 0x1000, memmapUsable⟩]
  refine ⟨info, h.mpr ⟨2 ^ 64, by decide, by decide, fun hlast => ?_⟩⟩
  exact Nat.lt_irrefl _ hlast.lt

end Limine.Pmm
