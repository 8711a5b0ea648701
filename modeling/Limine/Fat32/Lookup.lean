import Limine.Fat32.LongNames

/-!
# What a name is looked up as

Which entry of a directory a name is of, and which one `fat32_open_in` finds: the first that has the
name, unless it takes one before that for it.
-/

namespace Limine.Fat32
open Limine.Fs (strcmpEq strcasecmpEq strncmpEq)
open Limine.Menu (CString)

/-! ## The entry of a name -/

def entriesOf (directoryEntries : List UInt8) : List LfnEntry :=
  (List.range (directoryEntries.length / sizeofDirectoryEntry)).map (entryBytes directoryEntries)

def LfnEntry.shortName (entry : LfnEntry) : List UInt8 := (DirectoryEntry.ofBytes entry).fileNameAndExt

def LfnEntry.isLong (entry : LfnEntry) : Bool := entry.attributes = lfnAttribute

/-- A short entry that is in use. -/
structure LfnEntry.Live (entry : LfnEntry) : Prop where
  notDeleted : entry.sequenceNumber ≠ 0xe5
  notLabel : entry.attributes &&& attributeVollabel = 0
  notLong : entry.isLong = false

section
variable (caseInsensitiveFopen : Bool) (name : CString)

/-- The name in the 8.3 form is the one of the entry. -/
def ShortNamed (entry : LfnEntry) : Prop :=
  ∃ fn, filenameTo83 name = some fn ∧ strncmpEq entry.shortName fn (8 + 3) = true

def Spells (set : List LfnEntry) : Prop :=
  (if caseInsensitiveFopen then strcasecmpEq (spelled set) name else strcmpEq (spelled set) name) = true

/-- The entries in front end in a whole set that was made for the entry and spells the name. -/
def LongNamed (before : List LfnEntry) (entry : LfnEntry) : Prop :=
  ∃ set, EndsIn before (lfnChecksum entry.shortName) 0 set ∧ Spells caseInsensitiveFopen name set

variable (entries : List LfnEntry)

/-- No entry marks the end of the directory up to this one. -/
def BeforeEnd (i : Nat) : Prop := ∀ j, j ≤ i → ∀ entry, entries[j]? = some entry → entry.sequenceNumber ≠ 0

/-- Entry number `i` is one of the name. -/
def Named (i : Nat) : Prop :=
  ∃ entry, entries[i]? = some entry ∧ BeforeEnd entries i ∧ entry.Live ∧
    (ShortNamed name entry ∨ LongNamed caseInsensitiveFopen name (entries.take i) entry)

/-- What a lookup is to give. -/
def Finds (file : Option DirectoryEntry) : Prop :=
  (∃ i entry, entries[i]? = some entry ∧ Named caseInsensitiveFopen name entries i ∧
      (∀ j, j < i → ¬Named caseInsensitiveFopen name entries j) ∧ file = some (.ofBytes entry)) ∨
    (∀ i, ¬Named caseInsensitiveFopen name entries i) ∧ file = none

/-! ## What is taken for it -/

/-- A set that spells the name ends directly in front of entry number `i`, with other entries between its
pieces or none. -/
def LooselyNamed (i : Nat) (entry : LfnEntry) : Prop :=
  (∃ last, (entries.take i).getLast? = some last ∧ last.isLong = true) ∧
    LongNamed caseInsensitiveFopen name ((entries.take i).filter LfnEntry.isLong) entry

/-- An entry that is not of the name and is taken for it: a deleted one whose short name is left, a volume
label behind a long name, or a file behind the pieces of a set that others interrupt. -/
inductive Misread (i : Nat) (entry : LfnEntry) : Prop
  | deleted : entry.sequenceNumber = 0xe5 → entry.attributes &&& attributeVollabel = 0 →
      ShortNamed name entry → Misread i entry
  | label : entry.sequenceNumber ≠ 0xe5 → entry.attributes &&& attributeVollabel ≠ 0 → entry.isLong = false →
      LooselyNamed caseInsensitiveFopen name entries i entry → Misread i entry
  | interrupted : entry.Live → ¬ShortNamed name entry →
      ¬LongNamed caseInsensitiveFopen name (entries.take i) entry →
      LooselyNamed caseInsensitiveFopen name entries i entry → Misread i entry

/-- Entry number `i` is one that is misread. -/
def Mistaken (i : Nat) : Prop :=
  ∃ entry, entries[i]? = some entry ∧ BeforeEnd entries i ∧ Misread caseInsensitiveFopen name entries i entry

/-! ## What is found -/

/-- What the loop returns at once behind a long name. -/
def TakenLong (i : Nat) (entry : LfnEntry) : Prop :=
  entry.sequenceNumber ≠ 0xe5 ∧ entry.isLong = false ∧ LooselyNamed caseInsensitiveFopen name entries i entry

/-- What the loop returns for its short name. -/
def TakenShort (entry : LfnEntry) : Prop :=
  entry.attributes &&& attributeVollabel = 0 ∧ ShortNamed name entry

def Taken (i : Nat) : Prop :=
  ∃ entry, entries[i]? = some entry ∧ BeforeEnd entries i ∧
    (TakenShort name entry ∨ TakenLong caseInsensitiveFopen name entries i entry)

end

section
variable {caseInsensitiveFopen : Bool} {name : CString} {entries : List LfnEntry}

theorem isLong_of_notLabel {entry : LfnEntry} (h : entry.attributes &&& attributeVollabel = 0) :
    entry.isLong = false := by
  unfold LfnEntry.isLong
  rw [decide_eq_false_iff_not]
  intro hlong
  rw [hlong] at h
  exact absurd h (by decide)

/-- Nothing between the pieces is nothing in their way. -/
theorem LongNamed.loosely {i : Nat} {entry : LfnEntry}
    (h : LongNamed caseInsensitiveFopen name (entries.take i) entry) :
    LooselyNamed caseInsensitiveFopen name entries i entry := by
  obtain ⟨set, ⟨⟨front, hsplit⟩, hset⟩, hspells⟩ := h
  have hlong : ∀ lfn ∈ set, lfn.isLong = true := fun lfn hlfn => decide_eq_true (hset.all_long lfn hlfn)
  unfold LooselyNamed
  rw [hsplit]
  refine ⟨⟨set.getLast hset.ne_nil, ?_, ?_⟩, set, ⟨⟨front.filter LfnEntry.isLong, ?_⟩, hset⟩, hspells⟩
  · rw [List.getLast?_append_of_ne_nil _ hset.ne_nil, List.getLast?_eq_some_getLast hset.ne_nil]
  · exact hlong _ (List.getLast_mem hset.ne_nil)
  · rw [List.filter_append, List.filter_eq_self.mpr hlong]

/-- **What is taken for the name is of the name, or misread.** -/
theorem taken_iff (i : Nat) : Taken caseInsensitiveFopen name entries i ↔
    Named caseInsensitiveFopen name entries i ∨ Mistaken caseInsensitiveFopen name entries i := by
  constructor
  · rintro ⟨entry, hentry, hend, ⟨hlabel, hshort⟩ | ⟨hdeleted, hlong, hloose⟩⟩
    · by_cases hdeleted : entry.sequenceNumber = 0xe5
      · exact Or.inr ⟨entry, hentry, hend, .deleted hdeleted hlabel hshort⟩
      · exact Or.inl ⟨entry, hentry, hend, ⟨hdeleted, hlabel, isLong_of_notLabel hlabel⟩, Or.inl hshort⟩
    · by_cases hlabel : entry.attributes &&& attributeVollabel = 0
      · have hlive : entry.Live := ⟨hdeleted, hlabel, hlong⟩
        by_cases hshort : ShortNamed name entry
        · exact Or.inl ⟨entry, hentry, hend, hlive, Or.inl hshort⟩
        by_cases hdirect : LongNamed caseInsensitiveFopen name (entries.take i) entry
        · exact Or.inl ⟨entry, hentry, hend, hlive, Or.inr hdirect⟩
        · exact Or.inr ⟨entry, hentry, hend, .interrupted hlive hshort hdirect hloose⟩
      · exact Or.inr ⟨entry, hentry, hend, .label hdeleted hlabel hlong hloose⟩
  · rintro (⟨entry, hentry, hend, hlive, hshort | hlong⟩ | ⟨entry, hentry, hend, hmisread⟩)
    · exact ⟨entry, hentry, hend, Or.inl ⟨hlive.notLabel, hshort⟩⟩
    · exact ⟨entry, hentry, hend, Or.inr ⟨hlive.notDeleted, hlive.notLong, hlong.loosely⟩⟩
    · refine ⟨entry, hentry, hend, ?_⟩
      cases hmisread with
      | deleted _ hlabel hshort => exact Or.inl ⟨hlabel, hshort⟩
      | label hdeleted _ hlong hloose => exact Or.inr ⟨hdeleted, hlong, hloose⟩
      | interrupted hlive _ _ hloose => exact Or.inr ⟨hlive.notDeleted, hlive.notLong, hloose⟩

/-- The first entry that is taken. -/
def FirstTaken (caseInsensitiveFopen : Bool) (name : CString) (entries : List LfnEntry)
    (file : Option DirectoryEntry) : Prop :=
  (∃ i entry, entries[i]? = some entry ∧ Taken caseInsensitiveFopen name entries i ∧
      (∀ j, j < i → ¬Taken caseInsensitiveFopen name entries j) ∧ file = some (.ofBytes entry)) ∨
    (∀ i, ¬Taken caseInsensitiveFopen name entries i) ∧ file = none

theorem take_concat {i : Nat} {entry : LfnEntry} (h : entries[i]? = some entry) :
    entries.take (i + 1) = entries.take i ++ [entry] := by
  rw [List.take_add_one, h, Option.toList_some]

/-- Behind an entry that is not part of a long name nothing is taken for one. -/
theorem not_takenLong_of_short {i : Nat} {entry next : LfnEntry} (h : entries[i]? = some entry)
    (hshort : entry.isLong = false) : ¬TakenLong caseInsensitiveFopen name entries (i + 1) next := by
  rintro ⟨-, -, ⟨last, hlast, hlong⟩, -⟩
  rw [take_concat h, List.getLast?_concat, Option.some.injEq] at hlast
  rw [← hlast, hshort] at hlong
  cases hlong

theorem filter_concat {i : Nat} {entry : LfnEntry} (h : entries[i]? = some entry) (hlong : entry.isLong = true) :
    (entries.take (i + 1)).filter LfnEntry.isLong = (entries.take i).filter LfnEntry.isLong ++ [entry] := by
  rw [take_concat h, List.filter_append, List.filter_cons_of_pos hlong, List.filter_nil]

theorem filter_concat_short {i : Nat} {entry : LfnEntry} (h : entries[i]? = some entry)
    (hshort : entry.isLong = false) :
    (entries.take (i + 1)).filter LfnEntry.isLong = (entries.take i).filter LfnEntry.isLong := by
  rw [take_concat h, List.filter_append, List.filter_cons_of_neg (by simp [hshort]), List.filter_nil,
    List.append_nil]

theorem not_takenShort_of_long {entry : LfnEntry} (h : entry.isLong = true) : ¬TakenShort name entry := by
  rintro ⟨hlabel, -⟩
  rw [isLong_of_notLabel hlabel] at h
  cases h

theorem shortName_first (entry : LfnEntry) : entry.shortName.getD 0 0 = entry.sequenceNumber := by
  unfold LfnEntry.shortName DirectoryEntry.ofBytes LfnEntry.sequenceNumber
  cases entry with
  | nil => rfl
  | cons a entry => rfl

/-- Whether the entry behind a whole set is one to return, given that the set spells the name. -/
theorem sfnMatches_iff {i : Nat} {entry next : LfnEntry} {lfn : Lfn} {checksum : UInt8} {set : List LfnEntry}
    (h : entries[i]? = some entry) (hlong : entry.isLong = true)
    (hends : EndsIn ((entries.take (i + 1)).filter LfnEntry.isLong) checksum 0 set)
    (hspells : Spells caseInsensitiveFopen name set) (hchecksum : lfn.checksum = checksum) :
    sfnMatches (.ofBytes next) lfn = true ↔
      next.sequenceNumber ≠ 0 ∧ TakenLong caseInsensitiveFopen name entries (i + 1) next := by
  have hfirst := shortName_first next
  unfold LfnEntry.shortName at hfirst
  unfold sfnMatches TakenLong LooselyNamed LongNamed
  rw [hfirst]
  have hlast : ∃ last, (entries.take (i + 1)).getLast? = some last ∧ last.isLong = true :=
    ⟨entry, by rw [take_concat h, List.getLast?_concat], hlong⟩
  have hset : (∃ set', EndsIn ((entries.take (i + 1)).filter LfnEntry.isLong) (lfnChecksum next.shortName) 0 set' ∧
      Spells caseInsensitiveFopen name set') ↔ lfnChecksum next.shortName = lfn.checksum := by
    rw [hchecksum]
    constructor
    · rintro ⟨set', hends', -⟩
      exact (hends'.unique hends).1
    · intro heq
      rw [heq]
      exact ⟨set, hends, hspells⟩
  rw [hset]
  simp only [hlast, true_and, Bool.not_eq_true', Bool.or_eq_false_iff, decide_eq_false_iff_not, ne_eq,
    decide_not, Bool.not_eq_false', decide_eq_true_eq]
  unfold LfnEntry.isLong LfnEntry.shortName LfnEntry.attributes
  simp only [decide_eq_false_iff_not, and_assoc]

theorem entriesOf_getElem? {directoryEntries : List UInt8} {i : Nat}
    (h : i < directoryEntries.length / sizeofDirectoryEntry) :
    (entriesOf directoryEntries)[i]? = some (entryBytes directoryEntries i) := by
  unfold entriesOf
  rw [List.getElem?_map, List.getElem?_range h, Option.map_some]

theorem length_entriesOf (directoryEntries : List UInt8) :
    (entriesOf directoryEntries).length = directoryEntries.length / sizeofDirectoryEntry := by
  rw [entriesOf, List.length_map, List.length_range]

theorem BeforeEnd.mono {i j : Nat} (h : BeforeEnd entries i) (hle : j ≤ i) : BeforeEnd entries j :=
  fun k hk => h k (hk.trans hle)

theorem BeforeEnd.succ {i : Nat} {entry : LfnEntry} (h : ∀ j, j < i → BeforeEnd entries j)
    (hentry : entries[i]? = some entry) (hne : entry.sequenceNumber ≠ 0) : BeforeEnd entries i := by
  intro j hj e he
  rcases Nat.lt_or_eq_of_le hj with hlt | rfl
  · exact h j hlt j (Nat.le_refl j) e he
  · rw [hentry, Option.some.injEq] at he
    rw [← he]
    exact hne

/-- What is known at entry number `i`: nothing in front was taken, nor is this one for a long name. -/
structure Passed (caseInsensitiveFopen : Bool) (name : CString) (entries : List LfnEntry) (i : Nat) (lfn : Lfn) :
    Prop where
  tracks : Tracks ((entries.take i).filter LfnEntry.isLong) lfn
  going : ∀ j, j < i → BeforeEnd entries j
  notTaken : ∀ j, j < i → ¬Taken caseInsensitiveFopen name entries j
  notLong : ∀ entry, entries[i]? = some entry → entry.sequenceNumber ≠ 0 →
    ¬TakenLong caseInsensitiveFopen name entries i entry

theorem Passed.not_taken {i : Nat} {entry : LfnEntry} {lfn : Lfn}
    (h : Passed caseInsensitiveFopen name entries i lfn) (hentry : entries[i]? = some entry)
    (hne : entry.sequenceNumber ≠ 0) (hshort : ¬TakenShort name entry) :
    ∀ j, j < i + 1 → ¬Taken caseInsensitiveFopen name entries j := by
  intro j hj
  rcases Nat.lt_or_eq_of_le (Nat.le_of_lt_succ hj) with hlt | rfl
  · exact h.notTaken j hlt
  · rintro ⟨e, he, -, htaken⟩
    rw [hentry, Option.some.injEq] at he
    subst he
    exact htaken.elim hshort (h.notLong _ hentry hne)

/-- One entry further on, where it was not taken and the next is not for a long name. -/
theorem Passed.step {i : Nat} {entry : LfnEntry} {lfn lfn' : Lfn}
    (h : Passed caseInsensitiveFopen name entries i lfn) (hentry : entries[i]? = some entry)
    (hne : entry.sequenceNumber ≠ 0) (hshort : ¬TakenShort name entry)
    (htracks : Tracks ((entries.take (i + 1)).filter LfnEntry.isLong) lfn')
    (hlong : ∀ next, entries[i + 1]? = some next → next.sequenceNumber ≠ 0 →
      ¬TakenLong caseInsensitiveFopen name entries (i + 1) next) :
    Passed caseInsensitiveFopen name entries (i + 1) lfn' := by
  refine ⟨htracks, ?_, h.not_taken hentry hne hshort, hlong⟩
  intro j hj
  exact (BeforeEnd.succ h.going hentry hne).mono (Nat.le_of_lt_succ hj)

theorem Passed.short {i : Nat} {entry : LfnEntry} {lfn : Lfn}
    (h : Passed caseInsensitiveFopen name entries i lfn) (hentry : entries[i]? = some entry)
    (hne : entry.sequenceNumber ≠ 0) (hshort : entry.isLong = false) (hnot : ¬TakenShort name entry) :
    Passed caseInsensitiveFopen name entries (i + 1) lfn := by
  refine h.step hentry hne hnot ?_ fun next _ _ => not_takenLong_of_short hentry hshort
  rw [filter_concat_short hentry hshort]
  exact h.tracks

/-! What an entry of a long name does. -/

section
variable {i : Nat} {entry : LfnEntry} {lfn : Lfn} (h : Passed caseInsensitiveFopen name entries i lfn)
  (hentry : entries[i]? = some entry) (hne : entry.sequenceNumber ≠ 0) (hlong : entry.isLong = true)
include h hentry hne hlong

theorem Passed.deleted (hdeleted : entry.sequenceNumber = 0xe5) :
    Passed caseInsensitiveFopen name entries (i + 1) lfn.invalidate := by
  have hfilter := filter_concat hentry hlong
  refine h.step hentry hne (not_takenShort_of_long hlong) (by rw [hfilter]; exact Tracks.deleted lfn hdeleted) ?_
  rintro next - - ⟨-, -, -, set, hends, -⟩
  rw [hfilter] at hends
  exact (endsIn_concat.mp hends).1.live hdeleted

/-- Where no whole set that spells the name ends, the next entry is not taken for a long name. -/
theorem Passed.collected {lfn' : Lfn}
    (htracks : Tracks ((entries.take (i + 1)).filter LfnEntry.isLong) lfn')
    (hnot : ∀ checksum set, EndsIn ((entries.take (i + 1)).filter LfnEntry.isLong) checksum 0 set →
      ¬Spells caseInsensitiveFopen name set) :
    Passed caseInsensitiveFopen name entries (i + 1) lfn' := by
  refine h.step hentry hne (not_takenShort_of_long hlong) htracks ?_
  rintro next - - ⟨-, -, -, set, hends, hspells⟩
  exact hnot _ set hends hspells

variable (hlive : entry.sequenceNumber ≠ 0xe5)
include hlive

omit hne in
theorem Passed.tracks_take : Tracks ((entries.take (i + 1)).filter LfnEntry.isLong) (lfn.take entry).1 := by
  rw [filter_concat hentry hlong]
  exact h.tracks.take (of_decide_eq_true hlong) hlive

theorem Passed.unfinished (hpart : (lfn.take entry).2 = false) :
    Passed caseInsensitiveFopen name entries (i + 1) (lfn.take entry).1 := by
  refine h.collected hentry hne hlong (h.tracks_take hentry hlong hlive) ?_
  intro checksum set hends
  rw [filter_concat hentry hlong] at hends
  rcases take_spec h.tracks (of_decide_eq_true hlong) hlive with ⟨checksum', n, set', hends', hcollects⟩ |
    ⟨-, -, hnone⟩
  · have hwhole := hcollects.whole.mpr (hends'.unique hends).2.1
    rw [hpart] at hwhole
    cases hwhole
  · exact absurd hends (hnone _ _ _)

omit hne in
theorem Passed.whole (hwhole : (lfn.take entry).2 = true) : ∃ checksum set,
    EndsIn ((entries.take (i + 1)).filter LfnEntry.isLong) checksum 0 set ∧
      Collects (lfn.take entry).1 (lfn.take entry).2 checksum 0 set := by
  rw [filter_concat hentry hlong]
  rcases take_spec h.tracks (of_decide_eq_true hlong) hlive with ⟨checksum, n, set, hends, hcollects⟩ | ⟨-, hpart, -⟩
  · obtain rfl := hcollects.whole.mp hwhole
    exact ⟨checksum, set, hends, hcollects⟩
  · rw [hwhole] at hpart
    cases hpart

end

theorem compare_iff {lfn : Lfn} {whole : Bool} {checksum : UInt8} {set : List LfnEntry}
    (h : Collects lfn whole checksum 0 set) :
    (if caseInsensitiveFopen then strcasecmpEq lfn.current name else strcmpEq lfn.current name) = true ↔
      Spells caseInsensitiveFopen name set := by
  have hself : Fs.cString (spelled set) = spelled set := Fs.cString_eq_self Fs.cString_ne_zero
  unfold Spells strcasecmpEq strcmpEq
  rw [h.done rfl, hself]

/-- **The loop finds the first entry that is taken.** -/
theorem findIn_spec (caseInsensitiveFopen : Bool) (directoryEntries : List UInt8) (name : CString) :
    ∀ (left i : Nat) (lfn : Lfn), left + i = directoryEntries.length / sizeofDirectoryEntry →
    Passed caseInsensitiveFopen name (entriesOf directoryEntries) i lfn →
    FirstTaken caseInsensitiveFopen name (entriesOf directoryEntries)
      (findIn caseInsensitiveFopen directoryEntries (directoryEntries.length / sizeofDirectoryEntry) name left i lfn) := by
  intro left
  induction left with
  | zero =>
    intro i lfn htotal h
    refine Or.inr ⟨?_, rfl⟩
    intro j htaken
    by_cases hj : j < i
    · exact h.notTaken j hj htaken
    · obtain ⟨entry, hentry, -⟩ := htaken
      have hlt := (List.getElem?_eq_some_iff.mp hentry).1
      rw [length_entriesOf] at hlt
      omega
  | succ left ih =>
    intro i lfn htotal h
    obtain ⟨entry, hbytes⟩ : ∃ entry : LfnEntry, entryBytes directoryEntries i = entry := ⟨_, rfl⟩
    have hentry : (entriesOf directoryEntries)[i]? = some entry := by
      rw [entriesOf_getElem? (by omega), hbytes]
    have hnext : ∀ lfn', Passed caseInsensitiveFopen name (entriesOf directoryEntries) (i + 1) lfn' → _ :=
      fun lfn' => ih (i + 1) lfn' (by omega)
    have hfirst := shortName_first entry
    unfold LfnEntry.shortName at hfirst
    rw [findIn.eq_def]
    dsimp only
    rw [hbytes, hfirst]
    by_cases hend : entry.sequenceNumber = 0
    · rw [if_pos hend]
      refine Or.inr ⟨?_, rfl⟩
      intro j htaken
      by_cases hj : j < i
      · exact h.notTaken j hj htaken
      · obtain ⟨-, -, hgoing, -⟩ := htaken
        exact hgoing i (by omega) entry hentry hend
    rw [if_neg hend]
    have hbefore := BeforeEnd.succ h.going hentry hend
    by_cases hattr : (DirectoryEntry.ofBytes entry).attributes = lfnAttribute
    · have hlong : entry.isLong = true := decide_eq_true hattr
      rw [if_pos hattr]
      by_cases hdeleted : entry.sequenceNumber = 0xe5
      · rw [if_pos hdeleted]
        exact hnext _ (h.deleted hentry hend hlong hdeleted)
      rw [if_neg hdeleted]
      have htracks := h.tracks_take hentry hlong hdeleted
      have hpart := h.unfinished hentry hend hlong hdeleted
      have hwhole := h.whole hentry hlong hdeleted
      obtain ⟨⟨lfn', whole⟩, htake⟩ : ∃ taken, lfn.take entry = taken := ⟨_, rfl⟩
      rw [htake] at htracks hpart hwhole ⊢
      dsimp only at htracks hpart hwhole ⊢
      cases whole with
      | false => exact hnext _ (hpart rfl)
      | true =>
        obtain ⟨checksum, set, hends, hcollects⟩ := hwhole rfl
        have hcompare := @compare_iff caseInsensitiveFopen name _ _ _ _ hcollects
        rw [if_neg (by decide : ¬(!true) = true)]
        by_cases hspells : Spells caseInsensitiveFopen name set
        · rw [if_pos (hcompare.mpr hspells)]
          have hgo : (∀ next, (entriesOf directoryEntries)[i + 1]? = some next → next.sequenceNumber ≠ 0 →
              ¬TakenLong caseInsensitiveFopen name (entriesOf directoryEntries) (i + 1) next) → _ :=
            fun hl => hnext _ (h.step hentry hend (not_takenShort_of_long hlong)
              (htracks.invalidate hcollects.expected) hl)
          by_cases hmore : i + 1 ≥ directoryEntries.length / sizeofDirectoryEntry
          · rw [if_pos hmore]
            apply hgo
            intro next hnext' _
            have hlt := (List.getElem?_eq_some_iff.mp hnext').1
            rw [length_entriesOf] at hlt
            omega
          rw [if_neg hmore]
          have hnextentry := entriesOf_getElem? (Nat.lt_of_not_le hmore)
          have hiff := @sfnMatches_iff _ name _ _ _ (entryBytes directoryEntries (i + 1)) _ _ _ hentry hlong
            hends hspells hcollects.checksum
          by_cases hmatches : sfnMatches (.ofBytes (entryBytes directoryEntries (i + 1))) lfn' = true
          · rw [if_pos hmatches]
            obtain ⟨hne, htaken⟩ := hiff.mp hmatches
            have hgoing : ∀ j, j < i + 1 → BeforeEnd (entriesOf directoryEntries) j :=
              fun j hj => hbefore.mono (Nat.le_of_lt_succ hj)
            exact Or.inl ⟨i + 1, _, hnextentry,
              ⟨_, hnextentry, BeforeEnd.succ hgoing hnextentry hne, Or.inr htaken⟩,
              h.not_taken hentry hend (not_takenShort_of_long hlong), rfl⟩
          · rw [if_neg hmatches]
            apply hgo
            intro next hnext' hne htaken
            rw [hnextentry, Option.some.injEq] at hnext'
            subst hnext'
            exact hmatches (hiff.mpr ⟨hne, htaken⟩)
        · rw [if_neg (fun hc => hspells (hcompare.mp hc))]
          refine hnext _ (h.collected hentry hend hlong htracks ?_)
          intro checksum' set' hends'
          rw [(hends'.unique hends).2.2]
          exact hspells
    · have hshort : entry.isLong = false := decide_eq_false hattr
      rw [if_neg hattr]
      have hgo : ¬TakenShort name entry → _ := fun hnot => hnext lfn (h.short hentry hend hshort hnot)
      by_cases hlabel : (DirectoryEntry.ofBytes entry).attributes &&& attributeVollabel ≠ 0
      · rw [if_pos hlabel]
        exact hgo fun hnot => hlabel hnot.1
      rw [if_neg hlabel]
      cases hfn : filenameTo83 name with
      | none =>
        apply hgo
        rintro ⟨-, fn, hsome, -⟩
        rw [hfn] at hsome
        cases hsome
      | some fn =>
        dsimp only
        by_cases hsame : strncmpEq (DirectoryEntry.ofBytes entry).fileNameAndExt fn (8 + 3) = true
        · rw [if_pos hsame]
          exact Or.inl ⟨i, entry, hentry, ⟨entry, hentry, hbefore, Or.inl ⟨not_not.mp hlabel, fn, hfn, hsame⟩⟩,
            h.notTaken, rfl⟩
        · rw [if_neg hsame]
          apply hgo
          rintro ⟨-, fn', hsome, hsame'⟩
          rw [hfn, Option.some.injEq] at hsome
          rw [← hsome] at hsame'
          exact hsame hsame'

end

end Limine.Fat32
