import Limine.Fat32.Open
import Limine.Lib.Lines

/-!
# Long names

The entries of a long name come last piece first, numbered downwards, each with the checksum of the
short name they belong to.  What the lookup has collected is told from the long name entries it has
passed: the set they end in, if they end in one.
-/

namespace Limine.Fat32
open Limine.Fs (cString)
open Limine.Lib

/-! ## Sets -/

def lowBytes (source : List UInt8) (size : Nat) : List UInt8 :=
  (List.range size).map fun i => source.getD (i * 2) 0

namespace LfnEntry
variable (lfn : LfnEntry)

def number : Nat := (lfn.sequenceNumber &&& 0x1f).toNat

/-- The entry a long name starts with, which has its last piece. -/
def startsSet : Bool := lfn.sequenceNumber &&& 0x40 ≠ 0

def attributes : UInt8 := (DirectoryEntry.ofBytes lfn).attributes

def characters : List UInt8 := lowBytes lfn.name1 5 ++ lowBytes lfn.name2 6 ++ lowBytes lfn.name3 2

end LfnEntry

/-- A live piece of a long name. -/
structure Piece (checksum : UInt8) (n : Nat) (lfn : LfnEntry) : Prop where
  attributes : lfn.attributes = lfnAttribute
  live : lfn.sequenceNumber ≠ 0xe5
  number : lfn.number = n
  checksum : lfn.dosChecksum = checksum

/-- The pieces of a long name down to the one behind number `n`. -/
inductive LfnSet (checksum : UInt8) : Nat → List LfnEntry → Prop
  | first {lfn : LfnEntry} {n : Nat} : Piece checksum (n + 1) lfn → lfn.startsSet = true →
      n < fat32LfnMaxEntries → LfnSet checksum n [lfn]
  | next {lfn : LfnEntry} {n : Nat} {set : List LfnEntry} : LfnSet checksum (n + 1) set →
      Piece checksum (n + 1) lfn → lfn.startsSet = false → LfnSet checksum n (set ++ [lfn])

/-- Entries whose last ones are such pieces. -/
def EndsIn (before : List LfnEntry) (checksum : UInt8) (n : Nat) (set : List LfnEntry) : Prop :=
  (∃ front, before = front ++ set) ∧ LfnSet checksum n set

/-- The characters in the order of the name. -/
def textOf (set : List LfnEntry) : List UInt8 := set.reverse.flatMap LfnEntry.characters

/-- What a whole set says: up to a NUL, or else without the spaces at its end. -/
def spelled (set : List LfnEntry) : List UInt8 := cString ((textOf set).rdropWhile fun c => c = 32)

theorem LfnSet.room {checksum : UInt8} {n : Nat} {set : List LfnEntry} (h : LfnSet checksum n set) :
    n + set.length ≤ fat32LfnMaxEntries := by
  induction h with
  | first hpiece hstart hn =>
    rw [List.length_singleton]
    exact hn
  | next hset hpiece hstart ih =>
    rw [List.length_append, List.length_singleton]
    omega

/-- Entries that end in a set behind a new entry start one with it or go on with the one they ended in. -/
theorem endsIn_concat {before : List LfnEntry} {lfn : LfnEntry} {checksum : UInt8} {n : Nat}
    {set : List LfnEntry} : EndsIn (before ++ [lfn]) checksum n set ↔
      Piece checksum (n + 1) lfn ∧ (lfn.startsSet = true ∧ n < fat32LfnMaxEntries ∧ set = [lfn] ∨
        lfn.startsSet = false ∧ ∃ set', EndsIn before checksum (n + 1) set' ∧ set = set' ++ [lfn]) := by
  constructor
  · rintro ⟨⟨front, hsplit⟩, hset⟩
    cases hset with
    | @first last _ hpiece hstart hn =>
      obtain ⟨-, hlast⟩ := List.append_inj' hsplit rfl
      obtain rfl : lfn = last := List.singleton_inj.mp hlast
      exact ⟨hpiece, Or.inl ⟨hstart, hn, rfl⟩⟩
    | @next last _ set' hset' hpiece hstart =>
      rw [← List.append_assoc] at hsplit
      obtain ⟨hfront, hlast⟩ := List.append_inj' hsplit rfl
      obtain rfl : lfn = last := List.singleton_inj.mp hlast
      exact ⟨hpiece, Or.inr ⟨hstart, set', ⟨⟨front, hfront⟩, hset'⟩, rfl⟩⟩
  · rintro ⟨hpiece, ⟨hstart, hn, rfl⟩ | ⟨hstart, set', ⟨⟨front, rfl⟩, hset'⟩, rfl⟩⟩
    · exact ⟨⟨before, rfl⟩, .first hpiece hstart hn⟩
    · exact ⟨⟨front, List.append_assoc ..⟩, .next hset' hpiece hstart⟩

theorem not_endsIn_nil {checksum : UInt8} {n : Nat} {set : List LfnEntry} : ¬EndsIn [] checksum n set := by
  rintro ⟨⟨front, hsplit⟩, hset⟩
  obtain ⟨-, rfl⟩ := List.append_eq_nil_iff.mp hsplit.symm
  generalize hnil : ([] : List LfnEntry) = set at hset
  cases hset with
  | first => cases hnil
  | next => simp at hnil

/-- Entries end in one set. -/
theorem EndsIn.unique {before : List LfnEntry} : ∀ {checksum checksum' : UInt8} {n n' : Nat}
    {set set' : List LfnEntry}, EndsIn before checksum n set → EndsIn before checksum' n' set' →
    checksum = checksum' ∧ n = n' ∧ set = set' := by
  induction before using List.reverseRecOn with
  | nil =>
    intro checksum checksum' n n' set set' h
    exact absurd h not_endsIn_nil
  | append_singleton before lfn ih =>
    intro checksum checksum' n n' set set' h h'
    obtain ⟨hpiece, h⟩ := endsIn_concat.mp h
    obtain ⟨hpiece', h'⟩ := endsIn_concat.mp h'
    have hn : n = n' := Nat.succ.inj (hpiece.number.symm.trans hpiece'.number)
    refine ⟨hpiece.checksum.symm.trans hpiece'.checksum, hn, ?_⟩
    rcases h with ⟨hstart, -, rfl⟩ | ⟨hstart, s, hs, rfl⟩ <;>
      rcases h' with ⟨hstart', -, rfl⟩ | ⟨hstart', s', hs', rfl⟩
    · rfl
    · rw [hstart] at hstart'
      cases hstart'
    · rw [hstart] at hstart'
      cases hstart'
    · rw [(ih hs hs').2.2]

/-! ## The buffer -/

theorem length_lowBytes (source : List UInt8) (size : Nat) : (lowBytes source size).length = size := by
  rw [lowBytes, List.length_map, List.length_range]

theorem length_characters (lfn : LfnEntry) : lfn.characters.length = 13 := by
  rw [LfnEntry.characters, List.length_append, List.length_append, length_lowBytes, length_lowBytes,
    length_lowBytes]

theorem length_textOf (set : List LfnEntry) : (textOf set).length = 13 * set.length := by
  unfold textOf
  rw [List.length_flatMap, List.map_congr_left fun lfn _ => length_characters lfn, List.map_const',
    List.sum_replicate_nat, List.length_reverse, Nat.mul_comm]

theorem textOf_concat (set : List LfnEntry) (lfn : LfnEntry) :
    textOf (set ++ [lfn]) = lfn.characters ++ textOf set := by
  unfold textOf
  rw [List.reverse_concat, List.flatMap_cons]

/-- `dest` with `bytes` at `offset`. -/
def overwritten (dest : List UInt8) (offset : Nat) (bytes : List UInt8) : List UInt8 :=
  dest.take offset ++ bytes ++ dest.drop (offset + bytes.length)

theorem lfncpy_eq (dest source : List UInt8) (offset : Nat) : ∀ size, offset + size ≤ dest.length →
    lfncpy dest offset source size = overwritten dest offset (lowBytes source size) := by
  intro size
  unfold lfncpy overwritten
  rw [length_lowBytes]
  unfold lowBytes
  induction size with
  | zero => simp
  | succ size ih =>
    intro hroom
    rw [List.range_succ, List.foldl_append, ih (by omega), List.map_append, List.foldl_cons, List.foldl_nil,
      List.map_singleton]
    have hlen : (dest.take offset ++ (List.range size).map fun i => source.getD (i * 2) 0).length =
        offset + size := by
      rw [List.length_append, List.length_take, List.length_map, List.length_range, Nat.min_eq_left (by omega)]
    rw [List.set_append_right _ _ (by omega), hlen, Nat.sub_self, List.drop_eq_getElem_cons (by omega),
      List.set_cons_zero, ← List.append_assoc, List.append_assoc _ [_], List.singleton_append, Nat.add_assoc]

theorem length_overwritten {dest bytes : List UInt8} {offset : Nat} (h : offset + bytes.length ≤ dest.length) :
    (overwritten dest offset bytes).length = dest.length := by
  unfold overwritten
  rw [List.length_append, List.length_append, List.length_take, List.length_drop, Nat.min_eq_left (by omega)]
  omega

theorem overwritten_append (dest : List UInt8) {offset next : Nat} (a b : List UInt8)
    (h : offset + (a.length + b.length) ≤ dest.length) (hnext : next = offset + a.length) :
    overwritten (overwritten dest offset a) next b = overwritten dest offset (a ++ b) := by
  have hlen : (dest.take offset ++ a).length = next := by
    rw [List.length_append, List.length_take, Nat.min_eq_left (by omega), hnext]
  have hdrop : (dest.take offset ++ a ++ dest.drop (offset + a.length)).drop (next + b.length) =
      dest.drop (offset + (a ++ b).length) := by
    rw [List.drop_append, hlen, List.drop_eq_nil_of_le (by omega), List.nil_append, List.drop_drop,
      List.length_append]
    congr 1
    omega
  unfold overwritten
  rw [hdrop, List.take_left' hlen, List.append_assoc _ a b]

theorem overwritten_middle (front middle behind bytes : List UInt8) (h : middle.length = bytes.length) :
    overwritten (front ++ (middle ++ behind)) front.length bytes = front ++ (bytes ++ behind) := by
  unfold overwritten
  rw [List.take_left, ← h, ← List.drop_drop, List.drop_left, List.drop_left, List.append_assoc]

theorem write_characters (dest : List UInt8) (lfn : LfnEntry) {offset : Nat} (h : offset + 13 ≤ dest.length) :
    lfncpy (lfncpy (lfncpy dest offset lfn.name1 5) (offset + 5) lfn.name2 6) (offset + 11) lfn.name3 2 =
      overwritten dest offset lfn.characters := by
  have h1 : (lowBytes lfn.name1 5).length = 5 := length_lowBytes ..
  have h2 : (lowBytes lfn.name2 6).length = 6 := length_lowBytes ..
  have h3 : (lowBytes lfn.name3 2).length = 2 := length_lowBytes ..
  rw [lfncpy_eq dest _ _ _ (by omega), lfncpy_eq (overwritten dest offset (lowBytes lfn.name1 5)) _ _ _
      (by rw [length_overwritten (by omega)]; omega),
    overwritten_append _ _ _ (by omega) (by omega),
    lfncpy_eq _ _ _ _ (by rw [length_overwritten (by rw [List.length_append]; omega)]; omega),
    overwritten_append _ _ _ (by rw [List.length_append]; omega) (by rw [List.length_append]; omega)]
  rfl

def spaces (n : Nat) : List UInt8 := List.replicate n 32

/-- The buffer with the pieces of a set down to the one behind number `n`. -/
def collected (n : Nat) (set : List LfnEntry) : List UInt8 :=
  spaces (13 * n) ++ (textOf set ++ spaces (fat32LfnMaxFilenameLength - 13 * (n + set.length)))

theorem spaces_add (a b : Nat) : spaces (a + b) = spaces a ++ spaces b := List.replicate_add ..

theorem length_spaces (n : Nat) : (spaces n).length = n := List.length_replicate

theorem length_collected {n : Nat} {set : List LfnEntry} (h : n + set.length ≤ fat32LfnMaxEntries) :
    (collected n set).length = fat32LfnMaxFilenameLength := by
  unfold fat32LfnMaxEntries at h
  unfold collected fat32LfnMaxFilenameLength fat32LfnMaxEntries
  rw [List.length_append, List.length_append, length_spaces, length_spaces, length_textOf]
  omega

theorem collected_next {n : Nat} {set : List LfnEntry} (lfn : LfnEntry) :
    overwritten (collected (n + 1) set) (13 * n) lfn.characters = collected n (set ++ [lfn]) := by
  have hlen : (spaces (13 * n)).length = 13 * n := length_spaces _
  have hmiddle := overwritten_middle (spaces (13 * n)) (spaces 13)
    (textOf set ++ spaces (fat32LfnMaxFilenameLength - 13 * (n + 1 + set.length))) lfn.characters
    (by rw [length_spaces, length_characters])
  rw [hlen] at hmiddle
  unfold collected
  rw [Nat.mul_add, spaces_add, List.append_assoc, hmiddle, textOf_concat, List.append_assoc, List.length_append,
    List.length_singleton]
  congr 4
  omega

theorem collected_first {n : Nat} (hn : n < fat32LfnMaxEntries) (lfn : LfnEntry) :
    overwritten (spaces fat32LfnMaxFilenameLength) (13 * n) lfn.characters = collected n [lfn] := by
  have hempty : spaces fat32LfnMaxFilenameLength = collected (n + 1) [] := by
    unfold collected textOf
    rw [List.reverse_nil, List.flatMap_nil, List.nil_append, ← spaces_add, List.length_nil, Nat.add_zero]
    congr 1
    unfold fat32LfnMaxEntries at hn
    unfold fat32LfnMaxFilenameLength fat32LfnMaxEntries
    omega
  rw [hempty, collected_next]
  rfl

theorem cString_set {l : List UInt8} : ∀ {q : Nat}, q < l.length → cString (l.set q 0) = cString (l.take q) := by
  unfold cString
  induction l with
  | nil =>
    intro q hq
    cases hq
  | cons a l ih =>
    intro q hq
    cases q with
    | zero =>
      rw [List.set_cons_zero, List.take_zero, List.takeWhile_cons_of_neg (by simp)]
      rfl
    | succ q =>
      rw [List.set_cons_succ, List.take_succ_cons, List.takeWhile_cons, List.takeWhile_cons,
        ih (Nat.lt_of_succ_lt_succ hq)]

theorem rdropWhile_spaces (text : List UInt8) : ∀ n : Nat,
    (text ++ spaces n).rdropWhile (fun c => decide (c = 32)) = text.rdropWhile fun c => decide (c = 32) := by
  intro n
  induction n with
  | zero =>
    unfold spaces
    rw [List.replicate_zero, List.append_nil]
  | succ n ih =>
    rw [spaces_add, ← List.append_assoc]
    exact (List.rdropWhile_concat_pos _ _ _ rfl).trans ih

/-- The trimmed buffer is the string that a whole set spells. -/
theorem cString_trimmed {lfn : Lfn} {set : List LfnEntry} (h : lfn.current = collected 0 set)
    (hroom : set.length ≤ fat32LfnMaxEntries) : cString lfn.trimmed = spelled set := by
  have hlen : lfn.current.length = fat32LfnMaxFilenameLength := by
    rw [h, length_collected (by omega)]
  have hfront : lfn.current.take (fat32LfnMaxFilenameLength - 1) =
      textOf set ++ spaces (fat32LfnMaxFilenameLength - 1 - 13 * set.length) := by
    have hsplit : lfn.current = (textOf set ++ spaces (fat32LfnMaxFilenameLength - 1 - 13 * set.length)) ++
        spaces 1 := by
      unfold fat32LfnMaxEntries at hroom
      rw [h, List.append_assoc, ← spaces_add]
      unfold collected fat32LfnMaxFilenameLength fat32LfnMaxEntries
      show textOf set ++ spaces _ = _
      congr 2
      omega
    rw [hsplit, List.take_left']
    unfold fat32LfnMaxEntries at hroom
    unfold fat32LfnMaxFilenameLength fat32LfnMaxEntries
    rw [List.length_append, length_textOf, length_spaces]
    omega
  have htrim : (lfn.current.take (fat32LfnMaxFilenameLength - 1)).rdropWhile (fun c => decide (c = 32)) =
      (textOf set).rdropWhile fun c => decide (c = 32) := by
    rw [hfront, rdropWhile_spaces]
  have hfrontpart := List.rdropWhile_prefix (fun c => decide (c = 32)) (lfn.current.take (fat32LfnMaxFilenameLength - 1))
  have hle := hfrontpart.length_le
  have hend : ((lfn.current.take (fat32LfnMaxFilenameLength - 1)).reverse.dropWhile (fun c => decide (c = 32))).length =
      ((lfn.current.take (fat32LfnMaxFilenameLength - 1)).rdropWhile fun c => decide (c = 32)).length := by
    rw [List.rdropWhile, List.length_reverse]
  rw [List.length_take, hlen] at hle
  unfold Lfn.trimmed spelled
  rw [hend, cString_set (by rw [hlen]; unfold fat32LfnMaxFilenameLength at hle ⊢; omega), ← htrim]
  congr 1
  have hwhole := hfrontpart.trans (List.take_prefix _ _)
  exact (List.prefix_iff_eq_take.mp hwhole).symm

/-! ## The state -/

/-- The state before the pieces of an entry are looked at. -/
def Lfn.started (lfn : Lfn) (entry : LfnEntry) : Lfn :=
  if entry.startsSet then ⟨spaces fat32LfnMaxFilenameLength, entry.number, entry.dosChecksum⟩ else lfn

/-- What is known of the state behind the long name entries `before`. -/
inductive Tracks (before : List LfnEntry) (lfn : Lfn) : Prop
  | inside (set : List LfnEntry) : EndsIn before lfn.checksum lfn.expected set → 0 < lfn.expected →
      lfn.current = collected lfn.expected set → Tracks before lfn
  | outside : lfn.expected = 0 → (∀ checksum n set, 0 < n → ¬EndsIn before checksum n set) → Tracks before lfn

/-- An entry that goes on where the state is. -/
structure GoesOn (lfn : Lfn) (entry : LfnEntry) (n : Nat) : Prop where
  number : entry.number = n + 1
  expected : (lfn.started entry).expected = n + 1
  checksum : (lfn.started entry).checksum = entry.dosChecksum
  room : n < fat32LfnMaxEntries

theorem take_eq (lfn : Lfn) (entry : LfnEntry) : lfn.take entry =
    let started := lfn.started entry
    if entry.number = 0 ∨ entry.number ≠ started.expected ∨ entry.dosChecksum ≠ started.checksum then
      (started.invalidate, false)
    else if (entry.number - 1) * 13 ≥ fat32LfnMaxEntries * 13 then
      (({ started with expected := started.expected - 1 } : Lfn).invalidate, false)
    else
      let current := lfncpy (lfncpy (lfncpy started.current ((entry.number - 1) * 13) entry.name1 5)
        ((entry.number - 1) * 13 + 5) entry.name2 6) ((entry.number - 1) * 13 + 11) entry.name3 2
      let lfn : Lfn := { current, expected := started.expected - 1, checksum := started.checksum }
      if entry.number ≠ 1 then (lfn, false) else ({ lfn with current := lfn.trimmed }, true) := by
  have hstarted : (if entry.sequenceNumber &&& 0x40 ≠ 0 then
      { current := List.replicate fat32LfnMaxFilenameLength 32,
        expected := (entry.sequenceNumber &&& 0x1f).toNat, checksum := entry.dosChecksum }
      else lfn) = lfn.started entry := by
    unfold Lfn.started LfnEntry.startsSet LfnEntry.number spaces
    by_cases h : entry.sequenceNumber &&& 0x40 ≠ 0
    · rw [if_pos h, if_pos (decide_eq_true h)]
    · rw [if_neg h, if_neg (by simpa using h)]
  unfold Lfn.take
  dsimp only
  rw [hstarted]
  rfl

theorem take_of_goesOn {lfn : Lfn} {entry : LfnEntry} {n : Nat} (h : GoesOn lfn entry n)
    (hlen : (lfn.started entry).current.length = fat32LfnMaxFilenameLength) :
    lfn.take entry =
      let lfn : Lfn := ⟨overwritten (lfn.started entry).current (13 * n) entry.characters, n, entry.dosChecksum⟩
      if n ≠ 0 then (lfn, false) else ({ lfn with current := lfn.trimmed }, true) := by
  obtain ⟨hnumber, hexpected, hchecksum, hroom⟩ := h
  rw [take_eq]
  dsimp only
  rw [hnumber, hexpected, hchecksum, if_neg (by simp), Nat.add_sub_cancel, Nat.mul_comm n 13,
    if_neg (by omega), write_characters _ _ (by
      unfold fat32LfnMaxFilenameLength at hlen
      omega)]
  by_cases hn : n = 0
  · subst hn
    rfl
  · rw [if_pos (by omega), if_pos hn]

theorem take_of_not_goesOn {lfn : Lfn} {entry : LfnEntry} (h : ∀ n, ¬GoesOn lfn entry n) :
    (lfn.take entry).1.expected = 0 ∧ (lfn.take entry).2 = false := by
  rw [take_eq]
  dsimp only
  by_cases hmatch : entry.number = 0 ∨ entry.number ≠ (lfn.started entry).expected ∨
      entry.dosChecksum ≠ (lfn.started entry).checksum
  · rw [if_pos hmatch]
    exact ⟨rfl, rfl⟩
  · rw [if_neg hmatch]
    by_cases hfar : (entry.number - 1) * 13 ≥ fat32LfnMaxEntries * 13
    · rw [if_pos hfar]
      exact ⟨rfl, rfl⟩
    · rw [not_or, not_or, not_not, not_not] at hmatch
      exact absurd ⟨by omega, by omega, hmatch.2.2.symm, by omega⟩ (h (entry.number - 1))

/-- What a set that the entries end in says of the state behind them. -/
structure Collects (lfn : Lfn) (whole : Bool) (checksum : UInt8) (n : Nat) (set : List LfnEntry) : Prop where
  expected : lfn.expected = n
  checksum : lfn.checksum = checksum
  whole : whole = true ↔ n = 0
  inside : 0 < n → lfn.current = collected n set
  done : n = 0 → cString lfn.current = spelled set

/-- **One entry further**: the state has the set that the entries end in now, or none. -/
theorem take_spec {before : List LfnEntry} {lfn : Lfn} {entry : LfnEntry} (h : Tracks before lfn)
    (hattr : entry.attributes = lfnAttribute) (hlive : entry.sequenceNumber ≠ 0xe5) :
    (∃ checksum n set, EndsIn (before ++ [entry]) checksum n set ∧
      Collects (lfn.take entry).1 (lfn.take entry).2 checksum n set) ∨
    ((lfn.take entry).1.expected = 0 ∧ (lfn.take entry).2 = false ∧
      ∀ checksum n set, ¬EndsIn (before ++ [entry]) checksum n set) := by
  by_cases hgoes : ∃ n, GoesOn lfn entry n
  · obtain ⟨n, hgoes⟩ := hgoes
    have hpiece : Piece entry.dosChecksum (n + 1) entry := ⟨hattr, hlive, hgoes.number, rfl⟩
    obtain ⟨set, hends, hlen, hcollected⟩ : ∃ set, EndsIn (before ++ [entry]) entry.dosChecksum n set ∧
        (lfn.started entry).current.length = fat32LfnMaxFilenameLength ∧
        overwritten (lfn.started entry).current (13 * n) entry.characters = collected n set := by
      have hexpected := hgoes.expected
      have hchecksum := hgoes.checksum
      unfold Lfn.started at hexpected hchecksum ⊢
      cases hstart : entry.startsSet with
      | true =>
        rw [if_pos rfl]
        exact ⟨[entry], endsIn_concat.mpr ⟨hpiece, Or.inl ⟨hstart, hgoes.room, rfl⟩⟩, length_spaces _,
          collected_first hgoes.room entry⟩
      | false =>
        rw [hstart, if_neg Bool.false_ne_true] at hexpected hchecksum
        rw [if_neg Bool.false_ne_true]
        cases h with
        | outside hzero => omega
        | inside set hends hpos hcurrent =>
          rw [hexpected, hchecksum] at hends
          rw [hexpected] at hcurrent
          rw [hcurrent]
          exact ⟨set ++ [entry], endsIn_concat.mpr ⟨hpiece, Or.inr ⟨hstart, set, hends, rfl⟩⟩,
            length_collected hends.2.room, collected_next entry⟩
    refine Or.inl ⟨entry.dosChecksum, n, set, hends, ?_⟩
    rw [take_of_goesOn hgoes hlen, hcollected]
    by_cases hn : n = 0
    · subst hn
      have hroom := hends.2.room
      exact ⟨rfl, rfl, by simp, fun hpos => absurd hpos (Nat.lt_irrefl 0),
        fun _ => cString_trimmed rfl (by omega)⟩
    · dsimp only
      rw [if_pos hn]
      exact ⟨rfl, rfl, by simp [hn], fun _ => rfl, fun hzero => absurd hzero hn⟩
  · have hnone : ∀ n, ¬GoesOn lfn entry n := fun n hn => hgoes ⟨n, hn⟩
    obtain ⟨hexpected, hwhole⟩ := take_of_not_goesOn hnone
    refine Or.inr ⟨hexpected, hwhole, ?_⟩
    intro checksum n set hends
    obtain ⟨hpiece, hends⟩ := endsIn_concat.mp hends
    have hnumber := hpiece.number
    apply hnone n
    rcases hends with ⟨hstart, hn, rfl⟩ | ⟨hstart, set', hset', rfl⟩
    · refine ⟨hnumber, ?_, ?_, hn⟩
      · rw [Lfn.started, if_pos hstart, hnumber]
      · rw [Lfn.started, if_pos hstart]
    · cases h with
      | outside hzero hnot => exact absurd hset' (hnot _ _ _ (Nat.succ_pos n))
      | inside set hset hpos hcurrent =>
        obtain ⟨hchecksum, hexpected', -⟩ := hset.unique hset'
        have hroom := hset'.2.room
        refine ⟨hnumber, ?_, ?_, by omega⟩
        · rw [Lfn.started, if_neg (by simp [hstart]), hexpected']
        · rw [Lfn.started, if_neg (by simp [hstart]), hchecksum, hpiece.checksum]

/-- The state behind an entry is one of the entries up to it. -/
theorem Tracks.take {before : List LfnEntry} {lfn : Lfn} {entry : LfnEntry} (h : Tracks before lfn)
    (hattr : entry.attributes = lfnAttribute) (hlive : entry.sequenceNumber ≠ 0xe5) :
    Tracks (before ++ [entry]) (lfn.take entry).1 := by
  rcases take_spec h hattr hlive with ⟨checksum, n, set, hends, hcollects⟩ | ⟨hexpected, -, hnot⟩
  · by_cases hn : n = 0
    · refine .outside (hcollects.expected.trans hn) ?_
      intro checksum' n' set' hpos hends'
      have := (hends.unique hends').2.1
      omega
    · have hpos : 0 < n := Nat.pos_of_ne_zero hn
      refine .inside set ?_ ?_ ?_
      · rw [hcollects.expected, hcollects.checksum]
        exact hends
      · rw [hcollects.expected]
        exact hpos
      · rw [hcollects.expected]
        exact hcollects.inside hpos
  · exact .outside hexpected fun checksum n set _ => hnot checksum n set

theorem tracks_empty : Tracks [] Lfn.empty := .outside rfl fun _ _ _ _ => not_endsIn_nil

/-- A deleted piece breaks what is collected. -/
theorem Tracks.deleted {before : List LfnEntry} {entry : LfnEntry} (lfn : Lfn)
    (h : entry.sequenceNumber = 0xe5) : Tracks (before ++ [entry]) lfn.invalidate := by
  refine .outside rfl ?_
  intro checksum n set _ hends
  exact (endsIn_concat.mp hends).1.live h

theorem Tracks.invalidate {before : List LfnEntry} {lfn : Lfn} (h : Tracks before lfn) (hzero : lfn.expected = 0) :
    Tracks before lfn.invalidate := by
  cases h with
  | inside set hends hpos hcurrent => omega
  | outside _ hnot => exact .outside rfl hnot

theorem LfnSet.all_long {checksum : UInt8} {n : Nat} {set : List LfnEntry} (h : LfnSet checksum n set) :
    ∀ lfn ∈ set, lfn.attributes = lfnAttribute := by
  induction h with
  | first hpiece =>
    intro lfn hlfn
    rw [List.mem_singleton.mp hlfn]
    exact hpiece.attributes
  | next hset hpiece hstart ih => exact forall_mem_concat ih hpiece.attributes

theorem LfnSet.ne_nil {checksum : UInt8} {n : Nat} {set : List LfnEntry} (h : LfnSet checksum n set) : set ≠ [] := by
  cases h with
  | first => simp
  | next => simp

end Limine.Fat32
