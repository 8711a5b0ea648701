import Limine.Config.Lookup
import Mathlib.Data.List.TakeWhile

/-!
# Pairs of options

`config_get_tuple` finds the value of one key and the value of another that belongs to it by three
searches, told apart by where `lastkey` was left.  A pointer is the text from there on, so that the
higher of two is the shorter text.
-/

namespace Limine.Config
open Limine.Lib
open Limine.Menu (CString)

/-! ## The searches -/

def skipBlanks (s : CString) : CString := s.dropWhile fun c => c = blank || c = tab

/-- What `config_get_value` copies from the value on. -/
def bufferOf (s : CString) : CString := (s.takeWhile (· ≠ separator)).take (configValueBufSize - 1)

/-- The loop of `config_get_value` as far as the value: what `lastkey` is set to. -/
def seekValueFrom (key : CString) : Option UInt8 → Nat → CString → Option CString
  | _, _, [] => none
  | prev, index, c :: cs =>
    match afterKey key (c :: cs) with
    | some rest =>
      if prev ≠ none ∧ prev ≠ some separator then seekValueFrom key (some c) index cs
      else
        match index with
        | 0 => some (skipBlanks rest)
        | index + 1 => seekValueFrom key (some c) index cs
    | none => seekValueFrom key (some c) index cs

/-- `config_get_value` with `lastkey`, which a search that fails leaves alone. -/
def searchValue (lastkey config : CString) (index : Nat) (key : CString) : Option CString × CString :=
  match seekValueFrom key none index config with
  | some value => (some (bufferOf value), value)
  | none => (none, lastkey)

/-! ## The pair -/

structure ConfTuple where
  value1 : Option CString
  value2 : Option CString
deriving DecidableEq, Repr

/-- `CONF_TUPLE_BUF_SIZE` -/
def confTupleBufSize : Nat := 4096

/-- The tuple, and what `lastkey` is left as. -/
def configGetTuple (lastkey config : CString) (index : Nat) (key1 key2 : CString) : ConfTuple × CString :=
  match searchValue lastkey config index key1 with
  | (none, lk1) => (⟨none, none⟩, lk1)
  | (some value1, lk1) =>
    let (value2, lk2) := searchValue lk1 lk1 0 key2
    let (nextValue1, lk3) := searchValue lk2 config (index + 1) key1
    let value2 := value2.map fun value => value.take (confTupleBufSize - 1)
    (⟨some (value1.take (confTupleBufSize - 1)),
      if value2 ≠ none ∧ nextValue1 ≠ none ∧ lk2.length < lk3.length then none else value2⟩, lk3)

/-! ## What a pair is -/

/-- What follows the key in its `index`-th line, and the lines behind that one. -/
def seekLine (key : CString) : Nat → List CString → Option (CString × List CString)
  | _, [] => none
  | index, line :: lines =>
    match afterKey key line with
    | none => seekLine key index lines
    | some value =>
      match index with
      | 0 => some (value, lines)
      | index + 1 => seekLine key index lines

/-- The first line of the other key before the next of this one. -/
def ownLine (key1 key2 : CString) (behind : List CString) : Option CString :=
  (behind.takeWhile fun line => afterKey key1 line = none).findSome? (afterKey key2)

/-- The value of a line of `key1`, and that of the line of `key2` that belongs to it. -/
def paired (key1 key2 : CString) (index : Nat) (lines : List CString) : ConfTuple :=
  match seekLine key1 index lines with
  | none => ⟨none, none⟩
  | some (value, behind) => ⟨some (valueAt value), (ownLine key1 key2 behind).map valueAt⟩

/-- The first line of either key. -/
def nextLine (key1 key2 : CString) (behind : List CString) : Option CString :=
  behind.find? fun line => (afterKey key1 line).isSome || (afterKey key2 line).isSome

/-- A value does not itself read as a line of the other key, unless the line that belongs to it says the
same; and the next line is not of both keys, with the other key no longer than this one. -/
structure Unambiguous (key1 key2 value : CString) (behind : List CString) : Prop where
  here : ∀ inside, afterKey key2 (skipBlanks value) = some inside →
    (ownLine key1 key2 behind).map valueAt = some (valueAt inside)
  next : afterKey key2 (skipBlanks value) = none → ∀ line, nextLine key1 key2 behind = some line →
    ¬(afterKey key1 line ≠ none ∧ afterKey key2 line ≠ none ∧ key2.length ≤ key1.length)

/-! ## Lines and values -/

theorem seekValueFrom_eq (key text : CString) : ∀ (prev : Option UInt8) (index : Nat),
    seekValueFrom key prev index text =
      (((lineStarts separator prev text).filterMap (afterKey key))[index]?).map skipBlanks := by
  induction text with
  | nil =>
    intro prev index
    rfl
  | cons c cs ih =>
    intro prev index
    rw [seekValueFrom.eq_def, lineStarts]
    dsimp only
    by_cases hstart : prev = none ∨ prev = some separator
    · rw [if_pos hstart, List.filterMap_cons]
      cases afterKey key (c :: cs) with
      | none => exact ih (some c) index
      | some rest =>
        show (if _ then _ else _) = _
        rw [if_neg (by tauto)]
        cases index with
        | zero => rfl
        | succ index => exact ih (some c) index
    · rw [if_neg hstart]
      cases afterKey key (c :: cs) with
      | none => exact ih (some c) index
      | some rest =>
        show (if _ then _ else _) = _
        rw [if_pos (by tauto : prev ≠ none ∧ prev ≠ some separator)]
        exact ih (some c) index

/-- The value that is searched is the one that `config_get_value` answers. -/
theorem searchValue_value (lastkey config : CString) (index : Nat) (key : CString) :
    (searchValue lastkey config index key).1 = configGetValue config index key := by
  unfold searchValue
  rw [configGetValue_eq, seekValueFrom_eq, options, List.getElem?_map]
  cases ((lineStarts separator none config).filterMap (afterKey key))[index]? with
  | none => rfl
  | some value => rfl

theorem startsWith_length : ∀ {key s : CString}, startsWith key s = true → key.length ≤ s.length := by
  intro key
  induction key with
  | nil => simp
  | cons k key ih =>
    intro s h
    cases s with
    | nil => cases h
    | cons c s =>
      rw [startsWith, Bool.and_eq_true] at h
      simpa using ih h.2

theorem separator_of_tolower {c k : UInt8} (h : tolower c = tolower k) (hc : c = separator) : k = separator := by
  subst hc
  unfold tolower at h
  unfold separator at h ⊢
  split at h <;> split at h <;> grind

/-- A line end is not part of a key, in either case of its letters. -/
theorem separator_not_mem_of_startsWith : ∀ {key s : CString}, separator ∉ key → startsWith key s = true →
    separator ∉ s.take key.length := by
  intro key
  induction key with
  | nil => simp
  | cons k key ih =>
    intro s hkey h
    cases s with
    | nil => cases h
    | cons c s =>
      rw [startsWith, Bool.and_eq_true, decide_eq_true_eq] at h
      rw [List.mem_cons, not_or] at hkey
      rw [List.length_cons, List.take_succ_cons, List.mem_cons, not_or]
      exact ⟨fun hc => hkey.1 (separator_of_tolower h.1 hc.symm).symm, ih hkey.2 h.2⟩

theorem afterKey_drop {key s value : CString} (h : afterKey key s = some value) :
    value = s.drop (key.length + 1) := by
  unfold afterKey at h
  split at h
  · exact (Option.some.inj h).symm
  · cases h

theorem afterKey_eq_some {key s value : CString} (h : afterKey key s = some value) :
    startsWith key s = true ∧ s = s.take key.length ++ colon :: value := by
  unfold afterKey at h
  split at h
  · next hkey =>
    rw [Bool.and_eq_true, decide_eq_true_eq] at hkey
    obtain ⟨hlt, hcolon⟩ := List.getElem?_eq_some_iff.mp hkey.2
    refine ⟨hkey.1, ?_⟩
    rw [← Option.some.inj h, ← hcolon, List.getElem_cons_drop, List.take_append_drop]
  · cases h

theorem length_skipBlanks_le (s : CString) : (skipBlanks s).length ≤ s.length :=
  (List.dropWhile_sublist _).length_le

theorem length_afterKey {key s value : CString} (h : afterKey key s = some value) :
    (skipBlanks value).length < s.length := by
  have hle := length_skipBlanks_le value
  rw [(afterKey_eq_some h).2, List.length_append, List.length_cons]
  omega

/-- Between the start of a line and its value there is no line end. -/
theorem line_eq {key s value : CString} (hkey : separator ∉ key) (h : afterKey key s = some value) :
    ∃ front, front ≠ [] ∧ separator ∉ front ∧ s = front ++ skipBlanks value := by
  obtain ⟨hstarts, hs⟩ := afterKey_eq_some h
  refine ⟨s.take key.length ++ colon :: value.takeWhile fun c => c = blank || c = tab, by simp, ?_, ?_⟩
  · rw [List.mem_append, List.mem_cons, not_or, not_or]
    refine ⟨separator_not_mem_of_startsWith hkey hstarts, by decide, fun hmem => ?_⟩
    have hblank := List.mem_takeWhile_imp hmem
    revert hblank
    decide
  · unfold skipBlanks
    rw [List.append_assoc, List.cons_append, List.takeWhile_append_dropWhile]
    exact hs

/-- Inside a line the byte before is no line end. -/
theorem lastOf_inside {c : UInt8} {l : CString} (h : ¬separator = c ∧ separator ∉ l) :
    ∃ d, d ≠ separator ∧ lastOf (some c) l = some d := by
  unfold lastOf
  cases hlast : l.getLast? with
  | none => exact ⟨c, Ne.symm h.1, rfl⟩
  | some d =>
    refine ⟨d, ?_, rfl⟩
    rintro rfl
    exact h.2 (List.mem_of_getLast? hlast)

theorem length_lt_of_inside {prev : Option UInt8} {text t : CString}
    (hprev : ∃ d, d ≠ separator ∧ prev = some d) (ht : t ∈ lineStarts separator prev text) :
    t.length < text.length := by
  obtain ⟨d, hd, rfl⟩ := hprev
  obtain ⟨g, rfl, hg⟩ := lineStarts_split ht
  cases g with
  | nil =>
    rcases hg with hg | hg
    · cases hg
    · exact absurd (Option.some.inj hg) hd
  | cons a g =>
    rw [List.length_append, List.length_cons]
    omega

/-- From the start of a line or from its value on, the next line is the same. -/
theorem lineStarts_value {c : UInt8} {cs key value : CString} (hkey : separator ∉ key)
    (h : afterKey key (c :: cs) = some value) :
    ∃ d, d ≠ separator ∧ lineStarts separator (some c) cs = lineStarts separator (some d) (skipBlanks value) := by
  obtain ⟨front, hne, hfront, hs⟩ := line_eq hkey h
  obtain ⟨a, front, rfl⟩ := List.exists_cons_of_ne_nil hne
  rw [List.cons_append] at hs
  obtain ⟨rfl, rfl⟩ := List.cons.inj hs
  rw [List.mem_cons, not_or] at hfront
  obtain ⟨d, hd, hlast⟩ := lastOf_inside hfront
  refine ⟨d, hd, ?_⟩
  rw [lineStarts_append, lineStarts_of_inside (Ne.symm hfront.1) hfront.2, List.map_nil, List.nil_append, hlast]

/-- A line further on starts behind the value of this one. -/
def Before (s t : CString) : Prop :=
  ∀ key value : CString, separator ∉ key → afterKey key s = some value → t.length < (skipBlanks value).length

theorem lineStarts_before (text : CString) : ∀ prev : Option UInt8,
    (lineStarts separator prev text).Pairwise Before := by
  induction text with
  | nil =>
    intro prev
    exact .nil
  | cons c cs ih =>
    intro prev
    rw [lineStarts]
    split
    · refine List.pairwise_cons.mpr ⟨?_, ih (some c)⟩
      intro t ht key value hkey hvalue
      obtain ⟨d, hd, hsame⟩ := lineStarts_value hkey hvalue
      rw [hsame] at ht
      exact length_lt_of_inside ⟨d, hd, rfl⟩ ht
    · exact ih (some c)

/-- What is behind a line is what a search from its value finds. -/
theorem lineStarts_behind {text : CString} : ∀ {prev : Option UInt8} {front : List CString} {s : CString}
    {behind : List CString}, lineStarts separator prev text = front ++ s :: behind →
    ∀ {key value : CString}, separator ∉ key → afterKey key s = some value →
    ∃ d, d ≠ separator ∧ behind = lineStarts separator (some d) (skipBlanks value) := by
  induction text with
  | nil =>
    intro prev front s behind h
    exact absurd h (by simp [lineStarts])
  | cons c cs ih =>
    intro prev front s behind h key value hkey hvalue
    rw [lineStarts] at h
    split at h
    · cases front with
      | cons a front => exact ih (List.cons.inj h).2 hkey hvalue
      | nil =>
        obtain ⟨rfl, rfl⟩ := List.cons.inj h
        exact lineStarts_value hkey hvalue
    · exact ih h hkey hvalue

/-- A search from a value on looks at the value as at a line. -/
theorem lineStarts_from_value {d : UInt8} (hd : d ≠ separator) {value : CString} (hvalue : value ≠ []) :
    lineStarts separator none value = value :: lineStarts separator (some d) value := by
  obtain ⟨c, cs, rfl⟩ := List.exists_cons_of_ne_nil hvalue
  rw [lineStarts, lineStarts, if_pos (Or.inl rfl), if_neg (by simpa using hd)]

/-! ## The three searches -/

theorem seekLine_none {key : CString} : ∀ {lines : List CString} {index : Nat}, seekLine key index lines = none →
    (lines.filterMap (afterKey key))[index]? = none := by
  intro lines
  induction lines with
  | nil => simp
  | cons line lines ih =>
    intro index h
    rw [seekLine.eq_def] at h
    dsimp only at h
    rw [List.filterMap_cons]
    cases hvalue : afterKey key line with
    | none =>
      rw [hvalue] at h
      exact ih h
    | some value =>
      rw [hvalue] at h
      cases index with
      | zero => cases h
      | succ index => exact ih h

theorem seekLine_some {key value : CString} {behind : List CString} : ∀ {lines : List CString} {index : Nat},
    seekLine key index lines = some (value, behind) →
    ∃ front line, lines = front ++ line :: behind ∧ afterKey key line = some value ∧
      (lines.filterMap (afterKey key))[index]? = some value ∧
      (lines.filterMap (afterKey key))[index + 1]? = behind.findSome? (afterKey key) := by
  intro lines
  induction lines with
  | nil =>
    intro index h
    cases h
  | cons line lines ih =>
    intro index h
    rw [seekLine.eq_def] at h
    dsimp only at h
    rw [List.filterMap_cons]
    cases hvalue : afterKey key line with
    | none =>
      rw [hvalue] at h
      obtain ⟨front, l, hsplit, hrest⟩ := ih h
      exact ⟨line :: front, l, by rw [hsplit, List.cons_append], hrest⟩
    | some v =>
      rw [hvalue] at h
      cases index with
      | zero =>
        obtain ⟨rfl, rfl⟩ := Prod.mk.inj (Option.some.inj h)
        refine ⟨[], line, rfl, hvalue, rfl, ?_⟩
        rw [← List.head?_filterMap, List.head?_eq_getElem?]
        rfl
      | succ index =>
        obtain ⟨front, l, hsplit, hrest⟩ := ih h
        exact ⟨line :: front, l, by rw [hsplit, List.cons_append], hrest⟩

/-- The value of the other key, dropped where its pointer is the higher. -/
def chosen (second third : Option CString) : Option CString :=
  match second, third with
  | some value, some next => if (skipBlanks value).length < (skipBlanks next).length then none else some value
  | value, _ => value

theorem take_bufferOf (s : CString) : (bufferOf s).take (confTupleBufSize - 1) = bufferOf s := by
  unfold bufferOf
  rw [List.take_take]
  rfl

/-- The second search starts at the value, and the third where the first did. -/
theorem configGetTuple_of_line (lastkey : CString) {config key1 key2 value : CString} {index : Nat}
    {behind : List CString} (hkey : separator ∉ key1)
    (h : seekLine key1 index (lineStarts separator none config) = some (value, behind)) :
    (configGetTuple lastkey config index key1 key2).1 = ⟨some (valueAt value),
      (chosen ((afterKey key2 (skipBlanks value)).or (behind.findSome? (afterKey key2)))
        (behind.findSome? (afterKey key1))).map valueAt⟩ := by
  obtain ⟨front, line, hlines, hvalue, hfirst, hnext⟩ := seekLine_some h
  obtain ⟨d, hd, hbehind⟩ := lineStarts_behind hlines hkey hvalue
  have hsecond : seekValueFrom key2 none 0 (skipBlanks value) =
      ((afterKey key2 (skipBlanks value)).or (behind.findSome? (afterKey key2))).map skipBlanks := by
    rw [seekValueFrom_eq, ← List.head?_eq_getElem?, List.head?_filterMap]
    by_cases hnil : skipBlanks value = []
    · rw [hbehind, hnil]
      cases key2 with
      | nil => rfl
      | cons k key2 => rfl
    · rw [lineStarts_from_value hd hnil, ← hbehind, List.findSome?_cons]
      cases afterKey key2 (skipBlanks value) with
      | none => rfl
      | some inside => rfl
  unfold configGetTuple searchValue
  rw [seekValueFrom_eq key1 config none index, hfirst]
  dsimp only [Option.map_some]
  rw [hsecond, seekValueFrom_eq key1 config none (index + 1), hnext, take_bufferOf]
  cases (afterKey key2 (skipBlanks value)).or (behind.findSome? (afterKey key2)) with
  | none => simp [chosen, valueAt, bufferOf, skipBlanks]
  | some second =>
    cases behind.findSome? (afterKey key1) with
    | none =>
      simp only [Option.map_some, Option.map_none, take_bufferOf, chosen, ne_eq, not_true_eq_false, false_and,
        and_false, if_false]
      rfl
    | some third =>
      simp only [Option.map_some, take_bufferOf, chosen, ne_eq, reduceCtorEq, not_false_eq_true, true_and]
      split
      · rfl
      · rfl

/-- The key with the longer name has its value further on in a line of both. -/
theorem value_further {key1 key2 line value1 value2 : CString} (h1 : afterKey key1 line = some value1)
    (h2 : afterKey key2 line = some value2) (hlt : key1.length < key2.length) :
    (skipBlanks value2).length < (skipBlanks value1).length := by
  obtain ⟨hs2, hl2⟩ := afterKey_eq_some h2
  have hlen2 := startsWith_length hs2
  have hsplit : value1 = (line.take key2.length).drop (key1.length + 1) ++ colon :: value2 := by
    have hdrop := congrArg (List.drop (key1.length + 1)) hl2
    rw [List.drop_append_of_le_length (by rw [List.length_take]; omega)] at hdrop
    rw [afterKey_drop h1]
    exact hdrop
  have hle := length_skipBlanks_le value2
  rw [hsplit]
  unfold skipBlanks at hle ⊢
  rw [List.dropWhile_append]
  split
  · rw [List.dropWhile_cons_of_neg (by decide), List.length_cons]
    omega
  · rw [List.length_append, List.length_cons]
    omega

theorem value_not_further_iff {key1 key2 line value1 value2 : CString} (h1 : afterKey key1 line = some value1)
    (h2 : afterKey key2 line = some value2) :
    (skipBlanks value2).length < (skipBlanks value1).length ↔ key1.length < key2.length := by
  refine ⟨fun h => ?_, value_further h1 h2⟩
  by_contra hle
  rcases Nat.lt_or_ge key2.length key1.length with hlt | hge
  · have := value_further h2 h1 hlt
    omega
  · have heq : key1.length = key2.length := by omega
    rw [afterKey_drop h1, afterKey_drop h2, heq] at h
    omega

/-- Which lines come first settles whose the other key's line is. -/
theorem chosen_eq_iff {key1 key2 : CString} (h1 : separator ∉ key1) (h2 : separator ∉ key2) :
    ∀ {behind : List CString}, behind.Pairwise Before →
    ((chosen (behind.findSome? (afterKey key2)) (behind.findSome? (afterKey key1))).map valueAt =
        (ownLine key1 key2 behind).map valueAt ↔
      ∀ line, nextLine key1 key2 behind = some line →
        ¬(afterKey key1 line ≠ none ∧ afterKey key2 line ≠ none ∧ key2.length ≤ key1.length)) := by
  intro behind
  induction behind with
  | nil =>
    intro _
    simp [chosen, ownLine, nextLine]
  | cons line behind ih =>
    intro hbefore
    obtain ⟨hline, hbehind⟩ := List.pairwise_cons.mp hbefore
    unfold ownLine nextLine at ih ⊢
    rw [List.findSome?_cons, List.findSome?_cons, List.takeWhile_cons, List.find?_cons]
    cases hvalue1 : afterKey key1 line with
    | none =>
      rw [if_pos (by simp), List.findSome?_cons]
      cases hvalue2 : afterKey key2 line with
      | none => exact ih hbehind
      | some value2 =>
        refine iff_of_true ?_ ?_
        · dsimp only
          cases hnext : behind.findSome? (afterKey key1) with
          | none => rfl
          | some next =>
            obtain ⟨t, ht, hnextvalue⟩ := List.exists_of_findSome?_eq_some hnext
            have hlt := length_afterKey hnextvalue
            have hfurther := hline t ht key2 value2 h2 hvalue2
            unfold chosen
            dsimp only
            rw [if_neg (by omega)]
        · rintro l hl ⟨hne, -⟩
          rw [← Option.some.inj hl] at hne
          exact hne hvalue1
    | some value1 =>
      rw [if_neg (by simp), List.findSome?_nil]
      cases hvalue2 : afterKey key2 line with
      | none =>
        refine iff_of_true ?_ ?_
        · dsimp only
          cases hsecond : behind.findSome? (afterKey key2) with
          | none => rfl
          | some second =>
            obtain ⟨t, ht, hsecondvalue⟩ := List.exists_of_findSome?_eq_some hsecond
            have hlt := length_afterKey hsecondvalue
            have hfurther := hline t ht key1 value1 h1 hvalue1
            unfold chosen
            dsimp only
            rw [if_pos (by omega)]
        · rintro l hl ⟨-, hne, -⟩
          rw [← Option.some.inj hl] at hne
          exact hne hvalue2
      | some value2 =>
        have hiff := value_not_further_iff hvalue1 hvalue2
        show (Option.map valueAt (if _ then none else some value2) = none) ↔
          ∀ l, some line = some l → ¬(afterKey key1 l ≠ none ∧ afterKey key2 l ≠ none ∧ key2.length ≤ key1.length)
        rw [ite_congr (propext hiff) (fun _ => rfl) (fun _ => rfl)]
        by_cases hlt : key1.length < key2.length
        · rw [if_pos hlt]
          refine iff_of_true rfl ?_
          rintro l - ⟨-, -, hle⟩
          omega
        · rw [if_neg hlt]
          refine iff_of_false (by simp) ?_
          intro h
          exact h line rfl ⟨by simp [hvalue1], by simp [hvalue2], by omega⟩

/-- **What `config_get_tuple` answers is the pair, but where the text is ambiguous.** -/
theorem configGetTuple_paired_iff (lastkey config : CString) (index : Nat) {key1 key2 : CString}
    (h1 : separator ∉ key1) (h2 : separator ∉ key2) :
    (configGetTuple lastkey config index key1 key2).1 =
        paired key1 key2 index (lineStarts separator none config) ↔
      ∀ value behind, seekLine key1 index (lineStarts separator none config) = some (value, behind) →
        Unambiguous key1 key2 value behind := by
  unfold paired
  cases hseek : seekLine key1 index (lineStarts separator none config) with
  | none =>
    refine iff_of_true ?_ nofun
    unfold configGetTuple searchValue
    rw [seekValueFrom_eq, seekLine_none hseek]
    rfl
  | some found =>
    obtain ⟨value, behind⟩ := found
    rw [configGetTuple_of_line lastkey h1 hseek]
    obtain ⟨front, line, hlines, hvalue, -⟩ := seekLine_some hseek
    obtain ⟨d, hd, hbehind⟩ := lineStarts_behind hlines h1 hvalue
    have hbefore := lineStarts_before (skipBlanks value) none
    have hplain : (∀ v b, some (value, behind) = some (v, b) → Unambiguous key1 key2 v b) ↔
        Unambiguous key1 key2 value behind := by
      refine ⟨fun h => h value behind rfl, ?_⟩
      rintro h v b hvb
      obtain ⟨rfl, rfl⟩ := Prod.mk.inj (Option.some.inj hvb)
      exact h
    rw [hplain, ConfTuple.mk.injEq, eq_self, true_and]
    cases hinside : afterKey key2 (skipBlanks value) with
    | none =>
      rw [Option.none_or, chosen_eq_iff h1 h2 (hbehind ▸ lineStarts_before (skipBlanks value) (some d))]
      exact ⟨fun h => ⟨by simp [hinside], fun _ => h⟩, fun h => h.next hinside⟩
    | some inside =>
      have hkept : chosen (some inside) (behind.findSome? (afterKey key1)) = some inside := by
        cases hnext : behind.findSome? (afterKey key1) with
        | none => rfl
        | some next =>
          obtain ⟨t, ht, hnextvalue⟩ := List.exists_of_findSome?_eq_some hnext
          have hlt := length_afterKey hnextvalue
          have hnil : skipBlanks value ≠ [] := by
            intro hnil
            rw [hnil] at hinside
            cases key2 with
            | nil => cases hinside
            | cons k key2 => cases hinside
          rw [lineStarts_from_value hd hnil, ← hbehind] at hbefore
          have hfurther := (List.pairwise_cons.mp hbefore).1 t ht key2 inside h2 hinside
          unfold chosen
          dsimp only
          rw [if_neg (by omega)]
      rw [Option.some_or, hkept]
      refine ⟨fun h => ⟨fun i hi => ?_, fun hnone => ?_⟩, fun h => (h.here inside hinside).symm⟩
      · rw [hinside] at hi
        rw [← Option.some.inj hi]
        exact h.symm
      · rw [hinside] at hnone
        cases hnone

/-- `M: a`, `S: b`, `M: c`: the second `M` has nothing of its own. -/
theorem configGetTuple_paired_two :
    (configGetTuple [] [77, 58, 97, 10, 83, 58, 98, 10, 77, 58, 99, 10] 1 [77] [83]).1 =
        paired [77] [83] 1 (lineStarts separator none [77, 58, 97, 10, 83, 58, 98, 10, 77, 58, 99, 10]) ↔
      ∀ value behind,
        seekLine [77] 1 (lineStarts separator none [77, 58, 97, 10, 83, 58, 98, 10, 77, 58, 99, 10]) =
          some (value, behind) → Unambiguous [77] [83] value behind :=
  configGetTuple_paired_iff [] _ 1 (by decide) (by decide)

/-- `M: S: x`: the value is taken for a line of `S`. -/
theorem configGetTuple_inside_value : ¬∀ (config key1 key2 : CString), key1 ≠ key2 →
    (configGetTuple [] config 0 key1 key2).1 = paired key1 key2 0 (lineStarts separator none config) := by
  intro h
  exact absurd (h [77, 58, 32, 83, 58, 32, 120, 10] [77] [83] (by decide)) (by decide)

end Limine.Config
