import Limine.Machine
import Limine.Menu.Entry
import Limine.Lib.Lines

/-!
# Looking things up in the configuration

`config_get_value`, `config_get_entry_name` and `config_get_entry` parse the text from its start on
every call.  A pointer into the text is what the text has from there on; what they look at before it
is the byte in front.
-/

namespace Limine.Config
open Limine.Lib
open Limine.Menu (CString)

/-- `SEPARATOR` -/
def separator : UInt8 := 10
def slash : UInt8 := 47
def colon : UInt8 := 58
def blank : UInt8 := 32
def tab : UInt8 := 9

/-! ## Values -/

def tolower (c : UInt8) : UInt8 := if 65 ≤ c ∧ c ≤ 90 then c + 32 else c

/-- `strncasecmp(s, key, strlen(key)) == 0` -/
def startsWith : CString → CString → Bool
  | [], _ => true
  | _ :: _, [] => false
  | k :: ks, c :: cs => tolower c = tolower k && startsWith ks cs

/-- What follows `key:` where the text starts with it. -/
def afterKey (key s : CString) : Option CString :=
  if startsWith key s && s[key.length]? = some colon then some (s.drop (key.length + 1)) else none

/-- `CONFIG_VALUE_BUF_SIZE` -/
def configValueBufSize : Nat := 4096

/-- The value of a line, from behind its colon on, as far as the buffer holds it. -/
def valueAt (s : CString) : CString :=
  ((s.dropWhile fun c => c = blank || c = tab).takeWhile (· ≠ separator)).take (configValueBufSize - 1)

/-- The loop of `config_get_value`, `prev` being the byte before. -/
def getValueFrom (key : CString) : Option UInt8 → Nat → CString → Option CString
  | _, _, [] => none
  | prev, index, c :: cs =>
    match afterKey key (c :: cs) with
    | some rest =>
      if prev ≠ none ∧ prev ≠ some separator then getValueFrom key (some c) index cs
      else
        match index with
        | 0 => some (valueAt rest)
        | index + 1 => getValueFrom key (some c) index cs
    | none => getValueFrom key (some c) index cs

def configGetValue (config : CString) (index : Nat) (key : CString) : Option CString :=
  getValueFrom key none index config

/-! ## Entries -/

/-- The loop the two lookups of entries begin with: to the slash of an entry line, after `index` others.
A slash further on in a line does not count. -/
def seekEntry : Option UInt8 → Nat → CString → Option CString
  | _, _, [] => none
  | prev, index, c :: cs =>
    if c ≠ slash then seekEntry (some c) index cs
    else if prev ≠ none ∧ prev ≠ some separator then seekEntry (some c) index cs
    else
      match index with
      | 0 => some (c :: cs)
      | index + 1 => seekEntry (some c) index cs

def configGetEntryName (text : CString) (index : Nat) : Option CString :=
  (seekEntry none index text).map (·.takeWhile (· ≠ separator))

/-- Up to the slash of the next entry line, `prev` being the byte before. -/
def bodyFrom (prev : UInt8) : CString → CString
  | [] => []
  | c :: cs => if c = slash ∧ prev = separator then [] else c :: bodyFrom c cs

/-- The byte after the slash is passed without a look. -/
def endOfLine (entry : CString) : CString := (entry.drop 2).dropWhile (· ≠ separator)

/-- The pointer and `*size`. -/
def configGetEntry (text : CString) (index : Nat) : Option (CString × Nat) :=
  (seekEntry none index text).map fun entry =>
    (endOfLine entry, (bodyFrom 0 (endOfLine entry)).length)

/-! ## The text by its lines -/

/-- The texts from each entry line on. -/
def entryLines (prev : Option UInt8) (text : CString) : List CString :=
  (lineStarts separator prev text).filter fun s => s.head? = some slash

/-- The values of the lines `key:`. -/
def options (key : CString) (prev : Option UInt8) (text : CString) : List CString :=
  ((lineStarts separator prev text).filterMap (afterKey key)).map valueAt

theorem seekEntry_eq (text : CString) : ∀ (prev : Option UInt8) (index : Nat),
    seekEntry prev index text = (entryLines prev text)[index]? := by
  unfold entryLines
  induction text with
  | nil =>
    intro prev index
    rfl
  | cons c cs ih =>
    intro prev index
    rw [seekEntry.eq_def, lineStarts]
    dsimp only
    by_cases hstart : prev = none ∨ prev = some separator
    · rw [if_pos hstart, List.filter_cons]
      by_cases hc : c = slash
      · rw [if_neg (by simp [hc]), if_neg (by tauto), if_pos (by simp [hc])]
        cases index with
        | zero => rfl
        | succ index => exact ih (some c) index
      · rw [if_pos hc, if_neg (by simp [hc])]
        exact ih (some c) index
    · rw [if_neg hstart, if_pos (by tauto : prev ≠ none ∧ prev ≠ some separator), ite_self]
      exact ih (some c) index

theorem getValueFrom_eq (key : CString) (text : CString) : ∀ (prev : Option UInt8) (index : Nat),
    getValueFrom key prev index text = (options key prev text)[index]? := by
  unfold options
  induction text with
  | nil =>
    intro prev index
    rfl
  | cons c cs ih =>
    intro prev index
    rw [getValueFrom.eq_def, lineStarts]
    dsimp only
    by_cases hstart : prev = none ∨ prev = some separator
    · rw [if_pos hstart, List.filterMap_cons]
      cases afterKey key (c :: cs) with
      | none => exact ih (some c) index
      | some rest =>
        show (if _ then _ else _) = _
        rw [if_neg (by tauto)]
        cases index with
        | zero => rfl
        | succ index => exact ih (some c) index
    · rw [if_neg hstart]
      cases afterKey key (c :: cs) with
      | none => exact ih (some c) index
      | some rest =>
        show (if _ then _ else _) = _
        rw [if_pos (by tauto : prev ≠ none ∧ prev ≠ some separator)]
        exact ih (some c) index

theorem configGetValue_eq (config : CString) (index : Nat) (key : CString) :
    configGetValue config index key = (options key none config)[index]? :=
  getValueFrom_eq key config none index

end Limine.Config
