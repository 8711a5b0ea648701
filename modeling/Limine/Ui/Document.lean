import Limine.Lib.CStrings

/-!
# Reading a configuration of the graphical menu

`ui_document_read` splits the text in place: it writes NULs into the buffer and keeps pointers to what is
between them.  A pointer is an offset into the buffer.
-/

namespace Limine.Ui.Document

open Limine.Lib

/-- The bytes of a string of the source. -/
def ascii (s : String) : List UInt8 := s.toList.map fun c => UInt8.ofNat c.toNat

def newline : UInt8 := 10
def colonSign : UInt8 := 58
def hashSign : UInt8 := 35
def bracketOpen : UInt8 := 91
def bracketClose : UInt8 := 93
def quoteSign : UInt8 := 34

def uiConfigMaxSize : Nat := 32768
def uiConfigMaxFields : Nat := 256

/-- A space, a tab or a carriage return. -/
def isBlank (c : UInt8) : Bool := c == 32 || c == 9 || c == 13

/-- The second loop of `trim`, on the `n` bytes from `p` on. -/
def trimEnd (data : List UInt8) (p : Nat) : Nat → List UInt8
  | 0 => data
  | n + 1 => if isBlank (data.getD (p + n) 0) then trimEnd (data.set (p + n) 0) p n else data

def trim (data : List UInt8) (p : Nat) : List UInt8 × Nat :=
  let p := p + ((data.drop p).takeWhile isBlank).length
  (trimEnd data p (cstring data p).length, p)

def strchr (data : List UInt8) (p : Nat) (c : UInt8) : Option Nat :=
  ((cstring data p).findIdx? (· == c)).map (p + ·)

/-- `struct ui_property`; the section in front of all others is the empty literal. -/
structure UiProperty where
  section_ : Option Nat
  key : Nat
  value : Nat
  line : Nat
  used : Bool
deriving DecidableEq, Repr

/-- `struct ui_document`, with the buffer that it borrows. -/
structure UiDocument where
  data : List UInt8
  fields : List UiProperty
  errorLine : Nat
  error : Option String

def sectionNames : List (List UInt8) :=
  ["menu", "menu.item", "menu.item.label", "menu.item.selected", "heading", "hints", "hints.key", "hints.select",
    "hints.enter", "hints.edit", "hints.blank", "hints.firmware", "hints.shell", "details", "countdown", "divider",
    "background", "cursor"].map ascii

/-- `entry "` -/
def entryStart : List UInt8 := ascii "entry " ++ [quoteSign]

/-- `valid` -/
def validSection (name : List UInt8) : Bool :=
  sectionNames.contains name ||
    (name.length > 8 && entryStart.isPrefixOf name && name.getLast? == some quoteSign)

def sectionString (data : List UInt8) : Option Nat → List UInt8
  | none => []
  | some p => cstring data p

/-- What the loop over the lines carries. -/
structure ReadState where
  data : List UInt8
  fields : List UiProperty
  section_ : Option Nat

/-- What a line that cannot be read leaves of the buffer, and what is wrong with it. -/
structure LineError where
  data : List UInt8
  message : String

/-- A line that starts with a bracket. -/
def readSection (s : ReadState) (p : Nat) : Except LineError ReadState :=
  let len := (cstring s.data p).length
  if len < 3 ∨ s.data.getD (p + len - 1) 0 ≠ bracketClose then .error ⟨s.data, "malformed section"⟩
  else
    let (data, name) := trim (s.data.set (p + len - 1) 0) (p + 1)
    if validSection (cstring data name) then .ok { s with data := data, section_ := some name }
    else .error ⟨data, "unknown section"⟩

/-- A line that is a property. -/
def readProperty (s : ReadState) (p line : Nat) : Except LineError ReadState :=
  match strchr s.data p colonSign with
  | none => .error ⟨s.data, "expected key: value or too many fields"⟩
  | some colon =>
    if s.fields.length = uiConfigMaxFields then .error ⟨s.data, "expected key: value or too many fields"⟩
    else
      let (data, key) := trim (s.data.set colon 0) p
      let (data, value) := trim data (colon + 1)
      if data.getD key 0 = 0 ∨ (cstring data key).length > 48 ∨ (cstring data value).length > 1024 then
        .error ⟨data, "invalid key or oversized value"⟩
      else if s.fields.any fun f => sectionString data f.section_ == sectionString data s.section_ &&
          cstring data f.key == cstring data key then .error ⟨data, "duplicate property"⟩
      else .ok { s with data := data, fields := s.fields ++ [⟨s.section_, key, value, line, false⟩] }

/-- One turn of the loop, from `trim` on. -/
def readLine (s : ReadState) (p line : Nat) : Except LineError ReadState :=
  let (data, p) := trim s.data p
  let s := { s with data := data }
  if data.getD p 0 = 0 ∨ data.getD p 0 = hashSign then .ok s
  else if data.getD p 0 = bracketOpen then readSection s p
  else readProperty s p line

/-- The loop over the lines, with the line before. -/
def readLines : Nat → ReadState → Nat → Nat → Option (Bool × UiDocument)
  | 0, _, _, _ => none
  | fuel + 1, s, p, line =>
    let next := strchr s.data p newline
    let s := { s with data := next.elim s.data fun nl => s.data.set nl 0 }
    match readLine s p (line + 1) with
    | .error e => some (false, ⟨e.data, s.fields, line + 1, some e.message⟩)
    | .ok s =>
      match next with
      | none => some (true, ⟨s.data, s.fields, 0, none⟩)
      | some nl => readLines fuel s (nl + 1) (line + 1)

/-- A byte that no configuration has. -/
def badControl (c : UInt8) : Bool := c == 0 || (c < 32 && c != 10 && c != 13 && c != 9) || c == 127

/-- `ui_document_read` on a text of `size` bytes with the NUL behind it. -/
def uiDocumentRead (data : List UInt8) (size : Nat) : Option (Bool × UiDocument) :=
  if size = 0 ∨ size > uiConfigMaxSize then
    some (false, ⟨data, [], 0, some "empty or oversized configuration"⟩)
  else if (data.take size).any badControl then some (false, ⟨data, [], 0, some "invalid control character"⟩)
  else readLines (size + 1) ⟨data, [], none⟩ 0 0

/-- `ui_document_get`; the value is `NULL` or the string at the pointer. -/
def uiDocumentGet (doc : UiDocument) (section_ key : List UInt8) : Option (List UInt8) × UiDocument :=
  match doc.fields.findIdx? fun f => sectionString doc.data f.section_ == section_ && cstring doc.data f.key == key with
  | none => (none, doc)
  | some i =>
    let p := doc.fields.getD i ⟨none, 0, 0, 0, false⟩
    (some (cstring doc.data p.value),
      { doc with
        fields := doc.fields.set i { p with used := true }
        errorLine := if doc.error = none then p.line else doc.errorLine })

end Limine.Ui.Document
