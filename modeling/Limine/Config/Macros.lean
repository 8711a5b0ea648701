import Limine.Config.Lookup

/-!
# The macros of a configuration

`init_config` goes over the text twice: the first pass loads the definitions `${name}=value`, the
second takes their lines out and puts values for the uses `${name}`.  Each pass has a scanner of its
own for what a definition is.  Next to its result a pass here says which bytes of the text it took for
definitions, counted from the end of the text.
-/

namespace Limine.Config
open Limine.Menu (CString)

/-- `'$'` -/
def dollar : UInt8 := 36
/-- `'{'` -/
def openBrace : UInt8 := 123
/-- `'}'` -/
def closeBrace : UInt8 := 125
/-- `'='` -/
def equals : UInt8 := 61

/-- `struct macro` -/
structure Macro where
  name : CString
  value : CString
deriving DecidableEq, Repr

/-- A definition and where it stands: with `start` bytes of the text left, up to where `stop` are left. -/
structure Definition extends Macro where
  start : Nat
  stop : Nat
deriving DecidableEq, Repr

def Definition.range (d : Definition) : Nat × Nat := (d.start, d.stop)

/-- `memcmp(text, "${", 2) == 0` -/
def opens (text : CString) : Bool := text.head? = some dollar && text.tail.head? = some openBrace

/-- `memcmp(text, "\n${", 3) == 0` -/
def opensAfterLine (text : CString) : Bool := text.head? = some separator && opens text.tail

/-- What both passes ask for at every position, `first` being `i == 0`. -/
def macroStart (first : Bool) (text : CString) : Bool := opensAfterLine text || first && opens text

/-- `i += i ? 3 : 2`, whatever of the two was found. -/
def pastOpen (first : Bool) (text : CString) : CString := text.drop (if first then 2 else 3)

/-- How much of the text there is from the dollar sign on. -/
def leftAtOpen (text : CString) : Nat := if opensAfterLine text then text.length - 1 else text.length

/-! ## Loading -/

def inName (c : UInt8) : Bool := c ≠ closeBrace && c ≠ separator

/-- `sizeof(macro->name) - 1` -/
def maxName : Nat := 1023
/-- `sizeof(macro->value) - 1` -/
def maxValue : Nat := 2047

/-- What follows `}=`. -/
def afterName (text : CString) : Option CString :=
  if text.head? = some closeBrace && text.tail.head? = some equals then some text.tail.tail else none

def loadFrom : Nat → Bool → CString → Exec (List Definition)
  | 0, _, _ => .error .outOfFuel
  | fuel + 1, first, text =>
    if macroStart first text then
      let name := (pastOpen first text).takeWhile inName
      let rest := (pastOpen first text).dropWhile inName
      if name.length > maxName then .error (.panic "config: Macro name too long (max %U)")
      else
        match afterName rest with
        | none => loadFrom fuel false rest
        | some rest =>
          let value := rest.takeWhile (· ≠ separator)
          if value.length > maxValue then .error (.panic "config: Macro value too long (max %U)")
          else do
            let rest := rest.dropWhile (· ≠ separator)
            let defs ← loadFrom fuel false rest
            return { name := name, value := value, start := leftAtOpen text, stop := rest.length } :: defs
    else
      match text with
      | [] => .ok []
      | _ :: text => loadFrom fuel false text

/-- The values of the three macros that are always there. -/
structure Builtins where
  arch : CString
  fwType : CString
  loaderArch : CString

/-- The list before the pass: each one is put in front of those before it. -/
def Builtins.macros (b : Builtins) : List Macro :=
  [⟨[76, 79, 65, 68, 69, 82, 95, 65, 82, 67, 72], b.loaderArch⟩, ⟨[70, 87, 95, 84, 89, 80, 69], b.fwType⟩,
    ⟨[65, 82, 67, 72], b.arch⟩]

/-! ## Expanding -/

/-- The first of the name, or nothing. -/
def valueOf (macros : List Macro) (name : CString) : CString :=
  ((macros.find? fun m => m.name = name).map (·.value)).getD []

/-- Writing to the new text. -/
def emit (newSize : Nat) (out bytes : CString) : Exec CString :=
  if out.length + bytes.length > newSize then .error (.panic "config: Macro-induced buffer overflow")
  else .ok (out ++ bytes)

/-- From behind `${` to the end of the definition's line; `none` where it is no definition. -/
def skipDefinition (text : CString) : Exec (Option CString) :=
  match text.dropWhile (· ≠ closeBrace) with
  | [] => .error (.panic "config: Malformed macro usage")
  | _ :: rest =>
    if rest.head? = some equals then .ok (some (rest.tail.dropWhile (· ≠ separator))) else .ok none

def definitionHere (first : Bool) (text : CString) : Exec (Option CString) :=
  if macroStart first text then skipDefinition (pastOpen first text) else .ok none

abbrev Expansion := CString × List (Nat × Nat)

/-- A use or a byte at the head of the text, and then the rest. -/
def expandNext (macros : List Macro) (newSize : Nat) (continue_ : CString → CString → Exec Expansion)
    (text out : CString) : Exec Expansion :=
  if opens text then
    let name := (text.tail.tail.takeWhile inName).take maxName
    let rest := text.tail.tail.drop name.length
    if rest.head? = some closeBrace then do
      let out ← emit newSize out (valueOf macros name)
      continue_ rest.tail out
    else .error (.panic "config: Malformed macro usage")
  else
    match text with
    | [] => do
      -- The NUL.
      let _ ← emit newSize out [0]
      return (out, [])
    | c :: rest => do
      let out ← emit newSize out [c]
      continue_ rest out

def expandFrom (macros : List Macro) (newSize : Nat) : Nat → Bool → CString → CString → Exec Expansion
  | 0, _, _, _ => .error .outOfFuel
  | fuel + 1, first, text, out => do
    match ← definitionHere first text with
    | some rest => do
      let (out, removed) ← expandFrom macros newSize fuel false rest out
      return (out, (leftAtOpen text, rest.length) :: removed)
    | none => expandNext macros newSize (expandFrom macros newSize fuel false) text out

/-- What the two passes make of a text. -/
structure MacroPasses where
  definitions : List Definition
  text : CString
  removed : List (Nat × Nat)
deriving DecidableEq, Repr

def macroPasses (builtins : Builtins) (text : CString) : Exec MacroPasses := do
  let definitions ← loadFrom (text.length + 1) true text
  let macros := (definitions.map (·.toMacro)).reverse ++ builtins.macros
  let configSize := text.length + 1
  if configSize > (2 ^ 64 - 1) / 4 then
    .error (.panic "config: Config file too large for macro expansion")
  else do
    let (out, removed) ← expandFrom macros (configSize * 4) (text.length + 1) true text []
    return { definitions := definitions, text := out, removed := removed }

end Limine.Config
