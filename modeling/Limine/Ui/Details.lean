import Limine.Lib.ByteMemory
import Limine.Lib.Triple

/-!
# The text of the details

`ui_draw_details` breaks the comment of an entry into lines that fit its box.  A line grows by one
character at a time in a buffer of its own; the one that makes it too wide is given back, with all that
follows the last blank.

    gather  →  the bytes of the line, at most as many as the box and the buffer hold
    endRow  →  blanks and a newline behind the line are dropped
-/

namespace Limine.Ui
open Limine.Lib

/-! ## The source -/

def newline : UInt8 := 10
def blank : UInt8 := 32

/-- `"\xe2\x80\xa6"` and its NUL -/
def ellipsis : List UInt8 := [0xe2, 0x80, 0xa6, 0]

def isContinuation (b : UInt8) : Bool := b &&& 0xc0 == 0x80

inductive Overrun
  | buffer
deriving DecidableEq, Repr

/-- `sizeof(buffer)` -/
def bufferSize : Nat := 1028

def writeBuffer (buffer : ByteMemory) (offset : Nat) (bytes : List UInt8) : Except Overrun ByteMemory :=
  if offset + bytes.length ≤ bufferSize then .ok (buffer.store offset bytes) else .error .buffer

/-- The string in the buffer. -/
def bufferText (buffer : ByteMemory) : List UInt8 := (buffer.bytes 0 bufferSize).takeWhile (· ≠ 0)

structure Row where
  buffer : ByteMemory
  length : Nat
  space : Nat
  consumed : Nat

def skipBlanks : List UInt8 → Nat → List UInt8 × Nat
  | [], consumed => ([], consumed)
  | c :: rest, consumed => if c = blank ∧ consumed < 4096 then skipBlanks rest (consumed + 1) else (c :: rest, consumed)

def skipNewline : List UInt8 → Nat → List UInt8 × Nat
  | [], consumed => ([], consumed)
  | c :: rest, consumed => if c = newline ∧ consumed < 4096 then (rest, consumed + 1) else (c :: rest, consumed)

/-- `length`, without the blanks at the end. -/
def trimBlanks (buffer : ByteMemory) : Nat → Nat
  | 0 => 0
  | n + 1 => if buffer n = blank then trimBlanks buffer n else n + 1

/-- Where text is left out, the last line ends with an ellipsis. -/
def appendEllipsis (last : Bool) (text : List UInt8) (consumed : Nat) (buffer : ByteMemory) (length : Nat) :
    Except Overrun ByteMemory :=
  if text ≠ [] ∧ (last = true ∨ 4096 ≤ consumed) then writeBuffer buffer length ellipsis else .ok buffer

/-- The rest of the outer loop's body: the line, what is left of the text, and `consumed`. -/
def endRow (last : Bool) (start : List UInt8) (r : Row) (text : List UInt8) :
    Except Overrun (List UInt8 × List UInt8 × Nat) := do
  let consumed := r.consumed + (start.length - text.length)
  let (text, consumed) := skipBlanks text consumed
  let (text, consumed) := skipNewline text consumed
  let length := trimBlanks r.buffer r.length
  let buffer ← writeBuffer r.buffer length [0]
  let buffer ← appendEllipsis last text consumed buffer length
  return (bufferText buffer, text, consumed)

/-- `struct ui_settings`, as far as it places the details: their box, and the size of the text. -/
structure DetailSettings where
  boxWidth : Int
  boxHeight : Int
  detailPadding : Int
  detailLineGap : Int
  detailWrap : Bool
  detailSelection : Bool
  size : Int

namespace DetailSettings

def innerWidth (s : DetailSettings) : Int := s.boxWidth - 2 * s.detailPadding

def lines (s : DetailSettings) : Nat :=
  let lines := (s.boxHeight - 2 * s.detailPadding + s.detailLineGap).tdiv (s.size + s.detailLineGap)
  (if 64 < lines then 64 else lines).toNat

end DetailSettings

/-- A character as the loop takes it. -/
def IsChar (g : List UInt8) : Prop :=
  ∃ c conts, g = c :: conts ∧ conts.length ≤ 3 ∧ ∀ b ∈ conts, isContinuation b = true

/-- The encoding of a character beyond ASCII: a leading byte and what continues it. -/
def Utf8Sequence (g : List UInt8) : Prop :=
  ∃ c conts, g = c :: conts ∧ 0xc0 ≤ c ∧ conts.length ≤ 3 ∧ ∀ b ∈ conts, isContinuation b = true

/-- The end of `front` is inside of a character. -/
def Splits (front rest : List UInt8) : Prop :=
  ∃ p q, p ≠ [] ∧ q ≠ [] ∧ p <:+ front ∧ q <+: rest ∧ Utf8Sequence (p ++ q)

/-- A line that is not too wide, or cannot be shorter. -/
def Fits (width : List UInt8 → Int) (boxWidth : Int) (line : List UInt8) : Prop :=
  line = [] ∨ IsChar line ∨ width line ≤ boxWidth

section
variable {width : List UInt8 → Int} {boxWidth : Int}

/-- Characters that the loop has accepted one after the other. -/
inductive Taken (width : List UInt8 → Int) (boxWidth : Int) : List UInt8 → Prop
  | nil : Taken width boxWidth []
  | snoc {l g : List UInt8} : Taken width boxWidth l → IsChar g → l = [] ∨ width (l ++ g) ≤ boxWidth →
      Taken width boxWidth (l ++ g)

theorem Taken.fits {l : List UInt8} (h : Taken width boxWidth l) : Fits width boxWidth l := by
  cases h with
  | nil => exact Or.inl rfl
  | snoc _ hg hwidth =>
    rcases hwidth with rfl | hwidth
    · exact Or.inr (Or.inl hg)
    · exact Or.inr (Or.inr hwidth)

end

/-! ## The buffer -/

section
variable {buffer : ByteMemory}

end

/-! ## One row -/

section
variable {width : List UInt8 → Int} {boxWidth : Int} {start text : List UInt8} {consumed : Nat}

/-- `space` is at the last blank, if it is not 0. -/
def SpaceAt (width : List UInt8 → Int) (boxWidth : Int) (row : List UInt8) (space : Nat) : Prop :=
  space = 0 ∨ ∃ front back, row = front ++ blank :: back ∧ front.length = space ∧ Taken width boxWidth front

theorem SpaceAt.append {row : List UInt8} {space : Nat} (h : SpaceAt width boxWidth row space) (g : List UInt8) :
    SpaceAt width boxWidth (row ++ g) space := by
  rcases h with h | ⟨front, back, rfl, hlen, hfront⟩
  · exact Or.inl h
  · exact Or.inr ⟨front, back ++ g, by simp, hlen, hfront⟩

end

/-! ## The whole text -/

end Limine.Ui
