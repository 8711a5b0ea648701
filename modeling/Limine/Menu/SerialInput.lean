import Limine.Editor.Events
import Limine.Lib.Decimal

/-!
# `serial_input` of the BIOS build

What the serial line has for each time it is polled, `serial_in`, and what `serial_input` makes of it.
-/

namespace Limine.Menu

open Limine.Lib Limine.Editor

def getcharPgup : Int := -17
def getcharPgdown : Int := -18

/-- What the polls of the line find, one after the other; past the end it is silent. -/
abbrev SerialLine := List (Option UInt8)

def maxRetries : Nat := 1000000

/-- The `switch` over the byte that ends the loop: the keys of a letter. -/
def letterKey (ret : UInt8) : Option Int :=
  if ret = 65 then some getcharCursorUp
  else if ret = 66 then some getcharCursorDown
  else if ret = 67 then some getcharCursorRight
  else if ret = 68 then some getcharCursorLeft
  else if ret = 70 then some getcharEnd
  else if ret = 72 then some getcharHome
  else none

/-- The `switch` over `val`. -/
def valueKey (val : Nat) : Int :=
  if val = 3 then getcharDelete
  else if val = 5 then getcharPgup
  else if val = 6 then getcharPgdown
  else if val = 21 then getcharF10
  else 0

/-- `val *= 10; val += ret - '0'` in an `int`, as two's complement arithmetic has it. -/
def nextValue (val : Nat) (ret : UInt8) : Nat := addDigit val ret % 2 ^ 32

/-- `input_sequence`, after `retries` polls that found nothing. -/
def inputSequence (val retries : Nat) : SerialLine → Int × SerialLine
  | [] => (0, [])
  | none :: line => if retries + 1 < maxRetries then inputSequence val (retries + 1) line else (0, line)
  | some ret :: line =>
    match letterKey ret with
    | some key => (key, line)
    | none => if isDigit ret then inputSequence (nextValue val ret) 0 line else (valueKey val, line)

/-- The cases of the `switch` other than ESC. -/
def plainKey (ret : UInt8) : Int := if ret = 13 then 10 else if ret = 0x7f then 8 else ret.toNat

/-- From the label `again` on. -/
def serialInputAgain (ret : UInt8) : SerialLine → Int × SerialLine
  | [] => if ret = 0x1b then (getcharEscape, []) else (plainKey ret, [])
  | poll :: line =>
    if ret = 0x1b then
      match poll with
      | none => (getcharEscape, line)
      | some ret => if ret = 91 then inputSequence 0 0 line else serialInputAgain ret line
    else (plainKey ret, poll :: line)

def serialInput : SerialLine → Int × SerialLine
  | [] => (0, [])
  | none :: line => (0, line)
  | some ret :: line => serialInputAgain ret line

/-- What calls of `serial_input` return, `n` at most, until nothing is left of the line. -/
def serialCalls : Nat → SerialLine → List Int
  | 0, _ => []
  | _, [] => []
  | n + 1, poll :: line => (serialInput (poll :: line)).1 :: serialCalls n (serialInput (poll :: line)).2

/-- All of them: each call takes something off the line. -/
def serialKeys (line : SerialLine) : List Int := serialCalls line.length line

theorem inputSequence_length (line : SerialLine) : ∀ val retries,
    (inputSequence val retries line).2.length ≤ line.length := by
  induction line with
  | nil =>
    intro val retries
    exact Nat.le_refl _
  | cons poll line ih =>
    intro val retries
    have hcons : line.length ≤ (poll :: line).length := Nat.le_succ _
    cases poll with
    | none =>
      rw [inputSequence]
      split
      · exact (ih _ _).trans hcons
      · exact hcons
    | some ret =>
      rw [inputSequence]
      cases letterKey ret with
      | some key => exact hcons
      | none =>
        simp only
        split
        · exact (ih _ _).trans hcons
        · exact hcons

theorem serialInputAgain_length (line : SerialLine) : ∀ ret,
    (serialInputAgain ret line).2.length ≤ line.length := by
  induction line with
  | nil =>
    intro ret
    unfold serialInputAgain
    split <;> exact Nat.le_refl _
  | cons poll line ih =>
    intro ret
    have hcons : line.length ≤ (poll :: line).length := Nat.le_succ _
    unfold serialInputAgain
    split
    · cases poll with
      | none => exact hcons
      | some ret =>
        simp only
        split
        · exact (inputSequence_length line 0 0).trans hcons
        · exact (ih ret).trans hcons
    · exact Nat.le_refl _

theorem serialInput_length (poll : Option UInt8) (line : SerialLine) :
    (serialInput (poll :: line)).2.length ≤ line.length := by
  cases poll with
  | none => exact Nat.le_refl _
  | some ret => exact serialInputAgain_length line ret

/-- More calls than there are polls change nothing. -/
theorem serialCalls_eq (n : Nat) : ∀ (n' : Nat) (line : SerialLine), line.length ≤ n → line.length ≤ n' →
    serialCalls n line = serialCalls n' line := by
  induction n with
  | zero =>
    intro n' line h _
    obtain rfl := List.length_eq_zero_iff.mp (Nat.le_zero.mp h)
    cases n' <;> rfl
  | succ n ih =>
    intro n' line h h'
    cases line with
    | nil => cases n' <;> rfl
    | cons poll line =>
      have hrest := serialInput_length poll line
      have hlen : (poll :: line).length = line.length + 1 := rfl
      obtain ⟨n', rfl⟩ : ∃ k, n' = k + 1 := ⟨n' - 1, by omega⟩
      rw [serialCalls, serialCalls, ih n' _ (by omega) (by omega)]

@[simp] theorem serialKeys_nil : serialKeys [] = [] := rfl

theorem serialKeys_cons {poll : Option UInt8} {line rest : SerialLine} {key : Int}
    (h : serialInput (poll :: line) = (key, rest)) : serialKeys (poll :: line) = key :: serialKeys rest := by
  have hlen := serialInput_length poll line
  rw [h] at hlen
  rw [serialKeys, List.length_cons, serialCalls, h, serialCalls_eq _ rest.length _ hlen (Nat.le_refl _)]
  rfl

end Limine.Menu
