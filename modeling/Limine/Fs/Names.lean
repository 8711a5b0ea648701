import Mathlib.Data.List.TakeWhile
import Limine.Config.Lookup

/-!
# Names

The string functions file systems compare names with, as the equalities they are asked for.
-/

namespace Limine.Fs
open Limine.Config (tolower)

/-- A buffer as the string that ends with its first NUL. -/
def cString (buf : List UInt8) : List UInt8 := buf.takeWhile (· ≠ 0)

def strcmpEq (a b : List UInt8) : Bool := cString a = cString b

def strcasecmpEq (a b : List UInt8) : Bool := (cString a).map tolower = (cString b).map tolower

def strncmpEq (a b : List UInt8) (n : Nat) : Bool := cString (a.take n) = cString (b.take n)

def toupper (c : UInt8) : UInt8 := if 97 ≤ c ∧ c ≤ 122 then c - 32 else c

theorem cString_eq_self {s : List UInt8} (h : ∀ c ∈ s, c ≠ 0) : cString s = s := by
  unfold cString
  have hall : (s ++ []).takeWhile (fun c => decide (c ≠ 0)) = s ++ [].takeWhile fun c => decide (c ≠ 0) :=
    List.takeWhile_append_of_pos fun c hc => by simpa using h c hc
  simpa using hall

theorem cString_ne_zero {s : List UInt8} : ∀ c ∈ cString s, c ≠ 0 := by
  intro c hc
  have := List.mem_takeWhile_imp hc
  simpa using this

end Limine.Fs
