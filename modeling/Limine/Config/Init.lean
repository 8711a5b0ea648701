import Limine.Config.MacroPasses
import Limine.Config.MenuTree

/-!
# Loading a configuration

`init_config` from the read file on: the text is stripped of carriage returns and of blanks at the ends
of its lines, its macros are expanded, the menu is built from it, and then a NUL is put before the first
menu entry, so that the options looked up without an entry are the global ones.
-/

namespace Limine.Config
open Limine.Menu (CString MenuTree)

/-- `'\r'` -/
def carriageReturn : UInt8 := 13

def isBlank (c : UInt8) : Bool := c = blank || c = tab

/-- How many bytes are taken out here: blanks before a line end, or carriage returns and, at the
start of a line, blanks. -/
def skipCount (prev : Option UInt8) (text : CString) : Nat :=
  let blanks := (text.takeWhile isBlank).length
  if 0 < blanks ∧ text[blanks]? = some separator then blanks
  else
    (text.takeWhile fun c => c = carriageReturn || (prev = none || prev = some separator) && isBlank c).length

/-- The loop at one byte, `prev` being the one before. -/
def stripFrom : Nat → Option UInt8 → CString → Exec CString
  | 0, _, _ => .error .outOfFuel
  | fuel + 1, prev, text =>
    if skipCount prev text ≠ 0 then stripFrom fuel prev (text.drop (skipCount prev text))
    else
      match text with
      | [] => .ok []
      | c :: rest => do
        let rest ← stripFrom fuel (some c) rest
        return c :: rest

/-- `while (*c != '/' && c > config_addr) c--;`, `c` as an offset. -/
def walkBack (text : CString) : Nat → Nat
  | 0 => 0
  | c + 1 => if text[c + 1]? ≠ some slash then walkBack text c else c + 1

/-- The text up to the NUL that ends the global options. -/
def globalScope (text : CString) : CString :=
  match configGetEntry text 0 with
  | none => text
  | some (entry, _) =>
    let c := walkBack text (text.length - entry.length)
    if text[c]? = some slash ∧ 0 < c then text.take (c - 1) else text

/-- What `init_config` leaves: `expanded` is the text before the NUL was put into it. -/
structure Loaded where
  menuTree : MenuTree
  expanded : CString
  config : CString
deriving DecidableEq, Repr

/-- `raw` is the file; the line end after it is the source's. -/
def initConfig (builtins : Builtins) (raw : CString) : Exec Loaded := do
  let text := raw ++ [separator]
  let text ← stripFrom (text.length + 1) none text
  let passes ← macroPasses builtins text
  let menuTree ← createMenuTree passes.text 1 0
  return { menuTree := menuTree, expanded := passes.text, config := globalScope passes.text }

theorem skipCount_le (prev : Option UInt8) (text : CString) : skipCount prev text ≤ text.length := by
  unfold skipCount
  dsimp only
  split
  · exact (List.takeWhile_sublist _).length_le
  · exact (List.takeWhile_sublist _).length_le

theorem stripFrom_ends (fuel : Nat) : ∀ (prev : Option UInt8) (text : CString), text.length < fuel →
    (stripFrom fuel prev text).Ensures True fun _ => True := by
  induction fuel with
  | zero =>
    intro prev text h
    omega
  | succ fuel ih =>
    intro prev text hlen
    rw [stripFrom.eq_def]
    dsimp only
    split
    · next hskip =>
      have hle := skipCount_le prev text
      apply ih
      rw [List.length_drop]
      omega
    · split
      · trivial
      · rw [List.length_cons] at hlen
        refine Exec.Ensures.bind (ih _ _ (by omega)) fun _ _ => ?_
        trivial

theorem isChild_end {text : CString} {d i : Nat} (h : (entryLines none text).length ≤ i) :
    isChild text d i = .notChild := by
  unfold isChild configGetEntryName
  rw [seekEntry_eq, List.getElem?_eq_none h]
  rfl

theorem checkNesting_ends (d : Nat) : (checkNesting d).Ensures True fun _ => True := by
  unfold checkNesting
  split
  · trivial
  · trivial

/-- Every entry line is passed once. -/
theorem menuLoop_ends (text : CString) (fuel : Nat) : ∀ d i : Nat, (entryLines none text).length - i < fuel →
    (menuLoop text fuel d i).Ensures True fun _ => True := by
  induction fuel with
  | zero =>
    intro d i h
    omega
  | succ fuel ih =>
    intro d i h
    have hmore : isChild text d i ≠ .notChild → (entryLines none text).length - (i + 1) < fuel := by
      intro hchild
      by_contra hend
      exact hchild (isChild_end (by omega))
    rw [menuLoop.eq_def]
    dsimp only
    cases hchild : isChild text d i with
    | notChild => trivial
    | indirect => exact ih d (i + 1) (hmore (by simp [hchild]))
    | direct =>
      have hlt := hmore (by simp [hchild])
      have hdir : (isDirectory text d i).Ensures True fun _ => True := by
        unfold isDirectory
        split
        · trivial
        · trivial
        · trivial
      refine Exec.Ensures.bind hdir fun directory _ => ?_
      have hnext := ih d (i + 1) hlt
      split
      · refine Exec.Ensures.bind (Exec.Ensures.bind (checkNesting_ends (d + 1)) fun _ _ => ih (d + 1) (i + 1) hlt)
          fun sub _ => Exec.Ensures.bind hnext fun _ _ => ?_
        trivial
      · show Exec.Ensures True _ (menuLoop text fuel d (i + 1) >>= _)
        refine Exec.Ensures.bind hnext fun _ _ => ?_
        trivial

theorem initConfig_ends (builtins : Builtins) (raw : CString) :
    (initConfig builtins raw).Ensures True fun r => r.config = globalScope r.expanded := by
  unfold initConfig
  refine Exec.Ensures.bind (stripFrom_ends _ _ _ (Nat.lt_succ_self _)) fun text _ => ?_
  refine Exec.Ensures.bind (macroPasses_ends builtins text) fun passes _ => ?_
  have htree : (createMenuTree passes.text 1 0).Ensures True fun _ => True := by
    refine Exec.Ensures.bind (checkNesting_ends 1) fun _ _ => menuLoop_ends _ _ _ _ ?_
    have hle := length_entryLines_le none passes.text
    omega
  exact Exec.Ensures.bind htree fun _ _ => rfl

end Limine.Config
