import Mathlib
import Limine.Menu.Gui

/-!
# The menu on a terminal

`terminal_draw` prints a window of the rows between the header and the last four lines, and
`terminal_hit_test` tells which row is on a line.  A `size_t` has `w` bits.  A row is taken to fill
one line; colours are left out.
-/

namespace Limine.Menu

/-- A terminal of at least the size that `menu_init_term` asks for, each line of it with two cells
in memory or more. -/
structure Terminal (w : Nat) where
  rows : Nat
  cols : Nat
  serialConsole : Bool
  rows_ge : 16 ≤ rows
  cols_ge : 40 ≤ cols
  rows_fit : 2 * rows ≤ 2 ^ w

/-- What `terminal_draw` uses of `struct menu_style`. -/
structure MenuStyle where
  branding : CString
  notice : Option CString
  helpHidden : Bool
  editorEnabled : Bool
  firmwareSetup : Bool
  uefiShell : Bool
deriving DecidableEq, Repr

/-- `struct menu_view`; each row takes two bytes of memory or more. -/
structure TerminalView (w : Nat) extends MenuView where
  comment : Option CString
  configReady : Bool
  countdown : Bool
  selected_size : selected < 2 ^ w
  rows_fit : 2 * rows.length ≤ 2 ^ w

/-- The statics `tree_offset`, `tree_row_start`, `tree_window` and `tree_count`. -/
structure TreeState where
  offset : Nat
  rowStart : Nat
  window : Nat
  count : Nat
deriving DecidableEq, Repr

/-- What goes to the terminal: text of the source, or a string it was given. -/
inductive Text
  | lit (s : String)
  | str (s : CString)
deriving DecidableEq, Repr

/-- What stands on a line; a row is unreadable where a parent is none of the rows. -/
inductive Item
  | branding (text : List Text)
  | noEntries (message : String)
  | row (index : Nat) (text : Option (List Text))
  | moreAbove (text : String)
  | moreBelow (text : String)
  | help (text : List Text)
  | comment (text : List Text)
  | notice (text : List Text)
deriving DecidableEq, Repr

/-- An item and the place it is printed from. -/
structure Printed where
  x : Nat
  y : Nat
  item : Item
deriving DecidableEq, Repr

/-- What a draw leaves behind: the statics and what it has printed. -/
structure TerminalDrawing where
  state : TreeState
  printed : List Printed
deriving DecidableEq, Repr

/-- `terminal_init`. -/
def terminalInit (st : TreeState) : TreeState := { st with offset := 0, count := 0 }

section
variable {w : Nat} (t : Terminal w)

def Terminal.pick (ascii unicode : String) : String := if t.serialConsole then ascii else unicode

/-! ## Help and comments -/

/-- The actions with their keys, as `print_help_action` separates them. -/
def helpText : List (String × String) → List Text
  | [] => []
  | [(key, label)] => [.lit key, .lit " ", .lit label]
  | (key, label) :: actions => .lit key :: .lit " " :: .lit label :: .lit "    " :: helpText actions

/-- The length `add_help_action_len` adds up. -/
def helpLen (actions : List (String × String)) : Nat :=
  (actions.map fun action => 2 + action.2.length).sum + 4 * (actions.length - 1)

/-- The actions there are, under these labels. -/
def secondaryActions (style : MenuStyle) (firmwareSetup uefiShell blankEntry : String) :
    List (String × String) :=
  (if style.firmwareSetup then [("S", firmwareSetup)] else []) ++
    (if style.uefiShell then [("U", uefiShell)] else []) ++
    (if style.editorEnabled then [("B", blankEntry)] else [])

/-- `print_secondary_help`. -/
def printSecondaryHelp (style : MenuStyle) (row : Nat) : Printed :=
  let actions := secondaryActions style "Firmware Setup" "UEFI Shell" "Blank Entry"
  let actions :=
    if t.cols < helpLen actions then secondaryActions style "Setup" "Shell" "Blank" else actions
  ⟨if helpLen actions < t.cols then (t.cols - helpLen actions) / 2 else 0, row, .help (helpText actions)⟩

/-- The text of a line of its own, cut short where the terminal has no room for it. -/
def fitted (s : CString) : List Text :=
  if s.length ≤ t.cols - 2 then [.str s] else [.str (s.take (t.cols - 2 - 3)), .lit "..."]

/-- The column it starts in. -/
def fittedAt (s : CString) : Nat := if s.length ≤ t.cols - 2 then (t.cols - s.length) / 2 else 1

/-- `print_entry_comment`. -/
def printEntryComment (item : List Text → Item) (comment : Option CString) (row : Nat) : List Printed :=
  match comment with
  | none => []
  | some s => [⟨fittedAt t s, row, item (fitted t s)⟩]

/-! ## Rows -/

/-- The row that lies `n` parents up. -/
def ancestor (rows : List MenuRow) : Nat → MenuRow → Option MenuRow
  | 0, row => some row
  | n + 1, row => (row.parent.bind fun i => rows[i]?).bind (ancestor rows n)

/-- What `print_rows` prints of a row. -/
def rowText (view : TerminalView w) (prefixLen index : Nat) : Option (List Text) := do
  let row ← view.rows[index]?
  let above ← ((List.range' 1 (row.depth - 1)).reverse).mapM fun n => ancestor view.rows n row
  let used := prefixLen + row.depth * 2 + 5
  let maxName := t.cols - used
  return (List.replicate prefixLen (.lit " ")) ++
    (above.map fun parent => .lit (if parent.hasNextSibling then t.pick " |" " \u2502" else "  ")) ++
    (if row.depth ≠ 0 then
      [.lit (if row.hasNextSibling then t.pick " |" " \u251c" else t.pick " `" " \u2514")] else []) ++
    [.lit (if row.directory then if row.expanded then "[-]" else "[+]"
      else if row.depth ≠ 0 then t.pick "-->" "\u2500\u2500\u25ba" else "   ")] ++
    (if index = view.selected then [.lit "\x1b[7m"] else []) ++
    (if maxName < row.name.length ∧ 3 < maxName then
      [.lit " ", .str (row.name.take (maxName - 3)), .lit "...\x1b[27m\n"]
    else [.lit " ", .str row.name, .lit " \x1b[27m\n"])

/-- The loop of `print_rows` over these rows; the cursor is at the start of line `y`. -/
def printRowsFrom (view : TerminalView w) (prefixLen : Nat) : List Nat → Nat → List Printed
  | [], _ => []
  | index :: indices, y =>
    ⟨0, y, .row index (rowText t view prefixLen index)⟩ ::
      printRowsFrom view prefixLen indices (y + 1)

/-- `print_rows`. -/
def printRows (st : TreeState) (view : TerminalView w) (prefixLen y : Nat) : List Printed :=
  let stop := (st.offset + st.window) % 2 ^ w
  let stop := if view.count < stop then view.count else stop
  printRowsFrom t view prefixLen (List.range' st.offset (stop - st.offset)) y

/-! ## Drawing -/

/-- Whether there is a second line of help; with help hidden its room stays. -/
def MenuStyle.secondaryHelp (style : MenuStyle) : Bool :=
  style.editorEnabled || style.firmwareSetup || style.uefiShell

def MenuStyle.headerOffset (style : MenuStyle) : Nat :=
  (if style.branding ≠ [] then 2 else 0) + (if style.secondaryHelp then 2 else 0)

/-- The scrolling at the start of `terminal_draw`. -/
def scroll (style : MenuStyle) (st : TreeState) (view : TerminalView w) : TreeState :=
  let window := t.rows - 8 - style.headerOffset
  let offset :=
    if (st.offset + window) % 2 ^ w ≤ view.selected then (view.selected + 2 ^ w - window + 1) % 2 ^ w
    else st.offset
  let offset := if view.selected < offset then view.selected else offset
  { st with offset := offset, window := window, count := view.count }

/-- The line of the first row. -/
def rowStartOf (style : MenuStyle) (st : TreeState) (view : TerminalView w) : Nat :=
  let height := if view.count < st.window then view.count else st.window
  let rowStart := (t.rows - height) / 2
  if rowStart < 4 + style.headerOffset then 4 + style.headerOffset else rowStart

/-- The blanks before each row. -/
def prefixLenOf (view : TerminalView w) : Nat :=
  let maxLen := (view.rows.map fun row => row.depth * 2 + 5 + row.name.length).foldl max 0
  if maxLen + 3 < t.cols then (t.cols - maxLen - 3) / 2 else 1

/-- The help on what the selected row does. -/
def primaryHelp (style : MenuStyle) (selected : MenuRow) : Printed :=
  let row := 1 + style.headerOffset - if style.secondaryHelp then 2 else 0
  if !selected.directory then
    if style.editorEnabled then
      ⟨(t.cols - 37) / 2, row, .help (helpText [("ARROWS", "Select"), ("ENTER", "Boot"), ("E", "Edit")])⟩
    else ⟨(t.cols - 27) / 2, row, .help (helpText [("ARROWS", "Select"), ("ENTER", "Boot")])⟩
  else
    let action := if selected.expanded then "Collapse" else "Expand"
    ⟨(t.cols - (23 + action.length)) / 2, row, .help (helpText [("ARROWS", "Select"), ("ENTER", action)])⟩

/-- What is printed before the rows: `y` is where the cursor is after the screen was cleared. -/
def printBranding (style : MenuStyle) (y : Nat) : List Printed :=
  if style.branding ≠ [] then [⟨fittedAt t style.branding, y, .branding (fitted t style.branding)⟩] else []

def noEntriesMessage (view : TerminalView w) : String :=
  if view.configReady then "[config file contains no valid entries]" else "[config file not found]"

/-- What is printed after the rows. -/
def printAround (style : MenuStyle) (st : TreeState) (view : TerminalView w) : List Printed :=
  (if view.count ≠ 0 then
    (if 0 < st.offset then
      [⟨(t.cols - 3) / 2, 3 + style.headerOffset, .moreAbove (t.pick "^^^" "\u2191\u2191\u2191")⟩] else []) ++
    (if (st.offset + st.window) % 2 ^ w < view.count then
      [⟨(t.cols - 3) / 2, t.rows - 4, .moreBelow (t.pick "vvv" "\u2193\u2193\u2193")⟩] else [])
  else []) ++
  (if !style.helpHidden then
    (if view.count ≠ 0 then (view.rows[view.selected]?.map (primaryHelp t style)).toList else []) ++
    (if style.secondaryHelp then [printSecondaryHelp t style (1 + style.headerOffset)] else [])
  else []) ++
  (if view.count ≠ 0 then
    printEntryComment t .comment view.comment (t.rows - if view.countdown then 3 else 2)
  else []) ++
  (if style.notice ≠ some [] then printEntryComment t .notice style.notice 0 else [])

/-- `terminal_draw`. -/
def terminalDraw (style : MenuStyle) (st : TreeState) (view : TerminalView w) : TerminalDrawing :=
  let st := scroll t style st view
  let header := printBranding t style 1
  if view.count = 0 then
    let message := noEntriesMessage view
    { state := st
      printed := header ++ [⟨(t.cols - message.length) / 2, (t.rows - 1) / 2, .noEntries message⟩] ++
        printAround t style st view }
  else
    let st := { st with rowStart := rowStartOf t style st view }
    { state := st
      printed := header ++ printRows t st view (prefixLenOf t view) st.rowStart ++
        printAround t style st view }

/-- `terminal_hit_test`. -/
def terminalHitTest (w : Nat) (st : TreeState) (_x y : Nat) : Option Nat :=
  if y < st.rowStart ∨ (st.rowStart + st.window) % 2 ^ w ≤ y then none
  else
    let target := (st.offset + y - st.rowStart) % 2 ^ w
    if st.count ≤ target then none else some target

/-- The statics after `terminal_init` and a sequence of draws. -/
def terminalRun (style : MenuStyle) (st : TreeState) (views : List (TerminalView w)) : TreeState :=
  views.foldl (fun st view => (terminalDraw t style st view).state) (terminalInit st)

end

/-- The row of the item, where it is one. -/
def Item.row? : Item → Option Nat
  | row index _ => some index
  | _ => none

/-- The lines above the rows. -/
def Item.isHeader : Item → Bool
  | branding _ | moreAbove _ | help _ | notice _ => true
  | _ => false

/-- Row `index` is printed on line `y`. -/
def TerminalDrawing.RowAt (d : TerminalDrawing) (index y : Nat) : Prop :=
  ∃ p ∈ d.printed, p.item.row? = some index ∧ p.y = y

/-- What is asked of a draw: the rows it prints exist and the selection is one of them; they lie
below the header and above the last four lines; and a line hits the row that is printed on it. -/
structure TerminalDrawOk {w : Nat} (t : Terminal w) (style : MenuStyle) (view : TerminalView w)
    (d : TerminalDrawing) : Prop where
  exist : ∀ index y, d.RowAt index y → index < view.count
  shows : 0 < view.count → ∃ y, d.RowAt view.selected y
  below : ∀ index y, d.RowAt index y →
    3 + style.headerOffset < y ∧ ∀ p ∈ d.printed, p.item.isHeader = true → p.y < y
  above : ∀ index y, d.RowAt index y → y < t.rows - 4
  hits : ∀ x y index, terminalHitTest w d.state x y = some index ↔ d.RowAt index y

section
variable {w : Nat} (t : Terminal w) (style : MenuStyle) {st : TreeState} (view : TerminalView w)

/-! ## The window -/

theorem wrap_cases {a m : Nat} (h : a < 2 * m) : a < m ∧ a % m = a ∨ m ≤ a ∧ a % m = a - m := by
  by_cases hlt : a < m
  · exact .inl ⟨hlt, Nat.mod_eq_of_lt hlt⟩
  · have hsub : a % m = a - m := by
      rw [Nat.mod_eq_sub_mod (by omega), Nat.mod_eq_of_lt (by omega)]
    exact .inr ⟨by omega, hsub⟩

theorem headerOffset_le : style.headerOffset ≤ 4 := by
  rw [MenuStyle.headerOffset]
  split <;> split <;> omega

theorem scroll_window : (scroll t style st view).window = t.rows - 8 - style.headerOffset := rfl

theorem scroll_count : (scroll t style st view).count = view.count := rfl

/-- **The selection is in the window**, wherever the window was and whatever the sums wrap to. -/
theorem scroll_selected (hoffset : st.offset < 2 ^ w) :
    (scroll t style st view).offset ≤ view.selected ∧
      view.selected < (scroll t style st view).offset + (scroll t style st view).window := by
  have hrows := t.rows_ge
  have hfit := t.rows_fit
  have hsize := view.selected_size
  have hheader := headerOffset_le style
  rw [scroll_window]
  rw [scroll]
  dsimp only
  generalize hw : t.rows - 8 - style.headerOffset = window at *
  generalize 2 ^ w = m at *
  have hend := wrap_cases (a := st.offset + window) (m := m) (by omega)
  have hmove := wrap_cases (a := view.selected + m - window + 1) (m := m) (by omega)
  by_cases hpast : (st.offset + window) % m ≤ view.selected
  · rw [if_pos hpast]
    split <;> omega
  · rw [if_neg hpast]
    split <;> omega

theorem scroll_offset_lt (hoffset : st.offset < 2 ^ w) : (scroll t style st view).offset < 2 ^ w :=
  Nat.lt_of_le_of_lt (scroll_selected t style view hoffset).1 view.selected_size

/-- The rows of the window that there are. -/
theorem scroll_end (hoffset : st.offset < 2 ^ w) (h0 : 0 < view.count) :
    ((scroll t style st view).offset + (scroll t style st view).window) % 2 ^ w =
      (scroll t style st view).offset + (scroll t style st view).window := by
  have hrows := t.rows_ge
  have hfit := t.rows_fit
  have hcount := view.rows_fit
  have hsel := view.selected_lt (List.ne_nil_of_length_pos h0)
  have hle := (scroll_selected t style view hoffset).1
  rw [scroll_window] at *
  exact Nat.mod_eq_of_lt (by omega)

/-! ## What is printed -/

theorem mem_printRowsFrom {prefixLen first n y : Nat} {p : Printed} :
    p ∈ printRowsFrom t view prefixLen (List.range' first n) y ↔
      ∃ k < n, p = ⟨0, y + k, .row (first + k) (rowText t view prefixLen (first + k))⟩ := by
  induction n generalizing first y with
  | zero => simp [printRowsFrom]
  | succ n ih =>
    rw [List.range'_succ, printRowsFrom, List.mem_cons, ih]
    constructor
    · rintro (rfl | ⟨k, hk, rfl⟩)
      · exact ⟨0, by omega, rfl⟩
      · exact ⟨k + 1, by omega, by rw [Nat.add_right_comm y 1 k, Nat.add_right_comm first 1 k]; rfl⟩
    · rintro ⟨k, hk, rfl⟩
      cases k with
      | zero => exact .inl rfl
      | succ k =>
        exact .inr ⟨k, by omega, by rw [Nat.add_right_comm y 1 k, Nat.add_right_comm first 1 k]; rfl⟩

/-- An item that is not a row and, if it belongs to the header, lies above line `4 + offset`. -/
def Aside (style : MenuStyle) (p : Printed) : Prop :=
  p.item.row? = none ∧ (p.item.isHeader = true → p.y ≤ 3 + style.headerOffset)

theorem printBranding_aside : ∀ p ∈ printBranding t style 1, Aside style p := by
  intro p hp
  rw [printBranding] at hp
  split at hp
  · rw [List.mem_singleton.mp hp]
    exact ⟨rfl, fun _ => show 1 ≤ _ by omega⟩
  · simp at hp

theorem printEntryComment_aside {item : List Text → Item} {row : Nat} (hitem : ∀ text, (item text).row? = none)
    (hrow : ∀ text, (item text).isHeader = true → row ≤ 3 + style.headerOffset) (comment : Option CString) :
    ∀ p ∈ printEntryComment t item comment row, Aside style p := by
  intro p hp
  cases comment with
  | none => simp [printEntryComment] at hp
  | some s =>
    rw [printEntryComment, List.mem_singleton] at hp
    rw [hp]
    exact ⟨hitem _, hrow _⟩

theorem primaryHelp_aside (selected : MenuRow) : Aside style (primaryHelp t style selected) := by
  rw [primaryHelp]
  dsimp only
  split
  · split
    · exact ⟨rfl, fun _ => show 1 + _ - _ ≤ _ by omega⟩
    · exact ⟨rfl, fun _ => show 1 + _ - _ ≤ _ by omega⟩
  · exact ⟨rfl, fun _ => show 1 + _ - _ ≤ _ by omega⟩

theorem printAround_aside (st : TreeState) : ∀ p ∈ printAround t style st view, Aside style p := by
  intro p hp
  rw [printAround, List.mem_append, List.mem_append, List.mem_append] at hp
  rcases hp with ((hp | hp) | hp) | hp
  · split at hp
    · rcases List.mem_append.mp hp with hp | hp
      · split at hp
        · rw [List.mem_singleton.mp hp]
          exact ⟨rfl, fun _ => Nat.le_refl _⟩
        · simp at hp
      · split at hp
        · rw [List.mem_singleton.mp hp]
          exact ⟨rfl, fun h => absurd h (by simp [Item.isHeader])⟩
        · simp at hp
    · simp at hp
  · split at hp
    · rcases List.mem_append.mp hp with hp | hp
      · split at hp
        · obtain ⟨selected, -, rfl⟩ := by simpa using hp
          exact primaryHelp_aside t style selected
        · simp at hp
      · split at hp
        · rw [List.mem_singleton.mp hp]
          exact ⟨rfl, fun _ => show 1 + _ ≤ _ by omega⟩
        · simp at hp
    · simp at hp
  · split at hp
    · exact printEntryComment_aside t style (fun _ => rfl) (fun _ h => absurd h (by simp [Item.isHeader])) _ p hp
    · simp at hp
  · split at hp
    · exact printEntryComment_aside t style (fun _ => rfl) (fun _ _ => Nat.zero_le _) _ p hp
    · simp at hp

/-- The statics while the rows are printed. -/
def drawnState (style : MenuStyle) (st : TreeState) (view : TerminalView w) : TreeState :=
  { scroll t style st view with rowStart := rowStartOf t style (scroll t style st view) view }

/-- **The rows that are printed**, and where. -/
theorem rowAt_iff (hoffset : st.offset < 2 ^ w) (h0 : 0 < view.count) (index y : Nat) :
    (terminalDraw t style st view).RowAt index y ↔
      ∃ k < (scroll t style st view).window, (scroll t style st view).offset + k < view.count ∧
        index = (scroll t style st view).offset + k ∧
        y = rowStartOf t style (scroll t style st view) view + k := by
  have hdraw : (terminalDraw t style st view).printed =
      printBranding t style 1 ++ printRows t (drawnState t style st view) view (prefixLenOf t view)
        (rowStartOf t style (scroll t style st view) view) ++
      printAround t style (drawnState t style st view) view := by
    rw [terminalDraw, if_neg (by omega)]
    rfl
  have hstop : (if view.count < ((scroll t style st view).offset + (scroll t style st view).window) % 2 ^ w
      then view.count
      else ((scroll t style st view).offset + (scroll t style st view).window) % 2 ^ w) =
      min ((scroll t style st view).offset + (scroll t style st view).window) view.count := by
    rw [scroll_end t style view hoffset h0]
    split <;> omega
  have hrows (p : Printed) : p ∈ printRows t (drawnState t style st view) view (prefixLenOf t view)
      (rowStartOf t style (scroll t style st view) view) ↔ ∃ k < (scroll t style st view).window,
        (scroll t style st view).offset + k < view.count ∧
        p = ⟨0, rowStartOf t style (scroll t style st view) view + k,
          .row ((scroll t style st view).offset + k)
            (rowText t view (prefixLenOf t view) ((scroll t style st view).offset + k))⟩ := by
    rw [printRows]
    show p ∈ printRowsFrom t view _ (List.range' _ ((if view.count < (_ + _) % 2 ^ w then _ else _) - _)) _ ↔ _
    rw [show (drawnState t style st view).offset = (scroll t style st view).offset from rfl,
      show (drawnState t style st view).window = (scroll t style st view).window from rfl, hstop,
      mem_printRowsFrom]
    constructor
    · rintro ⟨k, hk, rfl⟩
      exact ⟨k, by omega, by omega, rfl⟩
    · rintro ⟨k, hk, hcount, rfl⟩
      exact ⟨k, by omega, rfl⟩
  rw [TerminalDrawing.RowAt, hdraw]
  constructor
  · rintro ⟨p, hp, hrow, rfl⟩
    rw [List.mem_append, List.mem_append] at hp
    rcases hp with (hp | hp) | hp
    · rw [(printBranding_aside t style p hp).1] at hrow
      cases hrow
    · obtain ⟨k, hk, hcount, rfl⟩ := (hrows p).mp hp
      exact ⟨k, hk, hcount, (Option.some.inj hrow).symm, rfl⟩
    · rw [(printAround_aside t style view _ p hp).1] at hrow
      cases hrow
  · rintro ⟨k, hk, hcount, rfl, rfl⟩
    exact ⟨_, List.mem_append_left _ (List.mem_append_right _ ((hrows _).mpr ⟨k, hk, hcount, rfl⟩)), rfl, rfl⟩

theorem no_rowAt (h0 : view.count = 0) (index y : Nat) : ¬(terminalDraw t style st view).RowAt index y := by
  rintro ⟨p, hp, hrow, -⟩
  rw [terminalDraw, if_pos h0, List.mem_append, List.mem_append] at hp
  rcases hp with (hp | hp) | hp
  · rw [(printBranding_aside t style p hp).1] at hrow
    cases hrow
  · rw [List.mem_singleton.mp hp] at hrow
    cases hrow
  · rw [(printAround_aside t style view _ p hp).1] at hrow
    cases hrow

theorem printRows_isHeader {st : TreeState} {prefixLen y : Nat} :
    ∀ p ∈ printRows t st view prefixLen y, p.item.isHeader = false := by
  intro p hp
  obtain ⟨k, -, rfl⟩ := (mem_printRowsFrom t view).mp hp
  rfl

theorem header_le : ∀ p ∈ (terminalDraw t style st view).printed, p.item.isHeader = true →
    p.y ≤ 3 + style.headerOffset := by
  intro p hp hheader
  rw [terminalDraw] at hp
  split at hp
  · rw [List.mem_append, List.mem_append] at hp
    rcases hp with (hp | hp) | hp
    · exact (printBranding_aside t style p hp).2 hheader
    · rw [List.mem_singleton.mp hp] at hheader
      cases hheader
    · exact (printAround_aside t style view _ p hp).2 hheader
  · rw [List.mem_append, List.mem_append] at hp
    rcases hp with (hp | hp) | hp
    · exact (printBranding_aside t style p hp).2 hheader
    · rw [printRows_isHeader t view p hp] at hheader
      cases hheader
    · exact (printAround_aside t style view _ p hp).2 hheader

/-! ## Draws -/

/-- The lines of the rows that fit. -/
theorem rowStartOf_bounds (st : TreeState) (hwindow : st.window = t.rows - 8 - style.headerOffset) :
    4 + style.headerOffset ≤ rowStartOf t style st view ∧ rowStartOf t style st view ≤ t.rows ∧
      ∀ k < st.window, k < view.count → rowStartOf t style st view + k < t.rows - 4 := by
  have hrows := t.rows_ge
  have hheader := headerOffset_le style
  have hheight : (if view.count < st.window then view.count else st.window) = min view.count st.window := by
    split <;> omega
  rw [rowStartOf, hheight]
  refine ⟨?_, ?_, fun k hk hcount => ?_⟩
  · split <;> omega
  · split <;> omega
  · split <;> omega

/-- **A hit is the row on the line.** -/
theorem terminalHitTest_iff (hoffset : st.offset < 2 ^ w) (x y index : Nat) :
    terminalHitTest w (terminalDraw t style st view).state x y = some index ↔
      (terminalDraw t style st view).RowAt index y := by
  by_cases h0 : view.count = 0
  · have hstate : (terminalDraw t style st view).state = scroll t style st view := by
      rw [terminalDraw, if_pos h0]
    constructor
    · intro h
      rw [hstate, terminalHitTest, scroll_count, h0] at h
      split at h
      · cases h
      · dsimp only at h
        rw [if_pos (Nat.zero_le _)] at h
        cases h
    · intro h
      exact absurd h (no_rowAt t style view h0 index y)
  · have hpos : 0 < view.count := by omega
    have hstate : (terminalDraw t style st view).state = drawnState t style st view := by
      rw [terminalDraw, if_neg h0]
      rfl
    have hrows := t.rows_ge
    have hfit := t.rows_fit
    have hcount := view.rows_fit
    have hselected := scroll_selected t style view hoffset
    have hsel := view.selected_lt (List.ne_nil_of_length_pos hpos)
    have hwindow : (scroll t style st view).window = t.rows - 8 - style.headerOffset := scroll_window t style view
    have hbounds := rowStartOf_bounds t style view (scroll t style st view) hwindow
    rw [rowAt_iff t style view hoffset hpos, hstate, terminalHitTest]
    show (if y < rowStartOf t style (scroll t style st view) view ∨
      (rowStartOf t style (scroll t style st view) view + (scroll t style st view).window) % 2 ^ w ≤ y then none
      else if view.count ≤ ((scroll t style st view).offset + y -
        rowStartOf t style (scroll t style st view) view) % 2 ^ w then none
      else some (((scroll t style st view).offset + y -
        rowStartOf t style (scroll t style st view) view) % 2 ^ w)) = some index ↔ _
    generalize rowStartOf t style (scroll t style st view) view = rowStart at *
    generalize scroll t style st view = st' at *
    have hend : (rowStart + st'.window) % 2 ^ w = rowStart + st'.window := Nat.mod_eq_of_lt (by omega)
    rw [hend]
    by_cases hout : y < rowStart ∨ rowStart + st'.window ≤ y
    · rw [if_pos hout]
      constructor
      · intro h
        cases h
      · rintro ⟨k, hk, -, -, rfl⟩
        omega
    · have htarget : (st'.offset + y - rowStart) % 2 ^ w = st'.offset + (y - rowStart) := by
        rw [Nat.add_sub_assoc (by omega), Nat.mod_eq_of_lt (by omega)]
      rw [if_neg hout, htarget]
      constructor
      · intro h
        split at h
        · cases h
        · exact ⟨y - rowStart, by omega, by omega, (Option.some.inj h).symm, by omega⟩
      · rintro ⟨k, hk, hlt, rfl, rfl⟩
        rw [if_neg (by omega), Nat.add_sub_cancel_left]

theorem terminalDraw_ok (hoffset : st.offset < 2 ^ w) :
    TerminalDrawOk t style view (terminalDraw t style st view) where
  exist := by
    intro index y h
    rcases Nat.eq_zero_or_pos view.count with h0 | hpos
    · exact absurd h (no_rowAt t style view h0 index y)
    · obtain ⟨k, -, hlt, rfl, -⟩ := (rowAt_iff t style view hoffset hpos index y).mp h
      exact hlt
  shows := by
    intro hpos
    have hselected := scroll_selected t style view hoffset
    have hsel := view.selected_lt (List.ne_nil_of_length_pos hpos)
    refine ⟨_, (rowAt_iff t style view hoffset hpos _ _).mpr
      ⟨view.selected - (scroll t style st view).offset, by omega, ?_, by omega, rfl⟩⟩
    show _ < view.rows.length
    omega
  below := by
    intro index y h
    rcases Nat.eq_zero_or_pos view.count with h0 | hpos
    · exact absurd h (no_rowAt t style view h0 index y)
    · obtain ⟨k, -, -, -, rfl⟩ := (rowAt_iff t style view hoffset hpos index y).mp h
      have hstart := (rowStartOf_bounds t style view (scroll t style st view) (scroll_window t style view)).1
      refine ⟨by omega, fun p hp hheader => ?_⟩
      have hle := header_le t style view p hp hheader
      omega
  above := by
    intro index y h
    rcases Nat.eq_zero_or_pos view.count with h0 | hpos
    · exact absurd h (no_rowAt t style view h0 index y)
    · obtain ⟨k, hk, hlt, -, rfl⟩ := (rowAt_iff t style view hoffset hpos index y).mp h
      exact (rowStartOf_bounds t style view _ (scroll_window t style view)).2.2 k hk (by omega)
  hits := terminalHitTest_iff t style view hoffset

theorem terminalDraw_offset_lt (hoffset : st.offset < 2 ^ w) :
    (terminalDraw t style st view).state.offset < 2 ^ w := by
  have hlt := scroll_offset_lt t style view hoffset
  rw [terminalDraw]
  split
  · exact hlt
  · exact hlt

end

theorem terminalRun_offset_lt {w : Nat} (t : Terminal w) (style : MenuStyle) (st : TreeState)
    (views : List (TerminalView w)) : (terminalRun t style st views).offset < 2 ^ w := by
  have hstep : ∀ (views : List (TerminalView w)) (st : TreeState), st.offset < 2 ^ w →
      (views.foldl (fun st view => (terminalDraw t style st view).state) st).offset < 2 ^ w := by
    intro views
    induction views with
    | nil => exact fun st h => h
    | cons view views ih => exact fun st h => ih _ (terminalDraw_offset_lt t style view h)
  exact hstep views _ (Nat.two_pow_pos w)

/-- **Scrolling and hit test.**  After `terminal_init` and any draws, another draw prints rows that
exist, the selected one among them, below the header and above the last four lines, and a line of
the terminal hits the row that is printed on it; before the first draw no line hits anything. -/
theorem terminal_draws_ok {w : Nat} (t : Terminal w) (style : MenuStyle) (st : TreeState)
    (views : List (TerminalView w)) (view : TerminalView w) :
    TerminalDrawOk t style view (terminalDraw t style (terminalRun t style st views) view) ∧
    ∀ x y, terminalHitTest w (terminalInit st) x y = none := by
  refine ⟨terminalDraw_ok t style view (terminalRun_offset_lt t style st views), fun x y => ?_⟩
  rw [terminalHitTest, terminalInit]
  dsimp only
  rw [if_pos (Nat.zero_le _), ite_self]

end Limine.Menu
