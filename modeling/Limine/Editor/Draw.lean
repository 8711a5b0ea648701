import Mathlib.Logic.Function.Iterate
import Limine.Fs.Names
import Limine.Editor.Buffer

/-!
# Drawing the editor

`config_entry_editor` from its label `refresh` to the wait for a key.  The text is walked from its
start; what falls in the window is printed, and each cell that a character goes to is marked with
the place of the character.  The terminal is a parameter: where its cursor is may depend in any way
on what has been printed.
-/

namespace Limine.Editor

open Limine.Lib Limine.Menu

/-- What goes to the terminal. -/
inductive Out
  | text (s : String)
  | bytes (s : CString)
  | moveTo (x y : Nat)
deriving DecidableEq, Repr

/-- `terms[0]`; `cursorAfter` is what `get_cursor_pos` tells after the output so far. -/
structure Screen where
  rows : Nat
  cols : Nat
  serialConsole : Bool
  cursorAfter : List Out → Nat × Nat
  rows_ge : 10 ≤ rows
  cols_ge : 10 ≤ cols

/-- What stays the same as long as an entry is edited. -/
structure Settings where
  title : CString
  branding : CString
  brandingColour : CString
  helpColour : CString
  syntaxHighlighting : Bool
  validation : Bool
deriving DecidableEq, Repr

inductive Token
  | key
  | equals
  | value
  | badkey
  | comment
deriving DecidableEq, Repr

def validKeys : List String :=
  ["COMMENT", "PROTOCOL", "CMDLINE", "PATH", "KERNEL_CMDLINE", "KERNEL_PATH", "MODULE_PATH",
    "MODULE_STRING", "MODULE_CMDLINE", "RESOLUTION", "TEXTMODE", "KASLR", "RANDOMISE_HHDM_BASE",
    "RANDOMIZE_HHDM_BASE", "PAGING_MODE", "MAX_PAGING_MODE", "MIN_PAGING_MODE", "DRIVE", "PARTITION",
    "MBR_ID", "GPT_GUID", "GPT_UUID", "IMAGE_PATH", "DTB_PATH", "ENTRY", "IF_FW_TYPE", "IF_ARCH",
    "IF_LOADER_ARCH"]

def keyBytes (s : String) : CString := s.toList.map fun c => UInt8.ofNat c.toNat

def colon : UInt8 := 58

/-- The loop of `validate_line`: what it copies, and whether a colon ends it. -/
def keybufOf : Nat → List UInt8 → Except Fault (CString × Bool)
  | _, [] => .error .outside
  | 0, _ :: _ => .ok ([], false)
  | n + 1, c :: bytes =>
    if c = 0 then .ok ([], false)
    else if c = colon then .ok ([], true)
    else do
      let (keybuf, found) ← keybufOf n bytes
      .ok (c :: keybuf, found)

/-- `validate_line` of the line that `bytes` starts with. -/
def validateLine (s : Settings) (bytes : List UInt8) : Except Fault Token :=
  if !s.validation then .ok .key
  else
    match bytes with
    | [] => .error .outside
    | c :: _ =>
      if c = 35 then .ok .comment
      else do
        let (keybuf, found) ← keybufOf 64 bytes
        if found && validKeys.any fun key => Fs.strcasecmpEq keybuf (keyBytes key) then .ok .key
        else if keybuf.headD 0 = newline ∨ keybuf.headD 0 = 0 ∧ c ≠ colon then .ok .key
        else .ok .badkey

/-- `putchar_tokencol` -/
def putcharTokencol (token : Token) (c : UInt8) : List Out :=
  let colour := match token with
    | .key => "\x1b[36m"
    | .equals => "\x1b[32m"
    | .value => "\x1b[39m"
    | .badkey => "\x1b[31m"
    | .comment => "\x1b[33m"
  [.text colour, .bytes [c], .text "\x1b[0m"]

/-- `cell_map`, row after row; `none` is `(size_t)-1`. -/
abbrev Cells := List (Option Nat)

section
variable (t : Screen) (s : Settings)

def Screen.pick (ascii unicode : String) : Out := .text (if t.serialConsole then ascii else unicode)

/-- `get_cursor_pos` after some output. -/
def Screen.pos (out : List Out) : Nat × Nat := t.cursorAfter out

/-- `_window_size` -/
def windowSize : Nat := t.rows - 7 + if s.branding = [] then 2 else 0

/-- `line_size` -/
def lineSize : Nat := t.cols - 2

/-- `editor_map_cell` -/
def editorMapCell (cells : Cells) (out : List Out) (index : Nat) : Except Fault Cells :=
  let (x, y) := t.pos out
  if x < t.cols ∧ y < t.rows then
    if y * t.cols + x < cells.length then .ok (cells.set (y * t.cols + x) (some index))
    else .error .outside
  else .ok cells

/-- The loop of `editor_cell_to_offset` from cell `i - 1` of row `y` to the left. -/
def cellToOffsetFrom (cells : Cells) (y : Nat) : Nat → Except Fault (Option Nat)
  | 0 => .ok none
  | i + 1 =>
    match cells[y * t.cols + i]? with
    | none => .error .outside
    | some (some offset) => .ok (some offset)
    | some none => cellToOffsetFrom cells y i

/-- `editor_cell_to_offset` -/
def editorCellToOffset (cells : Cells) (x y : Nat) : Except Fault (Option Nat) :=
  if t.rows ≤ y then .ok none
  else cellToOffsetFrom t cells y ((if t.cols ≤ x then t.cols - 1 else x) + 1)

/-! ## The frame -/

def printHeader : List Out :=
  let out := [.text "\x1b[2J\x1b[H", .text "\n"]
  let out :=
    if s.branding ≠ [] then
      let y := (t.pos out).2
      out ++ (if s.branding.length ≤ t.cols - 2 then
          [.moveTo ((t.cols - s.branding.length) / 2) y, .bytes s.brandingColour, .bytes s.branding]
        else
          [.moveTo 1 y, .bytes s.brandingColour, .bytes (s.branding.take (t.cols - 2 - 3)), .text "..."]) ++
        [.text "\x1b[0m", .text "\n\n"]
    else out
  out ++ [.moveTo (if 39 < t.cols then (t.cols - 39) / 2 else 0) (t.pos out).2, .bytes s.helpColour,
    .text "ESC\x1b[0m Discard and Exit    ", .bytes s.helpColour, .text "F10/CTRL+X\x1b[0m Boot", .text "\n\n"]

/-- A border from column `i` on: `arrow`, where there is one, in its columns 1 to 3, and `box` from
its own column on, which is `boxLen` long. -/
def border (arrow : Option Out) (box : List Out) (boxAt boxLen : Nat) : Nat → Nat → List Out
  | 0, _ => []
  | fuel + 1, i =>
    if t.cols - 2 ≤ i then []
    else
      match if 1 ≤ i ∧ i ≤ 3 then arrow else none with
      | some arrow => arrow :: border arrow box boxAt boxLen fuel (i + 1)
      | none =>
        if box ≠ [] ∧ i = boxAt then box ++ border arrow box boxAt boxLen fuel (i + boxLen)
        else t.pick "-" "\u2500" :: border arrow box boxAt boxLen fuel (i + 1)

/-- The border above the window, with the title. -/
def printTop (windowRow : Nat) : List Out :=
  let maxTitle := t.cols - 4
  let truncated := maxTitle < s.title.length ∧ 3 < maxTitle
  let displayLength := if truncated then maxTitle else s.title.length
  let title := if truncated then [.bytes (s.title.take (displayLength - 3)), .text "..."] else [.bytes s.title]
  t.pick "/" "\u250c" ::
    border t (if 0 < windowRow then some (t.pick "^" "\u2191") else none)
      (t.pick "|" "\u2524" :: title ++ [t.pick "|" "\u251c"]) ((t.cols - displayLength - 4) / 2)
      (displayLength + 2) (t.cols - 2) 0

/-- The border below the window. -/
def printBottom (full below : Bool) : List Out :=
  border t (if below then some (t.pick "v" "\u2193") else none)
    (if full then [t.pick "|" "\u2524", .text "\x1b[31mBuffer full\x1b[0m", t.pick "|" "\u251c"] else [])
    ((t.cols - 11 - 4) / 2) (11 + 2) (t.cols - 2) 0

/-- The right border of a row of the window, and what the next one starts with. -/
def endRow (out : List Out) (next : Out) : List Out :=
  let out := out ++ [.moveTo (t.cols - 1) (t.pos out).2]
  out ++ [t.pick "|" "\u2502", .moveTo 0 ((t.pos out).2 + 1), next]

/-- The same below the text, where the row is the one that the cursor was on before. -/
def emptyRow (out : List Out) (next : Out) : List Out :=
  let y := (t.pos out).2
  out ++ [.moveTo (t.cols - 1) y, t.pick "|" "\u2502", .moveTo 0 (y + 1), next]

def emptyRows : Nat → List Out → List Out
  | 0, out => out
  | n + 1, out => emptyRows n (emptyRow t out (t.pick "|" "\u2502"))

/-! ## The walk -/

/-- What the walk over the text keeps. -/
structure Walk where
  out : List Out
  cells : Cells
  cursor : Nat × Nat
  screenRow : Nat
  lineOffset : Nat
  cursorRow : Nat
  printedCursor : Bool
  token : Token

variable (windowRow : Nat)

/-- The row is in the window. -/
def Walk.visible (w : Walk) : Bool := windowRow ≤ w.screenRow ∧ w.screenRow < windowRow + windowSize t s

/-- A character in a cell of its own. -/
def Walk.put (i : Nat) (c : UInt8) (w : Walk) : Except Fault Walk := do
  let cells ← editorMapCell t w.cells w.out i
  .ok { w with
    cells := cells
    out := w.out ++ if s.syntaxHighlighting then putcharTokencol w.token c else [.bytes [c]] }

/-- What is printed where a row of the window is full, or the one before the window. -/
def wrapRow (i : Nat) (c : UInt8) (w : Walk) : Except Fault Walk :=
  if w.visible t s windowRow then do
    let w ← w.put t s i c
    let y := (t.pos w.out).2
    .ok { w with
      out := w.out ++ [t.pick ">" "\u2192", .moveTo 0 (y + 1),
        if t.rows - 2 ≤ y then t.pick "\\" "\u2514" else t.pick "<" "\u2190"] }
  else if w.screenRow + 1 = windowRow then
    .ok { w with out := w.out ++ [.moveTo 0 (t.pos w.out).2, t.pick "<" "\u2190"] }
  else .ok w

def showCell (i : Nat) (c : UInt8) (w : Walk) : Except Fault Walk :=
  if w.lineOffset % lineSize t = lineSize t - 1 then do
    let w ← wrapRow t s windowRow i c w
    .ok { w with screenRow := w.screenRow + 1 }
  else if w.visible t s windowRow then w.put t s i c
  else .ok w

/-- One turn from the label `tab_part` on, for a character that ends no line. -/
def cell (i : Nat) (c : UInt8) (w : Walk) : Except Fault Walk := do
  let w ← showCell t s windowRow i c w
  .ok { w with
    lineOffset := w.lineOffset + 1
    token := if w.token = .equals then .value else w.token }

/-- The blanks a tab is printed as. -/
def tabCells (i : Nat) : Nat → Walk → Except Fault Walk
  | 0, w => .ok w
  | tabSpaceCount + 1, w => do
    let w ← cell t s windowRow i 32 w
    tabCells i tabSpaceCount w

def showNewline (i : Nat) (w : Walk) : Except Fault Walk :=
  if w.visible t s windowRow then do
    let cells ← editorMapCell t w.cells w.out i
    let next :=
      if w.screenRow = windowRow + windowSize t s - 1 then t.pick "\\" "\u2514" else t.pick "|" "\u2502"
    .ok { w with cells := cells, out := endRow t w.out next }
  else .ok w

/-- The row of a line ends; `bytes` is what follows its newline. -/
def lineBreak (i : Nat) (bytes : List UInt8) (w : Walk) : Except Fault Walk := do
  let w ← showNewline t s windowRow i w
  let token ← validateLine s bytes
  .ok { w with lineOffset := 0, token := token, screenRow := w.screenRow + 1 }

/-- A character of the text, which `bytes` follows. -/
def character (i : Nat) (c : UInt8) (bytes : List UInt8) (w : Walk) : Except Fault Walk :=
  if c = tab then tabCells t s windowRow i (8 - w.lineOffset % 8) w
  else if c = newline then lineBreak t s windowRow i bytes w
  else
    cell t s windowRow i c (if w.token = .key ∧ c = colon then { w with token := .equals } else w)

/-- The cursor is taken where its character starts. -/
def Walk.takeCursor (cursorOffset i : Nat) (w : Walk) : Walk :=
  if i = cursorOffset then
    if w.visible t s windowRow then
      { w with cursorRow := w.screenRow, cursor := t.pos w.out, printedCursor := true }
    else { w with cursorRow := w.screenRow }
  else w

/-- The loop over the text, of which `bytes` starts at byte `i`. -/
def walk (cursorOffset : Nat) : List UInt8 → Nat → Walk → Except Fault Walk
  | [], _, _ => .error .outside
  | c :: bytes, i, w => do
    let w := w.takeCursor t s windowRow cursorOffset i
    if c = 0 then
      if w.visible t s windowRow then do
        let cells ← editorMapCell t w.cells w.out i
        .ok { w with cells := cells }
      else .ok w
    else do
      let w ← character t s windowRow i c bytes w
      walk cursorOffset bytes (i + 1) w

/-! ## The refresh -/

/-- What the walk starts from. -/
def walkStart (buffer : Buffer) : Except Fault Walk := do
  let out := printHeader t s ++ printTop t s windowRow
  let out := out ++ [t.pick "\\" "\u2510", .moveTo 0 ((t.pos out).2 + 1), t.pick "|" "\u2502"]
  let token ← validateLine s buffer.bytes
  .ok
    { out := out
      cells := List.replicate (t.cols * t.rows) none
      cursor := t.pos out
      screenRow := 0
      lineOffset := 0
      cursorRow := 0
      printedCursor := false
      token := token }

/-- What is on the screen while the editor waits. -/
structure Drawn where
  windowRow : Nat
  cells : Cells
  out : List Out

/-- What is printed once the window is settled. -/
def finishRefresh (buffer : Buffer) (w : Walk) : Except Fault Drawn := do
  let used := w.screenRow - windowRow
  let out :=
    if used < windowSize t s then
      emptyRow t (emptyRows t (windowSize t s - used - 1) w.out) (t.pick "\\" "\u2514")
    else w.out
  let length ← strlen buffer
  .ok
    { windowRow := windowRow
      cells := w.cells
      out := out ++
        printBottom t (editorMaxBufferSize - 1 ≤ length) (windowSize t s ≤ used) ++
        [t.pick "/" "\u2518", .moveTo w.cursor.1 w.cursor.2] }

end

/-- The label `refresh`. -/
def refresh (t : Screen) (s : Settings) (buffer : Buffer) (cursorOffset : Nat) :
    Nat → Nat → Except Fault Drawn
  | 0, _ => .error .outOfFuel
  | fuel + 1, windowRow => do
    let w ← walkStart t s windowRow buffer
    let w ← walk t s windowRow cursorOffset buffer.bytes 0 w
    let anchor :=
      if windowRow + windowSize t s ≤ w.cursorRow then w.cursorRow - windowSize t s + 1 else w.cursorRow
    if !w.printedCursor && anchor ≠ windowRow then refresh t s buffer cursorOffset fuel anchor
    else finishRefresh t s windowRow buffer w

/-! ## The walk stays in its bounds -/

section
variable (t : Screen) (s : Settings)

/-- Every cell that is marked has a place in a text of this length. -/
structure CellsOk (len : Nat) (cells : Cells) : Prop where
  length_eq : cells.length = t.cols * t.rows
  le : ∀ offset, some offset ∈ cells → offset ≤ len

variable {t} in
theorem cell_index_lt {x y : Nat} (hx : x < t.cols) (hy : y < t.rows) : y * t.cols + x < t.cols * t.rows := by
  have hmul : (y + 1) * t.cols ≤ t.rows * t.cols := Nat.mul_le_mul_right t.cols hy
  rw [Nat.mul_comm t.cols t.rows]
  rw [Nat.succ_mul] at hmul
  omega

theorem cellsOk_replicate (len : Nat) : CellsOk t len (List.replicate (t.cols * t.rows) none) where
  length_eq := List.length_replicate
  le := by
    intro offset h
    have hnone := List.eq_of_mem_replicate h
    cases hnone

theorem editorMapCell_spec {len i : Nat} {cells : Cells} (hcells : CellsOk t len cells) (hi : i ≤ len)
    (out : List Out) : Ends (fun _ => False) (editorMapCell t cells out i) (CellsOk t len) := by
  rw [editorMapCell]
  dsimp only
  split
  · next hin =>
    rw [if_pos (by rw [hcells.length_eq]; exact cell_index_lt hin.1 hin.2)]
    refine ⟨by rw [List.length_set, hcells.length_eq], fun offset h => ?_⟩
    rcases List.mem_or_eq_of_mem_set h with h | h
    · exact hcells.le offset h
    · obtain rfl := Option.some.inj h
      exact hi
  · exact hcells

/-- A click finds a place in the text, or nothing. -/
theorem editorCellToOffset_spec {len : Nat} {cells : Cells} (hcells : CellsOk t len cells) (x y : Nat) :
    Ends (fun _ => False) (editorCellToOffset t cells x y) fun found => ∀ offset ∈ found, offset ≤ len := by
  rw [editorCellToOffset]
  split
  · intro offset h
    cases h
  · next hy =>
    have hcols := t.cols_ge
    have hscan : ∀ i ≤ t.cols, Ends (fun _ => False) (cellToOffsetFrom t cells y i)
        fun found => ∀ offset ∈ found, offset ≤ len := by
      intro i
      induction i with
      | zero =>
        intro _ offset h
        cases h
      | succ i ih =>
        intro hi
        have hlt : y * t.cols + i < cells.length := by
          rw [hcells.length_eq]
          exact cell_index_lt (by omega) (by omega)
        rw [cellToOffsetFrom, List.getElem?_eq_getElem hlt]
        cases hcell : cells[y * t.cols + i] with
        | none => exact ih (by omega)
        | some found =>
          intro offset h
          obtain rfl := Option.some.inj h
          refine hcells.le _ ?_
          rw [← hcell]
          exact List.getElem_mem hlt
    refine hscan _ ?_
    split <;> omega

theorem keybufOf_spec (text rest : List UInt8) : ∀ n,
    Ends (fun _ => False) (keybufOf n (text ++ 0 :: rest)) fun _ => True := by
  induction text with
  | nil =>
    intro n
    cases n with
    | zero => exact trivial
    | succ n =>
      rw [List.nil_append, keybufOf, if_pos rfl]
      exact trivial
  | cons c text ih =>
    intro n
    cases n with
    | zero => exact trivial
    | succ n =>
      rw [List.cons_append, keybufOf]
      split
      · exact trivial
      · split
        · exact trivial
        · exact (ih n).bind fun _ _ => trivial

theorem validateLine_spec (text rest : List UInt8) :
    Ends (fun _ => False) (validateLine s (text ++ 0 :: rest)) fun _ => True := by
  have hkey := keybufOf_spec text rest 64
  obtain ⟨c, bytes, hbytes⟩ : ∃ c bytes, text ++ 0 :: rest = c :: bytes := by
    cases text with
    | nil => exact ⟨_, _, rfl⟩
    | cons c text => exact ⟨_, _, rfl⟩
  rw [hbytes] at hkey ⊢
  rw [validateLine]
  split
  · exact trivial
  · split
    · exact trivial
    · refine hkey.bind fun found _ => ?_
      obtain ⟨keybuf, found⟩ := found
      show Ends _ (if _ then _ else if _ then _ else _) _
      split
      · exact trivial
      · split <;> exact trivial

/-! ## Where the rows break -/

/-- The row and the column after one more cell. -/
def layoutCell (place : Nat × Nat) : Nat × Nat :=
  (if place.2 % lineSize t = lineSize t - 1 then place.1 + 1 else place.1, place.2 + 1)

/-- The row and the column after one more character. -/
def layoutStep (place : Nat × Nat) (c : UInt8) : Nat × Nat :=
  if c = tab then (layoutCell t)^[8 - place.2 % 8] place
  else if c = newline then (place.1 + 1, 0)
  else layoutCell t place

/-- The row of the character that follows a text. -/
def layoutRow (text : List UInt8) : Nat := (text.foldl (layoutStep t) (0, 0)).1

/-- What a part of the walk leaves: cells in the text, the place that the layout says, and the cursor
as it was. -/
structure Moved (len : Nat) (place : Nat × Nat) (w w' : Walk) : Prop where
  cells : CellsOk t len w'.cells
  place_eq : (w'.screenRow, w'.lineOffset) = place
  cursorRow_eq : w'.cursorRow = w.cursorRow
  printedCursor_eq : w'.printedCursor = w.printedCursor

variable {t s} {windowRow len i : Nat} {w : Walk}

theorem put_spec (hcells : CellsOk t len w.cells) (hi : i ≤ len) (c : UInt8) :
    Ends (fun _ => False) (w.put t s i c) (Moved t len (w.screenRow, w.lineOffset) w) := by
  rw [Walk.put]
  exact (editorMapCell_spec t hcells hi w.out).bind fun cells h => Ends.ok ⟨h, rfl, rfl, rfl⟩

theorem wrapRow_spec (hcells : CellsOk t len w.cells) (hi : i ≤ len) (c : UInt8) :
    Ends (fun _ => False) (wrapRow t s windowRow i c w) (Moved t len (w.screenRow, w.lineOffset) w) := by
  rw [wrapRow]
  split
  · exact (put_spec hcells hi c).bind fun w' h =>
      Ends.ok ⟨h.cells, h.place_eq, h.cursorRow_eq, h.printedCursor_eq⟩
  · split
    · exact Ends.ok ⟨hcells, rfl, rfl, rfl⟩
    · exact Ends.ok ⟨hcells, rfl, rfl, rfl⟩

theorem cell_spec (hcells : CellsOk t len w.cells) (hi : i ≤ len) (c : UInt8) :
    Ends (fun _ => False) (cell t s windowRow i c w)
      (Moved t len (layoutCell t (w.screenRow, w.lineOffset)) w) := by
  have hshow : Ends (fun _ => False) (showCell t s windowRow i c w)
      (Moved t len ((layoutCell t (w.screenRow, w.lineOffset)).1, w.lineOffset) w) := by
    rw [showCell, layoutCell]
    by_cases hwrap : w.lineOffset % lineSize t = lineSize t - 1
    · rw [if_pos hwrap, if_pos hwrap]
      refine (wrapRow_spec hcells hi c).bind fun w' h => Ends.ok ⟨h.cells, ?_, h.cursorRow_eq, h.printedCursor_eq⟩
      have hplace := h.place_eq
      simp only [Prod.mk.injEq] at hplace ⊢
      exact ⟨by rw [hplace.1], hplace.2⟩
    · rw [if_neg hwrap, if_neg hwrap]
      split
      · exact put_spec hcells hi c
      · exact Ends.ok ⟨hcells, rfl, rfl, rfl⟩
  rw [cell]
  refine hshow.bind fun w' h => Ends.ok ⟨h.cells, ?_, h.cursorRow_eq, h.printedCursor_eq⟩
  have hplace := h.place_eq
  simp only [Prod.mk.injEq] at hplace
  show (w'.screenRow, w'.lineOffset + 1) = _
  rw [hplace.1, hplace.2]
  rfl

theorem tabCells_spec (hi : i ≤ len) (n : Nat) : ∀ {w : Walk}, CellsOk t len w.cells →
    Ends (fun _ => False) (tabCells t s windowRow i n w)
      (Moved t len ((layoutCell t)^[n] (w.screenRow, w.lineOffset)) w) := by
  induction n with
  | zero => exact fun hcells => ⟨hcells, rfl, rfl, rfl⟩
  | succ n ih =>
    intro w hcells
    rw [tabCells]
    refine (cell_spec hcells hi 32).bind fun w₁ h₁ => (ih h₁.cells).imp fun w₂ h₂ => ?_
    refine ⟨h₂.cells, ?_, by rw [h₂.cursorRow_eq, h₁.cursorRow_eq], by rw [h₂.printedCursor_eq, h₁.printedCursor_eq]⟩
    rw [h₂.place_eq, h₁.place_eq]
    rfl

theorem lineBreak_spec (hcells : CellsOk t len w.cells) (hi : i ≤ len) (text rest : List UInt8) :
    Ends (fun _ => False) (lineBreak t s windowRow i (text ++ 0 :: rest) w)
      (Moved t len (w.screenRow + 1, 0) w) := by
  have hshow : Ends (fun _ => False) (showNewline t s windowRow i w)
      (Moved t len (w.screenRow, w.lineOffset) w) := by
    rw [showNewline]
    split
    · exact (editorMapCell_spec t hcells hi w.out).bind fun cells h => Ends.ok ⟨h, rfl, rfl, rfl⟩
    · exact Ends.ok ⟨hcells, rfl, rfl, rfl⟩
  rw [lineBreak]
  refine hshow.bind fun w' h => (validateLine_spec s text rest).bind fun token _ =>
    Ends.ok ⟨h.cells, ?_, h.cursorRow_eq, h.printedCursor_eq⟩
  have hplace := h.place_eq
  simp only [Prod.mk.injEq] at hplace ⊢
  exact ⟨by rw [hplace.1], trivial⟩

theorem character_spec (hcells : CellsOk t len w.cells) (hi : i ≤ len) (c : UInt8) (text rest : List UInt8) :
    Ends (fun _ => False) (character t s windowRow i c (text ++ 0 :: rest) w)
      (Moved t len (layoutStep t (w.screenRow, w.lineOffset) c) w) := by
  rw [character, layoutStep]
  split
  · exact tabCells_spec hi _ hcells
  · split
    · exact lineBreak_spec hcells hi text rest
    · split
      · refine (cell_spec (w := { w with token := .equals }) hcells hi c).imp fun w' h => ?_
        exact ⟨h.cells, h.place_eq, h.cursorRow_eq, h.printedCursor_eq⟩
      · exact cell_spec hcells hi c

/-- What the walk leaves of the cursor: the row the layout gives it, and that it was printed if that
row is in the window. -/
def CursorOk (t : Screen) (s : Settings) (windowRow row : Nat) (w : Walk) : Prop :=
  w.cursorRow = row ∧ (windowRow ≤ row → row < windowRow + windowSize t s → w.printedCursor = true)

theorem takeCursor_of_ne {cursorOffset : Nat} (h : i ≠ cursorOffset) :
    w.takeCursor t s windowRow cursorOffset i = w := if_neg h

/-- The cursor is taken without a change to the rest. -/
theorem takeCursor_self (t : Screen) (s : Settings) (windowRow i : Nat) (w : Walk) : ∃ pos, ∃ printed : Bool,
    w.takeCursor t s windowRow i i =
      { w with cursorRow := w.screenRow, cursor := pos, printedCursor := printed } ∧
    (windowRow ≤ w.screenRow → w.screenRow < windowRow + windowSize t s → printed = true) := by
  rw [Walk.takeCursor, if_pos rfl]
  split
  · exact ⟨_, true, rfl, fun _ _ => rfl⟩
  · next hout =>
    refine ⟨w.cursor, w.printedCursor, rfl, fun hle hlt => absurd ?_ hout⟩
    exact decide_eq_true ⟨hle, hlt⟩

/-- The end of the text. -/
theorem walk_nil (s : Settings) (windowRow : Nat) (hcells : CellsOk t len w.cells) (hi : i ≤ len) (cursorOffset : Nat) (rest : List UInt8) :
    Ends (fun _ => False) (walk t s windowRow cursorOffset (0 :: rest) i w) fun w' =>
      CellsOk t len w'.cells ∧
      w'.cursorRow = (w.takeCursor t s windowRow cursorOffset i).cursorRow ∧
      w'.printedCursor = (w.takeCursor t s windowRow cursorOffset i).printedCursor := by
  have htake : (w.takeCursor t s windowRow cursorOffset i).cells = w.cells := by
    rw [Walk.takeCursor]
    split
    · split <;> rfl
    · rfl
  have hcells' : CellsOk t len (w.takeCursor t s windowRow cursorOffset i).cells := by rwa [htake]
  rw [walk, if_pos rfl]
  split
  · exact (editorMapCell_spec t hcells' hi _).bind fun cells h => Ends.ok ⟨h, rfl, rfl⟩
  · exact ⟨hcells', rfl, rfl⟩

/-- The walk past the cursor. -/
theorem walk_past {text : List UInt8} (hne : ∀ c ∈ text, c ≠ 0) (cursorOffset : Nat) (rest : List UInt8) :
    ∀ {i : Nat} {w : Walk}, CellsOk t len w.cells → cursorOffset < i → i + text.length ≤ len →
    Ends (fun _ => False) (walk t s windowRow cursorOffset (text ++ 0 :: rest) i w) fun w' =>
      CellsOk t len w'.cells ∧ w'.cursorRow = w.cursorRow ∧ w'.printedCursor = w.printedCursor := by
  induction text with
  | nil =>
    intro i w hcells hpast hlen
    have h := walk_nil s windowRow hcells (show i ≤ len by simpa using hlen) cursorOffset rest
    rwa [takeCursor_of_ne (by omega)] at h
  | cons c text ih =>
    intro i w hcells hpast hlen
    rw [List.length_cons] at hlen
    rw [List.cons_append, walk, takeCursor_of_ne (by omega), if_neg (hne c List.mem_cons_self)]
    refine (character_spec hcells (by omega) c text rest).bind fun w₁ h₁ => ?_
    refine (ih (fun b hb => hne b (List.mem_cons_of_mem _ hb)) h₁.cells (by omega) (by omega)).imp fun w₂ h₂ => ?_
    exact ⟨h₂.1, by rw [h₂.2.1, h₁.cursorRow_eq], by rw [h₂.2.2, h₁.printedCursor_eq]⟩

/-- **The walk** marks cells with places in the text only, and the row it finds for the cursor does
not depend on the window. -/
theorem walk_spec {text : List UInt8} (hne : ∀ c ∈ text, c ≠ 0) (cursorOffset : Nat) (rest : List UInt8) :
    ∀ {i : Nat} {w : Walk}, CellsOk t len w.cells → i ≤ cursorOffset → cursorOffset ≤ i + text.length →
    i + text.length ≤ len →
    Ends (fun _ => False) (walk t s windowRow cursorOffset (text ++ 0 :: rest) i w) fun w' =>
      CellsOk t len w'.cells ∧ CursorOk t s windowRow
        ((text.take (cursorOffset - i)).foldl (layoutStep t) (w.screenRow, w.lineOffset)).1 w' := by
  induction text with
  | nil =>
    intro i w hcells hle hcursor hlen
    have hi : i = cursorOffset := by
      rw [List.length_nil] at hcursor
      omega
    subst hi
    obtain ⟨pos, printed, htake, hprinted⟩ := takeCursor_self t s windowRow i w
    refine (walk_nil s windowRow hcells (show i ≤ len by simpa using hlen) i rest).imp
      fun w' h => ⟨h.1, ?_, fun hle hlt => ?_⟩
    · rw [h.2.1, htake]
      simp
    · rw [h.2.2, htake]
      exact hprinted (by simpa using hle) (by simpa using hlt)
  | cons c text ih =>
    intro i w hcells hle hcursor hlen
    rw [List.length_cons] at hcursor hlen
    have hne' : ∀ b ∈ text, b ≠ 0 := fun b hb => hne b (List.mem_cons_of_mem _ hb)
    rw [List.cons_append, walk, if_neg (hne c List.mem_cons_self)]
    rcases Nat.lt_or_eq_of_le hle with hlt | rfl
    · rw [takeCursor_of_ne (by omega)]
      refine (character_spec hcells (by omega) c text rest).bind fun w₁ h₁ => ?_
      refine (ih hne' h₁.cells (by omega) (by omega) (by omega)).imp fun w₂ h₂ => ⟨h₂.1, ?_⟩
      obtain ⟨n, hn⟩ : ∃ n, cursorOffset - i = n + 1 := ⟨cursorOffset - i - 1, by omega⟩
      rw [hn, List.take_succ_cons, List.foldl_cons, ← h₁.place_eq, show n = cursorOffset - (i + 1) by omega]
      exact h₂.2
    · obtain ⟨pos, printed, htake, hprinted⟩ := takeCursor_self t s windowRow i w
      rw [htake]
      refine (character_spec (w := { w with cursorRow := w.screenRow, cursor := pos, printedCursor := printed })
        hcells (by omega) c text rest).bind fun w₁ h₁ => ?_
      refine (walk_past hne' i rest h₁.cells (by omega) (by omega)).imp fun w₂ h₂ => ⟨h₂.1, ?_, fun hle hlt => ?_⟩
      · rw [h₂.2.1, h₁.cursorRow_eq, Nat.sub_self]
        rfl
      · rw [h₂.2.2, h₁.printedCursor_eq]
        rw [Nat.sub_self] at hle hlt
        exact hprinted hle hlt

end

/-! ## One refresh -/

section
variable (t : Screen) (s : Settings)

theorem windowSize_pos : 0 < windowSize t s := by
  have hrows := t.rows_ge
  rw [windowSize]
  omega

variable {buffer : Buffer} {text rest : List UInt8} (h : Holds buffer text rest)

include h

theorem walkStart_spec (windowRow : Nat) :
    Ends (fun _ => False) (walkStart t s windowRow buffer) fun w =>
      CellsOk t text.length w.cells ∧ (w.screenRow, w.lineOffset) = (0, 0) := by
  rw [walkStart, h.bytes_eq]
  exact (validateLine_spec s text rest).bind fun token _ => Ends.ok ⟨cellsOk_replicate t _, rfl⟩

theorem finishRefresh_spec (windowRow : Nat) {w : Walk} (hcells : CellsOk t text.length w.cells) :
    Ends (fun _ => False) (finishRefresh t s windowRow buffer w) fun d => CellsOk t text.length d.cells := by
  rw [finishRefresh, h.strlen_eq]
  exact hcells

theorem walk_all (windowRow : Nat) {w : Walk} {cursorOffset : Nat} (hcursor : cursorOffset ≤ text.length)
    (hcells : CellsOk t text.length w.cells) (hplace : (w.screenRow, w.lineOffset) = (0, 0)) :
    Ends (fun _ => False) (walk t s windowRow cursorOffset buffer.bytes 0 w) fun w' =>
      CellsOk t text.length w'.cells ∧ CursorOk t s windowRow (layoutRow t (text.take cursorOffset)) w' := by
  rw [h.bytes_eq, layoutRow, ← hplace]
  exact walk_spec h.text_ne cursorOffset rest hcells (Nat.zero_le _) (by omega) (by omega)

/-- A refresh in the window that the cursor is in is the last. -/
theorem refresh_inside {windowRow cursorOffset : Nat} (hcursor : cursorOffset ≤ text.length)
    (hle : windowRow ≤ layoutRow t (text.take cursorOffset))
    (hlt : layoutRow t (text.take cursorOffset) < windowRow + windowSize t s) (fuel : Nat) :
    Ends (fun _ => False) (refresh t s buffer cursorOffset (fuel + 1) windowRow) fun d =>
      CellsOk t text.length d.cells := by
  rw [refresh]
  refine (walkStart_spec t s h windowRow).bind fun w hw => ?_
  refine (walk_all t s h windowRow hcursor hw.1 hw.2).bind fun w' hw' => ?_
  rw [hw'.2.2 hle hlt]
  exact finishRefresh_spec t s h windowRow hw'.1

/-- **A refresh** ends, after a second walk if the cursor was not in the window. -/
theorem refresh_spec {windowRow cursorOffset : Nat} (hcursor : cursorOffset ≤ text.length) (fuel : Nat) :
    Ends (fun _ => False) (refresh t s buffer cursorOffset (fuel + 2) windowRow) fun d =>
      CellsOk t text.length d.cells := by
  have hsize := windowSize_pos t s
  rw [refresh]
  refine (walkStart_spec t s h windowRow).bind fun w hw => ?_
  refine (walk_all t s h windowRow hcursor hw.1 hw.2).bind fun w' hw' => ?_
  rw [hw'.2.1]
  generalize hrow : layoutRow t (text.take cursorOffset) = row
  have hle : (if windowRow + windowSize t s ≤ row then row - windowSize t s + 1 else row) ≤ row := by
    split <;> omega
  have hlt : row < (if windowRow + windowSize t s ≤ row then row - windowSize t s + 1 else row) +
      windowSize t s := by
    split <;> omega
  generalize (if windowRow + windowSize t s ≤ row then row - windowSize t s + 1 else row) = anchor at hle hlt ⊢
  dsimp only
  split
  · exact refresh_inside t s h hcursor (by rwa [hrow]) (by rwa [hrow]) fuel
  · exact finishRefresh_spec t s h windowRow hw'.1

end

end Limine.Editor
