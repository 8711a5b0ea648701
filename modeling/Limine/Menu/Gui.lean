import Limine.Menu.Entry
import Mathlib.Data.Int.Order.Basic

/-!
# Scrolling in the graphical menu

`gui_draw` shows `max_rows` rows from `first_row` on, which it moves only as far as the selection
needs; `gui_hit_test` tells which row a point lies on.  A menu that shrank under the window leaves
it reaching past the last row: `scroll_sound_iff` says which draws do not.

The drawing itself is left out but for the rows it reads and the rectangles it fills.
-/

namespace Limine.Menu

/-- What `gui_draw` uses of `struct ui_settings`; `showsHints` is whether the hints are drawn. -/
structure UiSettings where
  menuX : Int
  menuY : Int
  menuWidth : Int
  padding : Int
  rowHeight : Nat
  rowGap : Nat
  maxRows : Nat
  iconCount : Nat
  showsHints : Bool
  /-- `ui_settings_read` takes no row lower than 16 pixels. -/
  rowHeight_ge : 16 ≤ rowHeight
  maxRows_pos : 1 ≤ maxRows

/-- What `gui_draw` uses of `struct menu_view`. -/
structure MenuView where
  rows : List MenuRow
  selected : Nat
  /-- `refresh` clears a selection past the last row. -/
  selected_lt : rows ≠ [] → selected < rows.length

def MenuView.count (view : MenuView) : Nat := view.rows.length

/-- The statics of `menu_gui.c` that outlive a draw. -/
structure GuiState where
  firstRow : Nat
  rowCount : Nat
  visibleRows : Nat
deriving DecidableEq, Repr

/-- As `gui_init` leaves them. -/
def guiInit : GuiState := ⟨0, 0, 0⟩

/-- A row's rectangle. -/
structure DrawnRow where
  index : Nat
  x : Int
  y : Int
  width : Int
  height : Int
deriving DecidableEq, Repr

/-- The rows `menu_row_matches` reads for row `at`: the row and those it is under, 64 at most. -/
def rowChain (rows : List MenuRow) : Nat → Nat → List Nat
  | 0, _ => []
  | fuel + 1, current =>
    current ::
      match (rows[current]?).bind MenuRow.parent with
      | none => []
      | some parent => if current ≤ parent then [] else rowChain rows fuel parent

/-- What a draw leaves behind: the statics, the rectangles and the rows it has read. -/
structure Drawing where
  state : GuiState
  drawn : List DrawnRow
  rowsRead : List Nat

section
variable (s : UiSettings)

/-- Where `gui_draw` puts row number `i` of the window, showing row `index`. -/
def rowRect (index i : Nat) : DrawnRow :=
  { index := index
    x := s.menuX + s.padding
    y := s.menuY + s.padding + i * (s.rowHeight + s.rowGap : Nat)
    width := s.menuWidth - 2 * s.padding
    height := s.rowHeight }

/-- `gui_draw`. -/
def guiDraw (st : GuiState) (view : MenuView) : Drawing :=
  let rowCount := view.count
  let visibleRows := s.maxRows
  let visibleRows := if rowCount < visibleRows then rowCount else visibleRows
  let firstRow := if view.selected < st.firstRow then view.selected else st.firstRow
  let firstRow :=
    if visibleRows ≠ 0 ∧ firstRow + visibleRows ≤ view.selected then
      view.selected - visibleRows + 1
    else firstRow
  { state := ⟨firstRow, rowCount, visibleRows⟩
    drawn := (List.range visibleRows).map fun i => rowRect s (firstRow + i) i
    rowsRead :=
      ((List.range visibleRows).flatMap fun i =>
        (firstRow + i) :: if s.iconCount = 0 then [] else rowChain view.rows 64 (firstRow + i)) ++
      if s.showsHints ∧ view.count ≠ 0 then [view.selected] else [] }

/-- `gui_hit_test` at a point of the menu's canvas. -/
def guiHitTest (st : GuiState) (lx ly : Int) : Option Nat :=
  let left := s.menuX + s.padding
  let top := s.menuY + s.padding
  let width := s.menuWidth - 2 * s.padding
  let height := s.rowHeight
  let pitch := height + s.rowGap
  if lx < left ∨ left + width ≤ lx ∨ ly < top then none
  else
    let row := (ly - top).toNat / pitch
    if st.visibleRows ≤ row ∨ height ≤ (ly - top).toNat % pitch ∨ st.rowCount ≤ st.firstRow + row
    then none
    else some (st.firstRow + row)

/-- The statics after a sequence of draws. -/
def guiRun (st : GuiState) : List MenuView → GuiState
  | [] => st
  | view :: views => guiRun (guiDraw s st view).state views

end

/-- The point lies in the row's rectangle. -/
def DrawnRow.Contains (row : DrawnRow) (lx ly : Int) : Prop :=
  row.x ≤ lx ∧ lx < row.x + row.width ∧ row.y ≤ ly ∧ ly < row.y + row.height

/-- What is asked of a draw: the rows it reads exist, it shows the selection, and a point hits the
row whose rectangle it lies in. -/
structure DrawOk (s : UiSettings) (st : GuiState) (view : MenuView) : Prop where
  reads : ∀ index ∈ (guiDraw s st view).rowsRead, index < view.count
  shows : 0 < view.count → ∃ row ∈ (guiDraw s st view).drawn, row.index = view.selected
  hits : ∀ lx ly index, guiHitTest s (guiDraw s st view).state lx ly = some index ↔
    ∃ row ∈ (guiDraw s st view).drawn, row.index = index ∧ row.Contains lx ly

/-- The window moved up to the selection, if it has to, ends by the last row; unless the selection
is below the window, which then ends with it. -/
def WindowFits (s : UiSettings) (st : GuiState) (view : MenuView) : Prop :=
  0 < view.count → view.selected < st.firstRow + min s.maxRows view.count →
    min st.firstRow view.selected + min s.maxRows view.count ≤ view.count

/-- `P` holds of every draw of the sequence, with the statics it finds. -/
def EveryDraw (s : UiSettings) (P : GuiState → MenuView → Prop) : GuiState → List MenuView → Prop
  | _, [] => True
  | st, view :: views => P st view ∧ EveryDraw s P (guiDraw s st view).state views

section
variable {s : UiSettings} {st : GuiState} {view : MenuView}

theorem rowChain_le (rows : List MenuRow) (fuel : Nat) : ∀ current,
    ∀ index ∈ rowChain rows fuel current, index ≤ current := by
  induction fuel with
  | zero => simp [rowChain]
  | succ fuel ih =>
    intro current index h
    rw [rowChain] at h
    rcases List.mem_cons.mp h with rfl | h
    · exact Nat.le_refl _
    · split at h
      · simp at h
      · split at h
        · simp at h
        · have := ih _ index h
          omega

/-! ## The window after a draw -/

theorem visibleRows_eq : (guiDraw s st view).state.visibleRows = min s.maxRows view.count := by
  show (if view.count < s.maxRows then view.count else s.maxRows) = _
  split <;> omega

theorem rowCount_eq : (guiDraw s st view).state.rowCount = view.count := rfl

theorem firstRow_eq : (guiDraw s st view).state.firstRow =
    if min s.maxRows view.count ≠ 0 ∧
        min st.firstRow view.selected + min s.maxRows view.count ≤ view.selected then
      view.selected - min s.maxRows view.count + 1
    else min st.firstRow view.selected := by
  have hv : (if view.count < s.maxRows then view.count else s.maxRows) = min s.maxRows view.count := by
    split <;> omega
  have hf : (if view.selected < st.firstRow then view.selected else st.firstRow) =
      min st.firstRow view.selected := by
    split <;> omega
  show (if (if view.count < s.maxRows then view.count else s.maxRows) ≠ 0 ∧ _ then _ else _) = _
  rw [hv, hf]

theorem mem_drawn {row : DrawnRow} : row ∈ (guiDraw s st view).drawn ↔
    ∃ i < (guiDraw s st view).state.visibleRows,
      row = rowRect s ((guiDraw s st view).state.firstRow + i) i := by
  show row ∈ (List.range _).map _ ↔ _
  rw [List.mem_map]
  constructor
  · rintro ⟨i, hi, rfl⟩
    exact ⟨i, List.mem_range.mp hi, rfl⟩
  · rintro ⟨i, hi, rfl⟩
    exact ⟨i, List.mem_range.mpr hi, rfl⟩

variable (s st) in
/-- The selection is in the window. -/
theorem selected_in_window (h : 0 < view.count) :
    (guiDraw s st view).state.firstRow ≤ view.selected ∧
      view.selected < (guiDraw s st view).state.firstRow +
        (guiDraw s st view).state.visibleRows := by
  have hmax := s.maxRows_pos
  rw [visibleRows_eq, firstRow_eq]
  split <;> omega

/-- **When the window ends by the last row.** -/
theorem window_le_iff (h : 0 < view.count) :
    (guiDraw s st view).state.firstRow + (guiDraw s st view).state.visibleRows ≤ view.count ↔
      WindowFits s st view := by
  have hsel : view.selected < view.count := by
    refine view.selected_lt ?_
    intro hnil
    rw [MenuView.count, hnil] at h
    exact absurd h (by simp)
  have hmax := s.maxRows_pos
  rw [visibleRows_eq, firstRow_eq, WindowFits]
  constructor
  · intro hle _ hlt
    split at hle <;> omega
  · intro hfits
    replace hfits := hfits h
    split <;> omega

/-! ## Hit tests -/

/-- A distance from the top of the menu lies in row `i`. -/
theorem in_row_iff {d height pitch i : Nat} (hp : height ≤ pitch) :
    (d / pitch = i ∧ d % pitch < height) ↔ i * pitch ≤ d ∧ d < i * pitch + height := by
  have hdiv := Nat.div_add_mod d pitch
  constructor
  · rintro ⟨rfl, hmod⟩
    rw [Nat.mul_comm] at hdiv
    omega
  · rintro ⟨hle, hlt⟩
    have hi : d / pitch = i := by
      apply Nat.div_eq_of_lt_le hle
      rw [Nat.succ_mul]
      omega
    rw [hi, Nat.mul_comm] at hdiv
    exact ⟨hi, by omega⟩

/-- **A hit is a point of the row's rectangle**, for rows the menu has. -/
theorem guiHitTest_iff {lx ly : Int} {index : Nat} :
    guiHitTest s (guiDraw s st view).state lx ly = some index ↔
      index < view.count ∧ ∃ row ∈ (guiDraw s st view).drawn, row.index = index ∧
        row.Contains lx ly := by
  have h16 := s.rowHeight_ge
  set w := (guiDraw s st view).state with hw
  have hcount : w.rowCount = view.count := rfl
  have hrect : (∃ row ∈ (guiDraw s st view).drawn, row.index = index ∧ row.Contains lx ly) ↔
      ∃ i < w.visibleRows, w.firstRow + i = index ∧ (rowRect s (w.firstRow + i) i).Contains lx ly := by
    constructor
    · rintro ⟨row, hrow, hidx, hc⟩
      obtain ⟨i, hi, rfl⟩ := mem_drawn.mp hrow
      exact ⟨i, hi, hidx, hc⟩
    · rintro ⟨i, hi, hidx, hc⟩
      exact ⟨_, mem_drawn.mpr ⟨i, hi, rfl⟩, hidx, hc⟩
  rw [hrect, guiHitTest]
  have hcontains : ∀ i j, (rowRect s j i).Contains lx ly ↔
      ¬(lx < s.menuX + s.padding ∨ s.menuX + s.padding + (s.menuWidth - 2 * s.padding) ≤ lx ∨
        ly < s.menuY + s.padding) ∧
      (ly - (s.menuY + s.padding)).toNat / (s.rowHeight + s.rowGap) = i ∧
      (ly - (s.menuY + s.padding)).toNat % (s.rowHeight + s.rowGap) < s.rowHeight := by
    intro i j
    rw [in_row_iff (by omega)]
    simp only [DrawnRow.Contains, rowRect]
    generalize hm : i * (s.rowHeight + s.rowGap) = m
    have hcast : (i : Int) * ((s.rowHeight + s.rowGap : Nat) : Int) = (m : Int) := by
      rw [← hm]
      push_cast
      rfl
    rw [hcast]
    omega
  split
  · next hout =>
    constructor
    · intro h
      cases h
    · rintro ⟨-, i, -, -, hc⟩
      exact absurd hout ((hcontains i _).mp hc).1
  · next hin =>
    dsimp only
    split
    · next hmiss =>
      constructor
      · intro h
        cases h
      · rintro ⟨hlt, i, hi, hidx, hc⟩
        obtain ⟨-, hrow, hmod⟩ := (hcontains i _).mp hc
        rw [hrow] at hmiss
        omega
    · next hhit =>
      rw [not_or, not_or] at hhit
      constructor
      · intro h
        have hidx := Option.some.inj h
        refine ⟨by omega, _, by omega, hidx, (hcontains _ _).mpr ⟨hin, rfl, by omega⟩⟩
      · rintro ⟨hlt, i, hi, hidx, hc⟩
        obtain ⟨-, hrow, hmod⟩ := (hcontains i _).mp hc
        rw [hrow, hidx]

/-! ## Draws -/

theorem rowsRead_lt (hle : (guiDraw s st view).state.firstRow +
      (guiDraw s st view).state.visibleRows ≤ view.count) :
    ∀ index ∈ (guiDraw s st view).rowsRead, index < view.count := by
  intro index h
  rcases List.mem_append.mp h with h | h
  · obtain ⟨i, hi, h⟩ := List.mem_flatMap.mp h
    have hi' : i < (guiDraw s st view).state.visibleRows := List.mem_range.mp hi
    have hrow : (guiDraw s st view).state.firstRow + i < view.count := by omega
    rcases List.mem_cons.mp h with rfl | h
    · exact hrow
    · split at h
      · simp at h
      · exact Nat.lt_of_le_of_lt (rowChain_le _ _ _ index h) hrow
  · split at h
    · next hs =>
      obtain rfl := List.mem_singleton.mp h
      have h0 : 0 < view.count := Nat.pos_of_ne_zero hs.2
      have := selected_in_window s st h0
      omega
    · simp at h

theorem drawOk_of_le (h0 : 0 < view.count) (hle : (guiDraw s st view).state.firstRow +
      (guiDraw s st view).state.visibleRows ≤ view.count) : DrawOk s st view where
  reads := rowsRead_lt hle
  shows := by
    intro _
    obtain ⟨h1, h2⟩ := selected_in_window s st h0
    have hsel : (guiDraw s st view).state.firstRow +
        (view.selected - (guiDraw s st view).state.firstRow) = view.selected := by omega
    exact ⟨_, mem_drawn.mpr ⟨_, by omega, rfl⟩, hsel⟩
  hits := by
    intro lx ly index
    rw [guiHitTest_iff]
    constructor
    · intro h
      exact h.2
    · rintro ⟨row, hrow, hidx, hc⟩
      refine ⟨?_, row, hrow, hidx, hc⟩
      obtain ⟨i, hi, rfl⟩ := mem_drawn.mp hrow
      obtain rfl : (guiDraw s st view).state.firstRow + i = index := hidx
      omega

theorem drawOk_of_empty (h0 : view.count = 0) : DrawOk s st view := by
  have hv : (guiDraw s st view).state.visibleRows = 0 := by
    rw [visibleRows_eq, h0, Nat.min_zero]
  refine ⟨?_, ?_, ?_⟩
  · intro index h
    rcases List.mem_append.mp h with h | h
    · obtain ⟨i, hi, -⟩ := List.mem_flatMap.mp h
      have hi' : i < (guiDraw s st view).state.visibleRows := List.mem_range.mp hi
      omega
    · split at h
      · next hs => exact absurd h0 hs.2
      · simp at h
  · intro hpos
    omega
  · intro lx ly index
    rw [guiHitTest_iff]
    constructor
    · intro h
      omega
    · rintro ⟨row, hrow, -⟩
      obtain ⟨i, hi, -⟩ := mem_drawn.mp hrow
      omega

/-- **Which draws are right.** -/
theorem drawOk_iff : DrawOk s st view ↔ WindowFits s st view := by
  rcases Nat.eq_zero_or_pos view.count with h0 | h0
  · constructor
    · intro _ hpos
      omega
    · intro _
      exact drawOk_of_empty h0
  · rw [← window_le_iff h0]
    constructor
    · intro hok
      have hpos : 0 < (guiDraw s st view).state.visibleRows := by
        have := selected_in_window s st h0
        omega
      -- the bottom row of the window is read
      have hlast : (guiDraw s st view).state.firstRow +
          ((guiDraw s st view).state.visibleRows - 1) ∈ (guiDraw s st view).rowsRead := by
        have hrange : (guiDraw s st view).state.visibleRows - 1 ∈
            List.range (guiDraw s st view).state.visibleRows := List.mem_range.mpr (by omega)
        exact List.mem_append_left _ (List.mem_flatMap.mpr ⟨_, hrange, List.mem_cons_self⟩)
      have := hok.reads _ hlast
      omega
    · exact drawOk_of_le h0

theorem everyDraw_iff {P Q : GuiState → MenuView → Prop} (h : ∀ st view, P st view ↔ Q st view)
    (views : List MenuView) : ∀ st, EveryDraw s P st views ↔ EveryDraw s Q st views := by
  induction views with
  | nil => intro st; rfl
  | cons view views ih =>
    intro st
    exact and_congr (h st view) (ih _)

end

/-- **Which sequences of draws are right**: those in which no draw finds a window that would reach
past the last row. -/
theorem scroll_sound_iff (s : UiSettings) (views : List MenuView) :
    EveryDraw s (DrawOk s) guiInit views ↔ EveryDraw s (WindowFits s) guiInit views :=
  everyDraw_iff (fun _ _ => drawOk_iff) views guiInit

/-- A menu of `n` rows, all alike. -/
def plainRows (n : Nat) : List MenuRow :=
  List.replicate n ⟨[], none, 0, 0, false, false, false⟩

/-- Five rows fit. -/
def fiveRows : UiSettings where
  menuX := 0
  menuY := 0
  menuWidth := 320
  padding := 0
  rowHeight := 32
  rowGap := 0
  maxRows := 5
  iconCount := 0
  showsHints := false
  rowHeight_ge := by decide
  maxRows_pos := by decide

/-- With the last of ten rows selected, the window starts at row 5.  Then row 6, a directory of
three entries, is collapsed. -/
def collapsing : List MenuView :=
  [⟨plainRows 10, 9, by decide⟩, ⟨plainRows 7, 6, by decide⟩]

/-- The draw after that reads rows 7 to 9 of a menu of seven. -/
theorem scroll_unsound_collapsing : ¬EveryDraw fiveRows (DrawOk fiveRows) guiInit collapsing := by
  rintro ⟨-, hok, -⟩
  exact absurd (hok.reads 7 (by decide)) (by decide)

end Limine.Menu
