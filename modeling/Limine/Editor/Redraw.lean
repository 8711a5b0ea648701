import Limine.Editor.Draw

/-!
# A redraw places the cursor

The row of the cursor comes from the text before it alone, whatever the window is.  A pass whose
window misses that row puts the window around it, and the next pass is the last.
-/

namespace Limine.Editor

open Limine.Lib Limine.Menu

/-- One pass of a redraw: the frame above the window and the walk over the text. -/
def pass (t : Screen) (s : Settings) (buffer : Buffer) (cursorOffset windowRow : Nat) : Except Fault Walk := do
  let w ← walkStart t s windowRow buffer
  walk t s windowRow cursorOffset buffer.bytes 0 w

/-- The row is in the window. -/
def InWindow (t : Screen) (s : Settings) (windowRow row : Nat) : Prop :=
  windowRow ≤ row ∧ row < windowRow + windowSize t s

section
variable {t : Screen} {s : Settings} {windowRow len i : Nat} {w : Walk}

/-- A cursor that has been printed was in the window, at a character before byte `i`. -/
def Printed (t : Screen) (s : Settings) (windowRow cursorOffset i : Nat) (w : Walk) : Prop :=
  w.printedCursor = true → InWindow t s windowRow w.cursorRow ∧ cursorOffset < i

theorem takeCursor_printed {cursorOffset : Nat} (h : Printed t s windowRow cursorOffset i w) :
    Printed t s windowRow cursorOffset (i + 1) (w.takeCursor t s windowRow cursorOffset i) := by
  rw [Walk.takeCursor]
  split
  · rename_i hi
    split
    · rename_i hvisible
      have hin : InWindow t s windowRow w.screenRow := by simpa [Walk.visible, InWindow] using hvisible
      exact fun _ => ⟨hin, by omega⟩
    · intro hprinted
      have hlt := (h hprinted).2
      omega
  · intro hprinted
    exact ⟨(h hprinted).1, Nat.lt_succ_of_lt (h hprinted).2⟩

/-- The cells are left alone where the cursor is taken. -/
theorem takeCursor_cells (cursorOffset : Nat) :
    (w.takeCursor t s windowRow cursorOffset i).cells = w.cells := by
  rw [Walk.takeCursor]
  split
  · split <;> rfl
  · rfl

theorem walk_printed {text : List UInt8} (hne : ∀ c ∈ text, c ≠ 0) (cursorOffset : Nat) (rest : List UInt8) :
    ∀ {i : Nat} {w : Walk}, CellsOk t len w.cells → i + text.length ≤ len → Printed t s windowRow cursorOffset i w →
    Ends (fun _ => False) (walk t s windowRow cursorOffset (text ++ 0 :: rest) i w) fun w' =>
      w'.printedCursor = true → InWindow t s windowRow w'.cursorRow := by
  induction text with
  | nil =>
    intro i w hcells hlen hprinted
    have htaken := takeCursor_printed hprinted
    have hcells' : CellsOk t len (w.takeCursor t s windowRow cursorOffset i).cells := by
      rwa [takeCursor_cells]
    rw [List.nil_append, walk, if_pos rfl]
    split
    · refine (editorMapCell_spec t hcells' (show i ≤ len by simpa using hlen) _).bind fun cells _ => ?_
      exact Ends.ok fun h => (htaken h).1
    · exact Ends.ok fun h => (htaken h).1
  | cons c text ih =>
    intro i w hcells hlen hprinted
    rw [List.length_cons] at hlen
    have htaken := takeCursor_printed hprinted
    have hcells' : CellsOk t len (w.takeCursor t s windowRow cursorOffset i).cells := by
      rwa [takeCursor_cells]
    rw [List.cons_append, walk, if_neg (hne c List.mem_cons_self)]
    refine (character_spec hcells' (by omega) c text rest).bind fun w₁ h₁ => ?_
    refine ih (fun b hb => hne b (List.mem_cons_of_mem _ hb)) h₁.cells (by omega) ?_
    intro h
    rw [h₁.printedCursor_eq] at h
    rw [h₁.cursorRow_eq]
    exact htaken h

end

section
variable (t : Screen) (s : Settings) {buffer : Buffer} {text rest : List UInt8} (h : Holds buffer text rest)

include h

/-- **One pass** finds the row of the text before the cursor, and prints the cursor if that is in the
window, and only then. -/
theorem pass_spec (windowRow : Nat) {cursorOffset : Nat} (hcursor : cursorOffset ≤ text.length) :
    ∃ w, pass t s buffer cursorOffset windowRow = .ok w ∧
      w.cursorRow = layoutRow t (text.take cursorOffset) ∧
      (w.printedCursor = true ↔ InWindow t s windowRow (layoutRow t (text.take cursorOffset))) := by
  have hstart := walkStart_spec t s h windowRow
  rw [pass]
  cases hw : walkStart t s windowRow buffer with
  | error e => rw [hw] at hstart; exact hstart.elim
  | ok w =>
    rw [hw] at hstart
    have hunprinted : w.printedCursor = false := by
      rw [walkStart] at hw
      obtain ⟨token, -, hw⟩ := except_bind_eq_ok.mp hw
      obtain rfl := Except.ok.inj hw
      rfl
    have hwalk := walk_all t s h windowRow hcursor hstart.1 hstart.2
    have hnone : Printed t s windowRow cursorOffset 0 w := fun hp => by
      rw [hunprinted] at hp
      cases hp
    have hprinted := walk_printed h.text_ne cursorOffset rest hstart.1 (show 0 + text.length ≤ text.length by omega) hnone
    rw [← h.bytes_eq] at hprinted
    rw [ok_bind]
    cases hw' : walk t s windowRow cursorOffset buffer.bytes 0 w with
    | error e => rw [hw'] at hwalk; exact hwalk.elim
    | ok w' =>
      rw [hw'] at hwalk hprinted
      obtain ⟨-, hrow, hinside⟩ := hwalk
      refine ⟨w', rfl, hrow, fun hp => ?_, fun hin => hinside hin.1 hin.2⟩
      rw [← hrow]
      exact hprinted hp

theorem finishRefresh_ok (windowRow : Nat) (w : Walk) :
    ∃ d, finishRefresh t s windowRow buffer w = .ok d ∧ d.windowRow = windowRow := by
  rw [finishRefresh, h.strlen_eq]
  exact ⟨_, rfl, rfl⟩

omit h in
/-- A redraw as its first pass and what follows from it. -/
theorem refresh_eq (buffer : Buffer) (cursorOffset fuel windowRow : Nat) :
    refresh t s buffer cursorOffset (fuel + 1) windowRow = (do
      let w ← pass t s buffer cursorOffset windowRow
      let anchor :=
        if windowRow + windowSize t s ≤ w.cursorRow then w.cursorRow - windowSize t s + 1 else w.cursorRow
      if !w.printedCursor && anchor ≠ windowRow then refresh t s buffer cursorOffset fuel anchor
      else finishRefresh t s windowRow buffer w) := by
  rw [refresh, pass]
  cases walkStart t s windowRow buffer with
  | error e => rfl
  | ok w => rfl

/-- What a pass in the window ends with. -/
theorem refresh_last {windowRow cursorOffset : Nat} (hcursor : cursorOffset ≤ text.length)
    (hin : InWindow t s windowRow (layoutRow t (text.take cursorOffset))) (fuel : Nat) :
    ∃ w d, refresh t s buffer cursorOffset (fuel + 1) windowRow = .ok d ∧ d.windowRow = windowRow ∧
      pass t s buffer cursorOffset windowRow = .ok w ∧ finishRefresh t s windowRow buffer w = .ok d ∧
      w.printedCursor = true := by
  obtain ⟨w, hpass, -, hprinted⟩ := pass_spec t s h windowRow hcursor
  obtain ⟨d, hd, hrow⟩ := finishRefresh_ok t s h windowRow w
  have hp := hprinted.mpr hin
  refine ⟨w, d, ?_, hrow, hpass, hd, hp⟩
  rw [refresh_eq, hpass, ok_bind, hp]
  exact hd

/-- **A redraw places the cursor**: every pass finds the same row for it; two passes are enough, and
the last of them has recorded the cursor inside its window. -/
theorem refresh_places_cursor {cursorOffset : Nat} (hcursor : cursorOffset ≤ text.length) :
    ∃ row, (∀ windowRow, ∃ w, pass t s buffer cursorOffset windowRow = .ok w ∧ w.cursorRow = row) ∧
      ∀ windowRow, ∃ w d, (∀ fuel, refresh t s buffer cursorOffset (fuel + 2) windowRow = .ok d) ∧
        pass t s buffer cursorOffset d.windowRow = .ok w ∧
        finishRefresh t s d.windowRow buffer w = .ok d ∧ w.printedCursor = true ∧
        d.windowRow ≤ row ∧ row < d.windowRow + windowSize t s := by
  have hsize := windowSize_pos t s
  refine ⟨layoutRow t (text.take cursorOffset), fun windowRow => ?_, fun windowRow => ?_⟩
  · obtain ⟨w, hpass, hrow, -⟩ := pass_spec t s h windowRow hcursor
    exact ⟨w, hpass, hrow⟩
  · generalize hrow : layoutRow t (text.take cursorOffset) = row
    by_cases hin : InWindow t s windowRow row
    · obtain ⟨w, d, -, hwindow, hpass, hd, hp⟩ := refresh_last t s h hcursor (hrow ▸ hin) 0
      refine ⟨w, d, fun fuel => ?_, by rw [hwindow]; exact hpass, by rw [hwindow]; exact hd, hp, ?_⟩
      · rw [refresh_eq, hpass, ok_bind, hp]
        exact hd
      · rw [hwindow]
        exact hin
    · obtain ⟨w₀, hpass₀, hrow₀, hprinted₀⟩ := pass_spec t s h windowRow hcursor
      have hunprinted : w₀.printedCursor = false := by
        cases hp : w₀.printedCursor with
        | false => rfl
        | true => exact absurd (hrow ▸ hprinted₀.mp hp) hin
      generalize hanchor : (if windowRow + windowSize t s ≤ row then row - windowSize t s + 1 else row) = anchor
      rw [InWindow] at hin
      have hanchored : InWindow t s anchor row ∧ anchor ≠ windowRow := by
        rw [InWindow, ← hanchor]
        split <;> omega
      obtain ⟨w, d, -, hwindow, hpass, hd, hp⟩ := refresh_last t s h hcursor (hrow ▸ hanchored.1) 0
      refine ⟨w, d, fun fuel => ?_, by rw [hwindow]; exact hpass, by rw [hwindow]; exact hd, hp, ?_⟩
      · rw [refresh_eq, hpass₀, ok_bind, hunprinted, hrow₀, hrow, hanchor]
        dsimp only
        rw [if_pos (by simp [hanchored.2]), refresh_eq, hpass, ok_bind, hp]
        exact hd
      · rw [hwindow]
        exact hanchored.1

end

/-- A tab and a letter in the buffer. -/
def tabBuffer : Buffer where
  bytes := [9, 97] ++ 0 :: List.replicate 4093 0
  size := by
    have htail : (0 :: List.replicate 4093 (0 : UInt8)).length = 4094 := by
      rw [List.length_cons, List.length_replicate]
    rw [List.length_append, htail]
    rfl

/-- A terminal of 10 by 10, with the cursor on the letter. -/
theorem refresh_places_cursor_tab :
    ∃ row, ∃ (w : Walk) (d : Drawn),
      refresh ⟨10, 10, false, fun _ => (0, 0), by decide, by decide⟩ ⟨[], [], [], [], false, false⟩
        tabBuffer 1 2 100 = .ok d ∧
      w.printedCursor = true ∧ w.cursorRow = row ∧ d.windowRow ≤ row := by
  obtain ⟨row, hrow, hredraw⟩ := refresh_places_cursor
    ⟨10, 10, false, fun _ => (0, 0), by decide, by decide⟩ ⟨[], [], [], [], false, false⟩
    (⟨rfl, by simp⟩ : Holds tabBuffer [9, 97] (List.replicate 4093 0)) (show 1 ≤ [9, 97].length by decide)
  obtain ⟨w, d, hd, hpass, -, hprinted, hle, -⟩ := hredraw 100
  obtain ⟨w', hpass', hrow'⟩ := hrow d.windowRow
  obtain rfl := Except.ok.inj (hpass.symm.trans hpass')
  exact ⟨row, w, d, hd 0, hprinted, hrow', hle⟩

end Limine.Editor
