import Mathlib.Data.List.Nodup
import Mathlib.Data.List.Perm.Subperm
import Mathlib.Data.List.GetD
import Mathlib.Algebra.Order.BigOperators.Group.List
import Limine.Lib.Cells
import Limine.Ui.HintSettings

/-!
# The drawing of the key hints

`ui_draw_hints` and the functions it is made of, for any measure of texts and any labels, up to the calls of
`ui_surface` and `ui_text`; that each part is drawn clipped to its box is not followed.  The items it lays out are those
that are visible and have a label, in the order of the settings, and no two visible items of a row, a column or a grid
overlap: there are no more of them than the settings were checked with.

    the items are in the panel and apart from each other, a key in its item    (uiDrawHints_fits)
-/

namespace Limine.Ui.Hints

open Limine.Lib
open Limine.Ui.Document (UiDocument ascii)

/-! ## The drawing -/

inductive Drawn
  | surface (box : Rect) (s : UiSurface)
  | text (text : CString) (x baseline tracking : Int) (colour : UInt32) (width : Int)

/-- A call of `hint`. -/
structure HintCall where
  box : Rect
  key : CString
  label : CString
  align : Int

/-- What a call of `hint` draws, and the rectangle of its key. -/
structure KeyHint where
  cap : Rect
  drawn : List Drawn

/-- An item that is drawn, with `actions`, `text` and `widths` of it. -/
structure HintEntry where
  action : Nat
  text : CString
  width : Int

def keys : List CString := ["Arrows", "Enter", "E", "B", "S", "U"].map ascii

def panel (box : Rect) (s : UiSurface) : List Drawn :=
  if s.opacity = 0 ∧ s.borderWidth = 0 then [] else [.surface box s]

section
variable (textWidth : CString → Int → Int)

def line (t : UiTextStyle) (text : CString) (x baseline width : Int) (colour : UInt32) (align : Int) : List Drawn :=
  if width ≤ 0 then []
  else
    let advance := textWidth text t.tracking
    let offset := if advance < width then ((width - advance) * align).tdiv 2 else 0
    [.text text (x + offset) baseline t.tracking colour (width - offset)]

def keyWidth (s : UiSettings) (key : CString) : Int :=
  if s.keyWidth ≠ 0 then s.keyWidth else textWidth key s.text.tracking + 2 * s.keyPadding

def hintWidth (s : UiSettings) (key label : CString) : Int :=
  let kw := keyWidth textWidth s key
  let lw := textWidth label s.text.tracking
  if label = [] then kw
  else if s.keyPosition = 2 then (if kw > lw then kw else lw)
  else kw + s.keyGap + lw

/-- The box as the first branch of `hint` leaves it. -/
def hintBox (s : UiSettings) (call : HintCall) : Rect :=
  let total := hintWidth textWidth s call.key call.label
  if total < call.box.width then
    { call.box with x := call.box.x + ((call.box.width - total) * call.align).tdiv 2, width := total }
  else call.box

/-- `kw` in it. -/
def capWidth (s : UiSettings) (call : HintCall) : Int :=
  let kw := keyWidth textWidth s call.key
  if kw > (hintBox textWidth s call).width then (hintBox textWidth s call).width else kw

def hint (s : UiSettings) (call : HintCall) : KeyHint :=
  let t := s.text
  let box := hintBox textWidth s call
  let kw := capWidth textWidth s call
  let cap : Rect := ⟨box.x, box.y, kw, box.height⟩
  let baseline := box.y + (box.height - t.size).tdiv 2 + (t.size * 3).tdiv 4
  let (cap, baseline, drawn) : Rect × Int × List Drawn :=
    if s.keyPosition = 2 ∧ call.label ≠ [] then
      let cap := { cap with x := cap.x + ((box.width - kw) * call.align).tdiv 2, height := (box.height - s.keyGap).tdiv 2 }
      let half := (cap.height - t.size).tdiv 2 + (t.size * 3).tdiv 4
      (cap, cap.y + half,
        line textWidth t call.label box.x (box.y + cap.height + s.keyGap + half) box.width t.colour call.align)
    else if s.keyPosition = 1 ∧ call.label ≠ [] then
      ({ cap with x := cap.x + (box.width - kw) }, baseline,
        line textWidth t call.label box.x baseline (box.width - kw - s.keyGap) t.colour 0)
    else if call.label ≠ [] then
      (cap, baseline,
        line textWidth t call.label (box.x + kw + s.keyGap) baseline (box.width - kw - s.keyGap) t.colour 0)
    else (cap, baseline, [])
  { cap
    drawn := drawn ++ panel cap s.keySurface ++
      line textWidth t call.key (cap.x + s.keyPadding) baseline (cap.width - 2 * s.keyPadding) s.keyColour 1 }

/-- `hint_items[action]` -/
def hintItemAt (s : UiSettings) (action : Nat) : UiHintItem := s.hintItems.getD action ⟨none, false, ⟨0, 0, 0, 0⟩⟩

/-- The body of the loop over the order. -/
def hintEntry (s : UiSettings) (labels : Nat → Option CString) (action : Nat) : Option HintEntry :=
  if ¬ (hintItemAt s action).visible then none
  else
    (labels action).map fun label =>
      let text := (hintItemAt s action).label.getD label
      ⟨action, text, hintWidth textWidth s (keys.getD action []) text⟩

def hintEntries (s : UiSettings) (labels : Nat → Option CString) : List HintEntry :=
  s.hintOrder.filterMap (hintEntry textWidth s labels)

end

/-- The box in the panel, inside the padding. -/
def innerBox (s : UiSettings) : Rect :=
  ⟨s.hints.x + s.hintPadding, s.hints.y + s.hintPadding, innerWidth s, innerHeight s⟩

/-- The width of an item in a row: its own where there is room for all, else a share. -/
def rowWidth (s : UiSettings) (box : Rect) (count total : Int) (e : HintEntry) : Int :=
  if total ≤ box.width then e.width else (box.width - (count - 1) * s.hintItemGap).tdiv count

/-- The body of the loop over the items: its call of `hint` if it makes one, and the next `x`. -/
def hintTurn (s : UiSettings) (box : Rect) (count total : Int) (i : Nat) (x : Int) (e : HintEntry) : HintCall × Int :=
  let item : Rect := ⟨box.x, box.y, box.width, s.hintItemHeight⟩
  let key := keys.getD e.action []
  match s.hintLayout with
  | .custom =>
    let item := (hintItemAt s e.action).box
    (⟨{ item with x := item.x + box.x, y := item.y + box.y }, key, e.text, s.text.align⟩, x)
  | .horizontal =>
    let width := rowWidth s box count total e
    (⟨{ item with x, width }, key, e.text, 0⟩, x + (width + s.hintItemGap))
  | .grid =>
    let width := (box.width - (s.hintColumns - 1) * s.hintItemGap).tdiv s.hintColumns
    (⟨{ item with
        x := item.x + (i : Int).tmod s.hintColumns * (width + s.hintItemGap)
        y := item.y + (i : Int).tdiv s.hintColumns * (item.height + s.hintItemGap)
        width }, key, e.text, s.text.align⟩, x)
  | .legacy | .vertical =>
    (⟨{ item with y := item.y + i * (item.height + s.hintItemGap) }, key, e.text, s.text.align⟩, x)

def hintLoop (s : UiSettings) (box : Rect) (count total : Int) : Nat → Int → List HintEntry → List HintCall
  | _, _, [] => []
  | i, x, e :: entries =>
    let (call, x) := hintTurn s box count total i x e
    if call.box.width > 0 then call :: hintLoop s box count total (i + 1) x entries
    else hintLoop s box count total (i + 1) x entries

section
variable (textWidth : CString → Int → Int) (s : UiSettings) (labels : Nat → Option CString)

/-- The calls of `hint`. -/
def hintCalls : List HintCall :=
  let box := innerBox s
  let entries := hintEntries textWidth s labels
  let count : Int := entries.length
  if count = 0 then []
  else
    let total := (entries.map (·.width)).sum + (count - 1) * s.hintItemGap
    let x := if s.hintLayout = .horizontal ∧ total < box.width then
        box.x + ((box.width - total) * s.text.align).tdiv 2
      else box.x
    hintLoop s box count total 0 x entries

def uiDrawHints : List Drawn :=
  panel s.hints s.hintPanel ++ (hintCalls textWidth s labels).flatMap fun call => (hint textWidth s call).drawn

end

/-! ## The items -/

section
variable {textWidth : CString → Int → Int} {s : UiSettings} {labels : Nat → Option CString}

theorem keyWidth_nonneg (htext : ∀ text tracking, 0 ≤ textWidth text tracking) (hs : HintsFit s) (key : CString) :
    0 ≤ keyWidth textWidth s key := by
  rw [keyWidth]
  have hkey := htext key s.text.tracking
  have hfixed := hs.keyWidth
  have hpadding := hs.keyPadding
  split <;> omega

theorem hintWidth_nonneg (htext : ∀ text tracking, 0 ≤ textWidth text tracking) (hs : HintsFit s) (key label : CString) :
    0 ≤ hintWidth textWidth s key label := by
  have hkey := keyWidth_nonneg htext hs key
  have hlabel := htext label s.text.tracking
  have hgap := hs.keyGap
  rw [hintWidth]
  split
  · exact hkey
  · split
    · split <;> omega
    · omega

theorem hintEntry_eq_some {action : Nat} {e : HintEntry} (h : hintEntry textWidth s labels action = some e) :
    e.action = action ∧ (hintItemAt s action).visible ∧
      e.width = hintWidth textWidth s (keys.getD action []) e.text := by
  rw [hintEntry] at h
  split at h
  · cases h
  · next hvisible =>
    obtain ⟨label, -, rfl⟩ := Option.map_eq_some_iff.mp h
    exact ⟨rfl, not_not.mp hvisible, rfl⟩

theorem hintEntries_visible {e : HintEntry} (he : e ∈ hintEntries textWidth s labels) :
    (hintItemAt s e.action).visible := by
  obtain ⟨action, -, hentry⟩ := List.mem_filterMap.mp he
  obtain ⟨haction, hvisible, -⟩ := hintEntry_eq_some hentry
  rw [haction]
  exact hvisible

theorem hintEntries_width_nonneg (htext : ∀ text tracking, 0 ≤ textWidth text tracking) (hs : HintsFit s) {e : HintEntry}
    (he : e ∈ hintEntries textWidth s labels) : 0 ≤ e.width := by
  obtain ⟨action, -, hentry⟩ := List.mem_filterMap.mp he
  rw [(hintEntry_eq_some hentry).2.2]
  exact hintWidth_nonneg htext hs _ _

/-- The numbers of the visible items. -/
def visibleActions (s : UiSettings) : List Nat := (List.range s.hintItems.length).filter fun i => (hintItemAt s i).visible

theorem length_visibleActions (s : UiSettings) : (visibleActions s).length = visibleCount s.hintItems := by
  have hitems : s.hintItems = (List.range s.hintItems.length).map (hintItemAt s) := by
    apply List.ext_getElem
    · rw [List.length_map, List.length_range]
    · intro i hi hi'
      rw [List.getElem_map, List.getElem_range, hintItemAt, List.getD_eq_getElem _ _ hi]
  rw [visibleCount, visibleActions, ← List.countP_eq_length_filter]
  conv_rhs => rw [hitems, List.countP_map]
  rfl

/-- As the order names no action twice there is a visible item for each that is drawn. -/
theorem length_hintEntries_le (textWidth : CString → Int → Int) (labels : Nat → Option CString) (hs : HintsFit s) :
    (hintEntries textWidth s labels).length ≤ visibleCount s.hintItems := by
  have hnodup : ((hintEntries textWidth s labels).map (·.action)).Nodup := by
    rw [hintEntries, List.map_filterMap]
    refine hs.order.filterMap fun action action' named hnamed hnamed' => ?_
    obtain ⟨e, he, rfl⟩ := Option.map_eq_some_iff.mp hnamed
    obtain ⟨e', he', heq⟩ := Option.map_eq_some_iff.mp hnamed'
    rw [← (hintEntry_eq_some he).1, ← (hintEntry_eq_some he').1, heq]
  have hsubset : (hintEntries textWidth s labels).map (·.action) ⊆ visibleActions s := by
    intro action haction
    obtain ⟨e, he, rfl⟩ := List.mem_map.mp haction
    have hvisible := hintEntries_visible he
    refine List.mem_filter.mpr ⟨List.mem_range.mpr ?_, hvisible⟩
    by_contra hout
    rw [hintItemAt, List.getD_eq_default _ _ (Nat.le_of_not_lt hout)] at hvisible
    cases hvisible
  calc (hintEntries textWidth s labels).length = ((hintEntries textWidth s labels).map (·.action)).length :=
        (List.length_map _).symm
    _ ≤ (visibleActions s).length := (List.subperm_of_subset hnodup hsubset).length_le
    _ = visibleCount s.hintItems := length_visibleActions s

end

/-! ## The key -/

section
variable {textWidth : CString → Int → Int} {s : UiSettings}

/-- The box of the key and the label is a part of the item. -/
theorem hintBox_within (htext : ∀ text tracking, 0 ≤ textWidth text tracking) (hs : HintsFit s) {call : HintCall}
    (hwidth : 0 ≤ call.box.width) (halign : 0 ≤ call.align ∧ call.align ≤ 2) :
    0 ≤ (hintBox textWidth s call).width ∧ (hintBox textWidth s call).Within call.box := by
  have htotal := hintWidth_nonneg htext hs call.key call.label
  rw [hintBox]
  split
  · next hless =>
    obtain ⟨hleft, hright⟩ := shift_le (call.box.width - hintWidth textWidth s call.key call.label) (by omega) halign
    refine ⟨htotal, ?_, Int.le_refl _, ?_, Int.le_refl _⟩
    · show call.box.x ≤ call.box.x + _
      omega
    · show call.box.x + _ + hintWidth textWidth s call.key call.label ≤ call.box.x + call.box.width
      omega
  · exact ⟨hwidth, Int.le_refl _, Int.le_refl _, Int.le_refl _, Int.le_refl _⟩

theorem capWidth_le (htext : ∀ text tracking, 0 ≤ textWidth text tracking) (hs : HintsFit s) {call : HintCall}
    (hbox : 0 ≤ (hintBox textWidth s call).width) :
    0 ≤ capWidth textWidth s call ∧ capWidth textWidth s call ≤ (hintBox textWidth s call).width := by
  have hkey := keyWidth_nonneg htext hs call.key
  rw [capWidth]
  split <;> omega

/-- The key is at the left of the box, at its right, or where the alignment has it. -/
theorem hint_cap_eq (textWidth : CString → Int → Int) (s : UiSettings) (call : HintCall) : (hint textWidth s call).cap.width = capWidth textWidth s call ∧
    ∃ align, (align = 0 ∨ align = 2 ∨ align = call.align) ∧ (hint textWidth s call).cap.x =
      (hintBox textWidth s call).x + (((hintBox textWidth s call).width - capWidth textWidth s call) * align).tdiv 2 := by
  by_cases habove : s.keyPosition = 2 ∧ call.label ≠ []
  · simp only [hint, if_pos habove]
    exact ⟨trivial, call.align, Or.inr (Or.inr rfl), rfl⟩
  · by_cases hafter : s.keyPosition = 1 ∧ call.label ≠ []
    · simp only [hint, if_neg habove, if_pos hafter]
      refine ⟨trivial, 2, Or.inr (Or.inl rfl), ?_⟩
      rw [Int.mul_tdiv_cancel _ (by decide)]
    · simp only [hint, if_neg habove, if_neg hafter]
      refine ⟨by split <;> rfl, 0, Or.inl rfl, ?_⟩
      rw [Int.mul_zero, Int.zero_tdiv, Int.add_zero]
      split <;> rfl

theorem hint_cap (htext : ∀ text tracking, 0 ≤ textWidth text tracking) (hs : HintsFit s) {call : HintCall}
    (hwidth : 0 ≤ call.box.width) (halign : 0 ≤ call.align ∧ call.align ≤ 2) :
    call.box.x ≤ (hint textWidth s call).cap.x ∧ 0 ≤ (hint textWidth s call).cap.width ∧
      (hint textWidth s call).cap.x + (hint textWidth s call).cap.width ≤ call.box.x + call.box.width := by
  obtain ⟨hbox, hwithin⟩ := hintBox_within htext hs hwidth halign
  obtain ⟨hnonneg, hle⟩ := capWidth_le htext hs hbox
  obtain ⟨hcap, align, halign', hx⟩ := hint_cap_eq textWidth s call
  have halign'' : 0 ≤ align ∧ align ≤ 2 := by omega
  obtain ⟨hshift, hroom⟩ :=
    shift_le ((hintBox textWidth s call).width - capWidth textWidth s call) (by omega) halign''
  rw [hcap, hx]
  have hleft := hwithin.left_le
  have hright := hwithin.right_le
  omega

end

/-! ## The loop -/

section
variable {s : UiSettings} {box : Rect} {count total : Int}

theorem hintLoop_cons {e : HintEntry} {entries : List HintEntry} {i : Nat} {x : Int} :
    hintLoop s box count total i x (e :: entries) =
      if (hintTurn s box count total i x e).1.box.width > 0 then
        (hintTurn s box count total i x e).1 :: hintLoop s box count total (i + 1) (hintTurn s box count total i x e).2 entries
      else hintLoop s box count total (i + 1) (hintTurn s box count total i x e).2 entries := rfl

/-- Each call is a turn's. -/
theorem mem_hintLoop {entries : List HintEntry} {i : Nat} {x : Int} {call : HintCall}
    (h : call ∈ hintLoop s box count total i x entries) :
    0 < call.box.width ∧ ∃ j x', ∃ e ∈ entries, i ≤ j ∧ j < i + entries.length ∧ call = (hintTurn s box count total j x' e).1 := by
  induction entries generalizing i x with
  | nil => exact absurd h List.not_mem_nil
  | cons e entries ih =>
    have hrest : ∀ x', call ∈ hintLoop s box count total (i + 1) x' entries → 0 < call.box.width ∧
        ∃ j x', ∃ e' ∈ e :: entries, i ≤ j ∧ j < i + (e :: entries).length ∧ call = (hintTurn s box count total j x' e').1 := by
      intro x' hmem
      obtain ⟨hwidth, j, x'', e', he', hle, hlt, hcall⟩ := ih hmem
      refine ⟨hwidth, j, x'', e', List.mem_cons_of_mem e he', by omega, ?_, hcall⟩
      rw [List.length_cons]
      omega
    rw [hintLoop_cons] at h
    split at h
    · next hwidth =>
      rcases List.mem_cons.mp h with hfirst | hmem
      · refine ⟨by rw [hfirst]; exact hwidth, i, x, e, List.mem_cons_self, Nat.le_refl i, ?_, hfirst⟩
        rw [List.length_cons]
        omega
      · exact hrest _ hmem
    · exact hrest _ h

/-- Turns that make boxes in order make them apart from each other. -/
theorem hintLoop_pairwise {entries : List HintEntry} {i : Nat} {x : Int}
    (h : ∀ j k x x' e e', j < k → (hintTurn s box count total j x e).1.box.Apart (hintTurn s box count total k x' e').1.box) :
    (hintLoop s box count total i x entries).Pairwise fun a b => a.box.Apart b.box := by
  induction entries generalizing i x with
  | nil => exact List.Pairwise.nil
  | cons e entries ih =>
    rw [hintLoop_cons]
    split
    · refine List.pairwise_cons.mpr ⟨fun call hcall => ?_, ih⟩
      obtain ⟨-, j, x', e', -, hle, -, rfl⟩ := mem_hintLoop hcall
      exact h i j x x' e e' hle
    · exact ih

theorem hintTurn_row (hlayout : s.hintLayout = .horizontal) (i : Nat) (x : Int) (e : HintEntry) :
    hintTurn s box count total i x e = (⟨⟨x, box.y, rowWidth s box count total e, s.hintItemHeight⟩, keys.getD e.action [],
      e.text, 0⟩, x + (rowWidth s box count total e + s.hintItemGap)) := by
  rw [hintTurn, hlayout]

/-- Items in a row, from `x` on: each begins where the one before it has ended, behind the gap. -/
theorem hintLoop_row (hlayout : s.hintLayout = .horizontal) (hgap : 0 ≤ s.hintItemGap)
    {entries : List HintEntry} (hwidth : ∀ e ∈ entries, 0 ≤ rowWidth s box count total e) {i : Nat} {x : Int} :
    (hintLoop s box count total i x entries).Pairwise (fun a b => a.box.Apart b.box) ∧
      ∀ call ∈ hintLoop s box count total i x entries, x ≤ call.box.x ∧ call.box.x + call.box.width + s.hintItemGap ≤
        x + (entries.map fun e => rowWidth s box count total e + s.hintItemGap).sum := by
  induction entries generalizing i x with
  | nil => exact ⟨List.Pairwise.nil, fun call hcall => absurd hcall List.not_mem_nil⟩
  | cons e entries ih =>
    have hfirst := hwidth e List.mem_cons_self
    have hwidths : ∀ e ∈ entries, 0 ≤ rowWidth s box count total e := fun e he => hwidth e (List.mem_cons_of_mem _ he)
    have hsum : 0 ≤ (entries.map fun e => rowWidth s box count total e + s.hintItemGap).sum := by
      apply List.sum_nonneg
      intro step hstep
      obtain ⟨e', he', rfl⟩ := List.mem_map.mp hstep
      exact Int.add_nonneg (hwidths e' he') hgap
    obtain ⟨hapart, hrest⟩ := ih hwidths (i := i + 1) (x := x + (rowWidth s box count total e + s.hintItemGap))
    rw [hintLoop_cons, hintTurn_row hlayout, List.map_cons, List.sum_cons]
    have hlater : ∀ call ∈ hintLoop s box count total (i + 1) (x + (rowWidth s box count total e + s.hintItemGap)) entries,
        x ≤ call.box.x ∧ call.box.x + call.box.width + s.hintItemGap ≤ x + (rowWidth s box count total e + s.hintItemGap +
          (entries.map fun e => rowWidth s box count total e + s.hintItemGap).sum) := by
      intro call hcall
      obtain ⟨hleft, hright⟩ := hrest call hcall
      omega
    split
    · refine ⟨List.pairwise_cons.mpr ⟨fun call hcall => ?_, hapart⟩, fun call hcall => ?_⟩
      · apply Rect.apart_of_right_le
        show x + rowWidth s box count total e ≤ call.box.x
        have hleft := (hrest call hcall).1
        omega
      · rcases List.mem_cons.mp hcall with rfl | hmem
        · show x ≤ x ∧ x + rowWidth s box count total e + s.hintItemGap ≤ _
          omega
        · exact hlater call hmem
    · exact ⟨hapart, hlater⟩

end

/-! ## The layout of an accepted record -/

section
variable {textWidth : CString → Int → Int} {s : UiSettings} {labels : Nat → Option CString}

/-- The columns and the rows of the check, as numbers. -/
theorem columnsOf_eq (hs : HintsFit s) (hvisible : visibleCount s.hintItems ≠ 0) :
    ∃ cols : Nat, 0 < cols ∧ columnsOf s = cols ∧
      neededRows s = (((visibleCount s.hintItems + cols - 1) / cols : Nat) : Int) := by
  have hcols : 0 < columnsOf s := by
    have hcolumns := hs.columns
    rw [columnsOf]
    split
    · omega
    · split <;> omega
  obtain ⟨cols, hcast⟩ := Int.eq_ofNat_of_zero_le hcols.le
  have hpos : 0 < cols := by omega
  refine ⟨cols, hpos, hcast, ?_⟩
  rw [neededRows, if_pos ⟨hvisible, hcols⟩, hcast, Int.tdiv_eq_ediv_of_nonneg (by omega), Int.natCast_ediv]
  congr 1
  omega

/-- A visible item is one of the six. -/
theorem hintItemAt_mem {action : Nat} (h : (hintItemAt s action).visible) :
    action < s.hintItems.length ∧ hintItemAt s action ∈ s.hintItems := by
  by_cases hlt : action < s.hintItems.length
  · refine ⟨hlt, ?_⟩
    rw [hintItemAt, List.getD_eq_getElem _ _ hlt]
    exact List.getElem_mem hlt
  · rw [hintItemAt, List.getD_eq_default _ _ (Nat.le_of_not_lt hlt)] at h
    cases h

theorem hintTurn_align (hs : HintsFit s) {box : Rect} {count total x : Int} {i : Nat} {e : HintEntry} :
    0 ≤ (hintTurn s box count total i x e).1.align ∧ (hintTurn s box count total i x e).1.align ≤ 2 := by
  have halign := hs.align
  rw [hintTurn]
  split
  · exact halign
  · show (0 : Int) ≤ 0 ∧ (0 : Int) ≤ 2
    omega
  · exact halign
  · exact halign
  · exact halign

/-- The box of every call that the loop can make is in the panel, and the boxes are apart from each other where the
layout is not the user's own. -/
def LaidOut (s : UiSettings) (calls : List HintCall) : Prop :=
  (∀ call ∈ calls, call.box.Within (innerBox s)) ∧ (s.hintLayout ≠ .custom → calls.Pairwise fun a b => a.box.Apart b.box)

/-- Where each turn fills a cell of the grid that was checked. -/
theorem hintLoop_cells (hs : HintsFit s) (hlegacy : s.hintLayout ≠ .legacy) (hcustom : s.hintLayout ≠ .custom)
    (width : Int) {count total x : Int} {cols : Nat} (hcols : columnsOf s = cols) (hpos : 0 < cols) (hwidth : 0 ≤ width)
    (hacross : cols * width + (cols - 1) * s.hintItemGap ≤ innerWidth s)
    (hturn : ∀ i x e, (hintTurn s (innerBox s) count total i x e).1.box =
      cell (innerBox s) width s.hintItemHeight s.hintItemGap cols i)
    {entries : List HintEntry} (hentries : entries.length ≤ visibleCount s.hintItems) :
    LaidOut s (hintLoop s (innerBox s) count total 0 x entries) := by
  constructor
  · intro call hcall
    obtain ⟨-, i, x', e, he, -, hi, rfl⟩ := mem_hintLoop hcall
    rw [hturn]
    have hvisible : visibleCount s.hintItems ≠ 0 := by omega
    obtain ⟨cols', -, hcols', hrows⟩ := columnsOf_eq hs hvisible
    obtain rfl : cols = cols' := by omega
    have hdown := (hs.flow hlegacy hcustom hvisible).2
    rw [hrows] at hdown
    refine cell_within hpos hwidth hs.itemHeight hs.itemGap ?_ hacross hdown
    calc i / cols < i / cols + 1 := Nat.lt_succ_self _
      _ = (i + cols) / cols := (Nat.add_div_right i hpos).symm
      _ ≤ (visibleCount s.hintItems + cols - 1) / cols := Nat.div_le_div_right (by omega)
  · intro _
    apply hintLoop_pairwise
    intro j k x x' e e' hlt
    rw [hturn, hturn]
    exact cell_apart hwidth hs.itemHeight hs.itemGap hlt

theorem hintLoop_grid (hs : HintsFit s) (hlayout : s.hintLayout = .grid) {count total x : Int}
    {entries : List HintEntry} (hentries : entries.length ≤ visibleCount s.hintItems)
    (hvisible : visibleCount s.hintItems ≠ 0) : LaidOut s (hintLoop s (innerBox s) count total 0 x entries) := by
  have hlegacy : s.hintLayout ≠ .legacy := by simp [hlayout]
  have hcustom : s.hintLayout ≠ .custom := by simp [hlayout]
  obtain ⟨cols, hpos, hcols, -⟩ := columnsOf_eq hs hvisible
  have hcolumns : s.hintColumns = cols := by
    rw [← hcols, columnsOf, if_neg (by simp [hlayout]), if_pos hlayout]
  have hroom := (hs.flow hlegacy hcustom hvisible).1
  rw [hcols] at hroom
  have hshare : (innerWidth s - (cols - 1) * s.hintItemGap).tdiv cols =
      (innerWidth s - (cols - 1) * s.hintItemGap) / cols := Int.tdiv_eq_ediv_of_nonneg (by omega)
  refine hintLoop_cells hs hlegacy hcustom ((innerWidth s - (cols - 1) * s.hintItemGap).tdiv cols) hcols hpos
    ?_ ?_ ?_ hentries
  · rw [hshare]
    exact Int.ediv_nonneg (by omega) (by omega)
  · have hle := Int.mul_ediv_self_le (x := innerWidth s - (cols - 1) * s.hintItemGap) (k := cols) (by omega)
    rw [hshare]
    omega
  · intro i x e
    rw [hintTurn, hlayout, cell, hcolumns]
    rfl

theorem hintLoop_column (hs : HintsFit s) (hlayout : s.hintLayout = .vertical) {count total x : Int}
    {entries : List HintEntry} (hentries : entries.length ≤ visibleCount s.hintItems)
    (hvisible : visibleCount s.hintItems ≠ 0) : LaidOut s (hintLoop s (innerBox s) count total 0 x entries) := by
  have hlegacy : s.hintLayout ≠ .legacy := by simp [hlayout]
  have hcustom : s.hintLayout ≠ .custom := by simp [hlayout]
  have hcols : columnsOf s = ((1 : Nat) : Int) := by
    rw [columnsOf, if_neg (by simp [hlayout]), if_neg (by simp [hlayout])]
    rfl
  have hroom := (hs.flow hlegacy hcustom hvisible).1
  rw [hcols] at hroom
  refine hintLoop_cells hs hlegacy hcustom (innerWidth s) hcols Nat.one_pos (by omega) (by omega) ?_ hentries
  intro i x e
  rw [hintTurn, hlayout, cell, Nat.mod_one, Nat.div_one, Int.natCast_zero, Int.zero_mul, Int.add_zero]
  rfl

theorem sum_map_add_const {entries : List HintEntry} {f : HintEntry → Int} {gap : Int} :
    (entries.map fun e => f e + gap).sum = (entries.map f).sum + entries.length * gap := by
  rw [List.sum_map_add, List.map_const', List.sum_replicate, nsmul_eq_mul]

/-- The room in a row is for its items and the gaps, with one more gap behind the last. -/
theorem rowWidth_spec {total : Int} {entries : List HintEntry} (hwidth : ∀ e ∈ entries, 0 ≤ e.width)
    (htotal : total = (entries.map (·.width)).sum + (entries.length - 1) * s.hintItemGap)
    (hroom : entries.length ≤ innerWidth s - (entries.length - 1) * s.hintItemGap) :
    (∀ e ∈ entries, 0 ≤ rowWidth s (innerBox s) entries.length total e) ∧
      (entries.map fun e => rowWidth s (innerBox s) entries.length total e + s.hintItemGap).sum ≤
        (if total ≤ innerWidth s then total else innerWidth s) + s.hintItemGap := by
  have hgaps : ((entries.length : Int) - 1) * s.hintItemGap + s.hintItemGap = entries.length * s.hintItemGap := by ring
  by_cases hown : total ≤ innerWidth s
  · have heq : ∀ e, rowWidth s (innerBox s) entries.length total e = e.width := fun e => if_pos hown
    have hsum : (entries.map fun e => e.width + s.hintItemGap).sum =
        (entries.map (·.width)).sum + entries.length * s.hintItemGap := sum_map_add_const
    simp only [heq, if_pos hown, hsum]
    exact ⟨hwidth, by omega⟩
  · have heq : ∀ e, rowWidth s (innerBox s) entries.length total e =
        (innerWidth s - (entries.length - 1) * s.hintItemGap) / entries.length := by
      intro e
      rw [← Int.tdiv_eq_ediv_of_nonneg (by omega)]
      exact if_neg hown
    simp only [heq, if_neg hown]
    refine ⟨fun e _ => Int.ediv_nonneg (by omega) (by omega), ?_⟩
    have hsome : (entries.length : Int) ≠ 0 := by
      intro hnone
      rw [List.length_eq_zero_iff.mp (by omega : entries.length = 0)] at htotal hroom
      simp only [List.map_nil, List.sum_nil, List.length_nil] at htotal hroom
      omega
    have hshares := Int.mul_ediv_self_le (x := innerWidth s - (entries.length - 1) * s.hintItemGap) hsome
    rw [sum_map_add_const, List.map_const', List.sum_replicate, nsmul_eq_mul]
    omega

/-- Where a row begins, aligned in the room that it leaves. -/
theorem rowStart_spec {x width total align : Int} (halign : 0 ≤ align ∧ align ≤ 2) :
    x ≤ (if total < width then x + ((width - total) * align).tdiv 2 else x) ∧
      (if total < width then x + ((width - total) * align).tdiv 2 else x) + (if total ≤ width then total else width) ≤
        x + width := by
  split
  · next hless =>
    obtain ⟨hleft, hright⟩ := shift_le (width - total) (by omega) halign
    rw [if_pos hless.le]
    omega
  · split <;> omega

theorem hintLoop_horizontal (hs : HintsFit s) (hlayout : s.hintLayout = .horizontal) {x total : Int}
    {entries : List HintEntry} (hentries : entries.length ≤ visibleCount s.hintItems)
    (hvisible : visibleCount s.hintItems ≠ 0) (hwidth : ∀ e ∈ entries, 0 ≤ e.width)
    (htotal : total = (entries.map (·.width)).sum + (entries.length - 1) * s.hintItemGap)
    (hleft : (innerBox s).x ≤ x)
    (hright : x + (if total ≤ innerWidth s then total else innerWidth s) ≤ (innerBox s).x + innerWidth s) :
    LaidOut s (hintLoop s (innerBox s) entries.length total 0 x entries) := by
  have hlegacy : s.hintLayout ≠ .legacy := by simp [hlayout]
  have hcustom : s.hintLayout ≠ .custom := by simp [hlayout]
  have hflow := hs.flow hlegacy hcustom hvisible
  have hcolumns : columnsOf s = visibleCount s.hintItems := by rw [columnsOf, if_pos hlayout]
  have hgap := hs.itemGap
  have hroom : (entries.length : Int) ≤ innerWidth s - (entries.length - 1) * s.hintItemGap := by
    have hfewer : ((entries.length : Int) - 1) * s.hintItemGap ≤ (visibleCount s.hintItems - 1) * s.hintItemGap :=
      Int.mul_le_mul_of_nonneg_right (by omega) hgap
    have hfits := hflow.1
    rw [hcolumns] at hfits
    omega
  obtain ⟨hwidths, hsum⟩ := rowWidth_spec hwidth htotal hroom
  obtain ⟨hapart, hcalls⟩ := hintLoop_row hlayout hgap hwidths (i := 0) (x := x)
  refine ⟨fun call hcall => ?_, fun _ => hapart⟩
  obtain ⟨hx, hend⟩ := hcalls call hcall
  obtain ⟨-, i, x', e, -, -, -, rfl⟩ := mem_hintLoop hcall
  obtain ⟨cols, hpos, hcols, hrows⟩ := columnsOf_eq hs hvisible
  have hrow : 0 < (visibleCount s.hintItems + cols - 1) / cols := by
    apply Nat.div_pos
    · omega
    · omega
  have hdown : s.hintItemHeight ≤ innerHeight s := by
    have hfits := hflow.2
    have hplace := place_le hs.itemHeight hgap hrow
    rw [hrows] at hfits
    omega
  rw [hintTurn_row hlayout] at hx hend ⊢
  constructor
  · exact hleft.trans hx
  · exact Int.le_refl _
  · show x' + rowWidth s (innerBox s) entries.length total e ≤ (innerBox s).x + innerWidth s
    dsimp only at hend
    omega
  · show (innerBox s).y + s.hintItemHeight ≤ (innerBox s).y + innerHeight s
    omega

theorem hintLoop_custom (hs : HintsFit s) (hlayout : s.hintLayout = .custom) {count total x : Int} {i : Nat}
    {entries : List HintEntry} (hentries : ∀ e ∈ entries, (hintItemAt s e.action).visible) :
    LaidOut s (hintLoop s (innerBox s) count total i x entries) := by
  refine ⟨fun call hcall => ?_, fun hcustom => absurd hlayout hcustom⟩
  obtain ⟨-, j, x', e, he, -, -, rfl⟩ := mem_hintLoop hcall
  have hvisible := hentries e he
  obtain ⟨hx, hy, -, hright, hbottom⟩ := hs.custom hlayout _ (hintItemAt_mem hvisible).2 hvisible
  have hbox : (hintTurn s (innerBox s) count total j x' e).1.box = { (hintItemAt s e.action).box with
      x := (hintItemAt s e.action).box.x + (innerBox s).x
      y := (hintItemAt s e.action).box.y + (innerBox s).y } := by
    rw [hintTurn, hlayout]
  rw [hbox]
  constructor
  · show (innerBox s).x ≤ (hintItemAt s e.action).box.x + (innerBox s).x
    omega
  · show (innerBox s).y ≤ (hintItemAt s e.action).box.y + (innerBox s).y
    omega
  · show (hintItemAt s e.action).box.x + (innerBox s).x + (hintItemAt s e.action).box.width ≤
      (innerBox s).x + innerWidth s
    omega
  · show (hintItemAt s e.action).box.y + (innerBox s).y + (hintItemAt s e.action).box.height ≤
      (innerBox s).y + innerHeight s
    omega

/-- Every layout but the legacy one, whose hints are drawn elsewhere. -/
theorem hintCalls_laidOut (labels : Nat → Option CString) (htext : ∀ text tracking, 0 ≤ textWidth text tracking)
    (hs : HintsFit s) (hlegacy : s.hintLayout ≠ .legacy) : LaidOut s (hintCalls textWidth s labels) := by
  rw [hintCalls]
  split
  · exact ⟨fun call hcall => absurd hcall List.not_mem_nil, fun _ => List.Pairwise.nil⟩
  · next hsome =>
    have hentries := length_hintEntries_le textWidth labels hs
    have hvisible : visibleCount s.hintItems ≠ 0 := by omega
    cases hlayout : s.hintLayout with
    | legacy => exact absurd hlayout hlegacy
    | horizontal =>
      simp only [true_and]
      obtain ⟨hleft, hright⟩ := rowStart_spec hs.align
      exact hintLoop_horizontal hs hlayout hentries hvisible (fun e he => hintEntries_width_nonneg htext hs he) rfl
        hleft hright
    | vertical => exact hintLoop_column hs hlayout hentries hvisible
    | grid => exact hintLoop_grid hs hlayout hentries hvisible
    | custom => exact hintLoop_custom hs hlayout fun e he => hintEntries_visible he

theorem hintCalls_align (hs : HintsFit s) {call : HintCall} (h : call ∈ hintCalls textWidth s labels) :
    0 < call.box.width ∧ 0 ≤ call.align ∧ call.align ≤ 2 := by
  rw [hintCalls] at h
  split at h
  · exact absurd h List.not_mem_nil
  · obtain ⟨hwidth, j, x, e, -, -, -, rfl⟩ := mem_hintLoop h
    exact ⟨hwidth, hintTurn_align hs⟩

end

/-- With the settings of any document that is accepted, whatever the labels and however wide texts are: the items are
inside the padding of the panel and at least one pixel wide, apart from each other where the layout is a row, a column
or a grid, and the key of each is inside it from left to right. -/
theorem uiDrawHints_fits (textWidth : CString → Int → Int) (htext : ∀ text tracking, 0 ≤ textWidth text tracking)
    (theme : UiTheme) (width height : Int) (doc : UiDocument) (s : UiSettings)
    (hread : ((uiSettingsRead theme width height).run doc).1 = some s) (hlegacy : s.hintLayout ≠ .legacy)
    (labels : Nat → Option CString) :
    (∀ call ∈ hintCalls textWidth s labels, call.box.Within (innerBox s) ∧ 1 ≤ call.box.width) ∧
      (s.hintLayout ≠ .custom → (hintCalls textWidth s labels).Pairwise fun a b => a.box.Apart b.box) ∧
      ∀ call ∈ hintCalls textWidth s labels, call.box.x ≤ (hint textWidth s call).cap.x ∧
        (hint textWidth s call).cap.x + (hint textWidth s call).cap.width ≤ call.box.x + call.box.width := by
  have hs := uiSettingsRead_fits hread
  obtain ⟨hwithin, hapart⟩ := hintCalls_laidOut labels htext hs hlegacy
  refine ⟨fun call hcall => ⟨hwithin call hcall, (hintCalls_align hs hcall).1⟩, hapart, fun call hcall => ?_⟩
  obtain ⟨hwidth, halign⟩ := hintCalls_align hs hcall
  obtain ⟨hleft, -, hright⟩ := hint_cap htext hs hwidth.le halign
  exact ⟨hleft, hright⟩

/-- `[hints]`, `layout: grid`, `y: 10px`, with the strings of the document one behind another. -/
def gridDocument : UiDocument :=
  { data := (["hints", "layout", "grid", "y", "10px"].map fun text => ascii text ++ [0]).flatten
    fields := [⟨some 0, 6, 13, 2, false⟩, ⟨some 0, 18, 20, 3, false⟩]
    errorLine := 0
    error := none }

def gridTheme : UiTheme := ⟨800, 600, 0, 800, 500, 0, 0, 0, 16⟩

theorem uiDrawHints_fits_grid : ∃ s, ((uiSettingsRead gridTheme 800 600).run gridDocument).1 = some s ∧
    (hintCalls (fun text _ => 10 * text.length) s fun _ => some (ascii "Boot")).Pairwise
      fun a b => a.box.Apart b.box := by
  have hlayout : ((uiSettingsRead gridTheme 800 600).run gridDocument).1.map (·.hintLayout) = some .grid := by
    decide +kernel
  obtain ⟨s, hread, hgrid⟩ := Option.map_eq_some_iff.mp hlayout
  have hlegacy : s.hintLayout ≠ .legacy := by simp [hgrid]
  have hcustom : s.hintLayout ≠ .custom := by simp [hgrid]
  refine ⟨s, hread, ?_⟩
  apply (uiDrawHints_fits (fun text _ => 10 * text.length) (fun text _ => ?_) gridTheme 800 600 gridDocument s hread hlegacy
    fun _ => some (ascii "Boot")).2.1 hcustom
  omega

end Limine.Ui.Hints
