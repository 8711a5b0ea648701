import Limine.Lib.Raster
import Limine.Lib.Verdict
import Limine.Ui.Document

/-!
# The settings of the key hints

What `ui_settings_read` reads for the key hints, from a document as `ui_document_read` leaves it: the style of their
text, the first part of `support_settings`, and the check of their box at the end.  The first error stays in the
document and reading goes on.  The other settings have no part in these values.

    uiSettingsRead gives a record: the hints fit their panel as the record says (HintsFit)    (uiSettingsRead_fits)
-/

namespace Limine.Ui.Hints

open Limine.Lib
open Limine.Ui.Document (UiDocument uiDocumentGet ascii)

abbrev CString := List UInt8

/-! ## The settings -/

def uiHintCount : Nat := 6

inductive UiHintLayout
  | legacy
  | horizontal
  | vertical
  | grid
  | custom
deriving DecidableEq, Repr

/-- The layout of this number. -/
def layoutOf : Nat → UiHintLayout
  | 0 => .legacy
  | 1 => .horizontal
  | 2 => .vertical
  | 3 => .grid
  | _ => .custom

structure UiTextStyle where
  file : Option CString
  size : Int
  tracking : Int
  align : Int
  colour : UInt32

structure UiSurface where
  fill : UInt32
  border : UInt32
  opacity : Int
  borderWidth : Int
  radius : Int

structure UiHintItem where
  label : Option CString
  visible : Bool
  box : Rect

/-- The part of `struct ui_settings` that the hints are drawn from; `text` is `text[2]`. -/
structure UiSettings where
  hints : Rect
  hintGap : Int
  hintLayout : UiHintLayout
  hintPadding : Int
  hintItemGap : Int
  hintItemHeight : Int
  hintColumns : Int
  hintOrder : List Nat
  keyPadding : Int
  keyGap : Int
  keyWidth : Int
  keyPosition : Nat
  keyColour : UInt32
  hintPanel : UiSurface
  keySurface : UiSurface
  hintItems : List UiHintItem
  text : UiTextStyle

/-! ## Reading a value -/

/-- A computation that reads a document and marks what it has read. -/
abbrev Reading := StateM UiDocument

def error (message : String) : Reading Unit :=
  modify fun doc => if doc.error = none then { doc with error := some message } else doc

def get (section_ key : String) : Reading (Option CString) := fun doc => uiDocumentGet doc (ascii section_) (ascii key)

def boolean (section_ key : String) (result : Bool) : Reading Bool := do
  match ← get section_ key with
  | none => return result
  | some v =>
    if v = ascii "yes" then return true
    else if v = ascii "no" then return false
    else
      error "expected yes or no"
      return result

def isDigit (c : UInt8) : Bool := 48 ≤ c && c ≤ 57

/-- The loop over the digits in front of the point. -/
def wholeDigits : Nat → CString → Option (Nat × CString)
  | n, [] => some (n, [])
  | n, c :: p =>
    if isDigit c then
      let n := n * 10 + (c.toNat - 48)
      if n > 32768 then none else wholeDigits n p
    else some (n, c :: p)

/-- The loop over the digits behind it. -/
def fractionDigits (n place : Nat) : CString → Nat × CString
  | [] => (n, [])
  | c :: p =>
    if isDigit c ∧ place ≠ 0 then fractionDigits (n + (c.toNat - 48) * place) (place / 10) p else (n, c :: p)

/-- In thousandths, with the text behind the number. -/
def number (text : CString) : Option (Int × CString) :=
  let negative := text.head? == some 45
  let p := if negative then text.tail else text
  if ¬ (p.head?.any isDigit) then none
  else do
    let (n, p) ← wholeDigits 0 p
    let n := n * 1000
    let (n, p) ←
      if p.head? = some 46 then
        if ¬ (p.tail.head?.any isDigit) then none else some (fractionDigits n 100 p.tail)
      else some (n, p)
    return (if negative then -(n : Int) else n, p)

def dimension (section_ key : String) (fallback parent scale : Int) (percent : Bool) : Reading Int := do
  match ← get section_ key with
  | none => return fallback
  | some v =>
    match number v with
    | none =>
      error "invalid dimension"
      return fallback
    | some (n, v) =>
      let result : Option Int :=
        if v = ascii "px" then some n
        else if v = ascii "u" then some ((n * scale).tdiv 65536)
        else if percent ∧ v = ascii "%" ∧ n ≥ 0 ∧ n ≤ 100000 then some ((n * parent).tdiv 100)
        else none
      match result with
      | none =>
        error "expected px, u or permitted % dimension"
        return fallback
      | some result =>
        if result < -32768000 ∨ result > 32768000 then
          error "dimension out of range"
          return fallback
        else return (result + if result < 0 then -500 else 500).tdiv 1000

/-- A digit of a colour. -/
def colourDigit (c : UInt8) : Option UInt32 :=
  if 48 ≤ c ∧ c ≤ 57 then some (c - 48).toUInt32
  else if 97 ≤ c ∧ c ≤ 102 then some (c - 87).toUInt32
  else if 65 ≤ c ∧ c ≤ 70 then some (c - 55).toUInt32
  else none

def colour (section_ key : String) (out : UInt32) : Reading UInt32 := do
  match ← get section_ key with
  | none => return out
  | some v =>
    if v.length ≠ 7 ∨ v.head? ≠ some 35 then
      error "expected #RRGGBB colour"
      return out
    else
      match v.tail.foldlM (fun (n : UInt32) c => (colourDigit c).map fun d => n <<< 4 ||| d) 0 with
      | none =>
        error "invalid colour digit"
        return out
      | some n => return n

/-- `letter_spacing` -/
def tracking (section_ : String) (out : Int) : Reading Int := do
  match ← get section_ "letter_spacing" with
  | none => return out
  | some v =>
    match number v with
    | none =>
      error "letter_spacing must be -16px to 64px"
      return out
    | some (n, v) =>
      if v ≠ ascii "px" ∨ n < -16000 ∨ n > 64000 then
        error "letter_spacing must be -16px to 64px"
        return out
      else return (n * 64).tdiv 1000

/-- `align` -/
def alignment (section_ : String) (out : Int) : Reading Int := do
  match ← get section_ "align" with
  | none => return out
  | some v =>
    if v = ascii "left" then return 0
    else if v = ascii "center" then return 1
    else if v = ascii "right" then return 2
    else
      error "expected left, center or right alignment"
      return out

def textStyle (t : UiTextStyle) (section_ : String) (scale : Int) : Reading UiTextStyle := do
  let file ← get section_ "font"
  let size ← dimension section_ "font_size" t.size 0 scale false
  let colour ← colour section_ "colour" t.colour
  let tracking ← tracking section_ t.tracking
  let align ← alignment section_ t.align
  if size < 4 ∨ size > 256 then error "font_size must resolve to 4..256px"
  return { file := file.or t.file, size, tracking, align, colour }

def rect (r : Rect) (section_ : String) (width height scale : Int) (sized : Bool) : Reading Rect := do
  let x ← dimension section_ "x" r.x width scale true
  let y ← dimension section_ "y" r.y height scale true
  let boxWidth ← dimension section_ "width" r.width width scale true
  let boxHeight ← if sized then dimension section_ "height" r.height height scale true else pure r.height
  return ⟨x, y, boxWidth, boxHeight⟩

def opacity (section_ key : String) (out : Int) : Reading Int := do
  match ← get section_ key with
  | none => return out
  | some v =>
    match number v with
    | none =>
      error "opacity must be 0..1"
      return out
    | some (n, v) =>
      if v ≠ [] ∨ n < 0 ∨ n > 1000 then
        error "opacity must be 0..1"
        return out
      else return (n * 255 + 500).tdiv 1000

def surface (s : UiSurface) (section_ : String) (scale : Int) : Reading UiSurface := do
  let fill ← colour section_ "fill_colour" s.fill
  let border ← colour section_ "border_colour" s.border
  let borderWidth ← dimension section_ "border_width" s.borderWidth 0 scale false
  let radius ← dimension section_ "corner_radius" s.radius 0 scale false
  let opacity ← opacity section_ "fill_opacity" s.opacity
  if borderWidth < 0 ∨ borderWidth > 16 ∨ radius < 0 ∨ radius > 128 then error "border or radius out of range"
  return { fill, border, opacity, borderWidth, radius }

def scaled (value scale : Int) : Int := (value * scale + 32768).tdiv 65536

def choice (section_ key : String) (fallback : Nat) (names : List String) : Reading Nat := do
  match ← get section_ key with
  | none => return fallback
  | some v =>
    match names.findIdx? fun name => v == ascii name with
    | some i => return i
    | none =>
      error "unknown option"
      return fallback

def anchor (box : Rect) (section_ : String) : Reading Rect := do
  let at_ ← choice section_ "anchor" 0 ["top-left", "top-center", "top-right", "left-center", "center", "right-center",
    "bottom-left", "bottom-center", "bottom-right"]
  return { box with
    x := box.x - (((at_ % 3 : Nat) : Int) * box.width).tdiv 2
    y := box.y - (((at_ / 3 : Nat) : Int) * box.height).tdiv 2 }

/-! ## The hints -/

def actions : List String := ["select", "enter", "edit", "blank", "firmware", "shell"]

def columns : Reading Int := do
  match ← get "hints" "columns" with
  | none => return 2
  | some v =>
    if v.length ≠ 1 ∨ v.headD 0 < 49 ∨ v.headD 0 > 54 then
      error "columns must be 1..6"
      return 2
    else return ((v.headD 0).toNat - 48 : Nat)

/-- A space or a tab. -/
def isSpace (c : UInt8) : Bool := c == 32 || c == 9

def orderMessage : String := "order must list all six actions once, separated by commas"

/-- The loop over the order, from number `i` on, with the actions that were seen. -/
def orderLoop : Nat → Nat → List Nat → CString → Reading (List Nat)
  | 0, _, seen, _ => return seen
  | n + 1, i, seen, v => do
    let v := v.dropWhile isSpace
    let name := v.takeWhile fun c => ¬ (c = 44 ∨ isSpace c)
    let v := (v.drop name.length).dropWhile isSpace
    match actions.findIdx? fun action => name == ascii action with
    | none =>
      error orderMessage
      return seen
    | some action =>
      if action ∈ seen ∨ (if i < uiHintCount - 1 then v.head? ≠ some 44 else v ≠ []) then
        error orderMessage
        return seen
      else orderLoop n (i + 1) (seen ++ [action]) (if v.head? = some 44 then v.tail else v)

/-- `hint_order`; what no action was found for stays as `memset` left it. -/
def hintOrder : Reading (List Nat) := do
  match ← get "hints" "order" with
  | none => return List.range uiHintCount
  | some v =>
    let order ← orderLoop uiHintCount 0 [] v
    return order ++ List.replicate (uiHintCount - order.length) 0

/-- The part of the record that the items are checked against. -/
structure Frame where
  layout : UiHintLayout
  itemHeight : Int
  itemGap : Int
  inner : Int
  innerHeight : Int
  minimumHeight : Int

/-- The body of the loop over the items. -/
def hintItem (frame : Frame) (scale : Int) (i : Nat) (action : String) : Reading UiHintItem := do
  let section_ := "hints." ++ action
  let visible ← boolean section_ "visible" true
  let label ← get section_ "label"
  if label.any fun text => text.length > 128 then error "hint label exceeds 128 bytes"
  let box ← rect ⟨0, i * (frame.itemHeight + frame.itemGap), frame.inner, frame.itemHeight⟩ section_ frame.inner
    frame.innerHeight scale true
  if frame.layout = .custom ∧ visible ∧ (box.x < 0 ∨ box.y < 0 ∨ box.width < 1 ∨ box.height < frame.minimumHeight ∨
      box.x + box.width > frame.inner ∨ box.y + box.height > frame.innerHeight) then
    error "custom hint does not fit inside hints panel"
  return { label, visible, box }

def hintItemsFrom (frame : Frame) (scale : Int) : Nat → List String → Reading (List UiHintItem)
  | _, [] => return []
  | i, action :: actions => do
    let item ← hintItem frame scale i action
    let items ← hintItemsFrom frame scale (i + 1) actions
    return item :: items

def visibleCount (items : List UiHintItem) : Nat := items.countP (·.visible)

/-- The columns that the items are laid out in. -/
def columnsOf (s : UiSettings) : Int :=
  if s.hintLayout = .horizontal then visibleCount s.hintItems else if s.hintLayout = .grid then s.hintColumns else 1

def innerWidth (s : UiSettings) : Int := s.hints.width - 2 * s.hintPadding
def innerHeight (s : UiSettings) : Int := s.hints.height - 2 * s.hintPadding

def minimumHeight (s : UiSettings) : Int := if s.keyPosition = 2 then 2 * s.text.size + s.keyGap else s.text.size

def neededRows (s : UiSettings) : Int :=
  if visibleCount s.hintItems ≠ 0 ∧ columnsOf s > 0 then (visibleCount s.hintItems + columnsOf s - 1).tdiv (columnsOf s) else 0

/-- The two checks behind the loop over the items. -/
def checkHints (s : UiSettings) : Reading Unit := do
  if s.hintLayout ≠ .legacy ∧ s.hintLayout ≠ .custom ∧ visibleCount s.hintItems ≠ 0 ∧
      (innerWidth s - (columnsOf s - 1) * s.hintItemGap < columnsOf s * (2 * s.keyPadding + 1) ∨
        neededRows s * s.hintItemHeight + (neededRows s - 1) * s.hintItemGap > innerHeight s) then
    error "hint layout does not fit inside panel"
  if s.hintPadding < 0 ∨ s.hintPadding > 256 ∨ s.hintItemGap < 0 ∨ s.hintItemGap > 256 ∨ s.hintGap < 0 ∨ s.hintGap > 512 ∨
      s.hintItemHeight < minimumHeight s ∨ s.hintItemHeight > 512 ∨ s.keyPadding < 0 ∨ s.keyPadding > 128 ∨
      s.keyGap < 0 ∨ s.keyGap > 128 ∨ s.keyWidth < 0 ∨ s.keyWidth > 512 ∨
      (s.keyWidth ≠ 0 ∧ s.keyWidth ≤ 2 * s.keyPadding) ∨
      (s.hintLayout ≠ .legacy ∧ (innerWidth s < 1 ∨ innerHeight s < s.hintItemHeight)) then
    error "hint spacing or geometry out of range"

/-- The geometry of the panel and the keys, from the first line of `support_settings` to the order. -/
def hintGeometry (s : UiSettings) (width height scale : Int) : Reading UiSettings := do
  let layout ← choice "hints" "layout" 0 ["legacy", "horizontal", "vertical", "grid", "custom"]
  let hintLayout := layoutOf layout
  let hintColumns ← columns
  let hintGap ← dimension "hints" "line_gap" s.hintGap 0 scale false
  let hintPadding ← dimension "hints" "padding" 0 0 scale false
  let hintItemGap ← dimension "hints" "gap" (scaled 16 scale) 0 scale false
  let hintItemHeight ← dimension "hints" "item_height" (s.text.size + scaled 16 scale) 0 scale false
  let rows : Int :=
    if hintLayout = .grid then (uiHintCount + hintColumns - 1).tdiv hintColumns
    else if hintLayout = .horizontal then 1 else uiHintCount
  let hints := if hintLayout ≠ .legacy then
      { s.hints with height := 2 * hintPadding + rows * hintItemHeight + (rows - 1) * hintItemGap }
    else s.hints
  let hints ← rect hints "hints" width height scale true
  let hints ← anchor hints "hints"
  let hintPanel ← surface s.hintPanel "hints" scale
  let keyColour ← colour "hints.key" "colour" s.text.colour
  let keyPadding ← dimension "hints.key" "padding" (scaled 8 scale) 0 scale false
  let keyGap ← dimension "hints.key" "gap" (scaled 10 scale) 0 scale false
  let keyWidth ← dimension "hints.key" "width" 0 0 scale false
  let keyPosition ← choice "hints.key" "position" 0 ["before", "after", "above"]
  let keySurface ← surface s.keySurface "hints.key" scale
  return { s with
    hints, hintGap, hintLayout, hintPadding, hintItemGap, hintItemHeight, hintColumns, keyPadding, keyGap, keyWidth,
    keyPosition, keyColour, hintPanel, keySurface }

/-- `support_settings`, as far as the hints go. -/
def supportSettings (s : UiSettings) (width height scale : Int) : Reading UiSettings := do
  let s ← hintGeometry s width height scale
  let hintOrder ← hintOrder
  let hintItems ← hintItemsFrom ⟨s.hintLayout, s.hintItemHeight, s.hintItemGap, innerWidth s, innerHeight s, minimumHeight s⟩
    scale 0 actions
  let s := { s with hintOrder, hintItems }
  checkHints s
  return s

/-! ## The theme -/

/-- The numbers of the theme's layout that the hints begin from, and the width of the asset `UI_HINT`. -/
structure UiTheme where
  refW : UInt32
  refH : UInt32
  panelX : UInt32
  panelW : UInt32
  footerY : UInt32
  footerBaseline : UInt32
  muted : UInt32
  hintTrack : UInt32
  hintWidth : UInt32

/-- An unsigned number that is passed for an `int`. -/
def int (n : UInt32) : Int := n.toBitVec.toInt

def UiTheme.scale (theme : UiTheme) (width height : Int) : Int :=
  let scale := (width * 65536).tdiv theme.refW.toNat
  let sy := (height * 65536).tdiv theme.refH.toNat
  if sy < scale then sy else scale

def textScale (scale : Int) : Int := if scale < 43691 then 43691 else scale

/-- What `ui_settings_read` sets before it reads anything; what it does not set stays as `memset` left it. -/
def initialSettings (theme : UiTheme) (width height : Int) : UiSettings :=
  let scale := theme.scale width height
  let ts := textScale scale
  let ox := (width - scaled (int theme.refW) scale).tdiv 2
  let oy := (height - scaled (int theme.refH) scale).tdiv 2
  let size := scaled (int theme.hintWidth) ts
  { hints := ⟨ox + scaled (int theme.panelX) scale,
      oy + scaled (int theme.footerY) scale + scaled (int theme.footerBaseline) scale, scaled (int theme.panelW) scale, 0⟩
    hintGap := scaled 32 scale
    hintLayout := .legacy
    hintPadding := 0
    hintItemGap := 0
    hintItemHeight := 0
    hintColumns := 0
    hintOrder := List.replicate uiHintCount 0
    keyPadding := 0
    keyGap := 0
    keyWidth := 0
    keyPosition := 0
    keyColour := 0
    hintPanel := ⟨0, 0, 0, 0, 0⟩
    keySurface := ⟨0, 0, 0, 0, 0⟩
    hintItems := List.replicate uiHintCount ⟨none, false, ⟨0, 0, 0, 0⟩⟩
    text := ⟨none, if size > 256 then 256 else size, (theme.hintTrack.toNat * ts).tdiv 65536, 1, theme.muted⟩ }

/-- The reading of the settings of the hints, from the style of their text on. -/
def hintSettings (theme : UiTheme) (width height : Int) : Reading UiSettings := do
  let s := initialSettings theme width height
  let scale := theme.scale width height
  let text ← textStyle s.text "hints" (textScale scale)
  supportSettings { s with text } width height scale

/-- `ui_settings_read`, as far as the hints go. -/
def uiSettingsRead (theme : UiTheme) (width height : Int) : Reading (Option UiSettings) := do
  let s ← hintSettings theme width height
  let doc ← MonadState.get
  if doc.error ≠ none then return none
  else if s.hints.x < 0 ∨ s.hints.y < 0 ∨ s.hints.width < 1 ∨ s.hints.height < 0 ∨ s.hints.x + s.hints.width > width ∨
      s.hints.y + s.hints.height > height then
    error "text or divider geometry does not fit"
    return none
  else return some s

/-! ## What ends without an error -/

def NoError (doc : UiDocument) : Prop := doc.error = none

/-- Where the reading ends without an error it began without one, and its result has `post`. -/
abbrev Reads {α : Type} (x : Reading α) (post : α → Prop) : Prop := Accepts NoError x post

theorem error_reads {message : String} (post : Unit → Prop) : Reads (error message) post := by
  intro doc hend
  simp only [error, modify, modifyGet, MonadStateOf.modifyGet, StateT.modifyGet, StateT.run, NoError] at hend
  split at hend
  · cases hend
  · next hdoc => exact absurd hend hdoc

/-- After an error it does not matter what the rest returns. -/
theorem refuses {message : String} {α : Type} {x : Unit → Reading α} {post : α → Prop}
    (hx : ∀ a, Reads (x a) fun _ => True) : Reads (error message >>= x) post :=
  (error_reads fun _ => False).bind fun a => (hx a).imp fun _ _ => False.elim

theorem refuses_return {message : String} {α : Type} {a : α} {post : α → Prop} :
    Reads (do error message; return a) post :=
  refuses fun _ => .pure trivial

theorem get_reads {section_ key : String} : Reads (get section_ key) fun _ => True := by
  intro doc hend
  refine ⟨?_, trivial⟩
  simp only [NoError, get, uiDocumentGet, StateT.run] at hend ⊢
  split at hend
  · exact hend
  · exact hend

theorem boolean_reads {section_ key : String} {result : Bool} : Reads (boolean section_ key result) fun _ => True := by
  unfold boolean
  apply Accepts.seq get_reads
  intro v
  split
  · exact .pure trivial
  · refine .ite (fun _ => .pure trivial) fun _ => .ite (fun _ => .pure trivial) fun _ => ?_
    exact refuses_return

theorem dimension_reads {section_ key : String} {fallback parent scale : Int} {percent : Bool} :
    Reads (dimension section_ key fallback parent scale percent) fun _ => True := by
  unfold dimension
  apply Accepts.seq get_reads
  intro v
  split
  · exact .pure trivial
  · split
    · exact refuses_return
    · dsimp only
      split
      · exact refuses_return
      · exact .ite (fun _ => refuses_return) fun _ => .pure trivial

theorem choice_reads {section_ key : String} {fallback : Nat} {names : List String} :
    Reads (choice section_ key fallback names) fun _ => True := by
  unfold choice
  apply Accepts.seq get_reads
  intro v
  split
  · exact .pure trivial
  · split
    · exact .pure trivial
    · exact refuses_return

theorem colour_reads {section_ key : String} {out : UInt32} : Reads (colour section_ key out) fun _ => True := by
  unfold colour
  apply Accepts.seq get_reads
  intro v
  split
  · exact .pure trivial
  · refine .ite (fun _ => refuses_return) fun _ => ?_
    split
    · exact refuses_return
    · exact .pure trivial

theorem tracking_reads {section_ : String} {out : Int} : Reads (tracking section_ out) fun _ => True := by
  unfold tracking
  apply Accepts.seq get_reads
  intro v
  split
  · exact .pure trivial
  · split
    · exact refuses_return
    · exact .ite (fun _ => refuses_return) fun _ => .pure trivial

theorem opacity_reads {section_ key : String} {out : Int} : Reads (opacity section_ key out) fun _ => True := by
  unfold opacity
  apply Accepts.seq get_reads
  intro v
  split
  · exact .pure trivial
  · split
    · exact refuses_return
    · exact .ite (fun _ => refuses_return) fun _ => .pure trivial

/-- What was 0, 1 or 2 is so. -/
theorem alignment_reads {section_ : String} {out : Int} (hout : 0 ≤ out ∧ out ≤ 2) :
    Reads (alignment section_ out) fun align => 0 ≤ align ∧ align ≤ 2 := by
  unfold alignment
  apply Accepts.seq get_reads
  intro v
  split
  · exact .pure hout
  · refine .ite (fun _ => .pure (by omega)) fun _ => .ite (fun _ => .pure (by omega)) fun _ => ?_
    exact .ite (fun _ => .pure (by omega)) fun _ => refuses_return

theorem columns_reads : Reads columns fun n => 1 ≤ n := by
  unfold columns
  apply Accepts.seq get_reads
  intro v
  split
  · exact .pure (by omega)
  · next v =>
    refine .ite (fun _ => refuses_return) fun hone => .pure ?_
    have : 49 ≤ (v.headD 0).toNat := by
      simp only [not_or, UInt8.not_lt, UInt8.le_iff_toNat_le] at hone
      exact hone.2.1
    omega

theorem textStyle_reads {t : UiTextStyle} {section_ : String} {scale : Int} (ht : 0 ≤ t.align ∧ t.align ≤ 2) :
    Reads (textStyle t section_ scale) fun t => (0 ≤ t.align ∧ t.align ≤ 2) ∧ 4 ≤ t.size := by
  unfold textStyle
  refine get_reads.seq fun file => dimension_reads.seq fun size => colour_reads.seq fun colour => ?_
  refine tracking_reads.seq fun tracking => (alignment_reads ht).bind fun align => ?_
  refine .ite (fun _ => refuses fun _ => .pure trivial) fun hsize => .pure fun halign => ⟨halign, ?_⟩
  show 4 ≤ size
  omega

theorem rect_reads {r : Rect} {section_ : String} {width height scale : Int} {sized : Bool} :
    Reads (rect r section_ width height scale sized) fun _ => True := by
  unfold rect
  refine dimension_reads.seq fun x => dimension_reads.seq fun y => dimension_reads.seq fun boxWidth => ?_
  exact .ite (fun _ => dimension_reads.seq fun _ => .pure trivial) fun _ => .pure trivial

theorem surface_reads {s : UiSurface} {section_ : String} {scale : Int} :
    Reads (surface s section_ scale) fun _ => True := by
  unfold surface
  refine colour_reads.seq fun _ => colour_reads.seq fun _ => dimension_reads.seq fun _ => dimension_reads.seq fun _ => ?_
  refine opacity_reads.seq fun _ => ?_
  exact .ite (fun _ => refuses fun _ => .pure trivial) fun _ => .pure trivial

theorem anchor_reads {box : Rect} {section_ : String} : Reads (anchor box section_) fun _ => True :=
  choice_reads.seq fun _ => .pure trivial

/-- Each turn adds an action that was not seen before. -/
theorem orderLoop_reads {n i : Nat} {seen : List Nat} {v : CString} (hseen : seen.Nodup) :
    Reads (orderLoop n i seen v) fun order => order.Nodup ∧ order.length = seen.length + n := by
  induction n generalizing i seen v with
  | zero => exact .pure ⟨hseen, rfl⟩
  | succ n ih =>
    unfold orderLoop
    dsimp only
    split
    · exact refuses_return
    · next action _ =>
      refine .ite (fun _ => refuses_return) fun hnew => ?_
      have hnodup : (seen ++ [action]).Nodup := by
        apply List.nodup_append.mpr
        refine ⟨hseen, List.nodup_cons.mpr ⟨List.not_mem_nil, List.nodup_nil⟩, fun a ha b hb heq => hnew (Or.inl ?_)⟩
        rw [← List.mem_singleton.mp hb, ← heq]
        exact ha
      refine (ih hnodup).imp fun order horder => ⟨horder.1, ?_⟩
      rw [horder.2, List.length_append, List.length_singleton]
      omega

theorem hintOrder_reads : Reads hintOrder List.Nodup := by
  unfold hintOrder
  apply Accepts.seq get_reads
  intro v
  split
  · exact .pure List.nodup_range
  · refine (orderLoop_reads List.nodup_nil).bind fun order => .pure fun ⟨hnodup, hlength⟩ => ?_
    rw [hlength, List.length_nil, Nat.zero_add, Nat.sub_self, List.replicate_zero, List.append_nil]
    exact hnodup

/-- A box inside a panel of this size. -/
def InPanel (width height : Int) (box : Rect) : Prop :=
  0 ≤ box.x ∧ 0 ≤ box.y ∧ 0 ≤ box.width ∧ box.x + box.width ≤ width ∧ box.y + box.height ≤ height

theorem hintItem_reads {frame : Frame} {scale : Int} {i : Nat} {action : String} :
    Reads (hintItem frame scale i action) fun item =>
      frame.layout = .custom → item.visible → InPanel frame.inner frame.innerHeight item.box := by
  unfold hintItem
  dsimp only
  refine boolean_reads.seq fun visible => get_reads.seq fun label => ?_
  have hbox : ∀ box : Rect, Reads
      (do
        if frame.layout = .custom ∧ visible ∧ (box.x < 0 ∨ box.y < 0 ∨ box.width < 1 ∨ box.height < frame.minimumHeight ∨
            box.x + box.width > frame.inner ∨ box.y + box.height > frame.innerHeight) then
          error "custom hint does not fit inside hints panel"
        return { label, visible, box : UiHintItem })
      fun item => frame.layout = .custom → item.visible → InPanel frame.inner frame.innerHeight item.box := by
    intro box
    refine .ite (fun _ => refuses fun _ => .pure trivial) fun hfits => .pure fun hcustom hvisible => ?_
    have hinside := fun h => hfits ⟨hcustom, hvisible, h⟩
    show 0 ≤ box.x ∧ 0 ≤ box.y ∧ 0 ≤ box.width ∧ box.x + box.width ≤ frame.inner ∧ box.y + box.height ≤ frame.innerHeight
    simp only [not_or, imp_false] at hinside
    omega
  refine .ite (fun _ => refuses fun _ => rect_reads.seq fun box => ?_) fun _ => rect_reads.seq hbox
  exact (hbox box).imp fun _ _ => trivial

theorem hintItemsFrom_reads {frame : Frame} {scale : Int} {i : Nat} {names : List String} :
    Reads (hintItemsFrom frame scale i names) fun items => frame.layout = .custom →
      ∀ item ∈ items, item.visible → InPanel frame.inner frame.innerHeight item.box := by
  induction names generalizing i with
  | nil => exact .pure fun _ item hitem => absurd hitem List.not_mem_nil
  | cons action names ih =>
    unfold hintItemsFrom
    refine hintItem_reads.bind fun item => ih.bind fun items => .pure fun hitems hitem hcustom => ?_
    intro other hother
    rcases List.mem_cons.mp hother with rfl | hrest
    · exact hitem hcustom
    · exact hitems hcustom other hrest

/-- What is known of the hints of an accepted document. -/
structure HintsFit (s : UiSettings) : Prop where
  align : 0 ≤ s.text.align ∧ s.text.align ≤ 2
  order : s.hintOrder.Nodup
  columns : 1 ≤ s.hintColumns
  itemGap : 0 ≤ s.hintItemGap
  itemHeight : 0 ≤ s.hintItemHeight
  keyPadding : 0 ≤ s.keyPadding
  keyGap : 0 ≤ s.keyGap
  keyWidth : 0 ≤ s.keyWidth
  flow : s.hintLayout ≠ .legacy → s.hintLayout ≠ .custom → visibleCount s.hintItems ≠ 0 →
    columnsOf s ≤ innerWidth s - (columnsOf s - 1) * s.hintItemGap ∧
      neededRows s * s.hintItemHeight + (neededRows s - 1) * s.hintItemGap ≤ innerHeight s
  custom : s.hintLayout = .custom → ∀ item ∈ s.hintItems, item.visible → InPanel (innerWidth s) (innerHeight s) item.box

/-- The geometry leaves the text as it is. -/
theorem hintGeometry_reads {s : UiSettings} {width height scale : Int} :
    Reads (hintGeometry s width height scale) fun s' => s'.text = s.text ∧ 1 ≤ s'.hintColumns := by
  unfold hintGeometry
  refine choice_reads.seq fun _ => columns_reads.bind fun hintColumns => dimension_reads.seq fun _ => ?_
  refine dimension_reads.seq fun _ => dimension_reads.seq fun _ => dimension_reads.seq fun _ => ?_
  refine rect_reads.seq fun _ => anchor_reads.seq fun _ => surface_reads.seq fun _ => colour_reads.seq fun _ => ?_
  refine dimension_reads.seq fun _ => dimension_reads.seq fun _ => dimension_reads.seq fun _ => ?_
  exact choice_reads.seq fun _ => surface_reads.seq fun _ => .pure fun hcolumns => ⟨rfl, hcolumns⟩

/-- What the checks do not look at comes with the reading of it. -/
theorem checkHints_reads {s : UiSettings} : Reads (checkHints s) fun _ =>
    (0 ≤ s.text.align ∧ s.text.align ≤ 2) → 4 ≤ s.text.size → s.hintOrder.Nodup → 1 ≤ s.hintColumns →
    (s.hintLayout = .custom → ∀ item ∈ s.hintItems, item.visible → InPanel (innerWidth s) (innerHeight s) item.box) →
    HintsFit s := by
  unfold checkHints
  refine .ite (fun _ => refuses fun _ => .ite (fun _ => error_reads _) fun _ => .pure trivial) fun hflow => ?_
  refine .ite (fun _ => error_reads _) fun hrange => .pure fun halign hsize horder hcolumns hcustom => ?_
  simp only [not_or, not_lt] at hrange
  obtain ⟨-, -, hgap, -, -, -, hheight, -, hpadding, -, hkeyGap, -, hkeyWidth, -⟩ := hrange
  refine ⟨halign, horder, hcolumns, hgap, ?_, hpadding, hkeyGap, hkeyWidth, ?_, hcustom⟩
  · rw [minimumHeight] at hheight
    split at hheight <;> omega
  · intro hlegacy hnotcustom hvisible
    have hfits := fun h => hflow ⟨hlegacy, hnotcustom, hvisible, h⟩
    simp only [imp_false, not_or, not_lt] at hfits
    refine ⟨?_, hfits.2⟩
    have hwide : 0 ≤ columnsOf s := by
      rw [columnsOf]
      split
      · exact Int.natCast_nonneg _
      · split <;> omega
    calc columnsOf s = columnsOf s * 1 := (Int.mul_one _).symm
      _ ≤ columnsOf s * (2 * s.keyPadding + 1) := Int.mul_le_mul_of_nonneg_left (by omega) hwide
      _ ≤ _ := hfits.1

theorem supportSettings_reads {s : UiSettings} {width height scale : Int} :
    Reads (supportSettings s width height scale) fun s' =>
      (0 ≤ s.text.align ∧ s.text.align ≤ 2) ∧ 4 ≤ s.text.size → HintsFit s' := by
  unfold supportSettings
  refine hintGeometry_reads.bind fun s' => hintOrder_reads.bind fun order => hintItemsFrom_reads.bind fun items => ?_
  refine checkHints_reads.bind fun _ => .pure fun hchecked hcustom horder ⟨htext, hcolumns⟩ ⟨halign, hsize⟩ => ?_
  apply hchecked
  · show 0 ≤ s'.text.align ∧ s'.text.align ≤ 2
    rw [htext]
    exact halign
  · show 4 ≤ s'.text.size
    rw [htext]
    exact hsize
  · exact horder
  · exact hcolumns
  · exact hcustom

theorem hintSettings_reads (theme : UiTheme) (width height : Int) :
    Reads (hintSettings theme width height) HintsFit := by
  have halign : 0 ≤ (initialSettings theme width height).text.align ∧
      (initialSettings theme width height).text.align ≤ 2 := by
    show (0 : Int) ≤ 1 ∧ (1 : Int) ≤ 2
    omega
  exact (textStyle_reads halign).bind fun _ => supportSettings_reads

/-- A record that is given is one whose hints fit, whatever the document and the theme say. -/
theorem uiSettingsRead_fits {theme : UiTheme} {width height : Int} {doc : UiDocument} {s : UiSettings}
    (h : ((uiSettingsRead theme width height).run doc).1 = some s) : HintsFit s := by
  have hreads := hintSettings_reads theme width height doc
  rw [uiSettingsRead, StateT.run_bind] at h
  generalize (hintSettings theme width height).run doc = result at h hreads
  simp only [bind, StateT.bind, StateT.run, MonadState.get, getThe, MonadStateOf.get, StateT.get, pure] at h
  split at h
  · cases h
  · next herror =>
    split at h
    · cases h
    · cases h
      exact (hreads (not_not.mp herror)).2

end Limine.Ui.Hints
