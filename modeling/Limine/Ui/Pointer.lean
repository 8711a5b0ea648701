import Limine.Ui.Canvas

/-!
# The pointer over the menu

`gui_present` paints the pointer into the frame, shows it and puts the frame back from
`pointer_backing`.  What else the menu draws into the frame is taken as given, and so is what the
terminal shows once the menu has fallen back to it.
-/

namespace Limine.Ui

open Lib

/-! ## The cursor -/

/-- The cursor fields of `struct ui_settings`. -/
structure CursorSettings where
  width : Int
  height : Int
  hotspotX : Int
  hotspotY : Int
deriving DecidableEq, Repr

/-- "cursor dimensions or hotspot out of range" of `ui_settings_read`. -/
def CursorSettings.outOfRange (s : CursorSettings) : Prop :=
  s.width < 1 ∨ s.width > 128 ∨ s.height < 1 ∨ s.height > 128 ∨ s.hotspotX < 0 ∨ s.hotspotX ≥ s.width ∨
    s.hotspotY < 0 ∨ s.hotspotY ≥ s.height

instance (s : CursorSettings) : Decidable s.outOfRange := by
  unfold CursorSettings.outOfRange
  infer_instance

/-- What `gui_init` has accepted; `image` is `images[CURSOR_IMAGE]`. -/
structure GuiSetup where
  fb : FbInfo
  rotation : Nat
  display : Display
  settings : CursorSettings
  image : Option UiAsset
  display_accepted : uiDisplayInit fb rotation = some display
  settings_accepted : ¬settings.outOfRange

namespace GuiSetup

variable (g : GuiSetup)

/-- The settings of the built-in pointer where there is no image. -/
def cursor : CursorSettings := if g.image.isSome then g.settings else ⟨16, 23, 0, 0⟩

/-- `frame`, with these pixels. -/
def frameOf (pixels : Int → UInt32) : Canvas := ⟨pixels, g.display.width, g.display.height, none⟩

def frameSize : Int := g.display.width * g.display.height

/-- The size of `pointer_backing`, in pixels. -/
def pointerSize : Int := g.cursor.width * g.cursor.height

/-- Where the built-in pointer ends in a row. -/
def arrowEnd (dy : Int) : Int := if dy < 17 then dy * 2 / 3 + 1 else 5

def arrowPixel (left top dy dx : Int) (c : Canvas) : Except Outside Canvas := do
  let colour : UInt32 := if dx = 0 ∨ dx = arrowEnd dy - 1 ∨ dy = 22 then 0x100f0d else 0xfff0dc
  let pixels ← writeAt (c.width * c.height) c.pixels ((top + dy) * c.width + left + dx) colour
  return { c with pixels }

def arrowRow (left top dy : Int) (c : Canvas) : Except Outside Canvas :=
  forRange 0 (min (arrowEnd dy) (c.width - left)) (arrowPixel left top dy) c

def paintArrow (left top : Int) (c : Canvas) : Except Outside Canvas :=
  forRange 0 (min 23 (c.height - top)) (arrowRow left top) c

def paintPointer (left top : Int) (c : Canvas) : Except Outside Canvas :=
  match g.image with
  | some image => uiImage c image left top g.cursor.width g.cursor.height
  | none => paintArrow left top c

end GuiSetup

/-! ## The renderer -/

/-- What `mouse_get_position` gives. -/
structure Mouse where
  x : Nat
  y : Nat
  visible : Bool
deriving DecidableEq, Repr

/-- The statics that `gui_present` uses, and the framebuffer. -/
structure GuiState where
  frame : Int → UInt32
  pointerBacking : Int → UInt32
  screen : Int → UInt32
  pointerBox : Rect
  active : Bool
  dirty : Bool
  pointerDrawn : Bool
  terminalFallback : Bool

/-- The end of `gui_init`, which has painted the frame. -/
def guiInit (frame pointerBacking : Int → UInt32) (st : GuiState) : GuiState :=
  { st with frame, pointerBacking, active := false, pointerDrawn := false, terminalFallback := false }

/-- `gui_draw`, which paints the frame anew; the terminal has `terminal` on the screen. -/
def guiDraw (frame : Int → UInt32) (fontFailed : Bool) (terminal : Int → UInt32) (st : GuiState) : GuiState :=
  if st.terminalFallback then { st with screen := terminal }
  else if fontFailed then
    { st with frame, active := false, pointerDrawn := false, terminalFallback := true, screen := terminal }
  else { st with frame, active := true, dirty := true }

namespace GuiSetup

variable (g : GuiSetup)

/-- `blit`. -/
def blit (c : Canvas) (r : Rect) (screen : Int → UInt32) : Except Outside (Int → UInt32) :=
  g.display.uiDisplayBlit c r.x r.y r.width r.height screen

/-- Where the pointer is on the frame, if it is visible. -/
def pointerAt (mouse : Mouse) : Option (Int × Int) :=
  if mouse.visible then g.display.uiDisplayPosition mouse.x mouse.y else none

/-- The rectangle of a pointer at `p`, as far as it is on the frame. -/
def pointerRect (p : Int × Int) : Rect :=
  onCanvas (p.1 - g.cursor.hotspotX) (p.2 - g.cursor.hotspotY) g.cursor.width g.cursor.height
    g.display.width g.display.height

/-- The start of `gui_present`: the whole frame, or what was under the pointer. -/
def repaint (st : GuiState) : Except Outside (Int → UInt32) :=
  if st.dirty then g.blit (g.frameOf st.frame) ⟨0, 0, g.display.width, g.display.height⟩ st.screen
  else if st.pointerDrawn then g.blit (g.frameOf st.frame) st.pointerBox st.screen
  else .ok st.screen

/-- The end of it: the pointer, painted into the frame and taken out again. -/
def presentPointer (p : Int × Int) (st : GuiState) : Except Outside GuiState := do
  let box := g.pointerRect p
  let backing ← saveRect box g.display.width g.frameSize st.frame g.pointerSize st.pointerBacking
  let painted ← g.paintPointer (p.1 - g.cursor.hotspotX) (p.2 - g.cursor.hotspotY) (g.frameOf st.frame)
  let screen ← g.blit painted box st.screen
  let frame ← restoreRect box g.display.width g.frameSize painted.pixels g.pointerSize backing
  return { st with frame, pointerBacking := backing, screen, pointerBox := box, pointerDrawn := true }

def guiPresent (mouse : Mouse) (terminal : Int → UInt32) (st : GuiState) : Except Outside GuiState :=
  if st.terminalFallback then .ok { st with screen := terminal }
  else if st.active = false then .ok st
  else do
    let screen ← g.repaint st
    match g.pointerAt mouse with
    | none => .ok { st with screen, dirty := false, pointerDrawn := false }
    | some p => g.presentPointer p { st with screen, dirty := false }

/-- `gui_timeout`, which paints the countdown into the frame. -/
def guiTimeout (frame : Int → UInt32) (mouse : Mouse) (terminal : Int → UInt32) (st : GuiState) :
    Except Outside GuiState :=
  if st.terminalFallback then .ok { st with screen := terminal }
  else g.guiPresent mouse terminal { st with frame, dirty := true }

/-! ## One present -/

variable {g : GuiSetup}

/-- With or without an image, the cursor passes the check of the settings. -/
theorem cursor_accepted (g : GuiSetup) : ¬g.cursor.outOfRange := by
  rw [cursor]
  split
  · exact g.settings_accepted
  · decide

theorem accepted (g : GuiSetup) : g.display.Accepted := uiDisplayInit_accepted g.display_accepted

theorem frameOf_fits (g : GuiSetup) (pixels : Int → UInt32) : g.display.FitsCanvas (g.frameOf pixels) := ⟨rfl, rfl⟩

/-- The pointer is on the frame with its hotspot. -/
theorem pointerAt_bounds {mouse : Mouse} {p : Int × Int} (h : g.pointerAt mouse = some p) :
    0 ≤ p.1 ∧ p.1 < g.display.width ∧ 0 ≤ p.2 ∧ p.2 < g.display.height := by
  rw [pointerAt] at h
  split at h
  · rw [Display.uiDisplayPosition] at h
    split at h
    · rename_i hon
      obtain rfl := Option.some.inj h
      exact Display.logicalAt_bounds g.accepted hon
    · cases h
  · cases h

theorem pointerRect_fits {p : Int × Int} (hp : 0 ≤ p.1 ∧ p.1 < g.display.width ∧ 0 ≤ p.2 ∧ p.2 < g.display.height) :
    (g.pointerRect p).Fits g.display.width g.display.height ∧
      (g.pointerRect p).width ≤ g.cursor.width ∧ (g.pointerRect p).height ≤ g.cursor.height := by
  have hcursor := g.cursor_accepted
  rw [CursorSettings.outOfRange] at hcursor
  refine ⟨⟨?_, ?_, ?_, ?_, ?_, ?_⟩, ?_, ?_⟩ <;> simp only [pointerRect, onCanvas] <;> grind

/-- `pointer_backing` has room for the rectangle. -/
theorem pointerRect_le_pointerSize {p : Int × Int}
    (hp : 0 ≤ p.1 ∧ p.1 < g.display.width ∧ 0 ≤ p.2 ∧ p.2 < g.display.height) :
    (g.pointerRect p).width * (g.pointerRect p).height ≤ g.pointerSize := by
  obtain ⟨hfits, hw, hh⟩ := pointerRect_fits hp
  have hheight := hfits.height_nonneg
  have hwidth := hfits.width_nonneg
  exact Int.mul_le_mul hw hh hheight (by omega)

theorem arrowEnd_le {dy : Int} (hdy : 0 ≤ dy) (hlt : dy < 23) : arrowEnd dy ≤ 16 := by
  rw [arrowEnd]
  split <;> omega

/-- The built-in pointer is painted on the cells of a rectangle of 16 by 23. -/
theorem paintArrow_ends (c : Canvas) {left top : Int} (hleft : 0 ≤ left) (htop : 0 ≤ top) :
    Ends (fun _ => False) (paintArrow left top c) (Painted (onCanvas left top 16 23 c.width c.height) c) := by
  rw [paintArrow]
  refine forRange_keeps (Painted (onCanvas left top 16 23 c.width c.height) c) ?_ (Painted.refl _ c)
  intro dy c' hdy hdyh hpainted
  have hend := arrowEnd_le hdy (by omega)
  rw [arrowRow]
  refine forRange_keeps (Painted (onCanvas left top 16 23 c.width c.height) c) ?_ hpainted
  intro dx c'' hdx hdxw hpainted'
  rw [hpainted.width_eq] at hdxw
  have hin : (onCanvas left top 16 23 c.width c.height).Contains (left + dx) (top + dy) :=
    onCanvas_contains.mpr (by omega)
  have hbounds : 0 ≤ (top + dy) * c''.width + left + dx ∧
      (top + dy) * c''.width + left + dx < c''.width * c''.height := by
    rw [Int.add_assoc, hpainted'.width_eq, hpainted'.height_eq]
    exact cell_bounds (by omega) (by omega) (by omega) (by omega)
  rw [arrowPixel, writeAt, if_pos hbounds, ok_bind]
  refine hpainted'.trans ⟨rfl, rfl, ?_⟩
  show SameOutside _ _ (Function.update c''.pixels _ _) _
  rw [Int.add_assoc]
  exact (SameOutside.refl c''.pixels).update hin _

theorem paintPointer_ends {p : Int × Int} (hp : 0 ≤ p.1 ∧ p.1 < g.display.width ∧ 0 ≤ p.2 ∧ p.2 < g.display.height)
    (pixels : Int → UInt32) :
    Ends (fun _ => False)
      (g.paintPointer (p.1 - g.cursor.hotspotX) (p.2 - g.cursor.hotspotY) (g.frameOf pixels))
      (Painted (g.pointerRect p) (g.frameOf pixels)) := by
  rw [paintPointer]
  cases himage : g.image with
  | some image => exact uiImage_ends (g.frameOf pixels) image _ _ _ _
  | none =>
    have hcursor : g.cursor = ⟨16, 23, 0, 0⟩ := by
      rw [cursor, himage]
      rfl
    rw [pointerRect, hcursor]
    have hleft : 0 ≤ p.1 - 0 := by omega
    have htop : 0 ≤ p.2 - 0 := by omega
    exact paintArrow_ends (g.frameOf pixels) hleft htop

/-- The framebuffer shows the frame but in the cells with `p`. -/
def ShowsBut (g : GuiSetup) (p : Int → Int → Prop) (frame screen : Int → UInt32) : Prop :=
  ∀ x y, g.display.OnScreen x y → ¬p (g.display.logicalAt x y).1 (g.display.logicalAt x y).2 →
    screen (y * g.display.stride + x) = g.display.shownAt frame x y

/-- What the next `gui_present` need not paint is shown already. -/
def Repairs (g : GuiSetup) (st : GuiState) : Prop :=
  st.active = true → st.terminalFallback = false → st.dirty = false →
    g.ShowsBut (fun x y => st.pointerDrawn = true ∧ st.pointerBox.Contains x y) st.frame st.screen

theorem repaint_ends {st : GuiState}
    (h : st.dirty = false →
      g.ShowsBut (fun x y => st.pointerDrawn = true ∧ st.pointerBox.Contains x y) st.frame st.screen) :
    Ends (fun _ => False) (g.repaint st) (g.ShowsBut (fun _ _ => False) st.frame) := by
  rw [repaint]
  split
  · refine (Display.uiDisplayBlit_ends g.accepted (g.frameOf_fits st.frame) _ st.screen).imp ?_
    intro screen hscreen x y hon _
    have hbounds := Display.logicalAt_bounds g.accepted hon
    exact (hscreen x y hon).1 ⟨hbounds.1, by simpa using hbounds.2.1, hbounds.2.2.1, by simpa using hbounds.2.2.2⟩
  · rename_i hdirty
    have hshows := h (by simpa using hdirty)
    split
    · rename_i hdrawn
      refine (Display.uiDisplayBlit_ends g.accepted (g.frameOf_fits st.frame) st.pointerBox st.screen).imp ?_
      intro screen hscreen x y hon _
      by_cases hin : st.pointerBox.Contains (g.display.logicalAt x y).1 (g.display.logicalAt x y).2
      · exact (hscreen x y hon).1 hin
      · rw [(hscreen x y hon).2 hin]
        exact hshows x y hon fun h => hin h.2
    · rename_i hdrawn
      exact fun x y hon _ => hshows x y hon fun h => hdrawn h.1

theorem presentPointer_ends {p : Int × Int}
    (hp : 0 ≤ p.1 ∧ p.1 < g.display.width ∧ 0 ≤ p.2 ∧ p.2 < g.display.height) (st : GuiState)
    (hshows : g.ShowsBut (fun _ _ => False) st.frame st.screen) :
    Ends (fun _ => False) (g.presentPointer p st) fun st' =>
      g.ShowsBut (g.pointerRect p).Contains st.frame st'.screen ∧
        ∃ pointerBacking screen, st' =
          { st with pointerBacking, screen, pointerBox := g.pointerRect p, pointerDrawn := true } := by
  obtain ⟨hfits, -, -⟩ := pointerRect_fits hp
  have hsize := pointerRect_le_pointerSize hp
  rw [presentPointer]
  refine (saveRect_ends hfits hsize st.frame st.pointerBacking).bind fun backing hsaved => ?_
  refine (paintPointer_ends hp st.frame).bind fun painted hpainted => ?_
  have hcanvas : g.display.FitsCanvas painted := ⟨hpainted.width_eq, hpainted.height_eq⟩
  refine (Display.uiDisplayBlit_ends g.accepted hcanvas (g.pointerRect p) st.screen).bind fun screen hscreen => ?_
  refine (restoreRect_ends hfits hsize painted.pixels backing).bind fun frame hframe => ?_
  have hback : frame = st.frame := hpainted.same.eq_of_restored hsaved hframe.1 hframe.2
  subst hback
  refine ⟨fun x y hon hout => ?_, backing, screen, rfl⟩
  show screen _ = _
  rw [(hscreen x y hon).2 hout]
  exact hshows x y hon not_false

/-- **One `gui_present`** with the menu on the screen keeps the frame, and shows it around the pointer. -/
theorem guiPresent_ends {st : GuiState} (hactive : st.active = true) (hfallback : st.terminalFallback = false)
    (hrepairs : g.Repairs st) (mouse : Mouse) (terminal : Int → UInt32) :
    Ends (fun _ => False) (g.guiPresent mouse terminal st) fun st' =>
      st'.frame = st.frame ∧ st'.active = true ∧ st'.terminalFallback = false ∧ g.Repairs st' ∧
        g.ShowsBut (fun x y => ∃ p, g.pointerAt mouse = some p ∧ (g.pointerRect p).Contains x y) st'.frame st'.screen := by
  rw [guiPresent, if_neg (by simp [hfallback]), if_neg (by simp [hactive])]
  refine (repaint_ends (hrepairs hactive hfallback)).bind fun screen hscreen => ?_
  cases hp : g.pointerAt mouse with
  | none =>
    refine ⟨rfl, hactive, hfallback, fun _ _ _ => ?_, ?_⟩
    · exact fun x y hon _ => hscreen x y hon not_false
    · exact fun x y hon _ => hscreen x y hon not_false
  | some p =>
    refine (presentPointer_ends (pointerAt_bounds hp) { st with screen, dirty := false } hscreen).imp ?_
    rintro st' ⟨hshows, backing, screen', rfl⟩
    refine ⟨rfl, hactive, hfallback, fun _ _ _ x y hon hout => ?_, fun x y hon hout => ?_⟩
    · exact hshows x y hon fun h => hout ⟨rfl, h⟩
    · exact hshows x y hon fun h => hout ⟨p, rfl, h⟩

/-! ## Runs -/

/-- A call of the renderer, with what it draws, where the mouse is and what a terminal would show. -/
inductive Call
  | draw (frame : Int → UInt32) (fontFailed : Bool) (terminal : Int → UInt32)
  | timeout (frame : Int → UInt32) (mouse : Mouse) (terminal : Int → UInt32)
  | present (mouse : Mouse) (terminal : Int → UInt32)

def Call.isDraw : Call → Bool
  | .draw .. => true
  | _ => false

def Call.fontFailed : Call → Bool
  | .draw _ fontFailed _ => fontFailed
  | _ => false

/-- The mouse and the state with which the call gets to `gui_present`. -/
def Call.presents (st : GuiState) : Call → Option (Mouse × GuiState)
  | .draw .. => none
  | .timeout frame mouse _ => if st.terminalFallback then none else some (mouse, { st with frame, dirty := true })
  | .present mouse _ => some (mouse, st)

def call (g : GuiSetup) (st : GuiState) : Call → Except Outside GuiState
  | .draw frame fontFailed terminal => .ok (guiDraw frame fontFailed terminal st)
  | .timeout frame mouse terminal => g.guiTimeout frame mouse terminal st
  | .present mouse terminal => g.guiPresent mouse terminal st

def run (g : GuiSetup) (st : GuiState) (calls : List Call) : Except Outside GuiState := calls.foldlM g.call st

/-- What every call keeps. -/
structure Sound (g : GuiSetup) (st : GuiState) : Prop where
  repairs : g.Repairs st
  inactive : st.terminalFallback = true → st.active = false

/-- What is seen after a `gui_present` that was entered with `st`. -/
structure Presented (g : GuiSetup) (mouse : Mouse) (st st' : GuiState) : Prop where
  frame_eq : st'.frame = st.frame
  shows : st.active = true →
    g.ShowsBut (fun x y => ∃ p, g.pointerAt mouse = some p ∧ (g.pointerRect p).Contains x y) st'.frame st'.screen
  unchanged : st.terminalFallback = false → st.active = false → st' = st

/-- How a call leaves the flags that tell which renderer is in use. -/
structure Follows (c : Call) (st st' : GuiState) : Prop where
  fallback_eq : st'.terminalFallback = (st.terminalFallback || c.fontFailed)
  active_eq : st'.active = ((st.active || c.isDraw) && !st'.terminalFallback)

theorem guiPresent_presented {st : GuiState} (hst : g.Sound st) (mouse : Mouse) (terminal : Int → UInt32) :
    Ends (fun _ => False) (g.guiPresent mouse terminal st) fun st' =>
      g.Sound st' ∧ st'.terminalFallback = st.terminalFallback ∧ st'.active = st.active ∧ g.Presented mouse st st' := by
  cases hfallback : st.terminalFallback with
  | true =>
    have hactive := hst.inactive hfallback
    rw [guiPresent, if_pos hfallback]
    refine ⟨⟨fun h => ?_, fun _ => hactive⟩, hfallback, rfl, rfl, fun h => ?_, fun h => ?_⟩
    · exact absurd (hactive.symm.trans h) (by simp)
    · exact absurd (hactive.symm.trans h) (by simp)
    · exact absurd (hfallback.symm.trans h) (by simp)
  | false =>
    cases hactive : st.active with
    | true =>
      refine (guiPresent_ends hactive hfallback hst.repairs mouse terminal).imp ?_
      rintro st' ⟨hframe, hactive', hfallback', hrepairs, hshows⟩
      refine ⟨⟨hrepairs, fun h => ?_⟩, hfallback', hactive', hframe, fun _ => hshows, fun _ h => ?_⟩
      · exact absurd (hfallback'.symm.trans h) (by simp)
      · exact absurd (hactive.symm.trans h) (by simp)
    | false =>
      rw [guiPresent, if_neg (by simp [hfallback]), if_pos hactive]
      refine ⟨hst, hfallback, hactive, rfl, fun h => ?_, fun _ _ => rfl⟩
      exact absurd (hactive.symm.trans h) (by simp)

/-- **One call**: it is within bounds, and what it presents is right. -/
theorem call_ends {st : GuiState} (hst : g.Sound st) (c : Call) :
    Ends (fun _ => False) (g.call st c) fun st' =>
      g.Sound st' ∧ Follows c st st' ∧ ∀ m ∈ c.presents st, g.Presented m.1 m.2 st' := by
  cases c with
  | draw frame fontFailed terminal =>
    refine ⟨?_, ?_, fun m hm => by cases hm⟩
    · rw [guiDraw]
      split
      · rename_i hfallback
        have hactive := hst.inactive hfallback
        exact ⟨fun h => absurd (hactive.symm.trans h) (by simp), fun _ => hactive⟩
      · split
        · exact ⟨fun h => (by cases h), fun _ => rfl⟩
        · rename_i hfallback _
          exact ⟨fun _ _ h => (by cases h), fun h => absurd h hfallback⟩
    · have hinactive := hst.inactive
      rw [guiDraw]
      split
      · rename_i hfallback
        exact ⟨by simp [hfallback], by simp [hfallback, hinactive hfallback]⟩
      · rename_i hfallback
        split
        · rename_i hfailed
          exact ⟨by simp [Call.fontFailed, hfailed], by simp⟩
        · rename_i hfailed
          exact ⟨by simp [Call.fontFailed, hfailed], by simp [Call.isDraw, hfallback]⟩
  | timeout frame mouse terminal =>
    have hinactive := hst.inactive
    show Ends _ (g.guiTimeout frame mouse terminal st) _
    rw [guiTimeout]
    split
    · rename_i hfallback
      have hactive := hst.inactive hfallback
      refine ⟨⟨fun h => absurd (hactive.symm.trans h) (by simp), fun _ => hactive⟩, ⟨?_, ?_⟩, ?_⟩
      · simp [Call.fontFailed]
      · simp [Call.isDraw, hfallback, hactive]
      · simp [Call.presents, hfallback]
    · rename_i hfallback
      have hdirty : g.Sound { st with frame, dirty := true } := ⟨fun _ _ h => (by cases h), hst.inactive⟩
      refine (guiPresent_presented hdirty mouse terminal).imp ?_
      rintro st' ⟨hsound, hfallback', hactive', hpresented⟩
      refine ⟨hsound, ⟨?_, ?_⟩, fun m hm => ?_⟩
      · simp [hfallback', Call.fontFailed]
      · simp [hfallback', hactive', hfallback, Call.isDraw]
      · rw [Call.presents, if_neg hfallback] at hm
        obtain rfl := Option.some.inj hm
        exact hpresented
  | present mouse terminal =>
    have hinactive := hst.inactive
    refine (guiPresent_presented hst mouse terminal).imp ?_
    rintro st' ⟨hsound, hfallback', hactive', hpresented⟩
    refine ⟨hsound, ⟨?_, ?_⟩, fun m hm => ?_⟩
    · simp [hfallback', Call.fontFailed]
    · rw [hactive', hfallback']
      cases hf : st.terminalFallback with
      | true => simp [hinactive hf]
      | false => simp [Call.isDraw]
    · obtain rfl := Option.some.inj hm
      exact hpresented

/-- **A run** is within bounds, and the terminal is in use once a font has failed. -/
theorem run_ends {st : GuiState} (hst : g.Sound st) (calls : List Call) :
    Ends (fun _ => False) (g.run st calls) fun st' =>
      g.Sound st' ∧ st'.terminalFallback = (st.terminalFallback || calls.any Call.fontFailed) ∧
        st'.active = ((st.active || calls.any Call.isDraw) && !st'.terminalFallback) := by
  induction calls generalizing st with
  | nil =>
    have hinactive := hst.inactive
    refine ⟨hst, by simp, ?_⟩
    cases hf : st.terminalFallback with
    | true => simp [hinactive hf]
    | false => simp
  | cons c calls ih =>
    rw [run, List.foldlM_cons]
    refine (call_ends hst c).bind fun st₁ ⟨hsound, hfollows, _⟩ => (ih hsound).imp ?_
    rintro st' ⟨hsound', hfallback', hactive'⟩
    refine ⟨hsound', ?_, ?_⟩
    · rw [hfallback', hfollows.fallback_eq, List.any_cons, Bool.or_assoc]
    · rw [hactive', hfollows.active_eq, hfallback', hfollows.fallback_eq, List.any_cons]
      grind

/-- **The pointer never damages the menu**: whatever calls there were since `gui_init`, the next one
stays in bounds, a `gui_present` leaves the frame as it found it, and once the menu has been drawn,
on fonts that did not fail, the framebuffer shows the frame everywhere but under the pointer. -/
theorem pointer_keeps_menu (g : GuiSetup) (st : GuiState) (frame pointerBacking : Int → UInt32)
    (calls : List Call) (c : Call) :
    ∃ st₁ st₂, g.run (guiInit frame pointerBacking st) calls = .ok st₁ ∧ g.call st₁ c = .ok st₂ ∧
      ∀ mouse st₁', c.presents st₁ = some (mouse, st₁') →
        st₂.frame = st₁'.frame ∧
        (calls.any Call.fontFailed = false → calls.any Call.isDraw = true →
          g.ShowsBut (fun x y => ∃ p, g.pointerAt mouse = some p ∧ (g.pointerRect p).Contains x y)
            st₂.frame st₂.screen) ∧
        (calls.any Call.fontFailed = false → calls.any Call.isDraw = false → st₂ = st₁') := by
  have hinit : g.Sound (guiInit frame pointerBacking st) := ⟨fun h => (by cases h), fun h => (by cases h)⟩
  have hrun := run_ends hinit calls
  cases h₁ : g.run (guiInit frame pointerBacking st) calls with
  | error e => rw [h₁] at hrun; exact hrun.elim
  | ok st₁ =>
    rw [h₁] at hrun
    obtain ⟨hsound, hfallback, hactive⟩ := hrun
    have hcall := call_ends hsound c
    cases h₂ : g.call st₁ c with
    | error e => rw [h₂] at hcall; exact hcall.elim
    | ok st₂ =>
      rw [h₂] at hcall
      obtain ⟨-, -, hpresents⟩ := hcall
      refine ⟨st₁, st₂, rfl, h₂, fun mouse st₁' hc => ?_⟩
      have hpresented := hpresents (mouse, st₁') hc
      have hsame : st₁'.active = st₁.active ∧ st₁'.terminalFallback = st₁.terminalFallback := by
        cases c with
        | draw frame fontFailed terminal => cases hc
        | timeout frame mouse' terminal =>
          rw [Call.presents] at hc
          split at hc
          · cases hc
          · cases hc
            exact ⟨rfl, rfl⟩
        | present mouse' terminal =>
          cases hc
          exact ⟨rfl, rfl⟩
      refine ⟨hpresented.frame_eq, fun hfonts hdrawn => ?_, fun hfonts hdrawn => ?_⟩
      · refine hpresented.shows ?_
        rw [hsame.1, hactive, hfallback, hfonts, hdrawn]
        simp [guiInit]
      · refine hpresented.unchanged ?_ ?_
        · rw [hsame.2, hfallback, hfonts]
          rfl
        · rw [hsame.1, hactive, hdrawn]
          rfl

/-- A framebuffer of 800 by 600, and the built-in pointer. -/
def plainSetup : GuiSetup where
  fb := ⟨3200, 800, 600, 32, 8, 16, 8, 8, 8, 0, 0x80000000⟩
  rotation := 0
  display := ⟨⟨3200, 800, 600, 32, 8, 16, 8, 8, 8, 0, 0x80000000⟩, 0, 800, 600⟩
  settings := ⟨24, 32, 0, 0⟩
  image := none
  display_accepted := by decide
  settings_accepted := by decide

/-- Before the first `gui_draw`, a `gui_present` leaves what was on the screen, here 1 for 0. -/
theorem guiPresent_before_draw :
    ∃ st₁ st₂, plainSetup.run (guiInit (fun _ => 0) (fun _ => 0)
        ⟨fun _ => 0, fun _ => 0, fun _ => 1, ⟨0, 0, 0, 0⟩, false, false, false, false⟩) [] = .ok st₁ ∧
      plainSetup.call st₁ (.present ⟨0, 0, false⟩ fun _ => 0) = .ok st₂ ∧
      ¬plainSetup.ShowsBut (fun x y => ∃ p, plainSetup.pointerAt ⟨0, 0, false⟩ = some p ∧
        (plainSetup.pointerRect p).Contains x y) st₂.frame st₂.screen := by
  refine ⟨_, _, rfl, rfl, fun h => ?_⟩
  have hshown := h 0 0 (by decide) (by rintro ⟨p, hp, -⟩; cases hp)
  exact absurd hshown (by decide)

end GuiSetup

end Limine.Ui
