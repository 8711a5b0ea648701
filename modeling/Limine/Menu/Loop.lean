import Limine.Menu.Entry
import Mathlib.Algebra.Group.Int.Defs
import Mathlib.Data.Int.Order.Basic

/-!
# The menu's event loop

`_menu` from the initial selection on.  The code between two points where it waits for a key, the
end of a sleep or the editor is one `step`; the labels it waits at are `Label`.  A step records what
the claims about it speak of: every use of `selected_menu_entry`, every view drawn, every `boot`.
-/

namespace Limine.Menu

/-! ## Keys and events -/

def getcharCursorRight : Int := -11
def getcharCursorUp : Int := -12
def getcharCursorDown : Int := -13
def getcharEnd : Int := -15
def getcharHome : Int := -16
def getcharMouse : Int := -30

/-- The character constants the loop compares with. -/
def charB : Int := 66
def charE : Int := 69
def charS : Int := 83
def charU : Int := 85
def charb : Int := 98
def chare : Int := 101
def chars : Int := 115
def charu : Int := 117

/-- `struct mouse_state`. -/
structure MouseState where
  x : Nat
  y : Nat
  wheel : Int
  moved : Bool
  click : Bool
  clickX : Nat
  clickY : Nat
  pressX : Nat
  pressY : Nat

/-- What the loop waits for: a key, with what `mouse_get_state` and the renderer's `hit_test` would
say; the end of a sleep; or what the editor returns. -/
inductive Event
  | key (c : Int) (mouse : MouseState) (hitTest : Nat → Nat → Option Nat)
  | timeout
  | text (result : Option CString)

/-! ## The state -/

/-- A view as it was drawn, with the entries its rows stand for. -/
structure DrawnView where
  model : MenuModel
  selected : Nat
  comment : Option CString
  configReady : Bool
  countdown : Bool

/-- What does not change while the menu runs. -/
structure MenuSetup where
  uefi : Bool
  editorEnabled : Bool

/-- The variables of `_menu` and the statics it uses. -/
structure MenuState where
  tree : MenuTree
  model : MenuModel
  maxEntries : Nat
  selectedEntry : Nat
  selectedMenuEntry : Option Ref
  skipTimeout : Bool
  timeoutMs : Nat
  quiet : Bool
  bootingFromEditor : Bool
  bootingFromBlank : Bool
  configReady : Bool
  /-- The view drawn last, which the code does not keep. -/
  lastView : Option DrawnView

/-- Where the loop waits: the head of the countdown, `for (;;)`, in the editor on an entry or on a
blank one; or it has called `boot`, or gone through a pointer that is `NULL`. -/
inductive Label
  | countdown
  | wait
  | editor
  | editorBlank
  | booted
  | fault
deriving DecidableEq

inductive Obs
  | deref (entry : Option Ref) (selectedEntry : Nat) (model : MenuModel) (tree : MenuTree)
  | draw (view : DrawnView)
  | boot (config : CString)

/-- What a piece of the loop has done and where it waits. -/
abbrev Outcome := List Obs × Label × MenuState

/-- A use of `selected_menu_entry`. -/
def MenuState.deref (st : MenuState) (use : MenuEntry → Bool → MenuTree → Outcome) : Outcome :=
  let out : Outcome :=
    match st.selectedMenuEntry with
    | none => ([], .fault, st)
    | some ref =>
      match st.tree.entry ref with
      | .null => ([], .fault, st)
      | .node e expanded sub _ => use e expanded sub
  (.deref st.selectedMenuEntry st.selectedEntry st.model st.tree :: out.1, out.2)

/-- `renderer->draw`. -/
def MenuState.draw (st : MenuState) (view : DrawnView) (next : MenuState → Outcome) : Outcome :=
  let out := next { st with lastView := some view }
  (.draw view :: out.1, out.2)

/-- `boot`, which does not return. -/
def MenuState.boot (st : MenuState) (config : CString) : Outcome := ([.boot config], .booted, st)

/-- `break` out of the switch, or `continue`. -/
def MenuState.wait (st : MenuState) : Outcome := ([], .wait, st)

/-- `expanded = !expanded`. -/
def toggleExpanded (e : MenuEntry) (expanded : Bool) : MenuEntry × Bool := (e, !expanded)

/-- `body = new_body`. -/
def setBody (body : CString) (e : MenuEntry) (expanded : Bool) : MenuEntry × Bool :=
  ({ e with body := body }, expanded)

section
variable (skip : MenuEntry → Bool → Bool)

/-! ## The labels -/

/-- The label `editor`. -/
def editor (st : MenuState) : Outcome :=
  if st.maxEntries = 0 then st.wait
  else
    st.deref fun _ _ sub =>
      if sub.isNode then st.wait
      -- its name and body go to the editor
      else st.deref fun _ _ _ => ([], .editor, st)

/-- The label `editor_blank`. -/
def editorBlank (st : MenuState) : Outcome :=
  ([], .editorBlank, { st with bootingFromBlank := true })

/-- `refresh` once the view is drawn. -/
def afterDraw (st : MenuState) : Outcome :=
  if !st.skipTimeout then ([], .countdown, st)
  else if st.bootingFromEditor then
    if st.bootingFromBlank then editorBlank st else editor st
  else st.wait

/-- The view `refresh` draws, and on. -/
def drawView (st : MenuState) : Outcome :=
  let view comment : DrawnView :=
    { model := st.model
      selected := st.selectedEntry
      comment := comment
      configReady := st.configReady
      countdown := !st.skipTimeout }
  if st.selectedMenuEntry = none then st.draw (view none) afterDraw
  else st.deref fun e _ _ => st.draw (view e.comment) afterDraw

/-- The label `refresh`. -/
def refresh (st : MenuState) : Outcome :=
  let model := menuModelUpdate skip st.tree
  let selectedEntry := if model.count ≤ st.selectedEntry then 0 else st.selectedEntry
  let st := { st with
    model := model
    maxEntries := model.count
    selectedEntry := selectedEntry
    selectedMenuEntry := menuModelEntry model selectedEntry }
  if st.maxEntries = 0 then drawView { st with skipTimeout := true, quiet := false }
  else
    st.deref fun _ _ sub =>
      drawView (if sub.isNode then { st with skipTimeout := true } else st)

/-- The label `autoboot`. -/
def autoboot (st : MenuState) : Outcome :=
  if st.maxEntries = 0 then st.wait
  else
    st.deref fun _ _ sub =>
      if sub.isNode then
        st.deref fun _ _ _ =>
          refresh skip { st with
            tree := st.tree.update (st.selectedMenuEntry.getD []) toggleExpanded }
      -- on UEFI the entry's path and identifier are stored first, which read it as well
      else st.deref fun e _ _ => st.boot e.body

/-- `GETCHAR_MOUSE`. -/
def mouseInput (st : MenuState) (mouse : MouseState) (hitTest : Nat → Nat → Option Nat) : Outcome :=
  if mouse.wheel ≠ 0 then
    if mouse.wheel < 0 then
      let steps := (-mouse.wheel).toNat
      refresh skip { st with
        selectedEntry := if steps < st.selectedEntry then st.selectedEntry - steps else 0 }
    else
      let selectedEntry := st.selectedEntry + mouse.wheel.toNat
      refresh skip { st with
        selectedEntry := if st.maxEntries ≤ selectedEntry then st.maxEntries - 1 else selectedEntry }
  else
    let target :=
      if mouse.click then
        match hitTest mouse.clickX mouse.clickY, hitTest mouse.pressX mouse.pressY with
        | some target, some pressedTarget => if target = pressedTarget then some target else none
        | _, _ => none
      else none
    match target with
    | some target =>
      autoboot skip { st with
        selectedEntry := target
        selectedMenuEntry := menuModelEntry st.model target }
    | none =>
      match if mouse.moved then hitTest mouse.x mouse.y else none with
      | some target =>
        if target ≠ st.selectedEntry then refresh skip { st with selectedEntry := target }
        else st.wait
      | none => st.wait

/-- `(int)` of a `size_t`. -/
def toInt32 (n : Nat) : Int :=
  if n % 2 ^ 32 < 2 ^ 31 then (n % 2 ^ 32 : Nat) else (n % 2 ^ 32 : Nat) - 2 ^ 32

/-- The key is handled even when there is no entry. -/
def isGlobalKey (c : Int) : Bool :=
  c = charb || c = charB || c = chars || c = charS || c = charu || c = charU

/-- The label `timeout_aborted`: what a key does. -/
def handleKey (setup : MenuSetup) (st : MenuState) (c : Int) (mouse : MouseState)
    (hitTest : Nat → Nat → Option Nat) : Outcome :=
  if st.maxEntries = 0 ∧ isGlobalKey c = false then st.wait
  else if 49 ≤ c ∧ c ≤ 57 then
    let ent := c - 48 - 1
    if ent < toInt32 st.maxEntries then
      autoboot skip { st with
        selectedEntry := ent.toNat
        selectedMenuEntry := menuModelEntry st.model ent.toNat }
    else refresh skip st
  else if c = getcharHome then refresh skip { st with selectedEntry := 0 }
  else if c = getcharEnd then refresh skip { st with selectedEntry := st.maxEntries - 1 }
  else if c = getcharCursorUp then
    refresh skip { st with
      selectedEntry := if st.selectedEntry = 0 then st.maxEntries - 1 else st.selectedEntry - 1 }
  else if c = getcharCursorDown then
    refresh skip { st with
      selectedEntry := if st.selectedEntry + 1 = st.maxEntries then 0 else st.selectedEntry + 1 }
  else if c = getcharMouse then mouseInput skip st mouse hitTest
  else if c = getcharCursorRight ∨ c = 10 ∨ c = 32 then autoboot skip st
  else if c = chare ∨ c = charE then if setup.editorEnabled then editor st else st.wait
  -- firmware setup and the shell come back only when they could not be started
  else if setup.uefi ∧ (c = chars ∨ c = charS ∨ c = charu ∨ c = charU) then st.wait
  else if c = charb ∨ c = charB then if setup.editorEnabled then editorBlank st else st.wait
  else st.wait

/-- A key in the countdown. -/
def abortCountdown (setup : MenuSetup) (st : MenuState) (c : Int) (mouse : MouseState)
    (hitTest : Nat → Nat → Option Nat) : Outcome :=
  let st := { st with skipTimeout := true }
  match st.quiet, st.lastView with
  | true, some view =>
    { st with quiet := false }.draw { view with countdown := false } fun st =>
      handleKey skip setup st c mouse hitTest
  | _, _ => handleKey skip setup st c mouse hitTest

/-- `timeout_ms` after one sleep. -/
def afterSleep (timeoutMs : Nat) : Nat :=
  timeoutMs - (if timeoutMs % 1000 = 0 then 1000 else timeoutMs % 1000)

/-- From one wait to the next. -/
def step (setup : MenuSetup) (label : Label) (st : MenuState) (event : Event) : Outcome :=
  match label, event with
  | .countdown, event =>
    if st.timeoutMs = 0 then autoboot skip st
    else
      match event with
      | .key c mouse hitTest =>
        if c = 0 then ([], .countdown, { st with timeoutMs := afterSleep st.timeoutMs })
        else abortCountdown skip setup st c mouse hitTest
      | _ => ([], .countdown, { st with timeoutMs := afterSleep st.timeoutMs })
  | .wait, .key c mouse hitTest => if c = 0 then st.wait else handleKey skip setup st c mouse hitTest
  | .editor, .text none => refresh skip { st with bootingFromEditor := false }
  | .editor, .text (some body) =>
    let st := { st with bootingFromEditor := true }
    st.deref fun _ _ _ =>
      autoboot skip { st with
        tree := st.tree.update (st.selectedMenuEntry.getD []) (setBody body) }
  | .editorBlank, .text none =>
    refresh skip { st with bootingFromEditor := false, bootingFromBlank := false }
  | .editorBlank, .text (some body) =>
    { st with bootingFromEditor := true, configReady := true }.boot body
  | label, _ => ([], label, st)

/-! ## The beginning -/

/-- What `_menu` starts from: the tree and the selection the configuration has led to, and what it
has settled of the timeout. -/
structure MenuStart where
  tree : MenuTree
  selectedEntry : Nat
  defaultEntryUnresolved : Bool
  firstRun : Bool
  skipTimeout : Bool
  timeoutMs : Nat
  quiet : Bool
  bootingFromEditor : Bool
  bootingFromBlank : Bool
  configReady : Bool

/-- `_menu` up to its first wait. -/
def start (init : MenuStart) : Outcome :=
  let model := menuModelUpdate skip init.tree
  let st : MenuState :=
    { tree := init.tree
      model := model
      maxEntries := model.count
      selectedEntry := if model.count ≤ init.selectedEntry then 0 else init.selectedEntry
      selectedMenuEntry := menuModelEntry model init.selectedEntry
      skipTimeout := if init.firstRun then init.skipTimeout else true
      timeoutMs := init.timeoutMs
      quiet := if init.firstRun then init.quiet else false
      bootingFromEditor := init.bootingFromEditor
      bootingFromBlank := init.bootingFromBlank
      configReady := init.configReady
      lastView := none }
  if st.skipTimeout then refresh skip st
  else if init.defaultEntryUnresolved ∨ st.maxEntries = 0 ∨ st.selectedMenuEntry = none then
    refresh skip { st with quiet := false, skipTimeout := true }
  else
    st.deref fun _ _ sub =>
      if sub.isNode then refresh skip { st with quiet := false, skipTimeout := true }
      else if st.timeoutMs = 0 then autoboot skip st
      else refresh skip st

end

end Limine.Menu
