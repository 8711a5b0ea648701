import Limine.Loader.Memory
import Mathlib

/-!
# The mouse

The state of `drivers/mouse.c` and the calls that change it, for both firmwares.  What a device or the
controller answers is an argument of the call.
-/

namespace Limine.Drivers
open Limine.Loader

/-! ## The state -/

inductive Firmware
  | bios
  | uefi
deriving DecidableEq, Repr

/-- What does not change while the mouse runs.  The cells of a terminal are all in memory, and so a
row of them is short. -/
structure Setup where
  firmware : Firmware
  /-- `terms_i` -/
  termsI : Nat
  /-- `terms[0]->cols` -/
  cols : Nat
  /-- `terms[0]->rows` -/
  rows : Nat
  cols_pos : 0 < cols
  rows_pos : 0 < rows
  cols_lt : cols < 2 ^ 55
  rows_lt : rows < 2 ^ 55
  /-- What a signed sum or product comes to that its type does not hold. -/
  overflowed : Int → Int

/-- A computation in `int64_t`. -/
def Setup.i64 (s : Setup) (x : Int) : Int := if -2 ^ 63 ≤ x ∧ x < 2 ^ 63 then x else s.overflowed x

/-- A computation in `int`. -/
def Setup.i32 (s : Setup) (x : Int) : Int := if -2 ^ 31 ≤ x ∧ x < 2 ^ 31 then x else s.overflowed x

/-- `(int64_t)` of a `uint64_t` -/
def toI64 (n : Nat) : Int := Int.bmod n (2 ^ 64)

/-- `(uint64_t)` of an `int64_t` -/
def toU64 (x : Int) : Nat := (x % 2 ^ 64).toNat

structure Mouse where
  active : Bool := false
  canvasWidth : Nat := 0
  canvasHeight : Nat := 0
  /-- In 1/256ths of a unit, as `posY`. -/
  posX : Int := 0
  posY : Int := 0
  pointerPosValid : Bool := false
  pointerShown : Bool := false
  leftDown : Bool := false
  rightDown : Bool := false
  seenReleased : Bool := false
  pressSeen : Bool := false
  pressX : Nat := 0
  pressY : Nat := 0
  movedPending : Bool := false
  clickPending : Bool := false
  clickCellX : Nat := 0
  clickCellY : Nat := 0
  clickPressX : Nat := 0
  clickPressY : Nat := 0
  wheelPending : Int := 0
  wheelPackets : Bool := false
  /-- The first `packet_index` bytes of `packet`. -/
  packet : List UInt8 := []
  relPointerCount : Nat := 0
  absPointerCount : Nat := 0
  discardFirstMove : Nat := 0
deriving DecidableEq, Repr

def mouseEventMove : Nat := 1
def mouseEventButton : Nat := 2
def mouseEventWheel : Nat := 4

def inputWidth (s : Setup) (m : Mouse) : Nat := if m.canvasWidth ≠ 0 then m.canvasWidth else s.cols
def inputHeight (s : Setup) (m : Mouse) : Nat := if m.canvasHeight ≠ 0 then m.canvasHeight else s.rows

/-- `(size_t)(p >> 8)`, of a position that is not negative. -/
def cell (p : Int) : Nat := (p >>> 8).toNat

/-! ## What the calls share -/

def resetTransientState (m : Mouse) : Mouse :=
  { m with
    movedPending := false
    clickPending := false
    wheelPending := 0
    pressSeen := false
    seenReleased := !m.leftDown }

/-- One axis of `clamp_pointer`. -/
def clampAxis (max p : Int) : Int := if p < 0 then 0 else if p > max then max else p

def clampPointer (s : Setup) (m : Mouse) : Mouse :=
  let maxX := s.i64 (s.i64 (inputWidth s m * 256) - 1)
  let maxY := s.i64 (s.i64 (inputHeight s m * 256) - 1)
  { m with posX := clampAxis maxX m.posX, posY := clampAxis maxY m.posY }

def placePointer (s : Setup) (m : Mouse) : Mouse :=
  if s.termsI = 0 then m
  else if m.pointerPosValid then clampPointer s m
  else { m with
    pointerPosValid := true
    posX := s.i64 ((inputWidth s m / 2 : Nat) * 256)
    posY := s.i64 ((inputHeight s m / 2 : Nat) * 256) }

/-- The new state and the events, as for the functions after it. -/
def moveBy (s : Setup) (m : Mouse) (dx dy : Int) : Mouse × Nat :=
  if s.termsI = 0 then (m, 0)
  else
    let m' := clampPointer s { m with posX := s.i64 (m.posX + dx), posY := s.i64 (m.posY + dy) }
    if m'.posX ≠ m.posX ∨ m'.posY ≠ m.posY then
      ({ m' with movedPending := true, pointerShown := true }, mouseEventMove)
    else (m', 0)

/-- The branch of `update_buttons` for the left button, which has changed. -/
def leftChanged (m : Mouse) (left : Bool) : Mouse :=
  let m := { m with pointerShown := true }
  let m :=
    if left then
      if m.seenReleased then { m with pressSeen := true, pressX := cell m.posX, pressY := cell m.posY } else m
    else
      let m :=
        if m.pressSeen && (m.canvasWidth != 0 || m.pressY == cell m.posY) then
          { m with
            clickPending := true
            clickCellX := cell m.posX
            clickCellY := cell m.posY
            clickPressX := m.pressX
            clickPressY := m.pressY }
        else m
      { m with pressSeen := false }
  { m with leftDown := left }

def updateButtons (m : Mouse) (left right : Bool) : Mouse × Nat :=
  let (m, ev) := if left != m.leftDown then (leftChanged m left, mouseEventButton) else (m, 0)
  let m := if !left then { m with seenReleased := true } else m
  if right != m.rightDown then ({ m with pointerShown := true, rightDown := right }, ev ||| mouseEventButton)
  else (m, ev)

def wheelBy (s : Setup) (m : Mouse) (steps : Int) : Mouse × Nat :=
  if steps = 0 then (m, 0)
  else ({ m with wheelPending := s.i32 (m.wheelPending + steps), pointerShown := true }, mouseEventWheel)

/-! ## The calls for every firmware -/

structure MouseState where
  x : Nat
  y : Nat
  wheel : Int
  moved : Bool
  click : Bool
  clickX : Nat
  clickY : Nat
  pressX : Nat
  pressY : Nat
deriving DecidableEq, Repr

def mouseGetState (m : Mouse) : MouseState × Mouse :=
  (⟨cell m.posX, cell m.posY, m.wheelPending, m.movedPending, m.clickPending, m.clickCellX, m.clickCellY,
      m.clickPressX, m.clickPressY⟩,
    { m with wheelPending := 0, movedPending := false, clickPending := false })

/-- What the controller still has to say is lost; only the devices behind it know of that. -/
def mouseFlush (s : Setup) (m : Mouse) : Mouse :=
  if !m.active then m
  else match s.firmware with
    | .bios => resetTransientState { m with packet := [] }
    | .uefi =>
      { resetTransientState { m with discardFirstMove := 2 ^ m.relPointerCount - 1 } with seenReleased := false }

/-- `pos * new / old`, in `uint64_t`; where `size_t` is narrower this is in `int64_t` and stays there. -/
def rescale (pos : Int) (new old : Nat) : Int := toI64 (toU64 pos * new % 2 ^ 64 / old)

/-- Whether `mouse_set_canvas` has something to do. -/
def acceptsCanvas (s : Setup) (m : Mouse) (width height : Nat) : Bool :=
  !(((width == 0) != (height == 0)) || decide (width > 4096) || decide (height > 4096)) &&
    !(s.termsI == 0 || (width == m.canvasWidth && height == m.canvasHeight))

def mouseSetCanvas (s : Setup) (m : Mouse) (width height : Nat) : Mouse :=
  if !acceptsCanvas s m width height then m
  else
    let oldWidth := inputWidth s m
    let oldHeight := inputHeight s m
    let m := { m with canvasWidth := width, canvasHeight := height }
    let m :=
      if m.pointerPosValid && oldWidth != 0 && oldHeight != 0 then
        clampPointer s { m with
          posX := rescale m.posX (inputWidth s m) oldWidth
          posY := rescale m.posY (inputHeight s m) oldHeight }
      else m
    mouseFlush s m

def mouseDeinit (s : Setup) (m : Mouse) : Mouse :=
  match s.firmware with
  | .bios => if m.active then { m with active := false, packet := [] } else m
  | .uefi => { m with active := false, relPointerCount := 0, absPointerCount := 0 }

/-! ## BIOS -/

/-- What the i8042 and the mouse behind it answer to `mouse_init`. -/
structure Ps2Replies where
  /-- The status port does not read 0xff. -/
  present : Bool
  /-- The aux interface passes its test, and the command byte is read. -/
  tested : Bool
  /-- The new command byte is taken. -/
  reconfigured : Bool
  /-- Commands 0xf5 and 0xf6 are acknowledged. -/
  stopped : Bool
  defaults : Bool
  wheel : Bool
  /-- The first byte in reply to 0xe9. -/
  status : Option UInt8
  /-- Command 0xf4 is acknowledged. -/
  enabled : Bool

def mouseInitBios (s : Setup) (m : Mouse) (disabled : Bool) (r : Ps2Replies) : Mouse × Bool :=
  let m := mouseDeinit s m
  if disabled || s.termsI == 0 then (m, false)
  else if !r.present then (m, false)
  else
    let m := { m with packet := [] }
    if !r.tested || !r.reconfigured || !r.stopped || !r.defaults then (m, false)
    else
      let m := { m with wheelPackets := r.wheel, leftDown := false, rightDown := false }
      let m :=
        match r.status with
        | some b => { m with leftDown := b.toNat.testBit 0, rightDown := b.toNat.testBit 1 }
        | none => m
      if !r.enabled then (m, false)
      else
        let m := placePointer s (resetTransientState m)
        ({ m with movedPending := m.pointerShown, active := true }, true)

/-- `COUNTS_TO_FIXED_X` -/
def countsToFixedX (m : Mouse) (d : Int) : Int := (d * 256).tdiv (if m.canvasWidth ≠ 0 then 1 else 8)

/-- `COUNTS_TO_FIXED_Y` -/
def countsToFixedY (m : Mouse) (d : Int) : Int := (d * 256).tdiv (if m.canvasHeight ≠ 0 then 1 else 16)

/-- The packet with `b` at its end, where that makes it complete. -/
def packetOf (m : Mouse) (b : UInt8) : Option (List UInt8) :=
  if m.packet = [] ∧ !b.toNat.testBit 3 then none
  else if (m.packet ++ [b]).length < (if m.wheelPackets then 4 else 3) then none
  else some (m.packet ++ [b])

/-- `process_packet_byte` from the last byte on. -/
def processPacket (s : Setup) (m : Mouse) (packet : List UInt8) : Mouse × Nat :=
  let p0 := (packet.getD 0 0).toNat
  let moved :=
    if p0 &&& 0xc0 = 0 then
      let dx : Int := (packet.getD 1 0).toNat - (p0 <<< 4 &&& 0x100 : Nat)
      let dy : Int := (packet.getD 2 0).toNat - (p0 <<< 3 &&& 0x100 : Nat)
      moveBy s m (countsToFixedX m dx) (countsToFixedY m (-dy))
    else (m, 0)
  let pressed := updateButtons moved.1 (p0.testBit 0) (p0.testBit 1)
  let wheeled :=
    if m.wheelPackets then wheelBy s pressed.1 (Int.bmod (packet.getD 3 0).toNat 256) else (pressed.1, 0)
  (wheeled.1, moved.2 ||| pressed.2 ||| wheeled.2)

def processPacketByte (s : Setup) (m : Mouse) (b : UInt8) : Mouse × Nat :=
  match packetOf m b with
  | some packet => processPacket s { m with packet := [] } packet
  -- a byte without bit 3 is no first byte
  | none => if m.packet = [] ∧ !b.toNat.testBit 3 then (m, 0) else ({ m with packet := m.packet ++ [b] }, 0)

/-- The loop of `mouse_process_pending`, whose bytes come from the mouse. -/
def processBytes (s : Setup) : Mouse → List UInt8 → Mouse × Nat
  | m, [] => (m, 0)
  | m, b :: bs =>
    let now := processPacketByte s m b
    let rest := processBytes s now.1 bs
    (rest.1, now.2 ||| rest.2)

def mouseProcessPending (s : Setup) (m : Mouse) (bytes : List UInt8) : Mouse × Nat :=
  if !m.active then (m, 0) else processBytes s m (bytes.take 256)

/-! ## UEFI -/

structure EfiReplies where
  bootServicesExited : Bool
  relPointers : Nat
  absPointers : Nat

def mouseInitEfi (s : Setup) (m : Mouse) (disabled : Bool) (r : EfiReplies) : Mouse × Bool :=
  let m := mouseDeinit s m
  if disabled || s.termsI == 0 || r.bootServicesExited then (m, false)
  else
    let m := { m with relPointerCount := r.relPointers, absPointerCount := r.absPointers }
    if m.relPointerCount + m.absPointerCount = 0 then (m, false)
    else
      let m := { m with
        discardFirstMove := 2 ^ m.relPointerCount - 1
        leftDown := false
        rightDown := false }
      let m := placePointer s { resetTransientState m with seenReleased := false }
      ({ m with movedPending := m.pointerShown, active := true }, true)

structure SimplePointerState where
  relativeMovementX : Int
  relativeMovementY : Int
  relativeMovementZ : Int
  leftButton : Bool
  rightButton : Bool

/-- A simple pointer; `state` is what `GetState` returns. -/
structure SimplePointer where
  resolutionX : Nat
  resolutionY : Nat
  resolutionZ : Nat
  state : Option SimplePointerState

structure AbsolutePointerState where
  currentX : Nat
  currentY : Nat
  activeButtons : Nat

structure AbsolutePointer where
  absoluteMinX : Nat
  absoluteMinY : Nat
  absoluteMaxX : Nat
  absoluteMaxY : Nat
  state : Option AbsolutePointerState

/-- `rel_pointers` and `abs_pointers` -/
structure Pointers where
  rel : Nat → SimplePointer
  abs : Nat → AbsolutePointer

def mmPerCellX : Int := 2
def mmPerCellY : Int := 4

/-- A movement in units of 1/256, where a millimetre has `per` counts. -/
def fixedOf (s : Setup) (movement scale per : Int) : Int := (s.i64 (movement * scale)).tdiv (s.i64 per)

/-- `mouse_handle_efi_event` up to the buttons of a simple pointer. -/
def moveSimple (s : Setup) (m : Mouse) (p : SimplePointer) (state : SimplePointerState) : Mouse × Nat :=
  let resX := if p.resolutionX ≠ 0 then toI64 p.resolutionX else 4
  let resY := if p.resolutionY ≠ 0 then toI64 p.resolutionY else 4
  let moved :=
    if m.canvasWidth ≠ 0 then
      moveBy s m (fixedOf s state.relativeMovementX 1024 resX) (fixedOf s state.relativeMovementY 1024 resY)
    else
      moveBy s m (fixedOf s state.relativeMovementX 256 (resX * mmPerCellX))
        (fixedOf s state.relativeMovementY 256 (resY * mmPerCellY))
  if p.resolutionZ ≠ 0 ∧ state.relativeMovementZ ≠ 0 then
    let steps := Int.bmod (state.relativeMovementZ.tdiv (toI64 p.resolutionZ)) (2 ^ 32)
    let steps := if steps = 0 then (if state.relativeMovementZ > 0 then 1 else -1) else steps
    let wheeled := wheelBy s moved.1 steps
    (wheeled.1, moved.2 ||| wheeled.2)
  else moved

/-- One axis of `set_absolute_position`. -/
def absoluteAxis (size current min max : Nat) : Int :=
  toI64 (sub64 current min * (size * 256 % 2 ^ 64) % 2 ^ 64 / sub64 max min)

def setAbsolutePosition (s : Setup) (m : Mouse) (p : AbsolutePointer) (state : AbsolutePointerState) : Mouse × Nat :=
  if s.termsI = 0 ∨ p.absoluteMaxX ≤ p.absoluteMinX ∨ p.absoluteMaxY ≤ p.absoluteMinY then (m, 0)
  else
    let newX := absoluteAxis (inputWidth s m) state.currentX p.absoluteMinX p.absoluteMaxX
    let newY := absoluteAxis (inputHeight s m) state.currentY p.absoluteMinY p.absoluteMaxY
    moveBy s m (s.i64 (newX - m.posX)) (s.i64 (newY - m.posY))

def mouseHandleEfiEvent (s : Setup) (m : Mouse) (index : Nat) (ps : Pointers) : Mouse × Nat :=
  if !m.active then (m, 0)
  else if index < m.relPointerCount then
    match (ps.rel index).state with
    | none => (m, 0)
    | some state =>
      let moved :=
        if m.discardFirstMove.testBit index then
          ({ m with discardFirstMove := m.discardFirstMove &&& (2 ^ 32 - 1 - 2 ^ index) }, 0)
        else moveSimple s m (ps.rel index) state
      let pressed := updateButtons moved.1 state.leftButton state.rightButton
      (pressed.1, moved.2 ||| pressed.2)
  else if index - m.relPointerCount < m.absPointerCount then
    let p := ps.abs (index - m.relPointerCount)
    match p.state with
    | none => (m, 0)
    | some state =>
      let moved := setAbsolutePosition s m p state
      let pressed := updateButtons moved.1 (state.activeButtons.testBit 0) (state.activeButtons.testBit 1)
      (pressed.1, moved.2 ||| pressed.2)
  else (m, 0)

/-! ## Runs -/

def mouseInit (s : Setup) (m : Mouse) (disabled : Bool) (ps2 : Ps2Replies) (efi : EfiReplies) : Mouse × Bool :=
  match s.firmware with
  | .bios => mouseInitBios s m disabled ps2
  | .uefi => mouseInitEfi s m disabled efi

/-- A call, with the answers of the hardware; `packetByte` is one round of `mouse_process_pending`. -/
inductive Call
  | init (disabled : Bool) (ps2 : Ps2Replies) (efi : EfiReplies)
  | deinit
  | flush
  | setCanvas (width height : Nat)
  | getState
  | packetByte (b : UInt8)
  | efiEvent (index : Nat) (ps : Pointers)

/-- A firmware does not have the calls of the other one. -/
def step (s : Setup) (m : Mouse) : Call → Mouse
  | .init disabled ps2 efi => (mouseInit s m disabled ps2 efi).1
  | .deinit => mouseDeinit s m
  | .flush => mouseFlush s m
  | .setCanvas width height => mouseSetCanvas s m width height
  | .getState => (mouseGetState m).2
  | .packetByte b => if s.firmware = .bios ∧ m.active = true then (processPacketByte s m b).1 else m
  | .efiEvent index ps => if s.firmware = .uefi then (mouseHandleEfiEvent s m index ps).1 else m

def run (s : Setup) (m : Mouse) (calls : List Call) : Mouse := calls.foldl (step s) m

/-- A call of a run. -/
structure Moment where
  before : Mouse
  call : Call
  after : Mouse

def history (s : Setup) : Mouse → List Call → List Moment
  | _, [] => []
  | m, c :: cs => ⟨m, c, step s m c⟩ :: history s (step s m c) cs

theorem history_concat (s : Setup) (calls : List Call) (c : Call) : ∀ m, history s m (calls ++ [c]) =
    history s m calls ++ [⟨run s m calls, c, step s (run s m calls) c⟩] := by
  induction calls with
  | nil =>
    intro m
    rfl
  | cons d calls ih =>
    intro m
    rw [List.cons_append, history, ih]
    rfl

theorem run_concat (s : Setup) (m : Mouse) (calls : List Call) (c : Call) :
    run s m (calls ++ [c]) = step s (run s m calls) c := by
  unfold run
  rw [List.foldl_append]
  rfl

/-- What is preserved by a step holds of every run; `inv` speaks of the history as well. -/
theorem run_induction {s : Setup} {m : Mouse} (inv : List Moment → Mouse → Prop) (start : inv [] m)
    (hstep : ∀ h m c, inv h m → inv (h ++ [⟨m, c, step s m c⟩]) (step s m c)) (calls : List Call) :
    inv (history s m calls) (run s m calls) := by
  induction calls using List.reverseRecOn with
  | nil => exact start
  | append_singleton calls c ih =>
    rw [history_concat, run_concat]
    exact hstep _ _ c ih

end Limine.Drivers
