import Limine.Drivers.Mouse

/-!
# The pointer stays where it can be drawn

Whatever is moved, placed or rescaled is clamped after it, and so no overflow in between takes the
pointer out of the canvas or the terminal.
-/

namespace Limine.Drivers

/-! ## What the position depends on -/

structure Place where
  active : Bool
  canvasWidth : Nat
  canvasHeight : Nat
  posX : Int
  posY : Int
  pointerPosValid : Bool

def Mouse.place (m : Mouse) : Place :=
  ⟨m.active, m.canvasWidth, m.canvasHeight, m.posX, m.posY, m.pointerPosValid⟩

@[simp] theorem resetTransientState_place (m : Mouse) : (resetTransientState m).place = m.place := rfl

@[simp] theorem leftChanged_place (m : Mouse) (left : Bool) : (leftChanged m left).place = m.place := by
  unfold leftChanged
  dsimp only
  split
  · split <;> rfl
  · split <;> rfl

@[simp] theorem updateButtons_place (m : Mouse) (left right : Bool) :
    (updateButtons m left right).1.place = m.place := by
  have hleft : (if left != m.leftDown then (leftChanged m left, mouseEventButton) else (m, 0)).1.place = m.place := by
    split
    · exact leftChanged_place m left
    · rfl
  unfold updateButtons
  generalize (if left != m.leftDown then (leftChanged m left, mouseEventButton) else (m, 0)) = pair at *
  dsimp only
  split <;> split <;> exact hleft

@[simp] theorem wheelBy_place (s : Setup) (m : Mouse) (steps : Int) : (wheelBy s m steps).1.place = m.place := by
  unfold wheelBy
  split <;> rfl

@[simp] theorem mouseGetState_place (m : Mouse) : (mouseGetState m).2.place = m.place := rfl

@[simp] theorem mouseFlush_place (s : Setup) (m : Mouse) : (mouseFlush s m).place = m.place := by
  unfold mouseFlush
  split
  · rfl
  · split <;> rfl

/-! ## The invariant -/

/-- A position on an axis of `size` units. -/
def OnAxis (size : Nat) (p : Int) : Prop := 0 ≤ p ∧ p < size * 256

structure InGrid (s : Setup) (m : Mouse) : Prop where
  x : OnAxis (inputWidth s m) m.posX
  y : OnAxis (inputHeight s m) m.posY

structure Placed (s : Setup) (m : Mouse) : Prop where
  grid : InGrid s m
  width_le : m.canvasWidth ≤ 4096
  height_le : m.canvasHeight ≤ 4096
  /-- Until it is placed the pointer is in the corner. -/
  corner : m.pointerPosValid = false → m.posX = 0 ∧ m.posY = 0
  valid : m.active = true → m.pointerPosValid = true

section
variable {s : Setup} {m m' : Mouse} {size : Nat}

theorem Placed.congr (h : Placed s m) (hplace : m'.place = m.place) : Placed s m' := by
  unfold Mouse.place at hplace
  simp only [Place.mk.injEq] at hplace
  obtain ⟨hactive, hwidth, hheight, hx, hy, hvalid⟩ := hplace
  have hinput : inputWidth s m' = inputWidth s m ∧ inputHeight s m' = inputHeight s m := by
    unfold inputWidth inputHeight
    rw [hwidth, hheight]
    exact ⟨rfl, rfl⟩
  constructor
  · constructor
    · rw [hinput.1, hx]
      exact h.grid.x
    · rw [hinput.2, hy]
      exact h.grid.y
  · rw [hwidth]
    exact h.width_le
  · rw [hheight]
    exact h.height_le
  · rw [hvalid, hx, hy]
    exact h.corner
  · rw [hactive, hvalid]
    exact h.valid

theorem Setup.i64_eq (s : Setup) {x : Int} (hlow : -2 ^ 63 ≤ x) (hhigh : x < 2 ^ 63) : s.i64 x = x :=
  if_pos ⟨hlow, hhigh⟩

theorem inputWidth_bounds (s : Setup) (h : m.canvasWidth ≤ 4096) : 0 < inputWidth s m ∧ inputWidth s m < 2 ^ 55 := by
  have hpos := s.cols_pos
  have hlt := s.cols_lt
  unfold inputWidth
  split <;> omega

theorem inputHeight_bounds (s : Setup) (h : m.canvasHeight ≤ 4096) :
    0 < inputHeight s m ∧ inputHeight s m < 2 ^ 55 := by
  have hpos := s.rows_pos
  have hlt := s.rows_lt
  unfold inputHeight
  split <;> omega

theorem clampAxis_onAxis (s : Setup) (hsize : 0 < size ∧ size < 2 ^ 55) (p : Int) :
    OnAxis size (clampAxis (s.i64 (s.i64 (size * 256) - 1)) p) := by
  obtain ⟨hpos, hlt⟩ := hsize
  have hmax : s.i64 (s.i64 (size * 256) - 1) = size * 256 - 1 := by
    rw [s.i64_eq (x := size * 256) (by omega) (by omega), s.i64_eq (by omega) (by omega)]
  rw [hmax]
  unfold OnAxis clampAxis
  split
  · omega
  · split <;> omega

theorem middle_onAxis (s : Setup) (hsize : 0 < size ∧ size < 2 ^ 55) :
    OnAxis size (s.i64 ((size / 2 : Nat) * 256)) := by
  obtain ⟨hpos, hlt⟩ := hsize
  have hhalf : size / 2 < size := Nat.div_lt_self hpos (by decide)
  generalize size / 2 = half at hhalf
  rw [s.i64_eq (by omega) (by omega)]
  unfold OnAxis
  omega

theorem clampPointer_inGrid (hwidth : m.canvasWidth ≤ 4096) (hheight : m.canvasHeight ≤ 4096) :
    InGrid s (clampPointer s m) :=
  ⟨clampAxis_onAxis s (inputWidth_bounds s hwidth) m.posX, clampAxis_onAxis s (inputHeight_bounds s hheight) m.posY⟩

/-! ## The steps -/

/-- Wherever a valid pointer went to, it is placed once it is clamped. -/
theorem Placed.clamp (h : Placed s m) (hvalid : m.pointerPosValid = true) (x y : Int) :
    Placed s (clampPointer s { m with posX := x, posY := y }) :=
  ⟨clampPointer_inGrid h.width_le h.height_le, h.width_le, h.height_le,
    fun hnone => absurd (hvalid.symm.trans hnone) (by decide), fun _ => hvalid⟩

theorem Placed.moveBy (h : Placed s m) (hactive : m.active = true) (dx dy : Int) : Placed s (moveBy s m dx dy).1 := by
  have hclamp := h.clamp (h.valid hactive) (s.i64 (m.posX + dx)) (s.i64 (m.posY + dy))
  unfold Drivers.moveBy
  split
  · exact h
  · dsimp only
    split
    · exact hclamp.congr rfl
    · exact hclamp

theorem Placed.put (h : Placed s m) {x y : Int} (hx : OnAxis (inputWidth s m) x) (hy : OnAxis (inputHeight s m) y) :
    Placed s { m with pointerPosValid := true, posX := x, posY := y } :=
  ⟨⟨hx, hy⟩, h.width_le, h.height_le, fun hnone => absurd hnone (by simp), fun _ => rfl⟩

/-- The pointer is placed for whoever starts the mouse. -/
theorem Placed.placePointer (h : Placed s m) (hterms : s.termsI ≠ 0) :
    Placed s (placePointer s m) ∧ (placePointer s m).pointerPosValid = true := by
  unfold Drivers.placePointer
  rw [if_neg hterms]
  split
  · next hvalid => exact ⟨h.clamp hvalid m.posX m.posY, hvalid⟩
  · have hx := middle_onAxis s (inputWidth_bounds s h.width_le)
    have hy := middle_onAxis s (inputHeight_bounds s h.height_le)
    exact ⟨h.put hx hy, rfl⟩

theorem Placed.off (h : Placed s m) (hplace : m'.place = { m.place with active := false }) : Placed s m' := by
  have hoff : Placed s { m with active := false } :=
    ⟨⟨h.grid.x, h.grid.y⟩, h.width_le, h.height_le, h.corner, fun hactive => nomatch hactive⟩
  exact hoff.congr hplace

theorem Placed.deinit (h : Placed s m) : Placed s (mouseDeinit s m) := by
  unfold mouseDeinit
  split
  · split
    · exact h.off rfl
    · exact h
  · exact h.off rfl

/-- The end of a `mouse_init` that succeeds. -/
theorem Placed.start (h : Placed s m) (hterms : s.termsI ≠ 0) (moved : Bool) :
    Placed s { Drivers.placePointer s m with movedPending := moved, active := true } := by
  obtain ⟨hplaced, hvalid⟩ := h.placePointer hterms
  exact ⟨⟨hplaced.grid.x, hplaced.grid.y⟩, hplaced.width_le, hplaced.height_le, hplaced.corner, fun _ => hvalid⟩

theorem Placed.initBios (h : Placed s m) (disabled : Bool) (r : Ps2Replies) :
    Placed s (mouseInitBios s m disabled r).1 := by
  have hdeinit := h.deinit
  unfold mouseInitBios
  generalize mouseDeinit s m = off at hdeinit
  dsimp only
  split
  · exact hdeinit
  · next hcan =>
    have hterms : s.termsI ≠ 0 := by
      intro hzero
      simp [hzero] at hcan
    split
    · exact hdeinit
    split
    · exact hdeinit.congr rfl
    split
    · cases r.status <;> exact hdeinit.congr rfl
    · refine Placed.start (hdeinit.congr ?_) hterms _
      cases r.status <;> rfl

theorem Placed.initEfi (h : Placed s m) (disabled : Bool) (r : EfiReplies) :
    Placed s (mouseInitEfi s m disabled r).1 := by
  have hdeinit := h.deinit
  unfold mouseInitEfi
  generalize mouseDeinit s m = off at hdeinit
  dsimp only
  split
  · exact hdeinit
  · next hcan =>
    have hterms : s.termsI ≠ 0 := by
      intro hzero
      simp [hzero] at hcan
    split
    · exact hdeinit.congr rfl
    · refine Placed.start (hdeinit.congr ?_) hterms _
      rfl

/-- A pointer that was not placed yet stays in the corner. -/
theorem Placed.setCanvas (h : Placed s m) (width height : Nat) : Placed s (mouseSetCanvas s m width height) := by
  unfold mouseSetCanvas
  split
  · exact h
  · next haccepted =>
    unfold acceptsCanvas at haccepted
    simp only [Bool.and_eq_true, Bool.not_eq_true', Bool.or_eq_false_iff, decide_eq_false_iff_not, Nat.not_lt,
      Bool.not_eq_false] at haccepted
    obtain ⟨⟨⟨-, hwidth⟩, hheight⟩, -⟩ := haccepted
    refine Placed.congr ?_ (mouseFlush_place s _)
    split
    · next hrescale =>
      simp only [Bool.and_eq_true] at hrescale
      exact ⟨clampPointer_inGrid hwidth hheight, hwidth, hheight,
        fun hnone => absurd (hrescale.1.1.symm.trans hnone) (by decide), h.valid⟩
    · next hkeep =>
      have hwpos := (inputWidth_bounds s h.width_le).1
      have hhpos := (inputHeight_bounds s h.height_le).1
      have hinvalid : m.pointerPosValid = false := by
        cases hvalid : m.pointerPosValid with
        | false => rfl
        | true =>
          refine absurd ?_ hkeep
          simp only [hvalid, Bool.true_and, Bool.and_eq_true, bne_iff_ne]
          omega
      obtain ⟨hx, hy⟩ := h.corner hinvalid
      have hcorner : ∀ {size : Nat}, 0 < size → OnAxis size 0 := fun hpos => ⟨Int.le_refl _, by omega⟩
      refine ⟨⟨?_, ?_⟩, hwidth, hheight, fun _ => ⟨hx, hy⟩, h.valid⟩
      · show OnAxis _ m.posX
        rw [hx]
        exact hcorner (inputWidth_bounds s (m := { m with canvasWidth := width, canvasHeight := height }) hwidth).1
      · show OnAxis _ m.posY
        rw [hy]
        exact hcorner (inputHeight_bounds s (m := { m with canvasWidth := width, canvasHeight := height }) hheight).1

/-! ## What the devices send -/

theorem Placed.processPacket (h : Placed s m) (hactive : m.active = true) (packet : List UInt8) :
    Placed s (processPacket s m packet).1 := by
  unfold Drivers.processPacket
  dsimp only
  generalize hmoved : (if (packet.getD 0 0).toNat &&& 0xc0 = 0 then _ else (m, 0) : Mouse × Nat) = moved
  have hplaced : Placed s moved.1 := by
    rw [← hmoved]
    split
    · exact h.moveBy hactive _ _
    · exact h
  refine hplaced.congr ?_
  split
  · rw [wheelBy_place, updateButtons_place]
  · rw [updateButtons_place]

theorem Placed.processPacketByte (h : Placed s m) (hactive : m.active = true) (b : UInt8) :
    Placed s (processPacketByte s m b).1 := by
  have hempty : Placed s { m with packet := [] } := h.congr rfl
  unfold Drivers.processPacketByte
  split
  · next packet _ => exact hempty.processPacket hactive packet
  · split
    · exact h
    · exact h.congr rfl

theorem Placed.moveSimple (h : Placed s m) (hactive : m.active = true) (p : SimplePointer)
    (state : SimplePointerState) : Placed s (moveSimple s m p state).1 := by
  unfold Drivers.moveSimple
  dsimp only
  generalize hmoved : (if m.canvasWidth ≠ 0 then _ else _ : Mouse × Nat) = moved
  have hplaced : Placed s moved.1 := by
    rw [← hmoved]
    split <;> exact h.moveBy hactive _ _
  split
  · exact hplaced.congr (wheelBy_place s _ _)
  · exact hplaced

theorem Placed.setAbsolutePosition (h : Placed s m) (hactive : m.active = true) (p : AbsolutePointer)
    (state : AbsolutePointerState) : Placed s (setAbsolutePosition s m p state).1 := by
  unfold Drivers.setAbsolutePosition
  split
  · exact h
  · exact h.moveBy hactive _ _

theorem Placed.handleEfiEvent (h : Placed s m) (index : Nat) (ps : Pointers) :
    Placed s (mouseHandleEfiEvent s m index ps).1 := by
  unfold mouseHandleEfiEvent
  split
  · exact h
  · next hon =>
    have hactive : m.active = true := by simpa using hon
    split
    · split
      · exact h
      · next state _ =>
        refine Placed.congr ?_ (updateButtons_place _ _ _)
        split
        · exact h.congr rfl
        · exact h.moveSimple hactive _ state
    · split
      · dsimp only
        split
        · exact h
        · next state _ => exact (h.setAbsolutePosition hactive _ state).congr (updateButtons_place _ _ _)
      · exact h

theorem Placed.step (h : Placed s m) (c : Call) : Placed s (step s m c) := by
  cases c with
  | init disabled ps2 efi =>
    show Placed s (mouseInit s m disabled ps2 efi).1
    unfold mouseInit
    split
    · exact h.initBios disabled ps2
    · exact h.initEfi disabled efi
  | deinit => exact h.deinit
  | flush => exact h.congr (mouseFlush_place s m)
  | setCanvas width height => exact h.setCanvas width height
  | getState => exact h.congr (mouseGetState_place m)
  | packetByte b =>
    rw [Drivers.step]
    split
    · next hon => exact h.processPacketByte hon.2 b
    · exact h
  | efiEvent index ps =>
    rw [Drivers.step]
    split
    · exact h.handleEfiEvent index ps
    · exact h

end

theorem placed_start (s : Setup) : Placed s {} :=
  ⟨⟨⟨Int.le_refl 0, by show (0 : Int) < s.cols * 256; have := s.cols_pos; omega⟩,
    ⟨Int.le_refl 0, by show (0 : Int) < s.rows * 256; have := s.rows_pos; omega⟩⟩,
    by decide, by decide, fun _ => ⟨rfl, rfl⟩, fun hactive => absurd hactive (by decide)⟩

/-- Whatever is called, the pointer is in the canvas or the terminal. -/
theorem run_inGrid (s : Setup) (calls : List Call) : InGrid s (run s {} calls) :=
  (run_induction (fun _ m => Placed s m) (placed_start s) (fun _ _ c h => h.step c) calls).grid

end Limine.Drivers
