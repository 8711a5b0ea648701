import Limine.Drivers.Pointer
import Limine.Lib.FirstMatch

/-!
# Clicks

A click that `mouse_get_state` returns is a press edge and the next release edge, both since the last
flush.
-/

namespace Limine.Drivers
open Limine.Lib

/-! ## What clicks are made of -/

structure Gesture where
  active : Bool
  leftDown : Bool
  seenReleased : Bool
  pressSeen : Bool
  press : Nat × Nat
  clickPending : Bool
  clickPress : Nat × Nat
  clickCell : Nat × Nat

def Mouse.gesture (m : Mouse) : Gesture :=
  ⟨m.active, m.leftDown, m.seenReleased, m.pressSeen, (m.pressX, m.pressY), m.clickPending,
    (m.clickPressX, m.clickPressY), (m.clickCellX, m.clickCellY)⟩

/-- The unit the pointer is in. -/
def Mouse.at (m : Mouse) : Nat × Nat := (cell m.posX, cell m.posY)

/-- What an update of the buttons does to the gesture, with the pointer at `here`. -/
structure Updated (left : Bool) (here : Nat × Nat) (g g' : Gesture) : Prop where
  active : g'.active = g.active
  leftDown : g'.leftDown = left
  released : g'.seenReleased = true → g.seenReleased = true ∨ left = false
  press : g'.pressSeen = true →
    (g.pressSeen = true ∧ ¬(left = false ∧ g.leftDown = true) ∧ g'.press = g.press) ∨
      (left = true ∧ g.leftDown = false ∧ g.seenReleased = true ∧ g'.press = here)
  click : g'.clickPending = true →
    (g.clickPending = true ∧ g'.clickPress = g.clickPress ∧ g'.clickCell = g.clickCell) ∨
      (left = false ∧ g.leftDown = true ∧ g.pressSeen = true ∧ g'.clickPress = g.press ∧ g'.clickCell = here)

section
variable {s : Setup} {m : Mouse}

/-- The right button is no part of a gesture. -/
theorem updateButtons_gesture (m : Mouse) (left right : Bool) : (updateButtons m left right).1.gesture =
    let m' := if left != m.leftDown then leftChanged m left else m
    { m'.gesture with seenReleased := m'.seenReleased || !left } := by
  have hpair : (if left != m.leftDown then (leftChanged m left, mouseEventButton) else (m, 0)).1 =
      if left != m.leftDown then leftChanged m left else m := by
    split <;> rfl
  unfold updateButtons
  rw [← hpair]
  generalize (if left != m.leftDown then (leftChanged m left, mouseEventButton) else (m, 0)) = pair
  dsimp only
  split
  · next hleft =>
    rw [hleft, Bool.or_true]
    split <;> rfl
  · next hleft =>
    rw [(Bool.not_eq_true _).mp hleft, Bool.or_false]
    split <;> rfl

theorem updateButtons_updated (m : Mouse) (left right : Bool) :
    Updated left m.at m.gesture (updateButtons m left right).1.gesture := by
  rw [updateButtons_gesture]
  dsimp only
  cases hdown : m.leftDown with
  | false =>
    cases left with
    | false =>
      refine ⟨rfl, hdown, fun _ => Or.inr rfl, fun hpress => Or.inl ⟨hpress, ?_, rfl⟩,
        fun hclick => Or.inl ⟨hclick, rfl, rfl⟩⟩
      rintro ⟨-, hleft⟩
      exact absurd (hleft.symm.trans hdown) (by decide)
    | true =>
      -- a press edge
      show Updated true _ _
        { (leftChanged m true).gesture with seenReleased := (leftChanged m true).seenReleased || false }
      cases hreleased : m.seenReleased with
      | false =>
        have hkept : leftChanged m true = { m with pointerShown := true, leftDown := true } := by
          simp [leftChanged, hreleased]
        rw [hkept]
        exact ⟨rfl, rfl, by simp [hreleased], fun hpress => Or.inl ⟨hpress, by simp, rfl⟩,
          fun hclick => Or.inl ⟨hclick, rfl, rfl⟩⟩
      | true =>
        have hpressed : leftChanged m true = { m with
            pointerShown := true, leftDown := true, pressSeen := true, pressX := m.at.1, pressY := m.at.2 } := by
          simp [leftChanged, hreleased, Mouse.at]
        rw [hpressed]
        exact ⟨rfl, rfl, fun _ => Or.inl hreleased, fun _ => Or.inr ⟨rfl, hdown, hreleased, rfl⟩,
          fun hclick => Or.inl ⟨hclick, rfl, rfl⟩⟩
  | true =>
    cases left with
    | true =>
      exact ⟨rfl, hdown, fun hreleased => Or.inl ((Bool.or_false _).symm.trans hreleased),
        fun hpress => Or.inl ⟨hpress, by simp, rfl⟩, fun hclick => Or.inl ⟨hclick, rfl, rfl⟩⟩
    | false =>
      -- a release edge
      show Updated false _ _
        { (leftChanged m false).gesture with seenReleased := (leftChanged m false).seenReleased || true }
      by_cases hclick : (m.pressSeen && (m.canvasWidth != 0 || m.pressY == cell m.posY)) = true
      · have hclicked : leftChanged m false = { m with
            pointerShown := true, leftDown := false, pressSeen := false, clickPending := true, clickCellX := m.at.1,
            clickCellY := m.at.2, clickPressX := m.pressX, clickPressY := m.pressY } := by
          simp only [leftChanged, hclick, if_true]
          rfl
        rw [hclicked]
        have hpress : m.pressSeen = true := (Bool.and_eq_true _ _ ▸ hclick).1
        exact ⟨rfl, rfl, fun _ => Or.inr rfl, (fun hpress => nomatch hpress),
          fun _ => Or.inr ⟨rfl, hdown, hpress, rfl, rfl⟩⟩
      · have hkept : leftChanged m false = { m with pointerShown := true, leftDown := false, pressSeen := false } := by
          simp only [leftChanged, hclick]
          rfl
        rw [hkept]
        exact ⟨rfl, rfl, fun _ => Or.inr rfl, (fun hpress => nomatch hpress),
          fun hclick => Or.inl ⟨hclick, rfl, rfl⟩⟩

/-- A movement and the buttons after it. -/
theorem Updated.of_moved {before after : Mouse} (moved : Mouse) {left : Bool} (right : Bool)
    (hmoved : moved.gesture = before.gesture) (hafter : after.gesture = (updateButtons moved left right).1.gesture)
    (hat : after.at = moved.at) :
    Updated left after.at before.gesture after.gesture := by
  rw [hafter, hat, ← hmoved]
  exact updateButtons_updated moved left right

@[simp] theorem clampPointer_gesture (s : Setup) (m : Mouse) : (clampPointer s m).gesture = m.gesture := rfl

@[simp] theorem moveBy_gesture (s : Setup) (m : Mouse) (dx dy : Int) : (moveBy s m dx dy).1.gesture = m.gesture := by
  unfold moveBy
  split
  · rfl
  · dsimp only
    split <;> rfl

@[simp] theorem wheelBy_gesture (s : Setup) (m : Mouse) (steps : Int) : (wheelBy s m steps).1.gesture = m.gesture := by
  unfold wheelBy
  split <;> rfl

@[simp] theorem moveSimple_gesture (s : Setup) (m : Mouse) (p : SimplePointer) (state : SimplePointerState) :
    (moveSimple s m p state).1.gesture = m.gesture := by
  unfold moveSimple
  dsimp only
  split
  · rw [wheelBy_gesture]
    split <;> simp
  · split <;> simp

@[simp] theorem setAbsolutePosition_gesture (s : Setup) (m : Mouse) (p : AbsolutePointer)
    (state : AbsolutePointerState) : (setAbsolutePosition s m p state).1.gesture = m.gesture := by
  unfold setAbsolutePosition
  split <;> simp

end

/-! ## What a call of a run means for clicks -/

/-- The left button that a call observes: what it passes to `update_buttons`. -/
def observes (s : Setup) (m : Mouse) : Call → Option Bool
  | .packetByte b =>
    if s.firmware = .bios ∧ m.active = true then (packetOf m b).map fun packet => (packet.getD 0 0).toNat.testBit 0
    else none
  | .efiEvent index ps =>
    if s.firmware = .uefi ∧ m.active = true then
      if index < m.relPointerCount then (ps.rel index).state.map SimplePointerState.leftButton
      else if index - m.relPointerCount < m.absPointerCount then
        (ps.abs (index - m.relPointerCount)).state.map fun state => state.activeButtons.testBit 0
      else none
    else none
  | _ => none

/-- The calls that flush: `mouse_flush` and a change of the canvas while the mouse is active, and a
`mouse_init` that succeeds. -/
def flushes (s : Setup) (m : Mouse) : Call → Bool
  | .init disabled ps2 efi => (mouseInit s m disabled ps2 efi).2
  | .flush => m.active
  | .setCanvas width height => acceptsCanvas s m width height && m.active
  | _ => false

namespace Moment

variable (s : Setup) (t : Moment)

def sees : Option Bool := observes s t.before t.call

def flushes : Bool := Drivers.flushes s t.before t.call

def presses : Prop := t.sees s = some true ∧ t.before.leftDown = false

def releases : Prop := t.sees s = some false ∧ t.before.leftDown = true

def takes : Bool :=
  match t.call with
  | .getState => true
  | _ => false

end Moment

section
variable {s : Setup} {m : Mouse}

/-- What a call does that does not flush. -/
structure Follows (s : Setup) (t : Moment) : Prop where
  active : t.after.active = true → t.before.active = true
  sees : t.sees s ≠ none → t.before.active = true
  released : t.after.seenReleased = true → t.before.seenReleased = true ∨ t.sees s = some false
  press : t.after.pressSeen = true →
    (t.before.pressSeen = true ∧ ¬t.releases s ∧ t.after.gesture.press = t.before.gesture.press) ∨
      (t.presses s ∧ t.before.seenReleased = true ∧ t.after.gesture.press = t.after.at)
  click : t.after.clickPending = true →
    (t.before.clickPending = true ∧ t.takes = false ∧ t.after.gesture.clickPress = t.before.gesture.clickPress ∧
      t.after.gesture.clickCell = t.before.gesture.clickCell) ∨
    (t.releases s ∧ t.before.pressSeen = true ∧ t.after.gesture.clickPress = t.before.gesture.press ∧
      t.after.gesture.clickCell = t.after.at)

/-- A call that observes nothing and leaves what clicks are made of alone. -/
theorem Follows.of_quiet {t : Moment} (hsees : t.sees s = none) (htakes : t.takes = false)
    (hactive : t.after.active = true → t.before.active = true)
    (hgesture : { t.after.gesture with active := t.before.active, leftDown := t.before.leftDown } = t.before.gesture) :
    Follows s t := by
  unfold Mouse.gesture at hgesture
  simp only [Gesture.mk.injEq, true_and] at hgesture
  obtain ⟨hreleased, hpress, hpressAt, hclick, hclickPress, hclickCell⟩ := hgesture
  refine ⟨hactive, fun hsome => absurd hsees hsome, ?_, ?_, ?_⟩
  · rw [hreleased]
    exact Or.inl
  · rw [hpress]
    refine fun h => Or.inl ⟨h, fun hrelease => ?_, hpressAt⟩
    rw [Moment.releases, hsees] at hrelease
    cases hrelease.1
  · rw [hclick]
    exact fun h => Or.inl ⟨h, htakes, hclickPress, hclickCell⟩

theorem Follows.of_same {t : Moment} (hsees : t.sees s = none) (htakes : t.takes = false)
    (hgesture : t.after.gesture = t.before.gesture) : Follows s t := by
  refine Follows.of_quiet hsees htakes (fun hactive => ?_) ?_
  · exact (congrArg Gesture.active hgesture).symm.trans hactive
  · rw [hgesture]
    rfl

theorem Follows.of_updated {t : Moment} {left : Bool} (hsees : t.sees s = some left) (hactive : t.before.active = true)
    (htakes : t.takes = false) (hupdated : Updated left t.after.at t.before.gesture t.after.gesture) : Follows s t := by
  refine ⟨fun _ => hactive, fun _ => hactive, fun h => ?_, fun h => ?_, fun h => ?_⟩
  · rcases hupdated.released h with hreleased | rfl
    · exact Or.inl hreleased
    · exact Or.inr hsees
  · rcases hupdated.press h with ⟨hpress, hno, hat⟩ | ⟨rfl, hdown, hreleased, hat⟩
    · refine Or.inl ⟨hpress, fun hrelease => hno ⟨?_, hrelease.2⟩, hat⟩
      exact Option.some.inj (hsees.symm.trans hrelease.1)
    · exact Or.inr ⟨⟨hsees, hdown⟩, hreleased, hat⟩
  · rcases hupdated.click h with ⟨hclick, hpress, hcell⟩ | ⟨rfl, hdown, hpress, hat, hcell⟩
    · exact Or.inl ⟨hclick, htakes, hpress, hcell⟩
    · exact Or.inr ⟨⟨hsees, hdown⟩, hpress, hat, hcell⟩

/-! ## Calls that flush -/

/-- Right after a flush; only the BIOS side goes by what it knew of the button before. -/
structure Fresh (s : Setup) (m : Mouse) : Prop where
  active : m.active = true
  press : m.pressSeen = false
  click : m.clickPending = false
  released : m.seenReleased = true → s.firmware = .bios ∧ m.leftDown = false

theorem mouseFlush_fresh (hactive : m.active = true) : Fresh s (mouseFlush s m) := by
  unfold mouseFlush
  rw [if_neg (by simp [hactive])]
  cases hfirmware : s.firmware with
  | bios =>
    exact ⟨hactive, rfl, rfl, fun hreleased => ⟨hfirmware, by simpa [resetTransientState] using hreleased⟩⟩
  | uefi => exact ⟨hactive, rfl, rfl, fun hreleased => nomatch hreleased⟩

theorem placePointer_gesture (s : Setup) (m : Mouse) : (placePointer s m).gesture = m.gesture := by
  unfold placePointer Mouse.gesture
  split
  · rfl
  · split <;> rfl

/-- The end of a `mouse_init` that succeeds; `m` is the state once it is reset. -/
theorem Fresh.start (hpress : m.pressSeen = false) (hclick : m.clickPending = false)
    (hreleased : m.seenReleased = true → s.firmware = .bios ∧ m.leftDown = false) (moved : Bool) :
    Fresh s { placePointer s m with movedPending := moved, active := true } := by
  have hgesture := placePointer_gesture s m
  unfold Mouse.gesture at hgesture
  simp only [Gesture.mk.injEq] at hgesture
  obtain ⟨-, hdown', hreleased', hpress', -, hclick', -, -⟩ := hgesture
  refine ⟨rfl, hpress'.trans hpress, hclick'.trans hclick, fun h => ?_⟩
  obtain ⟨hbios, hdown⟩ := hreleased (hreleased'.symm.trans h)
  exact ⟨hbios, hdown'.trans hdown⟩

/-- A `mouse_init` that fails leaves the mouse off, and may have read the buttons. -/
structure Off (m m' : Mouse) : Prop where
  inactive : m'.active = false
  gesture : { m'.gesture with active := m.active, leftDown := m.leftDown } = m.gesture

theorem mouseDeinit_off (s : Setup) (m : Mouse) : Off m (mouseDeinit s m) := by
  unfold mouseDeinit
  split
  · split
    · exact ⟨rfl, rfl⟩
    · next hinactive => exact ⟨(Bool.not_eq_true _).mp hinactive, rfl⟩
  · exact ⟨rfl, rfl⟩

theorem mouseInitBios_ends (hbios : s.firmware = .bios) (m : Mouse) (disabled : Bool) (r : Ps2Replies) :
    if (mouseInitBios s m disabled r).2 = true then Fresh s (mouseInitBios s m disabled r).1
    else Off m (mouseInitBios s m disabled r).1 := by
  obtain ⟨hinactive, hgesture⟩ := mouseDeinit_off s m
  unfold mouseInitBios
  generalize mouseDeinit s m = off at hinactive hgesture
  dsimp only
  by_cases hcan : (disabled || s.termsI == 0) = true
  · simp only [hcan, if_true]
    exact ⟨hinactive, hgesture⟩
  by_cases hpresent : (!r.present) = true
  · simp only [hcan, hpresent, if_true]
    exact ⟨hinactive, hgesture⟩
  by_cases htested : (!r.tested || !r.reconfigured || !r.stopped || !r.defaults) = true
  · simp only [hcan, hpresent, htested, if_true]
    exact ⟨hinactive, hgesture⟩
  by_cases henabled : (!r.enabled) = true
  · simp only [hcan, hpresent, htested, henabled, if_true]
    cases r.status <;> exact ⟨hinactive, hgesture⟩
  simp only [hcan, hpresent, htested, henabled]
  refine Fresh.start rfl rfl (fun hreleased => ⟨hbios, ?_⟩) _
  simpa [resetTransientState] using hreleased

theorem mouseInitEfi_ends (m : Mouse) (disabled : Bool) (r : EfiReplies) :
    if (mouseInitEfi s m disabled r).2 = true then Fresh s (mouseInitEfi s m disabled r).1
    else Off m (mouseInitEfi s m disabled r).1 := by
  obtain ⟨hinactive, hgesture⟩ := mouseDeinit_off s m
  unfold mouseInitEfi
  generalize mouseDeinit s m = off at hinactive hgesture
  dsimp only
  by_cases hcan : (disabled || s.termsI == 0 || r.bootServicesExited) = true
  · simp only [hcan, if_true]
    exact ⟨hinactive, hgesture⟩
  by_cases hcount : r.relPointers + r.absPointers = 0
  · simp only [hcan, hcount, if_true]
    exact ⟨hinactive, hgesture⟩
  simp only [hcan, hcount]
  exact Fresh.start rfl rfl (fun hreleased => absurd hreleased Bool.false_ne_true) _

theorem mouseInit_ends (s : Setup) (m : Mouse) (disabled : Bool) (ps2 : Ps2Replies) (efi : EfiReplies) :
    if (mouseInit s m disabled ps2 efi).2 = true then Fresh s (mouseInit s m disabled ps2 efi).1
    else Off m (mouseInit s m disabled ps2 efi).1 := by
  unfold mouseInit
  cases hfirmware : s.firmware with
  | bios => exact mouseInitBios_ends hfirmware m disabled ps2
  | uefi => exact mouseInitEfi_ends m disabled efi

/-- A change of the canvas is a flush where the mouse is active. -/
theorem mouseSetCanvas_ends (s : Setup) (m : Mouse) (width height : Nat) :
    if (acceptsCanvas s m width height && m.active) = true then Fresh s (mouseSetCanvas s m width height)
    else (mouseSetCanvas s m width height).gesture = m.gesture := by
  unfold mouseSetCanvas
  cases haccepted : acceptsCanvas s m width height with
  | false => simp
  | true =>
    simp only [Bool.true_and, Bool.not_true]
    split
    · next hactive =>
      refine mouseFlush_fresh ?_
      split <;> exact hactive
    · next hinactive =>
      have hoff : ∀ m' : Mouse, m'.gesture = m.gesture → (mouseFlush s m').gesture = m.gesture := by
        intro m' hgesture
        have hactive' : m'.active = m.active := congrArg Gesture.active hgesture
        unfold mouseFlush
        rw [hactive', (Bool.not_eq_true _).mp hinactive]
        exact hgesture
      refine hoff _ ?_
      split <;> rfl

/-! ## Calls that do not -/

theorem at_of_place {m m' : Mouse} (h : m'.place = m.place) : m'.at = m.at := by
  unfold Mouse.place at h
  simp only [Place.mk.injEq] at h
  unfold Mouse.at
  rw [h.2.2.2.1, h.2.2.2.2.1]

theorem processPacket_updated (m : Mouse) (packet : List UInt8) :
    Updated ((packet.getD 0 0).toNat.testBit 0) (processPacket s m packet).1.at m.gesture
      (processPacket s m packet).1.gesture := by
  unfold processPacket
  dsimp only
  generalize hmoved : (if (packet.getD 0 0).toNat &&& 0xc0 = 0 then _ else (m, 0) : Mouse × Nat) = moved
  have hgesture : moved.1.gesture = m.gesture := by
    rw [← hmoved]
    split
    · exact moveBy_gesture s _ _ _
    · rfl
  refine Updated.of_moved moved.1 ((packet.getD 0 0).toNat.testBit 1) hgesture ?_ ?_
  · split
    · exact wheelBy_gesture s _ _
    · rfl
  · split
    · exact (at_of_place (wheelBy_place s _ _)).trans (at_of_place (updateButtons_place _ _ _))
    · exact at_of_place (updateButtons_place _ _ _)

theorem processPacketByte_active (hactive : m.active = true) (b : UInt8) :
    (processPacketByte s m b).1.active = true := by
  unfold processPacketByte
  split
  · next packet _ => exact (processPacket_updated { m with packet := [] } packet).active.trans hactive
  · split <;> exact hactive

theorem follows_packetByte (hbios : s.firmware = .bios) (hactive : m.active = true) (b : UInt8) :
    Follows s ⟨m, .packetByte b, (processPacketByte s m b).1⟩ := by
  have hsees : observes s m (.packetByte b) =
      (packetOf m b).map fun packet => (packet.getD 0 0).toNat.testBit 0 := if_pos ⟨hbios, hactive⟩
  unfold processPacketByte
  cases hpacket : packetOf m b with
  | none =>
    rw [hpacket] at hsees
    refine Follows.of_same hsees rfl ?_
    dsimp only
    split <;> rfl
  | some packet =>
    rw [hpacket] at hsees
    exact Follows.of_updated hsees hactive rfl (processPacket_updated { m with packet := [] } packet)

/-- The bytes that `mouse_process_pending` reads are calls of a run. -/
theorem mouseProcessPending_eq_run (hbios : s.firmware = .bios) (hactive : m.active = true) (bytes : List UInt8) :
    (mouseProcessPending s m bytes).1 = run s m ((bytes.take 256).map Call.packetByte) := by
  rw [mouseProcessPending, if_neg (by simp [hactive])]
  generalize bytes.take 256 = bs
  induction bs generalizing m with
  | nil => rfl
  | cons b bs ih =>
    have hstep : step s m (.packetByte b) = (processPacketByte s m b).1 := if_pos ⟨hbios, hactive⟩
    have hstill : (processPacketByte s m b).1.active = true := processPacketByte_active hactive b
    rw [processBytes, List.map_cons, run, List.foldl_cons, hstep]
    exact ih hstill

theorem follows_efiEvent (huefi : s.firmware = .uefi) (index : Nat) (ps : Pointers) :
    Follows s ⟨m, .efiEvent index ps, (mouseHandleEfiEvent s m index ps).1⟩ := by
  have hquiet : ∀ {m' : Mouse}, observes s m (.efiEvent index ps) = none → m' = m →
      Follows s ⟨m, .efiEvent index ps, m'⟩ := fun hsees hsame =>
    Follows.of_same hsees rfl (congrArg Mouse.gesture hsame)
  cases hactive : m.active with
  | false =>
    refine hquiet ?_ ?_
    · simp [observes, hactive]
    · simp [mouseHandleEfiEvent, hactive]
  | true =>
    unfold mouseHandleEfiEvent
    rw [if_neg (by simp [hactive])]
    by_cases hrel : index < m.relPointerCount
    · have hsees : observes s m (.efiEvent index ps) = (ps.rel index).state.map SimplePointerState.leftButton := by
        simp [observes, huefi, hactive, hrel]
      rw [if_pos hrel]
      cases hstate : (ps.rel index).state with
      | none =>
        rw [hstate] at hsees
        exact hquiet hsees rfl
      | some state =>
        rw [hstate] at hsees
        refine Follows.of_updated hsees hactive rfl
          (Updated.of_moved _ state.rightButton ?_ rfl (at_of_place (updateButtons_place _ _ _)))
        split
        · rfl
        · exact moveSimple_gesture s m _ state
    · rw [if_neg hrel]
      by_cases habs : index - m.relPointerCount < m.absPointerCount
      · have hsees : observes s m (.efiEvent index ps) = (ps.abs (index - m.relPointerCount)).state.map
            fun state => state.activeButtons.testBit 0 := by
          simp [observes, huefi, hactive, hrel, habs]
        rw [if_pos habs]
        dsimp only
        cases hstate : (ps.abs (index - m.relPointerCount)).state with
        | none =>
          rw [hstate] at hsees
          exact hquiet hsees rfl
        | some state =>
          rw [hstate] at hsees
          exact Follows.of_updated hsees hactive rfl
            (Updated.of_moved _ (state.activeButtons.testBit 1) (setAbsolutePosition_gesture s m _ state) rfl
              (at_of_place (updateButtons_place _ _ _)))
      · rw [if_neg habs]
        exact hquiet (by simp [observes, huefi, hactive, hrel, habs]) rfl

/-- A call flushes, or it does not. -/
theorem step_follows (s : Setup) (m : Mouse) (c : Call) :
    if flushes s m c = true then Fresh s (step s m c) else Follows s ⟨m, c, step s m c⟩ := by
  have hoff : ∀ {c : Call} {m' : Mouse}, observes s m c = none → Moment.takes ⟨m, c, m'⟩ = false →
      Off m m' → Follows s ⟨m, c, m'⟩ := fun hsees htakes hoff =>
    Follows.of_quiet hsees htakes (fun hactive => absurd (hoff.inactive.symm.trans hactive) (by decide)) hoff.gesture
  cases c with
  | init disabled ps2 efi =>
    have hends := mouseInit_ends s m disabled ps2 efi
    show if (mouseInit s m disabled ps2 efi).2 = true then _ else _
    split
    · next hok => rwa [if_pos hok] at hends
    · next hfailed =>
      rw [if_neg hfailed] at hends
      exact hoff rfl rfl hends
  | deinit => exact hoff rfl rfl (mouseDeinit_off s m)
  | flush =>
    show if m.active = true then _ else _
    split
    · next hactive => exact mouseFlush_fresh hactive
    · next hinactive =>
      refine Follows.of_same rfl rfl ?_
      show (mouseFlush s m).gesture = m.gesture
      rw [mouseFlush, if_pos (by simp [hinactive])]
  | setCanvas width height =>
    have hends := mouseSetCanvas_ends s m width height
    show if (acceptsCanvas s m width height && m.active) = true then _ else _
    split
    · next hflush => rwa [if_pos hflush] at hends
    · next hno =>
      rw [if_neg hno] at hends
      exact Follows.of_same rfl rfl hends
  | getState =>
    refine ⟨fun hactive => hactive, fun hsees => absurd rfl hsees, Or.inl, fun hpress => ?_, fun hclick => ?_⟩
    · refine Or.inl ⟨hpress, ?_, rfl⟩
      rintro ⟨hsees, -⟩
      cases hsees
    · cases hclick
  | packetByte b =>
    show Follows s ⟨m, .packetByte b, step s m (.packetByte b)⟩
    rw [step]
    split
    · next hon => exact follows_packetByte hon.1 hon.2 b
    · next hoff => exact Follows.of_same (if_neg hoff) rfl rfl
  | efiEvent index ps =>
    show Follows s ⟨m, .efiEvent index ps, step s m (.efiEvent index ps)⟩
    rw [step]
    split
    · next huefi => exact follows_efiEvent huefi index ps
    · next hbios => exact Follows.of_same (if_neg fun h => hbios h.1) rfl rfl

/-! ## Whole runs -/

/-- The left button was known to be up before a press: by the flush, on the BIOS side, or seen since. -/
def Free (s : Setup) (flush : Moment) (between : List Moment) : Prop :=
  (s.firmware = .bios ∧ flush.after.leftDown = false) ∨ ∃ up ∈ between, up.sees s = some false

/-- The last flush, and a press edge that no release edge has followed. -/
structure IsPress (s : Setup) (h front : List Moment) (flush : Moment) (between : List Moment) (press : Moment)
    (held : List Moment) : Prop where
  last : Last (fun t => t.flushes s = true) h front flush (between ++ press :: held)
  free : Free s flush between
  presses : press.presses s
  held : ∀ t ∈ held, ¬t.releases s

/-- The last flush, a press edge, the next release edge, and no `mouse_get_state` since. -/
structure IsClick (s : Setup) (h front : List Moment) (flush : Moment) (between : List Moment) (press : Moment)
    (held : List Moment) (release : Moment) (rest : List Moment) : Prop where
  last : Last (fun t => t.flushes s = true) h front flush (between ++ press :: (held ++ release :: rest))
  free : Free s flush between
  presses : press.presses s
  held : ∀ t ∈ held, ¬t.releases s
  releases : release.releases s
  untaken : ∀ t ∈ rest, t.takes = false

/-- A click in `h` with the units of its two edges. -/
def Clicked (s : Setup) (h : List Moment) (pressAt releaseAt : Nat × Nat) : Prop :=
  ∃ front flush between press held release rest, IsClick s h front flush between press held release rest ∧
    pressAt = press.after.at ∧ releaseAt = release.after.at

/-- What the flags say of the calls so far. -/
structure Tracked (s : Setup) (h : List Moment) (m : Mouse) : Prop where
  active : m.active = true → ∃ front flush between, Last (fun t => t.flushes s = true) h front flush between
  released : m.seenReleased = true → ∃ front flush between,
    Last (fun t => t.flushes s = true) h front flush between ∧ Free s flush between
  press : m.pressSeen = true → ∃ front flush between press held,
    IsPress s h front flush between press held ∧ m.gesture.press = press.after.at
  click : m.clickPending = true → Clicked s h m.gesture.clickPress m.gesture.clickCell

theorem Tracked.of_fresh {h : List Moment} {t : Moment} (hflush : t.flushes s = true) (hfresh : Fresh s t.after) :
    Tracked s (h ++ [t]) t.after := by
  have hlast : Last (fun t => t.flushes s = true) (h ++ [t]) h t [] := Last.of_concat hflush
  refine ⟨fun _ => ⟨h, t, [], hlast⟩, fun hreleased => ⟨h, t, [], hlast, Or.inl (hfresh.released hreleased)⟩, ?_, ?_⟩
  · rw [hfresh.press]
    exact fun hpress => nomatch hpress
  · rw [hfresh.click]
    exact fun hclick => nomatch hclick

theorem Tracked.of_follows {h : List Moment} {t : Moment} (htracked : Tracked s h t.before)
    (hflush : ¬t.flushes s = true) (hfollows : Follows s t) : Tracked s (h ++ [t]) t.after := by
  constructor
  · intro hactive
    obtain ⟨front, flush, between, hlast⟩ := htracked.active (hfollows.active hactive)
    exact ⟨front, flush, between ++ [t], hlast.concat hflush⟩
  · intro hreleased
    rcases hfollows.released hreleased with hbefore | hsees
    · obtain ⟨front, flush, between, hlast, hfree⟩ := htracked.released hbefore
      refine ⟨front, flush, between ++ [t], hlast.concat hflush, hfree.imp_right ?_⟩
      rintro ⟨up, hup, hsees⟩
      exact ⟨up, List.mem_append_left _ hup, hsees⟩
    · -- the button is seen to be up just now
      have hactive := hfollows.sees (by simp [hsees])
      obtain ⟨front, flush, between, hlast⟩ := htracked.active hactive
      exact ⟨front, flush, between ++ [t], hlast.concat hflush, Or.inr ⟨t, by simp, hsees⟩⟩
  · intro hpress
    rcases hfollows.press hpress with ⟨hbefore, hno, hat⟩ | ⟨hpresses, hreleased, hat⟩
    · obtain ⟨front, flush, between, press, held, his, hpressAt⟩ := htracked.press hbefore
      refine ⟨front, flush, between, press, held ++ [t], ⟨?_, his.free, his.presses, ?_⟩, hat.trans hpressAt⟩
      · have hlast := his.last.concat hflush
        rwa [List.append_assoc] at hlast
      · exact forall_mem_concat his.held hno
    · obtain ⟨front, flush, between, hlast, hfree⟩ := htracked.released hreleased
      exact ⟨front, flush, between, t, [], ⟨hlast.concat hflush, hfree, hpresses, by simp⟩, hat⟩
  · intro hclick
    rcases hfollows.click hclick with ⟨hbefore, htakes, hpress, hcell⟩ | ⟨hreleases, hpress, hpressAt, hcell⟩
    · obtain ⟨front, flush, between, press, held, release, rest, his, hpressAt, hreleaseAt⟩ := htracked.click hbefore
      refine ⟨front, flush, between, press, held, release, rest ++ [t],
        ⟨?_, his.free, his.presses, his.held, his.releases, forall_mem_concat his.untaken htakes⟩,
        hpress.trans hpressAt, hcell.trans hreleaseAt⟩
      have hlast := his.last.concat hflush
      simpa using hlast
    · obtain ⟨front, flush, between, press, held, his, hat⟩ := htracked.press hpress
      refine ⟨front, flush, between, press, held, t, [],
        ⟨?_, his.free, his.presses, his.held, hreleases, by simp⟩, hpressAt.trans hat, hcell⟩
      have hlast := his.last.concat hflush
      simpa using hlast

theorem run_tracked (s : Setup) (calls : List Call) : Tracked s (history s {} calls) (run s {} calls) := by
  refine run_induction (Tracked s) ?_ (fun h m c htracked => ?_) calls
  · exact ⟨(fun h => nomatch h), (fun h => nomatch h), (fun h => nomatch h), (fun h => nomatch h)⟩
  · have hstep := step_follows s m c
    by_cases hflush : flushes s m c = true
    · rw [if_pos hflush] at hstep
      exact Tracked.of_fresh (t := ⟨m, c, step s m c⟩) hflush hstep
    · rw [if_neg hflush] at hstep
      exact Tracked.of_follows (t := ⟨m, c, step s m c⟩) htracked hflush hstep

/-- The pointer is in the grid, and what `mouse_get_state` returns as a click is one. -/
theorem mouse_clicks (s : Setup) (calls : List Call) :
    InGrid s (run s {} calls) ∧ ∀ state, (mouseGetState (run s {} calls)).1 = state → state.click = true →
      Clicked s (history s {} calls) (state.pressX, state.pressY) (state.clickX, state.clickY) := by
  refine ⟨run_inGrid s calls, ?_⟩
  rintro state rfl hclick
  exact (run_tracked s calls).click hclick

/-! ## Two runs -/

instance (t : Moment) : Decidable (t.presses s) := inferInstanceAs (Decidable (_ ∧ _))

def plainSetup (firmware : Firmware) : Setup :=
  ⟨firmware, 1, 80, 25, by decide, by decide, by decide, by decide, fun _ => 0⟩

def plainPs2 : Ps2Replies := ⟨true, true, true, true, true, false, some 0x08, true⟩

def plainEfi : EfiReplies := ⟨false, 1, 0⟩

/-- A simple pointer that reports its button. -/
def buttonEvent (left : Bool) : Call :=
  .efiEvent 0 ⟨fun _ => ⟨4, 4, 0, some ⟨8, 0, 0, left, false⟩⟩, fun _ => ⟨0, 0, 0, 0, none⟩⟩

/-- The button goes up, down and up. -/
def clickCalls : List Call := [.init false plainPs2 plainEfi, buttonEvent false, buttonEvent true, buttonEvent false]

theorem mouse_clicks_uefi : Clicked (plainSetup .uefi) (history (plainSetup .uefi) {} clickCalls) (41, 12) (42, 12) :=
  (mouse_clicks (plainSetup .uefi) clickCalls).2 ⟨42, 12, 0, true, true, 42, 12, 41, 12⟩ (by decide) rfl

/-- The mouse is flushed, and the next packets are those of a press and its release. -/
def ps2Calls : List Call :=
  [.init false plainPs2 plainEfi, .flush] ++ [0x09, 0, 0, 0x08, 0, 0].map Call.packetByte

/-- There is a click, and the button was not seen to be up before it was pressed. -/
theorem mouseGetState_unseen : (mouseGetState (run (plainSetup .bios) {} ps2Calls)).1.click = true ∧
    ∀ front press rest, history (plainSetup .bios) {} ps2Calls = front ++ press :: rest →
      press.presses (plainSetup .bios) → ∀ t ∈ front, t.sees (plainSetup .bios) ≠ some false := by
  refine ⟨by decide, fun front press rest hsplit hpresses => ?_⟩
  have hall : ∀ i < 8,
      ((history (plainSetup .bios) {} ps2Calls)[i]?.all fun t => decide (t.presses (plainSetup .bios))) = true →
      ∀ t ∈ (history (plainSetup .bios) {} ps2Calls).take i, t.sees (plainSetup .bios) ≠ some false := by
    decide
  have hlt : front.length < 8 := by
    have hlen : (history (plainSetup .bios) {} ps2Calls).length = 8 := by decide
    rw [hsplit, List.length_append, List.length_cons] at hlen
    omega
  have hseen := hall front.length hlt
  rw [hsplit, List.getElem?_append_right (Nat.le_refl _), Nat.sub_self, List.take_left] at hseen
  exact hseen (by simpa using hpresses)

end

end Limine.Drivers
