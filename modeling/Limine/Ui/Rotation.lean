import Limine.Ui.Display

/-!
# A blit is exact

`ui_display_position` takes the physical pixels to the logical ones, one to one, in each of the four
rotations; `ui_display_blit` writes the pixels whose logical position is in the rectangle, and
nothing else of the framebuffer.
-/

namespace Limine.Ui

open Lib

namespace Display

variable {d : Display} {canvas : Canvas}

/-! ## Positions -/

def OnCanvas (d : Display) (p : Int × Int) : Prop := 0 ≤ p.1 ∧ p.1 < d.width ∧ 0 ≤ p.2 ∧ p.2 < d.height

/-- The framebuffer cell that shows a canvas cell. -/
def physicalAt (d : Display) (x y : Int) : Int × Int :=
  match d.rotation with
  | 1 => (d.height - 1 - y, x)
  | 2 => (d.width - 1 - x, d.height - 1 - y)
  | 3 => (y, d.width - 1 - x)
  | _ => (x, y)

theorem physicalAt_onScreen (hd : d.Accepted) {p : Int × Int} (hp : d.OnCanvas p) :
    d.OnScreen (d.physicalAt p.1 p.2).1 (d.physicalAt p.1 p.2).2 := by
  obtain ⟨hx, hxw, hy, hyh⟩ := hp
  have hrot := hd.rotation_le
  rw [hd.width_eq] at hxw
  rw [hd.height_eq] at hyh
  rw [OnScreen, physicalAt, hd.width_eq, hd.height_eq]
  generalize d.rotation = rotation at hrot hxw hyh ⊢
  interval_cases rotation <;> simp at hxw hyh ⊢ <;> omega

theorem logicalAt_physicalAt (hd : d.Accepted) (x y : Int) :
    d.logicalAt (d.physicalAt x y).1 (d.physicalAt x y).2 = (x, y) := by
  have hrot := hd.rotation_le
  rw [logicalAt, physicalAt]
  generalize d.rotation = rotation at hrot ⊢
  interval_cases rotation <;> simp

theorem physicalAt_logicalAt (hd : d.Accepted) (x y : Int) :
    d.physicalAt (d.logicalAt x y).1 (d.logicalAt x y).2 = (x, y) := by
  have hrot := hd.rotation_le
  rw [logicalAt, physicalAt]
  generalize d.rotation = rotation at hrot ⊢
  interval_cases rotation <;> simp

theorem uiDisplayPosition_eq_some {x y : Int} {p : Int × Int} :
    d.uiDisplayPosition x y = some p ↔ d.OnScreen x y ∧ d.logicalAt x y = p := by
  rw [uiDisplayPosition]
  split
  · next hon => simp [hon]
  · next hon => simp [hon]

/-- **Each logical pixel** is the position of just one physical pixel. -/
theorem uiDisplayPosition_bijective (hd : d.Accepted) {p : Int × Int} (hp : d.OnCanvas p) :
    ∃! q : Int × Int, d.uiDisplayPosition q.1 q.2 = some p := by
  refine ⟨d.physicalAt p.1 p.2, ?_, fun q hq => ?_⟩
  · exact uiDisplayPosition_eq_some.mpr ⟨physicalAt_onScreen hd hp, logicalAt_physicalAt hd p.1 p.2⟩
  · obtain ⟨-, hlogical⟩ := uiDisplayPosition_eq_some.mp hq
    rw [← hlogical]
    exact (physicalAt_logicalAt hd q.1 q.2).symm

/-! ## What a blit leaves alone -/

/-- The memories have the same but in the cells of the framebuffer with `p`. -/
def KeptBut (d : Display) (p : Int → Int → Prop) (screen screen' : Int → UInt32) : Prop :=
  ∀ a, (∀ x y, d.OnScreen x y → p x y → a ≠ y * d.stride + x) → screen' a = screen a

theorem KeptBut.refl (p : Int → Int → Prop) (screen : Int → UInt32) : d.KeptBut p screen screen :=
  fun _ _ => rfl

theorem KeptBut.trans {p : Int → Int → Prop} {s₁ s₂ s₃ : Int → UInt32} (h₁₂ : d.KeptBut p s₁ s₂)
    (h₂₃ : d.KeptBut p s₂ s₃) : d.KeptBut p s₁ s₃ :=
  fun a ha => (h₂₃ a ha).trans (h₁₂ a ha)

theorem KeptBut.mono {p q : Int → Int → Prop} {s₁ s₂ : Int → UInt32} (h : d.KeptBut p s₁ s₂)
    (hpq : ∀ x y, d.OnScreen x y → p x y → q x y) : d.KeptBut q s₁ s₂ :=
  fun a ha => h a fun x y hon hp => ha x y hon (hpq x y hon hp)

theorem blitPixel_kept {px py : Int} (hon : d.OnScreen px py) {s s' : Int × (Int → UInt32)}
    (h : d.blitPixel canvas py px s = .ok s') : d.KeptBut (fun x y => x = px ∧ y = py) s.2 s'.2 := by
  rw [blitPixel] at h
  obtain ⟨value, -, h⟩ := except_bind_eq_ok.mp h
  obtain ⟨screen, hwrite, h⟩ := except_bind_eq_ok.mp h
  obtain rfl := Except.ok.inj h
  rw [writeAt] at hwrite
  split at hwrite
  · obtain rfl := Except.ok.inj hwrite
    intro a ha
    exact Function.update_of_ne (ha px py hon ⟨rfl, rfl⟩) _ _
  · cases hwrite

theorem blitRow_kept {left right py : Int} (hleft : 0 ≤ left) (hright : right ≤ d.fb.framebufferWidth)
    (hpy : 0 ≤ py) (hpyh : py < d.fb.framebufferHeight) {screen screen' : Int → UInt32}
    (h : d.blitRow canvas left right py screen = .ok screen') :
    d.KeptBut (fun x y => left ≤ x ∧ x < right ∧ y = py) screen screen' := by
  rw [blitRow] at h
  split at h
  · cases h
  · obtain ⟨s, hrow, h⟩ := except_bind_eq_ok.mp h
    obtain rfl := Except.ok.inj h
    refine forRange_keeps_of_ok (fun s => d.KeptBut (fun x y => left ≤ x ∧ x < right ∧ y = py) screen s.2)
      (fun px s₁ s₂ hlo hhi hkept hstep => hkept.trans ?_) (KeptBut.refl _ screen) hrow
    have hon : d.OnScreen px py := ⟨by omega, by omega, hpy, hpyh⟩
    exact (blitPixel_kept hon hstep).mono fun x y _ hxy => ⟨by omega, by omega, hxy.2⟩

/-- A blit changes cells that show a canvas cell of the rectangle only. -/
theorem uiDisplayBlit_kept (hd : d.Accepted) (hc : d.FitsCanvas canvas) (r : Rect) {screen screen' : Int → UInt32}
    (h : d.uiDisplayBlit canvas r.x r.y r.width r.height screen = .ok screen') :
    d.KeptBut (fun x y => r.Contains (d.logicalAt x y).1 (d.logicalAt x y).2) screen screen' := by
  rw [uiDisplayBlit, hc.width_eq, hc.height_eq] at h
  split at h
  · obtain rfl := Except.ok.inj h
    exact KeptBut.refl _ screen
  · extract_lets x0 y0 x1 y1 box at h
    have hx0 : x0 = max r.x 0 := by grind
    have hy0 : y0 = max r.y 0 := by grind
    have hx1 : x1 = min (r.x + r.width) d.width := by grind
    have hy1 : y1 = min (r.y + r.height) d.height := by grind
    clear_value x0 y0 x1 y1
    split at h
    · obtain rfl := Except.ok.inj h
      exact KeptBut.refl _ screen
    · have hbox : 0 ≤ box.left ∧ box.left < box.right ∧ box.right ≤ d.fb.framebufferWidth ∧
          0 ≤ box.top ∧ box.top < box.bottom ∧ box.bottom ≤ d.fb.framebufferHeight :=
        turnedBox_bounds hd hc (by omega) (by omega) (by omega) (by omega) (by omega) (by omega)
      have hturned := turnedBox_iff hd hc x0 y0 x1 y1
      change ∀ x y, (box.left ≤ x ∧ x < box.right ∧ box.top ≤ y ∧ y < box.bottom) ↔ _ at hturned
      clear_value box
      obtain ⟨hleft, -, hright, htop, -, hbottom⟩ := hbox
      refine forRange_keeps_of_ok
        (d.KeptBut (fun x y => r.Contains (d.logicalAt x y).1 (d.logicalAt x y).2) screen)
        (fun py s₁ s₂ hlo hhi hkept hrow => hkept.trans ?_) (KeptBut.refl _ screen) h
      refine (blitRow_kept hleft hright (by omega) (by omega) hrow).mono fun x y _ hxy => ?_
      have hin := (hturned x y).mp (by omega)
      rw [Rect.Contains]
      omega

/-! ## Colours -/

/-- The framebuffer has red where the canvas has blue. -/
def swapped (value : UInt32) : UInt32 :=
  UInt32.ofNat (value.toNat % 256 * 65536 + value.toNat / 256 % 256 * 256 + value.toNat / 65536 % 256)

/-- Bytes put together from disjoint bits. -/
theorem or_bytes {a b c : Nat} (hb : b < 256) (hc : c < 256) :
    b * 256 ||| c ||| a * 65536 = a * 65536 + b * 256 + c := by
  have hlow : 2 ^ 8 * b + c = 2 ^ 8 * b ||| c := Nat.two_pow_add_eq_or_of_lt hc b
  have hall : 2 ^ 16 * a + (2 ^ 8 * b + c) = 2 ^ 16 * a ||| (2 ^ 8 * b + c) :=
    Nat.two_pow_add_eq_or_of_lt (by omega) a
  calc b * 256 ||| c ||| a * 65536 = 2 ^ 16 * a ||| (2 ^ 8 * b ||| c) := by
        rw [Nat.or_comm, Nat.mul_comm a, Nat.mul_comm b]
        rfl
    _ = a * 65536 + b * 256 + c := by
        rw [← hlow, ← hall]
        omega

theorem and_green (v : Nat) : v &&& 0xff00 = v / 256 % 256 * 256 := by
  have hshift : v &&& 0xff00 = ((v >>> 8) &&& 0xff) <<< 8 := by
    apply Nat.eq_of_testBit_eq
    intro i
    rw [Nat.testBit_and, Nat.testBit_shiftLeft, Nat.testBit_and, Nat.testBit_shiftRight,
      show 0xff00 = 0xff <<< 8 from rfl, Nat.testBit_shiftLeft]
    by_cases hi : i ≥ 8
    · simp [hi]
    · simp [hi]
  rw [hshift, Nat.shiftLeft_eq, Nat.shiftRight_eq_div_pow, show 0xff = 2 ^ 8 - 1 from rfl,
    Nat.and_two_pow_sub_one_eq_mod]

theorem toFb_eq (d : Display) (value : UInt32) :
    d.toFb value = if d.fb.redMaskShift = 0 then swapped value else value := by
  rw [toFb]
  split
  · have hred : (value.toNat >>> 16) &&& 255 = value.toNat / 65536 % 256 := by
      rw [Nat.shiftRight_eq_div_pow]
      exact Nat.and_two_pow_sub_one_eq_mod _ 8
    have hblue : value.toNat &&& 255 = value.toNat % 256 := Nat.and_two_pow_sub_one_eq_mod _ 8
    have hswap : ((value &&& (0xff00 : UInt32)) ||| ((value >>> 16) &&& (0xff : UInt32)) |||
        ((value &&& (0xff : UInt32)) <<< 16)).toNat =
        value.toNat % 256 * 65536 + value.toNat / 256 % 256 * 256 + value.toNat / 65536 % 256 := by
      simp only [UInt32.toNat_or, UInt32.toNat_and, UInt32.toNat_shiftLeft, UInt32.toNat_shiftRight, UInt32.reduceToNat]
      have hsmall : value.toNat % 256 * 65536 < 2 ^ 32 := by omega
      show (value.toNat &&& 0xff00) ||| ((value.toNat >>> 16) &&& 255) |||
        ((value.toNat &&& 255) <<< 16) % 2 ^ 32 = _
      rw [and_green, hred, hblue, Nat.shiftLeft_eq, Nat.mod_eq_of_lt hsmall]
      exact or_bytes (Nat.mod_lt _ (by decide)) (Nat.mod_lt _ (by decide))
    rw [swapped, ← hswap, UInt32.ofNat_toNat]
  · rfl

end Display

/-- **A blit is exact**: the framebuffer pixels whose position is in the rectangle, as far as that is on
the canvas, have the canvas pixel of that position; the rest of the framebuffer is as before.  The
positions are one to one. -/
theorem uiDisplayBlit_exact {fb : FbInfo} {rotation : Nat} {d : Display} (h : uiDisplayInit fb rotation = some d)
    {canvas : Canvas} (hc : canvas.width = d.width ∧ canvas.height = d.height) (r : Rect) (screen : Int → UInt32) :
    (∃ screen', d.uiDisplayBlit canvas r.x r.y r.width r.height screen = .ok screen' ∧
      (∀ x y p, d.uiDisplayPosition x y = some p → d.OnCanvas p ∧
        (r.Contains p.1 p.2 → screen' (y * d.stride + x) =
          if fb.redMaskShift = 0 then Display.swapped (canvas.pixels (p.2 * canvas.width + p.1))
          else canvas.pixels (p.2 * canvas.width + p.1))) ∧
      ∀ a, (∀ x y p, d.uiDisplayPosition x y = some p → r.Contains p.1 p.2 → a ≠ y * d.stride + x) →
        screen' a = screen a) ∧
    (∀ x y : Int, 0 ≤ x → x < fb.framebufferWidth → 0 ≤ y → y < fb.framebufferHeight →
      ∃ p, d.uiDisplayPosition x y = some p ∧ d.OnCanvas p) ∧
    ∀ p, d.OnCanvas p → ∃! q : Int × Int, d.uiDisplayPosition q.1 q.2 = some p := by
  have hd := uiDisplayInit_accepted h
  have hfits : d.FitsCanvas canvas := ⟨hc.1, hc.2⟩
  have hfb : d.fb = fb := by
    rw [uiDisplayInit] at h
    split at h
    · cases h
    · rw [← Option.some.inj h]
  refine ⟨?_, fun x y hx hxw hy hyh => ?_, fun p hp => Display.uiDisplayPosition_bijective hd hp⟩
  · have hends := Display.uiDisplayBlit_ends hd hfits r screen
    cases hblit : d.uiDisplayBlit canvas r.x r.y r.width r.height screen with
    | error e =>
      rw [hblit] at hends
      exact hends.elim
    | ok screen' =>
      rw [hblit] at hends
      have hkept := Display.uiDisplayBlit_kept hd hfits r hblit
      refine ⟨screen', rfl, fun x y p hp => ?_, fun a ha => hkept a fun x y hon hin => ?_⟩
      · obtain ⟨hon, rfl⟩ := Display.uiDisplayPosition_eq_some.mp hp
        refine ⟨Display.logicalAt_bounds hd hon, fun hin => ?_⟩
        rw [(hends x y hon).1 hin, Display.shownAt, Display.toFb_eq, hfb, Display.sourceAt, hc.1]
      · exact ha x y _ (Display.uiDisplayPosition_eq_some.mpr ⟨hon, rfl⟩) hin
  · have hon : d.OnScreen x y := by
      rw [← hfb] at hxw hyh
      exact ⟨hx, hxw, hy, hyh⟩
    exact ⟨_, Display.uiDisplayPosition_eq_some.mpr ⟨hon, rfl⟩, Display.logicalAt_bounds hd hon⟩

/-- A quarter turn of a framebuffer of 600 by 800 with red in its lowest byte. -/
theorem uiDisplayBlit_exact_quarter :
    ∃ screen', Display.uiDisplayBlit ⟨⟨2400, 600, 800, 32, 8, 0, 8, 8, 8, 16, 0x80000000⟩, 1, 800, 600⟩
        ⟨fun _ => 0x112233, 800, 600, none⟩ (-1) 599 2 7 (fun _ => 0) = .ok screen' ∧ screen' 0 = 0x332211 := by
  have h := (uiDisplayBlit_exact
    (show uiDisplayInit ⟨2400, 600, 800, 32, 8, 0, 8, 8, 8, 16, 0x80000000⟩ 1 =
      some ⟨⟨2400, 600, 800, 32, 8, 0, 8, 8, 8, 16, 0x80000000⟩, 1, 800, 600⟩ by decide)
    (show (⟨fun _ => 0x112233, 800, 600, none⟩ : Canvas).width = 800 ∧ _ = 600 from ⟨rfl, rfl⟩)
    ⟨-1, 599, 2, 7⟩ fun _ => 0).1
  obtain ⟨screen', hblit, hshown, -⟩ := h
  exact ⟨screen', hblit, (hshown 0 0 (0, 599) (by decide)).2 (by decide)⟩

end Limine.Ui
