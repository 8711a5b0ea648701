import Limine.Limlz.Bcj
import Limine.Limlz.Compress

/-!
# The x86 filter and its inverse

The decoder meets the opcodes where the encoder did.  It judges an operand by the byte four after
the opcode, which a later opcode's operand may have changed since the encoder judged it; the history
lets that happen only where neither value of the byte is that of a highest one.
-/

namespace Limine.Limlz

open Lib

/-! ## One operand -/

theorem bcjEncodeAdjust_step {g : Nat} (hg : g = 1 ∨ g = 2 ∨ g = 3) (pos fuel value : Nat) :
    bcjEncodeAdjust pos (2 ^ g) (24 - 8 * g) (fuel + 1) value =
      if IsSign (byteOf ((value + (pos + 5)) % 2 ^ 32) (24 - 8 * g)) then
        bcjEncodeAdjust pos (2 ^ g) (24 - 8 * g) fuel
          ((value + (pos + 5)) % 2 ^ 32 ^^^ (2 ^ (32 - 8 * g) - 1))
      else some ((value + (pos + 5)) % 2 ^ 32) := by
  have hmask : 2 ^ 32 - 1 - (2 ^ 32 - 256) * 2 ^ (24 - 8 * g) % 2 ^ 32 = 2 ^ (32 - 8 * g) - 1 := by
    rcases hg with rfl | rfl | rfl <;> rfl
  have hpos := Nat.two_pow_pos g
  rw [bcjEncodeAdjust, hmask]
  generalize (value + (pos + 5)) % 2 ^ 32 = sum
  have hbyte : (2 ^ g = 0 ∨ (sum / 2 ^ (24 - 8 * g) % 256 ≠ 0 ∧
      sum / 2 ^ (24 - 8 * g) % 256 ≠ 255)) ↔ ¬IsSign (byteOf sum (24 - 8 * g)) := by
    unfold IsSign byteOf
    omega
  by_cases h : IsSign (byteOf sum (24 - 8 * g))
  · rw [if_neg (fun h' => hbyte.mp h' h), if_pos h]
  · rw [if_pos (hbyte.mpr h), if_neg h]

theorem bcjSign_cases (x : Nat) :
    x % 2 ^ 25 < 2 ^ 24 ∧ bcjSign x = x % 2 ^ 25 ∨
      2 ^ 24 ≤ x % 2 ^ 25 ∧ bcjSign x = x % 2 ^ 25 + (2 ^ 32 - 2 ^ 25) := by
  by_cases h : x % 2 ^ 25 < 2 ^ 24
  · exact Or.inl ⟨h, if_pos h⟩
  · exact Or.inr ⟨Nat.not_lt.mp h, if_neg h⟩

theorem bcjSign_mod (x : Nat) : bcjSign x % 2 ^ 25 = x % 2 ^ 25 := by
  have := bcjSign_cases x
  omega

theorem bcjSign_lt (x : Nat) : bcjSign x < 2 ^ 32 := by
  have := bcjSign_cases x
  omega

/-- A value with a highest byte of an operand is what its low bits extend to. -/
theorem bcjSign_eq {x v : Nat} (hv : v < 2 ^ 32) (hsign : IsSign (byteOf v 24))
    (hmod : x % 2 ^ 25 = v % 2 ^ 25) : bcjSign x = v := by
  have := bcjSign_cases x
  unfold IsSign byteOf at hsign
  omega

theorem isSign_bcjSign (x : Nat) : IsSign (byteOf (bcjSign x) 24) := by
  have := bcjSign_cases x
  unfold IsSign byteOf
  omega

/-- The bytes below the highest are kept. -/
theorem byteOf_of_mod {x y g : Nat} (hg : g = 1 ∨ g = 2 ∨ g = 3)
    (hmod : x % 2 ^ 25 = y % 2 ^ 25) : byteOf x (24 - 8 * g) = byteOf y (24 - 8 * g) := by
  unfold byteOf
  rcases hg with rfl | rfl | rfl
  · simp only [Nat.reduceMul, Nat.reduceSub]
    omega
  · simp only [Nat.reduceMul, Nat.reduceSub]
    omega
  · simp only [Nat.reduceMul, Nat.reduceSub]
    omega

/-- Complementing turns a `00` into an `ff` and back. -/
theorem isSign_xor_mask {a g : Nat} (hg : g = 1 ∨ g = 2 ∨ g = 3) :
    IsSign (byteOf (a ^^^ (2 ^ (32 - 8 * g) - 1)) (24 - 8 * g)) ↔
      IsSign (byteOf a (24 - 8 * g)) := by
  have hx := xor_mask_mod a (32 - 8 * g)
  generalize a ^^^ (2 ^ (32 - 8 * g) - 1) = x at *
  unfold IsSign byteOf
  rcases hg with rfl | rfl | rfl
  · simp only [Nat.reduceMul, Nat.reduceSub] at *
    omega
  · simp only [Nat.reduceMul, Nat.reduceSub] at *
    omega
  · simp only [Nat.reduceMul, Nat.reduceSub] at *
    omega

theorem xor_mask_congr {x y g : Nat} (hmod : x % 2 ^ 25 = y % 2 ^ 25) :
    (x ^^^ (2 ^ (32 - 8 * g) - 1)) % 2 ^ 25 = (y ^^^ (2 ^ (32 - 8 * g) - 1)) % 2 ^ 25 := by
  rw [Nat.xor_mod_two_pow, hmod, ← Nat.xor_mod_two_pow]

/-- The decoder undoes the encoder's turns of the loop one by one; the bits that are stored are
enough. -/
theorem bcjAdjust_encode {p g v : Nat} (hg : g = 1 ∨ g = 2 ∨ g = 3) (hp : p + 5 < 2 ^ 32)
    (hv : v < 2 ^ 32) (hsign : IsSign (byteOf v 24)) (hbyte : ¬IsSign (byteOf v (24 - 8 * g))) :
    ∃ e, bcjEncodeAdjust p (2 ^ g) (24 - 8 * g) 2 v = some e ∧
      ¬IsSign (byteOf e (24 - 8 * g)) ∧
      ∃ r, bcjAdjust (p + 5) (2 ^ g) 2 (bcjSign e) = .ok r ∧ bcjSign r = v := by
  have hundo : ∀ a b : Nat, b % 2 ^ 25 = (a + (p + 5)) % 2 ^ 32 % 2 ^ 25 →
      sub32 (bcjSign b) (p + 5) % 2 ^ 25 = a % 2 ^ 25 ∧
        sub32 b (p + 5) % 2 ^ 25 = a % 2 ^ 25 := by
    intro a b h
    have hb := bcjSign_mod b
    unfold sub32
    constructor
    · omega
    · omega
  rw [bcjEncodeAdjust_step hg]
  split
  · next hfirst =>
    -- the second turn starts from the complement of the first sum
    generalize hsum : (v + (p + 5)) % 2 ^ 32 = sum at hfirst
    have hsecond : ¬IsSign (byteOf (((sum ^^^ (2 ^ (32 - 8 * g) - 1)) + (p + 5)) % 2 ^ 32)
        (24 - 8 * g)) := by
      have hx := xor_mask_mod sum (32 - 8 * g)
      generalize sum ^^^ (2 ^ (32 - 8 * g) - 1) = x at hx ⊢
      unfold IsSign byteOf at hbyte ⊢
      rcases hg with rfl | rfl | rfl
      · simp only [Nat.reduceMul, Nat.reduceSub] at *
        omega
      · simp only [Nat.reduceMul, Nat.reduceSub] at *
        omega
      · simp only [Nat.reduceMul, Nat.reduceSub] at *
        omega
    rw [bcjEncodeAdjust_step hg, if_neg hsecond]
    refine ⟨_, rfl, hsecond, ?_⟩
    have hx := (isSign_xor_mask (a := sum) hg).mpr hfirst
    have hback : sum ^^^ (2 ^ (32 - 8 * g) - 1) ^^^ (2 ^ (32 - 8 * g) - 1) = sum := by
      rw [Nat.xor_assoc, Nat.xor_self, Nat.xor_zero]
    generalize sum ^^^ (2 ^ (32 - 8 * g) - 1) = x at hx hback ⊢
    have h1 := (hundo x _ rfl).1
    have hd₁ : IsSign (byteOf (sub32 (bcjSign ((x + (p + 5)) % 2 ^ 32)) (p + 5)) (24 - 8 * g)) := by
      rwa [byteOf_of_mod hg h1]
    rw [bcjAdjust_step hg, if_pos hd₁, bcjAdjust_step hg]
    have h2 := xor_mask_congr (g := g) h1
    rw [hback, ← hsum] at h2
    have h3 := (hundo v _ h2).2
    have hd₂ : ¬IsSign (byteOf (sub32 (sub32 (bcjSign ((x + (p + 5)) % 2 ^ 32)) (p + 5) ^^^
        (2 ^ (32 - 8 * g) - 1)) (p + 5)) (24 - 8 * g)) := by
      rw [byteOf_of_mod hg h3]
      exact hbyte
    rw [if_neg hd₂]
    exact ⟨_, rfl, bcjSign_eq hv hsign h3⟩
  · next hfirst =>
    have h1 := (hundo v _ rfl).1
    have hd : ¬IsSign (byteOf (sub32 (bcjSign ((v + (p + 5)) % 2 ^ 32)) (p + 5)) (24 - 8 * g)) := by
      rw [byteOf_of_mod hg h1]
      exact hbyte
    refine ⟨_, rfl, hfirst, ?_⟩
    rw [bcjAdjust_step hg, if_neg hd]
    exact ⟨_, rfl, bcjSign_eq hv hsign h1⟩

/-- An operand that no other overlaps is only moved. -/
theorem bcjAdjust_encode_zero {p v : Nat} (hp : p + 5 < 2 ^ 32) (hv : v < 2 ^ 32)
    (hsign : IsSign (byteOf v 24)) (shift : Nat) :
    ∃ e, bcjEncodeAdjust p 0 shift 2 v = some e ∧
      ∃ r, bcjAdjust (p + 5) 0 2 (bcjSign e) = .ok r ∧ bcjSign r = v := by
  have hencode : bcjEncodeAdjust p 0 shift 2 v = some ((v + (p + 5)) % 2 ^ 32) := by
    rw [bcjEncodeAdjust, if_pos (Or.inl rfl)]
  refine ⟨_, hencode, _, bcjAdjust_zero _ _ _, bcjSign_eq hv hsign ?_⟩
  have hb := bcjSign_mod ((v + (p + 5)) % 2 ^ 32)
  unfold sub32
  omega

/-! ## A run of the encoder -/

theorem bcjEncodeHistory_eq (history : Nat) : bcjEncodeHistory history = bcjHistory history := by
  have hle : history &&& 0x77 ≤ 0x77 := Nat.and_le_right
  show (history &&& 0x77) * 2 = (history &&& 0x77) * 2 % 2 ^ 8
  omega

theorem write32_bcjSign (data : List UInt8) (pos value : Nat) :
    bcjEncodeStore data pos value = write32 data (pos + 1) (bcjSign value) := by
  have hcases := bcjSign_cases value
  have hmod := bcjSign_mod value
  have hbyte : ∀ a b : Nat, a % 2 ^ 8 = b % 2 ^ 8 → UInt8.ofNat a = UInt8.ofNat b := by
    intro a b h
    apply UInt8.toNat_inj.mp
    rw [UInt8.toNat_ofNat', UInt8.toNat_ofNat']
    exact h
  have h0 := hbyte (bcjSign value) value (by omega)
  have h1 := hbyte (bcjSign value / 2 ^ 8) (value / 2 ^ 8) (by omega)
  have h2 := hbyte (bcjSign value / 2 ^ 16) (value / 2 ^ 16) (by omega)
  have h3 := hbyte (bcjSign value / 2 ^ 24) (2 ^ 32 - value / 2 ^ 24 % 2) (by omega)
  unfold bcjEncodeStore write32
  dsimp only
  rw [h0, h1, h2, h3, List.set_comm _ _ (by omega : pos + 4 ≠ pos + 1),
    List.set_comm _ _ (by omega : pos + 4 ≠ pos + 2),
    List.set_comm _ _ (by omega : pos + 4 ≠ pos + 3)]

/-- What the encoder shifts the history to at an opcode. -/
def gapHistory (pos previous history : Nat) : Nat := bcjCheck (sub32 pos previous) history

/-- An operand that is left alone. -/
def Skipped (data : List UInt8) (pos history : Nat) : Prop :=
  ¬IsSign (byteAt data (pos + 4)).toNat ∨ BCJ_MAX_HISTORY < history ∨ history = BCJ_INVALID_HISTORY

instance (data : List UInt8) (pos history : Nat) : Decidable (Skipped data pos history) :=
  inferInstanceAs (Decidable (_ ∨ _))

/-- The history an operand that is left alone leaves. -/
def skipHistory (data : List UInt8) (pos history : Nat) : Nat :=
  if IsSign (byteAt data (pos + 4)).toNat then history ||| 1 ||| BCJ_SIGN_HISTORY else history ||| 1

/-- The runs of the loop of `bcj_encode`, turn by turn. -/
inductive EncodeRun : List UInt8 → Nat → Nat → Nat → List UInt8 → Prop
  | stop {data : List UInt8} {pos previous history : Nat} (h : data.length ≤ pos + 4) :
      EncodeRun data pos previous history data
  | scan {data out : List UInt8} {pos previous history : Nat} (hmore : pos + 4 < data.length)
      (hop : ¬IsOpcode (byteAt data pos)) (h : EncodeRun data (pos + 1) previous history out) :
      EncodeRun data pos previous history out
  | skip {data out : List UInt8} {pos previous history : Nat} (hmore : pos + 4 < data.length)
      (hop : IsOpcode (byteAt data pos))
      (hskip : Skipped data pos (gapHistory pos previous history))
      (h : EncodeRun data (pos + 1) pos (skipHistory data pos (gapHistory pos previous history))
        out) :
      EncodeRun data pos previous history out
  | adjust {data out : List UInt8} {pos previous history value : Nat}
      (hmore : pos + 4 < data.length) (hop : IsOpcode (byteAt data pos))
      (hskip : ¬Skipped data pos (gapHistory pos previous history))
      (hvalue : bcjEncodeAdjust pos (gapHistory pos previous history)
        (if gapHistory pos previous history ≠ 0 then
          24 - Nat.log2 (gapHistory pos previous history) * 8 else 0) 2
        (read32 data (pos + 1)) = some value)
      (h : EncodeRun (write32 data (pos + 1) (bcjSign value)) (pos + 5) pos 0 out) :
      EncodeRun data pos previous history out

theorem bcjEncodeLoop_stop {data : List UInt8} {pos previous history : Nat} (fuel : Nat)
    (h : data.length ≤ pos + 4) :
    bcjEncodeLoop (fuel + 1) data pos previous history = some data := by
  rw [bcjEncodeLoop, if_pos (by omega)]

/-- One turn of the loop. -/
theorem bcjEncodeLoop_step {data : List UInt8} {pos previous history : Nat} (fuel : Nat)
    (hmore : pos + 4 < data.length) :
    bcjEncodeLoop (fuel + 1) data pos previous history =
      if IsOpcode (byteAt data pos) then
        if Skipped data pos (gapHistory pos previous history) then
          bcjEncodeLoop fuel data (pos + 1) pos
            (skipHistory data pos (gapHistory pos previous history))
        else
          match bcjEncodeAdjust pos (gapHistory pos previous history)
            (if gapHistory pos previous history ≠ 0 then
              24 - Nat.log2 (gapHistory pos previous history) * 8 else 0) 2
            (read32 data (pos + 1)) with
          | none => none
          | some value =>
            bcjEncodeLoop fuel (write32 data (pos + 1) (bcjSign value)) (pos + 5) pos 0
      else bcjEncodeLoop fuel data (pos + 1) previous history := by
  have hhistory : (if 4 ≤ sub32 pos previous then 0
      else bcjEncodeHistory^[sub32 pos previous] history) = gapHistory pos previous history := by
    rw [funext bcjEncodeHistory_eq]
    rfl
  have hsign : ∀ b : UInt8, (b = 0 ∨ b = 255) ↔ IsSign b.toNat := by
    intro b
    unfold IsSign
    rw [← UInt8.toNat_inj, ← UInt8.toNat_inj]
    rfl
  rw [bcjEncodeLoop, if_neg (by omega)]
  by_cases hop : IsOpcode (byteAt data pos)
  · rw [if_pos hop, if_neg (fun h => h.1 (hop.resolve_right h.2))]
    dsimp only
    rw [hhistory]
    generalize gapHistory pos previous history = c
    by_cases hskip : Skipped data pos c
    · rw [if_pos hskip, if_neg]
      · unfold skipHistory
        simp only [hsign]
        rfl
      · rw [hsign]
        rintro ⟨h1, h2, h3⟩
        rcases hskip with h | h | h
        · exact h h1
        · exact absurd h2 (Nat.not_le.mpr h)
        · exact h3 h
    · rw [if_neg hskip, if_pos]
      · cases bcjEncodeAdjust pos c (if c ≠ 0 then 24 - Nat.log2 c * 8 else 0) 2
          (read32 data (pos + 1)) with
        | none => rfl
        | some value =>
          show bcjEncodeLoop fuel (bcjEncodeStore data pos value) _ _ _ = _
          rw [write32_bcjSign]
      · rw [hsign]
        unfold Skipped at hskip
        rw [not_or, not_or, not_not] at hskip
        exact ⟨hskip.1, Nat.not_lt.mp hskip.2.1, hskip.2.2⟩
  · rw [if_neg hop, if_pos (not_or.mp hop)]

/-- What the history of the encoder says, as in the decoder. -/
def EncodeHistory (data : List UInt8) (pos previous history : Nat) : Prop :=
  history < 256 ∧ (history = 0 ∨ previous < pos ∧ history % 2 = 1 ∧
    (history.testBit 4 = false → ¬IsSign (byteAt data (previous + 4)).toNat))

variable {data out : List UInt8} {pos previous history value : Nat}

theorem gapHistory_lt (h : history < 256) (pos previous : Nat) :
    gapHistory pos previous history < 256 := bcjCheck_lt h _

theorem EncodeHistory.scan (h : EncodeHistory data pos previous history) :
    EncodeHistory data (pos + 1) previous history := by
  obtain ⟨hlt, h0 | ⟨hprev, hrest⟩⟩ := h
  · exact ⟨hlt, Or.inl h0⟩
  · exact ⟨hlt, Or.inr ⟨Nat.lt_succ_of_lt hprev, hrest⟩⟩

theorem encodeHistory_skip (data : List UInt8) (pos : Nat) (h : history < 256) :
    EncodeHistory data (pos + 1) pos (skipHistory data pos history) := by
  have h1 : history ||| 1 < 2 ^ 8 := Nat.or_lt_two_pow h (by decide)
  unfold skipHistory
  split
  · have hbit : (history ||| 1 ||| BCJ_SIGN_HISTORY).testBit 4 = true := by
      rw [Nat.testBit_or, show BCJ_SIGN_HISTORY.testBit 4 = true by decide, Bool.or_true]
    refine ⟨Nat.or_lt_two_pow (n := 8) h1 (by decide), Or.inr ⟨Nat.lt_succ_self _, ?_, fun h => ?_⟩⟩
    · simp [Nat.or_mod_two_eq_one]
    · rw [hbit] at h
      cases h
  · next hsign =>
    refine ⟨h1, Or.inr ⟨Nat.lt_succ_self _, ?_, fun _ => hsign⟩⟩
    simp [Nat.or_mod_two_eq_one]

theorem encodeHistory_zero (data : List UInt8) (pos previous : Nat) :
    EncodeHistory data pos previous 0 := ⟨by decide, Or.inl rfl⟩

/-- An operand is adjusted when no other overlaps it, or one that has no highest byte. -/
theorem EncodeHistory.check (h : EncodeHistory data pos previous history) (hpos : pos < 2 ^ 32)
    (hskip : ¬Skipped data pos (gapHistory pos previous history)) :
    gapHistory pos previous history = 0 ∨ previous < pos ∧ pos - previous < 4 ∧
      gapHistory pos previous history = 2 ^ (pos - previous) ∧
      ¬IsSign (byteAt data (previous + 4)).toNat := by
  obtain ⟨hlt, rfl | ⟨hprev, hodd, hsign⟩⟩ := h
  · exact Or.inl (bcjCheck_zero _)
  unfold Skipped at hskip
  unfold gapHistory at *
  rw [sub32_of_le (Nat.le_of_lt hprev) hpos] at hskip ⊢
  rw [not_or, not_or] at hskip
  rcases bcjCheck_allowed hlt hodd (by omega) (Nat.not_lt.mp hskip.2.1) hskip.2.2 with
    h0 | ⟨h4, hpow, hbit⟩
  · exact Or.inl h0
  · exact Or.inr ⟨hprev, h4, hpow, hsign hbit⟩

/-- What is stored for an operand decodes to it, and keeps a shared byte from being a highest
one. -/
theorem EncodeHistory.adjust (h : EncodeHistory data pos previous history)
    (hpos : pos + 5 < 2 ^ 32)
    (hskip : ¬Skipped data pos (gapHistory pos previous history)) :
    ∃ e, bcjEncodeAdjust pos (gapHistory pos previous history)
        (if gapHistory pos previous history ≠ 0 then
          24 - Nat.log2 (gapHistory pos previous history) * 8 else 0) 2
        (read32 data (pos + 1)) = some e ∧
      (gapHistory pos previous history ≠ 0 → ¬IsSign (byteOf e (24 - 8 * (pos - previous)))) ∧
      ∃ r, bcjAdjust (pos + 5) (gapHistory pos previous history) 2 (bcjSign e) = .ok r ∧
        bcjSign r = read32 data (pos + 1) := by
  have hlt := read32_lt data (pos + 1)
  have hsign : IsSign (byteOf (read32 data (pos + 1)) 24) := by
    unfold Skipped at hskip
    rw [not_or, not_not] at hskip
    rw [show 24 = 8 * 3 from rfl, byteOf_read32 _ _ (by decide)]
    exact hskip.1
  rcases h.check (by omega) hskip with h0 | ⟨hprev, h4, hpow, hshared⟩
  · rw [h0]
    obtain ⟨e, he, hr⟩ := bcjAdjust_encode_zero hpos hlt hsign 0
    exact ⟨e, he, fun hne => absurd rfl hne, hr⟩
  · have hg : pos - previous = 1 ∨ pos - previous = 2 ∨ pos - previous = 3 := by omega
    have hne : 2 ^ (pos - previous) ≠ 0 := Nat.pos_iff_ne_zero.mp (Nat.two_pow_pos _)
    rw [← byteOf_shared data hprev h4] at hshared
    obtain ⟨e, he, hbyte, hr⟩ := bcjAdjust_encode hg hpos hlt hsign hshared
    rw [hpow, if_pos hne, Nat.log2_two_pow, Nat.mul_comm (pos - previous)]
    exact ⟨e, he, fun _ => hbyte, hr⟩

/-- The loop ends. -/
theorem encodeRun_exists (fuel : Nat) : ∀ {data : List UInt8} {pos previous history : Nat},
    data.length < 2 ^ 32 → EncodeHistory data pos previous history → pos ≤ data.length →
    data.length < pos + fuel →
    ∃ out, bcjEncodeLoop fuel data pos previous history = some out ∧
      EncodeRun data pos previous history out := by
  induction fuel with
  | zero =>
    intro data pos previous history _ _ hpos hfuel
    omega
  | succ fuel ih =>
    intro data pos previous history hlen hok hpos hfuel
    by_cases hmore : pos + 4 < data.length
    · rw [bcjEncodeLoop_step fuel hmore]
      split
      · next hop =>
        split
        · next hskip =>
          obtain ⟨out, hloop, hrun⟩ := ih hlen
            (encodeHistory_skip data pos (gapHistory_lt hok.1 pos previous))
            (by omega) (by omega)
          exact ⟨out, hloop, EncodeRun.skip hmore hop hskip hrun⟩
        · next hskip =>
          obtain ⟨e, he, -, -⟩ := hok.adjust (by omega) hskip
          have hlen' := length_write32 data (pos + 1) (bcjSign e)
          obtain ⟨out, hloop, hrun⟩ := ih (by rw [hlen']; exact hlen)
            (encodeHistory_zero (write32 data (pos + 1) (bcjSign e)) (pos + 5) pos)
            (by omega) (by omega)
          rw [he]
          exact ⟨out, hloop, EncodeRun.adjust hmore hop hskip he hrun⟩
      · next hop =>
        obtain ⟨out, hloop, hrun⟩ := ih hlen hok.scan (by omega) (by omega)
        exact ⟨out, hloop, EncodeRun.scan hmore hop hrun⟩
    · rw [bcjEncodeLoop_stop fuel (Nat.not_lt.mp hmore)]
      exact ⟨data, rfl, EncodeRun.stop (Nat.not_lt.mp hmore)⟩

/-! ## What a run keeps -/

theorem EncodeRun.length_eq (h : EncodeRun data pos previous history out) :
    out.length = data.length := by
  induction h with
  | stop => rfl
  | scan _ _ _ ih => exact ih
  | skip _ _ _ _ ih => exact ih
  | adjust _ _ _ _ _ ih => exact ih.trans (length_write32 ..)

/-- The bytes up to the one it is at. -/
theorem EncodeRun.keeps (h : EncodeRun data pos previous history out) :
    ∀ i ≤ pos, byteAt out i = byteAt data i := by
  induction h with
  | stop =>
    intro i _
    rfl
  | scan _ _ _ ih =>
    intro i hi
    exact ih i (by omega)
  | skip _ _ _ _ ih =>
    intro i hi
    exact ih i (by omega)
  | adjust _ _ _ _ _ ih =>
    intro i hi
    rw [ih i (by omega), byteAt_write32_of_ne _ _ (by omega)]

/-- An opcode `g` bytes on finds the bit of the last one `g` bits up. -/
theorem bcjHistory_last : ∀ bl < 256, ∀ g < 4, bl % 2 = 1 → (bcjHistory^[g] bl).testBit g = true := by
  decide +kernel

/-- Two opcodes whose operands this one overlaps are one too many. -/
theorem bcjHistory_two : ∀ bl < 256, ∀ p ∈ [(1, 1), (1, 2), (2, 1)],
    bl % 2 = 1 ∧ bl.testBit p.2 = true →
    (BCJ_MAX_HISTORY < bcjHistory^[p.1] bl ∨ bcjHistory^[p.1] bl = BCJ_INVALID_HISTORY) ∧
      (bcjHistory^[p.1] bl).testBit (p.2 + p.1) = true := by
  decide +kernel

theorem mem_gaps {g j : Nat} (hg : 1 ≤ g) (hj : 1 ≤ j) (hsum : g + j < 4) :
    (g, j) ∈ [(1, 1), (1, 2), (2, 1)] := by
  simp
  omega

theorem gapHistory_near (history : Nat) (h : previous < pos) (hpos : pos < 2 ^ 32) (hgap : pos - previous < 4) :
    gapHistory pos previous history = bcjHistory^[pos - previous] history := by
  unfold gapHistory bcjCheck
  rw [sub32_of_le (Nat.le_of_lt h) hpos]
  exact if_neg (Nat.not_le.mpr hgap)

theorem skipHistory_mod (data : List UInt8) (pos history : Nat) :
    skipHistory data pos history % 2 = 1 := by
  unfold skipHistory
  split
  · simp [Nat.or_mod_two_eq_one]
  · simp [Nat.or_mod_two_eq_one]

theorem skipHistory_testBit {j : Nat} (data : List UInt8) (pos : Nat)
    (h : history.testBit j = true) : (skipHistory data pos history).testBit j = true := by
  unfold skipHistory
  split
  · simp [Nat.testBit_or, h]
  · simp [Nat.testBit_or, h]

theorem skipHistory_lt (data : List UInt8) (pos : Nat) (h : history < 256) :
    skipHistory data pos history < 256 := (encodeHistory_skip data pos h).1

/-- After two opcodes with overlapping operands that were left alone, the operand of the first is
kept. -/
theorem EncodeRun.keeps_two (h : EncodeRun data pos previous history out)
    (hlen : data.length < 2 ^ 32) {q : Nat} (hq : q < previous) (hnear : previous < q + 4)
    (hpos : previous < pos) (hlt : history < 256) (hodd : history % 2 = 1)
    (hbit : history.testBit (previous - q) = true) :
    ∀ i ≤ q + 4, byteAt out i = byteAt data i := by
  induction h with
  | stop =>
    intro i _
    rfl
  | scan hmore hop hrun ih =>
    exact ih hlen hq hnear (by omega) hlt hodd hbit
  | @skip data out pos previous history hmore hop hskip hrun ih =>
    by_cases hfar : q + 4 ≤ pos
    · intro i hi
      exact hrun.keeps i (by omega)
    · have hgap := gapHistory_near history hpos (by omega) (by omega)
      have htwo := (bcjHistory_two history hlt (pos - previous, previous - q)
        (mem_gaps (by omega) (by omega) (by omega)) ⟨hodd, hbit⟩).2
      have hsum : previous - q + (pos - previous) = pos - q := by omega
      rw [hsum, ← hgap] at htwo
      exact ih hlen (by omega) (by omega) (Nat.lt_succ_self _)
        (skipHistory_lt _ _ (gapHistory_lt hlt _ _)) (skipHistory_mod _ _ _)
        (skipHistory_testBit _ _ htwo)
  | @adjust data out pos previous history value hmore hop hskip hvalue hrun ih =>
    by_cases hfar : q + 4 ≤ pos
    · intro i hi
      rw [hrun.keeps i (by omega), byteAt_write32_of_ne _ _ (by omega)]
    · have htwo := (bcjHistory_two history hlt (pos - previous, previous - q)
        (mem_gaps (by omega) (by omega) (by omega)) ⟨hodd, hbit⟩).1
      rw [← gapHistory_near history hpos (by omega) (by omega)] at htwo
      exact absurd (Or.inr htwo) hskip

/-- The byte an operand that was left alone is judged by stays a highest one, or stays none. -/
theorem EncodeRun.sign_iff (h : EncodeRun data pos previous history out)
    (hlen : data.length < 2 ^ 32) (hok : EncodeHistory data pos previous history)
    (hne : history ≠ 0) :
    IsSign (byteAt out (previous + 4)).toNat ↔ IsSign (byteAt data (previous + 4)).toNat := by
  induction h with
  | stop => exact Iff.rfl
  | scan hmore hop hrun ih => exact ih hlen hok.scan hne
  | @skip data out pos previous history hmore hop hskip hrun ih =>
    obtain ⟨hlt, h0 | ⟨hprev, hodd, hsign⟩⟩ := hok
    · exact absurd h0 hne
    by_cases hfar : previous + 4 ≤ pos
    · rw [hrun.keeps _ (by omega)]
    · have hlast := bcjHistory_last history hlt (pos - previous) (by omega) hodd
      rw [← gapHistory_near history hprev (by omega) (by omega)] at hlast
      rw [hrun.keeps_two hlen hprev (by omega) (Nat.lt_succ_self _)
        (skipHistory_lt _ _ (gapHistory_lt hlt _ _)) (skipHistory_mod _ _ _)
        (skipHistory_testBit _ _ hlast) _ (Nat.le_refl _)]
  | @adjust data out pos previous history value hmore hop hskip hvalue hrun ih =>
    have hkeep := hrun.keeps (previous + 4)
    by_cases hfar : previous + 4 ≤ pos
    · rw [hkeep (by omega), byteAt_write32_of_ne _ _ (by omega)]
    · obtain ⟨e, he, hbyte, -⟩ := hok.adjust (by omega) hskip
      cases Option.some.inj (hvalue.symm.trans he)
      obtain ⟨hlt, h0 | ⟨hprev, hodd, -⟩⟩ := id hok
      · exact absurd h0 hne
      have hlast := bcjHistory_last history hlt (pos - previous) (by omega) hodd
      rw [← gapHistory_near history hprev (by omega) (by omega)] at hlast
      have hgap : gapHistory pos previous history ≠ 0 := by
        intro h0
        rw [h0, Nat.zero_testBit] at hlast
        cases hlast
      have hshared : ¬IsSign (byteAt data (previous + 4)).toNat := by
        rcases hok.check (by omega) hskip with h0 | ⟨-, -, -, h⟩
        · exact absurd h0 hgap
        · exact h
      have hread : read32 (write32 data (pos + 1) (bcjSign value)) (pos + 1) = bcjSign value :=
        read32_write32 (by omega) (bcjSign_lt _)
      have hstored := byteOf_shared (write32 data (pos + 1) (bcjSign value)) hprev (by omega)
      rw [hread, byteOf_of_mod (by omega) (bcjSign_mod value)] at hstored
      rw [hkeep (by omega), ← hstored]
      exact iff_of_false (hbyte hgap) hshared

/-! ## The filter undone -/

/-- The scan of the decoder, over what a run of the encoder left. -/
theorem EncodeRun.decode {l : Layout} (h : EncodeRun data pos previous history out)
    (hlen : l.output + data.length < 2 ^ 32) (hok : EncodeHistory data pos previous history) :
    ∀ (fuel edx : Nat) (mem : List UInt8), mem.length = data.length → pos ≤ data.length →
      data.length < pos + fuel → (∀ i, pos ≤ i → byteAt mem i = byteAt out i) →
      edx ≤ l.output + pos → (history = 0 ∨ edx = l.output + (previous + 1)) →
      ∃ res, bcjScan l fuel mem (l.output + pos) edx history = .ok res ∧
        res.length = data.length ∧ (∀ i < pos, byteAt res i = byteAt mem i) ∧
        ∀ i, pos ≤ i → byteAt res i = byteAt data i := by
  have hgapHistory : ∀ {pos previous history edx : Nat} {data : List UInt8},
      EncodeHistory data pos previous history → edx ≤ l.output + pos → pos < 2 ^ 32 →
      (history = 0 ∨ edx = l.output + (previous + 1)) →
      bcjCheck (l.output + pos + 1 - edx) history = gapHistory pos previous history := by
    intro pos previous history edx data hok hle hpos hedx
    unfold gapHistory
    rcases hedx with rfl | rfl
    · rw [bcjCheck_zero, bcjCheck_zero]
    · rcases hok.2 with rfl | ⟨hprev, -⟩
      · rw [bcjCheck_zero, bcjCheck_zero]
      · rw [sub32_of_le (by omega) hpos]
        congr 1
        omega
  induction h with
  | @stop data pos previous history hstop =>
    intro fuel edx mem hmem hpos hfuel hout hedx hprev
    obtain ⟨fuel, rfl⟩ := Nat.exists_eq_add_one_of_ne_zero (n := fuel) (by omega)
    rw [bcjScan, if_pos (by simp only [BCJ_OPERAND_SIZE]; omega)]
    exact ⟨mem, rfl, hmem, fun _ _ => rfl, hout⟩
  | @scan data out pos previous history hmore hop hrun ih =>
    intro fuel edx mem hmem hpos hfuel hout hedx hprev
    obtain ⟨fuel, rfl⟩ := Nat.exists_eq_add_one_of_ne_zero (n := fuel) (by omega)
    have hbyte : byteAt mem pos = byteAt data pos := by
      rw [hout pos (Nat.le_refl _), hrun.keeps pos (by omega)]
    rw [bcjScan_step fuel (by omega) hedx (by omega), hbyte, if_neg hop]
    obtain ⟨res, hres, hreslen, hbefore, hafter⟩ := ih hlen hok.scan fuel edx mem hmem (by omega)
      (by omega) (fun i hi => hout i (by omega)) (by omega) hprev
    refine ⟨res, hres, hreslen, fun i hi => hbefore i (by omega), fun i hi => ?_⟩
    rcases Nat.eq_or_lt_of_le hi with rfl | hlt
    · rw [hbefore _ (Nat.lt_succ_self _), hbyte]
    · exact hafter i hlt
  | @skip data out pos previous history hmore hop hskip hrun ih =>
    intro fuel edx mem hmem hpos hfuel hout hedx hprev
    obtain ⟨fuel, rfl⟩ := Nat.exists_eq_add_one_of_ne_zero (n := fuel) (by omega)
    have hbyte : byteAt mem pos = byteAt data pos := by
      rw [hout pos (Nat.le_refl _), hrun.keeps pos (by omega)]
    have hnext := encodeHistory_skip data pos (gapHistory_lt hok.1 pos previous)
    have hodd := skipHistory_mod data pos (gapHistory pos previous history)
    have hsign := hrun.sign_iff (by omega) hnext (by omega)
    rw [← hout _ (by omega)] at hsign
    have hscan : bcjScan l (fuel + 1) mem (l.output + pos) edx history =
        bcjScan l fuel mem (l.output + (pos + 1)) (l.output + (pos + 1))
          (skipHistory data pos (gapHistory pos previous history)) := by
      rw [bcjScan_step fuel (by omega) hedx (by omega), hbyte, if_pos hop,
        hgapHistory hok hedx (by omega) hprev]
      dsimp only
      by_cases h : IsSign (byteAt data (pos + 4)).toNat
      · rw [if_pos (hsign.mpr h), if_pos (hskip.resolve_left (fun h' => h' h)), skipHistory,
          if_pos h]
      · rw [if_neg (fun h' => h (hsign.mp h')), skipHistory, if_neg h]
    rw [hscan]
    obtain ⟨res, hres, hreslen, hbefore, hafter⟩ := ih hlen hnext fuel (l.output + (pos + 1)) mem
      hmem (by omega) (by omega) (fun i hi => hout i (by omega)) (Nat.le_refl _) (Or.inr rfl)
    refine ⟨res, hres, hreslen, fun i hi => hbefore i (by omega), fun i hi => ?_⟩
    rcases Nat.eq_or_lt_of_le hi with rfl | hlt
    · rw [hbefore _ (Nat.lt_succ_self _), hbyte]
    · exact hafter i hlt
  | @adjust data out pos previous history value hmore hop hskip hvalue hrun ih =>
    intro fuel edx mem hmem hpos hfuel hout hedx hprev
    obtain ⟨fuel, rfl⟩ := Nat.exists_eq_add_one_of_ne_zero (n := fuel) (by omega)
    obtain ⟨e, he, -, r, hr, hback⟩ := hok.adjust (by omega) hskip
    cases Option.some.inj (hvalue.symm.trans he)
    have hstored : ∀ i ≤ pos + 5, pos ≤ i →
        byteAt mem i = byteAt (write32 data (pos + 1) (bcjSign value)) i := fun i hi hi' => by
      rw [hout i hi', hrun.keeps i hi]
    have hbyte : byteAt mem pos = byteAt data pos := by
      rw [hstored pos (by omega) (Nat.le_refl _), byteAt_write32_of_ne _ _ (by omega)]
    have hoperand : read32 mem (pos + 1) = bcjSign value := by
      rw [read32_congr (fun j hj => hstored (pos + 1 + j) (by omega) (by omega)),
        read32_write32 (by omega) (bcjSign_lt _)]
    have hsign : IsSign (byteAt mem (pos + 4)).toNat := by
      have h := byteOf_read32 mem (pos + 1) (j := 3) (by decide)
      rw [hoperand] at h
      rw [show pos + 4 = pos + 1 + 3 from rfl, ← h]
      exact isSign_bcjSign value
    obtain ⟨-, hallowed⟩ := not_or.mp hskip
    rw [bcjScan_step fuel (by omega) hedx (by omega), hbyte, if_pos hop,
      hgapHistory hok hedx (by omega) hprev]
    dsimp only
    rw [if_pos hsign, if_neg hallowed, hoperand, hr, ok_bind, hback]
    have hlen' := length_write32 mem (pos + 1) (read32 data (pos + 1))
    have hdata' := length_write32 data (pos + 1) (bcjSign value)
    have hplain : ∀ i, pos + 5 ≤ i →
        byteAt (write32 mem (pos + 1) (read32 data (pos + 1))) i = byteAt mem i := fun i hi =>
      byteAt_write32_of_ne _ _ (by omega)
    obtain ⟨res, hres, hreslen, hbefore, hafter⟩ := ih (by omega) (encodeHistory_zero _ _ _) fuel
      (l.output + (pos + 1)) (write32 mem (pos + 1) (read32 data (pos + 1))) (by omega) (by omega)
      (by omega) (fun i hi => (hplain i hi).trans (hout i (by omega))) (by omega) (Or.inl rfl)
    refine ⟨res, hres, by omega, fun i hi => ?_, fun i hi => ?_⟩
    · rw [hbefore i (by omega), byteAt_write32_of_ne _ _ (by omega)]
    · by_cases hlt : i < pos + 5
      · rw [hbefore i hlt]
        by_cases hin : i = pos
        · rw [hin, byteAt_write32_of_ne _ _ (by omega), hbyte]
        · obtain ⟨j, hj, rfl⟩ : ∃ j < 4, i = pos + 1 + j := ⟨i - (pos + 1), by omega, by omega⟩
          have hj' := byteOf_read32 data (pos + 1) hj
          rw [byteAt_write32 _ (by omega) hj]
          apply UInt8.toNat_inj.mp
          rw [UInt8.toNat_ofNat', ← hj']
          rfl
      · rw [hafter i (by omega), byteAt_write32_of_ne _ _ (by omega)]

/-- The decoder undoes the filter. -/
theorem bcjScan_bcjEncode {l : Layout} (hlen : l.output + data.length < 2 ^ 32) :
    ∃ f, bcjEncode data = some f ∧ f.length = data.length ∧
      bcjScan l (f.length + 1) f l.output (l.output - BCJ_OPERAND_SIZE) 0 = .ok data := by
  have hok := encodeHistory_zero data 0 (2 ^ 32 - 1 - 4)
  obtain ⟨f, hf, hrun⟩ := encodeRun_exists (data.length + 1) (by omega) hok (Nat.zero_le _)
    (by omega)
  have hflen := hrun.length_eq
  obtain ⟨res, hres, hreslen, -, hafter⟩ := hrun.decode hlen hok (f.length + 1)
    (l.output - BCJ_OPERAND_SIZE) f hflen (Nat.zero_le _) (by omega) (fun _ _ => rfl) (by omega)
    (Or.inl rfl)
  refine ⟨f, hf, hflen, ?_⟩
  rw [← ext_byteAt hreslen fun i => hafter i (Nat.zero_le i)]
  exact hres

end Limine.Limlz
