import Limine.Lib.Triple
import Limine.Limlz.Decompressor

/-!
# The x86 filter of the decompressor

The encoder adds the position to an operand and the decoder subtracts it.  An operand that overlaps
the one of an opcode before it is complemented when the sum puts `00` or `ff` where that opcode has
its highest byte, so that the decoder sees there what the encoder saw.
-/

namespace Limine.Limlz

open Lib

/-- The one failure the code provides for. -/
abbrev IsError (h : Halt) : Prop := h = .error

/-- The byte `shift` bits up. -/
def byteOf (value shift : Nat) : Nat := value / 2 ^ shift % 2 ^ 8

/-- A byte that can be the highest one of an operand. -/
def IsSign (b : Nat) : Prop := b = 0 ∨ b = 255

instance (b : Nat) : Decidable (IsSign b) := inferInstanceAs (Decidable (_ ∨ _))

/-! ## Complementing -/

theorem xor_mask_mod (a k : Nat) : (a ^^^ (2 ^ k - 1)) % 2 ^ k = 2 ^ k - 1 - a % 2 ^ k := by
  have hpos := Nat.two_pow_pos k
  have hlt : a % 2 ^ k < 2 ^ k := Nat.mod_lt _ hpos
  rw [Nat.xor_mod_two_pow, Nat.mod_eq_of_lt (a := 2 ^ k - 1) (by omega)]
  have h := congrArg BitVec.toNat (BitVec.xor_allOnes (x := BitVec.ofNat k (a % 2 ^ k)))
  rw [BitVec.toNat_not, BitVec.toNat_xor, BitVec.toNat_allOnes, BitVec.toNat_ofNat,
    Nat.mod_eq_of_lt hlt] at h
  exact h

theorem xor_mask_div (a k : Nat) : (a ^^^ (2 ^ k - 1)) / 2 ^ k = a / 2 ^ k := by
  have hpos := Nat.two_pow_pos k
  rw [Nat.xor_div_two_pow, Nat.div_eq_of_lt (a := 2 ^ k - 1) (by omega), Nat.xor_zero]

/-! ## The history -/

theorem bcjHistory_single : ∀ bl < 256, ∀ g < 4, bl % 2 = 1 ∧ g ≠ 0 ∧
    bcjHistory^[g] bl ≤ BCJ_MAX_HISTORY ∧ bcjHistory^[g] bl ≠ BCJ_INVALID_HISTORY →
    bcjHistory^[g] bl = 2 ^ g ∧ bl.testBit 4 = false := by
  decide +kernel

/-! ## Adjusting -/

/-- After an opcode `g` bytes before this one the two operands share the byte `24 - 8 * g` bits up,
and what is complemented ends with that byte. -/
theorem bcjAdjust_step {g : Nat} (hg : g = 1 ∨ g = 2 ∨ g = 3) (edx fuel eax : Nat) :
    bcjAdjust edx (2 ^ g) (fuel + 1) eax =
      if IsSign (byteOf (sub32 eax edx) (24 - 8 * g)) then
        bcjAdjust edx (2 ^ g) fuel (sub32 eax edx ^^^ (2 ^ (32 - 8 * g) - 1))
      else .ok (sub32 eax edx) := by
  have hcl : (Nat.log2 (2 ^ g) ^^^ 3) * 2 ^ 3 = 24 - 8 * g := by
    rcases hg with rfl | rfl | rfl <;> rfl
  have hmask : 2 ^ 32 - 1 - (2 ^ 32 - 256) * 2 ^ (24 - 8 * g) % 2 ^ 32 = 2 ^ (32 - 8 * g) - 1 := by
    rcases hg with rfl | rfl | rfl <;> rfl
  have hpos := Nat.two_pow_pos g
  rw [bcjAdjust]
  dsimp only
  rw [if_neg (by omega), hcl, hmask]
  have hbyte : 1 < (sub32 eax edx / 2 ^ (24 - 8 * g) + 1) % 2 ^ 8 ↔
      ¬IsSign (byteOf (sub32 eax edx) (24 - 8 * g)) := by
    unfold IsSign byteOf
    omega
  by_cases h : IsSign (byteOf (sub32 eax edx) (24 - 8 * g))
  · rw [if_neg (fun h' => hbyte.mp h' h), if_pos h]
  · rw [if_pos (hbyte.mpr h), if_neg h]

theorem bcjAdjust_zero (edx fuel eax : Nat) :
    bcjAdjust edx 0 (fuel + 1) eax = .ok (sub32 eax edx) := rfl

/-- Two subtractions with a complement between them complement the shared byte, so the loop ends
unless that byte was already `00` or `ff`. -/
theorem not_isSign_second {g v p a : Nat} (hg : g = 1 ∨ g = 2 ∨ g = 3) (hp : p < 2 ^ 32)
    (hv : ¬IsSign (byteOf v (24 - 8 * g)))
    (ha : a % 2 ^ (32 - 8 * g) = (v + (2 ^ 32 - p)) % 2 ^ (32 - 8 * g)) :
    ¬IsSign (byteOf (sub32 (a ^^^ (2 ^ (32 - 8 * g) - 1)) p) (24 - 8 * g)) := by
  have hx := xor_mask_mod a (32 - 8 * g)
  generalize a ^^^ (2 ^ (32 - 8 * g) - 1) = x at hx
  unfold IsSign byteOf sub32 at *
  rcases hg with rfl | rfl | rfl
  · simp only [Nat.reduceMul, Nat.reduceSub] at *
    omega
  · simp only [Nat.reduceMul, Nat.reduceSub] at *
    omega
  · simp only [Nat.reduceMul, Nat.reduceSub] at *
    omega

/-- The loop at `.bcj_adjust` takes at most two turns. -/
theorem bcjAdjust_ends (edx v : Nat) {bl : Nat} (hedx : edx < 2 ^ 32)
    (h : bl = 0 ∨ ∃ g, (g = 1 ∨ g = 2 ∨ g = 3) ∧ bl = 2 ^ g ∧ ¬IsSign (byteOf v (24 - 8 * g))) :
    ∃ r, bcjAdjust edx bl 2 v = .ok r := by
  rcases h with rfl | ⟨g, hg, rfl, hv⟩
  · exact ⟨_, rfl⟩
  rw [bcjAdjust_step hg]
  split
  · rw [bcjAdjust_step hg, if_neg]
    · exact ⟨_, rfl⟩
    · apply not_isSign_second hg hedx hv
      unfold sub32
      rcases hg with rfl | rfl | rfl
      · simp only [Nat.reduceMul, Nat.reduceSub]
        omega
      · simp only [Nat.reduceMul, Nat.reduceSub]
        omega
      · simp only [Nat.reduceMul, Nat.reduceSub]
        omega
  · exact ⟨_, rfl⟩

/-! ## The scan -/

variable {l : Layout}

theorem readOutput_at {output : List UInt8} {i : Nat} (h : i < output.length) :
    readOutput l output (l.output + i) = .ok (byteAt output i) := by
  unfold readOutput
  rw [if_neg (by omega), Nat.add_sub_cancel_left, List.getElem?_eq_getElem h,
    byteAt_eq_getElem h]

theorem readOperand_at {output : List UInt8} {i : Nat} (h : i + 3 < output.length) :
    readOperand l output (l.output + i) = .ok (read32 output i) := by
  unfold readOperand
  rw [readOutput_at (by omega), Nat.add_assoc, readOutput_at (by omega), Nat.add_assoc,
    readOutput_at (by omega), Nat.add_assoc, readOutput_at h]
  rfl

theorem writeOperand_at {output : List UInt8} {i eax : Nat} (h : i + 3 < output.length) :
    writeOperand l output (l.output + i) eax = .ok (write32 output i eax) := by
  unfold writeOperand
  rw [if_pos (by omega), Nat.add_sub_cancel_left]

theorem byteOf_read32 (data : List UInt8) (i : Nat) {j : Nat} (hj : j < 4) :
    byteOf (read32 data i) (8 * j) = (byteAt data (i + j)).toNat := by
  have h0 := (byteAt data i).toNat_lt
  have h1 := (byteAt data (i + 1)).toNat_lt
  have h2 := (byteAt data (i + 2)).toNat_lt
  have h3 := (byteAt data (i + 3)).toNat_lt
  unfold byteOf read32
  rcases (by omega : j = 0 ∨ j = 1 ∨ j = 2 ∨ j = 3) with rfl | rfl | rfl | rfl
  · simp only [Nat.mul_zero, Nat.pow_zero, Nat.add_zero]
    omega
  · simp only [Nat.mul_one]
    omega
  · simp only [Nat.reduceMul]
    omega
  · simp only [Nat.reduceMul]
    omega

def IsOpcode (b : UInt8) : Prop := b = 0xe8 ∨ b = 0xe9

instance (b : UInt8) : Decidable (IsOpcode b) := inferInstanceAs (Decidable (_ ∨ _))

theorem isOpcode_iff (b : UInt8) : IsOpcode b ↔ ¬1 < (b - UInt8.ofNat BCJ_CALL).toNat := by
  have h8 : (UInt8.ofNat BCJ_CALL).toNat = 232 := rfl
  have h9 : (0xe9 : UInt8).toNat = 233 := rfl
  have hlt := b.toNat_lt
  unfold IsOpcode
  rw [← UInt8.toNat_inj, ← UInt8.toNat_inj, h9, UInt8.toNat_sub, h8]
  show b.toNat = 232 ∨ _ ↔ _
  omega

theorem isSign_iff (b : UInt8) : IsSign b.toNat ↔ ¬1 < (b + 1).toNat := by
  have hlt := b.toNat_lt
  have h1 : (1 : UInt8).toNat = 1 := rfl
  unfold IsSign
  rw [UInt8.toNat_add, h1]
  omega

/-- One turn of the scan at the byte `p`. -/
theorem bcjScan_step {output : List UInt8} {p edx bl : Nat} (fuel : Nat)
    (hlen : l.output + output.length < 2 ^ 32) (hedx : edx ≤ l.output + p)
    (hp : p + 4 < output.length) :
    bcjScan l (fuel + 1) output (l.output + p) edx bl =
      if IsOpcode (byteAt output p) then
        let bl := bcjCheck (l.output + p + 1 - edx) bl
        if IsSign (byteAt output (p + 4)).toNat then
          if BCJ_MAX_HISTORY < bl ∨ bl = BCJ_INVALID_HISTORY then
            bcjScan l fuel output (l.output + (p + 1)) (l.output + (p + 1))
              (bl ||| 1 ||| BCJ_SIGN_HISTORY)
          else
            bcjAdjust (p + 5) bl 2 (read32 output (p + 1)) >>= fun eax =>
              bcjScan l fuel (write32 output (p + 1) (bcjSign eax)) (l.output + (p + 5))
                (l.output + (p + 1)) 0
        else
          bcjScan l fuel output (l.output + (p + 1)) (l.output + (p + 1)) (bl ||| 1)
      else bcjScan l fuel output (l.output + (p + 1)) edx bl := by
  have hgap : sub32 (l.output + p + 1) edx = l.output + p + 1 - edx :=
    sub32_of_le (by omega) (by omega)
  rw [bcjScan, if_neg (by simp only [BCJ_OPERAND_SIZE]; omega), readOutput_at (by omega)]
  show (if _ then _ else _) = _
  by_cases hop : IsOpcode (byteAt output p)
  · rw [if_pos hop, if_neg ((isOpcode_iff _).mp hop)]
    have h4 : l.output + p + 1 + BCJ_OPERAND_SIZE - 1 = l.output + (p + 4) := by
      simp only [BCJ_OPERAND_SIZE]
      omega
    rw [h4, readOutput_at hp, hgap]
    show (if _ then _ else _) = _
    by_cases hsign : IsSign (byteAt output (p + 4)).toNat
    · rw [if_neg ((isSign_iff _).mp hsign)]
      dsimp only
      rw [if_pos hsign]
      by_cases hskip : BCJ_MAX_HISTORY < bcjCheck (l.output + p + 1 - edx) bl ∨
          bcjCheck (l.output + p + 1 - edx) bl = BCJ_INVALID_HISTORY
      · rw [if_pos hskip, if_pos hskip]
        rfl
      · have hpos : l.output + p + 1 + BCJ_OPERAND_SIZE - l.output = p + 5 := by
          simp only [BCJ_OPERAND_SIZE]
          omega
        rw [if_neg hskip, if_neg hskip, hpos, Nat.add_assoc, readOperand_at (by omega)]
        show (bcjAdjust _ _ _ _ >>= fun eax =>
          writeOperand l output (l.output + (p + 1)) (bcjSign eax) >>= _) = _
        apply bind_congr
        intro eax
        rw [writeOperand_at (by omega)]
        rfl
    · rw [if_pos (not_not.mp fun h => hsign ((isSign_iff _).mpr h))]
      dsimp only
      rw [if_neg hsign]
      rfl
  · rw [if_neg hop, if_pos (not_not.mp fun h => hop ((isOpcode_iff _).mpr h))]
    rfl

/-- What the history says at `.bcj_scan`: nothing, or that the operand of the opcode before `EDX`
was left alone, and whether it had the highest byte of one. -/
def HistoryOk (l : Layout) (output : List UInt8) (edx bl : Nat) : Prop :=
  bl < 256 ∧ (bl = 0 ∨ bl % 2 = 1 ∧ ∃ q, edx = l.output + q + 1 ∧
    (bl.testBit 4 = false → ¬IsSign (byteAt output (q + 4)).toNat))

theorem bcjHistory_lt (bl : Nat) : bcjHistory bl < 256 := Nat.mod_lt _ (by decide)

theorem iterate_bcjHistory_zero (n : Nat) : bcjHistory^[n] 0 = 0 :=
  Function.iterate_fixed rfl n

theorem iterate_bcjHistory_lt {bl : Nat} (h : bl < 256) (n : Nat) : bcjHistory^[n] bl < 256 := by
  cases n with
  | zero => exact h
  | succ n =>
    rw [Function.iterate_succ_apply']
    exact bcjHistory_lt _

theorem bcjCheck_lt {bl : Nat} (h : bl < 256) (ecx : Nat) : bcjCheck ecx bl < 256 := by
  unfold bcjCheck
  split
  · decide
  · exact iterate_bcjHistory_lt h ecx

/-- The histories that let an operand be adjusted: no other overlaps it, or one that has no
highest byte. -/
theorem bcjCheck_allowed {gap bl : Nat} (hlt : bl < 256) (hodd : bl % 2 = 1) (hgap : 1 ≤ gap)
    (hmax : bcjCheck gap bl ≤ BCJ_MAX_HISTORY) (hne : bcjCheck gap bl ≠ BCJ_INVALID_HISTORY) :
    bcjCheck gap bl = 0 ∨ gap < 4 ∧ bcjCheck gap bl = 2 ^ gap ∧ bl.testBit 4 = false := by
  unfold bcjCheck at *
  split at hmax
  · next hfar => exact Or.inl (if_pos hfar)
  next hnear =>
  rw [if_neg hnear] at hne ⊢
  have hlt4 : gap < 4 := Nat.not_le.mp hnear
  exact Or.inr ⟨hlt4, bcjHistory_single bl hlt gap hlt4 ⟨hodd, by omega, hmax, hne⟩⟩

theorem bcjCheck_zero (gap : Nat) : bcjCheck gap 0 = 0 := by
  unfold bcjCheck
  split
  · rfl
  · exact iterate_bcjHistory_zero gap

/-- The byte that an operand shares with one `gap` bytes before it. -/
theorem byteOf_shared (data : List UInt8) {p q : Nat} (hq : q < p) (hgap : p - q < 4) :
    byteOf (read32 data (p + 1)) (24 - 8 * (p - q)) = (byteAt data (q + 4)).toNat := by
  have hshift : 24 - 8 * (p - q) = 8 * (3 - (p - q)) := by omega
  have hidx : p + 1 + (3 - (p - q)) = q + 4 := by omega
  rw [hshift, byteOf_read32 _ _ (by omega), hidx]

theorem HistoryOk.check {output : List UInt8} {p edx bl : Nat} (h : HistoryOk l output edx bl)
    (hedx : edx ≤ l.output + p) (hmax : bcjCheck (l.output + p + 1 - edx) bl ≤ BCJ_MAX_HISTORY)
    (hne : bcjCheck (l.output + p + 1 - edx) bl ≠ BCJ_INVALID_HISTORY) :
    bcjCheck (l.output + p + 1 - edx) bl = 0 ∨ ∃ g, (g = 1 ∨ g = 2 ∨ g = 3) ∧
      bcjCheck (l.output + p + 1 - edx) bl = 2 ^ g ∧
      ¬IsSign (byteOf (read32 output (p + 1)) (24 - 8 * g)) := by
  obtain ⟨hlt, rfl | ⟨hodd, q, rfl, hsign⟩⟩ := h
  · exact Or.inl (bcjCheck_zero _)
  have hgap : l.output + p + 1 - (l.output + q + 1) = p - q := by omega
  rw [hgap] at hmax hne ⊢
  rcases bcjCheck_allowed hlt hodd (by omega) hmax hne with h0 | ⟨hlt4, hpow, hbit⟩
  · exact Or.inl h0
  · refine Or.inr ⟨p - q, by omega, hpow, ?_⟩
    rw [byteOf_shared output (by omega) hlt4]
    exact hsign hbit

theorem historyOk_skip {output : List UInt8} {p bl : Nat} (hbl : bl < 256)
    (h : ¬IsSign (byteAt output (p + 4)).toNat) :
    HistoryOk l output (l.output + (p + 1)) (bl ||| 1) :=
  ⟨Nat.or_lt_two_pow (n := 8) hbl (by decide),
    Or.inr ⟨by simp [Nat.or_mod_two_eq_one], p, rfl, fun _ => h⟩⟩

theorem historyOk_skip_sign {output : List UInt8} {p bl : Nat} (hbl : bl < 256) :
    HistoryOk l output (l.output + (p + 1)) (bl ||| 1 ||| BCJ_SIGN_HISTORY) := by
  have h1 : bl ||| 1 < 2 ^ 8 := Nat.or_lt_two_pow hbl (by decide)
  have hbit : (bl ||| 1 ||| BCJ_SIGN_HISTORY).testBit 4 = true := by
    rw [Nat.testBit_or, Nat.testBit_or, show BCJ_SIGN_HISTORY.testBit 4 = true by decide,
      Bool.or_true]
  refine ⟨Nat.or_lt_two_pow (n := 8) h1 (by decide), Or.inr ⟨?_, p, rfl, fun h => ?_⟩⟩
  · simp [Nat.or_mod_two_eq_one]
  · rw [hbit] at h
    cases h

theorem bcjScan_ends (fuel : Nat) : ∀ (output : List UInt8) (p edx bl : Nat),
    l.output + output.length < 2 ^ 32 → edx ≤ l.output + p → HistoryOk l output edx bl →
    p ≤ output.length → output.length < p + fuel →
    Ends IsError (bcjScan l fuel output (l.output + p) edx bl) fun r =>
      r.length = output.length := by
  induction fuel with
  | zero =>
    intro output p edx bl _ _ _ hp hfuel
    omega
  | succ fuel ih =>
    intro output p edx bl hlen hedx hok hle hfuel
    by_cases hp : p + 4 < output.length
    · have hlt := bcjCheck_lt hok.1 (l.output + p + 1 - edx)
      rw [bcjScan_step fuel hlen hedx hp]
      dsimp only
      split
      · split
        · next hsign =>
          split
          · exact ih _ _ _ _ hlen (Nat.le_refl _) (historyOk_skip_sign hlt) (by omega) (by omega)
          · next hadjust =>
            obtain ⟨hmax, hne⟩ := not_or.mp hadjust
            obtain ⟨eax, heax⟩ := bcjAdjust_ends (p + 5) (read32 output (p + 1))
              (by omega) (hok.check hedx (Nat.not_lt.mp hmax) hne)
            rw [heax]
            have hlen' := length_write32 output (p + 1) (bcjSign eax)
            refine (ih _ (p + 5) _ 0 (by omega) (by omega) ⟨by decide, Or.inl rfl⟩ (by omega)
              (by omega)).imp fun r hr => hr.trans hlen'
        · next hsign =>
          exact ih _ _ _ _ hlen (Nat.le_refl _) (historyOk_skip hlt hsign) (by omega)
            (by omega)
      · exact ih _ _ _ _ hlen (by omega) hok (by omega) (by omega)
    · rw [bcjScan, if_pos (by simp only [BCJ_OPERAND_SIZE]; omega)]
      exact Ends.ok rfl

end Limine.Limlz
