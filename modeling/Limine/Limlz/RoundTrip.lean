import Limine.Limlz.BcjEncode
import Limine.Limlz.Parse
import Limine.Limlz.Symbols

/-!
# The limlz round trip

The two main loops run side by side: at every position of the input the decoder has put out the
bytes before it, and has the state and the distances that the encoder has there.
-/

namespace Limine.Limlz

open Lib RangeEncoder

variable {l : Layout} {s : Stream} {data : List UInt8} {pos length distance : Nat}

/-! ## Copying -/

theorem length_take_of_le (h : pos ≤ data.length) : (data.take pos).length = pos := by
  rw [List.length_take, Nat.min_eq_left h]

/-- The next byte of the data, put out. -/
theorem writeOutput_take (h : pos < data.length) :
    writeOutput data.length (data.take pos) (byteAt data pos) = .ok (data.take (pos + 1)) := by
  unfold writeOutput
  rw [length_take_of_le (Nat.le_of_lt h), if_pos h, List.take_succ_eq_append_getElem h,
    byteAt_eq_getElem h]

theorem stosb_take {al : UInt8} (n : Nat) : ∀ pos, pos + n ≤ data.length →
    (∀ k < n, byteAt data (pos + k) = al) →
    stosb data.length al n (data.take pos) = .ok (data.take (pos + n)) := by
  induction n with
  | zero => exact fun _ _ _ => rfl
  | succ n ih =>
    intro pos hle hsame
    have h0 : byteAt data pos = al := hsame 0 (Nat.succ_pos n)
    have hrest := ih (pos + 1) (by omega) (fun k hk => by
      rw [Nat.add_assoc, Nat.add_comm 1 k]
      exact hsame (k + 1) (by omega))
    rw [stosb, ← h0, writeOutput_take (by omega), ok_bind, h0, hrest, Nat.add_assoc,
      Nat.add_comm 1 n]

theorem movsb_take (n : Nat) : ∀ pos, 1 ≤ distance → distance ≤ pos → pos + n ≤ data.length →
    (∀ k < n, byteAt data (pos + k) = byteAt data (pos - distance + k)) →
    movsb l data.length n (l.output + (pos - distance)) (data.take pos) =
      .ok (data.take (pos + n)) := by
  induction n with
  | zero => exact fun _ _ _ _ _ => rfl
  | succ n ih =>
    intro pos hpos hle hend hsame
    have h0 : byteAt data pos = byteAt data (pos - distance) := hsame 0 (Nat.succ_pos n)
    have hrest := ih (pos + 1) hpos (by omega) (by omega) (fun k hk => by
      have hk' := hsame (k + 1) (by omega)
      rw [Nat.add_assoc, Nat.add_comm 1 k, hk']
      congr 1
      omega)
    have hlen := length_take_of_le (show pos ≤ data.length by omega)
    have hsource : l.output + (pos - distance) + 1 = l.output + (pos + 1 - distance) := by omega
    rw [movsb, readOutput_at (by omega), ok_bind, byteAt_take _ (by omega), ← h0,
      writeOutput_take (by omega), ok_bind, hsource, hrest, Nat.add_assoc, Nat.add_comm 1 n]

/-- A match that is one puts out the bytes of the data. -/
theorem copy_take (hlen : l.output + data.length < 2 ^ 32) {z : Lz}
    (houtput : z.output = data.take pos) (h : Copies data pos length z.rep0) (hlength : 1 ≤ length) :
    copy l data.length z length = .ok { z with
      output := data.take (pos + length), ebx := byteAt data (pos + length - 1) } := by
  have h1 := h.distance_pos
  have h2 := h.distance_le
  have h3 := h.end_le
  have hout := length_take_of_le (show pos ≤ data.length by omega)
  have hout' := length_take_of_le h3
  have hedi : z.edi l = l.output + pos := by
    rw [Lz.edi, houtput, hout]
  have hroom : sub32 (l.output + data.length) (l.output + pos) = data.length - pos := by
    rw [sub32_of_le (by omega) (by omega)]
    omega
  have hesi : l.output + pos - z.rep0 = l.output + (pos - z.rep0) := by omega
  have hlast : l.output + (data.take (pos + length)).length - 1 = l.output + (pos + length - 1) := by
    omega
  unfold copy
  rw [hedi, if_neg (by omega), hesi]
  dsimp only
  rw [if_neg (by omega), if_neg (by omega), hroom, if_neg (by omega), houtput]
  split
  · next hone =>
    have hsame : ∀ k < length, byteAt data (pos + k) = byteAt data (pos - z.rep0) := by
      intro k hk
      induction k with
      | zero => exact h.same 0 hk
      | succ k ih =>
        rw [h.same (k + 1) hk, ← ih (by omega)]
        congr 1
        omega
    rw [readOutput_at (by omega), ok_bind, byteAt_take _ (by omega), stosb_take length pos h3 hsame,
      ok_bind, hlast, readOutput_at (by omega), byteAt_take _ (by omega)]
    rfl
  · rw [movsb_take length pos h1 h2 h3 h.same, ok_bind, hlast, readOutput_at (by omega),
      byteAt_take _ (by omega)]
    rfl

/-! ## One symbol -/

/-- The decoder has followed the encoder up to `pos`. -/
structure Follows (data : List UInt8) (pos : Nat) (c : Context) (z : Lz) : Prop where
  output : z.output = data.take pos
  ebx : z.ebx.toNat = if pos ≠ 0 then (byteAt data (pos - 1)).toNat else 0
  state : z.state = c.state
  rep0 : z.rep0 = c.reps0
  rep1 : z.rep1 = c.reps1
  rep2 : z.rep2 = c.reps2
  rep3 : z.rep3 = c.reps3
  state_lt : c.state < 12
  reps0_pos : 1 ≤ c.reps0
  reps0_le : 7 ≤ c.state → c.reps0 ≤ pos

/-- Bits at the indices that a state selects. -/
theorem stateBit_readBack (hfit : s.address + s.bytes.length < 2 ^ 32) {state base scale : Nat}
    (hstate : state < 12) (hscale : scale ≤ 16) (hbase : base ≤ LIMLZ_REP_LONG) (b : Bool) :
    ReadBack s (fun rc => rc.encodeBit (base + state * scale) b) (bit s (state * scale + base))
      b := by
  have hle : state * scale ≤ 11 * 16 := Nat.mul_le_mul (Nat.le_of_lt_succ hstate) hscale
  have hbase' : base ≤ 240 := hbase
  rw [Nat.add_comm base]
  apply bit_readBack hfit
  rw [PROBS_eq]
  omega

/-- What copying leaves for the next symbol. -/
theorem follows_copy {c : Context} {z : Lz} (h : Copies data pos length distance)
    (hlength : 1 ≤ length) (hstate : z.state = c.state) (hlt : c.state < 12)
    (hreps0 : c.reps0 = distance) (hrep0 : z.rep0 = c.reps0) (hrep1 : z.rep1 = c.reps1)
    (hrep2 : z.rep2 = c.reps2) (hrep3 : z.rep3 = c.reps3) :
    Follows data (pos + length) c
      { z with output := data.take (pos + length), ebx := byteAt data (pos + length - 1) } where
  output := rfl
  ebx := by rw [if_pos (by omega)]
  state := hstate
  rep0 := hrep0
  rep1 := hrep1
  rep2 := hrep2
  rep3 := hrep3
  state_lt := hlt
  reps0_pos := by
    rw [hreps0]
    exact h.distance_pos
  reps0_le := fun _ => by
    rw [hreps0]
    exact Nat.le_trans h.distance_le (Nat.le_add_right pos length)

/-- The branch for a choice of one byte. -/
theorem encodeSingle_readBack (hfit : s.address + s.bytes.length < 2 ^ 32)
    (hlen : l.output + data.length < 2 ^ 32) {c : Context} {z : Lz} (h : Follows data pos c z)
    (hlt : pos < data.length) :
    ∃ c' z', (∀ rc, (encodeSingle data pos c rc).1 = c') ∧
      ReadBack s (fun rc => (encodeSingle data pos c rc).2) (symbol l s data.length z) z' ∧
      Follows data (pos + 1) c' z' := by
  have hstate := h.state_lt
  have hfirst := stateBit_readBack hfit hstate (Nat.le_refl 16) (Nat.zero_le _)
  have hmatch := stateBit_readBack hfit hstate (by decide : 1 ≤ 16)
    (by decide : LIMLZ_IS_REP ≤ LIMLZ_REP_LONG)
  have hg0 := stateBit_readBack hfit hstate (by decide : 1 ≤ 16)
    (by decide : LIMLZ_REP_G0 ≤ LIMLZ_REP_LONG)
  have hlong := stateBit_readBack hfit hstate (Nat.le_refl 16) (Nat.le_refl LIMLZ_REP_LONG)
  simp only [Nat.mul_one, Nat.zero_add, Nat.add_zero] at hfirst hmatch hg0
  by_cases hshort : c.reps0 ≤ pos ∧ byteAt data pos = byteAt data (pos - c.reps0)
  · -- the byte is the one at the last distance
    have hcopies : Copies data pos 1 z.rep0 := by
      rw [h.rep0]
      refine ⟨by decide, h.reps0_pos, hshort.1, hlt, fun k hk => ?_⟩
      obtain rfl : k = 0 := by omega
      exact hshort.2
    have hcopy := copy_take (z := { z with state := (if z.state < 7 then 0 else 3) ||| 9 })
      hlen h.output hcopies (Nat.le_refl 1)
    have hnext : (if z.state < 7 then 0 else 3) ||| 9 = if c.state < 7 then 9 else 11 := by
      rw [h.state]
      split
      · rfl
      · rfl
    refine ⟨{ c with state := if c.state < 7 then 9 else 11 }, _, fun rc => ?_, ?_,
      follows_copy (z := { z with state := (if z.state < 7 then 0 else 3) ||| 9 }) hcopies
        (Nat.le_refl 1) hnext ?_ h.rep0.symm h.rep0 h.rep1 h.rep2 h.rep3⟩
    · rw [encodeSingle, if_pos hshort]
    · have hwrite : (fun rc => (encodeSingle data pos c rc).2) = fun rc =>
          (((rc.encodeBit (c.state * 16) true).encodeBit (LIMLZ_IS_REP + c.state) true).encodeBit
            (LIMLZ_REP_G0 + c.state) false).encodeBit (LIMLZ_REP_LONG + c.state * 16) false := by
        funext rc
        rw [encodeSingle, if_pos hshort]
      rw [hwrite, ← h.state]
      rw [← h.state] at hfirst hmatch hg0 hlong
      refine (hfirst true).bind (g := fun rc => ((rc.encodeBit (LIMLZ_IS_REP + z.state)
        true).encodeBit (LIMLZ_REP_G0 + z.state) false).encodeBit (LIMLZ_REP_LONG + z.state * 16)
        false) ?_
      refine (hmatch true).bind (g := fun rc => (rc.encodeBit (LIMLZ_REP_G0 + z.state)
        false).encodeBit (LIMLZ_REP_LONG + z.state * 16) false) ?_
      refine (hg0 false).bind (g := fun rc => rc.encodeBit (LIMLZ_REP_LONG + z.state * 16)
        false) ?_
      exact (hlong false).bind_pure (Codes.lift hcopy)
    · show (if c.state < 7 then 9 else 11) < 12
      split
      · decide
      · decide
  · have hbyte := literalByte_readBack (z := z) hfit hlt hlen h.output h.state h.rep0 h.ebx
      (fun _ => h.reps0_pos) h.reps0_le
    have hnext : literalState z.state =
        if c.state < 4 then 0 else if c.state < 10 then c.state - 3 else c.state - 6 := by
      rw [h.state]
      unfold literalState
      grind
    refine ⟨{ c with state := if c.state < 4 then 0 else if c.state < 10 then c.state - 3
        else c.state - 6 },
      { z with
        state := literalState z.state, output := data.take (pos + 1), ebx := byteAt data pos },
      fun rc => ?_, ?_, ?_⟩
    · rw [encodeSingle, if_neg hshort]
    · have hwrite : (fun rc => (encodeSingle data pos c rc).2) = fun rc =>
          (rc.encodeBit (c.state * 16) false).encodeLiteral data pos c.state c.reps0 := by
        funext rc
        rw [encodeSingle, if_neg hshort]
      rw [hwrite]
      rw [← h.state] at hfirst
      rw [← h.state] at hbyte ⊢
      refine (hfirst false).bind (g := fun rc => rc.encodeLiteral data pos z.state c.reps0) ?_
      apply hbyte.bind_pure
      rw [h.output, writeOutput_take hlt]
      exact (Codes.lift rfl).bind_pure (Codes.pure _)
    · have hlt7 := literalState_lt hstate
      rw [← h.state, hnext] at hlt7
      exact ⟨rfl, by rw [if_pos (Nat.succ_ne_zero pos), Nat.add_sub_cancel], hnext, h.rep0, h.rep1,
        h.rep2, h.rep3, Nat.lt_trans hlt7 (by decide), h.reps0_pos,
        fun h7 => absurd hlt7 (Nat.not_lt.mpr h7)⟩

/-- A length and the copy it is for. -/
theorem repLength_readBack (hfit : s.address + s.bytes.length < 2 ^ 32)
    (hlen : l.output + data.length < 2 ^ 32) {z : Lz} (houtput : z.output = data.take pos)
    (h : Copies data pos length z.rep0) (hlength : 2 ≤ length) :
    ReadBack s (fun rc => rc.encodeLength LIMLZ_REP_LENGTH 0 length)
      (Limlz.length s LIMLZ_REP_LENGTH 0 >>= fun ecx => liftM (copy l data.length z ecx))
      { z with output := data.take (pos + length), ebx := byteAt data (pos + length - 1) } := by
  apply (length_readBack hfit (by decide) hlength h.length_le).bind_pure
  rw [copy_take hlen houtput h (by omega)]
  exact Codes.lift rfl

/-- The last distances, with the one that is used again first. -/
theorem matchRep_cases (c : Context) (distance : Nat) :
    c.matchRep distance = 0 ∧ distance = c.reps0 ∨ c.matchRep distance = 1 ∧ distance = c.reps1 ∨
      c.matchRep distance = 2 ∧ distance = c.reps2 ∨
      c.matchRep distance = 3 ∧ distance = c.reps3 ∨ c.matchRep distance = 4 := by
  unfold Context.matchRep
  grind

/-- The branch for a match. -/
theorem encodeMatch_readBack (hfit : s.address + s.bytes.length < 2 ^ 32)
    (hlen : l.output + data.length < 2 ^ 32) {c : Context} {z : Lz} {m : Match}
    (h : Follows data pos c z) (hm : Copies data pos m.length m.distance) (hlength : 2 ≤ m.length) :
    ∃ c' z', (∀ rc, (encodeMatch m c rc).1 = c') ∧
      ReadBack s (fun rc => (encodeMatch m c rc).2) (symbol l s data.length z) z' ∧
      Follows data (pos + m.length) c' z' := by
  have hstate := h.state_lt
  have hfirst := stateBit_readBack hfit hstate (Nat.le_refl 16) (Nat.zero_le _)
  have hrep := stateBit_readBack hfit hstate (by decide : 1 ≤ 16)
    (by decide : LIMLZ_IS_REP ≤ LIMLZ_REP_LONG)
  have hg0 := stateBit_readBack hfit hstate (by decide : 1 ≤ 16)
    (by decide : LIMLZ_REP_G0 ≤ LIMLZ_REP_LONG)
  have hg1 := stateBit_readBack hfit hstate (by decide : 1 ≤ 16)
    (by decide : LIMLZ_REP_G1 ≤ LIMLZ_REP_LONG)
  have hg2 := stateBit_readBack hfit hstate (by decide : 1 ≤ 16)
    (by decide : LIMLZ_REP_G2 ≤ LIMLZ_REP_LONG)
  have hlong := stateBit_readBack hfit hstate (Nat.le_refl 16) (Nat.le_refl LIMLZ_REP_LONG)
  simp only [Nat.mul_one, Nat.zero_add, Nat.add_zero] at hfirst hrep hg0 hg1 hg2
  rw [← h.state] at hfirst hrep hg0 hg1 hg2 hlong
  have hstate8 : (if z.state < 7 then 0 else 3) ||| 8 = if c.state < 7 then 8 else 11 := by
    rw [h.state]
    split
    · rfl
    · rfl
  have hlt8 : (if c.state < 7 then 8 else 11) < 12 := by
    split
    · decide
    · decide
  rcases matchRep_cases c m.distance with ⟨hr, hd⟩ | ⟨hr, hd⟩ | ⟨hr, hd⟩ | ⟨hr, hd⟩ | hr
  · -- the last distance, for more than one byte
    have hsame : z.rep0 = m.distance := by rw [h.rep0, hd]
    have hcopies : Copies data pos m.length z.rep0 := by rwa [hsame]
    refine ⟨{ c.useRep 0 m.distance with state := if c.state < 7 then 8 else 11 }, _, fun rc => ?_,
      ?_, follows_copy (z := { z with state := (if z.state < 7 then 0 else 3) ||| 8 }) hcopies
        (by omega) hstate8 hlt8 hsame.symm hsame h.rep1 h.rep2 h.rep3⟩
    · simp [encodeMatch, hr]
    · have hwrite : (fun rc => (encodeMatch m c rc).2) = fun rc =>
          ((((rc.encodeBit (z.state * 16) true).encodeBit (LIMLZ_IS_REP + z.state) true).encodeBit
            (LIMLZ_REP_G0 + z.state) false).encodeBit (LIMLZ_REP_LONG + z.state * 16)
            true).encodeLength LIMLZ_REP_LENGTH 0 m.length := by
        funext rc
        simp [encodeMatch, encodeRep, hr, h.state]
      rw [hwrite]
      refine (hfirst true).bind (g := fun rc => (((rc.encodeBit (LIMLZ_IS_REP + z.state)
        true).encodeBit (LIMLZ_REP_G0 + z.state) false).encodeBit (LIMLZ_REP_LONG + z.state * 16)
        true).encodeLength LIMLZ_REP_LENGTH 0 m.length) ?_
      refine (hrep true).bind (g := fun rc => ((rc.encodeBit (LIMLZ_REP_G0 + z.state)
        false).encodeBit (LIMLZ_REP_LONG + z.state * 16) true).encodeLength LIMLZ_REP_LENGTH 0
        m.length) ?_
      refine (hg0 false).bind (g := fun rc => (rc.encodeBit (LIMLZ_REP_LONG + z.state * 16)
        true).encodeLength LIMLZ_REP_LENGTH 0 m.length) ?_
      refine (hlong true).bind (g := fun rc => rc.encodeLength LIMLZ_REP_LENGTH 0 m.length) ?_
      exact repLength_readBack hfit hlen h.output hcopies hlength
  · have hsame : z.rep1 = m.distance := by rw [h.rep1, hd]
    have hcopies : Copies data pos m.length z.rep1 := by rwa [hsame]
    refine ⟨{ c.useRep 1 m.distance with state := if c.state < 7 then 8 else 11 }, _, fun rc => ?_,
      ?_, follows_copy (z := { z with
        state := (if z.state < 7 then 0 else 3) ||| 8, rep0 := z.rep1, rep1 := z.rep0 }) hcopies
        (by omega) hstate8 hlt8 hsame.symm hsame h.rep0 h.rep2 h.rep3⟩
    · simp [encodeMatch, hr]
    · have hwrite : (fun rc => (encodeMatch m c rc).2) = fun rc =>
          ((((rc.encodeBit (z.state * 16) true).encodeBit (LIMLZ_IS_REP + z.state) true).encodeBit
            (LIMLZ_REP_G0 + z.state) true).encodeBit (LIMLZ_REP_G1 + z.state) false).encodeLength
            LIMLZ_REP_LENGTH 0 m.length := by
        funext rc
        simp [encodeMatch, encodeRep, hr, h.state]
      rw [hwrite]
      refine (hfirst true).bind (g := fun rc => (((rc.encodeBit (LIMLZ_IS_REP + z.state)
        true).encodeBit (LIMLZ_REP_G0 + z.state) true).encodeBit (LIMLZ_REP_G1 + z.state)
        false).encodeLength LIMLZ_REP_LENGTH 0 m.length) ?_
      refine (hrep true).bind (g := fun rc => ((rc.encodeBit (LIMLZ_REP_G0 + z.state)
        true).encodeBit (LIMLZ_REP_G1 + z.state) false).encodeLength LIMLZ_REP_LENGTH 0
        m.length) ?_
      refine (hg0 true).bind (g := fun rc => (rc.encodeBit (LIMLZ_REP_G1 + z.state)
        false).encodeLength LIMLZ_REP_LENGTH 0 m.length) ?_
      refine (hg1 false).bind (g := fun rc => rc.encodeLength LIMLZ_REP_LENGTH 0 m.length) ?_
      exact repLength_readBack hfit hlen h.output hcopies hlength
  · have hsame : z.rep2 = m.distance := by rw [h.rep2, hd]
    have hcopies : Copies data pos m.length z.rep2 := by rwa [hsame]
    refine ⟨{ c.useRep 2 m.distance with state := if c.state < 7 then 8 else 11 }, _, fun rc => ?_,
      ?_, follows_copy (z := { z with
        state := (if z.state < 7 then 0 else 3) ||| 8, rep0 := z.rep2, rep1 := z.rep0,
        rep2 := z.rep1 }) hcopies (by omega) hstate8 hlt8 hsame.symm hsame h.rep0 h.rep1 h.rep3⟩
    · simp [encodeMatch, hr]
    · have hwrite : (fun rc => (encodeMatch m c rc).2) = fun rc =>
          (((((rc.encodeBit (z.state * 16) true).encodeBit (LIMLZ_IS_REP + z.state) true).encodeBit
            (LIMLZ_REP_G0 + z.state) true).encodeBit (LIMLZ_REP_G1 + z.state) true).encodeBit
            (LIMLZ_REP_G2 + z.state) false).encodeLength LIMLZ_REP_LENGTH 0 m.length := by
        funext rc
        simp [encodeMatch, encodeRep, hr, h.state]
      rw [hwrite]
      refine (hfirst true).bind (g := fun rc => ((((rc.encodeBit (LIMLZ_IS_REP + z.state)
        true).encodeBit (LIMLZ_REP_G0 + z.state) true).encodeBit (LIMLZ_REP_G1 + z.state)
        true).encodeBit (LIMLZ_REP_G2 + z.state) false).encodeLength LIMLZ_REP_LENGTH 0
        m.length) ?_
      refine (hrep true).bind (g := fun rc => (((rc.encodeBit (LIMLZ_REP_G0 + z.state)
        true).encodeBit (LIMLZ_REP_G1 + z.state) true).encodeBit (LIMLZ_REP_G2 + z.state)
        false).encodeLength LIMLZ_REP_LENGTH 0 m.length) ?_
      refine (hg0 true).bind (g := fun rc => ((rc.encodeBit (LIMLZ_REP_G1 + z.state)
        true).encodeBit (LIMLZ_REP_G2 + z.state) false).encodeLength LIMLZ_REP_LENGTH 0
        m.length) ?_
      refine (hg1 true).bind (g := fun rc => (rc.encodeBit (LIMLZ_REP_G2 + z.state)
        false).encodeLength LIMLZ_REP_LENGTH 0 m.length) ?_
      refine (hg2 false).bind (g := fun rc => rc.encodeLength LIMLZ_REP_LENGTH 0 m.length) ?_
      exact repLength_readBack hfit hlen h.output hcopies hlength
  · have hsame : z.rep3 = m.distance := by rw [h.rep3, hd]
    have hcopies : Copies data pos m.length z.rep3 := by rwa [hsame]
    refine ⟨{ c.useRep 3 m.distance with state := if c.state < 7 then 8 else 11 }, _, fun rc => ?_,
      ?_, follows_copy (z := { z with
        state := (if z.state < 7 then 0 else 3) ||| 8, rep0 := z.rep3, rep1 := z.rep0,
        rep2 := z.rep1, rep3 := z.rep2 }) hcopies (by omega) hstate8 hlt8 hsame.symm hsame h.rep0 h.rep1
        h.rep2⟩
    · simp [encodeMatch, hr]
    · have hwrite : (fun rc => (encodeMatch m c rc).2) = fun rc =>
          (((((rc.encodeBit (z.state * 16) true).encodeBit (LIMLZ_IS_REP + z.state) true).encodeBit
            (LIMLZ_REP_G0 + z.state) true).encodeBit (LIMLZ_REP_G1 + z.state) true).encodeBit
            (LIMLZ_REP_G2 + z.state) true).encodeLength LIMLZ_REP_LENGTH 0 m.length := by
        funext rc
        simp [encodeMatch, encodeRep, hr, h.state]
      rw [hwrite]
      refine (hfirst true).bind (g := fun rc => ((((rc.encodeBit (LIMLZ_IS_REP + z.state)
        true).encodeBit (LIMLZ_REP_G0 + z.state) true).encodeBit (LIMLZ_REP_G1 + z.state)
        true).encodeBit (LIMLZ_REP_G2 + z.state) true).encodeLength LIMLZ_REP_LENGTH 0
        m.length) ?_
      refine (hrep true).bind (g := fun rc => (((rc.encodeBit (LIMLZ_REP_G0 + z.state)
        true).encodeBit (LIMLZ_REP_G1 + z.state) true).encodeBit (LIMLZ_REP_G2 + z.state)
        true).encodeLength LIMLZ_REP_LENGTH 0 m.length) ?_
      refine (hg0 true).bind (g := fun rc => ((rc.encodeBit (LIMLZ_REP_G1 + z.state)
        true).encodeBit (LIMLZ_REP_G2 + z.state) true).encodeLength LIMLZ_REP_LENGTH 0
        m.length) ?_
      refine (hg1 true).bind (g := fun rc => (rc.encodeBit (LIMLZ_REP_G2 + z.state)
        true).encodeLength LIMLZ_REP_LENGTH 0 m.length) ?_
      refine (hg2 true).bind (g := fun rc => rc.encodeLength LIMLZ_REP_LENGTH 0 m.length) ?_
      exact repLength_readBack hfit hlen h.output hcopies hlength
  · -- a new distance
    have hcopy := copy_take (z := { z with
      state := (if z.state < 7 then 0 else 3) + 7, rep0 := m.distance, rep1 := z.rep0,
      rep2 := z.rep1, rep3 := z.rep2 }) hlen h.output hm (by omega)
    have hstate7 : (if z.state < 7 then 0 else 3) + 7 = if c.state < 7 then 7 else 10 := by
      rw [h.state]
      split
      · rfl
      · rfl
    have h1 := hm.distance_le
    have h2 := hm.end_le
    have hlength' := length_readBack hfit (by decide : LIMLZ_LENGTH + LENGTH_HIGH + LENGTH_HIGH_SIZE
      ≤ PROBS) hlength hm.length_le
    have hdistance := distance_readBack hfit hlength hm.length_le hm.distance_pos (by omega)
    refine ⟨{ c.useRep 3 m.distance with state := if c.state < 7 then 7 else 10 }, _, fun rc => ?_,
      ?_, follows_copy (z := { z with
        state := (if z.state < 7 then 0 else 3) + 7, rep0 := m.distance, rep1 := z.rep0,
        rep2 := z.rep1, rep3 := z.rep2 }) hm (by omega) hstate7 ?_ rfl rfl h.rep0 h.rep1 h.rep2⟩
    · simp [encodeMatch, hr]
    · have hwrite : (fun rc => (encodeMatch m c rc).2) = fun rc =>
          (((rc.encodeBit (z.state * 16) true).encodeBit (LIMLZ_IS_REP + z.state)
            false).encodeLength LIMLZ_LENGTH 0 m.length).encodeDistance m.length m.distance := by
        funext rc
        simp [encodeMatch, hr, h.state]
      rw [hwrite]
      refine (hfirst true).bind (g := fun rc => ((rc.encodeBit (LIMLZ_IS_REP + z.state)
        false).encodeLength LIMLZ_LENGTH 0 m.length).encodeDistance m.length m.distance) ?_
      refine (hrep false).bind (g := fun rc => (rc.encodeLength LIMLZ_LENGTH 0
        m.length).encodeDistance m.length m.distance) ?_
      refine hlength'.bind (g := fun rc => rc.encodeDistance m.length m.distance) ?_
      exact hdistance.bind_pure (Codes.lift hcopy)
    · show (if c.state < 7 then 7 else 10) < 12
      split
      · decide
      · decide

/-! ## The main loops -/

/-- One turn of either loop, whatever the choice. -/
theorem choice_readBack (hfit : s.address + s.bytes.length < 2 ^ 32)
    (hlen : l.output + data.length < 2 ^ 32) {c : Context} {z : Lz} {choices : Nat → Match}
    (hchoice : ValidChoice data pos (choices pos)) (h : Follows data pos c z)
    (hlt : pos < data.length) :
    ∃ f c' z' pos', ReadBack s f (symbol l s data.length z) z' ∧ Follows data pos' c' z' ∧
      pos < pos' ∧ pos' ≤ data.length ∧ ∀ fuel rc,
        compressLoop data choices (fuel + 1) pos c rc =
          compressLoop data choices fuel pos' c' (f rc) := by
  by_cases hsingle : (choices pos).length < 2
  · obtain ⟨c', z', hc', hread, hfollows⟩ := encodeSingle_readBack hfit hlen h hlt
    refine ⟨_, c', z', pos + 1, hread, hfollows, Nat.lt_succ_self pos, hlt, fun fuel rc => ?_⟩
    rw [compressLoop, if_pos hlt]
    dsimp only
    rw [if_pos hsingle, hc' rc]
  · have hcopies := hchoice.resolve_left hsingle
    have hlength := Nat.not_lt.mp hsingle
    obtain ⟨c', z', hc', hread, hfollows⟩ := encodeMatch_readBack hfit hlen h hcopies hlength
    refine ⟨_, c', z', pos + (choices pos).length, hread, hfollows, by omega, hcopies.end_le,
      fun fuel rc => ?_⟩
    rw [compressLoop, if_pos hlt]
    dsimp only
    rw [if_neg hsingle, hc' rc]

/-- **The decoder's loop reads what the encoder's loop writes.** -/
theorem compressLoop_reads (hfit : s.address + s.bytes.length < 2 ^ 32)
    (hlen : l.output + data.length < 2 ^ 32) {choices : Nat → Match}
    (hchoices : ∀ pos, ValidChoice data pos (choices pos)) (fuel : Nat) :
    ∀ pos (c : Context) (z : Lz), Follows data pos c z → pos ≤ data.length →
      data.length < pos + fuel →
      ∃ es z', (∀ rc, compressLoop data choices fuel pos c rc = some (rc.encodeAll es)) ∧
        Reads (Ready s) es (next l s data.length fuel z) z' ∧ z'.output = data := by
  induction fuel with
  | zero =>
    intro pos c z _ hle hfuel
    omega
  | succ fuel ih =>
    intro pos c z h hle hfuel
    have hedi : z.edi l = l.output + pos := by
      rw [Lz.edi, h.output, length_take_of_le hle]
    by_cases hlt : pos < data.length
    · obtain ⟨f, c', z', pos', ⟨es, hf, hread⟩, hfollows, hmore, hle', hloop⟩ :=
        choice_readBack hfit hlen (hchoices pos) h hlt
      obtain ⟨es', z'', hloop', hread', hout⟩ := ih pos' c' z' hfollows hle' (by omega)
      refine ⟨es ++ es', z'', fun rc => ?_, ?_, hout⟩
      · rw [hloop, hf, hloop', encodeAll_append]
        rfl
      · rw [next, hedi, if_neg (by omega)]
        exact hread.bind hread'
    · obtain rfl : pos = data.length := by omega
      refine ⟨[], z, fun rc => ?_, ?_, ?_⟩
      · rw [compressLoop, if_neg hlt]
        rfl
      · rw [next, hedi, if_pos rfl]
        exact Reads.pure z
      · rw [h.output, List.take_length]

/-- Every choice moves on, so the loop of the encoder ends. -/
theorem compressLoop_ends {choices : Nat → Match}
    (hchoices : ∀ pos, ValidChoice data pos (choices pos)) (fuel : Nat) :
    ∀ pos c rc, pos ≤ data.length → data.length < pos + fuel →
      ∃ rc', compressLoop data choices fuel pos c rc = some rc' := by
  induction fuel with
  | zero =>
    intro pos c rc hle hfuel
    omega
  | succ fuel ih =>
    intro pos c rc hle hfuel
    rw [compressLoop]
    split
    · next hlt =>
      dsimp only
      split
      · exact ih _ _ _ hlt (by omega)
      · next hmatch =>
        have hcopies := (hchoices pos).resolve_left hmatch
        exact ih _ _ _ hcopies.end_le (by omega)
    · exact ⟨rc, rfl⟩

theorem follows_start (data : List UInt8) :
    Follows data 0 ⟨0, 1, 1, 1, 1⟩ Lz.start where
  output := rfl
  ebx := rfl
  state := rfl
  rep0 := rfl
  rep1 := rfl
  rep2 := rfl
  rep3 := rfl
  state_lt := by decide
  reps0_pos := Nat.le_refl 1
  reps0_le := fun h => absurd h (by decide)

/-! ## The header -/

/-- The encoder after the header. -/
def RangeEncoder.withHeader (checksum size : Nat) : RangeEncoder :=
  (RangeEncoder.start.put32 checksum).put32 size

theorem withHeader_data (checksum size : Nat) :
    (withHeader checksum size).data = leBytes 4 checksum ++ leBytes 4 size := rfl

theorem withHeader_live (checksum size : Nat) : (withHeader checksum size).Live (2 ^ 24) where
  header := by simp [withHeader_data, LIMLZ_HEADER_SIZE]
  pending := Nat.le_refl 1
  cache := show 0 < 256 by decide
  low := show 0 < 2 ^ 33 by decide
  full := fun _ => show 0 < 2 ^ 32 by decide
  range_ge := show 2 ^ 24 ≤ 2 ^ 32 - 1 by decide
  range_lt := show 2 ^ 32 - 1 < 2 ^ 32 by decide
  high_le := show 0 + (2 ^ 32 - 1) ≤ 2 ^ 33 by decide
  high_full := fun _ => show 0 + (2 ^ 32 - 1) ≤ 2 ^ 32 by decide
  probs := fun _ => show 31 ≤ 1024 ∧ 1024 ≤ 2017 by decide

theorem read32_header {checksum size : Nat} (hchecksum : checksum < 2 ^ 32) (hsize : size < 2 ^ 32)
    (rest : List UInt8) :
    read32 (leBytes 4 checksum ++ leBytes 4 size ++ rest) 0 = checksum ∧
      read32 (leBytes 4 checksum ++ leBytes 4 size ++ rest) 4 = size := by
  have hbytes : ∀ x < 2 ^ 32, (UInt8.ofNat (x % 256)).toNat +
      (UInt8.ofNat (x / 256 % 256)).toNat * 2 ^ 8 +
      (UInt8.ofNat (x / 256 / 256 % 256)).toNat * 2 ^ 16 +
      (UInt8.ofNat (x / 256 / 256 / 256 % 256)).toNat * 2 ^ 24 = x := by
    intro x hx
    rw [UInt8.toNat_ofNat', UInt8.toNat_ofNat', UInt8.toNat_ofNat', UInt8.toNat_ofNat']
    omega
  exact ⟨hbytes checksum hchecksum, hbytes size hsize⟩

/-- The five bytes `_start` looks at: a zero and the code. -/
theorem beNat_five {bs : List UInt8} (h : 5 ≤ bs.length) :
    beNat (bs.take 5) = (byteAt bs 0).toNat * 2 ^ 32 + ((byteAt bs 1).toNat * 2 ^ 24 +
      (byteAt bs 2).toNat * 2 ^ 16 + (byteAt bs 3).toNat * 2 ^ 8 + (byteAt bs 4).toNat) := by
  match bs, h with
  | b0 :: b1 :: b2 :: b3 :: b4 :: _, _ =>
    simp [beNat, byteAt]
    omega

theorem withHeader_interval (checksum size : Nat) :
    (withHeader checksum size).interval = ⟨0, 2 ^ 32 - 1, 5⟩ := by
  have hsoFar : (withHeader checksum size).soFar = [0] := by
    rw [soFar, body, withHeader_data, List.drop_eq_nil_of_le (by simp [LIMLZ_HEADER_SIZE])]
    rfl
  show Interval.mk (beNat (withHeader checksum size).soFar * 2 ^ 32 + 0) (2 ^ 32 - 1)
    ((withHeader checksum size).soFar.length + 4) = _
  rw [hsoFar]
  simp [beNat]

/-- What the decoder starts with is where the events begin. -/
theorem start_ready (hfit : s.address + s.bytes.length < 2 ^ 32) {checksum size : Nat}
    {es : List Event}
    (hbytes : s.bytes = ((withHeader checksum size).encodeAll es).flush.data) :
    STREAM_MIN_SIZE ≤ s.bytes.length ∧ byteAt s.bytes 8 = 0 ∧
      Ready s es (RangeDecoder.start s ((byteAt s.bytes 9).toNat * 2 ^ 24 +
        (byteAt s.bytes 10).toNat * 2 ^ 16 + (byteAt s.bytes 11).toNat * 2 ^ 8 +
        (byteAt s.bytes 12).toNat)) := by
  have hlive := withHeader_live checksum size
  obtain ⟨-, ⟨hdigits, -, hhigh⟩, -⟩ := RangeEncoder.encodeAll_spec es hlive
  have hbody : ((withHeader checksum size).encodeAll es).flush.body = s.bytes.drop 8 :=
    congrArg (List.drop 8) hbytes.symm
  rw [withHeader_interval, hbody] at hdigits hhigh
  dsimp only at hdigits hhigh
  have hfive := beNat_five hdigits
  have hdrop : ∀ i, byteAt (s.bytes.drop 8) i = byteAt s.bytes (8 + i) := by
    intro i
    simp [byteAt, List.getElem?_drop]
  rw [hdrop, hdrop, hdrop, hdrop, hdrop] at hfive
  rw [List.length_drop] at hdigits
  have hfirst : byteAt s.bytes 8 = 0 := by
    apply UInt8.toNat_inj.mp
    show (byteAt s.bytes (8 + 0)).toNat = 0
    omega
  have hhigh' : ∀ code, (RangeDecoder.start s code).rangeHigh ≠ 0 := fun _ =>
    show (2 ^ 32 - 1) / 2 ^ 24 % 2 ^ 8 ≠ 0 by decide
  refine ⟨by simp only [STREAM_MIN_SIZE, LIMLZ_HEADER_SIZE]; omega, hfirst,
    _, hlive, hbytes, _, normalise_of_high (hhigh' _), rfl, ?_, ?_, rfl⟩
  · rw [withHeader_interval]
    show _ = beNat ((s.bytes.drop 8).take 5) - 0
    rw [hfive, Nat.add_zero, hfirst]
    show _ = 0 * 2 ^ 32 + _ - 0
    rw [Nat.zero_mul, Nat.zero_add, Nat.sub_zero]
    rfl
  · exact Nat.mod_eq_of_lt (by simp only [STREAM_MIN_SIZE, LIMLZ_HEADER_SIZE]; omega)

/-- At the end the code is 0 and the stream is used up. -/
theorem finish_ok (hfit : s.address + s.bytes.length < 2 ^ 32) {d : RangeDecoder}
    (hready : Ready s [] d) {z : Lz} {x : List UInt8}
    (hscan : bcjScan l (z.output.length + 1) z.output l.output (l.output - BCJ_OPERAND_SIZE) 0 =
      .ok x) :
    ∃ d', finish l s (crc32 x).toNat z d = .ok ({ z with output := x }, d') ∧ d'.code = 0 ∧
      d'.source = s.sourceEnd := by
  obtain ⟨d', hnormalise, hcode, hsource⟩ := ready_nil hfit hready
  refine ⟨d', ?_, hcode, hsource⟩
  show normalise s d >>= _ = _
  rw [hnormalise, ok_bind]
  show (if d'.code ≠ 0 then _ else _ : Decode Lz) d' = _
  rw [if_neg (not_not.mpr hcode)]
  show (if d'.source ≠ s.sourceEnd then _ else _ : Decode Lz) d' = _
  rw [if_neg (not_not.mpr hsource)]
  show (liftM (bcjScan l _ _ _ _ _) >>= _ : Decode Lz) d' = _
  rw [hscan]
  show (if (crc32 x).toNat ≠ (crc32 x).toNat then _ else _ : Decode Lz) d' = _
  rw [if_neg (not_not.mpr rfl)]
  rfl

/-! ## The round trip -/

/-- The header is what `_start` takes it for. -/
theorem decompress_eq {checksum size : Nat} (hchecksum : checksum < 2 ^ 32)
    (hsize : size ≤ l.capacity) {es : List Event}
    (hbytes : s.bytes = ((withHeader checksum size).encodeAll es).flush.data)
    (hfit : s.address + s.bytes.length < 2 ^ 32) :
    ∃ d, Ready s es d ∧ decompress l s = decode l s size checksum d := by
  have hl := l.lt
  have hlive := withHeader_live checksum size
  obtain ⟨hmin, hfirst, hready⟩ := start_ready hfit hbytes
  have hmin' : 13 ≤ s.bytes.length := hmin
  have hsplit : s.bytes = leBytes 4 checksum ++ leBytes 4 size ++ s.bytes.drop 8 := by
    have htake := (RangeEncoder.encodeAll_spec es hlive).2.2
    rw [← hbytes, withHeader_data, List.take_of_length_le (l := _ ++ _)
      (by simp [LIMLZ_HEADER_SIZE])] at htake
    rw [← htake]
    exact (List.take_append_drop 8 s.bytes).symm
  obtain ⟨h0, h4⟩ := read32_header hchecksum (by omega : size < 2 ^ 32) (s.bytes.drop 8)
  rw [← hsplit] at h0 h4
  refine ⟨_, hready, ?_⟩
  unfold decompress
  rw [if_neg (Nat.not_lt.mpr hmin), LIMLZ_HEADER_SIZE, read_at (by omega), read32_at (by omega),
    read32_at (by omega), read_at (by omega), read_at (by omega), read_at (by omega),
    read_at (by omega), ← byteAt_eq_getElem, ← byteAt_eq_getElem, ← byteAt_eq_getElem,
    ← byteAt_eq_getElem, ← byteAt_eq_getElem, hfirst, h0, h4]
  rw [ok_bind, if_neg (by decide), ok_bind, if_neg (Nat.not_lt.mpr hsize), ok_bind, ok_bind,
    ok_bind, ok_bind, ok_bind]

/-- The decompressor hands over what the compressor was given, with the whole stream read. -/
theorem limlz_round_trip (l : Layout) (x : List UInt8) (hx : x.length ≤ l.capacity) :
    ∃ bytes, compress x = some bytes ∧
      ∀ s : Stream, s.bytes = bytes → s.address + bytes.length < 2 ^ 32 →
        ∃ z d, decompress l s = .ok (z, d) ∧ z.output = x ∧ d.code = 0 ∧
          d.source = s.sourceEnd := by
  have hl := l.lt
  obtain ⟨f, hf, hflen, hscan⟩ := bcjScan_bcjEncode (show l.output + x.length < 2 ^ 32 by omega)
  obtain ⟨rc, hloop⟩ := compressLoop_ends (parse_valid f) (f.length + 1) 0 ⟨0, 1, 1, 1, 1⟩
    (withHeader (crc32 x).toNat f.length) (Nat.zero_le _) (by omega)
  have hcompress : compress x = some rc.flush.data := by
    unfold compress
    rw [hf]
    show (compressLoop f _ _ _ _ (withHeader (crc32 x).toNat f.length) >>= _) = _
    rw [hloop]
    rfl
  refine ⟨_, hcompress, fun s hs hfit => ?_⟩
  rw [← hs] at hfit
  obtain ⟨es, z, hes, hnext, hout⟩ := compressLoop_reads (l := l) hfit (by omega) (parse_valid f)
    (f.length + 1) 0 _ _ (follows_start f) (Nat.zero_le _) (by omega)
  rw [hes] at hloop
  rw [← Option.some.inj hloop] at hs
  obtain ⟨d, hready, hstart⟩ := decompress_eq (l := l) (crc32 x).toNat_lt (by omega) hs hfit
  obtain ⟨d', hrun, hready'⟩ := hnext d [] (by rwa [List.append_nil])
  rw [← hout] at hscan
  obtain ⟨d'', hfinish, hcode, hsource⟩ := finish_ok hfit hready' hscan
  refine ⟨{ z with output := x }, d'', ?_, rfl, hcode, hsource⟩
  rw [hstart]
  show next l s f.length (f.length + 1) Lz.start d >>= _ = _
  rw [hrun]
  exact hfinish

/-- Three equal bytes, of which two are a match, from where the boot sector loads them. -/
theorem limlz_round_trip_run :
    ∃ s : Stream, s.address = 0x70000 ∧
      s.bytes = [45, 115, 7, 240, 3, 0, 0, 0, 0, 48, 232, 188, 0, 0, 0] ∧
      ∃ z d, decompress Layout.stage1 s = .ok (z, d) ∧ z.output = [0x61, 0x61, 0x61] ∧
        d.code = 0 ∧ d.source = s.sourceEnd := by
  obtain ⟨bytes, hbytes, hrun⟩ := limlz_round_trip Layout.stage1 [0x61, 0x61, 0x61] (by decide)
  have hcompress : compress [0x61, 0x61, 0x61] =
      some [45, 115, 7, 240, 3, 0, 0, 0, 0, 48, 232, 188, 0, 0, 0] := by decide +kernel
  cases Option.some.inj (hbytes.symm.trans hcompress)
  exact ⟨⟨0x70000, _, by decide, by decide⟩, rfl, rfl, hrun _ rfl (by decide)⟩

end Limine.Limlz
