import Limine.Lib.Triple
import Limine.Limlz.Bcj

/-!
# The decompressor on arbitrary input

No stream makes the decompressor fault or loop.  Nothing is assumed of the code value: the indices
stay in bounds because the trees have the depth they have, and the reads from the output because
`copy` checks a distance before a state that relies on it is reached.
-/

namespace Limine.Limlz

open Lib

/-- `SOURCE` points into the stream, or just past it. -/
def RangeDecoder.Within (s : Stream) (d : RangeDecoder) : Prop :=
  ∃ k ≤ s.bytes.length, d.source = (s.address + k) % 2 ^ 32

/-- Whatever the code reads, `x` ends with `post` or at `error`. -/
abbrev Safe {α : Type} (s : Stream) (x : Decode α) (post : α → Prop) : Prop :=
  Keeps (RangeDecoder.Within s) IsError x post

variable {s : Stream}

/-! ## The range decoder -/

theorem read_at {k : Nat} (hk : k < s.bytes.length) :
    s.read ((s.address + k) % 2 ^ 32) = .ok s.bytes[k].toNat := by
  have ha := s.address_lt
  have hl := s.size_lt
  have : sub32 ((s.address + k) % 2 ^ 32) s.address = k := by
    unfold sub32
    omega
  unfold Stream.read
  rw [this, List.getElem?_eq_getElem hk]

theorem normalise_safe : Safe s (normalise s) fun _ => True := by
  rintro d ⟨k, hk, hsource⟩
  unfold normalise
  split
  · exact ⟨trivial, k, hk, hsource⟩
  split
  · rfl
  next hlt =>
  have hk' : k < s.bytes.length := by
    rcases Nat.lt_or_eq_of_le hk with hlt' | rfl
    · exact hlt'
    · rw [hsource] at hlt
      exact absurd (Nat.le_refl _) hlt
  rw [hsource, read_at hk']
  refine ⟨trivial, k + 1, hk', ?_⟩
  show ((s.address + k) % 2 ^ 32 + 1) % 2 ^ 32 = _
  omega

theorem bitReady_safe {esi : Nat} (h : esi < PROBS) : Safe s (bitReady esi) fun _ => True := by
  intro d hd
  unfold bitReady
  rw [if_pos h]
  dsimp only
  split
  · exact ⟨trivial, hd⟩
  · exact ⟨trivial, hd⟩

theorem bit_safe {esi : Nat} (h : esi < PROBS) : Safe s (bit s esi) fun _ => True := by
  apply Keeps.get_bind
  intro d hd
  split
  · exact normalise_safe.bind fun _ _ => bitReady_safe h
  · exact bitReady_safe h

/-- With `ecx` levels to go below the node `esi`, the last index is that of the rightmost leaf's
parent. -/
theorem treeLoop_safe {ebx : Nat} (ecx : Nat) : ∀ esi,
    2 * ebx + (esi + 1) * 2 ^ ecx ≤ 2 * PROBS →
    Safe s (treeLoop s ebx ecx esi) fun r =>
      esi * 2 ^ ecx ≤ r ∧ r < (esi + 1) * 2 ^ ecx := by
  induction ecx with
  | zero =>
    intro esi _
    exact Keeps.pure (by omega)
  | succ ecx ih =>
    intro esi h
    rw [Nat.pow_succ] at h ⊢
    have hpos := Nat.two_pow_pos ecx
    have hle : esi + 1 ≤ (esi + 1) * 2 ^ ecx := Nat.le_mul_of_pos_right _ hpos
    have hesi : ebx + esi < PROBS := by
      rw [← Nat.mul_assoc] at h
      omega
    apply (bit_safe hesi).bind
    rintro cf -
    have hcf : cf.toNat ≤ 1 := Bool.toNat_le cf
    have hup : (esi + esi + cf.toNat + 1) * 2 ^ ecx ≤ (esi + 1) * (2 ^ ecx * 2) := by
      rw [Nat.mul_comm (2 ^ ecx), ← Nat.mul_assoc]
      exact Nat.mul_le_mul_right _ (by omega)
    have hlow : esi * (2 ^ ecx * 2) ≤ (esi + esi + cf.toNat) * 2 ^ ecx := by
      rw [Nat.mul_comm (2 ^ ecx), ← Nat.mul_assoc]
      exact Nat.mul_le_mul_right _ (by omega)
    apply (ih (esi + esi + cf.toNat) (by omega)).imp
    rintro r ⟨h1, h2⟩
    exact ⟨by omega, by omega⟩

theorem tree_safe {ebx ecx : Nat} (h : ebx + 2 ^ ecx ≤ PROBS) :
    Safe s (tree s ebx ecx) fun r => 2 ^ ecx ≤ r ∧ r < 2 * 2 ^ ecx :=
  (treeLoop_safe ecx 1 (by omega)).imp fun r hr => by omega

theorem length_safe {esi : Nat} (h : esi + LENGTH_HIGH + LENGTH_HIGH_SIZE ≤ PROBS) :
    Safe s (length s esi 0) fun r => 1 ≤ r := by
  have hle : esi + 514 ≤ PROBS := h
  apply (bit_safe (by omega)).bind
  rintro cf -
  refine Keeps.ite (fun _ => ?_) fun _ => ?_
  · apply (tree_safe (by simp only [LENGTH_LOW, LENGTH_LOW_BITS]; omega)).bind
    rintro r ⟨h1, h2⟩
    apply Keeps.pure
    simp only [LENGTH_LOW_BITS, sub32, MATCH_MIN, LENGTH_LOW_SIZE] at h1 h2 ⊢
    omega
  apply (bit_safe (by omega)).bind
  rintro cf -
  refine Keeps.ite (fun _ => ?_) fun _ => ?_
  · apply (tree_safe (by simp only [LENGTH_LOW, LENGTH_MID, LENGTH_LOW_BITS]; omega)).bind
    rintro r ⟨h1, h2⟩
    apply Keeps.pure
    simp only [LENGTH_LOW_BITS, sub32, MATCH_MIN, LENGTH_LOW_SIZE, LENGTH_MID_SIZE] at h1 h2 ⊢
    omega
  · apply (tree_safe (by simp only [LENGTH_HIGH, LENGTH_HIGH_BITS]; omega)).bind
    rintro r ⟨h1, h2⟩
    apply Keeps.pure
    simp only [LENGTH_HIGH_BITS, sub32, MATCH_MIN, LENGTH_LOW_SIZE, LENGTH_MID_SIZE,
      LENGTH_HIGH_SIZE] at h1 h2 ⊢
    omega

theorem directBit_safe : Safe s (directBit s) fun _ => True := by
  apply normalise_safe.bind
  rintro - -
  apply Keeps.get_bind
  intro d hd
  dsimp only
  split
  · exact Keeps.set_bind hd (Keeps.pure trivial)
  · exact Keeps.set_bind hd (Keeps.pure trivial)

theorem direct_safe : ∀ ecx ebx, ALIGN_BITS < ecx → Safe s (direct s ecx ebx) fun _ => True := by
  intro ecx
  induction ecx with
  | zero => exact fun _ h => absurd h (Nat.not_lt_zero _)
  | succ ecx ih =>
    intro ebx h
    apply directBit_safe.bind
    rintro cf -
    refine Keeps.ite (fun _ => Keeps.pure trivial) fun hne => ?_
    exact ih _ (by omega)

theorem reverseValue_ends (fuel : Nat) : ∀ esi ecx, esi < 2 ^ (fuel + 1) →
    Ends IsError (reverseValue (fuel + 1) esi ecx) fun _ => True := by
  induction fuel with
  | zero =>
    intro esi ecx h
    rw [reverseValue, if_pos (by omega)]
    trivial
  | succ fuel ih =>
    intro esi ecx h
    rw [reverseValue]
    split
    · trivial
    · exact ih _ _ (by omega)

theorem reverse_safe {edx ecx : Nat} (h : edx + 2 ^ ecx ≤ PROBS) (hecx : ecx ≤ 30) :
    Safe s (reverse s edx ecx) fun _ => True := by
  apply (treeLoop_safe ecx 1 (by omega)).bind
  rintro r ⟨-, hr⟩
  have := Nat.pow_le_pow_right (by decide : 0 < 2) hecx
  exact Keeps.lift (reverseValue_ends 31 r 0 (by omega))

theorem slotDistance_safe {esi : Nat} (hesi : esi < 64) :
    Safe s (slotDistance s esi) fun _ => True := by
  refine Keeps.ite (fun _ => Keeps.pure trivial) fun hstart => ?_
  have hor : esi % 2 ||| 2 < 2 ^ 2 := Nat.or_lt_two_pow (by omega) (by decide)
  refine Keeps.ite (fun hend => ?_) fun hend => ?_
  · have hecx : esi / 2 - 1 ≤ 5 := by
      simp only [SLOT_MODEL_END] at hend
      omega
    have hpow : 2 ^ (esi / 2 - 1) ≤ 2 ^ 5 := Nat.pow_le_pow_right (by decide) hecx
    have hprod := Nat.mul_le_mul (Nat.le_of_lt_succ hor) hpow
    have hsum : (esi % 2 ||| 2) * 2 ^ (esi / 2 - 1) - esi + (LIMLZ_SPECIAL - 1)
        + 2 ^ (esi / 2 - 1) ≤ PROBS := by
      rw [PROBS_eq]
      simp only [LIMLZ_SPECIAL]
      omega
    exact (reverse_safe hsum (by omega)).bind fun _ _ => Keeps.pure trivial
  · have hecx : ALIGN_BITS < esi / 2 - 1 := by
      simp only [SLOT_MODEL_END, ALIGN_BITS] at hend ⊢
      omega
    apply (direct_safe _ _ hecx).bind
    intro _ _
    exact (reverse_safe (by decide) (by decide)).bind fun _ _ => Keeps.pure trivial

theorem distance_safe {length : Nat} : Safe s (distance s length) fun _ => True := by
  have hmin := Nat.min_le_right (sub32 length MATCH_MIN) (LENGTH_STATES - 1)
  unfold distance
  dsimp only
  generalize min (sub32 length MATCH_MIN) (LENGTH_STATES - 1) = ebx at hmin
  have hebx : ebx ≤ 3 := hmin
  have hslot : ebx * 2 ^ SLOT_BITS + LIMLZ_SLOT + 2 ^ SLOT_BITS ≤ PROBS := by
    rw [PROBS_eq]
    simp only [SLOT_BITS, LIMLZ_SLOT]
    omega
  apply (tree_safe hslot).bind
  rintro r ⟨-, hr⟩
  apply slotDistance_safe
  simp only [SLOT_BITS] at hr ⊢
  omega

/-! ## Literals -/

theorem literalLoop_safe {ecx : Nat} (hecx : ecx + LITERAL_CONTEXT_SIZE ≤ PROBS) (fuel : Nat) :
    ∀ edx bh bl, bh ≤ 1 → bl < 2 ^ 8 → 2 ^ 8 ≤ bl * 2 ^ fuel →
      Safe s (literalLoop s ecx fuel edx bh bl) fun _ => True := by
  induction fuel with
  | zero =>
    intro edx bh bl _ hbl h
    omega
  | succ fuel ih =>
    intro edx bh bl hbh hbl h
    have hand : (bh * 2 ^ 8 + bl) &&& edx * 2 &&& LITERAL_MATCH_BIT ≤ LITERAL_MATCH_BIT :=
      Nat.and_le_right
    simp only [LITERAL_CONTEXT_SIZE, LITERAL_MATCH_BIT] at hecx hand
    apply (bit_safe (by simp only [LITERAL_MATCH_BIT]; omega)).bind
    rintro cf -
    have hcf : cf.toNat ≤ 1 := Bool.toNat_le cf
    refine Keeps.ite (fun _ => Keeps.pure trivial) fun hsum => ?_
    apply ih
    · split
      · exact hbh
      · exact Nat.zero_le _
    · omega
    · calc 2 ^ 8 ≤ bl * 2 * 2 ^ fuel := by rwa [Nat.mul_assoc, ← Nat.pow_succ']
        _ ≤ (bl + bl + cf.toNat) * 2 ^ fuel := Nat.mul_le_mul_right _ (by omega)

/-- What holds at `next`: in the states after a match the last distance can be used again. -/
structure Lz.Valid (size : Nat) (z : Lz) : Prop where
  state_lt : z.state < 12
  length_le : z.output.length ≤ size
  rep0_pos : 7 ≤ z.state → 1 ≤ z.rep0
  rep0_le : 7 ≤ z.state → z.rep0 ≤ z.output.length

variable {l : Layout} {size : Nat}

theorem readOutput_ends {output : List UInt8} {i : Nat} (h : i < output.length) :
    Ends IsError (readOutput l output (l.output + i)) fun _ => True := by
  rw [readOutput_at h]
  trivial

theorem writeOutput_ends {output : List UInt8} {b : UInt8} (h : output.length < size) :
    Ends IsError (writeOutput size output b) fun r => r.length = output.length + 1 := by
  unfold writeOutput
  rw [if_pos h]
  exact List.length_append

theorem literalState_lt {state : Nat} (h : state < 12) : literalState state < 7 := by
  unfold literalState
  grind

theorem literal_safe (hcap : size ≤ l.capacity) {z : Lz} (hz : z.Valid size)
    (hlt : z.output.length < size) :
    Safe s (literal l s size z) fun z' => z'.Valid size ∧ z.output.length < z'.output.length := by
  have hl := l.lt
  have hecx : z.ebx.toNat / 2 ^ (8 - 2) * LITERAL_CONTEXT_SIZE + LIMLZ_LITERAL
      + LITERAL_CONTEXT_SIZE ≤ PROBS := by
    have := z.ebx.toNat_lt
    rw [PROBS_eq]
    simp only [LITERAL_CONTEXT_SIZE, LIMLZ_LITERAL]
    omega
  have hbyte : Safe s (literalByte l s z) fun _ => True := by
    refine Keeps.ite (fun _ => ?_) fun hstate => ?_
    · exact literalLoop_safe hecx 8 _ _ _ (by decide) (by decide) (by decide)
    · have h1 := hz.rep0_pos (by omega)
      have h2 := hz.rep0_le (by omega)
      have hsub : sub32 (z.edi l) z.rep0 = l.output + (z.output.length - z.rep0) := by
        rw [sub32_of_le]
        · unfold Lz.edi
          omega
        · unfold Lz.edi
          omega
        · unfold Lz.edi
          omega
      rw [hsub]
      apply (Keeps.lift (readOutput_ends (by omega))).bind
      intro edx _
      exact literalLoop_safe hecx 8 _ _ _ (by decide) (by decide) (by decide)
  apply hbyte.bind
  intro b _
  apply (Keeps.lift (writeOutput_ends hlt)).bind
  intro output hlen
  apply Keeps.pure
  have hstate := literalState_lt hz.state_lt
  refine ⟨⟨?_, ?_, fun h => ?_, fun h => ?_⟩, ?_⟩
  · show literalState z.state < 12
    omega
  · show output.length ≤ size
    omega
  · exact absurd hstate (Nat.not_lt.mpr h)
  · exact absurd hstate (Nat.not_lt.mpr h)
  · show z.output.length < output.length
    omega

/-! ## Matches -/

theorem stosb_ends {al : UInt8} (ecx : Nat) : ∀ output : List UInt8,
    output.length + ecx ≤ size →
    Ends IsError (stosb size al ecx output) fun r => r.length = output.length + ecx := by
  induction ecx with
  | zero => exact fun _ _ => rfl
  | succ ecx ih =>
    intro output h
    apply (writeOutput_ends (by omega)).bind
    intro output' hlen
    apply (ih output' (by omega)).imp
    intro r hr
    omega

theorem movsb_ends (ecx : Nat) : ∀ (i : Nat) (output : List UInt8), i < output.length →
    output.length + ecx ≤ size →
    Ends IsError (movsb l size ecx (l.output + i) output) fun r =>
      r.length = output.length + ecx := by
  induction ecx with
  | zero => exact fun _ _ _ _ => rfl
  | succ ecx ih =>
    intro i output hi h
    apply (readOutput_ends hi).bind
    rintro al -
    apply (writeOutput_ends (by omega)).bind
    intro output' hlen
    apply (ih (i + 1) output' (by omega) (by omega)).imp
    intro r hr
    omega

theorem copy_ends (hcap : size ≤ l.capacity) {z : Lz} {ecx : Nat} (hstate : z.state < 12)
    (hlen : z.output.length ≤ size) (hecx : 1 ≤ ecx) :
    Ends IsError (copy l size z ecx) fun z' =>
      z'.Valid size ∧ z.output.length < z'.output.length := by
  have hl := l.lt
  unfold copy Lz.edi
  dsimp only
  split
  · exact Ends.error rfl
  split
  · exact Ends.error rfl
  split
  · exact Ends.error rfl
  split
  · exact Ends.error rfl
  next h1 h2 h3 h4 =>
  rw [sub32_of_le (by omega) (by omega)] at h4
  obtain ⟨i, hi⟩ : ∃ i, l.output + z.output.length - z.rep0 = l.output + i :=
    ⟨z.output.length - z.rep0, by omega⟩
  have hilt : i < z.output.length := by omega
  have hgrown : ∀ output : List UInt8, output.length = z.output.length + ecx →
      Ends IsError (readOutput l output (l.output + output.length - 1) >>= fun ebx =>
        pure { z with output, ebx }) fun z' =>
          z'.Valid size ∧ z.output.length < z'.output.length := by
    intro output ho
    rw [Nat.add_sub_assoc (by omega)]
    apply (readOutput_ends (by omega)).bind
    rintro ebx -
    refine ⟨⟨hstate, ?_, fun _ => ?_, fun _ => ?_⟩, ?_⟩
    · show output.length ≤ size
      omega
    · show 1 ≤ z.rep0
      omega
    · show z.rep0 ≤ output.length
      omega
    · show z.output.length < output.length
      omega
  rw [hi]
  split
  · apply (readOutput_ends hilt).bind
    rintro al -
    exact (stosb_ends ecx z.output (by omega)).bind hgrown
  · exact (movsb_ends ecx i z.output hilt (by omega)).bind hgrown

theorem matchSymbol_safe (hcap : size ≤ l.capacity) {z : Lz} (hz : z.Valid size) :
    Safe s (matchSymbol l s size z) fun z' =>
      z'.Valid size ∧ z.output.length < z'.output.length := by
  have hlt := hz.state_lt
  have hlen := hz.length_le
  have hlength : Safe s (length s LIMLZ_REP_LENGTH 0) fun r => 1 ≤ r := length_safe (by decide)
  unfold matchSymbol
  dsimp only
  apply (bit_safe (by rw [PROBS_eq]; simp only [LIMLZ_IS_REP]; omega)).bind
  rintro rep -
  refine Keeps.ite (fun _ => ?_) fun _ => ?_
  · apply (length_safe (by decide)).bind
    intro ecx hecx
    apply distance_safe.bind
    rintro rep0 -
    exact Keeps.lift (copy_ends hcap (by show _ + 7 < 12; split <;> decide) hlen hecx)
  apply (bit_safe (by rw [PROBS_eq]; simp only [LIMLZ_REP_G0]; omega)).bind
  rintro g0 -
  have hstate8 : (if z.state < 7 then 0 else 3) ||| 8 < 12 := by split <;> decide
  have hstate9 : (if z.state < 7 then 0 else 3) ||| 9 < 12 := by split <;> decide
  refine Keeps.ite (fun _ => ?_) fun _ => ?_
  · apply (bit_safe (by rw [PROBS_eq]; simp only [LIMLZ_REP_LONG]; omega)).bind
    rintro long -
    refine Keeps.ite (fun _ => ?_) fun _ => ?_
    · exact Keeps.lift (copy_ends hcap hstate9 hlen (Nat.le_refl 1))
    · apply hlength.bind
      exact fun ecx hecx => Keeps.lift (copy_ends hcap hstate8 hlen hecx)
  apply (bit_safe (by rw [PROBS_eq]; simp only [LIMLZ_REP_G1]; omega)).bind
  rintro g1 -
  refine Keeps.ite (fun _ => ?_) fun _ => ?_
  · apply hlength.bind
    exact fun ecx hecx => Keeps.lift (copy_ends hcap hstate8 hlen hecx)
  apply (bit_safe (by rw [PROBS_eq]; simp only [LIMLZ_REP_G2]; omega)).bind
  rintro g2 -
  refine Keeps.ite (fun _ => ?_) fun _ => ?_
  · apply hlength.bind
    exact fun ecx hecx => Keeps.lift (copy_ends hcap hstate8 hlen hecx)
  · apply hlength.bind
    exact fun ecx hecx => Keeps.lift (copy_ends hcap hstate8 hlen hecx)

theorem symbol_safe (hcap : size ≤ l.capacity) {z : Lz} (hz : z.Valid size)
    (hlt : z.output.length < size) :
    Safe s (symbol l s size z) fun z' => z'.Valid size ∧ z.output.length < z'.output.length := by
  have hstate := hz.state_lt
  apply (bit_safe (by rw [PROBS_eq]; omega)).bind
  rintro isMatch -
  refine Keeps.ite (fun _ => ?_) fun _ => ?_
  · exact literal_safe hcap hz hlt
  · exact matchSymbol_safe hcap hz

/-- Every symbol adds a byte, so the fuel lasts. -/
theorem next_safe (hcap : size ≤ l.capacity) (fuel : Nat) : ∀ z : Lz, z.Valid size →
    size < z.output.length + fuel →
    Safe s (next l s size fuel z) fun z' => z'.output.length = size := by
  induction fuel with
  | zero =>
    intro z hz h
    have := hz.length_le
    omega
  | succ fuel ih =>
    intro z hz h
    refine Keeps.ite (fun heq => Keeps.pure ?_) fun hne => ?_
    · unfold Lz.edi at heq
      omega
    · have hlen := hz.length_le
      unfold Lz.edi at hne
      apply (symbol_safe hcap hz (by omega)).bind
      rintro z' ⟨hz', hgrow⟩
      exact ih z' hz' (by omega)

/-! ## The whole run -/

theorem finish_safe (hcap : size ≤ l.capacity) {z : Lz} (hz : z.output.length = size)
    (checksum : Nat) :
    Safe s (finish l s checksum z) fun z' => z'.output.length = size := by
  have hl := l.lt
  have h4 := l.four_le
  apply normalise_safe.bind
  rintro - -
  apply Keeps.get_bind
  intro d hd
  refine Keeps.ite (fun _ => Keeps.throw rfl) fun _ => ?_
  refine Keeps.ite (fun _ => Keeps.throw rfl) fun _ => ?_
  have hscan := bcjScan_ends (l := l) (z.output.length + 1) z.output 0
    (l.output - BCJ_OPERAND_SIZE) 0 (by omega) (by omega) ⟨by decide, Or.inl rfl⟩
    (Nat.zero_le _) (by omega)
  apply (Keeps.lift hscan).bind
  intro output hout
  refine Keeps.ite (fun _ => Keeps.throw rfl) fun _ => Keeps.pure ?_
  exact hout.trans hz

theorem decode_safe (hcap : size ≤ l.capacity) (checksum : Nat) :
    Safe s (decode l s size checksum) fun z => z.output.length = size := by
  have hstart : Lz.Valid size Lz.start :=
    ⟨by decide, Nat.zero_le _, fun h => absurd h (by decide), fun h => absurd h (by decide)⟩
  apply (next_safe hcap (size + 1) Lz.start hstart (by simp [Lz.start])).bind
  exact fun z hz => finish_safe hcap hz checksum

theorem read32_at {k : Nat} (hk : k + 3 < s.bytes.length) :
    s.read32 k = .ok (read32 s.bytes k) := by
  unfold Stream.read32
  rw [read_at (by omega), read_at (by omega), read_at (by omega), read_at hk]
  unfold read32
  rw [byteAt_eq_getElem (by omega), byteAt_eq_getElem (by omega), byteAt_eq_getElem (by omega),
    byteAt_eq_getElem hk]
  rfl

/-- Whatever the stream and its size, the decompressor comes to the label `error` or hands over
the declared number of bytes, at most `CAPACITY`, without an access outside the stream, the output
or the probabilities on the way. -/
theorem decompress_safe (l : Layout) (s : Stream) :
    decompress l s = .error .error ∨ ∃ z d, decompress l s = .ok (z, d) ∧
      s.read32 4 = .ok z.output.length ∧ z.output.length ≤ l.capacity := by
  have hsafe : Ends IsError (decompress l s) fun r =>
      s.read32 4 = .ok r.1.output.length ∧ r.1.output.length ≤ l.capacity := by
    unfold decompress
    split
    · exact Ends.error rfl
    next hmin =>
    have hlen : 13 ≤ s.bytes.length := Nat.not_lt.mp hmin
    rw [LIMLZ_HEADER_SIZE, read_at (by omega), read32_at (by omega), read32_at (by omega),
      read_at (by omega), read_at (by omega), read_at (by omega), read_at (by omega)]
    rw [ok_bind]
    split
    · exact Ends.error rfl
    rw [ok_bind]
    split
    · exact Ends.error rfl
    next hcap =>
    have hcap' := Nat.not_lt.mp hcap
    rw [ok_bind, ok_bind, ok_bind, ok_bind, ok_bind]
    have hrun := decode_safe (s := s) hcap' (read32 s.bytes 0)
    apply (hrun _ ⟨STREAM_MIN_SIZE, Nat.not_lt.mp hmin, rfl⟩).imp
    rintro ⟨z, d⟩ ⟨hz, -⟩
    dsimp only at hz ⊢
    rw [hz]
    exact ⟨rfl, hcap'⟩
  cases hrun : decompress l s with
  | error h =>
    rw [hrun] at hsafe
    left
    rw [show h = .error from hsafe]
  | ok r =>
    rw [hrun] at hsafe
    exact Or.inr ⟨r.1, r.2, rfl, hsafe⟩

end Limine.Limlz
