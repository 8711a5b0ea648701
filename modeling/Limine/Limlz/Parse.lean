import Limine.Limlz.Compress

/-!
# What the parse chooses

The costs decide which match is chosen; that it is one is `match_length`'s doing.
-/

namespace Limine.Limlz

/-- The bytes at `pos` are those `distance` before them. -/
structure Copies (data : List UInt8) (pos length distance : Nat) : Prop where
  length_le : length ≤ LIMLZ_MAX_MATCH
  distance_pos : 1 ≤ distance
  distance_le : distance ≤ pos
  end_le : pos + length ≤ data.length
  same : ∀ k < length, byteAt data (pos + k) = byteAt data (pos - distance + k)

/-- A choice is one byte, or a match that is one. -/
def ValidChoice (data : List UInt8) (pos : Nat) (m : Match) : Prop :=
  m.length < 2 ∨ Copies data pos m.length m.distance

variable {data : List UInt8} {mf : MatchFinder}

theorem Copies.mono {pos length length' distance : Nat} (h : Copies data pos length distance)
    (hle : length' ≤ length) : Copies data pos length' distance where
  length_le := Nat.le_trans hle h.length_le
  distance_pos := h.distance_pos
  distance_le := h.distance_le
  end_le := Nat.le_trans (Nat.add_le_add_left hle pos) h.end_le
  same := fun k hk => h.same k (Nat.lt_of_lt_of_le hk hle)

/-! ## The match finder -/

/-- The chains only go back, and the heads are of positions before `pos`. -/
structure MatchFinder.Backward (mf : MatchFinder) (pos : Nat) : Prop where
  previous_le : ∀ p, mf.previous p ≤ p
  head_le : ∀ hash, mf.head hash ≤ pos

theorem store_apply {α : Type} (f : Nat → α) (i : Nat) (v : α) (P : Nat → α → Prop)
    (hf : ∀ j, P j (f j)) (hv : P i v) (j : Nat) : P j (store f i v j) := by
  unfold store
  split
  · next h =>
    rw [h]
    exact hv
  · exact hf j

theorem insert_backward {pos : Nat} (h : mf.Backward pos) :
    (insert data mf pos).Backward (pos + 1) := by
  have hgrow : ∀ hash, mf.head hash ≤ pos + 1 := fun hash => Nat.le_succ_of_le (h.head_le hash)
  unfold insert
  split
  · constructor
    · exact store_apply _ _ _ (fun p v => v ≤ p) h.previous_le (h.head_le _)
    · exact store_apply _ _ _ (fun _ v => v ≤ pos + 1) hgrow (Nat.le_refl _)
  · exact ⟨h.previous_le, hgrow⟩

theorem inserts_backward (n : Nat) :
    ((List.range n).foldl (insert data) ⟨fun _ => 0, fun _ => 0⟩).Backward n := by
  induction n with
  | zero => exact ⟨fun _ => Nat.zero_le _, fun _ => Nat.le_refl 0⟩
  | succ n ih =>
    rw [List.range_succ, List.foldl_append]
    exact insert_backward ih

/-! ## Matches -/

theorem matchLengthLoop_spec (data : List UInt8) (pos distance left : Nat) : ∀ length,
    (∀ k < length, byteAt data (pos + k) = byteAt data (pos - distance + k)) →
    matchLengthLoop data pos distance left length ≤ length + left ∧
      ∀ k < matchLengthLoop data pos distance left length,
        byteAt data (pos + k) = byteAt data (pos - distance + k) := by
  induction left with
  | zero => exact fun length h => ⟨Nat.le_refl _, h⟩
  | succ left ih =>
    intro length h
    rw [matchLengthLoop]
    split
    · next heq =>
      have hnext := ih (length + 1) (fun k hk => by
        rcases Nat.lt_or_eq_of_le (Nat.le_of_lt_succ hk) with hlt | rfl
        · exact h k hlt
        · exact heq)
      exact ⟨by omega, hnext.2⟩
    · exact ⟨Nat.le_add_right _ _, h⟩

theorem matchLength_copies {pos distance : Nat} (hpos : 1 ≤ distance) (hle : distance ≤ pos)
    (hlt : pos < data.length) : Copies data pos (matchLength data pos distance) distance := by
  obtain ⟨hmax, hsame⟩ := matchLengthLoop_spec data pos distance
    (min (data.length - pos) LIMLZ_MAX_MATCH) 0 (fun k hk => absurd hk (Nat.not_lt_zero k))
  have h1 := Nat.min_le_left (data.length - pos) LIMLZ_MAX_MATCH
  have h2 := Nat.min_le_right (data.length - pos) LIMLZ_MAX_MATCH
  unfold matchLength
  exact ⟨by omega, hpos, hle, by omega, hsame⟩

/-! ## The parse -/

/-- Every choice that has been made is one. -/
def ParseState.Valid (data : List UInt8) (s : ParseState) : Prop :=
  ∀ pos, ValidChoice data pos (s.choices pos)

theorem tryLength_valid {pos distance price len : Nat} {s : ParseState} (hs : s.Valid data)
    (h : Copies data pos len distance) : (tryLength pos distance price s len).Valid data := by
  have hchoice : ValidChoice data pos ⟨len, distance⟩ := Or.inr h
  unfold tryLength
  dsimp only
  generalize price + (if len < 10 then 4 else if len < 18 then 5 else 10) + s.cost (pos + len)
    = nextCost
  split
  · exact store_apply _ _ _ (ValidChoice data) hs hchoice
  · exact hs

theorem tryLengths_valid {pos distance price length : Nat} (h : Copies data pos length distance)
    (lens : List Nat) : ∀ s : ParseState, (∀ len ∈ lens, len ≤ length) → s.Valid data →
    (lens.foldl (tryLength pos distance price) s).Valid data := by
  induction lens with
  | nil => exact fun s _ hs => hs
  | cons len lens ih =>
    intro s hle hs
    apply ih _ (fun len' hlen' => hle len' (List.mem_cons_of_mem _ hlen'))
    exact tryLength_valid hs (h.mono (hle len List.mem_cons_self))

theorem tryCandidates_valid {pos : Nat} (hprev : ∀ p, mf.previous p ≤ p)
    (hlt : pos < data.length) (depths : Nat) : ∀ candidate longest (s : ParseState),
    candidate ≤ pos → s.Valid data →
    (tryCandidates data mf pos depths candidate longest s).Valid data := by
  induction depths with
  | zero => exact fun _ _ _ _ hs => hs
  | succ depths ih =>
    intro candidate longest s hle hs
    have hnext := hprev (candidate - 1)
    unfold tryCandidates
    split
    · exact hs
    next hne =>
    dsimp only
    split
    · exact hs
    split
    · exact ih _ _ _ (by omega) hs
    · apply ih _ _ _ (by omega)
      have hcopies := matchLength_copies (show 1 ≤ pos - (candidate - 1) by omega) (by omega) hlt
      apply tryLengths_valid hcopies _ _ _ hs
      intro len hlen
      rw [List.mem_range'_1] at hlen
      omega

theorem parseAt_valid {pos : Nat} {s : ParseState} (hprev : ∀ p, mf.previous p ≤ p)
    (hlt : pos < data.length) (hs : s.Valid data) : (parseAt data mf pos s).Valid data := by
  have hsingle : ParseState.Valid data
      { cost := store s.cost pos (9 + s.cost (pos + 1)), choices := store s.choices pos ⟨1, 0⟩ } :=
    store_apply _ _ _ (ValidChoice data) hs (Or.inl (by decide))
  unfold parseAt
  dsimp only
  split
  · exact hsingle
  · exact tryCandidates_valid hprev hlt _ _ _ _ (hprev pos) hsingle

theorem parseLoop_valid (hprev : ∀ p, mf.previous p ≤ p) (pos : Nat) : ∀ s : ParseState,
    pos ≤ data.length → s.Valid data → (parseLoop data mf pos s).Valid data := by
  induction pos with
  | zero => exact fun _ _ hs => hs
  | succ pos ih =>
    intro s hle hs
    exact ih _ (Nat.le_of_succ_le hle) (parseAt_valid hprev hle hs)

theorem parse_valid (data : List UInt8) (pos : Nat) : ValidChoice data pos (parse data pos) := by
  apply parseLoop_valid (inserts_backward data.length).previous_le data.length _ (Nat.le_refl _)
  exact fun _ => Or.inl (show 0 < 2 by decide)

end Limine.Limlz
