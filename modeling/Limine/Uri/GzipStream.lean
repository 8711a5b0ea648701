import Limine.Uri.Gzip

/-!
# Random access to a decoded stream

The decoder gives its stream once, from front to back and in pieces as it likes.  `gzip_read` makes a
file of it that can be read anywhere, any number of times, by starting over and by dropping what comes
before: each read gives the part of the stream that it asks for.
-/

namespace Limine.Uri
open Limine.Lib

variable {σ : Type} (medium : Medium) (decoder : Decoder σ) (source : Source)

/-! ## The stream -/

/-- The state and the place in the source after `pos` bytes, by reads of any sizes. -/
inductive Running : σ → Nat → Nat → Prop
  | init : Running decoder.init 0 0
  | read {gz : σ} {srcPos pos decPos count fuel reads reads' : Nat} {data : List UInt8} {gh : GzipHandle σ} :
      Running gz srcPos pos → 0 < count →
      pdgzipRead medium decoder count fuel ⟨source, gz, srcPos, decPos⟩ reads = .ok (some data, gh, reads') →
      Running gh.gz gh.srcPos (pos + data.length)

/-- Successive non-empty pieces of `stream`, and then nothing: what `pdgzip_read` gives from
`pdgzip_init` on. -/
def Streams (stream : List UInt8) : Prop :=
  ∀ gz srcPos pos, Running medium decoder source gz srcPos pos → ∀ count, 0 < count → ∀ decPos reads,
    ∃ fuel data gh reads',
      pdgzipRead medium decoder count fuel ⟨source, gz, srcPos, decPos⟩ reads = .ok (some data, gh, reads') ∧
      data = (stream.drop pos).take data.length ∧ (data = [] → stream.length ≤ pos)

/-- One `gzip_read` after the other. -/
def gzipReads (fuel : Nat) : GzipHandle σ → Nat → List (Nat × Nat) → Exec (List (List UInt8))
  | _, _, [] => .ok []
  | gh, reads, (loc, count) :: calls => do
    let (out, gh, reads) ← gzipRead medium decoder fuel gh loc count reads
    let outs ← gzipReads fuel gh reads calls
    .ok (out :: outs)

/-! ## More fuel -/

variable {medium decoder source}

theorem pdgzipRead_mono {count : Nat} {r : Option (List UInt8) × GzipHandle σ × Nat} : ∀ {fuel fuel' : Nat}
    {gh : GzipHandle σ} {reads : Nat}, fuel ≤ fuel' → pdgzipRead medium decoder count fuel gh reads = .ok r →
    pdgzipRead medium decoder count fuel' gh reads = .ok r := by
  intro fuel
  induction fuel with
  | zero =>
    intro fuel' gh reads _ h
    cases h
  | succ fuel ih =>
    intro fuel' gh reads hle h
    obtain ⟨fuel', rfl⟩ := Nat.exists_eq_succ_of_ne_zero (by omega : fuel' ≠ 0)
    rw [pdgzipRead] at h ⊢
    cases hnext : decoder.next gh.gz count with
    | failed =>
      rw [hnext] at h
      exact h
    | give data s =>
      rw [hnext] at h
      exact h
    | ask len resume =>
      rw [hnext] at h
      dsimp only at h ⊢
      obtain ⟨got, hread, h⟩ := except_bind_eq_ok.mp h
      rw [hread, ok_bind]
      exact ih (Nat.le_of_succ_le_succ hle) h

/-- A read of the decoder leaves what is not its own, and gives no more than was asked for. -/
theorem pdgzipRead_keeps {count : Nat} : ∀ {fuel : Nat} {gh gh' : GzipHandle σ} {reads reads' : Nat}
    {data : List UInt8}, pdgzipRead medium decoder count fuel gh reads = .ok (some data, gh', reads') →
    gh'.source = gh.source ∧ gh'.decPos = gh.decPos ∧ data.length ≤ count := by
  intro fuel
  induction fuel with
  | zero =>
    intro gh gh' reads reads' data h
    cases h
  | succ fuel ih =>
    intro gh gh' reads reads' data h
    rw [pdgzipRead] at h
    cases hnext : decoder.next gh.gz count with
    | failed =>
      rw [hnext] at h
      cases h
    | give data₁ s =>
      rw [hnext] at h
      obtain ⟨rfl, rfl, -⟩ : data₁ = data ∧ { gh with gz := s } = gh' ∧ reads = reads' := by simpa using h
      exact ⟨rfl, rfl, decoder.fits _ _ _ _ hnext⟩
    | ask len resume =>
      rw [hnext] at h
      dsimp only at h
      obtain ⟨⟨got, gh₁, reads₁⟩, hread, h⟩ := except_bind_eq_ok.mp h
      have hsame : gh₁.source = gh.source ∧ gh₁.decPos = gh.decPos := by
        unfold gzSourceRead at hread
        dsimp only at hread
        split at hread
        · obtain ⟨-, rfl, -⟩ : [] = got ∧ gh = gh₁ ∧ reads = reads₁ := by simpa using hread
          exact ⟨rfl, rfl⟩
        · obtain ⟨⟨bytes, reads₂⟩, -, hread⟩ := except_bind_eq_ok.mp hread
          obtain ⟨-, rfl, -⟩ : bytes = got ∧ { gh with srcPos := gh.srcPos + bytes.length } = gh₁ ∧
              reads₂ = reads₁ := by simpa using hread
          exact ⟨rfl, rfl⟩
      obtain ⟨hsource, hdec, hlen⟩ := ih h
      exact ⟨hsource.trans hsame.1, hdec.trans hsame.2, hlen⟩

/-! ## Reads -/

variable {stream : List UInt8}

/-- A handle between two reads: its decoder is where `dec_pos` says. -/
structure AtPosition (medium : Medium) (decoder : Decoder σ) (source : Source) (stream : List UInt8)
    (gh : GzipHandle σ) : Prop where
  source_eq : gh.source = source
  running : Running medium decoder source gh.gz gh.srcPos gh.decPos
  le : gh.decPos ≤ stream.length

/-- **One read of the decoder** gives a piece of what comes next, and the handle goes on behind it. -/
theorem AtPosition.read {gh : GzipHandle σ} (h : AtPosition medium decoder source stream gh)
    (hstream : Streams medium decoder source stream) {count : Nat} (hcount : 0 < count) (reads : Nat) :
    ∃ fuel data gh' reads', (∀ fuel', fuel ≤ fuel' →
        pdgzipRead medium decoder count fuel' gh reads = .ok (some data, gh', reads')) ∧
      data.length ≤ count ∧ stream.drop gh.decPos = data ++ stream.drop (gh.decPos + data.length) ∧
      (data = [] → stream.length ≤ gh.decPos) ∧ gh'.decPos = gh.decPos ∧
      AtPosition medium decoder source stream { gh' with decPos := gh.decPos + data.length } := by
  obtain ⟨source', gz, srcPos, decPos⟩ := gh
  obtain ⟨rfl, hrunning, hle⟩ := h
  obtain ⟨fuel, data, gh', reads', hread, hdata, hend⟩ := hstream gz srcPos decPos hrunning count hcount decPos reads
  obtain ⟨hsource, hdec, hlen⟩ := pdgzipRead_keeps hread
  have hsplit : stream.drop decPos = data ++ stream.drop (decPos + data.length) := by
    conv_lhs => rw [← List.take_append_drop data.length (stream.drop decPos), ← hdata, List.drop_drop]
  have hfits : decPos + data.length ≤ stream.length := by
    have hlength := congrArg List.length hsplit
    rw [List.length_append, List.length_drop, List.length_drop] at hlength
    dsimp only at hle
    omega
  have hnext : Running medium decoder source' gh'.gz gh'.srcPos (decPos + data.length) :=
    .read hrunning hcount hread
  exact ⟨fuel, data, gh', reads', fun fuel' hfuel => pdgzipRead_mono hfuel hread, hlen, hsplit, hend, hdec,
    hsource, hnext, hfits⟩

theorem gzipSkip_spec (hstream : Streams medium decoder source stream) (loc : Nat) : ∀ (n : Nat) (gh : GzipHandle σ)
    (reads : Nat), loc - gh.decPos ≤ n → gh.decPos ≤ loc → AtPosition medium decoder source stream gh →
    ∃ fuel reached gh' reads', (∀ fuel', fuel ≤ fuel' →
        gzipSkip medium decoder loc fuel' gh reads = .ok (reached, gh', reads')) ∧
      AtPosition medium decoder source stream gh' ∧
      (if reached then gh'.decPos = loc else stream.length ≤ loc) := by
  intro n
  induction n with
  | zero =>
    intro gh reads hn hle h
    refine ⟨1, true, gh, reads, ?_, h, show gh.decPos = loc by omega⟩
    intro fuel' hfuel
    obtain ⟨fuel', rfl⟩ := Nat.exists_eq_succ_of_ne_zero (by omega : fuel' ≠ 0)
    rw [gzipSkip, if_pos (by omega)]
  | succ n ih =>
    intro gh reads hn hle h
    by_cases hthere : loc ≤ gh.decPos
    · exact ih gh reads (by omega) hle h
    obtain ⟨fuel, data, gh₁, reads₁, hread, hlen, -, hend, hdec, h₁⟩ :=
      h.read hstream (show 0 < min (loc - gh.decPos) 4096 by omega) reads
    by_cases hdata : data = []
    · subst hdata
      refine ⟨fuel + 1, false, gh₁, reads₁, ?_, ?_, show stream.length ≤ loc from Nat.le_trans (hend rfl) hle⟩
      · intro fuel' hfuel
        obtain ⟨fuel', rfl⟩ := Nat.exists_eq_succ_of_ne_zero (by omega : fuel' ≠ 0)
        rw [gzipSkip, if_neg hthere, hread fuel' (by omega), ok_bind]
        rfl
      · obtain ⟨source₁, gz₁, srcPos₁, decPos₁⟩ := gh₁
        obtain rfl : decPos₁ = gh.decPos := hdec
        exact h₁
    · have hpos := List.length_pos_iff.mpr hdata
      obtain ⟨fuel₂, reached, gh', reads', hskip, h', hreached⟩ :=
        ih { gh₁ with decPos := gh.decPos + data.length } reads₁ (by dsimp only; omega) (by dsimp only; omega) h₁
      refine ⟨max fuel fuel₂ + 1, reached, gh', reads', ?_, h', hreached⟩
      intro fuel' hfuel
      obtain ⟨fuel', rfl⟩ := Nat.exists_eq_succ_of_ne_zero (by omega : fuel' ≠ 0)
      rw [gzipSkip, if_neg hthere, hread fuel' (by omega), ok_bind]
      dsimp only
      rw [if_neg hdata, hdec]
      exact hskip fuel' (by omega)

theorem gzipFill_spec (hstream : Streams medium decoder source stream) : ∀ (n remaining : Nat) (gh : GzipHandle σ)
    (dst : List UInt8) (reads : Nat), remaining ≤ n → AtPosition medium decoder source stream gh →
    ∃ fuel gh' reads', (∀ fuel', fuel ≤ fuel' → gzipFill medium decoder fuel' gh remaining dst reads =
        .ok (dst ++ (stream.drop gh.decPos).take remaining, gh', reads')) ∧
      AtPosition medium decoder source stream gh' := by
  intro n
  induction n with
  | zero =>
    intro remaining gh dst reads hn h
    obtain rfl : remaining = 0 := by omega
    refine ⟨1, gh, reads, ?_, h⟩
    intro fuel' hfuel
    obtain ⟨fuel', rfl⟩ := Nat.exists_eq_succ_of_ne_zero (by omega : fuel' ≠ 0)
    rw [gzipFill, if_pos rfl, List.take_zero, List.append_nil]
  | succ n ih =>
    intro remaining gh dst reads hn h
    by_cases hdone : remaining = 0
    · exact ih remaining gh dst reads (by omega) h
    obtain ⟨fuel, data, gh₁, reads₁, hread, hlen, hsplit, hend, hdec, h₁⟩ :=
      h.read hstream (show 0 < min remaining 65536 by omega) reads
    by_cases hdata : data = []
    · subst hdata
      refine ⟨fuel + 1, gh₁, reads₁, ?_, ?_⟩
      · intro fuel' hfuel
        obtain ⟨fuel', rfl⟩ := Nat.exists_eq_succ_of_ne_zero (by omega : fuel' ≠ 0)
        rw [gzipFill, if_neg hdone, hread fuel' (by omega), ok_bind, List.drop_eq_nil_of_le (hend rfl), List.take_nil,
          List.append_nil]
        rfl
      · obtain ⟨source₁, gz₁, srcPos₁, decPos₁⟩ := gh₁
        obtain rfl : decPos₁ = gh.decPos := hdec
        exact h₁
    · have hpos := List.length_pos_iff.mpr hdata
      obtain ⟨fuel₂, gh', reads', hfill, h'⟩ := ih (remaining - data.length)
        { gh₁ with decPos := gh.decPos + data.length } (dst ++ data) reads₁ (by omega) h₁
      refine ⟨max fuel fuel₂ + 1, gh', reads', ?_, h'⟩
      intro fuel' hfuel
      obtain ⟨fuel', rfl⟩ := Nat.exists_eq_succ_of_ne_zero (by omega : fuel' ≠ 0)
      rw [gzipFill, if_neg hdone, hread fuel' (by omega), ok_bind]
      dsimp only
      rw [if_neg hdata, hdec, hfill fuel' (by omega), hsplit, List.take_append,
        List.take_of_length_le (by omega : data.length ≤ remaining), List.append_assoc]

/-- **A read anywhere** gives the part of the stream that it asks for. -/
theorem gzipRead_spec (hstream : Streams medium decoder source stream) {gh : GzipHandle σ}
    (h : AtPosition medium decoder source stream gh) (loc count reads : Nat) :
    ∃ fuel gh' reads', (∀ fuel', fuel ≤ fuel' → gzipRead medium decoder fuel' gh loc count reads =
        .ok ((stream.drop loc).take count, gh', reads')) ∧ AtPosition medium decoder source stream gh' := by
  have hstart : ∃ start, (if loc < gh.decPos then gzReset decoder gh else gh) = start ∧ start.decPos ≤ loc ∧
      AtPosition medium decoder source stream start := by
    by_cases hback : loc < gh.decPos
    · rw [if_pos hback]
      exact ⟨_, rfl, Nat.zero_le loc, h.source_eq, .init, Nat.zero_le _⟩
    · rw [if_neg hback]
      exact ⟨gh, rfl, Nat.le_of_not_lt hback, h⟩
  obtain ⟨start, hreset, hle, hat⟩ := hstart
  obtain ⟨fuel, reached, gh₁, reads₁, hskip, h₁, hreached⟩ :=
    gzipSkip_spec hstream loc _ start reads (Nat.le_refl _) hle hat
  cases reached with
  | false =>
    refine ⟨fuel, gh₁, reads₁, ?_, h₁⟩
    intro fuel' hfuel
    have hend : stream.length ≤ loc := hreached
    rw [gzipRead, hreset, hskip fuel' hfuel, ok_bind, List.drop_eq_nil_of_le hend, List.take_nil]
    rfl
  | true =>
    have hthere : gh₁.decPos = loc := hreached
    obtain ⟨fuel₂, gh', reads', hfill, h'⟩ := gzipFill_spec hstream _ count gh₁ [] reads₁ (Nat.le_refl _) h₁
    refine ⟨max fuel fuel₂, gh', reads', ?_, h'⟩
    intro fuel' hfuel
    rw [gzipRead, hreset, hskip fuel' (by omega), ok_bind]
    dsimp only
    rw [if_pos rfl, hfill fuel' (by omega), List.nil_append, hthere]

theorem gzipReads_spec (hstream : Streams medium decoder source stream) (calls : List (Nat × Nat)) :
    ∀ (gh : GzipHandle σ) (reads : Nat), AtPosition medium decoder source stream gh →
    ∃ fuel, ∀ fuel', fuel ≤ fuel' → gzipReads medium decoder fuel' gh reads calls =
      .ok (calls.map fun call => (stream.drop call.1).take call.2) := by
  induction calls with
  | nil =>
    intro gh reads _
    exact ⟨0, fun _ _ => rfl⟩
  | cons call calls ih =>
    intro gh reads h
    obtain ⟨fuel, gh', reads', hread, h'⟩ := gzipRead_spec hstream h call.1 call.2 reads
    obtain ⟨fuel₂, hrest⟩ := ih gh' reads' h'
    refine ⟨max fuel fuel₂, fun fuel' hfuel => ?_⟩
    obtain ⟨loc, count⟩ := call
    rw [gzipReads, hread fuel' (by omega), ok_bind]
    dsimp only
    rw [hrest fuel' (by omega)]
    rfl

/-- **Any reads, in any order**: each gives its part of the stream. -/
theorem gzipReads_slices {σ : Type} (medium : Medium) (decoder : Decoder σ) (source : Source) (stream : List UInt8)
    (hstream : Streams medium decoder source stream) (calls : List (Nat × Nat)) (reads : Nat) :
    ∃ fuel, ∀ fuel', fuel ≤ fuel' → gzipReads medium decoder fuel' (gzipOpen decoder source) reads calls =
      .ok (calls.map fun call => (stream.drop call.1).take call.2) :=
  gzipReads_spec hstream calls _ reads ⟨rfl, .init, Nat.zero_le _⟩

/-! ## A stored stream -/

/-- `abc` as a gzip file with one stored block. -/
def storedAbc : List UInt8 :=
  [0x1f, 0x8b, 8, 0, 0, 0, 0, 0, 0, 255, 1, 3, 0, 0xfc, 0xff, 97, 98, 99, 0xc2, 0x41, 0x24, 0x35, 3, 0, 0, 0]

/-- A decoder for such a file: it takes in all of it, and then gives what is in its block. -/
def storedDecoder : Decoder (Option (List UInt8)) where
  init := none
  next state count :=
    match state with
    | none => .ask 26 fun bytes => some ((bytes.drop 15).take 3)
    | some out => .give (out.take count) (some (out.drop count))
  fits := by
    rintro (_ | out) count data state' h
    · cases h
    · cases h
      exact List.length_take_le _ _

def noMedium : Medium := ⟨fun _ _ _ => [], fun _ _ _ => Nat.zero_le _⟩

theorem stored_first (count fuel decPos reads : Nat) :
    pdgzipRead noMedium storedDecoder count (fuel + 2) ⟨.mem storedAbc, none, 0, decPos⟩ reads =
      .ok (some ([97, 98, 99].take count), ⟨.mem storedAbc, some ([97, 98, 99].drop count), 26, decPos⟩, reads) := rfl

theorem stored_next (out : List UInt8) (count fuel srcPos decPos reads : Nat) :
    pdgzipRead noMedium storedDecoder count (fuel + 1) ⟨.mem storedAbc, some out, srcPos, decPos⟩ reads =
      .ok (some (out.take count), ⟨.mem storedAbc, some (out.drop count), srcPos, decPos⟩, reads) := rfl

theorem drop_take_length {α : Type} (l : List α) (pos count : Nat) :
    (l.drop pos).drop count = l.drop (pos + ((l.drop pos).take count).length) := by
  rw [List.drop_drop, List.length_take, List.length_drop]
  rcases Nat.le_total count (l.length - pos) with hle | hge
  · rw [Nat.min_eq_left hle]
  · rw [Nat.min_eq_right hge, List.drop_eq_nil_of_le (by omega), List.drop_eq_nil_of_le (by omega)]

theorem stored_running {gz : Option (List UInt8)} {srcPos pos : Nat}
    (h : Running noMedium storedDecoder (.mem storedAbc) gz srcPos pos) :
    gz = none ∧ srcPos = 0 ∧ pos = 0 ∨ gz = some ([97, 98, 99].drop pos) := by
  induction h with
  | init => exact Or.inl ⟨rfl, rfl, rfl⟩
  | @read gz srcPos pos decPos count fuel reads reads' data gh hrunning hcount hread ih =>
    refine Or.inr ?_
    rcases ih with ⟨rfl, rfl, rfl⟩ | rfl
    · match fuel, hread with
      | 0, hread => cases hread
      | 1, hread => cases hread
      | fuel + 2, hread =>
        rw [stored_first, Except.ok.injEq, Prod.mk.injEq, Prod.mk.injEq, Option.some.injEq] at hread
        obtain ⟨rfl, rfl, -⟩ := hread
        exact congrArg some (drop_take_length [97, 98, 99] 0 count)
    · match fuel, hread with
      | 0, hread => cases hread
      | fuel + 1, hread =>
        rw [stored_next, Except.ok.injEq, Prod.mk.injEq, Prod.mk.injEq, Option.some.injEq] at hread
        obtain ⟨rfl, rfl, -⟩ := hread
        exact congrArg some (drop_take_length [97, 98, 99] pos count)

theorem stored_streams : Streams noMedium storedDecoder (.mem storedAbc) [97, 98, 99] := by
  intro gz srcPos pos hrunning count hcount decPos reads
  have htake : ∀ l : List UInt8, l.take count = l.take (l.take count).length := by
    intro l
    rw [List.length_take, ← List.take_take, List.take_length]
  have hend : ∀ p : Nat, (([97, 98, 99] : List UInt8).drop p).take count = [] →
      ([97, 98, 99] : List UInt8).length ≤ p := by
    intro p hnil
    have hdrop := (List.take_eq_nil_iff.mp hnil).resolve_left (by omega)
    exact List.drop_eq_nil_iff.mp hdrop
  rcases stored_running hrunning with ⟨rfl, rfl, rfl⟩ | rfl
  · exact ⟨2, _, _, reads, stored_first count 0 decPos reads, htake _, hend 0⟩
  · exact ⟨1, _, _, reads, stored_next _ count 0 srcPos decPos reads, htake _, hend pos⟩

/-- `abc` read backwards and past its end. -/
theorem gzipReads_slices_stored : ∃ fuel, ∀ fuel', fuel ≤ fuel' →
    gzipReads noMedium storedDecoder fuel' (gzipOpen storedDecoder (.mem storedAbc)) 0 [(1, 5), (0, 2), (9, 1)] =
      .ok [[98, 99], [97, 98], []] :=
  gzipReads_slices noMedium storedDecoder (.mem storedAbc) [97, 98, 99] stored_streams [(1, 5), (0, 2), (9, 1)] 0

end Limine.Uri
