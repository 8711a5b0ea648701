import Limine.Lib.IntervalCode
import Limine.Lib.Transport
import Limine.Limlz.Compress
import Limine.Limlz.Safety

/-!
# The range coder

The encoder holds back the bytes a carry can still reach and normalises after each bit; the decoder
normalises before each.  Both follow the same interval: of the encoder it is the low end that is
kept, of the decoder the distance of the stream from it.
-/

namespace Limine.Limlz

open Lib

/-! ## What the encoder has written -/

namespace RangeEncoder

/-- What comes after the header. -/
def body (rc : RangeEncoder) : List UInt8 := rc.data.drop LIMLZ_HEADER_SIZE

/-- The body with the bytes that are held back. -/
def soFar (rc : RangeEncoder) : List UInt8 := rc.body ++ delayed rc.cache rc.pending 0

def interval (rc : RangeEncoder) : Interval where
  low := beNat rc.soFar * 2 ^ 32 + rc.low
  width := rc.range
  digits := rc.soFar.length + 4

theorem interval_low (rc : RangeEncoder) :
    rc.interval.low = beNat rc.soFar * 2 ^ 32 + rc.low := rfl

theorem interval_digits (rc : RangeEncoder) : rc.interval.digits = rc.soFar.length + 4 := rfl

/-- A carry finds a byte that takes it. -/
structure Carries (rc : RangeEncoder) : Prop where
  header : LIMLZ_HEADER_SIZE ≤ rc.data.length
  pending : 1 ≤ rc.pending
  cache : rc.cache < 256
  low : rc.low < 2 ^ 33
  full : rc.cache = 255 → rc.low < 2 ^ 32

theorem length_delayed (cache pending carry : Nat) (h : 1 ≤ pending) :
    (delayed cache pending carry).length = pending := by
  rw [delayed, List.length_cons, List.length_replicate]
  omega

theorem beNat_delayed_one {cache pending : Nat} (h : cache < 255) :
    beNat (delayed cache pending 1) = beNat (delayed cache pending 0) + 1 := by
  have h255 := beNat_replicate (pending - 1)
  have h0 := beNat_replicate_zero (pending - 1)
  have hc : (UInt8.ofNat (cache + 1)).toNat = cache + 1 := by
    rw [UInt8.toNat_ofNat']
    omega
  have hc' : (UInt8.ofNat cache).toNat = cache := by
    rw [UInt8.toNat_ofNat']
    omega
  show (UInt8.ofNat (cache + 1)).toNat * 256 ^ (List.replicate (pending - 1) 0).length
    + beNat (List.replicate (pending - 1) 0) = (UInt8.ofNat cache).toNat
    * 256 ^ (List.replicate (pending - 1) 255).length + beNat (List.replicate (pending - 1) 255) + 1
  rw [hc, hc', h0, List.length_replicate, List.length_replicate, Nat.add_mul, Nat.one_mul]
  omega

theorem body_append {rc : RangeEncoder} (h : rc.Carries) (bs : List UInt8) :
    (rc.data ++ bs).drop LIMLZ_HEADER_SIZE = rc.body ++ bs :=
  List.drop_append_of_le_length h.header

theorem take_append {rc : RangeEncoder} (h : rc.Carries) (bs : List UInt8) :
    (rc.data ++ bs).take LIMLZ_HEADER_SIZE = rc.data.take LIMLZ_HEADER_SIZE :=
  List.take_append_of_le_length h.header

theorem beNat_body_delayed {rc : RangeEncoder} (h : rc.Carries) :
    beNat (rc.body ++ delayed rc.cache rc.pending (rc.low / 2 ^ 32)) =
      beNat rc.soFar + rc.low / 2 ^ 32 := by
  have hl := h.low
  have hcache := h.cache
  have hfull := h.full
  rcases (by omega : rc.low / 2 ^ 32 = 0 ∨ rc.low / 2 ^ 32 = 1) with h0 | h1
  · rw [h0]
    rfl
  · rw [h1, soFar, beNat_append, beNat_append, length_delayed _ _ _ h.pending,
      length_delayed _ _ _ h.pending, beNat_delayed_one (by omega), Nat.add_assoc]

theorem delayed_succ {cache pending : Nat} (h : 1 ≤ pending) :
    delayed cache (pending + 1) 0 = delayed cache pending 0 ++ [255] := by
  obtain ⟨n, rfl⟩ : ∃ n, pending = n + 1 := ⟨pending - 1, by omega⟩
  exact congrArg _ List.replicate_succ'

theorem delayed_single {cache : Nat} : delayed cache 1 0 = [UInt8.ofNat cache] := rfl

theorem beNat_concat (bs : List UInt8) (b : UInt8) :
    beNat (bs ++ [b]) = beNat bs * 256 + b.toNat := by
  rw [beNat_append]
  simp [beNat]

/-- `shift_low` moves the point by one byte and changes nothing else about the low end. -/
theorem shiftLow_spec {rc : RangeEncoder} (h : rc.Carries) :
    rc.shiftLow.Carries ∧
      rc.shiftLow.interval.low = rc.interval.low * 256 ∧
      rc.shiftLow.interval.digits = rc.interval.digits + 1 ∧
      rc.shiftLow.range = rc.range ∧ rc.shiftLow.probs = rc.probs ∧
      rc.shiftLow.low = rc.low * 2 ^ 8 % 2 ^ 32 ∧
      rc.shiftLow.data.take LIMLZ_HEADER_SIZE = rc.data.take LIMLZ_HEADER_SIZE := by
  have hp := h.pending
  have hl := h.low
  have hheader := h.header
  have hlow : rc.low % 2 ^ 32 * 2 ^ 8 % 2 ^ 32 = rc.low * 2 ^ 8 % 2 ^ 32 := by omega
  have hlen : rc.soFar.length = rc.body.length + rc.pending := by
    rw [soFar, List.length_append, length_delayed _ _ _ hp]
  unfold shiftLow
  dsimp only
  rw [hlow]
  split
  · next hemit =>
    have hbody := beNat_body_delayed h
    have hshift : ∀ rc' : RangeEncoder, rc'.data = rc.data ++
        delayed rc.cache rc.pending (rc.low / 2 ^ 32) → rc'.cache = rc.low % 2 ^ 32 / 2 ^ 24 →
        rc'.pending = 1 → rc'.low = rc.low * 2 ^ 8 % 2 ^ 32 →
        rc'.interval.low = rc.interval.low * 256 ∧
          rc'.interval.digits = rc.interval.digits + 1 := by
      intro rc' hd hc hp' hl'
      have hsoFar : rc'.soFar = rc.body ++ delayed rc.cache rc.pending (rc.low / 2 ^ 32)
          ++ [UInt8.ofNat (rc.low % 2 ^ 32 / 2 ^ 24)] := by
        rw [soFar, body, hd, hc, hp', body_append h, delayed_single]
      constructor
      · rw [interval_low, interval_low, hsoFar, beNat_concat, hbody, UInt8.toNat_ofNat', hl']
        omega
      · rw [interval_digits, interval_digits, hsoFar, List.length_append, List.length_append,
          length_delayed _ _ _ hp, hlen, List.length_singleton]
    refine ⟨⟨?_, Nat.le_refl 1, ?_, ?_, fun _ => Nat.mod_lt _ (by decide)⟩,
      (hshift _ rfl rfl rfl rfl).1, (hshift _ rfl rfl rfl rfl).2, rfl, rfl, rfl, take_append h _⟩
    · rw [List.length_append]
      omega
    · show rc.low % 2 ^ 32 / 2 ^ 24 < 256
      omega
    · show rc.low * 2 ^ 8 % 2 ^ 32 < 2 ^ 33
      omega
  · next hhold =>
    have hshift : ∀ rc' : RangeEncoder, rc'.data = rc.data → rc'.cache = rc.cache →
        rc'.pending = rc.pending + 1 → rc'.low = rc.low * 2 ^ 8 % 2 ^ 32 →
        rc'.interval.low = rc.interval.low * 256 ∧
          rc'.interval.digits = rc.interval.digits + 1 := by
      intro rc' hd hc hp' hl'
      have h255 : (255 : UInt8).toNat = 255 := rfl
      have hsoFar : rc'.soFar = rc.soFar ++ [255] := by
        rw [soFar, body, hd, hc, hp', delayed_succ hp, ← List.append_assoc]
        rfl
      constructor
      · rw [interval_low, interval_low, hsoFar, beNat_concat, h255, hl']
        omega
      · rw [interval_digits, interval_digits, hsoFar, List.length_append, List.length_singleton]
    obtain ⟨hi, hd⟩ := hshift { rc with
      pending := rc.pending + 1, low := rc.low * 2 ^ 8 % 2 ^ 32 } rfl rfl rfl rfl
    refine ⟨⟨hheader, Nat.le_add_left 1 _, h.cache, ?_, fun _ => Nat.mod_lt _ (by decide)⟩,
      hi, hd, rfl, rfl, rfl, rfl⟩
    show rc.low * 2 ^ 8 % 2 ^ 32 < 2 ^ 33
    omega

theorem five_bytes (n : Nat) : n * 256 * 256 * 256 * 256 * 256 = n * 2 ^ 40 := by omega

/-- **The stream that is flushed spells the low end.** -/
theorem flush_spec {rc : RangeEncoder} (h : rc.Carries) :
    rc.flush.body.length = rc.interval.digits ∧ beNat rc.flush.body = rc.interval.low ∧
      rc.flush.data.take LIMLZ_HEADER_SIZE = rc.data.take LIMLZ_HEADER_SIZE := by
  obtain ⟨h₁, hi₁, hd₁, -, -, hl₁, ht₁⟩ := shiftLow_spec h
  obtain ⟨h₂, hi₂, hd₂, -, -, hl₂, ht₂⟩ := shiftLow_spec h₁
  obtain ⟨h₃, hi₃, hd₃, -, -, hl₃, ht₃⟩ := shiftLow_spec h₂
  obtain ⟨h₄, hi₄, hd₄, -, -, hl₄, ht₄⟩ := shiftLow_spec h₃
  obtain ⟨h₅, hi₅, hd₅, -, -, hl₅, ht₅⟩ := shiftLow_spec h₄
  have hlow₄ : rc.shiftLow.shiftLow.shiftLow.shiftLow.low = 0 := by omega
  have hlow : rc.shiftLow.shiftLow.shiftLow.shiftLow.shiftLow.interval.low =
      rc.interval.low * 2 ^ 40 := by
    rw [hi₅, hi₄, hi₃, hi₂, hi₁]
    exact five_bytes _
  have hdigits : rc.shiftLow.shiftLow.shiftLow.shiftLow.shiftLow.interval.digits =
      rc.interval.digits + 5 := by
    rw [hd₅, hd₄, hd₃, hd₂, hd₁]
  have hflush : rc.flush = rc.shiftLow.shiftLow.shiftLow.shiftLow.shiftLow := rfl
  rw [← hflush] at hlow hdigits ht₅
  -- nothing is left of the low end, so the last shift emits what is held back
  have hlast : rc.flush.cache = 0 ∧ rc.flush.pending = 1 ∧ rc.flush.low = 0 := by
    rw [hflush, shiftLow, hlow₄]
    exact ⟨rfl, rfl, rfl⟩
  have hsoFar : rc.flush.soFar = rc.flush.body ++ [0] := by
    rw [soFar, hlast.1, hlast.2.1]
    rfl
  have h0 : (0 : UInt8).toNat = 0 := rfl
  rw [interval_low, hsoFar, beNat_concat, h0, hlast.2.2] at hlow
  rw [interval_digits, hsoFar, List.length_append, List.length_singleton] at hdigits
  refine ⟨by omega, by omega, ?_⟩
  exact ht₅.trans (ht₄.trans (ht₃.trans (ht₂.trans ht₁)))

/-! ## What a bit does to the interval -/

/-- What holds between two bits, with a range of at least `2 ^ 24`, and of at least `2 ^ 16` before
it is normalised. -/
structure Live (least : Nat) (rc : RangeEncoder) : Prop extends Carries rc where
  range_ge : least ≤ rc.range
  range_lt : rc.range < 2 ^ 32
  high_le : rc.low + rc.range ≤ 2 ^ 33
  high_full : rc.cache = 255 → rc.low + rc.range ≤ 2 ^ 32
  probs : ∀ i, 31 ≤ rc.probs i ∧ rc.probs i ≤ 2017

/-- The byte that is held back now can take a carry from anywhere in the interval. -/
theorem shiftLow_full {rc : RangeEncoder} {width : Nat} (hwidth : width < 2 ^ 24)
    (hle : rc.low + width ≤ 2 ^ 33) (hfull : rc.cache = 255 → rc.low + width ≤ 2 ^ 32)
    (h : rc.shiftLow.cache = 255) : rc.shiftLow.low + width * 2 ^ 8 ≤ 2 ^ 32 := by
  unfold shiftLow at *
  dsimp only at *
  split at h
  · next hemit =>
    have hcache : rc.low % 2 ^ 32 / 2 ^ 24 = 255 := h
    rw [if_pos hemit]
    show rc.low % 2 ^ 32 * 2 ^ 8 % 2 ^ 32 + width * 2 ^ 8 ≤ 2 ^ 32
    omega
  · next hhold =>
    have hlow := hfull h
    rw [if_neg hhold]
    show rc.low % 2 ^ 32 * 2 ^ 8 % 2 ^ 32 + width * 2 ^ 8 ≤ 2 ^ 32
    omega

/-- The encoder as `normalise` gives it to `shift_low`. -/
def rescale (rc : RangeEncoder) : RangeEncoder := { rc with range := rc.range * 2 ^ 8 }

theorem normalise_of_lt {rc : RangeEncoder} (h : rc.range < 2 ^ 24) :
    rc.normalise = rc.rescale.shiftLow := by
  have hrange : rc.range * 2 ^ 8 % 2 ^ 32 = rc.range * 2 ^ 8 := by omega
  have hlt : rc.range < 0x1000000 := h
  unfold normalise rescale
  rw [if_pos hlt, hrange]

theorem normalise_of_le {rc : RangeEncoder} (h : 2 ^ 24 ≤ rc.range) : rc.normalise = rc :=
  if_neg (Nat.not_lt.mpr h)

theorem rescale_spec {rc : RangeEncoder} (h : rc.Live (2 ^ 16)) (hsmall : rc.range < 2 ^ 24) :
    rc.rescale.shiftLow.Live (2 ^ 24) ∧
      rc.rescale.shiftLow.interval = rc.interval.refine ∧
      rc.rescale.shiftLow.range = rc.range * 2 ^ 8 ∧
      rc.rescale.shiftLow.probs = rc.probs ∧
      rc.rescale.shiftLow.data.take LIMLZ_HEADER_SIZE = rc.data.take LIMLZ_HEADER_SIZE := by
  have hge := h.range_ge
  have hcarries : rc.rescale.Carries := ⟨h.header, h.pending, h.cache, h.low, h.full⟩
  obtain ⟨hc, hi, hd, hr, hp, hl, ht⟩ := shiftLow_spec hcarries
  have hfull : rc.rescale.shiftLow.cache = 255 →
      rc.rescale.shiftLow.low + rc.range * 2 ^ 8 ≤ 2 ^ 32 :=
    shiftLow_full hsmall h.high_le h.high_full
  have hlow : rc.rescale.shiftLow.low < 2 ^ 32 := by
    rw [hl]
    exact Nat.mod_lt _ (by decide)
  have hr' : rc.rescale.shiftLow.range = rc.range * 2 ^ 8 := hr
  refine ⟨⟨hc, ?_, ?_, ?_, fun h255 => ?_, ?_⟩, ?_, hr', hp, ht⟩
  · rw [hr']
    omega
  · rw [hr']
    omega
  · rw [hr']
    omega
  · rw [hr']
    exact hfull h255
  · rw [hp]
    exact h.probs
  · show Interval.mk _ _ _ = Interval.mk _ _ _
    rw [Interval.mk.injEq]
    exact ⟨hi, hr', hd⟩

theorem normalise_live {rc : RangeEncoder} (h : rc.Live (2 ^ 16)) :
    rc.normalise.Live (2 ^ 24) := by
  by_cases hsmall : rc.range < 2 ^ 24
  · rw [normalise_of_lt hsmall]
    exact (rescale_spec h hsmall).1
  · rw [normalise_of_le (Nat.not_lt.mp hsmall)]
    exact ⟨h.toCarries, Nat.not_lt.mp hsmall, h.range_lt, h.high_le, h.high_full, h.probs⟩

theorem normalise_header {rc : RangeEncoder} (h : rc.Live (2 ^ 16)) :
    rc.normalise.data.take LIMLZ_HEADER_SIZE = rc.data.take LIMLZ_HEADER_SIZE := by
  by_cases hsmall : rc.range < 2 ^ 24
  · rw [normalise_of_lt hsmall]
    exact (rescale_spec h hsmall).2.2.2.2
  · rw [normalise_of_le (Nat.not_lt.mp hsmall)]

theorem holds_of_normalise {rc : RangeEncoder} (h : rc.Live (2 ^ 16)) {bs : List UInt8}
    (hbs : rc.normalise.interval.Holds bs) : rc.interval.Holds bs := by
  by_cases hsmall : rc.range < 2 ^ 24
  · rw [normalise_of_lt hsmall, (rescale_spec h hsmall).2.1] at hbs
    exact hbs.of_refine
  · rwa [normalise_of_le (Nat.not_lt.mp hsmall)] at hbs

/-- The encoder with a part of its interval. -/
def choose (rc : RangeEncoder) (offset width : Nat) (probs : Nat → Nat) : RangeEncoder :=
  { rc with low := rc.low + offset, range := width, probs := probs }

theorem choose_interval (rc : RangeEncoder) (offset width : Nat) (probs : Nat → Nat) :
    (rc.choose offset width probs).interval = rc.interval.part offset width := by
  show Interval.mk _ _ _ = Interval.mk _ _ _
  rw [Interval.mk.injEq]
  exact ⟨(Nat.add_assoc _ _ _).symm, rfl, rfl⟩

theorem choose_live {rc : RangeEncoder} (h : rc.Live (2 ^ 24)) {offset width : Nat}
    {probs : Nat → Nat} (hle : offset + width ≤ rc.range) (hwidth : 2 ^ 16 ≤ width)
    (hprobs : ∀ i, 31 ≤ probs i ∧ probs i ≤ 2017) :
    (rc.choose offset width probs).Live (2 ^ 16) := by
  have h1 := h.range_lt
  have h2 := h.high_le
  have h3 := h.high_full
  refine ⟨⟨h.header, h.pending, h.cache, ?_, fun hc => ?_⟩, hwidth, ?_, ?_, fun hc => ?_, hprobs⟩
  · show rc.low + offset < 2 ^ 33
    omega
  · have := h3 hc
    show rc.low + offset < 2 ^ 32
    omega
  · show width < 2 ^ 32
    omega
  · show rc.low + offset + width ≤ 2 ^ 33
    omega
  · have := h3 hc
    show rc.low + offset + width ≤ 2 ^ 32
    omega

/-- Where a bit divides the range. -/
def bound (rc : RangeEncoder) (index : Nat) : Nat := rc.range / 2 ^ 11 * rc.probs index

/-- The probability after a bit. -/
def adapt (prob : Nat) (bit : Bool) : Nat :=
  if bit then prob - prob / 2 ^ 5 else prob + (2048 - prob) / 2 ^ 5

theorem adapt_bounds {prob : Nat} (h : 31 ≤ prob ∧ prob ≤ 2017) (bit : Bool) :
    31 ≤ adapt prob bit ∧ adapt prob bit ≤ 2017 := by
  unfold adapt
  split
  · omega
  · omega

theorem store_bounds {probs : Nat → Nat} (h : ∀ i, 31 ≤ probs i ∧ probs i ≤ 2017) (index : Nat)
    (bit : Bool) (i : Nat) : 31 ≤ store probs index (adapt (probs index) bit) i ∧
      store probs index (adapt (probs index) bit) i ≤ 2017 := by
  unfold store
  split
  · exact adapt_bounds (h index) bit
  · exact h i

theorem bound_bounds {rc : RangeEncoder} (h : rc.Live (2 ^ 24)) (index : Nat) :
    2 ^ 16 ≤ rc.bound index ∧ rc.bound index + 2 ^ 16 ≤ rc.range := by
  obtain ⟨h31, h2017⟩ := h.probs index
  have hge := h.range_ge
  have hlow := Nat.mul_le_mul_left (rc.range / 2 ^ 11) h31
  have hhigh := Nat.mul_le_mul_left (rc.range / 2 ^ 11) h2017
  unfold bound
  generalize rc.range / 2 ^ 11 * rc.probs index = b at *
  omega

/-- `encode_bit` keeps the lower part for a 0 and the upper part for a 1. -/
theorem encodeBit_eq {rc : RangeEncoder} (h : rc.Live (2 ^ 24)) (index : Nat) (bit : Bool) :
    rc.encodeBit index bit =
      (rc.choose (if bit then rc.bound index else 0)
        (if bit then rc.range - rc.bound index else rc.bound index)
        (store rc.probs index (adapt (rc.probs index) bit))).normalise := by
  have hb := bound_bounds h index
  have hr := h.range_lt
  have hbound : rc.range / 2 ^ 11 * rc.probs index % 2 ^ 32 = rc.bound index := by
    unfold bound at *
    exact Nat.mod_eq_of_lt (by omega)
  obtain ⟨h31, h2017⟩ := h.probs index
  unfold encodeBit
  dsimp only
  rw [hbound]
  cases bit with
  | false =>
    have hp : (rc.probs index + (2048 - rc.probs index) / 2 ^ 5) % 2 ^ 16 =
        adapt (rc.probs index) false := Nat.mod_eq_of_lt (by omega)
    rw [hp]
    rfl
  | true =>
    have hp : (rc.probs index - rc.probs index / 2 ^ 5) % 2 ^ 16 = adapt (rc.probs index) true :=
      Nat.mod_eq_of_lt (by omega)
    rw [hp, sub32_of_le (by omega) hr]
    rfl

theorem encodeDirect_eq (rc : RangeEncoder) (bit : Bool) :
    rc.encodeDirect bit =
      (rc.choose (if bit then rc.range / 2 else 0) (rc.range / 2) rc.probs).normalise := by
  cases bit with
  | false => rfl
  | true => rfl

end RangeEncoder

/-! ## Events -/

/-- What the encoder codes: a bit with the probability at an index, or one that has none. -/
inductive Event
  | coded (index : Nat) (bit : Bool)
  | direct (bit : Bool)
deriving DecidableEq, Repr

namespace RangeEncoder

def encodeEvent (rc : RangeEncoder) : Event → RangeEncoder
  | .coded index bit => rc.encodeBit index bit
  | .direct bit => rc.encodeDirect bit

def encodeAll (rc : RangeEncoder) (es : List Event) : RangeEncoder := es.foldl encodeEvent rc

theorem encodeAll_append (rc : RangeEncoder) (es es' : List Event) :
    rc.encodeAll (es ++ es') = (rc.encodeAll es).encodeAll es' := List.foldl_append

/-- Every event keeps a part of the interval and normalises. -/
theorem encodeEvent_eq {rc : RangeEncoder} (h : rc.Live (2 ^ 24)) (e : Event) :
    ∃ offset width probs, rc.encodeEvent e = (rc.choose offset width probs).normalise ∧
      offset + width ≤ rc.range ∧ (rc.choose offset width probs).Live (2 ^ 16) := by
  cases e with
  | coded index bit =>
    have hb := bound_bounds h index
    refine ⟨_, _, _, encodeBit_eq h index bit, ?_, ?_⟩
    · cases bit with
      | false =>
        show 0 + rc.bound index ≤ rc.range
        omega
      | true =>
        show rc.bound index + (rc.range - rc.bound index) ≤ rc.range
        omega
    · apply choose_live h _ _ (store_bounds h.probs index bit)
      · cases bit with
        | false =>
          show 0 + rc.bound index ≤ rc.range
          omega
        | true =>
          show rc.bound index + (rc.range - rc.bound index) ≤ rc.range
          omega
      · cases bit with
        | false => exact hb.1
        | true =>
          show 2 ^ 16 ≤ rc.range - rc.bound index
          omega
  | direct bit =>
    have hge := h.range_ge
    have hle : (if bit then rc.range / 2 else 0) + rc.range / 2 ≤ rc.range := by
      split
      · omega
      · omega
    exact ⟨_, _, _, encodeDirect_eq rc bit, hle, choose_live h hle (by omega) h.probs⟩

theorem encodeEvent_live {rc : RangeEncoder} (h : rc.Live (2 ^ 24)) (e : Event) :
    (rc.encodeEvent e).Live (2 ^ 24) ∧
      (rc.encodeEvent e).data.take LIMLZ_HEADER_SIZE = rc.data.take LIMLZ_HEADER_SIZE := by
  obtain ⟨offset, width, probs, heq, -, hlive⟩ := encodeEvent_eq h e
  rw [heq]
  exact ⟨normalise_live hlive, normalise_header hlive⟩

theorem holds_of_encodeEvent {rc : RangeEncoder} (h : rc.Live (2 ^ 24)) (e : Event)
    {bs : List UInt8} (hbs : (rc.encodeEvent e).interval.Holds bs) : rc.interval.Holds bs := by
  obtain ⟨offset, width, probs, heq, hle, hlive⟩ := encodeEvent_eq h e
  rw [heq] at hbs
  have hpart := holds_of_normalise hlive hbs
  rw [choose_interval] at hpart
  exact hpart.of_part hle

/-- **The flushed stream codes the interval of every state on the way.** -/
theorem encodeAll_spec (es : List Event) : ∀ {rc : RangeEncoder}, rc.Live (2 ^ 24) →
    (rc.encodeAll es).Live (2 ^ 24) ∧
      rc.interval.Holds (rc.encodeAll es).flush.body ∧
      (rc.encodeAll es).flush.data.take LIMLZ_HEADER_SIZE = rc.data.take LIMLZ_HEADER_SIZE := by
  induction es with
  | nil =>
    intro rc h
    obtain ⟨hlen, hnum, htake⟩ := flush_spec h.toCarries
    have hwidth : rc.interval.width = rc.range := rfl
    have hge := h.range_ge
    show rc.Live _ ∧ rc.interval.Holds rc.flush.body ∧ _
    refine ⟨h, ⟨Nat.le_of_eq hlen.symm, ?_, ?_⟩, htake⟩
    · rw [← hlen, List.take_length]
      omega
    · rw [← hlen, List.take_length]
      omega
  | cons e es ih =>
    intro rc h
    obtain ⟨hlive, htake⟩ := encodeEvent_live h e
    obtain ⟨h1, h2, h3⟩ := ih hlive
    exact ⟨h1, holds_of_encodeEvent h e h2, h3.trans htake⟩

end RangeEncoder

/-! ## The decoder beside it -/

variable {s : Stream} {rc : RangeEncoder} {d : RangeDecoder}

/-- The decoder has read what the interval says, and knows where in it the stream is. -/
structure Mirrors (s : Stream) (rc : RangeEncoder) (d : RangeDecoder) : Prop where
  range : d.range = rc.range
  code : d.code = rc.interval.code (s.bytes.drop LIMLZ_HEADER_SIZE)
  source : d.source = s.address + (LIMLZ_HEADER_SIZE + rc.interval.digits)
  probs : d.probs = rc.probs

/-- The decoder mirrors the encoder once it has normalised. -/
def Synced (s : Stream) (rc : RangeEncoder) (d : RangeDecoder) : Prop :=
  ∃ d', normalise s d = .ok ((), d') ∧ Mirrors s rc d'

theorem rangeHigh_eq_zero_iff (h : d.range < 2 ^ 32) : d.rangeHigh = 0 ↔ d.range < 2 ^ 24 := by
  unfold RangeDecoder.rangeHigh
  omega

theorem normalise_of_high (h : d.rangeHigh ≠ 0) : normalise s d = .ok ((), d) := if_pos h

theorem synced_normalise (hfit : s.address + s.bytes.length < 2 ^ 32) (hlive : rc.Live (2 ^ 16))
    (hholds : rc.normalise.interval.Holds (s.bytes.drop LIMLZ_HEADER_SIZE))
    (h : Mirrors s rc d) : Synced s rc.normalise d := by
  have hrange : d.range < 2 ^ 32 := by
    rw [h.range]
    exact hlive.range_lt
  by_cases hsmall : rc.range < 2 ^ 24
  · rw [RangeEncoder.normalise_of_lt hsmall] at hholds ⊢
    obtain ⟨-, hinterval, hrange', hprobs, -⟩ := RangeEncoder.rescale_spec hlive hsmall
    rw [hinterval] at hholds
    have hbefore := hholds.of_refine
    have hcode := hbefore.code_lt
    have hwidth : rc.interval.width = rc.range := rfl
    have hdigits : rc.interval.digits + 1 ≤ (s.bytes.drop LIMLZ_HEADER_SIZE).length :=
      hholds.digits_le
    have hlt : LIMLZ_HEADER_SIZE + rc.interval.digits < s.bytes.length := by
      rw [List.length_drop] at hdigits
      omega
    have hnext := hbefore.code_refine hdigits
    rw [List.getElem_drop] at hnext
    have hend : s.sourceEnd = s.address + s.bytes.length := Nat.mod_eq_of_lt hfit
    have hread := read_at hlt
    rw [Nat.mod_eq_of_lt (by omega), ← h.source] at hread
    have hhigh : d.rangeHigh = 0 := by
      rw [rangeHigh_eq_zero_iff hrange, h.range]
      exact hsmall
    refine ⟨{ d with
      source := (d.source + 1) % 2 ^ 32
      range := d.range * 2 ^ 8 % 2 ^ 32
      code := d.code * 2 ^ 8 % 2 ^ 32 +
        (s.bytes[LIMLZ_HEADER_SIZE + rc.interval.digits]).toNat }, ?_, ?_⟩
    · unfold normalise
      rw [if_neg (not_not.mpr hhigh), hend, h.source, if_neg (by omega), ← h.source, hread]
      rfl
    · refine ⟨?_, ?_, ?_, ?_⟩
      · show d.range * 2 ^ 8 % 2 ^ 32 = _
        rw [hrange', h.range]
        omega
      · show d.code * 2 ^ 8 % 2 ^ 32 + _ = _
        rw [hinterval, hnext, h.code]
        omega
      · show (d.source + 1) % 2 ^ 32 = _
        rw [hinterval, h.source]
        show _ = s.address + (LIMLZ_HEADER_SIZE + (rc.interval.digits + 1))
        omega
      · show d.probs = _
        rw [hprobs, h.probs]
  · rw [RangeEncoder.normalise_of_le (Nat.not_lt.mp hsmall)]
    refine ⟨d, normalise_of_high ?_, h⟩
    rw [Ne, rangeHigh_eq_zero_iff hrange, h.range]
    exact hsmall

/-- What the decoder does to choose the part that the encoder chose. -/
theorem synced_choose (hfit : s.address + s.bytes.length < 2 ^ 32) {offset width : Nat}
    {probs : Nat → Nat} (hlive : (rc.choose offset width probs).Live (2 ^ 16))
    (hholds : (rc.choose offset width probs).normalise.interval.Holds
      (s.bytes.drop LIMLZ_HEADER_SIZE))
    (h : Mirrors s rc d) :
    Synced s (rc.choose offset width probs).normalise
      { d with code := d.code - offset, range := width, probs := probs } := by
  apply synced_normalise hfit hlive hholds
  refine ⟨rfl, ?_, ?_, rfl⟩
  · rw [RangeEncoder.choose_interval, Interval.code_part]
    show d.code - offset = _
    rw [h.code]
  · rw [RangeEncoder.choose_interval]
    exact h.source

theorem bit_eq {d' : RangeDecoder} {esi : Nat} (h : normalise s d = .ok ((), d')) :
    bit s esi d = bitReady esi d' := by
  show (if d.rangeHigh = 0 then normalise s >>= fun _ => bitReady esi else bitReady esi) d = _
  split
  · show normalise s d >>= (fun r => bitReady esi r.2) = _
    rw [h]
    rfl
  · next hhigh =>
    rw [normalise_of_high hhigh] at h
    cases h
    rfl

theorem bit_synced (hfit : s.address + s.bytes.length < 2 ^ 32) (hlive : rc.Live (2 ^ 24))
    {index : Nat} (hindex : index < PROBS) {b : Bool}
    (hholds : (rc.encodeBit index b).interval.Holds (s.bytes.drop LIMLZ_HEADER_SIZE))
    (h : Synced s rc d) :
    ∃ d', bit s index d = .ok (b, d') ∧ Synced s (rc.encodeBit index b) d' := by
  obtain ⟨d₁, hnormalise, hm⟩ := h
  have heq := RangeEncoder.encodeBit_eq hlive index b
  obtain ⟨hb1, hb2⟩ := RangeEncoder.bound_bounds hlive index
  have hrange := hlive.range_lt
  obtain ⟨h31, h2017⟩ := hlive.probs index
  have hbound : d₁.range / 2 ^ PROB_BITS * d₁.probs index % 2 ^ 32 = rc.bound index := by
    have hlt : rc.bound index < 2 ^ 32 := by omega
    rw [hm.range, hm.probs]
    exact Nat.mod_eq_of_lt hlt
  have hchoose : (rc.choose (if b then rc.bound index else 0)
      (if b then rc.range - rc.bound index else rc.bound index)
      (store rc.probs index (RangeEncoder.adapt (rc.probs index) b))).Live (2 ^ 16) := by
    apply RangeEncoder.choose_live hlive
    · cases b with
      | false =>
        show 0 + rc.bound index ≤ rc.range
        omega
      | true =>
        show rc.bound index + (rc.range - rc.bound index) ≤ rc.range
        omega
    · cases b with
      | false => exact hb1
      | true =>
        show 2 ^ 16 ≤ rc.range - rc.bound index
        omega
    · exact RangeEncoder.store_bounds hlive.probs index b
  rw [heq] at hholds
  have hpart := RangeEncoder.holds_of_normalise hchoose hholds
  rw [RangeEncoder.choose_interval] at hpart
  have hoffset := hpart.offset_le
  have hcode := hpart.code_lt
  rw [Interval.code_part] at hcode
  rw [← hm.code] at hoffset hcode
  have hsync := synced_choose hfit hchoose hholds hm
  rw [← heq] at hsync
  refine ⟨_, ?_, hsync⟩
  rw [bit_eq hnormalise]
  unfold bitReady
  rw [if_pos hindex]
  dsimp only
  rw [hbound]
  cases b with
  | false =>
    have hlt : d₁.code < rc.bound index := hcode
    have hprob : (d₁.probs index + sub32 PROB_TOTAL (d₁.probs index) / 2 ^ PROB_MOVE_BITS) % 2 ^ 16
        = RangeEncoder.adapt (rc.probs index) false := by
      rw [hm.probs, sub32_of_le (by simp only [PROB_TOTAL, PROB_BITS]; omega) (by decide)]
      exact Nat.mod_eq_of_lt (by simp only [PROB_TOTAL, PROB_BITS, PROB_MOVE_BITS]; omega)
    rw [if_pos hlt, hprob, hm.probs]
    rfl
  | true =>
    have hle : ¬d₁.code < rc.bound index := Nat.not_lt.mpr hoffset
    have hprob : (d₁.probs index - d₁.probs index / 2 ^ PROB_MOVE_BITS) % 2 ^ 16
        = RangeEncoder.adapt (rc.probs index) true := by
      have hlt : rc.probs index - rc.probs index / 2 ^ 5 < 2 ^ 16 := by omega
      rw [hm.probs]
      exact Nat.mod_eq_of_lt hlt
    rw [if_neg hle, hprob, hm.probs, hm.range, sub32_of_le (by omega) hrange]
    rfl

theorem directBit_synced (hfit : s.address + s.bytes.length < 2 ^ 32) (hlive : rc.Live (2 ^ 24))
    {b : Bool}
    (hholds : (rc.encodeDirect b).interval.Holds (s.bytes.drop LIMLZ_HEADER_SIZE))
    (h : Synced s rc d) :
    ∃ d', directBit s d = .ok (b, d') ∧ Synced s (rc.encodeDirect b) d' := by
  obtain ⟨d₁, hnormalise, hm⟩ := h
  have heq := RangeEncoder.encodeDirect_eq rc b
  have hge := hlive.range_ge
  have hchoose : (rc.choose (if b then rc.range / 2 else 0) (rc.range / 2) rc.probs).Live
      (2 ^ 16) := by
    apply RangeEncoder.choose_live hlive
    · split
      · omega
      · omega
    · omega
    · exact hlive.probs
  rw [heq] at hholds
  have hpart := RangeEncoder.holds_of_normalise hchoose hholds
  rw [RangeEncoder.choose_interval] at hpart
  have hoffset := hpart.offset_le
  have hcode := hpart.code_lt
  rw [Interval.code_part] at hcode
  rw [← hm.code] at hoffset hcode
  have hsync := synced_choose hfit hchoose hholds hm
  rw [← heq] at hsync
  refine ⟨_, ?_, hsync⟩
  show normalise s d >>= (fun r => (if r.2.code < r.2.range / 2 then _ else _ : Decode Bool) r.2)
    = _
  rw [hnormalise, ok_bind]
  dsimp only
  rw [hm.range]
  cases b with
  | false =>
    have hlt : d₁.code < rc.range / 2 := hcode
    rw [if_pos hlt, ← hm.probs]
    rfl
  | true =>
    have hle : ¬d₁.code < rc.range / 2 := Nat.not_lt.mpr hoffset
    rw [if_neg hle, ← hm.probs]
    rfl

/-! ## Reading what was written -/

/-- The stream was flushed after the events `es`, and the decoder is where they begin. -/
def Ready (s : Stream) (es : List Event) (d : RangeDecoder) : Prop :=
  ∃ rc : RangeEncoder, rc.Live (2 ^ 24) ∧ s.bytes = (rc.encodeAll es).flush.data ∧ Synced s rc d

theorem bit_reads (hfit : s.address + s.bytes.length < 2 ^ 32) {index : Nat}
    (hindex : index < PROBS) (b : Bool) :
    Reads (Ready s) [.coded index b] (bit s index) b := by
  rintro d rest ⟨rc, hlive, hbytes, hsync⟩
  have hlive' := (RangeEncoder.encodeEvent_live hlive (.coded index b)).1
  have hholds := (RangeEncoder.encodeAll_spec rest hlive').2.1
  have hbody : s.bytes.drop LIMLZ_HEADER_SIZE =
      ((rc.encodeBit index b).encodeAll rest).flush.body := congrArg _ hbytes
  obtain ⟨d', hbit, hsync'⟩ := bit_synced hfit hlive hindex (by rw [hbody]; exact hholds) hsync
  exact ⟨d', hbit, _, hlive', hbytes, hsync'⟩

theorem directBit_reads (hfit : s.address + s.bytes.length < 2 ^ 32) (b : Bool) :
    Reads (Ready s) [.direct b] (directBit s) b := by
  rintro d rest ⟨rc, hlive, hbytes, hsync⟩
  have hlive' := (RangeEncoder.encodeEvent_live hlive (.direct b)).1
  have hholds := (RangeEncoder.encodeAll_spec rest hlive').2.1
  have hbody : s.bytes.drop LIMLZ_HEADER_SIZE =
      ((rc.encodeDirect b).encodeAll rest).flush.body := congrArg _ hbytes
  obtain ⟨d', hbit, hsync'⟩ := directBit_synced hfit hlive (by rw [hbody]; exact hholds) hsync
  exact ⟨d', hbit, _, hlive', hbytes, hsync'⟩

/-- After the last event the stream is used up and the code is at the low end. -/
theorem ready_nil (hfit : s.address + s.bytes.length < 2 ^ 32) (h : Ready s [] d) :
    ∃ d', normalise s d = .ok ((), d') ∧ d'.code = 0 ∧ d'.source = s.sourceEnd := by
  obtain ⟨rc, hlive, hbytes, d', hnormalise, hm⟩ := h
  obtain ⟨hlen, hnum, htake⟩ := RangeEncoder.flush_spec hlive.toCarries
  have hbody : s.bytes.drop LIMLZ_HEADER_SIZE = rc.flush.body := congrArg _ hbytes
  have hheader : (s.bytes.take LIMLZ_HEADER_SIZE).length = LIMLZ_HEADER_SIZE := by
    rw [hbytes]
    show (rc.flush.data.take LIMLZ_HEADER_SIZE).length = _
    rw [htake, List.length_take, Nat.min_eq_left hlive.header]
  refine ⟨d', hnormalise, ?_, ?_⟩
  · rw [hm.code, hbody, Interval.code, ← hlen, List.take_length, hnum, Nat.sub_self]
  · have hsplit := congrArg List.length (List.take_append_drop LIMLZ_HEADER_SIZE s.bytes)
    rw [List.length_append, hheader, hbody, hlen] at hsplit
    have hend : s.sourceEnd = s.address + s.bytes.length := Nat.mod_eq_of_lt hfit
    rw [hm.source, hend, hsplit]

end Limine.Limlz
