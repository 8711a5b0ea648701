import Limine.Limlz.Format
import Limine.Lib.Bytes

/-!
# The range encoder

The first part of `tools/limlzpack.c`.  `put_byte` always finds room: the allocations are taken to
succeed, so `error` is never set.
-/

namespace Limine.Limlz

/-- `struct range_encoder`, of whose buffer only the `size` bytes written so far are kept. -/
structure RangeEncoder where
  data : List UInt8
  low : Nat
  range : Nat
  pending : Nat
  cache : Nat
  probs : Nat → Nat

namespace RangeEncoder

def put32 (rc : RangeEncoder) (value : Nat) : RangeEncoder :=
  { rc with data := rc.data ++ Lib.leBytes 4 value }

/-- The `do` loop of `shift_low`: the cached byte and, while `pending` lasts, `ff`s, all of them
with the carry added. -/
def delayed (cache pending carry : Nat) : List UInt8 :=
  UInt8.ofNat (cache + carry) :: List.replicate (pending - 1) (UInt8.ofNat (255 + carry))

def shiftLow (rc : RangeEncoder) : RangeEncoder :=
  let low := rc.low % 2 ^ 32
  let carry := rc.low / 2 ^ 32
  if low < 0xff000000 ∨ carry ≠ 0 then
    { rc with
      data := rc.data ++ delayed rc.cache rc.pending carry
      cache := low / 2 ^ 24
      pending := 1
      low := low * 2 ^ 8 % 2 ^ 32 }
  else
    { rc with pending := rc.pending + 1, low := low * 2 ^ 8 % 2 ^ 32 }

def normalise (rc : RangeEncoder) : RangeEncoder :=
  if rc.range < 0x1000000 then shiftLow { rc with range := rc.range * 2 ^ 8 % 2 ^ 32 } else rc

def encodeBit (rc : RangeEncoder) (index : Nat) (bit : Bool) : RangeEncoder :=
  let prob := rc.probs index
  let bound := rc.range / 2 ^ 11 * prob % 2 ^ 32
  if bit = false then
    normalise { rc with
      range := bound
      probs := store rc.probs index ((prob + (2048 - prob) / 2 ^ 5) % 2 ^ 16) }
  else
    normalise { rc with
      low := rc.low + bound
      range := sub32 rc.range bound
      probs := store rc.probs index ((prob - prob / 2 ^ 5) % 2 ^ 16) }

/-- A bit of the loop in `encode_distance` that uses no probability. -/
def encodeDirect (rc : RangeEncoder) (bit : Bool) : RangeEncoder :=
  let range := rc.range / 2
  normalise { rc with range := range, low := if bit then rc.low + range else rc.low }

/-- The loop of `encode_tree`, from the node it is at. -/
def encodeTreeLoop (index value : Nat) : Nat → Nat → RangeEncoder → RangeEncoder
  | 0, _, rc => rc
  | bits + 1, node, rc =>
    let bit := value.testBit bits
    encodeTreeLoop index value bits (node * 2 + bit.toNat) (rc.encodeBit (index + node) bit)

def encodeTree (rc : RangeEncoder) (index bits value : Nat) : RangeEncoder :=
  encodeTreeLoop index value bits 1 rc

/-- The loop of `encode_reverse`, from `i` on with `left` bits to come. -/
def encodeReverseLoop (index value : Nat) : Nat → Nat → Nat → RangeEncoder → RangeEncoder
  | 0, _, _, rc => rc
  | left + 1, i, node, rc =>
    let bit := value.testBit i
    encodeReverseLoop index value left (i + 1) (node * 2 + bit.toNat)
      (rc.encodeBit (index + node) bit)

def encodeReverse (rc : RangeEncoder) (index bits value : Nat) : RangeEncoder :=
  encodeReverseLoop index value bits 0 1 rc

def encodeLength (rc : RangeEncoder) (index pos length : Nat) : RangeEncoder :=
  let rc := rc.encodeBit index (10 ≤ length)
  if length < 10 then rc.encodeTree (index + 2 + pos * 8) 3 (length - 2)
  else
    let rc := rc.encodeBit (index + 1) (18 ≤ length)
    if length < 18 then rc.encodeTree (index + 130 + pos * 8) 3 (length - 10)
    else rc.encodeTree (index + 258) 8 (length - 18)

/-- How often `high >>= 1` is done while it is at least 4. -/
def slotBits : Nat → Nat → Nat
  | 0, _ => 0
  | fuel + 1, high => if 4 ≤ high then slotBits fuel (high / 2) + 1 else 0

/-- The loop over `i` in `encode_distance`, down to 5. -/
def encodeDirectLoop (extra : Nat) : Nat → RangeEncoder → RangeEncoder
  | 0, rc => rc
  | i + 1, rc => encodeDirectLoop extra i (rc.encodeDirect (extra.testBit (i + 4)))

def encodeDistance (rc : RangeEncoder) (length distance : Nat) : RangeEncoder :=
  let value := distance - 1
  let bits := slotBits 32 value
  let slot := if 4 ≤ value then (bits + 1) * 2 + value / 2 ^ bits % 2 else value
  let lenState := if length < 6 then length - 2 else 3
  let rc := rc.encodeTree (LIMLZ_SLOT + lenState * 64) 6 slot
  if slot < 4 then rc
  else
    let base := (2 ||| slot % 2) * 2 ^ bits
    let extra := value - base
    if slot < 14 then rc.encodeReverse (LIMLZ_SPECIAL + base - slot - 1) bits extra
    else
      (encodeDirectLoop extra (bits - 4) rc).encodeReverse LIMLZ_ALIGN 4 (extra % 16)

/-- The loop of `encode_literal`, with `i` bits of the byte still to come. -/
def encodeLiteralLoop (index : Nat) (byte : UInt8) :
    Nat → Nat → Nat → Nat → RangeEncoder → RangeEncoder
  | 0, _, _, _, rc => rc
  | i + 1, node, offset, matched, rc =>
    let bit := byte.toNat.testBit i
    let matched := matched * 2
    encodeLiteralLoop index byte i (node * 2 + bit.toNat)
      (if bit.toNat ≠ matched / 2 ^ 8 % 2 then 0 else offset) matched
      (rc.encodeBit (index + node + offset + (matched &&& offset)) bit)

def encodeLiteral (rc : RangeEncoder) (data : List UInt8) (pos state distance : Nat) :
    RangeEncoder :=
  let previous := if pos ≠ 0 then (byteAt data (pos - 1)).toNat else 0
  let index := LIMLZ_LITERAL + previous / 2 ^ 6 * 768
  let offset := if 7 ≤ state then 256 else 0
  let matched := if offset ≠ 0 then (byteAt data (pos - distance)).toNat else 0
  encodeLiteralLoop index (byteAt data pos) 8 1 offset matched rc

end RangeEncoder

end Limine.Limlz
