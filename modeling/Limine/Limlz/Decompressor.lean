import Limine.Limlz.Format
import Mathlib.Logic.Function.Iterate

/-!
# The stage 1 decompressor

`stage1/decompressor.asm`, with its labels as definitions and its registers as arguments.  The
decompressor runs without memory protection, so the model checks every access the code does not:
a byte outside the stream, the output or the probabilities is a `fault`.
-/

namespace Limine.Limlz

/-- How a run ends before it hands over: at the label `error`, at an access outside the memory it
may use, or with the fuel of one of the model's loops used up. -/
inductive Halt
  | error
  | fault
  | outOfFuel
deriving DecidableEq, Repr

abbrev Run := Except Halt

/-- The constants `OUTPUT` and `CAPACITY`. -/
structure Layout where
  output : Nat
  capacity : Nat
  four_le : 4 ≤ output
  lt : output + capacity < 2 ^ 32

/-- The values they have unless the build says otherwise. -/
def Layout.stage1 : Layout where
  output := 0xf000
  capacity := 0x70000 - 0xf000
  four_le := by decide
  lt := by decide

/-- What `stream` and `stream_size` say. -/
structure Stream where
  address : Nat
  bytes : List UInt8
  address_lt : address < 2 ^ 32
  size_lt : bytes.length < 2 ^ 32

def STREAM_MIN_SIZE : Nat := LIMLZ_HEADER_SIZE + 5
def LITERAL_CONTEXT_SIZE : Nat := 768
def PROB_BITS : Nat := 11
def PROB_TOTAL : Nat := 2 ^ PROB_BITS
def PROB_MOVE_BITS : Nat := 5
def LITERAL_MATCH_BIT : Nat := 256
def SLOT_BITS : Nat := 6
def SLOT_MODEL_START : Nat := 4
def SLOT_MODEL_END : Nat := 14
def ALIGN_BITS : Nat := 4
def LENGTH_STATES : Nat := 4
def MATCH_MIN : Nat := 2
def LENGTH_LOW_BITS : Nat := 3
def LENGTH_HIGH_BITS : Nat := 8
def LENGTH_LOW_SIZE : Nat := 8
def LENGTH_MID_SIZE : Nat := 8
def LENGTH_HIGH_SIZE : Nat := 256
def LENGTH_LOW : Nat := 2
def LENGTH_MID : Nat := 130
def LENGTH_HIGH : Nat := 258
def BCJ_CALL : Nat := 0xe8
def BCJ_OPERAND_SIZE : Nat := 4
def BCJ_HISTORY_MASK : Nat := 0x77
def BCJ_MAX_HISTORY : Nat := 8
def BCJ_INVALID_HISTORY : Nat := 6
def BCJ_SIGN_HISTORY : Nat := 16
def BCJ_SIGN_BITS : Nat := 25

/-- `SOURCE_END`. -/
def Stream.sourceEnd (s : Stream) : Nat := (s.address + s.bytes.length) % 2 ^ 32

/-- The byte of the stream at an address. -/
def Stream.read (s : Stream) (address : Nat) : Run Nat :=
  match s.bytes[sub32 address s.address]? with
  | some b => .ok b.toNat
  | none => .error .fault

/-- The 32 bits of the stream `offset` bytes on, as `mov` loads them. -/
def Stream.read32 (s : Stream) (offset : Nat) : Run Nat := do
  let b0 ← s.read ((s.address + offset) % 2 ^ 32)
  let b1 ← s.read ((s.address + (offset + 1)) % 2 ^ 32)
  let b2 ← s.read ((s.address + (offset + 2)) % 2 ^ 32)
  let b3 ← s.read ((s.address + (offset + 3)) % 2 ^ 32)
  return b0 + b1 * 2 ^ 8 + b2 * 2 ^ 16 + b3 * 2 ^ 24

/-- The byte of the output at an address from `OUTPUT` up to `EDI`. -/
def readOutput (l : Layout) (output : List UInt8) (address : Nat) : Run UInt8 :=
  if address < l.output then .error .fault
  else
    match output[address - l.output]? with
    | some b => .ok b
    | none => .error .fault

/-- A byte stored at `EDI`, of an output that is declared to have `size` bytes. -/
def writeOutput (size : Nat) (output : List UInt8) (b : UInt8) : Run (List UInt8) :=
  if output.length < size then .ok (output ++ [b]) else .error .fault

/-- `SOURCE`, `RANGE`, `CODE` and the probabilities. -/
structure RangeDecoder where
  source : Nat
  range : Nat
  code : Nat
  probs : Nat → Nat

/-- A part of the code that reads from the range decoder. -/
abbrev Decode := StateT RangeDecoder Run

/-- `RANGE_HIGH`. -/
def RangeDecoder.rangeHigh (d : RangeDecoder) : Nat := d.range / 2 ^ 24 % 2 ^ 8

def normalise (s : Stream) : Decode Unit := fun d =>
  if d.rangeHigh ≠ 0 then .ok ((), d)
  else if s.sourceEnd ≤ d.source then .error .error
  else do
    let al ← s.read d.source
    .ok ((), { d with
      source := (d.source + 1) % 2 ^ 32
      range := d.range * 2 ^ 8 % 2 ^ 32
      code := d.code * 2 ^ 8 % 2 ^ 32 + al })

/-- `bit` from `.ready` on. -/
def bitReady (esi : Nat) : Decode Bool := fun d =>
  if esi < PROBS then
    let eax := d.probs esi
    let edx := d.range / 2 ^ PROB_BITS * eax % 2 ^ 32
    if d.code < edx then
      .ok (false, { d with
        range := edx
        probs := store d.probs esi
          ((eax + sub32 PROB_TOTAL eax / 2 ^ PROB_MOVE_BITS) % 2 ^ 16) })
    else
      .ok (true, { d with
        code := d.code - edx
        range := sub32 d.range edx
        probs := store d.probs esi ((eax - eax / 2 ^ PROB_MOVE_BITS) % 2 ^ 16) })
  else .error .fault

def bit (s : Stream) (esi : Nat) : Decode Bool := do
  let d ← get
  if d.rangeHigh = 0 then normalise s
  bitReady esi

/-- The loop of `tree`, with `ECX`, which is not 0 on entry, and `ESI` as they are there. -/
def treeLoop (s : Stream) (ebx : Nat) : Nat → Nat → Decode Nat
  | 0, esi => pure esi
  | ecx + 1, esi => do
    let cf ← bit s (ebx + esi)
    treeLoop s ebx ecx (esi + esi + cf.toNat)

def tree (s : Stream) (ebx ecx : Nat) : Decode Nat := treeLoop s ebx ecx 1

def treeLength (s : Stream) (ebx ecx edx : Nat) : Decode Nat := do
  let esi ← tree s ebx ecx
  return (esi + edx) % 2 ^ 32

def length (s : Stream) (esi ecx : Nat) : Decode Nat := do
  if !(← bit s esi) then
    treeLength s (esi + ecx * LENGTH_LOW_SIZE + LENGTH_LOW) LENGTH_LOW_BITS
      (sub32 MATCH_MIN LENGTH_LOW_SIZE)
  else if !(← bit s (esi + 1)) then
    treeLength s (esi + ecx * LENGTH_LOW_SIZE + LENGTH_LOW + (LENGTH_MID - LENGTH_LOW))
      LENGTH_LOW_BITS (sub32 (MATCH_MIN + LENGTH_LOW_SIZE) LENGTH_MID_SIZE)
  else
    treeLength s (esi + 1 + LENGTH_HIGH - 1) LENGTH_HIGH_BITS
      (sub32 (MATCH_MIN + LENGTH_LOW_SIZE + LENGTH_MID_SIZE) LENGTH_HIGH_SIZE)

/-- One pass of `.direct`, after `dec ecx`. -/
def directBit (s : Stream) : Decode Bool := do
  normalise s
  let d ← get
  let eax := d.range / 2
  if d.code < eax then
    set { d with range := eax }
    return false
  else
    set { d with range := eax, code := d.code - eax }
    return true

/-- The loop at `.direct`. -/
def direct (s : Stream) : Nat → Nat → Decode Nat
  | 0, _ => throw .outOfFuel
  | ecx + 1, ebx => do
    let cf ← directBit s
    let ebx := if cf then ebx ||| 2 ^ ecx else ebx
    if ecx = ALIGN_BITS then return ebx else direct s ecx ebx

/-- The loop at `.reverse_value`. -/
def reverseValue : Nat → Nat → Nat → Run Nat
  | 0, _, _ => .error .outOfFuel
  | fuel + 1, esi, ecx =>
    if esi / 2 = 0 then .ok ecx else reverseValue fuel (esi / 2) (ecx + ecx + esi % 2)

/-- `.reverse` and `.reverse_value`, whose first loop is that of `tree`. -/
def reverse (s : Stream) (edx ecx : Nat) : Decode Nat := do
  let esi ← treeLoop s edx ecx 1
  reverseValue 32 esi 0

/-- After the tree of `.slot`, up to `.distance`: the distance in the slot `ESI`. -/
def slotDistance (s : Stream) (esi : Nat) : Decode Nat := do
  if esi < SLOT_MODEL_START then return (esi + 1) % 2 ^ 32
  let ecx := esi / 2 - 1
  let ebx := (esi % 2 ||| 2) * 2 ^ ecx
  if esi < SLOT_MODEL_END then
    let ecx ← reverse s (ebx - esi + (LIMLZ_SPECIAL - 1)) ecx
    return (ebx + ecx + 1) % 2 ^ 32
  else
    let ebx ← direct s ecx ebx
    let ecx ← reverse s LIMLZ_ALIGN ALIGN_BITS
    return (ebx + ecx + 1) % 2 ^ 32

/-- From the length of a match to its distance. -/
def distance (s : Stream) (length : Nat) : Decode Nat := do
  let ebx := min (sub32 length MATCH_MIN) (LENGTH_STATES - 1)
  let esi ← tree s (ebx * 2 ^ SLOT_BITS + LIMLZ_SLOT) SLOT_BITS
  slotDistance s (esi - 2 ^ SLOT_BITS)

/-- The loop at `.literal`. -/
def literalLoop (s : Stream) (ecx : Nat) : Nat → Nat → Nat → Nat → Decode UInt8
  | 0, _, _, _ => throw .outOfFuel
  | fuel + 1, edx, bh, bl => do
    let edx := edx * 2
    let esi := (bh * 2 ^ 8 + bl) &&& edx &&& LITERAL_MATCH_BIT
    let cf ← bit s (esi + (bh * 2 ^ 8 + bl) + ecx)
    let sum := bl + bl + cf.toNat
    if 2 ^ 8 ≤ sum then return UInt8.ofNat sum
    else
      literalLoop s ecx fuel edx (if edx / 2 ^ 8 % 2 = sum % 2 then bh else 0) sum

/-- `STATE`, the rep distances, the output up to `EDI`, and the byte `EBX` holds at `next`. -/
structure Lz where
  state : Nat
  rep0 : Nat
  rep1 : Nat
  rep2 : Nat
  rep3 : Nat
  output : List UInt8
  ebx : UInt8

/-- `EDI`. -/
def Lz.edi (l : Layout) (z : Lz) : Nat := l.output + z.output.length

/-- `.literal_state` to `.set_state`. -/
def literalState (state : Nat) : Nat :=
  let al := if state < 3 then 0 else state - 3
  if al < 7 then al else al - 3

/-- The literal branch of `next`, up to `.literal_done`; in the states after a match the byte at
the last distance is at hand. -/
def literalByte (l : Layout) (s : Stream) (z : Lz) : Decode UInt8 :=
  let ecx := z.ebx.toNat / 2 ^ (8 - 2) * LITERAL_CONTEXT_SIZE + LIMLZ_LITERAL
  if z.state < 7 then literalLoop s ecx 8 0 0 1
  else do
    let edx ← readOutput l z.output (sub32 (z.edi l) z.rep0)
    literalLoop s ecx 8 edx.toNat 1 1

def literal (l : Layout) (s : Stream) (size : Nat) (z : Lz) : Decode Lz := do
  let b ← literalByte l s z
  let output ← writeOutput size z.output b
  return { z with state := literalState z.state, output, ebx := b }

/-- `rep stosb`. -/
def stosb (size : Nat) (al : UInt8) : Nat → List UInt8 → Run (List UInt8)
  | 0, output => .ok output
  | ecx + 1, output => do stosb size al ecx (← writeOutput size output al)

/-- `rep movsb`. -/
def movsb (l : Layout) (size : Nat) : Nat → Nat → List UInt8 → Run (List UInt8)
  | 0, _, output => .ok output
  | ecx + 1, esi, output => do
    let al ← readOutput l output esi
    movsb l size ecx (esi + 1) (← writeOutput size output al)

def copy (l : Layout) (size : Nat) (z : Lz) (ecx : Nat) : Run Lz :=
  let edi := z.edi l
  if edi < z.rep0 then .error .error
  else
    let esi := edi - z.rep0
    if esi < l.output then .error .error
    else if edi ≤ esi then .error .error
    else if sub32 (l.output + size) edi < ecx then .error .error
    else do
      let output ← if z.rep0 = 1 then do
          stosb size (← readOutput l z.output esi) ecx z.output
        else movsb l size ecx esi z.output
      let ebx ← readOutput l output (l.output + output.length - 1)
      return { z with output, ebx }

/-- `match`, which is entered with `ECX` zero. -/
def matchSymbol (l : Layout) (s : Stream) (size : Nat) (z : Lz) : Decode Lz := do
  let state := if z.state < 7 then 0 else 3
  if !(← bit s (z.state + LIMLZ_IS_REP)) then
    let ecx ← length s LIMLZ_LENGTH 0
    let rep0 ← distance s ecx
    copy l size { z with
      state := state + 7, rep0, rep1 := z.rep0, rep2 := z.rep1, rep3 := z.rep2 } ecx
  else if !(← bit s (z.state + LIMLZ_REP_G0)) then
    if !(← bit s (z.state * 2 ^ 4 + LIMLZ_REP_LONG)) then
      copy l size { z with state := state ||| 9 } 1
    else
      let ecx ← length s LIMLZ_REP_LENGTH 0
      copy l size { z with state := state ||| 8 } ecx
  else if !(← bit s (z.state + LIMLZ_REP_G1)) then
    let ecx ← length s LIMLZ_REP_LENGTH 0
    copy l size { z with state := state ||| 8, rep0 := z.rep1, rep1 := z.rep0 } ecx
  else if !(← bit s (z.state + LIMLZ_REP_G2)) then
    let ecx ← length s LIMLZ_REP_LENGTH 0
    copy l size { z with
      state := state ||| 8, rep0 := z.rep2, rep1 := z.rep0, rep2 := z.rep1 } ecx
  else
    let ecx ← length s LIMLZ_REP_LENGTH 0
    copy l size { z with
      state := state ||| 8, rep0 := z.rep3, rep1 := z.rep0, rep2 := z.rep1, rep3 := z.rep2 } ecx

/-- `next` after its first comparison. -/
def symbol (l : Layout) (s : Stream) (size : Nat) (z : Lz) : Decode Lz := do
  if !(← bit s (z.state * 2 ^ 4)) then literal l s size z else matchSymbol l s size z

/-- `next`, until `EDI` is `OUTPUT_END`. -/
def next (l : Layout) (s : Stream) (size : Nat) : Nat → Lz → Decode Lz
  | 0, _ => throw .outOfFuel
  | fuel + 1, z => do
    if z.edi l = l.output + size then return z
    else next l s size fuel (← symbol l s size z)

/-- `.bcj_history`, once. -/
def bcjHistory (bl : Nat) : Nat := (bl &&& BCJ_HISTORY_MASK) * 2 % 2 ^ 8

/-- `BL` at `.bcj_check`, by way of `.bcj_history` or `.bcj_reset`. -/
def bcjCheck (ecx bl : Nat) : Nat := if BCJ_OPERAND_SIZE ≤ ecx then 0 else bcjHistory^[ecx] bl

/-- The loop at `.bcj_adjust`. -/
def bcjAdjust (edx bl : Nat) : Nat → Nat → Run Nat
  | 0, _ => .error .outOfFuel
  | fuel + 1, eax =>
    let eax := sub32 eax edx
    if bl = 0 then .ok eax
    else
      let cl := (Nat.log2 bl ^^^ 3) * 2 ^ 3
      if 1 < (eax / 2 ^ cl + 1) % 2 ^ 8 then .ok eax
      else bcjAdjust edx bl fuel (eax ^^^ (2 ^ 32 - 1 - (2 ^ 32 - 256) * 2 ^ cl % 2 ^ 32))

/-- `.bcj_store`: `BCJ_SIGN_BITS` bits of the value, the highest of them the sign. -/
def bcjSign (eax : Nat) : Nat :=
  if eax % 2 ^ BCJ_SIGN_BITS < 2 ^ (BCJ_SIGN_BITS - 1) then eax % 2 ^ BCJ_SIGN_BITS
  else eax % 2 ^ BCJ_SIGN_BITS + (2 ^ 32 - 2 ^ BCJ_SIGN_BITS)

/-- The operand at `ESI`. -/
def readOperand (l : Layout) (output : List UInt8) (esi : Nat) : Run Nat := do
  let b0 ← readOutput l output esi
  let b1 ← readOutput l output (esi + 1)
  let b2 ← readOutput l output (esi + 2)
  let b3 ← readOutput l output (esi + 3)
  return b0.toNat + b1.toNat * 2 ^ 8 + b2.toNat * 2 ^ 16 + b3.toNat * 2 ^ 24

/-- The operand at `ESI` replaced. -/
def writeOperand (l : Layout) (output : List UInt8) (esi eax : Nat) : Run (List UInt8) :=
  if l.output ≤ esi ∧ esi + 3 < l.output + output.length then
    .ok (write32 output (esi - l.output) eax)
  else .error .fault

/-- The loop at `.bcj_scan`, with `EDI` at the end of the output. -/
def bcjScan (l : Layout) : Nat → List UInt8 → Nat → Nat → Nat → Run (List UInt8)
  | 0, _, _, _, _ => .error .outOfFuel
  | fuel + 1, output, esi, edx, bl =>
    if l.output + output.length - BCJ_OPERAND_SIZE ≤ esi then .ok output
    else do
      let al ← readOutput l output esi
      let esi := esi + 1
      if 1 < (al - UInt8.ofNat BCJ_CALL).toNat then bcjScan l fuel output esi edx bl
      else
        let bl := bcjCheck (sub32 esi edx) bl
        let al ← readOutput l output (esi + BCJ_OPERAND_SIZE - 1)
        if 1 < (al + 1).toNat then bcjScan l fuel output esi esi (bl ||| 1)
        else if BCJ_MAX_HISTORY < bl ∨ bl = BCJ_INVALID_HISTORY then
          bcjScan l fuel output esi esi (bl ||| 1 ||| BCJ_SIGN_HISTORY)
        else
          let eax ← bcjAdjust (esi + BCJ_OPERAND_SIZE - l.output) bl 2 (← readOperand l output esi)
          let output ← writeOperand l output esi (bcjSign eax)
          bcjScan l fuel output (esi + BCJ_OPERAND_SIZE) esi 0

/-- `finish`, up to `.crc_done`. -/
def finish (l : Layout) (s : Stream) (checksum : Nat) (z : Lz) : Decode Lz := do
  normalise s
  let d ← get
  if d.code ≠ 0 then throw .error
  if d.source ≠ s.sourceEnd then throw .error
  let output ← bcjScan l (z.output.length + 1) z.output l.output (l.output - BCJ_OPERAND_SIZE) 0
  if (crc32 output).toNat ≠ checksum then throw .error
  return { z with output }

/-- What `_start` puts into the registers of the range decoder. -/
def RangeDecoder.start (s : Stream) (code : Nat) : RangeDecoder where
  source := (s.address + STREAM_MIN_SIZE) % 2 ^ 32
  range := 2 ^ 32 - 1
  code := code
  probs := fun _ => PROB_TOTAL / 2

/-- What it leaves for `next`. -/
def Lz.start : Lz where
  state := 0
  rep0 := 1
  rep1 := 1
  rep2 := 1
  rep3 := 1
  output := []
  ebx := 0

/-- From the jump to `next` on. -/
def decode (l : Layout) (s : Stream) (size checksum : Nat) : Decode Lz := do
  let z ← next l s size (size + 1) Lz.start
  finish l s checksum z

/-- From `_start` to the jump to `OUTPUT`: the output it hands over, and what the range decoder
ended with. -/
def decompress (l : Layout) (s : Stream) : Run (Lz × RangeDecoder) :=
  if s.bytes.length < STREAM_MIN_SIZE then .error .error
  else do
    let first ← s.read ((s.address + LIMLZ_HEADER_SIZE) % 2 ^ 32)
    if first ≠ 0 then .error .error
    else
      let size ← s.read32 4
      if l.capacity < size then .error .error
      else
        let checksum ← s.read32 0
        -- the code is stored with its highest byte first
        let b0 ← s.read ((s.address + (LIMLZ_HEADER_SIZE + 1)) % 2 ^ 32)
        let b1 ← s.read ((s.address + (LIMLZ_HEADER_SIZE + 2)) % 2 ^ 32)
        let b2 ← s.read ((s.address + (LIMLZ_HEADER_SIZE + 3)) % 2 ^ 32)
        let b3 ← s.read ((s.address + (LIMLZ_HEADER_SIZE + 4)) % 2 ^ 32)
        let code := b0 * 2 ^ 24 + b1 * 2 ^ 16 + b2 * 2 ^ 8 + b3
        decode l s size checksum (RangeDecoder.start s code)

end Limine.Limlz
