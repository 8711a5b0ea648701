import Limine.Limlz.RangeEncoder
import Mathlib.Logic.Function.Iterate

/-!
# The compressor

The rest of `tools/limlzpack.c`: the x86 filter, the match finder with the backwards parse, and
`compress`.
-/

namespace Limine.Limlz

/-! ## The filter -/

/-- The inner loop of `bcj_encode`, on the operand at `pos + 1`. -/
def bcjEncodeAdjust (pos history shift : Nat) : Nat → Nat → Option Nat
  | 0, _ => none
  | fuel + 1, value =>
    let value := (value + (pos + 5)) % 2 ^ 32
    let high := value / 2 ^ shift % 256
    if history = 0 ∨ (high ≠ 0 ∧ high ≠ 255) then some value
    else
      bcjEncodeAdjust pos history shift fuel
        (value ^^^ (2 ^ 32 - 1 - (2 ^ 32 - 256) * 2 ^ shift % 2 ^ 32))

/-- The turns of the `while (gap--)` of `bcj_encode`, once. -/
def bcjEncodeHistory (history : Nat) : Nat := (history &&& 0x77) * 2

/-- `data[pos + 4]` and the three bytes before it, as the end of the loop stores them. -/
def bcjEncodeStore (data : List UInt8) (pos value : Nat) : List UInt8 :=
  let data := data.set (pos + 4) (UInt8.ofNat (2 ^ 32 - value / 2 ^ 24 % 2))
  let data := data.set (pos + 1) (UInt8.ofNat value)
  let data := data.set (pos + 2) (UInt8.ofNat (value / 2 ^ 8))
  data.set (pos + 3) (UInt8.ofNat (value / 2 ^ 16))

/-- The loop of `bcj_encode`. -/
def bcjEncodeLoop : Nat → List UInt8 → Nat → Nat → Nat → Option (List UInt8)
  | 0, _, _, _, _ => none
  | fuel + 1, data, pos, previous, history =>
    if data.length - pos < 5 then some data
    else if byteAt data pos ≠ 0xe8 ∧ byteAt data pos ≠ 0xe9 then
      bcjEncodeLoop fuel data (pos + 1) previous history
    else
      let gap := sub32 pos previous
      let history := if 4 ≤ gap then 0 else bcjEncodeHistory^[gap] history
      let high := byteAt data (pos + 4)
      if (high = 0 ∨ high = 255) ∧ history ≤ 8 ∧ history ≠ 6 then
        let shift := if history ≠ 0 then 24 - Nat.log2 history * 8 else 0
        match bcjEncodeAdjust pos history shift 2 (read32 data (pos + 1)) with
        | none => none
        | some value => bcjEncodeLoop fuel (bcjEncodeStore data pos value) (pos + 5) pos 0
      else
        bcjEncodeLoop fuel data (pos + 1) pos
          (if high = 0 ∨ high = 255 then history ||| 1 ||| 16 else history ||| 1)

def bcjEncode (data : List UInt8) : Option (List UInt8) :=
  bcjEncodeLoop (data.length + 1) data 0 (2 ^ 32 - 1 - 4) 0

/-! ## The parse -/

def LIMLZ_MAX_MATCH : Nat := 273
def CHAIN_LIMIT : Nat := 128

/-- `struct match`. -/
structure Match where
  length : Nat
  distance : Nat
deriving DecidableEq, Repr

/-- `previous` and `head` of `struct match_finder`.  The last entry of `previous`, which is never
set, is never read. -/
structure MatchFinder where
  previous : Nat → Nat
  head : Nat → Nat

def hashAt (data : List UInt8) (pos : Nat) : Nat :=
  (byteAt data pos).toNat ||| (byteAt data (pos + 1)).toNat * 2 ^ 8

def insert (data : List UInt8) (mf : MatchFinder) (pos : Nat) : MatchFinder :=
  if 2 ≤ data.length - pos then
    let hash := hashAt data pos
    { previous := store mf.previous pos (mf.head hash), head := store mf.head hash (pos + 1) }
  else mf

/-- The loop of `match_length`, with `left` the bytes to its limit. -/
def matchLengthLoop (data : List UInt8) (pos distance : Nat) : Nat → Nat → Nat
  | 0, length => length
  | left + 1, length =>
    if byteAt data (pos + length) = byteAt data (pos - distance + length) then
      matchLengthLoop data pos distance left (length + 1)
    else length

def matchLength (data : List UInt8) (pos distance : Nat) : Nat :=
  matchLengthLoop data pos distance (min (data.length - pos) LIMLZ_MAX_MATCH) 0

def distancePrice (distance : Nat) : Nat := 6 + RangeEncoder.slotBits 32 (distance - 1)

/-- `cost` and `choices`. -/
structure ParseState where
  cost : Nat → Nat
  choices : Nat → Match

/-- The body of the loop over `len`. -/
def tryLength (pos distance price : Nat) (s : ParseState) (len : Nat) : ParseState :=
  let lengthPrice := if len < 10 then 4 else if len < 18 then 5 else 10
  let nextCost := price + lengthPrice + s.cost (pos + len)
  if nextCost ≤ s.cost pos then
    { cost := store s.cost pos nextCost, choices := store s.choices pos ⟨len, distance⟩ }
  else s

/-- The loop over `depth`, with `depths` turns left. -/
def tryCandidates (data : List UInt8) (mf : MatchFinder) (pos : Nat) :
    Nat → Nat → Nat → ParseState → ParseState
  | 0, _, _, s => s
  | depths + 1, candidate, longest, s =>
    if candidate = 0 then s
    else
      let previous := candidate - 1
      let candidate := mf.previous previous
      if data.length - pos ≤ longest ∨ longest = LIMLZ_MAX_MATCH then s
      else if byteAt data (pos + longest) ≠ byteAt data (previous + longest) then
        tryCandidates data mf pos depths candidate longest s
      else
        let distance := pos - previous
        let length := matchLength data pos distance
        let price := 2 + distancePrice distance
        tryCandidates data mf pos depths candidate (max longest length)
          ((List.range' (longest + 1) (length - longest)).foldl (tryLength pos distance price) s)

/-- The body of the loop over `pos` in `parse`. -/
def parseAt (data : List UInt8) (mf : MatchFinder) (pos : Nat) (s : ParseState) : ParseState :=
  let s := { cost := store s.cost pos (9 + s.cost (pos + 1)), choices := store s.choices pos ⟨1, 0⟩ }
  if data.length - pos < 2 then s
  else tryCandidates data mf pos CHAIN_LIMIT (mf.previous pos) 1 s

/-- The loop over `pos`, which runs backwards. -/
def parseLoop (data : List UInt8) (mf : MatchFinder) : Nat → ParseState → ParseState
  | 0, s => s
  | pos + 1, s => parseLoop data mf pos (parseAt data mf pos s)

/-- `parse`, with the `calloc` before it. -/
def parse (data : List UInt8) : Nat → Match :=
  let mf := (List.range data.length).foldl (insert data) ⟨fun _ => 0, fun _ => 0⟩
  (parseLoop data mf data.length ⟨fun _ => 0, fun _ => ⟨0, 0⟩⟩).choices

/-! ## Compressing -/

/-- `state` and `reps`. -/
structure Context where
  state : Nat
  reps0 : Nat
  reps1 : Nat
  reps2 : Nat
  reps3 : Nat

/-- `match_rep`. -/
def Context.matchRep (c : Context) (distance : Nat) : Nat :=
  if distance = c.reps0 then 0
  else if distance = c.reps1 then 1
  else if distance = c.reps2 then 2
  else if distance = c.reps3 then 3
  else 4

/-- What the end of the loop makes of `reps`. -/
def Context.useRep (c : Context) (matchRep distance : Nat) : Context :=
  { c with
    reps0 := distance
    reps1 := if 1 ≤ matchRep then c.reps0 else c.reps1
    reps2 := if 2 ≤ matchRep then c.reps1 else c.reps2
    reps3 := if 3 ≤ matchRep then c.reps2 else c.reps3 }

/-- The branch for a choice of one byte. -/
def encodeSingle (data : List UInt8) (pos : Nat) (c : Context) (rc : RangeEncoder) :
    Context × RangeEncoder :=
  let context := c.state * 16
  if c.reps0 ≤ pos ∧ byteAt data pos = byteAt data (pos - c.reps0) then
    ({ c with state := if c.state < 7 then 9 else 11 },
      (((rc.encodeBit context true).encodeBit (LIMLZ_IS_REP + c.state) true).encodeBit
        (LIMLZ_REP_G0 + c.state) false).encodeBit (LIMLZ_REP_LONG + context) false)
  else
    ({ c with
        state := if c.state < 4 then 0 else if c.state < 10 then c.state - 3 else c.state - 6 },
      (rc.encodeBit context false).encodeLiteral data pos c.state c.reps0)

/-- The bits that say which of the last distances is used again. -/
def encodeRep (c : Context) (matchRep : Nat) (rc : RangeEncoder) : RangeEncoder :=
  let rc := rc.encodeBit (LIMLZ_REP_G0 + c.state) (matchRep ≠ 0)
  if matchRep = 0 then rc.encodeBit (LIMLZ_REP_LONG + c.state * 16) true
  else
    let rc := rc.encodeBit (LIMLZ_REP_G1 + c.state) (matchRep ≠ 1)
    if 2 ≤ matchRep then rc.encodeBit (LIMLZ_REP_G2 + c.state) (matchRep = 3) else rc

/-- The branch for a match. -/
def encodeMatch (m : Match) (c : Context) (rc : RangeEncoder) : Context × RangeEncoder :=
  let matchRep := c.matchRep m.distance
  let rc := rc.encodeBit (c.state * 16) true
  let rc := rc.encodeBit (LIMLZ_IS_REP + c.state) (matchRep < 4)
  if matchRep < 4 then
    ({ c.useRep matchRep m.distance with state := if c.state < 7 then 8 else 11 },
      (encodeRep c matchRep rc).encodeLength LIMLZ_REP_LENGTH 0 m.length)
  else
    ({ c.useRep 3 m.distance with state := if c.state < 7 then 7 else 10 },
      (rc.encodeLength LIMLZ_LENGTH 0 m.length).encodeDistance m.length m.distance)

/-- The main loop of `compress`. -/
def compressLoop (data : List UInt8) (choices : Nat → Match) :
    Nat → Nat → Context → RangeEncoder → Option RangeEncoder
  | 0, _, _, _ => none
  | fuel + 1, pos, c, rc =>
    if pos < data.length then
      let m := choices pos
      if m.length < 2 then
        let (c, rc) := encodeSingle data pos c rc
        compressLoop data choices fuel (pos + 1) c rc
      else
        let (c, rc) := encodeMatch m c rc
        compressLoop data choices fuel (pos + m.length) c rc
    else some rc

/-- What `compress` sets `rc` to, before the header. -/
def RangeEncoder.start : RangeEncoder where
  data := []
  low := 0
  range := 2 ^ 32 - 1
  pending := 1
  cache := 0
  probs := fun _ => 1024

/-- The five `shift_low`s after the main loop. -/
def RangeEncoder.flush (rc : RangeEncoder) : RangeEncoder :=
  rc.shiftLow.shiftLow.shiftLow.shiftLow.shiftLow

/-- `compress`: what it leaves in `rc->data`. -/
def compress (x : List UInt8) : Option (List UInt8) := do
  let data ← bcjEncode x
  let rc := (RangeEncoder.start.put32 (crc32 x).toNat).put32 data.length
  let rc ← compressLoop data (parse data) (data.length + 1) 0 ⟨0, 1, 1, 1, 1⟩ rc
  return rc.flush.data

end Limine.Limlz
