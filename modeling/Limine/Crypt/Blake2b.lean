import Limine.Lib.Bytes

/-!
# BLAKE2b

`crypt/blake2b.c`: BLAKE2b with a digest of 64 bytes and no key.  A state keeps the bytes it has
not compressed yet; a full block stays there until more bytes follow it.
-/

namespace Limine.Crypt

open Limine.Lib

def blake2bOutBytes : Nat := 64
def blake2bBlockBytes : Nat := 128

def blake2bIv : List UInt64 :=
  [0x6a09e667f3bcc908, 0xbb67ae8584caa73b, 0x3c6ef372fe94f82b, 0xa54ff53a5f1d36f1,
    0x510e527fade682d1, 0x9b05688c2b3e6c1f, 0x1f83d9abfb41bd6b, 0x5be0cd19137e2179]

def blake2bSigma : List (List Nat) :=
  [[0, 1, 2, 3, 4, 5, 6, 7, 8, 9, 10, 11, 12, 13, 14, 15],
    [14, 10, 4, 8, 9, 15, 13, 6, 1, 12, 0, 2, 11, 7, 5, 3],
    [11, 8, 12, 0, 5, 2, 15, 13, 10, 14, 3, 6, 7, 1, 9, 4],
    [7, 9, 3, 1, 13, 12, 11, 14, 2, 6, 5, 10, 4, 0, 15, 8],
    [9, 0, 5, 7, 2, 4, 10, 15, 14, 1, 11, 12, 6, 8, 3, 13],
    [2, 12, 6, 10, 0, 11, 8, 3, 4, 13, 7, 5, 15, 14, 1, 9],
    [12, 5, 1, 15, 14, 13, 4, 10, 0, 7, 6, 3, 9, 2, 8, 11],
    [13, 11, 7, 14, 12, 1, 3, 9, 5, 0, 15, 4, 8, 6, 2, 10],
    [6, 15, 14, 9, 11, 3, 0, 8, 12, 2, 13, 7, 1, 4, 10, 5],
    [10, 2, 8, 4, 7, 6, 1, 5, 15, 11, 9, 14, 3, 12, 13, 0],
    [0, 1, 2, 3, 4, 5, 6, 7, 8, 9, 10, 11, 12, 13, 14, 15],
    [14, 10, 4, 8, 9, 15, 13, 6, 1, 12, 0, 2, 11, 7, 5, 3]]

/-- `struct blake2b_state`; `buf` is as long as its `buf_len`. -/
structure Blake2bState where
  h : List UInt64
  t0 : UInt64
  t1 : UInt64
  f0 : UInt64
  f1 : UInt64
  buf : List UInt8
deriving DecidableEq, Repr

/-- `load64_le` at byte `8 * i`. -/
def load64 (bytes : List UInt8) (i : Nat) : UInt64 := UInt64.ofNat (leNat ((bytes.drop (8 * i)).take 8))

def rotr64 (w c : UInt64) : UInt64 := w >>> c ||| w <<< (64 - c)

/-- `blake2b_increment_counter`. -/
def Blake2bState.incrementCounter (s : Blake2bState) (inc : UInt64) : Blake2bState :=
  { s with t0 := s.t0 + inc, t1 := s.t1 + if s.t0 + inc < inc then 1 else 0 }

/-- The macro `G` of round `r`. -/
def mixG (m : List UInt64) (r i a b c d : Nat) (v : List UInt64) : List UInt64 :=
  let word j := m.getD ((blake2bSigma.getD r []).getD j 0) 0
  let va := v.getD a 0 + v.getD b 0 + word (2 * i)
  let vd := rotr64 (v.getD d 0 ^^^ va) 32
  let vc := v.getD c 0 + vd
  let vb := rotr64 (v.getD b 0 ^^^ vc) 24
  let va := va + vb + word (2 * i + 1)
  let vd := rotr64 (vd ^^^ va) 16
  let vc := vc + vd
  let vb := rotr64 (vb ^^^ vc) 63
  (((v.set a va).set b vb).set c vc).set d vd

/-- The macro `ROUND`. -/
def mixRound (m : List UInt64) (v : List UInt64) (r : Nat) : List UInt64 :=
  let v := mixG m r 0 0 4 8 12 v
  let v := mixG m r 1 1 5 9 13 v
  let v := mixG m r 2 2 6 10 14 v
  let v := mixG m r 3 3 7 11 15 v
  let v := mixG m r 4 0 5 10 15 v
  let v := mixG m r 5 1 6 11 12 v
  let v := mixG m r 6 2 7 8 13 v
  mixG m r 7 3 4 9 14 v

/-- `blake2b_compress`. -/
def Blake2bState.compress (s : Blake2bState) (block : List UInt8) : Blake2bState :=
  let m := (List.range 16).map (load64 block)
  let iv i := blake2bIv.getD i 0
  let v := s.h ++
    [iv 0, iv 1, iv 2, iv 3, iv 4 ^^^ s.t0, iv 5 ^^^ s.t1, iv 6 ^^^ s.f0, iv 7 ^^^ s.f1]
  let v := (List.range 12).foldl (mixRound m) v
  { s with h := (List.range 8).map fun i => s.h.getD i 0 ^^^ v.getD i 0 ^^^ v.getD (i + 8) 0 }

/-- The bytes of the `struct blake2b_param`: a digest length, and a fan-out and a depth of 1. -/
def blake2bParam : List UInt8 := [UInt8.ofNat blake2bOutBytes, 0, 1, 1] ++ List.replicate 60 0

/-- `blake2b_init`. -/
def blake2bInit : Blake2bState :=
  { h := (List.range 8).map fun i => blake2bIv.getD i 0 ^^^ load64 blake2bParam i
    t0 := 0, t1 := 0, f0 := 0, f1 := 0, buf := [] }

/-- The loop over the whole blocks, of which the last is left. -/
def Blake2bState.updateBlocks : Nat → Blake2bState → List UInt8 → Blake2bState × List UInt8
  | 0, s, input => (s, input)
  | fuel + 1, s, input =>
    if blake2bBlockBytes < input.length then
      updateBlocks fuel
        ((s.incrementCounter 128).compress (input.take blake2bBlockBytes)) (input.drop blake2bBlockBytes)
    else (s, input)

/-- `blake2b_update`. -/
def Blake2bState.update (s : Blake2bState) (input : List UInt8) : Blake2bState :=
  if input.length = 0 then s
  else
    let fill := blake2bBlockBytes - s.buf.length
    if fill < input.length then
      let block := s.buf ++ input.take fill
      let s := ({ s with buf := [] }.incrementCounter 128).compress block
      let r := updateBlocks input.length s (input.drop fill)
      { r.1 with buf := r.1.buf ++ r.2 }
    else { s with buf := s.buf ++ input }

/-- `blake2b_final`: the digest. -/
def Blake2bState.final (s : Blake2bState) : List UInt8 :=
  let s := { s.incrementCounter (UInt64.ofNat s.buf.length) with f0 := 0xffffffffffffffff }
  let s := s.compress (s.buf ++ List.replicate (blake2bBlockBytes - s.buf.length) 0)
  (List.range 8).flatMap fun i => leBytes 8 (s.h.getD i 0).toNat

/-- `blake2b`. -/
def blake2b (input : List UInt8) : List UInt8 := (blake2bInit.update input).final

end Limine.Crypt
