import Mathlib
import Limine.Lib.Bytes

/-!
# The hash function BLAKE2b

Unkeyed, with a digest of 64 bytes, over the words of 64 bits.  A message is cut into blocks of 128
bytes of which the last is filled up with zeros; the empty message has one block.
-/

namespace Limine.Lib.Blake2

abbrev Word := BitVec 64

def iv : Vector Word 8 :=
  #v[0x6a09e667f3bcc908, 0xbb67ae8584caa73b, 0x3c6ef372fe94f82b, 0xa54ff53a5f1d36f1,
    0x510e527fade682d1, 0x9b05688c2b3e6c1f, 0x1f83d9abfb41bd6b, 0x5be0cd19137e2179]

def sigma : Vector (Vector (Fin 16) 16) 10 :=
  #v[#v[0, 1, 2, 3, 4, 5, 6, 7, 8, 9, 10, 11, 12, 13, 14, 15],
    #v[14, 10, 4, 8, 9, 15, 13, 6, 1, 12, 0, 2, 11, 7, 5, 3],
    #v[11, 8, 12, 0, 5, 2, 15, 13, 10, 14, 3, 6, 7, 1, 9, 4],
    #v[7, 9, 3, 1, 13, 12, 11, 14, 2, 6, 5, 10, 4, 0, 15, 8],
    #v[9, 0, 5, 7, 2, 4, 10, 15, 14, 1, 11, 12, 6, 8, 3, 13],
    #v[2, 12, 6, 10, 0, 11, 8, 3, 4, 13, 7, 5, 15, 14, 1, 9],
    #v[12, 5, 1, 15, 14, 13, 4, 10, 0, 7, 6, 3, 9, 2, 8, 11],
    #v[13, 11, 7, 14, 12, 1, 3, 9, 5, 0, 15, 4, 8, 6, 2, 10],
    #v[6, 15, 14, 9, 11, 3, 0, 8, 12, 2, 13, 7, 1, 4, 10, 5],
    #v[10, 2, 8, 4, 7, 6, 1, 5, 15, 11, 9, 14, 3, 12, 13, 0]]

/-- The mixing function, of four words of the state. -/
def mixWords (a b c d x y : Word) : Word × Word × Word × Word :=
  let a := a + b + x
  let d := (d ^^^ a).rotateRight 32
  let c := c + d
  let b := (b ^^^ c).rotateRight 24
  let a := a + b + y
  let d := (d ^^^ a).rotateRight 16
  let c := c + d
  (a, (b ^^^ c).rotateRight 63, c, d)

def mix (v : Vector Word 16) (a b c d : Fin 16) (x y : Word) : Vector Word 16 :=
  let w := mixWords v[a] v[b] v[c] v[d] x y
  (((v.set a w.1).set b w.2.1).set c w.2.2.1).set d w.2.2.2

/-- The word of `m` that comes `j`-th in round `r`. -/
def word (m : Vector Word 16) (r : Nat) (j : Fin 16) : Word :=
  m[(sigma.get ⟨r % 10, Nat.mod_lt r (by decide)⟩)[j]]

/-- Round `r`: the columns and then the diagonals are mixed. -/
def round (m v : Vector Word 16) (r : Nat) : Vector Word 16 :=
  let v := mix v 0 4 8 12 (word m r 0) (word m r 1)
  let v := mix v 1 5 9 13 (word m r 2) (word m r 3)
  let v := mix v 2 6 10 14 (word m r 4) (word m r 5)
  let v := mix v 3 7 11 15 (word m r 6) (word m r 7)
  let v := mix v 0 5 10 15 (word m r 8) (word m r 9)
  let v := mix v 1 6 11 12 (word m r 10) (word m r 11)
  let v := mix v 2 7 8 13 (word m r 12) (word m r 13)
  mix v 3 4 9 14 (word m r 14) (word m r 15)

/-- The vector a compression starts from. -/
def start (h : Vector Word 8) (t : Nat) (last : Bool) : Vector Word 16 :=
  let v : Vector Word 16 := h ++ iv
  let v := v.set 12 (v[12] ^^^ BitVec.ofNat 64 t)
  let v := v.set 13 (v[13] ^^^ BitVec.ofNat 64 (t / 2 ^ 64))
  if last then v.set 14 (v[14] ^^^ BitVec.allOnes 64) else v

/-- The compression function, at the block that ends at byte `t` of the message. -/
def compress (h : Vector Word 8) (m : Vector Word 16) (t : Nat) (last : Bool) : Vector Word 8 :=
  let v : Vector Word 16 := h ++ iv
  let v := v.set 12 (v[12] ^^^ BitVec.ofNat 64 t)
  let v := v.set 13 (v[13] ^^^ BitVec.ofNat 64 (t / 2 ^ 64))
  let v := if last then v.set 14 (v[14] ^^^ BitVec.allOnes 64) else v
  let v := (List.range 12).foldl (round m) v
  Vector.ofFn fun i => h[i] ^^^ v[i.val] ^^^ v[i.val + 8]

/-- Block `i` of a message. -/
def block (d : List UInt8) (i : Nat) : Vector Word 16 :=
  Vector.ofFn fun j => BitVec.ofNat 64 (leAt (fun k => d.getD k 0) (128 * i + 8 * j) 8)

/-- The number of blocks. -/
def blockCount (d : List UInt8) : Nat := max 1 ((d.length + 127) / 128)

def initial : Vector Word 8 := iv.set 0 (iv[0] ^^^ 0x01010000 ^^^ 64)

/-- What the first `n` blocks are compressed to, none of them the last. -/
def chain (d : List UInt8) (n : Nat) : Vector Word 8 :=
  (List.range n).foldl (fun h i => compress h (block d i) (128 * (i + 1)) false) initial

/-- The digest. -/
def hash (d : List UInt8) : List UInt8 :=
  let n := blockCount d - 1
  (compress (chain d n) (block d n) d.length true).toList.flatMap fun w => leBytes 8 w.toNat

/-! ## Blocks and chains -/

theorem chain_succ (d : List UInt8) (n : Nat) :
    chain d (n + 1) = compress (chain d n) (block d n) (128 * (n + 1)) false := by
  simp only [chain, List.range_succ, List.foldl_append, List.foldl_cons, List.foldl_nil]

/-- A block has its bytes from its own part of the message. -/
theorem block_append {d : List UInt8} {i : Nat} (h : 128 * (i + 1) ≤ d.length) (p : List UInt8) :
    block (d ++ p) i = block d i := by
  refine congrArg Vector.ofFn (funext fun j => congrArg (BitVec.ofNat 64) (leAt_congr fun k _ hk => ?_))
  have hj := j.isLt
  exact List.getD_append _ _ _ _ (by omega)

theorem chain_append {d : List UInt8} {n : Nat} (h : 128 * n ≤ d.length) (p : List UInt8) :
    chain (d ++ p) n = chain d n := by
  induction n with
  | zero => simp only [chain, List.range_zero, List.foldl_nil]
  | succ n ih => rw [chain_succ, chain_succ, ih (by omega), block_append h]

theorem blockCount_sub_one (d : List UInt8) : blockCount d - 1 = (d.length - 1) / 128 := by
  rw [blockCount]
  omega

end Limine.Lib.Blake2
