import Limine.Crypt.Compress

/-!
# What has gone into a state

After a message has been absorbed, all of its blocks but the last are compressed and the last waits
in the buffer.  The state is the same however the message was cut into pieces.
-/

namespace Limine.Crypt

open Limine.Lib

/-- The blocks of a message that are compressed before its end is known. -/
def wholeBlocks (d : List UInt8) : Nat := (d.length - 1) / 128

/-- The state after the first `n` blocks of a message. -/
def stateAt (d : List UInt8) (n : Nat) : Blake2bState :=
  { h := code (Blake2.chain d n), t0 := UInt64.ofNat (128 * n), t1 := UInt64.ofNat (128 * n / 2 ^ 64)
    f0 := 0, f1 := 0, buf := [] }

/-- The state that has absorbed a message. -/
def absorbed (d : List UInt8) : Blake2bState :=
  { stateAt d (wholeBlocks d) with buf := d.drop (128 * wholeBlocks d) }

theorem blake2bInit_absorbed : blake2bInit = absorbed [] := by decide

theorem stateAt_append {d : List UInt8} {n : Nat} (h : 128 * n ≤ d.length) (p : List UInt8) :
    stateAt (d ++ p) n = stateAt d n := by
  rw [stateAt, stateAt, Blake2.chain_append h]

/-! ## One block -/

/-- A block in the buffer with zeros after it is that block of the message. -/
theorem load64_block {d block : List UInt8} {n : Nat} (hlen : block.length = 128)
    (h : ∀ k, k < 128 → block.getD k 0 = d.getD (128 * n + k) 0) :
    (List.range 16).map (load64 block) = code (Blake2.block d n) := by
  rw [Blake2.block, code_ofFn]
  refine List.ext_getElem (by simp) fun j hj _ => ?_
  have hj16 : j < 16 := by simpa using hj
  have hbytes : (block.drop (8 * j)).take 8 =
      (List.range 8).map fun i => d.getD (128 * n + 8 * j + i) 0 := by
    refine List.ext_getElem (by simp; omega) fun i hi _ => ?_
    have hi8 : i < 8 := by
      rw [List.length_take] at hi
      omega
    have hget := h (8 * j + i) (by omega)
    rw [List.getD_eq_getElem _ _ (by omega)] at hget
    rw [List.getElem_take, List.getElem_drop, hget, List.getElem_map, List.getElem_range, Nat.add_assoc]
  rw [List.getElem_map, List.getElem_range, List.getElem_ofFn, load64, hbytes]
  rfl

/-- The counter is a number of 128 bits in two words. -/
theorem incrementCounter_words {s : Blake2bState} {t inc : Nat} (hinc : inc < 2 ^ 64)
    (h0 : s.t0 = UInt64.ofNat t) (h1 : s.t1 = UInt64.ofNat (t / 2 ^ 64)) :
    s.incrementCounter (UInt64.ofNat inc) =
      { s with t0 := UInt64.ofNat (t + inc), t1 := UInt64.ofNat ((t + inc) / 2 ^ 64) } := by
  have ht0 : s.t0 + UInt64.ofNat inc = UInt64.ofNat (t + inc) := by rw [h0, UInt64.ofNat_add]
  have hcarry : s.t1 + (if UInt64.ofNat (t + inc) < UInt64.ofNat inc then 1 else 0) =
      UInt64.ofNat ((t + inc) / 2 ^ 64) := by
    rw [h1, ← UInt64.toNat_inj]
    by_cases hlt : UInt64.ofNat (t + inc) < UInt64.ofNat inc
    · have hlt' := UInt64.lt_iff_toNat_lt.mp hlt
      rw [UInt64.toNat_ofNat', UInt64.toNat_ofNat'] at hlt'
      rw [if_pos hlt, UInt64.toNat_add, UInt64.toNat_ofNat', UInt64.toNat_ofNat', UInt64.toNat_one]
      omega
    · have hlt' := mt UInt64.lt_iff_toNat_lt.mpr hlt
      rw [UInt64.toNat_ofNat', UInt64.toNat_ofNat'] at hlt'
      rw [if_neg hlt, UInt64.toNat_add, UInt64.toNat_ofNat', UInt64.toNat_ofNat', UInt64.toNat_zero]
      omega
  rw [Blake2bState.incrementCounter, ht0, hcarry]

/-- The next block of a message, which is not its last. -/
theorem stateAt_succ {d block : List UInt8} {n : Nat} (hlen : block.length = 128)
    (h : ∀ k, k < 128 → block.getD k 0 = d.getD (128 * n + k) 0) :
    ((stateAt d n).incrementCounter 128).compress block = stateAt d (n + 1) := by
  have hcount : (stateAt d n).incrementCounter 128 =
      { stateAt d n with
        t0 := UInt64.ofNat (128 * (n + 1)), t1 := UInt64.ofNat (128 * (n + 1) / 2 ^ 64) } :=
    incrementCounter_words (by decide : 128 < 2 ^ 64) rfl rfl
  have hh := compress_code (s := (stateAt d n).incrementCounter 128) (t := 128 * (n + 1))
    (by rw [hcount]; rfl) (by rw [hcount]) (by rw [hcount])
    (show ((stateAt d n).incrementCounter 128).f0 = if false then 0xffffffffffffffff else 0 by rw [hcount]; rfl) (by rw [hcount]; rfl)
    (load64_block hlen h)
  rw [← Blake2.chain_succ] at hh
  show ({ (stateAt d n).incrementCounter 128 with
    h := (((stateAt d n).incrementCounter 128).compress block).h } : Blake2bState) = _
  rw [hh, hcount]
  rfl

/-- The block of a message that starts at byte `128 * n`, cut out of it. -/
theorem stateAt_next {d : List UInt8} {n : Nat} (h : 128 * (n + 1) ≤ d.length) :
    ((stateAt d n).incrementCounter 128).compress ((d.drop (128 * n)).take 128) = stateAt d (n + 1) := by
  refine stateAt_succ (by rw [List.length_take, List.length_drop]; omega) fun k hk => ?_
  rw [List.getD_eq_getElem _ _ (by rw [List.length_take, List.length_drop]; omega), List.getElem_take,
    List.getElem_drop, List.getD_eq_getElem _ _ (by omega)]

/-! ## The pieces -/

theorem updateBlocks_stateAt {d : List UInt8} {fuel n : Nat} (hn : n ≤ wholeBlocks d)
    (hfuel : wholeBlocks d ≤ n + fuel) :
    (stateAt d n).updateBlocks fuel (d.drop (128 * n)) =
      (stateAt d (wholeBlocks d), d.drop (128 * wholeBlocks d)) := by
  induction fuel generalizing n with
  | zero =>
    rw [show n = wholeBlocks d by omega]
    rfl
  | succ fuel ih =>
    rw [Blake2bState.updateBlocks, List.length_drop]
    by_cases hmore : n < wholeBlocks d
    · have hlen : 128 * (n + 1) < d.length := by
        rw [wholeBlocks] at hmore
        omega
      have hblock : blake2bBlockBytes < d.length - 128 * n := by
        show 128 < _
        omega
      rw [if_pos hblock]
      show ((((stateAt d n).incrementCounter 128).compress ((d.drop (128 * n)).take 128)).updateBlocks fuel
        ((d.drop (128 * n)).drop 128)) = _
      rw [stateAt_next (by omega), List.drop_drop, ← Nat.mul_succ]
      exact ih (by omega) (by omega)
    · have hlast : ¬blake2bBlockBytes < d.length - 128 * n := by
        show ¬128 < _
        rw [wholeBlocks] at hmore
        omega
      rw [if_neg hlast, show n = wholeBlocks d by omega]

theorem wholeBlocks_le (d : List UInt8) : 128 * wholeBlocks d ≤ d.length := by
  rw [wholeBlocks]
  omega

theorem wholeBlocks_lt {d : List UInt8} (h : 0 < d.length) : 128 * wholeBlocks d < d.length := by
  rw [wholeBlocks]
  omega

theorem le_wholeBlocks (d : List UInt8) : d.length ≤ 128 * (wholeBlocks d + 1) := by
  rw [wholeBlocks]
  omega

theorem length_absorbed_buf (d : List UInt8) : (absorbed d).buf.length = d.length - 128 * wholeBlocks d := by
  rw [absorbed, List.length_drop]

/-- **One piece more**, whatever has been absorbed and however long the piece is. -/
theorem update_absorbed (d piece : List UInt8) : (absorbed d).update piece = absorbed (d ++ piece) := by
  have hle := wholeBlocks_le d
  have hge := le_wholeBlocks d
  have hlen := length_absorbed_buf d
  by_cases hnil : piece.length = 0
  · rw [Blake2bState.update, if_pos hnil, List.length_eq_zero_iff.mp hnil, List.append_nil]
  have hlt' : 128 * wholeBlocks (d ++ piece) < d.length + piece.length :=
    List.length_append ▸ wholeBlocks_lt (by rw [List.length_append]; omega)
  have hge' : d.length + piece.length ≤ 128 * (wholeBlocks (d ++ piece) + 1) :=
    List.length_append ▸ le_wholeBlocks (d ++ piece)
  rw [Blake2bState.update, if_neg hnil]
  dsimp only
  by_cases hfill : blake2bBlockBytes - (absorbed d).buf.length < piece.length
  · rw [if_pos hfill]
    have hfill' : 128 - (absorbed d).buf.length < piece.length := hfill
    have hnext : 128 * (wholeBlocks d + 1) ≤ (d ++ piece).length := by
      rw [List.length_append]
      omega
    have hblock : (absorbed d).buf ++ piece.take (blake2bBlockBytes - (absorbed d).buf.length) =
        ((d ++ piece).drop (128 * wholeBlocks d)).take 128 := by
      have hbuf : ((absorbed d).buf).take 128 = (absorbed d).buf := List.take_of_length_le (by omega)
      rw [List.drop_append_of_le_length hle, List.take_append]
      show _ = ((absorbed d).buf).take 128 ++ piece.take (128 - (absorbed d).buf.length)
      rw [hbuf]
      rfl
    have hrest : piece.drop (blake2bBlockBytes - (absorbed d).buf.length) =
        (d ++ piece).drop (128 * (wholeBlocks d + 1)) := by
      rw [show blake2bBlockBytes = 128 from rfl, List.drop_append, List.drop_eq_nil_of_le hge, List.nil_append]
      congr 1
      omega
    have hstate : ({ absorbed d with buf := [] } : Blake2bState) = stateAt (d ++ piece) (wholeBlocks d) :=
      (stateAt_append hle piece).symm
    rw [hblock, hrest, hstate, stateAt_next hnext, updateBlocks_stateAt (by omega) (by omega)]
    rfl
  · rw [if_neg hfill]
    have hfill' : ¬128 - (absorbed d).buf.length < piece.length := hfill
    have hsame : wholeBlocks (d ++ piece) = wholeBlocks d := by omega
    have hstate : stateAt (d ++ piece) (wholeBlocks d) = stateAt d (wholeBlocks d) := stateAt_append hle piece
    rw [absorbed, absorbed, hsame, hstate, List.drop_append_of_le_length hle]

/-- A message in pieces. -/
theorem foldl_update_absorbed (d : List UInt8) (pieces : List (List UInt8)) :
    pieces.foldl Blake2bState.update (absorbed d) = absorbed (d ++ pieces.flatten) := by
  induction pieces generalizing d with
  | nil => rw [List.flatten_nil, List.append_nil, List.foldl_nil]
  | cons piece pieces ih =>
    rw [List.foldl_cons, update_absorbed, ih, List.flatten_cons, List.append_assoc]

/-! ## The digest -/

/-- The words of the digest, one after the other. -/
theorem digest_code (v : Vector Blake2.Word 8) :
    ((List.range 8).flatMap fun i => leBytes 8 ((code v).getD i 0).toNat) =
      v.toList.flatMap fun w => leBytes 8 w.toNat := by
  have hmap : (List.range 8).map (fun i => leBytes 8 ((code v).getD i 0).toNat) =
      v.toList.map fun w => leBytes 8 w.toNat := by
    refine List.ext_getElem (by simp) fun i hi _ => ?_
    have hi8 : i < 8 := by simpa using hi
    rw [List.getElem_map, List.getElem_map, List.getElem_range, getD_code _ _ hi8, Vector.getElem_toList]
    rfl
  rw [List.flatMap_def, List.flatMap_def, hmap]

/-- **The digest** of a state is the hash of what it has absorbed. -/
theorem final_absorbed (d : List UInt8) : (absorbed d).final = Blake2.hash d := by
  have hle := wholeBlocks_le d
  have hlen := length_absorbed_buf d
  have hwhole : wholeBlocks d = (d.length - 1) / 128 := rfl
  have hbuf : (absorbed d).buf = d.drop (128 * wholeBlocks d) := rfl
  have hcount : (absorbed d).incrementCounter (UInt64.ofNat (absorbed d).buf.length) =
      { absorbed d with t0 := UInt64.ofNat d.length, t1 := UInt64.ofNat (d.length / 2 ^ 64) } := by
    rw [incrementCounter_words (t := 128 * wholeBlocks d) (by omega) rfl rfl,
      show 128 * wholeBlocks d + (absorbed d).buf.length = d.length by omega]
  have hzeros : ∀ k, k < 128 → ((absorbed d).buf ++
      List.replicate (blake2bBlockBytes - (absorbed d).buf.length) 0).getD k 0 =
      d.getD (128 * wholeBlocks d + k) 0 := by
    intro k _
    by_cases hk : k < (absorbed d).buf.length
    · rw [List.getD_append _ _ _ _ hk, hbuf]
      simp [List.getD_eq_getElem?_getD]
    · rw [List.getD_append_right _ _ _ _ (by omega), List.getD_eq_default d _ (by omega)]
      rw [List.getD_eq_getElem?_getD, List.getElem?_replicate]
      split <;> rfl
  have hcompress := compress_code (s := { absorbed d with
      t0 := UInt64.ofNat d.length, t1 := UInt64.ofNat (d.length / 2 ^ 64), f0 := 0xffffffffffffffff })
    (t := d.length) rfl rfl rfl
    (show (0xffffffffffffffff : UInt64) = if true then 0xffffffffffffffff else 0 from rfl) rfl
    (load64_block (by rw [List.length_append, List.length_replicate]; show _ + (128 - _) = _; omega) hzeros)
  rw [Blake2bState.final, hcount]
  dsimp only
  rw [hcompress, digest_code, Blake2.hash, Blake2.blockCount_sub_one]
  rfl

theorem blake2b_eq_hash (d : List UInt8) : blake2b d = Blake2.hash d := by
  rw [blake2b, blake2bInit_absorbed, update_absorbed, final_absorbed, List.nil_append]

/-- Any pieces of a message give the digest of the message. -/
theorem pieces_final (pieces : List (List UInt8)) :
    (pieces.foldl Blake2bState.update blake2bInit).final = Blake2.hash pieces.flatten := by
  rw [blake2bInit_absorbed, foldl_update_absorbed, final_absorbed, List.nil_append]

end Limine.Crypt
