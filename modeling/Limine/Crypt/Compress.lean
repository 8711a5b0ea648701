import Mathlib
import Limine.Crypt.Blake2b
import Limine.Lib.Blake2

/-!
# The compression is that of BLAKE2b

The state of the code is a list of machine words; `code` gives the list of a vector of words.
-/

namespace Limine.Crypt

open Limine.Lib

/-- The words of a vector as the code has them. -/
def code {n : Nat} (v : Vector Blake2.Word n) : List UInt64 := v.toList.map UInt64.ofBitVec

@[simp] theorem length_code {n : Nat} (v : Vector Blake2.Word n) : (code v).length = n := by
  simp [code]

theorem code_set {n : Nat} (v : Vector Blake2.Word n) (i : Nat) (h : i < n) (w : Blake2.Word) :
    code (v.set i w h) = (code v).set i (UInt64.ofBitVec w) := by
  rw [code, code, Vector.toList_set, List.map_set]

theorem getD_code {n : Nat} (v : Vector Blake2.Word n) (i : Nat) (h : i < n) :
    (code v).getD i 0 = UInt64.ofBitVec v[i] := by
  simp [code, List.getD_eq_getElem?_getD, h]

theorem code_append {m n : Nat} (v : Vector Blake2.Word m) (w : Vector Blake2.Word n) :
    code (v ++ w) = code v ++ code w := by
  simp [code]

theorem code_ofFn {n : Nat} (f : Fin n → Blake2.Word) :
    code (Vector.ofFn f) = List.ofFn fun i => UInt64.ofBitVec (f i) := by
  rw [code, Vector.toList_ofFn, List.map_ofFn]
  rfl

theorem code_iv : code Blake2.iv = blake2bIv := by decide

/-! ## The rounds -/

theorem rotr64_ofBitVec (w : Blake2.Word) {c : Nat} (h0 : 0 < c) (h : c < 64) :
    rotr64 (UInt64.ofBitVec w) (UInt64.ofNat c) = UInt64.ofBitVec (w.rotateRight c) := by
  have hright : ((UInt64.ofNat c).toBitVec % 64).toNat = c := by
    simp
    omega
  have hleft : ((64 - UInt64.ofNat c).toBitVec % 64).toNat = 64 - c := by
    simp
    omega
  apply UInt64.toBitVec_inj.mp
  rw [rotr64, UInt64.toBitVec_or, UInt64.toBitVec_shiftRight, UInt64.toBitVec_shiftLeft,
    BitVec.ushiftRight_eq', BitVec.shiftLeft_eq', hright, hleft, BitVec.rotateRight_def, Nat.mod_eq_of_lt h]

/-- The table of the code has the first two of its ten rows again at its end. -/
theorem sigma_row : ∀ r : Fin 12,
    blake2bSigma.getD r [] = (Blake2.sigma.get ⟨r.val % 10, Nat.mod_lt _ (by decide)⟩).toList.map Fin.val := by
  decide

theorem sigma_getD (r : Fin 12) (j : Fin 16) :
    (blake2bSigma.getD r []).getD j 0 = ((Blake2.sigma.get ⟨r.val % 10, Nat.mod_lt _ (by decide)⟩).get j).val := by
  rw [sigma_row, List.getD_eq_getElem _ _ (by simp), List.getElem_map, Vector.getElem_toList]
  rfl

theorem getD_sigma (m : Vector Blake2.Word 16) {r j : Nat} (hr : r < 12) (hj : j < 16) :
    (code m).getD ((blake2bSigma.getD r []).getD j 0) 0 = UInt64.ofBitVec (Blake2.word m r ⟨j, hj⟩) := by
  rw [sigma_getD ⟨r, hr⟩ ⟨j, hj⟩, getD_code _ _ (Fin.isLt _)]
  rfl

theorem mixG_code (m v : Vector Blake2.Word 16) {r i a b c d : Nat} (hr : r < 12) (hi : i < 8) (ha : a < 16)
    (hb : b < 16) (hc : c < 16) (hd : d < 16) :
    mixG (code m) r i a b c d (code v) =
      code (Blake2.mix v ⟨a, ha⟩ ⟨b, hb⟩ ⟨c, hc⟩ ⟨d, hd⟩ (Blake2.word m r ⟨2 * i, by omega⟩)
        (Blake2.word m r ⟨2 * i + 1, by omega⟩)) := by
  have hx := getD_sigma m hr (show 2 * i < 16 by omega)
  have hy := getD_sigma m hr (show 2 * i + 1 < 16 by omega)
  have h32 (w : Blake2.Word) := rotr64_ofBitVec w (c := 32) (by decide) (by decide)
  have h24 (w : Blake2.Word) := rotr64_ofBitVec w (c := 24) (by decide) (by decide)
  have h16 (w : Blake2.Word) := rotr64_ofBitVec w (c := 16) (by decide) (by decide)
  have h63 (w : Blake2.Word) := rotr64_ofBitVec w (c := 63) (by decide) (by decide)
  simp only [UInt64.reduceOfNat] at h32 h24 h16 h63
  simp only [mixG, hx, hy, getD_code _ _ ha, getD_code _ _ hb, getD_code _ _ hc, getD_code _ _ hd,
    ← UInt64.ofBitVec_add, ← UInt64.ofBitVec_xor, h32, h24, h16, h63, ← code_set _ _ ha, ← code_set _ _ hb,
    ← code_set _ _ hc, ← code_set _ _ hd]
  rfl

theorem mixRound_code (m v : Vector Blake2.Word 16) {r : Nat} (hr : r < 12) :
    mixRound (code m) (code v) r = code (Blake2.round m v r) := by
  simp only [mixRound]
  rw [mixG_code, mixG_code, mixG_code, mixG_code, mixG_code, mixG_code, mixG_code, mixG_code]
  · rfl
  all_goals omega

/-- All the rounds of a list of them. -/
theorem rounds_code (m : Vector Blake2.Word 16) (rounds : List Nat) (h : ∀ r ∈ rounds, r < 12)
    (v : Vector Blake2.Word 16) :
    rounds.foldl (mixRound (code m)) (code v) = code (rounds.foldl (Blake2.round m) v) := by
  induction rounds generalizing v with
  | nil => rfl
  | cons r rounds ih =>
    rw [List.foldl_cons, List.foldl_cons, mixRound_code m v (h r List.mem_cons_self)]
    exact ih (fun r' hr' => h r' (List.mem_cons_of_mem _ hr')) _

/-! ## The compression -/

theorem getElem_append_iv (h : Vector Blake2.Word 8) {i : Nat} (hi : 8 + i < 16) :
    (h ++ Blake2.iv)[8 + i] = Blake2.iv[i] := by
  rw [Vector.getElem_append_right (show 8 + i < 8 + 8 from hi) (by omega)]
  simp

theorem code_start (h : Vector Blake2.Word 8) (t : Nat) (last : Bool) :
    code (Blake2.start h t last) = code h ++ [blake2bIv.getD 0 0, blake2bIv.getD 1 0, blake2bIv.getD 2 0,
      blake2bIv.getD 3 0, blake2bIv.getD 4 0 ^^^ UInt64.ofNat t, blake2bIv.getD 5 0 ^^^ UInt64.ofNat (t / 2 ^ 64),
      blake2bIv.getD 6 0 ^^^ (if last then 0xffffffffffffffff else 0), blake2bIv.getD 7 0 ^^^ 0] := by
  have h12 : (h ++ Blake2.iv)[12] = Blake2.iv[4] := getElem_append_iv h (show 8 + 4 < 16 by decide)
  have h13 : (h ++ Blake2.iv)[13] = Blake2.iv[5] := getElem_append_iv h (show 8 + 5 < 16 by decide)
  have h14 : (h ++ Blake2.iv)[14] = Blake2.iv[6] := getElem_append_iv h (show 8 + 6 < 16 by decide)
  have hset (i : Nat) (w : UInt64) (l : List UInt64) : (code h ++ l).set (8 + i) w = code h ++ l.set i w := by
    rw [List.set_append_right _ _ (by simp), length_code, Nat.add_sub_cancel_left]
  have hbase : code (((h ++ Blake2.iv).set 12 (Blake2.iv[4] ^^^ BitVec.ofNat 64 t)).set 13
      (Blake2.iv[5] ^^^ BitVec.ofNat 64 (t / 2 ^ 64))) =
      code h ++ (blake2bIv.set 4 (UInt64.ofBitVec (Blake2.iv[4] ^^^ BitVec.ofNat 64 t))).set 5
        (UInt64.ofBitVec (Blake2.iv[5] ^^^ BitVec.ofNat 64 (t / 2 ^ 64))) := by
    rw [code_set, code_set, code_append, code_iv, hset 4, hset 5]
  rw [Blake2.start, Vector.getElem_set_ne _ _ (by decide), h12, h13]
  cases last with
  | false =>
    rw [if_neg (by decide), hbase]
    rfl
  | true =>
    rw [if_pos rfl, Vector.getElem_set_ne _ _ (by decide), Vector.getElem_set_ne _ _ (by decide), h14, code_set,
      hbase, hset 6]
    rfl

/-- **The compression**: that of BLAKE2b at the byte the counter gives. -/
theorem compress_code {s : Blake2bState} {block : List UInt8} {h : Vector Blake2.Word 8}
    {m : Vector Blake2.Word 16} {t : Nat} {last : Bool} (hh : s.h = code h) (h0 : s.t0 = UInt64.ofNat t)
    (h1 : s.t1 = UInt64.ofNat (t / 2 ^ 64)) (hf0 : s.f0 = if last then 0xffffffffffffffff else 0)
    (hf1 : s.f1 = 0) (hm : (List.range 16).map (load64 block) = code m) :
    (s.compress block).h = code (Blake2.compress h m t last) := by
  have hspec : Blake2.compress h m t last = Vector.ofFn fun i => h[i] ^^^
      ((List.range 12).foldl (Blake2.round m) (Blake2.start h t last))[i.val] ^^^
      ((List.range 12).foldl (Blake2.round m) (Blake2.start h t last))[i.val + 8] := rfl
  rw [hspec, Blake2bState.compress]
  dsimp only
  rw [hm, hh, h0, h1, hf0, hf1, ← code_start, rounds_code m _ fun r hr => List.mem_range.mp hr, code_ofFn]
  generalize (List.range 12).foldl (Blake2.round m) (Blake2.start h t last) = v
  refine List.ext_getElem (by simp) fun i hi _ => ?_
  have hi8 : i < 8 := by simpa using hi
  rw [List.getElem_map, List.getElem_range, List.getElem_ofFn, getD_code _ _ hi8, getD_code _ _ (by omega),
    getD_code _ _ (by omega)]
  rfl

end Limine.Crypt
