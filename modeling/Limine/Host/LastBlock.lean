import Limine.Machine

/-!
# The last block of the device

`device_last_block` finds the end of the medium by probing: it doubles a block number until the block
is absent and bisects from there.  That is the division the loader makes of the size it is told
(`deviceLastBlock_divides`).
-/

namespace Limine.Host

/-- What a probe meets: a read below the size gives its byte, and only such a read does. -/
structure Medium where
  size : Nat
  size_lt : size < 2 ^ 63
  /-- whether `set_pos` succeeds; past the end a block device refuses where a file accepts -/
  seekable : Nat → Bool
  seekable_of_lt : ∀ loc, loc < size → seekable loc = true

def UINT64_MAX : Nat := 2 ^ 64 - 1

/-- `mul_u64_overflow`; `none` is an overflow. -/
def mulU64 (a b : Nat) : Option Nat := if a ≠ 0 ∧ b > UINT64_MAX / a then none else some (a * b)

/-- `add_u64_overflow`; `none` is an overflow. -/
def addU64 (a b : Nat) : Option Nat := if a > UINT64_MAX - b then none else some (a + b)

/-- `set_pos` and `fread` of the byte there. -/
def Medium.probe (m : Medium) (loc : Nat) : Bool := m.seekable loc && loc < m.size

def deviceBlockPresent (m : Medium) (block lbSize : Nat) : Bool :=
  match (mulU64 block lbSize).bind fun loc => addU64 loc (lbSize - 1) with
  | none => false
  | some loc => m.probe loc

/-- The doubling: the last block known to be present and the first known to be absent. -/
def findAbsent (m : Medium) (lbSize : Nat) : Nat → Nat → Nat → Exec (Option (Nat × Nat))
  | 0, _, _ => .error .outOfFuel
  | fuel + 1, lo, hi =>
    if !deviceBlockPresent m hi lbSize then .ok (some (lo, hi))
    else if hi > UINT64_MAX / 2 then .ok none
    else findAbsent m lbSize fuel hi (hi * 2)

def bisect (m : Medium) (lbSize : Nat) : Nat → Nat → Nat → Exec Nat
  | 0, _, _ => .error .outOfFuel
  | fuel + 1, lo, hi =>
    if lo + 1 < hi then
      let mid := lo + (hi - lo) / 2
      if deviceBlockPresent m mid lbSize then bisect m lbSize fuel mid hi
      else bisect m lbSize fuel lo mid
    else .ok lo

/-- `device_last_block`; `none` is `false`. -/
def deviceLastBlock (fuel : Nat) (m : Medium) (lbSize : Nat) : Exec (Option Nat) :=
  if !deviceBlockPresent m 0 lbSize then .ok none
  else do
    match ← findAbsent m lbSize fuel 0 1 with
    | none => return none
    | some (lo, hi) =>
      let last ← bisect m lbSize fuel lo hi
      return some last

/-- `device_blocks` of the host's `gpt_locate_header`. -/
def deviceBlocks : Option Nat → Nat
  | none => 0
  | some last => last + 1

/-- `blocks` of the loader's `gpt_locate_header`. -/
def loaderBlocks (sectCount guess : Nat) : Nat := sectCount / (guess / 512)

/-! ## The probes -/

theorem mulU64_eq (a b : Nat) : mulU64 a b = if a * b < 2 ^ 64 then some (a * b) else none := by
  unfold mulU64 UINT64_MAX
  rcases Nat.eq_zero_or_pos a with rfl | ha
  · simp
  · have hdiv : b > (2 ^ 64 - 1) / a ↔ ¬ a * b < 2 ^ 64 := by
      rw [gt_iff_lt, Nat.div_lt_iff_lt_mul ha, Nat.mul_comm b a]
      omega
    by_cases hlt : a * b < 2 ^ 64
    · rw [if_pos hlt, if_neg fun h => hdiv.mp h.2 hlt]
    · rw [if_neg hlt, if_pos ⟨Nat.ne_of_gt ha, hdiv.mpr hlt⟩]

/-- A block is present when its last byte is on the medium. -/
theorem deviceBlockPresent_iff (m : Medium) {lbSize : Nat} (hlb : 1 ≤ lbSize) (block : Nat) :
    deviceBlockPresent m block lbSize = true ↔ block < m.size / lbSize := by
  have hsize := m.size_lt
  have hmul : (block + 1) * lbSize = block * lbSize + lbSize := Nat.succ_mul block lbSize
  have hdiv : block < m.size / lbSize ↔ block * lbSize + lbSize ≤ m.size := by
    rw [← hmul]
    exact Nat.le_div_iff_mul_le hlb
  rw [hdiv]
  unfold deviceBlockPresent addU64 UINT64_MAX
  rw [mulU64_eq]
  by_cases hlt : block * lbSize < 2 ^ 64
  · rw [if_pos hlt, Option.bind_some]
    by_cases hover : block * lbSize > 2 ^ 64 - 1 - (lbSize - 1)
    · rw [if_pos hover]
      simp
      omega
    · rw [if_neg hover]
      show (m.seekable (block * lbSize + (lbSize - 1)) && _) = true ↔ _
      constructor
      · intro h
        have := of_decide_eq_true (Bool.and_eq_true_iff.mp h).2
        omega
      · intro h
        have hin : block * lbSize + (lbSize - 1) < m.size := by omega
        rw [m.seekable_of_lt _ hin, decide_eq_true hin]
        rfl
  · rw [if_neg hlt]
    simp
    omega

/-! ## The search -/

theorem findAbsent_spec {m : Medium} {lbSize n : Nat} (hn : n < 2 ^ 63)
    (hpresent : ∀ block, deviceBlockPresent m block lbSize = true ↔ block < n) (fuel : Nat) :
    ∀ lo hi, lo < n → hi ≤ lo + 2 ^ 63 → n ≤ hi * 2 ^ fuel →
      ∃ lo' hi', findAbsent m lbSize (fuel + 1) lo hi = .ok (some (lo', hi')) ∧ lo' < n ∧ n ≤ hi' ∧
        hi' ≤ lo' + 2 ^ 63 := by
  induction fuel with
  | zero =>
    intro lo hi hlo hnear hfuel
    have habsent : deviceBlockPresent m hi lbSize = false := by
      rw [Bool.eq_false_iff, Ne, hpresent]
      omega
    refine ⟨lo, hi, ?_, hlo, by omega, hnear⟩
    rw [findAbsent, habsent]
    rfl
  | succ fuel ih =>
    intro lo hi hlo hnear hfuel
    rw [findAbsent]
    by_cases hhi : hi < n
    · have hpres : deviceBlockPresent m hi lbSize = true := (hpresent hi).mpr hhi
      have hsmall : ¬ hi > UINT64_MAX / 2 := by
        unfold UINT64_MAX
        omega
      rw [hpres, if_neg (by decide), if_neg hsmall]
      apply ih hi (hi * 2) hhi (by omega)
      rw [Nat.mul_assoc, ← Nat.pow_succ']
      exact hfuel
    · have habsent : deviceBlockPresent m hi lbSize = false := by
        rw [Bool.eq_false_iff, Ne, hpresent]
        exact hhi
      rw [habsent]
      exact ⟨lo, hi, rfl, hlo, by omega, hnear⟩

theorem bisect_spec {m : Medium} {lbSize n : Nat}
    (hpresent : ∀ block, deviceBlockPresent m block lbSize = true ↔ block < n) (fuel : Nat) :
    ∀ lo hi, lo < n → n ≤ hi → hi ≤ lo + 2 ^ fuel → bisect m lbSize (fuel + 1) lo hi = .ok (n - 1) := by
  induction fuel with
  | zero =>
    intro lo hi hlo hhi hnear
    rw [bisect, if_neg (by omega)]
    have : lo = n - 1 := by omega
    rw [this]
  | succ fuel ih =>
    intro lo hi hlo hhi hnear
    rw [bisect]
    rw [Nat.pow_succ] at hnear
    by_cases hlt : lo + 1 < hi
    · rw [if_pos hlt]
      dsimp only
      by_cases hmid : lo + (hi - lo) / 2 < n
      · rw [if_pos ((hpresent _).mpr hmid)]
        exact ih _ _ hmid hhi (by omega)
      · rw [if_neg fun h => hmid ((hpresent _).mp h)]
        exact ih _ _ hlo (by omega) (by omega)
    · rw [if_neg hlt]
      have : lo = n - 1 := by omega
      rw [this]

theorem deviceLastBlock_eq (m : Medium) {lbSize fuel : Nat} (hlb : 1 ≤ lbSize) (hfuel : 64 ≤ fuel) :
    deviceLastBlock fuel m lbSize =
      .ok (if m.size < lbSize then none else some (m.size / lbSize - 1)) := by
  have hpresent := deviceBlockPresent_iff m hlb
  have hsize := m.size_lt
  have hn : m.size / lbSize < 2 ^ 63 := Nat.lt_of_le_of_lt (Nat.div_le_self _ _) hsize
  unfold deviceLastBlock
  by_cases hsmall : m.size < lbSize
  · have habsent : deviceBlockPresent m 0 lbSize = false := by
      rw [Bool.eq_false_iff, Ne, hpresent, Nat.div_eq_of_lt hsmall]
      exact Nat.lt_irrefl 0
    rw [habsent, if_pos hsmall]
    rfl
  · have hpos : 0 < m.size / lbSize := Nat.div_pos (Nat.not_lt.mp hsmall) hlb
    obtain ⟨f, rfl⟩ : ∃ f, fuel = f + 1 := ⟨fuel - 1, by omega⟩
    have hpow : 2 ^ 63 ≤ 2 ^ f := Nat.pow_le_pow_right (by decide) (by omega)
    obtain ⟨lo, hi, hfound, hlo, hhi, hnear⟩ := findAbsent_spec hn hpresent f 0 1 hpos (by decide)
      (by omega)
    have hlast := bisect_spec hpresent f lo hi hlo hhi (by omega)
    rw [(hpresent 0).mpr hpos, if_neg hsmall]
    show (findAbsent m lbSize (f + 1) 0 1 >>= _) = _
    rw [hfound]
    show (bisect m lbSize (f + 1) lo hi >>= _) = _
    rw [hlast]
    rfl

theorem loaderBlocks_eq {size lbSize : Nat} (hsize : 512 ∣ size) (hlb : 512 ∣ lbSize) :
    loaderBlocks (size / 512) lbSize = size / lbSize := by
  obtain ⟨sectors, rfl⟩ := hsize
  obtain ⟨k, rfl⟩ := hlb
  unfold loaderBlocks
  rw [Nat.mul_div_cancel_left _ (by decide), Nat.mul_div_cancel_left _ (by decide),
    Nat.mul_div_mul_left _ _ (by decide)]

/-- Probing for the last block is dividing, and the host and the loader count the same blocks. -/
theorem deviceLastBlock_divides (m : Medium) (lbSize fuel : Nat) (hlb : 1 ≤ lbSize)
    (hfuel : 64 ≤ fuel) :
    deviceLastBlock fuel m lbSize =
      .ok (if m.size < lbSize then none else some (m.size / lbSize - 1)) ∧
    (512 ∣ m.size → 512 ∣ lbSize →
      (deviceLastBlock fuel m lbSize).map deviceBlocks = .ok (loaderBlocks (m.size / 512) lbSize)) := by
  refine ⟨deviceLastBlock_eq m hlb hfuel, fun hsize h512 => ?_⟩
  rw [deviceLastBlock_eq m hlb hfuel, loaderBlocks_eq hsize h512]
  by_cases hsmall : m.size < lbSize
  · rw [if_pos hsmall, Nat.div_eq_of_lt hsmall]
    rfl
  · have hpos : 0 < m.size / lbSize := Nat.div_pos (Nat.not_lt.mp hsmall) hlb
    rw [if_neg hsmall]
    show Except.ok (m.size / lbSize - 1 + 1) = _
    rw [Nat.sub_add_cancel hpos]

/-- Five sectors, which make two blocks of 1024 bytes and a half. -/
def fiveSectors : Medium where
  size := 2560
  size_lt := by decide
  seekable := fun _ => true
  seekable_of_lt := fun _ _ => rfl

theorem deviceLastBlock_divides_five : deviceLastBlock 64 fiveSectors 1024 = .ok (some 1) :=
  (deviceLastBlock_divides fiveSectors 1024 64 (by decide) (by decide)).1

end Limine.Host
