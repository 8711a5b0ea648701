import Limine.Lib.Occurrence

/-!
# Enrolling the hash of a configuration

`enroll_config` looks for a signature in the executable and overwrites the 128 bytes behind it.  The
search is the naive one: after a failed match it starts again one byte behind the start of that match.
-/

namespace Limine.Host

open Limine.Lib

/-! ## The source -/

/-- `CONFIG_B2SUM_SIGNATURE`: `++CONFIG_B2SUM_SIGNATURE++`. -/
def configB2sumSignature : List UInt8 :=
  [43, 43, 67, 79, 78, 70, 73, 71, 95, 66, 50, 83, 85, 77, 95, 83, 73, 71, 78, 65, 84, 85, 82, 69, 43, 43]

/-- `CONFIG_B2SUM_EMPTY`. -/
def configB2sumEmpty : List UInt8 := List.replicate 128 48

/-- What the executable is built with. -/
def configB2sum : List UInt8 := configB2sumSignature ++ configB2sumEmpty

section
variable (sign bootloader : List UInt8)

/-- The search loop from `i` and `checked_count` on: `checksum_loc`, or that there is none.  A read outside
of the signature or the file is `none`. -/
def findChecksum (i checkedCount : Nat) : Option (Option Nat) :=
  if i + 128 < bootloader.length then
    match _ : bootloader[i]?, _ : sign[checkedCount]? with
    | some b, some c =>
      if b ≠ c then
        if checkedCount > 0 then findChecksum (i - checkedCount + 1) 0 else findChecksum (i + 1) checkedCount
      else if checkedCount + 1 = sign.length then some (some (i + 1))
      else findChecksum (i + 1) (checkedCount + 1)
    | _, _ => none
  else some none
termination_by (bootloader.length - (i - checkedCount), sign.length - checkedCount)
decreasing_by
  · exact Prod.Lex.left _ _ (by omega)
  · exact Prod.Lex.left _ _ (by omega)
  · have hlt := (List.getElem?_eq_some_iff.mp ‹sign[checkedCount]? = some c›).1
    rw [Nat.add_sub_add_right]
    exact Prod.Lex.right _ (by omega)

end

def isHexDigit (c : UInt8) : Bool := (c ≥ 48 && c ≤ 57) || (c ≥ 97 && c ≤ 102) || (c ≥ 65 && c ≤ 70)

/-- `enroll_config` on the content of the executable; no hash is `--reset`.  The result is what the file
holds afterwards; `none` is a read outside of what is there. -/
def enrollConfig (hash : Option (List UInt8)) (bootloader : List UInt8) : Option (Except String (List UInt8)) :=
  if hash.any fun h => h.length ≠ 128 then some (.error "error: BLAKE2B specified is not 128 characters long.\n")
  else if hash.any fun h => !h.all isHexDigit then
    some (.error "error: BLAKE2B specified contains a non-hexadecimal character.\n")
  else if bootloader.length < configB2sumSignature.length + 128 then
    some (.error "error: Bootloader file too small (need at least %zu bytes)\n")
  else
    (findChecksum configB2sumSignature bootloader 0 0).map fun checksumLoc =>
      match checksumLoc with
      | none => .error "error: Checksum location not found in provided executable.\n"
      | some loc => .ok (overwrite bootloader (hash.getD configB2sumEmpty) loc)

/-! ## The search -/

section
variable {sign bootloader : List UInt8}

/-- What the loop keeps: the characters up to `i` match, and no match started before. -/
structure Searching (sign bootloader : List UInt8) (i checkedCount : Nat) : Prop where
  le : checkedCount ≤ i
  lt : checkedCount < sign.length
  matched : ∀ k, k < checkedCount → bootloader[i - checkedCount + k]? = sign[k]?
  none_before : ∀ s, s < i - checkedCount → ¬OccursAt sign bootloader s

theorem Searching.start (h : sign ≠ []) : Searching sign bootloader 0 0 where
  le := Nat.le_refl 0
  lt := List.length_pos_iff.mpr h
  matched := by
    intro k hk
    omega
  none_before := by
    intro s hs
    omega

/-- After a character that is wrong the search goes on one behind the start of the match. -/
theorem Searching.restart {i checkedCount : Nat} {b c : UInt8} (h : Searching sign bootloader i checkedCount)
    (hb : bootloader[i]? = some b) (hc : sign[checkedCount]? = some c) (hne : b ≠ c) :
    Searching sign bootloader (i - checkedCount + 1) 0 where
  le := Nat.zero_le _
  lt := Nat.lt_of_le_of_lt (Nat.zero_le _) h.lt
  matched := by
    intro k hk
    omega
  none_before := by
    intro s hs hoccurs
    by_cases heq : s = i - checkedCount
    · have hat := hoccurs checkedCount h.lt
      rw [heq, Nat.sub_add_cancel h.le, hb, hc] at hat
      exact hne (Option.some.inj hat)
    · exact h.none_before s (by omega) hoccurs

theorem Searching.matched_succ {i checkedCount : Nat} {b : UInt8} (h : Searching sign bootloader i checkedCount)
    (hb : bootloader[i]? = some b) (hc : sign[checkedCount]? = some b) :
    ∀ k, k < checkedCount + 1 → bootloader[i - checkedCount + k]? = sign[k]? := by
  intro k hk
  by_cases heq : k = checkedCount
  · rw [heq, Nat.sub_add_cancel h.le, hb, hc]
  · exact h.matched k (by omega)

theorem Searching.advance {i checkedCount : Nat} {b : UInt8} (h : Searching sign bootloader i checkedCount)
    (hb : bootloader[i]? = some b) (hc : sign[checkedCount]? = some b) (hmore : checkedCount + 1 ≠ sign.length) :
    Searching sign bootloader (i + 1) (checkedCount + 1) where
  le := Nat.succ_le_succ h.le
  lt := by
    have hlt := h.lt
    omega
  matched := by
    rw [Nat.add_sub_add_right]
    exact h.matched_succ hb hc
  none_before := by
    rw [Nat.add_sub_add_right]
    exact h.none_before

/-- What the search is for: the end of the first occurrence with 128 bytes behind it. -/
def Found (sign bootloader : List UInt8) : Option Nat → Prop
  | some loc => ∃ s, FirstAt sign bootloader s ∧ loc = s + sign.length ∧ loc + 128 ≤ bootloader.length
  | none => ∀ s, OccursAt sign bootloader s → ¬s + sign.length + 128 ≤ bootloader.length

theorem findChecksum_step {i checkedCount : Nat} {b c : UInt8} (hin : i + 128 < bootloader.length)
    (hb : bootloader[i]? = some b) (hc : sign[checkedCount]? = some c) :
    findChecksum sign bootloader i checkedCount =
      if b ≠ c then
        if checkedCount > 0 then findChecksum sign bootloader (i - checkedCount + 1) 0
        else findChecksum sign bootloader (i + 1) checkedCount
      else if checkedCount + 1 = sign.length then some (some (i + 1))
      else findChecksum sign bootloader (i + 1) (checkedCount + 1) := by
  rw [findChecksum, if_pos hin]
  split
  · next b' c' hb' hc' =>
    rw [hb] at hb'
    rw [hc] at hc'
    obtain rfl := Option.some.inj hb'
    obtain rfl := Option.some.inj hc'
    rfl
  · next hnone => exact absurd hc (hnone b c hb)

/-- The search ends, inside of the signature and the file, with what it looks for. -/
theorem findChecksum_found {i checkedCount : Nat} (h : Searching sign bootloader i checkedCount) :
    ∃ r, findChecksum sign bootloader i checkedCount = some r ∧ Found sign bootloader r := by
  induction i, checkedCount using findChecksum.induct sign bootloader with
  | case1 i checkedCount hin b c hb hc hne hpos ih =>
    rw [findChecksum_step hin hb hc, if_pos hne, if_pos hpos]
    exact ih (h.restart hb hc hne)
  | case2 i checkedCount hin b c hb hc hne hzero ih =>
    have hnext := h.restart hb hc hne
    obtain rfl : checkedCount = 0 := by omega
    rw [findChecksum_step hin hb hc, if_pos hne, if_neg hzero]
    exact ih hnext
  | case3 i checkedCount hin b c hb hc heq hlast =>
    obtain rfl := not_not.mp heq
    rw [findChecksum_step hin hb hc, if_neg heq, if_pos hlast]
    have hle := h.le
    refine ⟨_, rfl, i - checkedCount, ⟨?_, h.none_before⟩, by omega, by omega⟩
    rw [OccursAt, ← hlast]
    exact h.matched_succ hb hc
  | case4 i checkedCount hin b c hb hc heq hmore ih =>
    obtain rfl := not_not.mp heq
    rw [findChecksum_step hin hb hc, if_neg heq, if_neg hmore]
    exact ih (h.advance hb hc hmore)
  | case5 i checkedCount hin hnone =>
    exact absurd (List.getElem?_eq_getElem h.lt) (hnone _ _ (List.getElem?_eq_getElem (by omega)))
  | case6 i checkedCount hout =>
    rw [findChecksum, if_neg hout]
    refine ⟨none, rfl, fun s hoccurs hroom => ?_⟩
    have hle := h.le
    have hlt := h.lt
    exact h.none_before s (by omega) hoccurs

/-- What is found does not depend on the search. -/
theorem Found.unique {r r' : Option Nat} (h : Found sign bootloader r) (h' : Found sign bootloader r') : r = r' := by
  cases r with
  | none =>
    cases r' with
    | none => rfl
    | some loc =>
      obtain ⟨s, hfirst, rfl, hroom⟩ := h'
      exact absurd hroom (h s hfirst.occurs)
  | some loc =>
    obtain ⟨s, hfirst, rfl, hroom⟩ := h
    cases r' with
    | none => exact absurd hroom (h' s hfirst.occurs)
    | some loc' =>
      obtain ⟨s', hfirst', rfl, -⟩ := h'
      rw [hfirst.unique hfirst']

end

/-! ## What is written -/

/-- A hash as `enroll_config` accepts it. -/
structure B2sum where
  digits : List UInt8
  length_eq : digits.length = 128
  hex : digits.all isHexDigit = true

/-- What is asked for: a hash, or `--reset`. -/
abbrev Request := Option B2sum

def Request.argument (request : Request) : Option (List UInt8) := request.map B2sum.digits

/-- What goes behind the signature. -/
def Request.field (request : Request) : List UInt8 := request.argument.getD configB2sumEmpty

theorem Request.length_field (request : Request) : request.field.length = 128 := by
  cases request with
  | none => rfl
  | some hash => exact hash.length_eq

/-- There is a signature, and room behind the first one. -/
def HasRoom (bootloader : List UInt8) (s : Nat) : Prop :=
  FirstAt configB2sumSignature bootloader s ∧ s + configB2sumSignature.length + 128 ≤ bootloader.length

section
variable {bootloader : List UInt8}

/-- A request passes the checks of its hash. -/
theorem enrollConfig_request (request : Request) (hsize : configB2sumSignature.length + 128 ≤ bootloader.length) :
    enrollConfig request.argument bootloader =
      (findChecksum configB2sumSignature bootloader 0 0).map fun checksumLoc =>
        match checksumLoc with
        | none => .error "error: Checksum location not found in provided executable.\n"
        | some loc => .ok (overwrite bootloader request.field loc) := by
  have hlength : (request.argument.any fun h => decide (h.length ≠ 128)) = false := by
    cases request with
    | none => rfl
    | some hash => simp [Request.argument, hash.length_eq]
  have hhex : (request.argument.any fun h => !h.all isHexDigit) = false := by
    cases request with
    | none => rfl
    | some hash => simp [Request.argument, hash.hex]
  unfold enrollConfig
  rw [hlength, hhex, if_neg (by decide), if_neg (by decide), if_neg (by omega)]
  rfl

theorem search (bootloader : List UInt8) : ∃ r, findChecksum configB2sumSignature bootloader 0 0 = some r ∧
    Found configB2sumSignature bootloader r :=
  findChecksum_found (Searching.start (by decide))

theorem enrollConfig_written (request : Request) {s : Nat} (h : HasRoom bootloader s) :
    enrollConfig request.argument bootloader =
      some (.ok (overwrite bootloader request.field (s + configB2sumSignature.length))) := by
  obtain ⟨r, hrun, hfound⟩ := search bootloader
  have hroom := h.2
  have hhere : Found configB2sumSignature bootloader (some (s + configB2sumSignature.length)) := ⟨s, h.1, rfl, h.2⟩
  rw [enrollConfig_request request (by omega), hrun, hfound.unique hhere]
  rfl

theorem enrollConfig_refused (request : Request) (h : ∀ s, ¬HasRoom bootloader s) :
    ∃ message, enrollConfig request.argument bootloader = some (.error message) := by
  by_cases hsize : configB2sumSignature.length + 128 ≤ bootloader.length
  · obtain ⟨r, hrun, hfound⟩ := search bootloader
    rw [enrollConfig_request request hsize, hrun]
    cases r with
    | none => exact ⟨_, rfl⟩
    | some loc =>
      obtain ⟨s, hfirst, rfl, hroom⟩ := hfound
      exact absurd ⟨hfirst, hroom⟩ (h s)
  · unfold enrollConfig
    split
    · exact ⟨_, rfl⟩
    · split
      · exact ⟨_, rfl⟩
      · rw [if_pos (by omega)]
        exact ⟨_, rfl⟩

theorem HasRoom.unique {s s' : Nat} (h : HasRoom bootloader s) (h' : HasRoom bootloader s') : s = s' := h.1.unique h'.1

/-- The file that was written has its signature where it was. -/
theorem HasRoom.overwrite {s : Nat} (h : HasRoom bootloader s) (request : Request) :
    HasRoom (Lib.overwrite bootloader request.field (s + configB2sumSignature.length)) s := by
  have hroom := h.2
  constructor
  · exact h.1.overwrite (by omega)
  · rw [length_overwrite (by rw [request.length_field]; exact hroom)]
    exact hroom

/-- `enroll_config` succeeds where there is room behind the first signature, writes the 128 bytes there and
nothing else, and does it anew for each hash. -/
theorem enrollConfig_enrolls (bootloader : List UInt8) (request : Request) :
    ((∃ out, enrollConfig request.argument bootloader = some (.ok out)) ↔ ∃ s, HasRoom bootloader s) ∧
    (∀ out, enrollConfig request.argument bootloader = some (.ok out) → ∃ s, HasRoom bootloader s ∧
      out = bootloader.take (s + configB2sumSignature.length) ++ request.field ++
        bootloader.drop (s + configB2sumSignature.length + 128) ∧
      (∀ again : Request, enrollConfig again.argument out = enrollConfig again.argument bootloader) ∧
      ((bootloader.drop (s + configB2sumSignature.length)).take 128 = configB2sumEmpty →
        enrollConfig none out = some (.ok bootloader))) ∧
    ((¬∃ s, HasRoom bootloader s) → ∃ message, enrollConfig request.argument bootloader = some (.error message)) := by
  refine ⟨⟨?_, ?_⟩, ?_, ?_⟩
  · rintro ⟨out, hout⟩
    by_contra hnone
    obtain ⟨message, hmessage⟩ := enrollConfig_refused request (not_exists.mp hnone)
    rw [hmessage] at hout
    cases hout
  · rintro ⟨s, h⟩
    exact ⟨_, enrollConfig_written request h⟩
  · intro out hout
    by_cases hroom : ∃ s, HasRoom bootloader s
    · obtain ⟨s, h⟩ := hroom
      have hle := h.2
      rw [enrollConfig_written request h] at hout
      obtain rfl := Except.ok.inj (Option.some.inj hout)
      have hagain : ∀ again : Request, enrollConfig again.argument
          (overwrite bootloader request.field (s + configB2sumSignature.length)) =
          some (.ok (overwrite bootloader again.field (s + configB2sumSignature.length))) := by
        intro again
        rw [enrollConfig_written again (h.overwrite request),
          overwrite_overwrite (by omega) (request.length_field.trans again.length_field.symm)]
      refine ⟨s, h, ?_, fun again => ?_, fun hempty => ?_⟩
      · rw [overwrite, request.length_field]
      · rw [hagain again, enrollConfig_written again h]
      · have hreset := hagain none
        have hfield : Request.field none = (bootloader.drop (s + configB2sumSignature.length)).take 128 := hempty.symm
        rw [hfield, overwrite_self hle] at hreset
        exact hreset
    · obtain ⟨message, hmessage⟩ := enrollConfig_refused request (not_exists.mp hroom)
      rw [hmessage] at hout
      cases hout
  · intro hnone
    exact enrollConfig_refused request (not_exists.mp hnone)

end

end Limine.Host
