import Mathlib.Data.List.TakeWhile

/-!
# A configuration in the SMBIOS tables

`init_config_smbios` walks the structures of the table, each of them a formatted part of the length it says
and strings up to two NULs in a row.  A pointer into the table is the bytes from there to its end; what is
read behind them is `none`.
-/

namespace Limine.Config

/-! ## The source -/

/-- The loop of `smbios_struct_size` over the string area. -/
def scanStrings (stringData : List UInt8) (stringAreaMax i : Nat) : Option Nat :=
  if i < stringAreaMax then
    match stringData[i - 1]?, stringData[i]? with
    | some a, some b =>
      if a ≠ 0 ∨ b ≠ 0 then scanStrings stringData stringAreaMax (i + 1) else some i
    | _, _ => none
  else some i
termination_by stringAreaMax - i

/-- `smbios_struct_size`; a malformed structure has size 0. -/
def smbiosStructSize (hdr : List UInt8) (remaining : Nat) : Option Nat :=
  if remaining < 4 then some 0
  else
    match hdr[1]? with
    | none => none
    | some length =>
      if length.toNat < 4 then some 0
      else if length.toNat > remaining then some 0
      else
        let stringAreaMax := remaining - length.toNat
        (scanStrings (hdr.drop length.toNat) stringAreaMax 1).map fun i =>
          if i ≥ stringAreaMax then 0 else length.toNat + i + 1

/-- `limine:config:` -/
def configPrefix : List UInt8 := [108, 105, 109, 105, 110, 101, 58, 99, 111, 110, 102, 105, 103, 58]

/-- `!strncmp(s, cs, n)` for a string `cs` of `n` characters. -/
def sameStart : List UInt8 → List UInt8 → Option Bool
  | _, [] => some true
  | [], _ :: _ => none
  | b :: s, c :: cs => if b ≠ c then some false else if b = 0 then some true else sameStart s cs

/-- `strnlen` -/
def strnlen : List UInt8 → Nat → Option Nat
  | _, 0 => some 0
  | [], _ + 1 => none
  | b :: s, n + 1 => if b = 0 then some 0 else (strnlen s n).map (· + 1)

/-- What `memcpy` reads. -/
def readBytes (s : List UInt8) (n : Nat) : Option (List UInt8) := if n ≤ s.length then some (s.take n) else none

/-- The configuration in the first string, if there is one: the buffer for `init_config`. -/
def oemString (stringData : List UInt8) (stringAreaSize : Nat) : Option (Option (List UInt8)) :=
  if stringAreaSize > configPrefix.length then
    match sameStart stringData configPrefix with
    | none => none
    | some false => some none
    | some true =>
      match strnlen stringData stringAreaSize with
      | none => none
      | some totalLen =>
        if totalLen > configPrefix.length then
          let configSize := totalLen - configPrefix.length + 2
          (readBytes (stringData.drop configPrefix.length) (configSize - 1)).map fun text => some (text ++ [0])
        else some none
  else some none

/-- The configuration in the structure at `hdr`. -/
def oemConfig (hdr : List UInt8) (structSize : Nat) : Option (Option (List UInt8)) :=
  match hdr[0]?, hdr[1]? with
  | some type, some length =>
    if type = 11 ∧ length.toNat ≥ 4 then oemString (hdr.drop length.toNat) (structSize - length.toNat) else some none
  | _, _ => none

/-- The loop of `init_config_smbios`: the buffer that `init_config` is handed, if any. -/
def smbiosWalk (tableLength structCount : Nat) (hdr : List UInt8) (processed structNum : Nat) : Option (Option (List UInt8)) :=
  if structCount = 0 ∨ structNum < structCount then
    let remaining := tableLength - processed
    if remaining < 4 then some none
    else
      match hdr[0]? with
      | none => none
      | some type =>
        if type = 127 then some none
        else
          match smbiosStructSize hdr remaining with
          | none => none
          | some structSize =>
            if structSize = 0 then some none
            else
              match oemConfig hdr structSize with
              | none => none
              | some (some buffer) => some (some buffer)
              | some none =>
                if processed + structSize ≥ tableLength then some none
                else smbiosWalk tableLength structCount (hdr.drop structSize) (processed + structSize) (structNum + 1)
  else some none
termination_by tableLength - processed
decreasing_by
  omega

/-- The two entry points; the second one, the newer, has no count.  A table is its bytes, or `NULL`. -/
structure SmbiosEntries where
  entry32 : Option (Option (List UInt8) × Nat)
  entry64 : Option (Option (List UInt8))

/-- The table to search and its number of structures. -/
def SmbiosEntries.table (entries : SmbiosEntries) : Option (List UInt8 × Nat) :=
  match entries.entry64, entries.entry32 with
  | some table, _ => table.map fun bytes => (bytes, 0)
  | none, some (table, structCount) => table.map fun bytes => (bytes, structCount)
  | none, none => none

def smbiosSearch (table : List UInt8) (structCount : Nat) : Option (Option (List UInt8)) :=
  if table.length = 0 then some none else smbiosWalk table.length structCount table 0 0

/-- `init_config_smbios`, with `init_config` as a parameter that says whether it fails. -/
def initConfigSmbios (initConfig : List UInt8 → Bool) (entries : SmbiosEntries) : Option Bool :=
  match entries.table with
  | none => some false
  | some (table, structCount) => (smbiosSearch table structCount).map fun r =>
    match r with
    | none => false
    | some buffer => !initConfig buffer

/-! ## Structures -/

/-- Two NULs in a row. -/
def DoubleNul (s : List UInt8) (k : Nat) : Prop := s[k]? = some 0 ∧ s[k + 1]? = some 0

/-- The length of the formatted part, as the structure says it. -/
def formatted (s : List UInt8) : Nat := (s.getD 1 0).toNat

/-- `smbios_struct_header` and more, then strings up to the first two NULs. -/
structure WellFormed (s : List UInt8) : Prop where
  header : 4 ≤ formatted s
  strings : formatted s + 2 ≤ s.length
  ends : DoubleNul s (s.length - 2)
  first : ∀ k, formatted s ≤ k → k + 2 < s.length → ¬DoubleNul s k

section
variable {s hdr rest : List UInt8}

theorem doubleNul_drop {n k : Nat} : DoubleNul (s.drop n) k ↔ DoubleNul s (n + k) := by
  unfold DoubleNul
  rw [List.getElem?_drop, List.getElem?_drop, Nat.add_assoc]

theorem doubleNul_take {n k : Nat} (h : k + 1 < n) : DoubleNul (s.take n) k ↔ DoubleNul s k := by
  unfold DoubleNul
  rw [List.getElem?_take_of_lt (by omega), List.getElem?_take_of_lt h]

theorem formatted_take {n : Nat} (h : 2 ≤ n) : formatted (s.take n) = formatted s := by
  unfold formatted
  rw [List.getD_eq_getElem?_getD, List.getD_eq_getElem?_getD, List.getElem?_take_of_lt (by omega)]

/-- What a table starts with is one structure at most. -/
theorem WellFormed.length_unique {n m : Nat} (hn : n ≤ hdr.length) (hm : m ≤ hdr.length)
    (h : WellFormed (hdr.take n)) (h' : WellFormed (hdr.take m)) : n = m := by
  have hle : ∀ {n m : Nat}, n ≤ hdr.length → m ≤ hdr.length → WellFormed (hdr.take n) → WellFormed (hdr.take m) →
      ¬n < m := by
    intro n m hn hm h h' hlt
    have hstrings := h.strings
    have hends := h.ends
    have hfirst := h'.first (n - 2)
    rw [List.length_take_of_le hn] at hstrings hends
    rw [List.length_take_of_le hm] at hfirst
    rw [formatted_take (by omega)] at hstrings hfirst
    rw [doubleNul_take (by omega)] at hends
    rw [doubleNul_take (by omega)] at hfirst
    exact hfirst (by omega) (by omega) hends
  have hnm := hle hn hm h h'
  have hmn := hle hm hn h' h
  omega

/-- The scan stops at the first two NULs, or at the end. -/
theorem scanStrings_spec (sd : List UInt8) {i : Nat} (hi : 1 ≤ i)
    (hbefore : ∀ k, k + 1 < i → ¬DoubleNul sd k) : ∃ j, scanStrings sd sd.length i = some j ∧
      (∀ k, k + 1 < j → k + 1 < sd.length → ¬DoubleNul sd k) ∧ (j < sd.length → 1 ≤ j ∧ DoubleNul sd (j - 1)) := by
  induction hn : sd.length - i using Nat.strongRecOn generalizing i with
  | ind n ih =>
    rw [scanStrings]
    by_cases hlt : i < sd.length
    · have ha : sd[i - 1]? = some sd[i - 1] := List.getElem?_eq_getElem (by omega)
      have hb : sd[i]? = some sd[i] := List.getElem?_eq_getElem hlt
      rw [if_pos hlt, ha, hb]
      dsimp only
      by_cases hnul : sd[i - 1] ≠ 0 ∨ sd[i] ≠ 0
      · rw [if_pos hnul]
        refine ih (sd.length - (i + 1)) (by omega) (by omega) (fun k hk => ?_) rfl
        by_cases heq : k = i - 1
        · rintro ⟨hfirst, hsecond⟩
          rw [heq, ha] at hfirst
          rw [heq, Nat.sub_add_cancel hi, hb] at hsecond
          exact hnul.elim (fun h => h (Option.some.inj hfirst)) fun h => h (Option.some.inj hsecond)
        · exact hbefore k (by omega)
      · rw [if_neg hnul]
        obtain ⟨hfirst, hsecond⟩ := not_or.mp hnul
        refine ⟨i, rfl, fun k hk _ => hbefore k hk, fun _ => ⟨hi, ?_, ?_⟩⟩
        · rw [ha, not_not.mp hfirst]
        · rw [Nat.sub_add_cancel hi, hb, not_not.mp hsecond]
    · rw [if_neg hlt]
      exact ⟨i, rfl, fun k hk _ => hbefore k hk, fun h => absurd h hlt⟩

/-- `smbios_struct_size` measures the structure that the rest of the table starts with, if there is one. -/
theorem smbiosStructSize_spec (hdr : List UInt8) : ∃ n, smbiosStructSize hdr hdr.length = some n ∧
    (n ≠ 0 → n ≤ hdr.length ∧ WellFormed (hdr.take n)) ∧
    (n = 0 → ∀ m, m ≤ hdr.length → ¬WellFormed (hdr.take m)) := by
  have hformatted : ∀ m, m ≤ hdr.length → WellFormed (hdr.take m) →
      4 ≤ formatted hdr ∧ formatted hdr + 2 ≤ m ∧ DoubleNul hdr (m - 2) := by
    intro m hm h
    have hstrings := h.strings
    have hheader := h.header
    have hends := h.ends
    rw [List.length_take_of_le hm] at hstrings hends
    rw [formatted_take (by omega)] at hstrings hheader
    rw [doubleNul_take (by omega)] at hends
    exact ⟨hheader, hstrings, hends⟩
  unfold smbiosStructSize
  by_cases hshort : hdr.length < 4
  · rw [if_pos hshort]
    refine ⟨0, rfl, fun h => absurd rfl h, fun _ m hm h => ?_⟩
    have hparts := hformatted m hm h
    omega
  · rw [if_neg hshort]
    have hlength : hdr[1]? = some (hdr.getD 1 0) := by
      rw [List.getD_eq_getElem?_getD, List.getElem?_eq_getElem (by omega), Option.getD_some]
    rw [hlength]
    show ∃ n, (if formatted hdr < 4 then some 0 else if formatted hdr > hdr.length then some 0 else _) = some n ∧ _
    by_cases hheader : formatted hdr < 4
    · rw [if_pos hheader]
      refine ⟨0, rfl, fun h => absurd rfl h, fun _ m hm h => ?_⟩
      have hparts := hformatted m hm h
      omega
    · rw [if_neg hheader]
      by_cases hlong : formatted hdr > hdr.length
      · rw [if_pos hlong]
        refine ⟨0, rfl, fun h => absurd rfl h, fun _ m hm h => ?_⟩
        have hparts := hformatted m hm h
        omega
      · rw [if_neg hlong]
        have harea : (hdr.drop (formatted hdr)).length = hdr.length - formatted hdr := List.length_drop
        obtain ⟨j, hscan, hnone, hfound⟩ := scanStrings_spec (hdr.drop (formatted hdr)) (Nat.le_refl 1)
          (fun k hk => by omega)
        rw [harea] at hscan hnone hfound
        show ∃ n, (scanStrings (hdr.drop (formatted hdr)) (hdr.length - formatted hdr) 1).map
          (fun i => if i ≥ hdr.length - formatted hdr then 0 else formatted hdr + i + 1) = some n ∧ _
        rw [hscan]
        by_cases hend : j ≥ hdr.length - formatted hdr
        · refine ⟨0, by rw [Option.map_some, if_pos hend], fun h => absurd rfl h, fun _ m hm h => ?_⟩
          obtain ⟨-, hstrings, hends⟩ := hformatted m hm h
          have hno := hnone (m - 2 - formatted hdr) (by omega) (by omega)
          rw [doubleNul_drop, Nat.add_sub_cancel' (by omega)] at hno
          exact hno hends
        · obtain ⟨hpos, hnul⟩ := hfound (by omega)
          rw [doubleNul_drop] at hnul
          have hsize : formatted hdr + j + 1 ≤ hdr.length := by omega
          refine ⟨formatted hdr + j + 1, by rw [Option.map_some, if_neg hend], fun _ => ⟨hsize, ?_⟩, fun h => by omega⟩
          constructor
          · rw [formatted_take (by omega)]
            omega
          · rw [formatted_take (by omega), List.length_take_of_le hsize]
            omega
          · rw [List.length_take_of_le hsize, doubleNul_take (by omega)]
            have heq : formatted hdr + j + 1 - 2 = formatted hdr + (j - 1) := by omega
            rw [heq]
            exact hnul
          · intro k hlow hhigh
            rw [formatted_take (by omega)] at hlow
            rw [List.length_take_of_le hsize] at hhigh
            rw [doubleNul_take (by omega)]
            have hno := hnone (k - formatted hdr) (by omega) (by omega)
            rw [doubleNul_drop, Nat.add_sub_cancel' hlow] at hno
            exact hno

theorem smbiosStructSize_append (h : WellFormed s) : smbiosStructSize (s ++ rest) (s ++ rest).length = some s.length := by
  obtain ⟨n, hrun, hwell, hnone⟩ := smbiosStructSize_spec (s ++ rest)
  have hle : s.length ≤ (s ++ rest).length := by
    rw [List.length_append]
    omega
  have htake : WellFormed ((s ++ rest).take s.length) := by
    rw [List.take_left]
    exact h
  have hn : n ≠ 0 := fun hzero => hnone hzero s.length hle htake
  obtain ⟨hfits, hn⟩ := hwell hn
  rw [hrun, WellFormed.length_unique hfits hle hn htake]

/-! ## The configuration in a structure -/

/-- The first string of a structure. -/
def firstString (s : List UInt8) : List UInt8 := (s.drop (formatted s)).takeWhile fun b => b ≠ 0

/-- OEM strings, of which the first is the prefix and a configuration. -/
structure Carries (s text : List UInt8) : Prop where
  type : s[0]? = some 11
  text_ne_nil : text ≠ []
  string : firstString s = configPrefix ++ text

theorem sameStart_eq : ∀ {s cs : List UInt8}, (∀ c ∈ cs, c ≠ 0) → cs.length ≤ s.length →
    sameStart s cs = some (decide (cs <+: s)) := by
  intro s cs
  induction cs generalizing s with
  | nil =>
    intro _ _
    simp [sameStart]
  | cons c cs ih =>
    intro hcs hlength
    obtain ⟨hc, hmore⟩ := List.forall_mem_cons.mp hcs
    cases s with
    | nil => simp at hlength
    | cons b s =>
      rw [sameStart]
      by_cases hb : b = c
      · subst hb
        rw [if_neg (not_not.mpr rfl), if_neg hc, ih hmore (by simpa using hlength)]
        simp [List.cons_prefix_cons]
      · rw [if_pos hb]
        have hno : ¬c :: cs <+: b :: s := by
          rw [List.cons_prefix_cons]
          exact fun h => hb h.1.symm
        rw [decide_eq_false hno]

theorem strnlen_eq : ∀ {s : List UInt8} {n : Nat}, n ≤ s.length →
    strnlen s n = some ((s.take n).takeWhile fun b => b ≠ 0).length := by
  intro s n
  induction n generalizing s with
  | zero =>
    intro _
    simp [strnlen]
  | succ n ih =>
    intro hlength
    cases s with
    | nil => simp at hlength
    | cons b s =>
      rw [strnlen, List.take_succ_cons]
      by_cases hb : b = 0
      · simp [hb]
      · rw [if_neg hb, ih (by simpa using hlength)]
        simp [hb]

/-- A start without a NUL is in the first string. -/
theorem prefix_string_iff {cs string tail : List UInt8} (hcs : ∀ c ∈ cs, c ≠ 0) :
    cs <+: string ++ 0 :: tail ↔ cs <+: string := by
  constructor
  · intro h
    apply List.prefix_of_prefix_length_le h (List.prefix_append string _)
    by_contra hlong
    obtain ⟨more, hmore⟩ := h
    have hnul : cs[string.length]? = some 0 := by
      have hleft : (cs ++ more)[string.length]? = cs[string.length]? := List.getElem?_append_left (by omega)
      rw [← hleft, hmore, List.getElem?_append_right (Nat.le_refl _), Nat.sub_self]
      rfl
    exact hcs 0 (List.mem_of_getElem? hnul) rfl
  · intro h
    exact h.trans (List.prefix_append string _)

/-- The strings of a structure are the first one, its NUL and more. -/
theorem WellFormed.area_eq (h : WellFormed s) : ∃ tail, s.drop (formatted s) = firstString s ++ 0 :: tail := by
  have hstrings := h.strings
  obtain ⟨hnul, -⟩ := h.ends
  have hmem : (0 : UInt8) ∈ s.drop (formatted s) := by
    apply List.mem_of_getElem? (i := s.length - 2 - formatted s)
    rw [List.getElem?_drop, Nat.add_sub_cancel' (by omega)]
    exact hnul
  have hsplit := List.takeWhile_append_dropWhile (p := fun b : UInt8 => decide (b ≠ 0)) (l := s.drop (formatted s))
  cases hrest : (s.drop (formatted s)).dropWhile fun b => decide (b ≠ 0) with
  | nil =>
    rw [List.dropWhile_eq_nil_iff] at hrest
    have hno := hrest 0 hmem
    simp at hno
  | cons b tail =>
    have hb : b = 0 := by
      have hhead := List.head?_dropWhile_not (fun b : UInt8 => decide (b ≠ 0)) (s.drop (formatted s))
      rw [hrest] at hhead
      simpa using hhead
    refine ⟨tail, ?_⟩
    rw [hrest, hb] at hsplit
    exact hsplit.symm

theorem firstString_no_nul : ∀ b ∈ firstString s, b ≠ 0 := by
  intro b hb
  simpa using List.mem_takeWhile_imp hb

theorem takeWhile_string {string tail : List UInt8} (h : ∀ b ∈ string, b ≠ 0) :
    (string ++ 0 :: tail).takeWhile (fun b => decide (b ≠ 0)) = string := by
  rw [List.takeWhile_append_of_pos (by simpa using h)]
  simp

theorem configPrefix_no_nul : ∀ c ∈ configPrefix, c ≠ 0 := by
  simp [configPrefix]

/-- The bytes that the code looks at, where a structure is what the rest of the table starts with. -/
theorem WellFormed.fields (h : WellFormed s) : (s ++ rest)[0]? = s[0]? ∧ (s ++ rest)[1]? = some (s.getD 1 0) ∧
    (s ++ rest).drop (formatted s) = s.drop (formatted s) ++ rest := by
  have hstrings := h.strings
  have hheader := h.header
  refine ⟨List.getElem?_append_left (by omega), ?_, List.drop_append_of_le_length (by omega)⟩
  rw [List.getElem?_append_left (by omega), List.getD_eq_getElem?_getD, List.getElem?_eq_getElem (by omega), Option.getD_some]

/-- What the first string has behind the prefix, where there is that. -/
theorem oemString_spec {string : List UInt8} (hno : ∀ b ∈ string, b ≠ 0) (tail rest : List UInt8) :
    ∃ r : Option (List UInt8), oemString (string ++ 0 :: (tail ++ rest)) (string.length + 1 + tail.length) =
      some (r.map (· ++ [0, 0])) ∧ ∀ text, r = some text ↔ text ≠ [] ∧ string = configPrefix ++ text := by
  have hnone : (∀ text, ¬(text ≠ [] ∧ string = configPrefix ++ text)) →
      ∀ text, (none : Option (List UInt8)) = some text ↔ text ≠ [] ∧ string = configPrefix ++ text := by
    intro hnot text
    constructor
    · intro h
      cases h
    · intro h
      exact absurd h (hnot text)
  unfold oemString
  by_cases hroom : string.length + 1 + tail.length > configPrefix.length
  · rw [if_pos hroom, sameStart_eq configPrefix_no_nul (by simp; omega)]
    by_cases hstart : configPrefix <+: string
    · obtain ⟨text, rfl⟩ := hstart
      have htotal : strnlen (configPrefix ++ text ++ 0 :: (tail ++ rest)) ((configPrefix ++ text).length + 1 + tail.length) =
          some (configPrefix ++ text).length := by
        have htake : (configPrefix ++ text ++ 0 :: (tail ++ rest)).take ((configPrefix ++ text).length + 1 + tail.length) =
            configPrefix ++ text ++ 0 :: tail := by
          rw [← List.cons_append, ← List.append_assoc]
          exact List.take_left' (by simp; omega)
        rw [strnlen_eq (by simp; omega), htake, takeWhile_string hno]
      rw [decide_eq_true ((prefix_string_iff configPrefix_no_nul).mpr (List.prefix_append _ text)), htotal]
      dsimp only
      by_cases hempty : text = []
      · subst hempty
        rw [if_neg (by simp)]
        refine ⟨none, rfl, hnone fun text' h => ?_⟩
        exact h.1 (List.append_cancel_left h.2).symm
      · have hpos := List.length_pos_iff.mpr hempty
        rw [if_pos (by rw [List.length_append]; omega), List.append_assoc, List.drop_left]
        have hread : readBytes (text ++ 0 :: (tail ++ rest)) ((configPrefix ++ text).length - configPrefix.length + 2 - 1) =
            some (text ++ [0]) := by
          unfold readBytes
          rw [List.length_append, Nat.add_sub_cancel_left, if_pos (by rw [List.length_append, List.length_cons]; omega)]
          have hsplit : text ++ 0 :: (tail ++ rest) = (text ++ [0]) ++ (tail ++ rest) := by simp
          rw [hsplit]
          exact congrArg some (List.take_left' (by simp))
        rw [hread]
        refine ⟨some text, by simp, fun text' => ?_⟩
        constructor
        · intro h
          obtain rfl := Option.some.inj h
          exact ⟨hempty, rfl⟩
        · rintro ⟨-, h⟩
          rw [List.append_cancel_left h]
    · rw [decide_eq_false (mt (prefix_string_iff configPrefix_no_nul).mp hstart)]
      refine ⟨none, rfl, hnone fun text h => ?_⟩
      exact hstart ⟨text, h.2.symm⟩
  · rw [if_neg hroom]
    refine ⟨none, rfl, hnone fun text h => ?_⟩
    rw [h.2, List.length_append] at hroom
    omega

theorem oemConfig_append (h : WellFormed s) (rest : List UInt8) : ∃ r : Option (List UInt8),
    oemConfig (s ++ rest) s.length = some (r.map (· ++ [0, 0])) ∧ ∀ text, r = some text ↔ Carries s text := by
  have hstrings := h.strings
  obtain ⟨hzero, hone, hdrop⟩ : (s ++ rest)[0]? = s[0]? ∧ _ ∧ _ := h.fields
  obtain ⟨tail, harea⟩ := h.area_eq
  have hfirst : s[0]? = some (s.getD 0 0) := by
    rw [List.getD_eq_getElem?_getD, List.getElem?_eq_getElem (by omega), Option.getD_some]
  unfold oemConfig
  rw [hzero, hone, hfirst]
  show ∃ r : Option (List UInt8), (if s.getD 0 0 = 11 ∧ formatted s ≥ 4 then
    oemString ((s ++ rest).drop (formatted s)) (s.length - formatted s) else some none) = some (r.map (· ++ [0, 0])) ∧ _
  by_cases htype : s.getD 0 0 = 11
  · have hsize : s.length - formatted s = (firstString s).length + 1 + tail.length := by
      rw [← List.length_drop, harea, List.length_append, List.length_cons]
      omega
    obtain ⟨r, hrun, hr⟩ := oemString_spec (firstString_no_nul (s := s)) tail rest
    rw [if_pos ⟨htype, h.header⟩, hdrop, harea, hsize, List.append_assoc, List.cons_append]
    refine ⟨r, hrun, fun text => ?_⟩
    rw [hr text]
    constructor
    · rintro ⟨hne, hstring⟩
      exact ⟨by rw [hfirst, htype], hne, hstring⟩
    · intro hc
      exact ⟨hc.text_ne_nil, hc.string⟩
  · rw [if_neg (fun hc => htype hc.1)]
    refine ⟨none, rfl, fun text => ?_⟩
    constructor
    · intro hc
      cases hc
    · intro hc
      have htype' := hc.type
      rw [hfirst] at htype'
      exact absurd (Option.some.inj htype') htype

end

/-! ## The walk -/

/-- A structure that the search goes on behind. -/
structure PassedOver (s : List UInt8) : Prop where
  wellFormed : WellFormed s
  not_end : s[0]? ≠ some 127
  none : ∀ text, ¬Carries s text

/-- The text is the configuration behind some structures that are passed over, with `structNum` before. -/
def ChosenFrom (structCount structNum : Nat) (hdr text : List UInt8) : Prop :=
  ∃ (before : List (List UInt8)) (s rest : List UInt8), hdr = before.flatten ++ (s ++ rest) ∧
    (∀ b ∈ before, PassedOver b) ∧ WellFormed s ∧ Carries s text ∧
    (structCount = 0 ∨ structNum + before.length < structCount)

section
variable {s hdr rest text : List UInt8} {structCount structNum : Nat}

/-- Only one structure stands at the front. -/
theorem WellFormed.append_cancel {s' rest' : List UInt8} (h : WellFormed s) (h' : WellFormed s')
    (heq : s ++ rest = s' ++ rest') : s = s' ∧ rest = rest' := by
  have hlength : s.length = s'.length := by
    apply WellFormed.length_unique (show s.length ≤ (s ++ rest).length by simp)
    · rw [heq]
      simp
    · rw [List.take_left]
      exact h
    · rw [heq, List.take_left]
      exact h'
  exact List.append_inj heq hlength

theorem ChosenFrom.limit (h : ChosenFrom structCount structNum hdr text) : structCount = 0 ∨ structNum < structCount := by
  obtain ⟨before, -, -, -, -, -, -, hlimit⟩ := h
  omega

/-- What is chosen, by the structure at the front. -/
theorem chosenFrom_append (h : WellFormed s) (hlimit : structCount = 0 ∨ structNum < structCount) :
    ChosenFrom structCount structNum (s ++ rest) text ↔
      Carries s text ∨ PassedOver s ∧ ChosenFrom structCount (structNum + 1) rest text := by
  constructor
  · rintro ⟨before, s', rest', heq, hbefore, hs', hcarries, hcount⟩
    cases before with
    | nil =>
      obtain ⟨rfl, -⟩ := h.append_cancel hs' heq
      exact Or.inl hcarries
    | cons b before =>
      obtain ⟨hb, hmore⟩ := List.forall_mem_cons.mp hbefore
      rw [List.flatten_cons, List.append_assoc] at heq
      obtain ⟨rfl, hrest⟩ := h.append_cancel hb.wellFormed heq
      rw [List.length_cons] at hcount
      exact Or.inr ⟨hb, before, s', rest', hrest, hmore, hs', hcarries, by omega⟩
  · rintro (hcarries | ⟨hpassed, before, s', rest', rfl, hbefore, hs', hcarries, hcount⟩)
    · exact ⟨[], s, rest, rfl, by simp, h, hcarries, by simpa using hlimit⟩
    · refine ⟨s :: before, s', rest', ?_, List.forall_mem_cons.mpr ⟨hpassed, hbefore⟩, hs', hcarries, ?_⟩
      · rw [List.flatten_cons, List.append_assoc]
      · rw [List.length_cons]
        omega

/-- What is chosen has a structure at the front of the table. -/
theorem ChosenFrom.front (h : ChosenFrom structCount structNum hdr text) :
    ∃ s rest, hdr = s ++ rest ∧ WellFormed s ∧ s[0]? ≠ some 127 := by
  obtain ⟨before, s, rest, rfl, hbefore, hs, hcarries, -⟩ := h
  cases before with
  | nil =>
    refine ⟨s, rest, rfl, hs, ?_⟩
    rw [hcarries.type]
    decide
  | cons b before =>
    have hb := hbefore b List.mem_cons_self
    exact ⟨b, _, by rw [List.flatten_cons, List.append_assoc], hb.wellFormed, hb.not_end⟩

/-- The walk finds what there is to choose. -/
theorem smbiosWalk_spec (tableLength structCount : Nat) : ∀ {hdr : List UInt8} {processed structNum : Nat},
    hdr.length = tableLength - processed →
    ∃ r : Option (List UInt8), smbiosWalk tableLength structCount hdr processed structNum = some (r.map (· ++ [0, 0])) ∧
      ∀ text, r = some text ↔ ChosenFrom structCount structNum hdr text := by
  intro hdr processed structNum
  induction hn : tableLength - processed using Nat.strongRecOn generalizing hdr processed structNum with
  | ind n ih =>
    intro hlength
    subst hn
    have hnothing : (∀ text, ¬ChosenFrom structCount structNum hdr text) →
        ∀ text, (none : Option (List UInt8)) = some text ↔ ChosenFrom structCount structNum hdr text := by
      intro hnot text
      constructor
      · intro h
        cases h
      · intro h
        exact absurd h (hnot text)
    rw [smbiosWalk]
    by_cases hlimit : structCount = 0 ∨ structNum < structCount
    · rw [if_pos hlimit]
      dsimp only
      by_cases hshort : tableLength - processed < 4
      · rw [if_pos hshort]
        refine ⟨none, rfl, hnothing fun text h => ?_⟩
        obtain ⟨s, rest, rfl, hs, -⟩ := h.front
        have hstrings := hs.strings
        have hheader := hs.header
        rw [List.length_append] at hlength
        omega
      · rw [if_neg hshort]
        have htype : hdr[0]? = some (hdr.getD 0 0) := by
          rw [List.getD_eq_getElem?_getD, List.getElem?_eq_getElem (by omega), Option.getD_some]
        rw [htype]
        dsimp only
        by_cases hend : hdr.getD 0 0 = 127
        · rw [if_pos hend]
          refine ⟨none, rfl, hnothing fun text h => ?_⟩
          obtain ⟨s, rest, rfl, hs, hne⟩ := h.front
          have hstrings := hs.strings
          rw [List.getElem?_append_left (by omega), hend] at htype
          exact hne htype
        · rw [if_neg hend, ← hlength]
          obtain ⟨size, hsize, hwell, hmalformed⟩ := smbiosStructSize_spec hdr
          rw [hsize]
          dsimp only
          by_cases hzero : size = 0
          · rw [if_pos hzero]
            refine ⟨none, rfl, hnothing fun text h => ?_⟩
            obtain ⟨s, rest, rfl, hs, -⟩ := h.front
            apply hmalformed hzero s.length (by simp)
            rw [List.take_left]
            exact hs
          · rw [if_neg hzero]
            obtain ⟨hfits, hs⟩ := hwell hzero
            have hsplit := (List.take_append_drop size hdr).symm
            have hsizeEq : (hdr.take size).length = size := List.length_take_of_le hfits
            have hstrings := hs.strings
            obtain ⟨r, hrun, hr⟩ := oemConfig_append hs (hdr.drop size)
            rw [← hsplit, hsizeEq] at hrun
            rw [hrun]
            have hchosen (text : List UInt8) : ChosenFrom structCount structNum (hdr.take size ++ hdr.drop size) text ↔ _ :=
              chosenFrom_append hs hlimit
            rw [← hsplit] at hchosen
            cases r with
            | some text =>
              have hcarries := (hr text).mp rfl
              refine ⟨some text, rfl, fun text' => ?_⟩
              rw [hr text', hchosen text']
              constructor
              · exact fun h => Or.inl h
              · rintro (h | ⟨hpassed, -⟩)
                · exact h
                · exact absurd hcarries (hpassed.none text)
            | none =>
              have hpassed : PassedOver (hdr.take size) := by
                refine ⟨hs, ?_, fun text hcarries => ?_⟩
                · rw [List.getElem?_take_of_lt (by omega), htype]
                  exact fun h => hend (Option.some.inj h)
                · have hnot := (hr text).mpr hcarries
                  cases hnot
              dsimp only [Option.map_none]
              by_cases hlast : processed + size ≥ tableLength
              · rw [if_pos hlast]
                refine ⟨none, rfl, hnothing fun text h => ?_⟩
                rcases (hchosen text).mp h with hcarries | ⟨-, hmore⟩
                · exact hpassed.none text hcarries
                · obtain ⟨s, rest, heq, hs', -⟩ := hmore.front
                  have hempty := congrArg List.length heq
                  have hstrings' := hs'.strings
                  rw [List.length_drop, List.length_append] at hempty
                  omega
              · rw [if_neg hlast]
                obtain ⟨r, hrun', hr'⟩ := @ih (tableLength - (processed + size)) (by omega) (hdr.drop size)
                  (processed + size) (structNum + 1) rfl (by rw [List.length_drop]; omega)
                refine ⟨r, hrun', fun text => ?_⟩
                rw [hr' text, hchosen text]
                constructor
                · exact fun h => Or.inr ⟨hpassed, h⟩
                · rintro (hcarries | ⟨-, h⟩)
                  · exact absurd hcarries (hpassed.none text)
                  · exact h
    · rw [if_neg hlimit]
      exact ⟨none, rfl, hnothing fun text h => hlimit h.limit⟩

end

/-- The configuration of a table: that of the first structure that carries one, before an end of the table, a
malformed structure and the end of the count. -/
def Configures (table : List UInt8) (structCount : Nat) (text : List UInt8) : Prop :=
  ChosenFrom structCount 0 table text

/-- `init_config_smbios` ends, stays inside of the table, and hands the configuration of the table to
`init_config`, with the two NULs that end it. -/
theorem initConfigSmbios_configures (table : List UInt8) (structCount : Nat) :
    ∃ r : Option (List UInt8), (∀ text, r = some text ↔ Configures table structCount text) ∧
      smbiosSearch table structCount = some (r.map (· ++ [0, 0])) ∧
      ∀ (initConfig : List UInt8 → Bool) (entries : SmbiosEntries), entries.table = some (table, structCount) →
        initConfigSmbios initConfig entries = some (r.elim false fun text => !initConfig (text ++ [0, 0])) := by
  obtain ⟨r, hrun, hr⟩ := @smbiosWalk_spec table.length structCount table 0 0 rfl
  have hsearch : smbiosSearch table structCount = some (r.map (· ++ [0, 0])) := by
    unfold smbiosSearch
    by_cases hempty : table.length = 0
    · rw [if_pos hempty]
      rw [smbiosWalk] at hrun
      rw [hempty] at hrun
      split at hrun
      · exact hrun
      · exact hrun
    · rw [if_neg hempty]
      exact hrun
  refine ⟨r, hr, hsearch, fun initConfig entries htable => ?_⟩
  unfold initConfigSmbios
  rw [htable]
  dsimp only
  rw [hsearch]
  cases r <;> rfl

theorem initConfigSmbios_noTable (initConfig : List UInt8 → Bool) {entries : SmbiosEntries} (h : entries.table = none) :
    initConfigSmbios initConfig entries = some false := by
  unfold initConfigSmbios
  rw [h]

end Limine.Config
