import Limine.Config.Lookup
import Limine.Lib.Decimal
import Limine.Lib.Bytes

/-!
# The extensions of an ISA string

`riscv_check_isa_extension_for` walks the ISA string of a hart with `parse_extension`, which also
accepts a version after a name.
-/

namespace Limine.Riscv

open Limine.Lib (isDigit)
open Limine.Menu (CString)
open Limine.Config (tolower)

def isalpha (c : UInt8) : Bool := (97 ≤ c && c ≤ 122) || (65 ≤ c && c ≤ 90)

def underscore : UInt8 := 95

/-- `struct isa_extension`; the name is `name_len` bytes long. -/
structure IsaExtension where
  name : CString
  verMaj : UInt32
  verMin : UInt32
deriving DecidableEq

/-- `parse_number`, with what follows the number. -/
def parseNumberFrom (n : UInt64) (parsed : Bool) : CString → Bool × UInt64 × CString
  | [] => (parsed, n, [])
  | c :: s =>
    if isDigit c then parseNumberFrom (n * 10 + (c.toUInt64 - 48)) true s else (parsed, n, c :: s)

def parseNumber (s : CString) : Bool × UInt64 × CString := parseNumberFrom 0 false s

/-- The letters that begin a name of several letters. -/
def isPrefix (c : UInt8) : Bool :=
  c = 115 || c = 83 || c = 120 || c = 88 || c = 122 || c = 90

/-- The version after a name, and what follows it. -/
def parseVersion (s : CString) : UInt64 × UInt64 × CString :=
  match parseNumber s with
  | (true, maj, 112 :: s) =>
    let (_, min, s) := parseNumber s
    (maj, min, s)
  | (_, maj, s) => (maj, 0, s)

/-- The rest of a name that begins with `c`. -/
def nameTail (c : UInt8) (s : CString) : CString := if isPrefix c then s.takeWhile isalpha else []

/-- `parse_extension`, with what follows the extension. -/
def parseExtension : CString → Option (IsaExtension × CString)
  | [] => none
  | c :: s =>
    let version := parseVersion (s.drop (nameTail c s).length)
    some (⟨c :: nameTail c s, version.1.toUInt32, version.2.1.toUInt32⟩,
      version.2.2.dropWhile (· = underscore))

/-- `extension_matches` -/
def extensionMatches : CString → CString → Bool
  | [], name => name.isEmpty
  | _ :: _, [] => false
  | c1 :: ext, c2 :: name => tolower c1 = tolower c2 && extensionMatches ext name

theorem parseNumberFrom_length (s : CString) : ∀ n parsed,
    (parseNumberFrom n parsed s).2.2.length ≤ s.length := by
  induction s with
  | nil => intro n parsed; exact Nat.le_refl _
  | cons c s ih =>
    intro n parsed
    unfold parseNumberFrom
    split
    · exact (ih _ _).trans (Nat.le_succ _)
    · exact Nat.le_refl _

theorem parseVersion_length (s : CString) : (parseVersion s).2.2.length ≤ s.length := by
  have hmaj : (parseNumber s).2.2.length ≤ s.length := parseNumberFrom_length s 0 false
  unfold parseVersion
  split
  · next maj rest h =>
    rw [h] at hmaj
    have hmin : (parseNumber rest).2.2.length ≤ rest.length := parseNumberFrom_length rest 0 false
    simp only [List.length_cons] at hmaj
    show (parseNumber rest).2.2.length ≤ s.length
    omega
  · next h =>
    rw [h] at hmaj
    exact hmaj

theorem parseExtension_length {s rest : CString} {ext : IsaExtension}
    (h : parseExtension s = some (ext, rest)) : rest.length < s.length := by
  cases s with
  | nil => cases h
  | cons c s =>
    cases h
    have hversion := parseVersion_length (s.drop (nameTail c s).length)
    have hskip := (List.dropWhile_sublist (fun c => decide (c = underscore))
      (l := (parseVersion (s.drop (nameTail c s).length)).2.2)).length_le
    rw [List.length_drop] at hversion
    rw [List.length_cons]
    omega

/-- The loop of `riscv_check_isa_extension_for`. -/
def checkFrom (name s : CString) : Option (UInt32 × UInt32) :=
  match _h : parseExtension s with
  | none => none
  | some (ext, rest) =>
    if extensionMatches ext.name name then some (ext.verMaj, ext.verMin) else checkFrom name rest
termination_by s.length
decreasing_by exact parseExtension_length _h

structure Hart where
  hartid : Nat
  isaString : CString

/-- `riscv_find_hart` in `hart_list`. -/
def riscvFindHart (hartList : List Hart) (hartid : Nat) : Option Hart :=
  hartList.find? fun hart => hart.hartid = hartid

/-- `riscv_check_isa_extension_for`: the version of the extension, if it is there. -/
def riscvCheckIsaExtensionFor (hartList : List Hart) (hartid : Nat) (name : CString) :
    Option (UInt32 × UInt32) :=
  match riscvFindHart hartList hartid with
  | none => none
  | some hart => checkFrom name (hart.isaString.drop 4)

/-!
## What the walk finds of an unversioned ISA string

The names the walk sees are those of the list as long as no name has a digit, which the walk takes
for a version, and no letter that begins a longer name comes before another single letter.

    (∀ name, found ↔ listed)  ↔  isa.Readable         (riscvCheckIsaExtensionFor_listed_iff)
-/

open Limine.Lib (isDigit forall_byte)

/-! ## Strings -/

/-- A name of several letters: it begins with `s`, `x` or `z` and ends with a letter. -/
def IsMulti (name : CString) : Prop := ∃ c w d, name = c :: (w ++ [d]) ∧ isPrefix c ∧
  (∀ x ∈ w, isalpha x ∨ isDigit x) ∧ isalpha d

/-- An ISA string without versions, by its parts. -/
structure Isa where
  base : CString
  singles : List UInt8
  multis : List CString
  /-- `rv32` or `rv64` -/
  base_eq : base = [114, 118, 51, 50] ∨ base = [114, 118, 54, 52]
  singles_alpha : ∀ c ∈ singles, isalpha c
  multis_form : ∀ name ∈ multis, IsMulti name

def multiString (multis : List CString) : CString := multis.flatMap fun name => underscore :: name

def Isa.string (isa : Isa) : CString := isa.base ++ (isa.singles ++ multiString isa.multis)

def lower (name : CString) : CString := name.map tolower

/-- The extension is in the list, in any letter case. -/
def Isa.Lists (isa : Isa) (name : CString) : Prop :=
  (∃ c ∈ isa.singles, lower [c] = lower name) ∨ ∃ multi ∈ isa.multis, lower multi = lower name

/-- The names of extensions consist of letters and digits. -/
def IsName (name : CString) : Prop := ∀ c ∈ name, isalpha c ∨ isDigit c

/-- No name has a digit, and `s`, `x` and `z` come last among the single letters. -/
structure Isa.Readable (isa : Isa) : Prop where
  multis : ∀ name ∈ isa.multis, ∀ c ∈ name, isalpha c
  singles : ∀ c ∈ isa.singles.dropLast, ¬ isPrefix c

/-! ## Letters -/

/-- What a prefix, a letter and a digit have to do with each other, looked up for every character. -/
theorem characters : ∀ c : UInt8, isPrefix (tolower c) = isPrefix c ∧ isalpha (tolower c) = isalpha c ∧
    (isPrefix c → isalpha c) ∧ (isalpha c → isDigit c = false ∧ c ≠ underscore) := by
  apply forall_byte
  decide +kernel

theorem isPrefix_tolower (c : UInt8) : isPrefix (tolower c) = isPrefix c := (characters c).1

theorem isalpha_tolower (c : UInt8) : isalpha (tolower c) = isalpha c := (characters c).2.1

theorem isalpha_of_isPrefix (c : UInt8) : isPrefix c → isalpha c := (characters c).2.2.1

theorem not_isDigit_of_isalpha (c : UInt8) : isalpha c → isDigit c = false ∧ c ≠ underscore :=
  (characters c).2.2.2

theorem lower_alpha {a b : CString} (h : lower a = lower b) (ha : ∀ c ∈ a, isalpha c) :
    ∀ c ∈ b, isalpha c := by
  intro c hc
  have hmem : tolower c ∈ lower a := by
    rw [h]
    exact List.mem_map_of_mem hc
  obtain ⟨d, hd, hdc⟩ := List.mem_map.mp hmem
  rw [← isalpha_tolower, ← hdc, isalpha_tolower]
  exact ha d hd

theorem extensionMatches_iff {ext name : CString} :
    extensionMatches ext name = true ↔ lower ext = lower name := by
  induction ext generalizing name with
  | nil => cases name <;> simp [extensionMatches, lower]
  | cons c1 ext ih =>
    cases name with
    | nil => simp [extensionMatches, lower]
    | cons c2 name =>
      rw [extensionMatches, Bool.and_eq_true, ih]
      simp [lower]

/-! ## The walk -/

/-- The names that the walk comes to. -/
def names (s : CString) : List CString :=
  match _h : parseExtension s with
  | none => []
  | some (ext, rest) => ext.name :: names rest
termination_by s.length
decreasing_by exact parseExtension_length _h

theorem names_nil : names [] = [] := by
  rw [names]
  rfl

theorem names_of_some {s rest : CString} {ext : IsaExtension}
    (h : parseExtension s = some (ext, rest)) : names s = ext.name :: names rest := by
  rw [names]
  split
  · next h' => cases h.symm.trans h'
  · next h' =>
    cases h.symm.trans h'
    rfl

theorem checkFrom_of_some {name s rest : CString} {ext : IsaExtension}
    (h : parseExtension s = some (ext, rest)) : checkFrom name s =
      if extensionMatches ext.name name then some (ext.verMaj, ext.verMin) else checkFrom name rest := by
  rw [checkFrom]
  split
  · next h' => cases h.symm.trans h'
  · next h' =>
    cases h.symm.trans h'
    rfl

theorem checkFrom_isSome {name s : CString} :
    (checkFrom name s).isSome ↔ ∃ ext ∈ names s, lower ext = lower name := by
  fun_induction checkFrom name s with
  | case1 s h =>
    cases s with
    | nil => simp [names_nil]
    | cons c s => cases h
  | case2 s ext rest h hmatch =>
    rw [names_of_some h]
    exact ⟨fun _ => ⟨_, List.mem_cons_self, extensionMatches_iff.mp hmatch⟩, fun _ => rfl⟩
  | case3 s ext rest h hmatch ih =>
    rw [names_of_some h, ih]
    have hne : ¬ lower ext.name = lower name := fun heq => hmatch (extensionMatches_iff.mpr heq)
    simp [hne]

/-- Behind its first character a name has letters only. -/
theorem names_alpha {s : CString} : ∀ ext ∈ names s, ∃ c w, ext = c :: w ∧ ∀ x ∈ w, isalpha x := by
  fun_induction names s with
  | case1 s h => simp
  | case2 s ext rest h ih =>
    intro n hn
    rcases List.mem_cons.mp hn with rfl | hn
    · cases s with
      | nil => cases h
      | cons c s =>
        cases h
        refine ⟨c, nameTail c s, rfl, fun x hx => ?_⟩
        unfold nameTail at hx
        split at hx
        · exact List.mem_takeWhile_imp hx
        · cases hx
    · exact ih n hn

theorem parseVersion_of_not_digit {s : CString} (h : ∀ c ∈ s.head?, isDigit c = false) :
    parseVersion s = (0, 0, s) := by
  have hnumber : parseNumber s = (false, 0, s) := by
    cases s with
    | nil => rfl
    | cons c s =>
      have hc := h c rfl
      unfold parseNumber parseNumberFrom
      rw [hc]
      rfl
  unfold parseVersion
  rw [hnumber]

theorem names_cons {c : UInt8} {w s : CString} (htail : nameTail c (w ++ s) = w)
    (hs : ∀ c ∈ s.head?, isDigit c = false) :
    names (c :: (w ++ s)) = (c :: w) :: names (s.dropWhile (· = underscore)) := by
  have hparse : parseExtension (c :: (w ++ s)) =
      some (⟨c :: w, 0, 0⟩, s.dropWhile (· = underscore)) := by
    unfold parseExtension
    dsimp only
    rw [htail, List.drop_left, parseVersion_of_not_digit hs]
    rfl
  rw [names_of_some hparse]

theorem multiString_head (multis : List CString) : ∀ c ∈ (multiString multis).head?, c = underscore := by
  intro c hc
  cases multis with
  | nil => cases hc
  | cons multi multis =>
    cases hc
    rfl

theorem multiString_not_digit (multis : List CString) :
    ∀ c ∈ (multiString multis).head?, isDigit c = false := by
  intro c hc
  rw [multiString_head multis c hc]
  rfl

theorem nameTail_of_alpha {c : UInt8} {w : CString} (hc : isPrefix c) (hw : ∀ x ∈ w, isalpha x)
    (multis : List CString) : nameTail c (w ++ multiString multis) = w := by
  unfold nameTail
  rw [if_pos hc, List.takeWhile_append_of_pos hw]
  have hnil : (multiString multis).takeWhile isalpha = [] := by
    cases h : multiString multis with
    | nil => rfl
    | cons d s =>
      have hd := multiString_head multis d (by rw [h]; rfl)
      rw [List.takeWhile_cons, if_neg (by rw [hd]; decide)]
  rw [hnil, List.append_nil]

theorem names_multis {multis : List CString} (hform : ∀ multi ∈ multis, IsMulti multi)
    (halpha : ∀ multi ∈ multis, ∀ c ∈ multi, isalpha c) :
    names ((multiString multis).dropWhile (· = underscore)) = multis := by
  induction multis with
  | nil => exact names_nil
  | cons multi multis ih =>
    obtain ⟨c, w, d, hmulti, hc, -, -⟩ := hform multi List.mem_cons_self
    have hletters := halpha multi List.mem_cons_self
    have hcne : ¬ c = underscore := (not_isDigit_of_isalpha c (isalpha_of_isPrefix c hc)).2
    have hdrop : (multiString (multi :: multis)).dropWhile (· = underscore) =
        c :: ((w ++ [d]) ++ multiString multis) := by
      rw [hmulti]
      show List.dropWhile _ (underscore :: c :: ((w ++ [d]) ++ multiString multis)) = _
      rw [List.dropWhile_cons_of_pos (by simp), List.dropWhile_cons_of_neg (by simpa using hcne)]
    have hw : ∀ x ∈ w ++ [d], isalpha x := by
      intro x hx
      exact hletters x (by rw [hmulti]; exact List.mem_cons_of_mem c hx)
    rw [hdrop, names_cons (nameTail_of_alpha hc hw multis) (multiString_not_digit multis),
      ih (fun m hm => hform m (List.mem_cons_of_mem _ hm)) (fun m hm => halpha m (List.mem_cons_of_mem _ hm)),
      hmulti]

/-- The single letters as the walk names them: a letter that begins a longer name takes the rest. -/
def singleNames : List UInt8 → List CString
  | [] => []
  | c :: singles => if isPrefix c then [c :: singles] else [c] :: singleNames singles

theorem names_singles {singles : List UInt8} {multis : List CString}
    (hsingles : ∀ c ∈ singles, isalpha c) (hform : ∀ multi ∈ multis, IsMulti multi)
    (halpha : ∀ multi ∈ multis, ∀ c ∈ multi, isalpha c) :
    names ((singles ++ multiString multis).dropWhile (· = underscore)) =
      singleNames singles ++ multis := by
  induction singles with
  | nil => exact names_multis hform halpha
  | cons c singles ih =>
    have hrest := fun x hx => hsingles x (List.mem_cons_of_mem c hx)
    have hcne : ¬ c = underscore := (not_isDigit_of_isalpha c (hsingles c List.mem_cons_self)).2
    rw [List.cons_append, List.dropWhile_cons_of_neg (by simpa using hcne), singleNames]
    by_cases hc : isPrefix c
    · rw [if_pos hc, names_cons (nameTail_of_alpha hc hrest multis) (multiString_not_digit multis),
        names_multis hform halpha]
      rfl
    · have hdigit : ∀ d ∈ (singles ++ multiString multis).head?, isDigit d = false := by
        intro d hd
        cases singles with
        | nil => exact multiString_not_digit multis d hd
        | cons x singles =>
          have hd : x = d := by simpa using hd
          rw [← hd]
          exact (not_isDigit_of_isalpha x (hrest x List.mem_cons_self)).1
      have htail : nameTail c ([] ++ (singles ++ multiString multis)) = [] := if_neg hc
      rw [if_neg hc, List.cons_append, ← ih hrest]
      exact names_cons htail hdigit

/-- Only a string that begins with an underscore has a name besides. -/
theorem names_isa (isa : Isa) (halpha : ∀ multi ∈ isa.multis, ∀ c ∈ multi, isalpha c) :
    ∃ others, (∀ n ∈ others, n = [underscore]) ∧
      names (isa.singles ++ multiString isa.multis) =
        others ++ (singleNames isa.singles ++ isa.multis) := by
  have hnames := names_singles isa.singles_alpha isa.multis_form halpha
  cases hsingles : isa.singles with
  | nil =>
    rw [hsingles] at hnames
    cases hmultis : isa.multis with
    | nil => exact ⟨[], by simp, names_nil⟩
    | cons multi multis =>
      refine ⟨[[underscore]], by simp, ?_⟩
      rw [hmultis] at hnames
      obtain ⟨c, w, d, hmulti, hc, -, -⟩ := isa.multis_form multi (by rw [hmultis]; exact List.mem_cons_self)
      have hdigit : ∀ x ∈ (multi ++ multiString multis).head?, isDigit x = false := by
        intro x hx
        rw [hmulti] at hx
        cases hx
        exact (not_isDigit_of_isalpha c (isalpha_of_isPrefix c hc)).1
      have hdrop : (multiString (multi :: multis)).dropWhile (· = underscore) =
          (multi ++ multiString multis).dropWhile (· = underscore) := by
        show List.dropWhile _ (underscore :: (multi ++ multiString multis)) = _
        rw [List.dropWhile_cons_of_pos (by simp)]
      rw [List.nil_append, hdrop] at hnames
      show names (underscore :: ([] ++ (multi ++ multiString multis))) = _
      rw [names_cons (if_neg (by decide)) hdigit, hnames]
      rfl
  | cons c singles =>
    refine ⟨[], by simp, ?_⟩
    have hcne : ¬ c = underscore :=
      (not_isDigit_of_isalpha c (isa.singles_alpha c (by rw [hsingles]; exact List.mem_cons_self))).2
    rw [hsingles, List.cons_append, List.dropWhile_cons_of_neg (by simpa using hcne)] at hnames
    exact hnames

/-! ## Found and listed -/

/-- What the hart's ISA string makes the walk find. -/
def Isa.Finds (isa : Isa) (name : CString) : Prop :=
  ∃ ext ∈ names (isa.singles ++ multiString isa.multis), lower ext = lower name

theorem singleNames_eq {singles : List UInt8} (h : ∀ c ∈ singles.dropLast, ¬ isPrefix c) :
    singleNames singles = singles.map fun c => [c] := by
  induction singles with
  | nil => rfl
  | cons c singles ih =>
    cases singles with
    | nil =>
      unfold singleNames
      split
      · rfl
      · rfl
    | cons d singles =>
      rw [List.dropLast_cons_cons] at h
      have hc := h c List.mem_cons_self
      rw [singleNames, if_neg hc, ih fun x hx => h x (List.mem_cons_of_mem c hx)]
      rfl

theorem not_isPrefix_of_mem {singles : List UInt8} {c : UInt8} (hc : c ∈ singles.dropLast)
    (hlong : isPrefix c) : ∀ d, [d] ∈ singleNames singles → ¬ isPrefix d := by
  induction singles with
  | nil => cases hc
  | cons x singles ih =>
    intro d hd
    cases singles with
    | nil => cases hc
    | cons y singles =>
      rw [List.dropLast_cons_cons] at hc
      unfold singleNames at hd
      by_cases hx : isPrefix x
      · rw [if_pos hx] at hd
        simp at hd
      · rw [if_neg hx] at hd
        rcases List.mem_cons.mp hd with hd | hd
        · cases hd
          exact hx
        · rcases List.mem_cons.mp hc with rfl | hc
          · exact absurd hlong hx
          · exact ih hc d hd

theorem not_lower_underscore {name : CString} (hname : IsName name) :
    ¬ lower [underscore] = lower name := by
  intro h
  cases name with
  | nil => cases h
  | cons c name =>
    have htolower : ∀ c : UInt8, tolower underscore = tolower c → ¬ (isalpha c ∨ isDigit c) := by
      apply forall_byte
      decide +kernel
    exact htolower c (List.cons.inj h).1 (hname c List.mem_cons_self)

/-- Where the string is readable, the walk finds what is listed. -/
theorem Isa.finds_iff {isa : Isa} (h : isa.Readable) {name : CString} (hname : IsName name) :
    isa.Finds name ↔ isa.Lists name := by
  obtain ⟨others, hothers, hnames⟩ := names_isa isa h.multis
  unfold Isa.Finds Isa.Lists
  rw [hnames, singleNames_eq h.singles]
  constructor
  · rintro ⟨ext, hext, heq⟩
    rcases List.mem_append.mp hext with hext | hext
    · rw [hothers ext hext] at heq
      exact absurd heq (not_lower_underscore hname)
    rcases List.mem_append.mp hext with hext | hext
    · obtain ⟨c, hc, rfl⟩ := List.mem_map.mp hext
      exact Or.inl ⟨c, hc, heq⟩
    · exact Or.inr ⟨ext, hext, heq⟩
  · rintro (⟨c, hc, heq⟩ | ⟨multi, hmulti, heq⟩)
    · exact ⟨[c], by simp [hc], heq⟩
    · exact ⟨multi, by simp [hmulti], heq⟩

/-- A name with a digit is not found, though it is listed. -/
theorem Isa.not_finds_of_digit {isa : Isa} {multi : CString} (hmulti : multi ∈ isa.multis)
    (hdigit : ¬ ∀ c ∈ multi, isalpha c) : ¬ isa.Finds multi := by
  rintro ⟨ext, hext, heq⟩
  obtain ⟨c, w, rfl, hw⟩ := names_alpha ext hext
  obtain ⟨p, v, d, rfl, hp, -, -⟩ := isa.multis_form multi hmulti
  have hc : isalpha c := by
    have hpc : tolower c = tolower p := (List.cons.inj heq).1
    rw [← isalpha_tolower, hpc, isalpha_tolower]
    exact isalpha_of_isPrefix p hp
  apply hdigit
  apply lower_alpha heq
  intro x hx
  rcases List.mem_cons.mp hx with rfl | hx
  · exact hc
  · exact hw x hx

/-- A letter that swallows what follows it is not found, though it is listed. -/
theorem Isa.not_finds_of_prefix {isa : Isa} {c : UInt8} (hc : c ∈ isa.singles.dropLast)
    (hlong : isPrefix c) (halpha : ∀ multi ∈ isa.multis, ∀ c ∈ multi, isalpha c) :
    ¬ isa.Finds [c] := by
  rintro ⟨ext, hext, heq⟩
  obtain ⟨others, hothers, hnames⟩ := names_isa isa halpha
  obtain ⟨d, rfl⟩ : ∃ d, ext = [d] := by
    apply List.length_eq_one_iff.mp
    have := congrArg List.length heq
    simpa [lower] using this
  have hd : isPrefix d := by
    have htolower : tolower d = tolower c := (List.cons.inj heq).1
    rw [← isPrefix_tolower, htolower, isPrefix_tolower]
    exact hlong
  rw [hnames] at hext
  rcases List.mem_append.mp hext with hext | hext
  · cases hothers _ hext
    exact absurd hd (by decide)
  rcases List.mem_append.mp hext with hext | hext
  · exact not_isPrefix_of_mem hc hlong d hext hd
  · obtain ⟨p, v, e, hform, -, -, -⟩ := isa.multis_form _ hext
    have := congrArg List.length hform
    simp at this

theorem check_isSome {hartList : List Hart} {hartid : Nat} {hart : Hart} {isa : Isa}
    (hfind : riscvFindHart hartList hartid = some hart) (hisa : hart.isaString = isa.string)
    (name : CString) : (riscvCheckIsaExtensionFor hartList hartid name).isSome ↔ isa.Finds name := by
  have hdrop : isa.string.drop 4 = isa.singles ++ multiString isa.multis := by
    unfold Isa.string
    rcases isa.base_eq with h | h
    · rw [h]
      rfl
    · rw [h]
      rfl
  unfold riscvCheckIsaExtensionFor
  rw [hfind]
  dsimp only
  rw [hisa, hdrop, checkFrom_isSome]
  rfl

/-- The walk finds exactly the listed extensions just where the string is readable. -/
theorem riscvCheckIsaExtensionFor_listed_iff (hartList : List Hart) (hartid : Nat) (hart : Hart)
    (isa : Isa) (hfind : riscvFindHart hartList hartid = some hart)
    (hisa : hart.isaString = isa.string) :
    (∀ name, IsName name →
      ((riscvCheckIsaExtensionFor hartList hartid name).isSome ↔ isa.Lists name)) ↔ isa.Readable := by
  simp only [check_isSome hfind hisa]
  constructor
  · intro h
    have halpha : ∀ multi ∈ isa.multis, ∀ c ∈ multi, isalpha c := by
      intro multi hmulti
      by_contra hdigit
      have hname : IsName multi := by
        obtain ⟨p, v, d, rfl, hp, hv, hd⟩ := isa.multis_form multi hmulti
        intro c hc
        rcases List.mem_cons.mp hc with rfl | hc
        · exact Or.inl (isalpha_of_isPrefix c hp)
        · rcases List.mem_append.mp hc with hc | hc
          · exact hv c hc
          · rw [List.mem_singleton.mp hc]
            exact Or.inl hd
      exact Isa.not_finds_of_digit hmulti hdigit ((h multi hname).mpr (Or.inr ⟨multi, hmulti, rfl⟩))
    refine ⟨halpha, fun c hc hlong => ?_⟩
    have hmem := (List.dropLast_sublist isa.singles).mem hc
    have hname : IsName [c] := by
      intro d hd
      rw [List.mem_singleton.mp hd]
      exact Or.inl (isalpha_of_isPrefix c hlong)
    exact Isa.not_finds_of_prefix hc hlong halpha ((h [c] hname).mpr (Or.inl ⟨c, hmem, rfl⟩))
  · intro h name hname
    exact Isa.finds_iff h hname

/-- `rv64imafdc_zicbom` -/
def zicbom : Isa where
  base := [114, 118, 54, 52]
  singles := [105, 109, 97, 102, 100, 99]
  multis := [[122, 105, 99, 98, 111, 109]]
  base_eq := Or.inr rfl
  singles_alpha := by simp [isalpha]
  multis_form := by
    intro name hname
    rw [List.mem_singleton.mp hname]
    exact ⟨122, [105, 99, 98, 111], 109, rfl, by decide, by simp [isalpha], by decide⟩

theorem riscvCheckIsaExtensionFor_listed_iff_zicbom :
    (riscvCheckIsaExtensionFor [⟨0, zicbom.string⟩] 0 [122, 105, 99, 98, 111, 109]).isSome := by
  have hreadable : zicbom.Readable := {
    multis := by
      intro name hname
      rw [List.mem_singleton.mp hname]
      simp [isalpha]
    singles := by simp [zicbom, isPrefix] }
  have hname : IsName [122, 105, 99, 98, 111, 109] := by
    simp [IsName, isalpha]
  exact ((riscvCheckIsaExtensionFor_listed_iff [⟨0, zicbom.string⟩] 0 _ zicbom rfl rfl).mpr hreadable
    _ hname).mpr (Or.inr ⟨_, List.mem_cons_self, rfl⟩)

/-- `rv64imafdcv_zvl128b` -/
def zvl128b : Isa where
  base := [114, 118, 54, 52]
  singles := [105, 109, 97, 102, 100, 99, 118]
  multis := [[122, 118, 108, 49, 50, 56, 98]]
  base_eq := Or.inr rfl
  singles_alpha := by simp [isalpha]
  multis_form := by
    intro name hname
    rw [List.mem_singleton.mp hname]
    exact ⟨122, [118, 108, 49, 50, 56], 98, rfl, by decide, by simp [isalpha, isDigit], by decide⟩

/-- The listed extension is not found, and the `b` at its end is found as one of its own. -/
theorem riscvCheckIsaExtensionFor_zvl128b :
    zvl128b.Lists [122, 118, 108, 49, 50, 56, 98] ∧
    riscvCheckIsaExtensionFor [⟨0, zvl128b.string⟩] 0 [122, 118, 108, 49, 50, 56, 98] = none ∧
    ¬ zvl128b.Lists [98] ∧
    riscvCheckIsaExtensionFor [⟨0, zvl128b.string⟩] 0 [98] = some (0, 0) := by
  refine ⟨Or.inr ⟨_, List.mem_cons_self, rfl⟩, ?_, ?_, ?_⟩
  · show checkFrom _ [105, 109, 97, 102, 100, 99, 118, 95, 122, 118, 108, 49, 50, 56, 98] = none
    iterate 9 rw [checkFrom_of_some rfl, if_neg (by decide)]
    rw [checkFrom]
    rfl
  · simp [Isa.Lists, zvl128b, lower, tolower]
  · show checkFrom _ [105, 109, 97, 102, 100, 99, 118, 95, 122, 118, 108, 49, 50, 56, 98] = some (0, 0)
    iterate 8 rw [checkFrom_of_some rfl, if_neg (by decide)]
    rw [checkFrom_of_some rfl]
    rfl

end Limine.Riscv
