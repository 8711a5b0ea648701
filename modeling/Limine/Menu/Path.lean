import Limine.Machine
import Limine.Lib.Decimal
import Limine.Menu.Entry

/-!
# Entry paths

`get_entry_path` writes down where an entry is, and `find_entry_by_path` finds the entry a path
names.  A path is escaped names separated by `/`; `#` and a number tell apart siblings of one name.
-/

namespace Limine.Menu

open Limine.Lib

def slash : UInt8 := 47
def backslash : UInt8 := 92
def hash : UInt8 := 35

def isSpecial (c : UInt8) : Bool := c = backslash || c = slash || c = hash

/-- The loop of `escape_name` with `j` bytes written. -/
def escapeFrom (bufSize : Nat) : CString → Nat → CString
  | [], _ => []
  | c :: name, j =>
    if isSpecial c then
      if j + 2 < bufSize then backslash :: c :: escapeFrom bufSize name (j + 2) else []
    else if j + 1 < bufSize then c :: escapeFrom bufSize name (j + 1)
    else []

/-- `escape_name`. -/
def escapeName (name : CString) (bufSize : Nat) : CString :=
  if bufSize = 0 then [] else escapeFrom bufSize name 0

/-- `digit_to_int`; `none` is -1. -/
def digitToInt (c : UInt8) : Option Nat :=
  if 97 ≤ c && c ≤ 102 then some (c.toNat - 97 + 10)
  else if 65 ≤ c && c ≤ 70 then some (c.toNat - 65 + 10)
  else if isDigit c then some (c.toNat - 48)
  else none

/-- The loop of `strtoui` with the value `n` read. -/
def strtouiFrom (base : Nat) : CString → Nat → Nat
  | [], n => n
  | c :: s, n =>
    match digitToInt c with
    | none => n
    | some d =>
      if base ≤ d then n
      else if 2 ^ 64 ≤ n * base then 2 ^ 64 - 1
      else if 2 ^ 64 ≤ n * base + d then 2 ^ 64 - 1
      else strtouiFrom base s (n * base + d)

/-- `strtoui`. -/
def strtoui (s : CString) (base : Nat) : Nat := strtouiFrom base s 0

/-- What follows a `#` makes it a suffix: digits up to the end of the component. -/
def isDupSuffix (q : CString) : Bool :=
  (q.head?.map isDigit).getD false &&
    ((q.dropWhile isDigit).isEmpty || (q.dropWhile isDigit).head? = some slash)

/-- The first pass of `parse_path_component`: its `len`. -/
def componentLength : CString → Nat
  | [] => 0
  | [c] => if c = slash then 0 else 1
  | c :: x :: s =>
    if c = slash then 0
    else if c = backslash then componentLength s + 1
    else if c = hash && isDupSuffix (x :: s) then 0
    else componentLength (x :: s) + 1

/-- The second pass: the bytes written, `*dup_index` and where `p` stops. -/
def componentFill : CString → CString × Nat × CString
  | [] => ([], 0, [])
  | [c] => if c = slash then ([], 0, [c]) else ([c], 0, [])
  | c :: x :: s =>
    if c = slash then ([], 0, c :: x :: s)
    else if c = backslash then
      let r := componentFill s
      (x :: r.1, r.2)
    else if c = hash && isDupSuffix (x :: s) then
      ([], strtoui (x :: s) 10, (x :: s).dropWhile isDigit)
    else
      let r := componentFill (x :: s)
      (c :: r.1, r.2)

/-- What `parse_path_component` returns, with the size of the buffer it allocates for the name. -/
structure PathComponent where
  allocated : Nat
  name : CString
  dupIndex : Nat
  rest : CString
deriving DecidableEq, Repr

/-- `parse_path_component`. -/
def parsePathComponent (path : CString) : PathComponent :=
  let r := componentFill path
  { allocated := componentLength path + 1
    name := r.1
    dupIndex := r.2.1
    rest := if r.2.2.head? = some slash then r.2.2.tail else r.2.2 }

section
variable (skip : MenuEntry → Bool → Bool)

/-- `get_sibling_dup_index` of sibling number `i` from `first` on. -/
def siblingDupIndex (first : MenuTree) (i : Nat) : Nat :=
  match first.drop i with
  | .null => 0
  | .node e _ _ _ => duplicates skip e.name first i

/-- `get_entry_path`; the length of what is written is its `*pos`. -/
def getEntryPath (tree : MenuTree) (bufSize : Nat) : Ref → CString
  | [] => []
  | i :: parent =>
    match (tree.siblings parent).drop i with
    | .null => []
    | .node e _ _ _ =>
      if bufSize = 0 then []
      else
        let buf :=
          if parent.isEmpty then []
          else
            let buf := getEntryPath tree bufSize parent
            if buf.length < bufSize - 1 then buf ++ [slash] else buf
        let buf := buf ++ escapeName e.name (bufSize - buf.length)
        let dupIndex := siblingDupIndex skip (tree.siblings parent) i
        if 0 < dupIndex && buf.length < bufSize - 1 then
          let buf := buf ++ [hash]
          buf ++ (decimal dupIndex).take (bufSize - 1 - buf.length)
        else buf

/-- The loop of `find_entry_by_path`: at sibling number `n` under `parent`, whose row is `idx`,
with `same` siblings of the name behind.  The tree is returned as its directories are left. -/
def findLoop (expandDirs : Bool) : MenuTree → PathComponent → Ref → Nat → Nat → Nat →
    MenuTree × Option (Ref × Nat)
  | .null, _, _, _, _, _ => (.null, none)
  | .node e expanded sub next, comp, parent, n, idx, same =>
    if skip e sub.isNode then
      let r := findLoop expandDirs next comp parent (n + 1) idx same
      (.node e expanded sub r.1, r.2)
    else
      let nameMatches := e.name = comp.name
      if nameMatches ∧ same = comp.dupIndex ∧ comp.rest = [] then
        (.node e expanded sub next, some (n :: parent, idx))
      else if nameMatches ∧ same = comp.dupIndex ∧ sub.isNode then
        let r := findLoop expandDirs sub (parsePathComponent comp.rest) (n :: parent) 0 (idx + 1) 0
        (.node e (expanded || expandDirs) r.1 next, r.2)
      else
        let same := if nameMatches then same + 1 else same
        let idx := idx + 1 + (if sub.isNode && expanded then menuModelCount skip sub else 0)
        let r := findLoop expandDirs next comp parent (n + 1) idx same
        (.node e expanded sub r.1, r.2)

/-- `find_entry_by_path` from the first entry under `parent` on. -/
def findEntryByPath (path : CString) (current : MenuTree) (baseIndex : Nat) (parent : Ref)
    (expandDirs : Bool) : MenuTree × Option (Ref × Nat) :=
  findLoop skip expandDirs current (parsePathComponent path) parent 0 baseIndex 0

end

/-- `MENU_PATH_MAX`. -/
def menuPathMax : Nat := 1024

/-! ## The two passes -/

/-- **The passes agree**: the name with its NUL is as long as the buffer allocated for it. -/
theorem parsePathComponent_fits (path : CString) :
    (parsePathComponent path).name.length + 1 = (parsePathComponent path).allocated := by
  show (componentFill path).1.length + 1 = componentLength path + 1
  congr 1
  fun_induction componentFill path <;> grind [componentLength]

/-! ## Writing a path -/

/-- A name with its special bytes escaped. -/
def escaped : CString → CString
  | [] => []
  | c :: name => if isSpecial c then backslash :: c :: escaped name else c :: escaped name

/-- The `#` suffix. -/
def dupSuffix (dupIndex : Nat) : CString := if 0 < dupIndex then hash :: decimal dupIndex else []

/-- What may be written for a number among siblings of one name: nothing for 0, or `#` and digits,
with zeros in front or not. -/
def SpellsDup (dupIndex : Nat) (suffix : CString) : Prop :=
  suffix = [] ∧ dupIndex = 0 ∨
    ∃ ds, suffix = hash :: ds ∧ ds ≠ [] ∧ (∀ b ∈ ds, isDigit b = true) ∧ decimalFrom ds 0 = dupIndex

/-- A path with these names and numbers, from the top level down. -/
def Spells : List (CString × Nat) → CString → Prop
  | [], path => path = []
  | (name, dupIndex) :: comps, path => ∃ suffix rest, SpellsDup dupIndex suffix ∧ Spells comps rest ∧
      path = escaped name ++ suffix ++ if comps.isEmpty then [] else slash :: rest

section
variable (skip : MenuEntry → Bool → Bool)

/-- The component of a path for sibling number `i` from `first` on. -/
def pathComponent (first : MenuTree) (i : Nat) : CString :=
  match first.drop i with
  | .null => []
  | .node e _ _ _ => escaped e.name ++ dupSuffix (siblingDupIndex skip first i)

/-- The whole path of an entry. -/
def entryPath (tree : MenuTree) : Ref → CString
  | [] => []
  | i :: parent =>
    (if parent.isEmpty then [] else entryPath tree parent ++ [slash]) ++
      pathComponent skip (tree.siblings parent) i

/-- The same read from the top level down. -/
def pathFrom (first : MenuTree) : List Nat → CString
  | [] => []
  | i :: is =>
    pathComponent skip first i ++
      if is.isEmpty then [] else slash :: pathFrom (first.drop i).subOf is

/-- The name and the number of each entry on the way down from `first` on. -/
def components (first : MenuTree) : List Nat → List (CString × Nat)
  | [] => []
  | i :: is =>
    match first.drop i with
    | .null => []
    | .node e _ sub _ => (e.name, duplicates skip e.name first i) :: components sub is

/-- From `first` on down, every entry is there and none is skipped. -/
def Chain (first : MenuTree) : List Nat → Prop
  | [] => True
  | i :: is => (∃ e x sub next, first.drop i = .node e x sub next ∧ skip e sub.isNode = false) ∧
      Chain (first.drop i).subOf is

/-- From `first` on down, every directory on the way is expanded. -/
def Opened (first : MenuTree) : List Nat → Prop
  | [] => True
  | i :: is => (is = [] ∨ (first.drop i).isExpanded = true) ∧ Opened (first.drop i).subOf is

/-- The entry at `ref` is there; neither it nor an entry it is under is skipped. -/
def Unskipped (tree : MenuTree) : Ref → Prop
  | [] => True
  | i :: parent => (∃ e x sub next, tree.entry (i :: parent) = .node e x sub next ∧
      skip e sub.isNode = false) ∧ Unskipped tree parent

end

section
variable {skip : MenuEntry → Bool → Bool}

theorem escapeFrom_eq (bufSize : Nat) (name : CString) : ∀ j,
    j + (escaped name).length < bufSize → escapeFrom bufSize name j = escaped name := by
  induction name with
  | nil => intros; rfl
  | cons c name ih =>
    intro j h
    rw [escaped] at h
    rw [escapeFrom, escaped]
    by_cases hc : isSpecial c = true
    · simp only [hc, if_true, List.length_cons] at h ⊢
      rw [if_pos (by omega), ih (j + 2) (by omega)]
    · simp only [hc, Bool.false_eq_true, if_false, List.length_cons] at h ⊢
      rw [if_pos (by omega), ih (j + 1) (by omega)]

theorem escapeName_eq {name : CString} {bufSize : Nat} (h : (escaped name).length < bufSize) :
    escapeName name bufSize = escaped name := by
  rw [escapeName, if_neg (by omega), escapeFrom_eq bufSize name 0 (by omega)]

/-- **A path that fits is written whole.** -/
theorem getEntryPath_eq (tree : MenuTree) (bufSize : Nat) : ∀ ref : Ref, Unskipped skip tree ref →
    (entryPath skip tree ref).length < bufSize →
    getEntryPath skip tree bufSize ref = entryPath skip tree ref := by
  intro ref
  induction ref with
  | nil => intros; rfl
  | cons i parent ih =>
    intro hu hlen
    obtain ⟨⟨e, x, sub, next, he, -⟩, hp⟩ := hu
    have he' : (tree.siblings parent).drop i = .node e x sub next := he
    rw [entryPath, pathComponent, he'] at hlen
    rw [getEntryPath, entryPath, pathComponent, he']
    simp only [List.length_append] at hlen
    simp only [if_neg (by omega : bufSize ≠ 0)]
    set above := if parent.isEmpty then [] else entryPath skip tree parent ++ [slash] with habove
    set d := siblingDupIndex skip (tree.siblings parent) i with hd
    have hbuf : (if parent.isEmpty then []
        else if (getEntryPath skip tree bufSize parent).length < bufSize - 1 then
          getEntryPath skip tree bufSize parent ++ [slash]
        else getEntryPath skip tree bufSize parent) = above := by
      rw [habove]
      split
      · rfl
      · next hne =>
        rw [if_neg hne] at habove
        have hl : above.length = (entryPath skip tree parent).length + 1 := by
          simp [habove]
        rw [ih hp (by omega), if_pos (by omega)]
    rw [hbuf, escapeName_eq (by omega)]
    by_cases hpos : 0 < d
    · have hs : (dupSuffix d).length = (decimal d).length + 1 := by simp [dupSuffix, hpos]
      have hdec := decimal_ne_nil d
      have hdl : 0 < (decimal d).length := List.length_pos_of_ne_nil hdec
      have hroom : (above ++ escaped e.name).length < bufSize - 1 := by
        simp only [List.length_append]
        omega
      simp only [hpos, hroom, decide_true, Bool.and_self, if_true]
      rw [List.take_of_length_le]
      · simp [dupSuffix, hpos]
      · simp only [List.length_append, List.length_cons, List.length_nil]
        omega
    · simp [dupSuffix, hpos]

theorem entryPath_append (tree : MenuTree) (i : Nat) (ref : Ref) (h : ref ≠ []) :
    entryPath skip tree (ref ++ [i]) =
      pathComponent skip tree i ++ slash :: entryPath skip (tree.drop i).subOf ref := by
  induction ref with
  | nil => exact absurd rfl h
  | cons j ref ih =>
    show (if (ref ++ [i]).isEmpty then [] else entryPath skip tree (ref ++ [i]) ++ [slash]) ++
      pathComponent skip (tree.siblings (ref ++ [i])) j = _
    rw [MenuTree.siblings_append, entryPath]
    cases ref with
    | nil => simp [entryPath, MenuTree.siblings]
    | cons k ref =>
      have hk := ih (List.cons_ne_nil k ref)
      rw [List.cons_append] at hk
      simp [hk]

variable (skip) in
theorem entryPath_reverse (is : List Nat) : ∀ first : MenuTree,
    entryPath skip first is.reverse = pathFrom skip first is := by
  induction is with
  | nil => intro first; rfl
  | cons i is ih =>
    intro first
    rw [List.reverse_cons, pathFrom]
    cases is with
    | nil => simp [entryPath, MenuTree.siblings]
    | cons j is =>
      rw [entryPath_append first i _ (by simp), ih]
      rfl

theorem unskipped_append (tree : MenuTree) (i : Nat) (ref : Ref)
    (h : Unskipped skip tree (ref ++ [i])) :
    Unskipped skip (tree.drop i).subOf ref ∧ Unskipped skip tree [i] := by
  induction ref with
  | nil => exact ⟨trivial, h⟩
  | cons j ref ih =>
    obtain ⟨⟨e, x, sub, next, he, hs⟩, hp⟩ := h
    obtain ⟨h1, h2⟩ := ih hp
    refine ⟨⟨⟨e, x, sub, next, ?_, hs⟩, h1⟩, h2⟩
    rw [← he]
    show _ = (tree.siblings (ref ++ [i])).drop j
    rw [MenuTree.siblings_append]
    rfl

theorem Chain.of_unskipped (is : List Nat) : ∀ first : MenuTree,
    Unskipped skip first is.reverse → Chain skip first is := by
  induction is with
  | nil => intros; trivial
  | cons i is ih =>
    intro first h
    rw [List.reverse_cons] at h
    obtain ⟨h1, h2⟩ := unskipped_append first i _ h
    exact ⟨h2.1, ih _ h1⟩

/-! ## Reading a component back -/

/-- What may follow a component: the end of the path or a separator. -/
def Ends (tail : CString) : Prop := tail = [] ∨ tail.head? = some slash

theorem digitToInt_of_isDigit {b : UInt8} (h : isDigit b = true) :
    digitToInt b = some (b.toNat - 48) := by
  have hb := isDigit_iff.mp h
  rw [digitToInt]
  simp only [UInt8.le_iff_toNat_le, Bool.and_eq_true, decide_eq_true_eq, h, if_true]
  have h1 : ¬((97 : UInt8).toNat ≤ b.toNat ∧ b.toNat ≤ (102 : UInt8).toNat) := by
    simp only [UInt8.reduceToNat]
    omega
  have h2 : ¬((65 : UInt8).toNat ≤ b.toNat ∧ b.toNat ≤ (70 : UInt8).toNat) := by
    simp only [UInt8.reduceToNat]
    omega
  rw [if_neg h1, if_neg h2]

theorem strtouiFrom_digits (ds tail : CString) (hd : ∀ b ∈ ds, isDigit b = true) (ht : Ends tail) :
    ∀ n, decimalFrom ds n < 2 ^ 64 → strtouiFrom 10 (ds ++ tail) n = decimalFrom ds n := by
  induction ds with
  | nil =>
    intro n _
    rcases ht with rfl | ht
    · rfl
    · obtain ⟨tail, rfl⟩ : ∃ s, tail = slash :: s := by
        cases tail with
        | nil => simp at ht
        | cons c s => exact ⟨s, by simpa using ht⟩
      rfl
  | cons b ds ih =>
    intro n hn
    have hb := hd b (by simp)
    have h10 := isDigit_iff.mp hb
    have hle := le_decimalFrom ds (addDigit n b)
    rw [decimalFrom] at hn ⊢
    have hrec := ih (fun c hc => hd c (by simp [hc])) _ hn
    rw [addDigit] at hle hn hrec
    rw [List.cons_append, strtouiFrom, digitToInt_of_isDigit hb]
    have h1 : ¬10 ≤ b.toNat - 48 := by omega
    have h2 : ¬2 ^ 64 ≤ n * 10 := by omega
    have h3 : ¬2 ^ 64 ≤ n * 10 + (b.toNat - 48) := by omega
    dsimp only
    rw [if_neg h1, if_neg h2, if_neg h3, addDigit, hrec]

theorem dropWhile_digits {ds tail : CString} (hd : ∀ b ∈ ds, isDigit b = true) (ht : Ends tail) :
    (ds ++ tail).dropWhile isDigit = tail := by
  rw [List.dropWhile_append_of_pos hd]
  rcases ht with rfl | ht
  · rfl
  · cases tail with
    | nil => rfl
    | cons c s =>
      obtain rfl : c = slash := by simpa using ht
      rfl

theorem componentFill_tail {tail : CString} (ht : Ends tail) :
    componentFill tail = ([], 0, tail) := by
  match tail, ht with
  | [], _ => rfl
  | [c], ht =>
    obtain rfl : c = slash := by simpa [Ends] using ht
    rfl
  | c :: x :: s, ht =>
    obtain rfl : c = slash := by simpa [Ends] using ht
    rfl

/-- The suffix alone. -/
theorem componentFill_digits {ds : CString} (hne : ds ≠ []) (hdig : ∀ b ∈ ds, isDigit b = true)
    (hd : decimalFrom ds 0 < 2 ^ 64) {tail : CString} (ht : Ends tail) :
    componentFill (hash :: ds ++ tail) = ([], decimalFrom ds 0, tail) := by
  have hdrop := dropWhile_digits hdig ht
  have hval : strtoui (ds ++ tail) 10 = decimalFrom ds 0 := by
    rw [strtoui, strtouiFrom_digits ds tail hdig ht 0 hd]
  obtain ⟨x, ds, rfl⟩ := List.exists_cons_of_ne_nil hne
  have hsuffix : isDupSuffix (x :: (ds ++ tail)) = true := by
    rw [isDupSuffix, ← List.cons_append, hdrop]
    rcases ht with rfl | ht
    · simp [hdig x (by simp)]
    · simp [hdig x (by simp), ht]
  rw [List.cons_append] at hdrop hval
  show componentFill (hash :: x :: (ds ++ tail)) = _
  rw [componentFill, if_neg (by decide), if_neg (by decide)]
  simp only [hsuffix, hval, hdrop, decide_true, Bool.and_self, if_true]

theorem componentFill_suffix {d : Nat} (hd : d < 2 ^ 64) {suffix : CString}
    (hs : SpellsDup d suffix) {tail : CString} (ht : Ends tail) :
    componentFill (suffix ++ tail) = ([], d, tail) := by
  rcases hs with ⟨rfl, rfl⟩ | ⟨ds, rfl, hne, hdig, rfl⟩
  · exact componentFill_tail ht
  · exact componentFill_digits hne hdig hd ht

/-- **What a component that was written reads back as.** -/
theorem componentFill_eq (name : CString) {d : Nat} (hd : d < 2 ^ 64) {suffix : CString}
    (hs : SpellsDup d suffix) (tail : CString) (ht : Ends tail) :
    componentFill (escaped name ++ suffix ++ tail) = (name, d, tail) := by
  induction name with
  | nil => exact componentFill_suffix hd hs ht
  | cons c name ih =>
    rw [escaped]
    split
    · show componentFill (backslash :: c :: (escaped name ++ suffix ++ tail)) = _
      rw [componentFill, if_neg (by decide), if_pos rfl, ih]
    · next hc =>
      show componentFill (c :: (escaped name ++ suffix ++ tail)) = _
      have hne : c ≠ backslash ∧ c ≠ slash ∧ c ≠ hash := by
        simpa [isSpecial, not_or, and_assoc] using hc
      cases hrest : escaped name ++ suffix ++ tail with
      | nil =>
        rw [hrest] at ih
        obtain ⟨rfl, rfl, rfl⟩ : name = [] ∧ d = 0 ∧ tail = [] := by
          simpa [componentFill, eq_comm] using ih
        rw [componentFill, if_neg hne.2.1]
      | cons x s =>
        rw [hrest] at ih
        rw [componentFill, if_neg hne.2.1, if_neg hne.1, ih]
        simp [hne.2.2]

/-- **What a path says of its first component.** -/
theorem parsePathComponent_spells {name : CString} {d : Nat} {comps : List (CString × Nat)}
    {path : CString} (hd : d < 2 ^ 64) (h : Spells ((name, d) :: comps) path) :
    ∃ size rest, parsePathComponent path = ⟨size, name, d, rest⟩ ∧ Spells comps rest := by
  obtain ⟨suffix, rest, hs, hrest, rfl⟩ := h
  rw [parsePathComponent]
  cases comps with
  | nil =>
    obtain rfl : rest = [] := hrest
    have hfill := componentFill_eq name hd hs [] (Or.inl rfl)
    rw [List.isEmpty_nil, if_pos rfl, hfill]
    exact ⟨_, [], rfl, rfl⟩
  | cons c comps =>
    have hfill := componentFill_eq name hd hs (slash :: rest) (Or.inr rfl)
    rw [List.isEmpty_cons, if_neg Bool.false_ne_true, hfill]
    exact ⟨_, rest, rfl, hrest⟩

theorem escaped_ne_nil {name : CString} (h : name ≠ []) : escaped name ≠ [] := by
  obtain ⟨c, name, rfl⟩ := List.exists_cons_of_ne_nil h
  rw [escaped]
  split <;> simp

theorem Spells.ne_nil {name : CString} {d : Nat} {comps : List (CString × Nat)} {path : CString}
    (h : Spells ((name, d) :: comps) path) (hname : name ≠ []) : path ≠ [] := by
  obtain ⟨suffix, rest, -, -, rfl⟩ := h
  simp [escaped_ne_nil hname]

theorem spellsDup_dupSuffix (d : Nat) : SpellsDup d (dupSuffix d) := by
  rw [dupSuffix]
  by_cases hd : 0 < d
  · rw [if_pos hd]
    exact Or.inr ⟨_, rfl, decimal_ne_nil d, isDigit_decimal d, decimalFrom_decimal d⟩
  · rw [if_neg hd]
    exact Or.inl ⟨rfl, by omega⟩

theorem siblingDupIndex_eq {first : MenuTree} {i : Nat} {e : MenuEntry} {x : Bool}
    {sub next : MenuTree} (h : first.drop i = .node e x sub next) :
    siblingDupIndex skip first i = duplicates skip e.name first i := by
  rw [siblingDupIndex, h]

theorem components_cons {first : MenuTree} {i : Nat} {is : List Nat} {e : MenuEntry} {x : Bool}
    {sub next : MenuTree} (h : first.drop i = .node e x sub next) :
    components skip first (i :: is) =
      (e.name, duplicates skip e.name first i) :: components skip sub is := by
  rw [components, h]

/-- The path that is written for an entry spells it. -/
theorem spells_pathFrom (is : List Nat) : ∀ first : MenuTree, Chain skip first is →
    Spells (components skip first is) (pathFrom skip first is) := by
  induction is with
  | nil =>
    intros
    exact rfl
  | cons i is ih =>
    intro first h
    obtain ⟨⟨e, x, sub, next, hdrop, hs⟩, hc⟩ := h
    rw [hdrop, MenuTree.subOf_node] at hc
    rw [components_cons hdrop, pathFrom, pathComponent, hdrop, siblingDupIndex_eq hdrop]
    refine ⟨_, pathFrom skip sub is, spellsDup_dupSuffix _, ih sub hc, ?_⟩
    cases is with
    | nil => rfl
    | cons j js =>
      obtain ⟨⟨e₁, x₁, sub₁, next₁, h₁, -⟩, -⟩ := hc
      rw [components_cons h₁]
      rfl

/-! ## Finding the entry -/

variable (skip) in
theorem duplicates_le (name : CString) (t : MenuTree) : ∀ n, duplicates skip name t n ≤ t.size := by
  induction t with
  | null =>
    intro n
    cases n <;> simp [duplicates]
  | node e x sub next ihs ihn =>
    intro n
    cases n with
    | zero => simp [duplicates]
    | succ n =>
      have := ihn n
      rw [duplicates, MenuTree.size]
      split <;> omega

theorem MenuTree.Named.drop {t : MenuTree} (h : t.Named) : ∀ n, (t.drop n).Named := by
  induction t with
  | null => simp [MenuTree.Named]
  | node e x sub next ihs ihn =>
    intro n
    cases n with
    | zero => exact h
    | succ n => exact ihn h.2.2 n

section
variable {expandDirs : Bool} {e : MenuEntry} {x : Bool} {sub next : MenuTree}
  {comp : PathComponent} {parent : Ref} {n idx same : Nat}

theorem findLoop_skip (h : skip e sub.isNode = true) :
    findLoop skip expandDirs (.node e x sub next) comp parent n idx same =
      (.node e x sub (findLoop skip expandDirs next comp parent (n + 1) idx same).1,
        (findLoop skip expandDirs next comp parent (n + 1) idx same).2) := by
  rw [findLoop, if_pos h]

theorem findLoop_found (h : skip e sub.isNode = false) (hname : e.name = comp.name)
    (hsame : same = comp.dupIndex) (hrest : comp.rest = []) :
    findLoop skip expandDirs (.node e x sub next) comp parent n idx same =
      (.node e x sub next, some (n :: parent, idx)) := by
  rw [findLoop, if_neg (by simp [h]), if_pos ⟨hname, hsame, hrest⟩]

theorem findLoop_descend (h : skip e sub.isNode = false) (hname : e.name = comp.name)
    (hsame : same = comp.dupIndex) (hrest : comp.rest ≠ []) (hsub : sub.isNode = true) :
    findLoop skip expandDirs (.node e x sub next) comp parent n idx same =
      (.node e (x || expandDirs) (findEntryByPath skip comp.rest sub (idx + 1) (n :: parent)
          expandDirs).1 next,
        (findEntryByPath skip comp.rest sub (idx + 1) (n :: parent) expandDirs).2) := by
  rw [findLoop, if_neg (by simp [h]), if_neg (fun hc => hrest hc.2.2),
    if_pos ⟨hname, hsame, hsub⟩]
  rfl

theorem findLoop_pass (h : skip e sub.isNode = false)
    (hne : ¬(e.name = comp.name ∧ same = comp.dupIndex)) :
    findLoop skip expandDirs (.node e x sub next) comp parent n idx same =
      (let r := findLoop skip expandDirs next comp parent (n + 1)
        (idx + 1 + if sub.isNode && x then menuModelCount skip sub else 0)
        (if e.name = comp.name then same + 1 else same)
      (.node e x sub r.1, r.2)) := by
  rw [findLoop, if_neg (by simp [h]), if_neg (fun hc => hne ⟨hc.1, hc.2.1⟩),
    if_neg (fun hc => hne ⟨hc.1, hc.2.1⟩)]

end

/-- What the search for an entry returns: the entry, and its row in the tree as the search leaves
it, where `idx` is the row that sibling number `n` would have. -/
def Finds (skip : MenuEntry → Bool → Bool) (parent : Ref) (n idx : Nat) (target : Ref)
    (r : MenuTree × Option (Ref × Nat)) : Prop :=
  ∃ k, r.2 = some (target, idx + k) ∧ (visible skip parent r.1 n)[k]? = some target

variable (skip) in
/-- **The search along a path of an entry.**  By induction on the tree: what is left of the path
is that of an entry under the sibling `i` steps ahead.  Where the directories on the way are
expanded already, the search changes nothing. -/
theorem findLoop_spec {expandDirs : Bool} (cur : MenuTree) : ∀ (i : Nat) (is : List Nat)
    (comp : PathComponent) (parent : Ref) (n idx same : Nat) {e : MenuEntry} {x : Bool}
    {sub next : MenuTree}, cur.Named → cur.size < 2 ^ 64 →
    cur.drop i = .node e x sub next → skip e sub.isNode = false → Chain skip sub is →
    (expandDirs = true ∨ Opened cur (i :: is)) →
    comp.name = e.name → same + duplicates skip e.name cur i = comp.dupIndex →
    Spells (components skip sub is) comp.rest →
    Finds skip parent n idx (is.reverse ++ (n + i) :: parent)
        (findLoop skip expandDirs cur comp parent n idx same) ∧
      (Opened cur (i :: is) → (findLoop skip expandDirs cur comp parent n idx same).1 = cur) := by
  induction cur with
  | null =>
    intro i _ _ _ _ _ _ _ _ _ _ _ _ h
    simp at h
  | node e₀ x₀ sub₀ next₀ ihs ihn =>
    intro i is comp parent n idx same e x sub next hnamed hsize hdrop hskip hchain hopen hname hdup
      hrest
    rw [MenuTree.size] at hsize
    cases i with
    | zero =>
      obtain ⟨rfl, rfl, rfl, rfl⟩ : e₀ = e ∧ x₀ = x ∧ sub₀ = sub ∧ next₀ = next := by
        simpa using hdrop
      have hsame : same = comp.dupIndex := by
        rw [← hdup]
        rfl
      cases is with
      | nil =>
        rw [findLoop_found hskip hname.symm hsame hrest]
        refine ⟨⟨0, rfl, ?_⟩, fun _ => rfl⟩
        rw [visible_node hskip]
        rfl
      | cons j js =>
        obtain ⟨⟨e₁, x₁, sub₁, next₁, h₁, hs₁⟩, hc₁⟩ := hchain
        have hn₁ : e₁.name ≠ [] := by
          have := hnamed.2.1.drop j
          rw [h₁] at this
          exact this.1
        have hnode : sub₀.isNode = true := by
          rw [MenuTree.isNode_iff]
          rintro rfl
          simp at h₁
        have hd₁ : duplicates skip e₁.name sub₀ j < 2 ^ 64 := by
          have := duplicates_le skip e₁.name sub₀ j
          omega
        rw [h₁] at hc₁
        rw [components_cons h₁] at hrest
        have hne := hrest.ne_nil hn₁
        obtain ⟨size, rest₁, hparse, hrest₁⟩ := parsePathComponent_spells hd₁ hrest
        -- An open way leads through this entry: it is expanded and so is the rest of the way.
        have hway : Opened (.node e₀ x₀ sub₀ next₀) (0 :: j :: js) ↔
            x₀ = true ∧ Opened sub₀ (j :: js) := by
          show (_ ∨ _) ∧ _ ↔ _
          simp [MenuTree.isExpanded, Opened]
        rw [hway] at hopen
        have hx : (x₀ || expandDirs) = true := by
          rcases hopen with h | h <;> simp [h]
        obtain ⟨⟨k, hfind, hk⟩, hsame₁⟩ := ihs j js (parsePathComponent comp.rest)
          (n :: parent) 0 (idx + 1) 0 hnamed.2.1 (by omega) h₁ hs₁ hc₁ (hopen.imp_right And.right)
          (by rw [hparse]) (by rw [hparse, Nat.zero_add]) (by rw [hparse]; exact hrest₁)
        rw [findLoop_descend hskip hname.symm hsame hne hnode]
        rw [Nat.zero_add] at hfind hk
        have htarget : (j :: js).reverse ++ (n + 0) :: parent = js.reverse ++ j :: n :: parent := by
          simp
        rw [htarget, hx, hway]
        set sub' := findEntryByPath skip comp.rest sub₀ (idx + 1) (n :: parent) expandDirs
          with hsub'
        replace hk : (visible skip (n :: parent) sub'.1 0)[k]? = some _ := hk
        have hlt := (List.getElem?_eq_some_iff.mp hk).1
        have hnode' : sub'.1.isNode = true := by
          rw [MenuTree.isNode_iff]
          intro h0
          rw [h0] at hlt
          simp [visible] at hlt
        refine ⟨⟨k + 1, ?_, ?_⟩, ?_⟩
        · rw [show idx + (k + 1) = idx + 1 + k by omega]
          exact hfind
        · rw [visible_node (by rw [hnode', ← hnode]; exact hskip), hnode']
          simp only [Bool.and_self, if_true, List.cons_append, List.getElem?_cons_succ]
          rw [List.getElem?_append_left hlt]
          exact hk
        · rintro ⟨rfl, hrest⟩
          have hkeep : sub'.1 = sub₀ := hsame₁ hrest
          rw [hkeep]
    | succ i =>
      rw [MenuTree.drop_node_succ] at hdrop
      have htarget : is.reverse ++ (n + (i + 1)) :: parent =
          is.reverse ++ (n + 1 + i) :: parent := by
        rw [show n + (i + 1) = n + 1 + i by omega]
      have hway : Opened (.node e₀ x₀ sub₀ next₀) ((i + 1) :: is) ↔ Opened next₀ (i :: is) := Iff.rfl
      rw [hway] at hopen ⊢
      rw [htarget]
      by_cases hs : skip e₀ sub₀.isNode = true
      · obtain ⟨⟨k, hfind, hk⟩, hkeep⟩ := ihn i is comp parent (n + 1) idx same hnamed.2.2
          (by omega) hdrop hskip hchain hopen hname (by simpa [duplicates, hs] using hdup) hrest
        rw [findLoop_skip hs]
        refine ⟨⟨k, hfind, by rw [visible_skip hs]; exact hk⟩, ?_⟩
        intro hway
        show MenuTree.node e₀ x₀ sub₀ _ = _
        rw [hkeep hway]
      · rw [Bool.not_eq_true] at hs
        have hdup' : same + (if e₀.name = comp.name then 1 else 0) +
            duplicates skip e.name next₀ i = comp.dupIndex := by
          rw [← hdup, duplicates, hname, Nat.add_assoc]
          simp [hs]
        have hne : ¬(e₀.name = comp.name ∧ same = comp.dupIndex) := by
          rintro ⟨h1, h2⟩
          rw [if_pos h1] at hdup'
          omega
        obtain ⟨⟨k, hfind, hk⟩, hkeep⟩ := ihn i is comp parent (n + 1)
          (idx + 1 + if sub₀.isNode && x₀ then menuModelCount skip sub₀ else 0)
          (if e₀.name = comp.name then same + 1 else same) hnamed.2.2 (by omega) hdrop
          hskip hchain hopen hname (by rw [← hdup']; split <;> omega) hrest
        rw [findLoop_pass hs hne]
        refine ⟨⟨1 + (if sub₀.isNode && x₀ then menuModelCount skip sub₀ else 0) + k, ?_, ?_⟩, ?_⟩
        · rw [← Nat.add_assoc, ← Nat.add_assoc]
          exact hfind
        · have hinner : (if sub₀.isNode && x₀ then visible skip (n :: parent) sub₀ 0 else []).length =
              if sub₀.isNode && x₀ then menuModelCount skip sub₀ else 0 := by
            split
            · exact length_visible sub₀ _ _
            · rfl
          rw [visible_node hs, List.getElem?_append_right]
          · rw [List.length_cons, hinner, ← hk]
            congr 1
            omega
          · rw [List.length_cons, hinner]
            omega
        · intro hway
          show MenuTree.node e₀ x₀ sub₀ _ = _
          rw [hkeep hway]

variable (skip) in
/-- **The search for an entry of the tree**, by any path that spells it. -/
theorem findEntryByPath_spec {expandDirs : Bool} {m : LoadedTree} (hnamed : m.tree.Named)
    {path : CString} {i : Nat} {is : List Nat} (hchain : Chain skip m.tree (i :: is))
    (hopen : expandDirs = true ∨ Opened m.tree (i :: is))
    (hpath : Spells (components skip m.tree (i :: is)) path) :
    Finds skip [] 0 0 (is.reverse ++ [i]) (findEntryByPath skip path m.tree 0 [] expandDirs) ∧
      (Opened m.tree (i :: is) →
        (findEntryByPath skip path m.tree 0 [] expandDirs).1 = m.tree) := by
  have hm := m.inMemory
  obtain ⟨⟨e, x, sub, next, hdrop, hs⟩, hc⟩ := hchain
  have hd : duplicates skip e.name m.tree i < 2 ^ 64 := by
    have := duplicates_le skip e.name m.tree i
    omega
  rw [hdrop] at hc
  rw [components_cons hdrop] at hpath
  obtain ⟨size, rest, hparse, hrest⟩ := parsePathComponent_spells hd hpath
  rw [findEntryByPath, hparse]
  have h := findLoop_spec skip m.tree i is ⟨size, e.name, _, rest⟩ [] 0 0 0 hnamed (by omega) hdrop
    hs hc hopen rfl (Nat.zero_add _) hrest
  rwa [Nat.zero_add] at h

/-- **A path leads back to its entry**: the search along what `get_entry_path` writes for an entry
returns it, and its row in the menu as the search leaves the tree. -/
theorem find_getEntryPath (skip : MenuEntry → Bool → Bool) (m : LoadedTree) (ref : Ref)
    (bufSize : Nat) (hnamed : m.tree.Named) (hne : ref ≠ []) (hskip : Unskipped skip m.tree ref)
    (hfits : (entryPath skip m.tree ref).length < bufSize) :
    ∃ tree' row, findEntryByPath skip (getEntryPath skip m.tree bufSize ref) m.tree 0 [] true =
        (tree', some (ref, row)) ∧
      (menuModelUpdate skip tree').entries[row]? = some ref := by
  have hchain := Chain.of_unskipped ref.reverse m.tree (by rwa [List.reverse_reverse])
  have hpath := entryPath_reverse skip ref.reverse m.tree
  rw [List.reverse_reverse] at hpath
  rw [getEntryPath_eq m.tree bufSize ref hskip hfits, hpath]
  obtain ⟨i, is, hi⟩ := List.exists_cons_of_ne_nil (List.reverse_ne_nil_iff.mpr hne)
  have hspells := spells_pathFrom _ m.tree hchain
  rw [hi] at hchain hspells ⊢
  obtain ⟨⟨k, hfind, hk⟩, -⟩ := findEntryByPath_spec skip hnamed hchain (Or.inl rfl) hspells
  have href : is.reverse ++ [i] = ref := by
    rw [← List.reverse_cons, ← hi, List.reverse_reverse]
  rw [href] at hfind hk
  refine ⟨_, 0 + k, Prod.ext rfl hfind, ?_⟩
  rw [menuModelUpdate_entries, Nat.zero_add]
  exact hk

/-- A collapsed directory `a#1` with two entries `x/`, behind an entry of the directory's name. -/
def twins : LoadedTree where
  tree :=
    let twin : MenuEntry := ⟨[120, slash], none, []⟩
    .node ⟨[97, hash, 49], none, []⟩ false .null
      (.node ⟨[97, hash, 49], none, []⟩ false (.node twin false .null (.node twin false .null .null))
        .null)
  inMemory := by decide

/-- The second of the twins is at `a\#1#1/x\/#1`. -/
theorem find_getEntryPath_twin :
    ∃ tree' row, findEntryByPath (fun _ _ => false) (getEntryPath (fun _ _ => false) twins.tree
        menuPathMax [1, 1]) twins.tree 0 [] true = (tree', some ([1, 1], row)) ∧
      (menuModelUpdate (fun _ _ => false) tree').entries[row]? = some [1, 1] :=
  find_getEntryPath (fun _ _ => false) twins [1, 1] menuPathMax (by simp [twins, MenuTree.Named])
    (by simp) ⟨⟨_, _, _, _, rfl, rfl⟩, ⟨_, _, _, _, rfl, rfl⟩, trivial⟩ (by decide)

end

end Limine.Menu
