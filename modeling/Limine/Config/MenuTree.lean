import Limine.Config.Lookup
import Mathlib.Data.List.TakeWhile

/-!
# The menu tree of a configuration

`create_menu_tree` makes one level of the menu out of the entry lines from an index on and calls
itself for the directories; lines that are deeper than the level are passed over, as the calls for
them have been through them already.  What comes of it is the outline the text is.

    /A            depth 1, directory
    //B           depth 2, directory         preorder 1 tree = outline
    ///C          depth 3                    (createMenuTree_outline)
    /D            depth 1
-/

namespace Limine.Config
open Limine.Lib
open Limine.Menu (CString MenuEntry MenuTree)

inductive Child
  | notChild
  | direct
  | indirect
deriving DecidableEq, Repr

def isChild (text : CString) (currentDepth index : Nat) : Child :=
  match configGetEntryName text index with
  | none => .notChild
  | some buf =>
    if buf.length < currentDepth + 1 then .notChild
    else if !(buf.take currentDepth).all (· = slash) then .notChild
    else if buf[currentDepth]? = some slash then .indirect
    else .direct

def isDirectory (text : CString) (currentDepth index : Nat) : Exec Bool :=
  match isChild text (currentDepth + 1) (index + 1) with
  | .notChild => .ok false
  | .indirect => .error (.panic "config: Malformed config file. Parentless child.")
  | .direct => .ok true

def maxMenuNesting : Nat := 64

/-- `'+'` -/
def plus : UInt8 := 43

/-- `"COMMENT"` -/
def commentKey : CString := [67, 79, 77, 77, 69, 78, 84]

def defaultExpanded (currentDepth : Nat) (name : CString) : Bool := name[currentDepth]? = some plus

/-- The line from behind its slashes, an optional plus and blanks on. -/
def entryName (currentDepth : Nat) (name : CString) : CString :=
  (name.drop (currentDepth + (defaultExpanded currentDepth name).toNat)).dropWhile (· = blank)

/-- The entry of line `i`, which there is. -/
def menuEntry (text : CString) (currentDepth i : Nat) : MenuEntry × Bool :=
  let name := (configGetEntryName text i).getD []
  let (configEntry, entrySize) := (configGetEntry text i).getD ([], 0)
  let body := configEntry.take entrySize
  ({ name := entryName currentDepth name, comment := configGetValue body 0 commentKey, body := body },
    defaultExpanded currentDepth name)

def checkNesting (currentDepth : Nat) : Exec Unit :=
  if currentDepth > maxMenuNesting then .error (.panic "config: Menu nesting too deep (max %u)") else .ok ()

/-- The loop over the lines from `i` on. -/
def menuLoop (text : CString) : Nat → Nat → Nat → Exec MenuTree
  | 0, _, _ => .error .outOfFuel
  | fuel + 1, currentDepth, i =>
    match isChild text currentDepth i with
    | .notChild => .ok .null
    | .indirect => menuLoop text fuel currentDepth (i + 1)
    | .direct => do
      let directory ← isDirectory text currentDepth i
      let sub ← if directory then (do
          checkNesting (currentDepth + 1)
          menuLoop text fuel (currentDepth + 1) (i + 1))
        else .ok .null
      let next ← menuLoop text fuel currentDepth (i + 1)
      let (entry, expanded) := menuEntry text currentDepth i
      return .node entry (directory && expanded) sub next

/-- There are no more lines than bytes. -/
def createMenuTree (text : CString) (currentDepth index : Nat) : Exec MenuTree := do
  checkNesting currentDepth
  menuLoop text (text.length + 1) currentDepth index

/-! ## The outline -/

structure OutlineEntry where
  depth : Nat
  name : CString
  body : CString
  directory : Bool
deriving DecidableEq, Repr

/-- The first line of a text. -/
def lineOf (s : CString) : CString := s.takeWhile (· ≠ separator)

/-- The leading slashes. -/
def slashes (s : CString) : Nat := (s.takeWhile (· = slash)).length

/-- An entry line and the next, each with the text that follows it. -/
abbrev Item := CString × Option CString

def items : List CString → List Item
  | [] => []
  | s :: rest => (s, rest.head?) :: items rest

/-- The body goes from the end of the line to the next entry line. -/
def Item.outline (x : Item) : OutlineEntry where
  depth := slashes x.1
  name := entryName (slashes x.1) (lineOf x.1)
  body := (x.1.take (x.1.length - (x.2.getD []).length)).drop (lineOf x.1).length
  directory := x.2.map slashes = some (slashes x.1 + 1)

def outline (text : CString) : List OutlineEntry := (items (entryLines none text)).map Item.outline

/-- The entries of a tree whose top level is at `depth`, each before those under it. -/
def preorder : Nat → MenuTree → List OutlineEntry
  | _, .null => []
  | depth, .node entry _ sub next =>
    ⟨depth, entry.name, entry.body, sub.isNode⟩ :: (preorder (depth + 1) sub ++ preorder depth next)

/-- Something follows the slashes of the line. -/
def Named (s : CString) : Prop := slashes s < (lineOf s).length

/-- A line too deep below the one before it, or too deep. -/
def Broken (text : CString) : Prop :=
  (∃ x ∈ items (entryLines none text), ∃ s, x.2 = some s ∧ slashes x.1 + 1 < slashes s) ∨
    ∃ s ∈ entryLines none text, maxMenuNesting < slashes s

/-! ## Lines and slashes -/

section
variable {α : Type} {p : α → Bool}

theorem all_take_iff {l : List α} : ∀ {d : Nat}, d ≤ l.length →
    ((l.take d).all p = true ↔ d ≤ (l.takeWhile p).length) := by
  induction l with
  | nil =>
    intro d hd
    have hd : d = 0 := by simpa using hd
    simp [hd]
  | cons a l ih =>
    intro d hd
    cases d with
    | zero => simp
    | succ d =>
      rw [List.take_succ_cons, List.all_cons, List.takeWhile_cons]
      cases hp : p a with
      | true => simpa using ih (Nat.le_of_succ_le_succ hd)
      | false => simp

theorem any_getElem?_iff {l : List α} : ∀ {d : Nat}, d ≤ (l.takeWhile p).length →
    (l[d]?.any p = true ↔ d < (l.takeWhile p).length) := by
  induction l with
  | nil =>
    intro d _
    simp
  | cons a l ih =>
    intro d hd
    rw [List.takeWhile_cons] at hd ⊢
    cases hp : p a with
    | true =>
      rw [hp] at hd
      cases d with
      | zero => simp [hp]
      | succ d => simpa using ih (by simpa using hd)
    | false =>
      have hd : d = 0 := by simpa [hp] using hd
      simp [hd, hp]

end

/-- The slashes are in the line. -/
theorem slashes_lineOf (s : CString) : ((lineOf s).takeWhile (· = slash)).length = slashes s := by
  unfold lineOf slashes
  induction s with
  | nil => rfl
  | cons c s ih =>
    by_cases hc : c = slash
    · have hne : slash ≠ separator := by decide
      simpa [hc, hne] using ih
    · by_cases hsep : c = separator
      · simp [hsep, slash, separator]
      · simp [hc, hsep]

theorem isChild_eq {text : CString} (hnamed : ∀ s ∈ entryLines none text, Named s) (d i : Nat) :
    isChild text d i = match (entryLines none text)[i]? with
      | none => .notChild
      | some s => if slashes s < d then .notChild else if slashes s = d then .direct else .indirect := by
  unfold isChild configGetEntryName
  rw [seekEntry_eq]
  cases hget : (entryLines none text)[i]? with
  | none => rfl
  | some s =>
    have hs : slashes s < (lineOf s).length := hnamed s (List.mem_of_getElem? hget)
    have hlen := slashes_lineOf s
    show (if (lineOf s).length < d + 1 then _ else if !((lineOf s).take d).all _ then _
      else if (lineOf s)[d]? = some slash then _ else _) = _
    generalize lineOf s = buf at hs hlen
    by_cases hlt : slashes s < d
    · show _ = if _ then _ else _
      rw [if_pos hlt]
      split
      · rfl
      · next hbuf =>
        rw [if_pos]
        have hall : ¬d ≤ (buf.takeWhile (· = slash)).length := by omega
        rw [← all_take_iff (by omega)] at hall
        simpa using hall
    · have hall : (buf.take d).all (· = slash) = true := by
        rw [all_take_iff (by omega)]
        omega
      have hnext := any_getElem?_iff (p := (· = slash)) (l := buf) (d := d) (by omega)
      rw [hlen] at hnext
      show _ = if _ then _ else if _ then _ else _
      rw [if_neg hlt, if_neg (by omega), if_neg (by simp [hall])]
      by_cases hd : slashes s = d
      · rw [if_pos hd, if_neg]
        intro heq
        rw [heq] at hnext
        have := hnext.mp (by simp)
        omega
      · rw [if_neg hd, if_pos]
        have hany := hnext.mpr (by omega)
        cases hb : buf[d]? with
        | none =>
          rw [hb] at hany
          cases hany
        | some c =>
          rw [hb] at hany
          simpa using hany

/-! ## Bodies -/

theorem entryLines_succ {text s : CString} : ∀ {prev : Option UInt8} {i : Nat} {rest : List CString},
    (entryLines prev text).drop i = s :: rest → ∃ t, s = slash :: t ∧ rest = entryLines (some slash) t := by
  unfold entryLines
  induction text with
  | nil =>
    intro prev i rest h
    rw [lineStarts, List.filter_nil, List.drop_nil] at h
    cases h
  | cons c cs ih =>
    intro prev i rest h
    rw [lineStarts] at h
    split at h
    · rw [List.filter_cons] at h
      split at h
      · next hc =>
        cases i with
        | zero =>
          rw [List.drop_zero] at h
          obtain ⟨rfl, rfl⟩ := List.cons.inj h
          have hc : c = slash := by simpa using hc
          subst hc
          exact ⟨cs, rfl, rfl⟩
        | succ i => exact ih h
      · exact ih h
    · exact ih h

/-- What is not the body is the text from the next entry line on. -/
theorem bodyFrom_append (cs : CString) : ∀ c : UInt8,
    bodyFrom c cs ++ ((entryLines (some c) cs).head?.getD []) = cs := by
  unfold entryLines
  induction cs with
  | nil =>
    intro c
    rfl
  | cons d cs ih =>
    intro c
    rw [bodyFrom, lineStarts]
    by_cases hc : c = separator
    · rw [if_pos (by simp [hc] : some c = none ∨ some c = some separator), List.filter_cons]
      by_cases hd : d = slash
      · simp [hc, hd]
      · rw [if_neg (by simp [hd]), if_neg (by simp [hd]), List.cons_append, ih d]
    · rw [if_neg (by simp [hc] : ¬(some c = none ∨ some c = some separator)), if_neg (by simp [hc]),
        List.cons_append, ih d]

/-- No entry line starts inside a line. -/
theorem entryLines_skip {c : UInt8} (hc : c ≠ separator) (t : CString) :
    entryLines (some c) t = entryLines (some 0) (t.dropWhile (· ≠ separator)) := by
  have hsplit := List.takeWhile_append_dropWhile (p := (· ≠ separator)) (l := t)
  have hline : separator ∉ t.takeWhile (· ≠ separator) := by
    intro hmem
    have h := List.mem_takeWhile_imp hmem
    simp at h
  have hlast : lastOf (some c) (t.takeWhile (· ≠ separator)) ≠ some separator := by
    unfold lastOf
    cases hget : (t.takeWhile (· ≠ separator)).getLast? with
    | none => simpa using hc
    | some x =>
      rintro ⟨⟩
      exact hline (List.mem_of_getLast? hget)
  have hsome : lastOf (some c) (t.takeWhile (· ≠ separator)) ≠ none := by
    unfold lastOf
    simp
  unfold entryLines
  conv_lhs => rw [← hsplit, lineStarts_append, lineStarts_of_inside hc hline]
  rw [List.map_nil, List.nil_append]
  generalize lastOf (some c) (t.takeWhile (· ≠ separator)) = prev at hlast hsome
  have hzero : (0 : UInt8) ≠ separator := by decide
  cases t.dropWhile (· ≠ separator) with
  | nil => rfl
  | cons d ds =>
    rw [lineStarts, lineStarts, if_neg (by tauto), if_neg (by simp [hzero])]

theorem endOfLine_eq {t : CString} (hnamed : Named (slash :: t)) :
    endOfLine (slash :: t) = (slash :: t).dropWhile (· ≠ separator) := by
  unfold Named lineOf at hnamed
  have hne : slash ≠ separator := by decide
  cases t with
  | nil => rfl
  | cons c t =>
    have hc : c ≠ separator := by
      rintro rfl
      rw [List.takeWhile_cons_of_pos (by simp [hne]), List.takeWhile_cons_of_neg (by simp)] at hnamed
      have h : 1 ≤ slashes (slash :: separator :: t) := by
        unfold slashes
        rw [List.takeWhile_cons_of_pos (by simp), List.length_cons]
        omega
      rw [List.length_singleton] at hnamed
      omega
    unfold endOfLine
    simp [hne, hc]

/-- What `config_get_entry` finds for a line is the text up to the next entry line. -/
theorem body_eq {t : CString} (hnamed : Named (slash :: t)) {next : Option CString}
    (hnext : next = (entryLines (some slash) t).head?) :
    (endOfLine (slash :: t)).take (bodyFrom 0 (endOfLine (slash :: t))).length =
      (Item.outline (slash :: t, next)).body := by
  have hne : slash ≠ separator := by decide
  have hend := endOfLine_eq hnamed
  have hdrop := dropWhile_eq_drop (· ≠ separator) (slash :: t)
  have hskip : next = (entryLines (some 0) (endOfLine (slash :: t))).head? := by
    rw [hnext, entryLines_skip hne t, hend, List.dropWhile_cons_of_pos (by simp [hne])]
  have hsplit := bodyFrom_append (endOfLine (slash :: t)) 0
  rw [← hskip] at hsplit
  rw [← hend] at hdrop
  have hline : endOfLine (slash :: t) = (slash :: t).drop (lineOf (slash :: t)).length := hdrop
  unfold Item.outline
  show _ = List.drop (lineOf (slash :: t)).length
    (List.take ((slash :: t).length - (next.getD []).length) (slash :: t))
  rw [List.drop_take, ← hline]
  have hlen : (endOfLine (slash :: t)).length = (slash :: t).length - (lineOf (slash :: t)).length := by
    rw [hline, List.length_drop]
  have hsum := congrArg List.length hsplit
  rw [List.length_append] at hsum
  congr 1
  omega

theorem menuEntry_eq {text t : CString} {i : Nat} {rest : List CString}
    (hdrop : (entryLines none text).drop i = (slash :: t) :: rest) (hnamed : Named (slash :: t))
    (hrest : rest = entryLines (some slash) t) :
    (menuEntry text (slashes (slash :: t)) i).1.name = (Item.outline (slash :: t, rest.head?)).name ∧
      (menuEntry text (slashes (slash :: t)) i).1.body = (Item.outline (slash :: t, rest.head?)).body := by
  have hget : (entryLines none text)[i]? = some (slash :: t) := by
    have h := congrArg List.head? hdrop
    rwa [List.head?_drop] at h
  have hname : configGetEntryName text i = some (lineOf (slash :: t)) := by
    unfold configGetEntryName
    rw [seekEntry_eq, hget]
    rfl
  have hentry : configGetEntry text i = some (endOfLine (slash :: t),
      (bodyFrom 0 (endOfLine (slash :: t))).length) := by
    unfold configGetEntry
    rw [seekEntry_eq, hget]
    rfl
  unfold menuEntry
  rw [hname, hentry]
  refine ⟨rfl, body_eq hnamed ?_⟩
  rw [hrest]

/-! ## The loop -/

/-- The line is followed by one that is too deep below it, or too deep for a menu. -/
def Item.Bad (x : Item) : Prop :=
  ∃ s, x.2 = some s ∧ (slashes x.1 + 1 < slashes s ∨ slashes s = slashes x.1 + 1 ∧ maxMenuNesting < slashes s)

/-- The lines that a level at `d` is made of, deeper ones at the front being those of a level before. -/
def covered (d : Nat) (l : List Item) : List Item :=
  (l.dropWhile fun x => d < slashes x.1).takeWhile fun x => d ≤ slashes x.1

theorem covered_of_lt {d : Nat} {x : Item} (l : List Item) (h : slashes x.1 < d) : covered d (x :: l) = [] := by
  unfold covered
  rw [List.dropWhile_cons_of_neg (by simp; omega), List.takeWhile_cons_of_neg (by simp; omega)]

theorem covered_of_gt {d : Nat} {x : Item} (l : List Item) (h : d < slashes x.1) :
    covered d (x :: l) = covered d l := by
  unfold covered
  rw [List.dropWhile_cons_of_pos (by simp; omega)]

/-- A level's line, what is under it and what comes after it. -/
theorem covered_of_eq {d : Nat} {x : Item} (l : List Item) (h : slashes x.1 = d) :
    covered d (x :: l) = x :: ((l.takeWhile fun x => d + 1 ≤ slashes x.1) ++ covered d l) := by
  unfold covered
  rw [List.dropWhile_cons_of_neg (by simp; omega), List.takeWhile_cons_of_pos (by simp; omega)]
  congr 1
  have hgt : (fun x : Item => decide (d < slashes x.1)) = fun x => decide (d + 1 ≤ slashes x.1) := rfl
  rw [hgt]
  conv_lhs => rw [← List.takeWhile_append_dropWhile (p := fun x : Item => d + 1 ≤ slashes x.1) (l := l)]
  rw [List.takeWhile_append_of_pos]
  intro y hy
  have h := List.mem_takeWhile_imp hy
  simp only [decide_eq_true_iff] at h ⊢
  omega

/-- Under a line there is a level if the next line is one deeper. -/
theorem covered_below {d : Nat} {l : List Item} (h : ∀ x, l.head? = some x → slashes x.1 ≤ d) :
    (l.takeWhile fun x => d ≤ slashes x.1) = covered d l := by
  unfold covered
  cases l with
  | nil => rfl
  | cons x l =>
    have hx := h x rfl
    rw [List.dropWhile_cons_of_neg (by simp; omega)]

theorem takeWhile_of_head {α : Type} {p : α → Bool} {l : List α} {a : α} (h : l.head? = some a) :
    l.takeWhile p = [] ↔ p a = false := by
  cases l with
  | nil => cases h
  | cons b l =>
    cases h
    cases hp : p a with
    | true => simp [hp]
    | false => simp [hp]

theorem isNode_iff (d : Nat) (t : MenuTree) : t.isNode = true ↔ preorder d t ≠ [] := by
  cases t with
  | null => simp [MenuTree.isNode, preorder]
  | node e x sub next => simp [MenuTree.isNode, preorder]

theorem head?_items (l : List CString) : (items l).head? = l.head?.map fun s => (s, l.tail.head?) := by
  cases l with
  | nil => rfl
  | cons s l => rfl

/-- The tree of the lines `l` at depth `d`; it panics if one of them is bad. -/
def Builds (d : Nat) (l : List Item) (r : Exec MenuTree) : Prop :=
  ((∀ x ∈ l, ¬x.Bad) → ∃ t, r = .ok t ∧ preorder d t = l.map Item.outline) ∧
    ((∃ x ∈ l, x.Bad) → ∃ msg, r = .error (.panic msg))

theorem Builds.null (d : Nat) : Builds d [] (.ok .null) := by
  refine ⟨fun _ => ⟨.null, rfl, rfl⟩, ?_⟩
  rintro ⟨x, hx, -⟩
  cases hx

theorem Builds.panic {d : Nat} {x : Item} {l : List Item} {msg : String} (hx : x.Bad) :
    Builds d (x :: l) (.error (.panic msg)) :=
  ⟨fun h => absurd hx (h x List.mem_cons_self), fun _ => ⟨msg, rfl⟩⟩

/-- A line, what is under it, and what comes after it. -/
theorem Builds.node {d : Nat} {x : Item} {below after : List Item} {r₁ r₂ : Exec MenuTree}
    {entry : MenuEntry} {expanded : Bool} (hdepth : slashes x.1 = d) (hx : ¬x.Bad)
    (hentry : entry.name = x.outline.name ∧ entry.body = x.outline.body)
    (hdirectory : x.outline.directory = true ↔ below ≠ []) (h₁ : Builds (d + 1) below r₁)
    (h₂ : Builds d after r₂) :
    Builds d (x :: (below ++ after)) (do
      let sub ← r₁
      let next ← r₂
      return .node entry expanded sub next) := by
  refine ⟨fun hall => ?_, fun hbad => ?_⟩
  · obtain ⟨sub, rfl, hsub⟩ := h₁.1 fun y hy => hall y (by simp [hy])
    obtain ⟨next, rfl, hnext⟩ := h₂.1 fun y hy => hall y (by simp [hy])
    refine ⟨.node entry expanded sub next, rfl, ?_⟩
    have hnode : sub.isNode = x.outline.directory := by
      rw [Bool.eq_iff_iff, hdirectory, isNode_iff (d + 1), hsub]
      simp
    rw [preorder, hsub, hnext, List.map_cons, List.map_append, hnode, hentry.1, hentry.2, ← hdepth]
    rfl
  · by_cases hbelow : ∃ y ∈ below, y.Bad
    · obtain ⟨msg, rfl⟩ := h₁.2 hbelow
      exact ⟨msg, rfl⟩
    · push Not at hbelow
      obtain ⟨sub, rfl, -⟩ := h₁.1 hbelow
      obtain ⟨y, hy, hbad⟩ := hbad
      have hafter : ∃ y ∈ after, y.Bad := by
        rcases List.mem_cons.mp hy with rfl | hy
        · exact absurd hbad hx
        · rcases List.mem_append.mp hy with hy | hy
          · exact absurd hbad (hbelow y hy)
          · exact ⟨y, hy, hbad⟩
      obtain ⟨msg, rfl⟩ := h₂.2 hafter
      exact ⟨msg, rfl⟩

theorem getElem?_of_drop {α : Type} {l rest : List α} {i : Nat} (h : l.drop i = rest) :
    l[i]? = rest.head? ∧ l[i + 1]? = rest.tail.head? ∧ l.drop (i + 1) = rest.tail := by
  subst h
  simp [List.head?_drop]

section
variable {text : CString} (hnamed : ∀ s ∈ entryLines none text, Named s)
include hnamed

/-- The induction is on the lines that are left; the two calls for the line at hand are about the
lines after it. -/
theorem menuLoop_level (rest : List CString) : ∀ (fuel d i : Nat), (entryLines none text).drop i = rest →
    rest.length < fuel → Builds d (covered d (items rest)) (menuLoop text fuel d i) := by
  induction rest with
  | nil =>
    intro fuel d i hdrop hfuel
    obtain ⟨hget, -, -⟩ := getElem?_of_drop hdrop
    cases fuel with
    | zero => cases hfuel
    | succ fuel =>
      rw [menuLoop, isChild_eq hnamed, hget]
      exact Builds.null d
  | cons s rest ih =>
    intro fuel d i hdrop hfuel
    obtain ⟨hget, hget', hdrop'⟩ := getElem?_of_drop hdrop
    rw [List.head?_cons] at hget
    rw [List.tail_cons] at hget' hdrop'
    cases fuel with
    | zero => cases hfuel
    | succ fuel =>
      have hnext := fun d => ih fuel d (i + 1) hdrop' (Nat.lt_of_succ_lt_succ hfuel)
      rw [menuLoop, isChild_eq hnamed, hget, items]
      show Builds d _ (match (if _ then _ else if _ then _ else _ : Child) with
        | .notChild => _ | .indirect => _ | .direct => _)
      by_cases hlt : slashes s < d
      · rw [if_pos hlt, covered_of_lt _ hlt]
        exact Builds.null d
      · rw [if_neg hlt]
        by_cases heq : slashes s = d
        · rw [if_pos heq, covered_of_eq _ heq]
          obtain ⟨t, rfl, hrest⟩ := entryLines_succ hdrop
          have hs : Named (slash :: t) := hnamed _ (List.mem_of_getElem? hget)
          have hentry := menuEntry_eq hdrop hs hrest
          rw [heq] at hentry
          show Builds d _ (isDirectory text d i >>= _)
          unfold isDirectory
          rw [isChild_eq hnamed, hget']
          cases hhead : rest.head? with
          | none =>
            have hnil : rest = [] := List.head?_eq_none_iff.mp hhead
            have hbelow : ((items rest).takeWhile fun x => d + 1 ≤ slashes x.1) = [] := by
              rw [hnil]
              rfl
            rw [hbelow]
            rw [hhead] at hentry
            refine Builds.node heq ?_ hentry ?_ (Builds.null (d + 1)) (hnext d)
            · rintro ⟨s', hs', -⟩
              cases hs'
            · simp [Item.outline]
          | some s' =>
            have hitems : (items rest).head? = some (s', rest.tail.head?) := by
              rw [head?_items, hhead]
              rfl
            rw [hhead] at hentry
            show Builds d _ ((match (if _ then _ else if _ then _ else _ : Child) with
              | .notChild => _ | .indirect => _ | .direct => _) >>= _)
            by_cases hle : slashes s' < d + 1
            · -- The next line is no deeper: no directory.
              rw [if_pos hle]
              have hbelow : ((items rest).takeWhile fun x => d + 1 ≤ slashes x.1) = [] :=
                (takeWhile_of_head hitems).mpr (by simp; omega)
              rw [hbelow]
              refine Builds.node heq ?_ hentry ?_ (Builds.null (d + 1)) (hnext d)
              · rintro ⟨_, ⟨⟩, hs'⟩
                change slashes (slash :: t) + 1 < slashes s' ∨
                  slashes s' = slashes (slash :: t) + 1 ∧ maxMenuNesting < slashes s' at hs'
                omega
              · have hd : slashes s' ≠ slashes (slash :: t) + 1 := by omega
                simp [Item.outline, hd]
            · rw [if_neg hle]
              by_cases hdir : slashes s' = d + 1
              · rw [if_pos hdir]
                show Builds d _ ((do checkNesting (d + 1); menuLoop text fuel (d + 1) (i + 1)) >>= _)
                unfold checkNesting
                by_cases hmax : d + 1 > maxMenuNesting
                · rw [if_pos hmax]
                  exact Builds.panic ⟨s', rfl, .inr ⟨by rw [heq, hdir], by omega⟩⟩
                · rw [if_neg hmax]
                  have hbelow : ((items rest).takeWhile fun x => d + 1 ≤ slashes x.1) =
                      covered (d + 1) (items rest) := by
                    refine covered_below fun x hx => ?_
                    rw [hitems] at hx
                    cases hx
                    exact hdir.le
                  have hne : ((items rest).takeWhile fun x => d + 1 ≤ slashes x.1) ≠ [] := by
                    rw [Ne, takeWhile_of_head hitems]
                    simp
                    omega
                  refine Builds.node heq ?_ hentry ?_ (hbelow ▸ hnext (d + 1)) (hnext d)
                  · rintro ⟨_, ⟨⟩, hs'⟩
                    change slashes (slash :: t) + 1 < slashes s' ∨
                  slashes s' = slashes (slash :: t) + 1 ∧ maxMenuNesting < slashes s' at hs'
                    omega
                  · have hdirectory : (Item.outline (slash :: t, some s')).directory = true := by
                      simp [Item.outline, hdir, heq]
                    exact iff_of_true hdirectory hne
              · rw [if_neg hdir]
                exact Builds.panic ⟨s', rfl, .inl (by show slashes (slash :: t) + 1 < slashes s'; omega)⟩
        · rw [if_neg heq, covered_of_gt _ (by show d < slashes s; omega)]
          exact hnext d

end

/-! ## The whole tree -/

theorem items_next {l : List CString} : ∀ {x : Item} {s : CString}, x ∈ items l → x.2 = some s → s ∈ l := by
  induction l with
  | nil =>
    intro x s hx _
    cases hx
  | cons a l ih =>
    intro x s hx hs
    rcases List.mem_cons.mp hx with rfl | hx
    · exact List.mem_cons_of_mem a (List.mem_of_mem_head? hs)
    · exact List.mem_cons_of_mem a (ih hx hs)

theorem items_fst {l : List CString} : ∀ {x : Item}, x ∈ items l → x.1 ∈ l := by
  induction l with
  | nil =>
    intro x hx
    cases hx
  | cons a l ih =>
    intro x hx
    rcases List.mem_cons.mp hx with rfl | hx
    · exact List.mem_cons_self
    · exact List.mem_cons_of_mem a (ih hx)

/-- Lines that start at the top and are never too deep below the one before stay above the limit. -/
theorem slashes_le_of_not_bad (l : List CString) : (∀ s, l.head? = some s → slashes s ≤ maxMenuNesting) →
    (∀ x ∈ items l, ¬x.Bad) → ∀ s ∈ l, slashes s ≤ maxMenuNesting := by
  induction l with
  | nil =>
    intro _ _ s hs
    cases hs
  | cons a l ih =>
    intro hhead hgood s hs
    have ha := hhead a rfl
    rcases List.mem_cons.mp hs with rfl | hs
    · exact ha
    · refine ih (fun s' hs' => ?_) (fun x hx => hgood x (List.mem_cons_of_mem _ hx)) s hs
      by_contra hlarge
      refine hgood (a, l.head?) List.mem_cons_self ⟨s', hs', ?_⟩
      show slashes a + 1 < slashes s' ∨ slashes s' = slashes a + 1 ∧ maxMenuNesting < slashes s'
      omega

theorem slashes_pos {text s : CString} (h : s ∈ entryLines none text) : 1 ≤ slashes s := by
  have hhead : s.head? = some slash := by simpa using (List.mem_filter.mp h).2
  obtain ⟨t, rfl⟩ := List.head?_eq_some_iff.mp hhead
  unfold slashes
  rw [List.takeWhile_cons_of_pos (by simp), List.length_cons]
  omega

section
variable {text : CString}
  (hfirst : ∀ s, (entryLines none text).head? = some s → slashes s = 1)
include hfirst

theorem covered_all : covered 1 (items (entryLines none text)) = items (entryLines none text) := by
  have hall : ∀ x ∈ items (entryLines none text), 1 ≤ slashes x.1 :=
    fun x hx => slashes_pos (items_fst hx)
  rw [← covered_below, List.takeWhile_eq_self_iff]
  · intro x hx
    exact decide_eq_true (hall x hx)
  · intro x hx
    rw [head?_items] at hx
    obtain ⟨s, hs, rfl⟩ := Option.map_eq_some_iff.mp hx
    exact (hfirst s hs).le

theorem bad_iff_broken : (∃ x ∈ items (entryLines none text), x.Bad) ↔ Broken text := by
  constructor
  · rintro ⟨x, hx, s, hs, hjump | ⟨-, hdeep⟩⟩
    · exact .inl ⟨x, hx, s, hs, hjump⟩
    · exact .inr ⟨s, items_next hx hs, hdeep⟩
  · rintro (⟨x, hx, s, hs, hjump⟩ | ⟨s, hs, hdeep⟩)
    · exact ⟨x, hx, s, hs, .inl hjump⟩
    · by_contra hgood
      push Not at hgood
      have hle := slashes_le_of_not_bad (entryLines none text)
        (fun s' hs' => by rw [hfirst s' hs']; decide) hgood s hs
      omega

end

theorem length_entryLines_le (prev : Option UInt8) (text : CString) :
    (entryLines prev text).length ≤ text.length :=
  (List.length_filter_le _ _).trans (length_lineStarts_le separator text prev)

/-- The tree is the outline, and there is none only where a line is too deep. -/
theorem createMenuTree_outline {text : CString} (hnamed : ∀ s ∈ entryLines none text, Named s)
    (hfirst : ∀ s, (entryLines none text).head? = some s → slashes s = 1) :
    ((∃ msg, createMenuTree text 1 0 = .error (.panic msg)) ↔ Broken text) ∧
      (¬Broken text → ∃ t, createMenuTree text 1 0 = .ok t ∧ preorder 1 t = outline text) := by
  have hbuilds := menuLoop_level hnamed (entryLines none text) (text.length + 1) 1 0 List.drop_zero
    (Nat.lt_succ_of_le (length_entryLines_le none text))
  rw [covered_all hfirst] at hbuilds
  have htree : createMenuTree text 1 0 = menuLoop text (text.length + 1) 1 0 := rfl
  have hbad := bad_iff_broken hfirst
  rw [htree]
  refine ⟨⟨?_, fun hb => hbuilds.2 (hbad.mpr hb)⟩, fun hb => hbuilds.1 fun x hx hx' => hb (hbad.mp ⟨x, hx, hx'⟩)⟩
  rintro ⟨msg, hmsg⟩
  by_contra hb
  obtain ⟨t, ht, -⟩ := hbuilds.1 fun x hx hx' => hb (hbad.mp ⟨x, hx, hx'⟩)
  rw [ht] at hmsg
  cases hmsg

/-- `"/A\n//B\nx\n/C\n"`: a directory with one entry, and an entry. -/
def threeEntries : CString := [47, 65, 10, 47, 47, 66, 10, 120, 10, 47, 67, 10]

theorem createMenuTree_outline_threeEntries : ∃ t, createMenuTree threeEntries 1 0 = .ok t ∧
    preorder 1 t = [⟨1, [65], [10], true⟩, ⟨2, [66], [10, 120, 10], false⟩, ⟨1, [67], [10], false⟩] := by
  have houtline : outline threeEntries =
      [⟨1, [65], [10], true⟩, ⟨2, [66], [10, 120, 10], false⟩, ⟨1, [67], [10], false⟩] := by decide
  rw [← houtline]
  refine (@createMenuTree_outline threeEntries ?_ ?_).2 ?_
  · unfold Named
    decide
  · unfold entryLines
    decide
  · unfold Broken
    decide

end Limine.Config
