import Limine.Ui.Document

/-!
# The grammar of a configuration

What `ui_document_read` accepts, said of the text alone, and that the code, which writes into the text while
it reads it, accepts just that (`uiDocumentRead_grammar`).
-/

namespace Limine.Ui.Document

open Limine.Lib

/-! ## The grammar -/

/-- A text without the blanks at its ends. -/
def trimmed (text : List UInt8) : List UInt8 := (text.dropWhile isBlank).rdropWhile isBlank

inductive LineKind
  | nothing
  | heading (name : List UInt8)
  | property (key value : List UInt8)
deriving DecidableEq, Repr

/-- The name of a section is one of those that there are, or that of an entry. -/
def KnownSection (name : List UInt8) : Prop :=
  name ∈ sectionNames ∨ ∃ entry, entry ≠ [] ∧ name = entryStart ++ entry ++ [quoteSign]

/-- A line without its blanks is a key and a value, with a colon after the key. -/
structure KeyValue (text key value : List UInt8) : Prop where
  split : ∃ before after, text = before ++ colonSign :: after ∧ colonSign ∉ before ∧ key = trimmed before ∧ value = trimmed after
  key_pos : 1 ≤ key.length
  key_le : key.length ≤ 48
  value_le : value.length ≤ 1024

/-- What a line is, without its blanks. -/
inductive TextIs : List UInt8 → LineKind → Prop
  | empty : TextIs [] .nothing
  | comment (text : List UInt8) : TextIs (hashSign :: text) .nothing
  | heading (inner : List UInt8) (hname : KnownSection (trimmed inner)) :
      TextIs (bracketOpen :: (inner ++ [bracketClose])) (.heading (trimmed inner))
  | property {text key value : List UInt8} (hhash : text.head? ≠ some hashSign) (hbracket : text.head? ≠ some bracketOpen)
      (h : KeyValue text key value) : TextIs text (.property key value)

def LineIs (line : List UInt8) (kind : LineKind) : Prop := TextIs (trimmed line) kind

/-- A property of the document: its section, key, value and line. -/
structure Property where
  section_ : List UInt8
  key : List UInt8
  value : List UInt8
  line : Nat
deriving DecidableEq, Repr

/-- The kind of a line with a bracket in front of `rest`. -/
def headingKind (rest : List UInt8) : Option LineKind :=
  if rest.getLast? = some bracketClose ∧ validSection (trimmed rest.dropLast) = true then
    some (.heading (trimmed rest.dropLast))
  else none

/-- The kind of a line with a colon at `i`. -/
def propertyKind (text : List UInt8) (i : Nat) : Option LineKind :=
  if trimmed (text.take i) = [] ∨ (trimmed (text.take i)).length > 48 ∨ (trimmed (text.drop (i + 1))).length > 1024 then none
  else some (.property (trimmed (text.take i)) (trimmed (text.drop (i + 1))))

/-- The kind of a line, by its first byte. -/
def textKind : List UInt8 → Option LineKind
  | [] => some .nothing
  | c :: rest =>
    if c = hashSign then some .nothing
    else if c = bracketOpen then headingKind rest
    else ((c :: rest).findIdx? (· == colonSign)).bind (propertyKind (c :: rest))

def lineKind (line : List UInt8) : Option LineKind := textKind (trimmed line)

/-- The properties in some lines, behind `line` others in the section that those end in. -/
def propertiesOf : List UInt8 → Nat → List (List UInt8) → List Property
  | _, _, [] => []
  | name, line, l :: lines =>
    match lineKind l with
    | some (.heading name) => propertiesOf name (line + 1) lines
    | some (.property key value) => ⟨name, key, value, line + 1⟩ :: propertiesOf name (line + 1) lines
    | _ => propertiesOf name (line + 1) lines

/-- No property of the one is the other. -/
def Apart (p q : Property) : Prop := ¬(p.section_ = q.section_ ∧ p.key = q.key)

/-- Lines that may stand at the start of a document. -/
structure GoodLines (lines : List (List UInt8)) : Prop where
  kinds : ∀ line ∈ lines, ∃ kind, LineIs line kind
  room : (propertiesOf [] 0 lines).length ≤ uiConfigMaxFields
  apart : (propertiesOf [] 0 lines).Pairwise Apart

/-- The size and the bytes of a document. -/
structure GoodBytes (text : List UInt8) : Prop where
  size_pos : 1 ≤ text.length
  size_le : text.length ≤ uiConfigMaxSize
  control : ∀ c ∈ text, c ≠ 0 ∧ c ≠ 127 ∧ (c < 32 → c = 10 ∨ c = 13 ∨ c = 9)

def linesOf (text : List UInt8) : List (List UInt8) := text.splitOn newline

/-! ## Kinds of lines -/

theorem getLast?_eq_some_iff_dropLast {l : List UInt8} {c : UInt8} : l.getLast? = some c ↔ l = l.dropLast ++ [c] := by
  constructor
  · intro h
    exact (List.dropLast_append_getLast? c h).symm
  · intro h
    rw [h, List.getLast?_append]
    rfl

theorem validSection_iff {name : List UInt8} : validSection name = true ↔ KnownSection name := by
  unfold validSection KnownSection
  rw [Bool.or_eq_true, List.contains_iff_mem]
  apply or_congr_right
  simp only [Bool.and_eq_true, decide_eq_true_eq, List.isPrefixOf_iff_prefix, beq_iff_eq]
  have hstart : entryStart.length = 7 := rfl
  constructor
  · rintro ⟨⟨hlength, rest, rfl⟩, hlast⟩
    rw [List.length_append, hstart] at hlength
    have hne : rest ≠ [] := by
      rintro rfl
      simp at hlength
    rw [List.getLast?_append_of_ne_nil _ hne] at hlast
    have hsplit := getLast?_eq_some_iff_dropLast.mp hlast
    refine ⟨rest.dropLast, fun hempty => ?_, ?_⟩
    · rw [hsplit, hempty] at hlength
      simp at hlength
    · rw [List.append_assoc, ← hsplit]
  · rintro ⟨entry, hne, rfl⟩
    have hpos := List.length_pos_iff.mpr hne
    refine ⟨⟨?_, entry ++ [quoteSign], (List.append_assoc _ _ _).symm⟩, ?_⟩
    · simp only [List.length_append, hstart, List.length_singleton]
      omega
    · simp

/-- The first separator splits a text. -/
theorem findIdx?_split {text : List UInt8} {sep : UInt8} {i : Nat} (h : text.findIdx? (· == sep) = some i) :
    text = text.take i ++ sep :: text.drop (i + 1) ∧ sep ∉ text.take i := by
  obtain ⟨hlt, hsep, hbefore⟩ := List.findIdx?_eq_some_iff_getElem.mp h
  constructor
  · have hget : text[i] = sep := by simpa using hsep
    rw [← hget, List.getElem_cons_drop, List.take_append_drop]
  · intro hmem
    obtain ⟨j, hj, hget⟩ := List.mem_take_iff_getElem.mp hmem
    have hno := hbefore j (by omega)
    simp [hget] at hno

theorem findIdx?_append_colon {before after : List UInt8} (h : colonSign ∉ before) :
    (before ++ colonSign :: after).findIdx? (· == colonSign) = some before.length := by
  have hnone : before.findIdx? (· == colonSign) = none := by
    rw [List.findIdx?_eq_none_iff]
    intro c hc
    simp only [beq_eq_false_iff_ne, ne_eq]
    rintro rfl
    exact h hc
  rw [List.findIdx?_append, hnone, List.findIdx?_cons]
  simp

theorem headingKind_iff {rest : List UInt8} {kind : LineKind} : headingKind rest = some kind ↔
    ∃ inner, rest = inner ++ [bracketClose] ∧ KnownSection (trimmed inner) ∧ kind = .heading (trimmed inner) := by
  unfold headingKind
  constructor
  · intro h
    split at h
    · next hparts =>
      exact ⟨rest.dropLast, getLast?_eq_some_iff_dropLast.mp hparts.1, validSection_iff.mp hparts.2,
        (Option.some.inj h).symm⟩
    · cases h
  · rintro ⟨inner, rfl, hname, rfl⟩
    rw [List.dropLast_concat, if_pos ⟨by simp, validSection_iff.mpr hname⟩]

theorem propertyKind_iff {text : List UInt8} {kind : LineKind} :
    (text.findIdx? (· == colonSign)).bind (propertyKind text) = some kind ↔
      ∃ key value, KeyValue text key value ∧ kind = .property key value := by
  constructor
  · intro h
    obtain ⟨i, hi, h⟩ := Option.bind_eq_some_iff.mp h
    obtain ⟨hsplit, hno⟩ := findIdx?_split hi
    unfold propertyKind at h
    split at h
    · cases h
    · next hsizes =>
      obtain ⟨hkey, hsizes⟩ := not_or.mp hsizes
      obtain ⟨hkeyLe, hvalueLe⟩ := not_or.mp hsizes
      exact ⟨_, _, ⟨⟨_, _, hsplit, hno, rfl, rfl⟩, List.length_pos_iff.mpr hkey, by omega, by omega⟩,
        (Option.some.inj h).symm⟩
  · rintro ⟨-, -, ⟨⟨before, after, rfl, hno, rfl, rfl⟩, hpos, hkey, hvalue⟩, rfl⟩
    have hdrop : (before ++ colonSign :: after).drop (before.length + 1) = after := by
      rw [← List.drop_drop, List.drop_left]
      rfl
    rw [findIdx?_append_colon hno, Option.bind_some, propertyKind, List.take_left, hdrop, if_neg]
    rintro (hempty | hlong | hlong)
    · rw [hempty] at hpos
      simp at hpos
    · omega
    · omega

/-- The kind that is computed is the one of the grammar. -/
theorem textKind_eq_some_iff {text : List UInt8} {kind : LineKind} : textKind text = some kind ↔ TextIs text kind := by
  cases text with
  | nil =>
    constructor
    · intro h
      obtain rfl := Option.some.inj h
      exact .empty
    · intro h
      cases h with
      | empty => rfl
      | property _ _ h =>
        obtain ⟨before, after, hsplit, -⟩ := h.split
        simp at hsplit
  | cons c rest =>
    rw [textKind]
    by_cases hhash : c = hashSign
    · rw [if_pos hhash, hhash]
      constructor
      · intro h
        obtain rfl := Option.some.inj h
        exact .comment rest
      · intro h
        cases h with
        | comment => rfl
        | property hno => exact absurd rfl hno
    · rw [if_neg hhash]
      by_cases hbracket : c = bracketOpen
      · rw [if_pos hbracket, hbracket, headingKind_iff]
        constructor
        · rintro ⟨inner, rfl, hname, rfl⟩
          exact .heading inner hname
        · intro h
          cases h with
          | heading inner hname => exact ⟨inner, rfl, hname, rfl⟩
          | property _ hno => exact absurd rfl hno
      · rw [if_neg hbracket, propertyKind_iff]
        constructor
        · rintro ⟨key, value, h, rfl⟩
          exact .property (by simpa using hhash) (by simpa using hbracket) h
        · intro h
          cases h with
          | comment => exact absurd rfl hhash
          | heading => exact absurd rfl hbracket
          | property _ _ h => exact ⟨_, _, h, rfl⟩

theorem lineKind_eq_some_iff {line : List UInt8} {kind : LineKind} : lineKind line = some kind ↔ LineIs line kind :=
  textKind_eq_some_iff

/-! ## Line by line -/

/-- The section that the lines so far end in, and their properties. -/
structure DocState where
  name : List UInt8
  props : List Property

namespace DocState
variable {d d' : DocState} {line n : Nat} {l : List UInt8} {lines : List (List UInt8)} {kind : LineKind}

/-- One more line; `none` when there is no room for its property or it is there already. -/
def add (d : DocState) (line : Nat) : LineKind → Option DocState
  | .nothing => some d
  | .heading name => some { d with name := name }
  | .property key value =>
    if d.props.length = uiConfigMaxFields ∨ ∃ q ∈ d.props, q.section_ = d.name ∧ q.key = key then none
    else some { d with props := d.props ++ [⟨d.name, key, value, line⟩] }

def step (d : DocState) (line : Nat) (l : List UInt8) : Option DocState := (lineKind l).bind (d.add line)

/-- All lines, or the first that cannot be read. -/
def read (d : DocState) (line : Nat) : List (List UInt8) → Except Nat DocState
  | [] => .ok d
  | l :: lines =>
    match d.step (line + 1) l with
    | none => .error (line + 1)
    | some d => d.read (line + 1) lines

/-- The lines may stand behind those read so far. -/
structure GoodFrom (d : DocState) (line : Nat) (lines : List (List UInt8)) : Prop where
  kinds : ∀ l ∈ lines, ∃ kind, LineIs l kind
  room : (d.props ++ propertiesOf d.name line lines).length ≤ uiConfigMaxFields
  apart : (d.props ++ propertiesOf d.name line lines).Pairwise Apart

/-- A line that is read moves its property from those to come to those that there are. -/
theorem propertiesOf_cons (lines : List (List UInt8)) (hkind : lineKind l = some kind) (h : d.add (line + 1) kind = some d') :
    d.props ++ propertiesOf d.name line (l :: lines) = d'.props ++ propertiesOf d'.name (line + 1) lines := by
  cases kind with
  | nothing =>
    obtain rfl := Option.some.inj h
    rw [propertiesOf, hkind]
  | heading name =>
    obtain rfl := Option.some.inj h
    rw [propertiesOf, hkind]
  | property key value =>
    rw [add] at h
    split at h
    · cases h
    · obtain rfl := Option.some.inj h
      rw [propertiesOf, hkind, List.append_assoc]
      rfl

theorem not_goodFrom_of_add (hkind : lineKind l = some kind) (h : d.add (line + 1) kind = none) :
    ¬ d.GoodFrom line (l :: lines) := by
  cases kind with
  | nothing => cases h
  | heading name => cases h
  | property key value =>
    rw [add] at h
    split at h
    · next hfull =>
      intro hgood
      have hroom := hgood.room
      have hapart := hgood.apart
      simp only [propertiesOf, hkind] at hroom hapart
      rcases hfull with hfull | ⟨q, hq, hsection, hkey⟩
      · rw [List.length_append, List.length_cons] at hroom
        omega
      · exact (List.pairwise_append.mp hapart).2.2 q hq _ List.mem_cons_self ⟨hsection, hkey⟩
    · cases h

theorem goodFrom_cons : d.GoodFrom line (l :: lines) ↔
    ∃ d', d.step (line + 1) l = some d' ∧ d'.GoodFrom (line + 1) lines := by
  constructor
  · intro h
    obtain ⟨kind, hkind⟩ := h.kinds l List.mem_cons_self
    rw [← lineKind_eq_some_iff] at hkind
    cases hadd : d.add (line + 1) kind with
    | none => exact absurd h (not_goodFrom_of_add hkind hadd)
    | some d' =>
      have hprops := propertiesOf_cons lines hkind hadd
      refine ⟨d', ?_, fun k hk => h.kinds k (List.mem_cons_of_mem _ hk), ?_, ?_⟩
      · rw [step, hkind, Option.bind_some, hadd]
      · rw [← hprops]
        exact h.room
      · rw [← hprops]
        exact h.apart
  · rintro ⟨d', hstep, h⟩
    obtain ⟨kind, hkind, hadd⟩ := Option.bind_eq_some_iff.mp hstep
    have hprops := propertiesOf_cons lines hkind hadd
    refine ⟨List.forall_mem_cons.mpr ⟨⟨kind, lineKind_eq_some_iff.mp hkind⟩, h.kinds⟩, ?_, ?_⟩
    · rw [hprops]
      exact h.room
    · rw [hprops]
      exact h.apart

theorem GoodFrom.add (hd : d.GoodFrom line []) (h : d.add (line + 1) kind = some d') : d'.GoodFrom (line + 1) [] := by
  have hroom := hd.room
  have hapart := hd.apart
  rw [propertiesOf, List.append_nil] at hroom hapart
  cases kind with
  | nothing =>
    obtain rfl := Option.some.inj h
    exact ⟨hd.kinds, hd.room, hd.apart⟩
  | heading name =>
    obtain rfl := Option.some.inj h
    exact ⟨hd.kinds, hd.room, hd.apart⟩
  | property key value =>
    rw [DocState.add] at h
    split at h
    · cases h
    · next hnew =>
      obtain rfl := Option.some.inj h
      obtain ⟨hfull, hdup⟩ := not_or.mp hnew
      refine ⟨hd.kinds, ?_, ?_⟩
      · rw [propertiesOf, List.append_nil, List.length_append, List.length_singleton]
        omega
      · rw [propertiesOf, List.append_nil, List.pairwise_append]
        refine ⟨hapart, List.pairwise_singleton _ _, fun q hq r hr hsame => ?_⟩
        rw [List.mem_singleton.mp hr] at hsame
        exact hdup ⟨q, hq, hsame⟩

theorem read_of_goodFrom (h : d.GoodFrom line lines) : ∃ d', d.read line lines = .ok d' ∧
    d'.props = d.props ++ propertiesOf d.name line lines := by
  induction lines generalizing d line with
  | nil => exact ⟨d, rfl, (List.append_nil _).symm⟩
  | cons l lines ih =>
    obtain ⟨d', hstep, hrest⟩ := goodFrom_cons.mp h
    obtain ⟨kind, hkind, hadd⟩ := Option.bind_eq_some_iff.mp hstep
    obtain ⟨d'', hread, hprops⟩ := ih hrest
    refine ⟨d'', ?_, ?_⟩
    · rw [read, hstep]
      exact hread
    · rw [hprops, propertiesOf_cons lines hkind hadd]

/-- The line that is said not to be readable is the first that is not good. -/
theorem read_of_not_goodFrom (hd : d.GoodFrom line []) (h : ¬ d.GoodFrom line lines) : ∃ k, k < lines.length ∧
    d.read line lines = .error (line + k + 1) ∧ d.GoodFrom line (lines.take k) ∧
    ¬ d.GoodFrom line (lines.take (k + 1)) := by
  induction lines generalizing d line with
  | nil => exact absurd hd h
  | cons l lines ih =>
    cases hstep : d.step (line + 1) l with
    | none =>
      refine ⟨0, Nat.zero_lt_succ _, ?_, hd, ?_⟩
      · rw [read, hstep]
      · intro hgood
        obtain ⟨d', hsome, -⟩ := goodFrom_cons.mp hgood
        rw [hstep] at hsome
        cases hsome
    | some d' =>
      obtain ⟨kind, hkind, hadd⟩ := Option.bind_eq_some_iff.mp hstep
      have hd' := hd.add hadd
      have hrest : ¬ d'.GoodFrom (line + 1) lines := fun hgood => h (goodFrom_cons.mpr ⟨d', hstep, hgood⟩)
      obtain ⟨k, hk, hread, hbefore, hat⟩ := ih hd' hrest
      refine ⟨k + 1, Nat.succ_lt_succ hk, ?_, ?_, ?_⟩
      · rw [read, hstep]
        have heq : line + (k + 1) + 1 = line + 1 + k + 1 := by omega
        rw [heq]
        exact hread
      · exact goodFrom_cons.mpr ⟨d', hstep, hbefore⟩
      · intro hgood
        obtain ⟨d₂, hsome, hgood⟩ := goodFrom_cons.mp hgood
        rw [hstep] at hsome
        obtain rfl := Option.some.inj hsome
        exact hat hgood

end DocState

end Limine.Ui.Document
