import Limine.Ui.DocumentGrammar
import Mathlib.Data.List.Forall2

/-!
# `ui_document_read` accepts its grammar

The code cuts the buffer where it reads, but it never cuts in front of the line that it is at: the sections, keys
and values of the lines before stand there, so they stay what they were (`StringIs.frame`).  A line of the code
is a line of the grammar (`readLine_reads`), hence the loop over them (`readLines_reads`).
-/

namespace Limine.Ui.Document

open Limine.Lib

/-! ## Cutting blanks -/

section Trim
variable {data : List UInt8} {p : Nat} {str : List UInt8}

/-- What `trim` may do to a string of `len` bytes at `p`: `r` holds its part `str`. -/
structure Cut (data : List UInt8) (p len : Nat) (str : List UInt8) (r : List UInt8 × Nat) : Prop where
  holds : HoldsString r.1 r.2 str
  start_le : p ≤ r.2
  end_le : r.2 + str.length ≤ p + len
  outside : UnchangedOutside data r.1 p (p + len)

theorem trimEnd_cut (h : HoldsString data p str) :
    Cut data p str.length (str.rdropWhile isBlank) (trimEnd data p str.length, p) := by
  induction hn : str.length generalizing data str with
  | zero =>
    obtain rfl := List.length_eq_zero_iff.mp hn
    exact ⟨h, Nat.le_refl _, Nat.le_refl _, .refl _ _ _⟩
  | succ n ih =>
    obtain ⟨init, c, rfl⟩ : ∃ init c, str = init ++ [c] := by
      refine ⟨str.dropLast, str.getLast (List.ne_nil_of_length_eq_add_one hn), ?_⟩
      exact (List.dropLast_append_getLast _).symm
    rw [List.length_append, List.length_singleton] at hn
    obtain rfl : init.length = n := by omega
    have hc : data.getD (p + init.length) 0 = c := by
      rw [h.getD (by simp), List.getD_eq_getElem?_getD, List.getElem?_concat_length]
      rfl
    rw [trimEnd, hc, List.rdropWhile_concat]
    split
    · have hinit : HoldsString (data.set (p + init.length) 0) p init := by
        simpa using h.take (n := init.length) (by simp)
      have hcut := ih hinit rfl
      refine ⟨hcut.holds, hcut.start_le, ?_, ?_⟩
      · exact Nat.le_succ_of_le hcut.end_le
      · exact (UnchangedOutside.set 0 (by omega) (by omega)).trans (hcut.outside.mono (Nat.le_refl _) (by omega))
    · refine ⟨h, Nat.le_refl _, ?_, .refl _ _ _⟩
      rw [List.length_append, List.length_singleton]

theorem trim_cut (h : HoldsString data p str) : Cut data p str.length (trimmed str) (trim data p) := by
  have hlead : (data.drop p).takeWhile isBlank = str.takeWhile isBlank := by
    rw [h.drop_eq, List.takeWhile_append]
    split
    · next hall =>
      have hself := (List.takeWhile_prefix isBlank).eq_of_length hall
      rw [List.takeWhile_cons_of_neg (by decide), List.append_nil, hself]
    · rfl
  have hparts : str.takeWhile isBlank ++ str.dropWhile isBlank = str := List.takeWhile_append_dropWhile
  have hlength := congrArg List.length hparts
  rw [List.length_append] at hlength
  have hdrop := h.drop (n := (str.takeWhile isBlank).length) (by omega)
  have hrest : str.drop (str.takeWhile isBlank).length = str.dropWhile isBlank := by
    conv => lhs; arg 2; rw [← hparts]
    exact List.drop_left
  rw [hrest] at hdrop
  have hcut := trimEnd_cut hdrop
  unfold trim
  rw [hlead]
  dsimp only
  rw [hdrop.cstring_eq]
  refine ⟨hcut.holds, Nat.le_add_right _ _, ?_, hcut.outside.mono (Nat.le_add_right _ _) (by omega)⟩
  have hend := hcut.end_le
  show _ + (trimmed str).length ≤ _
  unfold trimmed
  omega

theorem strchr_eq (h : HoldsString data p str) (c : UInt8) :
    strchr data p c = (str.findIdx? (· == c)).map (p + ·) := by
  rw [strchr, h.cstring_eq]

end Trim

/-! ## What has been read -/

/-- The string at `q` is `str`, and it stands in front of `p` with its NUL. -/
structure StringIs (data : List UInt8) (p q : Nat) (str : List UInt8) : Prop where
  holds : HoldsString data q str
  before : q + str.length < p

section Strings
variable {data data' : List UInt8} {p p' q : Nat} {str : List UInt8}

/-- Nothing is written in front of the place that is read. -/
theorem StringIs.frame {hi : Nat} (h : StringIs data p q str) (hsame : UnchangedOutside data data' p hi)
    (hle : p ≤ p') : StringIs data' p' q str :=
  ⟨h.holds.frame hsame (Or.inl h.before), Nat.lt_of_lt_of_le h.before hle⟩

/-- The section that is current, or that of a property. -/
def SectionIs (data : List UInt8) (p : Nat) : Option Nat → List UInt8 → Prop
  | none, name => name = []
  | some q, name => StringIs data p q name

theorem SectionIs.frame {hi : Nat} {sec : Option Nat} (h : SectionIs data p sec str)
    (hsame : UnchangedOutside data data' p hi) (hle : p ≤ p') : SectionIs data' p' sec str := by
  cases sec with
  | none => exact h
  | some q => exact StringIs.frame h hsame hle

theorem SectionIs.string_eq {sec : Option Nat} (h : SectionIs data p sec str) : sectionString data sec = str := by
  cases sec with
  | none => exact Eq.symm h
  | some q => exact h.holds.cstring_eq

/-- A field is a property of the grammar. -/
structure FieldIs (data : List UInt8) (p : Nat) (f : UiProperty) (prop : Property) : Prop where
  section_ : SectionIs data p f.section_ prop.section_
  key : StringIs data p f.key prop.key
  value : StringIs data p f.value prop.value
  line : f.line = prop.line

theorem FieldIs.frame {hi : Nat} {f : UiProperty} {prop : Property} (h : FieldIs data p f prop)
    (hsame : UnchangedOutside data data' p hi) (hle : p ≤ p') : FieldIs data' p' f prop :=
  ⟨h.section_.frame hsame hle, h.key.frame hsame hle, h.value.frame hsame hle, h.line⟩

/-- What the code keeps of a field, with its strings. -/
def viewField (data : List UInt8) (f : UiProperty) : Property :=
  ⟨sectionString data f.section_, cstring data f.key, cstring data f.value, f.line⟩

theorem viewFields_eq {fields : List UiProperty} {props : List Property}
    (h : List.Forall₂ (FieldIs data p) fields props) : fields.map (viewField data) = props := by
  induction h with
  | nil => rfl
  | @cons f prop fields props hf _ ih =>
    have hview : viewField data f = prop := by
      unfold viewField
      rw [hf.section_.string_eq, hf.key.holds.cstring_eq, hf.value.holds.cstring_eq, hf.line]
    rw [List.map_cons, hview, ih]

end Strings

/-- The loop is at `p`, and what it has read is `d`. -/
structure StateIs (s : ReadState) (p : Nat) (d : DocState) : Prop where
  section_ : SectionIs s.data p s.section_ d.name
  fields : List.Forall₂ (FieldIs s.data p) s.fields d.props

section States
variable {s : ReadState} {d : DocState} {data' : List UInt8} {p p' hi line : Nat} {text : List UInt8}

theorem StateIs.frame (h : StateIs s p d) (hsame : UnchangedOutside s.data data' p hi) (hle : p ≤ p') :
    StateIs { s with data := data' } p' d :=
  ⟨h.section_.frame hsame hle, h.fields.imp fun _ _ hf => hf.frame hsame hle⟩

/-- A line that ends at `hi` is read as the grammar reads it. -/
inductive Reads (s : ReadState) (p hi : Nat) : Except LineError ReadState → Option DocState → Prop
  | fails (e : LineError) : Reads s p hi (.error e) none
  | reads {s' : ReadState} {d' : DocState} (hout : UnchangedOutside s.data s'.data p hi)
      (hstate : StateIs s' (hi + 1) d') : Reads s p hi (.ok s') (some d')

/-! ## One line -/

theorem headingKind_short {rest : List UInt8} (h : rest.length < 2) : headingKind rest = none := by
  unfold headingKind
  rw [if_neg]
  rintro ⟨hlast, hvalid⟩
  have hsplit := congrArg List.length (getLast?_eq_some_iff_dropLast.mp hlast)
  rw [List.length_append, List.length_singleton] at hsplit
  have hnil : rest.dropLast = [] := List.length_eq_zero_iff.mp (by omega)
  rw [hnil] at hvalid
  exact absurd hvalid (by decide)

theorem readSection_reads {q : Nat} {rest : List UInt8} (hs : StateIs s p d)
    (h : HoldsString s.data q (bracketOpen :: rest)) (hq : p ≤ q) (hend : q + (rest.length + 1) ≤ hi) :
    Reads s p hi (readSection s q) ((headingKind rest).bind (d.add line)) := by
  unfold readSection
  rw [h.cstring_eq]
  dsimp only
  rw [List.length_cons]
  by_cases hshort : rest.length < 2
  · rw [if_pos (Or.inl (by omega)), headingKind_short hshort]
    exact .fails _
  · have hlastByte : rest.getLast? = some (s.data.getD (q + (rest.length + 1) - 1) 0) := by
      have hindex : q + (rest.length + 1) - 1 = q + rest.length := by omega
      have hbyte := h.bytes rest.length (by rw [List.length_cons]; omega)
      rw [hindex, List.getD_eq_getElem?_getD, hbyte, List.getLast?_eq_getElem?]
      cases rest with
      | nil => simp at hshort
      | cons c rest => simp
    by_cases hlast : rest.getLast? = some bracketClose
    · rw [hlast, Option.some_inj] at hlastByte
      obtain ⟨inner, rfl⟩ : ∃ inner, rest = inner ++ [bracketClose] :=
        ⟨_, getLast?_eq_some_iff_dropLast.mp hlast⟩
      rw [List.length_append, List.length_singleton] at hlastByte hshort hend
      rw [List.length_append, List.length_singleton, if_neg fun hbad =>
        hbad.elim (fun hfew => hshort (by omega)) fun hne => hne hlastByte.symm]
      have hindex : q + (inner.length + 1 + 1) - 1 = q + (inner.length + 1) := by omega
      have hbracket := h.take (n := inner.length + 1) (by simp)
      rw [List.take_succ_cons, List.take_left] at hbracket
      have hcut := trim_cut (hbracket.drop (n := 1) (by simp))
      rw [List.drop_one, List.tail_cons] at hcut
      rw [hindex]
      have hcutOut : UnchangedOutside _ _ p hi := hcut.outside.mono (by omega) (by omega)
      have hout := (UnchangedOutside.set 0 (by omega) (by omega)).trans hcutOut
      rw [headingKind, List.dropLast_concat, hcut.holds.cstring_eq]
      by_cases hvalid : validSection (trimmed inner) = true
      · rw [if_pos hvalid, if_pos ⟨hlast, hvalid⟩]
        have hframe := hs.frame hout (show p ≤ hi + 1 by omega)
        have hbefore : (trim (s.data.set (q + (inner.length + 1)) 0) (q + 1)).2 + (trimmed inner).length < hi + 1 :=
          Nat.lt_succ_of_le (Nat.le_trans hcut.end_le (by omega))
        exact .reads hout ⟨⟨hcut.holds, hbefore⟩, hframe.fields⟩
      · rw [if_neg hvalid, if_neg fun hboth => hvalid hboth.2]
        exact .fails _
    · have hbyte : s.data.getD (q + (rest.length + 1) - 1) 0 ≠ bracketClose := by
        intro hbyte
        rw [hbyte] at hlastByte
        exact hlast hlastByte
      rw [if_pos (Or.inr hbyte), headingKind, if_neg fun hboth => hlast hboth.1]
      exact .fails _

theorem propertyKind_bind_full {i : Nat} (hfull : d.props.length = uiConfigMaxFields) :
    (propertyKind text i).bind (d.add line) = none := by
  unfold propertyKind
  split
  · rfl
  · rw [Option.bind_some, DocState.add, if_pos (Or.inl hfull)]

/-- The search for a field that is there already. -/
theorem any_field_iff {data : List UInt8} {fields : List UiProperty} {props : List Property} (name key : List UInt8)
    (h : List.Forall₂ (FieldIs data p) fields props) :
    (fields.any fun f => sectionString data f.section_ == name && cstring data f.key == key) = true ↔
      ∃ q ∈ props, q.section_ = name ∧ q.key = key := by
  rw [← viewFields_eq h, List.any_eq_true]
  constructor
  · rintro ⟨f, hf, hsame⟩
    simp only [Bool.and_eq_true, beq_iff_eq] at hsame
    exact ⟨_, List.mem_map_of_mem hf, hsame⟩
  · rintro ⟨q, hq, hsame⟩
    obtain ⟨f, hf, rfl⟩ := List.mem_map.mp hq
    refine ⟨f, hf, ?_⟩
    simp only [Bool.and_eq_true, beq_iff_eq]
    exact hsame

theorem readProperty_reads {q : Nat} (hs : StateIs s p d) (h : HoldsString s.data q text) (hq : p ≤ q)
    (hend : q + text.length ≤ hi) : Reads s p hi (readProperty s q line)
      (((text.findIdx? (· == colonSign)).bind (propertyKind text)).bind (d.add line)) := by
  unfold readProperty
  rw [strchr_eq h]
  have hlength := hs.fields.length_eq
  cases hfind : text.findIdx? (· == colonSign) with
  | none => exact .fails _
  | some i =>
    have hlt : i < text.length := (List.findIdx?_eq_some_iff_getElem.mp hfind).1
    rw [Option.map_some, Option.bind_some]
    dsimp only
    by_cases hfull : s.fields.length = uiConfigMaxFields
    · rw [if_pos hfull, propertyKind_bind_full (by rw [← hlength, hfull])]
      exact .fails _
    · rw [if_neg hfull]
      have hkey := trim_cut (h.take (Nat.le_of_lt hlt))
      rw [List.length_take_of_le (Nat.le_of_lt hlt)] at hkey
      have hvalue := trim_cut ((h.drop_set hlt).frame hkey.outside (Or.inr (Nat.le_succ _)))
      rw [List.length_drop] at hvalue
      have hkeyEnd := hkey.end_le
      have hvalueEnd := hvalue.end_le
      have hkeyHolds := hkey.holds.frame hvalue.outside (Or.inl (by omega))
      have hcolon : UnchangedOutside s.data (s.data.set (q + i) 0) p hi := .set 0 (by omega) (by omega)
      have hout := hcolon.trans
        ((hkey.outside.mono (by omega) (by omega)).trans (hvalue.outside.mono (by omega) (by omega)))
      have hframe := hs.frame hout (show p ≤ hi + 1 by omega)
      rw [hkeyHolds.head, hkeyHolds.cstring_eq, hvalue.holds.cstring_eq, hframe.section_.string_eq]
      simp only [hkeyHolds.headD_eq_zero_iff]
      rw [propertyKind]
      by_cases hsizes : trimmed (text.take i) = [] ∨ (trimmed (text.take i)).length > 48 ∨
          (trimmed (text.drop (i + 1))).length > 1024
      · rw [if_pos hsizes, if_pos hsizes]
        exact .fails _
      · rw [if_neg hsizes, if_neg hsizes, Option.bind_some, DocState.add]
        have hany := any_field_iff d.name (trimmed (text.take i)) hframe.fields
        by_cases hdup : ∃ f ∈ d.props, f.section_ = d.name ∧ f.key = trimmed (text.take i)
        · rw [if_pos (hany.mpr hdup), if_pos (Or.inr hdup)]
          exact .fails _
        · rw [if_neg fun hsame => hdup (hany.mp hsame), if_neg (not_or.mpr ⟨hlength ▸ hfull, hdup⟩)]
          -- how the two strings were cut does not matter any more
          generalize trim (s.data.set (q + i) 0) q = key at hout hframe hkeyHolds hkeyEnd hvalue hvalueEnd ⊢
          generalize trim key.1 (q + i + 1) = value at hout hframe hkeyHolds hvalue hvalueEnd ⊢
          have hkeyIs : StringIs _ (hi + 1) _ _ := ⟨hkeyHolds, by omega⟩
          have hvalueIs : StringIs _ (hi + 1) _ _ := ⟨hvalue.holds, by omega⟩
          have hfield : FieldIs _ (hi + 1) ⟨s.section_, _, _, line, false⟩
              ⟨d.name, trimmed (text.take i), trimmed (text.drop (i + 1)), line⟩ :=
            ⟨hframe.section_, hkeyIs, hvalueIs, rfl⟩
          exact .reads hout ⟨hframe.section_, List.rel_append hframe.fields (.cons hfield .nil)⟩

/-- A line of which the blanks at its ends were cut. -/
theorem Reads.of_cut {r : Except LineError ReadState} {o : Option DocState}
    (hout : UnchangedOutside s.data data' p hi) (h : Reads { s with data := data' } p hi r o) : Reads s p hi r o := by
  cases h with
  | fails e => exact .fails e
  | reads hrest hstate => exact .reads (hout.trans hrest) hstate

theorem readLine_reads (line : Nat) (hs : StateIs s p d) (h : HoldsString s.data p text) :
    Reads s p (p + text.length) (readLine s p line) (d.step line text) := by
  have hcut := trim_cut h
  have hframe := hs.frame hcut.outside (Nat.le_refl p)
  have hholds := hcut.holds
  have hend := hcut.end_le
  unfold readLine DocState.step lineKind
  dsimp only
  rw [hholds.head]
  cases htext : trimmed text with
  | nil =>
    rw [if_pos (Or.inl List.headD_nil)]
    exact .reads hcut.outside (hs.frame hcut.outside (by omega))
  | cons c rest =>
    rw [htext] at hholds hend
    have hc : c ≠ 0 := hholds.no_nul c List.mem_cons_self
    rw [List.headD_cons, textKind]
    by_cases hhash : c = hashSign
    · rw [if_pos (Or.inr hhash), if_pos hhash]
      exact .reads hcut.outside (hs.frame hcut.outside (by omega))
    · rw [if_neg (not_or.mpr ⟨hc, hhash⟩), if_neg hhash]
      by_cases hbracket : c = bracketOpen
      · rw [if_pos hbracket, if_pos hbracket]
        rw [hbracket] at hholds
        exact (readSection_reads hframe hholds hcut.start_le hend).of_cut hcut.outside
      · rw [if_neg hbracket, if_neg hbracket]
        exact (readProperty_reads hframe hholds hcut.start_le hend).of_cut hcut.outside

end States

/-! ## All lines -/

/-- The strings of a document are the properties. -/
def Holds (doc : UiDocument) (props : List Property) : Prop := doc.fields.map (viewField doc.data) = props

/-- What the code returns for a document that the grammar reads so. -/
inductive Agrees : Except Nat DocState → Bool × UiDocument → Prop
  | ok {d : DocState} {doc : UiDocument} (hfields : Holds doc d.props) : Agrees (.ok d) (true, doc)
  | error {n : Nat} {doc : UiDocument} (hline : doc.errorLine = n) : Agrees (.error n) (false, doc)

theorem linesOf_of_none {text : List UInt8} (h : text.findIdx? (· == newline) = none) : linesOf text = [text] := by
  rw [List.findIdx?_eq_none_iff] at h
  apply List.splitOn_eq_singleton
  intro hmem
  simpa using h newline hmem

theorem linesOf_of_some {text : List UInt8} {i : Nat} (h : text.findIdx? (· == newline) = some i) :
    linesOf text = text.take i :: linesOf (text.drop (i + 1)) := by
  obtain ⟨hsplit, hno⟩ := findIdx?_split h
  unfold linesOf
  conv => lhs; rw [hsplit]
  exact List.splitOn_append_cons_self_of_not_mem hno _

theorem readLines_reads {fuel p line : Nat} {s : ReadState} {d : DocState} {text : List UInt8} (hs : StateIs s p d)
    (h : HoldsString s.data p text) (hfuel : text.length < fuel) :
    ∃ r, readLines fuel s p line = some r ∧ Agrees (d.read line (linesOf text)) r := by
  induction fuel generalizing s p d line text with
  | zero => exact absurd hfuel (Nat.not_lt_zero _)
  | succ fuel ih =>
    rw [readLines, strchr_eq h]
    cases hfind : text.findIdx? (· == newline) with
    | none =>
      have hreads := readLine_reads (line + 1) hs h
      rw [linesOf_of_none hfind, DocState.read, Option.map_none]
      dsimp only [Option.elim_none]
      generalize readLine s p (line + 1) = r at hreads
      generalize d.step (line + 1) text = o at hreads
      cases hreads with
      | fails e => exact ⟨_, rfl, .error rfl⟩
      | reads hout hstate => exact ⟨_, rfl, .ok (viewFields_eq hstate.fields)⟩
    | some i =>
      have hlt : i < text.length := (List.findIdx?_eq_some_iff_getElem.mp hfind).1
      have hset : UnchangedOutside s.data (s.data.set (p + i) 0) p (p + i + 1) :=
        UnchangedOutside.set 0 (Nat.le_add_right _ _) (Nat.lt_succ_self _)
      have hline := h.take (Nat.le_of_lt hlt)
      have hreads := readLine_reads (line + 1) (hs.frame hset (Nat.le_refl p)) hline
      rw [List.length_take_of_le (Nat.le_of_lt hlt)] at hreads
      rw [linesOf_of_some hfind, DocState.read, Option.map_some]
      dsimp only [Option.elim_some]
      generalize readLine _ p (line + 1) = r at hreads
      generalize d.step (line + 1) (text.take i) = o at hreads
      cases hreads with
      | fails e => exact ⟨_, rfl, .error rfl⟩
      | reads hout hstate =>
        have hrest := (h.drop_set hlt).frame hout (Or.inr (Nat.le_succ _))
        exact ih hstate hrest (by rw [List.length_drop]; omega)

theorem any_badControl_eq_false {text : List UInt8} :
    text.any badControl = false ↔ ∀ c ∈ text, c ≠ 0 ∧ c ≠ 127 ∧ (c < 32 → c = 10 ∨ c = 13 ∨ c = 9) := by
  rw [List.any_eq_false]
  refine forall₂_congr fun c _ => ?_
  unfold badControl
  simp only [Bool.or_eq_true, Bool.and_eq_true, beq_iff_eq, decide_eq_true_eq, bne_iff_ne]
  tauto

/-- The text is of a size and of bytes that can be read: then its lines decide. -/
theorem uiDocumentRead_lines {text : List UInt8} (rest : List UInt8) (h : GoodBytes text) :
    ∃ r, uiDocumentRead (text ++ 0 :: rest) text.length = some r ∧
      Agrees (DocState.read ⟨[], []⟩ 0 (linesOf text)) r := by
  have hpos := h.size_pos
  have hle := h.size_le
  rw [uiDocumentRead, if_neg (by omega), List.take_left, any_badControl_eq_false.mpr h.control, if_neg Bool.false_ne_true]
  have hholds := HoldsString.of_text rest fun c hc => (h.control c hc).1
  exact readLines_reads ⟨rfl, .nil⟩ hholds (Nat.lt_succ_self _)

theorem uiDocumentRead_bytes {text : List UInt8} (rest : List UInt8) (h : ¬ GoodBytes text) :
    ∃ doc, uiDocumentRead (text ++ 0 :: rest) text.length = some (false, doc) := by
  unfold uiDocumentRead
  split
  · exact ⟨_, rfl⟩
  · next hsize =>
    obtain ⟨hpos, hle⟩ := not_or.mp hsize
    rw [List.take_left, if_pos]
    · exact ⟨_, rfl⟩
    · by_contra hcontrol
      exact h ⟨by omega, by omega, any_badControl_eq_false.mp (by simpa using hcontrol)⟩

/-! ## Asking for a property -/

/-- What a document says of a key. -/
def valueOf (props : List Property) (section_ key : List UInt8) : Option (List UInt8) :=
  (props.find? fun q => q.section_ = section_ ∧ q.key = key).map (·.value)

/-- A document after some properties were asked for. -/
def uiDocumentGets (doc : UiDocument) (asked : List (List UInt8 × List UInt8)) : UiDocument :=
  asked.foldl (fun doc q => (uiDocumentGet doc q.1 q.2).2) doc

theorem Holds.get {doc : UiDocument} {props : List Property} (h : Holds doc props) (section_ key : List UInt8) :
    (uiDocumentGet doc section_ key).1 = valueOf props section_ key ∧
      Holds (uiDocumentGet doc section_ key).2 props := by
  have hsame : (fun f : UiProperty => sectionString doc.data f.section_ == section_ && cstring doc.data f.key == key) =
      (fun q : Property => decide (q.section_ = section_ ∧ q.key = key)) ∘ viewField doc.data := by
    funext f
    rw [Function.comp_apply, viewField, Bool.eq_iff_iff]
    simp
  unfold uiDocumentGet valueOf
  rw [List.find?_eq_bind_findIdx?_getElem?, ← h, List.findIdx?_map, ← hsame]
  cases hfind : doc.fields.findIdx? _ with
  | none => exact ⟨rfl, rfl⟩
  | some i =>
    have hi := (List.findIdx?_eq_some_iff_getElem.mp hfind).1
    have hget : doc.fields.getD i ⟨none, 0, 0, 0, false⟩ = doc.fields[i] := by
      rw [List.getD_eq_getElem?_getD, List.getElem?_eq_getElem hi, Option.getD_some]
    rw [Option.bind_some, List.getElem?_map, List.getElem?_eq_getElem hi]
    dsimp only
    rw [hget]
    refine ⟨rfl, ?_⟩
    -- the strings of the field that is marked are the ones that it had
    have hmark : viewField doc.data { doc.fields[i] with used := true } = viewField doc.data doc.fields[i] := rfl
    show (doc.fields.set i _).map (viewField doc.data) = _
    rw [List.map_set, hmark, ← List.map_set, List.set_getElem_self]

theorem Holds.gets {doc : UiDocument} {props : List Property} (h : Holds doc props)
    (asked : List (List UInt8 × List UInt8)) : Holds (uiDocumentGets doc asked) props := by
  induction asked generalizing doc with
  | nil => exact h
  | cons q asked ih => exact ih (h.get q.1 q.2).2

/-! ## The grammar is what is accepted -/

theorem goodLines_iff {lines : List (List UInt8)} : DocState.GoodFrom ⟨[], []⟩ 0 lines ↔ GoodLines lines := by
  constructor
  · intro h
    exact ⟨h.kinds, h.room, h.apart⟩
  · intro h
    exact ⟨h.kinds, h.room, h.apart⟩

theorem uiDocumentRead_grammar (text rest : List UInt8) :
    ∃ ok doc, uiDocumentRead (text ++ 0 :: rest) text.length = some (ok, doc) ∧
      (ok = true ↔ GoodBytes text ∧ GoodLines (linesOf text)) ∧
      (ok = true → Holds doc (propertiesOf [] 0 (linesOf text)) ∧ ∀ asked section_ key,
        (uiDocumentGet (uiDocumentGets doc asked) section_ key).1 =
          valueOf (propertiesOf [] 0 (linesOf text)) section_ key) ∧
      (ok = false → GoodBytes text → 1 ≤ doc.errorLine ∧ doc.errorLine ≤ (linesOf text).length ∧
        GoodLines ((linesOf text).take (doc.errorLine - 1)) ∧ ¬ GoodLines ((linesOf text).take doc.errorLine)) := by
  by_cases hbytes : GoodBytes text
  · obtain ⟨r, hrun, hagrees⟩ := uiDocumentRead_lines rest hbytes
    by_cases hlines : GoodLines (linesOf text)
    · obtain ⟨d, hread, hprops⟩ := DocState.read_of_goodFrom (goodLines_iff.mpr hlines)
      rw [hread] at hagrees
      cases hagrees with
      | @ok _ doc hholds =>
        rw [hprops, List.nil_append] at hholds
        refine ⟨true, doc, hrun, iff_of_true rfl ⟨hbytes, hlines⟩, fun _ => ⟨hholds, fun asked section_ key => ?_⟩,
          fun h => ?_⟩
        · exact ((hholds.gets asked).get section_ key).1
        · cases h
    · have hnone : DocState.GoodFrom ⟨[], []⟩ 0 [] := ⟨fun _ h => absurd h List.not_mem_nil, Nat.zero_le _, .nil⟩
      obtain ⟨k, hk, hread, hbefore, hat⟩ :=
        DocState.read_of_not_goodFrom hnone fun h => hlines (goodLines_iff.mp h)
      rw [hread, Nat.zero_add] at hagrees
      cases hagrees with
      | @error _ doc hline =>
        refine ⟨false, doc, hrun, iff_of_false Bool.false_ne_true fun h => hlines h.2, fun h => ?_, fun _ _ => ?_⟩
        · cases h
        · rw [hline, Nat.add_sub_cancel]
          exact ⟨Nat.succ_pos k, hk, goodLines_iff.mp hbefore, fun h => hat (goodLines_iff.mpr h)⟩
  · obtain ⟨doc, hrun⟩ := uiDocumentRead_bytes rest hbytes
    refine ⟨false, doc, hrun, iff_of_false Bool.false_ne_true fun h => hbytes h.1, fun h => ?_, fun _ h => ?_⟩
    · cases h
    · exact absurd h hbytes

/-- A line that starts with a bracket is a section or nothing, though it may have the form of a property. -/
theorem uiDocumentRead_bracket : KeyValue (ascii "[x: y") (ascii "[x") (ascii "y") ∧ GoodBytes (ascii "[x: y") ∧
    linesOf (ascii "[x: y") = [ascii "[x: y"] ∧ trimmed (ascii "[x: y") = ascii "[x: y" ∧
    (uiDocumentRead (ascii "[x: y" ++ [0]) 5).map (·.1) = some false := by
  refine ⟨⟨⟨ascii "[x", ascii " y", ?_⟩, by decide, by decide, by decide⟩, ⟨by decide, by decide, ?_⟩, ?_⟩
  · decide
  · decide +kernel
  · decide +kernel

end Limine.Ui.Document
