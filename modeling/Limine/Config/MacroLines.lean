import Limine.Config.Macros
import Limine.Lib.Triple
import Limine.Lib.Lines
import Mathlib.Data.List.TakeWhile
import Mathlib.Data.List.Forall2

/-!
# What the macro passes do to the lines

By its lines, a text is what its definitions leave of it: their lines go, and the uses in the others
become values.  The load pass finds these definitions; the expansion pass finds the same ones as long
as every line that starts with `${` has a `}` in it.  Past the end of such a line it takes on.

    lines:      ${A}=1        x: ${A}          ${B
    load        (A, 1)                         nothing
    expansion   removed       x: 1             looks for } in the lines below
-/

namespace Limine.Config
open Limine.Menu (CString)

/-! ## The lines -/

def tailOf (ls : List CString) : CString := ls.flatMap (separator :: ·)

/-- The definition that a line is, from behind its `${` on. -/
def definitionOf (s : CString) : Option Macro :=
  match s.dropWhile (· ≠ closeBrace) with
  | [] => none
  | _ :: rest =>
    if rest.head? = some equals then some ⟨s.takeWhile (· ≠ closeBrace), rest.tail⟩ else none

/-- `${name}=value` -/
def defLine (l : CString) : Option Macro := if opens l then definitionOf l.tail.tail else none

/-- The definitions among the lines, each with where it stands. -/
def definitions : List CString → List Definition
  | [] => []
  | l :: ls =>
    match defLine l with
    | some m => { toMacro := m, start := (l ++ tailOf ls).length, stop := (tailOf ls).length } :: definitions ls
    | none => definitions ls

/-- Every use replaced by its value, all other bytes as they are. -/
inductive Expands (macros : List Macro) : CString → CString → Prop
  | nil : Expands macros [] []
  | use {name rest out : CString} : (∀ c ∈ name, inName c = true) → Expands macros rest out →
      Expands macros (dollar :: openBrace :: (name ++ closeBrace :: rest)) (valueOf macros name ++ out)
  | byte {c : UInt8} {rest out : CString} : opens (c :: rest) = false → Expands macros rest out →
      Expands macros (c :: rest) (c :: out)

/-- What is left of a line: nothing of a definition. -/
def KeptLine (macros : List Macro) (l : CString) (o : Option CString) : Prop :=
  match defLine l with
  | some _ => o = none
  | none => ∃ e, o = some e ∧ Expands macros l e

/-- The lines that are left, each with the line end before it. -/
def glue (outs : List (Option CString)) : CString :=
  outs.flatMap fun o => match o with
    | none => []
    | some e => separator :: e

/-- The text without its definitions and with the values of its uses. -/
def ExpandedTo (macros : List Macro) : List CString → CString → Prop
  | [], _ => False
  | l :: ls, out => ∃ o outs, KeptLine macros l o ∧ List.Forall₂ (KeptLine macros) ls outs ∧
      out = o.getD [] ++ glue outs

/-- A line that starts with `${` has a `}`. -/
def Closed (l : CString) : Prop := opens l = true → closeBrace ∈ l

instance (l : CString) : Decidable (Closed l) := by
  unfold Closed
  infer_instance

theorem tailOf_cons (l : CString) (ls : List CString) : tailOf (l :: ls) = separator :: (l ++ tailOf ls) := by
  simp [tailOf]

theorem head?_tailOf (ls : List CString) : (tailOf ls).head? = none ∨ (tailOf ls).head? = some separator := by
  cases ls with
  | nil => exact .inl rfl
  | cons l ls => exact .inr (by simp [tailOf])

theorem exists_of_opens {l : CString} (h : opens l = true) : ∃ s, l = dollar :: openBrace :: s := by
  unfold opens at h
  match l with
  | [] => simp at h
  | [c] => simp at h
  | c :: d :: s =>
    simp only [List.head?_cons, List.tail_cons, Bool.and_eq_true, decide_eq_true_iff, Option.some.injEq] at h
    exact ⟨s, by rw [h.1, h.2]⟩

section
variable {s t : CString}

theorem takeWhile_upTo {α : Type} {p : α → Bool} {l m : List α} (h : ∀ a, m.head? = some a → p a = false) :
    (l ++ m).takeWhile p = l.takeWhile p ∧ (l ++ m).dropWhile p = l.dropWhile p ++ m := by
  induction l with
  | nil =>
    cases m with
    | nil => simp
    | cons a m => simp [h a rfl]
  | cons a l ih =>
    cases hp : p a with
    | true => simp [hp, ih.1, ih.2]
    | false => simp [hp]

theorem stops (ht : t.head? = none ∨ t.head? = some separator) {p : UInt8 → Bool} (hp : p separator = false) :
    ∀ a, t.head? = some a → p a = false := by
  intro a ha
  rcases ht with ht | ht
  · rw [ht] at ha
    cases ha
  · rw [ht] at ha
    cases ha
    exact hp

theorem dropWhile_sep (hs : separator ∉ s) (ht : t.head? = none ∨ t.head? = some separator) :
    (s ++ t).takeWhile (· ≠ separator) = s ∧ (s ++ t).dropWhile (· ≠ separator) = t := by
  obtain ⟨h1, h2⟩ := takeWhile_upTo (p := (· ≠ separator)) (l := s) (stops ht (by simp))
  have hall : ∀ c ∈ s, decide (c ≠ separator) = true := by
    intro c hc
    have hne : c ≠ separator := fun h => hs (h ▸ hc)
    simp [hne]
  rw [h1, h2, List.takeWhile_eq_self_iff.mpr hall, List.dropWhile_eq_nil_iff.mpr hall]
  exact ⟨rfl, rfl⟩

theorem not_mem_dropWhile (p : UInt8 → Bool) (hs : separator ∉ s) : separator ∉ s.dropWhile p :=
  fun h => hs ((List.dropWhile_sublist p).subset h)

theorem dropWhile_close (s : CString) :
    s.dropWhile (· ≠ closeBrace) = [] ∧ closeBrace ∉ s ∨
      ∃ rest, s.dropWhile (· ≠ closeBrace) = closeBrace :: rest ∧ closeBrace ∈ s := by
  induction s with
  | nil => exact .inl ⟨rfl, by simp⟩
  | cons c s ih =>
    by_cases hc : c = closeBrace
    · exact .inr ⟨s, by simp [hc], by simp [hc]⟩
    · rw [List.dropWhile_cons_of_pos (by simp [hc])]
      rcases ih with ⟨h1, h2⟩ | ⟨rest, h1, h2⟩
      · exact .inl ⟨h1, by simp [Ne.symm hc, h2]⟩
      · exact .inr ⟨rest, h1, List.mem_cons_of_mem c h2⟩

/-- So does the expansion pass, if the line has a brace to look for. -/
theorem skipDefinition_eq (hs : separator ∉ s) (ht : t.head? = none ∨ t.head? = some separator)
    (hclose : closeBrace ∈ s) : skipDefinition (s ++ t) = .ok ((definitionOf s).map fun _ => t) := by
  have hsep : separator ≠ equals := by decide
  unfold skipDefinition definitionOf
  rcases dropWhile_close s with ⟨-, h⟩ | ⟨rest, h, -⟩
  · exact absurd hclose h
  · have hrest : separator ∉ rest := by
      have h' := not_mem_dropWhile (· ≠ closeBrace) hs
      rw [h, List.mem_cons, not_or] at h'
      exact h'.2
    have happ : (s ++ t).dropWhile (· ≠ closeBrace) = closeBrace :: (rest ++ t) := by
      rw [List.dropWhile_append, h]
      simp
    rw [happ, h]
    cases rest with
    | nil =>
      rcases ht with ht | ht
      · simp [ht]
      · simp [ht, hsep]
    | cons c rest =>
      by_cases hc : c = equals
      · subst hc
        rw [List.mem_cons, not_or] at hrest
        have hvalue := (dropWhile_sep hrest.2 ht).2
        simpa using hvalue
      · simp [hc]

end

/-! ## The load pass -/

theorem tailOf_length_cons (l : CString) (ls : List CString) :
    (tailOf (l :: ls)).length = (l ++ tailOf ls).length + 1 := by
  rw [tailOf_cons, List.length_cons]

end Limine.Config
