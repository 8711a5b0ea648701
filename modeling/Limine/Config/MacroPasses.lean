import Limine.Config.MacroLines

/-!
# The two macro passes

Where every line that starts with `${` has a `}` in it, the expansion pass takes the lines out that the
load pass has recorded.  Where one has not, it takes out something else, or the boot stops.
-/

namespace Limine.Config
open Limine.Menu (CString)

/-- The pass from inside a line on: what is left of the line, and the lines below. -/
def Follows (macros : List Macro) (u : CString) (ls : List CString) (out : CString) (r : Expansion) : Prop :=
  ((∀ l ∈ ls, Closed l) → ∃ e outs, Expands macros u e ∧ List.Forall₂ (KeptLine macros) ls outs ∧
    r.1 = out ++ e ++ glue outs ∧ r.2 = (definitions ls).map (·.range)) ∧
  ((∃ l ∈ ls, ¬Closed l) → r.2 ≠ (definitions ls).map (·.range))

section
variable {macros : List Macro} {newSize : Nat}

theorem not_expands {l e : CString} (h : ¬Closed l) : ¬Expands macros l e := by
  unfold Closed at h
  push Not at h
  obtain ⟨hopens, hclose⟩ := h
  intro hexp
  cases hexp with
  | nil => cases hopens
  | use hname hrest => exact hclose (by simp)
  | byte hno _ =>
    rw [hno] at hopens
    cases hopens

theorem definitions_of_none {l : CString} {ls : List CString} (hdef : defLine l = none) :
    definitions (l :: ls) = definitions ls := by
  rw [definitions, hdef]

theorem ranges_of_some {l : CString} {ls : List CString} {m : Macro} (hdef : defLine l = some m) :
    (definitions (l :: ls)).map (·.range) =
      ((l ++ tailOf ls).length, (tailOf ls).length) :: (definitions ls).map (·.range) := by
  rw [definitions, hdef]
  rfl

/-- Where the pass has gone on inside a line, the ranges can be right only if the line is closed. -/
theorem Follows.ranges_line {l : CString} {ls : List CString} {out : CString} {r : Expansion}
    (hdef : defLine l = none) (h : Follows macros l ls out r) (hopen : ∃ l' ∈ l :: ls, ¬Closed l') :
    r.2 ≠ (definitions (l :: ls)).map (·.range) := by
  rw [definitions_of_none hdef]
  by_cases hls : ∃ l' ∈ ls, ¬Closed l'
  · exact h.2 hls
  · push Not at hls
    obtain ⟨e, outs, hl, -, -, -⟩ := h.1 hls
    obtain ⟨l', hmem, hl'⟩ := hopen
    rcases List.mem_cons.mp hmem with rfl | hmem
    · exact absurd hl (not_expands hl')
    · exact absurd (hls l' hmem) hl'

theorem Follows.ranges_definition {l : CString} {ls : List CString} {out : CString} {r : Expansion} {m : Macro}
    (hdef : defLine l = some m) (hl : Closed l) (h : Follows macros [] ls out r)
    (hopen : ∃ l' ∈ l :: ls, ¬Closed l') :
    ((l ++ tailOf ls).length, (tailOf ls).length) :: r.2 ≠ (definitions (l :: ls)).map (·.range) := by
  rw [ranges_of_some hdef]
  intro heq
  obtain ⟨l', hmem, hl'⟩ := hopen
  rcases List.mem_cons.mp hmem with rfl | hmem
  · exact hl' hl
  · exact h.2 ⟨l', hmem, hl'⟩ (List.cons.inj heq).2

theorem keptLine_of_none {l e : CString} (hdef : defLine l = none) (h : Expands macros l e) :
    KeptLine macros l (some e) := by
  unfold KeptLine
  rw [hdef]
  exact ⟨e, rfl, h⟩

theorem keptLine_of_some {l : CString} {m : Macro} (hdef : defLine l = some m) : KeptLine macros l none := by
  unfold KeptLine
  rw [hdef]

/-- A line that is not taken for a definition. -/
theorem Follows.line {l : CString} {ls : List CString} {out : CString} {r : Expansion}
    (hdef : defLine l = none) (h : Follows macros l ls (out ++ [separator]) r) :
    Follows macros [] (l :: ls) out r := by
  refine ⟨fun hclosed => ?_, h.ranges_line hdef⟩
  rw [definitions_of_none hdef]
  obtain ⟨e, outs, hl, houts, h1, h2⟩ := h.1 fun l' h' => hclosed l' (List.mem_cons_of_mem l h')
  refine ⟨[], some e :: outs, .nil, .cons (keptLine_of_none hdef hl) houts, ?_, h2⟩
  rw [h1]
  simp [glue]

/-- A line that is one. -/
theorem Follows.definition {l : CString} {ls : List CString} {out : CString} {r : Expansion} {m : Macro}
    (hdef : defLine l = some m) (hl : Closed l) (h : Follows macros [] ls out r) :
    Follows macros [] (l :: ls) out (r.1, ((l ++ tailOf ls).length, (tailOf ls).length) :: r.2) := by
  refine ⟨fun hclosed => ?_, h.ranges_definition hdef hl⟩
  rw [ranges_of_some hdef]
  obtain ⟨e, outs, hnil, houts, h1, h2⟩ := h.1 fun l' h' => hclosed l' (List.mem_cons_of_mem l h')
  exact ⟨e, none :: outs, hnil, .cons (keptLine_of_some hdef) houts, h1, by rw [h2]⟩

theorem start_lt {ls : List CString} : ∀ d ∈ definitions ls, d.start < (tailOf ls).length := by
  induction ls with
  | nil =>
    intro d hd
    cases hd
  | cons l ls ih =>
    intro d hd
    have hlen := tailOf_length_cons l ls
    rw [List.length_append] at hlen
    have hrec : d ∈ definitions ls → d.start < (tailOf (l :: ls)).length := by
      intro h
      have hlt := ih d h
      omega
    rw [definitions] at hd
    split at hd
    · rcases List.mem_cons.mp hd with rfl | hd
      · rw [tailOf_length_cons]
        exact Nat.lt_succ_self _
      · exact hrec hd
    · exact hrec hd

/-- A line is removed that is no definition. -/
theorem ranges_ne {l : CString} {ls : List CString} (hdef : defLine l = none) (stop : Nat)
    (removed : List (Nat × Nat)) :
    ((l ++ tailOf ls).length, stop) :: removed ≠ (definitions (l :: ls)).map (·.range) := by
  rw [definitions, hdef]
  intro heq
  have hmem : ((l ++ tailOf ls).length, stop) ∈ (definitions ls).map (·.range) := by
    rw [← heq]
    exact List.mem_cons_self
  obtain ⟨d, hd, hrange⟩ := List.mem_map.mp hmem
  have hlt := start_lt d hd
  have hstart : d.start = (l ++ tailOf ls).length := congrArg Prod.fst hrange
  rw [List.length_append] at hstart
  omega

/-- A line that starts with `${`: the scanner finds its definition, or leaves the line. -/
theorem skipLine {l : CString} {ls : List CString} {o : Option CString} (hl : separator ∉ l)
    (hopens : opens l = true) (hskip : skipDefinition (l.tail.tail ++ tailOf ls) = .ok o) :
    (Closed l ∧ o = (defLine l).map fun _ => tailOf ls) ∨ (¬Closed l ∧ defLine l = none) := by
  obtain ⟨s, rfl⟩ := exists_of_opens hopens
  have hs : separator ∉ s := fun h => hl (by simp [h])
  have hdef : defLine (dollar :: openBrace :: s) = definitionOf s := rfl
  rw [List.tail_cons, List.tail_cons] at hskip
  rw [hdef]
  unfold Closed
  by_cases hclose : closeBrace ∈ s
  · rw [skipDefinition_eq hs (head?_tailOf ls) hclose] at hskip
    cases hskip
    exact .inl ⟨fun _ => by simp [hclose], rfl⟩
  · have hmem : closeBrace ∉ dollar :: openBrace :: s := by
      simp [dollar, openBrace, closeBrace] at hclose ⊢
      exact hclose
    refine .inr ⟨fun h => hmem (h hopens), ?_⟩
    unfold definitionOf
    rcases dropWhile_close s with ⟨hnil, -⟩ | ⟨rest, -, h⟩
    · rw [hnil]
    · exact absurd h hclose

/-- The pass at the end of a line, with what the scanner has found below. -/
theorem Follows.next {fuel : Nat} {l : CString} {ls : List CString} {out : CString} {r : Expansion}
    {o : Option CString} (hl : separator ∉ l) (hls : ∀ l ∈ ls, separator ∉ l)
    (ih : ∀ u ls out r, separator ∉ u → (∀ l ∈ ls, separator ∉ l) →
      expandFrom macros newSize fuel false (u ++ tailOf ls) out = .ok r → Follows macros u ls out r)
    (hfound : if opens l = true then skipDefinition (l.tail.tail ++ tailOf ls) = .ok o else o = none)
    (hskipped : ∀ rest, o = some rest → ∃ r', expandFrom macros newSize fuel false rest out = .ok r' ∧
      r = (r'.1, ((l ++ tailOf ls).length, rest.length) :: r'.2))
    (hcopied : o = none → expandFrom macros newSize fuel false (l ++ tailOf ls) (out ++ [separator]) = .ok r) :
    Follows macros [] (l :: ls) out r := by
  have hline : defLine l = none → o = none → Follows macros [] (l :: ls) out r := by
    rintro hdef rfl
    exact Follows.line hdef (ih l ls _ r hl hls (hcopied rfl))
  split at hfound
  · next hopens =>
    cases o with
    | none =>
      rcases skipLine hl hopens hfound with ⟨-, hnone⟩ | ⟨-, hdef⟩
      · exact hline (Option.map_eq_none_iff.mp hnone.symm) rfl
      · exact hline hdef rfl
    | some rest =>
      obtain ⟨r', hrun, rfl⟩ := hskipped rest rfl
      rcases skipLine hl hopens hfound with ⟨hclosed, hsome⟩ | ⟨hopen, hdef⟩
      · obtain ⟨m, hdef, rfl⟩ := Option.map_eq_some_iff.mp hsome.symm
        exact Follows.definition hdef hclosed (ih [] ls out r' (by simp) hls hrun)
      · refine ⟨fun hclosed => ?_, fun _ => ranges_ne hdef _ _⟩
        exact absurd (hclosed l List.mem_cons_self) hopen
  · next hopens =>
    refine hline ?_ hfound
    unfold defLine
    rw [if_neg hopens]

end

/-! ## Both passes -/

theorem ne_nil_of_macroStart {first : Bool} {text : CString} (h : macroStart first text = true) :
    text ≠ [] ∧ (pastOpen first text).length < text.length := by
  cases text with
  | nil => simp [macroStart, opensAfterLine, opens] at h
  | cons c text =>
    refine ⟨List.cons_ne_nil c text, ?_⟩
    unfold pastOpen
    rw [List.length_drop, List.length_cons]
    split
    · omega
    · omega

theorem length_dropWhile_le (p : UInt8 → Bool) (l : CString) : (l.dropWhile p).length ≤ l.length :=
  (List.dropWhile_sublist p).length_le

theorem afterName_length {text rest : CString} (h : afterName text = some rest) : rest.length ≤ text.length := by
  unfold afterName at h
  split at h
  · cases h
    exact ((List.tail_sublist _).trans (List.tail_sublist _)).length_le
  · cases h

/-- The load pass ends. -/
theorem loadFrom_ends (fuel : Nat) : ∀ (first : Bool) (text : CString), text.length < fuel →
    (loadFrom fuel first text).Ensures True fun _ => True := by
  induction fuel with
  | zero =>
    intro first text h
    omega
  | succ fuel ih =>
    intro first text hlen
    rw [loadFrom.eq_def]
    dsimp only
    split
    · next hstart =>
      obtain ⟨-, hpast⟩ := ne_nil_of_macroStart hstart
      have hrest := length_dropWhile_le inName (pastOpen first text)
      split
      · trivial
      · split
        · exact ih _ _ (by omega)
        · next rest hafter =>
          have hvalue := afterName_length hafter
          have hline := length_dropWhile_le (· ≠ separator) rest
          split
          · trivial
          · refine Exec.Ensures.bind (ih _ _ (by omega)) fun _ _ => ?_
            trivial
    · split
      · trivial
      · exact ih _ _ (by simpa using hlen)

theorem skipDefinition_ends (text : CString) :
    (skipDefinition text).Ensures True fun o => ∀ rest, o = some rest → rest.length ≤ text.length := by
  have hclose := length_dropWhile_le (· ≠ closeBrace) text
  unfold skipDefinition
  split
  · trivial
  · next c rest heq =>
    rw [heq, List.length_cons] at hclose
    split
    · rintro _ ⟨⟩
      have hline := length_dropWhile_le (· ≠ separator) rest.tail
      rw [List.length_tail] at hline
      omega
    · rintro _ ⟨⟩

theorem emit_ends (newSize : Nat) (out bytes : CString) : (emit newSize out bytes).Ensures True fun _ => True := by
  unfold emit
  split
  · trivial
  · trivial

/-- The expansion pass ends. -/
theorem expandFrom_ends (macros : List Macro) (newSize fuel : Nat) : ∀ (first : Bool) (text out : CString),
    text.length < fuel → (expandFrom macros newSize fuel first text out).Ensures True fun _ => True := by
  induction fuel with
  | zero =>
    intro first text out h
    omega
  | succ fuel ih =>
    intro first text out hlen
    have hfound : (definitionHere first text).Ensures True
        fun o => ∀ rest, o = some rest → rest.length < text.length := by
      unfold definitionHere
      split
      · next hstart =>
        refine (skipDefinition_ends _).imp id fun o ho rest hrest => ?_
        exact Nat.lt_of_le_of_lt (ho rest hrest) (ne_nil_of_macroStart hstart).2
      · rintro _ ⟨⟩
    rw [expandFrom.eq_def]
    refine Exec.Ensures.bind hfound fun o ho => ?_
    split
    · next rest =>
      have hrest := ho rest rfl
      refine Exec.Ensures.bind (ih false rest out (by omega)) fun _ _ => ?_
      trivial
    · unfold expandNext
      split
      · next hopens =>
        obtain ⟨s, rfl⟩ := exists_of_opens hopens
        rw [List.length_cons, List.length_cons] at hlen
        dsimp only
        split
        · refine Exec.Ensures.bind (emit_ends _ _ _) fun out' _ => ih _ _ _ ?_
          rw [List.length_tail, List.length_drop, List.tail_cons, List.tail_cons]
          omega
        · trivial
      · split
        · refine Exec.Ensures.bind (emit_ends _ _ _) fun _ _ => ?_
          trivial
        · refine Exec.Ensures.bind (emit_ends _ _ _) fun out' _ => ih _ _ _ ?_
          simpa using hlen

theorem macroPasses_ends (builtins : Builtins) (text : CString) :
    (macroPasses builtins text).Ensures True fun _ => True := by
  unfold macroPasses
  refine Exec.Ensures.bind (loadFrom_ends _ _ _ (Nat.lt_succ_self _)) fun defs _ => ?_
  dsimp only
  split
  · trivial
  · refine Exec.Ensures.bind (expandFrom_ends _ _ _ _ _ _ (Nat.lt_succ_self _)) fun _ _ => ?_
    trivial

/-- The load pass has recorded the definitions among the lines, the expansion pass has removed what
was recorded, and the rest has its uses expanded; of two definitions of a name the last counts. -/
def Agree (builtins : Builtins) (lines : List CString) (r : MacroPasses) : Prop :=
  r.definitions.map (·.toMacro) = lines.filterMap defLine ∧ r.removed = r.definitions.map (·.range) ∧
    ExpandedTo ((lines.filterMap defLine).reverse ++ builtins.macros) lines r.text

/-- The built-in values of an x86-64 on a BIOS. -/
def biosBuiltins : Builtins :=
  { arch := [120, 56, 54, 45, 54, 52], fwType := [66, 73, 79, 83], loaderArch := [105, 97, 45, 51, 50] }

end Limine.Config
