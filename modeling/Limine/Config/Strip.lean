import Limine.Config.Init
import Mathlib

/-!
# What is left of the whitespace

Line by line, what the first loop of `init_config` leaves of the text.  The blanks at the end of a line
are looked for before the carriage return behind them is gone, so that they stay in front of one.
-/

namespace Limine.Config
open Limine.Lib
open Limine.Menu (CString)

/-! ## Lines -/

def linesOf (text : CString) : List CString := text.splitOn separator

/-- Each line with its line end. -/
def joined (lines : List CString) : CString := lines.flatMap (· ++ [separator])

def trim (line : CString) : CString := (line.dropWhile isBlank).rdropWhile isBlank

theorem joined_cons (line : CString) (lines : List CString) :
    joined (line :: lines) = line ++ separator :: joined lines := by
  unfold joined
  rw [List.flatMap_cons, List.append_assoc, List.singleton_append]

theorem joined_linesOf (text : CString) : joined (linesOf text) = text ++ [separator] := by
  unfold linesOf
  induction text with
  | nil => rfl
  | cons c text ih =>
    rw [List.splitOn_cons_eq_if_modifyHead]
    split
    · next hc =>
      rw [joined_cons, ih, beq_iff_eq.mp hc]
      rfl
    · obtain ⟨line, lines, hlines⟩ := List.exists_cons_of_ne_nil (List.splitOn_ne_nil separator text)
      rw [hlines, joined_cons] at ih
      rw [hlines, List.modifyHead_cons, joined_cons, List.cons_append, List.cons_append, ih]

theorem separator_not_mem_linesOf (text : CString) : ∀ line ∈ linesOf text, separator ∉ line := by
  unfold linesOf
  induction text with
  | nil => simp
  | cons c text ih =>
    rw [List.splitOn_cons_eq_if_modifyHead]
    split
    · simpa using ih
    · next hc =>
      obtain ⟨line, lines, hlines⟩ := List.exists_cons_of_ne_nil (List.splitOn_ne_nil separator text)
      rw [hlines] at ih ⊢
      rw [List.modifyHead_cons]
      intro l hl
      rcases List.mem_cons.mp hl with rfl | hl
      · rw [List.mem_cons, not_or]
        exact ⟨fun heq => hc (by simp [heq]), ih line (by simp)⟩
      · exact ih l (by simp [hl])

theorem joined_inj {l : List CString} (hl : ∀ line ∈ l, separator ∉ line) : ∀ {m : List CString},
    (∀ line ∈ m, separator ∉ line) → joined l = joined m → l = m := by
  induction l with
  | nil =>
    intro m _ h
    cases m with
    | nil => rfl
    | cons line m =>
      rw [joined_cons] at h
      simp [joined] at h
  | cons line l ih =>
    intro m hm h
    cases m with
    | nil =>
      rw [joined_cons] at h
      simp [joined] at h
    | cons line' m =>
      rw [joined_cons, joined_cons] at h
      have hsplit := congrArg (List.splitOn separator) h
      rw [List.splitOn_append_cons_self_of_not_mem (hl line (by simp)),
        List.splitOn_append_cons_self_of_not_mem (hm line' (by simp))] at hsplit
      have hline : line = line' := (List.cons.inj hsplit).1
      subst hline
      have hrest : joined l = joined m := by simpa using h
      rw [ih (fun line hline => hl line (by simp [hline])) (fun line hline => hm line (by simp [hline])) hrest]

/-- Nothing but a separator parts lines. -/
theorem linesOf_filter {p : UInt8 → Bool} (hp : p separator = true) (text : CString) :
    linesOf (text.filter p) = (linesOf text).map fun line => line.filter p := by
  unfold linesOf
  induction text with
  | nil => rfl
  | cons c text ih =>
    obtain ⟨line, lines, hlines⟩ := List.exists_cons_of_ne_nil (List.splitOn_ne_nil separator text)
    rw [List.splitOn_cons_eq_if_modifyHead]
    by_cases hc : c = separator
    · subst hc
      rw [List.filter_cons_of_pos hp, List.splitOn_cons_eq_if_modifyHead, if_pos (by simp), if_pos (by simp), ih]
      rfl
    · rw [if_neg (by simpa using hc)]
      cases hpc : p c with
      | true =>
        rw [List.filter_cons_of_pos hpc, List.splitOn_cons_eq_if_modifyHead, if_neg (by simpa using hc), ih, hlines]
        simp [hpc]
      | false =>
        rw [List.filter_cons_of_neg (by simp [hpc]), ih, hlines]
        simp [hpc]

/-! ## One line -/

/-- What is taken out at the start of a line. -/
def isStripped (c : UInt8) : Bool := isBlank c || c = carriageReturn

def notReturn (c : UInt8) : Bool := c ≠ carriageReturn

/-- What the loop leaves of a line. -/
def stripLine (line : CString) : CString := ((line.dropWhile isStripped).rdropWhile isBlank).filter notReturn

theorem isBlank_separator : isBlank separator = false := by decide

theorem isStripped_separator : isStripped separator = false := by decide

theorem isBlank_return : isBlank carriageReturn = false := by decide

/-- A run of blanks is followed by the line end only where the rest of the line is blank. -/
theorem blanks_before_end {line rest : CString} (hline : separator ∉ line) :
    (line ++ separator :: rest)[((line ++ separator :: rest).takeWhile isBlank).length]? = some separator ↔
      ∀ c ∈ line, isBlank c = true := by
  induction line with
  | nil => simp [isBlank_separator]
  | cons c line ih =>
    rw [List.mem_cons, not_or] at hline
    cases hc : isBlank c with
    | true =>
      rw [List.cons_append, List.takeWhile_cons_of_pos hc, List.length_cons, List.getElem?_cons_succ, ih hline.2]
      simp [hc]
    | false =>
      rw [List.cons_append, List.takeWhile_cons_of_neg (by simp [hc])]
      simp [hc, Ne.symm hline.1]

theorem takeWhile_line {p : UInt8 → Bool} (hp : p separator = false) (line rest : CString) :
    (line ++ separator :: rest).takeWhile p = line.takeWhile p := by
  induction line with
  | nil => simp [hp]
  | cons c line ih =>
    rw [List.cons_append, List.takeWhile_cons, List.takeWhile_cons, ih]

/-- The blanks of a blank line, and else what may stand here. -/
theorem skipCount_line {line rest : CString} (hline : separator ∉ line) (prev : Option UInt8) :
    skipCount prev (line ++ separator :: rest) =
      if ∀ c ∈ line, isBlank c = true then line.length
      else (line.takeWhile fun c =>
        c = carriageReturn || (prev = none || prev = some separator) && isBlank c).length := by
  have hsep : separator ≠ carriageReturn := by decide
  have hend := @blanks_before_end line rest hline
  rw [takeWhile_line isBlank_separator] at hend
  unfold skipCount
  dsimp only
  rw [takeWhile_line isBlank_separator, takeWhile_line (by simp [hsep, isBlank_separator])]
  by_cases hall : ∀ c ∈ line, isBlank c = true
  · have hlen : line.takeWhile isBlank = line := List.takeWhile_eq_self_iff.mpr hall
    rw [hlen] at hend ⊢
    rw [if_pos hall]
    by_cases hpos : 0 < line.length
    · rw [if_pos ⟨hpos, hend.mpr hall⟩]
    · rw [if_neg fun h => hpos h.1, List.length_eq_zero_iff.mp (by omega : line.length = 0)]
      rfl
  · rw [if_neg fun h => hall (hend.mp h.2), if_neg hall]

theorem drop_takeWhile_line (p : UInt8 → Bool) (line rest : CString) :
    (line ++ rest).drop (line.takeWhile p).length = line.dropWhile p ++ rest := by
  rw [List.drop_append_of_le_length (List.takeWhile_sublist p).length_le, dropWhile_eq_drop]

/-- The loop goes on alike with any fuel that is enough. -/
def Strips (prev : Option UInt8) (text r : CString) : Prop :=
  ∀ fuel, text.length < fuel → stripFrom fuel prev text = .ok r

theorem Strips.emit {prev : Option UInt8} {c : UInt8} {rest r : CString} (hskip : skipCount prev (c :: rest) = 0)
    (h : Strips (some c) rest r) : Strips prev (c :: rest) (c :: r) := by
  intro fuel hfuel
  rw [List.length_cons] at hfuel
  obtain ⟨fuel, rfl⟩ := Nat.exists_eq_succ_of_ne_zero (by omega : fuel ≠ 0)
  rw [stripFrom.eq_def]
  dsimp only
  rw [if_neg (by simp [hskip]), h fuel (by omega)]
  rfl

theorem Strips.skip {prev : Option UInt8} {text r : CString} (hskip : skipCount prev text ≠ 0)
    (h : Strips prev (text.drop (skipCount prev text)) r) : Strips prev text r := by
  intro fuel hfuel
  obtain ⟨fuel, rfl⟩ := Nat.exists_eq_succ_of_ne_zero (by omega : fuel ≠ 0)
  have hle := skipCount_le prev text
  rw [stripFrom.eq_def]
  dsimp only
  rw [if_pos hskip]
  apply h
  rw [List.length_drop]
  omega

theorem Strips.lineEnd {rest r : CString} (h : Strips (some separator) rest r) (prev : Option UInt8) :
    Strips prev (separator :: rest) (separator :: r) := by
  refine h.emit ?_
  have hskip := @skipCount_line [] rest (by simp) prev
  simpa using hskip

/-- Returns in front leave nothing. -/
theorem filter_dropReturns (line : CString) :
    ((line.dropWhile fun c => c = carriageReturn).rdropWhile isBlank).filter notReturn =
      (line.rdropWhile isBlank).filter notReturn := by
  induction line with
  | nil => rfl
  | cons c line ih =>
    by_cases hc : c = carriageReturn
    · subst hc
      rw [List.dropWhile_cons_of_pos (by simp), rdropWhile_cons ⟨_, by simp, isBlank_return⟩, ih,
        List.filter_cons_of_neg (by simp [notReturn])]
    · rw [List.dropWhile_cons_of_neg (by simp [hc])]

/-- Inside a line the blanks before its end go, and every return. -/
theorem strips_inside {rest r : CString} (h : Strips (some separator) rest r) : ∀ (n : Nat) (line : CString),
    line.length ≤ n → separator ∉ line → ∀ prev : UInt8, prev ≠ separator →
    Strips (some prev) (line ++ separator :: rest) ((line.rdropWhile isBlank).filter notReturn ++ separator :: r) := by
  intro n
  induction n with
  | zero =>
    intro line hlen _ prev _
    rw [List.length_eq_zero_iff.mp (by omega : line.length = 0)]
    exact h.lineEnd (some prev)
  | succ n ih =>
    intro line hlen hline prev hprev
    have hskip := @skipCount_line _ rest hline (some prev)
    cases line with
    | nil => exact h.lineEnd (some prev)
    | cons c line =>
      rw [List.length_cons] at hlen
      have hline' := hline
      rw [List.mem_cons, not_or] at hline
      by_cases hall : ∀ b ∈ c :: line, isBlank b = true
      · rw [if_pos hall] at hskip
        refine Strips.skip (by rw [hskip]; simp) ?_
        rw [hskip, List.drop_left, List.rdropWhile_eq_nil_iff.mpr hall]
        exact h.lineEnd (some prev)
      · rw [if_neg hall] at hskip
        have hreturns : (fun c => decide (c = carriageReturn) ||
            (decide (some prev = none) || decide (some prev = some separator)) && isBlank c) =
            fun c => decide (c = carriageReturn) := by
          funext c
          simp [hprev]
        rw [hreturns] at hskip
        by_cases hc : c = carriageReturn
        · refine Strips.skip ?_ ?_
          · rw [hskip, List.takeWhile_cons_of_pos (by simp [hc])]
            simp
          · rw [hskip, drop_takeWhile_line, ← filter_dropReturns, List.dropWhile_cons_of_pos (by simp [hc])]
            have hsub : (line.dropWhile fun c => c = carriageReturn).Sublist line := List.dropWhile_sublist _
            exact ih _ (hsub.length_le.trans (by omega)) (fun hmem => hline.2 (hsub.mem hmem)) prev hprev
        · have hkeep : Strips (some prev) (c :: (line ++ separator :: rest))
              (c :: ((line.rdropWhile isBlank).filter notReturn ++ separator :: r)) := by
            refine Strips.emit ?_ (ih line (by omega) hline.2 c (Ne.symm hline.1))
            rw [← List.cons_append, hskip, List.takeWhile_cons_of_neg (by simp [hc])]
            rfl
          have hstays : ∃ b ∈ c :: line, isBlank b = false := by
            by_contra hno
            exact hall fun b hb => by
              by_contra hb'
              exact hno ⟨b, hb, by simpa using hb'⟩
          rw [rdropWhile_cons hstays, List.filter_cons_of_pos (by simpa [notReturn] using hc)]
          exact hkeep

theorem isStripped_of_blank {c : UInt8} (h : isBlank c = true) : isStripped c = true := by
  simp [isStripped, h]

/-- A line that starts with text, or is empty. -/
theorem strips_text {line rest r : CString} (h : Strips (some separator) rest r) (hline : separator ∉ line)
    (prev : Option UInt8) (hhead : ∀ c, line.head? = some c → isStripped c = false) :
    Strips prev (line ++ separator :: rest) ((line.rdropWhile isBlank).filter notReturn ++ separator :: r) := by
  cases line with
  | nil => exact h.lineEnd prev
  | cons c line =>
    have hc : isStripped c = false := hhead c rfl
    have hblank : isBlank c = false := by
      by_contra hb
      rw [isStripped_of_blank (by simpa using hb)] at hc
      cases hc
    have hreturn : notReturn c = true := by
      simp only [isStripped, Bool.or_eq_false_iff] at hc
      simpa [notReturn] using hc.2
    have hskip := @skipCount_line _ rest hline prev
    rw [List.mem_cons, not_or] at hline
    have hkeep : Strips prev (c :: (line ++ separator :: rest))
        (c :: ((line.rdropWhile isBlank).filter notReturn ++ separator :: r)) := by
      refine Strips.emit ?_ (strips_inside h line.length line (Nat.le_refl _) hline.2 c (Ne.symm hline.1))
      rw [← List.cons_append, hskip, if_neg fun hall => by simp [hall c (by simp)] at hblank,
        List.takeWhile_cons_of_neg]
      · rfl
      · simpa [hblank, notReturn] using hreturn
    rw [rdropWhile_cons ⟨c, by simp, hblank⟩, List.filter_cons_of_pos hreturn]
    exact hkeep

/-- At the start of a line everything goes up to its text. -/
theorem strips_line {line rest r : CString} (h : Strips (some separator) rest r) (hline : separator ∉ line)
    {prev : Option UInt8} (hprev : prev = none ∨ prev = some separator) :
    Strips prev (line ++ separator :: rest) (stripLine line ++ separator :: r) := by
  have hskip := @skipCount_line _ rest hline prev
  have hsub : (line.dropWhile isStripped).Sublist line := List.dropWhile_sublist _
  have htext := strips_text h (fun hmem => hline (hsub.mem hmem)) prev fun c hc => by
    have hnot := List.head?_dropWhile_not isStripped line
    rw [hc] at hnot
    simpa using hnot
  have hstart : (fun c => decide (c = carriageReturn) ||
      (decide (prev = none) || decide (prev = some separator)) && isBlank c) = isStripped := by
    funext c
    rcases hprev with rfl | rfl
    · simp [isStripped, Bool.or_comm]
    · simp [isStripped, Bool.or_comm]
  rw [hstart] at hskip
  have htaken : skipCount prev (line ++ separator :: rest) = (line.takeWhile isStripped).length := by
    rw [hskip]
    split
    · next hall => rw [List.takeWhile_eq_self_iff.mpr fun c hc => isStripped_of_blank (hall c hc)]
    · rfl
  by_cases hzero : skipCount prev (line ++ separator :: rest) = 0
  · have hsame : line.dropWhile isStripped = line := by
      rw [dropWhile_eq_drop, ← htaken, hzero, List.drop_zero]
    rw [hsame] at htext
    unfold stripLine
    rw [hsame]
    exact htext
  · refine Strips.skip hzero ?_
    rw [htaken, drop_takeWhile_line]
    exact htext

/-- **The loop, line by line.** -/
theorem strips_lines (lines : List CString) (hlines : ∀ line ∈ lines, separator ∉ line) :
    ∀ {prev : Option UInt8}, prev = none ∨ prev = some separator →
    Strips prev (joined lines) (joined (lines.map stripLine)) := by
  induction lines with
  | nil =>
    intro prev _ fuel hfuel
    obtain ⟨fuel, rfl⟩ := Nat.exists_eq_succ_of_ne_zero (by omega : fuel ≠ 0)
    rfl
  | cons line lines ih =>
    intro prev hprev
    rw [List.map_cons, joined_cons, joined_cons]
    exact strips_line (ih (fun l hl => hlines l (by simp [hl])) (Or.inr rfl)) (hlines line (by simp)) hprev

/-! ## What is meant and what is done -/

/-- The text without its returns, each of its lines trimmed. -/
def normalised (text : CString) : CString := joined ((linesOf (text.filter notReturn)).map trim)

/-- Behind the text of a line a blank, and a carriage return behind that. -/
def Spoilt (line : CString) : Prop :=
  ∃ text b rest, line = text ++ b :: carriageReturn :: rest ∧ isBlank b = true ∧
    (∀ c ∈ rest, isStripped c = true) ∧ ∃ c ∈ text, isStripped c = false

theorem dropWhile_filter (line : CString) :
    (line.filter notReturn).dropWhile isBlank = (line.dropWhile isStripped).filter notReturn := by
  induction line with
  | nil => rfl
  | cons c line ih =>
    by_cases hc : c = carriageReturn
    · subst hc
      rw [List.filter_cons_of_neg (by simp [notReturn]), ih, List.dropWhile_cons_of_pos (by simp [isStripped])]
    · have hkeep : notReturn c = true := by simpa [notReturn] using hc
      have hsame : isStripped c = isBlank c := by simp [isStripped, hc]
      rw [List.filter_cons_of_pos hkeep]
      cases hb : isBlank c with
      | true => rw [List.dropWhile_cons_of_pos hb, List.dropWhile_cons_of_pos (by rw [hsame, hb]), ih]
      | false =>
        rw [List.dropWhile_cons_of_neg (by simp [hb]), List.dropWhile_cons_of_neg (by simp [hsame, hb]),
          List.filter_cons_of_pos hkeep]

theorem rdropWhile_filter (line : CString) :
    (line.filter notReturn).rdropWhile isBlank = (line.rdropWhile isStripped).filter notReturn := by
  unfold List.rdropWhile
  rw [← List.filter_reverse, dropWhile_filter, List.filter_reverse]

theorem trim_filter (line : CString) :
    trim (line.filter notReturn) = ((line.dropWhile isStripped).rdropWhile isStripped).filter notReturn := by
  unfold trim
  rw [dropWhile_filter, rdropWhile_filter]

theorem blank_of_stripped {c : UInt8} (h : isStripped c = true) (hc : notReturn c = true) : isBlank c = true := by
  simp only [isStripped, notReturn, Bool.or_eq_true, decide_eq_true_eq, ne_eq, decide_not,
    Bool.not_eq_eq_eq_not, Bool.not_true, decide_eq_false_iff_not] at h hc
  exact h.resolve_right hc

theorem return_of_stripped {c : UInt8} (h : isStripped c = true) (hc : isBlank c = false) :
    c = carriageReturn := by
  simpa [isStripped, hc] using h

/-- Between a blank and a return at the end one blank stands in front of a return. -/
theorem blank_return_of_mem : ∀ (run : CString), (∀ c ∈ run, isStripped c = true) →
    (∃ b ∈ run, isBlank b = true) → (∀ c, run.getLast? = some c → isBlank c = false) →
    ∃ a b rest, run = a ++ b :: carriageReturn :: rest ∧ isBlank b = true := by
  intro run
  induction run with
  | nil =>
    rintro _ ⟨b, hb, -⟩ _
    cases hb
  | cons c run ih =>
    intro hrun hblank hlast
    cases run with
    | nil =>
      obtain ⟨b, hb, hbb⟩ := hblank
      rw [List.mem_singleton.mp hb, hlast c rfl] at hbb
      cases hbb
    | cons d run =>
      by_cases hrest : ∃ b ∈ d :: run, isBlank b = true
      · obtain ⟨a, b, rest, hsplit, hb⟩ := ih (fun e he => hrun e (List.mem_cons_of_mem c he)) hrest
          fun e he => hlast e (by rwa [List.getLast?_cons_cons])
        exact ⟨c :: a, b, rest, by rw [hsplit, List.cons_append], hb⟩
      · have hd : isBlank d = false := by
          by_contra hb
          exact hrest ⟨d, by simp, by simpa using hb⟩
        obtain ⟨b, hb, hbb⟩ := hblank
        rcases List.mem_cons.mp hb with rfl | hb
        · exact ⟨[], b, run, by rw [return_of_stripped (hrun d (by simp)) hd]; rfl, hbb⟩
        · exact absurd ⟨b, hb, hbb⟩ hrest

/-- A run of blanks and returns keeps a blank where one stands in front of a return. -/
theorem run_keeps_iff (run : CString) (hrun : ∀ c ∈ run, isStripped c = true) :
    (run.rdropWhile isBlank).filter notReturn ≠ [] ↔
      ∃ a b rest, run = a ++ b :: carriageReturn :: rest ∧ isBlank b = true := by
  constructor
  · intro hne
    obtain ⟨c, hc⟩ := List.exists_mem_of_ne_nil _ hne
    rw [List.mem_filter] at hc
    have hpre := List.rdropWhile_prefix isBlank run
    obtain ⟨a, b, rest, hsplit, hb⟩ := blank_return_of_mem (run.rdropWhile isBlank)
      (fun c hc => hrun c (hpre.mem hc)) ⟨c, hc.1, blank_of_stripped (hrun c (hpre.mem hc.1)) hc.2⟩ (by
        intro d hd
        have hne' := List.ne_nil_of_mem hc.1
        have hlast := List.rdropWhile_last_not isBlank run hne'
        rw [List.getLast?_eq_some_getLast hne', Option.some.injEq] at hd
        rw [hd] at hlast
        simpa using hlast)
    obtain ⟨behind, hbehind⟩ := hpre
    refine ⟨a, b, rest ++ behind, ?_, hb⟩
    rw [← hbehind, hsplit]
    simp
  · rintro ⟨a, b, rest, rfl, hb⟩
    have hstays : (carriageReturn :: rest).rdropWhile isBlank = carriageReturn :: rest.rdropWhile isBlank :=
      rdropWhile_cons ⟨_, by simp, isBlank_return⟩
    have hmem : b ∈ ((a ++ b :: carriageReturn :: rest).rdropWhile isBlank).filter notReturn := by
      rw [List.append_cons, rdropWhile_append (Or.inl (by rw [hstays]; simp)), List.mem_filter]
      refine ⟨by simp, ?_⟩
      unfold notReturn
      by_contra hcr
      rw [show b = carriageReturn by simpa using hcr, isBlank_return] at hb
      cases hb
    exact List.ne_nil_of_mem hmem

theorem core_keeps (line : CString) :
    (line.rdropWhile isStripped).rdropWhile isBlank = line.rdropWhile isStripped := by
  rw [List.rdropWhile_eq_self_iff]
  intro hne hblank
  exact List.rdropWhile_last_not isStripped line hne (isStripped_of_blank hblank)

/-- What is left of a line is its text, and what the run of blanks and returns behind it keeps. -/
theorem stripLine_eq (line : CString) : stripLine line =
    trim (line.filter notReturn) ++
      (((line.dropWhile isStripped).rtakeWhile isStripped).rdropWhile isBlank).filter notReturn := by
  have hcore := core_keeps (line.dropWhile isStripped)
  unfold stripLine
  rw [trim_filter, ← List.filter_append, ← rdropWhile_append (Or.inr hcore),
    List.rdropWhile_append_rtakeWhile]

/-- A line whose blanks and returns at its front are gone has text, or is empty. -/
theorem text_of_dropped {line : CString} (hne : (line.dropWhile isStripped).rtakeWhile isStripped ≠ []) :
    ∃ c ∈ (line.dropWhile isStripped).rdropWhile isStripped, isStripped c = false := by
  have hdropped : line.dropWhile isStripped ≠ [] := by
    rintro hnil
    rw [hnil] at hne
    exact hne rfl
  obtain ⟨c, rest, hcons⟩ := List.exists_cons_of_ne_nil hdropped
  have hc : isStripped c = false := by
    have hnot := List.head?_dropWhile_not isStripped line
    rw [hcons] at hnot
    simpa using hnot
  rw [hcons, rdropWhile_cons ⟨c, by simp, hc⟩]
  exact ⟨c, by simp, hc⟩

theorem stripLine_eq_iff (line : CString) : stripLine line = trim (line.filter notReturn) ↔ ¬Spoilt line := by
  have hrun : ∀ c ∈ (line.dropWhile isStripped).rtakeWhile isStripped, isStripped c = true :=
    fun c hc => List.mem_rtakeWhile_imp hc
  rw [stripLine_eq, List.append_right_eq_self, ← not_iff_not, not_not, ← ne_eq, run_keeps_iff _ hrun]
  constructor
  · rintro ⟨a, b, rest, hsplit, hb⟩
    obtain ⟨c, hc, hcs⟩ := @text_of_dropped line (by rw [hsplit]; simp)
    refine ⟨line.takeWhile isStripped ++ (line.dropWhile isStripped).rdropWhile isStripped ++ a, b, rest,
      ?_, hb, fun d hd => hrun d (by simp [hsplit, hd]), c, by simp [hc], hcs⟩
    rw [List.append_assoc, List.append_assoc, ← hsplit, List.rdropWhile_append_rtakeWhile,
      List.takeWhile_append_dropWhile]
  · rintro ⟨text, b, rest, rfl, hb, hrest, c, hc, hcs⟩
    have hdropped : (text ++ b :: carriageReturn :: rest).dropWhile isStripped =
        text.dropWhile isStripped ++ b :: carriageReturn :: rest := by
      rw [List.dropWhile_append, if_neg]
      rw [List.isEmpty_iff, List.dropWhile_eq_nil_iff]
      intro hall
      rw [hall c hc] at hcs
      cases hcs
    have hend : ∀ d ∈ b :: carriageReturn :: rest, isStripped d = true := by
      intro d hd
      rcases List.mem_cons.mp hd with rfl | hd
      · exact isStripped_of_blank hb
      rcases List.mem_cons.mp hd with rfl | hd
      · rfl
      · exact hrest d hd
    rw [hdropped, rtakeWhile_append hend]
    exact ⟨_, b, rest, rfl, hb⟩

/-! ## The whole text -/

theorem linesOf_joined {lines : List CString} (hlines : ∀ line ∈ lines, separator ∉ line) :
    linesOf (joined lines) = lines ++ [[]] := by
  apply joined_inj (separator_not_mem_linesOf _)
  · intro line hline
    rcases List.mem_append.mp hline with hline | hline
    · exact hlines line hline
    · rw [List.mem_singleton.mp hline]
      simp
  · rw [joined_linesOf]
    simp [joined]

theorem mem_of_mem_trim {line : CString} {c : UInt8} (h : c ∈ trim line) : c ∈ line :=
  (List.dropWhile_sublist _).mem ((List.rdropWhile_prefix _ _).mem h)

/-- No blank at its front and none at its end. -/
structure Trimmed (line : CString) : Prop where
  front : ∀ c, line.head? = some c → isBlank c = false
  back : ∀ c, line.getLast? = some c → isBlank c = false

theorem trim_trimmed (line : CString) : Trimmed (trim line) := by
  constructor
  · intro c hc
    by_cases hstays : ∃ b ∈ line.dropWhile isBlank, isBlank b = false
    · obtain ⟨d, rest, hcons⟩ : ∃ d rest, line.dropWhile isBlank = d :: rest := by
        obtain ⟨b, hb, -⟩ := hstays
        exact List.exists_cons_of_ne_nil (List.ne_nil_of_mem hb)
      have hnot := List.head?_dropWhile_not isBlank line
      rw [hcons] at hnot hstays
      unfold trim at hc
      rw [hcons, rdropWhile_cons hstays, List.head?_cons, Option.some.injEq] at hc
      rw [← hc]
      simpa using hnot
    · have hall : ∀ b ∈ line.dropWhile isBlank, isBlank b = true := by
        intro b hb
        by_contra hb'
        exact hstays ⟨b, hb, by simpa using hb'⟩
      unfold trim at hc
      rw [List.rdropWhile_eq_nil_iff.mpr hall] at hc
      cases hc
  · intro c hc
    have hne : trim line ≠ [] := by
      intro hnil
      rw [hnil] at hc
      cases hc
    have hlast := List.rdropWhile_last_not isBlank (line.dropWhile isBlank) hne
    rw [List.getLast?_eq_some_getLast hne, Option.some.injEq] at hc
    unfold trim at hc
    rw [hc] at hlast
    simpa using hlast

theorem stripLine_of_trimmed {line : CString} (h : Trimmed line) (hreturn : carriageReturn ∉ line) :
    stripLine line = line := by
  have hkeep : ∀ c ∈ line, notReturn c = true := by
    intro c hc
    unfold notReturn
    rw [decide_eq_true_eq]
    rintro rfl
    exact hreturn hc
  have hfront : line.dropWhile isStripped = line := by
    cases line with
    | nil => rfl
    | cons c line =>
      have hc := h.front c rfl
      apply List.dropWhile_cons_of_neg
      intro hs
      rw [blank_of_stripped hs (hkeep c (by simp))] at hc
      cases hc
  have hback : line.rdropWhile isBlank = line := by
    rw [List.rdropWhile_eq_self_iff]
    intro hne hblank
    rw [h.back _ (List.getLast?_eq_some_getLast hne)] at hblank
    cases hblank
  unfold stripLine
  rw [hfront, hback, List.filter_eq_self.mpr hkeep]

/-- What the text is to be once the loop is through. -/
structure Normalised (raw text : CString) : Prop where
  text_eq : text = normalised raw
  noReturn : carriageReturn ∉ text
  trimmed : ∀ line ∈ linesOf text, Trimmed line
  again : stripFrom (text.length + 1) none text = .ok text

theorem normalised_eq (raw : CString) :
    normalised raw = joined ((linesOf raw).map fun line => trim (line.filter notReturn)) := by
  unfold normalised
  rw [linesOf_filter (by decide), List.map_map]
  rfl

theorem normalised_holds (raw : CString) : Normalised raw (normalised raw) := by
  have hmem : ∀ line ∈ (linesOf raw).map (fun line => trim (line.filter notReturn)),
      Trimmed line ∧ separator ∉ line ∧ carriageReturn ∉ line := by
    intro line hline
    obtain ⟨l, hl, rfl⟩ := List.mem_map.mp hline
    refine ⟨trim_trimmed _, fun hsep => ?_, fun hret => ?_⟩
    · exact separator_not_mem_linesOf raw l hl (List.mem_filter.mp (mem_of_mem_trim hsep)).1
    · have hnot := (List.mem_filter.mp (mem_of_mem_trim hret)).2
      simp [notReturn] at hnot
  rw [normalised_eq]
  generalize hlines : (linesOf raw).map (fun line => trim (line.filter notReturn)) = lines at hmem
  have hsame : lines.map stripLine = lines := by
    conv_rhs => rw [← List.map_id lines]
    exact List.map_congr_left fun line hline => stripLine_of_trimmed (hmem line hline).1 (hmem line hline).2.2
  constructor
  · rw [normalised_eq, hlines]
  · intro hret
    obtain ⟨line, hline, hc⟩ := List.mem_flatMap.mp hret
    rcases List.mem_append.mp hc with hc | hc
    · exact (hmem line hline).2.2 hc
    · exact absurd (List.mem_singleton.mp hc) (by decide)
  · rw [linesOf_joined fun line hline => (hmem line hline).2.1]
    intro line hline
    rcases List.mem_append.mp hline with hline | hline
    · exact (hmem line hline).1
    · rw [List.mem_singleton.mp hline]
      exact ⟨by simp, by simp⟩
  · have hstrips := @strips_lines lines (fun line hline => (hmem line hline).2.1) none (Or.inl rfl)
    rw [hsame] at hstrips
    exact hstrips _ (Nat.lt_succ_self _)

/-- **The loop ends on every text, and leaves it normalised where no line is spoilt and only there.** -/
theorem strip_normalises_iff (raw : CString) : ∃ text,
    stripFrom ((raw ++ [separator]).length + 1) none (raw ++ [separator]) = .ok text ∧
      (Normalised raw text ↔ ∀ line ∈ linesOf raw, ¬Spoilt line) := by
  have hlines := separator_not_mem_linesOf raw
  have hstrips := @strips_lines (linesOf raw) hlines none (Or.inl rfl)
  rw [joined_linesOf] at hstrips
  refine ⟨_, hstrips _ (Nat.lt_succ_self _), ?_⟩
  have heq : joined ((linesOf raw).map stripLine) = normalised raw ↔
      ∀ line ∈ linesOf raw, stripLine line = trim (line.filter notReturn) := by
    rw [normalised_eq, ← List.map_inj_left]
    refine ⟨fun h => joined_inj ?_ ?_ h, fun h => by rw [h]⟩
    · intro line hline hsep
      obtain ⟨l, hl, rfl⟩ := List.mem_map.mp hline
      have hmem := (List.rdropWhile_prefix _ _).mem (List.mem_filter.mp hsep).1
      exact hlines l hl ((List.dropWhile_sublist _).mem hmem)
    · intro line hline hsep
      obtain ⟨l, hl, rfl⟩ := List.mem_map.mp hline
      exact hlines l hl (List.mem_filter.mp (mem_of_mem_trim hsep)).1
  constructor
  · intro h line hline
    exact (stripLine_eq_iff line).mp (heq.mp h.text_eq line hline)
  · intro h
    rw [heq.mpr fun line hline => (stripLine_eq_iff line).mpr (h line hline)]
    exact normalised_holds raw

/-- `a`, a blank, a carriage return: the blank stays. -/
theorem strip_leaves_blank : ¬∃ text, stripFrom 6 none ([97, 32, 13, 10] ++ [separator]) = .ok text ∧
    Normalised [97, 32, 13, 10] text := by
  rintro ⟨text, hrun, hnormal⟩
  have hleft : stripFrom 6 none ([97, 32, 13, 10] ++ [separator]) = .ok [97, 32, 10, 10] := by decide
  rw [hleft, Except.ok.injEq] at hrun
  have htrimmed := hnormal.trimmed [97, 32] (by rw [← hrun]; decide)
  exact absurd (htrimmed.back 32 rfl) (by decide)

end Limine.Config
