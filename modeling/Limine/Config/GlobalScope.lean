import Limine.Config.Init

/-!
# The global options

The NUL goes one byte before the last slash of the first entry line.  If that is the slash the line
starts with, the byte is the line end before it, and the global options stay as they are; on the first
line of the text there is no such byte, and nothing ends them.

    timeout: 5        timeout: 5            /Linux
    /Linux            /Linux (a/b)          protocol: linux
             ^                 ^            (no NUL)
-/

namespace Limine.Config
open Limine.Lib
open Limine.Menu (CString)

/-- The lines before the first menu entry. -/
def globalSection (config : CString) : CString :=
  match (entryLines none config).head? with
  | none => config
  | some entry => config.take (config.length - entry.length)

/-- The first line of an entry, as far as the last slash in it. -/
def upToSlash (entry : CString) : CString :=
  (entry.take (entry.length - (endOfLine entry).length)).rdropWhile (· ≠ slash)

/-- What is left to be seen from the first entry on. -/
def visible (config : CString) : CString :=
  match (entryLines none config).head? with
  | none => []
  | some entry =>
    if (upToSlash entry).length = 1 then if entry.length = config.length then entry else []
    else (upToSlash entry).take ((upToSlash entry).length - 2)

/-! ## The way back -/

theorem walkBack_eq (text : CString) (n : Nat) :
    walkBack text n = ((text.take (n + 1)).rdropWhile (· ≠ slash)).length - 1 := by
  induction n with
  | zero =>
    have hle := (List.rdropWhile_prefix (· ≠ slash) (text.take (0 + 1))).length_le
    rw [List.length_take] at hle
    rw [walkBack]
    omega
  | succ n ih =>
    rw [walkBack, List.take_add_one]
    cases hc : text[n + 1]? with
    | none => rw [if_pos (by simp), ih, Option.toList_none, List.append_nil]
    | some c =>
      rw [Option.toList_some, List.rdropWhile_concat]
      by_cases hslash : c = slash
      · have hlen := List.getElem?_eq_some_iff.mp hc
        rw [if_neg (by simp [hslash]), if_neg (by simp [hslash]), List.length_append, List.length_take,
          List.length_singleton, Nat.min_eq_left (Nat.le_of_lt hlen.1)]
        omega
      · rw [if_pos (by simp [hslash]), if_pos (by simp [hslash]), ih]

theorem take_of_prefix {α : Type} {l m : List α} (h : l <+: m) {n : Nat} (hn : n ≤ l.length) :
    m.take n = l.take n := by
  obtain ⟨t, rfl⟩ := h
  exact List.take_append_of_le_length hn

theorem getElem?_of_prefix {α : Type} {l m : List α} (h : l <+: m) {n : Nat} (hn : n < l.length) :
    m[n]? = l[n]? := by
  obtain ⟨t, rfl⟩ := h
  exact List.getElem?_append_left hn

section
variable {entry : CString}

theorem endOfLine_append (entry : CString) :
    entry.take (entry.length - (endOfLine entry).length) ++ endOfLine entry = entry := by
  have hsuf : endOfLine entry <:+ entry := (List.dropWhile_suffix _).trans (List.drop_suffix 2 entry)
  obtain ⟨line, hline⟩ := hsuf
  have hlen := congrArg List.length hline
  rw [List.length_append] at hlen
  have htake : entry.take (entry.length - (endOfLine entry).length) = line := by
    rw [← hlen, Nat.add_sub_cancel]
    conv_lhs => rw [← hline]
    exact List.take_left
  rw [htake, hline]

/-- Nothing else is in the line behind its end. -/
theorem head?_endOfLine (entry : CString) : ∀ c, (endOfLine entry).head? = some c → c ≠ slash := by
  intro c hc
  have hstop := List.head?_dropWhile_not (· ≠ separator) (entry.drop 2)
  unfold endOfLine at hc
  rw [hc] at hstop
  have hsep : c = separator := by simpa using hstop
  rw [hsep]
  decide

theorem upToSlash_ne_nil (h : entry.head? = some slash) : ∃ p, upToSlash entry = p ++ [slash] := by
  have hne : upToSlash entry ≠ [] := by
    unfold upToSlash
    rw [Ne, List.rdropWhile_eq_nil_iff, not_forall]
    obtain ⟨t, rfl⟩ : ∃ t, entry = slash :: t := by
      cases entry with
      | nil => cases h
      | cons c t =>
        cases h
        exact ⟨t, rfl⟩
    have hle : (endOfLine (slash :: t)).length ≤ t.length := by
      have h1 := length_dropWhile_le (· ≠ separator) ((slash :: t).drop 2)
      rw [List.length_drop, List.length_cons] at h1
      unfold endOfLine
      omega
    refine ⟨slash, ?_⟩
    rw [List.length_cons, Nat.succ_sub hle]
    simp
  have hlast : ¬decide ((upToSlash entry).getLast hne ≠ slash) = true := List.rdropWhile_last_not _ _ hne
  have heq : (upToSlash entry).getLast hne = slash := by simpa using hlast
  have happ := List.dropLast_append_getLast hne
  rw [heq] at happ
  exact ⟨(upToSlash entry).dropLast, happ.symm⟩

/-- The pointer stops at the last slash of the line. -/
theorem walkBack_line {g line rest : CString} (hrest : ∀ c, rest.head? = some c → c ≠ slash)
    (hne : line.rdropWhile (· ≠ slash) ≠ []) :
    walkBack (g ++ line ++ rest) (g ++ line).length =
      g.length + ((line.rdropWhile (· ≠ slash)).length - 1) := by
  have htake : (g ++ line ++ rest).take ((g ++ line).length + 1) = g ++ line ++ rest.head?.toList := by
    rw [List.take_length_add_append, List.take_one]
  have hdrop : (g ++ line ++ rest.head?.toList).rdropWhile (· ≠ slash) = g ++ line.rdropWhile (· ≠ slash) := by
    cases hc : rest.head? with
    | none => rw [Option.toList_none, List.append_nil, rdropWhile_append (Or.inl hne)]
    | some c => rw [Option.toList_some, List.rdropWhile_concat_pos _ _ _ (by simpa using hrest c hc),
        rdropWhile_append (Or.inl hne)]
  have hpos := List.length_pos_of_ne_nil hne
  rw [walkBack_eq, htake, hdrop, List.length_append]
  omega

theorem walkBack_entry (g : CString) (h : entry.head? = some slash) :
    walkBack (g ++ entry) ((g ++ entry).length - (endOfLine entry).length) =
      g.length + ((upToSlash entry).length - 1) := by
  have happ := endOfLine_append entry
  obtain ⟨p, hp⟩ := upToSlash_ne_nil h
  have hne : upToSlash entry ≠ [] := by simp [hp]
  have hback := walkBack_line (g := g) (head?_endOfLine entry) hne
  rw [List.append_assoc, happ] at hback
  have hlen := congrArg List.length happ
  rw [List.length_append] at hlen
  have hcount : (g ++ entry).length - (endOfLine entry).length =
      (g ++ entry.take (entry.length - (endOfLine entry).length)).length := by
    rw [List.length_append, List.length_append]
    omega
  rw [hcount, hback]
  rfl

/-- With the line end before the entry goes nothing of the global options. -/
theorem globalScope_eq {g : CString} (hentry : (entryLines none (g ++ entry)).head? = some entry) :
    globalScope (g ++ entry) =
      if (upToSlash entry).length = 1 ∧ g ≠ [] then g.dropLast else g ++ visible (g ++ entry) := by
  have hhead : entry.head? = some slash := by
    have hmem := List.mem_of_head? hentry
    unfold entryLines at hmem
    exact of_decide_eq_true (List.mem_filter.mp hmem).2
  obtain ⟨p, hp⟩ := upToSlash_ne_nil hhead
  have hfront : upToSlash entry <+: entry := (List.rdropWhile_prefix _ _).trans (List.take_prefix _ _)
  have hget : configGetEntry (g ++ entry) 0 =
      some (endOfLine entry, (bodyFrom 0 (endOfLine entry)).length) := by
    unfold configGetEntry
    rw [seekEntry_eq, ← List.head?_eq_getElem?, hentry]
    rfl
  have hslash : (g ++ entry)[g.length + ((upToSlash entry).length - 1)]? = some slash := by
    rw [List.getElem?_append_right (by omega), Nat.add_sub_cancel_left,
      getElem?_of_prefix hfront (by rw [hp]; simp), hp]
    simp
  have hlen : (g ++ entry).length = g.length + entry.length := List.length_append
  unfold globalScope visible
  rw [hget, hentry]
  dsimp only
  rw [walkBack_entry g hhead, hslash]
  have hone : (upToSlash entry).length = p.length + 1 := by rw [hp, List.length_append, List.length_singleton]
  by_cases hp0 : p = []
  · have hlen1 : (upToSlash entry).length = 1 := by rw [hone, hp0]; rfl
    rw [hlen1, Nat.sub_self, Nat.add_zero, if_pos rfl]
    by_cases hg : g = []
    · subst hg
      simp
    · have hpos := List.length_pos_of_ne_nil hg
      rw [if_pos ⟨rfl, hpos⟩, if_pos ⟨rfl, hg⟩, List.take_append_of_le_length (by omega), List.dropLast_eq_take]
  · have hpos := List.length_pos_of_ne_nil hp0
    have hcount : g.length + ((upToSlash entry).length - 1) - 1 = g.length + ((upToSlash entry).length - 2) := by
      omega
    rw [if_pos ⟨rfl, by omega⟩, if_neg (by omega), if_neg (by omega), hcount, List.take_length_add_append,
      take_of_prefix hfront (by omega)]

end

/-! ## The options in a part of the text -/

theorem startsWith_append {key s : CString} (v : CString) (h : key.length ≤ s.length) :
    startsWith key (s ++ v) = startsWith key s := by
  induction key generalizing s with
  | nil => rw [startsWith, startsWith]
  | cons k ks ih =>
    cases s with
    | nil => cases h
    | cons c cs =>
      rw [List.cons_append, startsWith, startsWith, ih (Nat.le_of_succ_le_succ h)]

theorem startsWith_self (key v : CString) : startsWith key (key ++ v) = true := by
  induction key with
  | nil => rw [startsWith]
  | cons k ks ih =>
    rw [List.cons_append, startsWith, ih]
    simp

theorem length_of_startsWith {key s : CString} (h : startsWith key s = true) : key.length ≤ s.length := by
  induction key generalizing s with
  | nil => exact Nat.zero_le _
  | cons k ks ih =>
    cases s with
    | nil => cases h
    | cons c cs =>
      rw [startsWith, Bool.and_eq_true] at h
      exact Nat.succ_le_succ (ih h.2)

/-- What is found in a line is found in the line with more behind it. -/
theorem afterKey_append_some {key s rest : CString} (v : CString) (h : afterKey key s = some rest) :
    afterKey key (s ++ v) = some (rest ++ v) ∧ s = s.take key.length ++ colon :: rest := by
  unfold afterKey at h ⊢
  split at h
  · next hmatch =>
    cases h
    rw [Bool.and_eq_true, decide_eq_true_iff] at hmatch
    obtain ⟨hlen, hcolon⟩ := List.getElem?_eq_some_iff.mp hmatch.2
    have hsplit : s = s.take key.length ++ colon :: s.drop (key.length + 1) := by
      rw [← hcolon, ← List.drop_eq_getElem_cons hlen, List.take_append_drop]
    refine ⟨?_, hsplit⟩
    rw [startsWith_append v (Nat.le_of_lt hlen), hmatch.1, List.getElem?_append_left hlen, hmatch.2,
      List.drop_append_of_le_length (by omega)]
    simp
  · cases h

/-- And nothing more, if there is no colon in it. -/
theorem afterKey_append_none {key s v : CString} (hv : colon ∉ v) (h : afterKey key s = none) :
    afterKey key (s ++ v) = none := by
  unfold afterKey at h ⊢
  split at h
  · cases h
  · next hno =>
    rw [if_neg]
    rw [Bool.and_eq_true, decide_eq_true_iff] at hno ⊢
    rintro ⟨hstart, hcolon⟩
    by_cases hlen : key.length < s.length
    · rw [List.getElem?_append_left hlen] at hcolon
      rw [startsWith_append v (Nat.le_of_lt hlen)] at hstart
      exact hno ⟨hstart, hcolon⟩
    · rw [List.getElem?_append_right (Nat.le_of_not_lt hlen)] at hcolon
      exact hv (List.mem_of_getElem? hcolon)

theorem afterKey_no_colon (key : CString) {v : CString} (hv : colon ∉ v) : afterKey key v = none :=
  afterKey_append_none (s := []) hv (by simp [afterKey])

theorem takeWhile_append_of_stop {α : Type} {p : α → Bool} {a : α} (ha : p a = false) {l : List α} (h : a ∈ l)
    (m : List α) : (l ++ m).takeWhile p = l.takeWhile p := by
  induction l with
  | nil => cases h
  | cons b l ih =>
    cases hb : p b with
    | false => simp [hb]
    | true =>
      rcases List.mem_cons.mp h with rfl | h
      · rw [ha] at hb
        cases hb
      · simp [hb, ih h]

/-- A value ends with its line. -/
theorem valueAt_append {rest v : CString} (h : separator ∈ rest ∨ v.head? = some separator) :
    valueAt (rest ++ v) = valueAt rest := by
  have hstop : ∀ u : CString, separator ∈ u ∨ v.head? = some separator →
      (u ++ v).takeWhile (· ≠ separator) = u.takeWhile (· ≠ separator) := by
    rintro u (hu | hv)
    · exact takeWhile_append_of_stop (by simp) hu v
    · exact (takeWhile_upTo (stops (.inr hv) (by simp))).1
  have hblank : ((rest ++ v).dropWhile fun c => c = blank || c = tab).takeWhile (· ≠ separator) =
      (rest.dropWhile fun c => c = blank || c = tab).takeWhile (· ≠ separator) := by
    induction rest with
    | nil =>
      rcases h with h | h
      · cases h
      · cases v with
        | nil => cases h
        | cons c v =>
          cases h
          simp [separator, blank, tab]
    | cons c rest ih =>
      by_cases hc : c = blank ∨ c = tab
      · have hne : separator ≠ c := by
          rcases hc with rfl | rfl
          · decide
          · decide
        have h' : separator ∈ rest ∨ v.head? = some separator := by
          rcases h with h | h
          · exact .inl ((List.mem_cons.mp h).resolve_left hne)
          · exact .inr h
        rw [List.cons_append, List.dropWhile_cons_of_pos (by simpa using hc),
          List.dropWhile_cons_of_pos (by simpa using hc), ih h']
      · rw [List.cons_append, List.dropWhile_cons_of_neg (by simpa using hc),
          List.dropWhile_cons_of_neg (by simpa using hc)]
        exact hstop (c :: rest) h
  unfold valueAt
  rw [hblank]

theorem options_no_colon (key : CString) (prev : Option UInt8) {v : CString} (hv : colon ∉ v) :
    options key prev v = [] := by
  unfold options
  rw [List.map_eq_nil_iff, List.filterMap_eq_nil_iff]
  intro s hs
  exact afterKey_no_colon key fun h => hv ((lineStarts_suffix hs).1.subset h)

/-- The lines that start in the first part, and those that start in the second. -/
theorem options_split (key : CString) (prev : Option UInt8) (g v : CString) :
    options key prev (g ++ v) =
      ((lineStarts separator prev g).filterMap fun s => (afterKey key (s ++ v)).map valueAt) ++
        options key (lastOf prev g) v := by
  unfold options
  rw [lineStarts_append, List.filterMap_append, List.map_append, List.map_filterMap, List.filterMap_map]
  rfl

/-- More text, without a colon in it, brings no option. -/
theorem options_append {g v : CString} (hv : colon ∉ v)
    (hend : g.getLast? = some separator ∨ v.head? = some separator ∨ g = []) (key : CString) :
    options key none (g ++ v) = options key none g := by
  have hlines : ∀ s ∈ lineStarts separator none g,
      (afterKey key (s ++ v)).map valueAt = (afterKey key s).map valueAt := by
    intro s hs
    cases hkey : afterKey key s with
    | none => rw [afterKey_append_none hv hkey]
    | some rest =>
      obtain ⟨happ, hsplit⟩ := afterKey_append_some v hkey
      rw [happ, Option.map_some, Option.map_some]
      congr 1
      apply valueAt_append
      rcases hend with hend | hend | rfl
      · obtain ⟨⟨before, hsuf⟩, -⟩ := lineStarts_suffix hs
        rw [← hsuf, hsplit, ← List.append_assoc, List.getLast?_append_of_ne_nil _ (List.cons_ne_nil _ _)] at hend
        left
        cases rest with
        | nil => cases hend
        | cons c rest =>
          rw [List.getLast?_cons_cons] at hend
          exact List.mem_of_getLast? hend
      · exact .inr hend
      · cases hs
  rw [options_split, options_no_colon key _ hv, List.append_nil, List.filterMap_congr hlines]
  unfold options
  rw [List.map_filterMap]

/-- A colon in a text makes one of its lines an option. -/
theorem exists_options {v : CString} : ∀ {prev : Option UInt8} (pre : CString),
    prev = none ∨ prev = some separator → separator ∉ pre → colon ∉ pre → colon ∈ v →
      ∃ key, options key prev (pre ++ v) ≠ [] := by
  induction v with
  | nil =>
    intro prev pre _ _ _ hv
    cases hv
  | cons c v ih =>
    intro prev pre hprev hsep hcolon hv
    by_cases hc : c = colon
    · subst hc
      refine ⟨pre, ?_⟩
      have hkey : afterKey pre (pre ++ colon :: v) = some v := by
        unfold afterKey
        rw [startsWith_self, List.getElem?_append_right (Nat.le_refl _)]
        simp
      obtain ⟨d, rest, hcons⟩ := List.exists_cons_of_ne_nil (show pre ++ colon :: v ≠ [] by simp)
      unfold options
      rw [hcons] at hkey ⊢
      rw [lineStarts, if_pos hprev, List.filterMap_cons, hkey]
      simp
    · have hv' : colon ∈ v := (List.mem_cons.mp hv).resolve_left (Ne.symm hc)
      have happ : pre ++ c :: v = (pre ++ [c]) ++ v := by simp
      rw [happ]
      by_cases hline : c = separator
      · have hlast : lastOf prev (pre ++ [c]) = some separator := by simp [lastOf, hline]
        obtain ⟨key, hkey⟩ := ih [] (.inr rfl) (by simp) (by simp) hv'
        refine ⟨key, ?_⟩
        rw [options_split, hlast, Ne, List.append_eq_nil_iff]
        exact fun h => hkey h.2
      · refine ih (pre ++ [c]) hprev ?_ ?_ hv'
        · simp [hsep, Ne.symm hline]
        · simp [hcolon, Ne.symm hc]

/-- Any colon left behind the global section is one too many. -/
theorem forall_options_iff {g v : CString} (hg : lastOf none g = none ∨ lastOf none g = some separator) :
    (∀ (key : CString) (index : Nat), configGetValue (g ++ v) index key = (options key none g)[index]?) ↔
      colon ∉ v := by
  constructor
  · intro hsame hv
    obtain ⟨key, hkey⟩ := exists_options [] hg (by simp) (by simp) hv
    have hfound := hsame key (options key none g).length
    rw [configGetValue_eq, options_split, List.getElem?_eq_none (Nat.le_refl _), List.getElem?_eq_none_iff,
      List.length_append] at hfound
    have hpos := List.length_pos_of_ne_nil hkey
    rw [List.nil_append] at hpos
    -- What is an option without the text behind it is one with it.
    have hmore : (options key none g).length ≤
        ((lineStarts separator none g).filterMap fun s => (afterKey key (s ++ v)).map valueAt).length := by
      unfold options
      rw [List.length_map, List.length_filterMap_eq_countP, List.length_filterMap_eq_countP]
      refine List.countP_mono_left fun s _ hs => ?_
      obtain ⟨rest, hrest⟩ := Option.isSome_iff_exists.mp hs
      rw [(afterKey_append_some v hrest).1]
      rfl
    omega
  · intro hv key index
    rw [configGetValue_eq, options_append hv ?_ key]
    rcases hg with hg | hg
    · right; right
      simpa [lastOf] using hg
    · left
      simpa [lastOf] using hg

theorem visible_of_cut {g entry : CString} (hentry : (entryLines none (g ++ entry)).head? = some entry)
    (hone : (upToSlash entry).length = 1) (hg : g ≠ []) : visible (g ++ entry) = [] := by
  have hpos := List.length_pos_of_ne_nil hg
  unfold visible
  rw [hentry]
  dsimp only
  rw [if_pos hone, if_neg (by rw [List.length_append]; omega)]

theorem globalScope_options_iff (config : CString) :
    (∀ (key : CString) (index : Nat),
      configGetValue (globalScope config) index key = (options key none (globalSection config))[index]?) ↔
        colon ∉ visible config := by
  cases hentry : (entryLines none config).head? with
  | none =>
    have hscope : globalScope config = config := by
      unfold globalScope configGetEntry
      rw [seekEntry_eq, ← List.head?_eq_getElem?, hentry]
      rfl
    unfold visible globalSection
    rw [hscope, hentry]
    simp [configGetValue_eq]
  | some entry =>
    have hmem := List.mem_of_head? hentry
    obtain ⟨g, hsplit, hg⟩ := lineStarts_split (List.mem_filter.mp hmem).1
    subst hsplit
    have hsection : globalSection (g ++ entry) = g := by
      unfold globalSection
      rw [hentry]
      dsimp only
      rw [List.length_append, Nat.add_sub_cancel]
      exact List.take_left
    rw [hsection, globalScope_eq hentry]
    split
    · next hcut =>
      rw [visible_of_cut hentry hcut.1 hcut.2]
      have hlast : g.getLast? = some separator := by
        rcases hg with hg | hg
        · simp [lastOf, hcut.2] at hg
        · simpa [lastOf] using hg
      have hline := List.dropLast_append_getLast? separator hlast
      have hsame : ∀ key, options key none g = options key none g.dropLast := by
        intro key
        conv_lhs => rw [← hline]
        exact options_append (by decide) (.inr (.inl rfl)) key
      simp [configGetValue_eq, hsame]
    · exact forall_options_iff hg

/-- The options are the global ones where no colon is left to be seen from the first entry on. -/
theorem initConfig_globals (builtins : Builtins) (raw : CString) : (initConfig builtins raw).Ensures True fun r =>
    (∀ (key : CString) (index : Nat),
      configGetValue r.config index key = (options key none (globalSection r.expanded))[index]?) ↔
        colon ∉ visible r.expanded := by
  refine (initConfig_ends builtins raw).imp id fun r hr => ?_
  rw [hr]
  exact globalScope_options_iff r.expanded

/-- `"/Linux\nprotocol: linux\n"` -/
def firstEntry : CString :=
  [47, 76, 105, 110, 117, 120, 10, 112, 114, 111, 116, 111, 99, 111, 108, 58, 32, 108, 105, 110, 117, 120, 10]

/-- `"protocol"` -/
def protocolKey : CString := [112, 114, 111, 116, 111, 99, 111, 108]

/-- The option of the entry is a global one. -/
theorem initConfig_firstEntry : ∃ r, initConfig biosBuiltins firstEntry = .ok r ∧
    ¬∀ (key : CString) (index : Nat),
      configGetValue r.config index key = (options key none (globalSection r.expanded))[index]? := by
  refine ⟨⟨.node ⟨[76, 105, 110, 117, 120], none, firstEntry.drop 6 ++ [10]⟩ false .null .null,
    firstEntry ++ [10], firstEntry ++ [10]⟩, by decide +kernel, fun hsame => ?_⟩
  have hprotocol := hsame protocolKey 0
  revert hprotocol
  decide +kernel

end Limine.Config
