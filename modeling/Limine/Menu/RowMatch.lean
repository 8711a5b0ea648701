import Limine.Menu.Path

/-!
# Rows and paths

`menu_row_matches` tells from the rows alone whether a path is that of a row: it goes up the
parents of the row, then reads the path down along their names.  `find_entry_by_path` reads the
path on its own and looks in the tree; the two agree.
-/

namespace Limine.Menu

open Limine.Lib

/-- `SIZE_MAX`. -/
def sizeMax : Nat := 2 ^ 64 - 1

/-- The climb to the top level: the rows on the way, the top one first.  There is room for `room`
more; `chain` are those below. -/
def climb (rows : List MenuRow) : Nat → Nat → List MenuRow → Option (List MenuRow)
  | 0, _, _ => none
  | room + 1, at_, chain =>
    match rows[at_]? with
    | none => none
    | some row =>
      match row.parent with
      | none => some (row :: chain)
      | some parent => if at_ ≤ parent then none else climb rows room parent (row :: chain)

/-- `*path++` must be `c`; what is left of the path. -/
def expect (c : UInt8) : CString → Option CString
  | [] => none
  | x :: path => if x = c then some path else none

/-- The loop over a row's name; what is left of the path. -/
def matchName : CString → CString → Option CString
  | [], path => some path
  | c :: name, path =>
    (if isSpecial c then expect backslash path else some path).bind fun path =>
      (expect c path).bind (matchName name)

/-- The loop over the digits, at the value `duplicate`. -/
def matchDigits : CString → Nat → Option (Nat × CString)
  | [], duplicate => some (duplicate, [])
  | c :: path, duplicate =>
    if isDigit c then
      if (sizeMax - 9) / 10 < duplicate then none else matchDigits path (addDigit duplicate c)
    else some (duplicate, c :: path)

/-- What follows the name: the number, and what is left of the path. -/
def matchDuplicate : CString → Option (Nat × CString)
  | [] => some (0, [])
  | c :: path =>
    if c = hash then
      if (path.head?.map isDigit).getD false then matchDigits path 0 else none
    else some (0, c :: path)

/-- The loop down the rows. -/
def matchRows : List MenuRow → CString → Bool
  | [], path => path.isEmpty
  | row :: chain, path =>
    match matchName row.name path with
    | none => false
    | some path =>
      match matchDuplicate path with
      | none => false
      | some (duplicate, path) =>
        if duplicate ≠ row.duplicate then false
        else
          match if chain.isEmpty then some path else expect slash path with
          | none => false
          | some path => matchRows chain path

/-- `menu_row_matches`. -/
def menuRowMatches (rows : List MenuRow) (index : Nat) (path : CString) : Bool :=
  match climb rows 64 index [] with
  | none => false
  | some chain => matchRows chain path

/-! ## Reading the path -/

theorem expect_eq_some {c : UInt8} {path rest : CString} :
    expect c path = some rest ↔ path = c :: rest := by
  cases path with
  | nil => simp [expect]
  | cons x path =>
    rw [expect]
    by_cases hx : x = c <;> simp [hx]

@[simp] theorem expect_cons (c : UInt8) (path : CString) : expect c (c :: path) = some path :=
  expect_eq_some.mpr rfl

theorem matchName_escaped (name rest : CString) :
    matchName name (escaped name ++ rest) = some rest := by
  induction name with
  | nil => rfl
  | cons c name ih =>
    rw [escaped, matchName]
    by_cases hc : isSpecial c = true
    · simp [hc, ih]
    · simp [hc, ih]

/-- A name is only read off its escaped form. -/
theorem matchName_eq_some (name : CString) : ∀ {path rest : CString},
    matchName name path = some rest → path = escaped name ++ rest := by
  induction name with
  | nil =>
    intro path rest h
    exact Option.some.inj h
  | cons c name ih =>
    intro path rest h
    rw [matchName, Option.bind_eq_some_iff] at h
    obtain ⟨path₁, hesc, hbind⟩ := h
    obtain ⟨path₂, hc, hrest⟩ := Option.bind_eq_some_iff.mp hbind
    obtain rfl := expect_eq_some.mp hc
    obtain rfl := ih hrest
    rw [escaped]
    by_cases hs : isSpecial c = true
    · rw [if_pos hs] at hesc ⊢
      exact expect_eq_some.mp hesc
    · rw [if_neg hs] at hesc ⊢
      exact Option.some.inj hesc

theorem not_isDigit_of_ends {rest : CString} (h : Ends rest) :
    (rest.head?.map isDigit).getD false = false := by
  rcases h with rfl | h
  · rfl
  · rw [h]
    rfl

/-- The digits of a number that is no more than `10 * ((SIZE_MAX - 9) / 10)` are all read. -/
theorem matchDigits_append (ds : CString) {rest : CString} (hd : ∀ b ∈ ds, isDigit b = true)
    (hr : Ends rest) : ∀ n, decimalFrom ds n ≤ 10 * ((sizeMax - 9) / 10) →
    matchDigits (ds ++ rest) n = some (decimalFrom ds n, rest) := by
  induction ds with
  | nil =>
    intro n _
    have hstop := not_isDigit_of_ends hr
    cases rest with
    | nil => rfl
    | cons c rest =>
      have hc : ¬isDigit c = true := by simpa using hstop
      show matchDigits (c :: rest) n = _
      rw [matchDigits, if_neg hc]
      rfl
  | cons b ds ih =>
    intro n hn
    have hle := le_decimalFrom ds (addDigit n b)
    rw [decimalFrom] at hn ⊢
    have hroom : ¬(sizeMax - 9) / 10 < n := by
      rw [addDigit] at hle hn
      omega
    rw [List.cons_append, matchDigits, if_pos (hd b (by simp)), if_neg hroom]
    exact ih (fun c hc => hd c (by simp [hc])) _ hn

theorem matchDigits_eq_some (path : CString) : ∀ {n d : Nat} {rest : CString},
    matchDigits path n = some (d, rest) → ∃ ds, path = ds ++ rest ∧
      (∀ b ∈ ds, isDigit b = true) ∧ decimalFrom ds n = d := by
  induction path with
  | nil =>
    intro n d rest h
    obtain ⟨rfl, rfl⟩ : n = d ∧ [] = rest := by simpa [matchDigits] using h
    exact ⟨[], rfl, by simp, rfl⟩
  | cons c path ih =>
    intro n d rest h
    rw [matchDigits] at h
    by_cases hc : isDigit c = true
    · rw [if_pos hc] at h
      split at h
      · cases h
      · obtain ⟨ds, rfl, hdig, hval⟩ := ih h
        exact ⟨c :: ds, rfl, by simpa [hc] using hdig, hval⟩
    · rw [if_neg hc] at h
      obtain ⟨rfl, rfl⟩ : n = d ∧ c :: path = rest := by simpa using h
      exact ⟨[], rfl, by simp, rfl⟩

theorem matchDuplicate_append {d : Nat} (hd : d ≤ 10 * ((sizeMax - 9) / 10)) {suffix : CString}
    (hs : SpellsDup d suffix) {rest : CString} (hr : Ends rest) :
    matchDuplicate (suffix ++ rest) = some (d, rest) := by
  rcases hs with ⟨rfl, rfl⟩ | ⟨ds, rfl, hne, hdig, rfl⟩
  · rcases hr with rfl | hr
    · rfl
    · cases rest with
      | nil => rfl
      | cons c rest =>
        obtain rfl : c = slash := by simpa using hr
        rfl
  · have hread := matchDigits_append ds hdig hr 0 hd
    obtain ⟨x, ds, rfl⟩ := List.exists_cons_of_ne_nil hne
    show matchDuplicate (hash :: (x :: ds ++ rest)) = _
    rw [matchDuplicate, if_pos rfl, if_pos, hread]
    simp [hdig x (by simp)]

theorem matchDuplicate_eq_some {path : CString} {d : Nat} {rest : CString}
    (h : matchDuplicate path = some (d, rest)) :
    ∃ suffix, SpellsDup d suffix ∧ path = suffix ++ rest := by
  cases path with
  | nil =>
    obtain ⟨rfl, rfl⟩ : 0 = d ∧ [] = rest := by simpa [matchDuplicate] using h
    exact ⟨[], Or.inl ⟨rfl, rfl⟩, rfl⟩
  | cons c path =>
    rw [matchDuplicate] at h
    by_cases hc : c = hash
    · rw [if_pos hc] at h
      split at h
      · next hfirst =>
        cases path with
        | nil => cases hfirst
        | cons b path =>
          have hb : isDigit b = true := by simpa using hfirst
          rw [matchDigits, if_pos hb, if_neg (Nat.not_lt_zero _)] at h
          obtain ⟨ds, rfl, hdig, hval⟩ := matchDigits_eq_some path h
          refine ⟨hash :: b :: ds, Or.inr ⟨b :: ds, rfl, by simp, ?_, hval⟩, by rw [hc]; rfl⟩
          simpa [hb] using hdig
      · cases h
    · rw [if_neg hc] at h
      obtain ⟨rfl, rfl⟩ : 0 = d ∧ c :: path = rest := by simpa using h
      exact ⟨[], Or.inl ⟨rfl, rfl⟩, rfl⟩

/-- What a row adds to a path. -/
def MenuRow.component (row : MenuRow) : CString × Nat := (row.name, row.duplicate)

theorem spells_of_matchRows (chain : List MenuRow) : ∀ {path : CString},
    matchRows chain path = true → Spells (chain.map MenuRow.component) path := by
  induction chain with
  | nil =>
    intro path h
    exact List.isEmpty_iff.mp h
  | cons row chain ih =>
    intro path h
    rw [matchRows] at h
    cases hname : matchName row.name path with
    | none => simp [hname] at h
    | some path₁ =>
      simp only [hname] at h
      cases hdup : matchDuplicate path₁ with
      | none => simp [hdup] at h
      | some r =>
        obtain ⟨d, path₂⟩ := r
        simp only [hdup] at h
        split at h
        · cases h
        · next hd =>
          obtain rfl : d = row.duplicate := by simpa using hd
          obtain ⟨suffix, hs, rfl⟩ := matchDuplicate_eq_some hdup
          obtain rfl := matchName_eq_some _ hname
          cases hsep : (if chain.isEmpty then some path₂ else expect slash path₂) with
          | none =>
            rw [hsep] at h
            cases h
          | some rest =>
            rw [hsep] at h
            refine ⟨suffix, rest, hs, ih h, ?_⟩
            cases chain with
            | nil =>
              obtain rfl : rest = [] := List.isEmpty_iff.mp h
              obtain rfl : path₂ = [] := Option.some.inj hsep
              simp
            | cons row₁ chain =>
              obtain rfl := expect_eq_some.mp hsep
              simp

/-- The rows match every spelling of a path with numbers that are in range. -/
theorem matchRows_of_spells (chain : List MenuRow) : ∀ {path : CString},
    (∀ row ∈ chain, row.duplicate ≤ 10 * ((sizeMax - 9) / 10)) →
    Spells (chain.map MenuRow.component) path → matchRows chain path = true := by
  induction chain with
  | nil =>
    intro path _ h
    exact List.isEmpty_iff.mpr h
  | cons row chain ih =>
    intro path hd h
    obtain ⟨suffix, rest, hs, hrest, rfl⟩ := h
    have hmatch := ih (fun r hr => hd r (by simp [hr])) hrest
    have hd₀ := hd row (by simp)
    rw [matchRows, List.append_assoc, matchName_escaped]
    cases chain with
    | nil =>
      obtain rfl : rest = [] := hrest
      have hdup := matchDuplicate_append hd₀ hs (Or.inl rfl)
      rw [List.append_nil] at hdup
      simp [hdup, hmatch]
    | cons row₁ chain =>
      have hends : Ends (slash :: rest) := Or.inr rfl
      have hdup := matchDuplicate_append hd₀ hs hends
      simp [hdup, hmatch]

/-! ## Climbing the rows -/

/-- The rows from the top level down to row `at_`, each of which comes after its parent. -/
inductive Line (rows : List MenuRow) : Option Nat → List MenuRow → Prop
  | top : Line rows none []
  | row {above : List MenuRow} {row : MenuRow} {at_ : Nat} (get : rows[at_]? = some row)
      (after : ∀ parent, row.parent = some parent → parent < at_) (line : Line rows row.parent above) :
      Line rows (some at_) (above ++ [row])

/-- The climb finds the line of a row where it has room for it. -/
theorem climb_line {rows : List MenuRow} {at_ : Option Nat} {line : List MenuRow}
    (h : Line rows at_ line) : ∀ {i room : Nat} (chain : List MenuRow), at_ = some i →
    climb rows room i chain = if line.length ≤ room then some (line ++ chain) else none := by
  induction h with
  | top =>
    intro i room chain h
    cases h
  | @row above row i get after line ih =>
    rintro i room chain ⟨⟩
    cases room with
    | zero => simp [climb]
    | succ room =>
      rw [climb, get]
      cases hp : row.parent with
      | none =>
        rw [hp] at line
        cases line
        simp [hp]
      | some parent =>
        have hlt := after parent hp
        have hrec : climb rows room parent (row :: chain) =
            if above.length ≤ room then some (above ++ row :: chain) else none :=
          ih (row :: chain) hp
        simp only [hp, if_neg (by omega : ¬i ≤ parent), hrec]
        simp

section
variable {skip : MenuEntry → Bool → Bool}

theorem nesting_drop (t : MenuTree) : ∀ n, (t.drop n).nesting ≤ t.nesting := by
  induction t with
  | null => simp
  | node e x sub next ihs ihn =>
    intro n
    cases n with
    | zero => exact Nat.le_refl _
    | succ n =>
      have hn := ihn n
      rw [MenuTree.drop_node_succ, MenuTree.nesting]
      omega

/-- A way down is no longer than the tree is deep. -/
theorem Chain.length_components (is : List Nat) : ∀ {first : MenuTree}, Chain skip first is →
    (components skip first is).length ≤ first.nesting := by
  induction is with
  | nil => simp [components]
  | cons i is ih =>
    intro first h
    obtain ⟨⟨e, x, sub, next, hdrop, -⟩, hc⟩ := h
    have hn := nesting_drop first i
    rw [hdrop, MenuTree.subOf_node] at hc
    rw [hdrop, MenuTree.nesting] at hn
    have hlen := ih hc
    rw [components_cons hdrop, List.length_cons]
    omega

theorem size_drop (t : MenuTree) : ∀ n, (t.drop n).size ≤ t.size := by
  induction t with
  | null => simp
  | node e x sub next ihs ihn =>
    intro n
    cases n with
    | zero => exact Nat.le_refl _
    | succ n =>
      have hn := ihn n
      rw [MenuTree.drop_node_succ, MenuTree.size]
      omega

theorem Chain.duplicate_le (is : List Nat) : ∀ {first : MenuTree}, Chain skip first is →
    ∀ c ∈ components skip first is, c.2 ≤ first.size := by
  induction is with
  | nil => simp [components]
  | cons i is ih =>
    intro first h c hc
    obtain ⟨⟨e, x, sub, next, hdrop, -⟩, hchain⟩ := h
    have hn := size_drop first i
    rw [hdrop, MenuTree.subOf_node] at hchain
    rw [hdrop, MenuTree.size] at hn
    rw [components_cons hdrop] at hc
    rcases List.mem_cons.mp hc with rfl | hc
    · exact duplicates_le skip e.name first i
    · have := ih hchain c hc
      omega

/-- The way `is` down from `first`, which the rows show: row `at_` is the entry it leads to, and
its line what is `above` and then the way. -/
structure Shown (skip : MenuEntry → Bool → Bool) (rows above : List MenuRow) (first : MenuTree)
    (is : List Nat) (at_ : Nat) : Prop where
  chain : Chain skip first is
  opened : Opened first is
  line : ∃ line, Line rows (some at_) (above ++ line) ∧
    line.map MenuRow.component = components skip first is

theorem Shown.down {rows above : List MenuRow} {first : MenuTree} {n at_ : Nat} {is : List Nat}
    {e : MenuEntry} {sub next : MenuTree} {row : MenuRow}
    (hdrop : first.drop n = .node e true sub next) (hskip : skip e sub.isNode = false)
    (hrow : row.component = (e.name, duplicates skip e.name first n))
    (h : Shown skip rows (above ++ [row]) sub is at_) : Shown skip rows above first (n :: is) at_ := by
  obtain ⟨line, hline, hmap⟩ := h.line
  constructor
  · refine ⟨⟨e, true, sub, next, hdrop, hskip⟩, ?_⟩
    rw [hdrop]
    exact h.chain
  · rw [Opened, hdrop]
    exact ⟨Or.inr rfl, h.opened⟩
  · refine ⟨row :: line, ?_, ?_⟩
    · rwa [List.append_assoc] at hline
    · rw [List.map_cons, components_cons hdrop, hrow, hmap]

/-- **What the rows of a directory show**, by induction on its entries. -/
theorem projectTree_shown {rows : List MenuRow} (t : MenuTree) : ∀ (first : MenuTree)
    (above : List MenuRow) (parent : Option Nat) (parentRef : Ref) (depth n index : Nat),
    Line rows parent above → (∀ p, parent = some p → p < index) → first.drop n = t →
    (∀ k row ref, (projectTree skip first parent parentRef depth t n index)[k]? = some (row, ref) →
      rows[index + k]? = some row) →
    ∀ k row ref, (projectTree skip first parent parentRef depth t n index)[k]? = some (row, ref) →
      ∃ j is, ref = is.reverse ++ j :: parentRef ∧
        Shown skip rows above first (j :: is) (index + k) := by
  induction t with
  | null =>
    intro first above parent parentRef depth n index _ _ _ _ k row ref h
    simp [projectTree] at h
  | node e x sub next ihs ihn =>
    intro first above parent parentRef depth n index hline hparent hdrop hrows k row ref hk
    have hnext : first.drop (n + 1) = next := by
      rw [MenuTree.drop_add, hdrop]
      simp
    rw [projectTree] at hk hrows
    by_cases hs : skip e sub.isNode = true
    · rw [if_pos hs] at hk hrows
      exact ihn first above parent parentRef depth (n + 1) index hline hparent hnext hrows k row ref hk
    · rw [if_neg hs] at hk hrows
      rw [Bool.not_eq_true] at hs
      set row₀ : MenuRow := ⟨e.name, parent, depth, duplicates skip e.name first n, sub.isNode,
        x, next.isNode⟩ with hrow₀
      set inner := if sub.isNode && x then
        projectTree skip sub (some index) (n :: parentRef) (depth + 1) sub 0 (index + 1) else []
        with hinner
      dsimp only at hk hrows
      have hget₀ : rows[index]? = some row₀ := hrows 0 row₀ (n :: parentRef) rfl
      have hline₀ : Line rows (some index) (above ++ [row₀]) := .row hget₀ hparent hline
      cases k with
      | zero =>
        obtain ⟨-, rfl⟩ : row₀ = row ∧ n :: parentRef = ref := by simpa using hk
        refine ⟨n, [], rfl, ?_, ?_, [row₀], hline₀, ?_⟩
        · exact ⟨⟨e, x, sub, next, hdrop, hs⟩, trivial⟩
        · exact ⟨Or.inl rfl, trivial⟩
        · rw [components_cons hdrop]
          rfl
      | succ k =>
        rw [List.cons_append, List.getElem?_cons_succ] at hk
        by_cases hlt : k < inner.length
        · -- A row under this one, which is therefore expanded.
          rw [List.getElem?_append_left hlt] at hk
          have hopen : (sub.isNode && x) = true := by
            by_contra hno
            rw [hinner, if_neg hno] at hlt
            simp at hlt
          rw [if_pos hopen] at hinner
          obtain ⟨-, rfl⟩ : sub.isNode = true ∧ x = true := by simpa using hopen
          have hsub : ∀ k row ref, inner[k]? = some (row, ref) → rows[index + 1 + k]? = some row := by
            intro k row ref hk
            rw [Nat.add_right_comm]
            apply hrows (k + 1) row ref
            have hlt := (List.getElem?_eq_some_iff.mp hk).1
            rw [List.cons_append, List.getElem?_cons_succ, List.getElem?_append_left hlt]
            exact hk
          rw [hinner] at hk hsub
          obtain ⟨j, is, rfl, hshown⟩ := ihs sub (above ++ [row₀]) (some index) (n :: parentRef)
            (depth + 1) 0 (index + 1) hline₀ (by simp) (MenuTree.drop_zero sub) hsub k row ref hk
          refine ⟨n, j :: is, by simp, ?_⟩
          rw [Nat.add_right_comm] at hshown
          exact hshown.down hdrop hs rfl
        · rw [List.getElem?_append_right (Nat.le_of_not_lt hlt)] at hk
          have hrest : ∀ k row ref, (projectTree skip first parent parentRef depth next (n + 1)
              (index + 1 + inner.length))[k]? = some (row, ref) →
              rows[index + 1 + inner.length + k]? = some row := by
            intro k row ref hk
            have := hrows (inner.length + k + 1) row ref
            rw [List.cons_append, List.getElem?_cons_succ,
              List.getElem?_append_right (Nat.le_add_right _ _), Nat.add_sub_cancel_left] at this
            rw [← this hk]
            congr 1
            omega
          obtain ⟨j, is, hj, hshown⟩ := ihn first above parent parentRef depth (n + 1)
            (index + 1 + inner.length) hline
            (fun p hp => Nat.lt_of_lt_of_le (hparent p hp) (by omega)) hnext hrest _ row ref hk
          refine ⟨j, is, hj, ?_⟩
          rwa [show index + (k + 1) = index + 1 + inner.length + (k - inner.length) by omega]

/-- **Every row of the model is shown.** -/
theorem menuModelUpdate_shown {tree : MenuTree} {i : Nat} {row : MenuRow}
    (h : (menuModelUpdate skip tree).rows[i]? = some row) :
    ∃ j is, (menuModelUpdate skip tree).entries[i]? = some (is.reverse ++ [j]) ∧
      Shown skip (menuModelUpdate skip tree).rows [] tree (j :: is) i := by
  set rows := (menuModelUpdate skip tree).rows with hrows
  have hproj : ∀ k row ref, (projectTree skip tree none [] 0 tree 0 0)[k]? = some (row, ref) →
      rows[0 + k]? = some row := by
    intro k row ref hk
    rw [Nat.zero_add, hrows]
    show (List.map Prod.fst _)[k]? = _
    rw [List.getElem?_map, hk]
    rfl
  have hi : ((projectTree skip tree none [] 0 tree 0 0).map Prod.fst)[i]? = some row := h
  rw [List.getElem?_map, Option.map_eq_some_iff] at hi
  obtain ⟨⟨row', ref⟩, hk, -⟩ := hi
  obtain ⟨j, is, rfl, hshown⟩ := projectTree_shown tree tree [] none [] 0 0 0 .top (by simp)
    (MenuTree.drop_zero tree) hproj i row' ref hk
  rw [Nat.zero_add] at hshown
  refine ⟨j, is, ?_, hshown⟩
  show (List.map Prod.snd _)[i]? = _
  rw [List.getElem?_map, hk]
  rfl

/-- **Which paths match a row**: those that spell the way to its entry. -/
theorem Shown.menuRowMatches_iff {m : LoadedTree} {rows : List MenuRow} {is : List Nat} {i : Nat}
    (h : Shown skip rows [] m.tree is i) (hdepth : m.tree.nesting ≤ 64) (path : CString) :
    menuRowMatches rows i path = true ↔ Spells (components skip m.tree is) path := by
  obtain ⟨line, hline, hmap⟩ := h.line
  have hroom := h.chain.length_components
  rw [← hmap, List.length_map] at hroom
  rw [menuRowMatches, climb_line hline [] rfl, List.nil_append, List.append_nil,
    if_pos (by omega), ← hmap]
  refine ⟨spells_of_matchRows line, matchRows_of_spells line ?_⟩
  intro row hrow
  have hdup := h.chain.duplicate_le is row.component (hmap ▸ List.mem_map_of_mem hrow)
  have hm := m.inMemory
  rw [MenuRow.component] at hdup
  rw [sizeMax]
  omega

theorem getElem?_of_menuRowMatches {rows : List MenuRow} {i : Nat} {path : CString}
    (h : menuRowMatches rows i path = true) : ∃ row, rows[i]? = some row := by
  cases hrow : rows[i]? with
  | none => simp [menuRowMatches, climb, hrow] at h
  | some row => exact ⟨row, rfl⟩

/-- The search by a path that matches a row returns the row's entry, and the row. -/
theorem find_of_menuRowMatches {m : LoadedTree} (hnamed : m.tree.Named)
    (hdepth : m.tree.nesting ≤ 64) {path : CString} {i : Nat} (expandDirs : Bool)
    (h : menuRowMatches (menuModelUpdate skip m.tree).rows i path = true) :
    ∃ ref, (menuModelUpdate skip m.tree).entries[i]? = some ref ∧
      findEntryByPath skip path m.tree 0 [] expandDirs = (m.tree, some (ref, i)) := by
  obtain ⟨row, hrow⟩ := getElem?_of_menuRowMatches h
  obtain ⟨j, is, hentry, hshown⟩ := menuModelUpdate_shown hrow
  have hspells := (hshown.menuRowMatches_iff hdepth path).mp h
  have hopen : expandDirs = true ∨ Opened m.tree (j :: is) := Or.inr hshown.opened
  obtain ⟨⟨k, hfind, hk⟩, hkeep⟩ := findEntryByPath_spec skip hnamed hshown.chain hopen hspells
  rw [hkeep hshown.opened, ← menuModelUpdate_entries] at hk
  -- The entry is listed once, so the row the search counts up to is the row of the match.
  have hki : k = i := by
    have hnodup := visible_nodup skip m.tree [] 0
    rw [← menuModelUpdate_entries] at hnodup
    have hlt := (List.getElem?_eq_some_iff.mp hk).1
    exact (List.getElem?_inj hlt hnodup).mp (hk.trans hentry.symm)
  rw [hki, Nat.zero_add] at hfind
  exact ⟨_, hentry, Prod.ext (hkeep hshown.opened) hfind⟩

/-- **A path names one entry**: it matches at most one row of the menu; the path that is written
for the entry of a row matches the row; and the search in the tree by a path that matches a row
returns the entry of that row. -/
theorem menuRowMatches_names_one (skip : MenuEntry → Bool → Bool) (m : LoadedTree)
    (hnamed : m.tree.Named) (hdepth : m.tree.nesting ≤ 64) :
    (∀ path i j, menuRowMatches (menuModelUpdate skip m.tree).rows i path = true →
      menuRowMatches (menuModelUpdate skip m.tree).rows j path = true → i = j) ∧
    (∀ i ref, (menuModelUpdate skip m.tree).entries[i]? = some ref →
      menuRowMatches (menuModelUpdate skip m.tree).rows i (entryPath skip m.tree ref) = true) ∧
    (∀ path i expandDirs, menuRowMatches (menuModelUpdate skip m.tree).rows i path = true →
      ∃ ref, (menuModelUpdate skip m.tree).entries[i]? = some ref ∧
        findEntryByPath skip path m.tree 0 [] expandDirs = (m.tree, some (ref, i))) := by
  refine ⟨?_, ?_, fun path i expandDirs h => find_of_menuRowMatches hnamed hdepth expandDirs h⟩
  · intro path i j hi hj
    obtain ⟨ref, -, href⟩ := find_of_menuRowMatches hnamed hdepth false hi
    obtain ⟨ref', -, href'⟩ := find_of_menuRowMatches hnamed hdepth false hj
    rw [href] at href'
    simpa using (congrArg (fun r => r.2.map Prod.snd) href' : some i = some j)
  · intro i ref hentry
    obtain ⟨row, hrow⟩ : ∃ row, (menuModelUpdate skip m.tree).rows[i]? = some row := by
      have hlt := (List.getElem?_eq_some_iff.mp hentry).1
      have hlen : (menuModelUpdate skip m.tree).entries.length =
          (menuModelUpdate skip m.tree).rows.length := by
        simp [menuModelUpdate]
      rw [hlen] at hlt
      exact ⟨_, List.getElem?_eq_getElem hlt⟩
    obtain ⟨j, is, hentry', hshown⟩ := menuModelUpdate_shown hrow
    obtain rfl : is.reverse ++ [j] = ref := by
      rw [hentry'] at hentry
      exact Option.some.inj hentry
    rw [hshown.menuRowMatches_iff hdepth, ← List.reverse_cons, entryPath_reverse]
    exact spells_pathFrom _ m.tree hshown.chain

/-- The twins with their directory expanded. -/
def openTwins : LoadedTree where
  tree := twins.tree.update [1] fun e _ => (e, true)
  inMemory := by decide

/-- The second of the twins is the row 3, which `a\#1#1/x\/#01` matches as well. -/
theorem menuRowMatches_twins :
    findEntryByPath (fun _ _ => false) (entryPath (fun _ _ => false) openTwins.tree [1, 1])
        openTwins.tree 0 [] false = (openTwins.tree, some ([1, 1], 3)) ∧
      menuRowMatches (menuModelUpdate (fun _ _ => false) openTwins.tree).rows 3
        [97, backslash, hash, 49, hash, 49, slash, 120, backslash, slash, hash, 48, 49] = true := by
  obtain ⟨-, hwritten, hfind⟩ := menuRowMatches_names_one (fun _ _ => false) openTwins
    (by simp [openTwins, twins, MenuTree.Named, MenuTree.update, MenuTree.updateAt])
    (by decide)
  obtain ⟨ref, href, hfound⟩ := hfind _ 3 false (hwritten 3 [1, 1] (by decide))
  obtain rfl : ref = [1, 1] := by
    rw [show (menuModelUpdate (fun _ _ => false) openTwins.tree).entries[3]? = some [1, 1] by
      decide] at href
    exact (Option.some.inj href).symm
  exact ⟨hfound, by decide⟩

end

end Limine.Menu
