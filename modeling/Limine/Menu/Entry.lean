import Mathlib.Algebra.Group.Nat.Defs
import Mathlib.Data.List.Basic

/-!
# The menu tree and its projection

`struct menu_entry` with its `sub` and `next` pointers, and `menu_model_update`, which lists the
rows the menu shows: the entries that are not skipped, those of a directory under it while it is
expanded.  A pointer to an entry is the entry's place in the tree.
-/

namespace Limine.Menu

/-- The bytes of a C string before its NUL. -/
abbrev CString := List UInt8

/-- What a `struct menu_entry` says of the entry itself. -/
structure MenuEntry where
  name : CString
  comment : Option CString
  body : CString
deriving DecidableEq, Repr

/-- A `struct menu_entry *`: `NULL`, or an entry with its `expanded`, `sub` and `next`. -/
inductive MenuTree
  | null
  | node (entry : MenuEntry) (expanded : Bool) (sub next : MenuTree)
deriving DecidableEq, Repr

/-- Where an entry is: its number among its siblings, then the same of its parent, and so on up
to the top level. -/
abbrev Ref := List Nat

namespace MenuTree

/-- The pointer is not `NULL`; of a `sub`, the entry is a directory. -/
def isNode : MenuTree → Bool
  | null => false
  | node .. => true

/-- How many entries there are. -/
def size : MenuTree → Nat
  | null => 0
  | node _ _ sub next => 1 + sub.size + next.size

/-- The pointer after following `next` `n` times. -/
def drop : MenuTree → Nat → MenuTree
  | t, 0 => t
  | null, _ + 1 => null
  | node _ _ _ next, n + 1 => next.drop n

/-- The entry's `sub`. -/
def subOf : MenuTree → MenuTree
  | null => null
  | node _ _ sub _ => sub

/-- The entry's `expanded`. -/
def isExpanded : MenuTree → Bool
  | null => false
  | node _ expanded _ _ => expanded

/-- How many levels of entries there are. -/
def nesting : MenuTree → Nat
  | null => 0
  | node _ _ sub next => max (1 + sub.nesting) next.nesting

/-- The first entry under `parent`, which is the top level for `[]`. -/
def siblings (tree : MenuTree) : Ref → MenuTree
  | [] => tree
  | i :: parent => ((tree.siblings parent).drop i).subOf

/-- The pointer to the entry at `ref`. -/
def entry (tree : MenuTree) : Ref → MenuTree
  | [] => null
  | i :: parent => (tree.siblings parent).drop i

/-- The tree with the entry `i` siblings on, then down `is`, replaced by what `f` makes of it and
its `expanded`. -/
def updateAt (f : MenuEntry → Bool → MenuEntry × Bool) : MenuTree → Nat → List Nat → MenuTree
  | null, _, _ => null
  | node e expanded sub next, 0, [] => node (f e expanded).1 (f e expanded).2 sub next
  | node e expanded sub next, 0, j :: js => node e expanded (updateAt f sub j js) next
  | node e expanded sub next, i + 1, is => node e expanded sub (updateAt f next i is)

/-- A write through the pointer `ref`. -/
def update (tree : MenuTree) (ref : Ref) (f : MenuEntry → Bool → MenuEntry × Bool) : MenuTree :=
  match ref.reverse with
  | [] => tree
  | i :: is => updateAt f tree i is

/-- The entry `i` siblings on, then down `is`. -/
def entryAt : MenuTree → Nat → List Nat → MenuTree
  | t, i, [] => t.drop i
  | t, i, j :: js => entryAt (t.drop i).subOf j js

/-- Every name in the tree is that of an entry one can write down. -/
def Named : MenuTree → Prop
  | null => True
  | node e _ sub next => e.name ≠ [] ∧ sub.Named ∧ next.Named

@[simp] theorem drop_zero (t : MenuTree) : t.drop 0 = t := by cases t <;> rfl

@[simp] theorem drop_null (n : Nat) : null.drop n = null := by cases n <;> rfl

@[simp] theorem drop_node_succ (e : MenuEntry) (x : Bool) (sub next : MenuTree) (n : Nat) :
    (node e x sub next).drop (n + 1) = next.drop n := rfl

@[simp] theorem subOf_node (e : MenuEntry) (x : Bool) (sub next : MenuTree) :
    (node e x sub next).subOf = sub := rfl

@[simp] theorem isNode_node (e : MenuEntry) (x : Bool) (sub next : MenuTree) :
    (node e x sub next).isNode = true := rfl

theorem isNode_iff {t : MenuTree} : t.isNode = true ↔ t ≠ null := by
  cases t <;> simp [isNode]

theorem isNode_eq_false {t : MenuTree} : t.isNode = false ↔ t = null := by
  cases t <;> simp [isNode]

theorem drop_add (t : MenuTree) (m n : Nat) : t.drop (m + n) = (t.drop m).drop n := by
  induction m generalizing t with
  | zero => simp
  | succ m ih =>
    cases t with
    | null => simp
    | node e x sub next =>
      rw [Nat.add_right_comm]
      exact ih next

theorem siblings_append (tree : MenuTree) (i : Nat) (ref : Ref) :
    tree.siblings (ref ++ [i]) = ((tree.drop i).subOf).siblings ref := by
  induction ref with
  | nil => rfl
  | cons j ref ih =>
    show ((tree.siblings (ref ++ [i])).drop j).subOf = _
    rw [ih]
    rfl

/-- A pointer followed from the top level down. -/
theorem entry_reverse (is : List Nat) : ∀ (t : MenuTree) (i : Nat),
    t.entry (is.reverse ++ [i]) = t.entryAt i is := by
  induction is with
  | nil => intros; rfl
  | cons j js ih =>
    intro t i
    rw [entryAt, ← ih, List.reverse_cons, List.append_assoc]
    cases hjs : js.reverse ++ [j] with
    | nil => simp at hjs
    | cons k parent =>
      have hcons : js.reverse ++ ([j] ++ [i]) = (k :: parent) ++ [i] := by
        rw [← hjs, List.append_assoc]
      rw [hcons]
      show (t.siblings (parent ++ [i])).drop k = _
      rw [siblings_append]
      rfl

end MenuTree

/-- A menu tree as it lies in memory: an entry takes 56 bytes there, and no machine that runs the
loader has 2^56 of them. -/
structure LoadedTree where
  tree : MenuTree
  inMemory : tree.size * 56 ≤ 2 ^ 56

/-- A row as the renderer sees it; `parent` is the parent's row, none at the top level. -/
structure MenuRow where
  name : CString
  parent : Option Nat
  depth : Nat
  duplicate : Nat
  directory : Bool
  expanded : Bool
  hasNextSibling : Bool
deriving DecidableEq, Repr

structure MenuModel where
  rows : List MenuRow
  entries : List Ref
  count : Nat
deriving DecidableEq, Repr

section
variable (skip : MenuEntry → Bool → Bool)

/-! `skip` is given the entry and whether it is a directory. -/

/-- `menu_model_count`. -/
def menuModelCount : MenuTree → Nat
  | .null => 0
  | .node e expanded sub next =>
    if skip e sub.isNode then menuModelCount next
    else 1 + (if sub.isNode && expanded then menuModelCount sub else 0) + menuModelCount next

/-- How many of the first `n` entries from `first` on are not skipped and have this name. -/
def duplicates (name : CString) : MenuTree → Nat → Nat
  | _, 0 => 0
  | .null, _ + 1 => 0
  | .node e _ sub next, n + 1 =>
    (if !skip e sub.isNode && e.name = name then 1 else 0) + duplicates name next n

/-- `project_tree` from sibling number `n` on; `first` is the first of them. -/
def projectTree (first : MenuTree) (parent : Option Nat) (parentRef : Ref) (depth : Nat) :
    MenuTree → Nat → Nat → List (MenuRow × Ref)
  | .null, _, _ => []
  | .node e expanded sub next, n, index =>
    if skip e sub.isNode then projectTree first parent parentRef depth next (n + 1) index
    else
      let row : MenuRow := ⟨e.name, parent, depth, duplicates skip e.name first n, sub.isNode,
        expanded, next.isNode⟩
      let inner :=
        if sub.isNode && expanded then
          projectTree sub (some index) (n :: parentRef) (depth + 1) sub 0 (index + 1)
        else []
      (row, n :: parentRef) :: inner ++
        projectTree first parent parentRef depth next (n + 1) (index + 1 + inner.length)

/-- `menu_model_update`: the model it leaves, whatever model it is given. -/
def menuModelUpdate (tree : MenuTree) : MenuModel :=
  let projected := projectTree skip tree none [] 0 tree 0 0
  { rows := projected.map Prod.fst
    entries := projected.map Prod.snd
    count := menuModelCount skip tree }

end

/-- `menu_model_entry`. -/
def menuModelEntry (model : MenuModel) (index : Nat) : Option Ref :=
  if index < model.count then model.entries[index]? else none

section
variable {skip : MenuEntry → Bool → Bool}

/-- The entries `project_tree` lists. -/
def visible (skip : MenuEntry → Bool → Bool) (parentRef : Ref) : MenuTree → Nat → List Ref
  | .null, _ => []
  | .node e expanded sub next, n =>
    if skip e sub.isNode then visible skip parentRef next (n + 1)
    else (n :: parentRef) :: (if sub.isNode && expanded then visible skip (n :: parentRef) sub 0
      else []) ++ visible skip parentRef next (n + 1)

theorem visible_skip {parentRef : Ref} {e : MenuEntry} {x : Bool} {sub next : MenuTree} {n : Nat}
    (h : skip e sub.isNode = true) :
    visible skip parentRef (.node e x sub next) n = visible skip parentRef next (n + 1) := by
  rw [visible, if_pos h]

theorem visible_node {parentRef : Ref} {e : MenuEntry} {x : Bool} {sub next : MenuTree} {n : Nat}
    (h : skip e sub.isNode = false) :
    visible skip parentRef (.node e x sub next) n =
      (n :: parentRef) :: (if sub.isNode && x then visible skip (n :: parentRef) sub 0 else []) ++
        visible skip parentRef next (n + 1) := by
  rw [visible, h]
  rfl

theorem projectTree_entries (t : MenuTree) : ∀ (first : MenuTree) (parent : Option Nat)
    (parentRef : Ref) (depth n index : Nat),
    (projectTree skip first parent parentRef depth t n index).map Prod.snd =
      visible skip parentRef t n := by
  induction t with
  | null => intros; rfl
  | node e x sub next ihs ihn =>
    intro first parent parentRef depth n index
    rw [projectTree, visible]
    split
    · exact ihn ..
    · simp only [List.cons_append, List.map_cons, List.map_append, ihn]
      split
      · rw [ihs]
      · rfl

theorem length_visible (t : MenuTree) : ∀ (parentRef : Ref) (n : Nat),
    (visible skip parentRef t n).length = menuModelCount skip t := by
  induction t with
  | null => intros; rfl
  | node e x sub next ihs ihn =>
    intro parentRef n
    rw [visible, menuModelCount]
    split
    · exact ihn ..
    · rw [List.length_append, List.length_cons, ihn]
      split
      · rw [ihs]
        omega
      · simp

/-- Where the entries listed are. -/
theorem mem_visible (t : MenuTree) : ∀ (parentRef : Ref) (n : Nat) (ref : Ref),
    ref ∈ visible skip parentRef t n →
      ∃ i is, ref = is.reverse ++ (n + i) :: parentRef ∧ (t.entryAt i is).isNode = true := by
  induction t with
  | null => simp [visible]
  | node e x sub next ihs ihn =>
    intro parentRef n ref h
    have hnext : ref ∈ visible skip parentRef next (n + 1) → ∃ i is,
        ref = is.reverse ++ (n + i) :: parentRef ∧
          ((MenuTree.node e x sub next).entryAt i is).isNode = true := by
      intro hn
      obtain ⟨i, is, rfl, hi⟩ := ihn _ _ _ hn
      refine ⟨i + 1, is, by rw [Nat.add_right_comm, Nat.add_assoc], ?_⟩
      cases is <;> exact hi
    rw [visible] at h
    split at h
    · exact hnext h
    · rcases List.mem_append.mp h with h | h
      · rcases List.mem_cons.mp h with rfl | h
        · exact ⟨0, [], rfl, rfl⟩
        · split at h
          · obtain ⟨j, js, rfl, hj⟩ := ihs _ _ _ h
            exact ⟨0, j :: js, by simp, hj⟩
          · simp at h
      · exact hnext h

/-- The number of a sibling can be read off an entry under it. -/
theorem sibling_eq {a b parent : Ref} {x y : Nat} (h : a ++ x :: parent = b ++ y :: parent) :
    x = y := by
  have := (List.append_inj' h rfl).2
  simpa using this

variable (skip) in
theorem visible_nodup (t : MenuTree) : ∀ (parentRef : Ref) (n : Nat),
    (visible skip parentRef t n).Nodup := by
  induction t with
  | null =>
    intros
    exact List.nodup_nil
  | node e x sub next ihs ihn =>
    intro parentRef n
    by_cases hs : skip e sub.isNode = true
    · rw [visible_skip hs]
      exact ihn ..
    · rw [Bool.not_eq_true] at hs
      rw [visible_node hs, List.cons_append, List.nodup_cons, List.nodup_append]
      set inner := if sub.isNode && x then visible skip (n :: parentRef) sub 0 else [] with hinner
      have hdown : ∀ ref ∈ inner, ∃ is j, ref = (is ++ [j]) ++ n :: parentRef := by
        intro ref href
        rw [hinner] at href
        split at href
        · obtain ⟨j, is, rfl, -⟩ := mem_visible _ _ _ _ href
          exact ⟨is.reverse, 0 + j, by simp⟩
        · simp at href
      have hnext : ∀ ref ∈ visible skip parentRef next (n + 1), ∃ is i,
          ref = is ++ (n + 1 + i) :: parentRef := by
        intro ref href
        obtain ⟨i, is, rfl, -⟩ := mem_visible _ _ _ _ href
        exact ⟨is.reverse, i, rfl⟩
      refine ⟨?_, ?_, ihn .., ?_⟩
      · intro hmem
        rcases List.mem_append.mp hmem with hmem | hmem
        · obtain ⟨is, j, hj⟩ := hdown _ hmem
          have := congrArg List.length hj
          simp only [List.length_append, List.length_cons] at this
          omega
        · obtain ⟨is, i, hi⟩ := hnext _ hmem
          have := sibling_eq (show [] ++ n :: parentRef = _ from hi)
          omega
      · rw [hinner]
        split
        · exact ihs ..
        · exact List.nodup_nil
      · rintro a ha b hb rfl
        obtain ⟨is, j, rfl⟩ := hdown _ ha
        obtain ⟨is', i, hi⟩ := hnext _ hb
        have := sibling_eq hi
        omega

@[simp] theorem menuModelUpdate_entries (tree : MenuTree) :
    (menuModelUpdate skip tree).entries = visible skip [] tree 0 :=
  projectTree_entries tree tree none [] 0 0 0

theorem length_entries (tree : MenuTree) :
    (menuModelUpdate skip tree).entries.length = (menuModelUpdate skip tree).count := by
  rw [menuModelUpdate_entries, length_visible]
  rfl

/-- **The pointer `menu_model_entry` returns.** -/
theorem menuModelEntry_eq (tree : MenuTree) (index : Nat) :
    menuModelEntry (menuModelUpdate skip tree) index =
      (menuModelUpdate skip tree).entries[index]? := by
  rw [menuModelEntry]
  split
  · rfl
  · rw [List.getElem?_eq_none]
    rw [length_entries]
    omega

end

end Limine.Menu
