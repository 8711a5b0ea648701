import Mathlib.Data.List.Basic

/-!
# Paths as lists of names

A directory is the list of names that lead to it from the root.  Resolving a path walks over its
parts: empty ones and `.` stay, `..` goes up and stops at the root, and any other goes down.
-/

namespace Limine.Lib.PathNames

variable {α : Type} (sep dot : α)

/-- A name that a directory may have. -/
structure IsName (name : List α) : Prop where
  ne_nil : name ≠ []
  ne_dot : name ≠ [dot]
  ne_dots : name ≠ [dot, dot]
  sep_not_mem : sep ∉ name

/-- The names with a separator before each. -/
def joined (names : List (List α)) : List α := names.flatMap fun name => sep :: name

/-- The normal form of the path to a directory. -/
def render (names : List (List α)) : List α := if names = [] then [sep] else joined sep names

theorem joined_append {sep : α} (a b : List (List α)) :
    joined sep (a ++ b) = joined sep a ++ joined sep b := List.flatMap_append

theorem render_of_ne_nil {sep : α} {names : List (List α)} (h : names ≠ []) :
    render sep names = joined sep names := if_neg h

variable [DecidableEq α]

def step (names : List (List α)) (part : List α) : List (List α) :=
  if part = [] ∨ part = [dot] then names
  else if part = [dot, dot] then names.dropLast
  else names ++ [part]

def walk (names : List (List α)) (path : List α) : List (List α) :=
  (path.splitOn sep).foldl (step dot) names

/-- A path that begins with a separator starts at the root. -/
def resolve (dir : List (List α)) (path : List α) : List (List α) :=
  if path.head? = some sep then walk sep dot [] path else walk sep dot dir path

variable {sep dot}

theorem step_of_isName {names : List (List α)} {part : List α} (h : IsName sep dot part) :
    step dot names part = names ++ [part] := by
  unfold step
  rw [if_neg (not_or.mpr ⟨h.ne_nil, h.ne_dot⟩), if_neg h.ne_dots]

theorem walk_part {names : List (List α)} {part : List α} (h : sep ∉ part) :
    walk sep dot names part = step dot names part := by
  unfold walk
  rw [List.splitOn_eq_singleton h]
  rfl

theorem walk_part_sep {names : List (List α)} {part : List α} (h : sep ∉ part) (path : List α) :
    walk sep dot names (part ++ sep :: path) = walk sep dot (step dot names part) path := by
  unfold walk
  rw [List.splitOn_append_cons_self_of_not_mem h]
  rfl

theorem walk_nil (names : List (List α)) : walk sep dot names [] = names := walk_part (by simp)

theorem walk_sep (names : List (List α)) (path : List α) :
    walk sep dot names (sep :: path) = walk sep dot names path :=
  walk_part_sep (List.not_mem_nil : sep ∉ []) path

theorem walk_joined {names : List (List α)} (h : ∀ name ∈ names, IsName sep dot name) :
    ∀ start : List (List α), walk sep dot start (joined sep names) = start ++ names := by
  induction names with
  | nil =>
    intro start
    rw [List.append_nil]
    exact walk_nil start
  | cons name names ih =>
    intro start
    have hname := h name List.mem_cons_self
    have ih := ih fun x hx => h x (List.mem_cons_of_mem name hx)
    show walk sep dot start (sep :: (name ++ joined sep names)) = _
    rw [walk_sep]
    cases names with
    | nil =>
      show walk sep dot start (name ++ []) = _
      rw [List.append_nil, walk_part hname.sep_not_mem, step_of_isName hname]
    | cons next names =>
      have hnext : joined sep (next :: names) = sep :: (next ++ joined sep names) := rfl
      rw [hnext, walk_part_sep hname.sep_not_mem, step_of_isName hname, ← walk_sep, ← hnext,
        ih (start ++ [name]), List.append_assoc]
      rfl

/-- A path in normal form resolves to what it was made from. -/
theorem resolve_render {names : List (List α)} (h : ∀ name ∈ names, IsName sep dot name)
    (dir : List (List α)) : resolve sep dot dir (render sep names) = names := by
  have hhead : (render sep names).head? = some sep := by
    unfold render
    split
    · rfl
    · next hne =>
      cases names with
      | nil => exact absurd rfl hne
      | cons name names => rfl
  unfold resolve
  rw [if_pos hhead]
  unfold render
  split
  · next hnil =>
    rw [hnil, walk_sep, walk_nil]
  · exact (walk_joined h []).trans (List.nil_append names)

theorem step_names {names : List (List α)} (h : ∀ name ∈ names, IsName sep dot name) {part : List α}
    (hpart : sep ∉ part) : ∀ name ∈ step dot names part, IsName sep dot name := by
  intro name hname
  unfold step at hname
  split at hname
  · exact h name hname
  · next hne =>
    rw [not_or] at hne
    split at hname
    · exact h name ((List.dropLast_sublist names).mem hname)
    · next hdots =>
      rcases List.mem_append.mp hname with hname | hname
      · exact h name hname
      · rw [List.mem_singleton.mp hname]
        exact ⟨hne.1, hne.2, hdots, hpart⟩

theorem sep_not_mem_part {path part : List α} (h : part ∈ path.splitOn sep) : sep ∉ part := by
  induction path generalizing part with
  | nil =>
    rw [List.splitOn_nil, List.mem_singleton] at h
    rw [h]
    exact List.not_mem_nil
  | cons c path ih =>
    rw [List.splitOn_cons_eq_if_modifyHead] at h
    split at h
    · rcases List.mem_cons.mp h with rfl | h
      · exact List.not_mem_nil
      · exact ih h
    · next hc =>
      cases hsplit : path.splitOn sep with
      | nil => exact absurd hsplit (List.splitOn_ne_nil sep path)
      | cons first rest =>
        rw [hsplit] at h ih
        rcases List.mem_cons.mp h with rfl | h
        · have hne : c ≠ sep := by simpa using hc
          simp [ih List.mem_cons_self, Ne.symm hne]
        · exact ih (List.mem_cons_of_mem first h)

theorem walk_names {names : List (List α)} (h : ∀ name ∈ names, IsName sep dot name) (path : List α) :
    ∀ name ∈ walk sep dot names path, IsName sep dot name := by
  unfold walk
  have hparts : ∀ part ∈ path.splitOn sep, sep ∉ part := fun part => sep_not_mem_part
  generalize path.splitOn sep = parts at hparts
  induction parts generalizing names with
  | nil => exact h
  | cons part parts ih =>
    exact ih (step_names h (hparts part List.mem_cons_self)) fun p hp =>
      hparts p (List.mem_cons_of_mem part hp)

theorem resolve_names {dir : List (List α)} (h : ∀ name ∈ dir, IsName sep dot name) (path : List α) :
    ∀ name ∈ resolve sep dot dir path, IsName sep dot name := by
  unfold resolve
  split
  · exact walk_names (by simp) path
  · exact walk_names h path

end Limine.Lib.PathNames
