import Mathlib.Data.List.Basic

/-!
# Byte ranges and undo logs

`splice l i xs` overwrites `l` from index `i` on.  A `Patch` is the old contents of a range;
replaying patches newest first takes a list back to where the log began, and it does so from
every list that differs only where a patch lies (`undoAll_congr`).
-/

namespace Limine.Lib

variable {α : Type}

/-- The `n` elements from index `i` on. -/
def slice (l : List α) (i n : Nat) : List α := (l.drop i).take n

/-- `l` with `xs` written from index `i` on. -/
def splice (l : List α) (i : Nat) (xs : List α) : List α := l.take i ++ xs ++ l.drop (i + xs.length)

theorem length_slice {l : List α} {i n : Nat} (h : i + n ≤ l.length) : (slice l i n).length = n := by
  unfold slice
  rw [List.length_take, List.length_drop]
  omega

theorem getElem?_slice (l : List α) (i n k : Nat) :
    (slice l i n)[k]? = if k < n then l[i + k]? else none := by
  unfold slice
  rw [List.getElem?_take]
  split
  · rw [List.getElem?_drop]
  · rfl

theorem length_splice {l : List α} {i : Nat} {xs : List α} (h : i + xs.length ≤ l.length) :
    (splice l i xs).length = l.length := by
  unfold splice
  simp only [List.length_append, List.length_take, List.length_drop]
  omega

theorem getElem?_splice {l : List α} {i : Nat} {xs : List α} (h : i + xs.length ≤ l.length) (k : Nat) :
    (splice l i xs)[k]? = if i ≤ k ∧ k < i + xs.length then xs[k - i]? else l[k]? := by
  have hi : (l.take i).length = i := by
    rw [List.length_take]
    omega
  unfold splice
  by_cases h1 : k < i
  · rw [if_neg (by omega), List.getElem?_append_left (by rw [List.length_append]; omega),
      List.getElem?_append_left (by omega), List.getElem?_take_of_lt h1]
  by_cases h2 : k < i + xs.length
  · rw [if_pos (by omega), List.getElem?_append_left (by rw [List.length_append]; omega),
      List.getElem?_append_right (by omega), hi]
  · rw [if_neg (by omega), List.getElem?_append_right (by rw [List.length_append]; omega),
      List.length_append, hi, List.getElem?_drop]
    congr 1
    omega

theorem splice_nil (l : List α) (i : Nat) : splice l i [] = l := by
  simp [splice]

/-- What was written is what is read back. -/
theorem slice_splice {l : List α} {i : Nat} {xs : List α} (h : i + xs.length ≤ l.length) :
    slice (splice l i xs) i xs.length = xs := by
  apply List.ext_getElem?
  intro k
  rw [getElem?_slice]
  split
  · rw [getElem?_splice h, if_pos (by omega), Nat.add_sub_cancel_left]
  · rw [List.getElem?_eq_none (by omega)]

/-- Writing the old contents back undoes a write. -/
theorem splice_splice_slice {l : List α} {i : Nat} {xs : List α} (h : i + xs.length ≤ l.length) :
    splice (splice l i xs) i (slice l i xs.length) = l := by
  have hs := length_slice h
  apply List.ext_getElem?
  intro k
  rw [getElem?_splice (by rw [length_splice h, hs]; exact h), hs, getElem?_slice, getElem?_splice h]
  split
  · rw [if_pos (by omega)]
    congr 1
    omega
  · rfl

theorem splice_slice_self {l : List α} {i n : Nat} (h : i + n ≤ l.length) :
    splice l i (slice l i n) = l := by
  have hs := length_slice h
  apply List.ext_getElem?
  intro k
  rw [getElem?_splice (by omega), hs, getElem?_slice]
  split
  · rw [if_pos (by omega)]
    congr 1
    omega
  · rfl

/-- A write in two adjacent parts. -/
theorem splice_append {l : List α} {i : Nat} {xs ys : List α}
    (h : i + xs.length + ys.length ≤ l.length) :
    splice (splice l i xs) (i + xs.length) ys = splice l i (xs ++ ys) := by
  have hl : (splice l i xs).length = l.length := length_splice (by omega)
  apply List.ext_getElem?
  intro k
  rw [getElem?_splice (by omega), getElem?_splice (by omega),
    getElem?_splice (by rw [List.length_append]; omega), List.length_append]
  by_cases h1 : k < i + xs.length
  · rw [if_neg (by omega)]
    by_cases h2 : i ≤ k
    · rw [if_pos (by omega), if_pos (by omega), List.getElem?_append_left (by omega)]
    · rw [if_neg (by omega), if_neg (by omega)]
  · rw [if_neg (by omega : ¬ (i ≤ k ∧ k < i + xs.length))]
    by_cases h2 : k < i + xs.length + ys.length
    · rw [if_pos (by omega), if_pos (by omega), List.getElem?_append_right (by omega)]
      congr 1
      omega
    · rw [if_neg (by omega), if_neg (by omega)]

theorem slice_slice (l : List α) (i : Nat) {n j m : Nat} (h : j + m ≤ n) :
    slice (slice l i n) j m = slice l (i + j) m := by
  apply List.ext_getElem?
  intro k
  rw [getElem?_slice, getElem?_slice, getElem?_slice]
  split
  · rw [if_pos (by omega), Nat.add_assoc]
  · rfl

theorem slice_append_slice {l : List α} {i n m : Nat} (h : i + n ≤ l.length) :
    slice l i n ++ slice l (i + n) m = slice l i (n + m) := by
  have hl := length_slice h
  apply List.ext_getElem?
  intro k
  rw [List.getElem?_append, hl, getElem?_slice, getElem?_slice, getElem?_slice]
  by_cases h1 : k < n
  · rw [if_pos h1, if_pos h1, if_pos (by omega)]
  · rw [if_neg h1]
    by_cases h2 : k < n + m
    · rw [if_pos (by omega), if_pos h2]
      congr 1
      omega
    · rw [if_neg (by omega), if_neg h2]

/-- A write through a block that is itself written back. -/
theorem splice_splice_inner {l c : List α} {i j : Nat} {xs : List α} (hi : i + c.length ≤ l.length)
    (hj : j + xs.length ≤ c.length) :
    splice l i (splice c j xs) = splice (splice l i c) (i + j) xs := by
  have hc := length_splice hj
  have hl := length_splice hi
  apply List.ext_getElem?
  intro k
  rw [getElem?_splice (by omega), hc, getElem?_splice hj, getElem?_splice (by omega),
    getElem?_splice hi]
  by_cases h1 : i ≤ k ∧ k < i + c.length
  · rw [if_pos h1, if_pos h1]
    by_cases h2 : i + j ≤ k ∧ k < i + j + xs.length
    · rw [if_pos h2, if_pos (by omega)]
      congr 1
      omega
    · rw [if_neg h2, if_neg (by omega)]
  · rw [if_neg h1, if_neg h1, if_neg (by omega)]

/-! ## Undo logs -/

/-- A range and what it held. -/
structure Patch (α : Type) where
  loc : Nat
  data : List α

namespace Patch

def Touches (p : Patch α) (k : Nat) : Prop := p.loc ≤ k ∧ k < p.loc + p.data.length

/-- The range lies in a list of length `n`; an empty one may lie anywhere. -/
def Fits (p : Patch α) (n : Nat) : Prop := p.data = [] ∨ p.loc + p.data.length ≤ n

def apply (p : Patch α) (l : List α) : List α := splice l p.loc p.data

theorem length_apply {p : Patch α} {l : List α} (h : p.Fits l.length) :
    (p.apply l).length = l.length := by
  unfold apply
  rcases h with h | h
  · rw [h, splice_nil]
  · exact length_splice h

theorem getElem?_apply {p : Patch α} {l : List α} (h : p.Fits l.length) (k : Nat) :
    (p.apply l)[k]? = if p.loc ≤ k ∧ k < p.loc + p.data.length then p.data[k - p.loc]? else l[k]? := by
  unfold apply
  rcases h with h | h
  · rw [h, splice_nil, if_neg (by rw [List.length_nil]; omega)]
  · exact getElem?_splice h k

end Patch

/-- The patches' ranges. -/
def Touched (ps : List (Patch α)) (k : Nat) : Prop := ∃ p ∈ ps, p.Touches k

/-- Replay `ps`, the first one first. -/
def undoAll (ps : List (Patch α)) (l : List α) : List α := ps.foldl (fun l p => p.apply l) l

/-- Off `S` the two lists agree. -/
structure AgreeOff (S : Nat → Prop) (l l' : List α) : Prop where
  length : l.length = l'.length
  agree : ∀ k, ¬ S k → l[k]? = l'[k]?

theorem AgreeOff.refl (S : Nat → Prop) (l : List α) : AgreeOff S l l := ⟨rfl, fun _ _ => rfl⟩

theorem AgreeOff.symm {S : Nat → Prop} {l l' : List α} (h : AgreeOff S l l') : AgreeOff S l' l :=
  ⟨h.length.symm, fun k hk => (h.agree k hk).symm⟩

theorem AgreeOff.trans {S : Nat → Prop} {l l' l'' : List α} (h : AgreeOff S l l')
    (h' : AgreeOff S l' l'') : AgreeOff S l l'' :=
  ⟨h.length.trans h'.length, fun k hk => (h.agree k hk).trans (h'.agree k hk)⟩

theorem AgreeOff.mono {S S' : Nat → Prop} {l l' : List α} (h : AgreeOff S l l')
    (hS : ∀ k, S k → S' k) : AgreeOff S' l l' :=
  ⟨h.length, fun k hk => h.agree k fun hs => hk (hS k hs)⟩

/-- A write inside `S` is not seen off `S`. -/
theorem AgreeOff.splice {S : Nat → Prop} {l : List α} {i : Nat} {xs : List α}
    (h : i + xs.length ≤ l.length) (hS : ∀ k, i ≤ k → k < i + xs.length → S k) :
    AgreeOff S l (splice l i xs) := by
  refine ⟨(length_splice h).symm, fun k hk => ?_⟩
  rw [getElem?_splice h, if_neg fun hin => hk (hS k hin.1 hin.2)]

/-- Replaying a log gives the same from lists that agree off the log's ranges. -/
theorem undoAll_congr (ps : List (Patch α)) : ∀ {l l' : List α}, (∀ p ∈ ps, p.Fits l.length) →
    AgreeOff (Touched ps) l l' → undoAll ps l = undoAll ps l' := by
  induction ps with
  | nil =>
    intro l l' _ h
    exact List.ext_getElem? fun k => h.agree k fun ⟨p, hp, _⟩ => absurd hp List.not_mem_nil
  | cons p ps ih =>
    intro l l' hf h
    obtain ⟨hp, hf⟩ := List.forall_mem_cons.mp hf
    have hp' : p.Fits l'.length := h.length ▸ hp
    refine ih (fun q hq => (Patch.length_apply hp).symm ▸ hf q hq) ⟨?_, fun k hk => ?_⟩
    · rw [Patch.length_apply hp, Patch.length_apply hp', h.length]
    · rw [Patch.getElem?_apply hp, Patch.getElem?_apply hp']
      split
      · rfl
      · next hn =>
        refine h.agree k fun ⟨q, hq, hqk⟩ => ?_
        rcases List.mem_cons.mp hq with rfl | hq
        · exact hn hqk
        · exact hk ⟨q, hq, hqk⟩

/-- The log `ps`, newest first, takes `l` back to `l₀`. -/
structure Recovers (ps : List (Patch α)) (l₀ l : List α) : Prop where
  fits : ∀ p ∈ ps, p.Fits l.length
  undo : undoAll ps l = l₀

theorem Recovers.nil (l : List α) : Recovers [] l l := ⟨fun _ h => absurd h List.not_mem_nil, rfl⟩

/-- A write whose old contents are logged first. -/
theorem Recovers.write {ps : List (Patch α)} {l₀ l : List α} (h : Recovers ps l₀ l) {i : Nat}
    {xs : List α} (hx : xs = [] ∨ i + xs.length ≤ l.length) :
    Recovers (⟨i, slice l i xs.length⟩ :: ps) l₀ (splice l i xs) := by
  rcases hx with rfl | hx
  · have he : slice l i ([] : List α).length = [] := by simp [slice]
    rw [splice_nil, he]
    refine ⟨List.forall_mem_cons.mpr ⟨Or.inl rfl, h.fits⟩, ?_⟩
    show undoAll ps (splice l i []) = l₀
    rw [splice_nil, h.undo]
  · refine ⟨?_, ?_⟩
    · rw [length_splice hx]
      exact List.forall_mem_cons.mpr ⟨Or.inr (by rw [length_slice hx]; exact hx), h.fits⟩
    · show undoAll ps (splice (splice l i xs) i (slice l i xs.length)) = l₀
      rw [splice_splice_slice hx, h.undo]

theorem Recovers.of_agreeOff {ps : List (Patch α)} {l₀ l l' : List α} (h : Recovers ps l₀ l)
    (ha : AgreeOff (Touched ps) l l') : Recovers ps l₀ l' :=
  ⟨ha.length ▸ h.fits, (undoAll_congr ps h.fits ha).symm.trans h.undo⟩

end Limine.Lib
