import Mathlib.Algebra.Group.Nat.Defs
import Mathlib.Data.Nat.Init

/-!
# Radix tables

Tables of 512 slots, level over level: a slot of level `k` stands for `pageBytes k` addresses and
is empty, a leaf, or a table of level `k - 1`.  Tables sit at pages of one memory, so a write to
one page might be seen on many paths; `Owned` says that a page has one place in the trees, after
which a write changes the walks through its slot and no other (`addTable_spec`, `setLeaf_spec`).
-/

namespace Limine.Lib

/-- The addresses a slot of level `k` stands for. -/
def pageBytes (k : Nat) : Nat := 2 ^ (12 + 9 * k)

/-- The number of the level `k` slot that address `w` lies in, counted from address 0. -/
def slotOf (k w : Nat) : Nat := w / pageBytes k

/-- The same in its table. -/
def slotIndex (k w : Nat) : Nat := slotOf k w % 512

theorem pageBytes_pos (k : Nat) : 0 < pageBytes k := Nat.two_pow_pos _

theorem pageBytes_succ (k : Nat) : pageBytes (k + 1) = pageBytes k * 512 := by
  unfold pageBytes
  rw [show 12 + 9 * (k + 1) = 12 + 9 * k + 9 by omega, Nat.pow_add]

theorem pageBytes_dvd {j k : Nat} (h : j ≤ k) : pageBytes j ∣ pageBytes k :=
  Nat.pow_dvd_pow 2 (by omega)

theorem slotIndex_lt (k w : Nat) : slotIndex k w < 512 := Nat.mod_lt _ (by decide)

theorem slotOf_eq (k w : Nat) : slotOf k w = slotOf (k + 1) w * 512 + slotIndex k w := by
  unfold slotIndex slotOf
  rw [pageBytes_succ, ← Nat.div_div_eq_div_mul]
  omega

/-- The addresses of a slot. -/
theorem slotOf_eq_iff {k w n : Nat} :
    slotOf k w = n ↔ n * pageBytes k ≤ w ∧ w < n * pageBytes k + pageBytes k := by
  have h0 := pageBytes_pos k
  unfold slotOf
  constructor
  · rintro rfl
    have h1 := Nat.div_add_mod' w (pageBytes k)
    have h2 := Nat.mod_lt w h0
    omega
  · rintro ⟨h1, h2⟩
    refine Nat.div_eq_of_lt_le h1 ?_
    rwa [Nat.succ_mul]

theorem slotOf_add {k i : Nat} (hi : i < pageBytes k) (n : Nat) : slotOf k (n * pageBytes k + i) = n :=
  slotOf_eq_iff.mpr ⟨by omega, by omega⟩

theorem slotOf_succ_congr {k w w' : Nat} (h : slotOf k w = slotOf k w') :
    slotOf (k + 1) w = slotOf (k + 1) w' ∧ slotIndex k w = slotIndex k w' := by
  have h1 := slotOf_eq k w
  have h2 := slotOf_eq k w'
  have h3 := slotIndex_lt k w
  have h4 := slotIndex_lt k w'
  omega

theorem slotOf_congr {j k w w' : Nat} (hjk : j ≤ k) (h : slotOf j w = slotOf j w') :
    slotOf k w = slotOf k w' := by
  induction k, hjk using Nat.le_induction with
  | base => exact h
  | succ k _ ih => exact (slotOf_succ_congr ih).1

inductive Slot (L : Type)
  | empty
  | table (page : Nat)
  | leaf (l : L)

/-- The slots by page and index. -/
abbrev Tables (L : Type) := Nat → Nat → Slot L

variable {L : Type}

namespace Tables

/-- The leaf that address `w` meets below the table `p` of level `k`, with its level. -/
def walk (G : Tables L) (w : Nat) : Nat → Nat → Option (Nat × L)
  | 0, p =>
    match G p (slotIndex 0 w) with
    | .leaf l => some (0, l)
    | _ => none
  | k + 1, p =>
    match G p (slotIndex (k + 1) w) with
    | .leaf l => some (k + 1, l)
    | .table q => walk G w k q
    | .empty => none

/-- The table of level `j` that address `w` meets. -/
def tableAt (G : Tables L) (j w : Nat) : Nat → Nat → Option Nat
  | 0, p => if j = 0 then some p else none
  | k + 1, p =>
    if j = k + 1 then some p
    else
      match G p (slotIndex (k + 1) w) with
      | .table q => tableAt G j w k q
      | _ => none

theorem walk_zero (G : Tables L) (w p : Nat) : G.walk w 0 p =
    match G p (slotIndex 0 w) with
    | .leaf l => some (0, l)
    | _ => none := rfl

theorem walk_succ (G : Tables L) (w k p : Nat) : G.walk w (k + 1) p =
    match G p (slotIndex (k + 1) w) with
    | .leaf l => some (k + 1, l)
    | .table q => G.walk w k q
    | .empty => none := rfl

theorem tableAt_zero (G : Tables L) (j w p : Nat) : G.tableAt j w 0 p = if j = 0 then some p else none := rfl

theorem tableAt_succ (G : Tables L) (j w k p : Nat) : G.tableAt j w (k + 1) p =
    if j = k + 1 then some p
    else
      match G p (slotIndex (k + 1) w) with
      | .table q => G.tableAt j w k q
      | _ => none := rfl

/-- No leaf above level `d` on the path of `w`. -/
def Clear (G : Tables L) (d w : Nat) : Nat → Nat → Prop
  | 0, _ => True
  | k + 1, p =>
    d < k + 1 →
      match G p (slotIndex (k + 1) w) with
      | .leaf _ => False
      | .table q => Clear G d w k q
      | .empty => True

def set (G : Tables L) (p i : Nat) (s : Slot L) : Tables L :=
  fun p' i' => if p' = p ∧ i' = i then s else G p' i'

def clearPage (G : Tables L) (q : Nat) : Tables L := fun p' i' => if p' = q then .empty else G p' i'

@[simp] theorem set_same (G : Tables L) (p i : Nat) (s : Slot L) : G.set p i s p i = s :=
  if_pos ⟨rfl, rfl⟩

theorem set_of_ne (G : Tables L) {p i p' i' : Nat} (s : Slot L) (h : ¬ (p' = p ∧ i' = i)) :
    G.set p i s p' i' = G p' i' := if_neg h

theorem clearPage_same (G : Tables L) (q i : Nat) : G.clearPage q q i = .empty := if_pos rfl

theorem clearPage_of_ne (G : Tables L) {q p : Nat} (i : Nat) (h : p ≠ q) :
    G.clearPage q p i = G p i := if_neg h

theorem tableAt_self (G : Tables L) (k w p : Nat) : G.tableAt k w k p = some p := by
  cases k with
  | zero => rfl
  | succ k => exact if_pos rfl

theorem tableAt_le {G : Tables L} {j w : Nat} : ∀ {k p q : Nat}, G.tableAt j w k p = some q → j ≤ k := by
  intro k
  induction k with
  | zero =>
    intro p q h
    rw [tableAt_zero] at h
    split at h
    · omega
    · cases h
  | succ k ih =>
    intro p q h
    rw [tableAt_succ] at h
    split at h
    · omega
    · split at h
      · exact Nat.le_succ_of_le (ih h)
      · cases h

/-- A walk goes through the tables it meets. -/
theorem walk_of_tableAt {G : Tables L} {j w : Nat} : ∀ {k p q : Nat}, G.tableAt j w k p = some q →
    G.walk w k p = G.walk w j q := by
  intro k
  induction k with
  | zero =>
    intro p q h
    obtain rfl : j = 0 := Nat.le_zero.mp (tableAt_le h)
    rw [tableAt_self] at h
    rw [Option.some.inj h]
  | succ k ih =>
    intro p q h
    by_cases hj : j = k + 1
    · subst hj
      rw [tableAt_self] at h
      rw [Option.some.inj h]
    · rw [tableAt_succ, if_neg hj] at h
      rw [walk_succ]
      split at h
      · next hs =>
        rw [hs]
        exact ih h
      · cases h

theorem walk_level_le {G : Tables L} {w : Nat} : ∀ {k p : Nat} {r : Nat × L},
    G.walk w k p = some r → r.1 ≤ k := by
  intro k
  induction k with
  | zero =>
    intro p r hr
    rw [walk_zero] at hr
    split at hr
    · cases Option.some.inj hr
      exact Nat.le_refl 0
    · cases hr
  | succ k ih =>
    intro p r hr
    rw [walk_succ] at hr
    split at hr
    · cases Option.some.inj hr
      exact Nat.le_refl (k + 1)
    · exact Nat.le_succ_of_le (ih hr)
    · cases hr

/-- On a clear path the leaf is low. -/
theorem level_le_of_clear {G : Tables L} {d w : Nat} : ∀ {k p : Nat} {r : Nat × L}, G.Clear d w k p →
    G.walk w k p = some r → d ≤ k → r.1 ≤ d := by
  intro k
  induction k with
  | zero => intro p r _ hr _; exact Nat.le_trans (walk_level_le hr) (Nat.zero_le d)
  | succ k ih =>
    intro p r hc hr hd
    by_cases hlt : d < k + 1
    · have hc' := hc hlt
      rw [walk_succ] at hr
      split at hr
      · next hs =>
        rw [hs] at hc'
        exact hc'.elim
      · next hs =>
        rw [hs] at hc'
        exact ih hc' hr (by omega)
      · cases hr
    · exact Nat.le_trans (walk_level_le hr) (by omega)

theorem clear_of_le (G : Tables L) {d w k p : Nat} (h : k ≤ d) : G.Clear d w k p := by
  cases k with
  | zero => trivial
  | succ k => exact fun hd => absurd hd (by omega)

/-- What is above a table of the path is no leaf. -/
theorem clear_of_tableAt {G : Tables L} {d j w : Nat} : ∀ {k p q : Nat},
    G.tableAt j w k p = some q → (G.Clear d w k p ↔ G.Clear d w j q) := by
  intro k
  induction k with
  | zero =>
    intro p q h
    obtain rfl : j = 0 := Nat.le_zero.mp (tableAt_le h)
    rw [tableAt_self] at h
    rw [Option.some.inj h]
  | succ k ih =>
    intro p q h
    by_cases hj : j = k + 1
    · subst hj
      rw [tableAt_self] at h
      rw [Option.some.inj h]
    · have hle := tableAt_le h
      rw [tableAt_succ, if_neg hj] at h
      split at h
      · next hs =>
        rw [← ih h, Clear, hs]
        exact ⟨fun hc => if hd : d < k + 1 then hc hd else clear_of_le G (by omega), fun hc _ => hc⟩
      · cases h

/-- The next table of the path. -/
theorem tableAt_step {G : Tables L} {j w : Nat} : ∀ {k p q r : Nat},
    G.tableAt (j + 1) w k p = some q → G q (slotIndex (j + 1) w) = .table r →
    G.tableAt j w k p = some r := by
  intro k
  induction k with
  | zero => intro p q r h _; exact absurd (tableAt_le h) (by omega)
  | succ k ih =>
    intro p q r h hs
    have hle := tableAt_le h
    rw [tableAt_succ, if_neg (by omega)]
    by_cases hj : j + 1 = k + 1
    · obtain rfl : j = k := by omega
      rw [tableAt_self] at h
      obtain rfl := Option.some.inj h
      rw [hs]
      exact tableAt_self G j w r
    · rw [tableAt_succ, if_neg hj] at h
      split at h
      · next hq => exact ih h hs
      · cases h

/-- No table of the path below a slot that points to none. -/
theorem tableAt_stop {G : Tables L} {i j w : Nat} (hij : i < j) : ∀ {k p q : Nat},
    G.tableAt j w k p = some q → (∀ r, G q (slotIndex j w) ≠ .table r) → G.tableAt i w k p = none := by
  intro k
  induction k with
  | zero => intro p q h _; exact absurd (tableAt_le h) (by omega)
  | succ k ih =>
    intro p q h hs
    have hle := tableAt_le h
    rw [tableAt_succ, if_neg (by omega)]
    by_cases hj : j = k + 1
    · subst hj
      rw [tableAt_self] at h
      obtain rfl := Option.some.inj h
      split
      · next r hr => exact absurd hr (hs r)
      · rfl
    · rw [tableAt_succ, if_neg hj] at h
      split at h
      · next hq => exact ih h hs
      · cases h

/-- The path down to level `j` depends on the address's level `j + 1` slot only. -/
theorem tableAt_congr {G : Tables L} {j w w' : Nat} (hw : slotOf (j + 1) w = slotOf (j + 1) w') :
    ∀ k p, G.tableAt j w k p = G.tableAt j w' k p := by
  intro k
  induction k with
  | zero => intro p; rfl
  | succ k ih =>
    intro p
    rw [tableAt_succ, tableAt_succ]
    split
    · rfl
    · next hj =>
      by_cases hle : j ≤ k
      · rw [(slotOf_succ_congr (slotOf_congr (by omega : j + 1 ≤ k + 1) hw)).2]
        split
        · exact ih _
        · rfl
      · have hn : ∀ w q, G.tableAt j w k q = none := fun w q =>
          Option.eq_none_iff_forall_ne_some.mpr fun r hr => absurd (tableAt_le hr) hle
        split <;> split <;> simp_all

/-- Tables that agree on the path of `w` down to above level `j`. -/
theorem tableAt_eq_of_agree {G G' : Tables L} {j w : Nat} : ∀ {k p : Nat},
    (∀ i q, j < i → G.tableAt i w k p = some q → G' q (slotIndex i w) = G q (slotIndex i w)) →
    ∀ i, j ≤ i → G'.tableAt i w k p = G.tableAt i w k p := by
  intro k
  induction k with
  | zero => intro p _ i _; rfl
  | succ k ih =>
    intro p h i hi
    rw [tableAt_succ, tableAt_succ]
    split
    · rfl
    next hik =>
    by_cases hlt : j < k + 1
    · rw [h (k + 1) p hlt (tableAt_self ..)]
      split
      · next q hq =>
        refine ih (fun i' q' hi' hq' => h i' q' hi' ?_) i hi
        have hle := tableAt_le hq'
        rw [tableAt_succ, if_neg (by omega), hq]
        exact hq'
      · rfl
    · have hn : ∀ (G : Tables L) q, G.tableAt i w k q = none := fun G q =>
        Option.eq_none_iff_forall_ne_some.mpr fun r hr => absurd (tableAt_le hr) (by omega)
      split <;> split <;> simp_all

/-- Tables that agree on the whole path of `w`. -/
theorem path_congr {G G' : Tables L} {w : Nat} : ∀ {k p : Nat},
    (∀ j q, G.tableAt j w k p = some q → G' q (slotIndex j w) = G q (slotIndex j w)) →
    G'.walk w k p = G.walk w k p ∧ ∀ d, G'.Clear d w k p ↔ G.Clear d w k p := by
  intro k
  induction k with
  | zero =>
    intro p h
    rw [walk_zero, walk_zero, h 0 p (tableAt_self ..)]
    exact ⟨rfl, fun _ => Iff.rfl⟩
  | succ k ih =>
    intro p h
    have hp := h (k + 1) p (tableAt_self ..)
    rw [walk_succ, walk_succ]
    unfold Clear
    rw [hp]
    split
    · exact ⟨rfl, fun _ => Iff.rfl⟩
    · next q hq =>
      have hq' := @ih q fun j r hr => h j r (by
        have hle := tableAt_le hr
        rw [tableAt_succ, if_neg (by omega), hq]
        exact hr)
      exact ⟨hq'.1, fun d => imp_congr_right fun _ => hq'.2 d⟩
    · exact ⟨rfl, fun _ => Iff.rfl⟩

end Tables

/-- The place of a page in the trees: its level, and the slot of the next level it fills. -/
abbrev Owner := Nat → Option (Nat × Nat)

/-- Trees of one height: tree `h` translates the addresses whose slot above the top is `h`. -/
structure Trees where
  levels : Nat
  root : Nat → Nat
  count : Nat

namespace Trees

variable (T : Trees)

def Has (w : Nat) : Prop := slotOf (T.levels + 1) w < T.count

def top (w : Nat) : Nat := T.root (slotOf (T.levels + 1) w)

def walk (G : Tables L) (w : Nat) : Option (Nat × L) := G.walk w T.levels (T.top w)

def tableAt (G : Tables L) (j w : Nat) : Option Nat := G.tableAt j w T.levels (T.top w)

def Clear (G : Tables L) (d w : Nat) : Prop := G.Clear d w T.levels (T.top w)

/-- Every page has one place at most, and what a table's slot points to has the place below it. -/
structure Wf (G : Tables L) (own : Owner) : Prop where
  root : ∀ h, h < T.count → own (T.root h) = some (T.levels, h)
  table : ∀ p k x i q, own p = some (k, x) → i < 512 → G p i = .table q →
    ∃ k', k = k' + 1 ∧ own q = some (k', x * 512 + i)

/-- Places are kept, and new pages may get one. -/
def OwnerLe (own own' : Owner) : Prop := ∀ p x, own p = some x → own' p = some x

variable {T} {G : Tables L} {own : Owner}

theorem Has.congr {j w w' : Nat} (hj : j ≤ T.levels + 1) (hw : slotOf j w = slotOf j w') (h : T.Has w) :
    T.Has w' := by
  unfold Has at *
  rwa [← slotOf_congr hj hw]

/-- A table on the path of `w` has its place there. -/
theorem Wf.own_tableAt (h : T.Wf G own) {j w : Nat} (hw : T.Has w) {q : Nat}
    (hq : T.tableAt G j w = some q) : own q = some (j, slotOf (j + 1) w) := by
  have main : ∀ k p, own p = some (k, slotOf (k + 1) w) → G.tableAt j w k p = some q →
      own q = some (j, slotOf (j + 1) w) := by
    intro k
    induction k with
    | zero =>
      intro p hp hq
      obtain rfl : j = 0 := Nat.le_zero.mp (Tables.tableAt_le hq)
      rw [Tables.tableAt_self] at hq
      rwa [← Option.some.inj hq]
    | succ k ih =>
      intro p hp hq
      by_cases hj : j = k + 1
      · subst hj
        rw [Tables.tableAt_self] at hq
        rwa [← Option.some.inj hq]
      · rw [Tables.tableAt, if_neg hj] at hq
        split at hq
        · next r hr =>
          obtain ⟨k', hk, hown⟩ := h.table p _ _ _ _ hp (slotIndex_lt _ _) hr
          obtain rfl : k = k' := by omega
          rw [← slotOf_eq] at hown
          exact ih r hown hq
        · cases hq
  exact main T.levels (T.top w) (h.root _ hw) hq

theorem tableAt_le {j w q : Nat} (h : T.tableAt G j w = some q) : j ≤ T.levels := Tables.tableAt_le h

/-- Addresses that share the slot above table `p` share `p`. -/
theorem tableAt_congr {j w w' : Nat} (hj : j ≤ T.levels) (hw : slotOf (j + 1) w = slotOf (j + 1) w') :
    T.tableAt G j w = T.tableAt G j w' := by
  unfold tableAt top
  rw [slotOf_congr (by omega : j + 1 ≤ T.levels + 1) hw, Tables.tableAt_congr hw]

/-! ## Writing a slot -/

/-- A write to a slot of table `p`, of level `j` on the path of `w₀`: what the other paths see. -/
theorem set_other (h : T.Wf G own) {j w₀ p : Nat} (hw₀ : T.Has w₀) (hp : T.tableAt G j w₀ = some p)
    (s : Slot L) {w : Nat} (hw : T.Has w) (hne : slotOf j w ≠ slotOf j w₀) :
    T.walk (G.set p (slotIndex j w₀) s) w = T.walk G w ∧
    (∀ d, T.Clear (G.set p (slotIndex j w₀) s) d w ↔ T.Clear G d w) ∧
    ∀ i, T.tableAt (G.set p (slotIndex j w₀) s) i w = T.tableAt G i w := by
  have hagree : ∀ i q, T.tableAt G i w = some q →
      G.set p (slotIndex j w₀) s q (slotIndex i w) = G q (slotIndex i w) := by
    intro i q hq
    refine Tables.set_of_ne G s fun ⟨hqp, hi⟩ => hne ?_
    have h1 := h.own_tableAt hw hq
    rw [hqp, h.own_tableAt hw₀ hp] at h1
    obtain ⟨rfl, h2⟩ := Prod.mk.inj (Option.some.inj h1)
    rw [slotOf_eq j w, slotOf_eq j w₀, h2, hi]
  exact ⟨(Tables.path_congr hagree).1, (Tables.path_congr hagree).2,
    fun i => Tables.tableAt_eq_of_agree (fun i' q _ hq => hagree i' q hq) i (Nat.le_refl i)⟩

/-- Above the written slot all paths stay. -/
theorem set_above (h : T.Wf G own) {j w₀ p : Nat} (hw₀ : T.Has w₀) (hp : T.tableAt G j w₀ = some p)
    (i₀ : Nat) (s : Slot L) {w : Nat} (hw : T.Has w) {i : Nat} (hi : j ≤ i) :
    T.tableAt (G.set p i₀ s) i w = T.tableAt G i w := by
  refine Tables.tableAt_eq_of_agree (fun i' q hi' hq => ?_) i hi
  refine Tables.set_of_ne G s fun ⟨hqp, _⟩ => ?_
  have h1 := h.own_tableAt hw hq
  rw [hqp, h.own_tableAt hw₀ hp] at h1
  obtain ⟨rfl, -⟩ := Prod.mk.inj (Option.some.inj h1)
  omega

/-- The walk of an address whose path has table `p`. -/
theorem walk_eq {j w p : Nat} (hp : T.tableAt G j w = some p) : T.walk G w = G.walk w j p :=
  Tables.walk_of_tableAt hp

theorem clear_iff {d j w p : Nat} (hp : T.tableAt G j w = some p) : T.Clear G d w ↔ G.Clear d w j p :=
  Tables.clear_of_tableAt hp

/-- **Writing a leaf** of level `d` changes the translation of its slot's addresses. -/
theorem setLeaf_spec (h : T.Wf G own) {d w₀ p : Nat} (hw₀ : T.Has w₀) (hp : T.tableAt G d w₀ = some p)
    (l : L) :
    T.Wf (G.set p (slotIndex d w₀) (.leaf l)) own ∧
    ∀ w, T.Has w →
      T.walk (G.set p (slotIndex d w₀) (.leaf l)) w =
        (if slotOf d w = slotOf d w₀ then some (d, l) else T.walk G w) ∧
      (T.Clear G d w → T.Clear (G.set p (slotIndex d w₀) (.leaf l)) d w) ∧
      ∀ j, d ≤ j → T.tableAt (G.set p (slotIndex d w₀) (.leaf l)) j w = T.tableAt G j w := by
  refine ⟨⟨h.root, fun p' k x i q hown hi hq => ?_⟩, fun w hw => ?_⟩
  · by_cases hpi : p' = p ∧ i = slotIndex d w₀
    · rw [hpi.1, hpi.2, Tables.set_same] at hq
      cases hq
    · rw [Tables.set_of_ne _ _ hpi] at hq
      exact h.table p' k x i q hown hi hq
  have habove : ∀ j, d ≤ j → T.tableAt (G.set p (slotIndex d w₀) (.leaf l)) j w = T.tableAt G j w :=
    fun j hj => set_above h hw₀ hp _ _ hw hj
  by_cases hslot : slotOf d w = slotOf d w₀
  · have hpw : T.tableAt G d w = some p :=
      (tableAt_congr (tableAt_le hp) (slotOf_succ_congr hslot).1).trans hp
    have hpw' := (habove d (Nat.le_refl d)).trans hpw
    refine ⟨?_, fun _ => ?_, habove⟩
    · rw [if_pos hslot, walk_eq hpw']
      have hleaf := Tables.set_same G p (slotIndex d w₀) (.leaf l)
      rw [← (slotOf_succ_congr hslot).2] at hleaf ⊢
      cases d <;> rw [Tables.walk, hleaf]
    · rw [clear_iff hpw']
      exact Tables.clear_of_le _ (Nat.le_refl d)
  · obtain ⟨h1, h2, -⟩ := set_other h hw₀ hp (.leaf l) hw hslot
    rw [if_neg hslot]
    exact ⟨h1, (h2 d).mpr, habove⟩

/-! ## Adding a table -/

theorem clearPage_spec (h : T.Wf G own) {q : Nat} (hq : own q = none) :
    T.Wf (G.clearPage q) own ∧ ∀ w, T.Has w → T.walk (G.clearPage q) w = T.walk G w ∧
      (∀ d, T.Clear (G.clearPage q) d w ↔ T.Clear G d w) ∧
      ∀ j, T.tableAt (G.clearPage q) j w = T.tableAt G j w := by
  refine ⟨⟨h.root, fun p k x i r hown hi hr => ?_⟩, fun w hw => ?_⟩
  · by_cases hp : p = q
    · rw [hp, hq] at hown
      cases hown
    · rw [Tables.clearPage_of_ne _ _ hp] at hr
      exact h.table p k x i r hown hi hr
  have hagree : ∀ i r, T.tableAt G i w = some r →
      G.clearPage q r (slotIndex i w) = G r (slotIndex i w) := by
    intro i r hr
    refine Tables.clearPage_of_ne G _ fun hrq => ?_
    rw [← hrq, h.own_tableAt hw hr] at hq
    cases hq
  exact ⟨(Tables.path_congr hagree).1, (Tables.path_congr hagree).2,
    fun i => Tables.tableAt_eq_of_agree (fun i' r _ hr => hagree i' r hr) i (Nat.le_refl i)⟩

theorem walk_empty {q : Nat} (h : ∀ i, G q i = .empty) (w k : Nat) : G.walk w k q = none := by
  cases k <;> rw [Tables.walk, h]

theorem clear_empty {q : Nat} (h : ∀ i, G q i = .empty) (d w k : Nat) : G.Clear d w k q := by
  cases k with
  | zero => trivial
  | succ k =>
    unfold Tables.Clear
    rw [h]
    exact fun _ => trivial

/-- The trees once the slot of level `k + 1` of `w₀`, in table `p`, points to the page `q`. -/
def addTable (G : Tables L) (k w₀ p q : Nat) : Tables L :=
  (G.clearPage q).set p (slotIndex (k + 1) w₀) (.table q)

def addOwner (own : Owner) (k w₀ q : Nat) : Owner :=
  fun p => if p = q then some (k, slotOf (k + 1) w₀) else own p

theorem addOwner_le {q : Nat} (hq : own q = none) (k w₀ : Nat) : OwnerLe own (addOwner own k w₀ q) := by
  intro p x hp
  unfold addOwner
  rw [if_neg fun hpq => by rw [hpq, hq] at hp; cases hp]
  exact hp

/-- **Adding an empty table** at a slot of level `k + 1`: its addresses are unmapped and their path
is clear below, all others see no change. -/
theorem addTable_spec (h : T.Wf G own) {k w₀ p q : Nat} (hw₀ : T.Has w₀)
    (hp : T.tableAt G (k + 1) w₀ = some p) (hq : own q = none) :
    T.Wf (addTable G k w₀ p q) (addOwner own k w₀ q) ∧
    ∀ w, T.Has w →
      (slotOf (k + 1) w = slotOf (k + 1) w₀ → T.walk (addTable G k w₀ p q) w = none ∧
        (∀ d, T.Clear (addTable G k w₀ p q) d w) ∧ T.tableAt (addTable G k w₀ p q) k w = some q) ∧
      (slotOf (k + 1) w ≠ slotOf (k + 1) w₀ → T.walk (addTable G k w₀ p q) w = T.walk G w ∧
        (∀ d, T.Clear (addTable G k w₀ p q) d w ↔ T.Clear G d w) ∧
        ∀ j, T.tableAt (addTable G k w₀ p q) j w = T.tableAt G j w) ∧
      ∀ j, k + 1 ≤ j → T.tableAt (addTable G k w₀ p q) j w = T.tableAt G j w := by
  obtain ⟨h₁, hc⟩ := clearPage_spec h hq
  have hp₁ : T.tableAt (G.clearPage q) (k + 1) w₀ = some p := ((hc w₀ hw₀).2.2 _).trans hp
  have hown := h.own_tableAt hw₀ hp
  have hpq : q ≠ p := by
    rintro rfl
    rw [hown] at hq
    cases hq
  have hempty : ∀ i, addTable G k w₀ p q q i = .empty := by
    intro i
    unfold addTable
    rw [Tables.set_of_ne _ _ fun hqi => hpq hqi.1]
    exact Tables.clearPage_same G q i
  refine ⟨⟨fun i hi => addOwner_le hq _ _ _ _ (h.root i hi), ?_⟩, fun w hw => ?_⟩
  · intro p' j x i r hp' hi hr
    by_cases hp'q : p' = q
    · rw [hp'q, hempty] at hr
      cases hr
    have hp'' : own p' = some (j, x) := by
      unfold addOwner at hp'
      rwa [if_neg hp'q] at hp'
    by_cases hpi : p' = p ∧ i = slotIndex (k + 1) w₀
    · obtain ⟨rfl, rfl⟩ := hpi
      unfold addTable at hr
      rw [Tables.set_same] at hr
      obtain rfl : q = r := by injection hr
      rw [hown] at hp''
      obtain ⟨rfl, rfl⟩ := Prod.mk.inj (Option.some.inj hp'')
      refine ⟨k, rfl, ?_⟩
      unfold addOwner
      rw [if_pos rfl, ← slotOf_eq]
    · unfold addTable at hr
      rw [Tables.set_of_ne _ _ hpi] at hr
      obtain ⟨k', hk', hr'⟩ := h₁.table p' j x i r hp'' hi hr
      exact ⟨k', hk', addOwner_le hq _ _ _ _ hr'⟩
  have habove : ∀ j, k + 1 ≤ j → T.tableAt (addTable G k w₀ p q) j w = T.tableAt G j w :=
    fun j hj => (set_above h₁ hw₀ hp₁ _ _ hw hj).trans ((hc w hw).2.2 j)
  refine ⟨fun hslot => ?_, fun hslot => ?_, habove⟩
  · have hpw : T.tableAt (addTable G k w₀ p q) (k + 1) w = some p := by
      rw [habove _ (Nat.le_refl _)]
      exact (tableAt_congr (tableAt_le hp) (slotOf_succ_congr hslot).1).trans hp
    have hqw : T.tableAt (addTable G k w₀ p q) k w = some q := by
      refine Tables.tableAt_step hpw ?_
      rw [(slotOf_succ_congr hslot).2]
      exact Tables.set_same _ _ _ _
    refine ⟨?_, fun d => ?_, hqw⟩
    · rw [walk_eq hqw]
      exact walk_empty hempty w k
    · rw [clear_iff hqw]
      exact clear_empty hempty d w k
  · obtain ⟨h1, h2, h3⟩ := set_other h₁ hw₀ hp₁ (.table q) hw hslot
    obtain ⟨g1, g2, g3⟩ := hc w hw
    exact ⟨h1.trans g1, fun d => (h2 d).trans (g2 d), fun j => (h3 j).trans (g3 j)⟩

variable (T) in
/-- No address is translated otherwise, and no path is cut or blocked. -/
def Quiet (G G' : Tables L) : Prop :=
  ∀ w, T.Has w → T.walk G' w = T.walk G w ∧ (∀ d, T.Clear G d w → T.Clear G' d w) ∧
    ∀ j q, T.tableAt G j w = some q → T.tableAt G' j w = some q

theorem Quiet.refl (G : Tables L) : T.Quiet G G := fun _ _ => ⟨rfl, fun _ h => h, fun _ _ h => h⟩

theorem Quiet.trans {G G' G'' : Tables L} (h : T.Quiet G G') (h' : T.Quiet G' G'') : T.Quiet G G'' := by
  intro w hw
  obtain ⟨h1, h2, h3⟩ := h w hw
  obtain ⟨g1, g2, g3⟩ := h' w hw
  exact ⟨g1.trans h1, fun d hc => g2 d (h2 d hc), fun j q hq => g3 j q (h3 j q hq)⟩

theorem OwnerLe.refl (own : Owner) : OwnerLe own own := fun _ _ h => h

theorem OwnerLe.trans {own own' own'' : Owner} (h : OwnerLe own own') (h' : OwnerLe own' own'') :
    OwnerLe own own'' :=
  fun p x hp => h' p x (h p x hp)

/-- The walk of an address whose slot in table `p` is known. -/
theorem walk_slot {j w p : Nat} (hp : T.tableAt G j w = some p) :
    (G p (slotIndex j w) = .empty → T.walk G w = none) ∧
    ∀ l, G p (slotIndex j w) = .leaf l → T.walk G w = some (j, l) := by
  rw [walk_eq hp]
  cases j with
  | zero =>
    rw [Tables.walk]
    exact ⟨fun h => by rw [h], fun l h => by rw [h]⟩
  | succ j =>
    rw [Tables.walk]
    exact ⟨fun h => by rw [h], fun l h => by rw [h]⟩

/-- An empty slot may get a table. -/
theorem addTable_quiet (h : T.Wf G own) {k w₀ p q : Nat} (hw₀ : T.Has w₀)
    (hp : T.tableAt G (k + 1) w₀ = some p) (hq : own q = none)
    (hs : G p (slotIndex (k + 1) w₀) = .empty) : T.Quiet G (addTable G k w₀ p q) := by
  intro w hw
  obtain ⟨hin, hout, habove⟩ := (addTable_spec h hw₀ hp hq).2 w hw
  by_cases hslot : slotOf (k + 1) w = slotOf (k + 1) w₀
  · obtain ⟨h1, h2, -⟩ := hin hslot
    have hpw : T.tableAt G (k + 1) w = some p :=
      (tableAt_congr (tableAt_le hp) (slotOf_succ_congr hslot).1).trans hp
    have hsw : G p (slotIndex (k + 1) w) = .empty := (slotOf_succ_congr hslot).2 ▸ hs
    refine ⟨h1.trans ((walk_slot hpw).1 hsw).symm, fun d _ => h2 d, fun j r hr => ?_⟩
    by_cases hj : k + 1 ≤ j
    · rw [habove j hj]
      exact hr
    · have hnone := Tables.tableAt_stop (by omega : j < k + 1) hpw fun r => by rw [hsw]; simp
      rw [tableAt, hnone] at hr
      cases hr
  · obtain ⟨h1, h2, h3⟩ := hout hslot
    exact ⟨h1, fun d => (h2 d).mpr, fun j r hr => (h3 j).trans hr⟩

end Trees

end Limine.Lib
