import Limine.Pmm.Alloc
import Limine.Pmm.SanitiseSpec

/-!
# Retyping a range

`pmm_new_entry` gives `[base, base + length)` one type and leaves every other address alone
(`pmmNewEntry_ensures`); with the sanitiser after it this is what every successful
`memmap_alloc_range_in` does (`Retypes`).
-/

namespace Limine.Pmm

open Limine.Lib MemmapEntry

/-- The entries one turn of the loop leaves in place of `e`. -/
def pieces (base top : Nat) (e : MemmapEntry) : Memmap :=
  match cutEntry base top e with
  | none => []
  | some (e', x) => e' :: x.toList

theorem cutEntry_cases {base top : Nat} {e : MemmapEntry} (he : e.NoOverflow) (hbt : base ≤ top) :
    (cutEntry base top e = none ∧ ∀ a ∈ e.span, base ≤ a ∧ a < top) ∨
    (∃ e', cutEntry base top e = some (e', none) ∧ PieceOf e' e ∧
      ∀ a, a ∈ e'.span ↔ a ∈ e.span ∧ ¬ (base ≤ a ∧ a < top)) ∨
    (∃ e' x, cutEntry base top e = some (e', some x) ∧ PieceOf e' e ∧ PieceOf x e ∧
      x.base = top ∧ 0 < x.length ∧
      ∀ a, a ∈ e'.span ∨ a ∈ x.span ↔ a ∈ e.span ∧ ¬ (base ≤ a ∧ a < top)) := by
  unfold NoOverflow at he
  unfold cutEntry
  rw [checkedAdd_eq_some he]
  dsimp only
  simp only [PieceOf, mem_span]
  by_cases hfull : base ≤ e.base ∧ e.base + e.length ≤ top
  · rw [if_pos hfull]
    exact Or.inl ⟨rfl, fun a => by omega⟩
  rw [if_neg hfull]
  by_cases hbot : base ≤ e.base ∧ top < e.base + e.length ∧ e.base < top
  · rw [if_pos hbot]
    exact Or.inr (Or.inl ⟨_, rfl, ⟨rfl, by dsimp only; omega, by dsimp only; omega⟩,
      fun a => by dsimp only; omega⟩)
  rw [if_neg hbot]
  by_cases htop : e.base < base ∧ base < e.base + e.length ∧ e.base + e.length ≤ top
  · rw [if_pos htop]
    exact Or.inr (Or.inl ⟨_, rfl, ⟨rfl, by dsimp only; omega, by dsimp only; omega⟩,
      fun a => by dsimp only; omega⟩)
  rw [if_neg htop]
  by_cases hnest : e.base < base ∧ top < e.base + e.length
  · rw [if_pos hnest]
    exact Or.inr (Or.inr ⟨_, _, rfl, ⟨rfl, by dsimp only; omega, by dsimp only; omega⟩,
      ⟨rfl, by dsimp only; omega, by dsimp only; omega⟩, rfl, by dsimp only; omega,
      fun a => by dsimp only; omega⟩)
  · rw [if_neg hnest]
    exact Or.inr (Or.inl ⟨e, rfl, ⟨rfl, by omega, by omega⟩, fun a => by omega⟩)

theorem mem_pieces {base top : Nat} {e x : MemmapEntry} (he : e.NoOverflow) (hbt : base ≤ top)
    (hx : x ∈ pieces base top e) : PieceOf x e := by
  unfold pieces at hx
  rcases cutEntry_cases he hbt with ⟨hc, -⟩ | ⟨e', hc, hp, -⟩ | ⟨e', y, hc, hp, hy, -⟩
  · simp [hc] at hx
  · obtain rfl : x = e' := by simpa [hc] using hx
    exact hp
  · rcases (by simpa [hc] using hx : x = e' ∨ x = y) with rfl | rfl
    · exact hp
    · exact hy

theorem covers_pieces {base top : Nat} {e : MemmapEntry} (he : e.NoOverflow) (hbt : base ≤ top)
    (a : Nat) : (∃ x ∈ pieces base top e, a ∈ x.span) ↔ a ∈ e.span ∧ ¬ (base ≤ a ∧ a < top) := by
  unfold pieces
  rcases cutEntry_cases he hbt with ⟨hc, hin⟩ | ⟨e', hc, -, hs⟩ | ⟨e', y, hc, -, -, -, -, hs⟩
  · rw [hc]
    exact ⟨by simp, fun ⟨h1, h2⟩ => absurd (hin a h1) h2⟩
  · rw [hc, ← hs a]
    simp
  · rw [hc, ← hs a]
    simp

/-- The entry appended for the part past `top` is not cut again. -/
theorem pieces_extra {base top : Nat} {e e' x : MemmapEntry} (hbt : base ≤ top)
    (he : e.NoOverflow) (h : cutEntry base top e = some (e', some x)) : pieces base top x = [x] := by
  rcases cutEntry_cases he hbt with ⟨hc, -⟩ | ⟨f, hc, -⟩ | ⟨f, y, hc, -, hy, hb, hl, -⟩
  · simp [hc] at h
  · simp [hc] at h
  · obtain rfl : y = x := by
      rw [hc] at h
      simp only [Option.some.injEq, Prod.mk.injEq] at h
      exact h.2
    have hyn := hy.noOverflow he
    unfold NoOverflow at hyn
    unfold pieces cutEntry
    rw [checkedAdd_eq_some hyn]
    dsimp only
    rw [if_neg (by omega), if_neg (by omega), if_neg (by omega), if_neg (by omega)]
    rfl

/-- Turns of the loop that `m[i..]` still needs. -/
def cutTurns (base top : Nat) (m : Memmap) (i : Nat) : Nat :=
  ((m.drop i).map fun e => (pieces base top e).length + 1).sum

/-- An entry that reaches past both ends of the range is cut in two. -/
def nested (base top : Nat) (e : MemmapEntry) : Bool :=
  decide (e.base < base ∧ top < e.base + e.length)

/-- How many entries are cut in two. -/
def splits (base top : Nat) (m : Memmap) : Nat := m.countP (nested base top)

theorem splits_cons (base top : Nat) (e : MemmapEntry) (m : Memmap) :
    splits base top (e :: m) = splits base top m + if nested base top e then 1 else 0 :=
  List.countP_cons

theorem splits_append (base top : Nat) (m m' : Memmap) :
    splits base top (m ++ m') = splits base top m + splits base top m' :=
  List.countP_append

theorem splits_perm {base top : Nat} {m m' : Memmap} (h : m.Perm m') :
    splits base top m = splits base top m' :=
  h.countP_eq _

/-- Only a nested entry leaves a second part. -/
theorem nested_of_extra {base top : Nat} {e e' x : MemmapEntry} (he : e.NoOverflow)
    (h : cutEntry base top e = some (e', some x)) : (if nested base top e then 1 else 0) = 1 := by
  unfold NoOverflow at he
  unfold cutEntry at h
  rw [checkedAdd_eq_some he] at h
  dsimp only at h
  rw [if_pos]
  unfold nested
  rw [decide_eq_true_iff]
  split at h
  · cases h
  split at h
  · cases h
  split at h
  · cases h
  split at h
  · next hnest => exact hnest
  · cases h

theorem splits_extra {base top : Nat} {e e' x : MemmapEntry} (he : e.NoOverflow) (hbt : base ≤ top)
    (h : cutEntry base top e = some (e', some x)) : splits base top [x] = 0 := by
  rcases cutEntry_cases he hbt with ⟨hc, -⟩ | ⟨f, hc, -⟩ | ⟨f, y, hc, -, -, hb, -⟩
  · simp [hc] at h
  · simp [hc] at h
  · obtain rfl : y = x := by
      rw [hc] at h
      simp only [Option.some.injEq, Prod.mk.injEq] at h
      exact h.2
    unfold splits
    rw [List.countP_singleton]
    simp [nested]
    omega

/-- The loop gives up only where an entry to be cut in two finds the array full. -/
theorem newEntryLoop_room (maxEntries base top : Nat) (hbt : base ≤ top) :
    ∀ fuel m i, NoneOverflows m → cutTurns base top m i < fuel →
      (newEntryLoop maxEntries base top fuel m i).Ensures
        (maxEntries < m.length + splits base top (m.drop i))
        fun m' => m'.Perm (m.take i ++ (m.drop i).flatMap (pieces base top)) := by
  intro fuel
  induction fuel with
  | zero => intro m i _ h; omega
  | succ fuel ih =>
    intro m i hm hf
    unfold newEntryLoop
    cases he : m[i]? with
    | none =>
      have := List.getElem?_eq_none_iff.mp he
      show m.Perm _
      rw [List.take_of_length_le this, List.drop_eq_nil_of_le this]
      simp
    | some e =>
      have hi := (List.getElem?_eq_some_iff.mp he).1
      have hen : e.NoOverflow := hm e (List.mem_of_getElem? he)
      unfold cutTurns at hf
      rw [drop_eq_cons he, List.map_cons, List.sum_cons] at hf
      rw [drop_eq_cons he, List.flatMap_cons, splits_cons]
      dsimp only
      cases hc : cutEntry base top e with
      | none =>
        have hp : pieces base top e = [] := by unfold pieces; rw [hc]
        dsimp only
        have hrest := drop_swapRemove_perm he
        refine (ih (swapRemove m i) i ?_ ?_).imp (fun h => ?_) fun m' h => h.trans ?_
        · exact fun x hx => hm x ((perm_cons_swapRemove he).mem_iff.mpr (List.mem_cons_of_mem _ hx))
        · unfold cutTurns
          rw [(hrest.map _).sum_eq]
          omega
        · have hlen := (perm_cons_swapRemove he).length_eq
          rw [List.length_cons] at hlen
          rw [splits_perm hrest] at h
          omega
        · rw [take_swapRemove he, hp]
          exact List.Perm.append_left _ (hrest.flatMap_right _)
      | some p =>
        obtain ⟨e', x⟩ := p
        have hp : pieces base top e = e' :: x.toList := by unfold pieces; rw [hc]
        have hpo : ∀ y ∈ e' :: x.toList, PieceOf y e := fun y hy => mem_pieces hen hbt (hp ▸ hy)
        rw [hp] at hf ⊢
        cases x with
        | none =>
          dsimp only
          refine (ih (m.set i e') (i + 1) ?_ ?_).imp (fun h => ?_) fun m' h => h.trans ?_
          · intro y hy
            rcases List.mem_or_eq_of_mem_set hy with hy | rfl
            · exact hm y hy
            · exact (hpo y (by simp)).noOverflow hen
          · unfold cutTurns
            rw [List.drop_set_of_lt (by omega)]
            omega
          · rw [List.length_set, List.drop_set_of_lt (by omega)] at h
            omega
          · rw [take_succ_set he, List.drop_set_of_lt (by omega)]
            simp
        | some x =>
          dsimp only
          rw [nested_of_extra hen hc]
          split
          · next hfull =>
            show maxEntries < _
            omega
          have hx := pieces_extra hbt hen hc
          have hset' : ((m ++ [x]).set i e').take (i + 1) = m.take i ++ [e'] := by
            rw [List.set_append_left _ _ hi, List.take_append_of_le_length (by simp; omega),
              take_succ_set he]
          have hdrop' : ((m ++ [x]).set i e').drop (i + 1) = m.drop (i + 1) ++ [x] := by
            rw [List.drop_set_of_lt (by omega), List.drop_append_of_le_length (by omega)]
          refine (ih ((m ++ [x]).set i e') (i + 1) ?_ ?_).imp (fun h => ?_) fun m' h => h.trans ?_
          · intro y hy
            rcases List.mem_or_eq_of_mem_set hy with hy | rfl
            · rcases List.mem_append.mp hy with hy | hy
              · exact hm y hy
              · obtain rfl := List.mem_singleton.mp hy
                exact (hpo y (by simp)).noOverflow hen
            · exact (hpo y (by simp)).noOverflow hen
          · unfold cutTurns
            rw [hdrop', List.map_append, List.sum_append, List.map_singleton, hx]
            simp only [List.length_cons, List.length_nil, Option.toList, List.sum_singleton] at hf ⊢
            omega
          · rw [hdrop', List.length_set, List.length_append, splits_append,
              splits_extra hen hbt hc] at h
            simp only [List.length_cons, List.length_nil] at h
            omega
          · rw [hset', hdrop', List.flatMap_append, List.flatMap_singleton, hx]
            simp only [Option.toList, List.append_assoc, List.cons_append, List.nil_append]
            refine List.Perm.append_left _ (List.Perm.cons e' ?_)
            exact List.perm_append_comm

theorem newEntryLoop_ensures (maxEntries base top : Nat) (hbt : base ≤ top) :
    ∀ fuel m i, NoneOverflows m → cutTurns base top m i < fuel →
      (newEntryLoop maxEntries base top fuel m i).Ensures True
        fun m' => m'.Perm (m.take i ++ (m.drop i).flatMap (pieces base top)) :=
  fun fuel m i hm hf => (newEntryLoop_room maxEntries base top hbt fuel m i hm hf).imp
    (fun _ => trivial) fun _ h => h

theorem cutTurns_lt (base length : Nat) (m : Memmap) :
    cutTurns base (base + length) m 0 < 3 * m.length + 1 := by
  have hle : ∀ l : Memmap, (l.map fun e => (pieces base (base + length) e).length + 1).sum
      ≤ 3 * l.length := by
    intro l
    induction l with
    | nil => simp
    | cons e l ih =>
      have : (pieces base (base + length) e).length ≤ 2 := by
        unfold pieces
        cases hc : cutEntry base (base + length) e with
        | none => simp
        | some p =>
          obtain ⟨e', x⟩ := p
          cases x <;> simp
      rw [List.map_cons, List.sum_cons, List.length_cons]
      omega
  have := hle m
  unfold cutTurns
  rw [List.drop_zero]
  omega

/-- Inside `[base, top)` only `type` is left, outside nothing changes. -/
def retype (base top type : Nat) (f : Nat → Set Nat) (a : Nat) : Set Nat :=
  if base ≤ a ∧ a < top then {type} else f a

theorem pmmNewEntry_ensures (maxEntries : Nat) {m : Memmap} (hm : NoneOverflows m)
    {base length : Nat} (type : Nat) (hov : base + length < 2 ^ 64) :
    (pmmNewEntry maxEntries m base length type).Ensures True
      fun m' => NoneOverflows m' ∧
        ∀ a, typesAt m' a = retype base (base + length) type (typesAt m) a := by
  have hbt : base ≤ base + length := Nat.le_add_right _ _
  unfold pmmNewEntry
  rw [checkedAdd_eq_some hov]
  refine Exec.Ensures.bind (newEntryLoop_ensures maxEntries base _ hbt _ m 0 hm
    (cutTurns_lt base length m))
    fun m₁ hp => ?_
  rw [List.take_zero, List.drop_zero, List.nil_append] at hp
  split
  · trivial
  have hmem : ∀ x ∈ m₁, ∃ e ∈ m, x ∈ pieces base (base + length) e := by
    intro x hx
    simpa using hp.mem_iff.mp hx
  refine ⟨fun x hx => ?_, fun a => ?_⟩
  · rcases List.mem_append.mp hx with hx | hx
    · obtain ⟨e, he, hx⟩ := hmem x hx
      exact (mem_pieces (hm e he) hbt hx).noOverflow (hm e he)
    · obtain rfl := List.mem_singleton.mp hx
      exact hov
  · have hcut : ∀ t, t ∈ typesAt m₁ a ↔ t ∈ typesAt m a ∧ ¬ (base ≤ a ∧ a < base + length) := by
      intro t
      constructor
      · rintro ⟨x, hx, rfl, ha⟩
        obtain ⟨e, he, hxe⟩ := hmem x hx
        obtain ⟨h1, h2⟩ := (covers_pieces (hm e he) hbt a).mp ⟨x, hxe, ha⟩
        exact ⟨⟨e, he, (mem_pieces (hm e he) hbt hxe).1.symm, h1⟩, h2⟩
      · rintro ⟨⟨e, he, rfl, ha⟩, hn⟩
        obtain ⟨x, hx, hax⟩ := (covers_pieces (hm e he) hbt a).mpr ⟨ha, hn⟩
        refine ⟨x, hp.mem_iff.mpr (List.mem_flatMap.mpr ⟨e, he, hx⟩), ?_, hax⟩
        exact (mem_pieces (hm e he) hbt hx).1
    ext t
    rw [mem_typesAt_append, hcut, mem_typesAt_cons, typesAt_nil]
    simp only [mem_span, retype]
    split
    · next hin => simp [hin, eq_comm]
    · next hout => simp [hout]

/-! ## What a successful `memmap_alloc_range_in` does -/

/-- The invariant of the map between calls. -/
structure Wf (m : Memmap) : Prop where
  noneOverflows : NoneOverflows m
  disjoint : UsableDisjoint m

theorem Wf.free_iff {m : Memmap} (hm : Wf m) (a : Nat) : Free m a ↔ Covers m memmapUsable a :=
  ⟨fun h => h.1, fun h => ⟨h, fun _ ht => hm.disjoint.eq_of_covers h ht⟩⟩

/-- Usable addresses out of the first page's reach are given up; the rest is `f`. -/
def settled (keepFirstPage : Bool) (f : Nat → Set Nat) (a : Nat) : Set Nat :=
  {t | t ∈ f a ∧ InReach keepFirstPage t a}

/-- `m'` is a sorted map, without overlap of usable entries, of the types `f`. -/
structure Holds (keepFirstPage : Bool) (f : Nat → Set Nat) (m' : Memmap) : Prop where
  wf : Wf m'
  sorted : SortedByBase m'
  types : ∀ a, typesAt m' a = settled keepFirstPage f a

/-- Each address has one type at most if it is usable. -/
def Decided (f : Nat → Set Nat) : Prop := ∀ a, memmapUsable ∈ f a → ∀ t ∈ f a, t = memmapUsable

theorem Wf.decided {m : Memmap} (hm : Wf m) : Decided (typesAt m) :=
  fun _ h _ ht => hm.disjoint.eq_of_covers h ht

theorem Decided.retype {f : Nat → Set Nat} (hf : Decided f) (base top type : Nat) :
    Decided (retype base top type f) := by
  intro a h t ht
  unfold Pmm.retype at h ht
  split at h
  · next hin =>
    rw [if_pos hin] at ht
    rw [Set.mem_singleton_iff] at h ht
    rw [ht, h]
  · next hout =>
    rw [if_neg hout] at ht
    exact hf a h t ht

/-- The sanitiser on a map whose types are decided. -/
theorem sanitise_holds (cfg : Config) {m : Memmap} (hm : NoneOverflows m)
    (hd : Decided (typesAt m)) :
    (pmmSanitiseEntries cfg.maxEntries cfg.keepFirstPage m false).Ensures True
      (Holds cfg.keepFirstPage (typesAt m)) := by
  refine (pmmSanitiseEntries_ensures cfg.maxEntries cfg.keepFirstPage hm false).imp (fun _ => trivial)
    fun m' ⟨hs, ht⟩ => ⟨⟨hs.noneOverflows, hs.disjoint⟩, hs.sorted, fun a => ?_⟩
  ext t
  by_cases htu : t = memmapUsable
  · subst htu
    exact ⟨fun h => (ht.usable a h).imp_left fun h => h.1,
      fun h => ht.free rfl a ⟨h.1, hd a h.1⟩ h.2⟩
  · exact (ht.other a t htu).trans ⟨fun h => ⟨h, fun h => absurd h htu⟩, fun h => h.1⟩

theorem Holds.again (cfg : Config) {m : Memmap} {f : Nat → Set Nat}
    (hm : Holds cfg.keepFirstPage f m) :
    (pmmSanitiseEntries cfg.maxEntries cfg.keepFirstPage m false).Ensures True
      (Holds cfg.keepFirstPage f) := by
  refine (sanitise_holds cfg hm.wf.noneOverflows hm.wf.decided).imp id fun m' h => ?_
  refine ⟨h.wf, h.sorted, fun a => ?_⟩
  rw [h.types]
  ext t
  simp only [settled, hm.types, Set.mem_ofPred_eq, and_assoc, and_self]

theorem retype_holds (cfg : Config) {m : Memmap} (hm : Wf m) {base length : Nat} (type : Nat)
    (hov : base + length < 2 ^ 64) :
    (pmmNewEntry cfg.maxEntries m base length type >>= fun m' =>
      pmmSanitiseEntries cfg.maxEntries cfg.keepFirstPage m' false).Ensures True
      (Holds cfg.keepFirstPage (retype base (base + length) type (typesAt m))) := by
  refine (pmmNewEntry_ensures cfg.maxEntries hm.noneOverflows type hov).bind fun m₁ ⟨hn, ht⟩ => ?_
  have hf : typesAt m₁ = retype base (base + length) type (typesAt m) := funext ht
  rw [← hf]
  refine sanitise_holds cfg hn ?_
  rw [hf]
  exact hm.decided.retype _ _ _

end Limine.Pmm
