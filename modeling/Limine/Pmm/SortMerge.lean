import Limine.Pmm.SplitUsable

/-!
# The later passes of the sanitiser

Clipping and dropping is a `filterMap` up to order, the sort is a sort, and merging moves no
address from one type to another.
-/

namespace Limine.Pmm

open Limine.Lib MemmapEntry

/-! ## Clip and drop -/

/-- What the second pass keeps of a usable address. -/
def InReach (keepFirstPage : Bool) (t a : Nat) : Prop :=
  t = memmapUsable → keepFirstPage = true ∨ 0x1000 ≤ a

theorem clipEntry_some {keepFirstPage : Bool} {e e' : MemmapEntry} (he : e.NoOverflow)
    (h : clipEntry keepFirstPage e = some e') :
    PieceOf e' e ∧ 0 < e'.length ∧ InReach keepFirstPage e'.type e'.base ∧
      e'.base = max e.base e'.base ∧
      ∀ a, a ∈ e'.span ↔ a ∈ e.span ∧ InReach keepFirstPage e.type a := by
  unfold clipEntry at h
  rw [checkedAdd_eq_some he] at h
  unfold NoOverflow at he
  split at h
  · next hc =>
    obtain ⟨hu, hk, hb⟩ := hc
    dsimp only at h
    split at h
    · cases h
    next htop =>
    split at h
    · cases h
    obtain rfl := Option.some.inj h
    simp only [PieceOf, InReach, mem_span, hu, hk]
    refine ⟨⟨trivial, by omega, by omega⟩, by omega, by simp, by omega, fun a => ?_⟩
    simp
    omega
  · next hc =>
    split at h
    · cases h
    · obtain rfl := Option.some.inj h
      have hin : ∀ a ∈ e.span, InReach keepFirstPage e.type a := by
        intro a ha hu
        by_contra hn
        rw [mem_span] at ha
        refine hc ⟨hu, ?_, by omega⟩
        simpa using fun h => hn (Or.inl h)
      refine ⟨PieceOf.refl e, by omega, hin e.base ?_, by simp, fun a => ?_⟩
      · rw [mem_span]
        omega
      · exact ⟨fun ha => ⟨ha, hin a ha⟩, fun ha => ha.1⟩

theorem clipEntry_none {keepFirstPage : Bool} {e : MemmapEntry} (he : e.NoOverflow)
    (h : clipEntry keepFirstPage e = none) (a : Nat) (ha : a ∈ e.span) :
    ¬ InReach keepFirstPage e.type a := by
  unfold clipEntry at h
  rw [checkedAdd_eq_some he] at h
  rw [mem_span] at ha
  split at h
  · next hc =>
    obtain ⟨hu, hk, hb⟩ := hc
    dsimp only at h
    intro hr
    have := hr hu
    rw [hk] at this
    split at h
    · simp at this
      omega
    split at h
    · omega
    · cases h
  · split at h
    · omega
    · cases h

theorem clipEntry_eq_self {keepFirstPage : Bool} {e : MemmapEntry} (hl : 0 < e.length)
    (hr : InReach keepFirstPage e.type e.base) : clipEntry keepFirstPage e = some e := by
  unfold clipEntry
  rw [if_neg, if_neg (by omega)]
  rintro ⟨hu, hk, hb⟩
  have := hr hu
  rw [hk] at this
  simp at this
  omega

theorem dropEmpty_perm (keepFirstPage : Bool) : ∀ n m i, m.length ≤ i + n →
    (dropEmpty keepFirstPage n m i).Perm
      (m.take i ++ (m.drop i).filterMap (clipEntry keepFirstPage)) := by
  intro n
  induction n with
  | zero =>
    intro m i h
    unfold dropEmpty
    rw [List.take_of_length_le (by omega), List.drop_eq_nil_of_le (by omega)]
    simp
  | succ n ih =>
    intro m i h
    unfold dropEmpty
    cases he : m[i]? with
    | none =>
      have := List.getElem?_eq_none_iff.mp he
      dsimp only
      rw [List.take_of_length_le (by omega), List.drop_eq_nil_of_le (by omega)]
      simp
    | some e =>
      dsimp only
      rw [drop_eq_cons he]
      cases hc : clipEntry keepFirstPage e with
      | some e' =>
        refine (ih (m.set i e') (i + 1) (by rw [List.length_set]; omega)).trans ?_
        rw [take_succ_set he, List.drop_set_of_lt (by omega), List.filterMap_cons_some hc]
        simp
      | none =>
        have hlen := length_swapRemove he
        refine (ih (swapRemove m i) i (by omega)).trans ?_
        rw [take_swapRemove he, List.filterMap_cons_none hc]
        exact List.Perm.append_left _ (List.Perm.filterMap _ (drop_swapRemove_perm he))

theorem dropEmpty_eq_self {keepFirstPage : Bool} {m : Memmap}
    (h : ∀ e ∈ m, clipEntry keepFirstPage e = some e) :
    ∀ n i, dropEmpty keepFirstPage n m i = m := by
  intro n
  induction n with
  | zero => intro i; rfl
  | succ n ih =>
    intro i
    unfold dropEmpty
    cases he : m[i]? with
    | none => rfl
    | some e =>
      dsimp only
      rw [h e (List.mem_of_getElem? he)]
      dsimp only
      obtain ⟨hi, rfl⟩ := List.getElem?_eq_some_iff.mp he
      rw [List.set_getElem_self, ih]

/-! ## Sort -/

theorem minIndexFrom_spec : ∀ (es : Memmap) (i min minIndex : Nat),
    (minIndexFrom es i min minIndex = minIndex ∧ ∀ x ∈ es, min ≤ x.base) ∨
    (∃ k e, minIndexFrom es i min minIndex = i + k ∧ es[k]? = some e ∧ e.base < min ∧
      ∀ x ∈ es, e.base ≤ x.base) := by
  intro es
  induction es with
  | nil => intro i min minIndex; exact Or.inl ⟨rfl, by simp⟩
  | cons x es ih =>
    intro i min minIndex
    unfold minIndexFrom
    split
    · next hlt =>
      right
      rcases ih (i + 1) x.base i with ⟨h, hle⟩ | ⟨k, e, h, he, hlt', hle⟩
      · exact ⟨0, x, by rw [h]; rfl, rfl, hlt, by simpa using hle⟩
      · exact ⟨k + 1, e, by rw [h]; omega, by simpa using he, by omega, by simpa using ⟨by omega, hle⟩⟩
    · next hge =>
      rcases ih (i + 1) min minIndex with ⟨h, hle⟩ | ⟨k, e, h, he, hlt', hle⟩
      · exact Or.inl ⟨h, by simpa using ⟨by omega, hle⟩⟩
      · exact Or.inr ⟨k + 1, e, by rw [h]; omega, by simpa using he, hlt', by simpa using ⟨by omega, hle⟩⟩

theorem sortEntries_spec : ∀ n m, m.length ≤ n →
    (sortEntries n m).Perm m ∧ SortedByBase (sortEntries n m) := by
  intro n
  induction n with
  | zero =>
    intro m h
    obtain rfl : m = [] := List.length_eq_zero_iff.mp (by omega)
    exact ⟨List.Perm.refl _, List.Pairwise.nil⟩
  | succ n ih =>
    intro m h
    cases m with
    | nil => exact ⟨List.Perm.refl _, List.Pairwise.nil⟩
    | cons e es =>
      rw [List.length_cons] at h
      unfold sortEntries
      rcases minIndexFrom_spec es 1 e.base 0 with ⟨hk, hle⟩ | ⟨k, x, hk, hx, hlt, hle⟩
      · rw [hk]
        obtain ⟨hp, hs⟩ := ih es (by omega)
        exact ⟨hp.cons e, List.pairwise_cons.mpr ⟨fun r hr => hle r (hp.mem_iff.mp hr), hs⟩⟩
      · rw [hk, Nat.add_comm]
        simp only [hx]
        obtain ⟨hp, hs⟩ := ih (es.set k e) (by rw [List.length_set]; omega)
        refine ⟨(hp.cons x).trans (perm_cons_set hx e).symm, List.pairwise_cons.mpr ⟨?_, hs⟩⟩
        intro r hr
        rcases List.mem_or_eq_of_mem_set (hp.mem_iff.mp hr) with hr | rfl
        · exact hle r hr
        · omega

theorem sortEntries_eq_self : ∀ n m, SortedByBase m → sortEntries n m = m := by
  intro n
  induction n with
  | zero => intro m _; cases m <;> rfl
  | succ n ih =>
    intro m hm
    cases m with
    | nil => rfl
    | cons e es =>
      obtain ⟨h1, h2⟩ := List.pairwise_cons.mp hm
      unfold sortEntries
      rcases minIndexFrom_spec es 1 e.base 0 with ⟨hk, -⟩ | ⟨k, x, -, hx, hlt, -⟩
      · rw [hk]
        dsimp only
        rw [ih es h2]
      · have := h1 x (List.mem_of_getElem? hx)
        omega

/-! ## Merge -/

/-- Neighbours the last pass makes one. -/
def Touching (e r : MemmapEntry) : Prop :=
  mergeable e.type = true ∧ r.type = e.type ∧ r.base = e.base + e.length

theorem mergeNext_some {e r e' : MemmapEntry} (h : mergeNext e r = some e') :
    Touching e r ∧ e' = { e with length := e.length + r.length } := by
  unfold mergeNext at h
  split at h
  · next hm =>
    split at h
    · cases h
    · next top htop =>
      obtain ⟨-, rfl⟩ := checkedAdd_eq_some_iff.mp htop
      split at h
      · next ht =>
        obtain ⟨l, hl, rfl⟩ := Option.map_eq_some_iff.mp h
        obtain ⟨-, rfl⟩ := checkedAdd_eq_some_iff.mp hl
        exact ⟨⟨hm, ht⟩, rfl⟩
      · cases h
  · cases h

theorem mergeNext_none {e r : MemmapEntry} (he : e.NoOverflow) (hr : r.NoOverflow)
    (h : mergeNext e r = none) : ¬ Touching e r := by
  rintro ⟨h1, h2, h3⟩
  unfold NoOverflow at he hr
  unfold mergeNext at h
  rw [if_pos h1, checkedAdd_eq_some he] at h
  dsimp only at h
  rw [if_pos ⟨h2, h3⟩, checkedAdd_eq_some (by omega)] at h
  cases h

theorem mergeNext_of_not_touching {e r : MemmapEntry} (h : ¬ Touching e r) :
    mergeNext e r = none := by
  cases hm : mergeNext e r with
  | none => rfl
  | some e' => exact absurd (mergeNext_some hm).1 h

/-- What merging keeps of the entries one by one: `P` holds of a merged pair if it does of both. -/
theorem mergeFrom_cons (e r : MemmapEntry) (rest : Memmap) : mergeFrom e (r :: rest) =
    match mergeNext e r with
    | some e' => mergeFrom e' rest
    | none => e :: mergeFrom r rest := rfl

theorem mergeFrom_forall {P : MemmapEntry → Prop}
    (hP : ∀ e r, Touching e r → P e → P r → P { e with length := e.length + r.length }) :
    ∀ (rest : Memmap) (e : MemmapEntry), (∀ x ∈ e :: rest, P x) → ∀ x ∈ mergeFrom e rest, P x := by
  intro rest
  induction rest with
  | nil => intro e h; exact h
  | cons r rest ih =>
    intro e h
    rw [mergeFrom_cons]
    cases hm : mergeNext e r with
    | some e' =>
      obtain ⟨ht, rfl⟩ := mergeNext_some hm
      refine ih _ fun x hx => ?_
      rcases List.mem_cons.mp hx with rfl | hx
      · exact hP e r ht (h e (by simp)) (h r (by simp))
      · exact h x (by simp [hx])
    | none =>
      intro x hx
      rcases List.mem_cons.mp hx with rfl | hx
      · exact h x (by simp)
      · exact ih r (fun y hy => h y (List.mem_cons_of_mem _ hy)) x hx

theorem typesAt_mergeFrom (a : Nat) : ∀ (rest : Memmap) (e : MemmapEntry),
    typesAt (mergeFrom e rest) a = typesAt (e :: rest) a := by
  intro rest
  induction rest with
  | nil => intro e; rfl
  | cons r rest ih =>
    intro e
    rw [mergeFrom_cons]
    cases hm : mergeNext e r with
    | some e' =>
      obtain ⟨⟨-, ht, hb⟩, rfl⟩ := mergeNext_some hm
      dsimp only
      rw [ih]
      ext t
      simp only [mem_typesAt_cons, mem_span, ht, hb, ← or_assoc]
      refine or_congr_left ⟨?_, ?_⟩
      · rintro ⟨h1, h2⟩
        omega
      · rintro (⟨h1, h2⟩ | ⟨h1, h2⟩) <;> exact ⟨h1, by omega⟩
    | none =>
      ext t
      rw [mem_typesAt_cons, mem_typesAt_cons, ih]

theorem MemmapEntry.Apart.merge {e r x : MemmapEntry} (he : Apart e x) (ht : Touching e r)
    (hr : Apart r x) :
    Apart { e with length := e.length + r.length } x := by
  intro h
  have h1 := span_disjoint_iff.mp (he h)
  have h2 := span_disjoint_iff.mp (hr (h.imp_left ht.2.1.trans))
  have h3 := ht.2.2
  exact span_disjoint_iff.mpr (by dsimp only; omega)

/-- Merging keeps what holds between the entries pair by pair. -/
theorem mergeFrom_pairwise {R : MemmapEntry → MemmapEntry → Prop}
    (hl : ∀ e r x, Touching e r → R e x → R r x → R { e with length := e.length + r.length } x)
    (hr : ∀ e r x, Touching e r → R x e → R x r → R x { e with length := e.length + r.length }) :
    ∀ (rest : Memmap) (e : MemmapEntry), (e :: rest).Pairwise R → (mergeFrom e rest).Pairwise R := by
  intro rest
  induction rest with
  | nil => intro e h; exact h
  | cons r rest ih =>
    intro e h
    obtain ⟨h1, h2⟩ := List.pairwise_cons.mp h
    rw [mergeFrom_cons]
    cases hm : mergeNext e r with
    | some e' =>
      obtain ⟨ht, rfl⟩ := mergeNext_some hm
      obtain ⟨h3, h4⟩ := List.pairwise_cons.mp h2
      refine ih _ (List.pairwise_cons.mpr ⟨fun x hx => ?_, h4⟩)
      exact hl e r x ht (h1 x (List.mem_cons_of_mem _ hx)) (h3 x hx)
    | none =>
      exact List.pairwise_cons.mpr
        ⟨mergeFrom_forall (fun f s ht => hr f s e ht) rest r h1, ih r h2⟩

theorem mergeFrom_head : ∀ (rest : Memmap) (e : MemmapEntry),
    ∃ x xs, mergeFrom e rest = x :: xs ∧ x.type = e.type ∧ x.base = e.base := by
  intro rest
  induction rest with
  | nil => intro e; exact ⟨e, [], rfl, rfl, rfl⟩
  | cons r rest ih =>
    intro e
    rw [mergeFrom_cons]
    cases hm : mergeNext e r with
    | some e' =>
      obtain ⟨-, rfl⟩ := mergeNext_some hm
      exact ih _
    | none => exact ⟨e, _, rfl, rfl, rfl⟩

theorem Touching.noOverflow {e r : MemmapEntry} (ht : Touching e r) (hr : r.NoOverflow) :
    MemmapEntry.NoOverflow { e with length := e.length + r.length } := by
  have := ht.2.2
  unfold NoOverflow at hr ⊢
  dsimp only
  omega

theorem mergeFrom_unmerged : ∀ (rest : Memmap) (e : MemmapEntry), NoneOverflows (e :: rest) →
    (mergeFrom e rest).IsChain fun x y => ¬ Touching x y := by
  intro rest
  induction rest with
  | nil => intro e _; exact List.IsChain.singleton e
  | cons r rest ih =>
    intro e h
    rw [mergeFrom_cons]
    cases hm : mergeNext e r with
    | some e' =>
      obtain ⟨ht, rfl⟩ := mergeNext_some hm
      refine ih _ fun x hx => ?_
      rcases List.mem_cons.mp hx with rfl | hx
      · exact ht.noOverflow (h r (by simp))
      · exact h x (by simp [hx])
    | none =>
      have hnt := mergeNext_none (h e (by simp)) (h r (by simp)) hm
      obtain ⟨x, xs, hx, htype, hbase⟩ := mergeFrom_head rest r
      have := ih r (fun y hy => h y (List.mem_cons_of_mem _ hy))
      dsimp only
      rw [hx] at this ⊢
      refine List.isChain_cons_cons.mpr ⟨fun ht => hnt ?_, this⟩
      exact ⟨ht.1, htype ▸ ht.2.1, hbase ▸ ht.2.2⟩

theorem mergeFrom_eq_self : ∀ (rest : Memmap) (e : MemmapEntry),
    ((e :: rest).IsChain fun x y => ¬ Touching x y) → mergeFrom e rest = e :: rest := by
  intro rest
  induction rest with
  | nil => intro e _; rfl
  | cons r rest ih =>
    intro e h
    obtain ⟨h1, h2⟩ := List.isChain_cons_cons.mp h
    rw [mergeFrom_cons]
    rw [mergeNext_of_not_touching h1]
    dsimp only
    rw [ih r h2]

end Limine.Pmm
