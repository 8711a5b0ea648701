import Limine.Pmm.Sanitise
import Mathlib.Tactic.Ring

/-!
# The first pass of the sanitiser

`carve_cases` is all a turn of the inner loop can do.  Each turn, each deletion and each
alignment replaces one usable entry by pieces of it, which `Yields` describes for the map
as a whole; `weight` pays for the restarts.
-/

namespace Limine.Pmm

open Limine.Lib MemmapEntry

/-- Address `a` is usable and nothing else claims it. -/
def Free (m : Memmap) (a : Nat) : Prop := Covers m memmapUsable a ∧ ∀ t ∈ typesAt m a, t = memmapUsable

/-- `x` is a part of `e`, of the same type. -/
def PieceOf (x e : MemmapEntry) : Prop :=
  x.type = e.type ∧ e.base ≤ x.base ∧ x.base + x.length ≤ e.base + e.length

theorem PieceOf.refl (e : MemmapEntry) : PieceOf e e := ⟨rfl, Nat.le_refl _, Nat.le_refl _⟩

theorem PieceOf.trans {x y e : MemmapEntry} (h : PieceOf x y) (h' : PieceOf y e) : PieceOf x e :=
  ⟨h.1.trans h'.1, by have := h.2; have := h'.2; omega, by have := h.2; have := h'.2; omega⟩

theorem PieceOf.span_subset {x e : MemmapEntry} (h : PieceOf x e) : x.span ⊆ e.span := by
  intro a ha
  have := h.2
  simp only [mem_span] at ha ⊢
  omega

theorem PieceOf.noOverflow {x e : MemmapEntry} (h : PieceOf x e) (he : e.NoOverflow) :
    x.NoOverflow :=
  Nat.lt_of_le_of_lt h.2.2 he

theorem carve_cases {e r : MemmapEntry} (he : e.NoOverflow) (hr : r.NoOverflow) :
    (carve e r = .skip ∧ r.length = 0) ∨
    (∃ e', carve e r = .covered e' ∧ PieceOf e' e ∧ e'.length = 0 ∧ e.span ⊆ r.span) ∨
    (∃ e', carve e r = .trim e' none ∧ PieceOf e' e ∧ Disjoint e'.span r.span ∧
      e'.length ≤ e.length ∧ ∀ a ∈ e.span, a ∈ e'.span ∨ a ∈ r.span) ∨
    (∃ e' x, carve e r = .trim e' (some x) ∧ PieceOf e' e ∧ PieceOf x e ∧
      Disjoint e'.span r.span ∧ e'.length + x.length < e.length ∧
      ∀ a ∈ e.span, a ∈ e'.span ∨ a ∈ x.span ∨ a ∈ r.span) := by
  unfold NoOverflow at he hr
  unfold carve
  simp only [checkedAdd_eq_some he, checkedAdd_eq_some hr, PieceOf, span_disjoint_iff, mem_span,
    Set.subset_def]
  by_cases h0 : r.length = 0
  · left
    simp [h0]
  rw [if_neg h0]
  by_cases hc : r.base ≤ e.base ∧ e.base + e.length ≤ r.base + r.length
  · right; left
    rw [if_pos hc]
    exact ⟨_, rfl, ⟨rfl, by dsimp only; omega, by dsimp only; omega⟩, rfl, by omega⟩
  rw [if_neg hc]
  by_cases hn : (e.base ≤ r.base ∧ r.base < e.base + e.length) ∧
      (e.base ≤ r.base + r.length ∧ r.base + r.length < e.base + e.length)
  · right; right; right
    simp only [if_pos hn, Nat.lt_irrefl, and_false, if_false]
    rw [if_neg (by omega)]
    exact ⟨_, _, rfl, ⟨rfl, by dsimp only; omega, by dsimp only; omega⟩, ⟨rfl, by dsimp only; omega, by dsimp only; omega⟩,
      by dsimp only; omega, by dsimp only; omega, by dsimp only; omega⟩
  · right; right; left
    simp only [if_neg hn]
    by_cases hb : e.base ≤ r.base ∧ r.base < e.base + e.length
    · rw [if_pos hb, if_neg (by omega)]
      exact ⟨_, rfl, ⟨rfl, by dsimp only; omega, by dsimp only; omega⟩, by dsimp only; omega, by dsimp only; omega,
        by dsimp only; omega⟩
    · rw [if_neg hb]
      by_cases ht : e.base ≤ r.base + r.length ∧ r.base + r.length < e.base + e.length
      · rw [if_pos ht]
        exact ⟨_, rfl, ⟨rfl, by dsimp only; omega, by dsimp only; omega⟩, by dsimp only; omega, by dsimp only; omega,
          by dsimp only; omega⟩
      · rw [if_neg ht]
        exact ⟨_, rfl, ⟨rfl, by dsimp only; omega, by dsimp only; omega⟩, by dsimp only; omega, by dsimp only; omega, by dsimp only; omega⟩

/-- `m'` is `m` with some usable entries cut down: other types stay, usable memory does not grow,
and with `exact` no free address is lost. -/
structure Yields (exact : Bool) (m m' : Memmap) : Prop where
  noneOverflows : NoneOverflows m → NoneOverflows m'
  other : ∀ a t, t ≠ memmapUsable → (Covers m' t a ↔ Covers m t a)
  usable : ∀ a, Covers m' memmapUsable a → Covers m memmapUsable a
  free : exact = true → ∀ a, Free m a → Covers m' memmapUsable a
  weight_le : weight m' ≤ weight m

theorem Yields.refl (exact : Bool) (m : Memmap) : Yields exact m m :=
  ⟨id, fun _ _ _ => Iff.rfl, fun _ => id, fun _ _ h => h.1, Nat.le_refl _⟩

theorem Yields.trans {exact : Bool} {m m' m'' : Memmap} (h : Yields exact m m')
    (h' : Yields exact m' m'') : Yields exact m m'' where
  noneOverflows := h'.noneOverflows ∘ h.noneOverflows
  other a t ht := (h'.other a t ht).trans (h.other a t ht)
  usable a := h.usable a ∘ h'.usable a
  free he a ha := by
    refine h'.free he a ⟨h.free he a ha, fun t ht => ?_⟩
    by_contra hne
    exact hne (ha.2 t ((h.other a t hne).mp ht))
  weight_le := Nat.le_trans h'.weight_le h.weight_le

theorem Yields.relax {m m' : Memmap} {exact : Bool} (h : Yields true m m') : Yields exact m m' :=
  ⟨h.noneOverflows, h.other, h.usable, fun _ => h.free rfl, h.weight_le⟩

theorem weight_perm {m m' : Memmap} (h : m.Perm m') : weight m = weight m' := by
  unfold weight usableBytes
  rw [h.length_eq, (h.map _).sum_eq]

theorem weight_cons_usable {e : MemmapEntry} (he : e.type = memmapUsable) (m : Memmap) :
    weight (e :: m) = weight m + 1 + e.length := by
  simp only [weight, usableBytes, List.length_cons, List.map_cons, List.sum_cons, if_pos he]
  omega

/-- The one way the pass changes the map: a usable entry `e` becomes pieces of itself. -/
theorem Yields.of_perm (new : Memmap) {exact : Bool} {m m' rest : Memmap} {e : MemmapEntry}
    (he : e.type = memmapUsable) (hm : m.Perm (e :: rest)) (hm' : m'.Perm (new ++ rest))
    (hnew : ∀ x ∈ new, PieceOf x e) (hw : weight new ≤ 1 + e.length)
    (hfree : exact = true → ∀ a ∈ e.span, Covers new memmapUsable a ∨ ∃ r ∈ rest, a ∈ r.span) :
    Yields exact m m' where
  noneOverflows h := by
    have h := h.perm hm
    refine NoneOverflows.perm ?_ hm'.symm
    intro x hx
    rcases List.mem_append.mp hx with hx | hx
    · exact (hnew x hx).noOverflow (h e List.mem_cons_self)
    · exact h x (List.mem_cons_of_mem _ hx)
  other a t ht := by
    have hn : ¬ Covers new t a := by
      rintro ⟨x, hx, rfl, -⟩
      exact ht ((hnew x hx).1.trans he)
    unfold Covers
    rw [typesAt_perm hm, typesAt_perm hm', mem_typesAt_cons, mem_typesAt_append]
    constructor
    · rintro (h | h)
      · exact absurd h hn
      · exact Or.inr h
    · rintro (⟨rfl, -⟩ | h)
      · exact absurd he ht
      · exact Or.inr h
  usable a := by
    unfold Covers
    rw [typesAt_perm hm, typesAt_perm hm', mem_typesAt_cons, mem_typesAt_append]
    rintro (⟨x, hx, -, ha⟩ | h)
    · exact Or.inl ⟨he, (hnew x hx).span_subset ha⟩
    · exact Or.inr h
  free hex a ha := by
    unfold Free Covers at ha
    unfold Covers
    rw [typesAt_perm hm] at ha
    rw [typesAt_perm hm', mem_typesAt_append]
    rcases mem_typesAt_cons.mp ha.1 with ⟨-, hae⟩ | h
    · rcases hfree hex a hae with h | ⟨r, hr, har⟩
      · exact Or.inl h
      · right
        have := ha.2 r.type (mem_typesAt_cons.mpr (Or.inr ⟨r, hr, rfl, har⟩))
        exact ⟨r, hr, this, har⟩
    · exact Or.inr h
  weight_le := by
    rw [weight_perm hm, weight_perm hm', weight_cons_usable he]
    have : weight (new ++ rest) = weight new + weight rest := by
      simp only [weight, usableBytes, List.length_append, List.map_append, List.sum_append]
      omega
    omega

/-! ## The inner loop -/

/-- `m'` is `m` with entry `i` cut down and pieces of it appended; the other slots stay. -/
structure SplitAt (i : Nat) (m m' : Memmap) : Prop where
  len : m.length ≤ m'.length
  other : ∀ k, k ≠ i → k < m.length → m'[k]? = m[k]?
  piece : ∀ k x, k = i ∨ m.length ≤ k → m'[k]? = some x → ∀ e, m[i]? = some e → PieceOf x e

theorem SplitAt.refl (i : Nat) (m : Memmap) : SplitAt i m m where
  len := Nat.le_refl _
  other _ _ _ := rfl
  piece k x hk hx e he := by
    rcases hk with rfl | hk
    · obtain rfl : e = x := by rw [hx] at he; exact (Option.some.inj he).symm
      exact PieceOf.refl _
    · rw [List.getElem?_eq_none hk] at hx
      cases hx

theorem SplitAt.trans {i : Nat} {m m' m'' : Memmap} {e' : MemmapEntry} (hi : m'[i]? = some e')
    (h : SplitAt i m m') (h' : SplitAt i m' m'') : SplitAt i m m'' where
  len := Nat.le_trans h.len h'.len
  other k hk hl := (h'.other k hk (Nat.lt_of_lt_of_le hl h.len)).trans (h.other k hk hl)
  piece k x hk hx e he := by
    have hself := h.piece i e' (Or.inl rfl) hi e he
    by_cases hki : k = i ∨ m'.length ≤ k
    · exact (h'.piece k x hki hx e' hi).trans hself
    · have hkl : m.length ≤ k := by omega
      rw [h'.other k (by omega) (by omega)] at hx
      exact h.piece k x (Or.inr hkl) hx e he

theorem splitAt_set {i : Nat} {m : Memmap} {e e' : MemmapEntry} (he : m[i]? = some e)
    (hp : PieceOf e' e) (extra : Memmap) (hx : ∀ x ∈ extra, PieceOf x e) :
    SplitAt i m ((m ++ extra).set i e') := by
  have hi : i < m.length := (List.getElem?_eq_some_iff.mp he).1
  constructor
  · simp
  · intro k hk hl
    rw [List.getElem?_set_ne (Ne.symm hk), List.getElem?_append_left hl]
  · intro k x hk hk' e₀ he₀
    obtain rfl : e = e₀ := by rw [he] at he₀; exact Option.some.inj he₀
    by_cases hki : k = i
    · subst hki
      rw [List.getElem?_set_self (by simp; omega)] at hk'
      rw [← Option.some.inj hk']
      exact hp
    · rw [List.getElem?_set_ne (Ne.symm hki), List.getElem?_append_right (by omega)] at hk'
      exact hx x (List.mem_of_getElem? hk')

/-- Entry `i` shares no address with any other entry before `j`. -/
def ApartBelow (m : Memmap) (i j : Nat) : Prop :=
  ∀ e, m[i]? = some e → ∀ l < j, l ≠ i → ∀ r, m[l]? = some r → Disjoint e.span r.span

/-- Against an entry already dealt with, a smaller entry `i` is still apart. -/
theorem ApartBelow.split {i j : Nat} {m m' : Memmap} {e : MemmapEntry} (he : m[i]? = some e)
    (h : ApartBelow m i j) (hj : j ≤ m.length) (hs : SplitAt i m m') : ApartBelow m' i j := by
  intro e' he' l hl hli r hr
  rw [hs.other l hli (by omega)] at hr
  exact (h e he l hl hli r hr).mono_left (hs.piece i e' (Or.inl rfl) he' e he).span_subset

theorem perm_set {m : Memmap} {i : Nat} {e : MemmapEntry} (he : m[i]? = some e) (e' : MemmapEntry)
    (extra : Memmap) :
    ((m ++ extra).set i e').Perm ((e' :: extra) ++ swapRemove m i) := by
  have h1 : (m ++ extra)[i]? = some e := by
    rw [List.getElem?_append_left (List.getElem?_eq_some_iff.mp he).1, he]
  have h2 := perm_cons_set h1 e'
  have h3 : (e' :: (m ++ extra)).Perm (e :: ((e' :: extra) ++ swapRemove m i)) := by
    refine (List.Perm.cons e' ((perm_cons_swapRemove he).append_right extra)).trans ?_
    refine (List.Perm.swap e e' _).trans (List.Perm.cons e (List.Perm.cons e' ?_))
    exact List.perm_append_comm
  exact (h2.symm.trans h3).cons_inv

/-- What the inner loop leaves: entry `i` cut down to a piece that no other entry meets. -/
structure Split (i : Nat) (m m' : Memmap) : Prop where
  yields : Yields true m m'
  splitAt : SplitAt i m m'
  apart : ApartBelow m' i m'.length

theorem weight_swapRemove {m : Memmap} {i : Nat} {e : MemmapEntry} (he : m[i]? = some e) :
    weight (swapRemove m i) < weight m := by
  rw [weight_perm (perm_cons_swapRemove he)]
  simp only [weight, usableBytes, List.length_cons, List.map_cons, List.sum_cons]
  omega

theorem length_add_le_weight {m : Memmap} {i : Nat} {e : MemmapEntry} (he : m[i]? = some e)
    (hu : e.type = memmapUsable) : m.length + e.length ≤ weight m := by
  rw [weight_perm (perm_cons_swapRemove he), weight_cons_usable hu, ← length_swapRemove he]
  unfold weight
  omega

/-- One turn of the inner loop that goes on: `e` gives way to `r = m[j]`. -/
theorem Split.turn (extra : Memmap) {m : Memmap} {i j : Nat} {e e' r : MemmapEntry} (he : m[i]? = some e)
    (hr : m[j]? = some r) (hji : j ≠ i) (hu : e.type = memmapUsable) (hp : PieceOf e' e)
    (hextra : ∀ x ∈ extra, PieceOf x e) (hd : Disjoint e'.span r.span)
    (hw : extra.length + e'.length + (extra.map MemmapEntry.length).sum ≤ e.length)
    (hc : ∀ a ∈ e.span, a ∈ e'.span ∨ (∃ x ∈ extra, a ∈ x.span) ∨ a ∈ r.span)
    (hb : ApartBelow m i j) :
    Yields true m ((m ++ extra).set i e') ∧ SplitAt i m ((m ++ extra).set i e') ∧
      ApartBelow ((m ++ extra).set i e') i (j + 1) := by
  have hj : j < m.length := (List.getElem?_eq_some_iff.mp hr).1
  have hs := splitAt_set he hp extra hextra
  have hnew : ∀ x ∈ e' :: extra, PieceOf x e := by
    intro x hx
    rcases List.mem_cons.mp hx with rfl | hx
    · exact hp
    · exact hextra x hx
  have hwnew : weight (e' :: extra) = extra.length + 1 + e'.length + (extra.map MemmapEntry.length).sum := by
    have hmap : (extra.map fun x => if x.type = memmapUsable then x.length else 0)
        = extra.map MemmapEntry.length := by
      apply List.map_congr_left
      intro x hx
      rw [if_pos ((hextra x hx).1.trans hu)]
    rw [weight_cons_usable (hp.1.trans hu)]
    simp only [weight, usableBytes, hmap]
    omega
  refine ⟨Yields.of_perm (e' :: extra) hu (perm_cons_swapRemove he) (perm_set he e' extra) hnew (by omega) ?_,
    hs, ?_⟩
  · intro _ a ha
    rcases hc a ha with h | ⟨x, hx, h⟩ | h
    · exact Or.inl ⟨e', List.mem_cons_self, hp.1.trans hu, h⟩
    · exact Or.inl ⟨x, List.mem_cons_of_mem _ hx, (hextra x hx).1.trans hu, h⟩
    · exact Or.inr ⟨r, mem_swapRemove_of_ne he hr hji, h⟩
  · intro e₁ he₁ l hl hli r₁ hr₁
    rcases Nat.lt_succ_iff_lt_or_eq.mp hl with hl | rfl
    · exact hb.split he (Nat.le_of_lt hj) hs e₁ he₁ l hl hli r₁ hr₁
    · rw [hs.other l hli hj, hr] at hr₁
      rw [List.getElem?_set_self (by simp; have := (List.getElem?_eq_some_iff.mp he).1; omega)] at he₁
      rw [← Option.some.inj he₁, ← Option.some.inj hr₁]
      exact hd

theorem overlapLoop_ensures (maxEntries i : Nat) :
    ∀ fuel m j e, m[i]? = some e → e.type = memmapUsable → NoneOverflows m → j ≤ m.length →
      m.length - j + e.length < fuel → ApartBelow m i j →
      (overlapLoop maxEntries i fuel m j).Ensures (maxEntries < weight m)
        fun p => p.2 = false ∧ Split i m p.1 := by
  intro fuel
  induction fuel with
  | zero => intro m j e _ _ _ _ hf; omega
  | succ fuel ih =>
    intro m j e he hu hm hjl hf hb
    unfold overlapLoop
    rw [he]
    cases hr : m[j]? with
    | none =>
      have hj : m.length ≤ j := List.getElem?_eq_none_iff.mp hr
      obtain rfl : j = m.length := by omega
      exact ⟨rfl, Yields.refl _ _, SplitAt.refl _ _, hb⟩
    | some r =>
      have hj : j < m.length := (List.getElem?_eq_some_iff.mp hr).1
      dsimp only
      by_cases hji : j = i
      · rw [if_pos hji]
        refine ih m (j + 1) e he hu hm hj (by omega) fun e₁ he₁ l hl hli => ?_
        exact hb e₁ he₁ l (by omega) hli
      rw [if_neg hji]
      have hen := hm e (List.mem_of_getElem? he)
      have hrn := hm r (List.mem_of_getElem? hr)
      -- the turns that go on: the rest of the loop runs on the cut map
      have go : ∀ (extra : Memmap) (e' : MemmapEntry), PieceOf e' e →
          Yields true m ((m ++ extra).set i e') → SplitAt i m ((m ++ extra).set i e') →
          ApartBelow ((m ++ extra).set i e') i (j + 1) → extra.length + e'.length ≤ e.length →
          (overlapLoop maxEntries i fuel ((m ++ extra).set i e') (j + 1)).Ensures
            (maxEntries < weight m) fun p => p.2 = false ∧ Split i m p.1 := by
        intro extra e' hp hy hs hb' hlen
        have hself : ((m ++ extra).set i e')[i]? = some e' :=
          List.getElem?_set_self (by simp; have := (List.getElem?_eq_some_iff.mp he).1; omega)
        refine (ih _ (j + 1) e' hself (hp.1.trans hu) (hy.noneOverflows hm) (by simp; omega)
          (by simp; omega) hb').imp (fun h => Nat.lt_of_lt_of_le h hy.weight_le) ?_
        rintro p ⟨hdel, hsplit⟩
        exact ⟨hdel, hy.trans hsplit.yields, hs.trans hself hsplit.splitAt, hsplit.apart⟩
      rcases carve_cases hen hrn with ⟨hc, hz⟩ | ⟨e', hc, hp, hz, hsub⟩ |
          ⟨e', hc, hp, hd, hl, hcov⟩ | ⟨e', x, hc, hp, hx, hd, hl, hcov⟩
      · rw [hc]
        refine ih m (j + 1) e he hu hm hj (by omega) fun e₁ he₁ l hl hli r₁ hr₁ => ?_
        rcases Nat.lt_succ_iff_lt_or_eq.mp hl with hl | rfl
        · exact hb e₁ he₁ l hl hli r₁ hr₁
        · obtain rfl : r = r₁ := by rw [hr] at hr₁; exact Option.some.inj hr₁
          exact span_disjoint_iff.mpr (by omega)
      · rw [hc]
        have hd : Disjoint e'.span r.span := span_disjoint_iff.mpr (by omega)
        obtain ⟨hy, hs, -⟩ := Split.turn [] he hr hji hu hp (by simp) hd (by simp; omega)
          (fun a ha => Or.inr (Or.inr (hsub ha))) hb
        rw [List.append_nil] at hy hs
        refine ⟨rfl, hy, hs, fun e₁ he₁ l _ _ r₁ _ => span_disjoint_iff.mpr ?_⟩
        rw [List.getElem?_set_self (List.getElem?_eq_some_iff.mp he).1] at he₁
        rw [← Option.some.inj he₁]
        omega
      · rw [hc]
        obtain ⟨hy, hs, hb'⟩ := Split.turn [] he hr hji hu hp (by simp) hd (by simp; omega)
          (fun a ha => (hcov a ha).imp_right Or.inr) hb
        have := go [] e' hp hy hs hb' (by simp; omega)
        rwa [List.append_nil] at this
      · rw [hc]
        dsimp only
        have hw := length_add_le_weight he hu
        split
        · show maxEntries < weight m
          omega
        · obtain ⟨hy, hs, hb'⟩ := Split.turn [x] he hr hji hu hp (by simpa using hx) hd
            (by simp; omega) (fun a ha => by simpa using hcov a ha) hb
          exact go [x] e' hp hy hs hb' (by simp; omega)

/-! ## The whole pass -/

theorem alignEntry_spec {base length base' length' : Nat}
    (h : alignEntry base length = some (base', length')) :
    base ≤ base' ∧ base' + length' ≤ base + length ∧ 0 < length' ∧
      pageSize ∣ base' ∧ pageSize ∣ length' := by
  unfold alignEntry at h
  split at h
  · cases h
  next hlen =>
  split at h
  · cases h
  next b hb =>
  obtain ⟨h1, h2, h3, -⟩ := alignUp_spec (by decide) hb
  have h4 := alignDown_le (length - (b - base)) pageSize
  have h5 := alignDown_dvd (length - (b - base)) pageSize
  dsimp only at h
  split at h
  · cases h
  · obtain ⟨rfl, rfl⟩ := Prod.mk.inj (Option.some.inj h)
    exact ⟨h1, by omega, by omega, h3, h5⟩

/-- What the pass asks of a usable entry alone. -/
def SettledEntry (alignEntries : Bool) (e : MemmapEntry) : Prop :=
  0 < e.length ∧ (alignEntries = true → pageSize ∣ e.base ∧ pageSize ∣ e.length)

theorem settleEntry_some {alignEntries : Bool} {e e' : MemmapEntry}
    (h : settleEntry alignEntries e = some e') :
    PieceOf e' e ∧ e'.length ≤ e.length ∧ SettledEntry alignEntries e' ∧
      (alignEntries = false → e' = e) := by
  unfold settleEntry at h
  split at h
  · cases h
  next hz =>
  split at h
  · next hal =>
    obtain ⟨⟨b, l⟩, hbl, rfl⟩ := Option.map_eq_some_iff.mp h
    obtain ⟨h1, h2, h3, h4, h5⟩ := alignEntry_spec hbl
    exact ⟨⟨rfl, h1, h2⟩, by dsimp only; omega, ⟨h3, fun _ => ⟨h4, h5⟩⟩, by simp [hal]⟩
  · next hal =>
    obtain rfl := Option.some.inj h
    exact ⟨PieceOf.refl e, Nat.le_refl _, ⟨by omega, by simp [hal]⟩, fun _ => rfl⟩

theorem settleEntry_none {alignEntries : Bool} {e : MemmapEntry}
    (h : settleEntry alignEntries e = none) : alignEntries = true ∨ e.length = 0 := by
  unfold settleEntry at h
  split at h
  · next hz => exact Or.inr hz
  · split at h
    · next hal => exact Or.inl hal
    · cases h

/-- Every usable entry before `i` is settled and meets no other entry. -/
def ClearedUpTo (alignEntries : Bool) (m : Memmap) (i : Nat) : Prop :=
  ∀ k < i, ∀ e, m[k]? = some e → e.type = memmapUsable →
    SettledEntry alignEntries e ∧ ∀ l, l ≠ k → ∀ r, m[l]? = some r → Disjoint e.span r.span

/-- Cutting down entry `i` leaves the entries before it cleared. -/
theorem ClearedUpTo.split {alignEntries : Bool} {m m' : Memmap} {i : Nat} {e : MemmapEntry}
    (he : m[i]? = some e) (h : ClearedUpTo alignEntries m i) (hs : SplitAt i m m') :
    ClearedUpTo alignEntries m' i := by
  intro k hk f hf hu
  have hi : i < m.length := (List.getElem?_eq_some_iff.mp he).1
  rw [hs.other k (by omega) (by omega)] at hf
  obtain ⟨hset, hd⟩ := h k hk f hf hu
  refine ⟨hset, fun l hl r hr => ?_⟩
  by_cases hli : l = i ∨ m.length ≤ l
  · exact (hd i (by omega) e he).mono_right (hs.piece l r hli hr e he).span_subset
  · rw [hs.other l (by omega) (by omega)] at hr
    exact hd l hl r hr

/-- Turns of the pass that may still come, at entry `i` of `m`: a restart costs weight. -/
def turnsLeft (m : Memmap) (i : Nat) : Nat := weight m * (weight m + 2) + (weight m - i)

theorem turnsLeft_next {m m' : Memmap} {i : Nat} (hw : weight m' ≤ weight m) (hi : i < m'.length) :
    turnsLeft m' (i + 1) < turnsLeft m i := by
  have hl : m'.length ≤ weight m' := Nat.le_add_right _ _
  have := Nat.mul_le_mul hw (Nat.add_le_add_right hw 2)
  unfold turnsLeft
  omega

theorem turnsLeft_restart {m m' : Memmap} {i : Nat} (hw : weight m' < weight m) :
    turnsLeft m' 0 < turnsLeft m i := by
  have : (weight m' + 1) * (weight m' + 3) ≤ weight m * (weight m + 2) :=
    Nat.mul_le_mul hw (by omega)
  have e : (weight m' + 1) * (weight m' + 3) = weight m' * (weight m' + 2) + 2 * weight m' + 3 := by
    ring
  unfold turnsLeft
  omega

theorem splitUsable_ensures (maxEntries : Nat) (alignEntries : Bool) :
    ∀ fuel m i, NoneOverflows m → ClearedUpTo alignEntries m i → turnsLeft m i < fuel →
      (splitUsable maxEntries alignEntries fuel m i).Ensures (maxEntries < weight m)
        fun m' => Yields (!alignEntries) m m' ∧ ClearedUpTo alignEntries m' m'.length := by
  intro fuel
  induction fuel with
  | zero => intro m i _ _ hf; omega
  | succ fuel ih =>
    intro m i hm hc hf
    unfold splitUsable
    cases he : m[i]? with
    | none =>
      refine ⟨Yields.refl _ _, fun k hk => ?_⟩
      have := List.getElem?_eq_none_iff.mp he
      exact hc k (by omega)
    | some e =>
      have hi : i < m.length := (List.getElem?_eq_some_iff.mp he).1
      dsimp only
      by_cases hu : e.type ≠ memmapUsable
      · rw [if_pos hu]
        refine ih m (i + 1) hm (fun k hk f hkf hfu => ?_) (Nat.lt_of_lt_of_le
          (turnsLeft_next (Nat.le_refl _) hi) (Nat.le_of_lt_succ hf))
        rcases Nat.lt_succ_iff_lt_or_eq.mp hk with hk | rfl
        · exact hc k hk f hkf hfu
        · rw [he] at hkf
          obtain rfl := Option.some.inj hkf
          exact absurd hfu hu
      rw [if_neg hu]
      rw [not_not] at hu
      have hloop := overlapLoop_ensures maxEntries i (weight m + 1) m 0 e he hu hm (Nat.zero_le _)
        (by have := length_add_le_weight he hu; omega) (fun _ _ l hl => absurd hl (Nat.not_lt_zero l))
      -- what follows once the map has yielded to `m'`
      have go : ∀ m' k, Yields (!alignEntries) m m' → ClearedUpTo alignEntries m' k →
          turnsLeft m' k < turnsLeft m i →
          (splitUsable maxEntries alignEntries fuel m' k).Ensures (maxEntries < weight m)
            fun m'' => Yields (!alignEntries) m m'' ∧ ClearedUpTo alignEntries m'' m''.length := by
        intro m' k hy hc' ht
        exact (ih m' k (hy.noneOverflows hm) hc' (by omega)).imp
          (fun h => Nat.lt_of_lt_of_le h hy.weight_le) fun m'' h => ⟨hy.trans h.1, h.2⟩
      match hl : overlapLoop maxEntries i (weight m + 1) m 0, hloop with
      | .error (.panic _), hp => exact hp
      | .ok (m', del), ⟨hdel, hsplit⟩ =>
        dsimp only at hdel hsplit
        subst hdel
        dsimp only
        have hi' : i < m'.length := Nat.lt_of_lt_of_le hi hsplit.splitAt.len
        have he' : m'[i]? = some m'[i] := List.getElem?_eq_getElem hi'
        generalize m'[i] = e' at he'
        have hp := hsplit.splitAt.piece i e' (Or.inl rfl) he' e he
        have hu' : e'.type = memmapUsable := hp.1.trans hu
        rw [he', Option.bind_some]
        cases hse : settleEntry alignEntries e' with
        | none =>
          have hy : Yields (!alignEntries) m' (swapRemove m' i) := by
            refine Yields.of_perm [] hu' (perm_cons_swapRemove he') (List.Perm.refl _)
              (by simp) (by simp [weight, usableBytes]) fun hex a ha => ?_
            rcases settleEntry_none hse with h | h
            · rw [h] at hex
              cases hex
            · rw [mem_span] at ha
              omega
          refine go _ 0 (hsplit.yields.relax.trans hy) (fun k hk => absurd hk (Nat.not_lt_zero k)) ?_
          exact turnsLeft_restart (Nat.lt_of_lt_of_le (weight_swapRemove he') hsplit.yields.weight_le)
        | some e'' =>
          obtain ⟨hp'', hlen, hset, hsame⟩ := settleEntry_some hse
          have hs := splitAt_set he' hp'' [] (by simp)
          have hperm := perm_set he' e'' []
          rw [List.append_nil] at hs hperm
          have hy : Yields (!alignEntries) m' (m'.set i e'') := by
            refine Yields.of_perm [e''] hu' (perm_cons_swapRemove he') hperm
              (by simpa using hp'') ?_ fun hex a ha => ?_
            · rw [weight_cons_usable (hp''.1.trans hu')]
              simp [weight, usableBytes]
              omega
            · rw [hsame (by simpa using hex)]
              exact Or.inl ⟨e', List.mem_cons_self, hu', ha⟩
          have hself : (m'.set i e'')[i]? = some e'' := List.getElem?_set_self hi'
          refine go _ (i + 1) (hsplit.yields.relax.trans hy) (fun k hk f hkf hfu => ?_) ?_
          · rcases Nat.lt_succ_iff_lt_or_eq.mp hk with hk | rfl
            · exact hc.split he (SplitAt.trans he' hsplit.splitAt hs) k hk f hkf hfu
            · rw [hself] at hkf
              obtain rfl := Option.some.inj hkf
              refine ⟨hset, fun l hlk r hr => ?_⟩
              have hlen' := (List.getElem?_eq_some_iff.mp hr).1
              rw [List.length_set] at hlen'
              exact hsplit.apart.split he' (Nat.le_refl _) hs e'' hself l hlen' hlk r hr
          · refine turnsLeft_next (Nat.le_trans hy.weight_le hsplit.yields.weight_le) ?_
            rw [List.length_set]
            exact hi'

/-- What the first pass leaves. -/
structure SplitDone (alignEntries : Bool) (m : Memmap) : Prop where
  noneOverflows : NoneOverflows m
  disjoint : UsableDisjoint m
  settled : ∀ e ∈ m, e.type = memmapUsable → SettledEntry alignEntries e

theorem splitDone_of_cleared {alignEntries : Bool} {m : Memmap} (hm : NoneOverflows m)
    (h : ClearedUpTo alignEntries m m.length) : SplitDone alignEntries m where
  noneOverflows := hm
  disjoint := by
    refine List.pairwise_iff_getElem.mpr fun i j hi hj hij ht => ?_
    have hgi := List.getElem?_eq_getElem hi
    have hgj := List.getElem?_eq_getElem hj
    rcases ht with ht | ht
    · exact (h i hi _ hgi ht).2 j (by omega) _ hgj
    · exact ((h j hj _ hgj ht).2 i (by omega) _ hgi).symm
  settled e he hu := by
    obtain ⟨i, hi, rfl⟩ := List.mem_iff_getElem.mp he
    exact (h i hi _ (List.getElem?_eq_getElem hi) hu).1

end Limine.Pmm
