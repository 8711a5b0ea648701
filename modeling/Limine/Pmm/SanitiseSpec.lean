import Limine.Pmm.SortMerge

/-!
# What `pmm_sanitise_entries` does

    NoneOverflows m → (pmmSanitiseEntries max keep m align).Ensures (max < weight m)
      fun m' => Sanitised keep align m' ∧ Settles keep align m m'

The only panic is the full array, which a capacity of `weight m` rules out.  `Sanitised`
maps are the fixed points.
-/

namespace Limine.Pmm

open Limine.Lib MemmapEntry

/-- The maps the sanitiser produces. -/
structure Sanitised (keepFirstPage alignEntries : Bool) (m : Memmap) : Prop where
  noneOverflows : NoneOverflows m
  sorted : SortedByBase m
  disjoint : UsableDisjoint m
  nonempty : ∀ e ∈ m, 0 < e.length
  settled : ∀ e ∈ m, e.type = memmapUsable → SettledEntry alignEntries e
  inReach : ∀ e ∈ m, InReach keepFirstPage e.type e.base
  unmerged : m.IsChain fun e r => ¬ Touching e r

/-- What the sanitiser does to the types: only usable ones give way, and with `alignEntries`
the ends of usable ranges as well. -/
structure Settles (keepFirstPage alignEntries : Bool) (m m' : Memmap) : Prop where
  other : ∀ a t, t ≠ memmapUsable → (Covers m' t a ↔ Covers m t a)
  usable : ∀ a, Covers m' memmapUsable a → Free m a ∧ InReach keepFirstPage memmapUsable a
  free : alignEntries = false → ∀ a, Free m a → InReach keepFirstPage memmapUsable a →
    Covers m' memmapUsable a

theorem MemmapEntry.Apart.piece {x y e r : MemmapEntry} (hx : PieceOf x e) (hy : PieceOf y r)
    (h : Apart e r) : Apart x y := by
  intro ht
  rw [hx.1, hy.1] at ht
  exact (h ht).mono hx.span_subset hy.span_subset

/-! ## The second pass over a whole map -/

section Clip

variable {keepFirstPage alignEntries : Bool} {m : Memmap}

theorem mem_filterMap_clip {x : MemmapEntry} (hm : NoneOverflows m)
    (hx : x ∈ m.filterMap (clipEntry keepFirstPage)) :
    ∃ e ∈ m, clipEntry keepFirstPage e = some x ∧ e.NoOverflow := by
  obtain ⟨e, he, hc⟩ := List.mem_filterMap.mp hx
  exact ⟨e, he, hc, hm e he⟩

theorem covers_filterMap_clip (hm : NoneOverflows m) (a t : Nat) :
    Covers (m.filterMap (clipEntry keepFirstPage)) t a ↔
      Covers m t a ∧ InReach keepFirstPage t a := by
  constructor
  · rintro ⟨x, hx, rfl, ha⟩
    obtain ⟨e, he, hc, hen⟩ := mem_filterMap_clip hm hx
    obtain ⟨hp, -, -, -, hspan⟩ := clipEntry_some hen hc
    obtain ⟨h1, h2⟩ := (hspan a).mp ha
    exact ⟨⟨e, he, hp.1.symm, h1⟩, hp.1 ▸ h2⟩
  · rintro ⟨⟨e, he, rfl, ha⟩, hr⟩
    cases hc : clipEntry keepFirstPage e with
    | none => exact absurd hr (clipEntry_none (hm e he) hc a ha)
    | some x =>
      obtain ⟨hp, -, -, -, hspan⟩ := clipEntry_some (hm e he) hc
      exact ⟨x, List.mem_filterMap.mpr ⟨e, he, hc⟩, hp.1, (hspan a).mpr ⟨ha, hr⟩⟩

theorem clip_settled {e x : MemmapEntry} (he : e.NoOverflow)
    (hc : clipEntry keepFirstPage e = some x) (hs : SettledEntry alignEntries e) :
    SettledEntry alignEntries x := by
  obtain ⟨-, hl, -⟩ := clipEntry_some he hc
  refine ⟨hl, fun hal => ?_⟩
  obtain ⟨hb, hlen⟩ := hs.2 hal
  unfold clipEntry at hc
  rw [checkedAdd_eq_some he] at hc
  split at hc
  · dsimp only at hc
    split at hc
    · cases hc
    split at hc
    · cases hc
    obtain rfl := Option.some.inj hc
    exact ⟨Nat.dvd_refl 4096, Nat.dvd_sub hlen (Nat.dvd_sub (Nat.dvd_refl 4096) hb)⟩
  · split at hc
    · cases hc
    · obtain rfl := Option.some.inj hc
      exact ⟨hb, hlen⟩

theorem clip_disjoint (hm : NoneOverflows m) (hd : UsableDisjoint m) :
    UsableDisjoint (m.filterMap (clipEntry keepFirstPage)) := by
  refine List.pairwise_filterMap.mpr (hd.imp_of_mem fun {e r} he hr h x hx y hy => ?_)
  exact h.piece (clipEntry_some (hm e he) hx).1 (clipEntry_some (hm r hr) hy).1

end Clip

/-! ## The function -/

theorem mergeEntries_spec {keepFirstPage alignEntries : Bool} {m : Memmap}
    (hn : NoneOverflows m) (hs : SortedByBase m) (hd : UsableDisjoint m)
    (hl : ∀ e ∈ m, 0 < e.length)
    (hset : ∀ e ∈ m, e.type = memmapUsable → SettledEntry alignEntries e)
    (hr : ∀ e ∈ m, InReach keepFirstPage e.type e.base) :
    Sanitised keepFirstPage alignEntries (mergeEntries m) ∧
      ∀ a, typesAt (mergeEntries m) a = typesAt m a := by
  cases m with
  | nil => exact ⟨⟨hn, hs, hd, hl, hset, hr, List.IsChain.nil⟩, fun _ => rfl⟩
  | cons e rest =>
    refine ⟨⟨?_, ?_, ?_, ?_, ?_, ?_, mergeFrom_unmerged rest e hn⟩, fun a => typesAt_mergeFrom a rest e⟩
    · exact mergeFrom_forall (fun e r ht _ h => ht.noOverflow h) rest e hn
    · exact mergeFrom_pairwise (fun _ _ _ _ h _ => h) (fun _ _ _ _ h _ => h) rest e hs
    · exact mergeFrom_pairwise (fun e r x ht h h' => h.merge ht h')
        (fun e r x ht h h' => (h.symm.merge ht h'.symm).symm) rest e hd
    · exact mergeFrom_forall (fun e r _ h _ => Nat.lt_of_lt_of_le h (Nat.le_add_right _ _)) rest e hl
    · refine mergeFrom_forall (fun e r ht h h' hu => ?_) rest e hset
      have h := h hu
      have h' := h' (ht.2.1.trans hu)
      exact ⟨Nat.lt_of_lt_of_le h.1 (Nat.le_add_right _ _), fun hal =>
        ⟨(h.2 hal).1, Nat.dvd_add (h.2 hal).2 (h'.2 hal).2⟩⟩
    · exact mergeFrom_forall (fun e r _ h _ => h) rest e hr

theorem splitUsable_start (maxEntries : Nat) (alignEntries : Bool) {m : Memmap}
    (hm : NoneOverflows m) :
    (splitUsable maxEntries alignEntries ((weight m + 2) * (weight m + 2)) m 0).Ensures
      (maxEntries < weight m) fun m' => Yields (!alignEntries) m m' ∧ SplitDone alignEntries m' := by
  have hf : turnsLeft m 0 < (weight m + 2) * (weight m + 2) := by
    have e : (weight m + 2) * (weight m + 2) = weight m * (weight m + 2) + 2 * (weight m + 2) := by
      ring
    unfold turnsLeft
    omega
  refine (splitUsable_ensures maxEntries alignEntries _ m 0 hm
    (fun k hk => absurd hk (Nat.not_lt_zero k)) hf).imp id fun m' h => ⟨h.1, ?_⟩
  exact splitDone_of_cleared (h.1.noneOverflows hm) h.2

/-- The passes after the first, from what the first leaves. -/
theorem laterPasses_spec {keepFirstPage alignEntries : Bool} {m : Memmap}
    (h : SplitDone alignEntries m) :
    let m₂ := dropEmpty keepFirstPage m.length m 0
    Sanitised keepFirstPage alignEntries (mergeEntries (sortEntries m₂.length m₂)) ∧
      ∀ a t, Covers (mergeEntries (sortEntries m₂.length m₂)) t a ↔
        Covers m t a ∧ InReach keepFirstPage t a := by
  intro m₂
  have hp₂ : m₂.Perm (m.filterMap (clipEntry keepFirstPage)) := by
    simpa using dropEmpty_perm keepFirstPage m.length m 0 (by omega)
  obtain ⟨hp₃, hs₃⟩ := sortEntries_spec m₂.length m₂ (Nat.le_refl _)
  have hp := hp₃.trans hp₂
  generalize sortEntries m₂.length m₂ = m₃ at hp hs₃
  have of_mem : ∀ {P : MemmapEntry → Prop}, (∀ e ∈ m, ∀ x, clipEntry keepFirstPage e = some x → P x) →
      ∀ x ∈ m₃, P x := by
    intro P hP x hx
    obtain ⟨e, he, hc, -⟩ := mem_filterMap_clip h.noneOverflows (hp.mem_iff.mp hx)
    exact hP e he x hc
  have hn := h.noneOverflows
  obtain ⟨h4, h5⟩ := @mergeEntries_spec keepFirstPage alignEntries _
    (of_mem fun e he x hc => (clipEntry_some (hn e he) hc).1.noOverflow (hn e he)) hs₃
    ((clip_disjoint hn h.disjoint).perm hp.symm)
    (of_mem fun e he x hc => (clipEntry_some (hn e he) hc).2.1)
    (of_mem fun e he x hc hu => clip_settled (hn e he) hc
      (h.settled e he ((clipEntry_some (hn e he) hc).1.1.symm.trans hu)))
    (of_mem fun e he x hc => (clipEntry_some (hn e he) hc).2.2.1)
  refine ⟨h4, fun a t => ?_⟩
  unfold Covers
  rw [h5, typesAt_perm hp]
  exact covers_filterMap_clip hn a t

theorem pmmSanitiseEntries_ensures (maxEntries : Nat) (keepFirstPage : Bool) {m : Memmap}
    (hm : NoneOverflows m) (alignEntries : Bool) :
    (pmmSanitiseEntries maxEntries keepFirstPage m alignEntries).Ensures (maxEntries < weight m)
      fun m' => Sanitised keepFirstPage alignEntries m' ∧ Settles keepFirstPage alignEntries m m' := by
  unfold pmmSanitiseEntries
  refine Exec.Ensures.bind (splitUsable_start maxEntries alignEntries hm) fun m₁ ⟨hy, hdone⟩ => ?_
  obtain ⟨h1, h2⟩ := @laterPasses_spec keepFirstPage _ _ hdone
  refine ⟨h1, fun a t ht => ?_, fun a ha => ?_, fun hal a hfree hr => ?_⟩
  · rw [h2, hy.other a t ht]
    exact and_iff_left fun h => absurd h ht
  · obtain ⟨hu, hr⟩ := (h2 a _).mp ha
    refine ⟨⟨hy.usable a hu, fun t ht => ?_⟩, hr⟩
    by_contra hne
    exact hne (hdone.disjoint.eq_of_covers hu ((hy.other a t hne).mpr ht))
  · exact (h2 a _).mpr ⟨hy.free (by simp [hal]) a hfree, hr⟩

/-! ## Fixed points -/

theorem carve_eq_self {e r : MemmapEntry} (he : e.NoOverflow) (hr : r.NoOverflow)
    (hel : 0 < e.length) (hrl : 0 < r.length) (hd : Disjoint e.span r.span) :
    carve e r = .trim e none := by
  have := span_disjoint_iff.mp hd
  unfold NoOverflow at he hr
  unfold carve
  simp only [checkedAdd_eq_some he, checkedAdd_eq_some hr]
  have hn : ¬ (e.base ≤ r.base ∧ r.base < e.base + e.length) := by omega
  rw [if_neg (by omega), if_neg (by omega)]
  simp only [hn, false_and, if_false]
  by_cases ht : e.base ≤ r.base + r.length ∧ r.base + r.length < e.base + e.length
  · have hb : r.base + r.length = e.base := by omega
    rw [if_pos ht, hb, Nat.add_sub_cancel_left]
  · rw [if_neg ht, Nat.add_sub_cancel_left]

theorem overlapLoop_eq_self (maxEntries i : Nat) {m : Memmap} {e : MemmapEntry}
    (he : m[i]? = some e) (hm : NoneOverflows m) (hl : ∀ x ∈ m, 0 < x.length)
    (hd : ∀ l ≠ i, ∀ r, m[l]? = some r → Disjoint e.span r.span) :
    ∀ fuel j, m.length < fuel + j → overlapLoop maxEntries i fuel m j = .ok (m, false) ∨ fuel = 0 := by
  intro fuel
  induction fuel with
  | zero => intro j _; exact Or.inr rfl
  | succ fuel ih =>
    intro j hj
    left
    unfold overlapLoop
    rw [he]
    cases hr : m[j]? with
    | none => rfl
    | some r =>
      have hjl : j < m.length := (List.getElem?_eq_some_iff.mp hr).1
      have hnext : overlapLoop maxEntries i fuel m (j + 1) = .ok (m, false) :=
        (ih (j + 1) (by omega)).resolve_right (by omega)
      dsimp only
      by_cases hji : j = i
      · rw [if_pos hji, hnext]
      rw [if_neg hji, carve_eq_self (hm e (List.mem_of_getElem? he)) (hm r (List.mem_of_getElem? hr))
        (hl e (List.mem_of_getElem? he)) (hl r (List.mem_of_getElem? hr)) (hd j hji r hr)]
      dsimp only
      obtain ⟨hi, rfl⟩ := List.getElem?_eq_some_iff.mp he
      rw [List.set_getElem_self, hnext]

theorem settleEntry_eq_self {alignEntries : Bool} {e : MemmapEntry} (he : e.NoOverflow)
    (hs : SettledEntry alignEntries e) : settleEntry alignEntries e = some e := by
  obtain ⟨hl, hal⟩ := hs
  unfold NoOverflow at he
  unfold settleEntry
  rw [if_neg (by omega)]
  split
  · next h =>
    obtain ⟨hb, hlen⟩ := hal h
    have hge : pageSize ≤ e.length := Nat.le_of_dvd hl hlen
    unfold alignEntry
    rw [if_neg (by omega), alignUp_of_dvd (by decide) hb (by simp only [pageSize] at hge ⊢; omega)]
    dsimp only
    rw [Nat.sub_self, Nat.sub_zero, alignDown_eq_self hlen, if_neg (by omega)]
    rfl
  · rfl

theorem splitUsable_eq_self (maxEntries : Nat) {alignEntries : Bool} {m : Memmap}
    (h : SplitDone alignEntries m) (hl : ∀ x ∈ m, 0 < x.length) :
    ∀ fuel i, m.length < fuel + i → splitUsable maxEntries alignEntries fuel m i = .ok m ∨ fuel = 0 := by
  intro fuel
  induction fuel with
  | zero => intro i _; exact Or.inr rfl
  | succ fuel ih =>
    intro i hi
    left
    unfold splitUsable
    cases he : m[i]? with
    | none => rfl
    | some e =>
      obtain ⟨hil, hie⟩ := List.getElem?_eq_some_iff.mp he
      have hnext : splitUsable maxEntries alignEntries fuel m (i + 1) = .ok m :=
        (ih (i + 1) (by omega)).resolve_right (by omega)
      dsimp only
      by_cases hu : e.type ≠ memmapUsable
      · rw [if_pos hu, hnext]
      rw [if_neg hu]
      rw [not_not] at hu
      have hd : ∀ l ≠ i, ∀ r, m[l]? = some r → Disjoint e.span r.span := by
        intro l hli r hr
        obtain ⟨hll, rfl⟩ := List.getElem?_eq_some_iff.mp hr
        subst hie
        rcases Nat.lt_or_gt_of_ne hli with hlt | hlt
        · exact (List.pairwise_iff_getElem.mp h.disjoint l i hll hil hlt (Or.inr hu)).symm
        · exact List.pairwise_iff_getElem.mp h.disjoint i l hil hll hlt (Or.inl hu)
      have hw : m.length ≤ weight m := Nat.le_add_right _ _
      rw [(overlapLoop_eq_self maxEntries i he h.noneOverflows hl hd (weight m + 1) 0
        (by omega)).resolve_right (by omega)]
      dsimp only
      have hem := List.mem_of_getElem? he
      rw [he, Option.bind_some, settleEntry_eq_self (h.noneOverflows e hem) (h.settled e hem hu)]
      dsimp only
      subst hie
      rw [List.set_getElem_self, hnext]

theorem Sanitised.eq_self {keepFirstPage alignEntries : Bool} {m : Memmap}
    (h : Sanitised keepFirstPage alignEntries m) (maxEntries : Nat) :
    pmmSanitiseEntries maxEntries keepFirstPage m alignEntries = .ok m := by
  have hw : m.length ≤ weight m := Nat.le_add_right _ _
  have hfuel : m.length < (weight m + 2) * (weight m + 2) + 0 := by
    have := Nat.mul_le_mul (show 1 ≤ weight m + 2 by omega) (Nat.le_refl (weight m + 2))
    omega
  have hdone : SplitDone alignEntries m := ⟨h.noneOverflows, h.disjoint, h.settled⟩
  unfold pmmSanitiseEntries
  rw [(splitUsable_eq_self maxEntries hdone h.nonempty _ 0 hfuel).resolve_right (by omega)]
  show Except.ok (mergeEntries (sortEntries _ (dropEmpty keepFirstPage m.length m 0))) = _
  rw [dropEmpty_eq_self fun e he => clipEntry_eq_self (h.nonempty e he) (h.inReach e he),
    sortEntries_eq_self _ _ h.sorted]
  congr 1
  cases m with
  | nil => rfl
  | cons e rest => exact mergeFrom_eq_self rest e h.unmerged

/-! ## The sanitiser as its callers see it -/

/-- **The sanitiser.**  On entries that do not overflow it ends: in the full-array panic, for
which the capacity must be under `weight m`, or in a map that is sorted, has no empty entry, no
overlap of a usable entry, the same non-usable types everywhere, and the usable addresses that
nothing else claimed. -/
theorem pmmSanitiseEntries_correct (maxEntries : Nat) (keepFirstPage alignEntries : Bool)
    (m : Memmap) (hm : NoneOverflows m) :
    (pmmSanitiseEntries maxEntries keepFirstPage m alignEntries).Ensures (maxEntries < weight m)
      fun m' =>
        SortedByBase m' ∧ (∀ e ∈ m', e.length ≠ 0) ∧ UsableDisjoint m' ∧
        (∀ a t, t ≠ memmapUsable → (Covers m' t a ↔ Covers m t a)) ∧
        (alignEntries = false → ∀ a, Covers m' memmapUsable a ↔
          Free m a ∧ (keepFirstPage = true ∨ 0x1000 ≤ a)) ∧
        (alignEntries = true → ∀ e ∈ m', e.type = memmapUsable →
          pageSize ∣ e.base ∧ pageSize ∣ e.base + e.length ∧
          ∀ a ∈ e.span, Free m a ∧ (keepFirstPage = true ∨ 0x1000 ≤ a)) ∧
        pmmSanitiseEntries maxEntries keepFirstPage m' alignEntries = .ok m' := by
  refine (pmmSanitiseEntries_ensures maxEntries keepFirstPage hm alignEntries).imp id
    fun m' ⟨hs, ht⟩ => ?_
  refine ⟨hs.sorted, fun e he => Nat.pos_iff_ne_zero.mp (hs.nonempty e he), hs.disjoint, ht.other,
    fun hal a => ⟨fun ha => ?_, fun ha => ht.free hal a ha.1 fun _ => ha.2⟩, fun hal e he hu => ?_,
    hs.eq_self maxEntries⟩
  · exact (ht.usable a ha).imp_right fun h => h rfl
  · obtain ⟨hb, hl⟩ := (hs.settled e he hu).2 hal
    refine ⟨hb, Nat.dvd_add hb hl, fun a ha => ?_⟩
    exact (ht.usable a ⟨e, he, hu, ha⟩).imp_right fun h => h rfl

/-- A reserved page inside usable memory that reaches down to the first page. -/
theorem pmmSanitiseEntries_correct_nested :
    pmmSanitiseEntries 512 false [⟨0, 0x5000, 1⟩, ⟨0x2000, 0x1000, 2⟩] false =
      .ok [⟨0x1000, 0x1000, 1⟩, ⟨0x2000, 0x1000, 2⟩, ⟨0x3000, 0x2000, 1⟩] ∧
    ∀ a, Covers [⟨0x1000, 0x1000, 1⟩, ⟨0x2000, 0x1000, 2⟩, ⟨0x3000, 0x2000, 1⟩] memmapUsable a ↔
      Free [⟨0, 0x5000, 1⟩, ⟨0x2000, 0x1000, 2⟩] a ∧ (false = true ∨ 0x1000 ≤ a) := by
  have hrun : pmmSanitiseEntries 512 false [⟨0, 0x5000, 1⟩, ⟨0x2000, 0x1000, 2⟩] false =
      .ok [⟨0x1000, 0x1000, 1⟩, ⟨0x2000, 0x1000, 2⟩, ⟨0x3000, 0x2000, 1⟩] := rfl
  have hm : NoneOverflows [⟨0, 0x5000, 1⟩, ⟨0x2000, 0x1000, 2⟩] := by
    unfold NoneOverflows
    decide
  have h := (pmmSanitiseEntries_correct 512 false false _ hm).of_ok hrun
  exact ⟨hrun, h.2.2.2.2.1 rfl⟩

end Limine.Pmm
