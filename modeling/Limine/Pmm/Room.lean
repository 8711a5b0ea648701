import Limine.Pmm.AllocRuns

/-!
# Carving with room in the array

On a sanitised map `memmap_alloc_range_in` panics only for want of room: the sanitiser after
`pmm_new_entry` finds nothing to cut, so the array grows by the new entry and by one for each
entry that is cut in two (`memmapAllocRangeIn_room`).
-/

namespace Limine.Pmm

open Limine.Lib MemmapEntry

/-- No two entries overlap. -/
def AllDisjoint (m : Memmap) : Prop := m.Pairwise fun e r => Disjoint e.span r.span

/-- A map the sanitiser only sorts and merges. -/
structure Tidy (m : Memmap) : Prop where
  wf : Wf m
  nonempty : ∀ e ∈ m, 0 < e.length

theorem Sanitised.tidy {keepFirstPage alignEntries : Bool} {m : Memmap}
    (h : Sanitised keepFirstPage alignEntries m) : Tidy m :=
  ⟨⟨h.noneOverflows, h.disjoint⟩, h.nonempty⟩

theorem AllDisjoint.perm {m m' : Memmap} (hm : AllDisjoint m) (h : m.Perm m') : AllDisjoint m' :=
  (h.pairwise_iff fun h => h.symm).mp hm

theorem countP_le_one {α : Type} {p : α → Bool} {l : List α}
    (h : l.Pairwise fun a b => ¬ (p a = true ∧ p b = true)) : l.countP p ≤ 1 := by
  induction l with
  | nil => exact Nat.zero_le _
  | cons a l ih =>
    obtain ⟨h₁, h₂⟩ := List.pairwise_cons.mp h
    rw [List.countP_cons]
    split
    · next ha =>
      have hzero : l.countP p = 0 := List.countP_eq_zero.mpr fun b hb hp => h₁ b hb ⟨ha, hp⟩
      omega
    · have := ih h₂
      omega

/-- Entries that do not overlap do not both reach past the range. -/
theorem splits_disjoint {m : Memmap} (hm : AllDisjoint m) {lo hi : Nat} (hlt : lo < hi) :
    splits lo hi m ≤ 1 := by
  refine countP_le_one (hm.imp fun {e r} h => ?_)
  rintro ⟨h₁, h₂⟩
  simp only [nested, decide_eq_true_iff] at h₁ h₂
  exact Set.disjoint_left.mp h (⟨by omega, by omega⟩ : lo ∈ e.span) ⟨by omega, by omega⟩

/-! ## What `pmm_new_entry` leaves of the entries -/

section Pieces

variable {base top : Nat} {e r x y : MemmapEntry} {m : Memmap}

theorem pieces_nonempty (he : 0 < e.length) (hno : e.NoOverflow) (hx : x ∈ pieces base top e) :
    0 < x.length := by
  unfold NoOverflow at hno
  unfold pieces cutEntry at hx
  rw [checkedAdd_eq_some hno] at hx
  dsimp only at hx
  by_cases h1 : base ≤ e.base ∧ e.base + e.length ≤ top
  · simp [if_pos h1] at hx
  by_cases h2 : base ≤ e.base ∧ top < e.base + e.length ∧ e.base < top
  · simp only [if_neg h1, if_pos h2, Option.toList, List.mem_singleton] at hx
    subst hx
    show 0 < e.length - (top - e.base)
    omega
  by_cases h3 : e.base < base ∧ base < e.base + e.length ∧ e.base + e.length ≤ top
  · simp only [if_neg h1, if_neg h2, if_pos h3, Option.toList, List.mem_singleton] at hx
    subst hx
    show 0 < e.length - (e.base + e.length - base)
    omega
  by_cases h4 : e.base < base ∧ top < e.base + e.length
  · simp only [if_neg h1, if_neg h2, if_neg h3, if_pos h4, Option.toList, List.mem_cons,
      List.not_mem_nil, or_false] at hx
    rcases hx with rfl | rfl
    · show 0 < e.length - (e.base + e.length - base)
      omega
    · show 0 < e.base + e.length - top
      omega
  · simp only [if_neg h1, if_neg h2, if_neg h3, if_neg h4, Option.toList, List.mem_singleton] at hx
    subst hx
    exact he

theorem length_pieces (base top : Nat) (hno : e.NoOverflow) :
    (pieces base top e).length ≤ 1 + if nested base top e then 1 else 0 := by
  unfold pieces
  cases hc : cutEntry base top e with
  | none => simp
  | some p =>
    obtain ⟨e', x⟩ := p
    cases x with
    | none =>
      simp only [Option.toList, List.length_singleton]
      omega
    | some x =>
      have := nested_of_extra hno hc
      simp only [Option.toList, List.length_cons, List.length_nil]
      omega

theorem length_flatMap_pieces (base top : Nat) (hm : NoneOverflows m) :
    (m.flatMap (pieces base top)).length ≤ m.length + splits base top m := by
  induction m with
  | nil => simp
  | cons e m ih =>
    have h := length_pieces base top (hm e List.mem_cons_self)
    have ih := ih fun x hx => hm x (List.mem_cons_of_mem e hx)
    rw [List.flatMap_cons, List.length_append, List.length_cons, splits_cons]
    omega

/-- The two parts of an entry that is cut lie on either side of the range. -/
theorem pieces_pairwise (hno : e.NoOverflow) (hbt : base ≤ top) :
    (pieces base top e).Pairwise fun x y => Disjoint x.span y.span := by
  unfold NoOverflow at hno
  unfold pieces cutEntry
  rw [checkedAdd_eq_some hno]
  dsimp only
  split
  · exact List.Pairwise.nil
  · next e' z h =>
    cases z with
    | none => exact List.pairwise_singleton _ _
    | some z =>
      split at h
      · cases h
      split at h
      · cases h
      split at h
      · cases h
      split at h
      · next hnest =>
        simp only [Option.some.injEq, Prod.mk.injEq] at h
        obtain ⟨rfl, rfl⟩ := h
        refine List.pairwise_pair.mpr (span_disjoint_iff.mpr ?_)
        dsimp only
        omega
      · cases h

/-- What the entries keep lies outside the range. -/
theorem pieces_outside (hm : NoneOverflows m) (hbt : base ≤ top)
    (hx : x ∈ m.flatMap (pieces base top)) {a : Nat} (ha : a ∈ x.span) : ¬ (base ≤ a ∧ a < top) := by
  obtain ⟨e, he, hx⟩ := List.mem_flatMap.mp hx
  exact ((covers_pieces (hm e he) hbt a).mp ⟨x, hx, ha⟩).2

theorem pieces_flatMap_pairwise {R : MemmapEntry → MemmapEntry → Prop} (hm : NoneOverflows m)
    (hbt : base ≤ top) (hR : m.Pairwise R)
    (hin : ∀ x y : MemmapEntry, Disjoint x.span y.span → R x y)
    (hpiece : ∀ {x e y r : MemmapEntry}, PieceOf x e → PieceOf y r → R e r → R x y) :
    (m.flatMap (pieces base top)).Pairwise R := by
  rw [List.flatMap_def, List.pairwise_flatten]
  constructor
  · intro l hl
    obtain ⟨e, he, rfl⟩ := List.mem_map.mp hl
    exact (pieces_pairwise (hm e he) hbt).imp fun h => hin _ _ h
  · rw [List.pairwise_map]
    refine hR.imp_of_mem fun {e r} he hr h x hx y hy => ?_
    exact hpiece (mem_pieces (hm e he) hbt hx) (mem_pieces (hm r hr) hbt hy) h

end Pieces

/-- The entries `pmm_new_entry` leaves, up to their order. -/
def carved (m : Memmap) (base length type : Nat) : Memmap :=
  m.flatMap (pieces base (base + length)) ++ [⟨base, length, type⟩]

theorem mem_carved {m : Memmap} {base length type : Nat} {x : MemmapEntry} :
    x ∈ carved m base length type ↔
      (∃ e ∈ m, x ∈ pieces base (base + length) e) ∨ x = ⟨base, length, type⟩ := by
  unfold carved
  rw [List.mem_append, List.mem_flatMap, List.mem_singleton]

section Carved

variable {m : Memmap} {base length type : Nat}

theorem carved_pairwise {R : MemmapEntry → MemmapEntry → Prop} (hm : NoneOverflows m)
    (hR : m.Pairwise R) (hin : ∀ x y : MemmapEntry, Disjoint x.span y.span → R x y)
    (hpiece : ∀ {x e y r : MemmapEntry}, PieceOf x e → PieceOf y r → R e r → R x y) :
    (carved m base length type).Pairwise R := by
  have hbt : base ≤ base + length := Nat.le_add_right _ _
  refine List.pairwise_append.mpr ⟨pieces_flatMap_pairwise hm hbt hR hin hpiece,
    List.pairwise_singleton _ _, ?_⟩
  intro x hx y hy
  obtain rfl := List.mem_singleton.mp hy
  refine hin _ _ (Set.disjoint_left.mpr fun a ha hy => ?_)
  exact pieces_outside hm hbt hx ha hy

theorem carved_disjoint (hm : NoneOverflows m) (hd : AllDisjoint m) :
    AllDisjoint (carved m base length type) :=
  carved_pairwise hm hd (fun _ _ h => h) fun hx hy h => h.mono hx.span_subset hy.span_subset

theorem Tidy.carved (hm : Tidy m) (hl : 0 < length) (hov : base + length < 2 ^ 64) :
    Tidy (carved m base length type) := by
  have hbt : base ≤ base + length := Nat.le_add_right _ _
  refine ⟨⟨?_, ?_⟩, ?_⟩
  · intro x hx
    rcases mem_carved.mp hx with ⟨e, he, hx⟩ | rfl
    · have hno := hm.wf.noneOverflows e he
      exact (mem_pieces hno hbt hx).noOverflow hno
    · exact hov
  · exact carved_pairwise hm.wf.noneOverflows hm.wf.disjoint (fun _ _ h _ => h)
      fun hx hy h => h.piece hx hy
  · intro x hx
    rcases mem_carved.mp hx with ⟨e, he, hx⟩ | rfl
    · exact pieces_nonempty (hm.nonempty e he) (hm.wf.noneOverflows e he) hx
    · exact hl

theorem length_carved (hm : NoneOverflows m) :
    (carved m base length type).length ≤ m.length + splits base (base + length) m + 1 := by
  have := length_flatMap_pieces base (base + length) hm
  unfold carved
  rw [List.length_append, List.length_singleton]
  omega

theorem pmmNewEntry_room (maxEntries : Nat) (hm : NoneOverflows m) (hov : base + length < 2 ^ 64) :
    (pmmNewEntry maxEntries m base length type).Ensures
      (maxEntries ≤ m.length + splits base (base + length) m)
      fun m' => m'.Perm (carved m base length type) := by
  have hbt : base ≤ base + length := Nat.le_add_right _ _
  unfold pmmNewEntry
  rw [checkedAdd_eq_some hov]
  refine Exec.Ensures.bind ((newEntryLoop_room maxEntries base _ hbt _ m 0 hm
    (cutTurns_lt base length m)).imp (fun h => ?_) fun _ h => h) fun m₁ hp => ?_
  · rw [List.drop_zero] at h
    omega
  rw [List.take_zero, List.drop_zero, List.nil_append] at hp
  split
  · next hfull =>
    have := length_flatMap_pieces base (base + length) hm
    have := hp.length_eq
    show maxEntries ≤ _
    omega
  · exact hp.append_right _

end Carved

/-! ## The sanitiser on a tidy map -/

/-- What the sanitiser leaves of a tidy map. -/
structure Tidied (keepFirstPage : Bool) (m m' : Memmap) : Prop where
  sanitised : Sanitised keepFirstPage false m'
  types : ∀ a, typesAt m' a = settled keepFirstPage (typesAt m) a
  length_le : m'.length ≤ m.length
  /-- entries that are not merged stay as they are -/
  stays : ∀ e, mergeable e.type = false → (e ∈ m' ↔ e ∈ m)
  disjoint : AllDisjoint m → AllDisjoint m'

theorem mem_mergeFrom {x : MemmapEntry} (hx : mergeable x.type = false) :
    ∀ (rest : Memmap) (e : MemmapEntry), x ∈ mergeFrom e rest ↔ x ∈ e :: rest := by
  intro rest
  induction rest with
  | nil => intro e; rfl
  | cons r rest ih =>
    intro e
    rw [mergeFrom_cons]
    cases hm : mergeNext e r with
    | some e' =>
      obtain ⟨⟨hmerge, htype, -⟩, rfl⟩ := mergeNext_some hm
      have hne : ∀ y : MemmapEntry, y.type = e.type → x ≠ y := by
        rintro y hy rfl
        rw [hy, hmerge] at hx
        cases hx
      dsimp only
      rw [ih, List.mem_cons, List.mem_cons, List.mem_cons]
      constructor
      · rintro (h | h)
        · exact absurd h (hne _ rfl)
        · exact Or.inr (Or.inr h)
      · rintro (h | h | h)
        · exact absurd h (hne _ rfl)
        · exact absurd h (hne _ htype)
        · exact Or.inr h
    | none =>
      simp only [List.mem_cons, ih]

theorem length_mergeFrom : ∀ (rest : Memmap) (e : MemmapEntry),
    (mergeFrom e rest).length ≤ (e :: rest).length := by
  intro rest
  induction rest with
  | nil => intro e; exact Nat.le_refl _
  | cons r rest ih =>
    intro e
    rw [mergeFrom_cons]
    cases mergeNext e r with
    | some e' =>
      have := ih e'
      simp only [List.length_cons] at this ⊢
      omega
    | none =>
      have := ih r
      simp only [List.length_cons] at this ⊢
      omega

theorem clipEntry_of_other {keepFirstPage : Bool} {e : MemmapEntry} (hl : 0 < e.length)
    (hu : e.type ≠ memmapUsable) : clipEntry keepFirstPage e = some e :=
  clipEntry_eq_self hl fun h => absurd h hu

theorem Tidy.sanitise (maxEntries : Nat) (keepFirstPage : Bool) {m : Memmap} (hm : Tidy m) :
    ∃ m', pmmSanitiseEntries maxEntries keepFirstPage m false = .ok m' ∧
      Tidied keepFirstPage m m' := by
  have hdone : SplitDone false m := ⟨hm.wf.noneOverflows, hm.wf.disjoint, fun e he _ =>
    ⟨hm.nonempty e he, fun h => absurd h Bool.false_ne_true⟩⟩
  have hsplit : splitUsable maxEntries false ((weight m + 2) * (weight m + 2)) m 0 = .ok m := by
    have hw : m.length ≤ weight m := Nat.le_add_right _ _
    have := Nat.mul_le_mul (show 1 ≤ weight m + 2 by omega) (Nat.le_refl (weight m + 2))
    exact (splitUsable_eq_self maxEntries hdone hm.nonempty _ 0 (by omega)).resolve_right (by omega)
  obtain ⟨hsan, hcov⟩ := @laterPasses_spec keepFirstPage false m hdone
  have hp₂ : (dropEmpty keepFirstPage m.length m 0).Perm (m.filterMap (clipEntry keepFirstPage)) := by
    simpa using dropEmpty_perm keepFirstPage m.length m 0 (by omega)
  refine ⟨mergeEntries (sortEntries (dropEmpty keepFirstPage m.length m 0).length
    (dropEmpty keepFirstPage m.length m 0)), ?_, hsan, ?_, ?_, ?_, ?_⟩
  · unfold pmmSanitiseEntries
    rw [hsplit]
    rfl
  · intro a
    ext t
    exact hcov a t
  all_goals
    generalize dropEmpty keepFirstPage m.length m 0 = m₂ at hp₂
    have hp := (sortEntries_spec m₂.length m₂ (Nat.le_refl _)).1.trans hp₂
    generalize sortEntries m₂.length m₂ = m₃ at hp
  · have hlen : m₃.length ≤ m.length := by
      rw [hp.length_eq]
      exact List.length_filterMap_le _ _
    cases m₃ with
    | nil => exact Nat.zero_le _
    | cons e rest => exact Nat.le_trans (length_mergeFrom rest e) hlen
  · intro e he
    have hu : e.type ≠ memmapUsable := by
      intro h
      rw [h] at he
      cases he
    have hmem : e ∈ mergeEntries m₃ ↔ e ∈ m₃ := by
      cases m₃ with
      | nil => exact Iff.rfl
      | cons x rest => exact mem_mergeFrom he rest x
    rw [hmem, hp.mem_iff, List.mem_filterMap]
    constructor
    · rintro ⟨x, hx, hc⟩
      have hxu : x.type ≠ memmapUsable := by
        rw [← (clipEntry_some (hm.wf.noneOverflows x hx) hc).1.1]
        exact hu
      rw [clipEntry_of_other (hm.nonempty x hx) hxu] at hc
      cases hc
      exact hx
    · intro h
      exact ⟨e, h, clipEntry_of_other (hm.nonempty e h) hu⟩
  · intro hd
    have hd₃ : AllDisjoint m₃ := by
      refine AllDisjoint.perm ?_ hp.symm
      refine List.pairwise_filterMap.mpr (hd.imp_of_mem fun {e r} he hr h x hx y hy => ?_)
      have hxe := (clipEntry_some (hm.wf.noneOverflows e he) hx).1
      have hyr := (clipEntry_some (hm.wf.noneOverflows r hr) hy).1
      exact h.mono hxe.span_subset hyr.span_subset
    have hmerge : ∀ e r x : MemmapEntry, Touching e r → Disjoint e.span x.span →
        Disjoint r.span x.span →
        Disjoint (MemmapEntry.span { e with length := e.length + r.length }) x.span := by
      intro e r x ht h h'
      have := span_disjoint_iff.mp h
      have := span_disjoint_iff.mp h'
      have := ht.2.2
      exact span_disjoint_iff.mpr (by dsimp only; omega)
    cases m₃ with
    | nil => exact List.Pairwise.nil
    | cons e rest =>
      exact mergeFrom_pairwise hmerge (fun e r x ht h h' => (hmerge e r x ht h.symm h'.symm).symm)
        rest e hd₃

/-! ## `memmap_alloc_range_in` -/

/-- What a carve of `[lo, lo + length)` leaves of a sanitised map. -/
structure Carves (keepFirstPage : Bool) (lo length type : Nat) (m m' : Memmap) : Prop where
  sanitised : Sanitised keepFirstPage false m'
  types : ∀ a, typesAt m' a = settled keepFirstPage (retype lo (lo + length) type (typesAt m)) a
  length_le : m'.length ≤ m.length + splits lo (lo + length) m + 1
  stays : ∀ e, mergeable e.type = false → (e ∈ m' ↔ e ∈ carved m lo length type)
  disjoint : AllDisjoint m → AllDisjoint m'

theorem typesAt_carved {m : Memmap} {base length type : Nat} (hm : NoneOverflows m) (a : Nat) :
    typesAt (carved m base length type) a = retype base (base + length) type (typesAt m) a := by
  have hbt : base ≤ base + length := Nat.le_add_right _ _
  ext t
  unfold retype
  constructor
  · rintro ⟨x, hx, rfl, ha⟩
    rcases mem_carved.mp hx with ⟨e, he, hxe⟩ | rfl
    · obtain ⟨h1, h2⟩ := (covers_pieces (hm e he) hbt a).mp ⟨x, hxe, ha⟩
      rw [if_neg h2]
      exact ⟨e, he, (mem_pieces (hm e he) hbt hxe).1.symm, h1⟩
    · rw [if_pos (show base ≤ a ∧ a < base + length from ha)]
      rfl
  · split
    · next hin =>
      intro h
      obtain rfl := Set.mem_singleton_iff.mp h
      exact ⟨_, mem_carved.mpr (Or.inr rfl), rfl, hin⟩
    · next hout =>
      rintro ⟨e, he, rfl, ha⟩
      obtain ⟨x, hx, hax⟩ := (covers_pieces (hm e he) hbt a).mpr ⟨ha, hout⟩
      exact ⟨x, mem_carved.mpr (Or.inl ⟨e, he, hx⟩), (mem_pieces (hm e he) hbt hx).1, hax⟩

theorem memmapAllocRangeIn_room (cfg : Config) {m : Memmap}
    (hm : Sanitised cfg.keepFirstPage false m) {base length : Nat} (type : Nat) {overlayType : Nat}
    {doPanic newEntry : Bool} (hl : 0 < length) (hov : base + length < 2 ^ 64)
    (hsome : newEntry = true ∨ ∃ e ∈ m, holdsRange overlayType base (base + length) e = true) :
    (memmapAllocRangeIn cfg m base length type overlayType doPanic false newEntry).Ensures
      (cfg.maxEntries ≤ m.length + splits base (base + length) m)
      fun r => r.2 = true ∧ Carves cfg.keepFirstPage base length type m r.1 := by
  have success : (pmmNewEntry cfg.maxEntries m base length type >>= fun m' =>
      pmmSanitiseEntries cfg.maxEntries cfg.keepFirstPage m' false >>= fun m' =>
        (pure (m', true) : Exec (Memmap × Bool))).Ensures
      (cfg.maxEntries ≤ m.length + splits base (base + length) m)
      fun r => r.2 = true ∧ Carves cfg.keepFirstPage base length type m r.1 := by
    refine (pmmNewEntry_room cfg.maxEntries hm.noneOverflows hov).bind fun m₁ hp => ?_
    have htidy : Tidy m₁ := by
      have h : Tidy (carved m base length type) := hm.tidy.carved hl hov
      exact ⟨⟨h.wf.noneOverflows.perm hp.symm, h.wf.disjoint.perm hp.symm⟩,
        fun e he => h.nonempty e (hp.mem_iff.mp he)⟩
    obtain ⟨m₂, hrun, ht⟩ := htidy.sanitise cfg.maxEntries cfg.keepFirstPage
    rw [hrun]
    refine ⟨rfl, ht.sanitised, ?_, ?_, ?_, ?_⟩
    · intro a
      rw [ht.types, show typesAt m₁ = retype base (base + length) type (typesAt m) from
        funext fun a => (typesAt_perm hp a).trans (typesAt_carved hm.noneOverflows a)]
    · have := @length_carved m base length type hm.noneOverflows
      rw [← hp.length_eq] at this
      exact Nat.le_trans ht.length_le this
    · intro e he
      rw [ht.stays e he, hp.mem_iff]
    · intro hd
      exact ht.disjoint ((carved_disjoint hm.noneOverflows hd).perm hp.symm)
  unfold memmapAllocRangeIn
  dsimp only
  rw [if_neg (by omega), if_neg (by simp), checkedAdd_eq_some hov]
  dsimp only
  by_cases hany : m.any (holdsRange overlayType base (base + length)) = true
  · rw [if_pos hany, if_neg Bool.false_ne_true]
    exact success
  · have hnew : newEntry = true := hsome.resolve_right fun h => hany (List.any_eq_true.mpr h)
    subst hnew
    rw [if_neg hany, if_neg (by simp), if_neg (by simp)]
    exact success

/-! ## Ranges of one type -/

/-- Usable addresses without a gap lie in one entry: the sanitiser has merged what touches. -/
theorem Sanitised.usable_entry {keepFirstPage alignEntries : Bool} {m : Memmap}
    (hm : Sanitised keepFirstPage alignEntries m) {lo hi : Nat} (hlt : lo < hi)
    (hu : ∀ a, lo ≤ a → a < hi → Covers m memmapUsable a) :
    ∃ e ∈ m, e.type = memmapUsable ∧ e.base ≤ lo ∧ hi ≤ e.base + e.length := by
  obtain ⟨e, he, hte, hlo⟩ := hu lo (Nat.le_refl _) hlt
  refine ⟨e, he, hte, hlo.1, ?_⟩
  by_contra hend
  obtain ⟨r, hr, htr, htop⟩ := hu (e.base + e.length) (by have := hlo.2; omega) (by omega)
  have hlo₁ := hlo.1
  have hlo₂ := hlo.2
  have htop₁ := htop.1
  have htop₂ := htop.2
  obtain ⟨i, hi, rfl⟩ := List.getElem_of_mem he
  obtain ⟨j, hj, rfl⟩ := List.getElem_of_mem hr
  -- entries one of which is usable share no address
  have hap : ∀ k l (hk : k < m.length) (hl : l < m.length), k ≠ l →
      m[k].type = memmapUsable → Disjoint m[k].span m[l].span := by
    intro k l hk hl hkl ht
    rcases Nat.lt_or_gt_of_ne hkl with h | h
    · exact List.pairwise_iff_getElem.mp hm.disjoint k l hk hl h (Or.inl ht)
    · exact (List.pairwise_iff_getElem.mp hm.disjoint l k hl hk h (Or.inr ht)).symm
  have hsort : ∀ k l (hk : k < m.length) (hl : l < m.length), k < l → m[k].base ≤ m[l].base :=
    fun k l hk hl h => List.pairwise_iff_getElem.mp hm.sorted k l hk hl h
  have hpos : ∀ k (hk : k < m.length), 0 < m[k].length :=
    fun k hk => hm.nonempty _ (List.getElem_mem hk)
  have hij : i ≠ j := by
    rintro rfl
    omega
  have hdis := span_disjoint_iff.mp (hap i j hi hj hij hte)
  have hposj := hpos j hj
  have hbase : m[j].base = m[i].base + m[i].length := by omega
  have hltij : i < j := by
    by_contra h
    have := hsort j i hj hi (by omega)
    omega
  rcases Nat.lt_or_ge (i + 1) j with hmid | hmid
  · -- what lies between the two in the sorted map overlaps one of them
    have hk : i + 1 < m.length := by omega
    have h₁ := hsort i (i + 1) hi hk (by omega)
    have h₂ := hsort (i + 1) j hk hj hmid
    have h₃ := span_disjoint_iff.mp (hap i (i + 1) hi hk (by omega) hte)
    have h₄ := span_disjoint_iff.mp (hap j (i + 1) hj hk (by omega) htr)
    have := hpos (i + 1) hk
    have := hpos i hi
    omega
  · obtain rfl : j = i + 1 := by omega
    refine List.isChain_iff_getElem.mp hm.unmerged i hj ⟨?_, htr.trans hte.symm, hbase⟩
    rw [hte]
    rfl

/-- A sanitised map has no usable address out of reach. -/
theorem Sanitised.settled_types {keepFirstPage alignEntries : Bool} {m : Memmap}
    (hm : Sanitised keepFirstPage alignEntries m) (a : Nat) :
    Pmm.settled keepFirstPage (typesAt m) a = typesAt m a := by
  ext t
  constructor
  · exact fun h => h.1
  · rintro ⟨e, he, rfl, ha⟩
    refine ⟨⟨e, he, rfl, ha⟩, fun ht => ?_⟩
    exact (hm.inReach e he ht).imp_right fun h => Nat.le_trans h ha.1

section Types

variable {keepFirstPage : Bool} {lo length type : Nat} {m m' : Memmap}

theorem Carves.types_outside (h : Carves keepFirstPage lo length type m m')
    (hm : Sanitised keepFirstPage false m) {a : Nat} (ha : ¬ (lo ≤ a ∧ a < lo + length)) :
    typesAt m' a = typesAt m a := by
  rw [h.types, ← hm.settled_types]
  unfold settled retype
  rw [if_neg ha]

theorem Carves.types_inside (h : Carves keepFirstPage lo length type m m') {a : Nat}
    (ha : lo ≤ a ∧ a < lo + length) :
    typesAt m' a = {t | t = type ∧ InReach keepFirstPage type a} := by
  rw [h.types]
  unfold settled retype
  rw [if_pos ha]
  ext t
  constructor
  · rintro ⟨h, hr⟩
    obtain rfl := Set.mem_singleton_iff.mp h
    exact ⟨rfl, hr⟩
  · rintro ⟨rfl, hr⟩
    exact ⟨rfl, hr⟩

/-- An entry that holds a range beside the carved one leaves a part that holds it still. -/
theorem exists_piece {e : MemmapEntry} (he : e.NoOverflow) {lo top lo' hi' : Nat} (hlt : lo' < hi')
    (h₁ : e.base ≤ lo') (h₂ : hi' ≤ e.base + e.length) (hap : hi' ≤ lo ∨ top ≤ lo') (hbt : lo ≤ top) :
    ∃ x ∈ pieces lo top e, x.type = e.type ∧ x.base ≤ lo' ∧ hi' ≤ x.base + x.length := by
  unfold NoOverflow at he
  unfold pieces cutEntry
  rw [checkedAdd_eq_some he]
  dsimp only
  rw [if_neg (by omega)]
  by_cases hbot : lo ≤ e.base ∧ top < e.base + e.length ∧ e.base < top
  · rw [if_pos hbot]
    exact ⟨_, List.mem_cons_self, rfl, by dsimp only; omega, by dsimp only; omega⟩
  rw [if_neg hbot]
  by_cases htop : e.base < lo ∧ lo < e.base + e.length ∧ e.base + e.length ≤ top
  · rw [if_pos htop]
    exact ⟨_, List.mem_cons_self, rfl, h₁, by dsimp only; omega⟩
  rw [if_neg htop]
  by_cases hnest : e.base < lo ∧ top < e.base + e.length
  · rw [if_pos hnest]
    rcases hap with h | h
    · exact ⟨_, List.mem_cons_self, rfl, h₁, by dsimp only; omega⟩
    · exact ⟨_, List.mem_cons_of_mem _ List.mem_cons_self, rfl, h, by dsimp only; omega⟩
  · rw [if_neg hnest]
    exact ⟨e, List.mem_cons_self, rfl, h₁, h₂⟩

end Types

end Limine.Pmm
