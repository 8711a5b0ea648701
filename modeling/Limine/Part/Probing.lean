import Limine.Part.Mbr
import Mathlib.Order.Nat

/-!
# Probing in any order

What the memos hold is what a search from nothing would find again: a header or its absence for a
volume, and for an extended partition a place in the chain of its EBRs together with the number of
logical partitions before it.  So no answer depends on what was asked before.
-/

namespace Limine.Part
open Limine.Loader (checkedMul)

variable {V : Type} {m : Media V}

/-! ## Along the chain -/

section
variable {dev : V} {g : Geometry} {walk : EbrWalk}

/-- The count only goes up, by one for each slot at most. -/
theorem scanEntries_next_bounds {p : Nat} (slots : List Nat) : ∀ {accepted : Nat} {link : Option (Nat × Nat)}
    {accepted' : Nat} {link' : Option (Nat × Nat)},
    scanEntries m dev g walk p slots accepted link = .next accepted' link' →
      accepted ≤ accepted' ∧ accepted' ≤ accepted + slots.length := by
  induction slots with
  | nil =>
    intro accepted link accepted' link' h
    cases h
    exact ⟨Nat.le_refl _, Nat.le_refl _⟩
  | cons i slots ih =>
    intro accepted link accepted' link' h
    have hrec : ∀ {a : Nat} {l : Option (Nat × Nat)}, a ≤ accepted + 1 → accepted ≤ a →
        scanEntries m dev g walk p slots a l = .next accepted' link' →
          accepted ≤ accepted' ∧ accepted' ≤ accepted + (i :: slots).length := by
      intro a l hle hge h
      have hbounds := ih h
      rw [List.length_cons]
      omega
    rw [scanEntries.eq_def] at h
    dsimp only at h
    split at h
    · cases h
    · split at h
      · split at h
        · exact hrec (Nat.le_succ _) (Nat.le_refl _) h
        · exact hrec (Nat.le_succ _) (Nat.le_refl _) h
      · split at h
        · exact hrec (Nat.le_succ _) (Nat.le_refl _) h
        · split at h
          · exact hrec (Nat.le_succ _) (Nat.le_refl _) h
          · split at h
            · split at h
              · cases h
              · cases h
            · exact hrec (Nat.le_refl _) (Nat.le_succ _) h

/-- A scan that does not stop goes the same way for every partition that comes later. -/
theorem scanEntries_next {p q : Nat} (slots : List Nat) : ∀ {accepted : Nat} {link : Option (Nat × Nat)}
    {accepted' : Nat} {link' : Option (Nat × Nat)},
    scanEntries m dev g walk p slots accepted link = .next accepted' link' → accepted' ≤ q →
      scanEntries m dev g walk q slots accepted link = .next accepted' link' := by
  induction slots with
  | nil =>
    intro accepted link accepted' link' h _
    exact h
  | cons i slots ih =>
    intro accepted link accepted' link' h hq
    rw [scanEntries.eq_def] at h ⊢
    dsimp only at h ⊢
    split at h
    · cases h
    · next entry hread =>
      split at h
      · next hext =>
        rw [if_pos hext]
        split at h
        · next hlink =>
          rw [if_pos hlink]
          exact ih h hq
        · next hlink =>
          rw [if_neg hlink]
          exact ih h hq
      · next hext =>
        rw [if_neg hext]
        split at h
        · next hempty =>
          rw [if_pos hempty]
          exact ih h hq
        · next hempty =>
          rw [if_neg hempty]
          split at h
          · next hskip =>
            rw [if_pos hskip]
            exact ih h hq
          · next hskip =>
            rw [if_neg hskip]
            split at h
            · split at h
              · cases h
              · cases h
            · have hle := (scanEntries_next_bounds slots h).1
              rw [if_neg (by omega)]
              exact ih h hq

/-- The EBR that follows, with the logical partitions up to it. -/
def nextEbr (m : Media V) (dev : V) (g : Geometry) (walk : EbrWalk) : Option EbrWalk :=
  if !ebrSigned m dev g walk then none
  else
    -- No slot of this EBR is that far on.
    match scanEntries m dev g walk (walk.index + 5) [0, 1, 2, 3] walk.index none with
    | .next accepted (some link) =>
      if linkOk g walk link then some { index := accepted, sector := link.1, size := link.2 } else none
    | _ => none

/-- The places of a walk over the whole chain. -/
def ebrAt (m : Media V) (dev : V) (g : Geometry) : Nat → Option EbrWalk
  | 0 => some (ebrHead g)
  | k + 1 => (ebrAt m dev g k).bind (nextEbr m dev g)

/-- There are at most 256 EBRs in the chain. -/
def ChainFits (m : Media V) (dev : V) (g : Geometry) : Prop :=
  ∀ walk, ebrAt m dev g maxLogicalPartitions = some walk → ebrSigned m dev g walk = false

def OnChain (m : Media V) (dev : V) (g : Geometry) (walk : EbrWalk) : Prop := ∃ k, ebrAt m dev g k = some walk

theorem nextEbr_of_scan {p accepted : Nat} {link : Nat × Nat} (hsigned : ebrSigned m dev g walk = true)
    (hscan : scanEntries m dev g walk p [0, 1, 2, 3] walk.index none = .next accepted (some link))
    (hlink : linkOk g walk link = true) :
    nextEbr m dev g walk = some { index := accepted, sector := link.1, size := link.2 } := by
  have hle := (scanEntries_next_bounds _ hscan).2
  unfold nextEbr
  rw [hsigned, scanEntries_next (q := walk.index + 5) _ hscan (Nat.le_succ_of_le hle)]
  simp [hlink]

theorem scan_of_nextEbr {walk' : EbrWalk} (h : nextEbr m dev g walk = some walk') :
    ebrSigned m dev g walk = true ∧ walk.index ≤ walk'.index ∧ linkOk g walk (walk'.sector, walk'.size) = true ∧
      ∀ p, walk'.index ≤ p → scanEntries m dev g walk p [0, 1, 2, 3] walk.index none =
        .next walk'.index (some (walk'.sector, walk'.size)) := by
  unfold nextEbr at h
  split at h
  · cases h
  · next hsigned =>
    split at h
    · next accepted link hscan =>
      split at h
      · next hlink =>
        cases h
        exact ⟨by simpa using hsigned, (scanEntries_next_bounds _ hscan).1, hlink,
          fun p hp => scanEntries_next _ hscan hp⟩
      · cases h
    · cases h

variable (m dev g) in
/-- An EBR ends the walk whatever is left of it, or the walk goes on to the next. -/
theorem walkEbrs_cases (p : Nat) (walk : EbrWalk) :
    (∃ r, ∀ links memo, walkEbrs m dev g p (links + 1) walk memo = (r, walk)) ∨
      ∃ walk', nextEbr m dev g walk = some walk' ∧
        ∀ links memo, walkEbrs m dev g p (links + 1) walk memo = walkEbrs m dev g p links walk' walk := by
  cases hsigned : ebrSigned m dev g walk with
  | false => exact .inl ⟨.endOfTable, fun links memo => by rw [walkEbrs, hsigned]; rfl⟩
  | true =>
    cases hscan : scanEntries m dev g walk p [0, 1, 2, 3] walk.index none with
    | stop r => exact .inl ⟨r, fun links memo => by rw [walkEbrs, hsigned, hscan]; rfl⟩
    | next accepted link =>
      cases link with
      | none => exact .inl ⟨.endOfTable, fun links memo => by rw [walkEbrs, hsigned, hscan]; rfl⟩
      | some link =>
        cases hlink : linkOk g walk link with
        | false => exact .inl ⟨.endOfTable, fun links memo => by rw [walkEbrs, hsigned, hscan]; simp [hlink]⟩
        | true =>
          refine .inr ⟨_, nextEbr_of_scan hsigned hscan hlink, fun links memo => ?_⟩
          rw [walkEbrs, hsigned, hscan]
          simp [hlink]

theorem walkEbrs_next {walk' : EbrWalk} {p : Nat} (h : nextEbr m dev g walk = some walk') (hp : walk'.index ≤ p)
    (links : Nat) (memo : EbrWalk) :
    walkEbrs m dev g p (links + 1) walk memo = walkEbrs m dev g p links walk' walk := by
  obtain ⟨hsigned, -, hlink, hscan⟩ := scan_of_nextEbr h
  rw [walkEbrs, hsigned, hscan p hp]
  simp [hlink]

theorem walkEbrs_unsigned (p : Nat) (hsigned : ebrSigned m dev g walk = false) (links : Nat) (memo : EbrWalk) :
    (walkEbrs m dev g p links walk memo).1 = .endOfTable := by
  cases links with
  | zero => rfl
  | succ links =>
    rw [walkEbrs, hsigned]
    rfl

/-- No place is further on than the chain is long. -/
theorem ebrAt_le (hfits : ChainFits m dev g) : ∀ {k : Nat}, ebrAt m dev g k = some walk →
    k ≤ maxLogicalPartitions := by
  have hnone : ∀ j, ebrAt m dev g (maxLogicalPartitions + 1 + j) = none := by
    intro j
    induction j with
    | zero =>
      rw [Nat.add_zero, ebrAt]
      cases hlast : ebrAt m dev g maxLogicalPartitions with
      | none => rfl
      | some walk =>
        rw [Option.bind_some, nextEbr, hfits walk hlast]
        rfl
    | succ j ih =>
      rw [← Nat.add_assoc, ebrAt, ih]
      rfl
  intro k hk
  by_contra hlong
  obtain ⟨j, rfl⟩ := Nat.exists_eq_add_of_lt (Nat.lt_of_not_le hlong)
  rw [Nat.add_right_comm, hnone] at hk
  cases hk

/-- Links that are not needed do not matter. -/
theorem walkEbrs_enough (hfits : ChainFits m dev g) (p : Nat) (d : Nat) : ∀ {k : Nat} {walk : EbrWalk},
    ebrAt m dev g k = some walk → k + d = maxLogicalPartitions → ∀ {links links' : Nat}, d ≤ links → d ≤ links' →
      ∀ memo memo', (walkEbrs m dev g p links walk memo).1 = (walkEbrs m dev g p links' walk memo').1 := by
  induction d with
  | zero =>
    intro k walk hk hd links links' _ _ memo memo'
    rw [Nat.add_zero] at hd
    rw [hd] at hk
    rw [walkEbrs_unsigned p (hfits walk hk), walkEbrs_unsigned p (hfits walk hk)]
  | succ d ih =>
    intro k walk hk hd links links' hlinks hlinks' memo memo'
    obtain ⟨n, rfl⟩ := Nat.exists_eq_add_of_le' (Nat.lt_of_lt_of_le (Nat.succ_pos d) hlinks)
    obtain ⟨n', rfl⟩ := Nat.exists_eq_add_of_le' (Nat.lt_of_lt_of_le (Nat.succ_pos d) hlinks')
    rcases walkEbrs_cases m dev g p walk with ⟨r, hr⟩ | ⟨walk', hnext, hr⟩
    · rw [hr, hr]
    · have hk' : ebrAt m dev g (k + 1) = some walk' := by
        rw [ebrAt, hk]
        exact hnext
      rw [hr, hr]
      exact ih hk' (by omega) (by omega) (by omega) walk walk

/-- From the head a walk comes to every place that no earlier partition lies behind. -/
theorem walkEbrs_head (hfits : ChainFits m dev g) {p : Nat} (k : Nat) : ∀ {walk : EbrWalk},
    ebrAt m dev g k = some walk → walk.index ≤ p → ∀ memo memo',
      (walkEbrs m dev g p maxLogicalPartitions (ebrHead g) memo).1 =
        (walkEbrs m dev g p (maxLogicalPartitions - k) walk memo').1 := by
  induction k with
  | zero =>
    intro walk hk _ memo memo'
    cases hk
    exact walkEbrs_enough hfits p maxLogicalPartitions rfl (Nat.zero_add _) (Nat.le_refl _) (Nat.le_refl _) memo memo'
  | succ k ih =>
    intro walk hk hp memo memo'
    have hle := ebrAt_le hfits hk
    obtain ⟨walk₀, hk₀, hnext⟩ := Option.bind_eq_some_iff.mp ((ebrAt.eq_2 m dev g k).symm.trans hk)
    have hindex := (scan_of_nextEbr hnext).2.1
    rw [ih hk₀ (Nat.le_trans hindex hp) memo memo]
    obtain ⟨n, hn⟩ := Nat.exists_eq_add_of_le hle
    have h1 : maxLogicalPartitions - k = n + 1 := by omega
    have h2 : maxLogicalPartitions - (k + 1) = n := by omega
    rw [h1, h2, walkEbrs_next hnext hp]
    exact walkEbrs_enough hfits p n hk (by omega) (Nat.le_refl n) (Nat.le_refl n) walk₀ memo'

theorem walkEbrs_onChain (p links : Nat) : ∀ {walk memo : EbrWalk}, OnChain m dev g walk → OnChain m dev g memo →
    OnChain m dev g (walkEbrs m dev g p links walk memo).2 := by
  induction links with
  | zero =>
    intro walk memo _ hmemo
    exact hmemo
  | succ links ih =>
    intro walk memo hwalk _
    rcases walkEbrs_cases m dev g p walk with ⟨r, hr⟩ | ⟨walk', hnext, hr⟩
    · rw [hr]
      exact hwalk
    · rw [hr]
      obtain ⟨k, hk⟩ := hwalk
      refine ih ⟨k + 1, ?_⟩ ⟨k, hk⟩
      rw [ebrAt, hk]
      exact hnext

end

/-! ## Inside the volume -/

/-- The partition is in a volume of known size. -/
def Answer.Inside (volume : Geometry) : Answer → Prop
  | .part (.found p) => volume.sectCount ≠ noSectCount → p.firstSect + p.sectCount ≤ volume.sectCount
  | _ => True

theorem partitionRangeValid_le {volume : Geometry} {firstSect sectCount : Nat}
    (h : partitionRangeValid volume firstSect sectCount = true) :
    volume.sectCount ≠ noSectCount → firstSect + sectCount ≤ volume.sectCount := by
  intro hknown
  unfold partitionRangeValid at h
  split at h
  · cases h
  · split at h
    · cases h
    · next endSect hadd =>
      obtain ⟨-, rfl⟩ := checkedAdd_eq_some_iff.mp hadd
      simp only [hknown, ne_eq, not_false_eq_true, decide_true, Bool.true_and, Bool.not_eq_true',
        decide_eq_false_iff_not] at h
      omega

theorem gptEntryPart_inside (volume : Geometry) (p lbSize : Nat) (entry : GptEntry) :
    (Answer.part (gptEntryPart volume p lbSize entry)).Inside volume := by
  unfold gptEntryPart
  split
  · trivial
  · split
    · trivial
    · split
      · trivial
      · split
        · trivial
        · split
          · trivial
          · split
            · trivial
            · next hvalid => exact partitionRangeValid_le (by simpa using hvalid)

theorem gptReadPart_inside (volume : V) (p : Nat) (located : Located) :
    (Answer.part (gptReadPart m volume p located)).Inside (m.geometry volume) := by
  unfold gptReadPart
  dsimp only
  split
  · trivial
  · split
    · trivial
    · split
      · trivial
      · split
        · trivial
        · split
          · trivial
          · exact gptEntryPart_inside _ _ _ _

theorem gptGetPart_inside [DecidableEq V] (memos : GptMemos V) (volume : V) (p : Nat) :
    (Answer.part (gptGetPart m memos volume p).1).Inside (m.geometry volume) := by
  unfold gptGetPart
  split
  · trivial
  · exact gptReadPart_inside volume p _

theorem scanEntries_inside {dev : V} {g : Geometry} {walk : EbrWalk} {p : Nat} (slots : List Nat) :
    ∀ {accepted : Nat} {link : Option (Nat × Nat)} {r : PartResult},
      scanEntries m dev g walk p slots accepted link = .stop r → (Answer.part r).Inside (m.geometry dev) := by
  induction slots with
  | nil =>
    intro accepted link r h
    cases h
  | cons i slots ih =>
    intro accepted link r h
    rw [scanEntries.eq_def] at h
    dsimp only at h
    split at h
    · cases h
      trivial
    · split at h
      · split at h
        · exact ih h
        · exact ih h
      · split at h
        · exact ih h
        · split at h
          · exact ih h
          · split at h
            · split at h
              · cases h
                trivial
              · next firstSect hcontained =>
                cases h
                unfold mbrLogicalEntryContained at hcontained
                obtain ⟨rel, -, hcontained⟩ := Option.bind_eq_some_iff.mp hcontained
                split at hcontained
                · cases hcontained
                obtain ⟨first, -, hcontained⟩ := Option.bind_eq_some_iff.mp hcontained
                split at hcontained
                · cases hcontained
                · next hvalid =>
                  cases hcontained
                  exact partitionRangeValid_le (by simpa using hvalid)
            · exact ih h

theorem walkEbrs_inside {dev : V} {g : Geometry} (p links : Nat) : ∀ walk memo : EbrWalk,
    (Answer.part (walkEbrs m dev g p links walk memo).1).Inside (m.geometry dev) := by
  induction links with
  | zero =>
    intro walk memo
    trivial
  | succ links ih =>
    intro walk memo
    rw [walkEbrs]
    split
    · trivial
    · split
      · next result hscan => exact scanEntries_inside _ hscan
      · trivial
      · split
        · exact ih _ _
        · trivial

theorem mbrGetPart_inside [DecidableEq V] (memos : Memos V) (volume : V) (p : Nat) :
    (Answer.part (mbrGetPart m memos volume p).1).Inside (m.geometry volume) := by
  unfold mbrGetPart
  split
  · trivial
  · split
    · dsimp only
      split
      · trivial
      · show (Answer.part (mbrGetLogicalPart m volume _ (p - 4)).1).Inside _
        unfold mbrGetLogicalPart
        split
        · trivial
        · exact walkEbrs_inside _ _ _ _
    · show (Answer.part (mbrGetPrimary m volume p)).Inside _
      unfold mbrGetPrimary
      split
      · trivial
      · split
        · trivial
        · split
          · trivial
          · split
            · trivial
            · next hvalid => exact partitionRangeValid_le (by simpa using hvalid)

/-! ## What the memos hold -/

/-- The search for a header with no memo. -/
def gptSearch (m : Media V) (volume : V) : Option Located :=
  if gptProtectiveMbr m volume then gptTryGuesses m volume lbGuesses (gptMaxArraySize * 2) else none

/-- The memos hold what a search would find. -/
structure MemosOk (m : Media V) (memos : Memos V) : Prop where
  found : ∀ memo, memos.gpt.found = some memo → gptSearch m memo.volume = some memo.located
  none : ∀ memo, memos.gpt.none = some memo → gptSearch m memo.volume = .none
  ebrPart : ∀ volume part, memos.ebrPart volume = some part →
    findExtended m volume = some part.geometry ∧ OnChain m volume part.geometry part.walk

theorem MemosOk.empty (m : Media V) : MemosOk m Memos.empty where
  found memo h := by cases h
  none memo h := by cases h
  ebrPart volume part h := by cases h

theorem mbrGetLogicalPart_eq {volume : V} {part : EbrPart} (hfits : ChainFits m volume part.geometry)
    (hchain : OnChain m volume part.geometry part.walk) (p : Nat) :
    (mbrGetLogicalPart m volume part p).1 =
      (mbrGetLogicalPart m volume { geometry := part.geometry, walk := ebrHead part.geometry } p).1 ∧
    (mbrGetLogicalPart m volume part p).2.geometry = part.geometry ∧
    OnChain m volume part.geometry (mbrGetLogicalPart m volume part p).2.walk := by
  have hhead : OnChain m volume part.geometry (ebrHead part.geometry) := ⟨0, rfl⟩
  unfold mbrGetLogicalPart
  split
  · exact ⟨rfl, rfl, hchain⟩
  · refine ⟨?_, rfl, ?_⟩
    · dsimp only
      rw [ite_self]
      obtain ⟨k, hk⟩ := hchain
      split
      · next hindex =>
        have hle := ebrAt_le hfits hk
        rw [walkEbrs_head hfits k hk hindex (ebrHead part.geometry) part.walk]
        exact walkEbrs_enough hfits p (maxLogicalPartitions - k) hk (by omega) (by omega) (Nat.le_refl _) _ _
      · exact walkEbrs_enough hfits p maxLogicalPartitions (rfl : ebrAt m volume part.geometry 0 = _) (Nat.zero_add _)
          (Nat.le_refl _) (Nat.le_refl _) _ _
    · dsimp only
      split
      · exact walkEbrs_onChain p _ hchain hchain
      · exact walkEbrs_onChain p _ hhead hchain

section
variable [DecidableEq V] {memos : Memos V}

theorem gptLocateHeader_eq (h : MemosOk m memos) (volume : V) :
    (gptLocateHeader m memos.gpt volume).1 = gptSearch m volume ∧
      MemosOk m { memos with gpt := (gptLocateHeader m memos.gpt volume).2 } := by
  unfold gptLocateHeader
  cases hhit : gptMemoHit m memos.gpt volume with
  | some located =>
    refine ⟨?_, h⟩
    unfold gptMemoHit at hhit
    split at hhit
    · cases hhit
    · next memo hmemo =>
      split at hhit
      · cases hhit
      · next hvolume =>
        split at hhit
        · cases hhit
        · split at hhit
          · cases hhit
            have hfound := h.found memo hmemo
            rw [not_not.mp hvolume] at hfound
            exact hfound.symm
          · cases hhit
  | none =>
    dsimp only
    split
    · next hnone =>
      refine ⟨?_, h⟩
      unfold gptMemoNoneHit at hnone
      split at hnone
      · cases hnone
      · next memo hmemo =>
        rw [Bool.and_eq_true, decide_eq_true_iff] at hnone
        rw [← hnone.1, h.none memo hmemo]
    · split
      · next hprotective =>
        refine ⟨?_, h⟩
        unfold gptSearch
        rw [if_neg (by simpa using hprotective)]
      · next hprotective =>
        have hsearch : gptSearch m volume = gptTryGuesses m volume lbGuesses (gptMaxArraySize * 2) := by
          unfold gptSearch
          rw [if_pos (by simpa using hprotective)]
        cases hfound : gptTryGuesses m volume lbGuesses (gptMaxArraySize * 2) with
        | some located =>
          refine ⟨hsearch.symm ▸ hfound.symm, ?_, h.none, h.ebrPart⟩
          rintro memo ⟨⟩
          exact hsearch.trans hfound
        | none =>
          refine ⟨hsearch.symm ▸ hfound.symm, h.found, ?_, h.ebrPart⟩
          rintro memo ⟨⟩
          exact hsearch.trans hfound

/-- Every extended partition has a chain that fits. -/
def AllChainsFit (m : Media V) : Prop :=
  ∀ volume g, findExtended m volume = some g → ChainFits m volume g

theorem MemosOk.setEbrPart {volume : V} {part part' : EbrPart} (h : MemosOk m memos)
    (hfound : findExtended m volume = some part.geometry) (hgeometry : part'.geometry = part.geometry)
    (hchain : OnChain m volume part.geometry part'.walk) : MemosOk m (memos.setEbrPart volume part') where
  found := h.found
  none := h.none
  ebrPart v p hp := by
    unfold Memos.setEbrPart at hp
    dsimp only at hp
    split at hp
    · next hv =>
      cases hp
      rw [hv, hgeometry]
      exact ⟨hfound, hchain⟩
    · exact h.ebrPart v p hp

/-- The table is the same one with any memos, and so is the partition. -/
theorem mbrGetPart_eq (hfits : AllChainsFit m) (h : MemosOk m memos) (volume : V) (p : Nat) :
    (mbrGetPart m memos volume p).1 = (mbrGetPart m Memos.empty volume p).1 ∧
      MemosOk m (mbrGetPart m memos volume p).2 := by
  unfold mbrGetPart
  split
  · exact ⟨rfl, h⟩
  · split
    · -- The memo is of the extended partition that would be found.
      have hempty : (Memos.empty : Memos V).ebrPart volume = none := rfl
      rw [hempty, Option.none_or]
      cases hmemo : memos.ebrPart volume with
      | none =>
        rw [Option.none_or]
        cases hfound : findExtended m volume with
        | none => exact ⟨rfl, h⟩
        | some g =>
          have hlogical := @mbrGetLogicalPart_eq V m volume { geometry := g, walk := ebrHead g }
            (hfits volume g hfound) ⟨0, rfl⟩ (p - 4)
          exact ⟨rfl, h.setEbrPart hfound hlogical.2.1 hlogical.2.2⟩
      | some part =>
        obtain ⟨hfound, hchain⟩ := h.ebrPart volume part hmemo
        have hlogical := mbrGetLogicalPart_eq (hfits volume part.geometry hfound) hchain (p - 4)
        rw [hfound]
        exact ⟨hlogical.1, h.setEbrPart hfound hlogical.2.1 hlogical.2.2⟩
    · exact ⟨rfl, h⟩

theorem gptGetPart_eq (h : MemosOk m memos) (volume : V) (p : Nat) :
    (gptGetPart m memos.gpt volume p).1 = (gptGetPart m (Memos.empty : Memos V).gpt volume p).1 ∧
      MemosOk m { memos with gpt := (gptGetPart m memos.gpt volume p).2 } := by
  have hlocate := gptLocateHeader_eq h volume
  have hfresh := (gptLocateHeader_eq (MemosOk.empty m) volume).1
  rw [← hlocate.1] at hfresh
  unfold gptGetPart
  revert hlocate hfresh
  generalize gptLocateHeader m memos.gpt volume = r
  generalize gptLocateHeader m (Memos.empty : Memos V).gpt volume = r'
  obtain ⟨located, gpt⟩ := r
  obtain ⟨located', gpt'⟩ := r'
  rintro hlocate rfl
  cases located' with
  | none => exact ⟨rfl, hlocate.2⟩
  | some located => exact ⟨rfl, hlocate.2⟩

theorem partGet_eq (hfits : AllChainsFit m) (h : MemosOk m memos) (volume : V) (p : Int) :
    (partGet m memos volume p).1 = (partGet m Memos.empty volume p).1 ∧ MemosOk m (partGet m memos volume p).2 := by
  have hgpt := gptGetPart_eq h volume p.toNat
  have hmbr : ∀ gpt, MemosOk m { memos with gpt := gpt } → ∀ gpt',
      MemosOk m { (Memos.empty : Memos V) with gpt := gpt' } →
      (mbrGetPart m { memos with gpt := gpt } volume p.toNat).1 =
        (mbrGetPart m { (Memos.empty : Memos V) with gpt := gpt' } volume p.toNat).1 ∧
      MemosOk m (mbrGetPart m { memos with gpt := gpt } volume p.toNat).2 := by
    intro gpt hok gpt' hok'
    have h1 := mbrGetPart_eq hfits hok volume p.toNat
    have h2 := mbrGetPart_eq hfits hok' volume p.toNat
    exact ⟨h1.1.trans h2.1.symm, h1.2⟩
  have hfresh := gptGetPart_eq (MemosOk.empty m) volume p.toNat
  unfold partGet
  revert hgpt hfresh
  generalize gptGetPart m memos.gpt volume p.toNat = r
  generalize gptGetPart m (Memos.empty : Memos V).gpt volume p.toNat = r'
  obtain ⟨result, gpt⟩ := r
  obtain ⟨result', gpt'⟩ := r'
  rintro ⟨rfl, hok⟩ ⟨-, hok'⟩
  split
  · exact ⟨rfl, h⟩
  · dsimp only
    split
    · exact ⟨rfl, hok⟩
    · exact hmbr gpt hok gpt' hok'

/-- One call, with the memos of the calls before and without. -/
theorem run_eq (hfits : AllChainsFit m) (h : MemosOk m memos) (call : Call V) :
    (call.run m memos).1 = (call.run m Memos.empty).1 ∧ MemosOk m (call.run m memos).2 := by
  cases call with
  | gptGetGuid volume =>
    have hlocate := gptLocateHeader_eq h volume
    have hfresh := (gptLocateHeader_eq (MemosOk.empty m) volume).1
    rw [← hlocate.1] at hfresh
    refine ⟨?_, hlocate.2⟩
    unfold Call.run gptGetGuid
    dsimp only
    rw [hfresh]
  | partGet volume p =>
    have hpart := partGet_eq hfits h volume p
    refine ⟨?_, hpart.2⟩
    show Answer.part (partGet m memos volume p).1 = Answer.part (partGet m Memos.empty volume p).1
    rw [hpart.1]

def Call.volume : Call V → V
  | .gptGetGuid volume => volume
  | .partGet volume _ => volume

theorem run_inside (memos : Memos V) (call : Call V) :
    (call.run m memos).1.Inside (m.geometry call.volume) := by
  cases call with
  | gptGetGuid volume => trivial
  | partGet volume p =>
    show (Answer.part (partGet m memos volume p).1).Inside (m.geometry volume)
    unfold partGet
    split
    · trivial
    · dsimp only
      split
      · exact gptGetPart_inside memos.gpt volume p.toNat
      · exact mbrGetPart_inside _ volume p.toNat

theorem runCalls_eq (hfits : AllChainsFit m) (calls : List (Call V)) : ∀ {memos : Memos V}, MemosOk m memos →
    runCalls m memos calls = calls.map fun call => (call.run m Memos.empty).1 := by
  induction calls with
  | nil =>
    intro memos _
    rfl
  | cons call calls ih =>
    intro memos h
    obtain ⟨hanswer, hmemos⟩ := run_eq hfits h call
    rw [runCalls, List.map_cons, ← hanswer, ← ih hmemos]

/-- Each of the calls, on any volumes and with any indices, is answered as if it were the only one. -/
theorem runCalls_eq_fresh (hfits : AllChainsFit m) (calls : List (Call V)) :
    runCalls m Memos.empty calls = calls.map (fun call => (call.run m Memos.empty).1) ∧
      ∀ call ∈ calls, (call.run m Memos.empty).1.Inside (m.geometry call.volume) :=
  ⟨runCalls_eq hfits calls (MemosOk.empty m), fun call _ => run_inside Memos.empty call⟩

end

/-! ## A disk -/

/-- An extended partition in sectors 4 to 7, with one logical partition of 2 sectors. -/
def oneLogical : Nat → UInt8
  | 450 => 5
  | 454 => 4
  | 458 => 4
  | 510 => 0x55
  | 511 => 0xaa
  | 2498 => 0x83
  | 2502 => 1
  | 2506 => 2
  | 2558 => 0x55
  | 2559 => 0xaa
  | _ => 0

def oneDisk : Media Unit where
  geometry _ := { firstSect := 0, sectCount := 16, sectorSize := 512, isOptical := false }
  read _ g loc count :=
    if loc + count ≤ g.sectCount * 512 then
      some ((List.range count).map fun i => oneLogical (g.firstSect * 512 + loc + i))
    else none

theorem oneDisk_chainsFit : AllChainsFit oneDisk := by
  rintro ⟨⟩ g hg
  have hfound : findExtended oneDisk () =
      some { firstSect := 4, sectCount := 4, sectorSize := 512, isOptical := false } := by decide
  cases hfound.symm.trans hg
  intro walk hwalk
  have hend : ebrAt oneDisk () { firstSect := 4, sectCount := 4, sectorSize := 512, isOptical := false }
      maxLogicalPartitions = none := by decide +kernel
  cases hend.symm.trans hwalk

/-- The second logical partition, which there is not, is asked for before the first. -/
theorem runCalls_eq_fresh_oneDisk :
    runCalls oneDisk Memos.empty [.partGet () 5, .partGet () 4, .partGet () 0, .gptGetGuid ()] =
      [.part .endOfTable, .part (.found ⟨5, 5, 2, none, none⟩), .part (.found ⟨1, 4, 4, none, none⟩), .guid none] := by
  rw [(runCalls_eq_fresh oneDisk_chainsFit _).1]
  decide

end Limine.Part
