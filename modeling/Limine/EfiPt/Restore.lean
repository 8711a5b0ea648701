import Limine.EfiPt.Entries
import Limine.Vmm.Walk
import Mathlib.Data.List.Infix

/-!
# Restoring the firmware's page tables

Replaying the saved entries takes every table that the loader has not allocated back to what it
was: `wc_walk` saves an entry before it writes it, unless its table is new, and nothing leads from
a new table to one of the firmware's (`Levelled`).

    any calls, then a restore →
      firmware tables and PAT as at first
      module state as at first, but where a call has done nothing    (LeavesIndex)
-/

namespace Limine.EfiPt

open Limine.Lib Limine.Vmm

/-! ## Replaying -/

/-- The entries, the newest first, written back. -/
def replay (saved : List SavedPte) (mem : Nat → Nat → PtEntry) : Nat → Nat → PtEntry :=
  saved.foldl (fun mem p t i => if t = p.table ∧ i = p.index then p.val else mem t i) mem

theorem replay_congr (saved : List SavedPte) :
    ∀ {mem mem' : Nat → Nat → PtEntry} {t i : Nat}, mem t i = mem' t i →
      replay saved mem t i = replay saved mem' t i := by
  induction saved with
  | nil => intro mem mem' t i h; exact h
  | cons p saved ih =>
    intro mem mem' t i h
    refine ih ?_
    dsimp only
    rw [h]

/-- A saved entry may be written over. -/
theorem replay_saved (saved : List SavedPte) (mem : Nat → Nat → PtEntry) (t i : Nat) (v : PtEntry) :
    replay (⟨t, i, mem t i⟩ :: saved) (fun t' i' => if t' = t ∧ i' = i then v else mem t' i') =
      replay saved mem := by
  unfold replay
  rw [List.foldl_cons]
  congr 1
  funext t' i'
  dsimp only
  by_cases h : t' = t ∧ i' = i
  · rw [if_pos h, h.1, h.2]
  · rw [if_neg h, if_neg h]

/-- The rest of the state is the same. -/
structure Same (s s' : State) : Prop where
  pat : s'.pat = s.pat
  hasArrays : s'.hasArrays = s.hasArrays
  savedPat : s'.savedPat = s.savedPat
  patModified : s'.patModified = s.patModified
  wcPatIndex : s'.wcPatIndex = s.wcPatIndex
  gibSupported : s'.gibSupported = s.gibSupported

theorem Same.refl (s : State) : Same s s := ⟨rfl, rfl, rfl, rfl, rfl, rfl⟩

theorem Same.write (s : State) (table index : Nat) (v : PtEntry) : Same s (s.write table index v) :=
  ⟨rfl, rfl, rfl, rfl, rfl, rfl⟩

theorem Same.symm {s s' : State} (h : Same s s') : Same s' s :=
  ⟨h.pat.symm, h.hasArrays.symm, h.savedPat.symm, h.patModified.symm, h.wcPatIndex.symm,
    h.gibSupported.symm⟩

theorem Same.trans {s s' s'' : State} (h : Same s s') (h' : Same s' s'') : Same s s'' :=
  ⟨h'.pat.trans h.pat, h'.hasArrays.trans h.hasArrays, h'.savedPat.trans h.savedPat,
    h'.patModified.trans h.patModified, h'.wcPatIndex.trans h.wcPatIndex,
    h'.gibSupported.trans h.gibSupported⟩

/-- What replaying gives stays as it is outside the tables `N`. -/
structure Kept (N : Set Nat) (s s' : State) : Prop where
  same : Same s s'
  saved : s.saved <:+ s'.saved
  replay : ∀ t i, t ∉ N → replay s'.saved s'.memory.mem t i = replay s.saved s.memory.mem t i

section Kept

variable {N : Set Nat} {s s' s'' : State} {table index : Nat}

theorem Kept.refl (N : Set Nat) (s : State) : Kept N s s :=
  ⟨Same.refl s, List.suffix_refl _, fun _ _ _ => rfl⟩

theorem Kept.trans (h : Kept N s s') (h' : Kept N s' s'') : Kept N s s'' :=
  ⟨h.same.trans h'.same, h.saved.trans h'.saved,
    fun t i ht => (h'.replay t i ht).trans (h.replay t i ht)⟩

/-- A state that differs in the tables `N` only. -/
theorem Kept.of_mem (hs : s'.saved = s.saved) (hsame : Same s s')
    (hmem : ∀ t i, t ∉ N → s'.memory.mem t i = s.memory.mem t i) : Kept N s s' := by
  refine ⟨hsame, hs ▸ List.suffix_refl _, fun t i ht => ?_⟩
  rw [hs]
  exact replay_congr _ (hmem t i ht)

theorem savePte_some (h : savePte s table index = some s') :
    s' = { s with saved := ⟨table, index, s.memory.mem table index⟩ :: s.saved } := by
  unfold savePte at h
  split at h
  · cases h
  · exact (Option.some.inj h).symm

/-- An entry that is saved, or in a new table, may be written. -/
theorem Kept.write {pristine : Bool} (h : saveIf pristine s table index = some s')
    (hN : pristine = false → table ∈ N) (v : PtEntry) : Kept N s (s'.write table index v) := by
  unfold saveIf at h
  cases pristine with
  | true =>
    obtain rfl := savePte_some h
    refine ⟨⟨rfl, rfl, rfl, rfl, rfl, rfl⟩, List.suffix_cons _ _, fun t i _ => ?_⟩
    exact congrFun (congrFun (replay_saved s.saved s.memory.mem table index v) t) i
  | false =>
    obtain rfl := Option.some.inj h
    refine Kept.of_mem rfl (Same.write s table index v) fun t i ht => if_neg ?_
    rintro ⟨rfl, -⟩
    exact ht (hN rfl)

theorem saved_saveIf (h : saveIf true s table index = some s') : s'.saved ≠ [] := by
  rw [savePte_some h]
  exact List.cons_ne_nil _ _

theorem memory_saveIf {pristine : Bool} (h : saveIf pristine s table index = some s') :
    s'.memory = s.memory := by
  cases pristine with
  | true => rw [savePte_some h]
  | false => rw [← Option.some.inj h]

end Kept

/-! ## New tables -/

/-- A table made in place of the entry `e` of a table of level `lvl`. -/
structure NewTable (e : PtEntry) (lvl : Nat) (s : State) (r : Nat × State) : Prop where
  supply : s.memory.supply = r.1 :: r.2.memory.supply
  saved : r.2.saved = s.saved
  same : Same s r.2
  mem : ∀ t i, t ≠ r.1 → r.2.memory.mem t i = s.memory.mem t i
  entries : ∀ i < 512, r.2.memory.mem r.1 i = if e &&& pteP ≠ 0 then splitEntry e lvl i else 0

theorem childTable_ensures (s : State) (e : PtEntry) (lvl : Nat) :
    (childTable s e lvl).Ensures True (NewTable e lvl s) := by
  unfold childTable splitLeaf allocTable extMemAlloc
  cases hs : s.memory.supply with
  | nil =>
    split
    all_goals trivial
  | cons p ps =>
    split
    · next hp =>
      refine ⟨hs, rfl, ⟨rfl, rfl, rfl, rfl, rfl, rfl⟩, fun t i ht => ?_, fun i hi => ?_⟩
      · show (if t = p ∧ i < 512 then splitEntry e lvl i else if t = p then 0 else _) = _
        rw [if_neg fun h => ht h.1, if_neg ht]
      · show (if p = p ∧ i < 512 then splitEntry e lvl i else _) = _
        rw [if_pos ⟨rfl, hi⟩, if_pos hp]
    · next hp =>
      refine ⟨hs, rfl, ⟨rfl, rfl, rfl, rfl, rfl, rfl⟩, fun t i ht => if_neg ht, fun i hi => ?_⟩
      show (if p = p then 0 else _) = _
      rw [if_pos rfl, if_neg hp]

/-- A table made in place of a leaf or of nothing leads to no other. -/
theorem NewTable.blank {e : PtEntry} {lvl : Nat} {s : State} {r : Nat × State}
    (h : NewTable e lvl s r) (he : e &&& pteP ≠ 0 → isLeaf lvl e = true) {i : Nat} (hi : i < 512)
    (hp : r.2.memory.mem r.1 i &&& pteP ≠ 0) : isLeaf (lvl - 1) (r.2.memory.mem r.1 i) = true := by
  rw [h.entries i hi] at hp ⊢
  split at hp
  · next hpe =>
    rw [if_pos hpe]
    have hle := (isLeaf_iff lvl e).mp (he hpe)
    rw [isLeaf_iff]
    by_cases h2 : lvl = 2
    · exact Or.inl (by omega)
    · exact Or.inr ⟨by omega, splitEntry_large e h2 i⟩
  · exact absurd rfl hp

/-- Every table has one level; new ones lead to new ones, and none is still to be allocated. -/
structure Levelled (N : Set Nat) (own : Nat → Option Nat) (s : State) : Prop where
  nodup : s.memory.supply.Nodup
  pageOk : ∀ p ∈ s.memory.supply, PageOk p ∧ p ∈ N
  apart : ∀ t lvl, own t = some lvl → t ∉ s.memory.supply
  leads : ∀ t lvl, own t = some lvl → ∀ i < 512, s.memory.mem t i &&& pteP ≠ 0 →
    isLeaf lvl (s.memory.mem t i) = false →
    ∃ l, lvl = l + 1 ∧ own (tableOf (s.memory.mem t i)) = some l ∧
      (t ∈ N → tableOf (s.memory.mem t i) ∈ N)

/-- Levels are kept, and new tables get one. -/
def OwnLe (own own' : Nat → Option Nat) : Prop := ∀ t lvl, own t = some lvl → own' t = some lvl

/-- What a walk does. -/
def Walked (N : Set Nat) (own : Nat → Option Nat) (s s' : State) : Prop :=
  ∃ own', OwnLe own own' ∧ Levelled N own' s' ∧ Kept N s s'

section Levelled

variable {N : Set Nat} {own : Nat → Option Nat} {s s' s'' : State} {table lvl : Nat}

theorem Levelled.walked (h : Levelled N own s) : Walked N own s s :=
  ⟨own, fun _ _ h => h, h, Kept.refl N s⟩

/-- An entry may become a leaf. -/
theorem Levelled.write (h : Levelled N own s) (htable : own table = some lvl) {i : Nat} {v : PtEntry}
    (hm : s'.memory = s.memory) (hv : isLeaf lvl v = true) :
    Levelled N own (s'.write table i v) := by
  have hmem : ∀ t j, (s'.write table i v).memory.mem t j =
      if t = table ∧ j = i then v else s.memory.mem t j := by
    intro t j
    rw [← hm]
    rfl
  have hsupply : (s'.write table i v).memory.supply = s.memory.supply := by
    rw [← hm]
    rfl
  refine ⟨hsupply ▸ h.nodup, hsupply ▸ h.pageOk, hsupply ▸ h.apart, fun t l ht j hj => ?_⟩
  rw [hmem]
  split
  · next hw =>
    rw [hw.1, htable] at ht
    obtain rfl := Option.some.inj ht
    rw [hv]
    exact fun _ hf => absurd hf (by decide)
  · exact h.leads t l ht j hj

/-- An entry may point to a new table. -/
theorem Levelled.newTable (h : Levelled N own s) (htable : own table = some (lvl + 1)) {i child : Nat}
    (hm : s'.memory = s.memory)
    (he : s.memory.mem table i &&& pteP ≠ 0 → isLeaf (lvl + 1) (s.memory.mem table i) = true)
    (hn : NewTable (s.memory.mem table i) (lvl + 1) s' (child, s'')) :
    OwnLe own (fun t => if t = child then some lvl else own t) ∧ child ∈ N ∧
      Levelled N (fun t => if t = child then some lvl else own t)
        (s''.write table i (tableEntry child)) := by
  have hsupply : s.memory.supply = child :: s''.memory.supply := hm ▸ hn.supply
  obtain ⟨hchild, hnd⟩ := List.nodup_cons.mp (hsupply ▸ h.nodup)
  obtain ⟨hpage, hchildN⟩ := h.pageOk child (hsupply ▸ List.mem_cons_self)
  have hne : ∀ t l, own t = some l → t ≠ child := by
    rintro t l ht rfl
    exact h.apart t l ht (hsupply ▸ List.mem_cons_self)
  have hle : OwnLe own (fun t => if t = child then some lvl else own t) :=
    fun t l ht => (if_neg (hne t l ht)).trans ht
  refine ⟨hle, hchildN, hnd, fun p hp => h.pageOk p (hsupply ▸ List.mem_cons_of_mem child hp), ?_, ?_⟩
  · intro t l ht
    split at ht
    · next htc =>
      rw [htc]
      exact hchild
    · exact fun hin => h.apart t l ht (hsupply ▸ List.mem_cons_of_mem child hin)
  · intro t l ht j hj
    show (if t = table ∧ j = i then tableEntry child else s''.memory.mem t j) &&& pteP ≠ 0 → _
    split at ht
    · next htc =>
      -- the new table
      obtain rfl := Option.some.inj ht
      subst htc
      have hnot : ¬ (t = table ∧ j = i) := fun hw => hne table _ htable hw.1.symm
      intro hp hf
      rw [if_neg hnot] at hp
      have hblank : isLeaf lvl (s''.memory.mem t j) = true := hn.blank he hj hp
      rw [show (s''.write table i (tableEntry t)).memory.mem t j = s''.memory.mem t j from if_neg hnot,
        hblank] at hf
      cases hf
    · next htc =>
      show _ → isLeaf l (if t = table ∧ j = i then tableEntry child else s''.memory.mem t j) = false →
        ∃ l', l = l' + 1 ∧ (if tableOf (if t = table ∧ j = i then tableEntry child else
          s''.memory.mem t j) = child then some lvl else own (tableOf (if t = table ∧ j = i then
          tableEntry child else s''.memory.mem t j))) = some l' ∧
          (t ∈ N → tableOf (if t = table ∧ j = i then tableEntry child else s''.memory.mem t j) ∈ N)
      by_cases hw : t = table ∧ j = i
      · simp only [if_pos hw]
        rw [hw.1, htable] at ht
        obtain rfl := Option.some.inj ht
        rw [(tableEntry_spec hpage).1]
        exact fun _ _ => ⟨lvl, rfl, if_pos rfl, fun _ => hchildN⟩
      · simp only [if_neg hw]
        rw [show s''.memory.mem t j = s.memory.mem t j from (hn.mem t j htc).trans (by rw [hm])]
        intro hp hf
        obtain ⟨l', hl, hown, hNl⟩ := h.leads t l ht j hj hp hf
        exact ⟨l', hl, hle _ _ hown, hNl⟩

end Levelled

/-! ## `wc_walk` -/

section Walk

variable {base top : Nat}

theorem dvd_step (lvl : Nat) : 0x1000 ∣ step lvl := @pageBytes_dvd 0 (lvl - 1) (Nat.zero_le _)

/-- An entry of the last level that the range reaches lies in it. -/
theorem fully_of_last (hb : 0x1000 ∣ base) (ht : 0x1000 ∣ top) {va : Nat} (hva : 0x1000 ∣ va)
    (hlt : va < top) (hgt : base < va + step 1) : va ≥ base ∧ va + step 1 ≤ top := by
  have hstep : step 1 = 0x1000 := rfl
  rw [hstep] at hgt ⊢
  omega

/-- The entry is made a leaf as a whole. -/
def Whole (s : State) (base top lvl va : Nat) : Prop :=
  (va ≥ base ∧ va + step lvl ≤ top) ∧ lvl ≤ 3 ∧ (lvl < 3 ∨ s.gibSupported = true)

/-- What `wc_walk` may do at an entry. -/
theorem wcEntry_rule {lower : State → Nat → Nat → Bool → Exec State} {lvl : Nat} {pristine : Bool}
    {s : State} {table i va : Nat} {post : State → Prop}
    (hfull : saveIf pristine s table i = none → post s)
    (hleaf : Whole s base top lvl va → ∀ s₁, saveIf pristine s table i = some s₁ →
      post (s₁.write table i (wcLeaf lvl va (s.memory.mem table i) (s₁.wcPatIndex.getD 0))))
    (hdown : s.memory.mem table i &&& pteP ≠ 0 → isLeaf lvl (s.memory.mem table i) = false →
      (lower s (tableOf (s.memory.mem table i)) va pristine).Ensures True post)
    (hnew : ¬ Whole s base top lvl va →
      (s.memory.mem table i &&& pteP ≠ 0 → isLeaf lvl (s.memory.mem table i) = true) →
      ∀ s₁ child s₂, saveIf pristine s table i = some s₁ →
        NewTable (s.memory.mem table i) lvl s₁ (child, s₂) →
        (lower (s₂.write table i (tableEntry child)) child va false).Ensures True post) :
    (wcEntry lower lvl base top pristine s table i va).Ensures True post := by
  unfold wcEntry
  dsimp only
  split
  · next h =>
    have hwhole : Whole s base top lvl va := ⟨of_decide_eq_true h.1, h.2⟩
    cases hs : saveIf pristine s table i with
    | none => exact hfull hs
    | some s₁ => exact hleaf hwhole s₁ hs
  · next h =>
    have hwhole : ¬ Whole s base top lvl va := fun hw => h ⟨decide_eq_true hw.1, hw.2⟩
    split
    · next hd => exact hdown hd.1 hd.2
    · next hd =>
      have hblank : s.memory.mem table i &&& pteP ≠ 0 → isLeaf lvl (s.memory.mem table i) = true :=
        fun hp => Bool.of_not_eq_false fun hf => hd ⟨hp, hf⟩
      cases hs : saveIf pristine s table i with
      | none => exact hfull hs
      | some s₁ =>
        exact (childTable_ensures s₁ _ lvl).bind fun ⟨child, s₂⟩ hn =>
          hnew hwhole hblank s₁ child s₂ hs hn

/-- Entries of the last level are made leaves as a whole. -/
theorem whole_of_last (hb : 0x1000 ∣ base) (ht : 0x1000 ∣ top) {s : State} {va : Nat}
    (hva : 0x1000 ∣ va) (hlt : va < top) (hgt : base < va + step 1) : Whole s base top 1 va :=
  ⟨fully_of_last hb ht hva hlt hgt, by omega, Or.inl (by omega)⟩

/-- The rule of the loop: `inv i` holds before entry `i`. -/
theorem wcLoop_rule {entry : State → Nat → Nat → Exec State} {lvl tblVa : Nat} {post : State → Prop}
    (inv : Nat → State → Prop)
    (hskip : ∀ i s, inv i s → tblVa + i * step lvl + step lvl ≤ base → inv (i + 1) s)
    (hentry : ∀ i s, i < 512 → inv i s → tblVa + i * step lvl < top →
      base < tblVa + i * step lvl + step lvl →
      (entry s i (tblVa + i * step lvl)).Ensures True (inv (i + 1)))
    (hdone : ∀ i s, inv i s → i = 512 ∨ top ≤ tblVa + i * step lvl → post s) :
    ∀ n i s, i + n = 512 → inv i s → (wcLoop entry lvl tblVa base top n i s).Ensures True post := by
  intro n
  induction n with
  | zero => intro i s hi hinv; exact hdone i s hinv (Or.inl hi)
  | succ n ih =>
    intro i s hi hinv
    unfold wcLoop
    dsimp only
    split
    · next hend => exact hdone i s hinv (Or.inr hend)
    · next hlt =>
      have hturn : (wcTurn entry lvl base s i (tblVa + i * step lvl)).Ensures True (inv (i + 1)) := by
        unfold wcTurn
        split
        · next hle => exact hskip i s hinv hle
        · next hgt => exact hentry i s (by omega) hinv (by omega) (by omega)
      exact hturn.bind fun s₁ h => ih (i + 1) s₁ (by omega) h

theorem dvd_va {tblVa : Nat} (h : 0x1000 ∣ tblVa) (i lvl : Nat) : 0x1000 ∣ tblVa + i * step lvl :=
  Nat.dvd_add h (Nat.dvd_mul_left_of_dvd (dvd_step lvl) i)

/-- The walk of a table of level `lvl`, as the walk above it needs it. -/
def LowerWalks (N : Set Nat) (lvl : Nat) (lower : State → Nat → Nat → Bool → Exec State) : Prop :=
  lvl ≠ 0 → ∀ (s : State) (own : Nat → Option Nat) (table tblVa : Nat) (pristine : Bool),
    0x1000 ∣ tblVa → Levelled N own s → own table = some lvl → (pristine = false → table ∈ N) →
    (lower s table tblVa pristine).Ensures True (Walked N own s)

section Entry

variable {N : Set Nat} {lower : State → Nat → Nat → Bool → Exec State} {lvl : Nat} {s : State}
  {own : Nat → Option Nat} {table i va : Nat} {pristine : Bool}

/-- The new table at an entry that was saved. -/
theorem newTable_walked (hlower : LowerWalks N lvl lower) (hl : lvl ≠ 0) (hva : 0x1000 ∣ va)
    (hlev : Levelled N own s) (htable : own table = some (lvl + 1)) (hN : pristine = false → table ∈ N)
    (hleaf : s.memory.mem table i &&& pteP ≠ 0 → isLeaf (lvl + 1) (s.memory.mem table i) = true)
    {s₁ s₂ : State} {child : Nat} (hs : saveIf pristine s table i = some s₁)
    (hn : NewTable (s.memory.mem table i) (lvl + 1) s₁ (child, s₂)) :
    (lower (s₂.write table i (tableEntry child)) child va false).Ensures True fun s' =>
      Walked N own s s' ∧ s₁.saved <:+ s'.saved := by
  obtain ⟨hle, hchildN, hlev₂⟩ := hlev.newTable htable (memory_saveIf hs) hleaf hn
  have hk : Kept N s (s₂.write table i (tableEntry child)) := by
    refine (Kept.write hs hN (tableEntry child)).trans (Kept.of_mem hn.saved
      ((Same.write s₁ table i _).symm.trans (hn.same.trans (Same.write s₂ table i _)))
      fun t j ht => ?_)
    have htc : t ≠ child := fun h => ht (h ▸ hchildN)
    show (if t = table ∧ j = i then tableEntry child else s₂.memory.mem t j) =
      if t = table ∧ j = i then tableEntry child else s₁.memory.mem t j
    rw [hn.mem t j htc]
  refine (hlower hl _ _ child va false hva hlev₂ (if_pos rfl) fun _ => hchildN).imp id ?_
  rintro s₃ ⟨own₃, hle₃, hlev₃, hk₃⟩
  refine ⟨⟨own₃, fun t l h => hle₃ t l (hle t l h), hlev₃, hk.trans hk₃⟩, ?_⟩
  have hsaved : s₂.saved = s₁.saved := hn.saved
  exact hsaved ▸ hk₃.saved

theorem wcEntry_walked (hb : 0x1000 ∣ base) (ht : 0x1000 ∣ top) (hlower : LowerWalks N lvl lower)
    (hi : i < 512) (hva : 0x1000 ∣ va) (hlt : va < top) (hgt : base < va + step (lvl + 1))
    (hlev : Levelled N own s) (htable : own table = some (lvl + 1))
    (hN : pristine = false → table ∈ N) :
    (wcEntry lower (lvl + 1) base top pristine s table i va).Ensures True (Walked N own s) := by
  refine wcEntry_rule (fun _ => hlev.walked) ?_ ?_ ?_
  · intro hwhole s₁ hs
    refine ⟨own, fun _ _ h => h, hlev.write htable (memory_saveIf hs) ?_, Kept.write hs hN _⟩
    exact wcLeaf_leaf (Nat.succ_ne_zero lvl) hwhole.2.1 _ _ _
  · intro hp hleaf
    obtain ⟨l, hl, hown, hNl⟩ := hlev.leads table _ htable i hi hp hleaf
    obtain rfl : lvl = l := by omega
    refine hlower ?_ s own _ va pristine hva hlev hown fun h => hNl (hN h)
    rintro rfl
    cases hleaf
  · intro hwhole hleaf s₁ child s₂ hs hn
    have hl : lvl ≠ 0 := by
      rintro rfl
      exact hwhole (whole_of_last hb ht hva hlt hgt)
    exact (newTable_walked hlower hl hva hlev htable hN hleaf hs hn).imp id fun _ h => h.1

end Entry

theorem wcWalk_walked {N : Set Nat} (hb : 0x1000 ∣ base) (ht : 0x1000 ∣ top) :
    ∀ lvl, LowerWalks N lvl (wcWalk base top lvl) := by
  intro lvl
  induction lvl with
  | zero => intro h; exact absurd rfl h
  | succ lvl ih =>
    intro _ s₀ own₀ table tblVa pristine hva hlev htable hN
    refine wcLoop_rule (fun _ s => Walked N own₀ s₀ s) (fun _ _ h _ => h) ?_ (fun _ _ h _ => h) 512 0 s₀ rfl
      hlev.walked
    rintro i s hi ⟨own, hle, hlev, hk⟩ hlt hgt
    refine (wcEntry_walked hb ht ih hi (dvd_va hva i (lvl + 1)) hlt hgt hlev (hle _ _ htable) hN).imp id ?_
    rintro s₁ ⟨own₁, hle₁, hlev₁, hk₁⟩
    exact ⟨own₁, fun t l h => hle₁ t l (hle t l h), hlev₁, hk.trans hk₁⟩

/-- What is above the range's reach. -/
theorem wcWalk_beyond {lvl : Nat} (s : State) (table tblVa : Nat) (pristine : Bool)
    (h : tblVa + 512 * step (lvl + 1) ≤ base) :
    wcWalk base top (lvl + 1) s table tblVa pristine = .ok s := by
  unfold wcWalk
  generalize (fun s i va => wcEntry (wcWalk base top lvl) (lvl + 1) base top pristine s table i va) = entry
  have hloop : ∀ n i, i + n = 512 → wcLoop entry (lvl + 1) tblVa base top n i s = .ok s := by
    intro n
    induction n with
    | zero => intro i _; rfl
    | succ n ih =>
      intro i hi
      have hle : tblVa + i * step (lvl + 1) + step (lvl + 1) ≤ base := by
        have := Nat.mul_le_mul_right (step (lvl + 1)) (show i + 1 ≤ 512 by omega)
        rw [Nat.succ_mul] at this
        omega
      unfold wcLoop wcTurn
      dsimp only
      rw [if_pos hle]
      split
      · rfl
      · exact ih (i + 1) (by omega)
  exact hloop 512 0 rfl

theorem ne_nil_of_suffix {α : Type} {l l' : List α} (h : l <:+ l') (hl : l ≠ []) : l' ≠ [] := by
  rintro rfl
  exact hl (List.suffix_nil.mp h)

theorem step_succ {lvl : Nat} (hl : lvl ≠ 0) : step (lvl + 1) = 512 * step lvl := by
  obtain ⟨k, rfl⟩ := Nat.exists_eq_succ_of_ne_zero hl
  show pageBytes (k + 1) = 512 * pageBytes k
  rw [pageBytes_succ, Nat.mul_comm]

/-- A walk that the range reaches saves an entry, if there is room for one. -/
theorem wcWalk_saves {N : Set Nat} (hb : 0x1000 ∣ base) (ht : 0x1000 ∣ top) (hbt : base < top) :
    ∀ (lvl : Nat) (s : State) (own : Nat → Option Nat) (table tblVa : Nat), lvl ≠ 0 →
      0x1000 ∣ tblVa → Levelled N own s → own table = some lvl → tblVa ≤ base →
      base < tblVa + 512 * step lvl → s.saved.length < savedPtesMax →
      (wcWalk base top lvl s table tblVa true).Ensures True fun s' => s'.saved ≠ [] := by
  intro lvl
  induction lvl with
  | zero => intro s own table tblVa h; exact absurd rfl h
  | succ lvl ih =>
    intro s₀ own₀ table tblVa _ hva hlev htable hlo hhi hroom
    -- nothing happens before the entry of `base`, which saves
    have hfirst : ∀ i < 512, tblVa + i * step (lvl + 1) ≤ base →
        base < tblVa + i * step (lvl + 1) + step (lvl + 1) →
        (wcEntry (wcWalk base top lvl) (lvl + 1) base top true s₀ table i
          (tblVa + i * step (lvl + 1))).Ensures True fun s' => s'.saved ≠ [] := by
      intro i hi hle hgt
      have hva' := dvd_va hva i (lvl + 1)
      refine wcEntry_rule (fun h => ?_) ?_ ?_ ?_
      · unfold saveIf savePte at h
        rw [if_pos rfl, if_neg (by omega)] at h
        cases h
      · intro _ s₁ hs
        show s₁.saved ≠ []
        exact saved_saveIf hs
      · intro hp hleaf
        obtain ⟨l, hl, hown, -⟩ := hlev.leads table _ htable i hi hp hleaf
        obtain rfl : lvl = l := by omega
        have hl : lvl ≠ 0 := by
          rintro rfl
          cases hleaf
        refine ih s₀ own₀ _ _ hl hva' hlev hown hle ?_ hroom
        rwa [← step_succ hl]
      · intro hwhole hleaf s₁ child s₂ hs hn
        have hl : lvl ≠ 0 := by
          rintro rfl
          exact hwhole (whole_of_last hb ht hva' (by omega) hgt)
        refine (newTable_walked (wcWalk_walked hb ht lvl) hl hva' hlev htable
          (fun h => absurd h (by decide)) hleaf hs hn).imp id fun s' h => ?_
        exact ne_nil_of_suffix h.2 (saved_saveIf hs)
    refine wcLoop_rule (fun i s => Walked N own₀ s₀ s ∧ (tblVa + i * step (lvl + 1) ≤ base → s = s₀) ∧
      (base < tblVa + i * step (lvl + 1) → s.saved ≠ [])) ?_ ?_ ?_ 512 0 s₀ rfl
      ⟨hlev.walked, fun _ => rfl, fun h => by omega⟩
    · rintro i s ⟨hw, hsame, -⟩ hle
      rw [Nat.succ_mul]
      exact ⟨hw, fun _ => hsame (by omega), fun h => by omega⟩
    · rintro i s hi ⟨⟨own, hown, hlev', hk⟩, hsame, hsaved⟩ hlt hgt
      have hwalk := wcEntry_walked hb ht (wcWalk_walked hb ht lvl) hi (dvd_va hva i (lvl + 1)) hlt hgt
        hlev' (hown _ _ htable) fun h : true = false => absurd h (by decide)
      have hnext : tblVa + (i + 1) * step (lvl + 1) =
          tblVa + i * step (lvl + 1) + step (lvl + 1) := by
        rw [Nat.succ_mul, Nat.add_assoc]
      have hsaves : (wcEntry (wcWalk base top lvl) (lvl + 1) base top true s table i
          (tblVa + i * step (lvl + 1))).Ensures True fun s' => s'.saved ≠ [] := by
        by_cases hle : tblVa + i * step (lvl + 1) ≤ base
        · rw [hsame hle]
          exact hfirst i hi hle hgt
        · refine hwalk.imp id ?_
          rintro s₁ ⟨_, -, -, hk₁⟩
          exact ne_nil_of_suffix hk₁.saved (hsaved (by omega))
      refine (hwalk.and hsaves).imp id ?_
      rintro s₁ ⟨⟨own₁, hown₁, hlev₁, hk₁⟩, h₁⟩
      exact ⟨⟨own₁, fun t l h => hown₁ t l (hown t l h), hlev₁, hk.trans hk₁⟩, fun hle => by omega,
        fun _ => h₁⟩
    · rintro i s ⟨-, -, hsaved⟩ (rfl | hend)
      · exact hsaved hhi
      · exact hsaved (by omega)

end Walk

/-! ## One call -/

/-- The arguments of an `efi_pt_set_fb_wc` call. -/
structure FbCall where
  base : Nat
  size : Nat
deriving DecidableEq, Repr

/-- The end of the range, rounded up, is no 64-bit number, or the range starts past the tables. -/
def FbCall.NoReach (cpu : Cpu) (c : FbCall) : Prop :=
  2 ^ 64 ≤ c.base + c.size + 0xfff ∨ pageBytes (levels cpu) ≤ c.base

instance (cpu : Cpu) (c : FbCall) : Decidable (c.NoReach cpu) := inferInstanceAs (Decidable (_ ∨ _))

theorem levels_pos (cpu : Cpu) : levels cpu ≠ 0 := by
  unfold levels
  split
  all_goals decide

section Range

variable {N : Set Nat} {cpu : Cpu} {own : Nat → Option Nat} {s : State}

theorem wcRange_walked (c : FbCall) (hsize : c.size ≠ 0) (hlev : Levelled N own s)
    (htop : own (tableOf cpu.cr3) = some (levels cpu)) :
    (wcRange cpu s c.base c.size).Ensures True fun s' =>
      (∃ g, Walked N own { s with gibSupported := g } s') ∧
        (s'.saved = [] ↔ s.saved = [] ∧ c.NoReach cpu) := by
  unfold wcRange FbCall.NoReach
  cases htop' : (checkedAdd c.base c.size).bind fun top => alignUp top 0x1000 with
  | none =>
    have hov : 2 ^ 64 ≤ c.base + c.size + 0xfff := by
      by_contra hlt
      rw [checkedAdd_eq_some (by omega), Option.bind_some] at htop'
      unfold alignUp at htop'
      have := checkedAdd_eq_none_iff.mp (Option.map_eq_none_iff.mp htop')
      omega
    exact ⟨⟨s.gibSupported, hlev.walked⟩, fun h => ⟨h, Or.inl hov⟩, fun h => h.1⟩
  | some top =>
    obtain ⟨x, hx, hup⟩ := Option.bind_eq_some_iff.mp htop'
    obtain ⟨hlt, rfl⟩ := checkedAdd_eq_some_iff.mp hx
    obtain ⟨h₁, h₂, h₃, h₄⟩ := alignUp_spec (by decide) hup
    have hdown := alignDown_le c.base 0x1000
    have hb := alignDown_dvd c.base 0x1000
    have hlev' : Levelled N own { s with gibSupported := cpu.gibPages } :=
      ⟨hlev.nodup, hlev.pageOk, hlev.apart, hlev.leads⟩
    have hwalk := wcWalk_walked hb h₃ (levels cpu) (levels_pos cpu)
      { s with gibSupported := cpu.gibPages } own (tableOf cpu.cr3) 0 true (Nat.dvd_zero _) hlev' htop
      fun h => absurd h (by decide)
    have hfits : ¬ 2 ^ 64 ≤ c.base + c.size + 0xfff := by
      unfold alignUp at hup
      obtain ⟨z, hz, -⟩ := Option.map_eq_some_iff.mp hup
      have := (checkedAdd_eq_some_iff.mp hz).1
      omega
    have hspan : 512 * step (levels cpu) = pageBytes (levels cpu) := by
      rw [← step_succ (levels_pos cpu)]
      rfl
    obtain ⟨lvl, hlvl⟩ := Nat.exists_eq_succ_of_ne_zero (levels_pos cpu)
    by_cases hbeyond : pageBytes (levels cpu) ≤ c.base
    · have hle : pageBytes (levels cpu) ≤ alignDown c.base 0x1000 := by
        obtain ⟨k, hk⟩ := @pageBytes_dvd 0 (levels cpu) (Nat.zero_le _)
        have hk' : k ≤ c.base / 0x1000 := (Nat.le_div_iff_mul_le (by decide)).mpr (by
          rw [Nat.mul_comm]
          exact hk ▸ hbeyond)
        rw [hk, Nat.mul_comm]
        exact Nat.mul_le_mul_right _ hk'
      have hrun := @wcWalk_beyond (alignDown c.base 0x1000) top lvl
        { s with gibSupported := cpu.gibPages } (tableOf cpu.cr3) 0 true
        (by rw [← Nat.succ_eq_add_one, ← hlvl, hspan]; omega)
      rw [← Nat.succ_eq_add_one, ← hlvl] at hrun
      dsimp only
      rw [hrun]
      exact ⟨⟨cpu.gibPages, hlev'.walked⟩, fun h => ⟨h, Or.inr hbeyond⟩, fun h => h.1⟩
    · have hnot : ¬ (2 ^ 64 ≤ c.base + c.size + 0xfff ∨ pageBytes (levels cpu) ≤ c.base) :=
        not_or.mpr ⟨hfits, hbeyond⟩
      have hsaves : (wcWalk (alignDown c.base 0x1000) top (levels cpu)
          { s with gibSupported := cpu.gibPages } (tableOf cpu.cr3) 0 true).Ensures True
          fun s' => s'.saved ≠ [] := by
        by_cases hnil : s.saved = []
        · refine wcWalk_saves hb h₃ (by omega) (levels cpu) _ own _ 0 (levels_pos cpu) (Nat.dvd_zero _)
            hlev' htop (Nat.zero_le _) (by omega) ?_
          show s.saved.length < savedPtesMax
          rw [hnil]
          decide
        · refine hwalk.imp id ?_
          rintro s' ⟨_, -, -, hk⟩
          exact ne_nil_of_suffix hk.saved hnil
      refine (hwalk.and hsaves).imp id fun s' ⟨hw, hne⟩ => ⟨⟨cpu.gibPages, hw⟩, ?_⟩
      exact ⟨fun h => absurd h hne, fun h => absurd h.2 hnot⟩

end Range

/-! ## A cycle of calls -/

/-- The calls of `efi_pt_set_fb_wc` between two restores. -/
def setFbWcs (cpu : Cpu) (s : State) (calls : List FbCall) : Exec State :=
  calls.foldlM (fun s c => efiPtSetFbWc cpu s c.base c.size) s

/-- The module's state before its first call.  `saved_pat` and `gib_supported` may be anything: they
are assigned before they are read. -/
structure Idle (s : State) : Prop where
  saved : s.saved = []
  hasArrays : s.hasArrays = false
  patModified : s.patModified = false
  wcPatIndex : s.wcPatIndex = none

/-- The firmware's tables: each has one level, and `ext_mem_alloc` returns none of them. -/
structure FirmwareTables (cpu : Cpu) (own : Nat → Option Nat) (m : Memory) : Prop where
  top : own (tableOf cpu.cr3) = some (levels cpu)
  apart : ∀ t lvl, own t = some lvl → t ∉ m.supply
  leads : ∀ t lvl, own t = some lvl → ∀ i < 512, m.mem t i &&& pteP ≠ 0 →
    isLeaf lvl (m.mem t i) = false → ∃ l, lvl = l + 1 ∧ own (tableOf (m.mem t i)) = some l

/-- All calls together do nothing but find the PAT's write-combining slot. -/
def LeavesIndex (cpu : Cpu) (pat : BitVec 64) (calls : List FbCall) : Prop :=
  cpu.pat = true ∧ (wcSlot pat).isSome = true ∧ (∃ c ∈ calls, c.size ≠ 0) ∧
    ∀ c ∈ calls, c.size ≠ 0 → c.NoReach cpu

instance (cpu : Cpu) (pat : BitVec 64) (calls : List FbCall) : Decidable (LeavesIndex cpu pat calls) :=
  inferInstanceAs (Decidable (_ ∧ _))

/-- There is a slot, which was made or found. -/
inductive Armed (cpu : Cpu) (pat : BitVec 64) (calls : List FbCall) (s : State) : Prop
  | made (index : s.wcPatIndex.isSome = true) (modified : s.patModified = true) (old : s.savedPat = pat)
      (why : wcSlot pat = none)
  | found (index : s.wcPatIndex.isSome = true) (modified : s.patModified = false) (same : s.pat = pat)
      (cpuPat : cpu.pat = true) (slot : (wcSlot pat).isSome = true)
      (saved : s.saved = [] ↔ ∀ c ∈ calls, c.size ≠ 0 → c.NoReach cpu)

/-- How far the module has come. -/
inductive Progress (cpu : Cpu) (pat : BitVec 64) (calls : List FbCall) (s : State) : Prop
  | unarmed (index : s.wcPatIndex = none) (modified : s.patModified = false) (same : s.pat = pat)
      (saved : s.saved = [])
      (why : cpu.pat = false ∨ wcSlot pat = none ∨ ∀ c ∈ calls, c.size = 0)
  | armed (armed : Armed cpu pat calls s) (call : ∃ c ∈ calls, c.size ≠ 0)

/-- What holds between two calls of a cycle that began in `s₀`. -/
structure Midway (cpu : Cpu) (own : Nat → Option Nat) (s₀ : State) (calls : List FbCall) (s : State) :
    Prop where
  tables : ∃ own', OwnLe own own' ∧ Levelled {t | t ∈ s₀.memory.supply} own' s
  replay : ∀ t i, t ∉ s₀.memory.supply → replay s.saved s.memory.mem t i = s₀.memory.mem t i
  progress : Progress cpu s₀.pat calls s

section Cycle

variable {cpu : Cpu} {pat : BitVec 64} {calls : List FbCall} {s s' : State}

/-- A call that asks for nothing. -/
theorem Armed.skip (h : Armed cpu pat calls s) {c : FbCall} (hc : c.size = 0) :
    Armed cpu pat (calls ++ [c]) s := by
  cases h with
  | made h₁ h₂ h₃ h₄ => exact .made h₁ h₂ h₃ h₄
  | found h₁ h₂ h₃ h₄ h₅ h₆ =>
    refine .found h₁ h₂ h₃ h₄ h₅ (h₆.trans ?_)
    rw [List.forall_mem_append, List.forall_mem_singleton]
    exact ⟨fun h => ⟨h, fun hne => absurd hc hne⟩, fun h => h.1⟩

/-- A call that has a slot to use. -/
theorem Armed.range (h : Armed cpu pat calls s) {c : FbCall} (hc : c.size ≠ 0) {g : Bool}
    (hsame : Same { s with gibSupported := g } s')
    (hsaved : s'.saved = [] ↔ s.saved = [] ∧ c.NoReach cpu) : Armed cpu pat (calls ++ [c]) s' := by
  have hindex : s'.wcPatIndex = s.wcPatIndex := hsame.wcPatIndex
  have hmodified : s'.patModified = s.patModified := hsame.patModified
  cases h with
  | made h₁ h₂ h₃ h₄ => exact .made (hindex ▸ h₁) (hmodified ▸ h₂) (hsame.savedPat.trans h₃) h₄
  | found h₁ h₂ h₃ h₄ h₅ h₆ =>
    refine .found (hindex ▸ h₁) (hmodified ▸ h₂) (hsame.pat.trans h₃) h₄ h₅ ?_
    rw [hsaved, h₆, List.forall_mem_append, List.forall_mem_singleton]
    exact ⟨fun h => ⟨h.1, fun _ => h.2⟩, fun h => ⟨h.1, h.2 hc⟩⟩

/-- `ensure_wc_pat_slot` fails and changes nothing, or leaves a slot; entries it only reads. -/
theorem ensureWcPatSlot_progress (h : Progress cpu pat calls s) {c : FbCall} :
    (ensureWcPatSlot cpu s).2.memory = s.memory ∧ (ensureWcPatSlot cpu s).2.saved = s.saved ∧
      ((ensureWcPatSlot cpu s).1 = false → Progress cpu pat (calls ++ [c]) (ensureWcPatSlot cpu s).2) ∧
      ((ensureWcPatSlot cpu s).1 = true → Armed cpu pat calls (ensureWcPatSlot cpu s).2) := by
  unfold ensureWcPatSlot
  cases h with
  | armed ha call =>
    have hindex : s.wcPatIndex.isSome = true := by
      cases ha
      all_goals assumption
    rw [if_pos hindex]
    exact ⟨rfl, rfl, fun h => (nomatch h), fun _ => ha⟩
  | unarmed hindex hmodified hsame hsaved why =>
    have hnone : ¬ s.wcPatIndex.isSome = true := by
      rw [hindex]
      decide
    rw [if_neg hnone]
    by_cases hpat : cpu.pat = false
    · rw [if_pos hpat]
      exact ⟨rfl, rfl, fun _ => .unarmed hindex hmodified hsame hsaved (Or.inl hpat),
        fun h => (nomatch h)⟩
    · subst hsame
      rw [if_neg hpat]
      cases hslot : wcSlot s.pat with
      | some i =>
        refine ⟨rfl, rfl, fun h => (nomatch h), fun _ => ?_⟩
        have hall : ∀ c ∈ calls, c.size = 0 := (why.resolve_left hpat).resolve_left (by simp [hslot])
        refine .found rfl hmodified rfl (Bool.of_not_eq_false hpat) (by simp [hslot]) ?_
        exact ⟨fun _ c hc hne => absurd (hall c hc) hne, fun _ => hsaved⟩
      | none =>
        dsimp only
        cases freeSlot (scanUsedPatIndices cpu s.memory.mem) with
        | none =>
          exact ⟨rfl, rfl, fun _ => .unarmed hindex hmodified rfl hsaved (Or.inr (Or.inl hslot)),
            fun h => (nomatch h)⟩
        | some slot =>
          exact ⟨rfl, rfl, fun h => (nomatch h), fun _ => .made rfl rfl rfl hslot⟩

theorem efiPtSetFbWc_midway {own : Nat → Option Nat} {s₀ : State}
    (htop : own (tableOf cpu.cr3) = some (levels cpu)) (h : Midway cpu own s₀ calls s) (c : FbCall) :
    (efiPtSetFbWc cpu s c.base c.size).Ensures True (Midway cpu own s₀ (calls ++ [c])) := by
  obtain ⟨⟨own', hle, hlev⟩, hreplay, hprogress⟩ := h
  unfold efiPtSetFbWc
  by_cases hc : c.size = 0
  · rw [if_pos hc]
    refine ⟨⟨own', hle, hlev⟩, hreplay, ?_⟩
    cases hprogress with
    | unarmed h₁ h₂ h₃ h₄ why =>
      refine .unarmed h₁ h₂ h₃ h₄ (why.imp id (Or.imp id fun hall => ?_))
      rw [List.forall_mem_append, List.forall_mem_singleton]
      exact ⟨hall, hc⟩
    | armed ha call =>
      obtain ⟨x, hx, hne⟩ := call
      exact .armed (ha.skip hc) ⟨x, List.mem_append_left _ hx, hne⟩
  · rw [if_neg hc]
    have hprogress' : Progress cpu s₀.pat calls { s with hasArrays := true } := by
      cases hprogress with
      | unarmed h₁ h₂ h₃ h₄ why => exact .unarmed h₁ h₂ h₃ h₄ why
      | armed ha call =>
        cases ha with
        | made h₁ h₂ h₃ h₄ => exact .armed (.made h₁ h₂ h₃ h₄) call
        | found h₁ h₂ h₃ h₄ h₅ h₆ => exact .armed (.found h₁ h₂ h₃ h₄ h₅ h₆) call
    obtain ⟨hmem, hsaved, hfail, hslot⟩ := @ensureWcPatSlot_progress cpu s₀.pat calls _ hprogress' c
    generalize ensureWcPatSlot cpu { s with hasArrays := true } = r at hmem hsaved hfail hslot
    obtain ⟨ok, s₁⟩ := r
    have hmem₁ : s₁.memory = s.memory := hmem
    have hsaved₁ : s₁.saved = s.saved := hsaved
    have hlev₁ : Levelled {t | t ∈ s₀.memory.supply} own' s₁ :=
      ⟨hmem₁ ▸ hlev.nodup, hmem₁ ▸ hlev.pageOk, hmem₁ ▸ hlev.apart, hmem₁ ▸ hlev.leads⟩
    have hreplay₁ : ∀ t i, t ∉ s₀.memory.supply →
        replay s₁.saved s₁.memory.mem t i = s₀.memory.mem t i := by
      rw [hmem₁, hsaved₁]
      exact hreplay
    cases ok with
    | false => exact ⟨⟨own', hle, hlev₁⟩, hreplay₁, hfail rfl⟩
    | true =>
      refine (wcRange_walked c hc hlev₁ (hle _ _ htop)).imp id ?_
      rintro s' ⟨⟨g, own'', hle', hlev', hk⟩, hsaved'⟩
      refine ⟨⟨own'', fun t l h => hle' t l (hle t l h), hlev'⟩, fun t i ht => ?_, ?_⟩
      · exact (hk.replay t i ht).trans (hreplay₁ t i ht)
      · exact .armed ((hslot rfl).range hc hk.same hsaved') ⟨c, by simp, hc⟩

theorem setFbWcs_midway {own : Nat → Option Nat} {s₀ : State}
    (htop : own (tableOf cpu.cr3) = some (levels cpu)) (more : List FbCall) :
    ∀ (calls : List FbCall) (s : State), Midway cpu own s₀ calls s →
      (setFbWcs cpu s more).Ensures True (Midway cpu own s₀ (calls ++ more)) := by
  unfold setFbWcs
  induction more with
  | nil =>
    intro calls s h
    rw [List.append_nil]
    exact h
  | cons c more ih =>
    intro calls s h
    rw [List.foldlM_cons]
    refine (efiPtSetFbWc_midway htop h c).bind fun s₁ h₁ => ?_
    have := ih (calls ++ [c]) s₁ h₁
    rwa [List.append_assoc] at this

end Cycle

/-! ## The restore -/

theorem foldl_write (saved : List SavedPte) (s : State) :
    saved.foldl (fun s p => s.write p.table p.index p.val) s =
      s.setMemory { s.memory with mem := replay saved s.memory.mem } := by
  induction saved generalizing s with
  | nil => rfl
  | cons p saved ih =>
    rw [List.foldl_cons, ih]
    rfl

/-- What a cycle leaves of the state it began in. -/
structure Restored (s₀ s : State) : Prop where
  tables : ∀ t i, t ∉ s₀.memory.supply → s.memory.mem t i = s₀.memory.mem t i
  pat : s.pat = s₀.pat
  idle : Idle s

section Restore

variable {cpu : Cpu} {own : Nat → Option Nat} {s₀ s : State} {calls : List FbCall}

theorem Midway.start (hidle : Idle s₀) (htables : FirmwareTables cpu own s₀.memory)
    (hsupply : SupplyOk PageOk s₀.memory.supply) : Midway cpu own s₀ [] s₀ := by
  refine ⟨⟨own, fun _ _ h => h, hsupply.nodup, fun p hp => ⟨hsupply.pageOk p hp, hp⟩,
    htables.apart, fun t l ht i hi hp hleaf => ?_⟩, fun t i _ => ?_, ?_⟩
  · obtain ⟨l', hl, hown⟩ := htables.leads t l ht i hi hp hleaf
    exact ⟨l', hl, hown, fun hin => absurd hin (htables.apart t l ht)⟩
  · rw [hidle.saved]
    rfl
  · exact .unarmed hidle.wcPatIndex hidle.patModified rfl hidle.saved
      (Or.inr (Or.inr fun _ h => absurd h List.not_mem_nil))

/-- There is nothing to undo. -/
theorem Midway.restore_nothing (h : Midway cpu own s₀ calls s) (hsaved : s.saved = [])
    (hmodified : s.patModified = false) :
    (efiPtRestore s).memory = s.memory ∧ (efiPtRestore s).pat = s₀.pat ∧
      (Idle (efiPtRestore s) ↔ ¬ LeavesIndex cpu s₀.pat calls) := by
  unfold efiPtRestore
  rw [if_pos ⟨hsaved, hmodified⟩]
  cases h.progress with
  | unarmed hindex _ hpat _ why =>
    refine ⟨rfl, hpat, fun _ => ?_, fun _ => ⟨hsaved, rfl, hmodified, hindex⟩⟩
    rintro ⟨hcpu, hslot, ⟨c, hc, hne⟩, -⟩
    rcases why with h | h | h
    · rw [h] at hcpu
      cases hcpu
    · rw [h] at hslot
      cases hslot
    · exact hne (h c hc)
  | armed ha call =>
    cases ha with
    | made _ hmod =>
      rw [hmodified] at hmod
      cases hmod
    | found hindex _ hpat hcpu hslot hiff =>
      refine ⟨rfl, hpat, fun hidle => ?_, fun hnot => ?_⟩
      · have hnone : s.wcPatIndex = none := hidle.wcPatIndex
        rw [hnone] at hindex
        cases hindex
      · exact absurd ⟨hcpu, hslot, call, hiff.mp hsaved⟩ hnot

/-- Something is undone. -/
theorem Midway.restore_something (h : Midway cpu own s₀ calls s)
    (hsome : ¬ (s.saved = [] ∧ s.patModified = false)) :
    (efiPtRestore s).memory.mem = EfiPt.replay s.saved s.memory.mem ∧ (efiPtRestore s).pat = s₀.pat ∧
      Idle (efiPtRestore s) ∧ ¬ LeavesIndex cpu s₀.pat calls := by
  unfold efiPtRestore
  rw [if_neg hsome, foldl_write]
  cases h.progress with
  | unarmed _ hmodified _ hsaved => exact absurd ⟨hsaved, hmodified⟩ hsome
  | armed ha call =>
    cases ha with
    | made _ hmodified hold why =>
      have hmod : (s.setMemory { s.memory with mem := EfiPt.replay s.saved s.memory.mem }).patModified = true :=
        hmodified
      dsimp only
      rw [if_pos hmod]
      refine ⟨rfl, hold, ⟨rfl, rfl, rfl, rfl⟩, ?_⟩
      rintro ⟨-, hslot, -⟩
      rw [why] at hslot
      cases hslot
    | found _ hmodified hpat _ _ hiff =>
      have hmod : ¬ (s.setMemory
          { s.memory with mem := EfiPt.replay s.saved s.memory.mem }).patModified = true := by
        show ¬ s.patModified = true
        rw [hmodified]
        decide
      dsimp only
      rw [if_neg hmod]
      refine ⟨rfl, hpat, ⟨rfl, rfl, rfl, rfl⟩, ?_⟩
      rintro ⟨-, -, -, hall⟩
      exact hsome ⟨hiff.mpr hall, hmodified⟩

theorem supply_efiPtRestore (s : State) : (efiPtRestore s).memory.supply = s.memory.supply := by
  unfold efiPtRestore
  split
  · rfl
  · rw [foldl_write]
    dsimp only
    split
    all_goals rfl

/-- With the tables as they were, the next cycle can begin. -/
theorem Midway.again (h : Midway cpu own s₀ calls s) (htables : FirmwareTables cpu own s₀.memory)
    (hrestored : ∀ t i, t ∉ s₀.memory.supply → (efiPtRestore s).memory.mem t i = s₀.memory.mem t i) :
    FirmwareTables cpu own (efiPtRestore s).memory ∧
      SupplyOk PageOk (efiPtRestore s).memory.supply := by
  obtain ⟨own', -, hlev⟩ := h.tables
  rw [supply_efiPtRestore]
  refine ⟨⟨htables.top, fun t lvl ht => ?_, fun t lvl ht i hi => ?_⟩, hlev.nodup,
    fun p hp => (hlev.pageOk p hp).1⟩
  · rw [supply_efiPtRestore]
    exact fun hin => htables.apart t lvl ht (hlev.pageOk t hin).2
  · rw [hrestored t i (htables.apart t lvl ht)]
    exact htables.leads t lvl ht i hi

/-- **Firmware page tables are restored.**  After any calls, a restore takes every table that
`ext_mem_alloc` has not returned, and the PAT, back to what they were; the module is as it was at
first, so that the next cycle can begin, unless the calls have done nothing but find a slot. -/
theorem efiPtRestore_restores (hidle : Idle s₀) (htables : FirmwareTables cpu own s₀.memory)
    (hsupply : SupplyOk PageOk s₀.memory.supply) (calls : List FbCall) :
    (setFbWcs cpu s₀ calls).Ensures True fun s =>
      (∀ t i, t ∉ s₀.memory.supply → (efiPtRestore s).memory.mem t i = s₀.memory.mem t i) ∧
      (efiPtRestore s).pat = s₀.pat ∧
      (FirmwareTables cpu own (efiPtRestore s).memory ∧
        SupplyOk PageOk (efiPtRestore s).memory.supply) ∧
      (Restored s₀ (efiPtRestore s) ↔ ¬ LeavesIndex cpu s₀.pat calls) := by
  refine (setFbWcs_midway htables.top calls [] s₀ (Midway.start hidle htables hsupply)).imp id ?_
  intro s h
  rw [List.nil_append] at h
  by_cases hnothing : s.saved = [] ∧ s.patModified = false
  · obtain ⟨hmem, hpat, hiff⟩ := h.restore_nothing hnothing.1 hnothing.2
    have htab : ∀ t i, t ∉ s₀.memory.supply → (efiPtRestore s).memory.mem t i = s₀.memory.mem t i := by
      intro t i ht
      rw [hmem, ← h.replay t i ht, hnothing.1]
      rfl
    exact ⟨htab, hpat, h.again htables htab, fun hr => hiff.mp hr.idle,
      fun hn => ⟨htab, hpat, hiff.mpr hn⟩⟩
  · obtain ⟨hmem, hpat, hi, hn⟩ := h.restore_something hnothing
    have htab : ∀ t i, t ∉ s₀.memory.supply → (efiPtRestore s).memory.mem t i = s₀.memory.mem t i := by
      intro t i ht
      rw [hmem, h.replay t i ht]
    exact ⟨htab, hpat, h.again htables htab, fun _ => hn, fun _ => ⟨htab, hpat, hi⟩⟩

/-- Firmware tables that map nothing, and three pages to come. -/
def emptyTables (pat : BitVec 64) : State :=
  ⟨⟨fun _ _ => 0, [0x2000, 0x3000, 0x4000]⟩, pat, [], false, 0, false, none, false⟩

def fourLevels : Cpu := ⟨0x1000, false, true, true⟩

/-- A slot is made and one page mapped through three new tables. -/
theorem efiPtRestore_restores_page :
    (setFbWcs fourLevels (emptyTables 0) [⟨0x200000, 0x1000⟩]).Ensures True fun s =>
      Restored (emptyTables 0) (efiPtRestore s) := by
  have hidle : Idle (emptyTables 0) := ⟨rfl, rfl, rfl, rfl⟩
  have htables : FirmwareTables fourLevels (fun t => if t = 0x1000 then some 4 else none)
      (emptyTables 0).memory := by
    refine ⟨rfl, fun t lvl ht => ?_, fun _ _ _ _ _ hp => absurd BitVec.zero_and hp⟩
    split at ht
    · next h =>
      rw [h]
      decide
    · cases ht
  have hsupply : SupplyOk PageOk (emptyTables 0).memory.supply := by
    refine ⟨by decide, fun p hp => ?_⟩
    have hmem : p ∈ [0x2000, 0x3000, 0x4000] := hp
    simp only [List.mem_cons, List.not_mem_nil, or_false] at hmem
    rcases hmem with rfl | rfl | rfl
    all_goals exact ⟨by decide, by decide⟩
  have hnot : ¬ LeavesIndex fourLevels (emptyTables 0).pat [⟨0x200000, 0x1000⟩] := by
    rintro ⟨-, hslot, -⟩
    rw [show wcSlot (emptyTables 0).pat = none by decide] at hslot
    cases hslot
  -- the run is not to be evaluated
  generalize [(⟨0x200000, 0x1000⟩ : FbCall)] = calls at hnot ⊢
  have hrun := efiPtRestore_restores hidle htables hsupply calls
  exact hrun.imp (fun _ => trivial) fun s h => h.2.2.2.mpr hnot

/-- A call whose range overflows, with a slot in the PAT: the slot's number stays. -/
theorem efiPtRestore_leaves_index :
    ∃ s, setFbWcs fourLevels (emptyTables 0x01) [⟨2 ^ 64 - 1, 2⟩] = .ok s ∧
      (efiPtRestore s).wcPatIndex = some 0 ∧ ¬ Restored (emptyTables 0x01) (efiPtRestore s) := by
  have hslot : wcSlot 0x01 = some 0 := by decide
  have hnone : ((checkedAdd (2 ^ 64 - 1) 2).bind fun top => alignUp top 0x1000) = none := by
    rw [checkedAdd_eq_none_iff.mpr (by omega)]
    rfl
  have hrun : setFbWcs fourLevels (emptyTables 0x01) [⟨2 ^ 64 - 1, 2⟩] =
      .ok { emptyTables 0x01 with hasArrays := true, wcPatIndex := some 0 } := by
    show (efiPtSetFbWc fourLevels (emptyTables 0x01) (2 ^ 64 - 1) 2 >>= fun s => pure s) = _
    rw [bind_pure]
    unfold efiPtSetFbWc ensureWcPatSlot
    simp only [emptyTables, fourLevels, hslot]
    unfold wcRange
    rw [hnone]
    rfl
  refine ⟨_, hrun, rfl, fun h => ?_⟩
  cases h.idle.wcPatIndex

end Restore

end Limine.EfiPt
