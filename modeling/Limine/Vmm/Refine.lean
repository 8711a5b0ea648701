import Limine.Vmm.PageTable
import Limine.Vmm.AddressSpace

/-!
# The tables in memory as trees of slots

`Format` is what the macros of an architecture have to do with the entries its `map_page` writes;
`Rep` relates the memory to trees of slots.  Over it `get_next_level` adds an empty table or splits
a leaf without changing any translation, and a `map_page` that goes down level by level and writes
one entry changes the translation of one page.
-/

namespace Limine.Vmm

open Limine.Lib

/-- What `map_page` is asked for, beside the addresses. -/
structure Attr where
  write : Bool
  noexec : Bool
  fb : Bool
deriving DecidableEq, Repr

structure Leaf where
  phys : Nat
  attr : Attr
deriving DecidableEq, Repr

/-- The entries of an architecture, and what its macros make of them. -/
structure Format (A : Encoding) where
  /-- the entry `map_page` writes for a page of a level -/
  leafEntry : Nat → Leaf → PtEntry
  /-- the flags `map_page` is given -/
  flagsOf : Attr → PtEntry
  /-- the pages `map_page` may be asked for -/
  LeafOk : Nat → Leaf → Prop
  /-- the addresses a table may have -/
  PageOk : Nat → Prop
  /-- the leaves that `get_next_level` reads back right -/
  Splits : Nat → Leaf → Prop
  maxLevel_le : A.maxLevel ≤ 5
  isTable_zero : ∀ k, A.isTable (k + 1) 0 = false
  isLarge_zero : A.isLarge 0 = false
  isTable_table : ∀ k q, PageOk q → A.isTable (k + 1) (A.pteNew q A.tableFlags) = true
  pteAddr_table : ∀ q, PageOk q → A.pteAddr (A.pteNew q A.tableFlags) = q
  isTable_leaf : ∀ k l, LeafOk (k + 1) l → A.isTable (k + 1) (leafEntry (k + 1) l) = false
  isLarge_leaf : ∀ k l, LeafOk (k + 1) l → A.isLarge (leafEntry (k + 1) l) = true
  pteAddr_leaf : ∀ k l, LeafOk (k + 1) l → Splits (k + 1) l →
    A.pteAddr (leafEntry (k + 1) l) = l.phys
  toVmmFlags_leaf : ∀ k l, LeafOk (k + 1) l → Splits (k + 1) l →
    A.toVmmFlags (leafEntry (k + 1) l) = flagsOf l.attr
  lt_maxLevel : ∀ k l, LeafOk k l → k < A.maxLevel
  aligned : ∀ k l, LeafOk k l → pageBytes k ∣ l.phys
  leafOk_split : ∀ k l d i, LeafOk k l → d < k → i < pageBytes k → pageBytes d ∣ i →
    LeafOk d ⟨l.phys + i, l.attr⟩

variable {A : Encoding} (F : Format A)

/-- The entry of a slot of level `k`. -/
def Format.encode (k : Nat) : Slot Leaf → PtEntry
  | .empty => 0
  | .table q => A.pteNew q A.tableFlags
  | .leaf l => F.leafEntry k l

/-- The memory `s` holds the trees `G`. -/
structure Rep (T : Trees) (s : Memory) (G : Tables Leaf) (own : Owner) : Prop where
  wf : T.Wf G own
  entry : ∀ p k x i, own p = some (k, x) → i < 512 → s.mem p i = F.encode k (G p i)
  leafOk : ∀ p k x i l, own p = some (k, x) → i < 512 → G p i = .leaf l → F.LeafOk k l
  pageOk : ∀ p x, own p = some x → F.PageOk p
  fresh : ∀ p ∈ s.supply, own p = none ∧ F.PageOk p
  nodup : s.supply.Nodup

variable {F} {T : Trees} {s : Memory} {G : Tables Leaf} {own : Owner}

/-! ## Writes -/

theorem Rep.addTable (h : Rep F T s G own) {k w p q : Nat} {ps : List Nat} (hw : T.Has w)
    (hp : T.tableAt G (k + 1) w = some p) (hs : s.supply = q :: ps) :
    Rep F T
      ⟨fun t i => if t = p ∧ i = slotIndex (k + 1) w then A.pteNew q A.tableFlags
        else if t = q then 0 else s.mem t i, ps⟩
      (Trees.addTable G k w p q) (Trees.addOwner own k w q) := by
  obtain ⟨hq, hqok⟩ := h.fresh q (by rw [hs]; exact List.mem_cons_self)
  have hnd : q ∉ ps ∧ ps.Nodup := List.nodup_cons.mp (hs ▸ h.nodup)
  have hown := h.wf.own_tableAt hw hp
  have hpq : q ≠ p := by
    rintro rfl
    rw [hown] at hq
    cases hq
  -- the slots of the pages there were
  have hslot : ∀ t x, Trees.addOwner own k w q t = some x → t ≠ q → own t = some x := by
    intro t x ht htq
    unfold Trees.addOwner at ht
    rwa [if_neg htq] at ht
  refine ⟨(Trees.addTable_spec h.wf hw hp hq).1, fun t j x i ht hi => ?_, fun t j x i l ht hi hl => ?_,
    fun t x ht => ?_, fun t ht => ?_, hnd.2⟩
  · dsimp only
    by_cases hti : t = p ∧ i = slotIndex (k + 1) w
    · rw [if_pos hti, hti.1, hti.2]
      unfold Trees.addTable
      rw [Tables.set_same]
      rfl
    rw [if_neg hti]
    unfold Trees.addTable
    rw [Tables.set_of_ne _ _ hti]
    split
    · next htq =>
      rw [htq, Tables.clearPage_same]
      rfl
    · next htq =>
      rw [Tables.clearPage_of_ne _ _ htq]
      exact h.entry t j x i (hslot t _ ht htq) hi
  · unfold Trees.addTable at hl
    by_cases hti : t = p ∧ i = slotIndex (k + 1) w
    · rw [hti.1, hti.2, Tables.set_same] at hl
      cases hl
    rw [Tables.set_of_ne _ _ hti] at hl
    by_cases htq : t = q
    · rw [htq, Tables.clearPage_same] at hl
      cases hl
    rw [Tables.clearPage_of_ne _ _ htq] at hl
    exact h.leafOk t j x i l (hslot t _ ht htq) hi hl
  · by_cases htq : t = q
    · exact htq ▸ hqok
    · exact h.pageOk t x (hslot t _ ht htq)
  · obtain ⟨h1, h2⟩ := h.fresh t (by rw [hs]; exact List.mem_cons_of_mem _ ht)
    refine ⟨?_, h2⟩
    unfold Trees.addOwner
    rw [if_neg fun htq : t = q => hnd.1 (htq ▸ ht), h1]

theorem Rep.setLeaf (h : Rep F T s G own) {d w p : Nat} {l : Leaf} (hw : T.Has w)
    (hp : T.tableAt G d w = some p) (hl : F.LeafOk d l) :
    Rep F T
      { s with mem := fun t i => if t = p ∧ i = slotIndex d w then F.leafEntry d l else s.mem t i }
      (G.set p (slotIndex d w) (.leaf l)) own := by
  have hown := h.wf.own_tableAt hw hp
  refine ⟨(Trees.setLeaf_spec h.wf hw hp l).1, fun t j x i ht hi => ?_, fun t j x i l' ht hi hl' => ?_,
    h.pageOk, h.fresh, h.nodup⟩
  · dsimp only
    by_cases hti : t = p ∧ i = slotIndex d w
    · rw [if_pos hti, hti.1, hti.2, Tables.set_same]
      rw [hti.1, hown] at ht
      obtain ⟨rfl, -⟩ := Prod.mk.inj (Option.some.inj ht)
      rfl
    · rw [if_neg hti, Tables.set_of_ne _ _ hti]
      exact h.entry t j x i ht hi
  · by_cases hti : t = p ∧ i = slotIndex d w
    · rw [hti.1, hti.2, Tables.set_same] at hl'
      rw [hti.1, hown] at ht
      obtain ⟨rfl, -⟩ := Prod.mk.inj (Option.some.inj ht)
      obtain rfl : l = l' := by injection hl'
      exact hl
    · rw [Tables.set_of_ne _ _ hti] at hl'
      exact h.leafOk t j x i l' ht hi hl'

/-! ## `get_next_level` -/

/-- The entry `get_next_level` looks at. -/
theorem Rep.entry_path (h : Rep F T s G own) {j w p : Nat} (hw : T.Has w)
    (hp : T.tableAt G j w = some p) :
    s.mem p (slotIndex j w) = F.encode j (G p (slotIndex j w)) :=
  h.entry p j _ _ (h.wf.own_tableAt hw hp) (slotIndex_lt j w)

/-- The leaves that walks meet are such as `map_page` writes. -/
theorem Rep.walk_leafOk (h : Rep F T s G own) {w k : Nat} {l : Leaf} (hw : T.Has w)
    (hl : T.walk G w = some (k, l)) : F.LeafOk k l := by
  have main : ∀ j p, own p = some (j, slotOf (j + 1) w) → G.walk w j p = some (k, l) → F.LeafOk k l := by
    intro j
    induction j with
    | zero =>
      intro p hp hl
      rw [Tables.walk] at hl
      split at hl
      · next hs =>
        obtain ⟨rfl, rfl⟩ := Prod.mk.inj (Option.some.inj hl)
        exact h.leafOk p _ _ _ _ hp (slotIndex_lt _ _) hs
      · cases hl
    | succ j ih =>
      intro p hp hl
      rw [Tables.walk] at hl
      split at hl
      · next hs =>
        obtain ⟨rfl, rfl⟩ := Prod.mk.inj (Option.some.inj hl)
        exact h.leafOk p _ _ _ _ hp (slotIndex_lt _ _) hs
      · next q hs =>
        obtain ⟨j', hj', hq⟩ := h.wf.table p _ _ _ _ hp (slotIndex_lt _ _) hs
        obtain rfl : j = j' := by omega
        rw [← slotOf_eq] at hq
        exact ih q hq hl
      · cases hl
  exact main T.levels (T.top w) (h.wf.root _ hw) hl

/-- Where `map_page` makes no leaf above level `d` there is none. -/
theorem Rep.clear (h : Rep F T s G own) {d w : Nat} (hd : ∀ k l, F.LeafOk k l → k ≤ d) (hw : T.Has w) :
    T.Clear G d w := by
  have main : ∀ j p, own p = some (j, slotOf (j + 1) w) → G.Clear d w j p := by
    intro j
    induction j with
    | zero => intro p _; trivial
    | succ j ih =>
      intro p hp hlt
      cases hs : G p (slotIndex (j + 1) w) with
      | empty => trivial
      | leaf l => exact absurd (hd _ l (h.leafOk p _ _ _ _ hp (slotIndex_lt _ _) hs)) (Nat.not_le.mpr hlt)
      | table q =>
        obtain ⟨j', hj', hq⟩ := h.wf.table p _ _ _ _ hp (slotIndex_lt _ _) hs
        obtain rfl : j = j' := by omega
        rw [← slotOf_eq] at hq
        exact ih q hq
  exact main T.levels (T.top w) (h.wf.root _ hw)

/-- A table that is there. -/
theorem getNextLevel_table (h : Rep F T s G own) {k w p q : Nat} (hw : T.Has w)
    (hp : T.tableAt G (k + 1) w = some p) (hs : G p (slotIndex (k + 1) w) = .table q) (mapPage : MapPage)
    (virt : Nat) (desired : PageSize) :
    getNextLevel A mapPage p virt desired (k + 1) (slotIndex (k + 1) w) s = .ok (q, s) := by
  have he := h.entry_path hw hp
  obtain ⟨k', hk, hown⟩ := h.wf.table p _ _ _ _ (h.wf.own_tableAt hw hp) (slotIndex_lt _ _) hs
  have hq := h.pageOk q _ hown
  rw [hs] at he
  unfold getNextLevel
  show (if A.isTable (k + 1) (s.mem p (slotIndex (k + 1) w)) = true then _ else _ : VmmM Nat) s = _
  rw [he]
  unfold Format.encode
  rw [F.isTable_table k q hq, if_pos rfl, F.pteAddr_table q hq]
  rfl

/-- Below no leaf: the next table is there or is made. -/
theorem getNextLevel_clear (h : Rep F T s G own) {k w p : Nat} (hw : T.Has w)
    (hp : T.tableAt G (k + 1) w = some p) (hleaf : ∀ l, G p (slotIndex (k + 1) w) ≠ .leaf l)
    (mapPage : MapPage) (virt : Nat) (desired : PageSize) :
    Runs (getNextLevel A mapPage p virt desired (k + 1) (slotIndex (k + 1) w)) s fun q s' =>
      ∃ G' own', Rep F T s' G' own' ∧ Trees.OwnerLe own own' ∧ T.tableAt G' k w = some q ∧
        T.Quiet G G' := by
  have he := h.entry_path hw hp
  cases hs : G p (slotIndex (k + 1) w) with
  | leaf l => exact absurd hs (hleaf l)
  | table q =>
    unfold Runs
    rw [getNextLevel_table h hw hp hs mapPage virt desired]
    exact ⟨G, own, h, Trees.OwnerLe.refl own, Tables.tableAt_step hp hs, Trees.Quiet.refl G⟩
  | empty =>
    rw [hs] at he
    unfold getNextLevel
    refine Runs.readEntry ?_
    rw [he]
    unfold Format.encode
    dsimp only
    rw [F.isTable_zero, F.isLarge_zero]
    refine Runs.extMemAlloc fun q ps hsup => Runs.writeEntry (Runs.pure ?_)
    have hq := (h.fresh q (by rw [hsup]; exact List.mem_cons_self)).1
    refine ⟨_, _, h.addTable hw hp hsup, Trees.addOwner_le hq _ _,
      (((Trees.addTable_spec h.wf hw hp hq).2 w hw).1 rfl).2.2, Trees.addTable_quiet h.wf hw hp hq hs⟩

/-! ## Going down and writing one entry -/

/-- Go down to the table of the level of `desired`, from the table of level `k`. -/
def descend (A : Encoding) (mapPage : MapPage) (virt : Nat) (desired : PageSize) (idx : Nat → Nat) :
    Nat → Nat → VmmM Nat
  | 0, table => pure table
  | k + 1, table =>
    if k + 1 ≤ desired.level then pure table
    else do
      let next ← getNextLevel A mapPage table virt desired (k + 1) (idx (k + 1))
      descend A mapPage virt desired idx k next

/-- What the `map_page` of every architecture comes to: `idx` gives the index of each level. -/
def mapAt (A : Encoding) (mapPage : MapPage) (virt : Nat) (desired : PageSize) (idx : Nat → Nat)
    (levels top : Nat) (entry : PtEntry) : VmmM Unit := do
  let table ← descend A mapPage virt desired idx levels top
  writeEntry table (idx desired.level) entry

theorem not_leaf_of_clear {d k w p : Nat} (hp : T.tableAt G (k + 1) w = some p) (hd : d < k + 1)
    (hc : T.Clear G d w) (l : Leaf) : G p (slotIndex (k + 1) w) ≠ .leaf l := by
  intro hl
  rw [Trees.clear_iff hp] at hc
  have := hc hd
  rw [hl] at this
  exact this

theorem descend_clear (mapPage : MapPage) (virt : Nat) {desired : PageSize} {idx : Nat → Nat} {w : Nat}
    (hw : T.Has w) : ∀ (k p : Nat) (s : Memory) (G : Tables Leaf) (own : Owner), Rep F T s G own →
    T.tableAt G k w = some p → desired.level ≤ k → T.Clear G desired.level w →
    (∀ j, j ≤ k → idx j = slotIndex j w) →
    Runs (descend A mapPage virt desired idx k p) s fun q s' =>
      ∃ G' own', Rep F T s' G' own' ∧ Trees.OwnerLe own own' ∧ T.tableAt G' desired.level w = some q ∧
        T.Quiet G G' := by
  intro k
  induction k with
  | zero =>
    intro p s G own h hp hd _ _
    rw [← Nat.le_zero.mp hd] at hp
    exact Runs.pure ⟨G, own, h, Trees.OwnerLe.refl own, hp, Trees.Quiet.refl G⟩
  | succ k ih =>
    intro p s G own h hp hd hc hidx
    unfold descend
    split
    · next hle =>
      rw [show k + 1 = desired.level by omega] at hp
      exact Runs.pure ⟨G, own, h, Trees.OwnerLe.refl own, hp, Trees.Quiet.refl G⟩
    · next hlt =>
      rw [hidx (k + 1) (Nat.le_refl _)]
      refine (getNextLevel_clear h hw hp (not_leaf_of_clear hp (by omega) hc) mapPage virt desired).bind ?_
      rintro q s' ⟨G', own', h', hle, hq, hquiet⟩
      refine (ih q s' G' own' h' hq (by omega) ((hquiet w hw).2.1 _ hc) fun j hj => hidx j (by omega)).imp ?_
      rintro r s'' ⟨G'', own'', h'', hle', hr, hquiet'⟩
      exact ⟨G'', own'', h'', hle.trans hle', hr, hquiet.trans hquiet'⟩

/-- The page of level `d` at `w` is mapped to `l`; other walks, and the paths above the page, stay. -/
def MapsLeaf (T : Trees) (d w : Nat) (l : Leaf) (G G' : Tables Leaf) : Prop :=
  ∀ w', T.Has w' →
    T.walk G' w' = (if slotOf d w' = slotOf d w then some (d, l) else T.walk G w') ∧
    (T.Clear G d w' → T.Clear G' d w') ∧
    ∀ j q, d ≤ j → T.tableAt G j w' = some q → T.tableAt G' j w' = some q

theorem mapAt_clear (mapPage : MapPage) (virt : Nat) {desired : PageSize} {idx : Nat → Nat} {w : Nat}
    {l : Leaf} (hw : T.Has w) (h : Rep F T s G own) (hd : desired.level ≤ T.levels)
    (hl : F.LeafOk desired.level l) (hc : T.Clear G desired.level w)
    (hidx : ∀ j, j ≤ T.levels → idx j = slotIndex j w) :
    Runs (mapAt A mapPage virt desired idx T.levels (T.top w) (F.leafEntry desired.level l)) s fun _ s' =>
      ∃ G' own', Rep F T s' G' own' ∧ Trees.OwnerLe own own' ∧ MapsLeaf T desired.level w l G G' := by
  have htop : T.tableAt G T.levels w = some (T.top w) := Tables.tableAt_self _ _ _ _
  refine (descend_clear mapPage virt hw _ _ s G own h htop hd hc hidx).bind ?_
  rintro q s' ⟨G', own', h', hle, hq, hquiet⟩
  rw [hidx _ hd]
  refine Runs.wroteEntry ⟨_, own', h'.setLeaf hw hq hl, hle, fun w' hw' => ?_⟩
  obtain ⟨h1, h2, h3⟩ := (Trees.setLeaf_spec h'.wf hw hq l).2 w' hw'
  obtain ⟨g1, g2, g3⟩ := hquiet w' hw'
  rw [h1, g1]
  exact ⟨rfl, fun hc' => h2 (g2 _ hc'), fun j r hj hr => (h3 j hj).trans (g3 j r hr)⟩

/-! ## Splitting a leaf -/

/-- The translation of an address: the physical address and how it is mapped. -/
def view (T : Trees) (G : Tables Leaf) (w : Nat) : Option Leaf :=
  (T.walk G w).map fun r => ⟨r.2.phys + w % pageBytes r.1, r.2.attr⟩

theorem view_congr {G' : Tables Leaf} {w : Nat} (h : T.walk G' w = T.walk G w) :
    view T G' w = view T G w := by
  unfold view
  rw [h]

/-- Every translation stays, and so does every leaf that does not have `w₀`. -/
def Retains (T : Trees) (w₀ : Nat) (G G' : Tables Leaf) : Prop :=
  ∀ w, T.Has w → view T G' w = view T G w ∧
    ∀ k l, T.walk G w = some (k, l) → slotOf k w ≠ slotOf k w₀ → T.walk G' w = some (k, l)

theorem Retains.of_quiet {G' : Tables Leaf} (h : T.Quiet G G') (w₀ : Nat) : Retains T w₀ G G' :=
  fun w hw => ⟨view_congr (h w hw).1, fun _ _ hl _ => (h w hw).1.trans hl⟩

theorem Retains.trans {w₀ : Nat} {G' G'' : Tables Leaf} (h : Retains T w₀ G G') (h' : Retains T w₀ G' G'') :
    Retains T w₀ G G'' :=
  fun w hw => ⟨(h' w hw).1.trans (h w hw).1, fun k l hl hne => (h' w hw).2 k l ((h w hw).2 k l hl hne) hne⟩

/-- A leaf above level `d` on the path of `w` can be split. -/
def Readable (F : Format A) (T : Trees) (G : Tables Leaf) (d w : Nat) : Prop :=
  ∀ k l, T.walk G w = some (k, l) → d < k → F.Splits k l

theorem Readable.of_clear {d w : Nat} (hd : d ≤ T.levels) (hc : T.Clear G d w) : Readable F T G d w := by
  intro k l hl hk
  have := Tables.level_le_of_clear hc hl hd
  omega

/-- `map_page` of size `desired` does its work where no larger page is in the way. -/
def MapsClear (F : Format A) (V : AddressSpace) (root : Nat → Nat) (mapPage : MapPage)
    (desired : PageSize) : Prop :=
  ∀ s G own virt l, Rep F (V.trees root) s G own → V.Valid virt → F.LeafOk desired.level l →
    (V.trees root).Clear G desired.level (V.key virt) →
    Runs (mapPage virt l.phys (F.flagsOf l.attr) desired) s fun _ s' =>
      ∃ G' own', Rep F (V.trees root) s' G' own' ∧ Trees.OwnerLe own own' ∧
        MapsLeaf (V.trees root) desired.level (V.key virt) l G G'

theorem pageSizes_getD {k : Nat} (hk : k < 5) : pageSizes.getD k 0 = pageBytes k := by
  match k, hk with
  | 0, _ => rfl
  | 1, _ => rfl
  | 2, _ => rfl
  | 3, _ => rfl
  | 4, _ => rfl

/-- The leaf `l` of level `k + 1` at slot number `n` once its first `i` bytes are pages of level `d`. -/
def splitWalk (d k n i : Nat) (l : Leaf) (w : Nat) : Option (Nat × Leaf) :=
  if w < n * pageBytes (k + 1) + i then
    some (d, ⟨l.phys + (w - n * pageBytes (k + 1)) / pageBytes d * pageBytes d, l.attr⟩)
  else none

/-- One more page of the split. -/
theorem splitWalk_step {d k n i : Nat} (hd : d < k + 1) (hdvd : pageBytes d ∣ i) (l : Leaf) {w : Nat} (hw : slotOf (k + 1) w = n) :
    (if slotOf d w = slotOf d (n * pageBytes (k + 1) + i) then some (d, ⟨l.phys + i, l.attr⟩)
      else splitWalk d k n i l w) = splitWalk d k n (i + pageBytes d) l w := by
  have h0 := pageBytes_pos d
  obtain ⟨hlo, -⟩ := slotOf_eq_iff.mp hw
  have hbase : pageBytes d ∣ n * pageBytes (k + 1) + i :=
    Nat.dvd_add (Nat.dvd_mul_left_of_dvd (pageBytes_dvd (by omega)) n) hdvd
  have hstart : slotOf d (n * pageBytes (k + 1) + i) * pageBytes d = n * pageBytes (k + 1) + i :=
    Nat.div_mul_cancel hbase
  have hiff := @slotOf_eq_iff d w (slotOf d (n * pageBytes (k + 1) + i))
  rw [hstart] at hiff
  unfold splitWalk
  by_cases hin : slotOf d w = slotOf d (n * pageBytes (k + 1) + i)
  · have hmem := hiff.mp hin
    rw [if_pos hin, if_pos (by omega)]
    have hdiv : (w - n * pageBytes (k + 1)) / pageBytes d * pageBytes d = i := by
      have h1 : i ≤ w - n * pageBytes (k + 1) := by omega
      have h2 : w - n * pageBytes (k + 1) < i + pageBytes d := by omega
      obtain ⟨c, hc⟩ := hdvd
      rw [hc, Nat.mul_comm (pageBytes d)] at h1 h2
      rw [Nat.div_eq_of_lt_le h1 (by rwa [Nat.succ_mul]), hc, Nat.mul_comm]
    rw [hdiv]
  · have hmem := mt hiff.mpr hin
    rw [if_neg hin]
    by_cases hlt : w < n * pageBytes (k + 1) + i
    · rw [if_pos hlt, if_pos (by omega)]
    · rw [if_neg hlt, if_neg (by omega)]

/-- A whole split translates as the leaf did. -/
theorem view_splitWalk {d k n : Nat} (hd : d < k + 1) (l : Leaf) {w : Nat} (hw : slotOf (k + 1) w = n) :
    (splitWalk d k n (pageBytes (k + 1)) l w).map
      (fun r => (⟨r.2.phys + w % pageBytes r.1, r.2.attr⟩ : Leaf)) =
      some ⟨l.phys + w % pageBytes (k + 1), l.attr⟩ := by
  obtain ⟨hlo, hhi⟩ := slotOf_eq_iff.mp hw
  unfold splitWalk
  rw [if_pos hhi, Option.map_some]
  have h1 : w % pageBytes (k + 1) = w - n * pageBytes (k + 1) := by
    have := Nat.div_add_mod' w (pageBytes (k + 1))
    rw [show w / pageBytes (k + 1) = n from hw] at this
    omega
  have h2 : w % pageBytes d = (w - n * pageBytes (k + 1)) % pageBytes d := by
    rw [← h1, Nat.mod_mod_of_dvd _ (pageBytes_dvd (by omega))]
  have h3 := Nat.div_add_mod' (w - n * pageBytes (k + 1)) (pageBytes d)
  dsimp only
  rw [h1, h2, Nat.add_assoc, h3]

variable {V : AddressSpace} {root : Nat → Nat}

/-- What has been done of a split: slot `n` of level `k + 1` has table `q` and its first `i` bytes
are mapped again. -/
structure Splitting (F : Format A) (T : Trees) (G : Tables Leaf) (own : Owner) (d k n q : Nat) (l : Leaf)
    (i : Nat) (s' : Memory) (G' : Tables Leaf) (own' : Owner) : Prop where
  rep : Rep F T s' G' own'
  own : Trees.OwnerLe own own'
  inside : ∀ w, T.Has w → slotOf (k + 1) w = n → T.Clear G' d w ∧ T.tableAt G' k w = some q ∧
    T.walk G' w = splitWalk d k n i l w
  outside : ∀ w, T.Has w → slotOf (k + 1) w ≠ n → T.walk G' w = T.walk G w

theorem Splitting.step {d k n q i : Nat} {l : Leaf} {s' s'' : Memory} {G' G'' : Tables Leaf}
    {own' own'' : Owner} (h : Splitting F T G own d k n q l i s' G' own') (hd : d < k + 1)
    (hi : i < pageBytes (k + 1)) (hdvd : pageBytes d ∣ i) (hrep : Rep F T s'' G'' own'')
    (hown : Trees.OwnerLe own' own'')
    (hmap : MapsLeaf T d (n * pageBytes (k + 1) + i) ⟨l.phys + i, l.attr⟩ G' G'') :
    Splitting F T G own d k n q l (i + pageBytes d) s'' G'' own'' := by
  refine ⟨hrep, h.own.trans hown, fun w hw hin => ?_, fun w hw hout => ?_⟩
  · obtain ⟨h1, h2, h3⟩ := h.inside w hw hin
    obtain ⟨g1, g2, g3⟩ := hmap w hw
    rw [h3, splitWalk_step hd hdvd l hin] at g1
    exact ⟨g2 h1, g3 k q (by omega) h2, g1⟩
  · obtain ⟨g1, -, -⟩ := hmap w hw
    rw [g1, if_neg, h.outside w hw hout]
    exact fun heq => hout ((slotOf_congr (by omega) heq).trans (slotOf_add hi n))

/-- **Splitting a leaf** changes no translation. -/
theorem getNextLevel_split {k virt p : Nat} {desired : PageSize} {l : Leaf} {mapPage : MapPage}
    (h : Rep F (V.trees root) s G own) (hv : V.Valid virt)
    (hp : (V.trees root).tableAt G (k + 1) (V.key virt) = some p)
    (hs : G p (slotIndex (k + 1) (V.key virt)) = .leaf l) (hd : desired.level < k + 1)
    (hsplit : F.Splits (k + 1) l) (hmap : MapsClear F V root mapPage desired) :
    Runs (getNextLevel A mapPage p virt desired (k + 1) (slotIndex (k + 1) (V.key virt))) s fun q s' =>
      ∃ G' own', Rep F (V.trees root) s' G' own' ∧ Trees.OwnerLe own own' ∧
        (V.trees root).tableAt G' k (V.key virt) = some q ∧
        (V.trees root).Clear G' desired.level (V.key virt) ∧
        Retains (V.trees root) (V.key virt) G G' := by
  have hw : (V.trees root).Has (V.key virt) := hv.has root
  have hk : k + 1 ≤ V.levels := Trees.tableAt_le hp
  have hlok := h.leafOk p _ _ _ l (h.wf.own_tableAt hw hp) (slotIndex_lt _ _) hs
  have hmax := F.lt_maxLevel _ _ hlok
  have hmax5 := F.maxLevel_le
  have he := h.entry_path hw hp
  rw [hs] at he
  unfold getNextLevel
  refine Runs.readEntry ?_
  rw [he]
  unfold Format.encode
  dsimp only
  rw [F.isTable_leaf k l hlok, F.isLarge_leaf k l hlok, F.pteAddr_leaf k l hlok hsplit,
    F.toVmmFlags_leaf k l hlok hsplit, pageSizes_getD (by omega), pageSizes_getD (by omega),
    if_neg (by simp), if_pos rfl, if_neg (by omega), if_neg (by omega)]
  have haligned : l.phys &&& (pageBytes (k + 1) - 1) = 0 := by
    unfold pageBytes
    rw [Nat.and_two_pow_sub_one_eq_mod]
    exact Nat.mod_eq_zero_of_dvd (F.aligned _ _ hlok)
  rw [if_neg (not_not.mpr haligned)]
  refine Runs.extMemAlloc fun q ps hsup => Runs.writeEntry ?_
  have hq := (h.fresh q (by rw [hsup]; exact List.mem_cons_self)).1
  obtain ⟨hwf, hadd⟩ := Trees.addTable_spec h.wf hw hp hq
  have hdvd : pageBytes desired.level ∣ pageBytes (k + 1) := pageBytes_dvd (by omega)
  have hpage := fun i (hi : i < pageBytes (k + 1)) => AddressSpace.key_page hk hv hi
  -- the loop maps the bytes of the leaf again, page by page
  have hloop := @forStep_runs _ _
    (fun i => mapPage (alignDown virt (pageBytes (k + 1)) + i) (l.phys + i) (F.flagsOf l.attr) desired)
    (fun i s' => ∃ G' own', Splitting F (V.trees root) G own desired.level k
      (slotOf (k + 1) (V.key virt)) q l i s' G' own')
    (pageBytes_pos desired.level) hdvd (by
      rintro i s' hi hid ⟨G', own', hsp⟩
      obtain ⟨hvi, hkey⟩ := hpage i hi
      have hclear : (V.trees root).Clear G' desired.level (V.key (alignDown virt (pageBytes (k + 1)) + i)) :=
        (hsp.inside _ (hvi.has root) (by
          show slotOf (k + 1) (V.key (virt / pageBytes (k + 1) * pageBytes (k + 1) + i)) = _
          rw [hkey, slotOf_add hi])).1
      refine (hmap s' G' own' _ ⟨l.phys + i, l.attr⟩ hsp.rep hvi
        (F.leafOk_split _ _ _ _ hlok hd hi hid) hclear).imp ?_
      rintro _ s'' ⟨G'', own'', hrep, hown, hml⟩
      refine ⟨G'', own'', hsp.step hd hi hid hrep hown ?_⟩
      rw [← hkey]
      exact hml)
    (pageBytes (k + 1) / pageBytes desired.level + 1) 0
    ⟨fun t i => if t = p ∧ i = slotIndex (k + 1) (V.key virt) then A.pteNew q A.tableFlags
      else if t = q then 0 else s.mem t i, ps⟩
    (Nat.dvd_zero _) (Nat.zero_le _) (Nat.lt_succ_self _) (by
      refine ⟨_, _, h.addTable hw hp hsup, Trees.addOwner_le hq _ _, fun w' hw' hin => ?_, fun w' hw' hout => ?_⟩
      · obtain ⟨h1, h2, h3⟩ := (hadd w' hw').1 hin
        refine ⟨h2 _, h3, h1.trans ?_⟩
        unfold splitWalk
        rw [if_neg (by have := (slotOf_eq_iff.mp hin).1; omega)]
      · exact ((hadd w' hw').2.1 hout).1)
  refine hloop.bind fun _ s' ⟨G', own', hsp⟩ => Runs.pure ⟨G', own', hsp.rep, hsp.own, ?_, ?_, fun w' hw' => ?_⟩
  · exact (hsp.inside _ hw rfl).2.1
  · exact (hsp.inside _ hw rfl).1
  · by_cases hin : slotOf (k + 1) w' = slotOf (k + 1) (V.key virt)
    · have hpw : (V.trees root).tableAt G (k + 1) w' = some p :=
        (Trees.tableAt_congr hk (slotOf_succ_congr hin).1).trans hp
      have hleaf := (Trees.walk_slot hpw).2 l ((slotOf_succ_congr hin).2 ▸ hs)
      unfold view
      refine ⟨?_, fun j l' hl' hne => ?_⟩
      · rw [(hsp.inside w' hw' hin).2.2, view_splitWalk hd l hin, hleaf]
        rfl
      · -- the leaf there was has the address
        rw [hleaf] at hl'
        obtain ⟨rfl, -⟩ := Prod.mk.inj (Option.some.inj hl')
        exact absurd hin hne
    · exact ⟨view_congr (hsp.outside w' hw' hin), fun _ _ hl' _ => (hsp.outside w' hw' hin).trans hl'⟩

/-! ## A leaf that cannot be split -/

theorem getNextLevel_panics (h : Rep F T s G own) {k w p virt : Nat} {l : Leaf} {desired : PageSize}
    (hw : T.Has w) (hp : T.tableAt G (k + 1) w = some p) (hs : G p (slotIndex (k + 1) w) = .leaf l)
    (hd : desired.level < A.maxLevel)
    (hbad : A.pteAddr (F.leafEntry (k + 1) l) &&& (pageBytes (k + 1) - 1) ≠ 0) (mapPage : MapPage) :
    getNextLevel A mapPage p virt desired (k + 1) (slotIndex (k + 1) w) s = .error unexpectedAddress := by
  have hlok := h.leafOk p _ _ _ l (h.wf.own_tableAt hw hp) (slotIndex_lt _ _) hs
  have hmax := F.lt_maxLevel _ _ hlok
  have he := h.entry_path hw hp
  rw [hs] at he
  unfold getNextLevel
  show (if A.isTable (k + 1) (s.mem p (slotIndex (k + 1) w)) = true then _ else _ : VmmM Nat) s = _
  rw [he]
  unfold Format.encode
  rw [F.isTable_leaf k l hlok, if_neg Bool.false_ne_true, F.isLarge_leaf k l hlok, if_pos rfl,
    if_neg (by omega), if_neg (by omega)]
  dsimp only
  rw [pageSizes_getD (Nat.lt_of_lt_of_le hmax F.maxLevel_le), if_pos hbad]

/-- The way down ends in a panic at such a leaf. -/
theorem descend_panics (h : Rep F T s G own) {w virt j : Nat} {l : Leaf} {desired : PageSize}
    {idx : Nat → Nat} (hw : T.Has w) (hd : desired.level < A.maxLevel) (hj : desired.level < j)
    (hl : T.walk G w = some (j, l)) (hbad : A.pteAddr (F.leafEntry j l) &&& (pageBytes j - 1) ≠ 0)
    (mapPage : MapPage) : ∀ k p, T.tableAt G k w = some p → j ≤ k →
      (∀ i, i ≤ k → idx i = slotIndex i w) →
      descend A mapPage virt desired idx k p s = .error unexpectedAddress := by
  intro k
  induction k with
  | zero => intro p _ hjk _; omega
  | succ k ih =>
    intro p hp hjk hidx
    have hwalk := Trees.walk_eq hp
    rw [hl, Tables.walk] at hwalk
    unfold descend
    rw [if_neg (by omega), hidx (k + 1) (Nat.le_refl _)]
    cases hs : G p (slotIndex (k + 1) w) with
    | leaf l' =>
      rw [hs] at hwalk
      obtain ⟨rfl, rfl⟩ := Prod.mk.inj (Option.some.inj hwalk)
      exact bind_eq_error (getNextLevel_panics h hw hp hs hd hbad mapPage) _
    | table q =>
      rw [hs] at hwalk
      have hq := Tables.tableAt_step hp hs
      have hle := Tables.walk_level_le hwalk.symm
      have hrest := ih q hq hle fun i hi => hidx i (by omega)
      have hget := getNextLevel_table h hw hp hs mapPage virt desired
      show (getNextLevel A mapPage p virt desired (k + 1) (slotIndex (k + 1) w) s >>= _) = _
      rw [hget]
      exact hrest
    | empty =>
      rw [hs] at hwalk
      cases hwalk

/-! ## `map_page` -/

/-- A step on the way down: the table is made if need be, and no translation changes. -/
theorem getNextLevel_spec {k virt p : Nat} {desired : PageSize} {mapPage : MapPage}
    (h : Rep F (V.trees root) s G own) (hv : V.Valid virt)
    (hp : (V.trees root).tableAt G (k + 1) (V.key virt) = some p) (hd : desired.level < k + 1)
    (hread : Readable F (V.trees root) G desired.level (V.key virt))
    (hmap : MapsClear F V root mapPage desired) :
    Runs (getNextLevel A mapPage p virt desired (k + 1) (slotIndex (k + 1) (V.key virt))) s fun q s' =>
      ∃ G' own', Rep F (V.trees root) s' G' own' ∧ Trees.OwnerLe own own' ∧
        (V.trees root).tableAt G' k (V.key virt) = some q ∧
        Readable F (V.trees root) G' desired.level (V.key virt) ∧
        Retains (V.trees root) (V.key virt) G G' := by
  have hw : (V.trees root).Has (V.key virt) := hv.has root
  cases hs : G p (slotIndex (k + 1) (V.key virt)) with
  | leaf l =>
    have hsplit := hread (k + 1) l ((Trees.walk_slot hp).2 l hs) hd
    refine (getNextLevel_split h hv hp hs hd hsplit hmap).imp ?_
    rintro q s' ⟨G', own', hrep, hown, hq, hc, hview⟩
    have hk : k + 1 ≤ V.levels := Trees.tableAt_le hp
    exact ⟨G', own', hrep, hown, hq,
      Readable.of_clear (show desired.level ≤ V.levels by omega) hc, hview⟩
  | table _ =>
    refine (getNextLevel_clear h hw hp (by rw [hs]; simp) mapPage virt desired).imp ?_
    rintro q s' ⟨G', own', hrep, hown, hq, hquiet⟩
    refine ⟨G', own', hrep, hown, hq, fun j l hl => ?_, Retains.of_quiet hquiet _⟩
    rw [(hquiet _ hw).1] at hl
    exact hread j l hl
  | empty =>
    refine (getNextLevel_clear h hw hp (by rw [hs]; simp) mapPage virt desired).imp ?_
    rintro q s' ⟨G', own', hrep, hown, hq, hquiet⟩
    refine ⟨G', own', hrep, hown, hq, fun j l hl => ?_, Retains.of_quiet hquiet _⟩
    rw [(hquiet _ hw).1] at hl
    exact hread j l hl

theorem descend_spec {virt : Nat} {desired : PageSize} {mapPage : MapPage} {idx : Nat → Nat}
    (hv : V.Valid virt) (hmap : MapsClear F V root mapPage desired) :
    ∀ (k p : Nat) (s : Memory) (G : Tables Leaf) (own : Owner), Rep F (V.trees root) s G own →
    (V.trees root).tableAt G k (V.key virt) = some p → desired.level ≤ k →
    Readable F (V.trees root) G desired.level (V.key virt) →
    (∀ j, j ≤ k → idx j = slotIndex j (V.key virt)) →
    Runs (descend A mapPage virt desired idx k p) s fun q s' =>
      ∃ G' own', Rep F (V.trees root) s' G' own' ∧ Trees.OwnerLe own own' ∧
        (V.trees root).tableAt G' desired.level (V.key virt) = some q ∧
        Retains (V.trees root) (V.key virt) G G' := by
  intro k
  induction k with
  | zero =>
    intro p s G own h hp hd _ _
    rw [← Nat.le_zero.mp hd] at hp
    exact Runs.pure ⟨G, own, h, Trees.OwnerLe.refl own, hp, Retains.of_quiet (Trees.Quiet.refl G) _⟩
  | succ k ih =>
    intro p s G own h hp hd hread hidx
    unfold descend
    split
    · next hle =>
      rw [show k + 1 = desired.level by omega] at hp
      exact Runs.pure ⟨G, own, h, Trees.OwnerLe.refl own, hp, Retains.of_quiet (Trees.Quiet.refl G) _⟩
    · next hlt =>
      rw [hidx (k + 1) (Nat.le_refl _)]
      refine (getNextLevel_spec h hv hp (by omega) hread hmap).bind ?_
      rintro q s' ⟨G', own', h', hle, hq, hread', hview⟩
      refine (ih q s' G' own' h' hq (by omega) hread' fun j hj => hidx j (by omega)).imp ?_
      rintro r s'' ⟨G'', own'', h'', hle', hr, hview'⟩
      exact ⟨G'', own'', h'', hle.trans hle', hr, hview.trans hview'⟩

/-- The page of level `d` at `w` is a leaf `l`; everything else is translated as before, and other
leaves are as they were. -/
def MapsView (T : Trees) (d w : Nat) (l : Leaf) (G G' : Tables Leaf) : Prop :=
  ∀ w', T.Has w' →
    (slotOf d w' = slotOf d w → T.walk G' w' = some (d, l)) ∧
    (slotOf d w' ≠ slotOf d w → view T G' w' = view T G w' ∧
      ∀ k l', T.walk G w' = some (k, l') → slotOf k w' ≠ slotOf k w → T.walk G' w' = some (k, l'))

theorem MapsView.view_eq {d w : Nat} {l : Leaf} {G' : Tables Leaf} (h : MapsView T d w l G G') {w' : Nat}
    (hw' : T.Has w') : view T G' w' =
      if slotOf d w' = slotOf d w then some ⟨l.phys + w' % pageBytes d, l.attr⟩ else view T G w' := by
  split
  · next hin =>
    unfold view
    rw [(h w' hw').1 hin]
    rfl
  · next hout => exact ((h w' hw').2 hout).1

/-- **`map_page`** translates one page, whatever was there. -/
theorem mapAt_spec {virt : Nat} {desired : PageSize} {mapPage : MapPage} {idx : Nat → Nat} {l : Leaf}
    (h : Rep F (V.trees root) s G own) (hv : V.Valid virt) (hd : desired.level ≤ V.levels)
    (hl : F.LeafOk desired.level l) (hread : Readable F (V.trees root) G desired.level (V.key virt))
    (hmap : MapsClear F V root mapPage desired)
    (hidx : ∀ j, j ≤ V.levels → idx j = slotIndex j (V.key virt)) :
    Runs (mapAt A mapPage virt desired idx V.levels (root (V.tree virt)) (F.leafEntry desired.level l)) s
      fun _ s' => ∃ G' own', Rep F (V.trees root) s' G' own' ∧
        MapsView (V.trees root) desired.level (V.key virt) l G G' := by
  have hw : (V.trees root).Has (V.key virt) := hv.has root
  have htop : (V.trees root).tableAt G V.levels (V.key virt) = some (root (V.tree virt)) := by
    rw [← AddressSpace.slotOf_key]
    exact Tables.tableAt_self _ _ _ _
  refine (descend_spec hv hmap _ _ s G own h htop hd hread hidx).bind ?_
  rintro q s' ⟨G', own', h', hle, hq, hview⟩
  rw [hidx _ hd]
  refine Runs.wroteEntry ⟨_, own', h'.setLeaf hw hq hl, fun w' hw' => ?_⟩
  have hset := ((Trees.setLeaf_spec h'.wf hw hq l).2 w' hw').1
  refine ⟨fun hin => hset.trans (if_pos hin), fun hout => ?_⟩
  have hkeep := hset.trans (if_neg hout)
  exact ⟨(view_congr hkeep).trans (hview w' hw').1,
    fun k l' hl' hne => hkeep.trans ((hview w' hw').2 k l' hl' hne)⟩

theorem mapAt_mapsClear {virt : Nat} {desired : PageSize} (mapPage : MapPage) {idx : Nat → Nat} {l : Leaf}
    (h : Rep F (V.trees root) s G own) (hv : V.Valid virt) (hd : desired.level ≤ V.levels)
    (hl : F.LeafOk desired.level l) (hc : (V.trees root).Clear G desired.level (V.key virt))
    (hidx : ∀ j, j ≤ V.levels → idx j = slotIndex j (V.key virt)) :
    Runs (mapAt A mapPage virt desired idx V.levels (root (V.tree virt)) (F.leafEntry desired.level l)) s
      fun _ s' => ∃ G' own', Rep F (V.trees root) s' G' own' ∧ Trees.OwnerLe own own' ∧
        MapsLeaf (V.trees root) desired.level (V.key virt) l G G' := by
  have hrun := mapAt_clear mapPage virt (hv.has root) h hd hl hc hidx
  have htop : (V.trees root).top (V.key virt) = root (V.tree virt) := by
    rw [← AddressSpace.slotOf_key]
    rfl
  rwa [htop] at hrun

/-! ## `map_pages` -/

/-- The translation of a virtual address; addresses outside the halves have none. -/
def translation (V : AddressSpace) (root : Nat → Nat) (G : Tables Leaf) (v : Nat) : Option Leaf :=
  if V.Valid v then view (V.trees root) G (V.key v) else none

/-- `[virt, virt + count)` is mapped to `[phys, phys + count)`, over what `f` translates. -/
def overlay (virt phys count : Nat) (attr : Attr) (f : Nat → Option Leaf) (v : Nat) : Option Leaf :=
  if virt ≤ v ∧ v < virt + count then some ⟨phys + (v - virt), attr⟩ else f v

/-- The trees after a call translate as `f` says. -/
def Translates (F : Format A) (V : AddressSpace) (root : Nat → Nat) (f : Nat → Option Leaf) (s : Memory) :
    Prop :=
  ∃ G own, Rep F (V.trees root) s G own ∧ ∀ v, translation V root G v = f v

/-- `map_page` overlays one page, if it is one `ask` allows. -/
def MapsPage (F : Format A) (V : AddressSpace) (root : Nat → Nat) (ask : PageSize → Leaf → Prop)
    (mapPage : MapPage) (size : PageSize) : Prop :=
  ∀ s f virt l, Translates F V root f s → V.Valid virt → pageBytes size.level ∣ virt → ask size l →
    Runs (mapPage virt l.phys (F.flagsOf l.attr) size) s fun _ s' =>
      Translates F V root (overlay virt l.phys (pageBytes size.level) l.attr f) s'

/-- A view that changes by one page is an overlay. -/
theorem MapsView.translation {d virt : Nat} {l : Leaf} {G' : Tables Leaf} (hd : d ≤ V.levels)
    (hv : V.Valid virt) (hdvd : pageBytes d ∣ virt)
    (h : MapsView (V.trees root) d (V.key virt) l G G') (v : Nat) :
    translation V root G' v = overlay virt l.phys (pageBytes d) l.attr (translation V root G) v := by
  unfold Vmm.translation overlay
  dsimp only
  by_cases hvalid : V.Valid v
  · have hiff := AddressSpace.slotOf_key_eq_iff hd hvalid hv hdvd
    rw [if_pos hvalid, if_pos hvalid, h.view_eq (hvalid.has root)]
    by_cases hin : virt ≤ v ∧ v < virt + pageBytes d
    · rw [if_pos (hiff.mpr hin), if_pos hin]
      have hkey := (AddressSpace.key_page hd hv (by omega : v - virt < pageBytes d)).2
      rw [Nat.div_mul_cancel hdvd, Nat.add_sub_cancel' hin.1] at hkey
      rw [hkey, Nat.mul_comm, Nat.mul_add_mod, Nat.mod_eq_of_lt (by omega)]
    · rw [if_neg fun hs => hin (hiff.mp hs), if_neg hin]
  · have hout : ¬ (virt ≤ v ∧ v < virt + pageBytes d) := by
      intro hin
      have hpage := (AddressSpace.key_page hd hv (by omega : v - virt < pageBytes d)).1
      rw [Nat.div_mul_cancel hdvd, Nat.add_sub_cancel' hin.1] at hpage
      exact hvalid hpage
    rw [if_neg hvalid, if_neg hout, if_neg hvalid]

theorem overlay_append (virt phys n i : Nat) (attr : Attr) (f : Nat → Option Leaf) :
    overlay (virt + i) (phys + i) n attr (overlay virt phys i attr f) =
      overlay virt phys (i + n) attr f := by
  funext v
  unfold overlay
  by_cases h1 : virt + i ≤ v ∧ v < virt + i + n
  · rw [if_pos h1, if_pos (by omega)]
    congr 2
    omega
  · rw [if_neg h1]
    by_cases h2 : virt ≤ v ∧ v < virt + i
    · rw [if_pos h2, if_pos (by omega)]
    · rw [if_neg h2, if_neg (by omega)]

theorem overlay_zero (virt phys : Nat) (attr : Attr) (f : Nat → Option Leaf) :
    overlay virt phys 0 attr f = f := by
  funext v
  exact if_neg (by omega)

/-- What mapping a range does to the trees: leaves it does not touch stay. -/
structure MapsRange (V : AddressSpace) (root : Nat → Nat) (virt phys count : Nat) (attr : Attr)
    (G G' : Tables Leaf) : Prop where
  translation_eq : translation V root G' = overlay virt phys count attr (translation V root G)
  walk_eq : ∀ v k l, V.Valid v → (V.trees root).walk G (V.key v) = some (k, l) →
    (∀ v', virt ≤ v' → v' < virt + count → slotOf k (V.key v) ≠ slotOf k (V.key v')) →
    (V.trees root).walk G' (V.key v) = some (k, l)

theorem MapsView.mapsRange {d virt : Nat} {l : Leaf} {G' : Tables Leaf} (hd : d ≤ V.levels)
    (hv : V.Valid virt) (hdvd : pageBytes d ∣ virt)
    (h : MapsView (V.trees root) d (V.key virt) l G G') :
    MapsRange V root virt l.phys (pageBytes d) l.attr G G' := by
  refine ⟨funext fun v => h.translation hd hv hdvd v, fun v k l' hvalid hl' hfar => ?_⟩
  have hpos := pageBytes_pos d
  refine ((h _ (hvalid.has root)).2 fun hin => ?_).2 k l' hl' (hfar virt (Nat.le_refl _) (by omega))
  obtain ⟨h1, h2⟩ := (AddressSpace.slotOf_key_eq_iff hd hvalid hv hdvd).mp hin
  exact hfar v h1 h2 rfl

theorem MapsRange.of_quiet {G' : Tables Leaf} (h : (V.trees root).Quiet G G') (virt phys : Nat) (attr : Attr) :
    MapsRange V root virt phys 0 attr G G' := by
  refine ⟨funext fun v => ?_, fun v k l hvalid hl _ => (h _ (hvalid.has root)).1.trans hl⟩
  rw [overlay_zero]
  unfold Vmm.translation
  split
  · next hvalid => exact view_congr (h _ (hvalid.has root)).1
  · rfl

theorem MapsRange.append {virt phys i n : Nat} {attr : Attr} {G' G'' : Tables Leaf}
    (h : MapsRange V root virt phys i attr G G')
    (h' : MapsRange V root (virt + i) (phys + i) n attr G' G'') :
    MapsRange V root virt phys (i + n) attr G G'' := by
  refine ⟨?_, fun v k l hvalid hl hfar => ?_⟩
  · rw [h'.translation_eq, h.translation_eq, overlay_append]
  · refine h'.walk_eq v k l hvalid (h.walk_eq v k l hvalid hl fun v' h1 h2 => hfar v' h1 (by omega))
      fun v' h1 h2 => hfar v' (by omega) (by omega)

theorem MapsRange.translates {virt phys count : Nat} {attr : Attr} {G' : Tables Leaf} {own' : Owner}
    {s' : Memory} {f : Nat → Option Leaf} (h : MapsRange V root virt phys count attr G G')
    (hrep' : Rep F (V.trees root) s' G' own') (hf : ∀ v, Vmm.translation V root G v = f v) :
    Translates F V root (overlay virt phys count attr f) s' := by
  refine ⟨G', own', hrep', fun v => ?_⟩
  rw [h.translation_eq]
  unfold overlay
  rw [hf]

theorem dvd_of_and_eq_zero {n k : Nat} (h : n &&& (2 ^ k - 1) = 0) : 2 ^ k ∣ n := by
  rw [Nat.and_two_pow_sub_one_eq_mod] at h
  exact Nat.dvd_of_mod_eq_zero h

/-- What a call of `map_pages` may ask for. -/
structure CallOk (V : AddressSpace) (ask : PageSize → Leaf → Prop) (largePagePhysOk : Nat → Bool)
    (virt phys count : Nat) (attr : Attr) : Prop where
  virt_aligned : 0x1000 ∣ virt
  phys_aligned : 0x1000 ∣ phys
  count_aligned : 0x1000 ∣ count
  valid : ∀ i, i < count → V.Valid (virt + i)
  ask : ∀ size i, size.level ≤ 2 → i + pageBytes size.level ≤ count →
    pageBytes size.level ∣ phys + i → (size ≠ .size4KiB → largePagePhysOk (phys + i) = true) →
    ask size ⟨phys + i, attr⟩

theorem mapPagesLoop_spec {ask : PageSize → Leaf → Prop} {largePagePhysOk : Nat → Bool}
    {mapPage : MapPage} (hmap : ∀ size, size.level ≤ 2 → MapsPage F V root ask mapPage size)
    {virt phys count : Nat} {attr : Attr} (hok : CallOk V ask largePagePhysOk virt phys count attr)
    (f : Nat → Option Leaf) :
    ∀ fuel i s, 0x1000 ∣ i → i ≤ count → (count - i) / 0x1000 < fuel →
      Translates F V root (overlay virt phys i attr f) s →
      Runs (mapPagesLoop largePagePhysOk mapPage virt phys (F.flagsOf attr) count fuel i) s fun _ s' =>
        Translates F V root (overlay virt phys count attr f) s' := by
  intro fuel
  induction fuel with
  | zero => intro i s _ _ hf _; exact absurd hf (Nat.not_lt_zero _)
  | succ fuel ih =>
    intro i s hi hle hf ht
    -- one page of any size, and the rest
    have turn : ∀ size : PageSize, size.level ≤ 2 → i < count → i + pageBytes size.level ≤ count →
        pageBytes size.level ∣ virt + i → pageBytes size.level ∣ phys + i →
        (size ≠ .size4KiB → largePagePhysOk (phys + i) = true) →
        Runs (mapPage (virt + i) (phys + i) (F.flagsOf attr) size >>= fun _ =>
          mapPagesLoop largePagePhysOk mapPage virt phys (F.flagsOf attr) count fuel
            (i + pageBytes size.level)) s fun _ s' =>
              Translates F V root (overlay virt phys count attr f) s' := by
      intro size hsize hlt hfit hdv hdp hlarge
      refine (hmap size hsize s _ (virt + i) ⟨phys + i, attr⟩ ht (hok.valid i hlt) hdv
        (hok.ask size i hsize hfit hdp hlarge)).bind fun _ s' ht' => ?_
      rw [overlay_append] at ht'
      have h4k : 0x1000 ∣ pageBytes size.level := @pageBytes_dvd 0 size.level (Nat.zero_le _)
      have hpos := pageBytes_pos size.level
      refine ih _ s' (Nat.dvd_add hi h4k) hfit ?_ ht'
      have := Nat.le_of_dvd hpos h4k
      omega
    unfold mapPagesLoop
    split
    · next hlt =>
      have hv := hok.virt_aligned
      have hp := hok.phys_aligned
      have hc := hok.count_aligned
      split
      · next h =>
        obtain ⟨h1, h2, h3, h4⟩ := h
        exact turn .size1GiB (Nat.le_refl 2) hlt (show i + 0x40000000 ≤ count by omega)
          (@dvd_of_and_eq_zero _ 30 h3) (@dvd_of_and_eq_zero _ 30 h2) fun _ => h1
      split
      · next h =>
        obtain ⟨h1, h2, h3, h4⟩ := h
        exact turn .size2MiB (Nat.le_succ 1) hlt (show i + 0x200000 ≤ count by omega)
          (@dvd_of_and_eq_zero _ 21 h3) (@dvd_of_and_eq_zero _ 21 h2) fun _ => h1
      · exact turn .size4KiB (Nat.zero_le 2) hlt (show i + 0x1000 ≤ count by omega)
          (show 0x1000 ∣ virt + i by omega) (show 0x1000 ∣ phys + i by omega) fun h => absurd rfl h
    · next hge =>
      obtain rfl : i = count := by omega
      exact Runs.pure ht

/-- **`map_pages`** overlays its range. -/
theorem mapPages_spec {ask : PageSize → Leaf → Prop} {largePagePhysOk : Nat → Bool} {mapPage : MapPage}
    (hmap : ∀ size, size.level ≤ 2 → MapsPage F V root ask mapPage size)
    {virt phys count : Nat} {attr : Attr} (hok : CallOk V ask largePagePhysOk virt phys count attr)
    {f : Nat → Option Leaf} (ht : Translates F V root f s) :
    Runs (mapPages largePagePhysOk mapPage virt phys (F.flagsOf attr) count) s fun _ s' =>
      Translates F V root (overlay virt phys count attr f) s' := by
  have h1 := hok.virt_aligned
  have h2 := hok.phys_aligned
  have h3 := hok.count_aligned
  unfold mapPages
  rw [if_neg (by omega)]
  refine mapPagesLoop_spec hmap hok f _ 0 s (Nat.dvd_zero _) (Nat.zero_le _) (Nat.lt_succ_self _) ?_
  rwa [overlay_zero]

end Limine.Vmm
