import Limine.Lib.BitWindow
import Limine.Vmm.Refine
import Mathlib.Data.List.Induction
import Mathlib.Data.Nat.Bitwise

/-!
# Hardware walks and runs of `map_pages`

The walk of every architecture goes from table to table; what it makes of an entry is the
architecture's `step`.  A run is a list of `map_pages` calls on a new pagemap, and what it should
come to is `lastCall`: the last call whose range has the address.
-/

namespace Limine.Vmm

open Limine.Lib

/-! ## The hardware -/

inductive Fault
  | notMapped
  /-- the access or dirty bit is clear -/
  | access
  /-- an entry that the architecture reserves or calls malformed -/
  | reserved
deriving DecidableEq, Repr

/-- What a walk does at an entry: `acc` is what it has gathered from the tables so far. -/
inductive HwStep (σ ρ : Type)
  | fault (f : Fault)
  | next (acc : σ) (table : Nat)
  | done (r : ρ)

variable {σ ρ : Type}

/-- The walk from a table of level `k`; `index` is taken from the virtual address. -/
def hwWalk (step : σ → Nat → PtEntry → HwStep σ ρ) (mem : Nat → Nat → PtEntry) (index : Nat → Nat) :
    Nat → σ → Nat → Except Fault ρ
  | 0, acc, table =>
    match step acc 0 (mem table (index 0)) with
    | .fault f => .error f
    | .next _ _ => .error .reserved
    | .done r => .ok r
  | k + 1, acc, table =>
    match step acc (k + 1) (mem table (index (k + 1))) with
    | .fault f => .error f
    | .next acc table => hwWalk step mem index k acc table
    | .done r => .ok r

variable {A : Encoding} {F : Format A} {T : Trees} {s : Memory} {G : Tables Leaf} {own : Owner}

/-- The hardware sees the trees, if it knows the entries for what they are. -/
theorem hwWalk_eq {step : σ → Nat → PtEntry → HwStep σ ρ} {acc : σ} {res : Nat → Leaf → ρ}
    (hzero : ∀ k, step acc k 0 = .fault .notMapped)
    (htable : ∀ k q, F.PageOk q → step acc (k + 1) (A.pteNew q A.tableFlags) = .next acc q)
    (hleaf : ∀ k l, F.LeafOk k l → step acc k (F.leafEntry k l) = .done (res k l))
    (h : Rep F T s G own) {w : Nat} (hw : T.Has w) {index : Nat → Nat}
    (hidx : ∀ k, k ≤ T.levels → index k = slotIndex k w) :
    hwWalk step s.mem index T.levels acc (T.top w) =
      match T.walk G w with
      | none => .error .notMapped
      | some r => .ok (res r.1 r.2) := by
  have main : ∀ k p, k ≤ T.levels → own p = some (k, slotOf (k + 1) w) →
      hwWalk step s.mem index k acc p =
        match G.walk w k p with
        | none => .error .notMapped
        | some r => .ok (res r.1 r.2) := by
    intro k
    induction k with
    | zero =>
      intro p _ hp
      have he := h.entry p _ _ _ hp (slotIndex_lt 0 w)
      rw [hwWalk, Tables.walk, hidx 0 (Nat.zero_le _), he]
      cases hs : G p (slotIndex 0 w) with
      | empty =>
        unfold Format.encode
        rw [hzero]
      | leaf l =>
        unfold Format.encode
        rw [hleaf 0 l (h.leafOk p _ _ _ l hp (slotIndex_lt 0 w) hs)]
      | table q =>
        obtain ⟨k', hk', -⟩ := h.wf.table p _ _ _ _ hp (slotIndex_lt _ _) hs
        cases hk'
    | succ k ih =>
      intro p hk hp
      have he := h.entry p _ _ _ hp (slotIndex_lt (k + 1) w)
      rw [hwWalk, Tables.walk, hidx (k + 1) hk, he]
      cases hs : G p (slotIndex (k + 1) w) with
      | empty =>
        unfold Format.encode
        rw [hzero]
      | leaf l =>
        unfold Format.encode
        rw [hleaf (k + 1) l (h.leafOk p _ _ _ l hp (slotIndex_lt (k + 1) w) hs)]
      | table q =>
        obtain ⟨k', hk', hq⟩ := h.wf.table p _ _ _ _ hp (slotIndex_lt _ _) hs
        obtain rfl : k = k' := by omega
        rw [← slotOf_eq] at hq
        unfold Format.encode
        rw [htable k q (h.pageOk q _ hq)]
        exact ih q (by omega) hq
  exact main T.levels (T.top w) (Nat.le_refl _) (h.wf.root _ hw)

/-! ## Runs -/

/-- The arguments of a `map_pages` call. -/
structure MapCall where
  virt : Nat
  phys : Nat
  count : Nat
  attr : Attr
deriving DecidableEq, Repr

/-- Two pages, of which the second is mapped again. -/
def overlapCalls (fb : Bool) : List MapCall :=
  [⟨0x200000, 0x6000, 0x2000, ⟨true, false, fb⟩⟩, ⟨0x201000, 0x9000, 0x1000, ⟨false, true, false⟩⟩]

/-- Memory with eight pages to come. -/
def eightPages : Memory :=
  ⟨fun _ _ => 0, [0x1000, 0x2000, 0x3000, 0x4000, 0x5000, 0x6000, 0x7000, 0x8000]⟩

/-- The last call whose range has `v`. -/
def lastCall (calls : List MapCall) (v : Nat) : Option MapCall :=
  calls.reverse.find? fun c => c.virt ≤ v ∧ v < c.virt + c.count

/-- Calls in turn, of `map_pages` or of `map_page`. -/
def mapCalls {C : Type} (call : C → VmmM Unit) : List C → VmmM Unit
  | [] => pure ()
  | c :: cs => do
    call c
    mapCalls call cs

theorem mapCalls_map {C : Type} (call : C → VmmM Unit) {norm : C → C} (h : ∀ c, call c = call (norm c))
    (calls : List C) : mapCalls call calls = mapCalls call (calls.map norm) := by
  induction calls with
  | nil => rfl
  | cons c cs ih =>
    rw [List.map_cons, mapCalls, mapCalls, h c, ih]

/-- What every call keeps, a run keeps. -/
theorem mapCalls_keeps {C : Type} {call : C → VmmM Unit} {inv : Memory → Prop} :
    ∀ (calls : List C) {s s' : Memory},
    (∀ c ∈ calls, ∀ s s', inv s → call c s = .ok ((), s') → inv s') → inv s →
    mapCalls call calls s = .ok ((), s') → inv s' := by
  intro calls
  induction calls with
  | nil =>
    intro s s' _ hinv hrun
    obtain ⟨-, rfl⟩ := Prod.mk.inj (Except.ok.inj hrun)
    exact hinv
  | cons c cs ih =>
    intro s s' hkeep hinv hrun
    obtain ⟨hc, hcs⟩ := List.forall_mem_cons.mp hkeep
    obtain ⟨_, s₁, h1, h2⟩ := bind_eq_ok hrun
    exact ih hcs (hc s s₁ hinv h1) h2

theorem mapCalls_append {C : Type} (call : C → VmmM Unit) (cs ds : List C) :
    mapCalls call (cs ++ ds) = (mapCalls call cs >>= fun _ => mapCalls call ds) := by
  induction cs with
  | nil => rfl
  | cons c cs ih =>
    rw [List.cons_append, mapCalls, mapCalls, ih, bind_assoc]

/-- The calls' overlays, one over the other. -/
def overlays (calls : List MapCall) (f : Nat → Option Leaf) : Nat → Option Leaf :=
  calls.foldl (fun f c => overlay c.virt c.phys c.count c.attr f) f

theorem overlays_eq (calls : List MapCall) (f : Nat → Option Leaf) (v : Nat) :
    overlays calls f v =
      match lastCall calls v with
      | none => f v
      | some c => some ⟨c.phys + (v - c.virt), c.attr⟩ := by
  induction calls using List.reverseRecOn generalizing f with
  | nil => rfl
  | append_singleton cs c ih =>
    unfold overlays lastCall at *
    rw [List.foldl_append, List.reverse_append, List.foldl_cons, List.foldl_nil]
    show overlay _ _ _ _ _ v = match (c :: cs.reverse).find? _ with | none => _ | some c => _
    unfold overlay
    rw [List.find?_cons]
    by_cases hin : c.virt ≤ v ∧ v < c.virt + c.count
    · rw [if_pos hin]
      simp [hin]
    · rw [if_neg hin]
      simp only [hin, decide_false]
      exact ih f

variable {V : AddressSpace} {root : Nat → Nat}

theorem mapCalls_spec {mapPages : MapCall → VmmM Unit} : ∀ (calls : List MapCall) (s : Memory)
    (f : Nat → Option Leaf),
    (∀ c ∈ calls, ∀ s f, Translates F V root f s → Runs (mapPages c) s fun _ s' =>
      Translates F V root (overlay c.virt c.phys c.count c.attr f) s') →
    Translates F V root f s →
    Runs (mapCalls mapPages calls) s fun _ s' => Translates F V root (overlays calls f) s' := by
  intro calls
  induction calls with
  | nil => intro s f _ ht; exact Runs.pure ht
  | cons c cs ih =>
    intro s f hmap ht
    obtain ⟨hc, hcs⟩ := List.forall_mem_cons.mp hmap
    exact (hc s f ht).bind fun _ s' ht' => ih s' _ hcs ht'

/-! ## A new pagemap -/

/-- What `ext_mem_alloc` is going to return. -/
structure SupplyOk (PageOk : Nat → Prop) (supply : List Nat) : Prop where
  nodup : supply.Nodup
  pageOk : ∀ p ∈ supply, PageOk p

/-- The places of the root tables. -/
def rootOwner (V : AddressSpace) (root : Nat → Nat) : Owner := fun p =>
  if p = root 0 then some (V.levels, 0)
  else if V.twoTrees = true ∧ p = root 1 then some (V.levels, 1)
  else none

theorem rootOwner_some {p : Nat} {x : Nat × Nat} (h : rootOwner V root p = some x) :
    ∃ t, t < (V.trees root).count ∧ p = root t := by
  unfold rootOwner at h
  unfold AddressSpace.trees
  split at h
  · next h0 => exact ⟨0, by dsimp only; split <;> omega, h0⟩
  split at h
  · next h1 => exact ⟨1, by rw [if_pos h1.1]; exact Nat.one_lt_two, h1.2⟩
  · cases h

theorem rootOwner_root (hne : V.twoTrees = true → root 0 ≠ root 1) {t : Nat}
    (ht : t < (V.trees root).count) : rootOwner V root (root t) = some (V.levels, t) := by
  unfold AddressSpace.trees at ht
  unfold rootOwner
  dsimp only at ht
  split at ht
  · next htwo =>
    rcases (by omega : t = 0 ∨ t = 1) with rfl | rfl
    · exact if_pos rfl
    · rw [if_neg (hne htwo).symm, if_pos ⟨htwo, rfl⟩]
  · obtain rfl : t = 0 := by omega
    exact if_pos rfl

/-- Empty root tables translate nothing. -/
theorem Translates.start (hne : V.twoTrees = true → root 0 ≠ root 1)
    (hroot : ∀ t, t < (V.trees root).count →
      (∀ i, s.mem (root t) i = 0) ∧ F.PageOk (root t) ∧ root t ∉ s.supply)
    (hs : SupplyOk F.PageOk s.supply) : Translates F V root (fun _ => none) s := by
  have hrep : Rep F (V.trees root) s (fun _ _ => .empty) (rootOwner V root) := by
    constructor
    · exact ⟨fun t ht => rootOwner_root hne ht, fun p k x i q _ _ hq => by cases hq⟩
    · intro p k x i hp _
      obtain ⟨t, ht, rfl⟩ := rootOwner_some hp
      exact (hroot t ht).1 i
    · intro p k x i l _ _ hl
      cases hl
    · intro p x hp
      obtain ⟨t, ht, rfl⟩ := rootOwner_some hp
      exact (hroot t ht).2.1
    · intro p hp
      refine ⟨Option.eq_none_iff_forall_ne_some.mpr fun x hx => ?_, hs.pageOk p hp⟩
      obtain ⟨t, ht, rfl⟩ := rootOwner_some hx
      exact (hroot t ht).2.2 hp
    · exact hs.nodup
  refine ⟨_, _, hrep, fun v => ?_⟩
  unfold translation view Trees.walk
  split
  · rw [Trees.walk_empty (fun _ => rfl)]
    rfl
  · rfl

/-- One tree. -/
theorem Translates.oneRoot (htwo : V.twoTrees = false) (hs : SupplyOk F.PageOk s.supply) {p : Nat}
    {ps : List Nat} (h : s.supply = p :: ps) :
    Translates F V (fun _ => p) (fun _ => none) ⟨fun t i => if t = p then 0 else s.mem t i, ps⟩ := by
  have hnd := List.nodup_cons.mp (h ▸ hs.nodup)
  refine Translates.start (fun h2 => by rw [htwo] at h2; cases h2) (fun t _ => ⟨fun i => if_pos rfl,
    hs.pageOk p (h ▸ List.mem_cons_self), hnd.1⟩) ⟨hnd.2, fun q hq => hs.pageOk q ?_⟩
  rw [h]
  exact List.mem_cons_of_mem _ hq

/-- A tree for each half. -/
theorem Translates.twoRoots (hs : SupplyOk F.PageOk s.supply) {p q : Nat} {ps : List Nat}
    (h : s.supply = p :: q :: ps) :
    Translates F V (fun t => if t = 0 then p else q) (fun _ => none)
      ⟨fun t i => if t = q then 0 else if t = p then 0 else s.mem t i, ps⟩ := by
  have hnd := List.nodup_cons.mp (h ▸ hs.nodup)
  have hnd' := List.nodup_cons.mp hnd.2
  have hmem : ∀ r ∈ q :: ps, F.PageOk r := by
    intro r hr
    refine hs.pageOk r ?_
    rw [h]
    exact List.mem_cons_of_mem _ hr
  refine Translates.start (fun _ hpq => hnd.1 ?_) (fun t _ => ?_)
    ⟨hnd'.2, fun r hr => hmem r (List.mem_cons_of_mem _ hr)⟩
  · rw [if_pos rfl, if_neg Nat.one_ne_zero] at hpq
    exact hpq ▸ List.mem_cons_self
  · dsimp only
    by_cases h0 : t = 0
    · rw [if_pos h0]
      refine ⟨fun i => ?_, hs.pageOk p (h ▸ List.mem_cons_self), fun hp => hnd.1 (List.mem_cons_of_mem _ hp)⟩
      rw [if_pos rfl, ite_self]
    · rw [if_neg h0]
      exact ⟨fun i => if_pos rfl, hmem q List.mem_cons_self, hnd'.1⟩

/-! ## An architecture -/

/-- `map_page` of size `size` goes down and writes one entry, and leaves splits to `rec`. -/
def IsMapAt (F : Format A) (V : AddressSpace) (root : Nat → Nat) (ok : Leaf → Prop) (mapPage rec : MapPage)
    (size : PageSize) : Prop :=
  ∀ virt l, V.Valid virt → ok l → ∃ idx : Nat → Nat,
    (∀ j, j ≤ V.levels → idx j = slotIndex j (V.key virt)) ∧
    mapPage virt l.phys (F.flagsOf l.attr) size =
      mapAt A rec virt size idx V.levels (root (V.tree virt)) (F.leafEntry size.level l)

variable {mapPage rec : MapPage} {size : PageSize}

theorem IsMapAt.mapsClear (h : IsMapAt F V root (F.LeafOk size.level) mapPage rec size)
    (hd : size.level ≤ V.levels) : MapsClear F V root mapPage size := by
  intro s G own virt l hrep hv hl hc
  obtain ⟨idx, hidx, heq⟩ := h virt l hv hl
  rw [heq]
  exact mapAt_mapsClear rec hrep hv hd hl hc hidx

/-- Where the larger leaf in its way can be split, `map_page` maps its page. -/
theorem IsMapAt.mapsView {ok : Leaf → Prop} (h : IsMapAt F V root ok mapPage rec size)
    (hd : size.level ≤ V.levels) (hok : ∀ l, ok l → F.LeafOk size.level l)
    (hrec : MapsClear F V root rec size) (hrep : Rep F (V.trees root) s G own) {virt : Nat} {l : Leaf}
    (hv : V.Valid virt) (hl : ok l) (hread : Readable F (V.trees root) G size.level (V.key virt)) :
    Runs (mapPage virt l.phys (F.flagsOf l.attr) size) s fun _ s' => ∃ G' own',
      Rep F (V.trees root) s' G' own' ∧ MapsView (V.trees root) size.level (V.key virt) l G G' := by
  obtain ⟨idx, hidx, heq⟩ := h virt l hv hl
  rw [heq]
  exact mapAt_spec hrep hv hd (hok l hl) hread hrec hidx

theorem readable_of_splits (hrep : Rep F (V.trees root) s G own) {d virt : Nat} (hv : V.Valid virt)
    (hsplit : ∀ k l, F.LeafOk k l → d < k → F.Splits k l) :
    Readable F (V.trees root) G d (V.key virt) :=
  fun k l hw => hsplit k l (hrep.walk_leafOk (hv.has root) hw)

/-- Calls of `map_page` inside `map_page` meet no leaf to split, so fuel for them is enough. -/
theorem fixMapPage_mapsView {body : MapPage → MapPage}
    (h : ∀ self, IsMapAt F V root (F.LeafOk size.level) (body self) self size) (hd : size.level ≤ V.levels)
    (fuel : Nat) (hrep : Rep F (V.trees root) s G own) {virt : Nat} {l : Leaf} (hv : V.Valid virt)
    (hl : F.LeafOk size.level l) (hread : Readable F (V.trees root) G size.level (V.key virt)) :
    Runs (fixMapPage body (fuel + 2) virt l.phys (F.flagsOf l.attr) size) s fun _ s' => ∃ G' own',
      Rep F (V.trees root) s' G' own' ∧ MapsView (V.trees root) size.level (V.key virt) l G G' :=
  (h _).mapsView hd (fun _ hl => hl) ((h _).mapsClear hd) hrep hv hl hread

/-- Where every larger leaf can be split, `map_page` overlays its page. -/
theorem fixMapPage_mapsPage {body : MapPage → MapPage}
    (h : ∀ self, IsMapAt F V root (F.LeafOk size.level) (body self) self size) (hd : size.level ≤ V.levels)
    (hsplit : ∀ k l, F.LeafOk k l → size.level < k → F.Splits k l) (fuel : Nat) :
    MapsPage F V root (fun size l => F.LeafOk size.level l) (fixMapPage body (fuel + 2)) size := by
  rintro s f virt l ⟨G, own, hrep, hf⟩ hv hdvd hl
  refine (fixMapPage_mapsView h hd fuel hrep hv hl (readable_of_splits hrep hv hsplit)).imp ?_
  rintro _ s' ⟨G', own', hrep', hview⟩
  exact (hview.mapsRange hd hv hdvd).translates hrep' hf

/-- The index expressions of `map_page`. -/
theorem and_shift_index (v n : Nat) : (v &&& (0x1ff <<< n)) >>> n = v / 2 ^ n % 512 := by
  rw [Nat.shiftRight_and_distrib, Nat.shiftLeft_shiftRight, Nat.shiftRight_eq_div_pow]
  exact Nat.and_two_pow_sub_one_eq_mod _ 9

/-- `is_higher_half`. -/
theorem higher_half_eq {v : Nat} (hv : v < 2 ^ 64) :
    (if v &&& (1 <<< 63) ≠ 0 then 1 else 0) = v / 2 ^ 63 := by
  have hbit : v &&& (1 <<< 63) = v / 2 ^ 63 * 2 ^ 63 := by
    have h1 : v / 2 ^ 63 < 2 := by omega
    rw [Nat.one_shiftLeft, Nat.and_comm, Nat.two_pow_and, Nat.testBit_eq_decide_div_mod_eq,
      Nat.mod_eq_of_lt h1]
    rcases (by omega : v / 2 ^ 63 = 0 ∨ v / 2 ^ 63 = 1) with h | h <;> rw [h] <;> rfl
  rw [hbit]
  rcases (by omega : v / 2 ^ 63 = 0 ∨ v / 2 ^ 63 = 1) with h | h <;> rw [h] <;> rfl

theorem AddressSpace.key_mod {k : Nat} (hk : k ≤ V.levels) (v : Nat) :
    V.key v % pageBytes k = v % pageBytes k := by
  obtain ⟨c, hc, -⟩ := AddressSpace.key_div hk v
  rw [hc, Nat.mul_add_mod, Nat.mod_mod]

/-- The hardware translates as the trees do. -/
theorem Translates.hardware (step : σ → Nat → PtEntry → HwStep σ ρ) (acc : σ) (out : Leaf → ρ)
    (index : Nat → Nat) {f : Nat → Option Leaf} {v : Nat} (ht : Translates F V root f s) (hv : V.Valid v)
    (hzero : ∀ k, step acc k 0 = .fault .notMapped)
    (htable : ∀ k q, F.PageOk q → step acc (k + 1) (A.pteNew q A.tableFlags) = .next acc q)
    (hleaf : ∀ k l, F.LeafOk k l →
      step acc k (F.leafEntry k l) = .done (out ⟨l.phys + v % pageBytes k, l.attr⟩))
    (hidx : ∀ k, k ≤ V.levels → index k = slotIndex k (V.key v)) :
    hwWalk step s.mem index V.levels acc (root (V.tree v)) =
      match f v with
      | none => .error .notMapped
      | some l => .ok (out l) := by
  obtain ⟨G, own, hrep, htr⟩ := ht
  have htop : root (V.tree v) = (V.trees root).top (V.key v) := by
    rw [← AddressSpace.slotOf_key]
    rfl
  have hwalk := hwWalk_eq hzero htable hleaf hrep (hv.has root) hidx
  have hf := htr v
  unfold translation view at hf
  rw [if_pos hv] at hf
  rw [htop, ← hf]
  refine hwalk.trans ?_
  cases h : (V.trees root).walk G (V.key v) with
  | none => rfl
  | some r =>
    have hr : r.1 ≤ V.levels := Tables.walk_level_le h
    show _ = Except.ok (out ⟨r.2.phys + V.key v % pageBytes r.1, r.2.attr⟩)
    rw [AddressSpace.key_mod hr]

/-! ## A pagemap from its calls -/

/-- The attributes as `VMM_FLAG_*` bits. -/
def Attr.toFlags (vmmFlagWrite vmmFlagNoexec vmmFlagFb : PtEntry) (a : Attr) : PtEntry :=
  (if a.write then vmmFlagWrite else 0) ||| (if a.noexec then vmmFlagNoexec else 0) |||
  (if a.fb then vmmFlagFb else 0)

/-- A fact about all attributes is a fact about three bits. -/
theorem Attr.forall_of {p : Attr → Prop} (h : ∀ w n f, p ⟨w, n, f⟩) (a : Attr) : p a := h a.1 a.2 a.3

/-- The page of level `k` lies below `bound`. -/
structure Fits (bound k : Nat) (l : Leaf) : Prop where
  aligned : pageBytes k ∣ l.phys
  le : l.phys + pageBytes k ≤ bound

instance (bound k : Nat) (l : Leaf) : Decidable (Fits bound k l) :=
  decidable_of_iff (pageBytes k ∣ l.phys ∧ l.phys + pageBytes k ≤ bound)
    ⟨fun ⟨h1, h2⟩ => ⟨h1, h2⟩, fun ⟨h1, h2⟩ => ⟨h1, h2⟩⟩

theorem add_pageBytes_le {d k i : Nat} (hd : d ≤ k) (hi : i < pageBytes k) (hdvd : pageBytes d ∣ i) :
    i + pageBytes d ≤ pageBytes k := by
  obtain ⟨a, ha⟩ := pageBytes_dvd hd
  obtain ⟨b, rfl⟩ := hdvd
  rw [ha] at hi ⊢
  rw [← Nat.mul_succ]
  exact Nat.mul_le_mul_left _ (Nat.lt_of_mul_lt_mul_left hi)

theorem Fits.split {bound k : Nat} {l : Leaf} (h : Fits bound k l) {d i : Nat} (hd : d < k)
    (hi : i < pageBytes k) (hdvd : pageBytes d ∣ i) : Fits bound d ⟨l.phys + i, l.attr⟩ := by
  refine ⟨Nat.dvd_add (Nat.dvd_trans (pageBytes_dvd (Nat.le_of_lt hd)) h.aligned) hdvd, ?_⟩
  have h1 := add_pageBytes_le (Nat.le_of_lt hd) hi hdvd
  have h2 := h.le
  show l.phys + i + pageBytes d ≤ bound
  omega

theorem Fits.mono {bound bound' k : Nat} {l : Leaf} (h : Fits bound k l) (hle : bound ≤ bound') :
    Fits bound' k l := ⟨h.aligned, Nat.le_trans h.le hle⟩

theorem Fits.lt {bound k : Nat} {l : Leaf} (h : Fits bound k l) : l.phys < bound := by
  have := h.le
  have := pageBytes_pos k
  omega

/-- The address of a page lies in the bits above its offset. -/
theorem Fits.within {hi k : Nat} {l : Leaf} (h : Fits (2 ^ hi) k l) {lo : Nat} (hlo : lo ≤ 12 + 9 * k) :
    Within (BitVec.ofNat 64 l.phys) (bitWindow lo hi) :=
  within_ofNat (Nat.dvd_trans (Nat.pow_dvd_pow 2 hlo) h.aligned) h.lt

theorem Fits.toNat {hi k : Nat} {l : Leaf} (h : Fits (2 ^ hi) k l) (hhi : hi ≤ 64) :
    (BitVec.ofNat 64 l.phys).toNat = l.phys := toNat_ofNat_of_lt h.lt hhi

/-- A call maps pages of one half to physical addresses below `bound`. -/
structure MapCall.Ok (V : AddressSpace) (bound : Nat) (c : MapCall) : Prop where
  virt_aligned : 0x1000 ∣ c.virt
  phys_aligned : 0x1000 ∣ c.phys
  count_aligned : 0x1000 ∣ c.count
  virt_range : c.virt + c.count ≤ 2 ^ V.half ∨ 2 ^ 64 - 2 ^ V.half ≤ c.virt ∧ c.virt + c.count ≤ 2 ^ 64
  phys_range : c.phys + c.count ≤ bound

instance (V : AddressSpace) (bound : Nat) (c : MapCall) : Decidable (c.Ok V bound) :=
  decidable_of_iff
    (0x1000 ∣ c.virt ∧ 0x1000 ∣ c.phys ∧ 0x1000 ∣ c.count ∧
      (c.virt + c.count ≤ 2 ^ V.half ∨ 2 ^ 64 - 2 ^ V.half ≤ c.virt ∧ c.virt + c.count ≤ 2 ^ 64) ∧
      c.phys + c.count ≤ bound)
    ⟨fun ⟨h1, h2, h3, h4, h5⟩ => ⟨h1, h2, h3, h4, h5⟩, fun ⟨h1, h2, h3, h4, h5⟩ => ⟨h1, h2, h3, h4, h5⟩⟩

theorem MapCall.Ok.valid {bound : Nat} {c : MapCall} (h : c.Ok V bound) {v : Nat} (h1 : c.virt ≤ v)
    (h2 : v < c.virt + c.count) : V.Valid v := by
  rcases h.virt_range with h3 | h3
  · exact .inl (by omega)
  · exact .inr (by omega)

theorem MapCall.Ok.callOk {bound : Nat} {c : MapCall} (h : c.Ok V bound) {ask : PageSize → Leaf → Prop}
    {largePagePhysOk : Nat → Bool}
    (hask : ∀ (size : PageSize) (l : Leaf), size.level ≤ 2 → Fits bound size.level l → l.attr = c.attr →
      ask size l) : CallOk V ask largePagePhysOk c.virt c.phys c.count c.attr := by
  refine ⟨h.virt_aligned, h.phys_aligned, h.count_aligned, fun i hi => h.valid (by omega) (by omega),
    fun size i hsize hi hdvd _ => hask size _ hsize ⟨hdvd, ?_⟩ rfl⟩
  have := h.phys_range
  show c.phys + i + pageBytes size.level ≤ bound
  omega

theorem lastCall_eq_some {calls : List MapCall} {v : Nat} {c : MapCall} (h : lastCall calls v = some c) :
    c ∈ calls ∧ c.virt ≤ v ∧ v < c.virt + c.count := by
  have hin := List.find?_some h
  exact ⟨List.mem_reverse.mp (List.mem_of_find?_eq_some h), of_decide_eq_true hin⟩

/-- No call has an address outside the halves. -/
theorem lastCall_eq_none {bound : Nat} {calls : List MapCall} (hcalls : ∀ c ∈ calls, c.Ok V bound)
    {v : Nat} (hv : ¬ V.Valid v) : lastCall calls v = none := by
  cases h : lastCall calls v with
  | none => rfl
  | some c =>
    obtain ⟨hc, h1, h2⟩ := lastCall_eq_some h
    exact absurd ((hcalls c hc).valid h1 h2) hv

/-- What the calls should come to. -/
def lastLeaf (calls : List MapCall) (v : Nat) : Option Leaf :=
  (lastCall calls v).map fun c => ⟨c.phys + (v - c.virt), c.attr⟩

/-- A pagemap made and filled by a list of calls. -/
def buildPagemap {P C : Type} (newPagemap : VmmM P) (call : P → C → VmmM Unit) (calls : List C) :
    VmmM P := do
  let pagemap ← newPagemap
  mapCalls (call pagemap) calls
  return pagemap

theorem buildPagemap_spec {P : Type} (root : P → Nat → Nat) {good : P → Prop} {newPagemap : VmmM P}
    {mapPages : P → MapCall → VmmM Unit}
    (hnew : Runs newPagemap s fun pm s' => good pm ∧ Translates F V (root pm) (fun _ => none) s')
    {calls : List MapCall}
    (hmap : ∀ pm, good pm → ∀ c ∈ calls, ∀ s f, Translates F V (root pm) f s →
      Runs (mapPages pm c) s fun _ s' =>
        Translates F V (root pm) (overlay c.virt c.phys c.count c.attr f) s') :
    Runs (buildPagemap newPagemap mapPages calls) s fun pm s' =>
      good pm ∧ Translates F V (root pm) (lastLeaf calls) s' := by
  refine hnew.bind fun pm s' ⟨hgood, ht⟩ => ?_
  refine (mapCalls_spec calls s' _ (hmap pm hgood) ht).bind fun _ s'' ht' => Runs.pure ⟨hgood, ?_⟩
  have heq : overlays calls (fun _ => none) = lastLeaf calls := by
    funext v
    rw [overlays_eq]
    unfold lastLeaf
    cases lastCall calls v <;> rfl
  rwa [heq] at ht'

end Limine.Vmm
