import Limine.Vmm.X86

/-!
# Splitting large pages on x86-64

A run of `map_page` calls of any sizes and flags keeps the tables well formed as long as it does
not panic.  `get_next_level` panics exactly at large pages that have the framebuffer's memory type,
since `pte_addr` reads their PAT bit as a bit of the address.
-/

namespace Limine.Vmm.X86

open Limine.Lib

/-- The arguments of a `map_page` call. -/
structure PageCall where
  virt : Nat
  phys : Nat
  attr : Attr
  size : PageSize
deriving DecidableEq, Repr

def PageCall.call (cpu : Cpu) (pagemap : Pagemap) (c : PageCall) : VmmM Unit :=
  mapPageRec cpu pagemap c.virt c.phys (vmmFlags c.attr) c.size

/-- The bytes of the page. -/
def PageCall.Covers (c : PageCall) (v : Nat) : Prop := c.virt ≤ v ∧ v < c.virt + pageBytes c.size.level

structure PageCall.Ok (V : AddressSpace) (bound : Nat) (c : PageCall) : Prop where
  size : c.size.level ≤ 2
  virt_valid : V.Valid c.virt
  virt_aligned : pageBytes c.size.level ∣ c.virt
  fits : Fits bound c.size.level ⟨c.phys, c.attr⟩

instance (c : PageCall) (v : Nat) : Decidable (c.Covers v) := inferInstanceAs (Decidable (_ ∧ _))

instance (V : AddressSpace) (bound : Nat) (c : PageCall) : Decidable (c.Ok V bound) :=
  decidable_of_iff
    (c.size.level ≤ 2 ∧ V.Valid c.virt ∧ pageBytes c.size.level ∣ c.virt ∧
      Fits bound c.size.level ⟨c.phys, c.attr⟩)
    ⟨fun ⟨h1, h2, h3, h4⟩ => ⟨h1, h2, h3, h4⟩, fun ⟨h1, h2, h3, h4⟩ => ⟨h1, h2, h3, h4⟩⟩

/-- Without the PAT `VMM_FLAG_FB` does nothing. -/
def normAttr (cpu : Cpu) (a : Attr) : Attr := { a with fb := a.fb && cpu.pat }

variable {cpu : Cpu} {fiveLvl : Bool} {pagemap : Pagemap} {s : Memory}

theorem presentFlags_norm (a : Attr) :
    presentFlags cpu (vmmFlags a) = presentFlags cpu (vmmFlags (normAttr cpu a)) := by
  have hclear : ∀ w n f, (vmmFlags ⟨w, n, f⟩ ||| ptFlagValid) &&& ~~~vmmFlagFb =
      vmmFlags ⟨w, n, false⟩ ||| ptFlagValid := by decide
  have hfb : ∀ w n f, (vmmFlags ⟨w, n, f⟩ ||| ptFlagValid) &&& vmmFlagFb ≠ 0 ↔ f = true := by decide
  obtain ⟨w, n, f⟩ := a
  unfold presentFlags normAttr
  dsimp only
  cases cpu.pat with
  | true => rw [Bool.and_true]
  | false =>
    have hnone : ¬ ((vmmFlags ⟨w, n, false⟩ ||| ptFlagValid) &&& vmmFlagFb ≠ 0 ∧ false = false) :=
      fun h => Bool.false_ne_true ((hfb w n false).mp h.1)
    rw [Bool.and_false]
    cases f with
    | false => rfl
    | true => rw [if_neg hnone, if_pos ⟨(hfb w n true).mpr rfl, rfl⟩, hclear]

def PageCall.leaf (cpu : Cpu) (c : PageCall) : Leaf := ⟨c.phys, normAttr cpu c.attr⟩

theorem PageCall.call_norm (c : PageCall) :
    c.call cpu pagemap s =
      mapPageRec cpu pagemap c.virt (c.leaf cpu).phys (vmmFlags (c.leaf cpu).attr) c.size s :=
  congrFun (mapPage_flags (presentFlags_norm c.attr) pagemap _ c.virt c.phys c.size) s

/-- `map_page` writes an entry of the size it is asked for. -/
def PageCall.HasEntry (cpu : Cpu) (c : PageCall) : Prop := c.size.level < if cpu.page1GiB then 3 else 2

theorem PageCall.Ok.leafOk {c : PageCall} (h : c.Ok (space fiveLvl) (2 ^ cpu.paBits)) (hentry : c.HasEntry cpu) :
    LeafOk cpu true c.size.level (c.leaf cpu) := by
  refine ⟨hentry, ⟨h.fits.aligned, h.fits.le⟩, fun hfb => ⟨rfl, ?_⟩⟩
  exact (Bool.and_eq_true_iff.mp hfb).2

/-- The panic over a large page of the framebuffer's memory type. -/
theorem pteAddr_unaligned {k : Nat} {l : Leaf} (h : LeafOk cpu true (k + 1) l) (hfb : l.attr.fb = true) :
    pteAddr (pteNew l.phys (leafFlags (k + 1) l.attr)) &&& (pageBytes (k + 1) - 1) ≠ 0 := by
  have hk := h.lt
  obtain ⟨c, hc⟩ := h.fits.aligned
  rw [pteAddr_large h, if_pos hfb, pageBytes, Nat.and_two_pow_sub_one_eq_mod, hc, pageBytes,
    Nat.mul_add_mod, Nat.mod_eq_of_lt]
  · decide
  · exact Nat.lt_of_lt_of_le (by decide : 0x1000 < 2 ^ 21) (Nat.pow_le_pow_right (by decide) (by omega))

section

variable {G : Tables Leaf} {own : Owner}

/-- The memory holds tables of the pagemap. -/
def Holds (cpu : Cpu) (fiveLvl : Bool) (pagemap : Pagemap) (s : Memory) (G : Tables Leaf) : Prop :=
  ∃ own, Rep (format cpu true) ((space fiveLvl).trees fun _ => pagemap.topLevel) s G own

def walk (fiveLvl : Bool) (pagemap : Pagemap) (G : Tables Leaf) (v : Nat) : Option (Nat × Leaf) :=
  ((space fiveLvl).trees fun _ => pagemap.topLevel).walk G ((space fiveLvl).key v)

theorem level_le_levels {d : Nat} (h : d ≤ 2) (fiveLvl : Bool) : d ≤ (space fiveLvl).levels :=
  Nat.le_trans h (by cases fiveLvl <;> decide)

/-- A call of `map_page` for which there is an entry maps its page, if no larger page of the
framebuffer's memory type is in its way, and else panics. -/
theorem PageCall.step (hlevels : pagemap.levels = (space fiveLvl).levels + 1)
    (hG : Holds cpu fiveLvl pagemap s G) {c : PageCall} (hc : c.Ok (space fiveLvl) (2 ^ cpu.paBits))
    (hentry : c.HasEntry cpu) :
    ((∀ k l, walk fiveLvl pagemap G c.virt = some (k, l) → c.size.level < k → l.attr.fb = false) →
      Runs (c.call cpu pagemap) s fun _ s' => ∃ G', Holds cpu fiveLvl pagemap s' G' ∧
        (∀ v, (space fiveLvl).Valid v → c.Covers v →
          walk fiveLvl pagemap G' v = some (c.size.level, c.leaf cpu)) ∧
        MapsRange (space fiveLvl) (fun _ => pagemap.topLevel) c.virt (c.leaf cpu).phys
          (pageBytes c.size.level) (c.leaf cpu).attr G G') ∧
    ∀ k l, walk fiveLvl pagemap G c.virt = some (k, l) → c.size.level < k → l.attr.fb = true →
      c.call cpu pagemap s = .error unexpectedAddress := by
  obtain ⟨own, hrep⟩ := hG
  have hlok := hc.leafOk hentry
  have hv := hc.virt_valid
  have hlev := level_le_levels hc.size fiveLvl
  refine ⟨fun hread => ?_, fun k l hl hk hfb => ?_⟩
  · refine Runs.of_eq c.call_norm ((mapPageRec_mapsView hlevels hc.size 1 hrep hv hlok hread).imp ?_)
    rintro _ s' ⟨G', own', hrep', hview⟩
    refine ⟨G', ⟨own', hrep'⟩, fun v hvalid hin => (hview _ (hvalid.has _)).1 ?_,
      hview.mapsRange hlev hv hc.virt_aligned⟩
    exact (AddressSpace.slotOf_key_eq_iff hlev hvalid hv hc.virt_aligned).mpr hin
  · obtain ⟨idx, hidx, heq⟩ := @mapPage_isMapAt cpu true fiveLvl pagemap hlevels
      (fixMapPage (mapPage cpu pagemap) 2) c.size hc.size c.virt (c.leaf cpu) hv hlok
    have hlok' := hrep.walk_leafOk (hv.has _) hl
    obtain ⟨k, rfl⟩ : ∃ k', k = k' + 1 := ⟨k - 1, by omega⟩
    rw [c.call_norm]
    refine (congrFun heq s).trans (bind_eq_error (descend_panics hrep (hv.has _) hlok.lt hk hl
      (pteAddr_unaligned hlok' hfb) _ _ _ (Tables.tableAt_self _ _ _ _) (Tables.walk_level_le hl) hidx) _)

/-- A call of `map_page` that does not panic maps its range. -/
theorem PageCall.maps (hlevels : pagemap.levels = (space fiveLvl).levels + 1)
    (hG : Holds cpu fiveLvl pagemap s G) {c : PageCall} (hc : c.Ok (space fiveLvl) (2 ^ cpu.paBits))
    {s' : Memory} (hrun : c.call cpu pagemap s = .ok ((), s')) :
    ∃ G', Holds cpu fiveLvl pagemap s' G' ∧
      MapsRange (space fiveLvl) (fun _ => pagemap.topLevel) c.virt (c.leaf cpu).phys
        (pageBytes c.size.level) (c.leaf cpu).attr G G' := by
  rcases entry_or_noPage1GiB cpu hc.size with hentry | ⟨h1GiB, hsize⟩
  · obtain ⟨hmaps, hpanics⟩ := PageCall.step hlevels hG hc hentry
    by_cases hread : ∀ k l, walk fiveLvl pagemap G c.virt = some (k, l) → c.size.level < k → l.attr.fb = false
    · obtain ⟨G', hG', -, hrange⟩ := (hmaps hread).of_ok hrun
      exact ⟨G', hG', hrange⟩
    · push Not at hread
      obtain ⟨k, l, hl, hk, hfb⟩ := hread
      rw [hpanics k l hl hk (Bool.eq_true_of_not_eq_false hfb)] at hrun
      cases hrun
  · obtain ⟨own, hrep⟩ := hG
    have hd := hc.virt_aligned
    have hfits := hc.fits
    rw [hsize] at hd hfits ⊢
    rw [c.call_norm, hsize] at hrun
    have hspec := mapPage_noPage1GiB_spec hlevels h1GiB hrep hc.virt_valid hd (l := c.leaf cpu)
      ⟨hfits.aligned, hfits.le⟩ fun hfb => ⟨rfl, (Bool.and_eq_true_iff.mp hfb).2⟩
    obtain ⟨G', own', hrep', hrange⟩ := hspec.of_ok hrun
    exact ⟨G', ⟨own', hrep'⟩, hrange⟩

/-- The bytes of a call's page are mapped addresses. -/
theorem PageCall.Ok.valid {c : PageCall} (hc : c.Ok (space fiveLvl) (2 ^ cpu.paBits)) {v : Nat}
    (hv : c.Covers v) : (space fiveLvl).Valid v := by
  have hpage := (AddressSpace.key_page (level_le_levels hc.size fiveLvl) hc.virt_valid
    (show v - c.virt < pageBytes c.size.level by have := hv.1; have := hv.2; omega)).1
  rwa [Nat.div_mul_cancel hc.virt_aligned, Nat.add_sub_cancel' hv.1] at hpage

/-- A leaf whose addresses a call leaves alone. -/
theorem PageCall.walk_eq {c large : PageCall} {G' : Tables Leaf}
    (hc : c.Ok (space fiveLvl) (2 ^ cpu.paBits)) (hlarge : large.Ok (space fiveLvl) (2 ^ cpu.paBits))
    (hrange : MapsRange (space fiveLvl) (fun _ => pagemap.topLevel) c.virt (c.leaf cpu).phys
      (pageBytes c.size.level) (c.leaf cpu).attr G G')
    (hfar : ∀ v, c.Covers v → ¬ large.Covers v) {v : Nat} (hv : large.Covers v) {l : Leaf}
    (hl : walk fiveLvl pagemap G v = some (large.size.level, l)) :
    walk fiveLvl pagemap G' v = some (large.size.level, l) := by
  have hlev := level_le_levels hlarge.size fiveLvl
  refine hrange.walk_eq v _ l (hlarge.valid hv) hl fun v' h1 h2 hslot => hfar v' ⟨h1, h2⟩ ?_
  have hin := (AddressSpace.slotOf_key_eq_iff hlev (hlarge.valid hv) hlarge.virt_valid hlarge.virt_aligned).mpr hv
  exact (AddressSpace.slotOf_key_eq_iff hlev (hc.valid ⟨h1, h2⟩) hlarge.virt_valid hlarge.virt_aligned).mp
    (hslot.symm.trans hin)

/-- What a call leaves alone is to the hardware as it was. -/
theorem PageCall.frame (hlevels : pagemap.levels = (space fiveLvl).levels + 1) {c : PageCall}
    {s s' : Memory} {G' : Tables Leaf} (hG : Holds cpu fiveLvl pagemap s G)
    (hG' : Holds cpu fiveLvl pagemap s' G')
    (hrange : MapsRange (space fiveLvl) (fun _ => pagemap.topLevel) c.virt (c.leaf cpu).phys
      (pageBytes c.size.level) (c.leaf cpu).attr G G') {v : Nat} (hv : (space fiveLvl).Valid v)
    (hout : ¬ c.Covers v) : hwTranslate cpu s' pagemap v = hwTranslate cpu s pagemap v := by
  obtain ⟨own, hrep⟩ := hG
  obtain ⟨own', hrep'⟩ := hG'
  unfold PageCall.Covers at hout
  rw [hwTranslate_eq hlevels ⟨G, own, hrep, fun _ => rfl⟩ hv,
    hwTranslate_eq hlevels ⟨G', own', hrep', fun _ => rfl⟩ hv, hrange.translation_eq, overlay,
    if_neg hout]

end

/-- **Splitting** a large page keeps what is left of it, and does not panic, if and only if the page
does not have the framebuffer's memory type: after any run of `map_page` calls that made a 2 MiB or
1 GiB page and left it alone since, for any smaller page inside it. -/
theorem split_keeps_iff (pagingMode : Nat) {s₀ : Memory} (hs : SupplyOk (PageOk cpu) s₀.supply)
    {calls later : List PageCall} {large small : PageCall}
    (hcalls : ∀ c ∈ calls ++ large :: later ++ [small], c.Ok (space (fiveLvlOf pagingMode)) (2 ^ cpu.paBits))
    (hsize : large.size = .size2MiB ∨ large.size = .size1GiB ∧ cpu.page1GiB = true)
    (hlater : ∀ c ∈ later, ∀ v, c.Covers v → ¬ large.Covers v)
    (hlt : small.size.level < large.size.level) (hin : large.Covers small.virt)
    (hrun : buildPagemap (newPagemap pagingMode) (PageCall.call cpu) (calls ++ large :: later) s₀ =
      .ok (pagemap, s)) :
    (Runs (small.call cpu pagemap) s fun _ s' => ∀ v, large.Covers v → ¬ small.Covers v →
      hwTranslate cpu s' pagemap v = hwTranslate cpu s pagemap v) ↔
    ¬ (large.attr.fb = true ∧ cpu.pat = true) := by
  obtain ⟨pm, s₁, hnew, hrest⟩ := bind_eq_ok hrun
  obtain ⟨_, s₂, hcallsrun, hret⟩ := bind_eq_ok hrest
  obtain ⟨rfl, rfl⟩ := Prod.mk.inj (Except.ok.inj hret)
  rw [mapCalls_append] at hcallsrun
  obtain ⟨_, s₃, hfront, hsuffix⟩ := bind_eq_ok hcallsrun
  obtain ⟨_, s₄, hlargerun, hlaterrun⟩ := bind_eq_ok hsuffix
  obtain ⟨hlevels, G₁, own₁, hrep₁, -⟩ := (@newPagemap_spec cpu true pagingMode s₀ hs).of_ok hnew
  have hlarge := hcalls large (by simp)
  have hsmall := hcalls small (by simp)
  generalize fiveLvlOf pagingMode = fiveLvl at *
  -- the tables before the large page, after it, and at the end
  obtain ⟨G₃, hG₃⟩ := @mapCalls_keeps _ _ (fun s => ∃ G, Holds cpu fiveLvl pm s G) calls _ _
    (fun c hc s s' ⟨G, hG⟩ hok =>
      have ⟨G', hG', _⟩ := PageCall.maps hlevels hG (hcalls c (by simp [hc])) hok
      ⟨G', hG'⟩) ⟨G₁, own₁, hrep₁⟩ hfront
  have hlargeEntry : large.HasEntry cpu := by
    unfold PageCall.HasEntry
    rcases hsize with h | ⟨h, h1GiB⟩
    · rw [h]
      split <;> decide
    · rw [h, h1GiB]
      decide
  have hsmallEntry : small.HasEntry cpu := Nat.lt_trans hlt hlargeEntry
  obtain ⟨hmaps, hpanics⟩ := PageCall.step hlevels hG₃ hlarge hlargeEntry
  have hread : ∀ k l, walk fiveLvl pm G₃ large.virt = some (k, l) → large.size.level < k →
      l.attr.fb = false := by
    refine fun k l hl hk => Bool.eq_false_iff.mpr fun hfb => ?_
    rw [hpanics k l hl hk hfb] at hlargerun
    cases hlargerun
  obtain ⟨G₄, hG₄, hwalk₄, -⟩ := (hmaps hread).of_ok hlargerun
  obtain ⟨G, hG, hwalk⟩ := @mapCalls_keeps _ _ (fun s => ∃ G, Holds cpu fiveLvl pm s G ∧
      walk fiveLvl pm G small.virt = some (large.size.level, large.leaf cpu)) later _ _
    (fun c hc s s' ⟨G, hG, hw⟩ hok =>
      have hcok := hcalls c (by simp [hc])
      have ⟨G', hG', hrange⟩ := PageCall.maps hlevels hG hcok hok
      ⟨G', hG', PageCall.walk_eq hcok hlarge hrange (hlater c hc) hin hw⟩)
    ⟨G₄, hG₄, hwalk₄ _ hsmall.virt_valid hin⟩ hlaterrun
  obtain ⟨hmaps', hpanics'⟩ := PageCall.step hlevels hG hsmall hsmallEntry
  constructor
  · rintro hruns ⟨hfb, hpat⟩
    have hleaf : (large.leaf cpu).attr.fb = true := Bool.and_eq_true_iff.mpr ⟨hfb, hpat⟩
    unfold Runs at hruns
    rw [hpanics' _ _ hwalk hlt hleaf] at hruns
    exact absurd hruns (show unexpectedAddress ≠ noMemory by decide)
  · intro hfb
    have hread' : ∀ k l, walk fiveLvl pm G small.virt = some (k, l) → small.size.level < k →
        l.attr.fb = false := by
      intro k l hl _
      rw [hwalk] at hl
      obtain ⟨rfl, rfl⟩ := Prod.mk.inj (Option.some.inj hl)
      exact Bool.eq_false_iff.mpr fun h => hfb (Bool.and_eq_true_iff.mp h)
    refine (hmaps' hread').imp ?_
    rintro _ s' ⟨G', hG', -, hrange⟩ v hv hout
    exact PageCall.frame hlevels hG hG' hrange (hlarge.valid hv) hout

/-- A processor with the PAT, and a 4 KiB page inside a 2 MiB page of the framebuffer's memory type. -/
def patCpu : Cpu := ⟨true, true, 48, by decide, by decide⟩

def fbPage : PageCall := ⟨0x200000, 0x200000, ⟨true, true, true⟩, .size2MiB⟩

def pageInside : PageCall := ⟨0x201000, 0x5000, ⟨true, false, false⟩, .size4KiB⟩

def fourPages : Memory := ⟨fun _ _ => 0, [0x1000, 0x2000, 0x3000, 0x4000]⟩

theorem split_keeps_iff_fb :
    ∃ pagemap s,
      buildPagemap (newPagemap 0) (PageCall.call patCpu) [fbPage] fourPages = .ok (pagemap, s) ∧
      ¬ Runs (pageInside.call patCpu pagemap) s fun _ s' => ∀ v, fbPage.Covers v → ¬ pageInside.Covers v →
        hwTranslate patCpu s' pagemap v = hwTranslate patCpu s pagemap v := by
  have hs : SupplyOk (PageOk patCpu) fourPages.supply := ⟨by decide, by decide⟩
  have hcalls : ∀ c ∈ [] ++ fbPage :: [] ++ [pageInside],
      c.Ok (space (fiveLvlOf 0)) (2 ^ patCpu.paBits) := by decide
  refine ⟨_, _, rfl, fun h => ?_⟩
  exact (split_keeps_iff 0 hs hcalls (.inl rfl) (by simp) (by decide) (by decide) rfl).mp h ⟨rfl, rfl⟩

/-- The panic. -/
theorem split_panics :
    ∃ pagemap s,
      buildPagemap (newPagemap 0) (PageCall.call patCpu) [fbPage] fourPages = .ok (pagemap, s) ∧
      pageInside.call patCpu pagemap s =
        .error (.panic "Unexpected page table entry address in get_next_level") :=
  ⟨_, _, rfl, rfl⟩

end Limine.Vmm.X86
