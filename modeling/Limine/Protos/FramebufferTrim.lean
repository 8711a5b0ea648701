import Limine.Protos.HhdmWindow

/-!
# No other memory in the pages of a framebuffer

Around every framebuffer `limine_load` takes its pages away from the regions beside it.  It skips a
framebuffer at page boundaries, which others were kept apart from before; what a turn leaves is kept
apart by the turns after it, as regions only ever shrink.
-/

namespace Limine.Protos
open Limine.Lib Limine.Pmm MemmapEntry

/-- The loop over the registered framebuffers. -/
def trimFramebuffers (m : Memmap) : Exec Memmap := (List.range m.length).foldlM trimAround m

theorem mapFramebuffers_eq (cfg : Config) (m : Memmap) (fbs : List FbInfo) :
    mapFramebuffers cfg m fbs = (do
      let m ← fbs.foldlM (registerFramebuffer cfg) m
      trimFramebuffers m) := rfl

/-- No byte of the entry is in the pages of the framebuffer. -/
def ClearOf (fb x : MemmapEntry) : Prop :=
  x.length = 0 ∨ x.base + x.length ≤ alignDown fb.base 0x1000 ∨ (fb.base + fb.length + 0xfff) / 0x1000 * 0x1000 ≤ x.base

/-- The entry is empty, or entirely on one side of the framebuffer. -/
def Beside (fb x : MemmapEntry) : Prop :=
  x.length = 0 ∨ fb.base + fb.length ≤ x.base ∨ x.base + x.length ≤ fb.base

instance (fb x : MemmapEntry) : Decidable (Beside fb x) := inferInstanceAs (Decidable (_ ∨ _))

/-- What a region loses is in the pages of a framebuffer, though not in the framebuffer. -/
def Trimmed (m : Memmap) (e x : MemmapEntry) : Prop :=
  PieceOf x e ∧ (e.type ≠ memmapUsable → e.type ≠ memmapReserved → x = e) ∧
    ∀ a ∈ e.span, a ∉ x.span → ∃ fb ∈ m, fb.type = memmapFramebuffer ∧
      PageExtent fb.base (fb.base + fb.length) a ∧ a ∉ fb.span

/-- What the loop is to leave of `m`. -/
structure Isolated (m m' : Memmap) : Prop where
  trimmed : List.Forall₂ (Trimmed m) m m'
  clear : ∀ fb ∈ m', fb.type = memmapFramebuffer → ∀ x ∈ m', x.type ≠ memmapFramebuffer → ∀ a ∈ x.span,
    ¬PageExtent fb.base (fb.base + fb.length) a

/-! ## One region -/

section
variable {e x : MemmapEntry} {fbAlignedBase fbAlignedTop : Nat}

theorem trimRegion_other (h : trimRegion fbAlignedBase fbAlignedTop e = .ok x) (husable : e.type ≠ memmapUsable)
    (hreserved : e.type ≠ memmapReserved) : x = e := by
  unfold trimRegion at h
  split at h
  · exact (Except.ok.inj h).symm
  · split at h
    · exact (Except.ok.inj h).symm
    · split at h
      · exact (Except.ok.inj h).symm
      · rw [if_pos ⟨husable, hreserved⟩] at h
        cases h

/-- Outside of the pages nothing is lost, and inside of them nothing is left. -/
theorem trimRegion_span (he : e.NoOverflow) (hother : e.type ≠ memmapFramebuffer) {base top : Nat}
    (hbase : fbAlignedBase ≤ base) (hle : base ≤ top) (htop : top ≤ fbAlignedTop)
    (hside : e.length = 0 ∨ top ≤ e.base ∨ e.base + e.length ≤ base)
    (h : trimRegion fbAlignedBase fbAlignedTop e = .ok x) :
    (x.length = 0 ∨ x.base + x.length ≤ fbAlignedBase ∨ fbAlignedTop ≤ x.base) ∧
      ∀ a ∈ e.span, a ∉ x.span → fbAlignedBase ≤ a ∧ a < fbAlignedTop := by
  unfold trimRegion at h
  by_cases hempty : e.length = 0
  · rw [if_pos (Or.inl hempty)] at h
    cases h
    exact ⟨Or.inl hempty, fun a ha hx => absurd ha hx⟩
  rw [if_neg (by simp [hempty, hother]), checkedAdd_eq_some he] at h
  dsimp only at h
  by_cases hapart : e.base + e.length ≤ fbAlignedBase ∨ fbAlignedTop ≤ e.base
  · rw [if_pos hapart] at h
    cases h
    exact ⟨Or.inr hapart, fun a ha hx => absurd ha hx⟩
  rw [if_neg hapart] at h
  by_cases htype : e.type ≠ memmapUsable ∧ e.type ≠ memmapReserved
  · rw [if_pos htype] at h
    cases h
  rw [if_neg htype] at h
  by_cases hbefore : e.base < fbAlignedBase ∧ fbAlignedBase < e.base + e.length
  · rw [if_pos hbefore] at h
    cases h
    simp only [mem_span]
    exact ⟨by omega, fun a ha hx => by omega⟩
  rw [if_neg hbefore] at h
  by_cases hafter : e.base < fbAlignedTop ∧ fbAlignedTop < e.base + e.length
  · rw [if_pos hafter] at h
    cases h
    simp only [mem_span]
    exact ⟨by omega, fun a ha hx => by omega⟩
  · rw [if_neg hafter] at h
    cases h
    refine ⟨Or.inl rfl, fun a ha _ => ?_⟩
    rw [mem_span] at ha
    omega

theorem Beside.piece {fb : MemmapEntry} (h : Beside fb e) (hx : PieceOf x e) : Beside fb x := by
  obtain ⟨-, hbase, htop⟩ := hx
  unfold Beside at *
  omega

theorem ClearOf.piece {fb : MemmapEntry} (h : ClearOf fb e) (hx : PieceOf x e) : ClearOf fb x := by
  obtain ⟨-, hbase, htop⟩ := hx
  unfold ClearOf at *
  omega

theorem ClearOf.not_mem {fb : MemmapEntry} (h : ClearOf fb x) {a : Nat} (ha : a ∈ x.span) :
    ¬PageExtent fb.base (fb.base + fb.length) a := by
  rw [mem_span] at ha
  unfold ClearOf at h
  unfold PageExtent
  omega

end

theorem getElem?_of_forall₂ {α β : Type} {R : α → β → Prop} {l : List α} {l' : List β} (h : List.Forall₂ R l l')
    {i : Nat} {y : β} (hy : l'[i]? = some y) : ∃ x, l[i]? = some x ∧ R x y := by
  induction h generalizing i with
  | nil => cases hy
  | cons hhead _ ih =>
    cases i with
    | zero =>
      obtain rfl := Option.some.inj hy
      exact ⟨_, rfl, hhead⟩
    | succ i => exact ih hy

theorem forall₂_trans {α β γ : Type} {R : α → β → Prop} {S : β → γ → Prop} {T : α → γ → Prop} {l : List α}
    {l' : List β} {l'' : List γ} (hstep : ∀ x ∈ l, ∀ y z, R x y → S y z → T x z) (h : List.Forall₂ R l l')
    (h' : List.Forall₂ S l' l'') : List.Forall₂ T l l'' := by
  induction h generalizing l'' with
  | nil =>
    cases h'
    exact .nil
  | cons hhead _ ih =>
    cases h' with
    | cons hhead' htail' =>
      obtain ⟨hx, hxs⟩ := List.forall_mem_cons.mp hstep
      exact .cons (hx _ _ hhead hhead') (ih hxs htail')

/-! ## One framebuffer -/

/-- The map is in order for the loop: nothing overflows or overlaps a framebuffer. -/
structure Registered (m : Memmap) : Prop where
  noneOverflows : NoneOverflows m
  beside : ∀ fb ∈ m, fb.type = memmapFramebuffer → ∀ e ∈ m, e.type ≠ memmapFramebuffer → Beside fb e
  pages : ∀ fb ∈ m, fb.type = memmapFramebuffer → fb.base + fb.length + 0xfff < 2 ^ 64

/-- The loop is through with the framebuffers at the indices `front`. -/
structure TrimmedAt (m : Memmap) (front : List Nat) (m' : Memmap) : Prop where
  trimmed : List.Forall₂ (Trimmed m) m m'
  clear : ∀ i ∈ front, ∀ fb, m[i]? = some fb → fb.type = memmapFramebuffer →
    ∀ x ∈ m', x.type ≠ memmapFramebuffer → ClearOf fb x

section
variable {m m' : Memmap}

theorem Trimmed.refl (e : MemmapEntry) : Trimmed m e e :=
  ⟨PieceOf.refl e, fun _ _ => rfl, fun _ ha hx => absurd ha hx⟩

theorem Trimmed.eq_of_framebuffer {e x : MemmapEntry} (h : Trimmed m e x) (hx : x.type = memmapFramebuffer) :
    x = e := by
  have htype := h.1.1
  refine h.2.1 ?_ ?_ <;> rw [← htype, hx] <;> decide

/-- One turn on one entry. -/
theorem Trimmed.trimRegion (hm : Registered m) {fb e x y : MemmapEntry} (hfb : fb ∈ m)
    (hfbType : fb.type = memmapFramebuffer) (he : e ∈ m) (hx : Trimmed m e x)
    (h : trimRegion (alignDown fb.base 0x1000) ((fb.base + fb.length + 0xfff) / 0x1000 * 0x1000) x = .ok y) :
    Trimmed m e y ∧ PieceOf y x ∧ (x.type ≠ memmapFramebuffer → ClearOf fb y) := by
  obtain ⟨hpiece, hother, hlost⟩ := hx
  have hno : x.NoOverflow := hpiece.noOverflow (hm.noneOverflows e he)
  obtain ⟨hpiece', hsame⟩ := trimRegion_piece hno h
  have htrans : PieceOf y e := hpiece'.trans hpiece
  by_cases hisFb : x.type = memmapFramebuffer
  · obtain rfl := hsame hisFb
    exact ⟨⟨hpiece, hother, hlost⟩, hpiece', fun hne => absurd hisFb hne⟩
  have hbeside : Beside fb e := hm.beside fb hfb hfbType e he fun hte => hisFb (hpiece.1.trans hte)
  have hdown : alignDown fb.base 0x1000 ≤ fb.base := alignDown_le _ _
  obtain ⟨hclear, hspan⟩ := trimRegion_span hno hisFb hdown (Nat.le_add_right _ fb.length) (by omega)
    (hbeside.piece hpiece) h
  refine ⟨⟨htrans, fun husable hreserved => ?_, fun a ha hy => ?_⟩, hpiece', fun _ => hclear⟩
  · obtain rfl := hother husable hreserved
    exact trimRegion_other h husable hreserved
  · by_cases hax : a ∈ x.span
    · refine ⟨fb, hfb, hfbType, hspan a hax hy, fun hin => ?_⟩
      rw [mem_span] at ha hin
      unfold Beside at hbeside
      omega
    · exact hlost a ha hax

theorem TrimmedAt.trimAround (hm : Registered m) {front : List Nat} (h : TrimmedAt m front m') (i : Nat) {m'' : Memmap}
    (hrun : trimAround m' i = .ok m'') : TrimmedAt m (front ++ [i]) m'' := by
  -- a turn that leaves the map as it is
  have hskip : (∀ fb, m[i]? = some fb → fb.type = memmapFramebuffer →
      ∀ x ∈ m', x.type ≠ memmapFramebuffer → ClearOf fb x) → m'' = m' → TrimmedAt m (front ++ [i]) m'' := by
    rintro hclear rfl
    refine ⟨h.trimmed, fun j hj => ?_⟩
    rcases List.mem_append.mp hj with hj | hj
    · exact h.clear j hj
    · rw [List.mem_singleton.mp hj]
      exact hclear
  unfold Protos.trimAround at hrun
  cases hi : m'[i]? with
  | none =>
    rw [hi] at hrun
    refine hskip (fun fb hfb => ?_) (Except.ok.inj hrun).symm
    have hlen := h.trimmed.length_eq
    rw [List.getElem?_eq_none_iff] at hi
    rw [List.getElem?_eq_none (by omega)] at hfb
    cases hfb
  | some fb =>
    rw [hi] at hrun
    dsimp only at hrun
    obtain ⟨e, he, hefb⟩ := getElem?_of_forall₂ h.trimmed hi
    by_cases htype : fb.type = memmapFramebuffer
    · obtain rfl := hefb.eq_of_framebuffer htype
      have hmem : fb ∈ m := List.mem_of_getElem? he
      have hpages := hm.pages fb hmem htype
      have hrange : framebufferRange fb = some ⟨alignDown fb.base 0x1000, (fb.base + fb.length + 0xfff) / 0x1000 * 0x1000⟩ := by
        unfold framebufferRange
        rw [if_neg (by simpa using htype), checkedAdd_eq_some (by omega), Option.bind_eq_bind, Option.bind_some,
          alignUp_page, if_pos hpages]
        rfl
      rw [if_neg (by simpa using htype), hrange] at hrun
      dsimp only at hrun
      by_cases hexact : alignDown fb.base 0x1000 = fb.base ∧
          (fb.base + fb.length + 0xfff) / 0x1000 * 0x1000 = fb.base + fb.length
      · rw [if_pos hexact] at hrun
        refine hskip (fun fb' hfb' hfbType x hx hxType => ?_) (Except.ok.inj hrun).symm
        obtain rfl := Option.some.inj (he.symm.trans hfb')
        obtain ⟨e, hem, htrimmed⟩ := exists_of_forall₂ h.trimmed hx
        have hbeside := (hm.beside fb hmem htype e hem (htrimmed.1.1 ▸ hxType)).piece htrimmed.1
        unfold Beside at hbeside
        unfold ClearOf
        omega
      · rw [if_neg hexact] at hrun
        have hpieces := forall₂_of_mapM (R := fun x y => trimRegion _ _ x = .ok y) (fun _ _ _ h => h) hrun
        refine ⟨forall₂_trans (fun e he x y hx hy => (hx.trimRegion hm hmem htype he hy).1) h.trimmed hpieces,
          fun j hj fb' hfb' hfbType y hy hyType => ?_⟩
        obtain ⟨x, hx, hxy⟩ := exists_of_forall₂ hpieces hy
        obtain ⟨e, hem, htrimmed⟩ := exists_of_forall₂ h.trimmed hx
        obtain ⟨-, hpiece, hclear⟩ := htrimmed.trimRegion hm hmem htype hem hxy
        have hxType : x.type ≠ memmapFramebuffer := hpiece.1 ▸ hyType
        rcases List.mem_append.mp hj with hj | hj
        · exact (h.clear j hj fb' hfb' hfbType x hx hxType).piece hpiece
        · rw [List.mem_singleton.mp hj] at hfb'
          obtain rfl := Option.some.inj (he.symm.trans hfb')
          exact hclear hxType
    · rw [if_pos (by simpa using htype)] at hrun
      refine hskip (fun e' he' hte' => ?_) (Except.ok.inj hrun).symm
      rw [he] at he'
      obtain rfl := Option.some.inj he'
      exact absurd (hefb.1.1.trans hte') htype

/-- **The loop isolates the framebuffers.** -/
theorem trimFramebuffers_isolated (hm : Registered m) (h : trimFramebuffers m = .ok m') : Isolated m m' := by
  have hinit : TrimmedAt m [] m := ⟨List.forall₂_same.mpr fun e _ => Trimmed.refl e, by simp⟩
  have hrun : Ends (fun _ => True) (trimFramebuffers m) (TrimmedAt m (List.range m.length)) := by
    refine Ends.foldlM (TrimmedAt m) (fun front i rest m' _ hfront => ?_) hinit
    cases hturn : trimAround m' i with
    | error e => trivial
    | ok m'' => exact hfront.trimAround hm i hturn
  have hall := hrun.of_ok h
  refine ⟨hall.trimmed, fun fb hfb hfbType x hx hxType a ha => ?_⟩
  obtain ⟨i, hi⟩ := List.mem_iff_getElem?.mp hfb
  obtain ⟨e, he, htrimmed⟩ := getElem?_of_forall₂ hall.trimmed hi
  obtain rfl := htrimmed.eq_of_framebuffer hfbType
  have hlt : i < m.length := (List.getElem?_eq_some_iff.mp he).1
  exact (hall.clear i (List.mem_range.mpr hlt) fb he hfbType x hx hxType).not_mem ha

end

/-! ## Maps -/

/-- A framebuffer that shares its first and its last page. -/
def sharedPages : Memmap :=
  [⟨0, 0x1800, memmapUsable⟩, ⟨0x1800, 0x1000, memmapFramebuffer⟩, ⟨0x2800, 0x1800, memmapReserved⟩]

theorem trimFramebuffers_isolated_shared : Isolated sharedPages
    [⟨0, 0x1000, memmapUsable⟩, ⟨0x1800, 0x1000, memmapFramebuffer⟩, ⟨0x3000, 0x1000, memmapReserved⟩] :=
  trimFramebuffers_isolated ⟨show ∀ e ∈ sharedPages, e.NoOverflow by decide, by decide, by decide⟩ rfl

/-- An empty framebuffer inside of a region. -/
def emptyFramebuffer : Memmap := [⟨0x1800, 0, memmapFramebuffer⟩, ⟨0, 0x4000, memmapUsable⟩]

def lastPage : Memmap := [⟨2 ^ 64 - 0x800, 0x400, memmapFramebuffer⟩, ⟨2 ^ 64 - 0x1000, 0x800, memmapUsable⟩]

/-- The first loses a byte far from its framebuffer; the second is left alone, as the end of its page
does not fit. -/
theorem trimFramebuffers_not_isolated :
    (∃ m m', NoneOverflows m ∧ (∀ fb ∈ m, fb.type = memmapFramebuffer → ∀ e ∈ m, e.type ≠ memmapFramebuffer →
        Disjoint fb.span e.span) ∧ trimFramebuffers m = .ok m' ∧
      ∃ e ∈ m, ∃ a ∈ e.span, (∀ x ∈ m', a ∉ x.span) ∧
        ∀ fb ∈ m, fb.type = memmapFramebuffer → ¬PageExtent fb.base (fb.base + fb.length) a) ∧
    ∃ m m', NoneOverflows m ∧ (∀ fb ∈ m, fb.type = memmapFramebuffer → ∀ e ∈ m, e.type ≠ memmapFramebuffer →
        Disjoint fb.span e.span) ∧ trimFramebuffers m = .ok m' ∧
      ∃ fb ∈ m', fb.type = memmapFramebuffer ∧ ∃ x ∈ m', x.type ≠ memmapFramebuffer ∧
        ∃ a ∈ x.span, PageExtent fb.base (fb.base + fb.length) a := by
  constructor
  · refine ⟨emptyFramebuffer, [⟨0x1800, 0, memmapFramebuffer⟩, ⟨0, 0x1000, memmapUsable⟩],
      show ∀ e ∈ emptyFramebuffer, e.NoOverflow by decide, by decide, rfl, ⟨0, 0x4000, memmapUsable⟩, by decide,
      0x3000, by simp, ?_, by decide⟩
    simp
  · exact ⟨lastPage, lastPage, show ∀ e ∈ lastPage, e.NoOverflow by decide, by decide, rfl,
      ⟨2 ^ 64 - 0x800, 0x400, memmapFramebuffer⟩, by decide, rfl, ⟨2 ^ 64 - 0x1000, 0x800, memmapUsable⟩, by decide,
      by decide, 2 ^ 64 - 0x1000, by simp, by decide⟩

end Limine.Protos
