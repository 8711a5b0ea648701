import Limine.Protos.Requests
import Limine.Elf.Image
import Mathlib.Order.Nat

/-!
# The request window

Both scans are passes over the multiples of eight with the same marks (`Limine.Lib.Scan`), so they
agree on the window.  What the first writes into the image is no mark and hides none.

    scanImage …  =  the pass over the offsets in InRequestWindow mk img m
    i in the window, a request of the image  ↔  img.base + i in the array
-/

namespace Limine.Protos
open Limine.Loader Limine.Lib Limine.Elf

/-! ## Tests -/

def wordsAt (m : Bytes) : Nat → List Nat → Bool
  | _, [] => true
  | p, w :: ws => leAt m p 8 = w && wordsAt m (p + 8) ws

theorem wordsAt_mem {m : Bytes} (ws : List Nat) : ∀ {p : Nat}, wordsAt m p ws = true →
    ∀ k, k < ws.length → leAt m (p + 8 * k) 8 ∈ ws := by
  induction ws with
  | nil =>
    intro p _ k hk
    cases hk
  | cons w ws ih =>
    intro p h k hk
    rw [wordsAt, Bool.and_eq_true] at h
    cases k with
    | zero => exact List.mem_cons.mpr (.inl (of_decide_eq_true h.1))
    | succ k =>
      have hmem := ih h.2 k (Nat.lt_of_succ_lt_succ hk)
      rw [show p + 8 + 8 * k = p + 8 * (k + 1) by omega] at hmem
      exact List.mem_cons_of_mem w hmem

/-- The words stand at offset `i`, and a structure of `size` bytes there is inside the image. -/
def hit (img : LoadedImage) (m : Bytes) (i size : Nat) (words : List Nat) : Bool :=
  i + size ≤ img.size && wordsAt m (img.base + i) words

theorem hit_size {img : LoadedImage} {m : Bytes} {i size : Nat} {words : List Nat}
    (h : hit img m i size words = true) : i + size ≤ img.size := by
  unfold hit at h
  rw [Bool.and_eq_true, decide_eq_true_iff] at h
  exact h.1

theorem equalWords_eq {r : Region} {m : Bytes} (ws : List Nat) : ∀ p, r.Has p (8 * ws.length) →
    equalWords r m p ws = .ok (wordsAt m p ws) := by
  induction ws with
  | nil =>
    intro p _
    rfl
  | cons w ws ih =>
    intro p h
    unfold Region.Has at h
    rw [List.length_cons] at h
    rw [equalWords, wordsAt, loadNat_eq ⟨h.1, by omega⟩, ok_bind, ih (p + 8) ⟨by omega, by omega⟩]
    by_cases hw : leAt m p 8 = w
    · simp [hw]
    · simp [hw]
      rfl

theorem hits_eq {img : LoadedImage} {m : Bytes} {i size : Nat} {words : List Nat}
    (h : 8 * words.length ≤ size) : hits img m i size words = .ok (hit img m i size words) := by
  unfold hits hit
  by_cases hi : i + size ≤ img.size
  · rw [if_pos hi, equalWords_eq words (img.base + i) ⟨by omega, by omega⟩]
    simp [hi]
  · rw [if_neg hi]
    simp [hi]

section
variable (mk : Markers) (img : LoadedImage) (m : Bytes)

def isStart (i : Nat) : Bool := hit img m i sizeofStartMarker mk.requestsStart
def isEnd (i : Nat) : Bool := hit img m i sizeofEndMarker mk.requestsEnd
def isTag (i : Nat) : Bool := hit img m i sizeofBaseRevision mk.baseRevision
def isRequest (i : Nat) : Bool := hit img m i sizeofId mk.commonMagic

/-- The request window: no end marker up to `i`, and none but dead start markers after it. -/
def InRequestWindow (i : Nat) : Prop :=
  (8 ∣ i ∧ i + sizeofEndMarker ≤ img.size) ∧ (∀ j ≤ i, 8 ∣ j → isEnd mk img m j = false) ∧
    ∀ j, i ≤ j → 8 ∣ j → isStart mk img m j = true → ∃ k ≤ j, 8 ∣ k ∧ isEnd mk img m k = true

end

/-! ## The loop as a pass -/

/-- The offsets the loop visits from `i` on. -/
def offsetsFrom (img : LoadedImage) (i : Nat) : List Nat := List.range' i ((img.size - 8 - i) / 8) 8

def offsets (img : LoadedImage) : List Nat := offsetsFrom img 0

def requestWindow (mk : Markers) (img : LoadedImage) (m : Bytes) : List Nat :=
  window (isStart mk img m) (isEnd mk img m) (offsets img)

section
variable {mk : Markers} {img : LoadedImage} {m : Bytes}

theorem mem_offsets {i : Nat} : i ∈ offsets img ↔ 8 ∣ i ∧ i + sizeofEndMarker ≤ img.size := by
  unfold offsets offsetsFrom sizeofEndMarker
  rw [List.mem_range']
  constructor
  · rintro ⟨k, hk, rfl⟩
    exact ⟨⟨k, by omega⟩, by omega⟩
  · rintro ⟨⟨k, rfl⟩, h⟩
    exact ⟨k, by omega, by omega⟩

theorem offsets_sorted (img : LoadedImage) : (offsets img).Pairwise (· < ·) :=
  List.pairwise_lt_range' _ (by decide)

theorem scanImageFrom_eq {σ : Type} (init : σ) (body : σ → Nat → Load σ) (fuel : Nat) :
    ∀ (i : Nat) (s : σ), (img.size - 8 - i) / 8 < fuel →
      scanImageFrom mk img m init body fuel i s =
        scan (isStart mk img m) (isEnd mk img m) body init (offsetsFrom img i) s := by
  have hstart : 8 * mk.requestsStart.length ≤ sizeofStartMarker := by
    rw [mk.start_length]
    decide
  have hend : 8 * mk.requestsEnd.length ≤ sizeofEndMarker := by
    rw [mk.end_length]
    decide
  induction fuel with
  | zero =>
    intro i s h
    omega
  | succ fuel ih =>
    intro i s h
    rw [scanImageFrom, offsetsFrom]
    by_cases hi : i + sizeofEndMarker ≤ img.size
    · have hi' : i + 16 ≤ img.size := hi
      have hn : (img.size - 8 - i) / 8 = (img.size - 8 - (i + 8)) / 8 + 1 := by omega
      have hrec := fun s => ih (i + 8) s (by omega)
      rw [if_pos hi, hn, List.range'_succ, scan, hits_eq hstart, ok_bind]
      show (if isStart mk img m i = true then _ else _) = _
      split
      · exact hrec init
      · rw [hits_eq hend, ok_bind]
        show (if isEnd mk img m i = true then _ else _) = _
        split
        · rfl
        · congr 1
          funext s'
          exact hrec s'
    · have hi' : ¬i + 16 ≤ img.size := hi
      have hn : (img.size - 8 - i) / 8 = 0 := by omega
      rw [if_neg hi, hn]
      rfl

/-- The rule of both scans. -/
theorem scanImage_ends {σ : Type} {allowed : Fault → Prop} {init : σ} {body : σ → Nat → Load σ}
    {P : List Nat → σ → Prop} (hinit : P [] init)
    (hstep : ∀ front i s, P front s → Ends allowed (body s i) (P (front ++ [i]))) :
    Ends allowed (scanImage mk img m init body) (P (requestWindow mk img m)) := by
  unfold scanImage
  rw [scanImageFrom_eq init body _ 0 init (by omega)]
  exact Scan.ends hinit fun front i s _ hP => hstep front i s hP

/-- A start marker is not an end marker. -/
theorem isEnd_of_isStart (i : Nat) (h : isStart mk img m i = true) : isEnd mk img m i = false := by
  have hs := mk.start_length
  have he := mk.end_length
  have hnd := mk.nodup
  unfold isStart hit at h
  unfold isEnd hit
  rw [Bool.and_eq_true] at h
  generalize mk.requestsStart = start at hs h hnd
  generalize mk.requestsEnd = stop at he hnd
  obtain ⟨a, start, rfl⟩ := List.exists_cons_of_length_pos (by omega : 0 < start.length)
  obtain ⟨e, stop, rfl⟩ := List.exists_cons_of_length_pos (by omega : 0 < stop.length)
  have hae : a ≠ e := by
    rintro rfl
    rw [List.append_assoc, List.append_assoc, List.cons_append, List.nodup_cons] at hnd
    exact hnd.1 (by simp)
  rw [wordsAt, Bool.and_eq_true] at h
  rw [wordsAt, of_decide_eq_true h.2.1]
  simp [hae]

theorem mem_requestWindow (i : Nat) : i ∈ requestWindow mk img m ↔ InRequestWindow mk img m i := by
  unfold requestWindow
  rw [mem_window isEnd_of_isStart (offsets_sorted img)]
  unfold Inside InRequestWindow
  rw [mem_offsets]
  have hmemEnd : ∀ j, 8 ∣ j → isEnd mk img m j = true → j ∈ offsets img :=
    fun j hj he => mem_offsets.mpr ⟨hj, hit_size he⟩
  have hmemStart : ∀ j, 8 ∣ j → isStart mk img m j = true → j ∈ offsets img := by
    intro j hj hs
    have h := hit_size hs
    unfold sizeofStartMarker at h
    refine mem_offsets.mpr ⟨hj, ?_⟩
    unfold sizeofEndMarker
    omega
  refine and_congr_right fun _ => and_congr ?_ ?_
  · constructor
    · intro h j hle hj
      refine Bool.eq_false_iff.mpr fun he => ?_
      rw [h j (hmemEnd j hj he) hle] at he
      cases he
    · exact fun h j hj hle => h j hle (mem_offsets.mp hj).1
  · constructor
    · intro h j hle hj hs
      obtain ⟨k, hk, hkj, he⟩ := h j (hmemStart j hj hs) hle hs
      exact ⟨k, hkj, (mem_offsets.mp hk).1, he⟩
    · intro h j hj hle hs
      obtain ⟨k, hkj, hk, he⟩ := h j hle (mem_offsets.mp hj).1 hs
      exact ⟨k, hmemEnd k hk he, hkj, he⟩

theorem requestWindow_sorted : (requestWindow mk img m).Pairwise (· < ·) :=
  (offsets_sorted img).sublist (window_sublist _)

end

/-! ## The base revision -/

section
variable (img : LoadedImage) (m : Bytes)

/-- The revision a tag at offset `i` asks for. -/
def revisionAt (i : Nat) : Nat := leAt m (img.base + i + 16) 8

/-- What the scan keeps of a tag. -/
def scannedTag (i : Nat) : BaseRevision where
  baseRevision := min (revisionAt img m i) supportedBaseRevision
  found := true
  p1 := some (img.base + i + 8)
  p2 := if revisionAt img m i ≤ supportedBaseRevision then some (img.base + i + 16) else none

/-- What it keeps of the one tag it has seen, or of none. -/
def scanned : Option Nat → BaseRevision
  | none => {}
  | some i => scannedTag img m i

/-- The image with the answer to the tag, and the revision. -/
structure Answered (tag : Option Nat) (m' : Bytes) (revision : Nat) : Prop where
  revision_eq : revision = (scanned img m tag).baseRevision
  frame : ∀ x, (∀ i, tag = some i → x < img.base + i + 8 ∨ img.base + i + 24 ≤ x) → m' x = m x
  first : ∀ i, tag = some i → leAt m' (img.base + i + 8) 8 = revision
  second : ∀ i, tag = some i → revisionAt img m' i =
    if revisionAt img m i ≤ supportedBaseRevision then 0 else revisionAt img m i

end

section
variable {mk : Markers} {img : LoadedImage} {m : Bytes}

theorem hits_tag (i : Nat) : hits img m i sizeofBaseRevision mk.baseRevision = .ok (isTag mk img m i) :=
  hits_eq (by
    rw [mk.revision_length]
    decide)

theorem hits_request (i : Nat) : hits img m i sizeofId mk.commonMagic = .ok (isRequest mk img m i) :=
  hits_eq (by
    rw [mk.magic_length]
    decide)

theorem filter_concat {α : Type} (q : α → Bool) (l : List α) (a : α) :
    (l ++ [a]).filter q = if q a then l.filter q ++ [a] else l.filter q := by
  rw [List.filter_append]
  cases hq : q a with
  | true => simp [hq]
  | false => simp [hq]

theorem baseRevisionStep_ends {front : List Nat} {s : BaseRevision} {i : Nat}
    (h : ∃ tag : Option Nat, front.filter (isTag mk img m) = tag.toList ∧ s = scanned img m tag) :
    Ends Fault.IsPanic (baseRevisionStep mk img m s i) fun s' =>
      ∃ tag : Option Nat, (front ++ [i]).filter (isTag mk img m) = tag.toList ∧ s' = scanned img m tag := by
  obtain ⟨tag, hfront, rfl⟩ := h
  unfold baseRevisionStep
  rw [hits_tag, ok_bind, filter_concat]
  cases htag : isTag mk img m i with
  | false => exact ⟨tag, hfront, rfl⟩
  | true =>
    have hsize : i + 24 ≤ img.size := hit_size htag
    have hload : loadNat img.toRegion m (img.base + i + 16) 8 = .ok (revisionAt img m i) :=
      loadNat_eq ⟨by omega, by omega⟩
    simp only [if_true]
    refine Safely.panicIf_bind fun hfound => ?_
    cases tag with
    | some j => cases hfound
    | none =>
      rw [hload, ok_bind]
      have hfilter : front.filter (isTag mk img m) ++ [i] = (some i).toList := by
        rw [hfront]
        rfl
      have hstate : scanned img m (some i) = scannedTag img m i := rfl
      unfold scannedTag at hstate
      generalize revisionAt img m i = revision at hstate
      by_cases hrev : revision ≤ supportedBaseRevision
      · rw [Nat.min_eq_left hrev, if_pos hrev] at hstate
        rw [if_pos hrev]
        exact ⟨some i, hfilter, hstate.symm⟩
      · rw [Nat.min_eq_right (by omega), if_neg hrev] at hstate
        rw [if_neg hrev]
        exact ⟨some i, hfilter, hstate.symm⟩

theorem storeWord {r : Region} {m : Bytes} {a v : Nat} (h : r.Has a 8) (hv : v < 2 ^ 64) :
    ∃ m', storeNat r m a 8 v = .ok m' ∧ leAt m' a 8 = v ∧
      ∀ x, x < a ∨ a + 8 ≤ x → m' x = m x := by
  refine ⟨_, storeNat_eq h, ?_, fun x hx => overlay_of_not_mem hx⟩
  have hv : v < 256 ^ 8 := by omega
  refine leAt_eq_of_bytes hv fun k hk => ?_
  rw [overlay_of_mem (by omega) (by omega), Nat.add_sub_cancel_left]

/-- The two stores. -/
theorem answered_of_tag {tag : Option Nat} (htag : ∀ i, tag = some i → isTag mk img m i = true) :
    ∃ m', (storeThrough img m (scanned img m tag).p1 (scanned img m tag).baseRevision >>= fun m₁ =>
        storeThrough img m₁ (scanned img m tag).p2 0) = .ok m' ∧
      Answered img m tag m' (scanned img m tag).baseRevision := by
  cases tag with
  | none =>
    refine ⟨m, rfl, rfl, fun _ _ => rfl, ?_, ?_⟩
    · rintro i ⟨⟩
    · rintro i ⟨⟩
  | some i =>
    have hsize : i + 24 ≤ img.size := hit_size (htag i rfl)
    have hle : min (revisionAt img m i) supportedBaseRevision ≤ 6 := Nat.min_le_right _ _
    obtain ⟨m₁, hstore₁, hword₁, hframe₁⟩ :=
      storeWord (m := m) (v := min (revisionAt img m i) supportedBaseRevision)
        (⟨by omega, by omega⟩ : img.toRegion.Has (img.base + i + 8) 8) (by omega)
    have hold : revisionAt img m₁ i = revisionAt img m i :=
      leAt_congr fun x h1 h2 => hframe₁ x (by omega)
    show ∃ m', (storeNat img.toRegion m (img.base + i + 8) 8 (min (revisionAt img m i) supportedBaseRevision) >>=
        fun m₁ => storeThrough img m₁ (scannedTag img m i).p2 0) = .ok m' ∧
      Answered img m (some i) m' (min (revisionAt img m i) supportedBaseRevision)
    rw [hstore₁, ok_bind]
    by_cases hrev : revisionAt img m i ≤ supportedBaseRevision
    · obtain ⟨m₂, hstore₂, hword₂, hframe₂⟩ := storeWord (m := m₁) (v := 0)
        (⟨by omega, by omega⟩ : img.toRegion.Has (img.base + i + 16) 8) (by decide)
      have hfirst : leAt m₂ (img.base + i + 8) 8 = leAt m₁ (img.base + i + 8) 8 :=
        leAt_congr fun x h1 h2 => hframe₂ x (by omega)
      refine ⟨m₂, ?_, rfl, fun x hx => ?_, ?_, ?_⟩
      · unfold scannedTag
        rw [if_pos hrev]
        exact hstore₂
      · have h := hx i rfl
        rw [hframe₂ x (by omega), hframe₁ x (by omega)]
      · rintro j ⟨⟩
        rw [hfirst, hword₁]
      · rintro j ⟨⟩
        rw [if_pos hrev]
        exact hword₂
    · refine ⟨m₁, ?_, rfl, fun x hx => ?_, ?_, ?_⟩
      · unfold scannedTag
        rw [if_neg hrev]
        rfl
      · have h := hx i rfl
        exact hframe₁ x (by omega)
      · rintro j ⟨⟩
        exact hword₁
      · rintro j ⟨⟩
        rw [if_neg hrev]
        exact hold

/-- The one tag of the window is answered, or there is none. -/
theorem determineBaseRevision_safely (arch : Arch) :
    Safely (determineBaseRevision arch mk img m) fun r =>
      ∃ tag : Option Nat, (requestWindow mk img m).filter (isTag mk img m) = tag.toList ∧
        Answered img m tag r.1 r.2 := by
  have hscan : Safely (scanImage mk img m {} (baseRevisionStep mk img m)) fun s =>
      ∃ tag : Option Nat, (requestWindow mk img m).filter (isTag mk img m) = tag.toList ∧
        s = scanned img m tag :=
    scanImage_ends (P := fun front s => ∃ tag : Option Nat,
      front.filter (isTag mk img m) = tag.toList ∧ s = scanned img m tag)
      ⟨none, rfl, rfl⟩ fun _ _ _ h => baseRevisionStep_ends h
  unfold determineBaseRevision
  refine hscan.bind ?_
  rintro _ ⟨tag, htag, rfl⟩
  have hmem : ∀ i, tag = some i → isTag mk img m i = true := by
    rintro i rfl
    have hi : i ∈ (requestWindow mk img m).filter (isTag mk img m) := by
      rw [htag]
      exact List.mem_singleton_self i
    exact (List.mem_filter.mp hi).2
  obtain ⟨m', hstores, hanswered⟩ := answered_of_tag hmem
  obtain ⟨m₁, hstore₁, hstore₂⟩ := except_bind_eq_ok.mp hstores
  show Safely (storeThrough img m _ _ >>= _) _
  rw [hstore₁, ok_bind]
  show Safely (storeThrough img m₁ _ _ >>= _) _
  rw [hstore₂, ok_bind]
  refine Safely.panicIf_bind fun _ => ?_
  exact ⟨tag, htag, hanswered⟩

/-! ## What the answer leaves of the marks -/

/-- A word that is none of a tag's and no revision. -/
structure Stable (mk : Markers) (w : Nat) : Prop where
  large : supportedBaseRevision < w
  other : w ∉ mk.baseRevision

/-- The words of the markers and of the magic stay where they are, and come up nowhere else. -/
theorem Answered.word_eq_iff {tag : Option Nat} {m' : Bytes} {revision : Nat}
    (h : Answered img m tag m' revision) (htag : ∀ i, tag = some i → 8 ∣ i ∧ isTag mk img m i = true)
    {w : Nat} (hw : Stable mk w) {j : Nat} (hj : 8 ∣ j) :
    leAt m' (img.base + j) 8 = w ↔ leAt m (img.base + j) 8 = w := by
  have hlarge : 6 < w := hw.large
  cases tag with
  | none => rw [leAt_congr fun x _ _ => h.frame x (by rintro i ⟨⟩)]
  | some i =>
    obtain ⟨hi, hhit⟩ := htag i rfl
    have hrevision : revision ≤ 6 := by
      rw [h.revision_eq]
      exact Nat.min_le_right _ _
    by_cases h1 : j = i + 8
    · -- The tag's second word becomes the revision.
      subst h1
      have hfirst := h.first i rfl
      rw [Nat.add_assoc] at hfirst
      have hsecond : leAt m (img.base + (i + 8)) 8 ∈ mk.baseRevision := by
        unfold isTag hit at hhit
        rw [Bool.and_eq_true] at hhit
        have hmem := wordsAt_mem mk.baseRevision hhit.2 1 (by rw [mk.revision_length]; decide)
        rwa [Nat.add_assoc] at hmem
      constructor
      · intro hword
        omega
      · rintro rfl
        exact absurd hsecond hw.other
    · by_cases h2 : j = i + 16
      · -- Its third is 0 from now on, or as it was.
        subst h2
        have hsecond := h.second i rfl
        unfold revisionAt at hsecond
        rw [Nat.add_assoc] at hsecond
        rw [hsecond]
        split
        · next hle =>
          have hle : leAt m (img.base + (i + 16)) 8 ≤ 6 := hle
          constructor
          · intro hword
            omega
          · intro hword
            omega
        · rfl
      · rw [leAt_congr fun x hx1 hx2 => h.frame x fun i' hi' => ?_]
        cases hi'
        omega

theorem Answered.wordsAt_eq {tag : Option Nat} {m' : Bytes} {revision : Nat}
    (h : Answered img m tag m' revision) (htag : ∀ i, tag = some i → 8 ∣ i ∧ isTag mk img m i = true)
    (ws : List Nat) : (∀ w ∈ ws, Stable mk w) → ∀ j, 8 ∣ j →
      wordsAt m' (img.base + j) ws = wordsAt m (img.base + j) ws := by
  induction ws with
  | nil =>
    intro _ j _
    rfl
  | cons w ws ih =>
    intro hws j hj
    have hrec := ih (fun w' hw' => hws w' (List.mem_cons_of_mem w hw')) (j + 8) (by omega)
    rw [wordsAt, wordsAt, Nat.add_assoc, hrec,
      decide_eq_decide.mpr (h.word_eq_iff htag (hws w List.mem_cons_self) hj)]

theorem Answered.hit_eq {tag : Option Nat} {m' : Bytes} {revision : Nat}
    (h : Answered img m tag m' revision) (htag : ∀ i, tag = some i → 8 ∣ i ∧ isTag mk img m i = true)
    {ws : List Nat} (hws : ∀ w ∈ ws, Stable mk w) {j : Nat} (hj : 8 ∣ j) (size : Nat) :
    hit img m' j size ws = hit img m j size ws := by
  unfold hit
  rw [h.wordsAt_eq htag ws hws j hj]

theorem Markers.stable (mk : Markers) : (∀ w ∈ mk.requestsStart, Stable mk w) ∧
    (∀ w ∈ mk.requestsEnd, Stable mk w) ∧ ∀ w ∈ mk.commonMagic, Stable mk w := by
  have hlarge := mk.large
  obtain ⟨hnd, -, hmagic⟩ := List.nodup_append.mp mk.nodup
  obtain ⟨-, -, hrev⟩ := List.nodup_append.mp hnd
  refine ⟨fun w hw => ⟨hlarge w (by simp [hw]), fun hmem => ?_⟩,
    fun w hw => ⟨hlarge w (by simp [hw]), fun hmem => ?_⟩,
    fun w hw => ⟨hlarge w (by simp [hw]), fun hmem => ?_⟩⟩
  · exact hrev w (List.mem_append_left _ hw) w hmem rfl
  · exact hrev w (List.mem_append_right _ hw) w hmem rfl
  · exact hmagic w (List.mem_append_right _ hmem) w hw rfl

end

end Limine.Protos
