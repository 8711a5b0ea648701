import Limine.Protos.RequestWindow

/-!
# What request discovery finds

The array holds the requests of the window, in order and with IDs of their own, or what a
`.limine_reqs` section lists.  Every read on the way is inside the image or inside the memory of the
section's copy; `_get_request` can be asked for an ID at any time afterwards.
-/

namespace Limine.Protos
open Limine.Loader Limine.Lib Limine.Elf

/-! ## `_get_request` -/

/-- The last two words of the IDs are the same. -/
def SameId (m : Bytes) (p q : Nat) : Prop :=
  leAt m (p + 16) 8 = leAt m (q + 16) 8 ∧ leAt m (p + 24) 8 = leAt m (q + 24) 8

section
variable {img : LoadedImage} {m : Bytes}

theorem getRequest_eq (id : Fin 4 → Nat) (size : Nat) (requests : List Nat) :
    (∀ p ∈ requests, img.Has p sizeofId) →
      getRequest img m id size requests = .ok (requests.find? (img.answers m id size)) := by
  induction requests with
  | nil =>
    intro _
    rfl
  | cons p requests ih =>
    intro h
    obtain ⟨h1, h2⟩ := h p List.mem_cons_self
    unfold sizeofId at h2
    have hrec := ih fun q hq => h q (List.mem_cons_of_mem p hq)
    rw [getRequest, loadNat_eq ⟨by omega, by omega⟩, ok_bind, hrec, List.find?_cons]
    unfold LoadedImage.answers
    by_cases hw2 : leAt m (p + 16) 8 = id 2
    · rw [if_neg (by simp [hw2]), loadNat_eq ⟨by omega, by omega⟩, ok_bind]
      by_cases hw3 : leAt m (p + 24) 8 = id 3
      · rw [if_neg (by simp [hw3])]
        by_cases htop : add64 p size ≤ img.requestsTop
        · rw [if_neg (by omega)]
          simp [hw2, hw3, htop]
          rfl
        · rw [if_pos (by omega)]
          simp [hw2, hw3, htop]
      · simp [hw2, hw3]
    · simp [hw2]

theorem requestsTop_eq (img : LoadedImage) : img.requestsTop = img.base + img.size := add64_eq img.fits

/-- What it returns is one of the requests, by the last words of its ID, with room in the image. -/
theorem getRequest_found {id : Fin 4 → Nat} {size : Nat} {requests : List Nat}
    (h : ∀ p ∈ requests, img.Has p sizeofId) (hsize : img.base + img.size + size ≤ 2 ^ 64) :
    ∃ r, getRequest img m id size requests = .ok r ∧ ∀ p, r = some p →
      p ∈ requests ∧ leAt m (p + 16) 8 = id 2 ∧ leAt m (p + 24) 8 = id 3 ∧ img.Has p size := by
  refine ⟨_, getRequest_eq id size requests h, fun p hp => ?_⟩
  have hmem := List.mem_of_find?_eq_some hp
  have hanswers := List.find?_some hp
  unfold LoadedImage.answers at hanswers
  rw [Bool.and_eq_true, Bool.and_eq_true, decide_eq_true_iff, decide_eq_true_iff, decide_eq_true_iff,
    requestsTop_eq] at hanswers
  obtain ⟨⟨hw2, hw3⟩, htop⟩ := hanswers
  obtain ⟨h1, h2⟩ := h p hmem
  unfold sizeofId at h2
  rw [add64_eq (by omega)] at htop
  exact ⟨hmem, hw2, hw3, h1, htop⟩

/-- Where it finds nothing for the ID at `q`, nothing has that ID. -/
theorem getRequest_none {q : Nat} {requests : List Nat} (h : ∀ p ∈ requests, img.Has p sizeofId)
    (hnone : requests.find? (img.answers m (fun j => leAt m (q + 8 * j) 8) sizeofId) = none) :
    ∀ p ∈ requests, ¬SameId m p q := by
  rintro p hp ⟨hw2, hw3⟩
  have hlt := img.fits
  obtain ⟨h1, h2⟩ := h p hp
  have hno := List.find?_eq_none.mp hnone p hp
  refine hno ?_
  unfold LoadedImage.answers
  rw [Bool.and_eq_true, Bool.and_eq_true, decide_eq_true_iff, decide_eq_true_iff, decide_eq_true_iff,
    requestsTop_eq, add64_eq (by omega)]
  exact ⟨⟨hw2, hw3⟩, h2⟩

end

/-! ## Collecting -/

section
variable {mk : Markers} {img : LoadedImage} {m : Bytes}

/-- The requests of the positions a scan is through with. -/
structure Collected (mk : Markers) (img : LoadedImage) (m : Bytes) (front requests : List Nat) : Prop where
  eq : requests = (front.filter (isRequest mk img m)).map (img.base + ·)
  count : requests.length ≤ maxRequests
  distinct : requests.Pairwise fun p q => ¬SameId m p q

theorem Collected.has {front requests : List Nat} (h : Collected mk img m front requests) :
    ∀ p ∈ requests, img.Has p sizeofId := by
  intro p hp
  rw [h.eq] at hp
  obtain ⟨i, hi, rfl⟩ := List.mem_map.mp hp
  have hsize := hit_size (List.mem_filter.mp hi).2
  exact ⟨by omega, by omega⟩

theorem collectStep_safely {front requests : List Nat} {i : Nat}
    (h : Collected mk img m front requests) :
    Safely (collectStep mk img m requests i) (Collected mk img m (front ++ [i])) := by
  unfold collectStep
  rw [hits_request, ok_bind]
  cases hreq : isRequest mk img m i with
  | false =>
    refine ⟨?_, h.count, h.distinct⟩
    rw [filter_concat, hreq]
    exact h.eq
  | true =>
    have hsize : i + sizeofId ≤ img.size := hit_size hreq
    have hid : loadId img m (img.base + i) = .ok fun j => leAt m (img.base + i + 8 * j) 8 :=
      if_pos ⟨by omega, by omega⟩
    refine Safely.panicIf_bind fun hmax => ?_
    have hlt : requests.length < maxRequests := by
      have hcount := h.count
      have hne : requests.length ≠ maxRequests := by simpa using hmax
      omega
    rw [hid, ok_bind, getRequest_eq _ sizeofId requests h.has, ok_bind]
    refine Safely.panicIf_bind fun hfound => ?_
    unfold pushRequest
    rw [if_pos hlt]
    refine ⟨?_, ?_, ?_⟩
    · rw [filter_concat, hreq, if_pos rfl, List.map_append, ← h.eq]
      rfl
    · rw [List.length_append]
      exact hlt
    · exact pairwise_concat h.distinct
        (getRequest_none h.has (Option.not_isSome_iff_eq_none.mp (by simp [hfound])))

theorem collectMarked_safely : Safely (scanImage mk img m [] (collectStep mk img m))
    (Collected mk img m (requestWindow mk img m)) :=
  scanImage_ends ⟨rfl, Nat.zero_le _, List.Pairwise.nil⟩ fun _ _ _ h => collectStep_safely h

/-- An aligned position with room for an ID. -/
def LoadedImage.Position (img : LoadedImage) (p : Nat) : Prop :=
  ∃ i, 8 ∣ i ∧ i + sizeofId ≤ img.size ∧ p = img.base + i

theorem collectSectionFrom_safely {buffer : Region} {copy : Bytes} (hbuffer : 4096 ≤ buffer.size) (n : Nat) :
    ∀ requests : List Nat, requests.length + n = maxRequests → (∀ p ∈ requests, img.Position p) →
      Safely (collectSectionFrom img buffer copy n requests.length requests) fun requests =>
        ∀ p ∈ requests, img.Position p := by
  induction n with
  | zero =>
    intro requests _ _
    exact Safely.panic
  | succ n ih =>
    intro requests hlen hrequests
    have hmax : requests.length + n < 128 := by
      have h : requests.length + (n + 1) = 128 := hlen
      omega
    have hlt := img.fits
    rw [collectSectionFrom, loadNat_eq ⟨by omega, by omega⟩, ok_bind]
    generalize leAt copy (buffer.base + 8 * requests.length) 8 = entry
    split
    · exact hrequests
    · refine Safely.panicIf_bind fun hinside => Safely.panicIf_bind fun haligned => ?_
      generalize sub64 entry img.virtualBase = off at hinside haligned
      simp only [Bool.or_eq_false_iff, decide_eq_false_iff_not] at hinside
      obtain ⟨⟨-, h1⟩, h2⟩ := hinside
      have h3 : off % 8 = 0 := by simpa using haligned
      unfold pushRequest
      rw [if_pos (by unfold maxRequests; omega), ok_bind, add64_eq (by omega), Nat.add_comm off]
      have hrec := ih (requests ++ [img.base + off])
      rw [List.length_append, List.length_singleton] at hrec
      exact hrec (by omega) (forall_mem_concat hrequests ⟨off, by omega, by omega, rfl⟩)

theorem limineReqs_size {arch : Arch} {alloc : Allocator} {elf : Option File} {slide revision : Nat}
    {buffer : Region} {copy : Bytes}
    (h : limineReqs arch alloc elf slide revision = .ok (some (buffer, copy))) : 4096 ≤ buffer.size := by
  unfold limineReqs at h
  split at h
  · split at h
    · exact elf64LoadSection_size h
    · cases h
  · cases h

/-- Only revision 0 looks at a section. -/
theorem limineReqs_error {arch : Arch} {alloc : Allocator} {elf : Option File} {slide revision : Nat}
    {e : Fault} (h : limineReqs arch alloc elf slide revision = .error e) :
    limineReqs arch alloc elf slide 0 = .error e := by
  unfold limineReqs at h ⊢
  split at h
  · split at h
    · next hrev =>
      rw [if_pos rfl]
      exact h
    · cases h
  · cases h

/-! ## Discovery -/

/-- What discovery finds in the image `m`, with the section's copy or without one. -/
structure Found (mk : Markers) (img : LoadedImage) (m : Bytes) (section_ : Option (Region × Bytes))
    (d : Discovered) : Prop where
  /-- The base revision is that of the window's only tag, if it has one. -/
  revision :
    (∃ i, (∀ j, InRequestWindow mk img m j ∧ isTag mk img m j = true ↔ j = i) ∧
      d.baseRevision = min (revisionAt img m i) supportedBaseRevision) ∨
    (∀ j, InRequestWindow mk img m j → isTag mk img m j = false) ∧ d.baseRevision = 0
  /-- Nothing but the tag's second and third word is written. -/
  image : ∀ x, (∀ i, InRequestWindow mk img m i → isTag mk img m i = true →
    x < img.base + i + 8 ∨ img.base + i + 24 ≤ x) → d.image x = m x
  ascending : section_ = none → d.requests.Pairwise (· < ·)
  mem_iff : section_ = none → ∀ p, p ∈ d.requests ↔
    ∃ i, InRequestWindow mk img m i ∧ isRequest mk img m i = true ∧ p = img.base + i
  distinct : section_ = none → d.requests.Pairwise fun p q => ¬SameId d.image p q
  listed : ∀ p ∈ d.requests, img.Position p
  /-- `_get_request`, in whatever the image has become. -/
  get : ∀ (m' : Bytes) (id : Fin 4 → Nat) (size : Nat), img.base + img.size + size ≤ 2 ^ 64 →
    ∃ r, getRequest img m' id size d.requests = .ok r ∧ ∀ p, r = some p →
      p ∈ d.requests ∧ leAt m' (p + 16) 8 = id 2 ∧ leAt m' (p + 24) 8 = id 3 ∧ img.Has p size

theorem LoadedImage.Position.has {p : Nat} (h : img.Position p) : img.Has p sizeofId := by
  obtain ⟨i, -, hi, rfl⟩ := h
  exact ⟨by omega, by omega⟩

/-- The tags of the window as the scan has them. -/
theorem tag_of_window {tag : Option Nat}
    (h : (requestWindow mk img m).filter (isTag mk img m) = tag.toList) (i : Nat) :
    InRequestWindow mk img m i ∧ isTag mk img m i = true ↔ tag = some i := by
  rw [← mem_requestWindow, ← List.mem_filter, h, Option.mem_toList]

theorem Answered.window {tag : Option Nat} {m' : Bytes} {revision : Nat}
    (h : Answered img m tag m' revision) (htag : ∀ i, tag = some i → 8 ∣ i ∧ isTag mk img m i = true) :
    requestWindow mk img m' = requestWindow mk img m ∧
      ∀ i, 8 ∣ i → isRequest mk img m' i = isRequest mk img m i := by
  obtain ⟨hstart, hend, hmagic⟩ := mk.stable
  constructor
  · unfold requestWindow
    refine window_congr (fun i hi => ?_) fun i hi => ?_
    · exact h.hit_eq htag hstart (mem_offsets.mp hi).1 _
    · exact h.hit_eq htag hend (mem_offsets.mp hi).1 _
  · exact fun i hi => h.hit_eq htag hmagic hi _

theorem Collected.mem_iff {requests : List Nat}
    (h : Collected mk img m (requestWindow mk img m) requests) (p : Nat) : p ∈ requests ↔
      ∃ i, InRequestWindow mk img m i ∧ isRequest mk img m i = true ∧ p = img.base + i := by
  rw [h.eq, List.mem_map]
  constructor
  · rintro ⟨i, hi, rfl⟩
    obtain ⟨hw, hr⟩ := List.mem_filter.mp hi
    exact ⟨i, mem_requestWindow i |>.mp hw, hr, rfl⟩
  · rintro ⟨i, hw, hr, rfl⟩
    exact ⟨i, List.mem_filter.mpr ⟨(mem_requestWindow i).mpr hw, hr⟩, rfl⟩

theorem Collected.ascending {requests : List Nat}
    (h : Collected mk img m (requestWindow mk img m) requests) : requests.Pairwise (· < ·) := by
  rw [h.eq, List.pairwise_map]
  refine (requestWindow_sorted.sublist List.filter_sublist).imp fun hlt => ?_
  omega

/-- Discovery ends with what it is to find, or in a panic, or where the section's loading goes wrong. -/
theorem discoverRequests_finds (arch : Arch) (alloc : Allocator) (mk : Markers) (img : LoadedImage)
    (m : Bytes) (elf : Option File) (slide : Nat) :
    Ends (fun e => e.IsPanic ∨ limineReqs arch alloc elf slide 0 = .error e)
      (discoverRequests arch alloc mk img m elf slide) fun d =>
        ∃ section_, limineReqs arch alloc elf slide d.baseRevision = .ok section_ ∧
          Found mk img m section_ d := by
  unfold discoverRequests
  have hdetermine : Safely (determineBaseRevision arch mk img m) _ := determineBaseRevision_safely arch
  refine (Ends.weaken hdetermine fun _ => .inl).bind ?_
  rintro ⟨m', revision⟩ ⟨tag, hfilter, hanswered⟩
  have htag := tag_of_window hfilter
  have hmem : ∀ i, tag = some i → 8 ∣ i ∧ isTag mk img m i = true := by
    intro i hi
    obtain ⟨hw, ht⟩ := (htag i).mpr hi
    exact ⟨hw.1.1, ht⟩
  obtain ⟨hwindow, hrequest⟩ := hanswered.window hmem
  refine (Ends.weaken (extMemAllocCounted_safely alloc 2 maxRequests 8) fun _ => .inl).bind fun _ _ => ?_
  cases hsection : limineReqs arch alloc elf slide revision with
  | error e => exact .inr (limineReqs_error hsection)
  | ok section_ =>
    rw [ok_bind]
    have hfound : ∀ requests, (∀ p ∈ requests, img.Position p) →
        (section_ = none → Collected mk img m' (requestWindow mk img m') requests) →
        Found mk img m section_ ⟨m', revision, requests⟩ := by
      intro requests hposition hcollected
      refine ⟨?_, fun x hx => hanswered.frame x fun i hi => ?_, fun hs => (hcollected hs).ascending,
        fun hs p => ?_, fun hs => (hcollected hs).distinct, hposition,
        fun m'' id size hsize => getRequest_found (fun p hp => (hposition p hp).has) hsize⟩
      · cases tag with
        | none =>
          refine .inr ⟨fun j hw => Bool.eq_false_iff.mpr fun ht => ?_, hanswered.revision_eq⟩
          cases (htag j).mp ⟨hw, ht⟩
        | some i =>
          refine .inl ⟨i, fun j => ?_, hanswered.revision_eq⟩
          rw [htag j, Option.some.injEq]
          exact eq_comm
      · obtain ⟨hw, ht⟩ := (htag i).mpr hi
        exact hx i hw ht
      · rw [(hcollected hs).mem_iff p]
        refine exists_congr fun i => ?_
        rw [← mem_requestWindow, hwindow, mem_requestWindow]
        refine and_congr_right fun hw => ?_
        rw [hrequest i hw.1.1]
    cases section_ with
    | none =>
      refine (Ends.weaken collectMarked_safely fun _ => .inl).bind fun requests hrequests => ?_
      refine ⟨none, hsection, hfound requests (fun p hp => ?_) fun _ => hrequests⟩
      obtain ⟨i, hw, hr, rfl⟩ := (hrequests.mem_iff p).mp hp
      exact ⟨i, hw.1.1, hit_size hr, rfl⟩
    | some s =>
      obtain ⟨buffer, copy⟩ := s
      have hcollect : Safely (collectSectionFrom img buffer copy maxRequests 0 []) fun requests =>
          ∀ p ∈ requests, img.Position p :=
        collectSectionFrom_safely (limineReqs_size hsection) maxRequests [] (Nat.zero_add _) (by simp)
      refine (Ends.weaken hcollect fun _ => .inl).bind fun requests hrequests => ?_
      refine ⟨some (buffer, copy), hsection, hfound requests hrequests ?_⟩
      rintro ⟨⟩

end

/-! ## An ID across the end marker -/

/-- The published constants of the protocol. -/
def protocolMarkers : Markers where
  requestsStart := [0xf6b8f4b39de7d1ae, 0xfab91a6940fcb9cf, 0x785c6ed015d3e316, 0x181e920a7852b9d9]
  requestsEnd := [0xadc0e0531bb10d03, 0x9572709f31764c62]
  baseRevision := [0xf9562b2d5c95a6c8, 0x6a7b384944536bdc]
  commonMagic := [0xc7b1dd30df4c8b88, 0x0a82e883a194f07b]
  start_length := rfl
  end_length := rfl
  revision_length := rfl
  magic_length := rfl
  nodup := by decide
  large := by decide

/-- An image of four words, at the first page. -/
def fourWords : LoadedImage where
  base := 4096
  size := 32
  fits := by decide
  virtualBase := 0xffffffff80000000
  page := by decide

/-- The magic of a request, and the end marker behind it. -/
def endMarkerInId : Bytes := fun x =>
  wordByte [0xc7b1dd30df4c8b88, 0x0a82e883a194f07b, 0xadc0e0531bb10d03, 0x9572709f31764c62] (x - 4096)

/-- The request at offset 0 is found although the window ends at 16, before the end of its ID. -/
theorem discoverRequests_pastEnd :
    (discoverRequests .x86_64 plainAlloc protocolMarkers fourWords endMarkerInId none 0).map
        (·.requests) = .ok [fourWords.base + 0] ∧
      isEnd protocolMarkers fourWords endMarkerInId 16 = true ∧ ¬0 + sizeofId ≤ 16 := by
  refine ⟨?_, ?_, ?_⟩
  · rfl
  · decide
  · decide

end Limine.Protos
