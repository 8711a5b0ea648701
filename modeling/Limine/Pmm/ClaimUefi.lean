import Limine.Pmm.Room

/-!
# Claiming usable memory from the firmware

`pmm_claim_uefi_pages` asks the firmware for every page of a usable range, in chunks that shrink
when one is refused, and down to single pages in `pmm_claim_uefi_pages_fallback`.  What the
firmware refuses is retyped.  The firmware may decide on all it was asked before.

    the range usable →
      every page granted once and usable, or granted never and EFI reclaimable    (Claimed)
-/

namespace Limine.Pmm

open Limine.Lib MemmapEntry

/-- `UEFI_ALLOC_MIN_PAGES` -/
def uefiAllocMinPages : Nat := 0x04000000 / pageSize

/-- One call of `AllocatePages(AllocateAddress, ..)`. -/
structure Request where
  base : Nat
  pages : Nat
  granted : Bool
deriving DecidableEq, Repr

/-- Whether the firmware grants pages at an address, given all requests before, newest first. -/
abbrev Firmware := List Request → Nat → Nat → Bool

structure ClaimState where
  memmap : Memmap
  /-- `uefi_alloc_chunk_pages` -/
  chunkPages : Nat
  requests : List Request
  chunkPages_ge : uefiAllocMinPages ≤ chunkPages

/-- The request was granted and covers the page at `p`. -/
def Request.owns (p : Nat) (r : Request) : Bool :=
  r.granted && decide (r.base ≤ p ∧ p + pageSize ≤ r.base + r.pages * pageSize)

/-- The addresses of `n` pages from `base` on. -/
def pagesFrom (base n : Nat) : Set Nat := {p | ∃ i < n, p = base + i * pageSize}

def InPage (p a : Nat) : Prop := p ≤ a ∧ a < p + pageSize

/-- The page was granted once and is usable, or was not granted and is EFI reclaimable. -/
def PageDone (new : List Request) (m : Memmap) (p : Nat) : Prop :=
  new.countP (Request.owns p) = 1 ∧ (∀ a, InPage p a → typesAt m a = {memmapUsable}) ∨
  new.countP (Request.owns p) = 0 ∧ (∀ a, InPage p a → typesAt m a = {memmapEfiReclaimable})

/-- From `s` to `s'` the pages `P` were claimed and nothing else happened; the map grew by at most
`2 * budget` entries. -/
structure Claimed (cfg : Config) (P : Set Nat) (budget : Nat) (s s' : ClaimState)
    (new : List Request) : Prop where
  requests : s'.requests = new ++ s.requests
  within : ∀ r ∈ new, ∀ j < r.pages, r.base + j * pageSize ∈ P
  sanitised : Sanitised cfg.keepFirstPage false s'.memmap
  length_le : s'.memmap.length ≤ s.memmap.length + 2 * budget
  chunkPages_le : s'.chunkPages ≤ s.chunkPages
  outside : ∀ a, (∀ p ∈ P, ¬ InPage p a) → typesAt s'.memmap a = typesAt s.memmap a
  done : ∀ p ∈ P, PageDone new s'.memmap p

/-- All of `n` pages from `base` on is usable. -/
def UsablePages (m : Memmap) (base n : Nat) : Prop :=
  ∀ a, base ≤ a → a < base + n * pageSize → Covers m memmapUsable a

/-! ## Pages -/

theorem pageSize_pos : 0 < pageSize := by decide

theorem pagesFrom_add (base k n : Nat) :
    pagesFrom base (k + n) = pagesFrom base k ∪ pagesFrom (base + k * pageSize) n := by
  ext p
  constructor
  · rintro ⟨i, hi, rfl⟩
    rcases Nat.lt_or_ge i k with hik | hik
    · exact Or.inl ⟨i, hik, rfl⟩
    · refine Or.inr ⟨i - k, by omega, ?_⟩
      rw [Nat.add_assoc, ← Nat.add_mul, Nat.add_sub_cancel' hik]
  · rintro (⟨i, hi, rfl⟩ | ⟨i, hi, rfl⟩)
    · exact ⟨i, by omega, rfl⟩
    · exact ⟨k + i, by omega, by rw [Nat.add_mul, Nat.add_assoc]⟩

theorem exists_inPage {base n a : Nat} :
    (∃ p ∈ pagesFrom base n, InPage p a) ↔ base ≤ a ∧ a < base + n * pageSize := by
  have hpos := pageSize_pos
  constructor
  · rintro ⟨p, ⟨i, hi, rfl⟩, h₁, h₂⟩
    have := Nat.mul_le_mul_right pageSize hi
    rw [Nat.succ_mul] at this
    omega
  · rintro ⟨h₁, h₂⟩
    have hdiv := Nat.div_add_mod (a - base) pageSize
    have hmod := Nat.mod_lt (a - base) hpos
    rw [Nat.mul_comm] at hdiv
    refine ⟨base + (a - base) / pageSize * pageSize, ⟨(a - base) / pageSize, ?_, rfl⟩, ?_, ?_⟩
    · exact (Nat.div_lt_iff_lt_mul hpos).mpr (by omega)
    · omega
    · omega

/-- Two runs of pages, one after the other. -/
theorem pagesFrom_apart (base k n : Nat) :
    ∀ p ∈ pagesFrom base k, ∀ q ∈ pagesFrom (base + k * pageSize) n, p + pageSize ≤ q := by
  rintro p ⟨i, hi, rfl⟩ q ⟨j, -, rfl⟩
  have := Nat.mul_le_mul_right pageSize hi
  rw [Nat.succ_mul] at this
  omega

/-- The pages of a request that are not in `P` are none of it. -/
theorem owns_of_apart {P : Set Nat} {r : Request} {p : Nat}
    (hr : ∀ j < r.pages, r.base + j * pageSize ∈ P)
    (hp : ∀ q ∈ P, p + pageSize ≤ q ∨ q + pageSize ≤ p) : Request.owns p r = false := by
  have hpos := pageSize_pos
  unfold Request.owns
  rw [Bool.and_eq_false_iff]
  right
  rw [decide_eq_false_iff_not]
  rintro ⟨h₁, h₂⟩
  have hdiv := Nat.div_add_mod (p - r.base) pageSize
  have hmod := Nat.mod_lt (p - r.base) hpos
  rw [Nat.mul_comm] at hdiv
  have hlt : (p - r.base) / pageSize < r.pages := (Nat.div_lt_iff_lt_mul hpos).mpr (by omega)
  rcases hp _ (hr _ hlt) with h | h
  · omega
  · omega

theorem countP_owns_of_apart {P : Set Nat} {new : List Request} {p : Nat}
    (hr : ∀ r ∈ new, ∀ j < r.pages, r.base + j * pageSize ∈ P)
    (hp : ∀ q ∈ P, p + pageSize ≤ q ∨ q + pageSize ≤ p) : new.countP (Request.owns p) = 0 := by
  rw [List.countP_eq_zero]
  intro r hmem
  rw [owns_of_apart (hr r hmem) hp]
  exact Bool.false_ne_true

/-! ## Claims compose -/

namespace Claimed

variable {cfg : Config} {P Q : Set Nat} {b b' : Nat} {s s' s'' : ClaimState}
  {new new' : List Request}

theorem none (hs : Sanitised cfg.keepFirstPage false s.memmap) : Claimed cfg ∅ 0 s s [] where
  requests := rfl
  within := by simp
  sanitised := hs
  length_le := Nat.le_refl _
  chunkPages_le := Nat.le_refl _
  outside := fun _ _ => rfl
  done := by simp

theorem trans (h : Claimed cfg P b s s' new) (h' : Claimed cfg Q b' s' s'' new')
    (hap : ∀ p ∈ P, ∀ q ∈ Q, p + pageSize ≤ q ∨ q + pageSize ≤ p) :
    Claimed cfg (P ∪ Q) (b + b') s s'' (new' ++ new) where
  requests := by rw [h'.requests, h.requests, List.append_assoc]
  within := by
    intro r hr j hj
    rcases List.mem_append.mp hr with hr | hr
    · exact Or.inr (h'.within r hr j hj)
    · exact Or.inl (h.within r hr j hj)
  sanitised := h'.sanitised
  length_le := by
    have := h.length_le
    have := h'.length_le
    omega
  chunkPages_le := Nat.le_trans h'.chunkPages_le h.chunkPages_le
  outside := by
    intro a ha
    rw [h'.outside a fun p hp => ha p (Or.inr hp), h.outside a fun p hp => ha p (Or.inl hp)]
  done := by
    have hpos := pageSize_pos
    rintro p (hp | hp)
    · -- the second claim has no request for the page and leaves its type alone
      have hcount : (new' ++ new).countP (Request.owns p) = new.countP (Request.owns p) := by
        rw [List.countP_append, countP_owns_of_apart h'.within (hap p hp), Nat.zero_add]
      have htypes : ∀ a, InPage p a → typesAt s''.memmap a = typesAt s'.memmap a := by
        rintro a ⟨h₁, h₂⟩
        refine h'.outside a fun q hq => ?_
        rintro ⟨h₃, h₄⟩
        rcases hap p hp q hq with hpq | hpq <;> omega
      unfold PageDone
      rw [hcount]
      refine (h.done p hp).imp ?_ ?_
      · exact fun ⟨hc, ht⟩ => ⟨hc, fun a ha => (htypes a ha).trans (ht a ha)⟩
      · exact fun ⟨hc, ht⟩ => ⟨hc, fun a ha => (htypes a ha).trans (ht a ha)⟩
    · have hcount : (new' ++ new).countP (Request.owns p) = new'.countP (Request.owns p) := by
        rw [List.countP_append, countP_owns_of_apart h.within fun q hq => (hap q hq p hp).symm,
          Nat.add_zero]
      unfold PageDone
      rw [hcount]
      exact h'.done p hp

/-- A request that was refused changes nothing. -/
theorem refused {r : Request} (hr : r.granted = false) (hin : ∀ j < r.pages, r.base + j * pageSize ∈ P)
    (hm : s'.memmap = s.memmap) (hreq : s'.requests = r :: s.requests)
    (hchunk : s'.chunkPages ≤ s.chunkPages) (h : Claimed cfg P b s' s'' new) : Claimed cfg P b s s'' (new ++ [r]) where
  requests := by rw [h.requests, hreq, List.append_assoc]; rfl
  within := by
    intro x hx
    rcases List.mem_append.mp hx with hx | hx
    · exact h.within x hx
    · obtain rfl := List.mem_singleton.mp hx
      exact hin
  sanitised := h.sanitised
  length_le := by
    rw [← hm]
    exact h.length_le
  chunkPages_le := Nat.le_trans h.chunkPages_le hchunk
  outside := by
    intro a ha
    rw [h.outside a ha, hm]
  done := by
    intro p hp
    have hcount : (new ++ [r]).countP (Request.owns p) = new.countP (Request.owns p) := by
      rw [List.countP_append, List.countP_singleton]
      simp [Request.owns, hr]
    unfold PageDone
    rw [hcount]
    exact h.done p hp

end Claimed

/-! ## The steps -/

section Steps

variable {cfg : Config} {s : ClaimState} {base n : Nat}

theorem UsablePages.types (hs : Sanitised cfg.keepFirstPage false s.memmap)
    (hu : UsablePages s.memmap base n) {a : Nat} (h₁ : base ≤ a) (h₂ : a < base + n * pageSize) :
    typesAt s.memmap a = {memmapUsable} := by
  have hc := hu a h₁ h₂
  ext t
  rw [Set.mem_singleton_iff]
  constructor
  · intro ht
    exact hs.disjoint.eq_of_covers hc ht
  · rintro rfl
    exact hc

theorem UsablePages.lt (hs : Sanitised cfg.keepFirstPage false s.memmap) (hn : 0 < n)
    (hu : UsablePages s.memmap base n) : base + n * pageSize < 2 ^ 64 := by
  have hpos := pageSize_pos
  have hlt : base < base + n * pageSize := Nat.lt_add_of_pos_right (Nat.mul_pos hn hpos)
  obtain ⟨e, he, -, -, hle⟩ := hs.usable_entry hlt hu
  exact Nat.lt_of_le_of_lt hle (hs.noneOverflows e he)

end Steps

/-! ## The loops -/

/-- What is left of usable pages after those before them were claimed. -/
theorem UsablePages.rest {cfg : Config} {s s' : ClaimState} {base k n b : Nat} {new : List Request}
    (hu : UsablePages s.memmap base (k + n)) (h : Claimed cfg (pagesFrom base k) b s s' new) :
    UsablePages s'.memmap (base + k * pageSize) n := by
  intro a h₁ h₂
  have hout : ∀ p ∈ pagesFrom base k, ¬ InPage p a := by
    intro p hp hin
    have := exists_inPage.mp ⟨p, hp, hin⟩
    omega
  show memmapUsable ∈ typesAt s'.memmap a
  rw [h.outside a hout]
  refine hu a (by omega) ?_
  rw [Nat.add_mul]
  omega

theorem UsablePages.take {m : Memmap} {base k n : Nat} (hu : UsablePages m base (k + n)) :
    UsablePages m base k := by
  intro a h₁ h₂
  refine hu a h₁ ?_
  rw [Nat.add_mul]
  omega

/-- One claim after another. -/
theorem Claimed.append {cfg : Config} {s s' s'' : ClaimState} {base k n : Nat}
    {new new' : List Request} (h : Claimed cfg (pagesFrom base k) k s s' new)
    (h' : Claimed cfg (pagesFrom (base + k * pageSize) n) n s' s'' new') :
    Claimed cfg (pagesFrom base (k + n)) (k + n) s s'' (new' ++ new) := by
  rw [pagesFrom_add]
  exact h.trans h' fun p hp q hq => Or.inl (pagesFrom_apart base k n p hp q hq)

/-- The end of a call: it has claimed `n` pages, or there was no room in the map. -/
abbrev Claims (cfg : Config) (base n : Nat) (s : ClaimState) (x : Exec ClaimState) : Prop :=
  x.Ensures (cfg.maxEntries < s.memmap.length + 2 * n)
    fun s' => ∃ new, Claimed cfg (pagesFrom base n) n s s' new

theorem Claimed.andThen {cfg : Config} {s s' : ClaimState} {base k n : Nat} {new : List Request}
    {x : Exec ClaimState} (h : Claimed cfg (pagesFrom base k) k s s' new)
    (hx : Claims cfg (base + k * pageSize) n s' x) : Claims cfg base (k + n) s x := by
  refine Exec.Ensures.imp hx (fun hp => ?_) ?_
  · have := h.length_le
    omega
  · rintro s'' ⟨new', h'⟩
    exact ⟨_, h.append h'⟩

theorem Claims.bind {cfg : Config} {s : ClaimState} {base k n : Nat} {x : Exec ClaimState}
    {f : ClaimState → Exec ClaimState} (hx : Claims cfg base k s x)
    (hf : ∀ s' new, Claimed cfg (pagesFrom base k) k s s' new →
      Claims cfg (base + k * pageSize) n s' (f s')) :
    Claims cfg base (k + n) s (x >>= f) := by
  refine Exec.Ensures.bind (hx.imp (fun h => by omega) fun _ h => h) ?_
  rintro s' ⟨new, h⟩
  exact h.andThen (hf s' new h)

/-- A request of ours that was refused counts as part of the claim. -/
theorem Claims.refused {cfg : Config} {s s' : ClaimState} {base n : Nat} {r : Request}
    {x : Exec ClaimState} (hr : r.granted = false)
    (hin : ∀ j < r.pages, r.base + j * pageSize ∈ pagesFrom base n)
    (hm : s'.memmap = s.memmap) (hreq : s'.requests = r :: s.requests)
    (hchunk : s'.chunkPages ≤ s.chunkPages) (hx : Claims cfg base n s' x) : Claims cfg base n s x := by
  refine Exec.Ensures.imp hx (fun h => ?_) ?_
  · rw [← hm]
    exact h
  · rintro s'' ⟨new, h⟩
    exact ⟨_, h.refused hr hin hm hreq hchunk⟩

end Limine.Pmm
