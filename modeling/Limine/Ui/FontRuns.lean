import Limine.Lib.Triple
import Limine.Ui.FontAlloc

/-!
# Runs of a font's arena

Whatever FreeType asks for, in whatever order, the blocks tile the arena and no two free ones meet;
every allocation has a block of its own, and what it holds is left alone.
-/

namespace Limine.Ui

open Limine.Lib

variable {A : Arena} {mem mem' : ByteMemory} {blocks : List Block}

/-- The arena between two calls. -/
structure Chained (A : Arena) (mem : ByteMemory) (blocks : List Block) : Prop where
  linked : Linked A mem 0 blocks
  tiled : Tiled A blocks
  noTwoFree : NoTwoFree blocks

/-- What an allocation may count on: a block in use, which is its alone. -/
def Block.Holds (A : Arena) (b : Block) (l : Live) : Prop :=
  b.free = false ∧ b.data A = l.ptr ∧ 0 < l.size ∧ l.size ≤ b.size

structure Sound (A : Arena) (s : FontState) (blocks : List Block) : Prop extends Chained A s.mem blocks where
  held : ∀ l ∈ s.live, ∃ b ∈ blocks, b.Holds A l
  ptrs : s.live.Pairwise fun l l' => l.ptr ≠ l'.ptr

/-- A request that the arena cannot serve. -/
def Refused (A : Arena) (blocks : List Block) (size : Int) : Prop :=
  ¬(1 ≤ size ∧ size ≤ A.budget) ∨ ∀ b ∈ blocks, b.free = true → b.size < roundedUp size.toNat

/-- The blocks in use stay, but for `b`, and what they hold stays. -/
def KeepsUsed (A : Arena) (mem mem' : ByteMemory) (blocks blocks' : List Block) (b : Block) : Prop :=
  ∀ u ∈ blocks, u.free = false → u.addr ≠ b.addr →
    u ∈ blocks' ∧ ∀ x, u.data A ≤ x → x < u.data A + u.size → mem' x = mem x

theorem roundedUp_spec (n : Nat) : n ≤ roundedUp n ∧ 16 ∣ roundedUp n ∧ roundedUp n < n + 16 := by
  unfold roundedUp
  omega

/-! ## One call -/

theorem NoTwoFree.carve {pre post : List Block} {b : Block} (h : NoTwoFree (pre ++ b :: post))
    (hfree : b.free = true) (bytes : Nat) : NoTwoFree (pre ++ (carve A bytes b ++ post)) := by
  unfold NoTwoFree at h ⊢
  rw [List.isChain_append] at h ⊢
  obtain ⟨hpre, hpost, hmid⟩ := h
  have hafter : ∀ c ∈ post.head?, c.free = false := by
    intro c hc
    obtain ⟨rest, rfl⟩ := List.head?_eq_some_iff.mp hc
    have h := (List.isChain_cons_cons.mp hpost).1
    rw [hfree] at h
    simpa using h
  have htail : post.IsChain fun b c => ¬(b.free = true ∧ c.free = true) := hpost.tail
  refine ⟨hpre, ?_, ?_⟩
  · unfold Ui.carve
    split
    · refine .cons_cons (by simp) (?_ : List.IsChain _ (_ :: post))
      rw [List.isChain_cons]
      exact ⟨fun c hc => by simp [hafter c hc], htail⟩
    · rw [List.singleton_append, List.isChain_cons]
      exact ⟨fun c hc => by simp, htail⟩
  · intro x hx y hy
    obtain ⟨c, rest, hc, -, hused, -⟩ := carve_head (A := A) bytes b
    rw [hc, List.cons_append, List.head?_cons, Option.mem_some_iff] at hy
    rw [← hy, hused]
    simp

theorem fontAlloc_spec (h : Chained A mem blocks) (size : Int) :
    (Refused A blocks size ∧ fontAlloc A mem size = .error .allocationFailure) ∨
    (¬Refused A blocks size ∧ ∃ mem' blocks' b, fontAlloc A mem size = .ok (mem', b.data A) ∧
      Chained A mem' blocks' ∧ b ∈ blocks' ∧ b.Holds A ⟨b.data A, size.toNat⟩ ∧
      (∀ u ∈ blocks, u.free = false → u.addr ≠ b.addr) ∧ KeepsUsed A mem mem' blocks blocks' b) := by
  unfold fontAlloc
  by_cases hrange : 0 < size ∧ size ≤ A.budget
  · rw [if_pos hrange]
    have hround := roundedUp_spec size.toNat
    have hlen := h.tiled.length_le
    have hloop := allocLoop_spec (roundedUp size.toNat) blocks (A.budget + 1) (by omega) h.linked
      fun b hb => h.tiled.ne_zero hb
    rw [h.tiled.first] at hloop
    rcases hloop with ⟨pre, b, post, rfl, hfree, hfits, hrun⟩ | ⟨hall, hrun⟩
    · right
      obtain ⟨hlinked, hframe⟩ := takeBlock_spec h.tiled h.linked (roundedUp size.toNat)
      obtain ⟨c, rest, hc, haddr, hused, hsize⟩ := carve_head (A := A) (roundedUp size.toNat) b
      have hdata : c.data A = b.data A := by
        unfold Block.data
        rw [haddr]
      have hother : ∀ u ∈ pre ++ b :: post, u.free = false → u.addr ≠ b.addr := by
        intro u hu hufree hsame
        rw [h.tiled.addr_inj hu (by simp) hsame, hfree] at hufree
        cases hufree
      refine ⟨?_, _, _, c, hdata ▸ hrun, ⟨hlinked, h.tiled.carve hround.2.1, h.noTwoFree.carve hfree _⟩,
        ?_, ⟨hused, rfl, ?_, ?_⟩, haddr ▸ hother, ?_⟩
      · rintro (hno | hno)
        · exact hno ⟨by omega, hrange.2⟩
        · have := hno b (by simp) hfree
          omega
      · rw [hc]
        simp
      · show 0 < size.toNat
        omega
      · have := hsize hfits
        show size.toNat ≤ c.size
        omega
      · intro u hu hufree hne
        rw [haddr] at hne
        have hub : u ≠ b := fun heq => hne (by rw [heq])
        refine ⟨?_, fun x h1 h2 => hframe x ?_⟩
        · rw [List.mem_append, List.mem_cons] at hu
          simp only [List.mem_append]
          rcases hu with hu | hu | hu
          · exact Or.inl hu
          · exact absurd hu hub
          · exact Or.inr (Or.inr hu)
        · have hapart := h.tiled.apart hu (c := b) (by simp) hub
          unfold Block.data at h1 h2
          omega
    · exact Or.inl ⟨Or.inr hall, hrun⟩
  · rw [if_neg hrange]
    exact Or.inl ⟨Or.inl fun hno => hrange ⟨by omega, hno.2⟩, rfl⟩

/-- Freeing needs no more than a chain that tiles the arena. -/
theorem fontFree_spec (hl : Linked A mem 0 blocks) (ht : Tiled A blocks) {b : Block}
    (hb : b ∈ blocks) :
    ∃ mem' blocks', fontFree A mem (b.data A) = .ok mem' ∧ Chained A mem' blocks' ∧
      KeepsUsed A mem mem' blocks blocks' b := by
  obtain ⟨pre, post, rfl⟩ := List.append_of_mem hb
  have hdata : b.data A ≠ 0 := by
    have := ht.ne_zero hb
    unfold Block.data
    omega
  have hback : b.data A - A.word.header = b.addr := Nat.add_sub_cancel ..
  obtain ⟨hlpre, hlb, hlpost⟩ := linked_append.mp hl
  obtain ⟨hpre, hpost⟩ := ht.split
  have hoff := setFree_off (A := A) mem b.addr true
  have hl' : Linked A (setFree A mem b.addr true) 0 (pre ++ { b with free := true } :: post) := by
    rw [linked_append]
    refine ⟨hlpre.congr fun c hc x h1 h2 => hoff x (Or.inl ?_), hlb.setFree true,
      hlpost.congr fun c hc x h1 h2 => hoff x (Or.inr ?_)⟩
    · have := hpre c hc
      omega
    · have := hpost c hc
      omega
  have ht' : Tiled A (pre ++ { b with free := true } :: post) := by
    constructor
    · have h := ht.tiles
      rw [List.map_append, List.map_cons] at h ⊢
      exact h
    · intro c hc
      rw [List.mem_append, List.mem_cons] at hc
      rcases hc with hc | rfl | hc
      · exact ht.aligned c (by simp [hc])
      · exact ht.aligned b (by simp)
      · exact ht.aligned c (by simp [hc])
  generalize hfreed : pre ++ { b with free := true } :: post = freed at hl' ht'
  have hne : freed ≠ [] := by
    rw [← hfreed]
    simp
  obtain ⟨first, rest, rfl⟩ := List.exists_cons_of_ne_nil hne
  have hlen := ht'.length_le
  rw [List.length_cons] at hlen
  obtain ⟨mem', hrun, hlinked, hframe⟩ := mergeLoop_spec rest [] first (A.budget + 1) _ (by omega) ht' hl'
  have hfirst : first.addr = A.base := ht'.first
  have hmerged : Tiled A ([] ++ merge A first rest) := Tiled.merge ht'
  refine ⟨mem', merge A first rest, ?_, ⟨hlinked, hmerged, merge_noTwoFree first rest⟩, ?_⟩
  · unfold fontFree
    rw [if_neg hdata, hback, ← hfirst]
    exact hrun
  · intro u hu hufree hne
    have hu' : u ∈ first :: rest := by
      rw [← hfreed, List.mem_append, List.mem_cons]
      rw [List.mem_append, List.mem_cons] at hu
      rcases hu with hu | hu | hu
      · exact Or.inl hu
      · exact absurd (congrArg Block.addr hu) hne
      · exact Or.inr (Or.inr hu)
    refine ⟨(mem_merge_of_used hufree first rest).mpr hu', fun x h1 h2 => ?_⟩
    unfold Block.data at h1 h2
    have hub : u ≠ b := fun heq => hne (by rw [heq])
    rw [hframe x ?_, hoff x ?_]
    · have := ht.apart hu hb hub
      omega
    · intro c hc hcfree
      have hcu : u ≠ c := by
        rintro rfl
        rw [hcfree] at hufree
        cases hufree
      have := ht'.apart hu' hc hcu
      omega

/-! ## What the owners see -/

/-- The contents of an allocation that stays live. -/
def Untouched (s s' : FontState) : Prop :=
  ∀ l ∈ s.live, l ∈ s'.live → ∀ a, l.Has a → s'.mem a = s.mem a

/-- How a call may end. -/
def Answered (A : Arena) (s : FontState) (blocks : List Block) : Call → Except Refusal FontState → Prop
  | .alloc size, .ok s' =>
    ¬Refused A blocks size ∧ Untouched s s' ∧ ∃ p, s'.live = ⟨p, size.toNat⟩ :: s.live
  | .alloc size, .error e => e = .allocationFailure ∧ Refused A blocks size
  | .free ptr, .ok s' => Untouched s s' ∧ s'.live = without s.live ptr
  | .free _, .error _ => False
  | .realloc oldSize size ptr, .ok s' =>
    ¬Refused A blocks size ∧ Untouched s s' ∧ ∃ p, s'.live = ⟨p, size.toNat⟩ :: without s.live ptr ∧
      (ptr ≠ 0 → ∀ i, i < min oldSize.toNat size.toNat → s'.mem (p + i) = s.mem (ptr + i))
  | .realloc _ size _, .error e => e = .allocationFailure ∧ Refused A blocks size
  | .write _ _, .ok s' => s'.live = s.live
  | .write _ _, .error _ => False

theorem Sound.ptr_ne_zero {s : FontState} (h : Sound A s blocks) {l : Live} (hl : l ∈ s.live) : l.ptr ≠ 0 := by
  obtain ⟨b, hb, -, hdata, -⟩ := h.held l hl
  have := h.tiled.ne_zero hb
  unfold Block.data at hdata
  omega

theorem mem_without {live : List Live} {ptr : Nat} {l : Live} :
    l ∈ without live ptr ↔ l ∈ live ∧ l.ptr ≠ ptr := by
  simp [without]

/-- An allocation whose block is kept keeps its contents. -/
theorem KeepsUsed.live {b u : Block} {blocks' : List Block} {l : Live}
    (h : KeepsUsed A mem mem' blocks blocks' b) (hu : u ∈ blocks) (hl : u.Holds A l)
    (hne : l.ptr ≠ b.data A) : u ∈ blocks' ∧ ∀ a, l.Has a → mem' a = mem a := by
  obtain ⟨hused, hdata, -, hsize⟩ := hl
  have haddr : u.addr ≠ b.addr := by
    intro heq
    apply hne
    rw [← hdata]
    unfold Block.data
    rw [heq]
  obtain ⟨hmem, hframe⟩ := h u hu hused haddr
  refine ⟨hmem, fun a ha => hframe a ?_ ?_⟩
  · rw [hdata]
    exact ha.1
  · rw [hdata]
    have := ha.2
    omega

theorem Block.Holds.ne_data {b u : Block} {l : Live} (h : u.Holds A l) (hne : u.addr ≠ b.addr) :
    l.ptr ≠ b.data A := by
  intro heq
  have hdata := h.2.1
  rw [heq] at hdata
  exact hne (Nat.add_right_cancel hdata)

/-- Two blocks hold nothing in common. -/
theorem Tiled.apart_data (h : Tiled A blocks) {b c : Block} (hb : b ∈ blocks) (hc : c ∈ blocks)
    (hne : b.addr ≠ c.addr) :
    b.data A + b.size ≤ c.addr ∨ c.data A + c.size ≤ b.addr := by
  have hbc : b ≠ c := fun heq => hne (by rw [heq])
  exact h.apart hb hc hbc

theorem Sound.apart {s : FontState} (h : Sound A s blocks) {l l' : Live} (hl : l ∈ s.live) (hl' : l' ∈ s.live)
    (hne : l.ptr ≠ l'.ptr) : l.ptr + l.size ≤ l'.ptr ∨ l'.ptr + l'.size ≤ l.ptr := by
  obtain ⟨b, hb, -, hdata, -, hsize⟩ := h.held l hl
  obtain ⟨b', hb', -, hdata', -, hsize'⟩ := h.held l' hl'
  have haddr : b.addr ≠ b'.addr := by
    intro heq
    apply hne
    rw [← hdata, ← hdata']
    unfold Block.data
    rw [heq]
  have := h.tiled.apart_data hb hb' haddr
  unfold Block.data at hdata hdata' this
  omega

/-- An allocation keeps those before it. -/
theorem Sound.kept {s : FontState} (h : Sound A s blocks) {b : Block} {blocks' : List Block}
    (hother : ∀ u ∈ blocks, u.free = false → u.addr ≠ b.addr) (hkeeps : KeepsUsed A s.mem mem' blocks blocks' b) :
    ∀ l ∈ s.live, l.ptr ≠ b.data A ∧ (∃ u ∈ blocks', u.Holds A l) ∧ ∀ a, l.Has a → mem' a = s.mem a := by
  intro l hl
  obtain ⟨u, hu, hul⟩ := h.held l hl
  have hne := hul.ne_data (hother u hu hul.1)
  obtain ⟨hu', hframe⟩ := hkeeps.live hu hul hne
  exact ⟨hne, ⟨u, hu', hul⟩, hframe⟩

/-! ## Each call -/

theorem alloc_sound {s : FontState} (h : Sound A s blocks) (size : Int) :
    Answered A s blocks (.alloc size) (step A s (.alloc size)) ∧
      ∀ s', step A s (.alloc size) = .ok s' → ∃ blocks', Sound A s' blocks' := by
  rw [step]
  rcases fontAlloc_spec h.toChained size with ⟨href, hrun⟩ | ⟨href, mem', blocks', b, hrun, hchain, hb, hholds, hother, hkeeps⟩
  · rw [hrun]
    exact ⟨⟨rfl, href⟩, nofun⟩
  · rw [hrun]
    have hlive := h.kept hother hkeeps
    refine ⟨⟨href, fun l hl _ a ha => (hlive l hl).2.2 a ha, b.data A, rfl⟩, ?_⟩
    rintro s' ⟨⟩
    refine ⟨blocks', hchain, ?_, ?_⟩
    · intro l hl
      rcases List.mem_cons.mp hl with rfl | hl
      · exact ⟨b, hb, hholds⟩
      · exact (hlive l hl).2.1
    · exact List.pairwise_cons.mpr ⟨fun l hl => (hlive l hl).1.symm, h.ptrs⟩

theorem without_zero {s : FontState} (h : Sound A s blocks) : without s.live 0 = s.live := by
  unfold without
  rw [List.filter_eq_self]
  intro l hl
  simpa using h.ptr_ne_zero hl

theorem free_sound {s : FontState} (h : Sound A s blocks) {ptr : Nat} (hc : (Call.free ptr).Allowed s.live) :
    Answered A s blocks (.free ptr) (step A s (.free ptr)) ∧
      ∀ s', step A s (.free ptr) = .ok s' → ∃ blocks', Sound A s' blocks' := by
  rw [step]
  rcases hc with rfl | ⟨l₀, hl₀, rfl⟩
  · have hnull : fontFree A s.mem 0 = .ok s.mem := if_pos rfl
    rw [hnull, without_zero h]
    refine ⟨⟨fun l _ _ a _ => rfl, (without_zero h).symm⟩, ?_⟩
    rintro s' ⟨⟩
    exact ⟨blocks, h⟩
  · obtain ⟨b, hb, hbl⟩ := h.held l₀ hl₀
    obtain ⟨mem', blocks', hrun, hchain, hkeeps⟩ := fontFree_spec h.linked h.tiled hb
    rw [hbl.2.1] at hrun
    rw [hrun]
    have hlive : ∀ l ∈ without s.live l₀.ptr, (∃ u ∈ blocks', u.Holds A l) ∧ ∀ a, l.Has a → mem' a = s.mem a := by
      intro l hl
      obtain ⟨hl, hne⟩ := mem_without.mp hl
      obtain ⟨u, hu, hul⟩ := h.held l hl
      obtain ⟨hu', hframe⟩ := hkeeps.live hu hul (by rw [hbl.2.1]; exact hne)
      exact ⟨⟨u, hu', hul⟩, hframe⟩
    refine ⟨⟨fun l _ hl a ha => (hlive l hl).2 a ha, rfl⟩, ?_⟩
    rintro s' ⟨⟩
    exact ⟨blocks', hchain, fun l hl => (hlive l hl).1, h.ptrs.filter _⟩

theorem write_sound {s : FontState} (h : Sound A s blocks) {addr : Nat} (byte : UInt8)
    (hc : (Call.write addr byte).Allowed s.live) :
    Answered A s blocks (.write addr byte) (step A s (.write addr byte)) ∧
      ∀ s', step A s (.write addr byte) = .ok s' → ∃ blocks', Sound A s' blocks' := by
  refine ⟨rfl, ?_⟩
  rintro s' ⟨⟩
  obtain ⟨l, hl, hin⟩ := hc
  obtain ⟨b, hb, hused, hdata, hpos, hsize⟩ := h.held l hl
  refine ⟨blocks, ⟨?_, h.tiled, h.noTwoFree⟩, h.held, h.ptrs⟩
  refine h.linked.congr fun c hc x h1 h2 => Function.update_of_ne ?_ _ _
  rintro rfl
  unfold Live.Has at hin
  unfold Block.data at hdata
  by_cases hbc : b = c
  · subst hbc
    omega
  · have := h.tiled.apart hb hc hbc
    omega

/-- What `font_realloc` copies goes into the new block alone. -/
theorem copy_spec (ht : Tiled A blocks) {b c : Block} (hb : b ∈ blocks) (hc : c ∈ blocks)
    (hne : b.addr ≠ c.addr) {n : Nat} (hn : n ≤ b.size) (hn' : n ≤ c.size) :
    (∀ x, x < b.data A ∨ b.data A + b.size ≤ x → mem.copyUp (b.data A) (c.data A) n x = mem x) ∧
      ∀ i, i < n → mem.copyUp (b.data A) (c.data A) n (b.data A + i) = mem (c.data A + i) := by
  have hapart : b.data A ≤ c.data A ∨ c.data A + n ≤ b.data A := by
    have := ht.apart_data hb hc hne
    unfold Block.data at this ⊢
    omega
  constructor
  · intro x hx
    rw [mem.copyUp_apply hapart, if_neg (by omega)]
  · intro i hi
    rw [mem.copyUp_apply hapart, if_pos (by omega), Nat.add_sub_cancel_left]

/-- The chain does not depend on what a block holds. -/
theorem Linked.data (h : Linked A mem 0 blocks) (ht : Tiled A blocks) {b : Block} (hb : b ∈ blocks)
    (hmem : ∀ x, x < b.data A ∨ b.data A + b.size ≤ x → mem' x = mem x) : Linked A mem' 0 blocks := by
  refine h.congr fun c hc x h1 h2 => hmem x ?_
  unfold Block.data
  by_cases hbc : b = c
  · subst hbc
    omega
  · have := ht.apart hb hc hbc
    omega

theorem min_toNat (oldSize size : Int) :
    (if oldSize < size then oldSize else size).toNat = min oldSize.toNat size.toNat := by
  split
  · omega
  · omega

theorem step_realloc {s : FontState} {oldSize size : Int} {ptr p : Nat} {mem₁ mem₂ : ByteMemory}
    (halloc : fontAlloc A s.mem size = .ok (mem₁, p))
    (hfree : fontFree A (if ptr ≠ 0 ∧ 0 < oldSize then mem₁.copyUp p ptr (min oldSize.toNat size.toNat) else mem₁)
      ptr = .ok mem₂) :
    step A s (.realloc oldSize size ptr) = .ok ⟨mem₂, ⟨p, size.toNat⟩ :: without s.live ptr⟩ := by
  rw [← min_toNat] at hfree
  rw [step, fontRealloc, halloc]
  show (fontFree A _ ptr >>= fun mem => Except.ok (mem, p)) >>= _ = _
  rw [hfree]
  rfl

theorem realloc_sound {s : FontState} (h : Sound A s blocks) {oldSize size : Int} {ptr : Nat}
    (hc : (Call.realloc oldSize size ptr).Allowed s.live) :
    Answered A s blocks (.realloc oldSize size ptr) (step A s (.realloc oldSize size ptr)) ∧
      ∀ s', step A s (.realloc oldSize size ptr) = .ok s' → ∃ blocks', Sound A s' blocks' := by
  rcases fontAlloc_spec h.toChained size with ⟨href, hrun⟩ | ⟨href, mem₁, blocks₁, b, hrun, hchain, hb, hholds, hother, hkeeps⟩
  · have hstep : step A s (.realloc oldSize size ptr) = .error .allocationFailure := by
      rw [step, fontRealloc, hrun]
      rfl
    rw [hstep]
    exact ⟨⟨rfl, href⟩, nofun⟩
  have hlive := h.kept hother hkeeps
  rcases hc with rfl | ⟨l₀, hl₀, rfl, rfl⟩
  · -- Without an old block this is an allocation.
    rw [step_realloc hrun (show _ = Except.ok mem₁ from if_pos rfl), without_zero h]
    refine ⟨⟨href, fun l hl _ a ha => (hlive l hl).2.2 a ha, b.data A, by rw [without_zero h], nofun⟩, ?_⟩
    rintro s' ⟨⟩
    refine ⟨blocks₁, hchain, ?_, List.pairwise_cons.mpr ⟨fun l hl => (hlive l hl).1.symm, h.ptrs⟩⟩
    intro l hl
    rcases List.mem_cons.mp hl with rfl | hl
    · exact ⟨b, hb, hholds⟩
    · exact (hlive l hl).2.1
  · obtain ⟨b₀, hb₀, hbl₀⟩ := h.held l₀ hl₀
    have hne₀ : b.addr ≠ b₀.addr := (hother b₀ hb₀ hbl₀.1).symm
    obtain ⟨hb₀', hold⟩ := hkeeps.live hb₀ hbl₀ (hlive l₀ hl₀).1
    have hn : min (l₀.size : Int).toNat size.toNat ≤ b.size := (Nat.min_le_right _ _).trans hholds.2.2.2
    have hn₀ : min (l₀.size : Int).toNat size.toNat ≤ b₀.size :=
      (Nat.min_le_left _ _).trans (by rw [Int.toNat_natCast]; exact hbl₀.2.2.2)
    obtain ⟨hcopy, hcopied⟩ := @copy_spec A mem₁ _ hchain.tiled _ _ hb hb₀' hne₀ _ hn hn₀
    have hcond : l₀.ptr ≠ 0 ∧ (0 : Int) < l₀.size := ⟨h.ptr_ne_zero hl₀, by exact_mod_cast hbl₀.2.2.1⟩
    rw [← hbl₀.2.1] at hcond
    obtain ⟨mem₂, blocks₂, hfree, hchain₂, hkeeps₂⟩ :=
      fontFree_spec (hchain.linked.data hchain.tiled hb hcopy) hchain.tiled hb₀'
    rw [← hbl₀.2.1, step_realloc hrun (by rw [if_pos hcond]; exact hfree)]
    -- The new block and its contents outlive the free of the old one.
    obtain ⟨hb₂, hnew⟩ := hkeeps₂ b hb hholds.1 hne₀
    have hrest : ∀ l ∈ without s.live (b₀.data A), l.ptr ≠ b.data A ∧ (∃ u ∈ blocks₂, u.Holds A l) ∧
        ∀ a, l.Has a → mem₂ a = s.mem a := by
      intro l hl
      obtain ⟨hl, hne⟩ := mem_without.mp hl
      obtain ⟨hnb, ⟨u, hu, hul⟩, hframe⟩ := hlive l hl
      obtain ⟨hu₂, hframe₂⟩ := hkeeps₂.live hu hul hne
      refine ⟨hnb, ⟨u, hu₂, hul⟩, fun a ha => ?_⟩
      rw [hframe₂ a ha, hcopy a ?_, hframe a ha]
      have hub : u.addr ≠ b.addr := by
        intro heq
        apply hnb
        rw [← hul.2.1]
        unfold Block.data
        rw [heq]
      have h1 := hchain.tiled.apart_data hu hb hub
      have h2 := hul.2
      unfold Live.Has at ha
      unfold Block.data at h1 h2 ⊢
      omega
    refine ⟨⟨href, fun l hl hl' a ha => ?_, b.data A, rfl, fun _ i hi => ?_⟩, ?_⟩
    · rcases List.mem_cons.mp hl' with rfl | hl'
      · exact absurd rfl (hlive _ hl).1
      · exact (hrest l hl').2.2 a ha
    · show mem₂ (b.data A + i) = s.mem (b₀.data A + i)
      have hin : l₀.Has (b₀.data A + i) := by
        have h1 := hbl₀.2.1
        unfold Live.Has
        omega
      rw [hnew _ (by omega) (by omega), hcopied i hi, hold _ hin]
    · rintro s' ⟨⟩
      refine ⟨blocks₂, hchain₂, ?_, List.pairwise_cons.mpr ⟨fun l hl => (hrest l hl).1.symm, h.ptrs.filter _⟩⟩
      intro l hl
      rcases List.mem_cons.mp hl with rfl | hl
      · exact ⟨b, hb₂, hholds⟩
      · exact (hrest l hl).2.1

/-! ## Runs -/

theorem call_sound {s : FontState} (h : Sound A s blocks) {c : Call} (hc : c.Allowed s.live) :
    Answered A s blocks c (step A s c) ∧ ∀ s', step A s c = .ok s' → ∃ blocks', Sound A s' blocks' := by
  cases c with
  | alloc size => exact alloc_sound h size
  | free ptr => exact free_sound h hc
  | realloc oldSize size ptr => exact realloc_sound h hc
  | write addr byte => exact write_sound h byte hc

theorem open_sound (mem : ByteMemory) :
    Sound A ⟨openArena A mem, []⟩ [⟨A.base, A.budget - A.word.header, true⟩] := by
  have hroom := A.budget_room
  have hwrap := A.no_wrap
  have hw := (header_aligned A.word).1
  have hspec := @setBlock_spec A mem ⟨A.base, A.budget - A.word.header, true⟩ 0
    (by show A.budget - A.word.header < _; omega) (by omega)
  refine ⟨⟨⟨hspec.1, trivial⟩, ⟨?_, ?_⟩, .singleton _⟩, nofun, .nil⟩
  · have hend : A.base + A.word.header + (A.budget - A.word.header) = A.base + A.budget := by omega
    rw [List.map_singleton, Tiles.cons_iff]
    refine ⟨rfl, ?_, ?_⟩
    · show A.base < A.base + A.word.header + (A.budget - A.word.header)
      omega
    · show Tiles (A.base + A.word.header + (A.budget - A.word.header)) [] _
      rw [hend]
      exact .nil _
  · intro b hb
    rw [List.mem_singleton.mp hb]
    exact Nat.dvd_sub A.budget_aligned hw

theorem Reached.sound {s : FontState} (h : Reached A mem s) : ∃ blocks, Sound A s blocks := by
  induction h with
  | start => exact ⟨_, open_sound mem⟩
  | call c _ hc hstep ih =>
    obtain ⟨blocks, hs⟩ := ih
    exact (call_sound hs hc).2 _ hstep

/-- **The arena is never corrupted**: after any calls that were not refused the chain of headers tiles
it, no two free blocks meet, each allocation lies alone and aligned in its block, and the next call
leaves the others' contents alone or is refused for want of a block. -/
theorem fontArena_sound (A : Arena) (mem : ByteMemory) (s : FontState) (h : Reached A mem s) :
    ∃ blocks, Sound A s blocks ∧
      (∀ l ∈ s.live, 16 ∣ l.ptr ∧ A.base ≤ l.ptr ∧ l.ptr + l.size ≤ A.base + A.budget) ∧
      (s.live.Pairwise fun l l' => l.ptr + l.size ≤ l'.ptr ∨ l'.ptr + l'.size ≤ l.ptr) ∧
      ∀ c : Call, c.Allowed s.live → Answered A s blocks c (step A s c) := by
  obtain ⟨blocks, hs⟩ := h.sound
  refine ⟨blocks, hs, ?_, ?_, fun c hc => (call_sound hs hc).1⟩
  · intro l hl
    obtain ⟨b, hb, -, hdata, -, hsize⟩ := hs.held l hl
    have haddr := hs.tiled.addr_aligned b hb
    have hw := (header_aligned A.word).1
    have hbound := hs.tiled.bounds hb
    unfold Block.data at hdata
    rw [← hdata]
    exact ⟨Nat.dvd_add haddr hw, by omega, by omega⟩
  · exact hs.ptrs.imp_of_mem fun hl hl' hne => hs.apart hl hl' hne

/-- An arena of one page, of a 64-bit port. -/
def onePage : Arena where
  word := .w64
  base := 0x1000
  budget := 0x1000
  base_aligned := by decide
  base_pos := by decide
  budget_aligned := by decide
  budget_room := by decide
  no_wrap := by decide

theorem step_live {s : FontState} {c : Call} {live : List Live}
    (h : (step A s c).toOption.map FontState.live = some live) : ∃ s', step A s c = .ok s' ∧ s'.live = live := by
  cases hstep : step A s c with
  | error e =>
    rw [hstep] at h
    cases h
  | ok s' =>
    rw [hstep] at h
    exact ⟨s', rfl, Option.some.inj h⟩

/-- An allocation that grows is moved behind itself, and the arena is as sound as before. -/
theorem fontArena_sound_onePage :
    ∃ s, Reached onePage (fun _ => 0) s ∧ s.live = [⟨0x1060, 40⟩] ∧
      ∃ blocks, Sound onePage s blocks ∧
        (∀ l ∈ s.live, 16 ∣ l.ptr ∧ onePage.base ≤ l.ptr ∧ l.ptr + l.size ≤ onePage.base + onePage.budget) ∧
        (s.live.Pairwise fun l l' => l.ptr + l.size ≤ l'.ptr ∨ l'.ptr + l'.size ≤ l.ptr) ∧
        ∀ c : Call, c.Allowed s.live → Answered onePage s blocks c (step onePage s c) := by
  have hone : (step onePage ⟨openArena onePage fun _ => 0, []⟩ (.alloc 20)).toOption.map FontState.live =
      some [⟨0x1020, 20⟩] := by decide +kernel
  obtain ⟨s₁, hs₁, hlive₁⟩ := step_live hone
  have h₁ : Reached onePage (fun _ => 0) s₁ := .call (.alloc 20) .start trivial hs₁
  have hboth : ((step onePage ⟨openArena onePage fun _ => 0, []⟩ (.alloc 20) >>= fun s =>
      step onePage s (.realloc 20 40 0x1020)).toOption.map FontState.live) = some [⟨0x1060, 40⟩] := by
    decide +kernel
  rw [hs₁, ok_bind] at hboth
  obtain ⟨s₂, hs₂, hlive₂⟩ := step_live hboth
  have h₂ : Reached onePage (fun _ => 0) s₂ := by
    refine .call (.realloc 20 40 0x1020) h₁ (Or.inr ⟨⟨0x1020, 20⟩, ?_, rfl, rfl⟩) hs₂
    rw [hlive₁]
    exact List.mem_singleton_self _
  exact ⟨s₂, h₂, hlive₂, fontArena_sound onePage (fun _ => 0) s₂ h₂⟩

end Limine.Ui
