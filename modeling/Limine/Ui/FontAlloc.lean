import Limine.Ui.FontBlocks
import Mathlib.Data.List.Chain

/-!
# Taking and giving back blocks

`font_alloc` takes the first block that is free and large enough, and splits it where what is left
holds a header and 16 bytes.  `font_free` goes through the whole chain and joins every run of free
blocks.  Neither writes outside the free blocks it works on.
-/

namespace Limine.Ui

open Limine.Lib

variable {A : Arena} {mem mem' : ByteMemory}

/-- No two blocks that follow one another are both free. -/
def NoTwoFree (blocks : List Block) : Prop := blocks.IsChain fun b c => ¬(b.free = true ∧ c.free = true)

/-! ## `font_alloc` -/

/-- The blocks a free block is taken as. -/
def carve (A : Arena) (bytes : Nat) (b : Block) : List Block :=
  if bytes + A.word.header + 16 ≤ b.size then
    [⟨b.addr, bytes, false⟩, ⟨b.addr + A.word.header + bytes, b.size - bytes - A.word.header, true⟩]
  else [{ b with free := false }]

/-- The first of them is what is handed out. -/
theorem carve_head (bytes : Nat) (b : Block) :
    ∃ c rest, carve A bytes b = c :: rest ∧ c.addr = b.addr ∧ c.free = false ∧
      (bytes ≤ b.size → bytes ≤ c.size) := by
  unfold carve
  split
  · exact ⟨_, _, rfl, rfl, rfl, fun _ => Nat.le_refl _⟩
  · exact ⟨_, _, rfl, rfl, rfl, fun h => h⟩

theorem firstAddr_carve (bytes stop : Nat) (b : Block) (post : List Block) :
    firstAddr stop (carve A bytes b ++ post) = b.addr := by
  obtain ⟨c, rest, hc, haddr, -⟩ := carve_head (A := A) bytes b
  rw [hc]
  exact haddr

theorem Tiled.carve {pre post : List Block} {b : Block} (h : Tiled A (pre ++ b :: post)) {bytes : Nat}
    (hbytes : 16 ∣ bytes) : Tiled A (pre ++ (carve A bytes b ++ post)) := by
  have hw := header_aligned A.word
  have hb : 16 ∣ b.size := h.aligned b (by simp)
  constructor
  · have ht := h.tiles
    rw [List.map_append, Tiles.append_iff] at ht ⊢
    obtain ⟨mid, hpre, hrest⟩ := ht
    refine ⟨mid, hpre, ?_⟩
    rw [List.map_cons, Tiles.cons_iff] at hrest
    obtain ⟨rfl, hlt, hrest⟩ := hrest
    unfold Ui.carve
    split
    · next hroom =>
      refine .cons (?_ : b.addr < b.addr + A.word.header + bytes) (.cons (?_ :
        b.addr + A.word.header + bytes <
          b.addr + A.word.header + bytes + A.word.header + (b.size - bytes - A.word.header)) ?_)
      · omega
      · omega
      · have hsum : b.addr + A.word.header + bytes + A.word.header + (b.size - bytes - A.word.header) =
            b.addr + A.word.header + b.size := by omega
        rw [hsum]
        exact hrest
    · exact .cons hlt hrest
  · intro c hc
    rw [List.mem_append, List.mem_append] at hc
    rcases hc with hc | hc | hc
    · exact h.aligned c (by simp [hc])
    · unfold Ui.carve at hc
      split at hc
      · simp only [List.mem_cons, List.not_mem_nil, or_false] at hc
        rcases hc with rfl | rfl
        · exact hbytes
        · exact Nat.dvd_sub (Nat.dvd_sub hb hbytes) hw.1
      · rw [List.mem_singleton] at hc
        rw [hc]
        exact hb
    · exact h.aligned c (by simp [hc])

/-- Only the block that is taken changes. -/
theorem takeBlock_spec {pre post : List Block} {b : Block} (ht : Tiled A (pre ++ b :: post))
    (hl : Linked A mem 0 (pre ++ b :: post)) (bytes : Nat) :
    Linked A (takeBlock A mem b.addr bytes) 0 (pre ++ (carve A bytes b ++ post)) ∧
      ∀ x, x < b.addr ∨ b.addr + A.word.header + b.size ≤ x → takeBlock A mem b.addr bytes x = mem x := by
  have hw := header_aligned A.word
  have hbound := ht.lt (b := b) (by simp)
  obtain ⟨hpre, hpost⟩ := ht.split
  rw [linked_append] at hl
  obtain ⟨hlpre, hb, hlpost⟩ := hl
  have hframe : ∀ x, x < b.addr ∨ b.addr + A.word.header + b.size ≤ x →
      takeBlock A mem b.addr bytes x = mem x := by
    intro x hx
    unfold takeBlock
    rw [setFree_off _ _ _ x (by omega)]
    split
    · next hroom =>
      rw [hb.size] at hroom ⊢
      rw [setSize_off _ _ _ x (by omega), setNext_off _ _ _ x (by omega)]
      refine (setBlock_spec ⟨b.addr + A.word.header + bytes, b.size - bytes - A.word.header, true⟩ ?_ ?_).2 x ?_
      · show b.size - bytes - A.word.header < _
        omega
      · exact leAt_lt ..
      · show x < b.addr + A.word.header + bytes ∨ b.addr + A.word.header + bytes + A.word.header ≤ x
        omega
    · rfl
  refine ⟨?_, hframe⟩
  rw [linked_append, firstAddr_carve, linked_append]
  have hsame : ∀ c : Block, (c ∈ pre ∨ c ∈ post) → ∀ x, c.addr ≤ x → x < c.addr + A.word.header →
      takeBlock A mem b.addr bytes x = mem x := by
    intro c hc x h1 h2
    apply hframe
    rcases hc with hc | hc
    · have := hpre c hc
      omega
    · have := hpost c hc
      omega
  refine ⟨hlpre.congr fun c hc => hsame c (Or.inl hc), ?_, hlpost.congr fun c hc => hsame c (Or.inr hc)⟩
  unfold takeBlock carve
  rw [hb.size, hb.next]
  split
  · next hroom =>
    -- The new header is written first; the stores after it are into the old one.
    dsimp only
    generalize hm : setBlock A mem (b.addr + A.word.header + bytes) _ _ true = m
    have hsize : b.size - bytes - A.word.header < 256 ^ A.word.bytes := by omega
    have hnext : firstAddr 0 post < 256 ^ A.word.bytes := by
      rw [← hb.next]
      exact leAt_lt ..
    have hnew := @setBlock_spec A mem
      ⟨b.addr + A.word.header + bytes, b.size - bytes - A.word.header, true⟩ _ hsize hnext
    rw [hm] at hnew
    have hold : HeaderIs A m b (firstAddr 0 post) := by
      refine hb.congr fun x h1 h2 => hnew.2 x (Or.inl ?_)
      show x < b.addr + A.word.header + bytes
      omega
    have hrest : b.addr + A.word.header + bytes < 256 ^ A.word.bytes := by omega
    have hbytes : bytes < 256 ^ A.word.bytes := by omega
    have hset := ((hold.setNext hrest).setSize hbytes).setFree false
    refine ⟨hset, ?_, trivial⟩
    refine hnew.1.congr fun x h1 h2 => ?_
    have h1' : b.addr + A.word.header + bytes ≤ x := h1
    rw [setFree_off _ _ _ x (by omega), setSize_off _ _ _ x (by omega), setNext_off _ _ _ x (by omega)]
  · exact ⟨hb.setFree false, trivial⟩

/-- The loop settles on the first block that is free and large enough. -/
theorem allocLoop_spec (bytes : Nat) : ∀ (rest : List Block) (fuel : Nat), rest.length < fuel →
    Linked A mem 0 rest → (∀ b ∈ rest, b.addr ≠ 0) →
    (∃ pre b post, rest = pre ++ b :: post ∧ b.free = true ∧ bytes ≤ b.size ∧
      allocLoop A mem bytes fuel (firstAddr 0 rest) = .ok (takeBlock A mem b.addr bytes, b.data A)) ∨
    ((∀ b ∈ rest, b.free = true → b.size < bytes) ∧
      allocLoop A mem bytes fuel (firstAddr 0 rest) = .error .allocationFailure) := by
  intro rest
  induction rest with
  | nil =>
    intro fuel hfuel _ _
    obtain ⟨fuel, rfl⟩ := Nat.exists_eq_succ_of_ne_zero (by omega : fuel ≠ 0)
    right
    refine ⟨by simp, ?_⟩
    exact if_pos rfl
  | cons b rest ih =>
    intro fuel hfuel hl hne
    rw [List.length_cons] at hfuel
    obtain ⟨fuel, rfl⟩ := Nat.exists_eq_succ_of_ne_zero (by omega : fuel ≠ 0)
    have hb : b.addr ≠ 0 := hne b (by simp)
    rw [allocLoop, if_neg (by exact hb)]
    show (∃ pre c post, _ ∧ _ ∧ _ ∧ (if (!blockFree A mem b.addr || decide (blockSize A mem b.addr < bytes)) = true
      then allocLoop A mem bytes fuel (blockNext A mem b.addr) else _) = _) ∨ (_ ∧
      (if (!blockFree A mem b.addr || decide (blockSize A mem b.addr < bytes)) = true
      then allocLoop A mem bytes fuel (blockNext A mem b.addr) else _) = _)
    rw [hl.1.free, hl.1.size, hl.1.next]
    by_cases hfit : b.free = true ∧ bytes ≤ b.size
    · left
      refine ⟨[], b, rest, rfl, hfit.1, hfit.2, ?_⟩
      rw [if_neg (by simp [hfit.1, hfit.2])]
      rfl
    · have hpass : (!b.free || decide (b.size < bytes)) = true := by
        cases hfree : b.free with
        | false => rfl
        | true =>
          have : b.size < bytes := by
            by_contra hge
            exact hfit ⟨hfree, by omega⟩
          simp [this]
      rw [if_pos hpass]
      rcases ih fuel (by omega) hl.2 fun c hc => hne c (by simp [hc]) with ⟨pre, c, post, rfl, h1, h2, h3⟩ | ⟨h1, h2⟩
      · exact Or.inl ⟨b :: pre, c, post, rfl, h1, h2, h3⟩
      · refine Or.inr ⟨?_, h2⟩
        intro c hc hfree
        rcases List.mem_cons.mp hc with rfl | hc
        · by_contra hge
          exact hfit ⟨hfree, by omega⟩
        · exact h1 c hc hfree

/-! ## `font_free` -/

/-- Two blocks as one: the header of the second goes to what the first holds. -/
def join (A : Arena) (b c : Block) : Block := { b with size := b.size + (A.word.header + c.size) }

/-- What the loop of `font_free` makes of the chain from `b` on. -/
def merge (A : Arena) : Block → List Block → List Block
  | b, [] => [b]
  | b, c :: rest => if b.free && c.free then merge A (join A b c) rest else b :: merge A c rest

theorem merge_head (b : Block) (rest : List Block) :
    ∃ c tail, merge A b rest = c :: tail ∧ c.addr = b.addr ∧ c.free = b.free := by
  induction rest generalizing b with
  | nil => exact ⟨b, [], rfl, rfl, rfl⟩
  | cons d rest ih =>
    rw [merge]
    split
    · exact ih _
    · exact ⟨b, _, rfl, rfl, rfl⟩

theorem merge_noTwoFree (b : Block) (rest : List Block) : NoTwoFree (merge A b rest) := by
  induction rest generalizing b with
  | nil => exact List.IsChain.singleton b
  | cons d rest ih =>
    rw [merge]
    split
    · exact ih _
    · next hnot =>
      have h := ih d
      obtain ⟨c, tail, hc, -, hfree⟩ := merge_head (A := A) d rest
      rw [hc] at h ⊢
      refine .cons_cons ?_ h
      rw [hfree]
      simpa using hnot

/-- The blocks in use stay as they are. -/
theorem mem_merge_of_used {u : Block} (hu : u.free = false) (b : Block) (rest : List Block) :
    u ∈ merge A b rest ↔ u ∈ b :: rest := by
  induction rest generalizing b with
  | nil => rw [merge]
  | cons d rest ih =>
    rw [merge]
    split
    · next hboth =>
      rw [Bool.and_eq_true] at hboth
      rw [ih, List.mem_cons, List.mem_cons, List.mem_cons]
      have h1 : u ≠ join A b d := by
        rintro rfl
        rw [show (join A b d).free = b.free from rfl, hboth.1] at hu
        cases hu
      have h2 : u ≠ b := by
        rintro rfl
        rw [hboth.1] at hu
        cases hu
      have h3 : u ≠ d := by
        rintro rfl
        rw [hboth.2] at hu
        cases hu
      simp [h1, h2, h3]
    · rw [List.mem_cons, ih, ← List.mem_cons]

theorem join_tiles {lo hi : Nat} {b c : Block} {rest : List Block}
    (h : Tiles lo ((b :: c :: rest).map (Block.extent A)) hi) :
    Tiles lo ((join A b c :: rest).map (Block.extent A)) hi := by
  rw [List.map_cons, List.map_cons, Tiles.cons_iff, Tiles.cons_iff] at h
  rw [List.map_cons, Tiles.cons_iff]
  obtain ⟨hlo, hb, hc, hcsize, hrest⟩ := h
  have hsum : c.addr + A.word.header + c.size = b.addr + A.word.header + (join A b c).size := by
    have hc' : b.addr + A.word.header + b.size = c.addr := hc
    simp only [join]
    omega
  refine ⟨hlo, ?_, ?_⟩
  · show b.addr < b.addr + A.word.header + (join A b c).size
    have hb' : b.addr < b.addr + A.word.header + b.size := hb
    simp only [join]
    omega
  · show Tiles (b.addr + A.word.header + (join A b c).size) _ hi
    rw [← hsum]
    exact hrest

theorem Tiled.join {pre rest : List Block} {b c : Block} (h : Tiled A (pre ++ b :: c :: rest)) :
    Tiled A (pre ++ join A b c :: rest) := by
  constructor
  · have ht := h.tiles
    rw [List.map_append, Tiles.append_iff] at ht ⊢
    obtain ⟨mid, hpre, hrest⟩ := ht
    exact ⟨mid, hpre, join_tiles hrest⟩
  · intro d hd
    rw [List.mem_append, List.mem_cons] at hd
    rcases hd with hd | rfl | hd
    · exact h.aligned d (by simp [hd])
    · exact Nat.dvd_add (h.aligned b (by simp))
        (Nat.dvd_add (header_aligned A.word).1 (h.aligned c (by simp)))
    · exact h.aligned d (by simp [hd])

theorem Tiled.merge {rest : List Block} : ∀ {pre : List Block} {b : Block}, Tiled A (pre ++ b :: rest) →
    Tiled A (pre ++ merge A b rest) := by
  induction rest with
  | nil =>
    intro pre b h
    exact h
  | cons c rest ih =>
    intro pre b h
    rw [Ui.merge]
    split
    · exact ih h.join
    · rw [List.append_cons]
      exact ih (by rwa [List.append_assoc])

/-- The loop, from a block with what it has passed before it: it ends, and it writes into headers of
free blocks only. -/
theorem mergeLoop_spec : ∀ (rest pre : List Block) (b : Block) (fuel : Nat) (mem : ByteMemory),
    rest.length + 1 < fuel → Tiled A (pre ++ b :: rest) → Linked A mem 0 (pre ++ b :: rest) →
    ∃ mem', mergeLoop A fuel b.addr mem = .ok mem' ∧ Linked A mem' 0 (pre ++ merge A b rest) ∧
      ∀ x, (∀ c ∈ b :: rest, c.free = true → x < c.addr ∨ c.addr + A.word.header ≤ x) → mem' x = mem x := by
  intro rest
  induction rest with
  | nil =>
    intro pre b fuel mem hfuel ht hl
    obtain ⟨fuel, rfl⟩ := Nat.exists_eq_succ_of_ne_zero (by omega : fuel ≠ 0)
    have hb := (linked_append.mp hl).2.1
    refine ⟨mem, ?_, hl, fun _ _ => rfl⟩
    exact if_pos (Or.inr hb.next)
  | cons d rest ih =>
    intro pre b fuel mem hfuel ht hl
    rw [List.length_cons] at hfuel
    obtain ⟨fuel, rfl⟩ := Nat.exists_eq_succ_of_ne_zero (by omega : fuel ≠ 0)
    obtain ⟨hlpre, hb, hd, hlrest⟩ := linked_append.mp hl
    have hb0 : b.addr ≠ 0 := ht.ne_zero (by simp)
    have hd0 : d.addr ≠ 0 := ht.ne_zero (by simp)
    rw [mergeLoop, if_neg (by rw [hb.next]; exact not_or.mpr ⟨hb0, hd0⟩)]
    show ∃ mem', (if (blockFree A mem b.addr && blockFree A mem (blockNext A mem b.addr)) = true then _ else _) = _ ∧ _
    rw [hb.next, hb.free]
    show ∃ mem', (if (b.free && blockFree A mem d.addr) = true then
      mergeLoop A fuel b.addr (setNext A (setSize A mem b.addr (blockSize A mem b.addr +
        (A.word.header + blockSize A mem d.addr))) b.addr
        (blockNext A (setSize A mem b.addr (blockSize A mem b.addr + (A.word.header + blockSize A mem d.addr)))
          d.addr)) else mergeLoop A fuel d.addr mem) = _ ∧ _
    rw [hd.free, hb.size, hd.size, merge]
    have hsplit := ht.split
    have hadj : b.addr + A.word.header + b.size ≤ d.addr := hsplit.2 d (by simp)
    have hend := ht.lt (b := d) (by simp)
    by_cases hboth : (b.free && d.free) = true
    · rw [if_pos hboth, if_pos hboth]
      rw [Bool.and_eq_true] at hboth
      generalize hm : setSize A mem b.addr (b.size + (A.word.header + d.size)) = m
      have hoff : OffHeader A b.addr mem m := by
        rw [← hm]
        exact setSize_off mem b.addr _
      have hdm : HeaderIs A m d (firstAddr 0 rest) := hd.congr fun x h1 h2 => hoff x (Or.inr (by omega))
      rw [hdm.next]
      have hbm : HeaderIs A m (join A b d) d.addr := by
        rw [← hm]
        exact hb.setSize (by omega)
      have hnext : firstAddr 0 rest < 256 ^ A.word.bytes := by
        rw [← hd.next]
        exact leAt_lt ..
      have hbn := hbm.setNext hnext
      have hoff' := hoff.trans (setNext_off m b.addr (firstAddr 0 rest))
      obtain ⟨mem', hrun, hlinked, hframe⟩ := ih pre (join A b d) fuel
        (setNext A m b.addr (firstAddr 0 rest)) (by omega) ht.join (by
          rw [linked_append]
          refine ⟨hlpre.congr fun c hc x h1 h2 => hoff' x (Or.inl ?_), hbn,
            hlrest.congr fun c hc x h1 h2 => hoff' x (Or.inr ?_)⟩
          · have := hsplit.1 c hc
            omega
          · have := hsplit.2 c (by simp [hc])
            omega)
      refine ⟨mem', hrun, hlinked, fun x hx => ?_⟩
      rw [hframe x ?_, hoff' x (hx b (by simp) hboth.1)]
      intro c hc hfree
      rcases List.mem_cons.mp hc with rfl | hc
      · exact hx b (by simp) hboth.1
      · exact hx c (by simp [hc]) hfree
    · rw [if_neg hboth, if_neg hboth]
      rw [List.append_cons] at ht hl
      obtain ⟨mem', hrun, hlinked, hframe⟩ := ih (pre ++ [b]) d fuel mem (by omega) ht hl
      refine ⟨mem', hrun, ?_, fun x hx => hframe x fun c hc => hx c (List.mem_cons_of_mem b hc)⟩
      rw [List.append_assoc] at hlinked
      exact hlinked

end Limine.Ui
