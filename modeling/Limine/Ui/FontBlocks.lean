import Limine.Lib.Tiling
import Limine.Ui.FontArena

/-!
# The blocks of a font's arena

What the headers in the arena say, as a list of blocks.  The blocks tile the arena, so that a header
lies apart from every other one and from what the other blocks hold, and a store into one header
leaves the rest of the chain as it was.
-/

namespace Limine.Ui

open Limine.Lib

/-- A block: where its header is, and what it says. -/
structure Block where
  addr : Nat
  size : Nat
  free : Bool
deriving DecidableEq, Repr

def firstAddr (stop : Nat) : List Block → Nat
  | [] => stop
  | b :: _ => b.addr

section
variable (A : Arena)

/-- What `font_alloc` returns for the block. -/
def Block.data (b : Block) : Nat := b.addr + A.word.header

/-- The block with its header. -/
def Block.extent (b : Block) : Nat × Nat := (b.addr, b.addr + A.word.header + b.size)

/-- The header of a block in the memory. -/
structure HeaderIs (mem : ByteMemory) (b : Block) (next : Nat) : Prop where
  size : blockSize A mem b.addr = b.size
  next : blockNext A mem b.addr = next
  free : blockFree A mem b.addr = b.free

/-- The headers are chained, and the last of them points to `stop`. -/
def Linked (mem : ByteMemory) (stop : Nat) : List Block → Prop
  | [] => True
  | b :: rest => HeaderIs A mem b (firstAddr stop rest) ∧ Linked mem stop rest

/-- The blocks lie one behind the other and in units of 16 bytes. -/
structure Tiled (blocks : List Block) : Prop where
  tiles : Tiles A.base (blocks.map (Block.extent A)) (A.base + A.budget)
  aligned : ∀ b ∈ blocks, 16 ∣ b.size

end

variable {A : Arena} {mem mem' : ByteMemory} {stop : Nat}

/-! ## Headers -/

theorem fields_lt (w : Word) : 2 * w.bytes < w.header := by
  cases w with
  | w32 => decide
  | w64 => decide

theorem header_aligned (w : Word) : 16 ∣ w.header ∧ 16 ≤ w.header := by
  cases w with
  | w32 => decide
  | w64 => decide

theorem bytes_pos (w : Word) : 0 < w.bytes := by
  cases w with
  | w32 => decide
  | w64 => decide

/-- A header is what its own bytes say. -/
theorem HeaderIs.congr {b : Block} {next : Nat} (h : HeaderIs A mem b next)
    (hmem : ∀ x, b.addr ≤ x → x < b.addr + A.word.header → mem' x = mem x) : HeaderIs A mem' b next := by
  have hw := fields_lt A.word
  refine ⟨?_, ?_, ?_⟩
  · rw [← h.size]
    exact leAt_congr fun x h1 h2 => hmem x h1 (by omega)
  · rw [← h.next]
    exact leAt_congr fun x h1 h2 => hmem x (by omega) (by omega)
  · rw [← h.free]
    unfold blockFree
    rw [hmem _ (by omega) (by omega)]

/-- Where a store into the header at `block` does not reach. -/
def OffHeader (A : Arena) (block : Nat) (mem mem' : ByteMemory) : Prop :=
  ∀ x, x < block ∨ block + A.word.header ≤ x → mem' x = mem x

theorem OffHeader.trans {block : Nat} {mem'' : ByteMemory} (h : OffHeader A block mem mem')
    (h' : OffHeader A block mem' mem'') : OffHeader A block mem mem'' := by
  intro x hx
  rw [h' x hx, h x hx]

theorem setSize_off (mem : ByteMemory) (block size : Nat) : OffHeader A block mem (setSize A mem block size) := by
  intro x hx
  have hw := fields_lt A.word
  apply ByteMemory.store_of_not_mem
  rw [length_leBytes]
  omega

theorem setNext_off (mem : ByteMemory) (block next : Nat) : OffHeader A block mem (setNext A mem block next) := by
  intro x hx
  have hw := fields_lt A.word
  apply ByteMemory.store_of_not_mem
  rw [length_leBytes]
  omega

theorem setFree_off (mem : ByteMemory) (block : Nat) (free : Bool) :
    OffHeader A block mem (setFree A mem block free) := by
  intro x hx
  have hw := fields_lt A.word
  apply ByteMemory.store_of_not_mem
  rw [List.length_singleton]
  omega

theorem HeaderIs.setSize {b : Block} {next size : Nat} (h : HeaderIs A mem b next)
    (hsize : size < 256 ^ A.word.bytes) :
    HeaderIs A (setSize A mem b.addr size) { b with size := size } next := by
  have hw := bytes_pos A.word
  refine ⟨?_, ?_, ?_⟩
  · exact ByteMemory.leAt_store _ _ hsize
  · rw [← h.next]
    refine ByteMemory.leAt_store_of_apart _ ?_
    rw [length_leBytes]
    exact Or.inr (Nat.le_refl _)
  · rw [← h.free]
    unfold blockFree
    show decide (Ui.setSize A mem b.addr size (b.addr + 2 * A.word.bytes) ≠ 0) = _
    rw [Ui.setSize, ByteMemory.store_of_not_mem _ (by rw [length_leBytes]; omega)]

theorem HeaderIs.setNext {b : Block} {next next' : Nat} (h : HeaderIs A mem b next)
    (hnext : next' < 256 ^ A.word.bytes) : HeaderIs A (setNext A mem b.addr next') b next' := by
  have hw := bytes_pos A.word
  refine ⟨?_, ?_, ?_⟩
  · rw [← h.size]
    exact ByteMemory.leAt_store_of_apart _ (by omega)
  · exact ByteMemory.leAt_store _ _ hnext
  · rw [← h.free]
    unfold blockFree
    rw [Ui.setNext, ByteMemory.store_of_not_mem _ (by rw [length_leBytes]; omega)]

theorem HeaderIs.setFree {b : Block} {next : Nat} (free : Bool) (h : HeaderIs A mem b next) :
    HeaderIs A (setFree A mem b.addr free) { b with free := free } next := by
  refine ⟨?_, ?_, ?_⟩
  · rw [← h.size]
    refine ByteMemory.leAt_store_of_apart _ (Or.inl ?_)
    show b.addr + A.word.bytes ≤ b.addr + 2 * A.word.bytes
    omega
  · rw [← h.next]
    refine ByteMemory.leAt_store_of_apart _ (Or.inl ?_)
    show b.addr + A.word.bytes + A.word.bytes ≤ b.addr + 2 * A.word.bytes
    omega
  · have h0 : Ui.setFree A mem b.addr free (b.addr + 2 * A.word.bytes + 0) = if free then 1 else 0 :=
      ByteMemory.store_apply _ (Nat.lt_succ_self 0)
    rw [Nat.add_zero] at h0
    unfold blockFree
    show decide (Ui.setFree A mem b.addr free (b.addr + 2 * A.word.bytes) ≠ 0) = free
    rw [h0]
    cases free with
    | true => decide
    | false => decide

theorem setBlock_spec (b : Block) {next : Nat} (hsize : b.size < 256 ^ A.word.bytes)
    (hnext : next < 256 ^ A.word.bytes) :
    HeaderIs A (setBlock A mem b.addr b.size next b.free) b next ∧
      OffHeader A b.addr mem (setBlock A mem b.addr b.size next b.free) := by
  constructor
  · have h : HeaderIs A mem ⟨b.addr, blockSize A mem b.addr, blockFree A mem b.addr⟩ (blockNext A mem b.addr) :=
      ⟨rfl, rfl, rfl⟩
    exact ((h.setSize hsize).setNext hnext).setFree b.free
  · exact ((setSize_off mem b.addr b.size).trans (setNext_off _ b.addr next)).trans (setFree_off _ b.addr b.free)

/-! ## Chains -/

theorem firstAddr_append (l m : List Block) : firstAddr stop (l ++ m) = firstAddr (firstAddr stop m) l := by
  cases l with
  | nil => rfl
  | cons b l => rfl

theorem linked_append {l m : List Block} :
    Linked A mem stop (l ++ m) ↔ Linked A mem (firstAddr stop m) l ∧ Linked A mem stop m := by
  induction l with
  | nil => simp [Linked]
  | cons b l ih =>
    rw [List.cons_append, Linked, Linked, ih, firstAddr_append, and_assoc]

theorem Linked.congr {l : List Block} (h : Linked A mem stop l)
    (hmem : ∀ b ∈ l, ∀ x, b.addr ≤ x → x < b.addr + A.word.header → mem' x = mem x) : Linked A mem' stop l := by
  induction l with
  | nil => trivial
  | cons b l ih =>
    exact ⟨h.1.congr (hmem b (by simp)), ih h.2 fun c hc => hmem c (by simp [hc])⟩

/-! ## Tilings -/

theorem mem_extents {blocks : List Block} {b : Block} (hb : b ∈ blocks) :
    Block.extent A b ∈ blocks.map (Block.extent A) := List.mem_map_of_mem hb

theorem Tiled.bounds {blocks : List Block} (h : Tiled A blocks) {b : Block} (hb : b ∈ blocks) :
    A.base ≤ b.addr ∧ b.addr + A.word.header + b.size ≤ A.base + A.budget := by
  have hin := h.tiles.bounds _ (mem_extents hb)
  exact ⟨hin.1, hin.2.2⟩

theorem Tiled.ne_zero {blocks : List Block} (h : Tiled A blocks) {b : Block} (hb : b ∈ blocks) :
    b.addr ≠ 0 := by
  have h1 := (h.bounds hb).1
  have h2 := A.base_pos
  omega

theorem Tiled.lt {blocks : List Block} (h : Tiled A blocks) {b : Block} (hb : b ∈ blocks) :
    b.addr + A.word.header + b.size < 256 ^ A.word.bytes := by
  have h1 := (h.bounds hb).2
  have h2 := A.no_wrap
  omega

/-- What comes before a block ends where it begins, and what comes after begins where it ends. -/
theorem Tiled.split {pre post : List Block} {b : Block} (h : Tiled A (pre ++ b :: post)) :
    (∀ c ∈ pre, c.addr + A.word.header + c.size ≤ b.addr) ∧
      ∀ c ∈ post, b.addr + A.word.header + b.size ≤ c.addr := by
  have hp := h.tiles.pairwise
  rw [List.map_append, List.map_cons, List.pairwise_append, List.pairwise_cons] at hp
  constructor
  · intro c hc
    exact hp.2.2 _ (mem_extents hc) _ List.mem_cons_self
  · intro c hc
    exact hp.2.1.1 _ (mem_extents hc)

/-- Two blocks are the same or apart. -/
theorem Tiled.apart {blocks : List Block} (h : Tiled A blocks) {b c : Block} (hb : b ∈ blocks)
    (hc : c ∈ blocks) (hne : b ≠ c) :
    b.addr + A.word.header + b.size ≤ c.addr ∨ c.addr + A.word.header + c.size ≤ b.addr := by
  obtain ⟨pre, post, rfl⟩ := List.append_of_mem hb
  obtain ⟨hpre, hpost⟩ := h.split
  rcases List.mem_append.mp hc with hc | hc
  · exact Or.inr (hpre c hc)
  · rcases List.mem_cons.mp hc with rfl | hc
    · exact absurd rfl hne
    · exact Or.inl (hpost c hc)

theorem Tiled.addr_inj {blocks : List Block} (h : Tiled A blocks) {b c : Block} (hb : b ∈ blocks)
    (hc : c ∈ blocks) (haddr : b.addr = c.addr) : b = c := by
  have hw := (header_aligned A.word).2
  by_contra hne
  have h := h.apart hb hc hne
  omega

theorem Tiled.addr_aligned {blocks : List Block} (h : Tiled A blocks) : ∀ b ∈ blocks, 16 ∣ b.addr := by
  have hw := (header_aligned A.word).1
  suffices hgen : ∀ (l : List Block) (lo hi : Nat), 16 ∣ lo → (∀ b ∈ l, 16 ∣ b.size) →
      Tiles lo (l.map (Block.extent A)) hi → ∀ b ∈ l, 16 ∣ b.addr from
    hgen blocks _ _ A.base_aligned h.aligned h.tiles
  intro l
  induction l with
  | nil =>
    intro lo hi _ _ _ b hb
    cases hb
  | cons c l ih =>
    intro lo hi hlo hsize ht b hb
    rw [List.map_cons] at ht
    cases ht with
    | cons lt rest =>
      have hc := hsize c (by simp)
      rcases List.mem_cons.mp hb with rfl | hb
      · exact hlo
      · refine ih _ _ ?_ (fun b hb => hsize b (by simp [hb])) rest b hb
        exact Nat.dvd_add (Nat.dvd_add hlo hw) hc

/-- There are fewer blocks than bytes. -/
theorem Tiled.length_le {blocks : List Block} (h : Tiled A blocks) : blocks.length ≤ A.budget := by
  suffices hgen : ∀ (l : List Block) (lo hi : Nat), Tiles lo (l.map (Block.extent A)) hi → lo + l.length ≤ hi by
    have := hgen blocks _ _ h.tiles
    omega
  intro l
  induction l with
  | nil =>
    intro lo hi ht
    cases ht
    exact Nat.le_refl _
  | cons c l ih =>
    intro lo hi ht
    rw [List.map_cons] at ht
    cases ht with
    | cons lt rest =>
      have := ih _ _ rest
      rw [List.length_cons]
      omega

theorem Tiled.first {blocks : List Block} (h : Tiled A blocks) : firstAddr 0 blocks = A.base := by
  have hgen : ∀ lo hi, lo < hi → Tiles lo (blocks.map (Block.extent A)) hi → firstAddr 0 blocks = lo := by
    intro lo hi hlt ht
    cases blocks with
    | nil =>
      cases ht
      omega
    | cons b rest =>
      rw [List.map_cons] at ht
      cases ht
      rfl
  have hroom := A.budget_room
  exact hgen _ _ (by omega) h.tiles

end Limine.Ui
