import Limine.Lib.ByteMemory
import Limine.Loader.Memory
import Limine.Pmm.Room
import Limine.Pmm.Pages

/-!
# Draining a stream into memory

The part of `uri_open` that fills a buffer from a stream whose size is not known, on builds that can
address all of memory: with the memory map the buffer is taken from and the bytes in it.
-/

namespace Limine.Uri.Drain
open Limine.Lib (ByteMemory)
open Limine.Loader (add64 sub64)
open Limine.Pmm

structure State where
  pmm : PmmState
  mem : ByteMemory

/-- `buf_addr`, `buf_cap` and `buf_len`. -/
structure Buffer where
  addr : Nat
  cap : Nat
  len : Nat
deriving DecidableEq, Repr

/-- The decoded stream: what it has to give, and in what portions. -/
structure Stream where
  data : List UInt8
  portion : Nat → Nat

/-- `fread` of the stream at `loc`, the read numbered `turn`: something, unless the stream is at its end. -/
def Stream.read (stream : Stream) (turn loc want : Nat) : List UInt8 :=
  (stream.data.drop loc).take (min want (max 1 (stream.portion turn)))

section
variable (cfg : Config)

def uriReleaseRange (s : State) (addr count : Nat) : Exec State :=
  match alignUp count 4096 with
  | none => .error (.panic "uri: alignment overflow")
  | some count => do
    let (pmm, _) ← memmapAllocRange cfg s.pmm addr count memmapUsable 0 false false true
    .ok { s with pmm }

/-- `uri_alloc`, with the `memset` of what it gets. -/
def uriAlloc (s : State) (count type : Nat) (allowHighMem : Bool) : Exec (State × Nat) := do
  let (pmm, addr) ← extMemAllocTypeAlignedMode cfg s.pmm count type 4096 allowHighMem
  .ok ({ pmm, mem := s.mem.fill addr 0 ((extCount count 4096).getD 0) }, addr)

/-- The try to claim `delta` bytes below the buffer. -/
def claimBelow (s : State) (buf : Buffer) (delta type : Nat) : Exec (PmmState × Bool) :=
  if buf.addr ≥ delta then
    memmapAllocRange cfg s.pmm (buf.addr - delta) delta type memmapUsable false false false
  else .ok (s.pmm, false)

/-- The growth of a buffer that is full. -/
def grow (type : Nat) (allowHighMem : Bool) (s : State) (buf : Buffer) : Exec (State × Buffer) := do
  let newCap := if buf.cap < 0x4000000 then buf.cap * 2 else add64 buf.cap 0x4000000
  let delta := sub64 newCap buf.cap
  let (pmm, claimed) ← claimBelow cfg s buf delta type
  if claimed then
    let base := buf.addr - delta
    .ok ({ pmm, mem := s.mem.move base buf.addr buf.len }, { buf with addr := base, cap := newCap })
  else do
    let (s, newAddr) ← uriAlloc cfg { s with pmm } newCap type allowHighMem
    let s ← uriReleaseRange cfg { s with mem := s.mem.copyUp newAddr buf.addr buf.len } buf.addr buf.cap
    .ok (s, { buf with addr := newAddr, cap := newCap })

def growIfFull (type : Nat) (allowHighMem : Bool) (s : State) (buf : Buffer) : Exec (State × Buffer) :=
  if buf.len = buf.cap then grow cfg type allowHighMem s buf else .ok (s, buf)

/-- The loop, at the turn numbered `turn`. -/
def fillLoop (type : Nat) (allowHighMem : Bool) (stream : Stream) :
    Nat → Nat → State → Buffer → Exec (State × Buffer)
  | 0, _, _, _ => .error .outOfFuel
  | fuel + 1, turn, s, buf => do
    let (s, buf) ← growIfFull cfg type allowHighMem s buf
    let want := buf.cap - buf.len
    let want := if want > 65536 then 65536 else want
    let got := stream.read turn buf.len want
    if got.length = 0 then .ok (s, buf)
    else
      fillLoop type allowHighMem stream fuel (turn + 1) { s with mem := s.mem.store (buf.addr + buf.len) got }
        { buf with len := buf.len + got.length }

/-- The release of what lies behind the data, of which a page is kept. -/
def releaseTail (s : State) (buf : Buffer) : Exec (State × Buffer) :=
  match alignUp buf.len 4096 with
  | none => .error (.panic "uri: alignment overflow")
  | some kept => do
    let kept := if kept = 0 then 4096 else kept
    if kept < buf.cap then do
      let s ← uriReleaseRange cfg s (buf.addr + kept) (buf.cap - kept)
      .ok (s, { buf with cap := kept })
    else .ok (s, buf)

def drain (type : Nat) (allowHighMem : Bool) (stream : Stream) (s : State) : Exec (State × Buffer) := do
  let (s, addr) ← uriAlloc cfg s 0x100000 type allowHighMem
  let (s, buf) ← fillLoop cfg type allowHighMem stream (stream.data.length + 1) 0 s ⟨addr, 0x100000, 0⟩
  releaseTail cfg s buf

end

/-!
## What a drain leaves

A drain of a stream leaves its bytes in a buffer of as many pages as they need, and every other page as
it was: what the buffer outgrew is usable again.
-/

/-! ## Types -/

section
variable {keepFirstPage : Bool} {m m' : Memmap} {lo length type : Nat}

/-- Pages that are taken have the type asked for alone. -/
theorem types_taken (h : Carves keepFirstPage lo length type m m') (htype : type ≠ memmapUsable) {a : Nat}
    (ha : lo ≤ a ∧ a < lo + length) : typesAt m' a = {type} := by
  rw [h.types_inside ha]
  ext t
  constructor
  · exact fun ht => ht.1
  · exact fun ht => ⟨ht, fun hu => absurd hu htype⟩

/-- Pages that are given back are as they were on a map they were usable on. -/
theorem types_released (h : Carves keepFirstPage lo length memmapUsable m m') {m₀ : Memmap}
    (h₀ : Sanitised keepFirstPage false m₀) {a : Nat} (ha : lo ≤ a ∧ a < lo + length)
    (hu : Covers m₀ memmapUsable a) : typesAt m' a = typesAt m₀ a := by
  have hreach : InReach keepFirstPage memmapUsable a := by
    have hsettled : memmapUsable ∈ settled keepFirstPage (typesAt m₀) a := by
      rw [h₀.settled_types]
      exact hu
    exact hsettled.2
  rw [h.types_inside ha]
  ext t
  constructor
  · rintro ⟨rfl, -⟩
    exact hu
  · intro ht
    exact ⟨h₀.disjoint.eq_of_covers hu ht, hreach⟩

end

/-! ## What each function does -/

theorem extCount_of_dvd {count n : Nat} (h0 : 0 < count) (hdvd : 4096 ∣ count)
    (h : extCount count 4096 = some n) : n = count := by
  unfold extCount at h
  obtain ⟨y, hy, rfl⟩ := Option.map_eq_some_iff.mp h
  obtain ⟨-, rfl⟩ := checkedAdd_eq_some_iff.mp hy
  rw [if_neg (by omega)]
  obtain ⟨k, rfl⟩ := hdvd
  unfold alignDown
  omega

-- An elaborator that unfolds `Ensures` would count up to the alignment in what it is said of.
attribute [local irreducible] extCount alignUp

section
variable {cfg : Config}

theorem uriAlloc_ensures {s : State} (hm : PageMap cfg.keepFirstPage s.pmm.memmap) (count type : Nat)
    (allowHighMem : Bool) :
    (uriAlloc cfg s count type allowHighMem).Ensures True fun r =>
      ∃ n, extCount count 4096 = some n ∧ 0 < n ∧ r.1.mem = s.mem.fill r.2 0 n ∧
        TakesPages cfg.keepFirstPage r.2 n type s.pmm.memmap r.1.pmm.memmap := by
  unfold uriAlloc
  have halloc := extMemAlloc_pages cfg hm count type allowHighMem
  generalize extCount count 4096 = pages at halloc ⊢
  apply halloc.bind
  rintro ⟨pmm, addr⟩ ⟨n, rfl, hn0, -, htakes⟩
  exact ⟨n, rfl, hn0, rfl, htakes⟩

theorem uriReleaseRange_ensures {s : State} (hm : PageMap cfg.keepFirstPage s.pmm.memmap) {addr count : Nat}
    (h0 : 0 < count) (hov : addr + count < 2 ^ 64) (haddr : 4096 ∣ addr) (hcount : 4096 ∣ count) :
    (uriReleaseRange cfg s addr count).Ensures True fun s' => s'.mem = s.mem ∧
      Carves cfg.keepFirstPage addr count memmapUsable s.pmm.memmap s'.pmm.memmap ∧
        PageMap cfg.keepFirstPage s'.pmm.memmap := by
  have hroom : count + (4096 - 1) < 2 ^ 64 := by
    obtain ⟨k, rfl⟩ := hcount
    omega
  unfold uriReleaseRange
  rw [alignUp_of_dvd (by decide) hcount hroom]
  apply (memmapAllocRange_release cfg hm h0 hov haddr hcount).bind
  rintro ⟨pmm, ok⟩ h
  exact ⟨rfl, h⟩

end

/-! ## The buffer -/

section
variable (cfg : Config) (m₀ : Memmap) (type : Nat)

/-- The buffer holds `data`; it is made of pages that were usable on the map `m₀`, and no other address
has another type than there. -/
structure Holding (s : State) (buf : Buffer) (data : List UInt8) : Prop where
  pageMap : PageMap cfg.keepFirstPage s.pmm.memmap
  addr_dvd : 4096 ∣ buf.addr
  cap_dvd : 4096 ∣ buf.cap
  cap_pos : 0 < buf.cap
  usable : ∀ a, buf.addr ≤ a → a < buf.addr + buf.cap → Covers m₀ memmapUsable a
  inside : ∀ a, buf.addr ≤ a → a < buf.addr + buf.cap → typesAt s.pmm.memmap a = {type}
  outside : ∀ a, ¬(buf.addr ≤ a ∧ a < buf.addr + buf.cap) → typesAt s.pmm.memmap a = typesAt m₀ a
  len_eq : buf.len = data.length
  len_le : buf.len ≤ buf.cap
  bytes : s.mem.bytes buf.addr buf.len = data

variable {cfg m₀ type}
variable (h₀ : Sanitised cfg.keepFirstPage false m₀) (hphys : ∀ a, Covers m₀ memmapUsable a → a < 2 ^ 63)
  (htype : type ≠ memmapUsable)

include hphys in
theorem Holding.end_le {s : State} {buf : Buffer} {data : List UInt8} (h : Holding cfg m₀ type s buf data) :
    buf.addr + buf.cap ≤ 2 ^ 63 := by
  have hpos := h.cap_pos
  have hlast := hphys _ (h.usable (buf.addr + buf.cap - 1) (by omega) (by omega))
  omega

/-- The first allocation. -/
theorem uriAlloc_holding {s : State} (hm : PageMap cfg.keepFirstPage s.pmm.memmap)
    (htype : type ≠ memmapUsable) (allowHighMem : Bool) :
    (uriAlloc cfg s 0x100000 type allowHighMem).Ensures True fun r =>
      Holding cfg s.pmm.memmap type r.1 ⟨r.2, 0x100000, 0⟩ [] := by
  apply (uriAlloc_ensures hm 0x100000 type allowHighMem).imp id
  rintro ⟨s', addr⟩ ⟨n, hn, hn0, -, htakes⟩
  obtain rfl := extCount_of_dvd (by decide) (by decide) hn
  exact {
    pageMap := htakes.pageMap
    addr_dvd := htakes.lo_dvd
    cap_dvd := ⟨256, rfl⟩
    cap_pos := Nat.zero_lt_succ _
    usable := htakes.usable
    inside := fun a hlo hhi => types_taken htakes.carves htype ⟨hlo, hhi⟩
    outside := fun a ha => htakes.carves.types_outside hm.sanitised ha
    len_eq := rfl
    len_le := Nat.zero_le _
    bytes := rfl }

/-- Growth in place: the pages below are added, and the bytes move down. -/
theorem Holding.extend {s : State} {buf : Buffer} {data : List UInt8} (h : Holding cfg m₀ type s buf data)
    (htype : type ≠ memmapUsable) {delta : Nat} (hle : delta ≤ buf.addr) (hdelta : 4096 ∣ delta) {pmm : PmmState}
    (htakes : TakesPages cfg.keepFirstPage (buf.addr - delta) delta type s.pmm.memmap pmm.memmap) :
    Holding cfg m₀ type ⟨pmm, s.mem.move (buf.addr - delta) buf.addr buf.len⟩
      { buf with addr := buf.addr - delta, cap := buf.cap + delta } data where
  pageMap := htakes.pageMap
  addr_dvd := htakes.lo_dvd
  cap_dvd := Nat.dvd_add h.cap_dvd hdelta
  cap_pos := Nat.add_pos_left h.cap_pos delta
  usable := by
    intro a hlo hhi
    dsimp only at hlo hhi
    by_cases hin : buf.addr ≤ a
    · exact h.usable a hin (by omega)
    · have := htakes.usable a hlo (by omega)
      unfold Covers at this ⊢
      rwa [h.outside a (by omega)] at this
  inside := by
    intro a hlo hhi
    dsimp only at hlo hhi
    by_cases hin : buf.addr ≤ a
    · show typesAt pmm.memmap a = _
      rw [htakes.carves.types_outside h.pageMap.sanitised (by omega), h.inside a hin (by omega)]
    · exact types_taken htakes.carves htype ⟨hlo, by omega⟩
  outside := by
    intro a ha
    dsimp only at ha
    show typesAt pmm.memmap a = _
    rw [htakes.carves.types_outside h.pageMap.sanitised (by omega), h.outside a (by omega)]
  len_eq := h.len_eq
  len_le := Nat.le_trans h.len_le (Nat.le_add_right _ _)
  bytes := by
    show (s.mem.move (buf.addr - delta) buf.addr buf.len).bytes (buf.addr - delta) buf.len = data
    rw [ByteMemory.bytes_move, h.bytes]

/-- Usable pages are none of the buffer's. -/
theorem Holding.apart {s : State} {buf : Buffer} {data : List UInt8} (h : Holding cfg m₀ type s buf data)
    (htype : type ≠ memmapUsable) {lo n : Nat} (hn : 0 < n)
    (hu : ∀ a, lo ≤ a → a < lo + n → Covers s.pmm.memmap memmapUsable a) :
    buf.addr + buf.cap ≤ lo ∨ lo + n ≤ buf.addr := by
  have hclash : ∀ a, lo ≤ a → a < lo + n → buf.addr ≤ a → ¬a < buf.addr + buf.cap := by
    intro a hlo hhi hlo' hhi'
    have := hu a hlo hhi
    unfold Covers at this
    rw [h.inside a hlo' hhi'] at this
    exact htype (Set.mem_singleton_iff.mp this).symm
  have h1 := hclash lo (Nat.le_refl lo) (by omega)
  have h2 := fun hlo hhi => hclash buf.addr hlo hhi (Nat.le_refl _)
  have hpos := h.cap_pos
  by_contra hmeet
  rcases Nat.lt_or_ge lo buf.addr with hlt | hge
  · exact h2 (by omega) (by omega) (by omega)
  · exact h1 hge (by omega)

include h₀ in
/-- Growth into new pages: the bytes are copied, and the old pages given back. -/
theorem Holding.replace {s s₁ s₂ : State} {buf : Buffer} {data : List UInt8}
    (h : Holding cfg m₀ type s buf data) (htype : type ≠ memmapUsable) {newAddr newCap : Nat}
    (hcap : buf.cap ≤ newCap) (hdvd : 4096 ∣ newCap)
    (htakes : TakesPages cfg.keepFirstPage newAddr newCap type s.pmm.memmap s₁.pmm.memmap)
    (hmem : s₁.mem = s.mem.fill newAddr 0 newCap)
    (hrelease : Carves cfg.keepFirstPage buf.addr buf.cap memmapUsable s₁.pmm.memmap s₂.pmm.memmap)
    (hpages : PageMap cfg.keepFirstPage s₂.pmm.memmap)
    (hmem₂ : s₂.mem = s₁.mem.copyUp newAddr buf.addr buf.len) :
    Holding cfg m₀ type s₂ { buf with addr := newAddr, cap := newCap } data := by
  have hpos := h.cap_pos
  have hlen := h.len_le
  have happart := h.apart htype (by omega) htakes.usable
  refine {
    pageMap := hpages
    addr_dvd := htakes.lo_dvd
    cap_dvd := hdvd
    cap_pos := by dsimp only; omega
    usable := ?_
    inside := ?_
    outside := ?_
    len_eq := h.len_eq
    len_le := Nat.le_trans hlen hcap
    bytes := ?_ }
  · intro a hlo hhi
    have := htakes.usable a hlo hhi
    dsimp only at hlo hhi
    unfold Covers at this ⊢
    rwa [h.outside a (by omega)] at this
  · intro a hlo hhi
    dsimp only at hlo hhi
    rw [hrelease.types_outside htakes.pageMap.sanitised (by omega)]
    exact types_taken htakes.carves htype ⟨hlo, hhi⟩
  · intro a ha
    dsimp only at ha
    by_cases hold : buf.addr ≤ a ∧ a < buf.addr + buf.cap
    · exact types_released hrelease h₀ hold (h.usable a hold.1 hold.2)
    · rw [hrelease.types_outside htakes.pageMap.sanitised hold,
        htakes.carves.types_outside h.pageMap.sanitised ha, h.outside a hold]
  · show s₂.mem.bytes newAddr buf.len = data
    rw [hmem₂, hmem, ByteMemory.bytes_copyUp _ (by omega), ByteMemory.bytes_fill _ (by omega), h.bytes]

/-! ## The loop -/

/-- What a buffer of `cap` bytes grows to. -/
theorem grown_spec {cap newCap : Nat} (hpos : 0 < cap) (hdvd : 4096 ∣ cap) (hle : cap ≤ 2 ^ 63)
    (h : newCap = if cap < 0x4000000 then cap * 2 else add64 cap 0x4000000) :
    4096 ∣ newCap ∧ cap < newCap ∧ sub64 newCap cap = newCap - cap ∧ 4096 ∣ newCap - cap := by
  obtain ⟨k, rfl⟩ := hdvd
  unfold add64 at h
  unfold sub64
  split at h
  · refine ⟨by omega, by omega, by omega, by omega⟩
  · refine ⟨by omega, by omega, by omega, by omega⟩

include h₀ hphys htype in
theorem grow_holding {s : State} {buf : Buffer} {data : List UInt8} (h : Holding cfg m₀ type s buf data)
    (allowHighMem : Bool) :
    (grow cfg type allowHighMem s buf).Ensures True fun r =>
      Holding cfg m₀ type r.1 r.2 data ∧ buf.cap < r.2.cap := by
  have hend := h.end_le hphys
  unfold grow
  dsimp only
  generalize hnew : (if buf.cap < 0x4000000 then buf.cap * 2 else add64 buf.cap 0x4000000) = newCap
  obtain ⟨hdvd, hlt, hdelta, hdeltaDvd⟩ := grown_spec h.cap_pos h.cap_dvd (by omega) hnew.symm
  rw [hdelta]
  have hsum : buf.cap + (newCap - buf.cap) = newCap := Nat.add_sub_cancel' (Nat.le_of_lt hlt)
  generalize hd : newCap - buf.cap = delta at hdeltaDvd hsum ⊢
  have hclaim : (claimBelow cfg s buf delta type).Ensures True fun r =>
      if r.2 then delta ≤ buf.addr ∧
        TakesPages cfg.keepFirstPage (buf.addr - delta) delta type s.pmm.memmap r.1.memmap
      else r.1 = s.pmm := by
    unfold claimBelow
    split
    · next hle =>
      apply (memmapAllocRange_claim cfg h.pageMap type (by omega) (Nat.dvd_sub h.addr_dvd hdeltaDvd)
        hdeltaDvd).imp id
      rintro ⟨pmm, ok⟩ hout
      cases ok with
      | false => exact hout
      | true => exact ⟨hle, hout⟩
    · exact rfl
  apply hclaim.bind
  rintro ⟨pmm, claimed⟩ hout
  cases claimed with
  | true =>
    obtain ⟨hle, htakes⟩ := hout
    rw [← hsum]
    exact ⟨h.extend htype hle hdeltaDvd htakes, by dsimp only; omega⟩
  | false =>
    dsimp only at hout
    rw [if_neg Bool.false_ne_true] at hout
    subst hout
    dsimp only
    rw [if_neg Bool.false_ne_true]
    apply (uriAlloc_ensures h.pageMap newCap type allowHighMem).bind
    rintro ⟨s₁, newAddr⟩ ⟨n, hn, hn0, hmem, htakes⟩
    obtain rfl := extCount_of_dvd (by omega) hdvd hn
    dsimp only at hmem htakes ⊢
    apply (uriReleaseRange_ensures (s := { s₁ with mem := s₁.mem.copyUp newAddr buf.addr buf.len })
      htakes.pageMap h.cap_pos (by omega) h.addr_dvd h.cap_dvd).bind
    rintro s₂ ⟨hmem₂, hrelease, hpages⟩
    exact ⟨h.replace h₀ htype (Nat.le_of_lt hlt) hdvd htakes hmem hrelease hpages hmem₂, hlt⟩

include h₀ hphys htype in
theorem growIfFull_holding {s : State} {buf : Buffer} {data : List UInt8} (h : Holding cfg m₀ type s buf data)
    (allowHighMem : Bool) :
    (growIfFull cfg type allowHighMem s buf).Ensures True fun r =>
      Holding cfg m₀ type r.1 r.2 data ∧ r.2.len < r.2.cap := by
  unfold growIfFull
  split
  · next hfull =>
    apply (grow_holding h₀ hphys htype h allowHighMem).imp id
    rintro ⟨s', buf'⟩ ⟨h', hlt⟩
    have hlen : buf'.len = buf.len := h'.len_eq.trans h.len_eq.symm
    exact ⟨h', by dsimp only at hlt ⊢; omega⟩
  · next hroom => exact ⟨h, Nat.lt_of_le_of_ne h.len_le hroom⟩

/-- A read of the stream gives what comes next; nothing at the end only. -/
theorem Stream.read_spec (stream : Stream) (turn loc : Nat) {want : Nat} (hwant : 0 < want) :
    ∃ n, n ≤ want ∧ stream.read turn loc want = (stream.data.drop loc).take n ∧
      ((stream.read turn loc want).length = 0 → stream.data.length ≤ loc) := by
  refine ⟨min want (max 1 (stream.portion turn)), Nat.min_le_left _ _, rfl, ?_⟩
  intro h0
  unfold Stream.read at h0
  rw [List.length_take, List.length_drop] at h0
  omega

/-- What has been read is in the buffer. -/
theorem Holding.store {s : State} {buf : Buffer} {data got : List UInt8} (h : Holding cfg m₀ type s buf data)
    (hfit : buf.len + got.length ≤ buf.cap) :
    Holding cfg m₀ type { s with mem := s.mem.store (buf.addr + buf.len) got }
      { buf with len := buf.len + got.length } (data ++ got) where
  pageMap := h.pageMap
  addr_dvd := h.addr_dvd
  cap_dvd := h.cap_dvd
  cap_pos := h.cap_pos
  usable := h.usable
  inside := h.inside
  outside := h.outside
  len_eq := by
    rw [List.length_append, h.len_eq]
  len_le := hfit
  bytes := by
    show (s.mem.store (buf.addr + buf.len) got).bytes buf.addr (buf.len + got.length) = data ++ got
    rw [ByteMemory.bytes_store, h.bytes]

include h₀ hphys htype in
theorem fillLoop_holding (allowHighMem : Bool) (stream : Stream) {fuel turn : Nat} {s : State} {buf : Buffer}
    (h : Holding cfg m₀ type s buf (stream.data.take buf.len)) (hlen : buf.len ≤ stream.data.length)
    (hf : stream.data.length < fuel + buf.len) :
    (fillLoop cfg type allowHighMem stream fuel turn s buf).Ensures True fun r =>
      Holding cfg m₀ type r.1 r.2 stream.data := by
  induction fuel generalizing turn s buf with
  | zero => omega
  | succ fuel ih =>
    unfold fillLoop
    apply (growIfFull_holding h₀ hphys htype h allowHighMem).bind
    rintro ⟨s', buf'⟩ ⟨h', hroom⟩
    have hsame : buf'.len = buf.len := h'.len_eq.trans h.len_eq.symm
    dsimp only at h' hroom ⊢
    rw [← hsame] at h' hlen hf
    generalize hwant : (if buf'.cap - buf'.len > 65536 then 65536 else buf'.cap - buf'.len) = want
    have hwant : 0 < want ∧ want ≤ buf'.cap - buf'.len := by
      split at hwant <;> omega
    obtain ⟨n, hn, hgot, hend⟩ := stream.read_spec turn buf'.len hwant.1
    generalize stream.read turn buf'.len want = got at hgot hend ⊢
    split
    · next h0 =>
      have hall : stream.data.take buf'.len = stream.data := List.take_of_length_le (hend h0)
      rw [hall] at h'
      exact h'
    · next h0 =>
      have hle : got.length ≤ n ∧ got.length ≤ stream.data.length - buf'.len := by
        rw [hgot, List.length_take, List.length_drop]
        omega
      have hfront : stream.data.take (buf'.len + got.length) = stream.data.take buf'.len ++ got := by
        rw [List.take_add]
        congr 1
        rw [hgot, List.length_take, ← List.take_eq_take_min]
      apply ih
      · dsimp only
        rw [hfront]
        exact h'.store (by omega)
      · dsimp only
        omega
      · dsimp only
        omega

/-! ## The end -/

/-- How many bytes of pages `len` bytes are left: at least one page. -/
def keptBytes (len : Nat) : Nat := 4096 * max 1 ((len + 4095) / 4096)

theorem kept_eq {len kept : Nat} (h : alignUp len 4096 = some kept) :
    (if kept = 0 then 4096 else kept) = keptBytes len := by
  obtain ⟨hle, hlt, hdvd, -⟩ := alignUp_spec (by decide) h
  unfold keptBytes
  obtain ⟨k, rfl⟩ := hdvd
  split
  · omega
  · omega

include h₀ hphys in
theorem releaseTail_holding {s : State} {buf : Buffer} {data : List UInt8} (h : Holding cfg m₀ type s buf data) :
    (releaseTail cfg s buf).Ensures True fun r =>
      Holding cfg m₀ type r.1 r.2 data ∧ r.2.cap = keptBytes data.length := by
  have hend := h.end_le hphys
  unfold releaseTail
  split
  · trivial
  next kept hkept =>
  have heq := kept_eq hkept
  rw [heq, ← h.len_eq]
  have hle : keptBytes buf.len ≤ buf.cap := by
    have hcap := h.cap_dvd
    have hpos := h.cap_pos
    have hlen := h.len_le
    obtain ⟨k, hk⟩ := hcap
    unfold keptBytes
    omega
  have hdvd : 4096 ∣ keptBytes buf.len := ⟨_, rfl⟩
  have hpos : 0 < keptBytes buf.len := by
    unfold keptBytes
    omega
  have hfit : buf.len ≤ keptBytes buf.len := by
    unfold keptBytes
    omega
  generalize keptBytes buf.len = kept at hle hdvd hpos hfit ⊢
  dsimp only
  split
  · next hlt =>
    apply (uriReleaseRange_ensures h.pageMap (by omega) (by omega) (Nat.dvd_add h.addr_dvd hdvd)
      (Nat.dvd_sub h.cap_dvd hdvd)).bind
    rintro s' ⟨hmem, hrelease, hpages⟩
    refine ⟨{
      pageMap := hpages
      addr_dvd := h.addr_dvd
      cap_dvd := hdvd
      cap_pos := hpos
      usable := fun a hlo hhi => h.usable a hlo (by dsimp only at hhi; omega)
      inside := ?_
      outside := ?_
      len_eq := h.len_eq
      len_le := hfit
      bytes := ?_ }, rfl⟩
    · intro a hlo hhi
      dsimp only at hlo hhi
      rw [hrelease.types_outside h.pageMap.sanitised (by omega), h.inside a hlo (by omega)]
    · intro a ha
      dsimp only at ha
      by_cases htail : buf.addr + kept ≤ a ∧ a < buf.addr + kept + (buf.cap - kept)
      · exact types_released hrelease h₀ htail (h.usable a (by omega) (by omega))
      · rw [hrelease.types_outside h.pageMap.sanitised htail, h.outside a (by omega)]
    · rw [hmem]
      exact h.bytes
  · next hge => exact ⟨h, by dsimp only; omega⟩

end

/-- On a map with room a drain ends with the stream's bytes at a page boundary.  As many pages as they
need, one at least, have the type asked for and were usable before; every other address has the type it
had. -/
theorem drain_pages (cfg : Config) (s : State) (hm : PageMap cfg.keepFirstPage s.pmm.memmap)
    (hphys : ∀ a, Covers s.pmm.memmap memmapUsable a → a < 2 ^ 63) {type : Nat} (htype : type ≠ memmapUsable)
    (allowHighMem : Bool) (stream : Stream) :
    drain cfg type allowHighMem stream s ≠ .error .outOfFuel ∧
    ∀ s' buf, drain cfg type allowHighMem stream s = .ok (s', buf) →
      buf.len = stream.data.length ∧ s'.mem.bytes buf.addr buf.len = stream.data ∧ 4096 ∣ buf.addr ∧
      (∀ a, buf.addr ≤ a → a < buf.addr + keptBytes buf.len →
        typesAt s.pmm.memmap a = {memmapUsable} ∧ typesAt s'.pmm.memmap a = {type}) ∧
      ∀ a, ¬(buf.addr ≤ a ∧ a < buf.addr + keptBytes buf.len) →
        typesAt s'.pmm.memmap a = typesAt s.pmm.memmap a := by
  have hdrain : (drain cfg type allowHighMem stream s).Ensures True fun r =>
      Holding cfg s.pmm.memmap type r.1 r.2 stream.data ∧ r.2.cap = keptBytes stream.data.length := by
    unfold drain
    apply (uriAlloc_holding hm htype allowHighMem).bind
    rintro ⟨s₁, addr⟩ h₁
    apply (fillLoop_holding hm.sanitised hphys htype allowHighMem stream h₁ (Nat.zero_le _)
      (Nat.lt_succ_self _)).bind
    rintro ⟨s₂, buf⟩ h₂
    exact releaseTail_holding hm.sanitised hphys h₂
  constructor
  · intro hfuel
    rw [hfuel] at hdrain
    exact hdrain
  intro s' buf hok
  obtain ⟨h, hcap⟩ := hdrain.of_ok hok
  dsimp only at h hcap
  rw [← h.len_eq] at hcap
  refine ⟨h.len_eq, h.bytes, h.addr_dvd, ?_, ?_⟩
  · intro a hlo hhi
    rw [← hcap] at hhi
    have hu := h.usable a hlo hhi
    refine ⟨?_, h.inside a hlo hhi⟩
    ext t
    exact ⟨fun ht => hm.sanitised.disjoint.eq_of_covers hu ht, fun ht => ht ▸ hu⟩
  · intro a ha
    rw [← hcap] at ha
    exact h.outside a ha

/-- Four MiB of memory. -/
def fourMiB : State := ⟨⟨[⟨0x100000, 0x400000, memmapUsable⟩], 4096, false⟩, fun _ => 0⟩

theorem fourMiB_pageMap : PageMap true fourMiB.pmm.memmap := by
  apply PageMap.of_aligned
  exact {
    noneOverflows := by unfold NoneOverflows; decide
    sorted := List.pairwise_singleton _ _
    disjoint := List.pairwise_singleton _ _
    nonempty := by decide
    settled := by
      intro e he _
      rw [List.mem_singleton.mp he]
      exact ⟨by decide, fun _ => ⟨⟨256, rfl⟩, ⟨1024, rfl⟩⟩⟩
    inReach := fun _ _ _ => Or.inl rfl
    unmerged := .singleton _ }

theorem drain_pages_fourMiB :
    ∃ s' buf, drain ⟨16, true, true⟩ memmapKernelAndModules false ⟨[7, 8, 9], fun _ => 2⟩ fourMiB = .ok (s', buf) ∧
      s'.mem.bytes buf.addr buf.len = [7, 8, 9] ∧ typesAt s'.pmm.memmap 0x401000 = {memmapUsable} := by
  have hphys : ∀ a, Covers fourMiB.pmm.memmap memmapUsable a → a < 2 ^ 63 := by
    rintro a ⟨e, he, -, ha⟩
    rw [List.mem_singleton.mp he] at ha
    obtain ⟨-, hhi⟩ := ha
    dsimp only at hhi
    omega
  have hrun : (drain ⟨16, true, true⟩ memmapKernelAndModules false ⟨[7, 8, 9], fun _ => 2⟩ fourMiB).map
      (fun r => r.2) = .ok ⟨0x400000, 4096, 3⟩ := by
    decide +kernel
  cases hok : drain ⟨16, true, true⟩ memmapKernelAndModules false ⟨[7, 8, 9], fun _ => 2⟩ fourMiB with
  | error e =>
    rw [hok] at hrun
    cases hrun
  | ok r =>
    obtain ⟨s', buf⟩ := r
    rw [hok] at hrun
    have hbuf : buf = ⟨0x400000, 4096, 3⟩ := Except.ok.inj hrun
    obtain ⟨-, hbytes, -, -, hrest⟩ := (drain_pages ⟨16, true, true⟩ fourMiB fourMiB_pageMap hphys (by decide)
      false ⟨[7, 8, 9], fun _ => 2⟩).2 s' buf hok
    refine ⟨s', buf, rfl, hbytes, ?_⟩
    rw [hrest 0x401000]
    · ext t
      constructor
      · rintro ⟨e, he, rfl, -⟩
        rw [List.mem_singleton.mp he]
        rfl
      · rintro rfl
        exact ⟨_, List.mem_singleton.mpr rfl, rfl, by decide, by decide⟩
    · rw [hbuf]
      decide

end Limine.Uri.Drain
