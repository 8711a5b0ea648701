import Limine.Lib.ByteMemory
import Limine.Lib.Traced

/-!
# `tpm_calc_event_size`

The size of an event of the firmware's log, from its bytes and from the specification-ID event that
the log begins with.  Failing is `return 0`; the trace is the ranges of memory that are read.
-/

namespace Limine.Tpm

open Lib

/-- An address and a number of bytes. -/
abbrev Run := Traced (Nat × Nat) Unit

def read (mem : ByteMemory) (addr n : Nat) : Run Nat := Traced.access (addr, n) (.ok (leAt mem addr n))

/-- The bytes that `memcmp` looks at. -/
def readBytes (mem : ByteMemory) (addr n : Nat) : Run (List UInt8) :=
  Traced.access (addr, n) (.ok (mem.bytes addr n))

/-- `if (!cond) return 0;` -/
def unlessZero (cond : Prop) [Decidable cond] : Run Unit := if cond then pure () else Traced.fail ()

def TCG_EV_NO_ACTION : Nat := 3

/-- `Spec ID Event03` and its terminator. -/
def TCG_SPECID_SIG : List UInt8 :=
  [83, 112, 101, 99, 32, 73, 68, 32, 69, 118, 101, 110, 116, 48, 51, 0]

def TPM2_MAX_ALGS : Nat := 16

/-- Where the fields stand that are read, in `struct tpm_pcr_event_v1_2`. -/
def offEventType : Nat := 4
def offDigest : Nat := 8
def offEvent : Nat := 32

/-- In `struct tpm_specid_event_head`. -/
def offNumAlgs : Nat := 24
def offDigestSizes : Nat := 28

/-- In `struct tpm_pcr_event2_head`. -/
def offCount : Nat := 8
def sizeofEvent2Head : Nat := 12

/-- The search through `digest_sizes` for `halg`, with `n` of them left from number `j` on: the
digest size. -/
def findAlg (mem : ByteMemory) (digestSizes halg : Nat) : Nat → Nat → Run (Option Nat)
  | 0, _ => pure none
  | n + 1, j => do
    let algId ← read mem (digestSizes + 4 * j) 2
    if halg = algId then do
      let digestSize ← read mem (digestSizes + 4 * j + 2) 2
      return some digestSize
    else findAlg mem digestSizes halg n (j + 1)

/-- The loop over the digests, with `n` of them left. -/
def skipDigests (mem : ByteMemory) (digestSizes numAlgs limit : Nat) : Nat → Nat → Run Nat
  | 0, marker => pure marker
  | n + 1, marker => do
    unlessZero (2 ≤ limit - marker)
    let halg ← read mem marker 2
    match ← findAlg mem digestSizes halg numAlgs 0 with
    | none => Traced.fail ()
    | some digestSize => do
      unlessZero (digestSize ≤ limit - (marker + 2))
      skipDigests mem digestSizes numAlgs limit n (marker + 2 + digestSize)

/-- The checks of the first event: `num_algs`. -/
def specIdNumAlgs (mem : ByteMemory) (header : Nat) : Run Nat := do
  let pcrIdx ← read mem header 4
  unlessZero (pcrIdx = 0)
  let eventType ← read mem (header + offEventType) 4
  unlessZero (eventType = TCG_EV_NO_ACTION)
  let digest ← readBytes mem (header + offDigest) 20
  unlessZero (digest = List.replicate 20 0)
  let signature ← readBytes mem (header + offEvent) 16
  unlessZero (signature = TCG_SPECID_SIG)
  let numAlgs ← read mem (header + offEvent + offNumAlgs) 4
  unlessZero (numAlgs ≠ 0 ∧ numAlgs ≤ TPM2_MAX_ALGS)
  return numAlgs

/-- `tpm_calc_event_size` -/
def tpmCalcEventSize (mem : ByteMemory) (event header limit : Nat) : Run Nat := do
  let numAlgs ← specIdNumAlgs mem header
  unlessZero (event + sizeofEvent2Head ≤ limit)
  let count ← read mem (event + offCount) 4
  unlessZero (count ≤ numAlgs)
  let marker ← skipDigests mem (header + offEvent + offDigestSizes) numAlgs limit count
    (event + sizeofEvent2Head)
  unlessZero (4 ≤ limit - marker)
  let trailing ← read mem marker 4
  unlessZero (trailing ≤ limit - (marker + 4))
  let eventType ← read mem (event + offEventType) 4
  unlessZero (¬ (eventType = 0 ∧ trailing = 0))
  return (marker + 4 + trailing - event) % 2 ^ 32

/-- What the function returns. -/
def returned (run : Run Nat) : Nat :=
  match run.result with
  | .ok n => n
  | .error _ => 0

/-!
## The events that `tpm_calc_event_size` measures

A `TCG_PCR_EVENT2` as the bytes it consists of, and which of them the code accepts.  `digestsEnd` and
`eventEnd` say where an event ends whatever its bytes are; the code fails where that is past the limit
(`skipDigests_result`), and the bytes up to there are those of an event (`digestsEnd_eq_some_iff`).
-/

/-! ## The format -/

structure Event2 where
  pcrIndex : UInt32
  eventType : UInt32
  /-- of an algorithm each -/
  digests : List (UInt16 × List UInt8)
  event : List UInt8
  event_lt : event.length < 2 ^ 32

def encodeDigests (digests : List (UInt16 × List UInt8)) : List UInt8 :=
  digests.flatMap fun digest => leBytes 2 digest.1.toNat ++ digest.2

def Event2.encode (e : Event2) : List UInt8 :=
  leBytes 4 e.pcrIndex.toNat ++ (leBytes 4 e.eventType.toNat ++ (leBytes 4 e.digests.length ++
    (encodeDigests e.digests ++ (leBytes 4 e.event.length ++ e.event))))

/-- A table of algorithms with their digest sizes. -/
abbrev Algs := List (Nat × Nat)

/-- At most as many digests as there are algorithms, each of a listed algorithm with its size, and not
an empty event of type 0. -/
structure Event2.Fits (e : Event2) (algs : Algs) : Prop where
  count : e.digests.length ≤ algs.length
  listed : ∀ digest ∈ e.digests, (digest.1.toNat, digest.2.length) ∈ algs
  not_empty : ¬ (e.eventType = 0 ∧ e.event = [])

/-- The first event of the log, as the code accepts it. -/
structure SpecId (mem : ByteMemory) (header : Nat) : Prop where
  pcrIndex : leAt mem header 4 = 0
  eventType : leAt mem (header + 4) 4 = TCG_EV_NO_ACTION
  digest : mem.bytes (header + 8) 20 = List.replicate 20 0
  signature : mem.bytes (header + 32) 16 = TCG_SPECID_SIG
  numAlgs : leAt mem (header + 56) 4 ≠ 0 ∧ leAt mem (header + 56) 4 ≤ TPM2_MAX_ALGS

/-- `digest_sizes[j]` -/
def algAt (mem : ByteMemory) (digestSizes j : Nat) : Nat × Nat :=
  (leAt mem (digestSizes + 4 * j) 2, leAt mem (digestSizes + 4 * j + 2) 2)

/-- The algorithms that the first event lists. -/
def algsOf (mem : ByteMemory) (header : Nat) : Algs :=
  (List.range (leAt mem (header + 56) 4)).map (algAt mem (header + 60))

def Distinct (algs : Algs) : Prop := (algs.map Prod.fst).Nodup

/-! ## Where an event ends -/

/-- The size the table has for an algorithm. -/
def digestSizeOf (algs : Algs) (alg : Nat) : Option Nat := (algs.find? fun a => alg = a.1).map Prod.snd

def digestsEnd (mem : ByteMemory) (algs : Algs) : Nat → Nat → Option Nat
  | 0, marker => some marker
  | n + 1, marker => (digestSizeOf algs (leAt mem marker 2)).bind fun size =>
      digestsEnd mem algs n (marker + 2 + size)

theorem digestsEnd_le {mem : ByteMemory} {algs : Algs} {n marker stop : Nat}
    (h : digestsEnd mem algs n marker = some stop) : marker ≤ stop := by
  induction n generalizing marker with
  | zero =>
    cases h
    exact Nat.le_refl _
  | succ n ih =>
    obtain ⟨size, -, hrest⟩ := Option.bind_eq_some_iff.mp h
    have := ih hrest
    omega

theorem encodeDigests_cons (digest : UInt16 × List UInt8) (digests : List (UInt16 × List UInt8)) :
    encodeDigests (digest :: digests) =
      leBytes 2 digest.1.toNat ++ (digest.2 ++ encodeDigests digests) := by
  unfold encodeDigests
  rw [List.flatMap_cons, List.append_assoc]

theorem digestSizeOf_eq_some_iff {algs : Algs} (hdistinct : Distinct algs) {alg size : Nat} :
    digestSizeOf algs alg = some size ↔ (alg, size) ∈ algs := by
  induction algs with
  | nil => simp [digestSizeOf]
  | cons a algs ih =>
    obtain ⟨hnot, hrest⟩ := List.nodup_cons.mp hdistinct
    have ih := ih hrest
    unfold digestSizeOf at ih ⊢
    rw [List.find?_cons, List.mem_cons]
    by_cases ha : alg = a.1
    · obtain ⟨alg', size'⟩ := a
      dsimp only at ha hnot
      subst ha
      have hne : (alg, size) ∉ algs := fun hmem => hnot (List.mem_map_of_mem hmem)
      simp [hne, eq_comm]
    · have hne : (alg, size) ≠ a := by
        rintro rfl
        exact ha rfl
      simp only [ha, decide_false, hne, false_or]
      exact ih

theorem digestsEnd_eq_some_iff {mem : ByteMemory} {algs : Algs} (hdistinct : Distinct algs)
    {n marker stop : Nat} : digestsEnd mem algs n marker = some stop ↔
      ∃ digests : List (UInt16 × List UInt8), digests.length = n ∧
        (∀ digest ∈ digests, (digest.1.toNat, digest.2.length) ∈ algs) ∧
        stop = marker + (encodeDigests digests).length ∧
        mem.bytes marker (encodeDigests digests).length = encodeDigests digests := by
  induction n generalizing marker with
  | zero =>
    constructor
    · intro h
      cases h
      exact ⟨[], rfl, by simp, rfl, rfl⟩
    · rintro ⟨digests, hlen, -, rfl, -⟩
      rw [List.length_eq_zero_iff.mp hlen]
      rfl
  | succ n ih =>
    unfold digestsEnd
    rw [Option.bind_eq_some_iff]
    constructor
    · rintro ⟨size, hsize, hrest⟩
      obtain ⟨digests, rfl, hlisted, rfl, hbytes⟩ := ih.mp hrest
      have halg : leAt mem marker 2 < 2 ^ 16 := leAt_lt mem marker 2
      have htoNat : (UInt16.ofNat (leAt mem marker 2)).toNat = leAt mem marker 2 :=
        UInt16.toNat_ofNat_of_lt' halg
      refine ⟨(UInt16.ofNat (leAt mem marker 2), mem.bytes (marker + 2) size) :: digests, rfl, ?_, ?_, ?_⟩
      · intro digest hdigest
        rcases List.mem_cons.mp hdigest with rfl | hdigest
        · rw [htoNat, ByteMemory.length_bytes]
          exact (digestSizeOf_eq_some_iff hdistinct).mp hsize
        · exact hlisted digest hdigest
      · rw [encodeDigests_cons]
        simp
        omega
      · rw [encodeDigests_cons, ByteMemory.bytes_eq_append_iff, htoNat,
          ByteMemory.bytes_eq_append_iff, length_leBytes, ByteMemory.length_bytes]
        refine ⟨by simp, ?_, by simp, rfl, hbytes⟩
        exact (ByteMemory.bytes_eq_leBytes_iff mem (leAt_lt mem marker 2)).mpr rfl
    · rintro ⟨digests, hlen, hlisted, rfl, hbytes⟩
      cases digests with
      | nil => cases hlen
      | cons digest digests =>
        obtain ⟨hhead, hrest⟩ := List.forall_mem_cons.mp hlisted
        rw [encodeDigests_cons, ByteMemory.bytes_eq_append_iff, length_leBytes,
          ByteMemory.bytes_eq_append_iff] at hbytes
        obtain ⟨-, halg, -, -, hbytes⟩ := hbytes
        have halg := (ByteMemory.bytes_eq_leBytes_iff mem (x := digest.1.toNat) digest.1.toNat_lt).mp halg
        refine ⟨digest.2.length, ?_, ih.mpr ⟨digests, Nat.succ.inj hlen, hrest, ?_, hbytes⟩⟩
        · rw [halg]
          exact (digestSizeOf_eq_some_iff hdistinct).mpr hhead
        · rw [encodeDigests_cons]
          simp
          omega

/-! ## The whole event -/

/-- What the bytes at `event` say, up to `stop`. -/
structure EndsAt (mem : ByteMemory) (algs : Algs) (event stop : Nat) : Prop where
  count : leAt mem (event + 8) 4 ≤ algs.length
  stop : ∃ marker, digestsEnd mem algs (leAt mem (event + 8) 4) (event + 12) = some marker ∧
    stop = marker + 4 + leAt mem marker 4 ∧
    ¬ (leAt mem (event + 4) 4 = 0 ∧ leAt mem marker 4 = 0)

theorem endsAt_iff {mem : ByteMemory} {algs : Algs} (hdistinct : Distinct algs)
    (hcount : algs.length < 2 ^ 32) {event n : Nat} :
    EndsAt mem algs event (event + n) ↔ ∃ e : Event2, mem.bytes event n = e.encode ∧ e.Fits algs := by
  constructor
  · rintro ⟨hle, marker, hdigests, hstop, hnot⟩
    obtain ⟨digests, hlen, hlisted, rfl, hbytes⟩ := (digestsEnd_eq_some_iff hdistinct).mp hdigests
    have hword : ∀ addr, leAt mem addr 4 < 2 ^ 32 := fun addr => leAt_lt mem addr 4
    have htoNat : ∀ addr, (UInt32.ofNat (leAt mem addr 4)).toNat = leAt mem addr 4 := fun addr =>
      UInt32.toNat_ofNat_of_lt' (hword addr)
    have hspells : ∀ addr, mem.bytes addr 4 = leBytes 4 (leAt mem addr 4) := fun addr =>
      (ByteMemory.bytes_eq_leBytes_iff mem (hword addr)).mpr rfl
    have hlast := hword (event + 12 + (encodeDigests digests).length)
    refine ⟨{
      pcrIndex := UInt32.ofNat (leAt mem event 4)
      eventType := UInt32.ofNat (leAt mem (event + 4) 4)
      digests := digests
      event := mem.bytes (event + 12 + (encodeDigests digests).length + 4)
        (leAt mem (event + 12 + (encodeDigests digests).length) 4)
      event_lt := by rw [ByteMemory.length_bytes]; exact hlast }, ?_, ?_, hlisted, ?_⟩
    · simp only [Event2.encode, ByteMemory.bytes_eq_append_iff, length_leBytes, htoNat,
        ByteMemory.length_bytes, List.length_append, hlen]
      exact ⟨by omega, hspells _, trivial, hspells _, trivial, hspells _, trivial, hbytes, trivial,
        hspells _, trivial⟩
    · rw [hlen]
      exact hle
    · rintro ⟨htype, hempty⟩
      have htype := congrArg UInt32.toNat htype
      have hempty := congrArg List.length hempty
      rw [htoNat] at htype
      rw [ByteMemory.length_bytes] at hempty
      exact hnot ⟨htype, hempty⟩
  · rintro ⟨e, hbytes, hfits⟩
    have hlen : e.digests.length < 2 ^ 32 := Nat.lt_of_le_of_lt hfits.count hcount
    simp only [Event2.encode, ByteMemory.bytes_eq_append_iff, length_leBytes] at hbytes
    obtain ⟨hn, -, -, htype, -, hlength, -, hdigests, -, htrailing, -⟩ := hbytes
    have htype := (ByteMemory.bytes_eq_leBytes_iff mem (x := e.eventType.toNat) e.eventType.toNat_lt).mp htype
    have hlength := (ByteMemory.bytes_eq_leBytes_iff mem (n := 4) hlen).mp hlength
    have htrailing := (ByteMemory.bytes_eq_leBytes_iff mem (n := 4) e.event_lt).mp htrailing
    refine ⟨by rw [hlength]; exact hfits.count, event + 12 + (encodeDigests e.digests).length, ?_, ?_, ?_⟩
    · rw [hlength]
      exact (digestsEnd_eq_some_iff hdistinct).mpr ⟨e.digests, rfl, hfits.listed, rfl, hdigests⟩
    · show _ = event + 4 + 4 + 4 + (encodeDigests e.digests).length + 4 +
        leAt mem (event + 4 + 4 + 4 + (encodeDigests e.digests).length) 4
      rw [htrailing]
      simp only [List.length_append, length_leBytes] at hn
      omega
    · rintro ⟨hzero, hnone⟩
      have hnone : e.event.length = 0 := htrailing.symm.trans hnone
      exact hfits.not_empty ⟨UInt32.toNat_inj.mp (htype.symm.trans hzero), List.length_eq_zero_iff.mp hnone⟩

end Limine.Tpm
