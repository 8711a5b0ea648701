import Limine.Uri.Resolve
import Limine.Uri.Gzip

/-!
# Opening a URI

`uri_open` reads what a URI leads to into memory.  A hash in the URI is checked on the bytes that
are returned, or, where they are decoded first, on the copy of the compressed bytes that the decoder
then reads; the medium is not asked again.
-/

namespace Limine.Uri

open Limine.Crypt Limine.Lib Limine.Menu

/-- What the caller gets to know of where a file was. -/
structure FileInfo where
  vol : Nat
  path : Option CString
  efiPartHandle : Nat
  pxe : Bool
  pxeIp : List UInt8
  pxePort : Nat
deriving DecidableEq, Repr

/-- A file as it was opened. -/
structure RawFile where
  info : FileInfo
  content : Source
deriving DecidableEq, Repr

/-- What is returned: a file in memory. -/
structure MemFile where
  size : Nat
  data : List UInt8
  loadAddr : Nat
  info : FileInfo
deriving DecidableEq, Repr

/-- The end of `uri_open`: `NULL`, the menu after a mismatch, or a file, and whether a mismatch was
accepted on the way. -/
inductive Opened
  | null
  | toMenu
  | file (out : MemFile) (accepted : Bool)
deriving DecidableEq, Repr

/-- What `uri_open` runs on.  `uriAlloc` and `claimBelow` are asked once in each turn of the loop
that grows a buffer. -/
structure Env (σ : Type) where
  openFile : Resource → CString → CString → Exec (Option RawFile)
  medium : Medium
  decoder : Decoder σ
  secureBootActive : Bool
  hashMismatchPanic : Bool
  getchar : UInt8
  uriAlloc : Nat → Nat → Nat
  claimBelow : Nat → Nat → Nat → Bool

/-- An allocation that is being filled. -/
structure Buffer where
  addr : Nat
  cap : Nat
  data : List UInt8
deriving DecidableEq, Repr

section
variable {σ : Type} (env : Env σ)

/-- The check of a digest, and `uri_hash_mismatch`: whether a mismatch was accepted; `none` is the
menu. -/
def checkHash (digest reference : List UInt8) : Exec (Option Bool) :=
  if digest = reference then .ok (some false)
  else if env.hashMismatchPanic then .error (.panic "Blake2b hash for URI `%#` does not match!")
  else if env.getchar = 89 ∨ env.getchar = 121 then .ok (some true)
  else .ok none

/-- The filters over the raw file, and whether a mismatch was accepted; `none` is the menu. -/
def filterChain (raw : Source) (gzCompressed : Bool) (hash : Option CString) :
    Exec (Option (Handle σ × Bool × Nat)) :=
  match hash with
  | none => .ok (some (if gzCompressed then .gzip (gzipOpen env.decoder raw) else .source raw, false, 0))
  | some hash =>
    if gzCompressed then do
      let (compressed, reads) ← freadSource env.medium raw 0 raw.size 0
      if compressed.length ≠ raw.size then .error (.panic "uri: short read of compressed resource")
      else
        match ← checkHash env (blake2b compressed) (hashBytes hash) with
        | none => .ok none
        | some accepted =>
          .ok (some (.gzip (gzipOpen env.decoder (.mem compressed)), accepted, reads))
    else .ok (some (blake2bOpen raw, false, 0))

/-- The drain of a stream of known size. -/
def drainSized (fuel : Nat) (top : Handle σ) (reads : Nat) : Exec (Buffer × Handle σ × Nat) :=
  let sz := top.size
  let addr := env.uriAlloc 0 sz
  if 0 < sz then do
    let (got, top, reads) ← fread env.medium env.decoder fuel top 0 sz reads
    if got.length ≠ sz then .error (.panic "uri: short read from non-gzip stream")
    else .ok (⟨addr, sz, got⟩, top, reads)
  else .ok (⟨addr, sz, []⟩, top, reads)

/-- The growth of a buffer that is full; its bytes move with it. -/
def growBuffer (turn : Nat) (buf : Buffer) : Buffer :=
  let newCap := if buf.cap < 0x4000000 then buf.cap * 2 else buf.cap + 0x4000000
  let delta := newCap - buf.cap
  if delta ≤ buf.addr && env.claimBelow turn (buf.addr - delta) delta then
    { buf with addr := buf.addr - delta, cap := newCap }
  else { buf with addr := env.uriAlloc turn newCap, cap := newCap }

/-- The drain of a stream of unknown size. -/
def drainLoop : Nat → Nat → Buffer → Handle σ → Nat → Exec (Buffer × Handle σ × Nat)
  | 0, _, _, _, _ => .error .outOfFuel
  | fuel + 1, turn, buf, top, reads => do
    let buf := if buf.data.length = buf.cap then growBuffer env turn buf else buf
    let want := min (buf.cap - buf.data.length) 65536
    let (got, top, reads) ← fread env.medium env.decoder fuel top buf.data.length want reads
    if got.length = 0 then .ok (buf, top, reads)
    else drainLoop fuel (turn + 1) { buf with data := buf.data ++ got } top reads

/-- The drain with the release of the pages past the data, of which one is kept. -/
def drainStream (fuel : Nat) (top : Handle σ) (reads : Nat) : Exec (Buffer × Handle σ × Nat) := do
  let (buf, top, reads) ← drainLoop env fuel 1 ⟨env.uriAlloc 0 0x100000, 0x100000, []⟩ top reads
  match alignUp buf.data.length 4096 with
  | none => .error (.panic "uri: alignment overflow")
  | some kept =>
    let kept := if kept = 0 then 4096 else kept
    .ok ({ buf with cap := min kept buf.cap }, top, reads)

def drain (fuel : Nat) (top : Handle σ) (gzCompressed : Bool) (reads : Nat) :
    Exec (Buffer × Handle σ × Nat) :=
  if gzCompressed then drainStream env fuel top reads else drainSized env fuel top reads

/-- The check once every byte has gone through the filter. -/
def finalCheck (top : Handle σ) (hash : Option CString) (accepted : Bool) : Exec (Option Bool) :=
  match top, hash with
  | .blake2b _ state _, some hash => checkHash env state.final (hashBytes hash)
  | _, _ => .ok (some accepted)

/-- `uri_open` from the raw file on. -/
def readRaw (fuel : Nat) (raw : RawFile) (gzCompressed : Bool) (hash : Option CString) : Exec Opened := do
  match ← filterChain env raw.content gzCompressed hash with
  | none => .ok .toMenu
  | some (top, accepted, reads) =>
    let (buf, top, _) ← drain env fuel top gzCompressed reads
    match ← finalCheck env top hash accepted with
    | none => .ok .toMenu
    | some accepted => .ok (.file ⟨buf.data.length, buf.data, buf.addr, raw.info⟩ accepted)

/-- `uri_open`. -/
def uriOpen (fuel : Nat) (uri : CString) : Exec Opened := do
  match ← uriResolve uri with
  | none => .ok .null
  | some parts =>
    match parts.source with
    | none => .error (.panic "Resource `%s` not valid.")
    | some resource =>
      match ← env.openFile resource parts.root parts.path with
      | none => .ok .null
      | some raw =>
        if env.secureBootActive && parts.hash.isNone then
          .error (.panic "Secure Boot is active and URI `%#` has no associated hash!")
        else readRaw env fuel raw parts.gzCompressed parts.hash

end

/-! ## What the hash vouches for -/

section
variable {σ : Type} {env : Env σ}

/-- Without an accepted mismatch the digest is the one in the URI. -/
theorem eq_of_checkHash {digest reference : List UInt8}
    (h : checkHash env digest reference = .ok (some false)) : digest = reference := by
  rw [checkHash] at h
  split at h
  · assumption
  · split at h
    · cases h
    · split at h <;> cases h

variable (env) in
theorem growBuffer_eq (turn : Nat) (buf : Buffer) : ∃ addr, growBuffer env turn buf =
    ⟨addr, if buf.cap < 0x4000000 then buf.cap * 2 else buf.cap + 0x4000000, buf.data⟩ := by
  unfold growBuffer
  generalize (if buf.cap < 0x4000000 then buf.cap * 2 else buf.cap + 0x4000000) = newCap
  dsimp only
  split
  · exact ⟨_, rfl⟩
  · exact ⟨_, rfl⟩

variable (env) in
/-- A buffer that is full grows, and keeps its bytes. -/
theorem growBuffer_spec (turn : Nat) {buf : Buffer} (h : 0 < buf.cap) :
    (growBuffer env turn buf).data = buf.data ∧ buf.cap < (growBuffer env turn buf).cap := by
  obtain ⟨addr, heq⟩ := growBuffer_eq env turn buf
  rw [heq]
  refine ⟨rfl, ?_⟩
  dsimp only
  split <;> omega

/-- **The drain of a stream that is decoded from memory.**  The stream always stands where the
buffer ends. -/
theorem drainLoop_mem {input : List UInt8} (fuel : Nat) : ∀ {turn reads reads' : Nat}
    {buf buf' : Buffer} {gh : GzipHandle σ} {top : Handle σ}, gh.source = .mem input →
    gh.decPos = buf.data.length → 0 < buf.cap → buf.data.length ≤ buf.cap →
    Calls env.decoder input env.decoder.init 0 buf.data gh.gz gh.srcPos →
    drainLoop env fuel turn buf (.gzip gh) reads = .ok (buf', top, reads') →
    Decodes env.decoder input buf'.data ∧ ∃ gh', top = .gzip gh' := by
  induction fuel with
  | zero =>
    intro turn reads reads' buf buf' gh top _ _ _ _ _ h
    cases h
  | succ fuel ih =>
    intro turn reads reads' buf buf' gh top hmem hdec hcap hle hcalls h
    rw [drainLoop] at h
    set grown := if buf.data.length = buf.cap then growBuffer env turn buf else buf with hgrown
    obtain ⟨hdata, hroom⟩ : grown.data = buf.data ∧ buf.data.length < grown.cap := by
      obtain ⟨hkeep, hgrow⟩ := growBuffer_spec env turn hcap
      rw [hgrown]
      split
      · exact ⟨hkeep, by omega⟩
      · exact ⟨rfl, by omega⟩
    obtain ⟨⟨got, top₁, reads₁⟩, hread, h⟩ := except_bind_eq_ok.mp h
    rw [hdata, fread] at hread
    obtain ⟨-, -, hread⟩ := except_bind_eq_ok.mp hread
    obtain ⟨⟨got', gh₁, reads₂⟩, hgz, hret⟩ := except_bind_eq_ok.mp hread
    obtain ⟨rfl, rfl, rfl⟩ : got' = got ∧ .gzip gh₁ = top₁ ∧ reads₂ = reads₁ := by
      simpa using hret
    rw [← hdec] at hgz
    have hfill := gzipRead_mem hmem hgz
    have hlen := hfill.le
    dsimp only at h
    split at h
    · next h0 =>
      obtain ⟨rfl, rfl, -⟩ : grown = buf' ∧ .gzip gh₁ = top ∧ reads₂ = reads' := by simpa using h
      obtain ⟨n, hn, hend⟩ := hfill.ended (List.length_eq_zero_iff.mp h0) (by omega)
      rw [hdata]
      exact ⟨⟨_, _, _, _, n, hn, hcalls, hend⟩, gh₁, rfl⟩
    · have hcap' : 0 < (⟨grown.addr, grown.cap, grown.data ++ got'⟩ : Buffer).cap :=
        Nat.lt_of_le_of_lt (Nat.zero_le _) hroom
      refine ih hfill.mem ?_ hcap' ?_ ?_ h
      · rw [hfill.decPos, hdata, List.length_append, hdec]
      · rw [hdata, List.length_append]
        dsimp only
        omega
      · rw [hdata]
        exact hcalls.append hfill.calls

theorem drainStream_mem {input : List UInt8} {fuel reads reads' : Nat} {buf : Buffer}
    {top : Handle σ} (h : drainStream env fuel (.gzip (gzipOpen env.decoder (.mem input))) reads =
      .ok (buf, top, reads')) :
    Decodes env.decoder input buf.data ∧ ∃ gh, top = .gzip gh := by
  rw [drainStream] at h
  obtain ⟨⟨buf₁, top₁, reads₁⟩, hloop, h⟩ := except_bind_eq_ok.mp h
  have hspec := drainLoop_mem fuel rfl rfl (by simp) (by simp) (.nil _ _) hloop
  dsimp only at h
  split at h
  · cases h
  · obtain ⟨rfl, rfl, -⟩ := by simpa using h
    exact hspec

/-- **The drain through the hash filter**: one read, of which every byte is hashed. -/
theorem drainSized_blake2b {raw : Source} {fuel reads reads' : Nat} {buf : Buffer} {top : Handle σ}
    (h : drainSized env fuel (blake2bOpen raw) reads = .ok (buf, top, reads')) :
    ∃ pos, top = .blake2b raw (blake2bInit.update buf.data) pos := by
  rw [drainSized] at h
  dsimp only at h
  split at h
  · obtain ⟨⟨got, top₁, reads₁⟩, hread, h⟩ := except_bind_eq_ok.mp h
    rw [blake2bOpen, fread] at hread
    obtain ⟨-, -, hread⟩ := except_bind_eq_ok.mp hread
    obtain ⟨⟨got', reads₂⟩, -, hret⟩ := except_bind_eq_ok.mp hread
    obtain ⟨rfl, rfl, rfl⟩ : got' = got ∧
        .blake2b raw (blake2bInit.update got') (0 + got'.length) = top₁ ∧ reads₂ = reads₁ := by
      simpa using hret
    dsimp only at h
    split at h
    · cases h
    · obtain ⟨rfl, rfl, -⟩ := by simpa using h
      exact ⟨_, rfl⟩
  · obtain ⟨rfl, rfl, -⟩ := by simpa using h
    exact ⟨0, rfl⟩

/-- What a hash says of the bytes that are returned: they have the digest, or the decoder made them
of bytes in memory that have it. -/
def Vouched (env : Env σ) (gzCompressed : Bool) (digits : CString) (data : List UInt8) : Prop :=
  if gzCompressed then
    ∃ compressed, blake2b compressed = hashBytes digits ∧ Decodes env.decoder compressed data
  else blake2b data = hashBytes digits

theorem readRaw_gzip {fuel : Nat} {raw : RawFile} {digits : CString} {out : MemFile}
    (h : readRaw env fuel raw true (some digits) = .ok (.file out false)) :
    ∃ compressed, blake2b compressed = hashBytes digits ∧ Decodes env.decoder compressed out.data := by
  rw [readRaw] at h
  obtain ⟨filtered, hfilter, h⟩ := except_bind_eq_ok.mp h
  rw [filterChain] at hfilter
  dsimp only at hfilter
  rw [if_pos rfl] at hfilter
  obtain ⟨⟨compressed, reads⟩, -, hfilter⟩ := except_bind_eq_ok.mp hfilter
  dsimp only at hfilter
  split at hfilter
  · cases hfilter
  obtain ⟨verdict, hcheck, hfilter⟩ := except_bind_eq_ok.mp hfilter
  cases verdict with
  | none =>
    obtain rfl := Except.ok.inj hfilter
    cases h
  | some accepted =>
    obtain rfl := Except.ok.inj hfilter
    obtain ⟨⟨buf, top, reads'⟩, hdrain, h⟩ := except_bind_eq_ok.mp h
    rw [drain, if_pos rfl] at hdrain
    obtain ⟨hdec, gh, rfl⟩ := drainStream_mem hdrain
    -- The decoded bytes are not hashed: what was said of the compressed ones stands.
    obtain ⟨rfl, rfl⟩ : (⟨buf.data.length, buf.data, buf.addr, raw.info⟩ : MemFile) = out ∧
        accepted = false := by
      simpa [finalCheck, ok_bind] using h
    exact ⟨compressed, eq_of_checkHash hcheck, hdec⟩

theorem readRaw_plain {fuel : Nat} {raw : RawFile} {digits : CString} {out : MemFile}
    (h : readRaw env fuel raw false (some digits) = .ok (.file out false)) :
    blake2b out.data = hashBytes digits := by
  have hfilter : filterChain env raw.content false (some digits) =
      .ok (some (blake2bOpen raw.content, false, 0)) := rfl
  rw [readRaw, hfilter, ok_bind] at h
  obtain ⟨⟨buf, top, reads⟩, hdrain, h⟩ := except_bind_eq_ok.mp h
  rw [drain, if_neg Bool.false_ne_true] at hdrain
  obtain ⟨pos, rfl⟩ := drainSized_blake2b hdrain
  obtain ⟨verdict, hcheck, h⟩ := except_bind_eq_ok.mp h
  cases verdict with
  | none => cases h
  | some accepted =>
    obtain ⟨rfl, rfl⟩ : (⟨buf.data.length, buf.data, buf.addr, raw.info⟩ : MemFile) = out ∧
        accepted = false := by
      simpa using h
    exact eq_of_checkHash hcheck

theorem size_of_readRaw {fuel : Nat} {raw : RawFile} {gz accepted : Bool} {digits : Option CString}
    {out : MemFile} (h : readRaw env fuel raw gz digits = .ok (.file out accepted)) :
    out.size = out.data.length := by
  rw [readRaw] at h
  obtain ⟨filtered, -, h⟩ := except_bind_eq_ok.mp h
  cases filtered with
  | none => cases h
  | some chain =>
    obtain ⟨r, -, h⟩ := except_bind_eq_ok.mp h
    obtain ⟨verdict, -, h⟩ := except_bind_eq_ok.mp h
    cases verdict with
    | none => cases h
    | some _ =>
      obtain ⟨rfl, -⟩ := by simpa using h
      rfl

/-- **What a URI opens to is what its hash says**, whatever the medium answers and whatever the
decoder does: a file is only returned under Secure Boot where the URI has a hash, and where no
mismatch was accepted the hash vouches for its bytes. -/
theorem uriOpen_vouched (env : Env σ) (fuel : Nat) (uri : CString) {out : MemFile} {accepted : Bool}
    (h : uriOpen env fuel uri = .ok (.file out accepted)) :
    ∃ parts, uriResolve uri = .ok (some parts) ∧ out.size = out.data.length ∧
      (env.secureBootActive = true → parts.hash ≠ none) ∧
      (accepted = false → ∀ digits, parts.hash = some digits →
        Vouched env parts.gzCompressed digits out.data) := by
  rw [uriOpen] at h
  obtain ⟨resolved, hresolve, h⟩ := except_bind_eq_ok.mp h
  cases resolved with
  | none => cases h
  | some parts =>
    dsimp only at h
    cases hsource : parts.source with
    | none =>
      rw [hsource] at h
      cases h
    | some resource =>
      rw [hsource] at h
      obtain ⟨opened, -, h⟩ := except_bind_eq_ok.mp h
      cases opened with
      | none => cases h
      | some raw =>
        dsimp only at h
        split at h
        · cases h
        · next hsecure =>
          refine ⟨parts, hresolve, size_of_readRaw h, ?_, ?_⟩
          · intro hactive hnone
            exact hsecure (by simp [hactive, hnone])
          · rintro rfl digits hdigits
            rw [hdigits] at h
            cases hgz : parts.gzCompressed with
            | false =>
              rw [hgz] at h
              exact readRaw_plain h
            | true =>
              rw [hgz] at h
              exact readRaw_gzip h

/-- A medium that says `abc` when it is first asked, and zeros from then on. -/
def fickle : Medium where
  read reads loc count := (if reads = 0 then ([97, 98, 99].drop loc).take count else List.replicate count 0)
  short := by
    intro reads loc count
    split
    · rw [List.length_take]
      exact Nat.min_le_left _ _
    · simp

/-- A decoder that passes on what it reads, 2 bytes at a time. -/
def storing : Decoder (Option (List UInt8)) where
  init := none
  next state count :=
    match state with
    | none => .ask 2 fun got => some got
    | some got => .give (got.take count) none
  fits := by
    intro state count data state' h
    cases state with
    | none => cases h
    | some got =>
      cases h
      rw [List.length_take]
      exact Nat.min_le_left _ _

def fickleEnv : Env (Option (List UInt8)) where
  openFile _ _ _ := .ok (some ⟨⟨0, none, 0, false, [], 0⟩, .file 3⟩)
  medium := fickle
  decoder := storing
  secureBootActive := true
  hashMismatchPanic := true
  getchar := 0
  uriAlloc _ _ := 0x100000
  claimBelow _ _ _ := false

/-- The digest of `abc`. -/
def abcDigits : CString :=
  word ("ba80a53f981c4d0d6a2797b69f12f6e94c212f14685ac4b74b12bb6fdbffa2d1" ++
    "7d87c5392aab792dc252d5de4533cc9518d38aa8dbf1925ab92386edd4009923")

theorem abcDigits_eq : abcDigits =
    [98, 97, 56, 48, 97, 53, 51, 102, 57, 56, 49, 99, 52, 100, 48, 100, 54, 97, 50, 55, 57, 55, 98, 54, 57, 102, 49, 50,
      102, 54, 101, 57, 52, 99, 50, 49, 50, 102, 49, 52, 54, 56, 53, 97, 99, 52, 98, 55, 52, 98, 49, 50, 98, 98, 54, 102,
      100, 98, 102, 102, 97, 50, 100, 49, 55, 100, 56, 55, 99, 53, 51, 57, 50, 97, 97, 98, 55, 57, 50, 100, 99, 50, 53,
      50, 100, 53, 100, 101, 52, 53, 51, 51, 99, 99, 57, 53, 49, 56, 100, 51, 56, 97, 97, 56, 100, 98, 102, 49, 57, 50,
      53, 97, 98, 57, 50, 51, 56, 54, 101, 100, 100, 52, 48, 48, 57, 57, 50, 51] := by
  have hword : abcDigits = _ := (word_append _ _).trans (congrArg₂ (· ++ ·) (word_eq rfl) (word_eq rfl))
  rw [hword]
  decide

/-- The file is read once, and the decoder gets what was hashed. -/
theorem uriOpen_abc : uriOpen fickleEnv 8 (word "$boot():/abc#" ++ abcDigits) =
      .ok (.file ⟨3, [97, 98, 99], 0x100000, ⟨0, none, 0, false, [], 0⟩⟩ false) ∧
    Vouched fickleEnv true abcDigits [97, 98, 99] := by
  have hrun : uriOpen fickleEnv 8 (word "$boot():/abc#" ++ abcDigits) =
      .ok (.file ⟨3, [97, 98, 99], 0x100000, ⟨0, none, 0, false, [], 0⟩⟩ false) := by
    rw [abcDigits_eq, word_eq rfl]
    decide +kernel
  have hparts : uriResolve (word "$boot():/abc#" ++ abcDigits) =
      .ok (some ⟨word "$boot", [], word "abc", some abcDigits⟩) := by
    rw [abcDigits_eq, word_eq rfl, word_eq rfl, word_eq rfl]
    decide +kernel
  obtain ⟨parts, hresolve, -, -, hvouched⟩ := uriOpen_vouched fickleEnv 8 _ hrun
  obtain rfl := Option.some.inj (Except.ok.inj (hparts.symm.trans hresolve))
  exact ⟨hrun, hvouched rfl abcDigits rfl⟩

end

end Limine.Uri
