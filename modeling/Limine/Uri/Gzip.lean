import Limine.Machine
import Limine.Crypt.Blake2b
import Limine.Lib.Triple
import Limine.Menu.Entry

/-!
# File handles and what filters them

What a URI leads to is a file on a medium, which may answer every read as it likes, or bytes in
memory.  `blake2b_open` hashes what is read through it, and `gzip_open` decodes it; the decoder
gets its input from `gz_source_read` only.
-/

namespace Limine.Uri

open Limine.Crypt Limine.Lib Limine.Menu

/-- Where bytes come from: memory, or a file of this size on the medium. -/
inductive Source
  | mem (data : List UInt8)
  | file (size : Nat)
deriving DecidableEq, Repr

def Source.size : Source → Nat
  | mem data => data.length
  | file size => size

/-- What the medium answers to the reads of the file, of which it is told the number, the place and
the length. -/
structure Medium where
  read : Nat → Nat → Nat → List UInt8
  short : ∀ reads loc count, (read reads loc count).length ≤ count

/-- What `pdgzip_read` does next. -/
inductive Move (σ : Type)
  | ask (len : Nat) (resume : List UInt8 → σ)
  | give (data : List UInt8) (state : σ)
  | failed

/-- The decoder: `next state count` is its next move in a `pdgzip_read` of `count` bytes. -/
structure Decoder (σ : Type) where
  init : σ
  next : σ → Nat → Move σ
  fits : ∀ state count data state', next state count = .give data state' → data.length ≤ count

structure GzipHandle (σ : Type) where
  source : Source
  gz : σ
  srcPos : Nat
  decPos : Nat

/-- A `struct file_handle`, by what its `read` is. -/
inductive Handle (σ : Type)
  | source (source : Source)
  | blake2b (source : Source) (state : Blake2bState) (pos : Nat)
  | gzip (gh : GzipHandle σ)

/-- `size`; of a decoded stream it is unknown. -/
def Handle.size {σ : Type} : Handle σ → Nat
  | source s => s.size
  | blake2b s _ _ => s.size
  | gzip _ => 2 ^ 64 - 1

/-- The check of `fread`. -/
def boundsCheck (size loc count : Nat) : Exec Unit :=
  if size < loc ∨ size - loc < count then .error (.panic "fread: attempted out of bounds read")
  else .ok ()

section
variable {σ : Type} (medium : Medium) (decoder : Decoder σ)

/-- `fread` of a source, after `reads` reads of the medium. -/
def freadSource (source : Source) (loc count reads : Nat) : Exec (List UInt8 × Nat) := do
  boundsCheck source.size loc count
  match source with
  | .mem data => .ok ((data.drop loc).take count, reads)
  | .file _ => .ok (medium.read reads loc count, reads + 1)

/-- `blake2b_open`. -/
def blake2bOpen (source : Source) : Handle σ := .blake2b source blake2bInit 0

/-- `gz_source_read`. -/
def gzSourceRead (gh : GzipHandle σ) (len reads : Nat) :
    Exec (List UInt8 × GzipHandle σ × Nat) :=
  let len := min len (gh.source.size - gh.srcPos)
  if len = 0 then .ok ([], gh, reads)
  else do
    let (got, reads) ← freadSource medium gh.source gh.srcPos len reads
    .ok (got, { gh with srcPos := gh.srcPos + got.length }, reads)

/-- `gz_reset`. -/
def gzReset (gh : GzipHandle σ) : GzipHandle σ :=
  { gh with gz := decoder.init, srcPos := 0, decPos := 0 }

/-- `gzip_open`. -/
def gzipOpen (source : Source) : GzipHandle σ := ⟨source, decoder.init, 0, 0⟩

/-- `pdgzip_read`; `none` is a negative result. -/
def pdgzipRead (count : Nat) : Nat → GzipHandle σ → Nat →
    Exec (Option (List UInt8) × GzipHandle σ × Nat)
  | 0, _, _ => .error .outOfFuel
  | fuel + 1, gh, reads =>
    match decoder.next gh.gz count with
    | .failed => .ok (none, gh, reads)
    | .give data state => .ok (some data, { gh with gz := state }, reads)
    | .ask len resume => do
      let (got, gh, reads) ← gzSourceRead medium gh len reads
      pdgzipRead count fuel { gh with gz := resume got } reads

/-- The loop of `gzip_read` that skips up to `loc`; `false` at the end of the stream. -/
def gzipSkip (loc : Nat) : Nat → GzipHandle σ → Nat → Exec (Bool × GzipHandle σ × Nat)
  | 0, _, _ => .error .outOfFuel
  | fuel + 1, gh, reads =>
    if loc ≤ gh.decPos then .ok (true, gh, reads)
    else do
      let (n, gh, reads) ← pdgzipRead medium decoder (min (loc - gh.decPos) 4096) fuel gh reads
      match n with
      | none => .error (.panic "gzip: decompression error during seek")
      | some data =>
        if data = [] then .ok (false, gh, reads)
        else gzipSkip loc fuel { gh with decPos := gh.decPos + data.length } reads

/-- The loop of `gzip_read` for the data, of which `dst` is there. -/
def gzipFill : Nat → GzipHandle σ → Nat → List UInt8 → Nat →
    Exec (List UInt8 × GzipHandle σ × Nat)
  | 0, _, _, _, _ => .error .outOfFuel
  | fuel + 1, gh, remaining, dst, reads =>
    if remaining = 0 then .ok (dst, gh, reads)
    else do
      let (n, gh, reads) ← pdgzipRead medium decoder (min remaining 65536) fuel gh reads
      match n with
      | none => .error (.panic "gzip: decompression error")
      | some data =>
        if data = [] then .ok (dst, gh, reads)
        else
          gzipFill fuel { gh with decPos := gh.decPos + data.length } (remaining - data.length)
            (dst ++ data) reads

/-- `gzip_read`. -/
def gzipRead (fuel : Nat) (gh : GzipHandle σ) (loc count reads : Nat) :
    Exec (List UInt8 × GzipHandle σ × Nat) := do
  let (reached, gh, reads) ←
    gzipSkip medium decoder loc fuel (if loc < gh.decPos then gzReset decoder gh else gh) reads
  if reached then gzipFill medium decoder fuel gh count [] reads else .ok ([], gh, reads)

/-- `fread`. -/
def fread (fuel : Nat) (handle : Handle σ) (loc count reads : Nat) :
    Exec (List UInt8 × Handle σ × Nat) := do
  boundsCheck handle.size loc count
  match handle with
  | .source source =>
    let (got, reads) ← freadSource medium source loc count reads
    .ok (got, .source source, reads)
  | .blake2b source state pos =>
    if loc ≠ pos then .error (.panic "blake2b filter: non-sequential read")
    else
      let (got, reads) ← freadSource medium source loc count reads
      .ok (got, .blake2b source (state.update got) (pos + got.length), reads)
  | .gzip gh =>
    let (got, gh, reads) ← gzipRead medium decoder fuel gh loc count reads
    .ok (got, .gzip gh, reads)

end

/-! ## Decoding what is in memory -/

section
variable {σ : Type} (decoder : Decoder σ) (input : List UInt8)

/-- A `pdgzip_read` of `count` bytes whose input is `input` from `pos` on: what it delivers, and
the state and the place it leaves. -/
inductive Call (count : Nat) : σ → Nat → List UInt8 → σ → Nat → Prop
  | give {s s' : σ} {pos : Nat} {data : List UInt8} (h : decoder.next s count = .give data s') :
      Call count s pos data s' pos
  | ask {s s' : σ} {pos pos' len : Nat} {data : List UInt8} {resume : List UInt8 → σ}
      (h : decoder.next s count = .ask len resume)
      (rest : Call count (resume ((input.drop pos).take len))
        (pos + ((input.drop pos).take len).length) data s' pos') : Call count s pos data s' pos'

/-- One such read after the other, of any sizes. -/
inductive Calls : σ → Nat → List UInt8 → σ → Nat → Prop
  | nil (s : σ) (pos : Nat) : Calls s pos [] s pos
  | cons {count : Nat} {s s₁ s' : σ} {pos pos₁ pos' : Nat} {data out : List UInt8}
      (call : Call decoder input count s pos data s₁ pos₁) (rest : Calls s₁ pos₁ out s' pos') :
      Calls s pos (data ++ out) s' pos'

/-- What the decoder makes of `input`: the reads deliver `out`, and one more delivers nothing. -/
def Decodes (out : List UInt8) : Prop :=
  ∃ s pos s' pos' count, 0 < count ∧ Calls decoder input decoder.init 0 out s pos ∧
    Call decoder input count s pos [] s' pos'

end

section
variable {σ : Type} {decoder : Decoder σ} {input : List UInt8}

theorem Call.length_le {count : Nat} {s s' : σ} {pos pos' : Nat} {data : List UInt8}
    (h : Call decoder input count s pos data s' pos') : data.length ≤ count := by
  induction h with
  | give h => exact decoder.fits _ _ _ _ h
  | ask _ _ ih => exact ih

theorem Calls.append {s s₁ s' : σ} {pos pos₁ pos' : Nat} {data out : List UInt8}
    (h : Calls decoder input s pos data s₁ pos₁) (h' : Calls decoder input s₁ pos₁ out s' pos') :
    Calls decoder input s pos (data ++ out) s' pos' := by
  induction h with
  | nil => exact h'
  | cons call _ ih =>
    rw [List.append_assoc]
    exact .cons call (ih h')

theorem Call.calls {count : Nat} {s s' : σ} {pos pos' : Nat} {data : List UInt8}
    (h : Call decoder input count s pos data s' pos') : Calls decoder input s pos data s' pos' := by
  have h' := Calls.cons h (Calls.nil s' pos')
  rwa [List.append_nil] at h'

theorem freadSource_mem {medium : Medium} {loc count reads : Nat} {r : List UInt8 × Nat}
    (h : freadSource medium (.mem input) loc count reads = .ok r) :
    r = ((input.drop loc).take count, reads) := by
  rw [freadSource, except_bind_eq_ok] at h
  obtain ⟨-, -, h⟩ := h
  exact (Except.ok.inj h).symm

theorem gzSourceRead_mem {medium : Medium} {gh : GzipHandle σ} (hmem : gh.source = .mem input)
    {len reads : Nat} {r : List UInt8 × GzipHandle σ × Nat}
    (h : gzSourceRead medium gh len reads = .ok r) :
    r = ((input.drop gh.srcPos).take len,
      { gh with srcPos := gh.srcPos + ((input.drop gh.srcPos).take len).length }, reads) := by
  have htake : (input.drop gh.srcPos).take (min len (input.length - gh.srcPos)) =
      (input.drop gh.srcPos).take len := by
    rw [← List.length_drop, ← List.take_take, List.take_length]
  obtain ⟨source, gz, srcPos, decPos⟩ := gh
  obtain rfl : source = .mem input := hmem
  rw [← htake]
  unfold gzSourceRead at h
  by_cases h0 : min len (input.length - srcPos) = 0
  · rw [if_pos (by exact h0)] at h
    obtain rfl := Except.ok.inj h
    rw [h0]
    rfl
  · rw [if_neg (by exact h0), except_bind_eq_ok] at h
    obtain ⟨got, hread, h⟩ := h
    obtain rfl := freadSource_mem hread
    exact (Except.ok.inj h).symm

/-- **The decoder reads the copy and nothing else.** -/
theorem pdgzipRead_mem {medium : Medium} {count : Nat} (fuel : Nat) :
    ∀ {gh gh' : GzipHandle σ} {reads reads' : Nat} {data : List UInt8}, gh.source = .mem input →
    pdgzipRead medium decoder count fuel gh reads = .ok (some data, gh', reads') →
    Call decoder input count gh.gz gh.srcPos data gh'.gz gh'.srcPos ∧ gh'.source = .mem input ∧
      gh'.decPos = gh.decPos := by
  induction fuel with
  | zero =>
    intro gh gh' reads reads' data _ h
    cases h
  | succ fuel ih =>
    intro gh gh' reads reads' data hmem h
    rw [pdgzipRead] at h
    cases hnext : decoder.next gh.gz count with
    | failed =>
      rw [hnext] at h
      cases h
    | give data₁ s =>
      rw [hnext] at h
      obtain ⟨rfl, rfl, -⟩ : data₁ = data ∧ { gh with gz := s } = gh' ∧ reads = reads' := by
        simpa using h
      exact ⟨.give hnext, hmem, rfl⟩
    | ask len resume =>
      rw [hnext] at h
      dsimp only at h
      obtain ⟨r, hread, h⟩ := except_bind_eq_ok.mp h
      obtain rfl := gzSourceRead_mem hmem hread
      obtain ⟨hcall, hmem', hdec⟩ := ih (by exact hmem) h
      exact ⟨.ask hnext hcall, hmem', hdec⟩

/-- What a read of the decoded stream leaves: the reads of the decoder went on, and where nothing
was delivered, one of them said so. -/
structure Filled (decoder : Decoder σ) (input : List UInt8) (gh gh' : GzipHandle σ) (count : Nat)
    (got : List UInt8) : Prop where
  mem : gh'.source = .mem input
  decPos : gh'.decPos = gh.decPos + got.length
  le : got.length ≤ count
  calls : Calls decoder input gh.gz gh.srcPos got gh'.gz gh'.srcPos
  ended : got = [] → 0 < count → ∃ n, 0 < n ∧
    Call decoder input n gh.gz gh.srcPos [] gh'.gz gh'.srcPos

theorem gzipFill_mem {medium : Medium} (fuel : Nat) : ∀ {gh gh' : GzipHandle σ}
    {remaining reads reads' : Nat} {dst out : List UInt8}, gh.source = .mem input →
    gzipFill medium decoder fuel gh remaining dst reads = .ok (out, gh', reads') →
    ∃ got, out = dst ++ got ∧ Filled decoder input gh gh' remaining got := by
  induction fuel with
  | zero =>
    intro gh gh' remaining reads reads' dst out _ h
    cases h
  | succ fuel ih =>
    intro gh gh' remaining reads reads' dst out hmem h
    rw [gzipFill] at h
    split at h
    · next h0 =>
      obtain ⟨rfl, rfl, -⟩ : dst = out ∧ gh = gh' ∧ reads = reads' := by simpa using h
      refine ⟨[], by simp, hmem, rfl, Nat.zero_le _, .nil _ _, ?_⟩
      omega
    · next h0 =>
      obtain ⟨⟨n, gh₁, reads₁⟩, hread, h⟩ := except_bind_eq_ok.mp h
      cases n with
      | none => cases h
      | some data =>
        obtain ⟨hcall, hmem₁, hdec₁⟩ := pdgzipRead_mem fuel hmem hread
        have hle := hcall.length_le
        dsimp only at h
        split at h
        · next hd =>
          subst hd
          obtain ⟨rfl, rfl, -⟩ : dst = out ∧ gh₁ = gh' ∧ reads₁ = reads' := by simpa using h
          exact ⟨[], by simp, hmem₁, by simpa using hdec₁, Nat.zero_le _, hcall.calls,
            fun _ _ => ⟨_, by omega, hcall⟩⟩
        · next hd =>
          obtain ⟨got, rfl, hfill⟩ := ih (by exact hmem₁) h
          refine ⟨data ++ got, by simp, hfill.mem, ?_, ?_, .cons hcall hfill.calls, ?_⟩
          · rw [hfill.decPos, List.length_append]
            dsimp only
            omega
          · have := hfill.le
            rw [List.length_append]
            omega
          · intro hnil
            exact absurd (List.append_eq_nil_iff.mp hnil).1 hd

/-- A read where the stream stands neither rewinds nor skips. -/
theorem gzipRead_mem {medium : Medium} {fuel : Nat} {gh gh' : GzipHandle σ} {count reads reads' : Nat}
    {got : List UInt8} (hmem : gh.source = .mem input)
    (h : gzipRead medium decoder fuel gh gh.decPos count reads = .ok (got, gh', reads')) :
    Filled decoder input gh gh' count got := by
  rw [gzipRead, if_neg (Nat.lt_irrefl _)] at h
  cases fuel with
  | zero => cases h
  | succ fuel =>
    have hskip : gzipSkip medium decoder gh.decPos (fuel + 1) gh reads = .ok (true, gh, reads) := by
      rw [gzipSkip, if_pos (Nat.le_refl _)]
    rw [hskip, ok_bind] at h
    obtain ⟨got', rfl, hfill⟩ := gzipFill_mem (fuel + 1) hmem h
    exact hfill

end

end Limine.Uri
