import Limine.Crypt.Absorb
import Limine.Uri.Gzip

/-!
# Reading through the hash filter

Each read through a handle of `blake2b_open` starts where the one before ended.  The medium may
answer any of them with less than it was asked for; what it answered is what is hashed.
-/

namespace Limine.Uri

open Limine.Crypt Limine.Lib Limine.Menu

section
variable {σ : Type} (medium : Medium) (decoder : Decoder σ)

/-- Reads of these lengths, each from where the one before ended: what they deliver, and the handle
they leave. -/
def readsOn (fuel : Nat) : List Nat → Handle σ → Nat → Nat → Exec (List (List UInt8) × Handle σ)
  | [], handle, _, _ => .ok ([], handle)
  | count :: counts, handle, loc, reads => do
    let (got, handle, reads) ← fread medium decoder fuel handle loc count reads
    let (pieces, handle) ← readsOn fuel counts handle (loc + got.length) reads
    .ok (got :: pieces, handle)

/-- `blake2b_final` on the state behind a handle. -/
def Handle.digest? : Handle σ → Option (List UInt8)
  | .blake2b _ state _ => some state.final
  | _ => none

theorem boundsCheck_cases (size loc count : Nat) :
    boundsCheck size loc count = .ok () ∨
      boundsCheck size loc count = .error (.panic "fread: attempted out of bounds read") := by
  rw [boundsCheck]
  split
  · exact .inr rfl
  · exact .inl rfl

/-- One read in sequence: the bytes it delivers are those it hashes, and only its bounds can stop it. -/
theorem fread_blake2b (fuel : Nat) (source : Source) (state : Blake2bState) (pos count reads : Nat) :
    (∃ got reads', fread medium decoder fuel (.blake2b source state pos) pos count reads =
        .ok (got, .blake2b source (state.update got) (pos + got.length), reads')) ∨
      fread medium decoder fuel (.blake2b source state pos) pos count reads =
        .error (.panic "fread: attempted out of bounds read") := by
  rw [fread]
  show (∃ got reads', (boundsCheck source.size pos count >>= _) = _) ∨ (boundsCheck source.size pos count >>= _) = _
  rcases boundsCheck_cases source.size pos count with hok | hpanic
  · left
    rw [hok, ok_bind]
    dsimp only
    rw [if_neg (not_not_intro rfl)]
    cases source with
    | mem data => exact ⟨_, _, by rw [freadSource, hok]; rfl⟩
    | file size => exact ⟨_, _, by rw [freadSource, hok]; rfl⟩
  · right
    rw [hpanic]
    rfl

theorem readsOn_absorbed (fuel : Nat) (source : Source) (counts : List Nat) (d : List UInt8)
    (reads : Nat) :
    match readsOn medium decoder fuel counts (.blake2b source (absorbed d) d.length) d.length reads with
    | .ok (pieces, handle) =>
      handle = .blake2b source (absorbed (d ++ pieces.flatten)) (d ++ pieces.flatten).length
    | .error e => e = .panic "fread: attempted out of bounds read" := by
  induction counts generalizing d reads with
  | nil => simp [readsOn]
  | cons count counts ih =>
    rw [readsOn]
    rcases fread_blake2b medium decoder fuel source (absorbed d) d.length count reads with
      ⟨got, reads', hread⟩ | hpanic
    · rw [hread, ok_bind]
      dsimp only
      rw [update_absorbed, ← List.length_append]
      have hrest := ih (d ++ got) reads'
      revert hrest
      cases readsOn medium decoder fuel counts (.blake2b source (absorbed (d ++ got)) (d ++ got).length)
        (d ++ got).length reads' with
      | error e => exact id
      | ok out =>
        obtain ⟨pieces, handle⟩ := out
        intro hrest
        show handle = _
        rw [List.flatten_cons, ← List.append_assoc]
        exact hrest
    · rw [hpanic]
      rfl

end

/-- **Hashing in pieces.**  However a message is cut, its pieces give the digest that `blake2b`
gives of the whole, and that is the hash of the message; and reads through a filter, each from
where the last one ended and each as short as the medium makes it, give the digest of the bytes
they delivered, unless one of them is out of the bounds of the file. -/
theorem blake2b_streams {σ : Type} (medium : Medium) (decoder : Decoder σ) (fuel : Nat) (source : Source)
    (counts : List Nat) (reads : Nat) (pieces : List (List UInt8)) :
    (pieces.foldl Blake2bState.update blake2bInit).final = blake2b pieces.flatten ∧
    blake2b pieces.flatten = Blake2.hash pieces.flatten ∧
    match readsOn medium decoder fuel counts (blake2bOpen source) 0 reads with
    | .ok (got, handle) => handle.digest? = some (blake2b got.flatten) ∧
        handle.digest? = some (Blake2.hash got.flatten)
    | .error e => e = .panic "fread: attempted out of bounds read" := by
  have hreads := readsOn_absorbed medium decoder fuel source counts [] reads
  refine ⟨by rw [pieces_final, blake2b_eq_hash], blake2b_eq_hash _, ?_⟩
  rw [blake2bOpen, blake2bInit_absorbed]
  revert hreads
  show (match readsOn medium decoder fuel counts (.blake2b source (absorbed []) 0) 0 reads with
    | .ok (pieces, handle) => handle = .blake2b source (absorbed ([] ++ pieces.flatten)) ([] ++ pieces.flatten).length
    | .error e => e = .panic "fread: attempted out of bounds read") → _
  cases readsOn medium decoder fuel counts (.blake2b source (absorbed []) 0) 0 reads with
  | error e => exact id
  | ok out =>
    obtain ⟨got, handle⟩ := out
    rintro rfl
    rw [List.nil_append]
    show some (absorbed got.flatten).final = _ ∧ some (absorbed got.flatten).final = _
    rw [final_absorbed, blake2b_eq_hash]
    exact ⟨rfl, rfl⟩

end Limine.Uri
