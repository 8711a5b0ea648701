import Limine.Iso9660.File

/-!
# The records of a directory

Which record comes behind another, and what the walk down a path ends at: a whole record of a directory
of sound size, with a name.
-/

namespace Limine.Iso9660
open Limine.Fs (Volume cString strcmpEq strcasecmpEq cString_eq_self)
open Limine.Menu (CString)

/-! ## The record behind -/

theorem alignUp_next {off : Nat} (h : off < 2 ^ 63) :
    alignUp (off + 1) iso9660SectorSize = some ((off / iso9660SectorSize + 1) * iso9660SectorSize) := by
  unfold alignUp
  rw [checkedAdd_eq_some (by unfold iso9660SectorSize; omega)]
  show some ((off + 1 + (iso9660SectorSize - 1)) / iso9660SectorSize * iso9660SectorSize) = _
  congr 2
  unfold iso9660SectorSize
  omega

theorem length_of_past {buffer : List UInt8} {off : Nat} (h : buffer.length ≤ off) :
    DirectoryEntry.length ⟨buffer, off⟩ = 0 := by
  unfold DirectoryEntry.length Part.field
  show Lib.leNat ((buffer.drop off).take 1) = 0
  rw [List.drop_eq_nil_of_le h]
  rfl

/-- Where the next record is, if there is one. -/
def behind (e : DirectoryEntry) : Nat :=
  if DirectoryEntry.length { e with off := e.off + e.length } = 0 then
    ((e.off + e.length) / iso9660SectorSize + 1) * iso9660SectorSize
  else e.off + e.length

theorem DirectoryEntry.Whole.length_ne_zero {e : DirectoryEntry} (h : e.Whole) : e.length ≠ 0 := by
  have h33 : 33 ≤ e.length := h.1
  omega

theorem DirectoryEntry.Whole.off_lt {e : DirectoryEntry} (h : e.Whole) : e.off < e.buffer.length := by
  have hne := h.length_ne_zero
  have hfit := h.2
  omega

theorem follows_iff {e n : DirectoryEntry} : Follows e n ↔ n = { e with off := behind e } ∧ n.Whole := by
  obtain ⟨buffer, off⟩ := n
  unfold Follows behind
  constructor
  · rintro ⟨rfl, hwhole, hoff | ⟨hpad, hoff⟩⟩
    · dsimp only at hoff
      subst hoff
      rw [if_neg hwhole.length_ne_zero]
      exact ⟨rfl, hwhole⟩
    · dsimp only at hoff
      subst hoff
      rw [if_pos hpad]
      exact ⟨rfl, hwhole⟩
  · rintro ⟨heq, hwhole⟩
    split at heq
    · next hpad =>
      cases heq
      exact ⟨rfl, hwhole, Or.inr ⟨hpad, rfl⟩⟩
    · cases heq
      exact ⟨rfl, hwhole, Or.inl rfl⟩

/-- The last two checks of `nextEntry`. -/
theorem checked_eq_some_iff {entry n : DirectoryEntry} (hoff : entry.off < entry.buffer.length) :
    (if entry.length < sizeofDirectoryEntry then none
      else if entry.length > entry.buffer.length - entry.off then none
      else some entry) = some n ↔ n = entry ∧ n.Whole := by
  have hwhole : entry.Whole ↔
      ¬entry.length < sizeofDirectoryEntry ∧ ¬entry.length > entry.buffer.length - entry.off := by
    unfold DirectoryEntry.Whole
    omega
  constructor
  · intro h
    split at h
    · cases h
    · next hmin =>
      split at h
      · cases h
      · next hmax =>
        cases h
        exact ⟨rfl, hwhole.mpr ⟨hmin, hmax⟩⟩
  · rintro ⟨rfl, h⟩
    obtain ⟨hmin, hmax⟩ := hwhole.mp h
    rw [if_neg hmin, if_neg hmax]

theorem nextEntry_iff {e n : DirectoryEntry} (he : e.length ≠ 0) (hb : e.off + e.length < 2 ^ 63) :
    nextEntry e = some n ↔ Follows e n := by
  rw [follows_iff]
  unfold nextEntry behind
  dsimp only
  rw [if_neg he]
  by_cases hend : e.off + e.length ≥ e.buffer.length
  · -- past the end there is nothing, padding or not
    have hpad : DirectoryEntry.length { e with off := e.off + e.length } = 0 := length_of_past hend
    rw [if_pos hend, if_pos hpad]
    constructor
    · intro h
      cases h
    · rintro ⟨rfl, hwhole⟩
      have hoff := hwhole.off_lt
      unfold iso9660SectorSize at hoff
      dsimp only at hoff
      omega
  rw [if_neg hend]
  by_cases hpad : DirectoryEntry.length { e with off := e.off + e.length } = 0
  · rw [if_pos hpad, if_pos hpad, alignUp_next hb, Option.bind_eq_bind, Option.bind_eq_bind, Option.bind_some]
    generalize (e.off + e.length) / iso9660SectorSize + 1 = sector
    by_cases hpast : sector * iso9660SectorSize ≥ e.buffer.length
    · rw [if_pos hpast]
      constructor
      · intro h
        cases h
      · rintro ⟨rfl, hwhole⟩
        exact absurd hwhole.off_lt (Nat.not_lt.mpr hpast)
    · rw [if_neg hpast]
      by_cases hzero : DirectoryEntry.length { e with off := sector * iso9660SectorSize } = 0
      · rw [if_pos hzero]
        constructor
        · intro h
          cases h
        · rintro ⟨rfl, hwhole⟩
          exact absurd hzero hwhole.length_ne_zero
      · rw [if_neg hzero]
        exact checked_eq_some_iff (Nat.lt_of_not_le hpast)
  · rw [if_neg hpad, if_neg hpad, Option.bind_eq_bind, Option.bind_some]
    exact checked_eq_some_iff (Nat.lt_of_not_le hend)

/-! ## Loops that end -/

theorem nmName_ends (limit : Nat) {fuel : Nat} {sysarea buf : List UInt8} {foundNm : Bool}
    (hf : sysarea.length < fuel) : (nmName limit fuel sysarea buf foundNm).Ensures True fun _ => True := by
  induction fuel generalizing sysarea buf foundNm with
  | zero => omega
  | succ fuel ih =>
    unfold nmName
    dsimp only
    split
    · trivial
    split
    · trivial
    next hlen =>
    have hdrop : (sysarea.drop (sysarea.getD 2 0).toNat).length < fuel := by
      rw [List.length_drop]
      omega
    split
    · split
      · trivial
      split
      · trivial
      · exact ih hdrop
    · exact ih hdrop

theorem useIsoName_ends (limit : Nat) (entry : DirectoryEntry) :
    (useIsoName limit entry).Ensures True fun _ => True := by
  unfold useIsoName
  split <;> trivial

theorem loadName_ends (limit : Nat) (entry : DirectoryEntry) :
    (loadName limit entry).Ensures True fun _ => True := by
  unfold loadName
  split
  · exact useIsoName_ends limit entry
  · next sysarea _ =>
    apply (nmName_ends limit (Nat.lt_succ_self sysarea.length)).bind
    rintro ⟨buf, foundNm⟩ -
    dsimp only
    split
    · trivial
    · exact useIsoName_ends limit entry

theorem loadName_ensures (limit : Nat) (entry : DirectoryEntry) :
    (loadName limit entry).Ensures True fun r => loadName limit entry = .ok r := by
  have hends := loadName_ends limit entry
  cases hname : loadName limit entry with
  | ok r => exact rfl
  | error e =>
    rw [hname] at hends
    cases e with
    | panic msg => trivial
    | outOfFuel => exact hends

/-! ## The record that is found -/

/-- A record of the directory that goes by the name looked for. -/
structure Found (caseInsensitiveFopen : Bool) (buffer filename : List UInt8) (entry : DirectoryEntry) :
    Prop where
  here : entry.buffer = buffer
  whole : entry.Whole
  named : ∃ name rr, loadName nameLimit entry = .ok (name, rr) ∧
    (if rr && !caseInsensitiveFopen then strcmpEq filename name else strcasecmpEq filename name) = true

theorem findFrom_ensures (caseInsensitiveFopen : Bool) (buffer filename : List UInt8) {fuel off size : Nat}
    (hf : size < fuel) (hsize : off + size = buffer.length) :
    (findFrom caseInsensitiveFopen buffer filename fuel off size).Ensures True fun r =>
      ∀ entry, r = some entry → Found caseInsensitiveFopen buffer filename entry := by
  induction fuel generalizing off size with
  | zero => omega
  | succ fuel ih =>
    have hnone : Exec.Ensures True (fun r => ∀ entry, r = some entry →
        Found caseInsensitiveFopen buffer filename entry) (.ok none) := by
      intro entry h
      cases h
    unfold findFrom
    dsimp only
    split
    · exact hnone
    next h0 =>
    split
    · -- padding up to the next sector
      split
      · exact hnone
      next hsector =>
      unfold alignDown iso9660SectorSize at *
      split
      · exact ih (by omega) (by omega)
      · exact ih (by omega) (by omega)
    next hlen =>
    split
    · exact hnone
    next hfit =>
    split
    · exact hnone
    next hmin =>
    have hrest := @ih (off + DirectoryEntry.length ⟨buffer, off⟩)
      (size - DirectoryEntry.length ⟨buffer, off⟩) (by omega) (by omega)
    apply (loadName_ensures nameLimit ⟨buffer, off⟩).bind
    rintro ⟨name, rr⟩ hname
    have hfound (h : (if rr && !caseInsensitiveFopen then strcmpEq filename name
        else strcasecmpEq filename name) = true) : Exec.Ensures True (fun r => ∀ entry, r = some entry →
          Found caseInsensitiveFopen buffer filename entry) (.ok (some ⟨buffer, off⟩)) := by
      intro entry heq
      cases heq
      refine ⟨rfl, ⟨by omega, ?_⟩, name, rr, hname, h⟩
      show off + DirectoryEntry.length ⟨buffer, off⟩ ≤ buffer.length
      omega
    dsimp only
    split
    · next hrr =>
      rw [if_pos hrr] at hfound
      split
      · next h => exact hfound h
      · exact hrest
    · next hrr =>
      rw [if_neg hrr] at hfound
      split
      · next h => exact hfound h
      · exact hrest

theorem find_ensures (caseInsensitiveFopen : Bool) (buffer filename : List UInt8) :
    (find caseInsensitiveFopen buffer filename).Ensures True fun r =>
      ∀ entry, r = some entry → Found caseInsensitiveFopen buffer filename entry :=
  findFrom_ensures caseInsensitiveFopen buffer filename (Nat.lt_succ_self _) (Nat.zero_add _)

/-- A record found by a name that says something has one that does. -/
theorem Found.name_ne_nil {caseInsensitiveFopen : Bool} {buffer filename : List UInt8} {entry : DirectoryEntry}
    (h : Found caseInsensitiveFopen buffer filename entry) (hf : cString filename ≠ []) {r : List UInt8 × Bool}
    (hr : loadName nameLimit entry = .ok r) : cString r.1 ≠ [] := by
  obtain ⟨name, rr, hname, heq⟩ := h.named
  rw [hr] at hname
  cases hname
  intro hnil
  apply hf
  split at heq
  · unfold strcmpEq at heq
    rw [decide_eq_true_eq, hnil] at heq
    exact heq
  · unfold strcasecmpEq at heq
    rw [decide_eq_true_eq, hnil] at heq
    exact List.map_eq_nil_iff.mp heq

/-- What a path ends at: a whole record of a directory of sound size, with a name. -/
structure Reached (entry : DirectoryEntry) : Prop where
  whole : entry.Whole
  sound : entry.buffer.length ≤ iso9660MaxDirSize
  named : ∀ r, loadName nameLimit entry = .ok r → cString r.1 ≠ []

theorem dirSizeValid_le {size : Nat} (h : dirSizeValid size) : size ≤ iso9660MaxDirSize := by
  unfold dirSizeValid at h
  simp only [Bool.not_eq_true', Bool.or_eq_false_iff, decide_eq_false_iff_not] at h
  omega

theorem walk_ensures (caseInsensitiveFopen : Bool) (vol : Volume) {fuel : Nat} {current : List UInt8}
    {path : CString} (hf : path.length < fuel) (hcurrent : current.length ≤ iso9660MaxDirSize)
    (hpath : ∀ c ∈ path, c ≠ 0) :
    (walk caseInsensitiveFopen vol fuel current path).Ensures True fun r =>
      ∀ entry, r = some entry → Reached entry := by
  induction fuel generalizing current path with
  | zero => omega
  | succ fuel ih =>
    have hnone : Exec.Ensures True (fun r => ∀ entry, r = some entry → Reached entry) (.ok none) := by
      intro entry h
      cases h
    have hskip : (path.dropWhile (· = slash)).length ≤ path.length :=
      (List.dropWhile_suffix _).length_le
    have hskipped : ∀ c ∈ path.dropWhile (· = slash), c ≠ 0 := fun c hc =>
      hpath c ((List.dropWhile_suffix _).subset hc)
    have hhead : ∀ c, (path.dropWhile (· = slash)).head? = some c → c ≠ slash := by
      intro c hc
      have := List.head?_dropWhile_not (fun c => decide (c = slash)) path
      rw [hc] at this
      simpa using this
    unfold walk
    dsimp only
    generalize path.dropWhile (· = slash) = path' at hskip hskipped hhead ⊢
    cases path' with
    | nil => exact hnone
    | cons c rest =>
      rw [if_neg (by simp)]
      have hc : decide (c ≠ slash) = true := by simpa using hhead c rfl
      have hfilename : cString ((c :: rest).takeWhile (· ≠ slash)) ≠ [] := by
        rw [cString_eq_self fun a ha => hskipped a ((List.takeWhile_prefix _).subset ha)]
        rw [List.takeWhile_cons_of_pos (p := fun x => decide (x ≠ slash)) hc]
        simp
      have hrest : ((c :: rest).dropWhile (· ≠ slash)).length ≤ rest.length := by
        rw [List.dropWhile_cons_of_pos (p := fun x => decide (x ≠ slash)) hc]
        exact (List.dropWhile_suffix _).length_le
      have hrestNe : ∀ a ∈ (c :: rest).dropWhile (· ≠ slash), a ≠ 0 := fun a ha =>
        hskipped a ((List.dropWhile_suffix _).subset ha)
      generalize (c :: rest).takeWhile (· ≠ slash) = filename at hfilename ⊢
      generalize (c :: rest).dropWhile (· ≠ slash) = path' at hrest hrestNe ⊢
      rw [List.length_cons] at hskip
      split
      · trivial
      apply (find_ensures caseInsensitiveFopen current filename).bind
      intro r hr
      cases r with
      | none => exact hnone
      | some entry =>
        have hfound := hr entry rfl
        dsimp only
        split
        · intro entry' heq
          cases heq
          refine ⟨hfound.whole, ?_, fun r hname => hfound.name_ne_nil hfilename hname⟩
          rw [hfound.here]
          exact hcurrent
        split
        · exact hnone
        split
        · exact hnone
        next hsize =>
        split
        · exact hnone
        · next bytes hread =>
          apply ih
          · rw [List.length_tail]
            omega
          · rw [vol.length_of_volumeRead hread]
            exact dirSizeValid_le (by simpa using hsize)
          · intro a ha
            exact hrestNe a (List.mem_of_mem_tail ha)

end Limine.Iso9660
