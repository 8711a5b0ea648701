import Limine.Lib.Bytes
import Limine.Lib.Triple
import Mathlib.Order.Nat

/-!
# Walking the MADT

The interrupt controller structures of the ACPI table, one after the other behind its header.  Each
starts with its type and its length, and any of it may be wrong: four walks over the table stop at the
first length that is zero or does not fit.

    header (44 bytes) | 0 8 uid id flags | 9 16 - - id flags uid | ...
-/

namespace Limine.Smp
open Limine.Lib

/-- What the walks and the list they fill must not do. -/
inductive Fault
  | readOutside
  | writeOutside
  | outOfFuel
deriving DecidableEq, Repr

abbrev Run := Except Fault

/-- The number in the `n` bytes from `ptr` on. -/
def numberAt (table : List UInt8) (ptr n : Nat) : Nat := leNat ((table.drop ptr).take n)

/-- A read from the table, which has `header.length` bytes. -/
def readAt (table : List UInt8) (ptr n : Nat) : Run Nat :=
  if ptr + n ≤ table.length then .ok (numberAt table ptr n) else .error .readOutside

/-- `struct madt_lapic` -/
structure MadtLapic where
  acpiProcessorUid : Nat
  lapicId : Nat
  flags : Nat
deriving DecidableEq, Repr

/-- `struct madt_x2apic` -/
structure MadtX2apic where
  x2apicId : Nat
  flags : Nat
  acpiProcessorUid : Nat
deriving DecidableEq, Repr

/-- `struct madt_lapic_nmi` -/
structure MadtLapicNmi where
  acpiProcessorUid : Nat
  flags : Nat
  lint : Nat
deriving DecidableEq, Repr

/-- `struct madt_x2apic_nmi` -/
structure MadtX2apicNmi where
  flags : Nat
  acpiProcessorUid : Nat
  lint : Nat
deriving DecidableEq, Repr

/-- `other` is also what is too short for its type. -/
inductive MadtEntry
  | lapic (lapic : MadtLapic)
  | lapicNmi (nmi : MadtLapicNmi)
  | x2apic (x2lapic : MadtX2apic)
  | x2apicNmi (nmi : MadtX2apicNmi)
  | other
deriving DecidableEq, Repr

/-- `madt_entries_begin` -/
def madtEntriesBegin : Nat := 44

def sizeofMadtLapic : Nat := 8
def sizeofMadtLapicNmi : Nat := 6
def sizeofMadtX2apic : Nat := 16
def sizeofMadtX2apicNmi : Nat := 12

/-- The entry at `ptr`, as the cases of the walks read it. -/
def entryAt (table : List UInt8) (ptr : Nat) : Run MadtEntry := do
  let length ← readAt table (ptr + 1) 1
  match ← readAt table ptr 1 with
  | 0 =>
    if length < sizeofMadtLapic then return .other
    else do
      let uid ← readAt table (ptr + 2) 1
      let lapicId ← readAt table (ptr + 3) 1
      let flags ← readAt table (ptr + 4) 4
      return .lapic { acpiProcessorUid := uid, lapicId := lapicId, flags := flags }
  | 4 =>
    if length < sizeofMadtLapicNmi then return .other
    else do
      let uid ← readAt table (ptr + 2) 1
      let flags ← readAt table (ptr + 3) 2
      let lint ← readAt table (ptr + 5) 1
      return .lapicNmi { acpiProcessorUid := uid, flags := flags, lint := lint }
  | 9 =>
    if length < sizeofMadtX2apic then return .other
    else do
      let x2apicId ← readAt table (ptr + 4) 4
      let flags ← readAt table (ptr + 8) 4
      let uid ← readAt table (ptr + 12) 4
      return .x2apic { x2apicId := x2apicId, flags := flags, acpiProcessorUid := uid }
  | 10 =>
    if length < sizeofMadtX2apicNmi then return .other
    else do
      let flags ← readAt table (ptr + 2) 2
      let uid ← readAt table (ptr + 4) 4
      let lint ← readAt table (ptr + 8) 1
      return .x2apicNmi { flags := flags, acpiProcessorUid := uid, lint := lint }
  | _ => return .other

section
variable {σ : Type} (table : List UInt8)

/-- The loop of every walk, from `ptr` on. -/
def walkFrom (body : MadtEntry → σ → Run (ForInStep σ)) : Nat → Nat → σ → Run σ
  | 0, _, _ => .error .outOfFuel
  | fuel + 1, ptr, s =>
    if ptr + 1 < table.length then do
      let length ← readAt table (ptr + 1) 1
      if length = 0 ∨ ptr + length > table.length then return s
      else do
        let entry ← entryAt table ptr
        match ← body entry s with
        | .done s => return s
        | .yield s => walkFrom body fuel (ptr + length) s
    else .ok s

def walkMadt (body : MadtEntry → σ → Run (ForInStep σ)) (s : σ) : Run σ :=
  walkFrom table body (table.length + 1) madtEntriesBegin s

/-! ## The entries of a table -/

/-- The entry at `ptr` of a table that holds it. -/
def entryOf (ptr : Nat) : MadtEntry :=
  let length := numberAt table (ptr + 1) 1
  match numberAt table ptr 1 with
  | 0 =>
    if length < sizeofMadtLapic then .other
    else .lapic
      { acpiProcessorUid := numberAt table (ptr + 2) 1, lapicId := numberAt table (ptr + 3) 1
        flags := numberAt table (ptr + 4) 4 }
  | 4 =>
    if length < sizeofMadtLapicNmi then .other
    else .lapicNmi
      { acpiProcessorUid := numberAt table (ptr + 2) 1, flags := numberAt table (ptr + 3) 2
        lint := numberAt table (ptr + 5) 1 }
  | 9 =>
    if length < sizeofMadtX2apic then .other
    else .x2apic
      { x2apicId := numberAt table (ptr + 4) 4, flags := numberAt table (ptr + 8) 4
        acpiProcessorUid := numberAt table (ptr + 12) 4 }
  | 10 =>
    if length < sizeofMadtX2apicNmi then .other
    else .x2apicNmi
      { flags := numberAt table (ptr + 2) 2, acpiProcessorUid := numberAt table (ptr + 4) 4
        lint := numberAt table (ptr + 8) 1 }
  | _ => .other

def entriesFrom : Nat → Nat → List MadtEntry
  | 0, _ => []
  | fuel + 1, ptr =>
    let length := numberAt table (ptr + 1) 1
    if ptr + 1 < table.length ∧ length ≠ 0 ∧ ptr + length ≤ table.length then
      entryOf table ptr :: entriesFrom fuel (ptr + length)
    else []

/-- The entries that every walk goes over. -/
def entries : List MadtEntry := entriesFrom table (table.length + 1) madtEntriesBegin

variable {table}

/-- The ID of an xAPIC entry is a byte. -/
theorem lapicId_lt {lapic : MadtLapic} (h : .lapic lapic ∈ entries table) : lapic.lapicId < 256 := by
  have hentry : ∀ ptr, entryOf table ptr = .lapic lapic → lapic.lapicId < 256 := by
    intro ptr h
    have hlt : numberAt table (ptr + 3) 1 < 256 := by
      have hle : ((table.drop (ptr + 3)).take 1).length ≤ 1 := List.length_take_le 1 _
      have hnat := leNat_lt ((table.drop (ptr + 3)).take 1)
      have hpow := Nat.pow_le_pow_right (by decide : 0 < 256) hle
      exact Nat.lt_of_lt_of_le hnat hpow
    unfold entryOf at h
    dsimp only at h
    split at h
    · split at h
      · cases h
      · cases h
        exact hlt
    · split at h
      · cases h
      · cases h
    · split at h
      · cases h
      · cases h
    · split at h
      · cases h
      · cases h
    · cases h
  unfold entries at h
  generalize table.length + 1 = fuel at h
  generalize madtEntriesBegin = ptr at h
  induction fuel generalizing ptr with
  | zero => cases h
  | succ fuel ih =>
    rw [entriesFrom] at h
    split at h
    · rcases List.mem_cons.mp h with h | h
      · exact hentry ptr h.symm
      · exact ih _ h
    · cases h

theorem readAt_eq {ptr n : Nat} (h : ptr + n ≤ table.length) : readAt table ptr n = .ok (numberAt table ptr n) :=
  if_pos h

/-- No field is read from behind the table. -/
theorem entryAt_eq {ptr : Nat} (hptr : ptr + 1 < table.length)
    (hlen : ptr + numberAt table (ptr + 1) 1 ≤ table.length) : entryAt table ptr = .ok (entryOf table ptr) := by
  have hread : ∀ k n, k + n ≤ numberAt table (ptr + 1) 1 →
      readAt table (ptr + k) n = .ok (numberAt table (ptr + k) n) := by
    intro k n h
    exact readAt_eq (by omega)
  unfold entryAt entryOf
  rw [readAt_eq (by omega), readAt_eq (by omega)]
  dsimp only [Bind.bind, Except.bind]
  split
  · split
    · rfl
    · next h =>
      rw [Nat.not_lt, sizeofMadtLapic] at h
      rw [hread 2 1 (by omega), hread 3 1 (by omega), hread 4 4 (by omega)]
      rfl
  · split
    · rfl
    · next h =>
      rw [Nat.not_lt, sizeofMadtLapicNmi] at h
      rw [hread 2 1 (by omega), hread 3 2 (by omega), hread 5 1 (by omega)]
      rfl
  · split
    · rfl
    · next h =>
      rw [Nat.not_lt, sizeofMadtX2apic] at h
      rw [hread 4 4 (by omega), hread 8 4 (by omega), hread 12 4 (by omega)]
      rfl
  · split
    · rfl
    · next h =>
      rw [Nat.not_lt, sizeofMadtX2apicNmi] at h
      rw [hread 2 2 (by omega), hread 4 4 (by omega), hread 8 1 (by omega)]
      rfl
  · rfl

theorem walkFrom_eq (body : MadtEntry → σ → Run (ForInStep σ)) (fuel : Nat) : ∀ (ptr : Nat) (s : σ),
    table.length < ptr + fuel → 0 < fuel →
      walkFrom table body fuel ptr s = forIn (entriesFrom table fuel ptr) s body := by
  induction fuel with
  | zero =>
    intro ptr s _ h
    omega
  | succ fuel ih =>
    intro ptr s hfuel _
    rw [walkFrom, entriesFrom]
    by_cases hptr : ptr + 1 < table.length
    · rw [if_pos hptr, readAt_eq (by omega)]
      dsimp only [Bind.bind, Except.bind]
      by_cases hend : numberAt table (ptr + 1) 1 = 0 ∨ ptr + numberAt table (ptr + 1) 1 > table.length
      · rw [if_pos hend, if_neg (by omega)]
        rfl
      · rw [if_neg hend, if_pos (by omega), entryAt_eq hptr (by omega), List.forIn_cons]
        dsimp only [Bind.bind, Except.bind]
        cases body (entryOf table ptr) s with
        | error e => rfl
        | ok step =>
          cases step with
          | done s => rfl
          | yield s => exact ih _ s (by omega) (by omega)
    · rw [if_neg hptr, if_neg (by omega)]
      rfl

/-- A walk is a loop over the entries: it stays inside the table, and it ends. -/
theorem walkMadt_eq (body : MadtEntry → σ → Run (ForInStep σ)) (s : σ) :
    walkMadt table body s = forIn (entries table) s body :=
  walkFrom_eq body _ _ s (by omega) (Nat.succ_pos _)

/-- A body that goes on every time. -/
theorem forIn_yield (step : MadtEntry → σ → Run σ) {body : MadtEntry → σ → Run (ForInStep σ)}
    (hbody : ∀ e s, body e s = ForInStep.yield <$> step e s) (l : List MadtEntry) :
    ∀ s, forIn l s body = l.foldlM (fun s e => step e s) s := by
  induction l with
  | nil =>
    intro s
    rfl
  | cons e l ih =>
    intro s
    rw [List.forIn_cons, List.foldlM_cons, hbody]
    cases step e s with
    | error fault => rfl
    | ok s' => exact ih s'

end

end Limine.Smp
