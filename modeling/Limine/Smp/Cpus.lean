import Limine.Smp.Madt

/-!
# Bringing up the processors

`init_smp` from where it has the MADT: one walk counts the processors there may be, a second one starts
them and lists those that answer.  For an xAPIC entry a third looks for an x2APIC entry of the same ID.
`lapic_configure_bsp` finds the boot processor's entry in a walk of its own.
-/

namespace Limine.Smp

/-- `flags & MADT_LAPIC_ENABLED` -/
def madtLapicEnabled (flags : Nat) : Bool := flags.testBit 0

/-! ## The interrupts of a processor -/

/-- What the LINT pins are set to next. -/
structure PendingLints where
  lint0 : Nat := 0xffffffff
  lint1 : Nat := 0xffffffff
  lint0IsX2apic : Bool := false
  lint1IsX2apic : Bool := false
deriving DecidableEq, Repr

def lapicSetPendingLint (pending : PendingLints) (lint lvt : Nat) (isX2apic : Bool) : PendingLints :=
  match lint with
  | 0 =>
    if pending.lint0IsX2apic && !isX2apic then pending
    else { pending with lint0 := lvt, lint0IsX2apic := isX2apic }
  | 1 =>
    if pending.lint1IsX2apic && !isX2apic then pending
    else { pending with lint1 := lvt, lint1IsX2apic := isX2apic }
  | _ => pending

def lapicMadtNmiFlagsToLvt (flags : Nat) : Nat :=
  0x10400 ||| (if flags &&& 3 = 3 then 1 <<< 13 else 0) ||| (if (flags >>> 2) &&& 3 = 3 then 1 <<< 15 else 0)

def lapicPrepLint (table : List UInt8) (acpiUid : Nat) : Run PendingLints :=
  walkMadt table (fun entry pending =>
    match entry with
    | .lapicNmi nmi =>
      if nmi.acpiProcessorUid ≠ 0xff ∧ (acpiUid > 0xfe ∨ nmi.acpiProcessorUid ≠ acpiUid) then
        .ok (.yield pending)
      else .ok (.yield (lapicSetPendingLint pending nmi.lint (lapicMadtNmiFlagsToLvt nmi.flags) false))
    | .x2apicNmi nmi =>
      if nmi.acpiProcessorUid ≠ 0xffffffff ∧ nmi.acpiProcessorUid ≠ acpiUid then .ok (.yield pending)
      else .ok (.yield (lapicSetPendingLint pending nmi.lint (lapicMadtNmiFlagsToLvt nmi.flags) true))
    | _ => .ok (.yield pending)) {}

/-! ## The list of processors -/

def madtHasX2apicEntry (table : List UInt8) (apicId : Nat) : Run Bool :=
  walkMadt table (fun entry found =>
    match entry with
    | .x2apic x2lapic =>
      if x2lapic.x2apicId = apicId && madtLapicEnabled x2lapic.flags then .ok (.done true)
      else .ok (.yield found)
    | _ => .ok (.yield found)) false

/-- `struct limine_mp_info` -/
structure MpInfo where
  processorId : Nat
  lapicId : Nat
deriving DecidableEq, Repr

def mpInfoHasLapicId (mpInfo : List MpInfo) (count lapicId : Nat) : Bool :=
  (mpInfo.take count).any (·.lapicId = lapicId)

/-- What `init_smp` has when it comes to the table: the mode the APIC is in, the ID of the processor it
runs on, and how each attempt to start another one goes. -/
structure Boot where
  x2apic : Bool
  bspLapicId : Nat
  smpConfigureApic : Bool
  startAp : Nat → Bool

/-- A call of `smp_start_ap`. -/
structure Attempt where
  lapicId : Nat
  lints : PendingLints
  started : Bool
deriving DecidableEq, Repr

/-- `ret` has a slot for each of the `max_cpus` processors. -/
structure Bringup where
  ret : List MpInfo
  cpuCount : Nat
  lints : PendingLints
  attempts : List Attempt
deriving DecidableEq, Repr

/-- The processors that are listed so far. -/
def Bringup.cpus (s : Bringup) : List MpInfo := s.ret.take s.cpuCount

def countCpus (table : List UInt8) (x2apic : Bool) : Run Nat :=
  walkMadt table (fun entry maxCpus =>
    match entry with
    | .lapic lapic => .ok (.yield (if madtLapicEnabled lapic.flags then maxCpus + 1 else maxCpus))
    | .x2apic x2lapic =>
      if !x2apic && x2lapic.x2apicId ≥ 0xff then .ok (.yield maxCpus)
      else .ok (.yield (if madtLapicEnabled x2lapic.flags then maxCpus + 1 else maxCpus))
    | _ => .ok (.yield maxCpus)) 0

/-- The LINT values of a processor, before it is started. -/
def prepLint (boot : Boot) (table : List UInt8) (acpiUid : Nat) (pending : PendingLints) : Run PendingLints :=
  if boot.smpConfigureApic then lapicPrepLint table acpiUid else .ok pending

/-- What both cases do with an entry that describes a processor. -/
def bringUp (boot : Boot) (table : List UInt8) (info : MpInfo) (s : Bringup) : Run Bringup :=
  if mpInfoHasLapicId s.ret s.cpuCount info.lapicId then .ok s
  else if s.cpuCount < s.ret.length then do
    let s := { s with ret := s.ret.set s.cpuCount info }
    if info.lapicId = boot.bspLapicId then return { s with cpuCount := s.cpuCount + 1 }
    else do
      let lints ← prepLint boot table info.processorId s.lints
      let started := boot.startAp s.attempts.length
      let attempt := { lapicId := info.lapicId, lints := lints, started := started }
      let s := { s with lints := lints, attempts := s.attempts ++ [attempt] }
      if started then return { s with cpuCount := s.cpuCount + 1 } else return s
  else .error .writeOutside

/-- The body of the second walk. -/
def startCpu (boot : Boot) (table : List UInt8) (entry : MadtEntry) (s : Bringup) : Run Bringup :=
  match entry with
  | .lapic lapic =>
    if lapic.lapicId = 0xff then .ok s
    else if !madtLapicEnabled lapic.flags then .ok s
    else do
      if ← madtHasX2apicEntry table lapic.lapicId then return s
      else bringUp boot table { processorId := lapic.acpiProcessorUid, lapicId := lapic.lapicId } s
  | .x2apic x2lapic =>
    if x2lapic.x2apicId = 0xffffffff then .ok s
    else if !boot.x2apic && x2lapic.x2apicId ≥ 0xff then .ok s
    else if !madtLapicEnabled x2lapic.flags then .ok s
    else bringUp boot table { processorId := x2lapic.acpiProcessorUid, lapicId := x2lapic.x2apicId } s
  | _ => .ok s

/-- The list, or no list, with the attempts on the way to it. -/
structure MpResult where
  ret : Option (List MpInfo)
  attempts : List Attempt
deriving DecidableEq, Repr

def MpResult.cpus (r : MpResult) : List MpInfo := r.ret.getD []

def initSmp (boot : Boot) (table : List UInt8) : Run MpResult := do
  let maxCpus ← countCpus table boot.x2apic
  if maxCpus = 0 then return { ret := none, attempts := [] }
  else do
    let empty : Bringup :=
      { ret := List.replicate maxCpus { processorId := 0, lapicId := 0 }, cpuCount := 0, lints := {}, attempts := [] }
    let s ← walkMadt table (fun entry s => ForInStep.yield <$> startCpu boot table entry s) empty
    if s.cpuCount = 0 then return { ret := none, attempts := s.attempts }
    else return { ret := some s.cpus, attempts := s.attempts }

/-! ## The boot processor -/

/-- The body of its walk: an x2APIC entry with the ID ends the search, an xAPIC one does not. -/
def bspEntry (bspLapicId : Nat) (entry : MadtEntry) (found : Option Nat) : Run (ForInStep (Option Nat)) :=
  match entry with
  | .lapic lapic =>
    if lapic.lapicId = bspLapicId && found.isNone then .ok (.yield (some lapic.acpiProcessorUid))
    else .ok (.yield found)
  | .x2apic x2lapic =>
    if x2lapic.x2apicId = bspLapicId then .ok (.done (some x2lapic.acpiProcessorUid)) else .ok (.yield found)
  | _ => .ok (.yield found)

/-- The UID that `lapic_configure_bsp` passes on. -/
def lapicConfigureBsp (table : List UInt8) (bspLapicId : Nat) : Run Nat := do
  let found ← walkMadt table (bspEntry bspLapicId) none
  return found.getD 0xffffffff

end Limine.Smp
