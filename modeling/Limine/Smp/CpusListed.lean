import Limine.Smp.Cpus
import Mathlib.Data.List.Nodup

/-!
# Which processors are listed

What the second walk does is one step for each entry that it takes: an entry that is enabled, has an
ID that can be sent to, and is not an xAPIC entry besides an x2APIC one.

    entries        0 (uid 1, id 4)   9 (id 4, uid 7)   9 (id 6, uid 8)   0 (uid 9, id 6)
    taken                            (7, 4)            (8, 6)
-/

namespace Limine.Smp
open Limine.Lib

/-- The processor an entry describes. -/
def MadtEntry.processor : MadtEntry → Option MpInfo
  | .lapic l => some { processorId := l.acpiProcessorUid, lapicId := l.lapicId }
  | .x2apic x => some { processorId := x.acpiProcessorUid, lapicId := x.x2apicId }
  | _ => none

/-- The entry is enabled, and its ID is not the broadcast ID nor out of reach. -/
def MadtEntry.eligible (x2apic : Bool) : MadtEntry → Bool
  | .lapic l => l.lapicId ≠ 0xff && madtLapicEnabled l.flags
  | .x2apic x => x.x2apicId ≠ 0xffffffff && (x2apic || x.x2apicId < 0xff) && madtLapicEnabled x.flags
  | _ => false

/-- There is an enabled eligible entry for the ID. -/
def Described (x2apic : Bool) (es : List MadtEntry) (id : Nat) : Prop :=
  ∃ e ∈ es, e.eligible x2apic = true ∧ ∃ info, e.processor = some info ∧ info.lapicId = id

def hasX2apic (es : List MadtEntry) (id : Nat) : Bool :=
  es.any fun
    | .x2apic x => x.x2apicId = id && madtLapicEnabled x.flags
    | _ => false

/-- What the second walk takes an entry for. -/
def taken (x2apic : Bool) (es : List MadtEntry) (e : MadtEntry) : Option MpInfo :=
  match e with
  | .lapic l => if e.eligible x2apic && !hasX2apic es l.lapicId then e.processor else none
  | _ => if e.eligible x2apic then e.processor else none

/-- What the first walk counts. -/
def counted (x2apic : Bool) : MadtEntry → Bool
  | .lapic l => madtLapicEnabled l.flags
  | .x2apic x => (x2apic || x.x2apicId < 0xff) && madtLapicEnabled x.flags
  | _ => false

/-! ## The walks -/

theorem madtHasX2apicEntry_eq (table : List UInt8) (id : Nat) :
    madtHasX2apicEntry table id = .ok (hasX2apic (entries table) id) := by
  unfold madtHasX2apicEntry hasX2apic
  rw [walkMadt_eq]
  induction entries table with
  | nil => rfl
  | cons e es ih =>
    rw [List.forIn_cons, List.any_cons]
    cases e with
    | x2apic x2lapic =>
      dsimp only
      cases hid : x2lapic.x2apicId = id && madtLapicEnabled x2lapic.flags with
      | true => rfl
      | false => exact ih
    | lapic lapic => exact ih
    | lapicNmi nmi => exact ih
    | x2apicNmi nmi => exact ih
    | other => exact ih

theorem countCpus_eq (table : List UInt8) (x2apic : Bool) :
    countCpus table x2apic = .ok ((entries table).countP (counted x2apic)) := by
  have hcount : ∀ (es : List MadtEntry) (n : Nat),
      es.foldlM (fun n e => (.ok (if counted x2apic e then n + 1 else n) : Run Nat)) n =
        .ok (n + es.countP (counted x2apic)) := by
    intro es
    induction es with
    | nil =>
      intro n
      rfl
    | cons e es ih =>
      intro n
      rw [List.foldlM_cons, ok_bind, ih, List.countP_cons]
      split
      · rw [Nat.add_right_comm, Nat.add_assoc]
      · rfl
  unfold countCpus
  rw [walkMadt_eq, forIn_yield (fun e n => .ok (if counted x2apic e then n + 1 else n)), hcount,
    Nat.zero_add]
  intro e n
  cases e with
  | lapic l => rfl
  | x2apic x =>
    show _ = Except.ok (ForInStep.yield (if ((x2apic || x.x2apicId < 0xff) && madtLapicEnabled x.flags) = true
      then n + 1 else n))
    by_cases hid : x.x2apicId < 0xff
    · have hlow : ¬(!x2apic && x.x2apicId ≥ 0xff) = true := by simp [hid]
      dsimp only
      rw [if_neg hlow]
      simp [hid]
    · cases x2apic with
      | false => simp [hid, Nat.le_of_not_lt hid]
      | true => simp
  | lapicNmi nmi => rfl
  | x2apicNmi nmi => rfl
  | other => rfl

theorem lapicPrepLint_ok (table : List UInt8) (uid : Nat) : ∃ lints, lapicPrepLint table uid = .ok lints := by
  unfold lapicPrepLint
  rw [walkMadt_eq]
  generalize ({} : PendingLints) = pending
  induction entries table generalizing pending with
  | nil => exact ⟨pending, rfl⟩
  | cons e es ih =>
    rw [List.forIn_cons]
    cases e with
    | lapicNmi nmi =>
      dsimp only
      split
      · exact ih _
      · exact ih _
    | x2apicNmi nmi =>
      dsimp only
      split
      · exact ih _
      · exact ih _
    | lapic l => exact ih _
    | x2apic x => exact ih _
    | other => exact ih _

theorem startCpu_eq (boot : Boot) (table : List UInt8) (e : MadtEntry) (s : Bringup) :
    startCpu boot table e s =
      match taken boot.x2apic (entries table) e with
      | none => .ok s
      | some info => bringUp boot table info s := by
  unfold startCpu taken MadtEntry.eligible
  cases e with
  | lapic l =>
    dsimp only
    rw [madtHasX2apicEntry_eq, ok_bind]
    by_cases hid : l.lapicId = 0xff
    · simp [hid]
    · rw [if_neg hid]
      by_cases hen : madtLapicEnabled l.flags = true
      · rw [if_neg (by simp [hen])]
        by_cases hx2 : hasX2apic (entries table) l.lapicId = true
        · rw [if_pos hx2, if_neg (by simp [hx2])]
          rfl
        · rw [if_neg hx2, if_pos (by simp [hid, hen, hx2])]
          rfl
      · rw [if_pos (by simp [hen]), if_neg (by simp [hen])]
  | x2apic x =>
    dsimp only
    by_cases hid : x.x2apicId = 0xffffffff
    · simp [hid]
    · rw [if_neg hid]
      by_cases hlow : (!boot.x2apic && x.x2apicId ≥ 0xff) = true
      · rw [if_pos hlow, if_neg]
        simp only [Bool.and_eq_true, Bool.not_eq_true', decide_eq_true_iff] at hlow
        simp [hlow.1, Nat.not_lt.mpr hlow.2]
      · rw [if_neg hlow]
        by_cases hen : madtLapicEnabled x.flags = true
        · rw [if_neg (by simp [hen]), if_pos]
          · rfl
          · rw [Bool.and_eq_true, decide_eq_true_iff, not_and, Bool.not_eq_true'] at hlow
            cases hmode : boot.x2apic with
            | true => simp [hid, hen]
            | false => simp [hid, hen, Nat.not_le.mp (hlow hmode)]
        · rw [if_pos (by simp [hen]), if_neg (by simp [hen])]
  | lapicNmi nmi => rfl
  | x2apicNmi nmi => rfl
  | other => rfl

/-! ## One processor -/

theorem mpInfoHasLapicId_iff (s : Bringup) (id : Nat) :
    mpInfoHasLapicId s.ret s.cpuCount id = true ↔ id ∈ s.cpus.map (·.lapicId) := by
  unfold mpInfoHasLapicId Bringup.cpus
  rw [List.any_eq_true, List.mem_map]
  simp

/-- The slot behind the list is the one that is written. -/
theorem take_set (ret : List MpInfo) (n : Nat) (info : MpInfo) : (ret.set n info).take n = ret.take n := by
  rw [List.take_set_of_le (Nat.le_refl n)]

theorem take_set_succ {ret : List MpInfo} {n : Nat} (h : n < ret.length) (info : MpInfo) :
    (ret.set n info).take (n + 1) = ret.take n ++ [info] := by
  rw [List.take_add_one, List.getElem?_set_self h, Option.toList_some, take_set]

/-- What becomes of a processor: it is in the list already; it is the one this runs on, and listed; or
it is started, and listed if it answers. -/
theorem bringUp_cases {boot : Boot} (table : List UInt8) {info : MpInfo} {s : Bringup}
    (hroom : s.cpuCount < s.ret.length) :
    ∃ s', bringUp boot table info s = .ok s' ∧ s'.ret.length = s.ret.length ∧ s'.cpuCount ≤ s.cpuCount + 1 ∧
      (info.lapicId ∈ s.cpus.map (·.lapicId) ∧ s' = s ∨
      info.lapicId ∉ s.cpus.map (·.lapicId) ∧ info.lapicId = boot.bspLapicId ∧
        s'.cpus = s.cpus ++ [info] ∧ s'.attempts = s.attempts ∨
      info.lapicId ∉ s.cpus.map (·.lapicId) ∧ info.lapicId ≠ boot.bspLapicId ∧ ∃ lints,
        s'.attempts = s.attempts ++ [⟨info.lapicId, lints, boot.startAp s.attempts.length⟩] ∧
        s'.cpus = if boot.startAp s.attempts.length then s.cpus ++ [info] else s.cpus) := by
  unfold bringUp
  by_cases hlisted : mpInfoHasLapicId s.ret s.cpuCount info.lapicId = true
  · rw [if_pos hlisted]
    exact ⟨s, rfl, rfl, Nat.le_succ _, .inl ⟨(mpInfoHasLapicId_iff s _).mp hlisted, rfl⟩⟩
  · have hnew : info.lapicId ∉ s.cpus.map (·.lapicId) := fun h => hlisted ((mpInfoHasLapicId_iff s _).mpr h)
    have hcpus : (s.ret.set s.cpuCount info).take (s.cpuCount + 1) = s.cpus ++ [info] := take_set_succ hroom info
    rw [if_neg hlisted, if_pos hroom]
    by_cases hbsp : info.lapicId = boot.bspLapicId
    · rw [if_pos hbsp]
      exact ⟨_, rfl, List.length_set, Nat.le_refl _, .inr (.inl ⟨hnew, hbsp, hcpus, rfl⟩)⟩
    · rw [if_neg hbsp]
      obtain ⟨lints, hlints⟩ : ∃ lints, prepLint boot table info.processorId s.lints = .ok lints := by
        unfold prepLint
        split
        · exact lapicPrepLint_ok table info.processorId
        · exact ⟨s.lints, rfl⟩
      dsimp only
      rw [hlints, ok_bind]
      cases hstart : boot.startAp s.attempts.length with
      | true => exact ⟨_, rfl, List.length_set, Nat.le_refl _, .inr (.inr ⟨hnew, hbsp, lints, rfl, hcpus⟩)⟩
      | false =>
        have hsame : (s.ret.set s.cpuCount info).take s.cpuCount = s.cpus := take_set s.ret s.cpuCount info
        exact ⟨_, rfl, List.length_set, Nat.le_succ _, .inr (.inr ⟨hnew, hbsp, lints, rfl, hsame⟩)⟩

/-! ## The run -/

/-- What holds when the processors `infos` have been gone through. -/
structure Listed (boot : Boot) (infos : List MpInfo) (s : Bringup) : Prop where
  nodup : (s.cpus.map (·.lapicId)).Nodup
  mem : ∀ c ∈ s.cpus, c ∈ infos
  /-- The boot processor is listed as it is first described. -/
  bsp : s.cpus.find? (·.lapicId = boot.bspLapicId) = infos.find? (·.lapicId = boot.bspLapicId)
  ap : ∀ id, id ≠ boot.bspLapicId →
    (id ∈ s.cpus.map (·.lapicId) ↔ ∃ a ∈ s.attempts, a.lapicId = id ∧ a.started = true)
  attempted : ∀ a ∈ s.attempts, ∃ info ∈ infos, info.lapicId = a.lapicId
  outcome : ∀ n a, s.attempts[n]? = some a → a.started = boot.startAp n

section
variable {boot : Boot} {infos : List MpInfo} {info : MpInfo} {s s' : Bringup}

theorem mem_append_append {α : Type} {l m : List α} {a : α} (h : ∀ c ∈ l, c ∈ m) : ∀ c ∈ l ++ [a], c ∈ m ++ [a] := by
  intro c hc
  rcases List.mem_append.mp hc with hc | hc
  · exact List.mem_append_left _ (h c hc)
  · exact List.mem_append_right _ hc

theorem nodup_append_new {α β : Type} {f : α → β} {l : List α} {a : α} (h : (l.map f).Nodup) (hnew : f a ∉ l.map f) :
    ((l ++ [a]).map f).Nodup := by
  rw [List.map_append, List.map_singleton]
  exact pairwise_concat h fun b hb heq => hnew (heq ▸ hb)

theorem Listed.attempted_append (h : Listed boot infos s) (info : MpInfo) :
    ∀ a ∈ s.attempts, ∃ i ∈ infos ++ [info], i.lapicId = a.lapicId := by
  intro a ha
  obtain ⟨i, hi, hid⟩ := h.attempted a ha
  exact ⟨i, List.mem_append_left _ hi, hid⟩

theorem Listed.skip (h : Listed boot infos s) (hlisted : info.lapicId ∈ s.cpus.map (·.lapicId)) :
    Listed boot (infos ++ [info]) s where
  nodup := h.nodup
  mem c hc := List.mem_append_left _ (h.mem c hc)
  bsp := by
    rw [List.find?_append, ← h.bsp]
    cases hfound : s.cpus.find? (·.lapicId = boot.bspLapicId) with
    | some c => rfl
    | none =>
      obtain ⟨c, hc, hid⟩ := List.mem_map.mp hlisted
      have hother := List.find?_eq_none.mp hfound c hc
      rw [hid] at hother
      simpa using hother
  ap := h.ap
  attempted := h.attempted_append info
  outcome := h.outcome

theorem Listed.bootProcessor (h : Listed boot infos s) (hnew : info.lapicId ∉ s.cpus.map (·.lapicId))
    (hbsp : info.lapicId = boot.bspLapicId) (hcpus : s'.cpus = s.cpus ++ [info])
    (hattempts : s'.attempts = s.attempts) : Listed boot (infos ++ [info]) s' where
  nodup := by
    rw [hcpus]
    exact nodup_append_new h.nodup hnew
  mem := by
    rw [hcpus]
    exact mem_append_append h.mem
  bsp := by rw [hcpus, List.find?_append, List.find?_append, h.bsp]
  ap := by
    intro id hid
    have hne : id ≠ info.lapicId := fun heq => hid (heq.trans hbsp)
    rw [hcpus, hattempts, ← h.ap id hid, List.map_append, List.mem_append]
    simp [hne]
  attempted := by
    rw [hattempts]
    exact h.attempted_append info
  outcome := by
    rw [hattempts]
    exact h.outcome

theorem Listed.attempt (h : Listed boot infos s) (hnew : info.lapicId ∉ s.cpus.map (·.lapicId))
    (hbsp : info.lapicId ≠ boot.bspLapicId) {lints : PendingLints}
    (hattempts : s'.attempts = s.attempts ++ [⟨info.lapicId, lints, boot.startAp s.attempts.length⟩])
    (hcpus : s'.cpus = if boot.startAp s.attempts.length then s.cpus ++ [info] else s.cpus) :
    Listed boot (infos ++ [info]) s' where
  nodup := by
    rw [hcpus]
    split
    · exact nodup_append_new h.nodup hnew
    · exact h.nodup
  mem := by
    rw [hcpus]
    split
    · exact mem_append_append h.mem
    · exact fun c hc => List.mem_append_left _ (h.mem c hc)
  bsp := by
    have hother : [info].find? (·.lapicId = boot.bspLapicId) = none := by simp [hbsp]
    rw [List.find?_append, hother, Option.or_none, ← h.bsp, hcpus]
    split
    · rw [List.find?_append, hother, Option.or_none]
    · rfl
  ap := by
    intro id hid
    have hcpu : id ∈ s'.cpus.map (·.lapicId) ↔
        id ∈ s.cpus.map (·.lapicId) ∨ info.lapicId = id ∧ boot.startAp s.attempts.length = true := by
      rw [hcpus]
      split
      · next hstart => simp [hstart, eq_comm]
      · next hstart => simp [hstart]
    rw [hcpu, h.ap id hid, hattempts]
    simp [or_and_right, exists_or]
  attempted := by
    rw [hattempts]
    refine forall_mem_concat (h.attempted_append info) ⟨info, ?_, rfl⟩
    exact List.mem_append_right _ (List.mem_singleton_self info)
  outcome := by
    intro n a ha
    rw [hattempts] at ha
    by_cases hn : n < s.attempts.length
    · rw [List.getElem?_append_left hn] at ha
      exact h.outcome n a ha
    · rw [List.getElem?_append_right (Nat.le_of_not_lt hn), List.getElem?_singleton] at ha
      split at ha
      · next hzero =>
        cases ha
        rw [show n = s.attempts.length by omega]
      · cases ha

variable (info) in
theorem Listed.step (table : List UInt8) (h : Listed boot infos s) (hroom : s.cpuCount < s.ret.length) :
    ∃ s', bringUp boot table info s = .ok s' ∧ s'.ret.length = s.ret.length ∧ s'.cpuCount ≤ s.cpuCount + 1 ∧
      Listed boot (infos ++ [info]) s' := by
  obtain ⟨s', hok, hlen, hcount, hcases⟩ := bringUp_cases table hroom
  refine ⟨s', hok, hlen, hcount, ?_⟩
  rcases hcases with ⟨hlisted, rfl⟩ | ⟨hnew, hbsp, hcpus, hattempts⟩ | ⟨hnew, hbsp, lints, hattempts, hcpus⟩
  · exact h.skip hlisted
  · exact h.bootProcessor hnew hbsp hcpus hattempts
  · exact h.attempt hnew hbsp hattempts hcpus

/-- The walk over the entries `es`, with a slot left for every processor taken from them. -/
theorem Listed.run (table : List UInt8) (es : List MadtEntry) : ∀ {infos : List MpInfo} {s : Bringup},
    Listed boot infos s →
    s.cpuCount + (es.filterMap (taken boot.x2apic (entries table))).length ≤ s.ret.length →
    ∃ s', es.foldlM (fun s e => startCpu boot table e s) s = .ok s' ∧
      Listed boot (infos ++ es.filterMap (taken boot.x2apic (entries table))) s' := by
  induction es with
  | nil =>
    intro infos s h _
    exact ⟨s, rfl, by simpa using h⟩
  | cons e es ih =>
    intro infos s h hroom
    rw [List.foldlM_cons, startCpu_eq, List.filterMap_cons]
    rw [List.filterMap_cons] at hroom
    cases htaken : taken boot.x2apic (entries table) e with
    | none =>
      rw [htaken] at hroom
      exact ih h hroom
    | some info =>
      rw [htaken] at hroom
      dsimp only at hroom ⊢
      rw [List.length_cons] at hroom
      obtain ⟨s', hok, hlen, hcount, hstep⟩ := h.step info table (by omega)
      rw [hok, ok_bind, List.append_cons]
      exact ih hstep (by omega)

end

/-! ## The list -/

theorem counted_of_eligible {x2apic : Bool} {e : MadtEntry} (h : e.eligible x2apic = true) :
    counted x2apic e = true := by
  cases e with
  | lapic l => exact (Bool.and_eq_true _ _ ▸ h).2
  | x2apic x =>
    unfold MadtEntry.eligible at h
    dsimp only at h
    rw [Bool.and_assoc, Bool.and_eq_true] at h
    exact h.2
  | lapicNmi nmi => cases h
  | x2apicNmi nmi => cases h
  | other => cases h

theorem taken_eq_some {x2apic : Bool} {es : List MadtEntry} {e : MadtEntry} {info : MpInfo} :
    taken x2apic es e = some info ↔ e.eligible x2apic = true ∧ e.processor = some info ∧
      ∀ l, e = .lapic l → hasX2apic es l.lapicId = false := by
  unfold taken
  cases e with
  | lapic l => simp [and_assoc, and_comm (a := hasX2apic es l.lapicId = false)]
  | x2apic x => simp
  | lapicNmi nmi => simp
  | x2apicNmi nmi => simp
  | other => simp

theorem length_taken_le (x2apic : Bool) (es l : List MadtEntry) :
    (l.filterMap (taken x2apic es)).length ≤ l.countP (counted x2apic) := by
  rw [List.length_filterMap_eq_countP]
  refine List.countP_mono_left fun e _ he => ?_
  obtain ⟨info, hinfo⟩ := Option.isSome_iff_exists.mp he
  exact counted_of_eligible (taken_eq_some.mp hinfo).1

theorem hasX2apic_iff {es : List MadtEntry} {id : Nat} :
    hasX2apic es id = true ↔ ∃ x, .x2apic x ∈ es ∧ x.x2apicId = id ∧ madtLapicEnabled x.flags = true := by
  unfold hasX2apic
  rw [List.any_eq_true]
  constructor
  · rintro ⟨e, he, hmatch⟩
    split at hmatch
    · next x =>
      rw [Bool.and_eq_true, decide_eq_true_iff] at hmatch
      exact ⟨x, he, hmatch⟩
    · cases hmatch
  · rintro ⟨x, hx, hid, hen⟩
    exact ⟨_, hx, by simp [hid, hen]⟩

/-- An ID below the broadcast ID can be sent to in both modes. -/
theorem eligible_x2apic {x2apic : Bool} {x : MadtX2apic} (hid : x.x2apicId < 0xff)
    (hen : madtLapicEnabled x.flags = true) : (MadtEntry.x2apic x).eligible x2apic = true := by
  unfold MadtEntry.eligible
  have hne : x.x2apicId ≠ 0xffffffff := by omega
  simp [hid, hen, hne]

/-- An ID that is described is that of a processor taken. -/
theorem described_iff {x2apic : Bool} {table : List UInt8} {id : Nat} :
    Described x2apic (entries table) id ↔
      ∃ info ∈ (entries table).filterMap (taken x2apic (entries table)), info.lapicId = id := by
  constructor
  · rintro ⟨e, he, helig, info, hinfo, rfl⟩
    cases htaken : taken x2apic (entries table) e with
    | some info' =>
      have hsame := (taken_eq_some.mp htaken).2.1
      rw [hinfo] at hsame
      cases hsame
      exact ⟨info, List.mem_filterMap.mpr ⟨e, he, htaken⟩, rfl⟩
    | none =>
      -- The entry stands behind an x2APIC one of the same ID, which is taken.
      obtain ⟨l, rfl, hx2⟩ : ∃ l, e = .lapic l ∧ hasX2apic (entries table) l.lapicId = true := by
        by_contra hno
        push Not at hno
        have hsome : taken x2apic (entries table) e = some info :=
          taken_eq_some.mpr ⟨helig, hinfo, fun l hl => by simpa using hno l hl⟩
        rw [htaken] at hsome
        cases hsome
      obtain ⟨x, hx, hid, hen⟩ := hasX2apic_iff.mp hx2
      have hlt := lapicId_lt he
      have hne : l.lapicId ≠ 0xff := by
        have h := (Bool.and_eq_true _ _ ▸ helig).1
        simpa using h
      have hxelig : (MadtEntry.x2apic x).eligible x2apic = true := eligible_x2apic (by omega) hen
      cases hinfo
      refine ⟨⟨x.acpiProcessorUid, x.x2apicId⟩, List.mem_filterMap.mpr ⟨_, hx, ?_⟩, hid⟩
      exact taken_eq_some.mpr ⟨hxelig, rfl, by rintro l ⟨⟩⟩
  · rintro ⟨info, hinfo, hid⟩
    obtain ⟨e, he, htaken⟩ := List.mem_filterMap.mp hinfo
    obtain ⟨helig, hproc, -⟩ := taken_eq_some.mp htaken
    exact ⟨e, he, helig, info, hproc, hid⟩

theorem Listed.empty (boot : Boot) (ret : List MpInfo) :
    Listed boot [] { ret := ret, cpuCount := 0, lints := {}, attempts := [] } where
  nodup := List.nodup_nil
  mem c hc := hc
  bsp := rfl
  ap id _ := by simp [Bringup.cpus]
  attempted a ha := by cases ha
  outcome n a ha := by cases ha

/-- The list that `init_smp` leaves, from the processors taken from the table. -/
theorem initSmp_listed (boot : Boot) (table : List UInt8) : ∃ r s, initSmp boot table = .ok r ∧
    Listed boot ((entries table).filterMap (taken boot.x2apic (entries table))) s ∧ r.cpus = s.cpus ∧
      r.attempts = s.attempts := by
  have hroom := length_taken_le boot.x2apic (entries table) (entries table)
  unfold initSmp
  rw [countCpus_eq, ok_bind]
  split
  · next hzero =>
    rw [hzero, Nat.le_zero, List.length_eq_zero_iff] at hroom
    rw [hroom]
    exact ⟨_, _, rfl, Listed.empty boot [], rfl, rfl⟩
  · dsimp only
    rw [walkMadt_eq, forIn_yield (startCpu boot table) (fun _ _ => rfl)]
    obtain ⟨s, hrun, hlisted⟩ := (Listed.empty boot (List.replicate ((entries table).countP (counted boot.x2apic))
      { processorId := 0, lapicId := 0 })).run table (entries table) (by simpa using hroom)
    rw [hrun, ok_bind]
    split
    · next hcount =>
      have hnil : s.cpus = [] := by
        unfold Bringup.cpus
        rw [hcount, List.take_zero]
      exact ⟨_, s, rfl, hlisted, hnil.symm, rfl⟩
    · exact ⟨_, s, rfl, hlisted, rfl, rfl⟩

theorem countP_eq_one {l : List MpInfo} {id : Nat} (h : (l.map (·.lapicId)).Nodup) (hmem : id ∈ l.map (·.lapicId)) :
    l.countP (·.lapicId = id) = 1 := by
  have hcount := List.nodup_iff_count_eq_one.mp h id hmem
  rw [List.count, List.countP_map] at hcount
  rw [← hcount]
  exact List.countP_congr fun c _ => by simp

/-- The list of `init_smp`, for any table and any outcomes of the starts. -/
theorem initSmp_lists (boot : Boot) (table : List UInt8) : Ends (fun _ => False) (initSmp boot table) fun r =>
    (r.cpus.map (·.lapicId)).Nodup ∧
    (Described boot.x2apic (entries table) boot.bspLapicId → r.cpus.countP (·.lapicId = boot.bspLapicId) = 1) ∧
    (∀ id, id ≠ boot.bspLapicId → (id ∈ r.cpus.map (·.lapicId) ↔
      Described boot.x2apic (entries table) id ∧ ∃ a ∈ r.attempts, a.lapicId = id ∧ a.started = true)) ∧
    (∀ n a, r.attempts[n]? = some a → a.started = boot.startAp n) ∧
    ∀ c ∈ r.cpus,
      (∃ x, .x2apic x ∈ entries table ∧ (MadtEntry.x2apic x).eligible boot.x2apic = true ∧ x.x2apicId = c.lapicId) →
      ∃ x, .x2apic x ∈ entries table ∧ (MadtEntry.x2apic x).eligible boot.x2apic = true ∧
        x.x2apicId = c.lapicId ∧ x.acpiProcessorUid = c.processorId := by
  obtain ⟨r, s, hok, hlisted, hcpus, hattempts⟩ := initSmp_listed boot table
  rw [hok]
  apply Ends.ok
  rw [hcpus, hattempts]
  refine ⟨hlisted.nodup, fun hbsp => ?_, fun id hid => ?_, hlisted.outcome, fun c hc hx2 => ?_⟩
  · obtain ⟨info, hinfo, hid⟩ := described_iff.mp hbsp
    refine countP_eq_one hlisted.nodup ?_
    have hfound : (s.cpus.find? (·.lapicId = boot.bspLapicId)).isSome = true := by
      rw [hlisted.bsp, List.find?_isSome]
      exact ⟨info, hinfo, by simpa using hid⟩
    rw [List.find?_isSome] at hfound
    obtain ⟨c, hc, hcid⟩ := hfound
    exact List.mem_map.mpr ⟨c, hc, by simpa using hcid⟩
  · rw [hlisted.ap id hid, described_iff]
    constructor
    · rintro ⟨a, ha, rfl, hstarted⟩
      exact ⟨hlisted.attempted a ha, a, ha, rfl, hstarted⟩
    · exact And.right
  · obtain ⟨e, he, htaken⟩ := List.mem_filterMap.mp (hlisted.mem c hc)
    obtain ⟨helig, hproc, hsuper⟩ := taken_eq_some.mp htaken
    cases e with
    | x2apic x =>
      cases hproc
      exact ⟨x, he, helig, rfl, rfl⟩
    | lapic l =>
      -- An xAPIC entry is not taken besides an x2APIC one.
      obtain ⟨x, hx, hxelig, hid⟩ := hx2
      cases hproc
      have hen : madtLapicEnabled x.flags = true := (Bool.and_eq_true _ _ ▸ hxelig).2
      have hhas := hasX2apic_iff.mpr ⟨x, hx, hid, hen⟩
      rw [hsuper l rfl] at hhas
      cases hhas
    | lapicNmi nmi => cases helig
    | x2apicNmi nmi => cases helig
    | other => cases helig

/-- A header, and entries behind it. -/
def tableOf (es : List (List UInt8)) : List UInt8 := List.replicate 44 0 ++ es.flatten

/-- The boot processor has both entries; the first try at the other one fails. -/
example : initSmp { x2apic := true, bspLapicId := 4, smpConfigureApic := false, startAp := (· ≠ 0) }
    (tableOf [[0, 8, 1, 4, 1, 0, 0, 0], [9, 16, 0, 0, 4, 0, 0, 0, 1, 0, 0, 0, 7, 0, 0, 0],
      [9, 16, 0, 0, 6, 0, 0, 0, 1, 0, 0, 0, 8, 0, 0, 0], [9, 16, 0, 0, 6, 0, 0, 0, 1, 0, 0, 0, 9, 0, 0, 0]]) =
    .ok { ret := some [{ processorId := 7, lapicId := 4 }, { processorId := 9, lapicId := 6 }]
          attempts := [{ lapicId := 6, lints := {}, started := false }, { lapicId := 6, lints := {}, started := true }] } := by
  decide

end Limine.Smp
