import Limine.Smp.CpusListed
import Mathlib.Data.List.Find

/-!
# The boot processor

`init_smp` and `lapic_configure_bsp` both go by the first x2APIC entry with the boot processor's ID and,
if there is none, by the first xAPIC one.  `init_smp` looks at enabled entries only.

    entries                init_smp    lapic_configure_bsp
    0 (uid 5, id 0, off)
    0 (uid 1, id 0, on)    1           5
-/

namespace Limine.Smp
open Limine.Lib

def isX2apicOf (id : Nat) : MadtEntry → Bool
  | .x2apic x => x.x2apicId = id
  | _ => false

def isLapicOf (id : Nat) : MadtEntry → Bool
  | .lapic l => l.lapicId = id
  | _ => false

/-- The first x2APIC entry with the ID, or else the first xAPIC one. -/
def describing (es : List MadtEntry) (id : Nat) : Option MadtEntry :=
  (es.find? (isX2apicOf id)).or (es.find? (isLapicOf id))

def MadtEntry.enabled : MadtEntry → Bool
  | .lapic l => madtLapicEnabled l.flags
  | .x2apic x => madtLapicEnabled x.flags
  | _ => false

def MadtEntry.uid (e : MadtEntry) : Option Nat := e.processor.map (·.processorId)

/-- The entry that describes the ID is enabled, or says the same as the enabled one. -/
def OneIdentity (es : List MadtEntry) (id : Nat) : Prop :=
  ∀ d, describing es id = some d →
    d.enabled = true ∨ ∀ e, describing (es.filter MadtEntry.enabled) id = some e → e.uid = d.uid

/-! ## What `lapic_configure_bsp` finds -/

theorem exists_of_isX2apicOf {id : Nat} {e : MadtEntry} (h : isX2apicOf id e = true) :
    ∃ x, e = .x2apic x ∧ x.x2apicId = id := by
  cases e with
  | x2apic x => exact ⟨x, rfl, of_decide_eq_true h⟩
  | lapic l => cases h
  | lapicNmi nmi => cases h
  | x2apicNmi nmi => cases h
  | other => cases h

theorem exists_of_isLapicOf {id : Nat} {e : MadtEntry} (h : isLapicOf id e = true) :
    ∃ l, e = .lapic l ∧ l.lapicId = id := by
  cases e with
  | lapic l => exact ⟨l, rfl, of_decide_eq_true h⟩
  | x2apic x => cases h
  | lapicNmi nmi => cases h
  | x2apicNmi nmi => cases h
  | other => cases h

theorem describing_bind {α : Type} {f : MadtEntry → Option α} {es : List MadtEntry} {id : Nat}
    (hf : ∀ x, (f (.x2apic x)).isSome = true) :
    (describing es id).bind f = ((es.find? (isX2apicOf id)).bind f).or ((es.find? (isLapicOf id)).bind f) := by
  unfold describing
  cases hx : es.find? (isX2apicOf id) with
  | none => rfl
  | some e =>
    obtain ⟨x, rfl, -⟩ := exists_of_isX2apicOf (List.find?_some hx)
    obtain ⟨a, ha⟩ := Option.isSome_iff_exists.mp (hf x)
    simp [ha]

/-- An xAPIC entry counts only as long as nothing has been found. -/
theorem forIn_bspEntry (id : Nat) (es : List MadtEntry) : ∀ found, forIn es found (bspEntry id) =
    .ok ((((es.find? (isX2apicOf id)).bind MadtEntry.uid).or found).or
      ((es.find? (isLapicOf id)).bind MadtEntry.uid)) := by
  induction es with
  | nil =>
    intro found
    simp
    rfl
  | cons e es ih =>
    intro found
    rw [List.forIn_cons]
    cases e with
    | lapic l =>
      by_cases hid : l.lapicId = id
      · cases found with
        | none => simp [ih, ok_bind, bspEntry, hid, isX2apicOf, isLapicOf, MadtEntry.uid, MadtEntry.processor]
        | some uid => simp [ih, ok_bind, bspEntry, hid, isX2apicOf, isLapicOf]
      · simp [ih, ok_bind, bspEntry, hid, isX2apicOf, isLapicOf]
    | x2apic x =>
      by_cases hid : x.x2apicId = id
      · simp [ok_bind, bspEntry, hid, isX2apicOf, MadtEntry.uid, MadtEntry.processor]
        rfl
      · simp [ih, ok_bind, bspEntry, hid, isX2apicOf, isLapicOf]
    | lapicNmi nmi => simp [ih, ok_bind, bspEntry, isX2apicOf, isLapicOf]
    | x2apicNmi nmi => simp [ih, ok_bind, bspEntry, isX2apicOf, isLapicOf]
    | other => simp [ih, ok_bind, bspEntry, isX2apicOf, isLapicOf]

theorem lapicConfigureBsp_eq (table : List UInt8) (id : Nat) :
    lapicConfigureBsp table id = .ok (((describing (entries table) id).bind MadtEntry.uid).getD 0xffffffff) := by
  unfold lapicConfigureBsp
  rw [walkMadt_eq, forIn_bspEntry, Option.or_none, describing_bind fun _ => rfl, ok_bind]
  rfl

/-! ## What `init_smp` reports -/

section
variable {x2apic : Bool} {es : List MadtEntry} {id : Nat}

/-- With an enabled x2APIC entry for the ID, no xAPIC entry for it is taken. -/
theorem taken_of_x2apic (hid : id < 0xff) (hx2 : hasX2apic es id = true) (e : MadtEntry) :
    (taken x2apic es e).any (·.lapicId = id) = (e.enabled && isX2apicOf id e) := by
  cases e with
  | lapic l =>
    by_cases hl : l.lapicId = id
    · simp [taken, hl, hx2, isX2apicOf]
    · cases htaken : taken x2apic es (.lapic l) with
      | none => simp [isX2apicOf]
      | some info =>
        cases (taken_eq_some.mp htaken).2.1
        simp [hl, isX2apicOf]
  | x2apic x =>
    by_cases hx : x.x2apicId = id
    · have hne : id ≠ 0xffffffff := by omega
      by_cases hen : madtLapicEnabled x.flags = true
      · simp [taken, MadtEntry.eligible, MadtEntry.processor, MadtEntry.enabled, isX2apicOf, hx, hid, hne, hen]
      · simp [taken, MadtEntry.eligible, MadtEntry.enabled, isX2apicOf, hen]
    · cases htaken : taken x2apic es (.x2apic x) with
      | none => simp [isX2apicOf, hx]
      | some info =>
        cases (taken_eq_some.mp htaken).2.1
        simp [hx, isX2apicOf]
  | lapicNmi nmi => rfl
  | x2apicNmi nmi => rfl
  | other => rfl

theorem taken_of_no_x2apic (hid : id < 0xff) (hx2 : hasX2apic es id = false) {e : MadtEntry} (he : e ∈ es) :
    (taken x2apic es e).any (·.lapicId = id) = (e.enabled && isLapicOf id e) := by
  cases e with
  | lapic l =>
    by_cases hl : l.lapicId = id
    · have hne : id ≠ 0xff := by omega
      by_cases hen : madtLapicEnabled l.flags = true
      · simp [taken, MadtEntry.eligible, MadtEntry.processor, MadtEntry.enabled, isLapicOf, hl, hx2, hne, hen]
      · simp [taken, MadtEntry.eligible, MadtEntry.enabled, isLapicOf, hen]
    · cases htaken : taken x2apic es (.lapic l) with
      | none => simp [isLapicOf, hl]
      | some info =>
        cases (taken_eq_some.mp htaken).2.1
        simp [hl, isLapicOf]
  | x2apic x =>
    cases htaken : taken x2apic es (.x2apic x) with
    | none => simp [isLapicOf]
    | some info =>
      obtain ⟨helig, hproc, -⟩ := taken_eq_some.mp htaken
      cases hproc
      have hen : madtLapicEnabled x.flags = true := (Bool.and_eq_true _ _ ▸ helig).2
      have hx : x.x2apicId ≠ id := by
        rintro rfl
        have hhas := hasX2apic_iff.mpr ⟨x, he, rfl, hen⟩
        rw [hx2] at hhas
        cases hhas
      simp [hx, isLapicOf]
  | lapicNmi nmi => rfl
  | x2apicNmi nmi => rfl
  | other => rfl

/-- The processor that is reported is that of the enabled entry. -/
theorem find?_taken (hid : id < 0xff) :
    (es.filterMap (taken x2apic es)).find? (·.lapicId = id) =
      (describing (es.filter MadtEntry.enabled) id).bind MadtEntry.processor := by
  have hproc : ∀ {e : MadtEntry}, (taken x2apic es e).any (·.lapicId = id) = true →
      taken x2apic es e = e.processor := by
    intro e hany
    cases htaken : taken x2apic es e with
    | none =>
      rw [htaken] at hany
      cases hany
    | some info => exact (taken_eq_some.mp htaken).2.1.symm
  have hbind : ((es.find? fun e => (taken x2apic es e).any (·.lapicId = id)).bind (taken x2apic es)) =
      (es.find? fun e => (taken x2apic es e).any (·.lapicId = id)).bind MadtEntry.processor := by
    cases hfound : es.find? fun e => (taken x2apic es e).any (·.lapicId = id) with
    | none => rfl
    | some e =>
      have hany : (taken x2apic es e).any (·.lapicId = id) = true := by simpa using List.find?_some hfound
      exact hproc hany
  rw [describing_bind fun _ => rfl, List.find?_filterMap, List.find?_filter, List.find?_filter, hbind]
  cases hx2 : hasX2apic es id with
  | true =>
    rw [List.find?_congr fun e _ => taken_of_x2apic hid hx2 e]
    obtain ⟨x, hx, hxid, hen⟩ := hasX2apic_iff.mp hx2
    obtain ⟨e, he⟩ : ∃ e, es.find? (fun e => e.enabled && isX2apicOf id e) = some e := by
      rw [← Option.isSome_iff_exists, List.find?_isSome]
      exact ⟨_, hx, by simp [MadtEntry.enabled, isX2apicOf, hen, hxid]⟩
    have hfound := List.find?_some he
    rw [Bool.and_eq_true] at hfound
    obtain ⟨x', rfl, -⟩ := exists_of_isX2apicOf hfound.2
    simp [he, MadtEntry.processor]
  | false =>
    rw [List.find?_congr fun e he => taken_of_no_x2apic hid hx2 he]
    have hnone : es.find? (fun e => e.enabled && isX2apicOf id e) = none := by
      rw [List.find?_eq_none]
      intro e he hmatch
      rw [Bool.and_eq_true] at hmatch
      obtain ⟨x, rfl, hxid⟩ := exists_of_isX2apicOf hmatch.2
      have hhas := hasX2apic_iff.mpr ⟨x, he, hxid, hmatch.1⟩
      rw [hx2] at hhas
      cases hhas
    simp [hnone]

end

theorem find?_filter_of_find? {α : Type} {p q : α → Bool} {l : List α} {a : α} (h : l.find? q = some a)
    (hp : p a = true) : (l.filter p).find? q = some a := by
  obtain ⟨hq, before, after, rfl, hno⟩ := List.find?_eq_some_iff_append.mp h
  have hbefore : (before.filter p).find? q = none :=
    List.find?_eq_none.mpr fun b hb => by simpa using hno b (List.mem_of_mem_filter hb)
  rw [List.filter_append, List.find?_append, hbefore, List.filter_cons_of_pos hp, List.find?_cons_of_pos hq]
  rfl

theorem find?_filter_of_none {α : Type} {p q : α → Bool} {l : List α} (h : l.find? q = none) :
    (l.filter p).find? q = none :=
  List.find?_eq_none.mpr fun a ha => List.find?_eq_none.mp h a (List.mem_of_mem_filter ha)

/-- An entry that is enabled and comes first comes first among the enabled ones. -/
theorem describing_filter {es : List MadtEntry} {id : Nat} {d : MadtEntry} (h : describing es id = some d)
    (hen : d.enabled = true) : describing (es.filter MadtEntry.enabled) id = some d := by
  unfold describing at h ⊢
  cases hx2 : es.find? (isX2apicOf id) with
  | some x =>
    rw [hx2] at h
    cases h
    rw [find?_filter_of_find? hx2 hen]
    rfl
  | none =>
    rw [hx2] at h
    rw [find?_filter_of_none hx2, find?_filter_of_find? h hen]
    rfl

theorem exists_processor {es : List MadtEntry} {id : Nat} {d : MadtEntry} (h : describing es id = some d) :
    ∃ info, d.processor = some info := by
  unfold describing at h
  rcases Option.or_eq_some_iff.mp h with h | ⟨-, h⟩
  · obtain ⟨x, rfl, -⟩ := exists_of_isX2apicOf (List.find?_some h)
    exact ⟨_, rfl⟩
  · obtain ⟨l, rfl, -⟩ := exists_of_isLapicOf (List.find?_some h)
    exact ⟨_, rfl⟩

/-- What is described among the enabled entries is described. -/
theorem describing_isSome {es : List MadtEntry} {id : Nat} {e : MadtEntry}
    (h : describing (es.filter MadtEntry.enabled) id = some e) : ∃ d, describing es id = some d := by
  cases hd : describing es id with
  | some d => exact ⟨d, rfl⟩
  | none =>
    unfold describing at h hd
    rw [Option.or_eq_none_iff] at hd
    rw [find?_filter_of_none hd.1, find?_filter_of_none hd.2] at h
    cases h

theorem find?_of_nodup {l : List MpInfo} {c : MpInfo} (h : (l.map (·.lapicId)).Nodup) (hc : c ∈ l) :
    l.find? (·.lapicId = c.lapicId) = some c := by
  induction l with
  | nil => cases hc
  | cons d l ih =>
    rw [List.map_cons, List.nodup_cons] at h
    rcases List.mem_cons.mp hc with rfl | hc
    · simp
    · have hne : d.lapicId ≠ c.lapicId := fun heq => h.1 (heq ▸ List.mem_map_of_mem hc)
      rw [List.find?_cons_of_neg (by simpa using hne), ih h.2 hc]

/-- The boot processor has one identity where the entry that describes it is enabled, or agrees with
the one that is. -/
theorem lapicConfigureBsp_agrees (boot : Boot) (table : List UInt8) (hid : boot.bspLapicId < 0xff) :
    Ends (fun _ => False) (initSmp boot table) fun r =>
      (∀ c ∈ r.cpus, c.lapicId = boot.bspLapicId →
        lapicConfigureBsp table boot.bspLapicId = .ok c.processorId) ↔
          OneIdentity (entries table) boot.bspLapicId := by
  obtain ⟨r, s, hok, hlisted, hcpus, -⟩ := initSmp_listed boot table
  rw [hok]
  apply Ends.ok
  have hreported := hlisted.bsp.trans (find?_taken hid)
  rw [hcpus, lapicConfigureBsp_eq]
  constructor
  · intro hsame d hd
    right
    intro e he
    obtain ⟨info, hinfo⟩ := exists_processor he
    obtain ⟨info', hinfo'⟩ := exists_processor hd
    rw [he, Option.bind_some, hinfo] at hreported
    have hmatch : info.lapicId = boot.bspLapicId := by simpa using List.find?_some hreported
    have huid := Except.ok.inj (hsame info (List.mem_of_find?_eq_some hreported) hmatch)
    rw [hd, Option.bind_some] at huid
    unfold MadtEntry.uid at huid ⊢
    rw [hinfo'] at huid ⊢
    rw [hinfo, Option.map_some, Option.map_some, ← huid]
    rfl
  · intro hone c hc hcid
    have hfound := find?_of_nodup hlisted.nodup hc
    rw [hcid, hreported] at hfound
    obtain ⟨e, he, hproc⟩ := Option.bind_eq_some_iff.mp hfound
    obtain ⟨d, hd⟩ := describing_isSome he
    have huid : e.uid = d.uid := by
      rcases hone d hd with hen | hsame
      · rw [describing_filter hd hen] at he
        cases he
        rfl
      · exact hsame e he
    rw [hd, Option.bind_some, ← huid, MadtEntry.uid, hproc]
    rfl

/-! ## Two tables -/

/-- A placeholder for the ID 0, and the processor that has it. -/
def placeholderTable : List UInt8 := tableOf [[0, 8, 5, 0, 0, 0, 0, 0], [0, 8, 1, 0, 1, 0, 0, 0]]

/-- The other way round. -/
def processorFirstTable : List UInt8 := tableOf [[0, 8, 1, 0, 1, 0, 0, 0], [0, 8, 5, 0, 0, 0, 0, 0]]

def oneBoot : Boot where
  x2apic := false
  bspLapicId := 0
  smpConfigureApic := true
  startAp := fun _ => true

/-- The placeholder's UID is passed on, and not the one that is reported. -/
theorem lapicConfigureBsp_placeholder : ∃ r, initSmp oneBoot placeholderTable = .ok r ∧
    ∃ c ∈ r.cpus, c.lapicId = oneBoot.bspLapicId ∧
      lapicConfigureBsp placeholderTable oneBoot.bspLapicId ≠ .ok c.processorId := by
  refine ⟨{ ret := some [{ processorId := 1, lapicId := 0 }], attempts := [] }, by decide,
    { processorId := 1, lapicId := 0 }, by decide, rfl, ?_⟩
  decide

theorem lapicConfigureBsp_agrees_processorFirst : lapicConfigureBsp processorFirstTable 0 = .ok 1 := by
  have hagrees := lapicConfigureBsp_agrees oneBoot processorFirstTable (by decide)
  have hrun : initSmp oneBoot processorFirstTable =
      .ok { ret := some [{ processorId := 1, lapicId := 0 }], attempts := [] } := by decide
  rw [hrun] at hagrees
  refine (Iff.mpr hagrees ?_) { processorId := 1, lapicId := 0 } (by decide) rfl
  intro d hd
  have hdescribing : describing (entries processorFirstTable) 0 =
      some (.lapic { acpiProcessorUid := 1, lapicId := 0, flags := 1 }) := by decide
  have hsame := hd.symm.trans hdescribing
  cases hsame
  exact .inl (by decide)

end Limine.Smp
