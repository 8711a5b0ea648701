import Limine.Tpm.EventSize

/-!
# What `tpm_calc_event_size` returns and reads

It returns the size of an event of the format that ends at the limit or before, and otherwise 0; of
the log it reads the first event and what stands between the event and the limit.
-/

namespace Limine.Tpm

open Lib

variable {mem : ByteMemory}

/-! ## Results -/

theorem read_bind_ok_iff {α : Type} {addr n : Nat} {f : Nat → Run α} {a : α} :
    (read mem addr n >>= f).result = .ok a ↔ (f (leAt mem addr n)).result = .ok a := Iff.rfl

theorem readBytes_bind_ok_iff {α : Type} {addr n : Nat} {f : List UInt8 → Run α} {a : α} :
    (readBytes mem addr n >>= f).result = .ok a ↔ (f (mem.bytes addr n)).result = .ok a := Iff.rfl

theorem unlessZero_bind_ok_iff {α : Type} {cond : Prop} [Decidable cond] {f : Unit → Run α} {a : α} :
    (unlessZero cond >>= f).result = .ok a ↔ cond ∧ (f ()).result = .ok a := by
  unfold unlessZero
  by_cases h : cond
  · rw [if_pos h]
    exact (and_iff_right h).symm
  · rw [if_neg h]
    constructor
    · intro hfail
      cases hfail
    · intro hcond
      exact absurd hcond.1 h

theorem findAlg_result (digestSizes halg n : Nat) : ∀ j,
    (findAlg mem digestSizes halg n j).result =
      .ok (digestSizeOf ((List.range' j n).map (algAt mem digestSizes)) halg) := by
  induction n with
  | zero =>
    intro j
    rfl
  | succ n ih =>
    intro j
    unfold findAlg
    rw [List.range'_succ, List.map_cons]
    show (ite _ _ _ : Run (Option Nat)).result = _
    by_cases h : halg = leAt mem (digestSizes + 4 * j) 2
    · rw [if_pos h]
      have hmatch : decide (halg = (algAt mem digestSizes j).1) = true := decide_eq_true h
      unfold digestSizeOf
      rw [List.find?_cons, hmatch]
      rfl
    · rw [if_neg h, ih (j + 1)]
      have hmatch : decide (halg = (algAt mem digestSizes j).1) = false := decide_eq_false h
      unfold digestSizeOf
      rw [List.find?_cons, hmatch]

/-- The digests are passed just where they end at the limit or before. -/
theorem skipDigests_ok_iff {digestSizes numAlgs limit n marker stop : Nat} (h : marker ≤ limit) :
    (skipDigests mem digestSizes numAlgs limit n marker).result = .ok stop ↔
      digestsEnd mem ((List.range numAlgs).map (algAt mem digestSizes)) n marker = some stop ∧
        stop ≤ limit := by
  induction n generalizing marker with
  | zero =>
    constructor
    · rintro ⟨⟩
      exact ⟨rfl, h⟩
    · rintro ⟨⟨⟩, -⟩
      rfl
  | succ n ih =>
    unfold skipDigests digestsEnd
    rw [unlessZero_bind_ok_iff, read_bind_ok_iff, Traced.result_bind_eq_ok_iff, findAlg_result,
      ← List.range_eq_range', Option.bind_eq_some_iff]
    constructor
    · rintro ⟨h2, found, hfound, hrest⟩
      cases hfound
      cases hsize : digestSizeOf _ _ with
      | none =>
        rw [hsize] at hrest
        cases hrest
      | some size =>
        rw [hsize] at hrest
        obtain ⟨hle, hrest⟩ := unlessZero_bind_ok_iff.mp hrest
        obtain ⟨hend, hstop⟩ := (ih (by omega)).mp hrest
        exact ⟨⟨size, rfl, hend⟩, hstop⟩
    · rintro ⟨⟨size, hsize, hend⟩, hstop⟩
      have hle := digestsEnd_le hend
      refine ⟨by omega, _, rfl, ?_⟩
      rw [hsize]
      exact unlessZero_bind_ok_iff.mpr ⟨by omega, (ih (by omega)).mpr ⟨hend, hstop⟩⟩

theorem specIdNumAlgs_ok_iff {header k : Nat} :
    (specIdNumAlgs mem header).result = .ok k ↔ SpecId mem header ∧ k = leAt mem (header + 56) 4 := by
  unfold specIdNumAlgs
  rw [read_bind_ok_iff, unlessZero_bind_ok_iff, read_bind_ok_iff, unlessZero_bind_ok_iff,
    readBytes_bind_ok_iff, unlessZero_bind_ok_iff, readBytes_bind_ok_iff, unlessZero_bind_ok_iff,
    read_bind_ok_iff, unlessZero_bind_ok_iff]
  constructor
  · rintro ⟨hpcr, htype, hdigest, hsignature, hnum, ⟨⟩⟩
    exact ⟨⟨hpcr, htype, hdigest, hsignature, hnum⟩, rfl⟩
  · rintro ⟨h, rfl⟩
    exact ⟨h.pcrIndex, h.eventType, h.digest, h.signature, h.numAlgs, rfl⟩

/-- The size is that of the event as its bytes say it, when it ends at the limit or before. -/
theorem tpmCalcEventSize_ok_iff {event header limit n : Nat} (hnear : limit < event + 2 ^ 32) :
    (tpmCalcEventSize mem event header limit).result = .ok n ↔
      SpecId mem header ∧ EndsAt mem (algsOf mem header) event (event + n) ∧ event + n ≤ limit := by
  have hcount : (algsOf mem header).length = leAt mem (header + 56) 4 := by simp [algsOf]
  unfold tpmCalcEventSize
  rw [Traced.result_bind_eq_ok_iff]
  constructor
  · rintro ⟨numAlgs, hnum, hrest⟩
    obtain ⟨hspec, rfl⟩ := specIdNumAlgs_ok_iff.mp hnum
    rw [unlessZero_bind_ok_iff, read_bind_ok_iff, unlessZero_bind_ok_iff,
      Traced.result_bind_eq_ok_iff] at hrest
    obtain ⟨hhead, hle, marker, hmarker, hrest⟩ := hrest
    rw [unlessZero_bind_ok_iff, read_bind_ok_iff, unlessZero_bind_ok_iff, read_bind_ok_iff,
      unlessZero_bind_ok_iff] at hrest
    obtain ⟨h4, htrailing, hnot, hn⟩ := hrest
    obtain ⟨hend, hmarker⟩ := (skipDigests_ok_iff hhead).mp hmarker
    have hge := digestsEnd_le hend
    have hn : (marker + 4 + leAt mem marker 4 - event) % 2 ^ 32 = n := Except.ok.inj hn
    unfold sizeofEvent2Head at hge
    rw [Nat.mod_eq_of_lt (by omega)] at hn
    refine ⟨hspec, ⟨hcount ▸ hle, marker, hend, by omega, hnot⟩, by omega⟩
  · rintro ⟨hspec, ⟨hle, marker, hend, hstop, hnot⟩, hlimit⟩
    have hge := digestsEnd_le hend
    have hhead : event + sizeofEvent2Head ≤ limit := by
      unfold sizeofEvent2Head
      omega
    refine ⟨_, specIdNumAlgs_ok_iff.mpr ⟨hspec, rfl⟩, ?_⟩
    rw [unlessZero_bind_ok_iff, read_bind_ok_iff, unlessZero_bind_ok_iff,
      Traced.result_bind_eq_ok_iff]
    refine ⟨hhead, hcount ▸ hle, marker, (skipDigests_ok_iff hhead).mpr ⟨hend, by omega⟩, ?_⟩
    rw [unlessZero_bind_ok_iff, read_bind_ok_iff, unlessZero_bind_ok_iff, read_bind_ok_iff,
      unlessZero_bind_ok_iff]
    refine ⟨by omega, by omega, hnot, ?_⟩
    have hn : (marker + 4 + leAt mem marker 4 - event) % 2 ^ 32 = n := by
      rw [Nat.mod_eq_of_lt (by omega)]
      omega
    exact congrArg Except.ok hn

/-! ## Reads -/

/-- The first event up to `num_algs`, and behind it the table, once the rest has been checked. -/
def InHeader (mem : ByteMemory) (header : Nat) (a : Nat × Nat) : Prop :=
  (header ≤ a.1 ∧ a.1 + a.2 ≤ header + 60) ∨
    (SpecId mem header ∧ header + 60 ≤ a.1 ∧ a.1 + a.2 ≤ header + 60 + 4 * leAt mem (header + 56) 4)

/-- The bytes of the event before the limit. -/
def InEvent (event limit : Nat) (a : Nat × Nat) : Prop := event ≤ a.1 ∧ a.1 + a.2 ≤ limit

/-- What may be read, with nothing said of failures. -/
abbrev Reads {α : Type} (within : Nat × Nat → Prop) (post : α → Prop) (run : Run α) : Prop :=
  run.Ensures within (fun _ => True) post

variable {within : Nat × Nat → Prop}

theorem read_reads {addr n : Nat} (h : within (addr, n)) :
    Reads within (fun v => v = leAt mem addr n) (read mem addr n) := Traced.Ensures.access h rfl

theorem readBytes_reads {addr n : Nat} (h : within (addr, n)) :
    Reads within (fun v => v = mem.bytes addr n) (readBytes mem addr n) := Traced.Ensures.access h rfl

theorem unlessZero_reads {cond : Prop} [Decidable cond] :
    Reads within (fun _ => cond) (unlessZero cond) := by
  unfold unlessZero
  split
  · next h => exact Traced.Ensures.pure h
  · exact Traced.Ensures.fail trivial

theorem findAlg_reads {digestSizes halg numAlgs : Nat}
    (htable : ∀ i n, digestSizes ≤ i → i + n ≤ digestSizes + 4 * numAlgs → within (i, n)) (n : Nat) :
    ∀ j, j + n ≤ numAlgs → Reads within (fun _ => True) (findAlg mem digestSizes halg n j) := by
  induction n with
  | zero =>
    intro j _
    exact Traced.Ensures.pure trivial
  | succ n ih =>
    intro j hj
    unfold findAlg
    refine (read_reads (htable _ _ (by omega) (by omega))).bind fun algId _ => ?_
    split
    · exact (read_reads (htable _ _ (by omega) (by omega))).bind fun _ _ => Traced.Ensures.pure trivial
    · exact ih (j + 1) (by omega)

theorem skipDigests_reads {digestSizes numAlgs limit : Nat} (event : Nat)
    (htable : ∀ i n, digestSizes ≤ i → i + n ≤ digestSizes + 4 * numAlgs → within (i, n))
    (hevent : ∀ i n, event ≤ i → i + n ≤ limit → within (i, n)) (n : Nat) :
    ∀ marker, event ≤ marker → marker ≤ limit →
      Reads within (fun stop => event ≤ stop ∧ stop ≤ limit)
        (skipDigests mem digestSizes numAlgs limit n marker) := by
  induction n with
  | zero =>
    intro marker hge hle
    exact Traced.Ensures.pure ⟨hge, hle⟩
  | succ n ih =>
    intro marker hge hle
    unfold skipDigests
    refine unlessZero_reads.bind fun _ h2 => ?_
    refine (read_reads (hevent _ _ hge (by omega))).bind fun halg _ => ?_
    refine (findAlg_reads htable numAlgs 0 (by omega)).bind fun found _ => ?_
    cases found with
    | none => exact Traced.Ensures.fail trivial
    | some size =>
      refine unlessZero_reads.bind fun _ hsize => ?_
      exact ih _ (by omega) (by omega)

theorem specIdNumAlgs_reads {header : Nat}
    (hheader : ∀ i n, header ≤ i → i + n ≤ header + 60 → within (i, n)) :
    Reads within (fun k => SpecId mem header ∧ k = leAt mem (header + 56) 4)
      (specIdNumAlgs mem header) := by
  have hread : ∀ off n, off + n ≤ 60 → within (header + off, n) := fun off n h =>
    hheader _ _ (Nat.le_add_right header off) (by omega)
  unfold specIdNumAlgs
  refine (read_reads (hread 0 4 (by decide))).bind fun _ hpcr => ?_
  refine unlessZero_reads.bind fun _ hpcr0 => ?_
  refine (read_reads (hread 4 4 (by decide))).bind fun _ htype => ?_
  refine unlessZero_reads.bind fun _ htype3 => ?_
  refine (readBytes_reads (hread 8 20 (by decide))).bind fun _ hdigest => ?_
  refine unlessZero_reads.bind fun _ hdigest0 => ?_
  refine (readBytes_reads (hread 32 16 (by decide))).bind fun _ hsignature => ?_
  refine unlessZero_reads.bind fun _ hsignature0 => ?_
  refine (read_reads (hread 56 4 (by decide))).bind fun _ hnum => ?_
  refine unlessZero_reads.bind fun _ hnum16 => ?_
  refine Traced.Ensures.pure ⟨⟨?_, ?_, ?_, ?_, ?_⟩, hnum⟩
  · exact hpcr ▸ hpcr0
  · exact htype ▸ htype3
  · exact hdigest ▸ hdigest0
  · exact hsignature ▸ hsignature0
  · exact hnum ▸ hnum16

theorem tpmCalcEventSize_reads (mem : ByteMemory) (event header limit : Nat) :
    Reads (fun a => InHeader mem header a ∨ InEvent event limit a) (fun _ => True)
      (tpmCalcEventSize mem event header limit) := by
  unfold tpmCalcEventSize
  refine (specIdNumAlgs_reads fun i n h1 h2 => Or.inl (Or.inl ⟨h1, h2⟩)).bind fun numAlgs hnum => ?_
  obtain ⟨hspec, rfl⟩ := hnum
  refine unlessZero_reads.bind fun _ hhead => ?_
  unfold sizeofEvent2Head at hhead ⊢
  refine (read_reads (Or.inr ⟨by unfold offCount; omega, by unfold offCount; omega⟩)).bind fun count _ => ?_
  refine unlessZero_reads.bind fun _ _ => ?_
  refine (skipDigests_reads event (fun i n h1 h2 => Or.inl (Or.inr ⟨hspec, h1, h2⟩))
    (fun i n h1 h2 => Or.inr ⟨h1, h2⟩) count _ (by omega) hhead).bind fun marker hmarker => ?_
  refine unlessZero_reads.bind fun _ h4 => ?_
  refine (read_reads (Or.inr ⟨hmarker.1, by show marker + 4 ≤ limit; omega⟩)).bind fun trailing _ => ?_
  refine unlessZero_reads.bind fun _ _ => ?_
  refine (read_reads (Or.inr ⟨by unfold offEventType; omega, by unfold offEventType; omega⟩)).bind
    fun eventType _ => ?_
  exact unlessZero_reads.bind fun _ _ => Traced.Ensures.pure trivial

/-! ## The event -/

theorem returned_eq_iff {run : Run Nat} {n : Nat} (hn : n ≠ 0) :
    returned run = n ↔ run.result = .ok n := by
  unfold returned
  cases run.result with
  | ok k => simp
  | error e => simp [hn.symm]

/-- Only the first event and bytes before the limit are read, the size that is returned ends there,
and it is returned exactly for the events of the format. -/
theorem tpmCalcEventSize_measures (mem : ByteMemory) (event header limit : Nat)
    (hnear : limit < event + 2 ^ 32) :
    (∀ a ∈ (tpmCalcEventSize mem event header limit).log,
      InHeader mem header a ∨ InEvent event limit a) ∧
    (returned (tpmCalcEventSize mem event header limit) = 0 ∨
      event + returned (tpmCalcEventSize mem event header limit) ≤ limit) ∧
    (SpecId mem header → Distinct (algsOf mem header) → ∀ n, n ≠ 0 →
      (returned (tpmCalcEventSize mem event header limit) = n ↔
        event + n ≤ limit ∧ ∃ e : Event2, mem.bytes event n = e.encode ∧ e.Fits (algsOf mem header))) := by
  refine ⟨(tpmCalcEventSize_reads mem event header limit).1, ?_, ?_⟩
  · by_cases hzero : returned (tpmCalcEventSize mem event header limit) = 0
    · exact Or.inl hzero
    · exact Or.inr ((tpmCalcEventSize_ok_iff hnear).mp ((returned_eq_iff hzero).mp rfl)).2.2
  · intro hspec hdistinct n hn
    have hcount : (algsOf mem header).length < 2 ^ 32 := by
      have : leAt mem (header + 56) 4 < 2 ^ 32 := leAt_lt mem (header + 56) 4
      simpa [algsOf] using this
    rw [returned_eq_iff hn, tpmCalcEventSize_ok_iff hnear, endsAt_iff hdistinct hcount]
    constructor
    · rintro ⟨-, he, hle⟩
      exact ⟨hle, he⟩
    · rintro ⟨hle, he⟩
      exact ⟨hspec, he, hle⟩

/-- A log with one algorithm, of digests of 4 bytes, and an event of one byte at 64. -/
def smallLog : ByteMemory := fun i =>
  ([0, 0, 0, 0, 3, 0, 0, 0] ++ List.replicate 20 0 ++ [32, 0, 0, 0] ++ TCG_SPECID_SIG ++
    [0, 0, 0, 0, 0, 2, 0, 2, 1, 0, 0, 0, 11, 0, 4, 0] ++
    [4, 0, 0, 0, 13, 0, 0, 0, 1, 0, 0, 0, 11, 0, 222, 173, 190, 239, 1, 0, 0, 0, 65]).getD i 0

theorem tpmCalcEventSize_measures_smallLog : returned (tpmCalcEventSize smallLog 64 0 87) = 23 := by
  have hspec : SpecId smallLog 0 := by
    refine ⟨?_, ?_, ?_, ?_, ?_⟩
    all_goals decide
  have hdistinct : Distinct (algsOf smallLog 0) := by
    unfold Distinct
    decide
  refine ((tpmCalcEventSize_measures smallLog 64 0 87 (by decide)).2.2 hspec hdistinct 23
    (by decide)).mpr ⟨by decide, ⟨4, 13, [(11, [222, 173, 190, 239])], [65], by decide⟩, by decide, ?_⟩
  refine ⟨by decide, ?_, by decide⟩
  intro digest hdigest
  rw [List.mem_singleton.mp hdigest]
  decide

end Limine.Tpm
