import Limine.Multiboot.Relocate

/-!
# The search for a place

The search looks at the candidates of the window in the order of preference, one after the other.
-/

namespace Limine.Multiboot

open Limine.Lib Limine.Loader Limine.Pmm

/-! ## Candidates -/

section
variable (uefi : Bool) (m : Memmap) (tag : RelocTag) (length : Nat)

def Candidate (b : Nat) : Prop := tag.align ∣ b ∧ tag.minAddr ≤ b ∧ b + length ≤ tag.maxAddr

instance (b : Nat) : Decidable (Candidate tag length b) := inferInstanceAs (Decidable (_ ∧ _))

/-- The candidates, those that are preferred first. -/
def candidates : List Nat :=
  let up := (List.range (tag.maxAddr + 1)).filter fun b => decide (Candidate tag length b)
  if tag.preference = 2 then up.reverse else up

/-- `b'` comes before `b` in the order of preference. -/
def Earlier (b' b : Nat) : Prop := if tag.preference = 2 then b < b' else b' < b

/-- A place where the executable may go. -/
structure Viable (b : Nat) : Prop where
  candidate : Candidate tag length b
  ram : InRam uefi m b (b + length)
  clear : ClearOfLoader m b (b + length)

/-- What is asked of the search. -/
structure Searched (r : Option Nat) : Prop where
  found : ∀ b, r = some b → Viable uefi m tag length b ∧ ∀ b', Viable uefi m tag length b' → ¬Earlier tag b' b
  failed : r = none → (∀ b, ¬Viable uefi m tag length b) ∨
    ∃ front, front <+: candidates tag length ∧ 0x100000 < front.length ∧ ∀ b ∈ front, ¬Viable uefi m tag length b

end

/-- The first `n` values of a chain. -/
def chain (next : Nat → Option Nat) : Nat → Option Nat → List Nat
  | 0, _ => []
  | _ + 1, none => []
  | n + 1, some b => b :: chain next n (next b)

/-- A chain that runs through a list. -/
theorem chain_map {next : Nat → Option Nat} {f : Nat → Nat} {count : Nat}
    (hnext : ∀ k < count, next (f k) = if k + 1 < count then some (f (k + 1)) else none) : ∀ n k, k < count →
    chain next n (some (f k)) = (((List.range count).map f).drop k).take n := by
  intro n
  induction n with
  | zero =>
    intro k _
    rfl
  | succ n ih =>
    intro k hk
    have hdrop : ((List.range count).map f).drop k = f k :: ((List.range count).map f).drop (k + 1) := by
      rw [List.drop_eq_getElem_cons (by simpa using hk)]
      simp
    rw [hdrop, List.take_succ_cons, chain, hnext k hk]
    split
    · next hlt => rw [ih (k + 1) hlt]
    · next hge =>
      rw [List.drop_of_length_le (by simp; omega)]
      cases n <;> rfl

section
variable {uefi : Bool} {m : Memmap} {tag : RelocTag} {length : Nat}

/-- The candidate after `b`. -/
def nextCandidate (tag : RelocTag) (length : Nat) (ascend : Bool) (b : Nat) : Option Nat :=
  if ascend then if b + tag.align + length ≤ tag.maxAddr then some (b + tag.align) else none
  else if b - tag.minAddr < tag.align then none
  else some (b - tag.align)

theorem Candidate.next {ascend : Bool} {b b' : Nat} (h : Candidate tag length b)
    (hnext : nextCandidate tag length ascend b = some b') : Candidate tag length b' := by
  obtain ⟨hdvd, hmin, hmax⟩ := h
  unfold nextCandidate at hnext
  cases ascend with
  | true =>
    simp only [if_true, Option.ite_none_right_eq_some, Option.some.injEq] at hnext
    obtain ⟨hle, rfl⟩ := hnext
    exact ⟨Nat.dvd_add hdvd (Nat.dvd_refl _), by omega, hle⟩
  | false =>
    simp only [Bool.false_eq_true, if_false, Option.ite_none_left_eq_some, Option.some.injEq] at hnext
    obtain ⟨hge, rfl⟩ := hnext
    exact ⟨Nat.dvd_sub hdvd (Nat.dvd_refl _), by omega, by omega⟩

/-- One turn of the loop; nothing overflows in it. -/
theorem relocLoop_succ {ascend : Bool} {b : Nat} (hb : Candidate tag length b) (fuel tries : Nat) :
    relocLoop uefi m tag length ascend (fuel + 1) tries b =
      if accepts uefi m b (b + length) then .ok (some b)
      else if tries + 1 > 0x100000 then .ok none
      else match nextCandidate tag length ascend b with
        | none => .ok none
        | some b' => relocLoop uefi m tag length ascend fuel (tries + 1) b' := by
  obtain ⟨-, hmin, hle⟩ := hb
  have hmax := tag.maxAddr_lt
  have halign := tag.align_lt
  have htop : checkedAdd b length = some (b + length) := checkedAdd_eq_some (by omega)
  have hadd : add64 b tag.align = b + tag.align := add64_eq (by omega)
  have hadds : checkedAdd (b + tag.align) length = some (b + tag.align + length) := checkedAdd_eq_some (by omega)
  have hsub : sub64 b tag.minAddr = b - tag.minAddr := sub64_eq hmin (by omega)
  rw [relocLoop, htop]
  dsimp only
  rw [hadd, hadds, hsub, nextCandidate]
  cases ascend with
  | true =>
    simp only [if_true]
    by_cases hfits : b + tag.align + length ≤ tag.maxAddr
    · rw [if_pos hfits, if_neg (Nat.not_lt.mpr hfits)]
    · rw [if_neg hfits, if_pos (Nat.not_le.mp hfits)]
  | false =>
    simp only [Bool.false_eq_true, if_false]
    by_cases hlow : b - tag.minAddr < tag.align
    · rw [if_pos hlow, if_pos hlow]
    · rw [if_neg hlow, if_neg hlow, sub64_eq (by omega) (by omega)]

/-- What the search asks of a candidate. -/
def acceptsAt (uefi : Bool) (m : Memmap) (length b : Nat) : Bool := accepts uefi m b (b + length)

/-- The loop takes the first value of the chain that it accepts. -/
theorem relocLoop_eq {ascend : Bool} : ∀ (n tries b : Nat), tries + (n + 1) = 0x100001 → Candidate tag length b →
    relocLoop uefi m tag length ascend (n + 1) tries b =
      .ok ((chain (nextCandidate tag length ascend) (n + 1) (some b)).find? (acceptsAt uefi m length)) := by
  intro n
  induction n with
  | zero =>
    intro tries b htries hb
    rw [relocLoop_succ hb, chain]
    split
    · next haccepts => rw [List.find?_cons_of_pos (p := acceptsAt uefi m length) haccepts]
    · next hrefused =>
      rw [if_pos (by omega), List.find?_cons_of_neg (p := acceptsAt uefi m length) hrefused]
      rfl
  | succ n ih =>
    intro tries b htries hb
    rw [relocLoop_succ hb, chain]
    split
    · next haccepts => rw [List.find?_cons_of_pos (p := acceptsAt uefi m length) haccepts]
    · next hrefused =>
      rw [if_neg (by omega), List.find?_cons_of_neg (p := acceptsAt uefi m length) hrefused]
      cases hnext : nextCandidate tag length ascend b with
      | none => rfl
      | some b' => exact ih (tries + 1) b' (by omega) (hb.next hnext)

/-! ## The first candidate -/

/-- The lowest multiple of `align` from `min_addr` on. -/
def lowest (tag : RelocTag) : Nat := (tag.minAddr + (tag.align - 1)) / tag.align * tag.align

/-- The highest one at which the executable ends in the window. -/
def highest (tag : RelocTag) (length : Nat) : Nat := (tag.maxAddr - length) / tag.align * tag.align

theorem lowest_dvd (tag : RelocTag) : tag.align ∣ lowest tag := Nat.dvd_mul_left _ _

theorem highest_dvd (tag : RelocTag) (length : Nat) : tag.align ∣ highest tag length := Nat.dvd_mul_left _ _

theorem le_lowest (tag : RelocTag) (halign : 1 ≤ tag.align) : tag.minAddr ≤ lowest tag := by
  unfold lowest
  have hmod := Nat.div_add_mod' (tag.minAddr + (tag.align - 1)) tag.align
  have hlt := Nat.mod_lt (tag.minAddr + (tag.align - 1)) halign
  omega

theorem lowest_le_of_dvd {b : Nat} (halign : 1 ≤ tag.align) (hdvd : tag.align ∣ b) (hmin : tag.minAddr ≤ b) :
    lowest tag ≤ b := by
  obtain ⟨k, rfl⟩ := hdvd
  unfold lowest
  rw [Nat.mul_comm tag.align k]
  refine Nat.mul_le_mul_right _ ?_
  rw [← Nat.lt_succ_iff, Nat.div_lt_iff_lt_mul halign, Nat.succ_mul, Nat.mul_comm k]
  omega

theorem highest_le (tag : RelocTag) (length : Nat) : highest tag length ≤ tag.maxAddr - length :=
  Nat.div_mul_le_self _ _

theorem le_highest_of_dvd {b : Nat} (halign : 1 ≤ tag.align) (hdvd : tag.align ∣ b)
    (hmax : b + length ≤ tag.maxAddr) : b ≤ highest tag length := by
  obtain ⟨k, rfl⟩ := hdvd
  unfold highest
  rw [Nat.mul_comm tag.align k]
  refine Nat.mul_le_mul_right _ ?_
  rw [Nat.le_div_iff_mul_le halign, Nat.mul_comm]
  omega

/-- The candidates upwards. -/
theorem candidates_up (halign : 1 ≤ tag.align) (hup : tag.preference ≠ 2) {count : Nat}
    (hcount : ∀ k, k < count ↔ lowest tag + k * tag.align + length ≤ tag.maxAddr) :
    candidates tag length = (List.range count).map fun k => lowest tag + k * tag.align := by
  unfold candidates
  rw [if_neg hup]
  refine List.Pairwise.eq_of_mem_iff (r := (· < ·)) (List.pairwise_lt_range.filter _) ?_ fun b => ?_
  · refine List.pairwise_map.mpr (List.pairwise_lt_range.imp fun {i j} hij => ?_)
    have hmul := Nat.mul_lt_mul_of_pos_right hij halign
    omega
  · rw [List.mem_filter, List.mem_range, decide_eq_true_eq, List.mem_map]
    constructor
    · rintro ⟨-, hdvd, hmin, hmax⟩
      have hle := lowest_le_of_dvd halign hdvd hmin
      obtain ⟨k, hk⟩ := Nat.dvd_sub hdvd (lowest_dvd tag)
      rw [Nat.mul_comm] at hk
      exact ⟨k, List.mem_range.mpr ((hcount k).mpr (by omega)), by omega⟩
    · rintro ⟨k, hk, rfl⟩
      have hmax := (hcount k).mp (List.mem_range.mp hk)
      have hmin := le_lowest tag halign
      exact ⟨by omega, Nat.dvd_add (lowest_dvd tag) (Nat.dvd_mul_left _ _), by omega, hmax⟩

/-- The candidates downwards. -/
theorem candidates_down (halign : 1 ≤ tag.align) (hdown : tag.preference = 2) (hlength : length ≤ tag.maxAddr)
    {count : Nat} (hcount : ∀ k, k < count ↔ tag.minAddr + k * tag.align ≤ highest tag length) :
    candidates tag length = (List.range count).map fun k => highest tag length - k * tag.align := by
  unfold candidates
  rw [if_pos hdown]
  refine List.Pairwise.eq_of_mem_iff (r := (· > ·)) ?_ ?_ fun b => ?_
  · exact List.pairwise_reverse.mpr (List.pairwise_lt_range.filter _)
  · refine List.pairwise_map.mpr (List.Pairwise.imp_of_mem (fun {i j} hi hj hij => ?_) List.pairwise_lt_range)
    have hmul := Nat.mul_lt_mul_of_pos_right hij halign
    have hle := (hcount j).mp (List.mem_range.mp hj)
    omega
  · rw [List.mem_reverse, List.mem_filter, List.mem_range, decide_eq_true_eq, List.mem_map]
    constructor
    · rintro ⟨-, hdvd, hmin, hmax⟩
      have hle := le_highest_of_dvd halign hdvd hmax
      obtain ⟨k, hk⟩ := Nat.dvd_sub (highest_dvd tag length) hdvd
      rw [Nat.mul_comm] at hk
      exact ⟨k, List.mem_range.mpr ((hcount k).mpr (by omega)), by omega⟩
    · rintro ⟨k, hk, rfl⟩
      have hmin := (hcount k).mp (List.mem_range.mp hk)
      have hmax := highest_le tag length
      exact ⟨by omega, Nat.dvd_sub (highest_dvd tag length) (Nat.dvd_mul_left _ _), by omega, by omega⟩

theorem mem_candidates {b : Nat} : b ∈ candidates tag length ↔ Candidate tag length b := by
  have hup : b ∈ (List.range (tag.maxAddr + 1)).filter (fun b => decide (Candidate tag length b)) ↔
      Candidate tag length b := by
    rw [List.mem_filter, List.mem_range, decide_eq_true_eq]
    refine ⟨And.right, fun hb => ⟨?_, hb⟩⟩
    have hmax := hb.2.2
    omega
  unfold candidates
  split
  · rw [List.mem_reverse]
    exact hup
  · exact hup

theorem candidates_eq_nil (h : ∀ b, ¬Candidate tag length b) : candidates tag length = [] :=
  List.eq_nil_iff_forall_not_mem.mpr fun b hb => h b (mem_candidates.mp hb)

theorem candidates_pairwise (tag : RelocTag) (length : Nat) : (candidates tag length).Pairwise (Earlier tag) := by
  have hup : ((List.range (tag.maxAddr + 1)).filter fun b => decide (Candidate tag length b)).Pairwise (· < ·) :=
    List.pairwise_lt_range.filter _
  unfold candidates Earlier
  split
  · exact List.pairwise_reverse.mpr hup
  · exact hup

/-- The loop goes through candidates that are the values of `f`. -/
theorem relocLoop_candidates (uefi : Bool) (m : Memmap) (ascend : Bool) {f : Nat → Nat} {count : Nat}
    (hpos : 0 < count) (hcandidates : candidates tag length = (List.range count).map f)
    (hnext : ∀ k < count, nextCandidate tag length ascend (f k) = if k + 1 < count then some (f (k + 1)) else none) :
    relocLoop uefi m tag length ascend 0x100001 0 (f 0) =
      .ok (((candidates tag length).take 0x100001).find? (acceptsAt uefi m length)) := by
  have hfirst : Candidate tag length (f 0) := by
    rw [← mem_candidates, hcandidates]
    exact List.mem_map_of_mem (List.mem_range.mpr hpos)
  have hchain := chain_map hnext 0x100001 0 hpos
  rw [List.drop_zero, ← hcandidates] at hchain
  rw [← hchain]
  exact relocLoop_eq 0x100000 0 (f 0) rfl hfirst

/-- Where rounding `min_addr` up does not overflow, the search takes the first of the first 0x100001
candidates that it accepts. -/
theorem relocSearch_eq (halign : 1 ≤ tag.align)
    (hrounds : tag.preference = 2 ∨ tag.minAddr + (tag.align - 1) < 2 ^ 32) : relocSearch uefi m tag length =
      .ok (((candidates tag length).take 0x100001).find? (acceptsAt uefi m length)) := by
  have hnone : (∀ b, ¬Candidate tag length b) → (Except.ok none : Exec (Option Nat)) =
      .ok (((candidates tag length).take 0x100001).find? (acceptsAt uefi m length)) := by
    intro hno
    rw [candidates_eq_nil hno, List.take_nil]
    rfl
  unfold relocSearch
  rw [if_neg (by omega)]
  by_cases hdown : tag.preference = 2
  · rw [if_pos hdown]
    split
    · next hlong =>
      refine hnone fun b hb => ?_
      have hmax := hb.2.2
      omega
    · next hlength =>
      have hbase : alignDown (tag.maxAddr - length) tag.align = highest tag length := rfl
      dsimp only
      rw [hbase]
      split
      · next hlow =>
        refine hnone fun b hb => ?_
        have hle := le_highest_of_dvd halign hb.1 hb.2.2
        have hmin := hb.2.1
        omega
      · next hmin =>
        have hcount : ∀ k, k < (highest tag length - tag.minAddr) / tag.align + 1 ↔
            tag.minAddr + k * tag.align ≤ highest tag length := by
          intro k
          rw [Nat.lt_succ_iff, Nat.le_div_iff_mul_le halign]
          omega
        have hloop := relocLoop_candidates uefi m false
          (f := fun k => highest tag length - k * tag.align) (Nat.succ_pos _)
          (candidates_down halign hdown (Nat.le_of_not_lt hlength) hcount) ?_
        · rwa [Nat.zero_mul, Nat.sub_zero] at hloop
        · intro k hk
          have hle := (hcount k).mp hk
          have hsucc := hcount (k + 1)
          rw [Nat.succ_mul] at hsucc
          unfold nextCandidate
          rw [if_neg Bool.false_ne_true, Nat.succ_mul]
          by_cases hmore : k + 1 < (highest tag length - tag.minAddr) / tag.align + 1
          · have hmore' := hsucc.mp hmore
            rw [if_pos hmore, if_neg (by omega), Nat.sub_sub]
          · rw [if_neg hmore, if_pos (by omega)]
  · have hround : alignUp32 tag.minAddr tag.align = some (lowest tag) := if_pos (hrounds.resolve_left hdown)
    rw [if_neg hdown, hround]
    dsimp only
    by_cases hfits : lowest tag + length ≤ tag.maxAddr
    · have hmax := tag.maxAddr_lt
      rw [checkedAdd_eq_some (by omega)]
      dsimp only
      rw [if_neg (Nat.not_lt.mpr hfits)]
      have hcount : ∀ k, k < (tag.maxAddr - length - lowest tag) / tag.align + 1 ↔
          lowest tag + k * tag.align + length ≤ tag.maxAddr := by
        intro k
        rw [Nat.lt_succ_iff, Nat.le_div_iff_mul_le halign]
        omega
      have hloop := relocLoop_candidates uefi m true
        (f := fun k => lowest tag + k * tag.align) (Nat.succ_pos _) (candidates_up halign hdown hcount) ?_
      · rwa [Nat.zero_mul, Nat.add_zero] at hloop
      · intro k hk
        have hsucc := hcount (k + 1)
        unfold nextCandidate
        rw [if_pos rfl, Nat.add_assoc (lowest tag), ← Nat.succ_mul]
        by_cases hmore : k + 1 < (tag.maxAddr - length - lowest tag) / tag.align + 1
        · rw [if_pos hmore, if_pos (hsucc.mp hmore)]
        · rw [if_neg hmore, if_neg fun hle => hmore (hsucc.mpr hle)]
    · have hempty := hnone fun b hb => hfits (by
        have hle := lowest_le_of_dvd halign hb.1 hb.2.1
        have hmax := hb.2.2
        omega)
      rw [← hempty]
      split
      · rfl
      · next top htop =>
        obtain ⟨-, rfl⟩ := checkedAdd_eq_some_iff.mp htop
        rw [if_pos (Nat.not_le.mp hfits)]

/-! ## What is found -/

theorem exists_first {α : Type} {p : α → Prop} {l : List α} {x : α} (hx : x ∈ l) (hp : p x) :
    ∃ front y back, l = front ++ y :: back ∧ p y ∧ ∀ z ∈ front, ¬p z := by
  induction l with
  | nil => cases hx
  | cons y l ih =>
    by_cases hy : p y
    · exact ⟨[], y, l, rfl, hy, by simp⟩
    · have hx' : x ∈ l := (List.mem_cons.mp hx).resolve_left fun hxy => hy (hxy ▸ hp)
      obtain ⟨front, z, back, rfl, hz, hfront⟩ := ih hx'
      refine ⟨y :: front, z, back, rfl, hz, fun w hw => ?_⟩
      rcases List.mem_cons.mp hw with rfl | hw
      · exact hy
      · exact hfront w hw

/-- When the search does what is asked of it. -/
structure Reaches (uefi : Bool) (m : Memmap) (tag : RelocTag) (length : Nat) : Prop where
  rounds : tag.preference = 2 ∨ tag.minAddr + (tag.align - 1) < 2 ^ 32 ∨ ¬Viable uefi m tag length (lowest tag)
  ordinary : ∀ front b back, candidates tag length = front ++ b :: back → front.length ≤ 0x100000 →
    Viable uefi m tag length b → (∀ b' ∈ front, ¬Viable uefi m tag length b') → Ordinary uefi m b (b + length)

/-- In a map as the loader keeps it every place is ordinary. -/
theorem Ordinary.of_wellFormed {base top : Nat} (hram : InRam uefi m base top) (hno : ∀ e ∈ m, e.NoOverflow)
    (hempty : ∀ e ∈ m, e.length ≠ 0) : Ordinary uefi m base top := by
  refine ⟨fun a hlow hhigh => ?_, fun e he _ hzero => absurd hzero (hempty e he)⟩
  obtain ⟨e, he, htype, hin⟩ := hram a hlow hhigh
  exact ⟨e, he, lowRam_iff.mpr ⟨htype, hno e he⟩, hin⟩

theorem acceptsAt_iff (hm : RamDisjoint uefi m) (hlength : 0 < length) {b : Nat} (hb : Candidate tag length b) :
    acceptsAt uefi m length b = true ↔ Viable uefi m tag length b ∧ Ordinary uefi m b (b + length) := by
  have hmax := tag.maxAddr_lt
  have hle := hb.2.2
  unfold acceptsAt
  rw [accepts_iff hm (by omega) (by omega)]
  constructor
  · rintro ⟨⟨hram, hclear⟩, hordinary⟩
    exact ⟨⟨hb, hram, hclear⟩, hordinary⟩
  · rintro ⟨hviable, hordinary⟩
    exact ⟨⟨hviable.ram, hviable.clear⟩, hordinary⟩

/-- Candidates from there on are not earlier. -/
theorem not_earlier_of_split {front back : List Nat} {b b' : Nat} (hsplit : candidates tag length = front ++ b :: back)
    (hb' : b' ∈ b :: back) : ¬Earlier tag b' b := by
  have hirrefl : ∀ {x y : Nat}, Earlier tag x y → ¬Earlier tag y x := by
    intro x y
    unfold Earlier
    split <;> omega
  have hpairs := candidates_pairwise tag length
  rw [hsplit, List.pairwise_append] at hpairs
  rcases List.mem_cons.mp hb' with rfl | hback
  · exact fun h => hirrefl h h
  · exact hirrefl ((List.pairwise_cons.mp hpairs.2.1).1 b' hback)

/-- The first viable candidate is accepted, where it is looked at. -/
theorem Reaches.acceptsAt_first (h : Reaches uefi m tag length) (hm : RamDisjoint uefi m) (hlength : 0 < length)
    {front back : List Nat} (hsplit : candidates tag length = front ++ back) (hfront : front.length ≤ 0x100001)
    {b : Nat} (hb : b ∈ front) (hviable : Viable uefi m tag length b) :
    ∃ b' ∈ front, acceptsAt uefi m length b' = true := by
  obtain ⟨before, first, after, rfl, hfirst, hbefore⟩ := exists_first hb hviable
  rw [List.append_assoc, List.cons_append] at hsplit
  rw [List.length_append, List.length_cons] at hfront
  refine ⟨first, by simp, (acceptsAt_iff hm hlength hfirst.candidate).mpr ⟨hfirst, ?_⟩⟩
  exact h.ordinary before first _ hsplit (by omega) hfirst hbefore

theorem searched_of_reaches (h : Reaches uefi m tag length) (hm : RamDisjoint uefi m) (hlength : 0 < length) :
    Searched uefi m tag length (((candidates tag length).take 0x100001).find? (acceptsAt uefi m length)) := by
  have hwhole := List.take_append_drop 0x100001 (candidates tag length)
  have htake : ((candidates tag length).take 0x100001).length ≤ 0x100001 := List.length_take_le _ _
  constructor
  · intro b hfound
    obtain ⟨haccepts, before, after, hsplit, hbefore⟩ := List.find?_eq_some_iff_append.mp hfound
    rw [hsplit, List.append_assoc, List.cons_append] at hwhole
    have hb : Candidate tag length b := by
      rw [← mem_candidates, ← hwhole]
      simp
    refine ⟨((acceptsAt_iff hm hlength hb).mp haccepts).1, fun b' hviable hearlier => ?_⟩
    have hb' : b' ∈ before ++ b :: (after ++ (candidates tag length).drop 0x100001) := by
      rw [hwhole]
      exact mem_candidates.mpr hviable.candidate
    rcases List.mem_append.mp hb' with hin | hlater
    · rw [hsplit, List.length_append, List.length_cons] at htake
      obtain ⟨b'', hb'', haccepts'⟩ := h.acceptsAt_first hm hlength hwhole.symm (by omega) hin hviable
      have hrefused := hbefore b'' hb''
      rw [haccepts'] at hrefused
      cases hrefused
    · exact not_earlier_of_split hwhole.symm hlater hearlier
  · intro hnone
    rw [List.find?_eq_none] at hnone
    have hno : ∀ b ∈ (candidates tag length).take 0x100001, ¬Viable uefi m tag length b := by
      intro b hb hviable
      obtain ⟨b', hb', haccepts⟩ := h.acceptsAt_first hm hlength hwhole.symm htake hb hviable
      exact hnone b' hb' haccepts
    by_cases hlong : 0x100001 ≤ (candidates tag length).length
    · refine Or.inr ⟨_, List.take_prefix _ _, ?_, hno⟩
      rw [List.length_take]
      omega
    · rw [List.take_of_length_le (by omega)] at hno
      exact Or.inl fun b hviable => hno b (mem_candidates.mpr hviable.candidate) hviable

theorem ordinary_of_searched (hm : RamDisjoint uefi m) (hlength : 0 < length)
    (hsearched : Searched uefi m tag length
      (((candidates tag length).take 0x100001).find? (acceptsAt uefi m length)))
    {front back : List Nat} {b : Nat} (hsplit : candidates tag length = front ++ b :: back)
    (hfront : front.length ≤ 0x100000) (hviable : Viable uefi m tag length b)
    (hno : ∀ b' ∈ front, ¬Viable uefi m tag length b') : Ordinary uefi m b (b + length) := by
  cases hfind : ((candidates tag length).take 0x100001).find? (acceptsAt uefi m length) with
  | none =>
    exfalso
    rcases hsearched.failed hfind with hnone | ⟨rejected, hhead, hlong, hrejected⟩
    · exact hnone b hviable
    · have hfirst : front ++ [b] <+: candidates tag length := ⟨back, by rw [hsplit, List.append_assoc]; rfl⟩
      have hsub := List.prefix_of_prefix_length_le hfirst hhead (by simp; omega)
      exact hrejected b (hsub.subset (by simp)) hviable
  | some b₀ =>
    obtain ⟨hviable₀, hfirst⟩ := hsearched.found b₀ hfind
    have haccepts := List.find?_some hfind
    have hordinary := ((acceptsAt_iff hm hlength hviable₀.candidate).mp haccepts).2
    have hmem : b₀ ∈ front ++ b :: back := by
      rw [← hsplit]
      exact mem_candidates.mpr hviable₀.candidate
    have hsame : b₀ = b := by
      rcases List.mem_append.mp hmem with hin | hin
      · exact absurd hviable₀ (hno b₀ hin)
      · rcases List.mem_cons.mp hin with hsame | hback
        · exact hsame
        · have hpairs := candidates_pairwise tag length
          rw [hsplit, List.pairwise_append] at hpairs
          exact absurd ((List.pairwise_cons.mp hpairs.2.1).1 b₀ hback) (hfirst b hviable)
    rwa [hsame] at hordinary

/-- The search ends, and does what is asked of it where it meets no entry that it misjudges and where
rounding `min_addr` up does not overflow, and only there. -/
theorem relocSearch_searched_iff (hm : RamDisjoint uefi m) (halign : 1 ≤ tag.align) (hlength : 0 < length) :
    ∃ r, relocSearch uefi m tag length = .ok r ∧
      (Searched uefi m tag length r ↔ Reaches uefi m tag length) := by
  by_cases hrounds : tag.preference = 2 ∨ tag.minAddr + (tag.align - 1) < 2 ^ 32
  · refine ⟨_, relocSearch_eq halign hrounds, fun hsearched => ?_, fun h => searched_of_reaches h hm hlength⟩
    exact ⟨hrounds.imp_right Or.inl,
      fun front b back hsplit hfront hviable hno => ordinary_of_searched hm hlength hsearched hsplit hfront hviable hno⟩
  · obtain ⟨hup, hwraps⟩ := not_or.mp hrounds
    have hround : alignUp32 tag.minAddr tag.align = none := if_neg hwraps
    have hrun : relocSearch uefi m tag length = .ok none := by
      unfold relocSearch
      rw [if_neg (by omega), if_neg hup, hround]
    -- the window has room for one multiple of `align` at most
    have honly : ∀ b, Candidate tag length b → b = lowest tag := by
      intro b hb
      have hle := lowest_le_of_dvd halign hb.1 hb.2.1
      have hmin := le_lowest tag halign
      have hmax := tag.maxAddr_lt
      have htop := hb.2.2
      obtain ⟨k, hk⟩ := Nat.dvd_sub hb.1 (lowest_dvd tag)
      cases k with
      | zero => omega
      | succ k =>
        rw [Nat.mul_succ] at hk
        omega
    have hnone : ∀ b, ¬Viable uefi m tag length (lowest tag) → ¬Viable uefi m tag length b := by
      intro b hno hviable
      rw [honly b hviable.candidate] at hviable
      exact hno hviable
    refine ⟨none, hrun, fun hsearched => ?_, fun h => ?_⟩
    · have hlowest : ¬Viable uefi m tag length (lowest tag) := by
        rcases hsearched.failed rfl with hno | ⟨rejected, hhead, hlong, hrejected⟩
        · exact hno _
        · cases rejected with
          | nil => exact absurd hlong (by decide)
          | cons b rejected =>
            have hb : Candidate tag length b := mem_candidates.mp (hhead.subset (by simp))
            rw [← honly b hb]
            exact hrejected b (by simp)
      exact ⟨Or.inr (Or.inr hlowest), fun front b back _ _ hviable _ => absurd hviable (hnone b hlowest)⟩
    · refine ⟨fun b hb => (nomatch hb), fun _ => Or.inl fun b => hnone b ?_⟩
      exact (h.rounds.resolve_left hup).resolve_left hwraps

/-- Where the search has put the executable, only its entry point is refused. -/
theorem checkTarget_found (halign : 1 ≤ tag.align) {b : Nat} (h : relocSearch uefi m tag length = .ok (some b))
    {entryPoint : Nat} (hentry : b ≤ entryPoint ∧ entryPoint < b + length) :
    checkTarget uefi m b length entryPoint = .ok () := by
  have hrounds : tag.preference = 2 ∨ tag.minAddr + (tag.align - 1) < 2 ^ 32 := by
    by_cases hup : tag.preference = 2
    · exact Or.inl hup
    · refine Or.inr (Decidable.byContradiction fun hwraps => ?_)
      have hround : alignUp32 tag.minAddr tag.align = none := if_neg hwraps
      unfold relocSearch at h
      rw [if_neg (by omega), if_neg hup, hround] at h
      cases h
  rw [relocSearch_eq halign hrounds] at h
  have hfind := Except.ok.inj h
  have hb : Candidate tag length b := mem_candidates.mp (List.mem_of_mem_take (List.mem_of_find?_eq_some hfind))
  have hmax := tag.maxAddr_lt
  have hle := hb.2.2
  have haccepts : acceptsAt uefi m length b = true := List.find?_some hfind
  have husable : checkUsableMemory uefi m b (b + length) = true := (Bool.and_eq_true_iff.mp haccepts).1
  unfold checkTarget
  rw [if_neg (by simp; omega), if_neg (by simp [husable]), if_neg (by simp; omega)]

/-! ## A window above 2 GiB -/

def highTag : RelocTag := ⟨0x90000000, 0xffffffff, 0x90000000, 1, by decide, by decide, by decide⟩

def highMap : Memmap := [⟨0x90000000, 0x10000000, memmapUsable⟩]

theorem highMap_disjoint : RamDisjoint false highMap := by
  unfold RamDisjoint
  decide

theorem highTag_viable : Viable false highMap highTag 0x1000 0x90000000 := by
  refine ⟨by decide, fun a hlow hhigh => ⟨_, List.mem_singleton.mpr rfl, rfl, ?_⟩, fun e he htype => ?_⟩
  · rw [MemmapEntry.mem_span]
    dsimp only
    omega
  · rw [List.mem_singleton.mp he] at htype
    exact absurd htype (by decide)

/-- `min_addr` needs no rounding, and there is memory; rounding overflows all the same. -/
theorem relocSearch_high : relocSearch false highMap highTag 0x1000 = .ok none ∧
    ¬Searched false highMap highTag 0x1000 none := by
  refine ⟨rfl, fun hsearched => ?_⟩
  rcases hsearched.failed rfl with hno | ⟨rejected, hhead, hlong, hrejected⟩
  · exact hno _ highTag_viable
  · cases rejected with
    | nil => exact absurd hlong (by decide)
    | cons b rejected =>
      obtain ⟨⟨k, hk⟩, hmin, hmax⟩ := mem_candidates.mp (hhead.subset (List.mem_cons_self))
      have hb : b = 0x90000000 := by
        simp only [highTag] at hk hmin hmax
        omega
      refine hrejected b List.mem_cons_self ?_
      rw [hb]
      exact highTag_viable

/-- The same window with an alignment of a page. -/
def pageTag : RelocTag := ⟨0x90000000, 0xffffffff, 0x1000, 1, by decide, by decide, by decide⟩

theorem relocSearch_searched_page : ∃ r, relocSearch false highMap pageTag 0x1000 = .ok r ∧
    Searched false highMap pageTag 0x1000 r := by
  have hsearch : ∃ r, relocSearch false highMap pageTag 0x1000 = .ok r ∧
      (Searched false highMap pageTag 0x1000 r ↔ Reaches false highMap pageTag 0x1000) :=
    relocSearch_searched_iff highMap_disjoint (by decide) (by decide)
  obtain ⟨r, hrun, hiff⟩ := hsearch
  refine ⟨r, hrun, hiff.mpr ⟨Or.inr (Or.inl (by decide)), fun front b back _ _ hviable _ => ?_⟩⟩
  exact Ordinary.of_wellFormed hviable.ram (by decide) (by decide)

end

end Limine.Multiboot
