import Limine.Pmm.NewEntry
import Mathlib.Algebra.Order.BigOperators.Group.List

/-!
# The sanitiser on usable entries that overflow

An entry that ends past 64 bits is one that the passes delete where they come to it, and that no other
entry gives way to: they treat it as an empty one (`splitUsable_emptied`).  Only where it is alone in the
map does it stay.

    pmmSanitiseEntries m = pmmSanitiseEntries (m.map emptied), or nothing is left but entries that overflow
-/

namespace Limine.Pmm

open Limine.Lib MemmapEntry

/-- An entry that overflows, without its length. -/
def emptied (e : MemmapEntry) : MemmapEntry := if e.NoOverflow then e else { e with length := 0 }

/-- Only entries from `i` on may overflow, and these are usable. -/
def PassesFrom (i : Nat) (m : Memmap) : Prop :=
  ∀ k e, m[k]? = some e → e.NoOverflow ∨ (i ≤ k ∧ e.type = memmapUsable ∧ e.base < 2 ^ 64)

theorem emptied_of_noOverflow {e : MemmapEntry} (h : e.NoOverflow) : emptied e = e := if_pos h

theorem emptied_of_not {e : MemmapEntry} (h : ¬ e.NoOverflow) : emptied e = { e with length := 0 } := if_neg h

theorem emptied_noOverflow {e : MemmapEntry} (h : e.base < 2 ^ 64) : (emptied e).NoOverflow := by
  by_cases he : e.NoOverflow
  · rwa [emptied_of_noOverflow he]
  · rw [emptied_of_not he]
    exact h

theorem map_emptied_of_forall {m : Memmap} (h : NoneOverflows m) : m.map emptied = m := by
  conv_rhs => rw [← List.map_id m]
  exact List.map_congr_left fun e he => emptied_of_noOverflow (h e he)

theorem weight_map_emptied (m : Memmap) : weight (m.map emptied) ≤ weight m := by
  unfold weight
  rw [List.length_map]
  refine Nat.add_le_add_left ?_ _
  unfold usableBytes
  rw [List.map_map]
  refine List.sum_le_sum fun e _ => ?_
  simp only [Function.comp_apply, emptied]
  split <;> split <;> simp_all

theorem PassesFrom.noneOverflows {i : Nat} {m : Memmap} (h : PassesFrom i m) (hi : m.length ≤ i) :
    NoneOverflows m := by
  intro e he
  obtain ⟨k, hk⟩ := List.getElem?_of_mem he
  have := (List.getElem?_eq_some_iff.mp hk).1
  rcases h k e hk with h | h
  · exact h
  · omega

theorem PassesFrom.map_noneOverflows {i : Nat} {m : Memmap} (h : PassesFrom i m) :
    NoneOverflows (m.map emptied) := by
  intro x hx
  obtain ⟨e, he, rfl⟩ := List.mem_map.mp hx
  obtain ⟨k, hk⟩ := List.getElem?_of_mem he
  rcases h k e hk with h | h
  · rwa [emptied_of_noOverflow h]
  · exact emptied_noOverflow h.2.2

/-- Entries that do not overflow, set and appended. -/
theorem PassesFrom.set {i : Nat} {m : Memmap} (h : PassesFrom i m) (k : Nat) {e : MemmapEntry} (extra : Memmap)
    (he : e.NoOverflow) (hextra : NoneOverflows extra) : PassesFrom i ((m ++ extra).set k e) := by
  intro l x hx
  rw [List.getElem?_set] at hx
  split at hx
  · split at hx
    · cases hx
      exact .inl he
    · cases hx
  · rw [List.getElem?_append] at hx
    split at hx
    · exact h l x hx
    · exact .inl (hextra x (List.mem_of_getElem? hx))

theorem PassesFrom.swapRemove {m : Memmap} {i k : Nat} {e : MemmapEntry} (h : PassesFrom i m)
    (he : m[k]? = some e) : PassesFrom 0 (swapRemove m k) := by
  intro l x hx
  have hmem : x ∈ m := (perm_cons_swapRemove he).mem_iff.mpr
    (List.mem_cons_of_mem e (List.mem_of_getElem? hx))
  obtain ⟨j, hj⟩ := List.getElem?_of_mem hmem
  exact (h j x hj).imp_right fun h => ⟨Nat.zero_le l, h.2⟩

theorem PassesFrom.succ {m : Memmap} {i : Nat} (h : PassesFrom i m)
    (he : ∀ e, m[i]? = some e → e.NoOverflow) : PassesFrom (i + 1) m := by
  intro k x hx
  by_cases hk : k = i
  · subst hk
    exact .inl (he x hx)
  · rcases h k x hx with h | h
    · exact .inl h
    · exact .inr ⟨by omega, h.2⟩

/-! ## The inner loop -/

theorem carve_of_overflow {e r : MemmapEntry} (he : e.NoOverflow) (hr : ¬ r.NoOverflow) :
    carve e r = .skip := by
  unfold carve
  rw [checkedAdd_eq_some he, checkedAdd_eq_none_iff.mpr (Nat.le_of_not_lt hr)]

theorem carve_emptied {e : MemmapEntry} (he : e.NoOverflow) (r : MemmapEntry) :
    carve e (emptied r) = carve e r := by
  by_cases hr : r.NoOverflow
  · rw [emptied_of_noOverflow hr]
  · rw [emptied_of_not hr, carve_of_overflow he hr]
    unfold carve
    rw [checkedAdd_eq_some he]
    cases checkedAdd r.base 0 with
    | none => rfl
    | some resTop => simp

/-- What is left of an entry does not overflow. -/
theorem carve_piece {e r : MemmapEntry} (he : e.NoOverflow) : match carve e r with
    | .drop => False
    | .skip => True
    | .covered e' => e'.NoOverflow
    | .trim e' extra => e'.NoOverflow ∧ NoneOverflows extra.toList := by
  by_cases hr : r.NoOverflow
  · rcases carve_cases he hr with ⟨hc, -⟩ | ⟨e', hc, hp, -⟩ | ⟨e', hc, hp, -⟩ | ⟨e', x, hc, hp, hx, -⟩
    · rw [hc]
      trivial
    · rw [hc]
      exact hp.noOverflow he
    · rw [hc]
      exact ⟨hp.noOverflow he, by simp [NoneOverflows]⟩
    · rw [hc]
      exact ⟨hp.noOverflow he, by simpa [NoneOverflows] using hx.noOverflow he⟩
  · rw [carve_of_overflow he hr]
    trivial

theorem overlapLoop_emptied (maxEntries i : Nat) : ∀ fuel m j e, m[i]? = some e → e.NoOverflow →
    overlapLoop maxEntries i fuel (m.map emptied) j =
      (overlapLoop maxEntries i fuel m j).map fun p => (p.1.map emptied, p.2) := by
  intro fuel
  induction fuel with
  | zero =>
    intro m j e _ _
    rfl
  | succ fuel ih =>
    intro m j e he hen
    have hset : ∀ (extra : Memmap) (e' : MemmapEntry), e'.NoOverflow → NoneOverflows extra →
        (m.map emptied ++ extra).set i e' = ((m ++ extra).set i e').map emptied := by
      intro extra e' he' hextra
      rw [List.map_set, List.map_append, map_emptied_of_forall hextra, emptied_of_noOverflow he']
    have hself : ∀ (extra : Memmap) (e' : MemmapEntry), ((m ++ extra).set i e')[i]? = some e' := by
      intro extra e'
      refine List.getElem?_set_self ?_
      have := (List.getElem?_eq_some_iff.mp he).1
      simp only [List.length_append]
      omega
    rw [overlapLoop, overlapLoop, List.getElem?_map, List.getElem?_map, he]
    cases hr : m[j]? with
    | none => rfl
    | some r =>
      simp only [Option.map_some, emptied_of_noOverflow hen, carve_emptied hen]
      by_cases hji : j = i
      · rw [if_pos hji, if_pos hji]
        exact ih m (j + 1) e he hen
      · rw [if_neg hji, if_neg hji]
        have hpiece := carve_piece (r := r) hen
        cases hc : carve e r with
        | drop => rfl
        | skip => exact ih m (j + 1) e he hen
        | covered e' =>
          rw [hc] at hpiece
          have := hset [] e' hpiece (by simp [NoneOverflows])
          simp only [List.append_nil] at this
          simp only [this]
          rfl
        | trim e' extra =>
          rw [hc] at hpiece
          have hmap := hset extra.toList e' hpiece.1 hpiece.2
          have hgo := ih ((m ++ extra.toList).set i e') (j + 1) e' (hself _ e') hpiece.1
          cases extra with
          | none =>
            simp only [Option.toList, List.append_nil] at hmap hgo
            simp only [hmap, hgo]
          | some x =>
            simp only [Option.toList] at hmap hgo
            simp only [List.length_map, hmap, hgo]
            split <;> rfl

/-- The loop leaves entry `i` in order, and adds no entry that overflows. -/
theorem overlapLoop_passes (maxEntries i first : Nat) : ∀ fuel m j e, m[i]? = some e → e.NoOverflow →
    PassesFrom first m → ∀ p, overlapLoop maxEntries i fuel m j = .ok p →
      PassesFrom first p.1 ∧ ∃ e', p.1[i]? = some e' ∧ e'.NoOverflow := by
  intro fuel
  induction fuel with
  | zero =>
    intro m j e _ _ _ p hp
    cases hp
  | succ fuel ih =>
    intro m j e he hen hm p hp
    have hi := (List.getElem?_eq_some_iff.mp he).1
    rw [overlapLoop, he] at hp
    cases hr : m[j]? with
    | none =>
      rw [hr] at hp
      cases hp
      exact ⟨hm, e, he, hen⟩
    | some r =>
      simp only [hr] at hp
      by_cases hji : j = i
      · rw [if_pos hji] at hp
        exact ih m (j + 1) e he hen hm p hp
      · rw [if_neg hji] at hp
        have hpiece := carve_piece (r := r) hen
        cases hc : carve e r with
        | drop =>
          rw [hc] at hpiece
          exact hpiece.elim
        | skip =>
          rw [hc] at hp
          exact ih m (j + 1) e he hen hm p hp
        | covered e' =>
          rw [hc] at hp hpiece
          cases hp
          have := hm.set i [] hpiece (by simp [NoneOverflows])
          rw [List.append_nil] at this
          exact ⟨this, e', List.getElem?_set_self hi, hpiece⟩
        | trim e' extra =>
          rw [hc] at hp hpiece
          have hself : ((m ++ extra.toList).set i e')[i]? = some e' :=
            List.getElem?_set_self (by simp only [List.length_append]; omega)
          have hgo := ih ((m ++ extra.toList).set i e') (j + 1) e' hself hpiece.1
            (hm.set i _ hpiece.1 hpiece.2) p
          cases extra with
          | none =>
            rw [Option.toList, List.append_nil] at hgo
            exact hgo hp
          | some x =>
            simp only at hp
            split at hp
            · cases hp
            · exact hgo hp

theorem overlapLoop_mono (maxEntries i : Nat) : ∀ fuel fuel' m j, fuel ≤ fuel' →
    overlapLoop maxEntries i fuel m j ≠ .error .outOfFuel →
    overlapLoop maxEntries i fuel' m j = overlapLoop maxEntries i fuel m j := by
  intro fuel
  induction fuel with
  | zero =>
    intro fuel' m j _ h
    exact absurd rfl h
  | succ fuel ih =>
    intro fuel' m j hle h
    obtain ⟨fuel', rfl⟩ : ∃ n, fuel' = n + 1 := ⟨fuel' - 1, by omega⟩
    have hle : fuel ≤ fuel' := by omega
    rw [overlapLoop] at h ⊢
    rw [overlapLoop]
    cases he : m[i]? with
    | none => rfl
    | some e =>
      cases hr : m[j]? with
      | none => rfl
      | some r =>
        simp only [he, hr] at h ⊢
        by_cases hji : j = i
        · rw [if_pos hji] at h ⊢
          rw [if_pos hji]
          exact ih fuel' m (j + 1) hle h
        · rw [if_neg hji] at h ⊢
          rw [if_neg hji]
          cases hc : carve e r with
          | drop => rfl
          | skip =>
            rw [hc] at h
            exact ih fuel' m (j + 1) hle h
          | covered e' => rfl
          | trim e' extra =>
            rw [hc] at h
            cases extra with
            | none => exact ih fuel' _ (j + 1) hle h
            | some x =>
              simp only at h ⊢
              split at h
              · rename_i hfull
                rw [if_pos hfull, if_pos hfull]
              · rename_i hfull
                rw [if_neg hfull, if_neg hfull]
                exact ih fuel' _ (j + 1) hle h

/-- An entry that overflows goes, if there is another one. -/
theorem overlapLoop_of_overflow (maxEntries fuel : Nat) {i : Nat} {m : Memmap} {e : MemmapEntry}
    (he : m[i]? = some e) (hov : ¬ e.NoOverflow) (hlen : 1 < m.length) :
    overlapLoop maxEntries i (fuel + 2) m 0 = .ok (m, true) := by
  have hdrop : ∀ r, carve e r = .drop := by
    intro r
    unfold carve
    rw [checkedAdd_eq_none_iff.mpr (Nat.le_of_not_lt hov)]
  obtain ⟨r, hr⟩ : ∃ r, m[0]? = some r := ⟨m[0], List.getElem?_eq_getElem (by omega)⟩
  obtain ⟨r', hr'⟩ : ∃ r, m[1]? = some r := ⟨m[1], List.getElem?_eq_getElem hlen⟩
  rw [overlapLoop, he, hr]
  by_cases hi : 0 = i
  · subst hi
    simp only [if_true, Nat.zero_add]
    rw [overlapLoop, he, hr']
    simp [hdrop]
  · simp [hi, hdrop]

/-- An empty entry stays empty, and nothing else changes. -/
theorem overlapLoop_of_empty (maxEntries i : Nat) : ∀ fuel m j e, m[i]? = some e → e.NoOverflow →
    e.length = 0 → j ≤ m.length → m.length < fuel + j →
    ∃ e', e'.length = 0 ∧ overlapLoop maxEntries i fuel m j = .ok (m.set i e', false) := by
  intro fuel
  induction fuel with
  | zero =>
    intro m j e _ _ _ _ _
    omega
  | succ fuel ih =>
    intro m j e he hen hz hjl hf
    obtain ⟨hi, hself⟩ := List.getElem?_eq_some_iff.mp he
    have hset : m.set i e = m := by rw [← hself, List.set_getElem_self]
    cases hr : m[j]? with
    | none => exact ⟨e, hz, by rw [overlapLoop, he, hr, hset]⟩
    | some r =>
      have hj := (List.getElem?_eq_some_iff.mp hr).1
      obtain ⟨e', hz', hgo⟩ := ih m (j + 1) e he hen hz hj (by omega)
      rw [overlapLoop, he, hr]
      by_cases hji : j = i
      · exact ⟨e', hz', by simp only [if_pos hji, hgo]⟩
      · simp only [if_neg hji]
        -- of an empty entry nothing is nested, and no end of it moves
        have hcarve : carve e r = .skip ∨ carve e r = .covered { e with base := e.base + e.length, length := 0 } ∨
            carve e r = .trim e none := by
          unfold carve
          rw [checkedAdd_eq_some hen]
          cases checkedAdd r.base r.length with
          | none => exact .inl rfl
          | some resTop =>
            have h1 : ¬ (e.base ≤ r.base ∧ r.base < e.base + e.length) := by omega
            have h2 : ¬ (e.base ≤ resTop ∧ resTop < e.base + e.length) := by omega
            simp only [h1, h2, false_and, if_false, Nat.add_sub_cancel_left]
            split
            · exact .inl rfl
            · split
              · exact .inr (.inl rfl)
              · exact .inr (.inr rfl)
        rcases hcarve with hc | hc | hc
        · exact ⟨e', hz', by rw [hc]; exact hgo⟩
        · exact ⟨_, rfl, by rw [hc]⟩
        · exact ⟨e', hz', by rw [hc]; simp only [hset]; exact hgo⟩

/-! ## The passes -/

section
variable {maxEntries fuel i : Nat} {alignEntries : Bool} {m m' : Memmap} {e : MemmapEntry}

theorem splitUsable_of_none (he : m[i]? = none) : splitUsable maxEntries alignEntries (fuel + 1) m i = .ok m := by
  rw [splitUsable, he]

theorem splitUsable_of_other (he : m[i]? = some e) (hu : e.type ≠ memmapUsable) :
    splitUsable maxEntries alignEntries (fuel + 1) m i = splitUsable maxEntries alignEntries fuel m (i + 1) := by
  rw [splitUsable, he]
  simp only [if_pos hu]

theorem splitUsable_of_error (he : m[i]? = some e) (hu : e.type = memmapUsable) {stop : Stop}
    (hloop : overlapLoop maxEntries i (weight m + 1) m 0 = .error stop) :
    splitUsable maxEntries alignEntries (fuel + 1) m i = .error stop := by
  rw [splitUsable, he]
  simp only [hu, ne_eq, not_true_eq_false, if_false, hloop]

theorem splitUsable_of_drop (he : m[i]? = some e) (hu : e.type = memmapUsable)
    (hloop : overlapLoop maxEntries i (weight m + 1) m 0 = .ok (m', true)) :
    splitUsable maxEntries alignEntries (fuel + 1) m i =
      splitUsable maxEntries alignEntries fuel (swapRemove m' i) 0 := by
  rw [splitUsable, he]
  simp only [hu, ne_eq, not_true_eq_false, if_false, hloop]

theorem splitUsable_of_unsettled (he : m[i]? = some e) (hu : e.type = memmapUsable)
    (hloop : overlapLoop maxEntries i (weight m + 1) m 0 = .ok (m', false)) {x : MemmapEntry}
    (hx : m'[i]? = some x) (hs : settleEntry alignEntries x = none) :
    splitUsable maxEntries alignEntries (fuel + 1) m i =
      splitUsable maxEntries alignEntries fuel (swapRemove m' i) 0 := by
  rw [splitUsable, he]
  simp only [hu, ne_eq, not_true_eq_false, if_false, hloop, hx, Option.bind_some, hs]

theorem splitUsable_of_settled (he : m[i]? = some e) (hu : e.type = memmapUsable)
    (hloop : overlapLoop maxEntries i (weight m + 1) m 0 = .ok (m', false)) {x y : MemmapEntry}
    (hx : m'[i]? = some x) (hs : settleEntry alignEntries x = some y) :
    splitUsable maxEntries alignEntries (fuel + 1) m i =
      splitUsable maxEntries alignEntries fuel (m'.set i y) (i + 1) := by
  rw [splitUsable, he]
  simp only [hu, ne_eq, not_true_eq_false, if_false, hloop, hx, Option.bind_some, hs]

end

/-- A run on the map and one on the map with the entries that overflow emptied. -/
def Agrees (x z : Exec Memmap) : Prop := x = z ∨ ∃ e : MemmapEntry, ¬ e.NoOverflow ∧ x = .ok [e]

/-- The one entry of a map stays, also where it overflows. -/
theorem splitUsable_single {maxEntries fuel : Nat} {e : MemmapEntry} (hu : e.type = memmapUsable)
    (hl : e.length ≠ 0) : splitUsable maxEntries false (fuel + 2) [e] 0 = .ok [e] := by
  obtain ⟨n, hn⟩ : ∃ n, weight [e] + 1 = n + 2 := ⟨weight [e] - 1, by
    rw [weight_cons_usable hu]
    omega⟩
  have hloop : overlapLoop maxEntries 0 (weight [e] + 1) [e] 0 = .ok ([e], false) := by
    rw [hn, overlapLoop]
    rfl
  have hsettle : settleEntry false e = some e := if_neg hl
  rw [splitUsable_of_settled rfl hu hloop rfl hsettle]
  rfl

/-- The empty entry in place of one that overflows is deleted. -/
theorem splitUsable_of_emptied {maxEntries fuel i : Nat} {m : Memmap} {e : MemmapEntry} (he : m[i]? = some e)
    (hen : ¬ e.NoOverflow) (hu : e.type = memmapUsable) (hbase : e.base < 2 ^ 64) :
    splitUsable maxEntries false (fuel + 1) (m.map emptied) i =
      splitUsable maxEntries false fuel ((swapRemove m i).map emptied) 0 := by
  have hi : i < (m.map emptied).length := by
    rw [List.length_map]
    exact (List.getElem?_eq_some_iff.mp he).1
  have hz : (m.map emptied)[i]? = some { e with length := 0 } := by
    rw [List.getElem?_map, he, Option.map_some, emptied_of_not hen]
  obtain ⟨e', he', hloop⟩ := overlapLoop_of_empty maxEntries i (weight (m.map emptied) + 1) (m.map emptied) 0
    _ hz hbase rfl (Nat.zero_le _) (by unfold weight; omega)
  have hsettle : settleEntry false e' = none := if_pos he'
  rw [splitUsable_of_unsettled hz hu hloop (List.getElem?_set_self hi) hsettle, ← swapRemove_map,
    swapRemove_set hi]

/-- So is the one that overflows, where it is not alone. -/
theorem splitUsable_of_overflow {maxEntries fuel i : Nat} {m : Memmap} {e : MemmapEntry} (he : m[i]? = some e)
    (hen : ¬ e.NoOverflow) (hu : e.type = memmapUsable) (hbase : e.base < 2 ^ 64) (hfuel : 0 < fuel) :
    splitUsable maxEntries false (fuel + 1) m i = splitUsable maxEntries false fuel (swapRemove m i) 0 ∨
      splitUsable maxEntries false (fuel + 1) m i = .ok [e] := by
  have hi := (List.getElem?_eq_some_iff.mp he).1
  by_cases hlen : 1 < m.length
  · left
    have hdrop := overlapLoop_of_overflow maxEntries (weight m - 1) he hen hlen
    rw [show weight m - 1 + 2 = weight m + 1 by unfold weight; omega] at hdrop
    exact splitUsable_of_drop he hu hdrop
  · right
    obtain ⟨x, rfl⟩ := List.length_eq_one_iff.mp (by omega : m.length = 1)
    obtain rfl : i = 0 := by simpa using hi
    cases he
    obtain ⟨fuel, rfl⟩ : ∃ n, fuel = n + 1 := ⟨fuel - 1, by omega⟩
    refine splitUsable_single hu fun hl => hen ?_
    rw [NoOverflow, hl]
    exact hbase

/-- The first pass does not tell an entry that overflows from an empty one, unless it is alone. -/
theorem splitUsable_emptied (maxEntries : Nat) : ∀ fuel fuel' m i, fuel ≤ fuel' → PassesFrom i m →
    splitUsable maxEntries false fuel (m.map emptied) i ≠ .error .outOfFuel →
    Agrees (splitUsable maxEntries false fuel' m i) (splitUsable maxEntries false fuel (m.map emptied) i) := by
  intro fuel
  induction fuel with
  | zero =>
    intro fuel' m i _ _ h
    exact absurd rfl h
  | succ fuel ih =>
    intro fuel' m i hle hm h
    obtain ⟨fuel', rfl⟩ : ∃ n, fuel' = n + 1 := ⟨fuel' - 1, by omega⟩
    have hle : fuel ≤ fuel' := by omega
    cases he : m[i]? with
    | none =>
      have hz : (m.map emptied)[i]? = none := by rw [List.getElem?_map, he, Option.map_none]
      rw [splitUsable_of_none he, splitUsable_of_none hz,
        map_emptied_of_forall (hm.noneOverflows (List.getElem?_eq_none_iff.mp he))]
      exact .inl rfl
    | some e =>
      have hz : (m.map emptied)[i]? = some (emptied e) := by rw [List.getElem?_map, he, Option.map_some]
      by_cases hen : e.NoOverflow
      · rw [emptied_of_noOverflow hen] at hz
        by_cases hu : e.type = memmapUsable
        · -- the inner loop on `m` has more fuel than it needs
          have hmap := overlapLoop_emptied maxEntries i (weight (m.map emptied) + 1) m 0 e he hen
          have hmono := overlapLoop_mono maxEntries i (weight (m.map emptied) + 1) (weight m + 1) m 0
            (Nat.succ_le_succ (weight_map_emptied m))
          have hkeep := overlapLoop_passes maxEntries i i (weight (m.map emptied) + 1) m 0 e he hen hm
          cases hrun : overlapLoop maxEntries i (weight (m.map emptied) + 1) m 0 with
          | error stop =>
            rw [hrun] at hmap hmono
            rw [splitUsable_of_error hz hu hmap] at h ⊢
            rw [splitUsable_of_error he hu (hmono fun hs => h (by cases hs; rfl))]
            exact .inl rfl
          | ok p =>
            obtain ⟨m', del⟩ := p
            obtain ⟨hp, e', he', hen'⟩ := hkeep _ hrun
            rw [hrun] at hmap hmono
            have hmono := hmono (by simp)
            cases del with
            | true =>
              rw [splitUsable_of_drop hz hu hmap, swapRemove_map] at h ⊢
              rw [splitUsable_of_drop he hu hmono]
              exact ih fuel' _ 0 hle (hp.swapRemove he') h
            | false =>
              have hz' : (m'.map emptied)[i]? = some e' := by
                rw [List.getElem?_map, he', Option.map_some, emptied_of_noOverflow hen']
              cases hs : settleEntry false e' with
              | none =>
                rw [splitUsable_of_unsettled hz hu hmap hz' hs, swapRemove_map] at h ⊢
                rw [splitUsable_of_unsettled he hu hmono he' hs]
                exact ih fuel' _ 0 hle (hp.swapRemove he') h
              | some x =>
                obtain rfl : x = e' := (settleEntry_some hs).2.2.2 rfl
                have hset : (m'.map emptied).set i x = (m'.set i x).map emptied := by
                  rw [List.map_set, emptied_of_noOverflow hen']
                rw [splitUsable_of_settled hz hu hmap hz' hs, hset] at h ⊢
                rw [splitUsable_of_settled he hu hmono he' hs]
                have hnext : PassesFrom i (m'.set i x) := by
                  have := hp.set i [] hen' (by simp [NoneOverflows])
                  rwa [List.append_nil] at this
                refine ih fuel' _ (i + 1) hle (hnext.succ fun y hy => ?_) h
                rw [List.getElem?_set_self (List.getElem?_eq_some_iff.mp he').1] at hy
                cases hy
                exact hen'
        · rw [splitUsable_of_other hz hu] at h ⊢
          rw [splitUsable_of_other he hu]
          refine ih fuel' m (i + 1) hle (hm.succ fun x hx => ?_) h
          rw [he] at hx
          cases hx
          exact hen
      · obtain ⟨-, hu, hbase⟩ := (hm i e he).resolve_left hen
        rw [splitUsable_of_emptied he hen hu hbase] at h ⊢
        have hfuel : 0 < fuel := Nat.pos_of_ne_zero fun h0 => by
          subst h0
          exact h rfl
        rcases splitUsable_of_overflow he hen hu hbase (Nat.lt_of_lt_of_le hfuel hle) with hrun | hrun
        · rw [hrun]
          exact ih fuel' _ 0 hle (hm.swapRemove he) h
        · exact .inr ⟨e, hen, hrun⟩

/-- The sanitiser on a map where usable entries may overflow. -/
theorem pmmSanitiseEntries_emptied (maxEntries : Nat) (keepFirstPage : Bool) {m : Memmap}
    (hm : PassesFrom 0 m) :
    pmmSanitiseEntries maxEntries keepFirstPage m false =
        pmmSanitiseEntries maxEntries keepFirstPage (m.map emptied) false ∨
      ∃ m', pmmSanitiseEntries maxEntries keepFirstPage m false = .ok m' ∧ ∀ e ∈ m', ¬ e.NoOverflow := by
  have hw := weight_map_emptied m
  have hfuel : (weight (m.map emptied) + 2) * (weight (m.map emptied) + 2) ≤ (weight m + 2) * (weight m + 2) :=
    Nat.mul_le_mul (by omega) (by omega)
  have hends := splitUsable_start maxEntries false hm.map_noneOverflows
  have hrun := splitUsable_emptied maxEntries _ _ m 0 hfuel hm fun h => by
    rw [h] at hends
    exact hends
  unfold pmmSanitiseEntries
  rcases hrun with hrun | ⟨e, hen, hrun⟩
  · exact .inl (by rw [hrun])
  · right
    rw [hrun]
    refine ⟨_, rfl, ?_⟩
    simp only [List.length_singleton, dropEmpty, List.getElem?_cons_zero]
    cases hc : clipEntry keepFirstPage e with
    | none =>
      intro x hx
      simp [swapRemove, sortEntries, mergeEntries] at hx
    | some x =>
      intro y hy
      obtain rfl : y = x := by simpa [sortEntries, minIndexFrom, mergeEntries, mergeFrom] using hy
      unfold clipEntry at hc
      rw [checkedAdd_eq_none_iff.mpr (Nat.le_of_not_lt hen)] at hc
      split at hc
      · cases hc
      · split at hc
        · cases hc
        · cases hc
          exact hen

end Limine.Pmm
