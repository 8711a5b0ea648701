import Mathlib.Algebra.Group.Nat.Defs

/-!
# What every part of the model shares

A function of the source that can `panic` returns an `Exec`.  A loop whose end the
source does not make evident runs on fuel and stops with `outOfFuel`; the theorems
about such a loop show that the fuel it is given is never used up.
-/

namespace Limine

/-- Why a run has no result: the source's `panic`, or the fuel of one of the model's loops. -/
inductive Stop
  | panic (msg : String)
  | outOfFuel
deriving DecidableEq, Repr

abbrev Exec := Except Stop

/-- A run that ends: with a result that satisfies `post`, or in a panic, which only
`mayPanic` excuses. -/
def Exec.Ensures {α : Type} (mayPanic : Prop) (post : α → Prop) : Exec α → Prop
  | .ok a => post a
  | .error (.panic _) => mayPanic
  | .error .outOfFuel => False

theorem Exec.Ensures.bind {α β : Type} {mayPanic : Prop} {post : α → Prop} {post' : β → Prop}
    {x : Exec α} {f : α → Exec β} (hx : x.Ensures mayPanic post)
    (hf : ∀ a, post a → (f a).Ensures mayPanic post') : (x >>= f).Ensures mayPanic post' :=
  match x, hx with
  | .ok a, ha => hf a ha
  | .error (.panic _), hp => hp

theorem Exec.Ensures.imp {α : Type} {mayPanic mayPanic' : Prop} {post post' : α → Prop}
    {x : Exec α} (hx : x.Ensures mayPanic post) (hm : mayPanic → mayPanic')
    (hp : ∀ a, post a → post' a) : x.Ensures mayPanic' post' :=
  match x, hx with
  | .ok a, ha => hp a ha
  | .error (.panic _), h => hm h

theorem Exec.Ensures.and {α : Type} {mayPanic : Prop} {post post' : α → Prop} {x : Exec α}
    (h : x.Ensures mayPanic post) (h' : x.Ensures mayPanic post') :
    x.Ensures mayPanic fun a => post a ∧ post' a :=
  match x, h, h' with
  | .ok _, h, h' => ⟨h, h'⟩
  | .error (.panic _), h, _ => h

theorem Exec.Ensures.of_ok {α : Type} {mayPanic : Prop} {post : α → Prop} {x : Exec α} {a : α}
    (hx : x.Ensures mayPanic post) (h : x = .ok a) : post a := by
  subst h
  exact hx

/-- `CHECKED_ADD` on `uint64_t`; `none` is its `onerror`. -/
def checkedAdd (a b : Nat) : Option Nat := if a + b < 2 ^ 64 then some (a + b) else none

/-- `ALIGN_UP`, through `DIV_ROUNDUP`; `none` is its `onerror`. -/
def alignUp (x a : Nat) : Option Nat := (checkedAdd x (a - 1)).map fun y => y / a * a

/-- `ALIGN_DOWN`. -/
def alignDown (x a : Nat) : Nat := x / a * a

theorem checkedAdd_eq_some {a b : Nat} (h : a + b < 2 ^ 64) : checkedAdd a b = some (a + b) :=
  if_pos h

theorem checkedAdd_eq_some_iff {a b c : Nat} :
    checkedAdd a b = some c ↔ a + b < 2 ^ 64 ∧ c = a + b := by
  unfold checkedAdd
  split
  · next h =>
    constructor
    · intro hc
      exact ⟨h, (Option.some.inj hc).symm⟩
    · rintro ⟨-, rfl⟩
      rfl
  · next h =>
    constructor
    · intro hc
      cases hc
    · intro hc
      exact absurd hc.1 h

theorem checkedAdd_eq_none_iff {a b : Nat} : checkedAdd a b = none ↔ 2 ^ 64 ≤ a + b := by
  unfold checkedAdd
  split
  · next h =>
    constructor
    · intro hc
      cases hc
    · intro hc
      omega
  · next h =>
    constructor
    · intro _
      omega
    · intro _
      rfl

theorem alignDown_le (x a : Nat) : alignDown x a ≤ x := Nat.div_mul_le_self x a

theorem alignDown_dvd (x a : Nat) : a ∣ alignDown x a := Nat.dvd_mul_left a _

theorem lt_alignDown_add (x : Nat) {a : Nat} (ha : 0 < a) : x < alignDown x a + a := by
  have := Nat.div_add_mod x a
  have := Nat.mod_lt x ha
  unfold alignDown
  rw [Nat.mul_comm]
  omega

theorem alignDown_eq_self {x a : Nat} (h : a ∣ x) : alignDown x a = x := Nat.div_mul_cancel h

theorem alignUp_spec {x a y : Nat} (ha : 0 < a) (h : alignUp x a = some y) :
    x ≤ y ∧ y < x + a ∧ a ∣ y ∧ y < 2 ^ 64 := by
  unfold alignUp at h
  obtain ⟨z, hz, rfl⟩ := Option.map_eq_some_iff.mp h
  obtain ⟨hlt, rfl⟩ := checkedAdd_eq_some_iff.mp hz
  have h1 := alignDown_le (x + (a - 1)) a
  have h2 := lt_alignDown_add (x + (a - 1)) ha
  have h3 := alignDown_dvd (x + (a - 1)) a
  unfold alignDown at h1 h2 h3
  exact ⟨by omega, by omega, h3, by omega⟩

theorem alignUp_of_dvd {x a : Nat} (ha : 0 < a) (hd : a ∣ x) (h : x + (a - 1) < 2 ^ 64) :
    alignUp x a = some x := by
  unfold alignUp
  rw [checkedAdd_eq_some h, Option.map_some]
  obtain ⟨k, rfl⟩ := hd
  rw [Nat.mul_add_div ha, Nat.div_eq_of_lt (by omega), Nat.add_zero, Nat.mul_comm]

end Limine
