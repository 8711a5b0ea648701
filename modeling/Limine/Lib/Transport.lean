import Mathlib.Algebra.Group.Nat.Defs
import Mathlib.Data.List.Basic

/-!
# Readers of a list of events

A writer turns a message into events and a reader takes them apart again, with a state that says
how much it has read.  `ready es s`: from the state `s` the events `es` are the next ones.
`Reads ready es x a`: where `es` come next, `x` reads exactly these and returns `a`.
`Codes put ready f x a`: what `f` writes, whatever was written before, `x` reads as `a`.
-/

namespace Limine.Lib

variable {ε σ η ω α β : Type} {ready : List η → σ → Prop}

def Reads (ready : List η → σ → Prop) (es : List η) (x : StateT σ (Except ε) α) (a : α) : Prop :=
  ∀ s rest, ready (es ++ rest) s → ∃ s', x s = .ok (a, s') ∧ ready rest s'

namespace Reads

theorem pure (a : α) : Reads ready [] (Pure.pure a : StateT σ (Except ε) α) a :=
  fun s _ h => ⟨s, rfl, h⟩

theorem lift {x : Except ε α} {a : α} (hx : x = .ok a) :
    Reads ready [] (liftM x : StateT σ (Except ε) α) a := by
  subst hx
  exact fun s _ h => ⟨s, rfl, h⟩

theorem bind {es es' : List η} {x : StateT σ (Except ε) α} {a : α}
    {f : α → StateT σ (Except ε) β} {b : β} (hx : Reads ready es x a)
    (hf : Reads ready es' (f a) b) : Reads ready (es ++ es') (x >>= f) b := by
  intro s rest h
  rw [List.append_assoc] at h
  obtain ⟨s₁, h₁, hr₁⟩ := hx s (es' ++ rest) h
  obtain ⟨s₂, h₂, hr₂⟩ := hf s₁ rest hr₁
  refine ⟨s₂, ?_, hr₂⟩
  show x s >>= (fun r => f r.1 r.2) = _
  rw [h₁]
  exact h₂

theorem ite_pos {es : List η} {c : Prop} [Decidable c] {x y : StateT σ (Except ε) α} {a : α}
    (hc : c) (hx : Reads ready es x a) : Reads ready es (if c then x else y) a := by
  rwa [if_pos hc]

theorem ite_neg {es : List η} {c : Prop} [Decidable c] {x y : StateT σ (Except ε) α} {a : α}
    (hc : ¬c) (hy : Reads ready es y a) : Reads ready es (if c then x else y) a := by
  rwa [if_neg hc]

end Reads

variable {put : ω → η → ω}

def Codes (put : ω → η → ω) (ready : List η → σ → Prop) (f : ω → ω)
    (x : StateT σ (Except ε) α) (a : α) : Prop :=
  ∃ es, (∀ w, f w = es.foldl put w) ∧ Reads ready es x a

namespace Codes

theorem pure (a : α) : Codes put ready id (Pure.pure a : StateT σ (Except ε) α) a :=
  ⟨[], fun _ => rfl, Reads.pure a⟩

theorem lift {x : Except ε α} {a : α} (hx : x = .ok a) :
    Codes put ready id (liftM x : StateT σ (Except ε) α) a :=
  ⟨[], fun _ => rfl, Reads.lift hx⟩

theorem single {e : η} {x : StateT σ (Except ε) α} {a : α} (hx : Reads ready [e] x a) :
    Codes put ready (fun w => put w e) x a :=
  ⟨[e], fun _ => rfl, hx⟩

theorem bind {f g : ω → ω} {x : StateT σ (Except ε) α} {a : α}
    {y : α → StateT σ (Except ε) β} {b : β} (hx : Codes put ready f x a)
    (hy : Codes put ready g (y a) b) : Codes put ready (fun w => g (f w)) (x >>= y) b := by
  obtain ⟨es, hf, hr⟩ := hx
  obtain ⟨es', hg, hr'⟩ := hy
  refine ⟨es ++ es', fun w => ?_, hr.bind hr'⟩
  show g (f w) = _
  rw [hf, hg, List.foldl_append]

/-- What is done with a result and writes nothing more. -/
theorem bind_pure {f : ω → ω} {x : StateT σ (Except ε) α} {a : α}
    {y : α → StateT σ (Except ε) β} {b : β} (hx : Codes put ready f x a)
    (hy : Codes put ready id (y a) b) : Codes put ready f (x >>= y) b :=
  hx.bind hy

end Codes

end Limine.Lib
