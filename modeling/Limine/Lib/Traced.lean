import Limine.Lib.Triple

/-!
# Programs that leave a trace

A `Traced ω ε α` gives a result or fails, and says what it has accessed on the way, failed or not.
`Ensures within allowed post`: every access is `within`, a result has `post`, and a failure is as `allowed`
says.
-/

namespace Limine.Lib

structure Traced (ω ε α : Type) where
  result : Except ε α
  log : List ω

namespace Traced

variable {ω ε α β : Type}

def fail (e : ε) : Traced ω ε α := ⟨.error e, []⟩

/-- One access, and what it gives. -/
def access (a : ω) (result : Except ε α) : Traced ω ε α := ⟨result, [a]⟩

/-- A program whose failure, where `giveUp` holds of it, is no failure of the whole. -/
def attempt (giveUp : ε → Bool) (x : Traced ω ε α) : Traced ω ε (Option α) where
  log := x.log
  result :=
    match x.result with
    | .ok a => .ok (some a)
    | .error e => if giveUp e then .ok none else .error e

instance : Monad (Traced ω ε) where
  pure a := ⟨.ok a, []⟩
  bind x f :=
    match x.result with
    | .ok a => ⟨(f a).result, x.log ++ (f a).log⟩
    | .error e => ⟨.error e, x.log⟩

def Ensures (within : ω → Prop) (allowed : ε → Prop) (post : α → Prop) (x : Traced ω ε α) : Prop :=
  (∀ a ∈ x.log, within a) ∧ Ends allowed x.result post

namespace Ensures

variable {within : ω → Prop} {allowed : ε → Prop} {post : α → Prop} {post' : β → Prop}

theorem pure {a : α} (h : post a) : Ensures within allowed post (Pure.pure a : Traced ω ε α) :=
  ⟨by rintro _ ⟨⟩, h⟩

theorem fail {e : ε} (h : allowed e) : Ensures within allowed post (Traced.fail e : Traced ω ε α) :=
  ⟨by rintro _ ⟨⟩, h⟩

theorem access {a : ω} {result : Except ε α} (ha : within a) (h : Ends allowed result post) :
    Ensures within allowed post (Traced.access a result) := by
  refine ⟨?_, h⟩
  intro b hb
  rw [List.mem_singleton.mp hb]
  exact ha

theorem bind {x : Traced ω ε α} {f : α → Traced ω ε β} (hx : Ensures within allowed post x)
    (hf : ∀ a, post a → Ensures within allowed post' (f a)) : Ensures within allowed post' (x >>= f) := by
  obtain ⟨result, log⟩ := x
  obtain ⟨hlog, hresult⟩ := hx
  cases result with
  | error e => exact ⟨hlog, hresult⟩
  | ok a =>
    obtain ⟨hlog', hresult'⟩ := hf a hresult
    refine ⟨?_, hresult'⟩
    intro b hb
    rcases List.mem_append.mp hb with hb | hb
    · exact hlog b hb
    · exact hlog' b hb

theorem imp {x : Traced ω ε α} {within' : ω → Prop} {allowed' : ε → Prop} {post' : α → Prop}
    (hx : Ensures within allowed post x) (hw : ∀ a, within a → within' a) (he : ∀ e, allowed e → allowed' e)
    (hp : ∀ a, post a → post' a) : Ensures within' allowed' post' x :=
  ⟨fun a ha => hw a (hx.1 a ha), (hx.2.imp hp).weaken he⟩

theorem attempt {giveUp : ε → Bool} {x : Traced ω ε α} {post' : Option α → Prop}
    (hx : Ensures within allowed post x) (hsome : ∀ a, post a → post' (some a))
    (hnone : post' none) : Ensures within allowed post' (x.attempt giveUp) := by
  obtain ⟨result, log⟩ := x
  obtain ⟨hlog, hresult⟩ := hx
  refine ⟨hlog, ?_⟩
  cases result with
  | ok a => exact hsome a hresult
  | error e =>
    show Ends allowed (if giveUp e then .ok none else .error e) post'
    split
    · exact hnone
    · exact hresult

end Ensures

/-- The result alone goes through a bind as it would without the trace. -/
theorem result_bind (x : Traced ω ε α) (f : α → Traced ω ε β) :
    (x >>= f).result = x.result >>= fun a => (f a).result := by
  obtain ⟨result, log⟩ := x
  cases result with
  | ok a => rfl
  | error e => rfl

theorem result_bind_eq_ok_iff {x : Traced ω ε α} {f : α → Traced ω ε β} {b : β} :
    (x >>= f).result = .ok b ↔ ∃ a, x.result = .ok a ∧ (f a).result = .ok b := by
  rw [result_bind]
  cases x.result with
  | ok a =>
    constructor
    · intro h
      exact ⟨a, rfl, h⟩
    · rintro ⟨_, ⟨⟩, h⟩
      exact h
  | error e =>
    constructor
    · intro h
      cases h
    · rintro ⟨_, ⟨⟩, _⟩

end Traced

end Limine.Lib
