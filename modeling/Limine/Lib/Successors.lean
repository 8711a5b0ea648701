import Mathlib.Data.List.Basic

/-!
# Following a successor function

`Follow next live a l`: `l` is what one comes by from `a` on, taking `next` as long as one is at a live
point.  There is at most one such list, and it has no point twice.
-/

namespace Limine.Lib

variable {α : Type}

inductive Follow (next : α → α) (live : α → Prop) : α → List α → Prop
  | stop {a : α} (h : ¬live a) : Follow next live a []
  | step {a : α} {l : List α} (h : live a) (rest : Follow next live (next a) l) : Follow next live a (a :: l)

namespace Follow

variable {next : α → α} {live : α → Prop}

theorem unique {a : α} {l l' : List α} (h : Follow next live a l) (h' : Follow next live a l') : l = l' := by
  induction h generalizing l' with
  | stop hstop =>
    cases h' with
    | stop _ => rfl
    | step hlive _ => exact absurd hlive hstop
  | step hlive _ ih =>
    cases h' with
    | stop hstop => exact absurd hlive hstop
    | step _ rest => rw [ih rest]

theorem live_of_mem {a x : α} {l : List α} (h : Follow next live a l) (hx : x ∈ l) : live x := by
  induction h with
  | stop _ => cases hx
  | step hlive _ ih =>
    rcases List.mem_cons.mp hx with rfl | hx
    · exact hlive
    · exact ih hx

/-- From each point of the list on, what is left of it. -/
theorem of_mem {a x : α} {l : List α} (h : Follow next live a l) (hx : x ∈ l) :
    ∃ before after, l = before ++ after ∧ Follow next live x after := by
  induction h with
  | stop _ => cases hx
  | @step a l hlive rest ih =>
    rcases List.mem_cons.mp hx with rfl | hx
    · exact ⟨[], x :: l, rfl, .step hlive rest⟩
    · obtain ⟨before, after, heq, hafter⟩ := ih hx
      exact ⟨a :: before, after, by rw [heq, List.cons_append], hafter⟩

/-- Coming by a point again would go on for ever. -/
theorem nodup {a : α} {l : List α} (h : Follow next live a l) : l.Nodup := by
  induction h with
  | stop _ => exact List.nodup_nil
  | @step a l hlive rest ih =>
    refine List.nodup_cons.mpr ⟨?_, ih⟩
    intro hmem
    obtain ⟨before, after, heq, hafter⟩ := rest.of_mem hmem
    have hlen : after.length = (a :: l).length := by rw [hafter.unique (.step hlive rest)]
    have hle : l.length = before.length + after.length := by rw [heq, List.length_append]
    rw [List.length_cons] at hlen
    omega

end Follow

end Limine.Lib
