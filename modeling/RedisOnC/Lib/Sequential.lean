import Mathlib.Data.List.Basic

/-!
# Sequential objects

An object that is used by one operation after the other: what each operation makes of the state, and
which results it may have. A list of operations with their results is legal if every result is
allowed in the state that the operations before it have made.

A `View` is a part of the state that some of the operations have for themselves: the others do not
change it, and what these do to it, and what they may result in, depends on nothing else. Then these
operations by themselves are legal (`View.filter`).
-/

/-- The effects and the allowed results of operations. -/
structure SequentialObject (κ ι ρ : Type) where
  effect : κ → ι → κ
  Allows : κ → ι → ρ → Prop

namespace SequentialObject

variable {κ ι ρ ν : Type} {O : SequentialObject κ ι ρ} {k k' l : κ} {xs : List (ι × ρ)}

/-- The operations may have these results, and lead from the one state to the other. -/
def Legal (O : SequentialObject κ ι ρ) : κ → List (ι × ρ) → κ → Prop
  | k, [], k' => k = k'
  | k, x :: xs, k' => O.Allows k x.1 x.2 ∧ O.Legal (O.effect k x.1) xs k'

/-- The operations `on` have the part of the state that `view` shows for themselves. -/
structure View (O : SequentialObject κ ι ρ) (view : κ → ν) (on : ι → Bool) : Prop where
  off : ∀ k i, on i = false → view (O.effect k i) = view k
  effect : ∀ k l i, on i = true → view k = view l → view (O.effect k i) = view (O.effect l i)
  allows : ∀ k l i r, on i = true → view k = view l → O.Allows k i r → O.Allows l i r

/-- **A part of a history.** -/
theorem View.filter {view : κ → ν} {on : ι → Bool} (hv : O.View view on) (h : O.Legal k xs k')
    (hl : view k = view l) :
    ∃ l', O.Legal l (xs.filter fun x ↦ on x.1) l' ∧ view k' = view l' := by
  induction xs generalizing k l with
  | nil => exact ⟨l, rfl, h ▸ hl⟩
  | cons x xs ih =>
    obtain ⟨hx, h⟩ := h
    cases hon : on x.1 with
    | false =>
      rw [List.filter_cons, hon, if_neg Bool.false_ne_true]
      exact ih h ((hv.off k x.1 hon).trans hl)
    | true =>
      rw [List.filter_cons, hon, if_pos rfl]
      obtain ⟨l', hl', hview⟩ := ih h (hv.effect k l x.1 hon hl)
      exact ⟨l', ⟨hv.allows k l x.1 x.2 hon hl hx, hl'⟩, hview⟩

end SequentialObject
