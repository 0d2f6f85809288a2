import Mathlib.Algebra.Order.Ring.Nat

/-!
# Computations on a state that can stop

A computation on a state either returns a value or stops for a reason that is no value of it, and
in both cases leaves a state behind. `Sat` is the postcondition of a computation, one for each way
to end, and `whileTrue` is the loop `while (body()) {}` of a body whose rounds that go on make a
measure smaller.
-/

/-- The end of a computation. -/
inductive Outcome (φ σ α : Type)
  | ret (a : α) (s : σ)
  | stop (f : φ) (s : σ)

namespace Outcome

variable {φ σ α β : Type} {s s' : σ} {a : α} {f : φ}

/-- One computation after the other. -/
def bind (o : Outcome φ σ α) (k : α → σ → Outcome φ σ β) : Outcome φ σ β :=
  match o with
  | ret a s => k a s
  | stop f s => stop f s

/-- Stop if there is no value. -/
def ofOption (f : φ) (s : σ) : Option α → Outcome φ σ α
  | none => stop f s
  | some a => ret a s

@[simp] theorem ofOption_none : (ofOption f s none : Outcome φ σ α) = stop f s := rfl

@[simp] theorem ofOption_some : ofOption f s (some a) = ret a s := rfl

@[simp] theorem ret_bind (k : α → σ → Outcome φ σ β) : (ret a s).bind k = k a s := rfl

@[simp] theorem stop_bind (k : α → σ → Outcome φ σ β) :
    (stop f s : Outcome φ σ α).bind k = stop f s := rfl

theorem ret_ne_stop : (ret a s : Outcome φ σ α) ≠ stop f s' := by
  intro h
  cases h

/-- The state at the end. -/
def state : Outcome φ σ α → σ
  | ret _ s => s
  | stop _ s => s

/-- What holds when the computation returns, and what holds when it stops. -/
def Sat (o : Outcome φ σ α) (Q : α → σ → Prop) (F : φ → σ → Prop) : Prop :=
  match o with
  | ret a s => Q a s
  | stop f s => F f s

variable {Q : α → σ → Prop} {F : φ → σ → Prop}

@[simp] theorem sat_ret : (ret a s).Sat Q F ↔ Q a s := Iff.rfl

theorem sat_true (o : Outcome φ σ α) : o.Sat (fun _ _ ↦ True) fun _ _ ↦ True := by
  cases o <;> exact True.intro

namespace Sat

variable {o : Outcome φ σ α} {k : α → σ → Outcome φ σ β} {R : β → σ → Prop}

theorem mono {Q' : α → σ → Prop} {F' : φ → σ → Prop} (h : o.Sat Q F)
    (hQ : ∀ a s, Q a s → Q' a s) (hF : ∀ f s, F f s → F' f s) : o.Sat Q' F' := by
  cases o with
  | ret a s => exact hQ a s h
  | stop f s => exact hF f s h

theorem of_ret (h : o.Sat Q F) (ho : o = ret a s) : Q a s := by
  rwa [ho] at h

theorem of_stop (h : o.Sat Q F) (ho : o = stop f s) : F f s := by
  rwa [ho] at h

theorem bind (h : o.Sat Q F) (hk : ∀ a s, Q a s → (k a s).Sat R F) : (o.bind k).Sat R F := by
  cases o with
  | ret a s => exact hk a s h
  | stop f s => exact h

end Sat

/-! ## Loops -/

/-- `while (body()) {}`. -/
def whileTrue (body : σ → Outcome φ σ Bool) (μ : σ → ℕ)
    (hμ : ∀ s s', body s = ret true s' → μ s' < μ s) (s : σ) : Outcome φ σ Unit :=
  match _hs : body s with
  | ret true s' => whileTrue body μ hμ s'
  | ret false s' => ret () s'
  | stop f s' => stop f s'
termination_by μ s
decreasing_by exact hμ s s' _hs

variable {body : σ → Outcome φ σ Bool} {μ : σ → ℕ}
variable {hμ : ∀ s s', body s = ret true s' → μ s' < μ s}

theorem whileTrue_of_true (h : body s = ret true s') :
    whileTrue body μ hμ s = whileTrue body μ hμ s' := by
  rw [whileTrue]
  split <;> simp_all

theorem whileTrue_of_false (h : body s = ret false s') : whileTrue body μ hμ s = ret () s' := by
  rw [whileTrue]
  split <;> simp_all

theorem whileTrue_of_stop (h : body s = stop f s') : whileTrue body μ hμ s = stop f s' := by
  rw [whileTrue]
  split <;> simp_all

theorem whileTrue_congr (h : body s = body s') :
    whileTrue body μ hμ s = whileTrue body μ hμ s' := by
  cases hs : body s' with
  | ret b t =>
    cases b with
    | true => rw [whileTrue_of_true (h.trans hs), whileTrue_of_true hs]
    | false => rw [whileTrue_of_false (h.trans hs), whileTrue_of_false hs]
  | stop f t => rw [whileTrue_of_stop (h.trans hs), whileTrue_of_stop hs]

/-- **The loop rule.** What the rounds that go on preserve holds whenever the body is entered. -/
theorem whileTrue_sat {I Q : σ → Prop} (hbody : ∀ s, I s → (body s).Sat
      (fun b s' ↦ (b = true → I s') ∧ (b = false → Q s')) F) (hs : I s) :
    (whileTrue body μ hμ s).Sat (fun _ ↦ Q) F := by
  induction hn : μ s using Nat.strong_induction_on generalizing s with
  | _ n ih =>
    have hround := hbody s hs
    cases h : body s with
    | ret b s' =>
      rw [h] at hround
      cases b with
      | true =>
        rw [whileTrue_of_true h]
        exact ih (μ s') (hn ▸ hμ s s' h) (hround.1 rfl) rfl
      | false =>
        rw [whileTrue_of_false h]
        exact hround.2 rfl
    | stop f s' =>
      rw [whileTrue_of_stop h]
      rw [h] at hround
      exact hround

end Outcome
