import RedisOnC.Lib.Outcome

/-!
# Computations in lockstep

Two computations that start in related states and end the same way, with the same value or for the
same reason, in related states again. The rules follow the ways to build a computation; for a loop
the bodies have to be in lockstep, and the measures do not matter.
-/

namespace Outcome

variable {φ σ τ α β : Type} {R : σ → τ → Prop}

/-- The same end, in related states. -/
def Lockstep (R : σ → τ → Prop) : Outcome φ σ α → Outcome φ τ α → Prop
  | ret a s, ret b t => a = b ∧ R s t
  | stop f s, stop g t => f = g ∧ R s t
  | _, _ => False

namespace Lockstep

variable {o : Outcome φ σ α} {o' : Outcome φ τ α} {s : σ} {t : τ}

theorem of_ret {a : α} (h : Lockstep R o o') (ho : o = .ret a s) : ∃ t, o' = .ret a t ∧ R s t := by
  subst ho
  cases o' with
  | ret b t =>
    obtain ⟨rfl, hR⟩ := h
    exact ⟨t, rfl, hR⟩
  | stop => exact h.elim

theorem of_stop {f : φ} (h : Lockstep R o o') (ho : o = .stop f s) :
    ∃ t, o' = .stop f t ∧ R s t := by
  subst ho
  cases o' with
  | ret => exact h.elim
  | stop g t =>
    obtain ⟨rfl, hR⟩ := h
    exact ⟨t, rfl, hR⟩

theorem exists_ret {a : α} (h : Lockstep R o o') (ho : o' = .ret a t) :
    ∃ s, o = .ret a s ∧ R s t := by
  subst ho
  cases o with
  | ret b s =>
    obtain ⟨rfl, hR⟩ := h
    exact ⟨s, rfl, hR⟩
  | stop => exact h.elim

theorem bind {k : α → σ → Outcome φ σ β} {k' : α → τ → Outcome φ τ β} (h : Lockstep R o o')
    (hk : ∀ a s t, R s t → Lockstep R (k a s) (k' a t)) :
    Lockstep R (o.bind k) (o'.bind k') := by
  cases o with
  | ret a s =>
    obtain ⟨t, rfl, hR⟩ := h.of_ret rfl
    exact hk a s t hR
  | stop f s =>
    obtain ⟨t, rfl, hR⟩ := h.of_stop rfl
    exact ⟨rfl, hR⟩

theorem ofOption {f : φ} (h : R s t) (o : Option α) :
    Lockstep R (Outcome.ofOption f s o) (Outcome.ofOption f t o) := by
  cases o <;> exact ⟨rfl, h⟩

/-- **The loop rule.** Bodies in lockstep make loops in lockstep. -/
theorem whileTrue {body : σ → Outcome φ σ Bool} {body' : τ → Outcome φ τ Bool} {μ : σ → ℕ}
    {μ' : τ → ℕ} {hμ : ∀ s s', body s = .ret true s' → μ s' < μ s}
    {hμ' : ∀ t t', body' t = .ret true t' → μ' t' < μ' t}
    (hbody : ∀ s t, R s t → Lockstep R (body s) (body' t)) (hR : R s t) :
    Lockstep R (Outcome.whileTrue body μ hμ s) (Outcome.whileTrue body' μ' hμ' t) := by
  induction hn : μ s using Nat.strong_induction_on generalizing s t with
  | _ n ih =>
    have hround := hbody s t hR
    cases h : body s with
    | ret b s' =>
      obtain ⟨t', h', hR'⟩ := hround.of_ret h
      cases b with
      | true =>
        rw [whileTrue_of_true h, whileTrue_of_true h']
        exact ih (μ s') (hn ▸ hμ s s' h) hR' rfl
      | false =>
        rw [whileTrue_of_false h, whileTrue_of_false h']
        exact ⟨rfl, hR'⟩
    | stop f s' =>
      obtain ⟨t', h', hR'⟩ := hround.of_stop h
      rw [whileTrue_of_stop h, whileTrue_of_stop h']
      exact ⟨rfl, hR'⟩

end Lockstep

end Outcome
