import Mathlib.Algebra.Order.Ring.Nat

/-!
# Loops that may fail or never end

A `while` loop whose body can do three things: go round again with a new state, leave the loop with
a result, or get stuck (`none`). The loop itself is the least fixed point of that body, so `none`
also stands for a loop that runs forever; nothing bounds the number of rounds in advance.

Three rules cover every use. `WhileLoop.total` is total correctness from an invariant and a measure
(`WhileLoop.total_lex` from two), `WhileLoop.partialCorrect` is partial correctness from an invariant
alone, and `WhileLoop.eq_none` is divergence: a set of states the body never leaves.
`WhileLoop.Reaches` are the states of a run, whether it ends or not.
-/

variable {σ ρ : Type}

/-- The body of a loop: it goes on with a new state, or leaves with a result. -/
abbrev LoopBody (σ ρ : Type) := σ → Option (σ ⊕ ρ)

/-- Run `body` until it leaves the loop with a result. -/
def LoopBody.whileLoop (body : LoopBody σ ρ) (s : σ) : Option ρ := do
  match ← body s with
  | .inl s' => body |>.whileLoop s'
  | .inr r => some r
partial_fixpoint

export LoopBody (whileLoop)

namespace WhileLoop

variable {body : σ → Option (σ ⊕ ρ)} {s s' : σ} {r : ρ}

theorem of_continue (h : body s = some (.inl s')) : whileLoop body s = whileLoop body s' := by
  rw [whileLoop, h]
  rfl

theorem of_exit (h : body s = some (.inr r)) : whileLoop body s = some r := by
  rw [whileLoop, h]
  rfl

theorem of_stuck (h : body s = none) : whileLoop body s = none := by
  rw [whileLoop, h]
  rfl

/-- **Total correctness.** Every round from a state of the invariant either leaves with a good
result or stays in the invariant with a smaller measure. -/
theorem total {I : σ → Prop} {Q : ρ → Prop} (μ : σ → ℕ)
    (step : ∀ s, I s → (∃ s', body s = some (.inl s') ∧ I s' ∧ μ s' < μ s) ∨
      ∃ r, body s = some (.inr r) ∧ Q r) (hs : I s) :
    ∃ r, whileLoop body s = some r ∧ Q r := by
  induction hn : μ s using Nat.strong_induction_on generalizing s with
  | _ n ih =>
    rcases step s hs with ⟨s', hbody, hs', hlt⟩ | ⟨r, hbody, hr⟩
    · rw [of_continue hbody]
      exact ih (μ s') (hn ▸ hlt) hs' rfl
    · exact ⟨r, of_exit hbody, hr⟩

/-- **Total correctness, with two measures.** Every round lowers the first one, or keeps it and
lowers the second. -/
theorem total_lex {I : σ → Prop} {Q : ρ → Prop} (μ ν : σ → ℕ)
    (step : ∀ s, I s → (∃ s', body s = some (.inl s') ∧ I s' ∧
      (μ s' < μ s ∨ μ s' = μ s ∧ ν s' < ν s)) ∨ ∃ r, body s = some (.inr r) ∧ Q r) (hs : I s) :
    ∃ r, whileLoop body s = some r ∧ Q r := by
  induction hm : μ s using Nat.strong_induction_on generalizing s with
  | _ m ihm =>
    induction hn : ν s using Nat.strong_induction_on generalizing s with
    | _ n ihn =>
      rcases step s hs with ⟨s', hbody, hs', hlt⟩ | ⟨r, hbody, hr⟩
      · rw [of_continue hbody]
        rcases hlt with hlt | ⟨heq, hlt⟩
        · exact ihm (μ s') (hm ▸ hlt) hs' rfl
        · exact ihn (ν s') (hn ▸ hlt) hs' (heq.trans hm) rfl
      · exact ⟨r, of_exit hbody, hr⟩

/-- **Partial correctness.** An invariant of the rounds that go on bounds the result of a loop that
returns. -/
theorem partialCorrect {I : σ → Prop} {Q : ρ → Prop}
    (hcont : ∀ s s', I s → body s = some (.inl s') → I s')
    (hexit : ∀ s r, I s → body s = some (.inr r) → Q r)
    (hs : I s) (h : whileLoop body s = some r) : Q r := by
  refine LoopBody.whileLoop.partial_correctness body (fun s r ↦ I s → Q r) ?_ s r h hs
  intro run ih s r hrun hI
  cases hbody : body s with
  | none => rw [hbody] at hrun; exact absurd hrun (by simp)
  | some x =>
    rw [hbody] at hrun
    cases x with
    | inl s' => exact ih s' r hrun (hcont s s' hI hbody)
    | inr r' =>
      obtain rfl : r' = r := Option.some_inj.mp hrun
      exact hexit s r' hI hbody

/-- A body that does more rounds the same way gives the same result. -/
theorem mono {body' : σ → Option (σ ⊕ ρ)} (hbody : ∀ s x, body s = some x → body' s = some x)
    (h : whileLoop body s = some r) : whileLoop body' s = some r := by
  refine partialCorrect (I := fun t ↦ whileLoop body' s = whileLoop body' t)
    (Q := fun r ↦ whileLoop body' s = some r) (fun s₁ s₂ hI hs₁ ↦ ?_) (fun s₁ r hI hs₁ ↦ ?_) rfl h
  · rw [hI, of_continue (hbody s₁ _ hs₁)]
  · rw [hI, of_exit (hbody s₁ _ hs₁)]

/-- A loop on images of the states of another one, with the images of its results. -/
theorem map {τ ρ' : Type} {body' : τ → Option (τ ⊕ ρ')} (f : σ → τ) (g : ρ → ρ')
    (hbody : ∀ s, body' (f s) = (body s).map (Sum.map f g)) (s : σ) :
    whileLoop body' (f s) = (whileLoop body s).map g := by
  have hround : ∀ s x, body' (f s) = some x → ∃ y, body s = some y ∧ x = Sum.map f g y := by
    intro s x hx
    rw [hbody] at hx
    obtain ⟨y, hy, rfl⟩ := Option.map_eq_some_iff.mp hx
    exact ⟨y, hy, rfl⟩
  apply Option.ext
  intro r
  rw [Option.map_eq_some_iff]
  constructor
  · intro h
    refine partialCorrect (I := fun u ↦ ∃ t, u = f t ∧ whileLoop body s = whileLoop body t)
      (Q := fun r ↦ ∃ x, whileLoop body s = some x ∧ g x = r) ?_ ?_ ⟨s, rfl, rfl⟩ h
    · rintro _ u' ⟨t, rfl, ht⟩ hu
      obtain ⟨_ | r', hy, heq⟩ := hround t _ hu
      · cases heq
        exact ⟨_, rfl, ht.trans (of_continue hy)⟩
      · cases heq
    · rintro _ r' ⟨t, rfl, ht⟩ hu
      obtain ⟨_ | r'', hy, heq⟩ := hround t _ hu
      · cases heq
      · cases heq
        exact ⟨r'', ht.trans (of_exit hy), rfl⟩
  · rintro ⟨x, hx, rfl⟩
    refine partialCorrect (I := fun t ↦ whileLoop body' (f s) = whileLoop body' (f t))
      (Q := fun x ↦ whileLoop body' (f s) = some (g x)) ?_ ?_ rfl hx
    · intro t t' ht hround'
      have hu : body' (f t) = some (.inl (f t')) := by
        rw [hbody, hround']
        rfl
      exact ht.trans (of_continue hu)
    · intro t r' ht hround'
      have hu : body' (f t) = some (.inr (g r')) := by
        rw [hbody, hround']
        rfl
      exact ht.trans (of_exit hu)

/-- **Simulation.** A loop that does the same rounds as another one, on related states. -/
theorem simulate {τ ρ' : Type} {body' : τ → Option (τ ⊕ ρ')} {R : σ → τ → Prop} {Q : ρ → ρ' → Prop}
    (hcont : ∀ s t s', R s t → body s = some (.inl s') → ∃ t', body' t = some (.inl t') ∧ R s' t')
    (hexit : ∀ s t r, R s t → body s = some (.inr r) → ∃ r', body' t = some (.inr r') ∧ Q r r')
    {t : τ} (ht : R s t) (h : whileLoop body s = some r) :
    ∃ r', whileLoop body' t = some r' ∧ Q r r' := by
  refine partialCorrect (I := fun s₁ ↦ ∃ t₁, R s₁ t₁ ∧ whileLoop body' t = whileLoop body' t₁)
    (Q := fun r ↦ ∃ r', whileLoop body' t = some r' ∧ Q r r') ?_ ?_ ⟨t, ht, rfl⟩ h
  · rintro s₁ s₂ ⟨t₁, ht₁, heq⟩ hbody
    obtain ⟨t₂, hbody', ht₂⟩ := hcont s₁ t₁ s₂ ht₁ hbody
    exact ⟨t₂, ht₂, heq.trans (of_continue hbody')⟩
  · rintro s₁ r₁ ⟨t₁, ht₁, heq⟩ hbody
    obtain ⟨r', hbody', hr⟩ := hexit s₁ t₁ r₁ ht₁ hbody
    exact ⟨r', heq.trans (of_exit hbody'), hr⟩

/-- **Divergence.** A loop started in a set of states that its body never leaves has no result. -/
theorem eq_none {I : σ → Prop} (step : ∀ s, I s → ∃ s', body s = some (.inl s') ∧ I s')
    (hs : I s) : whileLoop body s = none := by
  cases h : whileLoop body s with
  | none => rfl
  | some r =>
    refine absurd (partialCorrect (Q := fun _ ↦ False) (fun s s' hI hbody ↦ ?_)
      (fun s r hI hbody ↦ ?_) hs h) id
    · obtain ⟨t, ht, htI⟩ := step s hI
      rw [ht] at hbody
      cases hbody
      exact htI
    · obtain ⟨t, ht, -⟩ := step s hI
      rw [ht] at hbody
      cases hbody

/-! ## The states of a run -/

/-- The states that the loop gets to from `s`. -/
inductive Reaches (body : σ → Option (σ ⊕ ρ)) (s : σ) : σ → Prop
  | refl : Reaches body s s
  | step {t u : σ} : Reaches body s t → body t = some (.inl u) → Reaches body s u

namespace Reaches

theorem trans {u : σ} (h : Reaches body s s') (h' : Reaches body s' u) : Reaches body s u := by
  induction h' with
  | refl => exact h
  | step _ hbody ih => exact ih.step hbody

/-- What the rounds keep holds in every state that the loop gets to. -/
theorem invariant {I : σ → Prop} (h : Reaches body s s') (hs : I s)
    (step : ∀ t u, I t → body t = some (.inl u) → I u) : I s' := by
  induction h with
  | refl => exact hs
  | step _ hbody ih => exact step _ _ ih hbody

theorem whileLoop_eq (h : Reaches body s s') : whileLoop body s = whileLoop body s' := by
  induction h with
  | refl => rfl
  | step _ hbody ih => exact ih.trans (of_continue hbody)

theorem eq_of_exit (h : Reaches body s s') (hexit : body s = some (.inr r)) : s' = s := by
  induction h with
  | refl => rfl
  | step _ hbody ih =>
    rw [ih, hexit] at hbody
    cases hbody

end Reaches

theorem exists_exit (h : whileLoop body s = some r) :
    ∃ s', Reaches body s s' ∧ body s' = some (.inr r) :=
  partialCorrect (I := Reaches body s) (Q := fun r ↦ ∃ s', Reaches body s s' ∧
    body s' = some (.inr r)) (fun _ _ hs hbody ↦ hs.step hbody)
    (fun s' _ hs hbody ↦ ⟨s', hs, hbody⟩)
    Reaches.refl h

end WhileLoop

/-! ## Loops over a list -/

/-- **Total correctness of a loop over a list.** The invariant speaks of the elements that are
done. -/
theorem ForLoop.total {α : Type} {f : σ → α → Option σ} {I : List α → σ → Prop} {l : List α}
    (step : ∀ done x rest s, l = done ++ x :: rest → I done s →
      ∃ s', f s x = some s' ∧ I (done ++ [x]) s') {s : σ} (hs : I [] s) :
    ∃ s', l.foldlM f s = some s' ∧ I l s' := by
  suffices hgen : ∀ rest done s, l = done ++ rest → I done s →
      ∃ s', rest.foldlM f s = some s' ∧ I l s' from hgen l [] s rfl hs
  intro rest
  induction rest with
  | nil =>
    intro done s hl hI
    obtain rfl : l = done := hl.trans (List.append_nil _)
    exact ⟨s, rfl, hI⟩
  | cons x rest ih =>
    intro done s hl hI
    obtain ⟨s₁, hcode, hI₁⟩ := step done x rest s hl hI
    obtain ⟨s₂, hcode₂, hI₂⟩ := ih (done ++ [x]) s₁ (by rw [hl, List.append_assoc]; rfl) hI₁
    exact ⟨s₂, by rw [List.foldlM_cons, hcode]; exact hcode₂, hI₂⟩
