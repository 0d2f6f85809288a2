import RedisOnC.Lib.WhileLoop

/-!
# Counting the rounds of a loop

`WhileLoop.rounds body s` is the number of rounds that the loop makes from `s` before it leaves, and
`none` for a loop that does not end. The rule is that of a potential: what every round takes off it
pays for the round, and what is left of it at the end is not spent.
-/

namespace WhileLoop

variable {σ ρ : Type} {body : σ → Option (σ ⊕ ρ)} {s : σ} {r : ρ} {n : ℕ}

/-- The body, with a counter of the rounds that go on. -/
def counted (body : σ → Option (σ ⊕ ρ)) (s : σ × ℕ) : Option ((σ × ℕ) ⊕ (ρ × ℕ)) :=
  (body s.1).map (Sum.map (fun s' ↦ (s', s.2 + 1)) fun r ↦ (r, s.2))

/-- The rounds that go on. The pass in which the loop is left is not one of them. -/
def rounds (body : σ → Option (σ ⊕ ρ)) (s : σ) : Option ℕ :=
  (whileLoop (counted body) (s, 0)).map Prod.snd

/-- The counter changes nothing. -/
theorem exists_counted (h : whileLoop body s = some r) :
    ∃ n, whileLoop (counted body) (s, 0) = some (r, n) := by
  have hsim : ∃ x, whileLoop (counted body) (s, 0) = some x ∧ x.1 = r := by
    refine simulate (R := fun s (t : σ × ℕ) ↦ t.1 = s) (Q := fun r (x : ρ × ℕ) ↦ x.1 = r) ?_ ?_ rfl
      h
    · rintro _ t s' rfl hbody
      exact ⟨(s', t.2 + 1), by rw [counted, hbody]; rfl, rfl⟩
    · rintro _ t r rfl hbody
      exact ⟨(r, t.2), by rw [counted, hbody]; rfl, rfl⟩
  obtain ⟨⟨_, n⟩, hrun, rfl⟩ := hsim
  exact ⟨n, hrun⟩

/-- **The potential.** A loop that ends makes no more rounds than the potential of its state, which
every round lowers, and what is left at the end may be kept. -/
theorem exists_rounds {I : σ → Prop} (μ : σ → ℕ) (ν : ρ → ℕ)
    (hcont : ∀ s s', I s → body s = some (.inl s') → I s' ∧ μ s' < μ s)
    (hexit : ∀ s r, I s → body s = some (.inr r) → ν r ≤ μ s) (hs : I s)
    (h : whileLoop body s = some r) : ∃ n, rounds body s = some n ∧ n + ν r ≤ μ s := by
  obtain ⟨n, hrun⟩ := exists_counted h
  refine ⟨n, by rw [rounds, hrun]; rfl, ?_⟩
  refine partialCorrect (I := fun t : σ × ℕ ↦ I t.1 ∧ t.2 + μ t.1 ≤ μ s)
    (Q := fun x : ρ × ℕ ↦ x.2 + ν x.1 ≤ μ s) ?_ ?_ ⟨hs, (Nat.zero_add _).le⟩ hrun
  · rintro ⟨s₁, k⟩ t ⟨hs₁, hle⟩ hbody
    obtain ⟨x, hx, heq⟩ := Option.map_eq_some_iff.mp hbody
    cases x with
    | inl s₂ =>
      obtain rfl := Sum.inl.inj heq
      obtain ⟨hs₂, hlt⟩ := hcont s₁ s₂ hs₁ hx
      refine ⟨hs₂, le_trans ?_ hle⟩
      rw [Nat.add_assoc, Nat.add_comm 1]
      exact Nat.add_le_add_left hlt k
    | inr r₂ => exact absurd heq Sum.inr_ne_inl
  · rintro ⟨s₁, k⟩ t ⟨hs₁, hle⟩ hbody
    obtain ⟨x, hx, heq⟩ := Option.map_eq_some_iff.mp hbody
    cases x with
    | inl s₂ => exact absurd heq Sum.inl_ne_inr
    | inr r₂ =>
      obtain rfl := Sum.inr.inj heq
      exact (Nat.add_le_add_left (hexit s₁ r₂ hs₁ hx) k).trans hle

theorem rounds_of_exit (h : body s = some (.inr r)) : rounds body s = some 0 := by
  have hrun : whileLoop (counted body) (s, 0) = some (r, 0) := of_exit (by rw [counted, h]; rfl)
  rw [rounds, hrun]
  rfl

theorem rounds_of_continue {s' : σ} (h : body s = some (.inl s')) (hn : rounds body s' = some n) :
    rounds body s = some (n + 1) := by
  obtain ⟨⟨r, m⟩, hrun, rfl⟩ := Option.map_eq_some_iff.mp hn
  have hsim : ∃ x, whileLoop (counted body) (s', 1) = some x ∧ x.2 = m + 1 := by
    refine simulate (R := fun (t u : σ × ℕ) ↦ u = (t.1, t.2 + 1))
      (Q := fun (x y : ρ × ℕ) ↦ y.2 = x.2 + 1) ?_ ?_ rfl hrun
    · rintro t _ t' rfl hbody
      obtain ⟨x | x, hx, heq⟩ := Option.map_eq_some_iff.mp hbody
      · obtain rfl := Sum.inl.inj heq
        exact ⟨(x, t.2 + 1 + 1), by rw [counted, hx]; rfl, rfl⟩
      · exact absurd heq Sum.inr_ne_inl
    · rintro t _ y rfl hbody
      obtain ⟨x | x, hx, heq⟩ := Option.map_eq_some_iff.mp hbody
      · exact absurd heq Sum.inl_ne_inr
      · obtain rfl := Sum.inr.inj heq
        exact ⟨(x, t.2 + 1), by rw [counted, hx]; rfl, rfl⟩
  obtain ⟨x, hx, hcount⟩ := hsim
  have hstep : counted body (s, 0) = some (.inl (s', 1)) := by rw [counted, h]; rfl
  rw [rounds, of_continue hstep, hx, Option.map_some, hcount]

end WhileLoop
