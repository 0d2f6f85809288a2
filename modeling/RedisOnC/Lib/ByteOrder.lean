import RedisOnC.Lib.LittleEndian
import Mathlib.Data.List.Basic

/-!
# Byte strings in lexicographic order

`memcmp` on byte strings, and the order that programs build from it: compare a common prefix, then
the lengths. That is the lexicographic order of lists, in which a proper prefix comes first; paired
with a key from a linear order it gives the strict total order of sorted sets.
-/

/-- `memcmp` of the first `n` bytes, up to the size of the result: the difference of the first two
bytes that differ. -/
def memcmp : Bytes → Bytes → ℕ → ℤ
  | a :: as, b :: bs, n + 1 => if a = b then memcmp as bs n else (a.toNat : ℤ) - b.toNat
  | _, _, _ => 0

@[simp] theorem memcmp_zero (a b : Bytes) : memcmp a b 0 = 0 := by
  cases a <;> cases b <;> rfl

theorem memcmp_cons (a b : UInt8) (as bs : Bytes) (n : ℕ) :
    memcmp (a :: as) (b :: bs) (n + 1)
      = if a = b then memcmp as bs n else (a.toNat : ℤ) - b.toNat := rfl

theorem memcmp_eq_zero_iff {a b : Bytes} (h : a.length = b.length) :
    memcmp a b a.length = 0 ↔ a = b := by
  induction a generalizing b with
  | nil => simp [List.length_eq_zero_iff.mp h.symm]
  | cons x xs ih =>
    obtain ⟨y, ys, rfl⟩ : ∃ y ys, b = y :: ys := by
      cases b with
      | nil => simp at h
      | cons y ys => exact ⟨y, ys, rfl⟩
    have hlen : xs.length = ys.length := by simpa using h
    rw [List.length_cons, memcmp_cons]
    by_cases hxy : x = y
    · rw [if_pos hxy, ih hlen, hxy, List.cons_inj_right]
    · have hne : x.toNat ≠ y.toNat := fun heq ↦ hxy (UInt8.toNat_inj.mp heq)
      rw [if_neg hxy, List.cons_eq_cons]
      exact ⟨fun hsub ↦ absurd hsub (by omega), fun heq ↦ absurd heq.1 hxy⟩

/-- The comparison of a common prefix, then of the lengths, is the lexicographic order. -/
theorem memcmp_lt_iff (a b : Bytes) :
    (if memcmp a b (min a.length b.length) ≠ 0 then memcmp a b (min a.length b.length) < 0
      else a.length < b.length) ↔ a < b := by
  induction a generalizing b with
  | nil =>
    cases b with
    | nil => simp
    | cons y ys => simp
  | cons x xs ih =>
    cases b with
    | nil => simp
    | cons y ys =>
      rw [List.length_cons, List.length_cons, Nat.succ_min_succ, memcmp_cons, List.cons_lt_cons_iff]
      by_cases hxy : x = y
      · subst hxy
        rw [if_pos rfl, Nat.succ_lt_succ_iff, ih]
        simp
      · have hne : x.toNat ≠ y.toNat := fun heq ↦ hxy (UInt8.toNat_inj.mp heq)
        have hsub : (x.toNat : ℤ) - y.toNat ≠ 0 := by omega
        rw [if_neg hxy, if_pos hsub, UInt8.lt_iff_toNat_lt]
        constructor
        · exact fun h ↦ Or.inl (by omega)
        · rintro (h | h)
          · omega
          · exact absurd h.1 hxy

/-! ## Keys paired with byte strings -/

/-- By the key, then by the string. -/
def TupleLt {S : Type*} [LinearOrder S] (a b : S × Bytes) : Prop :=
  a.1 < b.1 ∨ a.1 = b.1 ∧ a.2 < b.2

namespace TupleLt

variable {S : Type*} [LinearOrder S] {a b c : S × Bytes}

theorem irrefl (a : S × Bytes) : ¬ TupleLt a a := by
  rintro (h | h)
  · exact lt_irrefl _ h
  · exact List.lt_irrefl _ h.2

theorem trans (hab : TupleLt a b) (hbc : TupleLt b c) : TupleLt a c := by
  rcases hab with hab | ⟨hab, hab'⟩
  · rcases hbc with hbc | ⟨hbc, -⟩
    · exact Or.inl (hab.trans hbc)
    · exact Or.inl (hbc ▸ hab)
  · rcases hbc with hbc | ⟨hbc, hbc'⟩
    · exact Or.inl (hab ▸ hbc)
    · exact Or.inr ⟨hab.trans hbc, List.lt_trans hab' hbc'⟩

theorem asymm (hab : TupleLt a b) : ¬ TupleLt b a := fun hba ↦ irrefl a (hab.trans hba)

theorem trichotomy (a b : S × Bytes) : TupleLt a b ∨ a = b ∨ TupleLt b a := by
  rcases lt_trichotomy a.1 b.1 with h | h | h
  · exact Or.inl (Or.inl h)
  · rcases Std.lt_trichotomy a.2 b.2 with h' | h' | h'
    · exact Or.inl (Or.inr ⟨h, h'⟩)
    · exact Or.inr (Or.inl (Prod.ext h h'))
    · exact Or.inr (Or.inr (Or.inr ⟨h.symm, h'⟩))
  · exact Or.inr (Or.inr (Or.inl h))

theorem of_not (hne : a.2 ≠ b.2) (h : ¬ TupleLt a b) : TupleLt b a :=
  ((trichotomy a b).resolve_left h).resolve_left fun heq ↦ hne (congrArg Prod.snd heq)

end TupleLt
