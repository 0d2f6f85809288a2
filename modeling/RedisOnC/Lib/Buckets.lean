import Mathlib.Data.List.Basic
import Mathlib.Data.List.Perm.Basic

/-!
# Elements distributed over buckets

A list of buckets in which every element stands in the bucket that a function names for it. The
content of the whole is the concatenation, and only its multiset matters: replacing one bucket
changes the content by exactly the difference of that bucket.
-/

namespace List

variable {α : Type*}

/-- Replacing one bucket exchanges its elements, up to order. -/
theorem flatten_set_perm {buckets : List (List α)} {i : ℕ} {b : List α}
    (h : buckets[i]? = some b) (b' : List α) :
    ((buckets.set i b').flatten ++ b).Perm (buckets.flatten ++ b') := by
  induction buckets generalizing i with
  | nil => cases h
  | cons c rest ih =>
    cases i with
    | zero =>
      obtain rfl : c = b := Option.some_inj.mp h
      rw [set_cons_zero, flatten_cons, flatten_cons]
      calc (b' ++ rest.flatten ++ c).Perm (c ++ (b' ++ rest.flatten)) := perm_append_comm
        _ ~ c ++ (rest.flatten ++ b') := perm_append_comm.append_left c
        _ ~ c ++ rest.flatten ++ b' := by rw [append_assoc]
    | succ i =>
      rw [set_cons_succ, flatten_cons, flatten_cons, append_assoc, append_assoc]
      exact (ih h).append_left c

/-- The element at a place, and the bucket without it, make up the bucket. -/
theorem perm_cons_eraseIdx {l : List α} {i : ℕ} {x : α} (h : l[i]? = some x) :
    l.Perm (x :: l.eraseIdx i) := by
  obtain ⟨hi, rfl⟩ := getElem?_eq_some_iff.mp h
  exact (getElem_cons_eraseIdx_perm hi).symm

theorem mapM_getElem?_range (l : List α) :
    (range l.length).mapM (fun i ↦ l[i]?) = some l := by
  have htake : ∀ k ≤ l.length, (range k).mapM (fun i ↦ l[i]?) = some (l.take k) := by
    intro k hk
    induction k with
    | zero => rfl
    | succ k ih =>
      rw [range_succ, mapM_append, ih (Nat.le_of_succ_le hk), take_succ_eq_append_getElem hk]
      simp [getElem?_eq_getElem hk]
  rw [htake _ (Nat.le_refl _), take_length]

/-- Every element stands in the bucket that `home` names for it. -/
def Placed (home : α → ℕ) (buckets : List (List α)) : Prop :=
  ∀ i b, buckets[i]? = some b → ∀ x ∈ b, home x = i

variable {home : α → ℕ} {buckets : List (List α)}

theorem placed_replicate (n : ℕ) : Placed home (replicate n []) := by
  intro i b hb x hx
  rw [getElem?_replicate] at hb
  split at hb
  · rw [← Option.some_inj.mp hb] at hx
    cases hx
  · cases hb

theorem Placed.set {i : ℕ} {b : List α} (h : Placed home buckets) (hb : ∀ x ∈ b, home x = i) :
    Placed home (buckets.set i b) := by
  intro j c hc x hx
  rw [getElem?_set] at hc
  split at hc
  · next hij =>
    split at hc
    · rw [← Option.some_inj.mp hc] at hx
      exact (hb x hx).trans hij
    · cases hc
  · exact h j c hc x hx

theorem Placed.mem_bucket {x : α} (h : Placed home buckets) (hx : x ∈ buckets.flatten) :
    ∃ b, buckets[home x]? = some b ∧ x ∈ b := by
  obtain ⟨b, hb, hxb⟩ := mem_flatten.mp hx
  obtain ⟨i, hi⟩ := mem_iff_getElem?.mp hb
  exact ⟨b, by rw [h i b hi x hxb, hi], hxb⟩

end List
