import RedisOnC.Lib.TreeContext
import Mathlib.Data.Nat.Log

/-!
# Height-balanced trees

Rotations, the rebalancing of one node, and `fixUp`, which rebalances every node of a context from
the hole up to the root. None of these moves an element in the in-order sequence, and `fixUp`
restores balance whenever the tree put into the hole is at most one level higher or lower than the
balanced tree that was there before.
-/

namespace BinaryTree

variable {α : Type*}

/-- Every node has subtrees whose heights differ by at most one. -/
def Balanced : BinaryTree α → Prop
  | nil => True
  | node _ l r => l.height ≤ r.height + 1 ∧ r.height ≤ l.height + 1 ∧ l.Balanced ∧ r.Balanced

@[simp] theorem balanced_nil : (nil : BinaryTree α).Balanced := trivial

theorem balanced_node {x : α} {l r : BinaryTree α} : (node x l r).Balanced ↔
    l.height ≤ r.height + 1 ∧ r.height ≤ l.height + 1 ∧ l.Balanced ∧ r.Balanced := Iff.rfl

theorem Balanced.of_plug {c : Ctx α} {t : BinaryTree α} (h : (c.plug t).Balanced) :
    t.Balanced := by
  induction c generalizing t with
  | top => exact h
  | left up x r ih => exact (ih h).2.2.1
  | right up x l ih => exact (ih h).2.2.2

/-- Balance depends on the heights only, not on the elements. -/
theorem Balanced.plug_congr {c : Ctx α} {t t' : BinaryTree α} (h : (c.plug t).Balanced)
    (ht' : t'.Balanced) (hh : t'.height = t.height) : (c.plug t').Balanced := by
  induction c generalizing t t' with
  | top => exact ht'
  | left up x r ih =>
    obtain ⟨h1, h2, -, hr⟩ := Balanced.of_plug (t := node x t r) h
    exact ih h ⟨hh ▸ h1, hh ▸ h2, ht', hr⟩ (by rw [height, height, hh])
  | right up x l ih =>
    obtain ⟨h1, h2, hl, -⟩ := Balanced.of_plug (t := node x l t) h
    exact ih h ⟨hh ▸ h1, hh ▸ h2, hl, ht'⟩ (by rw [height, height, hh])

theorem Balanced.mirror {t : BinaryTree α} (h : t.Balanced) : t.mirror.Balanced := by
  induction t with
  | nil => trivial
  | node x l r ihl ihr =>
    obtain ⟨h1, h2, hl, hr⟩ := h
    rw [mirror_node, balanced_node, height_mirror, height_mirror]
    exact ⟨h2, h1, ihr hr, ihl hl⟩

/-- A balanced tree of height `d` has at least `2 ^ (d / 2)` leaves, so its height is at most twice
the logarithm of its size. -/
theorem Balanced.two_pow_le {t : BinaryTree α} (h : t.Balanced) :
    2 ^ (t.height / 2) ≤ t.numNodes + 1 := by
  suffices hgen : ∀ n (t : BinaryTree α), t.Balanced → n ≤ t.height →
      2 ^ (n / 2) ≤ t.numNodes + 1 from hgen _ t h le_rfl
  intro n
  induction n using Nat.strong_induction_on with
  | _ n ih =>
    intro t ht hn
    rcases Nat.lt_or_ge n 2 with hlt | hge
    · rw [Nat.div_eq_of_lt hlt, pow_zero]
      omega
    · obtain ⟨m, rfl⟩ : ∃ m, n = m + 2 := ⟨n - 2, by omega⟩
      cases t with
      | nil => simp at hn
      | node x l r =>
        obtain ⟨hl, hr, hbl, hbr⟩ := ht
        rw [height] at hn
        -- both subtrees are at least `m` high, because their heights are within one
        have h1 := ih m (by omega) l hbl (by omega)
        have h2 := ih m (by omega) r hbr (by omega)
        have hdiv : (m + 2) / 2 = m / 2 + 1 := by omega
        rw [hdiv, pow_succ, numNodes]
        omega

theorem Balanced.height_le_log {t : BinaryTree α} (h : t.Balanced) :
    t.height ≤ 2 * Nat.log 2 (t.numNodes + 1) + 1 := by
  have hhalf : t.height / 2 ≤ Nat.log 2 (t.numNodes + 1) :=
    Nat.le_log_of_pow_le Nat.one_lt_two h.two_pow_le
  omega

theorem numNodes_lt_two_pow (t : BinaryTree α) : t.numNodes < 2 ^ t.height := by
  induction t with
  | nil => exact Nat.one_pos
  | node x l r ihl ihr =>
    have hl := Nat.pow_le_pow_right Nat.two_pos (le_max_left l.height r.height)
    have hr := Nat.pow_le_pow_right Nat.two_pos (le_max_right l.height r.height)
    rw [numNodes, height, pow_succ]
    omega

/-! ## Rotations and one node -/

/-- Promote the right child. -/
def rotateLeft : BinaryTree α → BinaryTree α
  | node x a (node y b c) => node y (node x a b) c
  | t => t

/-- Promote the left child. -/
def rotateRight : BinaryTree α → BinaryTree α
  | node x (node y a b) c => node y a (node x b c)
  | t => t

/-- Repair a node whose left subtree is too deep. -/
def fixLeft (x : α) (l r : BinaryTree α) : BinaryTree α :=
  match l with
  | nil => node x nil r
  | node y a b =>
    if a.height < b.height then rotateRight (node x (rotateLeft (node y a b)) r)
    else rotateRight (node x (node y a b) r)

/-- Repair a node whose right subtree is too deep. -/
def fixRight (x : α) (l r : BinaryTree α) : BinaryTree α :=
  match r with
  | nil => node x l nil
  | node y a b =>
    if b.height < a.height then rotateLeft (node x l (rotateRight (node y a b)))
    else rotateLeft (node x l (node y a b))

/-- One round of the repair: nothing to do, or one single or double rotation. -/
def rebalance (x : α) (l r : BinaryTree α) : BinaryTree α :=
  if r.height + 1 < l.height then fixLeft x l r
  else if l.height + 1 < r.height then fixRight x l r
  else node x l r

@[simp] theorem inorder_rotateLeft (t : BinaryTree α) : (rotateLeft t).inorder = t.inorder := by
  unfold rotateLeft
  split <;> simp

@[simp] theorem inorder_rotateRight (t : BinaryTree α) : (rotateRight t).inorder = t.inorder := by
  unfold rotateRight
  split <;> simp

@[simp] theorem mirror_rotateLeft (t : BinaryTree α) :
    (rotateLeft t).mirror = rotateRight t.mirror := by
  rcases t with _ | ⟨x, a, _ | ⟨y, b, c⟩⟩ <;> rfl

@[simp] theorem mirror_rotateRight (t : BinaryTree α) :
    (rotateRight t).mirror = rotateLeft t.mirror := by
  rcases t with _ | ⟨x, _ | ⟨y, a, b⟩, c⟩ <;> rfl

theorem mirror_fixLeft (x : α) (l r : BinaryTree α) :
    (fixLeft x l r).mirror = fixRight x r.mirror l.mirror := by
  rcases l with _ | ⟨y, a, b⟩
  · rfl
  · rw [fixLeft, mirror_node, fixRight, height_mirror, height_mirror]
    split <;> simp

theorem mirror_rebalance (x : α) (l r : BinaryTree α) :
    (rebalance x l r).mirror = rebalance x r.mirror l.mirror := by
  have hfix : (fixRight x l r).mirror = fixLeft x r.mirror l.mirror := by
    rw [← mirror_mirror (fixLeft x r.mirror l.mirror), mirror_fixLeft, mirror_mirror, mirror_mirror]
  simp only [rebalance, height_mirror]
  by_cases hl : r.height + 1 < l.height
  · rw [if_pos hl, if_neg (by omega), if_pos hl, mirror_fixLeft]
  · by_cases hr : l.height + 1 < r.height
    · rw [if_neg hl, if_pos hr, if_pos hr, hfix]
    · rw [if_neg hl, if_neg hr, if_neg hr, if_neg hl, mirror_node]

theorem inorder_fixLeft (x : α) (l r : BinaryTree α) :
    (fixLeft x l r).inorder = l.inorder ++ x :: r.inorder := by
  cases l with
  | nil => rfl
  | node y a b =>
    rw [fixLeft]
    split <;> simp

theorem inorder_fixRight (x : α) (l r : BinaryTree α) :
    (fixRight x l r).inorder = l.inorder ++ x :: r.inorder := by
  have hmir : fixRight x l r = (fixLeft x r.mirror l.mirror).mirror := by
    rw [mirror_fixLeft, mirror_mirror, mirror_mirror]
  rw [hmir, inorder_mirror, inorder_fixLeft]
  simp

@[simp] theorem inorder_rebalance (x : α) (l r : BinaryTree α) :
    (rebalance x l r).inorder = l.inorder ++ x :: r.inorder := by
  rw [rebalance]
  split
  · exact inorder_fixLeft x l r
  · split
    · exact inorder_fixRight x l r
    · rfl

/-- Repairing a left subtree that is two levels too deep gives a balanced tree, at most one level
lower than the node was. -/
theorem balanced_fixLeft {x : α} {l r : BinaryTree α} (hl : l.Balanced) (hr : r.Balanced)
    (h : l.height = r.height + 2) : (fixLeft x l r).Balanced ∧
      l.height ≤ (fixLeft x l r).height ∧ (fixLeft x l r).height ≤ l.height + 1 := by
  cases l with
  | nil => simp at h
  | node y a b =>
    obtain ⟨h1, h2, ha, hb⟩ := hl
    rw [height] at h ⊢
    rw [fixLeft]
    by_cases hab : a.height < b.height
    · rw [if_pos hab]
      cases b with
      | nil => simp at hab
      | node z c d =>
        obtain ⟨h3, h4, hc, hd⟩ := hb
        rw [height] at h h1 h2 hab
        simp only [rotateLeft, rotateRight, balanced_node, height]
        exact ⟨⟨by omega, by omega, ⟨by omega, by omega, ha, hc⟩, by omega, by omega, hd, hr⟩,
          by omega, by omega⟩
    · rw [if_neg hab]
      simp only [rotateRight, balanced_node, height]
      exact ⟨⟨by omega, by omega, ha, by omega, by omega, hb, hr⟩, by omega, by omega⟩

theorem balanced_fixRight {x : α} {l r : BinaryTree α} (hl : l.Balanced) (hr : r.Balanced)
    (h : r.height = l.height + 2) : (fixRight x l r).Balanced ∧
      r.height ≤ (fixRight x l r).height ∧ (fixRight x l r).height ≤ r.height + 1 := by
  have hmir : fixRight x l r = (fixLeft x r.mirror l.mirror).mirror := by
    rw [mirror_fixLeft, mirror_mirror, mirror_mirror]
  have key := balanced_fixLeft (x := x) hr.mirror hl.mirror (by rw [height_mirror, height_mirror, h])
  rw [height_mirror] at key
  rw [hmir, height_mirror]
  exact ⟨key.1.mirror, key.2⟩

/-! ## The path to the root -/

/-- Rebalance every node from the hole to the root. -/
def fixUp : Ctx α → BinaryTree α → BinaryTree α
  | .top, t => t
  | .left up x r, t => fixUp up (rebalance x t r)
  | .right up x l, t => fixUp up (rebalance x l t)

@[simp] theorem fixUp_top (t : BinaryTree α) : fixUp .top t = t := rfl

@[simp] theorem fixUp_left (up : Ctx α) (x : α) (r t : BinaryTree α) :
    fixUp (.left up x r) t = fixUp up (rebalance x t r) := rfl

@[simp] theorem fixUp_right (up : Ctx α) (x : α) (l t : BinaryTree α) :
    fixUp (.right up x l) t = fixUp up (rebalance x l t) := rfl

@[simp] theorem inorder_fixUp (c : Ctx α) (t : BinaryTree α) :
    (fixUp c t).inorder = (c.plug t).inorder := by
  induction c generalizing t with
  | top => rfl
  | left up x r ih => simp [ih, Ctx.inorder_plug]
  | right up x l ih => simp [ih, Ctx.inorder_plug]

/-- One node of the path: if the old subtree `t₀` was balanced beside `r` and the new one is within
one level of it, then the repaired node is balanced and within one level of the old node. -/
private theorem balanced_rebalance_left {x : α} {t₀ t r : BinaryTree α}
    (h₀ : (node x t₀ r).Balanced) (ht : t.Balanced) (hle : t.height ≤ t₀.height + 1)
    (hge : t₀.height ≤ t.height + 1) : (rebalance x t r).Balanced ∧
      (rebalance x t r).height ≤ (node x t₀ r).height + 1 ∧
      (node x t₀ r).height ≤ (rebalance x t r).height + 1 := by
  obtain ⟨h1, h2, -, hr⟩ := h₀
  rw [rebalance, height]
  by_cases hl : r.height + 1 < t.height
  · rw [if_pos hl]
    obtain ⟨hb, hlo, hhi⟩ := balanced_fixLeft (x := x) ht hr (by omega)
    exact ⟨hb, by omega, by omega⟩
  · rw [if_neg hl]
    by_cases hr' : t.height + 1 < r.height
    · rw [if_pos hr']
      obtain ⟨hb, hlo, hhi⟩ := balanced_fixRight (x := x) ht hr (by omega)
      exact ⟨hb, by omega, by omega⟩
    · rw [if_neg hr', balanced_node, height]
      exact ⟨⟨by omega, by omega, ht, hr⟩, by omega, by omega⟩

private theorem balanced_rebalance_right {x : α} {t₀ t l : BinaryTree α}
    (h₀ : (node x l t₀).Balanced) (ht : t.Balanced) (hle : t.height ≤ t₀.height + 1)
    (hge : t₀.height ≤ t.height + 1) : (rebalance x l t).Balanced ∧
      (rebalance x l t).height ≤ (node x l t₀).height + 1 ∧
      (node x l t₀).height ≤ (rebalance x l t).height + 1 := by
  have hmir : rebalance x l t = (rebalance x t.mirror l.mirror).mirror := by
    rw [mirror_rebalance, mirror_mirror, mirror_mirror]
  have key := balanced_rebalance_left h₀.mirror ht.mirror
    (by rw [height_mirror, height_mirror]; exact hle)
    (by rw [height_mirror, height_mirror]; exact hge)
  rw [hmir, height_mirror, ← height_mirror (node x l t₀), mirror_node]
  exact ⟨key.1.mirror, key.2⟩

/-- **Repairing a path.** If the hole held a tree within one level of `t`, then rebalancing from
`t` to the root restores balance everywhere. -/
theorem balanced_fixUp {c : Ctx α} {t₀ t : BinaryTree α} (h₀ : (c.plug t₀).Balanced)
    (ht : t.Balanced) (hle : t.height ≤ t₀.height + 1) (hge : t₀.height ≤ t.height + 1) :
    (fixUp c t).Balanced := by
  induction c generalizing t₀ t with
  | top => exact ht
  | left up x r ih =>
    obtain ⟨hb, hlo, hhi⟩ := balanced_rebalance_left (Balanced.of_plug h₀) ht hle hge
    exact ih h₀ hb hlo hhi
  | right up x l ih =>
    obtain ⟨hb, hlo, hhi⟩ := balanced_rebalance_right (Balanced.of_plug h₀) ht hle hge
    exact ih h₀ hb hlo hhi

end BinaryTree
