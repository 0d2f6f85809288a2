import Mathlib.Data.Tree.Basic
import Mathlib.Data.List.Nodup
import Mathlib.Order.Lattice
import Mathlib.Tactic.Ring

/-!
# Binary trees and their contexts

The in-order sequence of a `BinaryTree`, and one-hole contexts: the part of a tree around a
subtree, listed from the hole up to the root. Every tree algorithm that climbs through parent
links works on a context, and `inorder_plug` is what lets it be read on sequences:

```text
inorder (plug c t)  =  before c ++ inorder t ++ after c.
```
-/

namespace BinaryTree

variable {α β : Type*}

/-- The elements from left to right. -/
def inorder : BinaryTree α → List α
  | nil => []
  | node x l r => l.inorder ++ x :: r.inorder

@[simp] theorem inorder_nil : (nil : BinaryTree α).inorder = [] := rfl

@[simp] theorem inorder_node (x : α) (l r : BinaryTree α) :
    (node x l r).inorder = l.inorder ++ x :: r.inorder := rfl

@[simp] theorem length_inorder (t : BinaryTree α) : t.inorder.length = t.numNodes := by
  induction t with
  | nil => rfl
  | node x l r ihl ihr =>
    rw [inorder_node, List.length_append, List.length_cons, ihl, ihr, numNodes, Nat.add_assoc]

/-- The element at the root. -/
def root : BinaryTree α → Option α
  | nil => none
  | node x _ _ => some x

@[simp] theorem root_nil : (nil : BinaryTree α).root = none := rfl

@[simp] theorem root_node (x : α) (l r : BinaryTree α) : (node x l r).root = some x := rfl

theorem root_mem_inorder {t : BinaryTree α} {x : α} (h : t.root = some x) : x ∈ t.inorder := by
  cases t with
  | nil => cases h
  | node y l r =>
    obtain rfl : y = x := Option.some_inj.mp h
    simp

theorem root_eq_none {t : BinaryTree α} (h : t.root = none) : t = nil := by
  cases t with
  | nil => rfl
  | node y l r => cases h

theorem eq_nil_of_numNodes {t : BinaryTree α} (h : t.numNodes = 0) : t = nil := by
  cases t with
  | nil => rfl
  | node y l r => cases h

/-! ## The mirror image -/

/-- Swap left and right everywhere. -/
def mirror : BinaryTree α → BinaryTree α
  | nil => nil
  | node x l r => node x r.mirror l.mirror

@[simp] theorem mirror_node (x : α) (l r : BinaryTree α) :
    (node x l r).mirror = node x r.mirror l.mirror := rfl

@[simp] theorem mirror_mirror (t : BinaryTree α) : t.mirror.mirror = t := by
  induction t with
  | nil => rfl
  | node x l r ihl ihr => rw [mirror_node, mirror_node, ihl, ihr]

@[simp] theorem inorder_mirror (t : BinaryTree α) : t.mirror.inorder = t.inorder.reverse := by
  induction t with
  | nil => rfl
  | node x l r ihl ihr => simp [ihl, ihr]

@[simp] theorem root_mirror (t : BinaryTree α) : t.mirror.root = t.root := by
  cases t <;> rfl

@[simp] theorem height_mirror (t : BinaryTree α) : t.mirror.height = t.height := by
  induction t with
  | nil => rfl
  | node x l r ihl ihr => rw [mirror_node, height, height, ihl, ihr, max_comm]

@[simp] theorem numNodes_mirror (t : BinaryTree α) : t.mirror.numNodes = t.numNodes := by
  rw [← length_inorder, inorder_mirror, List.length_reverse, length_inorder]

/-! ## Contexts -/

/-- A tree with a hole, from the hole upwards: `left up x r` hangs the hole on the left of `x`. -/
inductive Ctx (α : Type*)
  | top
  | left (up : Ctx α) (x : α) (r : BinaryTree α)
  | right (up : Ctx α) (x : α) (l : BinaryTree α)

namespace Ctx

/-- Fill the hole. -/
def plug : Ctx α → BinaryTree α → BinaryTree α
  | top, t => t
  | left up x r, t => up.plug (node x t r)
  | right up x l, t => up.plug (node x l t)

/-- The element the hole hangs from. -/
def parent : Ctx α → Option α
  | top => none
  | left _ x _ => some x
  | right _ x _ => some x

/-- The elements to the left of the hole. -/
def before : Ctx α → List α
  | top => []
  | left up _ _ => up.before
  | right up x l => up.before ++ (l.inorder ++ [x])

/-- The elements to the right of the hole. -/
def after : Ctx α → List α
  | top => []
  | left up x r => x :: r.inorder ++ up.after
  | right up _ _ => up.after

/-- All elements outside the hole. -/
def elems (c : Ctx α) : List α := c.before ++ c.after

@[simp] theorem plug_top (t : BinaryTree α) : (top : Ctx α).plug t = t := rfl

@[simp] theorem plug_left (up : Ctx α) (x : α) (r t : BinaryTree α) :
    (left up x r).plug t = up.plug (node x t r) := rfl

@[simp] theorem plug_right (up : Ctx α) (x : α) (l t : BinaryTree α) :
    (right up x l).plug t = up.plug (node x l t) := rfl

@[simp] theorem parent_top : (top : Ctx α).parent = none := rfl

@[simp] theorem parent_left (up : Ctx α) (x : α) (r : BinaryTree α) :
    (left up x r).parent = some x := rfl

@[simp] theorem parent_right (up : Ctx α) (x : α) (l : BinaryTree α) :
    (right up x l).parent = some x := rfl

theorem eq_top_of_parent {c : Ctx α} (h : c.parent = none) : c = top := by
  rcases c with _ | _ | _
  · rfl
  · cases h
  · cases h

theorem inorder_plug (c : Ctx α) (t : BinaryTree α) :
    (c.plug t).inorder = c.before ++ t.inorder ++ c.after := by
  induction c generalizing t with
  | top => simp [before, after]
  | left up x r ih => simp [ih, before, after]
  | right up x l ih => simp [ih, before, after]

theorem mem_plug {c : Ctx α} {t : BinaryTree α} {y : α} :
    y ∈ (c.plug t).inorder ↔ y ∈ t.inorder ∨ y ∈ c.elems := by
  simp only [inorder_plug, elems, List.mem_append]
  tauto

@[simp] theorem mem_elems_left {up : Ctx α} {x y : α} {r : BinaryTree α} :
    y ∈ (left up x r).elems ↔ y = x ∨ y ∈ r.inorder ∨ y ∈ up.elems := by
  simp only [elems, before, after, List.mem_append, List.mem_cons]
  tauto

@[simp] theorem mem_elems_right {up : Ctx α} {x y : α} {l : BinaryTree α} :
    y ∈ (right up x l).elems ↔ y = x ∨ y ∈ l.inorder ∨ y ∈ up.elems := by
  simp only [elems, before, after, List.mem_append, List.mem_cons, List.not_mem_nil]
  tauto

/-- A tree without repetitions splits into a hole and a context without repetitions, and the two
are disjoint. -/
theorem nodup_plug {c : Ctx α} {t : BinaryTree α} (h : (c.plug t).inorder.Nodup) :
    t.inorder.Nodup ∧ c.elems.Nodup ∧ ∀ y ∈ t.inorder, y ∉ c.elems := by
  have hperm : (c.plug t).inorder.Perm (t.inorder ++ c.elems) := by
    rw [inorder_plug, elems, ← List.append_assoc]
    exact List.perm_append_comm.append_right _
  have h' := List.nodup_append'.mp (hperm.nodup_iff.mp h)
  exact ⟨h'.1, h'.2.1, fun y hy hc ↦ h'.2.2 hy hc⟩

theorem numNodes_plug (c : Ctx α) (t : BinaryTree α) :
    (c.plug t).numNodes = c.before.length + t.numNodes + c.after.length := by
  rw [← length_inorder, inorder_plug, List.length_append, List.length_append, length_inorder]

/-- Two trees that differ only below the hole have the same root, unless the hole is at the top. -/
theorem root_plug_congr {c : Ctx α} {t u : BinaryTree α} (h : t.root = u.root ∨ c.parent ≠ none) :
    (c.plug t).root = (c.plug u).root := by
  induction c generalizing t u with
  | top => exact h.elim id fun hne ↦ absurd rfl hne
  | left up x r ih => exact ih (Or.inl rfl)
  | right up x l ih => exact ih (Or.inl rfl)

/-- How far the hole is below the top. -/
def depth : Ctx α → ℕ
  | top => 0
  | left up _ _ => up.depth + 1
  | right up _ _ => up.depth + 1

theorem depth_add_height_le (c : Ctx α) (t : BinaryTree α) :
    c.depth + t.height ≤ (c.plug t).height := by
  induction c generalizing t with
  | top => exact (Nat.zero_add _).le
  | left up x r ih =>
    refine le_trans ?_ (ih (node x t r))
    rw [depth, height, Nat.add_assoc, Nat.add_comm 1]
    exact Nat.add_le_add_left (Nat.succ_le_succ (le_max_left _ _)) _
  | right up x l ih =>
    refine le_trans ?_ (ih (node x l t))
    rw [depth, height, Nat.add_assoc, Nat.add_comm 1]
    exact Nat.add_le_add_left (Nat.succ_le_succ (le_max_right _ _)) _

theorem idxOf_plug [DecidableEq α] {c : Ctx α} {l r : BinaryTree α} {x : α}
    (hnd : (c.plug (node x l r)).inorder.Nodup) :
    (c.plug (node x l r)).inorder.idxOf x = c.before.length + l.numNodes := by
  have hsplit : (c.plug (node x l r)).inorder
      = (c.before ++ l.inorder) ++ x :: (r.inorder ++ c.after) := by
    simp [inorder_plug]
  rw [hsplit, List.nodup_middle, List.nodup_cons, List.mem_append, not_or] at hnd
  rw [hsplit, List.idxOf_append_of_notMem hnd.1.1, List.idxOf_cons_self, List.length_append,
    length_inorder, Nat.add_zero]

theorem exists_plug {t : BinaryTree α} {x : α} (h : x ∈ t.inorder) :
    ∃ (c : Ctx α) (l r : BinaryTree α), t = c.plug (node x l r) := by
  suffices hgen : ∀ c : Ctx α, ∃ (c' : Ctx α) (l r : BinaryTree α),
      c.plug t = c'.plug (node x l r) from hgen top
  induction t with
  | nil => simp at h
  | node y l r ihl ihr =>
    intro c
    rw [inorder_node, List.mem_append, List.mem_cons] at h
    rcases h with h | rfl | h
    · exact ihl h (left c y r)
    · exact ⟨c, l, r, rfl⟩
    · exact ihr h (right c y l)

end Ctx

end BinaryTree
