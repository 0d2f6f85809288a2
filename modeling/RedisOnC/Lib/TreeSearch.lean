import RedisOnC.Lib.AvlTree

/-!
# Searching a tree from left to right

A search walks down from the root and at each node goes left or right as a predicate says. If the
predicate is monotone along the in-order sequence (once it says left, it says left from there on),
the walk ends at the gap where the answer changes: to the left of the gap stand exactly the
elements it passes on the right, to the right exactly the others. Insertion hangs the new element
into that gap; the first element after the gap is the lower bound.
-/

namespace BinaryTree

variable {α : Type*} {goLeft : α → Bool} {t : BinaryTree α} {x : α}

/-- The gap where the walk from the hole of `c` down into a tree ends. -/
def seek (goLeft : α → Bool) : Ctx α → BinaryTree α → Ctx α
  | c, nil => c
  | c, node x l r => if goLeft x then seek goLeft (.left c x r) l else seek goLeft (.right c x l) r

theorem seek_of_goLeft {c : Ctx α} {l r : BinaryTree α} (h : goLeft x = true) :
    seek goLeft c (node x l r) = seek goLeft (.left c x r) l := if_pos h

theorem seek_of_not_goLeft {c : Ctx α} {l r : BinaryTree α} (h : ¬ goLeft x = true) :
    seek goLeft c (node x l r) = seek goLeft (.right c x l) r := if_neg h

theorem plug_seek (goLeft : α → Bool) (c : Ctx α) (t : BinaryTree α) :
    (seek goLeft c t).plug nil = c.plug t := by
  induction t generalizing c with
  | nil => rfl
  | node x l r ihl ihr =>
    by_cases hx : goLeft x = true
    · rw [seek_of_goLeft hx, ihl, Ctx.plug_left]
    · rw [seek_of_not_goLeft hx, ihr, Ctx.plug_right]

theorem before_append_after_seek (goLeft : α → Bool) (t : BinaryTree α) :
    (seek goLeft .top t).before ++ (seek goLeft .top t).after = t.inorder := by
  have h := congrArg inorder (plug_seek goLeft .top t)
  rwa [Ctx.inorder_plug, inorder_nil, List.append_nil, Ctx.plug_top] at h

/-- Once the predicate says left, it says left to the end of the sequence. -/
def Monotone (goLeft : α → Bool) (l : List α) : Prop :=
  l.Pairwise fun x y ↦ goLeft x = true → goLeft y = true

private theorem seek_spec {c : Ctx α} (hmono : Monotone goLeft t.inorder)
    (hbefore : ∀ y ∈ c.before, ¬ goLeft y = true) (hafter : ∀ y ∈ c.after, goLeft y = true) :
    (∀ y ∈ (seek goLeft c t).before, ¬ goLeft y = true) ∧
      ∀ y ∈ (seek goLeft c t).after, goLeft y = true := by
  induction t generalizing c with
  | nil => exact ⟨hbefore, hafter⟩
  | node x l r ihl ihr =>
    rw [Monotone, inorder_node, List.pairwise_append, List.pairwise_cons] at hmono
    obtain ⟨hl, ⟨hxr, hr⟩, hlx⟩ := hmono
    by_cases hx : goLeft x = true
    · rw [seek_of_goLeft hx]
      refine ihl hl hbefore fun y hy ↦ ?_
      rw [Ctx.after, List.cons_append, List.mem_cons, List.mem_append] at hy
      rcases hy with rfl | hy | hy
      · exact hx
      · exact hxr y hy hx
      · exact hafter y hy
    · rw [seek_of_not_goLeft hx]
      refine ihr hr (fun y hy ↦ ?_) hafter
      rw [Ctx.before, List.mem_append, List.mem_append, List.mem_singleton] at hy
      rcases hy with hy | hy | rfl
      · exact hbefore y hy
      · exact fun hgo ↦ hx (hlx y hy x (List.mem_cons_self ..) hgo)
      · exact hx

/-- The elements before the gap are the ones the search passes on the right. -/
theorem not_goLeft_of_mem_before (hmono : Monotone goLeft t.inorder) :
    ∀ y ∈ (seek goLeft .top t).before, ¬ goLeft y = true :=
  (seek_spec hmono (by simp [Ctx.before]) (by simp [Ctx.after])).1

theorem goLeft_of_mem_after (hmono : Monotone goLeft t.inorder) :
    ∀ y ∈ (seek goLeft .top t).after, goLeft y = true :=
  (seek_spec hmono (by simp [Ctx.before]) (by simp [Ctx.after])).2

/-! ## The lower bound -/

/-- The walk that keeps the last element it has turned left at. -/
def lowerBound (goLeft : α → Bool) : Option α → BinaryTree α → Option α
  | found, nil => found
  | found, node x l r =>
    if goLeft x then lowerBound goLeft (some x) l else lowerBound goLeft found r

/-- It ends with the first element for which the predicate says left. -/
theorem lowerBound_eq_find? {found : Option α} (hmono : Monotone goLeft t.inorder) :
    lowerBound goLeft found t = (t.inorder.find? goLeft).or found := by
  induction t generalizing found with
  | nil => rfl
  | node x l r ihl ihr =>
    rw [Monotone, inorder_node, List.pairwise_append, List.pairwise_cons] at hmono
    obtain ⟨hl, ⟨-, hr⟩, hlx⟩ := hmono
    rw [lowerBound, inorder_node, List.find?_append, List.find?_cons]
    by_cases hx : goLeft x = true
    · rw [if_pos hx, hx, ihl hl, Option.or_assoc, Option.some_or]
    · have hnone : l.inorder.find? goLeft = none :=
        List.find?_eq_none.mpr fun y hy hgo ↦ hx (hlx y hy x (List.mem_cons_self ..) hgo)
      rw [if_neg hx, Bool.eq_false_iff.mpr hx, ihr hr, hnone, Option.none_or]

theorem mem_of_lowerBound {found : Option α} (h : lowerBound goLeft found t = some x) :
    x ∈ t.inorder ∨ found = some x := by
  induction t generalizing found with
  | nil => exact Or.inr h
  | node y l r ihl ihr =>
    rw [lowerBound] at h
    rw [inorder_node, List.mem_append, List.mem_cons]
    split at h
    · rcases ihl h with hl | hy
      · exact Or.inl (Or.inl hl)
      · exact Or.inl (Or.inr (Or.inl (Option.some_inj.mp hy).symm))
    · rcases ihr h with hr | hfound
      · exact Or.inl (Or.inr (Or.inr hr))
      · exact Or.inr hfound

/-! ## Insertion -/

/-- Hang a new element into the gap and rebalance. -/
def insertAt (goLeft : α → Bool) (x : α) (t : BinaryTree α) : BinaryTree α :=
  fixUp (seek goLeft .top t) (node x nil nil)

theorem inorder_insertAt (goLeft : α → Bool) (x : α) (t : BinaryTree α) :
    (insertAt goLeft x t).inorder
      = (seek goLeft .top t).before ++ x :: (seek goLeft .top t).after := by
  rw [insertAt, inorder_fixUp, Ctx.inorder_plug]
  simp

theorem inorder_insertAt_perm (goLeft : α → Bool) (x : α) (t : BinaryTree α) :
    (insertAt goLeft x t).inorder.Perm (x :: t.inorder) := by
  rw [inorder_insertAt, ← before_append_after_seek goLeft t]
  exact List.perm_middle

theorem Balanced.insertAt (h : t.Balanced) : (insertAt goLeft x t).Balanced := by
  have h₀ : ((seek goLeft .top t).plug nil).Balanced := by rwa [plug_seek]
  exact balanced_fixUp h₀ (by simp [balanced_node]) (by simp) (by simp)

/-- A sorted sequence stays sorted if the search compares with the new element. -/
theorem pairwise_insertAt {R : α → α → Prop} (hR : t.inorder.Pairwise R)
    (hmono : Monotone goLeft t.inorder) (hleft : ∀ y ∈ t.inorder, ¬ goLeft y = true → R y x)
    (hright : ∀ y ∈ t.inorder, goLeft y = true → R x y) :
    (insertAt goLeft x t).inorder.Pairwise R := by
  have hsplit := before_append_after_seek goLeft t
  have hbefore : ∀ y ∈ (seek goLeft .top t).before, y ∈ t.inorder := fun y hy ↦
    hsplit ▸ List.mem_append_left _ hy
  have hafter : ∀ y ∈ (seek goLeft .top t).after, y ∈ t.inorder := fun y hy ↦
    hsplit ▸ List.mem_append_right _ hy
  rw [← hsplit, List.pairwise_append] at hR
  rw [inorder_insertAt, List.pairwise_append, List.pairwise_cons]
  refine ⟨hR.1, ⟨fun y hy ↦ hright y (hafter y hy) (goLeft_of_mem_after hmono y hy), hR.2.1⟩, ?_⟩
  rintro y hy z (_ | ⟨_, hz⟩)
  · exact hleft y (hbefore y hy) (not_goLeft_of_mem_before hmono y hy)
  · exact hR.2.2 y hy z hz

end BinaryTree
