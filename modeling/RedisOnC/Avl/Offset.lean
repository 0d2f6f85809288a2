import RedisOnC.Avl.Del

/-!
# `avl_offset`

The loop of `avl_offset` depends on the distance that is left and on the node. On the way up it
keeps the distance right. On the way down it does not: going to a right child it takes the wrong
sign for one, and going to a left child it counts the wrong one of the two subtrees there. So it
looks for an element other than the one it was asked for from then on, unless the two subtrees of
the left child have the same size.

`Spared t i j` says that the way from the element with index `i` to the one with index `j` has no
such step. Then the result is right, and so it is when the index is out of range. The other way
round, a node from which `avl_offset` finds every element is spared every wrong step.
-/

open BinaryTree

namespace RedisOnC

variable {h : AVLHeap} {par : Option Ptr} {t a b : BinaryTree Ptr} {v w : Ptr} {d : ℤ}

/-! ## The loop, by the distance that is left -/

theorem whileLoop_avlOffsetStep (h : AVLHeap) (offset : ℤ) (v : Ptr) (pos : ℤ) :
    whileLoop (avlOffsetStep h offset) (v, pos) = avlOffset h v (offset - pos) := by
  -- a round only compares the position with the offset
  have hshift : ∀ s : Ptr × ℤ, avlOffsetStep h offset (s.1, s.2 + pos)
      = (avlOffsetStep h (offset - pos) s).map (Sum.map (fun s ↦ (s.1, s.2 + pos)) id) := by
    rintro ⟨v, p⟩
    simp only [avlOffsetStep]
    by_cases heq : offset - pos = p
    · rw [if_pos heq, if_pos (by omega)]
      rfl
    rw [if_neg heq, if_neg (by omega)]
    by_cases hright : p < offset - pos ∧ p + avlCnt h (h v).right ≥ offset - pos
    · rw [if_pos hright, if_pos (by omega)]
      cases (h v).right with
      | none => rfl
      | some w =>
        simp only [Option.bind_eq_bind, Option.bind_some, Option.map_some, Sum.map_inl]
        rw [add_right_comm]
    rw [if_neg hright, if_neg (by omega)]
    by_cases hleft : p > offset - pos ∧ p - avlCnt h (h v).left ≤ offset - pos
    · rw [if_pos hleft, if_pos (by omega)]
      cases (h v).left with
      | none => rfl
      | some w =>
        simp only [Option.bind_eq_bind, Option.bind_some, Option.map_some, Sum.map_inl]
        rw [add_sub_right_comm]
    rw [if_neg hleft, if_neg (by omega)]
    cases (h v).parent with
    | none => rfl
    | some x =>
      by_cases hx : (h x).right = some v
      · simp only [if_pos hx, Option.map_some, Sum.map_inl]
        rw [add_sub_right_comm]
      · simp only [if_neg hx, Option.map_some, Sum.map_inl]
        rw [add_right_comm]
  have hmap := WhileLoop.map (fun s : Ptr × ℤ ↦ (s.1, s.2 + pos)) id hshift (v, 0)
  rw [zero_add, Option.map_id, id_eq] at hmap
  exact hmap

theorem avlOffset_zero (h : AVLHeap) (v : Ptr) : avlOffset h v 0 = some (some v) := by
  apply WhileLoop.of_exit
  rw [avlOffsetStep]
  exact if_pos rfl

theorem avlOffset_right (hw : (h v).right = some w) (hpos : 0 < d)
    (hle : d ≤ avlCnt h (h v).right) : avlOffset h v d
      = avlOffset h w (d - ((avlCnt h (h w).left + u32Size - 1) % u32Size : ℕ)) := by
  have hstep : avlOffsetStep h d (v, 0)
      = some (.inl (w, 0 + ((avlCnt h (h w).left + u32Size - 1) % u32Size : ℕ))) := by
    simp only [avlOffsetStep]
    rw [if_neg (by omega), if_pos (by omega), hw]
    rfl
  rw [avlOffset, WhileLoop.of_continue hstep, whileLoop_avlOffsetStep, zero_add]

theorem avlOffset_left (hw : (h v).left = some w) (hneg : d < 0)
    (hle : -d ≤ avlCnt h (h v).left) : avlOffset h v d
      = avlOffset h w (d + ((avlCnt h (h w).left + 1) % u32Size : ℕ)) := by
  have hstep : avlOffsetStep h d (v, 0)
      = some (.inl (w, 0 - ((avlCnt h (h w).left + 1) % u32Size : ℕ))) := by
    simp only [avlOffsetStep]
    rw [if_neg (by omega), if_neg (by omega), if_pos (by omega), hw]
    rfl
  rw [avlOffset, WhileLoop.of_continue hstep, whileLoop_avlOffsetStep, zero_sub, sub_neg_eq_add]

private theorem avlOffsetStep_up (hright : (avlCnt h (h v).right : ℤ) < d ∨ d < 0)
    (hleft : d < -(avlCnt h (h v).left : ℤ) ∨ 0 < d) : avlOffsetStep h d (v, 0)
      = match (h v).parent with
        | none => some (.inr none)
        | some x => if (h x).right = some v then
            some (.inl (x, 0 - ((avlCnt h (h v).left + 1) % u32Size : ℕ)))
          else some (.inl (x, 0 + ((avlCnt h (h v).right + 1) % u32Size : ℕ))) := by
  simp only [avlOffsetStep]
  rw [if_neg (by omega), if_neg (by omega)]
  exact if_neg (by omega)

theorem avlOffset_top (hright : (avlCnt h (h v).right : ℤ) < d ∨ d < 0)
    (hleft : d < -(avlCnt h (h v).left : ℤ) ∨ 0 < d) (hpar : (h v).parent = none) :
    avlOffset h v d = some none := by
  have hstep := avlOffsetStep_up hright hleft
  rw [hpar] at hstep
  exact WhileLoop.of_exit hstep

theorem avlOffset_up_right (hright : (avlCnt h (h v).right : ℤ) < d ∨ d < 0)
    (hleft : d < -(avlCnt h (h v).left : ℤ) ∨ 0 < d) (hpar : (h v).parent = some w)
    (hw : (h w).right = some v) :
    avlOffset h v d = avlOffset h w (d + ((avlCnt h (h v).left + 1) % u32Size : ℕ)) := by
  have hstep := avlOffsetStep_up hright hleft
  simp only [hpar] at hstep
  rw [if_pos hw] at hstep
  rw [avlOffset, WhileLoop.of_continue hstep, whileLoop_avlOffsetStep, zero_sub, sub_neg_eq_add]

theorem avlOffset_up_left (hright : (avlCnt h (h v).right : ℤ) < d ∨ d < 0)
    (hleft : d < -(avlCnt h (h v).left : ℤ) ∨ 0 < d) (hpar : (h v).parent = some w)
    (hw : (h w).right ≠ some v) :
    avlOffset h v d = avlOffset h w (d - ((avlCnt h (h v).right + 1) % u32Size : ℕ)) := by
  have hstep := avlOffsetStep_up hright hleft
  simp only [hpar] at hstep
  rw [if_neg hw] at hstep
  rw [avlOffset, WhileLoop.of_continue hstep, whileLoop_avlOffsetStep, zero_add]

/-! ## Trees with counts -/

/-- The heap stores the tree `t`, hanging from `par`, with the number of nodes of every subtree. -/
def Counted (h : AVLHeap) : Option Ptr → BinaryTree Ptr → Prop
  | _, .nil => True
  | par, .node p l r =>
    (h p).left = l.root ∧ (h p).right = r.root ∧ (h p).parent = par ∧
      (h p).cnt = (node p l r).numNodes ∧ Counted h (some p) l ∧ Counted h (some p) r

theorem Rep.counted (ht : Rep h par t) (hlt : t.numNodes < u32Size) : Counted h par t := by
  induction t generalizing par with
  | nil => trivial
  | node p l r ihl ihr =>
    obtain ⟨hp, hl, hr⟩ := ht
    rw [numNodes] at hlt
    rw [Counted, hp, numNodes, Nat.mod_eq_of_lt hlt]
    exact ⟨rfl, rfl, rfl, rfl, ihl hl (by omega), ihr hr (by omega)⟩

theorem Counted.avlCnt_root (ht : Counted h par t) : avlCnt h t.root = t.numNodes := by
  cases t with
  | nil => rfl
  | node p l r => exact ht.2.2.2.1

theorem Counted.avlCnt_left (ht : Counted h par (node v a b)) :
    avlCnt h (h v).left = a.numNodes := by
  rw [ht.1]
  exact ht.2.2.2.2.1.avlCnt_root

theorem Counted.avlCnt_right (ht : Counted h par (node v a b)) :
    avlCnt h (h v).right = b.numNodes := by
  rw [ht.2.1]
  exact ht.2.2.2.2.2.avlCnt_root

/-- From a node up to the root of a subtree, when the element that is looked for is not on the same
side of the root. The indices are those of the subtree. -/
theorem Counted.climb {i : ℕ} {j : ℤ} (ht : Counted h par (node w a b))
    (hnd : (node w a b).inorder.Nodup) (hlt : (node w a b).numNodes < u32Size)
    (hv : (node w a b).inorder[i]? = some v)
    (hleft : i < a.numNodes → j < 0 ∨ a.numNodes ≤ j)
    (hright : a.numNodes < i → j ≤ a.numNodes ∨ a.numNodes + 1 + b.numNodes ≤ j) :
    avlOffset h v (j - i) = avlOffset h w (j - a.numNodes) := by
  generalize hs : node w a b = t at ht
  induction t generalizing w a b par i j with
  | nil => cases hs
  | node x l r ihl ihr =>
    obtain ⟨rfl, rfl, rfl⟩ := BinaryTree.node.inj hs
    rw [numNodes] at hlt
    rw [inorder_node] at hv hnd
    obtain ⟨hndl, hndr, hdisj⟩ := List.nodup_append'.mp hnd
    obtain ⟨hndr', hndr⟩ := List.nodup_cons.mp hndr
    obtain ⟨-, hr, -, -, htl, htr⟩ := ht
    rcases lt_trichotomy i a.numNodes with hi | rfl | hi
    · -- first to the root of the left subtree, then one step
      rw [List.getElem?_append_left (by rwa [length_inorder])] at hv
      cases a with
      | nil => cases hv
      | node y l' r' =>
        have hout := hleft hi
        rw [numNodes] at hlt hout
        push_cast at hout
        have hcntl := htl.avlCnt_left
        have hcntr := htl.avlCnt_right
        have hne : (h w).right ≠ some y := by
          intro heq
          rw [hr] at heq
          exact hdisj (root_mem_inorder (root_node y l' r'))
            (List.mem_cons_of_mem _ (root_mem_inorder heq))
        have hup : avlOffset h y (j - l'.numNodes)
            = avlOffset h w (j - l'.numNodes - ((avlCnt h (h y).right + 1) % u32Size : ℕ)) := by
          apply avlOffset_up_left _ _ htl.2.2.1 hne
          · rw [hcntr]
            omega
          · rw [hcntl]
            omega
        rw [ihl hndl (by rw [numNodes]; omega) hv (by omega) (by omega) rfl htl, hup, hcntr,
          Nat.mod_eq_of_lt (by omega), numNodes]
        congr 1
        push_cast
        ring
    · have hvw : w = v := by
        rw [← length_inorder, List.getElem?_append_right (Nat.le_refl _), Nat.sub_self] at hv
        exact Option.some_inj.mp hv
      rw [hvw]
    · rw [List.getElem?_append_right (by rw [length_inorder]; omega), length_inorder] at hv
      obtain ⟨k, rfl⟩ := Nat.exists_eq_add_of_lt hi
      rw [show a.numNodes + k + 1 - a.numNodes = k + 1 from by omega, List.getElem?_cons_succ] at hv
      cases b with
      | nil => cases hv
      | node y l' r' =>
        have hout := hright hi
        rw [numNodes] at hlt hout
        push_cast at hout
        have hcntl := htr.avlCnt_left
        have hcntr := htr.avlCnt_right
        have hup : avlOffset h y (j - a.numNodes - 1 - l'.numNodes) = avlOffset h w
            (j - a.numNodes - 1 - l'.numNodes + ((avlCnt h (h y).left + 1) % u32Size : ℕ)) := by
          apply avlOffset_up_right _ _ htr.2.2.1 hr
          · rw [hcntr]
            omega
          · rw [hcntl]
            omega
        have hdist : j - (a.numNodes + k + 1 : ℕ) = j - a.numNodes - 1 - k := by
          push_cast
          ring
        rw [hdist, ihr hndr (by rw [numNodes]; omega) hv (by omega) (by omega) rfl htr, hup, hcntl,
          Nat.mod_eq_of_lt (by omega)]
        congr 1
        push_cast
        ring

theorem Counted.avlOffset_out {i : ℕ} {j : ℤ} (ht : Counted h none t) (hnd : t.inorder.Nodup)
    (hlt : t.numNodes < u32Size) (hv : t.inorder[i]? = some v)
    (hout : j < 0 ∨ t.numNodes ≤ j) : avlOffset h v (j - i) = some none := by
  cases t with
  | nil => cases hv
  | node w a b =>
    rw [numNodes] at hout
    rw [ht.climb hnd hlt hv (by omega) (by omega)]
    apply avlOffset_top _ _ ht.2.2.1
    · rw [ht.avlCnt_right]
      omega
    · rw [ht.avlCnt_left]
      omega

/-! ## The way down -/

/-- One step to the left, to a local index of the left subtree: it goes on as if to the index that
is off by the difference of the two subtrees there. -/
theorem Counted.avlOffset_left {x : Ptr} {l r : BinaryTree Ptr} {j : ℕ}
    (ht : Counted h par (node w (node x l r) b)) (hlt : (node x l r).numNodes < u32Size)
    (hj : j < (node x l r).numNodes) :
    avlOffset h w (j - (node x l r).numNodes) = avlOffset h x (j - r.numNodes) := by
  have hcnt := ht.avlCnt_left
  rw [numNodes] at *
  rw [RedisOnC.avlOffset_left ht.1 (by omega) (by omega), ht.2.2.2.2.1.avlCnt_left,
    Nat.mod_eq_of_lt (by omega)]
  congr 1
  push_cast
  ring

/-- One step to the right, to a local index of the right subtree, if the child there has a left
child itself. -/
theorem Counted.avlOffset_right {x : Ptr} {l r : BinaryTree Ptr} {j : ℕ}
    (ht : Counted h par (node w a (node x l r))) (hlt : (node x l r).numNodes < u32Size)
    (hj : j < (node x l r).numNodes) (hl : 0 < l.numNodes) :
    avlOffset h w (j + 1) = avlOffset h x (j + 2 - l.numNodes) := by
  have hcnt := ht.avlCnt_right
  rw [numNodes] at *
  have hmod : (l.numNodes + u32Size - 1) % u32Size = l.numNodes - 1 := by
    rw [show l.numNodes + u32Size - 1 = l.numNodes - 1 + u32Size from by omega,
      Nat.add_mod_right, Nat.mod_eq_of_lt (by omega)]
  have hdist : (j + 1 : ℤ) - (l.numNodes - 1 : ℕ) = j + 2 - l.numNodes := by
    omega
  rw [RedisOnC.avlOffset_right ht.2.1 (by omega) (by omega), ht.2.2.2.2.2.avlCnt_left, hmod, hdist]

theorem Counted.avlOffset_right_wrap {x : Ptr} {r : BinaryTree Ptr} {j : ℕ}
    (ht : Counted h par (node w a (node x nil r))) (hj : j < (node x nil r).numNodes) :
    avlOffset h w (j + 1) = avlOffset h x (j + 2 - u32Size) := by
  have hcnt := ht.avlCnt_right
  rw [numNodes] at *
  rw [RedisOnC.avlOffset_right ht.2.1 (by omega) (by omega), ht.2.2.2.2.2.avlCnt_left, numNodes]
  congr 1
  simp only [u32Size]
  omega

/-! ## Where it is right -/

/-- Left child pointers alone lead to the element with index `j`, the first one being the pointer to
this tree, and every node that they lead to, that one included, has two subtrees of the same size. -/
def EvenSpine : BinaryTree Ptr → ℕ → Prop
  | .nil, _ => False
  | .node _ a b, j => a.numNodes = b.numNodes ∧ (j = a.numNodes ∨ j < a.numNodes ∧ EvenSpine a j)

/-- The way from the element with index `i` to the one with index `j` ends at the root of the least
subtree with both, or goes down from there along an even spine. -/
def Spared : BinaryTree Ptr → ℕ → ℕ → Prop
  | .nil, _, _ => False
  | .node _ a b, i, j =>
    if i < a.numNodes ∧ j < a.numNodes then Spared a i j
    else if a.numNodes < i ∧ a.numNodes < j then Spared b (i - a.numNodes - 1) (j - a.numNodes - 1)
    else j = a.numNodes ∨ j < a.numNodes ∧ EvenSpine a j

instance EvenSpine.decidable : ∀ (t : BinaryTree Ptr) (j : ℕ), Decidable (EvenSpine t j)
  | .nil, _ => .isFalse id
  | .node _ a b, j =>
    have := EvenSpine.decidable a j
    inferInstanceAs (Decidable (a.numNodes = b.numNodes ∧
      (j = a.numNodes ∨ j < a.numNodes ∧ EvenSpine a j)))

instance Spared.decidable : ∀ (t : BinaryTree Ptr) (i j : ℕ), Decidable (Spared t i j)
  | .nil, _, _ => .isFalse id
  | .node _ a b, i, j =>
    have := Spared.decidable a i j
    have := Spared.decidable b (i - a.numNodes - 1) (j - a.numNodes - 1)
    inferInstanceAs (Decidable (if i < a.numNodes ∧ j < a.numNodes then Spared a i j
      else if a.numNodes < i ∧ a.numNodes < j then Spared b (i - a.numNodes - 1) (j - a.numNodes - 1)
      else j = a.numNodes ∨ j < a.numNodes ∧ EvenSpine a j))

theorem getElem?_inorder_root : (node w a b).inorder[a.numNodes]? = some w := by
  rw [inorder_node, ← length_inorder, List.getElem?_append_right (Nat.le_refl _), Nat.sub_self]
  rfl

theorem getElem?_inorder_left {j : ℕ} (hj : j < a.numNodes) :
    (node w a b).inorder[j]? = a.inorder[j]? := by
  rw [inorder_node, List.getElem?_append_left (by rwa [length_inorder])]

theorem getElem?_inorder_right {j : ℕ} :
    (node w a b).inorder[a.numNodes + 1 + j]? = b.inorder[j]? := by
  rw [inorder_node, ← length_inorder, List.getElem?_append_right (by omega),
    show a.inorder.length + 1 + j - a.inorder.length = j + 1 from by omega,
    List.getElem?_cons_succ]

theorem Counted.avlOffset_evenSpine {j : ℕ} (ht : Counted h par (node w a b))
    (hlt : a.numNodes < u32Size) (hj : j < a.numNodes) (he : EvenSpine a j) :
    avlOffset h w (j - a.numNodes) = some a.inorder[j]? := by
  induction a generalizing w b par with
  | nil => exact he.elim
  | node x l r ihl _ =>
    obtain ⟨heq, hj'⟩ := he
    rw [ht.avlOffset_left hlt hj, ← heq]
    rw [numNodes] at hlt
    rcases hj' with rfl | ⟨hj', he⟩
    · rw [sub_self, avlOffset_zero, getElem?_inorder_root]
    · rw [ihl ht.2.2.2.2.1 (by omega) hj' he, getElem?_inorder_left hj']

/-- From a node to an element, when there is no wrong step in between. -/
theorem Counted.avlOffset_of_spared {i j : ℕ} (ht : Counted h par t) (hnd : t.inorder.Nodup)
    (hlt : t.numNodes < u32Size) (hv : t.inorder[i]? = some v) (hj : j < t.numNodes)
    (hs : Spared t i j) : avlOffset h v (j - i) = some t.inorder[j]? := by
  induction t generalizing par i j with
  | nil => cases hv
  | node w a b ihl ihr =>
    have hlt' := hlt
    have hnd' := hnd
    rw [numNodes] at hlt' hj
    rw [inorder_node] at hnd'
    obtain ⟨hndl, hndr, -⟩ := List.nodup_append'.mp hnd'
    rw [Spared] at hs
    by_cases hl : i < a.numNodes ∧ j < a.numNodes
    · rw [if_pos hl] at hs
      rw [getElem?_inorder_left hl.1] at hv
      rw [getElem?_inorder_left hl.2]
      exact ihl ht.2.2.2.2.1 hndl (by omega) hv hl.2 hs
    rw [if_neg hl] at hs
    by_cases hr : a.numNodes < i ∧ a.numNodes < j
    · rw [if_pos hr] at hs
      obtain ⟨i, rfl⟩ : ∃ i', i = a.numNodes + 1 + i' := ⟨i - a.numNodes - 1, by omega⟩
      obtain ⟨j, rfl⟩ : ∃ j', j = a.numNodes + 1 + j' := ⟨j - a.numNodes - 1, by omega⟩
      rw [getElem?_inorder_right] at hv
      rw [show a.numNodes + 1 + i - a.numNodes - 1 = i from by omega,
        show a.numNodes + 1 + j - a.numNodes - 1 = j from by omega] at hs
      rw [getElem?_inorder_right, ← ihr ht.2.2.2.2.2 hndr.of_cons (by omega) hv (by omega) hs]
      congr 1
      push_cast
      ring
    rw [if_neg hr] at hs
    rw [ht.climb hnd hlt hv (by omega) (by omega)]
    rcases hs with rfl | ⟨hja, he⟩
    · rw [sub_self, avlOffset_zero, getElem?_inorder_root]
    · rw [ht.avlOffset_evenSpine (by omega) hja he, getElem?_inorder_left hja]

/-! ## Where it is wrong -/

theorem Counted.of_plug {c : Ctx Ptr} (ht : Counted h none (c.plug t)) :
    Counted h c.parent t := by
  induction c generalizing t with
  | top => exact ht
  | left up w r ih => exact (ih ht).2.2.2.2.1
  | right up w l ih => exact (ih ht).2.2.2.2.2

/-- Just past the end of a subtree stands the next element of the whole tree. -/
theorem Counted.avlOffset_past {c : Ctx Ptr} {i : ℕ} (ht : Counted h none (c.plug t))
    (hnd : (c.plug t).inorder.Nodup) (hlt : (c.plug t).numNodes < u32Size)
    (hv : t.inorder[i]? = some v) : avlOffset h v (t.numNodes - i) = some c.after[0]? := by
  have hi : i < t.numNodes := by
    rw [← length_inorder]
    exact (List.getElem?_eq_some_iff.mp hv).1
  induction c generalizing t i with
  | top => exact ht.avlOffset_out hnd hlt hv (Or.inr le_rfl)
  | left up w r _ =>
    rw [Ctx.plug_left] at *
    have hsize := Ctx.numNodes_plug up (node w t r)
    rw [ht.of_plug.climb (Ctx.nodup_plug hnd).1 (by omega)
      ((getElem?_inorder_left hi).trans hv) (by omega) (by omega), sub_self, avlOffset_zero]
    rfl
  | right up w l ih =>
    have hdist : (t.numNodes : ℤ) - i = (node w l t).numNodes - (l.numNodes + 1 + i : ℕ) := by
      rw [numNodes]
      push_cast
      ring
    rw [hdist, ih ht hnd hlt (getElem?_inorder_right.trans hv) (by rw [numNodes]; omega)]
    rfl

/-- In a right subtree there is an element that `avl_offset` does not find from the parent: it
returns one that comes later, or none. -/
theorem Counted.avlOffset_overshoot {c : Ctx Ptr} (ht : Counted h none (c.plug (node w a b)))
    (hnd : (c.plug (node w a b)).inorder.Nodup) (hlt : (c.plug (node w a b)).numNodes < 2 ^ 31)
    (hb : 0 < b.numNodes) : ∃ j < b.numNodes, ∃ k > j,
      avlOffset h w (j + 1) = some (b.inorder ++ c.after)[k]? := by
  have hsize := Ctx.numNodes_plug c (node w a b)
  rw [numNodes] at hsize
  induction b generalizing c w a with
  | nil => exact absurd hb (lt_irrefl 0)
  | node x l r _ ihr =>
    have hlt' : (node x l r).numNodes < u32Size := by
      simp only [u32Size]
      omega
    have hx : ((l.inorder ++ x :: r.inorder) ++ c.after)[l.numNodes]? = some x := by
      rw [List.append_assoc, ← length_inorder, List.getElem?_append_right (Nat.le_refl _),
        Nat.sub_self]
      rfl
    have hbehind : ∀ k, ((l.inorder ++ x :: r.inorder) ++ c.after)[l.numNodes + 1 + k]?
        = (r.inorder ++ c.after)[k]? := by
      intro k
      rw [List.append_assoc, ← length_inorder, List.getElem?_append_right (by omega),
        show l.inorder.length + 1 + k - l.inorder.length = k + 1 from by omega]
      rfl
    rw [inorder_node]
    rcases Nat.lt_trichotomy l.numNodes 1 with hl | hl | hl
    · -- the count wraps around, and the index is out of range
      obtain rfl : l = nil := eq_nil_of_numNodes (Nat.lt_one_iff.mp hl)
      have hmem : x ∈ (c.plug (node w a (node x nil r))).inorder := by
        apply Ctx.mem_plug.mpr
        simp
      obtain ⟨i, hi⟩ := List.mem_iff_getElem?.mp hmem
      have hin : i < (c.plug (node w a (node x nil r))).numNodes := by
        rw [← length_inorder]
        exact (List.getElem?_eq_some_iff.mp hi).1
      refine ⟨0, hb, (nil.inorder ++ x :: r.inorder ++ c.after).length + 1, Nat.succ_pos _, ?_⟩
      have hout := ht.avlOffset_out (j := i + 2 - u32Size) hnd (by simp only [u32Size]; omega) hi
        (by simp only [u32Size]; omega)
      rw [ht.of_plug.avlOffset_right_wrap hb, List.getElem?_eq_none (Nat.le_succ _), ← hout]
      congr 1
      push_cast
      ring
    · rcases Nat.eq_zero_or_pos r.numNodes with hr | hr
      · -- past the end of the subtree
        refine ⟨0, hb, 2, by omega, ?_⟩
        have hpast := Counted.avlOffset_past (c := .right c w a) (i := l.numNodes) ht hnd
          (by simp only [u32Size, Ctx.plug_right]; omega) getElem?_inorder_root
        rw [numNodes, hl, hr] at hpast
        have hk := hbehind 0
        rw [hl] at hk
        rw [ht.of_plug.avlOffset_right hlt' hb (by omega), hl, hk,
          List.getElem?_append_right (by rw [length_inorder]; omega), length_inorder, hr]
        exact hpast
      · -- as if it were one step further to the right
        obtain ⟨j, hj, k, hk, hoff⟩ := ihr (c := .right c w a) ht hnd hlt hr
          (by have := Ctx.numNodes_plug (.right c w a) (node x l r); rwa [numNodes] at this)
        refine ⟨j, by rw [numNodes]; omega, l.numNodes + 1 + k, by omega, ?_⟩
        rw [ht.of_plug.avlOffset_right hlt' (by rw [numNodes]; omega) (by omega), hbehind, hl]
        rw [show (j + 2 - (1 : ℕ) : ℤ) = j + 1 from by ring]
        exact hoff
    · -- the child itself is taken for the element that is two before it
      refine ⟨l.numNodes - 2, by rw [numNodes]; omega, l.numNodes, by omega, ?_⟩
      rw [ht.of_plug.avlOffset_right hlt' (by rw [numNodes]; omega) (by omega), hx,
        ← avlOffset_zero h x]
      congr 1
      omega

theorem Counted.right_eq_nil {c : Ctx Ptr} (ht : Counted h none (c.plug (node w a b)))
    (hnd : (c.plug (node w a b)).inorder.Nodup) (hlt : (c.plug (node w a b)).numNodes < 2 ^ 31)
    (hex : ∀ j < b.numNodes, avlOffset h w (j + 1) = some b.inorder[j]?) : b.numNodes = 0 := by
  by_contra hb
  obtain ⟨j, hj, k, hk, hoff⟩ := ht.avlOffset_overshoot hnd hlt (Nat.pos_of_ne_zero hb)
  have hndb : (b.inorder ++ c.after).Nodup := by
    rw [Ctx.inorder_plug, inorder_node, List.append_assoc, List.append_assoc] at hnd
    exact hnd.of_append_right.of_append_right.of_cons
  rw [hex j hj, Option.some_inj] at hoff
  have hfirst : (b.inorder ++ c.after)[j]? = b.inorder[j]? :=
    List.getElem?_append_left (by rwa [length_inorder])
  rw [← hfirst, List.getElem?_inj] at hoff
  · omega
  · rw [List.length_append, length_inorder]
    omega
  · exact hndb

theorem Counted.evenSpine_of_exact {c : Ctx Ptr} (ht : Counted h none (c.plug (node w a b)))
    (hnd : (c.plug (node w a b)).inorder.Nodup) (hlt : (c.plug (node w a b)).numNodes < 2 ^ 31)
    (hex : ∀ j < a.numNodes, avlOffset h w (j - a.numNodes) = some a.inorder[j]?) :
    ∀ j < a.numNodes, EvenSpine a j := by
  cases a with
  | nil => simp
  | node x l r =>
    have hsize := Ctx.numNodes_plug c (node w (node x l r) b)
    have hlt' : (node x l r).numNodes < u32Size := by
      rw [numNodes] at hsize
      simp only [u32Size]
      omega
    have hcount := numNodes.eq_2 x l r
    have hnda : (node x l r).inorder.Nodup :=
      (Ctx.nodup_plug (c := .left c w b) (t := node x l r) hnd).1
    -- the root is returned for the index that is the size of its right subtree
    have heq : l.numNodes = r.numNodes := by
      have hroot := hex r.numNodes (by omega)
      rw [ht.of_plug.avlOffset_left hlt' (by omega), sub_self, avlOffset_zero, Option.some_inj,
        ← getElem?_inorder_root (w := x) (b := r), List.getElem?_inj] at hroot
      · exact hroot
      · rw [length_inorder]
        omega
      · exact hnda
    have hr : r.numNodes = 0 := by
      apply Counted.right_eq_nil (c := .left c w b) (w := x) (a := l) ht hnd hlt
      intro j hj
      rw [← getElem?_inorder_right (w := x) (a := l), ← hex _ (by omega),
        ht.of_plug.avlOffset_left hlt' (by omega), heq]
      congr 1
      push_cast
      ring
    intro j hj
    exact ⟨heq, Or.inl (by omega)⟩

/-- If every element of a subtree is found, then no way inside of it has a wrong step. -/
theorem Counted.spared_of_exact {c : Ctx Ptr} {i : ℕ} (ht : Counted h none (c.plug t))
    (hnd : (c.plug t).inorder.Nodup) (hlt : (c.plug t).numNodes < 2 ^ 31)
    (hv : t.inorder[i]? = some v)
    (hex : ∀ j < t.numNodes, avlOffset h v (j - i : ℤ) = some t.inorder[j]?) :
    ∀ j < t.numNodes, Spared t i j := by
  induction t generalizing c i with
  | nil => simp
  | node w a b ihl ihr =>
    have hsize := Ctx.numNodes_plug c (node w a b)
    have hcount := numNodes.eq_2 w a b
    have hnds := (Ctx.nodup_plug hnd).1
    have hlts : (node w a b).numNodes < u32Size := by
      simp only [u32Size]
      omega
    intro j hj
    rw [Spared]
    -- both in the left subtree, both in the right one, or the way leads over the root
    by_cases hl : i < a.numNodes ∧ j < a.numNodes
    · rw [if_pos hl]
      rw [getElem?_inorder_left hl.1] at hv
      apply ihl (c := .left c w b) ht hnd hlt hv _ j hl.2
      intro j hj
      rw [hex j (by omega), getElem?_inorder_left hj]
    rw [if_neg hl]
    by_cases hr : a.numNodes < i ∧ a.numNodes < j
    · rw [if_pos hr]
      obtain ⟨i, rfl⟩ : ∃ i', i = a.numNodes + 1 + i' := ⟨i - a.numNodes - 1, by omega⟩
      rw [getElem?_inorder_right] at hv
      rw [show a.numNodes + 1 + i - a.numNodes - 1 = i from by omega]
      apply ihr (c := .right c w a) ht hnd hlt hv _ _ (by omega)
      intro j hj
      rw [← getElem?_inorder_right (w := w) (a := a), ← hex _ (by omega)]
      congr 1
      push_cast
      ring
    rw [if_neg hr]
    rcases lt_trichotomy j a.numNodes with hja | hja | hja
    · refine Or.inr ⟨hja, ht.evenSpine_of_exact hnd hlt ?_ j hja⟩
      intro k hk
      rw [← ht.of_plug.climb (i := i) hnds hlts hv (by omega) (by omega), hex k (by omega),
        getElem?_inorder_left hk]
    · exact Or.inl hja
    · have hb := ht.right_eq_nil hnd hlt fun k hk ↦ by
        rw [← getElem?_inorder_right (w := w) (a := a), ← hex _ (by omega),
          ht.of_plug.climb (i := i) hnds hlts hv (by omega) (by omega)]
        congr 1
        push_cast
        ring
      omega

/-! ## Staying inside, and one step forward -/

theorem Rep.mem_of_link (ht : Rep h none t) (hv : v ∈ t.inorder)
    (hw : (h v).left = some w ∨ (h v).right = some w ∨ (h v).parent = some w) : w ∈ t.inorder := by
  obtain ⟨c, a, b, rfl⟩ := Ctx.exists_plug hv
  obtain ⟨-, hcell, -, -⟩ := Rep.of_plug ht
  rw [hcell] at hw
  apply Ctx.mem_plug.mpr
  rcases hw with hw | hw | hw
  · exact Or.inl (List.mem_append_left _ (root_mem_inorder hw))
  · exact Or.inl (List.mem_append_right _ (List.mem_cons_of_mem _ (root_mem_inorder hw)))
  · exact Or.inr (ctx_parent_mem hw)

/-- What one round does: it leaves the loop at the node or with `NULL`, or it follows a link. -/
private theorem avlOffsetStep_cases {pos : ℤ} {r : (Ptr × ℤ) ⊕ Option Ptr}
    (hstep : avlOffsetStep h d (v, pos) = some r) :
    r = .inr (some v) ∨ r = .inr none ∨ ∃ w pos', r = .inl (w, pos') ∧
      ((h v).left = some w ∨ (h v).right = some w ∨ (h v).parent = some w) := by
  simp only [avlOffsetStep] at hstep
  split at hstep
  · exact Or.inl (Option.some_inj.mp hstep).symm
  split at hstep
  · obtain ⟨w, hw, heq⟩ := Option.bind_eq_some_iff.mp hstep
    exact Or.inr (Or.inr ⟨w, _, (Option.some_inj.mp heq).symm, Or.inr (Or.inl hw)⟩)
  split at hstep
  · obtain ⟨w, hw, heq⟩ := Option.bind_eq_some_iff.mp hstep
    exact Or.inr (Or.inr ⟨w, _, (Option.some_inj.mp heq).symm, Or.inl hw⟩)
  cases hpar : (h v).parent with
  | none =>
    rw [hpar] at hstep
    exact Or.inr (Or.inl (Option.some_inj.mp hstep).symm)
  | some w =>
    simp only [hpar] at hstep
    split at hstep
    all_goals exact Or.inr (Or.inr ⟨w, _, (Option.some_inj.mp hstep).symm, Or.inr (Or.inr rfl)⟩)

theorem Rep.avlOffset_mem (ht : Rep h none t) (hv : v ∈ t.inorder)
    (hw : avlOffset h v d = some (some w)) : w ∈ t.inorder := by
  refine WhileLoop.partialCorrect (I := fun s : Ptr × ℤ ↦ s.1 ∈ t.inorder)
    (Q := fun r : Option Ptr ↦ ∀ w, r = some w → w ∈ t.inorder) ?_ ?_ hv hw w rfl
  · rintro ⟨x, pos⟩ s' hx hstep
    obtain heq | heq | ⟨y, pos', heq, hlink⟩ := avlOffsetStep_cases hstep
    · cases heq
    · cases heq
    · obtain rfl := Sum.inl.inj heq
      exact ht.mem_of_link hx hlink
  · rintro ⟨x, pos⟩ r hx hstep y rfl
    obtain heq | heq | ⟨y, pos', heq, -⟩ := avlOffsetStep_cases hstep
    · obtain rfl := Option.some_inj.mp (Sum.inr.inj heq)
      exact hx
    · cases heq
    · cases heq

theorem Counted.avlOffset_succ {j : ℕ} (ht : Counted h none t) (hnd : t.inorder.Nodup)
    (hlt : t.numNodes < u32Size) (hv : t.inorder[j]? = some v) (hright : (h v).right = none) :
    avlOffset h v 1 = some t.inorder[j + 1]? := by
  obtain ⟨c, a, b, rfl⟩ := Ctx.exists_plug (List.mem_of_getElem? hv)
  obtain rfl : b = nil := by
    apply root_eq_none
    rw [← ht.of_plug.2.1, hright]
  have hpast := ht.avlOffset_past hnd hlt getElem?_inorder_root
  have hsplit : (c.plug (node v a nil)).inorder = (c.before ++ a.inorder) ++ v :: c.after := by
    rw [Ctx.inorder_plug]
    simp
  have hlen := (List.getElem?_eq_some_iff.mp hv).1
  have hj : j = (c.before ++ a.inorder).length := by
    rw [← List.getElem?_inj hlen hnd, hv, hsplit, List.getElem?_append_right (Nat.le_refl _),
      Nat.sub_self]
    rfl
  have hone : ((node v a nil).numNodes : ℤ) - a.numNodes = 1 := by
    rw [numNodes, numNodes]
    push_cast
    ring
  rw [hone] at hpast
  rw [hpast, hsplit, hj, List.getElem?_append_right (Nat.le_succ _), Nat.succ_sub (Nat.le_refl _),
    Nat.sub_self]
  rfl

/-! ## The whole tree -/

/-- The element with an index, if there is one. -/
def elemAt {α : Type*} (l : List α) (k : ℤ) : Option α :=
  if 0 ≤ k then l[k.toNat]? else none

theorem elemAt_natCast {α : Type*} (l : List α) (k : ℕ) : elemAt l k = l[k]? :=
  if_pos (Int.natCast_nonneg k)

theorem elemAt_of_out {α : Type*} {l : List α} {k : ℤ} (hk : k < 0 ∨ l.length ≤ k) :
    elemAt l k = none := by
  rw [elemAt]
  split
  · exact List.getElem?_eq_none (by omega)
  · rfl

/-- The result of `avl_offset` when it makes no wrong step, or looks for an index that no element
has. -/
theorem Counted.avlOffset_eq_elemAt {i : ℕ} {offset : ℤ} (ht : Counted h none t)
    (hnd : t.inorder.Nodup) (hlt : t.numNodes < u32Size) (hv : t.inorder[i]? = some v)
    (hs : 0 ≤ i + offset → i + offset < t.numNodes → Spared t i (i + offset).toNat) :
    avlOffset h v offset = some (elemAt t.inorder (i + offset)) := by
  have hdist : offset = i + offset - i := by ring
  rcases lt_or_ge (i + offset) 0 with hneg | hpos
  · rw [elemAt_of_out (Or.inl hneg), hdist]
    exact ht.avlOffset_out hnd hlt hv (Or.inl hneg)
  rcases lt_or_ge (i + offset) t.numNodes with hin | hout
  · obtain ⟨j, hj⟩ := Int.eq_ofNat_of_zero_le hpos
    have hs' := hs hpos hin
    rw [hj] at hin hs'
    rw [hj, elemAt_natCast, hdist, hj]
    exact ht.avlOffset_of_spared hnd hlt hv (by omega) hs'
  · rw [elemAt_of_out (Or.inr (by rwa [length_inorder])), hdist]
    exact ht.avlOffset_out hnd hlt hv (Or.inr hout)

/-- `avl_offset(node, offset)` is the element whose index in the whole tree is larger by `offset`,
if there is no wrong step between the two, and `NULL` if there is no such element. The elements it
finds from a node are all of them if and only if there is no wrong step between the node and any of
them. -/
theorem avlOffset_rank {i : ℕ} (ht : Counted h none t) (hnd : t.inorder.Nodup)
    (hlt : t.numNodes < 2 ^ 31) (hv : t.inorder[i]? = some v) :
    (∀ offset : ℤ, -2 ^ 63 ≤ offset → offset < 2 ^ 63 →
      (0 ≤ i + offset → i + offset < t.numNodes → Spared t i (i + offset).toNat) →
      avlOffset h v offset = some (elemAt t.inorder (i + offset))) ∧
    ((∀ offset : ℤ, -2 ^ 63 ≤ offset → offset < 2 ^ 63 →
      avlOffset h v offset = some (elemAt t.inorder (i + offset))) ↔
        ∀ j < t.numNodes, Spared t i j) := by
  have hlt' : t.numNodes < u32Size := by
    simp only [u32Size]
    omega
  refine ⟨fun offset _ _ hs ↦ ht.avlOffset_eq_elemAt hnd hlt' hv hs, ?_, ?_⟩
  · intro hex
    have hi : i < t.numNodes := by
      rw [← length_inorder]
      exact (List.getElem?_eq_some_iff.mp hv).1
    apply Counted.spared_of_exact (c := .top) ht hnd hlt hv
    intro j hj
    rw [hex _ (by omega) (by omega), add_sub_cancel, elemAt_natCast]
  · intro hs offset _ _
    exact ht.avlOffset_eq_elemAt hnd hlt' hv fun _ _ ↦ hs _ (by omega)

/-- A root and its right child. -/
private def pairHeap : AVLHeap
  | 1 => { depth := 2, cnt := 2, right := some 2 }
  | 2 => { depth := 1, cnt := 1, parent := some 1 }
  | _ => {}

private def pairTree : BinaryTree Ptr := node 1 nil (node 2 nil nil)

private theorem pairHeap_counted : Counted pairHeap none pairTree :=
  ⟨rfl, rfl, rfl, rfl, trivial, rfl, rfl, rfl, rfl, trivial, trivial⟩

theorem avlOffset_rank_pair : avlOffset pairHeap 2 (-1) = some (some 1) :=
  (avlOffset_rank (i := 1) pairHeap_counted (by decide) (by decide) rfl).1 (-1) (by decide)
    (by decide) (by decide)

/-- The right child is the next element after the root, and `avl_offset` does not find it. -/
theorem not_avlOffset_rank_pair : ¬ ∀ (h : AVLHeap) (t : BinaryTree Ptr) (v : Ptr) (i : ℕ)
    (offset : ℤ), Counted h none t → t.inorder.Nodup → t.numNodes < 2 ^ 31 →
      t.inorder[i]? = some v → -2 ^ 63 ≤ offset → offset < 2 ^ 63 →
      avlOffset h v offset = some (elemAt t.inorder (i + offset)) := by
  intro hclaim
  have hgot := hclaim pairHeap pairTree 1 0 1 pairHeap_counted (by decide) (by decide) rfl
    (by decide) (by decide)
  have hdown : avlOffsetStep pairHeap 1 (1, 0) = some (.inl (2, 2 ^ 32 - 1)) := by decide
  have hup : avlOffsetStep pairHeap 1 (2, 2 ^ 32 - 1) = some (.inl (1, 2 ^ 32 - 2)) := by decide
  have hout : avlOffsetStep pairHeap 1 (1, 2 ^ 32 - 2) = some (.inr none) := by decide
  rw [avlOffset, WhileLoop.of_continue hdown, WhileLoop.of_continue hup,
    WhileLoop.of_exit hout] at hgot
  exact absurd hgot (by decide)

end RedisOnC
