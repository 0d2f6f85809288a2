import RedisOnC.Avl.Rep

/-!
# Repairing the path to the root

`avl_fix` on the heap is `fixUp` on trees: started at a node whose subtrees are right, below a path
whose links are right, it returns the root of the tree obtained by rebalancing that node and every
node above it, and writes to no other cell.
-/

open BinaryTree

namespace RedisOnC

/-! ## One node -/

/-- The left child is rotated first, and hung below its parent again. -/
private theorem rotLeft_below {h : AVLHeap} {par : Option Ptr} {p y z : Ptr}
    {a c d r : BinaryTree Ptr} (hs : Stale h par p (node y a (node z c d)) r)
    (hnd : (node p (node y a (node z c d)) r).inorder.Nodup) :
    ∃ h₁, rotLeft h y = some (h₁, z) ∧
      Stale (h₁.setLeft p (some z)) par p (node z (node y a c) d) r ∧
      ∀ x, x ≠ p → x ∉ (node y a (node z c d)).inorder → h₁.setLeft p (some z) x = h x := by
  have hndl : (node y a (node z c d)).inorder.Nodup := by
    rw [inorder_node, List.nodup_append'] at hnd
    exact hnd.1
  have hlr : ∀ x ∈ r.inorder, x ∉ (node y a (node z c d)).inorder := by
    rw [inorder_node, List.nodup_append'] at hnd
    exact fun x hx hxl ↦ hnd.2.2 hxl (List.mem_cons_of_mem p hx)
  rw [inorder_node, List.nodup_middle, List.nodup_cons, List.mem_append, not_or] at hnd
  obtain ⟨⟨hpl, hpr⟩, -⟩ := hnd
  obtain ⟨h₁, hrot, hrep, hout⟩ := rotLeft_spec (Stale.of_rep hs.repLeft) hndl
  have hkeep : ∀ x, x ≠ p → x ∉ (node y a (node z c d)).inorder →
      h₁.setLeft p (some z) x = h x := by
    intro x hxp hxl
    rw [AVLHeap.setLeft_of_ne hxp, hout x hxl]
  refine ⟨h₁, hrot, ⟨by simp, ?_, ?_, hrep.congr fun x hx ↦ ?_, hs.repRight.congr fun x hx ↦ ?_⟩,
    hkeep⟩
  · rw [AVLHeap.setLeft_self, hout p hpl]
    exact hs.right
  · rw [AVLHeap.setLeft_self, hout p hpl]
    exact hs.parent
  · -- the rotation moves no node out of the subtree
    have hin : (node z (node y a c) d).inorder = (node y a (node z c d)).inorder := by simp
    exact AVLHeap.setLeft_of_ne fun heq ↦ hpl (hin ▸ heq ▸ hx)
  · exact hkeep x (fun heq ↦ hpr (heq ▸ hx)) (hlr x hx)

theorem avlFixLeft_spec {h : AVLHeap} {par : Option Ptr} {p y : Ptr} {a b r : BinaryTree Ptr}
    (hs : Stale h par p (node y a b) r) (hnd : (node p (node y a b) r).inorder.Nodup) :
    ∃ h' q, avlFixLeft h p = some (h', q) ∧ Rep h' par (fixLeft p (node y a b) r) ∧
      (fixLeft p (node y a b) r).root = some q ∧
      ∀ x ∉ (node p (node y a b) r).inorder, h' x = h x := by
  have hl : (h p).left = some y := hs.left
  have hya : (h y).left = a.root := by rw [hs.repLeft.1]
  have hyb : (h y).right = b.root := by rw [hs.repLeft.1]
  have hda : avlDepth h (h y).left = a.height := by rw [hya, hs.repLeft.2.1.avlDepth_root]
  have hdb : avlDepth h (h y).right = b.height := by rw [hyb, hs.repLeft.2.2.avlDepth_root]
  by_cases hab : a.height < b.height
  · rcases b with _ | ⟨z, c, d⟩
    · simp at hab
    have hcode : avlFixLeft h p
        = (rotLeft h y).bind fun s ↦ rotRight (s.1.setLeft p (some s.2)) p := by
      simp only [avlFixLeft, hl, Option.bind_eq_bind, Option.bind_some, hda, hdb, if_pos hab]
    rw [hcode, fixLeft, if_pos hab]
    obtain ⟨h₁, hrot, hs₁, hkeep⟩ := rotLeft_below hs hnd
    have hin : (node p (node z (node y a c) d) r).inorder
        = (node p (node y a (node z c d)) r).inorder := by simp
    obtain ⟨h₂, hrot', hrep, hout⟩ := rotRight_spec hs₁ (by rw [hin]; exact hnd)
    refine ⟨h₂, z, by rw [hrot, Option.bind_some, hrot'], hrep, rfl, fun x hx ↦ ?_⟩
    rw [hout x (by rw [hin]; exact hx)]
    apply hkeep
    · exact fun heq ↦ hx (by simp [heq])
    · exact fun hxl ↦ hx (by rw [inorder_node, List.mem_append]; exact Or.inl hxl)
  · have hcode : avlFixLeft h p = rotRight h p := by
      simp only [avlFixLeft, hl, Option.bind_eq_bind, Option.bind_some, hda, hdb, if_neg hab]
    rw [hcode, fixLeft, if_neg hab]
    obtain ⟨h', hrot, hrep, hout⟩ := rotRight_spec hs hnd
    exact ⟨h', y, hrot, hrep, rfl, hout⟩

theorem avlFixRight_eq (h : AVLHeap) (p : Ptr) :
    avlFixRight h p = (avlFixLeft h.mirror p).map fun (h', q) ↦ (h'.mirror, q) := by
  have hrl : ∀ (h : AVLHeap) (p : Ptr),
      rotLeft h p = (rotRight h.mirror p).map fun (h', q) ↦ (h'.mirror, q) := by
    intro h p
    rw [rotRight_eq, AVLHeap.mirror_mirror, Option.map_map]
    rcases rotLeft h p with _ | ⟨h', q⟩ <;> rfl
  rw [avlFixRight, avlFixLeft, AVLHeap.mirror_left]
  rcases (h p).right with _ | y
  · rfl
  · simp only [Option.bind_eq_bind, Option.bind_some, AVLHeap.mirror_left, AVLHeap.mirror_right,
      avlDepth_mirror]
    by_cases hab : avlDepth h (h y).right < avlDepth h (h y).left
    · rw [if_pos hab, if_pos hab, hrl h.mirror, AVLHeap.mirror_mirror]
      rcases rotRight h y with _ | ⟨h', q⟩
      · rfl
      · simp only [Option.map_some, Option.bind_some]
        rw [hrl, AVLHeap.mirror_setRight]
    · rw [if_neg hab, if_neg hab, hrl]

theorem avlFixRight_spec {h : AVLHeap} {par : Option Ptr} {p y : Ptr} {l a b : BinaryTree Ptr}
    (hs : Stale h par p l (node y a b)) (hnd : (node p l (node y a b)).inorder.Nodup) :
    ∃ h' q, avlFixRight h p = some (h', q) ∧ Rep h' par (fixRight p l (node y a b)) ∧
      (fixRight p l (node y a b)).root = some q ∧
      ∀ x ∉ (node p l (node y a b)).inorder, h' x = h x := by
  have hmir : (node p (node y b.mirror a.mirror) l.mirror).inorder
      = (node p l (node y a b)).inorder.reverse := inorder_mirror (node p l (node y a b))
  have hfix : (fixLeft p (node y b.mirror a.mirror) l.mirror).mirror
      = fixRight p l (node y a b) := by
    rw [mirror_fixLeft, mirror_mirror, ← mirror_node, mirror_mirror]
  obtain ⟨h', q, hcode, hrep, hroot, hout⟩ := avlFixLeft_spec hs.mirror
    (by rw [hmir]; exact List.nodup_reverse.mpr hnd)
  refine ⟨h'.mirror, q, by rw [avlFixRight_eq, hcode, Option.map_some], hfix ▸ hrep.mirror, ?_,
    fun x hx ↦ ?_⟩
  · rw [← hfix, root_mirror, hroot]
  · have hxh : h' x = h.mirror x := hout x (by rw [hmir, List.mem_reverse]; exact hx)
    rw [AVLHeap.mirror, hxh]
    rfl

/-- The rotation step of `avl_fix`, on a node that has just been updated. -/
theorem avlRebalance_spec {h : AVLHeap} {par : Option Ptr} {p : Ptr} {l r : BinaryTree Ptr}
    (ht : Rep h par (node p l r)) (hnd : (node p l r).inorder.Nodup) :
    ∃ h' q, avlRebalance h p = some (h', q) ∧ Rep h' par (rebalance p l r) ∧
      (rebalance p l r).root = some q ∧ ∀ x ∉ (node p l r).inorder, h' x = h x := by
  have hs := Stale.of_rep ht
  have hdl : avlDepth h (h p).left = l.height := by rw [hs.left, hs.repLeft.avlDepth_root]
  have hdr : avlDepth h (h p).right = r.height := by rw [hs.right, hs.repRight.avlDepth_root]
  simp only [avlRebalance, hdl, hdr, rebalance, gt_iff_lt]
  by_cases hl : r.height + 1 < l.height
  · rw [if_pos hl, if_pos hl]
    rcases l with _ | ⟨y, a, b⟩
    · simp at hl
    · exact avlFixLeft_spec hs hnd
  · rw [if_neg hl, if_neg hl]
    by_cases hr : l.height + 1 < r.height
    · rw [if_pos hr, if_pos hr]
      rcases r with _ | ⟨y, a, b⟩
      · simp at hr
      · exact avlFixRight_spec hs hnd
    · rw [if_neg hr, if_neg hr]
      exact ⟨h, p, rfl, ht, rfl, fun _ _ ↦ rfl⟩

/-! ## The path -/

/-- The nodes of a context are linked to each other and to the pointer in the hole, and hold right
subtrees beside the path. Their depths and counts are arbitrary. -/
def Links (h : AVLHeap) : Ctx Ptr → Option Ptr → Prop
  | .top, _ => True
  | .left up x r, hole => (h x).left = hole ∧ (h x).right = r.root ∧ (h x).parent = up.parent ∧
      Rep h (some x) r ∧ Links h up (some x)
  | .right up x l, hole => (h x).right = hole ∧ (h x).left = l.root ∧ (h x).parent = up.parent ∧
      Rep h (some x) l ∧ Links h up (some x)

theorem Links.congr {h h' : AVLHeap} {c : Ctx Ptr} {hole : Option Ptr} (hc : Links h c hole)
    (heq : ∀ x ∈ c.elems, h' x = h x) : Links h' c hole := by
  induction c generalizing hole with
  | top => trivial
  | left up x r ih =>
    obtain ⟨h1, h2, h3, hr, hup⟩ := hc
    rw [Links, heq x (by simp)]
    exact ⟨h1, h2, h3, hr.congr fun y hy ↦ heq y (by simp [hy]),
      ih hup fun y hy ↦ heq y (by simp [hy])⟩
  | right up x l ih =>
    obtain ⟨h1, h2, h3, hl, hup⟩ := hc
    rw [Links, heq x (by simp)]
    exact ⟨h1, h2, h3, hl.congr fun y hy ↦ heq y (by simp [hy]),
      ih hup fun y hy ↦ heq y (by simp [hy])⟩

theorem Rep.parent_root {h : AVLHeap} {par : Option Ptr} {t : BinaryTree Ptr} {q : Ptr}
    (ht : Rep h par t) (hq : t.root = some q) : (h q).parent = par := by
  rcases t with _ | ⟨p, l, r⟩
  · cases hq
  · obtain rfl : p = q := Option.some_inj.mp hq
    rw [ht.1]

/-- The child pointer that leads to the hole. -/
def ctxSlot : Ctx Ptr → Option Slot
  | .top => none
  | .left _ x _ => some (.left x)
  | .right _ x _ => some (.right x)

theorem ctx_parent_mem {c : Ctx Ptr} {x : Ptr} (hx : c.parent = some x) : x ∈ c.elems := by
  rcases c with _ | ⟨up, y, r⟩ | ⟨up, y, l⟩
  · cases hx
  · obtain rfl : y = x := Option.some_inj.mp hx
    simp
  · obtain rfl : y = x := Option.some_inj.mp hx
    simp

/-- The test of the source finds the pointer that leads to the hole: the other child of the parent
is a different node. -/
theorem Links.ctxSlot_eq {h : AVLHeap} {c : Ctx Ptr} {p x : Ptr} (hc : Links h c (some p))
    (hp : p ∉ c.elems) (hx : c.parent = some x) : ctxSlot c = some (childSlot h x p) := by
  rcases c with _ | ⟨up, y, r⟩ | ⟨up, y, l⟩
  · cases hx
  · obtain rfl : y = x := Option.some_inj.mp hx
    rw [childSlot, if_pos hc.1, ctxSlot]
  · obtain rfl : y = x := Option.some_inj.mp hx
    have hne : (h y).left ≠ some p := fun heq ↦
      hp (by simp [root_mem_inorder (hc.2.1.symm.trans heq)])
    rw [childSlot, if_neg hne, ctxSlot]

theorem store_childSlot_of_ne {h h' : AVLHeap} {x y p : Ptr} {v : Option Ptr} (hy : y ≠ x) :
    h.store v (childSlot h' x p) y = h y := by
  rw [childSlot]
  split
  · exact AVLHeap.setLeft_of_ne hy
  · exact AVLHeap.setRight_of_ne hy

/-- One round below a parent `x`: the node is rebalanced, the result is hung into the slot it came
from, and the loop goes on at `x`. -/
private theorem avlFixStep_below {h : AVLHeap} {p x : Ptr} {l r : BinaryTree Ptr}
    (hs : Stale h (some x) p l r) (hnd : (node p l r).inorder.Nodup)
    (hx : x ∉ (node p l r).inorder) :
    ∃ h₂ q, avlFixStep (h, p) = some (.inl (h₂.store (some q) (childSlot h x p), x)) ∧
      Rep h₂ (some x) (rebalance p l r) ∧ (rebalance p l r).root = some q ∧
      ∀ y ∉ (node p l r).inorder, h₂ y = h y := by
  have hndp := hnd
  rw [inorder_node, List.nodup_middle, List.nodup_cons, List.mem_append, not_or] at hndp
  have hxp : x ≠ p := fun heq ↦ hx (by simp [heq])
  obtain ⟨h₂, q, hreb, hrep, hroot, hout⟩ :=
    avlRebalance_spec (hs.avlUpdate hndp.1.1 hndp.1.2) hnd
  have hpar : (avlUpdate h p p).parent = some x := by
    rw [avlUpdate, AVLHeap.set_self]
    exact hs.parent
  have hqx : q ≠ x := by
    have hq := root_mem_inorder hroot
    rw [inorder_rebalance, ← inorder_node] at hq
    exact fun heq ↦ hx (heq ▸ hq)
  have hslot : childSlot (avlUpdate h p) x p = childSlot h x p := by
    rw [childSlot, avlUpdate_of_ne hxp, ← childSlot]
  have hparq : (h₂.store (some q) (childSlot h x p) q).parent = some x := by
    rw [store_childSlot_of_ne hqx, hrep.parent_root hroot]
  refine ⟨h₂, q, ?_, hrep, hroot, fun y hy ↦ ?_⟩
  · simp only [avlFixStep, hreb, hpar, Option.map_some, Option.bind_eq_bind, Option.bind_some,
      hslot, hparq]
  · rw [hout y hy, avlUpdate_of_ne fun heq ↦ hy (by simp [heq])]

theorem avlFixStep_left {h : AVLHeap} {up : Ctx Ptr} {p x : Ptr} {l r r' : BinaryTree Ptr}
    (hc : Links h (.left up x r') (some p)) (hs : Stale h (some x) p l r)
    (hnd : ((Ctx.left up x r').plug (node p l r)).inorder.Nodup) :
    ∃ h₁, avlFixStep (h, p) = some (.inl (h₁, x)) ∧ Links h₁ up (some x) ∧
      Stale h₁ up.parent x (rebalance p l r) r' ∧
      ∀ y, y ≠ x → y ∉ (node p l r).inorder → h₁ y = h y := by
  obtain ⟨hleft, hright, hpar, hr', hup⟩ := hc
  obtain ⟨hndp, -, hdisj⟩ := Ctx.nodup_plug hnd
  obtain ⟨hndx, -, hdisjx⟩ := Ctx.nodup_plug (c := up) (t := node x (node p l r) r') hnd
  rw [inorder_node, List.nodup_middle, List.nodup_cons, List.mem_append, not_or] at hndx
  obtain ⟨⟨hxp, hxr⟩, hndx⟩ := hndx
  obtain ⟨h₂, q, hstep, hrep, hroot, hout⟩ := avlFixStep_below hs hndp hxp
  rw [childSlot, if_pos hleft] at hstep
  have hkeep : ∀ y, y ≠ x → y ∉ (node p l r).inorder → h₂.setLeft x (some q) y = h y := by
    intro y hyx hyp
    rw [AVLHeap.setLeft_of_ne hyx, hout y hyp]
  have hxh : h₂ x = h x := hout x hxp
  refine ⟨h₂.setLeft x (some q), hstep, hup.congr fun y hy ↦ ?_, ⟨?_, ?_, ?_, ?_, ?_⟩, hkeep⟩
  · apply hkeep
    · rintro rfl
      exact hdisjx y (by simp) hy
    · exact fun hyp ↦ hdisj y hyp (by rw [Ctx.mem_elems_left]; tauto)
  · rw [AVLHeap.setLeft_self, hroot]
  · rw [AVLHeap.setLeft_self, hxh]
    exact hright
  · rw [AVLHeap.setLeft_self, hxh]
    exact hpar
  · refine hrep.congr fun y hy ↦ AVLHeap.setLeft_of_ne fun heq ↦ hxp ?_
    rwa [inorder_rebalance, ← inorder_node, heq] at hy
  · refine hr'.congr fun y hy ↦ hkeep y (fun heq ↦ hxr (heq ▸ hy)) fun hyp ↦ ?_
    exact hdisj y hyp (by rw [Ctx.mem_elems_left]; tauto)

theorem avlFixStep_right {h : AVLHeap} {up : Ctx Ptr} {p x : Ptr} {l r l' : BinaryTree Ptr}
    (hc : Links h (.right up x l') (some p)) (hs : Stale h (some x) p l r)
    (hnd : ((Ctx.right up x l').plug (node p l r)).inorder.Nodup) :
    ∃ h₁, avlFixStep (h, p) = some (.inl (h₁, x)) ∧ Links h₁ up (some x) ∧
      Stale h₁ up.parent x l' (rebalance p l r) ∧
      ∀ y, y ≠ x → y ∉ (node p l r).inorder → h₁ y = h y := by
  obtain ⟨hright, hleft, hpar, hl', hup⟩ := hc
  obtain ⟨hndp, -, hdisj⟩ := Ctx.nodup_plug hnd
  obtain ⟨hndx, -, hdisjx⟩ := Ctx.nodup_plug (c := up) (t := node x l' (node p l r)) hnd
  rw [inorder_node, List.nodup_middle, List.nodup_cons, List.mem_append, not_or] at hndx
  obtain ⟨⟨hxl, hxp⟩, hndx⟩ := hndx
  -- the left pointer of the parent leads elsewhere, so `from` is the right one
  have hne : (h x).left ≠ some p := by
    rw [hleft]
    exact fun heq ↦ hdisj p (by simp) (by simp [root_mem_inorder heq])
  obtain ⟨h₂, q, hstep, hrep, hroot, hout⟩ := avlFixStep_below hs hndp hxp
  rw [childSlot, if_neg hne] at hstep
  have hkeep : ∀ y, y ≠ x → y ∉ (node p l r).inorder → h₂.setRight x (some q) y = h y := by
    intro y hyx hyp
    rw [AVLHeap.setRight_of_ne hyx, hout y hyp]
  have hxh : h₂ x = h x := hout x hxp
  refine ⟨h₂.setRight x (some q), hstep, hup.congr fun y hy ↦ ?_, ⟨?_, ?_, ?_, ?_, ?_⟩, hkeep⟩
  · apply hkeep
    · rintro rfl
      exact hdisjx y (by simp) hy
    · exact fun hyp ↦ hdisj y hyp (by rw [Ctx.mem_elems_right]; tauto)
  · rw [AVLHeap.setRight_self, hxh]
    exact hleft
  · rw [AVLHeap.setRight_self, hroot]
  · rw [AVLHeap.setRight_self, hxh]
    exact hpar
  · refine hl'.congr fun y hy ↦ hkeep y (fun heq ↦ hxl (heq ▸ hy)) fun hyp ↦ ?_
    exact hdisj y hyp (by rw [Ctx.mem_elems_right]; tauto)
  · refine hrep.congr fun y hy ↦ AVLHeap.setRight_of_ne fun heq ↦ hxp ?_
    rwa [inorder_rebalance, ← inorder_node, heq] at hy

/-- **`avl_fix`.** From a node with right subtrees below a path with right links, the loop returns
the root of the repaired tree and touches nothing outside it. The induction is on the path: one
round rebalances the node, hangs the result below its parent, and leaves the parent in the same
state one level up. -/
theorem avlFix_spec {c : Ctx Ptr} {h : AVLHeap} {p : Ptr} {l r : BinaryTree Ptr}
    (hc : Links h c (some p)) (hs : Stale h c.parent p l r)
    (hnd : (c.plug (node p l r)).inorder.Nodup) :
    ∃ h' q, avlFix h p = some (h', q) ∧ Rep h' none (fixUp c (rebalance p l r)) ∧
      (fixUp c (rebalance p l r)).root = some q ∧
      ∀ x ∉ (c.plug (node p l r)).inorder, h' x = h x := by
  induction c generalizing h p l r with
  | top =>
    have hndp := hnd
    rw [Ctx.plug_top, inorder_node, List.nodup_middle, List.nodup_cons, List.mem_append,
      not_or] at hndp
    obtain ⟨h₂, q, hreb, hrep, hroot, hout⟩ :=
      avlRebalance_spec (hs.avlUpdate hndp.1.1 hndp.1.2) hnd
    have hpar : (avlUpdate h p p).parent = none := by
      rw [avlUpdate, AVLHeap.set_self]
      exact hs.parent
    refine ⟨h₂, q, WhileLoop.of_exit ?_, hrep, hroot, fun x hx ↦ ?_⟩
    · simp only [avlFixStep, hreb, hpar, Option.map_none, Option.bind_eq_bind,
        Option.bind_some]
    · rw [hout x hx, avlUpdate_of_ne fun heq ↦ hx (by simp [heq])]
  | left up x r' ih =>
    obtain ⟨h₁, hstep, hlinks, hstale, hkeep⟩ := avlFixStep_left hc hs hnd
    have hin : (up.plug (node x (rebalance p l r) r')).inorder
        = ((Ctx.left up x r').plug (node p l r)).inorder := by
      simp [Ctx.inorder_plug]
    obtain ⟨h', q, hfix, hrep, hroot, hout⟩ := ih hlinks hstale (by rw [hin]; exact hnd)
    refine ⟨h', q, (WhileLoop.of_continue hstep).trans hfix, hrep, hroot, fun y hy ↦ ?_⟩
    rw [hout y (by rw [hin]; exact hy)]
    apply hkeep
    · rintro rfl
      exact hy (Ctx.mem_plug.mpr (Or.inr (by simp)))
    · exact fun hyp ↦ hy (Ctx.mem_plug.mpr (Or.inl hyp))
  | right up x l' ih =>
    obtain ⟨h₁, hstep, hlinks, hstale, hkeep⟩ := avlFixStep_right hc hs hnd
    have hin : (up.plug (node x l' (rebalance p l r))).inorder
        = ((Ctx.right up x l').plug (node p l r)).inorder := by
      simp [Ctx.inorder_plug]
    obtain ⟨h', q, hfix, hrep, hroot, hout⟩ := ih hlinks hstale (by rw [hin]; exact hnd)
    refine ⟨h', q, (WhileLoop.of_continue hstep).trans hfix, hrep, hroot, fun y hy ↦ ?_⟩
    rw [hout y (by rw [hin]; exact hy)]
    apply hkeep
    · rintro rfl
      exact hy (Ctx.mem_plug.mpr (Or.inr (by simp)))
    · exact fun hyp ↦ hy (Ctx.mem_plug.mpr (Or.inl hyp))

end RedisOnC
