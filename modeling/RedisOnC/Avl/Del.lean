import RedisOnC.Avl.Fix

/-!
# Insertion below a hole and deletion of a node

The two ways the source changes the shape of a tree. `avlFix_attach` is the end of an insertion:
a fresh node is written into an empty slot and `avl_fix` runs from it. `avlDel_spec` is `avl_del`:
a node without right child is replaced by its left subtree and the path above is repaired; any
other node swaps places with its successor, which is deleted first.

The second case is the delicate one. Deleting the successor may rotate the node itself anywhere in
the tree, so the successor takes over whatever cell the node ends up with, and only the in-order
sequence says that this is the right place.
-/

open BinaryTree

namespace RedisOnC

/-! ## Splitting a tree at a hole -/

/-- Write the pointer in the hole, if it is not the root pointer. -/
def storeHole (h : AVLHeap) (v : Option Ptr) (c : Ctx Ptr) : AVLHeap :=
  match ctxSlot c with
  | none => h
  | some slot => h.store v slot

theorem storeHole_of_ne {h : AVLHeap} {v : Option Ptr} {c : Ctx Ptr} {y : Ptr}
    (hy : c.parent ≠ some y) : storeHole h v c y = h y := by
  rcases c with _ | ⟨up, x, r⟩ | ⟨up, x, l⟩
  · rfl
  · exact AVLHeap.setLeft_of_ne fun heq ↦ hy (heq ▸ rfl)
  · exact AVLHeap.setRight_of_ne fun heq ↦ hy (heq ▸ rfl)

theorem storeHole_congr {h h' : AVLHeap} {v : Option Ptr} {c : Ctx Ptr} {y : Ptr}
    (hy : h' y = h y) : storeHole h' v c y = storeHole h v c y := by
  by_cases hpar : c.parent = some y
  · rcases c with _ | ⟨up, x, r⟩ | ⟨up, x, l⟩
    · exact hy
    · obtain rfl : x = y := Option.some_inj.mp hpar
      simp only [storeHole, ctxSlot, AVLHeap.store, AVLHeap.setLeft_self, hy]
    · obtain rfl : x = y := Option.some_inj.mp hpar
      simp only [storeHole, ctxSlot, AVLHeap.store, AVLHeap.setRight_self, hy]
  · rw [storeHole_of_ne hpar, storeHole_of_ne hpar, hy]

/-- A stored tree splits at any hole into right links and a stored subtree. -/
theorem Rep.of_plug {h : AVLHeap} {c : Ctx Ptr} {t : BinaryTree Ptr}
    (ht : Rep h none (c.plug t)) : Links h c t.root ∧ Rep h c.parent t := by
  induction c generalizing t with
  | top => exact ⟨trivial, ht⟩
  | left up x r ih =>
    obtain ⟨hup, hx, hl, hr⟩ := ih ht
    exact ⟨⟨by rw [hx], by rw [hx], by rw [hx], hr, hup⟩, hl⟩
  | right up x l ih =>
    obtain ⟨hup, hx, hl, hr⟩ := ih ht
    exact ⟨⟨by rw [hx], by rw [hx], by rw [hx], hl, hup⟩, hr⟩

theorem Links.storeHole {h : AVLHeap} {c : Ctx Ptr} {hole v : Option Ptr} (hc : Links h c hole)
    (hnd : c.elems.Nodup) : Links (storeHole h v c) c v := by
  rcases c with _ | ⟨up, x, s⟩ | ⟨up, x, s⟩
  · trivial
  all_goals
    obtain ⟨h1, h2, h3, hs, hup⟩ := hc
    have hx : ∀ y, y ∈ s.inorder ∨ y ∈ up.elems → y ≠ x := by
      simp only [Ctx.elems, Ctx.before, Ctx.after, List.nodup_append', List.nodup_cons,
        List.mem_append, List.disjoint_left, List.mem_cons, List.nodup_nil] at hnd ⊢
      rintro y hy rfl
      grind
    simp only [RedisOnC.storeHole, ctxSlot, AVLHeap.store]
  · refine ⟨by simp, by simpa using h2, by simpa using h3, hs.congr fun y hy ↦ ?_,
      hup.congr fun y hy ↦ ?_⟩
    · exact AVLHeap.setLeft_of_ne (hx y (Or.inl hy))
    · exact AVLHeap.setLeft_of_ne (hx y (Or.inr hy))
  · refine ⟨by simp, by simpa using h2, by simpa using h3, hs.congr fun y hy ↦ ?_,
      hup.congr fun y hy ↦ ?_⟩
    · exact AVLHeap.setRight_of_ne (hx y (Or.inl hy))
    · exact AVLHeap.setRight_of_ne (hx y (Or.inr hy))

/-- Replacing a subtree by one with the same root, height and size needs no change above it. -/
private theorem Rep.plug_same_root {h h' : AVLHeap} {c : Ctx Ptr} {t u : BinaryTree Ptr}
    (hT : Rep h none (c.plug t)) (hu : Rep h' c.parent u) (hroot : u.root = t.root)
    (hh : u.height = t.height) (hn : u.numNodes = t.numNodes)
    (heq : ∀ x ∈ c.elems, h' x = h x) : Rep h' none (c.plug u) := by
  induction c generalizing t u with
  | top => exact hu
  | left up x r ih =>
    obtain ⟨hx, -, hr⟩ := (Rep.of_plug (c := up) (t := node x t r) hT).2
    refine ih hT (u := node x u r) ⟨?_, hu, hr.congr fun y hy ↦ heq y (by simp [hy])⟩ rfl
      (by rw [height, height, hh]) (by rw [numNodes, numNodes, hn])
      fun y hy ↦ heq y (by simp [hy])
    rw [heq x (by simp), hx, height, height, numNodes, numNodes, hh, hn, hroot]
  | right up x l ih =>
    obtain ⟨hx, hl, -⟩ := (Rep.of_plug (c := up) (t := node x l t) hT).2
    refine ih hT (u := node x l u) ⟨?_, hl.congr fun y hy ↦ heq y (by simp [hy]), hu⟩ rfl
      (by rw [height, height, hh]) (by rw [numNodes, numNodes, hn])
      fun y hy ↦ heq y (by simp [hy])
    rw [heq x (by simp), hx, height, height, numNodes, numNodes, hh, hn, hroot]

/-- Replacing a subtree by one of the same height and size needs one pointer written. -/
theorem Rep.plug_replace {h h' : AVLHeap} {c : Ctx Ptr} {t t' : BinaryTree Ptr}
    (hT : Rep h none (c.plug t)) (ht' : Rep h' c.parent t') (hh : t'.height = t.height)
    (hn : t'.numNodes = t.numNodes) (hnd : c.elems.Nodup)
    (heq : ∀ x ∈ c.elems, h' x = RedisOnC.storeHole h t'.root c x) :
    Rep h' none (c.plug t') := by
  obtain ⟨hlinks, -⟩ := Rep.of_plug hT
  have hlinks' : Links h' c t'.root := (hlinks.storeHole hnd).congr heq
  -- only the parent of the hole is written, on the side of the hole
  rcases c with _ | ⟨up, x, s⟩ | ⟨up, x, s⟩
  · exact ht'
  · obtain ⟨hx, -, -⟩ := (Rep.of_plug (c := up) (t := node x t s) hT).2
    obtain ⟨-, -, -, hs', -⟩ := hlinks'
    refine Rep.plug_same_root (c := up) (t := node x t s) (u := node x t' s) hT ⟨?_, ht', hs'⟩ rfl
      (by rw [height, height, hh]) (by rw [numNodes, numNodes, hn]) fun y hy ↦ ?_
    · rw [heq x (by simp), RedisOnC.storeHole, ctxSlot]
      simp only [AVLHeap.store, AVLHeap.setLeft_self, hx, height, numNodes, hh, hn]
    · rw [heq y (by simp [hy])]
      refine storeHole_of_ne fun hxy ↦ ?_
      obtain rfl : x = y := Option.some_inj.mp hxy
      simp only [Ctx.elems, Ctx.before, Ctx.after, List.nodup_append', List.disjoint_left,
        List.mem_append, List.mem_cons, List.nodup_cons] at hnd hy
      grind
  · obtain ⟨hx, -, -⟩ := (Rep.of_plug (c := up) (t := node x s t) hT).2
    obtain ⟨-, -, -, hs', -⟩ := hlinks'
    refine Rep.plug_same_root (c := up) (t := node x s t) (u := node x s t') hT ⟨?_, hs', ht'⟩ rfl
      (by rw [height, height, hh]) (by rw [numNodes, numNodes, hn]) fun y hy ↦ ?_
    · rw [heq x (by simp), RedisOnC.storeHole, ctxSlot]
      simp only [AVLHeap.store, AVLHeap.setRight_self, hx, height, numNodes, hh, hn]
    · rw [heq y (by simp [hy])]
      refine storeHole_of_ne fun hxy ↦ ?_
      obtain rfl : x = y := Option.some_inj.mp hxy
      simp only [Ctx.elems, Ctx.before, Ctx.after, List.nodup_append', List.disjoint_left,
        List.mem_append, List.mem_cons, List.nodup_cons] at hnd hy
      grind

/-! ## Insertion -/

/-- **Attaching a node.** A node without children, written into an empty slot of a stored tree:
`avl_fix` returns the tree with the node inserted at that slot. -/
theorem avlFix_attach {h : AVLHeap} {c : Ctx Ptr} {p : Ptr} (hc : Links h c (some p))
    (hl : (h p).left = none) (hr : (h p).right = none) (hpar : (h p).parent = c.parent)
    (hnd : (c.plug nil).inorder.Nodup) (hp : p ∉ (c.plug nil).inorder) :
    ∃ h' q, avlFix h p = some (h', q) ∧ Rep h' none (fixUp c (node p nil nil)) ∧
      (fixUp c (node p nil nil)).root = some q ∧
      ∀ x, x ≠ p → x ∉ (c.plug nil).inorder → h' x = h x := by
  have hnd' : (c.plug (node p nil nil)).inorder.Nodup := by
    rw [Ctx.inorder_plug, inorder_nil, List.append_nil] at hnd hp
    rw [Ctx.inorder_plug, inorder_node, inorder_nil, List.nil_append, List.append_assoc,
      List.singleton_append, List.nodup_middle, List.nodup_cons]
    exact ⟨hp, hnd⟩
  obtain ⟨h', q, hfix, hrep, hroot, hout⟩ :=
    avlFix_spec (l := nil) (r := nil) hc ⟨hl, hr, hpar, Rep.nil, Rep.nil⟩ hnd'
  refine ⟨h', q, hfix, hrep, hroot, fun x hxp hx ↦ hout x fun hmem ↦ ?_⟩
  rcases Ctx.mem_plug.mp hmem with hx' | hx'
  · exact hxp (by simpa using hx')
  · exact hx (Ctx.mem_plug.mpr (Or.inr hx'))

/-! ## Deletion -/

theorem Links.hang {h : AVLHeap} {c : Ctx Ptr} {hole : Option Ptr} {t : BinaryTree Ptr}
    {slot : Slot} {x : Ptr} (hc : Links h c hole) (hslot : ctxSlot c = some slot)
    (hx : c.parent = some x) (ht : Rep h (some x) t) (hnd : (c.plug t).inorder.Nodup) :
    ∃ up l r, Links (h.store t.root slot) up (some x) ∧
      Stale (h.store t.root slot) up.parent x l r ∧ c.plug t = up.plug (node x l r) ∧
      fixUp c t = fixUp up (rebalance x l r) ∧ c.depth = up.depth + 1 := by
  obtain ⟨-, hnde, hdisj⟩ := Ctx.nodup_plug hnd
  have hstore : h.store t.root slot = RedisOnC.storeHole h t.root c := by
    rw [RedisOnC.storeHole, hslot]
  have hlinks : Links (h.store t.root slot) c t.root := hstore ▸ hc.storeHole hnde
  have ht' : Rep (h.store t.root slot) (some x) t := ht.congr fun y hy ↦ by
    rw [hstore]
    exact storeHole_of_ne fun heq ↦ hdisj y hy (ctx_parent_mem heq)
  rcases c with _ | ⟨up, z, s⟩ | ⟨up, z, s⟩
  · cases hx
  · obtain rfl : z = x := Option.some_inj.mp hx
    obtain ⟨h1, h2, h3, hs, hup⟩ := hlinks
    exact ⟨up, t, s, hup, ⟨h1, h2, h3, ht', hs⟩, rfl, rfl, rfl⟩
  · obtain rfl : z = x := Option.some_inj.mp hx
    obtain ⟨h1, h2, h3, hs, hup⟩ := hlinks
    exact ⟨up, s, t, hup, ⟨h2, h1, h3, hs, ht'⟩, rfl, rfl, rfl⟩

/-- Hanging a tree into a hole below a parent and repairing from the parent upwards. -/
private theorem avlFix_hole {h : AVLHeap} {c : Ctx Ptr} {hole : Option Ptr} {t : BinaryTree Ptr}
    {slot : Slot} {x : Ptr} (hc : Links h c hole) (hslot : ctxSlot c = some slot)
    (hx : c.parent = some x) (ht : Rep h (some x) t) (hnd : (c.plug t).inorder.Nodup) :
    ∃ h' q, avlFix (h.store t.root slot) x = some (h', q) ∧ Rep h' none (fixUp c t) ∧
      (fixUp c t).root = some q ∧ ∀ y ∉ (c.plug t).inorder, h' y = h y := by
  have hstore : h.store t.root slot = storeHole h t.root c := by rw [storeHole, hslot]
  have hframe : ∀ y, y ∉ (c.plug t).inorder → h.store t.root slot y = h y := fun y hy ↦ by
    rw [hstore]
    exact storeHole_of_ne fun heq ↦ hy (Ctx.mem_plug.mpr (Or.inr (ctx_parent_mem heq)))
  obtain ⟨up, l, r, hup, hs, hplug, hfixup, -⟩ := hc.hang hslot hx ht hnd
  rw [hplug] at hnd hframe ⊢
  rw [hfixup]
  obtain ⟨h', q, hfix, hrep, hroot, hout⟩ := avlFix_spec hup hs hnd
  exact ⟨h', q, hfix, hrep, hroot, fun y hy ↦ (hout y hy).trans (hframe y hy)⟩

/-- `victim` ends up at the leftmost node, which has no left child; the in-order sequence around it
is read off the context. -/
private theorem avlLeftmost_spec {h : AVLHeap} {c : Ctx Ptr} {par : Option Ptr} {y : Ptr}
    {a b : BinaryTree Ptr} (ht : Rep h par (node y a b)) :
    ∃ (c' : Ctx Ptr) (v : Ptr) (rv : BinaryTree Ptr), avlLeftmost h y = some v ∧
      c.plug (node y a b) = c'.plug (node v nil rv) ∧ c'.before = c.before ∧
      rv.numNodes < (node y a b).numNodes := by
  induction a generalizing c par y b with
  | nil =>
    refine ⟨c, y, b, WhileLoop.of_exit ?_, rfl, rfl, by simp⟩
    simp only [ht.1, root_nil]
  | node z a' b' ih _ =>
    obtain ⟨c', v, rv, hcode, hplug, hbef, hlt⟩ := ih (c := .left c y b) ht.2.1
    refine ⟨c', v, rv, ?_, hplug, hbef, hlt.trans (by simp only [numNodes]; omega)⟩
    have hstep : avlLeftmost h y = avlLeftmost h z := by
      apply WhileLoop.of_continue
      simp only [ht.1, root_node]
    rw [hstep, hcode]

theorem avlDel_reparent {h : AVLHeap} {c : Ctx Ptr} {p : Ptr} {l : BinaryTree Ptr}
    (hT : Rep h none (c.plug (node p l nil))) (hnd : (c.plug (node p l nil)).inorder.Nodup) :
    Links (h.setParent? c.parent l.root) c (some p) ∧
      Rep (h.setParent? c.parent l.root) c.parent l ∧ (c.plug l).inorder.Nodup := by
  obtain ⟨hlinks, -, hl, -⟩ := Rep.of_plug hT
  obtain ⟨hndp, -, hdisj⟩ := Ctx.nodup_plug hnd
  rw [inorder_node, List.nodup_append'] at hndp
  refine ⟨hlinks.congr fun x hx ↦ ?_, hl.reparent hndp.1, hnd.sublist ?_⟩
  · -- the one cell that is written is the root of `l`
    refine AVLHeap.setParent?_of_ne fun heq ↦ hdisj x ?_ hx
    rw [inorder_node]
    exact List.mem_append_left _ (root_mem_inorder heq)
  · rw [Ctx.inorder_plug, Ctx.inorder_plug, inorder_node]
    exact ((List.sublist_append_left _ _).append_left _).append_right _

private theorem avlDel_leaf {h : AVLHeap} {c : Ctx Ptr} {p : Ptr} {l : BinaryTree Ptr}
    (hT : Rep h none (c.plug (node p l nil))) (hnd : (c.plug (node p l nil)).inorder.Nodup) :
    ∃ h' T, avlDel h p = some (h', T.root) ∧ Rep h' none T ∧
      T.inorder = c.before ++ l.inorder ++ c.after ∧
      ((c.plug (node p l nil)).Balanced → T.Balanced) ∧
      ∀ x ∉ (c.plug (node p l nil)).inorder, h' x = h x := by
  obtain ⟨-, hp, -, -⟩ := Rep.of_plug hT
  obtain ⟨-, -, hdisj⟩ := Ctx.nodup_plug hnd
  obtain ⟨hlinks', hrepl, hndl⟩ := avlDel_reparent hT hnd
  -- the one cell that the first assignment writes is the root of `l`
  have hnotl : ∀ x, x ∉ l.inorder → h.setParent? c.parent l.root x = h x := fun x hx ↦
    AVLHeap.setParent?_of_ne fun heq ↦ hx (root_mem_inorder heq)
  have hframe : ∀ x ∉ (c.plug (node p l nil)).inorder, x ∉ (c.plug l).inorder := fun x hx hxl ↦
    hx (Ctx.mem_plug.mpr ((Ctx.mem_plug.mp hxl).imp_left fun hm ↦ by simp [hm]))
  have hnl : ∀ x ∉ (c.plug (node p l nil)).inorder, x ∉ l.inorder := fun x hx hxl ↦
    hx (Ctx.mem_plug.mpr (Or.inl (by simp [hxl])))
  rcases hpar : c.parent with _ | x
  · -- the node is the root, and `l` is what is left
    obtain rfl := Ctx.eq_top_of_parent hpar
    refine ⟨_, l, ?_, hrepl, by simp [Ctx.before, Ctx.after], fun hbal ↦ hbal.2.2.1,
      fun y hy ↦ hnotl y (hnl y hy)⟩
    rw [avlDel]
    simp only [hp, root_nil, Ctx.parent_top, AVLHeap.setParent?_left]
  · -- `l` hangs below the parent, where the repair starts
    have hxe : x ∈ c.elems := ctx_parent_mem hpar
    have hslot := hlinks'.ctxSlot_eq (fun hpe ↦ hdisj p (by simp) hpe) hpar
    obtain ⟨h', q, hfix, hrep, hroot, hout⟩ :=
      avlFix_hole hlinks' hslot hpar (hpar ▸ hrepl) hndl
    refine ⟨h', fixUp c l, ?_, hrep, by rw [inorder_fixUp, Ctx.inorder_plug], fun hbal ↦ ?_,
      fun y hy ↦ (hout y (hframe y hy)).trans (hnotl y (hnl y hy))⟩
    · rw [avlDel]
      rw [hpar] at hfix
      simp only [hp, root_nil, hpar, AVLHeap.setParent?_left, hfix, Option.map_some, hroot]
    · have hnode := Balanced.of_plug hbal
      exact balanced_fixUp hbal hnode.2.2.1 (by rw [height]; omega) (by simp [height])

/-- The victim takes over the cell of `p` and the pointers that lead to it, wherever `p` is. -/
private theorem avlTakeOver_spec {h : AVLHeap} {c : Ctx Ptr} {p v : Ptr} {l r : BinaryTree Ptr}
    (hT : Rep h none (c.plug (node p l r))) (hnd : (c.plug (node p l r)).inorder.Nodup)
    (hv : v ∉ (c.plug (node p l r)).inorder) :
    ∃ h', avlTakeOver h v p (c.plug (node p l r)).root = (h', (c.plug (node v l r)).root) ∧
      Rep h' none (c.plug (node v l r)) ∧
      ∀ x, x ≠ v → x ∉ (c.plug (node p l r)).inorder → h' x = h x := by
  obtain ⟨hlinks, hp, hl, hr⟩ := Rep.of_plug hT
  obtain ⟨hndp, hnde, hdisj⟩ := Ctx.nodup_plug hnd
  rw [Ctx.mem_plug, inorder_node, List.mem_append, List.mem_cons, not_or, not_or, not_or] at hv
  obtain ⟨⟨hvl, hvp, hvr⟩, hve⟩ := hv
  rw [inorder_node, List.nodup_append', List.nodup_cons, List.disjoint_cons_right] at hndp
  obtain ⟨hndl, ⟨hpr, hndr⟩, hpl, hlr⟩ := hndp
  have hel : ∀ x ∈ c.elems, x ∉ l.inorder ∧ x ∉ r.inorder := fun x hx ↦
    ⟨fun hxl ↦ hdisj x (by simp [hxl]) hx, fun hxr ↦ hdisj x (by simp [hxr]) hx⟩
  -- the victim gets the cell, then the children get the victim as parent
  set h₂ := h.set v (h p) with hh₂
  set h₃ := h₂.setParent? (some v) l.root with hh₃
  set h₄ := h₃.setParent? (some v) r.root with hh₄
  have h₃x : ∀ x, x ∉ l.inorder → h₃ x = h₂ x := fun x hx ↦
    AVLHeap.setParent?_of_ne fun heq ↦ hx (root_mem_inorder heq)
  have h₄x : ∀ x, x ∉ r.inorder → h₄ x = h₃ x := fun x hx ↦
    AVLHeap.setParent?_of_ne fun heq ↦ hx (root_mem_inorder heq)
  have h₂x : ∀ x, x ≠ v → h₂ x = h x := fun x hx ↦ AVLHeap.set_of_ne hx
  have h₄keep : ∀ x, x ≠ v → x ∉ l.inorder → x ∉ r.inorder → h₄ x = h x := fun x hxv hxl hxr ↦ by
    rw [h₄x x hxr, h₃x x hxl, h₂x x hxv]
  have h₂v : h₂ v = h p := AVLHeap.set_self
  have h₄v : h₄ v = h p := by rw [h₄x v hvr, h₃x v hvl, h₂v]
  have h₄p : h₄ p = h p := h₄keep p (Ne.symm hvp) hpl hpr
  have hrepl : Rep h₄ (some v) l :=
    ((hl.congr fun x hx ↦ h₂x x fun heq ↦ hvl (heq ▸ hx)).reparent hndl).congr
      fun x hx ↦ h₄x x (hlr hx)
  have hrepr : Rep h₄ (some v) r := by
    refine Rep.reparent (hr.congr fun x hx ↦ ?_) hndr
    rw [h₃x x fun hxl ↦ hlr hxl hx, h₂x x fun heq ↦ hvr (heq ▸ hx)]
  have hnode : Rep h₄ c.parent (node v l r) := ⟨h₄v.trans hp, hrepl, hrepr⟩
  have helems : ∀ x ∈ c.elems, h₄ x = h x := fun x hx ↦
    h₄keep x (fun heq ↦ hve (heq ▸ hx)) (hel x hx).1 (hel x hx).2
  have hcode : avlTakeOver h v p (c.plug (node p l r)).root
      = (storeHole h₄ (some v) c, (c.plug (node v l r)).root) := by
    have hleft : (h₂ v).left = l.root := by rw [h₂v, hp]
    have hright : (h₃ v).right = r.root := by rw [h₃x v hvl, h₂v, hp]
    have hparent : (h₄ p).parent = c.parent := by rw [h₄p, hp]
    unfold avlTakeOver
    dsimp only
    rw [← hh₂, hleft, ← hh₃, hright, ← hh₄, hparent]
    rcases hpar : c.parent with _ | x
    · obtain rfl := Ctx.eq_top_of_parent hpar
      rfl
    · have hslot := (hlinks.congr helems).ctxSlot_eq (hdisj p (by simp)) hpar
      have hne : c.parent ≠ none := by rw [hpar]; simp
      rw [Ctx.root_plug_congr (u := node v l r) (Or.inr hne), storeHole, hslot]
  refine ⟨_, hcode, Rep.plug_replace hT ?_ rfl rfl hnde fun x hx ↦ storeHole_congr (helems x hx),
    fun x hxv hx ↦ ?_⟩
  · refine hnode.congr fun x hx ↦ storeHole_of_ne fun hpar ↦ ?_
    have hxe := ctx_parent_mem hpar
    rw [inorder_node, List.mem_append, List.mem_cons] at hx
    rcases hx with hx | rfl | hx
    · exact (hel x hxe).1 hx
    · exact hve hxe
    · exact (hel x hxe).2 hx
  · rw [Ctx.mem_plug, inorder_node, List.mem_append, List.mem_cons, not_or, not_or, not_or] at hx
    rw [storeHole_of_ne fun hpar ↦ hx.2 (ctx_parent_mem hpar), h₄keep x hxv hx.1.1 hx.1.2.2]

/-- **`avl_del`.** The node leaves the in-order sequence, nothing else moves in it, balance is kept
and no cell outside the tree is written. By induction on the size of the right subtree: the
successor of a node has a smaller right subtree than the node itself. -/
theorem avlDel_spec {c : Ctx Ptr} {p : Ptr} {l r : BinaryTree Ptr} {h : AVLHeap}
    (hT : Rep h none (c.plug (node p l r))) (hnd : (c.plug (node p l r)).inorder.Nodup) :
    ∃ h' T, avlDel h p = some (h', T.root) ∧ Rep h' none T ∧
      T.inorder = c.before ++ (l.inorder ++ r.inorder) ++ c.after ∧
      ((c.plug (node p l r)).Balanced → T.Balanced) ∧
      ∀ x ∉ (c.plug (node p l r)).inorder, h' x = h x := by
  induction hn : r.numNodes using Nat.strong_induction_on generalizing c p l r h with
  | _ n ih =>
    rcases r with _ | ⟨y, a, b⟩
    · simpa using avlDel_leaf hT hnd
    obtain ⟨-, hp, -, hr⟩ := Rep.of_plug hT
    obtain ⟨c', v, rv, hleft, hplug, hbef, hlt⟩ := avlLeftmost_spec (c := .right c p l) hr
    rw [Ctx.plug_right] at hplug
    rw [hplug] at hT hnd
    rw [hplug]
    obtain ⟨h₁, T₁, hdel, hrep₁, hin₁, hbal₁, hout₁⟩ :=
      ih rv.numNodes (hn ▸ hlt) (l := nil) hT hnd rfl
    have hwhole : (c'.plug (node v nil rv)).inorder
        = c'.before ++ v :: (rv.inorder ++ c'.after) := by simp [Ctx.inorder_plug]
    have hin₁' : T₁.inorder = c'.before ++ (rv.inorder ++ c'.after) := by rw [hin₁]; simp
    have hndv := hnd
    rw [hwhole, List.nodup_middle, List.nodup_cons, ← hin₁'] at hndv
    obtain ⟨hvT, hnd₁⟩ := hndv
    have hmemT : ∀ x ∈ T₁.inorder, x ∈ (c'.plug (node v nil rv)).inorder := fun x hx ↦ by
      rw [hin₁', List.mem_append] at hx
      rw [hwhole, List.mem_append, List.mem_cons]
      tauto
    have hpT : p ∈ T₁.inorder := by
      rw [hin₁', hbef]
      simp [Ctx.before]
    obtain ⟨c₂, l₂, r₂, rfl⟩ := Ctx.exists_plug hpT
    obtain ⟨h₂, htake, hrep₂, hout₂⟩ := avlTakeOver_spec hrep₁ hnd₁ hvT
    have hright : (h p).right = some y := by
      have hp' := (Rep.of_plug (c := c) (t := node p l (node y a b)) (hplug ▸ hT)).2.1
      rw [hp', root_node]
    refine ⟨h₂, c₂.plug (node v l₂ r₂), ?_, hrep₂, ?_, fun hbal ↦ ?_, fun x hx ↦ ?_⟩
    · rw [avlDel, hright]
      simp only [hleft, hdel, htake, Option.bind_eq_bind, Option.bind_some]
    · -- `p` occurs once, so the victim stands where `p` stood
      have hseq : (c₂.plug (node p l₂ r₂)).inorder
          = (c.before ++ l.inorder) ++ p :: (rv.inorder ++ c'.after) := by
        rw [hin₁', hbef]
        simp [Ctx.before]
      have hsplit : (c₂.plug (node p l₂ r₂)).inorder
          = (c₂.before ++ l₂.inorder) ++ p :: (r₂.inorder ++ c₂.after) := by
        simp [Ctx.inorder_plug]
      have hndp := hnd₁
      rw [hsplit, List.nodup_middle, List.nodup_cons, List.mem_append, not_or] at hndp
      obtain ⟨hbefore, -, hafter⟩ := (List.append_cons_inj_of_notMem hndp.1.1 hndp.1.2).mp
        (hsplit.symm.trans hseq)
      have htail : (node y a b).inorder ++ c.after = v :: (rv.inorder ++ c'.after) := by
        have hcut : (c.before ++ (l.inorder ++ [p])) ++ ((node y a b).inorder ++ c.after)
            = (c.before ++ (l.inorder ++ [p])) ++ v :: (rv.inorder ++ c'.after) := by
          have hleft' : (c.plug (node p l (node y a b))).inorder
              = (c.before ++ (l.inorder ++ [p])) ++ ((node y a b).inorder ++ c.after) := by
            simp [Ctx.inorder_plug]
          rw [← hleft', hplug, hwhole, hbef]
          rfl
        exact List.append_cancel_left hcut
      calc (c₂.plug (node v l₂ r₂)).inorder
          = (c₂.before ++ l₂.inorder) ++ v :: (r₂.inorder ++ c₂.after) := by
            simp [Ctx.inorder_plug]
        _ = (c.before ++ l.inorder) ++ v :: (rv.inorder ++ c'.after) := by
            rw [hbefore, hafter]
        _ = c.before ++ (l.inorder ++ (node y a b).inorder) ++ c.after := by
            rw [← htail]
            simp
    · have hbal₂ := hbal₁ (hplug ▸ hbal)
      have hsub : (node v l₂ r₂).Balanced := Balanced.of_plug (c := c₂) (t := node p l₂ r₂) hbal₂
      exact hbal₂.plug_congr (t := node p l₂ r₂) hsub rfl
    · have hxv : x ≠ v := by
        rintro rfl
        exact hx (by rw [hwhole]; simp)
      rw [hout₂ x hxv fun hx' ↦ hx (hmemT x hx'), hout₁ x hx]

end RedisOnC
