import RedisOnC.Avl.Basic
import RedisOnC.Lib.AvlTree

/-!
# Heaps that hold a tree

`Rep h par t` says that the heap `h` stores the tree `t` of addresses, hanging from `par`: the
cell of every node is exactly what the tree determines, parent link, depth and count included.
`Stale h par p l r` is the same for a node whose subtrees are right but whose own depth and count
may be out of date, the state in which `avl_fix` meets every node it visits. `Links h c hole` is the
corresponding statement about a context: right links, arbitrary depths and counts.

Every predicate reads the heap at its own nodes only, so a write elsewhere preserves it
(`Rep.congr`, `Links.congr`).
-/

open BinaryTree

namespace RedisOnC

/-! ## Field assignments -/

namespace AVLHeap

variable {h : AVLHeap} {p x : Ptr} {v : Option Ptr} {n : AVLNode}

@[simp] theorem set_self : h.set p n p = n := Function.update_self ..

theorem set_of_ne (hx : x ≠ p) : h.set p n x = h x := Function.update_of_ne hx ..

@[simp] theorem setLeft_self : h.setLeft p v p = { h p with left := v } := set_self

@[simp] theorem setRight_self : h.setRight p v p = { h p with right := v } := set_self

@[simp] theorem setParent_self : h.setParent p v p = { h p with parent := v } := set_self

theorem setLeft_of_ne (hx : x ≠ p) : h.setLeft p v x = h x := set_of_ne hx

theorem setRight_of_ne (hx : x ≠ p) : h.setRight p v x = h x := set_of_ne hx

theorem setParent_of_ne (hx : x ≠ p) : h.setParent p v x = h x := set_of_ne hx

theorem setParent?_of_ne {q : Option Ptr} (hx : q ≠ some x) : h.setParent? v q x = h x := by
  rcases q with _ | q
  · rfl
  · exact setParent_of_ne fun heq ↦ hx (heq ▸ rfl)

@[simp] theorem setParent?_left {q : Option Ptr} : (h.setParent? v q x).left = (h x).left := by
  rcases q with _ | q
  · rfl
  · by_cases hx : x = q
    · subst hx; simp [setParent?]
    · rw [setParent?_of_ne (by simpa using Ne.symm hx)]

end AVLHeap

theorem avlUpdate_of_ne {h : AVLHeap} {p x : Ptr} (hx : x ≠ p) : avlUpdate h p x = h x :=
  AVLHeap.set_of_ne hx

/-! ## Trees in the heap -/

/-- The heap stores the tree `t`, and its root has parent `par`. -/
def Rep (h : AVLHeap) : Option Ptr → BinaryTree Ptr → Prop
  | _, .nil => True
  | par, .node p l r =>
    h p = ⟨(node p l r).height, (node p l r).numNodes % u32Size, l.root, r.root, par⟩ ∧
      Rep h (some p) l ∧ Rep h (some p) r

theorem Rep.nil {h : AVLHeap} {par : Option Ptr} : Rep h par .nil := trivial

theorem Rep.congr {h h' : AVLHeap} {par : Option Ptr} {t : BinaryTree Ptr} (ht : Rep h par t)
    (heq : ∀ x ∈ t.inorder, h' x = h x) : Rep h' par t := by
  induction t generalizing par with
  | nil => trivial
  | node p l r ihl ihr =>
    obtain ⟨hp, hl, hr⟩ := ht
    exact ⟨by rw [heq p (by simp), hp], ihl hl fun x hx ↦ heq x (by simp [hx]),
      ihr hr fun x hx ↦ heq x (by simp [hx])⟩

theorem Rep.avlDepth_root {h : AVLHeap} {par : Option Ptr} {t : BinaryTree Ptr}
    (ht : Rep h par t) : avlDepth h t.root = t.height := by
  rcases t with _ | ⟨p, l, r⟩
  · rfl
  · rw [root_node, avlDepth, ht.1]

theorem Rep.avlCnt_root {h : AVLHeap} {par : Option Ptr} {t : BinaryTree Ptr}
    (ht : Rep h par t) : avlCnt h t.root = t.numNodes % u32Size := by
  rcases t with _ | ⟨p, l, r⟩
  · rfl
  · rw [root_node, avlCnt, ht.1]

/-- Writing the parent link of the root moves the whole tree below another node. -/
theorem Rep.reparent {h : AVLHeap} {par par' : Option Ptr} {t : BinaryTree Ptr}
    (ht : Rep h par t) (hnd : t.inorder.Nodup) : Rep (h.setParent? par' t.root) par' t := by
  rcases t with _ | ⟨p, l, r⟩
  · trivial
  · obtain ⟨hp, hl, hr⟩ := ht
    rw [inorder_node, List.nodup_middle, List.nodup_cons, List.mem_append, not_or] at hnd
    have hout : ∀ x, x ≠ p → h.setParent? par' (node p l r).root x = h x := fun x hx ↦
      AVLHeap.setParent?_of_ne fun heq ↦ hx (Option.some_inj.mp heq).symm
    refine ⟨?_, hl.congr fun x hx ↦ hout x ?_, hr.congr fun x hx ↦ hout x ?_⟩
    · rw [root_node, AVLHeap.setParent?, AVLHeap.setParent_self, hp]
    · exact fun heq ↦ hnd.1.1 (heq ▸ hx)
    · exact fun heq ↦ hnd.1.2 (heq ▸ hx)

/-- A node with right links above right subtrees, whose own depth and count are arbitrary. -/
structure Stale (h : AVLHeap) (par : Option Ptr) (p : Ptr) (l r : BinaryTree Ptr) : Prop where
  left : (h p).left = l.root
  right : (h p).right = r.root
  parent : (h p).parent = par
  repLeft : Rep h (some p) l
  repRight : Rep h (some p) r

namespace Stale

variable {h h' : AVLHeap} {par : Option Ptr} {p : Ptr} {l r : BinaryTree Ptr}

theorem congr (hs : Stale h par p l r) (hp : h' p = h p) (hl : ∀ x ∈ l.inorder, h' x = h x)
    (hr : ∀ x ∈ r.inorder, h' x = h x) : Stale h' par p l r :=
  ⟨hp ▸ hs.left, hp ▸ hs.right, hp ▸ hs.parent, hs.repLeft.congr hl, hs.repRight.congr hr⟩

theorem of_rep (ht : Rep h par (node p l r)) : Stale h par p l r :=
  ⟨by rw [ht.1], by rw [ht.1], by rw [ht.1], ht.2.1, ht.2.2⟩

theorem avlUpdate (hs : Stale h par p l r) (hl : p ∉ l.inorder) (hr : p ∉ r.inorder) :
    Rep (avlUpdate h p) par (node p l r) := by
  have hout : ∀ x, x ≠ p → RedisOnC.avlUpdate h p x = h x := fun x hx ↦ avlUpdate_of_ne hx
  refine ⟨?_, hs.repLeft.congr fun x hx ↦ hout x fun heq ↦ hl (heq ▸ hx),
    hs.repRight.congr fun x hx ↦ hout x fun heq ↦ hr (heq ▸ hx)⟩
  have hcnt : (1 + l.numNodes % u32Size + r.numNodes % u32Size) % u32Size
      = (l.numNodes + r.numNodes + 1) % u32Size := by
    simp only [u32Size]
    omega
  rw [RedisOnC.avlUpdate, AVLHeap.set_self, hs.left, hs.right, hs.repLeft.avlDepth_root,
    hs.repRight.avlDepth_root, hs.repLeft.avlCnt_root, hs.repRight.avlCnt_root, hcnt,
    height, numNodes, Nat.add_comm 1 (max _ _)]
  simp only [hs.left, hs.right, hs.parent]

end Stale

/-! ## Rotations -/

theorem rotLeft_spec {h : AVLHeap} {par : Option Ptr} {p q : Ptr} {a b c : BinaryTree Ptr}
    (hs : Stale h par p a (node q b c))
    (hnd : (node p a (node q b c)).inorder.Nodup) :
    ∃ h', rotLeft h p = some (h', q) ∧ Rep h' par (node q (node p a b) c) ∧
      ∀ x ∉ (node p a (node q b c)).inorder, h' x = h x := by
  obtain ⟨hq, hb, hc⟩ := hs.repRight
  simp only [inorder_node, List.nodup_append', List.nodup_cons, List.mem_append, List.mem_cons,
    not_or, List.disjoint_cons_right, List.disjoint_append_right] at hnd
  obtain ⟨hda, ⟨⟨hpb, hpq, hpc⟩, hdb, ⟨hqc, hdc⟩, hqb, hbc⟩, hpa, hab, hqa, hac⟩ := hnd
  set h₁ := h.setParent? (some p) b.root with hh₁
  set h₂ := (((h₁.setRight p b.root).setLeft q (some p)).setParent q par).setParent p (some q)
    with hh₂
  have h₁x : ∀ x, x ∉ b.inorder → h₁ x = h x := fun x hx ↦
    AVLHeap.setParent?_of_ne fun heq ↦ hx (root_mem_inorder heq)
  have hpar : (((h₁.setRight p b.root).setLeft q (some p)) p).parent = par := by
    rw [AVLHeap.setLeft_of_ne hpq, AVLHeap.setRight_self, h₁x p hpb]
    exact hs.parent
  have hrot : rotLeft h p = some (avlUpdate (avlUpdate h₂ p) q, q) := by
    simp only [rotLeft, hs.right, root_node, hq, AVLHeap.setParent?_left, ← hh₁, hpar, hh₂,
      Option.bind_eq_bind, Option.bind_some]
  have h₂p : h₂ p = { h p with right := b.root, parent := some q } := by
    rw [hh₂, AVLHeap.setParent_self, AVLHeap.setParent_of_ne hpq, AVLHeap.setLeft_of_ne hpq,
      AVLHeap.setRight_self, h₁x p hpb]
  have h₂q : h₂ q = { h q with left := some p, parent := par } := by
    rw [hh₂, AVLHeap.setParent_of_ne (Ne.symm hpq), AVLHeap.setParent_self,
      AVLHeap.setLeft_self, AVLHeap.setRight_of_ne (Ne.symm hpq), h₁x q hqb]
  have h₂x : ∀ x, x ≠ p → x ≠ q → h₂ x = h₁ x := fun x hxp hxq ↦ by
    rw [hh₂, AVLHeap.setParent_of_ne hxp, AVLHeap.setParent_of_ne hxq,
      AVLHeap.setLeft_of_ne hxq, AVLHeap.setRight_of_ne hxp]
  have hrepa : Rep h₂ (some p) a := hs.repLeft.congr fun x hx ↦ by
    rw [h₂x x (fun heq ↦ hpa (heq ▸ hx)) (fun heq ↦ hqa (heq ▸ hx)), h₁x x (hab hx)]
  have hrepb : Rep h₂ (some p) b := (hb.reparent hdb).congr fun x hx ↦
    h₂x x (fun heq ↦ hpb (heq ▸ hx)) (fun heq ↦ hqb (heq ▸ hx))
  have hrepc : Rep h₂ (some q) c := hc.congr fun x hx ↦ by
    rw [h₂x x (fun heq ↦ hpc (heq ▸ hx)) (fun heq ↦ hqc (heq ▸ hx)),
      h₁x x fun hxb ↦ hbc hxb hx]
  have hlow : Rep (avlUpdate h₂ p) (some q) (node p a b) :=
    Stale.avlUpdate ⟨by rw [h₂p, ← hs.left], by rw [h₂p], by rw [h₂p], hrepa, hrepb⟩ hpa hpb
  have hq₃ : avlUpdate h₂ p q = h₂ q := avlUpdate_of_ne (Ne.symm hpq)
  have hhigh : Rep (avlUpdate (avlUpdate h₂ p) q) par (node q (node p a b) c) := by
    refine Stale.avlUpdate ⟨?_, ?_, ?_, hlow, hrepc.congr fun x hx ↦ ?_⟩ ?_ hqc
    · rw [hq₃, h₂q, root_node]
    · rw [hq₃, h₂q, hq]
    · rw [hq₃, h₂q]
    · exact avlUpdate_of_ne fun heq ↦ hpc (heq ▸ hx)
    · simp only [inorder_node, List.mem_append, List.mem_cons, not_or]
      exact ⟨hqa, Ne.symm hpq, hqb⟩
  refine ⟨_, hrot, hhigh, fun x hx ↦ ?_⟩
  simp only [inorder_node, List.mem_append, List.mem_cons, not_or] at hx
  obtain ⟨-, hxp, hxb, hxq, -⟩ := hx
  rw [avlUpdate_of_ne hxq, avlUpdate_of_ne hxp, h₂x x hxp hxq, h₁x x hxb]

/-! ### The mirror image of a heap

`rot_right` is `rot_left` with left and right exchanged, so every fact about one side carries over
to the other through the heap whose cells have their children swapped. -/

/-- Swap the two child pointers of every cell. -/
def AVLHeap.mirror (h : AVLHeap) : AVLHeap := fun p ↦
  { h p with left := (h p).right, right := (h p).left }

namespace AVLHeap

variable {h : AVLHeap} {p : Ptr} {v : Option Ptr}

@[simp] theorem mirror_mirror : h.mirror.mirror = h := rfl

@[simp] theorem mirror_left : (h.mirror p).left = (h p).right := rfl

@[simp] theorem mirror_right : (h.mirror p).right = (h p).left := rfl

@[simp] theorem mirror_parent : (h.mirror p).parent = (h p).parent := rfl

theorem mirror_set {n : AVLNode} :
    (h.set p n).mirror = h.mirror.set p { n with left := n.right, right := n.left } := by
  funext x
  by_cases hx : x = p
  · subst hx
    rw [mirror, set_self, set_self]
  · rw [mirror, set_of_ne hx, set_of_ne hx, mirror]

theorem mirror_setLeft : (h.setLeft p v).mirror = h.mirror.setRight p v := mirror_set

theorem mirror_setRight : (h.setRight p v).mirror = h.mirror.setLeft p v := mirror_set

theorem mirror_setParent : (h.setParent p v).mirror = h.mirror.setParent p v := mirror_set

theorem mirror_setParent? {q : Option Ptr} :
    (h.setParent? v q).mirror = h.mirror.setParent? v q := by
  rcases q with _ | q
  · rfl
  · exact mirror_setParent

end AVLHeap

theorem avlDepth_mirror (h : AVLHeap) (p : Option Ptr) :
    avlDepth h.mirror p = avlDepth h p := by
  rcases p with _ | p <;> rfl

theorem avlCnt_mirror (h : AVLHeap) (p : Option Ptr) : avlCnt h.mirror p = avlCnt h p := by
  rcases p with _ | p <;> rfl

theorem mirror_avlUpdate (h : AVLHeap) (p : Ptr) :
    (avlUpdate h p).mirror = avlUpdate h.mirror p := by
  rw [avlUpdate, avlUpdate, AVLHeap.mirror_set]
  simp only [avlDepth_mirror, avlCnt_mirror, AVLHeap.mirror]
  rw [max_comm, Nat.add_right_comm]

theorem rotRight_eq (h : AVLHeap) (p : Ptr) :
    rotRight h p = (rotLeft h.mirror p).map fun (h', q) ↦ (h'.mirror, q) := by
  rw [rotRight, rotLeft, AVLHeap.mirror_right]
  rcases (h p).left with _ | q
  · rfl
  · simp only [Option.bind_eq_bind, Option.bind_some, Option.map_some, AVLHeap.mirror_left,
      AVLHeap.mirror_parent, ← mirror_avlUpdate, ← AVLHeap.mirror_setParent,
      ← AVLHeap.mirror_setLeft, ← AVLHeap.mirror_setRight, ← AVLHeap.mirror_setParent?,
      AVLHeap.mirror_mirror]

theorem Rep.mirror {h : AVLHeap} {par : Option Ptr} {t : BinaryTree Ptr} (ht : Rep h par t) :
    Rep h.mirror par t.mirror := by
  induction t generalizing par with
  | nil => trivial
  | node p l r ihl ihr =>
    obtain ⟨hp, hl, hr⟩ := ht
    refine ⟨?_, ihr hr, ihl hl⟩
    rw [← mirror_node, height_mirror, numNodes_mirror, AVLHeap.mirror, hp, root_mirror,
      root_mirror]

theorem Stale.mirror {h : AVLHeap} {par : Option Ptr} {p : Ptr} {l r : BinaryTree Ptr}
    (hs : Stale h par p l r) : Stale h.mirror par p r.mirror l.mirror :=
  ⟨by rw [root_mirror]; exact hs.right, by rw [root_mirror]; exact hs.left, hs.parent,
    hs.repRight.mirror, hs.repLeft.mirror⟩

theorem rotRight_spec {h : AVLHeap} {par : Option Ptr} {p q : Ptr} {a b c : BinaryTree Ptr}
    (hs : Stale h par p (node q a b) c) (hnd : (node p (node q a b) c).inorder.Nodup) :
    ∃ h', rotRight h p = some (h', q) ∧ Rep h' par (node q a (node p b c)) ∧
      ∀ x ∉ (node p (node q a b) c).inorder, h' x = h x := by
  have hmir : (node p c.mirror (node q b.mirror a.mirror)).inorder
      = (node p (node q a b) c).inorder.reverse := inorder_mirror (node p (node q a b) c)
  obtain ⟨h', hrot, hrep, hout⟩ := rotLeft_spec hs.mirror
    (by rw [hmir]; exact List.nodup_reverse.mpr hnd)
  refine ⟨h'.mirror, by rw [rotRight_eq, hrot, Option.map_some], ?_, fun x hx ↦ ?_⟩
  · simpa only [mirror_node, mirror_mirror] using hrep.mirror
  · have hxh : h' x = h.mirror x :=
      hout x (by rw [hmir, List.mem_reverse]; exact hx)
    rw [AVLHeap.mirror, hxh]
    rfl

end RedisOnC
