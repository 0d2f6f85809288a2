import RedisOnC.Avl.Del

/-!
# Well-formed trees

`AvlTree h t`: the heap stores the balanced tree `t`, with every parent link, depth and count exact.
`avl_del` returns such a tree without the node. `avl_fix` after an insertion returns such a tree
with the node, as long as the counts fit: a tree of `2^32` nodes has the count zero at its root.
-/

open BinaryTree

namespace RedisOnC

variable {h h' : AVLHeap} {par : Option Ptr} {t : BinaryTree Ptr} {p q : Ptr}

/-- The cell of every node is what the tree determines, with the count as a number of its own. -/
def Exact (h : AVLHeap) : Option Ptr → BinaryTree Ptr → Prop
  | _, .nil => True
  | par, .node p l r =>
    h p = ⟨(node p l r).height, (node p l r).numNodes, l.root, r.root, par⟩ ∧
      Exact h (some p) l ∧ Exact h (some p) r

/-- A well-formed tree. Its size fits a `uint32_t` because the count of its root does. -/
structure AvlTree (h : AVLHeap) (t : BinaryTree Ptr) : Prop where
  exact : Exact h none t
  fits : t.numNodes < u32Size
  balanced : t.Balanced
  nodup : t.inorder.Nodup

theorem exact_iff_rep (hlt : t.numNodes < u32Size) : Exact h par t ↔ Rep h par t := by
  induction t generalizing par with
  | nil => exact Iff.rfl
  | node p l r ihl ihr =>
    have hmod := Nat.mod_eq_of_lt hlt
    rw [numNodes] at hlt
    rw [Exact, Rep, hmod, ihl (by omega), ihr (by omega)]

theorem Exact.avlCnt_root (ht : Exact h par t) : avlCnt h t.root = t.numNodes := by
  rcases t with _ | ⟨p, l, r⟩
  · rfl
  · rw [root_node, avlCnt, ht.1]

theorem AvlTree.rep (ht : AvlTree h t) : Rep h none t := (exact_iff_rep ht.fits).mp ht.exact

/-! ## Storing a tree -/

/-- Write the cells of `t` below `par`. -/
def storeTree (h : AVLHeap) : Option Ptr → BinaryTree Ptr → AVLHeap
  | _, .nil => h
  | par, .node p l r =>
    let h := storeTree h (some p) l
    let h := storeTree h (some p) r
    h.set p ⟨(node p l r).height, (node p l r).numNodes, l.root, r.root, par⟩

theorem storeTree_of_notMem (hx : q ∉ t.inorder) : storeTree h par t q = h q := by
  induction t generalizing h par with
  | nil => rfl
  | node p l r ihl ihr =>
    rw [inorder_node, List.mem_append, List.mem_cons, not_or, not_or] at hx
    rw [storeTree, AVLHeap.set_of_ne hx.2.1, ihr hx.2.2, ihl hx.1]

theorem Exact.congr (ht : Exact h par t) (heq : ∀ x ∈ t.inorder, h' x = h x) :
    Exact h' par t := by
  induction t generalizing par with
  | nil => trivial
  | node p l r ihl ihr =>
    obtain ⟨hp, hl, hr⟩ := ht
    exact ⟨by rw [heq p (by simp), hp], ihl hl fun x hx ↦ heq x (by simp [hx]),
      ihr hr fun x hx ↦ heq x (by simp [hx])⟩

theorem exact_storeTree (hnd : t.inorder.Nodup) : Exact (storeTree h par t) par t := by
  induction t generalizing h par with
  | nil => trivial
  | node p l r ihl ihr =>
    rw [inorder_node, List.nodup_middle, List.nodup_cons, List.mem_append, not_or,
      List.nodup_append'] at hnd
    obtain ⟨⟨hpl, hpr⟩, hndl, hndr, hdisj⟩ := hnd
    have hl : Exact (storeTree h (some p) l) (some p) l := ihl hndl
    have hr : Exact (storeTree (storeTree h (some p) l) (some p) r) (some p) r := ihr hndr
    refine ⟨AVLHeap.set_self, ?_, ?_⟩
    · apply hl.congr
      intro x hx
      have hxp : x ≠ p := fun heq ↦ hpl (heq ▸ hx)
      rw [storeTree, AVLHeap.set_of_ne hxp, storeTree_of_notMem fun hxr ↦ hdisj hx hxr]
    · apply hr.congr
      intro x hx
      have hxp : x ≠ p := fun heq ↦ hpr (heq ▸ hx)
      exact AVLHeap.set_of_ne hxp

theorem avlTree_storeTree (hnd : t.inorder.Nodup) (hlt : t.numNodes < u32Size)
    (hbal : t.Balanced) : AvlTree (storeTree h none t) t :=
  ⟨exact_storeTree hnd, hlt, hbal, hnd⟩

/-! ## Deletion -/

/-- **`avl_del`** removes the node from the in-order sequence and restores the tree. No cell outside
the tree is written. -/
theorem avlDel_wellFormed (ht : AvlTree h t) (hp : p ∈ t.inorder) :
    ∃ h' T, avlDel h p = some (h', T.root) ∧ AvlTree h' T ∧ T.inorder = t.inorder.erase p ∧
      ∀ x ∉ t.inorder, h' x = h x := by
  obtain ⟨c, l, r, rfl⟩ := Ctx.exists_plug hp
  obtain ⟨h', T, hdel, hrep, hin, hbal, hout⟩ := avlDel_spec ht.rep ht.nodup
  have hsplit : (c.plug (node p l r)).inorder
      = (c.before ++ l.inorder) ++ p :: (r.inorder ++ c.after) := by
    simp [Ctx.inorder_plug]
  have hnd := ht.nodup
  rw [hsplit, List.nodup_middle, List.nodup_cons, List.mem_append, not_or] at hnd
  have herase : T.inorder = (c.plug (node p l r)).inorder.erase p := by
    rw [hsplit, List.erase_append_right _ hnd.1.1, List.erase_cons_head, hin]
    simp
  have hlen : T.numNodes ≤ (c.plug (node p l r)).numNodes := by
    rw [← length_inorder, ← length_inorder, herase]
    exact List.length_erase_le
  have hfits : T.numNodes < u32Size := hlen.trans_lt ht.fits
  refine ⟨h', T, hdel, ⟨(exact_iff_rep hfits).mpr hrep, hfits, hbal ht.balanced, ?_⟩, herase, hout⟩
  rw [herase]
  exact ht.nodup.erase p

/-- The root of a tree of three nodes. -/
private def three : BinaryTree Ptr := node 2 (node 1 nil nil) (node 3 nil nil)

private theorem avlTree_three : AvlTree (storeTree (fun _ ↦ {}) none three) three :=
  avlTree_storeTree (by decide) (by decide) (by simp [three, balanced_node])

theorem avlDel_wellFormed_three : ∃ h' T,
    avlDel (storeTree (fun _ ↦ {}) none three) 2 = some (h', T.root) ∧ AvlTree h' T ∧
      T.inorder = three.inorder.erase 2 ∧
      ∀ x ∉ three.inorder, h' x = storeTree (fun _ ↦ {}) none three x :=
  avlDel_wellFormed avlTree_three (by decide)

/-! ## Insertion -/

/-- The fresh node `p` has been written into the empty slot that the context leads to. -/
structure Attached (h₀ h : AVLHeap) (c : Ctx Ptr) (p : Ptr) : Prop where
  tree : AvlTree h₀ (c.plug nil)
  fresh : p ∉ (c.plug nil).inorder
  left : (h p).left = none
  right : (h p).right = none
  parent : (h p).parent = c.parent
  store : ∀ x, x ≠ p → h x = storeHole h₀ (some p) c x

theorem attached_of_avlTree {h₀ : AVLHeap} {c : Ctx Ptr} (ht : AvlTree h₀ (c.plug nil))
    (hp : p ∉ (c.plug nil).inorder) : Attached h₀
      ((storeHole h₀ (some p) c).set p { avlInit with parent := c.parent }) c p where
  tree := ht
  fresh := hp
  left := by rw [AVLHeap.set_self]; rfl
  right := by rw [AVLHeap.set_self]; rfl
  parent := by rw [AVLHeap.set_self]
  store _ hx := AVLHeap.set_of_ne hx

/-- **`avl_fix` after an insertion** returns the balanced tree with the node at the slot, every cell
as the tree determines it, the counts as the `uint32_t`s that they are stored in. -/
theorem avlFix_inserted {h₀ : AVLHeap} {c : Ctx Ptr} (ha : Attached h₀ h c p) :
    ∃ h' T q, avlFix h p = some (h', q) ∧ T.root = some q ∧ Rep h' none T ∧ T.Balanced ∧
      T.inorder = c.before ++ p :: c.after ∧ T.inorder.Nodup ∧
      ((c.plug nil).numNodes + 1 < u32Size → AvlTree h' T) ∧
      ∀ x, x ≠ p → x ∉ (c.plug nil).inorder → h' x = h₀ x := by
  obtain ⟨hnde, hlinks₀⟩ : c.elems.Nodup ∧ Links h₀ c none :=
    ⟨(Ctx.nodup_plug ha.tree.nodup).2.1, (Rep.of_plug (t := nil) ha.tree.rep).1⟩
  have helems : ∀ x ∈ c.elems, x ≠ p := fun x hx heq ↦
    ha.fresh (heq ▸ Ctx.mem_plug.mpr (Or.inr hx))
  have hlinks : Links h c (some p) :=
    (hlinks₀.storeHole hnde).congr fun x hx ↦ ha.store x (helems x hx)
  obtain ⟨h', q, hfix, hrep, hroot, hout⟩ := avlFix_attach hlinks ha.left ha.right ha.parent
    ha.tree.nodup ha.fresh
  have hin : (fixUp c (node p nil nil)).inorder = c.before ++ p :: c.after := by
    rw [inorder_fixUp, Ctx.inorder_plug]
    simp
  have hbal : (fixUp c (node p nil nil)).Balanced :=
    balanced_fixUp ha.tree.balanced (by simp [balanced_node]) (by simp) (by simp)
  have hin₀ : (c.plug nil).inorder = c.before ++ c.after := by
    rw [Ctx.inorder_plug, inorder_nil, List.append_nil]
  have hnd : (fixUp c (node p nil nil)).inorder.Nodup := by
    have hnd₀ := ha.tree.nodup
    have hfresh := ha.fresh
    rw [hin₀] at hnd₀ hfresh
    rw [hin, List.nodup_middle]
    exact List.nodup_cons.mpr ⟨hfresh, hnd₀⟩
  refine ⟨h', _, q, hfix, hroot, hrep, hbal, hin, hnd, fun hlt ↦ ?_, fun x hxp hx ↦ ?_⟩
  · have hfits : (fixUp c (node p nil nil)).numNodes < u32Size := by
      rw [← length_inorder, hin, List.length_append, List.length_cons]
      rw [← length_inorder, hin₀, List.length_append] at hlt
      omega
    exact ⟨(exact_iff_rep hfits).mpr hrep, hfits, hbal, hnd⟩
  · rw [hout x hxp hx, ha.store x hxp]
    exact storeHole_of_ne fun heq ↦ hx (Ctx.mem_plug.mpr (Or.inr (ctx_parent_mem heq)))

/-- The slot to the right of `1`, which is to the left of `3`. -/
private def zigzag : Ctx Ptr := .right (.left .top 3 nil) 1 nil

private theorem attached_zigzag : Attached (storeTree (fun _ ↦ {}) none (zigzag.plug nil))
    ((storeHole (storeTree (fun _ ↦ {}) none (zigzag.plug nil)) (some 2) zigzag).set 2
      { avlInit with parent := some 1 }) zigzag 2 :=
  attached_of_avlTree (avlTree_storeTree (by decide) (by decide)
    (by simp [zigzag, Ctx.plug, balanced_node])) (by decide)

/-- The new node is rotated twice. -/
theorem avlFix_inserted_zigzag : ¬ (zigzag.plug (node 2 nil nil)).Balanced ∧ ∃ h' T q,
    avlFix ((storeHole (storeTree (fun _ ↦ {}) none (zigzag.plug nil)) (some 2) zigzag).set 2
      { avlInit with parent := some 1 }) 2 = some (h', q) ∧ T.root = some q ∧ AvlTree h' T ∧
      T.inorder = [1, 2, 3] := by
  obtain ⟨h', T, q, hfix, hroot, -, -, hin, -, htree, -⟩ := avlFix_inserted attached_zigzag
  refine ⟨?_, h', T, q, hfix, hroot, htree (by decide), hin⟩
  simp [zigzag, Ctx.plug, balanced_node]

/-! ### A tree that `cnt` cannot count

The perfect tree of height 32 has `2 ^ 32 - 1` nodes, the largest count that a `uint32_t` holds.
With one more node the count at the root wraps to zero. -/

/-- The perfect tree of height `n`, its nodes numbered from `k` in order. -/
def perfect : ℕ → Ptr → BinaryTree Ptr
  | 0, _ => nil
  | n + 1, k => node (k + (2 ^ n - 1)) (perfect n k) (perfect n (k + 2 ^ n))

theorem inorder_perfect (n k : ℕ) : (perfect n k).inorder = List.range' k (2 ^ n - 1) := by
  induction n generalizing k with
  | zero => rfl
  | succ n ih =>
    have hpos : 0 < 2 ^ n := Nat.two_pow_pos n
    have hsplit : 2 ^ (n + 1) - 1 = (2 ^ n - 1) + ((2 ^ n - 1) + 1) := by omega
    have hright : k + (2 ^ n - 1) + 1 = k + 2 ^ n := by omega
    rw [perfect, inorder_node, ih, ih, hsplit, ← List.range'_append_1, List.range'_succ, hright]

theorem numNodes_perfect (n k : ℕ) : (perfect n k).numNodes = 2 ^ n - 1 := by
  rw [← length_inorder, inorder_perfect, List.length_range']

theorem height_perfect (n k : ℕ) : (perfect n k).height = n := by
  induction n generalizing k with
  | zero => rfl
  | succ n ih => rw [perfect, height, ih, ih, max_self]

theorem balanced_perfect (n k : ℕ) : (perfect n k).Balanced := by
  induction n generalizing k with
  | zero => trivial
  | succ n ih =>
    have hh : ∀ j, (perfect n j).height = n := height_perfect n
    exact ⟨by rw [hh, hh]; exact Nat.le_succ n, by rw [hh, hh]; exact Nat.le_succ n, ih _, ih _⟩

/-- The empty slot at the left end of a tree. -/
def leftEnd : Ctx Ptr → BinaryTree Ptr → Ctx Ptr
  | c, .nil => c
  | c, .node x l r => leftEnd (.left c x r) l

theorem plug_leftEnd (c : Ctx Ptr) (t : BinaryTree Ptr) : (leftEnd c t).plug nil = c.plug t := by
  induction t generalizing c with
  | nil => rfl
  | node x l r ihl _ => exact ihl _

theorem not_avlFix_inserted_exact : ¬ ∀ (h₀ h : AVLHeap) (c : Ctx Ptr) (p : Ptr),
    Attached h₀ h c p → ∃ h' T q, avlFix h p = some (h', q) ∧ T.root = some q ∧
      Exact h' none T ∧ T.Balanced ∧ T.inorder = c.before ++ p :: c.after := by
  intro hall
  have hplug : (leftEnd .top (perfect 32 1)).plug nil = perfect 32 1 := plug_leftEnd _ _
  have hsize : (perfect 32 1).numNodes = 2 ^ 32 - 1 := numNodes_perfect 32 1
  have hnd : (perfect 32 1).inorder.Nodup := inorder_perfect 32 1 ▸ List.nodup_range'
  have hfresh : 0 ∉ (perfect 32 1).inorder := by
    rw [inorder_perfect, List.mem_range'_1]
    omega
  have htree := avlTree_storeTree (h := fun _ ↦ {}) hnd (hsize ▸ by decide)
    (balanced_perfect 32 1)
  have ha := attached_of_avlTree (p := 0) (hplug.symm ▸ htree) (hplug.symm ▸ hfresh)
  -- both trees have `2 ^ 32` nodes, and the root is the same cell
  have hlen : ∀ T : BinaryTree Ptr, T.inorder = (leftEnd .top (perfect 32 1)).before ++
      0 :: (leftEnd .top (perfect 32 1)).after → T.numNodes = 2 ^ 32 := by
    intro T hin
    have hold : (leftEnd .top (perfect 32 1)).before.length +
        (leftEnd .top (perfect 32 1)).after.length = 2 ^ 32 - 1 := by
      rw [← hsize, ← hplug, Ctx.numNodes_plug, numNodes, Nat.add_zero, hplug]
    rw [← length_inorder, hin, List.length_append, List.length_cons]
    omega
  obtain ⟨h', T, q, hfix, hroot, hrep, -, hin, -⟩ := avlFix_inserted ha
  obtain ⟨h'', T', q', hfix', hroot', hexact, -, hin'⟩ := hall _ _ _ _ ha
  rw [hfix] at hfix'
  obtain ⟨rfl, rfl⟩ := Prod.ext_iff.mp (Option.some_inj.mp hfix')
  have hwrap : avlCnt h' (some q) = 2 ^ 32 % u32Size := by
    rw [← hroot, hrep.avlCnt_root, hlen T hin]
  have hcnt : avlCnt h' (some q) = 2 ^ 32 := by
    rw [← hlen T' hin', ← hexact.avlCnt_root, hroot']
  rw [hcnt] at hwrap
  exact absurd hwrap (by decide)

end RedisOnC
