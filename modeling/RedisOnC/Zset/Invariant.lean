import RedisOnC.Zset.Order
import RedisOnC.Avl.Del
import RedisOnC.Hashtable.Invariant
import Mathlib.Data.List.Nodup

/-!
# What a sorted set keeps

`ZSet.Inv H zset t` says that the set stores the tree `t` and that its hash map holds the same
nodes, each under the hash code of its name, with pairwise different names. Each operation keeps
it, and says what becomes of the in-order sequence. The order of that sequence is a separate
predicate (`Sorted`): the two indexes agree even where the order breaks down.

Many sets share one heap. `ZFrame` is what an operation on one of them leaves alone: every live
node outside its own tree.
-/

open BinaryTree

namespace RedisOnC

variable {S : Type} {H H' : ZHeap S} {zset zset' : ZSet} {t t' : BinaryTree Ptr} {name : Bytes}

/-! ## The invariant -/

/-- The bookkeeping of `malloc` and `free`. -/
structure ZHeap.Inv (H : ZHeap S) : Prop where
  nodup : H.live.Nodup
  lt_next : ∀ p ∈ H.live, p < H.next

theorem ZHeap.Inv.next_notMem (h : H.Inv) : H.next ∉ H.live := fun hmem ↦
  lt_irrefl _ (h.lt_next _ hmem)

/-- The set stores the tree `t`, and both indexes hold the same nodes. -/
structure ZSet.Inv (H : ZHeap S) (zset : ZSet) (t : BinaryTree Ptr) : Prop where
  tree_eq : zset.tree = t.root
  rep : Rep H.avl none t
  balanced : t.Balanced
  nodup : t.inorder.Nodup
  live : ∀ p ∈ t.inorder, p ∈ H.live
  hmap : zset.hmap.Inv
  perm : (zset.hmap.nodes.map HNode.val).Perm t.inorder
  hcode_eq : ∀ n ∈ zset.hmap.nodes, n.hcode = strHash (H.znode n.val).name
  names : (t.inorder.map fun p ↦ (H.znode p).name).Nodup

theorem ZSet.inv_empty : ZSet.Inv H {} nil :=
  ⟨rfl, Rep.nil, trivial, List.nodup_nil, fun _ hp ↦ (by cases hp), HMap.inv_empty,
    List.Perm.refl _, fun _ hn ↦ (by cases hn), List.nodup_nil⟩

theorem ZSet.Inv.congr (h : ZSet.Inv H zset t) (havl : ∀ p ∈ t.inorder, H'.avl p = H.avl p)
    (hznode : ∀ p ∈ t.inorder, H'.znode p = H.znode p) (hlive : ∀ p ∈ t.inorder, p ∈ H'.live) :
    ZSet.Inv H' zset t := by
  refine ⟨h.tree_eq, h.rep.congr havl, h.balanced, h.nodup, hlive, h.hmap, h.perm,
    fun n hn ↦ ?_, ?_⟩
  · rw [hznode n.val (h.perm.mem_iff.mp (List.mem_map_of_mem hn))]
    exact h.hcode_eq n hn
  · rw [List.map_congr_left fun p hp ↦ by rw [hznode p hp]]
    exact h.names

/-- What an operation on the set of tree `t` leaves alone, and that it accounts for every node it
allocates. -/
structure ZFrame (H : ZHeap S) (t : BinaryTree Ptr) (H' : ZHeap S) (t' : BinaryTree Ptr) :
    Prop where
  heap : H'.Inv
  avl : ∀ p ∈ H.live, p ∉ t.inorder → H'.avl p = H.avl p
  znode : ∀ p ∈ H.live, p ∉ t.inorder → H'.znode p = H.znode p
  live_perm : (H'.live ++ t.inorder).Perm (H.live ++ t'.inorder)

namespace ZFrame

theorem mem_live (h : ZFrame H t H' t') {p : Ptr} (hp : p ∈ H.live) (hpt : p ∉ t.inorder) :
    p ∈ H'.live := by
  have hmem := h.live_perm.mem_iff.mpr (List.mem_append_left _ hp)
  exact (List.mem_append.mp hmem).resolve_right hpt

/-- A node that entered the tree was not allocated before. -/
theorem notMem_live (h : ZFrame H t H' t') {p : Ptr} (hp : p ∈ t'.inorder)
    (hpt : p ∉ t.inorder) : p ∉ H.live := by
  intro hlive
  have hcount := h.live_perm.count_eq p
  rw [List.count_append, List.count_append, List.count_eq_zero.mpr hpt] at hcount
  have hle := List.nodup_iff_count_le_one.mp h.heap.nodup p
  have h1 := List.count_pos_iff.mpr hlive
  have h2 := List.count_pos_iff.mpr hp
  omega

theorem inv (h : ZFrame H t H' t') {u : BinaryTree Ptr} (hu : ZSet.Inv H zset u)
    (hdisj : ∀ p ∈ u.inorder, p ∉ t.inorder) : ZSet.Inv H' zset u :=
  hu.congr (fun p hp ↦ h.avl p (hu.live p hp) (hdisj p hp))
    (fun p hp ↦ h.znode p (hu.live p hp) (hdisj p hp))
    fun p hp ↦ h.mem_live (hu.live p hp) (hdisj p hp)

end ZFrame

/-! ## Lookups by name -/

theorem hcmp_iff {p : Ptr} : hcmp H name p = true ↔ (H.znode p).name = name := by
  rw [hcmp]
  by_cases hlen : (H.znode p).name.length = name.length
  · rw [if_neg (not_not.mpr hlen), decide_eq_true_iff, memcmp_eq_zero_iff hlen]
  · rw [if_pos hlen]
    exact ⟨fun h ↦ absurd h (by simp), fun h ↦ absurd (congrArg List.length h) hlen⟩

/-- A node of the hash map matches a name exactly if it carries the name. -/
theorem ZSet.Inv.matches_iff (h : ZSet.Inv H zset t) {n : HNode Ptr}
    (hn : n ∈ zset.hmap.nodes) :
    n.Matches (strHash name) (hcmp H name) ↔ (H.znode n.val).name = name := by
  refine ⟨fun hmatch ↦ hcmp_iff.mp hmatch.2, fun hname ↦ ⟨?_, hcmp_iff.mpr hname⟩⟩
  rw [h.hcode_eq n hn, hname]

theorem ZSet.Inv.exists_hnode (h : ZSet.Inv H zset t) {p : Ptr} (hp : p ∈ t.inorder) :
    ∃ n ∈ zset.hmap.nodes, n.val = p :=
  List.mem_map.mp (h.perm.mem_iff.mpr hp)

theorem ZSet.Inv.with_hmap (h : ZSet.Inv H zset t) {hmap : HMap Ptr} (hinv : hmap.Inv)
    (hperm : hmap.nodes.Perm zset.hmap.nodes) : ZSet.Inv H { zset with hmap := hmap } t :=
  ⟨h.tree_eq, h.rep, h.balanced, h.nodup, h.live, hinv, (hperm.map _).trans h.perm,
    fun n hn ↦ h.hcode_eq n (hperm.mem_iff.mp hn), h.names⟩

/-- **`zset_lookup`.** The node that carries the name, if there is one. -/
theorem zsetLookup_spec (h : ZSet.Inv H zset t) (name : Bytes) :
    ∃ hmap r, zsetLookup H zset name = some ({ zset with hmap := hmap }, r) ∧
      ZSet.Inv H { zset with hmap := hmap } t ∧
      match r with
      | none => ∀ p ∈ t.inorder, (H.znode p).name ≠ name
      | some p => p ∈ t.inorder ∧ (H.znode p).name = name := by
  by_cases htree : zset.tree.isNone
  · have hnil : t = nil := root_eq_none (h.tree_eq ▸ Option.isNone_iff_eq_none.mp htree)
    exact ⟨zset.hmap, none, by rw [zsetLookup, if_pos htree], h, by simp [hnil]⟩
  · obtain ⟨hmap, r, hcode, hinv, hperm, hr⟩ := hmLookup_spec h.hmap (strHash name) (hcmp H name)
    refine ⟨hmap, r.map HNode.val, ?_, h.with_hmap hinv hperm, ?_⟩
    · rw [zsetLookup, if_neg htree, hcode]
      rfl
    · rcases r with _ | n
      · intro p hp hname
        obtain ⟨n, hn, rfl⟩ := h.exists_hnode hp
        exact hr n hn ((h.matches_iff hn).mpr hname)
      · exact ⟨h.perm.mem_iff.mp (List.mem_map_of_mem hr.1), (h.matches_iff hr.1).mp hr.2⟩

/-! ## Writing the tree -/

section Order

variable [LinearOrder S]

omit [LinearOrder S] in
theorem loadFrom_ctxSlot {avl : AVLHeap} {tree : Option Ptr} {c : Ctx Ptr} {s : BinaryTree Ptr}
    (hrep : Rep avl none (c.plug s)) (htree : tree = (c.plug s).root) :
    loadFrom avl tree (ctxSlot c) = s.root := by
  rcases c with _ | ⟨up, x, r⟩ | ⟨up, x, l⟩
  · exact htree
  · exact (Rep.of_plug (c := .left up x r) hrep).1.1
  · exact (Rep.of_plug (c := .right up x l) hrep).1.1

/-- The search of `tree_add` follows `seek`. -/
private theorem treeAdd_search {avl : AVLHeap} (node : Ptr) {tree : Option Ptr} {c : Ctx Ptr}
    {s : BinaryTree Ptr} (hrep : Rep avl none (c.plug s)) (htree : tree = (c.plug s).root) :
    whileLoop (treeAddStep { H with avl := avl } tree node) (c.parent, ctxSlot c)
      = some ((seek (fun cur ↦ zlessNode H node cur) c s).parent,
          ctxSlot (seek (fun cur ↦ zlessNode H node cur) c s)) := by
  induction s generalizing c with
  | nil =>
    refine WhileLoop.of_exit ?_
    rw [treeAddStep, loadFrom_ctxSlot hrep htree, root_nil]
    rfl
  | node x l r ihl ihr =>
    have hx := loadFrom_ctxSlot hrep htree
    rw [root_node] at hx
    by_cases hgo : zlessNode H node x = true
    · have hgo' : zlessNode { H with avl := avl } node x = true := hgo
      rw [seek_of_goLeft hgo, ← ihl (c := .left c x r) hrep htree]
      refine WhileLoop.of_continue ?_
      rw [treeAddStep, hx]
      exact if_pos hgo'
    · have hgo' : ¬ zlessNode { H with avl := avl } node x = true := hgo
      rw [seek_of_not_goLeft hgo, ← ihr (c := .right c x l) hrep htree]
      refine WhileLoop.of_continue ?_
      rw [treeAddStep, hx]
      exact if_neg hgo'

/-- The node hangs where the search of `tree_add` ends, and nothing is repaired yet. -/
theorem treeAdd_attach {node : Ptr} {c : Ctx Ptr} {avl avl₁ : AVLHeap} (htree : zset.tree = t.root)
    (hrep : Rep H.avl none t) (hnd : t.inorder.Nodup) (hnode : node ∉ t.inorder)
    (hc : c = seek (fun cur ↦ zlessNode H node cur) .top t)
    (havl : avl = H.avl.set node { H.avl node with parent := none, left := none, right := none })
    (havl₁ : avl₁ = ((ctxSlot c).elim avl (avl.store (some node))).setParent node c.parent) :
    whileLoop (treeAddStep { H with avl := avl } zset.tree node) (none, none)
        = some (c.parent, ctxSlot c) ∧
      Links avl₁ c (some node) ∧
      avl₁ node = { H.avl node with parent := c.parent, left := none, right := none } ∧
      ∀ x, x ≠ node → x ∉ t.inorder → avl₁ x = H.avl x := by
  have hkeep : ∀ x, x ≠ node → avl x = H.avl x := fun x hx ↦ havl ▸ AVLHeap.set_of_ne hx
  have hself : avl node = { H.avl node with parent := none, left := none, right := none } :=
    havl ▸ AVLHeap.set_self
  have hrep' : Rep avl none t := hrep.congr fun x hx ↦ hkeep x fun heq ↦ hnode (heq ▸ hx)
  have hsearch := treeAdd_search (H := H) node (c := .top) hrep' htree
  have hplug : c.plug nil = t := hc ▸ plug_seek _ .top t
  rw [← hc] at hsearch
  have helems : ∀ x ∈ c.elems, x ∈ t.inorder := fun x hx ↦
    hplug ▸ Ctx.mem_plug.mpr (Or.inr hx)
  have hpar : c.parent ≠ some node := fun heq ↦ hnode (helems _ (ctx_parent_mem heq))
  have hhole : (ctxSlot c).elim avl (avl.store (some node)) = storeHole avl (some node) c := by
    rw [storeHole]
    cases ctxSlot c <;> rfl
  rw [hhole] at havl₁
  have hout₁ : ∀ x, x ≠ node → avl₁ x = storeHole avl (some node) c x := fun x hx ↦
    havl₁ ▸ AVLHeap.setParent_of_ne hx
  refine ⟨hsearch, ?_, ?_, fun x hx hxt ↦ ?_⟩
  · have hlinks₀ := (Rep.of_plug (c := c) (t := nil) (hplug ▸ hrep')).1
    have hnde := (Ctx.nodup_plug (t := nil) (hplug ▸ hnd)).2.1
    exact (hlinks₀.storeHole hnde).congr fun x hx ↦
      hout₁ x fun heq ↦ hnode (heq ▸ helems x hx)
  · rw [havl₁, AVLHeap.setParent_self, storeHole_of_ne hpar, hself]
  · rw [hout₁ x hx, storeHole_of_ne fun heq ↦ hxt (helems x (ctx_parent_mem heq)), hkeep x hx]

/-- **`tree_add`.** A node outside the tree is inserted where the search ends. -/
theorem treeAdd_spec {node : Ptr} (htree : zset.tree = t.root) (hrep : Rep H.avl none t)
    (hnd : t.inorder.Nodup) (hnode : node ∉ t.inorder) :
    ∃ avl, treeAdd H zset node = some ({ H with avl := avl }, { zset with
        tree := (insertAt (fun cur ↦ zlessNode H node cur) node t).root }) ∧
      Rep avl none (insertAt (fun cur ↦ zlessNode H node cur) node t) ∧
      ∀ x, x ≠ node → x ∉ t.inorder → avl x = H.avl x := by
  obtain ⟨c, hc⟩ : ∃ c, c = seek (fun cur ↦ zlessNode H node cur) .top t := ⟨_, rfl⟩
  have hplug : c.plug nil = t := hc ▸ plug_seek _ .top t
  obtain ⟨hsearch, hlinks, hself₁, hout₁⟩ := treeAdd_attach htree hrep hnd hnode hc rfl rfl
  obtain ⟨avl₂, q, hfix, hrep₂, hroot, hout⟩ := avlFix_attach hlinks (by rw [hself₁])
    (by rw [hself₁]) (by rw [hself₁]) (hplug ▸ hnd) (hplug ▸ hnode)
  refine ⟨avl₂, ?_, by rw [insertAt, ← hc]; exact hrep₂, fun x hx hxt ↦ ?_⟩
  · rw [treeAdd, insertAt, ← hc, hroot]
    simp only [Option.bind_eq_bind, hsearch, Option.bind_some, hfix]
  · rw [hout x hx (hplug ▸ hxt), hout₁ x hx hxt]

omit [LinearOrder S] in
theorem avlDel_mem {avl : AVLHeap} {p : Ptr} (hrep : Rep avl none t) (hnd : t.inorder.Nodup)
    (hp : p ∈ t.inorder) :
    ∃ avl' T, avlDel avl p = some (avl', T.root) ∧ Rep avl' none T ∧
      t.inorder.Perm (p :: T.inorder) ∧ T.inorder.Sublist t.inorder ∧ p ∉ T.inorder ∧
      (t.Balanced → T.Balanced) ∧ ∀ x ∉ t.inorder, avl' x = avl x := by
  obtain ⟨c, l, r, rfl⟩ := Ctx.exists_plug hp
  obtain ⟨avl', T, hdel, hrep', hin, hbal, hout⟩ := avlDel_spec hrep hnd
  have hsplit : (c.plug (node p l r)).inorder
      = (c.before ++ l.inorder) ++ p :: (r.inorder ++ c.after) := by simp [Ctx.inorder_plug]
  have hin' : T.inorder = (c.before ++ l.inorder) ++ (r.inorder ++ c.after) := by simp [hin]
  have hnd' := hnd
  rw [hsplit, List.nodup_middle, List.nodup_cons, ← hin'] at hnd'
  refine ⟨avl', T, hdel, hrep', ?_, ?_, hnd'.1, hbal, hout⟩
  · rw [hsplit, hin']
    exact List.perm_middle
  · rw [hsplit, hin']
    exact (List.sublist_cons_self p _).append_left _

end Order

end RedisOnC
