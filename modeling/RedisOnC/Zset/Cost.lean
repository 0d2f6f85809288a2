import RedisOnC.Zset.Refine
import RedisOnC.Avl.Cost

/-!
# What a sorted set costs

The rounds of the tree loops in the calls of a sorted set, each read off the function that it
belongs to: the search of `tree_add` and of `zset_query`, and the ways of `avl_fix` and `avl_del`.
Every one is bounded by the height of the tree, and the tree of a reachable set is balanced. So no
call needs more than logarithmically many, whatever the order in which the members came and went.
-/

namespace RedisOnC

variable {S : Type} [LinearOrder S]

/-! ## The rounds -/

/-- The rounds of the search in `zset_query`. -/
def zsetQueryRounds (H : ZHeap S) (zset : ZSet) (score : S) (name : Bytes) : Option ℕ :=
  WhileLoop.rounds (zsetQueryStep H score name) (none, zset.tree)

/-- The rounds of the search in `tree_add`, and those of `avl_fix` behind it. -/
def treeAddRounds (H : ZHeap S) (zset : ZSet) (node : Ptr) : Option ℕ := do
  let avl := H.avl.set node { H.avl node with parent := none, left := none, right := none }
  let step := treeAddStep { H with avl := avl } zset.tree node
  let n ← WhileLoop.rounds step (none, none)
  let (cur, from_) ← whileLoop step (none, none)
  let avl := from_.elim avl (avl.store (some node))
  let avl := avl.setParent node cur
  let k ← avlFixRounds avl node
  some (n + k)

/-- The rounds of `zset_update`. -/
def zsetUpdateRounds (H : ZHeap S) (zset : ZSet) (node : Ptr) (score : S) : Option ℕ :=
  if (H.znode node).score = score then some 0
  else do
    let n ← avlDelRounds H.avl node
    let (avl, tree) ← avlDel H.avl node
    let znode := Function.update H.znode node { H.znode node with score := score }
    let avl := avl.set node avlInit
    let k ← treeAddRounds { H with avl := avl, znode := znode } { zset with tree := tree } node
    some (n + k)

/-- The rounds of the tree loops in a call. -/
def ZSetCall.rounds (H : ZHeap S) (zset : ZSet) : ZSetCall S → Option ℕ
  | add name score => do
    let (zset, node) ← zsetLookup H zset name
    match node with
    | some node => zsetUpdateRounds H zset node score
    | none =>
      let (H, node) := znodeNew H name score
      treeAddRounds H zset node
  | lookup _ => some 0
  | pop name =>
    if zset.tree.isNone then some 0
    else do
      let (_, found) ← hmPop zset.hmap (strHash name) (hcmp H name)
      match found with
      | none => some 0
      | some found => avlDelRounds H.avl found.val

/-! ## The searches -/

open BinaryTree

variable {H : ZHeap S} {zset : ZSet} {t : BinaryTree Ptr} {par : Option Ptr} {p : Ptr}

theorem exists_zsetQueryRounds (hrep : Rep H.avl par t) (score : S) (name : Bytes)
    (found : Option Ptr) :
    ∃ n, WhileLoop.rounds (zsetQueryStep H score name) (found, t.root) = some n ∧
      n ≤ t.height := by
  induction t generalizing par found with
  | nil => exact ⟨0, WhileLoop.rounds_of_exit rfl, le_rfl⟩
  | node x l r ihl ihr =>
    obtain ⟨hx, hl, hr⟩ := hrep
    by_cases hless : zless (H.znode x) score name = true
    · have hstep : zsetQueryStep H score name (found, some x) = some (.inl (found, r.root)) := by
        rw [zsetQueryStep, if_pos hless, hx]
      obtain ⟨n, hn, hle⟩ := ihr hr found
      exact ⟨n + 1, WhileLoop.rounds_of_continue hstep hn,
        Nat.succ_le_succ (hle.trans (le_max_right _ _))⟩
    · have hstep : zsetQueryStep H score name (found, some x) = some (.inl (some x, l.root)) := by
        rw [zsetQueryStep, if_neg hless, hx]
      obtain ⟨n, hn, hle⟩ := ihl hl (some x)
      exact ⟨n + 1, WhileLoop.rounds_of_continue hstep hn,
        Nat.succ_le_succ (hle.trans (le_max_left _ _))⟩

private theorem exists_treeAddStep_rounds {avl : AVLHeap} {tree : Option Ptr} {c : Ctx Ptr}
    (hrep : Rep avl none (c.plug t)) (htree : tree = (c.plug t).root) (node : Ptr) :
    ∃ n, WhileLoop.rounds (treeAddStep { H with avl := avl } tree node) (c.parent, ctxSlot c)
        = some n ∧ n ≤ t.height := by
  induction t generalizing c with
  | nil =>
    refine ⟨0, WhileLoop.rounds_of_exit (r := (c.parent, ctxSlot c)) ?_, le_rfl⟩
    rw [treeAddStep, loadFrom_ctxSlot hrep htree, root_nil]
  | node x l r ihl ihr =>
    have hx := loadFrom_ctxSlot hrep htree
    rw [root_node] at hx
    by_cases hgo : zlessNode { H with avl := avl } node x = true
    · obtain ⟨n, hn, hle⟩ := ihl (c := .left c x r) hrep htree
      refine ⟨n + 1, WhileLoop.rounds_of_continue ?_ hn,
        Nat.succ_le_succ (hle.trans (le_max_left _ _))⟩
      rw [treeAddStep, hx]
      exact if_pos hgo
    · obtain ⟨n, hn, hle⟩ := ihr (c := .right c x l) hrep htree
      refine ⟨n + 1, WhileLoop.rounds_of_continue ?_ hn,
        Nat.succ_le_succ (hle.trans (le_max_right _ _))⟩
      rw [treeAddStep, hx]
      exact if_neg hgo

/-- **`tree_add`** goes down to a gap and up again. -/
theorem exists_treeAddRounds {node : Ptr} (htree : zset.tree = t.root) (hrep : Rep H.avl none t)
    (hnd : t.inorder.Nodup) (hnode : node ∉ t.inorder) :
    ∃ n, treeAddRounds H zset node = some n ∧ n ≤ 2 * t.height := by
  obtain ⟨c, hc⟩ : ∃ c, c = seek (fun cur ↦ zlessNode H node cur) .top t := ⟨_, rfl⟩
  have hplug : c.plug nil = t := hc ▸ plug_seek _ .top t
  obtain ⟨hsearch, hlinks, hself, -⟩ := treeAdd_attach htree hrep hnd hnode hc rfl rfl
  have hrep' : Rep (H.avl.set node { H.avl node with parent := none, left := none, right := none })
      none (Ctx.top.plug t) :=
    hrep.congr fun x hx ↦ AVLHeap.set_of_ne fun heq ↦ hnode (heq ▸ hx)
  obtain ⟨n, hn, hle⟩ := exists_treeAddStep_rounds (H := H) (c := .top) hrep' htree node
  have hnd' : (c.plug (.node node nil nil)).inorder.Nodup := by
    rw [← hplug, Ctx.inorder_plug, inorder_nil, List.append_nil] at hnd hnode
    rw [Ctx.inorder_plug, inorder_node, inorder_nil, List.nil_append, List.append_assoc,
      List.singleton_append, List.nodup_middle, List.nodup_cons]
    exact ⟨hnode, hnd⟩
  have hfix := avlFixRounds_eq hlinks
    ⟨by rw [hself, root_nil], by rw [hself, root_nil], by rw [hself], Rep.nil, Rep.nil⟩ hnd'
  have hdepth : c.depth ≤ t.height := hplug ▸ c.depth_add_height_le nil
  refine ⟨n + c.depth, ?_, by omega⟩
  rw [treeAddRounds]
  simp only [Option.bind_eq_bind, hsearch, Option.bind_some, hfix]
  exact Option.bind_eq_some_iff.mpr ⟨n, hn, rfl⟩

/-! ## The calls -/

omit [LinearOrder S] in
theorem ZSet.Inv.exists_avlDelRounds (h : ZSet.Inv H zset t) (hp : p ∈ t.inorder) :
    ∃ n, avlDelRounds H.avl p = some n ∧ n ≤ 2 * t.height := by
  obtain ⟨c, l, r, rfl⟩ := Ctx.exists_plug hp
  obtain ⟨n, hn, hle⟩ := RedisOnC.exists_avlDelRounds h.rep h.nodup
  have hheight := c.depth_add_height_le (.node p l r)
  rw [height] at hheight
  exact ⟨n, hn, by omega⟩

omit [LinearOrder S] in
theorem ZSet.Inv.hmSize_eq (h : ZSet.Inv H zset t) : hmSize zset.hmap = t.numNodes := by
  rw [h.hmap.hmSize_eq, ← length_inorder, ← h.perm.length_eq, List.length_map]

omit [LinearOrder S] in
theorem ZSet.Inv.height_le (h : ZSet.Inv H zset t) :
    t.height ≤ 2 * Nat.log 2 (hmSize zset.hmap + 1) + 1 :=
  h.hmSize_eq ▸ h.balanced.height_le_log

theorem ZSet.Inv.exists_zsetUpdateRounds (h : ZSet.Inv H zset t) (hp : p ∈ t.inorder) (score : S) :
    ∃ n, zsetUpdateRounds H zset p score = some n ∧
      n ≤ 8 * Nat.log 2 (hmSize zset.hmap + 1) + 4 := by
  by_cases hs : (H.znode p).score = score
  · exact ⟨0, if_pos hs, Nat.zero_le _⟩
  obtain ⟨n, hn, hle⟩ := h.exists_avlDelRounds hp
  obtain ⟨avl, T, hdel, hrep, hperm, hsub, hpT, hbal, -⟩ := avlDel_mem h.rep h.nodup hp
  have hrep' : Rep (avl.set p avlInit) none T := hrep.congr fun x hx ↦
    AVLHeap.set_of_ne fun heq ↦ hpT (heq ▸ hx)
  obtain ⟨k, hk, hle'⟩ := exists_treeAddRounds
    (H := { H with
      avl := avl.set p avlInit
      znode := Function.update H.znode p { H.znode p with score := score } })
    (show ({ zset with tree := T.root } : ZSet).tree = T.root from rfl) hrep'
    (h.nodup.sublist hsub) hpT
  have hheight := h.height_le
  have hheightT : T.height ≤ 2 * Nat.log 2 (hmSize zset.hmap + 1) + 1 := by
    have hlen := hperm.length_eq
    rw [List.length_cons, length_inorder, length_inorder] at hlen
    refine (hbal h.balanced).height_le_log.trans ?_
    rw [h.hmSize_eq, hlen]
    exact Nat.succ_le_succ (Nat.mul_le_mul_left 2 (Nat.log_mono_right (Nat.le_succ _)))
  refine ⟨n + k, ?_, by omega⟩
  rw [zsetUpdateRounds, if_neg hs, hn, hdel]
  simp only [Option.bind_eq_bind, Option.bind_some, hk]

/-- **A call** of a set with both indexes in agreement. -/
theorem ZSet.Inv.exists_rounds (hH : H.Inv) (h : ZSet.Inv H zset t) (call : ZSetCall S) :
    ∃ n, call.rounds H zset = some n ∧ n ≤ 8 * Nat.log 2 (hmSize zset.hmap + 1) + 4 := by
  have hheight := h.height_le
  cases call with
  | add name score =>
    obtain ⟨hmap, r, hlook, hinv, hr⟩ := zsetLookup_spec h name
    rw [ZSetCall.rounds, hlook]
    rcases r with _ | p
    · -- a new name: the address is new to the tree, so the tree keeps its shape
      have hnext : H.next ∉ t.inorder := fun hmem ↦ hH.next_notMem (h.live _ hmem)
      have hrep : Rep (znodeNew H name score).1.avl none t := h.rep.congr fun q hq ↦
        AVLHeap.set_of_ne fun heq ↦ hnext (heq ▸ hq)
      obtain ⟨n, hn, hle⟩ := exists_treeAddRounds hinv.tree_eq hrep h.nodup hnext
      exact ⟨n, hn, by omega⟩
    · have hsize : hmSize hmap = hmSize zset.hmap := hinv.hmSize_eq.trans h.hmSize_eq.symm
      rw [← hsize]
      exact hinv.exists_zsetUpdateRounds hr.1 score
  | lookup name => exact ⟨0, rfl, Nat.zero_le _⟩
  | pop name =>
    by_cases htree : zset.tree.isNone
    · exact ⟨0, if_pos htree, Nat.zero_le _⟩
    obtain ⟨hmap, r, hcode, -, hr⟩ := hmPop_spec h.hmap (strHash name) (hcmp H name)
    rw [ZSetCall.rounds, if_neg htree, hcode]
    rcases r with _ | found
    · exact ⟨0, rfl, Nat.zero_le _⟩
    · have hmem : found ∈ zset.hmap.nodes := hr.1.mem_iff.mpr (List.mem_cons_self ..)
      obtain ⟨n, hn, hle⟩ :=
        h.exists_avlDelRounds (h.perm.mem_iff.mp (List.mem_map_of_mem hmem))
      exact ⟨n, hn, by omega⟩

/-- **The tree loops are logarithmic.** After any sequence of calls from the empty set, whatever the
names and the scores: one more call makes at most `8 log (n + 1) + 4` rounds in the loops of the
tree, and a query at most `2 log (n + 1) + 1`, where `n` is the number of members. A pass in which a
loop is left, such as that of `avl_fix` over the root, is not counted. -/
theorem zset_rounds_logarithmic (hH : H.Inv) (calls : List (ZSetCall S)) :
    ∃ H' zset, ZSetCall.execAll H {} calls = some (H', zset) ∧
      (∀ call : ZSetCall S, ∃ n, call.rounds H' zset = some n ∧
        n ≤ 8 * Nat.log 2 (hmSize zset.hmap + 1) + 4) ∧
      ∀ score name, ∃ n, zsetQueryRounds H' zset score name = some n ∧
        n ≤ 2 * Nat.log 2 (hmSize zset.hmap + 1) + 1 := by
  obtain ⟨H', zset, t, hexec, h, -⟩ := (indexes_empty hH).execAll calls
  refine ⟨H', zset, hexec, fun call ↦ h.inv.exists_rounds h.heap call, fun score name ↦ ?_⟩
  obtain ⟨n, hn, hle⟩ := exists_zsetQueryRounds h.inv.rep score name none
  refine ⟨n, ?_, hle.trans h.inv.height_le⟩
  rw [zsetQueryRounds, h.inv.tree_eq, hn]

/-- Three members in ascending order, for which the tree is rotated once, and then one of them
again. -/
theorem zset_rounds_logarithmic_ascending : ∃ H' zset,
    ZSetCall.execAll emptyZHeap {} [.add [1] 1, .add [2] 2, .add [3] 3] = some (H', zset) ∧
      (∃ n, (ZSetCall.add [1] 4).rounds H' zset = some n ∧
        n ≤ 8 * Nat.log 2 (hmSize zset.hmap + 1) + 4) ∧
      ∃ n, zsetQueryRounds H' zset 2 [] = some n ∧
        n ≤ 2 * Nat.log 2 (hmSize zset.hmap + 1) + 1 := by
  obtain ⟨H', zset, hexec, hcall, hquery⟩ :=
    zset_rounds_logarithmic emptyZHeap_inv [.add [1] 1, .add [2] 2, .add [3] 3]
  exact ⟨H', zset, hexec, hcall (.add [1] 4), hquery 2 []⟩

end RedisOnC
