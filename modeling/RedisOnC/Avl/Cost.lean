import RedisOnC.Avl.Del
import RedisOnC.Lib.Rounds

/-!
# What repairing a tree costs

The loops of the tree code, by their rounds. `avl_fix` goes up once for every node above the one it
starts at. `avl_del` goes down to the successor, which is deleted first and may have a right child
of its own, and `avl_fix` goes up from there. So both are bounded by the height of the tree, whether
it is balanced or not.
-/

open BinaryTree

namespace RedisOnC

variable {h : AVLHeap} {c : Ctx Ptr} {par : Option Ptr} {p : Ptr} {l r : BinaryTree Ptr}

/-! ## Going up -/

/-- The rounds of the loop of `avl_fix` that go up. The pass over the root, which returns, is not
counted. -/
def avlFixRounds (h : AVLHeap) (node : Ptr) : Option ℕ := WhileLoop.rounds avlFixStep (h, node)

private theorem avlFixStep_top (hs : Stale h none p l r) (hnd : (node p l r).inorder.Nodup) :
    ∃ s, avlFixStep (h, p) = some (.inr s) := by
  have hndp := hnd
  rw [inorder_node, List.nodup_middle, List.nodup_cons, List.mem_append, not_or] at hndp
  obtain ⟨h₂, q, hreb, -⟩ := avlRebalance_spec (hs.avlUpdate hndp.1.1 hndp.1.2) hnd
  have hpar : (avlUpdate h p p).parent = none := by
    rw [avlUpdate, AVLHeap.set_self]
    exact hs.parent
  refine ⟨(h₂, q), ?_⟩
  simp only [avlFixStep, hreb, hpar, Option.map_none, Option.bind_eq_bind, Option.bind_some]

/-- **`avl_fix`** makes a round for every node above, by induction on the path. -/
theorem avlFixRounds_eq (hc : Links h c (some p)) (hs : Stale h c.parent p l r)
    (hnd : (c.plug (node p l r)).inorder.Nodup) : avlFixRounds h p = some c.depth := by
  induction c generalizing h p l r with
  | top =>
    obtain ⟨s, hstep⟩ := avlFixStep_top hs hnd
    exact WhileLoop.rounds_of_exit hstep
  | left up x r' ih =>
    obtain ⟨h₁, hstep, hlinks, hstale, -⟩ := avlFixStep_left hc hs hnd
    have hin : (up.plug (node x (rebalance p l r) r')).inorder
        = ((Ctx.left up x r').plug (node p l r)).inorder := by
      simp [Ctx.inorder_plug]
    exact WhileLoop.rounds_of_continue hstep (ih hlinks hstale (by rw [hin]; exact hnd))
  | right up x l' ih =>
    obtain ⟨h₁, hstep, hlinks, hstale, -⟩ := avlFixStep_right hc hs hnd
    have hin : (up.plug (node x l' (rebalance p l r))).inorder
        = ((Ctx.right up x l').plug (node p l r)).inorder := by
      simp [Ctx.inorder_plug]
    exact WhileLoop.rounds_of_continue hstep (ih hlinks hstale (by rw [hin]; exact hnd))

/-! ## Deleting a node -/

/-- The rounds of `while (victim->left) victim = victim->left`. -/
def avlLeftmostRounds (h : AVLHeap) (node : Ptr) : Option ℕ :=
  WhileLoop.rounds (fun victim ↦ match (h victim).left with
    | some l => some (.inl l)
    | none => some (.inr victim)) node

/-- The rounds of all loops of `avl_del`, and one for every call of itself. -/
def AVLHeap.avlDelRounds (h : AVLHeap) (node : Ptr) : Option ℕ :=
  match (h node).right with
  | none =>
    let parent := (h node).parent
    let h := h.setParent? parent (h node).left
    match parent with
    | some parent => avlFixRounds (h.store (h node).left (childSlot h parent node)) parent
    | none => some 0
  | some right => do
    let n ← avlLeftmostRounds h right
    let victim ← avlLeftmost h right
    let k ← h |>.avlDelRounds victim
    some (n + k + 1)
partial_fixpoint

export AVLHeap (avlDelRounds)

private theorem avlLeftmostRounds_spec {y : Ptr} {a b : BinaryTree Ptr}
    (ht : Rep h par (node y a b)) :
    ∃ (c' : Ctx Ptr) (v : Ptr) (rv : BinaryTree Ptr) (n : ℕ), avlLeftmost h y = some v ∧
      avlLeftmostRounds h y = some n ∧ c.plug (node y a b) = c'.plug (node v nil rv) ∧
      c'.depth = c.depth + n ∧ n + rv.height < (node y a b).height ∧
      rv.numNodes < (node y a b).numNodes := by
  induction a generalizing c par y b with
  | nil =>
    have hexit : (h y).left = none := by rw [ht.1, root_nil]
    refine ⟨c, y, b, 0, WhileLoop.of_exit ?_, WhileLoop.rounds_of_exit (r := y) ?_, rfl, rfl, ?_, ?_⟩
    · simp only [hexit]
    · simp only [hexit]
    · simp
    · simp
  | node z a' b' ih _ =>
    obtain ⟨c', v, rv, n, hcode, hn, hplug, hdepth, hheight, hlt⟩ := ih (c := .left c y b) ht.2.1
    have hdown : (h y).left = some z := by rw [ht.1, root_node]
    refine ⟨c', v, rv, n + 1, ?_, (WhileLoop.rounds_of_continue ?_ hn), hplug, ?_, ?_, ?_⟩
    · rw [← hcode]
      apply WhileLoop.of_continue
      simp only [hdown]
    · simp only [hdown]
    · rw [hdepth, Ctx.depth]
      omega
    · have hle : (node z a' b').height < (node y (node z a' b') b).height :=
        Nat.lt_succ_of_le (le_max_left _ _)
      omega
    · refine hlt.trans ?_
      rw [numNodes.eq_2 y]
      omega

private theorem avlDelRounds_leaf (hT : Rep h none (c.plug (node p l nil)))
    (hnd : (c.plug (node p l nil)).inorder.Nodup) :
    ∃ n, avlDelRounds h p = some n ∧ n ≤ c.depth := by
  obtain ⟨-, hp, -, -⟩ := Rep.of_plug hT
  obtain ⟨-, -, hdisj⟩ := Ctx.nodup_plug hnd
  obtain ⟨hlinks, hrepl, hndl⟩ := avlDel_reparent hT hnd
  rcases hpar : c.parent with _ | x
  · refine ⟨0, ?_, Nat.zero_le _⟩
    rw [avlDelRounds]
    simp only [hp, root_nil, hpar]
  · have hslot := hlinks.ctxSlot_eq (fun hpe ↦ hdisj p (by simp) hpe) hpar
    obtain ⟨up, l', r', hup, hs, hplug, -, hdepth⟩ := hlinks.hang hslot hpar (hpar ▸ hrepl) hndl
    refine ⟨up.depth, ?_, hdepth ▸ Nat.le_succ _⟩
    rw [hpar] at hup hs
    rw [avlDelRounds]
    simp only [hp, root_nil, hpar, AVLHeap.setParent?_left]
    exact avlFixRounds_eq hup hs (hplug ▸ hndl)

/-- **`avl_del`** goes down below the node twice at most, and up to the root once. By induction on
the size of the right subtree. -/
theorem exists_avlDelRounds (hT : Rep h none (c.plug (node p l r)))
    (hnd : (c.plug (node p l r)).inorder.Nodup) :
    ∃ n, avlDelRounds h p = some n ∧ n ≤ c.depth + 2 * r.height := by
  induction hn : r.numNodes using Nat.strong_induction_on generalizing c p l r with
  | _ m ih =>
    rcases r with _ | ⟨y, a, b⟩
    · exact avlDelRounds_leaf hT hnd
    obtain ⟨-, hp, -, hr⟩ := Rep.of_plug hT
    obtain ⟨c', v, rv, n, hleft, hrounds, hplug, hdepth, hheight, hlt⟩ :=
      avlLeftmostRounds_spec (c := .right c p l) hr
    rw [Ctx.plug_right] at hplug
    obtain ⟨k, hk, hle⟩ := ih rv.numNodes (hn ▸ hlt) (hplug ▸ hT) (hplug ▸ hnd) rfl
    refine ⟨n + k + 1, ?_, ?_⟩
    · rw [avlDelRounds]
      simp only [hp, root_node, hrounds, hleft, hk, Option.bind_eq_bind, Option.bind_some]
    · rw [hdepth, Ctx.depth] at hle
      omega

end RedisOnC
