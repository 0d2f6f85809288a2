import RedisOnC.Zset.Refine
import RedisOnC.Avl.Offset
import Mathlib.Data.Set.Function

/-!
# Queries by rank

`zset_query` finds the first node that is not less than a tuple. From there on the nodes are found
by `avl_offset`, which is right as far as `Avl.Offset` says. One step forward is right from a node
without a right child.
-/

open BinaryTree

namespace RedisOnC

variable {S : Type} {H : ZHeap S} {zset : ZSet} {t : BinaryTree Ptr} {h : AVLHeap} {v w p : Ptr}

/-! ## The search -/

section Order

variable [LinearOrder S]

/-- The search of `zset_query` walks to the lower bound. -/
private theorem zsetQuery_search {par found : Option Ptr} (score : S) (name : Bytes)
    (hrep : Rep H.avl par t) : whileLoop (zsetQueryStep H score name) (found, t.root)
      = some (lowerBound (fun cur ↦ !zless (H.znode cur) score name) found t) := by
  induction t generalizing par found with
  | nil => exact WhileLoop.of_exit rfl
  | node x l r ihl ihr =>
    obtain ⟨hx, hl, hr⟩ := hrep
    by_cases hless : zless (H.znode x) score name = true
    · have hstep : zsetQueryStep H score name (found, some x) = some (.inl (found, r.root)) := by
        rw [zsetQueryStep, if_pos hless, hx]
      rw [root_node, WhileLoop.of_continue hstep, ihr hr, lowerBound, hless]
      rfl
    · have hstep : zsetQueryStep H score name (found, some x) = some (.inl (some x, l.root)) := by
        rw [zsetQueryStep, if_neg hless, hx]
      rw [root_node, WhileLoop.of_continue hstep, ihl hl, lowerBound, Bool.eq_false_iff.mpr hless]
      rfl

/-- Whatever the order of the tree, the search ends at a node of it, if at any. -/
theorem zsetQuery_mem (hinv : ZSet.Inv H zset t) {score : S} {name : Bytes} {r : Option Ptr}
    (hr : zsetQuery H zset score name = some r) : ∀ p, r = some p → p ∈ t.inorder := by
  rintro p rfl
  rw [zsetQuery, hinv.tree_eq, zsetQuery_search score name hinv.rep, Option.some_inj] at hr
  exact (mem_of_lowerBound hr).resolve_right (Option.some_ne_none p).symm

/-- **`zset_query`.** The first node that is not less than the tuple. -/
theorem zsetQuery_spec (hinv : ZSet.Inv H zset t) (hsorted : Sorted H t.inorder) (score : S)
    (name : Bytes) : zsetQuery H zset score name
      = some (t.inorder.find? fun p ↦ !zless (H.znode p) score name) := by
  rw [zsetQuery, hinv.tree_eq, zsetQuery_search score name hinv.rep,
    lowerBound_eq_find? (hsorted.monotone_zsetQuery score name), Option.or_none]

/-- **`zless` is a strict total order** on nodes with different names, if these are shorter than
`2^32` bytes. -/
theorem isStrictTotalOrder_zlessNode {A : Set Ptr}
    (hshort : ∀ p ∈ A, (H.znode p).name.length < u32Size)
    (hnames : A.InjOn fun p ↦ (H.znode p).name) :
    IsStrictTotalOrder A fun p q ↦ zlessNode H p q = true := by
  have hless : ∀ p q : A, zlessNode H p q = true ↔ TupleLt (H.tuple p) (H.tuple q) := fun p q ↦
    zless_iff (Or.inl (hshort p p.2))
  have hirrefl : ∀ p : A, ¬ zlessNode H p p = true := fun p hp ↦
    TupleLt.irrefl _ ((hless p p).mp hp)
  have htrans : ∀ p q r : A, zlessNode H p q = true → zlessNode H q r = true →
      zlessNode H p r = true := by
    intro p q r hpq hqr
    rw [hless] at hpq hqr ⊢
    exact hpq.trans hqr
  have htri : ∀ p q : A, ¬ zlessNode H p q = true → ¬ zlessNode H q p = true → p = q := by
    intro p q hpq hqp
    rw [hless] at hpq hqp
    have heq : H.tuple p = H.tuple q :=
      ((TupleLt.trichotomy (H.tuple p) (H.tuple q)).resolve_left hpq).resolve_right hqp
    exact Subtype.ext (hnames p.2 q.2 (congrArg Prod.snd heq))
  exact { trichotomous := htri, irrefl := hirrefl, trans := htrans }

/-- `r` is the node with the least of the tuples of `M` that are not below `a`, if there is any. -/
def IsLowerBound (H : ZHeap S) (M : Bytes → Option S) (a : S × Bytes) : Option Ptr → Prop
  | none => ∀ name score, M name = some score → TupleLt (score, name) a
  | some p => M (H.tuple p).2 = some (H.tuple p).1 ∧ ¬ TupleLt (H.tuple p) a ∧
      ∀ name score, M name = some score → ¬ TupleLt (score, name) a →
        (score, name) = H.tuple p ∨ TupleLt (H.tuple p) (score, name)

theorem isLowerBound_find? {l : List Ptr} (hsorted : Sorted H l)
    (hnames : (l.map fun p ↦ (H.znode p).name).Nodup) (score : S) (name : Bytes) :
    IsLowerBound H (zmap H l) (score, name)
      (l.find? fun p ↦ !zless (H.znode p) score name) := by
  have hless : ∀ p ∈ l, (!zless (H.znode p) score name) = true ↔
      ¬ TupleLt (H.tuple p) (score, name) := by
    intro p hp
    rw [Bool.not_eq_true', ← Bool.not_eq_true, zless_iff (Or.inl (hsorted.short p hp))]
    exact Iff.rfl
  rcases hfind : l.find? fun p ↦ !zless (H.znode p) score name with _ | p
  · intro n sc hsome
    obtain ⟨q, hq, rfl, rfl⟩ := exists_of_zmap_eq_some hsome
    have hnot := List.find?_eq_none.mp hfind q hq
    rw [hless q hq, not_not] at hnot
    exact hnot
  · obtain ⟨hp, as, bs, rfl, hbefore⟩ := List.find?_eq_some_iff_append.mp hfind
    have hmem : p ∈ as ++ p :: bs := List.mem_append_right _ (List.mem_cons_self ..)
    refine ⟨zmap_eq_some hnames hmem rfl, (hless p hmem).mp hp, ?_⟩
    intro n sc hsome hnot
    obtain ⟨q, hq, rfl, rfl⟩ := exists_of_zmap_eq_some hsome
    rcases List.mem_append.mp hq with has | hbs
    · have hq' := hbefore q has
      rw [Bool.not_not, zless_iff (Or.inl (hsorted.short q hq))] at hq'
      exact absurd hq' hnot
    · rcases List.mem_cons.mp hbs with rfl | hbs
      · exact Or.inl rfl
      · have hpairs := (List.pairwise_append.mp hsorted.pairwise).2.1
        exact Or.inr ((List.pairwise_cons.mp hpairs).1 q hbs)

/-- **`zset_query` is a lower bound.** After any sequence of calls from the empty set, with names
shorter than `2^32` bytes, it returns the least tuple that is not below the argument, whose name has
any length. And `zless` is a strict total order on any nodes with different such names. -/
theorem zsetQuery_lowerBound (hH : H.Inv) (calls : List (ZSetCall S))
    (hcalls : ∀ c ∈ calls, c.name.length < u32Size) (score : S) (name : Bytes) :
    (∃ H' zset t r, ZSetCall.execAll H {} calls = some (H', zset) ∧ ZSet.Inv H' zset t ∧
      zsetQuery H' zset score name = some r ∧ (∀ p, r = some p → p ∈ t.inorder) ∧
      IsLowerBound H' (calls.foldl ZSetCall.effect fun _ ↦ none) (score, name) r ∧
      IsStrictTotalOrder {p | p ∈ t.inorder} fun p q ↦ zlessNode H' p q = true) ∧
    ∀ (G : ZHeap S) (A : Set Ptr), (∀ p ∈ A, (G.znode p).name.length < u32Size) →
      (A.InjOn fun p ↦ (G.znode p).name) →
      IsStrictTotalOrder A fun p q ↦ zlessNode G p q = true := by
  refine ⟨?_, fun G A hshort hnames ↦ isStrictTotalOrder_zlessNode hshort hnames⟩
  obtain ⟨H', zset, t, hexec, h, hs⟩ := (indexes_empty hH).execAll calls
  have hsorted : Sorted H' t.inorder := hs hcalls ⟨fun p hp ↦ (by cases hp), List.Pairwise.nil⟩
  refine ⟨H', zset, t, _, hexec, h.inv, zsetQuery_spec h.inv hsorted score name, ?_, ?_, ?_⟩
  · exact fun p hp ↦ List.mem_of_find?_eq_some hp
  · rw [← h.map]
    exact isLowerBound_find? hsorted h.inv.names score name
  · exact isStrictTotalOrder_zlessNode hsorted.short fun p hp q hq heq ↦
      List.inj_on_of_nodup_map h.inv.names hp hq heq

end Order

theorem zsetQuery_lowerBound_two : ∃ H' zset t r,
    ZSetCall.execAll emptyZHeap {} [.add [1] 5, .add [2] 5] = some (H', zset) ∧
      ZSet.Inv H' zset t ∧ zsetQuery H' zset 5 [1, 0] = some r ∧
      (∀ p, r = some p → p ∈ t.inorder) ∧
      IsLowerBound H' ([ZSetCall.add [1] 5, .add [2] 5].foldl ZSetCall.effect fun _ ↦ none)
        (5, [1, 0]) r ∧
      IsStrictTotalOrder {p | p ∈ t.inorder} fun p q ↦ zlessNode H' p q = true :=
  (zsetQuery_lowerBound emptyZHeap_inv [.add [1] 5, .add [2] 5] (by simp [ZSetCall.name]) 5
    [1, 0]).1

/-- A set with one name whose length is a multiple of `2^32`, and a query for a greater name of the
same length: the truncated `min` is `0`, and the smaller tuple is returned. -/
private theorem zsetQuery_below {a b : Bytes} (hlen : a.length = b.length)
    (hmod : a.length % u32Size = 0) : ∃ H zset p,
      ZSetCall.execAll emptyZHeap {} [.add a 7] = some (H, zset) ∧
      zsetQuery H zset 7 b = some (some p) ∧ H.tuple p = (7, a) := by
  obtain ⟨H, zset, t, hexec, h, -⟩ := (indexes_empty emptyZHeap_inv).execAll [.add a 7]
  have hmin : zmin a.length b.length = 0 := by rw [← hlen, zmin, ite_self, hmod]
  have hmap : ∀ name, zmap H t.inorder name = if name = a then some 7 else none := by
    intro name
    rw [h.map, List.foldl_cons, List.foldl_nil, ZSetCall.effect, Function.update_apply]
  have hall : ∀ p ∈ t.inorder, H.tuple p = (7, a) := by
    intro p hp
    have hsome := zmap_eq_some h.inv.names hp rfl
    rw [hmap] at hsome
    by_cases hname : (H.znode p).name = a
    · rw [if_pos hname] at hsome
      exact Prod.ext (Option.some_inj.mp hsome).symm hname
    · rw [if_neg hname] at hsome
      cases hsome
  have hgo : ∀ p ∈ t.inorder, (!zless (H.znode p) 7 b) = true := by
    intro p hp
    obtain ⟨hscore, hname⟩ := Prod.ext_iff.mp (hall p hp)
    have hscore' : (H.znode p).score = 7 := hscore
    have hname' : (H.znode p).name = a := hname
    rw [zless, if_neg (not_not.mpr hscore'), hname', hmin, memcmp_zero, if_neg (not_not.mpr rfl),
      hlen, decide_eq_false (lt_irrefl _)]
    rfl
  obtain ⟨p₀, hp₀, -⟩ := exists_of_zmap_eq_some ((hmap a).trans (if_pos rfl))
  have hfind : (t.inorder.find? fun cur ↦ !zless (H.znode cur) 7 b).isSome :=
    List.find?_isSome.mpr ⟨p₀, hp₀, hgo p₀ hp₀⟩
  obtain ⟨p, hp⟩ := Option.isSome_iff_exists.mp hfind
  refine ⟨H, zset, p, hexec, ?_, hall p (List.mem_of_find?_eq_some hp)⟩
  have hmono : Monotone (fun cur ↦ !zless (H.znode cur) 7 b) t.inorder :=
    List.pairwise_of_forall_mem_list fun x _ y hy _ ↦ hgo y hy
  rw [zsetQuery, h.inv.tree_eq, zsetQuery_search 7 b h.inv.rep, lowerBound_eq_find? hmono, hp,
    Option.some_or]

private theorem replicate_lt {n : ℕ} (hn : 0 < n) :
    (List.replicate n 0 : Bytes) < List.replicate n 1 := by
  obtain ⟨m, rfl⟩ := Nat.exists_eq_add_of_lt hn
  rw [Nat.zero_add, List.replicate_succ, List.replicate_succ]
  exact List.cons_lt_cons_iff.mpr (Or.inl (by decide))

theorem not_zsetQuery_lowerBound : ∃ H zset p,
    ZSetCall.execAll emptyZHeap {} [.add (List.replicate (2 ^ 32) 0) 7] = some (H, zset) ∧
      zsetQuery H zset 7 (List.replicate (2 ^ 32) 1) = some (some p) ∧
      TupleLt (H.tuple p) (7, List.replicate (2 ^ 32) 1) := by
  have hlt := replicate_lt (Nat.two_pow_pos 32)
  obtain ⟨H, zset, p, hexec, hquery, htuple⟩ := zsetQuery_below
    (a := List.replicate (2 ^ 32) 0) (b := List.replicate (2 ^ 32) 1)
    (by rw [List.length_replicate, List.length_replicate])
    (by rw [List.length_replicate, Nat.mod_self])
  exact ⟨H, zset, p, hexec, hquery, htuple ▸ Or.inr ⟨rfl, hlt⟩⟩

end RedisOnC
