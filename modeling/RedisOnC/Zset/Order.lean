import RedisOnC.Zset.Basic
import RedisOnC.Lib.TreeSearch
import Mathlib.Data.List.Perm.Basic

/-!
# The order of a sorted set

`zless` is the order by score and then by name, as long as one of the two names is shorter than
`2^32` bytes: the helper `min` of the source returns a `uint32_t`, so for two longer names it
compares a truncated prefix. Both searches of the source, `tree_add` and `zset_query`, are then
monotone along a sorted tree.
-/

open BinaryTree

namespace RedisOnC

variable {S : Type} [LinearOrder S]

theorem zmin_eq {a b : ℕ} (h : a < u32Size ∨ b < u32Size) : zmin a b = min a b := by
  have hmin : (if a < b then a else b) = min a b := by
    by_cases hab : a < b
    · rw [if_pos hab, min_eq_left hab.le]
    · rw [if_neg hab, min_eq_right (not_lt.mp hab)]
  rw [zmin, hmin, Nat.mod_eq_of_lt]
  rcases h with h | h
  · exact (min_le_left a b).trans_lt h
  · exact (min_le_right a b).trans_lt h

/-- `zless` decides the order by score, then by name. -/
theorem zless_iff {zl : ZNode S} {score : S} {name : Bytes}
    (h : zl.name.length < u32Size ∨ name.length < u32Size) :
    zless zl score name = true ↔ TupleLt (zl.score, zl.name) (score, name) := by
  rw [zless, zmin_eq h, TupleLt]
  by_cases hs : zl.score = score
  · rw [if_neg (not_not.mpr hs), ← memcmp_lt_iff]
    dsimp only
    split <;> simp [hs]
  · simp [hs]

/-- The tuple a node is sorted by. -/
def ZHeap.tuple (H : ZHeap S) (p : Ptr) : S × Bytes := ((H.znode p).score, (H.znode p).name)

/-- A list of nodes sorted by score and name. -/
structure Sorted (H : ZHeap S) (l : List Ptr) : Prop where
  short : ∀ p ∈ l, (H.znode p).name.length < u32Size
  pairwise : l.Pairwise fun p q ↦ TupleLt (H.tuple p) (H.tuple q)

variable {H H' : ZHeap S} {l : List Ptr} {t : BinaryTree Ptr} {p : Ptr}

namespace Sorted

theorem congr (h : Sorted H l) (heq : ∀ p ∈ l, H'.znode p = H.znode p) : Sorted H' l := by
  refine ⟨fun p hp ↦ by rw [heq p hp]; exact h.short p hp, h.pairwise.imp_of_mem ?_⟩
  intro p q hp hq hlt
  rwa [ZHeap.tuple, ZHeap.tuple, heq p hp, heq q hq]

theorem sublist (h : Sorted H l) {l' : List Ptr} (hl : l'.Sublist l) : Sorted H l' :=
  ⟨fun p hp ↦ h.short p (hl.subset hp), h.pairwise.sublist hl⟩

theorem zless_pairwise (h : Sorted H l) : l.Pairwise fun p q ↦ zlessNode H p q = true :=
  h.pairwise.imp_of_mem fun hp _ hlt ↦ (zless_iff (Or.inl (h.short _ hp))).mpr hlt

theorem monotone_treeAdd (h : Sorted H l) (p : Ptr) :
    Monotone (fun cur ↦ zlessNode H p cur) l := by
  refine h.pairwise.imp_of_mem fun {x y} hx hy hxy hgo ↦ ?_
  have hpx := (zless_iff (Or.inr (h.short x hx))).mp hgo
  exact (zless_iff (Or.inr (h.short y hy))).mpr (TupleLt.trans hpx hxy)

theorem monotone_zsetQuery (h : Sorted H l) (score : S) (name : Bytes) :
    Monotone (fun cur ↦ !zless (H.znode cur) score name) l := by
  refine h.pairwise.imp_of_mem fun {x y} hx hy hxy hgo ↦ ?_
  rw [Bool.not_eq_true', ← Bool.not_eq_true] at hgo ⊢
  refine fun hy' ↦ hgo ((zless_iff (Or.inl (h.short x hx))).mpr ?_)
  exact TupleLt.trans hxy ((zless_iff (Or.inl (h.short y hy))).mp hy')

theorem insertAt (h : Sorted H t.inorder) (hshort : (H.znode p).name.length < u32Size)
    (hname : ∀ q ∈ t.inorder, (H.znode q).name ≠ (H.znode p).name) :
    Sorted H (BinaryTree.insertAt (fun cur ↦ zlessNode H p cur) p t).inorder := by
  refine ⟨fun q hq ↦ ?_, pairwise_insertAt h.pairwise (h.monotone_treeAdd p) ?_ ?_⟩
  · rcases List.mem_cons.mp ((inorder_insertAt_perm _ p t).mem_iff.mp hq) with rfl | hq
    · exact hshort
    · exact h.short q hq
  · exact fun y hy hgo ↦ TupleLt.of_not (hname y hy).symm
      fun hlt ↦ hgo ((zless_iff (Or.inl hshort)).mpr hlt)
  · exact fun y _ hgo ↦ (zless_iff (Or.inl hshort)).mp hgo

end Sorted

end RedisOnC
