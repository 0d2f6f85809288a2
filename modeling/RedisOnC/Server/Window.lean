import RedisOnC.Zset.Query

/-!
# Windows of a sorted set

What a `ZQUERY` is about, on the sorted list of the tuples of a set: the lower bound of the tuple of
the query, and the part of the list that starts at an offset behind it. `Lists` is weaker. It says
what holds of every query, also where `avl_offset` makes a wrong step.
-/

namespace RedisOnC

variable {S : Type} [LinearOrder S]

instance {a b : S × Bytes} : Decidable (TupleLt a b) :=
  inferInstanceAs (Decidable (a.1 < b.1 ∨ a.1 = b.1 ∧ a.2 < b.2))

/-- The elements from an index on, none if no element has it. -/
def dropFrom {α : Type*} (l : List α) (k : ℤ) : List α :=
  if 0 ≤ k then l.drop k.toNat else []

/-- The number of pairs that a limit on names and scores lets through. -/
def pairLimit (limit : ℤ) : ℕ := ((limit + 1) / 2).toNat

/-- The index of the first tuple that is not less than the one of the query. -/
def lowerIdx (L : List (S × Bytes)) (score : S) (name : Bytes) : Option ℕ :=
  L.findIdx? fun x ↦ ¬ TupleLt x (score, name)

/-- The part of a sorted list of tuples that a query is about: from `offset` behind the first tuple
that is not less than the one of the query, as many as the limit lets through. -/
def window (L : List (S × Bytes)) (score : S) (name : Bytes) (offset limit : ℤ) :
    List (S × Bytes) :=
  match lowerIdx L score name with
  | none => []
  | some i => (dropFrom L (i + offset)).take (pairLimit limit)

/-- A query with an offset, on three tuples. -/
example : window [((1 : ℤ), [97]), (2, [98]), (3, [99])] 2 [] (-1) 3
    = [(1, [97]), (2, [98])] := by decide

theorem head?_dropFrom {α : Type*} (l : List α) (k : ℤ) : (dropFrom l k).head? = elemAt l k := by
  rw [dropFrom, elemAt]
  by_cases hk : 0 ≤ k
  · rw [if_pos hk, if_pos hk, List.head?_drop]
  · rw [if_neg hk, if_neg hk, List.head?_nil]

theorem dropFrom_map {α β : Type*} (f : α → β) (l : List α) (k : ℤ) :
    dropFrom (l.map f) k = (dropFrom l k).map f := by
  rw [dropFrom, dropFrom]
  by_cases hk : 0 ≤ k
  · rw [if_pos hk, if_pos hk, List.map_drop]
  · rw [if_neg hk, if_neg hk, List.map_nil]

theorem dropFrom_suffix {α : Type*} (l : List α) (k : ℤ) : dropFrom l k <:+ l := by
  rw [dropFrom]
  by_cases hk : 0 ≤ k
  · rw [if_pos hk]
    exact List.drop_suffix _ l
  · rw [if_neg hk]
    exact List.nil_suffix

theorem window_sublist (L : List (S × Bytes)) (score : S) (name : Bytes) (offset limit : ℤ) :
    (window L score name offset limit).Sublist L := by
  rw [window]
  split
  · exact List.nil_sublist _
  · exact (List.take_sublist _ _).trans (dropFrom_suffix _ _).sublist

theorem window_of_limit {L : List (S × Bytes)} {score : S} {name : Bytes} {offset limit : ℤ}
    (hlim : limit ≤ 0) : window L score name offset limit = [] := by
  have hpairs : pairLimit limit = 0 := by
    rw [pairLimit]
    omega
  rw [window, hpairs]
  cases lowerIdx L score name with
  | none => rfl
  | some i => exact List.take_zero

/-- The tuples of a map from names to scores, in order. -/
def SortedTuples (M : Bytes → Option S) (L : List (S × Bytes)) : Prop :=
  L.Pairwise TupleLt ∧ ∀ x, x ∈ L ↔ M x.2 = some x.1

theorem eq_of_pairwise_tupleLt {L L' : List (S × Bytes)} (hL : L.Pairwise TupleLt)
    (hL' : L'.Pairwise TupleLt) (hmem : ∀ x, x ∈ L ↔ x ∈ L') : L = L' := by
  have hnodup : ∀ {L : List (S × Bytes)}, L.Pairwise TupleLt → L.Nodup := fun h ↦
    h.imp fun {a b} hab (heq : a = b) ↦ TupleLt.irrefl b (heq ▸ hab)
  apply List.Perm.eq_of_pairwise _ hL hL'
  · exact (List.perm_ext_iff_of_nodup (hnodup hL) (hnodup hL')).mpr hmem
  · exact fun a b _ _ hab hba ↦ absurd hba hab.asymm

variable {H : ZHeap S} {t : BinaryTree Ptr} {zs : ZSet} {l : List Ptr} {score : S} {name : Bytes}

theorem lowerIdx_tuple (hl : ∀ p ∈ l, (H.znode p).name.length < u32Size) :
    lowerIdx (l.map H.tuple) score name = l.findIdx? fun p ↦ !zless (H.znode p) score name := by
  rw [lowerIdx]
  induction l with
  | nil => rfl
  | cons p l ih =>
    have hp : zless (H.znode p) score name = true ↔ TupleLt (H.tuple p) (score, name) :=
      zless_iff (Or.inl (hl p (List.mem_cons_self ..)))
    have hdec : decide (¬ TupleLt (H.tuple p) (score, name))
        = !zless (H.znode p) score name := by
      rw [Bool.eq_iff_iff, decide_eq_true_iff, Bool.not_eq_true', ← Bool.not_eq_true, hp]
    rw [List.map_cons, List.findIdx?_cons, List.findIdx?_cons, hdec,
      ih fun q hq ↦ hl q (List.mem_cons_of_mem _ hq)]

/-- The tuples of the tree are the bindings of the map, in order. -/
theorem tuples_spec (hinv : ZSet.Inv H zs t) (hsorted : Sorted H t.inorder) :
    SortedTuples (zmap H t.inorder) (t.inorder.map H.tuple) := by
  refine ⟨List.pairwise_map.mpr hsorted.pairwise, fun x ↦ ⟨fun hx ↦ ?_, fun hx ↦ ?_⟩⟩
  · obtain ⟨p, hp, rfl⟩ := List.mem_map.mp hx
    exact zmap_eq_some hinv.names hp rfl
  · obtain ⟨p, hp, hname, hscore⟩ := exists_of_zmap_eq_some hx
    exact List.mem_map.mpr ⟨p, hp, Prod.ext hscore hname⟩

/-! ## What every query lists -/

/-- What a query lists of a set: tuples of it, and no more of them than the limit lets through. If
the tree of the set is sorted, it lists none where no tuple stands at the offset, and without an
offset it begins with the lower bound. -/
structure Lists (ordered : Prop) (M : Bytes → Option S) (score : S) (name : Bytes)
    (offset limit : ℤ) (l : List (Bytes × S)) : Prop where
  mem : ∀ x ∈ l, M x.1 = some x.2
  length_le : limit + 1 < u32Size → l.length ≤ pairLimit limit
  unfound : ordered → ∀ L, SortedTuples M L → lowerIdx L score name = none → l = []
  outside : ordered → ∀ L i, SortedTuples M L → lowerIdx L score name = some i →
    L.length < u32Size → i + offset < 0 ∨ L.length ≤ i + offset → l = []
  lower : ordered → ∀ L i, SortedTuples M L → lowerIdx L score name = some i → offset = 0 →
    0 < limit → l.head? = L[i]?.map Prod.swap

theorem lists_nil {ordered : Prop} {M : Bytes → Option S} {offset limit : ℤ} (hlim : limit ≤ 0) :
    Lists ordered M score name offset limit [] where
  mem x hx := by cases hx
  length_le _ := Nat.zero_le _
  unfound _ _ _ _ := rfl
  outside _ _ _ _ _ _ _ := rfl
  lower _ _ _ _ _ _ hpos := absurd hpos (not_lt.mpr hlim)

theorem SortedTuples.eq {M : Bytes → Option S} {L L' : List (S × Bytes)} (h : SortedTuples M L)
    (h' : SortedTuples M L') : L = L' :=
  eq_of_pairwise_tupleLt h.1 h'.1 fun x ↦ (h.2 x).trans (h'.2 x).symm

end RedisOnC
