import RedisOnC.Zset.Ops
import Mathlib.Data.List.Pairwise

/-!
# A sorted set is a finite map with an order

Any sequence of `zset_add`, `zset_lookup` and `zset_pop` from the empty set, run on the two indexes
and on a plain map from names to scores. The answers agree, the two indexes hold the same nodes,
and the tree is sorted by `zless` as long as every name is shorter than `2^32` bytes. Two longer
names can be equal under `zless` without being the same.
-/

namespace RedisOnC

variable {S : Type} {H H' : ZHeap S} {zset zset' : ZSet} {t t' : BinaryTree Ptr}
variable {M : Bytes → Option S}

/-- A call of the interface of the sorted set. -/
inductive ZSetCall (S : Type)
  | add (name : Bytes) (score : S)
  | lookup (name : Bytes)
  | pop (name : Bytes)

/-- What a call returns. -/
inductive ZSetReply
  | added (b : Bool)
  | node (p : Option Ptr)

namespace ZSetCall

def name : ZSetCall S → Bytes
  | add name _ => name
  | lookup name => name
  | pop name => name

/-- The call on a map from names to scores. -/
def effect (M : Bytes → Option S) : ZSetCall S → Bytes → Option S
  | add name score => Function.update M name (some score)
  | lookup _ => M
  | pop name => Function.update M name none

/-- What the call must return, and what it must do to the nodes, given the map before it. -/
def Answer (M : Bytes → Option S) (H : ZHeap S) (t : BinaryTree Ptr) (H' : ZHeap S)
    (t' : BinaryTree Ptr) : ZSetCall S → ZSetReply → Prop
  | add name _, r => r = .added (M name).isNone
  | lookup name, r => H' = H ∧ t' = t ∧
      match M name with
      | none => r = .node none
      | some score => ∃ p ∈ t.inorder, r = .node (some p) ∧ (H.znode p).name = name ∧
          (H.znode p).score = score
  | pop name, r =>
      match M name with
      | none => r = .node none ∧ H' = H ∧ t' = t
      | some score => ∃ p, r = .node (some p) ∧ (H.znode p).name = name ∧
          (H.znode p).score = score ∧ t.inorder.Perm (p :: t'.inorder) ∧
          t'.inorder.Sublist t.inorder ∧ H'.znode = H.znode

variable [LinearOrder S]

/-- The call on a set. -/
def exec (H : ZHeap S) (zset : ZSet) : ZSetCall S → Option (ZHeap S × ZSet × ZSetReply)
  | add name score => do
    let (H, zset, added) ← zsetAdd H zset name score
    some (H, zset, .added added)
  | lookup name => do
    let (zset, node) ← zsetLookup H zset name
    some (H, zset, .node node)
  | pop name => do
    let (H, zset, node) ← zsetPop H zset name
    some (H, zset, .node node)

/-- A sequence of calls. -/
def execAll (H : ZHeap S) (zset : ZSet) : List (ZSetCall S) → Option (ZHeap S × ZSet)
  | [] => some (H, zset)
  | call :: calls => do
    let (H, zset, _) ← call.exec H zset
    execAll H zset calls

end ZSetCall

/-- The set stores the tree `t`, both indexes hold the same nodes, and these spell out the map. -/
structure Indexes (H : ZHeap S) (zset : ZSet) (t : BinaryTree Ptr) (M : Bytes → Option S) :
    Prop where
  heap : H.Inv
  inv : ZSet.Inv H zset t
  map : zmap H t.inorder = M

section Order

variable [LinearOrder S]

open ZSetCall

theorem Indexes.exec (h : Indexes H zset t M) (call : ZSetCall S) :
    ∃ H' zset' t' r, call.exec H zset = some (H', zset', r) ∧
      Indexes H' zset' t' (call.effect M) ∧ call.Answer M H t H' t' r ∧
      (call.name.length < u32Size → Sorted H t.inorder → Sorted H' t'.inorder) := by
  obtain ⟨hH, hinv, rfl⟩ := h
  cases call with
  | add name score =>
    obtain ⟨H', zset', t', hcode, hinv', hframe, hmap, hsorted⟩ := zsetAdd_spec hH hinv name score
    refine ⟨H', zset', t', _, ?_, ⟨hframe.heap, hinv', hmap⟩, rfl, fun hn hs ↦ hsorted hs hn⟩
    rw [ZSetCall.exec, hcode]
    rfl
  | lookup name =>
    obtain ⟨hmap, r, hcode, hinv', hr⟩ := zsetLookup_spec hinv name
    refine ⟨H, _, t, .node r, ?_, ⟨hH, hinv', rfl⟩, ⟨rfl, rfl, ?_⟩, fun _ hs ↦ hs⟩
    · rw [ZSetCall.exec, hcode]
      rfl
    · rcases r with _ | p
      · rw [zmap_eq_none_iff.mpr hr]
      · rw [zmap_eq_some hinv.names hr.1 hr.2]
        exact ⟨p, hr.1, rfl, hr.2, rfl⟩
  | pop name =>
    obtain ⟨H', zset', t', r, hcode, hinv', hr⟩ := zsetPop_spec hinv name
    have hexec : (pop name).exec H zset = some (H', zset', .node r) := by
      rw [ZSetCall.exec, hcode]
      rfl
    rcases r with _ | p
    · obtain ⟨rfl, -, rfl, hno⟩ := hr
      have hnone : zmap H' t'.inorder name = none := zmap_eq_none_iff.mpr hno
      refine ⟨H', zset', t', .node none, hexec, ⟨hH, hinv', ?_⟩, ?_, fun _ hs ↦ hs⟩
      · rw [effect, ← hnone, Function.update_eq_self]
      · rw [Answer, hnone]
        exact ⟨rfl, rfl, rfl⟩
    · obtain ⟨hsome, hmap⟩ := hr.zmap_eq hinv.names
      refine ⟨H', zset', t', .node (some p), hexec, ⟨⟨?_, ?_⟩, hinv', hmap⟩, ?_,
        fun _ hs ↦ hr.sorted hs⟩
      · rw [hr.live]
        exact hH.nodup
      · rw [hr.live, hr.next]
        exact hH.lt_next
      · rw [Answer, hsome]
        exact ⟨p, rfl, hr.name_eq, rfl, hr.perm, hr.sublist, hr.znode⟩

theorem Indexes.execAll (h : Indexes H zset t M) (calls : List (ZSetCall S)) :
    ∃ H' zset' t', ZSetCall.execAll H zset calls = some (H', zset') ∧
      Indexes H' zset' t' (calls.foldl effect M) ∧
      ((∀ call ∈ calls, call.name.length < u32Size) → Sorted H t.inorder →
        Sorted H' t'.inorder) := by
  induction calls generalizing H zset t M with
  | nil => exact ⟨H, zset, t, rfl, h, fun _ hs ↦ hs⟩
  | cons call calls ih =>
    obtain ⟨H₁, zset₁, t₁, r, hexec, h₁, -, hs₁⟩ := h.exec call
    obtain ⟨H₂, zset₂, t₂, hexec₂, h₂, hs₂⟩ := ih h₁
    refine ⟨H₂, zset₂, t₂, ?_, h₂, fun hn hs ↦ ?_⟩
    · rw [ZSetCall.execAll, hexec]
      exact hexec₂
    · exact hs₂ (fun c hc ↦ hn c (List.mem_cons_of_mem _ hc)) (hs₁ (hn call (by simp)) hs)

omit [LinearOrder S] in
theorem indexes_empty (hH : H.Inv) : Indexes H {} .nil fun _ ↦ none :=
  ⟨hH, ZSet.inv_empty, rfl⟩

/-- **The two indexes agree and refine a map.** After any sequence of calls from the empty set,
with names shorter than `2^32` bytes, the set stores a balanced tree with exact parents, depths and
counts, sorted by `zless`; its hash map holds the same nodes, with different names; both spell out
the map that the calls make. One more call returns what that map says and keeps all of this. -/
theorem zset_refines_map (hH : H.Inv) (calls : List (ZSetCall S)) (call : ZSetCall S)
    (hcalls : ∀ c ∈ call :: calls, c.name.length < u32Size) :
    ∃ H₁ zset₁ t₁ H₂ zset₂ t₂ r, ZSetCall.execAll H {} calls = some (H₁, zset₁) ∧
      Indexes H₁ zset₁ t₁ (calls.foldl effect fun _ ↦ none) ∧
      t₁.inorder.Pairwise (fun p q ↦ zlessNode H₁ p q = true) ∧
      call.exec H₁ zset₁ = some (H₂, zset₂, r) ∧
      Indexes H₂ zset₂ t₂ (call.effect (calls.foldl effect fun _ ↦ none)) ∧
      t₂.inorder.Pairwise (fun p q ↦ zlessNode H₂ p q = true) ∧
      call.Answer (calls.foldl effect fun _ ↦ none) H₁ t₁ H₂ t₂ r := by
  obtain ⟨H₁, zset₁, t₁, hexec₁, h₁, hs₁⟩ := (indexes_empty hH).execAll calls
  obtain ⟨H₂, zset₂, t₂, r, hexec₂, h₂, hanswer, hs₂⟩ := h₁.exec call
  have hsorted₁ : Sorted H₁ t₁.inorder :=
    hs₁ (fun c hc ↦ hcalls c (List.mem_cons_of_mem _ hc))
      ⟨fun p hp ↦ (by cases hp), List.Pairwise.nil⟩
  have hsorted₂ := hs₂ (hcalls call (List.mem_cons_self ..)) hsorted₁
  exact ⟨H₁, zset₁, t₁, H₂, zset₂, t₂, r, hexec₁, h₁, hsorted₁.zless_pairwise, hexec₂, h₂,
    hsorted₂.zless_pairwise, hanswer⟩

end Order

/-- An empty heap of nodes with integer scores. -/
def emptyZHeap : ZHeap ℤ := { avl := fun _ ↦ {}, znode := fun _ ↦ ⟨0, 0, []⟩, next := 0, live := [] }

theorem emptyZHeap_inv : emptyZHeap.Inv := ⟨List.nodup_nil, fun p hp ↦ (by cases hp)⟩

/-- A name added, rescored and popped. -/
theorem zset_refines_map_rescore : ∃ H₁ zset₁ p H₂ zset₂,
    ZSetCall.execAll emptyZHeap {} [.add [1] 5, .add [2] 4, .add [1] 3] = some (H₁, zset₁) ∧
    (ZSetCall.pop [1]).exec H₁ zset₁ = some (H₂, zset₂, .node (some p)) ∧
    (H₁.znode p).score = 3 := by
  obtain ⟨H₁, zset₁, t₁, H₂, zset₂, t₂, r, hexec₁, -, -, hexec₂, -, -, p, rfl, -, hscore, -⟩ :=
    zset_refines_map emptyZHeap_inv [.add [1] 5, .add [2] 4, .add [1] 3] (.pop [1])
      (by simp [ZSetCall.name])
  exact ⟨H₁, zset₁, p, H₂, zset₂, hexec₁, hexec₂, hscore⟩

/-- Two names of one length, a multiple of `2^32`, are incomparable under `zless` when their scores
agree: a truncated `min` of `0` compares no byte at all. No tree that holds both is sorted. -/
theorem not_sorted_of_long_names {a b : Bytes} (hab : a ≠ b) (hlen : a.length = b.length)
    (hmod : a.length % u32Size = 0) : ∃ H zset t,
    ZSetCall.execAll emptyZHeap {} [.add a 7, .add b 7] = some (H, zset) ∧
    ZSet.Inv H zset t ∧ ¬ t.inorder.Pairwise fun p q ↦ zlessNode H p q = true := by
  obtain ⟨H, zset, t, hexec, h, -⟩ := (indexes_empty emptyZHeap_inv).execAll [.add a 7, .add b 7]
  refine ⟨H, zset, t, hexec, h.inv, fun hsorted ↦ ?_⟩
  have ha : zmap H t.inorder a = some 7 := by
    rw [h.map]
    simp [ZSetCall.effect, Function.update_of_ne hab]
  have hb : zmap H t.inorder b = some 7 := by
    rw [h.map]
    simp [ZSetCall.effect]
  obtain ⟨p, hp, hpn, hps⟩ := exists_of_zmap_eq_some ha
  obtain ⟨q, hq, hqn, hqs⟩ := exists_of_zmap_eq_some hb
  have hmin : zmin a.length a.length = 0 := by rw [zmin, ite_self, hmod]
  have hless : ∀ x y, (H.znode x).score = 7 → (H.znode y).score = 7 →
      (H.znode x).name.length = a.length → (H.znode y).name.length = a.length →
      ¬ zlessNode H x y = true := by
    intro x y hx hy hxl hyl
    rw [zlessNode, zless, hx, hy, hxl, hyl, hmin]
    simp
  have hpq : p ≠ q := fun heq ↦ hab (by rw [← hpn, ← hqn, heq])
  have hpl : (H.znode p).name.length = a.length := by rw [hpn]
  have hql : (H.znode q).name.length = a.length := by rw [hqn, hlen]
  have hsymm : Std.Symm fun x y ↦ zlessNode H x y = true ∨ zlessNode H y x = true :=
    ⟨fun _ _ ↦ Or.symm⟩
  have hor := (hsorted.imp fun {x y} hxy ↦ Or.inl (b := zlessNode H y x = true) hxy).forall
    hp hq hpq
  rcases hor with hpq | hqp
  · exact hless p q hps hqs hpl hql hpq
  · exact hless q p hqs hps hql hpl hqp

/-- The shortest such pair. -/
theorem not_sorted_of_long_names_replicate : ∃ H zset t,
    ZSetCall.execAll emptyZHeap {}
      [.add (List.replicate (2 ^ 32) 0) 7, .add (List.replicate (2 ^ 32) 1) 7] = some (H, zset) ∧
    ZSet.Inv H zset t ∧ ¬ t.inorder.Pairwise fun p q ↦ zlessNode H p q = true := by
  refine not_sorted_of_long_names (fun heq ↦ ?_) ?_ ?_
  · exact absurd (List.replicate_right_injective (by norm_num) heq) (by decide)
  · rw [List.length_replicate, List.length_replicate]
  · rw [List.length_replicate, Nat.mod_self]

end RedisOnC
