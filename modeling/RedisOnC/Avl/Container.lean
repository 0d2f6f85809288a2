import RedisOnC.Zset.Invariant
import Mathlib.Data.Multiset.Filter

/-!
# The container of the AVL test

The first half of `test_avl.cpp`, function by function: a multiset of numbers in an AVL tree, and the
checks of all that is in it. A `Data` is its tree node and a number; `my_container_of` is the
identity. A failed assertion makes a function return `none`, as does a second `delete` of a node and
in the checks the use of a node that is freed. A `std::multiset` is a multiset.

Whatever is added and deleted, the container is that multiset, and the checks accept it up to the
size that a `uint32_t` counts.
-/

namespace RedisOnC

/-- The `Data`s of the process: the member `node` and the member `val` at each address. -/
structure DataHeap where
  avl : AVLHeap
  val : Ptr → ℕ
  next : Ptr
  live : List Ptr

/-- `struct Container`. -/
structure Container where
  root : Option Ptr := none

/-- An assertion. -/
def check (b : Bool) : Option Unit := if b then some () else none

namespace DataHeap

/-- The heap when the program starts. -/
def init (avl : AVLHeap) (val : Ptr → ℕ) : DataHeap := ⟨avl, val, 0, []⟩

/-- `new Data()`, with the two assignments behind it. -/
def new (H : DataHeap) (val : ℕ) : DataHeap where
  avl := H.avl.set H.next avlInit
  val := Function.update H.val H.next val
  next := H.next + 1
  live := H.next :: H.live

/-- `delete` of a `Data`. -/
def delete (H : DataHeap) (data : Ptr) : Option DataHeap :=
  if data ∈ H.live then some { H with live := H.live.erase data } else none

/-- `*node`, of a node that is not freed. -/
def node (H : DataHeap) (p : Ptr) : Option AVLNode := if p ∈ H.live then some (H.avl p) else none

end DataHeap

namespace Container

/-- One round of the search in `add`, from `cur` and `from`. -/
def addStep (H : DataHeap) (root : Option Ptr) (val : ℕ) (s : Option Ptr × Option Slot) :
    Option ((Option Ptr × Option Slot) ⊕ (Option Ptr × Option Slot)) :=
  match loadFrom H.avl root s.2 with
  | none => some (.inr s)
  | some cur =>
    if val < H.val cur then some (.inl (some cur, some (.left cur)))
    else some (.inl (some cur, some (.right cur)))

def add (H : DataHeap) (c : Container) (val : ℕ) : Option (DataHeap × Container) := do
  let data := H.next
  let H := H.new val
  let (cur, from_) ← whileLoop (addStep H c.root val) (none, none)
  -- `*from = &data->node`; the pointer to the root is assigned once more below
  let avl := from_.elim H.avl (H.avl.store (some data))
  let avl := avl.setParent data cur
  let (avl, root) ← avlFix avl data
  some ({ H with avl := avl }, ⟨some root⟩)

/-- One round of the search in `del`. -/
def delStep (H : DataHeap) (val : ℕ) : Option Ptr → Option (Option Ptr ⊕ Option Ptr)
  | none => some (.inr none)
  | some cur =>
    if val = H.val cur then some (.inr (some cur))
    else some (.inl (if val < H.val cur then (H.avl cur).left else (H.avl cur).right))

def del (H : DataHeap) (c : Container) (val : ℕ) : Option (DataHeap × Container × Bool) := do
  match ← whileLoop (delStep H val) c.root with
  | none => some (H, c, false)
  | some cur =>
    let (avl, root) ← avlDel H.avl cur
    let H ← { H with avl := avl }.delete cur
    some (H, ⟨root⟩, true)

/-- One round of the loop of `dispose`. -/
def disposeStep (s : DataHeap × Container) :
    Option ((DataHeap × Container) ⊕ (DataHeap × Container)) :=
  match s.2.root with
  | none => some (.inr s)
  | some node => do
    let (avl, root) ← avlDel s.1.avl node
    let H ← { s.1 with avl := avl }.delete node
    some (.inl (H, ⟨root⟩))

def dispose (H : DataHeap) (c : Container) : Option (DataHeap × Container) :=
  whileLoop disposeStep (H, c)

end Container

/-- What `avl_verify` checks of a child. -/
def checkChild (H : DataHeap) (node : Ptr) (inOrder : ℕ → Bool) (child : Option Ptr) :
    Option Unit :=
  match child with
  | none => some ()
  | some child => do
    let n ← H.node child
    check (n.parent = some node)
    check (inOrder (H.val child))

def DataHeap.avlVerify (H : DataHeap) (parent node : Option Ptr) : Option Unit := do
  match node with
  | none => some ()
  | some p =>
    let n ← H.node p
    check (n.parent = parent)
    H |>.avlVerify (some p) n.left
    H |>.avlVerify (some p) n.right
    check (n.cnt = (1 + avlCnt H.avl n.left + avlCnt H.avl n.right) % u32Size)
    let l := avlDepth H.avl n.left
    let r := avlDepth H.avl n.right
    check (l = r ∨ l + 1 = r ∨ l = r + 1)
    check (n.depth = 1 + max l r)
    let val := H.val p
    checkChild H p (· ≤ val) n.left
    checkChild H p (· ≥ val) n.right
partial_fixpoint

export DataHeap (avlVerify)

def DataHeap.extract (H : DataHeap) (node : Option Ptr) (extracted : Multiset ℕ) :
    Option (Multiset ℕ) := do
  match node with
  | none => some extracted
  | some p =>
    let n ← H.node p
    let extracted ← H |>.extract n.left extracted
    let extracted := H.val p ::ₘ extracted
    H |>.extract n.right extracted
partial_fixpoint

export DataHeap (extract)

def containerVerify (H : DataHeap) (c : Container) (ref : Multiset ℕ) : Option Unit := do
  avlVerify H none c.root
  check (avlCnt H.avl c.root = ref.card)
  let extracted ← extract H c.root 0
  check (extracted = ref)

/-! ## The search in `add` is the one of `tree_add` -/

open BinaryTree

/-- The same heap with every number as the score of a node without a name. -/
def DataHeap.toZHeap (H : DataHeap) : ZHeap ℕ :=
  ⟨H.avl, fun p ↦ ⟨0, H.val p, []⟩, H.next, H.live⟩

variable {H H' : DataHeap} {c : Container} {t : BinaryTree Ptr} {p : Ptr} {val : ℕ}
  {others : List Ptr} {ref : Multiset ℕ}

theorem DataHeap.zlessNode_toZHeap (H : DataHeap) (p q : Ptr) :
    zlessNode H.toZHeap p q = decide (H.val p < H.val q) := by
  rw [Bool.eq_iff_iff, decide_eq_true_iff, zlessNode,
    zless_iff (Or.inl (by exact Nat.two_pow_pos 32)), TupleLt]
  exact or_iff_left fun h ↦ List.not_lt_nil _ h.2

theorem Container.addStep_eq (root : Option Ptr) (hval : H.val p = val) :
    addStep H root val = treeAddStep H.toZHeap root p := by
  subst hval
  funext s
  rw [addStep, treeAddStep]
  simp only [DataHeap.zlessNode_toZHeap, decide_eq_true_iff]
  rfl

theorem Container.add_eq (H : DataHeap) (c : Container) (val : ℕ) :
    add H c val = (treeAdd (H.new val).toZHeap ⟨c.root, {}⟩ H.next).map fun r ↦
      ({ H.new val with avl := r.1.avl }, ⟨r.2.tree⟩) := by
  have hself : (H.new val).toZHeap.avl H.next = avlInit := AVLHeap.set_self
  have hset : (H.new val).toZHeap.avl.set H.next { (H.new val).toZHeap.avl H.next with
      parent := none, left := none, right := none } = (H.new val).avl := by
    rw [hself]
    exact Function.update_idem ..
  have hstep : addStep (H.new val) c.root val = treeAddStep (H.new val).toZHeap c.root H.next :=
    addStep_eq c.root (Function.update_self ..)
  rw [add, treeAdd, hset]
  dsimp only
  rw [hstep]
  have hheap : { (H.new val).toZHeap with avl := (H.new val).avl } = (H.new val).toZHeap := rfl
  rw [hheap]
  rcases whileLoop (treeAddStep (H.new val).toZHeap c.root H.next) (none, none)
    with _ | ⟨cur, from_⟩
  · rfl
  · dsimp only [Option.bind_eq_bind, Option.bind_some]
    rcases avlFix _ H.next with _ | ⟨avl, root⟩
    · rfl
    · rfl

/-! ## What a container holds -/

/-- The bookkeeping of `new` and `delete`. -/
structure DataHeap.Inv (H : DataHeap) : Prop where
  nodup : H.live.Nodup
  lt_next : ∀ p ∈ H.live, p < H.next

theorem DataHeap.Inv.next_notMem (h : H.Inv) : H.next ∉ H.live := fun hmem ↦
  lt_irrefl _ (h.lt_next _ hmem)

namespace Container

/-- The container stores the search tree `t` of the numbers in `ref`, and the process has allocated
its nodes and the `others`. -/
structure Holds (others : List Ptr) (H : DataHeap) (c : Container) (ref : Multiset ℕ)
    (t : BinaryTree Ptr) : Prop where
  heap : H.Inv
  root_eq : c.root = t.root
  rep : Rep H.avl none t
  balanced : t.Balanced
  owned : H.live.Perm (t.inorder ++ others)
  sorted : t.inorder.Pairwise fun p q ↦ H.val p ≤ H.val q
  content : (t.inorder.map H.val : Multiset ℕ) = ref

namespace Holds

theorem empty (h : H.Inv) (hlive : H.live.Perm others) : Holds others H {} 0 nil :=
  ⟨h, rfl, Rep.nil, trivial, hlive, List.Pairwise.nil, rfl⟩

theorem nodup (h : Holds others H c ref t) : t.inorder.Nodup :=
  (List.nodup_append.mp (h.owned.nodup_iff.mp h.heap.nodup)).1

theorem mem_live (h : Holds others H c ref t) (hp : p ∈ t.inorder) : p ∈ H.live :=
  h.owned.mem_iff.mpr (List.mem_append_left _ hp)

theorem mem_ref (h : Holds others H c ref t) : val ∈ ref ↔ ∃ p ∈ t.inorder, H.val p = val := by
  rw [← h.content, Multiset.mem_coe, List.mem_map]

theorem card_eq (h : Holds others H c ref t) : ref.card = t.numNodes := by
  rw [← h.content, Multiset.coe_card, List.length_map, length_inorder]

end Holds

theorem add_spec (h : Holds others H c ref t) (val : ℕ) :
    ∃ H' c' t', add H c val = some (H', c') ∧ Holds others H' c' (val ::ₘ ref) t' := by
  set goLeft : Ptr → Bool := fun cur ↦ zlessNode (H.new val).toZHeap H.next cur
  have hnext : H.next ∉ t.inorder := fun hmem ↦ h.heap.next_notMem (h.mem_live hmem)
  have hne : ∀ p ∈ t.inorder, p ≠ H.next := fun p hp heq ↦ hnext (heq ▸ hp)
  have hval : ∀ p ∈ t.inorder, (H.new val).val p = H.val p := fun p hp ↦
    Function.update_of_ne (hne p hp) ..
  have hself : (H.new val).val H.next = val := Function.update_self ..
  have hgo : ∀ p ∈ t.inorder, goLeft p = true ↔ val < H.val p := by
    intro p hp
    have hdec : goLeft p = decide ((H.new val).val H.next < (H.new val).val p) :=
      DataHeap.zlessNode_toZHeap ..
    rw [hdec, decide_eq_true_iff, hself, hval p hp]
  have hrep : Rep (H.new val).avl none t := h.rep.congr fun p hp ↦ AVLHeap.set_of_ne (hne p hp)
  have hroot : (⟨c.root, {}⟩ : ZSet).tree = t.root := h.root_eq
  obtain ⟨avl, hcode, hrep', -⟩ :=
    treeAdd_spec (H := (H.new val).toZHeap) hroot hrep h.nodup hnext
  have hperm := inorder_insertAt_perm goLeft H.next t
  refine ⟨{ H.new val with avl := avl }, ⟨(insertAt goLeft H.next t).root⟩,
    insertAt goLeft H.next t, ?_, ?_⟩
  · rw [add_eq, hcode]
    rfl
  · refine ⟨⟨List.nodup_cons.mpr ⟨h.heap.next_notMem, h.heap.nodup⟩, ?_⟩, rfl, hrep',
      h.balanced.insertAt, ?_, ?_, ?_⟩
    · intro p hp
      rcases List.mem_cons.mp hp with rfl | hp
      · exact Nat.lt_succ_self _
      · exact Nat.lt_succ_of_lt (h.heap.lt_next p hp)
    · exact (h.owned.cons _).trans (hperm.symm.append_right others)
    · have hsorted : t.inorder.Pairwise fun p q ↦ (H.new val).val p ≤ (H.new val).val q :=
        h.sorted.imp_of_mem fun hp hq hle ↦ by rwa [hval _ hp, hval _ hq]
      refine pairwise_insertAt hsorted ?_ (fun p hp hleft ↦ ?_) fun p hp hleft ↦ ?_
      · refine h.sorted.imp_of_mem fun {p q} hp hq hle hleft ↦ ?_
        exact (hgo q hq).mpr (((hgo p hp).mp hleft).trans_le hle)
      · rw [hval p hp, hself]
        exact not_lt.mp fun hlt ↦ hleft ((hgo p hp).mpr hlt)
      · rw [hval p hp, hself]
        exact ((hgo p hp).mp hleft).le
    · calc ((insertAt goLeft H.next t).inorder.map (H.new val).val : Multiset ℕ)
          = ((H.next :: t.inorder).map (H.new val).val : Multiset ℕ) :=
            Multiset.coe_eq_coe.mpr (hperm.map _)
        _ = val ::ₘ (t.inorder.map H.val : Multiset ℕ) := by
            rw [List.map_cons, hself, List.map_congr_left hval, Multiset.cons_coe]
        _ = val ::ₘ ref := by rw [h.content]

/-- The search of `del` ends at a node with the number, unless there is none. -/
theorem delStep_spec {par : Option Ptr} (hrep : Rep H.avl par t)
    (hsorted : t.inorder.Pairwise fun p q ↦ H.val p ≤ H.val q) (val : ℕ) :
    ∃ found, whileLoop (delStep H val) t.root = some found ∧
      match found with
      | none => ∀ p ∈ t.inorder, H.val p ≠ val
      | some p => p ∈ t.inorder ∧ H.val p = val := by
  induction t generalizing par with
  | nil => exact ⟨none, WhileLoop.of_exit rfl, fun p hp ↦ (List.not_mem_nil hp).elim⟩
  | node x l r ihl ihr =>
    obtain ⟨hx, hl, hr⟩ := hrep
    rw [inorder_node, List.pairwise_append, List.pairwise_cons] at hsorted
    obtain ⟨hsl, ⟨hxr, hsr⟩, hlx⟩ := hsorted
    simp only [inorder_node, root_node, List.mem_append, List.mem_cons]
    rcases lt_trichotomy val (H.val x) with hlt | heq | hgt
    · obtain ⟨found, hcode, hfound⟩ := ihl hl hsl
      refine ⟨found, ?_, ?_⟩
      · rw [← hcode]
        refine WhileLoop.of_continue ?_
        rw [delStep, if_neg hlt.ne, if_pos hlt, hx]
      · rcases found with _ | p
        · rintro p (hp | rfl | hp)
          · exact hfound p hp
          · exact hlt.ne'
          · exact (hlt.trans_le (hxr p hp)).ne'
        · exact ⟨Or.inl hfound.1, hfound.2⟩
    · exact ⟨some x, WhileLoop.of_exit (by rw [delStep, if_pos heq]), Or.inr (Or.inl rfl), heq.symm⟩
    · obtain ⟨found, hcode, hfound⟩ := ihr hr hsr
      refine ⟨found, ?_, ?_⟩
      · rw [← hcode]
        refine WhileLoop.of_continue ?_
        rw [delStep, if_neg hgt.ne', if_neg hgt.not_gt, hx]
      · rcases found with _ | p
        · rintro p (hp | rfl | hp)
          · exact ((hlx p hp x (List.mem_cons_self ..)).trans_lt hgt).ne
          · exact hgt.ne
          · exact hfound p hp
        · exact ⟨Or.inr (Or.inr hfound.1), hfound.2⟩

theorem Holds.remove (h : Holds others H c ref t) (hp : p ∈ t.inorder) :
    ∃ avl T H', avlDel H.avl p = some (avl, T.root) ∧
      { H with avl := avl }.delete p = some H' ∧
      Holds others H' ⟨T.root⟩ (ref.erase (H.val p)) T ∧ H'.live.length < H.live.length := by
  obtain ⟨avl, T, hcode, hrep, hperm, hsub, -, hbal, -⟩ := avlDel_mem h.rep h.nodup hp
  have hlive := h.mem_live hp
  refine ⟨avl, T, { H with avl := avl, live := H.live.erase p }, hcode, if_pos hlive,
    ⟨⟨h.heap.nodup.erase p, fun q hq ↦ h.heap.lt_next q (List.mem_of_mem_erase hq)⟩, rfl, hrep,
      hbal h.balanced, ?_, h.sorted.sublist hsub, ?_⟩, ?_⟩
  · have herase := (h.owned.trans (hperm.append_right others)).erase p
    rwa [List.cons_append, List.erase_cons_head] at herase
  · rw [← h.content, Multiset.coe_eq_coe.mpr (hperm.map H.val), List.map_cons, ← Multiset.cons_coe,
      Multiset.erase_cons_head]
  · rw [List.length_erase_of_mem hlive]
    exact Nat.sub_one_lt (List.length_pos_of_mem hlive).ne'

theorem del_spec (h : Holds others H c ref t) (val : ℕ) :
    ∃ H' c' t', del H c val = some (H', c', decide (val ∈ ref)) ∧
      Holds others H' c' (ref.erase val) t' := by
  obtain ⟨found, hsearch, hfound⟩ := delStep_spec h.rep h.sorted val
  rw [← h.root_eq] at hsearch
  rcases found with _ | p
  · have hnot : val ∉ ref := fun hmem ↦ by
      obtain ⟨p, hp, hval⟩ := h.mem_ref.mp hmem
      exact hfound p hp hval
    refine ⟨H, c, t, ?_, by rwa [Multiset.erase_of_notMem hnot]⟩
    rw [del, hsearch, decide_eq_false hnot]
    rfl
  · obtain ⟨hp, rfl⟩ := hfound
    obtain ⟨avl, T, H', hdel, hdelete, hholds, -⟩ := h.remove hp
    refine ⟨H', ⟨T.root⟩, T, ?_, hholds⟩
    rw [del, hsearch, decide_eq_true (h.mem_ref.mpr ⟨p, hp, rfl⟩)]
    simp only [Option.bind_eq_bind, Option.bind_some, hdel, hdelete]

theorem disposeStep_spec (h : Holds others H c ref t) :
    (∃ s, disposeStep (H, c) = some (.inl s) ∧ (∃ ref' t', Holds others s.1 s.2 ref' t') ∧
        s.1.live.length < H.live.length) ∨
      disposeStep (H, c) = some (.inr (H, {})) ∧ H.live.Perm others := by
  obtain ⟨root⟩ := c
  obtain rfl : root = t.root := h.root_eq
  cases t with
  | nil => exact Or.inr ⟨rfl, h.owned⟩
  | node x l r =>
    obtain ⟨avl, T, H', hdel, hdelete, hholds, hlen⟩ := h.remove (p := x) (by simp)
    refine Or.inl ⟨(H', ⟨T.root⟩), ?_, ⟨_, _, hholds⟩, hlen⟩
    rw [disposeStep, root_node]
    simp only [Option.bind_eq_bind, hdel, hdelete, Option.bind_some]

/-- **`dispose`.** It frees the nodes of the container. -/
theorem dispose_spec (h : Holds others H c ref t) :
    ∃ H', dispose H c = some (H', {}) ∧ H'.Inv ∧ H'.live.Perm others := by
  have hrun : ∃ r, dispose H c = some r ∧ r.2 = {} ∧ r.1.Inv ∧ r.1.live.Perm others := by
    refine WhileLoop.total (I := fun s ↦ ∃ ref t, Holds others s.1 s.2 ref t)
      (fun s ↦ s.1.live.length) ?_ ⟨ref, t, h⟩
    rintro ⟨H, c⟩ ⟨ref, t, h⟩
    rcases disposeStep_spec h with hround | ⟨hround, hlive⟩
    · exact Or.inl hround
    · exact Or.inr ⟨_, hround, rfl, h.heap, hlive⟩
  obtain ⟨⟨H', _⟩, hcode, rfl, hH'⟩ := hrun
  exact ⟨H', hcode, hH'⟩

end Container

/-! ## What the checks say -/

theorem check_eq_some_iff {b : Bool} {u : Unit} : check b = some u ↔ b = true := by
  cases b <;> simp [check]

theorem check_of {P : Prop} [Decidable P] (h : P) : check (decide P) = some () := by
  rw [check, decide_eq_true h, if_pos rfl]

theorem DataHeap.node_of_mem (hp : p ∈ H.live) : H.node p = some (H.avl p) := if_pos hp

theorem checkChild_root {inOrder : ℕ → Bool} (hrep : Rep H.avl (some p) t)
    (hlive : ∀ x ∈ t.inorder, x ∈ H.live) (horder : ∀ x ∈ t.inorder, inOrder (H.val x) = true) :
    checkChild H p inOrder t.root = some () := by
  cases t with
  | nil => rfl
  | node x l r =>
    have hx : x ∈ (node x l r).inorder := by simp
    rw [root_node, checkChild, DataHeap.node_of_mem (hlive x hx)]
    simp only [Option.bind_eq_bind, Option.bind_some, hrep.1, horder x hx, check,
      if_true, decide_true]

/-- **`avl_verify`.** It accepts every balanced search tree. -/
theorem avlVerify_root {par : Option Ptr} (hrep : Rep H.avl par t) (hbal : t.Balanced)
    (hlive : ∀ x ∈ t.inorder, x ∈ H.live)
    (hsorted : t.inorder.Pairwise fun p q ↦ H.val p ≤ H.val q) :
    avlVerify H par t.root = some () := by
  induction t generalizing par with
  | nil => rw [root_nil, avlVerify]
  | node x l r ihl ihr =>
    obtain ⟨hx, hl, hr⟩ := hrep
    obtain ⟨hlr, hrl, hbl, hbr⟩ := hbal
    rw [inorder_node] at hlive hsorted
    rw [List.pairwise_append, List.pairwise_cons] at hsorted
    obtain ⟨hsl, ⟨hxr, hsr⟩, hlx⟩ := hsorted
    have hlivel : ∀ y ∈ l.inorder, y ∈ H.live := fun y hy ↦ hlive y (List.mem_append_left _ hy)
    have hliver : ∀ y ∈ r.inorder, y ∈ H.live := fun y hy ↦
      hlive y (List.mem_append_right _ (List.mem_cons_of_mem _ hy))
    have hcnt : (1 + l.numNodes % u32Size + r.numNodes % u32Size) % u32Size
        = (node x l r).numNodes % u32Size := by
      rw [numNodes, u32Size]
      omega
    have hbalance : l.height = r.height ∨ l.height + 1 = r.height ∨ l.height = r.height + 1 := by
      omega
    have hdepth : (node x l r).height = 1 + max l.height r.height := by
      rw [height, add_comm]
    rw [root_node, avlVerify, DataHeap.node_of_mem (hlive x (by simp))]
    simp only [Option.bind_eq_bind, Option.bind_some, hx, ihl hl hbl hlivel hsl,
      ihr hr hbr hliver hsr, hl.avlCnt_root, hr.avlCnt_root, hl.avlDepth_root, hr.avlDepth_root,
      hcnt, hbalance, hdepth, check_of]
    rw [checkChild_root hl hlivel, checkChild_root hr hliver]
    · rfl
    · exact fun y hy ↦ decide_eq_true (hxr y hy)
    · exact fun y hy ↦ decide_eq_true (hlx y hy x (List.mem_cons_self ..))

/-- **`extract`.** It inserts the number of every node. -/
theorem extract_root {par : Option Ptr} (hrep : Rep H.avl par t)
    (hlive : ∀ x ∈ t.inorder, x ∈ H.live) (extracted : Multiset ℕ) :
    extract H t.root extracted = some ((t.inorder.map H.val : Multiset ℕ) + extracted) := by
  induction t generalizing par extracted with
  | nil => rw [root_nil, extract]; simp
  | node x l r ihl ihr =>
    obtain ⟨hx, hl, hr⟩ := hrep
    rw [inorder_node] at hlive ⊢
    have hlivel : ∀ y ∈ l.inorder, y ∈ H.live := fun y hy ↦ hlive y (List.mem_append_left _ hy)
    have hliver : ∀ y ∈ r.inorder, y ∈ H.live := fun y hy ↦
      hlive y (List.mem_append_right _ (List.mem_cons_of_mem _ hy))
    rw [root_node, extract, DataHeap.node_of_mem (hlive x (by simp))]
    simp only [Option.bind_eq_bind, Option.bind_some, hx, ihl hl hlivel, ihr hr hliver]
    rw [List.map_append, List.map_cons, ← Multiset.coe_add, ← Multiset.cons_coe,
      Multiset.add_cons, Multiset.add_cons, Multiset.cons_add, ← Multiset.add_assoc,
      Multiset.add_comm (r.inorder.map H.val : Multiset ℕ)]

/-- **`container_verify`.** It compares the container with the right multiset, and accepts that one
as long as its size fits. -/
theorem Container.Holds.containerVerify_iff (h : Holds others H c ref t) (ref' : Multiset ℕ) :
    containerVerify H c ref' = some () ↔ ref' = ref ∧ ref.card < u32Size := by
  have hverify := avlVerify_root h.rep h.balanced (fun _ ↦ h.mem_live) h.sorted
  have hextract := extract_root h.rep (fun _ ↦ h.mem_live) 0
  rw [h.content, Multiset.add_zero] at hextract
  have hcnt : ref.card % u32Size = ref.card ↔ ref.card < u32Size :=
    ⟨fun heq ↦ heq ▸ Nat.mod_lt _ (Nat.two_pow_pos 32), Nat.mod_eq_of_lt⟩
  rw [containerVerify, h.root_eq, hverify, hextract, h.rep.avlCnt_root, ← h.card_eq]
  simp only [Option.bind_eq_bind, Option.bind_some, Option.bind_eq_some_iff, check_eq_some_iff,
    decide_eq_true_iff, exists_const]
  constructor
  · rintro ⟨hcard, rfl⟩
    exact ⟨rfl, hcnt.mp hcard⟩
  · rintro ⟨rfl, hcard⟩
    exact ⟨hcnt.mpr hcard, rfl⟩

/-! ## Sequences of calls -/

/-- A call of `add` or of `del`. -/
inductive ContainerCall
  | add (val : ℕ)
  | del (val : ℕ)

namespace ContainerCall

/-- The call, with the result of `del`. -/
def run (H : DataHeap) (c : Container) : ContainerCall → Option (DataHeap × Container × Option Bool)
  | .add val => (Container.add H c val).map fun s ↦ (s.1, s.2, none)
  | .del val => (Container.del H c val).map fun s ↦ (s.1, s.2.1, some s.2.2)

/-- The same on a multiset. -/
def apply (ref : Multiset ℕ) : ContainerCall → Multiset ℕ × Option Bool
  | .add val => (val ::ₘ ref, none)
  | .del val => (ref.erase val, some (decide (val ∈ ref)))

theorem run_spec (h : c.Holds others H ref t) (call : ContainerCall) :
    ∃ H' c' t', call.run H c = some (H', c', (call.apply ref).2) ∧
      c'.Holds others H' (call.apply ref).1 t' := by
  cases call with
  | add val =>
    obtain ⟨H', c', t', hcode, h'⟩ := Container.add_spec h val
    exact ⟨H', c', t', by rw [run, hcode]; rfl, h'⟩
  | del val =>
    obtain ⟨H', c', t', hcode, h'⟩ := Container.del_spec h val
    exact ⟨H', c', t', by rw [run, hcode]; rfl, h'⟩

/-- Calls one after the other, with their results. -/
def runAll : DataHeap → Container → List ContainerCall →
    Option (DataHeap × Container × List (Option Bool))
  | H, c, [] => some (H, c, [])
  | H, c, call :: calls => do
    let (H, c, reply) ← call.run H c
    let (H, c, replies) ← runAll H c calls
    some (H, c, reply :: replies)

def applyAll : Multiset ℕ → List ContainerCall → Multiset ℕ × List (Option Bool)
  | ref, [] => (ref, [])
  | ref, call :: calls =>
    let (ref, reply) := call.apply ref
    let (ref, replies) := applyAll ref calls
    (ref, reply :: replies)

theorem runAll_spec (h : c.Holds others H ref t) (calls : List ContainerCall) :
    ∃ H' c' t', runAll H c calls = some (H', c', (applyAll ref calls).2) ∧
      c'.Holds others H' (applyAll ref calls).1 t' := by
  induction calls generalizing H c ref t with
  | nil => exact ⟨H, c, t, rfl, h⟩
  | cons call calls ih =>
    obtain ⟨H₁, c₁, t₁, hcode₁, h₁⟩ := call.run_spec h
    obtain ⟨H₂, c₂, t₂, hcode₂, h₂⟩ := ih h₁
    refine ⟨H₂, c₂, t₂, ?_, h₂⟩
    rw [runAll, hcode₁]
    dsimp only [Option.bind_eq_bind, Option.bind_some]
    rw [hcode₂]
    rfl

end ContainerCall

theorem DataHeap.inv_init (avl : AVLHeap) (val : Ptr → ℕ) : (init avl val).Inv :=
  ⟨List.nodup_nil, fun _ hp ↦ (List.not_mem_nil hp).elim⟩

/-- **The container is a multiset.** Whatever is added and deleted, every call of `del` answers as
the multiset does, `container_verify` accepts exactly the multiset that is held, as long as a
`uint32_t` counts it, and `dispose` frees everything. -/
theorem container_refines_multiset (avl : AVLHeap) (val : Ptr → ℕ) (calls : List ContainerCall)
    (ref : Multiset ℕ) :
    ∃ H c, ContainerCall.runAll (.init avl val) {} calls
        = some (H, c, (ContainerCall.applyAll 0 calls).2) ∧
      (containerVerify H c ref = some () ↔
        ref = (ContainerCall.applyAll 0 calls).1 ∧ ref.card < u32Size) ∧
      ∃ H', Container.dispose H c = some (H', {}) ∧ H'.live = [] := by
  have hempty := Container.Holds.empty (DataHeap.inv_init avl val) (List.Perm.refl [])
  obtain ⟨H, c, t, hcode, h⟩ := ContainerCall.runAll_spec hempty calls
  obtain ⟨H', hdispose, -, hlive⟩ := Container.dispose_spec h
  refine ⟨H, c, hcode, ?_, H', hdispose, hlive.eq_nil⟩
  rw [h.containerVerify_iff]
  refine and_congr_right fun href ↦ ?_
  rw [href]

end RedisOnC
