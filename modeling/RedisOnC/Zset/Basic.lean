import RedisOnC.Avl.Basic
import RedisOnC.Hashtable.Basic
import RedisOnC.Lib.ByteOrder

/-!
# The sorted set

`zset.cpp`, function by function. All `ZNode`s of a process live in one heap: `avl` holds their
`tree` members, `znode` the rest, and both are indexed by the address of the node, so that
`my_container_of` is the identity. `malloc` returns a fresh address; freeing an address twice makes
a function return `none`.

Scores are the elements of a linear order. A `double` that is not a NaN behaves like one under `<`
and `!=`, and no NaN gets past `str2dbl`.
-/

namespace RedisOnC

variable {S : Type}

/-- `str_hash`. -/
def strHash (data : Bytes) : ℕ :=
  data.foldl (fun h b ↦ (h + b.toNat) * 0x01000193 % u32Size) 0x811C9DC5

/-- `struct ZNode`, without its `tree` member and without the `next` pointer of its `hmap`. -/
structure ZNode (S : Type) where
  hcode : ℕ
  score : S
  name : Bytes
deriving DecidableEq

/-- The `ZNode`s of the process. -/
structure ZHeap (S : Type) where
  avl : AVLHeap
  znode : Ptr → ZNode S
  next : Ptr
  live : List Ptr

/-- `struct ZSet`. -/
structure ZSet where
  tree : Option Ptr := none
  hmap : HMap Ptr := {}

/-- The `min` of `zset.cpp`, whose result is a `uint32_t`. -/
def zmin (lhs rhs : ℕ) : ℕ := (if lhs < rhs then lhs else rhs) % u32Size

/-- `hcmp`, with the name of the key. -/
def hcmp (H : ZHeap S) (name : Bytes) (node : Ptr) : Bool :=
  if (H.znode node).name.length ≠ name.length then false
  else memcmp (H.znode node).name name (H.znode node).name.length = 0

def znodeNew (H : ZHeap S) (name : Bytes) (score : S) : ZHeap S × Ptr :=
  let node := H.next
  ({ avl := H.avl.set node avlInit
     znode := Function.update H.znode node ⟨strHash name, score, name⟩
     next := node + 1
     live := node :: H.live }, node)

def znodeDel (H : ZHeap S) (node : Ptr) : Option (ZHeap S) :=
  if node ∈ H.live then some { H with live := H.live.erase node } else none

/-- `node->tree`, of a node that is not freed. -/
def ZHeap.tree (H : ZHeap S) (node : Ptr) : Option AVLNode :=
  if node ∈ H.live then some (H.avl node) else none

def ZHeap.treeDispose (H : ZHeap S) (node : Option Ptr) : Option (ZHeap S) := do
  match node with
  | none => some H
  | some p =>
    -- each child is read when it is needed, the right one after the left subtree is freed
    let tree ← H.tree p
    let H ← H |>.treeDispose tree.left
    let tree ← H.tree p
    let H ← H |>.treeDispose tree.right
    znodeDel H p
partial_fixpoint

export ZHeap (treeDispose)

def zsetDispose (H : ZHeap S) (zset : ZSet) : Option (ZHeap S × ZSet) := do
  let H ← treeDispose H zset.tree
  some (H, { zset with hmap := hmDestroy zset.hmap })

def zsetLookup (H : ZHeap S) (zset : ZSet) (name : Bytes) : Option (ZSet × Option Ptr) :=
  if zset.tree.isNone then some (zset, none)
  else do
    let (hmap, found) ← hmLookup zset.hmap (strHash name) (hcmp H name)
    some ({ zset with hmap := hmap }, found.map HNode.val)

section Order

variable [LinearOrder S]

/-- `zless` of a node and a tuple. -/
def zless (zl : ZNode S) (score : S) (name : Bytes) : Bool :=
  if zl.score ≠ score then zl.score < score
  else
    let rv := memcmp zl.name name (zmin zl.name.length name.length)
    if rv ≠ 0 then rv < 0 else zl.name.length < name.length

/-- `zless` of two nodes. -/
def zlessNode (H : ZHeap S) (lhs rhs : Ptr) : Bool :=
  zless (H.znode lhs) (H.znode rhs).score (H.znode rhs).name

/-- `*from`, where `from` is `&zset->tree` (`none`) or a child pointer. -/
def loadFrom (avl : AVLHeap) (tree : Option Ptr) (from_ : Option Slot) : Option Ptr :=
  from_.elim tree avl.load

/-- One round of the search in `tree_add`, from `cur` and `from`. -/
def treeAddStep (H : ZHeap S) (tree : Option Ptr) (node : Ptr) (s : Option Ptr × Option Slot) :
    Option ((Option Ptr × Option Slot) ⊕ (Option Ptr × Option Slot)) :=
  match loadFrom H.avl tree s.2 with
  | none => some (.inr s)
  | some cur =>
    if zlessNode H node cur then some (.inl (some cur, some (.left cur)))
    else some (.inl (some cur, some (.right cur)))

def treeAdd (H : ZHeap S) (zset : ZSet) (node : Ptr) : Option (ZHeap S × ZSet) := do
  let avl := H.avl.set node { H.avl node with parent := none, left := none, right := none }
  let (cur, from_) ← whileLoop (treeAddStep { H with avl := avl } zset.tree node) (none, none)
  -- `*from = &node->tree`; the pointer to the root is assigned once more below
  let avl := from_.elim avl (avl.store (some node))
  let avl := avl.setParent node cur
  let (avl, root) ← avlFix avl node
  some ({ H with avl := avl }, { zset with tree := some root })

def zsetUpdate (H : ZHeap S) (zset : ZSet) (node : Ptr) (score : S) :
    Option (ZHeap S × ZSet) :=
  if (H.znode node).score = score then some (H, zset)
  else do
    let (avl, tree) ← avlDel H.avl node
    let znode := Function.update H.znode node { H.znode node with score := score }
    let avl := avl.set node avlInit
    treeAdd { H with avl := avl, znode := znode } { zset with tree := tree } node

def zsetAdd (H : ZHeap S) (zset : ZSet) (name : Bytes) (score : S) :
    Option (ZHeap S × ZSet × Bool) := do
  let (zset, node) ← zsetLookup H zset name
  match node with
  | some node =>
    let (H, zset) ← zsetUpdate H zset node score
    some (H, zset, false)
  | none =>
    let (H, node) := znodeNew H name score
    let hmap ← hmInsert zset.hmap ⟨(H.znode node).hcode, node⟩
    let (H, zset) ← treeAdd H { zset with hmap := hmap } node
    some (H, zset, true)

def zsetPop (H : ZHeap S) (zset : ZSet) (name : Bytes) :
    Option (ZHeap S × ZSet × Option Ptr) :=
  if zset.tree.isNone then some (H, zset, none)
  else do
    let (hmap, found) ← hmPop zset.hmap (strHash name) (hcmp H name)
    match found with
    | none => some (H, { zset with hmap := hmap }, none)
    | some found =>
      let node := found.val
      let (avl, tree) ← avlDel H.avl node
      some ({ H with avl := avl }, { tree := tree, hmap := hmap }, some node)

/-- One round of the search in `zset_query`, from `found` and `cur`. -/
def zsetQueryStep (H : ZHeap S) (score : S) (name : Bytes) (s : Option Ptr × Option Ptr) :
    Option ((Option Ptr × Option Ptr) ⊕ Option Ptr) :=
  match s with
  | (found, none) => some (.inr found)
  | (found, some cur) =>
    if zless (H.znode cur) score name then some (.inl (found, (H.avl cur).right))
    else some (.inl (some cur, (H.avl cur).left))

def zsetQuery (H : ZHeap S) (zset : ZSet) (score : S) (name : Bytes) : Option (Option Ptr) :=
  whileLoop (zsetQueryStep H score name) (none, zset.tree)

end Order

def znodeOffset (H : ZHeap S) (node : Option Ptr) (offset : ℤ) : Option (Option Ptr) :=
  match node with
  | none => some none
  | some node => avlOffset H.avl node offset

end RedisOnC
