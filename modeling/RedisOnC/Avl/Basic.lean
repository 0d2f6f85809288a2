import RedisOnC.Lib.WhileLoop
import Mathlib.Logic.Function.Basic

/-!
# The intrusive AVL tree

`avl.cpp`, function by function. An `AVLNode` is embedded in the object it indexes, so the tree code
sees only addresses: a heap gives the `AVLNode` at each of them, `NULL` is `none`, and an assignment
to a field is an update of the heap. Reading through a null pointer makes a function return `none`.

`depth` is a plain natural number. It is a `uint32_t` in the source, but a balanced tree whose depth
did not fit would have more nodes than there are addresses (`BinaryTree.Balanced.two_pow_le`).
`cnt` wraps, as do the two unsigned expressions of `avlOffset`.
-/

namespace RedisOnC

/-- The address of an object. -/
abbrev Ptr := ℕ

/-- `struct AVLNode`. -/
structure AVLNode where
  depth : ℕ := 0
  cnt : ℕ := 0
  left : Option Ptr := none
  right : Option Ptr := none
  parent : Option Ptr := none
deriving DecidableEq, Inhabited

/-- The `AVLNode` at each address. -/
abbrev AVLHeap := Ptr → AVLNode

/-- The range of `uint32_t`. -/
abbrev u32Size : ℕ := 2 ^ 32

namespace AVLHeap

variable (h : AVLHeap) (p : Ptr) (v : Option Ptr)

/-- `*p = n`. -/
def set (n : AVLNode) : AVLHeap := Function.update h p n

/-- `p->left = v`. -/
def setLeft : AVLHeap := h.set p { h p with left := v }

/-- `p->right = v`. -/
def setRight : AVLHeap := h.set p { h p with right := v }

/-- `p->parent = v`. -/
def setParent : AVLHeap := h.set p { h p with parent := v }

/-- `if (p) p->parent = v`. -/
def setParent? (p : Option Ptr) : AVLHeap :=
  match p with
  | none => h
  | some p => h.setParent p v

end AVLHeap

/-- The address of a child pointer, `&p->left` or `&p->right`. -/
inductive Slot
  | left (p : Ptr)
  | right (p : Ptr)
deriving DecidableEq

namespace AVLHeap

/-- `*from`. -/
def load (h : AVLHeap) : Slot → Option Ptr
  | .left p => (h p).left
  | .right p => (h p).right

/-- `*from = v`. -/
def store (h : AVLHeap) (v : Option Ptr) : Slot → AVLHeap
  | .left p => h.setLeft p v
  | .right p => h.setRight p v

end AVLHeap

/-- What `avl_init` writes. -/
def avlInit : AVLNode := { depth := 1, cnt := 1 }

def avlDepth (h : AVLHeap) : Option Ptr → ℕ
  | none => 0
  | some p => (h p).depth

def avlCnt (h : AVLHeap) : Option Ptr → ℕ
  | none => 0
  | some p => (h p).cnt

def avlUpdate (h : AVLHeap) (node : Ptr) : AVLHeap :=
  h.set node { h node with
    depth := 1 + max (avlDepth h (h node).left) (avlDepth h (h node).right)
    cnt := (1 + avlCnt h (h node).left + avlCnt h (h node).right) % u32Size }

def rotLeft (h : AVLHeap) (node : Ptr) : Option (AVLHeap × Ptr) := do
  let newNode ← (h node).right
  let h := h.setParent? (some node) (h newNode).left
  let h := h.setRight node (h newNode).left
  let h := h.setLeft newNode (some node)
  let h := h.setParent newNode (h node).parent
  let h := h.setParent node (some newNode)
  let h := avlUpdate h node
  let h := avlUpdate h newNode
  some (h, newNode)

def rotRight (h : AVLHeap) (node : Ptr) : Option (AVLHeap × Ptr) := do
  let newNode ← (h node).left
  let h := h.setParent? (some node) (h newNode).right
  let h := h.setLeft node (h newNode).right
  let h := h.setRight newNode (some node)
  let h := h.setParent newNode (h node).parent
  let h := h.setParent node (some newNode)
  let h := avlUpdate h node
  let h := avlUpdate h newNode
  some (h, newNode)

def avlFixLeft (h : AVLHeap) (root : Ptr) : Option (AVLHeap × Ptr) := do
  let left ← (h root).left
  if avlDepth h (h left).left < avlDepth h (h left).right then
    let (h, b) ← rotLeft h left
    rotRight (h.setLeft root (some b)) root
  else
    rotRight h root

def avlFixRight (h : AVLHeap) (root : Ptr) : Option (AVLHeap × Ptr) := do
  let right ← (h root).right
  if avlDepth h (h right).right < avlDepth h (h right).left then
    let (h, b) ← rotRight h right
    rotLeft (h.setRight root (some b)) root
  else
    rotLeft h root

/-- The middle of the loop of `avl_fix`: rotate `node` if one side is too deep. -/
def avlRebalance (h : AVLHeap) (node : Ptr) : Option (AVLHeap × Ptr) :=
  let l := avlDepth h (h node).left
  let r := avlDepth h (h node).right
  if l > r + 1 then avlFixLeft h node
  else if r > l + 1 then avlFixRight h node
  else some (h, node)

/-- The child pointer of `parent` that leads to `node`, by the test the source uses throughout. -/
def childSlot (h : AVLHeap) (parent node : Ptr) : Slot :=
  if (h parent).left = some node then .left parent else .right parent

/-- One round of the loop of `avl_fix`. -/
def avlFixStep (s : AVLHeap × Ptr) : Option ((AVLHeap × Ptr) ⊕ (AVLHeap × Ptr)) := do
  let (h, node) := s
  let h := avlUpdate h node
  let from? := (h node).parent.map fun parent ↦ childSlot h parent node
  let (h, node) ← avlRebalance h node
  match from? with
  | none => some (.inr (h, node))
  | some slot =>
    let h := h.store (some node) slot
    let parent ← (h node).parent
    some (.inl (h, parent))

def avlFix (h : AVLHeap) (node : Ptr) : Option (AVLHeap × Ptr) :=
  whileLoop avlFixStep (h, node)

/-- `while (victim->left) victim = victim->left`. -/
def avlLeftmost (h : AVLHeap) (node : Ptr) : Option Ptr :=
  whileLoop (fun victim ↦ match (h victim).left with
    | some l => some (.inl l)
    | none => some (.inr victim)) node

/-- The end of `avl_del`: the victim takes over the cell of `node` and its place in the tree. -/
def avlTakeOver (h : AVLHeap) (victim node : Ptr) (root : Option Ptr) : AVLHeap × Option Ptr :=
  -- `*victim = *node`
  let h := h.set victim (h node)
  let h := h.setParent? (some victim) (h victim).left
  let h := h.setParent? (some victim) (h victim).right
  match (h node).parent with
  | some parent => (h.store (some victim) (childSlot h parent node), root)
  | none => (h, some victim)

def AVLHeap.avlDel (h : AVLHeap) (node : Ptr) : Option (AVLHeap × Option Ptr) :=
  match (h node).right with
  | none =>
    let parent := (h node).parent
    let h := h.setParent? parent (h node).left
    match parent with
    | some parent =>
      (avlFix (h.store (h node).left (childSlot h parent node)) parent).map
        fun (h, root) ↦ (h, some root)
    | none => some (h, (h node).left)
  | some right => do
    let victim ← avlLeftmost h right
    let (h, root) ← h |>.avlDel victim
    some (avlTakeOver h victim node root)
partial_fixpoint

export AVLHeap (avlDel)

/-- One round of the loop of `avl_offset`, from a node and its position relative to the start. The
two right-hand sides added to `pos` on the way down are `uint32_t` expressions. -/
def avlOffsetStep (h : AVLHeap) (offset : ℤ) (s : Ptr × ℤ) : Option ((Ptr × ℤ) ⊕ Option Ptr) := do
  let (node, pos) := s
  if offset = pos then
    some (.inr (some node))
  else if pos < offset ∧ pos + avlCnt h (h node).right ≥ offset then
    let node ← (h node).right
    some (.inl (node, pos + ((avlCnt h (h node).left + u32Size - 1) % u32Size : ℕ)))
  else if pos > offset ∧ pos - avlCnt h (h node).left ≤ offset then
    let node ← (h node).left
    some (.inl (node, pos - ((avlCnt h (h node).left + 1) % u32Size : ℕ)))
  else
    match (h node).parent with
    | none => some (.inr none)
    | some parent =>
      if (h parent).right = some node then
        some (.inl (parent, pos - ((avlCnt h (h node).left + 1) % u32Size : ℕ)))
      else
        some (.inl (parent, pos + ((avlCnt h (h node).right + 1) % u32Size : ℕ)))

def avlOffset (h : AVLHeap) (node : Ptr) (offset : ℤ) : Option (Option Ptr) :=
  whileLoop (avlOffsetStep h offset) (node, 0)

end RedisOnC
