import RedisOnC.Avl.Basic
import RedisOnC.Hashtable.Basic

/-!
# The hash map in memory

`hashtable.cpp` once more, with its pointers. An `HNode` is a cell of memory that holds the pointer
`next`, and an `HNode **` is the address of a slot or of a `next`. A read or a write through a null
pointer or of a node that is not allocated makes a function return `none`, as does a place outside a
table.

The memory is what the rest of the program sees of the map: it allocates the nodes that it inserts
and may free those that it has popped.
-/

namespace RedisOnC

namespace Linked

variable {β κ : Type}

/-- `struct HNode`, with what the comparison reads of the object around it. -/
structure HNode (β : Type) where
  next : Option Ptr
  hcode : ℕ
  obj : β

/-- The nodes that are allocated. -/
abbrev HHeap (β : Type) := Ptr → Option (HNode β)

/-- `struct HTab`. -/
structure HTab where
  tab : Option (List (Option Ptr)) := none
  mask : ℕ := 0
  size : ℕ := 0

/-- `struct HMap`. -/
structure HMap where
  ht1 : HTab := {}
  ht2 : HTab := {}
  resizingPos : ℕ := 0

/-- An `HNode **`: `&tab[pos]`, or `&p->next`. -/
inductive From
  | slot (pos : ℕ)
  | next (p : Ptr)

/-- `*from`. -/
def load (H : HHeap β) (htab : HTab) : From → Option (Option Ptr)
  | .slot pos => do
    let slots ← htab.tab
    slots[pos]?
  | .next p => (H p).map HNode.next

/-- `*from = v`. -/
def store (H : HHeap β) (htab : HTab) (v : Option Ptr) : From → Option (HHeap β × HTab)
  | .slot pos => do
    let slots ← htab.tab
    if pos < slots.length then some (H, { htab with tab := some (slots.set pos v) }) else none
  | .next p => do
    let cell ← H p
    some (Function.update H p (some { cell with next := v }), htab)

def hInit (n : ℕ) : Option HTab :=
  if 0 < n ∧ (n - 1) &&& n = 0 then
    some { tab := some (List.replicate n none), mask := n - 1, size := 0 }
  else none

def hInsert (H : HHeap β) (htab : HTab) (node : Ptr) : Option (HHeap β × HTab) := do
  let cell ← H node
  let pos := cell.hcode &&& htab.mask
  let slots ← htab.tab
  let next ← slots[pos]?
  let H := Function.update H node (some { cell with next := next })
  some (H, { htab with tab := some (slots.set pos (some node)), size := htab.size + 1 })

/-- One round of the loop in `h_lookup`, from `from` and `cur`. -/
def hLookupStep (H : HHeap β) (hcode : ℕ) (eq : β → Bool) (s : From × Option Ptr) :
    Option ((From × Option Ptr) ⊕ Option From) :=
  match s with
  | (_, none) => some (.inr none)
  | (from_, some cur) => do
    let cell ← H cur
    if cell.hcode = hcode ∧ eq cell.obj = true then some (.inr (some from_))
    else some (.inl (.next cur, cell.next))

def hLookup (H : HHeap β) (htab : HTab) (hcode : ℕ) (eq : β → Bool) : Option (Option From) :=
  match htab.tab with
  | none => some none
  | some slots => do
    let pos := hcode &&& htab.mask
    let cur ← slots[pos]?
    whileLoop (hLookupStep H hcode eq) (.slot pos, cur)

def hDetach (H : HHeap β) (htab : HTab) (from_ : From) : Option (HHeap β × HTab × Ptr) := do
  let node ← load H htab from_
  let node ← node
  let cell ← H node
  let (H, htab) ← store H htab cell.next from_
  some (H, { htab with size := htab.size - 1 }, node)

def hmStartResizing (hmap : HMap) : Option HMap :=
  match hmap.ht2.tab with
  | some _ => none
  | none => do
    let ht1 ← hInit ((hmap.ht1.mask + 1) * 2)
    some { ht1 := ht1, ht2 := hmap.ht1, resizingPos := 0 }

/-- One round of the loop of `hm_help_resizing`. -/
def hmHelpStep (s : HHeap β × HMap × ℕ) : Option ((HHeap β × HMap × ℕ) ⊕ (HHeap β × HMap)) :=
  let (H, hmap, nwork) := s
  if nwork < kResizingWork ∧ hmap.ht2.size > 0 then do
    let from_ := From.slot hmap.resizingPos
    let node ← load H hmap.ht2 from_
    match node with
    | none => some (.inl (H, { hmap with resizingPos := hmap.resizingPos + 1 }, nwork))
    | some _ =>
      let (H, ht2, toInserted) ← hDetach H hmap.ht2 from_
      let (H, ht1) ← hInsert H hmap.ht1 toInserted
      some (.inl (H, { hmap with ht1 := ht1, ht2 := ht2 }, nwork + 1))
  else some (.inr (H, hmap))

def hmHelpResizing (H : HHeap β) (hmap : HMap) : Option (HHeap β × HMap) := do
  let (H, hmap) ← whileLoop hmHelpStep (H, hmap, 0)
  if hmap.ht2.size = 0 ∧ hmap.ht2.tab.isSome then
    some (H, { hmap with ht2 := {} })
  else some (H, hmap)

/-- The load check of `hm_insert`. -/
def hmCheckLoad (hmap : HMap) : Option HMap :=
  if hmap.ht2.tab.isNone ∧ hmap.ht1.size / (hmap.ht1.mask + 1) > kMaxLoadFactor then
    hmStartResizing hmap
  else some hmap

def hmInsert (H : HHeap β) (hmap : HMap) (node : Ptr) : Option (HHeap β × HMap) := do
  let ht1 ← (if hmap.ht1.tab.isNone then hInit 4 else some hmap.ht1 : Option HTab)
  let (H, ht1) ← hInsert H ht1 node
  let hmap ← hmCheckLoad { hmap with ht1 := ht1 }
  hmHelpResizing H hmap

def hmLookup (H : HHeap β) (hmap : HMap) (hcode : ℕ) (eq : β → Bool) :
    Option (HHeap β × HMap × Option Ptr) := do
  let (H, hmap) ← hmHelpResizing H hmap
  match ← hLookup H hmap.ht1 hcode eq with
  | some from_ =>
    let node ← load H hmap.ht1 from_
    some (H, hmap, node)
  | none =>
    match ← hLookup H hmap.ht2 hcode eq with
    | some from_ =>
      let node ← load H hmap.ht2 from_
      some (H, hmap, node)
    | none => some (H, hmap, none)

def hmPop (H : HHeap β) (hmap : HMap) (hcode : ℕ) (eq : β → Bool) :
    Option (HHeap β × HMap × Option Ptr) := do
  let (H, hmap) ← hmHelpResizing H hmap
  match ← hLookup H hmap.ht1 hcode eq with
  | some from_ =>
    let (H, ht1, node) ← hDetach H hmap.ht1 from_
    some (H, { hmap with ht1 := ht1 }, some node)
  | none =>
    match ← hLookup H hmap.ht2 hcode eq with
    | some from_ =>
      let (H, ht2, node) ← hDetach H hmap.ht2 from_
      some (H, { hmap with ht2 := ht2 }, some node)
    | none => some (H, hmap, none)

/-- One round of the inner loop of `h_scan`, with the nodes for which the callback was called. -/
def hScanStep (H : HHeap β) (s : List Ptr × Option Ptr) :
    Option ((List Ptr × Option Ptr) ⊕ List Ptr) :=
  match s with
  | (seen, none) => some (.inr seen)
  | (seen, some node) => do
    let cell ← H node
    some (.inl (seen ++ [node], cell.next))

/-- `h_scan`: the nodes in the order in which the callback sees them. -/
def hScan (H : HHeap β) (tab : HTab) : Option (List Ptr) :=
  if tab.size = 0 then some []
  else do
    let slots ← tab.tab
    (List.range (tab.mask + 1)).foldlM (fun seen i ↦ do
      let node ← slots[i]?
      whileLoop (hScanStep H) (seen, node)) []

end Linked

end RedisOnC
