import RedisOnC.Lib.WhileLoop
import Mathlib.Data.List.Basic

/-!
# The progressively resized hash map

`hashtable.cpp`, function by function. A chain is the list of the nodes that the `next` pointers
run through, and a node carries its hash code and the object it is embedded in. The address of the
pointer that leads to a node (an `HNode **` in the source) is a slot together with a place in its
chain, so unlinking through it removes that element.

The comparison `eq(node, key)` of a lookup is a predicate on objects, with the key already applied.
An access outside a table, and a failed `assert`, make a function return `none`.
-/

namespace RedisOnC

variable {α : Type}

/-- `struct HNode`, with the object around it in place of the `next` pointer. -/
structure HNode (α : Type) where
  hcode : ℕ
  val : α
deriving DecidableEq

/-- `struct HTab`. -/
structure HTab (α : Type) where
  tab : Option (List (List (HNode α))) := none
  mask : ℕ := 0
  size : ℕ := 0

/-- `struct HMap`: `ht1` is the newer table. -/
structure HMap (α : Type) where
  ht1 : HTab α := {}
  ht2 : HTab α := {}
  resizingPos : ℕ := 0

/-- A slot and a place in its chain. -/
abbrev ChainPos := ℕ × ℕ

def kResizingWork : ℕ := 128

def kMaxLoadFactor : ℕ := 8

def hInit (n : ℕ) : Option (HTab α) :=
  if 0 < n ∧ (n - 1) &&& n = 0 then
    some { tab := some (List.replicate n []), mask := n - 1, size := 0 }
  else none

def hInsert (htab : HTab α) (node : HNode α) : Option (HTab α) := do
  let slots ← htab.tab
  let pos := node.hcode &&& htab.mask
  let next ← slots[pos]?
  some { htab with tab := some (slots.set pos (node :: next)), size := htab.size + 1 }

def hLookup (htab : HTab α) (hcode : ℕ) (eq : α → Bool) : Option (Option ChainPos) :=
  match htab.tab with
  | none => some none
  | some slots => do
    let pos := hcode &&& htab.mask
    let chain ← slots[pos]?
    some ((chain.findIdx? fun cur ↦ cur.hcode == hcode && eq cur.val).map fun i ↦ (pos, i))

/-- The node that `*from` points to. -/
def hLoad (htab : HTab α) (from_ : ChainPos) : Option (HNode α) := do
  let slots ← htab.tab
  let chain ← slots[from_.1]?
  chain[from_.2]?

def hDetach (htab : HTab α) (from_ : ChainPos) : Option (HTab α × HNode α) := do
  let slots ← htab.tab
  let chain ← slots[from_.1]?
  let node ← chain[from_.2]?
  let slots := slots.set from_.1 (chain.eraseIdx from_.2)
  some ({ htab with tab := some slots, size := htab.size - 1 }, node)

def hmStartResizing (hmap : HMap α) : Option (HMap α) :=
  match hmap.ht2.tab with
  | some _ => none
  | none => do
    let ht1 ← hInit ((hmap.ht1.mask + 1) * 2)
    some { ht1 := ht1, ht2 := hmap.ht1, resizingPos := 0 }

/-- One round of the loop of `hm_help_resizing`, with the number of nodes moved so far. -/
def hmHelpStep (s : HMap α × ℕ) : Option ((HMap α × ℕ) ⊕ HMap α) :=
  let (hmap, nwork) := s
  if nwork < kResizingWork ∧ hmap.ht2.size > 0 then do
    let slots ← hmap.ht2.tab
    let chain ← slots[hmap.resizingPos]?
    match chain with
    | [] => some (.inl ({ hmap with resizingPos := hmap.resizingPos + 1 }, nwork))
    | _ :: _ =>
      let (ht2, toInserted) ← hDetach hmap.ht2 (hmap.resizingPos, 0)
      let ht1 ← hInsert hmap.ht1 toInserted
      some (.inl ({ hmap with ht1 := ht1, ht2 := ht2 }, nwork + 1))
  else some (.inr hmap)

def hmHelpResizing (hmap : HMap α) : Option (HMap α) := do
  let hmap ← whileLoop hmHelpStep (hmap, 0)
  if hmap.ht2.size = 0 ∧ hmap.ht2.tab.isSome then
    some { hmap with ht2 := {} }
  else some hmap

/-- The load check of `hm_insert`. -/
def hmCheckLoad (hmap : HMap α) : Option (HMap α) :=
  if hmap.ht2.tab.isNone ∧ hmap.ht1.size / (hmap.ht1.mask + 1) > kMaxLoadFactor then
    hmStartResizing hmap
  else some hmap

def hmInsert (hmap : HMap α) (node : HNode α) : Option (HMap α) := do
  let ht1 ← (if hmap.ht1.tab.isNone then hInit 4 else some hmap.ht1 : Option (HTab α))
  let ht1 ← hInsert ht1 node
  let hmap ← hmCheckLoad { hmap with ht1 := ht1 }
  hmHelpResizing hmap

def hmLookup (hmap : HMap α) (hcode : ℕ) (eq : α → Bool) :
    Option (HMap α × Option (HNode α)) := do
  let hmap ← hmHelpResizing hmap
  match ← hLookup hmap.ht1 hcode eq with
  | some from_ =>
    let node ← hLoad hmap.ht1 from_
    some (hmap, some node)
  | none =>
    match ← hLookup hmap.ht2 hcode eq with
    | some from_ =>
      let node ← hLoad hmap.ht2 from_
      some (hmap, some node)
    | none => some (hmap, none)

def hmPop (hmap : HMap α) (hcode : ℕ) (eq : α → Bool) :
    Option (HMap α × Option (HNode α)) := do
  let hmap ← hmHelpResizing hmap
  match ← hLookup hmap.ht1 hcode eq with
  | some from_ =>
    let (ht1, node) ← hDetach hmap.ht1 from_
    some ({ hmap with ht1 := ht1 }, some node)
  | none =>
    match ← hLookup hmap.ht2 hcode eq with
    | some from_ =>
      let (ht2, node) ← hDetach hmap.ht2 from_
      some ({ hmap with ht2 := ht2 }, some node)
    | none => some (hmap, none)

def hmSize (hmap : HMap α) : ℕ := hmap.ht1.size + hmap.ht2.size

/-- `hm_destroy`. It frees the two tables and not the nodes. -/
def hmDestroy (_ : HMap α) : HMap α := {}

/-- `h_scan`: the nodes in the order in which the callback sees them. -/
def hScan (tab : HTab α) : Option (List (HNode α)) :=
  if tab.size = 0 then some []
  else do
    let slots ← tab.tab
    let chains ← (List.range (tab.mask + 1)).mapM fun i ↦ slots[i]?
    some chains.flatten

end RedisOnC
