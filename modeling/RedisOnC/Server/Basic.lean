import RedisOnC.Server.Strings
import RedisOnC.Zset.Basic

/-!
# The commands

The database of `server.cpp` and its commands. The heap has three kinds of objects, each with its
own addresses: `Entry`, `ZSet` and `ZNode`. `g_data.db` is a hash map of entries. A command reads
the words after its name and returns what it appends to the reply; a string that has been moved
from is empty.

`none` stands for undefined behaviour and for a command that does not end.
-/

namespace RedisOnC

variable {S : Type}

/-- The `type` of an entry, `T_STR` or `T_ZSET`. -/
inductive EntryType
  | str
  | zset
deriving DecidableEq

/-- `struct Entry`. -/
structure Entry where
  hcode : ℕ := 0
  key : Bytes := []
  val : Bytes := []
  type : EntryType := .str
  zset : Option Ptr := none

/-- The database: `g_data.db`, and the objects on the heap with the addresses that are live. -/
structure Mem (S : Type) where
  db : HMap Ptr
  entry : Ptr → Entry
  entries : List Ptr
  nextEntry : Ptr
  zset : Ptr → ZSet
  zsets : List Ptr
  nextZSet : Ptr
  heap : ZHeap S

/-- `entry_eq`, with the key of the second argument. -/
def entryEq (m : Mem S) (key : Bytes) (p : Ptr) : Bool := (m.entry p).key = key

/-- `new Entry(entry)`. -/
def newEntry (m : Mem S) (entry : Entry) : Mem S × Ptr :=
  ({ m with
    entry := Function.update m.entry m.nextEntry entry
    entries := m.nextEntry :: m.entries
    nextEntry := m.nextEntry + 1 }, m.nextEntry)

/-- `new ZSet()`. -/
def newZSet (m : Mem S) : Mem S × Ptr :=
  ({ m with
    zset := Function.update m.zset m.nextZSet {}
    zsets := m.nextZSet :: m.zsets
    nextZSet := m.nextZSet + 1 }, m.nextZSet)

/-- `delete` of an entry. -/
def deleteEntry (m : Mem S) (p : Ptr) : Option (Mem S) :=
  if p ∈ m.entries then some { m with entries := m.entries.erase p } else none

/-- `delete` of a set. -/
def deleteZSet (m : Mem S) (z : Ptr) : Option (Mem S) :=
  if z ∈ m.zsets then some { m with zsets := m.zsets.erase z } else none

/-- `entry_del`. The entry and its set are read before they are freed. -/
def entryDel (m : Mem S) (ent : Ptr) : Option (Mem S) :=
  if ent ∉ m.entries then none
  else
    match (m.entry ent).type with
    | .zset => do
      let z ← (m.entry ent).zset
      if z ∉ m.zsets then none
      else
        let (heap, zset) ← zsetDispose m.heap (m.zset z)
        let m ← deleteZSet { m with heap := heap, zset := Function.update m.zset z zset } z
        deleteEntry m ent
    | .str => deleteEntry m ent

/-- `hm_lookup` of a key in the database. -/
def dbLookup (m : Mem S) (key : Bytes) : Option (Mem S × Option Ptr) := do
  let (db, node) ← hmLookup m.db (strHash key) (entryEq m key)
  some ({ m with db := db }, node.map HNode.val)

/-- `hm_insert` of an entry into the database. -/
def dbInsert (m : Mem S) (p : Ptr) : Option (Mem S) := do
  let db ← hmInsert m.db ⟨(m.entry p).hcode, p⟩
  some { m with db := db }

def doGet (m : Mem S) (key : Bytes) : Option (Mem S × Bytes) := do
  let (m, node) ← dbLookup m key
  match node with
  | none => some (m, outNil)
  | some p => some (m, outStr (m.entry p).val)

/-- The value of a string that is moved from, and what is left of the string. -/
def moved (s : Bytes) : Bytes × Bytes := (s, [])

def doSet (m : Mem S) (key cmd2 : Bytes) : Option (Mem S × Bytes) := do
  -- `entry.val = std::move(cmd[2])`
  let (val, cmd2) := moved cmd2
  let (m, node) ← dbLookup m key
  match node with
  | none =>
    let (m, p) := newEntry m { hcode := strHash key, key := key, val := val }
    let m ← dbInsert m p
    some (m, outNil)
  | some p =>
    -- `existing_entry->val = std::move(cmd[2])`
    let (val, _) := moved cmd2
    some ({ m with entry := Function.update m.entry p { m.entry p with val := val } }, outNil)

def doDel (m : Mem S) (key : Bytes) : Option (Mem S × Bytes) := do
  let (db, node) ← hmPop m.db (strHash key) (entryEq m key)
  let m := { m with db := db }
  match node with
  | none => some (m, outInt 0)
  | some node =>
    let m ← deleteEntry m node.val
    some (m, outInt 1)

def doKeys (m : Mem S) : Option (Mem S × Bytes) := do
  let nodes1 ← hScan m.db.ht1
  let nodes2 ← hScan m.db.ht2
  let cbScan : HNode Ptr → Bytes := fun node ↦ outStr (m.entry node.val).key
  some (m, outArr (hmSize m.db) ++ nodes1.flatMap cbScan ++ nodes2.flatMap cbScan)

/-- `expect_zset`: the entry, or the reply that says why there is none. -/
def expectZSet (m : Mem S) (key : Bytes) : Option (Mem S × (Bytes ⊕ Ptr)) := do
  let (m, node) ← dbLookup m key
  match node with
  | none => some (m, .inl outNil)
  | some p =>
    if (m.entry p).type ≠ .zset then some (m, .inl (outErr errType (ascii "expect zset")))
    else some (m, .inr p)

section Commands

variable [Score S]

/-- The end of `do_zadd`: add the tuple to the set of an entry. -/
def zaddTo (m : Mem S) (ent : Ptr) (name : Bytes) (score : S) : Option (Mem S × Bytes) := do
  let z ← (m.entry ent).zset
  let (heap, zset, added) ← zsetAdd m.heap (m.zset z) name score
  some ({ m with heap := heap, zset := Function.update m.zset z zset },
    outInt (if added then 1 else 0))

def doZadd (m : Mem S) (key cmd2 name : Bytes) : Option (Mem S × Bytes) :=
  match (str2dbl cmd2 : Option S) with
  | none => some (m, outErr errArg (ascii "expect fp number"))
  | some score => do
    let (m, hnode) ← dbLookup m key
    match hnode with
    | none =>
      let (m, z) := newZSet m
      let (m, ent) := newEntry m
        { hcode := strHash key, key := key, type := .zset, zset := some z }
      let m ← dbInsert m ent
      zaddTo m ent name score
    | some ent =>
      if (m.entry ent).type ≠ .zset then some (m, outErr errType (ascii "expect zset"))
      else zaddTo m ent name score

def doZrem (m : Mem S) (key name : Bytes) : Option (Mem S × Bytes) := do
  let (m, found) ← expectZSet m key
  match found with
  | .inl out => some (m, out)
  | .inr ent =>
    let z ← (m.entry ent).zset
    let (heap, zset, znode) ← zsetPop m.heap (m.zset z) name
    let m := { m with heap := heap, zset := Function.update m.zset z zset }
    match znode with
    | none => some (m, outInt 0)
    | some p =>
      let heap ← znodeDel m.heap p
      some ({ m with heap := heap }, outInt 1)

def doZscore (m : Mem S) (key name : Bytes) : Option (Mem S × Bytes) := do
  let (m, found) ← expectZSet m key
  match found with
  | .inl out => some (m, out)
  | .inr ent =>
    let z ← (m.entry ent).zset
    let (zset, znode) ← zsetLookup m.heap (m.zset z) name
    let m := { m with zset := Function.update m.zset z zset }
    match znode with
    | none => some (m, outNil)
    | some p => some (m, outDbl (Score.bytes (m.heap.znode p).score))

/-- One round of the output loop of `do_zquery`: the reply so far, the `uint32_t` count and the
node to come. -/
def zqueryStep (H : ZHeap S) (limit : ℤ) (s : Bytes × ℕ × Option Ptr) :
    Option ((Bytes × ℕ × Option Ptr) ⊕ (Bytes × ℕ)) :=
  match s with
  | (out, n, none) => some (.inr (out, n))
  | (out, n, some p) =>
    if (n : ℤ) < limit then do
      let name := (H.znode p).name
      let out := out ++ outStrN name name.length ++ outDbl (Score.bytes (H.znode p).score)
      let znode ← znodeOffset H (some p) 1
      some (.inl (out, (n + 2) % u32Size, znode))
    else some (.inr (out, n))

/-- `do_zquery` from its third step on, for the set of an entry. -/
def zqueryIn (m : Mem S) (ent : Ptr) (score : S) (name : Bytes) (offset limit : ℤ) :
    Option Bytes :=
  if limit ≤ 0 then some (outArr 0)
  else do
    let z ← (m.entry ent).zset
    let znode ← zsetQuery m.heap (m.zset z) score name
    let znode ← znodeOffset m.heap znode offset
    let (out, arr) := beginArr []
    let (out, n) ← whileLoop (zqueryStep m.heap limit) (out, 0, znode)
    endArr out arr n

def doZquery (m : Mem S) (key cmd2 name cmd4 cmd5 : Bytes) : Option (Mem S × Bytes) :=
  match (str2dbl cmd2 : Option S) with
  | none => some (m, outErr errArg (ascii "expect fp number"))
  | some score =>
    match str2int cmd4 with
    | none => some (m, outErr errArg (ascii "expect int"))
    | some offset =>
      match str2int cmd5 with
      | none => some (m, outErr errArg (ascii "expect int"))
      | some limit => do
        let (m, found) ← expectZSet m key
        match found with
        | .inl out => some (m, if out[0]? = some serNil then outArr 0 else out)
        | .inr ent =>
          let out ← zqueryIn m ent score name offset limit
          some (m, out)

/-- The reply to a command that is not recognized. -/
def unknownCmd : Bytes := outErr errUnknown (ascii "Unknown cmd")

/-- `do_request`. The tests on `cmd.size()` are the shape of the list. -/
def doRequest (m : Mem S) (cmd : List Bytes) : Option (Mem S × Bytes) :=
  match cmd with
  | [word] => if cmdIs word (ascii "keys") then doKeys m else some (m, unknownCmd)
  | [word, key] =>
    if cmdIs word (ascii "get") then doGet m key
    else if cmdIs word (ascii "del") then doDel m key
    else some (m, unknownCmd)
  | [word, key, arg] =>
    if cmdIs word (ascii "set") then doSet m key arg
    else if cmdIs word (ascii "zrem") then doZrem m key arg
    else if cmdIs word (ascii "zscore") then doZscore m key arg
    else some (m, unknownCmd)
  | [word, key, score, name] =>
    if cmdIs word (ascii "zadd") then doZadd m key score name else some (m, unknownCmd)
  | [word, key, score, name, offset, limit] =>
    if cmdIs word (ascii "zquery") then doZquery m key score name offset limit
    else some (m, unknownCmd)
  | _ => some (m, unknownCmd)

end Commands

/-- The database at the start of the server. The contents of cells that are not live are
arbitrary. -/
def Mem.init (entry : Ptr → Entry) (zset : Ptr → ZSet) (avl : AVLHeap) (znode : Ptr → ZNode S) :
    Mem S :=
  { db := {}, entry := entry, entries := [], nextEntry := 0, zset := zset, zsets := [],
    nextZSet := 0, heap := { avl := avl, znode := znode, next := 0, live := [] } }

end RedisOnC
