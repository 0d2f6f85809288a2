import RedisOnC.Protocol.Response
import RedisOnC.Server.Commands

/-!
# The values of the replies

`do_request` once more, with a value in the place of what each call of an `out_` function appends to
the reply. An array is the list of what is written between its header and its end, so its count is
the number of these values, whatever the code writes for it. `doRequest_eq_value` says that the code
replies the spelling of this value.
-/

namespace RedisOnC

variable {S : Type}

/-- `out_str` of a pointer and a size. -/
def Value.strN (s : Bytes) (size : ℕ) : Value := .str (s.take (size % 2 ^ 32))

def doGetValue (m : Mem S) (key : Bytes) : Option (Mem S × Value) := do
  let (m, node) ← dbLookup m key
  match node with
  | none => some (m, .nil)
  | some p => some (m, .str (m.entry p).val)

/-- Both branches of `do_set` end with `out_nil`. -/
def doSetValue (m : Mem S) (key cmd2 : Bytes) : Option (Mem S × Value) := do
  let (m, _) ← doSet m key cmd2
  some (m, .nil)

def doDelValue (m : Mem S) (key : Bytes) : Option (Mem S × Value) := do
  let (db, node) ← hmPop m.db (strHash key) (entryEq m key)
  let m := { m with db := db }
  match node with
  | none => some (m, .int 0)
  | some node =>
    let m ← deleteEntry m node.val
    some (m, .int 1)

def doKeysValue (m : Mem S) : Option (Mem S × Value) := do
  let nodes1 ← hScan m.db.ht1
  let nodes2 ← hScan m.db.ht2
  some (m, .arr ((nodes1 ++ nodes2).map fun node ↦ .str (m.entry node.val).key))

def expectZSetValue (m : Mem S) (key : Bytes) : Option (Mem S × (Value ⊕ Ptr)) := do
  let (m, node) ← dbLookup m key
  match node with
  | none => some (m, .inl .nil)
  | some p =>
    if (m.entry p).type ≠ .zset then some (m, .inl (.err errType (ascii "expect zset")))
    else some (m, .inr p)

section Commands

variable [Score S]

def zaddToValue (m : Mem S) (ent : Ptr) (name : Bytes) (score : S) : Option (Mem S × Value) := do
  let z ← (m.entry ent).zset
  let (heap, zset, added) ← zsetAdd m.heap (m.zset z) name score
  some ({ m with heap := heap, zset := Function.update m.zset z zset },
    .int (if added then 1 else 0))

def doZaddValue (m : Mem S) (key cmd2 name : Bytes) : Option (Mem S × Value) :=
  match (str2dbl cmd2 : Option S) with
  | none => some (m, .err errArg (ascii "expect fp number"))
  | some score => do
    let (m, hnode) ← dbLookup m key
    match hnode with
    | none =>
      let (m, z) := newZSet m
      let (m, ent) := newEntry m
        { hcode := strHash key, key := key, type := .zset, zset := some z }
      let m ← dbInsert m ent
      zaddToValue m ent name score
    | some ent =>
      if (m.entry ent).type ≠ .zset then some (m, .err errType (ascii "expect zset"))
      else zaddToValue m ent name score

def doZremValue (m : Mem S) (key name : Bytes) : Option (Mem S × Value) := do
  let (m, found) ← expectZSetValue m key
  match found with
  | .inl v => some (m, v)
  | .inr ent =>
    let z ← (m.entry ent).zset
    let (heap, zset, znode) ← zsetPop m.heap (m.zset z) name
    let m := { m with heap := heap, zset := Function.update m.zset z zset }
    match znode with
    | none => some (m, .int 0)
    | some p =>
      let heap ← znodeDel m.heap p
      some ({ m with heap := heap }, .int 1)

def doZscoreValue (m : Mem S) (key name : Bytes) : Option (Mem S × Value) := do
  let (m, found) ← expectZSetValue m key
  match found with
  | .inl v => some (m, v)
  | .inr ent =>
    let z ← (m.entry ent).zset
    let (zset, znode) ← zsetLookup m.heap (m.zset z) name
    let m := { m with zset := Function.update m.zset z zset }
    match znode with
    | none => some (m, .nil)
    | some p =>
      let score := (m.heap.znode p).score
      some (m, .dbl (Score.bytes score) (Score.length_bytes score))

/-- What a round of the output loop of `do_zquery` writes for a node. -/
def pairValues (H : ZHeap S) (p : Ptr) : List Value :=
  [.strN (H.znode p).name (H.znode p).name.length,
    .dbl (Score.bytes (H.znode p).score) (Score.length_bytes _)]

/-- One round of this loop: the values so far, the `uint32_t` count and the node to come. -/
def zqueryValueStep (H : ZHeap S) (limit : ℤ) (s : List Value × ℕ × Option Ptr) :
    Option ((List Value × ℕ × Option Ptr) ⊕ (List Value × ℕ)) :=
  match s with
  | (vs, n, none) => some (.inr (vs, n))
  | (vs, n, some p) =>
    if (n : ℤ) < limit then do
      let znode ← znodeOffset H (some p) 1
      some (.inl (vs ++ pairValues H p, (n + 2) % u32Size, znode))
    else some (.inr (vs, n))

def zqueryInValue (m : Mem S) (ent : Ptr) (score : S) (name : Bytes) (offset limit : ℤ) :
    Option Value :=
  if limit ≤ 0 then some (.arr [])
  else do
    let z ← (m.entry ent).zset
    let znode ← zsetQuery m.heap (m.zset z) score name
    let znode ← znodeOffset m.heap znode offset
    let (vs, _) ← whileLoop (zqueryValueStep m.heap limit) ([], 0, znode)
    some (.arr vs)

def doZqueryValue (m : Mem S) (key cmd2 name cmd4 cmd5 : Bytes) : Option (Mem S × Value) :=
  match (str2dbl cmd2 : Option S) with
  | none => some (m, .err errArg (ascii "expect fp number"))
  | some score =>
    match str2int cmd4 with
    | none => some (m, .err errArg (ascii "expect int"))
    | some offset =>
      match str2int cmd5 with
      | none => some (m, .err errArg (ascii "expect int"))
      | some limit => do
        let (m, found) ← expectZSetValue m key
        match found with
        | .inl v => some (m, if v.tag = serNil then .arr [] else v)
        | .inr ent =>
          let v ← zqueryInValue m ent score name offset limit
          some (m, v)

/-- The value of the reply of `do_request`. -/
def doRequestValue (m : Mem S) (cmd : List Bytes) : Option (Mem S × Value) :=
  match Request.ofCmd cmd with
  | .keys => doKeysValue m
  | .get key => doGetValue m key
  | .set key val => doSetValue m key val
  | .del key => doDelValue m key
  | .zadd key score name => doZaddValue m key score name
  | .zrem key name => doZremValue m key name
  | .zscore key name => doZscoreValue m key name
  | .zquery key score name offset limit => doZqueryValue m key score name offset limit
  | .unknown => some (m, .err errUnknown (ascii "Unknown cmd"))

end Commands

/-! ## The replies are their spellings -/

/-- What is replied for a value. -/
def spell (r : Mem S × Value) : Mem S × Bytes := (r.1, r.2.encode)

variable {m : Mem S}

theorem doGet_eq_value (m : Mem S) (key : Bytes) : doGet m key = (doGetValue m key).map spell := by
  rw [doGet, doGetValue]
  rcases dbLookup m key with _ | ⟨m', _ | p⟩ <;> rfl

theorem doSet_eq_value (m : Mem S) (key cmd2 : Bytes) :
    doSet m key cmd2 = (doSetValue m key cmd2).map spell := by
  have hnil : ∀ m' out, doSet m key cmd2 = some (m', out) → out = outNil := by
    intro m' out h
    rw [doSet] at h
    rcases hlook : dbLookup m key with _ | ⟨m₁, _ | p⟩
    · rw [hlook] at h
      cases h
    · rw [hlook] at h
      simp only [Option.bind_eq_bind, Option.bind_some] at h
      obtain ⟨m₂, -, heq⟩ := Option.bind_eq_some_iff.mp h
      exact (congrArg Prod.snd (Option.some_inj.mp heq)).symm
    · rw [hlook] at h
      exact (congrArg Prod.snd (Option.some_inj.mp h)).symm
  rw [doSetValue]
  rcases h : doSet m key cmd2 with _ | ⟨m', out⟩
  · rfl
  · rw [hnil m' out h]
    rfl

theorem doDel_eq_value (m : Mem S) (key : Bytes) : doDel m key = (doDelValue m key).map spell := by
  rw [doDel, doDelValue]
  rcases hmPop m.db (strHash key) (entryEq m key) with _ | ⟨db, _ | n⟩
  · rfl
  · rfl
  · simp only [Option.bind_eq_bind, Option.bind_some]
    rcases deleteEntry { m with db := db } n.val with _ | m' <;> rfl

theorem encodeAll_map_str (l : List Bytes) :
    Value.encodeAll (l.map .str) = l.flatMap outStr := by
  induction l with
  | nil => rfl
  | cons s l ih =>
    rw [List.map_cons, Value.encodeAll, ih, List.flatMap_cons]
    rfl

theorem doKeys_eq_value (h : m.db.Inv) : doKeys m = (doKeysValue m).map spell := by
  have hsize : hmSize m.db = m.db.nodes.length := h.hmSize_eq
  rw [doKeys, doKeysValue, hScan_spec h.ht1, hScan_spec h.ht2, hsize]
  simp only [Option.bind_eq_bind, Option.bind_some, Option.map_some, spell, Value.encode,
    HMap.nodes]
  have hstr : (m.db.ht1.nodes ++ m.db.ht2.nodes).map (fun node ↦ Value.str (m.entry node.val).key)
      = ((m.db.ht1.nodes ++ m.db.ht2.nodes).map fun node ↦ (m.entry node.val).key).map .str := by
    rw [List.map_map]
    rfl
  rw [hstr, encodeAll_map_str, List.length_map, List.length_map, List.flatMap_map,
    List.flatMap_append, List.append_assoc]

/-- What `expect_zset` replies is a spelling as well. -/
def spellSum (r : Mem S × (Value ⊕ Ptr)) : Mem S × (Bytes ⊕ Ptr) := (r.1, r.2.map Value.encode id)

theorem expectZSet_eq_value (m : Mem S) (key : Bytes) :
    expectZSet m key = (expectZSetValue m key).map spellSum := by
  rw [expectZSet, expectZSetValue]
  rcases dbLookup m key with _ | ⟨m', _ | p⟩
  · rfl
  · rfl
  · simp only [Option.bind_eq_bind, Option.bind_some]
    by_cases htype : (m'.entry p).type ≠ .zset
    · rw [if_pos htype, if_pos htype]
      rfl
    · rw [if_neg htype, if_neg htype]
      rfl

theorem doZrem_eq_value (m : Mem S) (key name : Bytes) :
    doZrem m key name = (doZremValue m key name).map spell := by
  rw [doZrem, doZremValue, expectZSet_eq_value]
  rcases expectZSetValue m key with _ | ⟨m', v | p⟩
  · rfl
  · rfl
  · simp only [Option.bind_eq_bind, Option.map_some, Option.bind_some, spellSum, Sum.map_inr, id_eq]
    rcases (m'.entry p).zset with _ | z
    · rfl
    simp only [Option.bind_some]
    rcases zsetPop m'.heap (m'.zset z) name with _ | ⟨heap, zset, _ | q⟩
    · rfl
    · rfl
    simp only [Option.bind_some]
    rcases znodeDel heap q with _ | heap' <;> rfl

section Commands

variable [Score S]

theorem zaddTo_eq_value (m : Mem S) (ent : Ptr) (name : Bytes) (score : S) :
    zaddTo m ent name score = (zaddToValue m ent name score).map spell := by
  rw [zaddTo, zaddToValue]
  rcases (m.entry ent).zset with _ | z
  · rfl
  · simp only [Option.bind_eq_bind, Option.bind_some]
    rcases zsetAdd m.heap (m.zset z) name score with _ | ⟨heap, zset, added⟩ <;> rfl

theorem doZadd_eq_value (m : Mem S) (key cmd2 name : Bytes) :
    doZadd m key cmd2 name = (doZaddValue m key cmd2 name).map spell := by
  rw [doZadd, doZaddValue]
  rcases (str2dbl cmd2 : Option S) with _ | score
  · rfl
  rcases dbLookup m key with _ | ⟨m', _ | p⟩
  · rfl
  · simp only [Option.bind_eq_bind, Option.bind_some, zaddTo_eq_value]
    rw [Option.map_bind]
    rfl
  · simp only [Option.bind_eq_bind, Option.bind_some, zaddTo_eq_value]
    by_cases htype : (m'.entry p).type ≠ .zset
    · rw [if_pos htype, if_pos htype]
      rfl
    · rw [if_neg htype, if_neg htype]

theorem doZscore_eq_value (m : Mem S) (key name : Bytes) :
    doZscore m key name = (doZscoreValue m key name).map spell := by
  rw [doZscore, doZscoreValue, expectZSet_eq_value]
  rcases expectZSetValue m key with _ | ⟨m', v | p⟩
  · rfl
  · rfl
  · simp only [Option.bind_eq_bind, Option.map_some, Option.bind_some, spellSum, Sum.map_inr, id_eq]
    rcases (m'.entry p).zset with _ | z
    · rfl
    simp only [Option.bind_some]
    rcases zsetLookup m'.heap (m'.zset z) name with _ | ⟨zset, _ | q⟩ <;> rfl

/-! ## The array of a query -/

theorem encodeAll_append (vs ws : List Value) :
    Value.encodeAll (vs ++ ws) = Value.encodeAll vs ++ Value.encodeAll ws := by
  induction vs with
  | nil => rfl
  | cons v vs ih =>
    rw [List.cons_append, Value.encodeAll, ih, Value.encodeAll, List.append_assoc]

theorem encode_strN (s : Bytes) (size : ℕ) (h : size ≤ s.length) :
    (Value.strN s size).encode = outStrN s size := by
  have hlen : (s.take (size % 2 ^ 32)).length = size % 256 ^ 4 := by
    rw [List.length_take]
    omega
  rw [Value.strN, Value.encode, outStr, hlen, leBytes_mod, outStrN]

theorem encodeAll_pairValues (H : ZHeap S) (p : Ptr) :
    Value.encodeAll (pairValues H p) = outNode H p := by
  rw [pairValues, Value.encodeAll, Value.encodeAll, Value.encodeAll, encode_strN _ _ le_rfl,
    List.append_nil]
  rfl

/-- The two loops do the same rounds. -/
private theorem zqueryStep_eq_value (H : ZHeap S) (limit : ℤ) (s : List Value × ℕ × Option Ptr) :
    zqueryStep H limit ((beginArr []).1 ++ Value.encodeAll s.1, s.2)
      = (zqueryValueStep H limit s).map (Sum.map
          (fun s ↦ ((beginArr []).1 ++ Value.encodeAll s.1, s.2))
          fun r ↦ ((beginArr []).1 ++ Value.encodeAll r.1, r.2)) := by
  obtain ⟨vs, n, _ | p⟩ := s
  · rfl
  · simp only [zqueryStep, zqueryValueStep]
    by_cases hn : (n : ℤ) < limit
    · rw [if_pos hn, if_pos hn]
      simp only [Option.bind_eq_bind]
      rcases znodeOffset H (some p) 1 with _ | q
      · rfl
      · simp only [Option.bind_some, Option.map_some, Sum.map_inl, encodeAll_append,
          encodeAll_pairValues, List.append_assoc]
        rfl
    · rw [if_neg hn, if_neg hn]
      rfl

/-- The count is the number of values, as a `uint32_t`. -/
private theorem zqueryValue_count {H : ZHeap S} {limit : ℤ} {q : Option Ptr}
    {r : List Value × ℕ} (h : whileLoop (zqueryValueStep H limit) ([], 0, q) = some r) :
    r.2 = r.1.length % u32Size := by
  refine WhileLoop.partialCorrect
    (I := fun s : List Value × ℕ × Option Ptr ↦ s.2.1 = s.1.length % u32Size)
    (Q := fun r ↦ r.2 = r.1.length % u32Size) ?_ ?_ rfl h
  · rintro ⟨vs, n, _ | p⟩ s' hn hstep
    · cases hstep
    · simp only [zqueryValueStep] at hstep
      split at hstep
      · obtain ⟨q', -, heq⟩ := Option.bind_eq_some_iff.mp hstep
        obtain rfl := Sum.inl.inj (Option.some_inj.mp heq)
        change n = vs.length % u32Size at hn
        change (n + 2) % u32Size = (vs ++ pairValues H p).length % u32Size
        rw [List.length_append, hn, Nat.mod_add_mod]
        rfl
      · cases hstep
  · rintro ⟨vs, n, _ | p⟩ r hn hstep
    · obtain rfl := Sum.inr.inj (Option.some_inj.mp hstep)
      exact hn
    · simp only [zqueryValueStep] at hstep
      split at hstep
      · obtain ⟨q', -, heq⟩ := Option.bind_eq_some_iff.mp hstep
        cases heq
      · obtain rfl := Sum.inr.inj (Option.some_inj.mp hstep)
        exact hn

/-- The array is the spelling of the list of the values in it, also where its count was filled in
behind them. -/
theorem zqueryIn_eq_value (m : Mem S) (ent : Ptr) (score : S) (name : Bytes) (offset limit : ℤ) :
    zqueryIn m ent score name offset limit
      = (zqueryInValue m ent score name offset limit).map Value.encode := by
  rw [zqueryIn, zqueryInValue]
  by_cases hlim : limit ≤ 0
  · rw [if_pos hlim, if_pos hlim]
    rfl
  rw [if_neg hlim, if_neg hlim]
  rcases (m.entry ent).zset with _ | z
  · rfl
  simp only [Option.bind_eq_bind, Option.bind_some]
  rcases zsetQuery m.heap (m.zset z) score name with _ | found
  · rfl
  simp only [Option.bind_some]
  rcases znodeOffset m.heap found offset with _ | node
  · rfl
  have hloop := WhileLoop.map _ _ (zqueryStep_eq_value m.heap limit) ([], 0, node)
  rw [Value.encodeAll, List.append_nil] at hloop
  simp only [Option.bind_some]
  rw [hloop]
  rcases hvalues : whileLoop (zqueryValueStep m.heap limit) ([], 0, node) with _ | ⟨vs, n⟩
  · rfl
  · have hcount : n = vs.length % u32Size := zqueryValue_count hvalues
    rw [Option.map_some, Option.bind_some, endArr_append, hcount, outArr_congr (Nat.mod_mod _ _)]
    rfl

theorem doZquery_eq_value (m : Mem S) (key cmd2 name cmd4 cmd5 : Bytes) :
    doZquery m key cmd2 name cmd4 cmd5 = (doZqueryValue m key cmd2 name cmd4 cmd5).map spell := by
  rw [doZquery, doZqueryValue]
  rcases (str2dbl cmd2 : Option S) with _ | score
  · rfl
  rcases str2int cmd4 with _ | offset
  · rfl
  rcases str2int cmd5 with _ | limit
  · rfl
  simp only [expectZSet_eq_value]
  rcases expectZSetValue m key with _ | ⟨m', v | p⟩
  · rfl
  · simp only [Option.bind_eq_bind, Option.map_some, Option.bind_some, spellSum, Sum.map_inl, spell]
    -- the first byte tells a missing set from one of another type
    have htag : v.encode[0]? = some v.tag := by
      rw [Value.encode_eq]
      rfl
    rw [htag]
    by_cases hnil : v.tag = serNil
    · rw [if_pos hnil, if_pos (congrArg some hnil)]
      rfl
    · rw [if_neg hnil, if_neg (mt Option.some_inj.mp hnil)]
  · simp only [Option.bind_eq_bind, Option.map_some, Option.bind_some, spellSum, Sum.map_inr, id_eq,
      zqueryIn_eq_value]
    rcases zqueryInValue m' p score name offset limit with _ | v <;> rfl

/-- **The reply is the spelling of its value**, and there is none where there is no reply. -/
theorem doRequest_eq_value (h : m.db.Inv) (cmd : List Bytes) :
    doRequest m cmd = (doRequestValue m cmd).map spell := by
  rw [Request.doRequest_eq, doRequestValue]
  cases Request.ofCmd cmd with
  | keys => exact doKeys_eq_value h
  | get key => exact doGet_eq_value m key
  | set key val => exact doSet_eq_value m key val
  | del key => exact doDel_eq_value m key
  | zadd key score name => exact doZadd_eq_value m key score name
  | zrem key name => exact doZrem_eq_value m key name
  | zscore key name => exact doZscore_eq_value m key name
  | zquery key score name offset limit => exact doZquery_eq_value m key score name offset limit
  | unknown => rfl

end Commands

end RedisOnC
