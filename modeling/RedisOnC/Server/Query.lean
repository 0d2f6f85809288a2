import RedisOnC.Server.Keyspace
import RedisOnC.Avl.Terminates

/-!
# Windows of a sorted set

What `ZQUERY` must list, and when it does. A query goes from node to node with `avl_offset`: one
jump to the first tuple, and one step forward for every tuple it lists. `Follows` says that the
steps are right. The reply is the window if and only if the jump and the steps are right, and these
are right at the places that `Avl.Offset` spares.
-/

open BinaryTree

namespace RedisOnC

open Request

variable {S : Type} [Score S]

/-! ## The output loop -/

variable {H : ZHeap S} {t : BinaryTree Ptr} {l : List Ptr} {limit : ℤ} {out : Bytes} {n c : ℕ}
  {p : Ptr} {q : Option Ptr}

/-- The nodes of the list come one after the other under `avl_offset`, as far as the loop goes that
may list `c` of them. The step behind the last one only has to end. -/
def Follows (h : AVLHeap) : List Ptr → ℕ → Prop
  | p :: l, c + 1 => (∃ q, avlOffset h p 1 = some q ∧ (0 < c → q = l.head?)) ∧ Follows h l c
  | _, _ => True

theorem zqueryStep_exit (hn : q = none ∨ limit ≤ n) :
    zqueryStep H limit (out, n, q) = some (.inr (out, n)) := by
  cases q with
  | none => rfl
  | some p => exact if_neg (not_lt.mpr (hn.resolve_left (Option.some_ne_none p)))

theorem zqueryStep_some (hn : (n : ℤ) < limit) : zqueryStep H limit (out, n, some p)
    = (avlOffset H.avl p 1).map fun q ↦ .inl (out ++ outNode H p, (n + 2) % u32Size, q) := by
  have hstep : zqueryStep H limit (out, n, some p) = (do
      let znode ← avlOffset H.avl p 1
      some (.inl (out ++ outStrN (H.znode p).name (H.znode p).name.length
        ++ outDbl (Score.bytes (H.znode p).score), (n + 2) % u32Size, znode))) := if_pos hn
  rw [hstep, List.append_assoc]
  cases avlOffset H.avl p 1 <;> rfl

/-- Two nodes with the same name begin the same way, and no others do. -/
theorem name_eq_of_outNode {p p' : Ptr} {rest rest' : Bytes}
    (hp : (H.znode p).name.length < u32Size) (hp' : (H.znode p').name.length < u32Size)
    (h : outNode H p ++ rest = outNode H p' ++ rest') :
    (H.znode p).name = (H.znode p').name := by
  rw [outNode, outNode, outPair, outPair, outStrN, outStrN, Nat.mod_eq_of_lt hp,
    Nat.mod_eq_of_lt hp', List.take_length, List.take_length] at h
  simp only [List.cons_append, List.append_assoc] at h
  obtain ⟨hlen, hname⟩ := leBytes_append_inj hp hp' (List.cons_injective h)
  exact (List.append_inj hname hlen).1

/-- What the loop needs of the set it lists. -/
structure Listable (H : ZHeap S) (t : BinaryTree Ptr) : Prop where
  rep : Rep H.avl none t
  nodup : t.inorder.Nodup
  names : (t.inorder.map fun p ↦ (H.znode p).name).Nodup
  short : ∀ p ∈ t.inorder, (H.znode p).name.length < u32Size

/-- **The output loop** lists the nodes of a list if and only if it starts with the first of them
and the steps from one to the next are right. -/
theorem zqueryLoop_iff (ht : Listable H t) (hl : ∀ p ∈ l, p ∈ t.inorder)
    (hq : ∀ p, q = some p → p ∈ t.inorder) (hn : n + 2 * (l.take c).length < u32Size)
    (hc : c = pairLimit (limit - n)) :
    whileLoop (zqueryStep H limit) (out, n, q)
        = some (out ++ (l.take c).flatMap (outNode H), n + 2 * (l.take c).length) ↔
      (0 < c → q = l.head?) ∧ Follows H.avl l c := by
  induction c generalizing l out n q with
  | zero =>
    have hlim : limit ≤ n := by
      rw [pairLimit] at hc
      omega
    rw [WhileLoop.of_exit (zqueryStep_exit (Or.inr hlim))]
    cases l <;> simp [Follows]
  | succ c ih =>
    have hlim : (n : ℤ) < limit := by
      rw [pairLimit] at hc
      omega
    have hc' : c = pairLimit (limit - (n + 2 : ℕ)) := by
      rw [pairLimit] at hc ⊢
      omega
    cases q with
    | none =>
      rw [WhileLoop.of_exit (zqueryStep_exit (Or.inl rfl))]
      cases l with
      | nil => simp [Follows]
      | cons e l => simp [outNode, outPair, outStrN]
    | some p =>
      cases hnext : avlOffset H.avl p 1 with
      | none =>
        have hstuck : zqueryStep H limit (out, n, some p) = none := by
          rw [zqueryStep_some hlim, hnext, Option.map_none]
        rw [WhileLoop.of_stuck hstuck]
        constructor
        · intro hloop
          cases hloop
        · rintro ⟨hhead, hfollows⟩
          cases l with
          | nil => exact absurd (hhead (Nat.succ_pos c)) (Option.some_ne_none p)
          | cons e l =>
            obtain rfl := Option.some_inj.mp (hhead (Nat.succ_pos c))
            obtain ⟨⟨q', hq', -⟩, -⟩ := hfollows
            exact absurd (hnext.symm.trans hq') (by simp)
      | some r =>
        have hround : zqueryStep H limit (out, n, some p)
            = some (.inl (out ++ outNode H p, (n + 2) % u32Size, r)) := by
          rw [zqueryStep_some hlim, hnext, Option.map_some]
        rw [WhileLoop.of_continue hround]
        cases l with
        | nil =>
          constructor
          · intro hloop
            obtain ⟨ps, -, hps⟩ := zqueryLoop_spec (Nat.mod_lt _ (Nat.two_pow_pos 32)) hloop
            have hlen := congrArg (List.length ∘ Prod.fst) hps
            simp [outNode, outPair, outStrN] at hlen
          · rintro ⟨hhead, -⟩
            exact absurd (hhead (Nat.succ_pos c)) (Option.some_ne_none p)
        | cons e l =>
          have he : e ∈ t.inorder := hl e (List.mem_cons_self ..)
          rw [List.take_succ_cons, List.length_cons] at hn
          rw [Nat.mod_eq_of_lt (by omega), List.take_succ_cons, List.flatMap_cons,
            List.length_cons, show n + 2 * ((l.take c).length + 1)
              = n + 2 + 2 * (l.take c).length from by ring]
          by_cases hpe : p = e
          · subst hpe
            rw [← List.append_assoc, ih (fun x hx ↦ hl x (List.mem_cons_of_mem _ hx))
              (fun x hx ↦ ht.rep.avlOffset_mem he (hx ▸ hnext)) (by omega) hc']
            constructor
            · rintro ⟨hhead, hfollows⟩
              exact ⟨fun _ ↦ rfl, ⟨r, hnext, hhead⟩, hfollows⟩
            · rintro ⟨-, ⟨q', hq', hhead⟩, hfollows⟩
              obtain rfl := Option.some_inj.mp (hnext.symm.trans hq')
              exact ⟨hhead, hfollows⟩
          · -- another node has another name
            constructor
            · intro hloop
              obtain ⟨ps, -, hps⟩ := zqueryLoop_spec (by omega) hloop
              have hbytes := (Prod.mk.inj hps).1
              rw [List.append_assoc, List.append_right_inj] at hbytes
              have hp := hq p rfl
              exact absurd (List.inj_on_of_nodup_map ht.names hp he
                (name_eq_of_outNode (ht.short p hp) (ht.short e he) hbytes.symm)) hpe
            · rintro ⟨hhead, -⟩
              exact absurd (Option.some_inj.mp (hhead (Nat.succ_pos c))) hpe

/-! ## The whole query -/

variable {m m' : Mem S} {trees : Ptr → BinaryTree Ptr} {K : Keyspace S} {ordered : Prop}
  {zs : ZSet} {score : S} {key name cmd2 cmd4 cmd5 : Bytes} {offset : ℤ} {i : ℕ}

/-- The reply that lists a window. -/
def windowReply (w : List (S × Bytes)) : Bytes :=
  outArr (2 * w.length) ++ w.flatMap fun x ↦ outPair x.swap

theorem windowReply_map (H : ZHeap S) (l : List Ptr) :
    windowReply (l.map H.tuple) = outArr (2 * l.length) ++ l.flatMap (outNode H) := by
  rw [windowReply, List.length_map, List.flatMap_map]
  rfl

/-- The jump to the start of the window and the steps through it are right. -/
def Reached (h : AVLHeap) (l : List Ptr) (i : ℕ) (offset limit : ℤ) : Prop :=
  (∃ v, l[i]? = some v ∧ avlOffset h v offset = some (elemAt l (i + offset))) ∧
    Follows h (dropFrom l (i + offset)) (pairLimit limit)

theorem zqueryLoop_endArr (hl : 2 * l.length < u32Size) :
    ((whileLoop (zqueryStep H limit) ((beginArr []).1, 0, q)).bind fun r ↦
        endArr r.1 (beginArr []).2 r.2) = some (outArr (2 * l.length) ++ l.flatMap (outNode H)) ↔
      whileLoop (zqueryStep H limit) ((beginArr []).1, 0, q)
        = some ((beginArr []).1 ++ l.flatMap (outNode H), 0 + 2 * l.length) := by
  constructor
  · intro h
    obtain ⟨r, hloop, hend⟩ := Option.bind_eq_some_iff.mp h
    obtain ⟨ps, -, rfl⟩ := zqueryLoop_spec (Nat.two_pow_pos 32) hloop
    rw [endArr_append, Option.some_inj] at hend
    obtain ⟨hhead, hbody⟩ := List.append_inj hend rfl
    have hcount : (0 + 2 * ps.length) % u32Size = 2 * l.length := by
      have hbytes : leBytes 4 ((0 + 2 * ps.length) % u32Size) = leBytes 4 (2 * l.length) :=
        List.cons_injective hhead
      have hmod : (0 + 2 * ps.length) % u32Size < 256 ^ 4 := Nat.mod_lt _ (Nat.two_pow_pos 32)
      rw [← ofLEBytes_leBytes_of_lt hmod, hbytes, ofLEBytes_leBytes_of_lt hl]
    rw [hloop, hbody, hcount, Nat.zero_add]
  · intro hloop
    rw [hloop, Option.bind_some, endArr_append, Nat.zero_add]

private theorem reached_iff {h : AVLHeap} {v : Ptr} (hv : l[i]? = some v) :
    (∀ j, some i = some j → Reached h l j offset limit) ↔
      avlOffset h v offset = some (elemAt l (i + offset)) ∧
        Follows h (dropFrom l (i + offset)) (pairLimit limit) := by
  constructor
  · intro h
    obtain ⟨⟨v', hv', hoff⟩, hfollows⟩ := h i rfl
    rw [hv, Option.some_inj] at hv'
    exact ⟨hv' ▸ hoff, hfollows⟩
  · rintro ⟨hoff, hfollows⟩ j hj
    obtain rfl := Option.some_inj.mp hj
    exact ⟨⟨_, hv, hoff⟩, hfollows⟩

private theorem zqueryJump_iff (ht : Listable H t) (hlim : 0 < limit) (hi : i < t.inorder.length)
    (hcount : 2 * ((dropFrom t.inorder (i + offset)).take (pairLimit limit)).length < u32Size) :
    ((avlOffset H.avl t.inorder[i] offset).bind fun q ↦
        (whileLoop (zqueryStep H limit) ((beginArr []).1, 0, q)).bind fun r ↦
          endArr r.1 (beginArr []).2 r.2)
        = some (windowReply
          (((dropFrom t.inorder (i + offset)).take (pairLimit limit)).map H.tuple)) ↔
      avlOffset H.avl t.inorder[i] offset = some (elemAt t.inorder (i + offset)) ∧
        Follows H.avl (dropFrom t.inorder (i + offset)) (pairLimit limit) := by
  have hsuffix := dropFrom_suffix t.inorder (i + offset)
  have hpos : 0 < pairLimit limit := by
    rw [pairLimit]
    omega
  rw [windowReply_map]
  rcases hoff : avlOffset H.avl t.inorder[i] offset with _ | q
  · -- the jump does not end
    rw [Option.bind_none]
    exact iff_of_false (by simp) (by simp)
  · have hq : ∀ p, q = some p → p ∈ t.inorder := fun p hp ↦
      ht.rep.avlOffset_mem (List.getElem_mem hi) (hp ▸ hoff)
    rw [Option.bind_some, zqueryLoop_endArr hcount,
      zqueryLoop_iff ht (fun x hx ↦ hsuffix.subset hx) hq (by rw [Nat.zero_add]; exact hcount)
        (by rw [Nat.cast_zero, sub_zero]), head?_dropFrom, Option.some_inj]
    exact and_congr_left' ⟨fun h ↦ h hpos, fun h _ ↦ h⟩

/-- **`do_zquery` from its third step on** replies the window if and only if it is empty by its
limit or the search finds nothing or all nodes are reached. -/
theorem zqueryIn_iff {z : Ptr} (hz : (m.entry p).zset = some z)
    (hinv : ZSet.Inv m.heap (m.zset z) t) (hsorted : Sorted m.heap t.inorder)
    (hcount : (window (t.inorder.map m.heap.tuple) score name offset limit).length < 2 ^ 31) :
    zqueryIn m p score name offset limit
        = some (windowReply (window (t.inorder.map m.heap.tuple) score name offset limit)) ↔
      limit ≤ 0 ∨ ∀ i, lowerIdx (t.inorder.map m.heap.tuple) score name = some i →
        Reached m.heap.avl t.inorder i offset limit := by
  have ht : Listable m.heap t := ⟨hinv.rep, hinv.nodup, hinv.names, hsorted.short⟩
  -- no search is made when nothing may be listed
  by_cases hlim : limit ≤ 0
  · rw [zqueryIn, if_pos hlim, window_of_limit hlim]
    exact iff_of_true rfl (Or.inl hlim)
  have hquery : zqueryIn m p score name offset limit
      = (znodeOffset m.heap (t.inorder.find? fun p ↦ !zless (m.heap.znode p) score name)
          offset).bind fun q ↦ (whileLoop (zqueryStep m.heap limit) ((beginArr []).1, 0, q)).bind
            fun r ↦ endArr r.1 (beginArr []).2 r.2 := by
    rw [zqueryIn, if_neg hlim, hz]
    simp only [Option.bind_eq_bind, Option.bind_some]
    rw [zsetQuery_spec hinv hsorted]
    rfl
  rw [window] at hcount
  rw [hquery, or_iff_right hlim, window]
  rw [lowerIdx_tuple hsorted.short] at hcount ⊢
  rw [List.find?_eq_bind_findIdx?_getElem?]
  cases hi : t.inorder.findIdx? fun p ↦ !zless (m.heap.znode p) score name with
  | none =>
    have hloop : whileLoop (zqueryStep m.heap limit) ((beginArr []).1, 0, none)
        = some ((beginArr []).1, 0) := WhileLoop.of_exit (zqueryStep_exit (Or.inl rfl))
    rw [Option.bind_none, znodeOffset, Option.bind_some, hloop]
    exact iff_of_true rfl (fun i hi ↦ by cases hi)
  | some i =>
    obtain ⟨hlen, -⟩ := List.findIdx?_eq_some_iff_getElem.mp hi
    have hv : t.inorder[i]? = some t.inorder[i] := List.getElem?_eq_getElem hlen
    have hjump : znodeOffset m.heap (some t.inorder[i]) offset
        = avlOffset m.heap.avl t.inorder[i] offset := rfl
    simp only [hi, dropFrom_map, ← List.map_take, List.length_map] at hcount
    simp only [Option.bind_some]
    rw [hv, hjump, dropFrom_map, ← List.map_take, reached_iff hv]
    apply zqueryJump_iff ht (not_le.mp hlim) hlen
    simp only [u32Size]
    omega

/-! ## Where it is right -/

/-- The jump makes no wrong step downwards, and no tuple that is listed stands at a node with a
right child. Behind the last tuple that the limit lets through the step only has to end. -/
def QuerySpared (h : AVLHeap) (t : BinaryTree Ptr) (i : ℕ) (offset limit : ℤ) : Prop :=
  (0 ≤ i + offset → i + offset < t.numNodes → Spared t i (i + offset).toNat) ∧
    (∀ p ∈ (dropFrom t.inorder (i + offset)).take (pairLimit limit - 1), (h p).right = none) ∧
    ∀ p ∈ (dropFrom t.inorder (i + offset)).take (pairLimit limit),
      (h p).right = none ∨ t.numNodes < 2 ^ 31 ∧ LeftHeavy h t

theorem follows_of_right {h : AVLHeap} {k : ℕ} (ht : Counted h none t) (hnd : t.inorder.Nodup)
    (hlt : t.numNodes < u32Size)
    (hright : ∀ p ∈ (t.inorder.drop k).take (c - 1), (h p).right = none)
    (hlast : ∀ p ∈ (t.inorder.drop k).take c,
      (h p).right = none ∨ t.numNodes < 2 ^ 31 ∧ LeftHeavy h t) :
    Follows h (t.inorder.drop k) c := by
  induction c generalizing k with
  | zero => cases t.inorder.drop k <;> exact trivial
  | succ c ih =>
    rw [Nat.add_sub_cancel] at hright
    rcases Nat.lt_or_ge k t.inorder.length with hk | hk
    · rw [List.drop_eq_getElem_cons hk] at hright hlast ⊢
      rw [List.take_succ_cons] at hlast
      refine ⟨?_, ih (fun p hp ↦ hright p ?_) fun p hp ↦ hlast p (List.mem_cons_of_mem _ hp)⟩
      · have hstep := ht.avlOffset_succ hnd hlt (List.getElem?_eq_getElem hk)
        rw [List.head?_drop]
        rcases hlast _ (List.mem_cons_self ..) with hnone | ⟨hsize, hleft⟩
        · exact ⟨_, hstep hnone, fun _ ↦ rfl⟩
        · cases c with
          | zero =>
            obtain ⟨r, hr⟩ := ht.avlOffset_of_leftHeavy hnd hsize (List.getElem_mem hk) hleft
            exact ⟨r, hr, fun hpos ↦ absurd hpos (lt_irrefl 0)⟩
          | succ c =>
            rw [List.take_succ_cons] at hright
            exact ⟨_, hstep (hright _ (List.mem_cons_self ..)), fun _ ↦ rfl⟩
      · cases c with
        | zero => simp at hp
        | succ c =>
          rw [List.take_succ_cons]
          exact List.mem_cons_of_mem _ hp
    · rw [List.drop_eq_nil_of_le hk]
      exact trivial

theorem reached_of_spared {h : AVLHeap} (ht : Counted h none t) (hnd : t.inorder.Nodup)
    (hlt : t.numNodes < u32Size) (hi : i < t.numNodes) (hs : QuerySpared h t i offset limit) :
    Reached h t.inorder i offset limit := by
  obtain ⟨hjump, hright, hlast⟩ := hs
  rw [← length_inorder] at hi
  have hv := List.getElem?_eq_getElem hi
  refine ⟨⟨_, hv, ht.avlOffset_eq_elemAt hnd hlt hv hjump⟩, ?_⟩
  rw [dropFrom] at hright hlast ⊢
  by_cases hk : 0 ≤ i + offset
  · rw [if_pos hk] at hright hlast ⊢
    exact follows_of_right ht hnd hlt hright hlast
  · rw [if_neg hk]
    exact trivial

/-! ## The command -/

theorem expectZSet_ptrs (h : Models ordered m trees K) {r : Bytes ⊕ Ptr}
    (hexpect : expectZSet m key = some (m', r)) : m'.ptrs.Perm m.ptrs := by
  obtain ⟨db, r', hlookup, -, hperm, -⟩ := hmLookup_spec h.db (strHash key) (entryEq m key)
  have hdb : dbLookup m key = some ({ m with db := db }, r'.map HNode.val) := by
    rw [dbLookup, hlookup]
    rfl
  have hptrs : (Mem.ptrs { m with db := db }).Perm m.ptrs := hperm.map _
  rw [expectZSet, hdb] at hexpect
  cases r' with
  | none =>
    obtain ⟨rfl, -⟩ := Prod.mk.inj (Option.some_inj.mp hexpect)
    exact hptrs
  | some n =>
    change (if (m.entry n.val).type ≠ .zset then _ else _) = _ at hexpect
    split at hexpect
    all_goals
      obtain ⟨rfl, -⟩ := Prod.mk.inj (Option.some_inj.mp hexpect)
      exact hptrs

/-- A query with arguments that are numbers, of a key bound to a sorted set. -/
theorem doZquery_zset (h : Models ordered m trees K) {M : Bytes → Option S}
    (hkey : K key = some (.zset M)) (hscore : str2dbl cmd2 = some score)
    (hoff : str2int cmd4 = some offset) (hlim : str2int cmd5 = some limit) :
    ∃ p ∈ m.ptrs, ∃ z, (m.entry p).key = key ∧ (m.entry p).zset = some z ∧
      zmap m.heap (trees z).inorder = M ∧ ∃ db, ∀ name, doZquery m key cmd2 name cmd4 cmd5
        = (zqueryIn m p score name offset limit).map fun out ↦ ({ m with db := db }, out) := by
  obtain ⟨db, r, hcode, h', hr⟩ := expectZSet_spec h key
  rw [hkey] at hr
  obtain ⟨p, z, rfl, hp, hpk, hz, hmap⟩ := hr
  refine ⟨p, (expectZSet_ptrs h hcode).mem_iff.mp hp, z, hpk, hz, hmap, db, fun name ↦ ?_⟩
  rw [doZquery, hscore, hoff, hlim]
  simp only [hcode, Option.bind_eq_bind, Option.bind_some]
  have hquery : zqueryIn { m with db := db } p score name offset limit
      = zqueryIn m p score name offset limit := rfl
  rw [hquery]
  cases zqueryIn m p score name offset limit <;> rfl

theorem mem_of_mem_names {cmd : List Bytes} (hname : name ∈ (ofCmd cmd).names) : name ∈ cmd := by
  rcases cmd with _ | ⟨w, _ | ⟨a, _ | ⟨b, _ | ⟨c, _ | ⟨d, _ | ⟨e, _ | ⟨f, rest⟩⟩⟩⟩⟩⟩⟩
  all_goals
    simp only [ofCmd] at hname
    repeat' split at hname
    all_goals simp_all [names]

/-- Commands that come in messages lead to a database with sorted trees. -/
theorem models_of_messages {entry : Ptr → Entry} {zset : Ptr → ZSet} {avl : AVLHeap}
    {znode : Ptr → ZNode S} {cmds : List (List Bytes)} {outs : List Bytes}
    (hrun : doRequests (Mem.init entry zset avl znode) cmds = some (m, outs))
    (hmsg : ∀ cmd ∈ cmds, ∀ word ∈ cmd, word.length ≤ kMaxMsg) :
    ∃ trees, Models True m trees (cmds.foldl (fun K cmd ↦ (ofCmd cmd).effect K) fun _ ↦ none) := by
  have hinit : Models True (Mem.init entry zset avl znode) (fun _ ↦ nil) fun _ ↦ none :=
    models_init entry zset avl znode
  have hshort : ∀ cmd ∈ cmds, ∀ name ∈ (ofCmd cmd).names, name.length < u32Size := by
    intro cmd hcmd name hname
    have hle := hmsg cmd hcmd name (mem_of_mem_names hname)
    simp only [kMaxMsg, u32Size] at hle ⊢
    omega
  exact hinit.after_doRequests (fun _ ↦ hshort) hrun

/-- The command replies the window if and only if the calls of `avl_offset` are right. -/
theorem doZquery_iff {z : Ptr} {db : HMap Ptr} (hz : (m.entry p).zset = some z)
    (hinv : ZSet.Inv m.heap (m.zset z) t) (hsorted : Sorted m.heap t.inorder)
    (hcount : (window (t.inorder.map m.heap.tuple) score name offset limit).length < 2 ^ 31)
    (hquery : doZquery m key cmd2 name cmd4 cmd5
      = (zqueryIn m p score name offset limit).map fun out ↦ ({ m with db := db }, out)) :
    (∃ m', doZquery m key cmd2 name cmd4 cmd5 = some (m', windowReply
        (window (t.inorder.map m.heap.tuple) score name offset limit))) ↔
      limit ≤ 0 ∨ ∀ i, lowerIdx (t.inorder.map m.heap.tuple) score name = some i →
        Reached m.heap.avl t.inorder i offset limit := by
  rw [← zqueryIn_iff hz hinv hsorted hcount, hquery]
  constructor
  · rintro ⟨m', hm'⟩
    obtain ⟨out, hout, heq⟩ := Option.map_eq_some_iff.mp hm'
    rw [hout, (Prod.mk.inj heq).2]
  · intro hout
    exact ⟨_, by rw [hout, Option.map_some]⟩

theorem lt_of_lowerIdx {L : List (S × Bytes)} (hi : lowerIdx L score name = some i) :
    i < L.length := by
  obtain ⟨hlen, -⟩ := List.findIdx?_eq_some_iff_getElem.mp hi
  exact hlen

/-- **The window.** After any run of commands, each delivered in one message, a query of a sorted
set replies the window of its tuples, if the limit is not positive, or no tuple is found, or no
counter wraps around and no wrong step of `avl_offset` is in the way. As long as the count of what
is listed does not wrap around, it does so exactly if the jump to the window and the steps through
it are right. -/
theorem zquery_window (entry : Ptr → Entry) (zset : Ptr → ZSet) (avl : AVLHeap)
    (znode : Ptr → ZNode S) (cmds : List (List Bytes)) (outs : List Bytes)
    (hrun : doRequests (Mem.init entry zset avl znode) cmds = some (m, outs))
    (hmsg : ∀ cmd ∈ cmds, ∀ word ∈ cmd, word.length ≤ kMaxMsg) {M : Bytes → Option S}
    (hkey : cmds.foldl (fun K cmd ↦ (ofCmd cmd).effect K) (fun _ ↦ none) key = some (.zset M))
    (hscore : str2dbl cmd2 = some score) (hoff : str2int cmd4 = some offset)
    (hlim : str2int cmd5 = some limit) (name : Bytes) :
    ∃ p ∈ m.ptrs, ∃ z t L, (m.entry p).key = key ∧ (m.entry p).zset = some z ∧
      ZSet.Inv m.heap (m.zset z) t ∧ L = t.inorder.map m.heap.tuple ∧ SortedTuples M L ∧
      ((limit ≤ 0 ∨ lowerIdx L score name = none ∨
          t.numNodes < 2 ^ 32 ∧ (window L score name offset limit).length < 2 ^ 31 ∧
            ∀ i, lowerIdx L score name = some i → QuerySpared m.heap.avl t i offset limit) →
        ∃ m', doZquery m key cmd2 name cmd4 cmd5
          = some (m', windowReply (window L score name offset limit))) ∧
      ((window L score name offset limit).length < 2 ^ 31 →
        ((∃ m', doZquery m key cmd2 name cmd4 cmd5
            = some (m', windowReply (window L score name offset limit))) ↔
          limit ≤ 0 ∨ ∀ i, lowerIdx L score name = some i →
            Reached m.heap.avl t.inorder i offset limit)) := by
  obtain ⟨trees, h⟩ := models_of_messages hrun hmsg
  obtain ⟨p, hp, z, hpk, hz, rfl, db, hquery⟩ := doZquery_zset h hkey hscore hoff hlim
  have hinv := (h.zset_inv hp hz).2
  have hsorted := h.sorted trivial p hp z hz
  refine ⟨p, hp, z, trees z, _, hpk, hz, hinv, rfl, tuples_spec hinv hsorted, ?_,
    fun hcount ↦ doZquery_iff hz hinv hsorted hcount (hquery name)⟩
  rintro (hlim | hnone | ⟨hlt, hcount, hspared⟩)
  · refine (doZquery_iff hz hinv hsorted ?_ (hquery name)).mpr (Or.inl hlim)
    rw [window_of_limit hlim]
    exact Nat.two_pow_pos 31
  · refine (doZquery_iff hz hinv hsorted ?_ (hquery name)).mpr (Or.inr fun i hi ↦ ?_)
    · rw [window, hnone]
      exact Nat.two_pow_pos 31
    · rw [hnone] at hi
      cases hi
  · refine (doZquery_iff hz hinv hsorted hcount (hquery name)).mpr (Or.inr fun i hi ↦ ?_)
    have hin := lt_of_lowerIdx hi
    rw [List.length_map, length_inorder] at hin
    exact reached_of_spared (hinv.rep.counted hlt) hinv.nodup hlt hin (hspared i hi)

theorem zadd_effect_none {word : Bytes} (hK : K key = none)
    (hs : str2dbl word = some score) :
    (zadd key word name).effect K key
      = some (.zset (Function.update (fun _ ↦ none) name (some score))) := by
  simp only [effect, hs, hK]
  exact Function.update_self ..

theorem zadd_effect_zset {word : Bytes} {M : Bytes → Option S} (hK : K key = some (.zset M))
    (hs : str2dbl word = some score) :
    (zadd key word name).effect K key = some (.zset (Function.update M name (some score))) := by
  simp only [effect, hs, hK]
  exact Function.update_self ..

omit [Score S] in
theorem mem_concat_iff_update {L : List (S × Bytes)} {M : Bytes → Option S}
    (hL : ∀ x, x ∈ L ↔ M x.2 = some x.1) (hname : M name = none) (score : S) :
    ∀ x, x ∈ L ++ [(score, name)] ↔ Function.update M name (some score) x.2 = some x.1 := by
  rintro ⟨s, nm⟩
  rw [List.mem_append, List.mem_singleton, hL]
  by_cases hnm : nm = name
  · subst hnm
    rw [Function.update_self, hname]
    simp [eq_comm]
  · rw [Function.update_of_ne hnm]
    simp [hnm]

private theorem exists_of_three (hbal : t.Balanced) (hsize : t.numNodes = 3) :
    ∃ p q r, t = node q (node p nil nil) (node r nil nil) := by
  cases t with
  | nil => cases hsize
  | node q a b =>
    obtain ⟨hab, hba, -, -⟩ := hbal
    rw [numNodes] at hsize
    have ha := numNodes_lt_two_pow a
    have hb := numNodes_lt_two_pow b
    cases a with
    | nil =>
      have hle : 2 ^ b.height ≤ 2 ^ 1 := Nat.pow_le_pow_right Nat.two_pos (by simpa using hba)
      simp only [numNodes] at hsize
      omega
    | node p c d =>
      cases b with
      | nil =>
        have hle : 2 ^ (node p c d).height ≤ 2 ^ 1 :=
          Nat.pow_le_pow_right Nat.two_pos (by simpa using hab)
        simp only [numNodes] at hsize ha
        omega
      | node r e f =>
        simp only [numNodes] at hsize
        rw [eq_nil_of_numNodes (t := c) (by omega), eq_nil_of_numNodes (t := d) (by omega),
          eq_nil_of_numNodes (t := e) (by omega), eq_nil_of_numNodes (t := f) (by omega)]
        exact ⟨p, q, r, rfl⟩

/-- Three tuples, one after the other. -/
def addThree : List (List Bytes) :=
  [[ascii "zadd", ascii "k", ascii "1", ascii "a"], [ascii "zadd", ascii "k", ascii "2", ascii "b"],
    [ascii "zadd", ascii "k", ascii "3", ascii "c"]]

/-- What they make of the key. -/
private def threeMap : Bytes → Option ℤ :=
  Function.update (Function.update (Function.update (fun _ ↦ none) (ascii "a") (some 1))
    (ascii "b") (some 2)) (ascii "c") (some 3)

private theorem addThree_key :
    addThree.foldl (fun K cmd ↦ (ofCmd cmd).effect K) (fun _ ↦ none) (ascii "k")
      = some (.zset threeMap) := by
  have hone : (str2dbl (ascii "1") : Option ℤ) = some 1 := by decide
  have htwo : (str2dbl (ascii "2") : Option ℤ) = some 2 := by decide
  have hthree : (str2dbl (ascii "3") : Option ℤ) = some 3 := by decide
  rw [addThree, List.foldl_cons, List.foldl_cons, List.foldl_cons, List.foldl_nil]
  exact zadd_effect_zset (zadd_effect_zset (zadd_effect_none rfl hone) htwo) hthree

private theorem sortedTuples_three :
    SortedTuples threeMap [(1, ascii "a"), (2, ascii "b"), (3, ascii "c")] :=
  ⟨by decide, mem_concat_iff_update (mem_concat_iff_update (mem_concat_iff_update (L := [])
    (fun _ ↦ by simp) rfl 1) rfl 2) rfl 3⟩

theorem exists_addThree : ∃ (m : Mem ℤ) (trees : Ptr → BinaryTree Ptr) (outs : List Bytes),
    doRequests Mem.empty addThree = some (m, outs) ∧
      Models True m trees (addThree.foldl (fun K cmd ↦ (ofCmd cmd).effect K) fun _ ↦ none) := by
  have hquery : ∀ cmd ∈ addThree, (ofCmd cmd).NoQuery := by
    intro cmd hcmd
    simp only [addThree, List.mem_cons, List.not_mem_nil, or_false] at hcmd
    rcases hcmd with rfl | rfl | rfl
    all_goals
      intro _ _ _ _ _ heq
      cases heq
  have hinit : Models True Mem.empty (fun _ ↦ nil) fun _ ↦ none := models_init ..
  exact hinit.exists_doRequests hquery fun _ ↦ by decide

private theorem three_shape {H : ZHeap ℤ} (hinv : ZSet.Inv H zs t)
    (hL : [((1 : ℤ), ascii "a"), (2, ascii "b"), (3, ascii "c")] = t.inorder.map H.tuple) :
    ∃ a b c, t = node b (node a nil nil) (node c nil nil) := by
  have hsize := congrArg List.length hL
  rw [List.length_map, length_inorder] at hsize
  exact exists_of_three hinv.balanced hsize.symm

/-- From the third of them back to the first one the jump leads over the root, and the step behind
the second one ends. -/
private theorem three_spared {h : AVLHeap} {a b c : Ptr}
    (hrep : Rep h none (node b (node a nil nil) (node c nil nil))) :
    QuerySpared h (node b (node a nil nil) (node c nil nil)) 2 (-2) 3 := by
  obtain ⟨hb, ha, hc⟩ := hrep
  have hjump : Spared (node b (node a nil nil) (node c nil nil)) 2 0 := by
    simp [Spared, EvenSpine, numNodes]
  have hleft : LeftHeavy h (node b (node a nil nil) (node c nil nil)) := by
    intro y hy x hx
    simp only [inorder_node, inorder_nil, List.nil_append, List.mem_append, List.mem_cons,
      List.not_mem_nil, or_false] at hy
    rcases hy with rfl | rfl | rfl
    · rw [ha.1] at hx
      cases hx
    · rw [hb] at hx
      obtain rfl : a = x := Option.some_inj.mp hx
      rw [ha.1]
    · rw [hc.1] at hx
      cases hx
  refine ⟨fun _ _ ↦ hjump, fun p hp ↦ ?_,
    fun p hp ↦ Or.inr ⟨show 3 < 2 ^ 31 from by decide, hleft⟩⟩
  obtain rfl : p = a := List.mem_singleton.mp hp
  rw [ha.1]
  rfl

/-- Three tuples, and a query that jumps back from the third one and lists two. -/
theorem zquery_window_three : ∃ (m m' : Mem ℤ) (outs : List Bytes),
    doRequests Mem.empty addThree = some (m, outs) ∧
    doZquery m (ascii "k") (ascii "3") (ascii "c") (ascii "-2") (ascii "3")
      = some (m', windowReply [((1 : ℤ), ascii "a"), (2, ascii "b")]) := by
  obtain ⟨m, trees, outs, hrun, -⟩ := exists_addThree
  have hscore : (str2dbl (ascii "3") : Option ℤ) = some 3 := by decide
  have hoff : str2int (ascii "-2") = some (-2) := by decide
  have hlim : str2int (ascii "3") = some 3 := by decide
  obtain ⟨p, hp, z, t, L, -, -, hinv, hL, hsorted, hwindow, -⟩ := zquery_window _ _ _ _ _ _ hrun
    (by decide) addThree_key hscore hoff hlim (ascii "c")
  obtain rfl := sortedTuples_three.eq hsorted
  obtain ⟨a, b, c, rfl⟩ := three_shape hinv hL
  obtain ⟨m', hreply⟩ := hwindow (Or.inr (Or.inr ⟨show 3 < 2 ^ 32 from by decide, by decide,
    fun i hi ↦ by
      obtain rfl : 2 = i := Option.some_inj.mp hi
      exact three_spared hinv.rep⟩))
  exact ⟨m, m', outs, hrun, hreply⟩

/-- The database with three tuples. A query from the second one on does not reply the window: the
step from the root to its right child is wrong. A query that jumps back from the third one does. -/
theorem exists_three : ∃ (m : Mem ℤ) (outs : List Bytes),
    doRequests Mem.empty addThree = some (m, outs) ∧
      (¬ ∃ m', doZquery m (ascii "k") (ascii "2") (ascii "b") (ascii "0") (ascii "10")
        = some (m', windowReply (window [((1 : ℤ), ascii "a"), (2, ascii "b"), (3, ascii "c")] 2
          (ascii "b") 0 10))) ∧
      ∃ m', doZquery m (ascii "k") (ascii "3") (ascii "c") (ascii "-2") (ascii "3")
        = some (m', windowReply [((1 : ℤ), ascii "a"), (2, ascii "b")]) := by
  obtain ⟨m, trees, outs, hrun, h⟩ := exists_addThree
  have htwo : (str2dbl (ascii "2") : Option ℤ) = some 2 := by decide
  have hthree : (str2dbl (ascii "3") : Option ℤ) = some 3 := by decide
  obtain ⟨p, hp, z, -, hz, hmap, db, hzquery⟩ := doZquery_zset h addThree_key htwo
    (show str2int (ascii "0") = some 0 from by decide)
    (show str2int (ascii "10") = some 10 from by decide)
  obtain ⟨p', hp', z', -, hz', hmap', db', hzquery'⟩ := doZquery_zset h addThree_key hthree
    (show str2int (ascii "-2") = some (-2) from by decide)
    (show str2int (ascii "3") = some 3 from by decide)
  refine ⟨m, outs, hrun, ?_, ?_⟩
  · have hinv := (h.zset_inv hp hz).2
    have hsorted := h.sorted trivial p hp z hz
    have hL := sortedTuples_three.eq (hmap ▸ tuples_spec hinv hsorted)
    rw [hL, doZquery_iff hz hinv hsorted (by rw [← hL]; decide) (hzquery (ascii "b"))]
    intro hright
    obtain ⟨a, b, c, hshape⟩ := three_shape hinv hL
    have hreached := hright.resolve_left (by decide) 1 (by rw [← hL]; decide)
    have hcounted := hinv.rep.counted (by rw [hshape]; exact show 3 < u32Size from by decide)
    have hnodup := hinv.nodup
    rw [hshape] at hreached hcounted hnodup
    obtain ⟨q, hq, hnext⟩ := hreached.2.1
    have hnone : avlOffset m.heap.avl b 1 = some none := by
      have hright := hcounted.avlOffset_right_wrap (j := 0) Nat.one_pos
      rw [Nat.cast_zero, zero_add] at hright
      have hout := hcounted.avlOffset_out (i := 2) (j := 2 + (0 + 2 - u32Size)) hnodup
        (show 3 < u32Size from by decide) rfl (Or.inl (by decide))
      rw [hright, ← hout]
      congr 1
    rw [hnone, Option.some_inj] at hq
    rw [← hq] at hnext
    exact absurd (hnext (by decide)) (by simp)
  · have hinv := (h.zset_inv hp' hz').2
    have hsorted := h.sorted trivial p' hp' z' hz'
    have hL := sortedTuples_three.eq (hmap' ▸ tuples_spec hinv hsorted)
    have hwindow : windowReply [((1 : ℤ), ascii "a"), (2, ascii "b")]
        = windowReply (window ((trees z').inorder.map m.heap.tuple) 3 (ascii "c") (-2) 3) := by
      rw [← hL]
      decide
    rw [hwindow, doZquery_iff hz' hinv hsorted (by rw [← hL]; decide) (hzquery' (ascii "c"))]
    refine Or.inr fun i hi ↦ ?_
    rw [← hL] at hi
    obtain rfl : 2 = i := Option.some_inj.mp hi
    obtain ⟨a, b, c, hshape⟩ := three_shape hinv hL
    rw [hshape] at hinv ⊢
    have hlt : (node b (node a nil nil) (node c nil nil)).numNodes < u32Size :=
      show 3 < u32Size from by decide
    exact reached_of_spared (hinv.rep.counted hlt) hinv.nodup hlt (show 2 < 3 from by decide)
      (three_spared hinv.rep)

/-- Three tuples. A query from the second one on lists that one only. -/
theorem not_zquery_window : ∃ (m : Mem ℤ) (outs : List Bytes) (M : Bytes → Option ℤ)
    (L : List (ℤ × Bytes)),
    doRequests Mem.empty [[ascii "zadd", ascii "k", ascii "1", ascii "a"],
      [ascii "zadd", ascii "k", ascii "2", ascii "b"],
      [ascii "zadd", ascii "k", ascii "3", ascii "c"]] = some (m, outs) ∧
    [[ascii "zadd", ascii "k", ascii "1", ascii "a"],
      [ascii "zadd", ascii "k", ascii "2", ascii "b"],
      [ascii "zadd", ascii "k", ascii "3", ascii "c"]].foldl
        (fun K cmd ↦ (ofCmd cmd).effect K) (fun _ ↦ none) (ascii "k") = some (.zset M) ∧
    SortedTuples M L ∧ window L 2 (ascii "b") 0 10 = [(2, ascii "b"), (3, ascii "c")] ∧
    ¬ ∃ m', doZquery m (ascii "k") (ascii "2") (ascii "b") (ascii "0") (ascii "10")
      = some (m', windowReply (window L 2 (ascii "b") 0 10)) := by
  obtain ⟨m, outs, hrun, hno, -⟩ := exists_three
  exact ⟨m, outs, threeMap, _, hrun, addThree_key, sortedTuples_three, by decide, hno⟩

end RedisOnC
