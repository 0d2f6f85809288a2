import RedisOnC.Server.Query
import RedisOnC.Server.Content
import RedisOnC.Protocol.Request
import RedisOnC.Conn.Basic

/-!
# What fits into a request fits into a reply

A request of at most 4096 bytes stores a value, a key or a member name. Each of them can be sent
back on its own: the length prefixes and the words in front of it in the request take at least as
many bytes as the headers around it in the reply. For a member name the margin is a single byte,
because the score takes eight bytes in the reply and may take none in the request.
-/

open BinaryTree

namespace RedisOnC

open Request

variable {S : Type} [Score S] {m m' : Mem S} {trees : Ptr → BinaryTree Ptr} {K : Keyspace S}
variable {cmd : List Bytes} {key val name word out : Bytes} {s : S}

/-! ## Requests -/

theorem length_le_of_cmdIs {c : Bytes} (h : cmdIs word c = true) : c.length ≤ word.length := by
  have heq : (cStr word).map tolower = c.map tolower := of_decide_eq_true h
  have hlen := congrArg List.length heq
  rw [List.length_map, List.length_map] at hlen
  rw [← hlen]
  exact (List.takeWhile_sublist _).length_le

theorem ofCmd_eq_set (h : ofCmd cmd = .set key val) :
    ∃ w, cmd = [w, key, val] ∧ 3 ≤ w.length := by
  rcases cmd with _ | ⟨w, _ | ⟨a, _ | ⟨b, _ | ⟨c, _ | ⟨d, _ | ⟨e, _ | ⟨f, rest⟩⟩⟩⟩⟩⟩⟩
  all_goals
    simp only [ofCmd] at h
    repeat' split at h
    all_goals cases h
  next hset => exact ⟨w, rfl, length_le_of_cmdIs hset⟩

theorem ofCmd_eq_zadd (h : ofCmd cmd = .zadd key word name) :
    ∃ w, cmd = [w, key, word, name] ∧ 4 ≤ w.length := by
  rcases cmd with _ | ⟨w, _ | ⟨a, _ | ⟨b, _ | ⟨c, _ | ⟨d, _ | ⟨e, _ | ⟨f, rest⟩⟩⟩⟩⟩⟩⟩
  all_goals
    simp only [ofCmd] at h
    repeat' split at h
    all_goals cases h
  next hzadd => exact ⟨w, rfl, length_le_of_cmdIs hzadd⟩

theorem Frame.sum_le (f : Frame) : 4 + (f.cmd.map fun s ↦ 4 + s.length).sum ≤ kMaxMsg := by
  have hbody := ((parseReq_eq_zero f.length_le).mp f.accepted).2
  have hread : readBytes (fun i ↦ f.body[i]?) 0 f.body.length = some f.body := by
    rw [readBytes_list (Nat.zero_add _).le, List.drop_zero, List.take_length]
  rw [hread, Option.some_inj] at hbody
  rw [← length_encodeReq, ← hbody]
  exact f.length_le

theorem Frame.length_set (f : Frame) (h : Request.ofCmd f.cmd = .set key val) :
    key.length + val.length ≤ 4077 := by
  obtain ⟨w, hcmd, hw⟩ := ofCmd_eq_set h
  have hsum := f.sum_le
  rw [hcmd] at hsum
  simp only [List.map_cons, List.map_nil, List.sum_cons, List.sum_nil, kMaxMsg] at hsum
  omega

theorem Frame.length_zadd (f : Frame) (h : Request.ofCmd f.cmd = .zadd key word name) :
    key.length + word.length + name.length ≤ 4072 := by
  obtain ⟨w, hcmd, hw⟩ := ofCmd_eq_zadd h
  have hsum := f.sum_le
  rw [hcmd] at hsum
  simp only [List.map_cons, List.map_nil, List.sum_cons, List.sum_nil, kMaxMsg] at hsum
  omega

/-! ## Replies -/

/-- The reply goes out as it is. -/
def Fits (out : Bytes) : Prop := 4 + out.length ≤ kMaxMsg ∧ capReply out = out

theorem fits_of_length (h : 4 + out.length ≤ kMaxMsg) : Fits out :=
  ⟨h, if_neg (not_lt.mpr h)⟩

theorem length_outStr (val : Bytes) : (outStr val).length = 5 + val.length := by
  rw [outStr, List.length_cons, List.length_append, length_leBytes]
  omega

theorem length_outArr (n : ℕ) : (outArr n).length = 5 := by
  rw [outArr, List.length_cons, length_leBytes]

theorem length_outPair_le (x : Bytes × S) : (outPair x).length ≤ 14 + x.1.length := by
  rw [outPair, outStrN, outDbl, List.length_append, List.length_cons, List.length_append,
    length_leBytes, List.length_take, List.length_cons, Score.length_bytes]
  omega

theorem fits_keys (hkey : key.length ≤ 4077) : Fits (outArr 1 ++ outStr key) := by
  apply fits_of_length
  rw [List.length_append, length_outArr, length_outStr, kMaxMsg]
  omega

/-- The reply of `ZQUERY` for one member. One byte more would be too long. -/
theorem fits_windowReply (hname : name.length ≤ 4073) (s : S) : Fits (windowReply [(s, name)]) := by
  have hpair := length_outPair_le (name, s)
  apply fits_of_length
  rw [windowReply, List.flatMap_cons, List.flatMap_nil, List.append_nil, List.length_append,
    length_outArr, Prod.swap_prod_mk, kMaxMsg]
  dsimp only at hpair
  omega

/-! ## Databases with one thing in them -/

omit [Score S] in
theorem exists_node_of_single {H : ZHeap S} {zs : ZSet} {t : BinaryTree Ptr}
    (hinv : ZSet.Inv H zs t)
    (hmap : zmap H t.inorder = Function.update (fun _ ↦ none) name (some s)) :
    ∃ p, t = node p nil nil ∧ H.tuple p = (s, name) := by
  obtain ⟨p, hp, hname, hscore⟩ := exists_of_zmap_eq_some (hmap ▸ Function.update_self ..)
  have hall : ∀ q ∈ t.inorder, q = p := by
    intro q hq
    have hsome := zmap_eq_some hinv.names hq rfl
    rw [hmap, Function.update_apply] at hsome
    split at hsome
    · next hqn => exact List.inj_on_of_nodup_map hinv.names hq hp (hqn.trans hname.symm)
    · cases hsome
  have hlist : t.inorder = [p] := by
    apply List.perm_singleton.mp
    apply (List.perm_ext_iff_of_nodup hinv.nodup (List.nodup_singleton p)).mpr
    intro q
    rw [List.mem_singleton]
    exact ⟨hall q, fun hq ↦ hq ▸ hp⟩
  have hsize := congrArg List.length hlist
  rw [length_inorder, List.length_singleton] at hsize
  refine ⟨p, ?_, Prod.ext hscore hname⟩
  rcases t with _ | ⟨q, a, b⟩
  · cases hsize
  · rw [numNodes] at hsize
    rw [eq_nil_of_numNodes (t := a) (by omega), eq_nil_of_numNodes (t := b) (by omega)] at hlist ⊢
    rw [List.singleton_inj.mp hlist]

/-- A query of a set with one member replies with the member or with nothing. -/
theorem doZquery_single {ordered : Prop} {cmd2 cmd4 cmd5 : Bytes} {score : S} {offset limit : ℤ}
    (h : Models ordered m trees K)
    (hkey : K key = some (.zset (Function.update (fun _ ↦ none) name (some s))))
    (hname : name.length < u32Size) (hscore : str2dbl cmd2 = some score)
    (hoff : str2int cmd4 = some offset) (hlim : str2int cmd5 = some limit) (arg : Bytes) :
    ∃ m', doZquery m key cmd2 arg cmd4 cmd5
      = some (m', windowReply (window [(s, name)] score arg offset limit)) := by
  obtain ⟨p, hp, z, -, hz, hmap, db, hquery⟩ := doZquery_zset h hkey hscore hoff hlim
  have hinv := (h.zset_inv hp hz).2
  obtain ⟨q, ht, htuple⟩ := exists_node_of_single hinv hmap
  rw [ht] at hinv
  have hsorted : Sorted m.heap (node q nil nil).inorder := by
    refine ⟨fun x hx ↦ ?_, List.pairwise_singleton _ _⟩
    obtain rfl := List.mem_singleton.mp hx
    rwa [show (m.heap.znode x).name = name from congrArg Prod.snd htuple]
  have hlist : (node q nil nil).inorder.map m.heap.tuple = [(s, name)] := by
    rw [inorder_node, inorder_nil, List.nil_append, List.map_singleton, htuple]
  have hreply : zqueryIn m p score arg offset limit = some (windowReply
      (window ((node q nil nil).inorder.map m.heap.tuple) score arg offset limit)) := by
    have hcount := (window_sublist ((node q nil nil).inorder.map m.heap.tuple) score arg offset
      limit).length_le
    apply (zqueryIn_iff hz hinv hsorted (hcount.trans_lt (show 1 < 2 ^ 31 from by decide))).mpr
    apply Or.inr
    intro i hi
    obtain ⟨hlen, -⟩ := List.findIdx?_eq_some_iff_getElem.mp hi
    rw [hlist, List.length_singleton] at hlen
    obtain rfl : i = 0 := Nat.lt_one_iff.mp hlen
    have hone : (node q nil nil).numNodes = 1 := rfl
    have hsmall : (node q nil nil).numNodes < u32Size := by
      rw [hone]
      decide
    -- a tree of one node: the jump stays, and no node has a right child
    have hright : ∀ k, ∀ x ∈ (dropFrom (node q nil nil).inorder ((0 : ℕ) + offset)).take k,
        (m.heap.avl x).right = none := by
      intro k x hx
      have hx' := (dropFrom_suffix _ _).subset (List.mem_of_mem_take hx)
      obtain rfl := List.mem_singleton.mp hx'
      rw [hinv.rep.1]
      rfl
    apply reached_of_spared (hinv.rep.counted hsmall) hinv.nodup hsmall Nat.one_pos
    refine ⟨fun hlo hhi ↦ ?_, hright _, fun x hx ↦ Or.inl (hright _ x hx)⟩
    have hzero : ((0 : ℕ) + offset).toNat = 0 := by
      rw [hone] at hhi
      omega
    rw [hzero]
    exact Or.inl rfl
  rw [hlist] at hreply
  exact ⟨_, by rw [hquery, hreply, Option.map_some]⟩

theorem window_singleton (x : S × Bytes) (score : S) (arg : Bytes) (offset limit : ℤ) :
    window [x] score arg offset limit = [] ∨ window [x] score arg offset limit = [x] := by
  exact List.sublist_singleton.mp (window_sublist _ _ _ _ _)

theorem window_self : window [(s, name)] s name 0 1 = [(s, name)] := by
  have hidx : lowerIdx [(s, name)] s name = some 0 := by
    rw [lowerIdx, List.findIdx?_cons, decide_eq_true (TupleLt.irrefl (s, name))]
    rfl
  rw [window, hidx]
  rfl

theorem doKeys_single {ordered : Prop} (h : Models ordered m trees K)
    (hkey : ∀ k, (K k).isSome ↔ k = key) : doKeys m = some (m, outArr 1 ++ outStr key) := by
  obtain ⟨out, hcode, ks, hnd, hmem, rfl⟩ := doKeys_spec h
  have hks : ks = [key] := by
    apply List.perm_singleton.mp
    apply (List.perm_ext_iff_of_nodup hnd (List.nodup_singleton key)).mpr
    intro k
    rw [hmem, hkey, List.mem_singleton]
  rw [hcode, hks, List.flatMap_singleton]
  rfl

/-- **What a request stores can be sent back.** For every reachable memory and every frame: a `SET`
of a fresh key is answered by `GET` with its value; a `ZADD` to a fresh key is answered by a
`ZQUERY` for its member with that member; every query of a set with that member only is answered
with it or with nothing; `KEYS` on a database with only the key of the request is answered with it.
All these replies fit, and so does a window with just that member in any other set. -/
theorem single_data_fits (hm : Reachable m) (f : Frame) :
    (∀ key val, ofCmd f.cmd = .set key val → Fits (outStr val) ∧
      (m.content key = none → ∃ m₁ m₂ : Mem S, doRequest m f.cmd = some (m₁, outNil) ∧
        doGet m₁ key = some (m₂, outStr val))) ∧
    (∀ key word name (s : S), ofCmd f.cmd = .zadd key word name → str2dbl word = some s →
      (∀ s' : S, Fits (windowReply [(s', name)])) ∧
      (m.content key = none → ∃ m₁ m₂ : Mem S, doRequest m f.cmd = some (m₁, outInt 1) ∧
        doZquery m₁ key word name (ascii "0") (ascii "1")
          = some (m₂, windowReply [(s, name)])) ∧
      ∀ s' : S, m.content key = some (.zset (Function.update (fun _ ↦ none) name (some s'))) →
        ∀ (score : S) (cmd2 arg cmd4 cmd5 : Bytes) (offset limit : ℤ), str2dbl cmd2 = some score →
          str2int cmd4 = some offset → str2int cmd5 = some limit →
          ∃ (m' : Mem S) (out : Bytes), doZquery m key cmd2 arg cmd4 cmd5 = some (m', out) ∧
            (out = windowReply ([] : List (S × Bytes)) ∨ out = windowReply [(s', name)]) ∧
            Fits out) ∧
    ∀ key, ((∃ val, ofCmd f.cmd = .set key val) ∨ ∃ word name, ofCmd f.cmd = .zadd key word name) →
      (∀ k, (m.content k).isSome ↔ k = key) →
        doKeys m = some (m, outArr 1 ++ outStr key) ∧ Fits (outArr 1 ++ outStr key) := by
  obtain ⟨trees, K, h⟩ := hm.models
  rw [h.content_eq]
  refine ⟨fun key val hcmd ↦ ⟨?_, fun hnone ↦ ?_⟩,
    fun key word name s hcmd hscore ↦ ⟨fun s' ↦ ?_, fun hnone ↦ ?_, ?_⟩,
    fun key hcmd hone ↦ ⟨doKeys_single h hone, ?_⟩⟩
  · -- the reply of `GET` is no longer than the request
    have hlen := f.length_set hcmd
    apply fits_of_length
    rw [length_outStr, kMaxMsg]
    omega
  · obtain ⟨m₁, hset, h₁⟩ := doSet_spec h key val
    obtain ⟨m₂, out, hget, -, hreply⟩ := doGet_spec h₁ key
    refine ⟨m₁, m₂, by rw [doRequest_eq, hcmd]; exact hset, ?_⟩
    simp only [Reply, effect, hnone, Function.update_self] at hreply
    rw [hget, hreply]
  · have hlen := f.length_zadd hcmd
    exact fits_windowReply (by omega) s'
  · have hlen := f.length_zadd hcmd
    obtain ⟨m₁, trees₁, out, hzadd, h₁, hreply⟩ := doZadd_spec h key word name fun ho ↦ ho.elim
    have hname : name.length < u32Size := by
      simp only [u32Size]
      omega
    obtain ⟨m₂, hquery⟩ := doZquery_single h₁ (zadd_effect_none hnone hscore) hname hscore
      (show str2int (ascii "0") = some 0 from by decide)
      (show str2int (ascii "1") = some 1 from by decide) name
    rw [window_self] at hquery
    simp only [Reply, hscore, hnone] at hreply
    exact ⟨m₁, m₂, by rw [doRequest_eq, hcmd, ← hreply]; exact hzadd, hquery⟩
  · intro s' hset score cmd2 arg cmd4 cmd5 offset limit hscore' hoff hlim
    have hlen := f.length_zadd hcmd
    have hname : name.length < u32Size := by
      simp only [u32Size]
      omega
    obtain ⟨m', hquery⟩ := doZquery_single h hset hname hscore' hoff hlim arg
    refine ⟨m', _, hquery, ?_⟩
    rcases window_singleton (s', name) score arg offset limit with hw | hw
    · rw [hw]
      exact ⟨Or.inl rfl, fits_of_length (show 4 + 5 ≤ kMaxMsg from by decide)⟩
    · rw [hw]
      exact ⟨Or.inr rfl, fits_windowReply (by omega) s'⟩
  · apply fits_keys
    rcases hcmd with ⟨val, hcmd⟩ | ⟨word, name, hcmd⟩
    · have hlen := f.length_set hcmd
      omega
    · have hlen := f.length_zadd hcmd
      omega

/-- A `ZADD` of `k_max_msg` bytes, all of them in the name of the member but for the length prefixes
and the name of the command. -/
theorem single_data_fits_limit : ∃ name : Bytes,
    (encodeReq [ascii "zadd", [], [], name]).length = kMaxMsg ∧
    Fits (windowReply [((0 : ℤ), name)]) ∧ ∃ m₁ m₂ : Mem ℤ,
      doRequest Mem.empty [ascii "zadd", [], [], name] = some (m₁, outInt 1) ∧
        doZquery m₁ [] [] name (ascii "0") (ascii "1")
          = some (m₂, windowReply [((0 : ℤ), name)]) := by
  obtain ⟨name, hname⟩ : ∃ name : Bytes, name.length = 4072 :=
    ⟨List.replicate 4072 0x6e, List.length_replicate⟩
  have hlen : (encodeReq [ascii "zadd", [], [], name]).length = kMaxMsg := by
    rw [length_encodeReq]
    simp only [List.map_cons, List.map_nil, List.sum_cons, List.sum_nil, hname]
    decide
  obtain ⟨hfits, hreply, -⟩ := (single_data_fits reachable_empty
    (Frame.ofCmd [ascii "zadd", [], [], name] hlen.le)).2.1 [] [] name 0 rfl rfl
  exact ⟨name, hlen, hfits 0, hreply rfl⟩

end RedisOnC
