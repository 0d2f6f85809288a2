import RedisOnC.Server.Models
import RedisOnC.Server.Window

/-!
# The commands on a keyspace

What each command does to the keyspace that the memory holds, and what it replies. A `Request` is
a command vector after the tests of `do_request` on its size and first word. Every request but
`zquery` always ends; `zquery` may not, and changes nothing when it does.

The effect of `set` on a bound key is the one of the code: the value has been moved into a local
entry before it is moved into the existing one, so the key ends up bound to the empty string.
-/

open BinaryTree

namespace RedisOnC

/-- The command that `do_request` picks. -/
inductive Request
  | keys
  | get (key : Bytes)
  | set (key val : Bytes)
  | del (key : Bytes)
  | zadd (key score name : Bytes)
  | zrem (key name : Bytes)
  | zscore (key name : Bytes)
  | zquery (key score name offset limit : Bytes)
  | unknown

namespace Request

def ofCmd : List Bytes → Request
  | [word] => if cmdIs word (ascii "keys") then keys else unknown
  | [word, key] =>
    if cmdIs word (ascii "get") then get key
    else if cmdIs word (ascii "del") then del key
    else unknown
  | [word, key, arg] =>
    if cmdIs word (ascii "set") then set key arg
    else if cmdIs word (ascii "zrem") then zrem key arg
    else if cmdIs word (ascii "zscore") then zscore key arg
    else unknown
  | [word, key, score, name] =>
    if cmdIs word (ascii "zadd") then zadd key score name else unknown
  | [word, key, score, name, offset, limit] =>
    if cmdIs word (ascii "zquery") then zquery key score name offset limit else unknown
  | _ => unknown

variable {S : Type} [Score S]

/-- The function that handles the request. -/
def exec (m : Mem S) : Request → Option (Mem S × Bytes)
  | keys => doKeys m
  | get key => doGet m key
  | set key val => doSet m key val
  | del key => doDel m key
  | zadd key score name => doZadd m key score name
  | zrem key name => doZrem m key name
  | zscore key name => doZscore m key name
  | zquery key score name offset limit => doZquery m key score name offset limit
  | unknown => some (m, unknownCmd)

theorem doRequest_eq (m : Mem S) (cmd : List Bytes) : doRequest m cmd = (ofCmd cmd).exec m := by
  rcases cmd with _ | ⟨w, _ | ⟨a, _ | ⟨b, _ | ⟨c, _ | ⟨d, _ | ⟨e, _ | ⟨f, rest⟩⟩⟩⟩⟩⟩⟩
  all_goals
    simp only [doRequest, ofCmd, apply_ite (exec m)]
    rfl

/-- What the request makes of the keyspace. -/
def effect (K : Keyspace S) : Request → Keyspace S
  | set key val =>
    match K key with
    | none => Function.update K key (some (.str val))
    | some (.str _) => Function.update K key (some (.str []))
    | some (.zset _) => K
  | del key => Function.update K key none
  | zadd key score name =>
    match (str2dbl score : Option S), K key with
    | some s, none =>
      Function.update K key (some (.zset (Function.update (fun _ ↦ none) name (some s))))
    | some s, some (.zset M) =>
      Function.update K key (some (.zset (Function.update M name (some s))))
    | _, _ => K
  | zrem key name =>
    match K key with
    | some (.zset M) => Function.update K key (some (.zset (Function.update M name none)))
    | _ => K
  | _ => K

/-- The reply of a command that expects a sorted set to a key bound to a string. -/
def typeError : Bytes := outErr errType (ascii "expect zset")

/-- A name and its score, as `zquery` lists them. -/
def outPair (x : Bytes × S) : Bytes := outStrN x.1 x.1.length ++ outDbl (Score.bytes x.2)

/-- What the request may reply. -/
def Reply (ordered : Prop) (K : Keyspace S) : Request → Bytes → Prop
  | keys, out => ∃ ks : List Bytes, ks.Nodup ∧ (∀ k, k ∈ ks ↔ (K k).isSome) ∧
      out = outArr ks.length ++ ks.flatMap outStr
  | get key, out =>
    match K key with
    | none => out = outNil
    | some (.str val) => out = outStr val
    | some (.zset _) => out = outStr []
  | set _ _, out => out = outNil
  | del key, out => out = outInt (if (K key).isSome then 1 else 0)
  | zadd key score name, out =>
    match (str2dbl score : Option S), K key with
    | none, _ => out = outErr errArg (ascii "expect fp number")
    | some _, some (.str _) => out = typeError
    | some _, none => out = outInt 1
    | some _, some (.zset M) => out = outInt (if (M name).isNone then 1 else 0)
  | zrem key name, out =>
    match K key with
    | none => out = outNil
    | some (.str _) => out = typeError
    | some (.zset M) => out = outInt (if (M name).isSome then 1 else 0)
  | zscore key name, out =>
    match K key with
    | none => out = outNil
    | some (.str _) => out = typeError
    | some (.zset M) => out = (M name).elim outNil fun s ↦ outDbl (Score.bytes s)
  | zquery key score name offset limit, out =>
    match (str2dbl score : Option S), str2int offset, str2int limit, K key with
    | none, _, _, _ => out = outErr errArg (ascii "expect fp number")
    | some _, none, _, _ => out = outErr errArg (ascii "expect int")
    | some _, some _, none, _ => out = outErr errArg (ascii "expect int")
    | some _, some _, some _, none => out = outArr 0
    | some _, some _, some _, some (.str _) => out = typeError
    | some s, some o, some lim, some (.zset M) =>
      ∃ l, Lists ordered M s name o lim l ∧ out = outArr (2 * l.length) ++ l.flatMap outPair
  | unknown, out => out = unknownCmd

/-- The names that a request may bring into a sorted set. -/
def names : Request → List Bytes
  | zadd _ _ name => [name]
  | _ => []

end Request

open Request

variable {S : Type} [Score S] {m m' : Mem S} {trees : Ptr → BinaryTree Ptr} {K : Keyspace S}
variable {ordered : Prop} {key val name : Bytes}

/-! ## Strings and keys -/

theorem doGet_spec (h : Models ordered m trees K) (key : Bytes) :
    ∃ m' out, doGet m key = some (m', out) ∧ Models ordered m' trees K ∧
      (get key).Reply ordered K out := by
  obtain ⟨db, r, hcode, h', hr⟩ := h.lookup key
  rcases r with _ | p
  · exact ⟨_, outNil, by rw [doGet, hcode]; rfl, h', by rw [Reply, hr]⟩
  · obtain ⟨hp, hkey, o, ho, hholds⟩ := hr
    refine ⟨_, outStr (m.entry p).val, by rw [doGet, hcode]; rfl, h', ?_⟩
    rw [Reply, ho]
    cases o with
    | str val => exact congrArg outStr hholds.2.2
    | zset M => exact congrArg outStr hholds.2.1

theorem doSet_spec (h : Models ordered m trees K) (key val : Bytes) :
    ∃ m', doSet m key val = some (m', outNil) ∧
      Models ordered m' trees ((Request.set key val).effect K) := by
  obtain ⟨db, r, hcode, h', hr⟩ := h.lookup key
  rcases r with _ | p
  · obtain ⟨db', hins, h'', -⟩ := h'.insert (e := { hcode := strHash key, key := key, val := val })
      (o := .str val) hr rfl
      (by rw [EntryHolds, newEntry]; simp) (fun q hq z z' hz ↦ by cases hz)
      (fun _ z hz ↦ by cases hz)
    refine ⟨_, ?_, by rw [effect, hr]; exact h''⟩
    rw [doSet, hcode]
    simp only [Option.bind_eq_bind, Option.bind_some, moved]
    rw [show (newEntry { m with db := db } { hcode := strHash key, key := key, val := val }).2
      = m.nextEntry from rfl, hins]
    rfl
  · obtain ⟨hp, hkey, o, ho, hholds⟩ := hr
    have hexec : doSet m key val = some ({ { m with db := db } with
        entry := Function.update m.entry p { m.entry p with val := [] } }, outNil) := by
      rw [doSet, hcode]
      rfl
    refine ⟨_, hexec, ?_⟩
    cases o with
    | str val' =>
      rw [effect, ho, ← hkey]
      exact h'.write_val hp (by rw [← ho, ← hkey])
    | zset M =>
      have hval : (m.entry p).val = [] := hholds.2.1
      have hself : { m.entry p with val := [] } = m.entry p := by rw [← hval]
      rw [effect, ho, hself, Function.update_eq_self]
      exact h'

theorem doDel_spec (h : Models ordered m trees K) (key : Bytes) :
    ∃ m' out, doDel m key = some (m', out) ∧
      Models ordered m' trees ((del key).effect K) ∧ (del key).Reply ordered K out := by
  obtain ⟨db, r, hcode, hr⟩ := h.delete key
  rcases r with _ | n
  · obtain ⟨hnone, h'⟩ := hr
    refine ⟨_, outInt 0, by rw [doDel, hcode]; rfl, ?_, by rw [Reply, hnone]; rfl⟩
    rw [effect, ← hnone, Function.update_eq_self]
    exact h'
  · obtain ⟨hsome, m', hdel, h'⟩ := hr
    refine ⟨m', outInt 1, ?_, h', by rw [Reply, if_pos hsome]⟩
    rw [doDel, hcode]
    simp only [Option.bind_eq_bind, Option.bind_some, hdel]

theorem doKeys_spec (h : Models ordered m trees K) :
    ∃ out, doKeys m = some (m, out) ∧ Request.keys.Reply ordered K out := by
  refine ⟨outArr (hmSize m.db) ++ (m.ptrs.map fun p ↦ (m.entry p).key).flatMap outStr, ?_,
    m.ptrs.map fun p ↦ (m.entry p).key, h.keys, fun k ↦ ⟨fun hk ↦ ?_, fun hk ↦ ?_⟩, ?_⟩
  · rw [doKeys, hScan_spec h.db.ht1, hScan_spec h.db.ht2]
    simp only [Option.bind_eq_bind, Option.bind_some, Mem.ptrs, HMap.nodes, List.map_append,
      List.flatMap_append, List.append_assoc, List.flatMap_map]
  · obtain ⟨p, hp, rfl⟩ := List.mem_map.mp hk
    obtain ⟨o, ho, -⟩ := h.holds p hp
    rw [ho]
    rfl
  · by_contra hno
    rw [h.absent k fun p hp heq ↦ hno (List.mem_map.mpr ⟨p, hp, heq⟩)] at hk
    cases hk
  · rw [h.db.hmSize_eq, List.length_map, Mem.ptrs, List.length_map]

/-! ## Sorted sets -/

theorem expectZSet_spec (h : Models ordered m trees K) (key : Bytes) :
    ∃ db r, expectZSet m key = some ({ m with db := db }, r) ∧
      Models ordered { m with db := db } trees K ∧
      match K key with
      | none => r = .inl outNil
      | some (.str _) => r = .inl typeError
      | some (.zset M) => ∃ p z, r = .inr p ∧ p ∈ Mem.ptrs { m with db := db } ∧
          (m.entry p).key = key ∧ (m.entry p).zset = some z ∧
          zmap m.heap (trees z).inorder = M := by
  obtain ⟨db, r, hcode, h', hr⟩ := h.lookup key
  rcases r with _ | p
  · refine ⟨db, .inl outNil, by rw [expectZSet, hcode]; rfl, h', by rw [hr]⟩
  · obtain ⟨hp, hkey, o, ho, hholds⟩ := hr
    cases o with
    | str val =>
      have htype : (m.entry p).type = .str := hholds.1
      refine ⟨db, .inl typeError, ?_, h', by rw [ho]⟩
      rw [expectZSet, hcode]
      simp only [Option.bind_eq_bind, Option.bind_some, htype]
      rfl
    | zset M =>
      obtain ⟨htype, -, z, -, hz, -, hmap⟩ := hholds
      have htype' : (m.entry p).type = .zset := htype
      refine ⟨db, .inr p, ?_, h', by rw [ho]; exact ⟨p, z, rfl, hp, hkey, hz, hmap⟩⟩
      rw [expectZSet, hcode]
      simp only [Option.bind_eq_bind, Option.bind_some, htype']
      rfl

/-- Adding a tuple to the set of an entry. -/
theorem zaddTo_spec (h : Models ordered m trees K) {p z : Ptr} (hp : p ∈ m.ptrs)
    (hz : (m.entry p).zset = some z) (name : Bytes) (score : S)
    (hname : ordered → name.length < u32Size) :
    ∃ m' trees', zaddTo m p name score = some (m',
        outInt (if (zmap m.heap (trees z).inorder name).isNone then 1 else 0)) ∧
      Models ordered m' trees' (Function.update K (m.entry p).key
        (some (.zset (Function.update (zmap m.heap (trees z).inorder) name (some score))))) := by
  obtain ⟨H', zset', t', hcode, hinv, hframe, hmap, hsorted⟩ :=
    zsetAdd_spec h.heap (h.zset_inv hp hz).2 name score
  refine ⟨_, _, ?_, hmap ▸ h.write_zset hp hz hinv hframe fun ho hs ↦ hsorted hs (hname ho)⟩
  rw [zaddTo, hz]
  simp only [Option.bind_eq_bind, Option.bind_some, hcode]

/-- A fresh entry with a fresh set, which is empty. -/
private theorem insert_newZSet (h : Models ordered m trees K) {e : Entry} (hkey : K e.key = none)
    (hcode : e.hcode = strHash e.key) (htype : e.type = .zset) (hval : e.val = [])
    (hz : e.zset = some m.nextZSet) :
    ∃ db, dbInsert (newEntry (newZSet m).1 e).1 m.nextEntry
        = some { (newEntry (newZSet m).1 e).1 with db := db } ∧
      Models ordered { (newEntry (newZSet m).1 e).1 with db := db }
        (Function.update trees m.nextZSet nil)
        (Function.update K e.key (some (.zset fun _ ↦ none))) ∧
      m.nextEntry ∈ Mem.ptrs { (newEntry (newZSet m).1 e).1 with db := db } := by
  have hself : (newEntry (newZSet m).1 e).1.entry m.nextEntry = e := Function.update_self ..
  have hset : (newEntry (newZSet m).1 e).1.zset m.nextZSet = {} := Function.update_self ..
  have hempty : Function.update trees m.nextZSet nil m.nextZSet = nil := Function.update_self ..
  refine h.newZSet.insert (o := .zset fun _ ↦ none) hkey hcode ?_ (fun q hq z z' hez hz' ↦ ?_)
    fun _ z hez ↦ ?_
  · rw [EntryHolds, show (newZSet m).1.nextEntry = m.nextEntry from rfl, hself]
    refine ⟨htype, hval, m.nextZSet, List.mem_cons_self .., hz, ?_, ?_⟩
    · rw [hempty, hset]
      exact ZSet.inv_empty
    · rw [hempty]
      rfl
  · obtain rfl : m.nextZSet = z := Option.some_inj.mp (hz.symm.trans hez)
    refine ⟨fun heq ↦ ?_, by rw [hempty]; simp⟩
    exact lt_irrefl _ (heq ▸ h.zset_lt z' (h.zset_inv hq hz').1)
  · obtain rfl : m.nextZSet = z := Option.some_inj.mp (hz.symm.trans hez)
    rw [hempty]
    exact ⟨fun _ hx ↦ (by cases hx), List.Pairwise.nil⟩

theorem doZadd_spec (h : Models ordered m trees K) (key cmd2 name : Bytes)
    (hname : ordered → name.length < u32Size) :
    ∃ m' trees' out, doZadd m key cmd2 name = some (m', out) ∧
      Models ordered m' trees' ((zadd key cmd2 name).effect K) ∧
      (zadd key cmd2 name).Reply ordered K out := by
  cases hscore : (str2dbl cmd2 : Option S) with
  | none =>
    exact ⟨m, trees, _, by rw [doZadd, hscore], by simpa only [effect, hscore] using h,
      by simp only [Reply, hscore]⟩
  | some score =>
  obtain ⟨db, r, hcode, h', hr⟩ := h.lookup key
  rcases r with _ | p
  · -- a fresh empty set for a fresh entry
    set m₁ := (newZSet { m with db := db }).1 with hm₁
    set e : Entry := { hcode := strHash key, key := key, type := .zset, zset := some m.nextZSet }
      with he
    have hself : (newEntry m₁ e).1.entry m.nextEntry = e := Function.update_self ..
    have hempty : Function.update trees m.nextZSet nil m.nextZSet = nil := Function.update_self ..
    obtain ⟨db', hins, h₂, hp⟩ := insert_newZSet h' (e := e) hr rfl rfl rfl rfl
    set m₂ := { (newEntry m₁ e).1 with db := db' } with hm₂
    have hself₂ : m₂.entry m.nextEntry = e := hself
    obtain ⟨m', trees', hadd, h₃⟩ := zaddTo_spec h₂ (p := m.nextEntry) (z := m.nextZSet) hp
      (by rw [hself₂]) name score hname
    rw [hself₂, hempty, Function.update_idem] at h₃
    refine ⟨m', trees', outInt 1, ?_, by simp only [effect, hscore, hr]; exact h₃,
      by simp only [Reply, hscore, hr]⟩
    rw [doZadd, hscore]
    simp only [Option.bind_eq_bind, hcode, Option.bind_some]
    change (dbInsert (newEntry m₁ e).1 m.nextEntry).bind
      (fun m' ↦ zaddTo m' m.nextEntry name score) = _
    rw [show dbInsert (newEntry m₁ e).1 m.nextEntry = some m₂ from hins, Option.bind_some]
    rw [hempty] at hadd
    exact hadd
  · obtain ⟨hp, hkey, o, ho, hholds⟩ := hr
    cases o with
    | str val =>
      have htype : (m.entry p).type = .str := hholds.1
      refine ⟨_, trees, typeError, ?_, by simpa only [effect, hscore, ho] using h',
        by simp only [Reply, hscore, ho]⟩
      rw [doZadd, hscore]
      simp only [Option.bind_eq_bind, hcode, Option.bind_some, htype]
      rfl
    | zset M =>
      obtain ⟨htype, -, z, -, hz, -, hmap⟩ := hholds
      have htype' : (m.entry p).type = .zset := htype
      obtain ⟨m', trees', hadd, h₂⟩ := zaddTo_spec h' hp hz name score hname
      rw [show zmap ({ m with db := db } : Mem S).heap (trees z).inorder = M from hmap] at hadd h₂
      rw [show (({ m with db := db } : Mem S).entry p).key = key from hkey] at h₂
      refine ⟨m', trees', outInt (if (M name).isNone then 1 else 0), ?_,
        by simpa only [effect, hscore, ho] using h₂,
        by simp only [Reply, hscore, ho]⟩
      rw [doZadd, hscore]
      simp only [Option.bind_eq_bind, hcode, Option.bind_some, htype']
      exact hadd

theorem doZrem_spec (h : Models ordered m trees K) (key name : Bytes) :
    ∃ m' trees' out, doZrem m key name = some (m', out) ∧
      Models ordered m' trees' ((zrem key name).effect K) ∧ (zrem key name).Reply ordered K out := by
  obtain ⟨db, r, hcode, h', hr⟩ := expectZSet_spec h key
  cases hK : K key with
  | none =>
    rw [hK] at hr
    subst hr
    exact ⟨_, trees, outNil, by rw [doZrem, hcode]; rfl, by simpa only [effect, hK] using h',
      by simp only [Reply, hK]⟩
  | some o =>
  cases o with
  | str val =>
    rw [hK] at hr
    subst hr
    exact ⟨_, trees, typeError, by rw [doZrem, hcode]; rfl, by simpa only [effect, hK] using h',
      by simp only [Reply, hK]⟩
  | zset M =>
    rw [hK] at hr
    obtain ⟨p, z, rfl, hp, hkey, hz, rfl⟩ := hr
    have hinv : ZSet.Inv m.heap (m.zset z) (trees z) := (h'.zset_inv hp hz).2
    obtain ⟨H', zset', t', r, hpop, hinv', hr⟩ := zsetPop_spec hinv name
    rcases r with _ | q
    · -- the name is not in the set, and only its hash map may have moved
      obtain ⟨rfl, -, rfl, hno⟩ := hr
      have hnone : zmap m.heap (trees z).inorder name = none := zmap_eq_none_iff.mpr hno
      have hsame : (zrem key name).effect K = K := by
        have hself : Function.update (zmap m.heap (trees z).inorder) name none
            = zmap m.heap (trees z).inorder := by rw [← hnone, Function.update_eq_self]
        simp only [effect, hK, hself]
        rw [← hK, Function.update_eq_self]
      refine ⟨{ m with db := db, zset := Function.update m.zset z zset' }, trees, outInt 0, ?_, ?_,
        by simp only [Reply, hK, hnone]; rfl⟩
      · rw [doZrem, hcode]
        simp only [Option.bind_eq_bind, Option.bind_some, hz, hpop]
      · rw [hsame]
        exact h'.with_zset hp hz (hkey ▸ hK) rfl hinv'
    · -- the node is out of tree and map, and then it is freed
      obtain ⟨hsome, hmap⟩ := hr.zmap_eq hinv.names
      obtain ⟨H'', hdel, hinv'', hframe, hznode⟩ := hr.free h'.heap hinv hinv'
      have h₂ := h'.write_zset hp hz hinv'' hframe fun _ hs ↦
        (hr.sorted hs).congr fun x _ ↦ by rw [hznode, hr.znode]
      have hmap' : zmap H'' t'.inorder = zmap H' t'.inorder :=
        zmap_congr fun x _ ↦ by rw [hznode, hr.znode]
      rw [hmap', hmap, show ((({ m with db := db } : Mem S).entry p).key) = key from hkey] at h₂
      refine ⟨{ m with db := db, heap := H'', zset := Function.update m.zset z zset' },
        Function.update trees z t', outInt 1, ?_, ?_, by simp only [Reply, hK, hsome]; rfl⟩
      · rw [doZrem, hcode]
        simp only [Option.bind_eq_bind, Option.bind_some, hz, hpop, hdel]
      · simp only [effect, hK]
        exact h₂

theorem doZscore_spec (h : Models ordered m trees K) (key name : Bytes) :
    ∃ m' trees' out, doZscore m key name = some (m', out) ∧
      Models ordered m' trees' K ∧ (zscore key name).Reply ordered K out := by
  obtain ⟨db, r, hcode, h', hr⟩ := expectZSet_spec h key
  cases hK : K key with
  | none =>
    rw [hK] at hr
    subst hr
    exact ⟨_, trees, outNil, by rw [doZscore, hcode]; rfl, h', by simp only [Reply, hK]⟩
  | some o =>
  cases o with
  | str val =>
    rw [hK] at hr
    subst hr
    exact ⟨_, trees, typeError, by rw [doZscore, hcode]; rfl, h', by simp only [Reply, hK]⟩
  | zset M =>
    rw [hK] at hr
    obtain ⟨p, z, rfl, hp, hkey, hz, rfl⟩ := hr
    have hinv : ZSet.Inv m.heap (m.zset z) (trees z) := (h'.zset_inv hp hz).2
    obtain ⟨hmap, r, hlook, hinv', hr⟩ := zsetLookup_spec hinv name
    have hmodels := h'.with_zset hp hz (hkey ▸ hK) rfl hinv'
    rcases r with _ | q
    · refine ⟨_, _, outNil, ?_, hmodels, by
        simp only [Reply, hK, zmap_eq_none_iff.mpr hr]; rfl⟩
      rw [doZscore, hcode]
      simp only [Option.bind_eq_bind, Option.bind_some, hz, hlook]
    · refine ⟨_, _, outDbl (Score.bytes (m.heap.znode q).score), ?_, hmodels, by
        simp only [Reply, hK, zmap_eq_some hinv.names hr.1 hr.2]; rfl⟩
      rw [doZscore, hcode]
      simp only [Option.bind_eq_bind, Option.bind_some, hz, hlook]

/-! ## Queries -/

theorem endArr_append (body : Bytes) (n : ℕ) :
    endArr ((beginArr []).1 ++ body) (beginArr []).2 n = some (outArr n ++ body) := rfl

theorem outArr_congr {n k : ℕ} (h : n % u32Size = k % u32Size) : outArr n = outArr k := by
  have hn : leBytes 4 (n % u32Size) = leBytes 4 n := leBytes_mod 4 n
  have hk : leBytes 4 (k % u32Size) = leBytes 4 k := leBytes_mod 4 k
  rw [outArr, outArr, ← hn, ← hk, h]

/-- What the output loop appends for a node. -/
def outNode (H : ZHeap S) (p : Ptr) : Bytes := outPair ((H.znode p).name, (H.znode p).score)

/-- What one round of the output loop does: it leaves with the reply so far, or it appends a node
and goes one step forward. -/
theorem zqueryStep_cases {H : ZHeap S} {limit : ℤ} {out : Bytes} {n : ℕ} {q : Option Ptr}
    {r : (Bytes × ℕ × Option Ptr) ⊕ (Bytes × ℕ)} (hstep : zqueryStep H limit (out, n, q) = some r) :
    ((q = none ∨ limit ≤ n) ∧ r = .inr (out, n)) ∨
      ∃ p q', q = some p ∧ (n : ℤ) < limit ∧ avlOffset H.avl p 1 = some q' ∧
        r = .inl (out ++ outNode H p, (n + 2) % u32Size, q') := by
  cases q with
  | none => exact Or.inl ⟨Or.inl rfl, (Option.some_inj.mp hstep).symm⟩
  | some p =>
    rw [zqueryStep] at hstep
    by_cases hn : (n : ℤ) < limit
    · rw [if_pos hn] at hstep
      obtain ⟨q', hq', heq⟩ := Option.bind_eq_some_iff.mp hstep
      rw [List.append_assoc] at heq
      exact Or.inr ⟨p, q', rfl, hn, hq', (Option.some_inj.mp heq).symm⟩
    · rw [if_neg hn] at hstep
      exact Or.inl ⟨Or.inr (not_lt.mp hn), (Option.some_inj.mp hstep).symm⟩

/-- The nodes that the output loop lists from a node on, with the count it has got to. -/
inductive Visits (h : AVLHeap) (limit : ℤ) : ℕ → Option Ptr → List Ptr → Prop
  | stop {n : ℕ} {q : Option Ptr} (hn : q = none ∨ limit ≤ n) : Visits h limit n q []
  | step {n : ℕ} {p : Ptr} {q : Option Ptr} {l : List Ptr} (hn : (n : ℤ) < limit)
      (hq : avlOffset h p 1 = some q) (hl : Visits h limit ((n + 2) % u32Size) q l) :
      Visits h limit n (some p) (p :: l)

namespace Visits

variable {h : AVLHeap} {limit : ℤ} {n : ℕ} {q : Option Ptr} {l : List Ptr}

theorem mem {t : BinaryTree Ptr} (hv : Visits h limit n q l) (ht : Rep h none t)
    (hq : ∀ p, q = some p → p ∈ t.inorder) : ∀ p ∈ l, p ∈ t.inorder := by
  induction hv with
  | stop => simp
  | step _ hnext _ ih =>
    have hp := hq _ rfl
    intro x hx
    rcases List.mem_cons.mp hx with rfl | hx
    · exact hp
    · exact ih (fun y hy ↦ ht.avlOffset_mem hp (hy ▸ hnext)) x hx

theorem length_le (hv : Visits h limit n q l) (hlim : limit + 1 < u32Size) :
    l.length ≤ pairLimit (limit - n) := by
  induction hv with
  | stop => exact Nat.zero_le _
  | step hn _ _ ih =>
    rw [Nat.mod_eq_of_lt (by omega)] at ih
    rw [pairLimit] at ih ⊢
    rw [List.length_cons]
    push_cast at ih
    omega

theorem eq_nil (hv : Visits h limit n none l) : l = [] := by
  cases hv
  rfl

theorem head? (hv : Visits h limit n q l) (hn : (n : ℤ) < limit) : l.head? = q := by
  cases hv with
  | stop hstop => rw [hstop.resolve_right (not_le.mpr hn), List.head?_nil]
  | step => rfl

end Visits

/-- The loop lists the nodes it visits, and counts two elements for each. -/
theorem zqueryLoop_spec {H : ZHeap S} {limit : ℤ} {out : Bytes} {n : ℕ} {q : Option Ptr}
    {r : Bytes × ℕ} (hn : n < u32Size)
    (hloop : whileLoop (zqueryStep H limit) (out, n, q) = some r) :
    ∃ ps : List Ptr, Visits H.avl limit n q ps ∧
      r = (out ++ ps.flatMap (outNode H), (n + 2 * ps.length) % u32Size) := by
  -- what is listed from a state on goes behind what was listed so far
  let Behind (s : Bytes × ℕ × Option Ptr) (ps : List Ptr) : Prop :=
    s.1 = out ++ ps.flatMap (outNode H) ∧ s.2.1 = (n + 2 * ps.length) % u32Size ∧
      ∀ l, Visits H.avl limit s.2.1 s.2.2 l → Visits H.avl limit n q (ps ++ l)
  have hstart : ∃ ps, Behind (out, n, q) ps :=
    ⟨[], by simp, (Nat.mod_eq_of_lt hn).symm, fun l hl ↦ hl⟩
  refine WhileLoop.partialCorrect (I := fun s ↦ ∃ ps, Behind s ps)
    (Q := fun r : Bytes × ℕ ↦ ∃ ps : List Ptr, Visits H.avl limit n q ps ∧
      r = (out ++ ps.flatMap (outNode H), (n + 2 * ps.length) % u32Size)) ?_ ?_ hstart hloop
  · rintro ⟨o, k, x⟩ s' ⟨ps, ho, hk, hbehind⟩ hstep
    obtain heq | ⟨p, q', rfl, hlt, hnext, heq⟩ := zqueryStep_cases hstep
    · cases heq.2
    obtain rfl := Sum.inl.inj heq
    refine ⟨ps ++ [p], ?_, ?_, fun l hl ↦ ?_⟩
    · change o ++ outNode H p = _
      change o = _ at ho
      rw [ho, List.flatMap_append, List.append_assoc]
      simp
    · change (k + 2) % u32Size = _
      change k = _ at hk
      rw [hk, Nat.mod_add_mod, List.length_append, List.length_singleton]
      ring_nf
    · rw [List.append_assoc]
      exact hbehind _ (.step hlt hnext hl)
  · rintro ⟨o, k, x⟩ r ⟨ps, ho, hk, hbehind⟩ hstep
    obtain ⟨hstop, heq⟩ | ⟨p, q', -, -, -, heq⟩ := zqueryStep_cases hstep
    · obtain rfl := Sum.inr.inj heq
      have hvisits := hbehind [] (.stop hstop)
      rw [List.append_nil] at hvisits
      exact ⟨ps, hvisits, Prod.ext ho hk⟩
    · cases heq

private theorem zsetQuery_lowerIdx {H : ZHeap S} {zs : ZSet} {t : BinaryTree Ptr} {score : S}
    {name : Bytes} (hinv : ZSet.Inv H zs t) (hs : Sorted H t.inorder) :
    zsetQuery H zs score name
      = some ((lowerIdx (t.inorder.map H.tuple) score name).bind (t.inorder[·]?)) := by
  rw [zsetQuery_spec hinv hs, List.find?_eq_bind_findIdx?_getElem?, lowerIdx_tuple hs.short]

/-- What the walk of the output loop lists. -/
theorem lists_of_visits {H : ZHeap S} {zs : ZSet} {t : BinaryTree Ptr} {score : S} {name : Bytes}
    {offset limit : ℤ} {found node : Option Ptr} {ps : List Ptr} (hinv : ZSet.Inv H zs t)
    (hsorted : ordered → Sorted H t.inorder) (hlim : 0 < limit)
    (hfound : zsetQuery H zs score name = some found)
    (hnode : znodeOffset H found offset = some node) (hvisits : Visits H.avl limit 0 node ps) :
    Lists ordered (zmap H t.inorder) score name offset limit
      (ps.map fun p ↦ ((H.znode p).name, (H.znode p).score)) := by
  have hmem := zsetQuery_mem hinv hfound
  have hin : ∀ q, node = some q → q ∈ t.inorder := by
    rintro q rfl
    cases found with
    | none => cases hnode
    | some v => exact hinv.rep.avlOffset_mem (hmem v rfl) hnode
  have hindex (ho : ordered) (L : List (S × Bytes)) (hL : SortedTuples (zmap H t.inorder) L) :
      L = t.inorder.map H.tuple ∧ found = (lowerIdx L score name).bind (t.inorder[·]?) := by
    obtain rfl := hL.eq (tuples_spec hinv (hsorted ho))
    refine ⟨rfl, ?_⟩
    rw [zsetQuery_lowerIdx hinv (hsorted ho), Option.some_inj] at hfound
    exact hfound.symm
  constructor
  · intro x hx
    obtain ⟨p, hp, rfl⟩ := List.mem_map.mp hx
    exact zmap_eq_some hinv.names (hvisits.mem hinv.rep hin p hp) rfl
  · intro hlt
    rw [List.length_map, ← sub_zero limit]
    exact hvisits.length_le hlt
  · intro ho L hL hnone
    obtain ⟨-, rfl⟩ := hindex ho L hL
    rw [hnone] at hnode
    obtain rfl : none = node := Option.some_inj.mp hnode
    rw [hvisits.eq_nil, List.map_nil]
  · intro ho L i hL hi hlt hout
    obtain ⟨rfl, rfl⟩ := hindex ho L hL
    rw [List.length_map, length_inorder] at hlt hout
    rw [hi, Option.bind_some] at hnode
    cases hv : t.inorder[i]? with
    | none =>
      rw [hv] at hnode
      obtain rfl : none = node := Option.some_inj.mp hnode
      rw [hvisits.eq_nil, List.map_nil]
    | some v =>
      have hoff := (hinv.rep.counted hlt).avlOffset_out (j := i + offset) hinv.nodup hlt hv hout
      rw [add_sub_cancel_left] at hoff
      rw [hv, znodeOffset, hoff] at hnode
      obtain rfl : none = node := Option.some_inj.mp hnode
      rw [hvisits.eq_nil, List.map_nil]
  · rintro ho L i hL hi rfl -
    obtain ⟨rfl, rfl⟩ := hindex ho L hL
    have hnode' : node = t.inorder[i]? := by
      rw [hi, Option.bind_some] at hnode
      cases hv : t.inorder[i]? with
      | none =>
        rw [hv] at hnode
        exact (Option.some_inj.mp hnode).symm
      | some v =>
        rw [hv, znodeOffset, avlOffset_zero] at hnode
        exact (Option.some_inj.mp hnode).symm
    rw [List.head?_map, hvisits.head? (by exact_mod_cast hlim), hnode', List.getElem?_map,
      Option.map_map]
    rfl

theorem zqueryIn_spec {p z : Ptr} {t : BinaryTree Ptr} {score : S} {name out : Bytes}
    {offset limit : ℤ} (hz : (m.entry p).zset = some z) (hinv : ZSet.Inv m.heap (m.zset z) t)
    (hsorted : ordered → Sorted m.heap t.inorder)
    (h : zqueryIn m p score name offset limit = some out) :
    ∃ l, Lists ordered (zmap m.heap t.inorder) score name offset limit l ∧
      out = outArr (2 * l.length) ++ l.flatMap outPair := by
  rw [zqueryIn] at h
  split at h
  next hlim =>
    exact ⟨[], lists_nil hlim, (Option.some_inj.mp h).symm.trans (by simp)⟩
  next hlim =>
  rw [hz] at h
  simp only [Option.bind_eq_bind, Option.bind_some, Option.bind_eq_some_iff] at h
  obtain ⟨found, hfound, node, hnode, r, hloop, hend⟩ := h
  obtain ⟨ps, hvisits, rfl⟩ := zqueryLoop_spec (Nat.two_pow_pos 32) hloop
  have hpairs : ps.flatMap (outNode m.heap)
      = (ps.map fun p ↦ ((m.heap.znode p).name, (m.heap.znode p).score)).flatMap outPair := by
    rw [List.flatMap_map]
    rfl
  rw [endArr_append, Nat.zero_add, outArr_congr (Nat.mod_mod _ _), hpairs] at hend
  refine ⟨ps.map fun p ↦ ((m.heap.znode p).name, (m.heap.znode p).score),
    lists_of_visits hinv hsorted (not_le.mp hlim) hfound hnode hvisits, ?_⟩
  rw [List.length_map]
  exact (Option.some_inj.mp hend).symm

/-- A query that ends changes nothing but the layout of the database's hash map. -/
theorem doZquery_spec (h : Models ordered m trees K) {key cmd2 name cmd4 cmd5 : Bytes}
    {out : Bytes} (hexec : doZquery m key cmd2 name cmd4 cmd5 = some (m', out)) :
    Models ordered m' trees K ∧ (zquery key cmd2 name cmd4 cmd5).Reply ordered K out := by
  rw [doZquery] at hexec
  cases hscore : (str2dbl cmd2 : Option S) with
  | none =>
    rw [hscore] at hexec
    obtain ⟨rfl, rfl⟩ := Prod.mk.inj (Option.some_inj.mp hexec)
    exact ⟨h, by simp only [Reply, hscore]⟩
  | some score =>
  rw [hscore] at hexec
  cases hoff : str2int cmd4 with
  | none =>
    rw [hoff] at hexec
    obtain ⟨rfl, rfl⟩ := Prod.mk.inj (Option.some_inj.mp hexec)
    exact ⟨h, by simp only [Reply, hscore, hoff]⟩
  | some offset =>
  rw [hoff] at hexec
  cases hlim : str2int cmd5 with
  | none =>
    rw [hlim] at hexec
    obtain ⟨rfl, rfl⟩ := Prod.mk.inj (Option.some_inj.mp hexec)
    exact ⟨h, by simp only [Reply, hscore, hoff, hlim]⟩
  | some limit =>
  rw [hlim] at hexec
  obtain ⟨db, r, hcode, h', hr⟩ := expectZSet_spec h key
  simp only [hcode, Option.bind_eq_bind, Option.bind_some] at hexec
  cases hK : K key with
  | none =>
    rw [hK] at hr
    subst hr
    obtain ⟨rfl, rfl⟩ := Prod.mk.inj (Option.some_inj.mp hexec)
    exact ⟨h', by simp only [Reply, hscore, hoff, hlim, hK]; rfl⟩
  | some o =>
  cases o with
  | str val =>
    rw [hK] at hr
    subst hr
    obtain ⟨rfl, rfl⟩ := Prod.mk.inj (Option.some_inj.mp hexec)
    exact ⟨h', by simp only [Reply, hscore, hoff, hlim, hK]; rfl⟩
  | zset M =>
    rw [hK] at hr
    obtain ⟨p, z, rfl, hp, -, hz, rfl⟩ := hr
    obtain ⟨out', hquery, heq⟩ := Option.bind_eq_some_iff.mp hexec
    obtain ⟨rfl, rfl⟩ := Prod.mk.inj (Option.some_inj.mp heq)
    have hlists := zqueryIn_spec hz (h'.zset_inv hp hz).2 (fun ho ↦ h'.sorted ho p hp z hz) hquery
    exact ⟨h', by simpa only [Reply, hscore, hoff, hlim, hK] using hlists⟩

/-! ## Requests and runs -/

/-- Every request but `zquery` ends, with the effect and the reply of the keyspace. -/
theorem Request.exec_spec (h : Models ordered m trees K) {req : Request}
    (hreq : ∀ key score name offset limit, req ≠ .zquery key score name offset limit)
    (hnames : ordered → ∀ name ∈ req.names, name.length < u32Size) :
    ∃ m' trees' out, req.exec m = some (m', out) ∧ Models ordered m' trees' (req.effect K) ∧
      req.Reply ordered K out := by
  cases req with
  | keys =>
    obtain ⟨out, hcode, hreply⟩ := doKeys_spec h
    exact ⟨m, trees, out, hcode, h, hreply⟩
  | get key =>
    obtain ⟨m', out, hcode, h', hreply⟩ := doGet_spec h key
    exact ⟨m', trees, out, hcode, h', hreply⟩
  | set key val =>
    obtain ⟨m', hcode, h'⟩ := doSet_spec h key val
    exact ⟨m', trees, outNil, hcode, h', rfl⟩
  | del key =>
    obtain ⟨m', out, hcode, h', hreply⟩ := doDel_spec h key
    exact ⟨m', trees, out, hcode, h', hreply⟩
  | zadd key score name =>
    exact doZadd_spec h key score name fun ho ↦ hnames ho name (List.mem_singleton_self _)
  | zrem key name => exact doZrem_spec h key name
  | zscore key name => exact doZscore_spec h key name
  | zquery key score name offset limit => exact absurd rfl (hreq key score name offset limit)
  | unknown => exact ⟨m, trees, unknownCmd, rfl, h, rfl⟩

/-- The request is a query of a sorted set with arguments that are numbers. -/
def Request.Queries (K : Keyspace S) (req : Request) (M : Bytes → Option S) (s : S) (name : Bytes)
    (o lim : ℤ) : Prop :=
  ∃ key cmd2 cmd4 cmd5, req = .zquery key cmd2 name cmd4 cmd5 ∧ str2dbl cmd2 = some s ∧
    str2int cmd4 = some o ∧ str2int cmd5 = some lim ∧ K key = some (.zset M)

theorem Models.exec_ends {req : Request} (h : Models ordered m trees K)
    (hno : ∀ M s name o lim, ¬ req.Queries K M s name o lim) :
    ∃ m' out, req.exec m = some (m', out) := by
  by_cases hreq : ∃ key cmd2 name cmd4 cmd5, req = .zquery key cmd2 name cmd4 cmd5
  · obtain ⟨key, cmd2, name, cmd4, cmd5, rfl⟩ := hreq
    change ∃ m' out, doZquery m key cmd2 name cmd4 cmd5 = some (m', out)
    rw [doZquery]
    cases hs : (str2dbl cmd2 : Option S) with
    | none => exact ⟨_, _, rfl⟩
    | some s =>
    cases ho : str2int cmd4 with
    | none => exact ⟨_, _, rfl⟩
    | some o =>
    cases hlim : str2int cmd5 with
    | none => exact ⟨_, _, rfl⟩
    | some lim =>
    obtain ⟨db, r, hcode, -, hr⟩ := expectZSet_spec h key
    simp only [hcode, Option.bind_eq_bind, Option.bind_some]
    rcases hK : K key with _ | val | M
    · rw [hK] at hr
      subst hr
      exact ⟨_, _, rfl⟩
    · rw [hK] at hr
      subst hr
      exact ⟨_, _, rfl⟩
    · exact absurd ⟨key, cmd2, cmd4, cmd5, rfl, hs, ho, hlim, hK⟩ (hno M s name o lim)
  · -- the order of the trees does not matter here
    have h' : Models False m trees K := { h with sorted := False.elim }
    obtain ⟨m', -, out, hcode, -⟩ := Request.exec_spec h'
      (fun key cmd2 name cmd4 cmd5 heq ↦ hreq ⟨key, cmd2, name, cmd4, cmd5, heq⟩) False.elim
    exact ⟨m', out, hcode⟩

/-- **One command.** If it ends, the memory holds the keyspace after its effect, and the reply is
one the keyspace before it allows. -/
theorem Models.after_doRequest (h : Models ordered m trees K) {cmd : List Bytes} {out : Bytes}
    (hnames : ordered → ∀ name ∈ (ofCmd cmd).names, name.length < u32Size)
    (hexec : doRequest m cmd = some (m', out)) :
    ∃ trees', Models ordered m' trees' ((ofCmd cmd).effect K) ∧ (ofCmd cmd).Reply ordered K out := by
  rw [doRequest_eq] at hexec
  by_cases hreq : ∃ key score name offset limit,
      ofCmd cmd = .zquery key score name offset limit
  · obtain ⟨key, score, name, offset, limit, heq⟩ := hreq
    rw [heq] at hexec ⊢
    exact ⟨trees, doZquery_spec h hexec⟩
  · obtain ⟨m₁, trees', out', hcode, h', hreply⟩ := Request.exec_spec h
      (fun key score name offset limit heq ↦ hreq ⟨key, score, name, offset, limit, heq⟩) hnames
    rw [hcode] at hexec
    obtain ⟨rfl, rfl⟩ := Prod.mk.inj (Option.some_inj.mp hexec)
    exact ⟨trees', h', hreply⟩

/-- The order of the trees matters for the reply to a query only. -/
private theorem Request.reply_of_false {req : Request} {out : Bytes}
    (hreq : ∀ key score name offset limit, req ≠ .zquery key score name offset limit)
    (hreply : req.Reply False K out) : req.Reply ordered K out := by
  cases req with
  | zquery key score name offset limit => exact absurd rfl (hreq key score name offset limit)
  | _ => exact hreply

/-- A reply is one that the keyspace allows, also where the command brings a name that is too
long. -/
theorem Models.reply_of_doRequest (h : Models ordered m trees K) {cmd : List Bytes} {out : Bytes}
    (hexec : doRequest m cmd = some (m', out)) : (ofCmd cmd).Reply ordered K out := by
  by_cases hreq : ∃ key score name offset limit,
      ofCmd cmd = .zquery key score name offset limit
  · obtain ⟨key, score, name, offset, limit, heq⟩ := hreq
    rw [doRequest_eq, heq] at hexec
    rw [heq]
    exact (doZquery_spec h hexec).2
  · have h' : Models False m trees K := { h with sorted := False.elim }
    obtain ⟨-, -, hreply⟩ := h'.after_doRequest False.elim hexec
    exact Request.reply_of_false (fun key score name offset limit heq ↦
      hreq ⟨key, score, name, offset, limit, heq⟩) hreply

/-- A sequence of commands, with all their replies. -/
def doRequests (m : Mem S) : List (List Bytes) → Option (Mem S × List Bytes)
  | [] => some (m, [])
  | cmd :: cmds => do
    let (m, out) ← doRequest m cmd
    let (m, outs) ← doRequests m cmds
    some (m, out :: outs)

theorem doRequests_cons {m₁ m₂ : Mem S} {cmd : List Bytes} {cmds : List (List Bytes)} {out : Bytes}
    {outs : List Bytes} (hcmd : doRequest m cmd = some (m₁, out))
    (hcmds : doRequests m₁ cmds = some (m₂, outs)) :
    doRequests m (cmd :: cmds) = some (m₂, out :: outs) := by
  rw [doRequests, hcmd]
  simp only [Option.bind_eq_bind, Option.bind_some, hcmds]

theorem doRequests_singleton {m₁ : Mem S} {cmd : List Bytes} {out : Bytes}
    (hcmd : doRequest m cmd = some (m₁, out)) : doRequests m [cmd] = some (m₁, [out]) :=
  doRequests_cons hcmd rfl

/-- **A run of commands.** The memory holds the keyspace that their effects make. -/
theorem Models.after_doRequests (h : Models ordered m trees K) {cmds : List (List Bytes)}
    {outs : List Bytes}
    (hnames : ordered → ∀ cmd ∈ cmds, ∀ name ∈ (ofCmd cmd).names, name.length < u32Size)
    (hexec : doRequests m cmds = some (m', outs)) :
    ∃ trees', Models ordered m' trees' (cmds.foldl (fun K cmd ↦ (ofCmd cmd).effect K) K) := by
  induction cmds generalizing m trees K outs with
  | nil =>
    obtain ⟨rfl, -⟩ := Prod.mk.inj (Option.some_inj.mp hexec)
    exact ⟨trees, h⟩
  | cons cmd cmds ih =>
    simp only [doRequests, Option.bind_eq_bind, Option.bind_eq_some_iff] at hexec
    obtain ⟨⟨m₁, out⟩, hcmd, ⟨m₂, outs'⟩, hcmds, heq⟩ := hexec
    obtain ⟨rfl, -⟩ := Prod.mk.inj (Option.some_inj.mp heq)
    obtain ⟨trees₁, h₁, -⟩ :=
      h.after_doRequest (fun ho ↦ hnames ho cmd (List.mem_cons_self ..)) hcmd
    exact ih h₁ (fun ho c hc ↦ hnames ho c (List.mem_cons_of_mem _ hc)) hcmds

end RedisOnC
