import RedisOnC.Server.LastWrite
import RedisOnC.Conn.Basic

/-!
# The content of the database

What a client can know of a memory is its `content`: the keys, and the string or the map from names
to scores of each of them. It is read off the entries in the database and does not depend on where
the nodes of the hash maps stand. A memory that holds a keyspace has that keyspace as its content.

With it come two properties of the replies. An error reply means that the content has not changed;
the commands that change it have short replies, so the limit on the size of a reply replaces no
reply of theirs. And the commands that expect a sorted set say so for every key that holds a
string, while `get` and `set` do not look at the type of an entry.
-/

open BinaryTree

namespace RedisOnC

open Request

variable {S : Type}

/-- The nodes of the set of an entry. -/
def Mem.members (m : Mem S) (p : Ptr) : List Ptr :=
  ((m.entry p).zset.map fun z ↦ (m.zset z).hmap.nodes.map HNode.val).getD []

/-- What an entry says that its key is bound to. -/
def Mem.obj (m : Mem S) (p : Ptr) : Obj S :=
  match (m.entry p).type with
  | .str => .str (m.entry p).val
  | .zset => .zset (zmap m.heap (m.members p))

/-- The keys and what they are bound to. -/
def Mem.content (m : Mem S) : Keyspace S := fun key ↦
  (m.ptrs.find? fun p ↦ (m.entry p).key = key).map m.obj

theorem zmap_perm {H : ZHeap S} {l l' : List Ptr} (hnd : (l.map fun p ↦ (H.znode p).name).Nodup)
    (hperm : l.Perm l') : zmap H l = zmap H l' := by
  have hnd' := (hperm.map fun p ↦ (H.znode p).name).nodup_iff.mp hnd
  funext name
  by_cases hex : ∃ p ∈ l, (H.znode p).name = name
  · obtain ⟨p, hp, hname⟩ := hex
    rw [zmap_eq_some hnd hp hname, zmap_eq_some hnd' (hperm.mem_iff.mp hp) hname]
  · have hno : ∀ p ∈ l, (H.znode p).name ≠ name := fun p hp hname ↦ hex ⟨p, hp, hname⟩
    rw [zmap_eq_none_iff.mpr hno, zmap_eq_none_iff.mpr]
    exact fun p hp ↦ hno p (hperm.mem_iff.mpr hp)

section Order

variable [LinearOrder S] {m : Mem S} {trees : Ptr → BinaryTree Ptr} {K : Keyspace S}
variable {ordered : Prop} {p : Ptr}

omit [LinearOrder S] in
theorem EntryHolds.obj_eq {o : Obj S} (h : EntryHolds m trees p o) : m.obj p = o := by
  cases o with
  | str val =>
    obtain ⟨htype, -, hval⟩ := h
    rw [Mem.obj, htype, hval]
  | zset M =>
    obtain ⟨htype, -, z, -, hz, hinv, rfl⟩ := h
    have hmembers : m.members p = (m.zset z).hmap.nodes.map HNode.val := by
      rw [Mem.members, hz]
      rfl
    rw [Mem.obj, htype, hmembers, zmap_perm hinv.names hinv.perm.symm]

theorem Models.content_eq (h : Models ordered m trees K) : m.content = K := by
  funext key
  rw [Mem.content]
  cases hfind : m.ptrs.find? fun p ↦ (m.entry p).key = key with
  | none =>
    have hno := List.find?_eq_none.mp hfind
    exact (h.absent key fun p hp hkey ↦ hno p hp (decide_eq_true hkey)).symm
  | some p =>
    have hp : p ∈ m.ptrs := List.mem_of_find?_eq_some hfind
    have hkey : (m.entry p).key = key := by simpa using List.find?_some hfind
    obtain ⟨o, ho, hholds⟩ := h.holds p hp
    rw [Option.map_some, hholds.obj_eq, ← ho, hkey]

end Order

variable [Score S] {m m' : Mem S} {trees : Ptr → BinaryTree Ptr} {K : Keyspace S}
variable {ordered : Prop} {key name out : Bytes} {cmd : List Bytes}

/-! ## Error replies -/

/-- A request that may change the keyspace has a short reply. -/
theorem Request.effect_eq_or_brief {req : Request} (h : req.Reply ordered K out) :
    req.effect K = K ∨ out = outNil ∨ ∃ i, out = outInt i := by
  cases req with
  | set key val => exact Or.inr (Or.inl h)
  | del key => exact Or.inr (Or.inr ⟨_, h⟩)
  | zadd key score name =>
    rw [effect]
    rw [Reply] at h
    cases hscore : (str2dbl score : Option S) with
    | none => exact Or.inl rfl
    | some s =>
      rw [hscore] at h
      rcases hK : K key with _ | val | M <;> rw [hK] at h
      · exact Or.inr (Or.inr ⟨_, h⟩)
      · exact Or.inl rfl
      · exact Or.inr (Or.inr ⟨_, h⟩)
  | zrem key name =>
    rw [effect]
    rw [Reply] at h
    rcases hK : K key with _ | val | M <;> rw [hK] at h
    · exact Or.inl rfl
    · exact Or.inl rfl
    · exact Or.inr (Or.inr ⟨_, h⟩)
  | keys => exact Or.inl rfl
  | get key => exact Or.inl rfl
  | zscore key name => exact Or.inl rfl
  | zquery key score name offset limit => exact Or.inl rfl
  | unknown => exact Or.inl rfl

/-- **An error reply means that nothing happened.** When the reply in the write buffer is an error,
be it the reply of the command or the one in place of a reply that is too big, the content of the
database is what it was. -/
theorem content_eq_of_error (hm : Reachable m) (hexec : doRequest m cmd = some (m', out))
    (herr : (capReply out).head? = some serErr) : m'.content = m.content := by
  obtain ⟨trees, K, h⟩ := hm.models
  obtain ⟨trees', h', hreply⟩ := h.after_doRequest (fun ho ↦ ho.elim) hexec
  rw [h'.content_eq, h.content_eq]
  -- A short reply is not replaced, and it is no error.
  rcases Request.effect_eq_or_brief hreply with heq | rfl | ⟨i, rfl⟩
  · exact heq
  · have hcap : capReply outNil = outNil := if_neg (by decide)
    rw [hcap] at herr
    exact absurd herr (by decide)
  · have hlength : (outInt i).length = 9 := by rw [outInt, List.length_cons, length_leBytes]
    have hcap : capReply (outInt i) = outInt i := if_neg (by rw [hlength]; decide)
    rw [hcap] at herr
    exact absurd (Option.some_inj.mp herr) (by decide)

theorem content_eq_of_error_zadd : ∃ m m' : Mem ℤ,
    doRequests Mem.empty [[ascii "set", ascii "k", ascii "v"]] = some (m, [outNil]) ∧
    doRequest m [ascii "zadd", ascii "k", ascii "1", ascii "n"] = some (m', typeError) ∧
    m'.content = m.content := by
  obtain ⟨m, hset, h, -⟩ := exists_set_once
  have hrun := doRequests_singleton hset
  obtain ⟨m', trees, out, hexec, -, hreply⟩ := doZadd_spec h (ascii "k") (ascii "1") (ascii "n")
    fun ho ↦ ho.elim
  have hscore : (str2dbl (ascii "1") : Option ℤ) = some 1 := by decide
  simp only [Reply, hscore, Function.update_self] at hreply
  subst hreply
  have hreq : doRequest m [ascii "zadd", ascii "k", ascii "1", ascii "n"] = some (m', typeError) :=
    hexec
  exact ⟨m, m', hrun, hreq, content_eq_of_error ⟨_, _, _, _, _, _, hrun⟩ hreq (by decide)⟩

/-! ## Types -/

/-- The key has an entry of the type. -/
def Mem.HasType (m : Mem S) (key : Bytes) (type : EntryType) : Prop :=
  ∃ p ∈ m.ptrs, (m.entry p).key = key ∧ (m.entry p).type = type

/-- The request names a key whose entry has the other type, with valid numbers. -/
def WrongType (m : Mem S) : Request → Prop
  | .zadd key score _ => m.HasType key .str ∧ (str2dbl score : Option S).isSome
  | .zrem key _ => m.HasType key .str
  | .zscore key _ => m.HasType key .str
  | .zquery key score _ offset limit =>
    m.HasType key .str ∧ (str2dbl score : Option S).isSome ∧ (str2int offset).isSome ∧
      (str2int limit).isSome
  | .get key => m.HasType key .zset
  | .set key _ => m.HasType key .zset
  | _ => False

/-- The reply is the type error, the content is what it was, and no entry has changed. -/
def Refused (m : Mem S) (req : Request) : Prop :=
  ∃ m', req.exec m = some (m', typeError) ∧ m'.content = m.content ∧ m'.entry = m.entry

/-- The type of the entries that hold an object. -/
def Obj.type : Obj S → EntryType
  | .str _ => .str
  | .zset _ => .zset

omit [Score S] in
theorem EntryHolds.type_eq {o : Obj S} {p : Ptr} (h : EntryHolds m trees p o) :
    (m.entry p).type = o.type := by
  cases o with
  | str val => exact h.1
  | zset M => exact h.1

theorem Models.hasType_iff (h : Models ordered m trees K) {type : EntryType} :
    m.HasType key type ↔ ∃ o, K key = some o ∧ o.type = type := by
  constructor
  · rintro ⟨p, hp, rfl, rfl⟩
    obtain ⟨o, ho, hholds⟩ := h.holds p hp
    exact ⟨o, ho, hholds.type_eq.symm⟩
  · rintro ⟨o, ho, rfl⟩
    have hex : ∃ p ∈ m.ptrs, (m.entry p).key = key := by
      by_contra hno
      rw [h.absent key fun p hp heq ↦ hno ⟨p, hp, heq⟩] at ho
      cases ho
    obtain ⟨p, hp, rfl⟩ := hex
    exact ⟨p, hp, rfl, (h.entryHolds hp ho).type_eq⟩

theorem Models.str_of_hasType (h : Models ordered m trees K) (htype : m.HasType key .str) :
    ∃ val, K key = some (.str val) := by
  obtain ⟨o, ho, heq⟩ := h.hasType_iff.mp htype
  cases o with
  | str val => exact ⟨val, ho⟩
  | zset M => cases heq

theorem Models.zset_of_hasType (h : Models ordered m trees K) (htype : m.HasType key .zset) :
    ∃ M, K key = some (.zset M) := by
  obtain ⟨o, ho, heq⟩ := h.hasType_iff.mp htype
  cases o with
  | str val => cases heq
  | zset M => exact ⟨M, ho⟩

private theorem expectZSet_of_str (h : Models ordered m trees K) (htype : m.HasType key .str) :
    ∃ db, expectZSet m key = some ({ m with db := db }, .inl typeError) ∧
      Models ordered { m with db := db } trees K := by
  obtain ⟨val, hK⟩ := h.str_of_hasType htype
  obtain ⟨db, r, hcode, h', hr⟩ := expectZSet_spec h key
  rw [hK] at hr
  subst hr
  exact ⟨db, hcode, h'⟩

private theorem Models.refused (h : Models ordered m trees K) {req : Request} {db : HMap Ptr}
    (hexec : req.exec m = some ({ m with db := db }, typeError))
    (h' : Models ordered { m with db := db } trees K) : Refused m req := by
  refine ⟨_, hexec, ?_, rfl⟩
  rw [h'.content_eq, h.content_eq]

/-- The commands that look at the type of the entry. -/
theorem Models.refused_of_wrongType (h : Models ordered m trees K) {req : Request}
    (hreq : WrongType m req) (hget : ∀ key, req ≠ .get key) (hset : ∀ key val, req ≠ .set key val) :
    Refused m req := by
  cases req with
  | keys => exact hreq.elim
  | del key => exact hreq.elim
  | unknown => exact hreq.elim
  | get key => exact absurd rfl (hget key)
  | set key val => exact absurd rfl (hset key val)
  | zadd key score name =>
    obtain ⟨htype, hscore⟩ := hreq
    obtain ⟨s, hs⟩ := Option.isSome_iff_exists.mp hscore
    obtain ⟨val, hK⟩ := h.str_of_hasType htype
    obtain ⟨db, r, hcode, h', hr⟩ := h.lookup key
    rcases r with _ | p
    · rw [hK] at hr
      cases hr
    · -- `do_zadd` compares the type itself, the others leave it to `expect_zset`
      obtain ⟨hp, -, o, ho, hholds⟩ := hr
      obtain rfl : Obj.str val = o := Option.some_inj.mp (hK.symm.trans ho)
      have htype : (m.entry p).type = .str := hholds.1
      refine h.refused ?_ h'
      rw [exec, doZadd, hs]
      simp only [Option.bind_eq_bind, hcode, Option.bind_some, htype]
      rfl
  | zrem key name =>
    obtain ⟨db, hcode, h'⟩ := expectZSet_of_str h hreq
    refine h.refused ?_ h'
    rw [exec, doZrem, hcode]
    rfl
  | zscore key name =>
    obtain ⟨db, hcode, h'⟩ := expectZSet_of_str h hreq
    refine h.refused ?_ h'
    rw [exec, doZscore, hcode]
    rfl
  | zquery key score name offset limit =>
    obtain ⟨htype, hscore, hoffset, hlimit⟩ := hreq
    obtain ⟨s, hs⟩ := Option.isSome_iff_exists.mp hscore
    obtain ⟨o, ho⟩ := Option.isSome_iff_exists.mp hoffset
    obtain ⟨l, hl⟩ := Option.isSome_iff_exists.mp hlimit
    obtain ⟨db, hcode, h'⟩ := expectZSet_of_str h htype
    refine h.refused ?_ h'
    rw [exec, doZquery, hs, ho, hl]
    simp only [Option.bind_eq_bind, hcode, Option.bind_some]
    rfl

/-- **Types.** A command that names a key whose entry has the other type is refused exactly if it is
neither `get` nor `set`: the one replies as to an empty string, the other as if it had stored. -/
theorem refused_iff (hm : Reachable m) (hcmd : WrongType m (ofCmd cmd)) :
    Refused m (ofCmd cmd) ↔
      ∀ key, ofCmd cmd ≠ .get key ∧ ∀ val, ofCmd cmd ≠ .set key val := by
  obtain ⟨trees, K, h⟩ := hm.models
  constructor
  · rintro ⟨m', hexec, -⟩ key
    constructor
    · intro hget
      rw [hget] at hexec hcmd
      obtain ⟨M, hK⟩ := h.zset_of_hasType hcmd
      obtain ⟨m₁, out, hcode, -, hreply⟩ := doGet_spec h key
      rw [exec, hcode] at hexec
      rw [Reply, hK] at hreply
      obtain ⟨-, rfl⟩ := Prod.mk.inj (Option.some_inj.mp hexec)
      exact absurd (show typeError = outStr [] from hreply) (by decide)
    · intro val hset
      rw [hset] at hexec
      obtain ⟨m₁, hcode, -⟩ := doSet_spec h key val
      rw [exec, hcode] at hexec
      obtain ⟨-, hout⟩ := Prod.mk.inj (Option.some_inj.mp hexec)
      exact absurd hout (by decide)
  · intro hother
    exact h.refused_of_wrongType hcmd (fun key ↦ (hother key).1) fun key ↦ (hother key).2

/-- After `set k v` and `zadd z 1 n`: `zscore k n`, `get z` and `set z v`. -/
theorem refused_iff_both : ∃ m : Mem ℤ,
    (∃ outs, doRequests Mem.empty [[ascii "set", ascii "k", ascii "v"],
      [ascii "zadd", ascii "z", ascii "1", ascii "n"]] = some (m, outs)) ∧
    Refused m (ofCmd [ascii "zscore", ascii "k", ascii "n"]) ∧
    ¬ Refused m (ofCmd [ascii "get", ascii "z"]) ∧
    ¬ Refused m (ofCmd [ascii "set", ascii "z", ascii "v"]) := by
  obtain ⟨m₁, hset, h₁, -⟩ := exists_set_once
  obtain ⟨m, trees, out, hcode, h, -⟩ := doZadd_spec h₁ (ascii "z") (ascii "1") (ascii "n")
    fun ho ↦ ho.elim
  have hzadd : doRequest m₁ [ascii "zadd", ascii "z", ascii "1", ascii "n"] = some (m, out) := hcode
  have hrun := doRequests_cons hset (doRequests_singleton hzadd)
  have hz : Function.update (fun _ ↦ (none : Option (Obj ℤ))) (ascii "k")
      (some (.str (ascii "v"))) (ascii "z") = none := Function.update_of_ne (by decide) _ _
  have hscore : (str2dbl (ascii "1") : Option ℤ) = some 1 := by decide
  simp only [effect, hscore, hz] at h
  have hstr : WrongType m (ofCmd [ascii "zscore", ascii "k", ascii "n"]) :=
    h.hasType_iff.mpr ⟨_, (Function.update_of_ne (by decide) _ _).trans (Function.update_self ..),
      rfl⟩
  have hzset : m.HasType (ascii "z") .zset :=
    h.hasType_iff.mpr ⟨_, Function.update_self .., rfl⟩
  have hm : Reachable m := ⟨_, _, _, _, _, _, hrun⟩
  have hget : WrongType m (ofCmd [ascii "get", ascii "z"]) := hzset
  have hset' : WrongType m (ofCmd [ascii "set", ascii "z", ascii "v"]) := hzset
  refine ⟨m, ⟨_, hrun⟩, (refused_iff hm hstr).mpr fun key ↦ ⟨?_, fun val ↦ ?_⟩, fun h ↦ ?_,
    fun h ↦ ?_⟩
  · exact fun heq ↦ by cases heq
  · exact fun heq ↦ by cases heq
  · exact ((refused_iff hm hget).mp h (ascii "z")).1 rfl
  · exact ((refused_iff hm hset').mp h (ascii "z")).2 (ascii "v") rfl

/-- `zadd k 1 n`, then `get k` and `set k v`: the one replies the empty string and the other
nil. -/
theorem not_refused_get_set : ∃ m : Mem ℤ,
    (∃ outs, doRequests Mem.empty [[ascii "zadd", ascii "k", ascii "1", ascii "n"]]
      = some (m, outs)) ∧ m.HasType (ascii "k") .zset ∧
    (∃ m', doRequest m [ascii "get", ascii "k"] = some (m', outStr [])) ∧
    (∃ m', doRequest m [ascii "set", ascii "k", ascii "v"] = some (m', outNil)) ∧
    ¬ Refused m (ofCmd [ascii "get", ascii "k"]) ∧
    ¬ Refused m (ofCmd [ascii "set", ascii "k", ascii "v"]) := by
  obtain ⟨m, trees, out, hzadd, h⟩ := exists_zadd_once
  have hrun := doRequests_singleton hzadd
  obtain ⟨m₁, out₁, hget, -, hreply⟩ := doGet_spec h (ascii "k")
  obtain ⟨m₂, hset, -⟩ := doSet_spec h (ascii "k") (ascii "v")
  rw [Reply, Function.update_self] at hreply
  subst hreply
  refine ⟨m, ⟨_, hrun⟩, h.hasType_iff.mpr ⟨_, Function.update_self .., rfl⟩, ⟨m₁, hget⟩,
    ⟨m₂, hset⟩, ?_, ?_⟩
  · rintro ⟨m', hexec, -⟩
    have hout := hget.symm.trans hexec
    exact absurd (Prod.mk.inj (Option.some_inj.mp hout)).2 (by decide)
  · rintro ⟨m', hexec, -⟩
    have hout := hset.symm.trans hexec
    exact absurd (Prod.mk.inj (Option.some_inj.mp hout)).2 (by decide)

end RedisOnC
