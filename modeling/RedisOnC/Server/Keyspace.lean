import RedisOnC.Server.LastWrite

/-!
# The keyspace as a map of maps

The abstract database of the commands `DEL`, `KEYS`, `ZADD`, `ZREM` and `ZSCORE`: each key is
either a string, whose value does not matter here, or a finite map from names to scores. Any run of
`do_request` gives the replies of this machine. The map of maps goes through a hash map of entries
in some stage of resizing, each with another hash map and a tree below it.
-/

open BinaryTree

namespace RedisOnC

open Request

variable {S : Type}

/-- What a key is, without the value of a string. -/
inductive Kind (S : Type)
  | str
  | zset (M : Bytes → Option S)

def Obj.kind : Obj S → Kind S
  | .str _ => .str
  | .zset M => .zset M

/-- Keys and what they are. -/
abbrev Kinds (S : Type) := Bytes → Option (Kind S)

def Keyspace.kinds (K : Keyspace S) : Kinds S := fun key ↦ (K key).map Obj.kind

variable [Score S] {m m' : Mem S} {trees : Ptr → BinaryTree Ptr} {K : Keyspace S} {A : Kinds S}
variable {ordered : Prop}

/-- What a request makes of the abstract database. -/
def Kinds.effect (A : Kinds S) : Request → Kinds S
  | .set key _ => if (A key).isSome then A else Function.update A key (some .str)
  | .del key => Function.update A key none
  | .zadd key score name =>
    match (str2dbl score : Option S), A key with
    | some s, none =>
      Function.update A key (some (.zset (Function.update (fun _ ↦ none) name (some s))))
    | some s, some (.zset M) =>
      Function.update A key (some (.zset (Function.update M name (some s))))
    | _, _ => A
  | .zrem key name =>
    match A key with
    | some (.zset M) => Function.update A key (some (.zset (Function.update M name none)))
    | _ => A
  | _ => A

/-- What the abstract database replies; nothing is said about `GET`, `SET` and `ZQUERY`. -/
def Kinds.Reply (A : Kinds S) : Request → Bytes → Prop
  | .keys, out => ∃ ks : List Bytes, ks.Nodup ∧ (∀ key, key ∈ ks ↔ (A key).isSome) ∧
      out = serArr :: leBytes 4 (ks.length % 2 ^ 32) ++ ks.flatMap outStr
  | .del key, out => out = outInt (if (A key).isSome then 1 else 0)
  | .zadd key score name, out =>
    match (str2dbl score : Option S), A key with
    | none, _ => out = outErr errArg (ascii "expect fp number")
    | some _, some .str => out = typeError
    | some _, none => out = outInt 1
    | some _, some (.zset M) => out = outInt (if (M name).isNone then 1 else 0)
  | .zrem key name, out =>
    match A key with
    | none => out = outNil
    | some .str => out = typeError
    | some (.zset M) => out = outInt (if (M name).isSome then 1 else 0)
  | .zscore key name, out =>
    match A key with
    | none => out = outNil
    | some .str => out = typeError
    | some (.zset M) => out = (M name).elim outNil fun s ↦ outDbl (Score.bytes s)
  | _, _ => True

omit [Score S] in
theorem Keyspace.kinds_update (K : Keyspace S) (key : Bytes) (o : Option (Obj S)) :
    Keyspace.kinds (Function.update K key o)
      = Function.update (Keyspace.kinds K) key (o.map Obj.kind) := by
  funext k
  by_cases hk : k = key
  · rw [hk, Keyspace.kinds, Function.update_self, Function.update_self]
  · rw [Keyspace.kinds, Function.update_of_ne hk, Function.update_of_ne hk, Keyspace.kinds]

/-- Forgetting the values of strings commutes with every request. -/
theorem Keyspace.kinds_effect (K : Keyspace S) (req : Request) :
    Keyspace.kinds (req.effect K) = (Keyspace.kinds K).effect req := by
  have hkey : ∀ {key} {o : Option (Obj S)}, K key = o → K.kinds key = o.map Obj.kind :=
    fun ho ↦ congrArg (Option.map Obj.kind) ho
  cases req with
  | set key val =>
    rcases hK : K key with _ | u | M
    · simp only [Request.effect, Kinds.effect, hK, hkey hK, kinds_update]
      rfl
    · have hself : Function.update K.kinds key (some .str) = K.kinds := by
        rw [show some Kind.str = K.kinds key from (hkey hK).symm, Function.update_eq_self]
      simp only [Request.effect, Kinds.effect, hK, hkey hK, kinds_update]
      exact hself
    · simp only [Request.effect, Kinds.effect, hK, hkey hK]
      rfl
  | del key => exact kinds_update K key none
  | zadd key score name =>
    rcases hs : (str2dbl score : Option S) with _ | s
    · simp only [Request.effect, Kinds.effect, hs]
    rcases hK : K key with _ | u | M <;>
      simp only [Request.effect, Kinds.effect, hs, hK, hkey hK, kinds_update] <;> rfl
  | zrem key name =>
    rcases hK : K key with _ | u | M <;>
      simp only [Request.effect, Kinds.effect, hK, hkey hK, kinds_update] <;> rfl
  | keys => rfl
  | get key => rfl
  | zscore key name => rfl
  | zquery key score name offset limit => rfl
  | unknown => rfl

/-- A reply that the keyspace allows is one that the abstract database gives. -/
theorem Kinds.reply_of_reply {req : Request} {out : Bytes} (h : req.Reply ordered K out) :
    (Keyspace.kinds K).Reply req out := by
  have hkey : ∀ {key} {o : Option (Obj S)}, K key = o → K.kinds key = o.map Obj.kind :=
    fun ho ↦ congrArg (Option.map Obj.kind) ho
  have hsome : ∀ key, (K.kinds key).isSome = (K key).isSome := fun key ↦ Option.isSome_map ..
  cases req with
  | keys =>
    obtain ⟨ks, hnd, hmem, rfl⟩ := h
    refine ⟨ks, hnd, fun key ↦ by rw [hmem, hsome], ?_⟩
    rw [outArr, show leBytes 4 (ks.length % 2 ^ 32) = leBytes 4 ks.length from leBytes_mod 4 _]
  | del key =>
    rw [Kinds.Reply, hsome]
    exact h
  | zadd key score name =>
    rcases hs : (str2dbl score : Option S) with _ | s
    · simpa only [Request.Reply, Kinds.Reply, hs] using h
    rcases hK : K key with _ | u | M <;>
      simpa only [Request.Reply, Kinds.Reply, hs, hK, hkey hK, Option.map_some, Option.map_none,
        Obj.kind] using h
  | zrem key name =>
    rcases hK : K key with _ | u | M <;>
      simpa only [Request.Reply, Kinds.Reply, hK, hkey hK, Option.map_some, Option.map_none,
        Obj.kind] using h
  | zscore key name =>
    rcases hK : K key with _ | u | M <;>
      simpa only [Request.Reply, Kinds.Reply, hK, hkey hK, Option.map_some, Option.map_none,
        Obj.kind] using h
  | get key => trivial
  | set key val => trivial
  | zquery key score name offset limit => trivial
  | unknown => trivial

theorem foldl_kinds_effect (K : Keyspace S) (cmds : List (List Bytes)) :
    Keyspace.kinds (cmds.foldl (fun K cmd ↦ (ofCmd cmd).effect K) K)
      = cmds.foldl (fun A cmd ↦ A.effect (ofCmd cmd)) (Keyspace.kinds K) := by
  induction cmds generalizing K with
  | nil => rfl
  | cons cmd cmds ih => rw [List.foldl_cons, List.foldl_cons, ih, Keyspace.kinds_effect]

/-- The request is no `ZQUERY`. -/
def Request.NoQuery (req : Request) : Prop :=
  ∀ key score name offset limit, req ≠ .zquery key score name offset limit

theorem Models.exists_doRequests (h : Models ordered m trees K) {cmds : List (List Bytes)}
    (hquery : ∀ cmd ∈ cmds, (ofCmd cmd).NoQuery)
    (hnames : ordered → ∀ cmd ∈ cmds, ∀ name ∈ (ofCmd cmd).names, name.length < u32Size) :
    ∃ m' trees' outs, doRequests m cmds = some (m', outs) ∧
      Models ordered m' trees' (cmds.foldl (fun K cmd ↦ (ofCmd cmd).effect K) K) := by
  induction cmds generalizing m trees K with
  | nil => exact ⟨m, trees, [], rfl, h⟩
  | cons cmd cmds ih =>
    obtain ⟨m₁, trees₁, out, hcode, h₁, -⟩ := Request.exec_spec h
      (hquery cmd (List.mem_cons_self ..)) fun ho ↦ hnames ho cmd (List.mem_cons_self ..)
    obtain ⟨m₂, trees₂, outs, hcodes, h₂⟩ := ih h₁
      (fun c hc ↦ hquery c (List.mem_cons_of_mem _ hc))
      fun ho c hc ↦ hnames ho c (List.mem_cons_of_mem _ hc)
    refine ⟨m₂, trees₂, out :: outs, ?_, h₂⟩
    exact doRequests_cons ((doRequest_eq m cmd).trans hcode) hcodes

/-- The abstract database that a sequence of commands leads to, from the empty one. -/
def kindsAfter (S : Type) [Score S] (cmds : List (List Bytes)) : Kinds S :=
  cmds.foldl (fun A cmd ↦ A.effect (ofCmd cmd)) fun _ ↦ none

/-- **Keyspace refinement.** After any run of commands from the empty database, each further
command replies what the abstract database replies that the run leads to; and it does reply, unless
it is a `ZQUERY`. -/
theorem do_request_refines_kinds (entry : Ptr → Entry) (zset : Ptr → ZSet) (avl : AVLHeap)
    (znode : Ptr → ZNode S) (cmds : List (List Bytes)) (outs : List Bytes)
    (hrun : doRequests (Mem.init entry zset avl znode) cmds = some (m, outs)) (cmd : List Bytes) :
    ((ofCmd cmd).NoQuery → ∃ (m' : Mem S) (out : Bytes), doRequest m cmd = some (m', out)) ∧
    ∀ (m' : Mem S) (out : Bytes), doRequest m cmd = some (m', out) →
      (kindsAfter S cmds).Reply (ofCmd cmd) out := by
  have hinit : Models False (Mem.init entry zset avl znode) (fun _ ↦ nil) fun _ ↦ none :=
    models_init entry zset avl znode
  obtain ⟨trees, h⟩ := hinit.after_doRequests (fun ho ↦ ho.elim) hrun
  refine ⟨fun hquery ↦ ?_, fun m' out hexec ↦ ?_⟩
  · obtain ⟨m', -, out, hcode, -⟩ := Request.exec_spec h hquery fun ho ↦ ho.elim
    exact ⟨m', out, by rw [doRequest_eq, hcode]⟩
  · obtain ⟨-, -, hreply⟩ := h.after_doRequest (fun ho ↦ ho.elim) hexec
    have hkinds := Kinds.reply_of_reply hreply
    rw [foldl_kinds_effect] at hkinds
    exact hkinds

/-- A member added, its key deleted and created again as a string. -/
theorem do_request_refines_kinds_recreated : ∃ m outs m' out,
    doRequests Mem.empty [[ascii "zadd", ascii "k", ascii "1", ascii "n"], [ascii "del", ascii "k"],
      [ascii "set", ascii "k", ascii "v"]] = some (m, outs) ∧
    doRequest m [ascii "zrem", ascii "k", ascii "n"] = some (m', out) ∧ out = typeError := by
  have hquery : ∀ cmd ∈ [[ascii "zadd", ascii "k", ascii "1", ascii "n"],
      [ascii "del", ascii "k"], [ascii "set", ascii "k", ascii "v"]], (ofCmd cmd).NoQuery := by
    intro cmd hcmd
    simp only [List.mem_cons, List.not_mem_nil, or_false] at hcmd
    rcases hcmd with rfl | rfl | rfl <;> intro _ _ _ _ _ heq <;> cases heq
  obtain ⟨m, -, outs, hrun, -⟩ := models_empty.exists_doRequests hquery fun ho ↦ ho.elim
  obtain ⟨htotal, hreply⟩ := do_request_refines_kinds _ _ _ _ _ _ hrun
    [ascii "zrem", ascii "k", ascii "n"]
  obtain ⟨m', out, hexec⟩ := htotal fun _ _ _ _ _ heq ↦ by cases heq
  refine ⟨m, outs, m', out, hrun, hexec, ?_⟩
  have hout := hreply m' out hexec
  exact hout

/-! ## Where the header and the type error stop -/

/-- One `SET` for each of the first `n` keys of eight bytes. -/
def setAll (n : ℕ) : List (List Bytes) :=
  (List.range n).map fun i ↦ [ascii "set", leBytes 8 i, []]

theorem isSome_kindsAfter_setAll (n : ℕ) (key : Bytes) :
    (kindsAfter ℤ (setAll n) key).isSome ↔ ∃ i < n, key = leBytes 8 i := by
  induction n with
  | zero => simp [setAll, kindsAfter]
  | succ n ih =>
    have hstep : kindsAfter ℤ (setAll (n + 1))
        = (kindsAfter ℤ (setAll n)).effect (.set (leBytes 8 n) []) := by
      rw [kindsAfter, setAll, List.range_succ, List.map_append, List.foldl_append]
      rfl
    have hset : ((kindsAfter ℤ (setAll n)).effect (.set (leBytes 8 n) []) key).isSome
        ↔ (kindsAfter ℤ (setAll n) key).isSome ∨ key = leBytes 8 n := by
      rw [Kinds.effect]
      by_cases hkey : key = leBytes 8 n
      · subst hkey
        split
        · next hsome => simp [hsome]
        · simp
      · split <;> simp [hkey]
    rw [hstep, hset, ih]
    constructor
    · rintro (⟨i, hi, rfl⟩ | rfl)
      · exact ⟨i, Nat.lt_succ_of_lt hi, rfl⟩
      · exact ⟨n, Nat.lt_succ_self n, rfl⟩
    · rintro ⟨i, hi, rfl⟩
      rcases Nat.lt_succ_iff_lt_or_eq.mp hi with hi | rfl
      · exact Or.inl ⟨i, hi, rfl⟩
      · exact Or.inr rfl

theorem keys_header_of_setAll {n : ℕ} (hn : n ≤ 256 ^ 8) : ∃ (m m' : Mem ℤ) (outs ks : List Bytes)
    (out : Bytes), doRequests Mem.empty (setAll n) = some (m, outs) ∧
      doRequest m [ascii "keys"] = some (m', out) ∧ ks.Nodup ∧ ks.length = n ∧
      (∀ key, key ∈ ks ↔ (kindsAfter ℤ (setAll n) key).isSome) ∧
      out = serArr :: leBytes 4 (n % 2 ^ 32) ++ ks.flatMap outStr := by
  have hquery : ∀ cmd ∈ setAll n, (ofCmd cmd).NoQuery := by
    rintro cmd hcmd key score name offset limit heq
    obtain ⟨i, -, rfl⟩ := List.mem_map.mp hcmd
    cases heq
  obtain ⟨m, trees, outs, hrun, h⟩ := models_empty.exists_doRequests hquery fun ho ↦ ho.elim
  obtain ⟨out, hkeys, hreply⟩ := doKeys_spec h
  have hreply' := Kinds.reply_of_reply hreply
  rw [foldl_kinds_effect] at hreply'
  obtain ⟨ks, hnd, hmem, hout⟩ := hreply'
  have hinj : ((List.range n).map fun i ↦ leBytes 8 i).Nodup := by
    refine List.Nodup.map_on (fun i hi j hj hij ↦ ?_) List.nodup_range
    have hlt : ∀ i ∈ List.range n, i < 256 ^ 8 := fun i hi ↦
      (List.mem_range.mp hi).trans_le hn
    rw [← ofLEBytes_leBytes_of_lt (hlt i hi), hij, ofLEBytes_leBytes_of_lt (hlt j hj)]
  have hperm : ks.Perm ((List.range n).map fun i ↦ leBytes 8 i) := by
    refine (List.perm_ext_iff_of_nodup hnd hinj).mpr fun key ↦ ?_
    rw [hmem, List.mem_map]
    refine (isSome_kindsAfter_setAll n key).trans ?_
    exact ⟨fun ⟨i, hi, heq⟩ ↦ ⟨i, List.mem_range.mpr hi, heq.symm⟩,
      fun ⟨i, hi, heq⟩ ↦ ⟨i, List.mem_range.mp hi, heq.symm⟩⟩
  have hlen : ks.length = n := by rw [hperm.length_eq, List.length_map, List.length_range]
  refine ⟨m, m, outs, ks, out, hrun, hkeys, hnd, hlen, hmem, ?_⟩
  rw [hout, hlen]

/-- With `2^32` keys the header of `KEYS` is zero; and a `ZADD` on a string key whose score is no
number is answered by the argument error, not by the type error. -/
theorem keys_header_wraps_and_bad_score :
    (∃ (m m' : Mem ℤ) (outs ks : List Bytes) (out : Bytes),
      doRequests Mem.empty (setAll (2 ^ 32)) = some (m, outs) ∧
      doRequest m [ascii "keys"] = some (m', out) ∧ ks.Nodup ∧ ks.length = 2 ^ 32 ∧
      (∀ key, key ∈ ks ↔ (kindsAfter ℤ (setAll (2 ^ 32)) key).isSome) ∧
      out = serArr :: leBytes 4 0 ++ ks.flatMap outStr) ∧
    ∃ (m m' : Mem ℤ) (out : Bytes),
      doRequests Mem.empty [[ascii "set", ascii "k", ascii "v"]] = some (m, [outNil]) ∧
      doRequest m [ascii "zadd", ascii "k", ascii "x", ascii "n"] = some (m', out) ∧
      out = outErr errArg (ascii "expect fp number") ∧ out ≠ typeError := by
  constructor
  · obtain ⟨m, m', outs, ks, out, hrun, hkeys, hnd, hlen, hmem, hout⟩ :=
      keys_header_of_setAll (n := 2 ^ 32) (by decide)
    exact ⟨m, m', outs, ks, out, hrun, hkeys, hnd, hlen, hmem, by rw [hout, Nat.mod_self]⟩
  · obtain ⟨m, hcode, -⟩ := doSet_spec models_empty (ascii "k") (ascii "v")
    exact ⟨m, m, outErr errArg (ascii "expect fp number"), doRequests_singleton hcode, rfl, rfl,
      by decide⟩

end RedisOnC
