import RedisOnC.Server.Commands

/-!
# The last write to a string

`SET` is followed by `GET`, with any commands in between that do not write the key. A fresh key
keeps its value. A key that is bound already does not: `do_set` moves the value into a local entry
first and moves the emptied word into the existing entry afterwards.
-/

open BinaryTree

namespace RedisOnC

open Request

variable {S : Type} [Score S] {m : Mem S} {trees : Ptr → BinaryTree Ptr} {K : Keyspace S}
variable {key val : Bytes}

/-- A memory that some commands lead to, from the start of the server. -/
def Reachable (m : Mem S) : Prop :=
  ∃ entry zset avl znode cmds outs,
    doRequests (Mem.init entry zset avl znode) cmds = some (m, outs)

theorem Reachable.models (h : Reachable m) : ∃ trees K, Models False m trees K := by
  obtain ⟨entry, zset, avl, znode, cmds, outs, hexec⟩ := h
  have hinit : Models False (Mem.init entry zset avl znode) (fun _ ↦ nil) fun _ ↦ none :=
    models_init entry zset avl znode
  obtain ⟨trees, h⟩ := hinit.after_doRequests (fun ho ↦ ho.elim) hexec
  exact ⟨trees, _, h⟩

/-- The key has no entry. -/
def Mem.Absent (m : Mem S) (key : Bytes) : Prop := ∀ p ∈ m.ptrs, (m.entry p).key ≠ key

/-- The entry of the key, if there is one, has type `T_STR`. -/
def Mem.NoZSet (m : Mem S) (key : Bytes) : Prop :=
  ∀ p ∈ m.ptrs, (m.entry p).key = key → (m.entry p).type = .str

/-- The command is no `SET` or `DEL` of the key. -/
def NotWriting (key : Bytes) (cmd : List Bytes) : Prop :=
  ofCmd cmd ≠ .del key ∧ ∀ val, ofCmd cmd ≠ .set key val

/-- The reply of `do_get`. -/
def getReply (m : Mem S) (key : Bytes) : Option Bytes := (doGet m key).map Prod.snd

/-- Last write wins: after the `SET`, and any further commands that do not write the key, `GET`
replies with the value; and the `SET` changes the reply of `GET` for no other key. -/
def LastWriteWins (m : Mem S) (key val : Bytes) : Prop :=
  ∃ m₁, doSet m key val = some (m₁, outNil) ∧
    (∀ cmds m₂ outs, (∀ cmd ∈ cmds, NotWriting key cmd) → doRequests m₁ cmds = some (m₂, outs) →
      getReply m₂ key = some (outStr val)) ∧
    ∀ key' ≠ key, getReply m₁ key' = getReply m key'

theorem outStr_injective : Function.Injective outStr := by
  intro a b hab
  have hab' := (List.cons.inj hab).2
  exact (List.append_inj hab' (by rw [length_leBytes, length_leBytes])).2

/-- What `GET` replies to what a key is bound to. -/
def Obj.reply : Option (Obj S) → Bytes
  | none => outNil
  | some (.str val) => outStr val
  | some (.zset _) => outStr []

variable {ordered : Prop}

theorem Models.getReply_eq (h : Models ordered m trees K) (key : Bytes) :
    getReply m key = some (Obj.reply (K key)) := by
  obtain ⟨m', out, hcode, -, hreply⟩ := doGet_spec h key
  have hout : out = Obj.reply (K key) := by
    rw [Reply] at hreply
    rcases hK : K key with _ | val | M <;> rw [hK] at hreply <;> exact hreply
  rw [getReply, hcode, Option.map_some, hout]

theorem effect_of_notWriting {cmd : List Bytes} (hcmd : NotWriting key cmd)
    (hK : K key = some (.str val)) : (ofCmd cmd).effect K key = some (.str val) := by
  obtain ⟨hdel, hset⟩ := hcmd
  generalize ofCmd cmd = req at hdel hset
  have hother : ∀ {k : Bytes} {o : Option (Obj S)}, k ≠ key →
      Function.update K k o key = some (.str val) := fun hk ↦ by
    rw [Function.update_of_ne (Ne.symm hk), hK]
  cases req with
  | del k => exact hother fun heq ↦ hdel (heq ▸ rfl)
  | set k v =>
    have hk : k ≠ key := fun heq ↦ hset v (heq ▸ rfl)
    rcases hKk : K k with _ | u | M <;> simp only [effect, hKk]
    · exact hother hk
    · exact hother hk
    · exact hK
  | zadd k s n =>
    have hk : (∀ u, K k ≠ some (.str u)) → k ≠ key := fun hno heq ↦ hno val (heq ▸ hK)
    rcases hs : (str2dbl s : Option S) with _ | score
    · simpa only [effect, hs] using hK
    rcases hKk : K k with _ | u | M <;> simp only [effect, hs, hKk]
    · exact hother (hk (by simp [hKk]))
    · exact hK
    · exact hother (hk (by simp [hKk]))
  | zrem k n =>
    have hk : (∀ u, K k ≠ some (.str u)) → k ≠ key := fun hno heq ↦ hno val (heq ▸ hK)
    rcases hKk : K k with _ | u | M <;> simp only [effect, hKk]
    · exact hK
    · exact hK
    · exact hother (hk (by simp [hKk]))
  | keys => exact hK
  | get k => exact hK
  | zscore k n => exact hK
  | zquery k s n o l => exact hK
  | unknown => exact hK

theorem foldl_effect_of_notWriting {cmds : List (List Bytes)}
    (hcmds : ∀ cmd ∈ cmds, NotWriting key cmd) (hK : K key = some (.str val)) :
    cmds.foldl (fun K cmd ↦ (ofCmd cmd).effect K) K key = some (.str val) := by
  induction cmds generalizing K with
  | nil => exact hK
  | cons cmd cmds ih =>
    exact ih (fun c hc ↦ hcmds c (List.mem_cons_of_mem _ hc))
      (effect_of_notWriting (hcmds cmd (List.mem_cons_self ..)) hK)

theorem Models.absent_iff (h : Models ordered m trees K) : m.Absent key ↔ K key = none := by
  refine ⟨h.absent key, fun hnone p hp hkey ↦ ?_⟩
  obtain ⟨o, ho, -⟩ := h.holds p hp
  rw [hkey, hnone] at ho
  cases ho

theorem Models.noZSet (h : Models ordered m trees K) (hno : m.NoZSet key) (hne : K key ≠ none) :
    ∃ val, K key = some (.str val) := by
  have hex : ∃ p ∈ m.ptrs, (m.entry p).key = key := by
    by_contra hno'
    exact hne (h.absent key fun p hp heq ↦ hno' ⟨p, hp, heq⟩)
  obtain ⟨p, hp, rfl⟩ := hex
  obtain ⟨o, ho, hholds⟩ := h.holds p hp
  cases o with
  | str val => exact ⟨val, ho⟩
  | zset M =>
    have htype := hno p hp rfl
    rw [hholds.1] at htype
    cases htype

/-- After the `SET`, the key is bound to the value if it was absent, and to the empty string if it
was bound to a string; no other key is touched. -/
private theorem set_effect (hK : K key = none ∨ ∃ u, K key = some (.str u)) (val : Bytes) :
    (Request.set key val).effect K
      = Function.update K key (some (.str (if K key = none then val else []))) := by
  rcases hK with hK | ⟨u, hK⟩
  · rw [effect, hK]
    rfl
  · rw [effect, hK]
    rfl

/-- What a `SET` makes true, for a key that is absent or bound to a string. -/
private theorem Models.lastWriteWins_iff (h : Models False m trees K)
    (hK : K key = none ∨ ∃ u, K key = some (.str u)) (val : Bytes) :
    LastWriteWins m key val ↔ K key = none ∨ val = [] := by
  obtain ⟨m₁, hcode, h₁⟩ := doSet_spec h key val
  rw [set_effect hK] at h₁
  have hstored : ∀ cmds m₂ outs, (∀ cmd ∈ cmds, NotWriting key cmd) →
      doRequests m₁ cmds = some (m₂, outs) →
      getReply m₂ key = some (outStr (if K key = none then val else [])) := by
    intro cmds m₂ outs hcmds hexec
    obtain ⟨trees₂, h₂⟩ := h₁.after_doRequests (fun ho ↦ ho.elim) hexec
    rw [h₂.getReply_eq, foldl_effect_of_notWriting hcmds (Function.update_self ..), Obj.reply]
  constructor
  · rintro ⟨m₁', hcode', hget, -⟩
    obtain rfl : m₁ = m₁' := by
      rw [hcode] at hcode'
      exact (Prod.mk.inj (Option.some_inj.mp hcode')).1
    have hnow := (hstored [] m₁ [] (by simp) rfl).symm.trans (hget [] m₁ [] (by simp) rfl)
    have hval := outStr_injective (Option.some_inj.mp hnow)
    by_cases hnone : K key = none
    · exact Or.inl hnone
    · rw [if_neg hnone] at hval
      exact Or.inr hval.symm
  · intro hor
    have hval : (if K key = none then val else []) = val := by
      by_cases hnone : K key = none
      · rw [if_pos hnone]
      · rw [if_neg hnone, hor.resolve_left hnone]
    refine ⟨m₁, hcode, fun cmds m₂ outs hcmds hexec ↦ ?_, fun key' hkey' ↦ ?_⟩
    · rw [hstored cmds m₂ outs hcmds hexec, hval]
    · rw [h₁.getReply_eq, h.getReply_eq, Function.update_of_ne hkey']

/-- **When the last write wins.** For a reachable database and a key that is absent or bound to a
string, exactly if the key is absent or the value is empty. -/
theorem lastWriteWins_iff_absent (hm : Reachable m) (key val : Bytes) (hno : m.NoZSet key) :
    LastWriteWins m key val ↔ m.Absent key ∨ val = [] := by
  obtain ⟨trees, K, h⟩ := hm.models
  have hK : K key = none ∨ ∃ u, K key = some (.str u) := by
    by_cases hnone : K key = none
    · exact Or.inl hnone
    · exact Or.inr (h.noZSet hno hnone)
  rw [h.lastWriteWins_iff hK, h.absent_iff]

/-- The database at the start of a server, with integer scores. -/
def Mem.empty : Mem ℤ :=
  Mem.init (fun _ ↦ {}) (fun _ ↦ {}) (fun _ ↦ {}) fun _ ↦ ⟨0, 0, []⟩

theorem models_empty : Models False Mem.empty (fun _ ↦ nil) fun _ ↦ none := models_init ..

theorem reachable_empty : Reachable Mem.empty := ⟨_, _, _, _, [], [], rfl⟩

theorem exists_set_once : ∃ m : Mem ℤ,
    doRequest Mem.empty [ascii "set", ascii "k", ascii "v"] = some (m, outNil) ∧
    Models False m (fun _ ↦ nil)
      (Function.update (fun _ ↦ none) (ascii "k") (some (.str (ascii "v")))) ∧
    m.NoZSet (ascii "k") := by
  obtain ⟨m, hcode, h⟩ := doSet_spec models_empty (ascii "k") (ascii "v")
  have hK : Request.effect (fun _ ↦ (none : Option (Obj ℤ))) (.set (ascii "k") (ascii "v"))
      = Function.update (fun _ ↦ none) (ascii "k") (some (.str (ascii "v"))) :=
    set_effect (Or.inl rfl) (ascii "v")
  rw [hK] at h
  refine ⟨m, hcode, h, fun p hp hkey ↦ ?_⟩
  have ho : Function.update (fun _ ↦ (none : Option (Obj ℤ))) (ascii "k")
      (some (.str (ascii "v"))) (m.entry p).key = some (.str (ascii "v")) := by
    rw [hkey, Function.update_self]
  exact (h.entryHolds hp ho).1

theorem exists_zadd_once : ∃ (m : Mem ℤ) (trees : Ptr → BinaryTree Ptr) (out : Bytes),
    doRequest Mem.empty [ascii "zadd", ascii "k", ascii "1", ascii "n"] = some (m, out) ∧
    Models False m trees (Function.update (fun _ ↦ none) (ascii "k")
      (some (.zset (Function.update (fun _ ↦ none) (ascii "n") (some 1))))) := by
  obtain ⟨m, trees, out, hcode, h, -⟩ := doZadd_spec models_empty (ascii "k") (ascii "1")
    (ascii "n") fun ho ↦ ho.elim
  have hscore : (str2dbl (ascii "1") : Option ℤ) = some 1 := by decide
  simp only [effect, hscore] at h
  exact ⟨m, trees, out, hcode, h⟩

/-- After `set k v`, the next value of `k` is lost unless it is empty, and one of `j` is kept. -/
theorem lastWriteWins_bound : ∃ m : Mem ℤ,
    (∃ outs, doRequests Mem.empty [[ascii "set", ascii "k", ascii "v"]] = some (m, outs)) ∧
    ¬ LastWriteWins m (ascii "k") (ascii "w") ∧ LastWriteWins m (ascii "k") [] ∧
    LastWriteWins m (ascii "j") (ascii "w") := by
  obtain ⟨m, hset, h, hno⟩ := exists_set_once
  have hexec := doRequests_singleton hset
  have hm : Reachable m := ⟨_, _, _, _, _, _, hexec⟩
  have hj : m.Absent (ascii "j") := h.absent_iff.mpr (Function.update_of_ne (by decide) _ _)
  refine ⟨m, ⟨_, hexec⟩, fun hwins ↦ ?_, ?_, ?_⟩
  · rcases (lastWriteWins_iff_absent hm (ascii "k") (ascii "w") hno).mp hwins with hk | hval
    · have hnone := h.absent_iff.mp hk
      rw [Function.update_self] at hnone
      cases hnone
    · exact absurd hval (by decide)
  · exact (lastWriteWins_iff_absent hm (ascii "k") [] hno).mpr (Or.inr rfl)
  · exact (lastWriteWins_iff_absent hm (ascii "j") (ascii "w")
      fun p hp hkey ↦ absurd hkey (hj p hp)).mpr (Or.inl hj)

/-- `set k v`, then `set k w`: the key reads as the empty string. -/
theorem not_lastWriteWins_overwrite : ∃ m : Mem ℤ,
    (∃ outs, doRequests Mem.empty [[ascii "set", ascii "k", ascii "v"]] = some (m, outs)) ∧
    m.NoZSet (ascii "k") ∧ ¬ LastWriteWins m (ascii "k") (ascii "w") := by
  obtain ⟨m, hset, h, hno⟩ := exists_set_once
  refine ⟨m, ⟨_, doRequests_singleton hset⟩, hno, fun hwins ↦ ?_⟩
  have hk : Function.update (fun _ ↦ (none : Option (Obj ℤ))) (ascii "k")
      (some (.str (ascii "v"))) (ascii "k") = some (.str (ascii "v")) := Function.update_self ..
  rcases (h.lastWriteWins_iff (Or.inr ⟨_, hk⟩) (ascii "w")).mp hwins with hnone | hval
  · rw [hk] at hnone
    cases hnone
  · exact absurd hval (by decide)

end RedisOnC
