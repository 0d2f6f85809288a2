import RedisOnC.Server.Basic
import RedisOnC.Zset.Ops

/-!
# Memory that holds a keyspace

A keyspace binds each key to a string or to a finite map from names to scores. `Models m trees K`
says that the memory `m` holds the keyspace `K`: the entries of the database carry different keys,
each of them is what `K` says, and the trees of different entries share no node. The lemmas below
are the elementary changes of such a memory; every command is a sequence of them.
-/

open BinaryTree

namespace RedisOnC

variable {S : Type} {m m' : Mem S} {key : Bytes} {p : Ptr}

/-- What a key is bound to. -/
inductive Obj (S : Type)
  | str (val : Bytes)
  | zset (M : Bytes → Option S)

/-- Keys and what they are bound to. -/
abbrev Keyspace (S : Type) := Bytes → Option (Obj S)

variable {K : Keyspace S} {trees : Ptr → BinaryTree Ptr} {o : Obj S}

/-- The addresses of the entries of the database. -/
def Mem.ptrs (m : Mem S) : List Ptr := m.db.nodes.map HNode.val

/-- The entry holds the object. A sorted set is the one stored as the tree of its address, and an
entry of that type never gets a string. -/
def EntryHolds (m : Mem S) (trees : Ptr → BinaryTree Ptr) (p : Ptr) : Obj S → Prop
  | .str val => (m.entry p).type = .str ∧ (m.entry p).zset = none ∧ (m.entry p).val = val
  | .zset M => (m.entry p).type = .zset ∧ (m.entry p).val = [] ∧
      ∃ z ∈ m.zsets, (m.entry p).zset = some z ∧ ZSet.Inv m.heap (m.zset z) (trees z) ∧
        zmap m.heap (trees z).inorder = M

theorem EntryHolds.congr {trees' : Ptr → BinaryTree Ptr} (h : EntryHolds m trees p o)
    (hentry : m'.entry p = m.entry p)
    (hz : ∀ z ∈ m.zsets, (m.entry p).zset = some z → z ∈ m'.zsets ∧ trees' z = trees z ∧
      m'.zset z = m.zset z ∧ (ZSet.Inv m.heap (m.zset z) (trees z) →
        ZSet.Inv m'.heap (m.zset z) (trees z) ∧
          zmap m'.heap (trees z).inorder = zmap m.heap (trees z).inorder)) :
    EntryHolds m' trees' p o := by
  cases o with
  | str val => rwa [EntryHolds, hentry]
  | zset M =>
    obtain ⟨htype, hval, z, hzm, hzp, hinv, hmap⟩ := h
    obtain ⟨hzm', htree, hzset, hkeep⟩ := hz z hzm hzp
    obtain ⟨hinv', hmap'⟩ := hkeep hinv
    refine ⟨by rw [hentry, htype], by rw [hentry, hval], z, hzm', by rw [hentry, hzp], ?_, ?_⟩
    · rw [htree, hzset]
      exact hinv'
    · rw [htree, hmap', hmap]

variable [LinearOrder S] {ordered : Prop}

/-- The memory holds the keyspace. When `ordered`, the trees are sorted. -/
structure Models (ordered : Prop) (m : Mem S) (trees : Ptr → BinaryTree Ptr) (K : Keyspace S) :
    Prop where
  heap : m.heap.Inv
  db : m.db.Inv
  keys : (m.ptrs.map fun p ↦ (m.entry p).key).Nodup
  hcode_eq : ∀ n ∈ m.db.nodes, n.hcode = strHash (m.entry n.val).key
  absent : ∀ key, (∀ p ∈ m.ptrs, (m.entry p).key ≠ key) → K key = none
  holds : ∀ p ∈ m.ptrs, ∃ o, K (m.entry p).key = some o ∧ EntryHolds m trees p o
  live : ∀ p ∈ m.ptrs, p ∈ m.entries
  entry_lt : ∀ p ∈ m.entries, p < m.nextEntry
  zset_lt : ∀ z ∈ m.zsets, z < m.nextZSet
  apart : ∀ p ∈ m.ptrs, ∀ q ∈ m.ptrs, p ≠ q → ∀ z z', (m.entry p).zset = some z →
    (m.entry q).zset = some z' → z ≠ z' ∧ ∀ x ∈ (trees z).inorder, x ∉ (trees z').inorder
  sorted : ordered → ∀ p ∈ m.ptrs, ∀ z, (m.entry p).zset = some z →
    Sorted m.heap (trees z).inorder

theorem models_init (entry : Ptr → Entry) (zset : Ptr → ZSet) (avl : AVLHeap)
    (znode : Ptr → ZNode S) :
    Models ordered (Mem.init entry zset avl znode) (fun _ ↦ nil) fun _ ↦ none where
  heap := ⟨List.nodup_nil, fun _ hp ↦ by cases hp⟩
  db := HMap.inv_empty
  keys := List.nodup_nil
  hcode_eq _ hn := by cases hn
  absent _ _ := rfl
  holds _ hp := by cases hp
  live _ hp := by cases hp
  entry_lt _ hp := by cases hp
  zset_lt _ hz := by cases hz
  apart _ hp := by cases hp
  sorted _ _ hp := by cases hp

namespace Models

theorem ptrs_nodup (h : Models ordered m trees K) : m.ptrs.Nodup := List.Nodup.of_map _ h.keys

theorem entryHolds (h : Models ordered m trees K) (hp : p ∈ m.ptrs)
    (ho : K (m.entry p).key = some o) : EntryHolds m trees p o := by
  obtain ⟨o', ho', hholds⟩ := h.holds p hp
  rw [ho] at ho'
  exact Option.some_inj.mp ho' ▸ hholds

/-- The set of an entry is allocated and stored as its tree. -/
theorem zset_inv (h : Models ordered m trees K) (hp : p ∈ m.ptrs) {z : Ptr}
    (hz : (m.entry p).zset = some z) :
    z ∈ m.zsets ∧ ZSet.Inv m.heap (m.zset z) (trees z) := by
  obtain ⟨o, -, hholds⟩ := h.holds p hp
  cases o with
  | str val =>
    rw [hholds.2.1] at hz
    cases hz
  | zset M =>
    obtain ⟨-, -, z', hzm, hz', hinv, -⟩ := hholds
    rw [hz, Option.some_inj] at hz'
    subst hz'
    exact ⟨hzm, hinv⟩

theorem with_db (h : Models ordered m trees K) {db : HMap Ptr} (hinv : db.Inv)
    (hperm : db.nodes.Perm m.db.nodes) : Models ordered { m with db := db } trees K := by
  have hptrs : (db.nodes.map HNode.val).Perm m.ptrs := hperm.map _
  exact
    { heap := h.heap
      db := hinv
      keys := (hptrs.map _).nodup_iff.mpr h.keys
      hcode_eq := fun n hn ↦ h.hcode_eq n (hperm.mem_iff.mp hn)
      absent := fun key hkey ↦ h.absent key fun p hp ↦ hkey p (hptrs.mem_iff.mpr hp)
      holds := fun p hp ↦ h.holds p (hptrs.mem_iff.mp hp)
      live := fun p hp ↦ h.live p (hptrs.mem_iff.mp hp)
      entry_lt := h.entry_lt
      zset_lt := h.zset_lt
      apart := fun p hp q hq ↦ h.apart p (hptrs.mem_iff.mp hp) q (hptrs.mem_iff.mp hq)
      sorted := fun ho p hp ↦ h.sorted ho p (hptrs.mem_iff.mp hp) }

theorem matches_iff (h : Models ordered m trees K) {n : HNode Ptr} (hn : n ∈ m.db.nodes) :
    n.Matches (strHash key) (entryEq m key) ↔ (m.entry n.val).key = key := by
  refine ⟨fun hmatch ↦ of_decide_eq_true hmatch.2, fun hkey ↦ ⟨?_, decide_eq_true hkey⟩⟩
  rw [h.hcode_eq n hn, hkey]

theorem absent_of_no_match (h : Models ordered m trees K)
    (hno : ∀ n ∈ m.db.nodes, ¬ n.Matches (strHash key) (entryEq m key)) : K key = none := by
  refine h.absent key fun p hp hkey ↦ ?_
  obtain ⟨n, hn, rfl⟩ := List.mem_map.mp hp
  exact hno n hn ((h.matches_iff hn).mpr hkey)

/-- **Lookup of a key.** The memory still holds the keyspace, and the answer is the entry of the
key if the key is bound. -/
theorem lookup (h : Models ordered m trees K) (key : Bytes) :
    ∃ db r, dbLookup m key = some ({ m with db := db }, r) ∧
      Models ordered { m with db := db } trees K ∧
      match r with
      | none => K key = none
      | some p => p ∈ Mem.ptrs { m with db := db } ∧ (m.entry p).key = key ∧
          ∃ o, K key = some o ∧ EntryHolds { m with db := db } trees p o := by
  obtain ⟨db, r, hcode, hinv, hperm, hr⟩ := hmLookup_spec h.db (strHash key) (entryEq m key)
  have h' := h.with_db hinv hperm
  refine ⟨db, r.map HNode.val, by rw [dbLookup, hcode]; rfl, h', ?_⟩
  rcases r with _ | n
  · exact h.absent_of_no_match hr
  · have hkey := (h.matches_iff hr.1).mp hr.2
    have hp : n.val ∈ Mem.ptrs { m with db := db } := (hperm.map _).mem_iff.mpr
      (List.mem_map_of_mem hr.1)
    obtain ⟨o, ho, hholds⟩ := h'.holds n.val hp
    exact ⟨hp, hkey, o, hkey ▸ ho, hholds⟩

/-- **Rebinding a key.** A change of memory that leaves every other entry as it was. -/
theorem rebind (h : Models ordered m trees K) {trees' : Ptr → BinaryTree Ptr} (hp : p ∈ m.ptrs)
    (hdb : m'.db = m.db) (hentries : m'.entries = m.entries ∧ m'.nextEntry = m.nextEntry)
    (hzsets : m'.zsets = m.zsets ∧ m'.nextZSet = m.nextZSet) (hheap : m'.heap.Inv)
    (hkey : (m'.entry p).key = (m.entry p).key) (hzset : (m'.entry p).zset = (m.entry p).zset)
    (hentry : ∀ q ∈ m.ptrs, q ≠ p → m'.entry q = m.entry q)
    (hother : ∀ q ∈ m.ptrs, q ≠ p → ∀ o, EntryHolds m trees q o → EntryHolds m' trees' q o)
    (ho : EntryHolds m' trees' p o)
    (htrees : ∀ q ∈ m.ptrs, q ≠ p → ∀ z, (m.entry q).zset = some z → trees' z = trees z)
    (hapart : ∀ q ∈ m.ptrs, q ≠ p → ∀ z z', (m.entry p).zset = some z →
      (m.entry q).zset = some z' → ∀ x ∈ (trees z').inorder, x ∉ (trees' z).inorder)
    (hsorted : ordered → ∀ q ∈ m.ptrs, ∀ z, (m.entry q).zset = some z →
      Sorted m'.heap (trees' z).inorder) :
    Models ordered m' trees' (Function.update K (m.entry p).key (some o)) := by
  have hptrs : m'.ptrs = m.ptrs := by rw [Mem.ptrs, hdb, Mem.ptrs]
  have hkeys : ∀ q ∈ m.ptrs, (m'.entry q).key = (m.entry q).key := fun q hq ↦ by
    by_cases hqp : q = p
    · rw [hqp, hkey]
    · rw [hentry q hq hqp]
  have hzsets' : ∀ q ∈ m.ptrs, (m'.entry q).zset = (m.entry q).zset := fun q hq ↦ by
    by_cases hqp : q = p
    · rw [hqp, hzset]
    · rw [hentry q hq hqp]
  have hne : ∀ q ∈ m.ptrs, q ≠ p → (m.entry q).key ≠ (m.entry p).key := fun q hq hqp heq ↦
    hqp (List.inj_on_of_nodup_map h.keys hq hp heq)
  refine
    { heap := hheap
      db := hdb ▸ h.db
      keys := ?_
      hcode_eq := fun n hn ↦ ?_
      absent := fun key hno ↦ ?_
      holds := fun q hq ↦ ?_
      live := fun q hq ↦ hentries.1 ▸ h.live q (hptrs ▸ hq)
      entry_lt := fun q hq ↦ hentries.2 ▸ h.entry_lt q (hentries.1 ▸ hq)
      zset_lt := fun z hz ↦ hzsets.2 ▸ h.zset_lt z (hzsets.1 ▸ hz)
      apart := fun q hq q' hq' hqq' z z' hz hz' ↦ ?_
      sorted := fun ho q hq z hz ↦ ?_ }
  · rw [hptrs, List.map_congr_left hkeys]
    exact h.keys
  · rw [hdb] at hn
    rw [h.hcode_eq n hn, hkeys n.val (List.mem_map_of_mem hn)]
  · rw [hptrs] at hno
    have hkp : key ≠ (m.entry p).key := fun heq ↦ hno p hp (heq ▸ hkey)
    rw [Function.update_of_ne hkp]
    exact h.absent key fun q hq heq ↦ hno q hq (heq ▸ hkeys q hq)
  · rw [hptrs] at hq
    by_cases hqp : q = p
    · subst hqp
      exact ⟨o, by rw [hkey, Function.update_self], ho⟩
    · obtain ⟨o', ho', hholds⟩ := h.holds q hq
      refine ⟨o', ?_, hother q hq hqp o' hholds⟩
      rw [hkeys q hq, Function.update_of_ne (hne q hq hqp), ho']
  · rw [hptrs] at hq hq'
    rw [hzsets' q hq] at hz
    rw [hzsets' q' hq'] at hz'
    obtain ⟨hzz', hdisj⟩ := h.apart q hq q' hq' hqq' z z' hz hz'
    refine ⟨hzz', fun x hx hx' ↦ ?_⟩
    by_cases hqp : q = p
    · have hq'p : q' ≠ p := fun heq ↦ hqq' (hqp.trans heq.symm)
      rw [htrees q' hq' hq'p z' hz'] at hx'
      exact hapart q' hq' hq'p z z' (hqp ▸ hz) hz' x hx' hx
    · rw [htrees q hq hqp z hz] at hx
      by_cases hqp' : q' = p
      · exact hapart q hq hqp z' z (hqp' ▸ hz') hz x hx hx'
      · exact hdisj x hx (htrees q' hq' hqp' z' hz' ▸ hx')
  · rw [hptrs] at hq
    rw [hzsets' q hq] at hz
    exact hsorted ho q hq z hz

/-- **Writing a sorted set.** An operation on the set of one entry rebinds its key to the map of
the new tree. -/
theorem write_zset (h : Models ordered m trees K) (hp : p ∈ m.ptrs) {z : Ptr}
    (hz : (m.entry p).zset = some z) {H' : ZHeap S} {zset' : ZSet} {t' : BinaryTree Ptr}
    (hinv : ZSet.Inv H' zset' t') (hframe : ZFrame m.heap (trees z) H' t')
    (hsorted : ordered → Sorted m.heap (trees z).inorder → Sorted H' t'.inorder) :
    Models ordered { m with heap := H', zset := Function.update m.zset z zset' }
      (Function.update trees z t')
      (Function.update K (m.entry p).key (some (.zset (zmap H' t'.inorder)))) := by
  obtain ⟨hzm, hinv₀⟩ := h.zset_inv hp hz
  have hother : ∀ q ∈ m.ptrs, q ≠ p → ∀ z', (m.entry q).zset = some z' →
      z' ≠ z ∧ ∀ x ∈ (trees z').inorder, x ∉ (trees z).inorder := fun q hq hqp z' hz' ↦
    h.apart q hq p hp hqp z' z hz' hz
  have htrees : ∀ q ∈ m.ptrs, q ≠ p → ∀ z', (m.entry q).zset = some z' →
      Function.update trees z t' z' = trees z' := fun q hq hqp z' hz' ↦
    Function.update_of_ne (hother q hq hqp z' hz').1 ..
  obtain ⟨o, -, hholds⟩ := h.holds p hp
  cases o with
  | str val =>
    rw [hholds.2.1] at hz
    cases hz
  | zset M =>
    refine h.rebind hp rfl ⟨rfl, rfl⟩ ⟨rfl, rfl⟩ hframe.heap rfl rfl (fun _ _ _ ↦ rfl)
      (fun q hq hqp o ho ↦ ho.congr rfl fun z' hzm' hz' ↦ ?_)
      ⟨hholds.1, hholds.2.1, z, hzm, hz, ?_, ?_⟩ htrees (fun q hq hqp z₁ z' hz₁ hz' x hx hx' ↦ ?_)
      fun ho q hq z' hz' ↦ ?_
    · -- the other sets are out of reach of the operation
      obtain ⟨hne, hdisj⟩ := hother q hq hqp z' hz'
      refine ⟨hzm', htrees q hq hqp z' hz', Function.update_of_ne hne .., fun hinv' ↦
        ⟨hframe.inv hinv' hdisj, ?_⟩⟩
      exact zmap_congr fun x hx ↦ hframe.znode x (hinv'.live x hx) (hdisj x hx)
    · simpa using hinv
    · simp
    · rw [hz, Option.some_inj] at hz₁
      subst hz₁
      rw [Function.update_self] at hx'
      obtain ⟨-, hdisj⟩ := hother q hq hqp z' hz'
      exact hframe.notMem_live hx' (hdisj x hx) ((h.zset_inv hq hz').2.live x hx)
    · by_cases hqp : q = p
      · rw [hqp, hz, Option.some_inj] at hz'
        subst hz'
        rw [Function.update_self]
        exact hsorted ho (h.sorted ho p hp z hz)
      · obtain ⟨-, hdisj⟩ := hother q hq hqp z' hz'
        have hinv' := (h.zset_inv hq hz').2
        rw [htrees q hq hqp z' hz']
        exact (h.sorted ho q hq z' hz').congr fun x hx ↦
          hframe.znode x (hinv'.live x hx) (hdisj x hx)

theorem with_zset (h : Models ordered m trees K) (hp : p ∈ m.ptrs) {z : Ptr}
    (hz : (m.entry p).zset = some z) (hK : K (m.entry p).key = some (.zset M))
    (hM : M = zmap m.heap (trees z).inorder) {zset' : ZSet}
    (hinv : ZSet.Inv m.heap zset' (trees z)) :
    Models ordered { m with zset := Function.update m.zset z zset' } trees K := by
  have hwrite := h.write_zset hp hz hinv
    ⟨h.heap, fun _ _ _ ↦ rfl, fun _ _ _ ↦ rfl, List.Perm.refl _⟩ fun _ hs ↦ hs
  rwa [← hM, ← hK, Function.update_eq_self, Function.update_eq_self] at hwrite

theorem write_val (h : Models ordered m trees K) (hp : p ∈ m.ptrs) {val val' : Bytes}
    (hK : K (m.entry p).key = some (.str val)) :
    Models ordered { m with entry := Function.update m.entry p { m.entry p with val := val' } }
      trees (Function.update K (m.entry p).key (some (.str val'))) := by
  have hholds := h.entryHolds hp hK
  obtain ⟨entry', hentry'⟩ : ∃ entry',
      entry' = Function.update m.entry p { m.entry p with val := val' } := ⟨_, rfl⟩
  have hself : entry' p = { m.entry p with val := val' } := by rw [hentry', Function.update_self]
  have hne : ∀ q, q ≠ p → entry' q = m.entry q := fun q hq ↦ by
    rw [hentry', Function.update_of_ne hq]
  rw [← hentry']
  refine h.rebind hp rfl ⟨rfl, rfl⟩ ⟨rfl, rfl⟩ h.heap ?_ ?_ (fun q _ hqp ↦ hne q hqp)
    (fun q hq hqp o ho ↦ ho.congr (hne q hqp) fun z hzm _ ↦
      ⟨hzm, rfl, rfl, fun hinv ↦ ⟨hinv, rfl⟩⟩) ?_ (fun _ _ _ _ _ ↦ rfl)
    (fun q hq hqp z z' hz hz' x hx ↦ (h.apart q hq p hp hqp z' z hz' hz).2 x hx) h.sorted
  · change (entry' p).key = _
    rw [hself]
  · change (entry' p).zset = _
    rw [hself]
  · change (entry' p).type = _ ∧ (entry' p).zset = _ ∧ (entry' p).val = _
    rw [hself]
    exact ⟨hholds.1, hholds.2.1, rfl⟩

private theorem linked (h : Models ordered m trees K) {e : Entry} (hkey : K e.key = none)
    (hcode : e.hcode = strHash e.key) (ho : EntryHolds (newEntry m e).1 trees m.nextEntry o)
    (hapart : ∀ q ∈ m.ptrs, ∀ z z', e.zset = some z → (m.entry q).zset = some z' →
      z ≠ z' ∧ ∀ x ∈ (trees z').inorder, x ∉ (trees z).inorder)
    (hsorted : ordered → ∀ z, e.zset = some z → Sorted m.heap (trees z).inorder) {db : HMap Ptr}
    (hinv : db.Inv) (hperm : db.nodes.Perm (⟨e.hcode, m.nextEntry⟩ :: m.db.nodes)) :
    Models ordered { (newEntry m e).1 with db := db } trees (Function.update K e.key (some o)) := by
  set m₁ := (newEntry m e).1 with hm₁
  set p := m.nextEntry with hp
  have hself : m₁.entry p = e := Function.update_self ..
  -- the pointer is fresh, so no entry that the database holds is overwritten
  have hpm : p ∉ m.ptrs := fun hmem ↦ lt_irrefl _ (h.entry_lt p (h.live p hmem))
  have hentry : ∀ q ∈ m.ptrs, m₁.entry q = m.entry q := fun q hq ↦
    Function.update_of_ne (show q ≠ p from fun heq ↦ hpm (heq ▸ hq)) ..
  have hnokey : ∀ q ∈ m.ptrs, (m.entry q).key ≠ e.key := fun q hq heq ↦ by
    obtain ⟨o', ho', -⟩ := h.holds q hq
    rw [heq, hkey] at ho'
    cases ho'
  have hptrs : (db.nodes.map HNode.val).Perm (p :: m.ptrs) := hperm.map _
  have hmem : ∀ q, q ∈ db.nodes.map HNode.val → q = p ∨ q ∈ m.ptrs := fun q hq ↦
    List.mem_cons.mp (hptrs.mem_iff.mp hq)
  refine
    { heap := h.heap
      db := hinv
      keys := ?_
      hcode_eq := fun n hn ↦ ?_
      absent := fun key hno ↦ ?_
      holds := fun q hq ↦ ?_
      live := fun q hq ↦ ?_
      entry_lt := fun q hq ↦ ?_
      zset_lt := h.zset_lt
      apart := fun q hq q' hq' hqq' z z' hz hz' ↦ ?_
      sorted := fun hord q hq z hz ↦ ?_ }
  · refine (hptrs.map _).nodup_iff.mpr ?_
    rw [List.map_cons, hself, List.map_congr_left fun q hq ↦ by rw [hentry q hq], List.nodup_cons,
      List.mem_map]
    exact ⟨fun ⟨q, hq, heq⟩ ↦ hnokey q hq heq, h.keys⟩
  · rcases List.mem_cons.mp (hperm.mem_iff.mp hn) with rfl | hn
    · change e.hcode = strHash (m₁.entry p).key
      rw [hself, hcode]
    · change n.hcode = strHash (m₁.entry n.val).key
      rw [hentry n.val (List.mem_map_of_mem hn)]
      exact h.hcode_eq n hn
  · have hke : key ≠ e.key := fun heq ↦
      hno p (hptrs.mem_iff.mpr (List.mem_cons_self ..)) (by rw [heq]; exact congrArg _ hself)
    rw [Function.update_of_ne hke]
    refine h.absent key fun q hq heq ↦ hno q (hptrs.mem_iff.mpr (List.mem_cons_of_mem _ hq)) ?_
    exact (congrArg Entry.key (hentry q hq)).trans heq
  · rcases hmem q hq with rfl | hq
    · exact ⟨o, by rw [show (m₁.entry p).key = e.key from congrArg _ hself, Function.update_self],
        ho⟩
    · obtain ⟨o', ho', hholds⟩ := h.holds q hq
      refine ⟨o', ?_, hholds.congr (hentry q hq) fun z hzm _ ↦
        ⟨hzm, rfl, rfl, fun hinv ↦ ⟨hinv, rfl⟩⟩⟩
      rw [show (m₁.entry q).key = (m.entry q).key from congrArg _ (hentry q hq),
        Function.update_of_ne (hnokey q hq), ho']
  · rcases hmem q hq with rfl | hq
    · exact List.mem_cons_self ..
    · exact List.mem_cons_of_mem _ (h.live q hq)
  · change q < p + 1
    rcases List.mem_cons.mp hq with rfl | hq
    · exact Nat.lt_succ_self _
    · exact (h.entry_lt q hq).trans (Nat.lt_succ_self _)
  · change (m₁.entry q).zset = some z at hz
    change (m₁.entry q').zset = some z' at hz'
    rcases hmem q hq with rfl | hq
    · rcases hmem q' hq' with rfl | hq'
      · exact absurd rfl hqq'
      · rw [hself] at hz
        rw [hentry q' hq'] at hz'
        obtain ⟨hne, hdisj⟩ := hapart q' hq' z z' hz hz'
        exact ⟨hne, fun x hx hx' ↦ hdisj x hx' hx⟩
    · rw [hentry q hq] at hz
      rcases hmem q' hq' with rfl | hq'
      · rw [hself] at hz'
        obtain ⟨hne, hdisj⟩ := hapart q hq z' z hz' hz
        exact ⟨hne.symm, hdisj⟩
      · rw [hentry q' hq'] at hz'
        exact h.apart q hq q' hq' hqq' z z' hz hz'
  · change (m₁.entry q).zset = some z at hz
    rcases hmem q hq with rfl | hq
    · rw [hself] at hz
      exact hsorted hord z hz
    · rw [hentry q hq] at hz
      exact h.sorted hord q hq z hz

/-- **Inserting an entry** for a key that is not bound. Its set, if it has one, is not the set of
another entry. -/
theorem insert (h : Models ordered m trees K) {e : Entry} (hkey : K e.key = none)
    (hcode : e.hcode = strHash e.key) (ho : EntryHolds (newEntry m e).1 trees m.nextEntry o)
    (hapart : ∀ q ∈ m.ptrs, ∀ z z', e.zset = some z → (m.entry q).zset = some z' →
      z ≠ z' ∧ ∀ x ∈ (trees z').inorder, x ∉ (trees z).inorder)
    (hsorted : ordered → ∀ z, e.zset = some z → Sorted m.heap (trees z).inorder) :
    ∃ db, dbInsert (newEntry m e).1 m.nextEntry = some { (newEntry m e).1 with db := db } ∧
      Models ordered { (newEntry m e).1 with db := db } trees (Function.update K e.key (some o)) ∧
      m.nextEntry ∈ Mem.ptrs { (newEntry m e).1 with db := db } := by
  have hself : (newEntry m e).1.entry m.nextEntry = e := Function.update_self ..
  obtain ⟨db, hins, hinv, hperm⟩ := hmInsert_spec h.db ⟨e.hcode, m.nextEntry⟩
  refine ⟨db, ?_, h.linked hkey hcode ho hapart hsorted hinv hperm,
    (hperm.map HNode.val).mem_iff.mpr (List.mem_cons_self ..)⟩
  rw [dbInsert, hself, show (newEntry m e).1.db = m.db from rfl, hins]
  rfl

/-- **Allocating a sorted set.** It is empty and belongs to no entry yet. -/
theorem newZSet (h : Models ordered m trees K) :
    Models ordered (newZSet m).1 (Function.update trees m.nextZSet nil) K := by
  have hlt : ∀ q ∈ m.ptrs, ∀ z, (m.entry q).zset = some z → z ≠ m.nextZSet :=
    fun q hq z hz heq ↦ lt_irrefl _ (heq ▸ h.zset_lt z (h.zset_inv hq hz).1)
  have htrees : ∀ q ∈ m.ptrs, ∀ z, (m.entry q).zset = some z →
      Function.update trees m.nextZSet nil z = trees z := fun q hq z hz ↦
    Function.update_of_ne (hlt q hq z hz) ..
  refine
    { heap := h.heap
      db := h.db
      keys := h.keys
      hcode_eq := h.hcode_eq
      absent := h.absent
      holds := fun q hq ↦ ?_
      live := h.live
      entry_lt := h.entry_lt
      zset_lt := fun z hz ↦ ?_
      apart := fun q hq q' hq' hqq' z z' hz hz' ↦ ?_
      sorted := fun ho q hq z hz ↦ ?_ }
  · obtain ⟨o, ho, hholds⟩ := h.holds q hq
    exact ⟨o, ho, hholds.congr rfl fun z hzm hz ↦ ⟨List.mem_cons_of_mem _ hzm, htrees q hq z hz,
      Function.update_of_ne (hlt q hq z hz) .., fun hinv ↦ ⟨hinv, rfl⟩⟩⟩
  · change z < m.nextZSet + 1
    rcases List.mem_cons.mp hz with rfl | hz
    · exact Nat.lt_succ_self _
    · exact (h.zset_lt z hz).trans (Nat.lt_succ_self _)
  · rw [htrees q hq z hz, htrees q' hq' z' hz']
    exact h.apart q hq q' hq' hqq' z z' hz hz'
  · rw [htrees q hq z hz]
    exact h.sorted ho q hq z hz

/-- **Removing an entry** and unbinding its key. -/
theorem delete (h : Models ordered m trees K) (key : Bytes) :
    ∃ db r, hmPop m.db (strHash key) (entryEq m key) = some (db, r) ∧
      match r with
      | none => K key = none ∧ Models ordered { m with db := db } trees K
      | some n => (K key).isSome ∧ ∃ m', deleteEntry { m with db := db } n.val = some m' ∧
          Models ordered m' trees (Function.update K key none) := by
  obtain ⟨db, r, hcode, hinv, hr⟩ := hmPop_spec h.db (strHash key) (entryEq m key)
  refine ⟨db, r, hcode, ?_⟩
  rcases r with _ | n
  · exact ⟨h.absent_of_no_match hr.2, h.with_db hinv hr.1⟩
  obtain ⟨hperm, hmatch⟩ := hr
  have hn : n ∈ m.db.nodes := hperm.mem_iff.mpr (List.mem_cons_self ..)
  have hp : n.val ∈ m.ptrs := List.mem_map_of_mem hn
  have hkey := (h.matches_iff hn).mp hmatch
  have hptrs : m.ptrs.Perm (n.val :: db.nodes.map HNode.val) := hperm.map _
  have hsub : ∀ q ∈ db.nodes.map HNode.val, q ∈ m.ptrs := fun q hq ↦
    hptrs.mem_iff.mpr (List.mem_cons_of_mem _ hq)
  have hnd := (hptrs.map fun q ↦ (m.entry q).key).nodup_iff.mp h.keys
  rw [List.map_cons, List.nodup_cons, List.mem_map, hkey] at hnd
  have hne : ∀ q ∈ db.nodes.map HNode.val, (m.entry q).key ≠ key := fun q hq heq ↦
    hnd.1 ⟨q, hq, heq⟩
  obtain ⟨o, ho, -⟩ := h.holds n.val hp
  refine ⟨by rw [← hkey, ho]; rfl, { m with db := db, entries := m.entries.erase n.val },
    if_pos (h.live n.val hp), ?_⟩
  exact
    { heap := h.heap
      db := hinv
      keys := hnd.2
      hcode_eq := fun n' hn' ↦ h.hcode_eq n' (hperm.mem_iff.mpr (List.mem_cons_of_mem _ hn'))
      absent := fun k hno ↦ by
        by_cases hk : k = key
        · rw [hk, Function.update_self]
        · rw [Function.update_of_ne hk]
          refine h.absent k fun q hq heq ↦ ?_
          rcases List.mem_cons.mp (hptrs.mem_iff.mp hq) with rfl | hq
          · exact hk (heq.symm.trans hkey)
          · exact hno q hq heq
      holds := fun q hq ↦ by
        obtain ⟨o, ho, hholds⟩ := h.holds q (hsub q hq)
        exact ⟨o, by rw [Function.update_of_ne (hne q hq), ho], hholds.congr rfl fun z hzm _ ↦
          ⟨hzm, rfl, rfl, fun hinv ↦ ⟨hinv, rfl⟩⟩⟩
      live := fun q hq ↦
        (List.mem_erase_of_ne (show q ≠ n.val from fun heq ↦ hne q hq (heq ▸ hkey))).mpr
          (h.live q (hsub q hq))
      entry_lt := fun q hq ↦ h.entry_lt q (List.mem_of_mem_erase hq)
      zset_lt := h.zset_lt
      apart := fun q hq q' hq' ↦ h.apart q (hsub q hq) q' (hsub q' hq')
      sorted := fun hord q hq ↦ h.sorted hord q (hsub q hq) }

end Models

end RedisOnC
