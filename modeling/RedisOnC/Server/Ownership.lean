import RedisOnC.Server.Content
import RedisOnC.Server.Keyspace
import Mathlib.Algebra.Order.Group.Multiset
import Mathlib.Tactic.Abel

/-!
# Ownership

Every object on the heap belongs to the database: an `Entry` to its key, a `ZSet` to its entry and
a `ZNode` to its set. The books are kept with two multisets, the sets and the nodes that are live
and belong to nobody. Every command leaves them alone but one: `do_del` deletes the entry of a
sorted set and neither the set nor its nodes.

No object is removed twice, for removing an object that is not live has no result.
-/

open BinaryTree

namespace RedisOnC

open Request

variable {S : Type}

/-- The sorted sets of the entries of the database. -/
def Mem.sets (m : Mem S) : List Ptr := m.ptrs.filterMap fun p ↦ (m.entry p).zset

/-- The nodes of these sets. -/
def Mem.nodes (m : Mem S) : List Ptr := m.ptrs.flatMap m.members

/-- The live objects are those of the database, besides the sets `Z` and the nodes `N`. -/
structure Accounts (m : Mem S) (Z N : Multiset Ptr) : Prop where
  entries : (m.entries : Multiset Ptr) = m.ptrs
  zsets : (m.zsets : Multiset Ptr) = Z + m.sets
  znodes : (m.heap.live : Multiset Ptr) = N + m.nodes

theorem accounts_init (entry : Ptr → Entry) (zset : Ptr → ZSet) (avl : AVLHeap)
    (znode : Ptr → ZNode S) : Accounts (Mem.init entry zset avl znode) 0 0 where
  entries := rfl
  zsets := rfl
  znodes := rfl

variable {m m' : Mem S} {Z N : Multiset Ptr} {p z : Ptr} {t t' : BinaryTree Ptr}

theorem Mem.members_eq (hz : (m.entry p).zset = some z) :
    m.members p = (m.zset z).hmap.nodes.map HNode.val := by
  rw [Mem.members, hz]
  rfl

theorem Mem.members_eq_nil (hz : (m.entry p).zset = none) : m.members p = [] := by
  rw [Mem.members, hz]
  rfl

theorem Mem.sets_of_perm {l : List Ptr} (hperm : m.ptrs.Perm (p :: l)) :
    (m.sets : Multiset Ptr)
      = (m.entry p).zset.toList + (l.filterMap fun q ↦ (m.entry q).zset : List Ptr) := by
  set f : Ptr → Option Ptr := fun q ↦ (m.entry q).zset with hf
  rw [Mem.sets, Multiset.coe_eq_coe.mpr (hperm.filterMap f), Multiset.coe_add]
  cases hz : (m.entry p).zset with
  | none => rw [List.filterMap_cons_none (f := f) hz, Option.toList_none, List.nil_append]
  | some z => rw [List.filterMap_cons_some (f := f) hz, Option.toList_some, List.singleton_append]

theorem Mem.nodes_of_perm {l : List Ptr} (hperm : m.ptrs.Perm (p :: l)) :
    (m.nodes : Multiset Ptr) = m.members p + (l.flatMap m.members : List Ptr) := by
  rw [Mem.nodes, Multiset.coe_eq_coe.mpr (hperm.flatMap_right _), List.flatMap_cons,
    Multiset.coe_add]

namespace Accounts

theorem congr (ha : Accounts m Z N) (hptrs : m'.ptrs.Perm m.ptrs)
    (hentries : m'.entries = m.entries) (hzsets : m'.zsets = m.zsets)
    (hlive : m'.heap.live = m.heap.live)
    (hzset : ∀ p ∈ m.ptrs, (m'.entry p).zset = (m.entry p).zset)
    (hmembers : ∀ p ∈ m.ptrs, m'.members p = m.members p) : Accounts m' Z N := by
  have hsets : m'.sets.Perm m.sets := by
    rw [Mem.sets, Mem.sets, ← List.filterMap_congr hzset]
    exact hptrs.filterMap _
  have hnodes : m'.nodes.Perm m.nodes := by
    rw [Mem.nodes, Mem.nodes, List.flatMap_congr fun p hp ↦ (hmembers p hp).symm]
    exact hptrs.flatMap_right _
  constructor
  · rw [hentries, ha.entries, Multiset.coe_eq_coe]
    exact hptrs.symm
  · rw [hzsets, ha.zsets, Multiset.coe_eq_coe.mpr hsets]
  · rw [hlive, ha.znodes, Multiset.coe_eq_coe.mpr hnodes]

theorem insert (ha : Accounts m Z N) (hptrs : m'.ptrs.Perm (p :: m.ptrs))
    (hentries : m'.entries = p :: m.entries)
    (hzsets : m'.zsets = (m'.entry p).zset.toList ++ m.zsets)
    (hlive : m'.heap.live = m.heap.live) (hempty : m'.members p = [])
    (hzset : ∀ q ∈ m.ptrs, (m'.entry q).zset = (m.entry q).zset)
    (hmembers : ∀ q ∈ m.ptrs, m'.members q = m.members q) : Accounts m' Z N := by
  constructor
  · rw [hentries, ← Multiset.cons_coe, ha.entries, Multiset.cons_coe, Multiset.coe_eq_coe]
    exact hptrs.symm
  · rw [hzsets, Mem.sets_of_perm hptrs, List.filterMap_congr hzset, ← Multiset.coe_add, ha.zsets,
      Mem.sets]
    abel
  · rw [hlive, Mem.nodes_of_perm hptrs, hempty, List.flatMap_congr hmembers, ha.znodes, Mem.nodes,
      Multiset.coe_nil, zero_add]

/-- The entry alone is deleted: its set, if it has one, and the nodes of the set are lost. -/
theorem delete (ha : Accounts m Z N) (hptrs : m.ptrs.Perm (p :: m'.ptrs))
    (hentries : m'.entries = m.entries.erase p) (hzsets : m'.zsets = m.zsets)
    (hlive : m'.heap.live = m.heap.live) (hentry : m'.entry = m.entry) (hzset : m'.zset = m.zset) :
    Accounts m' (Z + (m.entry p).zset.toList) (N + m.members p) := by
  have hsets : (m'.ptrs.filterMap fun q ↦ (m.entry q).zset) = m'.sets := by rw [Mem.sets, hentry]
  have hnodes : m'.ptrs.flatMap m.members = m'.nodes := by
    rw [Mem.nodes]
    refine List.flatMap_congr fun q _ ↦ ?_
    rw [Mem.members, Mem.members, hentry, hzset]
  constructor
  · rw [hentries, ← Multiset.coe_erase, ha.entries, Multiset.coe_eq_coe.mpr hptrs,
      ← Multiset.cons_coe, Multiset.erase_cons_head]
  · rw [hzsets, ha.zsets, Mem.sets_of_perm hptrs, hsets, add_assoc]
  · rw [hlive, ha.znodes, Mem.nodes_of_perm hptrs, hnodes, add_assoc]

/-- Writing the set of one entry: what is allocated enters the tree, and what leaves the tree is
freed. -/
theorem write_zset (ha : Accounts m Z N) (hp : p ∈ m.ptrs) (hnd : m.ptrs.Nodup)
    (hz : (m.entry p).zset = some z) (hapart : ∀ q ∈ m.ptrs, q ≠ p → (m.entry q).zset ≠ some z)
    (hinv : ZSet.Inv m.heap (m.zset z) t) {H' : ZHeap S} {zset' : ZSet}
    (hinv' : ZSet.Inv H' zset' t')
    (hlive : (H'.live ++ t.inorder).Perm (m.heap.live ++ t'.inorder)) :
    Accounts { m with heap := H', zset := Function.update m.zset z zset' } Z N := by
  set m' : Mem S := { m with heap := H', zset := Function.update m.zset z zset' } with hm'
  have hperm : m.ptrs.Perm (p :: m.ptrs.erase p) := List.perm_cons_erase hp
  have hperm' : m'.ptrs.Perm (p :: m.ptrs.erase p) := hperm
  have hother : ∀ q ∈ m.ptrs.erase p, m'.members q = m.members q := by
    intro q hq
    obtain ⟨hqp, hq⟩ := hnd.mem_erase_iff.mp hq
    cases hzq : (m.entry q).zset with
    | none => rw [Mem.members_eq_nil hzq, Mem.members_eq_nil (m := m') hzq]
    | some z' =>
      have hne : z' ≠ z := fun heq ↦ hapart q hq hqp (heq ▸ hzq)
      rw [Mem.members_eq hzq, Mem.members_eq (m := m') hzq]
      exact congrArg (fun s : ZSet ↦ s.hmap.nodes.map HNode.val) (Function.update_of_ne hne ..)
  have hself : (m.members p : Multiset Ptr) = t.inorder := by
    rw [Mem.members_eq hz]
    exact Multiset.coe_eq_coe.mpr hinv.perm
  have hself' : (m'.members p : Multiset Ptr) = t'.inorder := by
    have hzset : m'.zset z = zset' := Function.update_self ..
    rw [Mem.members_eq (m := m') hz, hzset]
    exact Multiset.coe_eq_coe.mpr hinv'.perm
  have hlive' : (H'.live : Multiset Ptr) + t.inorder = m.heap.live + t'.inorder := by
    rw [Multiset.coe_add, Multiset.coe_add]
    exact Multiset.coe_eq_coe.mpr hlive
  constructor
  · exact ha.entries
  · exact ha.zsets
  · apply add_right_cancel (b := (t.inorder : Multiset Ptr))
    rw [Mem.nodes_of_perm hperm', hself', List.flatMap_congr hother]
    refine hlive'.trans ?_
    rw [ha.znodes, Mem.nodes_of_perm hperm, hself]
    abel

end Accounts

variable [Score S] {trees : Ptr → BinaryTree Ptr} {K : Keyspace S} {ordered : Prop}
variable {key name out : Bytes} {score : S}

/-! ## Lookups -/

theorem Models.zset_ne (h : Models ordered m trees K) (hp : p ∈ m.ptrs)
    (hz : (m.entry p).zset = some z) : ∀ q ∈ m.ptrs, q ≠ p → (m.entry q).zset ≠ some z :=
  fun q hq hqp hzq ↦ (h.apart q hq p hp hqp z z hzq hz).1 rfl

theorem Accounts.after_dbLookup (ha : Accounts m Z N) (h : Models ordered m trees K)
    {r : Option Ptr} (hexec : dbLookup m key = some (m', r)) : Accounts m' Z N := by
  obtain ⟨db, r', hcode, -, hperm, -⟩ := hmLookup_spec h.db (strHash key) (entryEq m key)
  rw [dbLookup, hcode] at hexec
  obtain ⟨rfl, -⟩ := Prod.mk.inj (Option.some_inj.mp hexec)
  exact ha.congr (hperm.map _) rfl rfl rfl (fun _ _ ↦ rfl) fun _ _ ↦ rfl

theorem Accounts.after_expectZSet (ha : Accounts m Z N) (h : Models ordered m trees K)
    {r : Bytes ⊕ Ptr} (hexec : expectZSet m key = some (m', r)) : Accounts m' Z N := by
  obtain ⟨⟨m₁, node⟩, hlook, hexec⟩ := Option.bind_eq_some_iff.mp hexec
  have ha₁ := ha.after_dbLookup h hlook
  rcases node with _ | p
  · obtain ⟨rfl, -⟩ := Prod.mk.inj (Option.some_inj.mp hexec)
    exact ha₁
  · change (if (m₁.entry p).type ≠ .zset then some (m₁, .inl typeError) else some (m₁, .inr p))
      = some (m', r) at hexec
    split at hexec <;> obtain ⟨rfl, -⟩ := Prod.mk.inj (Option.some_inj.mp hexec) <;> exact ha₁

private theorem expectZSet_inr (h : Models ordered m trees K)
    (hexec : expectZSet m key = some (m', .inr p)) :
    Models ordered m' trees K ∧ p ∈ m'.ptrs ∧ ∃ z, (m'.entry p).zset = some z := by
  obtain ⟨db, r, hcode, h', hr⟩ := expectZSet_spec h key
  rw [hcode] at hexec
  obtain ⟨rfl, rfl⟩ := Prod.mk.inj (Option.some_inj.mp hexec)
  rcases hK : K key with _ | val | M <;> rw [hK] at hr
  · cases hr
  · cases hr
  · obtain ⟨p', z, heq, hp, -, hz, -⟩ := hr
    obtain rfl := Sum.inr.inj heq
    exact ⟨h', hp, z, hz⟩

/-! ## The commands -/

theorem Accounts.after_doGet (ha : Accounts m Z N) (h : Models ordered m trees K)
    (hexec : doGet m key = some (m', out)) : Accounts m' Z N := by
  obtain ⟨⟨m₁, node⟩, hlook, hexec⟩ := Option.bind_eq_some_iff.mp hexec
  have ha₁ := ha.after_dbLookup h hlook
  rcases node with _ | p <;> obtain ⟨rfl, -⟩ := Prod.mk.inj (Option.some_inj.mp hexec) <;>
    exact ha₁

theorem Accounts.after_dbInsert (ha : Accounts m Z N) (h : Models ordered m trees K) {e : Entry}
    (he : e.zset = none) (hexec : dbInsert (newEntry m e).1 m.nextEntry = some m') :
    Accounts m' Z N := by
  obtain ⟨db, hins, -, hperm⟩ :=
    hmInsert_spec h.db ⟨((newEntry m e).1.entry m.nextEntry).hcode, m.nextEntry⟩
  rw [dbInsert, show (newEntry m e).1.db = m.db from rfl, hins] at hexec
  obtain rfl := Option.some_inj.mp hexec
  have hself : (newEntry m e).1.entry m.nextEntry = e := Function.update_self ..
  have hne : ∀ q ∈ m.ptrs, (newEntry m e).1.entry q = m.entry q := fun q hq ↦
    Function.update_of_ne (ne_of_lt (h.entry_lt q (h.live q hq))) ..
  refine ha.insert (p := m.nextEntry) (hperm.map _) rfl ?_ rfl ?_ (fun q hq ↦ ?_) fun q hq ↦ ?_
  · change m.zsets = ((newEntry m e).1.entry m.nextEntry).zset.toList ++ m.zsets
    rw [hself, he]
    rfl
  · exact Mem.members_eq_nil ((congrArg Entry.zset hself).trans he)
  · exact congrArg Entry.zset (hne q hq)
  · have hq' : Mem.entry { (newEntry m e).1 with db := db } q = m.entry q := hne q hq
    rw [Mem.members, Mem.members, hq']
    rfl

theorem Accounts.after_doSet (ha : Accounts m Z N) (h : Models ordered m trees K) {val : Bytes}
    (hexec : doSet m key val = some (m', out)) : Accounts m' Z N := by
  obtain ⟨db, r, hcode, h', -⟩ := h.lookup key
  have ha' := ha.after_dbLookup h hcode
  rw [doSet, hcode] at hexec
  simp only [Option.bind_eq_bind, Option.bind_some, moved] at hexec
  rcases r with _ | p
  · obtain ⟨m₁, hins, heq⟩ := Option.bind_eq_some_iff.mp hexec
    obtain ⟨rfl, -⟩ := Prod.mk.inj (Option.some_inj.mp heq)
    exact ha'.after_dbInsert h' rfl hins
  · obtain ⟨rfl, -⟩ := Prod.mk.inj (Option.some_inj.mp hexec)
    have hzset : ∀ q, (Function.update m.entry p { m.entry p with val := [] } q).zset
        = (m.entry q).zset := by
      intro q
      by_cases hqp : q = p
      · rw [hqp, Function.update_self]
      · rw [Function.update_of_ne hqp]
    refine ha'.congr (List.Perm.refl _) rfl rfl rfl (fun q _ ↦ hzset q) fun q _ ↦ ?_
    rw [Mem.members, Mem.members]
    exact congrArg
      (fun o : Option Ptr ↦ (o.map fun z ↦ (m.zset z).hmap.nodes.map HNode.val).getD []) (hzset q)

/-- The entry is deleted, and nothing but the entry. -/
theorem Accounts.after_doDel (ha : Accounts m Z N) (h : Models ordered m trees K)
    (hexec : doDel m key = some (m', out)) :
    ∃ Z' N', Accounts m' (Z + Z') (N + N') ∧ (Z' ≠ 0 ↔ m.HasType key .zset) ∧
      (Z' = 0 → N' = 0) := by
  obtain ⟨db, r, hcode, -, hr⟩ := hmPop_spec h.db (strHash key) (entryEq m key)
  rw [doDel, hcode] at hexec
  simp only [Option.bind_eq_bind, Option.bind_some] at hexec
  rcases r with _ | n
  · obtain ⟨rfl, -⟩ := Prod.mk.inj (Option.some_inj.mp hexec)
    refine ⟨0, 0, ?_, iff_of_false (fun hne ↦ hne rfl) ?_, fun _ ↦ rfl⟩
    · rw [add_zero, add_zero]
      exact ha.congr (hr.1.map _) rfl rfl rfl (fun _ _ ↦ rfl) fun _ _ ↦ rfl
    · intro htype
      obtain ⟨o, ho, -⟩ := h.hasType_iff.mp htype
      rw [h.absent_of_no_match hr.2] at ho
      cases ho
  · obtain ⟨hperm, hmatch⟩ := hr
    have hn : n ∈ m.db.nodes := hperm.mem_iff.mpr (List.mem_cons_self ..)
    have hp : n.val ∈ m.ptrs := List.mem_map_of_mem hn
    have hkey := (h.matches_iff hn).mp hmatch
    obtain ⟨m₁, hdel, heq⟩ := Option.bind_eq_some_iff.mp hexec
    obtain ⟨rfl, -⟩ := Prod.mk.inj (Option.some_inj.mp heq)
    rw [deleteEntry, if_pos (h.live n.val hp)] at hdel
    obtain rfl := Option.some_inj.mp hdel
    refine ⟨(m.entry n.val).zset.toList, m.members n.val,
      ha.delete (hperm.map HNode.val) rfl rfl rfl rfl rfl, ?_, ?_⟩
    · rw [h.hasType_iff, ← hkey]
      obtain ⟨o, ho, hholds⟩ := h.holds n.val hp
      cases o with
      | str val =>
        rw [hholds.2.1]
        refine iff_of_false (fun hne ↦ hne rfl) ?_
        rintro ⟨o, ho', htype⟩
        obtain rfl := Option.some_inj.mp (ho.symm.trans ho')
        cases htype
      | zset M =>
        obtain ⟨-, -, z, -, hz, -⟩ := hholds
        rw [hz]
        exact iff_of_true (by simp) ⟨_, ho, rfl⟩
    · intro hnone
      cases hz : (m.entry n.val).zset with
      | none => rw [Mem.members_eq_nil hz, Multiset.coe_nil]
      | some z =>
        rw [hz] at hnone
        exact absurd hnone (by simp)

theorem Accounts.after_zaddTo (ha : Accounts m Z N) (hp : p ∈ m.ptrs) (hnd : m.ptrs.Nodup)
    (hz : (m.entry p).zset = some z) (hapart : ∀ q ∈ m.ptrs, q ≠ p → (m.entry q).zset ≠ some z)
    (hheap : m.heap.Inv) (hinv : ZSet.Inv m.heap (m.zset z) t)
    (hexec : zaddTo m p name score = some (m', out)) : Accounts m' Z N := by
  obtain ⟨H', zset', t', hcode, hinv', hframe, -⟩ := zsetAdd_spec hheap hinv name score
  rw [zaddTo, hz] at hexec
  simp only [Option.bind_eq_bind, Option.bind_some, hcode] at hexec
  obtain ⟨rfl, -⟩ := Prod.mk.inj (Option.some_inj.mp hexec)
  exact ha.write_zset hp hnd hz hapart hinv hinv' hframe.live_perm

/-- A new entry with a new set, and a tuple added to the set. -/
private theorem Accounts.after_zaddTo_new (ha : Accounts m Z N) (h : Models ordered m trees K)
    {e : Entry} (he : e.zset = some m.nextZSet) {m₁ : Mem S}
    (hins : dbInsert (newEntry (newZSet m).1 e).1 m.nextEntry = some m₁)
    (hexec : zaddTo m₁ m.nextEntry name score = some (m', out)) : Accounts m' Z N := by
  obtain ⟨db, hcode, -, hperm⟩ :=
    hmInsert_spec h.db ⟨((newEntry (newZSet m).1 e).1.entry m.nextEntry).hcode, m.nextEntry⟩
  rw [dbInsert, show (newEntry (newZSet m).1 e).1.db = m.db from rfl, hcode] at hins
  have hm₁ : m₁ = { (newEntry (newZSet m).1 e).1 with db := db } := (Option.some_inj.mp hins).symm
  have hptrs : m₁.ptrs.Perm (m.nextEntry :: m.ptrs) := by
    rw [hm₁]
    exact hperm.map _
  -- entry and set are new, so all others are as they were
  have hfresh : ∀ q ∈ m.ptrs, q ≠ m.nextEntry := fun q hq ↦ ne_of_lt (h.entry_lt q (h.live q hq))
  have hself : (m₁.entry m.nextEntry).zset = some m.nextZSet := by
    rw [hm₁, ← he]
    exact congrArg Entry.zset (Function.update_self ..)
  have hset : m₁.zset m.nextZSet = {} := by
    rw [hm₁]
    exact Function.update_self ..
  have hentry : ∀ q ∈ m.ptrs, m₁.entry q = m.entry q := fun q hq ↦ by
    rw [hm₁]
    exact Function.update_of_ne (hfresh q hq) ..
  have hzne : ∀ q ∈ m.ptrs, ∀ z, (m.entry q).zset = some z → z ≠ m.nextZSet := fun q hq z hz ↦
    ne_of_lt (h.zset_lt z (h.zset_inv hq hz).1)
  have ha₁ : Accounts m₁ Z N := by
    refine ha.insert hptrs (by rw [hm₁]; rfl) ?_ (by rw [hm₁]; rfl) ?_ ?_ fun q hq ↦ ?_
    · rw [hself, hm₁]
      rfl
    · rw [Mem.members_eq hself, hset]
      rfl
    · exact fun q hq ↦ congrArg Entry.zset (hentry q hq)
    · cases hz : (m.entry q).zset with
      | none => rw [Mem.members_eq_nil hz, Mem.members_eq_nil (by rw [hentry q hq, hz])]
      | some z =>
        rw [Mem.members_eq hz, Mem.members_eq (m := m₁) (by rw [hentry q hq, hz]), hm₁]
        exact congrArg (fun s : ZSet ↦ s.hmap.nodes.map HNode.val)
          (Function.update_of_ne (hzne q hq z hz) ..)
  refine ha₁.after_zaddTo (hptrs.mem_iff.mpr (List.mem_cons_self ..)) ?_ hself
    (fun q hq hqp hzq ↦ ?_) (by rw [hm₁]; exact h.heap) (by rw [hset]; exact ZSet.inv_empty) hexec
  · exact hptrs.nodup_iff.mpr (List.nodup_cons.mpr ⟨fun hmem ↦ hfresh _ hmem rfl, h.ptrs_nodup⟩)
  · have hq : q ∈ m.ptrs := (List.mem_cons.mp (hptrs.mem_iff.mp hq)).resolve_left hqp
    rw [hentry q hq] at hzq
    exact hzne q hq _ hzq rfl

theorem Accounts.after_doZadd (ha : Accounts m Z N) (h : Models ordered m trees K) {cmd2 : Bytes}
    (hexec : doZadd m key cmd2 name = some (m', out)) : Accounts m' Z N := by
  rw [doZadd] at hexec
  cases hscore : (str2dbl cmd2 : Option S) with
  | none =>
    rw [hscore] at hexec
    obtain ⟨rfl, -⟩ := Prod.mk.inj (Option.some_inj.mp hexec)
    exact ha
  | some score =>
    obtain ⟨db, r, hcode, h', hr⟩ := h.lookup key
    have ha' := ha.after_dbLookup h hcode
    simp only [hscore, Option.bind_eq_bind, hcode, Option.bind_some] at hexec
    rcases r with _ | p
    · obtain ⟨m₁, hins, hexec⟩ := Option.bind_eq_some_iff.mp hexec
      have hnew : ∀ e : Entry, e.zset = some m.nextZSet →
          dbInsert (newEntry (newZSet { m with db := db }).1 e).1 m.nextEntry = some m₁ →
            Accounts m' Z N := fun e he hins ↦ ha'.after_zaddTo_new h' he hins hexec
      exact hnew _ rfl hins
    · obtain ⟨hp, -⟩ := hr
      change (if (m.entry p).type ≠ .zset then some ({ m with db := db }, typeError)
        else zaddTo { m with db := db } p name score) = some (m', out) at hexec
      by_cases htype : (m.entry p).type ≠ .zset
      · rw [if_pos htype] at hexec
        obtain ⟨rfl, -⟩ := Prod.mk.inj (Option.some_inj.mp hexec)
        exact ha'
      · rw [if_neg htype] at hexec
        have hex : ∃ z, (m.entry p).zset = some z := by
          rw [zaddTo] at hexec
          obtain ⟨z, hz, -⟩ := Option.bind_eq_some_iff.mp hexec
          exact ⟨z, hz⟩
        obtain ⟨z, hz⟩ := hex
        exact ha'.after_zaddTo hp h'.ptrs_nodup hz (h'.zset_ne hp hz) h'.heap
          (h'.zset_inv hp hz).2 hexec

theorem Accounts.after_doZrem (ha : Accounts m Z N) (h : Models ordered m trees K)
    (hexec : doZrem m key name = some (m', out)) : Accounts m' Z N := by
  obtain ⟨⟨m₁, r⟩, hfound, hexec⟩ := Option.bind_eq_some_iff.mp hexec
  have ha₁ := ha.after_expectZSet h hfound
  rcases r with out₁ | p
  · obtain ⟨rfl, -⟩ := Prod.mk.inj (Option.some_inj.mp hexec)
    exact ha₁
  · obtain ⟨h₁, hp, z, hz⟩ := expectZSet_inr h hfound
    have hinv := (h₁.zset_inv hp hz).2
    obtain ⟨H', zset', t', r, hpop, hinv', hr⟩ := zsetPop_spec hinv name
    simp only [Option.bind_eq_bind, hz, Option.bind_some, hpop] at hexec
    rcases r with _ | q
    · obtain ⟨rfl, -, rfl, -⟩ := hr
      obtain ⟨rfl, -⟩ := Prod.mk.inj (Option.some_inj.mp hexec)
      exact ha₁.write_zset hp h₁.ptrs_nodup hz (h₁.zset_ne hp hz) hinv hinv' (List.Perm.refl _)
    · obtain ⟨H'', hdel, hinv'', hframe, -⟩ := hr.free h₁.heap hinv hinv'
      simp only [hdel, Option.bind_some] at hexec
      obtain ⟨rfl, -⟩ := Prod.mk.inj (Option.some_inj.mp hexec)
      exact ha₁.write_zset hp h₁.ptrs_nodup hz (h₁.zset_ne hp hz) hinv hinv'' hframe.live_perm

theorem Accounts.after_doZscore (ha : Accounts m Z N) (h : Models ordered m trees K)
    (hexec : doZscore m key name = some (m', out)) : Accounts m' Z N := by
  obtain ⟨⟨m₁, r⟩, hfound, hexec⟩ := Option.bind_eq_some_iff.mp hexec
  have ha₁ := ha.after_expectZSet h hfound
  rcases r with out₁ | p
  · obtain ⟨rfl, -⟩ := Prod.mk.inj (Option.some_inj.mp hexec)
    exact ha₁
  · obtain ⟨h₁, hp, z, hz⟩ := expectZSet_inr h hfound
    have hinv := (h₁.zset_inv hp hz).2
    obtain ⟨hmap, r, hlook, hinv', -⟩ := zsetLookup_spec hinv name
    simp only [Option.bind_eq_bind, hz, Option.bind_some, hlook] at hexec
    have ha₂ := ha₁.write_zset hp h₁.ptrs_nodup hz (h₁.zset_ne hp hz) hinv hinv'
      (List.Perm.refl _)
    rcases r with _ | q <;> obtain ⟨rfl, -⟩ := Prod.mk.inj (Option.some_inj.mp hexec) <;>
      exact ha₂

theorem Accounts.after_doZquery (ha : Accounts m Z N) (h : Models ordered m trees K)
    {cmd2 cmd4 cmd5 : Bytes} (hexec : doZquery m key cmd2 name cmd4 cmd5 = some (m', out)) :
    Accounts m' Z N := by
  rw [doZquery] at hexec
  rcases hscore : (str2dbl cmd2 : Option S) with _ | score <;> rw [hscore] at hexec
  · obtain ⟨rfl, -⟩ := Prod.mk.inj (Option.some_inj.mp hexec)
    exact ha
  rcases hoff : str2int cmd4 with _ | offset <;> rw [hoff] at hexec
  · obtain ⟨rfl, -⟩ := Prod.mk.inj (Option.some_inj.mp hexec)
    exact ha
  rcases hlim : str2int cmd5 with _ | limit <;> rw [hlim] at hexec
  · obtain ⟨rfl, -⟩ := Prod.mk.inj (Option.some_inj.mp hexec)
    exact ha
  obtain ⟨⟨m₁, r⟩, hfound, hexec⟩ := Option.bind_eq_some_iff.mp hexec
  have ha₁ := ha.after_expectZSet h hfound
  rcases r with out₁ | p
  · obtain ⟨rfl, -⟩ := Prod.mk.inj (Option.some_inj.mp hexec)
    exact ha₁
  · obtain ⟨out₁, -, heq⟩ := Option.bind_eq_some_iff.mp hexec
    obtain ⟨rfl, -⟩ := Prod.mk.inj (Option.some_inj.mp heq)
    exact ha₁

/-! ## Runs -/

/-- The request deletes a key that has a sorted set. -/
def DropsZSet (m : Mem S) (req : Request) : Prop := ∃ key, req = .del key ∧ m.HasType key .zset

/-- **One command.** Nothing is lost but by a `del` of a key that has a sorted set. -/
theorem Accounts.after_doRequest (ha : Accounts m Z N) (h : Models ordered m trees K)
    {cmd : List Bytes} (hexec : doRequest m cmd = some (m', out)) :
    ∃ Z' N', Accounts m' (Z + Z') (N + N') ∧ (Z' ≠ 0 ↔ DropsZSet m (ofCmd cmd)) ∧
      (Z' = 0 → N' = 0) := by
  rw [doRequest_eq] at hexec
  have hkeep : (∀ key, ofCmd cmd ≠ .del key) → Accounts m' Z N →
      ∃ Z' N', Accounts m' (Z + Z') (N + N') ∧ (Z' ≠ 0 ↔ DropsZSet m (ofCmd cmd)) ∧
        (Z' = 0 → N' = 0) := by
    intro hdel ha'
    refine ⟨0, 0, by rwa [add_zero, add_zero], iff_of_false (fun hne ↦ hne rfl) ?_, fun _ ↦ rfl⟩
    rintro ⟨key, heq, -⟩
    exact hdel key heq
  generalize ofCmd cmd = req at *
  cases req with
  | del key =>
    obtain ⟨Z', N', ha', hdrops, hnone⟩ := ha.after_doDel h hexec
    refine ⟨Z', N', ha', hdrops.trans ⟨fun htype ↦ ⟨key, rfl, htype⟩, ?_⟩, hnone⟩
    rintro ⟨key', heq, htype⟩
    obtain rfl := Request.del.inj heq
    exact htype
  | keys =>
    obtain ⟨out', hcode, -⟩ := doKeys_spec h
    obtain ⟨rfl, -⟩ := Prod.mk.inj (Option.some_inj.mp (hcode.symm.trans hexec))
    exact hkeep (fun _ heq ↦ by cases heq) ha
  | unknown =>
    obtain ⟨rfl, -⟩ := Prod.mk.inj (Option.some_inj.mp hexec)
    exact hkeep (fun _ heq ↦ by cases heq) ha
  | get key => exact hkeep (fun _ heq ↦ by cases heq) (ha.after_doGet h hexec)
  | set key val => exact hkeep (fun _ heq ↦ by cases heq) (ha.after_doSet h hexec)
  | zadd key score name => exact hkeep (fun _ heq ↦ by cases heq) (ha.after_doZadd h hexec)
  | zrem key name => exact hkeep (fun _ heq ↦ by cases heq) (ha.after_doZrem h hexec)
  | zscore key name => exact hkeep (fun _ heq ↦ by cases heq) (ha.after_doZscore h hexec)
  | zquery key score name offset limit =>
    exact hkeep (fun _ heq ↦ by cases heq) (ha.after_doZquery h hexec)

/-- Some command of the run deletes a key that has a sorted set at that moment. -/
def Leaks (m : Mem S) : List (List Bytes) → Prop
  | [] => False
  | cmd :: cmds =>
    DropsZSet m (ofCmd cmd) ∨ ∃ m' out, doRequest m cmd = some (m', out) ∧ Leaks m' cmds

theorem not_leaks_of_no_del {cmds : List (List Bytes)}
    (hdel : ∀ cmd ∈ cmds, ∀ key, ofCmd cmd ≠ .del key) : ¬ Leaks m cmds := by
  induction cmds generalizing m with
  | nil => exact id
  | cons cmd cmds ih =>
    rintro (⟨key, heq, -⟩ | ⟨m', out, -, hleaks⟩)
    · exact hdel cmd (List.mem_cons_self ..) key heq
    · exact ih (fun c hc ↦ hdel c (List.mem_cons_of_mem _ hc)) hleaks

theorem Accounts.after_doRequests (ha : Accounts m Z N) (h : Models False m trees K)
    {cmds : List (List Bytes)} {outs : List Bytes} (hexec : doRequests m cmds = some (m', outs)) :
    ∃ Z' N', Accounts m' (Z + Z') (N + N') ∧ (Z' ≠ 0 ↔ Leaks m cmds) ∧ (Z' = 0 → N' = 0) := by
  induction cmds generalizing m trees K outs Z N with
  | nil =>
    obtain ⟨rfl, -⟩ := Prod.mk.inj (Option.some_inj.mp hexec)
    exact ⟨0, 0, by rwa [add_zero, add_zero], iff_of_false (fun hne ↦ hne rfl) id, fun _ ↦ rfl⟩
  | cons cmd cmds ih =>
    simp only [doRequests, Option.bind_eq_bind, Option.bind_eq_some_iff] at hexec
    obtain ⟨⟨m₁, out⟩, hcmd, ⟨m₂, outs'⟩, hcmds, heq⟩ := hexec
    obtain ⟨rfl, -⟩ := Prod.mk.inj (Option.some_inj.mp heq)
    obtain ⟨trees₁, h₁, -⟩ := h.after_doRequest (fun ho ↦ ho.elim) hcmd
    obtain ⟨Z₁, N₁, ha₁, hdrops, hnone₁⟩ := ha.after_doRequest h hcmd
    obtain ⟨Z₂, N₂, ha₂, hleaks, hnone₂⟩ := ih ha₁ h₁ hcmds
    have hzero : Z₁ + Z₂ = 0 ↔ Z₁ = 0 ∧ Z₂ = 0 := by
      rw [← Multiset.card_eq_zero, Multiset.card_add, Nat.add_eq_zero_iff, Multiset.card_eq_zero,
        Multiset.card_eq_zero]
    refine ⟨Z₁ + Z₂, N₁ + N₂, by rwa [← add_assoc, ← add_assoc], ?_, ?_⟩
    · rw [Leaks, ← hdrops, Ne, hzero, not_and_or]
      refine or_congr Iff.rfl (hleaks.trans ⟨fun hl ↦ ⟨m₁, out, hcmd, hl⟩, ?_⟩)
      rintro ⟨m₁', out', hcmd', hl⟩
      obtain ⟨rfl, -⟩ := Prod.mk.inj (Option.some_inj.mp (hcmd.symm.trans hcmd'))
      exact hl
    · intro hsum
      obtain ⟨hz₁, hz₂⟩ := hzero.mp hsum
      rw [hnone₁ hz₁, hnone₂ hz₂, add_zero]

/-! ## What the live objects are -/

/-- The live objects are those of the database: an `Entry` for each key, a `ZSet` for each entry of
type `T_ZSET` and a `ZNode` for each member of its set. -/
structure Owned (m : Mem S) : Prop where
  keys : (m.ptrs.map fun p ↦ (m.entry p).key).Nodup
  entries : m.entries.Perm m.ptrs
  zsets : (m.zsets.map some).Perm
    ((m.ptrs.filter fun p ↦ (m.entry p).type = .zset).map fun p ↦ (m.entry p).zset)
  zsets_nodup : m.zsets.Nodup
  znodes : m.heap.live.Perm
    ((m.ptrs.filter fun p ↦ (m.entry p).type = .zset).flatMap m.members)
  znodes_nodup : m.heap.live.Nodup

/-- Every command that may remove an object has a result, so it removes none that is not live. -/
def NoDoubleRemoval (m : Mem S) : Prop :=
  ∀ cmd, (ofCmd cmd).NoQuery → ∃ m' out, doRequest m cmd = some (m', out)

theorem Models.type_eq_zset_iff (h : Models ordered m trees K) (hp : p ∈ m.ptrs) :
    (m.entry p).type = .zset ↔ ∃ z, (m.entry p).zset = some z := by
  obtain ⟨o, -, hholds⟩ := h.holds p hp
  cases o with
  | str val =>
    rw [hholds.1, hholds.2.1]
    exact iff_of_false (fun heq ↦ by cases heq) (fun ⟨_, heq⟩ ↦ by cases heq)
  | zset M =>
    obtain ⟨htype, -, z, -, hz, -⟩ := hholds
    exact iff_of_true htype ⟨z, hz⟩

theorem Models.sets_eq (h : Models ordered m trees K) :
    m.sets.map some
      = (m.ptrs.filter fun p ↦ (m.entry p).type = .zset).map fun p ↦ (m.entry p).zset := by
  rw [Mem.sets, List.map_filterMap_some_eq_filter_map_isSome, List.filter_map]
  refine congrArg _ (List.filter_congr fun p hp ↦ ?_)
  rw [Bool.eq_iff_iff, decide_eq_true_iff, h.type_eq_zset_iff hp]
  exact Option.isSome_iff_exists

private theorem flatMap_filter_eq {α β : Type} {f : α → List β} {P : α → Bool} {l : List α}
    (h : ∀ a ∈ l, P a = false → f a = []) : (l.filter P).flatMap f = l.flatMap f := by
  induction l with
  | nil => rfl
  | cons a l ih =>
    have ih := ih fun b hb ↦ h b (List.mem_cons_of_mem _ hb)
    cases ha : P a with
    | true => rw [List.filter_cons_of_pos ha, List.flatMap_cons, List.flatMap_cons, ih]
    | false =>
      rw [List.filter_cons_of_neg (by rw [ha]; simp), List.flatMap_cons, ih,
        h a (List.mem_cons_self ..) ha, List.nil_append]

theorem Models.nodes_eq (h : Models ordered m trees K) :
    m.nodes = (m.ptrs.filter fun p ↦ (m.entry p).type = .zset).flatMap m.members := by
  refine (flatMap_filter_eq fun p hp htype ↦ ?_).symm
  cases hz : (m.entry p).zset with
  | none => exact Mem.members_eq_nil hz
  | some z => exact absurd ((h.type_eq_zset_iff hp).mpr ⟨z, hz⟩) (of_decide_eq_false htype)

theorem Models.sets_nodup (h : Models ordered m trees K) : m.sets.Nodup := by
  refine List.pairwise_filterMap.mpr (h.ptrs_nodup.pairwise_of_forall_ne ?_)
  intro p hp q hq hpq z hz z' hz'
  exact (h.apart p hp q hq hpq z z' hz hz').1

theorem Accounts.owned_iff_eq_zero (ha : Accounts m Z N) (h : Models ordered m trees K)
    (hnone : Z = 0 → N = 0) : Owned m ↔ Z = 0 := by
  have hlength := congrArg Multiset.card ha.zsets
  rw [Multiset.card_add, Multiset.coe_card, Multiset.coe_card] at hlength
  constructor
  · intro howned
    have heq := howned.zsets.length_eq
    rw [← h.sets_eq, List.length_map, List.length_map] at heq
    rw [← Multiset.card_eq_zero]
    omega
  · intro hZ
    have hzsets := ha.zsets
    have hznodes := ha.znodes
    rw [hZ, zero_add, Multiset.coe_eq_coe] at hzsets
    rw [hnone hZ, zero_add, Multiset.coe_eq_coe] at hznodes
    exact
      { keys := h.keys
        entries := Multiset.coe_eq_coe.mp ha.entries
        zsets := h.sets_eq ▸ hzsets.map some
        zsets_nodup := hzsets.nodup_iff.mpr h.sets_nodup
        znodes := h.nodes_eq ▸ hznodes
        znodes_nodup := h.heap.nodup }

/-- **Ownership.** After any run from the start of the server, the live objects are those of the
database, and no command removes an object twice, exactly if no command of the run was a `del` of a
key that had a sorted set. -/
theorem owned_iff (entry : Ptr → Entry) (zset : Ptr → ZSet) (avl : AVLHeap) (znode : Ptr → ZNode S)
    (cmds : List (List Bytes)) (outs : List Bytes)
    (hrun : doRequests (Mem.init entry zset avl znode) cmds = some (m, outs)) :
    Owned m ∧ NoDoubleRemoval m ↔ ¬ Leaks (Mem.init entry zset avl znode) cmds := by
  have hinit : Models False (Mem.init entry zset avl znode) (fun _ ↦ nil) fun _ ↦ none :=
    models_init entry zset avl znode
  obtain ⟨Z, N, ha, hleaks, hnone⟩ := (accounts_init entry zset avl znode).after_doRequests hinit
    hrun
  rw [zero_add, zero_add] at ha
  obtain ⟨trees, h⟩ := hinit.after_doRequests (fun ho ↦ ho.elim) hrun
  have htotal : NoDoubleRemoval m := by
    intro cmd hquery
    obtain ⟨m', -, out, hcode, -⟩ := Request.exec_spec h hquery fun ho ↦ ho.elim
    exact ⟨m', out, by rw [doRequest_eq, hcode]⟩
  rw [and_iff_left htotal, ha.owned_iff_eq_zero h hnone, ← hleaks, Ne, not_not]

theorem owned_after_zrem : ∃ (m : Mem ℤ) (outs : List Bytes),
    doRequests Mem.empty [[ascii "zadd", ascii "k", ascii "1", ascii "n"],
      [ascii "zrem", ascii "k", ascii "n"]] = some (m, outs) ∧ Owned m ∧ NoDoubleRemoval m := by
  have hcmds : ∀ cmd ∈ [[ascii "zadd", ascii "k", ascii "1", ascii "n"],
      [ascii "zrem", ascii "k", ascii "n"]],
      (ofCmd cmd).NoQuery ∧ ∀ key, ofCmd cmd ≠ .del key := by
    intro cmd hcmd
    simp only [List.mem_cons, List.not_mem_nil, or_false] at hcmd
    rcases hcmd with rfl | rfl
    all_goals
      constructor
      · intro _ _ _ _ _ heq
        cases heq
      · intro _ heq
        cases heq
  obtain ⟨m, -, outs, hrun, -⟩ := models_empty.exists_doRequests (fun cmd hcmd ↦ (hcmds cmd hcmd).1)
    fun ho ↦ ho.elim
  exact ⟨m, outs, hrun, (owned_iff _ _ _ _ _ _ hrun).mpr
    (not_leaks_of_no_del fun cmd hcmd ↦ (hcmds cmd hcmd).2)⟩

/-- `zadd k 1 n`, then `del k`. -/
theorem not_owned_after_del : ∃ (m : Mem ℤ) (outs : List Bytes),
    doRequests Mem.empty [[ascii "zadd", ascii "k", ascii "1", ascii "n"], [ascii "del", ascii "k"]]
      = some (m, outs) ∧ ¬ Owned m := by
  have hquery : ∀ cmd ∈ [[ascii "zadd", ascii "k", ascii "1", ascii "n"], [ascii "del", ascii "k"]],
      (ofCmd cmd).NoQuery := by
    intro cmd hcmd
    simp only [List.mem_cons, List.not_mem_nil, or_false] at hcmd
    rcases hcmd with rfl | rfl <;> intro _ _ _ _ _ heq <;> cases heq
  obtain ⟨m, -, outs, hrun, -⟩ := models_empty.exists_doRequests hquery fun ho ↦ ho.elim
  obtain ⟨m₁, trees₁, out₁, hzadd, h₁⟩ := exists_zadd_once
  have hleaks : Leaks Mem.empty [[ascii "zadd", ascii "k", ascii "1", ascii "n"],
      [ascii "del", ascii "k"]] :=
    Or.inr ⟨m₁, out₁, hzadd, Or.inl ⟨ascii "k", rfl,
      h₁.hasType_iff.mpr ⟨_, Function.update_self .., rfl⟩⟩⟩
  obtain ⟨Z, N, ha, hiff, hnone⟩ := (accounts_init _ _ _ _).after_doRequests models_empty hrun
  rw [zero_add, zero_add] at ha
  obtain ⟨trees, h⟩ := models_empty.after_doRequests (fun ho ↦ ho.elim) hrun
  refine ⟨m, outs, hrun, fun howned ↦ ?_⟩
  exact hiff.mpr hleaks ((ha.owned_iff_eq_zero h hnone).mp howned)

end RedisOnC
