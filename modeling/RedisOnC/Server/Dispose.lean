import RedisOnC.Server.Ownership

/-!
# Releasing a key

`entry_del` frees an entry with all that it owns: the tree of its set is walked and every `ZNode`
freed, then the tables of the hash map, the set and the entry. Once the entry is unlinked from the
database this is all that is needed: what is freed is exactly what the entry owned, nothing is read
after it is freed, and the books of the heap stay balanced. (`do_del`, which does not call it, loses
the set and its nodes.)
-/

open BinaryTree

namespace RedisOnC

open Request

variable {S : Type}

/-! ## A set -/

section ZSet

variable {H : ZHeap S} {zset : ZSet} {t u : BinaryTree Ptr}

theorem ZHeap.tree_of_mem {p : Ptr} (hp : p ∈ H.live) : H.tree p = some (H.avl p) := if_pos hp

/-- **`tree_dispose`.** It frees the nodes of the tree, and every node that it reads is live. -/
theorem treeDispose_spec {par : Option Ptr} (hrep : Rep H.avl par t) (hnd : t.inorder.Nodup)
    (hlive : ∀ p ∈ t.inorder, p ∈ H.live) :
    ∃ live, treeDispose H t.root = some { H with live := live } ∧
      H.live.Perm (t.inorder ++ live) := by
  induction t generalizing H par with
  | nil => exact ⟨H.live, by rw [root_nil, treeDispose], List.Perm.refl _⟩
  | node x l r ihl ihr =>
    obtain ⟨hx, hl, hr⟩ := hrep
    rw [inorder_node] at hnd hlive ⊢
    obtain ⟨hndl, hndr, hdisj⟩ := List.nodup_append.mp hnd
    rw [List.nodup_cons] at hndr
    have hxlive : x ∈ H.live := hlive x (List.mem_append_right _ (List.mem_cons_self ..))
    have hxl : x ∉ l.inorder := fun hmem ↦ hdisj x hmem x (List.mem_cons_self ..) rfl
    obtain ⟨live₁, hcode₁, hperm₁⟩ := ihl hl hndl fun p hp ↦ hlive p (List.mem_append_left _ hp)
    have hstay₁ : ∀ p ∈ H.live, p ∉ l.inorder → p ∈ live₁ := fun p hp hpl ↦
      (List.mem_append.mp (hperm₁.mem_iff.mp hp)).resolve_left hpl
    have hrlive : ∀ p ∈ r.inorder, p ∈ live₁ := fun p hp ↦
      hstay₁ p (hlive p (List.mem_append_right _ (List.mem_cons_of_mem _ hp)))
        fun hpl ↦ hdisj p hpl p (List.mem_cons_of_mem _ hp) rfl
    obtain ⟨live₂, hcode₂, hperm₂⟩ := ihr (H := { H with live := live₁ }) hr hndr.2 hrlive
    have hxlive₁ : x ∈ live₁ := hstay₁ x hxlive hxl
    have hxlive₂ : x ∈ live₂ :=
      (List.mem_append.mp (hperm₂.mem_iff.mp hxlive₁)).resolve_left hndr.1
    refine ⟨live₂.erase x, ?_, ?_⟩
    · have htree₁ : ZHeap.tree { H with live := live₁ } x = some (H.avl x) :=
        ZHeap.tree_of_mem hxlive₁
      rw [root_node, treeDispose, ZHeap.tree_of_mem hxlive]
      simp only [Option.bind_eq_bind, Option.bind_some, hx, hcode₁, htree₁, hcode₂]
      exact if_pos hxlive₂
    · calc H.live.Perm (l.inorder ++ live₁) := hperm₁
        List.Perm _ (l.inorder ++ (r.inorder ++ live₂)) := hperm₂.append_left _
        List.Perm _ (l.inorder ++ (r.inorder ++ x :: live₂.erase x)) :=
          ((List.perm_cons_erase hxlive₂).append_left _).append_left _
        List.Perm _ (l.inorder ++ x :: (r.inorder ++ live₂.erase x)) :=
          List.perm_middle.append_left _
        List.Perm _ (l.inorder ++ x :: r.inorder ++ live₂.erase x) := by
          rw [List.append_assoc, List.cons_append]

/-- **`zset_dispose`.** The nodes of the set are freed, and no others. -/
theorem zsetDispose_spec (h : ZSet.Inv H zset t) :
    ∃ live, zsetDispose H zset = some ({ H with live := live }, { zset with hmap := {} }) ∧
      H.live.Perm (t.inorder ++ live) := by
  obtain ⟨live, hcode, hperm⟩ := treeDispose_spec h.rep h.nodup h.live
  refine ⟨live, ?_, hperm⟩
  rw [zsetDispose, h.tree_eq, hcode]
  rfl

end ZSet

/-! ## An entry -/

variable {m : Mem S} {Z N : Multiset Ptr} {key : Bytes} {p z : Ptr}

theorem entryDel_str (hp : p ∈ m.entries) (htype : (m.entry p).type = .str) :
    entryDel m p = deleteEntry m p := by
  rw [entryDel, if_neg (not_not.mpr hp), htype]

theorem entryDel_zset (hp : p ∈ m.entries) (htype : (m.entry p).type = .zset)
    (hz : (m.entry p).zset = some z) (hzm : z ∈ m.zsets) {H' : ZHeap S} {zset' : ZSet}
    (hdispose : zsetDispose m.heap (m.zset z) = some (H', zset')) :
    entryDel m p = deleteEntry { m with
      heap := H'
      zset := Function.update m.zset z zset'
      zsets := m.zsets.erase z } p := by
  rw [entryDel, if_neg (not_not.mpr hp), htype]
  dsimp only
  rw [hz, Option.bind_eq_bind, Option.bind_some, if_neg (not_not.mpr hzm), hdispose,
    Option.bind_eq_bind, Option.bind_some]
  dsimp only
  rw [deleteZSet, if_pos hzm, Option.bind_eq_bind, Option.bind_some]

/-- What the entry owned was not on the books of the database any more. -/
theorem Accounts.release {l : List Ptr} (ha : Accounts m (Z + {z}) (N + (l : Multiset Ptr)))
    {live : List Ptr} (hperm : m.heap.live.Perm (l ++ live))
    (hz : ∀ q ∈ m.ptrs, (m.entry q).zset ≠ some z) (zset : ZSet) :
    Accounts { m with
      heap := { m.heap with live := live }
      zset := Function.update m.zset z zset
      zsets := m.zsets.erase z } Z N := by
  have hmembers : ∀ q ∈ m.ptrs, Mem.members { m with
      heap := { m.heap with live := live }
      zset := Function.update m.zset z zset
      zsets := m.zsets.erase z } q = m.members q := by
    intro q hq
    cases hzq : (m.entry q).zset with
    | none => rw [Mem.members_eq_nil hzq, Mem.members_eq_nil (by exact hzq)]
    | some z' =>
      have hne : z' ≠ z := fun heq ↦ hz q hq (heq ▸ hzq)
      rw [Mem.members_eq hzq, Mem.members_eq (z := z') (by exact hzq)]
      exact congrArg (fun s : ZSet ↦ s.hmap.nodes.map HNode.val) (Function.update_of_ne hne ..)
  constructor
  · exact ha.entries
  · rw [← Multiset.coe_erase, ha.zsets, add_right_comm, add_comm, Multiset.singleton_add,
      Multiset.erase_cons_head]
    rfl
  · have hlive := ha.znodes
    rw [Multiset.coe_eq_coe.mpr hperm, ← Multiset.coe_add, add_right_comm, add_comm] at hlive
    rw [add_right_cancel hlive, Mem.nodes, Mem.nodes]
    exact congrArg (fun l : List Ptr ↦ N + (l : Multiset Ptr))
      (List.flatMap_congr fun q hq ↦ (hmembers q hq).symm)

variable [Score S] {trees : Ptr → BinaryTree Ptr} {K : Keyspace S} {ordered : Prop}

/-- A set that no entry has may be freed with its nodes. -/
theorem Models.release (h : Models ordered m trees K)
    (hz : ∀ q ∈ m.ptrs, (m.entry q).zset ≠ some z) {live : List Ptr}
    (hperm : m.heap.live.Perm ((trees z).inorder ++ live))
    (hapart : ∀ q ∈ m.ptrs, ∀ z', (m.entry q).zset = some z' →
      ∀ x ∈ (trees z').inorder, x ∉ (trees z).inorder) (zset : ZSet) :
    Models ordered { m with
      heap := { m.heap with live := live }
      zset := Function.update m.zset z zset
      zsets := m.zsets.erase z } trees K := by
  have hsub : ∀ x ∈ live, x ∈ m.heap.live := fun x hx ↦
    hperm.mem_iff.mpr (List.mem_append_right _ hx)
  have hstay : ∀ x ∈ m.heap.live, x ∉ (trees z).inorder → x ∈ live := fun x hx hxz ↦
    (List.mem_append.mp (hperm.mem_iff.mp hx)).resolve_left hxz
  exact
    { heap := ⟨(List.nodup_append.mp (hperm.nodup_iff.mp h.heap.nodup)).2.1,
        fun x hx ↦ h.heap.lt_next x (hsub x hx)⟩
      db := h.db
      keys := h.keys
      hcode_eq := h.hcode_eq
      absent := h.absent
      holds := fun q hq ↦ by
        obtain ⟨o, ho, hholds⟩ := h.holds q hq
        refine ⟨o, ho, hholds.congr rfl fun z' hzm hz' ↦ ?_⟩
        have hne : z' ≠ z := fun heq ↦ hz q hq (heq ▸ hz')
        refine ⟨(List.mem_erase_of_ne hne).mpr hzm, rfl, Function.update_of_ne hne .., fun hinv ↦
          ⟨hinv.congr (fun _ _ ↦ rfl) (fun _ _ ↦ rfl) fun x hx ↦ ?_, rfl⟩⟩
        exact hstay x (hinv.live x hx) (hapart q hq z' hz' x hx)
      live := h.live
      entry_lt := h.entry_lt
      zset_lt := fun z' hz' ↦ h.zset_lt z' (List.mem_of_mem_erase hz')
      apart := h.apart
      sorted := fun ho q hq z' hz' ↦ (h.sorted ho q hq z' hz').congr fun _ _ ↦ rfl }

/-- **`entry_del`.** On an entry that is unlinked from the database it has a result, so no object is
read after it is freed or freed twice. Its key is unbound, and nothing is lost. -/
theorem Models.entryDel (h : Models ordered m trees K) (ha : Accounts m Z N) {db : HMap Ptr}
    {n : HNode Ptr} (hpop : hmPop m.db (strHash key) (entryEq m key) = some (db, some n)) :
    ∃ m', RedisOnC.entryDel { m with db := db } n.val = some m' ∧
      Models ordered m' trees (Function.update K key none) ∧ Accounts m' Z N := by
  obtain ⟨db₁, r, hcode, hr⟩ := h.delete key
  obtain ⟨rfl, rfl⟩ := Prod.mk.inj (Option.some_inj.mp (hcode.symm.trans hpop))
  obtain ⟨-, m₁, hdel, h₁⟩ := hr
  obtain ⟨db', _, hcode', -, hr⟩ := hmPop_spec h.db (strHash key) (entryEq m key)
  obtain ⟨rfl, rfl⟩ := Prod.mk.inj (Option.some_inj.mp (hcode'.symm.trans hpop))
  have hptrs : m.ptrs.Perm (n.val :: db'.nodes.map HNode.val) := hr.1.map _
  have hp : n.val ∈ m.ptrs := hptrs.mem_iff.mpr (List.mem_cons_self ..)
  have hnd := hptrs.nodup_iff.mp h.ptrs_nodup
  rw [List.nodup_cons] at hnd
  have hlive : n.val ∈ m.entries := h.live n.val hp
  rw [deleteEntry, if_pos hlive] at hdel
  obtain rfl := Option.some_inj.mp hdel
  have ha₁ : Accounts { m with db := db', entries := m.entries.erase n.val }
      (Z + (m.entry n.val).zset.toList) (N + m.members n.val) :=
    ha.delete hptrs rfl rfl rfl rfl rfl
  obtain ⟨o, -, hholds⟩ := h.holds n.val hp
  cases o with
  | str val =>
    obtain ⟨htype, hz, -⟩ := hholds
    rw [hz, Mem.members_eq_nil hz, Option.toList_none, Multiset.coe_nil, add_zero, add_zero] at ha₁
    refine ⟨_, ?_, h₁, ha₁⟩
    exact (entryDel_str (m := { m with db := db' }) hlive htype).trans (if_pos hlive)
  | zset M =>
    obtain ⟨htype, -, z, hzm, hz, hinv, -⟩ := hholds
    obtain ⟨live, hdispose, hperm⟩ := zsetDispose_spec hinv
    have hother : ∀ q ∈ db'.nodes.map HNode.val, ∀ z', (m.entry q).zset = some z' →
        z' ≠ z ∧ ∀ x ∈ (trees z').inorder, x ∉ (trees z).inorder := fun q hq z' hz' ↦
      h.apart q (hptrs.mem_iff.mpr (List.mem_cons_of_mem _ hq)) n.val hp
        (fun heq ↦ hnd.1 (heq ▸ hq)) z' z hz' hz
    have hnone : ∀ q ∈ db'.nodes.map HNode.val, (m.entry q).zset ≠ some z := fun q hq hzq ↦
      (hother q hq z hzq).1 rfl
    have hmembers : (m.members n.val : Multiset Ptr) = (trees z).inorder := by
      rw [Mem.members_eq hz]
      exact Multiset.coe_eq_coe.mpr hinv.perm
    rw [hz, hmembers, Option.toList_some, Multiset.coe_singleton] at ha₁
    refine ⟨_, ?_, h₁.release hnone hperm (fun q hq z' hz' ↦ (hother q hq z' hz').2)
      { m.zset z with hmap := {} }, ha₁.release hperm hnone { m.zset z with hmap := {} }⟩
    exact (entryDel_zset (m := { m with db := db' }) hlive htype hz hzm hdispose).trans
      (if_pos hlive)

/-- **Releasing a key loses nothing.** After any run from the start of the server, an entry that is
popped from the database can be given to `entry_del`: every object that it frees is live until then
and is read before. The key is gone from the content and all else is as it was; the live objects are
those of the database if they were before; and no command removes an object twice. -/
theorem entry_del_exact (entry : Ptr → Entry) (zset : Ptr → ZSet) (avl : AVLHeap)
    (znode : Ptr → ZNode S) (cmds : List (List Bytes)) (outs : List Bytes)
    (hrun : doRequests (Mem.init entry zset avl znode) cmds = some (m, outs)) {db : HMap Ptr}
    {n : HNode Ptr} (hpop : hmPop m.db (strHash key) (entryEq m key) = some (db, some n)) :
    ∃ m', entryDel { m with db := db } n.val = some m' ∧
      m'.content = Function.update m.content key none ∧ (Owned m' ↔ Owned m) ∧
      NoDoubleRemoval m' := by
  have hinit : Models False (Mem.init entry zset avl znode) (fun _ ↦ nil) fun _ ↦ none :=
    models_init entry zset avl znode
  obtain ⟨Z, N, ha, -, hnone⟩ := (accounts_init entry zset avl znode).after_doRequests hinit hrun
  rw [zero_add, zero_add] at ha
  obtain ⟨trees, h⟩ := hinit.after_doRequests (fun ho ↦ ho.elim) hrun
  obtain ⟨m', hcode, h', ha'⟩ := h.entryDel ha hpop
  refine ⟨m', hcode, ?_, ?_, fun cmd hquery ↦ ?_⟩
  · rw [h'.content_eq, h.content_eq]
  · rw [ha'.owned_iff_eq_zero h' hnone, ha.owned_iff_eq_zero h hnone]
  · obtain ⟨m'', -, out, hcode, -⟩ := Request.exec_spec h' hquery fun ho ↦ ho.elim
    exact ⟨m'', out, by rw [doRequest_eq, hcode]⟩

/-- `zadd k 1 n`, then the entry of `k` is popped and given to `entry_del`. -/
theorem entry_del_exact_zadd : ∃ (m m' : Mem ℤ) (outs : List Bytes) (db : HMap Ptr) (n : HNode Ptr),
    doRequests Mem.empty [[ascii "zadd", ascii "k", ascii "1", ascii "n"]] = some (m, outs) ∧
      hmPop m.db (strHash (ascii "k")) (entryEq m (ascii "k")) = some (db, some n) ∧
      entryDel { m with db := db } n.val = some m' ∧
      m'.content = Function.update m.content (ascii "k") none := by
  obtain ⟨m, trees, out, hzadd, h⟩ := exists_zadd_once
  have hrun := doRequests_singleton hzadd
  obtain ⟨db, r, hpop, hr⟩ := h.delete (ascii "k")
  rcases r with _ | n
  · have hnone := hr.1
    rw [Function.update_self] at hnone
    cases hnone
  · obtain ⟨m', hcode, hcontent, -⟩ := entry_del_exact _ _ _ _ _ _ hrun hpop
    exact ⟨m, m', [out], db, n, hrun, hpop, hcode, hcontent⟩

end RedisOnC
