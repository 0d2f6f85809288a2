import RedisOnC.Zset.Invariant

/-!
# The operations of a sorted set on its map

What `zset_add` and `zset_pop` do to the finite map from names to scores that the nodes of a set
spell out (`zmap`), and to the order of the tree. A score update takes the node out of one index
and puts it back while the other index keeps it; the map sees a single binding change.
-/

open BinaryTree

namespace RedisOnC

variable {S : Type} {H H' : ZHeap S} {zset zset' : ZSet} {t t' : BinaryTree Ptr}
variable {name : Bytes} {l : List Ptr} {p : Ptr}

/-! ## The map of a list of nodes -/

/-- The score bound to a name. -/
def zmap (H : ZHeap S) (l : List Ptr) (name : Bytes) : Option S :=
  (l.find? fun p ↦ (H.znode p).name = name).map fun p ↦ (H.znode p).score

theorem zmap_eq_none_iff : zmap H l name = none ↔ ∀ p ∈ l, (H.znode p).name ≠ name := by
  simp [zmap]

theorem zmap_eq_some (hnd : (l.map fun p ↦ (H.znode p).name).Nodup) (hp : p ∈ l)
    (hname : (H.znode p).name = name) : zmap H l name = some (H.znode p).score := by
  cases hfind : l.find? fun p ↦ (H.znode p).name = name with
  | none =>
    have hno := List.find?_eq_none.mp hfind p hp
    exact absurd hname (by simpa using hno)
  | some q =>
    have hq := List.mem_of_find?_eq_some hfind
    have hname' : (H.znode q).name = name := by simpa using List.find?_some hfind
    rw [zmap, hfind, Option.map_some, List.inj_on_of_nodup_map hnd hq hp (hname'.trans hname.symm)]

theorem zmap_congr (h : ∀ p ∈ l, H'.znode p = H.znode p) : zmap H' l = zmap H l := by
  funext name
  induction l with
  | nil => rfl
  | cons p l ih =>
    have ih := ih fun q hq ↦ h q (List.mem_cons_of_mem _ hq)
    rw [zmap, zmap, List.find?_cons, List.find?_cons, h p (List.mem_cons_self ..)]
    by_cases hp : (H.znode p).name = name
    · simp [hp, h p (List.mem_cons_self ..)]
    · rw [decide_eq_false hp]
      exact ih

theorem exists_of_zmap_eq_some {score : S} (h : zmap H l name = some score) :
    ∃ p ∈ l, (H.znode p).name = name ∧ (H.znode p).score = score := by
  obtain ⟨p, hfind, hscore⟩ := Option.map_eq_some_iff.mp h
  exact ⟨p, List.mem_of_find?_eq_some hfind, by simpa using List.find?_some hfind, hscore⟩

private theorem zmap_eq_update {l' : List Ptr} {v : Option S}
    (hnd : (l.map fun p ↦ (H.znode p).name).Nodup)
    (hnd' : (l'.map fun p ↦ (H'.znode p).name).Nodup)
    (hkeep : ∀ q ∈ l, (H.znode q).name ≠ name → q ∈ l' ∧ H'.znode q = H.znode q)
    (hback : ∀ q ∈ l', (H'.znode q).name ≠ name → q ∈ l ∧ (H.znode q).name = (H'.znode q).name)
    (hv : zmap H' l' name = v) : zmap H' l' = Function.update (zmap H l) name v := by
  funext m
  by_cases hm : m = name
  · subst hm
    rw [Function.update_self, hv]
  rw [Function.update_of_ne hm]
  by_cases hex : ∃ q ∈ l, (H.znode q).name = m
  · obtain ⟨q, hq, rfl⟩ := hex
    obtain ⟨hq', heq⟩ := hkeep q hq hm
    rw [zmap_eq_some hnd hq rfl, zmap_eq_some hnd' hq' (by rw [heq]), heq]
  · have hnone : ∀ q ∈ l, (H.znode q).name ≠ m := fun q hq hqm ↦ hex ⟨q, hq, hqm⟩
    rw [zmap_eq_none_iff.mpr hnone, zmap_eq_none_iff]
    intro q hq hqm
    obtain ⟨hql, heq⟩ := hback q hq fun hqn ↦ hm (hqm.symm.trans hqn)
    exact hnone q hql (heq.trans hqm)

section Order

variable [LinearOrder S] {score : S}

/-! ## Updating a score -/

omit [LinearOrder S] in
private theorem name_of_update (znode : Ptr → ZNode S) (p : Ptr) (score : S) (q : Ptr) :
    (Function.update znode p { znode p with score := score } q).name = (znode q).name := by
  by_cases hq : q = p
  · rw [hq, Function.update_self]
  · rw [Function.update_of_ne hq]

/-- **`zset_update`.** The node is taken out of the tree and put back under its new score. -/
theorem zsetUpdate_spec (hH : H.Inv) (h : ZSet.Inv H zset t) (hp : p ∈ t.inorder) (score : S) :
    ∃ H' t', zsetUpdate H zset p score = some (H', { zset with tree := t'.root }) ∧
      ZSet.Inv H' { zset with tree := t'.root } t' ∧ ZFrame H t H' t' ∧
      t'.inorder.Perm t.inorder ∧
      H'.znode = Function.update H.znode p { H.znode p with score := score } ∧
      (Sorted H t.inorder → Sorted H' t'.inorder) := by
  by_cases hs : (H.znode p).score = score
  · have hself : { H.znode p with score := score } = H.znode p := by rw [← hs]
    have hzset : { zset with tree := t.root } = zset := by rw [← h.tree_eq]
    refine ⟨H, t, by rw [zsetUpdate, if_pos hs, hzset], by rw [hzset]; exact h,
      ⟨hH, fun _ _ _ ↦ rfl, fun _ _ _ ↦ rfl, List.Perm.refl _⟩, List.Perm.refl _, ?_, id⟩
    rw [hself, Function.update_eq_self]
  obtain ⟨avl₁, T, hdel, hrep₁, hperm₁, hsub, hpT, hbal, hout₁⟩ := avlDel_mem h.rep h.nodup hp
  -- the score is written while the node is in no tree
  set znode := Function.update H.znode p { H.znode p with score := score } with hznode
  set avl₂ := avl₁.set p avlInit with havl₂
  have hkeep₂ : ∀ x, x ≠ p → avl₂ x = avl₁ x := fun x hx ↦ AVLHeap.set_of_ne hx
  have hrep₂ : Rep avl₂ none T := hrep₁.congr fun x hx ↦ hkeep₂ x fun heq ↦ hpT (heq ▸ hx)
  have hndT : T.inorder.Nodup := h.nodup.sublist hsub
  set H₂ : ZHeap S := { H with avl := avl₂, znode := znode } with hH₂
  have htree₂ : ({ zset with tree := T.root } : ZSet).tree = T.root := rfl
  obtain ⟨avl', hadd, hrep', hout'⟩ := treeAdd_spec (H := H₂) htree₂ hrep₂ hndT hpT
  set t' := insertAt (fun cur ↦ zlessNode H₂ p cur) p T with ht'
  have hperm' : t'.inorder.Perm t.inorder :=
    (inorder_insertAt_perm _ p T).trans hperm₁.symm
  have hname : ∀ q, (znode q).name = (H.znode q).name := name_of_update H.znode p score
  refine ⟨{ H₂ with avl := avl' }, t', ?_, ⟨rfl, hrep', (hbal h.balanced).insertAt,
    hperm'.nodup_iff.mpr h.nodup, fun q hq ↦ h.live q (hperm'.mem_iff.mp hq), h.hmap,
    h.perm.trans hperm'.symm, fun n hn ↦ ?_, ?_⟩, ⟨⟨hH.nodup, hH.lt_next⟩, fun x _ hx ↦ ?_,
    fun x _ hx ↦ ?_, ?_⟩, hperm', rfl, fun hsorted ↦ ?_⟩
  · rw [zsetUpdate, if_neg hs, hdel]
    simp only [Option.bind_eq_bind, Option.bind_some]
    exact hadd
  · exact (h.hcode_eq n hn).trans (congrArg strHash (hname n.val).symm)
  · refine ((hperm'.map _).nodup_iff.mpr ?_)
    rw [List.map_congr_left fun q _ ↦ hname q]
    exact h.names
  · have hxp : x ≠ p := fun heq ↦ hx (heq ▸ hp)
    exact (hout' x hxp fun hxT ↦ hx (hsub.subset hxT)).trans ((hkeep₂ x hxp).trans (hout₁ x hx))
  · exact Function.update_of_ne (show x ≠ p from fun heq ↦ hx (heq ▸ hp)) ..
  · exact hperm'.symm.append_left _
  · have hsortedT : Sorted H₂ T.inorder := (hsorted.sublist hsub).congr fun q hq ↦
      Function.update_of_ne (show q ≠ p from fun heq ↦ hpT (heq ▸ hq)) ..
    have hnames := ((hperm₁.map fun q ↦ (H.znode q).name).nodup_iff.mp h.names)
    rw [List.map_cons, List.nodup_cons, List.mem_map] at hnames
    refine (hsortedT.insertAt ?_ fun q hq heq ↦ hnames.1 ⟨q, hq, ?_⟩).congr fun _ _ ↦ rfl
    · exact (hname p).symm ▸ hsorted.short p hp
    · exact (hname q).symm.trans (heq.trans (hname p))

/-! ## Adding a tuple -/

private theorem zsetAdd_new (hH : H.Inv) (h : ZSet.Inv H zset t)
    (hno : ∀ p ∈ t.inorder, (H.znode p).name ≠ name) (score : S) :
    ∃ hmap H' zset' t',
      hmInsert zset.hmap ⟨((znodeNew H name score).1.znode H.next).hcode, H.next⟩ = some hmap ∧
      treeAdd (znodeNew H name score).1 { zset with hmap := hmap } H.next = some (H', zset') ∧
      ZSet.Inv H' zset' t' ∧ ZFrame H t H' t' ∧
      t'.inorder.Perm (H.next :: t.inorder) ∧
      H'.znode = Function.update H.znode H.next ⟨strHash name, score, name⟩ ∧
      (Sorted H t.inorder → name.length < u32Size → Sorted H' t'.inorder) := by
  set p := H.next
  set H₁ := (znodeNew H name score).1 with hH₁
  -- the address is new to the tree, so the tree keeps its shape
  have hfresh : p ∉ H.live := hH.next_notMem
  have hnt : p ∉ t.inorder := fun hmem ↦ hfresh (h.live p hmem)
  have hznode : ∀ q, q ≠ p → H₁.znode q = H.znode q := fun q hq ↦ Function.update_of_ne hq ..
  have hself : H₁.znode p = ⟨strHash name, score, name⟩ := Function.update_self ..
  have havl : ∀ q, q ≠ p → H₁.avl q = H.avl q := fun q hq ↦ AVLHeap.set_of_ne hq
  have hne : ∀ q ∈ t.inorder, q ≠ p := fun q hq heq ↦ hnt (heq ▸ hq)
  have hrep₁ : Rep H₁.avl none t := h.rep.congr fun q hq ↦ havl q (hne q hq)
  obtain ⟨hmap, hins, hinv, hpermM⟩ := hmInsert_spec h.hmap ⟨(H₁.znode p).hcode, p⟩
  have htree₁ : ({ zset with hmap := hmap } : ZSet).tree = t.root := h.tree_eq
  obtain ⟨avl', hadd, hrep', hout'⟩ := treeAdd_spec (H := H₁) htree₁ hrep₁ h.nodup hnt
  set t' := insertAt (fun cur ↦ zlessNode H₁ p cur) p t with ht'
  have hperm' : t'.inorder.Perm (p :: t.inorder) := inorder_insertAt_perm _ p t
  have hnames : (t.inorder.map fun q ↦ (H₁.znode q).name).Nodup := by
    rw [List.map_congr_left fun q hq ↦ by rw [hznode q (hne q hq)]]
    exact h.names
  have hpname : ∀ q ∈ t.inorder, (H₁.znode q).name ≠ (H₁.znode p).name := fun q hq ↦ by
    rw [hznode q (hne q hq), hself]
    exact hno q hq
  refine ⟨hmap, { H₁ with avl := avl' }, { tree := t'.root, hmap := hmap }, t', hins, hadd,
    ⟨rfl, hrep', h.balanced.insertAt, hperm'.nodup_iff.mpr (List.nodup_cons.mpr ⟨hnt, h.nodup⟩),
      fun q hq ↦ ?_, hinv, ?_, fun n hn ↦ ?_, ?_⟩,
    ⟨⟨List.nodup_cons.mpr ⟨hfresh, hH.nodup⟩, fun q hq ↦ ?_⟩, fun x hx hxt ↦ ?_, fun x hx _ ↦ ?_,
      ?_⟩, hperm', rfl, fun hsorted hshort ↦ ?_⟩
  · rcases List.mem_cons.mp (hperm'.mem_iff.mp hq) with rfl | hq
    · exact List.mem_cons_self ..
    · exact List.mem_cons_of_mem _ (h.live q hq)
  · refine ((hpermM.map HNode.val).trans ?_).trans hperm'.symm
    rw [List.map_cons]
    exact h.perm.cons p
  · rcases List.mem_cons.mp (hpermM.mem_iff.mp hn) with rfl | hn
    · change (H₁.znode p).hcode = strHash (H₁.znode p).name
      rw [hself]
    · have hmem := h.perm.mem_iff.mp (List.mem_map_of_mem hn)
      exact (h.hcode_eq n hn).trans (by rw [← hznode _ (hne _ hmem)])
  · refine (hperm'.map _).nodup_iff.mpr ?_
    rw [List.map_cons, List.nodup_cons, List.mem_map]
    exact ⟨fun ⟨q, hq, heq⟩ ↦ hpname q hq heq, hnames⟩
  · change q < p + 1
    rcases List.mem_cons.mp hq with rfl | hq
    · exact Nat.lt_succ_self _
    · exact (hH.lt_next q hq).trans (Nat.lt_succ_self _)
  · have hxn : x ≠ p := fun heq ↦ hfresh (heq ▸ hx)
    exact (hout' x hxn hxt).trans (havl x hxn)
  · exact hznode x fun heq ↦ hfresh (heq ▸ hx)
  · change ((p :: H.live) ++ t.inorder).Perm (H.live ++ t'.inorder)
    exact List.perm_middle.symm.trans (hperm'.symm.append_left _)
  · have hsorted₁ : Sorted H₁ t.inorder := hsorted.congr fun q hq ↦ hznode q (hne q hq)
    exact (hsorted₁.insertAt (by rw [hself]; exact hshort) hpname).congr fun _ _ ↦ rfl

/-- **`zset_add`.** It answers whether the name is new, and binds it to the score. -/
theorem zsetAdd_spec (hH : H.Inv) (h : ZSet.Inv H zset t) (name : Bytes) (score : S) :
    ∃ H' zset' t', zsetAdd H zset name score
        = some (H', zset', (zmap H t.inorder name).isNone) ∧
      ZSet.Inv H' zset' t' ∧ ZFrame H t H' t' ∧
      zmap H' t'.inorder = Function.update (zmap H t.inorder) name (some score) ∧
      (Sorted H t.inorder → name.length < u32Size → Sorted H' t'.inorder) := by
  obtain ⟨hmap, r, hlook, hinv, hr⟩ := zsetLookup_spec h name
  rcases r with _ | p
  · -- a new name: one node more
    obtain ⟨hmap', H', zset', t', hins, hadd, hinv', hframe, hperm, hznode, hsorted⟩ :=
      zsetAdd_new hH hinv hr score
    have hnone : zmap H t.inorder name = none := zmap_eq_none_iff.mpr hr
    have hnode : H'.znode H.next = ⟨strHash name, score, name⟩ := by
      rw [hznode, Function.update_self]
    refine ⟨H', zset', t', ?_, hinv', hframe, ?_, hsorted⟩
    · rw [zsetAdd, hlook, hnone]
      simp only [Option.bind_eq_bind, Option.bind_some]
      rw [show (znodeNew H name score).2 = H.next from rfl, hins, Option.bind_some, hadd]
      rfl
    · refine zmap_eq_update h.names hinv'.names (fun q hq hne ↦ ?_) (fun q hq hne ↦ ?_) ?_
      · have hqn : q ≠ H.next := fun heq ↦ hH.next_notMem (heq ▸ h.live q hq)
        exact ⟨hperm.mem_iff.mpr (List.mem_cons_of_mem _ hq),
          by rw [hznode, Function.update_of_ne hqn]⟩
      · have hqn : q ≠ H.next := fun heq ↦ hne (by rw [heq, hnode])
        exact ⟨(List.mem_cons.mp (hperm.mem_iff.mp hq)).resolve_left hqn,
          by rw [hznode, Function.update_of_ne hqn]⟩
      · rw [zmap_eq_some hinv'.names (hperm.mem_iff.mpr (List.mem_cons_self ..)) (by rw [hnode]),
          hnode]
  · -- a known name: the same nodes, one with another score
    obtain ⟨hp, hname⟩ := hr
    have hsome : zmap H t.inorder name = some (H.znode p).score := zmap_eq_some h.names hp hname
    obtain ⟨H', t', hupd, hinv', hframe, hperm, hznode, hsorted⟩ :=
      zsetUpdate_spec hH hinv hp score
    have hname' : ∀ q, (H'.znode q).name = (H.znode q).name := fun q ↦ by
      rw [hznode, name_of_update]
    refine ⟨H', _, t', ?_, hinv', hframe, ?_, fun hs _ ↦ hsorted hs⟩
    · rw [zsetAdd, hlook, hsome]
      simp only [Option.bind_eq_bind, Option.bind_some, hupd]
      rfl
    · refine zmap_eq_update h.names hinv'.names (fun q hq hne ↦ ?_) (fun q hq _ ↦ ?_) ?_
      · have hqp : q ≠ p := fun heq ↦ hne (heq ▸ hname)
        exact ⟨hperm.mem_iff.mpr hq, by rw [hznode, Function.update_of_ne hqp]⟩
      · exact ⟨hperm.mem_iff.mp hq, (hname' q).symm⟩
      · rw [zmap_eq_some hinv'.names (hperm.mem_iff.mpr hp) ((hname' p).trans hname), hznode,
          Function.update_self]

/-! ## Removing by name -/

/-- What `zset_pop` makes of a set, by the node it returns. -/
structure Popped (H : ZHeap S) (t : BinaryTree Ptr) (name : Bytes) (p : Ptr) (H' : ZHeap S)
    (t' : BinaryTree Ptr) : Prop where
  mem : p ∈ t.inorder
  name_eq : (H.znode p).name = name
  perm : t.inorder.Perm (p :: t'.inorder)
  sublist : t'.inorder.Sublist t.inorder
  znode : H'.znode = H.znode
  live : H'.live = H.live
  next : H'.next = H.next
  avl : ∀ q ∉ t.inorder, H'.avl q = H.avl q

omit [LinearOrder S] in
/-- **`zset_pop`.** The node with the name leaves both indexes, if there is one. -/
theorem zsetPop_spec (h : ZSet.Inv H zset t) (name : Bytes) :
    ∃ H' zset' t' r, zsetPop H zset name = some (H', zset', r) ∧ ZSet.Inv H' zset' t' ∧
      match r with
      | none => H' = H ∧ zset'.tree = zset.tree ∧ t' = t ∧ ∀ p ∈ t.inorder, (H.znode p).name ≠ name
      | some p => Popped H t name p H' t' := by
  by_cases htree : zset.tree.isNone
  · have hnil : t = nil := root_eq_none (h.tree_eq ▸ Option.isNone_iff_eq_none.mp htree)
    exact ⟨H, zset, t, none, by rw [zsetPop, if_pos htree], h, rfl, rfl, rfl, by simp [hnil]⟩
  obtain ⟨hmap, r, hcode, hinv, hr⟩ := hmPop_spec h.hmap (strHash name) (hcmp H name)
  rcases r with _ | n
  · refine ⟨H, { zset with hmap := hmap }, t, none, ?_, h.with_hmap hinv hr.1, rfl, rfl, rfl,
      fun p hp hname ↦ ?_⟩
    · rw [zsetPop, if_neg htree, hcode]
      rfl
    · obtain ⟨n, hn, rfl⟩ := h.exists_hnode hp
      exact hr.2 n hn ((h.matches_iff hn).mpr hname)
  · have hn : n ∈ zset.hmap.nodes := hr.1.mem_iff.mpr (List.mem_cons_self ..)
    have hp : n.val ∈ t.inorder := h.perm.mem_iff.mp (List.mem_map_of_mem hn)
    obtain ⟨avl', T, hdel, hrep', hperm, hsub, -, hbal, hout⟩ := avlDel_mem h.rep h.nodup hp
    refine ⟨{ H with avl := avl' }, { tree := T.root, hmap := hmap }, T, some n.val, ?_,
      ⟨rfl, hrep', hbal h.balanced, h.nodup.sublist hsub, fun q hq ↦ h.live q (hsub.subset hq),
        hinv, ?_, fun m hm ↦ h.hcode_eq m (hr.1.mem_iff.mpr (List.mem_cons_of_mem _ hm)),
        h.names.sublist (hsub.map _)⟩,
      ⟨hp, (h.matches_iff hn).mp hr.2, hperm, hsub, rfl, rfl, rfl, hout⟩⟩
    · rw [zsetPop, if_neg htree, hcode]
      simp only [Option.bind_eq_bind, Option.bind_some, hdel]
    · have hmapped := (hr.1.map HNode.val).symm.trans (h.perm.trans hperm)
      rw [List.map_cons] at hmapped
      exact hmapped.cons_inv

omit [LinearOrder S] in
theorem Popped.zmap_eq (h : Popped H t name p H' t')
    (hnames : (t.inorder.map fun p ↦ (H.znode p).name).Nodup) :
    zmap H t.inorder name = some (H.znode p).score ∧
      zmap H' t'.inorder = Function.update (zmap H t.inorder) name none := by
  have hnames' : (t'.inorder.map fun p ↦ (H'.znode p).name).Nodup := by
    rw [h.znode]
    exact hnames.sublist (h.sublist.map _)
  refine ⟨zmap_eq_some hnames h.mem h.name_eq, zmap_eq_update hnames hnames' (fun q hq hne ↦ ?_)
    (fun q hq _ ↦ ⟨h.sublist.subset hq, by rw [h.znode]⟩) ?_⟩
  · have hqp : q ≠ p := fun heq ↦ hne (heq ▸ h.name_eq)
    exact ⟨(List.mem_cons.mp (h.perm.mem_iff.mp hq)).resolve_left hqp, by rw [h.znode]⟩
  · have hnd := (h.perm.map fun q ↦ (H.znode q).name).nodup_iff.mp hnames
    rw [List.map_cons, List.nodup_cons, List.mem_map, h.name_eq] at hnd
    refine zmap_eq_none_iff.mpr fun q hq hqn ↦ hnd.1 ⟨q, hq, ?_⟩
    rw [← hqn, h.znode]

theorem Popped.sorted (h : Popped H t name p H' t') (hs : Sorted H t.inorder) :
    Sorted H' t'.inorder :=
  (hs.sublist h.sublist).congr fun q _ ↦ by rw [h.znode]

omit [LinearOrder S] in
/-- **`znode_del` of a popped node.** The node is freed; the rest of the heap is as the pop left
it. -/
theorem Popped.free (h : Popped H t name p H' t') (hH : H.Inv) (hinv : ZSet.Inv H zset t)
    (hinv' : ZSet.Inv H' zset' t') : ∃ H'', znodeDel H' p = some H'' ∧ ZSet.Inv H'' zset' t' ∧
      ZFrame H t H'' t' ∧ H''.znode = H.znode := by
  have hlive : p ∈ H.live := hinv.live p h.mem
  have hnd := h.perm.nodup_iff.mp hinv.nodup
  rw [List.nodup_cons] at hnd
  refine ⟨{ H' with live := H'.live.erase p }, if_pos (h.live ▸ hlive), ?_, ⟨⟨?_, fun q hq ↦ ?_⟩,
    fun q _ hq ↦ h.avl q hq, fun q _ _ ↦ congrFun h.znode q, ?_⟩, h.znode⟩
  · refine hinv'.congr (fun _ _ ↦ rfl) (fun _ _ ↦ rfl) fun q hq ↦ ?_
    have hqp : q ≠ p := fun heq ↦ hnd.1 (heq ▸ hq)
    exact (List.mem_erase_of_ne hqp).mpr (hinv'.live q hq)
  · exact (h.live ▸ hH.nodup).erase p
  · exact h.next ▸ hH.lt_next q (h.live ▸ List.mem_of_mem_erase hq)
  · change (H'.live.erase p ++ t.inorder).Perm (H.live ++ t'.inorder)
    rw [h.live]
    calc (H.live.erase p ++ t.inorder).Perm (H.live.erase p ++ p :: t'.inorder) :=
          h.perm.append_left _
      List.Perm _ (p :: (H.live.erase p ++ t'.inorder)) := List.perm_middle
      List.Perm _ (H.live ++ t'.inorder) :=
          (List.perm_cons_erase hlive).symm.append_right t'.inorder

end Order

end RedisOnC
