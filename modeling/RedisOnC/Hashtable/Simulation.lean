import RedisOnC.Hashtable.Linked
import RedisOnC.Hashtable.Refine
import RedisOnC.Lib.Chain

/-!
# The pointers of the hash map

The functions on memory do what the functions on lists do: a chain is the list of the nodes that the
pointers lead through, and the address of the pointer to a node stands for its place in the chain.
The invariant is that the nodes of both tables have different addresses, so that writing the `next`
of one of them leaves all other chains alone. Each function has a lemma that says what it returns in
memory when the one on lists returns, and which nodes it has written (`Relinked`).
-/

namespace RedisOnC

namespace Linked

variable {β κ : Type} {H H' : HHeap β} {n : RedisOnC.HNode (Ptr × β)} {q : Option Ptr}

/-- The address of a node of the lists. -/
def addr (n : RedisOnC.HNode (Ptr × β)) : Ptr := n.val.1

/-- The node is in memory, with the pointer to the node behind it. -/
def Stored (H : HHeap β) (n : RedisOnC.HNode (Ptr × β)) (q : Option Ptr) : Prop :=
  H (addr n) = some ⟨q, n.hcode, n.val.2⟩

theorem Stored.congr (h : Stored H n q) (heq : H' (addr n) = H (addr n)) : Stored H' n q :=
  heq.trans h

/-! ## What an operation writes -/

/-- Nodes at these addresses may have got another `next`; nothing else has changed. -/
structure Relinked (H H' : HHeap β) (l : List Ptr) : Prop where
  other : ∀ a ∉ l, H' a = H a
  cell : ∀ a c, H a = some c → ∃ q, H' a = some { c with next := q }

namespace Relinked

variable {l l' : List Ptr} {a : Ptr} {c : HNode β}

theorem refl (H : HHeap β) (l : List Ptr) : Relinked H H l :=
  ⟨fun _ _ ↦ rfl, fun _ c hc ↦ ⟨c.next, hc⟩⟩

theorem mono (h : Relinked H H' l) (hl : ∀ a ∈ l, a ∈ l') : Relinked H H' l' :=
  ⟨fun a ha ↦ h.other a fun hmem ↦ ha (hl a hmem), h.cell⟩

theorem trans {H'' : HHeap β} (h : Relinked H H' l) (h' : Relinked H' H'' l) :
    Relinked H H'' l where
  other a ha := (h'.other a ha).trans (h.other a ha)
  cell a c hc := by
    obtain ⟨q, hq⟩ := h.cell a c hc
    obtain ⟨q', hq'⟩ := h'.cell a _ hq
    exact ⟨q', hq'⟩

theorem update (hc : H a = some c) (q : Option Ptr) :
    Relinked H (Function.update H a (some { c with next := q })) [a] where
  other b hb := Function.update_of_ne (fun heq ↦ hb (List.mem_singleton.mpr heq)) ..
  cell b d hd := by
    by_cases hba : b = a
    · subst hba
      obtain rfl := Option.some_inj.mp (hc.symm.trans hd)
      exact ⟨q, Function.update_self ..⟩
    · exact ⟨d.next, (Function.update_of_ne hba ..).trans hd⟩

theorem stored (h : Relinked H H' l) (hn : Stored H n q) : ∃ q', Stored H' n q' := h.cell _ _ hn

end Relinked

/-! ## One table -/

/-- The table in memory, and the table of lists. -/
structure HTab.Sim (H : HHeap β) (t : HTab) (u : RedisOnC.HTab (Ptr × β)) : Prop where
  mask : t.mask = u.mask
  size : t.size = u.size
  tab : (t.tab = none ∧ u.tab = none) ∨ ∃ heads, t.tab = some heads ∧ u.tab = some u.slots ∧
    LinkedTable addr (Stored H) heads u.slots

variable {t : HTab} {u u' : RedisOnC.HTab (Ptr × β)}

theorem HTab.sim_empty : HTab.Sim H {} {} := ⟨rfl, rfl, Or.inl ⟨rfl, rfl⟩⟩

theorem HTab.Sim.congr (h : t.Sim H u) (hkeep : ∀ n ∈ u.nodes, H' (addr n) = H (addr n)) :
    t.Sim H' u := by
  refine ⟨h.mask, h.size, h.tab.imp_right ?_⟩
  rintro ⟨heads, ht, hu, htable⟩
  exact ⟨heads, ht, hu, htable.congr fun n hn q hq ↦ hq.congr (hkeep n hn)⟩

theorem HTab.Sim.of_tab (h : t.Sim H u) {slots : List (List (RedisOnC.HNode (Ptr × β)))}
    (hu : u.tab = some slots) : u.slots = slots ∧ ∃ heads, t.tab = some heads ∧
      LinkedTable addr (Stored H) heads slots := by
  have hslots : u.slots = slots := by rw [HTab.slots, hu, Option.getD_some]
  rcases h.tab with ⟨-, hnone⟩ | ⟨heads, ht, -, htable⟩
  · exact (Option.some_ne_none _ (hu.symm.trans hnone)).elim
  · exact ⟨hslots, heads, ht, hslots ▸ htable⟩

theorem HTab.Sim.isSome_tab (h : t.Sim H u) : t.tab.isSome = u.tab.isSome := by
  rcases h.tab with ⟨ht, hu⟩ | ⟨heads, ht, hu, -⟩ <;> rw [ht, hu] <;> rfl

theorem HTab.Sim.isNone_tab (h : t.Sim H u) : t.tab.isNone = u.tab.isNone := by
  rcases h.tab with ⟨ht, hu⟩ | ⟨heads, ht, hu, -⟩ <;> rw [ht, hu] <;> rfl

theorem hInit_sim {k : ℕ} (hexec : RedisOnC.hInit k = some u) :
    ∃ t, hInit k = some t ∧ t.Sim H u := by
  rw [RedisOnC.hInit] at hexec
  split at hexec
  · next hk =>
    obtain rfl := Option.some_inj.mp hexec
    exact ⟨_, if_pos hk, rfl, rfl, Or.inr ⟨_, rfl, rfl, LinkedTable.replicate k⟩⟩
  · exact (Option.some_ne_none _ hexec.symm).elim

theorem perm_of_hInsert (hexec : RedisOnC.hInsert u n = some u') :
    u'.nodes.Perm (n :: u.nodes) := by
  simp only [RedisOnC.hInsert, Option.bind_eq_bind, Option.bind_eq_some_iff] at hexec
  obtain ⟨slots, htab, next, hnext, heq⟩ := hexec
  obtain rfl := Option.some_inj.mp heq
  have hset := List.flatten_set_perm hnext (n :: next)
  refine (List.perm_append_right_iff next).mp (hset.trans ?_)
  rw [HTab.nodes, HTab.slots, htab, Option.getD_some, List.cons_append]
  exact List.perm_middle

theorem perm_of_hDetach {place : ChainPos} (hexec : RedisOnC.hDetach u place = some (u', n)) :
    u.nodes.Perm (n :: u'.nodes) := by
  simp only [RedisOnC.hDetach, Option.bind_eq_bind, Option.bind_eq_some_iff] at hexec
  obtain ⟨slots, htab, chain, hchain, n', hn, heq⟩ := hexec
  obtain ⟨rfl, rfl⟩ := Prod.mk.inj (Option.some_inj.mp heq)
  have hset := List.flatten_set_perm hchain (chain.eraseIdx place.2)
  rw [HTab.nodes, HTab.slots, htab, Option.getD_some]
  refine (List.perm_append_right_iff (chain.eraseIdx place.2)).mp (hset.symm.trans ?_)
  rw [List.cons_append]
  exact ((List.perm_cons_eraseIdx hn).append_left _).trans List.perm_middle

/-- **`h_insert`.** A node that is not in the table becomes the first of its chain. -/
theorem hInsert_sim (h : t.Sim H u) (hexec : RedisOnC.hInsert u n = some u') (hn : Stored H n q)
    (hout : ∀ n' ∈ u.nodes, addr n' ≠ addr n) :
    ∃ H' t', hInsert H t (addr n) = some (H', t') ∧ t'.Sim H' u' ∧ Relinked H H' [addr n] := by
  simp only [RedisOnC.hInsert, Option.bind_eq_bind, Option.bind_eq_some_iff] at hexec
  obtain ⟨slots, htab, next, hnext, heq⟩ := hexec
  obtain rfl := Option.some_inj.mp heq
  obtain ⟨hslots, heads, ht, htable⟩ := h.of_tab htab
  obtain ⟨p, hp, hchain⟩ := htable.exists_head hnext
  rw [← h.mask] at hp hnext ⊢
  set H' := Function.update H (addr n) (some ⟨p, n.hcode, n.val.2⟩) with hH'
  have hkeep : ∀ n' ∈ slots.flatten, ∀ q, Stored H n' q → Stored H' n' q := fun n' hn' q hq ↦
    hq.congr (Function.update_of_ne (hout n' (by rw [HTab.nodes, hslots]; exact hn')) ..)
  refine ⟨H', { t with
      tab := some (heads.set (n.hcode &&& t.mask) (some (addr n))), size := t.size + 1 }, ?_,
    ⟨rfl, congrArg (· + 1) h.size, Or.inr ⟨_, rfl, rfl, htable.set ⟨rfl, p, ?_, ?_⟩ ?_⟩⟩,
    Relinked.update hn p⟩
  · rw [hInsert, hn, Option.bind_eq_bind, Option.bind_some, ht, Option.bind_eq_bind,
      Option.bind_some, hp]
    rfl
  · exact Function.update_self ..
  · exact hchain.congr fun n' hn' ↦
      hkeep n' (List.mem_flatten.mpr ⟨next, List.mem_of_getElem? hnext, hn'⟩)
  · exact fun j c _ hc n' hn' ↦
      hkeep n' (List.mem_flatten.mpr ⟨c, List.mem_of_getElem? hc, hn'⟩)

/-! ## Places -/

/-- The address of the pointer to the node at a place of a chain, `first` being that of the pointer
to the first one. -/
def fromOf (first : From) (chain : List (RedisOnC.HNode (Ptr × β))) : ℕ → Option From
  | 0 => some first
  | i + 1 => chain[i]?.map fun n ↦ .next (addr n)

/-- The search along a chain ends at the place that `findIdx?` finds. -/
theorem hLookup_search {hcode : ℕ} {eq : β → Bool} {chain : List (RedisOnC.HNode (Ptr × β))}
    {p : Option Ptr} {first : From} (h : LinkedChain addr (Stored H) p chain) :
    whileLoop (hLookupStep H hcode eq) (first, p)
      = some ((chain.findIdx? fun cur ↦ cur.hcode == hcode && eq cur.val.2).bind
          (fromOf first chain)) := by
  induction chain generalizing p first with
  | nil =>
    obtain rfl := h
    exact WhileLoop.of_exit rfl
  | cons n chain ih =>
    obtain ⟨rfl, q, hn, hq⟩ := h
    have hstep : hLookupStep H hcode eq (first, some (addr n))
        = if n.hcode = hcode ∧ eq n.val.2 = true then some (.inr (some first))
          else some (.inl (.next (addr n), q)) := by
      rw [hLookupStep, hn, Option.bind_eq_bind, Option.bind_some]
    by_cases hmatch : n.hcode = hcode ∧ eq n.val.2 = true
    · rw [if_pos hmatch] at hstep
      rw [WhileLoop.of_exit hstep, List.findIdx?_cons, if_pos (by simpa using hmatch)]
      rfl
    · rw [if_neg hmatch] at hstep
      rw [WhileLoop.of_continue hstep, ih hq, List.findIdx?_cons, if_neg (by simpa using hmatch),
        Option.bind_map]
      -- behind the node, each pointer is one place further on
      refine congrArg some (Option.bind_congr fun i _ ↦ ?_)
      rcases i with _ | i <;> rfl

/-- `from_` is the address of the pointer to the node at this place. -/
def IsFrom (u : RedisOnC.HTab (Ptr × β)) (place : ChainPos) (from_ : From) : Prop :=
  ∃ chain, u.slots[place.1]? = some chain ∧ fromOf (.slot place.1) chain place.2 = some from_

theorem hLookup_sim (h : t.Sim H u) {hcode : ℕ} {eq : β → Bool} {r : Option ChainPos}
    (hexec : RedisOnC.hLookup u hcode (fun a ↦ eq a.2) = some r) :
    (r = none ∧ hLookup H t hcode eq = some none) ∨ ∃ place from_, r = some place ∧
      hLookup H t hcode eq = some (some from_) ∧ IsFrom u place from_ := by
  rcases hu : u.tab with _ | slots
  · rw [RedisOnC.hLookup, hu] at hexec
    rcases h.tab with ⟨ht, -⟩ | ⟨_, -, hsome, -⟩
    · exact Or.inl ⟨(Option.some_inj.mp hexec).symm, by rw [hLookup, ht]⟩
    · exact (Option.some_ne_none _ (hsome.symm.trans hu)).elim
  · obtain ⟨hslots, heads, ht, htable⟩ := h.of_tab hu
    simp only [RedisOnC.hLookup, hu, Option.bind_eq_bind, Option.bind_eq_some_iff] at hexec
    obtain ⟨chain, hchain, heq⟩ := hexec
    obtain rfl := Option.some_inj.mp heq
    obtain ⟨p, hp, hlinks⟩ := htable.exists_head hchain
    have hcode' : hLookup H t hcode eq = some
        ((chain.findIdx? fun cur ↦ cur.hcode == hcode && eq cur.val.2).bind
          (fromOf (.slot (hcode &&& u.mask)) chain)) := by
      rw [hLookup, ht]
      dsimp only
      rw [h.mask, hp, Option.bind_eq_bind, Option.bind_some, hLookup_search hlinks]
    cases hfind : chain.findIdx? fun cur ↦ cur.hcode == hcode && eq cur.val.2 with
    | none => exact Or.inl ⟨rfl, by rw [hcode', hfind]; rfl⟩
    | some i =>
      obtain ⟨hi, -⟩ := List.findIdx?_eq_some_iff_getElem.mp hfind
      have hfrom : ∃ from_, fromOf (.slot (hcode &&& u.mask)) chain i = some from_ := by
        rcases i with _ | i
        · exact ⟨_, rfl⟩
        · exact ⟨_, by rw [fromOf, List.getElem?_eq_getElem (Nat.lt_of_succ_lt hi)]; rfl⟩
      obtain ⟨from_, hfrom⟩ := hfrom
      refine Or.inr ⟨(hcode &&& u.mask, i), from_, rfl, ?_, chain, ?_, hfrom⟩
      · rw [hcode', hfind, Option.bind_some, hfrom]
      · rw [hslots, hchain]

theorem split_at {α : Type} {l : List α} {k : ℕ} {a b : α} (ha : l[k]? = some a)
    (hb : l[k + 1]? = some b) : l = l.take k ++ a :: b :: l.drop (k + 2) ∧
      l.eraseIdx (k + 1) = l.take k ++ a :: l.drop (k + 2) := by
  obtain ⟨hka, rfl⟩ := List.getElem?_eq_some_iff.mp ha
  obtain ⟨hkb, rfl⟩ := List.getElem?_eq_some_iff.mp hb
  constructor
  · rw [← List.drop_eq_getElem_cons hkb, ← List.drop_eq_getElem_cons hka, List.take_append_drop]
  · rw [List.eraseIdx_eq_take_drop_succ, List.take_succ_eq_append_getElem hka, List.append_assoc,
      List.singleton_append]

theorem load_sim (h : t.Sim H u) {place : ChainPos} {from_ : From} (hfrom : IsFrom u place from_)
    (hload : RedisOnC.hLoad u place = some n) : load H t from_ = some (some (addr n)) := by
  obtain ⟨pos, i⟩ := place
  simp only [RedisOnC.hLoad, Option.bind_eq_bind, Option.bind_eq_some_iff] at hload
  obtain ⟨slots, hu, chain, hchain, hn⟩ := hload
  obtain ⟨hslots, heads, ht, htable⟩ := h.of_tab hu
  obtain ⟨chain', hchain', hfrom⟩ := hfrom
  obtain rfl := Option.some_inj.mp (hchain'.symm.trans (hslots ▸ hchain))
  obtain ⟨p, hp, hlinks⟩ := htable.exists_head hchain
  rcases i with _ | i
  · obtain rfl := Option.some_inj.mp hfrom
    rcases chain' with _ | ⟨n', rest⟩
    · exact (Option.some_ne_none _ hn.symm).elim
    · obtain rfl := Option.some_inj.mp hn
      rw [load, ht, Option.bind_eq_bind, Option.bind_some, hp, hlinks.1]
  · obtain ⟨a, ha, rfl⟩ := Option.map_eq_some_iff.mp hfrom
    rw [(split_at ha hn).1] at hlinks
    have hbefore : H (addr a) = _ := hlinks.stored_before
    rw [load, hbefore]
    rfl

theorem HTab.Sim.exists_stored (h : t.Sim H u) (hn : n ∈ u.nodes) : ∃ q, Stored H n q := by
  rcases hu : u.tab with _ | slots
  · rw [HTab.nodes, HTab.slots, hu] at hn
    exact absurd hn List.not_mem_nil
  · obtain ⟨hslots, heads, -, htable⟩ := h.of_tab hu
    rw [HTab.nodes, hslots] at hn
    obtain ⟨chain, hchain, hnc⟩ := List.mem_flatten.mp hn
    obtain ⟨i, hi⟩ := List.mem_iff_getElem?.mp hchain
    obtain ⟨p, -, hlinks⟩ := htable.exists_head hi
    exact hlinks.exists_stored n hnc

variable {slots : List (List (RedisOnC.HNode (Ptr × β)))} {pos : ℕ}

/-- `h_detach` of the first node of a chain writes the slot. -/
theorem hDetach_slot (h : t.Sim H u) (hu : u.tab = some slots)
    {rest : List (RedisOnC.HNode (Ptr × β))} (hchain : slots[pos]? = some (n :: rest)) :
    ∃ t', hDetach H t (.slot pos) = some (H, t', addr n) ∧
      t'.Sim H { u with tab := some (slots.set pos rest), size := u.size - 1 } := by
  obtain ⟨hslots, heads, ht, htable⟩ := h.of_tab hu
  obtain ⟨p, hp, rfl, q, hq, hrest⟩ := htable.exists_head hchain
  have hlt : pos < heads.length := (List.getElem?_eq_some_iff.mp hp).1
  refine ⟨{ t with tab := some (heads.set pos q), size := t.size - 1 }, ?_,
    ⟨h.mask, congrArg (· - 1) h.size, Or.inr ⟨_, rfl, rfl, htable.set hrest
      fun _ _ _ _ _ _ _ hs ↦ hs⟩⟩⟩
  have hload : load H t (.slot pos) = some (some (addr n)) := by
    rw [load, ht, Option.bind_eq_bind, Option.bind_some, hp]
  have hstore : store H t q (.slot pos) = some (H, { t with tab := some (heads.set pos q) }) := by
    rw [store, ht, Option.bind_eq_bind, Option.bind_some, if_pos hlt]
  rw [hDetach, hload, Option.bind_eq_bind, Option.bind_some, Option.bind_eq_bind, Option.bind_some,
    hq, Option.bind_eq_bind, Option.bind_some, hstore]
  rfl

/-- `h_detach` of a node behind another one writes the `next` of that one. -/
theorem hDetach_next (h : t.Sim H u) (hnd : (u.nodes.map addr).Nodup) (hu : u.tab = some slots)
    {chain : List (RedisOnC.HNode (Ptr × β))} (hchain : slots[pos]? = some chain) {i : ℕ}
    {a : RedisOnC.HNode (Ptr × β)} (ha : chain[i]? = some a) (hn : chain[i + 1]? = some n) :
    ∃ H', hDetach H t (.next (addr a)) = some (H', { t with size := t.size - 1 }, addr n) ∧
      HTab.Sim H' { t with size := t.size - 1 }
        { u with tab := some (slots.set pos (chain.eraseIdx (i + 1))), size := u.size - 1 } ∧
      Relinked H H' [addr a] := by
  obtain ⟨hslots, heads, ht, htable⟩ := h.of_tab hu
  obtain ⟨p, hp, hlinks⟩ := htable.exists_head hchain
  obtain ⟨hsplit, herase⟩ := split_at ha hn
  obtain ⟨q, hq⟩ := hlinks.exists_stored n (List.mem_of_getElem? hn)
  rw [HTab.nodes, hslots] at hnd
  have hchainnd : (chain.map addr).Nodup := by
    rw [List.map_flatten, List.nodup_flatten] at hnd
    exact hnd.1 _ (List.mem_map_of_mem (List.mem_of_getElem? hchain))
  rw [hsplit, List.map_append, List.map_cons, List.nodup_middle, List.nodup_cons] at hchainnd
  rw [hsplit] at hlinks
  have hbefore : Stored H a (some (addr n)) := hlinks.stored_before
  set H' := Function.update H (addr a) (some ⟨q, a.hcode, a.val.2⟩) with hH'
  have hother : ∀ x, addr x ≠ addr a → ∀ q, Stored H x q → Stored H' x q := fun x hx q hs ↦
    hs.congr (Function.update_of_ne hx ..)
  have hne : ∀ x ∈ chain.take i ++ chain.drop (i + 2), addr x ≠ addr a := by
    intro x hx heq
    refine hchainnd.1 ?_
    rw [← heq, List.map_cons]
    rcases List.mem_append.mp hx with hx | hx
    · exact List.mem_append_left _ (List.mem_map_of_mem hx)
    · exact List.mem_append_right _ (List.mem_cons_of_mem _ (List.mem_map_of_mem hx))
  have hnec : ∀ (j : ℕ) c, j ≠ pos → slots[j]? = some c → ∀ x ∈ c, addr x ≠ addr a :=
    fun j c hj hc x hx ↦ LinkedTable.addr_ne hnd hc hchain hj hx (List.mem_of_getElem? ha)
  have hunlink : LinkedChain addr (Stored H') p (chain.eraseIdx (i + 1)) := by
    rw [herase]
    refine hlinks.unlink (fun x hx ↦ hother x (hne x hx)) fun q' hq' ↦ ?_
    obtain rfl : q' = q := congrArg HNode.next (Option.some_inj.mp (hq'.symm.trans hq))
    exact Function.update_self ..
  have htable' := htable.set hunlink fun j c hj hc x hx ↦ hother x (hnec j c hj hc x hx)
  obtain ⟨hlt, hget⟩ := List.getElem?_eq_some_iff.mp hp
  rw [← hget, List.set_getElem_self] at htable'
  refine ⟨H', ?_, ⟨h.mask, congrArg (· - 1) h.size, Or.inr ⟨heads, ht, rfl, htable'⟩⟩,
    Relinked.update hbefore q⟩
  have hload : load H t (.next (addr a)) = some (some (addr n)) := by
    rw [load, hbefore]
    rfl
  have hstore : store H t q (.next (addr a)) = some (H', t) := by
    rw [store, hbefore]
    rfl
  rw [hDetach, hload, Option.bind_eq_bind, Option.bind_some, Option.bind_eq_bind, Option.bind_some,
    hq, Option.bind_eq_bind, Option.bind_some, hstore]
  rfl

/-- **`h_detach`.** The node leaves its chain. Nothing is written but a slot or a node that stays in
the table. -/
theorem hDetach_sim (h : t.Sim H u) (hnd : (u.nodes.map addr).Nodup) {place : ChainPos}
    {from_ : From} (hfrom : IsFrom u place from_)
    (hexec : RedisOnC.hDetach u place = some (u', n)) :
    ∃ H' t', hDetach H t from_ = some (H', t', addr n) ∧ t'.Sim H' u' ∧
      Relinked H H' (u'.nodes.map addr) := by
  obtain ⟨pos, i⟩ := place
  simp only [RedisOnC.hDetach, Option.bind_eq_bind, Option.bind_eq_some_iff] at hexec
  obtain ⟨slots, hu, chain, hchain, n', hn, heq⟩ := hexec
  obtain ⟨rfl, rfl⟩ := Prod.mk.inj (Option.some_inj.mp heq)
  obtain ⟨chain', hchain', hfrom⟩ := hfrom
  rw [(h.of_tab hu).1] at hchain'
  obtain rfl := Option.some_inj.mp (hchain'.symm.trans hchain)
  rcases i with _ | i
  · obtain rfl := Option.some_inj.mp hfrom
    rcases chain' with _ | ⟨n, rest⟩
    · exact (Option.some_ne_none _ hn.symm).elim
    obtain rfl := Option.some_inj.mp hn
    obtain ⟨t', hcode, hsim⟩ := hDetach_slot h hu hchain
    exact ⟨H, t', hcode, hsim, Relinked.refl H _⟩
  · obtain ⟨a, ha, rfl⟩ := Option.map_eq_some_iff.mp hfrom
    obtain ⟨H', hcode, hsim, hlink⟩ := hDetach_next h hnd hu hchain ha hn
    refine ⟨H', _, hcode, hsim, hlink.mono fun b hb ↦ ?_⟩
    obtain rfl := List.mem_singleton.mp hb
    have hlt : pos < slots.length := (List.getElem?_eq_some_iff.mp hchain).1
    refine List.mem_map_of_mem (List.mem_flatten.mpr ⟨chain'.eraseIdx (i + 1), ?_, ?_⟩)
    · exact List.mem_of_getElem? (List.getElem?_set_self hlt)
    · rw [(split_at ha hn).2]
      exact List.mem_append_right _ (List.mem_cons_self ..)

/-! ## The two tables -/

/-- The map in memory and the map of lists. Its nodes have different addresses. -/
structure HMap.Sim (H : HHeap β) (m : HMap) (M : RedisOnC.HMap (Ptr × β)) : Prop where
  ht1 : m.ht1.Sim H M.ht1
  ht2 : m.ht2.Sim H M.ht2
  resizingPos : m.resizingPos = M.resizingPos
  nodup : (M.nodes.map addr).Nodup

variable {m : HMap} {M M' : RedisOnC.HMap (Ptr × β)}

theorem HMap.sim_empty : HMap.Sim H {} {} := ⟨HTab.sim_empty, HTab.sim_empty, rfl, List.nodup_nil⟩

namespace HMap.Sim

theorem congr (h : m.Sim H M) (hkeep : ∀ n ∈ M.nodes, H' (addr n) = H (addr n)) : m.Sim H' M :=
  ⟨h.ht1.congr fun n hn ↦ hkeep n (List.mem_append_left _ hn),
    h.ht2.congr fun n hn ↦ hkeep n (List.mem_append_right _ hn), h.resizingPos, h.nodup⟩

theorem exists_stored (h : m.Sim H M) (hn : n ∈ M.nodes) : ∃ q, Stored H n q :=
  (List.mem_append.mp hn).elim h.ht1.exists_stored h.ht2.exists_stored

theorem nodup_append (h : m.Sim H M) : (M.ht1.nodes.map addr ++ M.ht2.nodes.map addr).Nodup := by
  rw [← List.map_append]
  exact h.nodup

theorem ht1_keep (h : m.Sim H M) {l : List Ptr} (hlink : Relinked H H' l)
    (hl : ∀ a ∈ l, a ∈ M.ht2.nodes.map addr) : m.ht1.Sim H' M.ht1 := by
  refine h.ht1.congr fun n hn ↦ hlink.other _ fun hmem ↦ ?_
  exact (List.nodup_append.mp h.nodup_append).2.2 _ (List.mem_map_of_mem hn) _ (hl _ hmem) rfl

theorem ht2_keep (h : m.Sim H M) {l : List Ptr} (hlink : Relinked H H' l)
    (hl : ∀ a ∈ l, a ∈ M.ht1.nodes.map addr) : m.ht2.Sim H' M.ht2 := by
  refine h.ht2.congr fun n hn ↦ hlink.other _ fun hmem ↦ ?_
  exact (List.nodup_append.mp h.nodup_append).2.2 _ (hl _ hmem) _ (List.mem_map_of_mem hn) rfl

end HMap.Sim

theorem detach_ht1_sim (h : m.Sim H M) {place : ChainPos} {from_ : From}
    (hfrom : IsFrom M.ht1 place from_) (hdetach : RedisOnC.hDetach M.ht1 place = some (u, n)) :
    ∃ H' t, hDetach H m.ht1 from_ = some (H', t, addr n) ∧
      HMap.Sim H' { m with ht1 := t } { M with ht1 := u } ∧ Relinked H H' (M.nodes.map addr) := by
  have hperm := perm_of_hDetach hdetach
  have hsub : ∀ a ∈ u.nodes.map addr, a ∈ M.ht1.nodes.map addr := fun a ha ↦
    (hperm.map addr).mem_iff.mpr (List.mem_cons_of_mem _ ha)
  obtain ⟨H', t, hcode, hsim, hlink⟩ :=
    hDetach_sim h.ht1 (List.nodup_append.mp h.nodup_append).1 hfrom hdetach
  have hnd := ((hperm.append_right M.ht2.nodes).map addr).nodup_iff.mp h.nodup
  rw [List.cons_append, List.map_cons, List.nodup_cons] at hnd
  refine ⟨H', t, hcode, ⟨hsim, h.ht2_keep hlink hsub, h.resizingPos, hnd.2⟩,
    hlink.mono fun a ha ↦ ?_⟩
  rw [HMap.nodes, List.map_append]
  exact List.mem_append_left _ (hsub a ha)

theorem detach_ht2_sim (h : m.Sim H M) {place : ChainPos} {from_ : From}
    (hfrom : IsFrom M.ht2 place from_) (hdetach : RedisOnC.hDetach M.ht2 place = some (u, n)) :
    ∃ H' t, hDetach H m.ht2 from_ = some (H', t, addr n) ∧
      HMap.Sim H' { m with ht2 := t } { M with ht2 := u } ∧ Relinked H H' (M.nodes.map addr) := by
  have hperm := perm_of_hDetach hdetach
  have hsub : ∀ a ∈ u.nodes.map addr, a ∈ M.ht2.nodes.map addr := fun a ha ↦
    (hperm.map addr).mem_iff.mpr (List.mem_cons_of_mem _ ha)
  obtain ⟨H', t, hcode, hsim, hlink⟩ :=
    hDetach_sim h.ht2 (List.nodup_append.mp h.nodup_append).2.1 hfrom hdetach
  have hnd := (((hperm.append_left M.ht1.nodes).trans List.perm_middle).map addr).nodup_iff.mp
    h.nodup
  rw [List.map_cons, List.nodup_cons] at hnd
  refine ⟨H', t, hcode, ⟨h.ht1_keep hlink hsub, hsim, h.resizingPos, hnd.2⟩,
    hlink.mono fun a ha ↦ ?_⟩
  rw [HMap.nodes, List.map_append]
  exact List.mem_append_right _ (hsub a ha)

theorem move_sim (h : m.Sim H M) {place : ChainPos} {from_ : From}
    {u₁ u₂ : RedisOnC.HTab (Ptr × β)} (hfrom : IsFrom M.ht2 place from_)
    (hdetach : RedisOnC.hDetach M.ht2 place = some (u₂, n))
    (hinsert : RedisOnC.hInsert M.ht1 n = some u₁) :
    ∃ H₁ t₂ H₂ t₁, hDetach H m.ht2 from_ = some (H₁, t₂, addr n) ∧
      hInsert H₁ m.ht1 (addr n) = some (H₂, t₁) ∧
      HMap.Sim H₂ { m with ht1 := t₁, ht2 := t₂ } { M with ht1 := u₁, ht2 := u₂ } ∧
      (u₁.nodes ++ u₂.nodes).Perm M.nodes ∧ Relinked H H₂ (M.nodes.map addr) := by
  have hperm₂ := perm_of_hDetach hdetach
  have hperm : (u₁.nodes ++ u₂.nodes).Perm M.nodes :=
    ((perm_of_hInsert hinsert).append_right _).trans
      (List.perm_middle.symm.trans (hperm₂.symm.append_left _))
  have hmem : n ∈ M.ht2.nodes := hperm₂.mem_iff.mpr (List.mem_cons_self ..)
  have hnd := ((hperm₂.append_left M.ht1.nodes).map addr).nodup_iff.mp h.nodup
  rw [List.map_append, List.map_cons, List.nodup_middle, List.nodup_cons, ← List.map_append] at hnd
  have hout : ∀ n' ∈ M.ht1.nodes ++ u₂.nodes, addr n' ≠ addr n := fun n' hn' heq ↦
    hnd.1 (heq ▸ List.mem_map_of_mem hn')
  obtain ⟨H₁, t₂, hcode₂, hsim₁, hlink₂⟩ := detach_ht2_sim h hfrom hdetach
  obtain ⟨q, hq⟩ := h.ht2.exists_stored hmem
  obtain ⟨q₁, hq₁⟩ := hlink₂.stored hq
  obtain ⟨H₂, t₁, hcode₁, hsim₂, hlink₁⟩ := hInsert_sim hsim₁.ht1 hinsert hq₁ fun n' hn' ↦
    hout n' (List.mem_append_left _ hn')
  refine ⟨H₁, t₂, H₂, t₁, hcode₂, hcode₁, ⟨hsim₂, ?_, h.resizingPos, ?_⟩, hperm,
    hlink₂.trans (hlink₁.mono fun a ha ↦ ?_)⟩
  · exact hsim₁.ht2.congr fun n' hn' ↦ hlink₁.other _ fun hmem' ↦
      hout n' (List.mem_append_right _ hn') (List.mem_singleton.mp hmem')
  · exact (hperm.map addr).nodup_iff.mpr h.nodup
  · exact List.mem_singleton.mp ha ▸ List.mem_map_of_mem (List.mem_append_right _ hmem)

theorem hmHelpStep_sim {w w' : ℕ} (h : m.Sim H M)
    (hexec : RedisOnC.hmHelpStep (M, w) = some (.inl (M', w'))) :
    ∃ H' m', hmHelpStep (H, m, w) = some (.inl (H', m', w')) ∧ m'.Sim H' M' ∧
      M'.nodes.Perm M.nodes ∧ Relinked H H' (M.nodes.map addr) := by
  rw [RedisOnC.hmHelpStep] at hexec
  dsimp only at hexec
  split at hexec
  · next hcond =>
    simp only [Option.bind_eq_bind, Option.bind_eq_some_iff] at hexec
    obtain ⟨slots, hu, chain, hchain, hexec⟩ := hexec
    obtain ⟨-, heads, ht, htable⟩ := h.ht2.of_tab hu
    obtain ⟨p, hp, hlinks⟩ := htable.exists_head hchain
    have hload : load H m.ht2 (.slot M.resizingPos) = some p := by
      rw [load, ht, Option.bind_eq_bind, Option.bind_some, hp]
    have hcode : hmHelpStep (H, m, w) = _ := if_pos (h.ht2.size ▸ hcond)
    rw [h.resizingPos, hload, Option.bind_eq_bind, Option.bind_some] at hcode
    rcases chain with _ | ⟨n, rest⟩
    · obtain ⟨rfl, rfl⟩ := Prod.mk.inj (Sum.inl.inj (Option.some_inj.mp hexec))
      obtain rfl := hlinks
      exact ⟨H, { m with resizingPos := M.resizingPos + 1 }, hcode, ⟨h.ht1, h.ht2, rfl, h.nodup⟩,
        List.Perm.refl _, Relinked.refl H _⟩
    · obtain ⟨rfl, -⟩ := hlinks
      obtain ⟨⟨u₂, n'⟩, hdetach, hexec⟩ := Option.bind_eq_some_iff.mp hexec
      obtain ⟨u₁, hinsert, heq⟩ := Option.bind_eq_some_iff.mp hexec
      obtain ⟨rfl, rfl⟩ := Prod.mk.inj (Sum.inl.inj (Option.some_inj.mp heq))
      obtain ⟨hslots, -⟩ := h.ht2.of_tab hu
      obtain ⟨H₁, t₂, H₂, t₁, hcode₂, hcode₁, hsim, hperm, hlink⟩ :=
        move_sim h ⟨_, hslots ▸ hchain, rfl⟩ hdetach hinsert
      refine ⟨H₂, { m with ht1 := t₁, ht2 := t₂ }, hcode.trans ?_, hsim, hperm, hlink⟩
      dsimp only
      rw [hcode₂, Option.bind_eq_bind, Option.bind_some]
      dsimp only
      rw [hcode₁, Option.bind_eq_bind, Option.bind_some, h.resizingPos]
  · exact absurd (Option.some_inj.mp hexec) Sum.inr_ne_inl

theorem hmHelpStep_exit {w : ℕ} (hexec : RedisOnC.hmHelpStep (M, w) = some (.inr M')) :
    ¬ (w < kResizingWork ∧ M.ht2.size > 0) ∧ M' = M := by
  by_cases hcond : w < kResizingWork ∧ M.ht2.size > 0
  · have hcode : RedisOnC.hmHelpStep (M, w) = _ := if_pos hcond
    simp only [hcode, Option.bind_eq_bind, Option.bind_eq_some_iff] at hexec
    obtain ⟨slots, -, chain, -, hexec⟩ := hexec
    rcases chain with _ | ⟨n, rest⟩
    · exact absurd (Option.some_inj.mp hexec) Sum.inl_ne_inr
    · obtain ⟨_, -, hexec⟩ := Option.bind_eq_some_iff.mp hexec
      obtain ⟨_, -, heq⟩ := Option.bind_eq_some_iff.mp hexec
      exact absurd (Option.some_inj.mp heq) Sum.inl_ne_inr
  · have hcode : RedisOnC.hmHelpStep (M, w) = _ := if_neg hcond
    exact ⟨hcond, (Sum.inr.inj (Option.some_inj.mp (hcode.symm.trans hexec))).symm⟩

/-- **The migration step.** -/
theorem hmHelpResizing_sim (h : m.Sim H M) (hexec : RedisOnC.hmHelpResizing M = some M') :
    ∃ H' m', hmHelpResizing H m = some (H', m') ∧ m'.Sim H' M' ∧ (∀ n ∈ M'.nodes, n ∈ M.nodes) ∧
      Relinked H H' (M.nodes.map addr) := by
  obtain ⟨M₁, hloop, hexec⟩ := Option.bind_eq_some_iff.mp hexec
  have hsim : ∃ r : HHeap β × HMap, whileLoop hmHelpStep (H, m, 0) = some r ∧
      HMap.Sim r.1 r.2 M₁ ∧ M₁.nodes.Perm M.nodes ∧ Relinked H r.1 (M.nodes.map addr) := by
    refine WhileLoop.simulate
      (R := fun (s : RedisOnC.HMap (Ptr × β) × ℕ) (t : HHeap β × HMap × ℕ) ↦ s.2 = t.2.2 ∧
        HMap.Sim t.1 t.2.1 s.1 ∧ s.1.nodes.Perm M.nodes ∧
        Relinked H t.1 (M.nodes.map addr))
      (Q := fun M₁ (r : HHeap β × HMap) ↦ HMap.Sim r.1 r.2 M₁ ∧ M₁.nodes.Perm M.nodes ∧
        Relinked H r.1 (M.nodes.map addr)) ?_ ?_
      ⟨rfl, h, List.Perm.refl _, Relinked.refl H _⟩ hloop
    · rintro ⟨M₁, w⟩ ⟨H₁, m₁, _⟩ ⟨M₂, w₂⟩ ⟨rfl, hsim, hperm, hlink⟩ hbody
      obtain ⟨H₂, m₂, hstep, hsim₂, hperm₂, hlink₂⟩ := hmHelpStep_sim hsim hbody
      exact ⟨(H₂, m₂, w₂), hstep, rfl, hsim₂, hperm₂.trans hperm,
        hlink.trans (hlink₂.mono fun a ha ↦ (hperm.map addr).mem_iff.mp ha)⟩
    · rintro ⟨M₁, w⟩ ⟨H₁, m₁, _⟩ M₂ ⟨rfl, hsim, hperm, hlink⟩ hbody
      obtain ⟨hcond, rfl⟩ := hmHelpStep_exit hbody
      exact ⟨(H₁, m₁), if_neg (hsim.ht2.size ▸ hcond), hsim, hperm, hlink⟩
  obtain ⟨⟨H₁, m₁⟩, hloop', hsim₁, hperm₁, hlink₁⟩ := hsim
  have hcode : hmHelpResizing H m = if m₁.ht2.size = 0 ∧ m₁.ht2.tab.isSome then
      some (H₁, { m₁ with ht2 := {} }) else some (H₁, m₁) := by
    rw [hmHelpResizing, hloop']
    rfl
  have hiff : (m₁.ht2.size = 0 ∧ m₁.ht2.tab.isSome) ↔ M₁.ht2.size = 0 ∧ M₁.ht2.tab.isSome := by
    rw [hsim₁.ht2.size, hsim₁.ht2.isSome_tab]
  by_cases hdone : M₁.ht2.size = 0 ∧ M₁.ht2.tab.isSome
  · rw [if_pos hdone] at hexec
    obtain rfl := Option.some_inj.mp hexec
    refine ⟨H₁, { m₁ with ht2 := {} }, hcode.trans (if_pos (hiff.mpr hdone)),
      ⟨hsim₁.ht1, HTab.sim_empty, hsim₁.resizingPos, ?_⟩, fun n hn ↦ ?_, hlink₁⟩
    · rw [HMap.nodes, HTab.nodes_empty, List.append_nil]
      exact (List.nodup_append.mp hsim₁.nodup_append).1
    · rw [HMap.nodes, HTab.nodes_empty, List.append_nil] at hn
      exact hperm₁.mem_iff.mp (List.mem_append_left _ hn)
  · rw [if_neg hdone] at hexec
    obtain rfl := Option.some_inj.mp hexec
    exact ⟨H₁, m₁, hcode.trans (if_neg fun hdone' ↦ hdone (hiff.mp hdone')), hsim₁,
      fun n hn ↦ hperm₁.mem_iff.mp hn, hlink₁⟩

/-! ## The operations -/

theorem hmCheckLoad_sim (h : m.Sim H M) (hexec : RedisOnC.hmCheckLoad M = some M') :
    ∃ m', hmCheckLoad m = some m' ∧ m'.Sim H M' ∧ M'.nodes.Perm M.nodes := by
  have hiff : (m.ht2.tab.isNone ∧ m.ht1.size / (m.ht1.mask + 1) > kMaxLoadFactor) ↔
      M.ht2.tab.isNone ∧ M.ht1.size / (M.ht1.mask + 1) > kMaxLoadFactor := by
    rw [h.ht1.size, h.ht1.mask, h.ht2.isNone_tab]
  by_cases hload : M.ht2.tab.isNone ∧ M.ht1.size / (M.ht1.mask + 1) > kMaxLoadFactor
  · have hnone : M.ht2.tab = none := Option.isNone_iff_eq_none.mp hload.1
    have hnone' : m.ht2.tab = none := Option.isNone_iff_eq_none.mp (hiff.mpr hload).1
    rw [RedisOnC.hmCheckLoad, if_pos hload, RedisOnC.hmStartResizing, hnone] at hexec
    obtain ⟨u, hinit, heq⟩ := Option.bind_eq_some_iff.mp hexec
    obtain rfl := Option.some_inj.mp heq
    obtain ⟨t, hinit', hsim⟩ := hInit_sim (H := H) hinit
    have hnil : u.nodes = [] := by
      rw [RedisOnC.hInit] at hinit
      split at hinit
      · obtain rfl := Option.some_inj.mp hinit
        simp [HTab.nodes, HTab.slots]
      · exact (Option.some_ne_none _ hinit.symm).elim
    have hnil₂ : M.ht2.nodes = [] := by rw [HTab.nodes, HTab.slots, hnone]; rfl
    have hperm : (u.nodes ++ M.ht1.nodes).Perm M.nodes := by
      rw [hnil, HMap.nodes, hnil₂, List.append_nil, List.nil_append]
    refine ⟨{ ht1 := t, ht2 := m.ht1, resizingPos := 0 }, ?_,
      ⟨hsim, h.ht1, rfl, (hperm.map addr).nodup_iff.mpr h.nodup⟩, hperm⟩
    rw [hmCheckLoad, if_pos (hiff.mpr hload), hmStartResizing, hnone', h.ht1.mask, hinit']
    rfl
  · rw [RedisOnC.hmCheckLoad, if_neg hload] at hexec
    obtain rfl := Option.some_inj.mp hexec
    exact ⟨m, if_neg fun hload' ↦ hload (hiff.mp hload'), h, List.Perm.refl _⟩

/-- **`hm_insert`** of a node that is allocated and not in the map. -/
theorem hmInsert_sim (h : m.Sim H M) (hn : Stored H n q) (hout : ∀ n' ∈ M.nodes, addr n' ≠ addr n)
    (hexec : RedisOnC.hmInsert M n = some M') :
    ∃ H' m', hmInsert H m (addr n) = some (H', m') ∧ m'.Sim H' M' ∧
      Relinked H H' (addr n :: M.nodes.map addr) := by
  obtain ⟨u, hinit, hexec⟩ := Option.bind_eq_some_iff.mp hexec
  obtain ⟨u₁, hinsert, hexec⟩ := Option.bind_eq_some_iff.mp hexec
  obtain ⟨M₁, hcheck, hexec⟩ := Option.bind_eq_some_iff.mp hexec
  obtain ⟨t, hinit', hsim, hsub⟩ : ∃ t,
      (if m.ht1.tab.isNone then hInit 4 else some m.ht1 : Option HTab) = some t ∧ t.Sim H u ∧
        u.nodes.Sublist M.ht1.nodes := by
    by_cases hnone : M.ht1.tab.isNone
    · rw [if_pos hnone] at hinit
      obtain ⟨t, hinit', hsim⟩ := hInit_sim (H := H) hinit
      refine ⟨t, by rw [h.ht1.isNone_tab, if_pos hnone, hinit'], hsim, ?_⟩
      obtain rfl := Option.some_inj.mp hinit
      exact List.nil_sublist _
    · rw [if_neg hnone] at hinit
      obtain rfl := Option.some_inj.mp hinit
      exact ⟨m.ht1, by rw [h.ht1.isNone_tab, if_neg hnone], h.ht1, List.Sublist.refl _⟩
  obtain ⟨H₁, t₁, hcode₁, hsim₁, hlink₁⟩ := hInsert_sim hsim hinsert hn fun n' hn' ↦
    hout n' (List.mem_append_left _ (hsub.subset hn'))
  have hperm₁ := perm_of_hInsert hinsert
  have hsub₁ : (u₁.nodes ++ M.ht2.nodes).Subperm (n :: M.nodes) := by
    refine (hperm₁.append_right _).subperm.trans ?_
    rw [HMap.nodes, List.cons_append]
    exact ((hsub.append_right _).cons_cons n).subperm
  have hnd : ((n :: M.nodes).map addr).Nodup := by
    rw [List.map_cons, List.nodup_cons]
    refine ⟨fun hmem ↦ ?_, h.nodup⟩
    obtain ⟨n', hn', heq⟩ := List.mem_map.mp hmem
    exact hout n' hn' heq
  have hsimM : HMap.Sim H₁ { m with ht1 := t₁ } { M with ht1 := u₁ } := by
    refine ⟨hsim₁, h.ht2.congr fun n' hn' ↦ hlink₁.other _ fun hmem ↦ ?_, h.resizingPos, ?_⟩
    · exact hout n' (List.mem_append_right _ hn') (List.mem_singleton.mp hmem)
    · obtain ⟨l, hperm, hl⟩ := hsub₁
      exact (hperm.map addr).nodup_iff.mp (hnd.sublist (hl.map addr))
  obtain ⟨m₂, hcode₂, hsim₂, hperm₂⟩ := hmCheckLoad_sim hsimM hcheck
  obtain ⟨H₃, m₃, hcode₃, hsim₃, -, hlink₃⟩ := hmHelpResizing_sim hsim₂ hexec
  refine ⟨H₃, m₃, ?_, hsim₃, (hlink₁.mono fun a ha ↦ ?_).trans (hlink₃.mono fun a ha ↦ ?_)⟩
  · rw [hmInsert, hinit', Option.bind_eq_bind, Option.bind_some, hcode₁, Option.bind_eq_bind,
      Option.bind_some]
    dsimp only
    rw [hcode₂, Option.bind_eq_bind, Option.bind_some, hcode₃]
  · exact List.mem_singleton.mp ha ▸ List.mem_cons_self ..
  · obtain ⟨n', hn', rfl⟩ := List.mem_map.mp ha
    rw [← List.map_cons]
    exact List.mem_map_of_mem (hsub₁.subset (hperm₂.mem_iff.mp hn'))

/-- **`hm_lookup`.** The pointer that it returns is the address of the node. -/
theorem hmLookup_sim (h : m.Sim H M) {hcode : ℕ} (eq : β → Bool)
    {r : Option (RedisOnC.HNode (Ptr × β))}
    (hexec : RedisOnC.hmLookup M hcode (fun a ↦ eq a.2) = some (M', r)) :
    ∃ H' m', hmLookup H m hcode eq = some (H', m', r.map addr) ∧ m'.Sim H' M' ∧
      Relinked H H' (M.nodes.map addr) := by
  obtain ⟨M₁, hhelp, hexec⟩ := Option.bind_eq_some_iff.mp hexec
  obtain ⟨H₁, m₁, hcode₁, hsim, -, hlink⟩ := hmHelpResizing_sim h hhelp
  obtain ⟨r₁, hlook₁, hexec⟩ := Option.bind_eq_some_iff.mp hexec
  rcases hLookup_sim hsim.ht1 hlook₁ with ⟨rfl, hcode₂⟩ | ⟨place, from_, rfl, hcode₂, hfrom⟩
  · obtain ⟨r₂, hlook₂, hexec⟩ := Option.bind_eq_some_iff.mp hexec
    rcases hLookup_sim hsim.ht2 hlook₂ with ⟨rfl, hcode₃⟩ | ⟨place, from_, rfl, hcode₃, hfrom⟩
    · obtain ⟨rfl, rfl⟩ := Prod.mk.inj (Option.some_inj.mp hexec)
      refine ⟨H₁, m₁, ?_, hsim, hlink⟩
      simp only [hmLookup, hcode₁, hcode₂, hcode₃, Option.bind_eq_bind, Option.bind_some,
        Option.map_none]
    · obtain ⟨n, hload, heq⟩ := Option.bind_eq_some_iff.mp hexec
      obtain ⟨rfl, rfl⟩ := Prod.mk.inj (Option.some_inj.mp heq)
      refine ⟨H₁, m₁, ?_, hsim, hlink⟩
      simp only [hmLookup, hcode₁, hcode₂, hcode₃, load_sim hsim.ht2 hfrom hload,
        Option.bind_eq_bind, Option.bind_some, Option.map_some]
  · obtain ⟨n, hload, heq⟩ := Option.bind_eq_some_iff.mp hexec
    obtain ⟨rfl, rfl⟩ := Prod.mk.inj (Option.some_inj.mp heq)
    refine ⟨H₁, m₁, ?_, hsim, hlink⟩
    simp only [hmLookup, hcode₁, hcode₂, load_sim hsim.ht1 hfrom hload, Option.bind_eq_bind,
      Option.bind_some, Option.map_some]

/-- **`hm_pop`.** The node that it returns stays allocated. -/
theorem hmPop_sim (h : m.Sim H M) {hcode : ℕ} (eq : β → Bool)
    {r : Option (RedisOnC.HNode (Ptr × β))}
    (hexec : RedisOnC.hmPop M hcode (fun a ↦ eq a.2) = some (M', r)) :
    ∃ H' m', hmPop H m hcode eq = some (H', m', r.map addr) ∧ m'.Sim H' M' ∧
      Relinked H H' (M.nodes.map addr) := by
  obtain ⟨M₁, hhelp, hexec⟩ := Option.bind_eq_some_iff.mp hexec
  obtain ⟨H₁, m₁, hcode₁, hsim, hsub, hlink⟩ := hmHelpResizing_sim h hhelp
  have hall : ∀ a ∈ M₁.nodes.map addr, a ∈ M.nodes.map addr := fun a ha ↦ by
    obtain ⟨n, hn, rfl⟩ := List.mem_map.mp ha
    exact List.mem_map_of_mem (hsub n hn)
  obtain ⟨r₁, hlook₁, hexec⟩ := Option.bind_eq_some_iff.mp hexec
  rcases hLookup_sim hsim.ht1 hlook₁ with ⟨rfl, hcode₂⟩ | ⟨place, from_, rfl, hcode₂, hfrom⟩
  · obtain ⟨r₂, hlook₂, hexec⟩ := Option.bind_eq_some_iff.mp hexec
    rcases hLookup_sim hsim.ht2 hlook₂ with ⟨rfl, hcode₃⟩ | ⟨place, from_, rfl, hcode₃, hfrom⟩
    · obtain ⟨rfl, rfl⟩ := Prod.mk.inj (Option.some_inj.mp hexec)
      refine ⟨H₁, m₁, ?_, hsim, hlink⟩
      simp only [hmPop, hcode₁, hcode₂, hcode₃, Option.bind_eq_bind, Option.bind_some,
        Option.map_none]
    · obtain ⟨⟨u, n⟩, hdetach, heq⟩ := Option.bind_eq_some_iff.mp hexec
      obtain ⟨rfl, rfl⟩ := Prod.mk.inj (Option.some_inj.mp heq)
      obtain ⟨H₂, t, hcode₄, hsim₂, hlink₂⟩ := detach_ht2_sim hsim hfrom hdetach
      refine ⟨H₂, _, ?_, hsim₂, hlink.trans (hlink₂.mono hall)⟩
      simp only [hmPop, hcode₁, hcode₂, hcode₃, hcode₄, Option.bind_eq_bind, Option.bind_some,
        Option.map_some]
  · obtain ⟨⟨u, n⟩, hdetach, heq⟩ := Option.bind_eq_some_iff.mp hexec
    obtain ⟨rfl, rfl⟩ := Prod.mk.inj (Option.some_inj.mp heq)
    obtain ⟨H₂, t, hcode₃, hsim₂, hlink₂⟩ := detach_ht1_sim hsim hfrom hdetach
    refine ⟨H₂, _, ?_, hsim₂, hlink.trans (hlink₂.mono hall)⟩
    simp only [hmPop, hcode₁, hcode₂, hcode₃, Option.bind_eq_bind, Option.bind_some,
      Option.map_some]

theorem hScan_chain {chain : List (RedisOnC.HNode (Ptr × β))} {p : Option Ptr} {seen : List Ptr}
    (h : LinkedChain addr (Stored H) p chain) :
    whileLoop (hScanStep H) (seen, p) = some (seen ++ chain.map addr) := by
  induction chain generalizing p seen with
  | nil =>
    obtain rfl := h
    rw [List.map_nil, List.append_nil]
    exact WhileLoop.of_exit rfl
  | cons n chain ih =>
    obtain ⟨rfl, q, hn, hq⟩ := h
    have hstep : hScanStep H (seen, some (addr n)) = some (.inl (seen ++ [addr n], q)) := by
      rw [hScanStep, hn]
      rfl
    rw [WhileLoop.of_continue hstep, ih hq, List.map_cons, List.append_assoc,
      List.singleton_append]

theorem hScan_slots {heads : List (Option Ptr)} (h : LinkedTable addr (Stored H) heads slots)
    {is : List ℕ} {chains : List (List (RedisOnC.HNode (Ptr × β)))} {seen : List Ptr}
    (hread : is.mapM (fun i ↦ slots[i]?) = some chains) : is.foldlM (fun seen i ↦ do
        let node ← heads[i]?
        whileLoop (hScanStep H) (seen, node)) seen = some (seen ++ chains.flatten.map addr) := by
  induction is generalizing chains seen with
  | nil =>
    rw [List.mapM_nil] at hread
    obtain rfl := Option.some_inj.mp hread
    rw [List.foldlM_nil, List.flatten_nil, List.map_nil, List.append_nil]
    rfl
  | cons i is ih =>
    rw [List.mapM_cons] at hread
    obtain ⟨chain, hchain, hread⟩ := Option.bind_eq_some_iff.mp hread
    obtain ⟨chains', hread', heq⟩ := Option.bind_eq_some_iff.mp hread
    obtain rfl := Option.some_inj.mp heq
    obtain ⟨p, hp, hlinks⟩ := h.exists_head hchain
    have hfirst : (do
        let node ← heads[i]?
        whileLoop (hScanStep H) (seen, node)) = some (seen ++ chain.map addr) := by
      rw [hp]
      exact hScan_chain hlinks
    rw [List.foldlM_cons, hfirst, List.flatten_cons, List.map_append, ← List.append_assoc]
    exact ih hread'

/-- **`h_scan`.** -/
theorem hScan_sim (h : t.Sim H u) {l : List (RedisOnC.HNode (Ptr × β))}
    (hexec : RedisOnC.hScan u = some l) : hScan H t = some (l.map addr) := by
  by_cases hsize : u.size = 0
  · rw [RedisOnC.hScan, if_pos hsize] at hexec
    obtain rfl := Option.some_inj.mp hexec
    rw [hScan, if_pos (h.size.trans hsize)]
    rfl
  · rw [RedisOnC.hScan, if_neg hsize] at hexec
    obtain ⟨slots, hu, hexec⟩ := Option.bind_eq_some_iff.mp hexec
    obtain ⟨chains, hread, heq⟩ := Option.bind_eq_some_iff.mp hexec
    obtain rfl := Option.some_inj.mp heq
    obtain ⟨-, heads, ht, htable⟩ := h.of_tab hu
    rw [hScan, if_neg (h.size ▸ hsize), ht, Option.bind_eq_bind, Option.bind_some, h.mask,
      hScan_slots htable hread, List.nil_append]

end Linked

end RedisOnC
