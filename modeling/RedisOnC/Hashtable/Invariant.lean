import RedisOnC.Hashtable.Basic
import RedisOnC.Lib.Buckets

/-!
# What the hash map keeps

The invariant of a table (every node in its slot, the size exact) and of the map around it (the
tables differ by a factor of two, the migration has emptied every slot below its cursor), and one
specification for each operation. The specifications speak of the content as a list up to order
and of *some* matching node; that a key occurs once is not used, so they hold for any comparison.
-/

namespace RedisOnC

variable {α : Type} {t t' : HTab α} {m : HMap α} {n : HNode α} {hcode : ℕ} {eq : α → Bool}

/-! ## One table -/

namespace HTab

/-- The chains, none when the table is not allocated. -/
def slots (t : HTab α) : List (List (HNode α)) := t.tab.getD []

/-- The nodes of all chains. -/
def nodes (t : HTab α) : List (HNode α) := t.slots.flatten

@[simp] theorem nodes_empty : ({} : HTab α).nodes = [] := rfl

/-- An allocated table: a power of two of slots, every node in the slot `hcode & mask`, and the
size is the number of nodes. -/
structure WF (t : HTab α) : Prop where
  alloc : t.tab = some t.slots
  length_slots : t.slots.length = t.mask + 1
  pow : ∃ k, t.mask + 1 = 2 ^ k
  placed : t.slots.Placed fun n ↦ n.hcode &&& t.mask
  size_eq : t.size = t.nodes.length

/-- Table `t` is unallocated, or well formed. -/
def Inv (t : HTab α) : Prop := t = {} ∨ t.WF

/-- The node `n` is what `from_` points to. -/
def At (t : HTab α) (from_ : ChainPos) (n : HNode α) : Prop :=
  ∃ chain, t.slots[from_.1]? = some chain ∧ chain[from_.2]? = some n

theorem WF.slot_lt (h : t.WF) (c : ℕ) : c &&& t.mask < t.slots.length := by
  rw [h.length_slots]
  exact Nat.lt_succ_of_le Nat.and_le_right

theorem At.mem {from_ : ChainPos} (h : t.At from_ n) : n ∈ t.nodes := by
  obtain ⟨chain, hchain, hn⟩ := h
  exact List.mem_flatten.mpr ⟨chain, List.mem_of_getElem? hchain, List.mem_of_getElem? hn⟩

end HTab

theorem hInit_spec (k : ℕ) :
    ∃ t, (hInit (2 ^ k) : Option (HTab α)) = some t ∧ t.WF ∧ t.nodes = [] ∧ t.mask + 1 = 2 ^ k := by
  have hpos : 0 < 2 ^ k := Nat.two_pow_pos k
  have hmask : 2 ^ k - 1 + 1 = 2 ^ k := Nat.sub_add_cancel hpos
  have hand : (2 ^ k - 1) &&& 2 ^ k = 0 := by
    rw [Nat.and_comm, Nat.and_two_pow_sub_one_eq_mod, Nat.mod_self]
  refine ⟨_, if_pos ⟨hpos, hand⟩, ⟨rfl, ?_, ⟨k, hmask⟩, List.placed_replicate _, ?_⟩, ?_, hmask⟩
  · rw [HTab.slots, Option.getD_some, List.length_replicate, hmask]
  all_goals simp [HTab.nodes, HTab.slots]

theorem hInsert_spec (h : t.WF) (n : HNode α) :
    ∃ t', hInsert t n = some t' ∧ t'.WF ∧ t'.nodes.Perm (n :: t.nodes) ∧ t'.mask = t.mask ∧
      t'.size = t.size + 1 := by
  have hlt := h.slot_lt n.hcode
  obtain ⟨next, hnext⟩ : ∃ next, t.slots[n.hcode &&& t.mask]? = some next :=
    ⟨_, List.getElem?_eq_getElem hlt⟩
  have hperm : (t.slots.set (n.hcode &&& t.mask) (n :: next)).flatten.Perm (n :: t.nodes) := by
    have hset := List.flatten_set_perm hnext (n :: next)
    refine (List.perm_append_right_iff next).mp (hset.trans ?_)
    rw [List.cons_append]
    exact List.perm_middle
  refine ⟨{ t with
    tab := some (t.slots.set (n.hcode &&& t.mask) (n :: next)), size := t.size + 1 },
    ?_, ⟨rfl, ?_, h.pow, h.placed.set ?_, ?_⟩, hperm, rfl, rfl⟩
  · rw [hInsert, h.alloc]
    simp only [Option.bind_eq_bind, Option.bind_some, hnext]
  · exact (List.length_set ..).trans h.length_slots
  · rintro x (_ | ⟨_, hx⟩)
    · rfl
    · exact h.placed _ _ hnext x hx
  · have hlen := hperm.length_eq
    rw [List.length_cons, ← h.size_eq] at hlen
    exact hlen.symm

theorem hDetach_spec {from_ : ChainPos} (h : t.WF) (hat : t.At from_ n) :
    ∃ t', hDetach t from_ = some (t', n) ∧ t'.WF ∧ t.nodes.Perm (n :: t'.nodes) ∧
      t'.mask = t.mask ∧ t'.size + 1 = t.size ∧
      ∀ i : ℕ, t.slots[i]? = some [] → t'.slots[i]? = some [] := by
  obtain ⟨chain, hchain, hn⟩ := hat
  have hperm : t.nodes.Perm (n :: (t.slots.set from_.1 (chain.eraseIdx from_.2)).flatten) := by
    have hset := List.flatten_set_perm hchain (chain.eraseIdx from_.2)
    have hcons := List.perm_cons_eraseIdx hn
    refine (List.perm_append_right_iff (chain.eraseIdx from_.2)).mp (hset.symm.trans ?_)
    rw [List.cons_append]
    exact (hcons.append_left _).trans List.perm_middle
  have hlen := hperm.length_eq
  rw [List.length_cons, ← h.size_eq] at hlen
  refine ⟨{ t with
    tab := some (t.slots.set from_.1 (chain.eraseIdx from_.2)), size := t.size - 1 },
    ?_, ⟨rfl, ?_, h.pow, h.placed.set fun x hx ↦ ?_, ?_⟩, hperm, rfl, ?_, fun i hi ↦ ?_⟩
  · rw [hDetach, h.alloc]
    simp only [Option.bind_eq_bind, Option.bind_some, hchain, hn]
  · exact (List.length_set ..).trans h.length_slots
  · exact h.placed _ _ hchain x (List.mem_of_mem_eraseIdx hx)
  · exact Nat.sub_eq_of_eq_add hlen
  · exact Nat.sub_add_cancel (hlen ▸ Nat.le_add_left 1 _)
  · change (t.slots.set from_.1 (chain.eraseIdx from_.2))[i]? = some []
    have hne : from_.1 ≠ i := by
      rintro rfl
      rw [hchain] at hi
      rw [Option.some_inj.mp hi] at hn
      cases hn
    rw [List.getElem?_set_ne hne, hi]

theorem hLoad_of_at {from_ : ChainPos} (h : t.WF) (hat : t.At from_ n) :
    hLoad t from_ = some n := by
  obtain ⟨chain, hchain, hn⟩ := hat
  rw [hLoad, h.alloc]
  simp only [Option.bind_eq_bind, Option.bind_some, hchain, hn]

/-- A node matches a lookup: equal hash codes, then the comparison. -/
def HNode.Matches (n : HNode α) (hcode : ℕ) (eq : α → Bool) : Prop :=
  n.hcode = hcode ∧ eq n.val = true

theorem hLookup_spec (h : t.Inv) (hcode : ℕ) (eq : α → Bool) :
    (hLookup t hcode eq = some none ∧ ∀ n ∈ t.nodes, ¬ n.Matches hcode eq) ∨
      ∃ from_ n, hLookup t hcode eq = some (some from_) ∧ t.WF ∧ t.At from_ n ∧
        n.Matches hcode eq := by
  rcases h with rfl | h
  · exact Or.inl ⟨rfl, fun n hn ↦ absurd hn (by simp)⟩
  obtain ⟨chain, hchain⟩ : ∃ chain, t.slots[hcode &&& t.mask]? = some chain :=
    ⟨_, List.getElem?_eq_getElem (h.slot_lt hcode)⟩
  have hcode' : hLookup t hcode eq
      = some ((chain.findIdx? fun cur ↦ cur.hcode == hcode && eq cur.val).map
          fun i ↦ (hcode &&& t.mask, i)) := by
    rw [hLookup, h.alloc]
    simp only [Option.bind_eq_bind, Option.bind_some, hchain]
  cases hfind : chain.findIdx? fun cur ↦ cur.hcode == hcode && eq cur.val with
  | none =>
    refine Or.inl ⟨by rw [hcode', hfind]; rfl, fun n hn hmatch ↦ ?_⟩
    -- a matching node would stand in the chain that was searched
    obtain ⟨b, hb, hnb⟩ := h.placed.mem_bucket hn
    rw [hmatch.1, hchain, Option.some_inj] at hb
    have hno := List.findIdx?_eq_none_iff.mp hfind n (hb ▸ hnb)
    simp [hmatch.1, hmatch.2] at hno
  | some i =>
    obtain ⟨hi, hp, -⟩ := List.findIdx?_eq_some_iff_getElem.mp hfind
    rw [Bool.and_eq_true, beq_iff_eq] at hp
    exact Or.inr ⟨(hcode &&& t.mask, i), chain[i], by rw [hcode', hfind]; rfl, h,
      ⟨chain, hchain, List.getElem?_eq_getElem hi⟩, hp⟩

/-! ## The two tables -/

namespace HMap

/-- The nodes of both tables. -/
def nodes (m : HMap α) : List (HNode α) := m.ht1.nodes ++ m.ht2.nodes

/-- The invariant of the map. While a migration runs, the newer table is twice as large, and the
cursor has passed empty slots only. -/
structure Inv (m : HMap α) : Prop where
  ht1 : m.ht1.Inv
  ht2 : m.ht2.Inv
  target : m.ht1 = {} → m.ht2 = {}
  double : m.ht2.WF → m.ht1.mask + 1 = 2 * (m.ht2.mask + 1)
  cursor : m.ht2.WF → ∀ i < m.resizingPos, m.ht2.slots[i]? = some []

theorem inv_empty : ({} : HMap α).Inv :=
  ⟨Or.inl rfl, Or.inl rfl, fun _ ↦ rfl, fun h ↦ absurd h.alloc (by simp),
    fun h ↦ absurd h.alloc (by simp)⟩

theorem Inv.ht2_wf (h : m.Inv) (hsize : 0 < m.ht2.size) : m.ht2.WF := by
  rcases h.ht2 with hempty | hwf
  · rw [hempty] at hsize
    exact absurd hsize (by simp)
  · exact hwf

theorem Inv.ht1_wf (h : m.Inv) (hwf : m.ht2.WF) : m.ht1.WF := by
  refine h.ht1.resolve_left fun hempty ↦ ?_
  have halloc := hwf.alloc
  rw [h.target hempty] at halloc
  cases halloc

theorem Inv.hmSize_eq (h : m.Inv) : hmSize m = m.nodes.length := by
  have hsize : ∀ t : HTab α, t.Inv → t.size = t.nodes.length := by
    rintro t (rfl | hwf)
    · rfl
    · exact hwf.size_eq
  rw [hmSize, nodes, List.length_append, hsize _ h.ht1, hsize _ h.ht2]

/-- The slot the cursor points to exists as long as a node is left to move. -/
theorem Inv.cursor_lt (h : m.Inv) (hsize : 0 < m.ht2.size) :
    m.resizingPos < m.ht2.slots.length := by
  have hwf := h.ht2_wf hsize
  rw [hwf.size_eq] at hsize
  obtain ⟨n, hn⟩ := List.exists_mem_of_length_pos hsize
  obtain ⟨chain, hchain, hnc⟩ := hwf.placed.mem_bucket hn
  have hlt := (List.getElem?_eq_some_iff.mp hchain).1
  refine lt_of_le_of_lt (not_lt.mp fun hpos ↦ ?_) hlt
  rw [h.cursor hwf _ hpos] at hchain
  rw [← Option.some_inj.mp hchain] at hnc
  cases hnc

end HMap

/-! ## The migration -/

/-- What one call of `hm_help_resizing` makes of a map. -/
structure Migrated (m m' : HMap α) : Prop where
  inv : m'.Inv
  perm : m'.nodes.Perm m.nodes
  mask : m'.ht1.mask = m.ht1.mask
  moved : m'.ht2.size = m.ht2.size - kResizingWork
  freed : m'.ht2 = {} ∨ 0 < m'.ht2.size ∧ m'.ht2.mask = m.ht2.mask

/-- One round moves the cursor over an empty slot, or one node into the newer table. -/
theorem hmHelpStep_spec (h : m.Inv) {w : ℕ} (hw : w < kResizingWork)
    (hsize : 0 < m.ht2.size) :
    ∃ m' w', hmHelpStep (m, w) = some (.inl (m', w')) ∧ m'.Inv ∧ m'.nodes.Perm m.nodes ∧
      m'.ht1.mask = m.ht1.mask ∧ m'.ht2.mask = m.ht2.mask ∧ w' ≤ kResizingWork ∧
      m'.ht2.size + w' = m.ht2.size + w ∧
      m'.ht2.size + (m'.ht2.mask + 1 - m'.resizingPos)
        < m.ht2.size + (m.ht2.mask + 1 - m.resizingPos) := by
  have hwf := h.ht2_wf hsize
  have hwf1 := h.ht1_wf hwf
  have hlt := h.cursor_lt hsize
  obtain ⟨chain, hchain⟩ : ∃ chain, m.ht2.slots[m.resizingPos]? = some chain :=
    ⟨_, List.getElem?_eq_getElem hlt⟩
  rw [hwf.length_slots] at hlt
  have hcond : w < kResizingWork ∧ m.ht2.size > 0 := ⟨hw, hsize⟩
  rcases chain with _ | ⟨n, rest⟩
  · -- an empty slot: the cursor moves on
    refine ⟨{ m with resizingPos := m.resizingPos + 1 }, w, ?_,
      ⟨h.ht1, h.ht2, h.target, h.double, fun _ i hi ↦ ?_⟩, List.Perm.refl _, rfl, rfl, hw.le,
      rfl, ?_⟩
    · rw [hmHelpStep, hwf.alloc]
      simp only [hcond, if_true, Option.bind_eq_bind, Option.bind_some, hchain, and_self]
    · rcases Nat.lt_succ_iff_lt_or_eq.mp hi with hi | rfl
      · exact h.cursor hwf i hi
      · exact hchain
    · change m.ht2.size + (m.ht2.mask + 1 - (m.resizingPos + 1)) < _
      omega
  · -- the first node of the chain changes the table
    have hat : m.ht2.At (m.resizingPos, 0) n := ⟨_, hchain, rfl⟩
    obtain ⟨t2, hdet, hwf2', hperm2, hmask2, hsize2, hempty⟩ := hDetach_spec hwf hat
    obtain ⟨t1, hins, hwf1', hperm1, hmask1, -⟩ := hInsert_spec hwf1 n
    refine ⟨{ m with ht1 := t1, ht2 := t2 }, w + 1, ?_,
      ⟨Or.inr hwf1', Or.inr hwf2', fun heq ↦ ?_, fun _ ↦ ?_, fun _ i hi ↦ ?_⟩, ?_, hmask1, hmask2,
      hw, ?_, ?_⟩
    · rw [hmHelpStep, hwf.alloc]
      simp only [hcond, if_true, Option.bind_eq_bind, Option.bind_some, hchain, hdet, hins,
        and_self]
    · exact absurd hwf1'.alloc (by rw [show t1 = {} from heq]; simp)
    · change t1.mask + 1 = 2 * (t2.mask + 1)
      rw [hmask1, hmask2, h.double hwf]
    · exact hempty i (h.cursor hwf i hi)
    · exact (hperm1.append_right _).trans (List.perm_middle.symm.trans (hperm2.symm.append_left _))
    · change t2.size + (w + 1) = m.ht2.size + w
      omega
    · change t2.size + (t2.mask + 1 - m.resizingPos) < _
      rw [hmask2]
      omega

theorem hmHelpStep_inv {s s' : HMap α × ℕ} (h : s.1.Inv) (hstep : hmHelpStep s = some (.inl s')) :
    s'.1.Inv := by
  by_cases hcond : s.2 < kResizingWork ∧ s.1.ht2.size > 0
  · obtain ⟨m', w', hstep', hinv, -⟩ := hmHelpStep_spec h hcond.1 hcond.2
    cases hstep'.symm.trans hstep
    exact hinv
  · rw [hmHelpStep, if_neg hcond] at hstep
    cases hstep

/-- **The migration step.** It ends, moves up to `k_resizing_work` nodes, loses none, and frees the
older table once that is empty. -/
theorem hmHelpResizing_spec (h : m.Inv) : ∃ m', hmHelpResizing m = some m' ∧ Migrated m m' := by
  -- what is moved and what is left add up; the measure also counts the slots ahead
  let I : HMap α × ℕ → Prop := fun s ↦ s.1.Inv ∧ s.1.nodes.Perm m.nodes ∧
    s.1.ht1.mask = m.ht1.mask ∧ s.1.ht2.mask = m.ht2.mask ∧ s.2 ≤ kResizingWork ∧
    s.1.ht2.size + s.2 = m.ht2.size
  obtain ⟨m₁, hloop, hinv, hperm, hmask1, hmask2, hmoved⟩ := WhileLoop.total (I := I)
    (Q := fun m' : HMap α ↦ m'.Inv ∧ m'.nodes.Perm m.nodes ∧ m'.ht1.mask = m.ht1.mask ∧
      m'.ht2.mask = m.ht2.mask ∧ m'.ht2.size = m.ht2.size - kResizingWork)
    (fun s ↦ s.1.ht2.size + (s.1.ht2.mask + 1 - s.1.resizingPos))
    (fun ⟨m₁, w⟩ ⟨hinv, hperm, hmask1, hmask2, hw, hsum⟩ ↦ by
      dsimp only at hinv hperm hmask1 hmask2 hw hsum ⊢
      by_cases hcond : w < kResizingWork ∧ 0 < m₁.ht2.size
      · obtain ⟨m₂, w₂, hstep, hinv₂, hperm₂, hm1, hm2, hw₂, hsum₂, hlt⟩ :=
          hmHelpStep_spec hinv hcond.1 hcond.2
        exact Or.inl ⟨(m₂, w₂), hstep, ⟨hinv₂, hperm₂.trans hperm, hm1.trans hmask1,
          hm2.trans hmask2, hw₂, hsum₂.trans hsum⟩, hlt⟩
      · refine Or.inr ⟨m₁, if_neg hcond, hinv, hperm, hmask1, hmask2, ?_⟩
        omega)
    (s := (m, 0)) ⟨h, List.Perm.refl _, rfl, rfl, Nat.zero_le _, rfl⟩
  have hcode : hmHelpResizing m
      = if m₁.ht2.size = 0 ∧ m₁.ht2.tab.isSome then some { m₁ with ht2 := {} } else some m₁ := by
    rw [hmHelpResizing, hloop]
    rfl
  by_cases hdone : m₁.ht2.size = 0 ∧ m₁.ht2.tab.isSome
  · rw [if_pos hdone] at hcode
    have hnil : m₁.ht2.nodes = [] := by
      rcases hinv.ht2 with hempty | hwf
      · rw [hempty, HTab.nodes_empty]
      · exact List.length_eq_zero_iff.mp (hwf.size_eq.symm.trans hdone.1)
    refine ⟨_, hcode, ⟨hinv.ht1, Or.inl rfl, fun _ ↦ rfl, fun hwf ↦ ?_, fun hwf ↦ ?_⟩, ?_, hmask1,
      ?_, Or.inl rfl⟩
    · exact absurd hwf.alloc (by simp)
    · exact absurd hwf.alloc (by simp)
    · refine List.Perm.trans (List.Perm.of_eq ?_) hperm
      rw [HMap.nodes, HMap.nodes, hnil]
      rfl
    · exact hdone.1.symm.trans hmoved
  · rw [if_neg hdone] at hcode
    refine ⟨m₁, hcode, hinv, hperm, hmask1, hmoved, ?_⟩
    rcases hinv.ht2 with hempty | hwf
    · exact Or.inl hempty
    · refine Or.inr ⟨Nat.pos_of_ne_zero fun hzero ↦ hdone ⟨hzero, ?_⟩, hmask2⟩
      rw [hwf.alloc, Option.isSome_some]

/-! ## The operations -/

/-- The map after the first half of `hm_insert`, which hangs the node into the newer table. -/
def hmPlace (hmap : HMap α) (node : HNode α) : Option (HMap α) := do
  let ht1 ← (if hmap.ht1.tab.isNone then hInit 4 else some hmap.ht1 : Option (HTab α))
  let ht1 ← hInsert ht1 node
  some { hmap with ht1 := ht1 }

theorem hmInsert_eq (m : HMap α) (n : HNode α) :
    hmInsert m n = (hmPlace m n).bind fun m ↦ (hmCheckLoad m).bind hmHelpResizing := by
  rw [hmInsert, hmPlace]
  simp only [Option.bind_eq_bind, Option.bind_assoc, Option.bind_some]

theorem hmPlace_spec (h : m.Inv) (n : HNode α) :
    ∃ m', hmPlace m n = some m' ∧ m'.Inv ∧ m'.ht1.WF ∧ m'.nodes.Perm (n :: m.nodes) ∧
      m'.ht2 = m.ht2 ∧
      (m.ht1.tab = none ∧ m'.ht1.mask + 1 = 4 ∨ m.ht1.tab ≠ none ∧ m'.ht1.mask = m.ht1.mask) := by
  obtain ⟨t, hinit, hwf, hnodes, hmask⟩ : ∃ t,
      (if m.ht1.tab.isNone then hInit 4 else some m.ht1) = some t ∧ t.WF ∧ t.nodes = m.ht1.nodes ∧
        (m.ht1.tab = none ∧ t.mask + 1 = 4 ∨ m.ht1.tab ≠ none ∧ t.mask = m.ht1.mask) := by
    rcases h.ht1 with hempty | hwf
    · obtain ⟨t, hinit, hwf, hnodes, hmask⟩ := @hInit_spec α 2
      exact ⟨t, by rw [hempty]; exact hinit, hwf, by rw [hnodes, hempty]; rfl,
        Or.inl ⟨by rw [hempty], hmask⟩⟩
    · exact ⟨m.ht1, by rw [hwf.alloc]; rfl, hwf, rfl, Or.inr ⟨by rw [hwf.alloc]; simp, rfl⟩⟩
  obtain ⟨t', hins, hwf', hperm, hmask', -⟩ := hInsert_spec hwf n
  refine ⟨{ m with ht1 := t' }, ?_, ⟨Or.inr hwf', h.ht2, fun heq ↦ ?_, fun hwf2 ↦ ?_, h.cursor⟩,
    hwf', ?_, rfl, by rw [hmask']; exact hmask⟩
  · rw [hmPlace, hinit]
    simp only [Option.bind_eq_bind, Option.bind_some, hins]
  · exact absurd hwf'.alloc (by rw [show t' = {} from heq]; simp)
  · have halloc : m.ht1.tab ≠ none := by
      rw [(h.ht1_wf hwf2).alloc]
      simp
    change t'.mask + 1 = _
    rw [hmask', (hmask.resolve_left fun hnone ↦ halloc hnone.1).2]
    exact h.double hwf2
  · refine (hperm.append_right _).trans (List.Perm.of_eq ?_)
    rw [hnodes, List.cons_append, HMap.nodes]

/-- The load check may make the newer table the older one: only if there is no older one, and the
newer one is full. -/
theorem hmCheckLoad_spec (h : m.Inv) (hwf : m.ht1.WF) :
    ∃ m', hmCheckLoad m = some m' ∧ m'.Inv ∧ m'.nodes.Perm m.nodes ∧
      (m' = m ∧ (m.ht2.tab = none → m.ht1.size < 9 * (m.ht1.mask + 1)) ∨
        m.ht2.tab = none ∧ hmStartResizing m = some m' ∧ m'.ht2 = m.ht1 ∧
          m'.ht1.mask + 1 = 2 * (m.ht1.mask + 1)) := by
  by_cases hload : m.ht2.tab.isNone ∧ m.ht1.size / (m.ht1.mask + 1) > kMaxLoadFactor
  · have hnone : m.ht2 = {} := h.ht2.resolve_right fun hwf2 ↦ by
      rw [hwf2.alloc] at hload
      exact absurd hload.1 (by simp)
    obtain ⟨k, hk⟩ := hwf.pow
    obtain ⟨t, hinit, hwf', hnodes, hmask⟩ := @hInit_spec α (k + 1)
    rw [pow_succ, ← hk] at hinit hmask
    have hstart : hmStartResizing m = some { ht1 := t, ht2 := m.ht1, resizingPos := 0 } := by
      simp only [hmStartResizing, hnone, hinit, Option.bind_eq_bind, Option.bind_some]
    refine ⟨_, by rw [hmCheckLoad, if_pos hload, hstart], ⟨Or.inr hwf', Or.inr hwf,
      fun heq ↦ ?_, fun _ ↦ ?_, fun _ i hi ↦ absurd hi (Nat.not_lt_zero i)⟩, ?_,
      Or.inr ⟨by rw [hnone], hstart, rfl, hmask.trans (Nat.mul_comm _ _)⟩⟩
    · exact absurd hwf'.alloc (by rw [show t = {} from heq]; simp)
    · exact hmask.trans (Nat.mul_comm _ _)
    · refine List.Perm.of_eq ?_
      rw [HMap.nodes, HMap.nodes, hnodes, hnone, HTab.nodes_empty, List.append_nil,
        List.nil_append]
  · refine ⟨m, by rw [hmCheckLoad, if_neg hload], h, List.Perm.refl _,
      Or.inl ⟨rfl, fun hnone ↦ ?_⟩⟩
    rw [hnone, not_and, not_lt] at hload
    exact (Nat.div_lt_iff_lt_mul (Nat.succ_pos _)).mp (Nat.lt_succ_of_le (hload rfl))

/-- **Insertion.** The node is added to the content. -/
theorem hmInsert_spec (h : m.Inv) (n : HNode α) :
    ∃ m', hmInsert m n = some m' ∧ m'.Inv ∧ m'.nodes.Perm (n :: m.nodes) := by
  obtain ⟨m₁, hplace, hinv₁, hwf₁, hperm₁, -⟩ := hmPlace_spec h n
  obtain ⟨m₂, hload, hinv₂, hperm₂, -⟩ := hmCheckLoad_spec hinv₁ hwf₁
  obtain ⟨m', hhelp, hmig⟩ := hmHelpResizing_spec hinv₂
  refine ⟨m', ?_, hmig.inv, hmig.perm.trans (hperm₂.trans hperm₁)⟩
  rw [hmInsert_eq, hplace, Option.bind_some, hload, Option.bind_some, hhelp]

/-- **Lookup.** The content stays, and the answer is a matching node if there is one. -/
theorem hmLookup_spec (h : m.Inv) (hcode : ℕ) (eq : α → Bool) :
    ∃ m' r, hmLookup m hcode eq = some (m', r) ∧ m'.Inv ∧ m'.nodes.Perm m.nodes ∧
      match r with
      | none => ∀ n ∈ m.nodes, ¬ n.Matches hcode eq
      | some n => n ∈ m.nodes ∧ n.Matches hcode eq := by
  obtain ⟨m₁, hhelp, hmig⟩ := hmHelpResizing_spec h
  rcases hLookup_spec hmig.inv.ht1 hcode eq with ⟨hl1, hno1⟩ | ⟨from_, n, hl1, hwf1, hat, hmatch⟩
  · rcases hLookup_spec hmig.inv.ht2 hcode eq with
      ⟨hl2, hno2⟩ | ⟨from_, n, hl2, hwf2, hat, hmatch⟩
    · refine ⟨m₁, none, ?_, hmig.inv, hmig.perm, fun n hn ↦ ?_⟩
      · simp only [hmLookup, hhelp, hl1, hl2, Option.bind_eq_bind, Option.bind_some]
      · rcases List.mem_append.mp (hmig.perm.mem_iff.mpr hn) with hn | hn
        · exact hno1 n hn
        · exact hno2 n hn
    · refine ⟨m₁, some n, ?_, hmig.inv, hmig.perm, hmig.perm.mem_iff.mp ?_, hmatch⟩
      · simp only [hmLookup, hhelp, hl1, hl2, hLoad_of_at hwf2 hat, Option.bind_eq_bind,
          Option.bind_some]
      · exact List.mem_append_right _ hat.mem
  · refine ⟨m₁, some n, ?_, hmig.inv, hmig.perm, hmig.perm.mem_iff.mp ?_, hmatch⟩
    · simp only [hmLookup, hhelp, hl1, hLoad_of_at hwf1 hat, Option.bind_eq_bind, Option.bind_some]
    · exact List.mem_append_left _ hat.mem

/-- **Removal.** A matching node leaves the content if there is one. -/
theorem hmPop_spec (h : m.Inv) (hcode : ℕ) (eq : α → Bool) :
    ∃ m' r, hmPop m hcode eq = some (m', r) ∧ m'.Inv ∧
      match r with
      | none => m'.nodes.Perm m.nodes ∧ ∀ n ∈ m.nodes, ¬ n.Matches hcode eq
      | some n => m.nodes.Perm (n :: m'.nodes) ∧ n.Matches hcode eq := by
  obtain ⟨m₁, hhelp, hmig⟩ := hmHelpResizing_spec h
  have hinv := hmig.inv
  rcases hLookup_spec hinv.ht1 hcode eq with ⟨hl1, hno1⟩ | ⟨from_, n, hl1, hwf1, hat, hmatch⟩
  · rcases hLookup_spec hinv.ht2 hcode eq with ⟨hl2, hno2⟩ | ⟨from_, n, hl2, hwf2, hat, hmatch⟩
    · refine ⟨m₁, none, ?_, hinv, hmig.perm, fun n hn ↦ ?_⟩
      · simp only [hmPop, hhelp, hl1, hl2, Option.bind_eq_bind, Option.bind_some]
      · rcases List.mem_append.mp (hmig.perm.mem_iff.mpr hn) with hn | hn
        · exact hno1 n hn
        · exact hno2 n hn
    · obtain ⟨t', hdet, hwf', hperm, hmask, -, hempty⟩ := hDetach_spec hwf2 hat
      refine ⟨{ m₁ with ht2 := t' }, some n, ?_, ⟨hinv.ht1, Or.inr hwf', fun heq ↦ ?_, fun _ ↦ ?_,
        fun _ i hi ↦ hempty i (hinv.cursor hwf2 i hi)⟩, ?_, hmatch⟩
      · simp only [hmPop, hhelp, hl1, hl2, hdet, Option.bind_eq_bind, Option.bind_some]
      · exact absurd hwf2.alloc (by rw [hinv.target heq]; simp)
      · rw [hmask]
        exact hinv.double hwf2
      · exact hmig.perm.symm.trans ((hperm.append_left _).trans List.perm_middle)
  · obtain ⟨t', hdet, hwf', hperm, hmask, -⟩ := hDetach_spec hwf1 hat
    refine ⟨{ m₁ with ht1 := t' }, some n, ?_, ⟨Or.inr hwf', hinv.ht2, fun heq ↦ ?_, fun hwf2 ↦ ?_,
      hinv.cursor⟩, ?_, hmatch⟩
    · simp only [hmPop, hhelp, hl1, hdet, Option.bind_eq_bind, Option.bind_some]
    · exact absurd hwf'.alloc (by rw [show t' = {} from heq]; simp)
    · rw [hmask]
      exact hinv.double hwf2
    · exact hmig.perm.symm.trans (hperm.append_right _)

theorem hScan_spec (h : t.Inv) : hScan t = some t.nodes := by
  rcases h with rfl | h
  · rfl
  by_cases hsize : t.size = 0
  · have hnil : t.nodes = [] := List.length_eq_zero_iff.mp (h.size_eq.symm.trans hsize)
    rw [hScan, if_pos hsize, hnil]
  · have hread : (List.range (t.mask + 1)).mapM (fun i ↦ t.slots[i]?) = some t.slots := by
      rw [← h.length_slots]
      exact List.mapM_getElem?_range t.slots
    rw [hScan, if_neg hsize, h.alloc]
    simp only [Option.bind_eq_bind, Option.bind_some, hread]
    rfl

end RedisOnC
