import RedisOnC.Hashtable.Migration
import RedisOnC.Lib.Rounds

/-!
# What resizing costs

`k_resizing_work` bounds the nodes that one call of `hm_help_resizing` moves. It does not bound the
rounds of the loop, for an empty slot that the cursor passes is not counted. Over a run the rounds
are bounded all the same. What a migration has to do, its nodes and its slots, is known when it
starts; the table was full then, and the next one starts after as many nodes more. So the sum over
all migrations is paid for by the insertions (`HMap.Paid`): lookups and removals cost nothing.
-/

namespace RedisOnC

variable {α κ : Type} {m m' m₁ m₂ : HMap α}

/-- The rounds of the loop in `hm_help_resizing`. -/
def hmHelpRounds (m : HMap α) : Option ℕ := WhileLoop.rounds hmHelpStep (m, 0)

/-- What is left of a migration: a round for each node, and one for each slot. -/
def HMap.work (m : HMap α) : ℕ :=
  if m.ht2.tab = none then 0 else m.ht2.size + (m.ht2.mask + 1 - m.resizingPos)

theorem HMap.work_le (m : HMap α) : m.work ≤ m.ht2.size + (m.ht2.mask + 1 - m.resizingPos) := by
  rw [work]
  split
  · exact Nat.zero_le _
  · exact le_rfl

/-- **One call of `hm_help_resizing`** pays for its rounds with what is left of the migration. -/
theorem exists_hmHelpRounds (h : m.Inv) (hhelp : hmHelpResizing m = some m') :
    ∃ n, hmHelpRounds m = some n ∧ n + m'.work ≤ m.work := by
  obtain ⟨m₁, hloop, hexit⟩ := Option.bind_eq_some_iff.mp hhelp
  have hcont : ∀ s s' : HMap α × ℕ, s.1.Inv → hmHelpStep s = some (.inl s') →
      s'.1.Inv ∧ s'.1.work < s.1.work := by
    rintro ⟨m, w⟩ ⟨m₂, w₂⟩ hs hbody
    refine ⟨hmHelpStep_inv hs hbody, ?_⟩
    by_cases hcond : w < kResizingWork ∧ 0 < m.ht2.size
    · obtain ⟨m₂', w₂', hbody', -, -, -, -, -, -, hlt⟩ := hmHelpStep_spec hs hcond.1 hcond.2
      obtain ⟨rfl, -⟩ := Prod.mk.inj (Sum.inl.inj (Option.some_inj.mp (hbody'.symm.trans hbody)))
      have halloc : m.ht2.tab ≠ none := by
        rw [(hs.ht2_wf hcond.2).alloc]
        exact Option.some_ne_none _
      exact m₂'.work_le.trans_lt (hlt.trans_eq (if_neg halloc).symm)
    · have hexit' : hmHelpStep (m, w) = some (.inr m) := if_neg hcond
      exact absurd (Option.some_inj.mp (hbody.symm.trans hexit')) Sum.inl_ne_inr
  have hend : ∀ (s : HMap α × ℕ) r, s.1.Inv → hmHelpStep s = some (.inr r) →
      r.work ≤ s.1.work := by
    rintro ⟨m, w⟩ r hs hbody
    by_cases hcond : w < kResizingWork ∧ 0 < m.ht2.size
    · obtain ⟨m₂, w₂, hbody', -⟩ := hmHelpStep_spec hs hcond.1 hcond.2
      exact absurd (Option.some_inj.mp (hbody.symm.trans hbody')) Sum.inr_ne_inl
    · have hexit' : hmHelpStep (m, w) = some (.inr m) := if_neg hcond
      obtain rfl := Sum.inr.inj (Option.some_inj.mp (hbody.symm.trans hexit'))
      exact le_rfl
  obtain ⟨n, hn, hle⟩ := WhileLoop.exists_rounds (fun s : HMap α × ℕ ↦ s.1.work) HMap.work hcont
    hend h hloop
  refine ⟨n, hn, le_trans (Nat.add_le_add_left ?_ n) hle⟩
  split at hexit
  · obtain rfl := Option.some_inj.mp hexit
    exact (if_pos rfl).trans_le (Nat.zero_le _)
  · obtain rfl := Option.some_inj.mp hexit
    exact le_rfl

/-! ## Paying for the rounds -/

/-- After so many insertions and rounds. Before the first migration no round has been made. After
that, what has been done and what is left are bounded by the slots of the newer table, and these by
the insertions. -/
structure HMap.Paid (m : HMap α) (insertions rounds : ℕ) : Prop where
  size_le : hmSize m ≤ insertions
  cost : m.ht2.tab = none ∧ m.ht1.mask + 1 ≤ 4 ∧ rounds = 0 ∨
    m.ht1.mask ≠ 0 ∧ 9 * (m.ht1.mask + 1) ≤ 2 * insertions ∧
      rounds + m.work ≤ 10 * (m.ht1.mask + 1)

variable {I C n : ℕ}

theorem HMap.paid_empty : ({} : HMap α).Paid 0 0 :=
  ⟨le_rfl, Or.inl ⟨rfl, Nat.le_add_left 1 3, rfl⟩⟩

namespace HMap.Paid

theorem rounds_le (h : m.Paid I C) : 9 * C ≤ 20 * I := by
  rcases h.cost with ⟨-, -, rfl⟩ | ⟨-, hslots, hsum⟩
  · exact Nat.zero_le _
  · omega

theorem slots_le (h : m.Paid I C) : C ≤ 10 * (m.ht1.mask + 1) := by
  rcases h.cost with ⟨-, -, rfl⟩ | ⟨-, -, hsum⟩
  · exact Nat.zero_le _
  · exact (Nat.le_add_right C m.work).trans hsum

theorem mono (h : m.Paid I C) (hsize : hmSize m' ≤ hmSize m) (hmask : m'.ht1.mask = m.ht1.mask)
    (hwork : m'.work ≤ m.work) (hidle : m.ht2.tab = none → m'.ht2.tab = none) : m'.Paid I C := by
  refine ⟨hsize.trans h.size_le, ?_⟩
  rw [hmask]
  rcases h.cost with ⟨hnone, hslots, hzero⟩ | ⟨hmask, hslots, hsum⟩
  · exact Or.inl ⟨hidle hnone, hslots, hzero⟩
  · exact Or.inr ⟨hmask, hslots, (Nat.add_le_add_left hwork C).trans hsum⟩

theorem help (h : m₁.Paid I C) (hinv : m₁.Inv) (hmig : Migrated m₁ m₂)
    (hn : n + m₂.work ≤ m₁.work) : m₂.Paid I (C + n) := by
  refine ⟨(hmig.hmSize_eq hinv).trans_le h.size_le, ?_⟩
  rw [hmig.mask]
  rcases h.cost with ⟨hnone, hslots, hzero⟩ | ⟨hmask, hslots, hsum⟩
  · have hmoved := hmig.moved
    have hwork : m₁.work = 0 := if_pos hnone
    rw [hinv.ht2.tab_eq_none hnone, Nat.zero_sub] at hmoved
    refine Or.inl ⟨?_, hslots, by omega⟩
    rw [hmig.freed.resolve_right fun hpos ↦ hpos.1.ne' hmoved]
  · exact Or.inr ⟨hmask, hslots, by omega⟩

end HMap.Paid

/-- The load check starts a migration only when the table is full. -/
theorem hmCheckLoad_full (h : m.Inv) (hwf : m.ht1.WF) (hcheck : hmCheckLoad m = some m') :
    m' = m ∨ 9 * (m.ht1.mask + 1) ≤ m.ht1.size ∧ hmSize m' = hmSize m ∧ m'.ht2 = m.ht1 ∧
      m'.ht1.mask + 1 = 2 * (m.ht1.mask + 1) := by
  obtain ⟨m₁, hcheck₁, h₁, hperm, hcases⟩ := hmCheckLoad_spec h hwf
  obtain rfl := Option.some_inj.mp (hcheck₁.symm.trans hcheck)
  rcases hcases with ⟨heq, -⟩ | ⟨-, -, hold, hmask⟩
  · exact Or.inl heq
  by_cases hfull : m.ht2.tab.isNone ∧ m.ht1.size / (m.ht1.mask + 1) > kMaxLoadFactor
  · refine Or.inr ⟨?_, by rw [h₁.hmSize_eq, h.hmSize_eq, hperm.length_eq], hold, hmask⟩
    exact (Nat.le_div_iff_mul_le (Nat.succ_pos _)).mp hfull.2
  · rw [hmCheckLoad, if_neg hfull] at hcheck
    exact Or.inl (Option.some_inj.mp hcheck).symm

/-- An insertion pays for its node, and for a migration that starts at it. -/
theorem HMap.Paid.insert (hpaid : m.Paid I C) (h : m.Inv) (hload : m.Load) {node : HNode α}
    (hplace : hmPlace m node = some m₁) (hcheck : hmCheckLoad m₁ = some m₂) :
    m₂.Paid (I + 1) C := by
  obtain ⟨m₁', hplace', h₁, hwf₁, hperm, hht2, hmask⟩ := hmPlace_spec h node
  obtain rfl := Option.some_inj.mp (hplace'.symm.trans hplace)
  have hsize : hmSize m₁' = hmSize m + 1 := by
    rw [h₁.hmSize_eq, h.hmSize_eq, hperm.length_eq, List.length_cons]
  have hwork : m₁'.work = m.work := by
    obtain ⟨t, -, hplace⟩ := Option.bind_eq_some_iff.mp hplace
    obtain ⟨t', -, heq⟩ := Option.bind_eq_some_iff.mp hplace
    obtain rfl := Option.some_inj.mp heq
    rfl
  have hfirst : m.ht1.tab = none → m.ht1.mask = 0 ∧ hmSize m = 0 := by
    intro hnone
    have hempty := h.ht1.tab_eq_none hnone
    rw [hmSize, h.target hempty, hempty]
    exact ⟨rfl, rfl⟩
  have hpaid₁ : m₁'.Paid (I + 1) C := by
    refine ⟨hsize.trans_le (Nat.succ_le_succ hpaid.size_le), ?_⟩
    rw [hht2, hwork]
    rcases hpaid.cost with ⟨hnone, hslots, hzero⟩ | ⟨hne, hslots, hsum⟩
    · exact Or.inl ⟨hnone, by omega, hzero⟩
    · have hkeep : m₁'.ht1.mask = m.ht1.mask :=
        (hmask.resolve_left fun hnone ↦ hne (hfirst hnone.1).1).2
      rw [hkeep]
      exact Or.inr ⟨hne, by omega, hsum⟩
  rcases hmCheckLoad_full h₁ hwf₁ hcheck with rfl | ⟨hfull, hsize₂, hold, hdouble⟩
  · exact hpaid₁
  · -- ten rounds for each slot of the table that was full, and as many were made before
    have hlt := hload.hmSize_lt
    have hfit : hmSize m + 1 ≤ 9 * (m₁'.ht1.mask + 1) := by
      rcases hmask with ⟨hnone, hfour⟩ | ⟨-, hkeep⟩
      · have hzero := (hfirst hnone).2
        omega
      · rw [hkeep]
        exact hlt
    have hpart : m₁'.ht1.size ≤ hmSize m₁' := Nat.le_add_right _ _
    have hrounds := hpaid₁.slots_le
    have hbound := hpaid₁.size_le
    have hleft := m₂.work_le
    rw [hold] at hleft
    refine ⟨hsize₂.trans_le hpaid₁.size_le, Or.inr ⟨by omega, by omega, by omega⟩⟩

theorem HMap.Paid.detach (hpaid : m.Paid I C) {from_ : ChainPos} {t : HTab α} {node : HNode α} :
    (hDetach m.ht1 from_ = some (t, node) → HMap.Paid { m with ht1 := t } I C) ∧
      (hDetach m.ht2 from_ = some (t, node) → HMap.Paid { m with ht2 := t } I C) := by
  constructor
  · intro hdet
    obtain ⟨-, -, hmask, hsize⟩ := hDetach_eq hdet
    refine hpaid.mono ?_ hmask le_rfl fun hnone ↦ hnone
    exact Nat.add_le_add_right (hsize.trans_le (Nat.sub_le _ _)) _
  · intro hdet
    obtain ⟨-, halloc, hmask, hsize⟩ := hDetach_eq hdet
    have hle : t.size ≤ m.ht2.size := hsize.trans_le (Nat.sub_le _ _)
    refine hpaid.mono (Nat.add_le_add_left hle _) rfl ?_ fun hnone ↦ absurd hnone halloc
    refine (HMap.work_le _).trans ?_
    rw [work, if_neg halloc, hmask]
    exact Nat.add_le_add_right hle _

/-! ## One call and every run -/

namespace HMapCall

/-- The insertions among the calls. -/
def insertions : List (HMapCall α κ) → ℕ
  | [] => 0
  | insert _ :: calls => insertions calls + 1
  | lookup _ :: calls => insertions calls
  | pop _ :: calls => insertions calls

variable (hash : κ → ℕ) (eq : α → κ → Bool)

/-- The rounds of `hm_help_resizing` in a sequence of calls. -/
def rounds (m : HMap α) : List (HMapCall α κ) → Option ℕ
  | [] => some 0
  | call :: calls => do
    let m₁ ← call.helped m
    let n ← hmHelpRounds m₁
    let (m, _) ← call.exec hash eq m
    let ns ← rounds m calls
    some (n + ns)

theorem exec_paid (h : m.Inv) (hload : m.Load) (hpaid : m.Paid I C) (call : HMapCall α κ) :
    ∃ m₁ n m' r, call.helped m = some m₁ ∧ hmHelpRounds m₁ = some n ∧
      call.exec hash eq m = some (m', r) ∧ m'.Inv ∧ m'.Load ∧
      m'.Paid (I + insertions [call]) (C + n) := by
  obtain ⟨m₁, m₂, m', r, hhelped, h₁, hhelp, hmig, hexec, h', hload', -⟩ :=
    exec_load hash eq h hload call
  obtain ⟨n, hn, hle⟩ := exists_hmHelpRounds h₁ hhelp
  refine ⟨m₁, n, m', r, hhelped, hn, hexec, h', hload', ?_⟩
  cases call with
  | insert node =>
    obtain ⟨m₀, hplace, hcheck⟩ := Option.bind_eq_some_iff.mp hhelped
    have hpaid₂ := (hpaid.insert h hload hplace hcheck).help h₁ hmig hle
    rw [exec, hmInsert_eq, hplace, Option.bind_some, hcheck, Option.bind_some, hhelp] at hexec
    rw [← (Prod.mk.inj (Option.some_inj.mp hexec)).1]
    exact hpaid₂
  | lookup key =>
    obtain rfl := Option.some_inj.mp hhelped
    obtain rfl := Option.some_inj.mp (hhelp.symm.trans (hmLookup_helped hexec))
    exact hpaid.help h hmig hle
  | pop key =>
    obtain rfl := Option.some_inj.mp hhelped
    have hpaid₂ := hpaid.help h hmig hle
    obtain ⟨m₂', hhelp', hcases⟩ := hmPop_cases hexec
    obtain rfl := Option.some_inj.mp (hhelp.symm.trans hhelp')
    rcases hcases with rfl | ⟨from_, t, node, hdet, rfl⟩ | ⟨from_, t, node, hdet, rfl⟩
    · exact hpaid₂
    · exact hpaid₂.detach.1 hdet
    · exact hpaid₂.detach.2 hdet

theorem insertions_cons (call : HMapCall α κ) (calls : List (HMapCall α κ)) :
    insertions (call :: calls) = insertions [call] + insertions calls := by
  cases call with
  | insert node => exact Nat.add_comm _ _
  | lookup key => exact (Nat.zero_add _).symm
  | pop key => exact (Nat.zero_add _).symm

theorem rounds_paid (h : m.Inv) (hload : m.Load) (hpaid : m.Paid I C)
    (calls : List (HMapCall α κ)) :
    ∃ m' rs n, execAll hash eq m calls = some (m', rs) ∧ rounds hash eq m calls = some n ∧
      m'.Paid (I + insertions calls) (C + n) := by
  induction calls generalizing m I C with
  | nil => exact ⟨m, [], 0, rfl, rfl, hpaid⟩
  | cons call calls ih =>
    obtain ⟨m₁, n, m', r, hhelped, hn, hexec, h', hload', hpaid'⟩ :=
      exec_paid hash eq h hload hpaid call
    obtain ⟨m'', rs, n', hexecs, hns, hpaid''⟩ := ih h' hload' hpaid'
    refine ⟨m'', r :: rs, n + n', ?_, ?_, ?_⟩
    · rw [execAll, hexec]
      simp only [Option.bind_eq_bind, Option.bind_some, hexecs]
    · rw [rounds, hhelped]
      simp only [Option.bind_eq_bind, Option.bind_some, hn, hexec, hns]
    · rw [insertions_cons, ← Nat.add_assoc, ← Nat.add_assoc]
      exact hpaid''

end HMapCall

/-- **Resizing costs an insertion a constant.** From the empty map, whatever the calls, the hash
codes and the comparison: all rounds of the loop of `hm_help_resizing`, those that move a node and
those that pass an empty slot, are together at most 20/9 of the number of insertions. -/
theorem hmap_rounds_amortized (hash : κ → ℕ) (eq : α → κ → Bool) (calls : List (HMapCall α κ)) :
    ∃ m rs n, HMapCall.execAll hash eq ({} : HMap α) calls = some (m, rs) ∧
      HMapCall.rounds hash eq ({} : HMap α) calls = some n ∧
      9 * n ≤ 20 * HMapCall.insertions calls := by
  obtain ⟨m, rs, n, hexec, hn, hpaid⟩ := HMapCall.rounds_paid hash eq HMap.inv_empty
    HMap.load_empty HMap.paid_empty calls
  have hle := hpaid.rounds_le
  rw [Nat.zero_add, Nat.zero_add] at hle
  exact ⟨m, rs, n, hexec, hn, hle⟩

end RedisOnC
