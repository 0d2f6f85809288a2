import RedisOnC.Hashtable.Refine
import Mathlib.Logic.Relation

/-!
# The course of a migration

The load factor is tested only while no migration runs, and the loop of `hm_help_resizing` has no
bound check on its cursor. Both are safe for the same reason: the older table loses up to
`k_resizing_work` nodes in every call. While it is allocated, the sum of `hm_size` and of what is
left in it never grows (`HMap.Load.busy`), so it is empty before the newer table is full; and while
its size is positive, some chain at or above the cursor is not empty.

Nothing is assumed about the calls: the comparison and the hash code are arbitrary functions.
-/

namespace RedisOnC

variable {α κ : Type} {m m' : HMap α}

/-! ## The load -/

/-- What keeps the load factor in bounds between two calls. -/
structure HMap.Load (m : HMap α) : Prop where
  idle : m.ht2.tab = none → hmSize m < 9 * (m.ht1.mask + 1)
  busy : m.ht2.tab ≠ none → hmSize m + m.ht2.size + 2 ≤ 9 * (m.ht1.mask + 1)

/-- What is enough before `hm_help_resizing`, which moves 128 nodes or frees the older table. -/
structure HMap.Due (m : HMap α) : Prop where
  size : hmSize m < 9 * (m.ht1.mask + 1)
  sum : m.ht2.tab ≠ none → hmSize m + m.ht2.size ≤ 9 * (m.ht1.mask + 1) + 126

theorem HMap.load_empty : ({} : HMap α).Load :=
  ⟨fun _ ↦ Nat.succ_pos 8, fun h ↦ absurd rfl h⟩

theorem HTab.Inv.tab_eq_none {t : HTab α} (h : t.Inv) (hnone : t.tab = none) : t = {} := by
  refine h.resolve_right fun hwf ↦ ?_
  rw [hwf.alloc] at hnone
  cases hnone

theorem HTab.Inv.wf {t : HTab α} (h : t.Inv) (halloc : t.tab ≠ none) : t.WF :=
  h.resolve_left fun hempty ↦ halloc (by rw [hempty])

theorem HMap.Load.hmSize_lt (h : m.Load) : hmSize m < 9 * (m.ht1.mask + 1) := by
  by_cases hidle : m.ht2.tab = none
  · exact h.idle hidle
  · have hbusy := h.busy hidle
    omega

theorem HMap.Load.due (h : m.Load) : m.Due :=
  ⟨h.hmSize_lt, fun halloc ↦ by have hbusy := h.busy halloc; omega⟩

namespace Migrated

theorem hmSize_eq (hmig : Migrated m m') (h : m.Inv) : hmSize m' = hmSize m := by
  rw [hmig.inv.hmSize_eq, h.hmSize_eq, hmig.perm.length_eq]

/-- While the older table stays allocated, exactly 128 nodes leave it. -/
theorem size_add (hmig : Migrated m m') (hbusy : m'.ht2.tab ≠ none) :
    0 < m'.ht2.size ∧ m'.ht2.size + 128 = m.ht2.size := by
  have hpos := (hmig.freed.resolve_left fun hfree ↦ hbusy (by rw [hfree])).1
  have hmoved := hmig.moved
  rw [kResizingWork] at hmoved
  omega

theorem load (hmig : Migrated m m') (h : m.Inv) (hdue : m.Due) : m'.Load := by
  have hsize := hmig.hmSize_eq h
  constructor
  · intro _
    rw [hsize, hmig.mask]
    exact hdue.size
  · intro hbusy
    obtain ⟨hpos, hmoved⟩ := hmig.size_add hbusy
    have halloc : m.ht2.tab ≠ none := fun hnone ↦ by
      rw [h.ht2.tab_eq_none hnone] at hmoved
      exact absurd hmoved (Nat.succ_ne_zero _)
    have hsum := hdue.sum halloc
    rw [hsize, hmig.mask]
    omega

end Migrated

theorem hmPlace_due (h : m.Inv) (hload : m.Load) (n : HNode α) :
    ∃ m₁ m₂, hmPlace m n = some m₁ ∧ m₁.ht2 = m.ht2 ∧ hmCheckLoad m₁ = some m₂ ∧
      (m₁.ht2.tab ≠ none → m₂ = m₁) ∧ m₂.Inv ∧ m₂.Due := by
  obtain ⟨m₁, hplace, h₁, hwf₁, hperm₁, hht2, hmask⟩ := hmPlace_spec h n
  obtain ⟨m₂, hcheck, h₂, hperm₂, hcases⟩ := hmCheckLoad_spec h₁ hwf₁
  have hsize₁ : hmSize m₁ = hmSize m + 1 := by
    rw [h₁.hmSize_eq, h.hmSize_eq, hperm₁.length_eq, List.length_cons]
  have hsize₂ : hmSize m₂ = hmSize m + 1 := by
    rw [h₂.hmSize_eq, hperm₂.length_eq, ← h₁.hmSize_eq, hsize₁]
  have hlt := hload.hmSize_lt
  refine ⟨m₁, m₂, hplace, hht2, hcheck, fun hbusy ↦ ?_, h₂, ?_⟩
  · exact (hcases.resolve_right fun hstart ↦ hbusy hstart.1).1
  rcases hcases with ⟨rfl, hfit⟩ | ⟨-, -, hold, hdouble⟩
  · by_cases hidle : m.ht2.tab = none
    · -- no migration runs: the check has looked at all nodes
      have hzero : m₂.ht2.size = 0 := by rw [hht2, h.ht2.tab_eq_none hidle]
      have hfit' := hfit (hht2 ▸ hidle)
      exact ⟨by rw [hmSize, hzero]; exact hfit', fun halloc ↦ absurd (hht2 ▸ hidle) halloc⟩
    · have hbusy := hload.busy hidle
      have hkeep : m₂.ht1.mask = m.ht1.mask := by
        refine (hmask.resolve_left fun hnone ↦ hidle ?_).2
        rw [h.target (h.ht1.tab_eq_none hnone.1)]
      rw [← hht2] at hbusy
      exact ⟨by rw [hkeep]; omega, fun _ ↦ by rw [hkeep]; omega⟩
  · -- a migration starts: the full table has become the older one
    have hfull : hmSize m + 1 ≤ 9 * (m₁.ht1.mask + 1) := by
      rcases hmask with ⟨hnone, hfour⟩ | ⟨-, hkeep⟩
      · have hempty := h.ht1.tab_eq_none hnone
        have hzero : hmSize m = 0 := by
          rw [hmSize, h.target hempty, hempty]
          rfl
        rw [hzero, hfour]
        decide
      · rw [hkeep]
        exact hlt
    have hpart : m₂.ht2.size ≤ hmSize m₂ := Nat.le_add_left _ _
    exact ⟨by omega, fun _ ↦ by omega⟩

/-! ## Lookup and removal -/

theorem hmLookup_helped {hcode : ℕ} {eq : α → Bool} {r : Option (HNode α)}
    (hlookup : hmLookup m hcode eq = some (m', r)) : hmHelpResizing m = some m' := by
  simp only [hmLookup, Option.bind_eq_bind, Option.bind_eq_some_iff] at hlookup
  obtain ⟨m₁, hhelp, r₁, -, hlookup⟩ := hlookup
  rw [hhelp]
  rcases r₁ with _ | from₁
  · obtain ⟨r₂, -, hlookup⟩ := Option.bind_eq_some_iff.mp hlookup
    rcases r₂ with _ | from₂
    · cases hlookup
      rfl
    · obtain ⟨n, -, heq⟩ := Option.bind_eq_some_iff.mp hlookup
      cases heq
      rfl
  · obtain ⟨n, -, heq⟩ := Option.bind_eq_some_iff.mp hlookup
    cases heq
    rfl

/-- Where `hm_pop` unlinks a node, after `hm_help_resizing`. -/
theorem hmPop_cases {hcode : ℕ} {eq : α → Bool} {r : Option (HNode α)}
    (hpop : hmPop m hcode eq = some (m', r)) : ∃ m₁, hmHelpResizing m = some m₁ ∧
      (m' = m₁ ∨ (∃ from_ t n, hDetach m₁.ht1 from_ = some (t, n) ∧ m' = { m₁ with ht1 := t }) ∨
        ∃ from_ t n, hDetach m₁.ht2 from_ = some (t, n) ∧ m' = { m₁ with ht2 := t }) := by
  simp only [hmPop, Option.bind_eq_bind, Option.bind_eq_some_iff] at hpop
  obtain ⟨m₁, hhelp, r₁, -, hpop⟩ := hpop
  refine ⟨m₁, hhelp, ?_⟩
  rcases r₁ with _ | from₁
  · obtain ⟨r₂, -, hpop⟩ := Option.bind_eq_some_iff.mp hpop
    rcases r₂ with _ | from₂
    · cases hpop
      exact Or.inl rfl
    · obtain ⟨⟨t, n⟩, hdet, heq⟩ := Option.bind_eq_some_iff.mp hpop
      cases heq
      exact Or.inr (Or.inr ⟨from₂, t, n, hdet, rfl⟩)
  · obtain ⟨⟨t, n⟩, hdet, heq⟩ := Option.bind_eq_some_iff.mp hpop
    cases heq
    exact Or.inr (Or.inl ⟨from₁, t, n, hdet, rfl⟩)

theorem hDetach_eq {t t' : HTab α} {from_ : ChainPos} {n : HNode α}
    (h : hDetach t from_ = some (t', n)) :
    t'.tab ≠ none ∧ t.tab ≠ none ∧ t'.mask = t.mask ∧ t'.size = t.size - 1 := by
  simp only [hDetach, Option.bind_eq_bind, Option.bind_eq_some_iff] at h
  obtain ⟨slots, htab, chain, -, node, -, heq⟩ := h
  cases heq
  exact ⟨Option.some_ne_none _, by rw [htab]; exact Option.some_ne_none _, rfl, rfl⟩

theorem HMap.Load.detach (hload : m.Load) {from_ : ChainPos} {t : HTab α} {n : HNode α} :
    (hDetach m.ht1 from_ = some (t, n) → HMap.Load { m with ht1 := t }) ∧
      (hDetach m.ht2 from_ = some (t, n) → HMap.Load { m with ht2 := t }) := by
  constructor
  · intro hdet
    obtain ⟨-, -, hmask, hsize⟩ := hDetach_eq hdet
    have hle : hmSize { m with ht1 := t } ≤ hmSize m := by
      rw [hmSize, hmSize, hsize]
      exact Nat.add_le_add_right (Nat.sub_le _ _) _
    refine ⟨fun hidle ↦ ?_, fun hbusy ↦ ?_⟩
    · have hlt := hload.idle hidle
      rw [hmask]
      exact hle.trans_lt hlt
    · have hsum := hload.busy hbusy
      rw [hmask]
      exact (Nat.add_le_add_right (Nat.add_le_add_right hle _) 2).trans hsum
  · intro hdet
    obtain ⟨halloc', halloc, -, hsize⟩ := hDetach_eq hdet
    have hle : hmSize { m with ht2 := t } ≤ hmSize m := by
      rw [hmSize, hmSize, hsize]
      exact Nat.add_le_add_left (Nat.sub_le _ _) _
    refine ⟨fun hidle ↦ absurd hidle halloc', fun _ ↦ ?_⟩
    have hsum := hload.busy halloc
    have hle2 : t.size ≤ m.ht2.size := hsize ▸ Nat.sub_le _ _
    exact (Nat.add_le_add_right (Nat.add_le_add hle hle2) 2).trans hsum

/-! ## One call and every run -/

namespace HMapCall

variable (hash : κ → ℕ) (eq : α → κ → Bool)

/-- The map on which the call runs `hm_help_resizing`. -/
def helped (m : HMap α) : HMapCall α κ → Option (HMap α)
  | insert node => (hmPlace m node).bind hmCheckLoad
  | lookup _ => some m
  | pop _ => some m

/-- One call: it succeeds, keeps the invariant and the bounds, and while the older table stays
allocated, nodes leave it. -/
theorem exec_load (h : m.Inv) (hload : m.Load) (call : HMapCall α κ) :
    ∃ m₁ m₂ m' r, call.helped m = some m₁ ∧ m₁.Inv ∧ hmHelpResizing m₁ = some m₂ ∧
      Migrated m₁ m₂ ∧ call.exec hash eq m = some (m', r) ∧ m'.Inv ∧ m'.Load ∧
      (m.ht2.tab ≠ none → m'.ht2.tab ≠ none → m'.ht2.size < m.ht2.size) := by
  cases call with
  | insert node =>
    obtain ⟨m₀, m₁, hplace, hht2, hcheck, hkeep, h₁, hdue⟩ := hmPlace_due h hload node
    obtain ⟨m₂, hhelp, hmig⟩ := hmHelpResizing_spec h₁
    refine ⟨m₁, m₂, m₂, none, by rw [helped, hplace, Option.bind_some, hcheck], h₁, hhelp, hmig,
      ?_, hmig.inv, hmig.load h₁ hdue, fun hbusy hbusy' ↦ ?_⟩
    · rw [HMapCall.exec, hmInsert_eq, hplace, Option.bind_some, hcheck, Option.bind_some, hhelp,
        Option.map_some]
    · -- while there is an older table no resizing starts, so only nodes move
      obtain rfl := hkeep (hht2 ▸ hbusy)
      have hmoved := (hmig.size_add hbusy').2
      rw [hht2] at hmoved
      omega
  | lookup key =>
    obtain ⟨m', r, hcode, hinv, -⟩ := hmLookup_spec h (hash key) fun a ↦ eq a key
    obtain ⟨m₂, hhelp, hmig⟩ := hmHelpResizing_spec h
    obtain rfl := Option.some_inj.mp (hhelp.symm.trans (hmLookup_helped hcode))
    refine
      ⟨m, m₂, m₂, r, rfl, h, hhelp, hmig, hcode, hinv, hmig.load h hload.due, fun _ hbusy' ↦ ?_⟩
    have hmoved := (hmig.size_add hbusy').2
    omega
  | pop key =>
    obtain ⟨m', r, hcode, hinv, -⟩ := hmPop_spec h (hash key) fun a ↦ eq a key
    obtain ⟨m₂, hhelp, hmig⟩ := hmHelpResizing_spec h
    obtain ⟨m₂', hhelp', hcases⟩ := hmPop_cases hcode
    obtain rfl := Option.some_inj.mp (hhelp.symm.trans hhelp')
    have hload₂ := hmig.load h hload.due
    refine ⟨m, m₂, m', r, rfl, h, hhelp, hmig, hcode, hinv, ?_, fun _ hbusy' ↦ ?_⟩
    · rcases hcases with rfl | ⟨from_, t, n, hdet, rfl⟩ | ⟨from_, t, n, hdet, rfl⟩
      · exact hload₂
      · exact hload₂.detach.1 hdet
      · exact hload₂.detach.2 hdet
    · -- the node may leave either table
      have hle : m'.ht2.size ≤ m₂.ht2.size ∧ m₂.ht2.tab ≠ none := by
        rcases hcases with rfl | ⟨from_, t, n, hdet, rfl⟩ | ⟨from_, t, n, hdet, rfl⟩
        · exact ⟨le_rfl, hbusy'⟩
        · exact ⟨le_rfl, hbusy'⟩
        · obtain ⟨-, halloc, -, hsize⟩ := hDetach_eq hdet
          exact ⟨hsize ▸ Nat.sub_le _ _, halloc⟩
      have hmoved := (hmig.size_add hle.2).2
      omega

theorem execAll_load (h : m.Inv) (hload : m.Load) (calls : List (HMapCall α κ)) :
    ∃ m' rs, execAll hash eq m calls = some (m', rs) ∧ m'.Inv ∧ m'.Load := by
  induction calls generalizing m with
  | nil => exact ⟨m, [], rfl, h, hload⟩
  | cons call calls ih =>
    obtain ⟨-, -, m₁, r, -, -, -, -, hexec, h₁, hload₁, -⟩ := exec_load hash eq h hload call
    obtain ⟨m', rs, hexec', h', hload'⟩ := ih h₁ hload₁
    refine ⟨m', r :: rs, ?_, h', hload'⟩
    rw [execAll, hexec]
    simp only [Option.bind_eq_bind, Option.bind_some, hexec']

/-- A migration ends: among any calls that outnumber the nodes left in the older table there is one
after which that table is free. -/
theorem exists_freed (h : m.Inv) (hload : m.Load) (calls : List (HMapCall α κ))
    (hlen : m.ht2.size < calls.length) : ∃ calls', calls' <+: calls ∧
      ∃ m' rs, execAll hash eq m calls' = some (m', rs) ∧ m'.ht2.tab = none := by
  induction calls generalizing m with
  | nil => exact absurd hlen (Nat.not_lt_zero _)
  | cons call calls ih =>
    by_cases hbusy : m.ht2.tab = none
    · exact ⟨[], List.nil_prefix, m, [], rfl, hbusy⟩
    obtain ⟨-, -, m₁, r, -, -, -, -, hexec, h₁, hload₁, hless⟩ := exec_load hash eq h hload call
    by_cases hbusy₁ : m₁.ht2.tab = none
    · refine ⟨[call], List.prefix_append [call] calls, m₁, [r], ?_, hbusy₁⟩
      rw [execAll, hexec]
      rfl
    have hsize := hless hbusy hbusy₁
    rw [List.length_cons] at hlen
    obtain ⟨calls', hpre, m', rs, hexec', hfree⟩ := ih h₁ hload₁ (by omega)
    refine ⟨call :: calls', (List.prefix_cons_inj call).mpr hpre, m', r :: rs, ?_, hfree⟩
    rw [execAll, hexec]
    simp only [Option.bind_eq_bind, Option.bind_some, hexec']

end HMapCall

/-- **The load factor stays bounded.** After any sequence of calls on the empty map, the number of
slots of the newer table is a power of two, and there are fewer than nine nodes for each slot,
migration or not. A migration has freed the older table before the insertions it takes could fill
the newer one. -/
theorem hmap_load_bounded (hash : κ → ℕ) (eq : α → κ → Bool) (calls : List (HMapCall α κ)) :
    ∃ m rs, HMapCall.execAll hash eq ({} : HMap α) calls = some (m, rs) ∧
      (m.ht1.tab ≠ none → (∃ k, m.ht1.mask + 1 = 2 ^ k) ∧ hmSize m < 9 * (m.ht1.mask + 1)) ∧
      (m.ht2.tab ≠ none → hmSize m + (m.ht2.size + 1) < 9 * (m.ht1.mask + 1)) ∧
      ∀ more : List (HMapCall α κ), m.ht2.size < more.length → ∃ part, part <+: more ∧
        ∃ m' rs', HMapCall.execAll hash eq m part = some (m', rs') ∧ m'.ht2.tab = none := by
  obtain ⟨m, rs, hexec, h, hload⟩ := HMapCall.execAll_load hash eq HMap.inv_empty HMap.load_empty
    calls
  refine ⟨m, rs, hexec, fun halloc ↦ ⟨(h.ht1.wf halloc).pow, hload.hmSize_lt⟩, fun hbusy ↦ ?_,
    fun more hlen ↦ HMapCall.exists_freed hash eq h hload more hlen⟩
  have hsum := hload.busy hbusy
  omega

/-! ## The cursor -/

/-- No node is left below the cursor, and the size counts those at or above it. -/
structure HMap.CursorOk (m : HMap α) : Prop where
  below : ∀ i < m.resizingPos, ∀ chain, m.ht2.slots[i]? = some chain → chain = []
  size : m.ht2.size = (m.ht2.slots.drop m.resizingPos).flatten.length

theorem HMap.Inv.cursorOk (h : m.Inv) : m.CursorOk := by
  rcases h.ht2 with hempty | hwf
  · constructor
    · intro i _ chain hchain
      rw [hempty] at hchain
      cases hchain
    · rw [hempty, HTab.slots, Option.getD_none, List.drop_nil]
      rfl
  · have hbelow : ∀ i < m.resizingPos, ∀ chain, m.ht2.slots[i]? = some chain → chain = [] := by
      intro i hi chain hchain
      rw [h.cursor hwf i hi] at hchain
      exact (Option.some_inj.mp hchain).symm
    have htake : (m.ht2.slots.take m.resizingPos).flatten = [] := by
      rw [List.flatten_eq_nil_iff]
      intro chain hchain
      obtain ⟨i, hi, hget⟩ := List.mem_take_iff_getElem.mp hchain
      refine hbelow i (by omega) chain ?_
      rw [← hget]
      exact List.getElem?_eq_getElem _
    refine ⟨hbelow, ?_⟩
    have hsplit := congrArg List.flatten (List.take_append_drop m.resizingPos m.ht2.slots)
    rw [List.flatten_append, htake, List.nil_append] at hsplit
    rw [hsplit, hwf.size_eq, HTab.nodes]

/-- Every state of the loop of `hm_help_resizing`. -/
def HelpReaches (m : HMap α) (s : HMap α × ℕ) : Prop :=
  Relation.ReflTransGen (fun s s' ↦ hmHelpStep s = some (.inl s')) (m, 0) s

theorem HelpReaches.cursor_le {s : HMap α × ℕ} (h : m.Inv) (hs : HelpReaches m s)
    (hguard : s.2 < kResizingWork ∧ 0 < s.1.ht2.size) :
    s.1.resizingPos ≤ s.1.ht2.mask ∧ s.1.ht2.slots.length = s.1.ht2.mask + 1 := by
  have hinv : s.1.Inv := by
    clear hguard
    induction hs with
    | refl => exact h
    | tail _ hstep ih => exact hmHelpStep_inv ih hstep
  have hlen := (hinv.ht2_wf hguard.2).length_slots
  have hlt := hinv.cursor_lt hguard.2
  rw [hlen] at hlt
  exact ⟨Nat.le_of_lt_succ hlt, hlen⟩

/-- **The migration cursor stays in range.** After any sequence of calls on the empty map, and again
where the next call runs `hm_help_resizing`, no node is left below the cursor and the size of the
older table counts its chains from there on. The loop reads that table at allocated slots only, and
ends after moving `k_resizing_work` nodes or all; a table of size zero is freed. The load check of
`hm_insert` leaves the map alone while the older table is allocated. -/
theorem hmap_cursor_in_range (hash : κ → ℕ) (eq : α → κ → Bool) (calls : List (HMapCall α κ))
    (call : HMapCall α κ) :
    ∃ m rs m₁ m₂, HMapCall.execAll hash eq ({} : HMap α) calls = some (m, rs) ∧ m.CursorOk ∧
      call.helped m = some m₁ ∧ m₁.CursorOk ∧
      (∀ s, HelpReaches m₁ s → s.2 < kResizingWork ∧ 0 < s.1.ht2.size →
        s.1.resizingPos ≤ s.1.ht2.mask ∧ s.1.ht2.slots.length = s.1.ht2.mask + 1) ∧
      hmHelpResizing m₁ = some m₂ ∧ m₂.nodes.Perm m₁.nodes ∧
      m₂.ht2.size + min kResizingWork m₁.ht2.size = m₁.ht2.size ∧
      m₂.ht1.size = m₁.ht1.size + min kResizingWork m₁.ht2.size ∧
      (m₂.ht2.size = 0 → m₂.ht2.tab = none) ∧
      ∀ node, call = .insert node → ∃ m₀, hmPlace m node = some m₀ ∧
        hmCheckLoad m₀ = some m₁ ∧ (m₀.ht2.tab ≠ none → m₁ = m₀) := by
  obtain ⟨m, rs, hexec, h, hload⟩ := HMapCall.execAll_load hash eq HMap.inv_empty HMap.load_empty
    calls
  obtain ⟨m₁, m₂, -, -, hhelped, h₁, hhelp, hmig, -⟩ := HMapCall.exec_load hash eq h hload call
  have hmoved := hmig.moved
  have hsum : m₂.ht1.size + m₂.ht2.size = m₁.ht1.size + m₁.ht2.size := hmig.hmSize_eq h₁
  refine ⟨m, rs, m₁, m₂, hexec, h.cursorOk, hhelped, h₁.cursorOk,
    fun s hs hguard ↦ hs.cursor_le h₁ hguard, hhelp, hmig.perm, by omega, by omega,
    fun hzero ↦ ?_, ?_⟩
  · have hfree := hmig.freed.resolve_right fun hpos ↦ absurd hzero hpos.1.ne'
    rw [hfree]
  · rintro node rfl
    obtain ⟨m₀, m₁', hplace, -, hcheck, hkeep, -⟩ := hmPlace_due h hload node
    rw [HMapCall.helped, hplace, Option.bind_some, hcheck] at hhelped
    obtain rfl := Option.some_inj.mp hhelped
    exact ⟨m₀, hplace, hcheck, hkeep⟩

end RedisOnC
