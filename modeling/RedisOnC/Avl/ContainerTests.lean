import RedisOnC.Avl.Container

/-!
# The AVL test

The second half of `test_avl.cpp`: the tests, which fill containers and check them after each step.
They pass at every size, but for `test_insert_dup`, which at the largest one adds more numbers than a
`cnt` counts.
-/

open BinaryTree

namespace RedisOnC

/-! ## The tests -/

/-- A container and the multiset that it is compared with. -/
abbrev TestState := DataHeap × Container × Multiset ℕ

/-- `add(c, i); ref.insert(i)`. -/
def addBoth (s : TestState) (i : ℕ) : Option TestState := do
  let (H, c, ref) := s
  let (H, c) ← Container.add H c i
  some (H, c, i ::ₘ ref)

/-- `container_verify(c, ref)`. -/
def verified (s : TestState) : Option TestState :=
  (containerVerify s.1 s.2.1 s.2.2).map fun _ ↦ s

/-- The end of a round of `test_insert` and of `test_insert_dup`. -/
def testLast (s : TestState) (val : ℕ) : Option DataHeap := do
  let s ← verified s
  let s ← addBoth s val
  let s ← verified s
  let (H, _) ← Container.dispose s.1 s.2.1
  some H

/-- One round of `test_insert`. -/
def testInsertAt (sz : ℕ) (H : DataHeap) (val : ℕ) : Option DataHeap := do
  let s ← (List.range sz).foldlM (fun s i ↦ if i = val then some s else addBoth s i) (H, {}, 0)
  testLast s val

def testInsert (H : DataHeap) (sz : ℕ) : Option DataHeap :=
  (List.range sz).foldlM (testInsertAt sz) H

/-- One round of `test_insert_dup`. -/
def testInsertDupAt (sz : ℕ) (H : DataHeap) (val : ℕ) : Option DataHeap := do
  let s ← (List.range sz).foldlM addBoth (H, {}, 0)
  testLast s val

def testInsertDup (H : DataHeap) (sz : ℕ) : Option DataHeap :=
  (List.range sz).foldlM (testInsertDupAt sz) H

/-- One round of `test_remove`. `ref.erase(val)` removes every `val`. -/
def testRemoveAt (sz : ℕ) (H : DataHeap) (val : ℕ) : Option DataHeap := do
  let s ← (List.range sz).foldlM addBoth (H, {}, 0)
  let (H, c, ref) ← verified s
  let (H, c, found) ← Container.del H c val
  check found
  let s ← verified (H, c, ref.filter (· ≠ val))
  let (H, _) ← Container.dispose s.1 s.2.1
  some H

def testRemove (H : DataHeap) (sz : ℕ) : Option DataHeap :=
  (List.range sz).foldlM (testRemoveAt sz) H

/-- `main`, with the numbers `0, 3, …` below a thousand. -/
def testMain (H : DataHeap) : Option DataHeap := do
  let s ← (List.range' 0 334 3).foldlM (fun s i ↦ (addBoth s i).bind verified) (H, {}, 0)
  let (H, _) ← Container.dispose s.1 s.2.1
  some H

/-! ## The tests pass -/

variable {H : DataHeap} {val : ℕ} {others : List Ptr}

/-- The container of a test holds what the test says. -/
def Matches (others : List Ptr) (s : TestState) : Prop :=
  ∃ t, s.2.1.Holds others s.1 s.2.2 t

theorem addBoth_spec {s : TestState} (h : Matches others s) (i : ℕ) :
    ∃ s', addBoth s i = some s' ∧ Matches others s' ∧ s'.2.2 = i ::ₘ s.2.2 := by
  obtain ⟨t, h⟩ := h
  obtain ⟨H', c', t', hcode, h'⟩ := Container.add_spec h i
  refine ⟨(H', c', i ::ₘ s.2.2), ?_, ⟨t', h'⟩, rfl⟩
  rw [addBoth, hcode]
  rfl

theorem verified_eq {s : TestState} (h : Matches others s) (hcard : s.2.2.card < u32Size) :
    verified s = some s := by
  obtain ⟨t, h⟩ := h
  rw [verified, (h.containerVerify_iff _).mpr ⟨rfl, hcard⟩]
  rfl

theorem verified_eq_none {s : TestState} (h : Matches others s) (hcard : u32Size ≤ s.2.2.card) :
    verified s = none := by
  obtain ⟨t, h⟩ := h
  have hne : containerVerify s.1 s.2.1 s.2.2 ≠ some () := fun heq ↦
    hcard.not_gt ((h.containerVerify_iff _).mp heq).2
  rw [verified, Option.map_eq_none_iff]
  exact Option.eq_none_iff_forall_ne_some.mpr fun _ ↦ hne

theorem Matches.dispose {s : TestState} (h : Matches others s) :
    ∃ H', Container.dispose s.1 s.2.1 = some (H', {}) ∧ H'.Inv ∧ H'.live.Perm others := by
  obtain ⟨t, h⟩ := h
  exact Container.dispose_spec h

theorem foldlM_addBoth {s : TestState} (h : Matches others s) (l : List ℕ) :
    ∃ s', l.foldlM addBoth s = some s' ∧ Matches others s' ∧
      s'.2.2 = (l : Multiset ℕ) + s.2.2 := by
  refine ForLoop.total (I := fun (done : List ℕ) s' ↦ Matches others s' ∧
    s'.2.2 = (done : Multiset ℕ) + s.2.2) (fun done x rest s₁ _ hI ↦ ?_) ⟨h, ?_⟩
  · obtain ⟨s₂, hcode, hs₂, hcontent⟩ := addBoth_spec hI.1 x
    refine ⟨s₂, hcode, hs₂, ?_⟩
    rw [hcontent, hI.2, ← Multiset.cons_add, Multiset.cons_coe]
    refine congrArg (· + s.2.2) (Multiset.coe_eq_coe.mpr ?_)
    exact (List.perm_append_singleton x done).symm
  · exact (Multiset.zero_add _).symm

theorem matches_empty (hinv : H.Inv) (hlive : H.live.Perm others) : Matches others (H, {}, 0) :=
  ⟨nil, .empty hinv hlive⟩

theorem testLast_spec {s : TestState} (h : Matches others s) (hcard : s.2.2.card + 1 < u32Size) :
    ∃ H', testLast s val = some H' ∧ H'.Inv ∧ H'.live.Perm others := by
  obtain ⟨s', hadd, h', hcontent⟩ := addBoth_spec h val
  obtain ⟨H', hdispose, hH'⟩ := h'.dispose
  have hcard' : s'.2.2.card < u32Size := by rwa [hcontent, Multiset.card_cons]
  refine ⟨H', ?_, hH'⟩
  rw [testLast, verified_eq h (Nat.lt_of_succ_lt hcard)]
  simp only [Option.bind_eq_bind, Option.bind_some, hadd, verified_eq h' hcard', hdispose]

theorem testLast_eq_none {s : TestState} (h : Matches others s) (hcard : u32Size ≤ s.2.2.card + 1) :
    testLast s val = none := by
  obtain ⟨s', hadd, h', hcontent⟩ := addBoth_spec h val
  have hcard' : u32Size ≤ s'.2.2.card := by rwa [hcontent, Multiset.card_cons]
  rw [testLast]
  cases hver : verified s with
  | none => rfl
  | some s₁ =>
    obtain rfl : s = s₁ := by
      rw [verified, Option.map_eq_some_iff] at hver
      exact hver.choose_spec.2
    simp only [Option.bind_eq_bind, Option.bind_some, hadd, verified_eq_none h' hcard',
      Option.bind_none]

section Rounds

variable {sz : ℕ}

theorem testInsertAt_spec (hinv : H.Inv) (hlive : H.live.Perm others) (hval : val < sz)
    (hsz : sz < u32Size) :
    ∃ H', testInsertAt sz H val = some H' ∧ H'.Inv ∧ H'.live.Perm others := by
  have hskip : (List.range sz).foldlM (fun s i ↦ if i = val then some s else addBoth s i)
      (H, {}, 0) = ((List.range sz).erase val).foldlM addBoth (H, {}, 0) := by
    rw [List.nodup_range.erase_eq_filter, List.foldlM_filter]
    congr 1
    funext s i
    by_cases hi : i = val <;> simp [hi]
  obtain ⟨s, hcode, h, hcontent⟩ :=
    foldlM_addBoth (matches_empty hinv hlive) ((List.range sz).erase val)
  have hcard : s.2.2.card + 1 = sz := by
    rw [hcontent, Multiset.card_add, Multiset.coe_card, Multiset.card_zero,
      List.length_erase_of_mem (List.mem_range.mpr hval), List.length_range]
    omega
  rw [testInsertAt, hskip, hcode]
  exact testLast_spec h (hcard ▸ hsz)

theorem testInsertDupAt_spec (hinv : H.Inv) (hlive : H.live.Perm others) (hsz : sz + 1 < u32Size) :
    ∃ H', testInsertDupAt sz H val = some H' ∧ H'.Inv ∧ H'.live.Perm others := by
  obtain ⟨s, hcode, h, hcontent⟩ := foldlM_addBoth (matches_empty hinv hlive) (List.range sz)
  have hcard : s.2.2.card = sz := by simp [hcontent]
  rw [testInsertDupAt, hcode]
  exact testLast_spec h (hcard ▸ hsz)

theorem testRemoveAt_spec (hinv : H.Inv) (hlive : H.live.Perm others) (hval : val < sz)
    (hsz : sz < u32Size) :
    ∃ H', testRemoveAt sz H val = some H' ∧ H'.Inv ∧ H'.live.Perm others := by
  obtain ⟨s, hcode, h, hcontent⟩ := foldlM_addBoth (matches_empty hinv hlive) (List.range sz)
  have hcard : s.2.2.card = sz := by simp [hcontent]
  have hmem : val ∈ s.2.2 := by simp [hcontent, hval]
  -- every number is there once, so `erase` of the multiset removes what `del` removes
  have herase : s.2.2.filter (· ≠ val) = s.2.2.erase val := by
    have hnodup : s.2.2.Nodup := by
      rw [hcontent, Multiset.add_zero]
      exact List.nodup_range
    rw [hnodup.erase_eq_filter]
  obtain ⟨H₁, c₁, t₁, hdel, h₁⟩ := Container.del_spec h.choose_spec val
  have hmatch : Matches others (H₁, c₁, s.2.2.erase val) := ⟨t₁, h₁⟩
  obtain ⟨H', hdispose, hH'⟩ := hmatch.dispose
  have hcard₁ : (s.2.2.erase val).card < u32Size :=
    (Multiset.card_erase_le.trans_eq hcard).trans_lt hsz
  refine ⟨H', ?_, hH'⟩
  rw [testRemoveAt, hcode]
  simp only [Option.bind_eq_bind, Option.bind_some, verified_eq h (hcard ▸ hsz), hdel,
    decide_eq_true hmem, check, if_true, herase, verified_eq hmatch hcard₁, hdispose]

/-- The rounds of a test, each of which frees what it allocates. -/
theorem foldlM_rounds {f : DataHeap → ℕ → Option DataHeap}
    (step : ∀ H val, H.Inv → H.live.Perm others → val < sz →
      ∃ H', f H val = some H' ∧ H'.Inv ∧ H'.live.Perm others)
    (hinv : H.Inv) (hlive : H.live.Perm others) :
    ∃ H', (List.range sz).foldlM f H = some H' ∧ H'.Inv ∧ H'.live.Perm others := by
  refine ForLoop.total (I := fun _ (H : DataHeap) ↦ H.Inv ∧ H.live.Perm others) ?_ ⟨hinv, hlive⟩
  intro done val rest H₁ hl hI
  have hval : val ∈ List.range sz := hl ▸ List.mem_append_right _ (List.mem_cons_self ..)
  exact step H₁ val hI.1 hI.2 (List.mem_range.mp hval)

theorem foldlM_addBoth_verified {s : TestState} (h : Matches others s) (l : List ℕ)
    (hcard : s.2.2.card + l.length < u32Size) :
    ∃ s', l.foldlM (fun s i ↦ (addBoth s i).bind verified) s = some s' ∧ Matches others s' := by
  have hrun : ∃ s', l.foldlM (fun s i ↦ (addBoth s i).bind verified) s = some s' ∧
      Matches others s' ∧ s'.2.2.card = s.2.2.card + l.length := by
    refine ForLoop.total (I := fun (done : List ℕ) s' ↦ Matches others s' ∧
      s'.2.2.card = s.2.2.card + done.length) (fun done x rest s₁ hl hI ↦ ?_) ⟨h, rfl⟩
    obtain ⟨s₂, hcode, hs₂, hcontent⟩ := addBoth_spec hI.1 x
    have hcard₂ : s₂.2.2.card = s.2.2.card + (done ++ [x]).length := by
      rw [hcontent, Multiset.card_cons, hI.2, List.length_append, List.length_singleton,
        Nat.add_assoc]
    have hle : (done ++ [x]).length ≤ l.length := by simp [hl]
    have hfits : s₂.2.2.card < u32Size := by omega
    exact ⟨s₂, by rw [hcode, Option.bind_some, verified_eq hs₂ hfits], hs₂, hcard₂⟩
  obtain ⟨s', hcode, hs', -⟩ := hrun
  exact ⟨s', hcode, hs'⟩

theorem testMain_spec (hinv : H.Inv) (hlive : H.live.Perm others) :
    ∃ H', testMain H = some H' ∧ H'.live.Perm others := by
  obtain ⟨s, hcode, hs⟩ := foldlM_addBoth_verified (matches_empty hinv hlive)
    (List.range' 0 334 3) (by simp [u32Size])
  obtain ⟨H', hdispose, -, hlive'⟩ := hs.dispose
  refine ⟨H', ?_, hlive'⟩
  rw [testMain, hcode]
  simp only [Option.bind_eq_bind, Option.bind_some, hdispose]

/-- A round of `test_insert_dup` with one number too many fails, and so does the test. -/
theorem testInsertDup_eq_none (hinv : H.Inv) (hlive : H.live.Perm others) (hpos : 0 < sz)
    (hsz : u32Size ≤ sz + 1) : testInsertDup H sz = none := by
  obtain ⟨s, hcode, h, hcontent⟩ := foldlM_addBoth (matches_empty hinv hlive) (List.range sz)
  have hcard : s.2.2.card = sz := by simp [hcontent]
  obtain ⟨n, rfl⟩ : ∃ n, sz = n + 1 := Nat.exists_eq_add_one.mpr hpos
  have hround : testInsertDupAt (n + 1) H 0 = none := by
    rw [testInsertDupAt, hcode]
    exact testLast_eq_none h (hcard ▸ hsz)
  rw [testInsertDup, List.range_succ_eq_map, List.foldlM_cons, hround]
  rfl

end Rounds

/-- **The tests.** At every size `test_insert` and `test_remove` pass and free what they allocate.
`test_insert_dup` does so at every size but the largest, where it adds more numbers than a `cnt`
counts. -/
theorem tests_pass (sz : Fin u32Size) (avl : AVLHeap) (val : Ptr → ℕ) :
    (∃ H, testInsert (.init avl val) sz = some H ∧ H.live = []) ∧
    (∃ H, testRemove (.init avl val) sz = some H ∧ H.live = []) ∧
    ((∃ H, testInsertDup (.init avl val) sz = some H ∧ H.live = []) ↔ (sz : ℕ) + 1 < u32Size) ∧
    ∃ H, testMain (.init avl val) = some H ∧ H.live = [] := by
  have hinv := DataHeap.inv_init avl val
  have hlive : (DataHeap.init avl val).live.Perm [] := List.Perm.refl []
  refine ⟨?_, ?_, ⟨?_, ?_⟩, ?_⟩
  · obtain ⟨H, hcode, -, hfreed⟩ := foldlM_rounds
      (fun H val hinv hlive hval ↦ testInsertAt_spec hinv hlive hval sz.isLt) hinv hlive
    exact ⟨H, hcode, hfreed.eq_nil⟩
  · obtain ⟨H, hcode, -, hfreed⟩ := foldlM_rounds
      (fun H val hinv hlive hval ↦ testRemoveAt_spec hinv hlive hval sz.isLt) hinv hlive
    exact ⟨H, hcode, hfreed.eq_nil⟩
  · rintro ⟨H, hcode, -⟩
    by_contra hnot
    have hpos : 0 < (sz : ℕ) := by
      have htwo : 1 < u32Size := Nat.one_lt_two_pow (by decide)
      omega
    rw [testInsertDup_eq_none hinv hlive hpos (not_lt.mp hnot)] at hcode
    exact Option.some_ne_none H hcode.symm
  · intro hsz
    obtain ⟨H, hcode, -, hfreed⟩ := foldlM_rounds
      (fun H val hinv hlive _ ↦ testInsertDupAt_spec hinv hlive hsz) hinv hlive
    exact ⟨H, hcode, hfreed.eq_nil⟩
  · obtain ⟨H, hcode, hfreed⟩ := testMain_spec hinv hlive
    exact ⟨H, hcode, hfreed.eq_nil⟩

end RedisOnC
