import RedisOnC.Avl.Offset
import RedisOnC.Avl.WellFormed

/-!
# How the loop of `avl_offset` runs

In every state the loop looks for the element with a certain index, its *target*: the index of the
node plus the distance that is left. A step up keeps the target. A step down, which is taken only
when the target is in the subtree below, moves it:

* to a right child by 2, or by `2 - 2 ^ 32` if that child has no left child;
* to a left child by the difference of the numbers of nodes on its two sides.

Between two moves the loop climbs until the target is below the node and then goes down, so there
are finitely many steps. A target that has left the tree stays where it is, and the loop ends at the
root. So a run without an end has to move its target forward and backward again and again: the loop
ends if all the moves of the run go one way.

The position never leaves `int64_t`, and no child is missing where the loop goes down: there the
counts are right, whatever the target is.
-/

open BinaryTree

namespace RedisOnC

variable {h : AVLHeap} {t a b : BinaryTree Ptr} {c : Ctx Ptr} {v : Ptr} {offset pos : ℤ}
  {s s' : Ptr × ℤ}

/-- The index that the loop is looking for. -/
def offsetTarget (t : BinaryTree Ptr) (offset : ℤ) (s : Ptr × ℤ) : ℤ :=
  t.inorder.idxOf s.1 + offset - s.2

/-- The target is in the subtree of the node, by the counts there. -/
def Below (h : AVLHeap) (offset : ℤ) (s : Ptr × ℤ) : Prop :=
  s.2 - avlCnt h (h s.1).left ≤ offset ∧ offset ≤ s.2 + avlCnt h (h s.1).right

/-- The next step is to a left child with more nodes on its right than on its left. -/
def Backward (h : AVLHeap) (offset : ℤ) (s : Ptr × ℤ) : Prop :=
  Below h offset s ∧ offset < s.2 ∧
    ∃ x, (h s.1).left = some x ∧ avlCnt h (h x).left < avlCnt h (h x).right

/-- The next step is to a right child with a left child, or to a left child with more nodes on its
left than on its right. -/
def Forward (h : AVLHeap) (offset : ℤ) (s : Ptr × ℤ) : Prop :=
  Below h offset s ∧
    (s.2 < offset ∧ (∃ x, (h s.1).right = some x ∧ 0 < avlCnt h (h x).left) ∨
      offset < s.2 ∧
        ∃ x, (h s.1).left = some x ∧ avlCnt h (h x).right < avlCnt h (h x).left)

/-! ## What one step does -/

/-- A step to the parent. -/
structure StepUp (h : AVLHeap) (t : BinaryTree Ptr) (offset : ℤ) (s s' : Ptr × ℤ) : Prop where
  out : ¬ Below h offset s
  target : offsetTarget t offset s' = offsetTarget t offset s
  larger : (h s.1).cnt < (h s'.1).cnt

/-- A step to a child. -/
structure StepDown (h : AVLHeap) (t : BinaryTree Ptr) (offset : ℤ) (s s' : Ptr × ℤ) : Prop where
  below : Below h offset s
  nonneg : 0 ≤ offsetTarget t offset s
  lt : offsetTarget t offset s < t.numNodes
  smaller : (h s'.1).cnt < (h s.1).cnt
  target : offsetTarget t offset s' = offsetTarget t offset s ∧ Below h offset s' ∨
    offsetTarget t offset s' = offsetTarget t offset s + 2 - u32Size ∨
    offsetTarget t offset s < offsetTarget t offset s' ∧
      offsetTarget t offset s' ≤ offsetTarget t offset s + t.numNodes ∧ Forward h offset s ∨
    offsetTarget t offset s' < offsetTarget t offset s ∧
      offsetTarget t offset s ≤ offsetTarget t offset s' + t.numNodes ∧ Backward h offset s

theorem offsetTarget_plug (offset pos : ℤ) (hnd : (c.plug (node v a b)).inorder.Nodup) :
    offsetTarget (c.plug (node v a b)) offset (v, pos)
      = c.before.length + a.numNodes + offset - pos := by
  rw [offsetTarget, Ctx.idxOf_plug hnd, Nat.cast_add]

theorem Counted.stepDown_right (ht : Counted h none (c.plug (node v a b)))
    (hnd : (c.plug (node v a b)).inorder.Nodup) (hlt : (c.plug (node v a b)).numNodes < u32Size)
    (hpos : pos < offset) (hle : offset ≤ pos + b.numNodes) :
    ∃ s', avlOffsetStep h offset (v, pos) = some (.inl s') ∧
      s'.1 ∈ (c.plug (node v a b)).inorder ∧
      StepDown h (c.plug (node v a b)) offset (v, pos) s' := by
  have hv := ht.of_plug
  cases b with
  | nil =>
    rw [numNodes] at hle
    omega
  | node x l r =>
    have hsize := Ctx.numNodes_plug c (node v a (node x l r))
    have hcl : avlCnt h (h v).left = a.numNodes := hv.avlCnt_left
    have hcr : avlCnt h (h v).right = (node x l r).numNodes := hv.avlCnt_right
    have hx : Counted h (some v) (node x l r) := hv.2.2.2.2.2
    have hxl : avlCnt h (h x).left = l.numNodes := hx.avlCnt_left
    have htv := offsetTarget_plug offset pos hnd
    have htx : ∀ pos', offsetTarget (c.plug (node v a (node x l r))) offset (x, pos')
        = c.before.length + a.numNodes + 1 + l.numNodes + offset - pos' := by
      intro pos'
      have hplug := offsetTarget_plug (c := .right c v a) offset pos' hnd
      rw [Ctx.before, List.length_append, List.length_append, length_inorder,
        List.length_singleton] at hplug
      rw [← Ctx.plug_right, hplug]
      push_cast
      ring
    have hstep : avlOffsetStep h offset (v, pos)
        = some (.inl (x, pos + ((l.numNodes + u32Size - 1) % u32Size : ℕ))) := by
      simp only [avlOffsetStep]
      rw [if_neg (by omega), if_pos ⟨hpos, by rw [hcr]; exact hle⟩, hv.2.1, ← hxl]
      rfl
    have hbelow : Below h offset (v, pos) := by
      rw [Below, hcl, hcr]
      constructor
      · omega
      · exact hle
    rw [numNodes, numNodes] at hsize
    rw [numNodes] at hle
    refine ⟨_, hstep, ?_, hbelow, ?_, ?_, ?_, ?_⟩
    · apply Ctx.mem_plug.mpr
      simp
    · rw [htv]
      omega
    · rw [htv, hsize]
      push_cast at hle ⊢
      omega
    · rw [hx.2.2.2.1, hv.2.2.2.1]
      simp only [numNodes]
      omega
    · rw [htx, htv]
      rcases Nat.eq_zero_or_pos l.numNodes with hl | hl
      · -- the unsigned subtraction wraps around
        refine Or.inr (Or.inl ?_)
        rw [hl]
        simp only [u32Size]
        omega
      · refine Or.inr (Or.inr (Or.inl ⟨?_, ?_, hbelow, Or.inl ⟨hpos, x, hv.2.1, hxl ▸ hl⟩⟩))
        all_goals
          simp only [u32Size] at hlt ⊢
          omega

theorem Counted.stepDown_left (ht : Counted h none (c.plug (node v a b)))
    (hnd : (c.plug (node v a b)).inorder.Nodup) (hlt : (c.plug (node v a b)).numNodes < u32Size)
    (hpos : offset < pos) (hle : pos - a.numNodes ≤ offset) :
    ∃ s', avlOffsetStep h offset (v, pos) = some (.inl s') ∧
      s'.1 ∈ (c.plug (node v a b)).inorder ∧
      StepDown h (c.plug (node v a b)) offset (v, pos) s' := by
  have hv := ht.of_plug
  cases a with
  | nil =>
    rw [numNodes] at hle
    omega
  | node x l r =>
    have hsize := Ctx.numNodes_plug c (node v (node x l r) b)
    have hcl : avlCnt h (h v).left = (node x l r).numNodes := hv.avlCnt_left
    have hcr : avlCnt h (h v).right = b.numNodes := hv.avlCnt_right
    have hx : Counted h (some v) (node x l r) := hv.2.2.2.2.1
    have hxl : avlCnt h (h x).left = l.numNodes := hx.avlCnt_left
    have hxr : avlCnt h (h x).right = r.numNodes := hx.avlCnt_right
    have htv := offsetTarget_plug offset pos hnd
    have htx := fun pos' ↦ offsetTarget_plug (c := .left c v b) offset pos' hnd
    have hbelow : Below h offset (v, pos) := by
      rw [Below, hcl, hcr]
      constructor
      · exact hle
      · omega
    rw [numNodes, numNodes] at hsize
    rw [numNodes] at hle htv
    push_cast at hle htv
    have hmod : (l.numNodes + 1) % u32Size = l.numNodes + 1 := Nat.mod_eq_of_lt (by omega)
    have hstep : avlOffsetStep h offset (v, pos)
        = some (.inl (x, pos - (l.numNodes + 1 : ℕ))) := by
      simp only [avlOffsetStep]
      rw [if_neg (by omega), if_neg (by omega), if_pos ⟨hpos, hbelow.1⟩, hv.1]
      simp only [root_node, Option.bind_eq_bind, Option.bind_some]
      rw [hxl, hmod]
    refine ⟨_, hstep, ?_, hbelow, ?_, ?_, ?_, ?_⟩
    · apply Ctx.mem_plug.mpr
      simp
    · rw [htv]
      omega
    · rw [htv, hsize]
      push_cast
      omega
    · rw [hx.2.2.2.1, hv.2.2.2.1]
      simp only [numNodes]
      omega
    · rw [← Ctx.plug_left, htx, Ctx.before, Ctx.plug_left, htv, hsize]
      push_cast
      -- the counts on the two sides of the child tell where the target moves
      rcases lt_trichotomy l.numNodes r.numNodes with hlr | hlr | hlr
      · refine Or.inr (Or.inr (Or.inr ⟨?_, ?_, hbelow, hpos, x, hv.1, ?_⟩))
        · omega
        · omega
        · rwa [hxl, hxr]
      · refine Or.inl ⟨?_, ?_⟩
        · omega
        · rw [Below, hxl, hxr]
          push_cast
          omega
      · refine Or.inr (Or.inr (Or.inl ⟨?_, ?_, hbelow, Or.inr ⟨hpos, x, hv.1, ?_⟩⟩))
        · omega
        · omega
        · rwa [hxl, hxr]

theorem Counted.stepUp (ht : Counted h none (c.plug (node v a b)))
    (hnd : (c.plug (node v a b)).inorder.Nodup) (hlt : (c.plug (node v a b)).numNodes < u32Size)
    (hout : ¬ Below h offset (v, pos)) :
    avlOffsetStep h offset (v, pos) = some (.inr none) ∨
      ∃ s', avlOffsetStep h offset (v, pos) = some (.inl s') ∧
        s'.1 ∈ (c.plug (node v a b)).inorder ∧
        StepUp h (c.plug (node v a b)) offset (v, pos) s' := by
  have hv := ht.of_plug
  have hsize := Ctx.numNodes_plug c (node v a b)
  have hcl : avlCnt h (h v).left = a.numNodes := hv.avlCnt_left
  have hcr : avlCnt h (h v).right = b.numNodes := hv.avlCnt_right
  have htv := offsetTarget_plug offset pos hnd
  rw [Below, hcl, hcr] at hout
  rw [numNodes] at hsize
  have hmodl : (a.numNodes + 1) % u32Size = a.numNodes + 1 := Nat.mod_eq_of_lt (by omega)
  have hmodr : (b.numNodes + 1) % u32Size = b.numNodes + 1 := Nat.mod_eq_of_lt (by omega)
  have hstep : avlOffsetStep h offset (v, pos)
      = c.parent.elim (some (.inr none)) fun w ↦
        if (h w).right = some v then some (.inl (w, pos - (a.numNodes + 1 : ℕ)))
        else some (.inl (w, pos + (b.numNodes + 1 : ℕ))) := by
    simp only [avlOffsetStep]
    rw [if_neg (by omega), if_neg (by omega), if_neg (by omega), hv.2.2.1, hcl, hcr, hmodl, hmodr]
    rcases c.parent with _ | w
    · rfl
    · rfl
  cases c with
  | top => exact Or.inl hstep
  | left up w d =>
    have hw : Counted h up.parent (node w (node v a b) d) := Counted.of_plug ht
    -- the node is the left child, so the test of the right pointer fails
    have hne : (h w).right ≠ some v := by
      intro heq
      rw [hw.2.1] at heq
      exact (Ctx.nodup_plug hnd).2.2 v (by simp) (by simp [root_mem_inorder heq])
    simp only [Ctx.parent_left, Option.elim_some] at hstep
    rw [if_neg hne] at hstep
    have htw := offsetTarget_plug (c := up) offset (pos + (b.numNodes + 1 : ℕ)) hnd
    refine Or.inr ⟨_, hstep, ?_, ?_, ?_, ?_⟩
    · apply Ctx.mem_plug.mpr
      simp
    · rwa [Below, hcl, hcr]
    · rw [Ctx.plug_left, htw, ← Ctx.plug_left, htv, Ctx.before, numNodes]
      push_cast
      ring
    · rw [hv.2.2.2.1, hw.2.2.2.1]
      simp only [numNodes]
      omega
  | right up w d =>
    have hw : Counted h up.parent (node w d (node v a b)) := Counted.of_plug ht
    have hright : (h w).right = some v := hw.2.1
    simp only [Ctx.parent_right, Option.elim_some] at hstep
    rw [if_pos hright] at hstep
    have htw := offsetTarget_plug (c := up) offset (pos - (a.numNodes + 1 : ℕ)) hnd
    refine Or.inr ⟨_, hstep, ?_, ?_, ?_, ?_⟩
    · apply Ctx.mem_plug.mpr
      simp
    · rwa [Below, hcl, hcr]
    · rw [Ctx.plug_right, htw, ← Ctx.plug_right, htv, Ctx.before, List.length_append,
        List.length_append, length_inorder, List.length_singleton]
      push_cast
      ring
    · rw [hv.2.2.2.1, hw.2.2.2.1]
      simp only [numNodes]
      omega

/-- **One step.** The loop is never stuck, and it stays in the tree. -/
theorem Counted.avlOffsetStep_spec (offset : ℤ) (ht : Counted h none t) (hnd : t.inorder.Nodup)
    (hlt : t.numNodes < u32Size) (hs : s.1 ∈ t.inorder) :
    (∃ r, avlOffsetStep h offset s = some (.inr r)) ∨
      ∃ s', avlOffsetStep h offset s = some (.inl s') ∧ s'.1 ∈ t.inorder ∧
        (StepUp h t offset s s' ∨ StepDown h t offset s s') := by
  obtain ⟨v, pos⟩ := s
  obtain ⟨c, a, b, rfl⟩ := Ctx.exists_plug hs
  by_cases hbelow : Below h offset (v, pos)
  · have hle := hbelow
    rw [Below, ht.of_plug.avlCnt_left, ht.of_plug.avlCnt_right] at hle
    rcases lt_trichotomy pos offset with hpos | rfl | hpos
    · obtain ⟨s', hstep, hmem, hdown⟩ := ht.stepDown_right hnd hlt hpos hle.2
      exact Or.inr ⟨s', hstep, hmem, Or.inr hdown⟩
    · exact Or.inl ⟨_, if_pos rfl⟩
    · obtain ⟨s', hstep, hmem, hdown⟩ := ht.stepDown_left hnd hlt hpos hle.1
      exact Or.inr ⟨s', hstep, hmem, Or.inr hdown⟩
  · rcases ht.stepUp hnd hlt hbelow with hexit | ⟨s', hstep, hmem, hup⟩
    · exact Or.inl ⟨_, hexit⟩
    · exact Or.inr ⟨s', hstep, hmem, Or.inl hup⟩

/-! ## Every state of a run -/

/-- The target is still the one of the start, or that one was in the tree and the last move was from
an index of the tree. -/
def Moved (t : BinaryTree Ptr) (offset : ℤ) (start s : Ptr × ℤ) : Prop :=
  offsetTarget t offset s = offsetTarget t offset start ∨
    (0 ≤ offsetTarget t offset start ∧ offsetTarget t offset start < t.numNodes) ∧
      -u32Size ≤ offsetTarget t offset s ∧ offsetTarget t offset s < u32Size

theorem Moved.up {start : Ptr × ℤ} (hm : Moved t offset start s) (hup : StepUp h t offset s s') :
    Moved t offset start s' := by
  rw [Moved, hup.target]
  exact hm

theorem Moved.down {start : Ptr × ℤ} (hlt : t.numNodes < 2 ^ 31) (hm : Moved t offset start s)
    (hdown : StepDown h t offset s s') : Moved t offset start s' := by
  have hstart : 0 ≤ offsetTarget t offset start ∧ offsetTarget t offset start < t.numNodes := by
    rcases hm with heq | ⟨hstart, -⟩
    · rw [← heq]
      exact ⟨hdown.nonneg, hdown.lt⟩
    · exact hstart
  have hnonneg := hdown.nonneg
  have hin := hdown.lt
  refine Or.inr ⟨hstart, ?_⟩
  simp only [u32Size]
  rcases hdown.target with ⟨heq, -⟩ | heq | ⟨hmore, hle, -⟩ | ⟨hless, hle, -⟩
  · omega
  · simp only [u32Size] at heq
    omega
  · omega
  · omega

theorem Counted.reaches (ht : Counted h none t) (hnd : t.inorder.Nodup)
    (hlt : t.numNodes < 2 ^ 31) (hv : v ∈ t.inorder)
    (hs : WhileLoop.Reaches (avlOffsetStep h offset) (v, 0) s) :
    s.1 ∈ t.inorder ∧ Moved t offset (v, 0) s := by
  have hlt' : t.numNodes < u32Size := hlt.trans (by decide)
  apply hs.invariant ⟨hv, Or.inl rfl⟩
  rintro s u ⟨hmem, hm⟩ hstep
  rcases ht.avlOffsetStep_spec offset hnd hlt' hmem with
    ⟨r, hexit⟩ | ⟨s', hcont, hmem', hmove⟩
  · rw [hexit] at hstep
    cases hstep
  · rw [hcont] at hstep
    cases hstep
    rcases hmove with hup | hdown
    · exact ⟨hmem', hm.up hup⟩
    · exact ⟨hmem', hm.down hlt hdown⟩

/-- The position and the two numbers that the offset is compared with fit an `int64_t`. -/
theorem Moved.position (hlt : t.numNodes < 2 ^ 31) (hv : v ∈ t.inorder) (hs : s.1 ∈ t.inorder)
    (hm : Moved t offset (v, 0) s) : -2 ^ 63 ≤ s.2 - u32Size ∧ s.2 + u32Size < 2 ^ 63 := by
  have hiv := List.idxOf_lt_length_of_mem hv
  have his := List.idxOf_lt_length_of_mem hs
  rw [length_inorder] at hiv his
  simp only [Moved, offsetTarget, u32Size] at hm ⊢
  omega

/-! ## Where it ends -/

theorem Counted.cnt_le {x : Ptr} (ht : Counted h none t) (hx : x ∈ t.inorder) :
    (h x).cnt ≤ t.numNodes := by
  obtain ⟨c, a, b, rfl⟩ := Ctx.exists_plug hx
  rw [ht.of_plug.2.2.2.1, Ctx.numNodes_plug]
  omega

/-- Between two moves of the target: first the subtree grows, until the target is below the node,
and then it shrinks. -/
private noncomputable def searchMeasure (h : AVLHeap) (n : ℕ) (offset : ℤ) (s : Ptr × ℤ) : ℕ :=
  open Classical in
  if Below h offset s then (h s.1).cnt else 2 * n + 1 - (h s.1).cnt

/-- Termination, from a measure of the indices that every move inside the tree lowers from some
state of the run on. -/
theorem Counted.exists_avlOffset (ht : Counted h none t) (hnd : t.inorder.Nodup)
    (hlt : t.numNodes < 2 ^ 31) (hv : v ∈ t.inorder)
    (hs : WhileLoop.Reaches (avlOffsetStep h offset) (v, 0) s) (μ : ℤ → ℕ)
    (hμ : ∀ u u', WhileLoop.Reaches (avlOffsetStep h offset) s u → StepDown h t offset u u' →
      offsetTarget t offset u' ≠ offsetTarget t offset u →
      0 ≤ offsetTarget t offset u' → offsetTarget t offset u' < t.numNodes →
        μ (offsetTarget t offset u') < μ (offsetTarget t offset u)) :
    ∃ r, avlOffset h v offset = some r := by
  have hlt' : t.numNodes < u32Size := hlt.trans (by decide)
  rw [avlOffset, hs.whileLoop_eq]
  suffices hrun : ∃ r, whileLoop (avlOffsetStep h offset) s = some r ∧ True from
    hrun.imp fun _ hr ↦ hr.1
  -- a target outside of the tree does not move any more
  apply WhileLoop.total_lex (I := WhileLoop.Reaches (avlOffsetStep h offset) s)
    (fun s ↦ if 0 ≤ offsetTarget t offset s ∧ offsetTarget t offset s < t.numNodes then
      μ (offsetTarget t offset s) + 1 else 0)
    (searchMeasure h t.numNodes offset) _ WhileLoop.Reaches.refl
  intro u hu
  have hmem := (ht.reaches hnd hlt hv (hs.trans hu)).1
  have hcnt := ht.cnt_le hmem
  rcases ht.avlOffsetStep_spec offset hnd hlt' hmem with
    ⟨r, hexit⟩ | ⟨u', hcont, hmem', hmove⟩
  · exact Or.inr ⟨r, hexit, trivial⟩
  have hcnt' := ht.cnt_le hmem'
  refine Or.inl ⟨u', hcont, hu.step hcont, ?_⟩
  rcases hmove with hup | hdown
  · refine Or.inr ⟨by rw [hup.target], ?_⟩
    have hlarger := hup.larger
    rw [searchMeasure, searchMeasure, if_neg hup.out]
    split
    all_goals omega
  by_cases heq : offsetTarget t offset u' = offsetTarget t offset u
  · have hbelow : Below h offset u' := by
      rcases hdown.target with ⟨-, hbelow⟩ | hwrap | ⟨hmore, -⟩ | ⟨hless, -⟩
      · exact hbelow
      · simp only [u32Size] at hwrap
        omega
      · omega
      · omega
    refine Or.inr ⟨by rw [heq], ?_⟩
    rw [searchMeasure, searchMeasure, if_pos hdown.below, if_pos hbelow]
    exact hdown.smaller
  · have hfrom : 0 ≤ offsetTarget t offset u ∧ offsetTarget t offset u < t.numNodes :=
      ⟨hdown.nonneg, hdown.lt⟩
    refine Or.inl ?_
    rw [if_pos hfrom]
    split
    · next hin => exact Nat.succ_lt_succ (hμ u u' hu hdown heq hin.1 hin.2)
    · exact Nat.succ_pos _

/-- If no step moves the target backward any more: by its distance from the end of the tree. -/
theorem Counted.exists_of_not_backward (ht : Counted h none t) (hnd : t.inorder.Nodup)
    (hlt : t.numNodes < 2 ^ 31) (hv : v ∈ t.inorder)
    (hs : WhileLoop.Reaches (avlOffsetStep h offset) (v, 0) s)
    (hone : ∀ u, WhileLoop.Reaches (avlOffsetStep h offset) s u → ¬ Backward h offset u) :
    ∃ r, avlOffset h v offset = some r := by
  apply ht.exists_avlOffset hnd hlt hv hs (fun k ↦ (t.numNodes - k).toNat)
  intro u u' hu hdown hne hnonneg' hin'
  have hnonneg := hdown.nonneg
  have hin := hdown.lt
  rcases hdown.target with ⟨heq, -⟩ | hwrap | ⟨hmore, -, -⟩ | ⟨-, -, hback⟩
  · exact absurd heq hne
  · simp only [u32Size] at hwrap
    omega
  · omega
  · exact absurd hback (hone u hu)

/-- If no step moves the target forward any more: by its distance from the start of the tree. -/
theorem Counted.exists_of_not_forward (ht : Counted h none t) (hnd : t.inorder.Nodup)
    (hlt : t.numNodes < 2 ^ 31) (hv : v ∈ t.inorder)
    (hs : WhileLoop.Reaches (avlOffsetStep h offset) (v, 0) s)
    (hone : ∀ u, WhileLoop.Reaches (avlOffsetStep h offset) s u → ¬ Forward h offset u) :
    ∃ r, avlOffset h v offset = some r := by
  apply ht.exists_avlOffset hnd hlt hv hs Int.toNat
  intro u u' hu hdown hne hnonneg' hin'
  have hin := hdown.lt
  rcases hdown.target with ⟨heq, -⟩ | hwrap | ⟨-, -, hforw⟩ | ⟨hless, -, -⟩
  · exact absurd heq hne
  · simp only [u32Size] at hwrap
    omega
  · exact absurd hforw (hone u hu)
  · omega

theorem Backward.continues (hb : Backward h offset s) :
    ∃ s', avlOffsetStep h offset s = some (.inl s') := by
  obtain ⟨v, pos⟩ := s
  obtain ⟨hbelow, hpos, x, hx, -⟩ := hb
  simp only [avlOffsetStep]
  rw [if_neg (by omega), if_neg (by omega), if_pos ⟨hpos, hbelow.1⟩, hx]
  exact ⟨_, rfl⟩

theorem Forward.continues (hf : Forward h offset s) :
    ∃ s', avlOffsetStep h offset s = some (.inl s') := by
  obtain ⟨v, pos⟩ := s
  obtain ⟨hbelow, ⟨hpos, x, hx, -⟩ | ⟨hpos, x, hx, -⟩⟩ := hf
  · simp only [avlOffsetStep]
    rw [if_neg (by omega), if_pos ⟨hpos, hbelow.2⟩, hx]
    exact ⟨_, rfl⟩
  · simp only [avlOffsetStep]
    rw [if_neg (by omega), if_neg (by omega), if_pos ⟨hpos, hbelow.1⟩, hx]
    exact ⟨_, rfl⟩

/-- A run that ends has no state of a kind that goes on, once it is in its last one. -/
private theorem exists_last {P : Ptr × ℤ → Prop}
    (hP : ∀ u, P u → ∃ u', avlOffsetStep h offset u = some (.inl u')) {r : Option Ptr}
    (hr : avlOffset h v offset = some r) :
    ∃ s, WhileLoop.Reaches (avlOffsetStep h offset) (v, 0) s ∧
      ∀ u, WhileLoop.Reaches (avlOffsetStep h offset) s u → ¬ P u := by
  obtain ⟨s, hs, hexit⟩ := WhileLoop.exists_exit hr
  refine ⟨s, hs, ?_⟩
  intro u hu hPu
  rw [hu.eq_of_exit hexit] at hPu
  obtain ⟨u', hcont⟩ := hP s hPu
  rw [hexit] at hcont
  cases hcont

/-- No left child has more nodes on its right than on its left. -/
def LeftHeavy (h : AVLHeap) (t : BinaryTree Ptr) : Prop :=
  ∀ y ∈ t.inorder, ∀ x, (h y).left = some x → avlCnt h (h x).right ≤ avlCnt h (h x).left

theorem Counted.avlOffset_of_leftHeavy (ht : Counted h none t) (hnd : t.inorder.Nodup)
    (hlt : t.numNodes < 2 ^ 31) (hv : v ∈ t.inorder) (hleft : LeftHeavy h t) :
    ∃ r, avlOffset h v offset = some r := by
  apply ht.exists_of_not_backward hnd hlt hv .refl
  rintro u hu ⟨-, -, x, hx, hmore⟩
  exact Nat.not_lt.mpr (hleft u.1 (ht.reaches hnd hlt hv hu).1 x hx) hmore

/-- **`avl_offset`** never follows a missing child and never leaves `int64_t`. It ends if and only if
from some state of the run on no step moves the target backward, and if and only if from some state
on no step moves it forward. So it always ends in a tree where no left child has more nodes on its
right than on its left. -/
theorem avlOffset_terminates (offset : ℤ) (ht : Counted h none t) (hnd : t.inorder.Nodup)
    (hlt : t.numNodes < 2 ^ 31) (hv : v ∈ t.inorder) :
    (∀ s, WhileLoop.Reaches (avlOffsetStep h offset) (v, 0) s →
      avlOffsetStep h offset s ≠ none ∧ -2 ^ 63 ≤ s.2 - u32Size ∧ s.2 + u32Size < 2 ^ 63) ∧
    ((∃ r, avlOffset h v offset = some r) ↔
      ∃ s, WhileLoop.Reaches (avlOffsetStep h offset) (v, 0) s ∧
        ∀ u, WhileLoop.Reaches (avlOffsetStep h offset) s u → ¬ Backward h offset u) ∧
    ((∃ r, avlOffset h v offset = some r) ↔
      ∃ s, WhileLoop.Reaches (avlOffsetStep h offset) (v, 0) s ∧
        ∀ u, WhileLoop.Reaches (avlOffsetStep h offset) s u → ¬ Forward h offset u) ∧
    (LeftHeavy h t → ∃ r, avlOffset h v offset = some r) := by
  refine ⟨?_, ⟨?_, ?_⟩, ⟨?_, ?_⟩, ht.avlOffset_of_leftHeavy hnd hlt hv⟩
  · intro s hs
    obtain ⟨hmem, hm⟩ := ht.reaches hnd hlt hv hs
    refine ⟨?_, hm.position hlt hv hmem⟩
    rcases ht.avlOffsetStep_spec offset hnd (hlt.trans (by decide)) hmem with
      ⟨r, hexit⟩ | ⟨s', hcont, -⟩
    · simp [hexit]
    · simp [hcont]
  · rintro ⟨r, hr⟩
    exact exists_last (fun _ hu ↦ hu.continues) hr
  · rintro ⟨s, hs, hone⟩
    exact ht.exists_of_not_backward hnd hlt hv hs hone
  · rintro ⟨r, hr⟩
    exact exists_last (fun _ hu ↦ hu.continues) hr
  · rintro ⟨s, hs, hone⟩
    exact ht.exists_of_not_forward hnd hlt hv hs hone

/-! ### A tree of 22 nodes -/

private def cycleTree : BinaryTree Ptr :=
  node 7
    (node 2 (node 0 nil (node 1 nil nil)) (node 4 (node 3 nil nil) (node 6 (node 5 nil nil) nil)))
    (node 17
      (node 10 (node 8 nil (node 9 nil nil))
        (node 13 (node 11 nil (node 12 nil nil)) (node 15 (node 14 nil nil) (node 16 nil nil))))
      (node 19 (node 18 nil nil) (node 20 nil (node 21 nil nil))))

private def cycleHeap : AVLHeap := storeTree (fun _ ↦ {}) none cycleTree

private theorem avlTree_cycle : AvlTree cycleHeap cycleTree :=
  avlTree_storeTree (by decide) (by decide) (by simp [cycleTree, balanced_node])

/-- The states from the element with index 2, for the offset 1. -/
private def forwardRun : List (Ptr × ℤ) := [(2, 0), (4, 0), (6, 0), (4, -2), (2, -4), (7, 1)]

private theorem forwardRun_step : ∀ s ∈ forwardRun,
    ∀ u ∈ (avlOffsetStep cycleHeap 1 s).bind Sum.getLeft?, u ∈ forwardRun := by
  decide

/-- The way from the element with index 2 to the next one goes forward only. It ends too far. -/
theorem avlOffset_terminates_forward :
    (∀ s, WhileLoop.Reaches (avlOffsetStep cycleHeap 1) (2, 0) s →
      avlOffsetStep cycleHeap 1 s ≠ none ∧ -2 ^ 63 ≤ s.2 - u32Size ∧ s.2 + u32Size < 2 ^ 63) ∧
    ∃ r, avlOffset cycleHeap 2 1 = some r := by
  have hrun : ∀ s, WhileLoop.Reaches (avlOffsetStep cycleHeap 1) (2, 0) s → s ∈ forwardRun := by
    intro s hs
    apply hs.invariant (I := fun s ↦ s ∈ forwardRun) (by decide)
    intro s u hmem hstep
    apply forwardRun_step s hmem
    rw [hstep]
    rfl
  have hforward : ∀ s ∈ forwardRun, ¬ (1 < s.2) := by decide
  have hends := avlOffset_terminates 1
    (avlTree_cycle.rep.counted avlTree_cycle.fits) avlTree_cycle.nodup (by decide)
    (show 2 ∈ cycleTree.inorder from by decide)
  refine ⟨hends.1, hends.2.1.mpr ⟨_, .refl, ?_⟩⟩
  intro u hu hback
  exact hforward u (hrun u hu) hback.2.1

/-- The states from the element with index 2, for the offset 2. -/
private def cycle : List (Ptr × ℤ) :=
  [(2, 0), (4, 0), (6, 0), (4, -2), (2, -4), (7, 1), (17, 9), (10, 6), (17, 13), (7, 3)]

private theorem cycle_step : ∀ s ∈ cycle, ∃ s' ∈ cycle,
    avlOffsetStep cycleHeap 2 s = some (.inl s') := by
  decide

/-- From the element with index 2, `avl_offset` does not find the one with index 4: it goes round
for ever. -/
theorem not_avlOffset_terminates : ¬ ∀ (h : AVLHeap) (t : BinaryTree Ptr) (v : Ptr) (offset : ℤ),
    Counted h none t → t.inorder.Nodup → t.numNodes < 2 ^ 31 → v ∈ t.inorder →
      -2 ^ 63 ≤ offset → offset < 2 ^ 63 → ∃ r, avlOffset h v offset = some r := by
  intro hall
  obtain ⟨r, hr⟩ := hall cycleHeap cycleTree 2 2 (avlTree_cycle.rep.counted avlTree_cycle.fits)
    avlTree_cycle.nodup (by decide) (by decide) (by decide) (by decide)
  have hnone : avlOffset cycleHeap 2 2 = none := by
    apply WhileLoop.eq_none (I := fun s ↦ s ∈ cycle)
    · intro s hs
      obtain ⟨s', hs', hstep⟩ := cycle_step s hs
      exact ⟨s', hstep, hs'⟩
    · decide
  rw [hnone] at hr
  cases hr

end RedisOnC
