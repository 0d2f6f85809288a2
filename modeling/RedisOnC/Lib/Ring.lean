import Mathlib.Data.List.Nodup
import Mathlib.Logic.Function.Basic

/-!
# Rings of links

A circular doubly linked list through a head: every node has a link to the one before it and a link
to the one behind it. `L.Ring head l` says that the nodes behind the head are `l`, in this order,
and that the two kinds of links are inverse to each other along the way round. The links of nodes
that are not on the ring are arbitrary.

The two operations are the usual ones, in four assignments each. Inserting before the head appends
a node, and detaching removes a node wherever it stands.
-/

variable {α : Type} [DecidableEq α]

/-- The links of all nodes. -/
structure RingLinks (α : Type) where
  prev : α → α
  next : α → α

namespace RingLinks

variable (L : RingLinks α)

/-- A node linked to itself. -/
def init (a : α) : RingLinks α :=
  { prev := Function.update L.prev a a, next := Function.update L.next a a }

/-- Take a node out. Its own links stay as they are. -/
def detach (a : α) : RingLinks α :=
  { prev := Function.update L.prev (L.next a) (L.prev a)
    next := Function.update L.next (L.prev a) (L.next a) }

/-- Put a node in front of the target. -/
def insertBefore (target rookie : α) : RingLinks α :=
  { prev := Function.update (Function.update L.prev rookie (L.prev target)) target rookie
    next := Function.update (Function.update L.next (L.prev target) rookie) rookie target }

@[simp] theorem detach_prev (a : α) :
    (L.detach a).prev = Function.update L.prev (L.next a) (L.prev a) := rfl

@[simp] theorem detach_next (a : α) :
    (L.detach a).next = Function.update L.next (L.prev a) (L.next a) := rfl

@[simp] theorem insertBefore_prev (a c : α) : (L.insertBefore a c).prev
    = Function.update (Function.update L.prev c (L.prev a)) a c := rfl

@[simp] theorem insertBefore_next (a c : α) : (L.insertBefore a c).next
    = Function.update (Function.update L.next (L.prev a) c) c a := rfl

/-- The links from `a` through `l` to `b`, in both directions. -/
def Path (L : RingLinks α) : α → List α → α → Prop
  | a, [], b => L.next a = b ∧ L.prev b = a
  | a, c :: l, b => L.next a = c ∧ L.prev c = a ∧ Path L c l b

variable {L} {L' : RingLinks α} {a b c : α} {l l' : List α}

omit [DecidableEq α] in
theorem Path.congr (h : L.Path a l b) (hnext : ∀ x ∈ a :: l, L'.next x = L.next x)
    (hprev : ∀ x ∈ l ++ [b], L'.prev x = L.prev x) : L'.Path a l b := by
  induction l generalizing a with
  | nil =>
    obtain ⟨hab, hba⟩ := h
    constructor
    · rw [hnext a (List.mem_singleton_self a), hab]
    · rw [hprev b (List.mem_singleton_self b), hba]
  | cons c l ih =>
    obtain ⟨hac, hca, h⟩ := h
    refine ⟨?_, ?_, ih h ?_ ?_⟩
    · rw [hnext a (List.mem_cons_self ..), hac]
    · rw [hprev c (List.mem_cons_self ..), hca]
    · intro x hx
      exact hnext x (List.mem_cons_of_mem _ hx)
    · intro x hx
      exact hprev x (List.mem_cons_of_mem _ hx)

omit [DecidableEq α] in
theorem path_append : L.Path a (l ++ c :: l') b ↔ L.Path a l c ∧ L.Path c l' b := by
  induction l generalizing a with
  | nil => exact and_assoc.symm
  | cons d l ih =>
    rw [List.cons_append, Path, Path, ih, and_assoc, and_assoc]

omit [DecidableEq α] in
theorem Path.prev_mem (h : L.Path a l b) : L.prev b ∈ a :: l := by
  induction l generalizing a with
  | nil =>
    rw [h.2]
    exact List.mem_singleton_self a
  | cons c l ih => exact List.mem_cons_of_mem _ (ih h.2.2)

omit [DecidableEq α] in
theorem Path.next_mem (h : L.Path a l b) : L.next a ∈ l ++ [b] := by
  cases l with
  | nil =>
    rw [h.1]
    exact List.mem_singleton_self b
  | cons c l =>
    rw [h.1]
    exact List.mem_cons_self ..

omit [DecidableEq α] in
/-- The links tell what is on a path. -/
theorem Path.unique (h : L.Path a l b) (h' : L.Path a l' b) (hb : b ∉ l) (hb' : b ∉ l') :
    l = l' := by
  induction l generalizing a l' with
  | nil =>
    cases l' with
    | nil => rfl
    | cons d l' =>
      have hbd : b = d := h.1.symm.trans h'.1
      exact absurd (hbd ▸ List.mem_cons_self ..) hb'
  | cons c l ih =>
    cases l' with
    | nil =>
      have hbc : b = c := h'.1.symm.trans h.1
      exact absurd (hbc ▸ List.mem_cons_self ..) hb
    | cons d l' =>
      obtain rfl : c = d := h.1.symm.trans h'.1
      rw [ih h.2.2 h'.2.2 (fun hmem ↦ hb (List.mem_cons_of_mem _ hmem))
        fun hmem ↦ hb' (List.mem_cons_of_mem _ hmem)]

/-- Detaching the node between two paths joins them. -/
theorem Path.detach (h : L.Path a l c) (h' : L.Path c l' b) (hnd : (a :: l).Nodup)
    (hnd' : (l' ++ [b]).Nodup) (hdisj : ∀ x ∈ l, x ∉ l' ++ [b]) (hl' : ∀ x ∈ l', x ∉ a :: l) :
    (L.detach c).Path a (l ++ l') b := by
  induction l generalizing a with
  | nil =>
    -- The first path is a single link, from `a` to `c`.
    obtain ⟨hac, hca⟩ := h
    cases l' with
    | nil =>
      obtain ⟨hcb, hbc⟩ := h'
      constructor
      · rw [detach_next, hca, hcb, Function.update_self]
      · rw [detach_prev, hca, hcb, Function.update_self]
    | cons d l' =>
      obtain ⟨hcd, hdc, h'⟩ := h'
      refine ⟨?_, ?_, h'.congr ?_ ?_⟩
      · rw [detach_next, hca, hcd, Function.update_self]
      · rw [detach_prev, hca, hcd, Function.update_self]
      · intro x hx
        have hxa : x ≠ L.prev c := fun heq ↦
          hl' x hx (heq ▸ hca ▸ List.mem_cons_self ..)
        exact Function.update_of_ne hxa ..
      · intro x hx
        have hxd : x ≠ L.next c := by
          rintro rfl
          rw [hcd] at hx
          exact (List.nodup_cons.mp hnd').1 hx
        exact Function.update_of_ne hxd ..
  | cons d l ih =>
    obtain ⟨had, hda, h⟩ := h
    have hnd₁ := List.nodup_cons.mp hnd
    refine ⟨?_, ?_, ih h hnd₁.2 (fun x hx ↦ hdisj x (List.mem_cons_of_mem _ hx)) ?_⟩
    · -- the link of `a` does not change, for `a` is not the node in front of `c`
      have hne : a ≠ L.prev c := fun heq ↦ hnd₁.1 (heq ▸ h.prev_mem)
      rw [← had]
      exact Function.update_of_ne hne ..
    · have hne : d ≠ L.next c := fun heq ↦
        hdisj d (List.mem_cons_self ..) (heq ▸ h'.next_mem)
      rw [← hda]
      exact Function.update_of_ne hne ..
    · intro x hx hmem
      exact hl' x hx (List.mem_cons_of_mem _ hmem)

/-- Inserting before the end of a path appends to the path. -/
theorem Path.insertBefore (h : L.Path a l b) (hnd : (a :: l).Nodup) (hb : b ∉ l) (hc : c ∉ a :: l)
    (hcb : c ≠ b) : (L.insertBefore b c).Path a (l ++ [c]) b := by
  induction l generalizing a with
  | nil =>
    obtain ⟨-, hba⟩ := h
    have hca : c ≠ a := fun heq ↦ hc (heq ▸ List.mem_cons_self ..)
    refine ⟨?_, ?_, ?_, ?_⟩
    · rw [insertBefore_next, hba, Function.update_of_ne hca.symm, Function.update_self]
    · rw [insertBefore_prev, hba, Function.update_of_ne hcb, Function.update_self]
    · exact Function.update_self ..
    · exact Function.update_self ..
  | cons d l ih =>
    obtain ⟨had, hda, h⟩ := h
    have hnd₁ := List.nodup_cons.mp hnd
    have hca : c ≠ a := fun heq ↦ hc (heq ▸ List.mem_cons_self ..)
    have hcd : c ≠ d := fun heq ↦ hc (heq ▸ List.mem_cons_of_mem _ (List.mem_cons_self ..))
    have hdb : d ≠ b := fun heq ↦ hb (heq ▸ List.mem_cons_self ..)
    refine ⟨?_, ?_, ih h hnd₁.2 (fun hmem ↦ hb (List.mem_cons_of_mem _ hmem)) ?_⟩
    · have hne : a ≠ L.prev b := fun heq ↦ hnd₁.1 (heq ▸ h.prev_mem)
      rw [insertBefore_next, Function.update_of_ne hca.symm, Function.update_of_ne hne, had]
    · rw [insertBefore_prev, Function.update_of_ne hdb, Function.update_of_ne hcd.symm, hda]
    · intro hmem
      exact hc (List.mem_cons_of_mem _ hmem)

/-- The nodes behind the head, all the way round. -/
structure Ring (L : RingLinks α) (head : α) (l : List α) : Prop where
  path : L.Path head l head
  nodup : (head :: l).Nodup

namespace Ring

variable {head : α}

theorem init (L : RingLinks α) (head : α) : (L.init head).Ring head [] :=
  ⟨⟨Function.update_self .., Function.update_self ..⟩, List.nodup_singleton head⟩

omit [DecidableEq α] in
theorem head_notMem (h : L.Ring head l) : head ∉ l := (List.nodup_cons.mp h.nodup).1

omit [DecidableEq α] in
theorem unique (h : L.Ring head l) (h' : L.Ring head l') : l = l' :=
  h.path.unique h'.path h.head_notMem h'.head_notMem

omit [DecidableEq α] in
/-- The link of the head tells whether there is a node, and which one is the first. -/
theorem next_head (h : L.Ring head l) : L.next head = l.headD head := by
  cases l with
  | nil => exact h.path.1
  | cons a l => exact h.path.1

omit [DecidableEq α] in
private theorem exists_path (h : L.Ring head l) (ha : a ∈ l) :
    ∃ l₁ l₂, l = l₁ ++ a :: l₂ ∧ L.Path head l₁ a ∧ L.Path a l₂ head := by
  obtain ⟨l₁, l₂, rfl⟩ := List.append_of_mem ha
  exact ⟨l₁, l₂, rfl, RingLinks.path_append.mp h.path⟩

omit [DecidableEq α] in
theorem links_mem (h : L.Ring head l) (ha : a ∈ head :: l) :
    L.prev a ∈ head :: l ∧ L.next a ∈ head :: l := by
  have hmem : ∀ x ∈ l ++ [head], x ∈ head :: l := by
    intro x hx
    rcases List.mem_append.mp hx with hx | hx
    · exact List.mem_cons_of_mem _ hx
    · rw [List.mem_singleton.mp hx]
      exact List.mem_cons_self ..
  rcases List.mem_cons.mp ha with rfl | ha
  · exact ⟨h.path.prev_mem, hmem _ h.path.next_mem⟩
  · obtain ⟨l₁, l₂, rfl, h₁, h₂⟩ := h.exists_path ha
    constructor
    · rcases List.mem_cons.mp h₁.prev_mem with heq | hmem₁
      · rw [heq]
        exact List.mem_cons_self ..
      · exact List.mem_cons_of_mem _ (List.mem_append_left _ hmem₁)
    · refine hmem _ ?_
      rw [List.append_assoc]
      exact List.mem_append_right _ (List.mem_cons_of_mem _ h₂.next_mem)

omit [DecidableEq α] in
theorem links_inverse (h : L.Ring head l) (ha : a ∈ head :: l) :
    L.prev (L.next a) = a ∧ L.next (L.prev a) = a := by
  have hfirst : ∀ {b c : α} {l : List α}, L.Path b l c → L.prev (L.next b) = b := by
    intro b c l hp
    cases l with
    | nil => rw [hp.1, hp.2]
    | cons d l => rw [hp.1, hp.2.1]
  have hlast : ∀ {b c : α} {l : List α}, L.Path b l c → L.next (L.prev c) = c := by
    intro b c l hp
    induction l generalizing b with
    | nil => rw [hp.2, hp.1]
    | cons d l ih => exact ih hp.2.2
  rcases List.mem_cons.mp ha with rfl | ha
  · exact ⟨hfirst h.path, hlast h.path⟩
  · obtain ⟨l₁, l₂, -, h₁, h₂⟩ := h.exists_path ha
    exact ⟨hfirst h₂, hlast h₁⟩

/-- Detaching a node takes it out of the list. -/
theorem detach (h : L.Ring head l) (ha : a ∈ l) : (L.detach a).Ring head (l.erase a) := by
  obtain ⟨l₁, l₂, rfl, h₁, h₂⟩ := h.exists_path ha
  have hnd := h.nodup
  rw [← List.cons_append, List.nodup_middle, List.nodup_cons, List.cons_append] at hnd
  obtain ⟨ha', hnd⟩ := hnd
  have herase : (l₁ ++ a :: l₂).erase a = l₁ ++ l₂ := by
    have ha₁ : a ∉ l₁ := fun hmem ↦
      ha' (List.mem_cons_of_mem _ (List.mem_append_left _ hmem))
    rw [List.erase_append_right _ ha₁, List.erase_cons_head]
  rw [herase]
  obtain ⟨hhead, hl⟩ := List.nodup_cons.mp hnd
  obtain ⟨hl₁, hl₂, hdisj⟩ := List.nodup_append.mp hl
  have hhead₁ : head ∉ l₁ := fun hmem ↦ hhead (List.mem_append_left _ hmem)
  have hhead₂ : head ∉ l₂ := fun hmem ↦ hhead (List.mem_append_right _ hmem)
  refine ⟨h₁.detach h₂ (List.nodup_cons.mpr ⟨hhead₁, hl₁⟩) ?_ ?_ ?_, hnd⟩
  · refine List.nodup_append.mpr ⟨hl₂, List.nodup_singleton head, fun x hx y hy heq ↦ ?_⟩
    exact hhead₂ (List.mem_singleton.mp hy ▸ heq ▸ hx)
  · intro x hx hmem
    rcases List.mem_append.mp hmem with hx₂ | hx₂
    · exact hdisj x hx x hx₂ rfl
    · exact hhead₁ (List.mem_singleton.mp hx₂ ▸ hx)
  · intro x hx hmem
    rcases List.mem_cons.mp hmem with rfl | hx₁
    · exact hhead₂ hx
    · exact hdisj x hx₁ x hx rfl

/-- Inserting before the head appends. -/
theorem insertBefore (h : L.Ring head l) (ha : a ∉ head :: l) :
    (L.insertBefore head a).Ring head (l ++ [a]) := by
  have hne : a ≠ head := fun heq ↦ ha (heq ▸ List.mem_cons_self ..)
  refine ⟨h.path.insertBefore h.nodup h.head_notMem ha hne, ?_⟩
  rw [← List.cons_append, List.nodup_append_comm, List.singleton_append, List.nodup_cons]
  exact ⟨ha, h.nodup⟩

end Ring

end RingLinks
