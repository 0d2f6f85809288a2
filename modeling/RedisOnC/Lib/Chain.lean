import Mathlib.Data.List.Nodup

/-!
# Linked lists in memory

Nodes that are linked through a pointer in each to the one behind it. What a memory holds is given
by a relation: `stored n q` says that the node `n` is at its address, with the pointer `q`. So a
node can be anything that has an address, and an operation on the list is known by the nodes that it
keeps and the one that it links anew.

`LinkedChain addr stored p l` says that the pointer `p` leads through the nodes `l`, and
`LinkedTable` says the same of an array of pointers and a list of chains.
-/

variable {A N : Type} {addr : N → A} {stored stored' : N → Option A → Prop}

/-- The pointer leads through these nodes and to a null pointer behind them. -/
def LinkedChain (addr : N → A) (stored : N → Option A → Prop) : Option A → List N → Prop
  | p, [] => p = none
  | p, n :: l => p = some (addr n) ∧ ∃ q, stored n q ∧ LinkedChain addr stored q l

namespace LinkedChain

variable {p : Option A} {l r : List N} {a n : N}

theorem congr (h : LinkedChain addr stored p l) (hl : ∀ n ∈ l, ∀ q, stored n q → stored' n q) :
    LinkedChain addr stored' p l := by
  induction l generalizing p with
  | nil => exact h
  | cons n l ih =>
    obtain ⟨hp, q, hn, hq⟩ := h
    exact ⟨hp, q, hl n (List.mem_cons_self ..) q hn,
      ih hq fun n' hn' ↦ hl n' (List.mem_cons_of_mem _ hn')⟩

theorem exists_stored (h : LinkedChain addr stored p l) : ∀ n ∈ l, ∃ q, stored n q := by
  induction l generalizing p with
  | nil => exact fun n hn ↦ absurd hn List.not_mem_nil
  | cons n l ih =>
    obtain ⟨-, q, hn, hq⟩ := h
    intro n' hn'
    rcases List.mem_cons.mp hn' with rfl | hn'
    · exact ⟨q, hn⟩
    · exact ih hq n' hn'

theorem stored_before (h : LinkedChain addr stored p (l ++ a :: n :: r)) :
    stored a (some (addr n)) := by
  induction l generalizing p with
  | nil =>
    obtain ⟨-, q, ha, hq, -⟩ := h
    exact hq ▸ ha
  | cons n' l ih =>
    obtain ⟨-, q, -, hq⟩ := h
    exact ih hq

/-- A node is taken out of the middle: the one before it gets its pointer. -/
theorem unlink (h : LinkedChain addr stored p (l ++ a :: n :: r))
    (hkeep : ∀ n' ∈ l ++ r, ∀ q, stored n' q → stored' n' q)
    (ha : ∀ q, stored n q → stored' a q) : LinkedChain addr stored' p (l ++ a :: r) := by
  induction l generalizing p with
  | nil =>
    obtain ⟨hp, _, -, -, q, hn, hq⟩ := h
    exact ⟨hp, q, ha q hn, hq.congr hkeep⟩
  | cons n' l ih =>
    obtain ⟨hp, q, hn', hq⟩ := h
    exact ⟨hp, q, hkeep n' (List.mem_cons_self ..) q hn',
      ih hq fun n'' hn'' ↦ hkeep n'' (List.mem_cons_of_mem _ hn'')⟩

end LinkedChain

/-- An array of pointers, each of which leads through its chain. -/
structure LinkedTable (addr : N → A) (stored : N → Option A → Prop) (heads : List (Option A))
    (chains : List (List N)) : Prop where
  length_eq : heads.length = chains.length
  chain : ∀ (i : ℕ) (p : Option A) (l : List N), heads[i]? = some p → chains[i]? = some l →
    LinkedChain addr stored p l

namespace LinkedTable

variable {heads : List (Option A)} {chains : List (List N)} {i : ℕ} {p : Option A} {l : List N}

theorem replicate (n : ℕ) :
    LinkedTable addr stored (List.replicate n none) (List.replicate n []) where
  length_eq := by rw [List.length_replicate, List.length_replicate]
  chain i p l hp hl := by
    obtain ⟨-, rfl⟩ := List.mem_replicate.mp (List.mem_of_getElem? hp)
    obtain ⟨-, rfl⟩ := List.mem_replicate.mp (List.mem_of_getElem? hl)
    rfl

theorem exists_head (h : LinkedTable addr stored heads chains) (hl : chains[i]? = some l) :
    ∃ p, heads[i]? = some p ∧ LinkedChain addr stored p l := by
  have hi : i < heads.length := h.length_eq ▸ (List.getElem?_eq_some_iff.mp hl).1
  exact ⟨heads[i], List.getElem?_eq_getElem hi, h.chain i _ l (List.getElem?_eq_getElem hi) hl⟩

theorem congr (h : LinkedTable addr stored heads chains)
    (hkeep : ∀ n ∈ chains.flatten, ∀ q, stored n q → stored' n q) :
    LinkedTable addr stored' heads chains where
  length_eq := h.length_eq
  chain i p l hp hl := (h.chain i p l hp hl).congr fun n hn ↦
    hkeep n (List.mem_flatten.mpr ⟨l, List.mem_of_getElem? hl, hn⟩)

/-- One chain is replaced, in memory and in the array. -/
theorem set (h : LinkedTable addr stored heads chains) (hi : LinkedChain addr stored' p l)
    (hkeep : ∀ (j : ℕ) (c : List N), j ≠ i → chains[j]? = some c →
      ∀ n ∈ c, ∀ q, stored n q → stored' n q) :
    LinkedTable addr stored' (heads.set i p) (chains.set i l) where
  length_eq := by rw [List.length_set, List.length_set, h.length_eq]
  chain j p' l' hp' hl' := by
    by_cases hij : i = j
    · subst hij
      have hlt := (List.getElem?_eq_some_iff.mp hp').1
      have hlt' := (List.getElem?_eq_some_iff.mp hl').1
      rw [List.length_set] at hlt hlt'
      rw [List.getElem?_set_self hlt, Option.some_inj] at hp'
      rw [List.getElem?_set_self hlt', Option.some_inj] at hl'
      exact hp' ▸ hl' ▸ hi
    · rw [List.getElem?_set_ne hij] at hp' hl'
      exact (h.chain j p' l' hp' hl').congr (hkeep j l' (Ne.symm hij) hl')

theorem addr_ne {c d : List N} {j : ℕ} {x y : N} (hnd : (chains.flatten.map addr).Nodup)
    (hc : chains[i]? = some c) (hd : chains[j]? = some d) (hij : i ≠ j) (hx : x ∈ c) (hy : y ∈ d) :
    addr x ≠ addr y := by
  rw [List.map_flatten, List.nodup_flatten] at hnd
  have hpair := List.pairwise_iff_getElem.mp hnd.2
  obtain ⟨hi, rfl⟩ := List.getElem?_eq_some_iff.mp hc
  obtain ⟨hj, rfl⟩ := List.getElem?_eq_some_iff.mp hd
  have hlen : (chains.map (List.map addr)).length = chains.length := List.length_map ..
  intro heq
  rcases Nat.lt_or_gt_of_ne hij with hlt | hlt
  · have hdisj := hpair i j (hlen ▸ hi) (hlen ▸ hj) hlt
    rw [List.getElem_map, List.getElem_map] at hdisj
    exact hdisj (List.mem_map_of_mem hx) (heq ▸ List.mem_map_of_mem hy)
  · have hdisj := hpair j i (hlen ▸ hj) (hlen ▸ hi) hlt
    rw [List.getElem_map, List.getElem_map] at hdisj
    exact hdisj (List.mem_map_of_mem hy) (heq ▸ List.mem_map_of_mem hx)

end LinkedTable
