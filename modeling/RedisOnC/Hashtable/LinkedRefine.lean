import RedisOnC.Hashtable.Simulation

/-!
# The hash map in memory is a map

The code of the hash map with its pointers, in the middle of a program: before each call the rest of
the program does anything to the memory but to the nodes that are in the map, frees nodes that it
has popped and allocates others at the same addresses. Every call returns the address of the node
that the list of live nodes says, reads and writes allocated nodes only, and writes nothing but the
`next` of nodes in the map.
-/

namespace RedisOnC

namespace Linked

variable {β κ : Type}

/-- The node that a call brings. -/
def brought : HMapCall (Ptr × β) κ → List (RedisOnC.HNode (Ptr × β))
  | .insert node => [node]
  | .lookup _ => []
  | .pop _ => []

section Code

variable (hash : κ → ℕ) (eq : β → κ → Bool)

/-- A call, with the pointer that it returns. -/
def exec (H : HHeap β) (m : HMap) :
    HMapCall (Ptr × β) κ → Option (HHeap β × HMap × Option Ptr)
  | .insert node => (hmInsert H m (addr node)).map fun (H, m) ↦ (H, m, none)
  | .lookup key => hmLookup H m (hash key) fun b ↦ eq b key
  | .pop key => hmPop H m (hash key) fun b ↦ eq b key

/-- A sequence of calls, with all pointers that they return. Before each of them the rest of the
program writes to the memory. -/
def execAll (H : HHeap β) (m : HMap) : List ((HHeap β → HHeap β) × HMapCall (Ptr × β) κ) →
    Option (HHeap β × HMap × List (Option Ptr))
  | [] => some (H, m, [])
  | (others, call) :: calls => do
    let (H, m, r) ← exec hash eq (others H) m call
    let (H, m, rs) ← execAll H m calls
    some (H, m, r :: rs)

end Code

/-- What the rest of the program has to respect: it leaves the nodes of the map alone, and it has
allocated the node that it inserts. -/
structure Respects (others : HHeap β → HHeap β) (live : List (RedisOnC.HNode (Ptr × β)))
    (call : HMapCall (Ptr × β) κ) : Prop where
  keep : ∀ H, ∀ n ∈ live, others H (addr n) = H (addr n)
  brought : ∀ H, ∀ n ∈ brought call, ∃ q, Stored (others H) n q

/-- The calls respect the nodes that are in the map at that time, and the keys. -/
def AllRespect [DecidableEq κ] (keyOf : β → κ) (hash : κ → ℕ)
    (live : List (RedisOnC.HNode (Ptr × β))) :
    List ((HHeap β → HHeap β) × HMapCall (Ptr × β) κ) → Prop
  | [] => True
  | (others, call) :: calls =>
    Respects others live call ∧ call.Allowed (fun a ↦ keyOf a.2) hash live ∧
      AllRespect keyOf hash (call.effect (fun a ↦ keyOf a.2) live).1 calls

variable [DecidableEq κ] {keyOf : β → κ} {hash : κ → ℕ} {eq : β → κ → Bool}
variable {live : List (RedisOnC.HNode (Ptr × β))} {others : HHeap β → HHeap β}
variable {call : HMapCall (Ptr × β) κ}

/-- The map in memory holds the nodes of a list. -/
structure Holds (keyOf : β → κ) (hash : κ → ℕ) (H : HHeap β) (m : HMap)
    (live : List (RedisOnC.HNode (Ptr × β))) : Prop where
  exists_sim : ∃ M : RedisOnC.HMap (Ptr × β), m.Sim H M ∧
    HMapCall.Holds (fun a : Ptr × β ↦ keyOf a.2) hash M live

variable {H : HHeap β} {m : HMap}

omit [DecidableEq κ] in
theorem holds_empty (H : HHeap β) : Holds keyOf hash H {} [] :=
  ⟨{}, HMap.sim_empty, HMap.inv_empty, List.Perm.refl _, List.nodup_nil, fun _ hn ↦ by cases hn⟩

/-- **One call**, after what the rest of the program has done. -/
theorem Holds.exec (heq : ∀ b key, eq b key = true ↔ keyOf b = key) (h : Holds keyOf hash H m live)
    (hothers : Respects others live call) (hcall : call.Allowed (fun a ↦ keyOf a.2) hash live) :
    ∃ H' m', Linked.exec hash eq (others H) m call
        = some (H', m', (call.effect (fun a ↦ keyOf a.2) live).2.map addr) ∧
      Holds keyOf hash H' m' (call.effect (fun a ↦ keyOf a.2) live).1 ∧
      Relinked (others H) H' ((brought call ++ live).map addr) := by
  obtain ⟨M, hsim, hholds⟩ := h.exists_sim
  obtain ⟨M', hexec, hholds'⟩ := hholds.exec (fun a key ↦ heq a.2 key) hcall
  have hsim : m.Sim (others H) M := hsim.congr fun n hn ↦
    hothers.keep H n (hholds.perm.mem_iff.mp hn)
  have hlive : ∀ a ∈ M.nodes.map addr, a ∈ live.map addr := fun a ha ↦
    (hholds.perm.map addr).mem_iff.mp ha
  cases call with
  | insert node =>
    obtain ⟨q, hq⟩ := hothers.brought H node (List.mem_singleton_self node)
    obtain ⟨M₁, hinsert, heq'⟩ := Option.map_eq_some_iff.mp hexec
    obtain ⟨rfl, -⟩ := Prod.mk.inj heq'
    -- a node of the map at the same address would have the same key
    have hout : ∀ n' ∈ M.nodes, addr n' ≠ addr node := by
      intro n' hn' haddr
      obtain ⟨q', hq'⟩ := hsim.exists_stored hn'
      rw [Stored, haddr] at hq'
      have hcell := hq'.symm.trans hq
      have hkey : n'.val.2 = node.val.2 := congrArg HNode.obj (Option.some_inj.mp hcell)
      exact hcall.2 n' (hholds.perm.mem_iff.mp hn') (congrArg keyOf hkey)
    obtain ⟨H', m', hcode, hsim', hlink⟩ := hmInsert_sim hsim hq hout hinsert
    refine ⟨H', m', by rw [Linked.exec, hcode]; rfl, ⟨M₁, hsim', hholds'⟩,
      hlink.mono fun a ha ↦ ?_⟩
    rcases List.mem_cons.mp ha with rfl | ha
    · exact List.mem_cons_self ..
    · exact List.mem_cons_of_mem _ (hlive a ha)
  | lookup key =>
    obtain ⟨H', m', hcode, hsim', hlink⟩ := hmLookup_sim hsim (fun b ↦ eq b key) hexec
    exact ⟨H', m', hcode, ⟨M', hsim', hholds'⟩, hlink.mono hlive⟩
  | pop key =>
    obtain ⟨H', m', hcode, hsim', hlink⟩ := hmPop_sim hsim (fun b ↦ eq b key) hexec
    exact ⟨H', m', hcode, ⟨M', hsim', hholds'⟩, hlink.mono hlive⟩

theorem Holds.execAll (heq : ∀ b key, eq b key = true ↔ keyOf b = key)
    (h : Holds keyOf hash H m live) {calls : List ((HHeap β → HHeap β) × HMapCall (Ptr × β) κ)}
    (hcalls : AllRespect keyOf hash live calls) :
    ∃ H' m', Linked.execAll hash eq H m calls = some (H', m',
        (HMapCall.effects (fun a ↦ keyOf a.2) live (calls.map Prod.snd)).2.map (Option.map addr)) ∧
      Holds keyOf hash H' m' (HMapCall.effects (fun a ↦ keyOf a.2) live (calls.map Prod.snd)).1 := by
  induction calls generalizing H m live with
  | nil => exact ⟨H, m, rfl, h⟩
  | cons c calls ih =>
    obtain ⟨others, call⟩ := c
    obtain ⟨hothers, hcall, hcalls⟩ := hcalls
    obtain ⟨H₁, m₁, hexec, h₁, -⟩ := h.exec heq hothers hcall
    obtain ⟨H₂, m₂, hexecs, h₂⟩ := ih h₁ hcalls
    refine ⟨H₂, m₂, ?_, h₂⟩
    rw [Linked.execAll, hexec, Option.bind_eq_bind, Option.bind_some]
    dsimp only
    rw [hexecs]
    rfl

omit [DecidableEq κ] in
theorem Holds.scan (h : Holds keyOf hash H m live) : ∃ l₁ l₂, hScan H m.ht1 = some l₁ ∧
    hScan H m.ht2 = some l₂ ∧ (l₁ ++ l₂).Perm (live.map addr) ∧ (l₁ ++ l₂).Nodup ∧
    m.ht1.size + m.ht2.size = live.length := by
  obtain ⟨M, hsim, hholds⟩ := h.exists_sim
  refine ⟨M.ht1.nodes.map addr, M.ht2.nodes.map addr, hScan_sim hsim.ht1 (hScan_spec hholds.inv.ht1),
    hScan_sim hsim.ht2 (hScan_spec hholds.inv.ht2), ?_, hsim.nodup_append, ?_⟩
  · rw [← List.map_append]
    exact hholds.perm.map addr
  · rw [hsim.ht1.size, hsim.ht2.size, ← hholds.perm.length_eq]
    exact hholds.inv.hmSize_eq

omit [DecidableEq κ] in
theorem Holds.exists_stored (h : Holds keyOf hash H m live) : ∀ n ∈ live, ∃ q, Stored H n q := by
  obtain ⟨M, hsim, hholds⟩ := h.exists_sim
  exact fun n hn ↦ hsim.exists_stored (hholds.perm.mem_iff.mpr hn)

/-- **The pointers of the hash map are safe, and it is a map.** From the empty map, in a memory to
which the rest of the program writes before each call, every call returns the node that the list of
live nodes says; none reads or writes an address that is not allocated. The pointers of the two
tables lead through each live node once, which are all still in memory, and the sizes count them.
What the next call writes is the `next` of live nodes and of the one that it inserts, and no other
place. -/
theorem linked_refines_list (heq : ∀ b key, eq b key = true ↔ keyOf b = key) (H : HHeap β)
    (calls : List ((HHeap β → HHeap β) × HMapCall (Ptr × β) κ))
    (hcalls : AllRespect keyOf hash [] calls) :
    ∃ H' m live rs l₁ l₂,
      HMapCall.effects (fun a ↦ keyOf a.2) [] (calls.map Prod.snd) = (live, rs) ∧
      execAll hash eq H {} calls = some (H', m, rs.map (Option.map addr)) ∧
      (∀ n ∈ live, ∃ q, Stored H' n q) ∧ hScan H' m.ht1 = some l₁ ∧ hScan H' m.ht2 = some l₂ ∧
      (l₁ ++ l₂).Perm (live.map addr) ∧ (l₁ ++ l₂).Nodup ∧
      m.ht1.size + m.ht2.size = live.length ∧
      ∀ others call, Respects others live call → call.Allowed (fun a ↦ keyOf a.2) hash live →
        ∃ H'' m'', exec hash eq (others H') m call
            = some (H'', m'', (call.effect (fun a ↦ keyOf a.2) live).2.map addr) ∧
          Relinked (others H') H'' ((brought call ++ live).map addr) := by
  obtain ⟨H', m, hexec, h⟩ := (holds_empty H).execAll heq hcalls
  obtain ⟨l₁, l₂, hscan₁, hscan₂, hperm, hnd, hsize⟩ := h.scan
  refine ⟨H', m, _, _, l₁, l₂, rfl, hexec, h.exists_stored, hscan₁, hscan₂, hperm, hnd, hsize,
    fun others call hothers hcall ↦ ?_⟩
  obtain ⟨H'', m'', hexec', -, hlink⟩ := h.exec heq hothers hcall
  exact ⟨H'', m'', hexec', hlink⟩

/-- `malloc` of a node, which writes its hash code and its object. -/
def alloc (p : Ptr) (hcode : ℕ) (obj : β) (H : HHeap β) : HHeap β :=
  Function.update H p (some ⟨none, hcode, obj⟩)

/-- A node is popped and freed, and another one is allocated at its address. -/
theorem linked_refines_list_reuse : ∃ H' m,
    execAll (fun _ : ℕ ↦ 7) (fun a key ↦ a == key) (fun _ ↦ none) {}
        [(alloc 1 7 10, .insert ⟨7, 1, 10⟩), (id, .pop 10), (alloc 1 7 20, .insert ⟨7, 1, 20⟩),
          (id, .lookup 20)]
      = some (H', m, [none, some 1, none, some 1]) := by
  -- the popped node is not in the map any more, so its address may be used again
  have hcalls : AllRespect id (fun _ ↦ 7) []
      [(alloc 1 7 10, .insert ⟨7, 1, 10⟩), (id, .pop 10), (alloc 1 7 20, .insert ⟨7, 1, 20⟩),
        (id, .lookup 20)] := by
    have halloc : ∀ obj : ℕ, Respects (κ := ℕ) (alloc 1 7 obj) [] (.insert ⟨7, 1, obj⟩) := by
      intro obj
      refine ⟨fun _ _ hn ↦ absurd hn List.not_mem_nil, fun H n hn ↦ ?_⟩
      obtain rfl := List.mem_singleton.mp hn
      exact ⟨none, Function.update_self ..⟩
    have hid : ∀ live (call : HMapCall (Ptr × ℕ) ℕ), brought call = [] → Respects id live call :=
      fun live call hcall ↦ ⟨fun _ _ _ ↦ rfl, fun _ n hn ↦ absurd (hcall ▸ hn) List.not_mem_nil⟩
    exact ⟨halloc 10, ⟨rfl, fun _ hn ↦ absurd hn List.not_mem_nil⟩, hid _ _ rfl, trivial, halloc 20,
      ⟨rfl, fun _ hn ↦ absurd hn List.not_mem_nil⟩, hid _ _ rfl, trivial, trivial⟩
  have heq : ∀ a key : ℕ, (a == key) = true ↔ id a = key := fun a key ↦ beq_iff_eq
  obtain ⟨H', m, live, rs, -, -, heff, hexec, -⟩ := linked_refines_list heq (fun _ ↦ none) _ hcalls
  obtain ⟨-, rfl⟩ := Prod.mk.inj heff
  exact ⟨H', m, hexec⟩

end Linked

end RedisOnC
