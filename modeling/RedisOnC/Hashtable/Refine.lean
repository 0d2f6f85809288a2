import RedisOnC.Hashtable.Invariant
import Mathlib.Data.List.Nodup

/-!
# The hash map is a map

Any sequence of insertions, lookups and removals, run on the two tables and on the plain list of
the nodes inserted and not yet popped, gives the same answers; and after it the chains hold exactly
that list. The comparison is any function that decides equality of a logical key, and the hash code
any function of that key: different keys may collide.
-/

namespace RedisOnC

variable {α κ : Type}

/-- A call of the interface of the hash map. -/
inductive HMapCall (α κ : Type)
  | insert (node : HNode α)
  | lookup (key : κ)
  | pop (key : κ)

namespace HMapCall

section Code

variable (hash : κ → ℕ) (eq : α → κ → Bool)

/-- The call, on the map, with the pointer it returns. -/
def exec (m : HMap α) : HMapCall α κ → Option (HMap α × Option (HNode α))
  | insert node => (hmInsert m node).map fun m ↦ (m, none)
  | lookup key => hmLookup m (hash key) fun a ↦ eq a key
  | pop key => hmPop m (hash key) fun a ↦ eq a key

/-- A sequence of calls, with all pointers they return. -/
def execAll (m : HMap α) : List (HMapCall α κ) → Option (HMap α × List (Option (HNode α)))
  | [] => some (m, [])
  | call :: calls => do
    let (m, r) ← call.exec hash eq m
    let (m, rs) ← execAll m calls
    some (m, r :: rs)

end Code

section Spec

variable [DecidableEq κ] (keyOf : α → κ) (hash : κ → ℕ)

/-- The node that carries a key. -/
def find (live : List (HNode α)) (key : κ) : Option (HNode α) :=
  live.find? fun n ↦ keyOf n.val = key

/-- The call, on the list of nodes inserted and not yet popped. -/
def effect (live : List (HNode α)) : HMapCall α κ → List (HNode α) × Option (HNode α)
  | insert node => (node :: live, none)
  | lookup key => (live, find keyOf live key)
  | pop key => (live.filter fun n ↦ keyOf n.val ≠ key, find keyOf live key)

/-- A sequence of calls on that list. -/
def effects (live : List (HNode α)) : List (HMapCall α κ) →
    List (HNode α) × List (Option (HNode α))
  | [] => (live, [])
  | call :: calls =>
    let (live, r) := call.effect keyOf live
    let (live, rs) := effects live calls
    (live, r :: rs)

/-- What a caller has to respect: an inserted node carries the hash code of its key, and no node
with that key is in the map. -/
def Allowed (live : List (HNode α)) : HMapCall α κ → Prop
  | insert node => node.hcode = hash (keyOf node.val) ∧ ∀ n ∈ live, keyOf n.val ≠ keyOf node.val
  | lookup _ => True
  | pop _ => True

def AllAllowed (live : List (HNode α)) : List (HMapCall α κ) → Prop
  | [] => True
  | call :: calls => call.Allowed keyOf hash live ∧ AllAllowed (call.effect keyOf live).1 calls

end Spec

/-- The map holds the nodes of a list, which carry different keys and their hash codes. -/
structure Holds (keyOf : α → κ) (hash : κ → ℕ) (m : HMap α) (live : List (HNode α)) : Prop where
  inv : m.Inv
  perm : m.nodes.Perm live
  nodup : (live.map fun n ↦ keyOf n.val).Nodup
  hcode_eq : ∀ n ∈ live, n.hcode = hash (keyOf n.val)

variable [DecidableEq κ] {keyOf : α → κ} {hash : κ → ℕ} {eq : α → κ → Bool}
variable {m : HMap α} {live : List (HNode α)}

theorem find_eq_some {n : HNode α} {key : κ} (hnd : (live.map fun n ↦ keyOf n.val).Nodup)
    (hn : n ∈ live) (hkey : keyOf n.val = key) : find keyOf live key = some n := by
  cases hfind : find keyOf live key with
  | none =>
    have hno := List.find?_eq_none.mp hfind n hn
    exact absurd hkey (by simpa using hno)
  | some n' =>
    have hn' := List.mem_of_find?_eq_some hfind
    have hkey' : keyOf n'.val = key := by simpa using List.find?_some hfind
    exact congrArg some (List.inj_on_of_nodup_map hnd hn' hn (hkey'.trans hkey.symm))

theorem find_eq_none {key : κ} (h : ∀ n ∈ live, keyOf n.val ≠ key) :
    find keyOf live key = none :=
  List.find?_eq_none.mpr fun n hn ↦ by simpa using h n hn

/-- The nodes without the one that carries a key. -/
private theorem perm_filter_of_perm_cons {n : HNode α} {key : κ} {rest : List (HNode α)}
    (hnd : (live.map fun n ↦ keyOf n.val).Nodup) (hperm : live.Perm (n :: rest))
    (hkey : keyOf n.val = key) : rest.Perm (live.filter fun n ↦ keyOf n.val ≠ key) := by
  have hnd' := (hperm.map fun n ↦ keyOf n.val).nodup_iff.mp hnd
  rw [List.map_cons, List.nodup_cons, List.mem_map] at hnd'
  have hfilter := (hperm.filter fun n ↦ decide (keyOf n.val ≠ key)).symm
  rw [List.filter_cons_of_neg (by simpa using hkey), List.filter_eq_self.mpr] at hfilter
  · exact hfilter
  · exact fun x hx ↦ by simpa using fun heq ↦ hnd'.1 ⟨x, hx, heq.trans hkey.symm⟩

omit [DecidableEq κ] in
private theorem Holds.matches_iff (heq : ∀ a key, eq a key = true ↔ keyOf a = key)
    (h : Holds keyOf hash m live) {n : HNode α} (hn : n ∈ live) {key : κ} :
    n.Matches (hash key) (fun a ↦ eq a key) ↔ keyOf n.val = key := by
  refine ⟨fun hmatch ↦ (heq _ _).mp hmatch.2, fun hkey ↦ ⟨?_, (heq _ _).mpr hkey⟩⟩
  rw [h.hcode_eq n hn, hkey]

theorem Holds.exec (heq : ∀ a key, eq a key = true ↔ keyOf a = key)
    (h : Holds keyOf hash m live) {call : HMapCall α κ} (hcall : call.Allowed keyOf hash live) :
    ∃ m', call.exec hash eq m = some (m', (call.effect keyOf live).2) ∧
      Holds keyOf hash m' (call.effect keyOf live).1 := by
  cases call with
  | insert node =>
    obtain ⟨m', hcode, hinv, hperm⟩ := hmInsert_spec h.inv node
    refine ⟨m', by rw [HMapCall.exec, hcode]; rfl, hinv, hperm.trans (h.perm.cons node), ?_, ?_⟩
    · rw [effect, List.map_cons, List.nodup_cons]
      refine ⟨fun hmem ↦ ?_, h.nodup⟩
      obtain ⟨n, hn, hkey⟩ := List.mem_map.mp hmem
      exact hcall.2 n hn hkey
    · rintro n (_ | ⟨_, hn⟩)
      · exact hcall.1
      · exact h.hcode_eq n hn
  | lookup key =>
    obtain ⟨m', r, hcode, hinv, hperm, hr⟩ := hmLookup_spec h.inv (hash key) fun a ↦ eq a key
    have hfind : find keyOf live key = r := by
      rcases r with _ | n
      · exact find_eq_none fun n hn hkey ↦
          hr n (h.perm.mem_iff.mpr hn) ((h.matches_iff heq hn).mpr hkey)
      · have hn := h.perm.mem_iff.mp hr.1
        exact find_eq_some h.nodup hn ((h.matches_iff heq hn).mp hr.2)
    exact ⟨m', by rw [HMapCall.exec, hcode, effect, hfind], hinv, hperm.trans h.perm, h.nodup,
      h.hcode_eq⟩
  | pop key =>
    obtain ⟨m', r, hcode, hinv, hr⟩ := hmPop_spec h.inv (hash key) fun a ↦ eq a key
    have hsub : (live.filter fun n ↦ keyOf n.val ≠ key).Sublist live := List.filter_sublist
    rcases r with _ | n
    · have hno : ∀ n ∈ live, keyOf n.val ≠ key := fun n hn hkey ↦
        hr.2 n (h.perm.mem_iff.mpr hn) ((h.matches_iff heq hn).mpr hkey)
      refine ⟨m', by rw [HMapCall.exec, hcode, effect, find_eq_none hno], hinv, ?_,
        h.nodup.sublist (hsub.map _), fun n hn ↦ h.hcode_eq n (hsub.subset hn)⟩
      refine (hr.1.trans h.perm).trans (List.Perm.of_eq ?_)
      exact (List.filter_eq_self.mpr fun n hn ↦ by simpa using hno n hn).symm
    · have hperm := h.perm.symm.trans hr.1
      have hn : n ∈ live := hperm.mem_iff.mpr (List.mem_cons_self ..)
      have hkey := (h.matches_iff heq hn).mp hr.2
      exact ⟨m', by rw [HMapCall.exec, hcode, effect, find_eq_some h.nodup hn hkey], hinv,
        perm_filter_of_perm_cons h.nodup hperm hkey, h.nodup.sublist (hsub.map _),
        fun n hn ↦ h.hcode_eq n (hsub.subset hn)⟩

theorem Holds.execAll (heq : ∀ a key, eq a key = true ↔ keyOf a = key)
    (h : Holds keyOf hash m live) {calls : List (HMapCall α κ)}
    (hcalls : AllAllowed keyOf hash live calls) :
    ∃ m', HMapCall.execAll hash eq m calls = some (m', (effects keyOf live calls).2) ∧
      Holds keyOf hash m' (effects keyOf live calls).1 := by
  induction calls generalizing m live with
  | nil => exact ⟨m, rfl, h⟩
  | cons call calls ih =>
    obtain ⟨m₁, hexec, h₁⟩ := h.exec heq hcalls.1
    obtain ⟨m₂, hexec₂, h₂⟩ := ih h₁ hcalls.2
    refine ⟨m₂, ?_, h₂⟩
    rw [HMapCall.execAll, hexec]
    simp only [Option.bind_eq_bind, Option.bind_some, hexec₂]
    rfl

end HMapCall

open HMapCall

/-- **Progressive rehashing loses and duplicates nothing.** From the empty map, every allowed
sequence of calls returns what the list of live nodes says; the chains of the two tables together
hold each live node once, in the slot of its hash code, and `hm_size` counts them. -/
theorem hmap_refines_list [DecidableEq κ] {keyOf : α → κ} {hash : κ → ℕ} {eq : α → κ → Bool}
    (heq : ∀ a key, eq a key = true ↔ keyOf a = key) (calls : List (HMapCall α κ))
    (hcalls : AllAllowed keyOf hash [] calls) :
    ∃ m live rs, effects keyOf [] calls = (live, rs) ∧ execAll hash eq {} calls = some (m, rs) ∧
      (m.ht1.slots.flatten ++ m.ht2.slots.flatten).Perm live ∧ live.Nodup ∧
      hmSize m = live.length ∧
      ∀ t ∈ [m.ht1, m.ht2], ∀ (pos : ℕ) (chain : List (HNode α)), t.slots[pos]? = some chain →
        ∀ n ∈ chain, pos = n.hcode &&& t.mask := by
  have hempty : Holds keyOf hash ({} : HMap α) [] :=
    ⟨HMap.inv_empty, List.Perm.refl _, List.nodup_nil, fun n hn ↦ by cases hn⟩
  obtain ⟨m, hexec, h⟩ := hempty.execAll heq hcalls
  refine ⟨m, _, _, rfl, hexec, h.perm, List.Nodup.of_map _ h.nodup, ?_,
    fun t ht pos chain hchain n hn ↦ ?_⟩
  · rw [h.inv.hmSize_eq, h.perm.length_eq]
  · have hinv : t.Inv := by
      simp only [List.mem_cons, List.not_mem_nil, or_false] at ht
      rcases ht with rfl | rfl
      · exact h.inv.ht1
      · exact h.inv.ht2
    rcases hinv with rfl | hwf
    · cases hchain
    · exact (hwf.placed pos chain hchain n hn).symm

theorem hmap_refines_list_collision :
    ∃ m : HMap ℕ, execAll (fun _ : ℕ ↦ 7) (fun a key ↦ a == key) {}
        [.insert ⟨7, 1⟩, .insert ⟨7, 2⟩, .lookup 1, .pop 1, .lookup 1, .lookup 2]
      = some (m, [none, none, some ⟨7, 1⟩, some ⟨7, 1⟩, none, some ⟨7, 2⟩]) ∧ hmSize m = 1 := by
  obtain ⟨m, live, rs, heff, hexec, -, -, hsize, -⟩ := @hmap_refines_list ℕ ℕ _ id
    (fun _ ↦ 7) (fun a key ↦ a == key) (fun a key ↦ by simp)
    [.insert ⟨7, 1⟩, .insert ⟨7, 2⟩, .lookup 1, .pop 1, .lookup 1, .lookup 2]
    (by simp [AllAllowed, Allowed, effect])
  have hlive : live = [⟨7, 2⟩] ∧ rs = [none, none, some ⟨7, 1⟩, some ⟨7, 1⟩, none, some ⟨7, 2⟩] := by
    simpa [effects, effect, find, eq_comm] using heff
  obtain ⟨rfl, rfl⟩ := hlive
  exact ⟨m, hexec, hsize⟩

end RedisOnC
