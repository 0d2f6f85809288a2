import RedisOnC.Loop.Basic
import Mathlib.Data.List.Nodup

/-!
# The table and the list

The invariant of the main loop. The list of idle connections is a ring through its head, it has the
same connections as the table `fd2conn`, and it is sorted by the time of the last activity: every
operation puts a connection at its end, with a time that is read after all the others.

Each operation has one lemma that says what becomes of the list, and none of them touches a pointer
that is null or freed. Between two steps of the main loop no connection is marked for deletion, and
the descriptors that are still to be served belong to connections.
-/

namespace RedisOnC

variable {D : Type} {handle : D → List Bytes → Option (D × Bytes)}
variable {s s' : Server D} {idle : List Ptr} {clock nowUs : ℕ} {p : Ptr}

theorem IdleNode.conn_injective : Function.Injective IdleNode.conn := fun _ _ h ↦ by
  cases h
  rfl

/-- The connections `idle` are on the list, in this order, and they are those of the table and those
on the heap. -/
structure Server.Inv (s : Server D) (idle : List Ptr) (clock : ℕ) : Prop where
  ring : s.links.Ring .head (idle.map .conn)
  clients : s.clients.Perm idle
  fd2conn : ∀ fd p, s.fd2conn[fd]? = some (some p) ↔ p ∈ idle ∧ (s.client p).fd = fd
  sorted : (idle.map fun p ↦ (s.client p).idleStart).Pairwise (· ≤ ·)
  le_clock : ∀ p ∈ idle, (s.client p).idleStart ≤ clock

namespace Server.Inv

theorem nodup (h : s.Inv idle clock) : idle.Nodup :=
  List.Nodup.of_map _ (List.nodup_cons.mp h.ring.nodup).2

theorem mono (h : s.Inv idle clock) (hclock : clock ≤ nowUs) : s.Inv idle nowUs :=
  { h with le_clock := fun p hp ↦ (h.le_clock p hp).trans hclock }

theorem good (h : s.Inv idle clock) : ∀ a ∈ idle.map .conn, s.Good a := by
  intro a ha
  obtain ⟨p, hp, rfl⟩ := List.mem_map.mp ha
  exact h.clients.mem_iff.mpr hp

theorem fd_injective (h : s.Inv idle clock) {q : Ptr} (hp : p ∈ idle) (hq : q ∈ idle)
    (heq : (s.client p).fd = (s.client q).fd) : p = q := by
  have hp' := (h.fd2conn _ p).mpr ⟨hp, rfl⟩
  have hq' := (h.fd2conn _ q).mpr ⟨hq, heq.symm⟩
  rw [hp'] at hq'
  exact Option.some_inj.mp (Option.some_inj.mp hq')

end Server.Inv

/-! ## The operations -/

private theorem good_links {l : List IdleNode} {a : IdleNode} (hring : s.links.Ring .head l)
    (hgood : ∀ b ∈ l, s.Good b) (ha : a ∈ IdleNode.head :: l) :
    s.Good (s.links.prev a) ∧ s.Good (s.links.next a) := by
  have hmem : ∀ b ∈ IdleNode.head :: l, s.Good b := by
    intro b hb
    rcases List.mem_cons.mp hb with rfl | hb
    · trivial
    · exact hgood b hb
  obtain ⟨hprev, hnext⟩ := hring.links_mem ha
  exact ⟨hmem _ hprev, hmem _ hnext⟩

theorem dlistDetach_eq {l : List IdleNode} {a : IdleNode} (hring : s.links.Ring .head l)
    (hgood : ∀ b ∈ l, s.Good b) (ha : a ∈ l) :
    dlistDetach s a = some { s with links := s.links.detach a } :=
  if_pos ⟨hgood a ha, good_links hring hgood (List.mem_cons_of_mem _ ha)⟩

theorem dlistInsertBefore_eq {l : List IdleNode} {a : IdleNode} (hring : s.links.Ring .head l)
    (hgood : ∀ b ∈ l, s.Good b) (ha : s.Good a) :
    dlistInsertBefore s .head a = some { s with links := s.links.insertBefore .head a } :=
  if_pos ⟨trivial, ha, (good_links hring hgood (List.mem_cons_self ..)).1⟩

private theorem conn_notMem (hp : p ∉ idle) : IdleNode.conn p ∉ IdleNode.head :: idle.map .conn := by
  intro hmem
  rcases List.mem_cons.mp hmem with heq | hmem
  · cases heq
  · obtain ⟨q, hq, heq⟩ := List.mem_map.mp hmem
    obtain rfl := IdleNode.conn_injective heq
    exact hp hq

/-- The newest time goes to the end: the times stay in order, and none is in the future. -/
private theorem newest_last {time time' : Ptr → ℕ} (hsorted : (idle.map time).Pairwise (· ≤ ·))
    (hle : ∀ q ∈ idle, time q ≤ nowUs) (hsame : ∀ q ∈ idle, time' q = time q)
    (hnow : time' p = nowUs) :
    ((idle ++ [p]).map time').Pairwise (· ≤ ·) ∧ ∀ q ∈ idle ++ [p], time' q ≤ nowUs := by
  have hle' : ∀ q ∈ idle ++ [p], time' q ≤ nowUs := by
    intro q hq
    rcases List.mem_append.mp hq with hq | hq
    · rw [hsame q hq]
      exact hle q hq
    · rw [List.mem_singleton.mp hq, hnow]
  refine ⟨?_, hle'⟩
  rw [List.map_append, List.map_congr_left hsame]
  apply List.pairwise_append.mpr
  refine ⟨hsorted, List.pairwise_singleton .., ?_⟩
  intro x hx y hy
  obtain ⟨q, hq, rfl⟩ := List.mem_map.mp hx
  obtain ⟨r, hr, rfl⟩ := List.mem_map.mp hy
  rw [List.mem_singleton.mp hr, hnow]
  exact hle q hq

theorem Server.Inv.touch (h : s.Inv idle clock) (hp : p ∈ idle) (hclock : clock ≤ nowUs)
    (hring : s'.links.Ring .head ((idle.erase p ++ [p]).map .conn))
    (hclients : s'.clients = s.clients) (hfd2conn : s'.fd2conn = s.fd2conn)
    (hother : ∀ q ≠ p, s'.client q = s.client q)
    (hfd : (s'.client p).fd = (s.client p).fd) (hnow : (s'.client p).idleStart = nowUs) :
    s'.Inv (idle.erase p ++ [p]) nowUs := by
  have hperm : (idle.erase p ++ [p]).Perm idle :=
    List.perm_append_comm.trans (List.perm_cons_erase hp).symm
  have hfds : ∀ q, (s'.client q).fd = (s.client q).fd := by
    intro q
    by_cases hqp : q = p
    · rw [hqp, hfd]
    · rw [hother q hqp]
  have hstart : ∀ q ∈ idle.erase p, (s'.client q).idleStart = (s.client q).idleStart := by
    intro q hq
    rw [hother q (h.nodup.mem_erase_iff.mp hq).1]
  have hle : ∀ q ∈ idle.erase p, (s.client q).idleStart ≤ nowUs := fun q hq ↦
    (h.le_clock q (List.mem_of_mem_erase hq)).trans hclock
  obtain ⟨hsorted, hpast⟩ :=
    newest_last (h.sorted.sublist (List.erase_sublist.map _)) hle hstart hnow
  constructor
  · exact hring
  · rw [hclients]
    exact h.clients.trans hperm.symm
  · intro fd q
    rw [hfd2conn, h.fd2conn, hfds, hperm.mem_iff]
  · exact hsorted
  · exact hpast

/-- Detaching a connection and inserting it again before the head. -/
private theorem move_spec (hring : s.links.Ring .head (idle.map .conn))
    (hgood : ∀ a ∈ idle.map .conn, s.Good a) (hp : p ∈ idle) :
    ∃ links : RingLinks IdleNode, (dlistDetach s (.conn p)).bind
        (fun s ↦ dlistInsertBefore s .head (.conn p)) = some { s with links := links } ∧
      links.Ring .head ((idle.erase p ++ [p]).map .conn) := by
  have hnode : IdleNode.conn p ∈ idle.map .conn := List.mem_map_of_mem hp
  have hnd : idle.Nodup := List.Nodup.of_map _ (List.nodup_cons.mp hring.nodup).2
  obtain ⟨s₁, hs₁⟩ : ∃ s₁ : Server D, s₁ = { s with links := s.links.detach (.conn p) } :=
    ⟨_, rfl⟩
  have hring₁ : s₁.links.Ring .head ((idle.erase p).map .conn) := by
    rw [hs₁, List.map_erase IdleNode.conn_injective]
    exact hring.detach hnode
  have hgood₁ : ∀ a ∈ (idle.erase p).map .conn, s₁.Good a := by
    intro a ha
    obtain ⟨q, hq, rfl⟩ := List.mem_map.mp ha
    rw [hs₁]
    exact hgood _ (List.mem_map_of_mem (List.mem_of_mem_erase hq))
  refine ⟨s₁.links.insertBefore .head (.conn p), ?_, ?_⟩
  · have hlive₁ : s₁.Good (.conn p) := by
      rw [hs₁]
      exact hgood _ hnode
    rw [dlistDetach_eq hring hgood hnode, Option.bind_some, ← hs₁,
      dlistInsertBefore_eq hring₁ hgood₁ hlive₁, hs₁]
  · rw [List.map_append]
    apply hring₁.insertBefore
    exact conn_notMem fun hmem ↦ (hnd.mem_erase_iff.mp hmem).1 rfl

/-- **`connection_io`.** The connection goes to the end of the list; the others stay as they are. -/
theorem timedConnectionIo_spec (h : s.Inv idle clock) (hp : p ∈ idle) (hclock : clock ≤ nowUs)
    (recvs : List RecvResult) (sends : List SendResult) :
    (timedConnectionIo handle s p nowUs recvs sends).Sat
      (fun _ s' ↦ s'.Inv (idle.erase p ++ [p]) nowUs ∧ s'.fd2conn = s.fd2conn ∧
        (∀ q ≠ p, s'.client q = s.client q) ∧ (s'.client p).fd = (s.client p).fd)
      fun f _ ↦ ∃ f', f = .conn f' := by
  have hlive : p ∈ s.clients := h.clients.mem_iff.mpr hp
  obtain ⟨s₁, hs₁⟩ : ∃ s₁ : Server D, s₁ = { s with
      client := Function.update s.client p { s.client p with idleStart := nowUs } } := ⟨_, rfl⟩
  have hself₁ : s₁.client p = { s.client p with idleStart := nowUs } := by
    rw [hs₁]
    exact Function.update_self ..
  have hring₁ : s₁.links.Ring .head (idle.map .conn) := by
    rw [hs₁]
    exact h.ring
  have hgood₁ : ∀ a ∈ idle.map .conn, s₁.Good a := by
    rw [hs₁]
    exact h.good
  obtain ⟨links, hmove, hring⟩ := move_spec hring₁ hgood₁ hp
  rw [timedConnectionIo, if_neg (not_not.mpr hlive)]
  simp only [← hs₁, Option.bind_eq_bind, hmove, Outcome.ofOption_some, Outcome.ret_bind]
  cases connectionIo handle
      { conn := (s₁.client p).conn, db := s₁.db, recvs := recvs, sends := sends } with
  | stop f w => exact ⟨f, rfl⟩
  | ret u w =>
    set c : Client := { s₁.client p with conn := w.conn } with hc
    have hother : ∀ q ≠ p, Function.update s₁.client p c q = s.client q := by
      intro q hqp
      rw [Function.update_of_ne hqp, hs₁]
      exact Function.update_of_ne hqp ..
    have hself : Function.update s₁.client p c p = c := Function.update_self ..
    have hfd : (Function.update s₁.client p c p).fd = (s.client p).fd := by
      rw [hself, hc, hself₁]
    have hnow : (Function.update s₁.client p c p).idleStart = nowUs := by
      rw [hself, hc, hself₁]
    have hfd2conn : s₁.fd2conn = s.fd2conn := by rw [hs₁]
    exact ⟨h.touch hp hclock hring (by rw [hs₁]) hfd2conn hother hfd hnow, hfd2conn, hother, hfd⟩

/-- **`conn_done`.** The connection is taken off the list and out of the table. -/
theorem connDone_spec (h : s.Inv idle clock) (hp : p ∈ idle) :
    ∃ s', connDone s p = some s' ∧ s'.Inv (idle.erase p) clock ∧ s'.client = s.client ∧
      s'.db = s.db := by
  have hlive : p ∈ s.clients := h.clients.mem_iff.mpr hp
  have hentry := (h.fd2conn _ p).mpr ⟨hp, rfl⟩
  obtain ⟨hlt, -⟩ := List.getElem?_eq_some_iff.mp hentry
  have hnode : IdleNode.conn p ∈ idle.map .conn := List.mem_map_of_mem hp
  obtain ⟨s₁, hs₁⟩ : ∃ s₁ : Server D,
      s₁ = { s with fd2conn := s.fd2conn.set (s.client p).fd none } := ⟨_, rfl⟩
  have hdetach : dlistDetach s₁ (.conn p)
      = some { s₁ with links := s₁.links.detach (.conn p) } := by
    apply dlistDetach_eq (l := idle.map .conn) _ _ hnode
    · rw [hs₁]
      exact h.ring
    · rw [hs₁]
      exact h.good
  refine ⟨{ s₁ with links := s₁.links.detach (.conn p), clients := s₁.clients.erase p }, ?_, ?_,
    by rw [hs₁], by rw [hs₁]⟩
  · rw [connDone, if_pos ⟨hlive, hlt⟩]
    simp only [← hs₁, hdetach, Option.bind_eq_bind, Option.bind_some]
  · rw [hs₁]
    constructor
    · rw [List.map_erase IdleNode.conn_injective]
      exact h.ring.detach hnode
    · exact h.clients.erase p
    · intro fd q
      rw [List.getElem?_set, h.nodup.mem_erase_iff]
      by_cases hfd : (s.client p).fd = fd
      · -- the entry of the connection itself
        rw [if_pos hfd, if_pos hlt]
        refine iff_of_false (fun heq ↦ by cases heq) ?_
        rintro ⟨⟨hqp, hq⟩, hfdq⟩
        exact hqp (h.fd_injective hq hp (hfdq.trans hfd.symm))
      · rw [if_neg hfd, h.fd2conn]
        constructor
        · rintro ⟨hq, hfdq⟩
          exact ⟨⟨fun heq ↦ hfd (heq ▸ hfdq), hq⟩, hfdq⟩
        · rintro ⟨⟨-, hq⟩, hfdq⟩
          exact ⟨hq, hfdq⟩
    · exact h.sorted.sublist (List.erase_sublist.map _)
    · intro q hq
      exact h.le_clock q (List.mem_of_mem_erase hq)

theorem getElem?_connPut (v : List (Option Ptr)) (fd i : ℕ) (q : Ptr) :
    (connPut v fd p)[i]? = some (some q) ↔ i = fd ∧ q = p ∨ i ≠ fd ∧ v[i]? = some (some q) := by
  obtain ⟨w, hw⟩ : ∃ w, w = if v.length ≤ fd then
      v ++ List.replicate (fd + 1 - v.length) none else v := ⟨_, rfl⟩
  -- the vector is made long enough for the descriptor, with null pointers
  have hlt : fd < w.length := by
    rw [hw]
    split
    · rw [List.length_append, List.length_replicate]
      omega
    · omega
  have hget : w[i]? = some (some q) ↔ v[i]? = some (some q) := by
    rw [hw]
    split
    · rw [List.getElem?_append]
      split
      · exact Iff.rfl
      · next hi =>
        rw [List.getElem?_eq_none (Nat.le_of_not_lt hi)]
        refine iff_of_false (fun heq ↦ ?_) (fun heq ↦ by cases heq)
        have hmem := List.mem_of_getElem? heq
        cases List.eq_of_mem_replicate hmem
    · exact Iff.rfl
  have hput : connPut v fd p = w.set fd (some p) := by rw [hw, connPut]
  rw [hput, List.getElem?_set]
  by_cases hi : fd = i
  · rw [if_pos hi, if_pos hlt, Option.some_inj, Option.some_inj]
    constructor
    · rintro rfl
      exact Or.inl ⟨hi.symm, rfl⟩
    · rintro (⟨-, rfl⟩ | ⟨hne, -⟩)
      · rfl
      · exact absurd hi.symm hne
  · rw [if_neg hi, hget]
    constructor
    · exact fun heq ↦ Or.inr ⟨fun h ↦ hi h.symm, heq⟩
    · rintro (⟨rfl, -⟩ | ⟨-, heq⟩)
      · exact absurd rfl hi
      · exact heq

/-- **`accept_new_conn`.** A connection with a new descriptor goes to the end of the list. -/
theorem acceptNewConn_spec (h : s.Inv idle clock) (hclock : clock ≤ nowUs) {connfd : ℕ}
    (hfd : ∀ q ∈ s.clients, (s.client q).fd ≠ connfd) (hp : p ∉ s.clients) :
    ∃ s', acceptNewConn s connfd (some p) nowUs = some s' ∧ s'.Inv (idle ++ [p]) nowUs ∧
      (∀ q ≠ p, s'.client q = s.client q) ∧ (s'.client p).conn.state = .req := by
  have hpi : p ∉ idle := fun hmem ↦ hp (h.clients.mem_iff.mpr hmem)
  have hne : ∀ q ∈ idle, q ≠ p := fun q hq heq ↦ hpi (heq ▸ hq)
  obtain ⟨c, hc⟩ : ∃ c : Client, c =
      { fd := connfd
        conn := { (s.client p).conn with
          state := .req, rbufSize := 0, wbufSize := 0, wbufSent := 0 }
        idleStart := nowUs } := ⟨_, rfl⟩
  obtain ⟨s₁, hs₁⟩ : ∃ s₁ : Server D, s₁ = { s with
      clients := p :: s.clients, client := Function.update s.client p c } := ⟨_, rfl⟩
  have hself : s₁.client p = c := by
    rw [hs₁]
    exact Function.update_self ..
  have hother : ∀ q ≠ p, s₁.client q = s.client q := by
    intro q hqp
    rw [hs₁]
    exact Function.update_of_ne hqp ..
  have hring : s₁.links.Ring .head (idle.map .conn) := by
    rw [hs₁]
    exact h.ring
  have hinsert := dlistInsertBefore_eq (a := .conn p) hring
    (by
      intro a ha
      obtain ⟨q, hq, rfl⟩ := List.mem_map.mp ha
      rw [hs₁]
      exact List.mem_cons_of_mem _ (h.clients.mem_iff.mpr hq))
    (by
      rw [hs₁]
      exact List.mem_cons_self ..)
  have hstart : ∀ q ∈ idle, (s₁.client q).idleStart = (s.client q).idleStart := by
    intro q hq
    rw [hother q (hne q hq)]
  -- no connection started later than the new one
  obtain ⟨hsorted, hpast⟩ := newest_last (p := p) h.sorted
    (fun q hq ↦ (h.le_clock q hq).trans hclock) hstart (by rw [hself, hc])
  refine ⟨{ s₁ with
      links := s₁.links.insertBefore .head (.conn p)
      fd2conn := connPut s₁.fd2conn connfd p }, ?_, ?_, hother, ?_⟩
  · rw [acceptNewConn]
    simp only [← hc, ← hs₁, hinsert, Option.bind_eq_bind, Option.bind_some]
  · constructor
    · rw [List.map_append]
      exact hring.insertBefore (conn_notMem hpi)
    · rw [hs₁]
      exact (h.clients.cons p).trans (List.perm_append_singleton p idle).symm
    · intro fd q
      change (connPut s₁.fd2conn connfd p)[fd]? = some (some q) ↔
        q ∈ idle ++ [p] ∧ (s₁.client q).fd = fd
      rw [getElem?_connPut, show s₁.fd2conn = s.fd2conn by rw [hs₁], h.fd2conn]
      constructor
      · rintro (⟨rfl, rfl⟩ | ⟨-, hq, hfdq⟩)
        · exact ⟨List.mem_append_right _ (List.mem_singleton_self q), by rw [hself, hc]⟩
        · rw [hother q (hne q hq)]
          exact ⟨List.mem_append_left _ hq, hfdq⟩
      · rintro ⟨hq, hfdq⟩
        rcases List.mem_append.mp hq with hq | hq
        · rw [hother q (hne q hq)] at hfdq
          exact Or.inr ⟨fun heq ↦ hfd q (h.clients.mem_iff.mpr hq) (hfdq.trans heq), hq, hfdq⟩
        · obtain rfl := List.mem_singleton.mp hq
          rw [hself, hc] at hfdq
          exact Or.inl ⟨hfdq.symm, rfl⟩
    · exact hsorted
    · exact hpast
  · change (s₁.client p).conn.state = .req
    rw [hself, hc]

/-! ## Timers -/

theorem Server.Inv.next_head (h : s.Inv idle clock) :
    s.links.next .head = (idle.head?.map IdleNode.conn).getD .head := by
  rw [h.ring.next_head]
  cases idle with
  | nil => rfl
  | cons p idle => rfl

theorem exists_nextTimerMs (h : s.Inv idle clock) (nowUs : ℕ) :
    ∃ ms, nextTimerMs s nowUs = some ms := by
  rw [nextTimerMs, h.next_head]
  cases idle with
  | nil => exact ⟨_, rfl⟩
  | cons p idle =>
    have hlive : p ∈ s.clients := h.clients.mem_iff.mpr (List.mem_cons_self ..)
    simp only [List.head?_cons, Option.map_some, Option.getD_some, if_neg (not_not.mpr hlive)]
    split
    · exact ⟨_, rfl⟩
    · exact ⟨_, rfl⟩

/-- The test of `process_timers` that does not break the loop. -/
def Server.Expired (s : Server D) (nowUs : ℕ) (p : Ptr) : Bool :=
  ¬ (nowUs + 1000) % 2 ^ 64 ≤ nextUs s p

/-- **`process_timers`.** The connections at the front of the list are closed up to the first one
that has not expired. -/
theorem processTimers_spec (h : s.Inv idle clock) (nowUs : ℕ) :
    ∃ s', processTimers s nowUs = some s' ∧ s'.Inv (idle.dropWhile (s.Expired nowUs)) clock ∧
      s'.client = s.client ∧ s'.db = s.db := by
  induction idle generalizing s with
  | nil =>
    have hstep : processTimersStep nowUs s = some (.inr s) := by
      rw [processTimersStep, h.next_head]
      rfl
    exact ⟨s, WhileLoop.of_exit hstep, h, rfl, rfl⟩
  | cons p idle ih =>
    have hlive : p ∈ s.clients := h.clients.mem_iff.mpr (List.mem_cons_self ..)
    have hround : processTimersStep nowUs s = if (nowUs + 1000) % 2 ^ 64 ≤ nextUs s p
        then some (.inr s) else (connDone s p).bind fun s ↦ some (.inl s) := by
      rw [processTimersStep, h.next_head]
      exact if_neg (not_not.mpr hlive)
    by_cases hready : (nowUs + 1000) % 2 ^ 64 ≤ nextUs s p
    · have hno : s.Expired nowUs p = false := by
        rw [Server.Expired, decide_eq_false_iff_not]
        exact not_not.mpr hready
      rw [if_pos hready] at hround
      rw [List.dropWhile_cons_of_neg (by rw [hno]; exact Bool.false_ne_true)]
      exact ⟨s, WhileLoop.of_exit hround, h, rfl, rfl⟩
    · have hyes : s.Expired nowUs p = true := by
        rw [Server.Expired, decide_eq_true_iff]
        exact hready
      obtain ⟨s₁, hdone, h₁, hclient, hdb⟩ := connDone_spec h (List.mem_cons_self ..)
      rw [List.erase_cons_head] at h₁
      rw [if_neg hready, hdone, Option.bind_some] at hround
      obtain ⟨s', hrest, h', hclient', hdb'⟩ := ih h₁
      have hexpired : s₁.Expired nowUs = s.Expired nowUs := by
        funext q
        rw [Server.Expired, Server.Expired, nextUs, nextUs, hclient]
      refine ⟨s', ?_, ?_, hclient'.trans hclient, hdb'.trans hdb⟩
      · rw [processTimers, WhileLoop.of_continue hround]
        exact hrest
      · rw [List.dropWhile_cons_of_pos hyes, ← hexpired]
        exact h'

/-! ## The main loop -/

private theorem mapM_eq_map {α β : Type} {f : α → Option β} {g : α → β} {l : List α}
    (h : ∀ a ∈ l, f a = some (g a)) : l.mapM f = some (l.map g) := by
  induction l with
  | nil => rfl
  | cons a l ih =>
    rw [List.mapM_cons, h a (List.mem_cons_self ..), ih fun b hb ↦ h b (List.mem_cons_of_mem _ hb)]
    rfl

theorem pollArgs_spec (h : s.Inv idle clock) :
    ∃ args, pollArgs s = some args ∧ (args.map PollFd.fd).Nodup ∧
      ∀ a ∈ args, ∃ p ∈ idle, (s.client p).fd = a.fd := by
  have hmem : ∀ p ∈ s.fd2conn.filterMap id, p ∈ idle := by
    intro p hp
    obtain ⟨o, ho, heq⟩ := List.mem_filterMap.mp hp
    obtain ⟨i, hi⟩ := List.getElem?_of_mem ho
    exact ((h.fd2conn i p).mp (hi.trans (congrArg some heq))).1
  refine ⟨(s.fd2conn.filterMap id).map fun p ↦
    ⟨(s.client p).fd, (s.client p).conn.state = .req⟩, ?_, ?_, ?_⟩
  · apply mapM_eq_map
    intro p hp
    exact if_pos (h.clients.mem_iff.mpr (hmem p hp))
  · -- a connection stands at the index of its descriptor
    rw [List.map_map]
    apply List.pairwise_map.mpr
    apply List.pairwise_filterMap.mpr
    apply List.pairwise_iff_getElem.mpr
    intro i j hi hj hij p hp q hq heq
    have hfdp := ((h.fd2conn i p).mp (List.getElem?_eq_some_iff.mpr ⟨hi, hp⟩)).2
    have hfdq := ((h.fd2conn j q).mp (List.getElem?_eq_some_iff.mpr ⟨hj, hq⟩)).2
    exact absurd (hfdp.symm.trans (heq.trans hfdq)) (Nat.ne_of_lt hij)
  · intro a ha
    obtain ⟨p, hp, rfl⟩ := List.mem_map.mp ha
    exact ⟨p, hmem p hp, rfl⟩

/-- The descriptors that are still to be served. -/
def Phase.args : Phase → List PollFd
  | .serve args _ => args
  | _ => []

/-- The invariant of the main loop. -/
structure Loop.Inv (l : Loop D) (idle : List Ptr) : Prop where
  server : l.server.Inv idle l.clock
  running : ∀ p ∈ idle, (l.server.client p).conn.state ≠ .fin
  args_nodup : (l.phase.args.map PollFd.fd).Nodup
  args : ∀ a ∈ l.phase.args, ∃ p ∈ idle, (l.server.client p).fd = a.fd

theorem loop_inv_init (db : D) (client : Ptr → Client) (links : RingLinks IdleNode) :
    Loop.Inv { server := Server.init db client links, phase := .poll, clock := 0 } [] where
  server :=
    { ring := RingLinks.Ring.init links .head
      clients := List.Perm.refl _
      fd2conn := fun fd p ↦ iff_of_false (fun heq ↦ by cases heq) (fun hmem ↦ by cases hmem.1)
      sorted := List.Pairwise.nil
      le_clock := fun _ hp ↦ by cases hp }
  running _ hp := by cases hp
  args_nodup := List.nodup_nil
  args _ ha := by cases ha

/-- **Serving a descriptor.** The connection goes to the end of the list or is closed; no other
connection is closed. -/
theorem serveFd_spec (h : s.Inv idle clock) (hrun : ∀ q ∈ idle, (s.client q).conn.state ≠ .fin)
    (hp : p ∈ idle) (hclock : clock ≤ nowUs) (recvs : List RecvResult) (sends : List SendResult) :
    (serveFd handle s (s.client p).fd nowUs recvs sends).Sat
      (fun _ s' ↦ ∃ idle', s'.Inv idle' nowUs ∧ (∀ q ∈ idle', (s'.client q).conn.state ≠ .fin) ∧
        ∀ q ∈ idle, q ≠ p → q ∈ idle' ∧ s'.client q = s.client q)
      fun f _ ↦ ∃ f', f = .conn f' := by
  rw [serveFd, (h.fd2conn _ p).mpr ⟨hp, rfl⟩]
  apply (timedConnectionIo_spec h hp hclock recvs sends).bind
  rintro _ s₁ ⟨h₁, -, hother, -⟩
  have hrest : ∀ q ∈ idle.erase p, q ≠ p ∧ (s₁.client q).conn.state ≠ .fin := by
    intro q hq
    obtain ⟨hqp, hq⟩ := h.nodup.mem_erase_iff.mp hq
    exact ⟨hqp, by rw [hother q hqp]; exact hrun q hq⟩
  have hkeep : ∀ q ∈ idle, q ≠ p → q ∈ idle.erase p := fun q hq hqp ↦
    h.nodup.mem_erase_iff.mpr ⟨hqp, hq⟩
  by_cases hfin : (s₁.client p).conn.state = .fin
  · -- the connection is closed
    obtain ⟨s₂, hdone, h₂, hclient, -⟩ :=
      connDone_spec h₁ (List.mem_append_right _ (List.mem_singleton_self p))
    have hpe : p ∉ idle.erase p := fun hmem ↦ (h.nodup.mem_erase_iff.mp hmem).1 rfl
    rw [List.erase_append_right _ hpe, List.erase_cons_head, List.append_nil] at h₂
    rw [if_pos hfin, hdone, Outcome.ofOption_some, Outcome.ret_bind, Outcome.sat_ret]
    refine ⟨idle.erase p, h₂, ?_, ?_⟩
    · intro q hq
      rw [hclient]
      exact (hrest q hq).2
    · intro q hq hqp
      rw [hclient]
      exact ⟨hkeep q hq hqp, hother q hqp⟩
  · rw [if_neg hfin, Outcome.sat_ret]
    refine ⟨idle.erase p ++ [p], h₁, ?_, ?_⟩
    · intro q hq
      rcases List.mem_append.mp hq with hq | hq
      · exact (hrest q hq).2
      · rw [List.mem_singleton.mp hq]
        exact hfin
    · intro q hq hqp
      exact ⟨List.mem_append_left _ (hkeep q hq hqp), hother q hqp⟩

section Steps

variable {args : List PollFd} {a : PollFd} {listening : Bool} {tv : Timespec}

private theorem step_poll (h : Loop.Inv ⟨s, .poll, clock⟩ idle)
    (hclock : clock ≤ getMonotonicUsec tv) (active : ℕ → Bool) :
    (Loop.step handle ⟨s, .poll, clock⟩ (.poll tv active listening)).Sat
      (fun _ l' ↦ ∃ idle', l'.Inv idle') fun f _ ↦ ∃ f', f = .conn f' := by
  obtain ⟨args, hpoll, hnd, hargs⟩ := pollArgs_spec h.server
  obtain ⟨ms, htimer⟩ := exists_nextTimerMs h.server (getMonotonicUsec tv)
  have hstep : Loop.step handle ⟨s, .poll, clock⟩ (.poll tv active listening)
      = .ret () ⟨s, .serve (args.filter fun a ↦ active a.fd) listening, getMonotonicUsec tv⟩ := by
    simp only [Loop.step, Event.tv, hpoll, htimer, Option.bind_eq_bind, Option.bind_some,
      Outcome.ofOption_some, Outcome.ret_bind]
  rw [hstep]
  refine ⟨idle, h.server.mono hclock, h.running, hnd.sublist (List.filter_sublist.map _), ?_⟩
  intro a ha
  exact hargs a (List.mem_of_mem_filter ha)

private theorem step_io (h : Loop.Inv ⟨s, .serve (a :: args) listening, clock⟩ idle)
    (hclock : clock ≤ getMonotonicUsec tv) (recvs : List RecvResult) (sends : List SendResult) :
    (Loop.step handle ⟨s, .serve (a :: args) listening, clock⟩ (.io tv recvs sends)).Sat
      (fun _ l' ↦ ∃ idle', l'.Inv idle') fun f _ ↦ ∃ f', f = .conn f' := by
  obtain ⟨p, hp, hfd⟩ := h.args a (List.mem_cons_self ..)
  have hserve : (serveFd handle s (s.client p).fd (getMonotonicUsec tv) recvs sends).Sat _ _ :=
    serveFd_spec h.server h.running hp hclock recvs sends
  rw [hfd] at hserve
  have hnd : (a.fd :: args.map PollFd.fd).Nodup := h.args_nodup
  simp only [Loop.step, Event.tv]
  cases hcode : serveFd handle s a.fd (getMonotonicUsec tv) recvs sends with
  | stop f s' => exact hserve.of_stop hcode
  | ret u s' =>
    obtain ⟨idle', h', hrun', hkeep⟩ := hserve.of_ret hcode
    refine ⟨idle', h', hrun', (List.nodup_cons.mp hnd).2, ?_⟩
    -- the descriptors behind this one belong to other connections
    intro b hb
    obtain ⟨q, hq, hfdq⟩ := h.args b (List.mem_cons_of_mem _ hb)
    have hqp : q ≠ p := by
      rintro rfl
      apply (List.nodup_cons.mp hnd).1
      rw [← hfd, hfdq]
      exact List.mem_map_of_mem hb
    obtain ⟨hq', hclient⟩ := hkeep q hq hqp
    exact ⟨q, hq', by rw [hclient]; exact hfdq⟩

private theorem step_timers (h : Loop.Inv ⟨s, .serve [] listening, clock⟩ idle)
    (hclock : clock ≤ getMonotonicUsec tv) :
    (Loop.step handle ⟨s, .serve [] listening, clock⟩ (.timers tv)).Sat
      (fun _ l' ↦ ∃ idle', l'.Inv idle') fun f _ ↦ ∃ f', f = .conn f' := by
  obtain ⟨s', htimers, h', hclient, -⟩ := processTimers_spec h.server (getMonotonicUsec tv)
  have hstep : Loop.step handle ⟨s, .serve [] listening, clock⟩ (.timers tv)
      = .ret () ⟨s', if listening then .accept else .poll, getMonotonicUsec tv⟩ := by
    simp only [Loop.step, Event.tv, htimers, Outcome.ofOption_some, Outcome.ret_bind]
  have hargs : Phase.args (if listening then .accept else .poll) = [] := by
    cases listening <;> rfl
  rw [hstep]
  refine ⟨_, h'.mono hclock, ?_, ?_, ?_⟩
  · intro q hq
    change (s'.client q).conn.state ≠ .fin
    rw [hclient]
    exact h.running q ((List.dropWhile_sublist _).subset hq)
  · exact hargs ▸ List.nodup_nil
  · exact fun b hb ↦ by cases hargs ▸ hb

private theorem step_accept (h : Loop.Inv ⟨s, .accept, clock⟩ idle)
    (hclock : clock ≤ getMonotonicUsec tv) {connfd : ℕ} {mem : Option Ptr}
    (hfresh : ∀ p ∈ s.clients, (s.client p).fd ≠ connfd)
    (hmem : ∀ p, mem = some p → p ∉ s.clients) :
    (Loop.step handle ⟨s, .accept, clock⟩ (.accept tv connfd mem)).Sat
      (fun _ l' ↦ ∃ idle', l'.Inv idle') fun f _ ↦ ∃ f', f = .conn f' := by
  cases mem with
  | none => exact ⟨idle, h.server.mono hclock, h.running, List.nodup_nil, fun _ ha ↦ by cases ha⟩
  | some p =>
    obtain ⟨s', haccept, h', hother, hreq⟩ :=
      acceptNewConn_spec h.server hclock hfresh (hmem p rfl)
    have hstep : Loop.step handle ⟨s, .accept, clock⟩ (.accept tv connfd (some p))
        = .ret () ⟨s', .poll, getMonotonicUsec tv⟩ := by
      simp only [Loop.step, Event.tv]
      rw [haccept]
      rfl
    rw [hstep]
    refine ⟨idle ++ [p], h', ?_, List.nodup_nil, fun _ ha ↦ by cases ha⟩
    intro q hq
    change (s'.client q).conn.state ≠ .fin
    rcases List.mem_append.mp hq with hq | hq
    · have hqp : q ≠ p := fun heq ↦ hmem p rfl (h.server.clients.mem_iff.mpr (heq ▸ hq))
      rw [hother q hqp]
      exact h.running q hq
    · rw [List.mem_singleton.mp hq, hreq]
      exact fun heq ↦ by cases heq

end Steps

/-- **One step of the main loop.** It keeps the invariant, and if it stops, it is a connection that
stops it. -/
theorem Loop.Inv.step {l : Loop D} {e : Event} (h : l.Inv idle) (he : l.Allows e) :
    (l.step handle e).Sat (fun _ l' ↦ ∃ idle', l'.Inv idle') fun f _ ↦ ∃ f', f = .conn f' := by
  obtain ⟨s, phase, clock⟩ := l
  obtain ⟨hclock, hallowed⟩ := he
  rcases phase with _ | ⟨_ | ⟨a, args⟩, listening⟩ | _
  · cases e with
    | poll tv active listening => exact step_poll h hclock active
    | _ => exact hallowed.elim
  · cases e with
    | timers tv => exact step_timers h hclock
    | _ => exact hallowed.elim
  · cases e with
    | io tv recvs sends => exact step_io h hclock recvs sends
    | _ => exact hallowed.elim
  · cases e with
    | accept tv connfd mem => exact step_accept h hclock hallowed.1 hallowed.2
    | _ => exact hallowed.elim

theorem Loop.Reachable.inv {l : Loop D} (hl : Loop.Reachable handle l) : ∃ idle, l.Inv idle := by
  induction hl with
  | init db client links => exact ⟨[], loop_inv_init db client links⟩
  | step hl he hstep ih =>
    obtain ⟨idle, h⟩ := ih
    exact (h.step he).of_ret hstep

/-- The table and the list have the same connections, the list is sorted, and what is still to be
served can be served. -/
structure Loop.Agrees (l : Loop D) (idle : List Ptr) : Prop where
  ring : l.server.links.Ring .head (idle.map .conn)
  inverse : ∀ a ∈ IdleNode.head :: idle.map .conn,
    l.server.links.prev (l.server.links.next a) = a ∧
      l.server.links.next (l.server.links.prev a) = a
  nodup : idle.Nodup
  mem_iff : ∀ p, p ∈ idle ↔ some p ∈ l.server.fd2conn
  fd2conn : ∀ p ∈ idle, l.server.fd2conn[(l.server.client p).fd]? = some (some p)
  once : ∀ fd p, l.server.fd2conn[fd]? = some (some p) → (l.server.client p).fd = fd
  sorted : (idle.map fun p ↦ (l.server.client p).idleStart).Pairwise (· ≤ ·)
  served : ∀ a args listening, l.phase = .serve (a :: args) listening →
    ∃ p ∈ idle, l.server.fd2conn[a.fd]? = some (some p) ∧ (l.server.client p).conn.state ≠ .fin

/-- **The table and the list.** In every state that the main loop gets to, they agree, and nothing
but a connection that is served stops the next step: no pointer that is null or freed is used, and
`connection_io` is not called for a connection that is marked for deletion. -/
theorem agrees_of_reachable {l : Loop D} (hl : Loop.Reachable handle l) :
    (∃ idle, l.Agrees idle) ∧ ∀ e f l', l.Allows e → l.step handle e = .stop f l' →
      ∃ f', f = .conn f' := by
  obtain ⟨idle, h⟩ := hl.inv
  constructor
  · refine ⟨idle, ?_⟩
    constructor
    · exact h.server.ring
    · exact fun a ha ↦ h.server.ring.links_inverse ha
    · exact h.server.nodup
    · intro p
      constructor
      · intro hp
        exact List.mem_of_getElem? ((h.server.fd2conn _ p).mpr ⟨hp, rfl⟩)
      · intro hp
        obtain ⟨fd, hfd⟩ := List.getElem?_of_mem hp
        exact ((h.server.fd2conn fd p).mp hfd).1
    · exact fun p hp ↦ (h.server.fd2conn _ p).mpr ⟨hp, rfl⟩
    · exact fun fd p hfd ↦ ((h.server.fd2conn fd p).mp hfd).2
    · exact h.server.sorted
    · intro a args listening hphase
      have ha : a ∈ l.phase.args := by
        rw [hphase]
        exact List.mem_cons_self ..
      obtain ⟨p, hp, hfd⟩ := h.args a ha
      exact ⟨p, hp, (h.server.fd2conn _ p).mpr ⟨hp, hfd⟩, h.running p hp⟩
  · intro e f l' he hstep
    exact (h.step he).of_stop hstep

/-! ## A run with two connections -/

/-- A server that has just started, on a memory of zeros. -/
def Server.start (db : D) : Server D :=
  Server.init db (fun _ ↦ ⟨0, { rbuf := fun _ ↦ 0, wbuf := fun _ ↦ 0 }, 0⟩)
    ⟨fun _ ↦ .head, fun _ ↦ .head⟩

/-- The connections at `7` and `9` were accepted, two microseconds and a second after the start. -/
structure Server.Two (s : Server D) (db : D) : Prop where
  clients : s.clients = [9, 7]
  db : s.db = db
  fds : (s.client 7).fd = 4 ∧ (s.client 9).fd = 5
  times : (s.client 7).idleStart = 2 ∧ (s.client 9).idleStart = 1000000
  conns : (s.client 7).conn = { rbuf := fun _ ↦ 0, wbuf := fun _ ↦ 0 } ∧
    (s.client 9).conn = { rbuf := fun _ ↦ 0, wbuf := fun _ ↦ 0 }
  ring : s.links.Ring .head [.conn 7, .conn 9]

theorem accepts_two (handle : D → List Bytes → Option (D × Bytes)) {X : Type}
    (next : Loop D → Event → X → X) {P : Loop D → X → Prop} {db : D} {x : X}
    (h : P ⟨Server.start db, .poll, 0⟩ x)
    (hnext : ∀ l e l' x, P l x → l.Allows e → l.step handle e = .ret () l' → P l' (next l e x)) :
    ∃ s₁ s₂ : Server D, s₂.Two db ∧
      (s₁.client 9).conn = { rbuf := fun _ ↦ 0, wbuf := fun _ ↦ 0 } ∧ s₁.db = db ∧
      P ⟨s₂, .poll, 1000000⟩ (next ⟨s₁, .accept, 1000000⟩ (.accept ⟨1, 0⟩ 5 (some 9))
        (next ⟨s₁, .serve [] true, 1000000⟩ (.timers ⟨1, 0⟩)
        (next ⟨s₁, .poll, 2⟩ (.poll ⟨1, 0⟩ (fun _ ↦ false) true)
        (next ⟨Server.start db, .accept, 1⟩ (.accept ⟨0, 2000⟩ 4 (some 7))
        (next ⟨Server.start db, .serve [] true, 1⟩ (.timers ⟨0, 1000⟩)
        (next ⟨Server.start db, .poll, 0⟩ (.poll ⟨0, 1000⟩ (fun _ ↦ false) true) x)))))) := by
  set s₁ : Server D := (acceptNewConn (Server.start db) 4 (some 7) 2).getD (Server.start db)
  have hserve : ∀ {s : Server D} {clock : ℕ} {tv : Timespec},
      processTimersStep (getMonotonicUsec tv) s = some (.inr s) →
      Loop.step handle ⟨s, .serve [] true, clock⟩ (.timers tv)
        = .ret () ⟨s, .accept, getMonotonicUsec tv⟩ := by
    intro s clock tv hstep
    have htimers : processTimers s (getMonotonicUsec tv) = some s := WhileLoop.of_exit hstep
    simp only [Loop.step, Event.tv, htimers, Outcome.ofOption_some, Outcome.ret_bind]
    rfl
  have hhead : s₁.links.next .head = .conn 7 := rfl
  have hclients : s₁.clients = [7] := rfl
  have hlive : 7 ∈ s₁.clients := List.mem_singleton_self 7
  have hfd : (s₁.client 7).fd = 4 := rfl
  have hnextUs : nextUs s₁ 7 = 5000002 := by
    rw [nextUs, show (s₁.client 7).idleStart = 2 from rfl]
    rfl
  have hpoll : Loop.step handle ⟨s₁, .poll, 2⟩ (.poll ⟨1, 0⟩ (fun _ ↦ false) true)
      = .ret () ⟨s₁, .serve [] true, getMonotonicUsec ⟨1, 0⟩⟩ := by
    have hargs : pollArgs s₁ = some [⟨4, true⟩] := rfl
    have htimer : nextTimerMs s₁ (getMonotonicUsec ⟨1, 0⟩) = some 4000 := by
      rw [nextTimerMs, hhead]
      dsimp only
      rw [if_neg (not_not.mpr hlive), hnextUs]
      rfl
    simp only [Loop.step, Event.tv, hargs, htimer, Option.bind_eq_bind, Option.bind_some,
      Outcome.ofOption_some, Outcome.ret_bind]
    rfl
  have htimers : processTimersStep (getMonotonicUsec ⟨1, 0⟩) s₁ = some (.inr s₁) := by
    rw [processTimersStep, hhead]
    dsimp only
    rw [if_neg (not_not.mpr hlive), hnextUs, if_pos (by decide)]
  have h₁ := hnext _ (.poll ⟨0, 1000⟩ (fun _ ↦ false) true) _ _ h ⟨Nat.zero_le _, trivial⟩ rfl
  have h₂ := hnext _ (.timers ⟨0, 1000⟩) _ _ h₁
    ⟨(by decide : 1 ≤ getMonotonicUsec ⟨0, 1000⟩), trivial⟩ (hserve rfl)
  have h₃ := hnext _ (.accept ⟨0, 2000⟩ 4 (some 7)) ⟨s₁, .poll, 2⟩ _ h₂
    ⟨(by decide : 1 ≤ getMonotonicUsec ⟨0, 2000⟩),
    fun p hp ↦ absurd hp List.not_mem_nil, fun p _ hp ↦ absurd hp List.not_mem_nil⟩ rfl
  have h₄ := hnext _ (.poll ⟨1, 0⟩ (fun _ ↦ false) true) _ _ h₃
    ⟨(by decide : 2 ≤ getMonotonicUsec ⟨1, 0⟩), trivial⟩ hpoll
  have h₅ := hnext _ (.timers ⟨1, 0⟩) _ _ h₄ ⟨(by decide : 1000000 ≤ getMonotonicUsec ⟨1, 0⟩),
    trivial⟩ (hserve htimers)
  have h₆ := hnext _ (.accept ⟨1, 0⟩ 5 (some 9)) _ _ h₅
    ⟨(by decide : 1000000 ≤ getMonotonicUsec ⟨1, 0⟩), 
    by
      intro p hp
      obtain rfl := List.mem_singleton.mp (hclients ▸ hp)
      rw [hfd]
      decide,
    by
      intro p hp
      cases hp
      rw [hclients]
      decide⟩ rfl
  exact ⟨s₁, _, ⟨rfl, rfl, ⟨rfl, rfl⟩, ⟨rfl, rfl⟩, ⟨rfl, rfl⟩,
    ⟨⟨rfl, rfl, rfl, rfl, rfl, rfl⟩, by decide⟩⟩, rfl, rfl, h₆⟩

theorem reachable_two : ∃ l : Loop ℕ, Loop.Reachable (fun d _ ↦ some (d, outNil)) l ∧
    l.server.Two 0 ∧ l.clock = 1000000 := by
  obtain ⟨_, s, hs, -, -, h⟩ := accepts_two (fun d _ ↦ some (d, outNil)) (fun _ _ x ↦ x)
    (P := fun l (_ : Unit) ↦ Loop.Reachable _ l) (x := ()) (.init 0 _ _)
    fun l e l' x hl he hstep ↦ hl.step he hstep
  exact ⟨_, h, hs, rfl⟩

theorem agrees_of_reachable_two : ∃ l : Loop ℕ,
    l.server.clients = [9, 7] ∧ l.Agrees [7, 9] := by
  obtain ⟨l, hl, hs, -⟩ := reachable_two
  obtain ⟨⟨idle, hagrees⟩, -⟩ := agrees_of_reachable hl
  obtain rfl : idle = [7, 9] :=
    List.map_injective_iff.mpr IdleNode.conn_injective (hagrees.ring.unique hs.ring)
  exact ⟨l, hs.clients, hagrees⟩

end RedisOnC
