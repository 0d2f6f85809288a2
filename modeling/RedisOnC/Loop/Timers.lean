import RedisOnC.Loop.Invariant

/-!
# Timers

What `process_timers` closes, and how long `poll` waits. The list is sorted, so the connections that
are closed one after the other from its front are all the connections that have expired. The timeout
for `poll` is rounded down to milliseconds, and `process_timers` closes a connection up to a
millisecond early; the two match, so after the wait at least the first connection is closed.

The clock counts from the start of the system, in nanoseconds that fit a signed number of 64 bits,
so no sum of microseconds wraps around.
-/

namespace RedisOnC

variable {D : Type} {handle : D → List Bytes → Option (D × Bytes)}
variable {s s' : Server D} {idle : List Ptr} {clock nowUs : ℕ} {p : Ptr} {tv : Timespec}

/-- What `clock_gettime` stores for `CLOCK_MONOTONIC`: a time whose nanoseconds fit in an
`int64_t`. -/
def Timespec.Fits (tv : Timespec) : Prop := tv.sec * 10 ^ 9 + tv.nsec < 2 ^ 63

theorem Timespec.Fits.lt (h : tv.Fits) : getMonotonicUsec tv + 5001000 < 2 ^ 64 := by
  have hle : getMonotonicUsec tv ≤ tv.sec * 1000000 + tv.nsec / 1000 := Nat.mod_le ..
  have hlt : tv.sec * 10 ^ 9 + tv.nsec < 2 ^ 63 := h
  omega

/-- The connection has been idle for five seconds, but for a millisecond. -/
def Server.TimedOut (s : Server D) (nowUs : ℕ) (p : Ptr) : Prop :=
  (s.client p).idleStart + 5000000 < nowUs + 1000

instance (s : Server D) (nowUs : ℕ) (p : Ptr) : Decidable (s.TimedOut nowUs p) :=
  inferInstanceAs (Decidable (_ < _))

theorem nextUs_eq (hle : (s.client p).idleStart ≤ getMonotonicUsec tv) (hfits : tv.Fits) :
    nextUs s p = (s.client p).idleStart + 5000000 := by
  have hlt := hfits.lt
  have hsum : (s.client p).idleStart + 5000000 < 2 ^ 64 := by omega
  have htimeout : kIdleTimeoutMs * 1000 = 5000000 := by decide
  rw [nextUs, htimeout, Nat.mod_eq_of_lt hsum]

theorem expired_iff (hle : (s.client p).idleStart ≤ getMonotonicUsec tv) (hfits : tv.Fits) :
    s.Expired (getMonotonicUsec tv) p = true ↔ s.TimedOut (getMonotonicUsec tv) p := by
  have hlt := hfits.lt
  have hsum : getMonotonicUsec tv + 1000 < 2 ^ 64 := by omega
  rw [Server.Expired, decide_eq_true_iff, nextUs_eq hle hfits, Nat.mod_eq_of_lt hsum, Nat.not_le,
    Server.TimedOut]

private theorem dropWhile_eq_filter {α : Type} {P : α → Bool} {l : List α}
    (h : l.Pairwise fun a b ↦ P b = true → P a = true) :
    l.dropWhile P = l.filter fun a ↦ !P a := by
  induction l with
  | nil => rfl
  | cons a l ih =>
    obtain ⟨ha, hl⟩ := List.pairwise_cons.mp h
    cases hP : P a with
    | true =>
      rw [List.dropWhile_cons_of_pos hP, ih hl, List.filter_cons_of_neg (by rw [hP]; decide)]
    | false =>
      have hall : ∀ b ∈ a :: l, (!P b) = true := by
        intro b hb
        rcases List.mem_cons.mp hb with rfl | hb
        · rw [hP]
          rfl
        · rw [Bool.not_eq_true', Bool.eq_false_iff]
          intro hb'
          rw [ha b hb hb'] at hP
          cases hP
      rw [List.dropWhile_cons_of_neg (by rw [hP]; decide), List.filter_eq_self.mpr hall]

/-- The connections up to the first one that has not expired are those that have timed out. -/
theorem Server.Inv.dropWhile_expired (h : s.Inv idle clock) (hclock : clock ≤ getMonotonicUsec tv)
    (hfits : tv.Fits) : idle.dropWhile (s.Expired (getMonotonicUsec tv))
      = idle.filter fun p ↦ ¬ s.TimedOut (getMonotonicUsec tv) p := by
  have hiff : ∀ p ∈ idle, s.Expired (getMonotonicUsec tv) p = true ↔
      s.TimedOut (getMonotonicUsec tv) p := fun p hp ↦
    expired_iff ((h.le_clock p hp).trans hclock) hfits
  rw [dropWhile_eq_filter]
  · apply List.filter_congr
    intro p hp
    rw [Bool.eq_iff_iff, Bool.not_eq_true', ← Bool.not_eq_true, hiff p hp, decide_eq_true_iff]
  · apply (List.pairwise_map.mp h.sorted).imp_of_mem
    intro p q hp hq hle hexpired
    have hq' : s.TimedOut (getMonotonicUsec tv) q := (hiff q hq).mp hexpired
    rw [hiff p hp, Server.TimedOut]
    rw [Server.TimedOut] at hq'
    omega

/-- `process_timers` closes the connections that have timed out, and no others. -/
structure ClosesTimedOut (s s' : Server D) (idle : List Ptr) (nowUs : ℕ) : Prop where
  ring : s'.links.Ring .head ((idle.filter fun p ↦ ¬ s.TimedOut nowUs p).map .conn)
  clients : ∀ p, p ∈ s'.clients ↔ p ∈ s.clients ∧ ¬ s.TimedOut nowUs p
  fd2conn : ∀ (fd : ℕ) p, s'.fd2conn[fd]? = some (some p) ↔
    s.fd2conn[fd]? = some (some p) ∧ ¬ s.TimedOut nowUs p
  client : s'.client = s.client

theorem Server.Inv.closesTimedOut (h : s.Inv idle clock) (hclock : clock ≤ getMonotonicUsec tv)
    (hfits : tv.Fits) : ∃ s', processTimers s (getMonotonicUsec tv) = some s' ∧
      ClosesTimedOut s s' idle (getMonotonicUsec tv) := by
  obtain ⟨s', hcode, h', hclient, -⟩ := processTimers_spec h (getMonotonicUsec tv)
  rw [h.dropWhile_expired hclock hfits] at h'
  have hmem : ∀ p, p ∈ idle.filter (fun p ↦ ¬ s.TimedOut (getMonotonicUsec tv) p) ↔
      p ∈ idle ∧ ¬ s.TimedOut (getMonotonicUsec tv) p := by
    intro p
    rw [List.mem_filter, decide_eq_true_iff]
  refine ⟨s', hcode, h'.ring, ?_, ?_, hclient⟩
  · intro p
    rw [h'.clients.mem_iff, h.clients.mem_iff, hmem]
  · intro fd p
    rw [h'.fd2conn, h.fd2conn, hmem, hclient]
    exact and_right_comm

/-- The timeout for `poll`, in terms of the first connection. -/
theorem Server.Inv.nextTimerMs_eq (h : s.Inv (p :: idle) clock)
    (hclock : clock ≤ getMonotonicUsec tv) (hfits : tv.Fits) {ms : ℕ}
    (hcode : nextTimerMs s (getMonotonicUsec tv) = some ms) :
    ms = ((s.client p).idleStart + 5000000 - getMonotonicUsec tv) / 1000 ∧ ms ≤ 5000 := by
  have hp : p ∈ p :: idle := List.mem_cons_self ..
  have hle := (h.le_clock p hp).trans hclock
  rw [nextTimerMs, h.next_head] at hcode
  have hlive : p ∈ s.clients := h.clients.mem_iff.mpr hp
  simp only [List.head?_cons, Option.map_some, Option.getD_some, if_neg (not_not.mpr hlive),
    nextUs_eq hle hfits] at hcode
  split at hcode
  · have hms := Option.some_inj.mp hcode
    omega
  · have hms := Option.some_inj.mp hcode
    omega

/-- **Timers.** Whenever `process_timers` runs, it closes the connections that have timed out, and
leaves the others in their order. When there is a connection, `poll` waits for at most five seconds,
and if nothing happens for as long as it waits, `process_timers` then closes the first connection at
least. -/
theorem timers_exact {l : Loop D} (hl : Loop.Reachable handle l)
    (hidle : l.server.links.Ring .head (idle.map .conn)) :
    (∀ tv, l.clock ≤ getMonotonicUsec tv → tv.Fits →
      ∃ s', processTimers l.server (getMonotonicUsec tv) = some s' ∧
        ClosesTimedOut l.server s' idle (getMonotonicUsec tv)) ∧
    ∀ tv ms, l.clock ≤ getMonotonicUsec tv → tv.Fits → idle ≠ [] →
      nextTimerMs l.server (getMonotonicUsec tv) = some ms → ms ≤ 5000 ∧
        ∀ tv', getMonotonicUsec tv + 1000 * ms ≤ getMonotonicUsec tv' → tv'.Fits →
          ∃ s', processTimers l.server (getMonotonicUsec tv') = some s' ∧
            ClosesTimedOut l.server s' idle (getMonotonicUsec tv') ∧
            ∀ p, idle.head? = some p → p ∈ l.server.clients ∧ p ∉ s'.clients := by
  obtain ⟨idle', h⟩ := hl.inv
  have hs := h.server
  obtain rfl : idle = idle' :=
    List.map_injective_iff.mpr IdleNode.conn_injective (hidle.unique hs.ring)
  constructor
  · intro tv hclock hfits
    exact hs.closesTimedOut hclock hfits
  · intro tv ms hclock hfits hne hms
    obtain ⟨p, rest, rfl⟩ := List.exists_cons_of_ne_nil hne
    obtain ⟨heq, hle⟩ := hs.nextTimerMs_eq hclock hfits hms
    refine ⟨hle, fun tv' hwait hfits' ↦ ?_⟩
    have hclock' : l.clock ≤ getMonotonicUsec tv' :=
      hclock.trans ((Nat.le_add_right ..).trans hwait)
    obtain ⟨s', hcode, hclosed⟩ := hs.closesTimedOut hclock' hfits'
    refine ⟨s', hcode, hclosed, ?_⟩
    intro q hq
    obtain rfl := Option.some_inj.mp hq
    have hout : l.server.TimedOut (getMonotonicUsec tv') p := by
      rw [Server.TimedOut]
      omega
    constructor
    · exact hs.clients.mem_iff.mpr (List.mem_cons_self ..)
    · intro hmem
      exact ((hclosed.clients p).mp hmem).2 hout

/-- Two connections, accepted a second apart: `poll` waits for four seconds, and then the first is
closed and the second is not. -/
theorem timers_exact_two : ∃ (l : Loop ℕ) (s' : Server ℕ), l.server.clients = [9, 7] ∧
    nextTimerMs l.server (getMonotonicUsec ⟨1, 0⟩) = some 4000 ∧
    processTimers l.server (getMonotonicUsec ⟨5, 0⟩) = some s' ∧
    7 ∉ s'.clients ∧ 9 ∈ s'.clients := by
  obtain ⟨l, hl, hs, hclock⟩ := reachable_two
  obtain ⟨idle, h⟩ := hl.inv
  obtain rfl : idle = [7, 9] :=
    List.map_injective_iff.mpr IdleNode.conn_injective (h.server.ring.unique hs.ring)
  have hle : l.clock ≤ getMonotonicUsec ⟨1, 0⟩ := by
    rw [hclock]
    decide
  have hfits : Timespec.Fits ⟨1, 0⟩ ∧ Timespec.Fits ⟨5, 0⟩ := by
    rw [Timespec.Fits, Timespec.Fits]
    decide
  obtain ⟨ms, hms⟩ := exists_nextTimerMs h.server (getMonotonicUsec ⟨1, 0⟩)
  obtain ⟨rfl, -⟩ := h.server.nextTimerMs_eq hle hfits.1 hms
  rw [hs.times.1] at hms
  obtain ⟨-, hwait⟩ := (timers_exact hl h.server.ring).2 ⟨1, 0⟩ 4000 hle hfits.1
    (List.cons_ne_nil _ _) hms
  obtain ⟨s', hcode, hclosed, hfirst⟩ := hwait ⟨5, 0⟩ (by decide) hfits.2
  refine ⟨l, s', hs.clients, hms, hcode, (hfirst 7 rfl).2, (hclosed.clients 9).mpr ⟨?_, ?_⟩⟩
  · rw [hs.clients]
    exact List.mem_cons_self ..
  · rw [Server.TimedOut, hs.times.2]
    decide

end RedisOnC
