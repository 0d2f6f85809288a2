import RedisOnC.Conn.Exchange
import RedisOnC.Loop.History
import RedisOnC.Loop.Timers

/-!
# Every connection gets its turn

The loop over `poll_args` serves the descriptors that `poll` has reported one after the other, and on
the way it closes connections; `process_timers` closes others, and `accept` may hand out a descriptor
and `malloc` an address that were in use a moment ago. A connection is told apart from those by its
number in the history.

As long as a connection is open, the rounds it has been served in and the ones that are still to
come before the next `poll` add up to the number of times that `poll` has reported it
(`Loop.Open.moves`). So no connection starves, and none is served twice. With what a connection does
in its own rounds, this bounds the time that a client waits for a reply.
-/

namespace RedisOnC

variable {D : Type} {handle : D → List Bytes → Option (D × Bytes)}
variable {l l' : Loop D} {H H' : History D} {db₀ : D} {e : Event} {es : List Event}
variable {i fd : ℕ} {p : Ptr} {c : Life D} {idle : List Ptr}

namespace Loop

/-- The rounds of the descriptor before the next `poll`. -/
def pending (l : Loop D) (fd : ℕ) : ℕ := (l.phase.args.map PollFd.fd).count fd

theorem pending_poll (h : l.phase = .poll) : l.pending fd = 0 := by
  rw [pending, h]
  rfl

/-- The connection with this number is at this address and has this descriptor. -/
structure Open (l : Loop D) (H : History D) (i : ℕ) (p : Ptr) (fd : ℕ) : Prop where
  live : p ∈ l.server.clients
  number : H.number p = i
  fd_eq : (l.server.client p).fd = fd

/-- The connection with this number is closed. -/
structure Closed (l : Loop D) (H : History D) (i : ℕ) : Prop where
  lt : i < H.lives.length
  number : ∀ q ∈ l.server.clients, H.number q ≠ i

/-! ## One step -/

theorem Closed.moves (h : l.Closed H i) (hm : Moves handle l H e l' H') :
    l'.Closed H' i ∧ H'.lives[i]? = H.lives[i]? := by
  cases hm with
  | poll => exact ⟨⟨h.lt, h.number⟩, rfl⟩
  | serve hp _ _ _ hserved =>
    refine ⟨⟨?_, fun q hq ↦ h.number q (hserved.clients q hq)⟩, ?_⟩
    · rw [History.served, List.length_modify]
      exact h.lt
    · rw [History.Fits.getElem?_served, if_neg (h.number _ hp)]
  | timers _ _ hclients => exact ⟨⟨h.lt, fun q hq ↦ h.number q (hclients q hq)⟩, rfl⟩
  | noMemory => exact ⟨⟨h.lt, h.number⟩, rfl⟩
  | @accept s s' _ _ _ _ p _ _ hp _ _ _ hclients =>
    refine ⟨⟨?_, fun q hq ↦ ?_⟩, ?_⟩
    · rw [History.born, List.length_append]
      exact h.lt.trans_le (Nat.le_add_right _ _)
    · change Function.update H.number p H.lives.length q ≠ i
      rcases (hclients q).mp hq with heq | hq
      · rw [heq, Function.update_self]
        exact h.lt.ne'
      · have hne : q ≠ p := fun heq ↦ hp (heq ▸ hq)
        rw [Function.update_of_ne hne]
        exact h.number q hq
    · rw [History.born, List.getElem?_append_left h.lt]

/-- **One step.** A connection that is open gets the next one of its turns, or a new turn when `poll`
reports it, or it is closed. -/
theorem Open.moves (h : l.Open H i p fd) (hc : H.lives[i]? = some c) (hinv : l.Inv idle)
    (hfits : H.Fits handle db₀ l.server) (hm : Moves handle l H e l' H') :
    ∃ wakes, H'.lives[i]? = some { c with wakes := c.wakes ++ wakes } ∧
      (l'.Open H' i p fd ∧
          wakes.length + l'.pending fd = l.pending fd + (e.reports fd).toNat ∨
        l'.Closed H' i ∧ wakes.length ≤ l.pending fd) := by
  have hi : i < H.lives.length := (List.getElem?_eq_some_iff.mp hc).1
  have hsame : some { c with wakes := c.wakes ++ [] } = some c := by rw [List.append_nil]
  obtain ⟨hlive, hnumber, hfd⟩ := h
  -- no other open connection has the number
  have hclosed : ∀ s' : Server D, p ∉ s'.clients → (∀ q ∈ s'.clients, q ∈ l.server.clients) →
      ∀ q ∈ s'.clients, H.number q ≠ i := by
    intro s' hp hsub q hq heq
    obtain rfl := hfits.number q (hsub q hq) p hlive (heq.trans hnumber.symm)
    exact hp hq
  cases hm with
  | @poll s _ _ _ active _ args hpoll =>
    refine ⟨[], hc.trans hsame.symm, Or.inl ⟨⟨hlive, hnumber, hfd⟩, ?_⟩⟩
    have hcount := count_pollArgs hinv.server hpoll hlive active
    rw [hfd] at hcount
    exact Nat.add_left_cancel_iff.mpr hcount
  | @serve s s' _ _ a args _ _ recvs sends q w hq hqfd _ _ hserved =>
    by_cases hqp : q = p
    · -- it is its turn
      subst hqp
      have hafd : a.fd = fd := hqfd.symm.trans hfd
      refine ⟨[⟨fun _ ↦ s.db, recvs, sends⟩], ?_, ?_⟩
      · rw [History.Fits.getElem?_served, if_pos hnumber, hc]
        rfl
      by_cases hq' : q ∈ s'.clients
      · refine Or.inl ⟨⟨hq', hnumber, hserved.fd.trans hfd⟩, ?_⟩
        change 1 + (args.map PollFd.fd).count fd = (a.fd :: args.map PollFd.fd).count fd
        rw [hafd, List.count_cons_self, Nat.add_comm]
      · refine Or.inr ⟨⟨?_, hclosed s' hq' hserved.clients⟩, ?_⟩
        · rw [History.served, List.length_modify]
          exact hi
        · change 1 ≤ (a.fd :: args.map PollFd.fd).count fd
          rw [hafd, List.count_cons_self]
          exact Nat.le_add_left 1 _
    · have hne : H.number q ≠ i := fun heq ↦
        hqp (hfits.number q hq p hlive (heq.trans hnumber.symm))
      have hafd : a.fd ≠ fd := by
        intro heq
        have hmem : ∀ r ∈ s.clients, r ∈ idle := fun r ↦ hinv.server.clients.mem_iff.mp
        exact hqp (hinv.server.fd_injective (hmem q hq) (hmem p hlive)
          (hqfd.trans (heq.trans hfd.symm)))
      refine ⟨[], ?_, Or.inl ⟨⟨hserved.kept p hlive (Ne.symm hqp), hnumber, ?_⟩, ?_⟩⟩
      · rw [History.Fits.getElem?_served, if_neg hne, hc, hsame]
      · rw [hserved.other p (Ne.symm hqp)]
        exact hfd
      · change 0 + (args.map PollFd.fd).count fd = (a.fd :: args.map PollFd.fd).count fd
        rw [List.count_cons_of_ne hafd, Nat.zero_add]
  | @timers s s' _ _ listening _ _ hclient hclients =>
    by_cases hp : p ∈ s'.clients
    · refine ⟨[], hc.trans hsame.symm, Or.inl ⟨⟨hp, hnumber, ?_⟩, ?_⟩⟩
      · rw [hclient]
        exact hfd
      · cases listening <;> rfl
    · exact ⟨[], hc.trans hsame.symm, Or.inr ⟨⟨hi, hclosed s' hp hclients⟩, Nat.zero_le _⟩⟩
  | noMemory => exact ⟨[], hc.trans hsame.symm, Or.inl ⟨⟨hlive, hnumber, hfd⟩, rfl⟩⟩
  | @accept s s' _ _ _ _ q _ _ hq _ _ hother hclients =>
    have hpq : p ≠ q := fun heq ↦ hq (heq ▸ hlive)
    refine ⟨[], ?_, Or.inl ⟨⟨(hclients p).mpr (Or.inr hlive), ?_, ?_⟩, rfl⟩⟩
    · rw [History.born, List.getElem?_append_left hi, hc, hsame]
    · exact (Function.update_of_ne hpq ..).trans hnumber
    · rw [hother p hpq]
      exact hfd

/-! ## A run -/

theorem Closed.runs (h : l.Closed H i) (hrec : Recorded handle db₀ l H)
    (hr : Runs handle l H es l' H') : l'.Closed H' i ∧ H'.lives[i]? = H.lives[i]? := by
  induction hr with
  | nil => exact ⟨h, rfl⟩
  | cons he hstep _ ih =>
    obtain ⟨idle, hinv⟩ := hrec.reachable.inv
    obtain ⟨h₁, hlife₁⟩ := h.moves (hinv.moves he hstep _)
    obtain ⟨h', hlife'⟩ := ih h₁ (hrec.step he hstep)
    exact ⟨h', hlife'.trans hlife₁⟩

theorem Open.runs (h : l.Open H i p fd) (hc : H.lives[i]? = some c)
    (hrec : Recorded handle db₀ l H) (hr : Runs handle l H es l' H') :
    ∃ wakes, H'.lives[i]? = some { c with wakes := c.wakes ++ wakes } ∧
      (l'.Open H' i p fd ∧
          wakes.length + l'.pending fd = l.pending fd + es.countP (Event.reports fd) ∨
        l'.Closed H' i ∧ wakes.length ≤ l.pending fd + es.countP (Event.reports fd)) := by
  induction hr generalizing c with
  | nil l H => exact ⟨[], by rw [List.append_nil]; exact hc, Or.inl ⟨h, Nat.zero_add _⟩⟩
  | @cons l l₁ l' H H' e es he hstep hr ih =>
    obtain ⟨idle, hinv⟩ := hrec.reachable.inv
    have hrec₁ := hrec.step he hstep
    obtain ⟨wakes₁, hc₁, hnext⟩ := h.moves hc hinv hrec.fits (hinv.moves he hstep _)
    have hcount : (e :: es).countP (Event.reports fd)
        = (e.reports fd).toNat + es.countP (Event.reports fd) := by
      rw [List.countP_cons, Nat.add_comm]
      cases e.reports fd <;> rfl
    rw [hcount]
    rcases hnext with ⟨hopen, hsum⟩ | ⟨hclosed, hle⟩
    · obtain ⟨wakes, hc', hlast⟩ := ih hopen hc₁ hrec₁
      refine ⟨wakes₁ ++ wakes, by rw [← List.append_assoc]; exact hc', ?_⟩
      rw [List.length_append]
      rcases hlast with ⟨hopen', hsum'⟩ | ⟨hclosed', hle'⟩
      · exact Or.inl ⟨hopen', by omega⟩
      · exact Or.inr ⟨hclosed', by omega⟩
    · obtain ⟨hclosed', hlife⟩ := hclosed.runs hrec₁ hr
      exact ⟨wakes₁, hlife.trans hc₁, Or.inr ⟨hclosed', by omega⟩⟩

end Loop

/-- **Every connection gets its turn.** From one `poll` to another, a connection that stays open has
been served exactly as often as `poll` has reported it; one that is closed in between, not more often
than that, and from then on never again. -/
theorem turns_eq_reports (h : Loop.Recorded handle db₀ l H) (hpoll : l.phase = .poll)
    (hruns : Loop.Runs handle l H es l' H') (hpoll' : l'.phase = .poll) :
    (∀ p ∈ l.server.clients, ∃ c wakes, H.lives[H.number p]? = some c ∧
      H'.lives[H.number p]? = some { c with wakes := c.wakes ++ wakes } ∧
      (p ∈ l'.server.clients ∧ H'.number p = H.number p ∧
          (l'.server.client p).fd = (l.server.client p).fd ∧
          wakes.length = es.countP (Event.reports (l.server.client p).fd) ∨
        l'.Closed H' (H.number p) ∧
          wakes.length ≤ es.countP (Event.reports (l.server.client p).fd))) ∧
    ∀ i, l.Closed H i → l'.Closed H' i ∧ H'.lives[i]? = H.lives[i]? := by
  refine ⟨fun p hp ↦ ?_, fun i hi ↦ hi.runs h hruns⟩
  obtain ⟨c, -, hc, -⟩ := h.fits.opened p hp
  have hopen : l.Open H (H.number p) p (l.server.client p).fd := ⟨hp, rfl, rfl⟩
  obtain ⟨wakes, hc', hlast⟩ := hopen.runs hc h hruns
  rw [Loop.pending_poll hpoll, Loop.pending_poll hpoll', Nat.zero_add] at hlast
  refine ⟨c, wakes, hc, hc', hlast.imp_left ?_⟩
  rintro ⟨hopen', hsum⟩
  exact ⟨hopen'.live, hopen'.number, hopen'.fd_eq, hsum⟩

/-- **The reply comes in time.** A connection has nothing to do; it receives a request, and after
that `recv` has nothing and `send` takes something whenever it is served, and it is not closed in the
meantime. Whatever the other connections do, as soon as `poll` has reported it more often than the
reply has bytes, its rounds have executed the request once, in the state that the database was in at
its turn, and have sent the frame of the reply and nothing else. -/
theorem reply_in_turns (h : Loop.Recorded handle db₀ l H) (hpoll : l.phase = .poll)
    (hruns : Loop.Runs handle l H es l' H') (hpoll' : l'.phase = .poll)
    (hp : p ∈ l.server.clients) (hopen : ¬ l'.Closed H' (H.number p))
    (hc : H.lives[H.number p]? = some c) {w : World D} (hrun : c.run handle = .ret () w)
    (hw : w.Waiting []) {first : Wake D} {wakes : List (Wake D)}
    (hc' : H'.lives[H.number p]? = some { c with wakes := c.wakes ++ first :: wakes }) {f : Frame}
    {rest : List RecvResult} (hfirst : first.recvs = .data f.bytes :: rest)
    (herror : .error ∉ first.sends) (htakes : ∀ wake ∈ wakes, wake.Takes) {db : D} {out : Bytes}
    (hdb : handle (first.others w.db) f.cmd = some (db, out))
    (hlen : 5 + (capReply out).length < es.countP (Event.reports (l.server.client p).fd)) :
    ∃ w', Life.run handle { c with wakes := c.wakes ++ first :: wakes } = .ret () w' ∧
      w'.conn = (l'.server.client p).conn ∧ w'.Waiting [] ∧
      w'.calls = w.calls ++ [⟨f.cmd, some (capReply out)⟩] ∧
      w'.sent = w.sent ++ replyFrame (capReply out) := by
  have hopened : l.Open H (H.number p) p (l.server.client p).fd := ⟨hp, rfl, rfl⟩
  obtain ⟨ws, hws, hlast⟩ := hopened.runs hc h hruns
  obtain ⟨hopen', hsum⟩ := hlast.resolve_right fun hclosed ↦ hopen hclosed.1
  rw [Loop.pending_poll hpoll, Loop.pending_poll hpoll', Nat.zero_add, Nat.add_zero] at hsum
  have hwakes := congrArg Life.wakes (Option.some_inj.mp (hws.symm.trans hc'))
  obtain rfl : ws = first :: wakes := List.append_cancel_left hwakes
  have hlen' : 4 + (capReply out).length < wakes.length := by
    rw [List.length_cons] at hsum
    omega
  have hstream := ((World.run_streamInv c.rbuf c.wbuf c.db c.wakes).of_ret hrun).1
  obtain ⟨w', hrun', -, hcalls, hready, hreq⟩ :=
    World.request_reply hstream hw hfirst hdb fun wake hwake ↦ (htakes wake hwake).silent
  obtain ⟨hwaiting, hsent⟩ := hready (hreq herror htakes hlen')
  obtain ⟨c₁, w₁, hc₁, hrun₁, hconn⟩ := (h.runs hruns).fits.opened p hopen'.live
  rw [hopen'.number, hc'] at hc₁
  obtain rfl := Option.some_inj.mp hc₁
  have hwhole : Life.run handle { c with wakes := c.wakes ++ first :: wakes } = .ret () w' := by
    rw [Life.run, run_append, show RedisOnC.run handle _ c.wakes = _ from hrun, Outcome.ret_bind,
      hrun']
  obtain ⟨-, rfl⟩ := Outcome.ret.inj (hwhole.symm.trans hrun₁)
  exact ⟨w', hrun₁, hconn, hwaiting, hcalls, hsent⟩

/-! ## A run in which a reply is sent -/

/-- A round in which `recv` has nothing and `send` takes a byte. -/
def Wake.trickle (db : D) : Wake D := ⟨fun _ ↦ db, [], [.accepted 1]⟩

theorem Wake.takes_trickle (db : D) : (Wake.trickle db).Takes := by
  constructor
  · exact fun r hr ↦ absurd hr List.not_mem_nil
  · exact ⟨0, [], rfl⟩
  · exact fun hmem ↦ SendResult.noConfusion (List.mem_singleton.mp hmem)

/-- A connection that is in the middle of a reply, or has nothing to do, gets such rounds. -/
theorem Loop.Recorded.waiting_rounds {s : Server D} {tv : Timespec} (hfits : tv.Fits)
    (hearly : getMonotonicUsec tv + 1000 ≤ 5000000) (n : ℕ) {w : World D} {cs : List Call}
    (h : Recorded handle db₀ ⟨s, .poll, getMonotonicUsec tv⟩ H) (hp : p ∈ s.clients)
    (hc : H.lives[H.number p]? = some c) (hrun : c.run handle = .ret () w)
    (hconn : w.conn = (s.client p).conn) (hopen : w.conn.state ≠ .fin) (hw : w.Quiet handle cs) :
    ∃ s' H' es wakes, Runs handle ⟨s, .poll, getMonotonicUsec tv⟩ H es
        ⟨s', .poll, getMonotonicUsec tv⟩ H' ∧
      es.countP (Event.reports (s.client p).fd) = n ∧ p ∈ s'.clients ∧ H'.number p = H.number p ∧
      H'.lives[H.number p]? = some { c with wakes := c.wakes ++ wakes } ∧
      wakes.length = n ∧ ∀ wake ∈ wakes, wake.Takes := by
  induction n generalizing s H c w with
  | zero =>
    refine ⟨s, H, [], [], .nil .., rfl, hp, rfl, ?_, rfl, fun wake hwake ↦ ?_⟩
    · rw [List.append_nil]
      exact hc
    · exact absurd hwake List.not_mem_nil
  | succ n ih =>
    obtain ⟨v, hv, hquiet, hnext⟩ := hw.round_takes hopen (Wake.takes_trickle s.db)
    have hvopen : v.conn.state ≠ .fin := by
      rcases hnext with heq | ⟨heq, -⟩ <;> rw [heq] <;> exact ConnState.noConfusion
    have hvrun := (Life.run_add hrun hopen _).trans hv
    -- the connection does the same without its record
    obtain ⟨u, hio, hsame⟩ := (Life.lockstep hrun hopen).exists_ret hvrun
    rw [hconn] at hio
    have huopen : u.conn.state ≠ .fin := hsame.conn.symm ▸ hvopen
    obtain ⟨s₁, es₁, hrun₁, hcount₁, hp₁, -, hconn₁, hfd₁, -⟩ :=
      h.round hfits le_rfl hearly hp hio huopen
    have hc₁ : (H.served (H.number p) (Wake.trickle s.db) u.calls).lives[H.number p]?
        = some (c.add (Wake.trickle s.db)) := by
      rw [History.Fits.getElem?_served, if_pos rfl, hc]
      rfl
    obtain ⟨s', H', es, wakes, hrun', hcount, hp', hnumber, hc', hlen, htakes'⟩ :=
      ih (h.runs hrun₁) hp₁ hc₁ hvrun (hsame.conn.symm.trans hconn₁.symm) hvopen hquiet
    refine ⟨s', H', es₁ ++ es, Wake.trickle s.db :: wakes, hrun₁.trans hrun', ?_, hp', hnumber, ?_,
      congrArg Nat.succ hlen, ?_⟩
    · rw [hfd₁] at hcount
      rw [List.countP_append, hcount₁, if_pos rfl, hcount, Nat.add_comm]
    · refine hc'.trans ?_
      rw [Life.add, ← List.append_cons]
    · exact List.forall_mem_cons.mpr ⟨Wake.takes_trickle s.db, htakes'⟩

/-- Two connections send a request each. Then the reply to the first goes out, a byte in every
round. -/
theorem recorded_reply (handle : D → List Bytes → Option (D × Bytes)) {db db₁ db₂ : D}
    {f g : Frame} {out₁ out₂ : Bytes} (hf : handle db f.cmd = some (db₁, out₁))
    (hg : handle db₁ g.cmd = some (db₂, out₂)) (n : ℕ) :
    ∃ (l l' : Loop D) (H H' : History D) (es : List Event) (wakes : List (Wake D)),
      Loop.Recorded handle db l H ∧ l.phase = .poll ∧ l'.phase = .poll ∧
      Loop.Runs handle l H es l' H' ∧ l.server.clients = [9, 7] ∧ 7 ∈ l'.server.clients ∧
      H.number 7 = 0 ∧ H'.number 7 = 0 ∧ H.lives[0]? = some ⟨fun _ ↦ 0, fun _ ↦ 0, db, []⟩ ∧
      H'.lives[0]? = some ⟨fun _ ↦ 0, fun _ ↦ 0, db,
        ⟨fun _ ↦ db, [.data f.bytes], []⟩ :: wakes⟩ ∧
      wakes.length = n ∧ (∀ wake ∈ wakes, wake.Takes) ∧
      es.countP (Event.reports (l.server.client 7).fd) = n + 1 := by
  obtain ⟨s, s₁, H, H₁, es₁, h, hs, hnumber, -, hlives, hrun₁, hcount₁, -, hp₁, -, hfd₁, -, hempty,
    hopen, hnumber₁, -, hlives₁, -⟩ := recorded_interleaved handle hf hg
  have hfits : Timespec.Fits ⟨1, 0⟩ := by
    rw [Timespec.Fits]
    decide
  have h₁ := h.runs hrun₁
  obtain ⟨c, v, hc, hv, hconn⟩ := h₁.fits.opened 7 hp₁
  obtain ⟨hstream, hroom⟩ := (World.run_streamInv c.rbuf c.wbuf c.db c.wakes).of_ret hv
  have hquiet : v.Quiet handle v.calls := ⟨hstream, hroom, rfl, hconn ▸ hempty⟩
  obtain ⟨s₂, H₂, es₂, wakes, hrun₂, hcount₂, hp₂, hnumber₂, hlives₂, hlen, htakes⟩ :=
    Loop.Recorded.waiting_rounds hfits (by decide) n h₁ hp₁ hc hv hconn
      (hconn ▸ hopen) hquiet
  rw [hnumber₁, hlives₁] at hc
  obtain rfl := Option.some_inj.mp hc
  rw [hnumber₁] at hnumber₂ hlives₂
  refine ⟨_, _, H, H₂, es₁ ++ es₂, wakes, h, rfl, rfl, hrun₁.trans hrun₂, hs.clients, hp₂, hnumber,
    hnumber₂, ?_, hlives₂, hlen, htakes, ?_⟩
  · rw [hlives]
    rfl
  · rw [hfd₁] at hcount₂
    rw [hs.fds.1, List.countP_append, hcount₁, hcount₂, Nat.add_comm]

theorem turns_eq_reports_reply : ∃ (l : Loop ℕ) (H H' : History ℕ) (es : List Event),
    l.server.clients = [9, 7] ∧ es.countP (Event.reports (l.server.client 7).fd) = 7 ∧
      ∃ c wakes, H.lives[H.number 7]? = some c ∧
        H'.lives[H.number 7]? = some { c with wakes := c.wakes ++ wakes } ∧ wakes.length = 7 := by
  obtain ⟨l, l', H, H', es, wakes, h, hpoll, hpoll', hruns, hclients, hp', hnumber, hnumber', -, -,
    -, -, hcount⟩ :=
    recorded_reply count (count_empty 0) (count_empty 1) 6
  have hp : 7 ∈ l.server.clients := by
    rw [hclients]
    decide
  obtain ⟨hopen, -⟩ := turns_eq_reports h hpoll hruns hpoll'
  obtain ⟨c, wakes, hc, hc', hlast⟩ := hopen 7 hp
  have hnot : ¬ l'.Closed H' (H.number 7) := fun hclosed ↦
    hclosed.number 7 hp' (hnumber'.trans hnumber.symm)
  obtain ⟨-, -, -, hlen⟩ := hlast.resolve_right fun hclosed ↦ hnot hclosed.1
  exact ⟨l, H, H', es, hclients, hcount, c, wakes, hc, hc', hlen.trans hcount⟩

theorem reply_in_turns_reply : ∃ (l l' : Loop ℕ) (H' : History ℕ) (c : Life ℕ) (w : World ℕ),
    l.server.clients = [9, 7] ∧ H'.lives[0]? = some c ∧ c.run count = .ret () w ∧
    w.conn = (l'.server.client 7).conn ∧ w.Waiting [] ∧
    w.calls = [⟨[], some (capReply outNil)⟩] ∧ w.sent = replyFrame (capReply outNil) := by
  obtain ⟨l, l', H, H', es, wakes, h, hpoll, hpoll', hruns, hclients, hp', hnumber, hnumber', hc,
    hc', -, htakes, hcount⟩ :=
    recorded_reply count (count_empty 0) (count_empty 1) 6
  have hp : 7 ∈ l.server.clients := by
    rw [hclients]
    decide
  have hopen : ¬ l'.Closed H' (H.number 7) := fun hclosed ↦
    hclosed.number 7 hp' (hnumber'.trans hnumber.symm)
  obtain ⟨w', hrun, hconn, hwaiting, hcalls, hsent⟩ := reply_in_turns h hpoll hruns hpoll' hp hopen
    ((congrArg (H.lives[·]?) hnumber).trans hc) rfl (World.waiting_accepted _ _ _)
    ((congrArg (H'.lives[·]?) hnumber).trans hc') (f := Frame.empty) rfl List.not_mem_nil htakes rfl
    (by rw [hcount]; decide)
  exact ⟨l, l', H', _, w', hclients, hc', hrun, hconn, hwaiting, hcalls, hsent⟩

end RedisOnC
