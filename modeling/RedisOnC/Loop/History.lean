import RedisOnC.Conn.Record
import RedisOnC.Loop.Timers

/-!
# Interleaved connections

The main loop serves many connections, a part of a request of one between two parts of a request of
another, and all on one database. A `History` is kept beside a run of the main loop: for each
connection that was ever accepted the rounds in which it was served, and the calls of `do_request`
of all connections in the order in which they were made.

The calls are serial: each one is made in the state of the database that the one before it has left.
And a connection does not notice the others but in the database: it is at any time where the single
connection is that is served in its rounds alone.
-/

namespace RedisOnC

variable {D : Type} {handle : D → List Bytes → Option (D × Bytes)}

/-- A connection since `accept`: what its buffers and the database held at that time, and the rounds
in which it was served. -/
structure Life (D : Type) where
  rbuf : Buffer
  wbuf : Buffer
  db : D
  wakes : List (Wake D) := []

/-- The connection when it is served in these rounds and is the only one. -/
def Life.run (handle : D → List Bytes → Option (D × Bytes)) (c : Life D) :
    Outcome Fault (World D) Unit :=
  RedisOnC.run handle (accepted c.rbuf c.wbuf c.db) c.wakes

/-- One more round. -/
def Life.add (c : Life D) (wake : Wake D) : Life D := { c with wakes := c.wakes ++ [wake] }

/-- All connections in the order in which they were accepted, the one that is at each address, and
the calls of `do_request` with the number of the connection. -/
structure History (D : Type) where
  lives : List (Life D) := []
  number : Ptr → ℕ := fun _ ↦ 0
  log : List (ℕ × Call) := []

namespace History

/-- The calls of one connection. -/
def callsOf (H : History D) (i : ℕ) : List Call :=
  (H.log.filter fun c ↦ c.1 = i).map Prod.snd

/-- A connection is accepted. -/
def born (H : History D) (p : Ptr) (c : Life D) : History D :=
  { H with lives := H.lives ++ [c], number := Function.update H.number p H.lives.length }

/-- A connection is served. -/
def served (H : History D) (i : ℕ) (wake : Wake D) (cs : List Call) : History D :=
  { H with
    lives := H.lives.modify i (Life.add · wake)
    log := H.log ++ cs.map (i, ·) }

/-- The history after the next event. The other connections are there for the one that is served as
the state in which they have left the database. -/
def after (handle : D → List Bytes → Option (D × Bytes)) (l : Loop D) (e : Event)
    (H : History D) : History D :=
  match l.phase, e with
  | .serve (a :: _) _, .io _ recvs sends =>
    match l.server.fd2conn[a.fd]? with
    | some (some p) =>
      let w := connectionIo handle
        { conn := (l.server.client p).conn, db := l.server.db, recvs := recvs, sends := sends }
      H.served (H.number p) ⟨fun _ ↦ l.server.db, recvs, sends⟩ w.state.calls
    | _ => H
  | .accept, .accept _ _ (some p) =>
    H.born p
      { rbuf := (l.server.client p).conn.rbuf
        wbuf := (l.server.client p).conn.wbuf
        db := l.server.db }
  | _, _ => H

end History

/-- The runs of the main loop, with their histories. -/
inductive Loop.Recorded (handle : D → List Bytes → Option (D × Bytes)) (db₀ : D) :
    Loop D → History D → Prop
  | init (client : Ptr → Client) (links : RingLinks IdleNode) :
    Recorded handle db₀ { server := Server.init db₀ client links, phase := .poll, clock := 0 } {}
  | step {l l' : Loop D} {H : History D} {e : Event} : Recorded handle db₀ l H → l.Allows e →
    l.step handle e = .ret () l' → Recorded handle db₀ l' (H.after handle l e)

/-- A part of a run of the main loop, with its events. -/
inductive Loop.Runs (handle : D → List Bytes → Option (D × Bytes)) :
    Loop D → History D → List Event → Loop D → History D → Prop
  | nil (l : Loop D) (H : History D) : Runs handle l H [] l H
  | cons {l l₁ l' : Loop D} {H H' : History D} {e : Event} {es : List Event} : l.Allows e →
    l.step handle e = .ret () l₁ → Runs handle l₁ (H.after handle l e) es l' H' →
    Runs handle l H (e :: es) l' H'

/-- A call of `poll` that reports the descriptor. -/
def Event.reports (fd : ℕ) : Event → Bool
  | .poll _ active _ => active fd
  | _ => false

namespace Loop

variable {l l' : Loop D} {H H' : History D} {db₀ : D} {es : List Event}

theorem Recorded.reachable (h : Recorded handle db₀ l H) : Reachable handle l := by
  induction h with
  | init client links => exact .init db₀ client links
  | step _ he hstep ih => exact ih.step he hstep

/-- Every run has a history. -/
theorem Reachable.exists_recorded (h : Reachable handle l) : ∃ db₀ H, Recorded handle db₀ l H := by
  induction h with
  | init db client links => exact ⟨db, {}, .init client links⟩
  | step _ he hstep ih =>
    obtain ⟨db₀, H, h⟩ := ih
    exact ⟨db₀, _, h.step he hstep⟩

theorem Recorded.runs (h : Recorded handle db₀ l H) (hr : Runs handle l H es l' H') :
    Recorded handle db₀ l' H' := by
  induction hr with
  | nil => exact h
  | cons he hstep _ ih => exact ih (h.step he hstep)

theorem Runs.trans {l₁ : Loop D} {H₁ : History D} {es₁ : List Event}
    (h : Runs handle l H es l₁ H₁) (h' : Runs handle l₁ H₁ es₁ l' H') :
    Runs handle l H (es ++ es₁) l' H' := by
  induction h with
  | nil => exact h'
  | cons he hstep _ ih => exact .cons he hstep (ih h')

end Loop

/-! ## What a step does -/

/-- What a round of one connection makes of the server. The connection is closed if it is marked for
deletion, and the others stay as they are. -/
structure Server.Served (s : Server D) (p : Ptr) (w : World D) (s' : Server D) : Prop where
  db : s'.db = w.db
  conn : (s'.client p).conn = w.conn
  fd : (s'.client p).fd = (s.client p).fd
  other : ∀ q ≠ p, s'.client q = s.client q
  clients : ∀ q ∈ s'.clients, q ∈ s.clients
  live : p ∈ s'.clients ↔ w.conn.state ≠ .fin
  kept : ∀ q ∈ s.clients, q ≠ p → q ∈ s'.clients

/-- What a step of the main loop does to the server and to the history. -/
inductive Loop.Moves (handle : D → List Bytes → Option (D × Bytes)) :
    Loop D → History D → Event → Loop D → History D → Prop
  | poll {s : Server D} {clock : ℕ} {H : History D} {tv : Timespec} {active : ℕ → Bool}
      {listening : Bool} {args : List PollFd} : pollArgs s = some args →
    Moves handle ⟨s, .poll, clock⟩ H (.poll tv active listening)
      ⟨s, .serve (args.filter fun a ↦ active a.fd) listening, getMonotonicUsec tv⟩ H
  | serve {s s' : Server D} {clock : ℕ} {H : History D} {a : PollFd} {args : List PollFd}
      {listening : Bool} {tv : Timespec} {recvs : List RecvResult} {sends : List SendResult}
      {p : Ptr} {w : World D} : p ∈ s.clients → (s.client p).fd = a.fd →
    (s.client p).conn.state ≠ .fin → connectionIo handle
      { conn := (s.client p).conn, db := s.db, recvs := recvs, sends := sends } = .ret () w →
    s.Served p w s' → Moves handle ⟨s, .serve (a :: args) listening, clock⟩ H (.io tv recvs sends)
      ⟨s', .serve args listening, getMonotonicUsec tv⟩
      (H.served (H.number p) ⟨fun _ ↦ s.db, recvs, sends⟩ w.calls)
  | timers {s s' : Server D} {clock : ℕ} {H : History D} {listening : Bool} {tv : Timespec} :
    s'.db = s.db → s'.client = s.client → (∀ q ∈ s'.clients, q ∈ s.clients) →
    Moves handle ⟨s, .serve [] listening, clock⟩ H (.timers tv)
      ⟨s', if listening then .accept else .poll, getMonotonicUsec tv⟩ H
  | noMemory {s : Server D} {clock : ℕ} {H : History D} {tv : Timespec} {connfd : ℕ} :
    Moves handle ⟨s, .accept, clock⟩ H (.accept tv connfd none) ⟨s, .poll, getMonotonicUsec tv⟩ H
  | accept {s s' : Server D} {clock : ℕ} {H : History D} {tv : Timespec} {connfd : ℕ} {p : Ptr}
      {rbuf wbuf : Buffer} : p ∉ s.clients → s'.db = s.db →
    (s'.client p).conn = { rbuf := rbuf, wbuf := wbuf } →
    (∀ q ≠ p, s'.client q = s.client q) → (∀ q, q ∈ s'.clients ↔ q = p ∨ q ∈ s.clients) →
    Moves handle ⟨s, .accept, clock⟩ H (.accept tv connfd (some p))
      ⟨s', .poll, getMonotonicUsec tv⟩ (H.born p { rbuf := rbuf, wbuf := wbuf, db := s.db })

/-! ## A connection by itself -/

section Lives

variable {c : Life D} {w : World D} {db : D} {recvs : List RecvResult} {sends : List SendResult}

theorem Life.run_add (hrun : c.run handle = .ret () w) (hfin : w.conn.state ≠ .fin)
    (wake : Wake D) : (c.add wake).run handle = connectionIo handle (w.woken wake) := by
  rw [Life.run] at hrun ⊢
  rw [Life.add, run_append, hrun, Outcome.ret_bind, run_singleton hfin]

/-- Whether the connection has a record or not, it does the same in its next round. -/
theorem Life.lockstep (hrun : c.run handle = .ret () w) (hfin : w.conn.state ≠ .fin) :
    Outcome.Lockstep w.Continues
      (connectionIo handle { conn := w.conn, db := db, recvs := recvs, sends := sends })
      ((c.add ⟨fun _ ↦ db, recvs, sends⟩).run handle) := by
  rw [Life.run_add hrun hfin]
  apply World.Continues.connectionIo
  constructor
  · rfl
  · rfl
  · rfl
  · rfl
  · exact (List.append_nil _).symm
  · rfl
  · exact (List.append_nil _).symm
  · exact (List.append_nil _).symm

theorem Life.io_executes (hrun : c.run handle = .ret () w) (hfin : w.conn.state ≠ .fin)
    (wake : Wake D) : ((c.add wake).run handle).Sat
      (fun _ v ↦ ∃ cs, (w.woken wake).Executes handle v cs)
      fun f v ↦ (w.woken wake).Crashes handle f v := by
  obtain ⟨hinv, hroom⟩ := (World.run_streamInv c.rbuf c.wbuf c.db c.wakes).of_ret hrun
  rw [Life.run_add hrun hfin]
  exact ((hinv.woken wake).io_executes hroom hfin).mono (fun _ _ h ↦ h.2.2) fun _ _ h ↦ h

theorem Life.add_ret {w₁ : World D} (hrun : c.run handle = .ret () w) (hfin : w.conn.state ≠ .fin)
    (hio : connectionIo handle { conn := w.conn, db := db, recvs := recvs, sends := sends }
      = .ret () w₁) :
    (∃ v, (c.add ⟨fun _ ↦ db, recvs, sends⟩).run handle = .ret () v ∧ v.conn = w₁.conn ∧
      v.calls = w.calls ++ w₁.calls) ∧
    Serial handle db w₁.calls w₁.db ∧ ∀ c ∈ w₁.calls, c.Fits := by
  obtain ⟨v, hv, hcont⟩ := (Life.lockstep hrun hfin).of_ret hio
  obtain ⟨cs, hcalls, hserial, hfits⟩ := (Life.io_executes hrun hfin _).of_ret hv
  obtain rfl : cs = w₁.calls := List.append_cancel_left (hcalls.symm.trans hcont.calls)
  exact ⟨⟨v, hv, hcont.conn.symm, hcont.calls⟩, hcont.db ▸ hserial, hfits⟩

end Lives

/-! ## What the operations do to a connection and to the database -/

variable {s s' : Server D} {idle : List Ptr} {clock nowUs : ℕ} {p : Ptr}

theorem dlistDetach_cases {a : IdleNode} (h : dlistDetach s a = some s') :
    ∃ links, s' = { s with links := links } := by
  rw [dlistDetach] at h
  split at h
  · exact ⟨_, (Option.some_inj.mp h).symm⟩
  · exact (Option.some_ne_none _ h.symm).elim

theorem dlistInsertBefore_cases {a b : IdleNode} (h : dlistInsertBefore s a b = some s') :
    ∃ links, s' = { s with links := links } := by
  rw [dlistInsertBefore] at h
  split at h
  · exact ⟨_, (Option.some_inj.mp h).symm⟩
  · exact (Option.some_ne_none _ h.symm).elim

private theorem conn_update (client : Ptr → Client) (p : Ptr) (c : Client) :
    (Function.update client p c p).conn = c.conn := by
  rw [Function.update_self]

theorem timedConnectionIo_outcome (handle : D → List Bytes → Option (D × Bytes))
    (h : s.Inv idle clock) (hp : p ∈ idle) (hclock : clock ≤ nowUs)
    (recvs : List RecvResult) (sends : List SendResult) :
    (timedConnectionIo handle s p nowUs recvs sends).Sat
      (fun _ s' ↦ ∃ w, connectionIo handle
          { conn := (s.client p).conn, db := s.db, recvs := recvs, sends := sends } = .ret () w ∧
        s'.db = w.db ∧ (s'.client p).conn = w.conn)
      fun f _ ↦ ∃ f' w, f = .conn f' ∧ connectionIo handle
        { conn := (s.client p).conn, db := s.db, recvs := recvs, sends := sends } = .stop f' w := by
  have hspec : (timedConnectionIo handle s p nowUs recvs sends).Sat _ _ :=
    timedConnectionIo_spec h hp hclock recvs sends
  have hlive : p ∈ s.clients := h.clients.mem_iff.mpr hp
  rw [timedConnectionIo, if_neg (not_not.mpr hlive)] at hspec ⊢
  dsimp only at hspec ⊢
  obtain ⟨c, hc⟩ : ∃ c, c = Function.update s.client p { s.client p with idleStart := nowUs } :=
    ⟨_, rfl⟩
  have hconn : (c p).conn = (s.client p).conn := by rw [hc, Function.update_self]
  rw [← hc] at hspec ⊢
  -- the list is in order, so the node can be moved
  rcases hmove : (do
    let s ← dlistDetach { s with client := c } (.conn p)
    dlistInsertBefore s .head (.conn p)) with _ | s₂
  · rw [hmove] at hspec
    obtain ⟨f, hf⟩ := hspec
    cases hf
  · obtain ⟨s₁, hdetach, hinsert⟩ := Option.bind_eq_some_iff.mp hmove
    obtain ⟨links₁, rfl⟩ := dlistDetach_cases hdetach
    obtain ⟨links₂, rfl⟩ := dlistInsertBefore_cases hinsert
    rw [hmove, Outcome.ofOption_some, Outcome.ret_bind]
    dsimp only
    rw [hconn]
    cases connectionIo handle
        { conn := (s.client p).conn, db := s.db, recvs := recvs, sends := sends } with
    | ret u w => exact ⟨w, rfl, rfl, conn_update ..⟩
    | stop f w => exact ⟨f, w, rfl, rfl⟩

theorem serveFd_outcome (handle : D → List Bytes → Option (D × Bytes))
    (h : s.Inv idle clock) (hp : p ∈ idle) (hclock : clock ≤ nowUs)
    (recvs : List RecvResult) (sends : List SendResult) :
    (serveFd handle s (s.client p).fd nowUs recvs sends).Sat
      (fun _ s' ↦ ∃ w, connectionIo handle
          { conn := (s.client p).conn, db := s.db, recvs := recvs, sends := sends } = .ret () w ∧
        s.Served p w s')
      fun f _ ↦ ∃ f' w, f = .conn f' ∧ connectionIo handle
        { conn := (s.client p).conn, db := s.db, recvs := recvs, sends := sends } = .stop f' w := by
  have hspec : (timedConnectionIo handle s p nowUs recvs sends).Sat _ _ :=
    timedConnectionIo_spec h hp hclock recvs sends
  have houtcome := timedConnectionIo_outcome handle h hp hclock recvs sends
  rw [serveFd, (h.fd2conn _ p).mpr ⟨hp, rfl⟩]
  dsimp only
  generalize timedConnectionIo handle s p nowUs recvs sends = o at hspec houtcome
  cases o with
  | stop f s₁ => exact houtcome
  | ret u s₁ =>
    obtain ⟨h₁, -, hother, hfd⟩ := hspec
    obtain ⟨w, hio, hdb, hconn⟩ := houtcome
    have hperm : (idle.erase p ++ [p]).Perm idle :=
      List.perm_append_comm.trans (List.perm_cons_erase hp).symm
    have hmem : ∀ q, q ∈ s₁.clients ↔ q ∈ s.clients := fun q ↦
      (h₁.clients.trans (hperm.trans h.clients.symm)).mem_iff
    have hlive : p ∈ s.clients := h.clients.mem_iff.mpr hp
    rw [Outcome.ret_bind]
    by_cases hfin : (s₁.client p).conn.state = .fin
    · obtain ⟨s₂, hdone, h₂, hclient, hdb₂⟩ :=
        connDone_spec h₁ (List.mem_append_right _ (List.mem_singleton_self p))
      have hmem₂ : ∀ q, q ∈ s₂.clients ↔ q ≠ p ∧ q ∈ s.clients := by
        intro q
        rw [h₂.clients.mem_iff, h₁.nodup.mem_erase_iff, ← h₁.clients.mem_iff, hmem]
      rw [if_pos hfin, hdone, Outcome.ofOption_some, Outcome.ret_bind]
      refine ⟨w, hio, ?_⟩
      constructor
      · exact hdb₂.trans hdb
      · rw [hclient, hconn]
      · rw [hclient, hfd]
      · intro q hqp
        rw [hclient, hother q hqp]
      · exact fun q hq ↦ ((hmem₂ q).mp hq).2
      · rw [hmem₂, ← hconn]
        exact iff_of_false (fun hpp ↦ hpp.1 rfl) (not_not.mpr hfin)
      · exact fun q hq hqp ↦ (hmem₂ q).mpr ⟨hqp, hq⟩
    · rw [if_neg hfin]
      refine ⟨w, hio, ?_⟩
      constructor
      · exact hdb
      · exact hconn
      · exact hfd
      · exact hother
      · exact fun q ↦ (hmem q).mp
      · rw [hmem, ← hconn]
        exact iff_of_true hlive hfin
      · exact fun q hq _ ↦ (hmem q).mpr hq

theorem acceptNewConn_outcome (h : s.Inv idle clock) (hclock : clock ≤ nowUs) {connfd : ℕ}
    (hfd : ∀ q ∈ s.clients, (s.client q).fd ≠ connfd) (hp : p ∉ s.clients)
    (haccept : acceptNewConn s connfd (some p) nowUs = some s') :
    s'.db = s.db ∧ (s'.client p).conn
        = { rbuf := (s.client p).conn.rbuf, wbuf := (s.client p).conn.wbuf } ∧
      (∀ q ≠ p, s'.client q = s.client q) ∧ ∀ q, q ∈ s'.clients ↔ q = p ∨ q ∈ s.clients := by
  obtain ⟨s'', haccept', h', hother, -⟩ := acceptNewConn_spec h hclock hfd hp
  obtain rfl := Option.some_inj.mp (haccept.symm.trans haccept')
  rw [acceptNewConn] at haccept
  dsimp only at haccept
  obtain ⟨s₁, hinsert, hput⟩ := Option.bind_eq_some_iff.mp haccept
  obtain ⟨links, rfl⟩ := dlistInsertBefore_cases hinsert
  obtain rfl := Option.some_inj.mp hput
  refine ⟨rfl, conn_update .., hother, fun q ↦ ?_⟩
  exact List.mem_cons

/-! ## The history fits the server -/

variable {H : History D} {db₀ : D}

/-- What the history says of the server: its calls make the database, the connections, also those
that are closed, have made the calls that the log has of them, and those that are open are as they
are after their rounds. -/
structure History.Fits (handle : D → List Bytes → Option (D × Bytes)) (db₀ : D) (s : Server D)
    (H : History D) : Prop where
  serial : Serial handle db₀ (H.log.map Prod.snd) s.db
  messages : ∀ c ∈ H.log, c.2.Fits
  lives : ∀ i c, H.lives[i]? = some c → ∃ w, c.run handle = .ret () w ∧ w.calls = H.callsOf i
  opened : ∀ p ∈ s.clients, ∃ c w, H.lives[H.number p]? = some c ∧ c.run handle = .ret () w ∧
    w.conn = (s.client p).conn
  number : ∀ p ∈ s.clients, ∀ q ∈ s.clients, H.number p = H.number q → p = q
  log : ∀ c ∈ H.log, c.1 < H.lives.length

namespace History.Fits

theorem mono (h : H.Fits handle db₀ s) (hdb : s'.db = s.db) (hclient : s'.client = s.client)
    (hclients : ∀ q ∈ s'.clients, q ∈ s.clients) : H.Fits handle db₀ s' where
  serial := hdb ▸ h.serial
  messages := h.messages
  lives := h.lives
  opened q hq := hclient ▸ h.opened q (hclients q hq)
  number q hq r hr := h.number q (hclients q hq) r (hclients r hr)
  log := h.log

theorem callsOf_length (h : H.Fits handle db₀ s) : H.callsOf H.lives.length = [] := by
  rw [callsOf, List.filter_eq_nil_iff.mpr, List.map_nil]
  intro c hc
  rw [decide_eq_true_iff]
  exact (h.log c hc).ne

theorem born (h : H.Fits handle db₀ s) {rbuf wbuf : Buffer} (hp : p ∉ s.clients)
    (hdb : s'.db = s.db) (hconn : (s'.client p).conn = { rbuf := rbuf, wbuf := wbuf })
    (hother : ∀ q ≠ p, s'.client q = s.client q)
    (hclients : ∀ q, q ∈ s'.clients ↔ q = p ∨ q ∈ s.clients) :
    (H.born p { rbuf := rbuf, wbuf := wbuf, db := s.db }).Fits handle db₀ s' := by
  have hne : ∀ q ∈ s.clients, q ≠ p := fun q hq heq ↦ hp (heq ▸ hq)
  -- the numbers of the open connections are those of earlier ones
  have hlt : ∀ q ∈ s.clients, H.number q < H.lives.length := by
    intro q hq
    obtain ⟨c, -, hc, -⟩ := h.opened q hq
    exact (List.getElem?_eq_some_iff.mp hc).1
  have hnumber : ∀ q ∈ s.clients,
      (Function.update H.number p H.lives.length) q = H.number q := fun q hq ↦
    Function.update_of_ne (hne q hq) ..
  have hself : (Function.update H.number p H.lives.length) p = H.lives.length :=
    Function.update_self ..
  refine ⟨hdb ▸ h.serial, h.messages, ?_, ?_, ?_, ?_⟩
  · intro i c hc
    rcases Nat.lt_or_ge i H.lives.length with hi | hi
    · rw [History.born, List.getElem?_append_left hi] at hc
      exact h.lives i c hc
    · rw [History.born, List.getElem?_append_right hi, List.getElem?_singleton] at hc
      split at hc
      · next hi' =>
        obtain rfl : i = H.lives.length := Nat.le_antisymm (Nat.le_of_sub_eq_zero hi') hi
        obtain rfl := Option.some_inj.mp hc
        exact ⟨_, rfl, h.callsOf_length.symm⟩
      · exact nomatch hc
  · intro q hq
    rcases (hclients q).mp hq with rfl | hq
    · refine ⟨{ rbuf := rbuf, wbuf := wbuf, db := s.db }, accepted rbuf wbuf s.db, ?_, rfl,
        hconn.symm⟩
      change (H.lives ++ [_])[(Function.update H.number q H.lives.length) q]? = some _
      rw [hself, List.getElem?_append_right (Nat.le_refl _), Nat.sub_self]
      rfl
    · obtain ⟨c, w, hc, hrun, hw⟩ := h.opened q hq
      refine ⟨c, w, ?_, hrun, by rw [hother q (hne q hq)]; exact hw⟩
      change (H.lives ++ [_])[(Function.update H.number p H.lives.length) q]? = some c
      rw [hnumber q hq, List.getElem?_append_left (hlt q hq), hc]
  · intro q hq r hr heq
    change (Function.update H.number p H.lives.length) q
      = (Function.update H.number p H.lives.length) r at heq
    rcases (hclients q).mp hq with rfl | hq <;> rcases (hclients r).mp hr with rfl | hr
    · rfl
    · rw [hself, hnumber r hr] at heq
      exact absurd heq.symm (hlt r hr).ne
    · rw [hself, hnumber q hq] at heq
      exact absurd heq (hlt q hq).ne
    · rw [hnumber q hq, hnumber r hr] at heq
      exact h.number q hq r hr heq
  · intro c hc
    rw [History.born, List.length_append]
    exact (h.log c hc).trans_le (Nat.le_add_right _ _)

theorem getElem?_served (i j : ℕ) (wake : Wake D) (cs : List Call) :
    (H.served i wake cs).lives[j]?
      = if i = j then H.lives[j]?.map (Life.add · wake) else H.lives[j]? := by
  rw [History.served, List.getElem?_modify]
  split <;> simp

theorem callsOf_served (i j : ℕ) (wake : Wake D) (cs : List Call) :
    (H.served i wake cs).callsOf j = H.callsOf j ++ if i = j then cs else [] := by
  rw [callsOf, History.served, List.filter_append, List.map_append]
  congr 1
  split
  · next hij =>
    rw [List.filter_eq_self.mpr, List.map_map]
    · exact List.map_id cs
    · intro c hc
      obtain ⟨d, -, rfl⟩ := List.mem_map.mp hc
      exact decide_eq_true hij
  · next hij =>
    rw [List.filter_eq_nil_iff.mpr, List.map_nil]
    intro c hc
    obtain ⟨d, -, rfl⟩ := List.mem_map.mp hc
    rw [decide_eq_true_iff]
    exact hij

theorem served (h : H.Fits handle db₀ s) (hp : p ∈ s.clients)
    (hfin : (s.client p).conn.state ≠ .fin) {recvs : List RecvResult} {sends : List SendResult}
    {w₁ : World D} (hio : connectionIo handle
      { conn := (s.client p).conn, db := s.db, recvs := recvs, sends := sends } = .ret () w₁)
    (hs : s.Served p w₁ s') :
    (H.served (H.number p) ⟨fun _ ↦ s.db, recvs, sends⟩ w₁.calls).Fits handle db₀ s' := by
  obtain ⟨c, w, hc, hrun, hw⟩ := h.opened p hp
  rw [← hw] at hfin hio
  obtain ⟨⟨v, hv, hvconn, hvcalls⟩, hserial, hfits⟩ := Life.add_ret hrun hfin hio
  refine ⟨?_, ?_, ?_, ?_, ?_, ?_⟩
  · rw [History.served, List.map_append, List.map_map]
    refine serial_append.mpr ⟨s.db, h.serial, ?_⟩
    rw [hs.db]
    exact (List.map_id w₁.calls).symm ▸ hserial
  · intro c hc
    rcases List.mem_append.mp hc with hc | hc
    · exact h.messages c hc
    · obtain ⟨d, hd, rfl⟩ := List.mem_map.mp hc
      exact hfits d hd
  · intro i c' hc'
    rw [callsOf_served]
    rw [getElem?_served] at hc'
    by_cases hi : H.number p = i
    · rw [if_pos hi, ← hi, hc] at hc'
      obtain rfl := Option.some_inj.mp hc'
      obtain ⟨w', hrun', hcalls'⟩ := h.lives _ c hc
      rw [hrun] at hrun'
      cases hrun'
      refine ⟨v, hv, ?_⟩
      rw [if_pos hi, hvcalls, hcalls', hi]
    · rw [if_neg hi] at hc' ⊢
      rw [List.append_nil]
      exact h.lives i c' hc'
  · intro q hq
    by_cases hqp : q = p
    · subst hqp
      refine ⟨_, v, ?_, hv, hvconn.trans hs.conn.symm⟩
      change (H.served _ _ _).lives[H.number q]? = _
      rw [getElem?_served, if_pos rfl, hc]
      rfl
    · obtain ⟨c', w', hc', hrun', hw'⟩ := h.opened q (hs.clients q hq)
      refine ⟨c', w', ?_, hrun', by rw [hs.other q hqp]; exact hw'⟩
      change (H.served _ _ _).lives[H.number q]? = _
      rw [getElem?_served, if_neg fun heq ↦ hqp (h.number p hp q (hs.clients q hq) heq).symm, hc']
  · exact fun q hq r hr ↦ h.number q (hs.clients q hq) r (hs.clients r hr)
  · intro c' hc'
    rw [History.served, List.length_modify]
    rcases List.mem_append.mp hc' with hc' | hc'
    · exact h.log c' hc'
    · obtain ⟨d, -, rfl⟩ := List.mem_map.mp hc'
      exact (List.getElem?_eq_some_iff.mp hc).1

end History.Fits

/-! ## The steps of the main loop -/

section Steps

variable {l l' : Loop D} {e : Event} {a : PollFd} {args : List PollFd} {listening : Bool}
variable {tv : Timespec} {f : LoopFault} {recvs : List RecvResult} {sends : List SendResult}

theorem Loop.Inv.turn (h : Loop.Inv ⟨s, .serve (a :: args) listening, clock⟩ idle) :
    ∃ p ∈ idle, (s.client p).fd = a.fd ∧ s.fd2conn[a.fd]? = some (some p) := by
  obtain ⟨p, hp, hfd⟩ := h.args a (List.mem_cons_self ..)
  exact ⟨p, hp, hfd, (h.server.fd2conn _ p).mpr ⟨hp, hfd⟩⟩

/-- The connection is served, or it stops the server. -/
private theorem serve_outcome (handle : D → List Bytes → Option (D × Bytes))
    (hinv : Loop.Inv ⟨s, .serve (a :: args) listening, clock⟩ idle)
    (hclock : clock ≤ getMonotonicUsec tv) (recvs : List RecvResult) (sends : List SendResult) :
    ∃ p ∈ s.clients, (s.client p).fd = a.fd ∧ s.fd2conn[a.fd]? = some (some p) ∧
      (s.client p).conn.state ≠ .fin ∧
      (serveFd handle s a.fd (getMonotonicUsec tv) recvs sends).Sat
        (fun _ s' ↦ ∃ w, connectionIo handle
            { conn := (s.client p).conn, db := s.db, recvs := recvs, sends := sends } = .ret () w ∧
          s.Served p w s')
        fun f _ ↦ ∃ f' w, f = .conn f' ∧
          connectionIo handle
            { conn := (s.client p).conn, db := s.db, recvs := recvs, sends := sends }
              = .stop f' w := by
  obtain ⟨p, hp, hfd, hentry⟩ := hinv.turn
  refine ⟨p, hinv.server.clients.mem_iff.mpr hp, hfd, hentry, hinv.running p hp, ?_⟩
  rw [← hfd]
  exact serveFd_outcome handle hinv.server hp hclock recvs sends

private theorem moves_poll {active : ℕ → Bool}
    (hstep : Loop.step handle ⟨s, .poll, clock⟩ (.poll tv active listening) = .ret () l') :
    Loop.Moves handle ⟨s, .poll, clock⟩ H (.poll tv active listening) l' H := by
  simp only [Loop.step] at hstep
  rcases hargs : (do
    let args ← pollArgs s
    let _ ← nextTimerMs s (getMonotonicUsec (Event.poll tv active listening).tv)
    some args : Option (List PollFd)) with _ | args
  · rw [hargs] at hstep
    exact (Outcome.ret_ne_stop hstep.symm).elim
  · rw [hargs, Outcome.ofOption_some, Outcome.ret_bind] at hstep
    obtain ⟨-, rfl⟩ := Outcome.ret.inj hstep
    obtain ⟨args', hpoll, hrest⟩ := Option.bind_eq_some_iff.mp hargs
    obtain ⟨ms, -, heq⟩ := Option.bind_eq_some_iff.mp hrest
    obtain rfl := Option.some_inj.mp heq
    exact .poll hpoll

private theorem moves_serve (hinv : Loop.Inv ⟨s, .serve (a :: args) listening, clock⟩ idle)
    (hclock : clock ≤ getMonotonicUsec tv)
    (hstep : Loop.step handle ⟨s, .serve (a :: args) listening, clock⟩ (.io tv recvs sends)
      = .ret () l') :
    Loop.Moves handle ⟨s, .serve (a :: args) listening, clock⟩ H (.io tv recvs sends) l'
      (H.after handle ⟨s, .serve (a :: args) listening, clock⟩ (.io tv recvs sends)) := by
  obtain ⟨p, hp, hfd, hentry, hfin, hserve⟩ := serve_outcome handle hinv hclock recvs sends
  simp only [Loop.step, Event.tv] at hstep
  generalize serveFd handle s a.fd (getMonotonicUsec tv) recvs sends = o at hserve hstep
  rcases o with ⟨u, s'⟩ | ⟨f, s'⟩
  · obtain ⟨-, rfl⟩ := Outcome.ret.inj hstep
    obtain ⟨w, hio, hserved⟩ := hserve
    simp only [History.after, hentry, hio, Outcome.state]
    exact .serve hp hfd hfin hio hserved
  · exact (Outcome.ret_ne_stop hstep.symm).elim

private theorem moves_timers (hinv : Loop.Inv ⟨s, .serve [] listening, clock⟩ idle)
    (hstep : Loop.step handle ⟨s, .serve [] listening, clock⟩ (.timers tv) = .ret () l') :
    Loop.Moves handle ⟨s, .serve [] listening, clock⟩ H (.timers tv) l' H := by
  obtain ⟨s', htimers, h', hclient, hdb⟩ := processTimers_spec hinv.server (getMonotonicUsec tv)
  simp only [Loop.step, Event.tv, htimers, Outcome.ofOption_some, Outcome.ret_bind] at hstep
  obtain ⟨-, rfl⟩ := Outcome.ret.inj hstep
  refine .timers hdb hclient fun q hq ↦ ?_
  have hq' := (List.dropWhile_sublist _).subset (h'.clients.mem_iff.mp hq)
  exact hinv.server.clients.mem_iff.mpr hq'

private theorem moves_accept (hinv : Loop.Inv ⟨s, .accept, clock⟩ idle)
    (hclock : clock ≤ getMonotonicUsec tv) {connfd : ℕ} {mem : Option Ptr}
    (hfresh : ∀ p ∈ s.clients, (s.client p).fd ≠ connfd)
    (hmem : ∀ p, mem = some p → p ∉ s.clients)
    (hstep : Loop.step handle ⟨s, .accept, clock⟩ (.accept tv connfd mem) = .ret () l') :
    Loop.Moves handle ⟨s, .accept, clock⟩ H (.accept tv connfd mem) l'
      (H.after handle ⟨s, .accept, clock⟩ (.accept tv connfd mem)) := by
  rcases mem with _ | p
  · obtain ⟨-, rfl⟩ := Outcome.ret.inj hstep
    exact .noMemory
  · simp only [Loop.step, Event.tv] at hstep
    rcases haccept : acceptNewConn s connfd (some p) (getMonotonicUsec tv) with _ | s'
    · rw [haccept] at hstep
      exact (Outcome.ret_ne_stop hstep.symm).elim
    · rw [haccept, Outcome.ofOption_some, Outcome.ret_bind] at hstep
      obtain ⟨-, rfl⟩ := Outcome.ret.inj hstep
      have hp := hmem p rfl
      obtain ⟨hdb, hconn, hother, hclients⟩ :=
        acceptNewConn_outcome hinv.server hclock hfresh hp haccept
      exact .accept hp hdb hconn hother hclients

theorem Loop.Inv.moves (hinv : l.Inv idle) (he : l.Allows e) (hstep : l.step handle e = .ret () l')
    (H : History D) : Loop.Moves handle l H e l' (H.after handle l e) := by
  obtain ⟨s, phase, clock⟩ := l
  obtain ⟨hclock, hallowed⟩ := he
  rcases phase with _ | ⟨_ | ⟨a, args⟩, listening⟩ | _
  · cases e with
    | poll => exact moves_poll hstep
    | _ => exact hallowed.elim
  · cases e with
    | timers => exact moves_timers hinv hstep
    | _ => exact hallowed.elim
  · cases e with
    | io => exact moves_serve hinv hclock hstep
    | _ => exact hallowed.elim
  · cases e with
    | accept => exact moves_accept hinv hclock hallowed.1 hallowed.2 hstep
    | _ => exact hallowed.elim

/-- **One step of the main loop.** The history goes with it. -/
theorem History.Fits.moves {H' : History D} (h : H.Fits handle db₀ l.server)
    (hmoves : Loop.Moves handle l H e l' H') : H'.Fits handle db₀ l'.server := by
  cases hmoves with
  | poll _ => exact h
  | serve hp _ hfin hio hserved => exact h.served hp hfin hio hserved
  | timers hdb hclient hclients => exact h.mono hdb hclient hclients
  | noMemory => exact h
  | accept hp hdb hconn hother hclients => exact h.born hp hdb hconn hother hclients

theorem Loop.Recorded.fits (h : Loop.Recorded handle db₀ l H) : H.Fits handle db₀ l.server := by
  induction h with
  | init client links =>
    constructor
    · rfl
    · exact fun c hc ↦ absurd hc List.not_mem_nil
    · exact fun i c hc ↦ nomatch hc
    · exact fun p hp ↦ absurd hp List.not_mem_nil
    · exact fun p hp ↦ absurd hp List.not_mem_nil
    · exact fun c hc ↦ absurd hc List.not_mem_nil
  | step hl he hstep ih =>
    obtain ⟨idle, hinv⟩ := hl.reachable.inv
    exact ih.moves (hinv.moves he hstep _)

theorem Loop.Inv.poll_ret (handle : D → List Bytes → Option (D × Bytes))
    (hinv : Loop.Inv ⟨s, .poll, clock⟩ idle) (tv : Timespec) (active : ℕ → Bool)
    (listening : Bool) : ∃ args, pollArgs s = some args ∧
      Loop.step handle ⟨s, .poll, clock⟩ (.poll tv active listening) = .ret ()
        ⟨s, .serve (args.filter fun a ↦ active a.fd) listening, getMonotonicUsec tv⟩ := by
  obtain ⟨args, hpoll, -⟩ := pollArgs_spec hinv.server
  obtain ⟨ms, htimer⟩ := exists_nextTimerMs hinv.server (getMonotonicUsec tv)
  refine ⟨args, hpoll, ?_⟩
  simp only [Loop.step, Event.tv, hpoll, htimer, Option.bind_eq_bind, Option.bind_some,
    Outcome.ofOption_some, Outcome.ret_bind]

theorem Loop.Inv.serve_ret (hinv : Loop.Inv ⟨s, .serve (a :: args) listening, clock⟩ idle)
    (recvs : List RecvResult) (sends : List SendResult) (hclock : clock ≤ getMonotonicUsec tv)
    (hentry : s.fd2conn[a.fd]? = some (some p)) {w : World D}
    (hio : connectionIo handle
      { conn := (s.client p).conn, db := s.db, recvs := recvs, sends := sends } = .ret () w) :
    ∃ s', Loop.step handle ⟨s, .serve (a :: args) listening, clock⟩ (.io tv recvs sends)
        = .ret () ⟨s', .serve args listening, getMonotonicUsec tv⟩ ∧ s.Served p w s' ∧
      ∀ H : History D, H.after handle ⟨s, .serve (a :: args) listening, clock⟩ (.io tv recvs sends)
        = H.served (H.number p) ⟨fun _ ↦ s.db, recvs, sends⟩ w.calls := by
  obtain ⟨q, -, -, hentry', -, hserve⟩ := serve_outcome handle hinv hclock recvs sends
  obtain rfl : p = q := Option.some_inj.mp (Option.some_inj.mp (hentry.symm.trans hentry'))
  rcases hcode : serveFd handle s a.fd (getMonotonicUsec tv) recvs sends with ⟨u, s'⟩ | ⟨f, s'⟩
  · obtain ⟨w', hio', hserved⟩ := hserve.of_ret hcode
    obtain ⟨-, rfl⟩ := Outcome.ret.inj (hio.symm.trans hio')
    refine ⟨s', ?_, hserved, fun H ↦ ?_⟩
    · simp only [Loop.step, Event.tv, hcode]
    · simp only [History.after, hentry, hio, Outcome.state]
  · obtain ⟨f', w', -, hio'⟩ := hserve.of_stop hcode
    exact (Outcome.ret_ne_stop (hio.symm.trans hio')).elim

theorem Loop.Inv.serve_stop (hinv : Loop.Inv ⟨s, .serve (a :: args) listening, clock⟩ idle)
    (recvs : List RecvResult) (sends : List SendResult) (hclock : clock ≤ getMonotonicUsec tv)
    (hentry : s.fd2conn[a.fd]? = some (some p)) {w : World D} {f : Fault} (hio : connectionIo handle
      { conn := (s.client p).conn, db := s.db, recvs := recvs, sends := sends } = .stop f w) :
    ∃ l', Loop.step handle ⟨s, .serve (a :: args) listening, clock⟩ (.io tv recvs sends)
      = .stop (.conn f) l' := by
  obtain ⟨q, -, -, hentry', -, hserve⟩ := serve_outcome handle hinv hclock recvs sends
  obtain rfl : p = q := Option.some_inj.mp (Option.some_inj.mp (hentry.symm.trans hentry'))
  rcases hcode : serveFd handle s a.fd (getMonotonicUsec tv) recvs sends with ⟨u, s'⟩ | ⟨f₁, s'⟩
  · obtain ⟨w', hio', -⟩ := hserve.of_ret hcode
    exact (Outcome.ret_ne_stop (hio'.symm.trans hio)).elim
  · obtain ⟨f', w', rfl, hio'⟩ := hserve.of_stop hcode
    obtain ⟨rfl, -⟩ := Outcome.stop.inj (hio.symm.trans hio')
    refine ⟨{ server := s', phase := .serve (a :: args) listening, clock := clock }, ?_⟩
    simp only [Loop.step, Event.tv, hcode]

/-- **Serializability.** However the main loop interleaves the connections, the database is what all
their requests make of it one after the other, and each of them got the reply of `do_request` at its
turn. The requests of each connection, also of one that is closed, are there in the order in which
that connection executed them, and it executed no others. -/
theorem serializable (h : Loop.Recorded handle db₀ l H) :
    Serial handle db₀ (H.log.map Prod.snd) l.server.db ∧ (∀ c ∈ H.log, c.1 < H.lives.length) ∧
      ∀ i c, H.lives[i]? = some c → ∃ w, c.run handle = .ret () w ∧ w.calls = H.callsOf i :=
  ⟨h.fits.serial, h.fits.log, h.fits.lives⟩

/-- **No cross-talk.** A connection that is open is, whatever the main loop did between its rounds,
as it is after its own rounds alone. So what it has sent are the frames of the replies to its own
requests and nothing else, up to the part of the last one that is still in its buffer, and its read
buffer holds what it has received and not consumed. -/
theorem no_crosstalk (h : Loop.Recorded handle db₀ l H) {p : Ptr} (hp : p ∈ l.server.clients) :
    ∃ c w, H.lives[H.number p]? = some c ∧ c.run handle = .ret () w ∧
      w.conn = (l.server.client p).conn ∧ w.calls = H.callsOf (H.number p) ∧
      w.StreamIntact ∧ w.Buffered ∧ ∀ q ∈ l.server.clients, H.number p = H.number q → p = q := by
  obtain ⟨c, w, hc, hrun, hconn⟩ := h.fits.opened p hp
  obtain ⟨w', hrun', hcalls⟩ := h.fits.lives _ c hc
  rw [hrun] at hrun'
  obtain ⟨-, rfl⟩ := Outcome.ret.inj hrun'
  have hstream := (World.run_streamInv c.rbuf c.wbuf c.db c.wakes).of_ret hrun
  have hbuffer := (World.run_recvInv handle c.rbuf c.wbuf c.db c.wakes).of_ret hrun
  exact ⟨c, w, hc, hrun, hconn, hcalls, hstream.1.intact, hbuffer.1, h.fits.number p hp⟩

/-! ## Why the server stops -/

/-- The event is the turn of the connection at `p`. -/
def Loop.Serves (l : Loop D) (e : Event) (p : Ptr) (recvs : List RecvResult)
    (sends : List SendResult) : Prop :=
  ∃ a args listening tv, l.phase = .serve (a :: args) listening ∧ e = .io tv recvs sends ∧
    l.server.fd2conn[a.fd]? = some (some p)

/-- Only a connection that is served can stop the main loop. -/
theorem Loop.Inv.stop (hinv : l.Inv idle) (he : l.Allows e) (hstep : l.step handle e = .stop f l') :
    ∃ p ∈ l.server.clients, ∃ recvs sends f' w, l.Serves e p recvs sends ∧ f = .conn f' ∧
      (l.server.client p).conn.state ≠ .fin ∧ connectionIo handle
        { conn := (l.server.client p).conn, db := l.server.db, recvs := recvs, sends := sends }
          = .stop f' w := by
  obtain ⟨f', rfl⟩ := (hinv.step he).of_stop hstep
  obtain ⟨s, phase, clock⟩ := l
  obtain ⟨hclock, hallowed⟩ := he
  -- what is not in the tables of the connection is a bad pointer, and there is none
  have hwild : ∀ {α : Type} {l₁ l₂ : Loop D} {o : Option α} {k : α → Loop D → Loop D},
      ((Outcome.ofOption LoopFault.wild l₁ o).bind fun a l ↦ .ret () (k a l))
        ≠ .stop (LoopFault.conn f') l₂ := by
    intro α l₁ l₂ o k heq
    rcases o with _ | a
    · cases (Outcome.stop.inj heq).1
    · exact Outcome.ret_ne_stop heq
  rcases phase with _ | ⟨_ | ⟨a, args⟩, listening⟩ | _
  · cases e with
    | poll => exact (hwild hstep).elim
    | _ => exact hallowed.elim
  · cases e with
    | timers => exact (hwild hstep).elim
    | _ => exact hallowed.elim
  · cases e with
    | io tv recvs sends =>
      obtain ⟨p, hp, -, hentry, hfin, hserve⟩ :=
        serve_outcome handle hinv (show clock ≤ getMonotonicUsec tv from hclock) recvs sends
      simp only [Loop.step, Event.tv] at hstep
      generalize serveFd handle s a.fd (getMonotonicUsec tv) recvs sends = o at hserve hstep
      rcases o with ⟨u, s'⟩ | ⟨f, s'⟩
      · exact (Outcome.ret_ne_stop hstep).elim
      · obtain ⟨rfl, -⟩ := Outcome.stop.inj hstep
        obtain ⟨f'', w, hf, hio⟩ := hserve
        exact ⟨p, hp, recvs, sends, f'', w, ⟨a, args, listening, tv, rfl, rfl, hentry⟩, hf, hfin,
          hio⟩
    | _ => exact hallowed.elim
  · cases e with
    | accept => exact (hwild hstep).elim
    | _ => exact hallowed.elim

/-- `do_request` does not return for the last call of a connection, which comes after calls that are
not in the log yet, in the state that all of them have made. -/
def History.Hangs (handle : D → List Bytes → Option (D × Bytes)) (db₀ : D) (H : History D) (i : ℕ)
    (v : World D) (cs : List Call) (db : D) (cmd : List Bytes) : Prop :=
  v.calls = H.callsOf i ++ cs ++ [⟨cmd, none⟩] ∧
    Serial handle db₀ (H.log.map Prod.snd ++ cs) db ∧
    (∀ c ∈ H.log.map Prod.snd ++ cs, c.Fits) ∧ Call.Fits ⟨cmd, none⟩ ∧ handle db cmd = none

/-- **Why the server stops.** It is the turn of a connection, and this one stops in the round:
`do_request` does not return for a request of it, or it takes a part of a frame for the whole. -/
theorem stop_cases (h : Loop.Recorded handle db₀ l H) (he : l.Allows e)
    (hstep : l.step handle e = .stop f l') :
    ∃ p ∈ l.server.clients, ∃ recvs sends c f' v, l.Serves e p recvs sends ∧ f = .conn f' ∧
      H.lives[H.number p]? = some c ∧
      (c.add ⟨fun _ ↦ l.server.db, recvs, sends⟩).run handle = .stop f' v ∧
      (f' = .noReturn ∧ (∃ cs db cmd, H.Hangs handle db₀ (H.number p) v cs db cmd) ∨
        f' = .outOfBounds ∧ ∃ t ∈ v.tried, t.1.CutAccepted) := by
  obtain ⟨idle, hinv⟩ := h.reachable.inv
  obtain ⟨p, hp, recvs, sends, f', w₁, hserves, rfl, hfin, hio⟩ := hinv.stop he hstep
  obtain ⟨c, w, hc, hrun, hw⟩ := h.fits.opened p hp
  rw [← hw] at hfin hio
  obtain ⟨v, hv, -⟩ := (Life.lockstep hrun hfin).of_stop hio
  refine ⟨p, hp, recvs, sends, c, f', v, hserves, rfl, hc, hv, ?_⟩
  rcases (Life.io_executes hrun hfin _).of_stop hv with
    ⟨rfl, cs, db, cmd, hcalls, hserial, hcs, hfits, hnone⟩ | ⟨rfl, hcut⟩
  · obtain ⟨w', hrun', hlog⟩ := h.fits.lives _ c hc
    obtain ⟨-, rfl⟩ := Outcome.ret.inj (hrun.symm.trans hrun')
    have hall := serial_append.mpr ⟨_, h.fits.serial, hserial⟩
    refine Or.inl ⟨rfl, cs, db, cmd, ?_, hall, fun c hc ↦ ?_, hfits, hnone⟩
    · rw [← hlog]
      exact hcalls
    rcases List.mem_append.mp hc with hc | hc
    · obtain ⟨d, hd, rfl⟩ := List.mem_map.mp hc
      exact h.fits.messages d hd
    · exact hcs c hc
  · exact Or.inr ⟨rfl, hcut⟩

end Steps

/-! ## Two connections -/

namespace Loop

private theorem exists_of_mapM {α β : Type} {f : α → Option β} {l : List α} {l' : List β} {a : α}
    (h : l.mapM f = some l') (ha : a ∈ l) : ∃ b ∈ l', f a = some b := by
  induction l generalizing l' with
  | nil => exact absurd ha List.not_mem_nil
  | cons x l ih =>
    rw [List.mapM_cons] at h
    obtain ⟨b, hb, h⟩ := Option.bind_eq_some_iff.mp h
    obtain ⟨bs, hbs, h⟩ := Option.bind_eq_some_iff.mp h
    obtain rfl := Option.some_inj.mp h
    rcases List.mem_cons.mp ha with rfl | ha
    · exact ⟨b, List.mem_cons_self .., hb⟩
    · obtain ⟨b', hb', hf⟩ := ih hbs ha
      exact ⟨b', List.mem_cons_of_mem _ hb', hf⟩

/-- An open connection is in `poll_args`, once. -/
theorem count_pollArgs {s : Server D} {clock : ℕ} (h : s.Inv idle clock) {args : List PollFd}
    (hpoll : pollArgs s = some args) (hp : p ∈ s.clients) (active : ℕ → Bool) :
    ((args.filter fun a ↦ active a.fd).map PollFd.fd).count (s.client p).fd
      = (active (s.client p).fd).toNat := by
  obtain ⟨args', hpoll', hnd, -⟩ := pollArgs_spec h
  obtain rfl := Option.some_inj.mp (hpoll'.symm.trans hpoll)
  have hentry := (h.fd2conn _ p).mpr ⟨h.clients.mem_iff.mp hp, rfl⟩
  have hmem : (s.client p).fd ∈ args'.map PollFd.fd := by
    obtain ⟨a, ha, hfd⟩ :=
      exists_of_mapM hpoll (List.mem_filterMap.mpr ⟨_, List.mem_of_getElem? hentry, rfl⟩)
    rw [if_pos hp] at hfd
    exact List.mem_map.mpr ⟨a, ha, by rw [← Option.some_inj.mp hfd]⟩
  have hfilter : (args'.filter fun a ↦ active a.fd).map PollFd.fd
      = (args'.map PollFd.fd).filter active := List.filter_map.symm
  rw [hfilter]
  cases hactive : active (s.client p).fd with
  | true => rw [List.count_filter hactive, List.count_eq_one_of_mem hnd hmem, Bool.toNat_true]
  | false =>
    refine List.count_eq_zero_of_not_mem fun hmem' ↦ ?_
    rw [(List.mem_filter.mp hmem').2] at hactive
    exact absurd hactive Bool.true_eq_false_eq_False.elim

/-- `poll` reports one connection and no other. -/
theorem Inv.poll_one {s : Server D} {idle : List Ptr} {clock : ℕ} {p : Ptr}
    (handle : D → List Bytes → Option (D × Bytes)) (hinv : Loop.Inv ⟨s, .poll, clock⟩ idle)
    (tv : Timespec) (hp : p ∈ s.clients) :
    ∃ a, Loop.step handle ⟨s, .poll, clock⟩ (.poll tv (fun k ↦ k = (s.client p).fd) false)
        = .ret () ⟨s, .serve [a] false, getMonotonicUsec tv⟩ ∧
      s.fd2conn[a.fd]? = some (some p) := by
  obtain ⟨args, hargs, hstep⟩ := hinv.poll_ret handle tv (fun k ↦ k = (s.client p).fd) false
  have hcount := count_pollArgs hinv.server hargs hp fun k ↦ k = (s.client p).fd
  rw [decide_eq_true rfl, Bool.toNat_true, List.count_eq_length.mpr, List.length_map] at hcount
  · obtain ⟨a, ha⟩ := List.length_eq_one_iff.mp hcount
    have hmem : a ∈ args.filter _ := ha ▸ List.mem_singleton_self a
    have hfd : a.fd = (s.client p).fd := of_decide_eq_true (List.mem_filter.mp hmem).2
    refine ⟨a, by rw [hstep, ha], ?_⟩
    exact (hinv.server.fd2conn _ p).mpr ⟨hinv.server.clients.mem_iff.mp hp, hfd.symm⟩
  · intro k hk
    obtain ⟨a, ha, rfl⟩ := List.mem_map.mp hk
    exact (of_decide_eq_true (List.mem_filter.mp ha).2).symm

/-- A round of the main loop for one connection, so early that none has timed out. -/
theorem Recorded.round {s : Server D} {H : History D} {db₀ : D} {clock : ℕ} {tv : Timespec} {p : Ptr}
    (h : Recorded handle db₀ ⟨s, .poll, clock⟩ H) (hfits : tv.Fits)
    (hclock : clock ≤ getMonotonicUsec tv) (hearly : getMonotonicUsec tv + 1000 ≤ 5000000)
    (hp : p ∈ s.clients) {recvs : List RecvResult} {sends : List SendResult} {w : World D}
    (hio : connectionIo handle
      { conn := (s.client p).conn, db := s.db, recvs := recvs, sends := sends } = .ret () w)
    (hopen : w.conn.state ≠ .fin) :
    ∃ s' es, Runs handle ⟨s, .poll, clock⟩ H es ⟨s', .poll, getMonotonicUsec tv⟩
        (H.served (H.number p) ⟨fun _ ↦ s.db, recvs, sends⟩ w.calls) ∧
      (∀ k, es.countP (Event.reports k) = if k = (s.client p).fd then 1 else 0) ∧
      p ∈ s'.clients ∧ s'.db = w.db ∧
      (s'.client p).conn = w.conn ∧ (s'.client p).fd = (s.client p).fd ∧
      ∀ q ∈ s.clients, q ≠ p → q ∈ s'.clients ∧ s'.client q = s.client q := by
  obtain ⟨idle, hinv⟩ := h.reachable.inv
  set fd := (s.client p).fd
  obtain ⟨a, hstep₁, hentry⟩ := hinv.poll_one handle tv hp
  have he₁ : Allows ⟨s, .poll, clock⟩ (.poll tv (fun k ↦ k = fd) false) := ⟨hclock, trivial⟩
  have h₁ := h.step he₁ hstep₁
  obtain ⟨idle₁, hinv₁⟩ := h₁.reachable.inv
  obtain ⟨s₂, hstep₂, hserved, hafter⟩ := hinv₁.serve_ret recvs sends le_rfl hentry hio
  have he₂ : Allows ⟨s, .serve [a] false, getMonotonicUsec tv⟩ (.io tv recvs sends) :=
    ⟨le_rfl, trivial⟩
  have h₂ := h₁.step he₂ hstep₂
  obtain ⟨idle₂, hinv₂⟩ := h₂.reachable.inv
  obtain ⟨s₃, htimers, hcloses⟩ := hinv₂.server.closesTimedOut le_rfl hfits
  have hstep₃ : Loop.step handle ⟨s₂, .serve [] false, getMonotonicUsec tv⟩ (.timers tv)
      = .ret () ⟨s₃, .poll, getMonotonicUsec tv⟩ := by
    simp only [Loop.step, Event.tv, htimers, Outcome.ofOption_some, Outcome.ret_bind]
    rfl
  have he₃ : Allows ⟨s₂, .serve [] false, getMonotonicUsec tv⟩ (.timers tv) := ⟨le_rfl, trivial⟩
  have hrun : Runs handle ⟨s, .poll, clock⟩ H
      [.poll tv (fun k ↦ k = fd) false, .io tv recvs sends, .timers tv]
      ⟨s₃, .poll, getMonotonicUsec tv⟩
      (H.served (H.number p) ⟨fun _ ↦ s.db, recvs, sends⟩ w.calls) := by
    refine .cons he₁ hstep₁ (.cons he₂ hstep₂ (.cons he₃ hstep₃ ?_))
    change Runs handle _ (History.after handle ⟨s, .serve [a] false, getMonotonicUsec tv⟩
      (.io tv recvs sends) H) _ _ _
    rw [hafter]
    exact .nil ..
  obtain ⟨s₃', htimers', -, hclient, hdb⟩ :=
    processTimers_spec hinv₂.server (getMonotonicUsec tv)
  obtain rfl := Option.some_inj.mp (htimers.symm.trans htimers')
  have hkept : ∀ q ∈ s₂.clients, q ∈ s₃.clients := by
    intro q hq
    refine (hcloses.clients q).mpr ⟨hq, ?_⟩
    rw [Server.TimedOut]
    omega
  refine ⟨s₃, _, hrun, fun k ↦ ?_, hkept p (hserved.live.mpr hopen), hdb.trans hserved.db, ?_, ?_,
    fun q hq hqp ↦ ⟨hkept q (hserved.kept q hq hqp), ?_⟩⟩
  · rw [List.countP_cons]
    change 0 + (if decide (k = fd) = true then 1 else 0) = _
    simp only [Nat.zero_add, decide_eq_true_eq]
  · rw [hclient, hserved.conn]
  · rw [hclient]
    exact hserved.fd
  · rw [hclient, hserved.other q hqp]

end Loop

theorem recorded_two (handle : D → List Bytes → Option (D × Bytes)) (db : D) :
    ∃ (s : Server D) (H : History D), Loop.Recorded handle db ⟨s, .poll, 1000000⟩ H ∧ s.Two db ∧
      H.log = [] ∧ H.number 7 = 0 ∧ H.number 9 = 1 ∧
      H.lives = [⟨fun _ ↦ 0, fun _ ↦ 0, db, []⟩, ⟨fun _ ↦ 0, fun _ ↦ 0, db, []⟩] := by
  obtain ⟨s₁, s, hs, hconn, hdb, h⟩ := accepts_two handle (fun l e H ↦ H.after handle l e)
    (P := Loop.Recorded handle db) (.init _ _) fun l e l' H hl he hstep ↦ hl.step he hstep
  refine ⟨s, _, h, hs, rfl, rfl, rfl, ?_⟩
  change [(_ : Life D), ⟨(s₁.client 9).conn.rbuf, (s₁.client 9).conn.wbuf, s₁.db, []⟩] = _
  rw [hconn, hdb]
  rfl

/-- The first sends a request, and `send` is not ready for the reply. In the meantime the second
sends one. -/
theorem recorded_interleaved (handle : D → List Bytes → Option (D × Bytes)) {db db₁ db₂ : D}
    {f g : Frame} {out₁ out₂ : Bytes} (hf : handle db f.cmd = some (db₁, out₁))
    (hg : handle db₁ g.cmd = some (db₂, out₂)) :
    ∃ (s s' : Server D) (H H' : History D) (es : List Event),
      Loop.Recorded handle db ⟨s, .poll, 1000000⟩ H ∧ s.Two db ∧
      H.number 7 = 0 ∧ H.number 9 = 1 ∧
      H.lives = [⟨fun _ ↦ 0, fun _ ↦ 0, db, []⟩, ⟨fun _ ↦ 0, fun _ ↦ 0, db, []⟩] ∧
      Loop.Runs handle ⟨s, .poll, 1000000⟩ H es ⟨s', .poll, 1000000⟩ H' ∧
      es.countP (Event.reports 4) = 1 ∧ es.countP (Event.reports 5) = 1 ∧
      7 ∈ s'.clients ∧ 9 ∈ s'.clients ∧ (s'.client 7).fd = 4 ∧ (s'.client 9).fd = 5 ∧
      (s'.client 7).conn.rbufSize = 0 ∧ (s'.client 7).conn.state ≠ .fin ∧
      H'.number 7 = 0 ∧ H'.number 9 = 1 ∧
      H'.lives = [⟨fun _ ↦ 0, fun _ ↦ 0, db, [⟨fun _ ↦ db, [.data f.bytes], []⟩]⟩,
        ⟨fun _ ↦ 0, fun _ ↦ 0, db, [⟨fun _ ↦ db₁, [.data g.bytes], []⟩]⟩] ∧
      H'.log = [(0, ⟨f.cmd, some (capReply out₁)⟩), (1, ⟨g.cmd, some (capReply out₂)⟩)] := by
  obtain ⟨s, H, h, hs, hlog, hnumber₁, hnumber₂, hlives⟩ := recorded_two handle db
  have hfits : Timespec.Fits ⟨1, 0⟩ := by
    rw [Timespec.Fits]
    decide
  have hearly : getMonotonicUsec ⟨1, 0⟩ + 1000 ≤ 5000000 := by decide
  have h7 : 7 ∈ s.clients := by
    rw [hs.clients]
    decide
  have h9 : 9 ∈ s.clients := by
    rw [hs.clients]
    decide
  have hnew := World.waiting_accepted (fun _ ↦ 0) (fun _ ↦ 0) db
  obtain ⟨w₁, hio₁, hdb₁, hempty₁, hcalls₁, hopen₁⟩ :=
    hnew.io_frame handle f ⟨fun _ ↦ db, [.data f.bytes], []⟩ rfl hf
  obtain ⟨s₁, es₁, hrun₁, hcount₁, hp₁, hsdb₁, hconn₁, hfd₁, hother₁⟩ := h.round hfits
    (by decide) hearly h7 (by rw [hs.conns.1, hs.db]; exact hio₁) (hopen₁ List.not_mem_nil)
  obtain ⟨h9₁, hclient₁⟩ := hother₁ 9 h9 (by decide)
  obtain ⟨w₂, hio₂, hdb₂, -, hcalls₂, hopen₂⟩ :=
    hnew.io_frame handle g ⟨fun _ ↦ db₁, [.data g.bytes], []⟩ rfl hg
  obtain ⟨s₂, es₂, hrun₂, hcount₂, hp₂, -, -, hfd₂, hother₂⟩ := (h.runs hrun₁).round hfits
    le_rfl hearly h9₁ (by rw [hclient₁, hs.conns.2, hsdb₁, hdb₁]; exact hio₂)
    (hopen₂ List.not_mem_nil)
  obtain ⟨h7₂, hclient₂⟩ := hother₂ 7 hp₁ (by decide)
  rw [hs.fds.1] at hcount₁ hfd₁
  rw [hclient₁, hs.fds.2] at hcount₂ hfd₂
  refine ⟨s, s₂, H, _, es₁ ++ es₂, h, hs, hnumber₁, hnumber₂, hlives, hrun₁.trans hrun₂, ?_, ?_,
    h7₂, hp₂, ?_, hfd₂, ?_, ?_, hnumber₁, hnumber₂, ?_, ?_⟩
  · rw [List.countP_append, hcount₁, hcount₂]
    rfl
  · rw [List.countP_append, hcount₁, hcount₂]
    rfl
  · rw [hclient₂, hfd₁]
  · rw [hclient₂, hconn₁, hempty₁]
  · rw [hclient₂, hconn₁]
    exact hopen₁ List.not_mem_nil
  · simp only [History.served, hlives, hnumber₁, hnumber₂, hs.db, hsdb₁, hdb₁]
    rfl
  · simp only [History.served, hlog, hnumber₁, hnumber₂, hcalls₁, hcalls₂]
    rfl

/-- A database that counts the requests. -/
def count : ℕ → List Bytes → Option (ℕ × Bytes) := fun d _ ↦ some (d + 1, outNil)

theorem count_empty (n : ℕ) : count n Frame.empty.cmd = some (n + 1, outNil) := rfl

theorem serializable_interleaved : ∃ (l : Loop ℕ) (H : History ℕ),
    H.log = [(0, ⟨[], some (capReply outNil)⟩), (1, ⟨[], some (capReply outNil)⟩)] ∧
      Serial count 0 (H.log.map Prod.snd) l.server.db := by
  obtain ⟨s, s', H, H', es, h, -, -, -, -, hruns, -, -, -, -, -, -, -, -, -, -, -, hlog⟩ :=
    recorded_interleaved count (count_empty 0) (count_empty 1)
  exact ⟨_, H', hlog, (serializable (h.runs hruns)).1⟩

theorem no_crosstalk_interleaved : ∃ (l : Loop ℕ) (H : History ℕ),
    H.log = [(0, ⟨[], some (capReply outNil)⟩), (1, ⟨[], some (capReply outNil)⟩)] ∧
    ∃ c w, H.lives[H.number 9]? = some c ∧ c.run count = .ret () w ∧
      w.conn = (l.server.client 9).conn ∧ w.calls = [⟨[], some (capReply outNil)⟩] ∧
      w.StreamIntact := by
  obtain ⟨s, s', H, H', es, h, -, -, -, -, hruns, -, -, -, hlive, -, -, -, -, -, hnumber, -, hlog⟩ :=
    recorded_interleaved count (count_empty 0) (count_empty 1)
  obtain ⟨c, w, hc, hrun, hconn, hcalls, hintact, -⟩ := no_crosstalk (h.runs hruns) hlive
  refine ⟨_, H', hlog, c, w, hc, hrun, hconn, hcalls.trans ?_, hintact⟩
  rw [hnumber, History.callsOf, hlog]
  rfl

end RedisOnC
