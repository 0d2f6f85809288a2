import RedisOnC.Conn.RecvSafety
import RedisOnC.Lib.Lockstep
import RedisOnC.Protocol.Request

/-!
# The record of a connection

A `World` records what has happened to the connection. Nothing of it is read, so `connection_io`
does the same with any record in front of the one that it makes. And the record is right: the calls
of `do_request` in it, in their order, are all that the connection has done to the database.
-/

namespace RedisOnC

variable {D : Type} {handle : D → List Bytes → Option (D × Bytes)}

/-- A request and its reply, if there is one. -/
structure Call where
  cmd : List Bytes
  reply : Option Bytes
deriving DecidableEq

def Exec.call (e : Exec) : Call := ⟨e.cmd, e.reply⟩

/-- The calls of `do_request`. -/
def World.calls (w : World D) : List Call := w.execs.map Exec.call

/-! ## The record is not read -/

/-- `v` is `w` with the record of `before` in front of its own. -/
structure World.Continues (before w v : World D) : Prop where
  conn : w.conn = v.conn
  db : w.db = v.db
  recvs : w.recvs = v.recvs
  sends : w.sends = v.sends
  received : v.received = before.received ++ w.received
  consumed : v.consumed = before.consumed + w.consumed
  sent : v.sent = before.sent ++ w.sent
  calls : v.calls = before.calls ++ w.calls

namespace World.Continues

variable {before w v : World D}

theorem setState (h : before.Continues w v) (state : ConnState) :
    before.Continues (w.setState state) (v.setState state) :=
  { h with conn := by rw [World.setState, World.setState, h.conn] }

theorem withConn (h : before.Continues w v) (c : Conn) :
    before.Continues { w with conn := c } { v with conn := c } :=
  { h with conn := rfl }

theorem withDb (h : before.Continues w v) (db : D) :
    before.Continues { w with db := db } { v with db := db } :=
  { h with db := rfl }

theorem withSends (h : before.Continues w v) (sends : List SendResult) :
    before.Continues { w with sends := sends } { v with sends := sends } :=
  { h with sends := rfl }

theorem withRecvs (h : before.Continues w v) (recvs : List RecvResult) :
    before.Continues { w with recvs := recvs } { v with recvs := recvs } :=
  { h with recvs := rfl }

theorem logExec (h : before.Continues w v) (len : ℕ) (cmd : List Bytes) (reply : Option Bytes) :
    before.Continues (w.logExec len cmd reply) (v.logExec len cmd reply) := by
  refine { h with calls := ?_ }
  have hcalls := h.calls
  simp only [World.calls, World.logExec, List.map_append] at hcalls ⊢
  rw [hcalls, List.append_assoc]
  rfl

theorem withSent (h : before.Continues w v) (bytes : Bytes) :
    before.Continues { w with sent := w.sent ++ bytes } { v with sent := v.sent ++ bytes } :=
  { h with sent := (congrArg (· ++ bytes) h.sent).trans (List.append_assoc ..) }

theorem withReceived (h : before.Continues w v) (bytes : Bytes) :
    before.Continues { w with received := w.received ++ bytes }
      { v with received := v.received ++ bytes } :=
  { h with received := (congrArg (· ++ bytes) h.received).trans (List.append_assoc ..) }

theorem withConsumed (h : before.Continues w v) (n : ℕ) :
    before.Continues { w with consumed := w.consumed + n } { v with consumed := v.consumed + n } :=
  { h with consumed := (congrArg (· + n) h.consumed).trans (Nat.add_assoc ..) }

theorem tryFlushBuffer (h : before.Continues w v) :
    Outcome.Lockstep before.Continues (RedisOnC.tryFlushBuffer w) (RedisOnC.tryFlushBuffer v) := by
  obtain ⟨conn, db, recvs, sends, received, consumed, sent, tried, execs⟩ := w
  obtain rfl : conn = v.conn := h.conn
  obtain rfl : sends = v.sends := h.sends
  rw [RedisOnC.tryFlushBuffer, RedisOnC.tryFlushBuffer]
  dsimp only
  split
  · exact ⟨rfl, h⟩
  · rcases retrySend v.sends with ⟨result, sends⟩
    cases result with
    | accepted n =>
      dsimp only
      split
      · exact ⟨rfl, ((h.withSends sends).withSent _).withConn _⟩
      · exact ⟨rfl, ((h.withSends sends).withSent _).withConn _⟩
    | error => exact ⟨rfl, (h.withSends sends).setState .fin⟩
    | eintr => exact ⟨rfl, h.withSends sends⟩
    | eagain => exact ⟨rfl, h.withSends sends⟩

theorem stateRes (h : before.Continues w v) :
    Outcome.Lockstep before.Continues (RedisOnC.stateRes w) (RedisOnC.stateRes v) :=
  .whileTrue (fun _ _ h ↦ h.tryFlushBuffer) h

theorem queueReply (h : before.Continues w v) (len : ℕ) (out : Bytes) :
    Outcome.Lockstep before.Continues (RedisOnC.queueReply w len out)
      (RedisOnC.queueReply v len out) := by
  rw [RedisOnC.queueReply, RedisOnC.queueReply, h.conn]
  refine (Outcome.Lockstep.ofOption h _).bind fun c s t hst ↦ ?_
  refine (Outcome.Lockstep.ofOption (hst.withConn c) _).bind fun c s t hst ↦ ?_
  exact ⟨rfl, (hst.withConsumed (4 + len)).withConn _⟩

theorem answerRequest (h : before.Continues w v) (len : ℕ) (cmd : List Bytes) :
    Outcome.Lockstep before.Continues (RedisOnC.answerRequest handle w len cmd)
      (RedisOnC.answerRequest handle v len cmd) := by
  rw [RedisOnC.answerRequest, RedisOnC.answerRequest, h.db]
  rcases handle v.db cmd with _ | ⟨db, out⟩
  · exact ⟨rfl, h.logExec len cmd none⟩
  · exact ((h.withDb db).logExec len cmd (some (capReply out))).queueReply len (capReply out)

theorem tryOneRequest (h : before.Continues w v) :
    Outcome.Lockstep before.Continues (RedisOnC.tryOneRequest handle w)
      (RedisOnC.tryOneRequest handle v) := by
  -- the calls of `try_one_request` are not compared
  have hlog : before.Continues { w with tried := w.tried ++ [(w.conn, w.db)] }
      { v with tried := v.tried ++ [(v.conn, v.db)] } := { h with }
  rw [RedisOnC.tryOneRequest, RedisOnC.tryOneRequest]
  dsimp only
  generalize { w with tried := w.tried ++ [(w.conn, w.db)] } = w₁ at hlog
  generalize { v with tried := v.tried ++ [(v.conn, v.db)] } = v₁ at hlog
  rw [h.conn]
  split
  · exact ⟨rfl, hlog⟩
  · split
    · exact ⟨rfl, hlog.setState .fin⟩
    · split
      · refine (hlog.answerRequest _ _).bind fun _ s t hst ↦ ?_
        refine hst.stateRes.bind fun _ s t hst ↦ ?_
        exact ⟨by rw [hst.conn], hst⟩
      · exact ⟨rfl, hlog.setState .fin⟩

theorem serveRequests (h : before.Continues w v) :
    Outcome.Lockstep before.Continues (RedisOnC.serveRequests handle w)
      (RedisOnC.serveRequests handle v) :=
  .whileTrue (fun _ _ h ↦ h.tryOneRequest) h

theorem tryFillBuffer (h : before.Continues w v) :
    Outcome.Lockstep before.Continues (RedisOnC.tryFillBuffer handle w)
      (RedisOnC.tryFillBuffer handle v) := by
  obtain ⟨conn, db, recvs, sends, received, consumed, sent, tried, execs⟩ := w
  obtain rfl : conn = v.conn := h.conn
  obtain rfl : recvs = v.recvs := h.recvs
  rw [RedisOnC.tryFillBuffer, RedisOnC.tryFillBuffer]
  dsimp only
  split
  · exact ⟨rfl, h⟩
  · rcases retryRecv v.recvs with ⟨result, recvs⟩
    cases result with
    | data bytes =>
      dsimp only
      have hdata := (h.withRecvs recvs).withReceived (bytes.take (sizeofBuf - v.conn.rbufSize))
      split
      · exact ⟨rfl, hdata.setState .fin⟩
      · refine (Outcome.Lockstep.ofOption hdata _).bind fun _ s t hst ↦ ?_
        refine (hst.withConn _).serveRequests.bind fun _ s t hst ↦ ?_
        exact ⟨rfl, hst⟩
    | error => exact ⟨rfl, (h.withRecvs recvs).setState .fin⟩
    | eintr => exact ⟨rfl, h.withRecvs recvs⟩
    | eagain => exact ⟨rfl, h.withRecvs recvs⟩

/-- **The record is not read.** -/
theorem connectionIo (h : before.Continues w v) :
    Outcome.Lockstep before.Continues (RedisOnC.connectionIo handle w)
      (RedisOnC.connectionIo handle v) := by
  rw [RedisOnC.connectionIo, RedisOnC.connectionIo, h.conn]
  cases v.conn.state with
  | req => exact .whileTrue (fun _ _ h ↦ h.tryFillBuffer) h
  | res => exact h.stateRes
  | fin => exact ⟨rfl, h⟩

end World.Continues

/-! ## The record is right -/

/-- The requests, executed one after the other, take the database from the one state to the other,
and these are the replies. -/
def Serial (handle : D → List Bytes → Option (D × Bytes)) : D → List Call → D → Prop
  | db, [], db' => db = db'
  | db, c :: calls, db' => ∃ db₁ out, handle db c.cmd = some (db₁, out) ∧
      c.reply = some (capReply out) ∧ Serial handle db₁ calls db'

variable {cs cs' : List Call} {db db' : D}

theorem serial_append {db₁ : D} : Serial handle db (cs ++ cs') db₁ ↔
    ∃ db', Serial handle db cs db' ∧ Serial handle db' cs' db₁ := by
  induction cs generalizing db with
  | nil =>
    constructor
    · exact fun h ↦ ⟨db, rfl, h⟩
    · rintro ⟨_, rfl, h⟩
      exact h
  | cons c cs ih =>
    constructor
    · rintro ⟨db₂, out, hc, hreply, h⟩
      obtain ⟨db', h, h'⟩ := ih.mp h
      exact ⟨db', ⟨db₂, out, hc, hreply, h⟩, h'⟩
    · rintro ⟨db', ⟨db₂, out, hc, hreply, h⟩, h'⟩
      exact ⟨db₂, out, hc, hreply, ih.mpr ⟨db', h, h'⟩⟩

/-- A request is not longer than a message. -/
def Call.Fits (c : Call) : Prop := (encodeReq c.cmd).length ≤ kMaxMsg

/-- A request that is executed is as long as its length says. -/
theorem Conn.fits_of_request {c : Conn} {cmd : List Bytes} (h : c.request = some cmd)
    (reply : Option Bytes) : Call.Fits ⟨cmd, reply⟩ := by
  have hlen := Conn.header_le_of_request h
  rw [Conn.request, if_neg (not_lt.mpr hlen)] at h
  split at h
  · next cmd' hparse =>
    obtain rfl := Option.some_inj.mp h
    obtain ⟨-, hread⟩ := (parseReq_eq_zero hlen).mp hparse
    exact (length_readBytes hread).trans_le hlen
  · exact absurd h (Option.some_ne_none _).symm

namespace World

variable {w w' : World D}

/-- Since the state `w` these requests have been executed, and nothing else has been done to the
database. -/
structure Executes (handle : D → List Bytes → Option (D × Bytes)) (w w' : World D)
    (cs : List Call) : Prop where
  calls : w'.calls = w.calls ++ cs
  serial : Serial handle w.db cs w'.db
  fits : ∀ c ∈ cs, c.Fits

/-- Why the server stops: `do_request` does not return for a request that is executed after the
ones before it, or a part of a request is taken for the whole. -/
def Crashes (handle : D → List Bytes → Option (D × Bytes)) (w : World D) (f : Fault)
    (w' : World D) : Prop :=
  (f = .noReturn ∧ ∃ cs db cmd, w'.calls = w.calls ++ cs ++ [⟨cmd, none⟩] ∧
    Serial handle w.db cs db ∧ (∀ c ∈ cs, c.Fits) ∧ Call.Fits ⟨cmd, none⟩ ∧
    handle db cmd = none) ∨
  (f = .outOfBounds ∧ ∃ c ∈ w'.tried, c.1.CutAccepted)

theorem executes_nil (hexecs : w'.execs = w.execs) (hdb : w'.db = w.db) :
    w.Executes handle w' [] where
  calls := by rw [World.calls, World.calls, hexecs, List.append_nil]
  serial := hdb.symm
  fits _ hc := absurd hc List.not_mem_nil

theorem Executes.snoc (h : w.Executes handle w' cs) (w'' : World D) {c : Call} {out : Bytes}
    {db : D} (hcalls : w''.calls = w'.calls ++ [c]) (hdb : handle w'.db c.cmd = some (db, out))
    (hreply : c.reply = some (capReply out)) (hdb' : w''.db = db) (hc : c.Fits) :
    w.Executes handle w'' (cs ++ [c]) where
  calls := by rw [hcalls, h.calls, List.append_assoc]
  serial := serial_append.mpr ⟨w'.db, h.serial, db, out, hdb, hreply, hdb'.symm⟩
  fits := by
    intro c' hc'
    rcases List.mem_append.mp hc' with hc' | hc'
    · exact h.fits c' hc'
    · rw [List.mem_singleton.mp hc']
      exact hc

theorem Executes.congr (h : w.Executes handle w' cs) {w'' : World D}
    (hexecs : w''.execs = w'.execs) (hdb : w''.db = w'.db) : w.Executes handle w'' cs where
  calls := by rw [World.calls, hexecs]; exact h.calls
  serial := by rw [hdb]; exact h.serial
  fits := h.fits

private theorem calls_snoc (w w' : World D) {e : Exec} (hexecs : w'.execs = w.execs ++ [e]) :
    w'.calls = w.calls ++ [e.call] := by
  rw [World.calls, hexecs, List.map_append]
  rfl

theorem Executes.tried (h : w.Executes handle w' cs) {o : Outcome Fault (World D) Bool}
    (htried : Tried handle w' o) :
    o.Sat (fun _ w'' ↦ ∃ cs, w.Executes handle w'' cs) fun f w'' ↦ w.Crashes handle f w'' := by
  cases htried with
  | short => exact ⟨cs, h.congr rfl rfl⟩
  | refused => exact ⟨cs, h.congr rfl rfl⟩
  | @noReturn cmd _ hreq hdb =>
    refine Or.inl ⟨rfl, cs, w'.db, cmd, ?_, h.serial, h.fits, Conn.fits_of_request hreq none, hdb⟩
    rw [← h.calls]
    exact calls_snoc w' (w'.logTried.logExec w'.conn.header cmd none) rfl
  | cut h4 hreq _ hcut =>
    refine Or.inr ⟨rfl, (w'.conn, w'.db), ?_, h4, hcut, ?_⟩
    · exact List.mem_append_right _ (List.mem_singleton_self _)
    · rw [hreq]
      rfl
  | @answered cmd db out wbuf w'' _ hreq hdb _ _ hsends =>
    have hfits := Conn.fits_of_request hreq (some (capReply out))
    have hanswered := h.snoc (w'.answered cmd db (capReply out) wbuf) (calls_snoc _ _ rfl) hdb
      rfl rfl hfits
    have hsame := hsends.sameInput
    exact ⟨_, hanswered.congr hsame.execs hsame.db⟩

/-- **The record is right.** What `connection_io` does to the database is what the requests do that
it executes. -/
theorem StreamInv.io_executes (h : w.StreamInv handle) (hroom : w.Room)
    (hfin : w.conn.state ≠ .fin) :
    (connectionIo handle w).Sat
      (fun _ w' ↦ w'.StreamInv handle ∧ w'.Room ∧ ∃ cs, w.Executes handle w' cs)
      fun f w' ↦ w.Crashes handle f w' := by
  have hio := h.io (J := fun w' ↦ ∃ cs, w.Executes handle w' cs)
    (Q := fun w' ↦ ∃ cs, w.Executes handle w' cs) (F := w.Crashes handle) hroom hfin
    (fun _ _ _ _ ↦ ⟨[], executes_nil rfl rfl⟩) (fun _ _ _ _ _ ↦ ⟨[], executes_nil rfl rfl⟩)
    (fun s o hs htried ↦ ?_) fun _ w' hsends ↦ ?_
  · exact hio.mono (fun _ _ h ↦ h) fun _ _ h ↦ h.2
  · obtain ⟨cs, hs⟩ := hs
    exact (hs.tried htried).mono (fun _ _ h ↦ ⟨fun _ ↦ h, fun _ ↦ h⟩) fun _ _ h ↦ h
  · exact ⟨[], executes_nil hsends.sameInput.execs hsends.sameInput.db⟩

/-- A part of a frame that is taken for the whole stops the server, once its command is executed. -/
theorem stop_of_cutAccepted (hidle : w.conn.Idle) (hcap : w.conn.rbufSize ≤ sizeofBuf)
    (hcut : w.conn.CutAccepted)
    (hdb : ∀ cmd, w.conn.request = some cmd → (handle w.db cmd).isSome) :
    ∃ w', serveRequests handle w = .stop .outOfBounds w' := by
  obtain ⟨h4, hlt, hrequest⟩ := hcut
  have htried := tryOneRequest_tried handle hidle hcap
  generalize hres : tryOneRequest handle w = o at htried
  cases htried with
  | short h => exact absurd h (not_lt.mpr h4)
  | refused _ hreq =>
    rw [hreq] at hrequest
    exact nomatch hrequest
  | noReturn _ hreq hnone =>
    have hsome := hdb _ hreq
    rw [hnone] at hsome
    exact nomatch hsome
  | cut => exact ⟨_, Outcome.whileTrue_of_stop hres⟩
  | answered _ _ _ hfull => exact absurd hfull (not_le.mpr hlt)

/-! ## A request that is received alone -/

private theorem Waiting.request_eq {f : Frame} (h : w.Waiting f.bytes) :
    w.conn.header = f.body.length ∧ w.conn.request = some f.cmd := by
  -- what is in the buffer does not depend on what `send` is going to do
  have hready : World.Ready
      { w with sends := List.replicate f.bytes.length (.accepted sizeofBuf) } (f.bytes ++ []) := by
    rw [List.append_nil]
    exact ⟨⟨h.idle, h.size, h.buf⟩, f.length_bytes_le, f.bytes.length, Nat.le_refl _, rfl⟩
  exact hready.request_eq

/-- Only a failing `send` closes a connection that sends. -/
theorem Sends.state_ne_fin (h : w.Sends (.ret () w')) (hfin : w.conn.state ≠ .fin)
    (herror : .error ∉ w.sends) : w'.conn.state ≠ .fin := by
  rcases h with ⟨_, -, heq⟩ | ⟨-, _, _, state, hstate, -, heq⟩
  · obtain ⟨-, rfl⟩ := Outcome.ret.inj heq
    exact ConnState.noConfusion
  · obtain ⟨-, rfl⟩ := Outcome.ret.inj heq
    rcases hstate with rfl | ⟨-, hmem⟩
    · exact hfin
    · exact absurd hmem herror

/-- One frame in the buffer, and nothing else: it is executed, whatever becomes of the reply. -/
theorem Waiting.serve {f : Frame} (h : w.Waiting f.bytes) {out : Bytes} {db : D}
    (hdb : handle w.db f.cmd = some (db, out)) :
    ∃ w', serveRequests handle w = .ret () w' ∧ w'.db = db ∧ w'.conn.rbufSize = 0 ∧
      w'.calls = w.calls ++ [⟨f.cmd, some (capReply out)⟩] ∧
      (.error ∉ w.sends → w'.conn.state ≠ .fin) := by
  obtain ⟨hheader, hrequest⟩ := h.request_eq
  have hsize : w.conn.rbufSize = w.conn.header + 4 := by
    rw [h.size, f.length_bytes, hheader, Nat.add_comm]
  have htried := tryOneRequest_tried handle h.idle (h.size.trans_le f.length_bytes_le)
  generalize hres : tryOneRequest handle w = o at htried
  cases htried with
  | short h4 => omega
  | refused _ hreq => exact (Option.some_ne_none _ (hrequest.symm.trans hreq)).elim
  | noReturn _ hreq hnone =>
    obtain rfl := Option.some_inj.mp (hrequest.symm.trans hreq)
    exact (Option.some_ne_none _ (hdb.symm.trans hnone)).elim
  | cut _ _ _ hcut => omega
  | @answered cmd db₁ out₁ wbuf w' _ hreq hdb₁ _ _ hsends =>
    obtain rfl := Option.some_inj.mp (hrequest.symm.trans hreq)
    obtain ⟨rfl, rfl⟩ := Prod.mk.inj (Option.some_inj.mp (hdb.symm.trans hdb₁))
    have hsame := hsends.sameInput
    have hcalls : w'.calls = w.calls ++ [⟨f.cmd, some (capReply out)⟩] := by
      rw [World.calls, hsame.execs]
      exact calls_snoc w (w.answered f.cmd db (capReply out) wbuf) rfl
    have hempty : w'.conn.rbufSize = 0 := by
      rw [hsame.rbufSize]
      exact Nat.sub_eq_zero_of_le hsize.le
    have hopen := hsends.state_ne_fin ConnState.noConfusion
    by_cases hreq' : w'.conn.state = .req
    · -- the reply is out, and the next call finds nothing
      have hshort : tryOneRequest handle w' = .ret false w'.logTried :=
        if_pos (hempty.trans_lt (by decide))
      rw [decide_eq_true hreq'] at hres
      refine ⟨w'.logTried, ?_, hsame.db, hempty, hcalls, hopen⟩
      exact (Outcome.whileTrue_of_true hres).trans (Outcome.whileTrue_of_false hshort)
    · rw [decide_eq_false hreq'] at hres
      exact ⟨w', Outcome.whileTrue_of_false hres, hsame.db, hempty, hcalls, hopen⟩

theorem Waiting.serve_none {f : Frame} (h : w.Waiting f.bytes) (hdb : handle w.db f.cmd = none) :
    ∃ w', serveRequests handle w = .stop .noReturn w' := by
  obtain ⟨-, hrequest⟩ := h.request_eq
  have hsize : 4 ≤ w.conn.rbufSize := by
    rw [h.size, f.length_bytes]
    exact Nat.le_add_right _ _
  have htried := tryOneRequest_tried handle h.idle (h.size.trans_le f.length_bytes_le)
  generalize hres : tryOneRequest handle w = o at htried
  cases htried with
  | short h4 => exact absurd h4 (not_lt.mpr hsize)
  | refused _ hreq => exact (Option.some_ne_none _ (hrequest.symm.trans hreq)).elim
  | noReturn => exact ⟨_, Outcome.whileTrue_of_stop hres⟩
  | cut _ hreq hsome =>
    obtain rfl := Option.some_inj.mp (hrequest.symm.trans hreq)
    exact (Option.some_ne_none _ (hsome.symm.trans hdb)).elim
  | answered _ hreq hsome =>
    obtain rfl := Option.some_inj.mp (hrequest.symm.trans hreq)
    exact (Option.some_ne_none _ (hsome.symm.trans hdb)).elim

theorem Waiting.receive (handle : D → List Bytes → Option (D × Bytes)) (f : Frame)
    (h : w.Waiting []) (wake : Wake D) {rest : List RecvResult}
    (hrecvs : wake.recvs = .data f.bytes :: rest) :
    ∃ v, connectionIo handle (w.woken wake) = serveRequests handle v ∧ v.Waiting f.bytes ∧
      v.db = wake.others w.db ∧ v.sends = wake.sends ∧ v.calls = w.calls := by
  have hzero : w.conn.rbufSize = 0 := h.size
  have hne : f.bytes ≠ [] := by
    apply List.ne_nil_of_length_pos
    rw [f.length_bytes]
    exact Nat.add_pos_left (by decide) _
  have hfit : w.conn.rbufSize + f.bytes.length ≤ sizeofBuf := by
    rw [hzero, Nat.zero_add]
    exact f.length_bytes_le
  obtain ⟨rbuf, hcopy, hio⟩ := stateReq_data handle (w := w.woken wake) rest hrecvs hne hfit
  have hcopy' : Buffer.memcpy sizeofBuf w.conn.rbuf w.conn.rbufSize f.bytes = some rbuf := hcopy
  rw [hzero] at hcopy'
  have hreq : connectionIo handle (w.woken wake) = stateReq handle (w.woken wake) := by
    rw [connectionIo, show (w.woken wake).conn.state = .req from h.idle.req]
  refine ⟨_, hreq.trans hio, ?_, rfl, rfl, rfl⟩
  refine ⟨⟨h.idle.req, h.idle.wbufSize, h.idle.wbufSent⟩, ?_, (Buffer.memcpy_spec hcopy').1⟩
  change w.conn.rbufSize + f.bytes.length = f.bytes.length
  rw [hzero, Nat.zero_add]

theorem Waiting.io_frame (handle : D → List Bytes → Option (D × Bytes)) (f : Frame)
    (h : w.Waiting []) (wake : Wake D) {rest : List RecvResult}
    (hrecvs : wake.recvs = .data f.bytes :: rest) {out : Bytes} {db : D}
    (hdb : handle (wake.others w.db) f.cmd = some (db, out)) :
    ∃ w', connectionIo handle (w.woken wake) = .ret () w' ∧ w'.db = db ∧ w'.conn.rbufSize = 0 ∧
      w'.calls = w.calls ++ [⟨f.cmd, some (capReply out)⟩] ∧
      (.error ∉ wake.sends → w'.conn.state ≠ .fin) := by
  obtain ⟨v, hio, hv, hvdb, hsends, hcalls⟩ := h.receive handle f wake hrecvs
  rw [hio, ← hsends, ← hcalls]
  exact hv.serve (by rw [hvdb]; exact hdb)

end World

end RedisOnC
