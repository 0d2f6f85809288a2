import RedisOnC.Lib.Outcome
import RedisOnC.Protocol.Parse

/-!
# Connections

The state machine of one connection in `server.cpp`, from `accept` to the end of the connection.
What `recv` and `send` return is an input: a list of results for each call of `connection_io`, and
`EAGAIN` when the list is used up. So the state in front of any system call is also the final state
of a shorter list.

The database is a parameter: any type of states, and for each command the new state and the reply,
or `none` when `do_request` does not return.

Memory behind `rbuf` is part of the same object and can be read; writing past a buffer, sending
from behind it and a failed assertion stop the server.
-/

namespace RedisOnC

/-- `a - b` on `size_t`, for `b ≤ 2 ^ 64`. -/
def sizeSub (a b : ℕ) : ℕ := (a + 2 ^ 64 - b) % 2 ^ 64

/-- `sizeof(conn->rbuf)`, and also `sizeof(conn->wbuf)`. -/
def sizeofBuf : ℕ := 4 + kMaxMsg

/-- `conn->state`: `STATE_REQ`, `STATE_RES`, `STATE_END`. -/
inductive ConnState
  | req
  | res
  | fin
deriving DecidableEq

/-- `struct Conn`, without the timers. -/
structure Conn where
  state : ConnState := .req
  rbufSize : ℕ := 0
  rbuf : Buffer
  wbufSize : ℕ := 0
  wbufSent : ℕ := 0
  wbuf : Buffer

/-- What a call of `recv` does: it returns bytes, none at the end of the stream, or an error. -/
inductive RecvResult
  | data (bytes : Bytes)
  | eintr
  | eagain
  | error

/-- What a call of `send` does: it takes at most `n` of the bytes, or returns an error. -/
inductive SendResult
  | accepted (n : ℕ)
  | eintr
  | eagain
  | error

/-- A call of `do_request`: the connection at that time, the bytes received from the client and not
yet consumed, the length and the words of the request, and the reply if there is one. -/
structure Exec where
  conn : Conn
  pending : Bytes
  len : ℕ
  cmd : List Bytes
  reply : Option Bytes

/-- A connection and its surroundings. The last five fields record what has happened: all bytes
that `recv` returned, the number of them that were consumed, all bytes that `send` accepted, the
calls of `try_one_request`, and the calls of `do_request`. -/
structure World (D : Type) where
  conn : Conn
  db : D
  recvs : List RecvResult := []
  sends : List SendResult := []
  received : Bytes := []
  consumed : ℕ := 0
  sent : Bytes := []
  tried : List (Conn × D) := []
  execs : List Exec := []

/-- Why the server stops. -/
inductive Fault
  | assertion
  | outOfBounds
  | noReturn

variable {D : Type}

/-- `conn->state = …`. -/
def World.setState (w : World D) (state : ConnState) : World D :=
  { w with conn := { w.conn with state := state } }

/-! ## Sending -/

/-- `send`, again after each `EINTR`. -/
def retrySend : List SendResult → SendResult × List SendResult
  | [] => (.eagain, [])
  | .eintr :: rest => retrySend rest
  | result :: rest => (result, rest)

/-- `try_flush_buffer`. -/
def tryFlushBuffer (w : World D) : Outcome Fault (World D) Bool :=
  let c := w.conn
  let remainBytes := sizeSub c.wbufSize c.wbufSent
  if sizeofBuf < c.wbufSent + remainBytes then .stop .outOfBounds w
  else
    match retrySend w.sends with
    | (.accepted n, sends) =>
      let rv := min n remainBytes
      let w := { w with sends := sends, sent := w.sent ++ c.wbuf.slice c.wbufSent rv }
      if c.wbufSent + rv = c.wbufSize then
        .ret false { w with conn := { c with state := .req, wbufSize := 0, wbufSent := 0 } }
      else .ret true { w with conn := { c with wbufSent := c.wbufSent + rv } }
    | (.error, sends) => .ret false ({ w with sends := sends }.setState .fin)
    | (_, sends) => .ret false { w with sends := sends }

theorem length_retrySend_lt {sends rest : List SendResult} {n : ℕ}
    (h : retrySend sends = (.accepted n, rest)) : rest.length < sends.length := by
  induction sends with
  | nil => cases h
  | cons result sends ih =>
    cases result with
    | eintr => exact (ih h).trans (Nat.lt_succ_self _)
    | accepted k =>
      obtain ⟨-, rfl⟩ := Prod.mk.inj h
      exact Nat.lt_succ_self _
    | _ => cases h

theorem sends_lt_of_tryFlushBuffer (w w' : World D) (h : tryFlushBuffer w = .ret true w') :
    w'.sends.length < w.sends.length := by
  rw [tryFlushBuffer] at h
  dsimp only at h
  split at h
  · cases h
  · split at h
    · next hsend =>
      split at h
      · cases h
      · cases h
        exact length_retrySend_lt hsend
    · cases h
    · cases h

/-- `state_res`. -/
def stateRes (w : World D) : Outcome Fault (World D) Unit :=
  .whileTrue tryFlushBuffer (fun w ↦ w.sends.length) sends_lt_of_tryFlushBuffer w

/-! ## One request -/

/-- The reply, or the error that stands for one that is too big. -/
def capReply (out : Bytes) : Bytes :=
  if kMaxMsg < 4 + out.length then outErr err2Big (ascii "response is too big") else out

/-- Put the length of the reply and the reply into the write buffer. -/
def respond (c : Conn) (out : Bytes) : Option Conn := do
  let wlen := out.length % 2 ^ 32
  let wbuf ← Buffer.memcpy sizeofBuf c.wbuf 0 (leBytes 4 wlen)
  let wbuf ← Buffer.memcpy sizeofBuf wbuf 4 out
  some { c with wbuf := wbuf, wbufSize := wlen + 4 }

/-- Remove the request from the read buffer. -/
def removeRequest (c : Conn) (len : ℕ) : Option Conn := do
  let remainBytes := sizeSub c.rbufSize (len + 4)
  let rbuf ← (if 0 < remainBytes then Buffer.memmove sizeofBuf c.rbuf (len + 4) remainBytes
    else some c.rbuf : Option Buffer)
  some { c with rbuf := rbuf, rbufSize := remainBytes }

/-- Record a call of `do_request`. -/
def World.logExec (w : World D) (len : ℕ) (cmd : List Bytes) (reply : Option Bytes) : World D :=
  { w with execs := w.execs ++ [⟨w.conn, w.received.drop w.consumed, len, cmd, reply⟩] }

/-- Put the reply into the write buffer, remove the request from the read buffer and change the
state. -/
def queueReply (w : World D) (len : ℕ) (out : Bytes) : Outcome Fault (World D) Unit :=
  (Outcome.ofOption .outOfBounds w (respond w.conn out)).bind fun c w ↦
    (Outcome.ofOption .outOfBounds { w with conn := c } (removeRequest c len)).bind fun c w ↦
      .ret () { w with conn := { c with state := .res }, consumed := w.consumed + (4 + len) }

variable (handle : D → List Bytes → Option (D × Bytes))

/-- The middle of `try_one_request`, from `do_request` to the change of the state. -/
def answerRequest (w : World D) (len : ℕ) (cmd : List Bytes) : Outcome Fault (World D) Unit :=
  match handle w.db cmd with
  | none => .stop .noReturn (w.logExec len cmd none)
  | some (db, out) =>
    queueReply ({ w with db := db }.logExec len cmd (some (capReply out))) len (capReply out)

/-- `try_one_request`. -/
def tryOneRequest (w : World D) : Outcome Fault (World D) Bool :=
  let c := w.conn
  let w := { w with tried := w.tried ++ [(c, w.db)] }
  if c.rbufSize < 4 then .ret false w
  else
    let len := ofLEBytes (c.rbuf.slice 0 4)
    if kMaxMsg < len then .ret false (w.setState .fin)
    else
      match parseReq (fun i ↦ some (c.rbuf (4 + i))) len with
      | some (0, cmd) =>
        (answerRequest handle w len cmd).bind fun _ w ↦
          (stateRes w).bind fun _ w ↦ .ret (w.conn.state = .req) w
      | _ => .ret false (w.setState .fin)

/-! ## The loop over the requests in the buffer -/

/-- Sending touches neither the database nor what has been received. -/
structure World.SameInput (w w' : World D) : Prop where
  rbufSize : w'.conn.rbufSize = w.conn.rbufSize
  rbuf : w'.conn.rbuf = w.conn.rbuf
  db : w'.db = w.db
  recvs : w'.recvs = w.recvs
  received : w'.received = w.received
  consumed : w'.consumed = w.consumed
  tried : w'.tried = w.tried
  execs : w'.execs = w.execs

theorem tryFlushBuffer_sameInput (w : World D) :
    (tryFlushBuffer w).Sat (fun _ w' ↦ w.SameInput w') fun _ w' ↦ w.SameInput w' := by
  rw [tryFlushBuffer]
  dsimp only
  split
  · exact ⟨rfl, rfl, rfl, rfl, rfl, rfl, rfl, rfl⟩
  · split
    · split <;> exact ⟨rfl, rfl, rfl, rfl, rfl, rfl, rfl, rfl⟩
    · exact ⟨rfl, rfl, rfl, rfl, rfl, rfl, rfl, rfl⟩
    · exact ⟨rfl, rfl, rfl, rfl, rfl, rfl, rfl, rfl⟩

theorem World.SameInput.trans {w₁ w₂ w₃ : World D} (h : w₁.SameInput w₂) (h' : w₂.SameInput w₃) :
    w₁.SameInput w₃ :=
  ⟨h'.rbufSize.trans h.rbufSize, h'.rbuf.trans h.rbuf, h'.db.trans h.db, h'.recvs.trans h.recvs,
    h'.received.trans h.received, h'.consumed.trans h.consumed, h'.tried.trans h.tried,
    h'.execs.trans h.execs⟩

theorem stateRes_sameInput (w : World D) :
    (stateRes w).Sat (fun _ w' ↦ w.SameInput w') fun _ w' ↦ w.SameInput w' := by
  refine Outcome.whileTrue_sat (I := w.SameInput) (fun s hs ↦ ?_)
    ⟨rfl, rfl, rfl, rfl, rfl, rfl, rfl, rfl⟩
  exact (tryFlushBuffer_sameInput s).mono
    (fun _ s' h ↦ ⟨fun _ ↦ hs.trans h, fun _ ↦ hs.trans h⟩) fun _ s' h ↦ hs.trans h

/-- A request that the buffer does not hold in full leaves too many bytes to move. -/
theorem rbufSize_lt_of_removeRequest {c c' : Conn} {len : ℕ} (h4 : 4 ≤ c.rbufSize)
    (h : removeRequest c len = some c') : c'.rbufSize < c.rbufSize := by
  rw [removeRequest] at h
  obtain ⟨rbuf, hmove, hc⟩ := Option.bind_eq_some_iff.mp h
  obtain rfl := Option.some_inj.mp hc
  show sizeSub c.rbufSize (len + 4) < c.rbufSize
  split at hmove
  · next hpos =>
    have hcap : len + 4 + sizeSub c.rbufSize (len + 4) ≤ 4 + 4096 := Buffer.memmove_le hmove
    rw [sizeSub] at hcap ⊢
    omega
  · next hpos => exact (not_lt.mp hpos).trans_lt (by omega)

theorem rbufSize_of_respond {c c' : Conn} {out : Bytes} (h : respond c out = some c') :
    c'.rbufSize = c.rbufSize := by
  rw [respond] at h
  obtain ⟨wbuf₁, -, h⟩ := Option.bind_eq_some_iff.mp h
  obtain ⟨wbuf₂, -, h⟩ := Option.bind_eq_some_iff.mp h
  rw [← Option.some_inj.mp h]

theorem rbufSize_lt_of_queueReply {w : World D} {len : ℕ} {out : Bytes} (h4 : 4 ≤ w.conn.rbufSize) :
    (queueReply w len out).Sat (fun _ w' ↦ w'.conn.rbufSize < w.conn.rbufSize) fun _ _ ↦ True := by
  rw [queueReply]
  cases hrespond : respond w.conn out with
  | none => exact True.intro
  | some c =>
    have hsize := rbufSize_of_respond hrespond
    rw [Outcome.ofOption_some, Outcome.ret_bind]
    cases hremove : removeRequest c len with
    | none => exact True.intro
    | some c' =>
      have hlt := rbufSize_lt_of_removeRequest (by rw [hsize]; exact h4) hremove
      rw [hsize] at hlt
      exact hlt

theorem rbufSize_lt_of_answerRequest {w : World D} {len : ℕ} {cmd : List Bytes}
    (h4 : 4 ≤ w.conn.rbufSize) :
    (answerRequest handle w len cmd).Sat (fun _ w' ↦ w'.conn.rbufSize < w.conn.rbufSize)
      fun _ _ ↦ True := by
  rw [answerRequest]
  rcases handle w.db cmd with _ | ⟨db, out⟩
  · exact True.intro
  · dsimp only
    set w₀ : World D := { w with db := db }.logExec len cmd (some (capReply out)) with hw₀
    have hconn : w₀.conn = w.conn := by rw [hw₀, World.logExec]
    rw [← hconn] at h4 ⊢
    exact rbufSize_lt_of_queueReply h4

theorem rbufSize_lt_of_tryOneRequest (w w' : World D) (h : tryOneRequest handle w = .ret true w') :
    w'.conn.rbufSize < w.conn.rbufSize := by
  have hsat : (tryOneRequest handle w).Sat
      (fun b w' ↦ b = true → w'.conn.rbufSize < w.conn.rbufSize) fun _ _ ↦ True := by
    rw [tryOneRequest]
    dsimp only
    split
    · exact fun hb ↦ by cases hb
    · next h4 =>
      split
      · exact fun hb ↦ by cases hb
      · split
        · next cmd hparse =>
          set w₀ : World D := { w with tried := w.tried ++ [(w.conn, w.db)] }
          have h4₀ : 4 ≤ w₀.conn.rbufSize := not_lt.mp h4
          refine (rbufSize_lt_of_answerRequest handle h4₀).bind fun _ w₁ hlt ↦ ?_
          refine ((stateRes_sameInput w₁).mono (fun _ _ h ↦ h) fun _ _ _ ↦ trivial).bind ?_
          exact fun _ w₂ hsame _ ↦ hsame.rbufSize.trans_lt hlt
        · exact fun hb ↦ by cases hb
  exact hsat.of_ret h rfl

/-- `while (try_one_request(conn)) {}`. -/
def serveRequests (w : World D) : Outcome Fault (World D) Unit :=
  .whileTrue (tryOneRequest handle) (fun w ↦ w.conn.rbufSize) (rbufSize_lt_of_tryOneRequest handle) w

/-! ## Receiving -/

/-- `recv`, again after each `EINTR`. -/
def retryRecv : List RecvResult → RecvResult × List RecvResult
  | [] => (.eagain, [])
  | .eintr :: rest => retryRecv rest
  | result :: rest => (result, rest)

/-- `try_fill_buffer`. -/
def tryFillBuffer (w : World D) : Outcome Fault (World D) Bool :=
  let c := w.conn
  if sizeofBuf ≤ c.rbufSize then .stop .assertion w
  else
    let cap := sizeofBuf - c.rbufSize
    match retryRecv w.recvs with
    | (.data bytes, recvs) =>
      let bytes := bytes.take cap
      let w := { w with recvs := recvs, received := w.received ++ bytes }
      if bytes = [] then .ret false (w.setState .fin)
      else
        let rbuf := Buffer.memcpy sizeofBuf c.rbuf c.rbufSize bytes
        (Outcome.ofOption .outOfBounds w rbuf).bind fun rbuf w ↦
          let c := { c with rbuf := rbuf, rbufSize := c.rbufSize + bytes.length }
          (serveRequests handle { w with conn := c }).bind fun _ w ↦ .ret false w
    | (.error, recvs) => .ret false ({ w with recvs := recvs }.setState .fin)
    | (_, recvs) => .ret false { w with recvs := recvs }

theorem tryFillBuffer_false (w w' : World D) : tryFillBuffer handle w ≠ .ret true w' := by
  intro h
  have hsat : (tryFillBuffer handle w).Sat (fun b _ ↦ b = false) fun _ _ ↦ True := by
    rw [tryFillBuffer]
    dsimp only
    split
    · exact True.intro
    · split
      · split
        · rfl
        · refine (Outcome.sat_true _).bind fun rbuf w₁ _ ↦ ?_
          exact (Outcome.sat_true _).bind fun _ w₂ _ ↦ rfl
      · rfl
      · rfl
  cases hsat.of_ret h

/-- `state_req`. The body never goes round again. -/
def stateReq (w : World D) : Outcome Fault (World D) Unit :=
  .whileTrue (tryFillBuffer handle) (fun _ ↦ 0)
    (fun w w' h ↦ absurd h (tryFillBuffer_false handle w w')) w

/-- `connection_io`. -/
def connectionIo (w : World D) : Outcome Fault (World D) Unit :=
  match w.conn.state with
  | .req => stateReq handle w
  | .res => stateRes w
  | .fin => .stop .assertion w

/-! ## Runs -/

/-- A connection that `accept` has just made: its buffers hold whatever `malloc` returned. -/
def accepted (rbuf wbuf : Buffer) (db : D) : World D :=
  { conn := { rbuf := rbuf, wbuf := wbuf }, db := db }

/-- One round of the main loop in which `poll` reports the connection: what the other connections
have done to the database since the last one, and the results of the system calls. -/
structure Wake (D : Type) where
  others : D → D := id
  recvs : List RecvResult := []
  sends : List SendResult := []

/-- The connection is served whenever `poll` reports it, until it is marked for deletion. -/
def run (w : World D) : List (Wake D) → Outcome Fault (World D) Unit
  | [] => .ret () w
  | wake :: wakes =>
    if w.conn.state = .fin then .ret () w
    else
      (connectionIo handle
        { w with db := wake.others w.db, recvs := wake.recvs, sends := wake.sends }).bind
          fun _ w ↦ run w wakes

end RedisOnC
