import RedisOnC.Conn.Basic

/-!
# What one step of a connection does

One statement for each function of the connection, so that nothing after this module unfolds them.
`stateRes_spec` says how far a list of send results gets, `Tried` lists the ways in which
`try_one_request` ends on a connection that has no response to send, and `stateReq_sat` and
`run_sat` are the rules for the loops around it.
-/

namespace RedisOnC

variable {D : Type}

/-! ## The two buffers -/

/-- A reply with the length in front of it. -/
def replyFrame (out : Bytes) : Bytes := leBytes 4 out.length ++ out

theorem length_capReply_le (out : Bytes) : 4 + (capReply out).length ≤ kMaxMsg := by
  rw [capReply]
  split
  · decide
  · next hle => exact not_lt.mp hle

theorem sizeSub_of_le {a b : ℕ} (hab : b ≤ a) (ha : a < 2 ^ 64) : sizeSub a b = a - b := by
  rw [sizeSub]
  omega

theorem respond_spec (c : Conn) {out : Bytes} (hout : 4 + out.length ≤ kMaxMsg) :
    ∃ wbuf, respond c out = some { c with wbuf := wbuf, wbufSize := out.length + 4 } ∧
      wbuf.slice 0 (out.length + 4) = replyFrame out := by
  have hlen : out.length % 2 ^ 32 = out.length := by
    refine Nat.mod_eq_of_lt (lt_of_le_of_lt ?_ (by decide : kMaxMsg < 2 ^ 32))
    exact (Nat.le_add_left _ _).trans hout
  have hcap₁ : 0 + (leBytes 4 out.length).length ≤ sizeofBuf := by
    rw [length_leBytes]
    decide
  have hcap₂ : 4 + out.length ≤ sizeofBuf := hout.trans (by decide)
  obtain ⟨wbuf₁, h₁⟩ := Buffer.exists_memcpy hcap₁ c.wbuf
  obtain ⟨wbuf₂, h₂⟩ := Buffer.exists_memcpy hcap₂ wbuf₁
  obtain ⟨hread₁, -⟩ := Buffer.memcpy_spec h₁
  obtain ⟨hread₂, hkeep⟩ := Buffer.memcpy_spec h₂
  refine ⟨wbuf₂, ?_, ?_⟩
  · rw [respond, hlen, h₁, Option.bind_eq_bind, Option.bind_some, h₂, Option.bind_some]
  · rw [length_leBytes] at hread₁
    rw [Nat.add_comm, Buffer.slice_add, hkeep 0 4 (Nat.le_refl 4), hread₁, Nat.zero_add, hread₂,
      replyFrame]

/-- The length at the front of the read buffer. -/
def Conn.header (c : Conn) : ℕ := ofLEBytes (c.rbuf.slice 0 4)

/-- What is behind the request moves to the front. The bytes behind that stay where they were. -/
def Conn.remainder (c : Conn) : Buffer := fun i ↦
  if i < c.rbufSize - (c.header + 4) then c.rbuf (c.header + 4 + i) else c.rbuf i

theorem Conn.slice_remainder (c : Conn) :
    c.remainder.slice 0 (c.rbufSize - (c.header + 4))
      = c.rbuf.slice (c.header + 4) (c.rbufSize - (c.header + 4)) :=
  Buffer.slice_move

theorem removeRequest_spec (c : Conn) (hlen : c.header + 4 ≤ c.rbufSize)
    (hcap : c.rbufSize ≤ sizeofBuf) :
    removeRequest c c.header
      = some { c with rbuf := c.remainder, rbufSize := c.rbufSize - (c.header + 4) } := by
  have hsub : sizeSub c.rbufSize (c.header + 4) = c.rbufSize - (c.header + 4) :=
    sizeSub_of_le hlen (hcap.trans_lt (by decide))
  rw [removeRequest, hsub]
  by_cases hpos : 0 < c.rbufSize - (c.header + 4)
  · have hfit : c.header + 4 + (c.rbufSize - (c.header + 4)) ≤ sizeofBuf := by omega
    rw [if_pos hpos, Buffer.memmove, if_pos hfit, Option.bind_eq_bind, Option.bind_some]
    rfl
  · have hrbuf : c.remainder = c.rbuf :=
      funext fun i ↦ if_neg fun hi ↦ hpos ((Nat.zero_le i).trans_lt hi)
    rw [if_neg hpos, Option.bind_eq_bind, Option.bind_some, hrbuf]

/-- If the buffer does not hold the request in full, `rbuf_size - len - 4` wraps around. -/
theorem removeRequest_cut (c : Conn) {len : ℕ} (hlen : len ≤ kMaxMsg) (hcut : c.rbufSize < len + 4) :
    removeRequest c len = none := by
  have hbig : sizeofBuf < sizeSub c.rbufSize (len + 4) := by
    have hsize : sizeofBuf = 4100 := rfl
    have hmax : kMaxMsg = 4096 := rfl
    rw [sizeSub]
    omega
  have hmove : Buffer.memmove sizeofBuf c.rbuf (len + 4) (sizeSub c.rbufSize (len + 4)) = none := by
    rw [Buffer.memmove, if_neg]
    omega
  rw [removeRequest, if_pos ((Nat.zero_le _).trans_lt hbig), hmove]
  rfl

/-! ## Sending a response -/

/-- The results that are left when the last of `n` bytes is out, if it gets out. -/
def drains : List SendResult → ℕ → Option (List SendResult)
  | [], _ => none
  | .accepted k :: rest, n => if n ≤ k then some rest else drains rest (n - k)
  | .eintr :: rest, n => drains rest n
  | .eagain :: _, _ => none
  | .error :: _, _ => none

/-- The world after `n` more bytes of the response went out. -/
def World.flushed (w : World D) (sends : List SendResult) (n : ℕ) (state : ConnState) : World D :=
  { w with
    sends := sends
    sent := w.sent ++ w.conn.wbuf.slice w.conn.wbufSent n
    conn := { w.conn with state := state, wbufSent := w.conn.wbufSent + n } }

/-- The world after the rest of the response went out. -/
def World.drained (w : World D) (sends : List SendResult) : World D :=
  { w with
    sends := sends
    sent := w.sent ++ w.conn.wbuf.slice w.conn.wbufSent (w.conn.wbufSize - w.conn.wbufSent)
    conn := { w.conn with state := .req, wbufSize := 0, wbufSent := 0 } }

/-- How `state_res` ends: with the response sent, or with a part of it sent and the connection
waiting or marked for deletion. -/
def World.Sends (w : World D) (o : Outcome Fault (World D) Unit) : Prop :=
  (∃ sends, drains w.sends (w.conn.wbufSize - w.conn.wbufSent) = some sends ∧
    o = .ret () (w.drained sends)) ∨
  (drains w.sends (w.conn.wbufSize - w.conn.wbufSent) = none ∧
    ∃ sends n state, (state = w.conn.state ∨ state = .fin ∧ .error ∈ w.sends) ∧
      w.conn.wbufSent + n ≤ w.conn.wbufSize ∧ o = .ret () (w.flushed sends n state))

theorem tryFlushBuffer_eq {w : World D} (hsent : w.conn.wbufSent ≤ w.conn.wbufSize)
    (hsize : w.conn.wbufSize ≤ sizeofBuf) :
    tryFlushBuffer w = match retrySend w.sends with
      | (.accepted n, sends) =>
        if w.conn.wbufSize - w.conn.wbufSent ≤ n then .ret false (w.drained sends)
        else .ret true (w.flushed sends n w.conn.state)
      | (.error, sends) => .ret false ({ w with sends := sends }.setState .fin)
      | (_, sends) => .ret false { w with sends := sends } := by
  have hremain : sizeSub w.conn.wbufSize w.conn.wbufSent = w.conn.wbufSize - w.conn.wbufSent :=
    sizeSub_of_le hsent (hsize.trans_lt (by decide))
  rw [tryFlushBuffer]
  dsimp only
  rw [hremain, if_neg (by omega)]
  rcases retrySend w.sends with ⟨result, sends⟩
  cases result with
  | accepted n =>
    dsimp only
    by_cases hn : w.conn.wbufSize - w.conn.wbufSent ≤ n
    · rw [if_pos hn, min_eq_right hn, if_pos (Nat.add_sub_of_le hsent)]
      rfl
    · rw [if_neg hn, min_eq_left (not_le.mp hn).le, if_neg (by omega)]
      rfl
  | _ => rfl

private theorem flushed_zero (w : World D) (sends : List SendResult) (state : ConnState) :
    w.flushed sends 0 state = { w with sends := sends }.setState state := by
  rw [World.flushed, Buffer.slice_zero, List.append_nil]
  rfl

private theorem flushed_flushed (w : World D) {sends sends' : List SendResult} {n k : ℕ}
    {state state' : ConnState} :
    (w.flushed sends n state).flushed sends' k state' = w.flushed sends' (n + k) state' := by
  simp only [World.flushed, Buffer.slice_add, List.append_assoc, Nat.add_assoc]

private theorem drained_flushed (w : World D) {sends sends' : List SendResult} {n : ℕ}
    {state : ConnState} (hn : w.conn.wbufSent + n ≤ w.conn.wbufSize) :
    (w.flushed sends n state).drained sends' = w.drained sends' := by
  have hsum : w.conn.wbufSize - w.conn.wbufSent
      = n + (w.conn.wbufSize - (w.conn.wbufSent + n)) := by omega
  simp only [World.drained, World.flushed, hsum, Buffer.slice_add, List.append_assoc]

theorem stateRes_spec (w : World D) (hsent : w.conn.wbufSent ≤ w.conn.wbufSize)
    (hsize : w.conn.wbufSize ≤ sizeofBuf) : w.Sends (stateRes w) := by
  obtain ⟨sends, hsends⟩ : ∃ sends, w.sends = sends := ⟨_, rfl⟩
  have hround := tryFlushBuffer_eq hsent hsize
  rw [hsends] at hround
  induction sends generalizing w with
  | nil =>
    refine Or.inr ⟨by rw [hsends]; rfl, [], 0, w.conn.state, Or.inl rfl, hsent, ?_⟩
    rw [stateRes, Outcome.whileTrue_of_false hround, flushed_zero]
    rfl
  | cons result rest ih =>
    cases result with
    | eintr =>
      have hskip : tryFlushBuffer w = tryFlushBuffer { w with sends := rest } :=
        hround.trans (tryFlushBuffer_eq (w := { w with sends := rest }) hsent hsize).symm
      have hrest := ih { w with sends := rest } hsent hsize rfl
        (tryFlushBuffer_eq (w := { w with sends := rest }) hsent hsize)
      rw [stateRes, Outcome.whileTrue_congr hskip, World.Sends, hsends]
      refine hrest.imp_right fun ⟨hd, sends, n, state, hstate, hn, heq⟩ ↦
        ⟨hd, sends, n, state, hstate.imp_right fun herr ↦ ?_, hn, heq⟩
      exact ⟨herr.1, List.mem_cons_of_mem _ herr.2⟩
    | accepted k =>
      -- `send` takes all that is left, or a part of it and is called again
      by_cases hk : w.conn.wbufSize - w.conn.wbufSent ≤ k
      · refine Or.inl ⟨rest, ?_, ?_⟩
        · rw [hsends, drains, if_pos hk]
        · rw [stateRes, Outcome.whileTrue_of_false (hround.trans (if_pos hk))]
      · have hsent' : w.conn.wbufSent + k ≤ w.conn.wbufSize := by omega
        have hdrains : drains w.sends (w.conn.wbufSize - w.conn.wbufSent)
            = drains rest (w.conn.wbufSize - (w.conn.wbufSent + k)) := by
          rw [hsends, drains, if_neg hk, Nat.sub_sub]
        have hrest := ih (w.flushed rest k w.conn.state) hsent' hsize rfl
          (tryFlushBuffer_eq (w := w.flushed rest k w.conn.state) hsent' hsize)
        rw [stateRes, Outcome.whileTrue_of_true (hround.trans (if_neg hk))]
        rcases hrest with ⟨sends, hd, heq⟩ | ⟨hd, sends, n, state, hstate, hn, heq⟩
        · rw [drained_flushed w hsent'] at heq
          exact Or.inl ⟨sends, hdrains.trans hd, heq⟩
        · refine Or.inr ⟨hdrains.trans hd, sends, k + n, state, hstate.imp_right ?_, ?_, ?_⟩
          · exact fun herr ↦ ⟨herr.1, hsends ▸ List.mem_cons_of_mem _ herr.2⟩
          · rw [← Nat.add_assoc]
            exact hn
          · rw [flushed_flushed] at heq
            exact heq
    | eagain =>
      refine Or.inr ⟨by rw [hsends]; rfl, rest, 0, w.conn.state, Or.inl rfl, hsent, ?_⟩
      rw [stateRes, Outcome.whileTrue_of_false hround, flushed_zero]
      rfl
    | error =>
      have herr : .error ∈ w.sends := hsends ▸ List.mem_cons_self
      refine Or.inr ⟨by rw [hsends]; rfl, rest, 0, .fin, Or.inr ⟨rfl, herr⟩, hsent, ?_⟩
      rw [stateRes, Outcome.whileTrue_of_false hround, flushed_zero]

/-! ## One request -/

/-- The words that `parse_req` reads behind that length, if it accepts them. -/
def Conn.request (c : Conn) : Option (List Bytes) :=
  if kMaxMsg < c.header then none
  else
    match parseReq (fun i ↦ some (c.rbuf (4 + i))) c.header with
    | some (0, cmd) => some cmd
    | _ => none

/-- `wbuf` holds no response. -/
structure Conn.Idle (c : Conn) : Prop where
  req : c.state = .req
  wbufSize : c.wbufSize = 0
  wbufSent : c.wbufSent = 0

/-- A call of `try_one_request` has begun. -/
def World.logTried (w : World D) : World D := { w with tried := w.tried ++ [(w.conn, w.db)] }

/-- `do_request` has returned, and its reply is ready to be sent. -/
def World.answered (w : World D) (cmd : List Bytes) (db : D) (out : Bytes) (wbuf : Buffer) :
    World D :=
  { (({ w.logTried with db := db }).logExec w.conn.header cmd (some out)) with
    consumed := w.consumed + (4 + w.conn.header)
    conn := { w.conn with
      state := .res
      rbuf := w.conn.remainder
      rbufSize := w.conn.rbufSize - (w.conn.header + 4)
      wbuf := wbuf
      wbufSize := out.length + 4 } }

/-- What `try_one_request` does on a connection without a response to send. -/
inductive Tried (handle : D → List Bytes → Option (D × Bytes)) (w : World D) :
    Outcome Fault (World D) Bool → Prop
  /-- The length is not there yet. -/
  | short (h : w.conn.rbufSize < 4) : Tried handle w (.ret false w.logTried)
  /-- The length is too big, or the request is malformed. -/
  | refused (h : 4 ≤ w.conn.rbufSize) (hreq : w.conn.request = none) :
    Tried handle w (.ret false (w.logTried.setState .fin))
  /-- `do_request` does not return. -/
  | noReturn {cmd : List Bytes} (h : 4 ≤ w.conn.rbufSize) (hreq : w.conn.request = some cmd)
      (hdb : handle w.db cmd = none) :
    Tried handle w (.stop .noReturn (w.logTried.logExec w.conn.header cmd none))
  /-- The request was executed although the buffer holds only a part of it. -/
  | cut {cmd : List Bytes} {db : D} {out : Bytes} {wbuf : Buffer} (h : 4 ≤ w.conn.rbufSize)
      (hreq : w.conn.request = some cmd) (hdb : handle w.db cmd = some (db, out))
      (hcut : w.conn.rbufSize < w.conn.header + 4)
      (hwbuf : wbuf.slice 0 ((capReply out).length + 4) = replyFrame (capReply out)) :
    Tried handle w (.stop .outOfBounds
      { (({ w.logTried with db := db }).logExec w.conn.header cmd (some (capReply out))) with
        conn := { w.conn with wbuf := wbuf, wbufSize := (capReply out).length + 4 } })
  /-- The request was executed and its response is on its way. -/
  | answered {cmd : List Bytes} {db : D} {out : Bytes} {wbuf : Buffer} {w' : World D}
      (h : 4 ≤ w.conn.rbufSize) (hreq : w.conn.request = some cmd)
      (hdb : handle w.db cmd = some (db, out)) (hfull : w.conn.header + 4 ≤ w.conn.rbufSize)
      (hwbuf : wbuf.slice 0 ((capReply out).length + 4) = replyFrame (capReply out))
      (hsends : (w.answered cmd db (capReply out) wbuf).Sends (.ret () w')) :
    Tried handle w (.ret (w'.conn.state = .req) w')

theorem Conn.header_le_of_request {c : Conn} {cmd : List Bytes} (h : c.request = some cmd) :
    c.header ≤ kMaxMsg := by
  rw [Conn.request] at h
  split at h
  · cases h
  · next hlen => exact not_lt.mp hlen

variable (handle : D → List Bytes → Option (D × Bytes))

private theorem tryOneRequest_eq {w : World D} (h : 4 ≤ w.conn.rbufSize) :
    tryOneRequest handle w = match w.conn.request with
      | none => .ret false (w.logTried.setState .fin)
      | some cmd =>
        (answerRequest handle w.logTried w.conn.header cmd).bind fun _ w ↦
          (stateRes w).bind fun _ w ↦ .ret (w.conn.state = .req) w := by
  rw [tryOneRequest, Conn.request]
  dsimp only
  rw [if_neg (not_lt.mpr h)]
  by_cases hlen : kMaxMsg < w.conn.header
  · rw [if_pos hlen]
    exact if_pos hlen
  · rw [if_neg hlen]
    refine (if_neg hlen).trans ?_
    change (match parseReq (fun i ↦ some (w.conn.rbuf (4 + i))) w.conn.header with
      | some (0, cmd) => _
      | _ => _) = _
    split <;> rfl

theorem tryOneRequest_tried {w : World D} (hidle : w.conn.Idle)
    (hcap : w.conn.rbufSize ≤ sizeofBuf) : Tried handle w (tryOneRequest handle w) := by
  by_cases h : w.conn.rbufSize < 4
  · have heq : tryOneRequest handle w = .ret false w.logTried := if_pos h
    rw [heq]
    exact .short h
  · rw [tryOneRequest_eq handle (not_lt.mp h)]
    cases hreq : w.conn.request with
    | none => exact .refused (not_lt.mp h) hreq
    | some cmd =>
      have hlen := Conn.header_le_of_request hreq
      -- the request is parsed, so its length is in range; `do_request` returns or not
      rcases hdb : handle w.db cmd with _ | ⟨db, out⟩
      · have hstop : answerRequest handle w.logTried w.conn.header cmd
            = .stop .noReturn (w.logTried.logExec w.conn.header cmd none) := by
          rw [answerRequest, show handle w.logTried.db cmd = none from hdb]
        dsimp only
        rw [hstop, Outcome.stop_bind]
        exact .noReturn (not_lt.mp h) hreq hdb
      · set w₁ := ({ w.logTried with db := db }).logExec w.conn.header cmd (some (capReply out))
        have hqueue : answerRequest handle w.logTried w.conn.header cmd
            = queueReply w₁ w.conn.header (capReply out) := by
          rw [answerRequest, show handle w.logTried.db cmd = some (db, out) from hdb]
        obtain ⟨wbuf, hrespond, hwbuf⟩ := respond_spec w₁.conn (length_capReply_le out)
        dsimp only
        rw [hqueue, queueReply, hrespond, Outcome.ofOption_some, Outcome.ret_bind]
        -- the source does not ask whether the buffer holds the whole request
        by_cases hfull : w.conn.header + 4 ≤ w.conn.rbufSize
        · have hremove := removeRequest_spec
            { w₁.conn with wbuf := wbuf, wbufSize := (capReply out).length + 4 } hfull hcap
          change removeRequest _ w.conn.header = _ at hremove
          rw [hremove, Outcome.ofOption_some, Outcome.ret_bind, Outcome.ret_bind]
          change Tried handle w ((stateRes (w.answered cmd db (capReply out) wbuf)).bind _)
          have hsends := stateRes_spec (w.answered cmd db (capReply out) wbuf)
            (by rw [World.answered, hidle.wbufSent]; exact Nat.zero_le _)
            ((Nat.add_comm _ 4).trans_le ((length_capReply_le out).trans (by decide)))
          obtain ⟨w', hret⟩ : ∃ w', stateRes (w.answered cmd db (capReply out) wbuf)
              = .ret () w' := by
            rcases hsends with ⟨_, -, heq⟩ | ⟨-, _, _, _, -, -, heq⟩ <;> exact ⟨_, heq⟩
          rw [hret] at hsends ⊢
          rw [Outcome.ret_bind]
          exact .answered (not_lt.mp h) hreq hdb hfull hwbuf hsends
        · have hnone := removeRequest_cut
            { w₁.conn with wbuf := wbuf, wbufSize := (capReply out).length + 4 } hlen
            (not_le.mp hfull)
          rw [hnone, Outcome.ofOption_none, Outcome.stop_bind, Outcome.stop_bind]
          exact .cut (not_lt.mp h) hreq hdb (not_le.mp hfull) hwbuf

/-- There is room for more bytes, unless the connection is to be closed. -/
def World.Room (w : World D) : Prop := w.conn.state ≠ .fin → w.conn.rbufSize < sizeofBuf

variable {handle} in
theorem World.Sends.rbufSize_eq {w w' : World D} (h : w.Sends (.ret () w')) :
    w'.conn.rbufSize = w.conn.rbufSize := by
  rcases h with ⟨_, -, heq⟩ | ⟨-, _, _, _, -, -, heq⟩ <;> cases heq <;> rfl

variable {handle} in
theorem Tried.room {w w' : World D} {b : Bool} (h : Tried handle w (.ret b w'))
    (hcap : w.conn.rbufSize ≤ sizeofBuf) : w'.Room ∧ w'.conn.rbufSize ≤ sizeofBuf := by
  cases h with
  | short h => exact ⟨fun _ ↦ h.trans (by decide), hcap⟩
  | refused => exact ⟨fun hfin ↦ absurd rfl hfin, hcap⟩
  | answered h _ _ _ _ hsends =>
    have hlt : w'.conn.rbufSize < w.conn.rbufSize := by
      rw [hsends.rbufSize_eq]
      exact Nat.sub_lt (by omega) (Nat.succ_pos _)
    exact ⟨fun _ ↦ hlt.trans_le hcap, (hlt.trans_le hcap).le⟩

/-! ## Rules for the loops -/

variable {handle} {I Q : World D → Prop} {F : Fault → World D → Prop}

/-- The world after `recv` has returned bytes. -/
def World.filled (w : World D) (recvs : List RecvResult) (bytes : Bytes) (rbuf : Buffer) : World D :=
  { w with
    recvs := recvs
    received := w.received ++ bytes
    conn := { w.conn with rbuf := rbuf, rbufSize := w.conn.rbufSize + bytes.length } }

variable (handle) in
/-- **Receiving.** Either bytes are received and requests are served from then on, or nothing is
received and the connection may be closed. -/
theorem stateReq_cases {w : World D} (hroom : w.conn.rbufSize < sizeofBuf) :
    (∃ bytes rest rbuf, retryRecv w.recvs = (.data bytes, rest) ∧
      bytes.take (sizeofBuf - w.conn.rbufSize) ≠ [] ∧
      Buffer.memcpy sizeofBuf w.conn.rbuf w.conn.rbufSize
        (bytes.take (sizeofBuf - w.conn.rbufSize)) = some rbuf ∧
      stateReq handle w = serveRequests handle
        (w.filled rest (bytes.take (sizeofBuf - w.conn.rbufSize)) rbuf)) ∨
    (∀ bytes rest, retryRecv w.recvs = (.data bytes, rest) →
      bytes.take (sizeofBuf - w.conn.rbufSize) = []) ∧
    ∃ recvs state, (state = w.conn.state ∨ state = .fin) ∧
      stateReq handle w = .ret () ({ w with recvs := recvs }.setState state) := by
  rcases hrecv : retryRecv w.recvs with ⟨result, recvs⟩
  have hfill := tryFillBuffer.eq_def handle w
  dsimp only at hfill
  rw [if_neg (not_le.mpr hroom), hrecv] at hfill
  cases result with
  | data bytes =>
    dsimp only at hfill
    have hfit : w.conn.rbufSize + (bytes.take (sizeofBuf - w.conn.rbufSize)).length ≤ sizeofBuf := by
      rw [List.length_take]
      omega
    by_cases hne : bytes.take (sizeofBuf - w.conn.rbufSize) = []
    · rw [if_pos hne, hne, List.append_nil] at hfill
      refine Or.inr ⟨fun _ _ h ↦ ?_, recvs, .fin, Or.inr rfl, Outcome.whileTrue_of_false hfill⟩
      cases h
      exact hne
    · obtain ⟨rbuf, hcopy⟩ := Buffer.exists_memcpy hfit w.conn.rbuf
      rw [if_neg hne, hcopy, Outcome.ofOption_some, Outcome.ret_bind] at hfill
      refine Or.inl ⟨bytes, recvs, rbuf, rfl, hne, hcopy, ?_⟩
      change tryFillBuffer handle w = (serveRequests handle
        (w.filled recvs (bytes.take (sizeofBuf - w.conn.rbufSize)) rbuf)).bind _ at hfill
      generalize serveRequests handle (w.filled _ _ rbuf) = o at hfill ⊢
      cases o with
      | ret _ w' => exact Outcome.whileTrue_of_false hfill
      | stop f w' => exact Outcome.whileTrue_of_stop hfill
  | error =>
    refine Or.inr ⟨(fun _ _ h ↦ by cases h), recvs, .fin, Or.inr rfl, ?_⟩
    exact Outcome.whileTrue_of_false hfill
  | eintr =>
    refine Or.inr ⟨(fun _ _ h ↦ by cases h), recvs, w.conn.state, Or.inl rfl, ?_⟩
    exact Outcome.whileTrue_of_false hfill
  | eagain =>
    refine Or.inr ⟨(fun _ _ h ↦ by cases h), recvs, w.conn.state, Or.inl rfl, ?_⟩
    exact Outcome.whileTrue_of_false hfill

theorem stateReq_sat {w : World D} (hroom : w.conn.rbufSize < sizeofBuf)
    (hnone : ∀ recvs state, state = w.conn.state ∨ state = .fin →
      Q ({ w with recvs := recvs }.setState state))
    (hfill : ∀ recvs bytes rbuf, bytes ≠ [] → w.conn.rbufSize + bytes.length ≤ sizeofBuf →
      rbuf.slice 0 (w.conn.rbufSize + bytes.length) = w.conn.rbuf.slice 0 w.conn.rbufSize ++ bytes →
      I (w.filled recvs bytes rbuf))
    (hserve : ∀ w, I w → (tryOneRequest handle w).Sat
      (fun b w' ↦ (b = true → I w') ∧ (b = false → Q w')) F) :
    (stateReq handle w).Sat (fun _ ↦ Q) F := by
  rcases stateReq_cases handle hroom with
    ⟨bytes, recvs, rbuf, -, hne, hcopy, heq⟩ | ⟨-, recvs, state, hstate, heq⟩
  · obtain ⟨hread, hkeep⟩ := Buffer.memcpy_spec hcopy
    rw [heq]
    refine Outcome.whileTrue_sat hserve (hfill _ _ _ hne ?_ ?_)
    · rw [List.length_take]
      omega
    · rw [Buffer.slice_add, hkeep 0 _ (Nat.zero_add _).le, Nat.zero_add, hread]
  · rw [heq]
    exact hnone recvs state hstate

variable (handle) in
theorem stateReq_data {w : World D} {bytes : Bytes} (rest : List RecvResult)
    (hrecvs : w.recvs = .data bytes :: rest) (hne : bytes ≠ [])
    (hfit : w.conn.rbufSize + bytes.length ≤ sizeofBuf) :
    ∃ rbuf, Buffer.memcpy sizeofBuf w.conn.rbuf w.conn.rbufSize bytes = some rbuf ∧
      stateReq handle w = serveRequests handle (w.filled rest bytes rbuf) := by
  have hpos := List.length_pos_iff.mpr hne
  have hrecv : retryRecv w.recvs = (.data bytes, rest) := by
    rw [hrecvs]
    rfl
  have htake : bytes.take (sizeofBuf - w.conn.rbufSize) = bytes :=
    List.take_of_length_le (by omega)
  rcases stateReq_cases handle (w := w) (by omega) with
    ⟨_, _, rbuf, hrecv', -, hcopy, heq⟩ | ⟨hnone, -⟩
  · cases hrecv.symm.trans hrecv'
    rw [htake] at hcopy heq
    exact ⟨rbuf, hcopy, heq⟩
  · exact absurd (htake.symm.trans (hnone _ _ hrecv)) hne

/-- The world when `poll` reports the connection. -/
def World.woken (w : World D) (wake : Wake D) : World D :=
  { w with db := wake.others w.db, recvs := wake.recvs, sends := wake.sends }

/-- **Runs.** What every call of `connection_io` preserves holds after each of them. -/
theorem run_sat (hio : ∀ w wake, I w → w.conn.state ≠ .fin →
      (connectionIo handle (w.woken wake)).Sat (fun _ ↦ I) F) {w : World D} (hw : I w)
    (wakes : List (Wake D)) : (run handle w wakes).Sat (fun _ ↦ I) F := by
  induction wakes generalizing w with
  | nil => exact hw
  | cons wake wakes ih =>
    rw [run]
    by_cases hfin : w.conn.state = .fin
    · rw [if_pos hfin]
      exact hw
    · rw [if_neg hfin]
      exact (hio w wake hw hfin).bind fun _ w' hw' ↦ ih hw'

theorem run_singleton {w : World D} (hfin : w.conn.state ≠ .fin) (wake : Wake D) :
    run handle w [wake] = connectionIo handle (w.woken wake) := by
  rw [run, if_neg hfin]
  change (connectionIo handle (w.woken wake)).bind _ = _
  generalize connectionIo handle (w.woken wake) = o
  cases o <;> rfl

theorem run_fin {w : World D} (hfin : w.conn.state = .fin) (wakes : List (Wake D)) :
    run handle w wakes = .ret () w := by
  cases wakes with
  | nil => rfl
  | cons => rw [run, if_pos hfin]

theorem run_append (w : World D) (wakes wakes' : List (Wake D)) :
    run handle w (wakes ++ wakes') = (run handle w wakes).bind fun _ w ↦ run handle w wakes' := by
  induction wakes generalizing w with
  | nil => rfl
  | cons wake wakes ih =>
    rw [List.cons_append, run, run]
    by_cases hfin : w.conn.state = .fin
    · rw [if_pos hfin, if_pos hfin, Outcome.ret_bind, run_fin hfin]
    · rw [if_neg hfin, if_neg hfin]
      cases connectionIo handle _ with
      | ret _ w' => exact ih w'
      | stop f w' => rfl

end RedisOnC
