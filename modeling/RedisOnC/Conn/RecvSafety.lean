import RedisOnC.Conn.Framing
import RedisOnC.Conn.Stream

/-!
# The receive buffer

`try_one_request` compares `rbuf_size` with `4` but not with `4 + len`. A call that finds a part of
a frame, completed by bytes of earlier requests to something that `parse_req` accepts, executes it,
and then `rbuf_size - len - 4` wraps around. As long as there is no such call, only bytes received
and not yet consumed are executed, and nothing is read or written outside of the buffers.
-/

namespace RedisOnC

variable {D : Type} {handle : D → List Bytes → Option (D × Bytes)} {w w' : World D}

/-- The buffer holds a part of a frame, and the bytes behind it make it acceptable. -/
def Conn.CutAccepted (c : Conn) : Prop :=
  4 ≤ c.rbufSize ∧ c.rbufSize < c.header + 4 ∧ c.request.isSome

/-- The request that was executed is complete in the buffer, and is what the client has sent and
the server has not consumed. -/
def Exec.Sound (e : Exec) : Prop :=
  e.len = e.conn.header ∧ e.len + 4 ≤ e.conn.rbufSize ∧ e.conn.rbufSize ≤ sizeofBuf ∧
    e.conn.rbuf.slice 0 (e.len + 4) = e.pending.take (e.len + 4)

namespace World

/-- The read buffer is within its bounds, now and at each call of `try_one_request`, and holds what
was received and not consumed. -/
structure Buffered (w : World D) : Prop where
  size : w.conn.rbufSize ≤ sizeofBuf
  pending : w.received.drop w.consumed = w.conn.rbuf.slice 0 w.conn.rbufSize
  consumed : w.consumed ≤ w.received.length
  tried : ∀ c ∈ w.tried, c.1.rbufSize ≤ sizeofBuf

/-- No call of `try_one_request` found a part of a frame that `parse_req` accepts. -/
def NoCut (w : World D) : Prop := ∀ c ∈ w.tried, ¬ c.1.CutAccepted

def Sound (w : World D) : Prop := ∀ e ∈ w.execs, e.Sound

/-- The invariant of a connection that has not stopped. -/
structure RecvInv (w : World D) : Prop where
  buffered : w.Buffered
  noCut : w.NoCut
  sound : w.Sound

private theorem noCut_snoc {c : Conn × D} (h : w.NoCut) (hc : ¬ c.1.CutAccepted)
    (htried : w'.tried = w.tried ++ [c]) : w'.NoCut := by
  intro c' hc'
  rw [htried, List.mem_append, List.mem_singleton] at hc'
  rcases hc' with hc' | rfl
  · exact h c' hc'
  · exact hc

private theorem sound_snoc {e : Exec} (h : w.Sound) (he : e.Sound)
    (hexecs : w'.execs = w.execs ++ [e]) : w'.Sound := by
  intro e' he'
  rw [hexecs, List.mem_append, List.mem_singleton] at he'
  rcases he' with he' | rfl
  · exact h e' he'
  · exact he

private theorem Buffered.logTried (h : w.Buffered) (hconn : w'.conn.rbufSize = w.conn.rbufSize)
    (hrbuf : w'.conn.rbuf = w.conn.rbuf) (hrecv : w'.received = w.received)
    (hcons : w'.consumed = w.consumed) (htried : w'.tried = w.tried ++ [(w.conn, w.db)]) :
    w'.Buffered := by
  refine ⟨by rw [hconn]; exact h.size, ?_, by rw [hcons, hrecv]; exact h.consumed, ?_⟩
  · rw [hrecv, hcons, hconn, hrbuf]
    exact h.pending
  · intro c hc
    rw [htried, List.mem_append, List.mem_singleton] at hc
    rcases hc with hc | rfl
    · exact h.tried c hc
    · exact h.size

theorem Sends.sameInput (h : w.Sends (.ret () w')) : w.SameInput w' := by
  rcases h with ⟨_, -, heq⟩ | ⟨-, _, _, _, -, -, heq⟩ <;> cases heq <;>
    exact ⟨rfl, rfl, rfl, rfl, rfl, rfl, rfl, rfl⟩

theorem RecvInv.congr (h : w.RecvInv) (hsame : w.SameInput w') : w'.RecvInv := by
  obtain ⟨⟨hsize, hpending, hconsumed, htried⟩, hcut, hsound⟩ := h
  obtain ⟨hsize', hrbuf, -, -, hreceived, hcons, htried', hexecs⟩ := hsame
  refine ⟨⟨by rw [hsize']; exact hsize, ?_, by rw [hcons, hreceived]; exact hconsumed, ?_⟩, ?_, ?_⟩
  · rw [hreceived, hcons, hrbuf, hsize']
    exact hpending
  · rw [htried']
    exact htried
  · rw [NoCut, htried']
    exact hcut
  · rw [Sound, hexecs]
    exact hsound

private theorem Buffered.take (h : w.Buffered) {n : ℕ} (hn : n ≤ w.conn.rbufSize) :
    w.conn.rbuf.slice 0 n = (w.received.drop w.consumed).take n := by
  rw [h.pending, Buffer.take_slice hn]

/-- The request at the front of the buffer is executed soundly when all of it is there. -/
private theorem Buffered.sound (h : w.Buffered) (hfull : w.conn.header + 4 ≤ w.conn.rbufSize)
    (cmd : List Bytes) (reply : Option Bytes) :
    (⟨w.conn, w.received.drop w.consumed, w.conn.header, cmd, reply⟩ : Exec).Sound :=
  ⟨rfl, hfull, h.size, h.take hfull⟩

private theorem RecvInv.answered (h : w.RecvInv) {cmd : List Bytes} {db : D} {out : Bytes}
    {wbuf : Buffer} (hfull : w.conn.header + 4 ≤ w.conn.rbufSize) :
    (w.answered cmd db out wbuf).RecvInv := by
  have hlen : (w.received.drop w.consumed).length = w.conn.rbufSize := by
    rw [h.buffered.pending, Buffer.length_slice]
  refine ⟨⟨(Nat.sub_le _ _).trans h.buffered.size, ?_, ?_, ?_⟩, ?_, ?_⟩
  · calc w.received.drop (w.consumed + (4 + w.conn.header))
        = (w.conn.rbuf.slice 0 w.conn.rbufSize).drop (w.conn.header + 4) := by
          rw [← h.buffered.pending, List.drop_drop, Nat.add_comm 4]
      _ = w.conn.remainder.slice 0 (w.conn.rbufSize - (w.conn.header + 4)) := by
          rw [Buffer.drop_slice hfull, Nat.zero_add, w.conn.slice_remainder]
  · rw [List.length_drop] at hlen
    show w.consumed + (4 + w.conn.header) ≤ w.received.length
    have hconsumed := h.buffered.consumed
    omega
  · have hlogged : w.logTried.Buffered := h.buffered.logTried rfl rfl rfl rfl rfl
    exact hlogged.tried
  · exact noCut_snoc h.noCut (fun hcut ↦ absurd hcut.2.1 (not_lt.mpr hfull)) rfl
  · exact sound_snoc h.sound (h.buffered.sound hfull cmd (some out)) rfl

/-- One request. If the server stops there, it is because `do_request` does not return, or because
the request was cut. -/
theorem RecvInv.step (h : w.RecvInv) {o : Outcome Fault (World D) Bool}
    (htried : Tried handle w o) :
    o.Sat (fun _ w' ↦ w'.RecvInv) fun f w' ↦
      w'.Buffered ∧ (w'.Sound ∧ f = .noReturn ↔ w'.NoCut) := by
  cases htried with
  | short h4 =>
    refine
      ⟨h.buffered.logTried rfl rfl rfl rfl rfl, noCut_snoc h.noCut (fun hcut ↦ ?_) rfl, h.sound⟩
    exact absurd hcut.1 (not_le.mpr h4)
  | refused h4 hreq =>
    refine
      ⟨h.buffered.logTried rfl rfl rfl rfl rfl, noCut_snoc h.noCut (fun hcut ↦ ?_) rfl, h.sound⟩
    have hsome := hcut.2.2
    rw [hreq] at hsome
    cases hsome
  | noReturn h4 hreq hdb =>
    refine ⟨h.buffered.logTried rfl rfl rfl rfl rfl, fun hsound ↦ ?_, fun hcut ↦ ⟨?_, rfl⟩⟩
    · obtain ⟨-, hfull, -⟩ := hsound.1 _ (List.mem_append_right _ (List.mem_singleton_self _))
      exact noCut_snoc h.noCut (fun hcut ↦ absurd hcut.2.1 (not_lt.mpr hfull)) rfl
    · have hfull : w.conn.header + 4 ≤ w.conn.rbufSize := by
        by_contra hlt
        refine hcut (w.conn, w.db) (List.mem_append_right _ (List.mem_singleton_self _)) ?_
        exact ⟨h4, not_le.mp hlt, by rw [hreq]; rfl⟩
      exact sound_snoc h.sound (h.buffered.sound hfull _ none) rfl
  | cut h4 hreq hdb hlt hwbuf =>
    refine
      ⟨h.buffered.logTried rfl rfl rfl rfl rfl, (fun hsound ↦ by cases hsound.2), fun hcut ↦ ?_⟩
    refine absurd ?_ (hcut (w.conn, w.db) (List.mem_append_right _ (List.mem_singleton_self _)))
    exact ⟨h4, hlt, by rw [hreq]; rfl⟩
  | answered h4 hreq hdb hfull hwbuf hsends =>
    exact (h.answered hfull).congr hsends.sameInput

theorem RecvInv.filled (h : w.RecvInv) {recvs : List RecvResult} {bytes : Bytes} {rbuf : Buffer}
    (hfit : w.conn.rbufSize + bytes.length ≤ sizeofBuf)
    (hread : rbuf.slice 0 (w.conn.rbufSize + bytes.length)
      = w.conn.rbuf.slice 0 w.conn.rbufSize ++ bytes) : (w.filled recvs bytes rbuf).RecvInv := by
  refine ⟨⟨hfit, ?_, ?_, h.buffered.tried⟩, h.noCut, h.sound⟩
  · show (w.received ++ bytes).drop w.consumed = rbuf.slice 0 (w.conn.rbufSize + bytes.length)
    rw [hread, List.drop_append_of_le_length h.buffered.consumed, h.buffered.pending]
  · show w.consumed ≤ (w.received ++ bytes).length
    rw [List.length_append]
    exact h.buffered.consumed.trans (Nat.le_add_right _ _)

theorem recvInv_accepted (rbuf wbuf : Buffer) (db : D) : (accepted rbuf wbuf db).RecvInv := by
  refine ⟨⟨Nat.zero_le _, rfl, Nat.le_refl 0, ?_⟩, ?_, ?_⟩
  · exact fun c hc ↦ absurd hc List.not_mem_nil
  · exact fun c hc ↦ absurd hc List.not_mem_nil
  · exact fun e he ↦ absurd he List.not_mem_nil

end World

namespace World

theorem RecvInv.woken (h : w.RecvInv) (wake : Wake D) : (w.woken wake).RecvInv :=
  ⟨⟨h.buffered.size, h.buffered.pending, h.buffered.consumed, h.buffered.tried⟩, h.noCut, h.sound⟩

/-- The invariant along a run, and what is left of it where the server stops. -/
theorem run_recvInv (handle : D → List Bytes → Option (D × Bytes)) (rbuf wbuf : Buffer) (db : D)
    (wakes : List (Wake D)) :
    (run handle (accepted rbuf wbuf db) wakes).Sat (fun _ w ↦ w.RecvInv)
      fun f w ↦ w.Buffered ∧ (w.Sound ∧ f = .noReturn ↔ w.NoCut) := by
  refine (run_sat (I := fun w ↦ w.StreamInv handle ∧ w.Room ∧ w.RecvInv)
    (F := fun f w ↦ w.Buffered ∧ (w.Sound ∧ f = .noReturn ↔ w.NoCut)) ?_
    ⟨streamInv_accepted rbuf wbuf db, room_accepted rbuf wbuf db,
      recvInv_accepted rbuf wbuf db⟩ wakes).mono (fun _ w h ↦ h.2.2) fun _ _ h ↦ h
  rintro w wake ⟨hs, hroom, h⟩ hfin
  have hw := h.woken wake
  have hio := (hs.woken wake).io (J := RecvInv) (Q := RecvInv) hroom hfin
    (fun _ recvs state _ ↦ ?_) (fun recvs bytes rbuf hfit hread ↦ hw.filled hfit hread)
    (fun s o hJ htried ↦ (hJ.step htried).mono (fun _ _ h ↦ ⟨fun _ ↦ h, fun _ ↦ h⟩) fun _ _ h ↦ h)
    fun _ w' hsends ↦ hw.congr hsends.sameInput
  · exact hio.mono (fun _ _ h ↦ h) fun _ _ h ↦ h.2
  · exact ⟨⟨hw.buffered.size, hw.buffered.pending, hw.buffered.consumed, hw.buffered.tried⟩,
      hw.noCut, hw.sound⟩

end World

/-! ## What has to arrive for a request to be cut -/

/-- Without the request at the front. -/
def Conn.behind (c : Conn) : Conn :=
  { c with rbuf := c.remainder, rbufSize := c.rbufSize - (c.header + 4) }

/-- The bytes in the buffer begin with complete requests that are executed, each with a response
that is sent at once, and the next request is cut and accepted. -/
inductive Conn.Cuts (handle : D → List Bytes → Option (D × Bytes)) :
    Conn → D → List SendResult → Prop
  | here {c : Conn} {db : D} {sends : List SendResult} (hcut : c.CutAccepted) :
    Cuts handle c db sends
  | next {c : Conn} {db db' : D} {cmd : List Bytes} {out : Bytes} {sends sends' : List SendResult}
      (hfull : c.header + 4 ≤ c.rbufSize) (hreq : c.request = some cmd)
      (hdb : handle db cmd = some (db', out))
      (hsends : drains sends ((capReply out).length + 4) = some sends')
      (hnext : Cuts handle c.behind db' sends') : Cuts handle c db sends

/-- Only the read buffer matters. -/
theorem Conn.Cuts.congr {c c' : Conn} {db : D} {sends : List SendResult}
    (h : c.Cuts handle db sends) (hrbuf : c'.rbuf = c.rbuf) (hsize : c'.rbufSize = c.rbufSize) :
    c'.Cuts handle db sends := by
  have hheader : ∀ {c c' : Conn}, c'.rbuf = c.rbuf → c'.header = c.header := fun h ↦ by
    rw [Conn.header, h, Conn.header]
  have hrequest : ∀ {c c' : Conn}, c'.rbuf = c.rbuf → c'.request = c.request := fun h ↦ by
    rw [Conn.request, hheader h, h, Conn.request]
  induction h generalizing c' with
  | here hcut =>
    refine .here ?_
    rw [CutAccepted, hsize, hheader hrbuf, hrequest hrbuf]
    exact hcut
  | @next c db db' cmd out sends sends' hfull hreq hdb hsends _ ih =>
    refine .next ?_ ((hrequest hrbuf).trans hreq) hdb hsends (ih ?_ ?_)
    · rwa [hheader hrbuf, hsize]
    · funext i
      simp only [behind, remainder, hsize, hheader hrbuf, hrbuf]
    · simp only [behind, hsize, hheader hrbuf]

namespace World

/-- The call of `connection_io` that comes next receives bytes that make it cut a request. -/
def Cuts (handle : D → List Bytes → Option (D × Bytes)) (w : World D) (wake : Wake D) : Prop :=
  w.conn.state = .req ∧ ∃ bytes rest rbuf, retryRecv wake.recvs = (.data bytes, rest) ∧
    bytes.take (sizeofBuf - w.conn.rbufSize) ≠ [] ∧
    Buffer.memcpy sizeofBuf w.conn.rbuf w.conn.rbufSize
      (bytes.take (sizeofBuf - w.conn.rbufSize)) = some rbuf ∧
    ((w.woken wake).filled rest (bytes.take (sizeofBuf - w.conn.rbufSize)) rbuf).conn.Cuts handle
      (wake.others w.db) wake.sends

private theorem noCut_snoc_iff {c : Conn × D} (htried : w'.tried = w.tried ++ [c]) :
    w'.NoCut ↔ w.NoCut ∧ ¬ c.1.CutAccepted := by
  rw [NoCut, htried, List.forall_mem_append, List.forall_mem_singleton, NoCut]

theorem noCut_serveRequests (hs : w.StreamInv handle) (hreq : w.conn.state = .req)
    (hcap : w.conn.rbufSize ≤ sizeofBuf) :
    (serveRequests handle w).state.NoCut ↔ w.NoCut ∧ ¬ w.conn.Cuts handle w.db w.sends := by
  obtain ⟨n, hn⟩ : ∃ n, w.conn.rbufSize = n := ⟨_, rfl⟩
  induction n using Nat.strong_induction_on generalizing w with
  | _ n ih =>
    have hidle := hs.idle hreq
    have htried := tryOneRequest_tried handle hidle hcap
    have hkeep := hs.tried hreq hcap
    generalize hres : tryOneRequest handle w = o at htried hkeep
    -- without a next request only the first one counts
    have hfirst : (∀ cmd db out sends, w.conn.header + 4 ≤ w.conn.rbufSize →
        w.conn.request = some cmd → handle w.db cmd = some (db, out) →
        drains w.sends ((capReply out).length + 4) ≠ some sends) →
        (w.conn.Cuts handle w.db w.sends ↔ w.conn.CutAccepted) := by
      intro hno
      refine ⟨fun h ↦ ?_, .here⟩
      cases h with
      | here hcut => exact hcut
      | next hfull hreq hdb hsends => exact absurd hsends (hno _ _ _ _ hfull hreq hdb)
    cases htried with
    | short h4 =>
      rw [show serveRequests handle w = _ from Outcome.whileTrue_of_false hres, hfirst]
      · exact noCut_snoc_iff (c := (w.conn, w.db)) rfl
      · exact fun _ _ _ _ hfull ↦ absurd (lt_of_lt_of_le h4 (Nat.le_add_left 4 _)) hfull.not_gt
    | refused h4 hnone =>
      rw [show serveRequests handle w = _ from Outcome.whileTrue_of_false hres, hfirst]
      · exact noCut_snoc_iff (c := (w.conn, w.db)) rfl
      · intro _ _ _ _ _ hsome
        cases hnone.symm.trans hsome
    | noReturn h4 hsome hnone =>
      rw [show serveRequests handle w = _ from Outcome.whileTrue_of_stop hres, hfirst]
      · exact noCut_snoc_iff (c := (w.conn, w.db)) rfl
      · intro _ _ _ _ _ hsome' hdb
        obtain rfl := Option.some_inj.mp (hsome.symm.trans hsome')
        cases hnone.symm.trans hdb
    | cut h4 hsome hdb hcut hwbuf =>
      rw [show serveRequests handle w = _ from Outcome.whileTrue_of_stop hres, hfirst]
      · exact noCut_snoc_iff (c := (w.conn, w.db)) rfl
      · exact fun _ _ _ _ hfull ↦ absurd hcut hfull.not_gt
    | @answered cmd db out wbuf w' h4 hsome hdb hfull hwbuf hsends =>
      have hsnoc : w'.NoCut ↔ w.NoCut := by
        refine (noCut_snoc_iff (c := (w.conn, w.db)) hsends.sameInput.tried).trans (and_iff_left ?_)
        exact fun hcut ↦ absurd hcut.2.1 hfull.not_gt
      have hstart : (w.answered cmd db (capReply out) wbuf).conn.wbufSize
          - (w.answered cmd db (capReply out) wbuf).conn.wbufSent = (capReply out).length + 4 := by
        rw [show (w.answered cmd db (capReply out) wbuf).conn.wbufSent = 0 from hidle.wbufSent]
        rfl
      rw [Sends, hstart] at hsends
      rcases hsends with ⟨sends, hdrains, heq⟩ | ⟨hdrains, sends, n', state, hor, -, heq⟩
      · -- the response is out, and the loop goes on
        cases heq
        have hlt : w.conn.rbufSize - (w.conn.header + 4) < n := by omega
        have hloop : serveRequests handle w
            = serveRequests handle ((w.answered cmd db (capReply out) wbuf).drained sends) :=
          Outcome.whileTrue_of_true hres
        rw [hloop, ih _ hlt hkeep.1 rfl (hlt.le.trans (hn.ge.trans hcap)) rfl, hsnoc]
        refine and_congr_right fun _ ↦ not_congr ⟨fun h ↦ ?_, fun h ↦ ?_⟩
        · exact .next hfull hsome hdb hdrains (h.congr rfl rfl)
        · cases h with
          | here hcut => exact absurd hcut.2.1 hfull.not_gt
          | next _ hsome' hdb' hdrains' hnext =>
            obtain rfl := Option.some_inj.mp (hsome.symm.trans hsome')
            cases hdb.symm.trans hdb'
            cases hdrains.symm.trans hdrains'
            exact hnext.congr rfl rfl
      · -- the response is blocked, and the rest of the buffer waits
        have hstop : (w'.conn.state = .req : Bool) = false := by
          cases heq
          refine decide_eq_false ?_
          rcases hor with rfl | ⟨rfl, -⟩
          · exact fun h ↦ by cases h
          · exact fun h ↦ by cases h
        rw [hstop] at hres
        rw [show serveRequests handle w = _ from Outcome.whileTrue_of_false hres]
        refine hsnoc.trans (and_iff_left fun h ↦ ?_).symm
        cases h with
        | here hcut => exact absurd hcut.2.1 hfull.not_gt
        | next _ hsome' hdb' hdrains' hnext =>
          obtain rfl := Option.some_inj.mp (hsome.symm.trans hsome')
          cases hdb.symm.trans hdb'
          cases hdrains.symm.trans hdrains'

theorem noCut_connectionIo (hs : w.StreamInv handle) (hroom : w.Room) (hfin : w.conn.state ≠ .fin)
    (wake : Wake D) :
    (connectionIo handle (w.woken wake)).state.NoCut ↔ w.NoCut ∧ ¬ w.Cuts handle wake := by
  cases hstate : w.conn.state with
  | req =>
    rw [connectionIo, show (w.woken wake).conn.state = .req from hstate]
    dsimp only
    rcases stateReq_cases handle (w := w.woken wake) (hroom hfin) with
      ⟨bytes, rest, rbuf, hrecv, hne, hcopy, heq⟩ | ⟨hnone, recvs, state, -, heq⟩
    · obtain ⟨-, hsize, hsent⟩ := hs.idle hstate
      have hfilled : ((w.woken wake).filled rest
          (bytes.take (sizeofBuf - w.conn.rbufSize)) rbuf).StreamInv handle :=
        ⟨hs.intact, hs.answers, fun hreq ↦ ⟨hreq, hsize, hsent⟩⟩
      have hfit : w.conn.rbufSize + (bytes.take (sizeofBuf - w.conn.rbufSize)).length
          ≤ sizeofBuf := by
        have hlt := hroom hfin
        rw [List.length_take]
        omega
      rw [heq]
      refine (noCut_serveRequests hfilled hstate hfit).trans ?_
      refine and_congr_right fun _ ↦ not_congr ⟨fun h ↦ ?_, fun h ↦ ?_⟩
      · exact ⟨hstate, bytes, rest, rbuf, hrecv, hne, hcopy, h⟩
      · obtain ⟨-, _, _, _, hrecv', -, hcopy', hcuts⟩ := h
        cases hrecv.symm.trans hrecv'
        obtain rfl := Option.some_inj.mp (hcopy.symm.trans hcopy')
        exact hcuts
    · rw [heq]
      refine (and_iff_left (a := w.NoCut) fun h ↦ ?_).symm
      obtain ⟨-, bytes, rest, _, hrecv, hne, -⟩ := h
      exact hne (hnone bytes rest hrecv)
  | res =>
    have hnot : ¬ w.Cuts handle wake := fun h ↦ by cases hstate.symm.trans h.1
    obtain ⟨_, _, _, _, _, hle, hcap, _⟩ := hs.intact
    rw [connectionIo, show (w.woken wake).conn.state = .res from hstate, and_iff_left hnot]
    rcases stateRes_spec (w.woken wake) hle hcap with ⟨_, -, heq⟩ | ⟨-, _, _, _, -, -, heq⟩ <;>
    · dsimp only
      rw [heq]
      exact Iff.rfl
  | fin => exact absurd hstate hfin

/-- A run, call by call. -/
theorem noCut_run (hs : w.StreamInv handle) (hroom : w.Room) (wakes : List (Wake D)) :
    (run handle w wakes).state.NoCut ↔ w.NoCut ∧ ∀ n w' wake,
      run handle w (wakes.take n) = .ret () w' → wakes[n]? = some wake → ¬ w'.Cuts handle wake := by
  induction wakes generalizing w with
  | nil => exact (and_iff_left fun _ _ _ _ hwake ↦ by cases hwake).symm
  | cons wake wakes ih =>
    by_cases hfin : w.conn.state = .fin
    · -- the connection is marked for deletion, and is not served again
      rw [run_fin hfin]
      refine (and_iff_left (a := w.NoCut) fun n w' wake' hrun _ hcuts ↦ ?_).symm
      rw [run_fin hfin] at hrun
      cases hrun
      cases hfin.symm.trans hcuts.1
    · have hhead : ∀ wakes, run handle w (wake :: wakes)
          = (connectionIo handle (w.woken wake)).bind fun _ w ↦ run handle w wakes :=
        fun wakes ↦ if_neg hfin
      have hio := noCut_connectionIo hs hroom hfin wake
      have hsplit : (∀ n w' wake', run handle w ((wake :: wakes).take n) = .ret () w' →
            (wake :: wakes)[n]? = some wake' → ¬ w'.Cuts handle wake') ↔
          ¬ w.Cuts handle wake ∧ ∀ n w' wake',
            (connectionIo handle (w.woken wake)).bind (fun _ w ↦ run handle w (wakes.take n))
              = .ret () w' → wakes[n]? = some wake' → ¬ w'.Cuts handle wake' := by
        refine ⟨fun h ↦ ⟨h 0 w wake rfl rfl, fun n w' wake' hrun hwake ↦ ?_⟩, fun h n ↦ ?_⟩
        · exact h (n + 1) w' wake' ((hhead _).trans hrun) hwake
        · cases n with
          | zero =>
            intro w' wake' hrun hwake
            cases hrun
            cases hwake
            exact h.1
          | succ n =>
            exact fun w' wake' hrun hwake ↦ h.2 n w' wake' ((hhead _).symm.trans hrun) hwake
      rw [hhead, hsplit, ← and_assoc, ← hio]
      have hkeep := (hs.woken wake).io (J := fun _ ↦ True) (Q := fun _ ↦ True)
        (F := fun _ _ ↦ True) hroom hfin (fun _ _ _ _ ↦ True.intro) (fun _ _ _ _ _ ↦ True.intro)
        (fun _ o _ _ ↦ o.sat_true.mono (fun _ _ _ ↦ ⟨fun _ ↦ True.intro, fun _ ↦ True.intro⟩)
          fun _ _ h ↦ h) fun _ _ _ ↦ True.intro
      generalize connectionIo handle (w.woken wake) = o at hkeep
      cases o with
      | ret _ w' => exact ih hkeep.1 hkeep.2.1
      | stop f w' => exact (and_iff_left fun _ _ _ hrun ↦ by cases hrun).symm

end World

/-- **Receive-buffer safety.** In every run of a connection from `accept` the read buffer stays
within its bounds. Every request executed is complete in the buffer, no size wraps around, no copy
leaves the buffers and no assertion fails, exactly if at no call of `connection_io` the bytes that
arrive leave, behind the requests that they complete, a part of one that `parse_req` accepts with
the bytes that already stand behind it. -/
theorem receive_buffer_safe_iff_cuts (handle : D → List Bytes → Option (D × Bytes))
    (rbuf wbuf : Buffer) (db : D) (wakes : List (Wake D)) :
    (run handle (accepted rbuf wbuf db) wakes).Sat
      (fun _ w ↦ w.Buffered ∧ (w.Sound ↔ ∀ n w' wake,
        run handle (accepted rbuf wbuf db) (wakes.take n) = .ret () w' → wakes[n]? = some wake →
          ¬ w'.Cuts handle wake))
      fun f w ↦ w.Buffered ∧ (w.Sound ∧ f = .noReturn ↔ ∀ n w' wake,
        run handle (accepted rbuf wbuf db) (wakes.take n) = .ret () w' → wakes[n]? = some wake →
          ¬ w'.Cuts handle wake) := by
  have hstream : (accepted rbuf wbuf db).StreamInv handle := World.streamInv_accepted rbuf wbuf db
  have hiff := World.noCut_run hstream (World.room_accepted rbuf wbuf db) wakes
  rw [and_iff_right (World.recvInv_accepted rbuf wbuf db).noCut] at hiff
  have hrun := World.run_recvInv handle rbuf wbuf db wakes
  rw [← hiff]
  generalize run handle (accepted rbuf wbuf db) wakes = o at hrun
  cases o with
  | ret _ w => exact ⟨hrun.buffered, fun _ ↦ hrun.noCut, fun _ ↦ hrun.sound⟩
  | stop f w => exact hrun

/-- The four bytes of a length, received alone into a buffer full of zeros: a request is executed
of which nothing but its length has been received. -/
theorem not_receive_buffer_safe_after_length :
    ∃ e ∈ (run doRequest (accepted (fun _ ↦ 0) (fun _ ↦ 0) Mem.empty)
      [deliver [4, 0, 0, 0]]).state.execs,
        e.conn.rbufSize < e.len + 4 ∧ e.pending = [4, 0, 0, 0] := by
  set w₀ : World (Mem ℤ) := accepted (fun _ ↦ 0) (fun _ ↦ 0) Mem.empty
  obtain ⟨rbuf, hcopy, hio⟩ := stateReq_data doRequest (w := w₀.woken (deliver [4, 0, 0, 0])) []
    rfl (by decide) (by decide)
  set w := (w₀.woken (deliver [4, 0, 0, 0])).filled [] [4, 0, 0, 0] rbuf with hw
  have hrun : run doRequest w₀ [deliver [4, 0, 0, 0]] = serveRequests doRequest w :=
    (run_singleton (by decide) _).trans hio
  obtain rfl := Option.some_inj.mp (Eq.symm hcopy)
  have hrequest : w.conn.request = some [] := rfl
  have htried := tryOneRequest_tried doRequest (w := w) ⟨rfl, rfl, rfl⟩ (by decide)
  rw [hrun]
  generalize hres : tryOneRequest doRequest w = o at htried
  cases htried with
  | short h4 => exact absurd h4 (by decide)
  | refused h4 hreq =>
    rw [hrequest] at hreq
    cases hreq
  | noReturn h4 hreq hdb =>
    obtain rfl := Option.some_inj.mp (hrequest.symm.trans hreq)
    cases hdb
  | cut h4 hreq hdb hcut hwbuf =>
    rw [show serveRequests doRequest w = _ from Outcome.whileTrue_of_stop hres]
    exact ⟨_, List.mem_append_right _ (List.mem_singleton_self _), hcut, rfl⟩
  | answered h4 hreq hdb hfull => exact absurd hfull (by decide)

end RedisOnC
