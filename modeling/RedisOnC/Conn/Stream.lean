import RedisOnC.Conn.Served

/-!
# The response stream

What the client has been sent is, at any time, the frames of all earlier replies and the part of
the current one that `wbuf_sent` counts. The invariant adds that a connection that waits for
requests has no current reply, so `try_one_request` never overwrites an unsent one.
-/

namespace RedisOnC

variable {D : Type} {handle : D → List Bytes → Option (D × Bytes)} {w w' : World D}

/-- The replies so far, in the order of the requests. -/
def World.replies (w : World D) : List Bytes := w.execs.filterMap Exec.reply

/-- The bytes sent are those of the earlier replies and the first `wbuf_sent` bytes of the current
one, if there is one, which the write buffer holds. -/
def World.StreamIntact (w : World D) : Prop :=
  ∃ earlier current, w.replies = earlier ++ current ∧ current.length ≤ 1 ∧
    w.conn.wbuf.slice 0 w.conn.wbufSize = current.flatMap replyFrame ∧
    w.conn.wbufSent ≤ w.conn.wbufSize ∧ w.conn.wbufSize ≤ sizeofBuf ∧
    w.sent = earlier.flatMap replyFrame ++ (current.flatMap replyFrame).take w.conn.wbufSent

/-- Each request was executed while no response was unsent, and its reply is what `do_request`
returned, or the error for a reply that is too big. -/
def World.Answers (handle : D → List Bytes → Option (D × Bytes)) (w : World D) : Prop :=
  ∀ e ∈ w.execs, e.conn.Idle ∧ ∀ r, e.reply = some r → 4 + r.length ≤ kMaxMsg ∧
    ∃ db db' out, handle db e.cmd = some (db', out) ∧ r = capReply out

/-- The invariant of a connection between two calls of `connection_io`. -/
structure World.StreamInv (handle : D → List Bytes → Option (D × Bytes)) (w : World D) : Prop where
  intact : w.StreamIntact
  answers : w.Answers handle
  idle : w.conn.state = .req → w.conn.Idle

namespace World

/-- Sending keeps the stream intact, and ends with the connection ready for the next request only
when the response is out. -/
theorem StreamInv.sends (h : w.StreamInv handle) (hres : w.conn.state ≠ .req)
    (hsends : w.Sends (.ret () w')) : w'.StreamInv handle := by
  obtain ⟨earlier, current, hreplies, hlen, hwbuf, hle, hcap, hsent⟩ := h.intact
  have hslice : ∀ n, w.conn.wbufSent + n ≤ w.conn.wbufSize →
      w.conn.wbuf.slice w.conn.wbufSent n
        = ((current.flatMap replyFrame).drop w.conn.wbufSent).take n := by
    intro n hn
    rw [← hwbuf, Buffer.drop_slice hle, Nat.zero_add, Buffer.take_slice (by omega)]
  rcases hsends with ⟨sends, -, heq⟩ | ⟨-, sends, n, state, hstate, hn, heq⟩
  · cases heq
    refine ⟨⟨earlier ++ current, [], ?_, Nat.zero_le 1, rfl, Nat.le_refl 0, Nat.zero_le _, ?_⟩,
      h.answers, fun _ ↦ ⟨rfl, rfl, rfl⟩⟩
    · rw [List.append_nil]
      exact hreplies
    · have hrest : w.conn.wbuf.slice w.conn.wbufSent (w.conn.wbufSize - w.conn.wbufSent)
          = (current.flatMap replyFrame).drop w.conn.wbufSent := by
        rw [← hwbuf, Buffer.drop_slice hle, Nat.zero_add]
      calc w.sent ++ w.conn.wbuf.slice w.conn.wbufSent (w.conn.wbufSize - w.conn.wbufSent)
          = earlier.flatMap replyFrame ++ current.flatMap replyFrame := by
            rw [hsent, hrest, List.append_assoc, List.take_append_drop]
        _ = (earlier ++ current).flatMap replyFrame ++ [] := by
            rw [List.flatMap_append, List.append_nil]
  · cases heq
    refine ⟨⟨earlier, current, hreplies, hlen, hwbuf, hn, hcap, ?_⟩, h.answers, fun hreq ↦ ?_⟩
    · rw [flushed, hsent, hslice n hn, List.append_assoc, ← List.take_add]
    · rcases hstate with rfl | ⟨rfl, -⟩
      · exact absurd hreq hres
      · cases hreq

theorem StreamInv.sent_eq (h : w.StreamInv handle) (hidle : w.conn.Idle) :
    w.sent = w.replies.flatMap replyFrame := by
  obtain ⟨earlier, current, hreplies, -, hwbuf, -, -, hsent⟩ := h.intact
  rw [hidle.wbufSize, Buffer.slice_zero] at hwbuf
  rw [hsent, hreplies, List.flatMap_append, ← hwbuf, List.take_nil]

private theorem replies_snoc {e : Exec} (hexecs : w'.execs = w.execs ++ [e]) :
    w'.replies = w.replies ++ e.reply.toList := by
  rw [replies, hexecs, List.filterMap_append]
  cases hreply : e.reply <;> simp [replies, hreply]

private theorem intact_of_reply (h : w.StreamInv handle) (hidle : w.conn.Idle) {e : Exec}
    {out : Bytes} (hexecs : w'.execs = w.execs ++ [e]) (hreply : e.reply = some out)
    (hsent : w'.sent = w.sent)
    (hsize : w'.conn.wbufSize = out.length + 4) (hzero : w'.conn.wbufSent = 0)
    (hwbuf : w'.conn.wbuf.slice 0 (out.length + 4) = replyFrame out)
    (hout : 4 + out.length ≤ kMaxMsg) : w'.StreamIntact := by
  refine ⟨w.replies, [out], ?_, Nat.le_refl 1, ?_, ?_, ?_, ?_⟩
  · rw [replies_snoc hexecs, hreply, Option.toList_some]
  · rw [hsize, hwbuf, List.flatMap_singleton]
  · rw [hzero]
    exact Nat.zero_le _
  · rw [hsize, Nat.add_comm]
    exact hout.trans (by decide)
  · rw [hsent, h.sent_eq hidle, hzero, List.take_zero, List.append_nil]

private theorem answers_snoc (h : w.Answers handle) {e : Exec} (hidle : e.conn.Idle)
    (he : ∀ r, e.reply = some r → 4 + r.length ≤ kMaxMsg ∧
      ∃ db db' out, handle db e.cmd = some (db', out) ∧ r = capReply out)
    (hexecs : w'.execs = w.execs ++ [e]) : w'.Answers handle := by
  intro e' he'
  rw [hexecs, List.mem_append, List.mem_singleton] at he'
  rcases he' with he' | rfl
  · exact h e' he'
  · exact ⟨hidle, he⟩

/-- One request: the stream stays intact, also if the server stops there. -/
theorem StreamInv.tried (h : w.StreamInv handle) (hreq : w.conn.state = .req)
    (hcap : w.conn.rbufSize ≤ sizeofBuf) :
    (tryOneRequest handle w).Sat
      (fun b w' ↦ w'.StreamInv handle ∧ (b = true → w'.conn.state = .req))
      fun _ w' ↦ w'.StreamIntact ∧ w'.Answers handle := by
  have hidle := h.idle hreq
  -- what is logged is what `do_request` has replied
  have hanswer : ∀ {cmd db out} {e : Exec} {w' : World D}, handle w.db cmd = some (db, out) →
      e = ⟨w.conn, w.received.drop w.consumed, w.conn.header, cmd, some (capReply out)⟩ →
      w'.execs = w.execs ++ [e] → w'.Answers handle := by
    rintro cmd db out e w' hdb rfl hexecs
    refine answers_snoc h.answers hidle (fun r hr ↦ ?_) hexecs
    obtain rfl := Option.some_inj.mp hr
    exact ⟨length_capReply_le out, w.db, db, out, hdb, rfl⟩
  generalize hres : tryOneRequest handle w = o
  have htried := hres ▸ tryOneRequest_tried handle hidle hcap
  cases htried with
  | short => exact ⟨⟨h.intact, h.answers, h.idle⟩, fun hb ↦ by cases hb⟩
  | refused => exact ⟨⟨h.intact, h.answers, fun hfin ↦ by cases hfin⟩, fun hb ↦ by cases hb⟩
  | noReturn _ _ hdb =>
    obtain ⟨earlier, current, hreplies, hintact⟩ := h.intact
    refine ⟨⟨earlier, current, ?_, hintact⟩, answers_snoc h.answers hidle ?_ rfl⟩
    · rw [replies_snoc rfl, ← hreplies]
      exact List.append_nil _
    · exact fun r hr ↦ by cases hr
  | cut _ _ hdb _ hwbuf =>
    refine ⟨intact_of_reply h hidle rfl rfl rfl rfl hidle.wbufSent hwbuf
      (length_capReply_le _), hanswer hdb rfl rfl⟩
  | @answered cmd db out wbuf w' _ _ hdb _ hwbuf hsends =>
    have hinv : (w.answered cmd db (capReply out) wbuf).StreamInv handle := by
      refine ⟨?_, hanswer hdb rfl rfl, fun hstate ↦ by cases hstate⟩
      exact intact_of_reply h hidle rfl rfl rfl rfl hidle.wbufSent hwbuf (length_capReply_le out)
    exact ⟨hinv.sends (fun hstate ↦ by cases hstate) hsends, fun hb ↦ of_decide_eq_true hb⟩

/-- **One call of `connection_io`.** The rule for a property `J` of the connection while requests
are served and a property `Q` of it at the end. -/
theorem StreamInv.io {J Q : World D → Prop} {F : Fault → World D → Prop} (h : w.StreamInv handle)
    (hroom : w.Room) (hfin : w.conn.state ≠ .fin)
    (hnone : w.conn.state = .req → ∀ recvs state, state = .req ∨ state = .fin →
      Q ({ w with recvs := recvs }.setState state))
    (hfill : ∀ recvs bytes rbuf, w.conn.rbufSize + bytes.length ≤ sizeofBuf →
      rbuf.slice 0 (w.conn.rbufSize + bytes.length) = w.conn.rbuf.slice 0 w.conn.rbufSize ++ bytes →
      J (w.filled recvs bytes rbuf))
    (hstep : ∀ s o, J s → Tried handle s o →
      o.Sat (fun b s' ↦ (b = true → J s') ∧ (b = false → Q s')) F)
    (hsends : w.conn.state = .res → ∀ w', w.Sends (.ret () w') → Q w') :
    (connectionIo handle w).Sat (fun _ w' ↦ w'.StreamInv handle ∧ w'.Room ∧ Q w')
      fun f w' ↦ (w'.StreamIntact ∧ w'.Answers handle) ∧ F f w' := by
  rw [connectionIo]
  cases hstate : w.conn.state with
  | req =>
    -- the invariant of the loop: the stream, the state and the room
    refine stateReq_sat (hroom hfin) (I := fun s ↦
      (s.StreamInv handle ∧ s.conn.state = .req ∧ s.conn.rbufSize ≤ sizeofBuf) ∧ J s) ?_ ?_ ?_
    · intro recvs state hor
      refine ⟨⟨h.intact, h.answers, fun hreq ↦ ?_⟩, fun _ ↦ hroom hfin, ?_⟩
      · obtain ⟨-, hsize, hsent⟩ := h.idle hstate
        exact ⟨hreq, hsize, hsent⟩
      · exact hnone hstate recvs state (hstate ▸ hor)
    · intro recvs bytes rbuf _ hfit hread
      obtain ⟨-, hsize, hsent⟩ := h.idle hstate
      have hinv : (w.filled recvs bytes rbuf).StreamInv handle :=
        ⟨h.intact, h.answers, fun hreq ↦ ⟨hreq, hsize, hsent⟩⟩
      exact ⟨⟨hinv, hstate, hfit⟩, hfill recvs bytes rbuf hfit hread⟩
    · rintro s ⟨⟨hs, hreq, hcap⟩, hJ⟩
      have htried := tryOneRequest_tried handle (hs.idle hreq) hcap
      have hsat := hs.tried hreq hcap
      have hextra := hstep s _ hJ htried
      generalize tryOneRequest handle s = o at htried hsat hextra
      cases o with
      | ret b s' =>
        obtain ⟨hroom', hcap'⟩ := htried.room hcap
        exact ⟨fun hb ↦ ⟨⟨hsat.1, hsat.2 hb, hcap'⟩, hextra.1 hb⟩,
          fun hb ↦ ⟨hsat.1, hroom', hextra.2 hb⟩⟩
      | stop f s' => exact ⟨hsat, hextra⟩
  | res =>
    obtain ⟨_, _, _, _, _, hle, hcap, _⟩ := h.intact
    have hspec := stateRes_spec w hle hcap
    generalize stateRes w = o at hspec
    obtain ⟨w', rfl⟩ : ∃ w', o = .ret () w' := by
      rcases hspec with ⟨_, -, heq⟩ | ⟨-, _, _, _, -, -, heq⟩ <;> exact ⟨_, heq⟩
    refine ⟨h.sends (by rw [hstate]; decide) hspec, fun _ ↦ ?_, hsends hstate w' hspec⟩
    rw [hspec.rbufSize_eq]
    exact hroom hfin
  | fin => exact absurd hstate hfin

theorem StreamInv.woken (h : w.StreamInv handle) (wake : Wake D) :
    (w.woken wake).StreamInv handle :=
  ⟨h.intact, h.answers, h.idle⟩

theorem streamInv_accepted (rbuf wbuf : Buffer) (db : D) :
    (accepted rbuf wbuf db).StreamInv handle := by
  refine ⟨⟨[], [], rfl, Nat.zero_le 1, rfl, Nat.le_refl 0, Nat.zero_le _, rfl⟩, ?_, ?_⟩
  · exact fun e he ↦ absurd he List.not_mem_nil
  · exact fun _ ↦ ⟨rfl, rfl, rfl⟩

theorem room_accepted (rbuf wbuf : Buffer) (db : D) : (accepted rbuf wbuf db).Room :=
  fun _ ↦ (by decide : 0 < sizeofBuf)

theorem run_streamInv (rbuf wbuf : Buffer) (db : D) (wakes : List (Wake D)) :
    (run handle (accepted rbuf wbuf db) wakes).Sat (fun _ w ↦ w.StreamInv handle ∧ w.Room)
      fun _ w ↦ w.StreamIntact ∧ w.Answers handle := by
  refine run_sat (I := fun w ↦ w.StreamInv handle ∧ w.Room) ?_
    ⟨streamInv_accepted rbuf wbuf db, room_accepted rbuf wbuf db⟩ wakes
  rintro w wake ⟨h, hroom⟩ hfin
  have hio := (h.woken wake).io (J := fun _ ↦ True) (Q := fun _ ↦ True) (F := fun _ _ ↦ True) hroom
    hfin (fun _ _ _ _ ↦ True.intro) (fun _ _ _ _ _ ↦ True.intro)
    (fun _ o _ _ ↦ o.sat_true.mono (fun _ _ _ ↦ ⟨fun _ ↦ True.intro, fun _ ↦ True.intro⟩)
      fun _ _ h ↦ h) fun _ _ _ ↦ True.intro
  exact hio.mono (fun _ _ h ↦ ⟨h.1, h.2.1⟩) fun _ _ h ↦ h.1

end World

/-- **Response stream integrity.** For every run of a connection from `accept`, whatever the client
sends, `do_request` answers and `send` accepts, also up to the point where the server stops. -/
theorem response_stream_intact (handle : D → List Bytes → Option (D × Bytes)) (rbuf wbuf : Buffer)
    (db : D) (wakes : List (Wake D)) :
    (run handle (accepted rbuf wbuf db) wakes).Sat
      (fun _ w ↦ w.StreamIntact ∧ w.Answers handle)
      fun _ w ↦ w.StreamIntact ∧ w.Answers handle :=
  (World.run_streamInv rbuf wbuf db wakes).mono (fun _ _ h ↦ ⟨h.1.intact, h.1.answers⟩)
    fun _ _ h ↦ h

end RedisOnC
