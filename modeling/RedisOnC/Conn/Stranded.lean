import RedisOnC.Conn.Stream
import RedisOnC.Server.LastWrite

/-!
# Requests that wait in the buffer

A call of `connection_io` that starts in `STATE_REQ` serves every complete request in the buffer.
One that starts in `STATE_RES` sends the response, changes to `STATE_REQ` and returns, and the
requests behind it wait for more bytes of the client.
-/

namespace RedisOnC

variable {D : Type} {handle : D → List Bytes → Option (D × Bytes)} {w w' : World D}

/-- The buffer holds a complete frame. -/
def Conn.HasFrame (c : Conn) : Prop := 4 ≤ c.rbufSize ∧ c.header + 4 ≤ c.rbufSize

namespace World

/-- No request is stranded. -/
def Clear (w : World D) : Prop := w.conn.state = .req → ¬ w.conn.HasFrame

/-- The call of `connection_io` that comes next lets out the last of a response, with a request
behind it. -/
def Strands (w : World D) (wake : Wake D) : Prop :=
  w.conn.state = .res ∧ w.conn.HasFrame ∧
    (drains wake.sends (w.conn.wbufSize - w.conn.wbufSent)).isSome

theorem clear_io_iff (hs : w.StreamInv handle) (hroom : w.Room) (hclear : w.Clear)
    (hfin : w.conn.state ≠ .fin) {wake : Wake D}
    (hio : connectionIo handle (w.woken wake) = .ret () w') : w'.Clear ↔ ¬ w.Strands wake := by
  cases hstate : w.conn.state with
  | req =>
    have hrule := (hs.woken wake).io (J := fun _ ↦ True) (Q := Clear) (F := fun _ _ ↦ True) hroom
      hfin (fun _ _ state hor hreq ↦ ?_) (fun _ _ _ _ _ ↦ True.intro) (fun s o _ htried ↦ ?_)
      fun hres ↦ ?_
    · -- it ends in `STATE_REQ` only by running out of requests
      have hQ := (hrule.of_ret hio).2.2
      refine ⟨fun _ hstrands ↦ ?_, fun _ ↦ hQ⟩
      exact absurd (hstate.symm.trans hstrands.1) (by decide)
    · exact hclear hstate
    · cases htried with
      | short h =>
        refine ⟨fun _ ↦ True.intro, fun _ _ hframe ↦ ?_⟩
        exact absurd hframe.1 (not_le.mpr h)
      | refused => exact ⟨fun _ ↦ True.intro, fun _ hreq ↦ by cases hreq⟩
      | answered =>
        exact ⟨fun _ ↦ True.intro, fun hb hreq ↦ absurd hreq (of_decide_eq_false hb)⟩
      | noReturn => exact True.intro
      | cut => exact True.intro
    · exact absurd (hstate.symm.trans hres) (by decide)
  | res =>
    -- only the response is sent, and what is in the read buffer stays there
    obtain ⟨_, _, _, _, _, hle, hcap, _⟩ := hs.intact
    have hspec := stateRes_spec (w.woken wake) hle hcap
    rw [connectionIo, show (w.woken wake).conn.state = .res from hstate] at hio
    dsimp only at hio
    rw [hio] at hspec
    rcases hspec with ⟨sends, hdrains, heq⟩ | ⟨hdrains, sends, n, state, hor, -, heq⟩
    · cases heq
      constructor
      · exact fun hclear' hstrands ↦ hclear' rfl hstrands.2.1
      · exact fun hnot _ hframe ↦ hnot ⟨hstate, hframe, Option.isSome_of_eq_some hdrains⟩
    · cases heq
      constructor
      · exact fun _ hstrands ↦ Option.isSome_iff_ne_none.mp hstrands.2.2 hdrains
      · rintro - hreq
        have hne : state ≠ .req := by
          rcases hor with rfl | ⟨rfl, -⟩
          · rw [show (w.woken wake).conn.state = .res from hstate]
            decide
          · decide
        exact absurd hreq hne
  | fin => exact absurd hstate hfin

end World

/-- **When no request is stranded.** After every call of `connection_io` that leaves the connection
in `STATE_REQ` its buffer holds no complete frame, exactly if no call lets out the last of a
response with a complete frame behind it. -/
theorem no_stranded_request_iff (handle : D → List Bytes → Option (D × Bytes)) (rbuf wbuf : Buffer)
    (db : D) (wakes : List (Wake D)) :
    (∀ n w, run handle (accepted rbuf wbuf db) (wakes.take n) = .ret () w → w.conn.state = .req →
      ¬ w.conn.HasFrame) ↔
    ∀ n w wake, run handle (accepted rbuf wbuf db) (wakes.take n) = .ret () w →
      wakes[n]? = some wake → ¬ w.Strands wake := by
  have hinv : ∀ n w, run handle (accepted rbuf wbuf db) (wakes.take n) = .ret () w →
      w.StreamInv handle ∧ w.Room := fun n w hrun ↦
    (World.run_streamInv rbuf wbuf db (wakes.take n)).of_ret hrun
  have hnext : ∀ n w wake, run handle (accepted rbuf wbuf db) (wakes.take n) = .ret () w →
      wakes[n]? = some wake → w.conn.state ≠ .fin →
      run handle (accepted rbuf wbuf db) (wakes.take (n + 1))
        = connectionIo handle (w.woken wake) := by
    intro n w wake hrun hwake hfin
    rw [List.take_add_one, hwake, Option.toList_some, run_append, hrun, Outcome.ret_bind,
      run_singleton hfin]
  constructor
  · intro hall n w wake hrun hwake hstrands
    obtain ⟨hs, hroom⟩ := hinv n w hrun
    have hfin : w.conn.state ≠ .fin := fun hfin ↦
      absurd (hfin.symm.trans hstrands.1) (by decide)
    obtain ⟨_, _, _, _, _, hle, hcap, _⟩ := hs.intact
    obtain ⟨w', hio⟩ : ∃ w', connectionIo handle (w.woken wake) = .ret () w' := by
      rw [connectionIo, show (w.woken wake).conn.state = .res from hstrands.1]
      rcases stateRes_spec (w.woken wake) hle hcap with ⟨_, -, heq⟩ | ⟨-, _, _, _, -, -, heq⟩ <;>
        exact ⟨_, heq⟩
    have hclear : w.Clear := fun hreq ↦
      absurd (hreq.symm.trans hstrands.1) (by decide)
    have hnot := (World.clear_io_iff hs hroom hclear hfin hio).mp
      (hall (n + 1) w' ((hnext n w wake hrun hwake hfin).trans hio))
    exact hnot hstrands
  · intro hall n
    induction n with
    | zero =>
      rintro w hrun - hframe
      cases hrun
      exact absurd hframe.1 (by decide : ¬ 4 ≤ 0)
    | succ n ih =>
      intro w' hrun
      -- beyond the last call the state is the same
      obtain hnone | ⟨wake, hwake⟩ : wakes[n]? = none ∨ ∃ wake, wakes[n]? = some wake := by
        cases wakes[n]? with
        | none => exact Or.inl rfl
        | some wake => exact Or.inr ⟨wake, rfl⟩
      · rw [List.take_add_one, hnone, Option.toList_none, List.append_nil] at hrun
        exact ih w' hrun
      · cases hrun' : run handle (accepted rbuf wbuf db) (wakes.take n) with
        | stop f w =>
          rw [List.take_add_one, run_append, hrun'] at hrun
          cases hrun
        | ret u w =>
          obtain ⟨hs, hroom⟩ := hinv n w hrun'
          by_cases hfin : w.conn.state = .fin
          · rw [List.take_add_one, hwake, Option.toList_some, run_append, hrun', Outcome.ret_bind,
              run, if_pos hfin] at hrun
            cases hrun
            exact ih _ hrun'
          · rw [hnext n w wake hrun' hwake hfin] at hrun
            exact (World.clear_io_iff hs hroom (ih w hrun') hfin hrun).mpr
              (hall n w wake hrun' hwake)

/-- Two requests received at once, and a client that is slow to read: the first response is
blocked, and when it goes out the second request stays in the buffer. -/
theorem not_no_stranded_request_blocked : ∃ w,
    run doRequest (accepted (fun _ ↦ 0) (fun _ ↦ 0) Mem.empty)
      [{ recvs := [.data (Frame.empty.bytes ++ Frame.empty.bytes)], sends := [.eagain] },
        { sends := [.accepted sizeofBuf] }] = .ret () w ∧
      w.conn.state = .req ∧ w.conn.HasFrame := by
  set w₀ : World (Mem ℤ) := accepted (fun _ ↦ 0) (fun _ ↦ 0) Mem.empty
  set wake : Wake (Mem ℤ) :=
    { recvs := [.data (Frame.empty.bytes ++ Frame.empty.bytes)], sends := [.eagain] }
  obtain ⟨rbuf, hcopy, hio⟩ := stateReq_data doRequest (w := w₀.woken wake) [] rfl
    (by decide) (by decide)
  set w := (w₀.woken wake).filled [] (Frame.empty.bytes ++ Frame.empty.bytes) rbuf with hw
  obtain rfl := Option.some_inj.mp (Eq.symm hcopy)
  have hrequest : w.conn.request = some [] := rfl
  have htried := tryOneRequest_tried doRequest (w := w) ⟨rfl, rfl, rfl⟩ (by decide)
  have hfirst : run doRequest w₀ [wake] = serveRequests doRequest w :=
    (run_singleton (by decide) _).trans hio
  generalize hres : tryOneRequest doRequest w = o at htried
  cases htried with
  | short h4 => exact absurd h4 (by decide)
  | refused h4 hreq =>
    rw [hrequest] at hreq
    cases hreq
  | noReturn h4 hreq hdb =>
    obtain rfl := Option.some_inj.mp (hrequest.symm.trans hreq)
    cases hdb
  | cut h4 hreq hdb hcut => exact absurd hcut (by decide)
  | @answered cmd db out wbuf w' h4 hreq hdb hfull hwbuf hsends =>
    rcases hsends with ⟨_, hd, -⟩ | ⟨-, sends, n, state, hor, hn, heq⟩
    · cases hd
    obtain rfl : state = .res := by
      rcases hor with rfl | ⟨-, herr⟩
      · rfl
      · cases List.mem_singleton.mp (show SendResult.error ∈ [SendResult.eagain] from herr)
    cases heq
    set w₁ := (w.answered cmd db (capReply out) wbuf).flushed sends n .res
    have hloop : run doRequest w₀ [wake] = .ret () w₁ :=
      hfirst.trans (Outcome.whileTrue_of_false hres)
    have hcap : w₁.conn.wbufSize ≤ sizeofBuf := by
      show (capReply out).length + 4 ≤ sizeofBuf
      rw [Nat.add_comm]
      exact (length_capReply_le out).trans (by decide)
    have hstate : w₁.conn.state = .res := rfl
    have hsecond : run doRequest w₁ [{ sends := [.accepted sizeofBuf] }]
        = stateRes (w₁.woken { sends := [.accepted sizeofBuf] }) :=
      run_singleton (by rw [hstate]; decide) _
    have hrun : run doRequest w₀ [wake, { sends := [.accepted sizeofBuf] }]
        = stateRes (w₁.woken { sends := [.accepted sizeofBuf] }) := by
      refine (run_append w₀ [wake] [{ sends := [.accepted sizeofBuf] }]).trans ?_
      rw [hloop, Outcome.ret_bind, hsecond]
    rw [hrun]
    rcases stateRes_spec (w₁.woken { sends := [.accepted sizeofBuf] }) hn hcap with
      ⟨left, -, hdone⟩ | ⟨hnone, -⟩
    · have hsize : w₁.conn.rbufSize = 8 := (by decide : w.conn.rbufSize - (w.conn.header + 4) = 8)
      have hbuf : w₁.conn.rbuf.slice 0 8 = Frame.empty.bytes :=
        (by decide : w.conn.remainder.slice 0 8 = Frame.empty.bytes)
      have hheader : w₁.conn.header = 4 := by
        rw [Conn.header, ← Buffer.take_slice (by decide : 4 ≤ 8), hbuf]
        rfl
      refine ⟨(w₁.woken _).drained left, hdone, rfl, ?_, ?_⟩
      · exact (by decide : 4 ≤ 8).trans hsize.ge
      · show w₁.conn.header + 4 ≤ w₁.conn.rbufSize
        rw [hheader, hsize]
    · have hle : w₁.conn.wbufSize - w₁.conn.wbufSent ≤ sizeofBuf := (Nat.sub_le _ _).trans hcap
      have hsome : drains [.accepted sizeofBuf] (w₁.conn.wbufSize - w₁.conn.wbufSent) = some [] :=
        if_pos hle
      cases hsome.symm.trans hnone

end RedisOnC
