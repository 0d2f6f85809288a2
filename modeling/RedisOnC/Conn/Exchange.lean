import RedisOnC.Conn.Record

/-!
# A request and its reply

A client that sends a request and then waits, as `client.cpp` does: the request arrives whole at a
connection that has nothing to do, and until the reply is out there are rounds in which `recv` has
nothing and `send` takes at least one byte. The reply gets out, and the connection has nothing to do
again.

The argument is one about the bytes of the reply that are not sent: `send` makes them fewer in every
round, since `state_res` goes on where it was.
-/

namespace RedisOnC

variable {D : Type} {handle : D → List Bytes → Option (D × Bytes)} {w w' : World D}

/-- A round in which `recv` has nothing. -/
def Wake.Silent (wake : Wake D) : Prop := ∀ r ∈ wake.recvs, r = .eintr ∨ r = .eagain

/-- A round in which `recv` has nothing and `send` takes something. -/
structure Wake.Takes (wake : Wake D) : Prop where
  silent : wake.Silent
  takes : ∃ n rest, retrySend wake.sends = (.accepted (n + 1), rest)
  noError : .error ∉ wake.sends

theorem retryRecv_silent {wake : Wake D} (h : wake.Silent) :
    ∃ rest, retryRecv wake.recvs = (.eagain, rest) := by
  rw [Wake.Silent] at h
  generalize wake.recvs = recvs at h
  induction recvs with
  | nil => exact ⟨[], rfl⟩
  | cons r recvs ih =>
    rcases h r (List.mem_cons_self ..) with rfl | rfl
    · exact ih fun r hr ↦ h r (List.mem_cons_of_mem _ hr)
    · exact ⟨recvs, rfl⟩

theorem mem_of_mem_retrySend {sends rest : List SendResult} {result r : SendResult}
    (h : retrySend sends = (result, rest)) (hr : r ∈ rest) : r ∈ sends := by
  induction sends with
  | nil =>
    obtain ⟨-, rfl⟩ := Prod.mk.inj h
    exact hr
  | cons s sends ih =>
    cases s with
    | eintr => exact List.mem_cons_of_mem _ (ih h)
    | _ =>
      obtain ⟨-, rfl⟩ := Prod.mk.inj h
      exact List.mem_cons_of_mem _ hr

theorem run_cons_of_ret {wake : Wake D} (hopen : w.conn.state ≠ .fin)
    (hio : connectionIo handle (w.woken wake) = .ret () w') (wakes : List (Wake D)) :
    run handle w (wake :: wakes) = run handle w' wakes := by
  rw [← List.singleton_append, run_append, run_singleton hopen, hio, Outcome.ret_bind]

namespace World

/-- The bytes of the reply that are not sent. -/
def unsent (w : World D) : ℕ := w.conn.wbufSize - w.conn.wbufSent

theorem stateRes_takes (hsent : w.conn.wbufSent ≤ w.conn.wbufSize)
    (hsize : w.conn.wbufSize ≤ sizeofBuf) (hres : w.conn.state = .res) {n : ℕ}
    {rest : List SendResult} (htakes : retrySend w.sends = (.accepted (n + 1), rest))
    (herror : .error ∉ w.sends) :
    ∃ w', RedisOnC.stateRes w = .ret () w' ∧ w.SameInput w' ∧
      (w'.conn.state = .req ∨ w'.conn.state = .res ∧ w'.unsent < w.unsent) := by
  have hround := tryFlushBuffer_eq hsent hsize
  rw [htakes] at hround
  dsimp only at hround
  by_cases hn : w.conn.wbufSize - w.conn.wbufSent ≤ n + 1
  · rw [if_pos hn] at hround
    exact ⟨w.drained rest, Outcome.whileTrue_of_false hround,
      ⟨rfl, rfl, rfl, rfl, rfl, rfl, rfl, rfl⟩, Or.inl rfl⟩
  · rw [if_neg hn] at hround
    rw [not_le] at hn
    set v := w.flushed rest (n + 1) w.conn.state
    have hsame : w.SameInput v := ⟨rfl, rfl, rfl, rfl, rfl, rfl, rfl, rfl⟩
    have hv : v.conn.wbufSent ≤ v.conn.wbufSize := by
      change w.conn.wbufSent + (n + 1) ≤ w.conn.wbufSize
      omega
    have hloop : RedisOnC.stateRes w = RedisOnC.stateRes v := Outcome.whileTrue_of_true hround
    have hrest : .error ∉ v.sends := fun hmem ↦ herror (mem_of_mem_retrySend htakes hmem)
    rw [hloop]
    rcases stateRes_spec v hv hsize with ⟨sends, -, heq⟩ | ⟨-, sends, k, state, hstate, hk, heq⟩
    · exact ⟨_, heq, hsame.trans ⟨rfl, rfl, rfl, rfl, rfl, rfl, rfl, rfl⟩, Or.inl rfl⟩
    · refine ⟨_, heq, hsame.trans ⟨rfl, rfl, rfl, rfl, rfl, rfl, rfl, rfl⟩, Or.inr ⟨?_, ?_⟩⟩
      · rcases hstate with rfl | ⟨-, hmem⟩
        · exact hres
        · exact absurd hmem hrest
      · change w.conn.wbufSize - (w.conn.wbufSent + (n + 1) + k) < w.conn.wbufSize - w.conn.wbufSent
        omega

/-- The connection has executed some requests, and its read buffer is empty. -/
structure Quiet (handle : D → List Bytes → Option (D × Bytes)) (cs : List Call) (w : World D) :
    Prop where
  stream : w.StreamInv handle
  room : w.Room
  calls : w.calls = cs
  empty : w.conn.rbufSize = 0

variable {cs : List Call} {wake : Wake D} {wakes : List (Wake D)}

private theorem Quiet.congr (h : w.Quiet handle cs) (hopen : w.conn.state ≠ .fin)
    (hio : connectionIo handle (w.woken wake) = .ret () w')
    (hexecs : w'.execs = w.execs) (hsize : w'.conn.rbufSize = w.conn.rbufSize) :
    w'.Quiet handle cs := by
  obtain ⟨hstream, hroom, -⟩ := ((h.stream.woken wake).io_executes h.room hopen).of_ret hio
  refine ⟨hstream, hroom, ?_, hsize.trans h.empty⟩
  rw [World.calls, hexecs]
  exact h.calls

private theorem Quiet.round_req (h : w.Quiet handle cs) (hreq : w.conn.state = .req)
    (hsilent : wake.Silent) :
    ∃ w', connectionIo handle (w.woken wake) = .ret () w' ∧ w'.Quiet handle cs ∧
      w'.conn.state = .req := by
  have hopen : w.conn.state ≠ .fin := by
    rw [hreq]
    exact ConnState.noConfusion
  obtain ⟨left, hrecv⟩ := retryRecv_silent hsilent
  have hroom : ¬ sizeofBuf ≤ (w.woken wake).conn.rbufSize := not_le.mpr (h.room hopen)
  have hfill : tryFillBuffer handle (w.woken wake)
      = .ret false { w.woken wake with recvs := left } := by
    rw [tryFillBuffer]
    dsimp only
    rw [if_neg hroom, show retryRecv (w.woken wake).recvs = _ from hrecv]
  have hio : connectionIo handle (w.woken wake) = .ret () { w.woken wake with recvs := left } := by
    rw [connectionIo, show (w.woken wake).conn.state = .req from hreq]
    exact Outcome.whileTrue_of_false hfill
  exact ⟨_, hio, h.congr hopen hio rfl rfl, hreq⟩

private theorem connectionIo_res (handle : D → List Bytes → Option (D × Bytes))
    (hres : w.conn.state = .res) :
    connectionIo handle (w.woken wake) = RedisOnC.stateRes (w.woken wake) := by
  rw [connectionIo, show (w.woken wake).conn.state = .res from hres]

theorem Quiet.round (h : w.Quiet handle cs) (hopen : w.conn.state ≠ .fin)
    (hsilent : wake.Silent) :
    ∃ w', connectionIo handle (w.woken wake) = .ret () w' ∧ w'.Quiet handle cs := by
  cases hstate : w.conn.state with
  | req =>
    obtain ⟨w', hio, h', -⟩ := h.round_req hstate hsilent
    exact ⟨w', hio, h'⟩
  | res =>
    obtain ⟨-, -, -, -, -, hsent, hcap, -⟩ := h.stream.intact
    have hspec := stateRes_spec (w.woken wake) hsent hcap
    obtain ⟨w', hret⟩ : ∃ w', RedisOnC.stateRes (w.woken wake) = .ret () w' := by
      rcases hspec with ⟨_, -, heq⟩ | ⟨-, _, _, _, -, -, heq⟩ <;> exact ⟨_, heq⟩
    rw [hret] at hspec
    have hio := (connectionIo_res handle hstate).trans hret
    exact ⟨w', hio, h.congr hopen hio hspec.sameInput.execs hspec.sameInput.rbufSize⟩
  | fin => exact absurd hstate hopen

theorem Quiet.round_takes (h : w.Quiet handle cs) (hopen : w.conn.state ≠ .fin)
    (hwake : wake.Takes) :
    ∃ w', connectionIo handle (w.woken wake) = .ret () w' ∧ w'.Quiet handle cs ∧
      (w'.conn.state = .req ∨ w'.conn.state = .res ∧ w'.unsent < w.unsent) := by
  cases hstate : w.conn.state with
  | req =>
    obtain ⟨w', hio, h', hreq⟩ := h.round_req hstate hwake.silent
    exact ⟨w', hio, h', Or.inl hreq⟩
  | res =>
    obtain ⟨n, rest, htakes⟩ := hwake.takes
    obtain ⟨-, -, -, -, -, hsent, hcap, -⟩ := h.stream.intact
    obtain ⟨w', hret, hsame, hnext⟩ :=
      stateRes_takes (w := w.woken wake) hsent hcap hstate htakes hwake.noError
    have hio := (connectionIo_res handle hstate).trans hret
    exact ⟨w', hio, h.congr hopen hio hsame.execs hsame.rbufSize, hnext⟩
  | fin => exact absurd hstate hopen

theorem Quiet.run (h : w.Quiet handle cs) (hwakes : ∀ wake ∈ wakes, wake.Silent) :
    ∃ w', RedisOnC.run handle w wakes = .ret () w' ∧ w'.Quiet handle cs := by
  induction wakes generalizing w with
  | nil => exact ⟨w, rfl, h⟩
  | cons wake wakes ih =>
    by_cases hfin : w.conn.state = .fin
    · exact ⟨w, run_fin hfin _, h⟩
    · obtain ⟨w₁, hio, h₁⟩ := h.round hfin (hwakes wake (List.mem_cons_self ..))
      rw [run_cons_of_ret hfin hio]
      exact ih h₁ fun v hv ↦ hwakes v (List.mem_cons_of_mem _ hv)

/-- **The reply gets out.** After more rounds than bytes there is nothing left to send. -/
theorem Quiet.run_takes (h : w.Quiet handle cs) (hopen : w.conn.state ≠ .fin)
    (hwakes : ∀ wake ∈ wakes, wake.Takes)
    (hlen : w.conn.state = .req ∨ w.unsent < wakes.length) :
    ∃ w', RedisOnC.run handle w wakes = .ret () w' ∧ w'.conn.state = .req := by
  induction wakes generalizing w with
  | nil => exact ⟨w, rfl, hlen.resolve_right (Nat.not_lt_zero _)⟩
  | cons wake wakes ih =>
    obtain ⟨w₁, hio, h₁, hnext⟩ := h.round_takes hopen (hwakes wake (List.mem_cons_self ..))
    have hrest : w₁.conn.state = .req ∨ w₁.unsent < wakes.length := by
      refine hnext.imp_right fun hlt ↦ ?_
      rcases hlen with hreq | hlen
      · -- there was nothing left to send
        have hzero : w.unsent = 0 := by
          rw [unsent, (h.stream.idle hreq).wbufSize, Nat.zero_sub]
        exact absurd hlt.2 (by rw [hzero]; exact Nat.not_lt_zero _)
      · exact hlt.2.trans_le (Nat.le_of_lt_succ hlen)
    have hopen₁ : w₁.conn.state ≠ .fin := by
      rcases hnext with heq | ⟨heq, -⟩ <;> rw [heq] <;> exact ConnState.noConfusion
    rw [run_cons_of_ret hopen hio]
    exact ih h₁ hopen₁ (fun v hv ↦ hwakes v (List.mem_cons_of_mem _ hv)) hrest

/-- There is at most one reply to send, the last one. -/
theorem StreamInv.unsent_le (h : w.StreamInv handle) {earlier : List Bytes} {out : Bytes}
    (hreplies : w.replies = earlier ++ [out]) : w.unsent ≤ 4 + out.length := by
  obtain ⟨before, current, heq, hlen, hwbuf, -⟩ := h.intact
  have hsize : w.conn.wbufSize = (current.flatMap replyFrame).length := by
    rw [← hwbuf, Buffer.length_slice]
  apply (Nat.sub_le ..).trans
  rw [hsize]
  rcases current with _ | ⟨r, _ | ⟨r', current⟩⟩
  · exact Nat.zero_le _
  · -- the current reply is the last one
    have hlast := List.append_inj_right' (hreplies.symm.trans heq) rfl
    obtain rfl : out = r := (List.cons_eq_cons.mp hlast).1
    rw [List.flatMap_singleton, replyFrame, List.length_append, length_leBytes]
  · exact absurd hlen (by rw [List.length_cons, List.length_cons]; omega)

theorem replies_of_calls (w : World D) : w.replies = w.calls.filterMap Call.reply := by
  rw [replies, World.calls, List.filterMap_map]
  rfl

/-- **A request and its reply.** The connection has nothing to do. It receives a request, and no
other until it has answered this one. Then the request has been executed once, in the state that the
others have left; when the connection is ready for the next request, the frame of the reply has been
sent and nothing else; and it gets ready, after no more rounds than bytes, as long as `send` takes
something in each. -/
theorem request_reply (h : w.StreamInv handle) (hw : w.Waiting []) {f : Frame} {first : Wake D}
    {rest : List RecvResult} (hfirst : first.recvs = .data f.bytes :: rest) {db : D} {out : Bytes}
    (hdb : handle (first.others w.db) f.cmd = some (db, out))
    (hwakes : ∀ wake ∈ wakes, wake.Silent) :
    ∃ w', RedisOnC.run handle w (first :: wakes) = .ret () w' ∧ w'.StreamInv handle ∧
      w'.calls = w.calls ++ [⟨f.cmd, some (capReply out)⟩] ∧
      (w'.conn.state = .req → w'.Waiting [] ∧ w'.sent = w.sent ++ replyFrame (capReply out)) ∧
      (.error ∉ first.sends → (∀ wake ∈ wakes, wake.Takes) →
        4 + (capReply out).length < wakes.length → w'.conn.state = .req) := by
  have hopen : w.conn.state ≠ .fin := by
    rw [hw.idle.req]
    exact ConnState.noConfusion
  have hroom : w.Room := fun _ ↦ by
    rw [hw.size]
    decide
  obtain ⟨w₁, hio, -, hempty, hcalls, hopen₁⟩ := hw.io_frame handle f first hfirst hdb
  obtain ⟨hstream₁, hroom₁, -⟩ := ((h.woken first).io_executes hroom hopen).of_ret hio
  have hquiet : w₁.Quiet handle (w.calls ++ [⟨f.cmd, some (capReply out)⟩]) :=
    ⟨hstream₁, hroom₁, hcalls, hempty⟩
  have hreplies : ∀ v : World D, v.calls = w.calls ++ [⟨f.cmd, some (capReply out)⟩] →
      v.replies = w.replies ++ [capReply out] := by
    intro v hv
    rw [replies_of_calls, hv, List.filterMap_append, ← replies_of_calls]
    rfl
  obtain ⟨w', hrun, hquiet'⟩ := hquiet.run hwakes
  refine ⟨w', (run_cons_of_ret hopen hio wakes).trans hrun, hquiet'.stream, hquiet'.calls,
    fun hreq ↦ ?_, fun herror htakes hlen ↦ ?_⟩
  · have hidle := hquiet'.stream.idle hreq
    refine ⟨⟨hidle, hquiet'.empty, rfl⟩, ?_⟩
    rw [hquiet'.stream.sent_eq hidle, hreplies w' hquiet'.calls, List.flatMap_append,
      ← h.sent_eq hw.idle, List.flatMap_singleton]
  · have hunsent := (hstream₁.unsent_le (hreplies w₁ hcalls)).trans_lt hlen
    obtain ⟨w'', hrun', hreq⟩ := hquiet.run_takes (hopen₁ herror) htakes (Or.inr hunsent)
    obtain ⟨-, rfl⟩ := Outcome.ret.inj (hrun.symm.trans hrun')
    exact hreq

end World

end RedisOnC
