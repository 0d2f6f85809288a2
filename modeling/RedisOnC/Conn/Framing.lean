import RedisOnC.Conn.Served
import RedisOnC.Server.LastWrite

/-!
# Requests cut by the transport

The stream of a client is a list of frames, and `recv` returns it in pieces. As long as every piece
ends less than four bytes behind the last complete frame, the commands executed and the bytes sent
do not depend on the pieces. A piece that ends later leaves a part of a frame in the buffer, and
`try_one_request` reads on into what earlier requests have left there.
-/

namespace RedisOnC

variable {D : Type} {handle : D → List Bytes → Option (D × Bytes)} {w w' : World D}
variable {rest : Bytes} {f : Frame} {frames : List Frame}

/-! ## The reference: one command after the other -/

/-- Commands handed to `do_request` one after the other: those it was called with, the frames of
the replies, and the database, unless a call does not return. -/
def exchange (handle : D → List Bytes → Option (D × Bytes)) :
    D → List (List Bytes) → List (List Bytes) × Bytes × Option D
  | db, [] => ([], [], some db)
  | db, cmd :: cmds =>
    match handle db cmd with
    | none => ([cmd], [], none)
    | some (db, out) =>
      let r := exchange handle db cmds
      (cmd :: r.1, replyFrame (capReply out) ++ r.2.1, r.2.2)

theorem exchange_cons {db db' : D} {cmd : List Bytes} {out : Bytes}
    (h : handle db cmd = some (db', out)) (cmds : List (List Bytes)) :
    exchange handle db (cmd :: cmds) = (cmd :: (exchange handle db' cmds).1,
      replyFrame (capReply out) ++ (exchange handle db' cmds).2.1,
      (exchange handle db' cmds).2.2) := by
  rw [exchange, h]

theorem exchange_cons_none {db : D} {cmd : List Bytes} (h : handle db cmd = none)
    (cmds : List (List Bytes)) : exchange handle db (cmd :: cmds) = ([cmd], [], none) := by
  rw [exchange, h]

theorem exchange_append {db db' : D} {cmds : List (List Bytes)}
    (h : (exchange handle db cmds).2.2 = some db') (cmds' : List (List Bytes)) :
    exchange handle db (cmds ++ cmds') =
      ((exchange handle db cmds).1 ++ (exchange handle db' cmds').1,
      (exchange handle db cmds).2.1 ++ (exchange handle db' cmds').2.1,
      (exchange handle db' cmds').2.2) := by
  induction cmds generalizing db with
  | nil =>
    obtain rfl : db = db' := Option.some_inj.mp h
    rfl
  | cons cmd cmds ih =>
    rw [List.cons_append]
    rcases hdb : handle db cmd with _ | ⟨db₁, out⟩
    · rw [exchange_cons_none hdb] at h
      cases h
    · rw [exchange_cons hdb] at h
      rw [exchange_cons hdb, exchange_cons hdb, ih h, List.cons_append, List.append_assoc]

theorem exchange_append_none {db : D} {cmds : List (List Bytes)}
    (h : (exchange handle db cmds).2.2 = none) (cmds' : List (List Bytes)) :
    exchange handle db (cmds ++ cmds') = exchange handle db cmds := by
  induction cmds generalizing db with
  | nil => cases h
  | cons cmd cmds ih =>
    rw [List.cons_append]
    rcases hdb : handle db cmd with _ | ⟨db₁, out⟩
    · rw [exchange_cons_none hdb, exchange_cons_none hdb]
    · rw [exchange_cons hdb] at h
      rw [exchange_cons hdb, exchange_cons hdb, ih h]

/-- The commands that `do_request` was called with. -/
def World.commands (w : World D) : List (List Bytes) := w.execs.map Exec.cmd

/-- On a part of a frame `try_one_request` does nothing. -/
def Harmless (handle : D → List Bytes → Option (D × Bytes)) (c : Conn) (db : D) : Prop :=
  4 ≤ c.rbufSize → c.rbufSize < c.header + 4 → ∀ w : World D, w.conn = c → w.db = db →
    ∃ w', tryOneRequest handle w = .ret false w' ∧ w'.conn = c ∧ w'.db = db

def World.Harmless (handle : D → List Bytes → Option (D × Bytes)) (w : World D) : Prop :=
  ∀ c ∈ w.tried, RedisOnC.Harmless handle c.1 c.2

/-! ## Frames in the buffer -/

/-- The connection waits for requests, and the buffer holds the bytes `rest`. -/
structure World.Waiting (w : World D) (rest : Bytes) : Prop where
  idle : w.conn.Idle
  size : w.conn.rbufSize = rest.length
  buf : w.conn.rbuf.slice 0 rest.length = rest

/-- Moreover `send` is going to accept every response in full. -/
structure World.Ready (w : World D) (rest : Bytes) : Prop extends w.Waiting rest where
  cap : rest.length ≤ sizeofBuf
  sends : ∃ m, rest.length ≤ m ∧ w.sends = List.replicate m (.accepted sizeofBuf)

namespace World

theorem Ready.header_eq (h : w.Ready rest) (hle : 4 ≤ rest.length)
    (hpre : rest.take 4 = f.bytes.take 4) :
    w.conn.header = f.body.length := by
  rw [Conn.header, ← Buffer.take_slice hle, h.buf, hpre, f.ofLEBytes_take]

theorem Ready.request_eq (h : w.Ready (f.bytes ++ rest)) :
    w.conn.header = f.body.length ∧ w.conn.request = some f.cmd := by
  have hle : 4 + f.body.length ≤ (f.bytes ++ rest).length := by
    rw [List.length_append, f.length_bytes]
    exact Nat.le_add_right _ _
  have hheader : w.conn.header = f.body.length := by
    refine h.header_eq ((Nat.le_add_right 4 _).trans hle) (List.take_append_of_le_length ?_)
    rw [f.length_bytes]
    exact Nat.le_add_right 4 _
  have hbody : w.conn.rbuf.slice 4 f.body.length = f.body := by
    have htake := congrArg (List.take (4 + f.body.length)) h.buf
    rw [Buffer.take_slice hle, Buffer.slice_add, Nat.zero_add, ← f.length_bytes, List.take_left',
      Frame.bytes] at htake
    · exact (List.append_inj htake (by rw [Buffer.length_slice, length_leBytes])).2
    · rfl
  refine ⟨hheader, ?_⟩
  rw [Conn.request, hheader, if_neg (not_lt.mpr f.length_le), f.parseReq_slice hbody]
  rfl

/-- One complete frame at the front of the buffer: its command is executed, and the response is
sent at once. -/
theorem Ready.frame (handle : D → List Bytes → Option (D × Bytes)) (h : w.Ready (f.bytes ++ rest)) :
    (∀ db out, handle w.db f.cmd = some (db, out) → ∃ w', tryOneRequest handle w = .ret true w' ∧
      w'.Ready rest ∧ w'.db = db ∧ w'.commands = w.commands ++ [f.cmd] ∧
      w'.sent = w.sent ++ replyFrame (capReply out) ∧ w'.tried = w.tried ++ [(w.conn, w.db)]) ∧
    (handle w.db f.cmd = none → ∃ w', tryOneRequest handle w = .stop .noReturn w' ∧
      w'.commands = w.commands ++ [f.cmd] ∧ w'.sent = w.sent ∧
      w'.tried = w.tried ++ [(w.conn, w.db)]) := by
  obtain ⟨hheader, hrequest⟩ := h.request_eq
  have hsize : w.conn.rbufSize = f.body.length + 4 + rest.length := by
    rw [h.size, List.length_append, f.length_bytes, Nat.add_comm 4]
  have htried := tryOneRequest_tried handle h.idle (h.size.trans_le h.cap)
  generalize tryOneRequest handle w = o at htried
  have hcommands : ∀ w' : World D, ∀ reply, w'.execs = w.execs ++
      [⟨w.conn, w.received.drop w.consumed, w.conn.header, f.cmd, reply⟩] →
      w'.commands = w.commands ++ [f.cmd] := by
    intro w' reply hexecs
    rw [commands, hexecs, List.map_append]
    rfl
  cases htried with
  | short h4 => omega
  | refused h4 hreq =>
    rw [hrequest] at hreq
    cases hreq
  | noReturn h4 hreq hdb =>
    obtain rfl := Option.some_inj.mp (hrequest.symm.trans hreq)
    refine ⟨fun db out hdb' ↦ ?_, fun _ ↦ ⟨_, rfl, hcommands _ none rfl, rfl, rfl⟩⟩
    rw [hdb] at hdb'
    cases hdb'
  | cut h4 hreq hdb hcut => omega
  | @answered cmd db out wbuf w' h4 hreq hdb hfull hwbuf hsends =>
    obtain rfl := Option.some_inj.mp (hrequest.symm.trans hreq)
    refine ⟨fun db' out' hdb' ↦ ?_, fun hnone ↦ ?_⟩
    · obtain ⟨rfl, rfl⟩ : db = db' ∧ out = out' := by
        rw [hdb] at hdb'
        cases hdb'
        exact ⟨rfl, rfl⟩
      obtain ⟨m, hm, hsendsEq⟩ := h.sends
      rw [← h.size, hsize] at hm
      obtain ⟨m, rfl⟩ : ∃ k, m = k + 1 := Nat.exists_eq_succ_of_ne_zero (by omega)
      have hdrains : drains w.sends ((capReply out).length + 4)
          = some (List.replicate m (.accepted sizeofBuf)) := by
        have hle : (capReply out).length + 4 ≤ sizeofBuf := by
          rw [Nat.add_comm]
          exact (length_capReply_le out).trans (by decide)
        rw [hsendsEq, List.replicate_succ, drains, if_pos hle]
      have hstart : (w.answered f.cmd db (capReply out) wbuf).conn.wbufSent = 0 :=
        h.idle.wbufSent
      rw [Sends, hstart, Nat.sub_zero] at hsends
      rcases hsends with ⟨sends, hd, heq⟩ | ⟨hd, -⟩
      · cases heq
        obtain rfl := Option.some_inj.mp (hdrains.symm.trans hd)
        have hleft : w.conn.rbufSize - (w.conn.header + 4) = rest.length := by omega
        have hrest : w.conn.remainder.slice 0 rest.length = rest := by
          have hdrop := congrArg (List.drop f.bytes.length) h.buf
          rw [← h.size, Buffer.drop_slice (by rw [f.length_bytes]; omega), List.drop_left',
            f.length_bytes, Nat.zero_add, Nat.add_comm 4, ← hheader] at hdrop
          · rw [← hleft, w.conn.slice_remainder, hdrop]
          · rfl
        refine ⟨_, rfl, ⟨⟨⟨rfl, rfl, rfl⟩, hleft, hrest⟩, ?_, m, by omega, rfl⟩, rfl,
          hcommands _ _ rfl, ?_, rfl⟩
        · exact (by omega : rest.length ≤ w.conn.rbufSize).trans (h.size.trans_le h.cap)
        · rw [drained, hstart]
          exact congrArg (w.sent ++ ·) hwbuf
      · rw [show (w.answered f.cmd db (capReply out) wbuf).sends = w.sends from rfl] at hd
        exact absurd (hdrains.symm.trans hd) (by simp)
    · rw [hdb] at hnone
      cases hnone

private theorem Harmless.snoc (h : w.Harmless handle) {c : Conn × D}
    (hc : RedisOnC.Harmless handle c.1 c.2) (htried : w'.tried = w.tried ++ [c]) :
    w'.Harmless handle := by
  intro c' hc'
  rw [htried, List.mem_append, List.mem_singleton] at hc'
  rcases hc' with hc' | rfl
  · exact h c' hc'
  · exact hc

/-- All complete frames at the front of the buffer. -/
theorem Ready.allFrames (h : w.Ready (frames.flatMap Frame.bytes ++ rest)) (hw : w.Harmless handle) :
    (∀ db, (exchange handle w.db (frames.map Frame.cmd)).2.2 = some db →
      ∃ w', serveRequests handle w = serveRequests handle w' ∧ w'.Ready rest ∧ w'.db = db ∧
        w'.commands = w.commands ++ (exchange handle w.db (frames.map Frame.cmd)).1 ∧
        w'.sent = w.sent ++ (exchange handle w.db (frames.map Frame.cmd)).2.1 ∧
        w'.Harmless handle) ∧
    ((exchange handle w.db (frames.map Frame.cmd)).2.2 = none →
      ∃ w', serveRequests handle w = .stop .noReturn w' ∧
        w'.commands = w.commands ++ (exchange handle w.db (frames.map Frame.cmd)).1 ∧
        w'.sent = w.sent ++ (exchange handle w.db (frames.map Frame.cmd)).2.1 ∧
        w'.Harmless handle) := by
  induction frames generalizing w with
  | nil =>
    refine ⟨fun db hdb ↦ ?_, fun hnone ↦ by cases hnone⟩
    obtain rfl : w.db = db := Option.some_inj.mp hdb
    refine ⟨w, rfl, h, rfl, ?_, ?_, hw⟩ <;> exact (List.append_nil _).symm
  | cons f frames ih =>
    rw [List.flatMap_cons, List.append_assoc] at h
    have hharm : RedisOnC.Harmless handle w.conn w.db := by
      intro _ hcut
      have hsize := h.size
      rw [h.request_eq.1] at hcut
      rw [List.length_append, f.length_bytes] at hsize
      omega
    obtain ⟨hsome, hnone⟩ := h.frame handle
    rw [List.map_cons]
    rcases hdb : handle w.db f.cmd with _ | ⟨db₁, out⟩
    · rw [exchange_cons_none hdb]
      refine ⟨(fun db hdb ↦ by cases hdb), fun _ ↦ ?_⟩
      obtain ⟨w', hstop, hcommands, hsent, htried⟩ := hnone hdb
      exact ⟨w', Outcome.whileTrue_of_stop hstop, hcommands, by rw [hsent, List.append_nil],
        hw.snoc hharm htried⟩
    · obtain ⟨w₁, htrue, hready, rfl, hcommands, hsent, htried⟩ := hsome db₁ out hdb
      have hloop : serveRequests handle w = serveRequests handle w₁ :=
        Outcome.whileTrue_of_true htrue
      obtain ⟨hsome', hnone'⟩ := ih hready (hw.snoc hharm htried)
      rw [exchange_cons hdb, hloop]
      have hsnoc : ∀ (l l' : List (List Bytes)), l ++ f.cmd :: l' = l ++ [f.cmd] ++ l' :=
        fun l l' ↦ List.append_cons l f.cmd l'
      rw [hsnoc, ← hcommands, ← List.append_assoc, ← hsent]
      exact ⟨hsome', hnone'⟩

/-- Fewer than four bytes: the loop ends. -/
theorem Ready.short (h : w.Ready rest) (hlt : rest.length < 4) (hw : w.Harmless handle) :
    serveRequests handle w = .ret () w.logTried ∧ w.logTried.Harmless handle := by
  have hsize : w.conn.rbufSize < 4 := h.size.trans_lt hlt
  refine ⟨Outcome.whileTrue_of_false (if_pos hsize), hw.snoc (c := (w.conn, w.db)) ?_ rfl⟩
  exact fun hge ↦ absurd hge (not_le.mpr hsize)

/-- A part of a frame with its length: `try_one_request` does not wait for the rest, and the
connection does not survive it. -/
theorem Ready.part (handle : D → List Bytes → Option (D × Bytes)) (h : w.Ready rest)
    (hle : 4 ≤ rest.length) (hpre : rest <+: f.bytes) (hlt : rest.length < f.bytes.length) :
    ¬ (serveRequests handle w).state.Harmless handle ∧
      (serveRequests handle w).state.sent = w.sent ∧
      ∀ u w', serveRequests handle w = .ret u w' → w'.conn.state = .fin := by
  have hheader : w.conn.header = f.body.length := by
    refine h.header_eq hle ?_
    rw [List.prefix_iff_eq_take.mp hpre, List.take_take, min_eq_left hle]
  have hcut : w.conn.rbufSize < w.conn.header + 4 := by
    rw [h.size, hheader, Nat.add_comm, ← f.length_bytes]
    exact hlt
  have hge : 4 ≤ w.conn.rbufSize := hle.trans_eq h.size.symm
  have htried := tryOneRequest_tried handle h.idle (h.size.trans_le h.cap)
  have hmem : ∀ w' : World D, w'.tried = w.tried ++ [(w.conn, w.db)] → w'.Harmless handle →
      ∃ w', tryOneRequest handle w = .ret false w' ∧ w'.conn = w.conn := by
    intro w' hw' hharm
    obtain ⟨w₁, hret, hconn, -⟩ := hharm (w.conn, w.db)
      (by rw [hw']; exact List.mem_append_right _ (List.mem_singleton_self _)) hge hcut w rfl rfl
    exact ⟨w₁, hret, hconn⟩
  generalize hres : tryOneRequest handle w = o at htried hmem
  cases htried with
  | short h4 => exact absurd hge (not_le.mpr h4)
  | refused h4 hreq =>
    have hloop : serveRequests handle w = .ret () (w.logTried.setState .fin) :=
      Outcome.whileTrue_of_false hres
    rw [hloop]
    refine ⟨fun hharm ↦ ?_, rfl, fun u w' hret ↦ by cases hret; rfl⟩
    obtain ⟨w₁, hret, hconn⟩ := hmem _ rfl hharm
    cases hret
    have hstate := congrArg Conn.state hconn
    rw [h.idle.req] at hstate
    cases hstate
  | noReturn h4 hreq hdb =>
    rw [show serveRequests handle w = _ from Outcome.whileTrue_of_stop hres]
    refine ⟨fun hharm ↦ ?_, rfl, fun u w' hret ↦ by cases hret⟩
    obtain ⟨w₁, hret, -⟩ := hmem _ rfl hharm
    cases hret
  | cut h4 hreq hdb =>
    rw [show serveRequests handle w = _ from Outcome.whileTrue_of_stop hres]
    refine ⟨fun hharm ↦ ?_, rfl, fun u w' hret ↦ by cases hret⟩
    obtain ⟨w₁, hret, -⟩ := hmem _ rfl hharm
    cases hret
  | answered h4 hreq hdb hfull => omega

end World

/-! ## Pieces of the stream -/

/-- The frames that the first `n` bytes of the stream complete. -/
def finished : List Frame → ℕ → List Frame
  | [], _ => []
  | f :: frames, n =>
    if f.bytes.length ≤ n then f :: finished frames (n - f.bytes.length) else []

/-- How many of the first `n` bytes of the stream stand behind the last frame they complete. -/
def unfinished : List Frame → ℕ → ℕ
  | [], n => n
  | f :: frames, n =>
    if f.bytes.length ≤ n then unfinished frames (n - f.bytes.length) else n

/-- The first `n` bytes of the stream are the frames they complete and a part of the next one. -/
theorem finished_spec (frames : List Frame) {n : ℕ}
    (hn : n ≤ (frames.flatMap Frame.bytes).length) :
    ∃ after part, frames = finished frames n ++ after ∧
      (frames.flatMap Frame.bytes).take n = (finished frames n).flatMap Frame.bytes ++ part ∧
      part.length = unfinished frames n ∧
      (part = [] ∨ ∃ f : Frame, part <+: f.bytes ∧ part.length < f.bytes.length) ∧
      ∀ k, finished frames (n + k) = finished frames n ++ finished after (part.length + k) ∧
        unfinished frames (n + k) = unfinished after (part.length + k) := by
  induction frames generalizing n with
  | nil =>
    obtain rfl : n = 0 := Nat.le_zero.mp hn
    exact ⟨[], [], rfl, rfl, rfl, Or.inl rfl, fun k ↦ ⟨rfl, by rw [List.length_nil]⟩⟩
  | cons f frames ih =>
    rw [List.flatMap_cons, List.length_append] at hn
    by_cases hle : f.bytes.length ≤ n
    · obtain ⟨after, part, hframes, htake, hlen, hpart, hnext⟩ :=
        ih (n := n - f.bytes.length) (by omega)
      refine ⟨after, part, ?_, ?_, ?_, hpart, fun k ↦ ?_⟩
      · rw [finished, if_pos hle, List.cons_append, ← hframes]
      · rw [finished, if_pos hle, List.flatMap_cons, List.flatMap_cons, List.append_assoc, ← htake,
          List.take_append, List.take_of_length_le hle]
      · rw [hlen, unfinished, if_pos hle]
      · have hadd : n + k - f.bytes.length = n - f.bytes.length + k := by omega
        rw [finished, finished, unfinished, if_pos hle, if_pos (hle.trans (Nat.le_add_right n k)),
          if_pos (hle.trans (Nat.le_add_right n k)), hadd, (hnext k).1, (hnext k).2]
        exact ⟨rfl, rfl⟩
    · have hlt := not_le.mp hle
      refine ⟨f :: frames, f.bytes.take n, ?_, ?_, ?_, Or.inr ⟨f, List.take_prefix n _, ?_⟩, ?_⟩
      · rw [finished, if_neg hle, List.nil_append]
      · rw [finished, if_neg hle, List.flatMap_nil, List.nil_append, List.flatMap_cons,
          List.take_append_of_le_length hlt.le]
      · rw [unfinished, if_neg hle, List.length_take, min_eq_left hlt.le]
      · rw [List.length_take, min_eq_left hlt.le]
        exact hlt
      · intro k
        have hnil : finished (f :: frames) n = [] := if_neg hle
        rw [List.length_take, min_eq_left hlt.le, hnil, List.nil_append]
        exact ⟨rfl, rfl⟩

theorem unfinished_of_lt (frames : List Frame) {n : ℕ} (hn : n < 4) :
    unfinished frames n = n ∧ finished frames n = [] := by
  cases frames with
  | nil => exact ⟨rfl, rfl⟩
  | cons f frames =>
    have hlt : ¬ f.bytes.length ≤ n := by
      rw [f.length_bytes]
      omega
    rw [unfinished, finished, if_neg hlt, if_neg hlt]
    exact ⟨rfl, rfl⟩

/-! ## Runs -/

/-- One call of `recv` returns the bytes, and every response is accepted in full. -/
def deliver (chunk : Bytes) : Wake D where
  recvs := [.data chunk]
  sends := List.replicate sizeofBuf (.accepted sizeofBuf)

/-- No piece ends four or more bytes behind the last complete frame, up to a command that is not
answered. The first `m` bytes of the stream have been received before. -/
def CutShort (handle : D → List Bytes → Option (D × Bytes)) (db : D) (frames : List Frame) (m : ℕ)
    (chunks : List Bytes) : Prop :=
  ∀ k, (exchange handle db
      ((finished frames (m + (chunks.take k).flatten.length)).map Frame.cmd)).2.2.isSome →
    unfinished frames (m + (chunks.take k).flatten.length) < 4

private theorem eq_nil_of_short (hlt : rest.length < 4) (h : rest = frames.flatMap Frame.bytes) :
    frames = [] := by
  rcases frames with _ | ⟨f, frames⟩
  · rfl
  · have hlen := congrArg List.length h
    rw [List.flatMap_cons, List.length_append, f.length_bytes] at hlen
    omega

private theorem received_succ (n k : ℕ) (chunk : Bytes) (chunks : List Bytes) :
    n + ((chunk :: chunks).take (k + 1)).flatten.length
      = n + chunk.length + (chunks.take k).flatten.length := by
  rw [List.take_succ_cons, List.flatten_cons, List.length_append, Nat.add_assoc]

private theorem unfinished_zero (frames : List Frame) {n : ℕ} (hn : n < 4) (chunks : List Bytes) :
    unfinished frames (n + (chunks.take 0).flatten.length) < 4 := by
  rw [List.take_zero, List.flatten_nil, List.length_nil, Nat.add_zero,
    (unfinished_of_lt frames hn).1]
  exact hn

/-- After a command that is not answered the pieces do not matter. -/
private theorem cutShort_of_unanswered {db : D} {done after : List Frame} {n p : ℕ} {chunk : Bytes}
    {chunks : List Bytes} (hn : n < 4)
    (hshift : ∀ k, finished frames (n + chunk.length + k) = done ++ finished after (p + k))
    (hanswer : (exchange handle db (done.map Frame.cmd)).2.2 = none) :
    CutShort handle db frames n (chunk :: chunks) := by
  intro k hk
  rcases k with _ | k
  · exact unfinished_zero frames hn _
  · rw [received_succ, hshift, List.map_append, exchange_append_none hanswer, hanswer] at hk
    cases hk

/-- The first piece completes the frames `done`, and they are answered: what matters is how the
others cut the frames that are left. -/
private theorem cutShort_cons_iff {db db' : D} {done after : List Frame} {n p : ℕ} {chunk : Bytes}
    {chunks : List Bytes} (hn : n < 4)
    (hshift : ∀ k, finished frames (n + chunk.length + k) = done ++ finished after (p + k) ∧
      unfinished frames (n + chunk.length + k) = unfinished after (p + k))
    (hanswer : (exchange handle db (done.map Frame.cmd)).2.2 = some db') :
    CutShort handle db frames n (chunk :: chunks) ↔ CutShort handle db' after p chunks := by
  have hstep : ∀ k, (exchange handle db ((finished frames
        (n + ((chunk :: chunks).take (k + 1)).flatten.length)).map Frame.cmd)).2.2
      = (exchange handle db' ((finished after
        (p + (chunks.take k).flatten.length)).map Frame.cmd)).2.2 := by
    intro k
    rw [received_succ, (hshift _).1, List.map_append, exchange_append hanswer]
  constructor
  · intro hcut k hk
    have hlt := hcut (k + 1) (by rw [hstep]; exact hk)
    rwa [received_succ, (hshift _).2] at hlt
  · intro hcut k hk
    rcases k with _ | k
    · exact unfinished_zero frames hn _
    · rw [hstep] at hk
      rw [received_succ, (hshift _).2]
      exact hcut k hk

/-- What is received before the first piece is a part of one frame. -/
private theorem CutShort.lt {db : D} {n : ℕ} {chunks : List Bytes}
    (h : CutShort handle db frames n chunks) (hfin : finished frames n = [])
    (hunf : unfinished frames n = n) : n < 4 := by
  have h0 := h 0
  rw [List.take_zero, List.flatten_nil, List.length_nil, Nat.add_zero, hfin, hunf] at h0
  exact h0 rfl

namespace World

private theorem Waiting.run_cons (handle : D → List Bytes → Option (D × Bytes))
    (h : w.Waiting rest) {chunk : Bytes} (hne : chunk ≠ [])
    (hfit : (rest ++ chunk).length ≤ sizeofBuf) (chunks : List Bytes) :
    ∃ w₁, run handle w ((chunk :: chunks).map deliver)
        = (serveRequests handle w₁).bind (fun _ w ↦ run handle w (chunks.map deliver)) ∧
      w₁.Ready (rest ++ chunk) ∧ w₁.db = w.db ∧ w₁.execs = w.execs ∧ w₁.sent = w.sent ∧
      w₁.tried = w.tried := by
  have hroom : w.conn.rbufSize + chunk.length ≤ sizeofBuf := by
    rwa [h.size, ← List.length_append]
  obtain ⟨rbuf, hcopy, hio⟩ := stateReq_data handle (w := w.woken (deliver chunk)) [] rfl hne hroom
  have hcopy' : Buffer.memcpy sizeofBuf w.conn.rbuf w.conn.rbufSize chunk = some rbuf := hcopy
  obtain ⟨hread, hkeep⟩ := Buffer.memcpy_spec hcopy'
  have hsize : (rest ++ chunk).length = w.conn.rbufSize + chunk.length := by
    rw [h.size, List.length_append]
  refine ⟨(w.woken (deliver chunk)).filled [] chunk rbuf, ?_,
    ⟨⟨⟨h.idle.req, h.idle.wbufSize, h.idle.wbufSent⟩, hsize.symm, ?_⟩, hfit, sizeofBuf, hfit, rfl⟩,
    rfl, rfl, rfl, rfl⟩
  · rw [List.map_cons, run, if_neg (by rw [h.idle.req]; decide), ← hio]
    refine congrArg (Outcome.bind · _) ?_
    rw [connectionIo, show w.conn.state = .req from h.idle.req]
    rfl
  · show rbuf.slice 0 (rest ++ chunk).length = rest ++ chunk
    rw [hsize, Buffer.slice_add, hkeep 0 _ (Nat.zero_add _).le, Nat.zero_add, hread]
    show w.conn.rbuf.slice 0 w.conn.rbufSize ++ chunk = rest ++ chunk
    rw [h.size, h.buf]

/-- With a part of a frame that has its length in the buffer, the run goes wrong whatever comes
next. -/
private theorem Ready.run_part (handle : D → List Bytes → Option (D × Bytes)) (h : w.Ready rest)
    (hle : 4 ≤ rest.length) (hpre : rest <+: f.bytes) (hlt : rest.length < f.bytes.length)
    (wakes : List (Wake D)) :
    ¬ ((serveRequests handle w).bind fun _ w ↦ run handle w wakes).state.Harmless handle := by
  obtain ⟨hharm, -, hends⟩ := h.part handle hle hpre hlt
  rcases hres : serveRequests handle w with ⟨u, w'⟩ | ⟨f, w'⟩
  · -- the connection is closed, so no other call of `connection_io` follows
    rw [hres] at hharm
    rw [Outcome.ret_bind, run_fin (hends u w' hres)]
    exact hharm
  · rw [hres] at hharm
    exact hharm

/-- A run over pieces of the stream. -/
theorem Waiting.run_deliver (h : w.Waiting rest) (hw : w.Harmless handle) (hlt : rest.length < 4)
    {chunks : List Bytes} (hstream : rest ++ chunks.flatten = frames.flatMap Frame.bytes)
    (hne : ∀ c ∈ chunks, c ≠ [])
    (hfit : ∀ k c, chunks[k]? = some c →
      unfinished frames (rest.length + (chunks.take k).flatten.length) + c.length ≤ sizeofBuf) :
    (CutShort handle w.db frames rest.length chunks →
      (run handle w (chunks.map deliver)).state.commands
          = w.commands ++ (exchange handle w.db (frames.map Frame.cmd)).1 ∧
        (run handle w (chunks.map deliver)).state.sent
          = w.sent ++ (exchange handle w.db (frames.map Frame.cmd)).2.1 ∧
        (run handle w (chunks.map deliver)).state.Harmless handle) ∧
    (¬ CutShort handle w.db frames rest.length chunks →
      ¬ (run handle w (chunks.map deliver)).state.Harmless handle) := by
  induction chunks generalizing w frames rest with
  | nil =>
    rw [List.flatten_nil, List.append_nil] at hstream
    obtain rfl : frames = [] := eq_nil_of_short hlt hstream
    refine ⟨fun _ ↦ ⟨(List.append_nil _).symm, (List.append_nil _).symm, hw⟩, fun hcut ↦ ?_⟩
    refine absurd (fun k _ ↦ ?_) hcut
    rw [List.take_nil, List.flatten_nil, List.length_nil]
    exact hlt
  | cons chunk chunks ih =>
    have hcap : (rest ++ chunk).length ≤ sizeofBuf := by
      have h0 := hfit 0 chunk rfl
      rw [List.take_zero, List.flatten_nil, List.length_nil, Nat.add_zero,
        (unfinished_of_lt frames hlt).1] at h0
      rwa [List.length_append]
    obtain ⟨w₁, hrun, hready, hdb, hexecs, hsent, htried⟩ :=
      h.run_cons handle (hne chunk List.mem_cons_self) hcap chunks
    rw [List.flatten_cons, ← List.append_assoc] at hstream
    -- what has been received now: the frames `done`, and a part of the next one
    obtain ⟨after, part, hframes, hsplit, hpart, hnext, hshift⟩ := finished_spec frames
      (n := (rest ++ chunk).length) (by rw [← hstream]; exact (List.prefix_append _ _).length_le)
    rw [← hstream, List.take_left' rfl] at hsplit
    obtain ⟨done, hdone⟩ : ∃ done, finished frames (rest ++ chunk).length = done := ⟨_, rfl⟩
    rw [hdone] at hframes hsplit hshift
    have hfin : finished after part.length = [] := by
      have h0 := (hshift 0).1
      rw [Nat.add_zero, hdone] at h0
      exact List.self_eq_append_right.mp h0
    have hunf : unfinished after part.length = part.length := by
      have h0 := (hshift 0).2
      rw [Nat.add_zero, Nat.add_zero, ← hpart] at h0
      exact h0.symm
    rw [List.length_append] at hshift
    have hcommands : w₁.commands = w.commands := by rw [commands, hexecs, commands]
    have hw₁ : w₁.Harmless handle := by
      rw [Harmless, htried]
      exact hw
    obtain ⟨hsome, hnone⟩ := (hsplit ▸ hready).allFrames hw₁
    rw [hdb, hcommands, hsent] at hsome hnone
    rw [hrun]
    rcases hanswer : (exchange handle w.db (done.map Frame.cmd)).2.2 with _ | db
    · -- one of these frames is not answered
      obtain ⟨w', hstop, hcommands', hsent', hw'⟩ := hnone hanswer
      have hall : exchange handle w.db (frames.map Frame.cmd)
          = exchange handle w.db (done.map Frame.cmd) := by
        rw [hframes, List.map_append, exchange_append_none hanswer]
      rw [hstop, hall]
      exact ⟨fun _ ↦ ⟨hcommands', hsent', hw'⟩, fun hcut ↦
        absurd (cutShort_of_unanswered hlt (fun k ↦ (hshift k).1) hanswer) hcut⟩
    · obtain ⟨w', hloop, hready', rfl, hcommands', hsent', hw'⟩ := hsome db hanswer
      rw [hloop, hframes, List.map_append, exchange_append hanswer, ← hframes,
        cutShort_cons_iff hlt hshift hanswer]
      by_cases hp : part.length < 4
      · -- the part has no length yet: the loop waits
        obtain ⟨hret, hw''⟩ := hready'.short hp hw'
        rw [hret, Outcome.ret_bind]
        have hstream' : part ++ chunks.flatten = after.flatMap Frame.bytes := by
          rw [hframes, List.flatMap_append, hsplit, List.append_assoc] at hstream
          exact List.append_cancel_left hstream
        have hwait : w'.logTried.Waiting part := ⟨hready'.idle, hready'.size, hready'.buf⟩
        have hih := ih hwait hw'' hp hstream' (fun c hc ↦ hne c (List.mem_cons_of_mem _ hc))
          fun k c hc ↦ by
            have hk := hfit (k + 1) c hc
            rwa [received_succ, (hshift _).2] at hk
        have hc : w'.logTried.commands = w'.commands := rfl
        have hs : w'.logTried.sent = w'.sent := rfl
        rw [hc, hs, hcommands', hsent', List.append_assoc, List.append_assoc] at hih
        exact hih
      · -- the part has a length: it is taken for a frame
        have hge := not_lt.mp hp
        refine ⟨fun hcut ↦ absurd (hcut.lt hfin hunf) hp, fun _ ↦ ?_⟩
        rcases hnext with rfl | ⟨f, hpre, hshort⟩
        · exact absurd hge (by decide)
        · exact hready'.run_part handle hge hpre hshort _

theorem waiting_accepted (rbuf wbuf : Buffer) (db : D) : (accepted rbuf wbuf db).Waiting [] :=
  ⟨⟨rfl, rfl, rfl⟩, rfl, rfl⟩

theorem harmless_accepted (handle : D → List Bytes → Option (D × Bytes)) (rbuf wbuf : Buffer)
    (db : D) : (accepted rbuf wbuf db).Harmless handle :=
  fun _ hc ↦ absurd hc List.not_mem_nil

end World

theorem unfinished_frames (frames : List Frame) (k : ℕ) :
    unfinished frames ((frames.map Frame.bytes).take k).flatten.length = 0 := by
  induction frames generalizing k with
  | nil =>
    rw [List.map_nil, List.take_nil]
    rfl
  | cons f frames ih =>
    cases k with
    | zero => exact (unfinished_of_lt (f :: frames) (by decide : 0 < 4)).1
    | succ k =>
      rw [List.map_cons, List.take_succ_cons, List.flatten_cons, List.length_append, unfinished,
        if_pos (Nat.le_add_right _ _), Nat.add_sub_cancel_left, ih]

theorem cutShort_frames (db : D) (frames : List Frame) :
    CutShort handle db frames 0 (frames.map Frame.bytes) := by
  intro k _
  rw [Nat.zero_add, unfinished_frames]
  decide

theorem run_frames (handle : D → List Bytes → Option (D × Bytes)) (rbuf wbuf : Buffer) (db : D)
    (frames : List Frame) :
    (run handle (accepted rbuf wbuf db) ((frames.map Frame.bytes).map deliver)).state.commands
        = (exchange handle db (frames.map Frame.cmd)).1 ∧
      (run handle (accepted rbuf wbuf db) ((frames.map Frame.bytes).map deliver)).state.sent
        = (exchange handle db (frames.map Frame.cmd)).2.1 := by
  have hne : ∀ c ∈ frames.map Frame.bytes, c ≠ [] := by
    rintro _ hc hnil
    obtain ⟨f, -, rfl⟩ := List.mem_map.mp hc
    have hlen := congrArg List.length hnil
    rw [f.length_bytes, List.length_nil] at hlen
    omega
  have hfit : ∀ k c, (frames.map Frame.bytes)[k]? = some c →
      unfinished frames (0 + ((frames.map Frame.bytes).take k).flatten.length) + c.length
        ≤ sizeofBuf := by
    intro k c hc
    rw [Nat.zero_add, unfinished_frames, Nat.zero_add]
    obtain ⟨f, -, rfl⟩ := List.mem_map.mp (List.mem_of_getElem? hc)
    exact f.length_bytes_le
  obtain ⟨hcommands, hsent, -⟩ := ((World.waiting_accepted rbuf wbuf db).run_deliver
    (World.harmless_accepted handle rbuf wbuf db) (by decide) (List.flatMap_def ..).symm hne hfit).1
    (cutShort_frames db frames)
  exact ⟨hcommands, hsent⟩

/-- **Framing.** The commands executed and the bytes sent are those of the frames received one by
one, and `try_one_request` leaves parts of frames alone, exactly if no piece of the stream ends
between the fourth byte of a frame and its last. -/
theorem framing_iff_cutShort (handle : D → List Bytes → Option (D × Bytes)) (rbuf wbuf : Buffer)
    (db : D) (frames : List Frame) (chunks : List Bytes)
    (hstream : chunks.flatten = frames.flatMap Frame.bytes) (hne : ∀ c ∈ chunks, c ≠ [])
    (hfit : ∀ k c, chunks[k]? = some c →
      unfinished frames (chunks.take k).flatten.length + c.length ≤ sizeofBuf) :
    ((run handle (accepted rbuf wbuf db) (chunks.map deliver)).state.commands
        = (run handle (accepted rbuf wbuf db)
            ((frames.map Frame.bytes).map deliver)).state.commands ∧
      (run handle (accepted rbuf wbuf db) (chunks.map deliver)).state.sent
        = (run handle (accepted rbuf wbuf db) ((frames.map Frame.bytes).map deliver)).state.sent ∧
      (run handle (accepted rbuf wbuf db) (chunks.map deliver)).state.Harmless handle) ↔
    CutShort handle db frames 0 chunks := by
  have hrun := (World.waiting_accepted rbuf wbuf db).run_deliver
    (World.harmless_accepted handle rbuf wbuf db) (by decide) hstream hne (by simpa using hfit)
  obtain ⟨hcommands, hsent⟩ := run_frames handle rbuf wbuf db frames
  rw [hcommands, hsent]
  constructor
  · rintro ⟨-, -, hharm⟩
    by_contra hcut
    exact hrun.2 hcut hharm
  · exact hrun.1

theorem framing_two_in_one :
    (run doRequest (accepted (fun _ ↦ 0) (fun _ ↦ 0) Mem.empty)
        ([Frame.empty.bytes ++ Frame.empty.bytes].map deliver)).state.sent
      = (run doRequest (accepted (fun _ ↦ 0) (fun _ ↦ 0) Mem.empty)
        (([Frame.empty, Frame.empty].map Frame.bytes).map deliver)).state.sent := by
  have hiff := framing_iff_cutShort doRequest (fun _ ↦ 0) (fun _ ↦ 0) Mem.empty
    [Frame.empty, Frame.empty] [Frame.empty.bytes ++ Frame.empty.bytes] rfl (by decide)
    (fun k c hc ↦ by
      cases k with
      | zero =>
        cases hc
        decide
      | succ k => cases hc)
  have hcut : CutShort doRequest Mem.empty [Frame.empty, Frame.empty] 0
      [Frame.empty.bytes ++ Frame.empty.bytes] := by
    intro k _
    cases k with
    | zero => decide
    | succ k =>
      rw [List.take_succ_cons, List.take_nil]
      decide
  exact (hiff.mpr hcut).2.1

/-- One frame, cut after its length, and a buffer full of zeros: the server stops without sending
the response that it sends when the frame is received whole. -/
theorem not_framing_cut_after_length :
    ([[4, 0, 0, 0], [0, 0, 0, 0]] : List Bytes).flatten = [Frame.empty].flatMap Frame.bytes ∧
    (run doRequest (accepted (fun _ ↦ 0) (fun _ ↦ 0) Mem.empty)
      ([[4, 0, 0, 0], [0, 0, 0, 0]].map deliver)).state.sent = [] ∧
    (run doRequest (accepted (fun _ ↦ 0) (fun _ ↦ 0) Mem.empty)
      (([Frame.empty].map Frame.bytes).map deliver)).state.sent ≠ [] := by
  refine ⟨rfl, ?_, ?_⟩
  · have hne : ([4, 0, 0, 0] : Bytes) ≠ [] := by decide
    obtain ⟨w, hrun, hready, -, -, hsent, -⟩ := (World.waiting_accepted (fun _ ↦ 0) (fun _ ↦ 0)
      Mem.empty).run_cons doRequest hne (by decide) [[0, 0, 0, 0]]
    obtain ⟨-, hnothing, hends⟩ := hready.part doRequest (f := Frame.empty) (by decide) (by decide)
      (by decide)
    rw [hrun]
    cases hres : serveRequests doRequest w with
    | ret u w' =>
      rw [hres] at hnothing
      rw [Outcome.ret_bind, run_fin (hends u w' hres)]
      exact hnothing.trans hsent
    | stop f w' =>
      rw [hres] at hnothing
      exact hnothing.trans hsent
  · rw [(run_frames doRequest (fun _ ↦ 0) (fun _ ↦ 0) Mem.empty [Frame.empty]).2]
    exact List.cons_ne_nil _ _

end RedisOnC
