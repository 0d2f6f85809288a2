import RedisOnC.Loop.Linearizable
import RedisOnC.Loop.Turns

/-!
# A client and the server

The whole way of a command: `client.cpp` spells it and sends it, the main loop of the server serves
the connection between all others, `do_request` executes the command, the reply goes back in as many
pieces as the network likes, and the client prints it. What is printed is the value that the command
writes when it is executed in the state that all commands before it have left.
-/

namespace RedisOnC

open Request

/-- `main` of `client.cpp` once it is connected: what it returns, the bytes that it sends and the
lines that it prints for the response. The buffers of `send_req` and `read_res` hold anything. -/
def clientMain (wbuf rbuf : Buffer) (cmd : List Bytes) (sends : List (Option ℕ))
    (recvs : List RecvResult) : Option (ℕ × Bytes × List Line) := do
  let (err, wire) ← sendReq wbuf cmd sends
  if err ≠ 0 then some (1, wire, [])
  else do
    let (err, lines) ← readRes rbuf recvs
    if err ≠ 0 then some (1, wire, lines) else some (0, wire, lines)

theorem clientMain_eq {wbuf rbuf : Buffer} {cmd : List Bytes} {sends : List (Option ℕ)}
    {recvs : List RecvResult} {wire : Bytes} {lines : List Line}
    (hsend : sendReq wbuf cmd sends = some (0, wire))
    (hread : readRes rbuf recvs = some (0, lines)) :
    clientMain wbuf rbuf cmd sends recvs = some (0, wire, lines) := by
  rw [clientMain, hsend, Option.bind_eq_bind, Option.bind_some]
  dsimp only
  rw [if_neg (not_not.mpr rfl), hread, Option.bind_eq_bind, Option.bind_some]
  exact if_neg (not_not.mpr rfl)

theorem exists_frame_of_sendReq {wbuf : Buffer} {cmd : List Bytes} {sends : List (Option ℕ)}
    {wire : Bytes} (h : sendReq wbuf cmd sends = some (0, wire)) :
    ∃ f : Frame, f.cmd = cmd ∧ f.bytes = wire := by
  have hfit := length_le_of_sendReq h
  rw [sendReq_eq_writeAll wbuf hfit sends] at h
  exact ⟨Frame.ofCmd cmd hfit, rfl, (writeAll_eq_zero h).symm⟩

/-- The last call of a connection, among the calls of all of them. -/
theorem History.log_eq_of_callsOf {D : Type} {H : History D} {i : ℕ} {cs : List Call} {c : Call}
    (h : H.callsOf i = cs ++ [c]) : ∃ pre post, H.log = pre ++ (i, c) :: post ∧
      (∀ d ∈ post, d.1 ≠ i) ∧ (pre.filter fun d ↦ d.1 = i).map Prod.snd = cs := by
  obtain ⟨l₁, l₂, hfilter, hl₁, hl₂⟩ := List.map_eq_append_iff.mp h
  obtain ⟨d, rfl, hd⟩ := List.map_eq_singleton_iff.mp hl₂
  obtain ⟨pre, rest, hlog, hpre, hrest⟩ := List.filter_eq_append_iff.mp hfilter
  obtain ⟨mid, post, rfl, hmid, hdi, hpost⟩ := List.filter_eq_cons_iff.mp hrest
  refine ⟨pre ++ mid, post, ?_, ?_, ?_⟩
  · rw [hlog, List.append_assoc, ← hd, ← of_decide_eq_true hdi]
  · intro d' hd' heq
    have hmem : d' ∈ post.filter fun d ↦ d.1 = i := List.mem_filter.mpr ⟨hd', decide_eq_true heq⟩
    rw [hpost] at hmem
    exact absurd hmem List.not_mem_nil
  · rw [List.filter_append, List.filter_eq_nil_iff.mpr hmid, List.append_nil, hpre, hl₁]

section Session

variable {S : Type} [Score S] {entry : Ptr → Entry} {zset : Ptr → ZSet} {avl : AVLHeap}
variable {znode : Ptr → ZNode S} {l : Loop (Mem S)} {H : History (Mem S)}

/-- **From the command line to the printed reply.** The main loop has run, with any other clients. A
connection had nothing to do, then the frame arrived that a client had sent for its command, and
nothing else until the connection was ready again. Then the command was executed exactly once since,
in the state that all commands before it have left; the reply is the value that the command writes
there, and one that the keyspace allows; and whatever is read of what the connection has sent since,
in any pieces, the client prints this value (or the error that stands for one that is too big), and
returns `0`. -/
theorem client_server (h : Loop.Recorded doRequest (Mem.init entry zset avl znode) l H) {i : ℕ}
    {c : Life (Mem S)} {before wakes : List (Wake (Mem S))} {first : Wake (Mem S)}
    (hlife : H.lives[i]? = some c) (hrounds : c.wakes = before ++ first :: wakes)
    {w : World (Mem S)} (hbefore : run doRequest (accepted c.rbuf c.wbuf c.db) before = .ret () w)
    (hw : w.Waiting []) {wbuf : Buffer} {cmd : List Bytes} {sends : List (Option ℕ)} {wire : Bytes}
    (hsend : sendReq wbuf cmd sends = some (0, wire)) {rest : List RecvResult}
    (hfirst : first.recvs = .data wire :: rest) (hwakes : ∀ wake ∈ wakes, wake.Silent) :
    ∃ w' pre post m m' v trees K, c.run doRequest = .ret () w' ∧
      H.log = pre ++ (i, ⟨cmd, some (capReply v.encode)⟩) :: post ∧ (∀ d ∈ post, d.1 ≠ i) ∧
      (pre.filter fun d ↦ d.1 = i).map Prod.snd = w.calls ∧
      Serial doRequest (Mem.init entry zset avl znode) (pre.map Prod.snd) m ∧
      doRequest m cmd = some (m', v.encode) ∧ doRequestValue m cmd = some (m', v) ∧
      Models True m trees K ∧
      (keyspace S).Legal (fun _ ↦ none) (pre.map fun d ↦ d.2.pair) K ∧
      (ofCmd cmd).Reply True K v.encode ∧
      (w'.conn.state = .req → w'.Waiting [] ∧ ∀ rbuf recvs more, Flows recvs →
        streamed recvs = w'.sent.drop w.sent.length ++ more →
          clientMain wbuf rbuf cmd sends recvs = some (0, wire, v.cap.lines 0)) := by
  obtain ⟨f, rfl, rfl⟩ := exists_frame_of_sendReq hsend
  obtain ⟨w', hrun, hcalls⟩ := h.fits.lives i c hlife
  have hstream := ((World.run_streamInv c.rbuf c.wbuf c.db before).of_ret hbefore).1
  have hsplit : run doRequest w (first :: wakes) = .ret () w' := by
    rw [Life.run, hrounds, run_append, hbefore] at hrun
    exact hrun
  rcases hdb : doRequest (first.others w.db) f.cmd with _ | ⟨m₁, out₁⟩
  · -- the server has not stopped, so the command has returned
    obtain ⟨v, hio, hv, hvdb, -⟩ := hw.receive doRequest f first hfirst
    obtain ⟨v', hstop⟩ := hv.serve_none (hvdb ▸ hdb)
    have hopen : w.conn.state ≠ .fin := by
      rw [hw.idle.req]
      exact ConnState.noConfusion
    rw [← List.singleton_append, run_append, run_singleton hopen, hio, hstop] at hsplit
    exact (Outcome.ret_ne_stop hsplit.symm).elim
  · obtain ⟨w'', hrun', -, hcalls', hready, -⟩ :=
      World.request_reply hstream hw hfirst hdb hwakes
    obtain ⟨-, rfl⟩ := Outcome.ret.inj (hsplit.symm.trans hrun')
    obtain ⟨pre, post, hlog, hpost, hpre⟩ := H.log_eq_of_callsOf (hcalls.symm.trans hcalls')
    have hserial := h.fits.serial
    rw [hlog, List.map_append, List.map_cons] at hserial
    obtain ⟨m, hserial, m', out, hexec, hreply, -⟩ := serial_append.mp hserial
    have hcap : capReply out₁ = capReply out := Option.some_inj.mp hreply
    have hinit : Models True (Mem.init entry zset avl znode) (fun _ ↦ .nil) fun _ ↦ none :=
      models_init entry zset avl znode
    obtain ⟨trees, K, hK, hlegal⟩ := hinit.after_serial hserial fun c hc ↦ by
      obtain ⟨d, hd, rfl⟩ := List.mem_map.mp hc
      exact h.fits.messages d (hlog ▸ List.mem_append_left _ hd)
    rw [List.map_map] at hlegal
    have heq := doRequest_eq_value hK.db f.cmd
    rw [hexec] at heq
    obtain ⟨⟨_, v⟩, hv, hspell⟩ := Option.map_eq_some_iff.mp heq.symm
    obtain ⟨rfl, rfl⟩ := Prod.mk.inj hspell
    refine ⟨w', pre, post, m, _, v, trees, K, hrun, hcap ▸ hlog, hpost, hpre, hserial, hexec, hv, hK,
      hlegal, hK.reply_of_doRequest hexec, fun hreq ↦ ?_⟩
    obtain ⟨hw', hsent⟩ := hready hreq
    refine ⟨hw', fun rbuf recvs more hflows hstreamed ↦ ?_⟩
    rw [hsent, List.drop_left, hcap, replyFrame, List.append_assoc] at hstreamed
    exact clientMain_eq hsend ((delivered_cap v).accepted rbuf recvs more hflows hstreamed)

end Session

/-- A client sets a key while another one sets another key. The reply goes out a byte at a time, and
is printed. -/
theorem client_server_sets : ∃ (H : History (Mem ℤ)) (pre post : List (ℕ × Call)) (v : Value)
    (recvs : List RecvResult),
    H.log = pre ++ (0, ⟨setFrame.cmd, some (capReply v.encode)⟩) :: post ∧
      streamed recvs = replyFrame (capReply outNil) ∧
      clientMain (fun _ ↦ 0) (fun _ ↦ 0) setFrame.cmd [some 4096] recvs
        = some (0, setFrame.bytes, v.cap.lines 0) := by
  obtain ⟨m, m', hset, hset'⟩ := exists_sets
  obtain ⟨l, l', H, H', es, wakes, h, -, -, hruns, -, -, -, -, -, hlives, hlen, htakes, -⟩ :=
    recorded_reply doRequest hset hset' 6
  have hsilent : ∀ wake ∈ wakes, wake.Silent := fun wake hwake ↦ (htakes wake hwake).silent
  have hsend : sendReq (fun _ ↦ 0) setFrame.cmd [some 4096] = some (0, setFrame.bytes) := by
    rw [sendReq_eq_writeAll _ (by decide)]
    rfl
  obtain ⟨w', pre, post, m₀, m₁, v, trees, K, hrun, hlog, -, -, -, -, -, -, -, -, hprint⟩ :=
    client_server (h.runs hruns) hlives (show _ = [] ++ _ :: wakes from rfl) rfl
      (World.waiting_accepted _ _ _) hsend rfl hsilent
  obtain ⟨w'', hrun', -, -, hready, hreq⟩ := World.request_reply
    (World.streamInv_accepted (fun _ ↦ 0) (fun _ ↦ 0) (Mem.empty : Mem ℤ))
    (World.waiting_accepted _ _ _) (f := setFrame)
    (show (⟨fun _ ↦ Mem.empty, [.data setFrame.bytes], []⟩ : Wake (Mem ℤ)).recvs = _ from rfl) hset
    hsilent
  obtain ⟨-, rfl⟩ := Outcome.ret.inj (hrun.symm.trans hrun')
  have hstate := hreq List.not_mem_nil htakes (by rw [hlen]; decide)
  have hsent : w'.sent = replyFrame (capReply outNil) := (hready hstate).2
  have hstreamed : streamed [.data w'.sent] = w'.sent := List.append_nil _
  refine ⟨H', pre, post, v, [.data w'.sent], hlog, hstreamed.trans hsent, ?_⟩
  refine (hprint hstate).2 _ _ [] ?_ (hstreamed.trans (List.append_nil _).symm)
  rintro r hr
  obtain rfl := List.mem_singleton.mp hr
  refine Or.inr ⟨_, ?_, rfl⟩
  rw [hsent]
  decide

end RedisOnC
