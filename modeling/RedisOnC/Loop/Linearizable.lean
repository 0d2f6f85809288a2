import RedisOnC.Client.Delivered
import RedisOnC.Lib.Sequential
import RedisOnC.Loop.History
import Mathlib.Algebra.Order.BigOperators.Group.List

/-!
# The server as one keyspace

The main loop with `do_request` behind it. Whatever the clients do, all their commands together are
a legal history of one keyspace: each reply is one that the keyspace allows which the commands
before it have made. The commands on one key are a legal history by themselves. The only command
that may keep the server from going on is a `ZQUERY`.
-/

namespace RedisOnC

open Request

variable {S : Type} [Score S] {m m' : Mem S} {trees : Ptr → BinaryTree Ptr} {K K' : Keyspace S}

/-! ## The keyspace as an object -/

/-- The keyspace, with the commands as its operations and what is sent as their results. -/
def keyspace (S : Type) [Score S] :
    SequentialObject (Keyspace S) (List Bytes) (Option Bytes) where
  effect K cmd := (ofCmd cmd).effect K
  Allows K cmd reply := ∃ out, (ofCmd cmd).Reply True K out ∧ reply = some (capReply out)

def Call.pair (c : Call) : List Bytes × Option Bytes := (c.cmd, c.reply)

theorem Call.Fits.names_lt {c : Call} (h : c.Fits) :
    ∀ name ∈ (ofCmd c.cmd).names, name.length < u32Size := by
  intro name hname
  have hsum : 4 + (c.cmd.map fun s ↦ 4 + s.length).sum ≤ kMaxMsg := by
    rw [← length_encodeReq]
    exact h
  have hword : 4 + name.length ≤ (c.cmd.map fun s ↦ 4 + s.length).sum :=
    List.le_sum_of_mem (List.mem_map_of_mem (mem_of_mem_names hname))
  have hlt : kMaxMsg < u32Size := by decide
  omega

/-- **The memory represents the keyspace.** -/
theorem Models.after_serial (h : Models True m trees K) {cs : List Call}
    (hs : Serial doRequest m cs m') (hcs : ∀ c ∈ cs, c.Fits) :
    ∃ trees' K', Models True m' trees' K' ∧ (keyspace S).Legal K (cs.map Call.pair) K' := by
  induction cs generalizing m trees K with
  | nil =>
    obtain rfl : m = m' := hs
    exact ⟨trees, K, h, rfl⟩
  | cons c cs ih =>
    obtain ⟨m₁, out, hexec, hreply, hs⟩ := hs
    have hnames := (hcs c (List.mem_cons_self ..)).names_lt
    obtain ⟨trees₁, h₁, hout⟩ := h.after_doRequest (fun _ ↦ hnames) hexec
    obtain ⟨trees', K', h', hlegal⟩ := ih h₁ hs fun c' hc' ↦ hcs c' (List.mem_cons_of_mem _ hc')
    exact ⟨trees', K', h', ⟨out, hout, hreply⟩, hlegal⟩

/-! ## One key -/

/-- The key that the request is about, if it is about one. -/
def Request.key? : Request → Option Bytes
  | get key | set key _ | del key => some key
  | zadd key _ _ | zrem key _ | zscore key _ => some key
  | zquery key _ _ _ _ => some key
  | keys | unknown => none

/-- The command is about the key. -/
def onKey (key : Bytes) (cmd : List Bytes) : Bool := (ofCmd cmd).key? = some key

variable {key : Bytes} {req : Request}

theorem Request.effect_of_ne (K : Keyspace S) (h : req.key? ≠ some key) :
    req.effect K key = K key := by
  have hne : ∀ k, req.key? = some k → key ≠ k := fun k hk heq ↦ h (heq ▸ hk)
  cases req with
  | set k val =>
    have hk := hne k rfl
    rcases hK : K k with _ | _ | _ <;> simp [effect, hK, Function.update_of_ne hk]
  | del k => exact Function.update_of_ne (hne k rfl) ..
  | zadd k score name =>
    have hk := hne k rfl
    rcases hs : (str2dbl score : Option S) with _ | _ <;>
      rcases hK : K k with _ | _ | _ <;> simp [effect, hs, hK, Function.update_of_ne hk]
  | zrem k name =>
    have hk := hne k rfl
    rcases hK : K k with _ | _ | _ <;> simp [effect, hK, Function.update_of_ne hk]
  | _ => rfl

/-- What a request does to its key depends on the binding of this key alone. -/
theorem Request.effect_congr (h : req.key? = some key) (hK : K key = K' key) :
    req.effect K key = req.effect K' key := by
  cases req with
  | set k val =>
    obtain rfl := Option.some_inj.mp h
    rcases hk : K' k with _ | _ | _ <;> simp [effect, hK, hk]
  | zadd k score name =>
    obtain rfl := Option.some_inj.mp h
    rcases hs : (str2dbl score : Option S) with _ | _ <;>
      rcases hk : K' k with _ | _ | _ <;> simp [effect, hs, hK, hk]
  | zrem k name =>
    obtain rfl := Option.some_inj.mp h
    rcases hk : K' k with _ | _ | _ <;> simp [effect, hK, hk]
  | del k =>
    obtain rfl := Option.some_inj.mp h
    simp [effect]
  | _ => exact hK

theorem Request.reply_congr (h : req.key? = some key) (hK : K key = K' key) {out : Bytes}
    (hout : req.Reply True K out) : req.Reply True K' out := by
  cases req with
  | keys => exact (Option.some_ne_none _ h.symm).elim
  | unknown => exact (Option.some_ne_none _ h.symm).elim
  | set => exact hout
  | _ =>
    obtain rfl := Option.some_inj.mp h
    simpa only [Reply, hK] using hout

/-- The commands on a key have its binding for themselves. -/
theorem view_key (S : Type) [Score S] (key : Bytes) :
    (keyspace S).View (fun K ↦ K key) (onKey key) where
  off K cmd hoff := Request.effect_of_ne K (of_decide_eq_false hoff)
  effect K K' cmd hon hK := Request.effect_congr (of_decide_eq_true hon) hK
  allows K K' cmd reply hon hK := by
    rintro ⟨out, hout, hreply⟩
    exact ⟨out, Request.reply_congr (of_decide_eq_true hon) hK hout, hreply⟩

/-! ## The server -/

section Server

variable {entry : Ptr → Entry} {zset : Ptr → ZSet} {avl : AVLHeap} {znode : Ptr → ZNode S}
variable {l l' : Loop (Mem S)} {H : History (Mem S)} {e : Event} {f : LoopFault}

/-- The commands of all clients and what was sent for them, in the order of their execution. -/
def History.commands (H : History (Mem S)) : List (List Bytes × Option Bytes) :=
  H.log.map fun c ↦ c.2.pair

/-- The calls of `do_request` are commands on a keyspace. -/
theorem History.Fits.legal {s : Server (Mem S)}
    (h : H.Fits doRequest (Mem.init entry zset avl znode) s) :
    ∃ trees K, Models True s.db trees K ∧ (keyspace S).Legal (fun _ ↦ none) H.commands K := by
  have hinit : Models True (Mem.init entry zset avl znode) (fun _ ↦ .nil) fun _ ↦ none :=
    models_init entry zset avl znode
  have hfits : ∀ c ∈ H.log.map Prod.snd, c.Fits := by
    intro c hc
    obtain ⟨d, hd, rfl⟩ := List.mem_map.mp hc
    exact h.messages d hd
  obtain ⟨trees, K, hK, hlegal⟩ := hinit.after_serial h.serial hfits
  rw [List.map_map] at hlegal
  exact ⟨trees, K, hK, hlegal⟩

/-- **The server is a keyspace.** In every state that the main loop gets to, whatever the clients
have sent and however their connections were interleaved, the database stands for a keyspace to
which all commands together lead from the empty one, and each of the replies is the one of that
keyspace at its turn. The commands of a connection are among them in the order in which it executed
them. -/
theorem linearizable (h : Loop.Recorded doRequest (Mem.init entry zset avl znode) l H) :
    (∃ trees K, Models True l.server.db trees K ∧
      (keyspace S).Legal (fun _ ↦ none) H.commands K) ∧
    ∀ i c, H.lives[i]? = some c → ∃ w, c.run doRequest = .ret () w ∧ w.calls = H.callsOf i :=
  ⟨h.fits.legal, h.fits.lives⟩

/-- **Keys are independent.** The commands on a key and their replies are a legal history by
themselves, and lead to the binding that the key has in the end: no command on another key, of
whatever client, makes a difference to them. -/
theorem key_isolated (h : Loop.Recorded doRequest (Mem.init entry zset avl znode) l H)
    (key : Bytes) : ∃ trees K K', Models True l.server.db trees K ∧
      (keyspace S).Legal (fun _ ↦ none) (H.commands.filter fun x ↦ onKey key x.1) K' ∧
      K key = K' key := by
  obtain ⟨trees, K, hK, hlegal⟩ := h.fits.legal
  obtain ⟨K', hlegal', hkey⟩ := (view_key S key).filter hlegal (l := fun _ ↦ none) rfl
  exact ⟨trees, K, K', hK, hlegal', hkey⟩

/-- **What stops the server.** It is the turn of a connection. Either `do_request` does not return
for the request at the front of its buffer, which is a `ZQUERY`, with arguments that are numbers, of
a sorted set that the commands before it have made. Or the connection has received a part of a frame
that is taken for the whole. -/
theorem server_stops (h : Loop.Recorded doRequest (Mem.init entry zset avl znode) l H)
    (he : l.Allows e) (hstep : l.step doRequest e = .stop f l') :
    ∃ p ∈ l.server.clients, ∃ recvs sends c f' v, l.Serves e p recvs sends ∧ f = .conn f' ∧
      H.lives[H.number p]? = some c ∧
      (c.add ⟨fun _ ↦ l.server.db, recvs, sends⟩).run doRequest = .stop f' v ∧
      (f' = .noReturn ∧ (∃ cs m cmd trees K M s name o lim,
          H.Hangs doRequest (Mem.init entry zset avl znode) (H.number p) v cs m cmd ∧
          Models True m trees K ∧
          (keyspace S).Legal (fun _ ↦ none) (H.commands ++ cs.map Call.pair) K ∧
          (ofCmd cmd).Queries K M s name o lim) ∨
        f' = .outOfBounds ∧ ∃ t ∈ v.tried, t.1.CutAccepted) := by
  obtain ⟨p, hp, recvs, sends, c, f', v, hserves, hf, hc, hrun, hcases⟩ := stop_cases h he hstep
  refine ⟨p, hp, recvs, sends, c, f', v, hserves, hf, hc, hrun, hcases.imp_left ?_⟩
  rintro ⟨rfl, cs, m, cmd, hhangs⟩
  have ⟨_, hserial, hfits, _, hnone⟩ := hhangs
  have hinit : Models True (Mem.init entry zset avl znode) (fun _ ↦ .nil) fun _ ↦ none :=
    models_init entry zset avl znode
  obtain ⟨trees, K, hK, hlegal⟩ := hinit.after_serial hserial hfits
  rw [List.map_append, List.map_map] at hlegal
  obtain ⟨M, s, name, o, lim, hquery⟩ :
      ∃ M s name o lim, (ofCmd cmd).Queries K M s name o lim := by
    by_contra hno
    obtain ⟨m', out, hexec⟩ := hK.exec_ends fun M s name o lim hq ↦ hno ⟨M, s, name, o, lim, hq⟩
    rw [← doRequest_eq, hnone] at hexec
    exact nomatch hexec
  exact ⟨rfl, cs, m, cmd, trees, K, M, s, name, o, lim, hhangs, hK, hlegal, hquery⟩

end Server

/-! ## A run with two clients -/

/-- The frames of two commands on different keys. -/
def setFrame : Frame := Frame.ofCmd [ascii "set", ascii "k", ascii "v"] (by decide)

def setFrame' : Frame := Frame.ofCmd [ascii "set", ascii "j", ascii "w"] (by decide)

theorem exists_sets : ∃ m m' : Mem ℤ, doRequest Mem.empty setFrame.cmd = some (m, outNil) ∧
    doRequest m setFrame'.cmd = some (m', outNil) := by
  obtain ⟨m, hset, h⟩ := doSet_spec models_empty (ascii "k") (ascii "v")
  obtain ⟨m', hset', -⟩ := doSet_spec h (ascii "j") (ascii "w")
  exact ⟨m, m', hset, hset'⟩

theorem recorded_sets : ∃ (l : Loop (Mem ℤ)) (H : History (Mem ℤ)),
    Loop.Recorded doRequest Mem.empty l H ∧
      H.commands = [(setFrame.cmd, some (capReply outNil)),
        (setFrame'.cmd, some (capReply outNil))] := by
  obtain ⟨m, m', hset, hset'⟩ := exists_sets
  obtain ⟨s, s', H, H', es, h, -, -, -, -, hruns, -, -, -, -, -, -, -, -, -, -, -, hlog⟩ :=
    recorded_interleaved doRequest hset hset'
  refine ⟨_, H', h.runs hruns, ?_⟩
  rw [History.commands, hlog]
  rfl

theorem linearizable_sets : ∃ (l : Loop (Mem ℤ)) (H : History (Mem ℤ)), H.commands.length = 2 ∧
    ∃ trees K, Models True l.server.db trees K ∧
      (keyspace ℤ).Legal (fun _ ↦ none) H.commands K := by
  obtain ⟨l, H, h, hcommands⟩ := recorded_sets
  exact ⟨l, H, by rw [hcommands]; rfl, (linearizable h).1⟩

theorem key_isolated_sets : ∃ (H : History (Mem ℤ)) (K' : Keyspace ℤ), H.commands.length = 2 ∧
    (H.commands.filter fun x ↦ onKey (ascii "k") x.1) = [(setFrame.cmd, some (capReply outNil))] ∧
    (keyspace ℤ).Legal (fun _ ↦ none) (H.commands.filter fun x ↦ onKey (ascii "k") x.1) K' := by
  obtain ⟨l, H, h, hcommands⟩ := recorded_sets
  obtain ⟨-, -, K', -, hlegal, -⟩ := key_isolated h (ascii "k")
  exact ⟨H, K', by rw [hcommands]; rfl, by rw [hcommands]; rfl, hlegal⟩

/-- Of two connections the second receives four bytes of a length, and its buffer holds zeros behind
them. -/
theorem server_stops_after_length : ∃ (l l' : Loop (Mem ℤ)) (e : Event) (c : Conn),
    l.server.clients = [9, 7] ∧ l.step doRequest e = .stop (.conn .outOfBounds) l' ∧
      l.Serves e 9 [.data [4, 0, 0, 0]] [] ∧ c.CutAccepted := by
  obtain ⟨s, H, h, hs, -⟩ := recorded_two (doRequest (S := ℤ)) Mem.empty
  obtain ⟨idle, hinv⟩ := h.reachable.inv
  have hlive : 9 ∈ s.clients := by
    rw [hs.clients]
    decide
  obtain ⟨a, hpoll, hentry⟩ := hinv.poll_one doRequest ⟨1, 0⟩ hlive
  have hclock : 1000000 ≤ getMonotonicUsec ⟨1, 0⟩ := by decide
  have h₁ := h.step (e := .poll ⟨1, 0⟩ _ false) ⟨hclock, trivial⟩ hpoll
  obtain ⟨idle₁, hinv₁⟩ := h₁.reachable.inv
  obtain ⟨w, hio⟩ : ∃ w, connectionIo doRequest
      { conn := (s.client 9).conn, db := s.db, recvs := [.data [4, 0, 0, 0]], sends := [] }
        = .stop .outOfBounds w := by
    rw [hs.conns.2, hs.db]
    set w₀ : World (Mem ℤ) := (accepted (fun _ ↦ 0) (fun _ ↦ 0) Mem.empty).woken
      { recvs := [.data [4, 0, 0, 0]] }
    obtain ⟨rbuf, hcopy, hreq⟩ := stateReq_data doRequest (w := w₀) [] rfl (by decide) (by decide)
    set w := w₀.filled [] [4, 0, 0, 0] rbuf
    obtain rfl := Option.some_inj.mp (Eq.symm hcopy)
    have hrequest : w.conn.request = some [] := rfl
    have hcut : w.conn.CutAccepted := ⟨by decide, by decide, rfl⟩
    have hdb : ∀ cmd, w.conn.request = some cmd → (doRequest w.db cmd).isSome := by
      intro cmd hcmd
      obtain rfl := Option.some_inj.mp (hrequest.symm.trans hcmd)
      rfl
    obtain ⟨w', hstop⟩ := World.stop_of_cutAccepted ⟨rfl, rfl, rfl⟩ (by decide) hcut hdb
    exact ⟨w', hreq.trans hstop⟩
  obtain ⟨l', hstep⟩ :=
    hinv₁.serve_stop [.data [4, 0, 0, 0]] [] (le_refl (getMonotonicUsec ⟨1, 0⟩)) hentry hio
  have he : Loop.Allows ⟨s, .serve [a] false, getMonotonicUsec ⟨1, 0⟩⟩
      (.io ⟨1, 0⟩ [.data [4, 0, 0, 0]] []) := ⟨le_rfl, trivial⟩
  obtain ⟨p, -, recvs, sends, c, f', v, -, hf, -, -, hcases⟩ := server_stops h₁ he hstep
  obtain rfl := LoopFault.conn.inj hf
  rcases hcases with ⟨hnot, -⟩ | ⟨-, t, -, hcut⟩
  · cases hnot
  · exact ⟨_, l', _, t.1, hs.clients, hstep, ⟨a, [], false, ⟨1, 0⟩, rfl, rfl, hentry⟩, hcut⟩

end RedisOnC
