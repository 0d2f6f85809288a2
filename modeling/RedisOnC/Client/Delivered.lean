import RedisOnC.Client.ReadRes
import RedisOnC.Conn.Served
import RedisOnC.Server.Content
import RedisOnC.Server.Query
import RedisOnC.Server.Values

/-!
# Replies at the client

Every reply is the spelling of one value: `nil`, an error, a string, an integer, a double or an
array. The limit on the size of a reply puts an error in the place of a value that is too big, and
what is sent is again the spelling of one value. The client decodes that value to its last byte.

The value is the one that the command writes (`doRequestValue`). Whether a command writes the right
one is another matter: a `ZQUERY` lists the tuples that `avl_offset` leads to.
-/

namespace RedisOnC

open Request

variable {S : Type} [Score S] {m : Mem S} {out : Bytes}

/-! ## Values that are sent -/

/-- The error that stands for a value that is too big. -/
def tooBig : Value := .err err2Big (ascii "response is too big")

/-- The value that is sent for a value. -/
def Value.cap (v : Value) : Value := if kMaxMsg < 4 + v.encode.length then tooBig else v

theorem capReply_encode (v : Value) : capReply v.encode = v.cap.encode := by
  rw [capReply, Value.cap]
  split
  · rfl
  · rfl

/-- The client gets the value for a reply: what is sent is its spelling, the frame fits both
buffers, `on_response` decodes it to its last byte and `read_res` accepts it. -/
structure Delivered (out : Bytes) (v : Value) : Prop where
  spelling : capReply out = v.encode
  wbuf : 4 + (capReply out).length ≤ sizeofBuf
  limit : (capReply out).length ≤ kMaxMsg
  decoded : onResponse (fun i ↦ (capReply out)[i]?) 0 (capReply out).length
    = some (((capReply out).length : ℤ), v.lines 0)
  accepted : ∀ (rbuf : Buffer) (recvs : List RecvResult) (more : Bytes), Flows recvs →
    streamed recvs = leBytes 4 (capReply out).length ++ (capReply out ++ more) →
      readRes rbuf recvs = some (0, v.lines 0)

theorem delivered_of_spelling (h : capReply out = v.encode) : Delivered out v := by
  have hle := length_capReply_le out
  have hmax : v.encode.length ≤ kMaxMsg := by
    rw [← h]
    omega
  constructor
  · exact h
  · rw [sizeofBuf]
    omega
  · omega
  · rw [h]
    exact onResponse_encode hmax
  · intro rbuf recvs more hflows hstream
    rw [h] at hstream
    exact readRes_encode hmax rbuf hflows hstream

theorem delivered_cap (v : Value) : Delivered v.encode v.cap :=
  delivered_of_spelling (capReply_encode v)

/-! ## Every reply -/

/-- **Replies at the client.** After any run of commands, each delivered in one message, and for any
command vector at all: `do_request` replies the spelling of the value that the command writes, which
is one that the keyspace allows; and what is sent of it, the value or the error for one that is too
big, fits both buffers, and the client decodes and accepts it. -/
theorem reply_decodable (entry : Ptr → Entry) (zset : Ptr → ZSet) (avl : AVLHeap)
    (znode : Ptr → ZNode S) (cmds : List (List Bytes)) (outs : List Bytes)
    (hrun : doRequests (Mem.init entry zset avl znode) cmds = some (m, outs))
    (hmsg : ∀ cmd ∈ cmds, ∀ word ∈ cmd, word.length ≤ kMaxMsg) (cmd : List Bytes) :
    doRequest m cmd = (doRequestValue m cmd).map spell ∧
    ∀ m' v, doRequestValue m cmd = some (m', v) →
      (ofCmd cmd).Reply True m.content v.encode ∧ Delivered v.encode v.cap := by
  obtain ⟨trees, h⟩ := models_of_messages hrun hmsg
  have heq := doRequest_eq_value h.db cmd
  refine ⟨heq, fun m' v hv ↦ ⟨?_, delivered_cap v⟩⟩
  rw [hv] at heq
  rw [h.content_eq]
  exact h.reply_of_doRequest heq

theorem reply_decodable_zquery : ∃ (m m' : Mem ℤ) (outs : List Bytes) (v : Value),
    doRequests Mem.empty addThree = some (m, outs) ∧
    doRequestValue m [ascii "zquery", ascii "k", ascii "3", ascii "c", ascii "-2", ascii "3"]
      = some (m', v) ∧
    v.encode = windowReply [((1 : ℤ), ascii "a"), (2, ascii "b")] ∧ Delivered v.encode v.cap := by
  obtain ⟨m, outs, hrun, -, m', hquery⟩ := exists_three
  obtain ⟨heq, hvalue⟩ := reply_decodable _ _ _ _ _ _ hrun (by decide)
    [ascii "zquery", ascii "k", ascii "3", ascii "c", ascii "-2", ascii "3"]
  have hreply : doRequest m [ascii "zquery", ascii "k", ascii "3", ascii "c", ascii "-2", ascii "3"]
      = some (m', windowReply [((1 : ℤ), ascii "a"), (2, ascii "b")]) := hquery
  rw [hreply] at heq
  obtain ⟨⟨m₁, v⟩, hv, hspell⟩ := Option.map_eq_some_iff.mp heq.symm
  exact ⟨m, m₁, outs, v, hrun, hv, congrArg Prod.snd hspell, (hvalue m₁ v hv).2⟩

end RedisOnC
