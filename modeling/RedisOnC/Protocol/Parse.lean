import RedisOnC.Lib.Buffer
import RedisOnC.Protocol.Serial

/-!
# Requests

`parse_req` of `server.cpp`. Its argument is memory of which only some offsets are readable, and
the result is `none` when a byte is read that is not. The test `pos + sz > len` leaves out the four
bytes of the length in front of an argument, so the argument is copied from up to four bytes behind
the request; the test `pos != len` at the end then refuses the request.
-/

namespace RedisOnC

variable {data data' : ℕ → Option UInt8} {len n pos : ℕ} {out : List Bytes}
variable {r : ℤ × List Bytes} {buf : Buffer}

def kMaxArgs : ℕ := 1024

/-- `memcpy(&x, &data[pos], 4)` into a `uint32_t`. -/
def loadU32 (data : ℕ → Option UInt8) (pos : ℕ) : Option ℕ := (readBytes data pos 4).map ofLEBytes

/-- The loop of `parse_req`, with `n` arguments to go. -/
def parseArgs (data : ℕ → Option UInt8) (len : ℕ) :
    ℕ → ℕ → List Bytes → Option (ℤ × List Bytes)
  | 0, pos, out => some (if pos ≠ len then -1 else 0, out)
  | n + 1, pos, out =>
    if len < pos + 4 then some (-1, out)
    else do
      let sz ← loadU32 data pos
      if len < pos + sz then some (-1, out)
      else
        let arg ← readBytes data (pos + 4) sz
        parseArgs data len n (pos + (4 + sz) % 2 ^ 32) (out ++ [arg])

/-- `parse_req`: `0` or `-1`, and the arguments. -/
def parseReq (data : ℕ → Option UInt8) (len : ℕ) : Option (ℤ × List Bytes) := do
  let n ← loadU32 data 0
  if kMaxArgs < n then some (-1, []) else parseArgs data len n 4 []

/-! ## Only what is readable matters -/

theorem loadU32_mono (hdata : ∀ i b, data i = some b → data' i = some b)
    (h : loadU32 data pos = some n) : loadU32 data' pos = some n := by
  obtain ⟨bs, hbs, hn⟩ := Option.map_eq_some_iff.mp h
  rw [loadU32, readBytes_mono hdata hbs, Option.map_some, hn]

private theorem parseArgs_mono (hdata : ∀ i b, data i = some b → data' i = some b)
    (h : parseArgs data len n pos out = some r) : parseArgs data' len n pos out = some r := by
  induction n generalizing pos out with
  | zero => exact h
  | succ n ih =>
    rw [parseArgs] at h ⊢
    split
    · next hlen => rwa [if_pos hlen] at h
    · next hlen =>
      rw [if_neg hlen] at h
      obtain ⟨sz, hsz, h⟩ := Option.bind_eq_some_iff.mp h
      rw [Option.bind_eq_bind, loadU32_mono hdata hsz, Option.bind_some]
      split
      · next hpos => rwa [if_pos hpos] at h
      · next hpos =>
        rw [if_neg hpos] at h
        obtain ⟨arg, harg, h⟩ := Option.bind_eq_some_iff.mp h
        rw [readBytes_mono hdata harg, Option.bind_eq_bind, Option.bind_some]
        exact ih h

theorem loadU32_list {bs tail : Bytes} (hn : n < 256 ^ 4) (h : bs.drop pos = leBytes 4 n ++ tail) :
    loadU32 (fun i ↦ bs[i]?) pos = some n := by
  have hlength := congrArg List.length h
  rw [List.length_append, length_leBytes, List.length_drop] at hlength
  rw [loadU32, readBytes_list (by omega), h, List.take_left' (length_leBytes 4 _),
    Option.map_some, ofLEBytes_leBytes_of_lt hn]

theorem parseReq_mono (hdata : ∀ i b, data i = some b → data' i = some b)
    (h : parseReq data len = some r) : parseReq data' len = some r := by
  rw [parseReq] at h ⊢
  obtain ⟨n, hn, h⟩ := Option.bind_eq_some_iff.mp h
  rw [Option.bind_eq_bind, loadU32_mono hdata hn, Option.bind_some]
  split
  · next hargs => rwa [if_pos hargs] at h
  · next hargs =>
    rw [if_neg hargs] at h
    exact parseArgs_mono hdata h

/-! ## Frames -/

/-- A request that `parse_req` accepts, with the length in front of it. -/
structure Frame where
  body : Bytes
  cmd : List Bytes
  length_le : body.length ≤ kMaxMsg
  accepted : parseReq (fun i ↦ body[i]?) body.length = some (0, cmd)

namespace Frame

/-- The bytes of a frame on the wire. -/
def bytes (f : Frame) : Bytes := leBytes 4 f.body.length ++ f.body

theorem length_bytes (f : Frame) : f.bytes.length = 4 + f.body.length := by
  rw [bytes, List.length_append, length_leBytes]

theorem length_bytes_le (f : Frame) : f.bytes.length ≤ 4 + kMaxMsg := by
  rw [length_bytes]
  exact Nat.add_le_add_left f.length_le 4

theorem ofLEBytes_take (f : Frame) : ofLEBytes (f.bytes.take 4) = f.body.length := by
  have hlen : f.body.length < 256 ^ 4 := f.length_le.trans_lt (by decide)
  rw [bytes, List.take_left' (length_leBytes 4 _), ofLEBytes_leBytes_of_lt hlen]

/-- Wherever the body of a frame stands, and whatever follows it, it is accepted. -/
theorem parseReq_slice (f : Frame) (hbuf : buf.slice pos f.body.length = f.body) :
    parseReq (fun i ↦ some (buf (pos + i))) f.body.length = some (0, f.cmd) := by
  refine parseReq_mono (fun i b hb ↦ ?_) f.accepted
  have hi : i < f.body.length := (List.getElem?_eq_some_iff.mp hb).1
  rw [← hbuf, Buffer.getElem?_slice, if_pos hi] at hb
  exact hb

/-- The request without any words. -/
def empty : Frame := ⟨[0, 0, 0, 0], [], by decide, by decide⟩

end Frame

end RedisOnC
