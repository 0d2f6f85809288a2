import RedisOnC.Conn.Basic
import RedisOnC.Protocol.Counts

/-!
# Reading a response

`read_full` and `read_res` of `client.cpp`. What `recv` returns is an input; while it does not
return there is no result.

`read_res` refuses a response only when `on_response` counts a positive number of bytes that is not
the length of the response. The value `-1`, with which `on_response` refuses a response, passes that
test, so `read_res` returns `0` for it.
-/

namespace RedisOnC

variable {recvs rest : List RecvResult} {n : ℕ} {payload : Bytes}

/-- `read_full`: `0` or an error, the bytes read, and what `recv` returns later. A string that is
longer than the buffer is returned in parts. -/
def readFull : List RecvResult → ℕ → Option (ℤ × Bytes × List RecvResult)
  | recvs, 0 => some (0, [], recvs)
  | [], _ + 1 => none
  | .eintr :: recvs, n + 1 => readFull recvs (n + 1)
  | .data bytes :: recvs, n + 1 =>
    if bytes = [] then some (-2, [], recvs)
    else if n + 1 < bytes.length then
      some (0, bytes.take (n + 1), .data (bytes.drop (n + 1)) :: recvs)
    else
      (readFull recvs (n + 1 - bytes.length)).map fun (err, more, recvs) ↦
        (err, bytes ++ more, recvs)
  | _ :: recvs, _ + 1 => some (-1, [], recvs)

/-- What can be read from `&rbuf[4]` on: the response, and what the buffer held behind it. -/
def responseMem (rbuf : Buffer) (body : Bytes) (i : ℕ) : Option UInt8 :=
  if i < body.length then body[i]?
  else if 4 + i < 4 + kMaxMsg + 1 then some (rbuf (4 + i))
  else none

/-- The lines that `read_res` prints when `read_full` fails. -/
def readError (err : ℤ) : List Line :=
  if err = -1 then [.bad "recv() error"] else if err = -2 then [.bad "EOF"] else []

/-- `read_res`, with the contents of its buffer before. -/
def readRes (rbuf : Buffer) (recvs : List RecvResult) : Option (ℤ × List Line) := do
  let (err, head, recvs) ← readFull recvs 4
  if err ≠ 0 then some (err, readError err)
  else
    let len := ofLEBytes head
    if kMaxMsg < len then some (-1, [.num (toInt32 len), .bad "msg too long"])
    else do
      let (err, body, _) ← readFull recvs len
      if err ≠ 0 then some (err, readError err)
      else do
        let (rv, lines) ← onResponse (responseMem rbuf body) 0 len
        if 0 < rv ∧ rv ≠ len then some (-1, lines ++ [.bad "bad response c"])
        else some (0, lines)

/-! ## The stream -/

/-- Only bytes and interruptions. -/
def Flows (recvs : List RecvResult) : Prop :=
  ∀ r ∈ recvs, r = .eintr ∨ ∃ bytes, bytes ≠ [] ∧ r = .data bytes

/-- The bytes that are returned. -/
def streamed : List RecvResult → Bytes
  | [] => []
  | .data bytes :: recvs => bytes ++ streamed recvs
  | _ :: recvs => streamed recvs

/-- The end of the stream, or an error. -/
def Ends (r : RecvResult) : Prop := r = .data [] ∨ r = .eagain ∨ r = .error

@[simp] theorem readFull_zero : readFull recvs 0 = some (0, [], recvs) := by
  cases recvs <;> rfl

theorem Flows.tail {r : RecvResult} (h : Flows (r :: recvs)) : Flows recvs :=
  fun r hr ↦ h r (List.mem_cons_of_mem _ hr)

theorem readFull_of_le (hflows : Flows recvs) (hn : n ≤ (streamed recvs).length)
    (more : List RecvResult) :
    ∃ left, readFull (recvs ++ more) n = some (0, (streamed recvs).take n, left ++ more) ∧
      Flows left ∧ streamed left = (streamed recvs).drop n := by
  induction recvs generalizing n with
  | nil =>
    obtain rfl : n = 0 := Nat.le_zero.mp hn
    exact ⟨[], readFull_zero, hflows, rfl⟩
  | cons r recvs ih =>
    cases n with
    | zero => exact ⟨r :: recvs, readFull_zero, hflows, rfl⟩
    | succ n =>
      rcases hflows r List.mem_cons_self with rfl | ⟨bytes, hne, rfl⟩
      · obtain ⟨left, hread, hleft⟩ := ih hflows.tail hn
        exact ⟨left, hread, hleft⟩
      · rw [streamed, List.length_append] at hn
        rw [List.cons_append, readFull, if_neg hne, streamed]
        by_cases hlong : n + 1 < bytes.length
        · rw [if_pos hlong, List.take_append_of_le_length hlong.le,
            List.drop_append_of_le_length hlong.le]
          refine ⟨.data (bytes.drop (n + 1)) :: recvs, rfl, fun r hr ↦ ?_, rfl⟩
          rcases List.mem_cons.mp hr with rfl | hr
          · refine Or.inr ⟨_, fun hnil ↦ ?_, rfl⟩
            rw [List.drop_eq_nil_iff] at hnil
            omega
          · exact hflows.tail r hr
        · obtain ⟨left, hread, hleft, hstream⟩ := ih hflows.tail
            (show n + 1 - bytes.length ≤ (streamed recvs).length by omega)
          have htake : bytes.take (n + 1) = bytes := List.take_of_length_le (not_lt.mp hlong)
          have hdrop : bytes.drop (n + 1) = [] := List.drop_eq_nil_of_le (not_lt.mp hlong)
          refine ⟨left, ?_, hleft, ?_⟩
          · rw [if_neg hlong, hread, Option.map_some, List.take_append, htake]
          · rw [hstream, List.drop_append, hdrop, List.nil_append]

theorem readFull_of_lt (hflows : Flows recvs) (hn : (streamed recvs).length < n)
    {last : RecvResult} (hlast : Ends last) (rest : List RecvResult) :
    ∃ err bytes left, readFull (recvs ++ last :: rest) n = some (err, bytes, left) ∧ err ≠ 0 := by
  induction recvs generalizing n with
  | nil =>
    obtain ⟨n, rfl⟩ := Nat.exists_eq_succ_of_ne_zero (Nat.ne_of_gt hn)
    rcases hlast with rfl | rfl | rfl
    · exact ⟨-2, [], rest, rfl, by decide⟩
    · exact ⟨-1, [], rest, rfl, by decide⟩
    · exact ⟨-1, [], rest, rfl, by decide⟩
  | cons r recvs ih =>
    obtain ⟨n, rfl⟩ := Nat.exists_eq_succ_of_ne_zero (Nat.ne_of_gt (Nat.zero_lt_of_lt hn))
    rcases hflows r List.mem_cons_self with rfl | ⟨bytes, hne, rfl⟩
    · exact ih hflows.tail hn
    · rw [streamed, List.length_append] at hn
      obtain ⟨err, more, left, hread, herr⟩ := ih hflows.tail
        (show (streamed recvs).length < n + 1 - bytes.length by omega)
      refine ⟨err, bytes ++ more, left, ?_, herr⟩
      rw [List.cons_append, Nat.succ_eq_add_one, readFull, if_neg hne, if_neg (by omega), hread]
      rfl

/-! ## The response -/

/-- When `read_res` meets the whole response, it all depends on `on_response`. -/
private theorem readRes_eq (hmax : payload.length ≤ kMaxMsg) (rbuf : Buffer)
    (hflows : Flows recvs) {more : Bytes}
    (hstream : streamed recvs = leBytes 4 payload.length ++ (payload ++ more)) :
    readRes rbuf recvs = (onResponse (responseMem rbuf payload) 0 payload.length).map
      fun r ↦ if 0 < r.1 ∧ r.1 ≠ (payload.length : ℤ) then (-1, r.2 ++ [.bad "bad response c"])
        else (0, r.2) := by
  have hmax' : payload.length ≤ 4096 := hmax
  have hlength := congrArg List.length hstream
  simp only [List.length_append, length_leBytes] at hlength
  have hfour : 4 ≤ (streamed recvs).length := by omega
  obtain ⟨left, hhead, hleft, hrest⟩ := readFull_of_le hflows hfour []
  rw [List.append_nil, List.append_nil, hstream, List.take_left' (length_leBytes 4 _)] at hhead
  rw [hstream, List.drop_left' (length_leBytes 4 _)] at hrest
  have hbody : payload.length ≤ (streamed left).length := by
    rw [hrest, List.length_append]
    exact Nat.le_add_right _ _
  obtain ⟨left', hread, -, -⟩ := readFull_of_le hleft hbody []
  rw [List.append_nil, List.append_nil, hrest, List.take_left' rfl] at hread
  have hlen : ofLEBytes (leBytes 4 payload.length) = payload.length :=
    ofLEBytes_leBytes_of_lt (by omega)
  rw [readRes, hhead, Option.bind_eq_bind, Option.bind_some]
  dsimp only
  rw [if_neg (not_not.mpr rfl), hlen, if_neg (not_lt.mpr hmax), hread, Option.bind_some]
  dsimp only
  rw [if_neg (not_not.mpr rfl)]
  cases onResponse (responseMem rbuf payload) 0 payload.length with
  | none => rfl
  | some r =>
    obtain ⟨rv, lines⟩ := r
    rw [Option.map_some, Option.bind_eq_bind, Option.bind_some]
    by_cases hbad : 0 < rv ∧ rv ≠ payload.length
    · rw [if_pos hbad, if_pos hbad]
    · rw [if_neg hbad, if_neg hbad]

private theorem onResponse_responseMem (rbuf : Buffer) {r : ℤ × List Line}
    (h : onResponse (fun i ↦ payload[i]?) 0 payload.length = some r) :
    onResponse (responseMem rbuf payload) 0 payload.length = some r := by
  apply onResponseWithin_mono _ h
  intro i b hb
  rw [responseMem, if_pos (List.getElem?_eq_some_iff.mp hb).1]
  exact hb

theorem readRes_encode {v : Value} (hmax : v.encode.length ≤ kMaxMsg) (rbuf : Buffer)
    (hflows : Flows recvs) {more : Bytes}
    (hstream : streamed recvs = leBytes 4 v.encode.length ++ (v.encode ++ more)) :
    readRes rbuf recvs = some (0, v.lines 0) := by
  rw [readRes_eq hmax rbuf hflows hstream, onResponse_responseMem rbuf (onResponse_encode hmax),
    Option.map_some]
  exact congrArg some (if_neg fun h ↦ h.2 rfl)

/-- What the buffer of `read_res` holds behind a response of `n` bytes. -/
def staleBytes (rbuf : Buffer) (n : ℕ) : Bytes := rbuf.slice (4 + n) (kMaxMsg + 1 - n)

theorem responseMem_eq (hmax : payload.length ≤ kMaxMsg) (rbuf : Buffer) :
    responseMem rbuf payload = fun i ↦ (payload ++ staleBytes rbuf payload.length)[i]? := by
  funext i
  rw [responseMem]
  by_cases hi : i < payload.length
  · rw [if_pos hi, List.getElem?_append_left hi]
  · rw [if_neg hi, List.getElem?_append_right (not_lt.mp hi), staleBytes, Buffer.getElem?_slice,
      show 4 + payload.length + (i - payload.length) = 4 + i by omega]
    exact if_congr (by omega) rfl rfl

/-- The response begins with a value, or it comes to a text whose length wraps around and counts all
the same to a positive number of bytes that is not its length. -/
def Caught (rbuf : Buffer) (payload : Bytes) : Prop :=
  (∃ (v : Value) (rest : Bytes), payload = v.encode ++ rest) ∨
    Wraps payload ∧ ∃ k, Counts (staleBytes rbuf payload.length) payload k ∧ 0 < k ∧
      k ≠ payload.length

/-- `read_res` returns, and returns `0` for a spelling only, if and only if it is caught when
`on_response` reads on. -/
private theorem accepts_iff_caught (hmax : payload.length ≤ kMaxMsg) (rbuf : Buffer)
    (hflows : Flows recvs) {more : Bytes}
    (hstream : streamed recvs = leBytes 4 payload.length ++ (payload ++ more)) :
    (∃ r lines, readRes rbuf recvs = some (r, lines) ∧
      (r = 0 ↔ ∃ v : Value, v.encode = payload)) ↔ Caught rbuf payload := by
  have hmax' : payload.length ≤ 4096 := hmax
  rw [readRes_eq hmax rbuf hflows hstream]
  have hcall : Decoded 0 payload.length payload
      (onResponse (fun i ↦ payload[i]?) 0 payload.length) :=
    decoded hmax (Nat.zero_le _) (Nat.lt_succ_self _)
  have hmono : ∀ r, onResponse (fun i ↦ payload[i]?) 0 payload.length = some r →
      onResponse (responseMem rbuf payload) 0 payload.length = some r :=
    fun r h ↦ onResponse_responseMem rbuf h
  have hwhole : ∀ v : Value, v.encode = payload → payload = v.encode ++ [] := by
    intro v hv
    rw [List.append_nil, hv]
  have hcounts : ∀ k : ℕ, (∃ lines, onResponse (responseMem rbuf payload) 0 payload.length
      = some ((k : ℤ), lines)) ↔ Counts (staleBytes rbuf payload.length) payload k := fun k ↦ by
    rw [responseMem_eq hmax]
    exact counts_iff hmax (Nat.zero_le _) (Nat.lt_succ_self _)
  generalize onResponse (fun i ↦ payload[i]?) 0 payload.length = o at hcall hmono
  cases hcall with
  | value v rest hsplit hwraps hinside =>
    have hcaught : Caught rbuf payload := Or.inl ⟨v, rest, hsplit⟩
    have hpos : 0 < v.encode.length := by
      rw [Value.encode_eq]
      exact Nat.succ_pos _
    have hall := congrArg List.length hsplit
    rw [List.length_append] at hall
    rw [hmono _ rfl, Option.map_some]
    by_cases hrest : rest = []
    · -- the value is the whole response
      rw [hrest, List.append_nil] at hsplit
      rw [if_neg (fun h ↦ h.2 (by rw [hsplit]))]
      exact iff_of_true ⟨_, _, rfl, iff_of_true rfl ⟨v, hsplit.symm⟩⟩ hcaught
    · -- there are bytes behind the value, and the count says so
      have hrestpos := List.length_pos_iff.mpr hrest
      rw [if_pos ⟨by omega, by omega⟩]
      refine iff_of_true ⟨_, _, rfl, iff_of_false (by decide) ?_⟩ hcaught
      rintro ⟨u, hu⟩
      have hboth : v.encode ++ rest = u.encode ++ [] := hsplit.symm.trans (hwhole u hu)
      exact hrest (Value.encode_append_inj hboth (by rw [← hsplit]; omega)).2
  | refused rv lines hrv hno hwraps hinside =>
    -- a negative count passes as success
    rw [hmono _ rfl, Option.map_some, if_neg (fun h ↦ absurd h.1 (not_lt.mpr hrv.le))]
    refine iff_of_false ?_ ?_
    · rintro ⟨r, _, heq, hiff⟩
      obtain ⟨rfl, -⟩ := Prod.mk.inj (Option.some_inj.mp heq)
      obtain ⟨v, hv⟩ := hiff.mp rfl
      exact hno v [] (hwhole v hv)
    · rintro (⟨v, rest, hsplit⟩ | ⟨h, -⟩)
      · exact hno v rest hsplit
      · exact hwraps h
  | wraps _ hno hwraps houtside =>
    constructor
    · rintro ⟨r, lines, heq, hiff⟩
      obtain ⟨⟨rv, out⟩, hcount, heq⟩ := Option.map_eq_some_iff.mp heq
      by_cases hbad : 0 < rv ∧ rv ≠ payload.length
      · obtain ⟨k, rfl⟩ := Int.eq_ofNat_of_zero_le hbad.1.le
        exact Or.inr ⟨hwraps, k, (hcounts k).mp ⟨out, hcount⟩, by omega, by omega⟩
      · obtain ⟨rfl, -⟩ := Prod.mk.inj ((if_neg hbad).symm.trans heq)
        obtain ⟨v, hv⟩ := hiff.mp rfl
        exact absurd (hwhole v hv) (hno v [])
    · rintro (⟨v, rest, hsplit⟩ | ⟨-, k, hcount, hpos, hne⟩)
      · exact absurd hsplit (hno v rest)
      · obtain ⟨lines, hcount⟩ := (hcounts k).mpr hcount
        rw [hcount, Option.map_some, if_pos ⟨by omega, by omega⟩]
        refine ⟨_, _, rfl, iff_of_false (by decide) ?_⟩
        rintro ⟨v, hv⟩
        exact hno v [] (hwhole v hv)

private theorem readRes_cut (hmax : payload.length ≤ kMaxMsg) (rbuf : Buffer)
    (hflows : Flows recvs) {last : RecvResult} (hends : Ends last)
    (hpre : streamed recvs <+: leBytes 4 payload.length ++ payload)
    (hshort : (streamed recvs).length < 4 + payload.length) (rest : List RecvResult) :
    ∃ r lines, readRes rbuf (recvs ++ last :: rest) = some (r, lines) ∧ r ≠ 0 := by
  have hmax' : payload.length ≤ 4096 := hmax
  have hlen : ofLEBytes (leBytes 4 payload.length) = payload.length :=
    ofLEBytes_leBytes_of_lt (by omega)
  by_cases hhead : (streamed recvs).length < 4
  · -- it ends within the length
    obtain ⟨err, bytes, left, hread, herr⟩ := readFull_of_lt hflows hhead hends rest
    refine ⟨err, readError err, ?_, herr⟩
    rw [readRes, hread, Option.bind_eq_bind, Option.bind_some]
    exact if_pos herr
  · obtain ⟨left, hread, hleft, hrest⟩ := readFull_of_le hflows (not_lt.mp hhead) (last :: rest)
    have htake : (streamed recvs).take 4 = leBytes 4 payload.length := by
      obtain ⟨tail, htail⟩ := hpre
      have hfront : (streamed recvs ++ tail).take 4 = (streamed recvs).take 4 :=
        List.take_append_of_le_length (not_lt.mp hhead)
      rw [← hfront, htail, List.take_left' (length_leBytes 4 _)]
    have hbody : (streamed left).length < payload.length := by
      rw [hrest, List.length_drop]
      omega
    obtain ⟨err, bytes, left', hread', herr⟩ := readFull_of_lt hleft hbody hends rest
    refine ⟨err, readError err, ?_, herr⟩
    rw [readRes, hread, Option.bind_eq_bind, Option.bind_some, htake]
    dsimp only
    rw [if_neg (not_not.mpr rfl), hlen, if_neg (not_lt.mpr hmax), hread', Option.bind_some]
    exact if_pos herr

/-- **Success only for a well-formed response.** `read_res` returns, and returns `0` exactly for the
spelling of a value, on those responses that begin with a value, up to texts whose length wraps
around. When the stream ends before the response does, it always returns an error. -/
theorem readRes_exact_iff (hmax : payload.length ≤ kMaxMsg) (rbuf : Buffer) :
    (∀ (recvs : List RecvResult) (more : Bytes), Flows recvs →
      streamed recvs = leBytes 4 payload.length ++ (payload ++ more) →
      ((∃ r lines, readRes rbuf recvs = some (r, lines) ∧
        (r = 0 ↔ ∃ v : Value, v.encode = payload)) ↔ Caught rbuf payload)) ∧
    ∀ (recvs : List RecvResult) (last : RecvResult) (rest : List RecvResult), Flows recvs →
      Ends last → streamed recvs <+: leBytes 4 payload.length ++ payload →
      (streamed recvs).length < 4 + payload.length →
      ∃ r lines, readRes rbuf (recvs ++ last :: rest) = some (r, lines) ∧ r ≠ 0 := by
  constructor
  · intro recvs more hflows hstream
    exact accepts_iff_caught hmax rbuf hflows hstream
  · intro recvs last rest hflows hends hpre hshort
    exact readRes_cut hmax rbuf hflows hends hpre hshort rest

/-- An array in an array, in two parts; the same, with the connection closed after the first part;
and a text whose length wraps, which is caught. -/
theorem readRes_exact_nested :
    (∃ r lines, readRes (fun _ ↦ 0) [.data [27, 0], .eintr, .data ([0, 0] ++ nested.encode)]
      = some (r, lines) ∧ (r = 0 ↔ ∃ v : Value, v.encode = nested.encode)) ∧
    (∃ r lines, readRes (fun _ ↦ 0) [.data [27, 0], .data []] = some (r, lines) ∧ r ≠ 0) ∧
    ∃ r lines, readRes (fun _ ↦ 0) [.data [5, 0, 0, 0, 2, 255, 255, 255, 255]] = some (r, lines) ∧
      (r = 0 ↔ ∃ v : Value, v.encode = [2, 255, 255, 255, 255]) := by
  have hmax : nested.encode.length ≤ kMaxMsg := by decide
  have hmax' : ([2, 255, 255, 255, 255] : Bytes).length ≤ kMaxMsg := by decide
  have hflows : Flows [.data [27, 0]] := by
    intro r hr
    rw [List.mem_singleton.mp hr]
    exact Or.inr ⟨_, by decide, rfl⟩
  refine ⟨?_, ?_, ?_⟩
  · refine ((readRes_exact_iff hmax fun _ ↦ 0).1 _ [] (fun r hr ↦ ?_) ?_).mpr
      (Or.inl ⟨nested, [], (List.append_nil _).symm⟩)
    · rcases List.mem_cons.mp hr with rfl | hr
      · exact hflows _ (List.mem_singleton_self _)
      rcases List.mem_cons.mp hr with rfl | hr
      · exact Or.inl rfl
      · rw [List.mem_singleton.mp hr]
        exact Or.inr ⟨_, by decide, rfl⟩
    · decide
  · exact (readRes_exact_iff hmax fun _ ↦ 0).2 _ (.data []) [] hflows (Or.inl rfl) (by decide)
      (by decide)
  · refine ((readRes_exact_iff hmax' fun _ ↦ 0).1 _ [] (fun r hr ↦ ?_) rfl).mpr
      (Or.inr ⟨.str 4294967295 [] (by decide) (by decide), 4, ?_, by decide, by decide⟩)
    · rw [List.mem_singleton.mp hr]
      exact Or.inr ⟨_, by decide, rfl⟩
    · have hzero : (0 : UInt8) ∈ ([] : Bytes) ++ staleBytes (fun _ ↦ 0) 5 := by
        rw [List.nil_append, staleBytes, Buffer.slice]
        exact List.mem_map.mpr ⟨0, List.mem_range.mpr (by decide), rfl⟩
      exact .str 4294967295 [] (by decide) (Or.inr ⟨by decide, hzero⟩)

/-- An empty response: `on_response` refuses it, and `read_res` returns `0`. -/
theorem readRes_accepts_empty :
    onResponse (fun i ↦ ([] : Bytes)[i]?) 0 0 = some (-1, [.bad "bad response from the server1"]) ∧
      readRes (fun _ ↦ 0) [.data [0, 0, 0, 0]]
        = some (0, [.bad "bad response from the server1"]) ∧
      ∀ v : Value, v.encode ≠ [] := by
  refine ⟨rfl, rfl, fun v h ↦ ?_⟩
  rw [Value.encode_eq] at h
  cases h

end RedisOnC
