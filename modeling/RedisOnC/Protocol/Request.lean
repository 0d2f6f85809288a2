import RedisOnC.Protocol.Parse

/-!
# The request codec

`send_req` of `client.cpp` and `parse_req` of `server.cpp`. A request is spelled as the number
of its arguments and one block for each argument: its size, then its bytes.

`parse_req` accepts exactly the spelling of the arguments that it returns. It is the last test of
the function, `pos != len`, that makes this so: the test in the loop lets an argument end up to four
bytes behind the request. When the bytes behind the request are not there to be read, that argument
is read all the same, and `parseReq_isSome_iff` says which requests do that.
-/

namespace RedisOnC

variable {data : ℕ → Option UInt8} {len n pos k : ℕ} {out args cmd : List Bytes} {wbuf : Buffer}

/-- An argument in a request. -/
def block (s : Bytes) : Bytes := leBytes 4 s.length ++ s

/-- The spelling of a request. -/
def encodeReq (cmd : List Bytes) : Bytes := leBytes 4 cmd.length ++ cmd.flatMap block

theorem length_block (s : Bytes) : (block s).length = 4 + s.length := by
  rw [block, List.length_append, length_leBytes]

theorem length_encodeReq (cmd : List Bytes) :
    (encodeReq cmd).length = 4 + (cmd.map fun s ↦ 4 + s.length).sum := by
  rw [encodeReq, List.length_append, length_leBytes, List.length_flatMap]
  simp only [length_block]

/-- Every argument takes four bytes, so the limit on the number of arguments is never reached. -/
theorem length_le_of_encodeReq (hfit : (encodeReq cmd).length ≤ kMaxMsg) :
    cmd.length ≤ kMaxArgs := by
  have hblocks : 4 * cmd.length ≤ (cmd.map fun s ↦ 4 + s.length).sum := by
    induction cmd with
    | nil => exact Nat.le_refl 0
    | cons s cmd ih =>
      rw [length_encodeReq, List.map_cons, List.sum_cons] at hfit
      have hrest := ih (by rw [length_encodeReq]; omega)
      rw [List.map_cons, List.sum_cons, List.length_cons]
      omega
  rw [length_encodeReq] at hfit
  rw [kMaxMsg] at hfit
  rw [kMaxArgs]
  omega

/-! ## What is accepted -/

private theorem refused_ne : (some (-1, out) : Option (ℤ × List Bytes)) ≠ some (0, args) :=
  fun h ↦ absurd (congrArg Prod.fst (Option.some_inj.mp h)) (by decide : (-1 : ℤ) ≠ 0)

/-- `n` blocks up to the end of the request are accepted, and nothing else is. -/
private theorem parseArgs_eq_zero (hlen : len ≤ kMaxMsg) :
    parseArgs data len n pos out = some (0, args) ↔ ∃ more, args = out ++ more ∧ more.length = n ∧
      pos + (more.flatMap block).length = len ∧
      readBytes data pos (more.flatMap block).length = some (more.flatMap block) := by
  induction n generalizing pos out with
  | zero =>
    constructor
    · intro h
      have hpos : pos = len := by
        by_contra hne
        rw [parseArgs, if_pos hne] at h
        exact absurd h refused_ne
      have hout := congrArg Prod.snd (Option.some_inj.mp h)
      exact ⟨[], hout.symm.trans (List.append_nil out).symm, rfl, hpos, rfl⟩
    · rintro ⟨more, rfl, hmore, hpos, -⟩
      rw [List.length_eq_zero_iff.mp hmore] at hpos ⊢
      rw [parseArgs, if_neg (fun hne ↦ hne hpos), List.append_nil]
  | succ n ih =>
    rw [parseArgs]
    constructor
    · intro h
      by_cases hprefix : len < pos + 4
      · rw [if_pos hprefix] at h
        exact absurd h refused_ne
      · rw [if_neg hprefix] at h
        obtain ⟨sz, hsz, h⟩ := Option.bind_eq_some_iff.mp h
        obtain ⟨bs, hbs, rfl⟩ := Option.map_eq_some_iff.mp hsz
        by_cases hsize : len < pos + ofLEBytes bs
        · rw [if_pos hsize] at h
          exact absurd h refused_ne
        · rw [if_neg hsize] at h
          obtain ⟨arg, harg, h⟩ := Option.bind_eq_some_iff.mp h
          -- the length fits the message, so the step does not wrap in `uint32_t`
          have hnowrap : (4 + ofLEBytes bs) % 2 ^ 32 = 4 + ofLEBytes bs := by
            rw [kMaxMsg] at hlen
            exact Nat.mod_eq_of_lt (by omega)
          rw [hnowrap] at h
          obtain ⟨more, rfl, hmore, hpos, hread⟩ := ih.mp h
          have hblock : block arg = bs ++ arg := by
            rw [block, length_readBytes harg, ← length_readBytes hbs, leBytes_ofLEBytes]
          have hlength : (block arg).length = 4 + ofLEBytes bs := by
            rw [length_block, length_readBytes harg]
          refine ⟨arg :: more, by rw [List.append_assoc, List.singleton_append],
            by rw [List.length_cons, hmore], ?_, ?_⟩
          · rw [List.flatMap_cons, List.length_append, hlength, ← Nat.add_assoc, hpos]
          · rw [List.flatMap_cons, List.length_append, readBytes_add rfl, hlength]
            refine ⟨?_, hread⟩
            rw [hblock, readBytes_add (length_readBytes hbs)]
            exact ⟨hbs, harg⟩
    · rintro ⟨more, rfl, hmore, hpos, hread⟩
      obtain ⟨arg, more, rfl⟩ := List.exists_cons_of_length_eq_add_one hmore
      rw [List.flatMap_cons, List.length_append, length_block] at hpos
      rw [List.flatMap_cons, List.length_append, readBytes_add rfl, length_block] at hread
      obtain ⟨hblock, hread⟩ := hread
      obtain ⟨hbs, harg⟩ := (readBytes_add (length_leBytes 4 _)).mp hblock
      have hsmall : arg.length < 256 ^ 4 := by
        rw [kMaxMsg] at hlen
        omega
      have hsz : loadU32 data pos = some arg.length := by
        rw [loadU32, hbs, Option.map_some, ofLEBytes_leBytes_of_lt hsmall]
      have hnowrap : (4 + arg.length) % 2 ^ 32 = 4 + arg.length := by
        rw [kMaxMsg] at hlen
        exact Nat.mod_eq_of_lt (by omega)
      rw [if_neg (by omega), hsz, Option.bind_eq_bind, Option.bind_some, if_neg (by omega), harg,
        Option.bind_eq_bind, Option.bind_some, hnowrap]
      refine ih.mpr ⟨more, ?_, Nat.succ_injective hmore, ?_, hread⟩
      · rw [List.append_assoc, List.singleton_append]
      · rw [Nat.add_assoc, hpos]

theorem parseReq_eq_zero (hlen : len ≤ kMaxMsg) :
    parseReq data len = some (0, args) ↔
      args.length ≤ kMaxArgs ∧ readBytes data 0 len = some (encodeReq args) := by
  rw [parseReq]
  constructor
  · intro h
    obtain ⟨n, hn, h⟩ := Option.bind_eq_some_iff.mp h
    obtain ⟨bs, hbs, rfl⟩ := Option.map_eq_some_iff.mp hn
    by_cases hmax : kMaxArgs < ofLEBytes bs
    · rw [if_pos hmax] at h
      exact absurd h refused_ne
    · rw [if_neg hmax] at h
      obtain ⟨more, hmore, hcount, rfl, hread⟩ := (parseArgs_eq_zero hlen).mp h
      obtain rfl : args = more := hmore
      refine ⟨hcount.trans_le (not_lt.mp hmax), ?_⟩
      rw [encodeReq, hcount, ← length_readBytes hbs, leBytes_ofLEBytes, length_readBytes hbs]
      exact (readBytes_add (length_readBytes hbs)).mpr ⟨hbs, by rw [Nat.zero_add]; exact hread⟩
  · rintro ⟨hmax, hread⟩
    have hlength : len = 4 + (args.flatMap block).length := by
      rw [← length_readBytes hread, encodeReq, List.length_append, length_leBytes]
    rw [hlength, encodeReq, readBytes_add (length_leBytes 4 _), Nat.zero_add] at hread
    have hsmall : args.length < 256 ^ 4 := hmax.trans_lt (by decide)
    have hn : loadU32 data 0 = some args.length := by
      rw [loadU32, hread.1, Option.map_some, ofLEBytes_leBytes_of_lt hsmall]
    rw [hn, Option.bind_eq_bind, Option.bind_some, if_neg (not_lt.mpr hmax)]
    exact (parseArgs_eq_zero hlen).mpr ⟨args, rfl, rfl, hlength.symm, hread.2⟩

/-! ## The client -/

/-- `write_all`: `0` or `-1`, and the bytes that went out. A `send` fails or takes some bytes; while
bytes are left and no `send` returns there is no result. -/
def writeAll : List (Option ℕ) → Bytes → Option (ℤ × Bytes)
  | _, [] => some (0, [])
  | [], _ :: _ => none
  | none :: _, _ :: _ => some (-1, [])
  | some rv :: sends, b :: buf =>
    (writeAll sends ((b :: buf).drop rv)).map fun (r, wire) ↦ (r, (b :: buf).take rv ++ wire)

/-- The loop of `send_req` that fills in the arguments. -/
def sendArgs : Buffer → ℕ → List Bytes → Option Buffer
  | wbuf, _, [] => some wbuf
  | wbuf, margin, s :: cmd => do
    let wbuf ← Buffer.memcpy (4 + kMaxMsg) wbuf margin (leBytes 4 s.length)
    let wbuf ← Buffer.memcpy (4 + kMaxMsg) wbuf (margin + 4) s
    sendArgs wbuf (margin + (4 + s.length)) cmd

/-- The length that `send_req` computes, in a `uint32_t`. -/
def reqLen (cmd : List Bytes) : ℕ := cmd.foldl (fun len s ↦ (len + (4 + s.length)) % 2 ^ 32) 4

/-- `send_req`, with the `send`s of `write_all`. There is no result when it writes past `wbuf`. -/
def sendReq (wbuf : Buffer) (cmd : List Bytes) (sends : List (Option ℕ)) :
    Option (ℤ × Bytes) :=
  let len := reqLen cmd
  if kMaxMsg < len then some (-1, [])
  else do
    let wbuf ← Buffer.memcpy (4 + kMaxMsg) wbuf 0 (leBytes 4 len)
    let wbuf ← Buffer.memcpy (4 + kMaxMsg) wbuf 4 (leBytes 4 cmd.length)
    let wbuf ← sendArgs wbuf 8 cmd
    writeAll sends (wbuf.slice 0 (4 + len))

theorem writeAll_eq_zero {sends : List (Option ℕ)} {buf wire : Bytes}
    (h : writeAll sends buf = some (0, wire)) : wire = buf := by
  induction sends generalizing buf wire with
  | nil =>
    cases buf with
    | nil => exact (congrArg Prod.snd (Option.some_inj.mp h)).symm
    | cons b buf => cases h
  | cons rv sends ih =>
    cases buf with
    | nil => exact (congrArg Prod.snd (Option.some_inj.mp h)).symm
    | cons b buf =>
      cases rv with
      | none => exact absurd (congrArg Prod.fst (Option.some_inj.mp h)) (by decide : (-1 : ℤ) ≠ 0)
      | some rv =>
        obtain ⟨⟨r, rest⟩, hrest, heq⟩ := Option.map_eq_some_iff.mp h
        obtain ⟨rfl, rfl⟩ := Prod.mk.inj heq
        rw [ih hrest, List.take_append_drop]

theorem writeAll_of_le_sum {rvs : List ℕ} {rest : List (Option ℕ)} {buf : Bytes}
    (h : buf.length ≤ rvs.sum) : writeAll (rvs.map some ++ rest) buf = some (0, buf) := by
  induction rvs generalizing buf with
  | nil =>
    obtain rfl := List.eq_nil_of_length_eq_zero (Nat.le_zero.mp h)
    cases rest <;> rfl
  | cons rv rvs ih =>
    cases buf with
    | nil => rfl
    | cons b buf =>
      rw [List.sum_cons] at h
      have hrest : ((b :: buf).drop rv).length ≤ rvs.sum := by
        rw [List.length_drop]
        omega
      rw [List.map_cons, List.cons_append, writeAll, ih hrest]
      exact congrArg (fun wire ↦ some ((0 : ℤ), wire)) (List.take_append_drop rv (b :: buf))

theorem reqLen_eq (cmd : List Bytes) : reqLen cmd = (encodeReq cmd).length % 2 ^ 32 := by
  have hfold : ∀ (cmd : List Bytes) (len : ℕ), len < 2 ^ 32 →
      cmd.foldl (fun len s ↦ (len + (4 + s.length)) % 2 ^ 32) len
        = (len + (cmd.map fun s ↦ 4 + s.length).sum) % 2 ^ 32 := by
    intro cmd
    induction cmd with
    | nil => exact fun len hlen ↦ (Nat.mod_eq_of_lt hlen).symm
    | cons s cmd ih =>
      intro len _
      rw [List.foldl_cons, ih _ (Nat.mod_lt _ (by decide)), Nat.mod_add_mod, List.map_cons,
        List.sum_cons, Nat.add_assoc]
  rw [reqLen, hfold cmd 4 (by decide), length_encodeReq]

private theorem exists_sendArgs (wbuf : Buffer)
    (hfit : pos + (cmd.flatMap block).length ≤ 4 + kMaxMsg) :
    ∃ wbuf', sendArgs wbuf pos cmd = some wbuf' := by
  induction cmd generalizing wbuf pos with
  | nil => exact ⟨wbuf, rfl⟩
  | cons s cmd ih =>
    rw [List.flatMap_cons, List.length_append, length_block] at hfit
    have hsize : pos + (leBytes 4 s.length).length ≤ 4 + kMaxMsg := by
      rw [length_leBytes]
      omega
    have harg : pos + 4 + s.length ≤ 4 + kMaxMsg := by omega
    have hrest : pos + (4 + s.length) + (cmd.flatMap block).length ≤ 4 + kMaxMsg := by omega
    obtain ⟨wbuf₁, h₁⟩ := Buffer.exists_memcpy hsize wbuf
    obtain ⟨wbuf₂, h₂⟩ := Buffer.exists_memcpy harg wbuf₁
    obtain ⟨wbuf', h'⟩ := ih wbuf₂ hrest
    refine ⟨wbuf', ?_⟩
    rw [sendArgs, h₁, Option.bind_eq_bind, Option.bind_some, h₂]
    exact h'

/-- The arguments stand behind what was in the buffer, and all of them are inside of it. -/
private theorem sendArgs_spec {wbuf wbuf' : Buffer} (hpos : pos ≤ 4 + kMaxMsg)
    (h : sendArgs wbuf pos cmd = some wbuf') :
    pos + (cmd.flatMap block).length ≤ 4 + kMaxMsg ∧
      wbuf'.slice 0 (pos + (cmd.flatMap block).length) = wbuf.slice 0 pos ++ cmd.flatMap block := by
  induction cmd generalizing wbuf pos with
  | nil =>
    obtain rfl := Option.some_inj.mp h
    exact ⟨hpos, (List.append_nil _).symm⟩
  | cons s cmd ih =>
    obtain ⟨wbuf₁, h₁, h⟩ := Option.bind_eq_some_iff.mp h
    obtain ⟨wbuf₂, h₂, h⟩ := Option.bind_eq_some_iff.mp h
    have hcap : pos + 4 + s.length ≤ 4 + kMaxMsg := by
      by_contra hover
      rw [Buffer.memcpy, if_neg hover] at h₂
      cases h₂
    obtain ⟨hfit, hslice⟩ := ih (by rw [← Nat.add_assoc]; exact hcap) h
    rw [List.flatMap_cons, List.length_append, length_block, ← Nat.add_assoc]
    refine ⟨hfit, hslice.trans ?_⟩
    obtain ⟨hsize, hkeep₁⟩ := Buffer.memcpy_spec h₁
    obtain ⟨harg, hkeep₂⟩ := Buffer.memcpy_spec h₂
    rw [length_leBytes] at hsize
    rw [← Nat.add_assoc, Buffer.slice_add, Buffer.slice_add, Nat.zero_add, Nat.zero_add, harg,
      hkeep₂ 0 pos (by omega), hkeep₂ pos 4 (Nat.le_refl _), hsize, hkeep₁ 0 pos (by omega), block,
      List.append_assoc, List.append_assoc, List.append_assoc]

theorem sendReq_eq_writeAll (wbuf : Buffer) (hfit : (encodeReq cmd).length ≤ kMaxMsg)
    (sends : List (Option ℕ)) :
    sendReq wbuf cmd sends
      = writeAll sends (leBytes 4 (encodeReq cmd).length ++ encodeReq cmd) := by
  have hmax : kMaxMsg = 4096 := rfl
  have hlen : reqLen cmd = (encodeReq cmd).length := by
    rw [reqLen_eq]
    exact Nat.mod_eq_of_lt (by omega)
  have hlength : (encodeReq cmd).length = 4 + (cmd.flatMap block).length := by
    rw [encodeReq, List.length_append, length_leBytes]
  have hword : ∀ n : ℕ, 0 + (leBytes 4 n).length ≤ 4 + kMaxMsg ∧
      4 + (leBytes 4 n).length ≤ 4 + kMaxMsg := by
    intro n
    rw [length_leBytes]
    decide
  obtain ⟨wbuf₁, h₁⟩ := Buffer.exists_memcpy (hword (reqLen cmd)).1 wbuf
  obtain ⟨wbuf₂, h₂⟩ := Buffer.exists_memcpy (hword cmd.length).2 wbuf₁
  have hblocks : 8 + (cmd.flatMap block).length ≤ 4 + kMaxMsg := by omega
  obtain ⟨wbuf₃, h₃⟩ := exists_sendArgs wbuf₂ hblocks
  obtain ⟨hread₁, -⟩ := Buffer.memcpy_spec h₁
  obtain ⟨hread₂, hkeep⟩ := Buffer.memcpy_spec h₂
  obtain ⟨-, hslice⟩ := sendArgs_spec (by decide) h₃
  have hhead : wbuf₂.slice 0 8 = leBytes 4 (reqLen cmd) ++ leBytes 4 cmd.length := by
    rw [length_leBytes] at hread₁ hread₂
    rw [show 8 = 4 + 4 from rfl, Buffer.slice_add, Nat.zero_add, hread₂, hkeep 0 4 (Nat.le_refl _),
      hread₁]
  rw [sendReq, if_neg (by omega), h₁, Option.bind_eq_bind, Option.bind_some, h₂, Option.bind_some,
    h₃, Option.bind_some, hlen, hlength, ← Nat.add_assoc,
    hslice, hhead, hlen, hlength, encodeReq, List.append_assoc]

theorem length_le_of_sendReq {sends : List (Option ℕ)} {wire : Bytes}
    (h : sendReq wbuf cmd sends = some (0, wire)) : (encodeReq cmd).length ≤ kMaxMsg := by
  rw [sendReq] at h
  by_cases hlen : kMaxMsg < reqLen cmd
  · rw [if_pos hlen] at h
    exact absurd (congrArg Prod.fst (Option.some_inj.mp h)) (by decide : (-1 : ℤ) ≠ 0)
  · rw [if_neg hlen] at h
    obtain ⟨wbuf₁, -, h⟩ := Option.bind_eq_some_iff.mp h
    obtain ⟨wbuf₂, -, h⟩ := Option.bind_eq_some_iff.mp h
    obtain ⟨wbuf₃, h₃, -⟩ := Option.bind_eq_some_iff.mp h
    obtain ⟨hfit, -⟩ := sendArgs_spec (by decide) h₃
    rw [encodeReq, List.length_append, length_leBytes]
    omega

/-- The frame of a request that fits. -/
def Frame.ofCmd (cmd : List Bytes) (hfit : (encodeReq cmd).length ≤ kMaxMsg) : Frame where
  body := encodeReq cmd
  cmd := cmd
  length_le := hfit
  accepted := by
    refine (parseReq_eq_zero hfit).mpr ⟨length_le_of_encodeReq hfit, ?_⟩
    rw [readBytes_list (Nat.zero_add _).le, List.drop_zero, List.take_length]

/-- **Request codec.** `parse_req` accepts exactly the spelling of the arguments that it returns,
whatever is behind it. A command that fits goes out as a frame with its spelling, all of it where
`send` takes that many bytes, and every command that goes out is accepted by the server as it is. -/
theorem request_codec :
    (∀ (data : ℕ → Option UInt8) (len : ℕ) (args : List Bytes), len ≤ kMaxMsg →
      (parseReq data len = some (0, args) ↔
        args.length ≤ kMaxArgs ∧ readBytes data 0 len = some (encodeReq args))) ∧
    (∀ (wbuf : Buffer) (cmd : List Bytes) (sends : List (Option ℕ)),
      4 + (cmd.map fun s ↦ 4 + s.length).sum ≤ kMaxMsg →
      ∃ f : Frame, f.cmd = cmd ∧ f.body = encodeReq cmd ∧
        f.body.length = 4 + (cmd.map fun s ↦ 4 + s.length).sum ∧
        sendReq wbuf cmd sends = writeAll sends f.bytes ∧
        ∀ (rvs : List ℕ) (rest : List (Option ℕ)), sends = rvs.map some ++ rest →
          f.bytes.length ≤ rvs.sum → sendReq wbuf cmd sends = some (0, f.bytes)) ∧
    ∀ (wbuf : Buffer) (cmd : List Bytes) (sends : List (Option ℕ)) (wire : Bytes),
      sendReq wbuf cmd sends = some (0, wire) → ∃ f : Frame, f.cmd = cmd ∧ wire = f.bytes := by
  refine ⟨fun data len args hlen ↦ parseReq_eq_zero hlen, fun wbuf cmd sends hfit ↦ ?_,
    fun wbuf cmd sends wire h ↦ ?_⟩
  · rw [← length_encodeReq] at hfit
    refine ⟨Frame.ofCmd cmd hfit, rfl, rfl, length_encodeReq cmd,
      sendReq_eq_writeAll wbuf hfit sends, fun rvs rest hsends htakes ↦ ?_⟩
    rw [sendReq_eq_writeAll wbuf hfit sends, hsends]
    exact writeAll_of_le_sum htakes
  · have hfit := length_le_of_sendReq h
    refine ⟨Frame.ofCmd cmd hfit, rfl, ?_⟩
    rw [sendReq_eq_writeAll wbuf hfit sends] at h
    exact writeAll_eq_zero h

/-- The command `get` for a key, sent in two parts. -/
theorem request_codec_get : ∃ f : Frame, f.cmd = [ascii "get", ascii "k"] ∧
    f.body = encodeReq [ascii "get", ascii "k"] ∧ f.body.length = 16 ∧
    sendReq (fun _ ↦ 0) [ascii "get", ascii "k"] [some 5, some 15] = some (0, f.bytes) := by
  obtain ⟨f, hcmd, hbody, hlen, -, htakes⟩ := request_codec.2.1 (fun _ ↦ 0) [ascii "get", ascii "k"]
    [some 5, some 15] (by decide)
  refine ⟨f, hcmd, hbody, hlen, htakes [5, 15] [] rfl ?_⟩
  rw [f.length_bytes, hlen]
  decide

/-! ## What is read -/

/-- Where `n` arguments should follow, one of them is cut, with no more than four bytes missing.
The arguments in front of it are whole. -/
def CutAfter (n : ℕ) (bs : Bytes) : Prop :=
  ∃ (sz : ℕ) (args : List Bytes) (rest : Bytes), args.length < n ∧
    bs = args.flatMap block ++ (leBytes 4 sz ++ rest) ∧ rest.length < sz ∧ sz ≤ rest.length + 4

/-- A request that ends inside of one of the arguments that its count announces, with no more than
four bytes of it missing. -/
def CutArgument (body : Bytes) : Prop :=
  ∃ n bs, n ≤ kMaxArgs ∧ body = leBytes 4 n ++ bs ∧ CutAfter n bs

private theorem not_cutAfter_zero {bs : Bytes} : ¬ CutAfter 0 bs :=
  fun ⟨_, _, _, h, _⟩ ↦ absurd h (Nat.not_lt_zero _)

private theorem CutAfter.le_length {bs : Bytes} (h : CutAfter n bs) : 4 ≤ bs.length := by
  obtain ⟨sz, args, rest, -, rfl, -⟩ := h
  rw [List.length_append, List.length_append, length_leBytes]
  omega

private theorem cutAfter_succ {sz : ℕ} {tail : Bytes} (hsz : sz < 256 ^ 4)
    (htail : tail.length ≤ kMaxMsg) :
    CutAfter (n + 1) (leBytes 4 sz ++ tail) ↔
      tail.length < sz ∧ sz ≤ tail.length + 4 ∨
        sz ≤ tail.length ∧ CutAfter n (tail.drop sz) := by
  have hmax : tail.length ≤ 4096 := htail
  constructor
  · rintro ⟨sz', args, rest, hargs, hsplit, hlt, hle⟩
    have hlength := congrArg List.length hsplit
    rw [List.length_append, List.length_append, List.length_append, length_leBytes,
      length_leBytes] at hlength
    cases args with
    | nil =>
      obtain ⟨rfl, rfl⟩ := leBytes_append_inj hsz (by omega) hsplit
      exact Or.inl ⟨hlt, hle⟩
    | cons a args =>
      rw [List.flatMap_cons, List.length_append, length_block] at hlength
      rw [List.flatMap_cons, block, List.append_assoc, List.append_assoc] at hsplit
      obtain ⟨rfl, rfl⟩ := leBytes_append_inj hsz (by omega) hsplit
      refine Or.inr ⟨?_, sz', args, rest, Nat.lt_of_succ_lt_succ hargs, ?_, hlt, hle⟩
      · rw [List.length_append]
        exact Nat.le_add_right _ _
      · rw [List.drop_left' rfl]
  · rintro (⟨hlt, hle⟩ | ⟨hwhole, sz', args, rest, hargs, hsplit, hcut⟩)
    · exact ⟨sz, [], tail, Nat.succ_pos n, rfl, hlt, hle⟩
    · refine ⟨sz', tail.take sz :: args, rest, Nat.succ_lt_succ hargs, ?_, hcut⟩
      rw [List.flatMap_cons, block, List.length_take_of_le hwhole, List.append_assoc,
        List.append_assoc, ← hsplit, List.take_append_drop]

/-- The loop reads outside of the request exactly if it comes to an argument that is cut so. -/
private theorem parseArgs_eq_none {body : Bytes} (out : List Bytes) (hlen : body.length ≤ kMaxMsg)
    (hpos : pos ≤ body.length) :
    parseArgs (fun i ↦ body[i]?) body.length n pos out = none ↔ CutAfter n (body.drop pos) := by
  have hmax : body.length ≤ 4096 := hlen
  induction n generalizing pos out with
  | zero =>
    rw [parseArgs]
    exact iff_of_false (fun h ↦ by cases h) not_cutAfter_zero
  | succ n ih =>
    have hdrop : (body.drop pos).length = body.length - pos := List.length_drop
    rw [parseArgs]
    by_cases hprefix : body.length < pos + 4
    · rw [if_pos hprefix]
      refine iff_of_false (fun h ↦ by cases h) fun hcut ↦ ?_
      have hle := hcut.le_length
      omega
    · have hroom : 4 ≤ (body.drop pos).length := by omega
      obtain ⟨sz, tail, hsz, hsplit⟩ := exists_leBytes_append hroom
      rw [if_neg hprefix, loadU32_list hsz hsplit, Option.bind_eq_bind, Option.bind_some]
      have hlength := congrArg List.length hsplit
      rw [List.length_append, length_leBytes, hdrop] at hlength
      have htail : body.drop (pos + 4) = tail := by
        rw [← List.drop_drop, hsplit, List.drop_left' (length_leBytes 4 _)]
      rw [hsplit, cutAfter_succ hsz (by rw [kMaxMsg]; omega)]
      by_cases hsize : body.length < pos + sz
      · rw [if_pos hsize]
        refine iff_of_false (fun h ↦ by cases h) ?_
        rintro (⟨-, hle⟩ | ⟨hle, -⟩) <;> omega
      · rw [if_neg hsize]
        -- the length was checked without its own four bytes
        by_cases hwhole : sz ≤ tail.length
        · have hnowrap : (4 + sz) % 2 ^ 32 = 4 + sz := Nat.mod_eq_of_lt (by omega)
          have hnext : body.drop (pos + (4 + sz)) = tail.drop sz := by
            rw [← Nat.add_assoc, ← List.drop_drop, htail]
          rw [readBytes_list (by omega), Option.bind_eq_bind, Option.bind_some, hnowrap]
          refine (ih _ (by omega)).trans ?_
          rw [hnext]
          refine ⟨fun h ↦ Or.inr ⟨hwhole, h⟩, ?_⟩
          rintro (⟨hlt, -⟩ | ⟨-, h⟩)
          · exact absurd hwhole (not_le.mpr hlt)
          · exact h
        · rw [readBytes_list_eq_none (by omega) (by omega)]
          exact iff_of_true rfl (Or.inl ⟨not_le.mp hwhole, by omega⟩)

/-- **Reads inside of the request.** All bytes that `parse_req` reads are bytes of the request,
exactly if the request has its count and does not end inside of an argument with at most four bytes
missing. -/
theorem parseReq_isSome_iff {body : Bytes} (hlen : body.length ≤ kMaxMsg) :
    (parseReq (fun i ↦ body[i]?) body.length).isSome ↔ 4 ≤ body.length ∧ ¬ CutArgument body := by
  rw [parseReq]
  by_cases hcount : 4 ≤ body.length
  · obtain ⟨n, bs, hn, hbody⟩ := exists_leBytes_append hcount
    have hdrop : body.drop 4 = bs := by rw [hbody, List.drop_left' (length_leBytes 4 _)]
    have hcut : CutArgument body ↔ n ≤ kMaxArgs ∧ CutAfter n bs := by
      constructor
      · rintro ⟨n', bs', hmax, hbody', hcut⟩
        obtain ⟨rfl, rfl⟩ := leBytes_append_inj hn (hmax.trans_lt (by decide))
          (hbody.symm.trans hbody')
        exact ⟨hmax, hcut⟩
      · rintro ⟨hmax, hcut⟩
        exact ⟨n, bs, hmax, hbody, hcut⟩
    rw [loadU32_list hn (by rw [List.drop_zero]; exact hbody), Option.bind_eq_bind,
      Option.bind_some, hcut, and_iff_right hcount]
    by_cases hmax : kMaxArgs < n
    · rw [if_pos hmax]
      exact iff_of_true rfl fun h ↦ absurd h.1 (not_le.mpr hmax)
    · rw [if_neg hmax, and_iff_right (not_lt.mp hmax), ← hdrop,
        ← parseArgs_eq_none [] hlen hcount, Option.isSome_iff_ne_none]
  · rw [loadU32, readBytes_list_eq_none (by decide) (by omega)]
    refine iff_of_false (fun h ↦ ?_) fun h ↦ hcount h.1
    cases h

theorem parseReq_isSome_one :
    (parseReq (fun i ↦ ([1, 0, 0, 0, 1, 0, 0, 0, 65] : Bytes)[i]?) 9).isSome ↔
      4 ≤ 9 ∧ ¬ CutArgument [1, 0, 0, 0, 1, 0, 0, 0, 65] :=
  parseReq_isSome_iff (by decide)

/-- One argument of one byte that is not there: the byte behind the request is read. Where there is
such a byte, the request is refused. -/
theorem parseReq_reads_behind :
    parseReq (fun i ↦ ([1, 0, 0, 0, 1, 0, 0, 0] : Bytes)[i]?) 8 = none ∧
      parseReq (fun i ↦ ([1, 0, 0, 0, 1, 0, 0, 0, 65] : Bytes)[i]?) 8 = some (-1, [[65]]) := by
  decide

end RedisOnC
