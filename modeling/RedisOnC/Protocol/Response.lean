import RedisOnC.Lib.WhileLoop
import RedisOnC.Protocol.Parse
import Mathlib.Algebra.Order.Ring.Int

/-!
# Responses at the client

`on_response` of `client.cpp`, over memory of which only some offsets are readable, with the lines
that it prints. A text is printed by `printf("%.*s")`: the length is the precision, as an `int`, so
a length from `2 ^ 31` on is a negative precision, and then the text only ends at a zero byte.

The size of a text and of the header in front of it are added in a `uint32_t`, so close to `2 ^ 32`
the sum is small and passes the test against the size of the response.

The second half is what `on_response` should decode: values, and their spelling by the `out_*`
functions of the server.
-/

namespace RedisOnC

/-- Conversion of a `uint32_t` or a `size_t` to `int32_t`. -/
def toInt32 (n : ℕ) : ℤ := (n : ℤ).bmod (2 ^ 32)

/-- A line printed by the client. A text comes with its place, its length and the part printed. -/
inductive Line
  | bad (text : String)
  | nil
  | err (code : ℤ) (pos len : ℕ) (shown : Bytes)
  | str (pos len : ℕ) (shown : Bytes)
  | int (val : ℤ)
  | dbl (val : Bytes)
  | arr (n : ℤ)
  | arrEnd
  | num (n : ℤ)
deriving DecidableEq

/-- The text of the line is within the first `size` bytes. -/
def Line.Inside (size : ℕ) : Line → Prop
  | .err _ pos len _ => pos + len ≤ size
  | .str pos len _ => pos + len ≤ size
  | _ => True

/-! ## Texts -/

/-- A C string. -/
def cString (data : ℕ → Option UInt8) (pos : ℕ) : Option Bytes :=
  whileLoop
    (fun (pos, s) ↦ (data pos).map fun b ↦ if b = 0 then .inr s else .inl (pos + 1, s ++ [b]))
    (pos, [])

/-- A C string of which at most `n` bytes are taken. -/
def cStringN (data : ℕ → Option UInt8) : ℕ → ℕ → Option Bytes
  | _, 0 => some []
  | pos, n + 1 => do
    let b ← data pos
    if b = 0 then some []
    else (cStringN data (pos + 1) n).map (b :: ·)

/-- What `printf("%.*s", len, &data[pos])` prints. -/
def printStr (data : ℕ → Option UInt8) (pos len : ℕ) : Option Bytes :=
  if toInt32 len < 0 then cString data pos else cStringN data pos len

/-! ## The decoder -/

/-- The end of the cases `SER_ERR` and `SER_STR`: a header of `header` bytes, the last four of which
are the length of the text behind it. -/
def onText (data : ℕ → Option UInt8) (pos size header : ℕ) (bad : String)
    (line : ℕ → ℕ → Bytes → Line) : Option (ℤ × List Line) := do
  let len ← loadU32 data (pos + (header - 4))
  if size < (header + len) % 2 ^ 32 then some (-1, [.bad bad])
  else do
    let shown ← printStr data (pos + header) len
    some (toInt32 ((header + len) % 2 ^ 32), [line (pos + header) len shown])

/-- The case `SER_ERR`. -/
def onErr (data : ℕ → Option UInt8) (pos size : ℕ) : Option (ℤ × List Line) :=
  if size < 1 + 8 then some (-1, [.bad "bad response from the server2"])
  else do
    let code ← loadU32 data (pos + 1)
    onText data pos size (1 + 8) "bad response a" (.err (toInt32 code))

/-- The case `SER_STR`. -/
def onStr (data : ℕ → Option UInt8) (pos size : ℕ) : Option (ℤ × List Line) :=
  if size < 1 + 4 then some (-1, [.bad "bad response from the server3"])
  else onText data pos size (1 + 4) "bad response b" .str

/-- The cases `SER_INT` and `SER_DBL`. -/
def onWord (data : ℕ → Option UInt8) (pos size : ℕ) (bad : String) (line : Bytes → Line) :
    Option (ℤ × List Line) :=
  if size < 1 + 8 then some (-1, [.bad bad])
  else do
    let val ← readBytes data (pos + 1) 8
    some (1 + 8, [line val])

/-- The loop of the case `SER_ARR`, with `n` elements to go. -/
def onElements (onResponse : ℕ → ℕ → Option (ℤ × List Line)) (pos size : ℕ) :
    ℕ → ℕ → Option (ℤ × List Line)
  | 0, arrBytes => some (toInt32 arrBytes, [.arrEnd])
  | n + 1, arrBytes => do
    let (rv, lines) ← onResponse (pos + arrBytes) (size - arrBytes)
    if rv < 0 then some (rv, lines)
    else do
      let (count, more) ← onElements onResponse pos size n (arrBytes + rv.toNat)
      some (count, lines ++ more)

/-- The case `SER_ARR`. -/
def onArr (data : ℕ → Option UInt8) (onResponse : ℕ → ℕ → Option (ℤ × List Line))
    (pos size : ℕ) : Option (ℤ × List Line) :=
  if size < 1 + 4 then some (-1, [.bad "bad response from the server5"])
  else do
    let n ← loadU32 data (pos + 1)
    let (count, lines) ← onElements onResponse pos size n (1 + 4)
    some (count, .arr (toInt32 n) :: lines)

section
variable {call : ℕ → ℕ → Option (ℤ × List Line)} {pos size n arrBytes : ℕ} {lines : List Line}

theorem onElements_of_neg {rv : ℤ} (h : call (pos + arrBytes) (size - arrBytes) = some (rv, lines))
    (hrv : rv < 0) : onElements call pos size (n + 1) arrBytes = some (rv, lines) := by
  rw [onElements, h]
  exact if_pos hrv

theorem onElements_of_natCast {k : ℕ}
    (h : call (pos + arrBytes) (size - arrBytes) = some ((k : ℤ), lines)) :
    onElements call pos size (n + 1) arrBytes
      = (onElements call pos size n (arrBytes + k)).map fun (count, more) ↦
        (count, lines ++ more) := by
  rw [onElements, h, Option.bind_eq_bind, Option.bind_some]
  dsimp only
  rw [if_neg (not_lt.mpr (Int.natCast_nonneg k)), Int.toNat_natCast]
  cases onElements call pos size n (arrBytes + k) <;> rfl

theorem onElements_of_none (h : call (pos + arrBytes) (size - arrBytes) = none) :
    onElements call pos size (n + 1) arrBytes = none := by
  rw [onElements, h]
  rfl

end

/-- `on_response` within `depth` nested calls. -/
def onResponseWithin (data : ℕ → Option UInt8) : ℕ → ℕ → ℕ → Option (ℤ × List Line)
  | 0, _, _ => none
  | depth + 1, pos, size =>
    if size < 1 then some (-1, [.bad "bad response from the server1"])
    else do
      let tag ← data pos
      if tag = serNil then some (1, [.nil])
      else if tag = serErr then onErr data pos size
      else if tag = serStr then onStr data pos size
      else if tag = serInt then
        onWord data pos size "bad response from the server4" fun val ↦
          .int ((ofLEBytes val : ℤ).bmod (2 ^ 64))
      else if tag = serDbl then onWord data pos size "bad response" .dbl
      else if tag = serArr then onArr data (onResponseWithin data depth) pos size
      else some (-1, [.bad "bad response from the server: do not recognize ser code"])

/-- `on_response`: the number of bytes or `-1`, and what is printed. A nested call gets a smaller
size, so the calls are never nested deeper than the size. -/
def onResponse (data : ℕ → Option UInt8) (pos size : ℕ) : Option (ℤ × List Line) :=
  onResponseWithin data (size + 1) pos size

/-! ## Only what is readable matters -/

section
variable {data data' : ℕ → Option UInt8} (hdata : ∀ i b, data i = some b → data' i = some b)
variable {pos size n arrBytes depth : ℕ} {r : ℤ × List Line} {s : Bytes}
include hdata

theorem printStr_mono (h : printStr data pos n = some s) : printStr data' pos n = some s := by
  have hbounded : ∀ n pos s, cStringN data pos n = some s → cStringN data' pos n = some s := by
    intro n
    induction n with
    | zero => exact fun pos s h ↦ h
    | succ n ih =>
      intro pos s h
      rw [cStringN] at h ⊢
      obtain ⟨b, hb, h⟩ := Option.bind_eq_some_iff.mp h
      rw [hdata _ _ hb, Option.bind_eq_bind, Option.bind_some]
      by_cases hzero : b = 0
      · rwa [if_pos hzero] at h ⊢
      · rw [if_neg hzero] at h ⊢
        obtain ⟨s, hs, rfl⟩ := Option.map_eq_some_iff.mp h
        rw [ih _ _ hs, Option.map_some]
  rw [printStr] at h ⊢
  by_cases hneg : toInt32 n < 0
  · rw [if_pos hneg] at h ⊢
    refine WhileLoop.mono (fun ⟨pos, s⟩ x hx ↦ ?_) h
    obtain ⟨b, hb, hx⟩ := Option.map_eq_some_iff.mp hx
    exact Option.map_eq_some_iff.mpr ⟨b, hdata _ _ hb, hx⟩
  · rw [if_neg hneg] at h ⊢
    exact hbounded n pos s h

private theorem onText_mono {header : ℕ} {bad : String} {line : ℕ → ℕ → Bytes → Line}
    (h : onText data pos size header bad line = some r) :
    onText data' pos size header bad line = some r := by
  rw [onText] at h ⊢
  obtain ⟨len, hlen, h⟩ := Option.bind_eq_some_iff.mp h
  rw [loadU32_mono hdata hlen, Option.bind_eq_bind, Option.bind_some]
  by_cases hsize : size < (header + len) % 2 ^ 32
  · rwa [if_pos hsize] at h ⊢
  · rw [if_neg hsize] at h ⊢
    obtain ⟨shown, hshown, h⟩ := Option.bind_eq_some_iff.mp h
    rw [printStr_mono hdata hshown]
    exact h

private theorem onWord_mono {bad : String} {line : Bytes → Line}
    (h : onWord data pos size bad line = some r) : onWord data' pos size bad line = some r := by
  rw [onWord] at h ⊢
  by_cases hsize : size < 1 + 8
  · rwa [if_pos hsize] at h ⊢
  · rw [if_neg hsize] at h ⊢
    obtain ⟨val, hval, h⟩ := Option.bind_eq_some_iff.mp h
    rw [readBytes_mono hdata hval]
    exact h

omit hdata in
private theorem onElements_mono {call call' : ℕ → ℕ → Option (ℤ × List Line)}
    (hcall : ∀ pos size r, call pos size = some r → call' pos size = some r)
    (h : onElements call pos size n arrBytes = some r) :
    onElements call' pos size n arrBytes = some r := by
  induction n generalizing arrBytes r with
  | zero => exact h
  | succ n ih =>
    rw [onElements] at h ⊢
    obtain ⟨⟨rv, lines⟩, hrv, h⟩ := Option.bind_eq_some_iff.mp h
    rw [hcall _ _ _ hrv, Option.bind_eq_bind, Option.bind_some]
    by_cases hneg : rv < 0
    · exact (if_pos hneg).trans ((if_pos hneg).symm.trans h)
    · obtain ⟨⟨count, more⟩, hmore, h⟩ :=
        Option.bind_eq_some_iff.mp ((if_neg hneg).symm.trans h)
      refine (if_neg hneg).trans ?_
      rw [ih hmore]
      exact h

/-- The response is the same when more memory is readable. -/
theorem onResponseWithin_mono (h : onResponseWithin data depth pos size = some r) :
    onResponseWithin data' depth pos size = some r := by
  induction depth generalizing pos size r with
  | zero => cases h
  | succ depth ih =>
    rw [onResponseWithin] at h ⊢
    by_cases hsize : size < 1
    · rwa [if_pos hsize] at h ⊢
    rw [if_neg hsize] at h ⊢
    obtain ⟨b, hb, h⟩ := Option.bind_eq_some_iff.mp h
    rw [hdata _ _ hb, Option.bind_eq_bind, Option.bind_some]
    by_cases hnil : b = serNil
    · rwa [if_pos hnil] at h ⊢
    rw [if_neg hnil] at h ⊢
    by_cases herr : b = serErr
    · rw [if_pos herr, onErr] at h ⊢
      by_cases hshort : size < 1 + 8
      · rwa [if_pos hshort] at h ⊢
      · rw [if_neg hshort] at h ⊢
        obtain ⟨code, hcode, h⟩ := Option.bind_eq_some_iff.mp h
        rw [loadU32_mono hdata hcode]
        exact onText_mono hdata h
    rw [if_neg herr] at h ⊢
    by_cases hstr : b = serStr
    · rw [if_pos hstr, onStr] at h ⊢
      by_cases hshort : size < 1 + 4
      · rwa [if_pos hshort] at h ⊢
      · rw [if_neg hshort] at h ⊢
        exact onText_mono hdata h
    rw [if_neg hstr] at h ⊢
    by_cases hint : b = serInt
    · rw [if_pos hint] at h ⊢
      exact onWord_mono hdata h
    rw [if_neg hint] at h ⊢
    by_cases hdbl : b = serDbl
    · rw [if_pos hdbl] at h ⊢
      exact onWord_mono hdata h
    rw [if_neg hdbl] at h ⊢
    by_cases harr : b = serArr
    · rw [if_pos harr, onArr] at h ⊢
      by_cases hshort : size < 1 + 4
      · rwa [if_pos hshort] at h ⊢
      · rw [if_neg hshort] at h ⊢
        obtain ⟨n, hn, h⟩ := Option.bind_eq_some_iff.mp h
        rw [loadU32_mono hdata hn, Option.bind_eq_bind, Option.bind_some]
        obtain ⟨⟨count, lines⟩, helems, h⟩ := Option.bind_eq_some_iff.mp h
        rw [onElements_mono (fun _ _ _ ↦ ih) helems]
        exact h
    · rwa [if_neg harr] at h ⊢

end

/-! ## Values -/

/-- The value that a response stands for. A number is given by its bytes if it is a `double`. -/
inductive Value
  | nil
  | err (code : ℕ) (msg : Bytes)
  | str (val : Bytes)
  | int (val : ℤ)
  | dbl (val : Bytes) (length_eq : val.length = 8)
  | arr (vs : List Value)

namespace Value

mutual

/-- The spelling of a value. -/
def encode : Value → Bytes
  | .nil => outNil
  | .err code msg => outErr code msg
  | .str val => outStr val
  | .int val => outInt val
  | .dbl val _ => outDbl val
  | .arr vs => outArr vs.length ++ encodeAll vs

def encodeAll : List Value → Bytes
  | [] => []
  | v :: vs => v.encode ++ encodeAll vs

end

mutual

/-- What is printed for a value that stands at `pos`. -/
def lines (pos : ℕ) : Value → List Line
  | .nil => [.nil]
  | .err code msg => [.err (toInt32 code) (pos + 9) msg.length (msg.takeWhile (· ≠ 0))]
  | .str val => [.str (pos + 5) val.length (val.takeWhile (· ≠ 0))]
  | .int val => [.int (val.bmod (2 ^ 64))]
  | .dbl val _ => [.dbl val]
  | .arr vs => .arr (toInt32 vs.length) :: linesAll (pos + 5) vs

def linesAll (pos : ℕ) : List Value → List Line
  | [] => [.arrEnd]
  | v :: vs => v.lines pos ++ linesAll (pos + v.encode.length) vs

end

/-- The first byte of the spelling. -/
def tag : Value → UInt8
  | .nil => serNil
  | .err .. => serErr
  | .str _ => serStr
  | .int _ => serInt
  | .dbl .. => serDbl
  | .arr _ => serArr

/-- The other bytes of the spelling. -/
def payload : Value → Bytes
  | .nil => []
  | .err code msg => leBytes 4 code ++ (leBytes 4 msg.length ++ msg)
  | .str val => leBytes 4 val.length ++ val
  | .int val => leBytes 8 (val % 2 ^ 64).toNat
  | .dbl val _ => val
  | .arr vs => leBytes 4 vs.length ++ encodeAll vs

theorem encode_eq (v : Value) : v.encode = v.tag :: v.payload := by
  cases v <;> rw [encode] <;> rfl

section
variable {v : Value}

theorem eq_nil (h : v.tag = serNil) : v = .nil := by
  cases v with
  | nil => rfl
  | _ => cases h

theorem exists_err (h : v.tag = serErr) : ∃ code msg, v = .err code msg := by
  cases v with
  | err code msg => exact ⟨code, msg, rfl⟩
  | _ => cases h

theorem exists_str (h : v.tag = serStr) : ∃ val, v = .str val := by
  cases v with
  | str val => exact ⟨val, rfl⟩
  | _ => cases h

theorem exists_int (h : v.tag = serInt) : ∃ val, v = .int val := by
  cases v with
  | int val => exact ⟨val, rfl⟩
  | _ => cases h

theorem exists_dbl (h : v.tag = serDbl) : ∃ val hval, v = .dbl val hval := by
  cases v with
  | dbl val hval => exact ⟨val, hval, rfl⟩
  | _ => cases h

theorem exists_arr (h : v.tag = serArr) : ∃ vs, v = .arr vs := by
  cases v with
  | arr vs => exact ⟨vs, rfl⟩
  | _ => cases h

end

/-- The bytes that stand behind a tag at least. -/
def minPayload (tag : UInt8) : ℕ :=
  if tag = serErr ∨ tag = serInt ∨ tag = serDbl then 8
  else if tag = serStr ∨ tag = serArr then 4
  else 0

theorem minPayload_le (v : Value) : minPayload v.tag ≤ v.payload.length := by
  cases v with
  | nil => exact Nat.zero_le _
  | err code msg =>
    rw [payload, List.length_append, List.length_append, length_leBytes, length_leBytes]
    exact Nat.le_add_right 8 msg.length |>.trans (Nat.add_assoc 4 4 _).le
  | str val =>
    rw [payload, List.length_append, length_leBytes]
    exact Nat.le_add_right 4 _
  | int val =>
    rw [payload, length_leBytes]
    exact Nat.le_refl 8
  | dbl val hval =>
    rw [payload, hval]
    exact Nat.le_refl 8
  | arr vs =>
    rw [payload, List.length_append, length_leBytes]
    exact Nat.le_add_right 4 _

theorem length_le_encodeAll (vs : List Value) : vs.length ≤ (encodeAll vs).length := by
  induction vs with
  | nil => exact Nat.le_refl 0
  | cons v vs ih =>
    rw [encodeAll, List.length_append, encode_eq, List.length_cons, List.length_cons]
    omega

end Value

end RedisOnC
