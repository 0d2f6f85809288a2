import RedisOnC.Protocol.Serial
import Mathlib.Order.Defs.LinearOrder
import Mathlib.Data.Int.Order.Basic

/-!
# Words and numbers in a command

The parts of the C library that read the words of a command. They take a C string, which ends at
the first zero byte, where a `std::string` may go on. `strtoll` is written out; `strtod` belongs to
the type of scores, of which only the order, the parser and the eight bytes on the wire are used.
-/

namespace RedisOnC

/-- `s.c_str()`, up to its terminator. -/
def cStr (s : Bytes) : Bytes := s.takeWhile (· ≠ 0)

def tolower (b : UInt8) : UInt8 := if 0x41 ≤ b ∧ b ≤ 0x5a then b + 0x20 else b

/-- `cmd_is`: equal under `strcasecmp`. -/
def cmdIs (word cmd : Bytes) : Bool := (cStr word).map tolower = cmd.map tolower

def isspace (b : UInt8) : Bool := b = 0x20 || (0x09 ≤ b && b ≤ 0x0d)

def isdigit (b : UInt8) : Bool := 0x30 ≤ b && b ≤ 0x39

/-- The number that a string of decimal digits spells. -/
def decimal (digits : Bytes) : ℕ := digits.foldl (fun n b ↦ 10 * n + (b.toNat - 0x30)) 0

/-- `strtoll(s, &endp, 10)`: the value, clamped to `int64_t`, and the number of bytes consumed. -/
def strtoll (s : Bytes) : ℤ × ℕ :=
  let space := s.takeWhile isspace
  let rest := s.drop space.length
  let (neg, sign) := match rest with
    | 0x2d :: _ => (true, 1)
    | 0x2b :: _ => (false, 1)
    | _ => (false, 0)
  let digits := (rest.drop sign).takeWhile isdigit
  if digits = [] then (0, 0)
  else
    let val : ℤ := if neg then -decimal digits else decimal digits
    (max (-2 ^ 63) (min (2 ^ 63 - 1) val), space.length + sign + digits.length)

/-- `str2int`: the number, if the conversion ends where the string does. -/
def str2int (s : Bytes) : Option ℤ :=
  let (out, endp) := strtoll (cStr s)
  if endp = s.length then some out else none

/-- Scores: the `double`s that are not NaN. `strtod` gives the value (`none` for a NaN) and the
number of bytes consumed, which is `0`, with the value zero, if there is no conversion. -/
class Score (S : Type) extends LinearOrder S where
  strtod : Bytes → Option S × ℕ
  bytes : S → Bytes
  length_bytes : ∀ s, (bytes s).length = 8

/-- `str2dbl`: the number, if the conversion ends where the string does and it is not a NaN. -/
def str2dbl {S : Type} [Score S] (s : Bytes) : Option S :=
  let (out, endp) := Score.strtod (cStr s)
  if endp = s.length then out else none

/-- Whole numbers as scores, spelled without point and exponent. -/
instance : Score ℤ where
  strtod s := ((some (strtoll s).1), (strtoll s).2)
  bytes s := leBytes 8 (s % 2 ^ 64).toNat
  length_bytes _ := length_leBytes 8 _

end RedisOnC
