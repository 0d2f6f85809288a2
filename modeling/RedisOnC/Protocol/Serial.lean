import RedisOnC.Lib.LittleEndian

/-!
# Serialized replies

The `out_*` functions of `server.cpp`. Each of them appends to the reply, so each is the byte
string it appends. Lengths and counts are written as `uint32_t`.
-/

namespace RedisOnC

/-- A C string literal. -/
def ascii (s : String) : Bytes := s.toList.map fun c ↦ UInt8.ofNat c.toNat

def serNil : UInt8 := 0
def serErr : UInt8 := 1
def serStr : UInt8 := 2
def serInt : UInt8 := 3
def serDbl : UInt8 := 4
def serArr : UInt8 := 5

def errUnknown : ℕ := 1
def err2Big : ℕ := 2
def errType : ℕ := 3
def errArg : ℕ := 4

def kMaxMsg : ℕ := 4096

def outNil : Bytes := [serNil]

/-- `out_str` of a `std::string`. -/
def outStr (val : Bytes) : Bytes := serStr :: (leBytes 4 val.length ++ val)

/-- `out_str` of a pointer and a size: only as many bytes are copied as the header says. -/
def outStrN (s : Bytes) (size : ℕ) : Bytes :=
  serStr :: (leBytes 4 size ++ s.take (size % 2 ^ 32))

/-- `out_dbl`, of the eight bytes of the number. -/
def outDbl (val : Bytes) : Bytes := serDbl :: val

def outInt (val : ℤ) : Bytes := serInt :: leBytes 8 (val % 2 ^ 64).toNat

def outErr (code : ℕ) (msg : Bytes) : Bytes :=
  serErr :: (leBytes 4 code ++ (leBytes 4 msg.length ++ msg))

def outArr (n : ℕ) : Bytes := serArr :: leBytes 4 n

/-- `begin_arr`: the reply with the element count left open, and the place of the count. -/
def beginArr (out : Bytes) : Bytes × ℕ :=
  let out := out ++ serArr :: [0, 0, 0, 0]
  (out, out.length - 4)

/-- `end_arr`: fill in the element count. -/
def endArr (out : Bytes) (ctx : ℕ) (n : ℕ) : Option Bytes :=
  if out[ctx - 1]? = some serArr then
    some (out.take ctx ++ leBytes 4 n ++ out.drop (ctx + 4))
  else none

end RedisOnC
