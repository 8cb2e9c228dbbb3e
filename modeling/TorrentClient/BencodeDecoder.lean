import TorrentClient.BencodeValues

/-!
# The bencode decoder

A decoder is a cursor over the input, which the reading functions move forward; a failed one
leaves it where it stopped. Positions are `usize` values, whose additions are checked. The
loops and the recursion of the decoder run on fuel that the bytes left to read bound.
-/
namespace TorrentClient
open DecimalNumerals

inductive DecodeError where
  | eof
  | extraneousData
  | invalidByte (b : UInt8)
  | invalidDict
  | invalidNumber
  | invalidUtf8
  | missingField (name : String)
  | unexpectedByte (expected found : UInt8)
  deriving DecidableEq, Repr

/-- The integer types that implement `Integer`. -/
inductive IntegerType where
  | u8 | u16 | u32 | u64 | usize
  | i8 | i16 | i32 | i64 | isize
  deriving DecidableEq, Repr

namespace IntegerType

def bits : IntegerType → ℕ
  | u8 | i8 => 8
  | u16 | i16 => 16
  | u32 | i32 => 32
  | u64 | usize | i64 | isize => 64

def signed : IntegerType → Bool
  | u8 | u16 | u32 | u64 | usize => false
  | i8 | i16 | i32 | i64 | isize => true

def min (ty : IntegerType) : ℤ := if ty.signed then -2 ^ (ty.bits - 1) else 0

def max (ty : IntegerType) : ℤ := if ty.signed then 2 ^ (ty.bits - 1) - 1 else 2 ^ ty.bits - 1

def Contains (ty : IntegerType) (i : ℤ) : Prop := ty.min ≤ i ∧ i ≤ ty.max

instance (ty : IntegerType) (i : ℤ) : Decidable (ty.Contains i) := instDecidableAnd

/-- The digits of `str::parse`, at least one. -/
def parseDigits (bs : Bytes) : Option ℕ :=
  if !bs.isEmpty && bs.all isDigit then some (value bs) else none

/-- `str::parse`, which takes a minus sign for the signed types only. -/
def parse (ty : IntegerType) (bs : Bytes) : Option ℤ := do
  let i : ℤ ← match bs with
    | 45 :: digits => if ty.signed then (parseDigits digits).map fun n : ℕ => -(n : ℤ) else none
    | _ => (parseDigits bs).map fun n : ℕ => (n : ℤ)
  if ty.Contains i then some i else none

end IntegerType

/-- The position of the cursor and the bytes from there on. -/
structure Decoder where
  position : ℕ
  rest : Bytes
  deriving DecidableEq, Repr

abbrev DecoderM := Stateful DecodeError Decoder

/-- The bytes that may appear in a number: 45 is the minus sign. -/
def isNumber (b : UInt8) : Bool := b == 45 || isDigit b

namespace Decoder

def new (data : Bytes) : Decoder := ⟨0, data⟩

def remaining (d : Decoder) : ℕ := d.rest.length

/-- The cursor `n` bytes further on. -/
def advance (d : Decoder) (n : ℕ) : Decoder := ⟨d.position + n, d.rest.drop n⟩

def fail {α : Type} (e : DecodeError) : DecoderM α := throw (.err e)

/-- Where too few bytes are left, the cursor has moved behind them. -/
def read (n : ℕ) : DecoderM Bytes := do
  let d ← get
  if n ≤ d.rest.length then
    set (d.advance n)
    return d.rest.take n
  else
    set (d.advance d.rest.length)
    fail .eof

def readByte : DecoderM UInt8 := do
  let buf ← read 1
  pureStep (index buf 0)

def expect (byte : UInt8) : DecoderM Unit := do
  let b ← readByte
  if b = byte then return () else fail (.unexpectedByte byte b)

def peekBytes (n : ℕ) : DecoderM Bytes := do
  let d ← get
  let stop ← pureStep (checkedAdd d.position n)
  if d.position + d.rest.length < stop then fail .eof else return d.rest.take n

def peekByte : DecoderM UInt8 := do
  let buf ← peekBytes 1
  pureStep (index buf 0)

/-- The loop of `read_while`. -/
def readWhileLoop (predicate : UInt8 → Bool) : ℕ → Bytes → DecoderM Bytes
  | 0, _ => throw .panic
  | fuel + 1, res => do
    let b ← peekByte
    if predicate b then
      let b ← readByte
      readWhileLoop predicate fuel (res ++ [b])
    else return res

def readWhile (predicate : UInt8 → Bool) : DecoderM Bytes := do
  let d ← get
  readWhileLoop predicate (d.remaining + 1) []

/-- The numbers of an integer type are the integers in its range. 48 is `0`. -/
def readNumber (ty : IntegerType) : DecoderM ℤ := do
  let buf ← readWhile isNumber
  if buf.isEmpty || (decide (buf.length > 1) && buf.head? == some 48) || buf == [45, 48] then
    fail .invalidNumber
  else
    match ty.parse buf with
    | some n => return n
    | none => fail .invalidNumber

def readInteger (ty : IntegerType) : DecoderM ℤ := do
  expect 105
  let n ← readNumber ty
  expect 101
  return n

def readByteString : DecoderM Bytes := do
  let n ← readNumber .usize
  expect 58
  let d ← get
  if d.remaining < n.toNat then fail .eof else read n.toNat

def readStr : DecoderM String := do
  let bytes ← readByteString
  match fromUtf8 bytes with
  | some s => return s
  | none => fail .invalidUtf8

variable {α : Type}

/-- The loop of `read_dict`; a key that comes again replaces its value. -/
def readDictLoop (decode : DecoderM α) :
    ℕ → List (String × α) → DecoderM (List (String × α))
  | 0, _ => throw .panic
  | fuel + 1, map => do
    let b ← peekByte
    if b = 101 then return map
    else
      let key ← readStr
      let value ← decode
      readDictLoop decode fuel (OrderedEntries.insert keyLt key value map)

def readDict (decode : DecoderM α) : DecoderM (List (String × α)) := do
  expect 100
  let d ← get
  let map ← readDictLoop decode (d.remaining + 1) []
  expect 101
  return map

/-- The loop of `read_list`. -/
def readListLoop (decode : DecoderM α) : ℕ → List α → DecoderM (List α)
  | 0, _ => throw .panic
  | fuel + 1, list => do
    let b ← peekByte
    if b = 101 then return list
    else
      let value ← decode
      readListLoop decode fuel (list ++ [value])

def readList (decode : DecoderM α) : DecoderM (List α) := do
  expect 108
  let d ← get
  let list ← readListLoop decode (d.remaining + 1) []
  expect 101
  return list

end Decoder

namespace Value
open Decoder

/-- `decode` down to a depth. -/
def decodeTo : ℕ → DecoderM Value
  | 0 => throw .panic
  | depth + 1 => do
    let b ← peekByte
    if b = 100 then return .dict (← readDict (decodeTo depth))
    else if b = 108 then return .list (← readList (decodeTo depth))
    else if b = 105 then return .integer (Int64.ofInt (← readInteger .i64))
    else if isDigit b then
      let bytes ← readByteString
      match fromUtf8 bytes with
      | some s => return .string s
      | none => return .bytes bytes
    else fail (.invalidByte b)

/-- A value nests at most as deep as it has bytes. -/
def decode : DecoderM Value := do
  let d ← get
  decodeTo (d.remaining + 1)

end Value
end TorrentClient
