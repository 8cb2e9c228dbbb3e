import TorrentClient.BencodeDecoder
import TorrentClient.MetaInfo

/-!
# The streaming decoder

`decode` reads torrent metadata from the bytes without a value in between. A struct is read as
a dictionary whose fields are asked for in ascending order: the cursor moves over smaller keys
and goes back when a name is missing. What no field asked for is skipped. How deep the recursion
over nested values gets is not modelled.
-/
namespace TorrentClient
open DecimalNumerals

namespace Decoder

variable {α : Type}

/-- The loop of `skip_while`. -/
def skipWhileLoop (predicate : UInt8 → Bool) : ℕ → DecoderM Unit
  | 0 => throw .panic
  | fuel + 1 => do
    let b ← peekByte
    if predicate b then
      let _ ← readByte
      skipWhileLoop predicate fuel
    else return ()

def skipWhile (predicate : UInt8 → Bool) : DecoderM Unit := do
  let d ← get
  skipWhileLoop predicate (d.remaining + 1)

def skip (n : ℕ) : DecoderM Unit := do
  let d ← get
  let stop ← pureStep (checkedAdd d.position n)
  if d.position + d.rest.length < stop then fail .eof else set (d.advance n)

/-- The loops that skip up to the end marker 101, one item or one entry in a turn. -/
def skipLoop (step : DecoderM Unit) : ℕ → DecoderM Unit
  | 0 => throw .panic
  | fuel + 1 => do
    let b ← peekByte
    if b = 101 then return ()
    else
      step
      skipLoop step fuel

/-- `skip_item` down to a depth. -/
def skipItemTo : ℕ → DecoderM Unit
  | 0 => throw .panic
  | depth + 1 => do
    let b ← peekByte
    if b = 100 then
      let _ ← readByte
      let d ← get
      skipLoop (do skipItemTo depth; skipItemTo depth) (d.remaining + 1)
      expect 101
    else if b = 108 then
      let _ ← readByte
      let d ← get
      skipLoop (skipItemTo depth) (d.remaining + 1)
      expect 101
    else if b = 105 then
      expect 105
      skipWhile isNumber
      expect 101
    else if isDigit b then
      let n ← readNumber .usize
      expect 58
      skip n.toNat
    else fail (.invalidByte b)

/-- An item nests at most as deep as it has bytes. -/
def skipItem : DecoderM Unit := do
  let d ← get
  skipItemTo (d.remaining + 1)

/-- The end of `read_struct`, which skips the additional fields. -/
def skipFields : DecoderM Unit := do
  let d ← get
  skipLoop (do skipItem; skipItem) (d.remaining + 1)
  expect 101

def readStruct (f : DecoderM α) : DecoderM α := do
  expect 100
  let res ← f
  skipFields
  return res

/-- The error of a missing field, with the cursor back at `pos`. -/
def missing (pos : Decoder) (name : String) : DecoderM α := do
  set pos
  fail (.missingField name)

/-- The loop of `read_field`. -/
def readFieldLoop (decode : DecoderM α) (name : String) (pos : Decoder) : ℕ → DecoderM α
  | 0 => throw .panic
  | fuel + 1 => do
    let b ← peekByte
    if b = 101 then missing pos name
    else
      let key ← readStr
      if name = key then decode
      else if keyLt key name then
        skipItem
        readFieldLoop decode name pos fuel
      else missing pos name

def readField (decode : DecoderM α) (name : String) : DecoderM α := do
  let d ← get
  readFieldLoop decode name d (d.remaining + 1)

/-- The loop of `read_field_combine`, which ends with the position behind the last field of the
name and the items of all of them. -/
def readFieldCombineLoop (decode : DecoderM α) (name : String) :
    ℕ → Decoder → List α → DecoderM (Decoder × List α)
  | 0, _, _ => throw .panic
  | fuel + 1, pos, res => do
    let b ← peekByte
    if b = 101 then return (pos, res)
    else
      let key ← readStr
      if name = key then
        let s ← readList decode
        let pos ← get
        readFieldCombineLoop decode name fuel pos (res ++ s)
      else if keyLt key name then
        skipItem
        readFieldCombineLoop decode name fuel pos res
      else return (pos, res)

def readFieldCombine (decode : DecoderM α) (name : String) : DecoderM (Option (List α)) := do
  let d ← get
  let (pos, res) ← readFieldCombineLoop decode name (d.remaining + 1) d []
  set pos
  if res.isEmpty then fail (.missingField name) else return some res

/-- A call whose error is a value: the cursor stays where the call left it. -/
def attempt (x : DecoderM α) : DecoderM (Except DecodeError α) := fun d =>
  match x d with
  | .ok a d' => .ok (.ok a) d'
  | .error (.err e) d' => .ok (.error e) d'
  | .error .panic d' => .error .panic d'

def readOption (decode : DecoderM α) (name : String) : DecoderM (Option α) := do
  match ← attempt (readField decode name) with
  | .ok t => return some t
  | .error (.missingField _) => return none
  | .error e => fail e

/-- `decode` of an unsigned type of 64 bits. -/
def readUnsigned (ty : IntegerType) : DecoderM UInt64 := do
  let n ← readInteger ty
  return UInt64.ofInt n

def readSha1List : DecoderM (List Sha1) := do
  let bytes ← readByteString
  return Sha1.sha1List bytes

end Decoder

open Decoder

namespace FileInfo

def readFields : DecoderM FileInfo := do
  let length ← readField (readUnsigned .u64) "length"
  let md5sum ← readOption readStr "md5sum"
  let path ← readField (readList readStr) "path"
  return ⟨length, md5sum, path⟩

def decode : DecoderM FileInfo := readStruct readFields

end FileInfo

namespace Info

def readMulti (files : List FileInfo) : DecoderM Info := do
  let name ← readField readStr "name"
  let pieceLength ← readField (readUnsigned .usize) "piece length"
  let pieces ← readField readSha1List "pieces"
  return .multi ⟨files, name, pieceLength, pieces⟩

def readSingle : DecoderM Info := do
  let length ← readField (readUnsigned .u64) "length"
  let md5sum ← readOption readStr "md5sum"
  let name ← readField readStr "name"
  let pieceLength ← readField (readUnsigned .usize) "piece length"
  let pieces ← readField readSha1List "pieces"
  return .single ⟨length, md5sum, name, pieceLength, pieces⟩

def readFiles : DecoderM (List FileInfo) := readField (readList FileInfo.decode) "files"

def readFields : DecoderM Info := do
  match ← attempt readFiles with
  | .ok files => readMulti files
  | .error _ => readSingle

def decode : DecoderM Info := readStruct readFields

end Info

namespace TorrentMetaInfo

def readFields : DecoderM TorrentMetaInfo := do
  let announce ← readOption readStr "announce"
  let announceList ← readFieldCombine (readList readStr) "announce-list"
  let comment ← readOption readStr "comment"
  let createdBy ← readOption readStr "created by"
  let encoding ← readOption readStr "encoding"
  let info ← readField Info.decode "info"
  return ⟨info, announce, announceList, none, comment, createdBy, encoding⟩

def decode : DecoderM TorrentMetaInfo := readStruct readFields

end TorrentMetaInfo
end TorrentClient
