import TorrentClient.BencodeRoundTrip
import TorrentClient.MetaInfo

/-!
# Torrent metadata as bencode values

`from_value` takes the fields of a torrent file out of a value and `into_value` puts them
into one. The info hash of a torrent is the hash of its info, put into a value and encoded.
-/
namespace TorrentClient

namespace Value

variable {α : Type}

def getOptionValue (key : String) : Value → Except DecodeError (Option Value)
  | .dict map => .ok (map.lookup key)
  | _ => .error .invalidDict

def getField (fromValue : Value → Except DecodeError α) (key : String) :
    Value → Except DecodeError α
  | .dict map =>
    match map.lookup key with
    | some v => fromValue v
    | none => .error (.missingField key)
  | _ => .error .invalidDict

def getOptionField (fromValue : Value → Except DecodeError α) (key : String) :
    Value → Except DecodeError (Option α)
  | .dict map =>
    match map.lookup key with
    | some v => (fromValue v).map some
    | none => .ok none
  | _ => .error .invalidDict

def toString : Value → Except DecodeError String
  | .bytes b =>
    match fromUtf8 b with
    | some s => .ok s
    | none => .error .invalidUtf8
  | .string s => .ok s
  | _ => .error .extraneousData

def toSha1List : Value → Except DecodeError (List Sha1)
  | .bytes b => .ok (Sha1.sha1List b)
  | _ => .error .extraneousData

def toList (fromValue : Value → Except DecodeError α) : Value → Except DecodeError (List α)
  | .list items => items.mapM fromValue
  | _ => .error .extraneousData

/-- `*i as u64` and `*i as usize` -/
def toUInt64 : Value → Except DecodeError UInt64
  | .integer i => .ok i.toUInt64
  | _ => .error .extraneousData

def ofSha1List (hashes : List Sha1) : Value := .bytes (hashes.flatMap (·.bytes))

def ofList (intoValue : α → Value) (items : List α) : Value := .list (items.map intoValue)

/-- `self as i64` -/
def ofUInt64 (n : UInt64) : Value := .integer n.toInt64

def insert (map : List (String × Value)) (s : String) (v : Value) : List (String × Value) :=
  OrderedEntries.insert keyLt s v map

def insertOption (map : List (String × Value)) (s : String) : Option Value → List (String × Value)
  | some v => insert map s v
  | none => map

end Value

open Value

namespace FileInfo

def fromValue (value : Value) : Except DecodeError FileInfo := do
  let length ← value.getField toUInt64 "length"
  let md5sum ← value.getOptionField toString "md5sum"
  let path ← value.getField (toList toString) "path"
  return ⟨length, md5sum, path⟩

def intoValue (f : FileInfo) : Value :=
  let map := Value.insert [] "length" (ofUInt64 f.length)
  let map := insertOption map "md5sum" (f.md5sum.map .string)
  .dict (Value.insert map "path" (ofList .string f.path))

end FileInfo

namespace Info

def fromValue (value : Value) : Except DecodeError Info := do
  match ← value.getOptionValue "files" with
  | none =>
    let length ← value.getField toUInt64 "length"
    let md5sum ← value.getOptionField toString "md5sum"
    let name ← value.getField toString "name"
    let pieceLength ← value.getField toUInt64 "piece length"
    let pieces ← value.getField toSha1List "pieces"
    return .single ⟨length, md5sum, name, pieceLength, pieces⟩
  | some _ =>
    let files ← value.getField (toList FileInfo.fromValue) "files"
    let name ← value.getField toString "name"
    let pieceLength ← value.getField toUInt64 "piece length"
    let pieces ← value.getField toSha1List "pieces"
    return .multi ⟨files, name, pieceLength, pieces⟩

def intoValue : Info → Value
  | .multi m =>
    let map := Value.insert [] "files" (ofList FileInfo.intoValue m.files)
    let map := Value.insert map "pieces" (ofSha1List m.pieces)
    let map := Value.insert map "name" (.string m.name)
    .dict (Value.insert map "piece length" (ofUInt64 m.pieceLength))
  | .single s =>
    let map := insertOption [] "md5sum" (s.md5sum.map .string)
    let map := Value.insert map "length" (ofUInt64 s.length)
    let map := Value.insert map "pieces" (ofSha1List s.pieces)
    let map := Value.insert map "name" (.string s.name)
    .dict (Value.insert map "piece length" (ofUInt64 s.pieceLength))

end Info

namespace TorrentMetaInfo

def fromValue (value : Value) : Except DecodeError TorrentMetaInfo := do
  let info ← value.getField Info.fromValue "info"
  let announce ← value.getOptionField toString "announce"
  let announceList ← value.getOptionField (toList (toList toString)) "announce-list"
  let comment ← value.getOptionField toString "comment"
  let createdBy ← value.getOptionField toString "created by"
  let encoding ← value.getOptionField toString "encoding"
  return ⟨info, announce, announceList, none, comment, createdBy, encoding⟩

def intoValue (m : TorrentMetaInfo) : Value :=
  let map := insertOption [] "announce" (m.announce.map .string)
  let map := insertOption map "announce-list" (m.announceList.map (ofList (ofList .string)))
  let map := insertOption map "comment" (m.comment.map .string)
  let map := insertOption map "created by" (m.createdBy.map .string)
  let map := insertOption map "encoding" (m.encoding.map .string)
  .dict (Value.insert map "info" m.info.intoValue)

/-- Both errors are unwrapped. -/
def parse (bytes : Bytes) : Outcome TorrentMetaInfo :=
  match Value.decode (Decoder.new bytes) with
  | .error _ _ => .error .panic
  | .ok v _ =>
    match fromValue v with
    | .error _ => .error .panic
    | .ok m => .ok m

/-- What `info_hash` hashes. -/
def hashedBytes (m : TorrentMetaInfo) : Bytes := m.info.intoValue.encoded

def infoHash (sha1 : Bytes → Sha1) (m : TorrentMetaInfo) : Sha1 := sha1 m.hashedBytes

end TorrentMetaInfo
end TorrentClient
