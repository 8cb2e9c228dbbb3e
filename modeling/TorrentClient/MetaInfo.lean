import TorrentClient.CheckedOperations

/-!
# Torrent metadata

The data of a torrent file, single-file or multi-file, and the list of 20-byte hashes
that its `pieces` string packs.
-/
namespace TorrentClient

/-- A SHA-1 digest. -/
structure Sha1 where
  bytes : Bytes
  size : bytes.length = 20
  deriving DecidableEq

namespace Sha1

/-- The digest whose bytes are all the same. -/
def replicate (b : UInt8) : Sha1 := ⟨List.replicate 20 b, rfl⟩

/-- `sha1_list`: the digests packed in a byte string; a shorter rest is dropped. -/
def sha1List (bytes : Bytes) : List Sha1 :=
  if h : 20 ≤ bytes.length then
    ⟨bytes.take 20, List.length_take_of_le h⟩ :: sha1List (bytes.drop 20)
  else []
termination_by bytes.length
decreasing_by
  simp only [List.length_drop]
  omega

end Sha1

structure FileInfo where
  length : UInt64
  md5sum : Option String
  path : List String
  deriving DecidableEq

structure SingleInfo where
  length : UInt64
  md5sum : Option String
  name : String
  /-- a `usize` -/
  pieceLength : UInt64
  pieces : List Sha1
  deriving DecidableEq

structure MultiInfo where
  files : List FileInfo
  name : String
  /-- a `usize` -/
  pieceLength : UInt64
  pieces : List Sha1
  deriving DecidableEq

inductive Info where
  | single (s : SingleInfo)
  | multi (m : MultiInfo)
  deriving DecidableEq

structure TorrentMetaInfo where
  info : Info
  announce : Option String
  announceList : Option (List (List String))
  /-- an `Instant`, which no function of the client looks into -/
  creationDate : Option ℕ
  comment : Option String
  createdBy : Option String
  encoding : Option String
  deriving DecidableEq

namespace TorrentMetaInfo

/-- A torrent of one file, without its optional fields. -/
def singleFile (name : String) (length pieceLength : UInt64) (pieces : List Sha1) :
    TorrentMetaInfo :=
  ⟨.single ⟨length, none, name, pieceLength, pieces⟩, none, none, none, none, none, none⟩

def pieceLength (metaInfo : TorrentMetaInfo) : ℕ :=
  match metaInfo.info with
  | .single s => s.pieceLength.toNat
  | .multi m => m.pieceLength.toNat

def numPieces (metaInfo : TorrentMetaInfo) : ℕ :=
  match metaInfo.info with
  | .single s => s.pieces.length
  | .multi m => m.pieces.length

def pieces (metaInfo : TorrentMetaInfo) : List Sha1 :=
  match metaInfo.info with
  | .single s => s.pieces
  | .multi m => m.pieces

def length {ε : Type} (metaInfo : TorrentMetaInfo) : Except (Fault ε) ℕ :=
  match metaInfo.info with
  | .single i => .ok i.length.toNat
  | .multi m => m.files.foldlM (fun len item => checkedAdd len item.length.toNat) 0

/-- The urls of `announce_list`, where `parse` is the parser of urls. -/
def listedUrls {Url : Type} (parse : String → Option Url) (metaInfo : TorrentMetaInfo) : List Url :=
  match metaInfo.announceList with
  | some urlsList => urlsList.flatMap fun urls => urls.filterMap parse
  | none => []

def getUrls {Url : Type} [DecidableEq Url] (parse : String → Option Url)
    (metaInfo : TorrentMetaInfo) : List Url :=
  let urls := metaInfo.listedUrls parse
  match metaInfo.announce.bind parse with
  | some url => if urls.contains url then urls else urls ++ [url]
  | none => urls

theorem length_pieces (metaInfo : TorrentMetaInfo) :
    metaInfo.pieces.length = metaInfo.numPieces := by
  unfold pieces numPieces
  cases metaInfo.info <;> rfl

end TorrentMetaInfo
end TorrentClient
