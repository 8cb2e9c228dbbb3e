import TorrentClient.DownloadFiles
import TorrentClient.MetaInfo

/-!
# Pieces, their blocks and the files of a torrent

`Piece.new` cuts a piece into blocks, `createPieces` the content of a torrent into
pieces, and `createFiles` opens the files that hold it.
-/
namespace TorrentClient
open ListRanges

structure Block where
  index : UInt32
  length : UInt32
  isCompleted : Bool
  deriving DecidableEq, Repr

def Block.new (index length : UInt32) : Block := ⟨index, length, false⟩

structure Piece where
  length : UInt32
  offset : ℕ
  hash : Sha1
  blocks : List Block
  isCompleted : Bool
  deriving DecidableEq

namespace Piece

/-- `(length as f64 / BLOCK_SIZE as f64).ceil()`, exact on the values of `u32`. -/
def numBlocks (length : ℕ) : ℕ := (length + blockSize - 1) / blockSize

/-- The length that `Piece::new` gives block `i`. -/
def newBlockLength (length i : ℕ) : Outcome ℕ :=
  if i < numBlocks length - 1 then .ok blockSize
  else do checkedSub length (← checkedMul32 blockSize (numBlocks length - 1))

def new (length : UInt32) (offset : ℕ) (hash : Sha1) : Outcome Piece := do
  let blocks ← (List.range (numBlocks length.toNat)).mapM fun i => do
    let len ← newBlockLength length.toNat i
    return Block.new (UInt32.ofNat i) (UInt32.ofNat len)
  return ⟨length, offset, hash, blocks, false⟩

def hasBlock (piece : Piece) (blockIndex : UInt32) : Outcome Bool := do
  let block ← index piece.blocks blockIndex.toNat
  return block.isCompleted

def hasAllBlocks (piece : Piece) : Bool := piece.blocks.all (·.isCompleted)

def resetBlocks (piece : Piece) : Piece :=
  { piece with blocks := piece.blocks.map fun b => { b with isCompleted := false } }

/-- `piece.blocks[block_index].is_completed = true` -/
def completeBlock (piece : Piece) (blockIndex : ℕ) : Piece :=
  { piece with blocks := piece.blocks.modify blockIndex fun b => { b with isCompleted := true } }

end Piece

/-- The length that `create_pieces` takes for piece `i`; its assertions are about the
last piece. -/
def createdLength (filesLength : ℕ) (metaInfo : TorrentMetaInfo) (i offset : ℕ) : Outcome ℕ :=
  if i < metaInfo.numPieces - 1 then .ok metaInfo.pieceLength
  else do
    assert (filesLength > offset)
    assert (metaInfo.pieceLength ≥ filesLength - offset)
    return filesLength - offset

/-- `create_pieces`; the lengths are cast to `u32`. -/
def createPieces (filesLength : ℕ) (metaInfo : TorrentMetaInfo) : Outcome (List Piece) :=
  (List.range metaInfo.numPieces).mapM fun i => do
    let offset ← checkedMul i metaInfo.pieceLength
    let length ← createdLength filesLength metaInfo i offset
    let hash ← index metaInfo.pieces i
    Piece.new (UInt32.ofNat length) offset hash

def createFileInfos : Info → List (ℕ × String)
  | .single s => [(s.length.toNat, "downloads/" ++ s.name ++ ".temp")]
  | .multi m => m.files.map fun f =>
      (f.length.toNat, "downloads/" ++ m.name ++ "/" ++ "/".intercalate f.path ++ ".temp")

/-- `set_len` -/
def setLen (file : Bytes) (length : ℕ) : Bytes :=
  (file ++ List.replicate (length - file.length) 0).take length

/-- The loop of `create_files` from an offset on. What the disk already holds under a path
stays in the file that is opened there. -/
def createFilesLoop (disk : String → Bytes) (fileOffset : ℕ) :
    List (ℕ × String) → Outcome (List ℕ × List String × List Bytes)
  | [] => return ([fileOffset], [], [])
  | (length, filePath) :: fileInfos => do
    let next ← checkedAdd fileOffset length
    let (fileOffsets, filePaths, files) ← createFilesLoop disk next fileInfos
    return (fileOffset :: fileOffsets, filePath :: filePaths, setLen (disk filePath) length :: files)

def createFiles (disk : String → Bytes) (fileInfos : List (ℕ × String)) :
    Outcome (List ℕ × List String × List Bytes) :=
  createFilesLoop disk 0 fileInfos

end TorrentClient
