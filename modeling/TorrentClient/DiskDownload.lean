import TorrentClient.Download
import TorrentClient.FilePaths
import TorrentClient.FileSystems

/-!
# The download task and its files on a disk

The files of a torrent are opened on a disk, written through their handles, and renamed when
they are finished. A failing operation of the disk ends the task with its error; making the
directories panics instead.
-/
namespace TorrentClient
open FileSystems PathResolution

/-- Where a path leads, from the working directory or one of its parents. -/
abbrev Place := ℕ × List (List Char)

abbrev FileDisk := Disk Place UInt8

/-- The places that a path passes through, and the one that it leads to. -/
def diskPath (path : String) : FileSystems.Path Place where
  parents := (segments path).dropLast.inits.map (resolve segmentKind)
  target := resolvePath path

def ioResult {α : Type} : Except Failure α → Outcome α
  | .ok a => .ok a
  | .error _ => .error (.err "i/o error")

/-- `metadata` and `create_dir_all`, which is unwrapped. -/
def createDirs (disk : FileDisk) (parents : List Place) : Outcome FileDisk :=
  match disk.walk parents.dropLast, parents.getLast?.bind disk.node with
  | .ok _, some _ => .ok disk
  | _, _ =>
    match disk.makeDirectories parents with
    | .ok disk => .ok disk
    | .error _ => .error .panic

structure DiskDownload where
  metaInfo : TorrentMetaInfo
  pieces : List Piece
  filePaths : List String
  /-- the handles of the open files -/
  files : List ℕ
  fileOffsets : List ℕ
  sent : List ManagerEvent
  checks : List HashCheck
  disk : FileDisk

abbrev DiskDownloadM := Stateful String DiskDownload

namespace DiskDownload

/-- The loop of `create_files` from an offset on. -/
def createFilesLoop (disk : FileDisk) (fileOffset : ℕ) :
    List (ℕ × String) → Outcome (List ℕ × List String × List ℕ × FileDisk)
  | [] => return ([fileOffset], [], [], disk)
  | (length, filePath) :: fileInfos => do
    let disk ← createDirs disk (diskPath filePath).parents
    let (file, disk) ← ioResult (disk.openFile (diskPath filePath))
    let disk := disk.modify file (setLen · length)
    let next ← checkedAdd fileOffset length
    let (fileOffsets, filePaths, files, disk) ← createFilesLoop disk next fileInfos
    return (fileOffset :: fileOffsets, filePath :: filePaths, file :: files, disk)

def createFiles (disk : FileDisk) (fileInfos : List (ℕ × String)) :
    Outcome (List ℕ × List String × List ℕ × FileDisk) :=
  createFilesLoop disk 0 fileInfos

/-- What the handles of the files read. -/
def contents (s : DiskDownload) : List Bytes := s.files.map s.disk.content

def send (event : ManagerEvent) : DiskDownloadM Unit :=
  modify fun s => { s with sent := s.sent ++ [event] }

def broadcast (ipc : IPC) : DiskDownloadM Unit := send (.broadcast ipc)

def isComplete (s : DiskDownload) : Bool := s.pieces.all (·.isCompleted)

def havePieces (s : DiskDownload) : List Bool := s.pieces.map (·.isCompleted)

def modifyPiece (s : DiskDownload) (pieceIndex : ℕ) (f : Piece → Piece) : DiskDownload :=
  { s with pieces := s.pieces.modify pieceIndex f }

/-- The loop of `store_block` over the parts of the range, the first one in file `i`. -/
def storeParts (i : ℕ) (data : Bytes) : List (ℕ × ℕ × ℕ) → DiskDownloadM Unit
  | [] => return ()
  | (blockPtr, filePtr, len) :: vec => do
    let s ← get
    let file ← pureStep (index s.files i)
    let bytes ← pureStep (subslice data blockPtr (blockPtr + len))
    set { s with disk := s.disk.modify file (writeAt · filePtr bytes) }
    storeParts (i + 1) data vec

def storeBlock (pieceOffset blockIndex : ℕ) (data : Bytes) : DiskDownloadM Unit := do
  let s ← get
  let blockOffset ← pureStep (do checkedAdd pieceOffset (← checkedMul32 blockIndex blockSize))
  let (i, vec) ← pureStep (searchPtrs s.fileOffsets blockOffset data.length)
  storeParts i data vec

def verify (sha1 : Bytes → Sha1) (pieceIndex : ℕ) : DiskDownloadM Bool := do
  let s ← get
  let piece ← pureStep (index s.pieces pieceIndex)
  let buffer ← pureStep (read fullRead s.contents s.fileOffsets piece.offset piece.length.toNat)
  let valid := decide (piece.hash = sha1 buffer)
  set { s with
    pieces := s.pieces.modify pieceIndex fun p => { p with isCompleted := valid }
    checks := s.checks ++ [HashCheck.mk pieceIndex buffer valid] }
  return valid

/-- The file is opened again under its new name. -/
def renameTempFile (fileIndex : ℕ) : DiskDownloadM Unit := do
  let s ← get
  let filePath ← pureStep (index s.filePaths fileIndex)
  match stripTemp filePath with
  | none => return ()
  | some newName =>
    let disk ← pureStep (ioResult (s.disk.renameFile (diskPath filePath) (diskPath newName)))
    set { s with disk }
    let (newFile, disk) ← pureStep (ioResult (disk.openFile (diskPath newName)))
    let _file ← pureStep (index s.files fileIndex)
    set { s with
      disk
      files := s.files.set fileIndex newFile
      filePaths := s.filePaths.set fileIndex newName }
    send (.fileFinish fileIndex newName)

/-- The loop of `verify_file` over `count` files. -/
def verifyFiles (pieceLen : ℕ) : ℕ → ℕ → DiskDownloadM Unit
  | _, 0 => return ()
  | fileIndex, count + 1 => do
    let s ← get
    let low ← pureStep (do checkedDiv (← index s.fileOffsets fileIndex) pieceLen)
    let last ← pureStep (do checkedSub (← index s.fileOffsets (fileIndex + 1)) 1)
    let high ← pureStep (checkedDiv last pieceLen)
    let containedPieces ← pureStep (subslice s.pieces low (high + 1))
    runIf (containedPieces.all (·.isCompleted)) (renameTempFile fileIndex)
    verifyFiles pieceLen (fileIndex + 1) count

def verifyFile (pieceIndex : ℕ) : DiskDownloadM Unit := do
  let s ← get
  let piece ← pureStep (index s.pieces pieceIndex)
  let (i, v) ← pureStep (searchPtrs s.fileOffsets piece.offset piece.length.toNat)
  verifyFiles s.metaInfo.pieceLength i v.length

/-- The messages at the end of `store`. -/
def notify (pieceIndex blockIndex : UInt32) : DiskDownloadM Unit := do
  broadcast (.blockCompleted pieceIndex blockIndex)
  let s ← get
  let piece ← pureStep (index s.pieces pieceIndex.toNat)
  runIf piece.isCompleted (broadcast (.pieceCompleted pieceIndex))
  runIf s.isComplete (broadcast .downloadCompleted)

/-- The end of `store`, for a block that did not fail a hash check. -/
def completePiece (pieceIndex blockIndex : UInt32) : DiskDownloadM Unit := do
  modify fun s => s.modifyPiece pieceIndex.toNat fun p => { p with isCompleted := true }
  verifyFile pieceIndex.toNat
  notify pieceIndex blockIndex

def store (sha1 : Bytes → Sha1) (pieceIndex blockIndex : UInt32) (data : Bytes) :
    DiskDownloadM Unit := do
  let s ← get
  let piece ← pureStep (index s.pieces pieceIndex.toNat)
  let hasBlock ← pureStep (piece.hasBlock blockIndex)
  if hasBlock || piece.isCompleted then
    return ()
  else
    storeBlock piece.offset blockIndex.toNat data
    modify fun s => s.modifyPiece pieceIndex.toNat fun p => p.completeBlock blockIndex.toNat
    if (piece.completeBlock blockIndex.toNat).hasAllBlocks then
      let valid ← verify sha1 pieceIndex.toNat
      if valid then
        completePiece pieceIndex blockIndex
      else
        modify fun s => s.modifyPiece pieceIndex.toNat Piece.resetBlocks
    else
      completePiece pieceIndex blockIndex

def retrieveData (request : RequestMetadata) : DiskDownloadM Bytes := do
  let s ← get
  let piece ← pureStep (index s.pieces request.pieceIndex.toNat)
  if piece.isCompleted then
    let offset ← pureStep (checkedAdd piece.offset request.offset.toNat)
    pureStep (read fullRead s.contents s.fileOffsets offset request.blockLength.toNat)
  else
    throw (.err "Error::MissingPieceData")

def incompleteBlocksForPiece (pieceIndex : UInt32) :
    DiskDownloadM (List (UInt32 × UInt32)) := do
  let s ← get
  let piece ← pureStep (index s.pieces pieceIndex.toNat)
  if piece.isCompleted then
    return []
  else
    return (piece.blocks.filter fun b => !b.isCompleted).map fun b => (b.index, b.length)

/-- One round of `download_loop`. -/
def handleEvent (sha1 : Bytes → Sha1) : ManagerEvent → DiskDownloadM Download.Reply
  | .download (.piece pieceIndex offset data) => do
    store sha1 pieceIndex (blockIndexOf offset) data
    return .none
  | .requireData request => do
    let buf ← retrieveData request
    return .data buf
  | .requireIncompleteBlocks pieceIndex => do
    let res ← incompleteBlocksForPiece pieceIndex
    return .incompleteBlocks res
  | .requireHavePieces => do
    let s ← get
    return .havePieces s.havePieces
  | _ => return .none

def downloadLoop (sha1 : Bytes → Sha1) :
    List ManagerEvent → DiskDownloadM (List Download.Reply)
  | [] => return []
  | event :: events => do
    let reply ← handleEvent sha1 event
    let replies ← downloadLoop sha1 events
    return reply :: replies

/-- The state `download_loop` starts from, after the manager has created the files. -/
def start (disk : FileDisk) (metaInfo : TorrentMetaInfo) : Outcome DiskDownload := do
  let (fileOffsets, filePaths, files, disk) ← createFiles disk (createFileInfos metaInfo.info)
  let len ← index fileOffsets (fileOffsets.length - 1)
  let pieces ← createPieces len metaInfo
  return ⟨metaInfo, pieces, filePaths, files, fileOffsets, [], [], disk⟩

end DiskDownload
end TorrentClient
