import TorrentClient.DownloadPieces
import TorrentClient.ManagerEvents

/-!
# The download task

The state of the task and its event loop: blocks are stored, a piece whose blocks are all
there is checked against its hash, and completions are sent to the manager. The hash
function is a parameter; renaming, logging (`print_log`) and sending to the manager succeed.
-/
namespace TorrentClient

/-- One run of `verify`: the piece, the bytes read for it and the comparison. -/
structure HashCheck where
  pieceIndex : ℕ
  buffer : Bytes
  valid : Bool
  deriving DecidableEq, Repr

structure Download where
  metaInfo : TorrentMetaInfo
  pieces : List Piece
  filePaths : List String
  files : List Bytes
  fileOffsets : List ℕ
  /-- what went through `manager_sender` so far -/
  sent : List ManagerEvent
  /-- ghost: the hash checks made so far -/
  checks : List HashCheck
  deriving DecidableEq

abbrev DownloadM := Stateful String Download

/-- `offset / BLOCK_SIZE` on `u32` -/
def blockIndexOf (offset : UInt32) : UInt32 := offset / UInt32.ofNat blockSize

/-- The path without its `.temp` ending, if it has one. -/
def stripTemp (filePath : String) : Option String :=
  if ".temp".toList <:+ filePath.toList then
    some (String.ofList (filePath.toList.take (filePath.toList.length - 5)))
  else none

namespace Download

def send (event : ManagerEvent) : DownloadM Unit :=
  modify fun d => { d with sent := d.sent ++ [event] }

def broadcast (ipc : IPC) : DownloadM Unit := send (.broadcast ipc)

def isComplete (d : Download) : Bool := d.pieces.all (·.isCompleted)

def havePieces (d : Download) : List Bool := d.pieces.map (·.isCompleted)

/-- A change of one piece in place. -/
def modifyPiece (d : Download) (pieceIndex : ℕ) (f : Piece → Piece) : Download :=
  { d with pieces := d.pieces.modify pieceIndex f }

def verify (sha1 : Bytes → Sha1) (pieceIndex : ℕ) : DownloadM Bool := do
  let d ← get
  let piece ← pureStep (index d.pieces pieceIndex)
  let buffer ← pureStep (read fullRead d.files d.fileOffsets piece.offset piece.length.toNat)
  let valid := decide (piece.hash = sha1 buffer)
  set { d with
    pieces := d.pieces.modify pieceIndex fun p => { p with isCompleted := valid }
    checks := d.checks ++ [HashCheck.mk pieceIndex buffer valid] }
  return valid

/-- The file keeps its content under the new name. -/
def renameTempFile (fileIndex : ℕ) : DownloadM Unit := do
  let d ← get
  let filePath ← pureStep (index d.filePaths fileIndex)
  match stripTemp filePath with
  | none => return ()
  | some newName =>
    let _file ← pureStep (index d.files fileIndex)
    set { d with filePaths := d.filePaths.set fileIndex newName }
    send (.fileFinish fileIndex newName)

/-- The loop of `verify_file` over `count` files. -/
def verifyFiles (pieceLen : ℕ) : ℕ → ℕ → DownloadM Unit
  | _, 0 => return ()
  | fileIndex, count + 1 => do
    let d ← get
    let low ← pureStep (do checkedDiv (← index d.fileOffsets fileIndex) pieceLen)
    let last ← pureStep (do checkedSub (← index d.fileOffsets (fileIndex + 1)) 1)
    let high ← pureStep (checkedDiv last pieceLen)
    let containedPieces ← pureStep (subslice d.pieces low (high + 1))
    runIf (containedPieces.all (·.isCompleted)) (renameTempFile fileIndex)
    verifyFiles pieceLen (fileIndex + 1) count

def verifyFile (pieceIndex : ℕ) : DownloadM Unit := do
  let d ← get
  let piece ← pureStep (index d.pieces pieceIndex)
  let (i, v) ← pureStep (searchPtrs d.fileOffsets piece.offset piece.length.toNat)
  verifyFiles d.metaInfo.pieceLength i v.length

/-- The messages at the end of `store`. -/
def notify (pieceIndex blockIndex : UInt32) : DownloadM Unit := do
  broadcast (.blockCompleted pieceIndex blockIndex)
  let d ← get
  let piece ← pureStep (index d.pieces pieceIndex.toNat)
  runIf piece.isCompleted (broadcast (.pieceCompleted pieceIndex))
  runIf d.isComplete (broadcast .downloadCompleted)

/-- The end of `store`, which every block reaches that did not fail a hash check: the
piece is flagged as completed whether or not all of its blocks are there. -/
def completePiece (pieceIndex blockIndex : UInt32) : DownloadM Unit := do
  modify fun d => d.modifyPiece pieceIndex.toNat fun p => { p with isCompleted := true }
  verifyFile pieceIndex.toNat
  notify pieceIndex blockIndex

def store (sha1 : Bytes → Sha1) (pieceIndex blockIndex : UInt32) (data : Bytes) :
    DownloadM Unit := do
  let d ← get
  let piece ← pureStep (index d.pieces pieceIndex.toNat)
  let hasBlock ← pureStep (piece.hasBlock blockIndex)
  if hasBlock || piece.isCompleted then
    return ()
  else
    let files ← pureStep (storeBlock d.files d.fileOffsets piece.offset blockIndex.toNat data)
    set { d with
      files
      pieces := d.pieces.modify pieceIndex.toNat fun p => p.completeBlock blockIndex.toNat }
    if (piece.completeBlock blockIndex.toNat).hasAllBlocks then
      let valid ← verify sha1 pieceIndex.toNat
      if valid then
        completePiece pieceIndex blockIndex
      else
        modify fun d => d.modifyPiece pieceIndex.toNat Piece.resetBlocks
    else
      completePiece pieceIndex blockIndex

def retrieveData (request : RequestMetadata) : DownloadM Bytes := do
  let d ← get
  let piece ← pureStep (index d.pieces request.pieceIndex.toNat)
  if piece.isCompleted then
    let offset ← pureStep (checkedAdd piece.offset request.offset.toNat)
    pureStep (read fullRead d.files d.fileOffsets offset request.blockLength.toNat)
  else
    throw (.err "Error::MissingPieceData")

def incompleteBlocksForPiece (pieceIndex : UInt32) : DownloadM (List (UInt32 × UInt32)) := do
  let d ← get
  let piece ← pureStep (index d.pieces pieceIndex.toNat)
  if piece.isCompleted then
    return []
  else
    return (piece.blocks.filter fun b => !b.isCompleted).map fun b => (b.index, b.length)

/-- What goes back through the one-shot sender of an event. -/
inductive Reply where
  | none
  | data (buf : Bytes)
  | incompleteBlocks (blocks : List (UInt32 × UInt32))
  | havePieces (pieces : List Bool)
  deriving DecidableEq, Repr

/-- One round of `download_loop`. -/
def handleEvent (sha1 : Bytes → Sha1) : ManagerEvent → DownloadM Reply
  | .download (.piece pieceIndex offset data) => do
    store sha1 pieceIndex (blockIndexOf offset) data
    return .none
  | .requireData request => do
    let buf ← retrieveData request
    return .data buf
  | .requireIncompleteBlocks pieceIndex => do
    let res ← incompleteBlocksForPiece pieceIndex
    return .incompleteBlocks res
  | .requireHavePieces => do
    let d ← get
    return .havePieces d.havePieces
  | _ => return .none

/-- `download_loop` over the events of its channel, up to the first one that fails. -/
def downloadLoop (sha1 : Bytes → Sha1) : List ManagerEvent → DownloadM (List Reply)
  | [] => return []
  | event :: events => do
    let reply ← handleEvent sha1 event
    let replies ← downloadLoop sha1 events
    return reply :: replies

/-- The state `download_loop` starts from, after the manager has created the files. -/
def start (disk : String → Bytes) (metaInfo : TorrentMetaInfo) : Outcome Download := do
  let (fileOffsets, filePaths, files) ← createFiles disk (createFileInfos metaInfo.info)
  let len ← index fileOffsets (fileOffsets.length - 1)
  let pieces ← createPieces len metaInfo
  return ⟨metaInfo, pieces, filePaths, files, fileOffsets, [], []⟩

/-- `manager_loop` creates the pieces as well before it spawns `download_loop`, and prints the
length of the first one. -/
def launch (disk : String → Bytes) (metaInfo : TorrentMetaInfo) : Outcome Download := do
  let d ← start disk metaInfo
  let _first ← index d.pieces 0
  return d

theorem launch_eq_ok {disk : String → Bytes} {metaInfo : TorrentMetaInfo} {d : Download} :
    launch disk metaInfo = .ok d ↔ start disk metaInfo = .ok d ∧ 0 < d.pieces.length := by
  unfold launch
  cases start disk metaInfo with
  | error e => simp
  | ok d' =>
    rw [ok_bind]
    cases hp : d'.pieces[0]? with
    | none =>
      have hlen := List.getElem?_eq_none_iff.mp hp
      rw [index_of_le hlen, error_bind]
      refine iff_of_false (fun h => by cases h) ?_
      rintro ⟨heq, hpos⟩
      cases heq
      omega
    | some piece =>
      have hlen := (List.getElem?_eq_some_iff.mp hp).1
      rw [index_of_getElem? hp, ok_bind]
      constructor
      · intro h
        cases h
        exact ⟨rfl, hlen⟩
      · rintro ⟨heq, -⟩
        exact heq

end Download
end TorrentClient
