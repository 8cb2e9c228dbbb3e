import TorrentClient.EffectPrograms
import TorrentClient.Download
import TorrentClient.RequestQueue
import Mathlib.Data.List.AList

/-!
# The connection loop

A connection handles one IPC event after the other. Its handlers work on the state of the
connection and call out to the writer task and to the download task, which are open here:
a send fails or not, and a request is answered or not.
-/
namespace TorrentClient
open EffectPrograms

/-- `MAX_CONCURRENT_REQUESTS` -/
def maxConcurrentRequests : ℕ := 10

structure PeerMetadata where
  hasPieces : List Bool
  isChoked : Bool
  isInterested : Bool
  requests : RequestQueue
  deriving DecidableEq, Repr

def PeerMetadata.new (hasPieces : List Bool) : PeerMetadata :=
  ⟨hasPieces, true, false, RequestQueue.new⟩

structure PeerConnection where
  me : PeerMetadata
  he : PeerMetadata
  toRequest : AList fun _ : UInt32 × UInt32 => UInt32 × UInt32 × UInt32
  uploadInProgress : Bool

/-- What a handler asks of the other tasks and of the hash map. -/
inductive Call where
  /-- send to the writer task -/
  | send (m : Message)
  /-- send to the download task -/
  | download (m : Message)
  /-- send to the download task and wait for the answer -/
  | requireData (r : RequestMetadata)
  | requireIncompleteBlocks (pieceIndex : UInt32)
  /-- the key that the iteration of a map of `n + 1` keys starts with -/
  | firstKey (n : ℕ)

/-- A failed send is `false`, a cancelled answer `none`. -/
@[reducible] def Call.Reply : Call → Type
  | .send _ => Bool
  | .download _ => Bool
  | .requireData _ => Option Bytes
  | .requireIncompleteBlocks _ => Option (List (UInt32 × UInt32))
  | .firstKey n => Fin (n + 1)

abbrev Handler := Task Call Call.Reply (Fault String) PeerConnection

/-- What is left of a handler to run. -/
abbrev PendingHandler :=
  Program Call Call.Reply (Except (Fault String) (Unit × PeerConnection))

namespace PeerConnection
open Task

/-- A connection after its handshake. -/
def new (havePieces : List Bool) : PeerConnection where
  me := PeerMetadata.new havePieces
  he := PeerMetadata.new (List.replicate havePieces.length false)
  toRequest := ∅
  uploadInProgress := false

/-- `pieces[i] = value` -/
def assignPiece (pieces : List Bool) (i : ℕ) (value : Bool) : Outcome (List Bool) :=
  if i < pieces.length then .ok (pieces.set i value) else .error .panic

def checkSent (sent : Bool) : Outcome Unit :=
  if sent then .ok () else .error (.err "send failed because receiver is gone")

def checkAnswer {α : Type} : Option α → Outcome α
  | some a => .ok a
  | none => .error (.err "oneshot canceled")

/-- `writer_sender.send(m).await?` -/
def sendMessage (m : Message) : Handler Unit := do
  let sent : Bool ← perform (Call.send m)
  lift (checkSent sent)

/-- `to_download.send(ManagerEvent::Download(m)).await?` -/
def sendDownload (m : Message) : Handler Unit := do
  let sent : Bool ← perform (Call.download m)
  lift (checkSent sent)

def requireData (r : RequestMetadata) : Handler Bytes := do
  let answer : Option Bytes ← perform (Call.requireData r)
  lift (checkAnswer answer)

def requireIncompleteBlocks (pieceIndex : UInt32) : Handler (List (UInt32 × UInt32)) := do
  let answer : Option (List (UInt32 × UInt32)) ← perform (Call.requireIncompleteBlocks pieceIndex)
  lift (checkAnswer answer)

/-- The loop of `request_more_blocks`; every round takes one of the keys that are left. -/
def requestLoop : ℕ → Handler Unit
  | 0 => return ()
  | fuel + 1 => do
    let conn ← get
    if conn.me.requests.len < maxConcurrentRequests then
      match conn.toRequest.keys with
      | [] => return ()
      | key :: keys =>
        let i : Fin (keys.length + 1) ← perform (Call.firstKey keys.length)
        let target := (key :: keys).get i
        let (pieceIndex, blockIndex, blockLength) ← lift (match conn.toRequest.lookup target with
          | some entry => .ok entry
          | none => .error .panic)
        modify fun conn => { conn with toRequest := conn.toRequest.erase target }
        let offset ← lift (checkedMul32 blockIndex.toNat blockSize)
        let (added, requests) :=
          conn.me.requests.add pieceIndex blockIndex (UInt32.ofNat offset) blockLength
        modify fun conn => { conn with me := { conn.me with requests } }
        Task.runIf added (sendMessage (.request pieceIndex (UInt32.ofNat offset) blockLength))
        requestLoop fuel
    else return ()

def requestMoreBlocks : Handler Unit := do
  let conn ← get
  if conn.me.isChoked || !conn.me.isInterested || conn.toRequest.keys.length == 0 then
    return ()
  else requestLoop conn.toRequest.keys.length

def uploadNextBlock : Handler Unit := do
  let conn ← get
  if conn.uploadInProgress || conn.he.isChoked || !conn.he.isInterested then
    return ()
  else
    let (next, requests) := conn.he.requests.pop
    modify fun conn => { conn with he := { conn.he with requests } }
    match next with
    | none => return ()
    | some r =>
      let data ← requireData r
      modify fun conn => { conn with uploadInProgress := true }
      sendMessage (.piece r.pieceIndex r.offset data)

/-- What `queue_blocks` does with one of the incomplete blocks. -/
def queueBlock (pieceIndex : UInt32) (conn : PeerConnection) (block : UInt32 × UInt32) :
    PeerConnection :=
  if conn.me.requests.has pieceIndex block.1 then conn
  else { conn with
    toRequest := conn.toRequest.insert (pieceIndex, block.1) (pieceIndex, block.1, block.2) }

def queueBlocks (pieceIndex : UInt32) : Handler Unit := do
  let incompleteBlocks ← requireIncompleteBlocks pieceIndex
  modify fun conn => incompleteBlocks.foldl (queueBlock pieceIndex) conn

def updateMyInterestedStatus : Handler Unit := do
  let conn ← get
  let amInterested :=
    decide (conn.me.requests.len > 0) || decide (conn.toRequest.keys.length > 0)
  if conn.me.isInterested != amInterested then
    modify fun conn => { conn with me := { conn.me with isInterested := amInterested } }
    sendMessage (if amInterested then .interested else .notInterested)
  else return ()

/-- One round of the loop of `send_bitfield`. -/
def markPiece (hasPieces : List Bool) (bytes : Bytes) (haveIndex : ℕ) : Outcome Bytes := do
  let has ← index hasPieces haveIndex
  if has then
    let byte ← index bytes (haveIndex / 8)
    return bytes.set (haveIndex / 8)
      (byte ||| ((1 : UInt8) <<< UInt8.ofNat (7 - haveIndex % 8)))
  else return bytes

/-- The bytes of the `Bitfield` of a connection. -/
def bitfieldBytes (hasPieces : List Bool) : Outcome Bytes :=
  (List.range hasPieces.length).foldlM (markPiece hasPieces)
    (List.replicate ((hasPieces.length + 7) / 8) 0)

def sendBitfield : Handler Unit := do
  let conn ← get
  let bytes ← lift (bitfieldBytes conn.me.hasPieces)
  sendMessage (.bitfield bytes)

/-- The bit of a piece in the bytes of a `Bitfield`. -/
def bitfieldBit (byte : UInt8) (haveIndex : ℕ) : Bool :=
  byte &&& ((1 : UInt8) <<< UInt8.ofNat (7 - haveIndex % 8)) != 0

/-- The loop over the pieces of a `Bitfield`. -/
def bitfieldLoop (bytes : Bytes) : List ℕ → Handler Unit
  | [] => return ()
  | haveIndex :: rest => do
    let byte ← lift (index bytes (haveIndex / 8))
    let value := bitfieldBit byte haveIndex
    let conn ← get
    let hasPieces ← lift (assignPiece conn.he.hasPieces haveIndex value)
    modify fun conn => { conn with he := { conn.he with hasPieces } }
    Task.runIf value (queueBlocks (UInt32.ofNat haveIndex))
    bitfieldLoop bytes rest

def processMessage : Message → Handler Unit
  | .keepAlive => return ()
  | .choke => modify fun conn => { conn with me := { conn.me with isChoked := true } }
  | .unChoke => do
    let conn ← get
    if conn.me.isChoked then
      modify fun conn => { conn with me := { conn.me with isChoked := false } }
      requestMoreBlocks
    else return ()
  | .interested => do
    modify fun conn => { conn with he := { conn.he with isInterested := true } }
    let conn ← get
    if conn.he.isChoked then
      modify fun conn => { conn with he := { conn.he with isChoked := false } }
      sendMessage .unChoke
      uploadNextBlock
    else return ()
  | .notInterested => modify fun conn => { conn with he := { conn.he with isInterested := false } }
  | .have haveIndex => do
    let conn ← get
    let hasPieces ← lift (assignPiece conn.he.hasPieces haveIndex.toNat true)
    modify fun conn => { conn with he := { conn.he with hasPieces } }
    queueBlocks haveIndex
    updateMyInterestedStatus
    requestMoreBlocks
  | .bitfield bytes => do
    let conn ← get
    bitfieldLoop bytes (List.range conn.he.hasPieces.length)
    updateMyInterestedStatus
    requestMoreBlocks
  | .request pieceIndex offset length => do
    modify fun conn => { conn with he := { conn.he with
      requests := (conn.he.requests.add pieceIndex (blockIndexOf offset) offset length).2 } }
    uploadNextBlock
  | .piece pieceIndex offset data => do
    modify fun conn => { conn with me := { conn.me with
      requests := (conn.me.requests.remove pieceIndex (blockIndexOf offset)).2 } }
    sendDownload (.piece pieceIndex offset data)
    updateMyInterestedStatus
    requestMoreBlocks
  | .cancel pieceIndex offset _ => modify fun conn => { conn with he := { conn.he with
      requests := (conn.he.requests.remove pieceIndex (blockIndexOf offset)).2 } }
  | .port => fail (.err "Error UnknownRequestType(message)")

/-- One event of `peer_conn_loop`. -/
def handleIpc : IPC → Handler Unit
  | .message m => processMessage m
  | .blockCompleted pieceIndex blockIndex => do
    modify fun conn => { conn with toRequest := conn.toRequest.erase (pieceIndex, blockIndex) }
    let conn ← get
    let (removed, requests) := conn.me.requests.remove pieceIndex blockIndex
    modify fun conn => { conn with me := { conn.me with requests } }
    match removed with
    | some r => sendMessage (.cancel r.pieceIndex r.offset r.blockLength)
    | none => return ()
  | .pieceCompleted pieceIndex => do
    let conn ← get
    let hasPieces ← lift (assignPiece conn.me.hasPieces pieceIndex.toNat true)
    modify fun conn => { conn with me := { conn.me with hasPieces } }
    updateMyInterestedStatus
    sendMessage (.have pieceIndex)
  | .downloadCompleted => updateMyInterestedStatus
  | .blockUploaded => do
    modify fun conn => { conn with uploadInProgress := false }
    uploadNextBlock

end PeerConnection
end TorrentClient
