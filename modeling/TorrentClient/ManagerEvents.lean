import TorrentClient.PeerMessages

/-!
# Events between the tasks of the client

What a connection, the manager and the download task send each other. The one-shot
senders that some events carry are left out: the answer to an event is the result of
the function that handles it.
-/
namespace TorrentClient

structure Peer where
  ip : String
  port : UInt16
  deriving DecidableEq, Repr

structure RequestMetadata where
  pieceIndex : UInt32
  blockIndex : UInt32
  offset : UInt32
  blockLength : UInt32
  deriving DecidableEq, Repr

inductive TrackerMessage where
  | peers (peers : List Peer)
  deriving DecidableEq, Repr

inductive ManagerEvent where
  | continue
  | broadcast (ipc : IPC)
  | connection (sendHandshakeFirst : Bool) (peer : Peer)
  | requirePieceLength
  | fileFinish (fileIndex : ℕ) (filePath : String)
  | download (m : Message)
  | requireData (request : RequestMetadata)
  | requireIncompleteBlocks (pieceIndex : UInt32)
  | requireHavePieces
  | tracker (m : TrackerMessage)
  deriving DecidableEq, Repr

/-- What the manager passes on to a connection. -/
def ManagerEvent.passedOn : ManagerEvent → List IPC
  | .broadcast ipc => [ipc]
  | _ => []

end TorrentClient
