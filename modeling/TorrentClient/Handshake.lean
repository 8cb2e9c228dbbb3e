import TorrentClient.BencodeValues
import TorrentClient.MetaInfo
import TorrentClient.StreamPrograms
import TorrentClient.PeerMessages

/-!
# The handshake

The first bytes of a connection: the name of the protocol, eight reserved bytes, the info hash
and the peer id. The receiver ignores the first two and refuses another info hash or its own
peer id. Each side either sends before it receives or the other way around. Logging (`print_log`)
is taken to succeed.
-/
namespace TorrentClient
open EffectPrograms StreamPrograms TransitionRuns

/-- `PROTOCOL` -/
def protocol : String := "BitTorrent protocol"

/-- What the handshake reads of a `PeerConnection`. -/
structure Handshake where
  ourPeerId : String
  infoHash : Sha1
  deriving DecidableEq

/-- A part of a task that works on the stream to the peer. -/
abbrev StreamTask :=
  Task (StreamCall UInt8) StreamCall.Reply (Fault String) Unit

namespace Handshake
open Task

/-- `read_n(stream, n).await?` -/
def receiveN (n : ℕ) : StreamTask Bytes := do
  let bytes : Option Bytes ← perform (StreamCall.read n : StreamCall UInt8)
  lift (match bytes with
    | some bytes => .ok bytes
    | none => .error (.err "unexpected end of file"))

def message (h : Handshake) : Bytes :=
  [UInt8.ofNat (asBytes protocol).length] ++ asBytes protocol ++ List.replicate 8 0 ++
    h.infoHash.bytes ++ asBytes h.ourPeerId

def sendHandshake (h : Handshake) : StreamTask Unit :=
  perform (StreamCall.write h.message : StreamCall UInt8)

/-- The two checks at the end of `receive_handshake`. -/
def validate (h : Handshake) (infoHash peerId : Bytes) : Outcome Unit :=
  if infoHash ≠ h.infoHash.bytes then .error (.err "Error::InvalidInfoHash")
  else if peerId = asBytes h.ourPeerId then .error (.err "Error::ConnectingToSelf")
  else .ok ()

def receiveHandshake (h : Handshake) : StreamTask Unit := do
  let pstrlen ← receiveN 1
  let n ← lift (index pstrlen 0)
  let _pstr ← receiveN n.toNat
  let _reserved ← receiveN 8
  let infoHash ← receiveN 20
  let peerId ← receiveN 20
  lift (h.validate infoHash peerId)

def handshake (h : Handshake) (sendHandshakeFirst : Bool) : StreamTask Unit :=
  if sendHandshakeFirst then do
    h.sendHandshake
    h.receiveHandshake
  else do
    h.receiveHandshake
    h.sendHandshake

end Handshake
end TorrentClient
