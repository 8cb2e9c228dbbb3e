import TorrentClient.CheckedOperations
import TorrentClient.FrameStreams
import TorrentClient.ListRanges

/-!
# The peer wire format

Messages, their byte form and the framing loop of a connection's reader. A message is
written behind its length and a tag byte; the reader reads the length, then the tag and
the body.
-/
namespace TorrentClient

inductive Message where
  | keepAlive
  | choke
  | unChoke
  | interested
  | notInterested
  | have (index : UInt32)
  | bitfield (bytes : Bytes)
  | request (index offset length : UInt32)
  | piece (index offset : UInt32) (data : Bytes)
  | cancel (index offset length : UInt32)
  | port
  deriving DecidableEq, Repr

/-- Events on the channel into a connection loop. -/
inductive IPC where
  | blockCompleted (pieceIndex blockIndex : UInt32)
  | pieceCompleted (pieceIndex : UInt32)
  | downloadCompleted
  | message (m : Message)
  | blockUploaded
  deriving DecidableEq, Repr

def byte0 : UInt32 := 256 * 256 * 256
def byte1 : UInt32 := 256 * 256
def byte2 : UInt32 := 256
def byte3 : UInt32 := 1

def bytesToU32 (bytes : Bytes) : Outcome UInt32 := do
  let b0 ← index bytes 0
  let b1 ← index bytes 1
  let b2 ← index bytes 2
  let b3 ← index bytes 3
  return b0.toUInt32 * byte0 + b1.toUInt32 * byte1 + b2.toUInt32 * byte2 + b3.toUInt32 * byte3

def u32ToBytes (integer : UInt32) : Bytes :=
  let first := integer / byte0
  let rest := integer - first * byte0
  let second := rest / byte1
  let rest := rest - second * byte1
  let third := rest / byte2
  let rest := rest - third * byte2
  let fourth := rest
  [first.toUInt8, second.toUInt8, third.toUInt8, fourth.toUInt8]

/-- `Message::new`, which panics on an unknown tag and on a body that is too short. -/
def Message.new (id : UInt8) (body : Bytes) : Outcome Message :=
  match id.toNat with
  | 0 => .ok .choke
  | 1 => .ok .unChoke
  | 2 => .ok .interested
  | 3 => .ok .notInterested
  | 4 => do
    let index ← bytesToU32 body
    return .have index
  | 5 => .ok (.bitfield body)
  | 6 => do
    let index ← bytesToU32 (← subslice body 0 4)
    let offset ← bytesToU32 (← subslice body 4 8)
    let length ← bytesToU32 (← subslice body 8 12)
    return .request index offset length
  | 7 => do
    let index ← bytesToU32 (← subslice body 0 4)
    let offset ← bytesToU32 (← subslice body 4 8)
    let data ← subslice body 8 body.length
    return .piece index offset data
  | 8 => do
    let index ← bytesToU32 (← subslice body 0 4)
    let offset ← bytesToU32 (← subslice body 4 8)
    let length ← bytesToU32 (← subslice body 8 12)
    return .cancel index offset length
  | 9 => .ok .port
  | _ => .error .panic

/-- The tag and the body of `Message::serialize`; a `Piece` gets the tag of a `Request`. -/
def Message.payload : Message → Bytes
  | .keepAlive => []
  | .choke => [0]
  | .unChoke => [1]
  | .interested => [2]
  | .notInterested => [3]
  | .have index => 4 :: u32ToBytes index
  | .bitfield bytes => 5 :: bytes
  | .request index offset length =>
    6 :: (u32ToBytes index ++ u32ToBytes offset ++ u32ToBytes length)
  | .piece index offset data => 6 :: (u32ToBytes index ++ u32ToBytes offset ++ data)
  | .cancel index offset length =>
    8 :: (u32ToBytes index ++ u32ToBytes offset ++ u32ToBytes length)
  | .port => [9]

def Message.serialize (m : Message) : Bytes :=
  u32ToBytes (UInt32.ofNat m.payload.length) ++ m.payload

/-- `read_n`: the bytes read and the rest of the stream. -/
def readN (stream : Bytes) (bytesToRead : ℕ) : Outcome (Bytes × Bytes) :=
  if bytesToRead ≤ stream.length then .ok (stream.take bytesToRead, stream.drop bytesToRead)
  else .error (.err "unexpected end of file")

/-- One round of `conn_read_loop`. -/
def readMessage (stream : Bytes) : Outcome (Message × Bytes) := do
  let (size, stream) ← readN stream 4
  let messageSize ← bytesToU32 size
  if messageSize > 0 then
    let (message, stream) ← readN stream messageSize.toNat
    let id ← index message 0
    let m ← Message.new id (message.drop 1)
    return (m, stream)
  else
    return (.keepAlive, stream)

/-- `conn_read_loop`: the messages it passes on until reading fails, what it had not
read by then, and the failure. -/
def connReadLoop (stream : Bytes) : FrameStreams.Outcome Message UInt8 (Fault String) :=
  FrameStreams.readAll readMessage (.err "unexpected end of file") stream

end TorrentClient
