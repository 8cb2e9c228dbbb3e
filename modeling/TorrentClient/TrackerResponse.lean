import TorrentClient.MetaInfoValues
import TorrentClient.ManagerEvents

/-!
# Responses of a tracker

A response is a dictionary with counts and with the peers, either as a list of dictionaries
or as one byte string of six bytes for each peer.
-/
namespace TorrentClient

open Value

namespace Value

def getValue (key : String) : Value → Except DecodeError Value
  | .dict map =>
    match map.lookup key with
    | some v => .ok v
    | none => .error (.missingField key)
  | _ => .error .invalidDict

/-- `*i as u16` -/
def toUInt16 : Value → Except DecodeError UInt16
  | .integer i => .ok i.toUInt64.toUInt16
  | _ => .error .extraneousData

/-- `*i as u32` -/
def toUInt32 : Value → Except DecodeError UInt32
  | .integer i => .ok i.toUInt64.toUInt32
  | _ => .error .extraneousData

end Value

/-- How an `Ipv4Addr` prints. -/
def dottedAddress (a b c d : UInt8) : String :=
  String.intercalate "." ([a, b, c, d].map fun x => toString x.toNat)

namespace Peer

def fromBytes (v : Bytes) : Except (Fault DecodeError) Peer := do
  let ip := dottedAddress (← index v 0) (← index v 1) (← index v 2) (← index v 3)
  let port := (← index v 4).toUInt16 * 256 + (← index v 5).toUInt16
  return ⟨ip, port⟩

def fromValue (value : Value) : Except DecodeError Peer := do
  let ip ← value.getField toString "ip"
  let port ← value.getField toUInt16 "port"
  return ⟨ip, port⟩

end Peer

structure TrackerResponse where
  interval : UInt32
  minInterval : Option UInt32
  complete : UInt32
  incomplete : UInt32
  peers : List Peer
  deriving DecidableEq, Repr

namespace TrackerResponse

def fromValue (value : Value) : Except (Fault DecodeError) TrackerResponse := do
  let peersValue ← liftError (value.getValue "peers")
  let peers ← match peersValue with
    | .list _ => liftError (toList Peer.fromValue peersValue)
    | .bytes b => (ListRanges.chunks 6 b).mapM Peer.fromBytes
    | _ => .error (.err .extraneousData)
  let interval ← liftError (value.getField toUInt32 "interval")
  let minInterval ← liftError (value.getOptionField toUInt32 "min interval")
  let complete ← liftError (value.getField toUInt32 "complete")
  let incomplete ← liftError (value.getField toUInt32 "incomplete")
  return ⟨interval, minInterval, complete, incomplete, peers⟩

def parse (bytes : Bytes) : Except (Fault DecodeError) TrackerResponse :=
  match Value.decode (Decoder.new bytes) with
  | .error e _ => .error e
  | .ok v _ => fromValue v

end TrackerResponse
end TorrentClient
