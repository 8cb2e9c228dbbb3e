import TorrentClient.TrackerResponse
import TorrentClient.CarriedFields

/-!
# Compact peer lists

A tracker packs its peers into one byte string. The decoder takes a byte string that is
valid UTF-8 for text, and the response then has no byte string to split.
-/
namespace TorrentClient
open Bencode ListRanges

/-- An address of four bytes and a port. -/
structure Endpoint where
  a : UInt8
  b : UInt8
  c : UInt8
  d : UInt8
  port : UInt16
  deriving DecidableEq, Repr

namespace Endpoint

/-- The port is packed with its high byte first. -/
def compact (e : Endpoint) : Bytes :=
  [e.a, e.b, e.c, e.d, (e.port / 256).toUInt8, e.port.toUInt8]

def peer (e : Endpoint) : Peer := ⟨dottedAddress e.a e.b e.c e.d, e.port⟩

theorem port_of_bytes (port : UInt16) :
    (port / 256).toUInt8.toUInt16 * 256 + port.toUInt8.toUInt16 = port := by
  have hlt : port.toNat < 2 ^ 16 := port.toNat_lt
  apply UInt16.toNat_inj.mp
  simp
  omega

theorem fromBytes_compact (e : Endpoint) : Peer.fromBytes e.compact = .ok e.peer :=
  congrArg (fun port => Except.ok (Peer.mk (dottedAddress e.a e.b e.c e.d) port))
    (port_of_bytes e.port)

theorem fromBytes_chunks (endpoints : List Endpoint) :
    (chunks 6 (endpoints.flatMap compact)).mapM Peer.fromBytes = .ok (endpoints.map peer) := by
  have hchunks : chunks 6 (endpoints.flatMap compact) = endpoints.map compact :=
    chunks_flatMap (f := compact) (by omega) (fun _ => rfl) endpoints
  rw [hchunks, List.mapM_map]
  exact mapM_of_forall_ok fun e _ => fromBytes_compact e

end Endpoint

theorem toUInt32_ofInt (n : UInt32) :
    Value.toUInt32 (.integer (Int64.ofInt n.toNat)) = .ok n := by
  rw [Value.toUInt32, Int64.ofInt_eq_ofNat, Int64.toUInt64_ofNat']
  simp

theorem valueOf_uint32 (n : UInt32) :
    valueOf (.integer n.toNat) = some (.integer (Int64.ofInt n.toNat)) := by
  have hlt : n.toNat < 2 ^ 32 := n.toNat_lt
  have hmin : IntegerType.i64.min = -2 ^ 63 := rfl
  have hmax : IntegerType.i64.max = 2 ^ 63 - 1 := rfl
  rw [valueOf, if_pos]
  rw [IntegerType.Contains, hmin, hmax]
  omega

section Fields

variable {entries : List (Bytes × Tree)} {map : List (String × Value)}
  (hmap : ∀ key, map.lookup key = (entries.lookup (asBytes key)).bind valueOf)

include hmap

theorem getField_uint32 {key : String} {n : UInt32}
    (h : entries.lookup (asBytes key) = some (.integer n.toNat)) :
    (Value.dict map).getField Value.toUInt32 key = .ok n := by
  have hlookup : map.lookup key = some (.integer (Int64.ofInt n.toNat)) := by
    rw [hmap, h, Option.bind_some, valueOf_uint32]
  exact getField_eq_ok.mpr ⟨_, hlookup, toUInt32_ofInt n⟩

theorem getOptionField_uint32 {key : String} {n : Option UInt32}
    (h : entries.lookup (asBytes key) = n.map fun n => .integer n.toNat) :
    (Value.dict map).getOptionField Value.toUInt32 key = .ok n := by
  cases n with
  | none =>
    have hlookup : map.lookup key = none := by rw [hmap, h, Option.map_none, Option.bind_none]
    rw [Value.getOptionField, hlookup]
  | some n =>
    have hlookup : map.lookup key = some (.integer (Int64.ofInt n.toNat)) := by
      rw [hmap, h, Option.map_some, Option.bind_some, valueOf_uint32]
    rw [Value.getOptionField, hlookup]
    exact congrArg (Except.map some) (toUInt32_ofInt n)

end Fields

namespace TrackerResponse

/-- A compact response is parsed as its peers and counts exactly when the byte string of its
peers is not valid UTF-8. -/
theorem parse_compact_iff {entries : List (Bytes × Tree)} {v : Value}
    {endpoints : List Endpoint} {interval complete incomplete : UInt32}
    {minInterval : Option UInt32} (hs : (Tree.dict entries).Sorted)
    (hv : valueOf (.dict entries) = some v) (hlen : (Tree.dict entries).print.length < 2 ^ 64)
    (hpeers : entries.lookup (asBytes "peers") = some (.string (endpoints.flatMap (·.compact))))
    (hinterval : entries.lookup (asBytes "interval") = some (.integer interval.toNat))
    (hmin : entries.lookup (asBytes "min interval") = minInterval.map fun n => .integer n.toNat)
    (hcomplete : entries.lookup (asBytes "complete") = some (.integer complete.toNat))
    (hincomplete : entries.lookup (asBytes "incomplete") = some (.integer incomplete.toNat)) :
    parse (Tree.dict entries).print =
        .ok ⟨interval, minInterval, complete, incomplete, endpoints.map (·.peer)⟩ ↔
      fromUtf8 (endpoints.flatMap (·.compact)) = none := by
  obtain ⟨d, hdecode⟩ := decode_of_valueOf hlen hv
  obtain ⟨map, rfl, hmap⟩ := lookup_of_valueOf hs hv
  have hlookup : map.lookup "peers" = some (stringValue (endpoints.flatMap (·.compact))) := by
    rw [hmap, hpeers, Option.bind_some, valueOf]
  have hget : (Value.dict map).getValue "peers" =
      .ok (stringValue (endpoints.flatMap (·.compact))) := by
    rw [Value.getValue, hlookup]
  rw [parse, hdecode]
  simp only [fromValue, hget, getField_uint32 hmap hinterval, getOptionField_uint32 hmap hmin,
    getField_uint32 hmap hcomplete, getField_uint32 hmap hincomplete]
  cases hutf8 : fromUtf8 (endpoints.flatMap (·.compact)) with
  | some s =>
    have hstring : stringValue (endpoints.flatMap (·.compact)) = .string s := by
      rw [stringValue, hutf8]
    rw [hstring]
    exact iff_of_false (by simp [liftError, Except.mapError]) (by simp)
  | none =>
    have hbytes : stringValue (endpoints.flatMap (·.compact)) =
        .bytes (endpoints.flatMap (·.compact)) := by
      rw [stringValue, hutf8]
    rw [hbytes]
    refine iff_of_true ?_ rfl
    simp [liftError, Except.mapError, Endpoint.fromBytes_chunks]

/-- The entries of a response about one peer. -/
def singlePeerEntries (e : Endpoint) : List (Bytes × Tree) :=
  [(asBytes "complete", .integer 5), (asBytes "incomplete", .integer 1),
    (asBytes "interval", .integer 1800), (asBytes "peers", .string e.compact)]

theorem parse_compact_iff_single :
    parse (Tree.dict (singlePeerEntries ⟨192, 168, 0, 1, 6881⟩)).print =
      .ok ⟨1800, none, 5, 1, [⟨dottedAddress 192 168 0 1, 6881⟩]⟩ := by
  have hsorted : (Tree.dict (singlePeerEntries ⟨192, 168, 0, 1, 6881⟩)).Sorted := by
    refine ⟨?_, trivial, trivial, trivial, trivial, trivial⟩
    simp only [singlePeerEntries]
    decide +kernel
  have hvalue : ∃ v, valueOf (.dict (singlePeerEntries ⟨192, 168, 0, 1, 6881⟩)) = some v :=
    Option.isSome_iff_exists.mp (by decide +kernel)
  obtain ⟨v, hv⟩ := hvalue
  have hpeers : (singlePeerEntries ⟨192, 168, 0, 1, 6881⟩).lookup (asBytes "peers") =
      some (.string ([Endpoint.mk 192 168 0 1 6881].flatMap (·.compact))) := rfl
  exact (parse_compact_iff hsorted hv (by decide +kernel) hpeers rfl rfl rfl rfl).mpr
    (by decide +kernel)

/-- The six bytes of this peer are valid UTF-8. -/
theorem ascii_peer_rejected :
    parse (Tree.dict (singlePeerEntries ⟨10, 0, 0, 1, 80⟩)).print =
      .error (.err .extraneousData) := by decide +kernel

end TrackerResponse
end TorrentClient
