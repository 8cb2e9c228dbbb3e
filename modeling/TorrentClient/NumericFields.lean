import TorrentClient.ItemFields

/-!
# Numbers of parsed responses and torrents

A number of the result is the remainder of the integer that the bytes have under its key. The
two are the same exactly where the integer that is written is in the range of the field.
-/
namespace TorrentClient
open Bencode

variable {α : Type} {i : Item} {v : Value}

theorem liftError_eq_ok {ε : Type} {x : Except ε α} {a : α} : liftError x = .ok a ↔ x = .ok a := by
  cases x <;> simp [liftError, Except.mapError]

theorem Value.getValue_eq_ok {key : String} {w : Value} :
    v.getValue key = .ok w ↔ v.entry key = some w := by
  cases v with
  | dict map =>
    rw [Value.getValue, Value.entry]
    cases map.lookup key <;> simp
  | _ => simp [Value.getValue, Value.entry]

/-- A list under a key, of which each item is read. -/
theorem Means.listed_iff {fromValue : Value → Except DecodeError α} {xs : List α} {key : String}
    {w : Value} {written : Item → α → Prop} {inRange : Item → Prop} (h : Means i v)
    (hw : v.entry key = some w) (hxs : ∀ vs, w = .list vs → vs.mapM fromValue = .ok xs)
    (heach : ∀ i v x, Means i v → fromValue v = .ok x → (written i x ↔ inRange i)) :
    (∀ items, i.entry (asBytes key) = some (.list items) → List.Forall₂ written items xs) ↔
      ∀ items, i.entry (asBytes key) = some (.list items) → ∀ p ∈ items, inRange p := by
  obtain ⟨j, hj, hmeans⟩ := h.entry_of_some hw
  rw [hj]
  apply forall_congr'
  intro items
  apply imp_congr_right
  intro heq
  cases heq
  cases hmeans with
  | list hitems => exact hitems.forall₂_iff (hxs _ rfl) heach

/-! ### Responses -/

/-- The port of a peer is the number that is written. -/
def Peer.Written (i : Item) (p : Peer) : Prop := integerAt i "port" = some (p.port.toNat : ℤ)

def Peer.InRange (i : Item) : Prop := InBits 16 (integerAt i "port")

theorem Peer.written_iff {p : Peer} (h : Means i v) (hp : fromValue v = .ok p) :
    Written i p ↔ InRange i := by
  rw [fromValue, bind_eq_ok] at hp
  obtain ⟨ip, -, hp⟩ := hp
  obtain ⟨port, hport, hp⟩ := bind_eq_ok.mp hp
  cases hp
  exact casts_toUInt16.getField_iff h hport

namespace TrackerResponse

/-- The numbers of a response are those that are written in it. -/
structure Written (i : Item) (r : TrackerResponse) : Prop where
  interval : integerAt i "interval" = some (r.interval.toNat : ℤ)
  minInterval : integerAt i "min interval" = r.minInterval.map fun n => (n.toNat : ℤ)
  complete : integerAt i "complete" = some (r.complete.toNat : ℤ)
  incomplete : integerAt i "incomplete" = some (r.incomplete.toNat : ℤ)
  ports : ∀ items, i.entry (asBytes "peers") = some (.list items) →
    List.Forall₂ Peer.Written items r.peers

structure InRange (i : Item) : Prop where
  interval : InBits 32 (integerAt i "interval")
  minInterval : InBits 32 (integerAt i "min interval")
  complete : InBits 32 (integerAt i "complete")
  incomplete : InBits 32 (integerAt i "incomplete")
  ports : ∀ items, i.entry (asBytes "peers") = some (.list items) → ∀ p ∈ items, Peer.InRange p

/-- The peers, in either format. -/
def readPeers (w : Value) : Except (Fault DecodeError) (List Peer) :=
  match w with
  | .list items => liftError (items.mapM Peer.fromValue)
  | .bytes b => (ListRanges.chunks 6 b).mapM Peer.fromBytes
  | _ => .error (.err .extraneousData)

theorem fromValue_eq (v : Value) : fromValue v = do
    let w ← liftError (v.getValue "peers")
    let peers ← readPeers w
    let interval ← liftError (v.getField Value.toUInt32 "interval")
    let minInterval ← liftError (v.getOptionField Value.toUInt32 "min interval")
    let complete ← liftError (v.getField Value.toUInt32 "complete")
    let incomplete ← liftError (v.getField Value.toUInt32 "incomplete")
    return ⟨interval, minInterval, complete, incomplete, peers⟩ := by
  rw [fromValue]
  congr 1
  funext w
  cases w <;> rfl

/-- What a response is made of. -/
theorem fromValue_eq_ok {r : TrackerResponse} : fromValue v = .ok r ↔
    (∃ w, v.entry "peers" = some w ∧ readPeers w = .ok r.peers) ∧
    v.getField Value.toUInt32 "interval" = .ok r.interval ∧
    v.getOptionField Value.toUInt32 "min interval" = .ok r.minInterval ∧
    v.getField Value.toUInt32 "complete" = .ok r.complete ∧
    v.getField Value.toUInt32 "incomplete" = .ok r.incomplete := by
  simp only [fromValue_eq, bind_eq_ok, liftError_eq_ok, Value.getValue_eq_ok]
  constructor
  · rintro ⟨w, hw, peers, hpeers, interval, hinterval, minInterval, hmin, complete, hcomplete,
      incomplete, hincomplete, hr⟩
    cases hr
    exact ⟨⟨w, hw, hpeers⟩, hinterval, hmin, hcomplete, hincomplete⟩
  · rintro ⟨⟨w, hw, hpeers⟩, hinterval, hmin, hcomplete, hincomplete⟩
    exact ⟨w, hw, r.peers, hpeers, r.interval, hinterval, r.minInterval, hmin, r.complete,
      hcomplete, r.incomplete, hincomplete, rfl⟩

theorem written_iff {r : TrackerResponse} (h : Means i v) (hr : fromValue v = .ok r) :
    Written i r ↔ InRange i := by
  obtain ⟨⟨w, hw, hpeers⟩, hinterval, hmin, hcomplete, hincomplete⟩ := fromValue_eq_ok.mp hr
  have hlist : ∀ vs, w = .list vs → vs.mapM Peer.fromValue = .ok r.peers := by
    rintro vs rfl
    exact liftError_eq_ok.mp hpeers
  have hports := h.listed_iff hw hlist fun _ _ _ => Peer.written_iff
  have hinterval' := casts_toUInt32.getField_iff h hinterval
  have hmin' := casts_toUInt32.getOptionField_iff h hmin
  have hcomplete' := casts_toUInt32.getField_iff h hcomplete
  have hincomplete' := casts_toUInt32.getField_iff h hincomplete
  constructor
  · intro hwritten
    exact ⟨hinterval'.mp hwritten.interval, hmin'.mp hwritten.minInterval,
      hcomplete'.mp hwritten.complete, hincomplete'.mp hwritten.incomplete,
      hports.mp hwritten.ports⟩
  · intro hin
    exact ⟨hinterval'.mpr hin.interval, hmin'.mpr hin.minInterval, hcomplete'.mpr hin.complete,
      hincomplete'.mpr hin.incomplete, hports.mpr hin.ports⟩

end TrackerResponse

/-! ### Torrents -/

namespace FileInfo

def Written (i : Item) (f : FileInfo) : Prop := integerAt i "length" = some (f.length.toNat : ℤ)

def InRange (i : Item) : Prop := InBits 64 (integerAt i "length")

theorem written_iff {f : FileInfo} (h : Means i v) (hf : fromValue v = .ok f) :
    Written i f ↔ InRange i := by
  rw [fromValue, bind_eq_ok] at hf
  obtain ⟨length, hlength, hf⟩ := hf
  obtain ⟨md5sum, -, hf⟩ := bind_eq_ok.mp hf
  obtain ⟨path, -, hf⟩ := bind_eq_ok.mp hf
  cases hf
  exact casts_toUInt64.getField_iff h hlength

end FileInfo

namespace Info

/-- The numbers of an info are those that are written in it. -/
def Written (i : Item) : Info → Prop
  | .single s => integerAt i "length" = some (s.length.toNat : ℤ) ∧
      integerAt i "piece length" = some (s.pieceLength.toNat : ℤ)
  | .multi m => integerAt i "piece length" = some (m.pieceLength.toNat : ℤ) ∧
      ∀ items, i.entry (asBytes "files") = some (.list items) →
        List.Forall₂ FileInfo.Written items m.files

/-- The length of the info itself is only read where there are no files. -/
structure InRange (i : Item) : Prop where
  pieceLength : InBits 64 (integerAt i "piece length")
  length : i.entry (asBytes "files") = none → InBits 64 (integerAt i "length")
  files : ∀ items, i.entry (asBytes "files") = some (.list items) →
    ∀ f ∈ items, FileInfo.InRange f

theorem fromValue_eq_single {s : SingleInfo} (h : fromValue v = .ok (.single s)) :
    v.entry "files" = none ∧ v.getField Value.toUInt64 "length" = .ok s.length ∧
      v.getField Value.toUInt64 "piece length" = .ok s.pieceLength := by
  rw [fromValue, bind_eq_ok] at h
  obtain ⟨files, hfiles, h⟩ := h
  cases files with
  | none =>
    simp only [bind_eq_ok] at h
    obtain ⟨length, hlength, md5sum, -, name, -, pieceLength, hpiece, pieces, -, hs⟩ := h
    cases hs
    refine ⟨?_, hlength, hpiece⟩
    cases v with
    | dict map => exact Except.ok.inj hfiles
    | _ => rfl
  | some w =>
    simp only [bind_eq_ok] at h
    obtain ⟨files, -, name, -, pieceLength, -, pieces, -, hm⟩ := h
    cases hm

theorem fromValue_eq_multi {m : MultiInfo} (h : fromValue v = .ok (.multi m)) :
    v.getField (Value.toList FileInfo.fromValue) "files" = .ok m.files ∧
      v.getField Value.toUInt64 "piece length" = .ok m.pieceLength := by
  rw [fromValue, bind_eq_ok] at h
  obtain ⟨files, -, h⟩ := h
  cases files with
  | none =>
    simp only [bind_eq_ok] at h
    obtain ⟨length, -, md5sum, -, name, -, pieceLength, -, pieces, -, hs⟩ := h
    cases hs
  | some w =>
    simp only [bind_eq_ok] at h
    obtain ⟨files, hfiles, name, -, pieceLength, hpiece, pieces, -, hm⟩ := h
    cases hm
    exact ⟨hfiles, hpiece⟩

theorem written_iff {info : Info} (h : Means i v) (hinfo : fromValue v = .ok info) :
    Written i info ↔ InRange i := by
  cases info with
  | single s =>
    obtain ⟨hfiles, hlength, hpiece⟩ := fromValue_eq_single hinfo
    have hnone := h.entry_of_none hfiles
    have hlength' := casts_toUInt64.getField_iff h hlength
    have hpiece' := casts_toUInt64.getField_iff h hpiece
    rw [Written, hlength', hpiece']
    constructor
    · rintro ⟨hl, hp⟩
      refine ⟨hp, fun _ => hl, ?_⟩
      rw [hnone]
      exact nofun
    · intro hin
      exact ⟨hin.length hnone, hin.pieceLength⟩
  | multi m =>
    obtain ⟨hfiles, hpiece⟩ := fromValue_eq_multi hinfo
    obtain ⟨w, hw, hread⟩ := Value.getField_eq_ok.mp hfiles
    have hlist : ∀ vs, w = .list vs → vs.mapM FileInfo.fromValue = .ok m.files := by
      rintro vs rfl
      exact hread
    have hfiles' := h.listed_iff hw hlist fun _ _ _ => FileInfo.written_iff
    have hpiece' := casts_toUInt64.getField_iff h hpiece
    obtain ⟨j, hj, -⟩ := h.entry_of_some hw
    rw [Written, hpiece', hfiles']
    constructor
    · rintro ⟨hp, hf⟩
      refine ⟨hp, ?_, hf⟩
      rw [hj]
      exact nofun
    · intro hin
      exact ⟨hin.pieceLength, hin.files⟩

end Info

namespace TorrentMetaInfo

def Written (i : Item) (m : TorrentMetaInfo) : Prop :=
  ∃ j, i.entry (asBytes "info") = some j ∧ m.info.Written j

def InRange (i : Item) : Prop := ∀ j, i.entry (asBytes "info") = some j → Info.InRange j

theorem written_iff {m : TorrentMetaInfo} (h : Means i v) (hm : fromValue v = .ok m) :
    Written i m ↔ InRange i := by
  simp only [fromValue, bind_eq_ok] at hm
  obtain ⟨info, hinfo, announce, -, announceList, -, comment, -, createdBy, -, encoding, -, hm⟩ := hm
  cases hm
  obtain ⟨w, hw, hread⟩ := Value.getField_eq_ok.mp hinfo
  obtain ⟨j, hj, hmeans⟩ := h.entry_of_some hw
  rw [Written, InRange, hj]
  have hiff := Info.written_iff hmeans hread
  constructor
  · rintro ⟨j', hj', hwritten⟩ k hk
    cases hj'
    cases hk
    exact hiff.mp hwritten
  · intro hin
    exact ⟨j, rfl, hiff.mpr (hin j rfl)⟩

end TorrentMetaInfo

/-! ### Parsing -/

/-- The bytes begin with the item. -/
def Begins (bytes : Bytes) (i : Item) : Prop := i.Delimited ∧ i.spell <+: bytes

theorem Begins.unique {bytes : Bytes} {i j : Item} (hi : Begins bytes i) (hj : Begins bytes j) :
    i = j := by
  obtain ⟨hi, r, hr⟩ := hi
  obtain ⟨hj, s, hs⟩ := hj
  exact (i.readable j hi hj r s (hr.trans hs.symm)).1

/-- A decoded value is the meaning of the one item that the bytes begin with. -/
theorem item_of_decode {bytes : Bytes} (hlen : bytes.length < 2 ^ 63) {d : Decoder}
    (h : Value.decode (Decoder.new bytes) = .ok v d) :
    ∃ i, (∀ j, Begins bytes j ↔ j = i) ∧ Means i v := by
  have hd : (Decoder.new bytes).InSlice := by
    rw [Decoder.InSlice, Decoder.new, Nat.zero_add]
    exact hlen
  obtain ⟨i, hmoves, hmeans⟩ := (decode_iff hd).mp h
  have hbegins : Begins bytes i := ⟨hmeans.delimited, d.rest, hmoves.1.symm⟩
  refine ⟨i, ?_, hmeans⟩
  intro j
  constructor
  · intro hj
    exact hj.unique hbegins
  · rintro rfl
    exact hbegins

/-- The numbers of a parsed response and of a parsed torrent are those that are written exactly
when each of these is in the range of its field. -/
theorem numbers_written_iff {bytes : Bytes} (hlen : bytes.length < 2 ^ 63) :
    (∀ r, TrackerResponse.parse bytes = .ok r → ∃ i, (∀ j, Begins bytes j ↔ j = i) ∧
      (TrackerResponse.Written i r ↔ TrackerResponse.InRange i)) ∧
    ∀ m, TorrentMetaInfo.parse bytes = .ok m → ∃ i, (∀ j, Begins bytes j ↔ j = i) ∧
      (TorrentMetaInfo.Written i m ↔ TorrentMetaInfo.InRange i) := by
  constructor
  · intro r hr
    rw [TrackerResponse.parse] at hr
    cases hdecode : Value.decode (Decoder.new bytes) with
    | error e d =>
      rw [hdecode] at hr
      cases hr
    | ok v d =>
      rw [hdecode] at hr
      obtain ⟨i, honly, hmeans⟩ := item_of_decode hlen hdecode
      exact ⟨i, honly, TrackerResponse.written_iff hmeans hr⟩
  · intro m hm
    rw [TorrentMetaInfo.parse] at hm
    cases hdecode : Value.decode (Decoder.new bytes) with
    | error e d =>
      rw [hdecode] at hm
      cases hm
    | ok v d =>
      rw [hdecode] at hm
      obtain ⟨i, honly, hmeans⟩ := item_of_decode hlen hdecode
      refine ⟨i, honly, TorrentMetaInfo.written_iff hmeans ?_⟩
      dsimp only at hm
      cases hvalue : TorrentMetaInfo.fromValue v with
      | error e =>
        rw [hvalue] at hm
        cases hm
      | ok m' =>
        rw [hvalue] at hm
        cases hm
        rfl

/-- A response with an interval and with peers. -/
def response (interval : Bytes) (peers : Item) : Item :=
  .dict [(asBytes "complete", .integer [53]), (asBytes "incomplete", .integer [49]),
    (asBytes "interval", .integer interval), (asBytes "peers", peers)]

theorem delimited_response {interval : Bytes} {peers : Item} (h : 101 ∉ interval)
    (hpeers : peers.Delimited) : (response interval peers).Delimited := by
  refine ⟨trivial, ?_, ?_, h, hpeers, trivial⟩
  · exact show (101 : UInt8) ∉ ([53] : Bytes) by decide
  · exact show (101 : UInt8) ∉ ([49] : Bytes) by decide

def listedPeer : Item :=
  .dict [(asBytes "ip", .string (asBytes "10.0.0.1")), (asBytes "port", .integer [56, 48])]

/-- The info of a torrent of one file. -/
def oneFileInfo : Item :=
  .dict [(asBytes "length", .integer [55]), (asBytes "name", .string (asBytes "f")),
    (asBytes "piece length", .integer [57]), (asBytes "pieces", .string (List.replicate 20 255))]

def oneFileTorrent : Item :=
  .dict [(asBytes "announce", .string (asBytes "t")), (asBytes "info", oneFileInfo)]

theorem delimited_listedPeer : listedPeer.Delimited := by
  refine ⟨trivial, trivial, ?_, trivial⟩
  exact show (101 : UInt8) ∉ ([56, 48] : Bytes) by decide

theorem delimited_oneFileTorrent : oneFileTorrent.Delimited := by
  refine ⟨trivial, trivial, ⟨trivial, ?_, trivial, ?_, trivial, trivial⟩, trivial⟩
  · exact show (101 : UInt8) ∉ ([55] : Bytes) by decide
  · exact show (101 : UInt8) ∉ ([57] : Bytes) by decide

theorem inRange_response : TrackerResponse.InRange (response [57, 48] (.list [listedPeer])) := by
  have hinterval :
      integerAt (response [57, 48] (.list [listedPeer])) "interval" = some 90 := by decide +kernel
  have hmin :
      integerAt (response [57, 48] (.list [listedPeer])) "min interval" = none := by decide +kernel
  have hcomplete :
      integerAt (response [57, 48] (.list [listedPeer])) "complete" = some 5 := by decide +kernel
  have hincomplete :
      integerAt (response [57, 48] (.list [listedPeer])) "incomplete" = some 1 := by decide +kernel
  have hport : integerAt listedPeer "port" = some 80 := by decide +kernel
  constructor
  · rw [hinterval, inBits_some]
    omega
  · rw [hmin]
    exact nofun
  · rw [hcomplete, inBits_some]
    omega
  · rw [hincomplete, inBits_some]
    omega
  · intro items hitems p hp
    have hpeers : (response [57, 48] (.list [listedPeer])).entry (asBytes "peers") =
        some (.list [listedPeer]) := rfl
    cases hpeers.symm.trans hitems
    obtain rfl := List.mem_singleton.mp hp
    rw [Peer.InRange, hport, inBits_some]
    omega

theorem inRange_oneFileTorrent : TorrentMetaInfo.InRange oneFileTorrent := by
  have hpiece : integerAt oneFileInfo "piece length" = some 9 := by decide +kernel
  have hlength : integerAt oneFileInfo "length" = some 7 := by decide +kernel
  have hfiles : oneFileInfo.entry (asBytes "files") = none := rfl
  intro j hj
  have hinfo : oneFileTorrent.entry (asBytes "info") = some oneFileInfo := rfl
  cases hinfo.symm.trans hj
  constructor
  · rw [hpiece, inBits_some]
    omega
  · intro _
    rw [hlength, inBits_some]
    omega
  · rw [hfiles]
    exact nofun

theorem numbers_written_iff_listed :
    TrackerResponse.Written (response [57, 48] (.list [listedPeer]))
        ⟨90, none, 5, 1, [⟨"10.0.0.1", 80⟩]⟩ ∧
      TorrentMetaInfo.Written oneFileTorrent
        ⟨.single ⟨7, none, "f", 9, [.replicate 255]⟩, some "t", none, none, none, none, none⟩ := by
  constructor
  · have hparse : TrackerResponse.parse (response [57, 48] (.list [listedPeer])).spell =
        .ok ⟨90, none, 5, 1, [⟨"10.0.0.1", 80⟩]⟩ := by decide +kernel
    obtain ⟨i, honly, hiff⟩ := (numbers_written_iff (by decide +kernel)).1 _ hparse
    have hdelimited : (response [57, 48] (.list [listedPeer])).Delimited :=
      delimited_response (by decide) ⟨trivial, delimited_listedPeer, trivial⟩
    obtain rfl := (honly _).mp ⟨hdelimited, List.prefix_refl _⟩
    exact hiff.mpr inRange_response
  · have hparse : TorrentMetaInfo.parse oneFileTorrent.spell =
        .ok ⟨.single ⟨7, none, "f", 9, [.replicate 255]⟩, some "t", none, none, none, none, none⟩ := by
      decide +kernel
    obtain ⟨i, honly, hiff⟩ := (numbers_written_iff (by decide +kernel)).2 _ hparse
    obtain rfl := (honly _).mp ⟨delimited_oneFileTorrent, List.prefix_refl _⟩
    exact hiff.mpr inRange_oneFileTorrent

/-- An interval of minus one second is taken for one of 136 years. -/
theorem negative_interval_accepted :
    TrackerResponse.parse (response [45, 49] (.list [])).spell = .ok ⟨4294967295, none, 5, 1, []⟩ ∧
      integerAt (response [45, 49] (.list [])) "interval" = some (-1) := by
  constructor
  · decide +kernel
  · decide +kernel

end TorrentClient
