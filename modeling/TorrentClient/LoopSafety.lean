import TorrentClient.DownloadEvents

/-!
# Which events stop the download loop

`download_loop` indexes with the values of its events and leaves its loop with the first
error, so it handles a sequence of events exactly when every one of them is safe in the
state it meets. Logging (`print_log`) is taken to succeed.
-/
namespace TorrentClient
open ListRanges TransitionRuns

namespace Download

variable {sha1 : Bytes → Sha1} {d d' : Download}

/-- The block has a place in the torrent, and storing it there neither runs past the end
nor looks for the last byte of an empty file at the start of the torrent. -/
def SafeBlock (sha1 : Bytes → Sha1) (d : Download) (pieceIndex blockIndex : ℕ) (data : Bytes) :
    Prop :=
  ∃ piece block, d.pieces[pieceIndex]? = some piece ∧ piece.blocks[blockIndex]? = some block ∧
    (piece.isCompleted = true ∨
      (piece.offset + blockIndex * blockSize + data.length ≤ d.content.length ∧
        (d.landsOnBytes piece = true ∨ (piece.blocks.length = 1 ∧ piece.hash ≠ sha1 (slice
          (overwrite d.content (piece.offset + blockIndex * blockSize) data)
          piece.offset piece.length.toNat)))))

/-- The piece is there, and the range lies in the files. -/
def SafeRequest (d : Download) (request : RequestMetadata) : Prop :=
  ∃ piece, d.pieces[request.pieceIndex.toNat]? = some piece ∧ piece.isCompleted = true ∧
    (∃ i < d.files.length,
      searchIndex d.fileOffsets (piece.offset + request.offset.toNat) = .ok i) ∧
    piece.offset + request.offset.toNat + request.blockLength.toNat ≤ d.content.length

/-- The event does not stop the loop. -/
def SafeEvent (sha1 : Bytes → Sha1) (d : Download) : ManagerEvent → Prop
  | .download (.piece pieceIndex offset data) =>
    SafeBlock sha1 d pieceIndex.toNat (blockIndexOf offset).toNat data
  | .requireData request => SafeRequest d request
  | .requireIncompleteBlocks pieceIndex => pieceIndex.toNat < d.pieces.length
  | _ => True

/-- Every event is safe in the state the ones before it leave. -/
def SafeEvents (sha1 : Bytes → Sha1) : Download → List ManagerEvent → Prop
  | _, [] => True
  | d, event :: events => SafeEvent sha1 d event ∧ SafeEvents sha1 (handled sha1 d event) events

theorem store_ok_iff (hd : d.WellFormed) (pieceIndex blockIndex : UInt32) (data : Bytes) :
    (∃ d', store sha1 pieceIndex blockIndex data d = .ok () d') ↔
      SafeBlock sha1 d pieceIndex.toNat blockIndex.toNat data := by
  have hcase := store_cases sha1 hd pieceIndex blockIndex data
  generalize store sha1 pieceIndex blockIndex data d = result at hcase
  cases hcase with
  | noPiece hp =>
    simp [SafeBlock, hp]
  | noBlock hp hb =>
    simp [SafeBlock, hp, hb]
  | dropped hp hb hc =>
    simp [SafeBlock, hp, hb, hc]
  | pastEnd hp hb hc hover =>
    have hnot := Nat.not_le_of_lt hover
    simp [SafeBlock, hp, hb, hc, hnot]
  | rejected hp hb hc hw hone hbad =>
    rw [hw.flatten_eq] at hbad
    simp [SafeBlock, hp, hb, hc, hw.inside, hone, hbad]
  | accepted hp hb hc hw hgood hlands hfin =>
    simp [SafeBlock, hp, hb, hc, hw.inside, hlands]
  | stuck hp hb hc hw hgood hpanic =>
    rw [hw.flatten_eq] at hgood
    simp [SafeBlock, hp, hb, hc, hpanic]
    intro _ hone
    exact hgood hone

theorem requiredData_ok_iff (hd : d.WellFormed) (request : RequestMetadata) :
    (∃ buf, requiredData d request = .ok buf) ↔ SafeRequest d request := by
  have htotal : d.content.length < 2 ^ 64 := hd.layout.total_lt
  rw [requiredData, SafeRequest]
  cases hp : d.pieces[request.pieceIndex.toNat]? with
  | none => simp [index, hp]
  | some piece =>
    rw [index_of_getElem? hp, ok_bind]
    cases hc : piece.isCompleted with
    | false => simp [hc, throw, throwThe, MonadExceptOf.throw]
    | true =>
      simp only [if_true]
      obtain ⟨i, hi, -⟩ := hd.layout.searchIndex_lands (piece.offset + request.offset.toNat)
      by_cases hin : i < d.files.length ∧
          piece.offset + request.offset.toNat + request.blockLength.toNat ≤ d.content.length
      · rw [checkedAdd_of_lt (by omega), ok_bind, read_of_le hd.layout hi hin.1 hin.2]
        exact ⟨fun _ => ⟨piece, rfl, hc, ⟨i, hin.1, hi⟩, hin.2⟩, fun _ => ⟨_, rfl⟩⟩
      · constructor
        · rintro ⟨buf, hbuf⟩
          obtain ⟨offset, hoffset, hread⟩ := bind_eq_ok.mp hbuf
          obtain ⟨-, rfl⟩ := checkedAdd_eq_ok.mp hoffset
          rw [read_panics hd.layout hi hin] at hread
          cases hread
        · rintro ⟨piece', hp', -, ⟨i', hi', hland⟩, hfit⟩
          obtain rfl := Option.some.inj hp'
          rw [hi] at hland
          cases hland
          exact absurd ⟨hi', hfit⟩ hin

/-- One event is handled exactly when it is safe. -/
theorem eventStep_iff (hd : d.WellFormed) (event : ManagerEvent) :
    (∃ d', eventStep sha1 d event d') ↔ SafeEvent sha1 d event := by
  cases event with
  | download m =>
    cases m with
    | piece pieceIndex offset data =>
      simp only [eventStep_piece_iff]
      exact store_ok_iff hd pieceIndex (blockIndexOf offset) data
    | _ => exact ⟨fun _ => trivial, fun _ => ⟨d, _, rfl⟩⟩
  | requireData request =>
    rw [SafeEvent, ← requiredData_ok_iff hd]
    simp only [eventStep, handleEvent_requireData]
    cases requiredData d request with
    | error e => simp [Except.map]
    | ok buf => simp [Except.map]
  | requireIncompleteBlocks pieceIndex =>
    simp only [SafeEvent, eventStep, handleEvent_requireIncompleteBlocks, reportedBlocks]
    by_cases hlt : pieceIndex.toNat < d.pieces.length
    · simp [index_of_getElem? (List.getElem?_eq_getElem hlt), Except.map, hlt]
    · simp [index_of_le (Nat.le_of_not_lt hlt), Except.map, hlt]
  | _ => exact ⟨fun _ => trivial, fun _ => ⟨d, _, rfl⟩⟩

theorem downloadLoop_cons_ok_iff (event : ManagerEvent) (events : List ManagerEvent) :
    (∃ replies d', downloadLoop sha1 (event :: events) d = .ok replies d') ↔
      ∃ t, eventStep sha1 d event t ∧ ∃ replies d', downloadLoop sha1 events t = .ok replies d' := by
  constructor
  · rintro ⟨replies, d', h⟩
    obtain ⟨reply, t, hevent, h⟩ := stateful_bind_eq_ok.mp h
    obtain ⟨rest, t', hrest, -⟩ := stateful_bind_eq_ok.mp h
    exact ⟨t, ⟨reply, hevent⟩, rest, t', hrest⟩
  · rintro ⟨t, ⟨reply, hevent⟩, rest, t', hrest⟩
    refine ⟨reply :: rest, t', ?_⟩
    rw [downloadLoop, bind_of_ok hevent, bind_of_ok hrest]
    rfl

/-- The loop handles all events from a well-formed state exactly when all are safe. -/
theorem downloadLoop_ok_of_wellFormed (hd : d.WellFormed) (events : List ManagerEvent) :
    (∃ replies d', downloadLoop sha1 events d = .ok replies d') ↔ SafeEvents sha1 d events := by
  induction events generalizing d with
  | nil => exact ⟨fun _ => trivial, fun _ => ⟨[], d, rfl⟩⟩
  | cons event events ih =>
    rw [downloadLoop_cons_ok_iff, SafeEvents, ← eventStep_iff hd]
    constructor
    · rintro ⟨t, hstep, hrest⟩
      rw [hstep.handled_eq]
      exact ⟨⟨t, hstep⟩, (ih (hstep.wellFormed hd)).mp hrest⟩
    · rintro ⟨⟨t, hstep⟩, hrest⟩
      rw [hstep.handled_eq] at hrest
      exact ⟨t, hstep, (ih (hstep.wellFormed hd)).mpr hrest⟩

/-- From every state that the download loop reaches it handles a sequence of events
exactly when every event is safe in the state it meets. -/
theorem downloadLoop_ok_iff {disk : String → Bytes} {metaInfo : TorrentMetaInfo}
    (hstart : start disk metaInfo = .ok d) (hreach : Reachable (eventStep sha1) d d')
    (events : List ManagerEvent) :
    (∃ replies t, downloadLoop sha1 events d' = .ok replies t) ↔ SafeEvents sha1 d' events :=
  downloadLoop_ok_of_wellFormed (wellFormed_of_reachable hstart hreach) events

/-- The loop tells which blocks are missing, stores the only one and gives it out again. -/
theorem downloadLoop_ok_iff_stored :
    ∃ replies t, downloadLoop (fun _ => Sha1.replicate 0)
        [.requireIncompleteBlocks 0, .download (.piece 0 0 [7]), .requireData ⟨0, 0, 0, 1⟩]
        oneBlockDownload =
      .ok replies t := by
  refine (downloadLoop_ok_iff start_oneBlockTorrent .refl _).mpr ⟨Nat.one_pos, ?_⟩
  have hasked : handled (fun _ => Sha1.replicate 0) oneBlockDownload
      (.requireIncompleteBlocks 0) = oneBlockDownload := rfl
  rw [hasked]
  refine ⟨⟨oneBlockPiece, Block.new 0 1, rfl, rfl, .inr ⟨by decide, .inl ?_⟩⟩, ?_⟩
  · decide +kernel
  · rw [piece_oneBlockDownload.handled_eq]
    exact ⟨⟨_, rfl, rfl, ⟨0, by decide, by decide +kernel⟩, by decide⟩, trivial⟩

/-- A request for a piece that is not there yet, or a block of a piece outside the torrent,
ends the loop. -/
theorem request_stops_downloadLoop :
    start (fun _ => []) oneBlockTorrent = .ok oneBlockDownload ∧
      (¬ ∃ replies d, downloadLoop (fun _ => Sha1.replicate 0)
        [.requireData ⟨0, 0, 0, 1⟩] oneBlockDownload = .ok replies d) ∧
      ¬ ∃ replies d, downloadLoop (fun _ => Sha1.replicate 0)
        [.download (.piece 1 0 [])] oneBlockDownload = .ok replies d := by
  have hd := (start_spec start_oneBlockTorrent).1
  refine ⟨rfl, ?_, ?_⟩
  · rw [downloadLoop_ok_of_wellFormed hd]
    rintro ⟨⟨piece, hp, hc, -⟩, -⟩
    obtain rfl : oneBlockPiece = piece := Option.some.inj hp
    cases hc
  · rw [downloadLoop_ok_of_wellFormed hd]
    rintro ⟨⟨piece, block, hp, -⟩, -⟩
    cases hp

end Download
end TorrentClient
