import TorrentClient.PieceCompletion

/-!
# Runs of the download loop

A run of `download_loop` is a sequence of events, each handled in the state the ones
before it left. Only a `Download(Piece)` event changes the state, and it does what
`store` does; every state of a run is well formed.
-/
namespace TorrentClient
open ListRanges TransitionRuns

namespace Download

variable {sha1 : Bytes → Sha1} {d d' : Download} {event : ManagerEvent}

/-- An event that is handled. -/
def eventStep (sha1 : Bytes → Sha1) (d : Download) (event : ManagerEvent) (d' : Download) :
    Prop :=
  ∃ reply, handleEvent sha1 event d = .ok reply d'

/-- The state that an event leaves behind, also where it is not handled. -/
def handled (sha1 : Bytes → Sha1) (d : Download) (event : ManagerEvent) : Download :=
  match handleEvent sha1 event d with
  | .ok _ d' => d'
  | .error _ d' => d'

theorem eventStep.handled_eq (h : eventStep sha1 d event d') : handled sha1 d event = d' := by
  obtain ⟨reply, h⟩ := h
  rw [handled, h]

/-- The result of an event that is a block. -/
theorem handleEvent_piece (sha1 : Bytes → Sha1) (d : Download) (pieceIndex offset : UInt32)
    (data : Bytes) :
    handleEvent sha1 (.download (.piece pieceIndex offset data)) d =
      match store sha1 pieceIndex (blockIndexOf offset) data d with
      | .ok _ d' => .ok .none d'
      | .error e d' => .error e d' := by
  unfold handleEvent
  cases h : store sha1 pieceIndex (blockIndexOf offset) data d with
  | ok u d' => exact bind_of_ok h
  | error e d' => exact bind_of_error h

theorem eventStep_piece_iff {pieceIndex offset : UInt32} {data : Bytes} :
    eventStep sha1 d (.download (.piece pieceIndex offset data)) d' ↔
      storeStep sha1 d ⟨pieceIndex, blockIndexOf offset, data⟩ d' := by
  rw [eventStep, handleEvent_piece, storeStep]
  cases store sha1 pieceIndex (blockIndexOf offset) data d with
  | ok u t => simp
  | error e t => simp

theorem handled_piece (sha1 : Bytes → Sha1) (d : Download) (pieceIndex offset : UInt32)
    (data : Bytes) :
    handled sha1 d (.download (.piece pieceIndex offset data)) =
      match store sha1 pieceIndex (blockIndexOf offset) data d with
      | .ok _ d' => d'
      | .error _ d' => d' := by
  rw [handled, handleEvent_piece]
  cases store sha1 pieceIndex (blockIndexOf offset) data d <;> rfl

def isPieceEvent : ManagerEvent → Bool
  | .download (.piece ..) => true
  | _ => false

/-- The data that `retrieve_data` finds in a state. -/
def requiredData (d : Download) (request : RequestMetadata) : Outcome Bytes := do
  let piece ← index d.pieces request.pieceIndex.toNat
  if piece.isCompleted then
    let offset ← checkedAdd piece.offset request.offset.toNat
    read fullRead d.files d.fileOffsets offset request.blockLength.toNat
  else throw (.err "Error::MissingPieceData")

theorem handleEvent_requireData (sha1 : Bytes → Sha1) (d : Download) (request : RequestMetadata) :
    handleEvent sha1 (.requireData request) d =
      pureStep ((requiredData d request).map Reply.data) d := by
  have hread : retrieveData request d = pureStep (requiredData d request) d := by
    rw [retrieveData, bind_of_ok (get_eq d), requiredData]
    cases index d.pieces request.pieceIndex.toNat with
    | error e => rfl
    | ok piece =>
      rw [bind_of_ok (pureStep_ok piece d), ok_bind]
      cases piece.isCompleted with
      | false => rfl
      | true =>
        simp only [if_true]
        cases checkedAdd piece.offset request.offset.toNat <;> rfl
  unfold handleEvent
  cases h : requiredData d request with
  | error e =>
    rw [h] at hread
    exact bind_of_error hread
  | ok buf =>
    rw [h] at hread
    exact bind_of_ok hread

/-- The blocks that `incomplete_blocks_for_piece` reports in a state. -/
def reportedBlocks (d : Download) (pieceIndex : UInt32) : Outcome (List (UInt32 × UInt32)) := do
  let piece ← index d.pieces pieceIndex.toNat
  return if piece.isCompleted then []
    else (piece.blocks.filter fun b => !b.isCompleted).map fun b => (b.index, b.length)

theorem handleEvent_requireIncompleteBlocks (sha1 : Bytes → Sha1) (d : Download)
    (pieceIndex : UInt32) :
    handleEvent sha1 (.requireIncompleteBlocks pieceIndex) d =
      pureStep ((reportedBlocks d pieceIndex).map Reply.incompleteBlocks) d := by
  have hread : incompleteBlocksForPiece pieceIndex d = pureStep (reportedBlocks d pieceIndex) d := by
    rw [incompleteBlocksForPiece, bind_of_ok (get_eq d), reportedBlocks]
    cases index d.pieces pieceIndex.toNat with
    | error e => rfl
    | ok piece =>
      rw [bind_of_ok (pureStep_ok piece d), ok_bind]
      cases piece.isCompleted <;> rfl
  unfold handleEvent
  cases h : reportedBlocks d pieceIndex with
  | error e =>
    rw [h] at hread
    exact bind_of_error hread
  | ok blocks =>
    rw [h] at hread
    exact bind_of_ok hread

/-- An event that is no block leaves the state as it is, handled or not. -/
theorem handled_of_not_piece (sha1 : Bytes → Sha1) (d : Download)
    (h : isPieceEvent event = false) : handled sha1 d event = d := by
  cases event with
  | download m =>
    cases m with
    | piece => cases h
    | _ => rfl
  | requireData request =>
    rw [handled, handleEvent_requireData]
    cases requiredData d request <;> rfl
  | requireIncompleteBlocks pieceIndex =>
    rw [handled, handleEvent_requireIncompleteBlocks]
    cases reportedBlocks d pieceIndex <;> rfl
  | _ => rfl

theorem eventStep.wellFormed (hd : d.WellFormed) (h : eventStep sha1 d event d') :
    d'.WellFormed := by
  cases hpiece : isPieceEvent event with
  | false =>
    rw [← h.handled_eq, handled_of_not_piece sha1 d hpiece]
    exact hd
  | true =>
    cases event with
    | download m =>
      cases m with
      | piece pieceIndex offset data => exact (eventStep_piece_iff.mp h).wellFormed hd
      | _ => cases hpiece
    | _ => cases hpiece

theorem wellFormed_of_reachable {disk : String → Bytes} {metaInfo : TorrentMetaInfo}
    (hstart : start disk metaInfo = .ok d) (h : Reachable (eventStep sha1) d d') :
    d'.WellFormed :=
  h.invariant (start_spec hstart).1 fun _ _ _ hd hstep => hstep.wellFormed hd

/-- The loop stores the only block of `oneBlockTorrent`. -/
theorem handleEvent_oneBlockDownload :
    handleEvent (fun _ => Sha1.replicate 0) (.download (.piece 0 0 [7])) oneBlockDownload =
      .ok .none storedDownload := by
  have hstored : store (fun _ => Sha1.replicate 0) 0 (blockIndexOf 0) [7] oneBlockDownload =
      .ok () storedDownload := store_oneBlockDownload
  simp only [handleEvent_piece, hstored]

theorem piece_oneBlockDownload :
    eventStep (fun _ => Sha1.replicate 0) oneBlockDownload (.download (.piece 0 0 [7]))
      storedDownload :=
  ⟨_, handleEvent_oneBlockDownload⟩

end Download
end TorrentClient
