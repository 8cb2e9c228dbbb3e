import TorrentClient.BlockWrites
import TorrentClient.PartialReads

/-!
# Data served to a peer

`retrieve_data` checks that the piece of a request is completed, and not that the range lies
in the piece. The range is cut over the files like any other, so it may reach into the next
pieces, and behind the end of the last file the cut panics.
-/
namespace TorrentClient
open ListRanges TransitionRuns

namespace Download

/-- `retrieve_data` where the reads of the files answer as `io` says. -/
def retrieveDataFrom (io : FileRead) (request : RequestMetadata) : DownloadM Bytes := do
  let d ← get
  let piece ← pureStep (index d.pieces request.pieceIndex.toNat)
  if piece.isCompleted then
    let offset ← pureStep (checkedAdd piece.offset request.offset.toNat)
    pureStep (read io d.files d.fileOffsets offset request.blockLength.toNat)
  else
    throw (.err "Error::MissingPieceData")

theorem retrieveDataFrom_fullRead (request : RequestMetadata) :
    retrieveDataFrom fullRead request = retrieveData request := rfl

variable {io : FileRead} {d : Download} {request : RequestMetadata} {piece : Piece}

/-- The range of a request lies in its piece. -/
def InPiece (piece : Piece) (request : RequestMetadata) : Prop :=
  request.offset.toNat + request.blockLength.toNat ≤ piece.length.toNat

/-- What may come back for a request: an error, or the requested bytes of a completed piece. -/
def Serves (d : Download) (piece : Piece) (request : RequestMetadata) :
    EStateM.Result (Fault String) Download Bytes → Prop
  | .ok buf _ => InPiece piece request ∧ piece.isCompleted = true ∧
      buf = slice d.content (piece.offset + request.offset.toNat) request.blockLength.toNat
  | .error (.err _) _ => True
  | .error .panic _ => False

theorem retrieveDataFrom_missing (hp : d.pieces[request.pieceIndex.toNat]? = some piece)
    (hc : piece.isCompleted = false) :
    retrieveDataFrom io request d = .error (.err "Error::MissingPieceData") d := by
  rw [retrieveDataFrom, bind_of_ok (get_eq d), index_of_getElem? hp, bind_of_ok (pureStep_ok _ _),
    hc]
  rfl

theorem retrieveDataFrom_completed (hp : d.pieces[request.pieceIndex.toNat]? = some piece)
    (hc : piece.isCompleted = true) :
    retrieveDataFrom io request d = pureStep (do
      let offset ← checkedAdd piece.offset request.offset.toNat
      read io d.files d.fileOffsets offset request.blockLength.toNat) d := by
  rw [retrieveDataFrom, bind_of_ok (get_eq d), index_of_getElem? hp, bind_of_ok (pureStep_ok _ _),
    hc, if_pos rfl]
  cases checkedAdd piece.offset request.offset.toNat <;> rfl

/-- A range that is cut over the files is read, wherever it lies. -/
theorem serves_of_segments (hlayout : Layout d.files d.fileOffsets) (hio : io.KeepsContract)
    (hp : d.pieces[request.pieceIndex.toNat]? = some piece) (hc : piece.isCompleted = true)
    {i : ℕ} {segs : List (ℕ × ℕ × ℕ)}
    (hsegs : searchPtrs d.fileOffsets (piece.offset + request.offset.toNat)
      request.blockLength.toNat = .ok (i, segs)) :
    d.Serves piece request (retrieveDataFrom io request d) ↔
      io.Fails i segs ∨ (InPiece piece request ∧ io.SkipsZeros d.files i segs) := by
  obtain ⟨hread, hslice⟩ := read_eq_filled hlayout hio hsegs
  have hadd : piece.offset + request.offset.toNat < 2 ^ 64 := by
    obtain ⟨j, hj, -⟩ := hlayout.searchIndex_lands (piece.offset + request.offset.toNat)
    rw [hlayout.searchPtrs_eq hj] at hsegs
    split_ifs at hsegs with hfit
    have := hlayout.total_lt
    omega
  rw [retrieveDataFrom_completed hp hc, checkedAdd_of_lt hadd, ok_bind, hread,
    ← FileRead.filled_eq_none_iff]
  cases hfilled : io.filled d.files i segs with
  | none => exact iff_of_true trivial (Or.inl rfl)
  | some bytes =>
    rw [← hslice bytes hfilled]
    constructor
    · rintro ⟨hin, -, hbytes⟩
      exact Or.inr ⟨hin, hbytes⟩
    · rintro (hnone | ⟨hin, hbytes⟩)
      · cases hnone
      · exact ⟨hin, hc, hbytes⟩

/-- A range that is not cut makes the call panic. -/
theorem not_serves_of_error (hlayout : Layout d.files d.fileOffsets)
    (hp : d.pieces[request.pieceIndex.toNat]? = some piece) (hc : piece.isCompleted = true)
    (hsegs : ∀ i segs, searchPtrs d.fileOffsets (piece.offset + request.offset.toNat)
      request.blockLength.toNat ≠ .ok (i, segs)) :
    ¬ d.Serves piece request (retrieveDataFrom io request d) := by
  obtain ⟨j, hj, -⟩ := hlayout.searchIndex_lands (piece.offset + request.offset.toNat)
  have hcut := hlayout.searchPtrs_eq hj request.blockLength.toNat
  split_ifs at hcut with hfit
  · exact absurd hcut (hsegs _ _)
  · rw [retrieveDataFrom_completed hp hc, checkedAdd]
    split_ifs with hadd
    · rw [ok_bind, read_panics hlayout hj hfit]
      exact id
    · exact id

/-- A request for a piece is served properly exactly where the piece is not completed, or the
range is cut over the files and either a read of it fails, or the range lies in the piece and
the short reads leave out zero bytes only. -/
theorem retrieveData_serves_iff (hlayout : Layout d.files d.fileOffsets) (hio : io.KeepsContract)
    (hp : d.pieces[request.pieceIndex.toNat]? = some piece) :
    d.Serves piece request (retrieveDataFrom io request d) ↔
      piece.isCompleted = false ∨ ∃ i segs,
        searchPtrs d.fileOffsets (piece.offset + request.offset.toNat)
          request.blockLength.toNat = .ok (i, segs) ∧
        (io.Fails i segs ∨ (InPiece piece request ∧ io.SkipsZeros d.files i segs)) := by
  cases hc : piece.isCompleted with
  | false =>
    rw [retrieveDataFrom_missing hp hc]
    exact iff_of_true trivial (Or.inl rfl)
  | true =>
    by_cases hsegs : ∃ i segs, searchPtrs d.fileOffsets (piece.offset + request.offset.toNat)
        request.blockLength.toNat = .ok (i, segs)
    · obtain ⟨i, segs, hsegs⟩ := hsegs
      rw [serves_of_segments hlayout hio hp hc hsegs, hsegs]
      constructor
      · exact fun h => Or.inr ⟨i, segs, rfl, h⟩
      · rintro (hfalse | ⟨j, v, heq, h⟩)
        · cases hfalse
        · cases heq
          exact h
    · refine iff_of_false (not_serves_of_error hlayout hp hc fun i segs heq => ?_) ?_
      · exact hsegs ⟨i, segs, heq⟩
      · rintro (hfalse | ⟨i, segs, heq, -⟩)
        · cases hfalse
        · exact hsegs ⟨i, segs, heq⟩

/-- The download of `twoPieceTorrent` after its first piece has come. -/
def firstPieceDownload : Download :=
  handled (fun _ => Sha1.replicate 0) twoPieceDownload (.download (.piece 0 0 [1, 2, 3, 4]))

theorem reachable_firstPieceDownload :
    Reachable (eventStep fun _ => Sha1.replicate 0) twoPieceDownload firstPieceDownload := by
  have hsafe : SafeEvent (fun _ => Sha1.replicate 0) twoPieceDownload
      (.download (.piece 0 0 [1, 2, 3, 4])) :=
    ⟨fourBytePiece 0, Block.new 0 4, rfl, rfl, Or.inr ⟨by decide, Or.inl (by decide +kernel)⟩⟩
  obtain ⟨d, hstep⟩ := (eventStep_iff (start_spec start_twoPieceTorrent).1 _).mpr hsafe
  rw [firstPieceDownload, hstep.handled_eq]
  exact Reachable.refl.tail hstep

/-- The first piece, once it has come. -/
def completedPiece : Piece := { (fourBytePiece 0).completeBlock 0 with isCompleted := true }

theorem retrieveData_serves_iff_piece : firstPieceDownload.Serves completedPiece ⟨0, 0, 1, 3⟩
    (retrieveDataFrom fullRead ⟨0, 0, 1, 3⟩ firstPieceDownload) := by
  have hlayout :=
    (wellFormed_of_reachable start_twoPieceTorrent reachable_firstPieceDownload).layout
  have hcontract : fullRead.KeepsContract := by
    intro fileIndex filePtr len n hn
    cases hn
    exact ⟨Nat.le_refl _, id⟩
  have hp : firstPieceDownload.pieces[(0 : UInt32).toNat]? = some completedPiece := by
    decide +kernel
  refine (retrieveData_serves_iff hlayout hcontract hp).mpr (Or.inr ⟨0, [(0, 1, 3)], ?_, Or.inr ?_⟩)
  · decide +kernel
  · exact ⟨show 1 + 3 ≤ 4 by omega, by simp [fullRead], trivial⟩

/-- A request that is longer than the completed piece is answered with bytes of the next one,
which has not come, and one that is longer than the content panics. -/
theorem long_request_leaves_piece :
    start (fun _ => []) twoPieceTorrent = .ok twoPieceDownload ∧
    Reachable (eventStep fun _ => Sha1.replicate 0) twoPieceDownload firstPieceDownload ∧
    firstPieceDownload.pieces[(0 : UInt32).toNat]? = some completedPiece ∧
    firstPieceDownload.pieces[1]? = some (fourBytePiece 4) ∧
    retrieveData ⟨0, 0, 0, 8⟩ firstPieceDownload =
      .ok [1, 2, 3, 4, 0, 0, 0, 0] firstPieceDownload ∧
    ¬ firstPieceDownload.Serves completedPiece ⟨0, 0, 0, 8⟩
      (retrieveData ⟨0, 0, 0, 8⟩ firstPieceDownload) ∧
    ¬ firstPieceDownload.Serves completedPiece ⟨0, 0, 0, 9⟩
      (retrieveData ⟨0, 0, 0, 9⟩ firstPieceDownload) := by
  have hp : firstPieceDownload.pieces[(0 : UInt32).toNat]? = some completedPiece := by
    decide +kernel
  have height : retrieveData ⟨0, 0, 0, 8⟩ firstPieceDownload =
      .ok [1, 2, 3, 4, 0, 0, 0, 0] firstPieceDownload := by
    rw [← retrieveDataFrom_fullRead, retrieveDataFrom_completed hp rfl]
    have hread : (do
        let offset ← checkedAdd completedPiece.offset (0 : UInt32).toNat
        read fullRead firstPieceDownload.files firstPieceDownload.fileOffsets offset
          (8 : UInt32).toNat : Outcome Bytes) = .ok [1, 2, 3, 4, 0, 0, 0, 0] := by
      decide +kernel
    rw [hread, pureStep_ok]
  have hnine : retrieveData ⟨0, 0, 0, 9⟩ firstPieceDownload = .error .panic firstPieceDownload := by
    rw [← retrieveDataFrom_fullRead, retrieveDataFrom_completed hp rfl]
    have hread : (do
        let offset ← checkedAdd completedPiece.offset (0 : UInt32).toNat
        read fullRead firstPieceDownload.files firstPieceDownload.fileOffsets offset
          (9 : UInt32).toNat : Outcome Bytes) = .error .panic := by
      decide +kernel
    rw [hread, pureStep_error]
  refine ⟨rfl, reachable_firstPieceDownload, hp, by decide +kernel, height, ?_, ?_⟩
  · rw [height]
    rintro ⟨hin, -⟩
    have hlong : 0 + 8 ≤ 4 := hin
    omega
  · rw [hnine]
    exact id

end Download
end TorrentClient
