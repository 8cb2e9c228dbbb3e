import TorrentClient.StoredBlocks
import TorrentClient.TransitionRuns

/-!
# When a completed piece has been verified

The flag of a piece is set in `verify` after a hash comparison and in `store` without one.
A run of `store` calls keeps every flag sound exactly when it only stores into pieces of
one block: the first block of a larger piece flags the piece at once.
-/
namespace TorrentClient
open ListRanges TransitionRuns

/-- The arguments of one call of `store`. -/
structure StoreCall where
  pieceIndex : UInt32
  blockIndex : UInt32
  data : Bytes
  deriving DecidableEq

namespace Download

variable {sha1 : Bytes → Sha1} {d d' : Download} {call : StoreCall}

/-- A call of `store` that returns. -/
def storeStep (sha1 : Bytes → Sha1) (d : Download) (call : StoreCall) (d' : Download) : Prop :=
  store sha1 call.pieceIndex call.blockIndex call.data d = .ok () d'

/-- `verify` was run on the whole piece and found its hash. -/
def Verified (sha1 : Bytes → Sha1) (d : Download) (pieceIndex : ℕ) (piece : Piece) : Prop :=
  ∃ check ∈ d.checks, check.pieceIndex = pieceIndex ∧ check.valid = true ∧
    check.buffer.length = piece.length.toNat ∧ sha1 check.buffer = piece.hash

/-- Every completed piece has all of its blocks and has been verified. -/
def Sound (sha1 : Bytes → Sha1) (d : Download) : Prop :=
  ∀ (i : ℕ) piece, d.pieces[i]? = some piece → piece.isCompleted = true →
    (∀ b ∈ piece.blocks, b.isCompleted = true) ∧ d.Verified sha1 i piece

/-- The call addresses a piece that consists of one block. -/
def addressesSingleBlock (d : Download) (call : StoreCall) : Prop :=
  ∀ piece, d.pieces[call.pieceIndex.toNat]? = some piece → piece.blocks.length = 1

theorem storeStep.wellFormed (hd : d.WellFormed) (h : storeStep sha1 d call d') :
    d'.WellFormed := by
  have hcase := store_cases sha1 hd call.pieceIndex call.blockIndex call.data
  rw [show store sha1 _ _ _ d = _ from h] at hcase
  cases hcase with
  | dropped => exact hd
  | rejected _ _ _ hw => exact hd.reject hw _
  | accepted hp _ hc hw _ _ hfin => exact (hfin.wellFormed (hd.accept hp hc hw)).withSent _

theorem Verified.mono {i : ℕ} {piece : Piece}
    (h : d.Verified sha1 i piece) (hchecks : d.checks <+: d'.checks) :
    d'.Verified sha1 i piece := by
  obtain ⟨check, hmem, hcheck⟩ := h
  exact ⟨check, hchecks.subset hmem, hcheck⟩

theorem Sound.congr (hs : d.Sound sha1) (hpieces : d'.pieces = d.pieces)
    (hchecks : d'.checks = d.checks) : d'.Sound sha1 := by
  intro i piece hp hc
  rw [hpieces] at hp
  obtain ⟨hblocks, hverified⟩ := hs i piece hp hc
  exact ⟨hblocks, hverified.mono (hchecks ▸ List.prefix_rfl)⟩

theorem start_sound {disk : String → Bytes} {metaInfo : TorrentMetaInfo}
    (h : start disk metaInfo = .ok d) : d.Sound sha1 := by
  obtain ⟨-, -, -, -, hflags⟩ := start_spec h
  intro i piece hp hc
  rw [hflags i piece hp] at hc
  cases hc

/-- A completed piece of several blocks is not sound, since one of its blocks is missing. -/
theorem not_sound_of_two_blocks (hd : d.WellFormed) {i : ℕ} {piece : Piece}
    (hp : d.pieces[i]? = some piece) (hc : piece.isCompleted = true)
    (htwo : 2 ≤ piece.blocks.length) : ¬ d.Sound sha1 := by
  intro hsound
  obtain ⟨b, hb, hmissing⟩ := hd.gap i piece hp htwo
  have := (hsound i piece hp hc).1 b hb
  rw [hmissing] at this
  cases this

theorem Sound.reject (hs : d.Sound sha1) (pieceIndex : ℕ) (piece : Piece) (files : List Bytes) :
    (d.reject pieceIndex piece files).Sound sha1 := by
  intro i piece' hp hc
  obtain ⟨hblocks, hverified⟩ := hs i piece' hp hc
  exact ⟨hblocks, hverified.mono (List.prefix_append _ _)⟩

/-- A piece of one block is verified before its flag is set. -/
theorem Sound.accept (hd : d.WellFormed) (hs : d.Sound sha1) {pieceIndex blockIndex : ℕ}
    {piece : Piece} {block : Block} {data : Bytes} {files : List Bytes}
    (hp : d.pieces[pieceIndex]? = some piece) (hb : piece.blocks[blockIndex]? = some block)
    (hw : Written d piece blockIndex data files) (hone : piece.blocks.length = 1)
    (hgood : piece.hash = sha1 (slice files.flatten piece.offset piece.length.toNat)) :
    (d.accept pieceIndex blockIndex piece files).Sound sha1 := by
  have hchecks : d.checks <+: (d.accept pieceIndex blockIndex piece files).checks := by
    simp [Download.accept, hone]
  intro i piece' hp' hc'
  rcases getElem?_modify_eq_some hp' with ⟨rfl, q, hq, rfl⟩ | ⟨-, hp''⟩
  · obtain rfl := Option.some.inj (hp.symm.trans hq)
    constructor
    · obtain ⟨b, hblocks⟩ := List.length_eq_one_iff.mp hone
      have hzero : blockIndex = 0 := by
        have := (List.getElem?_eq_some_iff.mp hb).1
        omega
      simp [Piece.completeBlock, hblocks, hzero]
    · have hend := (hd.shape _ piece hp).end_le hd.geometry
      rw [← hw.length_eq] at hend
      refine ⟨HashCheck.mk pieceIndex (slice files.flatten piece.offset piece.length.toNat) true,
        ?_, rfl, rfl, length_slice hend, hgood.symm⟩
      simp [Download.accept, hone]
  · obtain ⟨hblocks, hverified⟩ := hs i piece' hp'' hc'
    exact ⟨hblocks, hverified.mono hchecks⟩

/-- One call keeps the flags sound exactly when it stores into a piece of one block. -/
theorem storeStep.sound_iff (hd : d.WellFormed) (hs : d.Sound sha1)
    (h : storeStep sha1 d call d') : d'.Sound sha1 ↔ d.addressesSingleBlock call := by
  have hcase := store_cases sha1 hd call.pieceIndex call.blockIndex call.data
  rw [show store sha1 _ _ _ d = _ from h] at hcase
  have haddress : ∀ {piece : Piece}, d.pieces[call.pieceIndex.toNat]? = some piece →
      (d.addressesSingleBlock call ↔ piece.blocks.length = 1) := by
    intro piece hp
    simp [addressesSingleBlock, hp]
  cases hcase with
  | dropped hp hb hc =>
    refine ⟨fun _ => (haddress hp).mpr ?_, fun _ => hs⟩
    have hpos := (List.getElem?_eq_some_iff.mp hb).1
    by_contra hne
    exact not_sound_of_two_blocks hd hp hc (by omega) hs
  | rejected hp hb hc hw hone =>
    exact ⟨fun _ => (haddress hp).mpr hone, fun _ => hs.reject _ _ _⟩
  | @accepted piece block files d'' hp hb hc hw hgood hlands hfin =>
    constructor
    · intro hsound
      refine (haddress hp).mpr ?_
      have hpos := (List.getElem?_eq_some_iff.mp hb).1
      have hwf := (hfin.wellFormed (hd.accept hp hc hw)).withSent
        (d''.sent ++ d''.notifications call.pieceIndex call.blockIndex)
      have hflagged : d''.pieces[call.pieceIndex.toNat]? =
          some { piece.completeBlock call.blockIndex.toNat with isCompleted := true } := by
        simp [hfin.pieces_eq, Download.accept, hp]
      by_contra hne
      refine not_sound_of_two_blocks hwf hflagged rfl ?_ hsound
      simp only [Piece.completeBlock, List.length_modify]
      omega
    · intro hsingle
      have hone := (haddress hp).mp hsingle
      exact (hs.accept hd hp hb hw hone (hgood hone)).congr hfin.pieces_eq hfin.checks_eq

/-- In every state of a run the completed pieces are sound exactly when every call of the
run stores into a piece of one block. -/
theorem sound_along_run_iff {disk : String → Bytes} {metaInfo : TorrentMetaInfo}
    (hstart : start disk metaInfo = .ok d) {trace : List (Step Download StoreCall)}
    (run : Run (storeStep sha1) d trace d') :
    (∀ x ∈ trace, x.after.Sound sha1) ↔ ∀ x ∈ trace, x.before.addressesSingleBlock x.label :=
  run.forall_after_iff (start_spec hstart).1 (start_sound hstart)
    fun _ _ _ hd hs h => ⟨h.wellFormed hd, h.sound_iff hd hs⟩

/-- A torrent of one piece with one block of one byte. -/
def oneBlockTorrent : TorrentMetaInfo := .singleFile "f" 1 1 [Sha1.replicate 0]

def oneBlockPiece : Piece := ⟨1, 0, Sha1.replicate 0, [Block.new 0 1], false⟩

/-- The download of `oneBlockTorrent` to an empty disk. -/
def oneBlockDownload : Download where
  metaInfo := oneBlockTorrent
  pieces := [oneBlockPiece]
  filePaths := ["downloads/f.temp"]
  files := [setLen [] 1]
  fileOffsets := [0, 1]
  sent := []
  checks := []

theorem start_oneBlockTorrent :
    start (fun _ => []) oneBlockTorrent = .ok oneBlockDownload := rfl

/-- The download of `oneBlockTorrent` with its only byte. -/
def storedDownload : Download :=
  { oneBlockDownload with
    pieces := [⟨1, 0, Sha1.replicate 0, [⟨0, 1, true⟩], true⟩]
    filePaths := ["downloads/f"]
    files := [[7]]
    sent := [.fileFinish 0 "downloads/f", .broadcast (.blockCompleted 0 0),
      .broadcast (.pieceCompleted 0), .broadcast .downloadCompleted]
    checks := [⟨0, [7], true⟩] }

/-- The byte is accepted where the hash function gives the hash of the torrent. -/
theorem store_oneBlockDownload :
    storeStep (fun _ => Sha1.replicate 0) oneBlockDownload ⟨0, 0, [7]⟩ storedDownload := by
  have hstored : (match store (fun _ => Sha1.replicate 0) 0 0 [7] oneBlockDownload with
      | .ok _ d => decide (d = storedDownload)
      | .error _ _ => false) = true := by decide +kernel
  rw [storeStep]
  split at hstored
  next heq => rw [heq, of_decide_eq_true hstored]
  next => cases hstored

/-- The only block of its piece may be stored. -/
theorem sound_along_run_iff_oneBlock :
    ∃ trace, Run (storeStep fun _ => Sha1.replicate 0) oneBlockDownload trace storedDownload ∧
      trace.map (·.label) = [⟨0, 0, [7]⟩] ∧
      ∀ x ∈ trace, x.after.Sound fun _ => Sha1.replicate 0 := by
  have run := Run.nil.snoc store_oneBlockDownload
  refine ⟨_, run, rfl, (sound_along_run_iff start_oneBlockTorrent run).mpr fun x hx => ?_⟩
  obtain rfl := List.mem_singleton.mp hx
  rintro piece hp
  obtain rfl : oneBlockPiece = piece := Option.some.inj hp
  rfl

/-- A torrent of one file and one piece, whose second block has one byte. -/
def twoBlockTorrent : TorrentMetaInfo := .singleFile "f" 16385 16385 [Sha1.replicate 0]

def twoBlockPiece : Piece :=
  ⟨16385, 0, Sha1.replicate 0, [Block.new 0 16384, Block.new 1 1], false⟩

/-- The download of `twoBlockTorrent` to an empty disk. -/
def twoBlockDownload : Download where
  metaInfo := twoBlockTorrent
  pieces := [twoBlockPiece]
  filePaths := ["downloads/f.temp"]
  files := [setLen [] 16385]
  fileOffsets := [0, 16385]
  sent := []
  checks := []

theorem start_twoBlockTorrent :
    start (fun _ => []) twoBlockTorrent = .ok twoBlockDownload := rfl

/-- The first block of the piece flags it, whatever the hash function. -/
theorem store_twoBlockDownload (sha1 : Bytes → Sha1) {data : Bytes} (hlen : data.length = 16384) :
    ∃ files d', Written twoBlockDownload twoBlockPiece 0 data files ∧
      Finished (twoBlockDownload.accept 0 0 twoBlockPiece files) d' ∧
      storeStep sha1 twoBlockDownload ⟨0, 0, data⟩
        { d' with sent := d'.sent ++ d'.notifications 0 0 } := by
  have hp : twoBlockDownload.pieces[(0 : UInt32).toNat]? = some twoBlockPiece := rfl
  have hb : twoBlockPiece.blocks[(0 : UInt32).toNat]? = some (Block.new 0 16384) := rfl
  refine store_accepts sha1 (start_spec start_twoBlockTorrent).1 hp hb rfl ?_ ?_ (by decide +kernel)
  · simp [twoBlockDownload, twoBlockPiece, content, hlen]
  · intro hone
    simp [twoBlockPiece] at hone

/-- One block of a piece of two leaves the piece completed and never checked. -/
theorem first_block_completes_piece :
    ∃ d d', start (fun _ => []) twoBlockTorrent = .ok d ∧
      Run (storeStep fun _ => Sha1.replicate 1) d
        [⟨d, ⟨0, 0, List.replicate 16384 7⟩, d'⟩] d' ∧
      ¬ d'.Sound fun _ => Sha1.replicate 1 := by
  have hlen : (List.replicate 16384 (7 : UInt8)).length = 16384 := List.length_replicate
  obtain ⟨files, d', -, hfin, hstep⟩ := store_twoBlockDownload (fun _ => Sha1.replicate 1) hlen
  refine ⟨_, _, start_twoBlockTorrent, Run.nil.snoc hstep, fun hsound => ?_⟩
  have hwf := hstep.wellFormed (start_spec start_twoBlockTorrent).1
  have hflagged : d'.pieces[0]? = some ⟨16385, 0, Sha1.replicate 0,
      [⟨0, 16384, true⟩, Block.new 1 1], true⟩ := by
    rw [hfin.pieces_eq]
    rfl
  exact not_sound_of_two_blocks hwf hflagged rfl (by decide) hsound

end Download
end TorrentClient
