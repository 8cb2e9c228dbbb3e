import TorrentClient.Download
import TorrentClient.DownloadGeometry

/-!
# Blocks tile a piece, and pieces the content

`Piece::new` cuts every length into blocks whose arithmetic stays in `u32`. `create_pieces`
casts the length of a piece to `u32`, and the pieces it returns follow each other without a
gap exactly where the cast changes nothing.
-/
namespace TorrentClient

/-- Dividing the start of a block gives its index back. -/
theorem blockIndexOf_mul {blockIndex : UInt32} (h : blockIndex.toNat * blockSize < 2 ^ 32) :
    blockIndexOf (UInt32.ofNat (blockIndex.toNat * blockSize)) = blockIndex := by
  apply UInt32.toNat_inj.mp
  have hpos : 0 < blockSize := by simp [blockSize]
  have hsize : (UInt32.ofNat blockSize).toNat = blockSize := rfl
  rw [blockIndexOf, UInt32.toNat_div, hsize, UInt32.toNat_ofNat_of_lt' h]
  exact Nat.mul_div_cancel _ hpos

/-- Blocks tile a piece of any length, and no arithmetic on them overflows. -/
theorem blocks_tile_piece (length : UInt32) (offset : ℕ) (hash : Sha1) :
    ∃ piece, Piece.new length offset hash = .ok piece ∧
      (∀ j block, piece.blocks[j]? = some block → block.index.toNat = j ∧
        0 < block.length.toNat ∧ block.length.toNat ≤ blockSize ∧
        (j + 1 < piece.blocks.length → block.length.toNat = blockSize)) ∧
      (piece.blocks.map (·.length.toNat)).sum = length.toNat ∧
      ∀ block ∈ piece.blocks, ∃ start,
        (checkedMul32 block.index.toNat blockSize : Outcome ℕ) = .ok start ∧
        start + block.length.toNat ≤ length.toNat ∧
        blockIndexOf (UInt32.ofNat start) = block.index := by
  obtain ⟨piece, hnew, hlength, hcut⟩ : ∃ piece, Piece.new length offset hash = .ok piece ∧
      piece.length = length ∧
      piece.blocks.map (fun b => (b.index, b.length)) = Piece.blockShapes piece.length :=
    ⟨_, Piece.new_eq length offset hash, rfl, by simp [Block.new, Function.comp_def]⟩
  refine ⟨piece, hnew, ?_, hlength ▸ Piece.sum_blocks hcut, ?_⟩
  · intro j block hb
    obtain ⟨hindex, hlen⟩ := Piece.toNat_block hcut hb
    refine ⟨hindex, (Piece.block_le hcut hb).2.1, ?_, Piece.block_full hcut hb⟩
    rw [hlen]
    exact Nat.min_le_left _ _
  · intro block hmem
    obtain ⟨j, hb⟩ := List.mem_iff_getElem?.mp hmem
    obtain ⟨h32, -, hend⟩ := Piece.block_le hcut hb
    rw [← (Piece.toNat_block hcut hb).1] at h32 hend
    exact ⟨_, checkedMul32_of_lt h32, hlength ▸ hend, blockIndexOf_mul h32⟩

/-- The pieces follow each other from the start of the content to its end. -/
def TilesContent (pieces : List Piece) (total : ℕ) : Prop :=
  (∀ (i : ℕ) piece, pieces[i]? = some piece →
    piece.offset = ((pieces.take i).map (·.length.toNat)).sum) ∧
  (pieces.map (·.length.toNat)).sum = total

/-- Neither assertion of `create_pieces` fails. It gets to them in the round of the last piece,
once the offset of that piece is computed. -/
def AssertionsHold (filesLength : ℕ) (metaInfo : TorrentMetaInfo) : Prop :=
  ∀ offset, (checkedMul (metaInfo.numPieces - 1) metaInfo.pieceLength : Outcome ℕ) = .ok offset →
    filesLength > offset ∧ metaInfo.pieceLength ≥ filesLength - offset

/-- Where every length survives the cast, the pieces before the last one end where it starts. -/
theorem sum_take_lengths {metaInfo : TorrentMetaInfo} {total : ℕ} {pieces : List Piece}
    (hcount : pieces.length = metaInfo.numPieces)
    (hlen : ∀ (i : ℕ) piece, pieces[i]? = some piece →
      piece.length.toNat = pieceSpan metaInfo total i) {i : ℕ} (hi : i < metaInfo.numPieces) :
    ((pieces.take i).map (·.length.toNat)).sum = i * metaInfo.pieceLength := by
  induction i with
  | zero => simp
  | succ i ih =>
    have hpiece := List.getElem?_eq_getElem (show i < pieces.length by omega)
    rw [List.take_add_one, hpiece, List.map_append, List.sum_append, ih (by omega)]
    simp only [Option.toList_some, List.map_singleton, List.sum_singleton, hlen i _ hpiece]
    rw [pieceSpan, if_pos (by omega), Nat.succ_mul]

theorem tilesContent_of_lengths {metaInfo : TorrentMetaInfo} {total : ℕ} {pieces : List Piece}
    (hcreated : createPieces total metaInfo = .ok pieces) (hn : 0 < metaInfo.numPieces)
    (hlen : ∀ (i : ℕ) piece, pieces[i]? = some piece →
      piece.length.toNat = pieceSpan metaInfo total i) : TilesContent pieces total := by
  obtain ⟨hgeometry, hcount, hshape⟩ := createPieces_spec hcreated
  constructor
  · intro i piece hp
    have hs := (hshape i piece hp).1
    rw [hs.offset_eq, sum_take_lengths hcount hlen hs.index_lt]
  · obtain ⟨k, hk⟩ : ∃ k, pieces.length = k + 1 := ⟨pieces.length - 1, by omega⟩
    have hpiece := List.getElem?_eq_getElem (show k < pieces.length by omega)
    have hsum := sum_take_lengths hcount hlen (show k < metaInfo.numPieces by omega)
    have hstart := hgeometry.last_start k (by omega)
    have hall : pieces.take (k + 1) = pieces := List.take_of_length_le (by omega)
    rw [← hall, List.take_add_one, hpiece, List.map_append, List.sum_append, hsum]
    simp only [Option.toList_some, List.map_singleton, List.sum_singleton, hlen k _ hpiece]
    rw [pieceSpan, if_neg (by omega)]
    omega

/-- Where the assertions hold and no offset overflows, `create_pieces` returns pieces. -/
theorem createPieces_ok {metaInfo : TorrentMetaInfo} {total : ℕ}
    (hassert : AssertionsHold total metaInfo)
    (hoffset : (metaInfo.numPieces - 1) * metaInfo.pieceLength < 2 ^ 64) :
    ∃ pieces, createPieces total metaInfo = .ok pieces := by
  refine mapM_ok_of_forall fun i hi => ?_
  have hi : i < metaInfo.numPieces := List.mem_range.mp hi
  have hle : i * metaInfo.pieceLength ≤ (metaInfo.numPieces - 1) * metaInfo.pieceLength :=
    Nat.mul_le_mul_right _ (by omega)
  obtain ⟨length, hlength⟩ : ∃ length,
      createdLength total metaInfo i (i * metaInfo.pieceLength) = .ok length := by
    rw [createdLength]
    split_ifs with hlast
    · exact ⟨_, rfl⟩
    · obtain rfl : i = metaInfo.numPieces - 1 := by omega
      obtain ⟨hstart, hend⟩ := hassert _ (checkedMul_eq_ok.mpr ⟨hoffset, rfl⟩)
      rw [assert_eq_ok.mpr hstart, ok_bind, assert_eq_ok.mpr hend, ok_bind]
      exact ⟨_, rfl⟩
  have hhash := List.getElem?_eq_getElem (metaInfo.length_pieces.symm ▸ hi)
  rw [checkedMul_eq_ok.mpr ⟨by omega, rfl⟩, ok_bind, hlength, ok_bind, index_of_getElem? hhash,
    ok_bind, Piece.new_eq]
  exact ⟨_, rfl⟩

/-- The pieces of a torrent whose assertions hold tile the content exactly where the lengths
survive their cast to `u32` and the offset of the last piece does not overflow. -/
theorem pieces_tile_content_iff {metaInfo : TorrentMetaInfo} {total : ℕ}
    (hn : 1 ≤ metaInfo.numPieces) (htotal : total < 2 ^ 64)
    (hassert : AssertionsHold total metaInfo) :
    (∃ pieces, createPieces total metaInfo = .ok pieces ∧ TilesContent pieces total) ↔
      (metaInfo.pieceLength < 2 ^ 32 ∧
          (metaInfo.numPieces - 1) * metaInfo.pieceLength < 2 ^ 64) ∨
        (metaInfo.numPieces = 1 ∧ total < 2 ^ 32) := by
  constructor
  · rintro ⟨pieces, hcreated, hoffsets, hsum⟩
    obtain ⟨hgeometry, hcount, hshape⟩ := createPieces_spec hcreated
    have hfirst := List.getElem?_eq_getElem (show 0 < pieces.length by omega)
    have hlt := pieces[0].length.toNat_lt
    by_cases hone : metaInfo.numPieces = 1
    · obtain ⟨piece, rfl⟩ := List.length_eq_one_iff.mp (hcount.trans hone)
      simp only [List.map_singleton, List.sum_singleton] at hsum
      simp only [List.getElem_cons_zero] at hlt
      exact Or.inr ⟨hone, by omega⟩
    · have hsecond := List.getElem?_eq_getElem (show 1 < pieces.length by omega)
      have hoffset := hoffsets 1 _ hsecond
      rw [(hshape 1 _ hsecond).1.offset_eq, List.take_add_one, hfirst] at hoffset
      simp at hoffset
      have hlast := hgeometry.last_start (metaInfo.numPieces - 1) (by omega)
      exact Or.inl ⟨by omega, by omega⟩
  · intro hfits
    obtain ⟨pieces, hcreated⟩ := createPieces_ok hassert (by
      rcases hfits with ⟨-, hoffset⟩ | ⟨hone, -⟩
      · exact hoffset
      · simp [hone])
    obtain ⟨hgeometry, hcount, hshape⟩ := createPieces_spec hcreated
    refine ⟨pieces, hcreated, tilesContent_of_lengths hcreated hn fun i piece hp => ?_⟩
    have hs := (hshape i piece hp).1
    have hspan := hgeometry.span_le hs.index_lt
    rcases hfits with ⟨h32, -⟩ | ⟨hone, h32⟩
    · exact hs.length_eq_span hgeometry h32
    · rw [hs.length_eq, UInt32.toNat_ofNat_of_lt' (by change _ < 2 ^ 32; omega)]

/-- Two pieces, the last one shorter. -/
theorem pieces_tile_content_iff_two : ∃ pieces,
    createPieces 3 (.singleFile "f" 3 2 [Sha1.replicate 0, Sha1.replicate 1]) = .ok pieces ∧
      TilesContent pieces 3 := by
  have hassert : AssertionsHold 3
      (.singleFile "f" 3 2 [Sha1.replicate 0, Sha1.replicate 1]) := by
    intro offset hoffset
    cases hoffset
    decide
  exact (pieces_tile_content_iff (by decide) (by decide) hassert).mpr (Or.inl (by decide))

/-- A torrent of one piece whose length needs 33 bits. -/
def longPieceTorrent : TorrentMetaInfo :=
  .singleFile "f" 4294967296 4294967296 [Sha1.replicate 0]

/-- The only piece of the torrent is created without a byte. -/
theorem long_piece_is_empty : AssertionsHold (2 ^ 32) longPieceTorrent ∧
    ∃ pieces, createPieces (2 ^ 32) longPieceTorrent = .ok pieces ∧
      pieces.map (·.length) = [0] ∧ ¬ TilesContent pieces (2 ^ 32) := by
  have hassert : AssertionsHold (2 ^ 32) longPieceTorrent := by
    intro offset hoffset
    obtain ⟨-, rfl⟩ := checkedMul_eq_ok.mp hoffset
    rw [show longPieceTorrent.numPieces = 1 from rfl,
      show longPieceTorrent.pieceLength = 2 ^ 32 from rfl]
    omega
  have hcreated : createPieces (2 ^ 32) longPieceTorrent =
      .ok [⟨0, 0, Sha1.replicate 0, [], false⟩] := rfl
  refine ⟨hassert, _, hcreated, rfl, fun htiles => ?_⟩
  have hsum := htiles.2
  simp at hsum

end TorrentClient
