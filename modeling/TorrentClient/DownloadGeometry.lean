import TorrentClient.DownloadPieces

/-!
# Where pieces and blocks lie in the content

What a successful `create_pieces` and `create_files` say about the ranges of pieces and
blocks: a block lies inside its piece, a piece inside the content, and two pieces do not
overlap. Lengths of pieces are cast to `u32`, so a piece may be shorter than its span.
-/
namespace TorrentClient
open ListRanges

theorem blockSize_pos : 0 < blockSize := by decide

/-- The length of block `i` of a piece. -/
def blockLength (length i : ℕ) : ℕ := min blockSize (length - i * blockSize)

namespace Piece

theorem lt_numBlocks_iff {length i : ℕ} : i < numBlocks length ↔ i * blockSize < length := by
  simp only [numBlocks, blockSize]
  omega

theorem numBlocks_le (length : UInt32) : numBlocks length.toNat ≤ 2 ^ 18 := by
  have := length.toNat_lt
  simp only [numBlocks, blockSize]
  omega

theorem blockLength_le {length i : ℕ} (h : i < numBlocks length) :
    0 < blockLength length i ∧ i * blockSize + blockLength length i ≤ length := by
  have := lt_numBlocks_iff.mp h
  simp only [blockLength, blockSize] at *
  omega

/-- The first blocks of a piece cover it up to where the next one starts. -/
theorem sum_blockLength (length : ℕ) {k : ℕ} (hk : k ≤ numBlocks length) :
    ((List.range k).map (blockLength length)).sum = min (k * blockSize) length := by
  induction k with
  | zero => simp
  | succ k ih =>
    have hin := lt_numBlocks_iff.mp (Nat.lt_of_succ_le hk)
    have hsum := ih (by omega)
    simp only [List.range_succ, List.map_append, List.sum_append, List.map_singleton,
      List.sum_singleton, hsum, blockLength]
    rw [Nat.succ_mul]
    omega

theorem le_numBlocks_mul (length : ℕ) : length ≤ numBlocks length * blockSize := by
  simp only [numBlocks, blockSize]
  omega

/-- The blocks a new piece is cut into: their indices and lengths. -/
def blockShapes (length : UInt32) : List (UInt32 × UInt32) :=
  (List.range (numBlocks length.toNat)).map fun i =>
    (UInt32.ofNat i, UInt32.ofNat (blockLength length.toNat i))

theorem newBlockLength_eq {length i : ℕ} (hlt : length < 2 ^ 32) (hi : i < numBlocks length) :
    newBlockLength length i = .ok (blockLength length i) := by
  have hin := lt_numBlocks_iff.mp hi
  by_cases hlast : i < numBlocks length - 1
  · have hnext := lt_numBlocks_iff.mp (show i + 1 < numBlocks length by omega)
    have hfull : blockLength length i = blockSize := by
      simp only [blockLength, blockSize] at *
      omega
    rw [newBlockLength, if_pos hlast, hfull]
  · have hlen : length - blockSize * (numBlocks length - 1) = blockLength length i := by
      simp only [blockLength, numBlocks, blockSize] at *
      omega
    have h32 : blockSize * (numBlocks length - 1) < 2 ^ 32 := by
      simp only [numBlocks, blockSize] at *
      omega
    have hle : blockSize * (numBlocks length - 1) ≤ length := by
      simp only [numBlocks, blockSize] at *
      omega
    rw [newBlockLength, if_neg hlast, checkedMul32_of_lt h32, ok_bind, checkedSub_of_le hle, hlen]

/-- Cutting a piece into blocks never fails. -/
theorem new_eq (length : UInt32) (offset : ℕ) (hash : Sha1) :
    new length offset hash =
      .ok ⟨length, offset, hash, (blockShapes length).map fun s => Block.new s.1 s.2, false⟩ := by
  have hblock : ∀ i ∈ List.range (numBlocks length.toNat), (do
      let len ← newBlockLength length.toNat i
      return Block.new (UInt32.ofNat i) (UInt32.ofNat len) : Outcome Block) =
      .ok (Block.new (UInt32.ofNat i) (UInt32.ofNat (blockLength length.toNat i))) := by
    intro i hi
    rw [newBlockLength_eq length.toNat_lt (List.mem_range.mp hi)]
    rfl
  rw [new, mapM_of_forall_ok hblock]
  simp only [ok_bind, blockShapes, List.map_map]
  rfl

/-! A piece keeps the blocks it was cut into, whatever has been completed since. -/

section Blocks

variable {piece : Piece}
  (h : piece.blocks.map (fun b => (b.index, b.length)) = blockShapes piece.length)

include h

theorem length_blocks : piece.blocks.length = numBlocks piece.length.toNat := by
  have := congrArg List.length h
  simpa [blockShapes] using this

theorem getElem?_block {j : ℕ} {b : Block} (hb : piece.blocks[j]? = some b) :
    j < numBlocks piece.length.toNat ∧ b.index = UInt32.ofNat j ∧
      b.length = UInt32.ofNat (blockLength piece.length.toNat j) := by
  have hj : j < piece.blocks.length := (List.getElem?_eq_some_iff.mp hb).1
  have hget := congrArg (·[j]?) h
  rw [length_blocks h] at hj
  simp [hb, blockShapes, List.getElem?_range hj] at hget
  exact ⟨hj, hget.1, hget.2⟩

theorem toNat_block {j : ℕ} {b : Block} (hb : piece.blocks[j]? = some b) :
    b.index.toNat = j ∧ b.length.toNat = blockLength piece.length.toNat j := by
  obtain ⟨hj, hi, hl⟩ := getElem?_block h hb
  have hle := numBlocks_le piece.length
  have hbl : blockLength piece.length.toNat j ≤ blockSize := Nat.min_le_left _ _
  have hsize : UInt32.size = 2 ^ 32 := rfl
  rw [hi, hl, UInt32.toNat_ofNat_of_lt' (by omega),
    UInt32.toNat_ofNat_of_lt' (by simp only [blockSize] at hbl; omega)]
  exact ⟨rfl, rfl⟩

/-- The start of a block fits in `u32` and the block lies inside its piece. -/
theorem block_le {j : ℕ} {b : Block} (hb : piece.blocks[j]? = some b) :
    j * blockSize < 2 ^ 32 ∧ 0 < b.length.toNat ∧
      j * blockSize + b.length.toNat ≤ piece.length.toNat := by
  obtain ⟨hj, -⟩ := getElem?_block h hb
  obtain ⟨hpos, hle⟩ := blockLength_le hj
  have hlt := piece.length.toNat_lt
  rw [(toNat_block h hb).2]
  omega

/-- All blocks but the last one are full. -/
theorem block_full {j : ℕ} {b : Block} (hb : piece.blocks[j]? = some b)
    (hnext : j + 1 < piece.blocks.length) : b.length.toNat = blockSize := by
  rw [length_blocks h] at hnext
  have hin := lt_numBlocks_iff.mp hnext
  rw [Nat.succ_mul] at hin
  rw [(toNat_block h hb).2, blockLength]
  omega

/-- The lengths of the blocks add up to that of the piece. -/
theorem sum_blocks : (piece.blocks.map (·.length.toNat)).sum = piece.length.toNat := by
  have hlens : piece.blocks.map (·.length.toNat) =
      (List.range (numBlocks piece.length.toNat)).map (blockLength piece.length.toNat) := by
    apply List.ext_getElem?
    intro j
    rw [List.getElem?_map, List.getElem?_map]
    cases hb : piece.blocks[j]? with
    | none =>
      rw [List.getElem?_eq_none_iff, length_blocks h] at hb
      rw [List.getElem?_eq_none (by simpa using hb)]
      rfl
    | some b =>
      have hj := (getElem?_block h hb).1
      rw [List.getElem?_range hj, Option.map_some, Option.map_some, (toNat_block h hb).2]
  rw [hlens, sum_blockLength _ (Nat.le_refl _)]
  exact Nat.min_eq_right (le_numBlocks_mul _)

end Blocks

end Piece

/-- The part of the content that piece `i` stands for, before the cast of its length. -/
def pieceSpan (metaInfo : TorrentMetaInfo) (total i : ℕ) : ℕ :=
  if i < metaInfo.numPieces - 1 then metaInfo.pieceLength else total - i * metaInfo.pieceLength

/-- The pieces cover the content: only the last one may be shorter than the others. -/
structure Geometry (metaInfo : TorrentMetaInfo) (total : ℕ) : Prop where
  last_start : ∀ i, i + 1 = metaInfo.numPieces → i * metaInfo.pieceLength < total
  last_end : ∀ i, i + 1 = metaInfo.numPieces → total ≤ (i + 1) * metaInfo.pieceLength

namespace Geometry

variable {metaInfo : TorrentMetaInfo} {total : ℕ}

theorem start_lt (h : Geometry metaInfo total) {i : ℕ} (hi : i < metaInfo.numPieces) :
    i * metaInfo.pieceLength < total := by
  have hlast := h.last_start (metaInfo.numPieces - 1) (by omega)
  have : i * metaInfo.pieceLength ≤ (metaInfo.numPieces - 1) * metaInfo.pieceLength :=
    Nat.mul_le_mul_right _ (by omega)
  omega

theorem pieceLength_pos (h : Geometry metaInfo total) {i : ℕ} (hi : i < metaInfo.numPieces) :
    0 < metaInfo.pieceLength := by
  have hs := h.last_start (metaInfo.numPieces - 1) (by omega)
  have he := h.last_end (metaInfo.numPieces - 1) (by omega)
  rw [Nat.add_mul] at he
  omega

theorem span_le (h : Geometry metaInfo total) {i : ℕ} (hi : i < metaInfo.numPieces) :
    pieceSpan metaInfo total i ≤ metaInfo.pieceLength ∧
      i * metaInfo.pieceLength + pieceSpan metaInfo total i ≤ total := by
  have hstart := h.start_lt hi
  unfold pieceSpan
  split_ifs with hlast
  · have hnext := h.start_lt (show i + 1 < metaInfo.numPieces by omega)
    rw [Nat.add_mul] at hnext
    omega
  · have hend := h.last_end i (by omega)
    rw [Nat.add_mul] at hend
    omega

end Geometry

/-- A piece as `create_pieces` builds it, whatever has been completed since. -/
structure PieceShape (metaInfo : TorrentMetaInfo) (total i : ℕ) (piece : Piece) : Prop where
  index_lt : i < metaInfo.numPieces
  offset_eq : piece.offset = i * metaInfo.pieceLength
  length_eq : piece.length = UInt32.ofNat (pieceSpan metaInfo total i)
  hash_eq : metaInfo.pieces[i]? = some piece.hash
  blocks_eq : piece.blocks.map (fun b => (b.index, b.length)) = Piece.blockShapes piece.length

namespace PieceShape

variable {metaInfo : TorrentMetaInfo} {total i : ℕ} {piece : Piece}

theorem length_le (h : PieceShape metaInfo total i piece) :
    piece.length.toNat ≤ pieceSpan metaInfo total i := by
  rw [h.length_eq, UInt32.toNat_ofNat']
  exact Nat.mod_le _ _

/-- A piece lies inside the content. -/
theorem end_le (h : PieceShape metaInfo total i piece) (hg : Geometry metaInfo total) :
    piece.offset + piece.length.toNat ≤ total := by
  have := (hg.span_le h.index_lt).2
  have := h.length_le
  rw [h.offset_eq]
  omega

theorem length_blocks (h : PieceShape metaInfo total i piece) :
    piece.blocks.length = Piece.numBlocks piece.length.toNat := Piece.length_blocks h.blocks_eq

theorem getElem?_block (h : PieceShape metaInfo total i piece) {j : ℕ} {b : Block}
    (hb : piece.blocks[j]? = some b) :
    j < Piece.numBlocks piece.length.toNat ∧ b.index = UInt32.ofNat j ∧
      b.length = UInt32.ofNat (blockLength piece.length.toNat j) :=
  Piece.getElem?_block h.blocks_eq hb

theorem toNat_block (h : PieceShape metaInfo total i piece) {j : ℕ} {b : Block}
    (hb : piece.blocks[j]? = some b) :
    b.index.toNat = j ∧ b.length.toNat = blockLength piece.length.toNat j :=
  Piece.toNat_block h.blocks_eq hb

/-- The start of a block fits in `u32` and the block lies inside its piece. -/
theorem block_le (h : PieceShape metaInfo total i piece) {j : ℕ} {b : Block}
    (hb : piece.blocks[j]? = some b) :
    j * blockSize < 2 ^ 32 ∧ 0 < b.length.toNat ∧
      j * blockSize + b.length.toNat ≤ piece.length.toNat := Piece.block_le h.blocks_eq hb

/-- The only block of a piece is the whole piece. -/
theorem single_block (h : PieceShape metaInfo total i piece) (hone : piece.blocks.length = 1)
    {j : ℕ} {b : Block} (hb : piece.blocks[j]? = some b) :
    j = 0 ∧ b.length.toNat = piece.length.toNat := by
  have hj : j = 0 := by
    have := (List.getElem?_eq_some_iff.mp hb).1
    omega
  refine ⟨hj, ?_⟩
  have hcount := h.length_blocks
  rw [hone] at hcount
  rw [(h.toNat_block hb).2, hj, blockLength]
  simp only [Piece.numBlocks, blockSize] at *
  omega

/-- Two different pieces do not overlap. -/
theorem disjoint {i' : ℕ} {piece' : Piece} (h : PieceShape metaInfo total i piece)
    (h' : PieceShape metaInfo total i' piece') (hg : Geometry metaInfo total) (hne : i ≠ i') :
    piece.offset + piece.length.toNat ≤ piece'.offset ∨
      piece'.offset + piece'.length.toNat ≤ piece.offset := by
  have hl := h.length_le
  have hl' := h'.length_le
  have hs := (hg.span_le h.index_lt).1
  have hs' := (hg.span_le h'.index_lt).1
  rw [h.offset_eq, h'.offset_eq]
  rcases Nat.lt_or_gt_of_ne hne with hlt | hlt
  · have := Nat.mul_le_mul_right metaInfo.pieceLength (show i + 1 ≤ i' from hlt)
    rw [Nat.add_mul] at this
    omega
  · have := Nat.mul_le_mul_right metaInfo.pieceLength (show i' + 1 ≤ i from hlt)
    rw [Nat.add_mul] at this
    omega

/-- The place of a piece fixes all of it but its flags. -/
theorem unique {piece' : Piece} (h : PieceShape metaInfo total i piece)
    (h' : PieceShape metaInfo total i piece') :
    piece'.offset = piece.offset ∧ piece'.length = piece.length ∧ piece'.hash = piece.hash ∧
      piece'.blocks.map (fun b => (b.index, b.length)) =
        piece.blocks.map (fun b => (b.index, b.length)) := by
  have hl : piece'.length = piece.length := h'.length_eq.trans h.length_eq.symm
  refine ⟨h'.offset_eq.trans h.offset_eq.symm, hl, ?_, ?_⟩
  · exact Option.some.inj (h'.hash_eq.symm.trans h.hash_eq)
  · rw [h'.blocks_eq, h.blocks_eq, hl]

/-- Below `2 ^ 32` the cast of a piece length changes nothing. -/
theorem length_eq_span (h : PieceShape metaInfo total i piece) (hg : Geometry metaInfo total)
    (h32 : metaInfo.pieceLength < 2 ^ 32) : piece.length.toNat = pieceSpan metaInfo total i := by
  have hspan := (hg.span_le h.index_lt).1
  have hsize : UInt32.size = 2 ^ 32 := rfl
  rw [h.length_eq, UInt32.toNat_ofNat_of_lt' (by omega)]

theorem exists_block (h : PieceShape metaInfo total i piece) {k : ℕ}
    (hk : k < piece.length.toNat) :
    ∃ b, piece.blocks[k / blockSize]? = some b ∧ k / blockSize * blockSize ≤ k ∧
      k < k / blockSize * blockSize + b.length.toNat := by
  have hmod := Nat.div_add_mod k blockSize
  have hlt := Nat.mod_lt k blockSize_pos
  rw [Nat.mul_comm] at hmod
  have hj : k / blockSize < piece.blocks.length := by
    rw [h.length_blocks, Piece.lt_numBlocks_iff]
    omega
  have hb := List.getElem?_eq_getElem hj
  have hlen := (h.toNat_block hb).2
  refine ⟨_, hb, by omega, ?_⟩
  rw [hlen, blockLength]
  omega

/-- Two different blocks of a piece do not overlap. -/
theorem block_disjoint (h : PieceShape metaInfo total i piece) {j j' : ℕ} {b b' : Block}
    (hb : piece.blocks[j]? = some b) (hb' : piece.blocks[j']? = some b') (hne : j ≠ j') :
    j * blockSize + b.length.toNat ≤ j' * blockSize ∨
      j' * blockSize + b'.length.toNat ≤ j * blockSize := by
  rw [(h.toNat_block hb).2, (h.toNat_block hb').2]
  have hl : blockLength piece.length.toNat j ≤ blockSize := Nat.min_le_left _ _
  have hl' : blockLength piece.length.toNat j' ≤ blockSize := Nat.min_le_left _ _
  rcases Nat.lt_or_gt_of_ne hne with hlt | hlt
  · have := Nat.mul_le_mul_right blockSize (show j + 1 ≤ j' from hlt)
    rw [Nat.add_mul] at this
    omega
  · have := Nat.mul_le_mul_right blockSize (show j' + 1 ≤ j from hlt)
    rw [Nat.add_mul] at this
    omega

end PieceShape

/-- Every byte of the content lies in the span of a piece. -/
theorem Geometry.exists_piece {metaInfo : TorrentMetaInfo} {total k : ℕ}
    (hcover : total ≤ metaInfo.numPieces * metaInfo.pieceLength) (hk : k < total) :
    ∃ i < metaInfo.numPieces, i * metaInfo.pieceLength ≤ k ∧
      k < i * metaInfo.pieceLength + pieceSpan metaInfo total i := by
  have hpl : 0 < metaInfo.pieceLength := by
    rcases Nat.eq_zero_or_pos metaInfo.pieceLength with hzero | hpos
    · rw [hzero] at hcover
      omega
    · exact hpos
  have hmod := Nat.div_add_mod k metaInfo.pieceLength
  have hlt := Nat.mod_lt k hpl
  rw [Nat.mul_comm] at hmod
  refine ⟨k / metaInfo.pieceLength, ?_, by omega, ?_⟩
  · rw [Nat.div_lt_iff_lt_mul hpl]
    omega
  · unfold pieceSpan
    split_ifs <;> omega

private theorem createdLength_spec {total i length : ℕ} {metaInfo : TorrentMetaInfo}
    (h : createdLength total metaInfo i (i * metaInfo.pieceLength) = .ok length) :
    length = pieceSpan metaInfo total i ∧ (i + 1 = metaInfo.numPieces →
      i * metaInfo.pieceLength < total ∧ total ≤ (i + 1) * metaInfo.pieceLength) := by
  rw [createdLength] at h
  by_cases hlast : i < metaInfo.numPieces - 1
  · rw [if_pos hlast] at h
    cases h
    exact ⟨(if_pos hlast).symm, by omega⟩
  · rw [if_neg hlast] at h
    obtain ⟨_, hstart, h⟩ := bind_eq_ok.mp h
    obtain ⟨_, hend, h⟩ := bind_eq_ok.mp h
    cases h
    have hs := assert_eq_ok.mp hstart
    have he := assert_eq_ok.mp hend
    refine ⟨(if_neg hlast).symm, fun _ => ⟨hs, ?_⟩⟩
    rw [Nat.add_mul]
    omega

/-- The pieces of a torrent whose assertions pass: nothing of them is completed yet. -/
theorem createPieces_spec {total : ℕ} {metaInfo : TorrentMetaInfo} {pieces : List Piece}
    (h : createPieces total metaInfo = .ok pieces) :
    Geometry metaInfo total ∧ pieces.length = metaInfo.numPieces ∧
      ∀ (i : ℕ) piece, pieces[i]? = some piece → PieceShape metaInfo total i piece ∧
        piece.isCompleted = false ∧ ∀ b ∈ piece.blocks, b.isCompleted = false := by
  obtain ⟨hlen, hget⟩ := mapM_eq_ok h
  rw [List.length_range] at hlen
  have key : ∀ i < metaInfo.numPieces, ∃ piece, pieces[i]? = some piece ∧
      (PieceShape metaInfo total i piece ∧ piece.isCompleted = false ∧
        ∀ b ∈ piece.blocks, b.isCompleted = false) ∧
      (i + 1 = metaInfo.numPieces → i * metaInfo.pieceLength < total ∧
        total ≤ (i + 1) * metaInfo.pieceLength) := by
    intro i hi
    obtain ⟨piece, hp, hf⟩ := hget i i (by simp [List.getElem?_range hi])
    obtain ⟨offset, hoff, hf⟩ := bind_eq_ok.mp hf
    obtain ⟨-, rfl⟩ := checkedMul_eq_ok.mp hoff
    obtain ⟨length, hlength, hf⟩ := bind_eq_ok.mp hf
    obtain ⟨rfl, hlast⟩ := createdLength_spec hlength
    obtain ⟨hash, hhash, hf⟩ := bind_eq_ok.mp hf
    rw [Piece.new_eq] at hf
    cases hf
    refine ⟨_, hp, ⟨⟨hi, rfl, rfl, index_eq_ok.mp hhash, ?_⟩, rfl, ?_⟩, hlast⟩
    · simp [Block.new, Function.comp_def]
    · intro b hb
      obtain ⟨shape, -, rfl⟩ := List.mem_map.mp hb
      rfl
  refine ⟨⟨fun i hi => ?_, fun i hi => ?_⟩, hlen, fun i piece hp => ?_⟩
  · obtain ⟨_, -, -, hlast⟩ := key i (by omega)
    exact (hlast hi).1
  · obtain ⟨_, -, -, hlast⟩ := key i (by omega)
    exact (hlast hi).2
  · have hi : i < pieces.length := (List.getElem?_eq_some_iff.mp hp).1
    obtain ⟨piece', hp', hspec, -⟩ := key i (by omega)
    obtain rfl := Option.some.inj (hp.symm.trans hp')
    exact hspec

@[simp] theorem length_setLen (file : Bytes) (length : ℕ) : (setLen file length).length = length := by
  simp only [setLen, List.length_take, List.length_append, List.length_replicate]
  omega

theorem setLen_nil (length : ℕ) : setLen [] length = List.replicate length 0 := by
  simp [setLen]

private theorem createFilesLoop_spec {disk : String → Bytes} {fileOffset : ℕ}
    {fileInfos : List (ℕ × String)} {fileOffsets : List ℕ} {filePaths : List String}
    {files : List Bytes}
    (h : createFilesLoop disk fileOffset fileInfos = .ok (fileOffsets, filePaths, files))
    (hlt : fileOffset < 2 ^ 64) :
    fileOffsets = borders fileOffset (fileInfos.map Prod.fst) ∧
      files = fileInfos.map (fun info => setLen (disk info.2) info.1) ∧
      filePaths = fileInfos.map Prod.snd ∧
      fileOffset + (fileInfos.map Prod.fst).sum < 2 ^ 64 := by
  induction fileInfos generalizing fileOffset fileOffsets filePaths files with
  | nil =>
    cases h
    exact ⟨rfl, rfl, rfl, by simpa using hlt⟩
  | cons info fileInfos ih =>
    obtain ⟨length, filePath⟩ := info
    obtain ⟨next, hnext, h⟩ := bind_eq_ok.mp h
    obtain ⟨hadd, rfl⟩ := checkedAdd_eq_ok.mp hnext
    obtain ⟨⟨offsets, paths, opened⟩, hrest, h⟩ := bind_eq_ok.mp h
    cases h
    obtain ⟨rfl, rfl, rfl, hsum⟩ := ih hrest hadd
    refine ⟨rfl, rfl, rfl, ?_⟩
    simp only [List.map_cons, List.sum_cons]
    omega

/-- The files have the lengths the torrent gives them, and their offsets are the borders
between them. -/
theorem createFiles_spec {disk : String → Bytes} {fileInfos : List (ℕ × String)}
    {fileOffsets : List ℕ} {filePaths : List String} {files : List Bytes}
    (h : createFiles disk fileInfos = .ok (fileOffsets, filePaths, files)) :
    Layout files fileOffsets ∧ files.map List.length = fileInfos.map Prod.fst ∧
      filePaths.length = files.length ∧ filePaths = fileInfos.map Prod.snd := by
  obtain ⟨rfl, rfl, rfl, hsum⟩ := createFilesLoop_spec h (by decide)
  have hlens : (fileInfos.map (fun info => setLen (disk info.2) info.1)).map List.length =
      fileInfos.map Prod.fst := by
    simp [Function.comp_def]
  refine ⟨⟨by rw [hlens], ?_⟩, hlens, by simp, rfl⟩
  rw [List.length_flatten, hlens]
  omega

/-- Every file is created under a temporary name. -/
theorem temp_suffix_createFileInfos {info : Info} {filePath : String}
    (h : filePath ∈ (createFileInfos info).map Prod.snd) :
    ".temp".toList <:+ filePath.toList := by
  cases info with
  | single s =>
    obtain rfl := List.mem_singleton.mp h
    rw [String.toList_append]
    exact List.suffix_append _ _
  | multi m =>
    simp only [createFileInfos, List.map_map, List.mem_map] at h
    obtain ⟨f, -, rfl⟩ := h
    simp only [Function.comp_def]
    rw [String.toList_append]
    exact List.suffix_append _ _

end TorrentClient
