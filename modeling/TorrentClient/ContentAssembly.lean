import TorrentClient.LoopSafety

/-!
# Assembling a content from correct blocks

Messages with correct blocks of a content arrive in any order, with repetitions. The first
block of a piece to arrive completes the piece, so every other block of the piece is
dropped: the content is assembled exactly when the files held those blocks from the start.
No two files share a path, so each is a sequence of bytes of its own.
-/
namespace TorrentClient
open ListRanges TransitionRuns

/-- The fields of a `Piece` message. -/
structure PieceMessage where
  pieceIndex : UInt32
  offset : UInt32
  data : Bytes
  deriving DecidableEq

namespace PieceMessage

def event (m : PieceMessage) : ManagerEvent := .download (.piece m.pieceIndex m.offset m.data)

/-- The block a message is about. -/
def blockIndex (m : PieceMessage) : ℕ := (blockIndexOf m.offset).toNat

/-- The block of a piece that arrives first. -/
def firstBlock (messages : List PieceMessage) (i : ℕ) : Option ℕ :=
  (messages.find? fun m => m.pieceIndex.toNat = i).map blockIndex

theorem firstBlock_snoc (messages : List PieceMessage) (m : PieceMessage) (i : ℕ) :
    firstBlock (messages ++ [m]) i =
      (firstBlock messages i).or (if m.pieceIndex.toNat = i then some m.blockIndex else none) := by
  simp only [firstBlock, List.find?_append, List.find?_singleton]
  cases messages.find? fun m => decide (m.pieceIndex.toNat = i) with
  | some m' => rfl
  | none => by_cases h : m.pieceIndex.toNat = i <;> simp [h]

theorem firstBlock_isSome {messages : List PieceMessage} {m : PieceMessage} (hm : m ∈ messages) :
    (firstBlock messages m.pieceIndex.toNat).isSome := by
  rw [firstBlock, Option.isSome_map, List.find?_isSome]
  exact ⟨m, hm, by simp⟩

end PieceMessage

/-- The hashes of the torrent are those of the pieces of `content`. -/
structure HashesOf (sha1 : Bytes → Sha1) (metaInfo : TorrentMetaInfo) (content : Bytes) : Prop where
  covers : content.length ≤ metaInfo.numPieces * metaInfo.pieceLength
  hash : ∀ i < metaInfo.numPieces, metaInfo.pieces[i]? =
    some (sha1 (slice content (i * metaInfo.pieceLength) metaInfo.pieceLength))

namespace Download
open PieceMessage

variable {sha1 : Bytes → Sha1} {d₀ d d' : Download} {content : Bytes}
  {messages : List PieceMessage} {m : PieceMessage}

/-- The message carries a block of the content at its start and with its length. -/
def CorrectMessage (d₀ : Download) (content : Bytes) (m : PieceMessage) : Prop :=
  ∃ piece block, d₀.pieces[m.pieceIndex.toNat]? = some piece ∧
    piece.blocks[m.blockIndex]? = some block ∧ m.offset.toNat % blockSize = 0 ∧
    m.data = slice content (piece.offset + m.blockIndex * blockSize) block.length.toNat

/-- Correct messages that contain every block of every piece. -/
structure Delivery (d₀ : Download) (content : Bytes) (messages : List PieceMessage) : Prop where
  correct : ∀ m ∈ messages, CorrectMessage d₀ content m
  covering : ∀ (i : ℕ) piece (j : ℕ) block, d₀.pieces[i]? = some piece →
    piece.blocks[j]? = some block → ∃ m ∈ messages, m.pieceIndex.toNat = i ∧ m.blockIndex = j

/-- A torrent of non-empty files with the hashes of a content of its length. -/
structure TorrentOf (sha1 : Bytes → Sha1) (d₀ : Download) (content : Bytes) : Prop where
  files_ne_nil : ∀ file ∈ d₀.files, file ≠ []
  pieceLength_lt : d₀.metaInfo.pieceLength < 2 ^ 32
  length_eq : content.length = d₀.content.length
  hashes : HashesOf sha1 d₀.metaInfo content

/-- The bytes of a block are those of the content where the block was the first of its
piece to arrive, and those of the start otherwise. -/
def blockBytes (d₀ : Download) (content : Bytes) (messages : List PieceMessage) (i j : ℕ)
    (piece : Piece) (block : Block) : Bytes :=
  if firstBlock messages i = some j then
    slice content (piece.offset + j * blockSize) block.length.toNat
  else slice d₀.content (piece.offset + j * blockSize) block.length.toNat

/-- What the loop has made of correct messages. -/
structure Assembled (d₀ : Download) (content : Bytes) (messages : List PieceMessage)
    (d : Download) : Prop where
  wellFormed : d.WellFormed
  metaInfo_eq : d.metaInfo = d₀.metaInfo
  fileOffsets_eq : d.fileOffsets = d₀.fileOffsets
  length_eq : d.content.length = d₀.content.length
  completed : ∀ (i : ℕ) piece, d.pieces[i]? = some piece →
    piece.isCompleted = (firstBlock messages i).isSome
  blocks : ∀ (i : ℕ) piece (j : ℕ) block, d.pieces[i]? = some piece →
    piece.blocks[j]? = some block →
    slice d.content (piece.offset + j * blockSize) block.length.toNat =
      blockBytes d₀ content messages i j piece block

theorem assembled_nil (hd : d₀.WellFormed)
    (hu : ∀ (i : ℕ) piece, d₀.pieces[i]? = some piece → piece.isCompleted = false) :
    Assembled d₀ content [] d₀ where
  wellFormed := hd
  metaInfo_eq := rfl
  fileOffsets_eq := rfl
  length_eq := rfl
  completed := hu
  blocks := fun _ _ _ _ _ _ => rfl

theorem TorrentOf.landsOnBytes (h : TorrentOf sha1 d₀ content) (hd : d₀.WellFormed)
    (hoffsets : d.fileOffsets = d₀.fileOffsets) (piece : Piece) : d.landsOnBytes piece = true :=
  landsOnBytes_of_ne_nil (hoffsets ▸ hd.layout) h.files_ne_nil piece

/-- Pieces of `d` and `d₀` differ in their flags only. -/
theorem Assembled.piece_of_start (h : Assembled d₀ content messages d) (hd : d₀.WellFormed)
    {i : ℕ} {piece₀ : Piece} (hp : d₀.pieces[i]? = some piece₀) :
    ∃ piece, d.pieces[i]? = some piece ∧ piece.offset = piece₀.offset ∧
      piece.length = piece₀.length ∧ piece.hash = piece₀.hash ∧
      piece.blocks.map (fun b => (b.index, b.length)) =
        piece₀.blocks.map (fun b => (b.index, b.length)) :=
  hd.same_piece h.wellFormed h.metaInfo_eq h.length_eq hp

/-- A block that is not the first of its piece is dropped. -/
theorem Assembled.drop (h : Assembled d₀ content messages d) {p : ℕ} {j : ℕ}
    (hp : m.pieceIndex.toNat = p) (hfirst : firstBlock messages p = some j) :
    Assembled d₀ content (messages ++ [m]) d := by
  have hsame : ∀ i, firstBlock (messages ++ [m]) i = firstBlock messages i := by
    intro i
    rw [firstBlock_snoc]
    by_cases hi : m.pieceIndex.toNat = i
    · rw [← hi, hp, hfirst]
      rfl
    · simp [hi]
  refine ⟨h.wellFormed, h.metaInfo_eq, h.fileOffsets_eq, h.length_eq, ?_, ?_⟩
  · intro i piece hpiece
    rw [hsame]
    exact h.completed i piece hpiece
  · intro i piece k block hpiece hblock
    rw [blockBytes, hsame]
    exact h.blocks i piece k block hpiece hblock

/-- The range of another block does not meet the one of the message. -/
theorem other_block_disjoint (hd : d.WellFormed) {p j i k : ℕ} {piece piece' : Piece}
    {block block' : Block} (hp : d.pieces[p]? = some piece) (hb : piece.blocks[j]? = some block)
    (hp' : d.pieces[i]? = some piece') (hb' : piece'.blocks[k]? = some block')
    (hne : i ≠ p ∨ k ≠ j) :
    piece'.offset + k * blockSize + block'.length.toNat ≤ piece.offset + j * blockSize ∨
      piece.offset + j * blockSize + block.length.toNat ≤ piece'.offset + k * blockSize := by
  have hs := hd.shape p piece hp
  have hs' := hd.shape i piece' hp'
  have hin := (hs.block_le hb).2.2
  have hin' := (hs'.block_le hb').2.2
  by_cases hi : i = p
  · subst hi
    obtain rfl := Option.some.inj (hp.symm.trans hp')
    have := hs.block_disjoint hb hb' (by omega)
    omega
  · have := hs.disjoint hs' hd.geometry (Ne.symm hi)
    omega

/-- The first block of a piece completes the piece and is kept. -/
theorem Assembled.accept (h : Assembled d₀ content messages d) {piece : Piece} {block : Block}
    (hp : d.pieces[m.pieceIndex.toNat]? = some piece)
    (hb : piece.blocks[m.blockIndex]? = some block) (hc : piece.isCompleted = false)
    (hdata : m.data =
      slice content (piece.offset + m.blockIndex * blockSize) block.length.toNat)
    (hlen : m.data.length = block.length.toNat) {files : List Bytes} {t : Download}
    (hw : Written d piece m.blockIndex m.data files)
    (hfin : Finished (d.accept m.pieceIndex.toNat m.blockIndex piece files) t)
    (events : List ManagerEvent) :
    Assembled d₀ content (messages ++ [m]) { t with sent := events } := by
  have hwf := h.wellFormed
  have hnone : firstBlock messages m.pieceIndex.toNat = none := by
    have := h.completed _ piece hp
    rw [hc] at this
    exact Option.not_isSome_iff_eq_none.mp (by simp [← this])
  have hcontent : t.content = overwrite d.content (piece.offset + m.blockIndex * blockSize) m.data :=
    (congrArg List.flatten hfin.files_eq).trans hw.flatten_eq
  have hfirst : firstBlock (messages ++ [m]) m.pieceIndex.toNat = some m.blockIndex := by
    rw [firstBlock_snoc, hnone, if_pos rfl]
    rfl
  refine ⟨(hfin.wellFormed (hwf.accept hp hc hw)).withSent _,
    hfin.metaInfo_eq.trans h.metaInfo_eq, hfin.fileOffsets_eq.trans h.fileOffsets_eq, ?_, ?_, ?_⟩
  · refine Eq.trans ?_ h.length_eq
    exact (congrArg List.length hcontent).trans (length_overwrite _ _ _ hw.inside)
  · intro i piece' hp'
    replace hp' : (d.accept _ _ _ files).pieces[i]? = some piece' := hfin.pieces_eq ▸ hp'
    rcases getElem?_modify_eq_some hp' with ⟨rfl, q, hq, rfl⟩ | ⟨hi, hp''⟩
    · rw [hfirst]
      rfl
    · rw [firstBlock_snoc, if_neg hi, Option.or_none]
      exact h.completed i piece' hp''
  · intro i piece' k block' hp' hb'
    replace hp' : (d.accept _ _ _ files).pieces[i]? = some piece' := hfin.pieces_eq ▸ hp'
    refine Eq.trans (congrArg (slice · _ _) hcontent) ?_
    rcases getElem?_modify_eq_some hp' with ⟨rfl, q, hq, rfl⟩ | ⟨hi, hp''⟩
    · obtain rfl := Option.some.inj (hp.symm.trans hq)
      rcases getElem?_modify_eq_some hb' with ⟨rfl, b, hbb, rfl⟩ | ⟨hk, hb''⟩
      · obtain rfl := Option.some.inj (hb.symm.trans hbb)
        have hkept := slice_overwrite_self hw.inside
        rw [blockBytes, if_pos hfirst, hdata]
        rw [hlen, hdata] at hkept
        exact hkept
      · have hdis := other_block_disjoint hwf hp hb hp hb'' (Or.inr (Ne.symm hk))
        rw [← hlen] at hdis
        have hbefore := h.blocks _ piece k block' hp hb''
        rw [blockBytes, hnone, if_neg (Option.some_ne_none _).symm] at hbefore
        rw [blockBytes, hfirst, if_neg (fun heq => hk (Option.some.inj heq))]
        exact (slice_overwrite_disjoint hw.inside hdis).trans hbefore
    · have hdis := other_block_disjoint hwf hp hb hp'' hb' (Or.inl (Ne.symm hi))
      rw [← hlen] at hdis
      rw [blockBytes, firstBlock_snoc, if_neg hi, Option.or_none]
      exact (slice_overwrite_disjoint hw.inside hdis).trans (h.blocks i piece' k block' hp'' hb')

/-- The hash of a piece is the one of its bytes in the content. -/
theorem TorrentOf.hash_eq (h : TorrentOf sha1 d₀ content) (hd : d₀.WellFormed) {i : ℕ}
    {piece : Piece} (hp : d₀.pieces[i]? = some piece) :
    piece.hash = sha1 (slice content piece.offset piece.length.toNat) := by
  have hs := hd.shape i piece hp
  have hspan := hs.length_eq_span hd.geometry h.pieceLength_lt
  have hhash := h.hashes.hash i hs.index_lt
  rw [hs.hash_eq] at hhash
  rw [Option.some.inj hhash, hs.offset_eq, hspan, pieceSpan]
  split_ifs with hlast
  · rfl
  · have hend := hd.geometry.last_end i (by have := hs.index_lt; omega)
    have hlen := h.length_eq
    rw [Nat.add_mul] at hend
    congr 1
    rw [slice, slice, List.take_of_length_le, List.take_of_length_le]
    · rw [List.length_drop]
      omega
    · rw [List.length_drop]
      omega

/-- Writing the only block of a piece makes its bytes those of the content. -/
theorem slice_overwrite_single {piece : Piece} {i : ℕ} {block : Block} {data : Bytes} {j : ℕ}
    (hs : PieceShape d.metaInfo d.content.length i piece) (hb : piece.blocks[j]? = some block)
    (hone : piece.blocks.length = 1)
    (hdata : data = slice content (piece.offset + j * blockSize) block.length.toNat)
    (hlen : data.length = block.length.toNat)
    (hfit : piece.offset + j * blockSize + data.length ≤ d.content.length) :
    slice (overwrite d.content (piece.offset + j * blockSize) data) piece.offset
      piece.length.toNat = slice content piece.offset piece.length.toNat := by
  obtain ⟨rfl, hwhole⟩ := hs.single_block hone hb
  rw [Nat.zero_mul, Nat.add_zero] at *
  rw [← hwhole, ← hlen, slice_overwrite_self hfit, hlen, hdata]

/-- A correct message is handled. -/
theorem TorrentOf.handle_correct (h : TorrentOf sha1 d₀ content) (hd : d₀.WellFormed)
    (ha : Assembled d₀ content messages d) (hm : CorrectMessage d₀ content m) :
    ∃ d', eventStep sha1 d m.event d' ∧ Assembled d₀ content (messages ++ [m]) d' := by
  obtain ⟨piece₀, block₀, hp₀, hb₀, -, hdata⟩ := hm
  obtain ⟨piece, hp, hoffset, hlength, hhash, hshapes⟩ := ha.piece_of_start hd hp₀
  obtain ⟨block, hb, hbl⟩ := exists_block_of_shapes hshapes hb₀
  rw [← hoffset, ← hbl] at hdata
  cases hc : piece.isCompleted with
  | true =>
    have hfirst := ha.completed _ piece hp
    rw [hc] at hfirst
    obtain ⟨j, hj⟩ := Option.isSome_iff_exists.mp hfirst.symm
    exact ⟨d, eventStep_piece_iff.mpr (store_drops sha1 m.data hp hb hc), ha.drop rfl hj⟩
  | false =>
    have hs := ha.wellFormed.shape _ piece hp
    have hin := (hs.block_le hb).2.2
    have hend := hs.end_le ha.wellFormed.geometry
    have hlen : m.data.length = block.length.toNat := by
      rw [hdata, length_slice]
      rw [h.length_eq, ← ha.length_eq]
      omega
    have hfit : piece.offset + m.blockIndex * blockSize + m.data.length ≤ d.content.length := by
      omega
    have hgood : piece.blocks.length = 1 → piece.hash = sha1 (slice
        (overwrite d.content (piece.offset + m.blockIndex * blockSize) m.data)
        piece.offset piece.length.toNat) := by
      intro hone
      rw [slice_overwrite_single hs hb hone hdata hlen hfit, hhash, h.hash_eq hd hp₀, hoffset,
        hlength]
    obtain ⟨files, t, hw, hfin, hstore⟩ := store_accepts sha1 ha.wellFormed hp hb hc hfit hgood
      (h.landsOnBytes hd ha.fileOffsets_eq piece)
    exact ⟨_, eventStep_piece_iff.mpr hstore, ha.accept hp hb hc hdata hlen hw hfin _⟩

/-- The loop handles any sequence of correct messages. -/
theorem TorrentOf.handle_all (h : TorrentOf sha1 d₀ content) (hd : d₀.WellFormed)
    (ha : Assembled d₀ content messages d) (rest : List PieceMessage)
    (hrest : ∀ m ∈ rest, CorrectMessage d₀ content m) :
    ∃ replies d', downloadLoop sha1 (rest.map event) d = .ok replies d' ∧
      Assembled d₀ content (messages ++ rest) d' := by
  induction rest generalizing messages d with
  | nil => exact ⟨[], d, rfl, by rw [List.append_nil]; exact ha⟩
  | cons m rest ih =>
    rw [List.forall_mem_cons] at hrest
    obtain ⟨t, ⟨reply, hreply⟩, hnext⟩ := h.handle_correct hd ha hrest.1
    obtain ⟨replies, d', hloop, hdone⟩ := ih hnext hrest.2
    refine ⟨reply :: replies, d', ?_, by rw [List.append_assoc] at hdone; exact hdone⟩
    rw [List.map_cons, downloadLoop, bind_of_ok hreply, bind_of_ok hloop]
    rfl

/-- Every piece has a block, so a delivery completes it. -/
theorem Assembled.all_completed (ha : Assembled d₀ content messages d)
    (h : TorrentOf sha1 d₀ content) (hd : d₀.WellFormed) (hm : Delivery d₀ content messages) :
    ∀ piece ∈ d.pieces, piece.isCompleted = true := by
  intro piece hmem
  obtain ⟨i, hp⟩ := List.mem_iff_getElem?.mp hmem
  have hs := ha.wellFormed.shape i piece hp
  have hi : i < d₀.pieces.length := by
    rw [hd.length_pieces, ← ha.metaInfo_eq]
    exact hs.index_lt
  have hp₀ := List.getElem?_eq_getElem hi
  have hs₀ := hd.shape i _ hp₀
  have hpos : 0 < (d₀.pieces[i]).length.toNat := by
    rw [hs₀.length_eq_span hd.geometry h.pieceLength_lt, pieceSpan]
    have hpl := hd.geometry.pieceLength_pos hs₀.index_lt
    have hstart := hd.geometry.start_lt hs₀.index_lt
    split_ifs <;> omega
  obtain ⟨block, hb, -⟩ := hs₀.exists_block hpos
  obtain ⟨m, hmem, rfl, -⟩ := hm.covering i _ _ block hp₀ hb
  rw [ha.completed _ piece hp]
  exact firstBlock_isSome hmem

/-- The blocks of all pieces cover the content. -/
theorem TorrentOf.ext_blocks (h : TorrentOf sha1 d₀ content) (hd : d₀.WellFormed) {xs : Bytes}
    (hlen : xs.length = content.length)
    (hblocks : ∀ (i : ℕ) piece (j : ℕ) block, d₀.pieces[i]? = some piece →
      piece.blocks[j]? = some block →
      slice xs (piece.offset + j * blockSize) block.length.toNat =
        slice content (piece.offset + j * blockSize) block.length.toNat) : xs = content := by
  apply List.ext_getElem?
  intro k
  by_cases hk : k < content.length
  · have hcover := h.hashes.covers
    rw [h.length_eq] at hk hcover
    obtain ⟨i, hi, hlow, hhigh⟩ := Geometry.exists_piece hcover hk
    rw [← hd.length_pieces] at hi
    have hp := List.getElem?_eq_getElem hi
    have hs := hd.shape i _ hp
    have hspan := hs.length_eq_span hd.geometry h.pieceLength_lt
    have hoffset := hs.offset_eq
    obtain ⟨block, hb, hblow, hbhigh⟩ := hs.exists_block
      (show k - (d₀.pieces[i]).offset < (d₀.pieces[i]).length.toNat by omega)
    have hslice := hblocks i _ _ block hp hb
    have hget := congrArg
      (·[k - (d₀.pieces[i]).offset - (k - (d₀.pieces[i]).offset) / blockSize * blockSize]?) hslice
    simp only [getElem?_slice] at hget
    rw [if_pos (by omega), if_pos (by omega)] at hget
    have hpos : (d₀.pieces[i]).offset + (k - (d₀.pieces[i]).offset) / blockSize * blockSize +
        (k - (d₀.pieces[i]).offset - (k - (d₀.pieces[i]).offset) / blockSize * blockSize) = k := by
      omega
    rwa [hpos] at hget
  · rw [List.getElem?_eq_none (by omega), List.getElem?_eq_none (by omega)]

/-- Every block that is not the first of its piece to arrive is in the files from the
start. -/
def HeldFromStart (d₀ : Download) (content : Bytes) (messages : List PieceMessage) : Prop :=
  ∀ (i : ℕ) piece (j : ℕ) block, d₀.pieces[i]? = some piece → piece.blocks[j]? = some block →
    firstBlock messages i ≠ some j →
    slice d₀.content (piece.offset + j * blockSize) block.length.toNat =
      slice content (piece.offset + j * blockSize) block.length.toNat

theorem Assembled.content_eq_iff (ha : Assembled d₀ content messages d)
    (h : TorrentOf sha1 d₀ content) (hd : d₀.WellFormed) :
    d.content = content ↔ HeldFromStart d₀ content messages := by
  have hbytes : ∀ (i : ℕ) piece (j : ℕ) block, d₀.pieces[i]? = some piece →
      piece.blocks[j]? = some block →
      slice d.content (piece.offset + j * blockSize) block.length.toNat =
        blockBytes d₀ content messages i j piece block := by
    intro i piece₀ j block₀ hp₀ hb₀
    obtain ⟨piece, hp, hoffset, -, -, hshapes⟩ := ha.piece_of_start hd hp₀
    obtain ⟨block, hb, hbl⟩ := exists_block_of_shapes hshapes hb₀
    have hblock := ha.blocks i piece j block hp hb
    rw [blockBytes, hoffset, hbl] at hblock
    exact hblock
  constructor
  · intro heq i piece j block hp hb hfirst
    have hblock := hbytes i piece j block hp hb
    rw [blockBytes, if_neg hfirst, heq] at hblock
    exact hblock.symm
  · intro hheld
    refine h.ext_blocks hd (ha.length_eq.trans h.length_eq.symm) ?_
    intro i piece j block hp hb
    rw [hbytes i piece j block hp hb, blockBytes]
    split_ifs with hfirst
    · rfl
    · exact hheld i piece j block hp hb hfirst

theorem assembles_of_wellFormed (hd : d₀.WellFormed)
    (hu : ∀ (i : ℕ) piece, d₀.pieces[i]? = some piece → piece.isCompleted = false)
    (h : TorrentOf sha1 d₀ content) (hm : Delivery d₀ content messages) :
    (∃ replies d, downloadLoop sha1 (messages.map event) d₀ = .ok replies d ∧
      (∀ piece ∈ d.pieces, piece.isCompleted = true) ∧ d.files.flatten = content) ↔
    HeldFromStart d₀ content messages := by
  obtain ⟨replies, d, hloop, ha⟩ := h.handle_all hd (assembled_nil hd hu) messages hm.correct
  rw [List.nil_append] at ha
  rw [← ha.content_eq_iff h hd]
  constructor
  · rintro ⟨replies', d', hloop', -, hcontent⟩
    rw [hloop] at hloop'
    cases hloop'
    exact hcontent
  · intro hcontent
    exact ⟨replies, d, hloop, ha.all_completed h hd hm, hcontent⟩

/-- A delivery of correct blocks completes every piece and assembles the content exactly
when the files held every block from the start that is not the first of its piece. -/
theorem delivery_assembles_iff {disk : String → Bytes} {metaInfo : TorrentMetaInfo}
    (hstart : start disk metaInfo = .ok d₀) (h : TorrentOf sha1 d₀ content)
    (hm : Delivery d₀ content messages) :
    (∃ replies d, downloadLoop sha1 (messages.map event) d₀ = .ok replies d ∧
      (∀ piece ∈ d.pieces, piece.isCompleted = true) ∧ d.files.flatten = content) ↔
    HeldFromStart d₀ content messages := by
  obtain ⟨hd, -, -, -, hu⟩ := start_spec hstart
  exact assembles_of_wellFormed hd hu h hm

theorem torrentOf_oneBlock :
    TorrentOf (fun _ => Sha1.replicate 0) oneBlockDownload [7] where
  files_ne_nil := by decide
  pieceLength_lt := by decide
  length_eq := by decide
  hashes := ⟨by decide, by decide⟩

theorem delivery_oneBlock : Delivery oneBlockDownload [7] [⟨0, 0, [7]⟩] where
  correct := by
    intro m hm
    obtain rfl := List.mem_singleton.mp hm
    exact ⟨oneBlockPiece, Block.new 0 1, rfl, rfl, rfl, rfl⟩
  covering := by
    intro i piece j block hp hb
    obtain ⟨hi, rfl⟩ := List.getElem?_eq_some_iff.mp hp
    obtain rfl : i = 0 := Nat.lt_one_iff.mp hi
    obtain ⟨hj, rfl⟩ := List.getElem?_eq_some_iff.mp hb
    obtain rfl : j = 0 := Nat.lt_one_iff.mp hj
    exact ⟨_, List.mem_singleton_self _, rfl, rfl⟩

theorem delivery_assembles_iff_oneBlock :
    (∃ replies d, downloadLoop (fun _ => Sha1.replicate 0)
        ([PieceMessage.mk 0 0 [7]].map event) oneBlockDownload = .ok replies d ∧
      (∀ piece ∈ d.pieces, piece.isCompleted = true) ∧ d.files.flatten = [7]) ↔
    HeldFromStart oneBlockDownload [7] [⟨0, 0, [7]⟩] :=
  delivery_assembles_iff start_oneBlockTorrent torrentOf_oneBlock delivery_oneBlock

/-- Both blocks of a content of ones. -/
def twoBlockMessages : List PieceMessage :=
  [⟨0, 0, List.replicate 16384 1⟩, ⟨0, 16384, [1]⟩]

theorem content_twoBlockDownload :
    twoBlockDownload.content = List.replicate 16385 0 :=
  (List.append_nil _).trans (setLen_nil _)

theorem torrentOf_twoBlock :
    TorrentOf (fun _ => Sha1.replicate 0) twoBlockDownload (List.replicate 16385 1) where
  files_ne_nil := by
    intro file hfile
    obtain rfl := List.mem_singleton.mp hfile
    exact List.ne_nil_of_length_pos (by rw [length_setLen]; decide)
  pieceLength_lt := by decide
  length_eq := by rw [content_twoBlockDownload, List.length_replicate, List.length_replicate]
  hashes := ⟨by rw [List.length_replicate]; decide, by
    intro i hi
    obtain rfl : i = 0 := Nat.lt_one_iff.mp hi
    rfl⟩

theorem delivery_twoBlock :
    Delivery twoBlockDownload (List.replicate 16385 1) twoBlockMessages where
  correct := by
    intro m hm
    simp only [twoBlockMessages, List.mem_cons, List.not_mem_nil, or_false] at hm
    rcases hm with rfl | rfl
    · refine ⟨twoBlockPiece, Block.new 0 16384, rfl, rfl, rfl, ?_⟩
      rw [slice, List.drop_replicate, List.take_replicate]
      rfl
    · refine ⟨twoBlockPiece, Block.new 1 1, rfl, rfl, rfl, ?_⟩
      rw [slice, List.drop_replicate, List.take_replicate]
      rfl
  covering := by
    intro i piece j block hp hb
    obtain ⟨hi, rfl⟩ := List.getElem?_eq_some_iff.mp hp
    obtain rfl : i = 0 := Nat.lt_one_iff.mp hi
    obtain ⟨hj, rfl⟩ := List.getElem?_eq_some_iff.mp hb
    have hj : j < 2 := hj
    obtain rfl | rfl : j = 0 ∨ j = 1 := by omega
    · exact ⟨_, List.mem_cons_self, rfl, rfl⟩
    · exact ⟨_, List.mem_cons_of_mem _ List.mem_cons_self, rfl, rfl⟩

/-- The second block of a piece is dropped and its byte stays zero. -/
theorem second_block_is_lost :
    start (fun _ => []) twoBlockTorrent = .ok twoBlockDownload ∧
    TorrentOf (fun _ => Sha1.replicate 0) twoBlockDownload (List.replicate 16385 1) ∧
    Delivery twoBlockDownload (List.replicate 16385 1) twoBlockMessages ∧
    ¬ ∃ replies d, downloadLoop (fun _ => Sha1.replicate 0) (twoBlockMessages.map event)
        twoBlockDownload = .ok replies d ∧
      (∀ piece ∈ d.pieces, piece.isCompleted = true) ∧
      d.files.flatten = List.replicate 16385 1 := by
  refine ⟨rfl, torrentOf_twoBlock, delivery_twoBlock, ?_⟩
  obtain ⟨hd, -, -, -, hu⟩ := start_spec start_twoBlockTorrent
  rw [assembles_of_wellFormed hd hu torrentOf_twoBlock delivery_twoBlock]
  intro hheld
  have hbyte := hheld 0 twoBlockPiece 1 (Block.new 1 1) rfl rfl (by decide +kernel)
  rw [content_twoBlockDownload, slice, slice, List.drop_replicate, List.take_replicate,
    List.drop_replicate, List.take_replicate] at hbyte
  revert hbyte
  decide

end Download
end TorrentClient
