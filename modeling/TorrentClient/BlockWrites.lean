import TorrentClient.LoopSafety

/-!
# The bytes a received block touches

`store` takes the data of a message as it comes: neither the offset nor the length is
compared with the block. A message stays within its block exactly when it is dropped, runs
past the end of the torrent, has the start and the length of the block, or fails the hash
check of a one-block piece without having changed a byte behind it.
-/
namespace TorrentClient
open ListRanges TransitionRuns

namespace Download

variable {sha1 : Bytes → Sha1} {d d' : Download} {pieceIndex offset : UInt32} {data : Bytes}
  {piece : Piece} {block : Block}

/-- Where the block that a message addresses starts in the content. -/
def blockStart (piece : Piece) (offset : UInt32) : ℕ :=
  piece.offset + (blockIndexOf offset).toNat * blockSize

/-- The message carries a block as a whole. -/
def CarriesBlock (offset : UInt32) (data : Bytes) (block : Block) : Prop :=
  offset.toNat % blockSize = 0 ∧ data.length = block.length.toNat

/-- From `d` to `d'` the message changed no byte outside its block and none of a completed
piece, and it flagged the block only if it carries it. -/
structure Confined (d d' : Download) (pieceIndex offset : UInt32) (data : Bytes)
    (piece : Piece) (block : Block) : Prop where
  bytes : EqualOutside d.content d'.content (blockStart piece offset) block.length.toNat
  flag : ∀ piece' block', d'.pieces[pieceIndex.toNat]? = some piece' →
    piece'.blocks[(blockIndexOf offset).toNat]? = some block' → block.isCompleted = false →
    block'.isCompleted = true → CarriesBlock offset data block
  completed : ∀ (i : ℕ) q, d.pieces[i]? = some q → q.isCompleted = true →
    slice d'.content q.offset q.length.toNat = slice d.content q.offset q.length.toNat

/-- The content after the data of the message was written. -/
def overwritten (d : Download) (piece : Piece) (offset : UInt32) (data : Bytes) : Bytes :=
  overwrite d.content (blockStart piece offset) data

/-- The message is dropped, does not fit in the torrent, carries its block, or is rejected
without having changed a byte behind its block. -/
def Harmless (sha1 : Bytes → Sha1) (d : Download) (offset : UInt32) (data : Bytes)
    (piece : Piece) (block : Block) : Prop :=
  piece.isCompleted = true ∨ d.content.length < blockStart piece offset + data.length ∨
    CarriesBlock offset data block ∨
    (piece.blocks.length = 1 ∧
      piece.hash ≠ sha1 (slice (d.overwritten piece offset data) piece.offset piece.length.toNat) ∧
      slice d.content (blockStart piece offset + block.length.toNat)
        (data.length - block.length.toNat) = data.drop block.length.toNat)

/-- What handling a block of the torrent does to the bytes and the flags. -/
inductive BlockCase (sha1 : Bytes → Sha1) (d : Download) (pieceIndex offset : UInt32)
    (data : Bytes) (piece : Piece) : Download → Prop where
  | unchanged (hwhy : piece.isCompleted = true ∨
      d.content.length < blockStart piece offset + data.length) :
      BlockCase sha1 d pieceIndex offset data piece d
  | rejected {d' : Download} (hc : piece.isCompleted = false)
      (hfit : blockStart piece offset + data.length ≤ d.content.length)
      (hcontent : d'.content = d.overwritten piece offset data) (hpieces : d'.pieces = d.pieces)
      (hone : piece.blocks.length = 1) (hbad : piece.hash ≠
        sha1 (slice (d.overwritten piece offset data) piece.offset piece.length.toNat)) :
      BlockCase sha1 d pieceIndex offset data piece d'
  | flagged {d' : Download} (hc : piece.isCompleted = false)
      (hfit : blockStart piece offset + data.length ≤ d.content.length)
      (hcontent : d'.content = d.overwritten piece offset data)
      (hpieces : d'.pieces = d.pieces.modify pieceIndex.toNat fun p =>
        { p.completeBlock (blockIndexOf offset).toNat with isCompleted := true })
      (hgood : piece.blocks.length = 1 → piece.hash =
        sha1 (slice (d.overwritten piece offset data) piece.offset piece.length.toNat)) :
      BlockCase sha1 d pieceIndex offset data piece d'

theorem block_cases (sha1 : Bytes → Sha1) (hd : d.WellFormed) (data : Bytes)
    (hp : d.pieces[pieceIndex.toNat]? = some piece)
    (hb : piece.blocks[(blockIndexOf offset).toNat]? = some block) :
    BlockCase sha1 d pieceIndex offset data piece
      (handled sha1 d (.download (.piece pieceIndex offset data))) := by
  have hcase := store_cases sha1 hd pieceIndex (blockIndexOf offset) data
  rw [handled_piece]
  generalize store sha1 pieceIndex (blockIndexOf offset) data d = result at hcase
  cases hcase with
  | noPiece hp' =>
    rw [hp] at hp'
    cases hp'
  | noBlock hp' hb' =>
    obtain rfl := Option.some.inj (hp.symm.trans hp')
    rw [hb] at hb'
    cases hb'
  | dropped hp' _ hc =>
    obtain rfl := Option.some.inj (hp.symm.trans hp')
    exact .unchanged (Or.inl hc)
  | pastEnd hp' _ _ hover =>
    obtain rfl := Option.some.inj (hp.symm.trans hp')
    exact .unchanged (Or.inr hover)
  | rejected hp' _ hc hw hone hbad =>
    obtain rfl := Option.some.inj (hp.symm.trans hp')
    rw [hw.flatten_eq] at hbad
    exact .rejected hc hw.inside hw.flatten_eq rfl hone hbad
  | accepted hp' _ hc hw hgood _ hfin =>
    obtain rfl := Option.some.inj (hp.symm.trans hp')
    rw [hw.flatten_eq] at hgood
    refine .flagged hc hw.inside ?_ hfin.pieces_eq hgood
    exact (congrArg List.flatten hfin.files_eq).trans hw.flatten_eq
  | stuck hp' _ hc hw hgood _ =>
    obtain rfl := Option.some.inj (hp.symm.trans hp')
    rw [hw.flatten_eq] at hgood
    exact .flagged hc hw.inside hw.flatten_eq rfl hgood

/-- The block that a message addresses lies in its piece, and the piece in the content. -/
theorem blockStart_le (hd : d.WellFormed) (hp : d.pieces[pieceIndex.toNat]? = some piece)
    (hb : piece.blocks[(blockIndexOf offset).toNat]? = some block) :
    piece.offset ≤ blockStart piece offset ∧
      blockStart piece offset + block.length.toNat ≤ piece.offset + piece.length.toNat := by
  have hin := ((hd.shape _ piece hp).block_le hb).2.2
  simp only [blockStart]
  omega

/-- A change within a block of a piece that is not completed leaves the completed pieces
as they are. -/
theorem completed_unchanged (hd : d.WellFormed) (hp : d.pieces[pieceIndex.toNat]? = some piece)
    (hb : piece.blocks[(blockIndexOf offset).toNat]? = some block)
    (hc : piece.isCompleted = false) {content : Bytes}
    (hbytes : EqualOutside d.content content (blockStart piece offset) block.length.toNat)
    {i : ℕ} {q : Piece} (hq : d.pieces[i]? = some q) (hqc : q.isCompleted = true) :
    slice content q.offset q.length.toNat = slice d.content q.offset q.length.toNat := by
  have hne : i ≠ pieceIndex.toNat := by
    intro heq
    rw [heq, hp] at hq
    obtain rfl := Option.some.inj hq
    rw [hc] at hqc
    cases hqc
  obtain ⟨hlow, hhigh⟩ := blockStart_le hd hp hb
  apply hbytes.slice_eq
  rcases (hd.shape i q hq).disjoint (hd.shape _ piece hp) hd.geometry hne with hdis | hdis
  · left
    omega
  · right
    omega

/-- The block that a message flags carries all of it. -/
theorem carriesBlock_of_flagged (hp : d.pieces[pieceIndex.toNat]? = some piece)
    (hb : piece.blocks[(blockIndexOf offset).toNat]? = some block)
    (hmissing : block.isCompleted = false)
    (hpieces : d'.pieces = d.pieces.modify pieceIndex.toNat fun p =>
      { p.completeBlock (blockIndexOf offset).toNat with isCompleted := true })
    (h : Confined d d' pieceIndex offset data piece block) : CarriesBlock offset data block := by
  refine h.flag { piece.completeBlock (blockIndexOf offset).toNat with isCompleted := true }
    { block with isCompleted := true } ?_ ?_ hmissing rfl
  · simp [hpieces, hp]
  · simp [Piece.completeBlock, hb]

/-- A message that changes no piece flags no block. -/
theorem Confined.of_pieces_eq (hp : d.pieces[pieceIndex.toNat]? = some piece)
    (hb : piece.blocks[(blockIndexOf offset).toNat]? = some block) (hpieces : d'.pieces = d.pieces)
    (hbytes : EqualOutside d.content d'.content (blockStart piece offset) block.length.toNat)
    (hcompleted : ∀ (i : ℕ) q, d.pieces[i]? = some q → q.isCompleted = true →
      slice d'.content q.offset q.length.toNat = slice d.content q.offset q.length.toNat) :
    Confined d d' pieceIndex offset data piece block := by
  refine ⟨hbytes, ?_, hcompleted⟩
  intro piece' block' hp' hb' hmissing hflag
  rw [hpieces] at hp'
  obtain rfl := Option.some.inj (hp.symm.trans hp')
  obtain rfl := Option.some.inj (hb.symm.trans hb')
  rw [hmissing] at hflag
  cases hflag

/-- A message stays within its block exactly when it is harmless. -/
theorem confined_iff (sha1 : Bytes → Sha1) (hd : d.WellFormed) (data : Bytes)
    (hp : d.pieces[pieceIndex.toNat]? = some piece)
    (hb : piece.blocks[(blockIndexOf offset).toNat]? = some block) :
    Confined d (handled sha1 d (.download (.piece pieceIndex offset data)))
        pieceIndex offset data piece block ↔
      Harmless sha1 d offset data piece block := by
  have hcase := block_cases sha1 hd data hp hb
  generalize handled sha1 d (.download (.piece pieceIndex offset data)) = d' at hcase
  cases hcase with
  | unchanged hwhy =>
    constructor
    · intro _
      rcases hwhy with hc | hover
      · exact Or.inl hc
      · exact Or.inr (Or.inl hover)
    · intro _
      exact .of_pieces_eq hp hb rfl (EqualOutside.refl _ _ _) fun _ _ _ _ => rfl
  | rejected hc hfit hcontent hpieces hone hbad =>
    have hbytes := equalOutside_overwrite_iff block.length.toNat hfit
    rw [← overwritten, ← hcontent] at hbytes
    constructor
    · intro h
      exact Or.inr (Or.inr (Or.inr ⟨hone, hbad, hbytes.mp h.bytes⟩))
    · intro h
      have hdrop : slice d.content (blockStart piece offset + block.length.toNat)
          (data.length - block.length.toNat) = data.drop block.length.toNat := by
        rcases h with h | h | h | h
        · rw [hc] at h
          cases h
        · omega
        · simp [h.2]
        · exact h.2.2
      exact .of_pieces_eq hp hb hpieces (hbytes.mpr hdrop) fun i q =>
        completed_unchanged hd hp hb hc (hbytes.mpr hdrop)
  | flagged hc hfit hcontent hpieces hgood =>
    have hmissing := hd.unstarted _ piece hp hc block (List.mem_of_getElem? hb)
    constructor
    · intro h
      exact Or.inr (Or.inr (Or.inl (carriesBlock_of_flagged hp hb hmissing hpieces h)))
    · intro h
      have hcarries : CarriesBlock offset data block := by
        rcases h with h | h | h | ⟨hone, hbad, -⟩
        · rw [hc] at h
          cases h
        · omega
        · exact h
        · exact absurd (hgood hone) hbad
      have hbytes : EqualOutside d.content d'.content (blockStart piece offset)
          block.length.toNat := by
        rw [hcontent, overwritten, equalOutside_overwrite_iff _ hfit]
        simp [hcarries.2]
      exact ⟨hbytes, fun _ _ _ _ _ _ => hcarries,
        fun i q => completed_unchanged hd hp hb hc hbytes⟩

/-- The completed pieces of `d` are completed in `d'`, with the same bytes. -/
def KeepsCompleted (d d' : Download) : Prop :=
  ∀ (i : ℕ) q, d.pieces[i]? = some q → q.isCompleted = true →
    ∃ q', d'.pieces[i]? = some q' ∧ q'.isCompleted = true ∧ q'.offset = q.offset ∧
      q'.length = q.length ∧
      slice d'.content q.offset q.length.toNat = slice d.content q.offset q.length.toNat

theorem KeepsCompleted.refl (d : Download) : KeepsCompleted d d :=
  fun _ q hq hc => ⟨q, hq, hc, rfl, rfl, rfl⟩

theorem KeepsCompleted.trans {d'' : Download} (h : KeepsCompleted d d')
    (h' : KeepsCompleted d' d'') : KeepsCompleted d d'' := by
  intro i q hq hc
  obtain ⟨q', hq', hc', ho, hl, hs⟩ := h i q hq hc
  obtain ⟨q'', hq'', hc'', ho', hl', hs'⟩ := h' i q' hq' hc'
  rw [ho, hl] at hs'
  exact ⟨q'', hq'', hc'', ho'.trans ho, hl'.trans hl, hs'.trans hs⟩

/-- The event is no block, or a harmless one. -/
def HarmlessEvent (sha1 : Bytes → Sha1) (d : Download) : ManagerEvent → Prop
  | .download (.piece pieceIndex offset data) =>
    ∀ piece block, d.pieces[pieceIndex.toNat]? = some piece →
      piece.blocks[(blockIndexOf offset).toNat]? = some block →
      Harmless sha1 d offset data piece block
  | _ => True

theorem keepsCompleted_of_confined (hd : d.WellFormed)
    (hp : d.pieces[pieceIndex.toNat]? = some piece)
    (hb : piece.blocks[(blockIndexOf offset).toNat]? = some block)
    (h : Confined d (handled sha1 d (.download (.piece pieceIndex offset data)))
      pieceIndex offset data piece block) :
    KeepsCompleted d (handled sha1 d (.download (.piece pieceIndex offset data))) := by
  have hcase := block_cases sha1 hd data hp hb
  generalize handled sha1 d (.download (.piece pieceIndex offset data)) = d' at hcase h
  intro i q hq hqc
  have hbytes := h.completed i q hq hqc
  cases hcase with
  | unchanged => exact ⟨q, hq, hqc, rfl, rfl, rfl⟩
  | rejected _ _ _ hpieces => exact ⟨q, by rw [hpieces]; exact hq, hqc, rfl, rfl, hbytes⟩
  | flagged hc _ _ hpieces =>
    have hne : pieceIndex.toNat ≠ i := by
      rintro rfl
      obtain rfl := Option.some.inj (hp.symm.trans hq)
      rw [hc] at hqc
      cases hqc
    refine ⟨q, ?_, hqc, rfl, rfl, hbytes⟩
    rw [hpieces, List.getElem?_modify_ne _ _ hne]
    exact hq

/-- A harmless event leaves the completed pieces as they are. -/
theorem eventStep.keepsCompleted {event : ManagerEvent} (hd : d.WellFormed)
    (h : eventStep sha1 d event d') (hharmless : HarmlessEvent sha1 d event) :
    KeepsCompleted d d' := by
  have hsafe := (eventStep_iff hd event).mp ⟨d', h⟩
  rw [← h.handled_eq]
  cases event with
  | download m =>
    cases m with
    | piece pieceIndex offset data =>
      obtain ⟨piece, block, hp, hb, -⟩ := hsafe
      exact keepsCompleted_of_confined hd hp hb
        ((confined_iff sha1 hd data hp hb).mpr (hharmless piece block hp hb))
    | _ => exact .refl d
  | requireData => rw [handled_of_not_piece sha1 d rfl]; exact .refl d
  | requireIncompleteBlocks => rw [handled_of_not_piece sha1 d rfl]; exact .refl d
  | _ => exact .refl d

/-- In every state of the download loop a message stays within its block exactly when it
is harmless, and a run of harmless messages never changes a completed piece. -/
theorem block_confined_iff {disk : String → Bytes} {metaInfo : TorrentMetaInfo} {d₀ : Download}
    (hstart : start disk metaInfo = .ok d₀) (hreach : Reachable (eventStep sha1) d₀ d) :
    (∀ (pieceIndex offset : UInt32) data piece block,
      d.pieces[pieceIndex.toNat]? = some piece →
      piece.blocks[(blockIndexOf offset).toNat]? = some block →
      (Confined d (handled sha1 d (.download (.piece pieceIndex offset data)))
          pieceIndex offset data piece block ↔
        Harmless sha1 d offset data piece block)) ∧
    ∀ trace d', Run (eventStep sha1) d trace d' →
      (∀ x ∈ trace, HarmlessEvent sha1 x.before x.label) → KeepsCompleted d d' := by
  have hd := wellFormed_of_reachable hstart hreach
  constructor
  · intro pieceIndex offset data piece block hp hb
    exact confined_iff sha1 hd data hp hb
  · intro trace d' run hharmless
    refine run.relate KeepsCompleted.refl (fun _ _ _ => KeepsCompleted.trans) ?_
    intro x hx hstep
    have hbefore := (run.reachable_before hx).invariant hd fun _ _ _ h hs => hs.wellFormed h
    exact hstep.keepsCompleted hbefore (hharmless x hx)

theorem block_confined_iff_start :
    (∀ (pieceIndex offset : UInt32) data piece block,
      oneBlockDownload.pieces[pieceIndex.toNat]? = some piece →
      piece.blocks[(blockIndexOf offset).toNat]? = some block →
      (Confined oneBlockDownload (handled (fun _ => Sha1.replicate 0) oneBlockDownload
          (.download (.piece pieceIndex offset data))) pieceIndex offset data piece block ↔
        Harmless (fun _ => Sha1.replicate 0) oneBlockDownload offset data piece block)) ∧
    ∀ trace d', Run (eventStep fun _ => Sha1.replicate 0) oneBlockDownload trace d' →
      (∀ x ∈ trace, HarmlessEvent (fun _ => Sha1.replicate 0) x.before x.label) →
      KeepsCompleted oneBlockDownload d' :=
  block_confined_iff start_oneBlockTorrent .refl

/-- A torrent of two pieces of four bytes. -/
def twoPieceTorrent : TorrentMetaInfo :=
  .singleFile "f" 8 4 [Sha1.replicate 0, Sha1.replicate 0]

def fourBytePiece (offset : ℕ) : Piece := ⟨4, offset, Sha1.replicate 0, [Block.new 0 4], false⟩

def twoPieceDownload : Download where
  metaInfo := twoPieceTorrent
  pieces := [fourBytePiece 0, fourBytePiece 4]
  filePaths := ["downloads/f.temp"]
  files := [setLen [] 8]
  fileOffsets := [0, 8]
  sent := []
  checks := []

theorem start_twoPieceTorrent :
    start (fun _ => []) twoPieceTorrent = .ok twoPieceDownload := rfl

/-- The download of `twoPieceTorrent` after its second piece has come. -/
def secondPieceDownload : Download :=
  handled (fun _ => Sha1.replicate 0) twoPieceDownload (.download (.piece 1 0 [1, 2, 3, 4]))

theorem reachable_secondPieceDownload :
    Reachable (eventStep fun _ => Sha1.replicate 0) twoPieceDownload secondPieceDownload := by
  have hsafe : SafeEvent (fun _ => Sha1.replicate 0) twoPieceDownload
      (.download (.piece 1 0 [1, 2, 3, 4])) :=
    ⟨fourBytePiece 4, Block.new 0 4, rfl, rfl, Or.inr ⟨by decide, Or.inl (by decide +kernel)⟩⟩
  obtain ⟨d, hstep⟩ := (eventStep_iff (start_spec start_twoPieceTorrent).1 _).mpr hsafe
  rw [secondPieceDownload, hstep.handled_eq]
  exact Reachable.refl.tail hstep

/-- Eight bytes sent for the first piece overwrite the second one, which is completed. -/
theorem long_block_overwrites_next_piece :
    start (fun _ => []) twoPieceTorrent = .ok twoPieceDownload ∧
    Reachable (eventStep fun _ => Sha1.replicate 0) twoPieceDownload secondPieceDownload ∧
    secondPieceDownload.pieces[(0 : UInt32).toNat]? = some (fourBytePiece 0) ∧
    ¬ Confined secondPieceDownload (handled (fun _ => Sha1.replicate 0) secondPieceDownload
      (.download (.piece 0 0 (List.replicate 8 9)))) 0 0 (List.replicate 8 9) (fourBytePiece 0)
      (Block.new 0 4) := by
  refine ⟨rfl, reachable_secondPieceDownload, by decide +kernel, fun h => ?_⟩
  have hdone := h.completed 1 { (fourBytePiece 4).completeBlock 0 with isCompleted := true }
    (by decide +kernel) rfl
  revert hdone
  decide +kernel

end Download
end TorrentClient
