import TorrentClient.Download
import TorrentClient.DownloadGeometry

/-!
# The invariant of the download task

`Download.WellFormed` says that the pieces lie in the files as `create_pieces` put them
there, and that no block of a piece is flagged before the piece is. Renaming files and the
messages at the end of `store` change neither bytes nor flags.
-/
namespace TorrentClient
open ListRanges

namespace Piece

variable {piece : Piece}

theorem shapes_completeBlock (piece : Piece) (j : ℕ) :
    (piece.completeBlock j).blocks.map (fun b => (b.index, b.length)) =
      piece.blocks.map (fun b => (b.index, b.length)) := by
  apply List.ext_getElem?
  intro k
  simp only [completeBlock, List.getElem?_map, List.getElem?_modify]
  cases piece.blocks[k]? with
  | none => rfl
  | some b => by_cases hk : j = k <;> simp [hk]

/-- In a piece of several blocks, one of them is still missing when the first one is
flagged. -/
theorem exists_missing (hu : ∀ b ∈ piece.blocks, b.isCompleted = false)
    (htwo : 2 ≤ piece.blocks.length) (j : ℕ) :
    ∃ b ∈ (piece.completeBlock j).blocks, b.isCompleted = false := by
  obtain ⟨k, hk, hne⟩ : ∃ k < piece.blocks.length, j ≠ k := by
    by_cases hj : j = 0
    · exact ⟨1, by omega, by omega⟩
    · exact ⟨0, by omega, hj⟩
  refine ⟨piece.blocks[k], List.mem_of_getElem? (?_ : _[k]? = _), hu _ (List.getElem_mem _)⟩
  rw [completeBlock, List.getElem?_modify_ne _ _ hne, List.getElem?_eq_getElem hk]

/-- The first flagged block completes the blocks of a piece only if it is the only one. -/
theorem hasAllBlocks_completeBlock (hu : ∀ b ∈ piece.blocks, b.isCompleted = false) {j : ℕ}
    (hj : j < piece.blocks.length) :
    (piece.completeBlock j).hasAllBlocks = decide (piece.blocks.length = 1) := by
  rw [Bool.eq_iff_iff, decide_eq_true_iff]
  constructor
  · intro hall
    by_contra hne
    obtain ⟨b, hb, hmissing⟩ := exists_missing hu (show 2 ≤ piece.blocks.length by omega) j
    have := List.all_eq_true.mp hall b hb
    rw [hmissing] at this
    cases this
  · intro hone
    obtain rfl : j = 0 := by omega
    obtain ⟨b, hb⟩ := List.length_eq_one_iff.mp hone
    simp [hasAllBlocks, completeBlock, hb]

/-- Resetting the blocks of an unflagged piece undoes the flag of a block. -/
theorem reset_completeBlock (hu : ∀ b ∈ piece.blocks, b.isCompleted = false)
    (hc : piece.isCompleted = false) (j : ℕ) :
    resetBlocks { piece.completeBlock j with isCompleted := false } = piece := by
  obtain ⟨length, offset, hash, blocks, isCompleted⟩ := piece
  obtain rfl : isCompleted = false := hc
  simp only [resetBlocks, completeBlock, mk.injEq, true_and, and_true]
  apply List.ext_getElem?
  intro k
  simp only [List.getElem?_map, List.getElem?_modify]
  cases hk : blocks[k]? with
  | none => rfl
  | some b =>
    have hb := hu b (List.mem_of_getElem? hk)
    obtain ⟨index, length, flag⟩ := b
    obtain rfl : flag = false := hb
    by_cases hjk : j = k <;> simp [hjk]

end Piece

namespace Download

/-- The stored content: the files one after the other. -/
def content (d : Download) : Bytes := d.files.flatten

structure WellFormed (d : Download) : Prop where
  layout : Layout d.files d.fileOffsets
  geometry : Geometry d.metaInfo d.content.length
  length_pieces : d.pieces.length = d.metaInfo.numPieces
  shape : ∀ (i : ℕ) piece, d.pieces[i]? = some piece →
    PieceShape d.metaInfo d.content.length i piece
  length_paths : d.filePaths.length = d.files.length
  /-- a piece that is not flagged has no flagged block -/
  unstarted : ∀ (i : ℕ) piece, d.pieces[i]? = some piece → piece.isCompleted = false →
    ∀ b ∈ piece.blocks, b.isCompleted = false
  /-- a piece of several blocks never has all of them -/
  gap : ∀ (i : ℕ) piece, d.pieces[i]? = some piece → 2 ≤ piece.blocks.length →
    ∃ b ∈ piece.blocks, b.isCompleted = false

/-- A download starts well formed, with nothing completed, checked or sent. -/
theorem start_spec {disk : String → Bytes} {metaInfo : TorrentMetaInfo} {d : Download}
    (h : start disk metaInfo = .ok d) :
    d.WellFormed ∧ d.metaInfo = metaInfo ∧ d.checks = [] ∧ d.sent = [] ∧
      ∀ (i : ℕ) piece, d.pieces[i]? = some piece → piece.isCompleted = false := by
  obtain ⟨⟨fileOffsets, filePaths, files⟩, hfiles, h⟩ := bind_eq_ok.mp h
  obtain ⟨len, hlen, h⟩ := bind_eq_ok.mp h
  obtain ⟨pieces, hpieces, h⟩ := bind_eq_ok.mp h
  cases h
  obtain ⟨hlayout, -, hpaths, -⟩ := createFiles_spec hfiles
  have htotal : len = files.flatten.length := by
    have hlast := hlayout.getElem?_eq (Nat.le_refl files.length)
    rw [List.take_length] at hlast
    rw [hlayout.length_eq, Nat.add_sub_cancel] at hlen
    exact Option.some.inj ((index_eq_ok.mp hlen).symm.trans hlast)
  subst htotal
  obtain ⟨hgeometry, hcount, hshape⟩ := createPieces_spec hpieces
  refine ⟨⟨hlayout, hgeometry, hcount, ?_, hpaths, ?_, ?_⟩, rfl, rfl, rfl, ?_⟩
  · intro i piece hp
    exact (hshape i piece hp).1
  · intro i piece hp _
    exact (hshape i piece hp).2.2
  · intro i piece hp htwo
    have hfirst : 0 < piece.blocks.length := by omega
    exact ⟨piece.blocks[0], List.getElem_mem hfirst, (hshape i piece hp).2.2 _ (List.getElem_mem hfirst)⟩
  · intro i piece hp
    exact (hshape i piece hp).2.1

/-- The search for the start of the piece does not end in an empty file at the start of
the torrent. -/
def landsOnBytes (d : Download) (piece : Piece) : Bool :=
  match searchIndex d.fileOffsets piece.offset with
  | .ok i => d.fileOffsets[i + 1]? != some 0
  | .error _ => true

/-- `d'` is `d` after some files were renamed and some events were sent. -/
structure Finished (d d' : Download) : Prop where
  eq : d' = { d with filePaths := d'.filePaths, sent := d'.sent }
  length_paths : d'.filePaths.length = d.filePaths.length
  sent : ∃ events, d'.sent = d.sent ++ events ∧
    ∀ e ∈ events, ∃ i path, e = .fileFinish i path

namespace Finished

variable {d d' d'' : Download}

theorem refl (d : Download) : Finished d d := ⟨rfl, rfl, [], by simp, by simp⟩

theorem trans (h : Finished d d') (h' : Finished d' d'') : Finished d d'' := by
  obtain ⟨events, hs, he⟩ := h.sent
  obtain ⟨events', hs', he'⟩ := h'.sent
  refine ⟨?_, h'.length_paths.trans h.length_paths, events ++ events', ?_, ?_⟩
  · rw [h'.eq, h.eq]
  · rw [hs', hs, List.append_assoc]
  · intro e hm
    rcases List.mem_append.mp hm with hm | hm
    · exact he e hm
    · exact he' e hm

theorem pieces_eq (h : Finished d d') : d'.pieces = d.pieces := by rw [h.eq]
theorem files_eq (h : Finished d d') : d'.files = d.files := by rw [h.eq]
theorem fileOffsets_eq (h : Finished d d') : d'.fileOffsets = d.fileOffsets := by rw [h.eq]
theorem metaInfo_eq (h : Finished d d') : d'.metaInfo = d.metaInfo := by rw [h.eq]
theorem checks_eq (h : Finished d d') : d'.checks = d.checks := by rw [h.eq]

theorem wellFormed (h : Finished d d') (hd : d.WellFormed) : d'.WellFormed := by
  have hp := h.length_paths
  obtain ⟨hl, hg, hn, hs, hpl, hu, hgap⟩ := hd
  rw [h.eq]
  exact ⟨hl, hg, hn, hs, hp.trans hpl, hu, hgap⟩

end Finished

variable {d : Download}

theorem WellFormed.withSent (hd : d.WellFormed) (events : List ManagerEvent) :
    WellFormed { d with sent := events } := by
  obtain ⟨hl, hg, hn, hs, hpl, hu, hgap⟩ := hd
  exact ⟨hl, hg, hn, hs, hpl, hu, hgap⟩

/-- Two downloads of one torrent differ in the flags of their pieces only. -/
theorem WellFormed.same_piece {d' : Download} (hd : d.WellFormed) (hd' : d'.WellFormed)
    (hm : d'.metaInfo = d.metaInfo) (hc : d'.content.length = d.content.length) {i : ℕ}
    {piece : Piece} (hp : d.pieces[i]? = some piece) :
    ∃ piece', d'.pieces[i]? = some piece' ∧ piece'.offset = piece.offset ∧
      piece'.length = piece.length ∧ piece'.hash = piece.hash ∧
      piece'.blocks.map (fun b => (b.index, b.length)) =
        piece.blocks.map (fun b => (b.index, b.length)) := by
  have hlen : d'.pieces.length = d.pieces.length := by
    rw [hd'.length_pieces, hd.length_pieces, hm]
  have hi : i < d'.pieces.length := hlen ▸ (List.getElem?_eq_some_iff.mp hp).1
  refine ⟨_, List.getElem?_eq_getElem hi, ?_⟩
  have hshape := hd'.shape i _ (List.getElem?_eq_getElem hi)
  rw [hm, hc] at hshape
  exact (hd.shape i piece hp).unique hshape

/-- The block with the same index, which differs in its flag only. -/
theorem exists_block_of_shapes {piece piece₀ : Piece} {j : ℕ} {block₀ : Block}
    (hshapes : piece.blocks.map (fun b => (b.index, b.length)) =
      piece₀.blocks.map (fun b => (b.index, b.length)))
    (hb : piece₀.blocks[j]? = some block₀) :
    ∃ block, piece.blocks[j]? = some block ∧ block.length = block₀.length := by
  have hget := congrArg (·[j]?) hshapes
  simp only [List.getElem?_map, hb, Option.map_some] at hget
  obtain ⟨block, hblock, heq⟩ := Option.map_eq_some_iff.mp hget
  exact ⟨block, hblock, congrArg Prod.snd heq⟩

theorem get_eq (d : Download) : (get : DownloadM Download) d = .ok d d := rfl

/-- What `store` sends once a piece is flagged. -/
def notifications (d : Download) (pieceIndex blockIndex : UInt32) : List ManagerEvent :=
  [.broadcast (.blockCompleted pieceIndex blockIndex), .broadcast (.pieceCompleted pieceIndex)] ++
    if d.isComplete then [.broadcast .downloadCompleted] else []

private theorem broadcast_eq (ipc : IPC) (d : Download) :
    broadcast ipc d = .ok () { d with sent := d.sent ++ [.broadcast ipc] } := rfl

theorem notify_eq {pieceIndex : UInt32} (blockIndex : UInt32) {piece : Piece}
    (hp : d.pieces[pieceIndex.toNat]? = some piece) (hc : piece.isCompleted = true) :
    notify pieceIndex blockIndex d =
      .ok () { d with sent := d.sent ++ d.notifications pieceIndex blockIndex } := by
  have hcomplete : ∀ events, isComplete { d with sent := events } = d.isComplete := fun _ => rfl
  rw [notify, bind_of_ok (broadcast_eq _ _), bind_of_ok (get_eq _)]
  simp only [index_of_getElem? hp, bind_of_ok (pureStep_ok _ _), hc, hcomplete, notifications]
  rw [bind_of_ok ((runIf_true _ _).trans (broadcast_eq _ _))]
  cases d.isComplete with
  | true => simp [broadcast_eq]
  | false => simp

end Download
end TorrentClient
