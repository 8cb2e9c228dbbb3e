import TorrentClient.DownloadEvents

/-!
# The blocks a download still reports

`incomplete_blocks_for_piece` reports the missing blocks of a piece. An event never makes it
report a block again, a block that passes the check of its piece ends the reports for the
piece, and the completion of a block is announced only when its piece is completed.
-/
namespace TorrentClient
open ListRanges

namespace Download

variable {sha1 : Bytes → Sha1} {d d' : Download} {event : ManagerEvent}

/-- `incomplete_blocks_for_piece` reports the block. -/
def Reported (d : Download) (pieceIndex blockIndex : UInt32) : Prop :=
  ∃ blocks, reportedBlocks d pieceIndex = .ok blocks ∧ blockIndex ∈ blocks.map Prod.fst

theorem reported_iff {p b : UInt32} : d.Reported p b ↔
    ∃ piece, d.pieces[p.toNat]? = some piece ∧ piece.isCompleted = false ∧
      ∃ block ∈ piece.blocks, block.isCompleted = false ∧ block.index = b := by
  rw [Reported, reportedBlocks]
  cases hp : d.pieces[p.toNat]? with
  | none => simp [index, hp]
  | some piece =>
    rw [index_of_getElem? hp]
    cases hc : piece.isCompleted with
    | true => simp [hc]
    | false => simp [hc, and_assoc]

/-- No piece loses its flag, and the pieces without one are as they were. -/
def OnlyCompletes (d d' : Download) : Prop :=
  ∀ (i : ℕ) piece, d'.pieces[i]? = some piece → piece.isCompleted = false →
    d.pieces[i]? = some piece

theorem OnlyCompletes.reported (h : OnlyCompletes d d') {p b : UInt32} (hr : d'.Reported p b) :
    d.Reported p b := by
  obtain ⟨piece, hp, hc, hblock⟩ := reported_iff.mp hr
  exact reported_iff.mpr ⟨piece, h _ piece hp hc, hc, hblock⟩

theorem not_reported_of_completed {p b : UInt32} {piece : Piece}
    (hp : d.pieces[p.toNat]? = some piece) (hc : piece.isCompleted = true) :
    ¬ d.Reported p b := by
  intro hr
  obtain ⟨piece', hp', hc', -⟩ := reported_iff.mp hr
  obtain rfl := Option.some.inj (hp.symm.trans hp')
  rw [hc] at hc'
  cases hc'

/-- What the download task may announce: a block only with its piece, and no message. -/
def Truthful (d : Download) : IPC → Prop
  | .blockCompleted p _ => ∀ b, ¬ d.Reported p b
  | .message _ => False
  | _ => True

theorem OnlyCompletes.truthful (h : OnlyCompletes d d') {ipc : IPC} (hipc : d.Truthful ipc) :
    d'.Truthful ipc := by
  cases ipc with
  | blockCompleted p b => exact fun b' hr => hipc b' (h.reported hr)
  | message m => exact hipc
  | _ => trivial

def Announced (d : Download) : Prop :=
  ∀ ipc, .broadcast ipc ∈ d.sent → d.Truthful ipc

/-- The state is well formed, is about the torrent of `d₀` and announces what is true. -/
structure Continues (d₀ d : Download) : Prop where
  wellFormed : d.WellFormed
  metaInfo_eq : d.metaInfo = d₀.metaInfo
  length_eq : d.content.length = d₀.content.length
  announced : d.Announced

theorem continues_start {disk : String → Bytes} {metaInfo : TorrentMetaInfo}
    (h : start disk metaInfo = .ok d) : Continues d d := by
  obtain ⟨hd, -, -, hsent, -⟩ := start_spec h
  refine ⟨hd, rfl, rfl, fun ipc hmem => ?_⟩
  rw [hsent] at hmem
  cases hmem

/-- What `store` does to a state when it returns. -/
inductive Stored (sha1 : Bytes → Sha1) (d : Download) (pieceIndex blockIndex : UInt32)
    (data : Bytes) (piece : Piece) : Download → Prop where
  | dropped (hc : piece.isCompleted = true) : Stored sha1 d pieceIndex blockIndex data piece d
  | rejected {files : List Bytes} (hc : piece.isCompleted = false)
      (hw : Written d piece blockIndex.toNat data files) (hone : piece.blocks.length = 1)
      (hbad : piece.hash ≠ sha1 (slice files.flatten piece.offset piece.length.toNat)) :
      Stored sha1 d pieceIndex blockIndex data piece (d.reject pieceIndex.toNat piece files)
  | accepted {files : List Bytes} {d' : Download} (hc : piece.isCompleted = false)
      (hw : Written d piece blockIndex.toNat data files)
      (hfin : Finished (d.accept pieceIndex.toNat blockIndex.toNat piece files) d') :
      Stored sha1 d pieceIndex blockIndex data piece
        { d' with sent := d'.sent ++ d'.notifications pieceIndex blockIndex }

theorem storeStep.stored {call : StoreCall} (hd : d.WellFormed) (h : storeStep sha1 d call d') :
    ∃ piece, d.pieces[call.pieceIndex.toNat]? = some piece ∧
      (∃ block, piece.blocks[call.blockIndex.toNat]? = some block) ∧
      Stored sha1 d call.pieceIndex call.blockIndex call.data piece d' := by
  have hcase := store_cases sha1 hd call.pieceIndex call.blockIndex call.data
  rw [show store sha1 _ _ _ d = _ from h] at hcase
  cases hcase with
  | dropped hp hb hc => exact ⟨_, hp, ⟨_, hb⟩, .dropped hc⟩
  | rejected hp hb hc hw hone hbad => exact ⟨_, hp, ⟨_, hb⟩, .rejected hc hw hone hbad⟩
  | accepted hp hb hc hw _ _ hfin => exact ⟨_, hp, ⟨_, hb⟩, .accepted hc hw hfin⟩

section Stored

variable {pieceIndex blockIndex : UInt32} {data : Bytes} {piece : Piece}

theorem Stored.onlyCompletes (h : Stored sha1 d pieceIndex blockIndex data piece d') :
    OnlyCompletes d d' := by
  intro i q hq hc
  cases h with
  | dropped => exact hq
  | rejected => exact hq
  | accepted _ _ hfin =>
    rw [hfin.pieces_eq] at hq
    rcases getElem?_modify_eq_some hq with ⟨_, q', _, rfl⟩ | ⟨_, hq'⟩
    · cases hc
    · exact hq'

/-- The piece of an accepted block is flagged. -/
theorem accepted_completed {files : List Bytes} {d'' : Download}
    (hp : d.pieces[pieceIndex.toNat]? = some piece)
    (hfin : Finished (d.accept pieceIndex.toNat blockIndex.toNat piece files) d'') :
    ∃ piece', d''.pieces[pieceIndex.toNat]? = some piece' ∧ piece'.isCompleted = true := by
  refine ⟨{ piece.completeBlock blockIndex.toNat with isCompleted := true }, ?_, rfl⟩
  simp [hfin.pieces_eq, accept, hp]

theorem mem_notifications {ipc : IPC}
    (h : .broadcast ipc ∈ d.notifications pieceIndex blockIndex) :
    ipc = .blockCompleted pieceIndex blockIndex ∨ ipc = .pieceCompleted pieceIndex ∨
      ipc = .downloadCompleted := by
  rw [notifications] at h
  split at h
  · simpa using h
  · refine (?_ : _ ∨ _).imp id Or.inl
    simpa using h

theorem Stored.continues {d₀ : Download} (hd : Continues d₀ d)
    (hp : d.pieces[pieceIndex.toNat]? = some piece)
    (h : Stored sha1 d pieceIndex blockIndex data piece d') : Continues d₀ d' := by
  have honly := h.onlyCompletes
  cases h with
  | dropped => exact hd
  | rejected hc hw =>
    exact ⟨hd.wellFormed.reject hw _, hd.metaInfo_eq, hw.length_eq.trans hd.length_eq,
      fun ipc hmem => honly.truthful (hd.announced ipc hmem)⟩
  | @accepted files d'' hc hw hfin =>
    refine ⟨(hfin.wellFormed (hd.wellFormed.accept hp hc hw)).withSent _,
      hfin.metaInfo_eq.trans hd.metaInfo_eq, ?_, ?_⟩
    · refine Eq.trans ?_ (hw.length_eq.trans hd.length_eq)
      exact congrArg (fun files => files.flatten.length) hfin.files_eq
    · intro ipc hmem
      obtain ⟨piece', hp', hc'⟩ := accepted_completed hp hfin
      obtain ⟨renamed, hsent, hrenamed⟩ := hfin.sent
      simp only [hsent, List.mem_append] at hmem
      rcases hmem with (hold | hrename) | hnew
      · exact honly.truthful (hd.announced ipc hold)
      · obtain ⟨i, path, heq⟩ := hrenamed _ hrename
        cases heq
      · rcases mem_notifications hnew with rfl | rfl | rfl
        · exact fun b' => not_reported_of_completed hp' hc'
        · trivial
        · trivial

end Stored

theorem eventStep.piece_or_eq (h : eventStep sha1 d event d') :
    (∃ p off data, event = .download (.piece p off data) ∧
      storeStep sha1 d ⟨p, blockIndexOf off, data⟩ d') ∨
    (isPieceEvent event = false ∧ d' = d) := by
  cases hpiece : isPieceEvent event with
  | false => exact Or.inr ⟨rfl, h.handled_eq.symm.trans (handled_of_not_piece sha1 d hpiece)⟩
  | true =>
    cases event with
    | download m =>
      cases m with
      | piece p off data => exact Or.inl ⟨p, off, data, rfl, eventStep_piece_iff.mp h⟩
      | _ => cases hpiece
    | _ => cases hpiece

theorem eventStep.continues {d₀ : Download} (hd : Continues d₀ d)
    (h : eventStep sha1 d event d') : Continues d₀ d' := by
  rcases h.piece_or_eq with ⟨p, off, data, -, hstore⟩ | ⟨-, rfl⟩
  · obtain ⟨piece, hp, -, hstored⟩ := hstore.stored hd.wellFormed
    exact hstored.continues hd hp
  · exact hd

/-- An event never makes a block reported again. -/
theorem eventStep.onlyCompletes (hd : d.WellFormed) (h : eventStep sha1 d event d') :
    OnlyCompletes d d' := by
  rcases h.piece_or_eq with ⟨p, off, data, -, hstore⟩ | ⟨-, rfl⟩
  · obtain ⟨piece, -, -, hstored⟩ := hstore.stored hd
    exact hstored.onlyCompletes
  · exact fun _ _ hq _ => hq

/-- A block of the piece that has the right length and, where it is the only one, the
right hash. -/
def Completes (sha1 : Bytes → Sha1) (d : Download) (p : UInt32) : Message → Prop
  | .piece pieceIndex offset data => pieceIndex = p ∧ ∃ piece block,
      d.pieces[p.toNat]? = some piece ∧ piece.blocks[(blockIndexOf offset).toNat]? = some block ∧
      data.length = block.length.toNat ∧ (piece.blocks.length = 1 → piece.hash = sha1 data)
  | _ => False

/-- After such a block no block of the piece is reported. -/
theorem eventStep.not_reported {d₀ : Download} {m : Message} {p : UInt32} (hd₀ : d₀.WellFormed)
    (hd : Continues d₀ d) (hm : Completes sha1 d₀ p m) (h : eventStep sha1 d (.download m) d')
    (b : UInt32) : ¬ d'.Reported p b := by
  cases m with
  | piece pieceIndex offset data =>
    obtain ⟨rfl, piece₀, block₀, hp₀, hb₀, hlen, hgood⟩ := hm
    obtain ⟨piece, hp, -, -, hhash, hshapes⟩ :=
      hd₀.same_piece hd.wellFormed hd.metaInfo_eq hd.length_eq hp₀
    obtain ⟨block, hb, hlength⟩ := exists_block_of_shapes hshapes hb₀
    obtain ⟨piece', hp', -, hstored⟩ := (eventStep_piece_iff.mp h).stored hd.wellFormed
    obtain rfl := Option.some.inj (hp.symm.trans hp')
    cases hstored with
    | dropped hc => exact not_reported_of_completed hp hc
    | rejected hc hw hone hbad =>
      have hcount : piece₀.blocks.length = 1 := by
        have := congrArg List.length hshapes
        simp only [List.length_map] at this
        omega
      obtain ⟨hzero, hwhole⟩ := (hd.wellFormed.shape _ _ hp).single_block hone hb
      have hinside := hw.inside
      rw [hw.flatten_eq, hzero, Nat.zero_mul, Nat.add_zero, ← hwhole, hlength, ← hlen,
        slice_overwrite_self (by rw [hzero] at hinside; omega), hhash, hgood hcount] at hbad
      exact absurd rfl hbad
    | accepted hc hw hfin =>
      obtain ⟨piece', hp', hc'⟩ := accepted_completed hp hfin
      exact not_reported_of_completed hp' hc'
  | _ => cases hm

end Download
end TorrentClient
