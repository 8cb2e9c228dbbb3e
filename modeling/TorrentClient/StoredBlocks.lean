import TorrentClient.FileRenames

/-!
# What one stored block does

`Download.store_cases` says everything a call of `store` can do to a well-formed state, so
no later proof looks into `store` again.
-/
namespace TorrentClient
open ListRanges

namespace Download

variable {d : Download}

/-- The data of a block was written where the block starts. -/
structure Written (d : Download) (piece : Piece) (blockIndex : ℕ) (data : Bytes)
    (files : List Bytes) : Prop where
  inside : piece.offset + blockIndex * blockSize + data.length ≤ d.content.length
  flatten_eq : files.flatten = overwrite d.content (piece.offset + blockIndex * blockSize) data
  lengths_eq : files.map List.length = d.files.map List.length

theorem Written.length_eq {piece : Piece} {blockIndex : ℕ} {data : Bytes} {files : List Bytes}
    (h : Written d piece blockIndex data files) : files.flatten.length = d.content.length := by
  rw [h.flatten_eq, length_overwrite _ _ _ h.inside]

/-- The state after a block was accepted: its piece is flagged, and a piece of one block
was checked before. -/
def accept (d : Download) (pieceIndex blockIndex : ℕ) (piece : Piece) (files : List Bytes) :
    Download :=
  { d with
    files
    pieces := d.pieces.modify pieceIndex fun p =>
      { p.completeBlock blockIndex with isCompleted := true }
    checks :=
      if piece.blocks.length = 1 then
        d.checks ++
          [HashCheck.mk pieceIndex (slice files.flatten piece.offset piece.length.toNat) true]
      else d.checks }

/-- The state after the hash of a piece did not match: only the bytes are there. -/
def reject (d : Download) (pieceIndex : ℕ) (piece : Piece) (files : List Bytes) : Download :=
  { d with
    files
    checks := d.checks ++
      [HashCheck.mk pieceIndex (slice files.flatten piece.offset piece.length.toNat) false] }

/-- Changing the flags of one piece and the bytes of the files keeps the invariant, where
the flags of the new piece do. -/
theorem WellFormed.update (hd : d.WellFormed) {files : List Bytes} {pieces : List Piece}
    (hfiles : files.map List.length = d.files.map List.length)
    (hlen : pieces.length = d.pieces.length) (checks : List HashCheck)
    (hpieces : ∀ (i : ℕ) piece', pieces[i]? = some piece' → ∃ piece, d.pieces[i]? = some piece ∧
      piece'.length = piece.length ∧ piece'.offset = piece.offset ∧ piece'.hash = piece.hash ∧
      piece'.blocks.map (fun b => (b.index, b.length)) =
        piece.blocks.map (fun b => (b.index, b.length)) ∧
      (piece'.isCompleted = false → ∀ b ∈ piece'.blocks, b.isCompleted = false) ∧
      (2 ≤ piece'.blocks.length → ∃ b ∈ piece'.blocks, b.isCompleted = false)) :
    WellFormed { d with files, pieces, checks } := by
  have hcontent : files.flatten.length = d.content.length := by
    rw [content, List.length_flatten, List.length_flatten, hfiles]
  have hcount : files.length = d.files.length := by
    simpa using congrArg List.length hfiles
  refine ⟨⟨?_, ?_⟩, ?_, hlen.trans hd.length_pieces, ?_, ?_, ?_, ?_⟩
  · rw [hfiles]
    exact hd.layout.offsets_eq
  · rw [hcontent]
    exact hd.layout.total_lt
  · rw [content, hcontent]
    exact hd.geometry
  · intro i piece' hp'
    obtain ⟨piece, hp, hl, ho, hh, hs, -⟩ := hpieces i piece' hp'
    have hshape := hd.shape i piece hp
    rw [content, hcontent]
    exact ⟨hshape.index_lt, ho.trans hshape.offset_eq, hl.trans hshape.length_eq,
      by rw [hh]; exact hshape.hash_eq, by rw [hs, hl]; exact hshape.blocks_eq⟩
  · rw [hcount]
    exact hd.length_paths
  · intro i piece' hp'
    obtain ⟨_, -, -, -, -, -, hu, -⟩ := hpieces i piece' hp'
    exact hu
  · intro i piece' hp'
    obtain ⟨_, -, -, -, -, -, -, hg⟩ := hpieces i piece' hp'
    exact hg

theorem WellFormed.reject (hd : d.WellFormed) {piece : Piece} {blockIndex : ℕ} {data : Bytes}
    {files : List Bytes} (hw : Written d piece blockIndex data files) (pieceIndex : ℕ) :
    (d.reject pieceIndex piece files).WellFormed :=
  hd.update hw.lengths_eq rfl _ fun i piece' hp' =>
    ⟨piece', hp', rfl, rfl, rfl, rfl, hd.unstarted i piece' hp', hd.gap i piece' hp'⟩

theorem WellFormed.accept (hd : d.WellFormed) {pieceIndex blockIndex : ℕ} {piece : Piece}
    {data : Bytes} {files : List Bytes} (hp : d.pieces[pieceIndex]? = some piece)
    (hc : piece.isCompleted = false) (hw : Written d piece blockIndex data files) :
    (d.accept pieceIndex blockIndex piece files).WellFormed := by
  refine hd.update hw.lengths_eq (List.length_modify _ _ _) _ fun i piece' hp' => ?_
  rcases getElem?_modify_eq_some hp' with ⟨rfl, q, hq, rfl⟩ | ⟨-, hp''⟩
  · obtain rfl := Option.some.inj (hp.symm.trans hq)
    refine ⟨piece, hp, rfl, rfl, rfl, piece.shapes_completeBlock blockIndex, by simp, ?_⟩
    intro htwo
    have hlen := congrArg List.length (piece.shapes_completeBlock blockIndex)
    simp only [List.length_map] at hlen
    exact Piece.exists_missing (hd.unstarted _ _ hp hc) (hlen ▸ htwo) blockIndex
  · exact ⟨piece', hp'', rfl, rfl, rfl, rfl, hd.unstarted i piece' hp'', hd.gap i piece' hp''⟩

theorem Written.layout (h : d.WellFormed) {piece : Piece} {blockIndex : ℕ} {data : Bytes}
    {files : List Bytes} (hw : Written d piece blockIndex data files) :
    Layout files d.fileOffsets := by
  refine ⟨?_, ?_⟩
  · rw [hw.lengths_eq]
    exact h.layout.offsets_eq
  · rw [hw.length_eq]
    exact h.layout.total_lt

private theorem modify_modify {α : Type} (xs : List α) (i : ℕ) (f g : α → α) :
    (xs.modify i f).modify i g = xs.modify i (g ∘ f) := by
  apply List.ext_getElem?
  intro k
  simp only [List.getElem?_modify]
  cases xs[k]? with
  | none => rfl
  | some x => by_cases hk : i = k <;> simp [hk]

private theorem modify_eq_self {α : Type} {xs : List α} {i : ℕ} {x : α} {f : α → α}
    (hx : xs[i]? = some x) (hf : f x = x) : xs.modify i f = xs := by
  apply List.ext_getElem?
  intro k
  rw [List.getElem?_modify]
  by_cases hk : i = k
  · subst hk
    simp [hx, hf]
  · simp [hk]

/-- The state in which a block was written but no flag of its piece was decided yet. -/
private def wrote (d : Download) (pieceIndex blockIndex : ℕ) (files : List Bytes) : Download :=
  { d with files, pieces := d.pieces.modify pieceIndex fun p => p.completeBlock blockIndex }

/-- The state after `verify`. -/
private def checked (d : Download) (pieceIndex blockIndex : ℕ) (piece : Piece)
    (files : List Bytes) (valid : Bool) : Download :=
  { d.wrote pieceIndex blockIndex files with
    pieces := (d.wrote pieceIndex blockIndex files).pieces.modify pieceIndex
      fun q => { q with isCompleted := valid }
    checks := d.checks ++
      [HashCheck.mk pieceIndex (slice files.flatten piece.offset piece.length.toNat) valid] }

/-- `verify` compares the hash with the one of the bytes that the files now hold. -/
private theorem verify_wrote {sha1 : Bytes → Sha1} (hd : d.WellFormed) {p j : ℕ} {piece : Piece}
    {data : Bytes} {files : List Bytes} (hp : d.pieces[p]? = some piece)
    (hw : Written d piece j data files) {valid : Bool}
    (hvalid : decide (piece.hash = sha1 (slice files.flatten piece.offset piece.length.toNat)) =
      valid) :
    verify sha1 p (d.wrote p j files) = .ok valid (d.checked p j piece files valid) := by
  have hs := hd.shape p piece hp
  have hlayout := hw.layout hd
  have hp' : (d.wrote p j files).pieces[p]? = some (piece.completeBlock j) := by
    simp [wrote, hp]
  have hstart : piece.offset < files.flatten.length := by
    rw [hw.length_eq, hs.offset_eq]
    exact hd.geometry.start_lt hs.index_lt
  have hend : piece.offset + piece.length.toNat ≤ files.flatten.length := by
    rw [hw.length_eq]
    exact hs.end_le hd.geometry
  obtain ⟨i, hi, -⟩ := hlayout.searchIndex_lands piece.offset
  have hread : read fullRead (d.wrote p j files).files (d.wrote p j files).fileOffsets
      (piece.completeBlock j).offset (piece.completeBlock j).length.toNat =
        .ok (slice files.flatten piece.offset piece.length.toNat) :=
    read_of_le hlayout hi (hlayout.searchIndex_lt hi hstart) hend
  rw [verify, bind_of_ok (get_eq _)]
  simp only [index_of_getElem? hp', bind_of_ok (pureStep_ok _ _), hread]
  rw [show (piece.completeBlock j).hash = piece.hash from rfl, hvalid]
  rfl

/-- Everything a call of `store` can do to a well-formed state. -/
inductive StoreCase (sha1 : Bytes → Sha1) (d : Download) (pieceIndex blockIndex : UInt32)
    (data : Bytes) : EStateM.Result (Fault String) Download Unit → Prop where
  | noPiece (hp : d.pieces[pieceIndex.toNat]? = none) :
      StoreCase sha1 d pieceIndex blockIndex data (.error .panic d)
  | noBlock {piece : Piece} (hp : d.pieces[pieceIndex.toNat]? = some piece)
      (hb : piece.blocks[blockIndex.toNat]? = none) :
      StoreCase sha1 d pieceIndex blockIndex data (.error .panic d)
  | dropped {piece : Piece} {block : Block} (hp : d.pieces[pieceIndex.toNat]? = some piece)
      (hb : piece.blocks[blockIndex.toNat]? = some block) (hc : piece.isCompleted = true) :
      StoreCase sha1 d pieceIndex blockIndex data (.ok () d)
  | pastEnd {piece : Piece} {block : Block} (hp : d.pieces[pieceIndex.toNat]? = some piece)
      (hb : piece.blocks[blockIndex.toNat]? = some block) (hc : piece.isCompleted = false)
      (hover : d.content.length < piece.offset + blockIndex.toNat * blockSize + data.length) :
      StoreCase sha1 d pieceIndex blockIndex data (.error .panic d)
  | rejected {piece : Piece} {block : Block} {files : List Bytes}
      (hp : d.pieces[pieceIndex.toNat]? = some piece)
      (hb : piece.blocks[blockIndex.toNat]? = some block) (hc : piece.isCompleted = false)
      (hw : Written d piece blockIndex.toNat data files) (hone : piece.blocks.length = 1)
      (hbad : piece.hash ≠ sha1 (slice files.flatten piece.offset piece.length.toNat)) :
      StoreCase sha1 d pieceIndex blockIndex data (.ok () (d.reject pieceIndex.toNat piece files))
  | accepted {piece : Piece} {block : Block} {files : List Bytes} {d' : Download}
      (hp : d.pieces[pieceIndex.toNat]? = some piece)
      (hb : piece.blocks[blockIndex.toNat]? = some block) (hc : piece.isCompleted = false)
      (hw : Written d piece blockIndex.toNat data files)
      (hgood : piece.blocks.length = 1 →
        piece.hash = sha1 (slice files.flatten piece.offset piece.length.toNat))
      (hlands : d.landsOnBytes piece = true)
      (hfin : Finished (d.accept pieceIndex.toNat blockIndex.toNat piece files) d') :
      StoreCase sha1 d pieceIndex blockIndex data
        (.ok () { d' with sent := d'.sent ++ d'.notifications pieceIndex blockIndex })
  | stuck {piece : Piece} {block : Block} {files : List Bytes}
      (hp : d.pieces[pieceIndex.toNat]? = some piece)
      (hb : piece.blocks[blockIndex.toNat]? = some block) (hc : piece.isCompleted = false)
      (hw : Written d piece blockIndex.toNat data files)
      (hgood : piece.blocks.length = 1 →
        piece.hash = sha1 (slice files.flatten piece.offset piece.length.toNat))
      (hlands : d.landsOnBytes piece = false) :
      StoreCase sha1 d pieceIndex blockIndex data
        (.error .panic (d.accept pieceIndex.toNat blockIndex.toNat piece files))

/-- The end of `store` from a state that becomes `a` when the piece is flagged. -/
private theorem completePiece_cases {e a : Download} {pieceIndex : UInt32} (blockIndex : UInt32)
    {piece : Piece}
    (ha : e.modifyPiece pieceIndex.toNat (fun q => { q with isCompleted := true }) = a)
    (hwf : a.WellFormed) (hp : a.pieces[pieceIndex.toNat]? = some piece)
    (hc : piece.isCompleted = true) :
    (a.landsOnBytes piece = true → ∃ d', Finished a d' ∧
      completePiece pieceIndex blockIndex e =
        .ok () { d' with sent := d'.sent ++ d'.notifications pieceIndex blockIndex }) ∧
    (a.landsOnBytes piece = false →
      completePiece pieceIndex blockIndex e = .error .panic a) := by
  have hflag : (modify fun d : Download => d.modifyPiece pieceIndex.toNat
      fun q => { q with isCompleted := true } : DownloadM Unit) e = .ok () a := by
    rw [← ha]
    rfl
  constructor
  · intro hlands
    obtain ⟨d', hd', hfin⟩ := verifyFile_finished hwf hp hlands
    refine ⟨d', hfin, ?_⟩
    rw [completePiece, bind_of_ok hflag, bind_of_ok hd']
    exact notify_eq blockIndex (by rw [hfin.pieces_eq]; exact hp) hc
  · intro hlands
    rw [completePiece, bind_of_ok hflag, bind_of_error (verifyFile_panics hwf hp hlands)]

/-- Flagging the piece after a block was written, and maybe checked, accepts the block. -/
private theorem flag_wrote (d : Download) (p j : ℕ) (piece : Piece) (files : List Bytes) :
    (piece.blocks.length ≠ 1 →
      (d.wrote p j files).modifyPiece p (fun q => { q with isCompleted := true }) =
        d.accept p j piece files) ∧
    (piece.blocks.length = 1 →
      (d.checked p j piece files true).modifyPiece p (fun q => { q with isCompleted := true }) =
        d.accept p j piece files) := by
  constructor
  · intro hne
    simp [modifyPiece, wrote, accept, modify_modify, hne, Function.comp_def]
  · intro hone
    simp [modifyPiece, checked, wrote, accept, modify_modify, hone, Function.comp_def]

private theorem reset_wrote (hd : d.WellFormed) {p j : ℕ} {piece : Piece} (files : List Bytes)
    (hp : d.pieces[p]? = some piece) (hc : piece.isCompleted = false) :
    (d.checked p j piece files false).modifyPiece p Piece.resetBlocks = d.reject p piece files := by
  have hself : d.pieces.modify p (Piece.resetBlocks ∘ (fun q => { q with isCompleted := false }) ∘
      fun q => q.completeBlock j) = d.pieces :=
    modify_eq_self hp (Piece.reset_completeBlock (hd.unstarted p piece hp hc) hc j)
  simp only [modifyPiece, checked, wrote, reject, modify_modify, hself]

/-- The end of `store` for a block that is accepted. -/
private theorem completePiece_accepts {sha1 : Bytes → Sha1} (hd : d.WellFormed)
    {pieceIndex blockIndex : UInt32} {data : Bytes} {piece : Piece} {block : Block}
    {files : List Bytes} {e : Download} (hp : d.pieces[pieceIndex.toNat]? = some piece)
    (hb : piece.blocks[blockIndex.toNat]? = some block) (hc : piece.isCompleted = false)
    (hw : Written d piece blockIndex.toNat data files)
    (hgood : piece.blocks.length = 1 →
      piece.hash = sha1 (slice files.flatten piece.offset piece.length.toNat))
    (he : e.modifyPiece pieceIndex.toNat (fun q => { q with isCompleted := true }) =
      d.accept pieceIndex.toNat blockIndex.toNat piece files) :
    StoreCase sha1 d pieceIndex blockIndex data (completePiece pieceIndex blockIndex e) := by
  have hflagged : (d.accept pieceIndex.toNat blockIndex.toNat piece files).pieces[
      pieceIndex.toNat]? = some { piece.completeBlock blockIndex.toNat with isCompleted := true } := by
    simp [accept, hp]
  obtain ⟨hok, hpanic⟩ := completePiece_cases blockIndex he (hd.accept hp hc hw) hflagged rfl
  cases hlands : d.landsOnBytes piece with
  | true =>
    obtain ⟨d', hfin, hd'⟩ := hok hlands
    rw [hd']
    exact .accepted hp hb hc hw hgood hlands hfin
  | false =>
    rw [hpanic hlands]
    exact .stuck hp hb hc hw hgood hlands

theorem store_cases (sha1 : Bytes → Sha1) (hd : d.WellFormed) (pieceIndex blockIndex : UInt32)
    (data : Bytes) :
    StoreCase sha1 d pieceIndex blockIndex data (store sha1 pieceIndex blockIndex data d) := by
  cases hp : d.pieces[pieceIndex.toNat]? with
  | none =>
    have hindex : (index d.pieces pieceIndex.toNat : Outcome Piece) = .error .panic := by
      simp [index, hp]
    rw [store, bind_of_ok (get_eq d), hindex, bind_of_error (pureStep_error _ _)]
    exact .noPiece hp
  | some piece =>
  have hs := hd.shape _ piece hp
  rw [store, bind_of_ok (get_eq d), index_of_getElem? hp, bind_of_ok (pureStep_ok _ _)]
  cases hb : piece.blocks[blockIndex.toNat]? with
  | none =>
    have hblock : piece.hasBlock blockIndex = .error .panic := by
      simp [Piece.hasBlock, index, hb]
    rw [hblock, bind_of_error (pureStep_error _ _)]
    exact .noBlock hp hb
  | some block =>
  have hblock : piece.hasBlock blockIndex = .ok block.isCompleted := by
    rw [Piece.hasBlock, index_of_getElem? hb]
    rfl
  rw [hblock, bind_of_ok (pureStep_ok _ _)]
  cases hc : piece.isCompleted with
  | true =>
    rw [Bool.or_true, if_pos rfl]
    exact .dropped hp hb hc
  | false =>
  have hunflagged := hd.unstarted _ piece hp hc
  have hmissing : block.isCompleted = false := hunflagged block (List.mem_of_getElem? hb)
  obtain ⟨h32, hpos, hinside⟩ := hs.block_le hb
  have hend := hs.end_le hd.geometry
  rw [hmissing, Bool.or_false, if_neg Bool.false_ne_true]
  by_cases hfit : piece.offset + blockIndex.toNat * blockSize + data.length ≤ d.content.length
  · obtain ⟨files, hfiles, hflat, hlens⟩ := storeBlock_of_le hd.layout h32
      (show _ < d.content.length by omega) hfit
    have hw : Written d piece blockIndex.toNat data files := ⟨hfit, hflat, hlens⟩
    have hset : ∀ e : Download, (set e : DownloadM Unit) d = .ok () e := fun _ => rfl
    have hj : blockIndex.toNat < piece.blocks.length := (List.getElem?_eq_some_iff.mp hb).1
    obtain ⟨hseveral, hsingle⟩ := flag_wrote d pieceIndex.toNat blockIndex.toNat piece files
    rw [hfiles, bind_of_ok (pureStep_ok _ _), bind_of_ok (hset _),
      Piece.hasAllBlocks_completeBlock hunflagged hj]
    by_cases hone : piece.blocks.length = 1
    · rw [if_pos (decide_eq_true hone)]
      by_cases hgood : piece.hash = sha1 (slice files.flatten piece.offset piece.length.toNat)
      · refine (congrArg _ (bind_of_ok (verify_wrote hd hp hw (decide_eq_true hgood)))).mpr ?_
        exact completePiece_accepts hd hp hb hc hw (fun _ => hgood) (hsingle hone)
      · refine (congrArg _ (bind_of_ok (verify_wrote hd hp hw (decide_eq_false hgood)))).mpr ?_
        have := StoreCase.rejected hp hb hc hw hone hgood
        rw [← reset_wrote (j := blockIndex.toNat) hd files hp hc] at this
        exact this
    · rw [if_neg (by simp [hone])]
      exact completePiece_accepts hd hp hb hc hw (fun h => absurd h hone) (hseveral hone)
  · rw [storeBlock_of_lt hd.layout (Nat.lt_of_not_le hfit), bind_of_error (pureStep_error _ _)]
    exact .pastEnd hp hb hc (Nat.lt_of_not_le hfit)

/-- A block of a completed piece is dropped. -/
theorem store_drops (sha1 : Bytes → Sha1) {pieceIndex blockIndex : UInt32} {piece : Piece}
    {block : Block} (data : Bytes) (hp : d.pieces[pieceIndex.toNat]? = some piece)
    (hb : piece.blocks[blockIndex.toNat]? = some block) (hc : piece.isCompleted = true) :
    store sha1 pieceIndex blockIndex data d = .ok () d := by
  have hblock : piece.hasBlock blockIndex = .ok block.isCompleted := by
    rw [Piece.hasBlock, index_of_getElem? hb]
    rfl
  rw [store, bind_of_ok (get_eq d), index_of_getElem? hp, bind_of_ok (pureStep_ok _ _), hblock,
    bind_of_ok (pureStep_ok _ _), hc, Bool.or_true, if_pos rfl]
  rfl

/-- A block that fits, and that does not fail the check of its piece, is accepted. -/
theorem store_accepts (sha1 : Bytes → Sha1) (hd : d.WellFormed) {pieceIndex blockIndex : UInt32}
    {data : Bytes} {piece : Piece} {block : Block} (hp : d.pieces[pieceIndex.toNat]? = some piece)
    (hb : piece.blocks[blockIndex.toNat]? = some block) (hc : piece.isCompleted = false)
    (hfit : piece.offset + blockIndex.toNat * blockSize + data.length ≤ d.content.length)
    (hgood : piece.blocks.length = 1 → piece.hash = sha1 (slice
      (overwrite d.content (piece.offset + blockIndex.toNat * blockSize) data)
      piece.offset piece.length.toNat))
    (hlands : d.landsOnBytes piece = true) :
    ∃ files d', Written d piece blockIndex.toNat data files ∧
      Finished (d.accept pieceIndex.toNat blockIndex.toNat piece files) d' ∧
      store sha1 pieceIndex blockIndex data d =
        .ok () { d' with sent := d'.sent ++ d'.notifications pieceIndex blockIndex } := by
  have hcase := store_cases sha1 hd pieceIndex blockIndex data
  generalize store sha1 pieceIndex blockIndex data d = result at hcase
  cases hcase with
  | noPiece hp' =>
    rw [hp] at hp'
    cases hp'
  | noBlock hp' hb' =>
    obtain rfl := Option.some.inj (hp.symm.trans hp')
    rw [hb] at hb'
    cases hb'
  | dropped hp' hb' hc' =>
    obtain rfl := Option.some.inj (hp.symm.trans hp')
    rw [hc] at hc'
    cases hc'
  | pastEnd hp' hb' hc' hover =>
    obtain rfl := Option.some.inj (hp.symm.trans hp')
    omega
  | rejected hp' hb' hc' hw hone hbad =>
    obtain rfl := Option.some.inj (hp.symm.trans hp')
    rw [hw.flatten_eq] at hbad
    exact absurd (hgood hone) hbad
  | accepted hp' hb' hc' hw _ _ hfin =>
    obtain rfl := Option.some.inj (hp.symm.trans hp')
    exact ⟨_, _, hw, hfin, rfl⟩
  | stuck hp' hb' hc' hw _ hpanic =>
    obtain rfl := Option.some.inj (hp.symm.trans hp')
    rw [hlands] at hpanic
    cases hpanic

end Download
end TorrentClient
