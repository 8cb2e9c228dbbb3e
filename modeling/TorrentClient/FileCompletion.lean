import TorrentClient.FileVisits
import TorrentClient.StoredBlocks
import Mathlib.Data.List.Nodup

/-!
# When a file loses its temporary name

The pieces of a download become completed one after the other, with one call of `verify_file`
after each. A file is renamed by the call that visits it after the last of its pieces was
completed, so once, if that piece reaches the file, and never otherwise.
-/
namespace TorrentClient
open ListRanges

namespace Download

variable {d d' d₀ : Download}

/-! ### A run -/

/-- A piece is flagged, as at the end of `store`. -/
def flagPiece (d : Download) (p : ℕ) : Download :=
  d.modifyPiece p fun q => { q with isCompleted := true }

/-- Pieces become completed in the given order, with one call of `verify_file` after each. -/
def completePieces : List ℕ → DownloadM Unit
  | [] => return ()
  | p :: order => do
    modify fun d => d.flagPiece p
    verifyFile p
    completePieces order

theorem completePieces_cons (p : ℕ) (order : List ℕ) (d : Download) :
    completePieces (p :: order) d =
      (do verifyFile p; completePieces order : DownloadM Unit) (d.flagPiece p) := rfl

/-- `d` is `d₀` after the given pieces were completed, files were renamed and events sent. -/
structure Flagged (d₀ : Download) (done : List ℕ) (d : Download) : Prop where
  wellFormed : d.WellFormed
  eq : d = { d₀ with pieces := d.pieces, filePaths := d.filePaths, sent := d.sent }
  pieces : ∀ (p : ℕ) piece, d₀.pieces[p]? = some piece →
    d.pieces[p]? = some { piece with isCompleted := decide (p ∈ done) }

namespace Flagged

variable {done : List ℕ}

theorem metaInfo_eq (h : Flagged d₀ done d) : d.metaInfo = d₀.metaInfo := by rw [h.eq]

theorem fileOffsets_eq (h : Flagged d₀ done d) : d.fileOffsets = d₀.fileOffsets := by rw [h.eq]

theorem overlaps_iff (h : Flagged d₀ done d) {p fileIndex : ℕ} :
    d.Overlaps p fileIndex ↔ d₀.Overlaps p fileIndex := by
  rw [h.eq]
  exact Iff.rfl

theorem visitedFiles_eq (h : Flagged d₀ done d) (piece : Piece) (flag : Bool) :
    d.visitedFiles { piece with isCompleted := flag } = d₀.visitedFiles piece := by
  rw [h.eq]
  rfl

theorem visits (h : Flagged d₀ done d) {p fileIndex : ℕ} (hvisits : d₀.Visits p fileIndex) :
    d.Visits p fileIndex := by
  obtain ⟨piece, hp, hmem⟩ := hvisits
  refine ⟨_, h.pieces p piece hp, ?_⟩
  rw [h.visitedFiles_eq]
  exact hmem

theorem havePieces_iff (h : Flagged d₀ done d) (hd₀ : d₀.WellFormed) {q : ℕ}
    (hq : q < d₀.metaInfo.numPieces) : d.havePieces[q]? = some true ↔ q ∈ done := by
  have hpiece := List.getElem?_eq_getElem (hd₀.length_pieces.symm ▸ hq)
  rw [havePieces, List.getElem?_map, h.pieces q _ hpiece]
  simp

theorem landsOnBytes_eq (h : Flagged d₀ done d) (piece : Piece) (flag : Bool) :
    d.landsOnBytes { piece with isCompleted := flag } = d₀.landsOnBytes piece := by
  rw [landsOnBytes, landsOnBytes, h.fileOffsets_eq]

theorem flagPiece (h : Flagged d₀ done d) (p : ℕ) :
    Flagged d₀ (done ++ [p]) (d.flagPiece p) := by
  refine ⟨?_, ?_, ?_⟩
  · refine h.wellFormed.update rfl (List.length_modify _ _ _) d.checks fun i piece' hp' => ?_
    rcases getElem?_modify_eq_some hp' with ⟨rfl, q, hq, rfl⟩ | ⟨-, hq⟩
    · exact ⟨q, hq, rfl, rfl, rfl, rfl, by simp, h.wellFormed.gap p q hq⟩
    · exact ⟨piece', hq, rfl, rfl, rfl, rfl, h.wellFormed.unstarted i piece' hq,
        h.wellFormed.gap i piece' hq⟩
  · rw [Download.flagPiece, modifyPiece, h.eq]
  · intro q piece hq
    rw [Download.flagPiece, modifyPiece, List.getElem?_modify, h.pieces q piece hq]
    by_cases hpq : p = q
    · simp [hpq]
    · simp [hpq, Ne.symm hpq]

theorem finished (h : Flagged d₀ done d) (hfin : Finished d d') : Flagged d₀ done d' := by
  refine ⟨hfin.wellFormed h.wellFormed, ?_, ?_⟩
  · rw [hfin.eq, h.eq]
  · intro p piece hp
    rw [hfin.pieces_eq]
    exact h.pieces p piece hp

end Flagged

/-! ### Which files a run finishes -/

/-- The file is visited for a piece at whose completion every piece that overlaps it is there. -/
def Finishes (d₀ : Download) (done : List ℕ) (fileIndex : ℕ) : Prop :=
  ∃ before p after, done = before ++ p :: after ∧ d₀.Visits p fileIndex ∧
    ∀ q, d₀.Overlaps q fileIndex → q ∈ before ++ [p]

theorem finishes_append {done : List ℕ} {p fileIndex : ℕ} :
    d₀.Finishes (done ++ [p]) fileIndex ↔ d₀.Finishes done fileIndex ∨
      (d₀.Visits p fileIndex ∧ ∀ q, d₀.Overlaps q fileIndex → q ∈ done ++ [p]) := by
  constructor
  · rintro ⟨before, p', after, heq, hvisits, hoverlaps⟩
    rcases List.eq_nil_or_concat after with rfl | ⟨after', q, rfl⟩
    · obtain ⟨rfl, rfl⟩ := List.append_singleton_inj.mp heq
      exact Or.inr ⟨hvisits, hoverlaps⟩
    · rw [List.concat_eq_append, ← List.cons_append, ← List.append_assoc,
        List.append_singleton_inj] at heq
      exact Or.inl ⟨before, p', after', heq.1, hvisits, hoverlaps⟩
  · rintro (⟨before, p', after, rfl, hvisits, hoverlaps⟩ | ⟨hvisits, hoverlaps⟩)
    · exact ⟨before, p', after ++ [p], by simp, hvisits, hoverlaps⟩
    · exact ⟨done, p, [], rfl, hvisits, hoverlaps⟩

/-- A finished file is not visited again. -/
theorem Finishes.not_visits (hd₀ : d₀.WellFormed) {done : List ℕ} {p fileIndex : ℕ}
    (h : d₀.Finishes done fileIndex) (hnew : p ∉ done) : ¬ d₀.Visits p fileIndex := by
  obtain ⟨before, p', after, rfl, hvisits, hoverlaps⟩ := h
  intro hagain
  by_cases hbytes : d₀.fileStart fileIndex < d₀.fileStart (fileIndex + 1)
  · have hmem := hoverlaps p (hagain.overlaps hd₀ hbytes)
    rw [List.append_cons] at hnew
    exact hnew (List.mem_append_left _ hmem)
  · have hp' := hvisits.eq_div hd₀ (Nat.le_of_not_lt hbytes)
    have hp := hagain.eq_div hd₀ (Nat.le_of_not_lt hbytes)
    obtain rfl : p = p' := hp.symm.trans hp'
    simp at hnew

/-- The state right after `start`. -/
structure Fresh (d₀ : Download) : Prop where
  wellFormed : d₀.WellFormed
  incomplete : ∀ (p : ℕ) piece, d₀.pieces[p]? = some piece → piece.isCompleted = false
  sent : d₀.sent = []
  temp : ∀ fileIndex < d₀.files.length,
    ∃ newName, d₀.filePaths[fileIndex]?.bind stripTemp = some newName

/-- Exactly the finished files have been renamed, each of them once. -/
structure Progress (d₀ : Download) (done : List ℕ) (d : Download) : Prop where
  flagged : Flagged d₀ done d
  once : ∀ fileIndex, d₀.Finishes done fileIndex → d.renames fileIndex = 1
  waiting : ∀ fileIndex, ¬ d₀.Finishes done fileIndex → Untouched d₀ d fileIndex

theorem start_fresh {disk : String → Bytes} {metaInfo : TorrentMetaInfo}
    (h : start disk metaInfo = .ok d₀) : d₀.Fresh := by
  obtain ⟨hwf, -, -, hsent, hincomplete⟩ := start_spec h
  refine ⟨hwf, hincomplete, hsent, fun fileIndex hf => ?_⟩
  obtain ⟨filePath, hpath⟩ : ∃ filePath, d₀.filePaths[fileIndex]? = some filePath :=
    ⟨_, List.getElem?_eq_getElem (hwf.length_paths.symm ▸ hf)⟩
  have htemp : ".temp".toList <:+ filePath.toList := by
    have hmem := List.mem_of_getElem? hpath
    obtain ⟨⟨fileOffsets, filePaths, files⟩, hfiles, h⟩ := bind_eq_ok.mp h
    obtain ⟨_, -, h⟩ := bind_eq_ok.mp h
    obtain ⟨_, -, h⟩ := bind_eq_ok.mp h
    cases h
    apply temp_suffix_createFileInfos
    rw [← (createFiles_spec hfiles).2.2.2]
    exact hmem
  rw [hpath, Option.bind_some, stripTemp, if_pos htemp]
  exact ⟨_, rfl⟩

theorem Fresh.progress (h : d₀.Fresh) : Progress d₀ [] d₀ := by
  refine ⟨⟨h.wellFormed, rfl, fun p piece hp => ?_⟩, ?_, fun _ _ => ⟨rfl, rfl⟩⟩
  · have hflag := h.incomplete p piece hp
    obtain ⟨length, offset, hash, blocks, isCompleted⟩ := piece
    obtain rfl : isCompleted = false := hflag
    simpa using hp
  · rintro fileIndex ⟨before, p, after, heq, -⟩
    simp at heq

/-- The search of `verify_file` does not end in an empty file at the start of the torrent. -/
def Lands (d₀ : Download) (p : ℕ) : Prop :=
  ∀ piece, d₀.pieces[p]? = some piece → d₀.landsOnBytes piece = true

/-- What completing one more piece does to the files. -/
theorem Progress.visit {done : List ℕ} (hfresh : d₀.Fresh) (h : Progress d₀ done d) {p : ℕ}
    {piece : Piece} (hp : d₀.pieces[p]? = some piece) (hnew : p ∉ done) :
    Progress d₀ (done ++ [p]) ((d₀.visitedFiles piece).foldl finishFile (d.flagPiece p)) := by
  have hflagged := h.flagged.flagPiece p
  have hlt := (hfresh.wellFormed.shape p piece hp).index_lt
  have hvisits : ∀ fileIndex, fileIndex ∈ d₀.visitedFiles piece ↔ d₀.Visits p fileIndex := by
    intro fileIndex
    constructor
    · intro hmem
      exact ⟨piece, hp, hmem⟩
    · rintro ⟨piece', hp', hmem⟩
      obtain rfl := Option.some.inj (hp.symm.trans hp')
      exact hmem
  have hready : ∀ fileIndex, d₀.Visits p fileIndex →
      (((d.flagPiece p).containedPieces fileIndex).all (·.isCompleted) = true ↔
        ∀ q, d₀.Overlaps q fileIndex → q ∈ done ++ [p]) := by
    intro fileIndex hv
    rw [containedPieces_completed_iff hflagged.wellFormed (hflagged.visits hv)
      ((hflagged.havePieces_iff hfresh.wellFormed hlt).mpr (by simp))]
    refine forall_congr' fun q => ?_
    rw [hflagged.overlaps_iff]
    exact forall_congr' fun hq => hflagged.havePieces_iff hfresh.wellFormed hq.1
  refine ⟨hflagged.finished (.foldl _ _), fun fileIndex hf => ?_, fun fileIndex hf => ?_⟩
  · rcases finishes_append.mp hf with hdone | ⟨hv, hoverlaps⟩
    · have hskip := hdone.not_visits hfresh.wellFormed hnew
      obtain ⟨-, hcount⟩ := foldl_untouched (d := d.flagPiece p) fun hmem =>
        absurd ((hvisits fileIndex).mp hmem) hskip
      rw [hcount]
      exact h.once fileIndex hdone
    · have hbefore : ¬ d₀.Finishes done fileIndex := fun hdone =>
        hdone.not_visits hfresh.wellFormed hnew hv
      obtain ⟨hpath, hcount⟩ := h.waiting fileIndex hbefore
      obtain ⟨newName, hname⟩ := hfresh.temp fileIndex (hv.bounds hfresh.wellFormed).2.1
      rw [← hpath] at hname
      have hnodup : (d₀.visitedFiles piece).Nodup := by
        unfold visitedFiles
        split
        · exact List.nodup_range'
        · exact List.nodup_nil
      rw [foldl_renames hnodup ((hvisits fileIndex).mpr hv) ((hready fileIndex hv).mpr hoverlaps)
        hname]
      change d.renames fileIndex + 1 = 1
      rw [hcount, renames, hfresh.sent]
      rfl
  · rw [finishes_append, not_or] at hf
    obtain ⟨hpath, hcount⟩ := h.waiting fileIndex hf.1
    obtain ⟨hpath', hcount'⟩ : Untouched (d.flagPiece p)
        ((d₀.visitedFiles piece).foldl finishFile (d.flagPiece p)) fileIndex := by
      apply foldl_untouched
      intro hmem
      have hv := (hvisits fileIndex).mp hmem
      rw [Bool.eq_false_iff]
      exact fun hall => hf.2 ⟨hv, (hready fileIndex hv).mp hall⟩
    exact ⟨hpath'.trans hpath, hcount'.trans hcount⟩

/-- One step of a run succeeds where the search lands on bytes. -/
theorem Progress.verifyFile {done : List ℕ} (hfresh : d₀.Fresh) (h : Progress d₀ done d) {p : ℕ}
    (hp : p < d₀.metaInfo.numPieces) (hnew : p ∉ done) (hlands : d₀.Lands p) :
    ∃ d', verifyFile p (d.flagPiece p) = .ok () d' ∧ Progress d₀ (done ++ [p]) d' := by
  have hpiece := List.getElem?_eq_getElem (hfresh.wellFormed.length_pieces.symm ▸ hp)
  have hflagged := h.flagged.flagPiece p
  refine ⟨_, ?_, h.visit hfresh hpiece hnew⟩
  rw [verifyFile_eq hflagged.wellFormed (hflagged.pieces p _ hpiece), hflagged.visitedFiles_eq]
  rw [hflagged.landsOnBytes_eq]
  exact hlands _ hpiece

/-- Where it ends in an empty file at the start of the torrent, the step fails. -/
theorem Progress.lands {done : List ℕ} (h : Progress d₀ done d) {p : ℕ}
    (hok : Download.verifyFile p (d.flagPiece p) = .ok () d') : d₀.Lands p := by
  have hflagged := h.flagged.flagPiece p
  intro piece hpiece
  by_contra hempty
  rw [Bool.not_eq_true, ← hflagged.landsOnBytes_eq piece] at hempty
  rw [verifyFile_panics hflagged.wellFormed (hflagged.pieces p piece hpiece) hempty] at hok
  cases hok

/-! ### Every order of completion -/

theorem Progress.run {done order : List ℕ} (hfresh : d₀.Fresh) (h : Progress d₀ done d)
    (hnodup : (done ++ order).Nodup) (hrange : ∀ p ∈ order, p < d₀.metaInfo.numPieces)
    (hlands : ∀ p ∈ order, d₀.Lands p) :
    ∃ d', completePieces order d = .ok () d' ∧ Progress d₀ (done ++ order) d' := by
  induction order generalizing done d with
  | nil =>
    rw [List.append_nil]
    exact ⟨d, rfl, h⟩
  | cons p order ih =>
    have hnew : p ∉ done := fun hmem =>
      List.disjoint_of_nodup_append hnodup hmem List.mem_cons_self
    rw [List.append_cons] at hnodup
    rw [List.forall_mem_cons] at hrange hlands
    obtain ⟨d₁, hverify, hprogress⟩ := h.verifyFile hfresh hrange.1 hnew hlands.1
    obtain ⟨d₂, hrest, hend⟩ := ih hprogress hnodup hrange.2 hlands.2
    rw [List.append_cons]
    refine ⟨d₂, ?_, hend⟩
    rw [completePieces_cons, bind_of_ok hverify]
    exact hrest

theorem Progress.lands_of_run {done order : List ℕ} (hfresh : d₀.Fresh) (h : Progress d₀ done d)
    (hnodup : (done ++ order).Nodup) (hrange : ∀ p ∈ order, p < d₀.metaInfo.numPieces)
    (hok : completePieces order d = .ok () d') : ∀ p ∈ order, d₀.Lands p := by
  induction order generalizing done d with
  | nil =>
    intro p hp
    cases hp
  | cons p order ih =>
    have hnew : p ∉ done := fun hmem =>
      List.disjoint_of_nodup_append hnodup hmem List.mem_cons_self
    rw [List.append_cons] at hnodup
    rw [List.forall_mem_cons] at hrange ⊢
    rw [completePieces_cons] at hok
    obtain ⟨_, d₁, hverify, hrest⟩ := stateful_bind_eq_ok.mp hok
    have hlands := h.lands hverify
    obtain ⟨d₂, hverify', hprogress⟩ := h.verifyFile hfresh hrange.1 hnew hlands
    rw [hverify'] at hverify
    cases hverify
    exact ⟨hlands, ih hprogress hnodup hrange.2 hrest⟩

/-- As long as pieces of the order become completed, no call fails, and only files are renamed
whose pieces are all there; in the end every file has been renamed once. -/
def RenamesProperly (d₀ : Download) (order : List ℕ) : Prop :=
  ∀ done, done <+: order → ∃ d, completePieces done d₀ = .ok () d ∧
    ∀ fileIndex < d₀.files.length,
      (0 < d.renames fileIndex → ∀ p, d₀.Overlaps p fileIndex → d.havePieces[p]? = some true) ∧
      (d.isComplete = true → d.renames fileIndex = 1)

/-- `verify_file` looks at the file for a piece after which no other piece that overlaps the
file becomes completed. -/
def LastPieceVisits (d₀ : Download) (order : List ℕ) (fileIndex : ℕ) : Prop :=
  ∃ before p after, order = before ++ p :: after ∧ d₀.Visits p fileIndex ∧
    ∀ q ∈ after, ¬ d₀.Overlaps q fileIndex

theorem finishes_iff_lastPieceVisits {order : List ℕ} {fileIndex : ℕ} (hnodup : order.Nodup)
    (hall : ∀ p < d₀.metaInfo.numPieces, p ∈ order) :
    d₀.Finishes order fileIndex ↔ d₀.LastPieceVisits order fileIndex := by
  constructor
  · rintro ⟨before, p, after, rfl, hvisits, hoverlaps⟩
    refine ⟨before, p, after, rfl, hvisits, fun q hq hoverlap => ?_⟩
    rw [List.append_cons] at hnodup
    exact List.disjoint_of_nodup_append hnodup (hoverlaps q hoverlap) hq
  · rintro ⟨before, p, after, rfl, hvisits, hlast⟩
    refine ⟨before, p, after, rfl, hvisits, fun q hoverlap => ?_⟩
    have hq := hall q hoverlap.1
    rw [List.append_cons, List.mem_append] at hq
    exact hq.resolve_right fun hafter => hlast q hafter hoverlap

theorem Flagged.isComplete_iff {done : List ℕ} (h : Flagged d₀ done d) (hd₀ : d₀.WellFormed) :
    d.isComplete = true ↔ ∀ p < d₀.metaInfo.numPieces, p ∈ done := by
  have hcount : d.pieces.length = d₀.metaInfo.numPieces := by
    rw [h.wellFormed.length_pieces, h.metaInfo_eq]
  have hflag : ∀ (p : ℕ) (hp : p < d.pieces.length),
      d.pieces[p].isCompleted = decide (p ∈ done) := by
    intro p hp
    have hpiece := h.pieces p _ (List.getElem?_eq_getElem (by rw [hd₀.length_pieces]; omega))
    rw [List.getElem?_eq_getElem hp, Option.some.injEq] at hpiece
    rw [hpiece]
  rw [isComplete, List.all_eq_true]
  constructor
  · intro hall p hp
    have hdone := hall _ (List.getElem_mem (hcount.symm ▸ hp))
    rw [hflag, decide_eq_true_iff] at hdone
    exact hdone
  · intro hall piece hmem
    obtain ⟨p, hp, rfl⟩ := List.mem_iff_getElem.mp hmem
    rw [hflag, decide_eq_true_iff]
    exact hall p (hcount ▸ hp)

/-- A part of the order that has all pieces is the whole order. -/
private theorem eq_of_prefix {n : ℕ} {done order : List ℕ} (hpre : done <+: order)
    (hnodup : order.Nodup) (hrange : ∀ p ∈ order, p < n) (hall : ∀ p < n, p ∈ done) :
    done = order := by
  obtain ⟨rest, rfl⟩ := hpre
  rcases List.eq_nil_or_concat rest with rfl | ⟨rest', p, rfl⟩
  · rw [List.append_nil]
  · have hmem := hall p (hrange p (by simp))
    exact (List.disjoint_of_nodup_append hnodup hmem (by simp)).elim

theorem Fresh.renamesProperly_iff (hfresh : d₀.Fresh) {order : List ℕ} (hnodup : order.Nodup)
    (hrange : ∀ p ∈ order, p < d₀.metaInfo.numPieces) :
    RenamesProperly d₀ order ↔ (∀ p ∈ order, d₀.Lands p) ∧
      ((∀ p < d₀.metaInfo.numPieces, p ∈ order) →
        ∀ fileIndex < d₀.files.length, d₀.LastPieceVisits order fileIndex) := by
  constructor
  · intro h
    obtain ⟨d, hd, hfiles⟩ := h order (List.prefix_refl order)
    have hlands := hfresh.progress.lands_of_run hfresh hnodup hrange hd
    obtain ⟨d', hd', hprogress⟩ := hfresh.progress.run hfresh hnodup hrange hlands
    rw [hd] at hd'
    cases hd'
    refine ⟨hlands, fun hall fileIndex hf => ?_⟩
    have hcomplete := (hprogress.flagged.isComplete_iff hfresh.wellFormed).mpr hall
    have honce := (hfiles fileIndex hf).2 hcomplete
    rw [← finishes_iff_lastPieceVisits hnodup hall]
    by_contra hwaiting
    rw [(hprogress.waiting fileIndex hwaiting).2, renames, hfresh.sent] at honce
    cases honce
  · rintro ⟨hlands, hlast⟩ done hpre
    have hsub := hpre.subset
    obtain ⟨d, hd, hprogress⟩ := hfresh.progress.run hfresh (hnodup.sublist hpre.sublist)
      (fun p hp => hrange p (hsub hp)) (fun p hp => hlands p (hsub hp))
    refine ⟨d, hd, fun fileIndex hf => ⟨fun hpos p hoverlap => ?_, fun hcomplete => ?_⟩⟩
    · have hfinishes : d₀.Finishes done fileIndex := by
        by_contra hwaiting
        rw [(hprogress.waiting fileIndex hwaiting).2, renames, hfresh.sent] at hpos
        cases hpos
      obtain ⟨before, p', after, rfl, -, hoverlaps⟩ := hfinishes
      rw [hprogress.flagged.havePieces_iff hfresh.wellFormed hoverlap.1, List.nil_append,
        List.append_cons]
      exact List.mem_append_left _ (hoverlaps p hoverlap)
    · have hall := (hprogress.flagged.isComplete_iff hfresh.wellFormed).mp hcomplete
      obtain rfl := eq_of_prefix hpre hnodup hrange hall
      exact hprogress.once fileIndex
        ((finishes_iff_lastPieceVisits hnodup hall).mpr (hlast hall fileIndex hf))

/-- Files are renamed properly exactly in the orders in which every piece lands on bytes and, if
all pieces become completed, `verify_file` looks at each file for the last of its pieces. -/
theorem files_renamed_properly_iff {disk : String → Bytes} {metaInfo : TorrentMetaInfo}
    (hstart : start disk metaInfo = .ok d₀) {order : List ℕ} (hnodup : order.Nodup)
    (hrange : ∀ p ∈ order, p < metaInfo.numPieces) :
    RenamesProperly d₀ order ↔ (∀ p ∈ order, d₀.Lands p) ∧
      ((∀ p < metaInfo.numPieces, p ∈ order) →
        ∀ fileIndex < d₀.files.length, d₀.LastPieceVisits order fileIndex) := by
  have hmeta : d₀.metaInfo = metaInfo := (start_spec hstart).2.1
  rw [← hmeta] at hrange ⊢
  exact (start_fresh hstart).renamesProperly_iff hnodup hrange

/-- A torrent of several files in a directory. -/
def filesTorrent (files : List FileInfo) (pieceLength : UInt64) (pieces : List Sha1) :
    TorrentMetaInfo :=
  ⟨.multi ⟨files, "t", pieceLength, pieces⟩, none, none, none, none, none, none⟩

/-- Files of one and two bytes in two pieces. -/
def twoFilesTorrent : TorrentMetaInfo :=
  filesTorrent [⟨1, none, ["a"]⟩, ⟨2, none, ["b"]⟩] 2 [Sha1.replicate 0, Sha1.replicate 1]

/-- The second piece comes first. -/
theorem files_renamed_properly_iff_two :
    ∃ d₀, start (fun _ => []) twoFilesTorrent = .ok d₀ ∧ RenamesProperly d₀ [1, 0] := by
  obtain ⟨d₀, hstart⟩ : ∃ d₀, start (fun _ => []) twoFilesTorrent = .ok d₀ := ⟨_, rfl⟩
  refine ⟨d₀, hstart, (files_renamed_properly_iff hstart (by decide) (by decide)).mpr ?_⟩
  cases hstart
  refine ⟨fun p hp piece hpiece => ?_, fun _ fileIndex hf => ?_⟩
  · rcases List.mem_pair.mp hp with rfl | rfl <;> cases hpiece <;> decide +kernel
  · refine ⟨[1], 0, [], rfl, ⟨_, rfl, ?_⟩, by simp⟩
    have hboth : fileIndex = 0 ∨ fileIndex = 1 := by
      change fileIndex < 2 at hf
      omega
    rcases hboth with rfl | rfl <;> decide +kernel

/-- One piece over an empty file and three files of a byte each. -/
def emptyFirstTorrent : TorrentMetaInfo :=
  filesTorrent [⟨0, none, ["a"]⟩, ⟨1, none, ["b"]⟩, ⟨1, none, ["c"]⟩, ⟨1, none, ["d"]⟩] 3
    [Sha1.replicate 0]

/-- One piece over a file of a byte and an empty one. -/
def emptyLastTorrent : TorrentMetaInfo :=
  filesTorrent [⟨1, none, ["a"]⟩, ⟨0, none, ["b"]⟩] 1 [Sha1.replicate 0]

/-- The end of an empty first file underflows, and an empty last file is not renamed. -/
theorem empty_files_not_renamed :
    (∃ d₀, start (fun _ => []) emptyFirstTorrent = .ok d₀ ∧
      completePieces [0] d₀ = .error .panic (d₀.flagPiece 0) ∧ ¬ RenamesProperly d₀ [0]) ∧
    ∃ d₀ d, start (fun _ => []) emptyLastTorrent = .ok d₀ ∧ completePieces [0] d₀ = .ok () d ∧
      d.isComplete = true ∧ d.renames 1 = 0 ∧ ¬ RenamesProperly d₀ [0] := by
  constructor
  · obtain ⟨d₀, hstart⟩ : ∃ d₀, start (fun _ => []) emptyFirstTorrent = .ok d₀ := ⟨_, rfl⟩
    have hflagged := (start_fresh hstart).progress.flagged.flagPiece 0
    have hpanics : completePieces [0] d₀ = .error .panic (d₀.flagPiece 0) := by
      have hverify : verifyFile 0 (d₀.flagPiece 0) = .error .panic (d₀.flagPiece 0) := by
        cases hstart
        exact verifyFile_panics hflagged.wellFormed rfl (by decide +kernel)
      rw [completePieces_cons, bind_of_error hverify]
    refine ⟨d₀, hstart, hpanics, fun h => ?_⟩
    obtain ⟨d, hd, -⟩ := h [0] (List.prefix_refl _)
    rw [hpanics] at hd
    cases hd
  · obtain ⟨d₀, hstart⟩ : ∃ d₀, start (fun _ => []) emptyLastTorrent = .ok d₀ := ⟨_, rfl⟩
    have hfresh := start_fresh hstart
    have hlands : ∀ p ∈ [0], d₀.Lands p := by
      cases hstart
      intro p hp piece hpiece
      obtain rfl := List.mem_singleton.mp hp
      cases hpiece
      decide +kernel
    have hwaiting : ¬ d₀.Finishes [0] 1 := by
      cases hstart
      rintro ⟨before, p, after, heq, ⟨piece, hp, hmem⟩, -⟩
      have hp0 : p ∈ [0] := by simp [heq]
      obtain rfl := List.mem_singleton.mp hp0
      cases hp
      revert hmem
      decide +kernel
    have hrange : ∀ p ∈ [0], p < d₀.metaInfo.numPieces := by
      rw [(start_spec hstart).2.1]
      decide
    obtain ⟨d, hd, hprogress⟩ := hfresh.progress.run hfresh (by decide) hrange hlands
    have hcomplete : d.isComplete = true := by
      rw [hprogress.flagged.isComplete_iff hfresh.wellFormed, (start_spec hstart).2.1]
      decide
    have hkept : d.renames 1 = 0 := by
      rw [(hprogress.waiting 1 hwaiting).2, renames, hfresh.sent]
      rfl
    refine ⟨d₀, d, hstart, hd, hcomplete, hkept, fun h => ?_⟩
    obtain ⟨d', hd', hfiles⟩ := h [0] (List.prefix_refl _)
    rw [hd] at hd'
    cases hd'
    have hfile : 1 < d₀.files.length := by
      cases hstart
      decide
    have honce := (hfiles 1 hfile).2 hcomplete
    rw [hkept] at honce
    cases honce

private theorem exists_last {α : Type} {P : α → Prop} {xs : List α} (h : ∃ x ∈ xs, P x) :
    ∃ before x after, xs = before ++ x :: after ∧ P x ∧ ∀ y ∈ after, ¬ P y := by
  induction xs with
  | nil =>
    obtain ⟨x, hx, -⟩ := h
    cases hx
  | cons a xs ih =>
    by_cases hrest : ∃ x ∈ xs, P x
    · obtain ⟨before, x, after, rfl, hx, hafter⟩ := ih hrest
      exact ⟨a :: before, x, after, rfl, hx, hafter⟩
    · obtain ⟨x, hx, hP⟩ := h
      rcases List.mem_cons.mp hx with rfl | hmem
      · exact ⟨[], x, xs, rfl, hP, fun y hy hPy => hrest ⟨y, hy, hPy⟩⟩
      · exact absurd ⟨x, hmem, hP⟩ hrest

/-- Where no file is empty and no piece length overflows its cast, every order will do. -/
theorem renamesProperly_of_ne_nil {disk : String → Bytes} {metaInfo : TorrentMetaInfo}
    (hstart : start disk metaInfo = .ok d₀) (hbytes : ∀ file ∈ d₀.files, file ≠ [])
    (h32 : metaInfo.pieceLength < 2 ^ 32) (hpieces : 0 < metaInfo.numPieces) {order : List ℕ}
    (hnodup : order.Nodup) (hrange : ∀ p ∈ order, p < metaInfo.numPieces) :
    RenamesProperly d₀ order := by
  have hmeta : d₀.metaInfo = metaInfo := (start_spec hstart).2.1
  have hfresh := start_fresh hstart
  have hd₀ := hfresh.wellFormed
  rw [← hmeta] at hrange h32 hpieces
  rw [hfresh.renamesProperly_iff hnodup hrange]
  refine ⟨fun p _ piece _ => landsOnBytes_of_ne_nil hd₀.layout hbytes piece,
    fun hall fileIndex hf => ?_⟩
  have hfile : 0 < d₀.files[fileIndex].length :=
    List.length_pos_of_ne_nil (hbytes _ (List.getElem_mem hf))
  have hnext := d₀.fileStart_succ hf
  have hend := (fileOffset_eq hd₀ (show fileIndex + 1 ≤ d₀.files.length from hf)).2
  have hcover := hd₀.geometry.last_end (d₀.metaInfo.numPieces - 1) (by omega)
  rw [Nat.sub_add_cancel hpieces] at hcover
  obtain ⟨p, hp, hlow, hhigh⟩ := Geometry.exists_piece hcover
    (show d₀.fileStart fileIndex < d₀.content.length by omega)
  have hoverlap : d₀.Overlaps p fileIndex := ⟨hp, _, Nat.le_refl _, by omega, hlow, hhigh⟩
  obtain ⟨before, q, after, rfl, hq, hafter⟩ :=
    exists_last (P := fun q => d₀.Overlaps q fileIndex) ⟨p, hall p hp, hoverlap⟩
  refine ⟨before, q, after, rfl, hq.visits hd₀ hf fun piece hpiece => ?_, hafter⟩
  exact (hd₀.shape q piece hpiece).length_eq_span hd₀.geometry h32

end Download
end TorrentClient
