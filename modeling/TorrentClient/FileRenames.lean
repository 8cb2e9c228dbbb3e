import TorrentClient.DownloadInvariant

/-!
# The files that `verify_file` renames

`verify_file` visits the files that `search_ptrs` cuts a piece into and renames every one whose
pieces are all flagged. It panics where the first of them is an empty file at the start of the
torrent.
-/
namespace TorrentClient
open ListRanges

namespace Download

variable {d : Download}

/-- Where a file starts in the content; for the number of files, its end. -/
def fileStart (d : Download) (fileIndex : ℕ) : ℕ := (d.files.take fileIndex).flatten.length

/-- The state after `rename_temp_file`. -/
def renameFile (d : Download) (fileIndex : ℕ) : Download :=
  match d.filePaths[fileIndex]?.bind stripTemp with
  | none => d
  | some newName =>
    { d with
      filePaths := d.filePaths.set fileIndex newName
      sent := d.sent ++ [.fileFinish fileIndex newName] }

/-- The pieces from the one a file starts in to the one its last byte lies in. -/
def containedPieces (d : Download) (fileIndex : ℕ) : List Piece :=
  let low := d.fileStart fileIndex / d.metaInfo.pieceLength
  let high := (d.fileStart (fileIndex + 1) - 1) / d.metaInfo.pieceLength
  slice d.pieces low (high + 1 - low)

/-- One round of the loop of `verify_file`. -/
def finishFile (d : Download) (fileIndex : ℕ) : Download :=
  if (d.containedPieces fileIndex).all (·.isCompleted) then d.renameFile fileIndex else d

/-- The files that `search_ptrs` cuts the range of a piece into. -/
def visitedFiles (d : Download) (piece : Piece) : List ℕ :=
  match searchPtrs d.fileOffsets piece.offset piece.length.toNat with
  | .ok (i, v) => List.range' i v.length
  | .error _ => []

theorem Finished.renameFile (d : Download) (fileIndex : ℕ) :
    Finished d (d.renameFile fileIndex) := by
  unfold Download.renameFile
  split
  · exact .refl d
  · exact ⟨rfl, List.length_set, _, rfl, by simp⟩

theorem Finished.finishFile (d : Download) (fileIndex : ℕ) :
    Finished d (d.finishFile fileIndex) := by
  unfold Download.finishFile
  split_ifs
  · exact .renameFile d fileIndex
  · exact .refl d

theorem Finished.foldl (d : Download) (fileIndices : List ℕ) :
    Finished d (fileIndices.foldl Download.finishFile d) := by
  induction fileIndices generalizing d with
  | nil => exact .refl d
  | cons fileIndex fileIndices ih => exact (Finished.finishFile d fileIndex).trans (ih _)

theorem renameTempFile_eq (hd : d.filePaths.length = d.files.length) {fileIndex : ℕ}
    (hi : fileIndex < d.files.length) :
    renameTempFile fileIndex d = .ok () (d.renameFile fileIndex) := by
  obtain ⟨filePath, hpath⟩ : ∃ filePath, d.filePaths[fileIndex]? = some filePath :=
    ⟨_, List.getElem?_eq_getElem (by omega)⟩
  obtain ⟨file, hfile⟩ : ∃ file, d.files[fileIndex]? = some file :=
    ⟨_, List.getElem?_eq_getElem hi⟩
  rw [renameTempFile, bind_of_ok (get_eq d), index_of_getElem? hpath, bind_of_ok (pureStep_ok _ _),
    renameFile, hpath, Option.bind_some]
  cases stripTemp filePath with
  | none => rfl
  | some newName =>
    simp only [index_of_getElem? hfile, bind_of_ok (pureStep_ok _ _)]
    rfl

private theorem div_le_pred_div_succ {a b n : ℕ} (hab : a ≤ b) (hb : 0 < b) (hn : 0 < n) :
    a / n ≤ (b - 1) / n + 1 := by
  rw [← Nat.add_div_right _ hn]
  exact Nat.div_le_div_right (by omega)

theorem fileOffset_eq (hd : d.WellFormed) {i : ℕ} (hi : i ≤ d.files.length) :
    d.fileOffsets[i]? = some (d.fileStart i) ∧ d.fileStart i ≤ d.content.length := by
  have hsplit := Layout.length_take_add_drop d.files i
  exact ⟨hd.layout.getElem?_eq hi, by rw [content, fileStart]; omega⟩

theorem fileStart_succ (d : Download) {i : ℕ} (hi : i < d.files.length) :
    d.fileStart (i + 1) = d.fileStart i + d.files[i].length := by
  rw [fileStart, List.take_add_one, List.getElem?_eq_getElem hi, List.flatten_append,
    List.length_append, Option.toList_some, List.flatten_singleton]
  rfl

theorem fileStart_mono (d : Download) {i j : ℕ} (hij : i ≤ j) : d.fileStart i ≤ d.fileStart j := by
  obtain ⟨k, rfl⟩ := Nat.exists_eq_add_of_le hij
  rw [fileStart, fileStart, List.take_add, List.flatten_append, List.length_append]
  exact Nat.le_add_right _ _

/-- The pieces of a file which ends behind the start of the torrent. -/
private theorem subslice_contained (hd : d.WellFormed) (hn : 0 < d.metaInfo.numPieces) {i : ℕ}
    (hi : i < d.files.length) (hpos : 0 < d.fileStart (i + 1)) :
    (subslice d.pieces (d.fileStart i / d.metaInfo.pieceLength)
      ((d.fileStart (i + 1) - 1) / d.metaInfo.pieceLength + 1) : Outcome (List Piece)) =
      .ok (d.containedPieces i) := by
  have hpl := hd.geometry.pieceLength_pos hn
  have hend := hd.geometry.last_end (d.metaInfo.numPieces - 1) (by omega)
  have hle := (fileOffset_eq hd (show i + 1 ≤ d.files.length by omega)).2
  have hlow := div_le_pred_div_succ (d.fileStart_mono (Nat.le_add_right i 1)) hpos hpl
  have hhigh : (d.fileStart (i + 1) - 1) / d.metaInfo.pieceLength < d.metaInfo.numPieces := by
    rw [Nat.div_lt_iff_lt_mul hpl]
    rw [Nat.sub_add_cancel hn] at hend
    omega
  exact if_pos ⟨hlow, by rw [hd.length_pieces]; omega⟩

/-- Looking at files that end behind the start of the torrent does not fail. -/
private theorem verifyFiles_eq (hd : d.WellFormed) (hn : 0 < d.metaInfo.numPieces) {i count : ℕ}
    (hcount : i + count ≤ d.files.length) (hend : 0 < count → 0 < d.fileStart (i + 1)) :
    verifyFiles d.metaInfo.pieceLength i count d =
      .ok () ((List.range' i count).foldl finishFile d) := by
  induction count generalizing d i with
  | zero => rfl
  | succ count ih =>
    have hpl := hd.geometry.pieceLength_pos hn
    have hpos := hend (Nat.succ_pos _)
    have hlow := (fileOffset_eq hd (show i ≤ d.files.length by omega)).1
    have hhigh := (fileOffset_eq hd (show i + 1 ≤ d.files.length by omega)).1
    have hcontained := subslice_contained hd hn (show i < d.files.length by omega) hpos
    have hrename : runIf ((d.containedPieces i).all (·.isCompleted)) (renameTempFile i) d =
        .ok () (d.finishFile i) := by
      unfold runIf finishFile
      split_ifs
      · exact renameTempFile_eq hd.length_paths (by omega)
      · rfl
    have hfin := Finished.finishFile d i
    have hstarts : (d.finishFile i).fileStart = d.fileStart := by
      funext j
      rw [fileStart, fileStart, hfin.files_eq]
    have hrest := ih (hfin.wellFormed hd) (by rw [hfin.metaInfo_eq]; exact hn) (i := i + 1)
      (by rw [hfin.files_eq]; omega) (fun _ => by
        rw [hstarts]
        exact Nat.lt_of_lt_of_le hpos (d.fileStart_mono (by omega)))
    rw [hfin.metaInfo_eq] at hrest
    rw [verifyFiles, bind_of_ok (get_eq d)]
    simp only [index_of_getElem? hlow, index_of_getElem? hhigh, ok_bind,
      checkedDiv_of_ne (Nat.pos_iff_ne_zero.mp hpl), checkedSub_of_le hpos,
      bind_of_ok (pureStep_ok _ _), hcontained, bind_of_ok hrename]
    exact hrest

/-- The files that `verify_file` looks at for a piece, from the one its start is found in. -/
theorem searchPtrs_piece (hd : d.WellFormed) {p : ℕ} {piece : Piece}
    (hp : d.pieces[p]? = some piece) :
    ∃ i v, searchIndex d.fileOffsets piece.offset = .ok i ∧
      searchPtrs d.fileOffsets piece.offset piece.length.toNat = .ok (i, v) ∧
      v = splitRange ((d.files.drop i).map List.length) (piece.offset - d.fileStart i)
        piece.length.toNat 0 ∧ 0 < v.length ∧ i + v.length ≤ d.files.length := by
  have hs := hd.shape p piece hp
  have hstart : piece.offset < d.files.flatten.length := by
    rw [hs.offset_eq]
    exact hd.geometry.start_lt hs.index_lt
  obtain ⟨i, hi, -⟩ := hd.layout.searchIndex_lands piece.offset
  have hlt := hd.layout.searchIndex_lt hi hstart
  have hlen := length_splitRange_le ((d.files.drop i).map List.length)
    (piece.offset - d.fileStart i) piece.length.toNat 0
  have hne : (d.files.drop i).map List.length ≠ [] := by
    simp only [ne_eq, List.map_eq_nil_iff, List.drop_eq_nil_iff]
    omega
  simp only [List.length_map, List.length_drop] at hlen
  refine ⟨i, _, hi, ?_, rfl, ?_, ?_⟩
  · rw [hd.layout.searchPtrs_eq hi, if_pos ⟨hlt, hs.end_le hd.geometry⟩]
    rfl
  · exact List.length_pos_of_ne_nil (splitRange_ne_nil hne _ _ _)
  · omega

/-- `verify_file` succeeds where the start of the piece is not found in an empty file at
the start of the torrent, -/
theorem verifyFile_eq (hd : d.WellFormed) {p : ℕ} {piece : Piece}
    (hp : d.pieces[p]? = some piece) (hlands : d.landsOnBytes piece = true) :
    verifyFile p d = .ok () ((d.visitedFiles piece).foldl finishFile d) := by
  obtain ⟨i, v, hi, hv, -, hpos, hlen⟩ := searchPtrs_piece hd hp
  have hn : 0 < d.metaInfo.numPieces :=
    Nat.lt_of_le_of_lt (Nat.zero_le _) (hd.shape p piece hp).index_lt
  have hnext := (fileOffset_eq hd (show i + 1 ≤ d.files.length by omega)).1
  have hend : 0 < d.fileStart (i + 1) := by
    simp only [landsOnBytes, hi, hnext] at hlands
    exact Nat.pos_of_ne_zero (by simpa using hlands)
  rw [verifyFile, bind_of_ok (get_eq d)]
  simp only [index_of_getElem? hp, bind_of_ok (pureStep_ok _ _), visitedFiles, hv]
  exact verifyFiles_eq hd hn hlen (fun _ => hend)

/-- With non-empty files the search for a piece never ends in an empty one. -/
theorem landsOnBytes_of_ne_nil {files : List Bytes} (hlayout : Layout files d.fileOffsets)
    (hbytes : ∀ file ∈ files, file ≠ []) (piece : Piece) : d.landsOnBytes piece = true := by
  rw [landsOnBytes]
  obtain ⟨i, hi, hle, -⟩ := hlayout.searchIndex_lands piece.offset
  simp only [hi]
  rcases Nat.lt_or_eq_of_le hle with hlt | rfl
  · have hnext := hlayout.getElem?_eq (show i + 1 ≤ files.length from hlt)
    have hfile : 0 < (files[i]).length :=
      List.length_pos_of_ne_nil (hbytes _ (List.getElem_mem hlt))
    have hpos : (files.take (i + 1)).flatten.length ≠ 0 := by
      rw [List.take_succ_eq_append_getElem hlt, List.flatten_append, List.length_append]
      simp only [List.flatten_cons, List.flatten_nil, List.append_nil]
      omega
    rw [hnext]
    simpa using hpos
  · have hnone : d.fileOffsets[files.length + 1]? = none :=
      List.getElem?_eq_none (Nat.le_of_eq hlayout.length_eq)
    rw [hnone]
    rfl

theorem verifyFile_finished (hd : d.WellFormed) {p : ℕ} {piece : Piece}
    (hp : d.pieces[p]? = some piece) (hlands : d.landsOnBytes piece = true) :
    ∃ d', verifyFile p d = .ok () d' ∧ Finished d d' :=
  ⟨_, verifyFile_eq hd hp hlands, .foldl d _⟩

/-- and panics on `file_offsets[i + 1] - 1` where it is. -/
theorem verifyFile_panics (hd : d.WellFormed) {p : ℕ} {piece : Piece}
    (hp : d.pieces[p]? = some piece) (hlands : d.landsOnBytes piece = false) :
    verifyFile p d = .error .panic d := by
  obtain ⟨i, v, hi, hv, -, hpos, hlen⟩ := searchPtrs_piece hd hp
  have hpl := hd.geometry.pieceLength_pos (hd.shape p piece hp).index_lt
  have hlow := (fileOffset_eq hd (show i ≤ d.files.length by omega)).1
  have hnext := (fileOffset_eq hd (show i + 1 ≤ d.files.length by omega)).1
  have hend : d.fileStart (i + 1) = 0 := by
    simp only [landsOnBytes, hi, hnext] at hlands
    simpa using hlands
  obtain ⟨count, hcount⟩ : ∃ count, v.length = count + 1 := ⟨v.length - 1, by omega⟩
  rw [hend] at hnext
  rw [verifyFile, bind_of_ok (get_eq d)]
  simp only [index_of_getElem? hp, bind_of_ok (pureStep_ok _ _), hv, hcount]
  rw [verifyFiles, bind_of_ok (get_eq d)]
  simp only [index_of_getElem? hlow, index_of_getElem? hnext, ok_bind,
    checkedDiv_of_ne (Nat.pos_iff_ne_zero.mp hpl), bind_of_ok (pureStep_ok _ _)]
  rfl

variable {d' : Download}

def isFinish (fileIndex : ℕ) : ManagerEvent → Bool
  | .fileFinish i _ => i == fileIndex
  | _ => false

/-- How often `rename_temp_file` has renamed the file. -/
def renames (d : Download) (fileIndex : ℕ) : ℕ := d.sent.countP (isFinish fileIndex)

theorem Finished.containedPieces_eq (h : Finished d d') (fileIndex : ℕ) :
    d'.containedPieces fileIndex = d.containedPieces fileIndex := by
  rw [containedPieces, containedPieces, fileStart, fileStart, h.files_eq, h.metaInfo_eq,
    h.pieces_eq, fileStart, fileStart]

/-- The file is as it was. -/
def Untouched (d d' : Download) (fileIndex : ℕ) : Prop :=
  d'.filePaths[fileIndex]? = d.filePaths[fileIndex]? ∧ d'.renames fileIndex = d.renames fileIndex

theorem renameFile_untouched (d : Download) {f fileIndex : ℕ} (hne : f ≠ fileIndex) :
    Untouched d (d.renameFile f) fileIndex := by
  unfold renameFile
  split
  · exact ⟨rfl, rfl⟩
  · constructor
    · simp [hne]
    · simp [renames, isFinish, hne]

theorem renameFile_renames {fileIndex : ℕ} {newName : String}
    (hpath : d.filePaths[fileIndex]?.bind stripTemp = some newName) :
    (d.renameFile fileIndex).renames fileIndex = d.renames fileIndex + 1 := by
  rw [renameFile, hpath]
  simp [renames, isFinish]

theorem finishFile_untouched {f fileIndex : ℕ}
    (h : f = fileIndex → (d.containedPieces fileIndex).all (·.isCompleted) = false) :
    Untouched d (d.finishFile f) fileIndex := by
  by_cases heq : f = fileIndex
  · rw [finishFile, heq, h heq]
    exact ⟨rfl, rfl⟩
  · unfold finishFile
    split_ifs
    · exact renameFile_untouched d heq
    · exact ⟨rfl, rfl⟩

/-- A call leaves a file alone that it does not visit or does not find finished. -/
theorem foldl_untouched {fileIndices : List ℕ} {fileIndex : ℕ}
    (h : fileIndex ∈ fileIndices → (d.containedPieces fileIndex).all (·.isCompleted) = false) :
    Untouched d (fileIndices.foldl finishFile d) fileIndex := by
  induction fileIndices generalizing d with
  | nil => exact ⟨rfl, rfl⟩
  | cons f fileIndices ih =>
    have hcontained := (Finished.finishFile d f).containedPieces_eq fileIndex
    have hfirst : Untouched d (d.finishFile f) fileIndex := by
      apply finishFile_untouched
      rintro rfl
      exact h List.mem_cons_self
    have hrest : Untouched (d.finishFile f) (fileIndices.foldl finishFile (d.finishFile f))
        fileIndex := by
      apply ih
      intro hmem
      rw [hcontained]
      exact h (List.mem_cons_of_mem _ hmem)
    obtain ⟨hpath, hcount⟩ := hfirst
    obtain ⟨hpath', hcount'⟩ := hrest
    exact ⟨hpath'.trans hpath, hcount'.trans hcount⟩

/-- and renames a file that it visits and finds finished under its temporary name. -/
theorem foldl_renames {fileIndices : List ℕ} {fileIndex : ℕ} {newName : String}
    (hnodup : fileIndices.Nodup) (hmem : fileIndex ∈ fileIndices)
    (hcompleted : (d.containedPieces fileIndex).all (·.isCompleted) = true)
    (hpath : d.filePaths[fileIndex]?.bind stripTemp = some newName) :
    (fileIndices.foldl finishFile d).renames fileIndex = d.renames fileIndex + 1 := by
  obtain ⟨before, after, rfl⟩ := List.append_of_mem hmem
  obtain ⟨-, hrest, hdisjoint⟩ := List.nodup_append.mp hnodup
  have hbefore : fileIndex ∉ before := fun hin => hdisjoint _ hin _ List.mem_cons_self rfl
  have hafter : fileIndex ∉ after := (List.nodup_cons.mp hrest).1
  rw [List.foldl_append, List.foldl_cons]
  obtain ⟨hpath₁, hcount₁⟩ := foldl_untouched (d := d) fun hin => absurd hin hbefore
  have hfin := Finished.foldl d before
  have hrename : (before.foldl finishFile d).finishFile fileIndex =
      (before.foldl finishFile d).renameFile fileIndex := by
    rw [finishFile, hfin.containedPieces_eq, if_pos hcompleted]
  obtain ⟨-, hcount₂⟩ := foldl_untouched (d := (before.foldl finishFile d).finishFile fileIndex)
    fun hin => absurd hin hafter
  rw [← hpath₁] at hpath
  rw [hcount₂, hrename, renameFile_renames hpath, hcount₁]

end Download
end TorrentClient
