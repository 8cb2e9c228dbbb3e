import TorrentClient.StateSimulations
import TorrentClient.StoredFiles

/-!
# The download task on a disk does what it does on contents

As long as there is room for the files, the task that writes to a disk ends like the one that
keeps the contents, and its disk holds the contents of that one.
-/
namespace TorrentClient
open FileSystems StateSimulations

namespace DiskDownload

/-- The download with what its files read. -/
def view (s : DiskDownload) : Download :=
  ⟨s.metaInfo, s.pieces, s.filePaths, s.contents, s.fileOffsets, s.sent, s.checks⟩

def Holds (disk₀ : FileDisk) (paths : List String) (s : DiskDownload) (d : Download) : Prop :=
  d = s.view ∧ Stored disk₀ paths s.filePaths s.files s.disk

/-- All other places are as they were. -/
def Spares (disk₀ : FileDisk) (paths : List String) (s : DiskDownload) (_ : Download) : Prop :=
  disk₀.SameOutside (usedPlaces paths) s.disk

/-- The results agree, and the disk holds the contents after a success. -/
abbrev Agree {α : Type} (disk₀ : FileDisk) (paths : List String) :
    EStateM.Result (Fault String) DiskDownload α → EStateM.Result (Fault String) Download α →
      Prop :=
  Alike (Holds disk₀ paths) (Spares disk₀ paths)

abbrev Follows {α : Type} (disk₀ : FileDisk) (paths : List String) (x : DiskDownloadM α)
    (y : DownloadM α) : Prop := Simulates (Holds disk₀ paths) (Spares disk₀ paths) x y

variable {disk₀ : FileDisk} {paths : List String} {α β : Type}

theorem spares_of_holds (s : DiskDownload) (d : Download) (h : Holds disk₀ paths s d) :
    Spares disk₀ paths s d := h.2.same

theorem agree_pureStep {x : Outcome α} {f : α → DiskDownloadM β} {g : α → DownloadM β}
    {s : DiskDownload} {d : Download} (h : Holds disk₀ paths s d)
    (hfg : ∀ a, x = .ok a → Agree disk₀ paths (f a s) (g a d)) :
    Agree disk₀ paths ((pureStep x >>= f) s) ((pureStep x >>= g) d) := by
  cases x with
  | ok a => exact hfg a rfl
  | error e => exact .error e (spares_of_holds s d h)

theorem follows_pureStep (x : Outcome α) : Follows disk₀ paths (pureStep x) (pureStep x) := by
  intro s d h
  cases x with
  | ok a => exact .ok a h
  | error e => exact .error e (spares_of_holds s d h)

theorem follows_runIf {x : DiskDownloadM Unit} {y : DownloadM Unit} (c : Bool)
    (h : Follows disk₀ paths x y) : Follows disk₀ paths (runIf c x) (runIf c y) :=
  .ite h (.pure ())

theorem follows_modify {f : DiskDownload → DiskDownload} {g : Download → Download}
    (h : ∀ s, g s.view = (f s).view) (hpaths : ∀ s, (f s).filePaths = s.filePaths)
    (hfiles : ∀ s, (f s).files = s.files) (hdisk : ∀ s, (f s).disk = s.disk) :
    Follows disk₀ paths (modify f) (modify g) := by
  refine .modify ?_
  rintro s d ⟨rfl, hs⟩
  refine ⟨h s, ?_⟩
  rwa [hpaths, hfiles, hdisk]

theorem follows_modifyPiece (pieceIndex : ℕ) (f : Piece → Piece) :
    Follows disk₀ paths (modify fun s => s.modifyPiece pieceIndex f)
      (modify fun d => d.modifyPiece pieceIndex f) :=
  follows_modify (fun _ => rfl) (fun _ => rfl) (fun _ => rfl) (fun _ => rfl)

theorem follows_broadcast (ipc : IPC) :
    Follows disk₀ paths (broadcast ipc) (Download.broadcast ipc) :=
  follows_modify (fun _ => rfl) (fun _ => rfl) (fun _ => rfl) (fun _ => rfl)

theorem follows_verify (sha1 : Bytes → Sha1) (pieceIndex : ℕ) :
    Follows disk₀ paths (verify sha1 pieceIndex) (Download.verify sha1 pieceIndex) := by
  refine .get_bind ?_
  rintro s d ⟨rfl, hs⟩
  refine agree_pureStep ⟨rfl, hs⟩ fun piece _ => ?_
  refine agree_pureStep ⟨rfl, hs⟩ fun buffer _ => ?_
  exact .ok _ ⟨rfl, hs⟩

theorem follows_retrieveData (request : RequestMetadata) :
    Follows disk₀ paths (retrieveData request) (Download.retrieveData request) := by
  refine .get_bind ?_
  rintro s d ⟨rfl, hs⟩
  refine agree_pureStep ⟨rfl, hs⟩ fun piece _ => ?_
  cases hcompleted : piece.isCompleted with
  | false => exact .error _ hs.same
  | true =>
    refine agree_pureStep ⟨rfl, hs⟩ fun offset _ => ?_
    exact follows_pureStep _ _ _ ⟨rfl, hs⟩

theorem follows_incompleteBlocksForPiece (pieceIndex : UInt32) :
    Follows disk₀ paths (incompleteBlocksForPiece pieceIndex)
      (Download.incompleteBlocksForPiece pieceIndex) := by
  refine .get_bind ?_
  rintro s d ⟨rfl, hs⟩
  refine agree_pureStep ⟨rfl, hs⟩ fun piece _ => ?_
  cases piece.isCompleted with
  | false => exact .ok _ ⟨rfl, hs⟩
  | true => exact .ok _ ⟨rfl, hs⟩

theorem follows_notify (pieceIndex blockIndex : UInt32) :
    Follows disk₀ paths (notify pieceIndex blockIndex) (Download.notify pieceIndex blockIndex) := by
  refine (follows_broadcast _).bind fun _ => .get_bind ?_
  rintro s d ⟨rfl, hs⟩
  refine agree_pureStep ⟨rfl, hs⟩ fun piece _ => ?_
  have hcompleted : Follows disk₀ paths _ _ :=
    follows_runIf piece.isCompleted (follows_broadcast (.pieceCompleted pieceIndex))
  have hall : Follows disk₀ paths _ _ :=
    follows_runIf s.isComplete (follows_broadcast .downloadCompleted)
  exact (hcompleted.bind fun _ => hall) _ _ ⟨rfl, hs⟩

section
variable (hroom : HasRoom disk₀ paths)
include hroom

/-- What is written to the disk is what is written to the contents. -/
theorem storeParts_cases (data : Bytes) (vec : List (ℕ × ℕ × ℕ)) (i : ℕ) {s : DiskDownload}
    (hs : Stored disk₀ paths s.filePaths s.files s.disk) :
    (∃ disk, TorrentClient.storeParts s.contents i data vec = .ok (s.files.map disk.content) ∧
      storeParts i data vec s = .ok () { s with disk } ∧
      Stored disk₀ paths s.filePaths s.files disk) ∨
    ∃ e s', TorrentClient.storeParts s.contents i data vec = .error e ∧
      storeParts i data vec s = .error e s' ∧ disk₀.SameOutside (usedPlaces paths) s'.disk := by
  induction vec generalizing i s with
  | nil => exact Or.inl ⟨s.disk, rfl, rfl, hs⟩
  | cons part vec ih =>
    obtain ⟨blockPtr, filePtr, len⟩ := part
    rw [storeParts, bind_of_ok (get_ok s), TorrentClient.storeParts]
    cases hfile : s.files[i]? with
    | none =>
      have hle := List.getElem?_eq_none_iff.mp hfile
      rw [index_of_le hle, index_of_le (by rwa [contents, List.length_map])]
      exact Or.inr ⟨_, s, rfl, rfl, hs.same⟩
    | some file =>
      have hcontent : s.contents[i]? = some (s.disk.content file) := by
        rw [contents, List.getElem?_map, hfile, Option.map_some]
      rw [index_of_getElem? hfile, index_of_getElem? hcontent, ok_bind]
      cases subslice data blockPtr (blockPtr + len) with
      | error e => exact Or.inr ⟨e, s, rfl, rfl, hs.same⟩
      | ok bytes =>
        have hcontents := Disk.map_content_modify (d := s.disk) hfile (hs.nodup hroom)
          (writeAt · filePtr bytes)
        have hwrite := hs.modify hfile (writeAt · filePtr bytes)
        have hrest := ih (i + 1)
          (s := { s with disk := s.disk.modify file (writeAt · filePtr bytes) }) hwrite
        simp only [contents, hcontents] at hrest
        exact hrest

theorem storeBlock_cases (pieceOffset blockIndex : ℕ) (data : Bytes) {s : DiskDownload}
    (hs : Stored disk₀ paths s.filePaths s.files s.disk) :
    (∃ disk, TorrentClient.storeBlock s.contents s.fileOffsets pieceOffset blockIndex data =
        .ok (s.files.map disk.content) ∧
      storeBlock pieceOffset blockIndex data s = .ok () { s with disk } ∧
      Stored disk₀ paths s.filePaths s.files disk) ∨
    ∃ e s', TorrentClient.storeBlock s.contents s.fileOffsets pieceOffset blockIndex data =
        .error e ∧
      storeBlock pieceOffset blockIndex data s = .error e s' ∧
      disk₀.SameOutside (usedPlaces paths) s'.disk := by
  rw [storeBlock, bind_of_ok (get_ok s), TorrentClient.storeBlock]
  cases checkedMul32 blockIndex blockSize with
  | error e => exact Or.inr ⟨e, s, rfl, rfl, hs.same⟩
  | ok blockStart =>
    rw [ok_bind, ok_bind]
    cases checkedAdd pieceOffset blockStart with
    | error e => exact Or.inr ⟨e, s, rfl, rfl, hs.same⟩
    | ok blockOffset =>
      rw [ok_bind, bind_of_ok (pureStep_ok _ _)]
      cases searchPtrs s.fileOffsets blockOffset data.length with
      | error e => exact Or.inr ⟨e, s, rfl, rfl, hs.same⟩
      | ok found =>
        obtain ⟨i, vec⟩ := found
        exact storeParts_cases hroom data vec i hs

theorem follows_renameTempFile (fileIndex : ℕ) :
    Follows disk₀ paths (renameTempFile fileIndex) (Download.renameTempFile fileIndex) := by
  refine .get_bind ?_
  rintro s d ⟨rfl, hs⟩
  refine agree_pureStep ⟨rfl, hs⟩ fun filePath hpath => ?_
  have hget := index_eq_ok.mp hpath
  cases hstrip : stripTemp filePath with
  | none => exact .ok () ⟨rfl, hs⟩
  | some newName =>
    obtain ⟨file, hfile⟩ := hs.exists_file hget
    have hcontent : s.contents[fileIndex]? = some (s.disk.content file) := by
      rw [contents, List.getElem?_map, hfile, Option.map_some]
    obtain ⟨hrename, hopen⟩ := hs.renameFile_and_openFile hroom hget hfile hstrip
    have hmoved := hs.moveFile hroom hget hstrip
    -- the file that is opened under the new name is the one that was open
    have hsame : s.files.set fileIndex file = s.files := by
      obtain ⟨hlt, rfl⟩ := List.getElem?_eq_some_iff.mp hfile
      exact List.set_getElem_self hlt
    have hset : ∀ (s s' : DiskDownload) (f : PUnit → DiskDownloadM Unit),
        (set s' >>= f) s = f ⟨⟩ s' := fun _ _ _ => rfl
    simp only [hrename, ioResult, bind_of_ok (pureStep_ok _ _), hset, hopen,
      index_of_getElem? hfile, hsame]
    rw [show index s.view.files fileIndex = .ok (s.disk.content file) from
      index_of_getElem? hcontent]
    refine .ok () ⟨?_, hmoved⟩
    rfl

theorem follows_verifyFiles (pieceLen count : ℕ) (fileIndex : ℕ) :
    Follows disk₀ paths (verifyFiles pieceLen fileIndex count)
      (Download.verifyFiles pieceLen fileIndex count) := by
  induction count generalizing fileIndex with
  | zero => exact .pure ()
  | succ count ih =>
    refine .get_bind ?_
    rintro s d ⟨rfl, hs⟩
    refine agree_pureStep ⟨rfl, hs⟩ fun low _ => ?_
    refine agree_pureStep ⟨rfl, hs⟩ fun last _ => ?_
    refine agree_pureStep ⟨rfl, hs⟩ fun high _ => ?_
    refine agree_pureStep ⟨rfl, hs⟩ fun containedPieces _ => ?_
    have hrename := follows_runIf (containedPieces.all (·.isCompleted))
      (follows_renameTempFile hroom fileIndex)
    exact (hrename.bind fun _ => ih (fileIndex + 1)) _ _ ⟨rfl, hs⟩

theorem follows_verifyFile (pieceIndex : ℕ) :
    Follows disk₀ paths (verifyFile pieceIndex) (Download.verifyFile pieceIndex) := by
  refine .get_bind ?_
  rintro s d ⟨rfl, hs⟩
  refine agree_pureStep ⟨rfl, hs⟩ fun piece _ => ?_
  refine agree_pureStep ⟨rfl, hs⟩ fun found _ => ?_
  exact follows_verifyFiles hroom _ _ _ _ _ ⟨rfl, hs⟩

theorem follows_completePiece (pieceIndex blockIndex : UInt32) :
    Follows disk₀ paths (completePiece pieceIndex blockIndex)
      (Download.completePiece pieceIndex blockIndex) :=
  (follows_modifyPiece _ _).bind fun _ => (follows_verifyFile hroom _).bind fun _ =>
    follows_notify pieceIndex blockIndex

theorem follows_store (sha1 : Bytes → Sha1) (pieceIndex blockIndex : UInt32) (data : Bytes) :
    Follows disk₀ paths (store sha1 pieceIndex blockIndex data)
      (Download.store sha1 pieceIndex blockIndex data) := by
  refine .get_bind ?_
  rintro s d ⟨rfl, hs⟩
  refine agree_pureStep ⟨rfl, hs⟩ fun piece _ => ?_
  refine agree_pureStep ⟨rfl, hs⟩ fun hasBlock _ => ?_
  by_cases hdone : (hasBlock || piece.isCompleted) = true
  · rw [if_pos hdone, if_pos hdone]
    exact .ok () ⟨rfl, hs⟩
  rw [if_neg hdone, if_neg hdone]
  have hrest : Follows disk₀ paths _ _ :=
    .ite (c := (piece.completeBlock blockIndex.toNat).hasAllBlocks = true)
      ((follows_verify sha1 pieceIndex.toNat).bind fun valid =>
        .ite (c := valid = true) (follows_completePiece hroom pieceIndex blockIndex)
          (follows_modifyPiece pieceIndex.toNat Piece.resetBlocks))
      (follows_completePiece hroom pieceIndex blockIndex)
  rcases storeBlock_cases hroom piece.offset blockIndex.toNat data hs with
    ⟨disk, hlist, hdisk, hstored⟩ | ⟨e, s', hlist, hdisk, hsame⟩
  · have hview : pureStep (TorrentClient.storeBlock s.view.files s.view.fileOffsets piece.offset
        blockIndex.toNat data) s.view = .ok _ s.view := pureStep_eq_ok.mpr ⟨hlist, rfl⟩
    rw [bind_of_ok hdisk, bind_of_ok hview]
    exact hrest ({ s with disk }.modifyPiece _ _) _ ⟨rfl, hstored⟩
  · have hview : pureStep (TorrentClient.storeBlock s.view.files s.view.fileOffsets piece.offset
        blockIndex.toNat data) s.view = .error e s.view := by
      rw [view, hlist, pureStep_error]
    rw [bind_of_error hdisk, bind_of_error hview]
    exact .error e hsame

theorem follows_handleEvent (sha1 : Bytes → Sha1) (event : ManagerEvent) :
    Follows disk₀ paths (handleEvent sha1 event) (Download.handleEvent sha1 event) := by
  cases event with
  | download message =>
    cases message with
    | piece pieceIndex offset data =>
      exact (follows_store hroom sha1 _ _ _).bind fun _ => .pure Download.Reply.none
    | _ => exact .pure Download.Reply.none
  | requireData request =>
    exact (follows_retrieveData request).bind fun buf => .pure (Download.Reply.data buf)
  | requireIncompleteBlocks pieceIndex =>
    exact (follows_incompleteBlocksForPiece pieceIndex).bind fun res =>
      .pure (Download.Reply.incompleteBlocks res)
  | requireHavePieces =>
    refine .get_bind ?_
    rintro s d ⟨rfl, hs⟩
    exact .ok _ ⟨rfl, hs⟩
  | _ => exact .pure Download.Reply.none

theorem follows_downloadLoop (sha1 : Bytes → Sha1) (events : List ManagerEvent) :
    Follows disk₀ paths (downloadLoop sha1 events) (Download.downloadLoop sha1 events) := by
  induction events with
  | nil => exact .pure []
  | cons event events ih =>
    exact (follows_handleEvent hroom sha1 event).bind fun reply => ih.bind fun replies =>
      .pure (reply :: replies)

end
end DiskDownload
end TorrentClient
