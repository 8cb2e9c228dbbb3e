import TorrentClient.ContentAssembly
import TorrentClient.DiskContents
import TorrentClient.FileNames

/-!
# Delivered files

Once the correct blocks of a torrent have arrived, the files on the disk have lost their
temporary names and hold the content of the torrent.
-/
namespace TorrentClient
open FileSystems ListRanges StateSimulations TransitionRuns PieceMessage

namespace Download

variable {sha1 : Bytes → Sha1} {d d' : Download}

theorem reachable_of_downloadLoop {events : List ManagerEvent} {replies : List Reply}
    (h : downloadLoop sha1 events d = .ok replies d') : Reachable (eventStep sha1) d d' := by
  induction events generalizing replies d with
  | nil =>
    cases h
    exact .refl
  | cons event events ih =>
    obtain ⟨reply, e, hevent, hrest⟩ := stateful_bind_eq_ok.mp h
    obtain ⟨replies', e', hloop, hend⟩ := stateful_bind_eq_ok.mp hrest
    cases hend
    exact (Reachable.tail .refl ⟨reply, hevent⟩).trans (ih hloop)

/-- A file is its range of the content. -/
theorem getElem?_files (d : Download) {i : ℕ} (hi : i < d.files.length) :
    d.files[i]? = some (slice d.content (d.fileStart i) (d.fileStart (i + 1) - d.fileStart i)) := by
  have hsplit : d.content =
      (d.files.take i).flatten ++ (d.files[i] ++ (d.files.drop (i + 1)).flatten) := by
    rw [content, ← List.flatten_cons, ← List.drop_eq_getElem_cons hi, ← List.flatten_append,
      List.take_append_drop]
  have hslice : slice d.content (d.fileStart i) d.files[i].length = d.files[i] := by
    rw [hsplit, fileStart]
    have hright := slice_append_right (d.files.take i).flatten
      (d.files[i] ++ (d.files.drop (i + 1)).flatten) 0 d.files[i].length
    refine hright.trans ?_
    rw [slice_append_left (by omega), slice_full]
  rw [fileStart_succ d hi, Nat.add_sub_cancel_left, hslice, List.getElem?_eq_getElem hi]

theorem start_filePaths {disk : String → Bytes} {metaInfo : TorrentMetaInfo}
    (h : start disk metaInfo = .ok d) :
    d.filePaths = (createFileInfos metaInfo.info).map Prod.snd := by
  obtain ⟨⟨fileOffsets, filePaths, files⟩, hfiles, hrest⟩ := bind_eq_ok.mp h
  obtain ⟨_, -, hpieces⟩ := bind_eq_ok.mp hrest
  obtain ⟨_, -, hd⟩ := bind_eq_ok.mp hpieces
  cases hd
  exact (createFiles_spec hfiles).2.2.2

theorem fileStart_eq (hd : d.WellFormed) (hd' : d'.WellFormed)
    (hoffsets : d'.fileOffsets = d.fileOffsets) (hcount : d'.files.length = d.files.length) {i : ℕ}
    (hi : i ≤ d.files.length) : d'.fileStart i = d.fileStart i := by
  have hold := (fileOffset_eq hd hi).1
  have hnew := (fileOffset_eq hd' (hcount ▸ hi)).1
  rw [hoffsets, hold] at hnew
  exact (Option.some.inj hnew).symm

/-- After a delivery every file has its name and its range of the content. -/
theorem delivery_finishes_files {disk : String → Bytes} {metaInfo : TorrentMetaInfo}
    {d₀ : Download} {content : Bytes} {messages : List PieceMessage}
    (hlaunch : launch disk metaInfo = .ok d₀) (h : TorrentOf sha1 d₀ content)
    (hm : Delivery d₀ content messages) (hheld : HeldFromStart d₀ content messages) :
    ∃ replies d, downloadLoop sha1 (messages.map event) d₀ = .ok replies d ∧
      ∀ (i : ℕ) path, d₀.filePaths[i]? = some path → ∃ newName, stripTemp path = some newName ∧
        d.filePaths[i]? = some newName ∧ d.files[i]? =
          some (slice content (d₀.fileStart i) (d₀.fileStart (i + 1) - d₀.fileStart i)) := by
  obtain ⟨hstart, -⟩ := launch_eq_ok.mp hlaunch
  obtain ⟨hwf, hmeta, -, -, hincomplete⟩ := start_spec hstart
  obtain ⟨replies, d, hloop, ha⟩ :=
    h.handle_all hwf (assembled_nil hwf hincomplete) messages hm.correct
  rw [List.nil_append] at ha
  have hcontent := (ha.content_eq_iff h hwf).mpr hheld
  have hcompleted := ha.all_completed h hwf hm
  obtain ⟨hplain, hnamed⟩ : Plain d₀.filePaths d ∧ Named d₀.filePaths d :=
    (reachable_of_downloadLoop hloop).invariant
      (launch_plain hlaunch (hmeta ▸ h.pieceLength_lt) h.files_ne_nil)
      fun _ _ _ hinv hstep => hstep.named hinv.1 hinv.2
  refine ⟨replies, d, hloop, fun i path hi => ?_⟩
  have hlt := (List.getElem?_eq_some_iff.mp hi).1
  obtain ⟨newName, hname⟩ := hplain.temp path (List.mem_of_getElem? hi)
  have hall : ∀ q, d.Overlaps q i → d.havePieces[q]? = some true := by
    intro q hq
    have hpiece := List.getElem?_eq_getElem (hplain.wellFormed.length_pieces.symm ▸ hq.1)
    rw [havePieces, List.getElem?_map, hpiece, Option.map_some,
      hcompleted _ (List.mem_of_getElem? hpiece)]
  have hpath := hnamed.renamed i path hi hall
  have hcount : d.files.length = d₀.files.length :=
    hplain.length_paths.symm.trans hwf.length_paths
  have hf : i < d₀.files.length := hwf.length_paths ▸ hlt
  have hstarts := fun {j} => @fileStart_eq d₀ d hwf ha.wellFormed ha.fileOffsets_eq hcount j
  have hfile := getElem?_files d (hcount.symm ▸ hf)
  rw [hcontent, hstarts (Nat.le_of_lt hf), hstarts hf] at hfile
  exact ⟨newName, hname, hpath.trans hname, hfile⟩

end Download

namespace DiskDownload
open Download

/-- A delivery of correct blocks, in any order and with repetitions, is handled without a failure,
and leaves every file under its name without `.temp` with its range of the content, if the files
held the other blocks of each piece before; all other places of the disk stay as they are. -/
theorem delivery_fills_disk {sha1 : Bytes → Sha1} {disk : FileDisk} {metaInfo : TorrentMetaInfo}
    {paths : List String} {d₀ : Download} {content : Bytes} {messages : List PieceMessage}
    (hpaths : (createFileInfos metaInfo.info).map Prod.snd = paths) (hroom : HasRoom disk paths)
    (hlaunch : launch (reads disk) metaInfo = .ok d₀) (h : TorrentOf sha1 d₀ content)
    (hm : Delivery d₀ content messages) (hheld : HeldFromStart d₀ content messages) :
    ∃ s replies s', start disk metaInfo = .ok s ∧
      downloadLoop sha1 (messages.map event) s = .ok replies s' ∧
      (∀ (i : ℕ) path, paths[i]? = some path → ∃ newName, stripTemp path = some newName ∧
        s'.filePaths[i]? = some newName ∧ s'.disk.entry (resolvePath newName) = some (.file
          (slice content (d₀.fileStart i) (d₀.fileStart (i + 1) - d₀.fileStart i)))) ∧
      ∀ p, p ∉ usedPlaces paths → s'.disk.entry p = disk.entry p := by
  subst hpaths
  obtain ⟨hstart, -⟩ := launch_eq_ok.mp hlaunch
  obtain ⟨replies, d, hloop, hfinished⟩ := delivery_finishes_files hlaunch h hm hheld
  rcases start_cases hroom with ⟨fault, -, hlist⟩ | ⟨s, hdisk, hlist, hs⟩
  · rw [hstart] at hlist
    cases hlist
  · rw [hstart] at hlist
    cases hlist
    have hfollows := follows_downloadLoop hroom sha1 (messages.map event) s _ ⟨rfl, hs⟩
    rw [hloop] at hfollows
    cases hrun : downloadLoop sha1 (messages.map event) s with
    | error e s' =>
      rw [hrun] at hfollows
      cases hfollows
    | ok replies' s' =>
      rw [hrun] at hfollows
      cases hfollows with
      | ok _ hholds =>
        have hshows := shows_of_holds s' d hholds
        refine ⟨s, replies, s', hdisk, hrun, fun i path hi => ?_, hshows.other⟩
        rw [← start_filePaths hstart] at hi
        obtain ⟨newName, hname, hpath, hfile⟩ := hfinished i path hi
        refine ⟨newName, hname, ?_, hshows.file i newName _ hpath hfile⟩
        rw [hholds.1] at hpath
        exact hpath

theorem heldFromStart_oneBlock : HeldFromStart oneBlockDownload [7] [⟨0, 0, [7]⟩] := by
  intro i piece j block hp hb hfirst
  obtain ⟨hi, rfl⟩ := List.getElem?_eq_some_iff.mp hp
  obtain rfl : i = 0 := Nat.lt_one_iff.mp hi
  obtain ⟨hj, rfl⟩ := List.getElem?_eq_some_iff.mp hb
  obtain rfl : j = 0 := Nat.lt_one_iff.mp hj
  exact absurd rfl hfirst

theorem delivery_fills_disk_oneBlock :
    ∃ s replies s', start workingDirectory oneBlockTorrent = .ok s ∧
      downloadLoop (fun _ => Sha1.replicate 0) ([PieceMessage.mk 0 0 [7]].map event) s =
        .ok replies s' ∧
      (∀ (i : ℕ) path, ["downloads/f.temp"][i]? = some path →
        ∃ newName, stripTemp path = some newName ∧ s'.filePaths[i]? = some newName ∧
          s'.disk.entry (resolvePath newName) = some (.file (slice [7]
            (oneBlockDownload.fileStart i)
            (oneBlockDownload.fileStart (i + 1) - oneBlockDownload.fileStart i)))) ∧
      ∀ p, p ∉ usedPlaces ["downloads/f.temp"] → s'.disk.entry p = workingDirectory.entry p := by
  have hlaunch : launch (reads workingDirectory) oneBlockTorrent = .ok oneBlockDownload := by
    rw [reads_workingDirectory]
    rfl
  exact delivery_fills_disk rfl hasRoom_oneBlock hlaunch torrentOf_oneBlock delivery_oneBlock
    heldFromStart_oneBlock

end DiskDownload
end TorrentClient
