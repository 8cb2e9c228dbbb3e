import TorrentClient.DiskSimulation
import TorrentClient.PieceCompletion

/-!
# What the disk shows of a download

The files are created where there is room for them, with what the disk held under their paths.
From then on the disk shows what the download task has stored.
-/
namespace TorrentClient
open FileSystems StateSimulations

/-- What a disk holds under a path. -/
def reads (disk : FileDisk) (path : String) : Bytes :=
  match disk.node (resolvePath path) with
  | some (.file file) => disk.content file
  | _ => []

/-- Every file is there with its content, and all else but the names of files is as it was. -/
structure Shows (disk₀ : FileDisk) (paths : List String) (disk : FileDisk) (d : Download) :
    Prop where
  file : ∀ (i : ℕ) filePath content, d.filePaths[i]? = some filePath →
    d.files[i]? = some content → disk.entry (resolvePath filePath) = some (.file content)
  name : ∀ (i : ℕ) filePath, d.filePaths[i]? = some filePath →
    ∃ path, paths[i]? = some path ∧ NameOf path filePath
  directory : ∀ p ∈ parentPlaces paths, disk.entry p = some .directory
  other : ∀ p, p ∉ usedPlaces paths → disk.entry p = disk₀.entry p

theorem createDirs_eq_ok {disk : FileDisk} {parents : List Place}
    (hfree : ∀ p ∈ parents, ∀ file, disk.node p ≠ some (.file file)) :
    ∃ disk', createDirs disk parents = .ok disk' ∧
      (∀ p ∈ parents, disk'.node p = some .directory) ∧
      (∀ p, disk.node p = some .directory → disk'.node p = some .directory) ∧
      disk.SameOutside {p | p ∈ parents} disk' := by
  unfold createDirs
  split
  case h_1 node hwalk hsome =>
    refine ⟨disk, rfl, ?_, fun _ hp => hp, .refl _ disk⟩
    intro p hp
    obtain ⟨last, hlast, hnode⟩ := Option.bind_eq_some_iff.mp hsome
    rw [← List.dropLast_append_getLast? last hlast] at hp
    rcases List.mem_append.mp hp with hp | hp
    · exact Disk.walk_eq_ok.mp hwalk p hp
    · obtain rfl := List.mem_singleton.mp hp
      cases node with
      | directory => exact hnode
      | file file => exact absurd hnode (hfree p (List.mem_of_getLast? hlast) file)
  case h_2 =>
    obtain ⟨disk', hmake, hrest⟩ := Disk.makeDirectories_eq_ok hfree
    rw [hmake]
    exact ⟨disk', rfl, hrest⟩

/-- Where a round of `create_files` makes something. -/
def createdPlaces (path : String) : Set Place :=
  {p | p ∈ (diskPath path).parents} ∪ {resolvePath path}

/-- What a round of `create_files` does to the disk. -/
structure Created (path : String) (length : ℕ) (disk : FileDisk) (file : ℕ) (disk' : FileDisk) :
    Prop where
  node_eq : disk'.node (resolvePath path) = some (.file file)
  content_eq : disk'.content file = setLen (reads disk path) length
  parents : ∀ p ∈ (diskPath path).parents, disk'.node p = some .directory
  same : disk.SameOutside (createdPlaces path) disk'

theorem created {disk : FileDisk} {path : String} (length : ℕ)
    (hparents : ∀ p ∈ (diskPath path).parents, ∀ file, disk.node p ≠ some (.file file))
    (hfree : disk.node (resolvePath path) ≠ some .directory)
    (hne : resolvePath path ∉ (diskPath path).parents) :
    ∃ disk₁ file disk₂, createDirs disk (diskPath path).parents = .ok disk₁ ∧
      disk₁.openFile (diskPath path) = .ok (file, disk₂) ∧
      Created path length disk file (disk₂.modify file (setLen · length)) := by
  obtain ⟨disk₁, hdirs, hmade, -, hsame⟩ := createDirs_eq_ok hparents
  have hwalk : disk₁.walk (diskPath path).parents = .ok () := Disk.walk_eq_ok.mpr hmade
  obtain ⟨hnode, hcontent⟩ := hsame _ hne
  cases hfile : disk.node (resolvePath path) with
  | none =>
    refine ⟨disk₁, disk₁.next, disk₁.createFile (resolvePath path), hdirs,
      Disk.openFile_of_none hwalk (hnode.trans hfile), ?_⟩
    have hcreated : (disk₁.createFile (resolvePath path)).node (resolvePath path) =
        some (.file disk₁.next) := if_pos rfl
    constructor
    case node_eq => exact hcreated
    case content_eq =>
      have hempty : (disk₁.createFile (resolvePath path)).content disk₁.next = [] := if_pos rfl
      rw [Disk.content_modify, hempty, reads, hfile]
    case parents =>
      intro p hp
      have hp' : p ≠ resolvePath path := by
        rintro rfl
        exact hne hp
      rw [Disk.node_modify, Disk.node_createFile, if_neg hp']
      exact hmade p hp
    case same =>
      exact hsame.trans_union ((Disk.sameOutside_createFile disk₁ _).trans
        (Disk.sameOutside_modify _ hcreated))
  | some node =>
    cases node with
    | directory => exact absurd hfile hfree
    | file file =>
      refine ⟨disk₁, file, disk₁, hdirs, Disk.openFile_of_file hwalk (hnode.trans hfile), ?_⟩
      constructor
      case node_eq => exact hnode.trans hfile
      case content_eq => rw [Disk.content_modify, hcontent file hfile, reads, hfile]
      case parents => exact hmade
      case same =>
        exact hsame.trans_union (Disk.sameOutside_modify _ (hnode.trans hfile))

/-! ### All files -/

theorem parentPlaces_cons (path : String) (paths : List String) :
    parentPlaces (path :: paths) = {p | p ∈ (diskPath path).parents} ∪ parentPlaces paths := by
  ext p
  simp [parentPlaces]

theorem usedPlaces_subset_cons (path : String) (paths : List String) :
    usedPlaces paths ⊆ usedPlaces (path :: paths) := by
  rintro p (⟨path', hpath', hp⟩ | ⟨path', hpath', hp⟩)
  · exact Or.inl ⟨path', List.mem_cons_of_mem _ hpath', hp⟩
  · exact Or.inr ⟨path', List.mem_cons_of_mem _ hpath', hp⟩

theorem createFilesLoop_congr {disk disk' : String → Bytes} {fileInfos : List (ℕ × String)}
    (h : ∀ info ∈ fileInfos, disk' info.2 = disk info.2) (fileOffset : ℕ) :
    createFilesLoop disk' fileOffset fileInfos = createFilesLoop disk fileOffset fileInfos := by
  induction fileInfos generalizing fileOffset with
  | nil => rfl
  | cons info fileInfos ih =>
    obtain ⟨hinfo, hrest⟩ := List.forall_mem_cons.mp h
    simp only [createFilesLoop, hinfo, ih hrest]

section
variable {path : String} {paths : List String} {length file : ℕ} {disk disk' disk'' : FileDisk}
  (hroom : HasRoom disk (path :: paths)) (hcreated : Created path length disk file disk')
include hroom

theorem notMem_usedPlaces_of_cons {p : Place} (hp : p ∈ places path) : p ∉ usedPlaces paths := by
  have hparents := hroom.places_ne_parents path List.mem_cons_self p hp
  rw [parentPlaces_cons] at hparents
  rintro (hp' | ⟨path', hpath', hp'⟩)
  · exact hparents (Or.inr hp')
  · exact (List.pairwise_cons.mp hroom.apart).1 path' hpath' p hp hp'

theorem notMem_created {path' : String} (hpath' : path' ∈ paths) {p : Place}
    (hp : p ∈ places path') : p ∉ createdPlaces path := by
  have hparents := hroom.places_ne_parents path' (List.mem_cons_of_mem _ hpath') p hp
  rw [parentPlaces_cons] at hparents
  rintro (hp' | rfl)
  · exact hparents (Or.inl hp')
  · exact notMem_usedPlaces_of_cons hroom (mem_places_self path) (Or.inr ⟨path', hpath', hp⟩)

include hcreated

/-- There is room for the rest of the files after one of them was created. -/
theorem Created.hasRoom : HasRoom disk' paths where
  parents_free := by
    intro p hp file'
    by_cases hmem : p ∈ createdPlaces path
    · rcases hmem with hmem | rfl
      · rw [hcreated.parents p hmem]
        exact fun h => by cases h
      · exact absurd (Or.inl hp) (notMem_usedPlaces_of_cons hroom (mem_places_self path))
    · rw [(hcreated.same p hmem).1]
      refine hroom.parents_free p ?_ file'
      rw [parentPlaces_cons]
      exact Or.inr hp
  places_free := by
    intro path' hpath' p hp
    rw [(hcreated.same p (notMem_created hroom hpath' hp)).1]
    exact hroom.places_free path' (List.mem_cons_of_mem _ hpath') p hp
  places_ne_parents := by
    intro path' hpath' p hp hparent
    refine hroom.places_ne_parents path' (List.mem_cons_of_mem _ hpath') p hp ?_
    rw [parentPlaces_cons]
    exact Or.inr hparent
  apart := (List.pairwise_cons.mp hroom.apart).2

theorem Created.reads_eq {path' : String} (hpath' : path' ∈ paths) :
    reads disk' path' = reads disk path' := by
  obtain ⟨hnode, hcontent⟩ := hcreated.same _ (notMem_created hroom hpath' (mem_places_self path'))
  rw [reads, reads, hnode]
  cases hfile : disk.node (resolvePath path') with
  | none => rfl
  | some node =>
    cases node with
    | directory => rfl
    | file file' => exact hcontent file' hfile

/-- The first file stays as it was created. -/
theorem Created.stored {files : List ℕ} (hs : Stored disk' paths paths files disk'') :
    Stored disk (path :: paths) (path :: paths) (file :: files) disk'' ∧
      disk''.content file = setLen (reads disk path) length := by
  obtain ⟨hnode, hcontent⟩ := hs.same _
    (notMem_usedPlaces_of_cons hroom (mem_places_self path))
  refine ⟨?_, (hcontent file hcreated.node_eq).trans hcreated.content_eq⟩
  constructor
  case length_files => rw [List.length_cons, List.length_cons, hs.length_files]
  case opened =>
    intro i filePath file' hi hfile'
    cases i with
    | zero =>
      obtain ⟨rfl, rfl⟩ : path = filePath ∧ file = file' := by simp_all
      exact hnode.trans hcreated.node_eq
    | succ i => exact hs.opened i filePath file' hi hfile'
  case names => exact fun i filePath hi => ⟨filePath, hi, .refl⟩
  case directories =>
    intro p hp
    by_cases hrest : p ∈ parentPlaces paths
    · exact hs.directories p hrest
    have hp' : p ∈ (diskPath path).parents := by
      rw [parentPlaces_cons] at hp
      exact hp.resolve_right hrest
    have hunused : p ∉ usedPlaces paths := by
      rintro (hmem | ⟨path', hpath', hmem⟩)
      · exact hrest hmem
      · exact hroom.places_ne_parents path' (List.mem_cons_of_mem _ hpath') p hmem hp
    rw [(hs.same p hunused).1]
    exact hcreated.parents p hp'
  case places_free =>
    intro path' hpath' p hp
    rcases List.mem_cons.mp hpath' with rfl | hpath'
    · rw [(hs.same p (notMem_usedPlaces_of_cons hroom hp)).1]
      by_cases hself : p = resolvePath path'
      · rw [hself, hcreated.node_eq]
        exact fun h => by cases h
      have hparents := hroom.places_ne_parents path' List.mem_cons_self p hp
      rw [parentPlaces_cons] at hparents
      have hmem : p ∉ createdPlaces path' := by
        rintro (hmem | hmem)
        · exact hparents (Or.inl hmem)
        · exact hself hmem
      rw [(hcreated.same p hmem).1]
      exact hroom.places_free path' List.mem_cons_self p hp
    · exact hs.places_free path' hpath' p hp
  case same =>
    refine (hcreated.same.mono ?_).trans (hs.same.mono (usedPlaces_subset_cons path paths))
    rintro p (hp | rfl)
    · exact Or.inl ⟨path, List.mem_cons_self, hp⟩
    · exact Or.inr ⟨path, List.mem_cons_self, mem_places_self path⟩

end

namespace DiskDownload

theorem createFilesLoop_cases {fileInfos : List (ℕ × String)} {disk : FileDisk}
    (hroom : HasRoom disk (fileInfos.map Prod.snd)) (fileOffset : ℕ) :
    (∃ fault, createFilesLoop disk fileOffset fileInfos = .error fault ∧
      TorrentClient.createFilesLoop (reads disk) fileOffset fileInfos = .error fault) ∨
    ∃ fileOffsets files disk',
      createFilesLoop disk fileOffset fileInfos =
        .ok (fileOffsets, fileInfos.map Prod.snd, files, disk') ∧
      TorrentClient.createFilesLoop (reads disk) fileOffset fileInfos =
        .ok (fileOffsets, fileInfos.map Prod.snd, files.map disk'.content) ∧
      Stored disk (fileInfos.map Prod.snd) (fileInfos.map Prod.snd) files disk' := by
  induction fileInfos generalizing disk fileOffset with
  | nil =>
    refine Or.inr ⟨[fileOffset], [], disk, rfl, rfl, ?_⟩
    constructor
    case length_files => rfl
    case opened => exact fun i filePath file hi => by cases hi
    case names => exact fun i filePath hi => by cases hi
    case directories => rintro p ⟨path, hpath, -⟩; cases hpath
    case places_free => exact fun path hpath => by cases hpath
    case same => exact .refl _ disk
  | cons info fileInfos ih =>
    obtain ⟨length, path⟩ := info
    rw [List.map_cons] at hroom ⊢
    have hself : path ∈ path :: fileInfos.map Prod.snd := List.mem_cons_self
    have hparents : ∀ p ∈ (diskPath path).parents, ∀ file, disk.node p ≠ some (.file file) :=
      fun p hp => hroom.parents_free p ⟨path, hself, hp⟩
    have hne : resolvePath path ∉ (diskPath path).parents := fun hp =>
      hroom.places_ne_parents path hself _ (mem_places_self path) ⟨path, hself, hp⟩
    obtain ⟨disk₁, file, disk₂, hdirs, hopen, hcreated⟩ :=
      created length hparents (hroom.places_free path hself _ (mem_places_self path)) hne
    have hreads : ∀ info ∈ fileInfos,
        reads (disk₂.modify file (setLen · length)) info.2 = reads disk info.2 := by
      intro info hinfo
      exact hcreated.reads_eq hroom (List.mem_map_of_mem hinfo)
    simp only [createFilesLoop, TorrentClient.createFilesLoop, hdirs, hopen, ioResult, ok_bind]
    cases checkedAdd fileOffset length with
    | error fault => exact Or.inl ⟨fault, rfl, rfl⟩
    | ok next =>
      rw [ok_bind, ok_bind, ← createFilesLoop_congr hreads]
      rcases ih (hcreated.hasRoom hroom) next with
        ⟨fault, hdisk, hlist⟩ | ⟨fileOffsets, files, disk', hdisk, hlist, hs⟩
      · rw [hdisk, hlist]
        exact Or.inl ⟨fault, rfl, rfl⟩
      · obtain ⟨hstored, hcontent⟩ := hcreated.stored hroom hs
        rw [hdisk, hlist]
        refine Or.inr ⟨fileOffset :: fileOffsets, file :: files, disk', rfl, ?_, hstored⟩
        rw [List.map_cons, hcontent]
        rfl

theorem start_cases {disk : FileDisk} {metaInfo : TorrentMetaInfo}
    (hroom : HasRoom disk ((createFileInfos metaInfo.info).map Prod.snd)) :
    (∃ fault, start disk metaInfo = .error fault ∧
      Download.start (reads disk) metaInfo = .error fault) ∨
    ∃ s, start disk metaInfo = .ok s ∧ Download.start (reads disk) metaInfo = .ok s.view ∧
      Stored disk ((createFileInfos metaInfo.info).map Prod.snd) s.filePaths s.files s.disk := by
  unfold start Download.start createFiles TorrentClient.createFiles
  rcases createFilesLoop_cases hroom 0 with
    ⟨fault, hdisk, hlist⟩ | ⟨fileOffsets, files, disk', hdisk, hlist, hs⟩
  · rw [hdisk, hlist]
    exact Or.inl ⟨fault, rfl, rfl⟩
  · rw [hdisk, hlist, ok_bind, ok_bind]
    dsimp only
    cases index fileOffsets (fileOffsets.length - 1) with
    | error fault => exact Or.inl ⟨fault, rfl, rfl⟩
    | ok len =>
      rw [ok_bind, ok_bind]
      cases createPieces len metaInfo with
      | error fault => exact Or.inl ⟨fault, rfl, rfl⟩
      | ok pieces => exact Or.inr ⟨_, rfl, rfl, hs⟩

theorem shows_of_holds {disk : FileDisk} {paths : List String} (s : DiskDownload) (d : Download)
    (h : Holds disk paths s d) : Shows disk paths s.disk d := by
  obtain ⟨rfl, hs⟩ := h
  constructor
  case file =>
    intro i filePath content hi hcontent
    obtain ⟨file, hfile⟩ := hs.exists_file hi
    have hget : s.contents[i]? = some (s.disk.content file) := by
      rw [contents, List.getElem?_map, hfile, Option.map_some]
    obtain rfl := Option.some.inj (hget.symm.trans hcontent)
    exact Disk.entry_of_file (hs.opened i filePath file hi hfile)
  case name => exact hs.names
  case directory =>
    intro p hp
    rw [Disk.entry, hs.directories p hp]
  case other => exact fun p hp => hs.same.entry_eq hp

/-- Where there is room for the files, the task on the disk replies like the one that keeps the
contents, also where it fails; the disk shows every file with its content, and all other places
stay as they are. -/
theorem disk_shows_download {disk : FileDisk} {metaInfo : TorrentMetaInfo} {paths : List String}
    (hpaths : (createFileInfos metaInfo.info).map Prod.snd = paths) (hroom : HasRoom disk paths)
    (sha1 : Bytes → Sha1) (events : List ManagerEvent) :
    (∃ fault, start disk metaInfo = .error fault ∧
      Download.start (reads disk) metaInfo = .error fault) ∨
    ∃ s d, start disk metaInfo = .ok s ∧ Download.start (reads disk) metaInfo = .ok d ∧
      Alike (fun s d => Shows disk paths s.disk d)
        (fun s _ => ∀ p, p ∉ usedPlaces paths → s.disk.entry p = disk.entry p)
        (downloadLoop sha1 events s) (Download.downloadLoop sha1 events d) := by
  subst hpaths
  rcases start_cases hroom with hfault | ⟨s, hdisk, hlist, hs⟩
  · exact Or.inl hfault
  · refine Or.inr ⟨s, s.view, hdisk, hlist, ?_⟩
    have hloop := follows_downloadLoop hroom sha1 events s s.view ⟨rfl, hs⟩
    exact hloop.mono shows_of_holds fun _ _ hsame _ hp => hsame.entry_eq hp

/-- A disk with nothing but the working directory. -/
def workingDirectory : FileDisk where
  node := fun p => if p = (0, []) then some .directory else none
  content := fun _ => []
  next := 0
  handle_lt := by
    intro p file h
    split_ifs at h
    cases h
  handle_inj := by
    intro p q file h
    split_ifs at h
    cases h

theorem node_workingDirectory (p : Place) :
    workingDirectory.node p = if p = (0, []) then some .directory else none := rfl

theorem nameOf_oneBlock {name : String} (h : NameOf "downloads/f.temp" name) :
    name = "downloads/f.temp" ∨ name = "downloads/f" := by
  have hstrip : stripTemp "downloads/f.temp" = some "downloads/f" := by decide +kernel
  have hlast : stripTemp "downloads/f" = none := by decide +kernel
  induction h with
  | refl => exact Or.inl rfl
  | tail _ hnext ih =>
    rcases ih with rfl | rfl
    · exact Or.inr (Option.some.inj (hnext.symm.trans hstrip))
    · rw [hlast] at hnext
      cases hnext

theorem hasRoom_oneBlock : HasRoom workingDirectory ["downloads/f.temp"] := by
  have hplace : ∀ p ∈ places "downloads/f.temp", p ≠ (0, []) ∧ p ≠ (0, ["downloads".toList]) := by
    rintro p ⟨name, hname, rfl⟩
    rcases nameOf_oneBlock hname with rfl | rfl
    · decide +kernel
    · decide +kernel
  have hparents : (diskPath "downloads/f.temp").parents = [(0, []), (0, ["downloads".toList])] := by
    decide +kernel
  constructor
  case parents_free =>
    intro p _ file h
    rw [node_workingDirectory] at h
    split_ifs at h
    cases h
  case places_free =>
    intro path hpath p hp
    obtain rfl := List.mem_singleton.mp hpath
    rw [node_workingDirectory, if_neg (hplace p hp).1]
    exact fun h => by cases h
  case places_ne_parents =>
    intro path hpath p hp hparent
    obtain rfl := List.mem_singleton.mp hpath
    obtain ⟨path', hpath', hparent⟩ := hparent
    obtain rfl := List.mem_singleton.mp hpath'
    rw [hparents, List.mem_pair] at hparent
    obtain ⟨hne, hne'⟩ := hplace p hp
    exact hparent.elim hne hne'
  case apart => exact List.pairwise_singleton _ _

theorem reads_workingDirectory : reads workingDirectory = fun _ => [] := by
  funext path
  rw [reads, node_workingDirectory]
  by_cases h : resolvePath path = (0, [])
  · rw [if_pos h]
  · rw [if_neg h]

theorem disk_shows_download_oneBlock :
    ∃ s d, start workingDirectory Download.oneBlockTorrent = .ok s ∧
      Download.start (reads workingDirectory) Download.oneBlockTorrent = .ok d ∧
      Alike (fun s d => Shows workingDirectory ["downloads/f.temp"] s.disk d)
        (fun s _ => ∀ p, p ∉ usedPlaces ["downloads/f.temp"] →
          s.disk.entry p = workingDirectory.entry p)
        (downloadLoop (fun _ => Sha1.replicate 0) [.download (.piece 0 0 [7])] s)
        (Download.downloadLoop (fun _ => Sha1.replicate 0) [.download (.piece 0 0 [7])] d) := by
  have h := @disk_shows_download workingDirectory Download.oneBlockTorrent _ rfl hasRoom_oneBlock
    (fun _ => Sha1.replicate 0) [.download (.piece 0 0 [7])]
  rcases h with ⟨fault, -, hlist⟩ | h
  · rw [reads_workingDirectory, Download.start_oneBlockTorrent] at hlist
    cases hlist
  · exact h

end DiskDownload
end TorrentClient
