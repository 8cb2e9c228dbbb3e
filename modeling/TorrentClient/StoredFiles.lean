import TorrentClient.DiskDownload

/-!
# Where the files of a torrent are on a disk

A file keeps its directories when it loses its `.temp` ending. There is room for the files of a
torrent where no place is used twice: not by two files, however often they are renamed, and not by
a file and a directory.
-/
namespace TorrentClient
open FileSystems PathResolution

/-- The path, or what is left of it without some `.temp` endings. -/
def NameOf : String → String → Prop :=
  Relation.ReflTransGen fun filePath newName => stripTemp filePath = some newName

/-- The directories that the paths pass through. -/
def parentPlaces (paths : List String) : Set Place :=
  {p | ∃ path ∈ paths, p ∈ (diskPath path).parents}

/-- Where the file of a path can come to be. -/
def places (path : String) : Set Place := {p | ∃ name, NameOf path name ∧ resolvePath name = p}

/-- All that the download of files under these paths changes. -/
def usedPlaces (paths : List String) : Set Place :=
  parentPlaces paths ∪ {p | ∃ path ∈ paths, p ∈ places path}

structure HasRoom (disk : FileDisk) (paths : List String) : Prop where
  parents_free : ∀ p ∈ parentPlaces paths, ∀ file, disk.node p ≠ some (.file file)
  places_free : ∀ path ∈ paths, ∀ p ∈ places path, disk.node p ≠ some .directory
  places_ne_parents : ∀ path ∈ paths, ∀ p ∈ places path, p ∉ parentPlaces paths
  apart : paths.Pairwise fun path path' => ∀ p ∈ places path, p ∉ places path'

theorem toList_of_stripTemp {path name : String} (h : stripTemp path = some name) :
    path.toList = name.toList ++ ".temp".toList := by
  unfold stripTemp at h
  split_ifs at h with htemp
  obtain ⟨start, hstart⟩ := htemp
  obtain rfl := Option.some.inj h
  have htake : path.toList.take (path.toList.length - 5) = start := by simp [← hstart]
  rw [htake, String.toList_ofList, hstart]

theorem parents_of_stripTemp {path name : String} (h : stripTemp path = some name) :
    (diskPath name).parents = (diskPath path).parents := by
  have htemp : '/' ∉ ".temp".toList := by decide
  have hsegments : (segments path).dropLast = (segments name).dropLast := by
    rw [segments, toList_of_stripTemp h, splitOn_append_of_notMem htemp, List.dropLast_concat]
    rfl
  rw [diskPath, diskPath, hsegments]

theorem NameOf.parents_eq {path name : String} (h : NameOf path name) :
    (diskPath name).parents = (diskPath path).parents := by
  induction h with
  | refl => rfl
  | tail _ hstrip ih => exact (parents_of_stripTemp hstrip).trans ih

theorem NameOf.mem_places {path name : String} (h : NameOf path name) :
    resolvePath name ∈ places path := ⟨name, h, rfl⟩

theorem mem_places_self (path : String) : resolvePath path ∈ places path :=
  NameOf.mem_places .refl

theorem places_subset_usedPlaces {path : String} {paths : List String} (hpath : path ∈ paths) :
    places path ⊆ usedPlaces paths := fun _ hp => Or.inr ⟨path, hpath, hp⟩

theorem parents_subset_parentPlaces {path : String} {paths : List String} (hpath : path ∈ paths) :
    ∀ p ∈ (diskPath path).parents, p ∈ parentPlaces paths := fun _ hp => ⟨path, hpath, hp⟩

/-- Every file is at the place of its path, and nothing else has changed. -/
structure Stored (disk₀ : FileDisk) (paths filePaths : List String) (files : List ℕ)
    (disk : FileDisk) : Prop where
  length_files : files.length = filePaths.length
  opened : ∀ (i : ℕ) filePath file, filePaths[i]? = some filePath → files[i]? = some file →
    disk.node (resolvePath filePath) = some (.file file)
  names : ∀ (i : ℕ) filePath, filePaths[i]? = some filePath →
    ∃ path, paths[i]? = some path ∧ NameOf path filePath
  directories : ∀ p ∈ parentPlaces paths, disk.node p = some .directory
  places_free : ∀ path ∈ paths, ∀ p ∈ places path, disk.node p ≠ some .directory
  same : disk₀.SameOutside (usedPlaces paths) disk

namespace Stored

variable {disk₀ disk : FileDisk} {paths filePaths : List String} {files : List ℕ} {i j file : ℕ}
  {filePath newName : String}

theorem exists_file (hs : Stored disk₀ paths filePaths files disk)
    (hi : filePaths[i]? = some filePath) : ∃ file, files[i]? = some file := by
  obtain ⟨hlt, -⟩ := List.getElem?_eq_some_iff.mp hi
  exact ⟨_, List.getElem?_eq_getElem (hs.length_files ▸ hlt)⟩

theorem walk (hs : Stored disk₀ paths filePaths files disk) {path : String} (hpath : path ∈ paths)
    (hname : NameOf path filePath) : disk.walk (diskPath filePath).parents = .ok () := by
  rw [Disk.walk_eq_ok, hname.parents_eq]
  exact fun p hp => hs.directories p (parents_subset_parentPlaces hpath p hp)

/-- Files at different positions do not get in each other's way. -/
theorem resolvePath_notMem (hroom : HasRoom disk₀ paths)
    (hs : Stored disk₀ paths filePaths files disk) {path : String} (hpath : paths[i]? = some path)
    (hj : filePaths[j]? = some filePath) (hij : i ≠ j) : resolvePath filePath ∉ places path := by
  obtain ⟨path', hpath', hname⟩ := hs.names j filePath hj
  obtain ⟨hi, rfl⟩ := List.getElem?_eq_some_iff.mp hpath
  obtain ⟨hj, rfl⟩ := List.getElem?_eq_some_iff.mp hpath'
  have hpairs := List.pairwise_iff_getElem.mp hroom.apart
  intro hmem
  rcases Nat.lt_or_gt_of_ne hij with hlt | hlt
  · exact hpairs i j hi hj hlt _ hmem hname.mem_places
  · exact hpairs j i hj hi hlt _ hname.mem_places hmem

theorem nodup (hroom : HasRoom disk₀ paths) (hs : Stored disk₀ paths filePaths files disk) :
    files.Nodup := by
  rw [List.Nodup, List.pairwise_iff_getElem]
  intro i j hi hj hij heq
  have hpathi := List.getElem?_eq_getElem (hs.length_files ▸ hi)
  have hpathj := List.getElem?_eq_getElem (hs.length_files ▸ hj)
  have hnodei := hs.opened i _ _ hpathi (List.getElem?_eq_getElem hi)
  have hnodej := hs.opened j _ _ hpathj (List.getElem?_eq_getElem hj)
  rw [← heq] at hnodej
  obtain ⟨path, hpath, hname⟩ := hs.names i _ hpathi
  apply resolvePath_notMem hroom hs hpath hpathj (Nat.ne_of_lt hij)
  rw [← disk.handle_inj _ _ _ hnodei hnodej]
  exact hname.mem_places

theorem modify (hs : Stored disk₀ paths filePaths files disk) (hi : files[i]? = some file)
    (f : Bytes → Bytes) : Stored disk₀ paths filePaths files (disk.modify file f) where
  length_files := hs.length_files
  opened := hs.opened
  names := hs.names
  directories := hs.directories
  places_free := hs.places_free
  same := by
    obtain ⟨hlt, -⟩ := List.getElem?_eq_some_iff.mp hi
    have hpath := List.getElem?_eq_getElem (hs.length_files ▸ hlt)
    obtain ⟨path, hmem, hname⟩ := hs.names i _ hpath
    have hused := places_subset_usedPlaces (List.mem_of_getElem? hmem) hname.mem_places
    refine hs.same.trans ((Disk.sameOutside_modify f (hs.opened i _ _ hpath hi)).mono ?_)
    exact Set.singleton_subset_iff.mpr hused

theorem moveFile (hroom : HasRoom disk₀ paths) (hs : Stored disk₀ paths filePaths files disk)
    (hi : filePaths[i]? = some filePath) (hnew : stripTemp filePath = some newName) :
    Stored disk₀ paths (filePaths.set i newName) files
      (disk.moveFile (resolvePath filePath) (resolvePath newName)) := by
  obtain ⟨path, hpath, hname⟩ := hs.names i filePath hi
  have hnewName : NameOf path newName := hname.tail hnew
  have hmem := List.mem_of_getElem? hpath
  obtain ⟨file, hfile⟩ := hs.exists_file hi
  have hnode := hs.opened i _ _ hi hfile
  constructor
  case length_files => rw [List.length_set, hs.length_files]
  case opened =>
    intro j filePath' file' hj hfile'
    rw [List.getElem?_set] at hj
    rw [Disk.node_moveFile]
    split_ifs at hj with hij
    · cases hj
      subst hij
      rw [if_pos rfl]
      exact hs.opened i _ _ hi hfile'
    · have hnot := resolvePath_notMem hroom hs hpath hj hij
      have hne : ∀ {name}, NameOf path name → resolvePath filePath' ≠ resolvePath name :=
        fun hname heq => hnot (heq ▸ hname.mem_places)
      rw [if_neg (hne hnewName), if_neg (hne hname)]
      exact hs.opened j _ _ hj hfile'
  case names =>
    intro j filePath' hj
    rw [List.getElem?_set] at hj
    split_ifs at hj with hij
    · cases hj
      exact ⟨path, hij ▸ hpath, hnewName⟩
    · exact hs.names j _ hj
  case directories =>
    intro p hp
    have hne : ∀ {name}, NameOf path name → p ≠ resolvePath name := by
      rintro name hname rfl
      exact hroom.places_ne_parents path hmem _ hname.mem_places hp
    rw [Disk.node_moveFile, if_neg (hne hnewName), if_neg (hne hname)]
    exact hs.directories p hp
  case places_free =>
    intro path' hpath' p hp
    rw [Disk.node_moveFile]
    split_ifs
    · rw [hnode]
      exact fun h => by cases h
    · exact fun h => by cases h
    · exact hs.places_free path' hpath' p hp
  case same =>
    refine hs.same.trans ((Disk.sameOutside_moveFile disk _ _).mono ?_)
    refine Set.Subset.trans ?_ (places_subset_usedPlaces hmem)
    exact Set.pair_subset hname.mem_places hnewName.mem_places

/-- The file is renamed, and is the same one when it is opened again. -/
theorem renameFile_and_openFile (hroom : HasRoom disk₀ paths)
    (hs : Stored disk₀ paths filePaths files disk) (hi : filePaths[i]? = some filePath)
    (hfile : files[i]? = some file) (hnew : stripTemp filePath = some newName) :
    disk.renameFile (diskPath filePath) (diskPath newName) =
        .ok (disk.moveFile (resolvePath filePath) (resolvePath newName)) ∧
      (disk.moveFile (resolvePath filePath) (resolvePath newName)).openFile (diskPath newName) =
        .ok (file, disk.moveFile (resolvePath filePath) (resolvePath newName)) := by
  obtain ⟨path, hpath, hname⟩ := hs.names i filePath hi
  have hnewName : NameOf path newName := hname.tail hnew
  have hmem := List.mem_of_getElem? hpath
  have hnode := hs.opened i _ _ hi hfile
  have hmoved := hs.moveFile hroom hi hnew
  refine ⟨Disk.renameFile_of_file (hs.walk hmem hname) (hs.walk hmem hnewName) hnode ?_,
    Disk.openFile_of_file (hmoved.walk hmem hnewName) ?_⟩
  · exact hs.places_free path hmem _ hnewName.mem_places
  · exact (Disk.node_moveFile disk _ _ _).trans ((if_pos rfl).trans hnode)

end Stored
end TorrentClient
