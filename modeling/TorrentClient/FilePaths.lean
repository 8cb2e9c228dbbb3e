import TorrentClient.DownloadPieces
import TorrentClient.PathResolution

/-!
# The paths of the files of a torrent

The name of a torrent and the components of its entries are joined as they are, so they can
hold slashes and parent references of their own. Where the files end up follows from the
segments between all slashes; only the last one of an entry is always a name, since it is
followed by `.temp`.
-/
namespace TorrentClient
open PathResolution

def segmentKind (segment : List Char) : Kind :=
  if segment = [] ∨ segment = ['.'] then .skip
  else if segment = ['.', '.'] then .up
  else .name

/-- What stands between the slashes of a text. -/
def segments (text : String) : List (List Char) := text.toList.splitOn '/'

/-- Where a path leads, with `.` and `..` resolved. -/
def resolvePath (path : String) : ℕ × List (List Char) := resolve segmentKind (segments path)

/-- The path leads strictly below `downloads/`. -/
def InDownloads (path : String) : Prop := Below segmentKind "downloads".toList (segments path)

namespace Info

/-- The texts that the path of every file is joined from. Without components a file has the
empty one. -/
def entryTexts : Info → List (List String)
  | .single s => [["downloads", s.name]]
  | .multi m => m.files.map fun f => "downloads" :: m.name :: if f.path = [] then [""] else f.path

/-- Every file lies strictly below `downloads/`. -/
def FilesInside (info : Info) : Prop := ∀ entry ∈ createFileInfos info, InDownloads entry.2

/-- No two files lead to the same place. -/
def FilesApart (info : Info) : Prop :=
  ((createFileInfos info).map fun entry => resolvePath entry.2).Nodup

/-- No two files have the same path. -/
def PathsApart (info : Info) : Prop := ((createFileInfos info).map Prod.snd).Nodup

end Info

/-- The segments of an entry but the last one. -/
def entryDirectories (texts : List String) : List (List Char) := (texts.flatMap segments).dropLast

/-- The last segment of an entry. -/
def entryFile (texts : List String) : List Char := (texts.flatMap segments).getLastD []

/-- The entry stays in the `downloads` that it enters. -/
def EntryInside (texts : List String) : Prop :=
  Enters segmentKind "downloads".toList (entryDirectories texts)

/-- The directories that an entry does not go up again, and its last segment. -/
def entryPlace (texts : List String) : List (List Char) × List Char :=
  (kept segmentKind (entryDirectories texts), entryFile texts)

def entryPath (texts : List String) : String := "/".intercalate texts ++ ".temp"

theorem createFileInfos_paths (info : Info) :
    (createFileInfos info).map Prod.snd = info.entryTexts.map entryPath := by
  cases info with
  | single s => simp [createFileInfos, Info.entryTexts, entryPath, String.intercalate_cons_cons]
  | multi m =>
    rw [createFileInfos, Info.entryTexts, List.map_map, List.map_map]
    apply List.map_congr_left
    intro f _
    simp only [Function.comp_apply, entryPath]
    split_ifs with hpath
    · simp [hpath, String.intercalate_cons_cons, String.append_assoc]
    · rw [String.intercalate_cons_cons, String.intercalate_cons_of_ne_nil hpath]
      simp [String.append_assoc]

theorem splitOn_intercalate_flatMap {α : Type} [DecidableEq α] (sep : α) {texts : List (List α)}
    (hne : texts ≠ []) : ([sep].intercalate texts).splitOn sep = texts.flatMap (List.splitOn sep) := by
  induction texts with
  | nil => exact absurd rfl hne
  | cons text texts ih =>
    cases texts with
    | nil => simp
    | cons text' texts =>
      rw [List.intercalate_cons_cons, List.append_assoc, List.singleton_append,
        List.splitOn_append_cons_self, ih (List.cons_ne_nil _ _)]
      rfl

theorem segments_intercalate {texts : List String} (hne : texts ≠ []) :
    segments ("/".intercalate texts) = texts.flatMap segments := by
  rw [segments, String.toList_intercalate]
  refine (splitOn_intercalate_flatMap '/' (by simpa using hne)).trans ?_
  rw [List.flatMap_map]
  rfl

/-- What is put behind a list is put behind its last part. -/
theorem splitOn_append_of_notMem {α : Type} [DecidableEq α] {sep : α} {rest : List α}
    (hrest : sep ∉ rest) (text : List α) : (text ++ rest).splitOn sep =
      (text.splitOn sep).dropLast ++ [(text.splitOn sep).getLastD [] ++ rest] := by
  induction text with
  | nil => simp [List.splitOn_eq_singleton hrest]
  | cons c text ih =>
    have hne := List.splitOn_ne_nil sep text
    rw [List.cons_append, List.splitOn_cons_eq_if_modifyHead, List.splitOn_cons_eq_if_modifyHead, ih]
    cases hparts : text.splitOn sep with
    | nil => exact absurd hparts hne
    | cons part parts =>
      cases parts with
      | nil => split_ifs <;> simp
      | cons part' parts => split_ifs <;> simp

theorem segments_entryPath {texts : List String} (hne : texts ≠ []) :
    segments (entryPath texts) = entryDirectories texts ++ [entryFile texts ++ ".temp".toList] := by
  have htemp : '/' ∉ ".temp".toList := by decide
  rw [entryPath, segments, String.toList_append]
  refine (splitOn_append_of_notMem htemp _).trans ?_
  rw [← segments, segments_intercalate hne]
  rfl

theorem entryDirectories_downloads {texts : List String} (hne : texts ≠ []) :
    entryDirectories ("downloads" :: texts) =
      "downloads".toList :: (texts.flatMap segments).dropLast := by
  have hsegments : segments "downloads" = ["downloads".toList] := by decide +kernel
  have hrest : texts.flatMap segments ≠ [] := by
    rw [← segments_intercalate hne]
    exact List.splitOn_ne_nil '/' _
  rw [entryDirectories, List.flatMap_cons, hsegments, List.singleton_append,
    List.dropLast_cons_of_ne_nil hrest]

theorem segmentKind_downloads : segmentKind "downloads".toList = .name := by decide

theorem eq_of_segmentKind_up {segment : List Char} (h : segmentKind segment = .up) :
    segment = ['.', '.'] := by
  unfold segmentKind at h
  split_ifs at h with _ hup
  exact hup

theorem segmentKind_append_temp (segment : List Char) :
    segmentKind (segment ++ ".temp".toList) = .name := by
  have hlen : 5 ≤ (segment ++ ".temp".toList).length := by simp
  generalize segment ++ ".temp".toList = file at hlen
  have hskip : ¬ (file = [] ∨ file = ['.']) := by
    rintro (rfl | rfl)
    all_goals simp at hlen
  have hup : file ≠ ['.', '.'] := by
    rintro rfl
    simp at hlen
  rw [segmentKind, if_neg hskip, if_neg hup]

variable {texts texts' : List String}

theorem inDownloads_entryPath_iff (hne : texts ≠ []) :
    InDownloads (entryPath texts) ↔ EntryInside texts := by
  rw [InDownloads, segments_entryPath hne]
  exact below_append_name_iff segmentKind_downloads (segmentKind_append_temp _)

theorem resolvePath_entryPath (hne : texts ≠ []) (h : EntryInside texts) :
    resolvePath (entryPath texts) =
      (0, (entryPlace texts).1 ++ [(entryPlace texts).2 ++ ".temp".toList]) := by
  rw [resolvePath, segments_entryPath hne, resolve_append_name (segmentKind_append_temp _),
    ((enters_iff segmentKind_downloads).mp h).1]
  rfl

/-- Files lead to the same place where their entries do. -/
theorem resolvePath_entryPath_inj (hne : texts ≠ []) (hne' : texts' ≠ []) (h : EntryInside texts)
    (h' : EntryInside texts') :
    resolvePath (entryPath texts) = resolvePath (entryPath texts') ↔
      entryPlace texts = entryPlace texts' := by
  rw [resolvePath_entryPath hne h, resolvePath_entryPath hne' h', Prod.ext_iff, Prod.ext_iff]
  simp only [true_and, List.append_singleton_inj, List.append_left_inj]

/-- Paths are equal where the segments of their entries are. -/
theorem entryPath_inj (hne : texts ≠ []) (hne' : texts' ≠ []) :
    entryPath texts = entryPath texts' ↔ texts.flatMap segments = texts'.flatMap segments := by
  rw [← segments_intercalate hne, ← segments_intercalate hne', entryPath, entryPath,
    ← String.toList_inj, String.toList_append, String.toList_append, List.append_left_inj]
  constructor
  · intro h
    rw [segments, h, ← segments]
  · intro h
    have hjoin := congrArg (['/'].intercalate ·) h
    simpa only [segments, List.intercalate_splitOn] using hjoin

namespace Info

variable {info : Info}

theorem eq_downloads_cons_of_mem_entryTexts : ∀ texts ∈ info.entryTexts,
    ∃ rest, rest ≠ [] ∧ texts = "downloads" :: rest := by
  cases info with
  | single s =>
    intro texts htexts
    exact ⟨[s.name], List.cons_ne_nil _ _, List.mem_singleton.mp htexts⟩
  | multi m =>
    intro texts htexts
    obtain ⟨f, -, rfl⟩ := List.mem_map.mp htexts
    exact ⟨_, List.cons_ne_nil _ _, rfl⟩

theorem ne_nil_of_mem_entryTexts : ∀ texts ∈ info.entryTexts, texts ≠ [] := by
  intro texts htexts
  obtain ⟨rest, -, rfl⟩ := eq_downloads_cons_of_mem_entryTexts texts htexts
  exact List.cons_ne_nil _ _

theorem nodup_map_congr {α β γ : Type} {xs : List α} {f : α → β} {g : α → γ}
    (h : ∀ x ∈ xs, ∀ y ∈ xs, f x = f y ↔ g x = g y) : (xs.map f).Nodup ↔ (xs.map g).Nodup := by
  rw [List.Nodup, List.pairwise_map, List.Nodup, List.pairwise_map]
  exact List.Pairwise.iff_of_mem fun hx hy => not_congr (h _ hx _ hy)

theorem filesInside_iff : info.FilesInside ↔ ∀ texts ∈ info.entryTexts, EntryInside texts := by
  have hpaths : info.FilesInside ↔ ∀ path ∈ (createFileInfos info).map Prod.snd, InDownloads path := by
    rw [FilesInside, List.forall_mem_map]
  rw [hpaths, createFileInfos_paths, List.forall_mem_map]
  exact forall₂_congr fun texts htexts =>
    inDownloads_entryPath_iff (ne_nil_of_mem_entryTexts texts htexts)

/-- Without parent references no file leaves the folder. -/
theorem filesInside_of_forall_ne (h : ∀ texts ∈ info.entryTexts,
    ∀ segment ∈ texts.flatMap segments, segment ≠ ['.', '.']) : info.FilesInside := by
  rw [filesInside_iff]
  intro texts htexts
  obtain ⟨rest, hne, rfl⟩ := eq_downloads_cons_of_mem_entryTexts texts htexts
  rw [EntryInside, entryDirectories_downloads hne]
  apply enters_cons (covered_of_forall_ne_up _)
  intro segment hsegment hup
  refine h _ htexts segment ?_ (eq_of_segmentKind_up hup)
  rw [List.flatMap_cons]
  exact List.mem_append_right _ ((List.dropLast_subset _) hsegment)

theorem filesApart_iff (h : ∀ texts ∈ info.entryTexts, EntryInside texts) :
    info.FilesApart ↔ (info.entryTexts.map entryPlace).Nodup := by
  have hpaths : info.FilesApart ↔ (((createFileInfos info).map Prod.snd).map resolvePath).Nodup := by
    rw [FilesApart, List.map_map]
    rfl
  rw [hpaths, createFileInfos_paths, List.map_map]
  apply nodup_map_congr
  intro texts htexts texts' htexts'
  exact resolvePath_entryPath_inj (ne_nil_of_mem_entryTexts texts htexts)
    (ne_nil_of_mem_entryTexts texts' htexts') (h texts htexts) (h texts' htexts')

theorem pathsApart_iff :
    info.PathsApart ↔ (info.entryTexts.map fun texts => texts.flatMap segments).Nodup := by
  rw [PathsApart, createFileInfos_paths]
  apply nodup_map_congr
  intro texts htexts texts' htexts'
  exact entryPath_inj (ne_nil_of_mem_entryTexts texts htexts)
    (ne_nil_of_mem_entryTexts texts' htexts')

/-- The files stay below `downloads/` and apart from each other just where every entry stays
in the `downloads` that it enters and no two entries keep the same directories and the same
last segment; their paths are then different just where the segments are. -/
theorem files_inside_and_apart_iff (info : Info) :
    (info.FilesInside ∧ info.FilesApart ↔
      (∀ texts ∈ info.entryTexts, EntryInside texts) ∧ (info.entryTexts.map entryPlace).Nodup) ∧
    (info.FilesInside ∧ info.PathsApart ↔
      (∀ texts ∈ info.entryTexts, EntryInside texts) ∧
        (info.entryTexts.map fun texts => texts.flatMap segments).Nodup) := by
  rw [filesInside_iff, pathsApart_iff]
  exact ⟨and_congr_right filesApart_iff, Iff.rfl⟩

/-- A name with a parent reference leads out of the folder, and a component with a slash to the
file of another entry. -/
theorem files_outside_and_together :
    ¬ FilesInside (.single ⟨0, none, "../x", 1, []⟩) ∧
      ¬ PathsApart (.multi ⟨[⟨0, none, ["a", "b"]⟩, ⟨0, none, ["a/b"]⟩], "n", 1, []⟩) ∧
      ¬ FilesApart (.multi ⟨[⟨0, none, ["a", "b"]⟩, ⟨0, none, ["a/b"]⟩], "n", 1, []⟩) := by
  have houtside : ¬ InDownloads ("downloads/" ++ "../x" ++ ".temp") := by
    have hplace : resolvePath ("downloads/" ++ "../x" ++ ".temp") = (0, ["x.temp".toList]) := by
      decide +kernel
    rintro ⟨rest, -, hrest⟩
    have hnames := congrArg Prod.snd (hplace.symm.trans hrest)
    have hfirst : "x.temp".toList ≠ "downloads".toList := by decide
    exact hfirst (List.cons.inj hnames).1
  have hfiles : createFileInfos (.single ⟨0, none, "../x", 1, []⟩) =
      [(0, "downloads/" ++ "../x" ++ ".temp")] := rfl
  refine ⟨?_, ?_, ?_⟩
  · rw [FilesInside, hfiles, List.forall_mem_singleton]
    exact houtside
  · rw [PathsApart]
    decide +kernel
  · rw [FilesApart]
    decide +kernel

end Info
end TorrentClient
