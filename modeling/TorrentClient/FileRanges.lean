import TorrentClient.DownloadPieces
import TorrentClient.DownloadGeometry
import TorrentClient.RangeParts

/-!
# Files as one array of bytes

`search_ptrs` cuts every range inside the files exactly, whichever of several files at one
offset its search lands on, and a block that is written through the cut overwrites one range
of the concatenation of the files. The files are separate sequences of bytes: no two entries of
the torrent share a path.
-/
namespace TorrentClient
open ListRanges

/-- The segments of a range, the first one in file `index`: each starts where the ones
before it end, and lies in the file at its place. -/
structure SplitsRange (fileOffsets : List ℕ) (offset len index : ℕ) (segs : List (ℕ × ℕ × ℕ)) :
    Prop where
  sum_eq : (segs.map (·.2.2)).sum = len
  contiguous : ∀ a dataPtr filePtr l, segs[a]? = some (dataPtr, filePtr, l) →
    dataPtr = ((segs.take a).map (·.2.2)).sum
  placed : ∀ a dataPtr filePtr l, segs[a]? = some (dataPtr, filePtr, l) →
    ∃ start stop, fileOffsets[index + a]? = some start ∧ fileOffsets[index + a + 1]? = some stop ∧
      start + filePtr = offset + dataPtr ∧ filePtr + l ≤ stop - start

/-- The layout of files of the given lengths. -/
theorem layout_of_lengths (lens : List ℕ) (htotal : lens.sum < 2 ^ 64) :
    Layout (lens.map fun n => List.replicate n 0) (borders 0 lens) := by
  have hlens : (lens.map fun n => List.replicate n (0 : UInt8)).map List.length = lens := by
    simp [Function.comp_def]
  refine ⟨by rw [hlens], ?_⟩
  rw [List.length_flatten, hlens]
  exact htotal

namespace Layout

variable {files : List Bytes} {fileOffsets : List ℕ}

/-- Files of the same lengths have the same layout. -/
theorem congr (h : Layout files fileOffsets) {files' : List Bytes}
    (hlengths : files'.map List.length = files.map List.length) : Layout files' fileOffsets where
  offsets_eq := hlengths ▸ h.offsets_eq
  total_lt := by
    rw [List.length_flatten, hlengths, ← List.length_flatten]
    exact h.total_lt

theorem getElem?_add (h : Layout files fileOffsets) {i a : ℕ} (hi : i ≤ files.length)
    (ha : a ≤ ((files.drop i).map List.length).length) :
    fileOffsets[i + a]? = some ((files.take i).flatten.length +
      (((files.drop i).map List.length).take a).sum) := by
  rw [← List.getElem?_drop, h.drop_eq hi, getElem?_borders _ _ ha]

theorem splitsRange (h : Layout files fileOffsets) {offset len : ℕ}
    (hoffset : offset < files.flatten.length) (hfit : offset + len ≤ files.flatten.length) :
    ∃ index segs, searchIndex fileOffsets offset = .ok index ∧
      searchPtrs fileOffsets offset len = .ok (index, segs) ∧
      SplitsRange fileOffsets offset len index segs := by
  obtain ⟨i, hi, hlen, hle, hptr⟩ := h.searchIndex_lands offset
  have hfile := h.searchIndex_lt hi hoffset
  have hsplit := length_take_add_drop files i
  have hsum : ((files.drop i).map List.length).sum = (files.drop i).flatten.length :=
    List.length_flatten.symm
  have hne : (files.drop i).map List.length ≠ [] := by
    simp only [ne_eq, List.map_eq_nil_iff, List.drop_eq_nil_iff]
    omega
  have hsegs := h.searchPtrs_eq hi len
  rw [if_pos ⟨hfile, hfit⟩] at hsegs
  refine ⟨i, _, hi, hsegs, sum_partLengths 0 hne hptr (by omega), ?_, ?_⟩
  · intro a dataPtr filePtr l hseg
    have hpart := (getElem?_splitRange hptr hseg).1
    rw [Nat.zero_add, partLengths, ← List.map_take] at hpart
    exact hpart
  · intro a dataPtr filePtr l hseg
    obtain ⟨-, hplace, n, hn, hin⟩ := getElem?_splitRange hptr hseg
    have ha := (List.getElem?_eq_some_iff.mp hn).1
    have hnext : (((files.drop i).map List.length).take (a + 1)).sum =
        (((files.drop i).map List.length).take a).sum + n := by
      rw [List.take_add_one, hn]
      simp
    have hstart := h.getElem?_add hlen (Nat.le_of_lt ha)
    have hstop := h.getElem?_add hlen (Nat.succ_le_of_lt ha)
    refine ⟨_, _, hstart, hstop, ?_, ?_⟩
    · omega
    · rw [hnext]
      omega

end Layout

/-- Every range inside the files is cut exactly, without a failing step. -/
theorem searchPtrs_splits {fileOffsets : List ℕ} {total : ℕ} (hzero : fileOffsets.head? = some 0)
    (hsorted : fileOffsets.Pairwise (· ≤ ·)) (hlast : fileOffsets.getLast? = some total)
    (htotal : total < 2 ^ 64) {offset len : ℕ} (hoffset : offset < total)
    (hfit : offset + len ≤ total) :
    ∃ index segs, searchIndex fileOffsets offset = .ok index ∧
      searchPtrs fileOffsets offset len = .ok (index, segs) ∧
      SplitsRange fileOffsets offset len index segs := by
  obtain ⟨rest, rfl⟩ := List.head?_eq_some_iff.mp hzero
  obtain ⟨lens, hlens⟩ := exists_borders hsorted
  have hsum : lens.sum = total := by
    have hend := getElem?_borders 0 lens (Nat.le_refl _)
    rw [List.take_length, Nat.zero_add] at hend
    rw [hlens, List.getLast?_eq_getElem?, length_borders, Nat.add_sub_cancel, hend] at hlast
    exact Option.some.inj hlast
  have hlayout := layout_of_lengths lens (hsum ▸ htotal)
  have hcontent : (lens.map fun n => List.replicate n (0 : UInt8)).flatten.length = total := by
    rw [List.length_flatten, ← hsum]
    simp [Function.comp_def]
  rw [hlens]
  exact hlayout.splitsRange (by omega) (by omega)

/-- The files of five, no and three bytes, and the range over all three of them. -/
theorem searchPtrs_splits_three : ∃ index segs,
    searchPtrs [0, 5, 5, 8] 4 3 = .ok (index, segs) ∧ SplitsRange [0, 5, 5, 8] 4 3 index segs := by
  have hsorted : [0, 5, 5, 8].Pairwise (· ≤ ·) := by decide
  have hoffset : 4 < 8 := by decide
  have hfit : 4 + 3 ≤ 8 := by decide
  obtain ⟨index, segs, -, hsegs, hsplits⟩ :=
    searchPtrs_splits rfl hsorted rfl (by decide) hoffset hfit
  exact ⟨index, segs, hsegs, hsplits⟩

/-- A block inside the content changes the files as one write to their concatenation does. -/
theorem storeBlock_refines_flat {disk : String → Bytes} {fileInfos : List (ℕ × String)}
    {fileOffsets : List ℕ} {filePaths : List String} {created files : List Bytes}
    (hcreated : createFiles disk fileInfos = .ok (fileOffsets, filePaths, created))
    (hlengths : files.map List.length = created.map List.length) {pieceOffset blockIndex : ℕ}
    {data : Bytes} (h32 : blockIndex * blockSize < 2 ^ 32)
    (hstart : pieceOffset + blockIndex * blockSize < files.flatten.length)
    (hfit : pieceOffset + blockIndex * blockSize + data.length ≤ files.flatten.length) :
    ∃ files', storeBlock files fileOffsets pieceOffset blockIndex data = .ok files' ∧
      files'.flatten = overwrite files.flatten (pieceOffset + blockIndex * blockSize) data ∧
      files'.map List.length = files.map List.length := by
  have hlayout := (createFiles_spec hcreated).1.congr hlengths
  exact storeBlock_of_le hlayout h32 hstart hfit

/-- Two bytes over the border of two files that have been created and not been written. -/
theorem storeBlock_refines_flat_two : ∃ files',
    storeBlock [[0, 0], [], [0, 0]] [0, 2, 2, 4] 1 0 [7, 8] = .ok files' ∧
      files'.flatten = [0, 7, 8, 0] ∧ files'.map List.length = [2, 0, 2] := by
  have hcreated : createFiles (fun _ => []) [(2, "a"), (0, "b"), (2, "c")] =
      .ok ([0, 2, 2, 4], ["a", "b", "c"], [[0, 0], [], [0, 0]]) := rfl
  have hstart : 1 + 0 * blockSize < [[(0 : UInt8), 0], [], [0, 0]].flatten.length := by decide
  have hfit : 1 + 0 * blockSize + [(7 : UInt8), 8].length ≤
      [[(0 : UInt8), 0], [], [0, 0]].flatten.length := by decide
  obtain ⟨files', hstore, hflat, hlens⟩ :=
    storeBlock_refines_flat hcreated rfl (by decide) hstart hfit
  exact ⟨files', hstore, hflat, hlens⟩

end TorrentClient
