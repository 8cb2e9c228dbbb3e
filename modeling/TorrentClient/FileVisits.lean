import TorrentClient.FileRanges
import TorrentClient.FileRenames

/-!
# The files that a piece visits

`verify_file` looks at the files that `search_ptrs` cuts the stored range of a piece into. A file
with bytes is visited for pieces that overlap it only, an empty file for the one piece that it
lies in. Once a visited file is found to be finished, every piece that overlaps it is completed.
-/
namespace TorrentClient
open ListRanges

theorem Geometry.span_pos {metaInfo : TorrentMetaInfo} {total i : ℕ} (h : Geometry metaInfo total)
    (hi : i < metaInfo.numPieces) : 0 < pieceSpan metaInfo total i := by
  have hpl := h.pieceLength_pos hi
  have hstart := h.start_lt hi
  unfold pieceSpan
  split_ifs <;> omega

namespace Download

variable {d d' : Download}

/-- The piece and the file have a byte of the content in common. -/
def Overlaps (d : Download) (p fileIndex : ℕ) : Prop :=
  p < d.metaInfo.numPieces ∧ ∃ k, d.fileStart fileIndex ≤ k ∧ k < d.fileStart (fileIndex + 1) ∧
    p * d.metaInfo.pieceLength ≤ k ∧
    k < p * d.metaInfo.pieceLength + pieceSpan d.metaInfo d.content.length p

/-- `verify_file` looks at the file when the piece is completed. -/
def Visits (d : Download) (p fileIndex : ℕ) : Prop :=
  ∃ piece, d.pieces[p]? = some piece ∧ fileIndex ∈ d.visitedFiles piece

theorem fileStart_add (d : Download) (i a : ℕ) :
    d.fileStart (i + a) = d.fileStart i + (((d.files.drop i).map List.length).take a).sum := by
  rw [fileStart, List.take_add, List.flatten_append, List.length_append, ← List.map_take,
    ← List.length_flatten]
  rfl

/-- A visited file starts before the piece ends, and does not end before the piece starts. -/
theorem Visits.bounds (hd : d.WellFormed) {p fileIndex : ℕ} (h : d.Visits p fileIndex) :
    p < d.metaInfo.numPieces ∧ fileIndex < d.files.length ∧
      d.fileStart fileIndex <
        p * d.metaInfo.pieceLength + pieceSpan d.metaInfo d.content.length p ∧
      (p * d.metaInfo.pieceLength < d.fileStart (fileIndex + 1) ∨
        d.fileStart fileIndex = p * d.metaInfo.pieceLength) := by
  obtain ⟨piece, hp, hmem⟩ := h
  have hs := hd.shape p piece hp
  have hspan := hd.geometry.span_pos hs.index_lt
  have hlength := hs.length_le
  obtain ⟨i, v, hi, hv, hparts, -, hlen⟩ := searchPtrs_piece hd hp
  simp only [visitedFiles, hv, List.mem_range'_1] at hmem
  obtain ⟨a, rfl⟩ := Nat.exists_eq_add_of_le hmem.1
  have ha : a < v.length := by omega
  obtain ⟨i', hi', -, hle, hptr⟩ := hd.layout.searchIndex_lands piece.offset
  obtain ⟨i'', hi'', hhit⟩ := searchIndex_spec hd.layout.zero piece.offset
  rw [hi] at hi' hi''
  cases hi'
  cases hi''
  change d.fileStart i ≤ piece.offset at hle
  change ∀ n ∈ _, piece.offset - d.fileStart i ≤ n at hptr
  have hnext : piece.offset < d.fileStart (i + 1) ∨ d.fileStart i = piece.offset := by
    have hstarts := fileOffset_eq hd (show i + 1 ≤ d.files.length by omega)
    rcases hhit.before_next _ hstarts.1 with hlt | heq
    · exact Or.inl hlt
    · rw [(fileOffset_eq hd (show i ≤ d.files.length by omega)).1] at heq
      exact Or.inr (Option.some.inj heq)
  rw [hparts, lt_length_splitRange_iff hptr] at ha
  have hmono := d.fileStart_mono (show i + a ≤ i + a + 1 by omega)
  rw [← hs.offset_eq]
  refine ⟨hs.index_lt, by omega, ?_, ?_⟩
  · rcases Nat.eq_zero_or_pos a with rfl | hpos
    · rw [Nat.add_zero]
      omega
    · have hreach := ha.2 hpos
      rw [fileStart_add]
      omega
  · rcases Nat.eq_zero_or_pos a with rfl | hpos
    · exact hnext
    · have hbehind := d.fileStart_mono (show i + 1 ≤ i + a by omega)
      have hfirst := d.fileStart_mono (show i ≤ i + a by omega)
      omega

/-- A visited file with bytes has one of them in the piece. -/
theorem Visits.overlaps (hd : d.WellFormed) {p fileIndex : ℕ} (h : d.Visits p fileIndex)
    (hbytes : d.fileStart fileIndex < d.fileStart (fileIndex + 1)) : d.Overlaps p fileIndex := by
  obtain ⟨hp, -, hbefore, hafter⟩ := h.bounds hd
  have hspan := hd.geometry.span_pos hp
  refine ⟨hp, max (d.fileStart fileIndex) (p * d.metaInfo.pieceLength), ?_, ?_, ?_, ?_⟩
  · exact Nat.le_max_left _ _
  · omega
  · exact Nat.le_max_right _ _
  · omega

/-- A piece whose length survived its cast visits every file that it overlaps. -/
theorem Overlaps.visits (hd : d.WellFormed) {p fileIndex : ℕ} (h : d.Overlaps p fileIndex)
    (hf : fileIndex < d.files.length)
    (hcast : ∀ piece, d.pieces[p]? = some piece →
      piece.length.toNat = pieceSpan d.metaInfo d.content.length p) : d.Visits p fileIndex := by
  obtain ⟨hlt, k, hlow, hhigh, hstart, hend⟩ := h
  obtain ⟨piece, hp⟩ : ∃ piece, d.pieces[p]? = some piece :=
    ⟨_, List.getElem?_eq_getElem (hd.length_pieces.symm ▸ hlt)⟩
  have hs := hd.shape p piece hp
  rw [← hcast piece hp] at hend
  rw [← hs.offset_eq] at hstart hend
  obtain ⟨i, v, hi, hv, hparts, -, -⟩ := searchPtrs_piece hd hp
  obtain ⟨i', hi', -, hle, hptr⟩ := hd.layout.searchIndex_lands piece.offset
  rw [hi] at hi'
  cases hi'
  change d.fileStart i ≤ _ at hle
  change ∀ n ∈ _, _ - d.fileStart i ≤ n at hptr
  have hi : i ≤ fileIndex := by
    by_contra hgt
    have := d.fileStart_mono (show fileIndex + 1 ≤ i by omega)
    omega
  refine ⟨piece, hp, ?_⟩
  simp only [visitedFiles, hv, List.mem_range'_1]
  obtain ⟨a, rfl⟩ := Nat.exists_eq_add_of_le hi
  have ha : a < v.length := by
    rw [hparts, lt_length_splitRange_iff hptr, List.length_map, List.length_drop]
    refine ⟨by omega, fun _ => ?_⟩
    rw [fileStart_add] at hlow
    omega
  omega

/-- An empty file is visited for the piece it lies in only. -/
theorem Visits.eq_div (hd : d.WellFormed) {p fileIndex : ℕ} (h : d.Visits p fileIndex)
    (hempty : d.fileStart (fileIndex + 1) ≤ d.fileStart fileIndex) :
    d.fileStart fileIndex / d.metaInfo.pieceLength = p := by
  obtain ⟨hp, -, hbefore, hafter⟩ := h.bounds hd
  have hspan := (hd.geometry.span_le hp).1
  apply Nat.div_eq_of_lt_le
  · omega
  · rw [Nat.succ_mul]
    omega

theorem containedPieces_completed (d : Download) (fileIndex : ℕ) :
    (d.containedPieces fileIndex).all (·.isCompleted) = true ↔
      ∀ q piece, d.fileStart fileIndex / d.metaInfo.pieceLength ≤ q →
        q ≤ (d.fileStart (fileIndex + 1) - 1) / d.metaInfo.pieceLength →
        d.pieces[q]? = some piece → piece.isCompleted = true := by
  simp only [containedPieces, List.all_eq_true, List.mem_iff_getElem?, getElem?_slice]
  constructor
  · intro h q piece hlow hhigh hp
    refine h piece ⟨q - d.fileStart fileIndex / d.metaInfo.pieceLength, ?_⟩
    rw [if_pos (by omega), Nat.add_sub_cancel' hlow]
    exact hp
  · rintro h piece ⟨k, hk⟩
    split_ifs at hk with hlt
    exact h _ piece (Nat.le_add_right _ _) (by omega) hk

/-- The pieces of a file with bytes are the ones that overlap it. -/
theorem overlaps_iff (hd : d.WellFormed) {q fileIndex : ℕ} (hq : q < d.metaInfo.numPieces)
    (hf : fileIndex < d.files.length)
    (hbytes : d.fileStart fileIndex < d.fileStart (fileIndex + 1)) :
    d.Overlaps q fileIndex ↔ d.fileStart fileIndex / d.metaInfo.pieceLength ≤ q ∧
      q ≤ (d.fileStart (fileIndex + 1) - 1) / d.metaInfo.pieceLength := by
  have hpl := hd.geometry.pieceLength_pos hq
  have hspan := hd.geometry.span_le hq
  have hend := (fileOffset_eq hd (show fileIndex + 1 ≤ d.files.length by omega)).2
  rw [Nat.le_div_iff_mul_le hpl, ← Nat.lt_succ_iff, Nat.div_lt_iff_lt_mul hpl, Nat.succ_mul]
  constructor
  · rintro ⟨-, k, hk₁, hk₂, hk₃, hk₄⟩
    omega
  · rintro ⟨hlow, hhigh⟩
    refine ⟨hq, max (d.fileStart fileIndex) (q * d.metaInfo.pieceLength), ?_, ?_, ?_, ?_⟩
    · exact Nat.le_max_left _ _
    · omega
    · exact Nat.le_max_right _ _
    · unfold pieceSpan
      split_ifs with hlast
      · omega
      · have hlast := hd.geometry.last_start q (by omega)
        omega

theorem Overlaps.bytes {p fileIndex : ℕ} (h : d.Overlaps p fileIndex) :
    d.fileStart fileIndex < d.fileStart (fileIndex + 1) := by
  obtain ⟨-, k, hk₁, hk₂, -⟩ := h
  omega

/-- `verify_file` finds a file finished exactly when the pieces that overlap it are completed. -/
theorem containedPieces_completed_iff (hd : d.WellFormed) {p fileIndex : ℕ}
    (hvisits : d.Visits p fileIndex) (hcompleted : d.havePieces[p]? = some true) :
    (d.containedPieces fileIndex).all (·.isCompleted) = true ↔
      ∀ q, d.Overlaps q fileIndex → d.havePieces[q]? = some true := by
  obtain ⟨hp, hf, -, -⟩ := hvisits.bounds hd
  simp only [containedPieces_completed, havePieces, List.getElem?_map, Option.map_eq_some_iff]
    at hcompleted ⊢
  by_cases hbytes : d.fileStart fileIndex < d.fileStart (fileIndex + 1)
  · constructor
    · intro h q hq
      have hlt := hq.1
      obtain ⟨hlow, hhigh⟩ := (overlaps_iff hd hlt hf hbytes).mp hq
      have hpiece := List.getElem?_eq_getElem (hd.length_pieces.symm ▸ hlt)
      exact ⟨_, hpiece, h q _ hlow hhigh hpiece⟩
    · intro h q piece hlow hhigh hpiece
      have hlt := (hd.shape q piece hpiece).index_lt
      obtain ⟨piece', hpiece', hflag⟩ := h q ((overlaps_iff hd hlt hf hbytes).mpr ⟨hlow, hhigh⟩)
      obtain rfl := Option.some.inj (hpiece.symm.trans hpiece')
      exact hflag
  · have hdiv := hvisits.eq_div hd (Nat.le_of_not_lt hbytes)
    refine iff_of_true (fun q piece hlow hhigh hpiece => ?_) (fun q hq => absurd hq.bytes hbytes)
    have hle : (d.fileStart (fileIndex + 1) - 1) / d.metaInfo.pieceLength ≤ p := by
      rw [← hdiv]
      exact Nat.div_le_div_right (by omega)
    obtain rfl : q = p := by omega
    obtain ⟨piece', hpiece', hflag⟩ := hcompleted
    obtain rfl := Option.some.inj (hpiece.symm.trans hpiece')
    exact hflag

end Download
end TorrentClient
