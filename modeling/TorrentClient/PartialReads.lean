import TorrentClient.DownloadFiles

/-!
# Reads that do not fill their buffer

`file.read` may fill any part of the buffer that starts at its beginning, and `read` goes on
to the next file without looking at how much it got. The buffer is zeroed before, so the
result is the content of the files exactly where the bytes that are left out are zero.
-/
namespace TorrentClient
open ListRanges

namespace FileRead

/-- A read fails or fills at least one byte and at most what it was asked for. -/
def KeepsContract (io : FileRead) : Prop :=
  ∀ fileIndex filePtr len n, io fileIndex filePtr len = some n → n ≤ len ∧ (0 < len → 0 < n)

/-- The read of one of the segments fails; the first segment lies in file `i`. -/
def Fails (io : FileRead) : ℕ → List (ℕ × ℕ × ℕ) → Prop
  | _, [] => False
  | i, (_, filePtr, len) :: segs => io i filePtr len = none ∨ io.Fails (i + 1) segs

/-- The bytes that a read of one of the segments leaves out are zero. -/
def SkipsZeros (io : FileRead) (files : List Bytes) : ℕ → List (ℕ × ℕ × ℕ) → Prop
  | _, [] => True
  | i, (_, filePtr, len) :: segs =>
    (∀ file n, files[i]? = some file → io i filePtr len = some n →
      slice file (filePtr + n) (len - n) = List.replicate (len - n) 0) ∧
    io.SkipsZeros files (i + 1) segs

/-- A zeroed buffer of `len` bytes after a read that has filled `n` of them. -/
def partly (file : Bytes) (filePtr len n : ℕ) : Bytes :=
  slice file filePtr n ++ List.replicate (len - n) 0

theorem length_partly {file : Bytes} {filePtr len n : ℕ} (hin : filePtr + len ≤ file.length)
    (hn : n ≤ len) : (partly file filePtr len n).length = len := by
  have hslice : (slice file filePtr n).length = n := length_slice (by omega)
  simp only [partly, List.length_append, List.length_replicate, hslice]
  omega

/-- The buffer holds what the file does exactly where the bytes left out are zero. -/
theorem partly_eq_slice_iff {file : Bytes} {filePtr len n : ℕ} (hn : n ≤ len) :
    partly file filePtr len n = slice file filePtr len ↔
      slice file (filePtr + n) (len - n) = List.replicate (len - n) 0 := by
  obtain ⟨rest, rfl⟩ := Nat.exists_eq_add_of_le hn
  rw [partly, slice_add, List.append_cancel_left_eq, Nat.add_sub_cancel_left]
  exact eq_comm

/-- What the segments leave in a zeroed buffer, or nothing where a read fails. -/
def filled (io : FileRead) (files : List Bytes) : ℕ → List (ℕ × ℕ × ℕ) → Option Bytes
  | _, [] => some []
  | i, (_, filePtr, len) :: segs => do
    let n ← io i filePtr len
    let rest ← io.filled files (i + 1) segs
    return partly (files.getD i []) filePtr len n ++ rest

theorem filled_eq_none_iff {io : FileRead} {files : List Bytes} {i : ℕ}
    {segs : List (ℕ × ℕ × ℕ)} : io.filled files i segs = none ↔ io.Fails i segs := by
  induction segs generalizing i with
  | nil => simp [filled, Fails]
  | cons seg segs ih =>
    obtain ⟨dataPtr, filePtr, len⟩ := seg
    rw [filled, Fails, ← ih]
    cases io i filePtr len with
    | none => simp
    | some n => cases io.filled files (i + 1) segs <;> simp

end FileRead

variable {io : FileRead} {files : List Bytes}

private theorem drop_eq_cons {i : ℕ} {file : Bytes} {after : List Bytes}
    (h : files.drop i = file :: after) :
    files[i]? = some file ∧ files.getD i [] = file ∧ files.drop (i + 1) = after := by
  have hget : files[i]? = some file := by
    have hget : (files.drop i)[0]? = files[i + 0]? := List.getElem?_drop
    rw [h] at hget
    exact hget.symm
  exact ⟨hget, by simp [List.getD, hget], by rw [← List.tail_drop, h, List.tail_cons]⟩

/-- Filling the next part of a zeroed buffer. -/
private theorem overwrite_zeros (done file : Bytes) {start len l n : ℕ}
    (hin : start + l ≤ file.length) (hn : n ≤ l) (hl : l ≤ len) :
    overwrite (done ++ List.replicate len 0) done.length (slice file start n) =
      (done ++ FileRead.partly file start l n) ++ List.replicate (len - l) 0 := by
  have hslice : (slice file start n).length = n := length_slice (by omega)
  have hwrite := overwrite_append_right done (List.replicate len 0) (slice file start n) 0
  have hzeros : len - n = (l - n) + (len - l) := by omega
  rw [Nat.add_zero] at hwrite
  rw [hwrite, overwrite, List.take_zero, List.nil_append, Nat.zero_add, hslice,
    List.drop_replicate, hzeros, List.replicate_add, FileRead.partly]
  simp only [List.append_assoc]

/-- One round of the loop of `read`. -/
private theorem readFiles_cons {i start len l : ℕ} {done file : Bytes} {after : List Bytes}
    {vec : List (ℕ × ℕ × ℕ)} (hio : io.KeepsContract) (hdrop : files.drop i = file :: after)
    (hin : start + l ≤ file.length) (hl : l ≤ len) :
    readFiles io files i (done ++ List.replicate len 0) ((done.length, start, l) :: vec) =
      match io i start l with
      | none => .error (.err "i/o error")
      | some n => readFiles io files (i + 1)
          ((done ++ FileRead.partly file start l n) ++ List.replicate (len - l) 0) vec := by
  have hbuffer : done.length + l ≤ (done ++ List.replicate len (0 : UInt8)).length := by
    simp only [List.length_append, List.length_replicate]
    omega
  rw [readFiles, index_of_getElem? (drop_eq_cons hdrop).1, ok_bind, subslice_of_le hbuffer, ok_bind]
  cases hn : io i start l with
  | none => rfl
  | some n =>
    have hle := (hio i start l n hn).1
    simp only [Nat.min_eq_left hle, overwrite_zeros done file hin hle hl]

/-- The loop of `read` over the segments of a range. -/
private theorem readFiles_filled {i start len : ℕ} {after : List Bytes} (done : Bytes)
    (hio : io.KeepsContract) (hdrop : files.drop i = after)
    (hstart : ∀ file ∈ after.head?, start ≤ file.length)
    (hlen : start + len ≤ after.flatten.length) :
    readFiles io files i (done ++ List.replicate len 0)
        (splitRange (after.map List.length) start len done.length) =
      match io.filled files i (splitRange (after.map List.length) start len done.length) with
      | none => .error (.err "i/o error")
      | some bytes => .ok (done ++ bytes) := by
  induction after generalizing i start len done with
  | nil =>
    obtain ⟨rfl, rfl⟩ : start = 0 ∧ len = 0 := by simpa using hlen
    simp [splitRange, readFiles, FileRead.filled, pure, Except.pure]
  | cons file after ih =>
    have hfile : start ≤ file.length := hstart file rfl
    obtain ⟨-, hgetD, hnext⟩ := drop_eq_cons hdrop
    rw [List.flatten_cons, List.length_append] at hlen
    rw [List.map_cons, splitRange]
    split_ifs with hcross
    · have hin : start + (file.length - start) ≤ file.length := by omega
      rw [readFiles_cons hio hdrop hin (by omega), FileRead.filled, hgetD]
      cases hn : io i start (file.length - start) with
      | none => rfl
      | some n =>
        have hle := (hio i start _ n hn).1
        have hnone : ∀ file' ∈ after.head?, 0 ≤ file'.length := fun _ _ => Nat.zero_le _
        have hlast : 0 + (len - (file.length - start)) ≤ after.flatten.length := by omega
        have hrest :=
          ih (done ++ FileRead.partly file start (file.length - start) n) hnext hnone hlast
        rw [List.length_append, FileRead.length_partly hin hle] at hrest
        simp only [hrest]
        cases io.filled files (i + 1) _ with
        | none => rfl
        | some bytes => simp
    · rw [readFiles_cons hio hdrop (by omega) (Nat.le_refl len), FileRead.filled, hgetD]
      cases hn : io i start len with
      | none => rfl
      | some n => simp [readFiles, FileRead.filled, pure, Except.pure]

private theorem skips_iff {i start l n : ℕ} {file : Bytes} (hget : files[i]? = some file)
    (hn : io i start l = some n) (hle : n ≤ l) :
    (∀ file' n', files[i]? = some file' → io i start l = some n' →
      slice file' (start + n') (l - n') = List.replicate (l - n') 0) ↔
      FileRead.partly file start l n = slice file start l := by
  rw [FileRead.partly_eq_slice_iff hle]
  constructor
  · intro h
    exact h file n hget hn
  · intro h file' n' hget' hn'
    obtain rfl := Option.some.inj (hget.symm.trans hget')
    obtain rfl := Option.some.inj (hn.symm.trans hn')
    exact h

/-- A range that is filled is the content exactly where the bytes left out are zero. -/
private theorem filled_eq_slice_iff {i start len pos : ℕ} {after : List Bytes} {bytes : Bytes}
    (hio : io.KeepsContract) (hdrop : files.drop i = after)
    (hstart : ∀ file ∈ after.head?, start ≤ file.length)
    (hlen : start + len ≤ after.flatten.length)
    (hfilled : io.filled files i (splitRange (after.map List.length) start len pos) = some bytes) :
    bytes = slice after.flatten start len ↔
      io.SkipsZeros files i (splitRange (after.map List.length) start len pos) := by
  induction after generalizing i start len pos bytes with
  | nil =>
    obtain ⟨rfl, rfl⟩ : start = 0 ∧ len = 0 := by simpa using hlen
    cases hfilled
    simp [splitRange, FileRead.SkipsZeros]
  | cons file after ih =>
    have hfile : start ≤ file.length := hstart file rfl
    obtain ⟨hget, hgetD, hnext⟩ := drop_eq_cons hdrop
    rw [List.flatten_cons, List.length_append] at hlen
    rw [List.map_cons, splitRange] at hfilled ⊢
    split_ifs at hfilled ⊢ with hcross
    · have hin : start + (file.length - start) ≤ file.length := by omega
      rw [FileRead.filled, hgetD] at hfilled
      obtain ⟨n, hn, hfilled⟩ := Option.bind_eq_some_iff.mp hfilled
      obtain ⟨rest, hrest, hfilled⟩ := Option.bind_eq_some_iff.mp hfilled
      cases hfilled
      have hle := (hio i start _ n hn).1
      have htail := ih hnext (by simp) (by omega) hrest
      have hsplit : len = (file.length - start) + (len - (file.length - start)) := by omega
      have hlengths : (FileRead.partly file start (file.length - start) n).length =
          (slice file start (file.length - start)).length := by
        rw [FileRead.length_partly hin hle, length_slice hin]
      rw [FileRead.SkipsZeros, skips_iff hget hn hle, ← htail, List.flatten_cons]
      nth_rewrite 1 [hsplit]
      rw [slice_append_across _ _ hfile]
      constructor
      · intro heq
        exact List.append_inj heq hlengths
      · rintro ⟨hpart, htail⟩
        rw [hpart, htail]
    · rw [FileRead.filled, hgetD] at hfilled
      obtain ⟨n, hn, hfilled⟩ := Option.bind_eq_some_iff.mp hfilled
      cases hfilled
      have hle := (hio i start _ n hn).1
      rw [List.flatten_cons, slice_append_left (by omega), List.append_nil, FileRead.SkipsZeros,
        skips_iff hget hn hle, FileRead.SkipsZeros, and_true]

/-- What `read` returns, whatever the reads of the files do. -/
theorem read_eq_filled {fileOffsets : List ℕ} (h : Layout files fileOffsets)
    (hio : io.KeepsContract) {offset len index : ℕ} {segs : List (ℕ × ℕ × ℕ)}
    (hsegs : searchPtrs fileOffsets offset len = .ok (index, segs)) :
    (read io files fileOffsets offset len = match io.filled files index segs with
      | none => .error (.err "i/o error")
      | some bytes => .ok bytes) ∧
    ∀ bytes, io.filled files index segs = some bytes →
      (bytes = slice files.flatten offset len ↔ io.SkipsZeros files index segs) := by
  obtain ⟨i, hi, hlen, hle, hptr⟩ := h.searchIndex_lands offset
  have hcases := h.searchPtrs_eq hi len
  rw [hsegs] at hcases
  split_ifs at hcases with hfit
  cases hcases
  have hsplit := Layout.length_take_add_drop files index
  have hstart := head_le_length hptr
  have hlast : offset - (files.take index).flatten.length + len ≤
      (files.drop index).flatten.length := by omega
  refine ⟨?_, fun bytes hfilled => ?_⟩
  · rw [read, hsegs, ok_bind]
    have hloop := readFiles_filled [] hio rfl hstart hlast
    simp only [List.nil_append] at hloop
    exact hloop
  · have hslice := slice_append_right (files.take index).flatten (files.drop index).flatten
      (offset - (files.take index).flatten.length) len
    rw [← List.flatten_append, List.take_append_drop, Nat.add_sub_cancel' hle] at hslice
    rw [hslice]
    exact filled_eq_slice_iff hio rfl hstart hlast hfilled

/-- For a range inside the files, `read` fails or returns the content exactly where a read of
a file fails or every read that is short leaves out zero bytes only. -/
theorem read_returns_content_iff {fileOffsets : List ℕ} (h : Layout files fileOffsets)
    (hio : io.KeepsContract) {offset len : ℕ} (hoffset : offset < files.flatten.length)
    (hfit : offset + len ≤ files.flatten.length) :
    ((∃ e, read io files fileOffsets offset len = .error (.err e)) ∨
        read io files fileOffsets offset len = .ok (slice files.flatten offset len)) ↔
      ∀ index segs, searchPtrs fileOffsets offset len = .ok (index, segs) →
        io.Fails index segs ∨ io.SkipsZeros files index segs := by
  obtain ⟨index, hindex, -⟩ := h.searchIndex_lands offset
  obtain ⟨segs, hsegs⟩ : ∃ segs, searchPtrs fileOffsets offset len = .ok (index, segs) := by
    rw [h.searchPtrs_eq hindex, if_pos ⟨h.searchIndex_lt hindex hoffset, hfit⟩]
    exact ⟨_, rfl⟩
  obtain ⟨hread, hslice⟩ := read_eq_filled h hio hsegs
  have hiff : (∀ i v, searchPtrs fileOffsets offset len = .ok (i, v) →
      io.Fails i v ∨ io.SkipsZeros files i v) ↔
      io.Fails index segs ∨ io.SkipsZeros files index segs := by
    rw [hsegs]
    constructor
    · exact fun hall => hall index segs rfl
    · rintro hsome i v heq
      cases heq
      exact hsome
  rw [hiff, hread, ← FileRead.filled_eq_none_iff]
  cases hfilled : io.filled files index segs with
  | none => simp
  | some bytes => simp [hslice bytes hfilled]

/-- Two files, whose bytes are all read. -/
theorem read_returns_content_iff_two :
    (∃ e, read fullRead [[1, 2], [3]] [0, 2, 3] 1 2 = .error (.err e)) ∨
      read fullRead [[1, 2], [3]] [0, 2, 3] 1 2 = .ok [2, 3] := by
  have hlayout : Layout [[1, 2], [3]] [0, 2, 3] := ⟨rfl, by decide⟩
  have hcontract : fullRead.KeepsContract := by
    intro fileIndex filePtr len n hn
    cases hn
    exact ⟨Nat.le_refl _, id⟩
  have hoffset : 1 < [[(1 : UInt8), 2], [3]].flatten.length := by decide
  have hfit : 1 + 2 ≤ [[(1 : UInt8), 2], [3]].flatten.length := by decide
  refine (read_returns_content_iff hlayout hcontract hoffset hfit).mpr ?_
  rintro index segs hsegs
  have hcut : searchPtrs [0, 2, 3] 1 2 = .ok (0, [(0, 1, 1), (1, 0, 1)]) := by decide +kernel
  rw [hcut] at hsegs
  cases hsegs
  exact Or.inr ⟨by simp [fullRead], by simp [fullRead], trivial⟩

/-- Every read fills one byte. -/
def byteRead : FileRead := fun _ _ len => some (min 1 len)

/-- A short read of a file leaves the rest of the buffer at zero, and no error is reported. -/
theorem short_read_leaves_zero : byteRead.KeepsContract ∧
    read byteRead [[1, 2]] [0, 2] 0 2 = .ok [1, 0] ∧
    slice [[1, 2]].flatten 0 2 = ([1, 2] : Bytes) := by
  refine ⟨?_, by decide +kernel, by decide⟩
  intro fileIndex filePtr len n hn
  cases hn
  omega

end TorrentClient
