import TorrentClient.CheckedOperations

/-!
# Block storage over several files

The files of a torrent are stored one after the other. `searchPtrs` cuts a byte range of
their concatenation at the file borders, `storeBlock` writes a block through it and
`read` reads a range back. A file is the list of its bytes; seeking and writing succeed
and act at the given position, and what a single `file.read` fills is left to `FileRead`.
-/
namespace TorrentClient
open ListRanges

/-- `download::BLOCK_SIZE` -/
def blockSize : ℕ := 16 * 1024

/-- The binary search of `search_index` between `left` and `right`. -/
def searchIndexLoop (fileOffsets : List ℕ) (offset left right : ℕ) : Outcome ℕ :=
  if left ≤ right then do
    let mid := (left + right) / 2
    let midOffset ← index fileOffsets mid
    if offset = midOffset then
      return mid
    else if offset < midOffset then
      -- `mid - 1` on `usize`
      if mid = 0 then .error .panic else searchIndexLoop fileOffsets offset left (mid - 1)
    else
      searchIndexLoop fileOffsets offset (mid + 1) right
  else
    return right
termination_by right + 1 - left

def searchIndex (fileOffsets : List ℕ) (offset : ℕ) : Outcome ℕ := do
  let right ← checkedSub fileOffsets.length 1
  searchIndexLoop fileOffsets offset 0 right

/-- The loop of `search_ptrs` on the offsets from the current file on. The data pointer
never exceeds the length of the range. -/
def searchPtrsLoop : List ℕ → ℕ → ℕ → ℕ → Outcome (List (ℕ × ℕ × ℕ))
  | start :: stop :: fileOffsets, dataPtr, left, filePtr => do
    let reach ← checkedAdd (← checkedAdd left start) filePtr
    if reach > stop then
      let l ← checkedSub (← checkedSub stop start) filePtr
      let left ← checkedSub left l
      let vec ← searchPtrsLoop (stop :: fileOffsets) (dataPtr + l) left 0
      return (dataPtr, filePtr, l) :: vec
    else
      return [(dataPtr, filePtr, left)]
  | _, _, _, _ => .error .panic

def searchPtrs (fileOffsets : List ℕ) (offset len : ℕ) : Outcome (ℕ × List (ℕ × ℕ × ℕ)) := do
  let i ← searchIndex fileOffsets offset
  let start ← index fileOffsets i
  let filePtr ← checkedSub offset start
  let vec ← searchPtrsLoop (fileOffsets.drop i) 0 len filePtr
  return (i, vec)

/-- `seek` and `write_all`; writing behind the end of a file fills the gap with zeros. -/
def writeAt (file : Bytes) (filePtr : ℕ) (bytes : Bytes) : Bytes :=
  overwrite (file ++ List.replicate (filePtr + bytes.length - file.length) 0) filePtr bytes

/-- The loop of `store_block` over the parts of the range, the first one in file `i`. -/
def storeParts (files : List Bytes) (i : ℕ) (data : Bytes) :
    List (ℕ × ℕ × ℕ) → Outcome (List Bytes)
  | [] => return files
  | (blockPtr, filePtr, len) :: vec => do
    let file ← index files i
    let bytes ← subslice data blockPtr (blockPtr + len)
    storeParts (files.set i (writeAt file filePtr bytes)) (i + 1) data vec

def storeBlock (files : List Bytes) (fileOffsets : List ℕ) (pieceOffset blockIndex : ℕ)
    (data : Bytes) : Outcome (List Bytes) := do
  let blockOffset ← checkedAdd pieceOffset (← checkedMul32 blockIndex blockSize)
  let (i, vec) ← searchPtrs fileOffsets blockOffset data.length
  storeParts files i data vec

/-- How many bytes one `file.read(&mut buf)` fills, given the number of the file, the
position and the length of the buffer; `none` is an i/o error. -/
abbrev FileRead := ℕ → ℕ → ℕ → Option ℕ

/-- Every read fills its buffer. -/
def fullRead : FileRead := fun _ _ len => some len

/-- The loop of `read` over the parts of the range, the first one in file `i`. -/
def readFiles (io : FileRead) (files : List Bytes) (i : ℕ) (buffer : Bytes) :
    List (ℕ × ℕ × ℕ) → Outcome Bytes
  | [] => return buffer
  | (piecePtr, filePtr, len) :: vec => do
    let file ← index files i
    let _target ← subslice buffer piecePtr (piecePtr + len)
    match io i filePtr len with
    | none => .error (.err "i/o error")
    | some n =>
      readFiles io files (i + 1) (overwrite buffer piecePtr (slice file filePtr (min n len))) vec

def read (io : FileRead) (files : List Bytes) (fileOffsets : List ℕ) (offset len : ℕ) :
    Outcome Bytes := do
  let (i, vec) ← searchPtrs fileOffsets offset len
  readFiles io files i (List.replicate len 0) vec

/-! ### The search -/

/-- What the result of `search_index` says about the offset. -/
structure SearchHit (fileOffsets : List ℕ) (offset i : ℕ) : Prop where
  start : ∃ o, fileOffsets[i]? = some o ∧ o ≤ offset
  before_next : ∀ o, fileOffsets[i + 1]? = some o → offset < o ∨ fileOffsets[i]? = some offset

/-- The invariant of the search: everything below `left` starts before the offset and
everything above `right` behind it. -/
private theorem searchIndexLoop_spec {fileOffsets : List ℕ} {offset left right : ℕ}
    (hzero : fileOffsets[0]? = some 0) (hright : right < fileOffsets.length)
    (hle : left ≤ right + 1)
    (hlow : 0 < left → ∃ o, fileOffsets[left - 1]? = some o ∧ o < offset)
    (hhigh : ∀ o, fileOffsets[right + 1]? = some o → offset < o) :
    ∃ i, searchIndexLoop fileOffsets offset left right = .ok i ∧
      SearchHit fileOffsets offset i := by
  induction left, right using searchIndexLoop.induct with
  | case1 left right h mid ihl ihr =>
    have hmid : mid = (left + right) / 2 := rfl
    obtain ⟨o, ho⟩ : ∃ o, fileOffsets[mid]? = some o :=
      ⟨_, List.getElem?_eq_getElem (by omega)⟩
    rw [searchIndexLoop, if_pos h]
    simp only [← hmid, index_of_getElem? ho, ok_bind]
    by_cases heq : offset = o
    · rw [if_pos heq]
      exact ⟨mid, rfl, ⟨o, ho, Nat.le_of_eq heq.symm⟩, fun _ _ => .inr (heq ▸ ho)⟩
    rw [if_neg heq]
    by_cases hlt : offset < o
    · have hne : mid ≠ 0 := by
        intro hm
        rw [hm, hzero] at ho
        cases ho
        omega
      rw [if_pos hlt, if_neg hne]
      refine ihl hne (by omega) (by omega) hlow ?_
      intro o' ho'
      rw [Nat.sub_add_cancel (Nat.pos_of_ne_zero hne), ho] at ho'
      cases ho'
      exact hlt
    · rw [if_neg hlt]
      exact ihr hright (by omega) (fun _ => ⟨o, by simpa using ho, by omega⟩) hhigh
  | case2 left right h =>
    obtain rfl : left = right + 1 := by omega
    obtain ⟨o, ho, hlt⟩ := hlow (Nat.succ_pos _)
    rw [searchIndexLoop, if_neg h]
    exact ⟨right, rfl, ⟨o, by simpa using ho, Nat.le_of_lt hlt⟩, fun o' ho' => .inl (hhigh o' ho')⟩

theorem searchIndex_spec {fileOffsets : List ℕ} (hzero : fileOffsets[0]? = some 0) (offset : ℕ) :
    ∃ i, searchIndex fileOffsets offset = .ok i ∧ SearchHit fileOffsets offset i := by
  have hpos : 0 < fileOffsets.length := (List.getElem?_eq_some_iff.mp hzero).1
  rw [searchIndex, checkedSub_of_le (by omega), ok_bind]
  refine searchIndexLoop_spec hzero (by omega) (by omega) (by omega) ?_
  intro o ho
  have := (List.getElem?_eq_some_iff.mp ho).1
  omega

/-! ### The cut at the file borders -/

private theorem borders_eq_cons (base : ℕ) (lens : List ℕ) :
    ∃ os, borders base lens = base :: os := by
  cases lens <;> exact ⟨_, rfl⟩

/-- Inside the files the loop follows `splitRange`. -/
theorem searchPtrsLoop_of_le {base : ℕ} {lens : List ℕ} {dataPtr left filePtr : ℕ}
    (hne : lens ≠ []) (hptr : ∀ n ∈ lens.head?, filePtr ≤ n) (htotal : base + lens.sum < 2 ^ 64)
    (hfit : filePtr + left ≤ lens.sum) :
    searchPtrsLoop (borders base lens) dataPtr left filePtr =
      .ok (splitRange lens filePtr left dataPtr) := by
  induction lens generalizing base dataPtr left filePtr with
  | nil => exact absurd rfl hne
  | cons n lens ih =>
    have hn : filePtr ≤ n := hptr n rfl
    obtain ⟨os, hos⟩ := borders_eq_cons (base + n) lens
    rw [List.sum_cons] at htotal hfit
    rw [borders, hos, searchPtrsLoop, ← hos, checkedAdd_of_lt (by omega), ok_bind,
      checkedAdd_of_lt (by omega), ok_bind, splitRange]
    by_cases hcross : n < filePtr + left
    · have hl : base + n - base - filePtr = n - filePtr := by omega
      have hlens : lens ≠ [] := by
        rintro rfl
        simp only [List.sum_nil] at hfit
        omega
      rw [if_pos (by omega), if_pos hcross, checkedSub_of_le (by omega), ok_bind,
        checkedSub_of_le (by omega), ok_bind, checkedSub_of_le (by omega), ok_bind, hl,
        ih hlens (by simp) (by omega) (by omega)]
      rfl
    · rw [if_neg (by omega), if_neg hcross]
      rfl

/-- A range that runs behind the last file makes the loop panic. -/
theorem searchPtrsLoop_of_lt {base : ℕ} {lens : List ℕ} {dataPtr left filePtr : ℕ}
    (hptr : ∀ n ∈ lens.head?, filePtr ≤ n) (hover : lens.sum < filePtr + left) :
    searchPtrsLoop (borders base lens) dataPtr left filePtr = .error .panic := by
  induction lens generalizing base dataPtr left filePtr with
  | nil => rfl
  | cons n lens ih =>
    have hn : filePtr ≤ n := hptr n rfl
    obtain ⟨os, hos⟩ := borders_eq_cons (base + n) lens
    rw [List.sum_cons] at hover
    rw [borders, hos, searchPtrsLoop, ← hos]
    by_cases hadd : left + base < 2 ^ 64
    · rw [checkedAdd_of_lt hadd, ok_bind]
      by_cases hadd' : left + base + filePtr < 2 ^ 64
      · rw [checkedAdd_of_lt hadd', ok_bind, if_pos (by omega), checkedSub_of_le (by omega),
          ok_bind, checkedSub_of_le (by omega), ok_bind, checkedSub_of_le (by omega), ok_bind,
          ih (by simp) (by omega)]
        rfl
      · rw [checkedAdd, if_neg hadd', error_bind]
    · rw [checkedAdd, if_neg hadd, error_bind]

/-- The offsets of files that were created one after the other. -/
structure Layout (files : List Bytes) (fileOffsets : List ℕ) : Prop where
  offsets_eq : fileOffsets = borders 0 (files.map List.length)
  total_lt : files.flatten.length < 2 ^ 64

namespace Layout

variable {files : List Bytes} {fileOffsets : List ℕ}

theorem length_eq (h : Layout files fileOffsets) : fileOffsets.length = files.length + 1 := by
  rw [h.offsets_eq, length_borders, List.length_map]

/-- The start of a file is the length of the files before it. -/
theorem getElem?_eq (h : Layout files fileOffsets) {i : ℕ} (hi : i ≤ files.length) :
    fileOffsets[i]? = some (files.take i).flatten.length := by
  rw [h.offsets_eq, getElem?_borders 0 _ (by simpa using hi), Nat.zero_add, ← List.map_take,
    List.length_flatten]

theorem zero (h : Layout files fileOffsets) : fileOffsets[0]? = some 0 := by
  simpa using h.getElem?_eq (Nat.zero_le _)

theorem drop_eq (h : Layout files fileOffsets) {i : ℕ} (hi : i ≤ files.length) :
    fileOffsets.drop i =
      borders (files.take i).flatten.length ((files.drop i).map List.length) := by
  rw [h.offsets_eq, drop_borders 0 _ (by simpa using hi), Nat.zero_add, ← List.map_take,
    ← List.map_drop, ← List.length_flatten]

theorem length_take_add_drop (files : List Bytes) (i : ℕ) :
    (files.take i).flatten.length + (files.drop i).flatten.length = files.flatten.length := by
  rw [← List.length_append, ← List.flatten_append, List.take_append_drop]

/-- The search of an offset finds a file that starts at or before it and, unless it is
the end of the last file, does not end before it. -/
theorem searchIndex_lands (h : Layout files fileOffsets) (offset : ℕ) :
    ∃ i, searchIndex fileOffsets offset = .ok i ∧ i ≤ files.length ∧
      (files.take i).flatten.length ≤ offset ∧
      ∀ n ∈ ((files.drop i).map List.length).head?, offset - (files.take i).flatten.length ≤ n := by
  obtain ⟨i, hi, ⟨o, ho, hle⟩, hnext⟩ := searchIndex_spec h.zero offset
  have hlen : i ≤ files.length := by
    have := (List.getElem?_eq_some_iff.mp ho).1
    have := h.length_eq
    omega
  rw [h.getElem?_eq hlen] at ho hnext
  cases ho
  refine ⟨i, hi, hlen, hle, ?_⟩
  intro n hn
  cases hd : files.drop i with
  | nil => simp [hd] at hn
  | cons file rest =>
    have hn' : file.length = n := by simpa [hd] using hn
    have hlt : i < files.length := by
      by_contra hge
      rw [List.drop_of_length_le (by omega)] at hd
      cases hd
    have hend : (files.take (i + 1)).flatten.length = (files.take i).flatten.length + n := by
      have htake := length_take_add_drop files i
      have htake' := length_take_add_drop files (i + 1)
      have hdrop : files.drop (i + 1) = rest := by
        rw [← List.tail_drop, hd, List.tail_cons]
      rw [hd, List.flatten_cons, List.length_append] at htake
      rw [hdrop] at htake'
      omega
    rcases hnext _ (h.getElem?_eq hlt) with hlt' | heq
    · omega
    · have := Option.some.inj heq
      omega

/-- `search_ptrs` succeeds exactly on ranges inside the files whose start it finds in a
file, and then cuts the range at the borders of the files from there on. -/
theorem searchPtrs_eq (h : Layout files fileOffsets) {offset i : ℕ}
    (hi : searchIndex fileOffsets offset = .ok i) (len : ℕ) :
    searchPtrs fileOffsets offset len =
      if i < files.length ∧ offset + len ≤ files.flatten.length then
        .ok (i, splitRange ((files.drop i).map List.length)
          (offset - (files.take i).flatten.length) len 0)
      else .error .panic := by
  obtain ⟨i', hi', hlen, hle, hptr⟩ := h.searchIndex_lands offset
  obtain rfl : i = i' := by
    rw [hi] at hi'
    exact Except.ok.inj hi'
  have htotal := length_take_add_drop files i
  have hsum : ((files.drop i).map List.length).sum = (files.drop i).flatten.length :=
    List.length_flatten.symm
  have hlt := h.total_lt
  rw [searchPtrs, hi, ok_bind, index_of_getElem? (h.getElem?_eq hlen), ok_bind,
    checkedSub_of_le hle, ok_bind, h.drop_eq hlen]
  split_ifs with hfit
  · have hne : (files.drop i).map List.length ≠ [] := by
      simp only [ne_eq, List.map_eq_nil_iff, List.drop_eq_nil_iff]
      omega
    rw [searchPtrsLoop_of_le hne hptr (by omega) (by omega)]
    rfl
  · by_cases hfile : i < files.length
    · rw [searchPtrsLoop_of_lt hptr (by omega)]
      rfl
    · rw [List.drop_of_length_le (by omega)]
      rfl

theorem searchIndex_lt (h : Layout files fileOffsets) {offset i : ℕ}
    (hi : searchIndex fileOffsets offset = .ok i) (hlt : offset < files.flatten.length) :
    i < files.length := by
  obtain ⟨i', hi', hlen, hle, -⟩ := h.searchIndex_lands offset
  obtain rfl : i = i' := by
    rw [hi] at hi'
    exact Except.ok.inj hi'
  by_contra hge
  rw [List.take_of_length_le (by omega)] at hle
  omega

end Layout

/-! ### Reading and writing -/

theorem writeAt_of_le {file bytes : Bytes} {filePtr : ℕ} (h : filePtr + bytes.length ≤ file.length) :
    writeAt file filePtr bytes = overwrite file filePtr bytes := by
  rw [writeAt, Nat.sub_eq_zero_of_le h, List.replicate_zero, List.append_nil]

private theorem storeParts_eq (before : List Bytes) {after : List Bytes} {data : Bytes}
    {vec : List (ℕ × ℕ × ℕ)} (h : PartsFit data.length (after.map List.length) vec) :
    storeParts (before ++ after) before.length data vec =
      .ok (before ++ writeParts after vec data) := by
  induction vec generalizing before after with
  | nil => cases after <;> rfl
  | cons part vec ih =>
    obtain ⟨pos, start, len⟩ := part
    cases after with
    | nil => exact h.elim
    | cons file after =>
      obtain ⟨hin, hdata, hrest⟩ := h
      have hwrite : writeAt file start (slice data pos len) =
          overwrite file start (slice data pos len) := by
        apply writeAt_of_le
        rw [length_slice hdata]
        exact hin
      have hfile : (before ++ file :: after)[before.length]? = some file := by simp
      rw [storeParts, index_of_getElem? hfile, ok_bind, subslice_of_le hdata, ok_bind, hwrite,
        List.set_append_right _ _ (Nat.le_refl _), Nat.sub_self, List.set_cons_zero]
      have hnext := ih (before ++ [overwrite file start (slice data pos len)]) hrest
      simpa [writeParts] using hnext

private theorem readFiles_eq (before : List Bytes) {after : List Bytes} {buffer : Bytes}
    {vec : List (ℕ × ℕ × ℕ)} (h : PartsFit buffer.length (after.map List.length) vec) :
    readFiles fullRead (before ++ after) before.length buffer vec =
      .ok (readParts after vec buffer) := by
  induction vec generalizing before after buffer with
  | nil => cases after <;> rfl
  | cons part vec ih =>
    obtain ⟨pos, start, len⟩ := part
    cases after with
    | nil => exact h.elim
    | cons file after =>
      obtain ⟨hin, hbuf, hrest⟩ := h
      have hfile : (before ++ file :: after)[before.length]? = some file := by simp
      have hlen : (overwrite buffer pos (slice file start len)).length = buffer.length := by
        apply length_overwrite
        rw [length_slice hin]
        exact hbuf
      rw [readFiles, index_of_getElem? hfile, ok_bind, subslice_of_le hbuf, ok_bind]
      simp only [fullRead, Nat.min_self]
      have hnext := ih (before ++ [file]) (hlen.symm ▸ hrest)
      simpa [readParts] using hnext

theorem head_le_length {files : List Bytes} {k : ℕ}
    (h : ∀ n ∈ (files.map List.length).head?, k ≤ n) :
    ∀ file ∈ files.head?, k ≤ file.length := by
  intro file hf
  apply h
  rw [List.head?_map]
  exact Option.mem_map_of_mem _ hf

variable {files : List Bytes} {fileOffsets : List ℕ}

/-- A block that stays inside the files is written over its range of their concatenation;
no file changes its length. -/
theorem storeBlock_of_le (h : Layout files fileOffsets) {pieceOffset blockIndex : ℕ}
    {data : Bytes} (h32 : blockIndex * blockSize < 2 ^ 32)
    (hstart : pieceOffset + blockIndex * blockSize < files.flatten.length)
    (hfit : pieceOffset + blockIndex * blockSize + data.length ≤ files.flatten.length) :
    ∃ files', storeBlock files fileOffsets pieceOffset blockIndex data = .ok files' ∧
      files'.flatten = overwrite files.flatten (pieceOffset + blockIndex * blockSize) data ∧
      files'.map List.length = files.map List.length := by
  obtain ⟨i, hi, hlen, hle, hptr⟩ := h.searchIndex_lands (pieceOffset + blockIndex * blockSize)
  have hfile := h.searchIndex_lt hi hstart
  have hlt := h.total_lt
  have hsplit := Layout.length_take_add_drop files i
  have hsum : ((files.drop i).map List.length).sum = (files.drop i).flatten.length :=
    List.length_flatten.symm
  have hlast : pieceOffset + blockIndex * blockSize - (files.take i).flatten.length +
      data.length ≤ (files.drop i).flatten.length := by omega
  have hparts := splitRange_fit 0 data.length hptr (hsum ▸ hlast) (Nat.le_of_eq (Nat.zero_add _))
  have hstore := storeParts_eq (files.take i) hparts
  rw [List.take_append_drop, List.length_take_of_le hlen] at hstore
  refine ⟨files.take i ++ writeParts (files.drop i) (splitRange ((files.drop i).map List.length)
    (pieceOffset + blockIndex * blockSize - (files.take i).flatten.length) data.length 0) data,
    ?_, ?_, ?_⟩
  · rw [storeBlock, checkedMul32_of_lt h32, ok_bind, checkedAdd_of_lt (by omega), ok_bind,
      h.searchPtrs_eq hi, if_pos ⟨hfile, hfit⟩]
    exact hstore
  · rw [List.flatten_append, flatten_writeParts _ _ (head_le_length hptr) hlast (by omega), slice_full,
      ← overwrite_append_right, ← List.flatten_append, List.take_append_drop,
      Nat.add_sub_cancel' hle]
  · rw [List.map_append, map_length_writeParts hparts, ← List.map_append, List.take_append_drop]

/-- A block that runs behind the end of the last file makes `store_block` panic before
anything is written. -/
theorem storeBlock_of_lt (h : Layout files fileOffsets) {pieceOffset blockIndex : ℕ}
    {data : Bytes}
    (hover : files.flatten.length < pieceOffset + blockIndex * blockSize + data.length) :
    storeBlock files fileOffsets pieceOffset blockIndex data = .error .panic := by
  rw [storeBlock, checkedMul32]
  split_ifs with h32
  · rw [ok_bind, checkedAdd]
    split_ifs with h64
    · obtain ⟨i, hi, -⟩ := h.searchIndex_lands (pieceOffset + blockIndex * blockSize)
      rw [ok_bind, h.searchPtrs_eq hi, if_neg (by omega)]
      rfl
    · rfl
  · rfl

/-- Reading returns the range of the concatenation of the files. -/
theorem read_of_le (h : Layout files fileOffsets) {offset len i : ℕ}
    (hi : searchIndex fileOffsets offset = .ok i) (hfile : i < files.length)
    (hfit : offset + len ≤ files.flatten.length) :
    read fullRead files fileOffsets offset len = .ok (slice files.flatten offset len) := by
  obtain ⟨i', hi', hlen, hle, hptr⟩ := h.searchIndex_lands offset
  obtain rfl : i = i' := by
    rw [hi] at hi'
    exact Except.ok.inj hi'
  have hsplit := Layout.length_take_add_drop files i
  have hsum : ((files.drop i).map List.length).sum = (files.drop i).flatten.length :=
    List.length_flatten.symm
  have hlast : offset - (files.take i).flatten.length + len ≤ (files.drop i).flatten.length := by
    omega
  have hbuf : (List.replicate len (0 : UInt8)).length = len := List.length_replicate
  have hparts := splitRange_fit 0 (List.replicate len (0 : UInt8)).length hptr (hsum ▸ hlast)
    (by omega)
  have hread := readFiles_eq (files.take i) hparts
  rw [List.take_append_drop, List.length_take_of_le hlen] at hread
  have hslice : slice (files.drop i).flatten (offset - (files.take i).flatten.length) len =
      slice files.flatten offset len := by
    rw [← slice_append_right, ← List.flatten_append, List.take_append_drop,
      Nat.add_sub_cancel' hle]
  rw [read, h.searchPtrs_eq hi, if_pos ⟨hfile, hfit⟩, ok_bind]
  refine hread.trans ?_
  rw [readParts_splitRange _ _ (head_le_length hptr) hlast (by omega), hslice, overwrite_full]
  rw [hbuf, length_slice hfit]

theorem read_panics (h : Layout files fileOffsets) {offset len i : ℕ}
    (hi : searchIndex fileOffsets offset = .ok i)
    (hout : ¬ (i < files.length ∧ offset + len ≤ files.flatten.length)) (io : FileRead) :
    read io files fileOffsets offset len = .error .panic := by
  rw [read, h.searchPtrs_eq hi, if_neg hout]
  rfl

end TorrentClient
