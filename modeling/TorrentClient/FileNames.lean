import TorrentClient.DownloadEvents
import TorrentClient.FileCompletion

/-!
# Names that follow the pieces

Along every run of the download loop a file with bytes has its temporary name as long as a piece
of it is missing, and has lost the ending once all of its pieces are completed.
-/
namespace TorrentClient
open ListRanges TransitionRuns

theorem pureStep_bind_eq_ok {ε σ α β : Type} {x : Except (Fault ε) α} {f : α → Stateful ε σ β}
    {s t : σ} {b : β} : (pureStep x >>= f) s = .ok b t ↔ ∃ a, x = .ok a ∧ f a s = .ok b t := by
  cases x with
  | ok a => simp [bind_of_ok (pureStep_ok a s)]
  | error e => simp [bind_of_error (pureStep_error e s)]

namespace Download

variable {sha1 : Bytes → Sha1} {d d' : Download} {pieceIndex blockIndex : UInt32} {data : Bytes}

/-! ### What a stored block renames -/

/-- Only files are renamed and events sent. -/
structure Renamed (d d' : Download) : Prop where
  eq : d' = { d with filePaths := d'.filePaths, sent := d'.sent }

theorem Renamed.trans {d'' : Download} (h : Renamed d d') (h' : Renamed d' d'') : Renamed d d'' :=
  ⟨by rw [h'.eq, h.eq]⟩

theorem renamed_renameTempFile {fileIndex : ℕ} (h : renameTempFile fileIndex d = .ok () d') :
    Renamed d d' := by
  rw [renameTempFile, bind_of_ok (get_eq d)] at h
  obtain ⟨filePath, hpath, h⟩ := pureStep_bind_eq_ok.mp h
  cases hstrip : stripTemp filePath with
  | none =>
    rw [hstrip] at h
    cases h
    exact ⟨rfl⟩
  | some newName =>
    rw [hstrip] at h
    obtain ⟨_, hfile, h⟩ := pureStep_bind_eq_ok.mp h
    cases h
    exact ⟨rfl⟩

theorem renamed_verifyFiles {pieceLen fileIndex count : ℕ}
    (h : verifyFiles pieceLen fileIndex count d = .ok () d') : Renamed d d' := by
  induction count generalizing fileIndex d with
  | zero =>
    cases h
    exact ⟨rfl⟩
  | succ count ih =>
    rw [verifyFiles, bind_of_ok (get_eq d)] at h
    obtain ⟨low, hlow, h⟩ := pureStep_bind_eq_ok.mp h
    obtain ⟨last, hlast, h⟩ := pureStep_bind_eq_ok.mp h
    obtain ⟨high, hhigh, h⟩ := pureStep_bind_eq_ok.mp h
    obtain ⟨contained, hcontained, h⟩ := pureStep_bind_eq_ok.mp h
    obtain ⟨_, e, hrename, h⟩ := stateful_bind_eq_ok.mp h
    refine Renamed.trans ?_ (ih h)
    cases hall : contained.all (·.isCompleted) with
    | true =>
      rw [hall, runIf_true] at hrename
      exact renamed_renameTempFile hrename
    | false =>
      rw [hall] at hrename
      cases hrename
      exact ⟨rfl⟩

theorem renamed_verifyFile {p : ℕ} (h : verifyFile p d = .ok () d') : Renamed d d' := by
  rw [verifyFile, bind_of_ok (get_eq d)] at h
  obtain ⟨piece, hpiece, h⟩ := pureStep_bind_eq_ok.mp h
  obtain ⟨found, hfound, h⟩ := pureStep_bind_eq_ok.mp h
  exact renamed_verifyFiles h

/-- The messages at the end of `store` are all that changes. -/
theorem notify_sends (h : notify pieceIndex blockIndex d = .ok () d') :
    d' = { d with sent := d'.sent } := by
  rw [notify, bind_of_ok (rfl : broadcast _ d = .ok () _), bind_of_ok (get_eq _)] at h
  obtain ⟨piece, -, h⟩ := pureStep_bind_eq_ok.mp h
  cases hpiece : piece.isCompleted with
  | true =>
    rw [hpiece, bind_of_ok (rfl : runIf true (broadcast _) _ = .ok () _)] at h
    revert h
    cases isComplete _ with
    | true => exact fun h => by cases h; rfl
    | false => exact fun h => by cases h; rfl
  | false =>
    rw [hpiece, bind_of_ok (runIf_false _ _)] at h
    revert h
    cases isComplete _ with
    | true => exact fun h => by cases h; rfl
    | false => exact fun h => by cases h; rfl

/-- The end of `store` looks for finished files in a state that has the pieces of the next one. -/
theorem completePiece_visits (h : completePiece pieceIndex blockIndex d = .ok () d') :
    ∃ e, verifyFile pieceIndex.toNat { d' with filePaths := d.filePaths, sent := d.sent } =
      .ok () e ∧ d'.filePaths = e.filePaths := by
  obtain ⟨_, _, hflag, hrest⟩ := stateful_bind_eq_ok.mp h
  obtain ⟨_, e, hvisit, hnotify⟩ := stateful_bind_eq_ok.mp hrest
  cases hflag
  have hsent := notify_sends hnotify
  have hrenamed := (renamed_verifyFile hvisit).eq
  refine ⟨e, ?_, by rw [hsent]⟩
  have hstate : { d' with filePaths := d.filePaths, sent := d.sent } =
      d.modifyPiece pieceIndex.toNat fun p => { p with isCompleted := true } := by
    rw [hsent, hrenamed]
    rfl
  rw [hstate]
  exact hvisit

theorem store_visits (h : store sha1 pieceIndex blockIndex data d = .ok () d') :
    d' = d ∨ d'.havePieces[pieceIndex.toNat]? = some false ∨
      ∃ e, verifyFile pieceIndex.toNat { d' with filePaths := d.filePaths, sent := d.sent } =
        .ok () e ∧ d'.filePaths = e.filePaths := by
  rw [store, bind_of_ok (get_eq d)] at h
  obtain ⟨piece, hpiece, h⟩ := pureStep_bind_eq_ok.mp h
  obtain ⟨hasBlock, hblock, h⟩ := pureStep_bind_eq_ok.mp h
  by_cases hdone : (hasBlock || piece.isCompleted) = true
  · rw [if_pos hdone] at h
    cases h
    exact Or.inl rfl
  rw [if_neg hdone] at h
  obtain ⟨files, hfiles, h⟩ := pureStep_bind_eq_ok.mp h
  obtain ⟨_, _, hset, hrest⟩ := stateful_bind_eq_ok.mp h
  cases hset
  split_ifs at hrest with hall
  · obtain ⟨valid, _, hverify, hend⟩ := stateful_bind_eq_ok.mp hrest
    rw [verify, bind_of_ok (get_eq _)] at hverify
    obtain ⟨piece', hpiece', hverify⟩ := pureStep_bind_eq_ok.mp hverify
    obtain ⟨buffer, hbuffer, hverify⟩ := pureStep_bind_eq_ok.mp hverify
    cases hverify
    split_ifs at hend with hvalid
    · have hvisits := completePiece_visits hend
      exact Or.inr (Or.inr hvisits)
    · cases hend
      refine Or.inr (Or.inl ?_)
      have hget := index_eq_ok.mp hpiece
      simp only [havePieces, modifyPiece, List.getElem?_map, List.getElem?_modify_eq, hget]
      exact congrArg some (Bool.not_eq_true _ ▸ hvalid)
  · have hvisits := completePiece_visits hrest
    exact Or.inr (Or.inr hvisits)

/-! ### The names along a run -/

/-- A finished file that is looked at gets its name. -/
theorem foldl_filePaths {fileIndices : List ℕ} {fileIndex : ℕ} {newName : String}
    (hnodup : fileIndices.Nodup) (hmem : fileIndex ∈ fileIndices)
    (hcompleted : (d.containedPieces fileIndex).all (·.isCompleted) = true)
    (hpath : d.filePaths[fileIndex]?.bind stripTemp = some newName) :
    (fileIndices.foldl finishFile d).filePaths[fileIndex]? = some newName := by
  obtain ⟨before, after, rfl⟩ := List.append_of_mem hmem
  obtain ⟨-, hrest, hdisjoint⟩ := List.nodup_append.mp hnodup
  have hbefore : fileIndex ∉ before := fun hin => hdisjoint _ hin _ List.mem_cons_self rfl
  have hafter : fileIndex ∉ after := (List.nodup_cons.mp hrest).1
  rw [List.foldl_append, List.foldl_cons]
  obtain ⟨hpath₁, -⟩ := foldl_untouched (d := d) fun hin => absurd hin hbefore
  have hfin := Finished.foldl d before
  obtain ⟨hpath₂, -⟩ := foldl_untouched (d := (before.foldl finishFile d).finishFile fileIndex)
    fun hin => absurd hin hafter
  obtain ⟨filePath, hfile, -⟩ := Option.bind_eq_some_iff.mp hpath
  obtain ⟨hlt, -⟩ := List.getElem?_eq_some_iff.mp (hpath₁.trans hfile)
  rw [← hpath₁] at hpath
  rw [hpath₂, finishFile, hfin.containedPieces_eq, if_pos hcompleted, renameFile, hpath]
  exact List.getElem?_set_self hlt

/-- A file has the name it started with as long as a piece of it is missing, and has lost its
ending otherwise. -/
structure Named (paths : List String) (d : Download) : Prop where
  renamed : ∀ (i : ℕ) path, paths[i]? = some path →
    (∀ q, d.Overlaps q i → d.havePieces[q]? = some true) → d.filePaths[i]? = stripTemp path
  waiting : ∀ (i : ℕ) path q, paths[i]? = some path → d.Overlaps q i →
    d.havePieces[q]? ≠ some true → d.filePaths[i]? = some path

/-- The files have the same lengths. -/
structure SameLengths (d d' : Download) : Prop where
  metaInfo_eq : d'.metaInfo = d.metaInfo
  lengths_eq : d'.files.map List.length = d.files.map List.length

theorem SameLengths.overlaps_iff (h : SameLengths d d') (q i : ℕ) :
    d'.Overlaps q i ↔ d.Overlaps q i := by
  have hstart : ∀ j, d'.fileStart j = d.fileStart j := by
    intro j
    rw [fileStart, fileStart, List.length_flatten, List.length_flatten, List.map_take,
      List.map_take, h.lengths_eq]
  have hcontent : d'.content.length = d.content.length := by
    rw [content, content, List.length_flatten, List.length_flatten, h.lengths_eq]
  rw [Overlaps, Overlaps, hstart, hstart, hcontent, h.metaInfo_eq]

theorem Named.congr {paths : List String} (h : Named paths d) (hsame : SameLengths d d')
    (hhave : d'.havePieces = d.havePieces) (hpaths : d'.filePaths = d.filePaths) :
    Named paths d' := by
  constructor
  case renamed =>
    intro i path hi hall
    rw [hpaths]
    refine h.renamed i path hi fun q hq => ?_
    rw [← hhave]
    exact hall q ((hsame.overlaps_iff q i).mpr hq)
  case waiting =>
    intro i path q hi hq hmissing
    rw [hpaths]
    exact h.waiting i path q hi ((hsame.overlaps_iff q i).mp hq) (hhave ▸ hmissing)

theorem fileStart_lt_succ (hfiles : ∀ file ∈ d.files, file ≠ []) {i : ℕ}
    (hi : i < d.files.length) : d.fileStart i < d.fileStart (i + 1) := by
  rw [fileStart_succ d hi]
  have hpos := List.length_pos_of_ne_nil (hfiles _ (List.getElem_mem hi))
  omega

/-- A state in which one more piece is completed. -/
structure CompletesPiece (d : Download) (p : ℕ) (a : Download) : Prop where
  same : SameLengths d a
  paths_eq : a.filePaths = d.filePaths
  before : d.havePieces[p]? = some false
  after : ∀ q, a.havePieces[q]? = if q = p then some true else d.havePieces[q]?

/-- A torrent of non-empty files, whose pieces have a length of 32 bits. -/
structure Plain (paths : List String) (d : Download) : Prop where
  wellFormed : d.WellFormed
  length_lt : d.metaInfo.pieceLength < 2 ^ 32
  numPieces_pos : 0 < d.metaInfo.numPieces
  files_ne_nil : ∀ file ∈ d.files, file ≠ []
  length_paths : paths.length = d.files.length
  temp : ∀ path ∈ paths, ∃ newName, stripTemp path = some newName

theorem CompletesPiece.named {paths : List String} {a e : Download} {p : ℕ}
    (h : CompletesPiece d p a) (ha : Plain paths a) (hn : Named paths d)
    (hvisit : verifyFile p a = .ok () e) : Named paths { a with filePaths := e.filePaths } := by
  have hwf := ha.wellFormed
  have hflag : a.havePieces[p]? = some true := by rw [h.after, if_pos rfl]
  obtain ⟨piece, hpiece, -⟩ := Option.map_eq_some_iff.mp
    ((List.getElem?_map (f := fun q : Piece => q.isCompleted)).symm.trans hflag)
  rw [verifyFile_eq hwf hpiece (landsOnBytes_of_ne_nil hwf.layout ha.files_ne_nil _)] at hvisit
  cases hvisit
  have hbytes : ∀ {i}, i < paths.length → a.fileStart i < a.fileStart (i + 1) := fun hi =>
    fileStart_lt_succ ha.files_ne_nil (ha.length_paths ▸ hi)
  have hcast : ∀ q, a.pieces[p]? = some q →
      q.length.toNat = pieceSpan a.metaInfo a.content.length p := fun q hq =>
    (hwf.shape p q hq).length_eq_span hwf.geometry ha.length_lt
  have hnodup : (a.visitedFiles piece).Nodup := by
    unfold visitedFiles
    split
    · exact List.nodup_range'
    · exact List.nodup_nil
  have hvisits : ∀ {i}, i ∈ a.visitedFiles piece → a.Visits p i := fun hi => ⟨piece, hpiece, hi⟩
  -- a file is only looked at for a piece that overlaps it
  have hready : ∀ {i}, i ∈ a.visitedFiles piece →
      ((a.containedPieces i).all (·.isCompleted) = true ↔
        ∀ q, a.Overlaps q i → a.havePieces[q]? = some true) := fun hi =>
    containedPieces_completed_iff hwf (hvisits hi) hflag
  constructor
  case renamed =>
    intro i path hi hall
    have hlt := (List.getElem?_eq_some_iff.mp hi).1
    obtain ⟨newName, hname⟩ := ha.temp path (List.mem_of_getElem? hi)
    by_cases hoverlap : a.Overlaps p i
    · obtain ⟨piece', hpiece', hmem⟩ := hoverlap.visits hwf (ha.length_paths ▸ hlt) hcast
      obtain rfl := Option.some.inj (hpiece.symm.trans hpiece')
      have hold : d.filePaths[i]? = some path := by
        refine hn.waiting i path p hi ((h.same.overlaps_iff p i).mp hoverlap) ?_
        rw [h.before]
        exact fun heq => by cases heq
      have hpath : a.filePaths[i]?.bind stripTemp = some newName := by
        rw [h.paths_eq, hold, Option.bind_some, hname]
      rw [hname]
      exact foldl_filePaths hnodup hmem ((hready hmem).mpr hall) hpath
    · have hskip : i ∉ a.visitedFiles piece := fun hmem =>
        hoverlap ((hvisits hmem).overlaps hwf (hbytes hlt))
      obtain ⟨hpath, -⟩ := foldl_untouched (d := a) fun hmem => absurd hmem hskip
      refine hpath.trans ?_
      rw [h.paths_eq]
      refine hn.renamed i path hi fun q hq => ?_
      have hq' := (h.same.overlaps_iff q i).mpr hq
      have hne : q ≠ p := by
        rintro rfl
        exact hoverlap hq'
      have hdone := hall q hq'
      change a.havePieces[q]? = some true at hdone
      rwa [h.after, if_neg hne] at hdone
  case waiting =>
    intro i path q hi hq hmissing
    change a.havePieces[q]? ≠ some true at hmissing
    have hne : q ≠ p := by
      rintro rfl
      exact hmissing hflag
    have hkept : i ∈ a.visitedFiles piece →
        (a.containedPieces i).all (·.isCompleted) = false := by
      intro hmem
      rw [Bool.eq_false_iff]
      exact fun hall => hmissing ((hready hmem).mp hall q hq)
    obtain ⟨hpath, -⟩ := foldl_untouched hkept
    refine hpath.trans ?_
    rw [h.paths_eq]
    refine hn.waiting i path q hi ((h.same.overlaps_iff q i).mp hq) ?_
    rwa [h.after, if_neg hne] at hmissing

theorem havePieces_accept {p j : ℕ} {piece : Piece} (files : List Bytes)
    (hp : d.pieces[p]? = some piece) (q : ℕ) :
    (d.accept p j piece files).havePieces[q]? =
      if q = p then some true else d.havePieces[q]? := by
  rw [havePieces, List.getElem?_map, accept]
  by_cases hq : q = p
  · rw [hq, List.getElem?_modify_eq, hp, if_pos rfl]
    rfl
  · rw [List.getElem?_modify_ne _ _ (Ne.symm hq), if_neg hq, havePieces, List.getElem?_map]

theorem Plain.congr {paths : List String} (h : Plain paths d) (hsame : SameLengths d d')
    (hd' : d'.WellFormed) : Plain paths d' where
  wellFormed := hd'
  length_lt := hsame.metaInfo_eq ▸ h.length_lt
  numPieces_pos := hsame.metaInfo_eq ▸ h.numPieces_pos
  files_ne_nil := by
    intro file hfile hnil
    have hmem := List.mem_map_of_mem (f := List.length) hfile
    rw [hsame.lengths_eq, hnil] at hmem
    obtain ⟨file', hfile', hlength⟩ := List.mem_map.mp hmem
    exact h.files_ne_nil file' hfile' (List.eq_nil_of_length_eq_zero hlength)
  length_paths := by
    have hcount := congrArg List.length hsame.lengths_eq
    rw [List.length_map, List.length_map] at hcount
    rw [hcount, h.length_paths]
  temp := h.temp

theorem storeStep.named {paths : List String} {call : StoreCall} (hd : Plain paths d)
    (hn : Named paths d) (h : storeStep sha1 d call d') : Plain paths d' ∧ Named paths d' := by
  have hwf' := h.wellFormed hd.wellFormed
  have hcase := store_cases sha1 hd.wellFormed call.pieceIndex call.blockIndex call.data
  have hvisits := store_visits h
  rw [show store sha1 _ _ _ d = _ from h] at hcase
  cases hcase with
  | dropped => exact ⟨hd, hn⟩
  | @rejected piece block files hp hb hc hw =>
    have hsame : SameLengths d (d.reject call.pieceIndex.toNat piece files) :=
      ⟨rfl, hw.lengths_eq⟩
    exact ⟨hd.congr hsame hwf', hn.congr hsame rfl rfl⟩
  | @accepted piece block files t hp hb hc hw hgood hlands hfin =>
    have hbefore : d.havePieces[call.pieceIndex.toNat]? = some false := by
      rw [havePieces, List.getElem?_map, hp, Option.map_some, hc]
    have hafter := havePieces_accept (j := call.blockIndex.toNat) files hp
    have hhave : t.havePieces =
        (d.accept call.pieceIndex.toNat call.blockIndex.toNat piece files).havePieces := by
      rw [havePieces, hfin.pieces_eq, havePieces]
    have hflag : t.havePieces[call.pieceIndex.toNat]? = some true := by
      rw [hhave, hafter, if_pos rfl]
    have hsame : SameLengths d t := by
      refine ⟨hfin.metaInfo_eq, ?_⟩
      rw [hfin.files_eq]
      exact hw.lengths_eq
    rcases hvisits with heq | hfalse | ⟨e, hvisit, hpaths⟩
    · have hold : t.havePieces = d.havePieces := by
        rw [← heq]
        rfl
      rw [hold, hbefore] at hflag
      cases hflag
    · have hold : t.havePieces[call.pieceIndex.toNat]? = some false := hfalse
      rw [hold] at hflag
      cases hflag
    · have hstate : { t with filePaths := d.filePaths, sent := d.sent } =
          d.accept call.pieceIndex.toNat call.blockIndex.toNat piece files := by
        rw [hfin.eq]
        rfl
      have haccept : SameLengths d
          (d.accept call.pieceIndex.toNat call.blockIndex.toNat piece files) := ⟨rfl, hw.lengths_eq⟩
      have hcompletes := CompletesPiece.mk haccept rfl hbefore hafter
      have hplain := hd.congr haccept (hd.wellFormed.accept hp hc hw)
      have hnamed := hcompletes.named hplain hn (hstate ▸ hvisit)
      refine ⟨hd.congr ⟨hsame.metaInfo_eq, hsame.lengths_eq⟩ hwf', hnamed.congr ?_ hhave hpaths⟩
      exact ⟨hfin.metaInfo_eq, congrArg (List.map List.length) hfin.files_eq⟩

theorem eventStep.named {paths : List String} {event : ManagerEvent} (hd : Plain paths d)
    (hn : Named paths d) (h : eventStep sha1 d event d') : Plain paths d' ∧ Named paths d' := by
  cases hpiece : isPieceEvent event with
  | false =>
    rw [← h.handled_eq, handled_of_not_piece sha1 d hpiece]
    exact ⟨hd, hn⟩
  | true =>
    cases event with
    | download m =>
      cases m with
      | piece pieceIndex offset data => exact (eventStep_piece_iff.mp h).named hd hn
      | _ => cases hpiece
    | _ => cases hpiece

theorem Plain.exists_overlap {paths : List String} (hd : Plain paths d) {i : ℕ}
    (hi : i < paths.length) : ∃ q, d.Overlaps q i := by
  have hf : i < d.files.length := hd.length_paths ▸ hi
  have hnext := fileStart_lt_succ hd.files_ne_nil hf
  have hend := (fileOffset_eq hd.wellFormed (show i + 1 ≤ d.files.length from hf)).2
  have hpos := hd.numPieces_pos
  have hcover := hd.wellFormed.geometry.last_end (d.metaInfo.numPieces - 1) (by omega)
  rw [Nat.sub_add_cancel hpos] at hcover
  obtain ⟨q, hq, hlow, hhigh⟩ := Geometry.exists_piece hcover
    (show d.fileStart i < d.content.length by omega)
  exact ⟨q, hq, _, Nat.le_refl _, hnext, hlow, hhigh⟩

variable {disk : String → Bytes} {metaInfo : TorrentMetaInfo} {d₀ : Download}

theorem launch_plain (hlaunch : launch disk metaInfo = .ok d₀)
    (hlength : metaInfo.pieceLength < 2 ^ 32) (hfiles : ∀ file ∈ d₀.files, file ≠ []) :
    Plain d₀.filePaths d₀ ∧ Named d₀.filePaths d₀ := by
  obtain ⟨hstart, hpieces⟩ := launch_eq_ok.mp hlaunch
  obtain ⟨hwf, hmeta, -, -, hincomplete⟩ := start_spec hstart
  have hplain : Plain d₀.filePaths d₀ := by
    refine ⟨hwf, hmeta ▸ hlength, hwf.length_pieces ▸ hpieces, hfiles, hwf.length_paths, ?_⟩
    intro path hpath
    obtain ⟨i, hi⟩ := List.mem_iff_getElem?.mp hpath
    have hlt := (List.getElem?_eq_some_iff.mp hi).1
    obtain ⟨newName, hname⟩ := (start_fresh hstart).temp i (hwf.length_paths ▸ hlt)
    rw [hi, Option.bind_some] at hname
    exact ⟨newName, hname⟩
  refine ⟨hplain, ?_, fun i path _ hi _ _ => hi⟩
  intro i path hi hall
  obtain ⟨q, hq⟩ := hplain.exists_overlap (List.getElem?_eq_some_iff.mp hi).1
  have hdone := hall q hq
  rw [havePieces, List.getElem?_map, Option.map_eq_some_iff] at hdone
  obtain ⟨piece, hpiece, hflag⟩ := hdone
  rw [hincomplete q piece hpiece] at hflag
  cases hflag

theorem stripTemp_ne_self (path : String) : stripTemp path ≠ some path := by
  unfold stripTemp
  split_ifs with htemp
  · intro heq
    have hlist := congrArg String.toList (Option.some.inj heq)
    rw [String.toList_ofList] at hlist
    have hlength := congrArg List.length hlist
    have hfive := htemp.length_le
    rw [List.length_take] at hlength
    have htext : ".temp".toList.length = 5 := by decide
    omega
  · exact fun heq => by cases heq

/-- The name of a file tells whether a piece of it is missing. -/
theorem Named.follows {paths : List String} (hn : Named paths d) {i : ℕ} {path : String}
    (hi : paths[i]? = some path) :
    (d.filePaths[i]? = stripTemp path ↔ ∀ q, d.Overlaps q i → d.havePieces[q]? = some true) ∧
      (d.filePaths[i]? = some path ↔ ∃ q, d.Overlaps q i ∧ d.havePieces[q]? ≠ some true) := by
  by_cases hall : ∀ q, d.Overlaps q i → d.havePieces[q]? = some true
  · have hname := hn.renamed i path hi hall
    refine ⟨iff_of_true hname hall, iff_of_false ?_ ?_⟩
    · rw [hname]
      exact stripTemp_ne_self path
    · rintro ⟨q, hq, hmissing⟩
      exact hmissing (hall q hq)
  · obtain ⟨q, hq⟩ := not_forall.mp hall
    obtain ⟨hoverlap, hmissing⟩ := Classical.not_imp.mp hq
    have hname := hn.waiting i path q hi hoverlap hmissing
    refine ⟨iff_of_false ?_ hall, iff_of_true hname ⟨q, hoverlap, hmissing⟩⟩
    rw [hname]
    exact fun heq => stripTemp_ne_self path heq.symm

/-- In every state that the loop reaches with a torrent of non-empty files, a file has lost its
`.temp` just where all pieces that overlap it are completed, and has the path it was created
under just where one of them is not. -/
theorem names_follow_pieces (hlaunch : launch disk metaInfo = .ok d₀)
    (hlength : metaInfo.pieceLength < 2 ^ 32) (hfiles : ∀ file ∈ d₀.files, file ≠ [])
    (h : Reachable (eventStep sha1) d₀ d) {i : ℕ} {path : String}
    (hi : d₀.filePaths[i]? = some path) :
    (d.filePaths[i]? = stripTemp path ↔ ∀ q, d.Overlaps q i → d.havePieces[q]? = some true) ∧
      (d.filePaths[i]? = some path ↔ ∃ q, d.Overlaps q i ∧ d.havePieces[q]? ≠ some true) := by
  have hd : Plain d₀.filePaths d ∧ Named d₀.filePaths d :=
    h.invariant (launch_plain hlaunch hlength hfiles)
      fun _ _ _ hinv hstep => hstep.named hinv.1 hinv.2
  exact hd.2.follows hi

/-- The file has lost its `.temp` with its only piece completed. -/
theorem names_follow_pieces_stored :
    eventStep (fun _ => Sha1.replicate 0) oneBlockDownload (.download (.piece 0 0 [7]))
        storedDownload ∧
      storedDownload.filePaths[0]? = some "downloads/f" ∧
      ∀ q, storedDownload.Overlaps q 0 → storedDownload.havePieces[q]? = some true := by
  have hlaunch : launch (fun _ => []) oneBlockTorrent = .ok oneBlockDownload := rfl
  have hfiles : ∀ file ∈ oneBlockDownload.files, file ≠ [] := by decide
  have hrun : Reachable (eventStep fun _ => Sha1.replicate 0) oneBlockDownload storedDownload :=
    Reachable.refl.tail piece_oneBlockDownload
  have hname := (names_follow_pieces hlaunch (by decide) hfiles hrun
    (show oneBlockDownload.filePaths[0]? = some "downloads/f.temp" from rfl)).1
  have htemp : storedDownload.filePaths[0]? = stripTemp "downloads/f.temp" := by decide +kernel
  exact ⟨piece_oneBlockDownload, rfl, hname.mp htemp⟩

end Download
end TorrentClient
