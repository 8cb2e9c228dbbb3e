import TorrentClient.StreamedTorrents
import TorrentClient.ValuedTorrents

/-!
# The two torrent decoders

A torrent file is read by the streaming decoder, or decoded to a value that `from_value` looks
into. On a printed tree with ascending keys the two agree just when the restrictions of the one
hold where those of the other do, and no swallowed error of the `files` lets the streaming
decoder read the bytes behind it as a single file.
-/
namespace TorrentClient
open Bencode
open EntryReader

/-- The streaming decoder returns the torrent. -/
def Streamed (bytes : Bytes) (m : TorrentMetaInfo) : Prop :=
  ∃ d, TorrentMetaInfo.decode (Decoder.new bytes) = .ok m d

/-- The decoder of values and `from_value` return the torrent. -/
def ThroughValue (bytes : Bytes) (m : TorrentMetaInfo) : Prop :=
  ∃ v d, Value.decode (Decoder.new bytes) = .ok v d ∧ TorrentMetaInfo.fromValue v = .ok m

/-- The required fields are there and the fields that are read have their types. -/
def WellTyped (t : Tree) : Prop := ∃ m, torrentOf t = some m

/-- A torrent that `from_value` reads, where its fields have their types. -/
def ValuedTorrent (t : Tree) : Prop := HasValue t ∧ BinaryPieces t

theorem throughValue_iff {t : Tree} (hs : t.Sorted) (hlen : t.print.length < 2 ^ 64)
    (m : TorrentMetaInfo) :
    ThroughValue t.print m ↔ torrentOf t = some m ∧ ValuedTorrent t := by
  constructor
  · rintro ⟨v, d, hdecode, hfrom⟩
    have hv := valueOf_of_decode hlen hdecode
    obtain ⟨hm, hpieces⟩ := (fromValue_eq_ok hs hv m).mp hfrom
    exact ⟨hm, (isSome_valueOf t).mp (Option.isSome_iff_exists.mpr ⟨v, hv⟩), hpieces⟩
  · rintro ⟨hm, hvalue, hpieces⟩
    obtain ⟨v, hv⟩ := Option.isSome_iff_exists.mp ((isSome_valueOf t).mpr hvalue)
    obtain ⟨d, hdecode⟩ := decode_of_valueOf hlen hv
    exact ⟨v, d, hdecode, (fromValue_eq_ok hs hv m).mpr ⟨hm, hpieces⟩⟩

/-! ### Torrents whose files can be read -/

theorem streamed_of_reads {t : Tree} {o : Option TorrentMetaInfo}
    (h : Reads TorrentMetaInfo.decode t.print o) (hlen : t.print.length < 2 ^ 64)
    (m : TorrentMetaInfo) : Streamed t.print m ↔ o = some m := by
  have hends := h 0 [] (by rwa [List.append_nil, Nat.zero_add])
  rw [List.append_nil] at hends
  cases o with
  | none =>
    obtain ⟨e, d, hrun⟩ := hends
    refine ⟨?_, nofun⟩
    rintro ⟨d', hok⟩
    cases hrun.symm.trans hok
  | some m' =>
    have hrun : TorrentMetaInfo.decode (Decoder.new t.print) = .ok m' _ := hends
    constructor
    · rintro ⟨d', hok⟩
      cases hrun.symm.trans hok
      rfl
    · rintro ⟨rfl⟩
      exact ⟨_, hrun⟩

theorem streamed_iff {t : Tree} (hs : t.Sorted) (hlen : t.print.length < 2 ^ 64)
    (hfiles : ¬ DictIs MeetsInfoFilesFail t) (m : TorrentMetaInfo) :
    Streamed t.print m ↔ torrentOf t = some m ∧ StreamedTorrent t := by
  rw [← narrows_torrent hs m]
  exact streamed_of_reads (reads_torrent hs hfiles) hlen m

/-! ### Torrents whose files fail -/

/-- The reading of the files stops with an error at a place from where on the bytes can be read
as the fields of a single file, and as the ends of two dictionaries. -/
def ReadsOn (d : Decoder) (info : Info) : Prop :=
  ∃ e d₁ d₂ d₃ d₄, Info.readFiles d = .error (.err e) d₁ ∧ Info.readSingle d₁ = .ok info d₂ ∧
    Decoder.skipFields d₂ = .ok () d₃ ∧ Decoder.skipFields d₃ = .ok () d₄

/-- The torrent is read up to an info whose files fail, and the bytes read on. -/
def Accident (n : ℕ) (es : Entries) : Prop :=
  ReadableTo "info" es ∧ (∃ front, frontFields tiersThere es = some front) ∧
    ∃ ie, es.lookup (asBytes "info") = some (.dict ie) ∧ FilesFail ie ∧
      ∃ info, ReadsOn (Decoder.atFields n ie (printEntries (behind "info" es) ++ [101])) info

theorem Info.decode_of_filesFail {ie : Entries} (hs : (Tree.dict ie).Sorted) (hfail : FilesFail ie)
    {n : ℕ} {r : Bytes} (hfit : Fits n ((Tree.dict ie).print ++ r)) :
    (∃ d, Info.readFiles (Decoder.atFields n ie r) = .error .panic d ∧
      Info.decode (Decoder.inFront n ((Tree.dict ie).print ++ r)) = .error .panic d) ∨
    ∃ e d, Info.readFiles (Decoder.atFields n ie r) = .error (.err e) d ∧
      Info.decode (Decoder.inFront n ((Tree.dict ie).print ++ r)) =
        (do let info ← Info.readSingle; Decoder.skipFields; return info) d := by
  obtain ⟨hfields, hbody⟩ := Reads.readStruct_run (x := Info.readFields) hfit
  obtain ⟨e, d, hfiles⟩ := (simulates_files ie hs n r hfields).2 hfail.2
  rw [Info.decode, hbody, Info.readFields, bind_assoc]
  cases e with
  | panic => exact Or.inl ⟨d, hfiles, bind_of_error (attempt_of_panic hfiles)⟩
  | err e => exact Or.inr ⟨e, d, hfiles, bind_of_ok (attempt_of_error hfiles)⟩

theorem new_eq_inFront (bytes : Bytes) :
    Decoder.new bytes = Decoder.inFront bytes.length (bytes ++ []) := by
  rw [List.append_nil, Decoder.inFront, Nat.sub_self]
  rfl

/-- A torrent is read with the fields in front of its info, and then the info. -/
theorem TorrentMetaInfo.decode_run {es : Entries} {n : ℕ} {r : Bytes}
    (hfit : Fits n ((Tree.dict es).print ++ r)) :
    FieldsFit n es r ∧
      decode (Decoder.inFront n ((Tree.dict es).print ++ r)) =
        (readFront >>= fun front => do
          let info ← Decoder.readField Info.decode "info"
          Decoder.skipFields
          return front info) (Decoder.atFields n es r) := by
  obtain ⟨hfields, hbody⟩ := Reads.readStruct_run (x := readFields) hfit
  refine ⟨hfields, ?_⟩
  rw [decode, hbody, readFields_eq]
  simp only [bind_assoc, pure_bind]

section FilesFail

variable {es ie : Entries} (hs : (Tree.dict es).Sorted)
  (hlen : (Tree.dict es).print.length < 2 ^ 64)

include hlen

theorem decode_new_run :
    FieldsFit (Tree.dict es).print.length es [] ∧
    TorrentMetaInfo.decode (Decoder.new (Tree.dict es).print) =
      (TorrentMetaInfo.readFront >>= fun front => do
        let info ← Decoder.readField Info.decode "info"
        Decoder.skipFields
        return front info) (Decoder.atFields (Tree.dict es).print.length es []) := by
  rw [new_eq_inFront]
  refine TorrentMetaInfo.decode_run ?_
  rw [List.append_nil]
  exact ⟨le_rfl, hlen⟩

include hs

/-- A torrent that is streamed has valid keys up to its info. -/
theorem readable_of_streamed {m : TorrentMetaInfo} (h : Streamed (Tree.dict es).print m) :
    ReadableTo "info" es := by
  obtain ⟨d, hrun⟩ := h
  obtain ⟨hfields, hbody⟩ := decode_new_run hlen
  rw [hbody, stateful_bind_eq_ok] at hrun
  obtain ⟨front, d₁, hfront, hrun⟩ := hrun
  obtain ⟨info, d₂, hinfo, -⟩ := stateful_bind_eq_ok.mp hrun
  obtain ⟨es', hy, hsuffix, rfl⟩ := (simulates_front es hs).of_ok hfields hfront
  have hends := readField_ends Info.decode "info" (hfields.suffix hsuffix)
  cases hl : locate "info" es' with
  | found t rest =>
    have hpassed := passes_front es front es' hy
    exact (readableTo_of_locate (hs.1.sublist hsuffix.sublist) hl).of_passed hpassed
  | missing =>
    rw [hl] at hends
    cases (show _ = _ from hends).symm.trans hinfo
  | invalid =>
    rw [hl] at hends
    obtain ⟨d', hfail⟩ := hends
    cases hfail.symm.trans hinfo

/-- What the streaming decoder returns of a torrent whose files fail. -/
theorem streamed_of_filesFail (hie : es.lookup (asBytes "info") = some (.dict ie))
    (hfail : FilesFail ie) (hread : ReadableTo "info" es) (m : TorrentMetaInfo) :
    Streamed (Tree.dict es).print m ↔
      ∃ front, frontFields tiersThere es = some front ∧ ∃ info, ReadsOn (Decoder.atFields
        (Tree.dict es).print.length ie (printEntries (behind "info" es) ++ [101])) info ∧
        front info = m := by
  obtain ⟨hfields, hbody⟩ := decode_new_run hlen
  obtain ⟨rest, hfront, hview⟩ := takes_front es es (View.refl hs.1 hread)
  obtain ⟨hok, hnone⟩ := simulates_front es hs _ _ hfields
  rw [Streamed, hbody]
  cases hy : frontFields tiersThere es with
  | none =>
    rw [hy] at hfront
    obtain ⟨e, d, hrun⟩ := hnone hfront
    rw [bind_of_error hrun]
    simp
  | some front =>
    rw [hy] at hfront
    obtain ⟨hsuffix, hrun⟩ := hok front rest hfront
    have hfit := hfields.suffix hsuffix
    have hbelow : keyLt "encoding" "info" := by decide
    have hlocate := hview.locate hbelow (Or.inl rfl)
    rw [hie] at hlocate
    have hends := readField_ends Info.decode "info" hfit
    rw [hlocate] at hends
    have hsorted := sortedEntries_iff.mp hs.2 _ (OrderedEntries.mem_of_lookup hie)
    rw [bind_of_ok hrun, bind_of_eq hends]
    rcases Info.decode_of_filesFail hsorted hfail (hfit.value hlocate) with
      ⟨d, hfiles, hdecode⟩ | ⟨e, d, hfiles, hdecode⟩
    · rw [bind_of_error hdecode]
      constructor
      · rintro ⟨d', hok⟩
        cases hok
      · rintro ⟨-, -, info, ⟨e, d₁, d₂, d₃, d₄, hfiles', -⟩, -⟩
        cases hfiles.symm.trans hfiles'
    · rw [bind_of_eq hdecode]
      constructor
      · rintro ⟨d₄, hrun⟩
        obtain ⟨info, d₃, hinner, houter⟩ := stateful_bind_eq_ok.mp hrun
        obtain ⟨info', d₂, hsingle, hinner⟩ := stateful_bind_eq_ok.mp hinner
        obtain ⟨⟨⟩, d₃', hskip, hinner⟩ := stateful_bind_eq_ok.mp hinner
        cases hinner
        obtain ⟨⟨⟩, d₄', hskip', houter⟩ := stateful_bind_eq_ok.mp houter
        cases houter
        exact ⟨front, rfl, info, ⟨e, d, d₂, d₃, d₄, hfiles, hsingle, hskip, hskip'⟩, rfl⟩
      · rintro ⟨_, ⟨rfl⟩, info, ⟨e', d₁, d₂, d₃, d₄, hfiles', hsingle, hskip, hskip'⟩, rfl⟩
        cases hfiles.symm.trans hfiles'
        refine ⟨d₄, ?_⟩
        rw [bind_assoc, bind_of_ok hsingle, bind_assoc, bind_of_ok hskip, pure_bind,
          bind_of_ok hskip']
        rfl

end FilesFail

/-! ### Agreement -/

/-- Where the fields of the tree have their types, the restrictions of the one decoder hold just
when those of the other do. -/
def RestrictionsAgree (t : Tree) : Prop := WellTyped t → (ValuedTorrent t ↔ StreamedTorrent t)

/-- The restrictions agree, and there is no accident. -/
def DecodersAgree (t : Tree) : Prop :=
  RestrictionsAgree t ∧ ¬ DictIs (Accident t.print.length) t

/-- What the bytes read on to is a single file. -/
theorem ReadsOn.single {d : Decoder} {info : Info} (h : ReadsOn d info) :
    ∃ s, info = .single s := by
  obtain ⟨e, d₁, d₂, d₃, d₄, -, hsingle, -, -⟩ := h
  obtain ⟨length, _, -, hsingle⟩ := stateful_bind_eq_ok.mp hsingle
  obtain ⟨md5sum, _, -, hsingle⟩ := stateful_bind_eq_ok.mp hsingle
  obtain ⟨name, _, -, hsingle⟩ := stateful_bind_eq_ok.mp hsingle
  obtain ⟨pieceLength, _, -, hsingle⟩ := stateful_bind_eq_ok.mp hsingle
  obtain ⟨pieces, _, -, hsingle⟩ := stateful_bind_eq_ok.mp hsingle
  cases hsingle
  exact ⟨_, rfl⟩

theorem info_of_frontFields {tiers : Entries → Option (Option (List (List String)))} {es : Entries}
    {front : Info → TorrentMetaInfo} (h : frontFields tiers es = some front) (info : Info) :
    (front info).info = info := by
  obtain ⟨announce, -, h⟩ := Option.bind_eq_some_iff.mp h
  obtain ⟨announceList, -, h⟩ := Option.bind_eq_some_iff.mp h
  obtain ⟨comment, -, h⟩ := Option.bind_eq_some_iff.mp h
  obtain ⟨createdBy, -, h⟩ := Option.bind_eq_some_iff.mp h
  obtain ⟨encoding, -, h⟩ := Option.bind_eq_some_iff.mp h
  cases h
  rfl

theorem info_of_torrentOf {es : Entries} {m : TorrentMetaInfo}
    (h : torrentOf (.dict es) = some m) : requiredField infoOf "info" es = some m.info := by
  obtain ⟨front, hfront, h⟩ := Option.bind_eq_some_iff.mp h
  obtain ⟨info, hinfo, h⟩ := Option.bind_eq_some_iff.mp h
  cases h
  rw [info_of_frontFields hfront, hinfo]

/-- An info with files is that of several files. -/
theorem multi_of_infoOf {ie : Entries} {files : Tree} {info : Info}
    (h : infoOf (.dict ie) = some info) (hfiles : ie.lookup (asBytes "files") = some files) :
    ∃ multi, info = .multi multi := by
  rw [infoOf, dictOf, infoFields, hfiles] at h
  obtain ⟨files, -, h⟩ := Option.bind_eq_some_iff.mp h
  obtain ⟨name, -, h⟩ := Option.bind_eq_some_iff.mp h
  obtain ⟨pieceLength, -, h⟩ := Option.bind_eq_some_iff.mp h
  obtain ⟨pieces, -, h⟩ := Option.bind_eq_some_iff.mp h
  cases h
  exact ⟨_, rfl⟩

/-- Where the files fail although all keys are valid, there are files. -/
theorem FilesFail.present {ie : Entries} (h : FilesFail ie) (hs : (Tree.dict ie).Sorted)
    (hvalid : ∀ e ∈ ie, (fromUtf8 e.1).isSome = true) :
    ∃ files, ie.lookup (asBytes "files") = some files := by
  cases hl : locate "files" ie with
  | found files rest =>
    exact ⟨files, OrderedEntries.Ascending.lookup_of_mem hs.1 (passed_of_locate hl).2⟩
  | missing => exact absurd hl h.1
  | invalid => exact absurd hl (locate_ne_invalid hvalid "files")

theorem infoReader_of_filesFail {ie : Entries} (h : FilesFail ie) : infoReader ie = none := by
  rw [infoReader]
  cases hl : locate "files" ie with
  | missing => exact absurd hl h.1
  | _ => rw [run_bind, h.2, Option.bind_none]

theorem not_streamedTorrent_of_filesFail {t : Tree} (hs : t.Sorted) (h : DictIs InfoFilesFail t)
    (hm : WellTyped t) : ¬ StreamedTorrent t := by
  intro hstream
  obtain ⟨m, hm⟩ := hm
  cases t with
  | dict es =>
    obtain ⟨ie, hie, hfail⟩ := h
    obtain ⟨⟨-, hinfo⟩, -⟩ := hstream
    have hsorted := sortedEntries_iff.mp hs.2 _ (OrderedEntries.mem_of_lookup hie)
    have hfield := info_of_torrentOf hm
    rw [requiredField, hie, Option.bind_some] at hfield
    have hread := (narrows_info hsorted m.info).mpr ⟨hfield, hinfo _ hie⟩
    rw [structOf, dictOf, infoReader_of_filesFail hfail] at hread
    cases hread
  | _ => exact h

/-- Where the files fail, no torrent of a single file has a value. -/
theorem not_hasValue_of_filesFail {es ie : Entries} (hs : (Tree.dict es).Sorted)
    (hie : es.lookup (asBytes "info") = some (.dict ie)) (hfail : FilesFail ie) {m : TorrentMetaInfo}
    {s : SingleInfo} (hsingle : m.info = .single s) (hm : torrentOf (.dict es) = some m) :
    ¬ HasValue (.dict es) := by
  intro hvalue
  have hmem := OrderedEntries.mem_of_lookup hie
  have hinfoValue : HasValue (.dict ie) := (entriesHaveValues_iff.mp hvalue _ hmem).2
  obtain ⟨files, hfiles⟩ := hfail.present (sortedEntries_iff.mp hs.2 _ hmem)
    fun e he => (entriesHaveValues_iff.mp hinfoValue e he).1
  have hfield := info_of_torrentOf hm
  rw [requiredField, hie, Option.bind_some] at hfield
  obtain ⟨multi, hmulti⟩ := multi_of_infoOf hfield hfiles
  cases hsingle.symm.trans hmulti

/-- Where the files fail, a torrent that is streamed does not come through a value. -/
theorem not_throughValue_of_streamed {es ie : Entries} (hs : (Tree.dict es).Sorted)
    (hlen : (Tree.dict es).print.length < 2 ^ 64)
    (hie : es.lookup (asBytes "info") = some (.dict ie)) (hfail : FilesFail ie) {m : TorrentMetaInfo}
    (h : Streamed (Tree.dict es).print m) :
    Accident (Tree.dict es).print.length es ∧ ¬ ThroughValue (Tree.dict es).print m := by
  have hread := readable_of_streamed hs hlen h
  obtain ⟨front, hfront, info, hon, rfl⟩ :=
    (streamed_of_filesFail hs hlen hie hfail hread m).mp h
  refine ⟨⟨hread, ⟨front, hfront⟩, ie, hie, hfail, info, hon⟩, ?_⟩
  intro hthrough
  obtain ⟨hm, hvalue, -⟩ := (throughValue_iff hs hlen _).mp hthrough
  obtain ⟨s, rfl⟩ := hon.single
  exact not_hasValue_of_filesFail hs hie hfail (info_of_frontFields hfront _) hm hvalue

theorem agree_of_filesFail {es ie : Entries} (hs : (Tree.dict es).Sorted)
    (hlen : (Tree.dict es).print.length < 2 ^ 64)
    (hie : es.lookup (asBytes "info") = some (.dict ie)) (hfail : FilesFail ie) :
    (∀ m, Streamed (Tree.dict es).print m ↔ ThroughValue (Tree.dict es).print m) ↔
      DecodersAgree (.dict es) := by
  have hnot := not_streamedTorrent_of_filesFail hs ⟨ie, hie, hfail⟩
  constructor
  · intro h
    refine ⟨fun hm => ⟨fun hvalued => ?_, fun hstream => absurd hstream (hnot hm)⟩, ?_⟩
    · obtain ⟨m, hm⟩ := hm
      have hthrough := (throughValue_iff hs hlen m).mpr ⟨hm, hvalued⟩
      exact absurd hthrough
        (not_throughValue_of_streamed hs hlen hie hfail ((h m).mpr hthrough)).2
    · rintro ⟨hread, ⟨front, hfront⟩, ie', hie', hfail', info, hon⟩
      have hstreamed := (streamed_of_filesFail hs hlen hie' hfail' hread _).mpr
        ⟨front, hfront, info, hon, rfl⟩
      exact (not_throughValue_of_streamed hs hlen hie' hfail' hstreamed).2 ((h _).mp hstreamed)
  · rintro ⟨hiff, haccident⟩ m
    constructor
    · intro hstreamed
      exact absurd (not_throughValue_of_streamed hs hlen hie hfail hstreamed).1 haccident
    · intro hthrough
      obtain ⟨hm, hvalued⟩ := (throughValue_iff hs hlen m).mp hthrough
      exact absurd ((hiff ⟨m, hm⟩).mp hvalued) (hnot ⟨m, hm⟩)

/-- Where no files fail that the streaming decoder gets to, the restrictions decide. -/
theorem agree_of_files {t : Tree} (hs : t.Sorted) (hlen : t.print.length < 2 ^ 64)
    (hfiles : ¬ DictIs MeetsInfoFilesFail t) :
    (∀ m, Streamed t.print m ↔ ThroughValue t.print m) ↔ RestrictionsAgree t := by
  have hstreamed := streamed_iff hs hlen hfiles
  have hthrough := throughValue_iff hs hlen
  constructor
  · rintro h ⟨m, hm⟩
    exact ⟨fun hvalued => ((hstreamed m).mp ((h m).mpr ((hthrough m).mpr ⟨hm, hvalued⟩))).2,
      fun hstream => ((hthrough m).mp ((h m).mp ((hstreamed m).mpr ⟨hm, hstream⟩))).2⟩
  · intro hiff m
    rw [hstreamed, hthrough]
    exact and_congr_right fun hm => (hiff ⟨m, hm⟩).symm

/-- The two decoders return the same torrents of a printed tree just when the restrictions agree
and the bytes behind files that fail do not happen to read on as a single file. -/
theorem agree_iff_no_accident {t : Tree} (hs : t.Sorted) (hlen : t.print.length < 2 ^ 64) :
    (∀ m, Streamed t.print m ↔ ThroughValue t.print m) ↔ DecodersAgree t := by
  by_cases hfiles : DictIs InfoFilesFail t
  · cases t with
    | dict es =>
      obtain ⟨ie, hie, hfail⟩ := hfiles
      exact agree_of_filesFail hs hlen hie hfail
    | _ => exact absurd hfiles id
  · have hmeets : ¬ DictIs MeetsInfoFilesFail t := by
      intro hmeets
      cases t with
      | dict es => exact hfiles (hmeets.infoFilesFail hs)
      | _ => exact hmeets
    refine (agree_of_files hs hlen hmeets).trans (and_iff_left ?_).symm
    intro haccident
    cases t with
    | dict es =>
      obtain ⟨-, -, ie, hie, hfail, -⟩ := haccident
      exact hfiles ⟨ie, hie, hfail⟩
    | _ => exact haccident

/-- The two decoders return the same torrents of a printed tree where the restrictions agree and
the streaming decoder gets to no files that fail. Where they return the same, the restrictions
agree. -/
theorem decoders_agree_of_restrictions {t : Tree} (hs : t.Sorted)
    (hlen : t.print.length < 2 ^ 64) :
    (RestrictionsAgree t → ¬ DictIs MeetsInfoFilesFail t →
      ∀ m, Streamed t.print m ↔ ThroughValue t.print m) ∧
    ((∀ m, Streamed t.print m ↔ ThroughValue t.print m) → RestrictionsAgree t) :=
  ⟨fun hiff hfiles => (agree_of_files hs hlen hfiles).mpr hiff,
    fun h => ((agree_iff_no_accident hs hlen).mp h).1⟩

/-- A torrent of a single file, with the given fields in front of the info. -/
def singleTorrent (front : Entries) : Tree :=
  .dict (front ++ [(asBytes "info", .dict [(asBytes "length", .integer 4),
    (asBytes "name", .string (asBytes "n")), (asBytes "piece length", .integer 4),
    (asBytes "pieces", .string (List.replicate 20 255))])])

theorem sorted_singleTorrent {front : Entries}
    (hfront : OrderedEntries.Ascending (· < ·) front) (hbelow : ∀ e ∈ front, e.1 < asBytes "info")
    (hs : SortedEntries front) : (singleTorrent front).Sorted := by
  refine ⟨?_, ?_⟩
  · refine List.pairwise_append.mpr ⟨hfront, List.pairwise_singleton _ _, ?_⟩
    intro e he e' he'
    rw [List.mem_singleton.mp he']
    exact hbelow e he
  · rw [sortedEntries_iff]
    intro e he
    rcases List.mem_append.mp he with he | he
    · exact sortedEntries_iff.mp hs e he
    · rw [List.mem_singleton.mp he]
      exact ⟨by decide, trivial, trivial, trivial, trivial, trivial⟩

def oneTier : Entries := [(asBytes "announce-list", .list [.list [.string (asBytes "u")]])]

theorem sorted_oneTier : (singleTorrent oneTier).Sorted := by
  have hitems : SortedEntries oneTier := ⟨⟨⟨trivial, trivial⟩, trivial⟩, trivial⟩
  exact sorted_singleTorrent (List.pairwise_singleton _ _) (by decide) hitems

theorem singleTorrent_files {front : Entries} (hs : (singleTorrent front).Sorted) :
    ¬ DictIs MeetsInfoFilesFail (singleTorrent front) := by
  intro hmeets
  obtain ⟨ie, hie, hmissing, -⟩ := MeetsInfoFilesFail.infoFilesFail hmeets hs
  have hlookup := OrderedEntries.Ascending.lookup_of_mem hs.1
    (List.mem_append_right front (List.mem_singleton_self _))
  cases hlookup.symm.trans hie
  refine hmissing ?_
  rw [locate, fromUtf8_asBytes]
  rfl

/-- Both decoders return a torrent with a tier of trackers and pieces that are no text. -/
theorem decoders_agree_of_restrictions_oneTier :
    ∃ m, Streamed (singleTorrent oneTier).print m ∧ ThroughValue (singleTorrent oneTier).print m := by
  have hs := sorted_oneTier
  have hlen : (singleTorrent oneTier).print.length < 2 ^ 64 := by decide +kernel
  have hfiles := singleTorrent_files hs
  have hvalue : HasValue (singleTorrent oneTier) := (isSome_valueOf _).mp (by decide +kernel)
  have hpieces : BinaryPieces (singleTorrent oneTier) := by
    rintro info ⟨rfl⟩ pieces ⟨rfl⟩
    decide +kernel
  have hread : structOf torrentReader (singleTorrent oneTier) =
      some { TorrentMetaInfo.singleFile "n" 4 4 [Sha1.replicate 255] with
        announceList := some [["u"]] } := by
    decide +kernel
  have htyped := (narrows_torrent hs _).mp hread
  have hstreamed := (streamed_iff hs hlen hfiles _).mpr htyped
  have hagree := (decoders_agree_of_restrictions hs hlen).1
    (fun _ => iff_of_true ⟨hvalue, hpieces⟩ htyped.2) hfiles
  exact ⟨_, hstreamed, (hagree _).mp hstreamed⟩

/-- A torrent of a single file without tiers of trackers is refused by the streaming decoder and
read through its value. -/
theorem decoders_disagree : ¬ ∀ t : Tree, t.Sorted → t.print.length < 2 ^ 64 →
    ∀ m, Streamed t.print m ↔ ThroughValue t.print m := by
  intro h
  have hs : (singleTorrent []).Sorted := sorted_singleTorrent List.Pairwise.nil nofun trivial
  have hlen : (singleTorrent []).print.length < 2 ^ 64 := by decide +kernel
  have hm : torrentOf (singleTorrent []) =
      some (.singleFile "n" 4 4 [Sha1.replicate 255]) := by
    decide +kernel
  have hvalue : HasValue (singleTorrent []) := (isSome_valueOf _).mp (by decide +kernel)
  have hpieces : BinaryPieces (singleTorrent []) := by
    rintro info ⟨rfl⟩ pieces ⟨rfl⟩
    decide +kernel
  have hfiles := singleTorrent_files hs
  have hthrough := (throughValue_iff hs hlen _).mpr ⟨hm, hvalue, hpieces⟩
  obtain ⟨-, ⟨⟨tier, tiers, htiers⟩, -⟩, -⟩ :=
    (streamed_iff hs hlen hfiles _).mp ((h _ hs hlen _).mpr hthrough)
  cases htiers

end TorrentClient
