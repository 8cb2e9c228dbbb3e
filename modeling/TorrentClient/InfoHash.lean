import TorrentClient.CarriedFields

/-!
# The info hash

`info_hash` does not hash the bytes of the torrent file. It puts the fields it has read into
a dictionary and encodes that. The bytes are those of the file where the info has no keys but
these fields, and only whole hashes.
-/
namespace TorrentClient
open Bencode

theorem ordered_fileInfo (f : FileInfo) : f.intoValue.Ordered := by
  refine ((ordered_nil.insert _ (carries_toUInt64.ordered _)).insertOption _ ?_).insert _
    (carries_strings.ordered _)
  exact Option.forall_mem_map.mpr fun s _ => carries_toString.ordered s

theorem carries_fileInfo : Carries FileInfo.fromValue FileInfo.intoValue CarriedFile := by
  refine ⟨ordered_fileInfo, ?_⟩
  intro v f hv hf
  rw [FileInfo.fromValue, bind_eq_ok] at hf
  obtain ⟨length, hlength, hf⟩ := hf
  rw [bind_eq_ok] at hf
  obtain ⟨md5sum, hmd5sum, hf⟩ := hf
  rw [bind_eq_ok] at hf
  obtain ⟨path, hpath, hf⟩ := hf
  cases hf
  obtain ⟨map, rfl⟩ := getField_dict hlength
  have hnames : ∀ e ∈ Value.insert (Value.insertOption (Value.insert [] "length"
      (Value.ofUInt64 length)) "md5sum" (md5sum.map .string)) "path" (Value.ofList .string path),
      e.1 ∈ ["length", "md5sum", "path"] :=
    keysWithin_insert (by simp) (keysWithin_insertOption (by simp)
      (keysWithin_insert (by simp) keysWithin_nil))
  have hlengthField := (carries_toUInt64.field hv.2 hlength).mpr fun _ _ => trivial
  have hmd5sumField := (carries_toString.optionField hv.2 hmd5sum).mpr fun _ _ => trivial
  have hpathField := (carries_strings.field hv.2 hpath).mpr fun _ _ => trivial
  rw [FileInfo.intoValue, toTree_dict_eq_iff (ordered_fileInfo ⟨length, md5sum, path⟩) hv hnames]
  simp only [List.forall_mem_cons, List.not_mem_nil, lookup_insert, lookup_insertOption,
    List.lookup_nil, String.reduceEq, ↓reduceIte, Option.map_some, Option.or_none, Option.map_map]
  constructor
  · exact And.left
  · intro hkeys
    exact ⟨hkeys, hlengthField, hmd5sumField, hpathField, nofun⟩

theorem ordered_info (info : Info) : info.intoValue.Ordered := by
  cases info with
  | multi m =>
    exact (((ordered_nil.insert _ (carries_fileInfo.toList.ordered _)).insert _
      (carries_toSha1List.ordered _)).insert _ (carries_toString.ordered _)).insert _
      (carries_toUInt64.ordered _)
  | single s =>
    refine ((((ordered_nil.insertOption _ ?_).insert _ (carries_toUInt64.ordered _)).insert _
      (carries_toSha1List.ordered _)).insert _ (carries_toString.ordered _)).insert _
      (carries_toUInt64.ordered _)
    exact Option.forall_mem_map.mpr fun s _ => carries_toString.ordered s

theorem toTree_single_eq_iff {map : List (String × Value)} {info : Info}
    (hv : (Value.dict map).Ordered) (hfiles : map.lookup "files" = none)
    (h : Info.fromValue (.dict map) = .ok info) :
    info.intoValue.toTree = (Value.dict map).toTree ↔ CarriedInfo (Value.dict map).toTree := by
  rw [Info.fromValue, Value.getOptionValue, hfiles, ok_bind] at h
  simp only [bind_eq_ok] at h
  obtain ⟨length, hlength, md5sum, hmd5sum, name, hname, pieceLength, hpieceLength, pieces, hpieces,
    hinfo⟩ := h
  cases hinfo
  have hlengthField := (carries_toUInt64.field hv.2 hlength).mpr fun _ _ => trivial
  have hmd5sumField := (carries_toString.optionField hv.2 hmd5sum).mpr fun _ _ => trivial
  have hnameField := (carries_toString.field hv.2 hname).mpr fun _ _ => trivial
  have hpieceLengthField := (carries_toUInt64.field hv.2 hpieceLength).mpr fun _ _ => trivial
  have hpiecesField := carries_toSha1List.field hv.2 hpieces
  have hnames : ∀ e ∈ Value.insert (Value.insert (Value.insert (Value.insert (Value.insertOption []
      "md5sum" (md5sum.map .string)) "length" (Value.ofUInt64 length)) "pieces"
      (Value.ofSha1List pieces)) "name" (.string name)) "piece length" (Value.ofUInt64 pieceLength),
      e.1 ∈ ["length", "md5sum", "name", "piece length", "pieces"] :=
    keysWithin_insert (by simp) (keysWithin_insert (by simp) (keysWithin_insert (by simp)
      (keysWithin_insert (by simp) (keysWithin_insertOption (by simp) keysWithin_nil))))
  rw [Info.intoValue, toTree_dict_eq_iff
    (ordered_info (.single ⟨length, md5sum, name, pieceLength, pieces⟩)) hv hnames]
  simp only [List.forall_mem_cons, List.not_mem_nil, lookup_insert, lookup_insertOption,
    List.lookup_nil, String.reduceEq, ↓reduceIte, Option.map_some, Option.or_none, Option.map_map]
  rw [toTree_dict, CarriedInfo, lookup_treeValues map "files", hfiles, Option.map_none,
    CarriedKeys, hpiecesField]
  constructor
  · rintro ⟨hkeys, -, -, -, -, hpieces, -⟩
    exact ⟨hpieces, hkeys⟩
  · rintro ⟨hpieces, hkeys⟩
    exact ⟨hkeys, hlengthField, hmd5sumField, hnameField, hpieceLengthField, hpieces, nofun⟩

theorem toTree_multi_eq_iff {map : List (String × Value)} {files : Value} {info : Info}
    (hv : (Value.dict map).Ordered) (hfiles : map.lookup "files" = some files)
    (h : Info.fromValue (.dict map) = .ok info) :
    info.intoValue.toTree = (Value.dict map).toTree ↔ CarriedInfo (Value.dict map).toTree := by
  rw [Info.fromValue, Value.getOptionValue, hfiles, ok_bind] at h
  simp only [bind_eq_ok] at h
  obtain ⟨fileInfos, hfileInfos, name, hname, pieceLength, hpieceLength, pieces, hpieces, hinfo⟩ := h
  cases hinfo
  have hfilesField := carries_fileInfo.toList.field hv.2 hfileInfos
  have hnameField := (carries_toString.field hv.2 hname).mpr fun _ _ => trivial
  have hpieceLengthField := (carries_toUInt64.field hv.2 hpieceLength).mpr fun _ _ => trivial
  have hpiecesField := carries_toSha1List.field hv.2 hpieces
  have hnames : ∀ e ∈ Value.insert (Value.insert (Value.insert (Value.insert [] "files"
      (Value.ofList FileInfo.intoValue fileInfos)) "pieces" (Value.ofSha1List pieces)) "name"
      (.string name)) "piece length" (Value.ofUInt64 pieceLength),
      e.1 ∈ ["files", "name", "piece length", "pieces"] :=
    keysWithin_insert (by simp) (keysWithin_insert (by simp) (keysWithin_insert (by simp)
      (keysWithin_insert (by simp) keysWithin_nil)))
  rw [Info.intoValue, toTree_dict_eq_iff
    (ordered_info (.multi ⟨fileInfos, name, pieceLength, pieces⟩)) hv hnames]
  simp only [List.forall_mem_cons, List.not_mem_nil, lookup_insert, List.lookup_nil,
    String.reduceEq, ↓reduceIte, Option.map_some]
  rw [toTree_dict, CarriedInfo, hpiecesField, hfilesField, lookup_treeValues map "files", hfiles,
    Option.map_some, CarriedKeys]
  constructor
  · rintro ⟨hkeys, hfiles, -, -, hpieces, -⟩
    exact ⟨hpieces, hkeys, hfiles _ rfl⟩
  · rintro ⟨hpieces, hkeys, hfiles⟩
    refine ⟨hkeys, ?_, hnameField, hpieceLengthField, hpieces, nofun⟩
    exact fun t ht => Option.some.inj ht ▸ hfiles

theorem carries_info : Carries Info.fromValue Info.intoValue CarriedInfo := by
  refine ⟨ordered_info, ?_⟩
  intro v info hv h
  cases v with
  | dict map =>
    cases hfiles : map.lookup "files" with
    | none => exact toTree_single_eq_iff hv hfiles h
    | some files => exact toTree_multi_eq_iff hv hfiles h
  | _ => cases h

theorem TorrentMetaInfo.fromValue_info {v : Value} {m : TorrentMetaInfo}
    (h : TorrentMetaInfo.fromValue v = .ok m) : v.getField Info.fromValue "info" = .ok m.info := by
  rw [TorrentMetaInfo.fromValue] at h
  simp only [bind_eq_ok] at h
  obtain ⟨info, hinfo, announce, -, announceList, -, comment, -, createdBy, -, encoding, -, hm⟩ := h
  cases hm
  exact hinfo

theorem TorrentMetaInfo.of_parse {bytes : Bytes} {m : TorrentMetaInfo}
    (h : TorrentMetaInfo.parse bytes = .ok m) :
    ∃ v d, Value.decode (Decoder.new bytes) = .ok v d ∧ TorrentMetaInfo.fromValue v = .ok m := by
  rw [TorrentMetaInfo.parse] at h
  cases hdecode : Value.decode (Decoder.new bytes) with
  | error e d =>
    rw [hdecode] at h
    cases h
  | ok v d =>
    rw [hdecode] at h
    cases hm : TorrentMetaInfo.fromValue v with
    | error e =>
      simp only [hm] at h
      cases h
    | ok m' =>
      simp only [hm] at h
      cases h
      exact ⟨v, d, rfl, hm⟩

/-- The info hash is that of the part of the file behind the key `info` exactly where the
tree of the info comes back from the fields. -/
theorem hashedBytes_eq_iff {t : Tree} {m : TorrentMetaInfo} (hsorted : t.Sorted)
    (hlen : t.print.length < 2 ^ 64) (hm : TorrentMetaInfo.parse t.print = .ok m) :
    ∃ before info after, t.lookup (asBytes "info") = some info ∧
      t.print = before ++ printString (asBytes "info") ++ info.print ++ after ∧
      (m.hashedBytes = info.print ↔ CarriedInfo info) := by
  obtain ⟨v, d, hdecode, hvalue⟩ := TorrentMetaInfo.of_parse hm
  obtain ⟨rfl, hv⟩ := toTree_of_valueOf hsorted (valueOf_of_decode hlen hdecode)
  have hinfo := TorrentMetaInfo.fromValue_info hvalue
  obtain ⟨map, rfl⟩ := getField_dict hinfo
  obtain ⟨vi, hvi, hread⟩ := getField_eq_ok.mp hinfo
  have hlookup : (Value.dict map).toTree.lookup (asBytes "info") = some vi.toTree := by
    rw [Value.toTree, Tree.lookup, lookup_treeValues, hvi, Option.map_some]
  obtain ⟨before, after, hprint⟩ := Tree.print_of_lookup hlookup
  refine ⟨before, vi.toTree, after, hlookup, hprint, ?_⟩
  have hordered := hv.2.of_lookup hvi
  rw [TorrentMetaInfo.hashedBytes, Value.encoded_eq, ← carries_info.toTree_eq_iff hordered hread]
  constructor
  · intro heq
    have hinfoLen : vi.toTree.print.length < 2 ^ 64 := by
      rw [hprint] at hlen
      simp only [List.length_append] at hlen
      omega
    exact (eq_of_print_eq hordered.toTree_sorted (ordered_info m.info).toTree_sorted hinfoLen
      (valueOf_toTree hordered) heq.symm).symm
  · exact congrArg Tree.print

/-- The info of a file of one byte, with some further entries. -/
def smallInfo (entries : List (Bytes × Tree)) : Tree :=
  .dict ([(asBytes "length", .integer 1), (asBytes "name", .string (asBytes "a")),
    (asBytes "piece length", .integer 1), (asBytes "pieces", .string (List.replicate 20 255))] ++
    entries)

def smallTorrent (entries : List (Bytes × Tree)) : Tree :=
  .dict [(asBytes "info", smallInfo entries)]

/-- What is read of either. -/
def smallMetaInfo : TorrentMetaInfo := .singleFile "a" 1 1 [Sha1.replicate 255]

theorem hashedBytes_smallTorrent : smallMetaInfo.hashedBytes = (smallInfo []).print := by
  have hsorted : (smallTorrent []).Sorted := by
    refine ⟨List.pairwise_singleton _ _, ⟨?_, ⟨trivial, trivial, trivial, trivial, trivial⟩⟩, trivial⟩
    decide +kernel
  obtain ⟨before, info, after, hinfo, -, hiff⟩ :=
    hashedBytes_eq_iff (m := smallMetaInfo) hsorted (by decide +kernel) (by decide +kernel)
  cases hinfo
  exact hiff.mpr (by decide +kernel)

/-- The key of a private torrent is read past. -/
theorem private_key_is_not_hashed :
    (smallTorrent [(asBytes "private", .integer 1)]).Sorted ∧
      TorrentMetaInfo.parse (smallTorrent [(asBytes "private", .integer 1)]).print =
        .ok smallMetaInfo ∧
      (smallTorrent [(asBytes "private", .integer 1)]).lookup (asBytes "info") =
        some (smallInfo [(asBytes "private", .integer 1)]) ∧
      smallMetaInfo.hashedBytes ≠ (smallInfo [(asBytes "private", .integer 1)]).print := by
  refine ⟨⟨List.pairwise_singleton _ _,
    ⟨?_, ⟨trivial, trivial, trivial, trivial, trivial, trivial⟩⟩, trivial⟩, ?_, rfl, ?_⟩
  · decide +kernel
  · decide +kernel
  · decide +kernel

end TorrentClient
