import TorrentClient.InfoHash

/-!
# Loading a torrent that was written

`from_value` finds in the value of a torrent what `into_value` put there, also when the value
has gone through the encoder and the decoder. The exception is the byte string of the piece
hashes: where it is valid UTF-8, the decoder has made text of it.
-/
namespace TorrentClient
open OrderedEntries (lookup_map)

/-- A change of a value that keeps its shape and may only replace byte strings. -/
structure KeepsShape (f : Value → Value) : Prop where
  integer : ∀ i, f (.integer i) = .integer i
  string : ∀ s, f (.string s) = .string s
  list : ∀ items, f (.list items) = .list (items.map f)
  dict : ∀ map, f (.dict map) = .dict (map.map fun e => (e.1, f e.2))

/-- The piece hashes of an info. -/
def Info.pieces : Info → List Sha1
  | .single s => s.pieces
  | .multi m => m.pieces

theorem normItems_eq_map (items : List Value) : normItems items = items.map Value.norm := by
  induction items with
  | nil => rfl
  | cons v items ih => rw [normItems, ih, List.map_cons]

theorem normValues_eq_map (map : List (String × Value)) :
    normValues map = map.map fun e => (e.1, e.2.norm) := by
  induction map with
  | nil => rfl
  | cons e map ih => rw [normValues, ih, List.map_cons]

theorem keepsShape_norm : KeepsShape Value.norm where
  integer i := by rw [Value.norm]
  string s := by rw [Value.norm]
  list items := by rw [Value.norm, normItems_eq_map]
  dict map := by rw [Value.norm, normValues_eq_map]

variable {α : Type} {f : Value → Value}

theorem KeepsShape.toUInt64 (hf : KeepsShape f) (n : UInt64) :
    Value.toUInt64 (f (Value.ofUInt64 n)) = .ok n := by
  rw [Value.ofUInt64, hf.integer]
  rfl

theorem KeepsShape.toString (hf : KeepsShape f) (s : String) :
    Value.toString (f (.string s)) = .ok s := by
  rw [hf.string]
  rfl

theorem KeepsShape.toList (hf : KeepsShape f) {fromValue : Value → Except DecodeError α}
    {intoValue : α → Value} {xs : List α} (h : ∀ x ∈ xs, fromValue (f (intoValue x)) = .ok x) :
    Value.toList fromValue (f (Value.ofList intoValue xs)) = .ok xs := by
  rw [Value.ofList, hf.list, Value.toList, List.map_map, List.mapM_map]
  refine (mapM_of_forall_ok (g := id) h).trans ?_
  rw [List.map_id]

theorem KeepsShape.toStrings (hf : KeepsShape f) (xs : List String) :
    Value.toList Value.toString (f (Value.ofList .string xs)) = .ok xs :=
  hf.toList fun s _ => hf.toString s

theorem sha1List_flatMap (hashes : List Sha1) :
    Sha1.sha1List (hashes.flatMap (·.bytes)) = hashes := by
  induction hashes with
  | nil => rw [List.flatMap_nil, Sha1.sha1List, dif_neg (by simp)]
  | cons h hashes ih =>
    obtain ⟨bytes, size⟩ := h
    have hlen : 20 ≤ (bytes ++ hashes.flatMap (·.bytes)).length := by
      rw [List.length_append, size]
      omega
    rw [List.flatMap_cons, Sha1.sha1List, dif_pos hlen, List.cons.injEq, Sha1.mk.injEq]
    refine ⟨List.take_left' size, ?_⟩
    rw [List.drop_left' size]
    exact ih

section Map

variable {map : List (String × Value)} {fromValue : Value → Except DecodeError α} {key : String}

theorem KeepsShape.getField (hf : KeepsShape f) {v : Value} (h : map.lookup key = some v) :
    (f (.dict map)).getField fromValue key = fromValue (f v) := by
  rw [hf.dict, Value.getField, lookup_map, h, Option.map_some]

theorem KeepsShape.getOptionValue (hf : KeepsShape f) {o : Option Value}
    (h : map.lookup key = o) : (f (.dict map)).getOptionValue key = .ok (o.map f) := by
  rw [hf.dict, Value.getOptionValue, lookup_map, h]

theorem KeepsShape.getOptionField (hf : KeepsShape f) {intoValue : α → Value} {o : Option α}
    (h : map.lookup key = o.map intoValue) (ho : ∀ a ∈ o, fromValue (f (intoValue a)) = .ok a) :
    (f (.dict map)).getOptionField fromValue key = .ok o := by
  rw [hf.dict, Value.getOptionField, lookup_map, h]
  cases o with
  | none => rfl
  | some a =>
    change (fromValue (f (intoValue a))).map some = _
    rw [ho a rfl]
    rfl

end Map

theorem KeepsShape.fileInfo (hf : KeepsShape f) (x : FileInfo) :
    FileInfo.fromValue (f x.intoValue) = .ok x := by
  obtain ⟨length, md5sum, path⟩ := x
  simp only [FileInfo.fromValue, FileInfo.intoValue]
  rw [hf.getField (v := Value.ofUInt64 length) (by simp [lookup_insert, lookup_insertOption]),
    hf.toUInt64, ok_bind,
    hf.getOptionField (o := md5sum) (by simp [lookup_insert, lookup_insertOption])
      (fun s _ => hf.toString s), ok_bind,
    hf.getField (v := Value.ofList .string path) (by simp [lookup_insert]), hf.toStrings, ok_bind]
  rfl

theorem toSha1List_ofSha1List (hashes : List Sha1) :
    Value.toSha1List (Value.ofSha1List hashes) = .ok hashes :=
  congrArg Except.ok (sha1List_flatMap hashes)

/-- An info comes back exactly when its piece hashes do. -/
theorem KeepsShape.info_iff (hf : KeepsShape f) (info : Info) :
    Info.fromValue (f info.intoValue) = .ok info ↔
      Value.toSha1List (f (Value.ofSha1List info.pieces)) = .ok info.pieces := by
  cases info with
  | single s =>
    obtain ⟨length, md5sum, name, pieceLength, pieces⟩ := s
    simp only [Info.fromValue, Info.intoValue, Info.pieces]
    rw [hf.getOptionValue (o := none) (by simp [lookup_insert, lookup_insertOption]), ok_bind]
    simp only [Option.map_none]
    rw [hf.getField (v := Value.ofUInt64 length) (by simp [lookup_insert]), hf.toUInt64, ok_bind,
      hf.getOptionField (o := md5sum) (by simp [lookup_insert, lookup_insertOption])
        (fun s _ => hf.toString s), ok_bind,
      hf.getField (v := .string name) (by simp [lookup_insert]), hf.toString, ok_bind,
      hf.getField (v := Value.ofUInt64 pieceLength) (by simp [lookup_insert]), hf.toUInt64,
      ok_bind, hf.getField (v := Value.ofSha1List pieces) (by simp [lookup_insert])]
    cases Value.toSha1List (f (Value.ofSha1List pieces)) <;> simp [pure, Except.pure]
  | multi m =>
    obtain ⟨files, name, pieceLength, pieces⟩ := m
    simp only [Info.fromValue, Info.intoValue, Info.pieces]
    rw [hf.getOptionValue (o := some (Value.ofList FileInfo.intoValue files))
      (by simp [lookup_insert]), ok_bind]
    simp only [Option.map_some]
    rw [hf.getField (v := Value.ofList FileInfo.intoValue files) (by simp [lookup_insert]),
      hf.toList (fun x _ => hf.fileInfo x), ok_bind,
      hf.getField (v := .string name) (by simp [lookup_insert]), hf.toString, ok_bind,
      hf.getField (v := Value.ofUInt64 pieceLength) (by simp [lookup_insert]), hf.toUInt64,
      ok_bind, hf.getField (v := Value.ofSha1List pieces) (by simp [lookup_insert])]
    cases Value.toSha1List (f (Value.ofSha1List pieces)) <;> simp [pure, Except.pure]

/-- A torrent comes back exactly when its piece hashes do. -/
theorem KeepsShape.metaInfo_iff (hf : KeepsShape f) {m : TorrentMetaInfo}
    (hdate : m.creationDate = none) : TorrentMetaInfo.fromValue (f m.intoValue) = .ok m ↔
      Value.toSha1List (f (Value.ofSha1List m.info.pieces)) = .ok m.info.pieces := by
  obtain ⟨info, announce, announceList, creationDate, comment, createdBy, encoding⟩ := m
  obtain rfl : creationDate = none := hdate
  rw [← hf.info_iff]
  simp only [TorrentMetaInfo.fromValue, TorrentMetaInfo.intoValue]
  rw [hf.getField (v := info.intoValue) (by simp [lookup_insert]),
    hf.getOptionField (o := announce) (by simp [lookup_insert, lookup_insertOption])
      (fun s _ => hf.toString s),
    hf.getOptionField (o := announceList) (by simp [lookup_insert, lookup_insertOption])
      (fun tiers _ => hf.toList fun tier _ => hf.toStrings tier),
    hf.getOptionField (o := comment) (by simp [lookup_insert, lookup_insertOption])
      (fun s _ => hf.toString s),
    hf.getOptionField (o := createdBy) (by simp [lookup_insert, lookup_insertOption])
      (fun s _ => hf.toString s),
    hf.getOptionField (o := encoding) (by simp [lookup_insert, lookup_insertOption])
      (fun s _ => hf.toString s)]
  cases Info.fromValue (f info.intoValue) <;> simp [pure, Except.pure]

theorem keepsShape_id : KeepsShape id where
  integer i := rfl
  string s := rfl
  list items := by rw [List.map_id, id]
  dict map := by simp

/-- Every field of a torrent comes back from the value it was put into. -/
theorem fromValue_intoValue {m : TorrentMetaInfo} (hdate : m.creationDate = none) :
    TorrentMetaInfo.fromValue m.intoValue = .ok m :=
  (keepsShape_id.metaInfo_iff hdate).mpr (toSha1List_ofSha1List m.info.pieces)

/-- A torrent of two files with a tier of trackers. -/
def twoFiles : TorrentMetaInfo where
  info := .multi ⟨[⟨18446744073709551615, none, ["a", "b"]⟩, ⟨0, some "c", []⟩], "n", 1,
    [Sha1.replicate 65, Sha1.replicate 255]⟩
  announce := some "t"
  announceList := some [["t", "u"], []]
  creationDate := none
  comment := none
  createdBy := some ""
  encoding := none

theorem fromValue_intoValue_two : TorrentMetaInfo.fromValue twoFiles.intoValue = .ok twoFiles :=
  fromValue_intoValue rfl

theorem toSha1List_norm_iff (hashes : List Sha1) :
    Value.toSha1List (Value.ofSha1List hashes).norm = .ok hashes ↔
      fromUtf8 (hashes.flatMap (·.bytes)) = none := by
  rw [Value.ofSha1List, Value.norm, stringValue]
  cases fromUtf8 (hashes.flatMap (·.bytes)) with
  | some s => exact iff_of_false (by simp [Value.toSha1List]) (by simp)
  | none => exact iff_of_true (toSha1List_ofSha1List hashes) rfl

theorem ordered_strings (o : Option String) : ∀ v ∈ o.map Value.string, v.Ordered :=
  Option.forall_mem_map.mpr fun s _ => carries_toString.ordered s

theorem ordered_metaInfo (m : TorrentMetaInfo) : m.intoValue.Ordered := by
  refine Value.Ordered.insert ?_ _ (ordered_info m.info)
  refine Value.Ordered.insertOption ?_ _ (ordered_strings m.encoding)
  refine Value.Ordered.insertOption ?_ _ (ordered_strings m.createdBy)
  refine Value.Ordered.insertOption ?_ _ (ordered_strings m.comment)
  refine Value.Ordered.insertOption ?_ _ ?_
  · exact ordered_nil.insertOption _ (ordered_strings m.announce)
  · exact Option.forall_mem_map.mpr fun tiers _ => carries_strings.toList.ordered tiers

/-- A torrent that is written is loaded again exactly when the bytes of its piece hashes are
not valid UTF-8. -/
theorem parse_encoded_iff {m : TorrentMetaInfo} (hdate : m.creationDate = none)
    (hlen : m.intoValue.encoded.length < 2 ^ 64) :
    TorrentMetaInfo.parse m.intoValue.encoded = .ok m ↔
      fromUtf8 (m.info.pieces.flatMap (·.bytes)) = none := by
  have hdecode := decode_encoded (ordered_metaInfo m) [] (by rwa [List.append_nil])
  rw [List.append_nil] at hdecode
  rw [← toSha1List_norm_iff, ← keepsShape_norm.metaInfo_iff hdate, TorrentMetaInfo.parse, hdecode]
  simp only
  cases TorrentMetaInfo.fromValue m.intoValue.norm <;> simp

theorem parse_encoded_iff_raw :
    TorrentMetaInfo.parse
        (TorrentMetaInfo.singleFile "a" 1 1 [Sha1.replicate 255]).intoValue.encoded =
      .ok (TorrentMetaInfo.singleFile "a" 1 1 [Sha1.replicate 255]) :=
  (parse_encoded_iff rfl (by decide +kernel)).mpr (by decide +kernel)

/-- Hashes that are valid UTF-8 are not loaded. -/
theorem text_hashes_not_reloaded :
    TorrentMetaInfo.parse
        (TorrentMetaInfo.singleFile "a" 1 1 [Sha1.replicate 65]).intoValue.encoded =
      .error .panic := by decide +kernel

end TorrentClient
