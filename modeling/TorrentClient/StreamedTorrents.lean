import TorrentClient.StructReads
import TorrentClient.TorrentTrees

/-!
# What the streaming decoder reads

The streaming decoder reads of a printed tree the torrent that the tree describes, where the
keys that it passes are valid UTF-8, the numbers that it reads are in range and the tiers of
trackers are there. The exception is an info whose files cannot be read.
-/
namespace TorrentClient
open Bencode DecimalNumerals
open EntryReader

variable {α β : Type}

/-! ### The types of the fields -/

def unsignedOf (ty : IntegerType) : Tree → Option UInt64
  | .integer i => if ty.Contains i then some (UInt64.ofInt i) else none
  | _ => none

def bytesOf : Tree → Option Bytes
  | .string bytes => some bytes
  | _ => none

/-- The number is of the type, where the tree is one. -/
def InRange (ty : IntegerType) : Tree → Prop
  | .integer i => ty.Contains i
  | _ => True

theorem narrows_unsignedOf (ty : IntegerType) (t : Tree) :
    Narrows (unsignedOf ty t) (numberOf ty t) (InRange ty t) := by
  intro n
  cases t with
  | integer i =>
    rw [unsignedOf, numberOf, InRange]
    split_ifs with h <;> simp [h]
  | _ => simp [unsignedOf, numberOf]

namespace Reads

theorem readUnsigned (ty : IntegerType) (t : Tree) :
    Reads (Decoder.readUnsigned ty) t.print (unsignedOf ty t) := by
  cases t with
  | integer i =>
    have hread := (readInteger ty i).map (g := UInt64.ofInt)
    rw [apply_ite (Option.map _)] at hread
    exact hread
  | string bytes => exact Reads.map (expect_string bytes rfl)
  | list items => exact Reads.map (expect_ne rfl (by decide))
  | dict entries => exact Reads.map (expect_ne rfl (by decide))

/-- No number starts with such a byte. -/
theorem readNumber_none {ty : IntegerType} {f : ℤ → DecoderM β} {c : UInt8} {bytes : Bytes}
    (hc : isNumber c = false) : Reads (do let n ← Decoder.readNumber ty; f n) (c :: bytes) none := by
  rw [Decoder.readNumber, bind_assoc]
  have hall : ∀ b ∈ ([] : Bytes), isNumber b = true := fun _ h => absurd h List.not_mem_nil
  exact readWhile hall hc (fail_then _)

theorem readBytes (t : Tree) : Reads Decoder.readByteString t.print (bytesOf t) := by
  cases t with
  | string bytes => exact readByteString bytes
  | _ => exact readNumber_none rfl

theorem readText (t : Tree) : Reads Decoder.readStr t.print (textOf t) := by
  have hread : Reads Decoder.readStr t.print ((bytesOf t).bind fromUtf8) := by
    refine (readBytes t).andThen (g := fromUtf8) fun bytes => ?_
    cases fromUtf8 bytes with
    | some s => exact Reads.pure s
    | none => exact Reads.fail _
  cases t <;> exact hread

theorem readSha1List (t : Tree) : Reads Decoder.readSha1List t.print (hashesOf t) := by
  have hread := (readBytes t).map (g := Sha1.sha1List)
  cases t <;> exact hread

/-- A list is read where the items are that are got to. -/
theorem readListOfReached {decode : DecoderM α} {dec : Tree → Option α} {t : Tree}
    (h : ∀ items, t = .list items → ∀ t', Reached dec items t' → Reads decode t'.print (dec t')) :
    Reads (Decoder.readList decode) t.print (listOf dec t) := by
  cases t with
  | list items => exact readListReached (h items rfl)
  | _ => exact expect_list nofun

theorem readListOf {decode : DecoderM α} {dec : Tree → Option α} {t : Tree}
    (h : ∀ items, t = .list items → ∀ t' ∈ items, Reads decode t'.print (dec t')) :
    Reads (Decoder.readList decode) t.print (listOf dec t) :=
  readListOfReached fun items heq t' ht' => h items heq t' ht'.mem

end Reads

/-! ### Files -/

def fileReader : EntryReader FileInfo := do
  let length ← takeField (unsignedOf .u64) "length"
  let md5sum ← takeOption textOf "md5sum"
  let path ← takeField (listOf textOf) "path"
  return ⟨length, md5sum, path⟩

theorem simulates_text (name : String) :
    Simulates (Decoder.readField Decoder.readStr name) (takeField textOf name) :=
  Simulates.readField fun t _ => Reads.readText t

theorem simulates_optionalText (name : String) :
    Simulates (Decoder.readOption Decoder.readStr name) (takeOption textOf name) :=
  Simulates.readOption NoMissing.readStr fun t _ => Reads.readText t

theorem simulates_unsigned (ty : IntegerType) (name : String) :
    Simulates (Decoder.readField (Decoder.readUnsigned ty) name) (takeField (unsignedOf ty) name) :=
  Simulates.readField fun t _ => Reads.readUnsigned ty t

theorem simulates_hashes (name : String) :
    Simulates (Decoder.readField Decoder.readSha1List name) (takeField hashesOf name) :=
  Simulates.readField fun t _ => Reads.readSha1List t

theorem simulates_file : Simulates FileInfo.readFields fileReader := by
  refine (simulates_unsigned .u64 "length").bind fun length => ?_
  refine (simulates_optionalText "md5sum").bind fun md5sum => ?_
  refine Simulates.bind (Simulates.readField fun t _ => ?_) fun path => Simulates.pure _
  exact Reads.readListOf fun items _ t _ => Reads.readText t

theorem reads_file {t : Tree} (hs : t.Sorted) :
    Reads FileInfo.decode t.print (structOf fileReader t) := Reads.readStruct simulates_file hs

/-- A file that the streaming decoder reads, where its fields have their types. -/
def StreamedFile : Tree → Prop :=
  DictIs fun es => FieldIs "length" (InRange .u64) es ∧ ReadableTo "path" es

theorem gives_file (es : Entries) : Gives "path" es "" fileReader (fileFields unsignedOf es) :=
  Gives.after (takes_takeField (by decide) (by decide)) fun _ =>
    Gives.after (takes_takeOption (by decide) (by decide)) fun _ => gives_takeLast (by decide)

theorem reaches_file : Reaches "path" fileReader :=
  Reaches.after (passes_takeField _ _) fun _ =>
    Reaches.after (passes_takeOption _ _) fun _ => reaches_takeField

theorem narrows_file {t : Tree} (hs : t.Sorted) :
    Narrows (structOf fileReader t) (fileOf t) (StreamedFile t) := by
  refine narrows_dictOf fun es heq => ?_
  subst heq
  exact (narrows_gives hs.1 reaches_file (gives_file es)).trans
    (narrows_fileFields narrows_unsignedOf)

/-! ### Infos -/

def singleReader : EntryReader Info := do
  let length ← takeField (unsignedOf .u64) "length"
  let md5sum ← takeOption textOf "md5sum"
  let name ← takeField textOf "name"
  let pieceLength ← takeField (unsignedOf .usize) "piece length"
  let pieces ← takeField hashesOf "pieces"
  return .single ⟨length, md5sum, name, pieceLength, pieces⟩

def filesReader : EntryReader (List FileInfo) := takeField (listOf (structOf fileReader)) "files"

def multiReader (files : List FileInfo) : EntryReader Info := do
  let name ← takeField textOf "name"
  let pieceLength ← takeField (unsignedOf .usize) "piece length"
  let pieces ← takeField hashesOf "pieces"
  return .multi ⟨files, name, pieceLength, pieces⟩

/-- The info without files is that of a single file. -/
def infoReader : EntryReader Info := fun es =>
  match locate "files" es with
  | .missing => singleReader es
  | _ => (filesReader >>= multiReader) es

/-- The search for the files of an info finds none that can be read, and does not find them
absent: a key on the way is not valid UTF-8, or they are no list of files. -/
def FilesFail (es : Entries) : Prop := locate "files" es ≠ .missing ∧ filesReader es = none

theorem simulates_single : Simulates Info.readSingle singleReader := by
  refine (simulates_unsigned .u64 "length").bind fun length => ?_
  refine (simulates_optionalText "md5sum").bind fun md5sum => ?_
  refine (simulates_text "name").bind fun name => ?_
  refine (simulates_unsigned .usize "piece length").bind fun pieceLength => ?_
  exact (simulates_hashes "pieces").bind fun pieces => Simulates.pure _

theorem simulates_multi (files : List FileInfo) :
    Simulates (Info.readMulti files) (multiReader files) := by
  refine (simulates_text "name").bind fun name => ?_
  refine (simulates_unsigned .usize "piece length").bind fun pieceLength => ?_
  exact (simulates_hashes "pieces").bind fun pieces => Simulates.pure _

theorem sortedItems_iff {items : List Tree} : SortedItems items ↔ ∀ t ∈ items, t.Sorted := by
  induction items with
  | nil => simp [SortedItems]
  | cons t items ih => rw [SortedItems, ih, List.forall_mem_cons]

theorem simulates_files : Simulates Info.readFiles filesReader := by
  refine Simulates.readField fun t hs => Reads.readListOf fun items heq t' ht' => ?_
  subst heq
  exact reads_file (sortedItems_iff.mp hs t' ht')

section Files

variable {es : Entries} {n : ℕ} {r : Bytes}

/-- Where the files are absent the attempt at them leaves the cursor where it was. -/
theorem Info.readFields_of_missing (hfit : FieldsFit n es r) (hl : locate "files" es = .missing) :
    readFields (Decoder.atFields n es r) = readSingle (Decoder.atFields n es r) := by
  have hends := readField_ends (Decoder.readList FileInfo.decode) "files" hfit
  rw [hl] at hends
  have hmissing : readFiles (Decoder.atFields n es r) =
    .error (.err (.missingField "files")) (Decoder.atFields n es r) := hends
  rw [readFields, bind_of_ok (attempt_of_error hmissing)]

theorem Info.readFields_of_files {files : List FileInfo} {d : Decoder}
    (h : readFiles (Decoder.atFields n es r) = .ok files d) :
    readFields (Decoder.atFields n es r) = (readFiles >>= readMulti) (Decoder.atFields n es r) := by
  rw [readFields, bind_of_ok (attempt_of_ok h), bind_of_ok h]

/-- Where the files can be read, or are absent, the attempt at them does no harm. -/
theorem simulatesAt_info (hs : (Tree.dict es).Sorted) (hfiles : ¬ FilesFail es) :
    SimulatesAt Info.readFields infoReader es := by
  intro n r hfit
  by_cases hl : locate "files" es = .missing
  · rw [Info.readFields_of_missing hfit hl, infoReader, hl]
    exact simulates_single es hs n r hfit
  · obtain ⟨⟨files, rest⟩, hy⟩ := Option.ne_none_iff_exists'.mp fun h => hfiles ⟨hl, h⟩
    obtain ⟨hsuffix, hfound⟩ := (simulates_files es hs n r hfit).1 files rest hy
    have hreader : infoReader es = (filesReader >>= multiReader) es := by
      rw [infoReader]
      cases hl' : locate "files" es with
      | missing => exact absurd hl' hl
      | _ => rfl
    rw [Info.readFields_of_files hfound, hreader]
    exact ((simulates_files.bind simulates_multi) es hs) n r hfit

end Files

/-- An info that the streaming decoder reads, where its fields have their types. -/
def StreamedInfo : Tree → Prop :=
  DictIs fun es => InfoIs InRange (fun _ => True) StreamedFile es ∧ ReadableTo "pieces" es

theorem gives_single (es : Entries) :
    Gives "pieces" es "" singleReader (singleFields unsignedOf hashesOf es) :=
  Gives.after (takes_takeField (by decide) (by decide)) fun _ =>
    Gives.after (takes_takeOption (by decide) (by decide)) fun _ =>
      Gives.after (takes_takeField (by decide) (by decide)) fun _ =>
        Gives.after (takes_takeField (by decide) (by decide)) fun _ => gives_takeLast (by decide)

theorem gives_multi (es : Entries) :
    Gives "pieces" es "" (filesReader >>= multiReader)
      (multiFields unsignedOf hashesOf (structOf fileReader) es) :=
  Gives.after (takes_takeField (by decide) (by decide)) fun _ =>
    Gives.after (takes_takeField (by decide) (by decide)) fun _ =>
      Gives.after (takes_takeField (by decide) (by decide)) fun _ => gives_takeLast (by decide)

theorem gives_info (es : Entries) :
    Gives "pieces" es "" infoReader (infoFields unsignedOf hashesOf (structOf fileReader) es) := by
  intro cur hview
  have hlow : keyLt "" "files" := by decide
  have hlast : keyLt "files" "pieces" := by decide
  rw [infoReader, infoFields, hview.locate hlow (Or.inr hlast)]
  cases es.lookup (asBytes "files") with
  | none => exact gives_single es cur hview
  | some files => exact gives_multi es cur hview

theorem reaches_single : Reaches "pieces" singleReader :=
  Reaches.after (passes_takeField _ _) fun _ =>
    Reaches.after (passes_takeOption _ _) fun _ =>
      Reaches.after (passes_takeField _ _) fun _ =>
        Reaches.after (passes_takeField _ _) fun _ => reaches_takeField

theorem reaches_multi : Reaches "pieces" (filesReader >>= multiReader) :=
  Reaches.after (passes_takeField _ _) fun _ =>
    Reaches.after (passes_takeField _ _) fun _ =>
      Reaches.after (passes_takeField _ _) fun _ => reaches_takeField

theorem reaches_info : Reaches "pieces" infoReader := by
  intro es info rest hs h
  rw [infoReader] at h
  cases hl : locate "files" es with
  | missing =>
    rw [hl] at h
    exact reaches_single es info rest hs h
  | _ =>
    rw [hl] at h
    exact reaches_multi es info rest hs h

theorem narrows_info {t : Tree} (hs : t.Sorted) :
    Narrows (structOf infoReader t) (infoOf t) (StreamedInfo t) := by
  refine narrows_dictOf fun es heq => ?_
  subst heq
  refine (narrows_gives hs.1 reaches_info (gives_info es)).trans ?_
  refine narrows_infoFields narrows_unsignedOf (fun t => Narrows.refl _) ?_
  intro items hitems t ht
  have hlist := sortedEntries_iff.mp hs.2 _ (OrderedEntries.mem_of_lookup hitems)
  exact narrows_file (sortedItems_iff.mp hlist t ht)

/-! ### Torrents -/

/-- The tiers of trackers, which have to be there. -/
def tiersThere (es : Entries) : Option (Option (List (List String))) :=
  combinedField (listOf (listOf textOf)) "announce-list" es

def frontReader : EntryReader (Info → TorrentMetaInfo) := do
  let announce ← takeOption textOf "announce"
  let announceList ← takeCombined (listOf (listOf textOf)) "announce-list"
  let comment ← takeOption textOf "comment"
  let createdBy ← takeOption textOf "created by"
  let encoding ← takeOption textOf "encoding"
  return fun info => ⟨info, announce, announceList, none, comment, createdBy, encoding⟩

def torrentReader : EntryReader TorrentMetaInfo := do
  let front ← frontReader
  let info ← takeField (structOf infoReader) "info"
  return front info

/-- The fields in front of the info, as the streaming decoder reads them. -/
def TorrentMetaInfo.readFront : DecoderM (Info → TorrentMetaInfo) := do
  let announce ← Decoder.readOption Decoder.readStr "announce"
  let announceList ← Decoder.readFieldCombine (Decoder.readList Decoder.readStr) "announce-list"
  let comment ← Decoder.readOption Decoder.readStr "comment"
  let createdBy ← Decoder.readOption Decoder.readStr "created by"
  let encoding ← Decoder.readOption Decoder.readStr "encoding"
  return fun info => ⟨info, announce, announceList, none, comment, createdBy, encoding⟩

theorem TorrentMetaInfo.readFields_eq : TorrentMetaInfo.readFields = do
    let front ← readFront
    let info ← Decoder.readField Info.decode "info"
    return front info := by
  simp only [readFields, readFront, bind_assoc, pure_bind]

theorem simulates_front : Simulates TorrentMetaInfo.readFront frontReader := by
  refine (simulates_optionalText "announce").bind fun announce => ?_
  refine Simulates.bind (Simulates.readFieldCombine fun t _ => ?_) fun announceList => ?_
  · exact Reads.readListOf fun items _ t _ =>
      Reads.readListOf fun items _ t _ => Reads.readText t
  · refine (simulates_optionalText "comment").bind fun comment => ?_
    refine (simulates_optionalText "created by").bind fun createdBy => ?_
    exact (simulates_optionalText "encoding").bind fun encoding => Simulates.pure _

theorem takes_front (es : Entries) :
    Takes "info" es "" "encoding" frontReader (frontFields tiersThere es) :=
  Takes.bind (takes_takeOption (by decide) (by decide)) (by decide) fun _ =>
    Takes.bind (takes_takeCombined (by decide) (by decide)) (by decide) fun _ =>
      Takes.bind (takes_takeOption (by decide) (by decide)) (by decide) fun _ =>
        Takes.bind (takes_takeOption (by decide) (by decide)) (by decide) fun _ =>
          Takes.bind (takes_takeOption (by decide) (by decide)) (Or.inl rfl) fun _ => takes_pure _

theorem gives_torrent (es : Entries) :
    Gives "info" es "" torrentReader (torrentFields tiersThere (structOf infoReader) es) :=
  Gives.after (takes_front es) fun _ => gives_takeLast (by decide)

theorem passes_front : Passes frontReader :=
  (passes_takeOption _ _).bind fun _ => (passes_takeCombined _ _).bind fun _ =>
    (passes_takeOption _ _).bind fun _ => (passes_takeOption _ _).bind fun _ =>
      (passes_takeOption _ _).bind fun _ => passes_pure _

theorem reaches_torrent : Reaches "info" torrentReader :=
  Reaches.after passes_front fun _ => reaches_takeField

/-- The tiers of trackers are there, and there is at least one. -/
def HasTiers (es : Entries) : Prop :=
  ∃ tier tiers, es.lookup (asBytes "announce-list") = some (.list (tier :: tiers))

/-- A torrent that the streaming decoder reads, where its fields have their types. -/
def StreamedTorrent : Tree → Prop :=
  DictIs fun es => (HasTiers es ∧ FieldIs "info" StreamedInfo es) ∧ ReadableTo "info" es

theorem listOf_ne_nil {dec : Tree → Option α} {t : Tree} {items : List Tree} {list : List α}
    (h : listOf dec (.list (t :: items)) = some list) : list ≠ [] := by
  rw [listOf, List.mapM_cons, Option.bind_eq_bind, Option.bind_eq_some_iff] at h
  obtain ⟨a, -, h⟩ := h
  obtain ⟨as, -, h⟩ := Option.bind_eq_some_iff.mp h
  cases h
  exact List.cons_ne_nil a as

theorem narrows_tiersThere (es : Entries) : Narrows (tiersThere es) (tiersOf es) (HasTiers es) := by
  intro tiers
  rw [tiersThere, combinedField, requiredField, tiersOf, optionalField, HasTiers]
  cases es.lookup (asBytes "announce-list") with
  | none => simp
  | some t =>
    cases t with
    | list items =>
      cases items with
      | nil => simp [listOf]
      | cons tier items =>
        rw [Option.bind_some]
        dsimp only
        cases hlist : listOf (listOf textOf) (.list (tier :: items)) with
        | none => simp
        | some list => simp [listOf_ne_nil hlist]
    | _ => simp [listOf]

theorem narrows_torrent {t : Tree} (hs : t.Sorted) :
    Narrows (structOf torrentReader t) (torrentOf t) (StreamedTorrent t) := by
  refine narrows_dictOf fun es heq => ?_
  subst heq
  refine (narrows_gives hs.1 reaches_torrent (gives_torrent es)).trans ?_
  refine Narrows.bind ?_ fun front => ?_
  · refine Narrows.bind_right fun announce => ?_
    exact (Narrows.bind (narrows_tiersThere es) fun tiers => Narrows.refl _).congr
      (and_true _).to_iff
  · refine (Narrows.bind (Narrows.requiredField fun t ht => narrows_info ?_)
      fun info => Narrows.refl _).congr (and_true _).to_iff
    exact sortedEntries_iff.mp hs.2 _ (OrderedEntries.mem_of_lookup ht)

/-! ### Runs of the decoder -/

/-- The info is a dictionary whose files fail. -/
def InfoFilesFail (es : Entries) : Prop :=
  ∃ ie, es.lookup (asBytes "info") = some (.dict ie) ∧ FilesFail ie

/-- The fields in front of the info can be read, and the files of the info fail. -/
def MeetsInfoFilesFail (es : Entries) : Prop :=
  ∃ front es' info rest, frontReader es = some (front, es') ∧
    locate "info" es' = .found info rest ∧ DictIs FilesFail info

theorem MeetsInfoFilesFail.infoFilesFail {es : Entries} (h : MeetsInfoFilesFail es)
    (hs : (Tree.dict es).Sorted) : InfoFilesFail es := by
  obtain ⟨front, es', info, rest, hfront, hl, hfail⟩ := h
  have hmem := (passes_front es front es' hfront).suffix.subset (passed_of_locate hl).2
  have hlookup := OrderedEntries.Ascending.lookup_of_mem hs.1 hmem
  cases info with
  | dict ie => exact ⟨ie, hlookup, hfail⟩
  | _ => exact hfail.elim

theorem reads_info {t : Tree} (hs : t.Sorted) (hfiles : ¬ DictIs FilesFail t) :
    Reads Info.decode t.print (structOf infoReader t) := by
  cases t with
  | dict es => exact Reads.readStruct_dict (simulatesAt_info hs hfiles)
  | _ => exact Reads.readStruct_other nofun

theorem simulatesAt_torrent {es : Entries} (hs : (Tree.dict es).Sorted)
    (hfiles : ¬ MeetsInfoFilesFail es) :
    SimulatesAt TorrentMetaInfo.readFields torrentReader es := by
  rw [TorrentMetaInfo.readFields_eq]
  refine (simulates_front es hs).bind fun front es' hfront hsuffix => ?_
  have hs' := sorted_of_suffix hs hsuffix
  refine SimulatesAt.bind (SimulatesAt.readField fun t rest hl => ?_) fun info rest _ hrest =>
    Simulates.pure _ rest (sorted_of_suffix hs' hrest)
  exact reads_info (sortedEntries_iff.mp hs'.2 _ (passed_of_locate hl).2) fun hfail =>
    hfiles ⟨front, es', t, rest, hfront, hl, hfail⟩

theorem reads_torrent {t : Tree} (hs : t.Sorted) (hfiles : ¬ DictIs MeetsInfoFilesFail t) :
    Reads TorrentMetaInfo.decode t.print (structOf torrentReader t) := by
  cases t with
  | dict es => exact Reads.readStruct_dict (simulatesAt_torrent hs hfiles)
  | _ => exact Reads.readStruct_other nofun

end TorrentClient
