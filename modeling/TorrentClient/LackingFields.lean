import TorrentClient.PlainFailures

/-!
# The fields that values lack

The decoder of a structure fails with a missing field where the entries lack one, in the order in
which it asks for them. What entries lack is put together as the body of the decoder is.
-/
namespace TorrentClient
open Bencode
open Decoder EntryReader

variable {α β : Type}

def Missing (name : String) (es : Entries) : Prop := locate name es = .missing

/-- The entries behind those that the reader takes lack something. -/
def LacksBehind (y : EntryReader α) (lacks : Entries → Prop) (es : Entries) : Prop :=
  ∃ a rest, y es = some (a, rest) ∧ lacks rest

/-- The field is missing, or the entries behind it lack something. -/
def LacksField (dec : Tree → Option α) (name : String) (lacks : Entries → Prop) (es : Entries) :
    Prop := Missing name es ∨ LacksBehind (takeField dec name) lacks es

/-- An empty list is as good as none. -/
def LacksCombined (dec : Tree → Option (List α)) (name : String) (es : Entries) : Prop :=
  Missing name es ∨
    ∃ t rest, locate name es = .found t rest ∧ dec t = some [] ∧ nextValid rest = true

def FileInfo.FieldsLack : Entries → Prop :=
  LacksField (unsignedOf .u64) "length" <| LacksBehind (takeOption textOf "md5sum") <| Missing "path"

def Info.SingleLacks : Entries → Prop :=
  LacksField (unsignedOf .u64) "length" <| LacksBehind (takeOption textOf "md5sum") <|
    LacksField textOf "name" <| LacksField (unsignedOf .usize) "piece length" <| Missing "pieces"

def Info.MultiLacks : Entries → Prop :=
  LacksField textOf "name" <| LacksField (unsignedOf .usize) "piece length" <| Missing "pieces"

def TorrentMetaInfo.FrontLacks : Entries → Prop :=
  LacksBehind (takeOption textOf "announce") <|
    LacksCombined (listOf (listOf textOf)) "announce-list"

/-- A call never panics, and its errors are plain but for what is lacking. -/
structure FailsAt (lacks : Prop) (x : DecoderM α) (d : Decoder) : Prop where
  safe : FailsWith (· ≠ .panic) x d
  plain_iff : FailsWith IsPlain x d ↔ ¬ lacks

/-- In front of the entries the body does what the reader does, and fails where they lack
something. -/
structure Lacking (lacks : Entries → Prop) (x : DecoderM α) (y : EntryReader α) : Prop where
  simulates : Simulates x y
  fails : ∀ {es : Entries} {n : ℕ} {r : Bytes}, (Tree.dict es).Sorted → n < 2 ^ 63 →
    FieldsFit n es r → FailsAt (lacks es) x (atFields n es r)

theorem lenient_safe : Lenient (· ≠ .panic) := by
  rintro e he rfl
  exact he

theorem err_ne_panic (e : DecodeError) : Fault.err e ≠ .panic := nofun

theorem Fits.inSlice {n : ℕ} {bytes : Bytes} (h : Fits n bytes) (hn : n < 2 ^ 63) :
    (inFront n bytes).InSlice := by
  have hle := h.le
  rw [Decoder.InSlice, inFront]
  dsimp only
  omega

namespace FailsAt

variable {x : DecoderM α} {d d' : Decoder} {lacks lacks' : Prop}

theorem of_plain (h : FailsWith IsPlain x d) (hnot : ¬ lacks) : FailsAt lacks x d :=
  ⟨h.of_plain lenient_safe, iff_of_true h hnot⟩

theorem of_ok {a : α} (h : x d = .ok a d') (hnot : ¬ lacks) : FailsAt lacks x d :=
  of_plain (FailsWith.of_ok h) hnot

theorem of_error {e : DecodeError} (h : x d = .error (.err e) d')
    (hlacks : lacks ↔ ∃ name, e = .missingField name) : FailsAt lacks x d := by
  refine ⟨(failsWith_iff_of_error h).mpr (err_ne_panic e), ?_⟩
  rw [failsWith_iff_of_error h, hlacks]
  cases e with
  | missingField name => exact iff_of_false id fun hnot => hnot ⟨name, rfl⟩
  | _ => exact iff_of_true trivial nofun

theorem congr (h : FailsAt lacks x d) (hiff : lacks ↔ lacks') : FailsAt lacks' x d :=
  ⟨h.safe, h.plain_iff.trans (not_congr hiff)⟩

end FailsAt

namespace Lacking

variable {decode : DecoderM α} {dec : Tree → Option α} {name : String}
  {lacks : Entries → Prop}

theorem pure (a : α) : Lacking (fun _ => False) (pure a) (pure a) :=
  ⟨Simulates.pure a, fun _ _ _ => FailsAt.of_ok rfl id⟩

theorem congr {x : DecoderM α} {y : EntryReader α} {lacks' : Entries → Prop}
    (h : Lacking lacks x y) (hiff : ∀ es, lacks es ↔ lacks' es) : Lacking lacks' x y :=
  ⟨h.simulates, fun hs hn hfit => (h.fails hs hn hfit).congr (hiff _)⟩

theorem bind {x : DecoderM α} {y : EntryReader α} {f : α → DecoderM β} {g : α → EntryReader β}
    {lacks' : Entries → Prop} (hx : Lacking lacks x y) (hf : ∀ a, Lacking lacks' (f a) (g a)) :
    Lacking (fun es => lacks es ∨ LacksBehind y lacks' es) (x >>= f) (y >>= g) := by
  refine ⟨hx.simulates.bind fun a => (hf a).simulates, ?_⟩
  intro es n r hs hn hfit
  obtain ⟨hsafe, hplain⟩ := hx.fails hs hn hfit
  have hrest : ∀ a rest, rest <:+ es → FailsAt (lacks' rest) (f a) (atFields n rest r) :=
    fun a rest hsuffix => (hf a).fails (sorted_of_suffix hs hsuffix) hn (hfit.suffix hsuffix)
  constructor
  · refine failsWith_bind_iff.mpr ⟨hsafe, fun a d hrun => ?_⟩
    obtain ⟨rest, -, hsuffix, rfl⟩ := (hx.simulates es hs).of_ok hfit hrun
    exact (hrest a rest hsuffix).safe
  · rw [failsWith_bind_iff, hplain]
    constructor
    · rintro ⟨hnot, hbehind⟩ (hlacks | ⟨a, rest, hy, hlacks⟩)
      · exact hnot hlacks
      · obtain ⟨hsuffix, hrun⟩ := (hx.simulates es hs n r hfit).1 a rest hy
        exact (hrest a rest hsuffix).plain_iff.mp (hbehind a _ hrun) hlacks
    · intro hnot
      refine ⟨fun hlacks => hnot (Or.inl hlacks), fun a d hrun => ?_⟩
      obtain ⟨rest, hy, hsuffix, rfl⟩ := (hx.simulates es hs).of_ok hfit hrun
      exact (hrest a rest hsuffix).plain_iff.mpr fun hlacks => hnot (Or.inr ⟨a, rest, hy, hlacks⟩)

/-- The search for a field whose decoder fails plainly. -/
theorem fails_readField (hplain : ∀ d : Decoder, d.InSlice → FailsWith IsPlain decode d) {es : Entries}
    {n : ℕ} {r : Bytes} (hn : n < 2 ^ 63) (hfit : FieldsFit n es r) :
    FailsAt (Missing name es) (readField decode name) (atFields n es r) := by
  have hends := readField_ends decode name hfit
  rw [Missing]
  cases hl : locate name es with
  | found t rest =>
    rw [hl] at hends
    have hvalue := hplain _ ((hfit.value hl).inSlice hn)
    have hrun : readField decode name (atFields n es r) = decode _ := hends
    exact FailsAt.of_plain (fun e d herror => hvalue e d (hrun.symm.trans herror)) nofun
  | missing =>
    rw [hl] at hends
    exact FailsAt.of_error hends (iff_of_true rfl ⟨name, rfl⟩)
  | invalid =>
    rw [hl] at hends
    obtain ⟨d, hfail⟩ := hends
    exact FailsAt.of_error hfail (iff_of_false nofun nofun)

theorem readField (hdec : ∀ t : Tree, t.Sorted → Reads decode t.print (dec t))
    (hplain : ∀ d : Decoder, d.InSlice → FailsWith IsPlain decode d) :
    Lacking (Missing name) (readField decode name) (takeField dec name) :=
  ⟨Simulates.readField hdec, fun _ hn hfit => fails_readField hplain hn hfit⟩

theorem readOption (hmissing : NoMissing decode)
    (hdec : ∀ t : Tree, t.Sorted → Reads decode t.print (dec t))
    (hplain : ∀ d : Decoder, d.InSlice → FailsWith IsPlain decode d) :
    Lacking (fun _ => False) (readOption decode name) (takeOption dec name) := by
  refine ⟨Simulates.readOption hmissing hdec, fun {es n r} _ hn hfit => ?_⟩
  have hfield : FailsAt (Missing name es) _ _ := fails_readField hplain hn hfit
  refine FailsAt.of_plain ?_ id
  cases hrun : Decoder.readField decode name (atFields n es r) with
  | ok a d => exact FailsWith.of_ok (readOption_of_ok hrun)
  | error e d =>
    by_cases hname : ∃ m, e = .err (.missingField m)
    · obtain ⟨m, rfl⟩ := hname
      exact FailsWith.of_ok (readOption_of_missing hrun)
    · have hother : ∀ m, e ≠ .err (.missingField m) := fun m heq => hname ⟨m, heq⟩
      rw [failsWith_iff_of_error (readOption_of_error hrun hother)]
      exact isPlain_of (hfield.safe e d hrun) hother

section Combined

variable {dec : Tree → Option (List α)}

theorem readFieldCombineLoop_failsPlainly
    (hdec : ∀ t : Tree, t.Sorted → Reads (readList decode) t.print (dec t))
    (hplain : ∀ d : Decoder, d.InSlice → FailsWith IsPlain (readList decode) d) {es : Entries}
    {n : ℕ} {r : Bytes} (hs : (Tree.dict es).Sorted) (hn : n < 2 ^ 63) {pos : Decoder}
    {res : List α} {fuel : ℕ} (hfuel : es.length < fuel) (hfit : FieldsFit n es r) :
    FailsWith IsPlain (readFieldCombineLoop decode name fuel pos res) (atFields n es r) := by
  induction es generalizing fuel pos res with
  | nil =>
    cases fuel with
    | zero => cases hfuel
    | succ fuel =>
      rw [readFieldCombineLoop, failsWith_congr (nextKey_end hfit)]
      exact FailsWith.of_ok rfl
  | cons e es ih =>
    cases fuel with
    | zero => cases hfuel
    | succ fuel =>
      obtain ⟨key, t⟩ := e
      have hmore : ∀ pos res, FailsWith IsPlain (readFieldCombineLoop decode name fuel pos res)
          (atFields n es r) := fun pos res =>
        ih (sorted_of_suffix hs (List.suffix_cons _ _)) (Nat.lt_of_succ_lt_succ hfuel)
          (hfit.suffix (List.suffix_cons _ _))
      rw [FailsWith, readFieldCombineLoop, nextKey_entry hfit]
      cases fromUtf8 key with
      | none =>
        rintro _ _ ⟨⟩
        trivial
      | some k =>
        dsimp only
        split_ifs
        · have hlist := hplain _ (hfit.first.inSlice hn)
          refine failsWith_bind_iff.mpr ⟨hlist, fun list d hrun => ?_⟩
          have hread := (hdec t hs.2.1).inFront hfit.first
          rw [hrun] at hread
          cases hd : dec t with
          | none =>
            rw [hd] at hread
            obtain ⟨e, d', hfail⟩ := hread
            cases hfail
          | some list' =>
            rw [hd] at hread
            cases (show _ = _ from hread)
            exact (failsWith_bind_of_ok (get_ok _)).mpr (hmore _ _)
        · exact (failsWith_bind_of_ok ((Reads.skipItem t).inFront_ok hfit.first)).mpr (hmore pos res)
        · exact FailsWith.of_ok rfl

/-- The loop is what finds an empty list. -/
theorem lacksCombined_iff {es : Entries} {n : ℕ} {r : Bytes} {pos : Decoder} :
    LacksCombined dec name es ↔
      ∃ pos', (locate name es).combined dec n r pos [] = some (pos', []) := by
  rw [LacksCombined, Missing]
  cases locate name es with
  | found t rest => cases hd : dec t <;> simp [Located.combined, hd, and_comm]
  | missing => simp [Located.combined]
  | invalid => simp [Located.combined]

theorem readFieldCombine (hdec : ∀ t : Tree, t.Sorted → Reads (readList decode) t.print (dec t))
    (hplain : ∀ d : Decoder, d.InSlice → FailsWith IsPlain (readList decode) d) :
    Lacking (LacksCombined dec name) (readFieldCombine decode name) (takeCombined dec name) := by
  refine ⟨Simulates.readFieldCombine hdec, fun {es n r} hs hn hfit => ?_⟩
  have hlen : es.length < (printEntries es ++ 101 :: r).length + 1 := by
    rw [List.length_append]
    exact Nat.lt_succ_of_le (Nat.le_add_right_of_le (length_entries_le es))
  have hfails : FailsWith IsPlain (readFieldCombineLoop decode name
      ((atFields n es r).remaining + 1) (atFields n es r) []) (atFields n es r) :=
    readFieldCombineLoop_failsPlainly hdec hplain hs hn hlen hfit
  have hloop : Returns ((locate name es).combined dec n r (atFields n es r) [])
      (readFieldCombineLoop decode name ((atFields n es r).remaining + 1) (atFields n es r) []
        (atFields n es r)) := readFieldCombineLoop_ends hdec hs hlen hfit
  cases hc : (locate name es).combined dec n r (atFields n es r) [] with
  | none =>
    rw [hc] at hloop
    obtain ⟨e, d, hrun⟩ := hloop
    refine FailsAt.of_plain ?_ ?_
    · rw [Decoder.readFieldCombine, failsWith_bind_of_ok (get_ok _)]
      exact (failsWith_iff_of_error (bind_of_error hrun)).mpr (hfails e d hrun)
    · rw [lacksCombined_iff, hc]
      rintro ⟨_, ⟨⟩⟩
  | some p =>
    obtain ⟨pos, res⟩ := p
    rw [hc] at hloop
    obtain ⟨d, hrun⟩ := hloop
    cases res with
    | nil =>
      have hlacks : LacksCombined dec name es := lacksCombined_iff.mpr ⟨pos, hc⟩
      exact FailsAt.of_error (bind_of_ok hrun) (iff_of_true hlacks ⟨name, rfl⟩)
    | cons a res =>
      refine FailsAt.of_ok (bind_of_ok hrun) ?_
      rw [lacksCombined_iff, hc]
      rintro ⟨_, ⟨⟩⟩

end Combined

section Chains

variable {f : α → DecoderM β} {g : α → EntryReader β}

theorem field_then (hx : Lacking (Missing name) (Decoder.readField decode name) (takeField dec name))
    (hf : ∀ a, Lacking lacks (f a) (g a)) :
    Lacking (LacksField dec name lacks) (Decoder.readField decode name >>= f)
      (takeField dec name >>= g) := hx.bind hf

theorem optional_then {x : DecoderM α} {y : EntryReader α} (hx : Lacking (fun _ => False) x y)
    (hf : ∀ a, Lacking lacks (f a) (g a)) : Lacking (LacksBehind y lacks) (x >>= f) (y >>= g) :=
  (hx.bind hf).congr fun _ => or_iff_right id

theorem then_optional {x : DecoderM α} {y : EntryReader α} (hx : Lacking lacks x y)
    (hf : ∀ a, Lacking (fun _ => False) (f a) (g a)) : Lacking lacks (x >>= f) (y >>= g) := by
  refine (hx.bind hf).congr fun es => or_iff_left ?_
  rintro ⟨a, rest, -, hlacks⟩
  exact hlacks

end Chains

end Lacking

theorem failsPlainly_unsigned (ty : IntegerType) {d : Decoder} (hd : d.InSlice) :
    FailsWith IsPlain (readUnsigned ty) d := by
  have hinteger := DecodeType.WithoutStruct.failsPlainly (T := .integer ty) trivial hd
  exact failsWith_bind_iff.mpr ⟨hinteger, fun _ _ _ => FailsWith.of_ok rfl⟩

theorem lacking_unsigned (ty : IntegerType) (name : String) :
    Lacking (Missing name) (readField (readUnsigned ty) name) (takeField (unsignedOf ty) name) :=
  Lacking.readField (fun t _ => Reads.readUnsigned ty t) fun _ hd => failsPlainly_unsigned ty hd

theorem failsPlainly_text {d : Decoder} (hd : d.InSlice) : FailsWith IsPlain readStr d :=
  DecodeType.WithoutStruct.failsPlainly (T := .string) trivial hd

theorem lacking_text (name : String) :
    Lacking (Missing name) (readField readStr name) (takeField textOf name) :=
  Lacking.readField (fun t _ => Reads.readText t) fun _ => failsPlainly_text

theorem lacking_optionalText (name : String) :
    Lacking (fun _ => False) (readOption readStr name) (takeOption textOf name) :=
  Lacking.readOption NoMissing.readStr (fun t _ => Reads.readText t) fun _ => failsPlainly_text

theorem lacking_hashes (name : String) :
    Lacking (Missing name) (readField readSha1List name) (takeField hashesOf name) :=
  Lacking.readField (fun t _ => Reads.readSha1List t) fun _ hd =>
    DecodeType.WithoutStruct.failsPlainly (T := .sha1List) trivial hd

theorem lacking_file : Lacking FileInfo.FieldsLack FileInfo.readFields fileReader := by
  refine (lacking_unsigned .u64 "length").field_then fun length => ?_
  refine (lacking_optionalText "md5sum").optional_then fun md5sum => ?_
  refine Lacking.then_optional (Lacking.readField (fun t _ => ?_) fun _ hd => ?_)
    fun path => Lacking.pure _
  · exact Reads.readListOf fun items _ t _ => Reads.readText t
  · exact DecodeType.WithoutStruct.failsPlainly (T := .list .string) trivial hd

theorem lacking_single : Lacking Info.SingleLacks Info.readSingle singleReader := by
  refine (lacking_unsigned .u64 "length").field_then fun length => ?_
  refine (lacking_optionalText "md5sum").optional_then fun md5sum => ?_
  refine (lacking_text "name").field_then fun name => ?_
  refine (lacking_unsigned .usize "piece length").field_then fun pieceLength => ?_
  exact (lacking_hashes "pieces").then_optional fun pieces => Lacking.pure _

theorem lacking_multi (files : List FileInfo) :
    Lacking Info.MultiLacks (Info.readMulti files) (multiReader files) := by
  refine (lacking_text "name").field_then fun name => ?_
  refine (lacking_unsigned .usize "piece length").field_then fun pieceLength => ?_
  exact (lacking_hashes "pieces").then_optional fun pieces => Lacking.pure _

theorem lacking_front :
    Lacking TorrentMetaInfo.FrontLacks TorrentMetaInfo.readFront frontReader := by
  refine (lacking_optionalText "announce").optional_then fun announce => ?_
  refine Lacking.then_optional (Lacking.readFieldCombine (fun t _ => ?_) fun _ hd => ?_)
    fun announceList => ?_
  · exact Reads.readListOf fun items _ t _ =>
      Reads.readListOf fun items _ t _ => Reads.readText t
  · exact DecodeType.WithoutStruct.failsPlainly (T := .list (.list .string)) trivial hd
  · refine (lacking_optionalText "comment").then_optional fun comment => ?_
    refine (lacking_optionalText "created by").then_optional fun createdBy => ?_
    exact (lacking_optionalText "encoding").then_optional fun encoding => Lacking.pure _

section Structs

variable {x : DecoderM α} {y : EntryReader α} {n : ℕ} {t : Tree} {es : Entries} {r : Bytes}

/-- A struct fails as its body does, since behind the fields it does not. -/
theorem failsWith_readStruct {q : Fault DecodeError → Prop} (h : SimulatesAt x y es)
    (hfit : Fits n ((Tree.dict es).print ++ r)) :
    FailsWith q (readStruct x) (inFront n ((Tree.dict es).print ++ r)) ↔
      FailsWith q x (atFields n es r) := by
  obtain ⟨hfields, hbody⟩ := Reads.readStruct_run (x := x) hfit
  rw [failsWith_congr hbody, failsWith_bind_iff, and_iff_left]
  intro a d hrun
  obtain ⟨rest, -, hsuffix, rfl⟩ := h.of_ok hfields hrun
  have hskip := skipFields_atFields (hfields.suffix hsuffix)
  exact FailsWith.of_ok (bind_of_ok hskip)

theorem failsPlainly_readStruct_other (hdict : ∀ es, t ≠ .dict es) (hfit : Fits n (t.print ++ r)) :
    FailsWith IsPlain (readStruct x) (inFront n (t.print ++ r)) := by
  refine failsWith_bind_iff.mpr ⟨expect_failsPlainly 100 _, fun u d hrun => ?_⟩
  have hread : Reads (do expect 100; return u) t.print none := Reads.expect_dict hdict
  obtain ⟨e, d', hfail⟩ := hread.inFront hfit
  cases hfail.symm.trans (bind_of_ok hrun)

/-- A struct lacks the fields that its body does. -/
theorem Lacking.readStruct {lacks : Entries → Prop} (h : Lacking lacks x y) (hs : t.Sorted)
    (hn : n < 2 ^ 63) (hfit : Fits n (t.print ++ r)) :
    FailsAt (∃ es, t = .dict es ∧ lacks es) (readStruct x) (inFront n (t.print ++ r)) := by
  by_cases hdict : ∃ es, t = .dict es
  · obtain ⟨es, rfl⟩ := hdict
    obtain ⟨hsafe, hplain⟩ := h.fails hs hn (Reads.readStruct_run (x := x) hfit).1
    have hsim := h.simulates es hs
    refine ⟨(failsWith_readStruct hsim hfit).mpr hsafe,
      (failsWith_readStruct hsim hfit).trans (hplain.trans (not_congr ?_))⟩
    constructor
    · exact fun hlacks => ⟨es, rfl, hlacks⟩
    · rintro ⟨es', heq, hlacks⟩
      cases heq
      exact hlacks
  · have hother : ∀ es, t ≠ .dict es := fun es h => hdict ⟨es, h⟩
    refine FailsAt.of_plain (failsPlainly_readStruct_other hother hfit) ?_
    rintro ⟨es, heq, -⟩
    exact hdict ⟨es, heq⟩

end Structs

end TorrentClient
