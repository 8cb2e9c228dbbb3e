import TorrentClient.TorrentTrees
import TorrentClient.MetaInfoValues

/-!
# What the value of a torrent holds

A tree has a value where its integers are in range and its keys are valid UTF-8. `from_value`
finds in it the torrent that the tree describes, unless the piece hashes are text.
-/
namespace TorrentClient
open Bencode

variable {α β ε : Type}

mutual

/-- Every integer is an `i64` and every key is valid UTF-8. -/
def HasValue : Tree → Prop
  | .integer i => IntegerType.i64.Contains i
  | .string _ => True
  | .list items => HaveValues items
  | .dict entries => EntriesHaveValues entries

def HaveValues : List Tree → Prop
  | [] => True
  | t :: items => HasValue t ∧ HaveValues items

def EntriesHaveValues : List (Bytes × Tree) → Prop
  | [] => True
  | (key, t) :: entries =>
    (fromUtf8 key).isSome = true ∧ HasValue t ∧ EntriesHaveValues entries

end

theorem isSome_valuesOf {items : List Tree}
    (h : ∀ t ∈ items, (valueOf t).isSome = true ↔ HasValue t) :
    (valuesOf items).isSome = true ↔ HaveValues items := by
  induction items with
  | nil => simp [valuesOf, HaveValues]
  | cons t items ih =>
    obtain ⟨hhead, htail⟩ := List.forall_mem_cons.mp h
    rw [HaveValues, ← hhead, ← ih htail, valuesOf]
    cases valueOf t <;> simp

theorem isSome_entriesOf {entries : List (Bytes × Tree)}
    (h : ∀ e ∈ entries, (valueOf e.2).isSome = true ↔ HasValue e.2) :
    (entriesOf entries).isSome = true ↔ EntriesHaveValues entries := by
  induction entries with
  | nil => simp [entriesOf, EntriesHaveValues]
  | cons e entries ih =>
    obtain ⟨key, t⟩ := e
    obtain ⟨hhead, htail⟩ := List.forall_mem_cons.mp h
    rw [EntriesHaveValues, ← hhead, ← ih htail, entriesOf]
    cases fromUtf8 key <;> cases valueOf t <;> simp

theorem isSome_valueOf (t : Tree) : (valueOf t).isSome = true ↔ HasValue t := by
  induction t using Tree.induct with
  | integer i =>
    rw [valueOf, HasValue]
    split_ifs with h <;> simp [h]
  | string bytes => simp [valueOf, HasValue]
  | list items ih => rw [valueOf, HasValue, Option.isSome_map, isSome_valuesOf ih]
  | dict entries ih => rw [valueOf, HasValue, Option.isSome_map, isSome_entriesOf ih]

theorem entriesHaveValues_iff {es : Entries} :
    EntriesHaveValues es ↔ ∀ e ∈ es, (fromUtf8 e.1).isSome = true ∧ HasValue e.2 := by
  induction es with
  | nil => simp [EntriesHaveValues]
  | cons e es ih => rw [EntriesHaveValues, ih, List.forall_mem_cons, and_assoc]

/-- Piece hashes that are not text, as the value of a text is no byte string. -/
def binaryHashesOf (t : Tree) : Option (List Sha1) :=
  if textOf t = none then hashesOf t else none

/-- The piece hashes of the info are not text. -/
def BinaryPieces : Tree → Prop :=
  DictIs (FieldIs "info" (DictIs (FieldIs "pieces" fun t => textOf t = none)))

theorem narrows_binaryHashesOf (t : Tree) :
    Narrows (binaryHashesOf t) (hashesOf t) (textOf t = none) := by
  intro hashes
  rw [binaryHashesOf]
  split_ifs with h <;> simp [h]

theorem toOption_bind (x : Except ε α) (f : α → Except ε β) :
    (x >>= f).toOption = x.toOption.bind fun a => (f a).toOption := by
  cases x <;> rfl

theorem toOption_eq_some {x : Except ε α} {a : α} : x.toOption = some a ↔ x = .ok a := by
  cases x <;> simp [Except.toOption]

/-- A type reads the value of a tree as the tree is described. -/
def Matches (fromValue : Value → Except DecodeError α) (dec : Tree → Option α) : Prop :=
  ∀ t v, t.Sorted → valueOf t = some v → (fromValue v).toOption = dec t

/-- The value of a tree is of its kind. -/
theorem valueOf_cases {t : Tree} {v : Value} (h : valueOf t = some v) :
    (∃ i, t = .integer i ∧ v = .integer (Int64.ofInt i)) ∨
    (∃ bytes, t = .string bytes ∧ v = stringValue bytes) ∨
    (∃ items vs, t = .list items ∧ valuesOf items = some vs ∧ v = .list vs) ∨
    ∃ entries map, t = .dict entries ∧ v = .dict map := by
  cases t with
  | integer i =>
    rw [valueOf] at h
    split_ifs at h
    cases h
    exact Or.inl ⟨i, rfl, rfl⟩
  | string bytes =>
    cases h
    exact Or.inr (Or.inl ⟨bytes, rfl, rfl⟩)
  | list items =>
    obtain ⟨vs, hvs, rfl⟩ := Option.map_eq_some_iff.mp h
    exact Or.inr (Or.inr (Or.inl ⟨items, vs, rfl, hvs, rfl⟩))
  | dict entries =>
    obtain ⟨es, -, rfl⟩ := Option.map_eq_some_iff.mp h
    exact Or.inr (Or.inr (Or.inr ⟨entries, _, rfl, rfl⟩))

theorem matches_toString : Matches Value.toString textOf := by
  intro t v _ hv
  rcases valueOf_cases hv with ⟨i, rfl, rfl⟩ | ⟨bytes, rfl, rfl⟩ | ⟨items, vs, rfl, -, rfl⟩ |
    ⟨entries, map, rfl, rfl⟩
  · rfl
  · rw [stringValue, textOf]
    cases hs : fromUtf8 bytes with
    | none =>
      rw [Value.toString, hs]
      rfl
    | some s => rfl
  · rfl
  · rfl

theorem toUInt64_ofInt (i : ℤ) : (Int64.ofInt i).toUInt64 = UInt64.ofInt i := by
  apply UInt64.toNat_inj.mp
  have hbits : (Int64.ofInt i).toUInt64.toNat = (i % (2 ^ 64 : ℕ)).toNat := BitVec.toNat_ofInt i
  have hnonneg := Int.emod_nonneg i (show ((2 : ℤ) ^ 64) ≠ 0 by decide)
  have hlt := Int.emod_lt_of_pos i (show (0 : ℤ) < 2 ^ 64 by decide)
  rw [hbits, UInt64.ofInt, UInt64.toNat_ofNat', Nat.mod_eq_of_lt (by omega)]
  rfl

theorem matches_toUInt64 (ty : IntegerType) : Matches Value.toUInt64 (numberOf ty) := by
  intro t v _ hv
  rcases valueOf_cases hv with ⟨i, rfl, rfl⟩ | ⟨bytes, rfl, rfl⟩ | ⟨items, vs, rfl, -, rfl⟩ |
    ⟨entries, map, rfl, rfl⟩
  · rw [Value.toUInt64, toUInt64_ofInt]
    rfl
  · rw [stringValue]
    cases fromUtf8 bytes <;> rfl
  · rfl
  · rfl

theorem matches_toSha1List : Matches Value.toSha1List binaryHashesOf := by
  intro t v _ hv
  rcases valueOf_cases hv with ⟨i, rfl, rfl⟩ | ⟨bytes, rfl, rfl⟩ | ⟨items, vs, rfl, -, rfl⟩ |
    ⟨entries, map, rfl, rfl⟩
  · rfl
  · rw [stringValue, binaryHashesOf, textOf]
    cases fromUtf8 bytes <;> rfl
  · rfl
  · rfl

variable {fromValue : Value → Except DecodeError α} {dec : Tree → Option α}

theorem Matches.mapM (h : Matches fromValue dec) {items : List Tree} {vs : List Value}
    (hs : SortedItems items) (hv : valuesOf items = some vs) :
    (vs.mapM fromValue).toOption = items.mapM dec := by
  induction items generalizing vs with
  | nil =>
    cases hv
    rfl
  | cons t items ih =>
    rw [valuesOf, Option.bind_eq_some_iff] at hv
    obtain ⟨v, hhead, hv⟩ := hv
    obtain ⟨vs, hrest, rfl⟩ := Option.map_eq_some_iff.mp hv
    rw [List.mapM_cons, List.mapM_cons, toOption_bind, h t v hs.1 hhead]
    simp only [toOption_bind, ih hs.2 hrest]
    rfl

theorem Matches.toList (h : Matches fromValue dec) :
    Matches (Value.toList fromValue) (listOf dec) := by
  intro t v hs hv
  rcases valueOf_cases hv with ⟨i, rfl, rfl⟩ | ⟨bytes, rfl, rfl⟩ | ⟨items, vs, rfl, hvs, rfl⟩ |
    ⟨entries, map, rfl, rfl⟩
  · rfl
  · rw [stringValue]
    cases fromUtf8 bytes <;> rfl
  · exact h.mapM hs hvs
  · rfl

/-- A type whose fields are read from a dictionary, the first one with an error elsewhere. -/
theorem matches_dictOf {fields : Entries → Option α}
    (hother : ∀ v, (∀ map, v ≠ .dict map) → (fromValue v).toOption = none)
    (h : ∀ es map, (Tree.dict es).Sorted → valueOf (.dict es) = some (.dict map) →
      (fromValue (.dict map)).toOption = fields es) : Matches fromValue (dictOf fields) := by
  intro t v hs hv
  rcases valueOf_cases hv with ⟨i, rfl, rfl⟩ | ⟨bytes, rfl, rfl⟩ | ⟨items, vs, rfl, -, rfl⟩ |
    ⟨entries, map, rfl, rfl⟩
  · refine hother _ ?_
    rintro map ⟨⟩
  · refine hother _ ?_
    rw [stringValue]
    cases fromUtf8 bytes <;> rintro map ⟨⟩
  · refine hother _ ?_
    rintro map ⟨⟩
  · exact h entries map hs hv

section Fields

variable {es : Entries} {map : List (String × Value)}

/-- What the map of a tree finds under a key, and its value. -/
theorem lookup_map_of_valueOf (hs : (Tree.dict es).Sorted)
    (hv : valueOf (.dict es) = some (.dict map)) (key : String) :
    (es.lookup (asBytes key) = none ∧ map.lookup key = none) ∨
      ∃ t v, es.lookup (asBytes key) = some t ∧ map.lookup key = some v ∧ t.Sorted ∧
        valueOf t = some v := by
  obtain ⟨map', heq, hmap⟩ := lookup_of_valueOf hs hv
  cases heq
  rw [hmap]
  cases ht : es.lookup (asBytes key) with
  | none => exact Or.inl ⟨rfl, rfl⟩
  | some t =>
    have hmem := OrderedEntries.mem_of_lookup ht
    have hhas : HasValue (.dict es) := (isSome_valueOf _).mp (Option.isSome_iff_exists.mpr ⟨_, hv⟩)
    rw [HasValue] at hhas
    obtain ⟨v, hv⟩ := Option.isSome_iff_exists.mp
      ((isSome_valueOf t).mpr (entriesHaveValues_iff.mp hhas _ hmem).2)
    exact Or.inr ⟨t, v, rfl, hv, sortedEntries_iff.mp hs.2 _ hmem, hv⟩

variable (hs : (Tree.dict es).Sorted) (hv : valueOf (.dict es) = some (.dict map))
include hs hv

theorem Matches.getField (h : Matches fromValue dec) (key : String) :
    ((Value.dict map).getField fromValue key).toOption = requiredField dec key es := by
  rw [Value.getField, requiredField]
  rcases lookup_map_of_valueOf hs hv key with ⟨ht, hm⟩ | ⟨t, v, ht, hm, hst, hvt⟩
  · rw [ht, hm]
    rfl
  · rw [ht, hm]
    exact h t v hst hvt

theorem Matches.getOptionField (h : Matches fromValue dec) (key : String) :
    ((Value.dict map).getOptionField fromValue key).toOption = optionalField dec key es := by
  rw [Value.getOptionField, optionalField]
  rcases lookup_map_of_valueOf hs hv key with ⟨ht, hm⟩ | ⟨t, v, ht, hm, hst, hvt⟩
  · rw [ht, hm]
    rfl
  · rw [ht, hm]
    dsimp only
    rw [← h t v hst hvt]
    cases fromValue v <;> rfl

end Fields

theorem matches_fileInfo : Matches FileInfo.fromValue fileOf := by
  refine matches_dictOf (fun v hv => ?_) fun es map hs hv => ?_
  · cases v with
    | dict map => exact absurd rfl (hv map)
    | _ => rfl
  · rw [FileInfo.fromValue, fileFields, toOption_bind, (matches_toUInt64 .u64).getField hs hv]
    simp only [toOption_bind, matches_toString.getOptionField hs hv,
      matches_toString.toList.getField hs hv]
    rfl

theorem matches_info : Matches Info.fromValue (dictOf (infoFields numberOf binaryHashesOf fileOf)) := by
  refine matches_dictOf (fun v hv => ?_) fun es map hs hv => ?_
  · cases v with
    | dict map => exact absurd rfl (hv map)
    | _ => rfl
  · rw [Info.fromValue, infoFields, Value.getOptionValue, ok_bind]
    rcases lookup_map_of_valueOf hs hv "files" with ⟨ht, hm⟩ | ⟨t, v, ht, hm, -, -⟩
    · rw [ht, hm]
      simp only [toOption_bind, (matches_toUInt64 .u64).getField hs hv "length",
        (matches_toUInt64 .usize).getField hs hv "piece length",
        matches_toString.getOptionField hs hv, matches_toString.getField hs hv,
        matches_toSha1List.getField hs hv]
      rfl
    · rw [ht, hm]
      simp only [toOption_bind, (matches_toUInt64 .usize).getField hs hv,
        matches_fileInfo.toList.getField hs hv, matches_toString.getField hs hv,
        matches_toSha1List.getField hs hv]
      rfl

theorem matches_torrent : Matches TorrentMetaInfo.fromValue
    (dictOf (torrentFields tiersOf (dictOf (infoFields numberOf binaryHashesOf fileOf)))) := by
  refine matches_dictOf (fun v hv => ?_) fun es map hs hv => ?_
  · cases v with
    | dict map => exact absurd rfl (hv map)
    | _ => rfl
  · rw [TorrentMetaInfo.fromValue, torrentFields, frontFields, tiersOf, toOption_bind,
      matches_info.getField hs hv]
    simp only [toOption_bind, matches_toString.getOptionField hs hv,
      matches_toString.toList.toList.getOptionField hs hv]
    cases requiredField (dictOf (infoFields numberOf binaryHashesOf fileOf)) "info" es with
    | none => simp
    | some info => simp [Option.bind_assoc, Except.toOption, pure, Except.pure]

/-- What `from_value` makes of the value of a tree: the torrent that the tree describes, unless
its piece hashes are text. -/
theorem fromValue_eq_ok {t : Tree} {v : Value} (hs : t.Sorted) (hv : valueOf t = some v)
    (m : TorrentMetaInfo) :
    TorrentMetaInfo.fromValue v = .ok m ↔ torrentOf t = some m ∧ BinaryPieces t := by
  rw [← toOption_eq_some, matches_torrent t v hs hv]
  have hinfo : ∀ t, Narrows (dictOf (infoFields numberOf binaryHashesOf fileOf) t) (infoOf t)
      (DictIs (FieldIs "pieces" fun t => textOf t = none) t) := by
    intro t
    refine narrows_dictOf fun es _ => ?_
    have hnumber : ∀ ty t, Narrows (numberOf ty t) (numberOf ty t) True := fun ty t =>
      Narrows.refl _
    have hfile : ∀ items, es.lookup (asBytes "files") = some (.list items) →
      ∀ t ∈ items, Narrows (fileOf t) (fileOf t) True := fun items _ t _ => Narrows.refl _
    refine (narrows_infoFields hnumber narrows_binaryHashesOf hfile).congr ?_
    constructor
    · exact InfoIs.pieces
    · intro hpieces
      refine ⟨fun _ _ _ => trivial, fun t _ => ?_, fun _ _ => trivial, hpieces⟩
      cases t <;> simp [ItemsAre]
  refine narrows_dictOf (fun es _ => ?_) m
  refine Narrows.bind_right fun front => ?_
  exact (Narrows.bind (Narrows.requiredField fun t _ => hinfo t) fun info => Narrows.refl _).congr
    (and_true _).to_iff

end TorrentClient
