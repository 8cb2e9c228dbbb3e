import TorrentClient.FieldLookups
import TorrentClient.MetaInfo

/-!
# Torrent metadata in a tree

What a bencoded tree describes as a torrent, going by the names and the types of its fields.
Numbers count modulo 2^64 and piece hashes may be any bytes. A decoder that is stricter about
the fields describes the same where they satisfy its conditions.
-/
namespace TorrentClient
open Bencode

variable {α : Type}

def textOf : Tree → Option String
  | .string bytes => fromUtf8 bytes
  | _ => none

/-- A number of any type. -/
def numberOf (_ : IntegerType) : Tree → Option UInt64
  | .integer i => some (UInt64.ofInt i)
  | _ => none

def hashesOf : Tree → Option (List Sha1)
  | .string bytes => some (Sha1.sha1List bytes)
  | _ => none

def listOf (dec : Tree → Option α) : Tree → Option (List α)
  | .list items => items.mapM dec
  | _ => none

def fileFields (number : IntegerType → Tree → Option UInt64) (es : Entries) :
    Option FileInfo := do
  let length ← requiredField (number .u64) "length" es
  let md5sum ← optionalField textOf "md5sum" es
  let path ← requiredField (listOf textOf) "path" es
  return ⟨length, md5sum, path⟩

def singleFields (number : IntegerType → Tree → Option UInt64)
    (hashes : Tree → Option (List Sha1)) (es : Entries) : Option Info := do
  let length ← requiredField (number .u64) "length" es
  let md5sum ← optionalField textOf "md5sum" es
  let name ← requiredField textOf "name" es
  let pieceLength ← requiredField (number .usize) "piece length" es
  let pieces ← requiredField hashes "pieces" es
  return .single ⟨length, md5sum, name, pieceLength, pieces⟩

def multiFields (number : IntegerType → Tree → Option UInt64)
    (hashes : Tree → Option (List Sha1)) (file : Tree → Option FileInfo) (es : Entries) : Option Info := do
  let files ← requiredField (listOf file) "files" es
  let name ← requiredField textOf "name" es
  let pieceLength ← requiredField (number .usize) "piece length" es
  let pieces ← requiredField hashes "pieces" es
  return .multi ⟨files, name, pieceLength, pieces⟩

/-- The files decide between the two kinds. -/
def infoFields (number : IntegerType → Tree → Option UInt64)
    (hashes : Tree → Option (List Sha1)) (file : Tree → Option FileInfo) (es : Entries) : Option Info :=
  match es.lookup (asBytes "files") with
  | none => singleFields number hashes es
  | some _ => multiFields number hashes file es

/-- The optional fields of a torrent, which an info completes. -/
def frontFields (tiers : Entries → Option (Option (List (List String)))) (es : Entries) :
    Option (Info → TorrentMetaInfo) := do
  let announce ← optionalField textOf "announce" es
  let announceList ← tiers es
  let comment ← optionalField textOf "comment" es
  let createdBy ← optionalField textOf "created by" es
  let encoding ← optionalField textOf "encoding" es
  return fun info => ⟨info, announce, announceList, none, comment, createdBy, encoding⟩

def torrentFields (tiers : Entries → Option (Option (List (List String))))
    (info : Tree → Option Info) (es : Entries) : Option TorrentMetaInfo := do
  let front ← frontFields tiers es
  let info ← requiredField info "info" es
  return front info

def tiersOf (es : Entries) : Option (Option (List (List String))) :=
  optionalField (listOf (listOf textOf)) "announce-list" es

def fileOf : Tree → Option FileInfo := dictOf (fileFields numberOf)

def infoOf : Tree → Option Info := dictOf (infoFields numberOf hashesOf fileOf)

/-- The torrent that a tree describes, where it has the required fields and every field is of
its type. -/
def torrentOf : Tree → Option TorrentMetaInfo := dictOf (torrentFields tiersOf infoOf)

/-- Where the field is there, its value satisfies the condition. -/
def FieldIs (name : String) (p : Tree → Prop) (es : Entries) : Prop :=
  ∀ t, es.lookup (asBytes name) = some t → p t

/-- A condition on the items, where the tree is a list. -/
def ItemsAre (p : Tree → Prop) : Tree → Prop
  | .list items => ∀ t ∈ items, p t
  | _ => True

/-- The tree is a dictionary with such entries. -/
def DictIs (p : Entries → Prop) : Tree → Prop
  | .dict es => p es
  | _ => False

/-- Conditions on the fields of an info that are read: the length counts where there are no
files. -/
structure InfoIs (number : IntegerType → Tree → Prop) (hashes file : Tree → Prop)
    (es : Entries) : Prop where
  length : es.lookup (asBytes "files") = none → FieldIs "length" (number .u64) es
  files : FieldIs "files" (ItemsAre file) es
  pieceLength : FieldIs "piece length" (number .usize) es
  pieces : FieldIs "pieces" hashes es

theorem narrows_listOf {dec dec' : Tree → Option α} {p : Tree → Prop} {t : Tree}
    (h : ∀ items, t = .list items → ∀ t' ∈ items, Narrows (dec' t') (dec t') (p t')) :
    Narrows (listOf dec' t) (listOf dec t) (ItemsAre p t) := by
  cases t with
  | list items => exact Narrows.mapM (h items rfl)
  | _ => exact fun _ => by simp [listOf, ItemsAre]

theorem narrows_dictOf {dec dec' : Entries → Option α} {p : Entries → Prop} {t : Tree}
    (h : ∀ es, t = .dict es → Narrows (dec' es) (dec es) (p es)) :
    Narrows (dictOf dec' t) (dictOf dec t) (DictIs p t) := by
  cases t with
  | dict es => exact h es rfl
  | _ => exact fun _ => by simp [dictOf, DictIs]

section Narrowed

variable {number number' : IntegerType → Tree → Option UInt64}
  {hashes hashes' : Tree → Option (List Sha1)} {file file' : Tree → Option FileInfo}
  {numberIs : IntegerType → Tree → Prop} {hashesAre fileIs : Tree → Prop} {es : Entries}
  (hnumber : ∀ ty t, Narrows (number' ty t) (number ty t) (numberIs ty t))

include hnumber

theorem narrows_fileFields :
    Narrows (fileFields number' es) (fileFields number es) (FieldIs "length" (numberIs .u64) es) := by
  refine (Narrows.bind (Narrows.requiredField fun t _ => hnumber .u64 t) fun length => ?_).congr
    (and_true _).to_iff
  exact Narrows.refl _

variable (hhashes : ∀ t, Narrows (hashes' t) (hashes t) (hashesAre t))

include hhashes

theorem narrows_pieces {f : UInt64 → List Sha1 → Info} :
    Narrows (do
      let pieceLength ← requiredField (number' .usize) "piece length" es
      let pieces ← requiredField hashes' "pieces" es
      return f pieceLength pieces) (do
      let pieceLength ← requiredField (number .usize) "piece length" es
      let pieces ← requiredField hashes "pieces" es
      return f pieceLength pieces)
      (FieldIs "piece length" (numberIs .usize) es ∧ FieldIs "pieces" hashesAre es) := by
  refine Narrows.bind (Narrows.requiredField fun t _ => hnumber .usize t) fun pieceLength => ?_
  refine (Narrows.bind (Narrows.requiredField fun t _ => hhashes t) fun pieces => ?_).congr
    (and_true _).to_iff
  exact Narrows.refl _

theorem narrows_infoFields
    (hfile : ∀ items, es.lookup (asBytes "files") = some (.list items) →
      ∀ t ∈ items, Narrows (file' t) (file t) (fileIs t)) :
    Narrows (infoFields number' hashes' file' es) (infoFields number hashes file es)
      (InfoIs numberIs hashesAre fileIs es) := by
  rw [infoFields, infoFields]
  cases hfiles : es.lookup (asBytes "files") with
  | none =>
    refine Narrows.congr (Narrows.bind (Narrows.requiredField fun t _ => hnumber .u64 t)
      fun length => Narrows.bind_right fun md5sum => Narrows.bind_right fun name =>
        narrows_pieces hnumber hhashes) ?_
    constructor
    · rintro ⟨hlength, hpieceLength, hpieces⟩
      refine ⟨fun _ => hlength, ?_, hpieceLength, hpieces⟩
      intro t ht
      cases hfiles.symm.trans ht
    · rintro ⟨hlength, -, hpieceLength, hpieces⟩
      exact ⟨hlength hfiles, hpieceLength, hpieces⟩
  | some files =>
    refine Narrows.congr (Narrows.bind (Narrows.requiredField fun t ht => narrows_listOf
      fun items heq => hfile items (heq ▸ ht)) fun files => Narrows.bind_right fun name =>
        narrows_pieces hnumber hhashes) ?_
    constructor
    · rintro ⟨hitems, hpieceLength, hpieces⟩
      refine ⟨fun h => ?_, hitems, hpieceLength, hpieces⟩
      cases hfiles.symm.trans h
    · rintro ⟨-, hitems, hpieceLength, hpieces⟩
      exact ⟨hitems, hpieceLength, hpieces⟩

end Narrowed

end TorrentClient
