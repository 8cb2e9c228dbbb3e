import TorrentClient.TypedDecoders

/-!
# Files that fail

What the decoders return of a tree can be said without running them, as long as they do not get to
an info whose files fail: only there a decoder goes on with the cursor where an error has left it.
Up to such an info every decoder stays in step with the input.
-/
namespace TorrentClient
open Bencode
open Decoder EntryReader

variable {n : ℕ} {t : Tree} {r : Bytes}

def integerOf (ty : IntegerType) : Tree → Option ℤ
  | .integer i => if ty.Contains i then some i else none
  | _ => none

namespace DecodeType

/-- What the decoder of the type reads of the tree, where it gets to no files that fail. -/
def ofTree : (T : DecodeType) → Tree → Option T.Carrier
  | integer ty => integerOf ty
  | string => textOf
  | sha1List => hashesOf
  | value => valueOf
  | fileInfo => structOf fileReader
  | info => structOf infoReader
  | metaInfo => structOf torrentReader
  | list item => listOf item.ofTree

/-- The decoder of the type gets to an info whose files fail: the tree is one, or it is a torrent
with one behind fields that can be read, or a list with one behind items that can be read. -/
def MeetsFailingFiles : DecodeType → Tree → Prop
  | info, t => DictIs FilesFail t
  | metaInfo, t => DictIs MeetsInfoFilesFail t
  | list item, t => ∃ items u, t = .list items ∧ Reached item.ofTree items u ∧
      item.MeetsFailingFiles u
  | _, _ => False

/-- No info is part of the type. -/
def WithoutInfo : DecodeType → Prop
  | info | metaInfo => False
  | list item => item.WithoutInfo
  | _ => True

theorem WithoutInfo.not_meets {T : DecodeType} (h : T.WithoutInfo) (t : Tree) :
    ¬ T.MeetsFailingFiles t := by
  induction T generalizing t with
  | info => exact absurd h id
  | metaInfo => exact absurd h id
  | list item ih =>
    rintro ⟨items, u, -, -, hmeets⟩
    exact ih h u hmeets
  | _ => exact id

end DecodeType

theorem Reads.readIntegerOf (ty : IntegerType) (t : Tree) :
    Reads (Decoder.readInteger ty) t.print (integerOf ty t) := by
  cases t with
  | integer i => exact Reads.readInteger ty i
  | string bytes => exact Reads.expect_string bytes rfl
  | _ => exact Reads.expect_ne rfl (by decide)

/-- A tree with ascending keys is read, unless the decoder gets to files that fail. -/
theorem DecodeType.reads (T : DecodeType) (hs : t.Sorted) (hfiles : ¬ T.MeetsFailingFiles t) :
    Reads T.decode t.print (T.ofTree t) := by
  induction T generalizing t with
  | integer ty => exact Reads.readIntegerOf ty t
  | string => exact Reads.readText t
  | sha1List => exact Reads.readSha1List t
  | value => exact Reads.decode_tree t
  | fileInfo => exact reads_file hs
  | info => exact reads_info hs hfiles
  | metaInfo => exact reads_torrent hs hfiles
  | list item ih =>
    refine Reads.readListOfReached fun items heq u hu => ?_
    subst heq
    exact ih (sortedItems_iff.mp hs u hu.mem) fun hmeets => hfiles ⟨items, u, rfl, hu, hmeets⟩

/-- What is read of bytes is read to their end. -/
theorem Reads.end_eq {α : Type} {x : DecoderM α} {bytes : Bytes} {result : Option α}
    (h : Reads x bytes result) (hfit : Fits n (bytes ++ r)) {a : α} {d : Decoder}
    (hrun : x (Decoder.inFront n (bytes ++ r)) = .ok a d) : d = Decoder.inFront n r := by
  have hends := h.inFront hfit
  rw [hrun] at hends
  cases result with
  | none =>
    obtain ⟨e, d', hfail⟩ := hends
    cases hfail
  | some a' =>
    cases (show _ = _ from hends)
    rfl

/-- The decoders of all types stay in step with the input unless they get to an info whose files
fail, and those of the types without an info never do. -/
theorem in_step_without_failing_files (T : DecodeType) (hs : t.Sorted)
    (hfit : Fits n (t.print ++ r)) :
    (¬ T.MeetsFailingFiles t → ∀ a d, T.decode (inFront n (t.print ++ r)) = .ok a d →
      d = inFront n r) ∧ (T.WithoutInfo → ¬ T.MeetsFailingFiles t) :=
  ⟨fun hfiles _ _ hrun => (T.reads hs hfiles).end_eq hfit hrun, fun h => h.not_meets t⟩

/-- A torrent in front of another byte is read to its end. -/
theorem in_step_without_failing_files_oneTier :
    ∃ m d, TorrentMetaInfo.decode (inFront 200 ((singleTorrent oneTier).print ++ [120])) = .ok m d ∧
      d = inFront 200 [120] := by
  have hfit : Fits 200 ((singleTorrent oneTier).print ++ [120]) := ⟨by decide +kernel, by decide⟩
  have hfiles := singleTorrent_files sorted_oneTier
  obtain ⟨m, d, hrun⟩ :
      ∃ m d, TorrentMetaInfo.decode (inFront 200 ((singleTorrent oneTier).print ++ [120])) =
        .ok m d := by
    have hread : (structOf torrentReader (singleTorrent oneTier)).isSome = true := by
      decide +kernel
    obtain ⟨m, hm⟩ := Option.isSome_iff_exists.mp hread
    have hends := (reads_torrent sorted_oneTier hfiles).inFront hfit
    rw [hm] at hends
    exact ⟨m, _, hends⟩
  exact ⟨m, d, hrun, (in_step_without_failing_files .metaInfo sorted_oneTier hfit).1 hfiles m d hrun⟩

/-- The fields of a single file as the files of an info. -/
def nestedInfo : Tree :=
  .dict [(asBytes "files", .dict [(asBytes "length", .integer 1), (asBytes "name", .string [97]),
    (asBytes "piece length", .integer 1), (asBytes "pieces", .string [])])]

theorem sorted_nestedInfo : nestedInfo.Sorted := by
  refine ⟨List.pairwise_singleton _ _, ⟨?_, trivial, trivial, trivial, trivial, trivial⟩, trivial⟩
  decide

theorem exists_of_end {result : EStateM.Result (Fault DecodeError) Decoder α} {d : Decoder}
    (h : (match result with | .ok _ d' => decide (d' = d) | .error _ _ => false) = true) :
    ∃ a, result = .ok a d := by
  cases result with
  | ok a d' => exact ⟨a, by rw [of_decide_eq_true h]⟩
  | error e d' => cases h

/-- The info is read from within the files, and the cursor stays in front of its end. -/
theorem nested_info_loses_input : nestedInfo.Sorted ∧
    ∃ info, Info.decode (Decoder.new nestedInfo.print) =
      .ok info ⟨nestedInfo.print.length - 1, [101]⟩ :=
  ⟨sorted_nestedInfo, exists_of_end (by decide +kernel)⟩

end TorrentClient
