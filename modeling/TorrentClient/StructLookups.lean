import TorrentClient.StructReads

/-!
# Structs as lookups

Fields that are asked for in ascending order are found as a lookup in the dictionary finds them,
whichever other keys are there. A dictionary that the encoder has written is the case in point:
its keys are valid UTF-8, and each of its values is read.
-/
namespace TorrentClient
open Bencode
open Decoder EntryReader
open OrderedEntries (Ascending)

variable {α : Type}

/-- A field that the body of a struct asks for. -/
structure Request where
  name : String
  /-- asked for with `read_option` -/
  optional : Bool
  deriving DecidableEq

namespace Request

def read (decode : DecoderM α) (q : Request) : DecoderM (Option α) :=
  if q.optional then readOption decode q.name
  else do return some (← readField decode q.name)

/-- The request on the entries of a dictionary. -/
def take (dec : Tree → Option α) (q : Request) : EntryReader (Option α) :=
  if q.optional then takeOption dec q.name
  else do return some (← takeField dec q.name)

end Request

namespace Simulates

variable {decode : DecoderM α} {dec : Tree → Option α}

theorem request (hmissing : NoMissing decode)
    (hdec : ∀ t : Tree, t.Sorted → Reads decode t.print (dec t)) (q : Request) :
    Simulates (q.read decode) (q.take dec) := by
  rw [Request.read, Request.take]
  split_ifs
  · exact readOption hmissing hdec
  · exact (readField hdec).bind fun a => pure (some a)

theorem requests (hmissing : NoMissing decode)
    (hdec : ∀ t : Tree, t.Sorted → Reads decode t.print (dec t)) (qs : List Request) :
    Simulates (qs.mapM (Request.read decode)) (qs.mapM (Request.take dec)) := by
  induction qs with
  | nil => exact pure []
  | cons q qs ih =>
    rw [List.mapM_cons, List.mapM_cons]
    refine (request hmissing hdec q).bind fun a => ?_
    exact ih.bind fun as => pure (a :: as)

end Simulates

/-- Among valid keys the search finds what a lookup finds. -/
theorem locate_of_valid {es : Entries} (hs : Ascending (· < ·) es)
    (hvalid : ∀ e ∈ es, (fromUtf8 e.1).isSome = true) (name : String) :
    locate name es = Located.ofLookup (behind name es) (es.lookup (asBytes name)) := by
  cases hlookup : es.lookup (asBytes name) with
  | some t =>
    have hmem := OrderedEntries.mem_of_lookup hlookup
    have hreadable : ReadableTo name es := ⟨⟨t, hmem⟩, fun e he _ => hvalid e he⟩
    rw [locate_of_readable hs hreadable (Or.inl rfl), hlookup]
  | none =>
    cases hl : locate name es with
    | found t rest =>
      have hmem := (passed_of_locate hl).2
      cases (OrderedEntries.Ascending.lookup_of_mem hs hmem).symm.trans hlookup
    | missing => rfl
    | invalid => exact absurd hl (locate_ne_invalid hvalid name)

/-- Requests in ascending order find what lookups find. -/
theorem take_requests {dec : Tree → Option α} {qs : List Request} {es : Entries}
    (hs : Ascending (· < ·) es) (hvalid : ∀ e ∈ es, (fromUtf8 e.1).isSome = true)
    (hdec : ∀ e ∈ es, (dec e.2).isSome = true)
    (hqs : qs.Pairwise fun q q' => keyLt q.name q'.name)
    (hthere : ∀ q ∈ qs, q.optional = false → (es.lookup (asBytes q.name)).isSome = true) :
    ∃ rest, qs.mapM (Request.take dec) es =
      some (qs.map fun q => (es.lookup (asBytes q.name)).bind dec, rest) := by
  induction qs generalizing es with
  | nil => exact ⟨es, rfl⟩
  | cons q qs ih =>
    obtain ⟨hbelow, hqs⟩ := List.pairwise_cons.mp hqs
    obtain ⟨hq, hthere⟩ := List.forall_mem_cons.mp hthere
    have hl := locate_of_valid hs hvalid q.name
    rw [List.mapM_cons, List.map_cons]
    cases hlookup : es.lookup (asBytes q.name) with
    | some t =>
      rw [hlookup] at hl
      obtain ⟨a, ha⟩ : ∃ a, dec t = some a :=
        Option.isSome_iff_exists.mp (hdec _ (OrderedEntries.mem_of_lookup hlookup))
      have hmem : ∀ e ∈ behind q.name es, e ∈ es := fun e he => (List.mem_filter.mp he).1
      have hlater : ∀ q' ∈ qs, (behind q.name es).lookup (asBytes q'.name) =
          es.lookup (asBytes q'.name) := fun q' hq' => lookup_behind (hbelow q' hq') es
      obtain ⟨rest, hrest⟩ := ih (ascending_behind hs) (fun e he => hvalid e (hmem e he))
        (fun e he => hdec e (hmem e he)) hqs fun q' hq' h => by
          rw [hlater q' hq']
          exact hthere q' hq' h
      have htake : q.take dec es = some (some a, behind q.name es) := by
        rw [Request.take]
        split_ifs
        · rw [takeOption, hl]
          exact congrArg (Option.map fun a => (some a, behind q.name es)) ha
        · have hfield : takeField dec q.name es = some (a, behind q.name es) := by
            rw [takeField, hl]
            exact congrArg (Option.map fun a => (a, behind q.name es)) ha
          rw [run_bind, hfield]
          rfl
      refine ⟨rest, ?_⟩
      rw [run_bind, htake, Option.bind_some, run_bind, hrest, Option.bind_some, Option.bind_some, ha,
        List.map_congr_left fun q' hq' => by rw [hlater q' hq']]
      rfl
    | none =>
      rw [hlookup] at hl
      have hoptional : q.optional = true := by
        by_contra hrequired
        have hsome := hq (Bool.eq_false_of_not_eq_true hrequired)
        rw [hlookup] at hsome
        cases hsome
      obtain ⟨rest, hrest⟩ := ih hs hvalid hdec hqs hthere
      have htake : q.take dec es = some (none, es) := by
        rw [Request.take, if_pos hoptional, takeOption, hl]
        rfl
      refine ⟨rest, ?_⟩
      rw [run_bind, htake, Option.bind_some, run_bind, hrest]
      rfl

theorem treeValues_readable {map : List (String × Value)} (hmap : OrderedValues map) :
    ∀ e ∈ treeValues map, (fromUtf8 e.1).isSome = true ∧ (valueOf e.2).isSome = true := by
  rw [treeValues_eq_map]
  intro e he
  obtain ⟨entry, hentry, rfl⟩ := List.mem_map.mp he
  rw [fromUtf8_asBytes, valueOf_toTree (hmap.of_mem hentry)]
  exact ⟨rfl, rfl⟩

theorem lookup_valueOf {map : List (String × Value)} (hmap : OrderedValues map) (name : String) :
    ((treeValues map).lookup (asBytes name)).bind valueOf = (map.lookup name).map Value.norm := by
  rw [lookup_treeValues]
  cases hv : map.lookup name with
  | none => rfl
  | some v => exact valueOf_toTree (hmap.of_mem (OrderedEntries.mem_of_lookup hv))

/-- Requests for values of an encoded dictionary are answered as by lookups, and the struct ends
where the dictionary does. -/
theorem readStruct_lookups {map : List (String × Value)} (hmap : (Value.dict map).Ordered)
    {qs : List Request} (hqs : qs.Pairwise fun q q' => keyLt q.name q'.name)
    (hthere : ∀ q ∈ qs, q.optional = false → (map.lookup q.name).isSome = true) {p : ℕ}
    {rest : Bytes} (hlt : p + ((Value.dict map).encoded ++ rest).length < 2 ^ 64) :
    readStruct (qs.mapM (Request.read Value.decode)) ⟨p, (Value.dict map).encoded ++ rest⟩ =
      .ok (qs.map fun q => (map.lookup q.name).map Value.norm)
        ⟨p + (Value.dict map).encoded.length, rest⟩ := by
  obtain ⟨hs, hvalues⟩ := hmap.toTree_sorted
  have hreadable := treeValues_readable hmap.2
  have hthere' : ∀ q ∈ qs, q.optional = false →
      ((treeValues map).lookup (asBytes q.name)).isSome = true := by
    intro q hq h
    rw [lookup_treeValues, Option.isSome_map]
    exact hthere q hq h
  obtain ⟨es, htake⟩ := take_requests hs (fun e he => (hreadable e he).1)
    (fun e he => (hreadable e he).2) hqs hthere'
  have hread := Reads.readStruct_dict
    (Simulates.requests NoMissing.decodeValue (fun t _ => Reads.decode_tree t) qs _ ⟨hs, hvalues⟩)
  have hanswers : (qs.map fun q => ((treeValues map).lookup (asBytes q.name)).bind valueOf) =
      qs.map fun q => (map.lookup q.name).map Value.norm :=
    List.map_congr_left fun q _ => lookup_valueOf hmap.2 q.name
  rw [htake, hanswers] at hread
  rw [Value.encoded_eq] at hlt ⊢
  exact hread p rest hlt

def threeEntries : List (String × Value) :=
  [("a", .dict [("c", .integer 1)]), ("b", .bytes [120]), ("d", .list [])]

theorem readStruct_lookups_three :
    readStruct ([⟨"b", true⟩, ⟨"c", true⟩, ⟨"d", false⟩].mapM (Request.read Value.decode))
        ⟨5, (Value.dict threeEntries).encoded ++ [255]⟩ =
      .ok [some (.string "x"), none, some (.list [])] ⟨29, [255]⟩ := by
  have hordered : (Value.dict threeEntries).Ordered := by
    refine ⟨?_, ⟨?_, trivial, trivial⟩, trivial, trivial, trivial⟩
    · simp only [threeEntries, Ascending]
      decide +kernel
    · exact List.pairwise_singleton _ _
  have hthere : ∀ q ∈ ([⟨"b", true⟩, ⟨"c", true⟩, ⟨"d", false⟩] : List Request),
      q.optional = false → (threeEntries.lookup q.name).isSome = true := by decide +kernel
  have hlt : 5 + ((Value.dict threeEntries).encoded ++ [255]).length < 2 ^ 64 := by decide +kernel
  have hread := readStruct_lookups hordered (by decide +kernel) hthere hlt
  have hlen : (Value.dict threeEntries).encoded.length = 24 := by decide +kernel
  have hx : fromUtf8 [120] = some "x" := by decide +kernel
  rw [hread, hlen]
  simp [threeEntries, List.lookup_cons, Value.norm, normItems, stringValue, hx]

end TorrentClient
