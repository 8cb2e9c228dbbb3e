import TorrentClient.DecoderReads

/-!
# Decoding what was encoded

The decoder reads a printed tree as the value of the tree, and fails where the tree has
none: an integer out of range, or a key that is not valid UTF-8. The value of the tree that a
value stands for is the normalised value.
-/
namespace TorrentClient
open Bencode DecimalNumerals

def insertAll (map entries : List (String × Value)) : List (String × Value) :=
  entries.foldl (fun map e => OrderedEntries.insert keyLt e.1 e.2 map) map

mutual

def valueOf : Tree → Option Value
  | .integer i =>
    if IntegerType.i64.Contains i then some (.integer (Int64.ofInt i)) else none
  | .string bytes => some (stringValue bytes)
  | .list items => (valuesOf items).map .list
  | .dict entries => (entriesOf entries).map fun entries => .dict (insertAll [] entries)

def valuesOf : List Tree → Option (List Value)
  | [] => some []
  | t :: items => (valueOf t).bind fun v => (valuesOf items).map fun items => v :: items

def entriesOf : List (Bytes × Tree) → Option (List (String × Value))
  | [] => some []
  | (key, t) :: entries => (fromUtf8 key).bind fun key => (valueOf t).bind fun v =>
      (entriesOf entries).map fun entries => (key, v) :: entries

end

theorem valuesOf_eq_mapM (items : List Tree) : valuesOf items = items.mapM valueOf := by
  induction items with
  | nil => rfl
  | cons t items ih =>
    rw [valuesOf, ih, List.mapM_cons]
    simp only [Option.map_eq_bind]
    rfl

/-- A key and what is printed behind it. -/
def printPair {ι : Type} (print : ι → Bytes) (e : Bytes × ι) : Bytes := printString e.1 ++ print e.2

def readPair {ι : Type} (dec : ι → Option Value) (e : Bytes × ι) : Option (String × Value) :=
  (fromUtf8 e.1).bind fun key => (dec e.2).map fun v => (key, v)

theorem entriesOf_eq_mapM (entries : List (Bytes × Tree)) :
    entriesOf entries = entries.mapM (readPair valueOf) := by
  induction entries with
  | nil => rfl
  | cons e entries ih =>
    obtain ⟨key, t⟩ := e
    rw [entriesOf, ih, List.mapM_cons, readPair]
    cases fromUtf8 key with
    | none => rfl
    | some k => cases valueOf t <;> cases entries.mapM (readPair valueOf) <;> rfl

theorem insertAll_of_ascending {map entries : List (String × Value)}
    (h : OrderedEntries.Ascending keyLt (map ++ entries)) :
    insertAll map entries = map ++ entries := by
  induction entries generalizing map with
  | nil => exact (List.append_nil _).symm
  | cons e entries ih =>
    have hlast : ∀ e' ∈ map, keyLt e'.1 e.1 := fun e' he' =>
      (List.pairwise_append.mp h).2.2 e' he' e List.mem_cons_self
    rw [insertAll, List.foldl_cons, OrderedEntries.insert_of_forall_lt hlast]
    have hnext : OrderedEntries.Ascending keyLt ((map ++ [e]) ++ entries) := by
      rwa [List.append_assoc]
    exact (ih hnext).trans (List.append_assoc _ _ _)

/-- An item of a list that is got to: all items in front of it can be read. -/
def Reached {ι α : Type} (dec : ι → Option α) (items : List ι) (t : ι) : Prop :=
  ∃ before after, items = before ++ t :: after ∧ ∀ u ∈ before, dec u ≠ none

namespace Reached

variable {ι α : Type} {dec : ι → Option α} {items : List ι} {t u : ι}

theorem head (t : ι) (items : List ι) : Reached dec (t :: items) t :=
  ⟨[], items, rfl, List.forall_mem_nil _⟩

theorem behind (h : Reached dec items t) (hu : dec u ≠ none) : Reached dec (u :: items) t := by
  obtain ⟨before, after, rfl, hbefore⟩ := h
  exact ⟨u :: before, after, rfl, List.forall_mem_cons.mpr ⟨hu, hbefore⟩⟩

theorem mem (h : Reached dec items t) : t ∈ items := by
  obtain ⟨before, after, rfl, -⟩ := h
  exact List.mem_append_right before List.mem_cons_self

/-- It is the first item, or one behind a first item that can be read. -/
theorem cons_iff :
    Reached dec (u :: items) t ↔ t = u ∨ dec u ≠ none ∧ Reached dec items t := by
  constructor
  · rintro ⟨before, after, heq, hbefore⟩
    cases before with
    | nil => exact .inl (List.cons.inj heq).1.symm
    | cons v before =>
      obtain ⟨rfl, rfl⟩ := List.cons.inj heq
      obtain ⟨hu, hbefore⟩ := List.forall_mem_cons.mp hbefore
      exact .inr ⟨hu, before, after, rfl, hbefore⟩
  · rintro (rfl | ⟨hu, h⟩)
    · exact head t items
    · exact h.behind hu

end Reached

namespace Reads
open Decoder

variable {α β : Type} {decode : DecoderM Value}

section Loops

variable {ι : Type} {print : ι → Bytes}

/-- Things that are printed one after the other, none of which starts with the end marker. -/
theorem readListLoop {decode : DecoderM α} {dec : ι → Option α} {items : List ι}
    (h : ∀ t, Reached dec items t → Reads decode (print t) (dec t))
    (hhead : ∀ t ∈ items, ∃ b, (print t).head? = some b ∧ b ≠ 101) {fuel : ℕ}
    (hfuel : items.length < fuel) {f : List α → DecoderM β} {g : List α → Option β}
    (hf : ∀ list, Reads (f list) [101] (g list)) (list : List α) :
    Reads (do let list ← readListLoop decode fuel list; f list) ((items.map print).flatten ++ [101])
      ((items.mapM dec).bind fun as => g (list ++ as)) := by
  induction items generalizing fuel list with
  | nil =>
    cases fuel with
    | zero => cases hfuel
    | succ fuel =>
      rw [Decoder.readListLoop, bind_assoc]
      apply peekByte rfl
      simpa using hf list
  | cons t items ih =>
    cases fuel with
    | zero => cases hfuel
    | succ fuel =>
      have hread := h t (.head t items)
      obtain ⟨⟨b, hb, hne⟩, hhead⟩ := List.forall_mem_cons.mp hhead
      rw [Decoder.readListLoop, bind_assoc, List.map_cons, List.flatten_cons, List.append_assoc]
      apply peekByte (by rw [List.head?_append, hb]; rfl)
      rw [if_neg hne, bind_assoc, List.mapM_cons, Option.bind_eq_bind, Option.bind_assoc]
      apply hread.bind
      intro a ha
      have htail : ∀ u, Reached dec items u → Reads decode (print u) (dec u) := fun u hu =>
        h u (hu.behind (ha ▸ Option.some_ne_none a))
      have hrest := ih htail hhead (Nat.lt_of_succ_lt_succ hfuel) (list ++ [a])
      simpa [Option.bind_assoc] using hrest

theorem readDictLoop {dec : ι → Option Value} {entries : List (Bytes × ι)}
    (h : ∀ e ∈ entries, Reads decode (print e.2) (dec e.2)) {fuel : ℕ}
    (hfuel : entries.length < fuel) {f : List (String × Value) → DecoderM β}
    {g : List (String × Value) → Option β} (hf : ∀ map, Reads (f map) [101] (g map))
    (map : List (String × Value)) :
    Reads (do let map ← readDictLoop decode fuel map; f map)
      ((entries.map (printPair print)).flatten ++ [101])
      ((entries.mapM (readPair dec)).bind fun es => g (insertAll map es)) := by
  induction entries generalizing fuel map with
  | nil =>
    cases fuel with
    | zero => cases hfuel
    | succ fuel =>
      rw [Decoder.readDictLoop, bind_assoc]
      apply peekByte rfl
      simpa [insertAll] using hf map
  | cons e entries ih =>
    obtain ⟨key, t⟩ := e
    cases fuel with
    | zero => cases hfuel
    | succ fuel =>
      obtain ⟨hhead, htail⟩ := List.forall_mem_cons.mp h
      obtain ⟨b, hb, hne⟩ := head?_printString_ne key (c := 101) rfl
      rw [Decoder.readDictLoop, bind_assoc, List.map_cons, List.flatten_cons, printPair,
        List.append_assoc, List.append_assoc]
      apply peekByte (by rw [List.head?_append, hb]; rfl)
      rw [if_neg hne, bind_assoc, List.mapM_cons, Option.bind_eq_bind, Option.bind_assoc, readPair,
        Option.bind_assoc]
      apply (readStr key).bind
      intro k _
      rw [bind_assoc, Option.bind_map]
      apply hhead.bind
      intro v _
      have hrest := ih htail (Nat.lt_of_succ_lt_succ hfuel) (OrderedEntries.insert keyLt k v map)
      simpa [Option.bind_assoc, insertAll] using hrest

theorem readChunks {decode : DecoderM α} {dec : ι → Option α} {items : List ι}
    (h : ∀ t, Reached dec items t → Reads decode (print t) (dec t))
    (hhead : ∀ t ∈ items, ∃ b, (print t).head? = some b ∧ b ≠ 101) :
    Reads (Decoder.readList decode) (108 :: ((items.map print).flatten ++ [101]))
      (items.mapM dec) := by
  rw [Decoder.readList]
  apply expect_then
  apply get
  intro d hd
  have hsome : ∀ c ∈ items.map print, c ≠ [] := by
    refine List.forall_mem_map.mpr fun t ht hnil => ?_
    obtain ⟨b, hb, -⟩ := hhead t ht
    rw [hnil] at hb
    cases hb
  have hlen := length_le_flatten hsome
  rw [List.length_map] at hlen
  rw [List.length_append] at hd
  have hloop := readListLoop h hhead (show items.length < d.remaining + 1 by omega)
    (f := fun list => do Decoder.expect 101; return list) (g := some)
    (fun list => expect_then (pure list)) []
  simpa using hloop

theorem readPairs {dec : ι → Option Value} {entries : List (Bytes × ι)}
    (h : ∀ e ∈ entries, Reads decode (print e.2) (dec e.2)) :
    Reads (Decoder.readDict decode) (100 :: ((entries.map (printPair print)).flatten ++ [101]))
      ((entries.mapM (readPair dec)).map (insertAll [])) := by
  rw [Decoder.readDict]
  apply expect_then
  apply get
  intro d hd
  have hsome : ∀ c ∈ entries.map (printPair print), c ≠ [] := by
    refine List.forall_mem_map.mpr fun e _ hnil => ?_
    exact printString_ne_nil e.1 (List.append_eq_nil_iff.mp hnil).1
  have hlen := length_le_flatten hsome
  rw [List.length_map] at hlen
  rw [List.length_append] at hd
  rw [Option.map_eq_bind]
  exact readDictLoop h (show entries.length < d.remaining + 1 by omega)
    (f := fun map => do Decoder.expect 101; return map) (g := some)
    (fun map => expect_then (pure map)) []

end Loops

theorem readListReached {decode : DecoderM α} {dec : Tree → Option α} {items : List Tree}
    (h : ∀ t, Reached dec items t → Reads decode t.print (dec t)) :
    Reads (Decoder.readList decode) (108 :: (printItems items ++ [101])) (items.mapM dec) := by
  rw [printItems_eq_flatten]
  exact readChunks h fun t _ => t.head?_print

theorem readDict {entries : List (Bytes × Tree)}
    (h : ∀ e ∈ entries, Reads decode e.2.print (valueOf e.2)) :
    Reads (Decoder.readDict decode) (100 :: (printEntries entries ++ [101]))
      ((entriesOf entries).map (insertAll [])) := by
  rw [printEntries_eq_flatten, entriesOf_eq_mapM]
  exact readPairs h

theorem decodeString (bytes : Bytes) (depth : ℕ) :
    Reads (Value.decodeTo (depth + 1)) (printString bytes) (some (stringValue bytes)) := by
  obtain ⟨b, hb, hdigit⟩ := head?_printString bytes
  have hother : ¬ b = 100 ∧ ¬ b = 108 ∧ ¬ b = 105 := by
    refine ⟨?_, ?_, ?_⟩ <;> rintro rfl <;> cases hdigit
  rw [Value.decodeTo]
  apply peekByte hb
  rw [if_neg hother.1, if_neg hother.2.1, if_neg hother.2.2, if_pos hdigit]
  refine (readByteString bytes).andThen (g := fun bytes => some (stringValue bytes)) ?_
  intro bytes
  rw [stringValue]
  cases fromUtf8 bytes with
  | some s => exact pure _
  | none => exact pure _

/-- A tree is read as its value, at any depth that its print does not exceed. -/
theorem decodeTo (t : Tree) {depth : ℕ} (hdepth : t.print.length ≤ depth) :
    Reads (Value.decodeTo depth) t.print (valueOf t) := by
  induction t using Tree.induct generalizing depth with
  | integer i =>
    cases depth with
    | zero => cases hdepth
    | succ depth =>
      rw [Value.decodeTo, valueOf, Tree.print]
      apply peekByte rfl
      have hread := (readInteger .i64 i).map (g := fun n => Value.integer (Int64.ofInt n))
      rw [apply_ite (Option.map _)] at hread
      exact hread
  | string bytes =>
    cases depth with
    | zero => exact absurd (Tree.length_print_pos _) (Nat.not_lt.mpr hdepth)
    | succ depth =>
      rw [valueOf, Tree.print]
      exact decodeString bytes depth
  | list items ih =>
    cases depth with
    | zero => cases hdepth
    | succ depth =>
      rw [Value.decodeTo, valueOf, valuesOf_eq_mapM, Tree.print]
      rw [Tree.print, List.length_cons, List.length_append] at hdepth
      apply peekByte rfl
      have hitems : ∀ t ∈ items, Reads (Value.decodeTo depth) t.print (valueOf t) := by
        intro t ht
        have := length_print_le_items ht
        exact ih t ht (by omega)
      exact (readListReached fun t ht => hitems t ht.mem).map
  | dict entries ih =>
    cases depth with
    | zero => cases hdepth
    | succ depth =>
      rw [Value.decodeTo, valueOf, Tree.print]
      rw [Tree.print, List.length_cons, List.length_append] at hdepth
      apply peekByte rfl
      have hvalues : ∀ e ∈ entries, Reads (Value.decodeTo depth) e.2.print (valueOf e.2) := by
        intro e he
        have := length_print_le_entries he
        exact ih e he (by omega)
      have hread := (readDict hvalues).map (g := Value.dict)
      rwa [Option.map_map] at hread

theorem decode_tree (t : Tree) : Reads Value.decode t.print (valueOf t) := by
  rw [Value.decode]
  apply get
  intro d hd
  exact decodeTo t (Nat.le_succ_of_le hd)

end Reads

theorem contains_toInt (i : Int64) : IntegerType.i64.Contains i.toInt := by
  have hmin : IntegerType.i64.min = -2 ^ 63 := rfl
  have hmax : IntegerType.i64.max = 2 ^ 63 - 1 := rfl
  have hlo := i.le_toInt
  have hhi := i.toInt_lt
  rw [IntegerType.Contains, hmin, hmax]
  omega

theorem valuesOf_treeItems {items : List Value}
    (h : ∀ v ∈ items, v.Ordered → valueOf v.toTree = some v.norm) (ho : OrderedItems items) :
    valuesOf (treeItems items) = some (normItems items) := by
  induction items with
  | nil => rfl
  | cons v items ih =>
    obtain ⟨hhead, htail⟩ := List.forall_mem_cons.mp h
    rw [treeItems, valuesOf, hhead ho.1, ih htail ho.2]
    rfl

theorem entriesOf_treeValues {entries : List (String × Value)}
    (h : ∀ e ∈ entries, e.2.Ordered → valueOf e.2.toTree = some e.2.norm)
    (ho : OrderedValues entries) :
    entriesOf (treeValues entries) = some (normValues entries) := by
  induction entries with
  | nil => rfl
  | cons e entries ih =>
    obtain ⟨hhead, htail⟩ := List.forall_mem_cons.mp h
    rw [treeValues, entriesOf, fromUtf8_asBytes, hhead ho.1, ih htail ho.2]
    rfl

theorem map_fst_normValues (entries : List (String × Value)) :
    (normValues entries).map Prod.fst = entries.map Prod.fst := by
  induction entries with
  | nil => rfl
  | cons e entries ih => rw [normValues, List.map_cons, List.map_cons, ih]

theorem ascending_normValues {entries : List (String × Value)}
    (h : OrderedEntries.Ascending keyLt entries) :
    OrderedEntries.Ascending keyLt (normValues entries) := by
  rw [OrderedEntries.Ascending, ← List.pairwise_map (f := Prod.fst)] at *
  rwa [map_fst_normValues]

/-- The tree of a value is read as the normalised value. -/
theorem valueOf_toTree {v : Value} (h : v.Ordered) : valueOf v.toTree = some v.norm := by
  induction v using Value.induct with
  | integer i => rw [Value.toTree, valueOf, if_pos (contains_toInt i), Int64.ofInt_toInt, Value.norm]
  | bytes b => rw [Value.toTree, valueOf, Value.norm]
  | string s => rw [Value.toTree, valueOf, stringValue, fromUtf8_asBytes, Value.norm]
  | list items ih =>
    rw [Value.toTree, valueOf, valuesOf_treeItems ih h, Value.norm]
    rfl
  | dict entries ih =>
    rw [Value.toTree, valueOf, entriesOf_treeValues ih h.2, Option.map_some,
      insertAll_of_ascending (ascending_normValues h.1), List.nil_append, Value.norm]

/-- Decoding what the encoder wrote gives the normalised value and stops behind it. -/
theorem decode_encoded {v : Value} (hv : v.Ordered) (rest : Bytes)
    (hlen : (v.encoded ++ rest).length < 2 ^ 64) :
    Value.decode (Decoder.new (v.encoded ++ rest)) = .ok v.norm ⟨v.encoded.length, rest⟩ := by
  have hread := Reads.decode_tree v.toTree 0 rest
  rw [valueOf_toTree hv, ← v.encoded_eq, Nat.zero_add, Nat.zero_add] at hread
  exact hread hlen

/-- A dictionary with a list, and a byte string that is not valid UTF-8. -/
def nestedValue : Value :=
  .dict [("a", .list [.integer (-7), .bytes [255]]), ("b", .bytes [120])]

theorem decode_encoded_nested :
    Value.decode (Decoder.new (nestedValue.encoded ++ [101])) =
      .ok nestedValue.norm ⟨nestedValue.encoded.length, [101]⟩ := by
  have hkeys : OrderedEntries.Ascending keyLt
      [("a", Value.list [.integer (-7), .bytes [255]]), ("b", .bytes [120])] := by
    refine List.pairwise_pair.mpr ?_
    decide
  have hordered : nestedValue.Ordered :=
    ⟨hkeys, ⟨trivial, trivial, trivial⟩, trivial, trivial⟩
  exact decode_encoded hordered [101] (by decide +kernel)

end TorrentClient
