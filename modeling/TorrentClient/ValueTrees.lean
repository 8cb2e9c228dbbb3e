import TorrentClient.BencodeRoundTrip

/-!
# Trees as values

The value of a tree whose keys are ascending stands for that tree, so that no two such trees
have the same print. What a map finds under a key is what the entries of its tree have there.
-/
namespace TorrentClient
open Bencode
open OrderedEntries (Ascending)

instance : IsStrictTotalOrder Bytes (· < ·) where
  irrefl := List.lt_irrefl
  trans _ _ _ := List.lt_trans
  trichotomous _ _ h h' := List.le_antisymm (List.not_lt.mp h') (List.not_lt.mp h)

theorem treeValues_eq_map (entries : List (String × Value)) :
    treeValues entries = entries.map fun e => (asBytes e.1, e.2.toTree) := by
  induction entries with
  | nil => rfl
  | cons e entries ih => rw [treeValues, ih, List.map_cons]

theorem ascending_treeValues {entries : List (String × Value)} :
    Ascending (· < ·) (treeValues entries) ↔ Ascending keyLt entries := by
  rw [treeValues_eq_map, Ascending, List.pairwise_map]
  rfl

theorem lookup_treeValues (entries : List (String × Value)) (key : String) :
    (treeValues entries).lookup (asBytes key) = (entries.lookup key).map Value.toTree := by
  induction entries with
  | nil => rfl
  | cons e entries ih =>
    obtain ⟨key', v⟩ := e
    rw [treeValues, List.lookup_cons, List.lookup_cons, ih]
    by_cases hkey : key = key'
    · subst hkey
      rw [beq_self_eq_true, beq_self_eq_true]
      rfl
    · rw [beq_false_of_ne hkey, beq_false_of_ne (asBytes_injective.ne hkey)]

theorem OrderedValues.of_mem {map : List (String × Value)} (h : OrderedValues map)
    {e : String × Value} (he : e ∈ map) : e.2.Ordered := by
  induction map with
  | nil => cases he
  | cons e' map ih =>
    rcases List.mem_cons.mp he with rfl | he
    · exact h.1
    · exact ih h.2 he

theorem sortedItems_treeItems {items : List Value}
    (h : ∀ v ∈ items, v.Ordered → v.toTree.Sorted) (ho : OrderedItems items) :
    SortedItems (treeItems items) := by
  induction items with
  | nil => trivial
  | cons v items ih =>
    obtain ⟨hhead, htail⟩ := List.forall_mem_cons.mp h
    exact ⟨hhead ho.1, ih htail ho.2⟩

theorem sortedEntries_treeValues {entries : List (String × Value)}
    (h : ∀ e ∈ entries, e.2.Ordered → e.2.toTree.Sorted) (ho : OrderedValues entries) :
    SortedEntries (treeValues entries) := by
  induction entries with
  | nil => trivial
  | cons e entries ih =>
    obtain ⟨hhead, htail⟩ := List.forall_mem_cons.mp h
    exact ⟨hhead ho.1, ih htail ho.2⟩

theorem Value.Ordered.toTree_sorted {v : Value} (h : v.Ordered) : v.toTree.Sorted := by
  induction v using Value.induct with
  | integer i => trivial
  | bytes b => trivial
  | string s => trivial
  | list items ih => exact sortedItems_treeItems ih h
  | dict entries ih => exact ⟨ascending_treeValues.mpr h.1, sortedEntries_treeValues ih h.2⟩

theorem toTree_stringValue (bytes : Bytes) : (stringValue bytes).toTree = .string bytes := by
  rw [stringValue]
  cases hs : fromUtf8 bytes with
  | none => rfl
  | some s => rw [Value.toTree, fromUtf8_eq_some.mp hs]

theorem ordered_stringValue (bytes : Bytes) : (stringValue bytes).Ordered := by
  rw [stringValue]
  cases fromUtf8 bytes <;> trivial

theorem toInt_of_contains {i : ℤ} (h : IntegerType.i64.Contains i) : (Int64.ofInt i).toInt = i := by
  have hmin : IntegerType.i64.min = -2 ^ 63 := rfl
  have hmax : IntegerType.i64.max = 2 ^ 63 - 1 := rfl
  rw [IntegerType.Contains, hmin, hmax] at h
  exact Int64.toInt_ofInt_of_le h.1 (by omega)

theorem treeItems_of_valuesOf {items : List Tree} {vs : List Value}
    (h : ∀ t ∈ items, t.Sorted → ∀ v, valueOf t = some v → v.toTree = t ∧ v.Ordered)
    (hs : SortedItems items) (hvs : valuesOf items = some vs) :
    treeItems vs = items ∧ OrderedItems vs := by
  induction items generalizing vs with
  | nil =>
    cases hvs
    exact ⟨rfl, trivial⟩
  | cons t items ih =>
    obtain ⟨hhead, htail⟩ := List.forall_mem_cons.mp h
    rw [valuesOf, Option.bind_eq_some_iff] at hvs
    obtain ⟨v, hv, hvs⟩ := hvs
    obtain ⟨vs, hrest, rfl⟩ := Option.map_eq_some_iff.mp hvs
    obtain ⟨rfl, hordered⟩ := hhead hs.1 v hv
    obtain ⟨rfl, horderedRest⟩ := ih htail hs.2 hrest
    exact ⟨rfl, hordered, horderedRest⟩

theorem treeValues_of_entriesOf {entries : List (Bytes × Tree)} {es : List (String × Value)}
    (h : ∀ e ∈ entries, e.2.Sorted → ∀ v, valueOf e.2 = some v → v.toTree = e.2 ∧ v.Ordered)
    (hs : SortedEntries entries) (hes : entriesOf entries = some es) :
    treeValues es = entries ∧ OrderedValues es := by
  induction entries generalizing es with
  | nil =>
    cases hes
    exact ⟨rfl, trivial⟩
  | cons e entries ih =>
    obtain ⟨key, t⟩ := e
    obtain ⟨hhead, htail⟩ := List.forall_mem_cons.mp h
    rw [entriesOf, Option.bind_eq_some_iff] at hes
    obtain ⟨k, hk, hes⟩ := hes
    obtain ⟨v, hv, hes⟩ := Option.bind_eq_some_iff.mp hes
    obtain ⟨es, hrest, rfl⟩ := Option.map_eq_some_iff.mp hes
    obtain ⟨htree, hordered⟩ := hhead hs.1 v hv
    obtain ⟨hrest, horderedRest⟩ := ih htail hs.2 hrest
    rw [treeValues, htree, hrest, fromUtf8_eq_some.mp hk]
    exact ⟨rfl, hordered, horderedRest⟩

theorem toTree_of_valueOf {t : Tree} (hs : t.Sorted) {v : Value} (h : valueOf t = some v) :
    v.toTree = t ∧ v.Ordered := by
  induction t using Tree.induct generalizing v with
  | integer i =>
    rw [valueOf] at h
    split_ifs at h with hi
    cases h
    exact ⟨congrArg Tree.integer (toInt_of_contains hi), trivial⟩
  | string bytes =>
    cases h
    exact ⟨toTree_stringValue bytes, ordered_stringValue bytes⟩
  | list items ih =>
    obtain ⟨vs, hvs, rfl⟩ := Option.map_eq_some_iff.mp h
    obtain ⟨rfl, hordered⟩ := treeItems_of_valuesOf (fun t ht hs v => ih t ht hs) hs hvs
    exact ⟨rfl, hordered⟩
  | dict entries ih =>
    obtain ⟨es, hes, rfl⟩ := Option.map_eq_some_iff.mp h
    obtain ⟨rfl, hordered⟩ := treeValues_of_entriesOf (fun e he hs v => ih e he hs) hs.2 hes
    have hascending := ascending_treeValues.mp hs.1
    have hmap : insertAll [] es = es := insertAll_of_ascending hascending
    rw [hmap]
    exact ⟨rfl, hascending, hordered⟩

/-- What the map of a tree has under a key is the value of what the tree has there. -/
theorem lookup_entriesOf {entries : List (Bytes × Tree)} {es : List (String × Value)}
    (h : entriesOf entries = some es) (key : String) :
    es.lookup key = (entries.lookup (asBytes key)).bind valueOf := by
  induction entries generalizing es with
  | nil =>
    cases h
    rfl
  | cons e entries ih =>
    obtain ⟨key', t⟩ := e
    rw [entriesOf, Option.bind_eq_some_iff] at h
    obtain ⟨k, hk, h⟩ := h
    obtain ⟨v, hv, h⟩ := Option.bind_eq_some_iff.mp h
    obtain ⟨es, hrest, rfl⟩ := Option.map_eq_some_iff.mp h
    obtain rfl := fromUtf8_eq_some.mp hk
    rw [List.lookup_cons, List.lookup_cons, ih hrest]
    by_cases hkey : key = k
    · subst hkey
      rw [beq_self_eq_true, beq_self_eq_true]
      exact hv.symm
    · rw [beq_false_of_ne hkey, beq_false_of_ne (asBytes_injective.ne hkey)]

theorem lookup_of_valueOf {entries : List (Bytes × Tree)} {v : Value}
    (hs : (Tree.dict entries).Sorted) (h : valueOf (.dict entries) = some v) :
    ∃ map, v = .dict map ∧
      ∀ key, map.lookup key = (entries.lookup (asBytes key)).bind valueOf := by
  obtain ⟨htree, hordered⟩ := toTree_of_valueOf hs h
  obtain ⟨es, hes, rfl⟩ := Option.map_eq_some_iff.mp h
  obtain ⟨htrees, -⟩ := treeValues_of_entriesOf
    (fun e _ hs v hv => toTree_of_valueOf hs hv) hs.2 hes
  have hascending := ascending_treeValues.mp (htrees ▸ hs.1)
  have hmap : insertAll [] es = es := insertAll_of_ascending hascending
  refine ⟨es, congrArg Value.dict hmap, fun key => lookup_entriesOf hes key⟩

theorem decode_of_valueOf {t : Tree} {v : Value} (hlen : t.print.length < 2 ^ 64)
    (h : valueOf t = some v) : ∃ d, Value.decode (Decoder.new t.print) = .ok v d := by
  have hread := Reads.decode_tree t 0 []
  rw [h, List.append_nil, Nat.zero_add] at hread
  exact ⟨_, hread hlen⟩

theorem valueOf_of_decode {t : Tree} {v : Value} {d : Decoder} (hlen : t.print.length < 2 ^ 64)
    (h : Value.decode (Decoder.new t.print) = .ok v d) : valueOf t = some v := by
  rw [Decoder.new, ← List.append_nil t.print] at h
  refine ((Reads.decode_tree t).eq_of_ok ?_ h).1
  rwa [List.append_nil, Nat.zero_add]

/-- A sorted tree that has a value is the only sorted tree with its print. -/
theorem eq_of_print_eq {t t' : Tree} {v : Value} (hs : t.Sorted) (hs' : t'.Sorted)
    (hlen : t.print.length < 2 ^ 64) (hv : valueOf t = some v) (h : t.print = t'.print) :
    t = t' := by
  have hread := Reads.decode_tree t 0 []
  rw [hv, List.append_nil, Nat.zero_add] at hread
  have hend : Value.decode (Decoder.new t.print) = .ok v _ := hread hlen
  have hv' : valueOf t' = some v := by
    rw [h] at hlen hend
    exact valueOf_of_decode hlen hend
  exact (toTree_of_valueOf hs hv).1.symm.trans (toTree_of_valueOf hs' hv').1

end TorrentClient
