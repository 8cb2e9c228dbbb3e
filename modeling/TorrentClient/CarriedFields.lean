import TorrentClient.MetaInfoValues
import TorrentClient.ValueTrees

/-!
# What survives the fields of a struct

`Carries fromValue intoValue p` says that a value that is read and then put into a value again
stands for the tree it had exactly where the tree satisfies `p`. The rules below give the
condition for a struct from those for its fields: besides these, the dictionary may have no
key that the struct does not have.
-/
namespace TorrentClient
open Bencode
open OrderedEntries (Ascending)

variable {α : Type}

structure Carries (fromValue : Value → Except DecodeError α) (intoValue : α → Value)
    (p : Tree → Prop) : Prop where
  ordered : ∀ a, (intoValue a).Ordered
  toTree_eq_iff : ∀ {v a}, v.Ordered → fromValue v = .ok a →
    ((intoValue a).toTree = v.toTree ↔ p v.toTree)

/-- The length of `pieces` is a multiple of that of a hash. -/
def WholeHashes : Tree → Prop
  | .string bytes => 20 ∣ bytes.length
  | _ => False

def ForItems (p : Tree → Prop) : Tree → Prop
  | .list items => ∀ t ∈ items, p t
  | _ => False

/-- The entries have no other keys. -/
def KeysWithin (names : List String) (entries : List (Bytes × Tree)) : Prop :=
  ∀ e ∈ entries, e.1 ∈ names.map asBytes

def CarriedFile : Tree → Prop
  | .dict entries => KeysWithin ["length", "md5sum", "path"] entries
  | _ => False

/-- An info of several files carries other keys than one of a single file. -/
def CarriedKeys (entries : List (Bytes × Tree)) : Option Tree → Prop
  | none => KeysWithin ["length", "md5sum", "name", "piece length", "pieces"] entries
  | some files =>
    KeysWithin ["files", "name", "piece length", "pieces"] entries ∧ ForItems CarriedFile files

/-- The condition under which the tree of an info comes back. -/
def CarriedInfo : Tree → Prop
  | .dict entries =>
    (∀ t ∈ entries.lookup (asBytes "pieces"), WholeHashes t) ∧
      CarriedKeys entries (entries.lookup (asBytes "files"))
  | _ => False

instance : DecidablePred WholeHashes
  | .string bytes => inferInstanceAs (Decidable (20 ∣ bytes.length))
  | .integer _ | .list _ | .dict _ => inferInstanceAs (Decidable False)

instance {p : Tree → Prop} [DecidablePred p] : DecidablePred (ForItems p)
  | .list items => inferInstanceAs (Decidable (∀ t ∈ items, p t))
  | .integer _ | .string _ | .dict _ => inferInstanceAs (Decidable False)

instance (names : List String) : DecidablePred (KeysWithin names) := fun entries =>
  inferInstanceAs (Decidable (∀ e ∈ entries, e.1 ∈ names.map asBytes))

instance : DecidablePred CarriedFile
  | .dict entries => inferInstanceAs (Decidable (KeysWithin _ entries))
  | .integer _ | .string _ | .list _ => inferInstanceAs (Decidable False)

instance (entries : List (Bytes × Tree)) : DecidablePred (CarriedKeys entries)
  | none => inferInstanceAs (Decidable (KeysWithin _ entries))
  | some _ => inferInstanceAs (Decidable (KeysWithin _ entries ∧ ForItems _ _))

instance : DecidablePred CarriedInfo
  | .dict _ => inferInstanceAs (Decidable (_ ∧ CarriedKeys _ _))
  | .integer _ | .string _ | .list _ => inferInstanceAs (Decidable False)

theorem carries_toUInt64 : Carries Value.toUInt64 Value.ofUInt64 fun _ => True := by
  refine ⟨fun _ => trivial, ?_⟩
  intro v n _ h
  cases v with
  | integer i =>
    cases h
    rw [Value.ofUInt64, Int64.toInt64_toUInt64]
    exact iff_of_true rfl trivial
  | _ => cases h

theorem carries_toString : Carries Value.toString .string fun _ => True := by
  refine ⟨fun _ => trivial, ?_⟩
  intro v s _ h
  cases v with
  | string s' =>
    cases h
    exact iff_of_true rfl trivial
  | bytes b =>
    rw [Value.toString] at h
    cases hs : fromUtf8 b with
    | none =>
      rw [hs] at h
      cases h
    | some s' =>
      rw [hs] at h
      cases h
      exact iff_of_true (congrArg Tree.string (fromUtf8_eq_some.mp hs)) trivial
  | _ => cases h

/-- The hashes are what a byte string starts with. -/
theorem sha1List_prefix (bytes : Bytes) :
    ∃ rest : Bytes, (Sha1.sha1List bytes).flatMap (·.bytes) ++ rest = bytes ∧
      rest.length = bytes.length % 20 := by
  induction bytes using Sha1.sha1List.induct with
  | case1 bytes h ih =>
    obtain ⟨rest, hrest, hlen⟩ := ih
    refine ⟨rest, ?_, ?_⟩
    · rw [Sha1.sha1List, dif_pos h, List.flatMap_cons, List.append_assoc, hrest,
        List.take_append_drop]
    · rw [hlen, List.length_drop, Nat.mod_eq_sub_mod h]
  | case2 bytes h =>
    refine ⟨bytes, ?_, (Nat.mod_eq_of_lt (Nat.lt_of_not_le h)).symm⟩
    rw [Sha1.sha1List, dif_neg h, List.flatMap_nil, List.nil_append]

theorem carries_toSha1List : Carries Value.toSha1List Value.ofSha1List WholeHashes := by
  refine ⟨fun _ => trivial, ?_⟩
  intro v hashes _ h
  cases v with
  | bytes b =>
    cases h
    obtain ⟨rest, hrest, hlen⟩ := sha1List_prefix b
    rw [Value.ofSha1List, Value.toTree, Value.toTree, Tree.string.injEq, WholeHashes,
      Nat.dvd_iff_mod_eq_zero, ← hlen, List.length_eq_zero_iff]
    constructor
    · intro heq
      rw [heq] at hrest
      exact List.append_right_eq_self.mp hrest
    · rintro rfl
      rwa [List.append_nil] at hrest
  | _ => cases h

theorem OrderedItems.of_forall {items : List Value} (h : ∀ v ∈ items, v.Ordered) :
    OrderedItems items := by
  induction items with
  | nil => trivial
  | cons v items ih =>
    obtain ⟨hhead, htail⟩ := List.forall_mem_cons.mp h
    exact ⟨hhead, ih htail⟩

theorem Carries.toList {fromValue : Value → Except DecodeError α} {intoValue : α → Value}
    {p : Tree → Prop} (h : Carries fromValue intoValue p) :
    Carries (Value.toList fromValue) (Value.ofList intoValue) (ForItems p) := by
  refine ⟨fun xs => OrderedItems.of_forall (List.forall_mem_map.mpr fun a _ => h.ordered a), ?_⟩
  intro v xs hv hxs
  cases v with
  | list items =>
    rw [Value.toList] at hxs
    rw [Value.ofList, Value.toTree, Value.toTree, Tree.list.injEq, ForItems]
    induction items generalizing xs with
    | nil =>
      cases hxs
      exact iff_of_true rfl fun _ ht => absurd ht List.not_mem_nil
    | cons v items ih =>
      rw [List.mapM_cons, bind_eq_ok] at hxs
      obtain ⟨x, hx, hxs⟩ := hxs
      obtain ⟨xs, hrest, hxs⟩ := bind_eq_ok.mp hxs
      cases hxs
      rw [List.map_cons, treeItems, treeItems, List.cons.injEq, List.forall_mem_cons,
        h.toTree_eq_iff hv.1 hx, ih hv.2 hrest]
  | _ => cases hxs

theorem carries_strings :
    Carries (Value.toList Value.toString) (Value.ofList .string) fun _ => True := by
  refine ⟨carries_toString.toList.ordered, ?_⟩
  intro v xs hv hxs
  rw [carries_toString.toList.toTree_eq_iff hv hxs]
  cases v with
  | list items => exact iff_of_true (fun _ _ => trivial) trivial
  | _ => cases hxs

theorem OrderedValues.of_lookup {map : List (String × Value)} (h : OrderedValues map) {key : String}
    {v : Value} (hv : map.lookup key = some v) : v.Ordered :=
  h.of_mem (OrderedEntries.mem_of_lookup hv)

section Fields

variable {fromValue : Value → Except DecodeError α} {intoValue : α → Value} {p : Tree → Prop}
  {map : List (String × Value)} {key : String}

theorem Carries.field (h : Carries fromValue intoValue p) (hmap : OrderedValues map) {a : α}
    (ha : (Value.dict map).getField fromValue key = .ok a) :
    some (intoValue a).toTree = (treeValues map).lookup (asBytes key) ↔
      ∀ t ∈ (treeValues map).lookup (asBytes key), p t := by
  rw [Value.getField] at ha
  rw [lookup_treeValues]
  cases hv : map.lookup key with
  | none =>
    rw [hv] at ha
    cases ha
  | some v =>
    rw [hv] at ha
    rw [Option.map_some, Option.some.injEq, h.toTree_eq_iff (hmap.of_lookup hv) ha]
    exact ⟨fun hp _ ht => Option.some.inj ht ▸ hp, fun hp => hp _ rfl⟩

theorem Carries.optionField (h : Carries fromValue intoValue p) (hmap : OrderedValues map)
    {o : Option α} (ho : (Value.dict map).getOptionField fromValue key = .ok o) :
    (o.map fun a => (intoValue a).toTree) = (treeValues map).lookup (asBytes key) ↔
      ∀ t ∈ (treeValues map).lookup (asBytes key), p t := by
  rw [Value.getOptionField] at ho
  rw [lookup_treeValues]
  cases hv : map.lookup key with
  | none =>
    rw [hv] at ho
    cases ho
    exact iff_of_true rfl fun _ ht => absurd ht (Option.not_mem_none _)
  | some v =>
    rw [hv] at ho
    change (fromValue v).map some = .ok o at ho
    cases ha : fromValue v with
    | error e =>
      rw [ha] at ho
      cases ho
    | ok a =>
      rw [ha] at ho
      cases ho
      rw [Option.map_some, Option.map_some, Option.some.injEq, h.toTree_eq_iff (hmap.of_lookup hv) ha]
      exact ⟨fun hp _ ht => Option.some.inj ht ▸ hp, fun hp => hp _ rfl⟩

end Fields

theorem getField_eq_ok {fromValue : Value → Except DecodeError α} {map : List (String × Value)}
    {key : String} {a : α} : (Value.dict map).getField fromValue key = .ok a ↔
      ∃ v, map.lookup key = some v ∧ fromValue v = .ok a := by
  rw [Value.getField]
  cases map.lookup key <;> simp

theorem getField_dict {fromValue : Value → Except DecodeError α} {key : String} {v : Value} {a : α}
    (h : v.getField fromValue key = .ok a) : ∃ map, v = .dict map := by
  cases v with
  | dict map => exact ⟨map, rfl⟩
  | _ => cases h

theorem Value.Ordered.insert {map : List (String × Value)} {v : Value} (h : (dict map).Ordered)
    (s : String) (hv : v.Ordered) : (dict (Value.insert map s v)).Ordered := by
  refine ⟨h.1.insert s v, ?_⟩
  have hvalues := h.2
  clear h
  induction map with
  | nil => exact ⟨hv, trivial⟩
  | cons e map ih =>
    rw [Value.insert, OrderedEntries.insert]
    split_ifs
    · exact ⟨hv, hvalues.2⟩
    · exact ⟨hv, hvalues⟩
    · exact ⟨hvalues.1, ih hvalues.2⟩

theorem Value.Ordered.insertOption {map : List (String × Value)} {o : Option Value}
    (h : (dict map).Ordered) (s : String) (ho : ∀ v ∈ o, v.Ordered) :
    (dict (insertOption map s o)).Ordered := by
  cases o with
  | none => exact h
  | some v => exact h.insert s (ho v rfl)

theorem ordered_nil : (Value.dict []).Ordered := ⟨List.Pairwise.nil, trivial⟩

theorem keysWithin_nil {names : List String} : ∀ e ∈ ([] : List (String × Value)), e.1 ∈ names :=
  fun _ he => absurd he List.not_mem_nil

theorem keysWithin_insert {names : List String} {map : List (String × Value)} {s : String}
    {v : Value} (hs : s ∈ names) (h : ∀ e ∈ map, e.1 ∈ names) :
    ∀ e ∈ Value.insert map s v, e.1 ∈ names := by
  intro e he
  rcases OrderedEntries.mem_insert he with rfl | he
  · exact hs
  · exact h e he

theorem keysWithin_insertOption {names : List String} {map : List (String × Value)} {s : String}
    {o : Option Value} (hs : s ∈ names) (h : ∀ e ∈ map, e.1 ∈ names) :
    ∀ e ∈ Value.insertOption map s o, e.1 ∈ names := by
  cases o with
  | none => exact h
  | some v => exact keysWithin_insert hs h

theorem lookup_insert (map : List (String × Value)) (s : String) (v : Value) (key : String) :
    (Value.insert map s v).lookup key = if key = s then some v else map.lookup key :=
  OrderedEntries.lookup_insert key

theorem lookup_insertOption (map : List (String × Value)) (s : String) (o : Option Value)
    (key : String) : (Value.insertOption map s o).lookup key =
      if key = s then o.or (map.lookup key) else map.lookup key := by
  cases o with
  | none => rw [Value.insertOption, Option.none_or, ite_self]
  | some v => exact lookup_insert map s v key

theorem toTree_dict (map : List (String × Value)) :
    (Value.dict map).toTree = .dict (treeValues map) := by rw [Value.toTree]

/-- A dictionary of a struct's fields stands for another when this has no further keys and
the same trees under the keys of the struct. -/
theorem toTree_dict_eq_iff {names : List String} {built map : List (String × Value)}
    (hbuilt : (Value.dict built).Ordered) (hmap : (Value.dict map).Ordered)
    (hnames : ∀ e ∈ built, e.1 ∈ names) :
    (Value.dict built).toTree = (Value.dict map).toTree ↔
      KeysWithin names (treeValues map) ∧ ∀ name ∈ names,
        (built.lookup name).map Value.toTree = (treeValues map).lookup (asBytes name) := by
  have hkeys : ∀ e ∈ treeValues built, e.1 ∈ names.map asBytes := by
    rw [treeValues_eq_map, List.forall_mem_map]
    exact fun e he => List.mem_map_of_mem (hnames e he)
  rw [toTree_dict, toTree_dict, Tree.dict.injEq,
    (ascending_treeValues.mpr hbuilt.1).eq_iff (ascending_treeValues.mpr hmap.1) hkeys,
    List.forall_mem_map]
  simp only [lookup_treeValues, KeysWithin]

end TorrentClient
