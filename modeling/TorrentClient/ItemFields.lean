import TorrentClient.DecodedItems
import TorrentClient.TrackerResponse

/-!
# Fields of items

A field of a decoded dictionary is what the bytes have behind the last key of its name. An
integer there is a decimal with a sign, of which a cast takes the remainder.
-/
namespace Bencode

/-- What stands behind the last key of a name, where the item is a dictionary. -/
def Item.entry (key : List UInt8) : Item → Option Item
  | .dict entries => entries.reverse.lookup key
  | _ => none

end Bencode

namespace TorrentClient
open Bencode DecimalNumerals

variable {α : Type}

/-- The integer that a decimal with an optional minus sign stands for. -/
def tokenValue : Bytes → ℤ
  | 45 :: digits => -(value digits : ℤ)
  | digits => value digits

def itemInteger : Item → Option ℤ
  | .integer token => some (tokenValue token)
  | _ => none

def itemText : Item → Option String
  | .string bytes => fromUtf8 bytes
  | _ => none

/-- The integer that is written under a key. -/
def integerAt (i : Item) (key : String) : Option ℤ := (i.entry (asBytes key)).bind itemInteger

/-- The text that is written under a key. -/
def textAt (i : Item) (key : String) : Option String := (i.entry (asBytes key)).bind itemText

theorem tokenValue_of_accept {ty : IntegerType} {token : Bytes} {n : ℤ}
    (h : ty.accept token = some n) : ty.Contains n ∧ tokenValue token = n := by
  obtain ⟨-, -, -, hparse⟩ := IntegerType.accept_eq_some.mp h
  obtain ⟨hin, ⟨digits, m, rfl, -, hm, rfl⟩ | ⟨m, hm, rfl⟩⟩ := IntegerType.parse_eq_some.mp hparse
  · obtain ⟨-, -, rfl⟩ := IntegerType.parseDigits_eq_some.mp hm
    exact ⟨hin, rfl⟩
  · refine ⟨hin, ?_⟩
    obtain ⟨-, hall, rfl⟩ := IntegerType.parseDigits_eq_some.mp hm
    cases token with
    | nil => rfl
    | cons b digits =>
      have hb : b ≠ 45 := by
        rintro rfl
        cases hall 45 List.mem_cons_self
      rw [tokenValue]
      exact fun digits h => hb (List.cons.inj h).1

/-! ### Entries -/

/-- What a value has under a key, where it is a dictionary. -/
def Value.entry (key : String) : Value → Option Value
  | .dict map => map.lookup key
  | _ => none

theorem lookup_insertAll (map es : List (String × Value)) (key : String) :
    (insertAll map es).lookup key = (es.reverse.lookup key).or (map.lookup key) := by
  induction es generalizing map with
  | nil => rfl
  | cons e es ih =>
    have hnext : insertAll map (e :: es) = insertAll (OrderedEntries.insert keyLt e.1 e.2 map) es := rfl
    have hone : ([e].lookup key).or (map.lookup key) =
        (OrderedEntries.insert keyLt e.1 e.2 map).lookup key := by
      rw [OrderedEntries.lookup_insert]
      by_cases hkey : key = e.1
      · rw [if_pos hkey, hkey, List.lookup_cons_self, Option.some_or]
      · rw [if_neg hkey, List.lookup_cons, beq_false_of_ne hkey, List.lookup_nil, Option.none_or]
    rw [hnext, ih, ← hone, List.reverse_cons, List.lookup_append, Option.or_assoc]

theorem MeansEntries.rel_lookup {entries : List (Bytes × Item)} {es : List (String × Value)}
    (h : MeansEntries entries es) (key : String) :
    Option.Rel Means (entries.reverse.lookup (asBytes key)) (es.reverse.lookup key) := by
  induction entries generalizing es with
  | nil =>
    cases h
    exact .none
  | cons e entries ih =>
    cases h with
    | @cons key' i v _ es hhead htail =>
      have hlast : Option.Rel Means ([(asBytes key', i)].lookup (asBytes key))
          ([(key', v)].lookup key) := by
        by_cases hkey : key = key'
        · rw [hkey, List.lookup_cons_self, List.lookup_cons_self]
          exact .some hhead
        · rw [List.lookup_cons, beq_false_of_ne (asBytes_injective.ne hkey), List.lookup_cons,
            beq_false_of_ne hkey]
          exact .none
      rw [List.reverse_cons, List.reverse_cons, List.lookup_append, List.lookup_append]
      have hfront := ih htail
      generalize entries.reverse.lookup (asBytes key) = o at hfront ⊢
      generalize es.reverse.lookup key = o' at hfront ⊢
      cases hfront with
      | some hmeans => exact .some hmeans
      | none => exact hlast

/-- The entries of an item mean those of its value. -/
theorem Means.rel_entry {i : Item} {v : Value} (h : Means i v) (key : String) :
    Option.Rel Means (i.entry (asBytes key)) (v.entry key) := by
  cases h with
  | integer => exact .none
  | string bytes =>
    rw [stringValue]
    cases fromUtf8 bytes <;> exact .none
  | list => exact .none
  | dict hentries =>
    rw [Item.entry, Value.entry, lookup_insertAll, List.lookup_nil, Option.or_none]
    exact hentries.rel_lookup key

/-! ### Fields -/

variable {fromValue : Value → Except DecodeError α} {i : Item} {v : Value} {key : String}

theorem Value.dict_of_entry {w : Value} (h : v.entry key = some w) : ∃ map, v = .dict map := by
  cases v with
  | dict map => exact ⟨map, rfl⟩
  | _ => cases h

theorem Value.getField_eq_ok {a : α} :
    v.getField fromValue key = .ok a ↔ ∃ w, v.entry key = some w ∧ fromValue w = .ok a := by
  cases v with
  | dict map =>
    rw [Value.getField, Value.entry]
    cases map.lookup key <;> simp
  | _ => simp [Value.getField, Value.entry]

theorem Value.getOptionField_dict {map : List (String × Value)} {o : Option α} :
    (Value.dict map).getOptionField fromValue key = .ok o ↔
      ((Value.dict map).entry key = none ∧ o = none) ∨
        ∃ w a, (Value.dict map).entry key = some w ∧ fromValue w = .ok a ∧ o = some a := by
  rw [Value.getOptionField, Value.entry]
  cases map.lookup key with
  | none => simp [eq_comm]
  | some w => cases hw : fromValue w <;> simp [hw, Except.map, eq_comm]

theorem Value.getOptionField_eq_ok {o : Option α} (h : v.getOptionField fromValue key = .ok o) :
    (v.entry key = none ∧ o = none) ∨
      ∃ w a, v.entry key = some w ∧ fromValue w = .ok a ∧ o = some a := by
  cases v with
  | dict map => exact Value.getOptionField_dict.mp h
  | _ => cases h

theorem Means.entry_of_some (h : Means i v) {w : Value} (hw : v.entry key = some w) :
    ∃ j, i.entry (asBytes key) = some j ∧ Means j w := by
  have hrel := h.rel_entry key
  rw [hw] at hrel
  generalize i.entry (asBytes key) = o at hrel ⊢
  cases hrel with
  | some hmeans => exact ⟨_, rfl, hmeans⟩

theorem Means.entry_of_none (h : Means i v) (hw : v.entry key = none) :
    i.entry (asBytes key) = none := by
  have hrel := h.rel_entry key
  rw [hw] at hrel
  generalize i.entry (asBytes key) = o at hrel ⊢
  cases hrel with
  | none => rfl

theorem stringValue_cases (bytes : Bytes) :
    (stringValue bytes = .bytes bytes ∧ fromUtf8 bytes = none) ∨
      ∃ s, stringValue bytes = .string s := by
  rw [stringValue]
  cases fromUtf8 bytes with
  | none => exact Or.inl ⟨rfl, rfl⟩
  | some s => exact Or.inr ⟨s, rfl⟩

theorem Means.eq_of_bytes {b : Bytes} (h : Means i (.bytes b)) :
    i = .string b ∧ fromUtf8 b = none := by
  generalize hv : Value.bytes b = v at h
  cases h with
  | string bytes =>
    rcases stringValue_cases bytes with ⟨heq, hs⟩ | ⟨s, heq⟩
    · cases hv.trans heq
      exact ⟨rfl, hs⟩
    · cases hv.trans heq
  | _ => cases hv

theorem Means.eq_of_list {vs : List Value} (h : Means i (.list vs)) :
    ∃ items, i = .list items ∧ MeansItems items vs := by
  generalize hv : Value.list vs = v at h
  cases h with
  | list hitems =>
    cases hv
    exact ⟨_, rfl, hitems⟩
  | string bytes => rcases stringValue_cases bytes with ⟨heq, -⟩ | ⟨s, heq⟩ <;> cases hv.trans heq
  | _ => cases hv

theorem Means.value_of_some (h : Means i v) {j : Item} (hj : i.entry (asBytes key) = some j) :
    ∃ w, v.entry key = some w ∧ Means j w := by
  have hrel := h.rel_entry key
  rw [hj] at hrel
  generalize v.entry key = o at hrel ⊢
  cases hrel with
  | some hmeans => exact ⟨_, rfl, hmeans⟩

/-- A field is read as what the item under the key is. -/
theorem Means.getField_iff {field : Item → Option α} {a : α} (h : Means i v)
    (hread : ∀ j w, Means j w → (fromValue w = .ok a ↔ field j = some a)) :
    v.getField fromValue key = .ok a ↔ (i.entry (asBytes key)).bind field = some a := by
  rw [Value.getField_eq_ok, Option.bind_eq_some_iff]
  constructor
  · rintro ⟨w, hw, ha⟩
    obtain ⟨j, hj, hmeans⟩ := h.entry_of_some hw
    exact ⟨j, hj, (hread j w hmeans).mp ha⟩
  · rintro ⟨j, hj, ha⟩
    obtain ⟨w, hw, hmeans⟩ := h.value_of_some hj
    exact ⟨w, hw, (hread j w hmeans).mpr ha⟩

theorem Means.toString_iff {s : String} (h : Means i v) : v.toString = .ok s ↔ itemText i = some s := by
  cases h with
  | string bytes =>
    rw [stringValue, itemText]
    cases hs : fromUtf8 bytes <;> simp [Value.toString, hs]
  | _ => simp [Value.toString, itemText]

/-- A text field is the text that is written under its key. -/
theorem Means.getText_iff {s : String} (h : Means i v) :
    v.getField Value.toString key = .ok s ↔ textAt i key = some s :=
  h.getField_iff fun _ _ => Means.toString_iff

/-! ### Numbers -/

/-- The field is the remainder of an integer value by a power of two. -/
def Casts (bits : ℕ) (fromValue : Value → Except DecodeError α) (toNat : α → ℕ) : Prop :=
  ∀ v a, fromValue v = .ok a → ∃ x : Int64, v = .integer x ∧ (toNat a : ℤ) = x.toInt % 2 ^ bits

theorem toNat_toUInt64 (x : Int64) : (x.toUInt64.toNat : ℤ) = x.toInt % 2 ^ 64 := by
  have hlt := x.toUInt64.toNat_lt
  have hcond := BitVec.toInt_eq_toNat_cond x.toBitVec
  rw [Int64.toInt_toBitVec, Int64.toNat_toBitVec] at hcond
  split_ifs at hcond
  · omega
  · omega

theorem casts_toUInt64 : Casts 64 Value.toUInt64 UInt64.toNat := by
  intro v n h
  cases v with
  | integer x =>
    cases h
    exact ⟨x, rfl, toNat_toUInt64 x⟩
  | _ => cases h

theorem casts_toUInt32 : Casts 32 Value.toUInt32 UInt32.toNat := by
  intro v n h
  cases v with
  | integer x =>
    cases h
    refine ⟨x, rfl, ?_⟩
    have hnat := toNat_toUInt64 x
    rw [UInt64.toNat_toUInt32]
    omega
  | _ => cases h

theorem casts_toUInt16 : Casts 16 Value.toUInt16 UInt16.toNat := by
  intro v n h
  cases v with
  | integer x =>
    cases h
    refine ⟨x, rfl, ?_⟩
    have hnat := toNat_toUInt64 x
    rw [UInt64.toNat_toUInt16]
    omega
  | _ => cases h

/-- An integer that is written is in the range of the unsigned type. -/
def InBits (bits : ℕ) (o : Option ℤ) : Prop := ∀ z ∈ o, 0 ≤ z ∧ z < 2 ^ bits

theorem inBits_some {bits : ℕ} {z : ℤ} : InBits bits (some z) ↔ 0 ≤ z ∧ z < 2 ^ bits := by
  simp [InBits]

theorem Means.number_integer {j : Item} {x : Int64} (h : Means j (.integer x)) :
    ∃ token, j = .integer token ∧ tokenValue token = x.toInt := by
  generalize hv : Value.integer x = v at h
  cases h with
  | @integer token n _ haccept =>
    cases hv
    obtain ⟨hin, hvalue⟩ := tokenValue_of_accept haccept
    exact ⟨token, rfl, hvalue.trans (toInt_of_contains hin).symm⟩
  | string bytes => rcases stringValue_cases bytes with ⟨heq, -⟩ | ⟨s, heq⟩ <;> cases hv.trans heq
  | _ => cases hv

theorem inBits_some_iff {bits : ℕ} {n : ℕ} {z : ℤ} (h : (n : ℤ) = z % 2 ^ bits) :
    some z = some (n : ℤ) ↔ InBits bits (some z) := by
  have hpos : (0 : ℤ) < 2 ^ bits := by positivity
  rw [inBits_some, Option.some.injEq, h]
  constructor
  · intro hz
    rw [hz]
    exact ⟨Int.emod_nonneg z hpos.ne', Int.emod_lt_of_pos z hpos⟩
  · rintro ⟨hlo, hhi⟩
    exact (Int.emod_eq_of_lt hlo hhi).symm

/-- A number that was read is the one that is written exactly when that is in range. -/
theorem Casts.getField_iff {bits : ℕ} {toNat : α → ℕ} (hcast : Casts bits fromValue toNat)
    (h : Means i v) {a : α} (ha : v.getField fromValue key = .ok a) :
    integerAt i key = some (toNat a : ℤ) ↔ InBits bits (integerAt i key) := by
  obtain ⟨w, hw, hread⟩ := Value.getField_eq_ok.mp ha
  obtain ⟨x, rfl, hx⟩ := hcast w a hread
  obtain ⟨j, hj, hmeans⟩ := h.entry_of_some hw
  obtain ⟨token, rfl, htoken⟩ := hmeans.number_integer
  rw [integerAt, hj, Option.bind_some, itemInteger, htoken]
  exact inBits_some_iff hx

theorem Casts.getOptionField_iff {bits : ℕ} {toNat : α → ℕ} (hcast : Casts bits fromValue toNat)
    (h : Means i v) {o : Option α} (ho : v.getOptionField fromValue key = .ok o) :
    integerAt i key = o.map (fun a => (toNat a : ℤ)) ↔ InBits bits (integerAt i key) := by
  obtain ⟨hnone, rfl⟩ | ⟨w, a, hw, ha, rfl⟩ := Value.getOptionField_eq_ok ho
  · rw [integerAt, h.entry_of_none hnone]
    exact iff_of_true rfl nofun
  · exact hcast.getField_iff h (Value.getField_eq_ok.mpr ⟨w, hw, ha⟩)

/-- The integers that `impl_from_value_integer` takes. -/
def ReadsInteger (fromValue : Value → Except DecodeError α) (cast : Int64 → α) : Prop :=
  (∀ x, fromValue (.integer x) = .ok (cast x)) ∧ ∀ v a, fromValue v = .ok a → ∃ x, v = .integer x

/-- What an item is read as, where it is an integer. -/
theorem ReadsInteger.iff {cast : Int64 → α} (hcast : ReadsInteger fromValue cast) {a : α}
    (h : Means i v) :
    fromValue v = .ok a ↔ ∃ z, itemInteger i = some z ∧ cast (Int64.ofInt z) = a := by
  constructor
  · intro ha
    obtain ⟨x, rfl⟩ := hcast.2 v a ha
    obtain ⟨token, rfl, htoken⟩ := h.number_integer
    rw [hcast.1] at ha
    refine ⟨x.toInt, by rw [itemInteger, htoken], ?_⟩
    rw [Int64.ofInt_toInt]
    exact Except.ok.inj ha
  · rintro ⟨z, hz, rfl⟩
    cases h with
    | integer _ haccept =>
      obtain ⟨-, hvalue⟩ := tokenValue_of_accept haccept
      rw [itemInteger, hvalue] at hz
      cases hz
      exact hcast.1 _
    | _ => cases hz

theorem ReadsInteger.getField_iff {cast : Int64 → α} (hcast : ReadsInteger fromValue cast) {a : α}
    (h : Means i v) : v.getField fromValue key = .ok a ↔
      ∃ z, integerAt i key = some z ∧ cast (Int64.ofInt z) = a := by
  have hread : ∀ j w, Means j w →
      (fromValue w = .ok a ↔ (itemInteger j).map (fun z => cast (Int64.ofInt z)) = some a) := by
    intro j w hj
    rw [hcast.iff hj, Option.map_eq_some_iff]
  have hmap : ((i.entry (asBytes key)).bind fun j =>
      (itemInteger j).map fun z => cast (Int64.ofInt z)) =
        (integerAt i key).map fun z => cast (Int64.ofInt z) := Option.map_bind.symm
  rw [h.getField_iff hread, hmap, Option.map_eq_some_iff]

theorem ReadsInteger.exists_getField {cast : Int64 → α} (hcast : ReadsInteger fromValue cast)
    (h : Means i v) : (∃ a, v.getField fromValue key = .ok a) ↔ (integerAt i key).isSome := by
  simp only [hcast.getField_iff h, Option.isSome_iff_exists]
  constructor
  · rintro ⟨_, z, hz, rfl⟩
    exact ⟨z, hz⟩
  · rintro ⟨z, hz⟩
    exact ⟨_, z, hz, rfl⟩

theorem ReadsInteger.exists_getOptionField {cast : Int64 → α} {map : List (String × Value)}
    (hcast : ReadsInteger fromValue cast) (h : Means i (.dict map)) :
    (∃ o, (Value.dict map).getOptionField fromValue key = .ok o) ↔
      i.entry (asBytes key) = none ∨ (integerAt i key).isSome := by
  rw [← hcast.exists_getField h]
  constructor
  · rintro ⟨o, ho⟩
    obtain ⟨hnone, -⟩ | ⟨w, a, hw, ha, -⟩ := Value.getOptionField_dict.mp ho
    · exact Or.inl (h.entry_of_none hnone)
    · exact Or.inr ⟨a, Value.getField_eq_ok.mpr ⟨w, hw, ha⟩⟩
  · rintro (hnone | ⟨a, ha⟩)
    · refine ⟨none, Value.getOptionField_dict.mpr (Or.inl ⟨?_, rfl⟩)⟩
      by_contra hsome
      obtain ⟨w, hw⟩ := Option.ne_none_iff_exists'.mp hsome
      obtain ⟨j, hj, -⟩ := h.entry_of_some hw
      cases hnone.symm.trans hj
    · obtain ⟨w, hw, ha⟩ := Value.getField_eq_ok.mp ha
      exact ⟨some a, Value.getOptionField_dict.mpr (Or.inr ⟨w, a, hw, ha, rfl⟩)⟩

/-! ### Lists -/

theorem MeansItems.mapM_iff {items : List Item} {vs : List Value} {xs : List α}
    {reads : Item → α → Prop} (h : MeansItems items vs)
    (heach : ∀ i v x, Means i v → (fromValue v = .ok x ↔ reads i x)) :
    vs.mapM fromValue = .ok xs ↔ List.Forall₂ reads items xs := by
  induction items generalizing vs xs with
  | nil =>
    cases h
    cases xs <;> simp [pure, Except.pure]
  | cons i items ih =>
    cases h with
    | cons hhead htail =>
      rw [List.mapM_cons, bind_eq_ok, List.forall₂_cons_left_iff]
      constructor
      · rintro ⟨x, hx, hxs⟩
        obtain ⟨xs, hrest, hxs⟩ := bind_eq_ok.mp hxs
        cases hxs
        exact ⟨x, xs, (heach _ _ _ hhead).mp hx, (ih htail).mp hrest, rfl⟩
      · rintro ⟨x, xs, hx, hrest, rfl⟩
        exact ⟨x, (heach _ _ _ hhead).mpr hx, bind_eq_ok.mpr ⟨xs, (ih htail).mpr hrest, rfl⟩⟩

/-- What holds of each item that was read holds along a list. -/
theorem MeansItems.forall₂_iff {items : List Item} {vs : List Value} {xs : List α}
    {written : Item → α → Prop} {inRange : Item → Prop} (h : MeansItems items vs)
    (hxs : vs.mapM fromValue = .ok xs)
    (heach : ∀ i v x, Means i v → fromValue v = .ok x → (written i x ↔ inRange i)) :
    List.Forall₂ written items xs ↔ ∀ i ∈ items, inRange i := by
  induction items generalizing vs xs with
  | nil =>
    cases h
    cases hxs
    exact iff_of_true .nil nofun
  | cons i items ih =>
    cases h with
    | cons hhead htail =>
      rw [List.mapM_cons, bind_eq_ok] at hxs
      obtain ⟨x, hx, hxs⟩ := hxs
      obtain ⟨xs, hrest, hxs⟩ := bind_eq_ok.mp hxs
      cases hxs
      rw [List.forall₂_cons, List.forall_mem_cons, heach _ _ _ hhead hx, ih htail hrest]

end TorrentClient
