import TorrentClient.BencodeItems
import TorrentClient.DecoderAdvances
import TorrentClient.ValueTrees

/-!
# The items that a decoder accepts

Where `decode` returns a value it has read the item that the bytes begin with, of which the
value is the meaning, and it panics on no bytes. An item in canonical form is the encoding of
its value.
-/
namespace TorrentClient
open Bencode DecimalNumerals

mutual

/-- The value that an item is decoded as. -/
inductive Means : Item → Value → Prop where
  | integer {token : Bytes} {n : ℤ} (number : ∀ b ∈ token, isNumber b = true)
      (accepted : IntegerType.i64.accept token = some n) :
      Means (.integer token) (.integer (Int64.ofInt n))
  | string (bytes : Bytes) : Means (.string bytes) (stringValue bytes)
  | list {items : List Item} {vs : List Value} (each : MeansItems items vs) :
      Means (.list items) (.list vs)
  | dict {entries : List (Bytes × Item)} {es : List (String × Value)}
      (each : MeansEntries entries es) : Means (.dict entries) (.dict (insertAll [] es))

inductive MeansItems : List Item → List Value → Prop where
  | nil : MeansItems [] []
  | cons {i : Item} {v : Value} {items : List Item} {vs : List Value} (head : Means i v)
      (tail : MeansItems items vs) : MeansItems (i :: items) (v :: vs)

inductive MeansEntries : List (Bytes × Item) → List (String × Value) → Prop where
  | nil : MeansEntries [] []
  | cons (key : String) {i : Item} {v : Value} {entries : List (Bytes × Item)}
      {es : List (String × Value)} (head : Means i v) (tail : MeansEntries entries es) :
      MeansEntries ((asBytes key, i) :: entries) ((key, v) :: es)

end

/-- The bytes are those of an item with the value. -/
def Spells (v : Value) (bytes : Bytes) : Prop := ∃ i, Means i v ∧ bytes = i.spell

theorem items_of_spells {vs : List Value} {chunks : List Bytes}
    (h : List.Forall₂ Spells vs chunks) :
    ∃ items, MeansItems items vs ∧ chunks.flatten = spellItems items := by
  induction h with
  | nil => exact ⟨[], .nil, rfl⟩
  | cons hhead _ ih =>
    obtain ⟨i, hi, rfl⟩ := hhead
    obtain ⟨items, hitems, hflat⟩ := ih
    exact ⟨i :: items, .cons hi hitems, by rw [List.flatten_cons, hflat, spellItems]⟩

theorem entries_of_spells {es : List (String × Value)} {chunks : List Bytes}
    (h : List.Forall₂ (Advances.relatesEntry Spells) es chunks) :
    ∃ entries, MeansEntries entries es ∧ chunks.flatten = spellEntries entries := by
  induction h with
  | nil => exact ⟨[], .nil, rfl⟩
  | @cons e _ _ _ hhead _ ih =>
    obtain ⟨_, rfl, i, hi, rfl⟩ := hhead
    obtain ⟨entries, hentries, hflat⟩ := ih
    refine ⟨(asBytes e.1, i) :: entries, .cons e.1 hi hentries, ?_⟩
    rw [List.flatten_cons, hflat, spellEntries, List.append_assoc]

theorem spell_ne_nil (i : Item) : i.spell ≠ [] := by
  cases i with
  | string bytes => exact printString_ne_nil bytes
  | _ => exact List.cons_ne_nil _ _

theorem ne_nil_of_spells {v : Value} {bytes : Bytes} (h : Spells v bytes) : bytes ≠ [] := by
  obtain ⟨i, -, rfl⟩ := h
  exact spell_ne_nil i

namespace Advances
open Decoder

variable {d : Decoder}

theorem readList {depth : ℕ} (hd : d.InSlice) (hdepth : d.rest.length ≤ depth)
    (hdecode : ∀ d' : Decoder, d'.InSlice → d'.rest.length < depth →
      Advances (Value.decodeTo depth) d' Spells False) :
    Advances (Decoder.readList (Value.decodeTo depth)) d
      (fun vs bytes => Spells (.list vs) bytes) False := by
  refine expect_then fun rest hrest => get ?_
  rw [hrest, List.length_append, List.length_singleton] at hdepth
  have hitem : ∀ d' : Decoder, d'.InSlice → d'.rest.length ≤ rest.length →
      Advances (Value.decodeTo depth) d' Spells False :=
    fun d' hd' hle => hdecode d' hd' (by omega)
  refine (readListLoop (hd.behind hrest) (Nat.lt_succ_self _) hitem
    fun _ _ => ne_nil_of_spells).bind ?_
  rintro _ _ rest' - ⟨vs, chunks, rfl, hall, rfl⟩
  refine expect_then fun rest'' _ => ?_
  obtain ⟨items, hitems, hflat⟩ := items_of_spells hall
  refine pure ⟨.list items, .list hitems, ?_⟩
  rw [hflat, Item.spell]

theorem readDict {depth : ℕ} (hd : d.InSlice) (hdepth : d.rest.length ≤ depth)
    (hdecode : ∀ d' : Decoder, d'.InSlice → d'.rest.length < depth →
      Advances (Value.decodeTo depth) d' Spells False) :
    Advances (Decoder.readDict (Value.decodeTo depth)) d
      (fun map bytes => Spells (.dict map) bytes) False := by
  refine expect_then fun rest hrest => get ?_
  rw [hrest, List.length_append, List.length_singleton] at hdepth
  have hvalue : ∀ d' : Decoder, d'.InSlice → d'.rest.length ≤ rest.length →
      Advances (Value.decodeTo depth) d' Spells False :=
    fun d' hd' hle => hdecode d' hd' (by omega)
  refine (readDictLoop (hd.behind hrest) (Nat.lt_succ_self _) hvalue).bind ?_
  rintro _ _ rest' - ⟨es, chunks, rfl, hall, rfl⟩
  refine expect_then fun rest'' _ => ?_
  obtain ⟨entries, hentries, hflat⟩ := entries_of_spells hall
  refine pure ⟨.dict entries, .dict hentries, ?_⟩
  rw [hflat, Item.spell]

theorem decodeTo {depth : ℕ} (hd : d.InSlice) (hdepth : d.rest.length < depth) :
    Advances (Value.decodeTo depth) d Spells False := by
  induction depth generalizing d with
  | zero => cases hdepth
  | succ depth ih =>
    have hle := Nat.le_of_lt_succ hdepth
    rw [Value.decodeTo]
    refine peekByte hd fun b tail _ => ?_
    split_ifs
    · refine (readDict hd hle fun d' => ih).bind ?_
      intro map bytes rest _ h
      exact pure (by rwa [List.append_nil])
    · refine (readList hd hle fun d' => ih).bind ?_
      intro vs bytes rest _ h
      exact pure (by rwa [List.append_nil])
    · refine (readInteger .i64 hd).bind ?_
      rintro n _ rest - ⟨token, rfl, hnumber, haccept⟩
      refine pure ⟨.integer token, .integer hnumber haccept, ?_⟩
      rw [List.append_nil, Item.spell]
    · refine (readByteString hd).bind ?_
      rintro bs _ rest - rfl
      have hspells : Spells (stringValue bs) (printString bs) := ⟨.string bs, .string bs, rfl⟩
      rw [stringValue] at hspells
      cases hs : fromUtf8 bs with
      | none =>
        rw [hs] at hspells
        exact pure (by rwa [List.append_nil])
      | some s =>
        rw [hs] at hspells
        exact pure (by rwa [List.append_nil])
    · exact fail _

theorem decode (hd : d.InSlice) : Advances Value.decode d Spells False :=
  get (decodeTo hd (Nat.lt_succ_self _))

end Advances

theorem MeansItems.zipped {items : List Item} {vs : List Value} (h : MeansItems items vs) :
    ∃ es : List (Item × Value), es.map Prod.fst = items ∧
      es.mapM (fun e => some e.2) = some vs ∧ ∀ e ∈ es, Means e.1 e.2 := by
  induction items generalizing vs with
  | nil =>
    cases h
    exact ⟨[], rfl, rfl, nofun⟩
  | cons i items ih =>
    cases h with
    | @cons _ v _ _ hhead htail =>
      obtain ⟨es, rfl, hvs, hall⟩ := ih htail
      refine ⟨(i, v) :: es, rfl, ?_, List.forall_mem_cons.mpr ⟨hhead, hall⟩⟩
      rw [List.mapM_cons, hvs]
      rfl

theorem MeansEntries.zipped {entries : List (Bytes × Item)} {es : List (String × Value)}
    (h : MeansEntries entries es) :
    ∃ xs : List (Bytes × Item × Value), xs.map (fun x => (x.1, x.2.1)) = entries ∧
      xs.mapM (readPair fun e => some e.2) = some es ∧ ∀ x ∈ xs, Means x.2.1 x.2.2 := by
  induction entries generalizing es with
  | nil =>
    cases h
    exact ⟨[], rfl, rfl, nofun⟩
  | cons e entries ih =>
    cases h with
    | @cons key i v _ _ hhead htail =>
      obtain ⟨xs, rfl, hes, hall⟩ := ih htail
      refine ⟨(asBytes key, i, v) :: xs, rfl, ?_, List.forall_mem_cons.mpr ⟨hhead, hall⟩⟩
      rw [List.mapM_cons, hes, readPair, fromUtf8_asBytes]
      rfl

theorem head?_spell (i : Item) : ∃ b, i.spell.head? = some b ∧ b ≠ 101 := by
  cases i with
  | string bytes => exact head?_printString_ne bytes rfl
  | _ => exact ⟨_, rfl, by decide⟩

namespace Reads

theorem decodeItemTo {i : Item} {v : Value} (h : Means i v) {depth : ℕ}
    (hdepth : i.spell.length ≤ depth) : Reads (Value.decodeTo depth) i.spell (some v) := by
  obtain ⟨depth, rfl⟩ : ∃ depth', depth = depth' + 1 := by
    have hpos := List.length_pos_of_ne_nil (spell_ne_nil i)
    exact Nat.exists_eq_succ_of_ne_zero (by omega)
  induction i using Item.induct generalizing depth v with
  | integer token =>
    cases h with
    | integer hnumber haccept =>
      rw [Value.decodeTo, Item.spell]
      apply peekByte rfl
      have hread := readAccepted .i64 hnumber
      rw [haccept] at hread
      exact hread.map
  | string bytes =>
    cases h with
    | string => exact decodeString bytes depth
  | list items ih =>
    cases h with
    | @list _ vs hitems =>
      obtain ⟨es, rfl, hvs, hall⟩ := hitems.zipped
      rw [Item.spell, List.length_cons, List.length_append] at hdepth
      have heach : ∀ e ∈ es, Reads (Value.decodeTo depth) e.1.spell (some e.2) := by
        intro e he
        have hmem := List.mem_map_of_mem (f := Prod.fst) he
        have hle := length_spell_le_items hmem
        have hpos := List.length_pos_of_ne_nil (spell_ne_nil e.1)
        obtain ⟨depth, rfl⟩ := Nat.exists_eq_succ_of_ne_zero (show depth ≠ 0 by omega)
        exact ih e.1 hmem (hall e he) depth (by omega)
      have hlist := readChunks (fun t ht => heach t ht.mem) fun e _ => head?_spell e.1
      rw [hvs] at hlist
      rw [Value.decodeTo, Item.spell, spellItems_eq_flatten, List.map_map]
      apply peekByte rfl
      exact hlist.map
  | dict entries ih =>
    cases h with
    | @dict _ es hentries =>
      obtain ⟨xs, rfl, hes, hall⟩ := hentries.zipped
      rw [Item.spell, List.length_cons, List.length_append] at hdepth
      have heach : ∀ x ∈ xs, Reads (Value.decodeTo depth) x.2.1.spell (some x.2.2) := by
        intro x hx
        have hmem := List.mem_map_of_mem (f := fun x : Bytes × Item × Value => (x.1, x.2.1)) hx
        have hle := length_spell_le_entries hmem
        have hpos := List.length_pos_of_ne_nil (spell_ne_nil x.2.1)
        dsimp only at hle
        obtain ⟨depth, rfl⟩ := Nat.exists_eq_succ_of_ne_zero (show depth ≠ 0 by omega)
        exact ih _ hmem (hall x hx) depth (by dsimp only; omega)
      have hdict : Reads (Decoder.readDict (Value.decodeTo depth))
          (100 :: ((xs.map (printPair fun e : Item × Value => e.1.spell)).flatten ++ [101]))
          ((xs.mapM (readPair fun e => some e.2)).map (insertAll [])) := readPairs heach
      rw [hes] at hdict
      rw [Value.decodeTo, Item.spell, spellEntries_eq_flatten, List.map_map]
      apply peekByte rfl
      exact hdict.map

theorem decodeItem {i : Item} {v : Value} (h : Means i v) :
    Reads Value.decode i.spell (some v) := by
  rw [Value.decode]
  apply get
  intro d hd
  exact decodeItemTo h (Nat.le_succ_of_le hd)

end Reads

/-- The decoder accepts just the items that have a value. -/
theorem decode_iff {d d' : Decoder} {v : Value} (hd : d.InSlice) :
    Value.decode d = .ok v d' ↔ ∃ i, d.Moves i.spell d' ∧ Means i v := by
  constructor
  · intro h
    obtain ⟨_, hmoves, i, hmeans, rfl⟩ := (Advances.decode hd).of_ok h
    exact ⟨i, hmoves, hmeans⟩
  · rintro ⟨i, hmoves, hmeans⟩
    exact (Reads.decodeItem hmeans).ok_of_moves hd hmoves

theorem MeansItems.exists_of_mem {items : List Item} {vs : List Value} (h : MeansItems items vs)
    {i : Item} (hi : i ∈ items) : ∃ v, Means i v := by
  induction items generalizing vs with
  | nil => cases hi
  | cons j items ih =>
    cases h with
    | cons hhead htail =>
      rcases List.mem_cons.mp hi with rfl | hi
      · exact ⟨_, hhead⟩
      · exact ih htail hi

theorem MeansEntries.exists_of_mem {entries : List (Bytes × Item)} {es : List (String × Value)}
    (h : MeansEntries entries es) {e : Bytes × Item} (he : e ∈ entries) : ∃ v, Means e.2 v := by
  induction entries generalizing es with
  | nil => cases he
  | cons e' entries ih =>
    cases h with
    | cons key hhead htail =>
      rcases List.mem_cons.mp he with rfl | he
      · exact ⟨_, hhead⟩
      · exact ih htail he

theorem Means.delimited {i : Item} {v : Value} (h : Means i v) : i.Delimited := by
  induction i using Item.induct generalizing v with
  | integer token =>
    cases h with
    | integer hnumber _ =>
      intro hmem
      cases hnumber 101 hmem
  | string bytes => trivial
  | list items ih =>
    cases h with
    | list hitems =>
      refine ⟨trivial, allItems_iff.mpr fun i hi => ?_⟩
      obtain ⟨v, hv⟩ := hitems.exists_of_mem hi
      exact ih i hi hv
  | dict entries ih =>
    cases h with
    | dict hentries =>
      refine ⟨trivial, allEntries_iff.mpr fun e he => ?_⟩
      obtain ⟨v, hv⟩ := hentries.exists_of_mem he
      exact ih e he hv

/-- The decoder has moved over an item, the only one there is, and writing the value of an item
in canonical form gives the item back. -/
theorem reencoded_of_decode {d d' : Decoder} {v : Value} (hd : d.InSlice)
    (h : Value.decode d = .ok v d') :
    ∃ i : Item, d.Moves i.spell d' ∧ Means i v ∧
      (∀ j : Item, j.Delimited → ∀ r, d.rest = j.spell ++ r → j = i ∧ r = d'.rest) ∧
      (i.Ascending → i.Decimal → v.encoded = i.spell) := by
  obtain ⟨_, hmoves, i, hmeans, rfl⟩ := (Advances.decode hd).of_ok h
  refine ⟨i, hmoves, hmeans, ?_, ?_⟩
  · intro j hj r hr
    exact j.readable i hj hmeans.delimited r d'.rest (hr.symm.trans hmoves.1)
  · intro hascending hdecimal
    obtain ⟨t, hsorted, hprint⟩ := Item.tree_of_canonical hascending hdecimal
    rw [← hprint] at hmoves
    obtain ⟨p, r, rfl, rfl⟩ := hmoves.ends
    have hlt : p + (t.print ++ r).length < 2 ^ 64 := Nat.lt_trans hd (by decide)
    have hv := ((Reads.decode_tree t).eq_of_ok hlt h).1
    rw [Value.encoded_eq, (toTree_of_valueOf hsorted hv).1, hprint]

/-- A dictionary with an integer and a list. -/
def canonicalItem : Item := .dict [([97], .integer [45, 55]), ([98], .list [])]

theorem reencoded_of_decode_dict :
    ∃ v d', Value.decode ⟨0, canonicalItem.spell ++ [120]⟩ = .ok v d' ∧
      v.encoded = canonicalItem.spell := by
  have hread := Reads.decode_tree (.dict [([97], .integer (-7)), ([98], .list [])]) 0 [120]
  obtain ⟨v, hv⟩ : ∃ v, valueOf (.dict [([97], .integer (-7)), ([98], .list [])]) = some v := ⟨_, rfl⟩
  rw [hv] at hread
  have hprint : (Tree.dict [([97], .integer (-7)), ([98], .list [])]).print = canonicalItem.spell := by
    decide +kernel
  rw [hprint] at hread
  have hdecode : Value.decode ⟨0, canonicalItem.spell ++ [120]⟩ = .ok v _ := hread (by decide +kernel)
  obtain ⟨i, -, -, honly, hcanonical⟩ := reencoded_of_decode (by decide +kernel) hdecode
  have hend : (101 : UInt8) ∉ ([45, 55] : Bytes) := by decide
  have hdelimited : canonicalItem.Delimited := ⟨trivial, hend, ⟨trivial, trivial⟩, trivial⟩
  obtain ⟨rfl, -⟩ := honly canonicalItem hdelimited [120] rfl
  refine ⟨v, _, hdecode, hcanonical ⟨?_, trivial, ⟨trivial, trivial⟩, trivial⟩ ?_⟩
  · exact List.pairwise_pair.mpr (by decide)
  · exact ⟨trivial, ⟨-7, by decide +kernel⟩, ⟨trivial, trivial⟩, trivial⟩

end TorrentClient
