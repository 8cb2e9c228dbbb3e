import TorrentClient.DecoderReads
import TorrentClient.StreamingDecoder

/-!
# Skipped items

`skip_item` moves the cursor behind all bytes that have the brackets of an item, which a printed
tree has. The loops that skip the rest of a list or of a dictionary stop at its end marker.
-/
namespace TorrentClient
open Bencode DecimalNumerals

variable {β : Type}

theorem head?_printEntry (e : Bytes × Tree) :
    ∃ b, (printEntry e).head? = some b ∧ b ≠ 101 := by
  obtain ⟨b, hb, hne⟩ := head?_printString_ne e.1 (c := 101) rfl
  exact ⟨b, by rw [printEntry, List.head?_append, hb]; rfl, hne⟩

namespace Reads
open Decoder

variable {bytes bytes' : Bytes} {result : Option β}

/-- `read_byte` and what comes after it. -/
theorem readByte_then {f : UInt8 → DecoderM β} {b : UInt8} (h : Reads (f b) bytes result) :
    Reads (do let b ← Decoder.readByte; f b) (b :: bytes) result := by
  refine (readByte b).bind (g := fun _ => result) ?_
  rintro _ ⟨rfl⟩
  exact h

theorem skipWhileLoop {predicate : UInt8 → Bool} {y : DecoderM β} {c : UInt8}
    (hall : ∀ b ∈ bytes, predicate b = true) (hc : predicate c = false) {fuel : ℕ}
    (hfuel : bytes.length < fuel) (h : Reads y (c :: bytes') result) :
    Reads (do skipWhileLoop predicate fuel; y) (bytes ++ c :: bytes') result := by
  induction bytes generalizing fuel with
  | nil =>
    cases fuel with
    | zero => cases hfuel
    | succ fuel =>
      rw [Decoder.skipWhileLoop, bind_assoc]
      apply peekByte rfl
      simpa [hc] using h
  | cons b bytes ih =>
    cases fuel with
    | zero => cases hfuel
    | succ fuel =>
      obtain ⟨hb, hall⟩ := List.forall_mem_cons.mp hall
      rw [Decoder.skipWhileLoop, bind_assoc]
      apply peekByte rfl
      rw [if_pos hb, bind_assoc]
      apply readByte_then
      exact ih hall (Nat.lt_of_succ_lt_succ hfuel)

theorem skipWhile {predicate : UInt8 → Bool} {y : DecoderM β} {c : UInt8}
    (hall : ∀ b ∈ bytes, predicate b = true) (hc : predicate c = false)
    (h : Reads y (c :: bytes') result) :
    Reads (do skipWhile predicate; y) (bytes ++ c :: bytes') result := by
  rw [Decoder.skipWhile, bind_assoc]
  apply get
  intro d hd
  rw [List.length_append] at hd
  exact skipWhileLoop hall hc (by omega) h

theorem skip (bytes : Bytes) : Reads (Decoder.skip bytes.length) bytes (some ()) := by
  intro p r hlt
  rw [List.length_append] at hlt
  have hstop : p + bytes.length < 2 ^ 64 := by omega
  have hskip : Decoder.skip bytes.length ⟨p, bytes ++ r⟩ =
      .ok () (Decoder.advance ⟨p, bytes ++ r⟩ bytes.length) := by
    rw [Decoder.skip, bind_of_ok (get_ok _), checkedAdd_of_lt hstop, bind_of_ok (pureStep_ok _ _),
      if_neg (show ¬ p + (bytes ++ r).length < p + bytes.length by
        rw [List.length_append]
        omega)]
    rfl
  rw [hskip, advance, List.drop_left]
  exact rfl

/-- A loop over chunks that each turn skips, none of which starts with the end marker. -/
theorem skipLoop {step : DecoderM Unit} {y : DecoderM β} {chunks : List Bytes}
    (hstep : ∀ c ∈ chunks, Reads step c (some ()))
    (hhead : ∀ c ∈ chunks, ∃ b, c.head? = some b ∧ b ≠ 101) {fuel : ℕ}
    (hfuel : chunks.length < fuel) (h : Reads y (101 :: bytes') result) :
    Reads (do skipLoop step fuel; y) (chunks.flatten ++ 101 :: bytes') result := by
  induction chunks generalizing fuel with
  | nil =>
    cases fuel with
    | zero => cases hfuel
    | succ fuel =>
      rw [Decoder.skipLoop, bind_assoc]
      apply peekByte rfl
      simpa using h
  | cons c chunks ih =>
    cases fuel with
    | zero => cases hfuel
    | succ fuel =>
      obtain ⟨hc, hstep⟩ := List.forall_mem_cons.mp hstep
      obtain ⟨⟨b, hb, hne⟩, hhead⟩ := List.forall_mem_cons.mp hhead
      rw [Decoder.skipLoop, bind_assoc, List.flatten_cons, List.append_assoc]
      apply peekByte (by rw [List.head?_append, hb]; rfl)
      rw [if_neg hne, bind_assoc]
      refine hc.bind (g := fun _ => result) fun _ _ => ?_
      exact ih hstep hhead (Nat.lt_of_succ_lt_succ hfuel)

end Reads

/-- Entries as they are written, each a key and a value. -/
def joinEntries (entries : List (Bytes × Bytes)) : Bytes :=
  (entries.map fun e => e.1 ++ e.2).flatten

/-- The bytes that `skip_item` moves over. In a dictionary that is skipped any item is a key. -/
inductive Skippable : Bytes → Prop where
  | integer {token : Bytes} (number : ∀ b ∈ token, isNumber b = true) :
      Skippable (105 :: (token ++ [101]))
  | string (bytes : Bytes) : Skippable (printString bytes)
  | list {items : List Bytes} (each : ∀ c ∈ items, Skippable c) :
      Skippable (108 :: (items.flatten ++ [101]))
  | dict {entries : List (Bytes × Bytes)} (keys : ∀ e ∈ entries, Skippable e.1)
      (values : ∀ e ∈ entries, Skippable e.2) :
      Skippable (100 :: (joinEntries entries ++ [101]))

theorem Skippable.head? {bytes : Bytes} (h : Skippable bytes) :
    ∃ b, bytes.head? = some b ∧ b ≠ 101 := by
  cases h with
  | string bytes => exact head?_printString_ne bytes rfl
  | _ => exact ⟨_, rfl, by decide⟩

theorem Skippable.ne_nil {bytes : Bytes} (h : Skippable bytes) : bytes ≠ [] := by
  obtain ⟨b, hb, -⟩ := h.head?
  rintro rfl
  cases hb

theorem length_le_joinEntries {entries : List (Bytes × Bytes)}
    (keys : ∀ e ∈ entries, Skippable e.1) : entries.length ≤ (joinEntries entries).length := by
  have hsome : ∀ c ∈ entries.map fun e => e.1 ++ e.2, c ≠ [] := by
    intro c hc
    obtain ⟨e, he, rfl⟩ := List.mem_map.mp hc
    exact fun h => (keys e he).ne_nil (List.append_eq_nil_iff.mp h).1
  exact (List.length_map _).symm.le.trans (length_le_flatten hsome)

theorem length_add_le_joinEntries {entries : List (Bytes × Bytes)} {e : Bytes × Bytes}
    (he : e ∈ entries) : e.1.length + e.2.length ≤ (joinEntries entries).length := by
  rw [← List.length_append]
  exact length_le_flatten_of_mem (List.mem_map_of_mem he)

namespace Reads
open Decoder

/-- The items of a list up to its end marker, which is consumed. -/
theorem skipItems {step : DecoderM Unit} {items : List Bytes} (hskip : ∀ c ∈ items, Skippable c)
    (h : ∀ c ∈ items, Reads step c (some ())) {fuel : ℕ} (hfuel : items.length < fuel) :
    Reads (do Decoder.skipLoop step fuel; Decoder.expect 101) (items.flatten ++ [101])
      (some ()) := skipLoop h (fun c hc => (hskip c hc).head?) hfuel (expect 101)

/-- The entries of a dictionary, each as two items. -/
theorem skipEntries {step : DecoderM Unit} {entries : List (Bytes × Bytes)}
    (hskip : ∀ e ∈ entries, Skippable e.1) (hkeys : ∀ e ∈ entries, Reads step e.1 (some ()))
    (hvalues : ∀ e ∈ entries, Reads step e.2 (some ())) {fuel : ℕ} (hfuel : entries.length < fuel) :
    Reads (do Decoder.skipLoop (do step; step) fuel; Decoder.expect 101)
      (joinEntries entries ++ [101]) (some ()) := by
  apply skipLoop _ _ (by rwa [List.length_map]) (expect 101)
  · intro c hc
    obtain ⟨e, he, rfl⟩ := List.mem_map.mp hc
    exact (hkeys e he).bind fun _ _ => hvalues e he
  · intro c hc
    obtain ⟨e, he, rfl⟩ := List.mem_map.mp hc
    obtain ⟨b, hb, hne⟩ := (hskip e he).head?
    exact ⟨b, by rw [List.head?_append, hb]; rfl, hne⟩

theorem skipString (bytes : Bytes) {depth : ℕ} :
    Reads (skipItemTo (depth + 1)) (printString bytes) (some ()) := by
  obtain ⟨b, hb, hdigit⟩ := head?_printString bytes
  have hother : ¬ b = 100 ∧ ¬ b = 108 ∧ ¬ b = 105 := by
    refine ⟨?_, ?_, ?_⟩ <;> rintro rfl <;> cases hdigit
  rw [skipItemTo]
  apply peekByte hb
  rw [if_neg hother.1, if_neg hother.2.1, if_neg hother.2.2, if_pos hdigit]
  intro p r hlt
  have hlen : bytes.length < 2 ^ 64 := by
    simp only [printString, List.length_append, List.length_cons] at hlt
    omega
  have hin := contains_usize.mpr hlen
  have hskip : Reads (do
      let n ← Decoder.readNumber .usize
      Decoder.expect 58
      Decoder.skip n.toNat) (intNumeral bytes.length ++ 58 :: bytes)
      (if IntegerType.usize.Contains bytes.length then some () else none) := by
    apply readNumber rfl
    intro _
    apply expect_then
    rw [Int.toNat_natCast]
    exact skip bytes
  rw [if_pos hin, intNumeral_ofNat] at hskip
  exact hskip p r hlt

/-- The bytes are skipped at any depth that their number does not exceed. -/
theorem skipItemTo {bytes : Bytes} (h : Skippable bytes) {depth : ℕ}
    (hdepth : bytes.length ≤ depth) : Reads (Decoder.skipItemTo depth) bytes (some ()) := by
  induction h generalizing depth with
  | integer hnumber =>
    cases depth with
    | zero => cases hdepth
    | succ depth =>
      rw [Decoder.skipItemTo]
      apply peekByte rfl
      apply expect_then
      exact skipWhile hnumber rfl (expect 101)
  | string bytes =>
    cases depth with
    | zero => exact absurd (List.length_eq_zero_iff.mp (Nat.le_zero.mp hdepth)) (printString_ne_nil _)
    | succ depth => exact skipString bytes
  | @list items each ih =>
    cases depth with
    | zero => cases hdepth
    | succ depth =>
      rw [Decoder.skipItemTo]
      rw [List.length_cons, List.length_append] at hdepth
      apply peekByte rfl
      rw [if_neg (by decide), if_pos rfl]
      apply readByte_then
      apply get
      intro d hd
      have hlen := length_le_flatten fun c hc => (each c hc).ne_nil
      rw [List.length_append] at hd
      refine skipItems each (fun c hc => ?_) (by omega)
      have := length_le_flatten_of_mem hc
      exact ih c hc (by omega)
  | @dict entries keys values ihkeys ihvalues =>
    cases depth with
    | zero => cases hdepth
    | succ depth =>
      rw [Decoder.skipItemTo]
      rw [List.length_cons, List.length_append] at hdepth
      apply peekByte rfl
      rw [if_pos rfl]
      apply readByte_then
      apply get
      intro d hd
      have hlen := length_le_joinEntries keys
      rw [List.length_append] at hd
      refine skipEntries keys (fun e he => ihkeys e he ?_) (fun e he => ihvalues e he ?_) (by omega)
      · have := length_add_le_joinEntries he
        omega
      · have := length_add_le_joinEntries he
        omega

theorem skipBytes {bytes : Bytes} (h : Skippable bytes) :
    Reads Decoder.skipItem bytes (some ()) := by
  rw [Decoder.skipItem]
  apply get
  intro d hd
  exact skipItemTo h (Nat.le_succ_of_le hd)

/-- The rest of a struct. -/
theorem skipRest {entries : List (Bytes × Bytes)} (keys : ∀ e ∈ entries, Skippable e.1)
    (values : ∀ e ∈ entries, Skippable e.2) :
    Reads Decoder.skipFields (joinEntries entries ++ [101]) (some ()) := by
  rw [Decoder.skipFields]
  apply get
  intro d hd
  have hlen := length_le_joinEntries keys
  rw [List.length_append] at hd
  exact skipEntries keys (fun e he => skipBytes (keys e he)) (fun e he => skipBytes (values e he))
    (by omega)

end Reads

theorem printEntries_eq_join (entries : List (Bytes × Tree)) :
    printEntries entries = joinEntries (entries.map fun e => (printString e.1, e.2.print)) := by
  rw [printEntries_eq_flatten, joinEntries, List.map_map]
  rfl

theorem skippable_print (t : Tree) : Skippable t.print := by
  induction t using Tree.induct with
  | integer i => exact .integer fun _ hb => isNumber_of_mem_intNumeral hb
  | string bytes => exact .string bytes
  | list items ih =>
    rw [Tree.print, printItems_eq_flatten]
    exact .list (List.forall_mem_map.mpr ih)
  | dict entries ih =>
    rw [Tree.print, printEntries_eq_join]
    exact .dict (List.forall_mem_map.mpr fun e _ => .string e.1) (List.forall_mem_map.mpr ih)

namespace Reads

theorem skipItem (t : Tree) : Reads Decoder.skipItem t.print (some ()) :=
  skipBytes (skippable_print t)

/-- The rest of a struct. -/
theorem skipFields (entries : List (Bytes × Tree)) :
    Reads Decoder.skipFields (printEntries entries ++ [101]) (some ()) := by
  rw [printEntries_eq_join]
  exact skipRest (List.forall_mem_map.mpr fun e _ => .string e.1)
    (List.forall_mem_map.mpr fun e _ => skippable_print e.2)

end Reads
end TorrentClient
