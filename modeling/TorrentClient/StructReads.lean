import TorrentClient.FieldReads

/-!
# Structs read from the bytes

The body of a struct does on the printed entries of a dictionary what an entry reader does
on the entries: `Simulates` says so for every place where the dictionary may stand in a stream,
and the rules follow the functions that read fields.
-/
namespace TorrentClient
open Bencode DecimalNumerals
open Decoder

variable {α β : Type}

section Attempts

variable {x : DecoderM α} {decode : DecoderM α} {name : String} {d d' : Decoder}

theorem attempt_of_ok {a : α} (h : x d = .ok a d') : attempt x d = .ok (.ok a) d' := by
  rw [attempt, h]

theorem attempt_of_error {e : DecodeError} (h : x d = .error (.err e) d') :
    attempt x d = .ok (.error e) d' := by
  rw [attempt, h]

theorem attempt_of_panic (h : x d = .error .panic d') : attempt x d = .error .panic d' := by
  rw [attempt, h]

theorem readOption_of_ok {a : α} (h : readField decode name d = .ok a d') :
    readOption decode name d = .ok (some a) d' := by
  rw [readOption, bind_of_ok (attempt_of_ok h)]
  rfl

theorem readOption_of_missing {m : String}
    (h : readField decode name d = .error (.err (.missingField m)) d') :
    readOption decode name d = .ok none d' := by
  rw [readOption, bind_of_ok (attempt_of_error h)]
  rfl

theorem readOption_of_error {e : Fault DecodeError} (h : readField decode name d = .error e d')
    (hmissing : ∀ m, e ≠ .err (.missingField m)) : readOption decode name d = .error e d' := by
  cases e with
  | panic => rw [readOption, bind_of_error (attempt_of_panic h)]
  | err e =>
    rw [readOption, bind_of_ok (attempt_of_error h)]
    cases e with
    | missingField m => exact absurd rfl (hmissing m)
    | _ => rfl

end Attempts

/-- The body of a struct does in front of the printed entries what the reader does with them. -/
def SimulatesAt (x : DecoderM α) (y : EntryReader α) (es : Entries) : Prop :=
  ∀ n r, FieldsFit n es r →
    (∀ a rest, y es = some (a, rest) →
      rest <:+ es ∧ x (atFields n es r) = .ok a (atFields n rest r)) ∧
    (y es = none → ∃ e d, x (atFields n es r) = .error e d)

/-- It does so for every dictionary with ascending keys. -/
def Simulates (x : DecoderM α) (y : EntryReader α) : Prop :=
  ∀ es, (Tree.dict es).Sorted → SimulatesAt x y es

namespace SimulatesAt

open EntryReader

variable {x : DecoderM α} {y : EntryReader α} {es : Entries}

theorem bind {f : α → DecoderM β} {g : α → EntryReader β} (hx : SimulatesAt x y es)
    (hf : ∀ a es', y es = some (a, es') → es' <:+ es → SimulatesAt (f a) (g a) es') :
    SimulatesAt (x >>= f) (y >>= g) es := by
  intro n r hfit
  obtain ⟨hok, hfail⟩ := hx n r hfit
  cases hy : y es with
  | none =>
    obtain ⟨e, d, hrun⟩ := hfail hy
    rw [run_bind, hy]
    exact ⟨nofun, fun _ => ⟨e, d, bind_of_error hrun⟩⟩
  | some p =>
    obtain ⟨a, es'⟩ := p
    obtain ⟨hsuffix, hrun⟩ := hok a es' hy
    obtain ⟨hok', hfail'⟩ := hf a es' hy hsuffix n r (hfit.suffix hsuffix)
    rw [run_bind, hy, Option.bind_some, bind_of_ok hrun]
    refine ⟨fun b rest h => ?_, hfail'⟩
    obtain ⟨hsuffix', hrun'⟩ := hok' b rest h
    exact ⟨hsuffix'.trans hsuffix, hrun'⟩

/-- Where the body returns, the reader does. -/
theorem of_ok (h : SimulatesAt x y es) {n : ℕ} {r : Bytes} (hfit : FieldsFit n es r) {a : α}
    {d : Decoder} (hrun : x (atFields n es r) = .ok a d) :
    ∃ rest, y es = some (a, rest) ∧ rest <:+ es ∧ d = atFields n rest r := by
  obtain ⟨hok, hfail⟩ := h n r hfit
  cases hy : y es with
  | none =>
    obtain ⟨e, d', herror⟩ := hfail hy
    cases herror.symm.trans hrun
  | some p =>
    obtain ⟨a', rest⟩ := p
    obtain ⟨hsuffix, hrun'⟩ := hok a' rest hy
    cases hrun'.symm.trans hrun
    exact ⟨rest, rfl, hsuffix, rfl⟩

theorem of_endsAt (hsuffix : ∀ a rest, y es = some (a, rest) → rest <:+ es)
    (h : ∀ n r, FieldsFit n es r → ∃ rest o, y es = Option.map (fun a => (a, rest)) o ∧
      EndsAt (atFields n rest r) o (x (atFields n es r))) : SimulatesAt x y es := by
  intro n r hfit
  obtain ⟨rest, o, hy, hends⟩ := h n r hfit
  cases o with
  | none => exact ⟨fun a rest h => (nomatch hy.symm.trans h), fun _ => hends⟩
  | some a =>
    refine ⟨fun a' rest' h => ?_, fun h => (nomatch hy.symm.trans h)⟩
    cases hy.symm.trans h
    exact ⟨hsuffix a rest h, hends⟩

variable {decode : DecoderM α} {dec : Tree → Option α} {name : String}

theorem readField_found {rest : Entries} {t : Tree} (hdec : Reads decode t.print (dec t)) {n : ℕ}
    {r : Bytes} (hfit : FieldsFit n es r) (hl : locate name es = .found t rest) :
    EndsAt (atFields n rest r) (dec t) (Decoder.readField decode name (atFields n es r)) := by
  have hends := readField_ends decode name hfit
  rw [hl] at hends
  rw [show Decoder.readField decode name (atFields n es r) = _ from hends]
  exact hdec.inFront (hfit.value hl)

theorem readField
    (hdec : ∀ t rest, locate name es = .found t rest → Reads decode t.print (dec t)) :
    SimulatesAt (readField decode name) (takeField dec name) es := by
  refine of_endsAt (fun a rest h => (passes_takeField _ _ _ _ _ h).suffix) ?_
  intro n r hfit
  have hends := readField_ends decode name hfit
  cases hl : locate name es with
  | found t rest =>
    have hfound := readField_found (hdec t rest hl) hfit hl
    exact ⟨rest, dec t, by rw [takeField, hl], hfound⟩
  | missing =>
    rw [hl] at hends
    exact ⟨es, none, by rw [takeField, hl]; rfl, _, _, hends⟩
  | invalid =>
    rw [hl] at hends
    exact ⟨es, none, by rw [takeField, hl]; rfl, _, hends⟩

end SimulatesAt

namespace Simulates

open EntryReader

theorem pure (a : α) : Simulates (pure a) (pure a) := by
  intro es _ n r _
  refine ⟨?_, nofun⟩
  rintro _ _ ⟨rfl⟩
  exact ⟨List.suffix_refl es, rfl⟩

theorem bind {x : DecoderM α} {y : EntryReader α} {f : α → DecoderM β} {g : α → EntryReader β}
    (hx : Simulates x y) (hf : ∀ a, Simulates (f a) (g a)) : Simulates (x >>= f) (y >>= g) :=
  fun es hs => (hx es hs).bind fun a es' _ h => hf a es' (sorted_of_suffix hs h)

variable {decode : DecoderM α} {dec : Tree → Option α} {name : String}

theorem readField (hdec : ∀ t : Tree, t.Sorted → Reads decode t.print (dec t)) :
    Simulates (readField decode name) (takeField dec name) :=
  fun _ hs => SimulatesAt.readField fun t _ hl =>
    hdec t (sortedEntries_iff.mp hs.2 _ (passed_of_locate hl).2)

/-- The other errors of `read_option` are those of the field. -/
theorem readOption (hmissing : NoMissing decode)
    (hdec : ∀ t : Tree, t.Sorted → Reads decode t.print (dec t)) :
    Simulates (readOption decode name) (takeOption dec name) := by
  intro es hs
  refine SimulatesAt.of_endsAt (fun a rest h => (passes_takeOption _ _ _ _ _ h).suffix) ?_
  intro n r hfit
  have hends := readField_ends decode name hfit
  cases hl : locate name es with
  | found t rest =>
    rw [hl] at hends
    have hsorted := sortedEntries_iff.mp hs.2 _ (passed_of_locate hl).2
    have hfound := SimulatesAt.readField_found (hdec t hsorted) hfit hl
    refine ⟨rest, (dec t).map some, by rw [takeOption, hl, Option.map_map]; rfl, ?_⟩
    cases hd : dec t with
    | some a =>
      rw [hd] at hfound
      exact readOption_of_ok hfound
    | none =>
      rw [hd] at hfound
      obtain ⟨e, d, hfail⟩ := hfound
      refine ⟨e, d, readOption_of_error hfail ?_⟩
      rintro m rfl
      exact hmissing _ m d ((show _ = _ from hends).symm.trans hfail)
  | missing =>
    rw [hl] at hends
    exact ⟨es, some none, by rw [takeOption, hl]; rfl, readOption_of_missing hends⟩
  | invalid =>
    rw [hl] at hends
    obtain ⟨d, hfail⟩ := hends
    refine ⟨es, none, by rw [takeOption, hl]; rfl, _, d, readOption_of_error hfail ?_⟩
    rintro m ⟨⟩

theorem readFieldCombine {dec : Tree → Option (List α)}
    (hdec : ∀ t : Tree, t.Sorted → Reads (readList decode) t.print (dec t)) :
    Simulates (readFieldCombine decode name) (takeCombined dec name) := by
  intro es hs
  refine SimulatesAt.of_endsAt (fun a rest h => (passes_takeCombined _ _ _ _ _ h).suffix) ?_
  intro n r hfit
  have hlen : es.length ≤ (printEntries es ++ 101 :: r).length := by
    rw [List.length_append]
    exact Nat.le_add_right_of_le (length_entries_le es)
  have hloop : Returns ((locate name es).combined dec n r (atFields n es r) [])
      (readFieldCombineLoop decode name ((atFields n es r).remaining + 1) (atFields n es r) []
        (atFields n es r)) :=
    readFieldCombineLoop_ends hdec hs (Nat.lt_succ_of_le hlen) hfit
  rw [takeCombined, Decoder.readFieldCombine, bind_of_ok (get_ok _)]
  cases hl : locate name es with
  | found t rest =>
    rw [hl, Located.combined] at hloop
    dsimp only
    cases hd : dec t with
    | none =>
      rw [hd] at hloop
      obtain ⟨e, d, hrun⟩ := hloop
      exact ⟨rest, none, rfl, e, d, bind_of_error hrun⟩
    | some list =>
      rw [hd, Option.bind_some] at hloop
      rw [Option.bind_some]
      cases hnext : nextValid rest with
      | false =>
        rw [hnext, if_neg Bool.false_ne_true] at hloop
        obtain ⟨e, d, hrun⟩ := hloop
        exact ⟨rest, none, if_neg (fun h => Bool.false_ne_true h.2), e, d, bind_of_error hrun⟩
      | true =>
        rw [hnext, if_pos rfl] at hloop
        obtain ⟨d, hrun⟩ := hloop
        rw [bind_of_ok hrun]
        cases list with
        | nil => exact ⟨rest, none, if_neg fun h => h.1 rfl, _, _, rfl⟩
        | cons a list => exact ⟨rest, some (some (a :: list)), if_pos ⟨List.cons_ne_nil _ _, rfl⟩, rfl⟩
  | missing =>
    rw [hl] at hloop
    obtain ⟨d, hrun⟩ := hloop
    refine ⟨es, none, rfl, _, _, bind_of_ok hrun⟩
  | invalid =>
    rw [hl] at hloop
    obtain ⟨e, d, hrun⟩ := hloop
    exact ⟨es, none, rfl, e, d, bind_of_error hrun⟩

end Simulates

theorem skipFields_atFields {n : ℕ} {es : Entries} {r : Bytes} (hfit : FieldsFit n es r) :
    skipFields (atFields n es r) = .ok () (inFront n r) := by
  have hbytes : printEntries es ++ 101 :: r = printEntries es ++ [101] ++ r := by
    rw [List.append_assoc]
    rfl
  rw [FieldsFit, hbytes] at hfit
  rw [atFields, hbytes]
  exact (Reads.skipFields es).inFront_ok hfit

namespace Reads

theorem of_inFront {x : DecoderM α} {bytes : Bytes} {result : Option α}
    (h : ∀ n r, Fits n (bytes ++ r) →
      EndsAt (Decoder.inFront n r) result (x (Decoder.inFront n (bytes ++ r)))) :
    Reads x bytes result := by
  intro p r hlt
  have hends := h (p + (bytes ++ r).length) r ⟨Nat.le_add_left _ _, hlt⟩
  have hstop : Decoder.inFront (p + (bytes ++ r).length) r = ⟨p + bytes.length, r⟩ := by
    rw [List.length_append, ← Nat.add_assoc, ← eq_inFront]
  rwa [← eq_inFront, hstop] at hends

theorem expect_ne {y : DecoderM α} {bytes : Bytes} {b c : UInt8} (hb : bytes.head? = some b)
    (hne : b ≠ c) : Reads (do Decoder.expect c; y) bytes none := by
  intro p r _
  obtain ⟨tail, rfl⟩ : ∃ tail, bytes = b :: tail := ⟨_, List.eq_cons_of_mem_head? hb⟩
  have hbyte : Decoder.readByte ⟨p, b :: tail ++ r⟩ = .ok b ⟨p + 1, tail ++ r⟩ := rfl
  rw [Decoder.expect, bind_assoc, bind_of_ok hbyte, if_neg hne]
  exact ⟨_, _, rfl⟩

theorem expect_string {y : DecoderM α} (bytes : Bytes) {c : UInt8} (hc : isDigit c = false) :
    Reads (do Decoder.expect c; y) (printString bytes) none := by
  obtain ⟨b, hb, hne⟩ := head?_printString_ne bytes hc
  exact expect_ne hb hne

/-- A struct goes on with its body in front of the entries. -/
theorem readStruct_run {x : DecoderM α} {es : Entries} {n : ℕ} {r : Bytes}
    (hfit : Fits n ((Tree.dict es).print ++ r)) :
    FieldsFit n es r ∧
      Decoder.readStruct x (Decoder.inFront n ((Tree.dict es).print ++ r)) =
        (do let a ← x; Decoder.skipFields; return a) (atFields n es r) := by
  have hbytes : (Tree.dict es).print ++ r = [100] ++ (printEntries es ++ 101 :: r) := by
    rw [Tree.print, List.cons_append, List.append_assoc]
    rfl
  rw [hbytes] at hfit ⊢
  have hopen : Decoder.expect 100 (Decoder.inFront n ([100] ++ (printEntries es ++ 101 :: r))) =
    .ok () (atFields n es r) := (Reads.expect 100).inFront_ok hfit
  exact ⟨hfit.right, by rw [Decoder.readStruct, bind_of_ok hopen]⟩

/-- A struct is read with the fields that its body takes, and what is left of it is skipped. -/
theorem readStruct_dict {x : DecoderM α} {y : EntryReader α} {es : Entries}
    (h : SimulatesAt x y es) :
    Reads (Decoder.readStruct x) (Tree.dict es).print ((y es).map Prod.fst) := by
  refine of_inFront fun n r hfit => ?_
  obtain ⟨hfields, hbody⟩ := readStruct_run (x := x) hfit
  rw [hbody]
  obtain ⟨hok, hfail⟩ := h n r hfields
  cases hy : y es with
  | none =>
    obtain ⟨e, d, hrun⟩ := hfail hy
    exact ⟨e, d, bind_of_error hrun⟩
  | some p =>
    obtain ⟨a, rest⟩ := p
    obtain ⟨hsuffix, hrun⟩ := hok a rest hy
    have hskip := skipFields_atFields (hfields.suffix hsuffix)
    rw [bind_of_ok hrun, bind_of_ok hskip]
    exact rfl

/-- No other value starts as a dictionary does. -/
theorem expect_dict {y : DecoderM α} {t : Tree} (h : ∀ es, t ≠ .dict es) :
    Reads (do Decoder.expect 100; y) t.print none := by
  cases t with
  | dict es => exact absurd rfl (h es)
  | string bytes => exact expect_string bytes rfl
  | _ => exact expect_ne rfl (by decide)

/-- Nor as a list does. -/
theorem expect_list {y : DecoderM α} {t : Tree} (h : ∀ items, t ≠ .list items) :
    Reads (do Decoder.expect 108; y) t.print none := by
  cases t with
  | list items => exact absurd rfl (h items)
  | string bytes => exact expect_string bytes rfl
  | _ => exact expect_ne rfl (by decide)

theorem readStruct_other {x : DecoderM α} {t : Tree} (h : ∀ es, t ≠ .dict es) :
    Reads (Decoder.readStruct x) t.print none := expect_dict h

theorem readStruct {x : DecoderM α} {y : EntryReader α} (h : Simulates x y) {t : Tree}
    (hs : t.Sorted) : Reads (Decoder.readStruct x) t.print (EntryReader.structOf y t) := by
  cases t with
  | dict es => exact readStruct_dict (h es hs)
  | _ => exact readStruct_other nofun

end Reads
end TorrentClient
