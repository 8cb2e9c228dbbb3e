import TorrentClient.SkippedItems
import TorrentClient.FieldLookups
import TorrentClient.DecoderInvariants

/-!
# Fields read from the bytes

In front of the printed entries of a dictionary `read_field` comes to where the search for its
name ends, wherever in a stream the dictionary stands. `read_field_combine` does so where no name
comes twice.
-/
namespace TorrentClient
open Bencode DecimalNumerals
open OrderedEntries (Ascending)

variable {α β : Type}

/-- Whatever the decoder stands in front of, no error of the call is that of a missing field. -/
def NoMissing (x : DecoderM α) : Prop :=
  ∀ d name d', x d ≠ .error (.err (.missingField name)) d'

/-- The errors of a call other than the search for a field. -/
theorem steady_noMissing :
    Steady (fun _ => True) fun e => ∀ name, e ≠ .err (.missingField name) where
  advance _ _ _ _ := trivial
  error _ he := he

theorem noMissing_iff {x : DecoderM α} :
    NoMissing x ↔ Upholds (fun _ => True) (fun e => ∀ name, e ≠ .err (.missingField name)) x := by
  constructor
  · intro h d _
    split
    · trivial
    · next e d' hrun =>
      refine ⟨trivial, ?_⟩
      rintro name rfl
      exact h d name d' hrun
  · intro h d name d' hrun
    exact (h.of_error trivial hrun).2 name rfl

theorem NoMissing.readStr : NoMissing Decoder.readStr := noMissing_iff.mpr steady_noMissing.readStr

theorem NoMissing.decodeValue : NoMissing Value.decode :=
  noMissing_iff.mpr steady_noMissing.decodeValue

/-- A stream of `n` bytes can end with the given ones, and its positions are `usize` values. -/
structure Fits (n : ℕ) (bytes : Bytes) : Prop where
  le : bytes.length ≤ n
  lt : n < 2 ^ 64

theorem Fits.right {n : ℕ} {bytes bytes' : Bytes} (h : Fits n (bytes ++ bytes')) :
    Fits n bytes' := by
  refine ⟨Nat.le_trans ?_ h.le, h.lt⟩
  rw [List.length_append]
  exact Nat.le_add_left _ _

namespace Decoder

/-- The decoder in front of the last bytes of a stream of `n`. -/
def inFront (n : ℕ) (bytes : Bytes) : Decoder := ⟨n - bytes.length, bytes⟩

/-- The decoder in front of the entries left of a dictionary. -/
def atFields (n : ℕ) (es : Entries) (r : Bytes) : Decoder := inFront n (printEntries es ++ 101 :: r)

theorem eq_inFront (p : ℕ) (bytes : Bytes) : (⟨p, bytes⟩ : Decoder) = inFront (p + bytes.length) bytes := by
  rw [inFront, Nat.add_sub_cancel]

theorem atFields_cons (n : ℕ) (e : Bytes × Tree) (es : Entries) (r : Bytes) :
    atFields n (e :: es) r =
      inFront n (printString e.1 ++ (e.2.print ++ (printEntries es ++ 101 :: r))) := by
  rw [atFields, printEntries, List.append_assoc, List.append_assoc]

end Decoder

open Decoder

/-- The bytes of a dictionary from the given entries on fit. -/
abbrev FieldsFit (n : ℕ) (es : Entries) (r : Bytes) : Prop := Fits n (printEntries es ++ 101 :: r)

theorem FieldsFit.suffix {n : ℕ} {es rest : Entries} {r : Bytes} (h : FieldsFit n es r)
    (hsuffix : rest <:+ es) : FieldsFit n rest r := by
  obtain ⟨skipped, rfl⟩ := hsuffix
  rw [FieldsFit, printEntries_eq_flatten, List.map_append, List.flatten_append, List.append_assoc,
    ← printEntries_eq_flatten rest] at h
  exact h.right

/-- The value that a search finds, and the entries behind it. -/
theorem FieldsFit.value {n : ℕ} {name : String} {es rest : Entries} {t : Tree} {r : Bytes}
    (h : FieldsFit n es r) (hl : locate name es = .found t rest) :
    Fits n (t.print ++ (printEntries rest ++ 101 :: r)) := by
  obtain ⟨skipped, rfl, -⟩ := locate_found hl
  have hfit := h.suffix (List.suffix_append _ _)
  rw [FieldsFit, printEntries, List.append_assoc, List.append_assoc] at hfit
  exact hfit.right

section Places

variable {n : ℕ} {bytes r : Bytes} {es : Entries}

theorem Reads.inFront {x : DecoderM α} {result : Option α} (h : Reads x bytes result)
    (hfit : Fits n (bytes ++ r)) : EndsAt (inFront n r) result (x (inFront n (bytes ++ r))) := by
  have hle := hfit.le
  have hlt := hfit.lt
  have hstart : n - (bytes ++ r).length + (bytes ++ r).length = n := Nat.sub_add_cancel hle
  have hread := h (n - (bytes ++ r).length) r (by rw [hstart]; exact hlt)
  have hstop : n - (bytes ++ r).length + bytes.length = n - r.length := by
    rw [List.length_append] at hle ⊢
    omega
  rwa [hstop] at hread

theorem Reads.inFront_ok {x : DecoderM α} {a : α} (h : Reads x bytes (some a))
    (hfit : Fits n (bytes ++ r)) : x (Decoder.inFront n (bytes ++ r)) = .ok a (Decoder.inFront n r) :=
  h.inFront hfit

theorem peekByte_atFields (hfit : FieldsFit n es r) :
    ∃ b, peekByte (atFields n es r) = .ok b (atFields n es r) ∧ (b = 101 ↔ es = []) := by
  have hpeek : ∀ b bytes, printEntries es ++ 101 :: r = b :: bytes →
      peekByte (atFields n es r) = .ok b (atFields n es r) := by
    intro b bytes heq
    rw [FieldsFit, heq] at hfit
    rw [atFields, heq]
    refine peekByte_cons ?_
    rw [Nat.sub_add_cancel hfit.le]
    exact hfit.lt
  cases es with
  | nil => exact ⟨101, hpeek 101 r rfl, by simp⟩
  | cons e es =>
    obtain ⟨b, hb, hne⟩ := head?_printEntry e
    obtain ⟨tail, htail⟩ : ∃ tail, printEntry e = b :: tail := ⟨_, List.eq_cons_of_mem_head? hb⟩
    refine ⟨b, hpeek b (tail ++ (printEntries es ++ 101 :: r)) ?_, by simp [hne]⟩
    rw [printEntries_eq_flatten, List.map_cons, List.flatten_cons, htail,
      ← printEntries_eq_flatten, List.append_assoc]
    rfl

theorem readStr_key {key : Bytes} (hfit : Fits n (printString key ++ r)) :
    readStr (inFront n (printString key ++ r)) =
      match fromUtf8 key with
      | some s => .ok s (inFront n r)
      | none => .error (.err .invalidUtf8) (inFront n r) := by
  rw [readStr, bind_of_ok ((Reads.readByteString key).inFront_ok hfit)]
  cases fromUtf8 key <;> rfl

section NextKey

variable {β : Type} {x : DecoderM β} {f : String → DecoderM β}

/-- The loops over fields end at the end marker. -/
theorem nextKey_end (hfit : FieldsFit n [] r) :
    (do let b ← peekByte; if b = 101 then x else do let key ← readStr; f key) (atFields n [] r) =
      x (atFields n [] r) := by
  obtain ⟨b, hpeek, hb⟩ := peekByte_atFields hfit
  rw [bind_of_ok hpeek, if_pos (hb.mpr rfl)]

/-- They read the key of the first entry, and go on in front of its value. -/
theorem nextKey_entry {key : Bytes} {t : Tree} (hfit : FieldsFit n ((key, t) :: es) r) :
    (do let b ← peekByte; if b = 101 then x else do let key ← readStr; f key)
        (atFields n ((key, t) :: es) r) =
      match fromUtf8 key with
      | some k => f k (inFront n (t.print ++ (printEntries es ++ 101 :: r)))
      | none => .error (.err .invalidUtf8) (inFront n (t.print ++ (printEntries es ++ 101 :: r))) := by
  obtain ⟨b, hpeek, hb⟩ := peekByte_atFields hfit
  have hne : b ≠ 101 := fun h => List.cons_ne_nil _ _ (hb.mp h)
  rw [FieldsFit, printEntries, List.append_assoc, List.append_assoc] at hfit
  have hkey := readStr_key hfit
  rw [bind_of_ok hpeek, if_neg hne, atFields_cons]
  cases hk : fromUtf8 key with
  | none =>
    rw [hk] at hkey
    exact bind_of_error hkey
  | some k =>
    rw [hk] at hkey
    exact bind_of_ok hkey

/-- The value of the first entry, and what is behind it. -/
theorem FieldsFit.first {e : Bytes × Tree} (hfit : FieldsFit n (e :: es) r) :
    Fits n (e.2.print ++ (printEntries es ++ 101 :: r)) := by
  rw [FieldsFit, printEntries, List.append_assoc, List.append_assoc] at hfit
  exact hfit.right

end NextKey

/-- What `read_field` comes to at the entries that the search for its name ends with. -/
def Located.FieldEnds (decode : DecoderM α) (name : String) (pos : Decoder) (n : ℕ) (r : Bytes) :
    Located → EStateM.Result (Fault DecodeError) Decoder α → Prop
  | .found t rest, result => result = decode (inFront n (t.print ++ (printEntries rest ++ 101 :: r)))
  | .missing, result => result = .error (.err (.missingField name)) pos
  | .invalid, result => ∃ d, result = .error (.err .invalidUtf8) d

variable {decode : DecoderM α} {name : String}

theorem readFieldLoop_ends {pos : Decoder} {fuel : ℕ} (hfuel : es.length < fuel)
    (hfit : FieldsFit n es r) :
    (locate name es).FieldEnds decode name pos n r
      (readFieldLoop decode name pos fuel (atFields n es r)) := by
  induction es generalizing fuel with
  | nil =>
    cases fuel with
    | zero => cases hfuel
    | succ fuel =>
      rw [readFieldLoop, nextKey_end hfit]
      exact rfl
  | cons e es ih =>
    cases fuel with
    | zero => cases hfuel
    | succ fuel =>
      obtain ⟨key, t⟩ := e
      rw [readFieldLoop, nextKey_entry hfit, locate]
      cases fromUtf8 key with
      | none => exact ⟨_, rfl⟩
      | some k =>
        dsimp only
        split_ifs with heq hlt
        · exact rfl
        · rw [bind_of_ok ((Reads.skipItem t).inFront_ok hfit.first)]
          exact ih (Nat.lt_of_succ_lt_succ hfuel) (hfit.suffix (List.suffix_cons _ _))
        · exact rfl

theorem readField_ends (decode : DecoderM α) (name : String) (hfit : FieldsFit n es r) :
    (locate name es).FieldEnds decode name (atFields n es r) n r
      (readField decode name (atFields n es r)) := by
  have hlen : es.length ≤ (printEntries es ++ 101 :: r).length := by
    rw [List.length_append]
    exact Nat.le_add_right_of_le (length_entries_le es)
  rw [readField, bind_of_ok (get_ok _)]
  exact readFieldLoop_ends (Nat.lt_succ_of_le hlen) hfit

end Places

theorem sorted_of_suffix {es rest : Entries} (hs : (Tree.dict es).Sorted) (h : rest <:+ es) :
    (Tree.dict rest).Sorted := by
  refine ⟨hs.1.sublist h.sublist, sortedEntries_iff.mpr ?_⟩
  intro e he
  exact sortedEntries_iff.mp hs.2 e (h.subset he)

/-- A result wherever the cursor ends, or some failure. -/
def Returns : Option α → EStateM.Result (Fault DecodeError) Decoder α → Prop
  | some a, result => ∃ d, result = .ok a d
  | none, result => ∃ e d, result = .error e d

/-- What the loop of `read_field_combine` ends with where no name comes twice. -/
def Located.combined (dec : Tree → Option (List α)) (n : ℕ) (r : Bytes) (pos : Decoder)
    (res : List α) : Located → Option (Decoder × List α)
  | .found t rest => (dec t).bind fun list =>
      if EntryReader.nextValid rest = true then some (atFields n rest r, res ++ list) else none
  | .missing => some (pos, res)
  | .invalid => none

section Combined

variable {decode : DecoderM α} {dec : Tree → Option (List α)} {name : String} {n : ℕ} {r : Bytes}
  {es : Entries}

/-- Behind the field of the name the loop looks at one more key. -/
theorem readFieldCombineLoop_behind {pos : Decoder} {res : List α} {fuel : ℕ}
    (hbehind : ∀ e ∈ es, asBytes name < e.1) (hfit : FieldsFit n es r) :
    Returns (if EntryReader.nextValid es = true then some (pos, res) else none)
      (readFieldCombineLoop decode name (fuel + 1) pos res (atFields n es r)) := by
  cases es with
  | nil =>
    rw [readFieldCombineLoop, nextKey_end hfit]
    exact ⟨_, rfl⟩
  | cons e es =>
    obtain ⟨key, t⟩ := e
    have hlt := hbehind _ List.mem_cons_self
    rw [readFieldCombineLoop, nextKey_entry hfit, EntryReader.nextValid]
    cases hk : fromUtf8 key with
    | none => exact ⟨_, _, rfl⟩
    | some k =>
      obtain rfl := fromUtf8_eq_some.mp hk
      have hneq : name ≠ k := by
        rintro rfl
        exact List.lt_irrefl _ hlt
      have hnlt : ¬ keyLt k name := fun h => List.lt_irrefl _ (List.lt_trans h hlt)
      dsimp only
      rw [if_neg hneq, if_neg hnlt]
      exact ⟨_, rfl⟩

theorem readFieldCombineLoop_ends
    (hdec : ∀ t : Tree, t.Sorted → Reads (readList decode) t.print (dec t))
    (hs : (Tree.dict es).Sorted) {pos : Decoder} {res : List α} {fuel : ℕ}
    (hfuel : es.length < fuel) (hfit : FieldsFit n es r) :
    Returns ((locate name es).combined dec n r pos res)
      (readFieldCombineLoop decode name fuel pos res (atFields n es r)) := by
  induction es generalizing fuel with
  | nil =>
    cases fuel with
    | zero => cases hfuel
    | succ fuel => exact readFieldCombineLoop_behind (fun _ h => absurd h List.not_mem_nil) hfit
  | cons e es ih =>
    cases fuel with
    | zero => cases hfuel
    | succ fuel =>
      obtain ⟨key, t⟩ := e
      have hrest : FieldsFit n es r := hfit.suffix (List.suffix_cons _ _)
      have hleft : es.length < fuel := Nat.lt_of_succ_lt_succ hfuel
      rw [readFieldCombineLoop, nextKey_entry hfit, locate]
      cases hk : fromUtf8 key with
      | none => exact ⟨_, _, rfl⟩
      | some k =>
        obtain rfl := fromUtf8_eq_some.mp hk
        dsimp only
        split_ifs with heq hlt
        · subst heq
          have hread := (hdec t hs.2.1).inFront hfit.first
          rw [Located.combined]
          cases hd : dec t with
          | none =>
            rw [hd] at hread
            obtain ⟨e, d, hfail⟩ := hread
            exact ⟨e, d, bind_of_error hfail⟩
          | some list =>
            rw [hd] at hread
            have hbehind := (List.pairwise_cons.mp hs.1).1
            rw [bind_of_ok (show readList decode _ = .ok list (atFields n es r) from hread),
              bind_of_ok (get_ok _)]
            cases fuel with
            | zero => cases hleft
            | succ fuel => exact readFieldCombineLoop_behind hbehind hrest
        · rw [bind_of_ok ((Reads.skipItem t).inFront_ok hfit.first)]
          exact ih (sorted_of_suffix hs (List.suffix_cons _ _)) hleft hrest
        · exact ⟨_, rfl⟩

end Combined

end TorrentClient
