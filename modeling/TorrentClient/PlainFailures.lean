import TorrentClient.DecodedItems
import TorrentClient.DecoderDrift

/-!
# How the decoders fail

A call fails plainly where its error is neither a panic nor a missing field. The types without
structures always do, and a list does unless an item that is read on the way does not.
-/
namespace TorrentClient
open Bencode
open Decoder

variable {α β : Type}

/-- Where the call fails, it does so with such an error. -/
def FailsWith (q : Fault DecodeError → Prop) (x : DecoderM α) (d : Decoder) : Prop :=
  ∀ e d', x d = .error e d' → q e

/-- An error that is neither a panic nor a missing field. -/
def IsPlain : Fault DecodeError → Prop
  | .panic | .err (.missingField _) => False
  | .err _ => True

theorem isPlain_of {e : Fault DecodeError} (hpanic : e ≠ .panic)
    (hmissing : ∀ name, e ≠ .err (.missingField name)) : IsPlain e := by
  cases e with
  | panic => exact hpanic rfl
  | err e =>
    cases e with
    | missingField name => exact hmissing name rfl
    | _ => trivial

/-- A condition on errors that the plain ones meet. -/
def Lenient (q : Fault DecodeError → Prop) : Prop := ∀ e, IsPlain e → q e

section Rules

variable {q : Fault DecodeError → Prop} {x : DecoderM α} {f : α → DecoderM β} {d d' : Decoder}

theorem FailsWith.of_ok {a : α} (h : x d = .ok a d') : FailsWith q x d := by
  intro e d'' hrun
  cases h.symm.trans hrun

theorem failsWith_iff_of_error {e : Fault DecodeError} (h : x d = .error e d') :
    FailsWith q x d ↔ q e := by
  constructor
  · exact fun hq => hq e d' h
  · intro he e' d'' hrun
    cases h.symm.trans hrun
    exact he

theorem FailsWith.of_plain (hq : Lenient q) (h : FailsWith IsPlain x d) : FailsWith q x d :=
  fun e d' hrun => hq e (h e d' hrun)

theorem failsWith_bind_iff : FailsWith q (x >>= f) d ↔
    FailsWith q x d ∧ ∀ a d', x d = .ok a d' → FailsWith q (f a) d' := by
  constructor
  · intro h
    refine ⟨fun e d' hrun => h e d' (bind_of_error hrun), fun a d' hrun e d'' hnext => ?_⟩
    exact h e d'' ((bind_of_ok hrun).trans hnext)
  · rintro ⟨hx, hf⟩ e d' hrun
    cases hfirst : x d with
    | ok a d'' =>
      rw [bind_of_ok hfirst] at hrun
      exact hf a d'' hfirst e d' hrun
    | error e' d'' =>
      rw [bind_of_error hfirst] at hrun
      cases hrun
      exact hx e d' hfirst

/-- Calls with the same result fail with the same errors. -/
theorem failsWith_congr {y : DecoderM α} (h : x d = y d') : FailsWith q x d ↔ FailsWith q y d' := by
  rw [FailsWith, h, FailsWith]

theorem failsWith_bind_of_ok {a : α} (h : x d = .ok a d') :
    FailsWith q (x >>= f) d ↔ FailsWith q (f a) d' := failsWith_congr (bind_of_ok h)

theorem failsPlainly_of {post : α → Bytes → Prop} (hmissing : NoMissing x)
    (hpanic : Advances x d post False) : FailsWith IsPlain x d := by
  intro e d' hrun
  apply isPlain_of
  · rintro rfl
    exact hpanic.of_panic hrun
  · rintro name rfl
    exact hmissing d name d' hrun

theorem expect_failsPlainly (b : UInt8) (d : Decoder) : FailsWith IsPlain (expect b) d :=
  failsPlainly_of (noMissing_iff.mpr (steady_noMissing.expect b)) (Advances.expect b)

end Rules

/-- No structure is part of the type. -/
def DecodeType.WithoutStruct : DecodeType → Prop
  | fileInfo | info | metaInfo => False
  | list item => item.WithoutStruct
  | _ => True

theorem advances_readList {decode : DecoderM α} {d : Decoder} (hd : d.InSlice)
    (hdecode : ∀ d : Decoder, d.InSlice → Advances decode d (fun _ bytes => bytes ≠ []) False) :
    Advances (readList decode) d (fun _ bytes => bytes ≠ []) False := by
  refine Advances.expect_then fun rest hrest => Advances.get ?_
  have hloop : Advances (readListLoop decode (rest.length + 1) []) _ _ False :=
    Advances.readListLoop (hd.behind hrest) (Nat.lt_succ_self _)
      (fun d' hd' _ => hdecode d' hd') fun _ _ => id
  refine hloop.bind fun as bytes rest' _ _ => ?_
  exact Advances.expect_then fun rest'' _ => Advances.pure (List.cons_ne_nil _ _)

namespace DecodeType.WithoutStruct

variable {T : DecodeType}

theorem noMissing (h : T.WithoutStruct) : NoMissing T.decode := by
  rw [noMissing_iff]
  induction T with
  | integer ty => exact steady_noMissing.readInteger ty
  | string => exact steady_noMissing.readStr
  | sha1List => exact steady_noMissing.readSha1List
  | value => exact steady_noMissing.decodeValue
  | list item ih => exact steady_noMissing.readList (ih h)
  | _ => exact absurd h id

theorem advances (h : T.WithoutStruct) {d : Decoder} (hd : d.InSlice) :
    Advances T.decode d (fun _ bytes => bytes ≠ []) False := by
  induction T generalizing d with
  | integer ty =>
    refine (Advances.readInteger ty hd).mono ?_ id
    rintro _ _ ⟨token, rfl, -⟩
    exact List.cons_ne_nil _ _
  | string =>
    refine (Advances.readStr hd).mono ?_ id
    rintro s _ rfl
    exact printString_ne_nil _
  | sha1List =>
    refine (Advances.readByteString hd).bind ?_
    rintro bs _ rest - rfl
    refine Advances.pure ?_
    rw [List.append_nil]
    exact printString_ne_nil bs
  | value => exact (Advances.decode hd).mono (fun _ _ => ne_nil_of_spells) id
  | list item ih => exact advances_readList hd fun d hd => ih h hd
  | _ => exact absurd h id

theorem failsPlainly (h : T.WithoutStruct) {d : Decoder} (hd : d.InSlice) :
    FailsWith IsPlain T.decode d := failsPlainly_of h.noMissing (h.advances hd)

end DecodeType.WithoutStruct

/-- Items are read up to one that fails, and not with such an error. -/
inductive ItemsFail (q : Fault DecodeError → Prop) (decode : DecoderM α) : Decoder → Prop where
  | here {d : Decoder} {b : UInt8} {tail : Bytes} (start : d.rest = b :: tail) (item : b ≠ 101)
      (fail : ¬ FailsWith q decode d) : ItemsFail q decode d
  | behind {d d' : Decoder} {a : α} (start : d.rest.head? ≠ some 101) (read : decode d = .ok a d')
      (fail : ItemsFail q decode d') : ItemsFail q decode d

/-- The first items are read, and one fails, or it drifts to where others do. -/
inductive ItemsLack (q : Fault DecodeError → Prop) (decode : DecoderM α)
    (drifts : Tree → Bytes → Decoder → Prop) (lacks : Tree → Bytes → Prop) (n : ℕ) (r : Bytes) :
    List Tree → Prop where
  | here {t : Tree} {items : List Tree} (lack : lacks t (printItems items ++ 101 :: r)) :
      ItemsLack q decode drifts lacks n r (t :: items)
  | astray {t : Tree} {items : List Tree} {d : Decoder}
      (drift : drifts t (printItems items ++ 101 :: r) d) (fail : ItemsFail q decode d) :
      ItemsLack q decode drifts lacks n r (t :: items)
  | behind {t : Tree} {items : List Tree} {a : α}
      (read : decode (inFront n (t.print ++ (printItems items ++ 101 :: r))) =
        .ok a (inFront n (printItems items ++ 101 :: r)))
      (lack : ItemsLack q decode drifts lacks n r items) :
      ItemsLack q decode drifts lacks n r (t :: items)

section Items

variable {q : Fault DecodeError → Prop} {decode : DecoderM α} {d : Decoder} {n : ℕ} {r : Bytes}

theorem readListLoop_failsWith (hq : Lenient q) (hdecode : Progresses decode) {fuel : ℕ}
    (hfuel : d.rest.length < fuel) (hd : d.InSlice) (list : List α) :
    FailsWith q (do let l ← readListLoop decode fuel list; expect 101; return l) d ↔
      ¬ ItemsFail q decode d := by
  induction fuel generalizing d list with
  | zero => cases hfuel
  | succ fuel ih =>
    obtain ⟨p, rest⟩ := d
    rw [Decoder.InSlice] at hd
    dsimp only at hd
    cases rest with
    | nil =>
      have hpeek : peekByte ⟨p, []⟩ = .error (.err .eof) ⟨p, []⟩ := peekByte_nil (by omega)
      rw [readListLoop, bind_assoc, failsWith_iff_of_error (bind_of_error hpeek)]
      refine iff_of_true (hq _ trivial) ?_
      intro h
      cases h with
      | here start _ _ => cases start
      | behind _ read _ => cases (hdecode _ _ _ read).2
    | cons b tail =>
      have hplace : p + (b :: tail).length < 2 ^ 64 := by omega
      by_cases hb : b = 101
      · subst hb
        refine iff_of_true (FailsWith.of_ok (readListLoop_end hplace list)) ?_
        intro h
        cases h with
        | here start item _ => exact item (List.cons.inj start).1.symm
        | behind start _ _ => exact start rfl
      · have hstart : (b :: tail).head? ≠ some 101 := fun h => hb (Option.some.inj h)
        rw [failsWith_congr (readListLoop_item hplace hb list), failsWith_bind_iff]
        have hmore : ∀ a d₁, decode ⟨p, b :: tail⟩ = .ok a d₁ →
            (FailsWith q (do let l ← readListLoop decode fuel (list ++ [a]); expect 101; return l) d₁ ↔
              ¬ ItemsFail q decode d₁) := by
          intro a d₁ hread
          obtain ⟨hstream, hless⟩ := hdecode _ _ _ hread
          dsimp only at hstream hless hfuel
          refine ih (by omega) ?_ _
          rw [Decoder.InSlice]
          omega
        constructor
        · rintro ⟨hitem, hbehind⟩ h
          cases h with
          | here _ _ fail => exact fail hitem
          | behind _ read fail => exact (hmore _ _ read).mp (hbehind _ _ read) fail
        · intro h
          refine ⟨?_, fun a d₁ hread => (hmore a d₁ hread).mpr fun hfail => h (.behind hstart hread hfail)⟩
          by_contra hfail
          exact h (.here rfl hb hfail)

/-- A list fails as the items in front of the bytes do. -/
theorem readList_failsWith (hq : Lenient q) (hdecode : Progresses decode) (hn : n < 2 ^ 63)
    {bytes : Bytes} (hfit : Fits n (108 :: bytes)) :
    FailsWith q (readList decode) (inFront n (108 :: bytes)) ↔
      ¬ ItemsFail q decode (inFront n bytes) := by
  have hle := hfit.le
  rw [List.length_cons] at hle
  have hopen : expect 108 (inFront n (108 :: bytes)) = .ok () (inFront n bytes) :=
    Reads.inFront_ok (Reads.expect 108) hfit
  rw [readList, failsWith_bind_of_ok hopen]
  refine readListLoop_failsWith hq hdecode (Nat.lt_succ_self _) ?_ []
  rw [Decoder.InSlice, inFront]
  dsimp only
  omega

theorem itemsLack_iff {drifts : Tree → Bytes → Decoder → Prop} {lacks : Tree → Bytes → Prop}
    {items : List Tree} (hfit : Fits n (printItems items ++ 101 :: r))
    (h : ∀ t ∈ items, ∀ r', Fits n (t.print ++ r') → DriftsTo decode n t.print r' (drifts t r') ∧
      (FailsWith q decode (inFront n (t.print ++ r')) ↔ ¬ lacks t r')) :
    ItemsLack q decode drifts lacks n r items ↔
      ItemsFail q decode (inFront n (printItems items ++ 101 :: r)) := by
  induction items with
  | nil =>
    refine iff_of_false nofun ?_
    intro hfail
    cases hfail with
    | here start item _ => exact item (List.cons.inj start).1.symm
    | behind start _ _ => exact start rfl
  | cons t items ih =>
    obtain ⟨hhead, htail⟩ := List.forall_mem_cons.mp h
    rw [printItems, List.append_assoc] at hfit ⊢
    have hitems := ih hfit.right htail
    obtain ⟨hdrift, hlack⟩ := hhead _ hfit
    obtain ⟨b, hb, hne⟩ := t.head?_print
    obtain ⟨tail, htree⟩ : ∃ tail, t.print = b :: tail := ⟨_, List.eq_cons_of_mem_head? hb⟩
    have hstart : (inFront n (t.print ++ (printItems items ++ 101 :: r))).rest =
        b :: (tail ++ (printItems items ++ 101 :: r)) := by
      rw [inFront, htree, List.cons_append]
    have hhead? : (inFront n (t.print ++ (printItems items ++ 101 :: r))).rest.head? ≠ some 101 := by
      rw [hstart]
      exact fun heq => hne (Option.some.inj heq)
    constructor
    · intro hlacks
      cases hlacks with
      | here lack => exact .here hstart hne fun hfails => hlack.mp hfails lack
      | astray drift fail =>
        obtain ⟨-, a, hrun⟩ := (hdrift _).mp drift
        exact .behind hhead? hrun fail
      | behind read lack => exact .behind hhead? read (hitems.mp lack)
    · intro hfails
      cases hfails with
      | here _ _ fail => exact .here (by_contra fun hnot => fail (hlack.mpr hnot))
      | @behind _ d₁ a _ read fail =>
        by_cases hend : d₁ = inFront n (printItems items ++ 101 :: r)
        · subst hend
          exact .behind read (hitems.mpr fail)
        · exact .astray ((hdrift d₁).mpr ⟨hend, a, read⟩) fail

/-- A list of items fails as its items do. -/
theorem readList_lacks (hq : Lenient q) (hdecode : Progresses decode) (hn : n < 2 ^ 63)
    {drifts : Tree → Bytes → Decoder → Prop} {lacks : Tree → Bytes → Prop} {t : Tree}
    (hfit : Fits n (t.print ++ r))
    (h : ∀ items, t = .list items → ∀ t' ∈ items, ∀ r', Fits n (t'.print ++ r') →
      DriftsTo decode n t'.print r' (drifts t' r') ∧
        (FailsWith q decode (inFront n (t'.print ++ r')) ↔ ¬ lacks t' r')) :
    FailsWith q (readList decode) (inFront n (t.print ++ r)) ↔
      ¬ ∃ items, t = .list items ∧ ItemsLack q decode drifts lacks n r items := by
  by_cases hlist : ∃ items, t = .list items
  · obtain ⟨items, rfl⟩ := hlist
    rw [print_list_append] at hfit ⊢
    have hopen : Fits n ([108] ++ (printItems items ++ 101 :: r)) := hfit
    rw [readList_failsWith hq hdecode hn hfit, ← itemsLack_iff hopen.right (h items rfl)]
    refine not_congr ⟨fun hlack => ⟨items, rfl, hlack⟩, ?_⟩
    rintro ⟨items', heq, hlack⟩
    cases heq
    exact hlack
  · refine iff_of_true (failsWith_bind_iff.mpr ⟨?_, ?_⟩) fun ⟨items, heq, _⟩ => hlist ⟨items, heq⟩
    · exact FailsWith.of_plain hq (expect_failsPlainly 108 _)
    · intro u d hrun
      have hread : Reads (do expect 108; return u) t.print none :=
        Reads.expect_list fun items h => hlist ⟨items, h⟩
      obtain ⟨e, d', hfail⟩ := hread.inFront hfit
      cases hfail.symm.trans (bind_of_ok hrun)

theorem not_itemsLack {items : List Tree} :
    ¬ ItemsLack q decode (fun _ _ _ => False) (fun _ _ => False) n r items := by
  intro hlack
  induction hlack with
  | here lack => exact lack
  | astray drift _ => exact drift
  | behind _ _ ih => exact ih

/-- A list whose items are read in step fails with their errors. -/
theorem readList_failsWith_of_items (hq : Lenient q) (hdecode : Progresses decode) (hn : n < 2 ^ 63)
    {t : Tree} (hfit : Fits n (t.print ++ r))
    (hread : ∀ items, t = .list items → ∀ t' ∈ items, ∃ result, Reads decode t'.print result)
    (hfails : ∀ items, t = .list items → ∀ t' ∈ items, ∀ r', Fits n (t'.print ++ r') →
      FailsWith q decode (inFront n (t'.print ++ r'))) :
    FailsWith q (readList decode) (inFront n (t.print ++ r)) := by
  refine (readList_lacks hq hdecode hn hfit fun items heq t' ht' r' hfit' => ?_).mpr
    fun ⟨_, _, hlack⟩ => not_itemsLack hlack
  obtain ⟨result, hitem⟩ := hread items heq t' ht'
  exact ⟨hitem.driftsTo hfit', iff_of_true (hfails items heq t' ht' r' hfit') id⟩

end Items
end TorrentClient
