import TorrentClient.DecoderAdvances
import TorrentClient.DecoderAgreement

/-!
# The types that are decoded from the bytes

The decoders of all these types only move forward, and move where they return. The loop of a list
therefore ends on all bytes, and what it reads is a sequence of items with an end marker.
-/
namespace TorrentClient
open Bencode
open Decoder

variable {α β : Type}

/-- The types with a `DecodeTo`. -/
inductive DecodeType where
  | integer (ty : IntegerType)
  | string
  | sha1List
  | value
  | fileInfo
  | info
  | metaInfo
  | list (item : DecodeType)
  deriving DecidableEq

namespace DecodeType

def Carrier : DecodeType → Type
  | integer _ => ℤ
  | string => String
  | sha1List => List Sha1
  | value => Value
  | fileInfo => FileInfo
  | info => Info
  | metaInfo => TorrentMetaInfo
  | list item => List item.Carrier

def decode : (t : DecodeType) → DecoderM t.Carrier
  | integer ty => readInteger ty
  | string => readStr
  | sha1List => readSha1List
  | value => Value.decode
  | fileInfo => FileInfo.decode
  | info => Info.decode
  | metaInfo => TorrentMetaInfo.decode
  | list item => readList item.decode

end DecodeType

theorem DecodeType.upholds {p : Decoder → Prop} {q : Fault DecodeError → Prop} (h : Steady p q)
    (hmissing : ∀ name, q (.err (.missingField name))) (t : DecodeType) : Upholds p q t.decode := by
  induction t with
  | integer ty => exact h.readInteger ty
  | string => exact h.readStr
  | sha1List => exact h.readSha1List
  | value => exact h.decodeValue
  | fileInfo => exact h.readStruct (h.fileFields hmissing)
  | info => exact h.readStruct (h.infoFields hmissing)
  | metaInfo => exact h.readStruct (h.torrentFields hmissing)
  | list item ih => exact h.readList ih

/-- A place in a stream of `n` bytes with at most `m` of them behind it. -/
def Decoder.Within (n m : ℕ) (d : Decoder) : Prop :=
  d.position + d.rest.length = n ∧ d.rest.length ≤ m

theorem steady_within (n m : ℕ) : Steady (Decoder.Within n m) fun _ => True where
  advance d k hk hd := by
    obtain ⟨hstream, hleft⟩ := hd
    rw [Decoder.Within, advance]
    dsimp only
    rw [List.length_drop]
    omega
  error _ _ := trivial

/-- The cursor moves forward in the stream, or stays, whether the call returns or fails. -/
def Forward (x : DecoderM α) : Prop := ∀ n m, Upholds (Decoder.Within n m) (fun _ => True) x

/-- A call that returns has moved the cursor forward. -/
def Progresses (x : DecoderM α) : Prop :=
  ∀ d a d', x d = .ok a d' →
    d'.position + d'.rest.length = d.position + d.rest.length ∧ d'.rest.length < d.rest.length

namespace Progresses

theorem bind_left {x : DecoderM α} {f : α → DecoderM β} (hx : Progresses x)
    (hf : ∀ a, Forward (f a)) : Progresses (x >>= f) := by
  intro d b d' h
  obtain ⟨a, d₁, hrun, hrun'⟩ := stateful_bind_eq_ok.mp h
  obtain ⟨hstream, hlt⟩ := hx d a d₁ hrun
  obtain ⟨hstream', hle⟩ := (hf a _ _).of_ok ⟨rfl, le_rfl⟩ hrun'
  omega

theorem bind_right {x : DecoderM α} {f : α → DecoderM β} (hx : Forward x)
    (hf : ∀ a, Progresses (f a)) : Progresses (x >>= f) := by
  intro d b d' h
  obtain ⟨a, d₁, hrun, hrun'⟩ := stateful_bind_eq_ok.mp h
  obtain ⟨hstream, hle⟩ := (hx _ _).of_ok ⟨rfl, le_rfl⟩ hrun
  obtain ⟨hstream', hlt⟩ := hf a d₁ b d' hrun'
  omega

theorem expect (b : UInt8) : Progresses (expect b) := by
  intro d u d' h
  obtain ⟨p, rest⟩ := d
  cases rest with
  | nil => cases h
  | cons c rest =>
    have hbyte : readByte ⟨p, c :: rest⟩ = .ok c ⟨p + 1, rest⟩ := rfl
    rw [Decoder.expect, bind_of_ok hbyte] at h
    split_ifs at h
    · cases h
      dsimp only
      rw [List.length_cons]
      omega
    · cases h

theorem readStruct {x : DecoderM α} (hx : Forward x) : Progresses (readStruct x) := by
  refine (expect 100).bind_left fun _ n m => ?_
  exact (hx n m).bind fun _ => (steady_within n m).skipFields.bind fun _ => Upholds.pure _

theorem readList {decode : DecoderM α} (hdecode : Forward decode) :
    Progresses (readList decode) := by
  refine (expect 108).bind_left fun _ n m => Upholds.get fun d _ => ?_
  exact ((steady_within n m).readListLoop (hdecode n m) _ _).bind fun _ =>
    ((steady_within n m).expect 101).bind fun _ => Upholds.pure _

theorem readInteger (ty : IntegerType) : Progresses (readInteger ty) := by
  refine (expect 105).bind_left fun _ n m => ?_
  exact ((steady_within n m).readNumber ty).bind fun _ =>
    ((steady_within n m).expect 101).bind fun _ => Upholds.pure _

theorem readByteString : Progresses readByteString := by
  refine bind_right (fun n m => (steady_within n m).readNumber .usize) fun len => ?_
  refine (expect 58).bind_left fun _ n m => Upholds.get fun d _ => ?_
  split_ifs
  · exact (steady_within n m).fail nofun
  · exact (steady_within n m).read _

theorem readDict {decode : DecoderM α} (hdecode : Forward decode) :
    Progresses (readDict decode) := by
  refine (expect 100).bind_left fun _ n m => Upholds.get fun d _ => ?_
  exact ((steady_within n m).readDictLoop (hdecode n m) _ _).bind fun _ =>
    ((steady_within n m).expect 101).bind fun _ => Upholds.pure _

theorem fail (e : DecodeError) : Progresses (fail e : DecoderM α) := nofun

theorem decodeTo (depth : ℕ) : Progresses (Value.decodeTo depth) := by
  cases depth with
  | zero => exact nofun
  | succ depth =>
    have hforward : Forward (Value.decodeTo depth) := fun n m => (steady_within n m).decodeTo depth
    refine bind_right (fun n m => (steady_within n m).peekByte) fun b => ?_
    split_ifs
    · exact (readDict hforward).bind_left fun _ _ _ => Upholds.pure _
    · exact (readList hforward).bind_left fun _ _ _ => Upholds.pure _
    · exact (readInteger .i64).bind_left fun _ _ _ => Upholds.pure _
    · refine readByteString.bind_left fun bytes _ _ => ?_
      cases fromUtf8 bytes <;> exact Upholds.pure _
    · exact fail _

end Progresses

theorem DecodeType.forward (t : DecodeType) : Forward t.decode :=
  fun n m => t.upholds (steady_within n m) fun _ => trivial

theorem DecodeType.progresses (t : DecodeType) : Progresses t.decode := by
  cases t with
  | integer ty => exact Progresses.readInteger ty
  | string =>
    refine Progresses.readByteString.bind_left fun bytes n m => ?_
    cases fromUtf8 bytes with
    | some s => exact Upholds.pure s
    | none => exact (steady_within n m).fail nofun
  | sha1List => exact Progresses.readByteString.bind_left fun _ _ _ => Upholds.pure _
  | value => exact fun d => Progresses.decodeTo (d.remaining + 1) d
  | fileInfo =>
    exact Progresses.readStruct fun n m => (steady_within n m).fileFields fun _ => trivial
  | info => exact Progresses.readStruct fun n m => (steady_within n m).infoFields fun _ => trivial
  | metaInfo =>
    exact Progresses.readStruct fun n m => (steady_within n m).torrentFields fun _ => trivial
  | list item => exact Progresses.readList item.forward

/-- From the one place to the other the bytes read as items and an end marker. -/
inductive ReadsItems (decode : DecoderM α) : Decoder → Decoder → Prop where
  | done {p : ℕ} {r : Bytes} : ReadsItems decode ⟨p, 101 :: r⟩ ⟨p + 1, r⟩
  | item {d d' d'' : Decoder} {a : α} (start : d.rest.head? ≠ some 101) (read : decode d = .ok a d')
      (more : ReadsItems decode d' d'') : ReadsItems decode d d''

section Items

variable {decode : DecoderM α} {d d' : Decoder}

/-- In front of an item, one is read. -/
theorem ReadsItems.cases_item (h : ReadsItems decode d d') (hstart : d.rest.head? ≠ some 101) :
    ∃ a d₁, decode d = .ok a d₁ ∧ ReadsItems decode d₁ d' := by
  cases h with
  | done => exact absurd rfl hstart
  | item _ read more => exact ⟨_, _, read, more⟩

theorem peekByte_end (p : ℕ) : ∃ e, peekByte ⟨p, []⟩ = .error e ⟨p, []⟩ := by
  by_cases hlt : p + 1 < 2 ^ 64
  · exact ⟨_, peekByte_nil hlt⟩
  · have hadd : (checkedAdd p 1 : Except (Fault DecodeError) ℕ) = .error .panic := if_neg hlt
    refine ⟨.panic, bind_of_error ?_⟩
    rw [peekBytes, bind_of_ok (get_ok _), hadd, bind_of_error (pureStep_error _ _)]

/-- At the end marker the loop is done. -/
theorem readListLoop_end {fuel p : ℕ} {tail : Bytes} (hlt : p + (101 :: tail : Bytes).length < 2 ^ 64)
    (list : List α) :
    (do let l ← readListLoop decode (fuel + 1) list; expect 101; return l) ⟨p, 101 :: tail⟩ =
      .ok list ⟨p + 1, tail⟩ := by
  rw [readListLoop, bind_assoc, bind_of_ok (peekByte_cons hlt), if_pos rfl]
  rfl

/-- In front of an item the loop reads it and goes on. -/
theorem readListLoop_item {fuel p : ℕ} {b : UInt8} {tail : Bytes}
    (hlt : p + (b :: tail).length < 2 ^ 64) (hb : b ≠ 101) (list : List α) :
    (do let l ← readListLoop decode (fuel + 1) list; expect 101; return l) ⟨p, b :: tail⟩ =
      (do let a ← decode
          let l ← readListLoop decode fuel (list ++ [a])
          expect 101
          return l) ⟨p, b :: tail⟩ := by
  rw [readListLoop, bind_assoc, bind_of_ok (peekByte_cons hlt), if_neg hb, bind_assoc]

theorem readListLoop_iff (hdecode : Progresses decode) {fuel : ℕ} (hfuel : d.rest.length < fuel)
    (hlt : d.position + d.rest.length < 2 ^ 64) (list : List α) :
    (∃ as, (do let l ← readListLoop decode fuel list; expect 101; return l) d = .ok as d') ↔
      ReadsItems decode d d' := by
  induction fuel generalizing d list with
  | zero => cases hfuel
  | succ fuel ih =>
    obtain ⟨p, rest⟩ := d
    cases rest with
    | nil =>
      obtain ⟨e, hpeek⟩ := peekByte_end p
      rw [readListLoop, bind_assoc, bind_of_error hpeek]
      constructor
      · rintro ⟨as, h⟩
        cases h
      · intro h
        cases h with
        | item _ read _ => cases (hdecode _ _ _ read).2
    | cons b tail =>
      by_cases hb : b = 101
      · subst hb
        rw [readListLoop_end hlt]
        constructor
        · rintro ⟨as, h⟩
          cases h
          exact .done
        · intro h
          cases h with
          | done => exact ⟨_, rfl⟩
          | item start _ _ => exact absurd rfl start
      · have hstart : (b :: tail).head? ≠ some 101 := fun h => hb (Option.some.inj h)
        rw [readListLoop_item hlt hb]
        constructor
        · rintro ⟨as, h⟩
          obtain ⟨a, d₁, hread, h⟩ := stateful_bind_eq_ok.mp h
          obtain ⟨hstream, hless⟩ := hdecode _ _ _ hread
          dsimp only at hstream hless hfuel hlt
          have hmore := (ih (by omega) (by omega) (list ++ [a])).mp ⟨as, h⟩
          exact .item hstart hread hmore
        · intro h
          obtain ⟨a, d₁, hread, hmore⟩ := h.cases_item hstart
          obtain ⟨hstream, hless⟩ := hdecode _ _ _ hread
          dsimp only at hstream hless hfuel hlt
          obtain ⟨as, h⟩ := (ih (by omega) (by omega) (list ++ [a])).mpr hmore
          exact ⟨as, stateful_bind_eq_ok.mpr ⟨a, d₁, hread, h⟩⟩

/-- A list is read where the bytes read as its items. -/
theorem readList_iff (hdecode : Progresses decode) {n : ℕ} {bytes : Bytes}
    (hfit : Fits n (108 :: bytes)) :
    (∃ as, readList decode (inFront n (108 :: bytes)) = .ok as d') ↔
      ReadsItems decode (inFront n bytes) d' := by
  have hle := hfit.le
  have hlt := hfit.lt
  have hopen : expect 108 (inFront n (108 :: bytes)) = .ok () (inFront n bytes) :=
    Reads.inFront_ok (Reads.expect 108) hfit
  have hplace : (inFront n bytes).position + (inFront n bytes).rest.length < 2 ^ 64 := by
    rw [List.length_cons] at hle
    rw [inFront]
    dsimp only
    omega
  rw [readList, bind_of_ok hopen]
  exact readListLoop_iff hdecode (Nat.lt_succ_self _) hplace []

end Items
end TorrentClient
