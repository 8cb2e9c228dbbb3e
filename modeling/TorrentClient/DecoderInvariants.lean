import TorrentClient.StreamingDecoder

/-!
# What every call of the decoder keeps

A property of the cursor that holds however far it advances is kept by all functions of the
decoder, whether they return or fail, and only the search for a field fails with a missing one.
The rules go along the functions, once for all such properties.
-/
namespace TorrentClient

variable {α β : Type} {p : Decoder → Prop} {q : Fault DecodeError → Prop}

/-- A call from a decoder with `p` ends with one, and where it fails it does so with `q`. -/
def Upholds (p : Decoder → Prop) (q : Fault DecodeError → Prop) (x : DecoderM α) : Prop :=
  ∀ d, p d → match x d with
    | .ok _ d' => p d'
    | .error e d' => p d' ∧ q e

namespace Upholds

variable {x : DecoderM α} {f : α → DecoderM β}

theorem of_ok (hx : Upholds p q x) {d d' : Decoder} {a : α} (hd : p d) (h : x d = .ok a d') :
    p d' := by
  have hend := hx d hd
  rwa [h] at hend

theorem of_error (hx : Upholds p q x) {d d' : Decoder} {e : Fault DecodeError} (hd : p d)
    (h : x d = .error e d') : p d' ∧ q e := by
  have hend := hx d hd
  rwa [h] at hend

theorem pure (a : α) : Upholds p q (pure a : DecoderM α) := fun _ hd => hd

theorem throw {e : Fault DecodeError} (he : q e) : Upholds p q (throw e : DecoderM α) :=
  fun _ hd => ⟨hd, he⟩

theorem bind (hx : Upholds p q x) (hf : ∀ a, Upholds p q (f a)) : Upholds p q (x >>= f) := by
  intro d hd
  cases hrun : x d with
  | ok a d' =>
    rw [bind_of_ok hrun]
    exact hf a d' (hx.of_ok hd hrun)
  | error e d' =>
    rw [bind_of_error hrun]
    exact hx.of_error hd hrun

theorem get {f : Decoder → DecoderM β} (hf : ∀ d, p d → Upholds p q (f d)) :
    Upholds p q (do let d ← get; f d) := fun d hd => hf d hd d hd

theorem set {d : Decoder} (hd : p d) : Upholds p q (set d : DecoderM PUnit) := fun _ _ => hd

/-- A step without the decoder, and what comes after it. -/
theorem pureStep {x : Except (Fault DecodeError) α} (hx : ∀ e, x = .error e → q e)
    (hf : ∀ a, x = .ok a → Upholds p q (f a)) : Upholds p q (do let a ← pureStep x; f a) := by
  intro d hd
  cases x with
  | ok a => exact hf a rfl d hd
  | error e => exact ⟨hd, hx e rfl⟩

/-- The cursor stays where the call left it, and no error is left. -/
theorem attempt (hx : Upholds p q x) : Upholds p q (Decoder.attempt x) := by
  intro d hd
  rw [Decoder.attempt]
  cases hrun : x d with
  | ok a d' => exact hx.of_ok hd hrun
  | error e d' =>
    cases e with
    | err e => exact (hx.of_error hd hrun).1
    | panic => exact hx.of_error hd hrun

end Upholds

/-- The property stays when the cursor advances, and the errors are at least those that are no
missing fields. -/
structure Steady (p : Decoder → Prop) (q : Fault DecodeError → Prop) : Prop where
  advance : ∀ d n, n ≤ d.rest.length → p d → p (d.advance n)
  error : ∀ e, (∀ name, e ≠ .err (.missingField name)) → q e

namespace Steady
open Decoder

section Values

variable (h : Steady p q)

include h

theorem panic : Upholds p q (throw .panic : DecoderM α) := Upholds.throw (h.error _ nofun)

theorem fail {e : DecodeError} (he : ∀ name, e ≠ .missingField name) :
    Upholds p q (fail e : DecoderM α) := by
  refine Upholds.throw (h.error _ fun name heq => ?_)
  injection heq with heq
  exact he name heq

theorem index (xs : List α) (i : ℕ) : Upholds p q (pureStep (index xs i) : DecoderM α) := by
  rw [← bind_pure (pureStep _ : DecoderM α)]
  refine Upholds.pureStep (fun e he => h.error e ?_) fun a _ => Upholds.pure a
  rintro name rfl
  rw [TorrentClient.index] at he
  split at he <;> cases he

theorem checkedAdd {a b : ℕ} {f : ℕ → DecoderM β} (hf : Upholds p q (f (a + b))) :
    Upholds p q (do let stop ← pureStep (checkedAdd a b); f stop) := by
  refine Upholds.pureStep (fun e he => h.error e ?_) fun stop hstop => ?_
  · rintro name rfl
    rw [TorrentClient.checkedAdd] at he
    split_ifs at he
    cases he
  · rw [TorrentClient.checkedAdd] at hstop
    split_ifs at hstop
    cases hstop
    exact hf

theorem read (n : ℕ) : Upholds p q (Decoder.read n) := by
  refine Upholds.get fun d hd => ?_
  split_ifs with hle
  · exact (Upholds.set (h.advance d n hle hd)).bind fun _ => Upholds.pure _
  · exact (Upholds.set (h.advance d _ le_rfl hd)).bind fun _ => h.fail nofun

theorem readByte : Upholds p q readByte := (h.read 1).bind fun _ => h.index _ _

theorem expect (b : UInt8) : Upholds p q (expect b) := by
  refine h.readByte.bind fun _ => ?_
  split_ifs
  · exact Upholds.pure _
  · exact h.fail nofun

theorem peekByte : Upholds p q peekByte := by
  refine Upholds.bind (Upholds.get fun d _ => h.checkedAdd ?_) fun _ => h.index _ _
  split_ifs
  · exact h.fail nofun
  · exact Upholds.pure _

theorem readWhileLoop (predicate : UInt8 → Bool) (fuel : ℕ) (res : Bytes) :
    Upholds p q (readWhileLoop predicate fuel res) := by
  induction fuel generalizing res with
  | zero => exact h.panic
  | succ fuel ih =>
    refine h.peekByte.bind fun b => ?_
    split_ifs
    · exact h.readByte.bind fun b => ih _
    · exact Upholds.pure _

theorem readNumber (ty : IntegerType) : Upholds p q (readNumber ty) := by
  refine Upholds.bind (Upholds.get fun d _ => h.readWhileLoop _ _ _) fun buf => ?_
  split_ifs
  · exact h.fail nofun
  · cases ty.parse buf with
    | some n => exact Upholds.pure n
    | none => exact h.fail nofun

theorem readInteger (ty : IntegerType) : Upholds p q (readInteger ty) :=
  (h.expect 105).bind fun _ => (h.readNumber ty).bind fun _ => (h.expect 101).bind fun _ =>
    Upholds.pure _

theorem readByteString : Upholds p q readByteString := by
  refine (h.readNumber .usize).bind fun n => (h.expect 58).bind fun _ => Upholds.get fun d _ => ?_
  split_ifs
  · exact h.fail nofun
  · exact h.read _

theorem readStr : Upholds p q readStr := by
  refine h.readByteString.bind fun bytes => ?_
  cases fromUtf8 bytes with
  | some s => exact Upholds.pure s
  | none => exact h.fail nofun

variable {decode : DecoderM α} (hdecode : Upholds p q decode)

include hdecode

theorem readListLoop (fuel : ℕ) (list : List α) : Upholds p q (readListLoop decode fuel list) := by
  induction fuel generalizing list with
  | zero => exact h.panic
  | succ fuel ih =>
    refine h.peekByte.bind fun b => ?_
    split_ifs
    · exact Upholds.pure _
    · exact hdecode.bind fun _ => ih _

theorem readList : Upholds p q (readList decode) :=
  (h.expect 108).bind fun _ => Upholds.get fun _ _ => (h.readListLoop hdecode _ _).bind fun _ =>
    (h.expect 101).bind fun _ => Upholds.pure _

theorem readDictLoop (fuel : ℕ) (map : List (String × α)) :
    Upholds p q (readDictLoop decode fuel map) := by
  induction fuel generalizing map with
  | zero => exact h.panic
  | succ fuel ih =>
    refine h.peekByte.bind fun b => ?_
    split_ifs
    · exact Upholds.pure _
    · exact h.readStr.bind fun _ => hdecode.bind fun _ => ih _

theorem readDict : Upholds p q (readDict decode) :=
  (h.expect 100).bind fun _ => Upholds.get fun _ _ => (h.readDictLoop hdecode _ _).bind fun _ =>
    (h.expect 101).bind fun _ => Upholds.pure _

omit hdecode

theorem decodeTo (depth : ℕ) : Upholds p q (Value.decodeTo depth) := by
  induction depth with
  | zero => exact h.panic
  | succ depth ih =>
    refine h.peekByte.bind fun b => ?_
    split_ifs
    · exact (h.readDict ih).bind fun _ => Upholds.pure _
    · exact (h.readList ih).bind fun _ => Upholds.pure _
    · exact (h.readInteger .i64).bind fun _ => Upholds.pure _
    · refine h.readByteString.bind fun bytes => ?_
      cases fromUtf8 bytes <;> exact Upholds.pure _
    · exact h.fail nofun

theorem decodeValue : Upholds p q Value.decode := Upholds.get fun _ _ => h.decodeTo _

end Values

section Skipping

variable (h : Steady p q)

include h

theorem skip (n : ℕ) : Upholds p q (skip n) := by
  refine Upholds.get fun d hd => h.checkedAdd ?_
  split_ifs with hlt
  · exact h.fail nofun
  · exact Upholds.set (h.advance d n (by omega) hd)

theorem skipWhile (predicate : UInt8 → Bool) : Upholds p q (skipWhile predicate) := by
  refine Upholds.get fun d _ => ?_
  generalize d.remaining + 1 = fuel
  induction fuel with
  | zero => exact h.panic
  | succ fuel ih =>
    refine h.peekByte.bind fun b => ?_
    split_ifs
    · exact h.readByte.bind fun _ => ih
    · exact Upholds.pure _

theorem skipLoop {step : DecoderM Unit} (hstep : Upholds p q step) (fuel : ℕ) :
    Upholds p q (skipLoop step fuel) := by
  induction fuel with
  | zero => exact h.panic
  | succ fuel ih =>
    refine h.peekByte.bind fun b => ?_
    split_ifs
    · exact Upholds.pure _
    · exact hstep.bind fun _ => ih

theorem skipItemTo (depth : ℕ) : Upholds p q (skipItemTo depth) := by
  induction depth with
  | zero => exact h.panic
  | succ depth ih =>
    refine h.peekByte.bind fun b => ?_
    split_ifs
    · exact h.readByte.bind fun _ => Upholds.get fun _ _ =>
        (h.skipLoop (ih.bind fun _ => ih) _).bind fun _ => h.expect 101
    · exact h.readByte.bind fun _ => Upholds.get fun _ _ =>
        (h.skipLoop ih _).bind fun _ => h.expect 101
    · exact (h.expect 105).bind fun _ => (h.skipWhile _).bind fun _ => h.expect 101
    · exact (h.readNumber .usize).bind fun n => (h.expect 58).bind fun _ => h.skip _
    · exact h.fail nofun

theorem skipItem : Upholds p q skipItem := Upholds.get fun _ _ => h.skipItemTo _

theorem skipFields : Upholds p q skipFields :=
  Upholds.get fun _ _ =>
    (h.skipLoop (h.skipItem.bind fun _ => h.skipItem) _).bind fun _ => h.expect 101

end Skipping

section Structs

variable (h : Steady p q) (hmissing : ∀ name, q (.err (.missingField name)))

include h

theorem readStruct {x : DecoderM α} (hx : Upholds p q x) : Upholds p q (readStruct x) :=
  (h.expect 100).bind fun _ => hx.bind fun _ => h.skipFields.bind fun _ => Upholds.pure _

include hmissing

variable {decode : DecoderM α} (hdecode : Upholds p q decode) (name : String)

omit h in
theorem missing {d : Decoder} (hd : p d) : Upholds p q (missing d name : DecoderM α) :=
  (Upholds.set hd).bind fun _ => Upholds.throw (hmissing name)

include hdecode

theorem readField : Upholds p q (readField decode name) := by
  refine Upholds.get fun d hd => ?_
  generalize d.remaining + 1 = fuel
  induction fuel with
  | zero => exact h.panic
  | succ fuel ih =>
    refine h.peekByte.bind fun b => ?_
    split_ifs
    · exact missing hmissing name hd
    · refine h.readStr.bind fun key => ?_
      split_ifs
      · exact hdecode
      · exact h.skipItem.bind fun _ => ih
      · exact missing hmissing name hd

theorem readOption : Upholds p q (readOption decode name) := by
  refine (h.readField hmissing hdecode name).attempt.bind fun result => ?_
  split
  · exact Upholds.pure _
  · exact Upholds.pure _
  · next e he => exact h.fail he

omit hmissing in
theorem readFieldCombineLoop {f : Decoder × List α → DecoderM β}
    (hf : ∀ pos res, p pos → Upholds p q (f (pos, res))) (fuel : ℕ) {pos : Decoder} (hpos : p pos)
    (res : List α) : Upholds p q (readFieldCombineLoop decode name fuel pos res >>= f) := by
  induction fuel generalizing pos res with
  | zero => exact fun d hd => ⟨hd, h.error _ nofun⟩
  | succ fuel ih =>
    rw [Decoder.readFieldCombineLoop, bind_assoc]
    refine h.peekByte.bind fun b => ?_
    split_ifs
    · exact hf pos res hpos
    · rw [bind_assoc]
      refine h.readStr.bind fun key => ?_
      split_ifs
      · rw [bind_assoc]
        refine (h.readList hdecode).bind fun list => ?_
        rw [bind_assoc]
        exact Upholds.get fun d hd => ih hd _
      · rw [bind_assoc]
        exact h.skipItem.bind fun _ => ih hpos res
      · exact hf pos res hpos

theorem readFieldCombine : Upholds p q (readFieldCombine decode name) := by
  refine Upholds.get fun d hd => ?_
  refine h.readFieldCombineLoop hdecode name (fun pos res hpos => ?_) _ hd []
  refine (Upholds.set hpos).bind fun _ => ?_
  split_ifs
  · exact Upholds.throw (hmissing name)
  · exact Upholds.pure _

omit hdecode name

omit hmissing in
theorem readUnsigned (ty : IntegerType) : Upholds p q (readUnsigned ty) :=
  (h.readInteger ty).bind fun _ => Upholds.pure _

omit hmissing in
theorem readSha1List : Upholds p q readSha1List := h.readByteString.bind fun _ => Upholds.pure _

theorem fileFields : Upholds p q FileInfo.readFields :=
  (h.readField hmissing (h.readUnsigned _) _).bind fun _ =>
    (h.readOption hmissing h.readStr _).bind fun _ =>
      (h.readField hmissing (h.readList h.readStr) _).bind fun _ => Upholds.pure _

theorem infoFields : Upholds p q Info.readFields := by
  have hfile : Upholds p q FileInfo.decode := h.readStruct (h.fileFields hmissing)
  refine (h.readField hmissing (h.readList hfile) "files").attempt.bind fun files => ?_
  split
  · exact (h.readField hmissing h.readStr _).bind fun _ =>
      (h.readField hmissing (h.readUnsigned _) _).bind fun _ =>
        (h.readField hmissing h.readSha1List _).bind fun _ => Upholds.pure _
  · exact (h.readField hmissing (h.readUnsigned _) _).bind fun _ =>
      (h.readOption hmissing h.readStr _).bind fun _ =>
        (h.readField hmissing h.readStr _).bind fun _ =>
          (h.readField hmissing (h.readUnsigned _) _).bind fun _ =>
            (h.readField hmissing h.readSha1List _).bind fun _ => Upholds.pure _

theorem torrentFields : Upholds p q TorrentMetaInfo.readFields :=
  (h.readOption hmissing h.readStr _).bind fun _ =>
    (h.readFieldCombine hmissing (h.readList h.readStr) _).bind fun _ =>
      (h.readOption hmissing h.readStr _).bind fun _ =>
        (h.readOption hmissing h.readStr _).bind fun _ =>
          (h.readOption hmissing h.readStr _).bind fun _ =>
            (h.readField hmissing (h.readStruct (h.infoFields hmissing)) _).bind fun _ =>
              Upholds.pure _

end Structs
end Steady
end TorrentClient
