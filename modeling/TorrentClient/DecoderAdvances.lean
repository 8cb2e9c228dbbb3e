import TorrentClient.BencodeRoundTrip

/-!
# How far a decoder advances

`Advances` says of any call on any input what it does where it returns: the bytes that the
cursor has moved over and what the result has to do with them. It also says where the call
panics, so that a call whose condition for that is false never does. The rules go along the
functions of the decoder.
-/
namespace TorrentClient
open Bencode DecimalNumerals

variable {α β : Type}

/-- A slice has no more than `isize::MAX` bytes. -/
def Decoder.InSlice (d : Decoder) : Prop := d.position + d.rest.length < 2 ^ 63

instance (d : Decoder) : Decidable d.InSlice := Nat.decLt _ _

/-- The bytes are those between two places of the cursor. -/
def Decoder.Moves (d : Decoder) (bytes : Bytes) (d' : Decoder) : Prop :=
  d.rest = bytes ++ d'.rest ∧ d'.position = d.position + bytes.length

/-- A call from `d` returns behind bytes that it moved over, fails, or panics where that may be. -/
def Advances (x : DecoderM α) (d : Decoder) (post : α → Bytes → Prop) (panics : Prop) : Prop :=
  match x d with
  | .ok a d' => ∃ bytes, d.Moves bytes d' ∧ post a bytes
  | .error .panic _ => panics
  | .error (.err _) _ => True

theorem Decoder.Moves.ends {d d' : Decoder} {bytes : Bytes} (h : d.Moves bytes d') :
    ∃ p r, d = ⟨p, bytes ++ r⟩ ∧ d' = ⟨p + bytes.length, r⟩ :=
  ⟨d.position, d'.rest, by rw [← h.1], by rw [← h.2]⟩

theorem Decoder.Moves.trans {d d' d'' : Decoder} {bytes bytes' : Bytes} (h : d.Moves bytes d')
    (h' : d'.Moves bytes' d'') : d.Moves (bytes ++ bytes') d'' := by
  obtain ⟨hrest, hposition⟩ := h
  obtain ⟨hrest', hposition'⟩ := h'
  refine ⟨?_, ?_⟩
  · rw [hrest, hrest', List.append_assoc]
  · rw [hposition', hposition, List.length_append, Nat.add_assoc]

/-- A call that reads the bytes moves over them. -/
theorem Reads.ok_of_moves {x : DecoderM α} {bytes : Bytes} {a : α} (hx : Reads x bytes (some a))
    {d d' : Decoder} (hd : d.InSlice) (h : d.Moves bytes d') : x d = .ok a d' := by
  obtain ⟨p, r, rfl, rfl⟩ := h.ends
  exact hx p r (Nat.lt_trans hd (by decide))

theorem Decoder.InSlice.behind {d : Decoder} (hd : d.InSlice) {bytes rest : Bytes}
    (h : d.rest = bytes ++ rest) : InSlice ⟨d.position + bytes.length, rest⟩ := by
  rw [InSlice, h, List.length_append] at hd
  rw [InSlice]
  dsimp only
  omega

theorem Decoder.peekByte_nil {p : ℕ} (hlt : p + 1 < 2 ^ 64) :
    peekByte ⟨p, []⟩ = .error (.err .eof) ⟨p, []⟩ := by
  have hend : peekBytes 1 ⟨p, []⟩ = .error (.err .eof) ⟨p, []⟩ := by
    rw [peekBytes, bind_of_ok (get_ok _), checkedAdd_of_lt hlt, bind_of_ok (pureStep_ok _ _),
      if_pos (show p + ([] : Bytes).length < p + 1 from Nat.lt_succ_self p)]
    rfl
  rw [peekByte, bind_of_error hend]

namespace Advances
open Decoder

variable {x : DecoderM α} {f : α → DecoderM β} {d d' : Decoder} {post post' : α → Bytes → Prop}
  {panics panics' : Prop}

theorem of_ok {a : α} (hx : Advances x d post panics) (h : x d = .ok a d') :
    ∃ bytes, d.Moves bytes d' ∧ post a bytes := by
  rwa [Advances, h] at hx

theorem of_panic (hx : Advances x d post panics) (h : x d = .error .panic d') : panics := by
  rwa [Advances, h] at hx

theorem mono (hx : Advances x d post panics) (hpost : ∀ a bytes, post a bytes → post' a bytes)
    (hpanics : panics → panics') : Advances x d post' panics' := by
  rw [Advances] at hx ⊢
  split at hx
  · obtain ⟨bytes, hmoves, ha⟩ := hx
    exact ⟨bytes, hmoves, hpost _ _ ha⟩
  · exact hpanics hx
  · trivial

theorem pure {a : α} (h : post a []) : Advances (pure a) d post panics :=
  ⟨[], ⟨rfl, rfl⟩, h⟩

theorem fail (e : DecodeError) : Advances (Decoder.fail e) d post panics := trivial

theorem bind {post : β → Bytes → Prop} {middle : α → Bytes → Prop}
    (hx : Advances x d middle panics)
    (hf : ∀ a bytes rest, d.rest = bytes ++ rest → middle a bytes →
      Advances (f a) ⟨d.position + bytes.length, rest⟩ (fun b bytes' => post b (bytes ++ bytes'))
        panics) : Advances (x >>= f) d post panics := by
  cases hrun : x d with
  | ok a d' =>
    obtain ⟨bytes, hmoves, ha⟩ := hx.of_ok hrun
    obtain ⟨p, r, rfl, rfl⟩ := hmoves.ends
    have hnext := hf a bytes r rfl ha
    rw [Advances, bind_of_ok hrun]
    cases hrun' : f a ⟨p + bytes.length, r⟩ with
    | ok b d'' =>
      obtain ⟨bytes', hmoves', hb⟩ := hnext.of_ok hrun'
      exact ⟨bytes ++ bytes', hmoves.trans hmoves', hb⟩
    | error e d'' =>
      cases e with
      | err e => trivial
      | panic => exact hnext.of_panic hrun'
  | error e d' =>
    rw [Advances, bind_of_error hrun]
    cases e with
    | err e => trivial
    | panic => exact hx.of_panic hrun

theorem get {post : β → Bytes → Prop} {f : Decoder → DecoderM β}
    (h : Advances (f d) d post panics) : Advances (do let d ← get; f d) d post panics := h

/-- A look at the first byte moves over nothing. -/
theorem peekByte {post : β → Bytes → Prop} {f : UInt8 → DecoderM β} (hd : d.InSlice)
    (h : ∀ b tail, d.rest = b :: tail → Advances (f b) d post panics) :
    Advances (do let b ← peekByte; f b) d post panics := by
  obtain ⟨p, rest⟩ := d
  rw [InSlice] at hd
  cases rest with
  | nil =>
    have hstop : p + 1 < 2 ^ 64 := by
      dsimp only at hd
      omega
    rw [Advances, bind_of_error (peekByte_nil hstop)]
    trivial
  | cons b tail =>
    have hlt : p + (b :: tail).length < 2 ^ 64 := by
      dsimp only at hd
      omega
    have hbody := h b tail rfl
    rwa [Advances, bind_of_ok (peekByte_cons hlt)]

theorem read (n : ℕ) :
    Advances (Decoder.read n) d (fun bs bytes => bs = bytes ∧ bytes.length = n) panics := by
  rw [Advances, Decoder.read, bind_of_ok (get_ok _)]
  by_cases hn : n ≤ d.rest.length
  · rw [if_pos hn]
    have hlen := List.length_take_of_le hn
    exact ⟨d.rest.take n, ⟨(List.take_append_drop n d.rest).symm, by rw [hlen]; rfl⟩, rfl, hlen⟩
  · rw [if_neg hn]
    trivial

theorem readByte : Advances Decoder.readByte d (fun b bytes => bytes = [b]) panics := by
  refine (read 1).bind ?_
  rintro _ bytes rest - ⟨rfl, hlen⟩
  obtain ⟨b, rfl⟩ := List.length_eq_one_iff.mp hlen
  exact pure rfl

theorem expect (b : UInt8) : Advances (Decoder.expect b) d (fun _ bytes => bytes = [b]) panics := by
  refine readByte.bind ?_
  rintro c _ rest - rfl
  split_ifs with hb
  · rw [hb]
    exact pure rfl
  · exact fail _

/-- `expect` and what comes after it. -/
theorem expect_then {y : DecoderM α} {b : UInt8}
    (h : ∀ rest, d.rest = [b] ++ rest →
      Advances y ⟨d.position + 1, rest⟩ (fun a bytes => post a (b :: bytes)) panics) :
    Advances (do Decoder.expect b; y) d post panics := by
  refine (expect b).bind ?_
  rintro _ _ rest hrest rfl
  exact h rest hrest

theorem readWhileLoop {predicate : UInt8 → Bool} {fuel : ℕ} {res : Bytes} (hd : d.InSlice)
    (hfuel : d.rest.length < fuel) :
    Advances (Decoder.readWhileLoop predicate fuel res) d
      (fun buf bytes => buf = res ++ bytes ∧ ∀ b ∈ bytes, predicate b = true) panics := by
  induction fuel generalizing d res with
  | zero => cases hfuel
  | succ fuel ih =>
    rw [Decoder.readWhileLoop]
    refine peekByte hd fun b tail hhead => ?_
    split_ifs with hb
    · refine readByte.bind ?_
      rintro c _ rest hrest rfl
      obtain ⟨rfl, rfl⟩ := List.cons.inj (hhead.symm.trans hrest)
      rw [hrest] at hfuel
      refine (ih (hd.behind hrest) (Nat.lt_of_succ_lt_succ hfuel)).mono ?_ id
      rintro buf bytes ⟨rfl, hall⟩
      exact ⟨List.append_assoc _ _ _, List.forall_mem_cons.mpr ⟨hb, hall⟩⟩
    · exact pure ⟨(List.append_nil res).symm, List.forall_mem_nil _⟩

theorem readWhile (predicate : UInt8 → Bool) (hd : d.InSlice) :
    Advances (Decoder.readWhile predicate) d
      (fun buf bytes => buf = bytes ∧ ∀ b ∈ bytes, predicate b = true) panics :=
  get (readWhileLoop hd (Nat.lt_succ_self _))

end Advances

/-- What `read_number` makes of the bytes of a number. -/
def IntegerType.accept (ty : IntegerType) (token : Bytes) : Option ℤ :=
  if token.isEmpty || (decide (token.length > 1) && token.head? == some 48) || token == [45, 48] then
    none
  else ty.parse token

/-- The end of `read_number`. -/
def Decoder.accepted : Option ℤ → DecoderM ℤ
  | some n => pure n
  | none => fail .invalidNumber

theorem Decoder.readNumber_eq (ty : IntegerType) :
    readNumber ty = readWhile isNumber >>= fun buf => accepted (ty.accept buf) := by
  rw [readNumber]
  refine congrArg _ (funext fun buf => ?_)
  rw [IntegerType.accept]
  split_ifs
  · rfl
  · cases ty.parse buf <;> rfl

theorem IntegerType.accept_eq_some {ty : IntegerType} {token : Bytes} {n : ℤ} :
    ty.accept token = some n ↔
      token ≠ [] ∧ (token.head? = some 48 → token = [48]) ∧ token ≠ [45, 48] ∧
        ty.parse token = some n := by
  have hzero : (decide (token.length > 1) && token.head? == some 48) = true ↔
      ¬ (token.head? = some 48 → token = [48]) := by
    cases token with
    | nil => simp
    | cons b tail => cases tail <;> simp
  rw [accept, Option.ite_none_left_eq_some, Bool.or_eq_true, Bool.or_eq_true, hzero,
    List.isEmpty_iff, beq_iff_eq, not_or, not_or, not_not, and_assoc, and_assoc]

theorem IntegerType.parseDigits_eq_some {bs : Bytes} {n : ℕ} :
    parseDigits bs = some n ↔ bs ≠ [] ∧ (∀ b ∈ bs, isDigit b = true) ∧ value bs = n := by
  rw [parseDigits, Option.ite_none_right_eq_some, Bool.and_eq_true, List.all_eq_true,
    Bool.not_eq_true', List.isEmpty_eq_false_iff, Option.some_inj, and_assoc]

theorem IntegerType.parseDigits_minus (bs : Bytes) : parseDigits (45 :: bs) = none := by
  rw [Option.eq_none_iff_forall_ne_some]
  intro n hn
  cases (parseDigits_eq_some.mp hn).2.1 45 List.mem_cons_self

/-- A parsed number is a minus sign and digits, or digits alone. -/
theorem IntegerType.parse_eq_some {ty : IntegerType} {bs : Bytes} {n : ℤ} :
    ty.parse bs = some n ↔ ty.Contains n ∧
      ((∃ digits m, bs = 45 :: digits ∧ ty.signed = true ∧ parseDigits digits = some m ∧
        -(m : ℤ) = n) ∨ ∃ m, parseDigits bs = some m ∧ (m : ℤ) = n) := by
  have hrange : ∀ o : Option ℤ, (o.bind fun i => if ty.Contains i then some i else none) = some n ↔
      ty.Contains n ∧ o = some n := by
    intro o
    cases o with
    | none => simp
    | some i =>
      rw [Option.bind_some, Option.ite_none_right_eq_some]
      constructor
      · rintro ⟨hin, ⟨rfl⟩⟩
        exact ⟨hin, rfl⟩
      · rintro ⟨hin, ⟨rfl⟩⟩
        exact ⟨hin, rfl⟩
  unfold parse
  split
  · rename_i digits
    rw [parseDigits_minus]
    cases ty.signed with
    | true =>
      refine (hrange _).trans (and_congr_right fun _ => ?_)
      rw [Option.map_eq_some_iff]
      simp
    | false =>
      refine (hrange none).trans ?_
      simp
  · rename_i hminus
    refine (hrange _).trans (and_congr_right fun _ => ?_)
    rw [Option.map_eq_some_iff]
    constructor
    · exact Or.inr
    · rintro (⟨digits, m, rfl, -⟩ | h)
      · exact absurd rfl (hminus digits)
      · exact h

theorem Reads.readAccepted (ty : IntegerType) {token : Bytes} (h : ∀ b ∈ token, isNumber b = true) :
    Reads (Decoder.readInteger ty) (105 :: (token ++ [101])) (ty.accept token) := by
  rw [Decoder.readInteger, Decoder.readNumber_eq]
  apply Reads.expect_then
  rw [bind_assoc]
  apply Reads.readWhile h rfl
  cases ty.accept token with
  | none => exact Reads.fail_then _
  | some n => exact Reads.expect_then (Reads.pure n)

/-- A number without a sign is accepted in its numeral only. -/
theorem IntegerType.accept_unsigned {ty : IntegerType} (hs : ty.signed = false) {token : Bytes}
    {n : ℤ} (h : ty.accept token = some n) : ty.Contains n ∧ token = numeral n.toNat := by
  obtain ⟨-, hzero, -, hparse⟩ := accept_eq_some.mp h
  obtain ⟨hin, ⟨digits, m, -, hsigned, -⟩ | ⟨m, hm, rfl⟩⟩ := parse_eq_some.mp hparse
  · cases hs.symm.trans hsigned
  · obtain ⟨hne, hall, rfl⟩ := parseDigits_eq_some.mp hm
    exact ⟨hin, by rw [Int.toNat_natCast, numeral_value hne hall hzero]⟩

namespace Advances
open Decoder

variable {x : DecoderM α} {f : α → DecoderM β} {d d' : Decoder} {post post' : α → Bytes → Prop}
  {panics panics' : Prop}

theorem readNumber (ty : IntegerType) (hd : d.InSlice) :
    Advances (Decoder.readNumber ty) d
      (fun n bytes => (∀ b ∈ bytes, isNumber b = true) ∧ ty.accept bytes = some n) panics := by
  rw [readNumber_eq]
  refine (readWhile isNumber hd).bind ?_
  rintro bytes _ rest - ⟨rfl, hall⟩
  cases haccept : ty.accept bytes with
  | none => exact fail _
  | some n =>
    refine pure ?_
    rw [List.append_nil]
    exact ⟨hall, haccept⟩

theorem readInteger (ty : IntegerType) (hd : d.InSlice) :
    Advances (Decoder.readInteger ty) d
      (fun n bytes => ∃ token, bytes = 105 :: (token ++ [101]) ∧ (∀ b ∈ token, isNumber b = true) ∧
        ty.accept token = some n) panics := by
  refine expect_then fun rest hrest => ?_
  refine (readNumber ty (hd.behind hrest)).bind ?_
  rintro n token rest' - ⟨hall, haccept⟩
  refine expect_then fun rest'' _ => ?_
  exact pure ⟨token, rfl, hall, haccept⟩

/-- The length of a string is spelled in one way. -/
theorem readByteString (hd : d.InSlice) :
    Advances Decoder.readByteString d (fun bs bytes => bytes = printString bs) panics := by
  refine (readNumber .usize hd).bind ?_
  rintro n token rest hrest ⟨-, haccept⟩
  obtain ⟨-, rfl⟩ := IntegerType.accept_unsigned rfl haccept
  refine expect_then fun rest' _ => get ?_
  split_ifs with hlen
  · exact fail _
  · refine (read n.toNat).mono ?_ id
    rintro bs bytes ⟨rfl, hbytes⟩
    rw [printString, hbytes]

theorem readStr (hd : d.InSlice) :
    Advances Decoder.readStr d (fun s bytes => bytes = printString (asBytes s)) panics := by
  refine (readByteString hd).bind ?_
  rintro bs _ rest - rfl
  cases hs : fromUtf8 bs with
  | none => exact fail _
  | some s =>
    refine pure ?_
    rw [List.append_nil, fromUtf8_eq_some.mp hs]

variable {relates : α → Bytes → Prop}

/-- A loop that reads values up to the end marker has read one chunk of bytes for each. -/
theorem readListLoop {decode : DecoderM α} {list : List α} {fuel : ℕ} (hd : d.InSlice)
    (hfuel : d.rest.length < fuel)
    (hdecode : ∀ d' : Decoder, d'.InSlice → d'.rest.length ≤ d.rest.length →
      Advances decode d' relates panics)
    (hsome : ∀ a bytes, relates a bytes → bytes ≠ []) :
    Advances (Decoder.readListLoop decode fuel list) d
      (fun res bytes => ∃ as chunks, res = list ++ as ∧ List.Forall₂ relates as chunks ∧
        bytes = chunks.flatten) panics := by
  induction fuel generalizing d list with
  | zero => cases hfuel
  | succ fuel ih =>
    rw [Decoder.readListLoop]
    refine peekByte hd fun b tail _ => ?_
    split_ifs
    · exact pure ⟨[], [], (List.append_nil _).symm, .nil, rfl⟩
    · refine (hdecode d hd le_rfl).bind ?_
      intro a bytes rest hrest ha
      have hpos := List.length_pos_of_ne_nil (hsome a bytes ha)
      have hlen := congrArg List.length hrest
      rw [List.length_append] at hlen
      refine (ih (hd.behind hrest) (by dsimp only; omega) ?_).mono ?_ id
      · intro d' hd' hle
        exact hdecode d' hd' (by dsimp only at hle; omega)
      · rintro res _ ⟨as, chunks, rfl, hall, rfl⟩
        exact ⟨a :: as, bytes :: chunks, List.append_assoc _ _ _, .cons ha hall, rfl⟩

/-- The bytes of an entry of a dictionary. -/
def relatesEntry (relates : Value → Bytes → Prop) (e : String × Value) (chunk : Bytes) : Prop :=
  ∃ bytes, chunk = printString (asBytes e.1) ++ bytes ∧ relates e.2 bytes

theorem readDictLoop {relates : Value → Bytes → Prop} {decode : DecoderM Value}
    {map : List (String × Value)} {fuel : ℕ} (hd : d.InSlice) (hfuel : d.rest.length < fuel)
    (hdecode : ∀ d' : Decoder, d'.InSlice → d'.rest.length ≤ d.rest.length →
      Advances decode d' relates panics) :
    Advances (Decoder.readDictLoop decode fuel map) d
      (fun res bytes => ∃ es chunks, res = insertAll map es ∧
        List.Forall₂ (relatesEntry relates) es chunks ∧ bytes = chunks.flatten) panics := by
  induction fuel generalizing d map with
  | zero => cases hfuel
  | succ fuel ih =>
    rw [Decoder.readDictLoop]
    refine peekByte hd fun b tail _ => ?_
    split_ifs
    · exact pure ⟨[], [], rfl, .nil, rfl⟩
    · refine (readStr hd).bind ?_
      rintro key _ rest hrest rfl
      have hpos := List.length_pos_of_ne_nil (printString_ne_nil (asBytes key))
      have hlen := congrArg List.length hrest
      rw [List.length_append] at hlen
      refine (hdecode _ (hd.behind hrest) (by dsimp only; omega)).bind ?_
      intro v bytes rest' hrest' hv
      have hlen' := congrArg List.length hrest'
      rw [List.length_append] at hlen'
      dsimp only at hlen'
      refine (ih ((hd.behind hrest).behind hrest') (by dsimp only; omega) ?_).mono ?_ id
      · intro d' hd' hle
        exact hdecode d' hd' (by dsimp only at hle; omega)
      · rintro res _ ⟨es, chunks, rfl, hall, rfl⟩
        refine ⟨(key, v) :: es, _ :: chunks, rfl, .cons ⟨bytes, rfl, hv⟩ hall, ?_⟩
        rw [List.flatten_cons, List.append_assoc]

end Advances
end TorrentClient
