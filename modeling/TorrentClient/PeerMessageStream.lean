import TorrentClient.PeerMessages
import Mathlib.Tactic.NormNum

/-!
# Streams of serialized messages

Every message but `Piece` is read back from the front of a stream by the reader of a
connection. `Message::serialize` gives a `Piece` the tag of a `Request`, so a stream is
read back exactly when no `Piece` was written to it.
-/
namespace TorrentClient

@[simp] theorem bytesToU32_cons (a b c d : UInt8) (rest : Bytes) :
    bytesToU32 (a :: b :: c :: d :: rest) =
      .ok (a.toUInt32 * byte0 + b.toUInt32 * byte1 + c.toUInt32 * byte2 + d.toUInt32 * byte3) := rfl

@[simp] theorem length_u32ToBytes (integer : UInt32) : (u32ToBytes integer).length = 4 := rfl

/-- The big-endian codec is exact on the whole range of `u32`. -/
theorem bytesToU32_u32ToBytes (integer : UInt32) (rest : Bytes) :
    bytesToU32 (u32ToBytes integer ++ rest) = .ok integer := by
  have hlt := integer.toNat_lt
  have h0 : byte0.toNat = 16777216 := rfl
  have h1 : byte1.toNat = 65536 := rfl
  have h2 : byte2.toNat = 256 := rfl
  have h3 : byte3.toNat = 1 := rfl
  simp only [u32ToBytes, List.cons_append, bytesToU32_cons, Except.ok.injEq]
  apply UInt32.toNat_inj.mp
  simp only [UInt32.toNat_add, UInt32.toNat_mul, UInt8.toNat_toUInt32, UInt32.toNat_toUInt8,
    UInt32.toNat_div, UInt32.toNat_sub, h0, h1, h2, h3]
  omega

theorem readN_append (xs rest : Bytes) {n : ℕ} (h : xs.length = n) :
    readN (xs ++ rest) n = .ok (xs, rest) := by
  subst h
  simp [readN]

theorem subslice_append (pre xs rest : Bytes) {start stop : ℕ} (hs : pre.length = start)
    (ht : start + xs.length = stop) :
    (subslice (pre ++ (xs ++ rest)) start stop : Outcome Bytes) = .ok xs := by
  subst hs ht
  rw [subslice_of_le (by simp), ListRanges.slice]
  simp

/-- The three numbers in the body of a `Request` or a `Cancel`. -/
theorem threeNumbers (a b c : UInt32) :
    let body := u32ToBytes a ++ u32ToBytes b ++ u32ToBytes c
    (subslice body 0 4 : Outcome Bytes) = .ok (u32ToBytes a) ∧
      (subslice body 4 8 : Outcome Bytes) = .ok (u32ToBytes b) ∧
      (subslice body 8 12 : Outcome Bytes) = .ok (u32ToBytes c) := by
  refine ⟨?_, ?_, ?_⟩
  · simpa using subslice_append [] (u32ToBytes a) (u32ToBytes b ++ u32ToBytes c) rfl rfl
  · simpa using subslice_append (u32ToBytes a) (u32ToBytes b) (u32ToBytes c) rfl rfl
  · simpa using subslice_append (u32ToBytes a ++ u32ToBytes b) (u32ToBytes c) [] rfl rfl

theorem bytesToU32_encoded (integer : UInt32) : bytesToU32 (u32ToBytes integer) = .ok integer := by
  simpa using bytesToU32_u32ToBytes integer []

/-- A positive length prefix is followed by a tag and a body. -/
theorem readMessage_positive {stream prefixed rest : Bytes} {size : UInt32}
    (hread : readN stream 4 = .ok (prefixed, rest)) (hsize : bytesToU32 prefixed = .ok size)
    (hpos : size > 0) :
    readMessage stream = (do
      let (message, stream) ← readN rest size.toNat
      let id ← index message 0
      let m ← Message.new id (message.drop 1)
      return (m, stream)) := by
  simp only [readMessage, hread, ok_bind, hsize, hpos, ↓reduceIte]

/-- Reading behind a length prefix hands the tag and the body to `Message::new`. -/
theorem readMessage_framed (tag : UInt8) (body rest : Bytes) (h : body.length + 1 < 2 ^ 32) :
    readMessage (u32ToBytes (UInt32.ofNat (body.length + 1)) ++ (tag :: body ++ rest)) =
      (do let m ← Message.new tag body; return (m, rest)) := by
  have hn : (UInt32.ofNat (body.length + 1)).toNat = body.length + 1 :=
    UInt32.toNat_ofNat_of_lt' h
  have hpos : UInt32.ofNat (body.length + 1) > 0 := by
    rw [gt_iff_lt, UInt32.lt_iff_toNat_lt, hn]
    exact Nat.succ_pos _
  have hbody : readN (tag :: body ++ rest) (body.length + 1) = .ok (tag :: body, rest) :=
    readN_append (tag :: body) rest rfl
  have hid : (index (tag :: body) 0 : Outcome UInt8) = .ok tag := rfl
  rw [readMessage_positive (readN_append _ _ (length_u32ToBytes _)) (bytesToU32_encoded _) hpos,
    hn, hbody]
  simp only [ok_bind, hid, List.drop_succ_cons, List.drop_zero]

theorem readMessage_zero {stream prefixed rest : Bytes}
    (hread : readN stream 4 = .ok (prefixed, rest)) (hsize : bytesToU32 prefixed = .ok 0) :
    readMessage stream = .ok (.keepAlive, rest) := by
  simp only [readMessage, hread, ok_bind, hsize]
  rfl

theorem readMessage_keepAlive (rest : Bytes) :
    readMessage (u32ToBytes 0 ++ rest) = .ok (.keepAlive, rest) :=
  readMessage_zero (readN_append _ _ (length_u32ToBytes _)) (bytesToU32_encoded _)

def Message.isPiece : Message → Bool
  | .piece _ _ _ => true
  | _ => false

/-- The decoder branch of the tag that the encoder branch wrote, for every other message. -/
theorem Message.new_payload (m : Message) (hp : m.isPiece = false) {tag : UInt8} {body : Bytes}
    (h : m.payload = tag :: body) : Message.new tag body = .ok m := by
  cases m with
  | keepAlive => simp [payload] at h
  | piece index offset data => simp [isPiece] at hp
  | «have» index =>
    obtain ⟨rfl, rfl⟩ := List.cons.inj h
    simp [new, bytesToU32_encoded]
  | request index offset length =>
    obtain ⟨rfl, rfl⟩ := List.cons.inj h
    obtain ⟨h0, h4, h8⟩ := threeNumbers index offset length
    simp only [new, h0, h4, h8, ok_bind, bytesToU32_encoded]
    rfl
  | cancel index offset length =>
    obtain ⟨rfl, rfl⟩ := List.cons.inj h
    obtain ⟨h0, h4, h8⟩ := threeNumbers index offset length
    simp only [new, h0, h4, h8, ok_bind, bytesToU32_encoded]
    rfl
  | _ =>
    obtain ⟨rfl, rfl⟩ := List.cons.inj h
    rfl

/-- A message that is not a `Piece` is read back from the front of a stream. -/
theorem readMessage_serialize (m : Message) (hp : m.isPiece = false)
    (hsize : m.payload.length < 2 ^ 32) (rest : Bytes) :
    readMessage (m.serialize ++ rest) = .ok (m, rest) := by
  cases h : m.payload with
  | nil =>
    have hm : m = .keepAlive := by cases m <;> simp_all [Message.payload]
    subst hm
    exact readMessage_keepAlive rest
  | cons tag body =>
    rw [h] at hsize
    have hm := Message.new_payload m hp h
    rw [Message.serialize, h, List.append_assoc]
    exact (readMessage_framed tag body rest hsize).trans (by rw [hm]; rfl)

/-- The tag that `serialize` gives a `Piece` never reads back as one. -/
theorem Message.new_requestTag (body : Bytes) {m : Message} (h : Message.new 6 body = .ok m) :
    m.isPiece = false := by
  simp only [new, show (6 : UInt8).toNat = 6 from rfl, bind_eq_ok] at h
  obtain ⟨_, _, _, _, _, _, _, _, _, _, _, _, hm⟩ := h
  cases hm
  rfl

theorem readMessage_serialize_piece (index offset : UInt32) (data rest : Bytes)
    (hsize : (Message.piece index offset data).payload.length < 2 ^ 32) {m : Message}
    {rest' : Bytes}
    (h : readMessage ((Message.piece index offset data).serialize ++ rest) = .ok (m, rest')) :
    m.isPiece = false := by
  rw [Message.serialize, List.append_assoc] at h
  have hframe := readMessage_framed 6 (u32ToBytes index ++ u32ToBytes offset ++ data) rest hsize
  have h' := hframe.symm.trans h
  obtain ⟨m', hm', he⟩ := bind_eq_ok.mp h'
  cases he
  exact Message.new_requestTag _ hm'

theorem Message.serialize_ne_nil (m : Message) : m.serialize ≠ [] := by
  simp [Message.serialize, u32ToBytes]

/-- The stream of a list of messages is read back as that list, to its last byte, exactly
when the list holds no `Piece`. -/
theorem connReadLoop_serialize_iff (messages : List Message)
    (hsize : ∀ m ∈ messages, m.payload.length < 2 ^ 32) :
    ((connReadLoop (messages.flatMap Message.serialize)).items = messages ∧
      (connReadLoop (messages.flatMap Message.serialize)).unread = []) ↔
    ∀ m ∈ messages, m.isPiece = false := by
  refine FrameStreams.readAll_returns_iff (fun m hs hp rest => readMessage_serialize m hp hs rest)
    ?_ ⟨.err "unexpected end of file", rfl⟩ Message.serialize_ne_nil hsize
  intro m hs hp rest b rest' hread hb
  cases m with
  | piece index offset data =>
    have := readMessage_serialize_piece index offset data rest hs hread
    rw [hb] at this
    exact hp this
  | _ => exact hp rfl

theorem connReadLoop_serialize_iff_witness :
    ((connReadLoop ([Message.have 7, .request 1 2 3].flatMap Message.serialize)).items =
        [.have 7, .request 1 2 3] ∧
      (connReadLoop ([Message.have 7, .request 1 2 3].flatMap Message.serialize)).unread = []) ↔
    ∀ m ∈ [Message.have 7, .request 1 2 3], m.isPiece = false :=
  connReadLoop_serialize_iff [.have 7, .request 1 2 3] (by decide)

/-- A `Piece` with four bytes of data comes back as a `Request` for 16909060 bytes. -/
theorem connReadLoop_piece_becomes_request :
    (connReadLoop ([Message.piece 0 0 [1, 2, 3, 4]].flatMap Message.serialize)).items =
      [.request 0 0 16909060] ∧
    ¬ ((connReadLoop ([Message.piece 0 0 [1, 2, 3, 4]].flatMap Message.serialize)).items =
        [Message.piece 0 0 [1, 2, 3, 4]] ∧
      (connReadLoop ([Message.piece 0 0 [1, 2, 3, 4]].flatMap Message.serialize)).unread = []) := by
  decide +kernel

end TorrentClient
