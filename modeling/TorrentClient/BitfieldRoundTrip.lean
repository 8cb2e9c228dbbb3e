import TorrentClient.MessageSafety
import TorrentClient.PackedBits
import Mathlib.Data.Nat.Size

/-!
# Pieces sent and received in a `Bitfield`

The bytes of a `Bitfield` are the packed pieces of the connection that sends it, and the one
that receives it unpacks them into the pieces of its peer.
-/
namespace TorrentClient
open EffectPrograms PackedBits
open EffectPrograms.Program (anyReply anyReply_mono)

/-- `n as f64`: of the numbers with 53 significant bits the nearest, or the even one of the
two that are. -/
def asF64 (n : ℕ) : ℕ :=
  let unit := 2 ^ (n.size - 53)
  let below := n / unit
  if unit < 2 * (n % unit) ∨ unit = 2 * (n % unit) ∧ below % 2 = 1 then (below + 1) * unit
  else below * unit

/-- `(n as f64 / 8 as f64).ceil() as usize`; the quotient by a power of two is exact. -/
def bitfieldLength (n : ℕ) : ℕ := (asF64 n + 7) / 8

theorem asF64_of_le {n : ℕ} (h : n ≤ 2 ^ 53) : asF64 n = n := by
  rcases Nat.eq_or_lt_of_le h with rfl | hlt
  · decide +kernel
  · have hsize : n.size - 53 = 0 := Nat.sub_eq_zero_of_le (Nat.size_le.mpr hlt)
    simp only [asF64, hsize, Nat.pow_zero, Nat.div_one, Nat.mod_one, Nat.mul_one, Nat.mul_zero,
      Nat.not_lt_zero, Nat.one_ne_zero, false_and, or_self, if_false]

/-- Up to 2 ^ 53 pieces the number of bytes is exact. -/
theorem bitfieldLength_eq {n : ℕ} (h : n ≤ 2 ^ 53) : bitfieldLength n = (n + 7) / 8 := by
  rw [bitfieldLength, asF64_of_le h]

namespace PeerConnection
open Task

variable {s : PeerConnection}

theorem markPiece_eq {hasPieces : List Bool} {bytes : Bytes} {i : ℕ} (hi : i < hasPieces.length)
    (hbyte : i / 8 < bytes.length) : markPiece hasPieces bytes i =
      .ok (if hasPieces[i]? = some true then setBit bytes i else bytes) := by
  have hget := List.getElem?_eq_getElem hbyte
  simp only [markPiece, index_of_getElem? (List.getElem?_eq_getElem hi), index_of_getElem? hget,
    List.getElem?_eq_getElem hi, Option.some.injEq, setBit]
  cases hasPieces[i] with
  | true => simp [List.modify_eq_set_getElem?, hget, mask]
  | false => rfl

theorem foldlM_markPiece {hasPieces : List Bool} {bytes : Bytes} {indices : List ℕ}
    (hindices : ∀ i ∈ indices, i < hasPieces.length ∧ i / 8 < bytes.length) :
    indices.foldlM (markPiece hasPieces) bytes = .ok (packFrom hasPieces bytes indices) := by
  induction indices generalizing bytes with
  | nil => rfl
  | cons i indices ih =>
    obtain ⟨⟨hi, hbyte⟩, hrest⟩ := List.forall_mem_cons.mp hindices
    rw [List.foldlM_cons, markPiece_eq hi hbyte]
    refine ih fun j hj => ⟨(hrest j hj).1, ?_⟩
    split_ifs
    · rw [length_setBit]
      exact (hrest j hj).2
    · exact (hrest j hj).2

/-- The bytes of a `Bitfield` are the packed pieces. -/
theorem bitfieldBytes_eq (hasPieces : List Bool) : bitfieldBytes hasPieces = .ok (pack hasPieces) := by
  apply foldlM_markPiece
  intro i hi
  have hlt := List.mem_range.mp hi
  rw [List.length_replicate]
  exact ⟨hlt, by omega⟩

theorem sendBitfield_eq (s : PeerConnection) :
    sendBitfield s = sendMessage (.bitfield (pack s.me.hasPieces)) s := by
  change (lift (bitfieldBytes s.me.hasPieces) >>= fun bytes => sendMessage (.bitfield bytes)) s = _
  rw [bitfieldBytes_eq]
  rfl

/-- The download task is gone before it answers. -/
def AnswerCanceled (e : Fault String) : Prop := e = .err "oneshot canceled"

theorem wpFail_queueBlocks {p : UInt32} {post : Unit → PeerConnection → Prop}
    (h : ∀ t : PeerConnection, t.he = s.he → post () t) :
    wpFail anyReply (queueBlocks p) post AnswerCanceled s := by
  intro answer
  cases answer with
  | some blocks => exact h _ (queueBlock_foldl_frame p blocks s).1
  | none => rfl

/-- The loop reads the bits of the bytes into the pieces of the peer. -/
theorem bitfieldLoop_unpacks {bytes : Bytes} {indices : List ℕ}
    (hindices : ∀ i ∈ indices, i < s.he.hasPieces.length ∧ i / 8 < bytes.length) :
    wpFail anyReply (bitfieldLoop bytes indices)
      (fun _ t => t.he.hasPieces = unpackInto bytes s.he.hasPieces indices) AnswerCanceled s := by
  induction indices generalizing s with
  | nil => exact rfl
  | cons i indices ih =>
    obtain ⟨⟨hi, hbyte⟩, hrest⟩ := List.forall_mem_cons.mp hindices
    have hget := List.getElem?_eq_getElem hbyte
    have hvalue : bitfieldBit bytes[i / 8] i = bit bytes i := by
      rw [bit_of_getElem? hget, ← and_mask_ne_zero]
      rfl
    have hnext (t : PeerConnection)
        (ht : t.he = { s.he with hasPieces := s.he.hasPieces.set i (bit bytes i) }) :
        wpFail anyReply (bitfieldLoop bytes indices)
          (fun _ u => u.he.hasPieces = unpackInto bytes s.he.hasPieces (i :: indices))
          AnswerCanceled t := by
      have hpieces : t.he.hasPieces = s.he.hasPieces.set i (bit bytes i) := by rw [ht]
      rw [unpackInto, List.foldl_cons, ← unpackInto, ← hpieces]
      apply ih
      intro j hj
      rw [hpieces, List.length_set]
      exact hrest j hj
    rw [bitfieldLoop]
    simp only [wpFail_bind, wpFail_get, index_of_getElem? hget, wpFail_lift_ok, assignPiece_ok hi,
      wpFail_modify, wpFail_runIf, hvalue]
    split_ifs
    · exact wpFail_queueBlocks fun t ht => hnext t ht
    · exact hnext _ rfl

theorem bitfieldLoop_reads_pack {hasPieces : List Bool}
    (hs : s.he.hasPieces.length = hasPieces.length) :
    wpFail anyReply (bitfieldLoop (pack hasPieces) (List.range s.he.hasPieces.length))
      (fun _ t => t.he.hasPieces = hasPieces) AnswerCanceled s := by
  have hindices : ∀ i ∈ List.range s.he.hasPieces.length,
      i < s.he.hasPieces.length ∧ i / 8 < (pack hasPieces).length := by
    intro i hi
    have hlt := List.mem_range.mp hi
    rw [length_pack]
    exact ⟨hlt, by omega⟩
  have hloop := bitfieldLoop_unpacks hindices
  rwa [unpackInto_pack hs] at hloop

theorem wp_bitfield_pack {hasPieces : List Bool} (hs : s.he.hasPieces.length = hasPieces.length) :
    wp anyReply (processMessage (.bitfield (pack hasPieces)))
      (fun _ t => t.he.hasPieces = hasPieces) s := by
  rw [processMessage, wp_bind, wp_get, wp_bind]
  apply wp_mono anyReply_mono (wp_of_wpFail anyReply_mono (bitfieldLoop_reads_pack hs))
  rintro _ t rfl
  apply wp_mono anyReply_mono (update_and_request_samePeer t)
  intro _ u hu
  rw [hu.he]

/-- The bytes that a connection sends for its pieces have a bit for each of them and no other
one set. One that receives them, whatever it held before, is left with the same pieces of
its peer, unless it ends because the download task is gone. -/
theorem bitfield_round_trip (hasPieces : List Bool) :
    ∃ bytes, bitfieldBytes hasPieces = .ok bytes ∧
      bytes.length = (hasPieces.length + 7) / 8 ∧
      (hasPieces.length ≤ 2 ^ 53 → bytes.length = bitfieldLength hasPieces.length) ∧
      (∀ i, hasPieces.length ≤ i → bit bytes i = false) ∧
      (∀ s : PeerConnection, s.me.hasPieces = hasPieces →
        sendBitfield s = sendMessage (.bitfield bytes) s) ∧
      ∀ s : PeerConnection, s.he.hasPieces.length = hasPieces.length →
        wpFail anyReply (bitfieldLoop bytes (List.range s.he.hasPieces.length))
          (fun _ t => t.he.hasPieces = hasPieces) AnswerCanceled s ∧
        ∀ calls t, Finishes (processMessage (.bitfield bytes)) s calls () t →
          t.he.hasPieces = hasPieces := by
  refine ⟨pack hasPieces, bitfieldBytes_eq hasPieces, length_pack hasPieces, fun h => ?_,
    fun i => bit_pack_of_le, ?_, ?_⟩
  · rw [bitfieldLength_eq h, length_pack]
  · rintro s rfl
    exact sendBitfield_eq s
  · intro s hs
    exact ⟨bitfieldLoop_reads_pack hs, fun calls t hfinishes => hfinishes.post (wp_bitfield_pack hs)⟩

end PeerConnection
end TorrentClient
