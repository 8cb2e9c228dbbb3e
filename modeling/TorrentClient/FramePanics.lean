import TorrentClient.MessageSafety
import TorrentClient.PeerMessageStream
import TorrentClient.BlockWrites
import TorrentClient.ReportedBlocks

/-!
# Frames that panic

`Message::new` panics on an unknown tag and on a body that is too short for it, and the
handlers of `Have` and `Bitfield` index with what the peer sent. A frame is free of panics
exactly when it fits the number of pieces of the torrent, whatever the state of the
connection is.
-/
namespace TorrentClient
open EffectPrograms TransitionRuns
open EffectPrograms.Program (everyReply someReply someReply_mono)
open PeerConnection (FitsMessage)

/-- The body behind a known tag is long enough for it, and a piece is one of the torrent. -/
def FitsBody (n id : ℕ) (body : Bytes) : Prop :=
  match id with
  | 4 => ∃ a b c d rest, body = a :: b :: c :: d :: rest ∧
      a.toNat * 2 ^ 24 + b.toNat * 2 ^ 16 + c.toNat * 2 ^ 8 + d.toNat < n
  | 5 => (n + 7) / 8 ≤ body.length
  | 6 => 12 ≤ body.length
  | 7 => 8 ≤ body.length
  | 8 => 12 ≤ body.length
  | _ => id < 10

theorem subslice_or_panic (body : Bytes) (start len : ℕ) :
    (start + len ≤ body.length ∧ ∃ xs, xs.length = len ∧
      (subslice body start (start + len) : Outcome Bytes) = .ok xs) ∨
    (body.length < start + len ∧
      (subslice body start (start + len) : Outcome Bytes) = .error .panic) := by
  rcases Nat.lt_or_ge body.length (start + len) with hlt | hle
  · refine Or.inr ⟨hlt, if_neg fun h => ?_⟩
    exact Nat.not_lt_of_le h.2 hlt
  · refine Or.inl ⟨hle, ListRanges.slice body start len, ?_, subslice_of_le hle⟩
    rw [ListRanges.slice, List.length_take, List.length_drop]
    omega

theorem bytesToU32_of_length {bytes : Bytes} (h : bytes.length = 4) :
    ∃ v, bytesToU32 bytes = .ok v := by
  match bytes, h with
  | [a, b, c, d], _ => exact ⟨_, bytesToU32_cons a b c d []⟩

/-- The number of four bytes of a body. -/
def numberAt (body : Bytes) (start : ℕ) : Outcome UInt32 := do
  bytesToU32 (← subslice body start (start + 4))

theorem numberAt_or_panic (body : Bytes) (start : ℕ) :
    (start + 4 ≤ body.length ∧ ∃ v, numberAt body start = .ok v) ∨
      (body.length < start + 4 ∧ numberAt body start = .error .panic) := by
  rcases subslice_or_panic body start 4 with ⟨hle, xs, hlen, hxs⟩ | ⟨hlt, hpanic⟩
  · obtain ⟨v, hv⟩ := bytesToU32_of_length hlen
    exact Or.inl ⟨hle, v, by rw [numberAt, hxs, ok_bind, hv]⟩
  · exact Or.inr ⟨hlt, by rw [numberAt, hpanic, error_bind]⟩

theorem threeNumbersAt (body : Bytes) (f : UInt32 → UInt32 → UInt32 → Message) :
    (12 ≤ body.length ∧ ∃ a b c, (do
      let a ← numberAt body 0
      let b ← numberAt body 4
      let c ← numberAt body 8
      return f a b c : Outcome Message) = .ok (f a b c)) ∨
    (body.length < 12 ∧ (do
      let a ← numberAt body 0
      let b ← numberAt body 4
      let c ← numberAt body 8
      return f a b c : Outcome Message) = .error .panic) := by
  rcases numberAt_or_panic body 0 with ⟨h0, a, ha⟩ | ⟨h0, ha⟩
  · rw [ha, ok_bind]
    rcases numberAt_or_panic body 4 with ⟨h1, b, hb⟩ | ⟨h1, hb⟩
    · rw [hb, ok_bind]
      rcases numberAt_or_panic body 8 with ⟨h2, c, hc⟩ | ⟨h2, hc⟩
      · rw [hc]
        exact Or.inl ⟨h2, a, b, c, rfl⟩
      · rw [hc]
        exact Or.inr ⟨h2, rfl⟩
    · rw [hb]
      exact Or.inr ⟨by omega, rfl⟩
  · rw [ha]
    exact Or.inr ⟨by omega, rfl⟩

/-- What `Message::new` does with a body, for the bodies that fit the torrent and the others. -/
inductive Decoded (n : ℕ) : Outcome Message → Prop → Prop where
  | fits {m : Message} {fits : Prop} (hm : FitsMessage n m) (h : fits) : Decoded n (.ok m) fits
  | misfit {m : Message} {fits : Prop} (hm : ¬ FitsMessage n m) (h : ¬ fits) :
      Decoded n (.ok m) fits
  | panics {fits : Prop} (h : ¬ fits) : Decoded n (.error .panic) fits

theorem have_decoded (n : ℕ) (body : Bytes) :
    Decoded n (do return .have (← bytesToU32 body)) (FitsBody n 4 body) := by
  match body with
  | a :: b :: c :: d :: rest =>
    have hnumber : (a.toUInt32 * byte0 + b.toUInt32 * byte1 + c.toUInt32 * byte2 +
        d.toUInt32 * byte3).toNat =
          a.toNat * 2 ^ 24 + b.toNat * 2 ^ 16 + c.toNat * 2 ^ 8 + d.toNat := by
      have h0 : byte0.toNat = 16777216 := rfl
      have h1 : byte1.toNat = 65536 := rfl
      have h2 : byte2.toNat = 256 := rfl
      have h3 : byte3.toNat = 1 := rfl
      have ha := a.toNat_lt
      have hb := b.toNat_lt
      have hc := c.toNat_lt
      have hd := d.toNat_lt
      simp only [UInt32.toNat_add, UInt32.toNat_mul, UInt8.toNat_toUInt32, h0, h1, h2, h3]
      omega
    rw [bytesToU32_cons]
    by_cases hlt : a.toNat * 2 ^ 24 + b.toNat * 2 ^ 16 + c.toNat * 2 ^ 8 + d.toNat < n
    · refine .fits ?_ ⟨a, b, c, d, rest, rfl, hlt⟩
      rw [FitsMessage, hnumber]
      exact hlt
    · refine .misfit ?_ ?_
      · rw [FitsMessage, hnumber]
        exact hlt
      · rintro ⟨a', b', c', d', rest', hbody, hlt'⟩
        cases hbody
        exact hlt hlt'
  | [] => exact .panics fun ⟨_, _, _, _, _, hbody, _⟩ => nomatch hbody
  | [a] => exact .panics fun ⟨_, _, _, _, _, hbody, _⟩ => nomatch hbody
  | [a, b] => exact .panics fun ⟨_, _, _, _, _, hbody, _⟩ => nomatch hbody
  | [a, b, c] => exact .panics fun ⟨_, _, _, _, _, hbody, _⟩ => nomatch hbody

theorem threeNumbers_decoded {f : UInt32 → UInt32 → UInt32 → Message} (n : ℕ) (body : Bytes)
    (hf : ∀ a b c, FitsMessage n (f a b c)) : Decoded n (do
      let a ← numberAt body 0
      let b ← numberAt body 4
      let c ← numberAt body 8
      return f a b c) (12 ≤ body.length) := by
  rcases threeNumbersAt body f with ⟨hle, a, b, c, h⟩ | ⟨hlt, h⟩
  · rw [h]
    exact .fits (hf a b c) hle
  · rw [h]
    exact .panics (Nat.not_le_of_lt hlt)

theorem piece_decoded (n : ℕ) (body : Bytes) : Decoded n (do
    let index ← numberAt body 0
    let offset ← numberAt body 4
    let data ← subslice body 8 body.length
    return .piece index offset data) (8 ≤ body.length) := by
  rcases numberAt_or_panic body 0 with ⟨h0, index, hindex⟩ | ⟨h0, hindex⟩
  · rw [hindex, ok_bind]
    rcases numberAt_or_panic body 4 with ⟨h4, offset, hoffset⟩ | ⟨h4, hoffset⟩
    · rw [hoffset, ok_bind, subslice, if_pos ⟨h4, Nat.le_refl _⟩]
      exact .fits trivial h4
    · rw [hoffset]
      exact .panics (Nat.not_le_of_lt h4)
  · rw [hindex]
    exact .panics (by omega)

theorem new_decoded (n : ℕ) (id : UInt8) (body : Bytes) :
    Decoded n (Message.new id body) (FitsBody n id.toNat body) := by
  unfold Message.new
  generalize id.toNat = k
  match k with
  | 0 => exact .fits trivial (by simp [FitsBody])
  | 1 => exact .fits trivial (by simp [FitsBody])
  | 2 => exact .fits trivial (by simp [FitsBody])
  | 3 => exact .fits trivial (by simp [FitsBody])
  | 4 => exact have_decoded n body
  | 5 =>
    by_cases hfits : (n + 7) / 8 ≤ body.length
    · exact .fits hfits hfits
    · exact .misfit hfits hfits
  | 6 => simpa [numberAt, FitsBody] using threeNumbers_decoded n body (f := .request) fun _ _ _ => trivial
  | 7 => simpa [numberAt, FitsBody] using piece_decoded n body
  | 8 => simpa [numberAt, FitsBody] using threeNumbers_decoded n body (f := .cancel) fun _ _ _ => trivial
  | 9 => exact .fits trivial (by simp [FitsBody])
  | k + 10 => exact .panics (by simp [FitsBody])

/-- A frame is empty, or has a tag and a body. -/
def FitsFrame (n : ℕ) : Bytes → Prop
  | [] => True
  | id :: body => FitsBody n id.toNat body

/-- What the read loop makes of a frame behind its length. -/
def readFrame (frame : Bytes) : Outcome Message := do
  let (m, _) ← readMessage (u32ToBytes (UInt32.ofNat frame.length) ++ frame)
  return m

theorem readFrame_decoded (n : ℕ) {frame : Bytes} (hframe : frame.length < 2 ^ 32) :
    Decoded n (readFrame frame) (FitsFrame n frame) := by
  cases frame with
  | nil => exact .fits trivial trivial
  | cons id body =>
    have hread := readMessage_framed id body [] hframe
    rw [List.append_nil] at hread
    have hnew : readFrame (id :: body) = Message.new id body := by
      rw [readFrame, List.length_cons, hread]
      cases Message.new id body <;> rfl
    rw [hnew]
    exact new_decoded n id body

namespace PeerConnection
open Task

variable {sha1 : Bytes → Sha1} {d₀ d : Download} {n : ℕ} {s t : PeerConnection}

/-- An event that is handled, where the download task answers for the blocks. -/
def answeredStep (sha1 : Bytes → Sha1) (d₀ : Download) (conn : PeerConnection) (ipc : IPC)
    (conn' : PeerConnection) : Prop :=
  ∃ calls, Program.Admitted (Download.Answers sha1 d₀) calls ∧
    Finishes (handleIpc ipc) conn calls () conn'

/-- Reading the frame or handling its message can panic. -/
def FramePanics (sha1 : Bytes → Sha1) (d₀ : Download) (conn : PeerConnection) (frame : Bytes) :
    Prop :=
  readFrame frame = .error .panic ∨ ∃ m calls, readFrame frame = .ok m ∧
    Program.Admitted (Download.Answers sha1 d₀) calls ∧
    Program.Returns (processMessage m conn) calls (.error .panic)

/-- Some answers of the download lead the handler into a panic. -/
def Panics (sha1 : Bytes → Sha1) (d₀ : Download) (x : Handler Unit) (s : PeerConnection) : Prop :=
  wpFail (someReply (Download.Answers sha1 d₀)) x (fun _ _ => False) (· = .panic) s

theorem Panics.bind {x y : Handler Unit} (h : Panics sha1 d₀ x s) :
    Panics sha1 d₀ (x >>= fun _ => y) s := by
  rw [Panics, wpFail_bind]
  exact wpFail_mono someReply_mono h (fun _ _ => False.elim) fun _ => id

theorem reportedBlocks_ok (hpieces : d.pieces.length = n) {i : ℕ} (hi : i < n) :
    ∃ blocks, d.reportedBlocks (UInt32.ofNat i) = .ok blocks := by
  have hlt : (UInt32.ofNat i).toNat < d.pieces.length := by
    rw [UInt32.toNat_ofNat', hpieces]
    exact Nat.lt_of_le_of_lt (Nat.mod_le _ _) hi
  rw [Download.reportedBlocks, index_of_getElem? (List.getElem?_eq_getElem hlt)]
  exact ⟨_, rfl⟩

/-- The loop over the pieces runs into the end of the bytes. -/
theorem bitfieldLoop_panics (hd : Reachable (Download.eventStep sha1) d₀ d)
    (hpieces : d.pieces.length = n) {bytes : Bytes} {indices : List ℕ}
    (hindices : ∀ i ∈ indices, i < n) (hshort : ∃ i ∈ indices, bytes.length ≤ i / 8)
    (hs : s.he.hasPieces.length = n) : Panics sha1 d₀ (bitfieldLoop bytes indices) s := by
  induction indices generalizing s with
  | nil =>
    obtain ⟨i, hi, -⟩ := hshort
    cases hi
  | cons haveIndex rest ih =>
    obtain ⟨hlt, hrest⟩ := List.forall_mem_cons.mp hindices
    rw [bitfieldLoop, Panics, wpFail_bind]
    cases hbyte : bytes[haveIndex / 8]? with
    | none =>
      rw [index_of_le (List.getElem?_eq_none_iff.mp hbyte)]
      rfl
    | some byte =>
      have hmore : ∃ i ∈ rest, bytes.length ≤ i / 8 := by
        obtain ⟨i, hi, hle⟩ := hshort
        rcases List.mem_cons.mp hi with rfl | hi
        · rw [List.getElem?_eq_none_iff.mpr hle] at hbyte
          cases hbyte
        · exact ⟨i, hi, hle⟩
      have hpiece : haveIndex < s.he.hasPieces.length := by
        rw [hs]
        exact hlt
      simp only [wpFail_bind, wpFail_get, index_of_getElem? hbyte, wpFail_lift_ok,
        assignPiece_ok hpiece, wpFail_modify, wpFail_runIf]
      split_ifs
      · obtain ⟨blocks, hblocks⟩ := reportedBlocks_ok hpieces hlt
        refine ⟨some blocks, ⟨d, hd, hblocks⟩, ih hrest hmore ?_⟩
        rw [(queueBlock_foldl_frame _ blocks _).1]
        exact List.length_set.trans hs
      · exact ih hrest hmore (List.length_set.trans hs)

theorem processMessage_panics (hd : Reachable (Download.eventStep sha1) d₀ d)
    (hpieces : d.pieces.length = n) (hs : s.he.hasPieces.length = n) {m : Message}
    (hm : ¬ FitsMessage n m) : Panics sha1 d₀ (processMessage m) s := by
  cases m with
  | «have» haveIndex =>
    have hout : ¬ haveIndex.toNat < s.he.hasPieces.length := by
      rw [hs]
      exact hm
    rw [processMessage, Panics, wpFail_bind, wpFail_get, wpFail_bind, assignPiece, if_neg hout]
    rfl
  | bitfield bytes =>
    rw [processMessage, Panics, wpFail_bind, wpFail_get, hs]
    apply Panics.bind
    apply bitfieldLoop_panics hd hpieces (fun i hi => List.mem_range.mp hi) _ hs
    have hlt := Nat.lt_of_not_le hm
    refine ⟨8 * bytes.length, List.mem_range.mpr ?_, ?_⟩
    · omega
    · omega
  | _ => exact absurd trivial hm

theorem new_bounded (havePieces : List Bool) : Bounded havePieces.length (new havePieces) := by
  refine ⟨List.length_replicate, fun key entry h => ?_⟩
  cases h

theorem bounded_of_run (hd₀ : ∀ d, Reachable (Download.eventStep sha1) d₀ d → d.WellFormed)
    {havePieces : List Bool} {trace : List (Step PeerConnection IPC)}
    (run : Run (answeredStep sha1 d₀) (new havePieces) trace s) :
    Bounded havePieces.length s := by
  refine run.invariant (new_bounded havePieces) ?_
  rintro s ipc t hs ⟨calls, hcalls, hfinishes⟩
  have hsafe : Safe sha1 d₀ (fun _ => True) (handleIpc ipc)
      (fun _ t => Bounded havePieces.length t) s :=
    handleIpc_bounded (fun _ => trivial) hd₀ trivial ipc s hs
  exact Program.wp_everyReply_returns hsafe hfinishes hcalls

/-- In every state of a connection, a frame of the peer is free of panics exactly when it
fits the torrent. -/
theorem frame_panics_iff {disk : String → Bytes} {metaInfo : TorrentMetaInfo}
    (hstart : Download.start disk metaInfo = .ok d₀)
    (hd : Reachable (Download.eventStep sha1) d₀ d) {trace : List (Step PeerConnection IPC)}
    (run : Run (answeredStep sha1 d₀) (new d.havePieces) trace s) {frame : Bytes}
    (hframe : frame.length < 2 ^ 32) :
    ¬ FramePanics sha1 d₀ s frame ↔ FitsFrame metaInfo.numPieces frame := by
  have hd₀ (d : Download) (h : Reachable (Download.eventStep sha1) d₀ d) : d.WellFormed :=
    Download.wellFormed_of_reachable hstart h
  have hcontinues : Download.Continues d₀ d :=
    hd.invariant (Download.continues_start hstart) fun _ _ _ h hstep => hstep.continues h
  have hpieces : d.pieces.length = metaInfo.numPieces := by
    obtain ⟨-, hmetaInfo, -⟩ := Download.start_spec hstart
    rw [hcontinues.wellFormed.length_pieces, hcontinues.metaInfo_eq, hmetaInfo]
  have hs : Bounded metaInfo.numPieces s := by
    have hbounded := bounded_of_run hd₀ run
    rw [Download.havePieces, List.length_map, hpieces] at hbounded
    exact hbounded
  have hdecoded := readFrame_decoded metaInfo.numPieces hframe
  rw [FramePanics]
  generalize readFrame frame = result at hdecoded
  cases hdecoded with
  | @fits m _ hm hfits =>
    refine ⟨fun _ => hfits, fun _ hpanics => ?_⟩
    rcases hpanics with hpanic | ⟨_, calls, hread, hcalls, hreturns⟩
    · cases hpanic
    · cases hread
      have herr (e : String) : Fault.err e ≠ Fault.panic := nofun
      have hsafe : Safe sha1 d₀ (· ≠ Fault.panic) (processMessage m)
          (fun _ t => Bounded metaInfo.numPieces t) s :=
        processMessage_bounded herr hd₀ (Or.inr hm) s hs
      exact Program.wp_everyReply_returns hsafe hreturns hcalls rfl
  | misfit hm hfits =>
    refine ⟨fun hsafe => absurd (Or.inr ?_) hsafe, fun h => absurd h hfits⟩
    obtain ⟨calls, result, hreturns, hcalls, hresult⟩ := Program.returns_of_wp_someReply
      (processMessage_panics hd hpieces hs.length_eq hm)
    match result, hresult with
    | .error _, rfl => exact ⟨_, calls, rfl, hcalls, hreturns⟩
  | panics hfits =>
    exact ⟨fun hsafe => absurd (Or.inl rfl) hsafe, fun h => absurd h hfits⟩

/-- A connection for a torrent of two pieces is told of the second one. -/
theorem frame_panics_iff_have :
    ∃ s, answeredStep (fun _ => Sha1.replicate 0) Download.twoPieceDownload
      (new Download.twoPieceDownload.havePieces) (.message .unChoke) s ∧
      (¬ FramePanics (fun _ => Sha1.replicate 0) Download.twoPieceDownload s [4, 0, 0, 0, 1] ↔
        FitsFrame Download.twoPieceTorrent.numPieces [4, 0, 0, 0, 1]) := by
  have hstep : answeredStep (fun _ => Sha1.replicate 0) Download.twoPieceDownload
      (new Download.twoPieceDownload.havePieces) (.message .unChoke) _ := ⟨[], .nil, .done _⟩
  have hlength : ([4, 0, 0, 0, 1] : Bytes).length < 2 ^ 32 := by simp
  exact ⟨_, hstep, frame_panics_iff Download.start_twoPieceTorrent .refl (Run.nil.snoc hstep)
    hlength⟩

/-- The read loop panics on the tag 10, and the handler of `Have` on a piece that the
torrent does not have. -/
theorem unknown_tag_and_piece_panic :
    Download.start (fun _ => []) Download.twoPieceTorrent = .ok Download.twoPieceDownload ∧
    FramePanics (fun _ => Sha1.replicate 0) Download.twoPieceDownload
      (new Download.twoPieceDownload.havePieces) [10] ∧
    FramePanics (fun _ => Sha1.replicate 0) Download.twoPieceDownload
      (new Download.twoPieceDownload.havePieces) [4, 0, 0, 0, 2] :=
  ⟨rfl, Or.inl rfl, Or.inr ⟨.have 2, [], rfl, .nil, .done _⟩⟩

end PeerConnection
end TorrentClient
