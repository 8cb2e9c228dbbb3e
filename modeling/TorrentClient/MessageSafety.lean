import TorrentClient.ConnectionSteps
import TorrentClient.DownloadEvents
import TorrentClient.FailureSpecs

/-!
# Messages that a connection can handle

A handler of a connection indexes with the fields of a message and multiplies the indices of
the blocks that the download reports. For a message that fits the torrent it ends without a
panic, whatever the other tasks answer.
-/
namespace TorrentClient
open EffectPrograms TransitionRuns ListRanges
open EffectPrograms.Program (everyReply everyReply_mono)

namespace Download

variable {sha1 : Bytes → Sha1} {d₀ d : Download}

/-- The blocks of a piece are those that the download reports in some state it reaches. -/
def Answers (sha1 : Bytes → Sha1) (d₀ : Download) : (e : Call) → e.Reply → Prop
  | .requireIncompleteBlocks pieceIndex, some blocks =>
    ∃ d, Reachable (eventStep sha1) d₀ d ∧ d.reportedBlocks pieceIndex = .ok blocks
  | _, _ => True

/-- The offset of a reported block is a number of 32 bits. -/
def FitsOffset (blockIndex : UInt32) : Prop := blockIndex.toNat * blockSize < 2 ^ 32

theorem reportedBlocks_fit (hd : d.WellFormed) {p : UInt32} {blocks : List (UInt32 × UInt32)}
    (h : d.reportedBlocks p = .ok blocks) : ∀ block ∈ blocks, FitsOffset block.1 := by
  obtain ⟨piece, hpiece, h⟩ := bind_eq_ok.mp h
  have hshape := hd.shape _ piece (index_eq_ok.mp hpiece)
  cases h
  intro block hblock
  split_ifs at hblock
  · cases hblock
  · obtain ⟨b, hb, rfl⟩ := List.mem_map.mp hblock
    obtain ⟨j, hj⟩ := List.getElem?_of_mem (List.mem_of_mem_filter hb)
    obtain ⟨hlt, hindex, -⟩ := hshape.getElem?_block hj
    have hspan := Piece.lt_numBlocks_iff.mp hlt
    have hle := piece.length.toNat_lt
    have hmod : (UInt32.ofNat j).toNat ≤ j := by
      rw [UInt32.toNat_ofNat']
      exact Nat.mod_le _ _
    rw [FitsOffset, hindex]
    exact Nat.lt_of_le_of_lt (Nat.mul_le_mul_right blockSize hmod) (Nat.lt_trans hspan hle)

end Download

namespace PeerConnection
open Task

variable {sha1 : Bytes → Sha1} {d₀ : Download} {n : ℕ} {s t : PeerConnection}

/-- The peer's pieces are those of the torrent, and every block to request has an offset. -/
structure Bounded (n : ℕ) (conn : PeerConnection) : Prop where
  length_eq : conn.he.hasPieces.length = n
  fits : ∀ key entry, conn.toRequest.lookup key = some entry → Download.FitsOffset entry.2.1

/-- The handler meets the postcondition where it succeeds, and fails only as it may. -/
def Safe (sha1 : Bytes → Sha1) (d₀ : Download) (mayFail : Fault String → Prop) {α : Type}
    (x : Handler α) (post : α → PeerConnection → Prop) (s : PeerConnection) : Prop :=
  wpFail (everyReply (Download.Answers sha1 d₀)) x post mayFail s

variable {mayFail : Fault String → Prop}

theorem Safe.mono {α : Type} {x : Handler α} {post post' : α → PeerConnection → Prop}
    (hx : Safe sha1 d₀ mayFail x post s) (h : ∀ a t, post a t → post' a t) : Safe sha1 d₀ mayFail x post' s :=
  wpFail_mono everyReply_mono hx h fun _ => id

/-- A handler fails only as it may, and leaves a connection with the pieces of the torrent. -/
def KeepsBounded (sha1 : Bytes → Sha1) (d₀ : Download) (mayFail : Fault String → Prop) (n : ℕ)
    (x : Handler Unit) : Prop :=
  ∀ s, Bounded n s → Safe sha1 d₀ mayFail x (fun _ t => Bounded n t) s

theorem KeepsBounded.bind {x y : Handler Unit} (hx : KeepsBounded sha1 d₀ mayFail n x)
    (hy : KeepsBounded sha1 d₀ mayFail n y) : KeepsBounded sha1 d₀ mayFail n (x >>= fun _ => y) := by
  intro s hs
  rw [Safe, wpFail_bind]
  apply (hx s hs).mono
  intro _ t ht
  exact hy t ht

theorem Bounded.congr (h : Bounded n s) (htoRequest : t.toRequest = s.toRequest)
    (hpieces : t.he.hasPieces = s.he.hasPieces) : Bounded n t := by
  obtain ⟨hlength, hfits⟩ := h
  constructor
  · rw [hpieces]
    exact hlength
  · rw [htoRequest]
    exact hfits

theorem Bounded.erase (h : Bounded n s) (target : UInt32 × UInt32) (me : PeerMetadata) :
    Bounded n { s with toRequest := s.toRequest.erase target, me } := by
  refine ⟨h.length_eq, fun key entry hentry => ?_⟩
  by_cases hkey : key = target
  · subst hkey
    rw [AList.lookup_erase] at hentry
    cases hentry
  · rw [AList.lookup_erase_ne hkey] at hentry
    exact h.fits key entry hentry

theorem Bounded.queueBlock (h : Bounded n s) (q : UInt32) {block : UInt32 × UInt32}
    (hblock : Download.FitsOffset block.1) : Bounded n (queueBlock q s block) := by
  rw [PeerConnection.queueBlock]
  split_ifs
  · exact h
  · refine ⟨h.length_eq, fun key entry hentry => ?_⟩
    by_cases hkey : key = (q, block.1)
    · subst hkey
      rw [AList.lookup_insert] at hentry
      cases hentry
      exact hblock
    · rw [AList.lookup_insert_ne hkey] at hentry
      exact h.fits key entry hentry

theorem Bounded.queueBlocks (h : Bounded n s) (q : UInt32) {blocks : List (UInt32 × UInt32)}
    (hblocks : ∀ block ∈ blocks, Download.FitsOffset block.1) :
    Bounded n (blocks.foldl (PeerConnection.queueBlock q) s) := by
  induction blocks generalizing s with
  | nil => exact h
  | cons block blocks ih =>
    obtain ⟨hblock, hblocks⟩ := List.forall_mem_cons.mp hblocks
    exact ih (h.queueBlock q hblock) hblocks

theorem assignPiece_ok {pieces : List Bool} {i : ℕ} (h : i < pieces.length) (value : Bool) :
    assignPiece pieces i value = .ok (pieces.set i value) := if_pos h

theorem Bounded.assign (h : Bounded n s) (i : ℕ) (value : Bool) :
    Bounded n { s with he := { s.he with hasPieces := s.he.hasPieces.set i value } } :=
  ⟨List.length_set.trans h.length_eq, h.fits⟩

section Handlers

variable (herr : ∀ e, mayFail (.err e))
include herr

theorem sendMessage_safe {m : Message} {post : Unit → PeerConnection → Prop} (h : post () s) :
    Safe sha1 d₀ mayFail (sendMessage m) post s := by
  intro sent _
  cases sent with
  | true => exact h
  | false => exact herr _

theorem sendDownload_safe {m : Message} {post : Unit → PeerConnection → Prop} (h : post () s) :
    Safe sha1 d₀ mayFail (sendDownload m) post s := by
  intro sent _
  cases sent with
  | true => exact h
  | false => exact herr _

theorem requireData_safe {r : RequestMetadata} {post : Bytes → PeerConnection → Prop}
    (h : ∀ data, post data s) : Safe sha1 d₀ mayFail (requireData r) post s := by
  intro answer _
  cases answer with
  | some data => exact h data
  | none => exact herr _

theorem requireIncompleteBlocks_safe {p : UInt32}
    {post : List (UInt32 × UInt32) → PeerConnection → Prop}
    (hd₀ : ∀ d, Reachable (Download.eventStep sha1) d₀ d → d.WellFormed)
    (h : ∀ blocks, (∀ block ∈ blocks, Download.FitsOffset block.1) → post blocks s) :
    Safe sha1 d₀ mayFail (requireIncompleteBlocks p) post s := by
  intro answer hanswer
  cases answer with
  | some blocks =>
    obtain ⟨d, hd, hblocks⟩ := hanswer
    exact h blocks (Download.reportedBlocks_fit (hd₀ d hd) hblocks)
  | none => exact herr _

theorem sendMessage_bounded (m : Message) : KeepsBounded sha1 d₀ mayFail n (sendMessage m) :=
  fun _ hs => sendMessage_safe herr hs

theorem requestLoop_bounded (fuel : ℕ) : KeepsBounded sha1 d₀ mayFail n (requestLoop fuel) := by
  induction fuel with
  | zero => exact fun s hs => hs
  | succ fuel ih =>
    intro s hs
    rw [requestLoop, Safe, wpFail_bind, wpFail_get, wpFail_ite]
    split_ifs
    · cases hkeys : s.toRequest.keys with
      | nil => exact hs
      | cons key keys =>
        simp only [wpFail_bind, wpFail_perform]
        intro i _
        have hmem : (key :: keys).get i ∈ s.toRequest := by
          rw [AList.mem_keys, hkeys]
          exact List.get_mem (key :: keys) i
        obtain ⟨entry, hentry⟩ := Option.isSome_iff_exists.mp (AList.lookup_isSome.mpr hmem)
        have hoffset := hs.fits _ _ hentry
        rw [hentry]
        simp only [wpFail_lift_ok, wpFail_modify, wpFail_bind, wpFail_runIf,
          checkedMul32_of_lt hoffset]
        split_ifs
        · apply sendMessage_safe herr
          exact ih _ (hs.erase _ _)
        · exact ih _ (hs.erase _ _)
    · exact hs

theorem requestMoreBlocks_bounded : KeepsBounded sha1 d₀ mayFail n requestMoreBlocks := by
  intro s hs
  rw [requestMoreBlocks, Safe, wpFail_bind, wpFail_get, wpFail_ite]
  split_ifs
  · exact hs
  · exact requestLoop_bounded herr _ s hs

theorem updateMyInterestedStatus_bounded :
    KeepsBounded sha1 d₀ mayFail n updateMyInterestedStatus := by
  intro s hs
  rw [updateMyInterestedStatus]
  simp only [Safe, wpFail_bind, wpFail_get, wpFail_ite, wpFail_modify, wpFail_pure]
  split_ifs
  · exact sendMessage_safe herr (hs.congr rfl rfl)
  · exact sendMessage_safe herr (hs.congr rfl rfl)
  · exact hs

theorem update_and_request_bounded :
    KeepsBounded sha1 d₀ mayFail n (do updateMyInterestedStatus; requestMoreBlocks) :=
  (updateMyInterestedStatus_bounded herr).bind (requestMoreBlocks_bounded herr)

theorem uploadNextBlock_bounded : KeepsBounded sha1 d₀ mayFail n uploadNextBlock := by
  intro s hs
  rw [uploadNextBlock]
  simp only [Safe, wpFail_bind, wpFail_get, wpFail_ite, wpFail_modify, wpFail_pure]
  split_ifs
  · exact hs
  · cases s.he.requests.pop.1 with
    | none => exact hs.congr rfl rfl
    | some r =>
      rw [wpFail_bind]
      refine requireData_safe herr fun data => ?_
      exact sendMessage_safe herr (hs.congr rfl rfl)

end Handlers

section Answered

variable (herr : ∀ e, mayFail (.err e))
  (hd₀ : ∀ d, Reachable (Download.eventStep sha1) d₀ d → d.WellFormed)
include herr hd₀

theorem queueBlocks_bounded (q : UInt32) : KeepsBounded sha1 d₀ mayFail n (queueBlocks q) := by
  intro s hs
  rw [queueBlocks, Safe, wpFail_bind]
  exact requireIncompleteBlocks_safe herr hd₀ fun blocks hblocks => hs.queueBlocks q hblocks

/-- The loop panics where the bytes end before the pieces do. -/
theorem bitfieldLoop_bounded {bytes : Bytes}
    (hbytes : mayFail .panic ∨ (n + 7) / 8 ≤ bytes.length) {indices : List ℕ}
    (hindices : ∀ i ∈ indices, i < n) :
    KeepsBounded sha1 d₀ mayFail n (bitfieldLoop bytes indices) := by
  induction indices with
  | nil => exact fun s hs => hs
  | cons haveIndex rest ih =>
    obtain ⟨hlt, hrest⟩ := List.forall_mem_cons.mp hindices
    intro s hs
    have hpiece : haveIndex < s.he.hasPieces.length := by
      rw [hs.length_eq]
      exact hlt
    rw [bitfieldLoop, Safe, wpFail_bind]
    cases hbyte : bytes[haveIndex / 8]? with
    | none =>
      rw [index_of_le (List.getElem?_eq_none_iff.mp hbyte), wpFail_lift_error]
      refine hbytes.resolve_right fun hlong => ?_
      have hshort := List.getElem?_eq_none_iff.mp hbyte
      omega
    | some byte =>
      simp only [wpFail_bind, wpFail_get, index_of_getElem? hbyte, wpFail_lift_ok,
        assignPiece_ok hpiece, wpFail_modify, wpFail_runIf]
      split_ifs
      · rw [← wpFail_bind]
        exact (queueBlocks_bounded herr hd₀ _).bind (ih hrest) _ (hs.assign haveIndex _)
      · exact ih hrest _ (hs.assign haveIndex _)

/-- A message whose fields are in range. -/
def FitsMessage (n : ℕ) : Message → Prop
  | .have haveIndex => haveIndex.toNat < n
  | .bitfield bytes => (n + 7) / 8 ≤ bytes.length
  | _ => True

theorem processMessage_bounded {m : Message} (hm : mayFail .panic ∨ FitsMessage n m) :
    KeepsBounded sha1 d₀ mayFail n (processMessage m) := by
  have hupdate : KeepsBounded sha1 d₀ mayFail n (do updateMyInterestedStatus; requestMoreBlocks) :=
    update_and_request_bounded herr
  intro s hs
  cases m with
  | keepAlive => exact hs
  | choke => exact hs.congr rfl rfl
  | unChoke =>
    rw [processMessage, Safe, wpFail_bind, wpFail_get, wpFail_ite]
    split_ifs
    · rw [wpFail_bind, wpFail_modify]
      exact requestMoreBlocks_bounded herr _ (hs.congr rfl rfl)
    · exact hs
  | interested =>
    rw [processMessage, Safe, wpFail_bind, wpFail_modify, wpFail_bind, wpFail_get, wpFail_ite]
    split_ifs
    · rw [wpFail_bind, wpFail_modify, wpFail_bind]
      exact sendMessage_safe herr (uploadNextBlock_bounded herr _ (hs.congr rfl rfl))
    · exact hs.congr rfl rfl
  | notInterested => exact hs.congr rfl rfl
  | «have» haveIndex =>
    rw [processMessage, Safe, wpFail_bind, wpFail_get, wpFail_bind]
    by_cases hlt : haveIndex.toNat < s.he.hasPieces.length
    · rw [assignPiece_ok hlt, wpFail_lift_ok, wpFail_bind, wpFail_modify]
      exact (queueBlocks_bounded herr hd₀ _).bind hupdate _ (hs.assign _ true)
    · rw [assignPiece, if_neg hlt, wpFail_lift_error]
      refine hm.resolve_right fun hfits => hlt ?_
      rw [hs.length_eq]
      exact hfits
  | bitfield bytes =>
    rw [processMessage, Safe, wpFail_bind, wpFail_get, hs.length_eq]
    have hloop : KeepsBounded sha1 d₀ mayFail n (bitfieldLoop bytes (List.range n)) :=
      bitfieldLoop_bounded herr hd₀ hm fun i hi => List.mem_range.mp hi
    exact hloop.bind hupdate s hs
  | request pieceIndex offset length =>
    rw [processMessage, Safe, wpFail_bind, wpFail_modify]
    exact uploadNextBlock_bounded herr _ (hs.congr rfl rfl)
  | piece pieceIndex offset data =>
    rw [processMessage, Safe, wpFail_bind, wpFail_modify, wpFail_bind]
    exact sendDownload_safe herr (hupdate _ (hs.congr rfl rfl))
  | cancel pieceIndex offset length => exact hs.congr rfl rfl
  | port => exact herr _

/-- An event keeps the bounds of the connection where it is handled. -/
theorem handleIpc_bounded (hpanic : mayFail .panic) (ipc : IPC) :
    KeepsBounded sha1 d₀ mayFail n (handleIpc ipc) := by
  intro s hs
  cases ipc with
  | message m => exact processMessage_bounded herr hd₀ (Or.inl hpanic) s hs
  | blockCompleted pieceIndex blockIndex =>
    rw [handleIpc, Safe, wpFail_bind, wpFail_modify, wpFail_bind, wpFail_get]
    simp only [wpFail_bind, wpFail_modify]
    have hremoved := hs.erase (pieceIndex, blockIndex)
    cases (s.me.requests.remove pieceIndex blockIndex).1 with
    | none => exact hremoved _
    | some r => exact sendMessage_safe herr (hremoved _)
  | pieceCompleted pieceIndex =>
    rw [handleIpc, Safe, wpFail_bind, wpFail_get, wpFail_bind]
    by_cases hlt : pieceIndex.toNat < s.me.hasPieces.length
    · rw [assignPiece_ok hlt, wpFail_lift_ok, wpFail_bind, wpFail_modify]
      exact (updateMyInterestedStatus_bounded herr).bind (sendMessage_bounded herr _) _
        (hs.congr rfl rfl)
    · rw [assignPiece, if_neg hlt]
      exact hpanic
  | downloadCompleted => exact updateMyInterestedStatus_bounded herr s hs
  | blockUploaded =>
    rw [handleIpc, Safe, wpFail_bind, wpFail_modify]
    exact uploadNextBlock_bounded herr _ (hs.congr rfl rfl)

end Answered

end PeerConnection
end TorrentClient
