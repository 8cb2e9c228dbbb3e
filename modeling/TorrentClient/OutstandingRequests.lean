import TorrentClient.BlockRequests
import TorrentClient.ConnectionCalls
import TorrentClient.PieceTiling

/-!
# Outstanding requests

A block waits in the map or is requested in the queue, and not both. The messages that a
connection sends and the events that it takes determine its queue: `requestMonitor` follows
the queue through the sends of a handler, and allows a `Request` only for a block that is
not in it.
-/
namespace TorrentClient
open EffectPrograms

namespace RequestQueue

/-- The blocks that are requested. -/
def keys (q : RequestQueue) : List (UInt32 × UInt32) :=
  q.requests.map fun r => (r.pieceIndex, r.blockIndex)

/-- A request is sent for a block that is not in the queue. -/
def admits (q : RequestQueue) : Message → Prop
  | .request pieceIndex offset _ => q.has pieceIndex (blockIndexOf offset) = false
  | _ => True

/-- The queue after a message was sent. -/
def afterSend (q : RequestQueue) : Message → RequestQueue
  | .request pieceIndex offset length =>
    (q.add pieceIndex (blockIndexOf offset) offset length).2
  | _ => q

/-- The queue after an event was taken. -/
def afterEvent (q : RequestQueue) : IPC → RequestQueue
  | .message (.piece pieceIndex offset _) => (q.remove pieceIndex (blockIndexOf offset)).2
  | .blockCompleted pieceIndex blockIndex => (q.remove pieceIndex blockIndex).2
  | _ => q

variable {q : RequestQueue} {p b p' b' offset blockLength : UInt32}

theorem has_iff_mem_keys : q.has p b = true ↔ (p, b) ∈ q.keys := by
  rw [has_iff, keys, List.mem_map]
  simp only [RequestMetadata.matchesBlock_iff, Prod.mk.injEq]

theorem not_has_iff : q.has p b = false ↔ (p, b) ∉ q.keys := by
  rw [← has_iff_mem_keys, Bool.not_eq_true]

theorem keys_add_of_not_has (h : q.has p b = false) :
    (q.add p b offset blockLength).2.keys = q.keys ++ [(p, b)] := by
  simp [add_of_not_has h, keys]

theorem nodup_add (h : q.keys.Nodup) (p b offset blockLength : UInt32) :
    (q.add p b offset blockLength).2.keys.Nodup := by
  cases hhas : q.has p b with
  | true =>
    rw [add_of_has hhas]
    exact h
  | false =>
    rw [keys_add_of_not_has hhas]
    exact List.nodup_append_comm.mp (List.nodup_cons.mpr ⟨not_has_iff.mp hhas, h⟩)

theorem keys_remove_sublist (q : RequestQueue) (p b : UInt32) :
    (q.remove p b).2.keys.Sublist q.keys := by
  cases hhas : q.has p b with
  | true =>
    obtain ⟨before, r, after, hq, -, hremove⟩ := remove_of_has hhas
    rw [hremove, keys, keys, hq]
    exact ((List.sublist_cons_self r after).append_left before).map _
  | false => rw [remove_of_not_has hhas]

end RequestQueue

/-- Follows the queue of a connection through its sends. -/
def requestMonitor : Monitor Call Call.Reply RequestQueue where
  allows
    | .send m, q => q.admits m
    | _, _ => True
  after
    | .send m, _, q => q.afterSend m
    | _, _, q => q

theorem requestMonitor_ignores {e : Call} (h : ¬ e.IsRequest) (q : RequestQueue) :
    requestMonitor.Ignores q e := by
  cases e with
  | send m =>
    cases m with
    | request => exact absurd trivial h
    | _ => exact ⟨trivial, fun _ => rfl⟩
  | _ => exact ⟨trivial, fun _ => rfl⟩

namespace PeerConnection
open Task

variable {s t : PeerConnection}

/-- No block is asked for twice: the queue holds no block twice nor too many of them, and
none that waits in the map. -/
structure RequestsApart (conn : PeerConnection) : Prop where
  keys : conn.KeysMatch
  nodup : conn.me.requests.keys.Nodup
  len_le : conn.me.requests.len ≤ maxConcurrentRequests
  disjoint : ∀ key ∈ conn.toRequest, key ∉ conn.me.requests.keys

theorem new_requestsApart (havePieces : List Bool) : RequestsApart (new havePieces) := by
  refine ⟨?_, List.nodup_nil, Nat.zero_le _, ?_⟩
  · intro key entry h
    cases h
  · intro key hkey
    exact absurd hkey (AList.notMem_empty key)

theorem RequestsApart.congr (h : RequestsApart s) (htoRequest : t.toRequest = s.toRequest)
    (hrequests : t.me.requests = s.me.requests) : RequestsApart t := by
  obtain ⟨hkeys, hnodup, hlen, hdisjoint⟩ := h
  constructor
  · rw [KeysMatch, htoRequest]
    exact hkeys
  · rw [hrequests]
    exact hnodup
  · rw [hrequests]
    exact hlen
  · rw [htoRequest, hrequests]
    exact hdisjoint

theorem RequestsApart.erase (h : RequestsApart s) (target : UInt32 × UInt32) :
    RequestsApart { s with toRequest := s.toRequest.erase target } :=
  ⟨h.keys.erase target, h.nodup, h.len_le,
    fun key hkey => h.disjoint key (AList.mem_erase.mp hkey).2⟩

theorem RequestsApart.remove (h : RequestsApart s) (p b : UInt32) :
    RequestsApart { s with me := { s.me with requests := (s.me.requests.remove p b).2 } } := by
  have hsub := RequestQueue.keys_remove_sublist s.me.requests p b
  refine ⟨h.keys, h.nodup.sublist hsub, ?_, fun key hkey hmem => ?_⟩
  · exact Nat.le_trans (RequestQueue.len_remove_le _ _ _) h.len_le
  · exact h.disjoint key hkey (hsub.subset hmem)

/-- A block moves from the map into the queue. -/
theorem RequestsApart.request (h : RequestsApart s) {p b : UInt32}
    (hmem : (p, b) ∈ s.toRequest) (hroom : s.me.requests.len < maxConcurrentRequests)
    (offset blockLength : UInt32) :
    RequestsApart { s with
      toRequest := s.toRequest.erase (p, b)
      me := { s.me with requests := (s.me.requests.add p b offset blockLength).2 } } := by
  have hnot := RequestQueue.not_has_iff.mpr (h.disjoint _ hmem)
  refine ⟨h.keys.erase (p, b), RequestQueue.nodup_add h.nodup _ _ _ _, ?_, fun key hkey hin => ?_⟩
  · exact Nat.le_trans (RequestQueue.len_add_le _ _ _ _ _) hroom
  · obtain ⟨hne, hkey⟩ := AList.mem_erase.mp hkey
    rw [RequestQueue.keys_add_of_not_has hnot] at hin
    rcases List.mem_append.mp hin with hin | hin
    · exact h.disjoint key hkey hin
    · exact hne (List.mem_singleton.mp hin)

/-- Blocks of a piece are queued where they are not requested. -/
theorem RequestsApart.queueBlock (h : RequestsApart s) (q : UInt32) (block : UInt32 × UInt32) :
    RequestsApart (queueBlock q s block) ∧
      (PeerConnection.queueBlock q s block).me = s.me := by
  have hkeys := h.keys.queueBlock q block
  rw [PeerConnection.queueBlock] at hkeys ⊢
  split_ifs at hkeys ⊢ with hhas
  · exact ⟨h, rfl⟩
  · refine ⟨⟨hkeys, h.nodup, h.len_le, fun key hkey => ?_⟩, rfl⟩
    rcases (AList.mem_insert _).mp hkey with rfl | hkey
    · exact RequestQueue.not_has_iff.mp (Bool.eq_false_iff.mpr hhas)
    · exact h.disjoint key hkey

theorem RequestsApart.queueBlocks (h : RequestsApart s) (q : UInt32)
    (blocks : List (UInt32 × UInt32)) :
    RequestsApart (blocks.foldl (PeerConnection.queueBlock q) s) ∧
      (blocks.foldl (PeerConnection.queueBlock q) s).me = s.me := by
  induction blocks generalizing s with
  | nil => exact ⟨h, rfl⟩
  | cons block blocks ih =>
    obtain ⟨hblock, hme⟩ := h.queueBlock q block
    obtain ⟨hblocks, hmes⟩ := ih hblock
    exact ⟨hblocks, hmes.trans hme⟩

/-- A handler keeps the requests apart and sends those that it adds to the queue. -/
def KeepsApart (x : Handler Unit) : Prop :=
  ∀ s, RequestsApart s → monitored requestMonitor x
    (fun _ t q => RequestsApart t ∧ t.me.requests = q) s s.me.requests

theorem KeepsApart.bind {x y : Handler Unit} (hx : KeepsApart x) (hy : KeepsApart y) :
    KeepsApart (x >>= fun _ => y) := by
  intro s hs
  rw [monitored_bind]
  apply monitored_mono (hx s hs)
  rintro _ t q ⟨ht, rfl⟩
  exact hy t ht

theorem sendMessage_apart {m : Message} (hadmits : ∀ q : RequestQueue, q.admits m)
    (hsend : ∀ q : RequestQueue, q.afterSend m = q) : KeepsApart (sendMessage m) :=
  fun _ hs => monitored_sendMessage (hadmits _) ⟨hs, (hsend _).symm⟩

theorem sendRequest {post : Unit → PeerConnection → RequestQueue → Prop} {p b : UInt32}
    {offset : ℕ} {length : UInt32} {q : RequestQueue}
    (hoffset : checkedMul32 b.toNat blockSize = (.ok offset : Outcome ℕ))
    (hnot : q.has p b = false)
    (h : post () s (q.add p b (UInt32.ofNat offset) length).2) :
    monitored requestMonitor (sendMessage (.request p (UInt32.ofNat offset) length)) post s q := by
  rw [checkedMul32] at hoffset
  split at hoffset
  · rename_i hlt
    cases hoffset
    have hindex := blockIndexOf_mul hlt
    refine monitored_sendMessage (M := requestMonitor) ?_ ?_
    · change q.has p (blockIndexOf _) = false
      rw [hindex]
      exact hnot
    · change post () s (q.add p (blockIndexOf _) _ length).2
      rw [hindex]
      exact h
  · cases hoffset

theorem requestLoop_apart (fuel : ℕ) : KeepsApart (requestLoop fuel) := by
  induction fuel with
  | zero => exact fun s hs => ⟨hs, rfl⟩
  | succ fuel ih =>
    intro s hs
    rw [requestLoop, monitored_bind, monitored_get, monitored_ite]
    split_ifs with hroom
    · cases hkeys : s.toRequest.keys with
      | nil => exact ⟨hs, rfl⟩
      | cons key keys =>
        simp only [monitored_bind, monitored_perform, monitored_lift, monitored_modify,
          monitored_runIf]
        refine ⟨trivial, fun i entry hentry offset hoffset => ?_⟩
        have hlookup := eq_some_of_entry hentry
        have hkey := hs.keys _ _ hlookup
        have hmem : (entry.1, entry.2.1) ∈ s.toRequest := by
          rw [hkey]
          exact AList.lookup_isSome.mp (Option.isSome_of_eq_some hlookup)
        have hnot := RequestQueue.not_has_iff.mpr (hs.disjoint _ hmem)
        have happart := hs.request hmem hroom (UInt32.ofNat offset) entry.2.2
        rw [hkey] at happart
        rw [RequestQueue.add_of_not_has hnot] at happart ⊢
        rw [if_pos rfl]
        apply sendRequest hoffset hnot
        rw [RequestQueue.add_of_not_has hnot]
        exact ih _ happart
    · exact ⟨hs, rfl⟩

theorem requestMoreBlocks_apart : KeepsApart requestMoreBlocks := by
  intro s hs
  rw [requestMoreBlocks, monitored_bind, monitored_get, monitored_ite]
  split_ifs
  · exact ⟨hs, rfl⟩
  · exact requestLoop_apart _ s hs

theorem updateMyInterestedStatus_apart : KeepsApart updateMyInterestedStatus := by
  intro s hs
  rw [updateMyInterestedStatus]
  simp only [monitored_bind, monitored_get, monitored_ite, monitored_modify, monitored_pure]
  split_ifs
  · exact sendMessage_apart (m := .interested) (fun _ => trivial) (fun _ => rfl) _
      (hs.congr rfl rfl)
  · exact sendMessage_apart (m := .notInterested) (fun _ => trivial) (fun _ => rfl) _
      (hs.congr rfl rfl)
  · exact ⟨hs, trivial⟩

theorem update_and_request_apart :
    KeepsApart (do updateMyInterestedStatus; requestMoreBlocks) :=
  updateMyInterestedStatus_apart.bind requestMoreBlocks_apart

theorem queueBlocks_apart (pieceIndex : UInt32) : KeepsApart (queueBlocks pieceIndex) := by
  intro s hs
  rw [queueBlocks, monitored_bind]
  refine monitored_requireIncompleteBlocks ⟨trivial, fun _ => rfl⟩ fun blocks => ?_
  obtain ⟨hblocks, hme⟩ := hs.queueBlocks pieceIndex blocks
  exact ⟨hblocks, congrArg PeerMetadata.requests hme⟩

theorem bitfieldLoop_apart (bytes : Bytes) (indices : List ℕ) :
    KeepsApart (bitfieldLoop bytes indices) := by
  induction indices with
  | nil => exact fun s hs => ⟨hs, rfl⟩
  | cons haveIndex rest ih =>
    intro s hs
    simp only [bitfieldLoop, monitored_bind, monitored_lift, monitored_get, monitored_modify,
      monitored_runIf]
    intro byte _ hasPieces _
    split_ifs
    · rw [← monitored_bind]
      exact (queueBlocks_apart _).bind ih _ (hs.congr rfl rfl)
    · exact ih _ (hs.congr rfl rfl)

/-- An event of the uploading side changes nothing here. -/
theorem handleIpc_apart_of_upload {ipc : IPC} (h : isUploadEvent ipc = true) :
    KeepsApart (handleIpc ipc) := by
  intro s hs
  have hcalls : only (requestMonitor.Ignores s.me.requests) (handleIpc ipc) :=
    (handleIpc_only_uploads h).mono fun _ he => requestMonitor_ignores he _
  apply monitored_mono (monitored_of_only hcalls (handleIpc_sameRequests h s))
  rintro _ t q ⟨hsame, rfl⟩
  have hrequests := congrArg PeerMetadata.requests hsame.me
  exact ⟨hs.congr hsame.toRequest hrequests, hrequests⟩

/-- An event is handled: the queue takes the event and then the sends of the handler. -/
theorem handleIpc_apart (hs : RequestsApart s) (ipc : IPC) :
    monitored requestMonitor (handleIpc ipc) (fun _ t q => RequestsApart t ∧ t.me.requests = q)
      s (s.me.requests.afterEvent ipc) := by
  cases ipc with
  | message m =>
    cases m with
    | keepAlive => exact ⟨hs, rfl⟩
    | choke => exact ⟨hs.congr rfl rfl, rfl⟩
    | unChoke =>
      rw [handleIpc, processMessage, monitored_bind, monitored_get, monitored_ite]
      split_ifs
      · rw [monitored_bind, monitored_modify]
        exact requestMoreBlocks_apart _ (hs.congr rfl rfl)
      · exact ⟨hs, rfl⟩
    | «have» haveIndex =>
      rw [handleIpc, processMessage, monitored_bind, monitored_get, monitored_bind,
        monitored_lift]
      intro hasPieces _
      rw [monitored_bind, monitored_modify]
      exact (queueBlocks_apart _).bind update_and_request_apart _ (hs.congr rfl rfl)
    | bitfield bytes =>
      exact (bitfieldLoop_apart bytes _).bind update_and_request_apart s hs
    | piece pieceIndex offset data =>
      rw [handleIpc, processMessage, monitored_bind, monitored_modify, monitored_bind]
      refine monitored_sendDownload ⟨trivial, fun _ => rfl⟩ ?_
      exact update_and_request_apart _ (hs.remove pieceIndex (blockIndexOf offset))
    | port => trivial
    | interested => exact handleIpc_apart_of_upload rfl s hs
    | notInterested => exact handleIpc_apart_of_upload rfl s hs
    | request => exact handleIpc_apart_of_upload rfl s hs
    | cancel => exact handleIpc_apart_of_upload rfl s hs
  | blockCompleted pieceIndex blockIndex =>
    have hremoved := (hs.erase (pieceIndex, blockIndex)).remove pieceIndex blockIndex
    rw [handleIpc, monitored_bind, monitored_modify, monitored_bind, monitored_get]
    simp only [monitored_bind, monitored_modify]
    cases (s.me.requests.remove pieceIndex blockIndex).1 with
    | none => exact ⟨hremoved, rfl⟩
    | some r =>
      exact sendMessage_apart (m := .cancel r.pieceIndex r.offset r.blockLength)
        (fun _ => trivial) (fun _ => rfl) _ hremoved
  | pieceCompleted pieceIndex =>
    rw [handleIpc, monitored_bind, monitored_get, monitored_bind, monitored_lift]
    intro hasPieces _
    rw [monitored_bind, monitored_modify]
    have hsend : KeepsApart (sendMessage (.have pieceIndex)) :=
      sendMessage_apart (m := .have pieceIndex) (fun _ => trivial) fun _ => rfl
    exact updateMyInterestedStatus_apart.bind hsend _ (hs.congr rfl rfl)
  | downloadCompleted => exact updateMyInterestedStatus_apart s hs
  | blockUploaded => exact handleIpc_apart_of_upload rfl s hs

end PeerConnection
end TorrentClient
