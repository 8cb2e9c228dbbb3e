import TorrentClient.MonitoredCalls
import TorrentClient.ConnectionSteps

/-!
# The calls of a connection's handlers

The rules for a monitor on the sends and requests of the handlers, and which messages the
two kinds of events send: only upload events send a `Piece`, and none of them a `Request`.
-/
namespace TorrentClient
open EffectPrograms
open EffectPrograms.Program (anyReply)

/-- Neither sent nor asked for by the handlers of the requesting side. -/
def Call.IsUpload : Call → Prop
  | .send (.piece ..) => True
  | .requireData _ => True
  | _ => False

/-- Sent by the handlers of the requesting side only. -/
def Call.IsRequest : Call → Prop
  | .send (.request ..) => True
  | _ => False

namespace PeerConnection
open Task

section Monitored

variable {γ : Type} {M : Monitor Call Call.Reply γ} {s : PeerConnection} {g : γ}

theorem monitored_sendMessage {m : Message} {post : Unit → PeerConnection → γ → Prop}
    (hallows : M.allows (.send m) g) (h : post () s (M.after (.send m) true g)) :
    monitored M (sendMessage m) post s g := by
  simp only [sendMessage, monitored_bind, monitored_perform, monitored_lift]
  refine ⟨hallows, fun sent => ?_⟩
  cases sent with
  | true => exact fun _ _ => h
  | false =>
    intro _ hsent
    cases hsent

theorem monitored_sendDownload {m : Message} {post : Unit → PeerConnection → γ → Prop}
    (hignores : M.Ignores g (.download m)) (h : post () s g) :
    monitored M (sendDownload m) post s g := by
  simp only [sendDownload, monitored_bind, monitored_perform, monitored_lift]
  refine ⟨hignores.1, fun sent _ _ => ?_⟩
  rw [hignores.2]
  exact h

theorem monitored_requireData {r : RequestMetadata} {post : Bytes → PeerConnection → γ → Prop}
    (hignores : M.Ignores g (.requireData r)) (h : ∀ data, post data s g) :
    monitored M (requireData r) post s g := by
  simp only [requireData, monitored_bind, monitored_perform, monitored_lift]
  refine ⟨hignores.1, fun answer data _ => ?_⟩
  rw [hignores.2]
  exact h data

theorem monitored_requireIncompleteBlocks {pieceIndex : UInt32}
    {post : List (UInt32 × UInt32) → PeerConnection → γ → Prop}
    (hignores : M.Ignores g (.requireIncompleteBlocks pieceIndex))
    (h : ∀ blocks, post blocks s g) :
    monitored M (requireIncompleteBlocks pieceIndex) post s g := by
  simp only [requireIncompleteBlocks, monitored_bind, monitored_perform, monitored_lift]
  refine ⟨hignores.1, fun answer blocks _ => ?_⟩
  rw [hignores.2]
  exact h blocks

end Monitored

variable {P : Call → Prop}

theorem sendMessage_only {m : Message} (h : P (.send m)) : only P (sendMessage m) :=
  only_bind (only_perform h) fun _ => only_lift _

theorem sendDownload_only {m : Message} (h : P (.download m)) : only P (sendDownload m) :=
  only_bind (only_perform h) fun _ => only_lift _

theorem requireData_only {r : RequestMetadata} (h : P (.requireData r)) :
    only P (requireData r) :=
  only_bind (only_perform h) fun _ => only_lift _

theorem requireIncompleteBlocks_only {pieceIndex : UInt32}
    (h : P (.requireIncompleteBlocks pieceIndex)) : only P (requireIncompleteBlocks pieceIndex) :=
  only_bind (only_perform h) fun _ => only_lift _

theorem uploadNextBlock_only (hdata : ∀ r, P (.requireData r))
    (hsend : ∀ p offset data, P (.send (.piece p offset data))) : only P uploadNextBlock := by
  refine only_bind only_get fun conn => only_ite (only_pure ()) ?_
  refine only_bind (only_modify _) fun _ => ?_
  split
  · exact only_pure ()
  · exact only_bind (requireData_only (hdata _)) fun _ =>
      only_bind (only_modify _) fun _ => sendMessage_only (hsend ..)

theorem requestLoop_only (hkey : ∀ n, P (.firstKey n))
    (hsend : ∀ p offset length, P (.send (.request p offset length))) (fuel : ℕ) :
    only P (requestLoop fuel) := by
  induction fuel with
  | zero => exact only_pure ()
  | succ fuel ih =>
    refine only_bind only_get fun conn => only_ite ?_ (only_pure ())
    split
    · exact only_pure ()
    · refine only_bind (only_perform (hkey _)) fun i => ?_
      refine only_bind (only_lift _) fun entry => only_bind (only_modify _) fun _ => ?_
      refine only_bind (only_lift _) fun offset => only_bind (only_modify _) fun _ => ?_
      exact only_bind (only_runIf (sendMessage_only (hsend ..))) fun _ => ih

theorem uploadNextBlock_only_uploads : only (fun e => ¬ e.IsRequest) uploadNextBlock :=
  uploadNextBlock_only (fun _ => id) fun _ _ _ => id

theorem handleIpc_only_uploads {ipc : IPC} (h : isUploadEvent ipc = true) :
    only (fun e => ¬ e.IsRequest) (handleIpc ipc) := by
  cases ipc with
  | message m =>
    cases m with
    | interested =>
      refine only_bind (only_modify _) fun _ => only_bind only_get fun conn => ?_
      refine only_ite (only_bind (only_modify _) fun _ => ?_) (only_pure ())
      exact only_bind (sendMessage_only id) fun _ => uploadNextBlock_only_uploads
    | notInterested => exact only_modify _
    | request pieceIndex offset length =>
      exact only_bind (only_modify _) fun _ => uploadNextBlock_only_uploads
    | cancel => exact only_modify _
    | _ => cases h
  | blockUploaded => exact only_bind (only_modify _) fun _ => uploadNextBlock_only_uploads
  | _ => cases h

theorem requestMoreBlocks_only_requests : only (fun e => ¬ e.IsUpload) requestMoreBlocks :=
  only_bind only_get fun _ => only_ite (only_pure ()) (requestLoop_only (fun _ => id)
    (fun _ _ _ => id) _)

theorem queueBlocks_only_requests (pieceIndex : UInt32) :
    only (fun e => ¬ e.IsUpload) (queueBlocks pieceIndex) :=
  only_bind (requireIncompleteBlocks_only id) fun _ => only_modify _

theorem updateMyInterestedStatus_only_requests :
    only (fun e => ¬ e.IsUpload) updateMyInterestedStatus := by
  refine only_bind only_get fun conn => only_ite ?_ (only_pure ())
  refine only_bind (only_modify _) fun _ => sendMessage_only ?_
  split
  · exact id
  · exact id

theorem bitfieldLoop_only_requests (bytes : Bytes) (indices : List ℕ) :
    only (fun e => ¬ e.IsUpload) (bitfieldLoop bytes indices) := by
  induction indices with
  | nil => exact only_pure ()
  | cons haveIndex rest ih =>
    refine only_bind (only_lift _) fun byte => only_bind only_get fun conn => ?_
    refine only_bind (only_lift _) fun hasPieces => only_bind (only_modify _) fun _ => ?_
    exact only_bind (only_runIf (queueBlocks_only_requests _)) fun _ => ih

theorem handleIpc_only_requests {ipc : IPC} (h : isUploadEvent ipc = false) :
    only (fun e => ¬ e.IsUpload) (handleIpc ipc) := by
  have hupdate : only (fun e => ¬ e.IsUpload) (do updateMyInterestedStatus; requestMoreBlocks) :=
    only_bind updateMyInterestedStatus_only_requests fun _ => requestMoreBlocks_only_requests
  cases ipc with
  | message m =>
    cases m with
    | keepAlive => exact only_pure ()
    | choke => exact only_modify _
    | unChoke =>
      refine only_bind only_get fun conn => only_ite ?_ (only_pure ())
      exact only_bind (only_modify _) fun _ => requestMoreBlocks_only_requests
    | «have» haveIndex =>
      refine only_bind only_get fun conn => only_bind (only_lift _) fun hasPieces => ?_
      exact only_bind (only_modify _) fun _ =>
        only_bind (queueBlocks_only_requests haveIndex) fun _ => hupdate
    | bitfield bytes =>
      exact only_bind only_get fun conn =>
        only_bind (bitfieldLoop_only_requests bytes _) fun _ => hupdate
    | piece pieceIndex offset data =>
      exact only_bind (only_modify _) fun _ => only_bind (sendDownload_only id) fun _ => hupdate
    | port => exact only_fail _
    | _ => cases h
  | blockCompleted pieceIndex blockIndex =>
    refine only_bind (only_modify _) fun _ => only_bind only_get fun conn => ?_
    refine only_bind (only_modify _) fun _ => ?_
    split
    · exact sendMessage_only id
    · exact only_pure ()
  | pieceCompleted pieceIndex =>
    refine only_bind only_get fun conn => only_bind (only_lift _) fun hasPieces => ?_
    refine only_bind (only_modify _) fun _ => ?_
    exact only_bind updateMyInterestedStatus_only_requests fun _ => sendMessage_only id
  | downloadCompleted => exact updateMyInterestedStatus_only_requests
  | blockUploaded => cases h

end PeerConnection
end TorrentClient
