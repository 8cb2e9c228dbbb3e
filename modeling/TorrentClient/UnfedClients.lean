import TorrentClient.Client
import TorrentClient.ConnectionCalls
import TorrentClient.DownloadEvents
import TorrentClient.PeerMessageStream

/-!
# A client that no block reaches

A handler stores a block only for a `Piece` of its peer. So the download of a client stays what
it was as long as no connection is given one.
-/
namespace TorrentClient
open EffectPrograms TransitionRuns

def IPC.isPiece : IPC → Bool
  | .message m => m.isPiece
  | _ => false

namespace PeerConnection
open Task

section OnlyCalls

variable {P : Call → Prop} (hsend : ∀ m, P (.send m)) (hdata : ∀ r, P (.requireData r))
  (hblocks : ∀ pieceIndex, P (.requireIncompleteBlocks pieceIndex)) (hkey : ∀ n, P (.firstKey n))

include hsend in
theorem updateMyInterestedStatus_only : only P updateMyInterestedStatus := by
  refine only_bind only_get fun conn => only_ite ?_ (only_pure ())
  exact only_bind (only_modify _) fun _ => sendMessage_only (hsend _)

include hsend hkey in
theorem requestMoreBlocks_only : only P requestMoreBlocks :=
  only_bind only_get fun _ => only_ite (only_pure ())
    (requestLoop_only hkey (fun _ _ _ => hsend _) _)

include hsend hkey in
/-- The end of the handlers that may have queued blocks. -/
theorem updateAndRequest_only : only P (do updateMyInterestedStatus; requestMoreBlocks) :=
  only_bind (updateMyInterestedStatus_only hsend) fun _ => requestMoreBlocks_only hsend hkey

include hblocks in
theorem queueBlocks_only (pieceIndex : UInt32) : only P (queueBlocks pieceIndex) :=
  only_bind (requireIncompleteBlocks_only (hblocks _)) fun _ => only_modify _

include hblocks in
theorem bitfieldLoop_only (bytes : Bytes) (indices : List ℕ) :
    only P (bitfieldLoop bytes indices) := by
  induction indices with
  | nil => exact only_pure ()
  | cons haveIndex rest ih =>
    refine only_bind (only_lift _) fun byte => only_bind only_get fun conn => ?_
    refine only_bind (only_lift _) fun hasPieces => only_bind (only_modify _) fun _ => ?_
    exact only_bind (only_runIf (queueBlocks_only hblocks _)) fun _ => ih

include hsend hdata hblocks hkey in
/-- Every message but a `Piece`. -/
theorem processMessage_only {m : Message} (hm : m.isPiece = false) : only P (processMessage m) := by
  have hupload : only P uploadNextBlock := uploadNextBlock_only hdata fun _ _ _ => hsend _
  cases m with
  | keepAlive => exact only_pure ()
  | choke => exact only_modify _
  | unChoke =>
    refine only_bind only_get fun conn => only_ite ?_ (only_pure ())
    exact only_bind (only_modify _) fun _ => requestMoreBlocks_only hsend hkey
  | interested =>
    refine only_bind (only_modify _) fun _ => only_bind only_get fun conn => ?_
    refine only_ite (only_bind (only_modify _) fun _ => ?_) (only_pure ())
    exact only_bind (sendMessage_only (hsend _)) fun _ => hupload
  | notInterested => exact only_modify _
  | «have» haveIndex =>
    refine only_bind only_get fun conn => only_bind (only_lift _) fun hasPieces => ?_
    exact only_bind (only_modify _) fun _ =>
      only_bind (queueBlocks_only hblocks haveIndex) fun _ => updateAndRequest_only hsend hkey
  | bitfield bytes =>
    exact only_bind only_get fun conn => only_bind (bitfieldLoop_only hblocks bytes _) fun _ =>
      updateAndRequest_only hsend hkey
  | request pieceIndex offset length => exact only_bind (only_modify _) fun _ => hupload
  | piece pieceIndex offset data => cases hm
  | cancel pieceIndex offset length => exact only_modify _
  | port => exact only_fail _

include hsend hdata hblocks hkey in
theorem handleIpc_only {ipc : IPC} (h : ipc.isPiece = false) : only P (handleIpc ipc) := by
  cases ipc with
  | message m => exact processMessage_only hsend hdata hblocks hkey h
  | blockCompleted pieceIndex blockIndex =>
    refine only_bind (only_modify _) fun _ => only_bind only_get fun conn => ?_
    refine only_bind (only_modify _) fun _ => ?_
    split
    · exact sendMessage_only (hsend _)
    · exact only_pure ()
  | pieceCompleted pieceIndex =>
    refine only_bind only_get fun conn => only_bind (only_lift _) fun hasPieces => ?_
    refine only_bind (only_modify _) fun _ => ?_
    exact only_bind (updateMyInterestedStatus_only hsend) fun _ => sendMessage_only (hsend _)
  | downloadCompleted => exact updateMyInterestedStatus_only hsend
  | blockUploaded =>
    exact only_bind (only_modify _) fun _ => uploadNextBlock_only hdata fun _ _ _ => hsend _

end OnlyCalls
end PeerConnection

/-- A block on its way to the download task. -/
def Call.IsDelivery : Call → Prop
  | .download _ => True
  | _ => False

/-- What is left of a handler delivers no block. -/
def PendingHandler.StoresNothing (rest : PendingHandler) : Prop :=
  rest.only fun e => ¬ e.IsDelivery

theorem PeerConnection.handleIpc_storesNothing {ipc : IPC} (h : ipc.isPiece = false)
    (conn : PeerConnection) : PendingHandler.StoresNothing (handleIpc ipc conn) :=
  handleIpc_only (fun _ => id) (fun _ => id) (fun _ => id) (fun _ => id) h conn

theorem PeerConnection.sendBitfield_storesNothing (conn : PeerConnection) :
    PendingHandler.StoresNothing (sendBitfield conn) :=
  Task.only_bind Task.only_get (fun _ => Task.only_bind (Task.only_lift _) fun _ =>
    sendMessage_only id) conn

/-- Whatever the task of the connection still does stores no block. -/
def Stage.StoresNothing : Stage → Prop
  | .looping (.running rest) => PendingHandler.StoresNothing rest
  | .looping (.awaitingBlocks _ next) => ∀ answer, PendingHandler.StoresNothing (next answer)
  | .looping (.awaitingData _ next) => ∀ answer, PendingHandler.StoresNothing (next answer)
  | _ => True

structure Connection.StoresNothing (c : Connection) : Prop where
  stage : c.stage.StoresNothing
  ipcs : ∀ ipc ∈ c.ipcs, ipc.isPiece = false

/-- The client has stored no block since `d₀`, and none is on its way. -/
structure Client.Unfed (d₀ : Download) (s : Client) : Prop where
  download : s.download = d₀
  posted : d₀.sent.length ≤ s.posted
  events : ∀ e ∈ s.events, e.passedOn = []
  broadcasting : s.broadcasting = none
  toDownload : ∀ x ∈ s.toDownload, Download.isPieceEvent x.2 = false
  connections : ∀ c ∈ s.connections, c.StoresNothing

theorem Stage.StoresNothing.answer {stage stage' : Stage} {reply : Download.Reply}
    (h : stage.StoresNothing) (hanswer : stage.answer reply = some stage') :
    stage'.StoresNothing := by
  cases reply with
  | none =>
    simp only [Stage.answer, Option.some.injEq] at hanswer
    exact hanswer ▸ h
  | havePieces pieces =>
    cases stage with
    | awaitingPieces =>
      cases hanswer
      trivial
    | looping phase =>
      have hmap : (phase.answer (.havePieces pieces)).map Stage.looping = some stage' := hanswer
      rw [Phase.answer_havePieces] at hmap
      cases hmap
    | _ => cases hanswer
  | incompleteBlocks blocks =>
    cases stage with
    | looping phase =>
      obtain ⟨phase', hphase, rfl⟩ := Option.map_eq_some_iff.mp hanswer
      obtain ⟨pieceIndex, next, rfl, rfl⟩ := Phase.answer_blocks hphase
      exact h (some blocks)
    | _ => cases hanswer
  | data buf =>
    cases stage with
    | looping phase =>
      obtain ⟨phase', hphase, rfl⟩ := Option.map_eq_some_iff.mp hanswer
      obtain ⟨request, next, rfl, rfl⟩ := Phase.answer_data hphase
      exact h (some buf)
    | _ => cases hanswer

theorem PeerConnection.perform_storesNothing {choice : ℕ} {e : Call}
    {next : e.Reply → PendingHandler} {phase : Phase} {messages : List Message}
    {events : List ManagerEvent} (h : PendingHandler.StoresNothing (.call e next))
    (hperform : perform choice e next = some (phase, messages, events)) :
    Stage.StoresNothing (.looping phase) ∧ ∀ e ∈ events, Download.isPieceEvent e = false := by
  cases e with
  | send m =>
    cases hperform
    exact ⟨h.2 true, by simp⟩
  | download m => exact absurd trivial h.1
  | requireData request =>
    cases hperform
    exact ⟨h.2, by simp [Download.isPieceEvent]⟩
  | requireIncompleteBlocks pieceIndex =>
    cases hperform
    exact ⟨h.2, by simp [Download.isPieceEvent]⟩
  | firstKey n =>
    rw [perform] at hperform
    split at hperform
    · cases hperform
      exact ⟨h.2 _, by simp⟩
    · cases hperform

namespace Client

variable {sha1 : Bytes → Sha1} {d₀ : Download} {s t : Client}

theorem unfed_start (manager : Manager) : (start manager d₀).Unfed d₀ where
  download := rfl
  posted := Nat.le_refl _
  events := by simp [start]
  broadcasting := rfl
  toDownload := by simp [start]
  connections := by simp [start]

theorem Unfed.setConnection {id : ℕ} {c : Connection} (h : s.Unfed d₀) (hc : c.StoresNothing) :
    (s.setConnection id c).Unfed d₀ := by
  refine ⟨h.download, h.posted, h.events, h.broadcasting, h.toDownload, fun c' hc' => ?_⟩
  rcases List.mem_or_eq_of_mem_set hc' with hold | rfl
  · exact h.connections c' hold
  · exact hc

theorem Unfed.afterRound (h : s.Unfed d₀) (manager : Manager) :
    (s.afterRound manager).Unfed d₀ := by
  refine ⟨h.download, h.posted, h.events, h.broadcasting, h.toDownload, fun c hc => ?_⟩
  rcases List.mem_append.mp hc with hold | hnew
  · exact h.connections c hold
  · rw [(List.mem_replicate.mp hnew).2]
    exact ⟨trivial, by simp [Connection.new]⟩

/-- A move of a client keeps it unfed unless its read loop passes on a `Piece`. -/
theorem Moves.unfed {a : ClientAction} (h : s.Unfed d₀) (hmove : s.Moves sha1 a t)
    (ha : ∀ id m, a = .peerSends id m → m.isPiece = false) : t.Unfed d₀ := by
  have hconnection : ∀ {id : ℕ} {c : Connection}, s.connections[id]? = some c → c.StoresNothing :=
    fun hc => h.connections _ (List.mem_of_getElem? hc)
  cases hmove with
  | outsideSends he =>
    refine ⟨h.download, h.posted, fun e hmem => ?_, h.broadcasting, h.toDownload, h.connections⟩
    rcases List.mem_append.mp hmem with hold | hnew
    · exact h.events e hold
    · rw [List.mem_singleton.mp hnew]
      exact passedOn_of_fromOutside he
  | handles hidle hqueue hother handled =>
    have hevents := h.events
    rw [hqueue, List.forall_mem_cons] at hevents
    refine Unfed.afterRound ?_ _
    exact ⟨h.download, h.posted, hevents.2, h.broadcasting, h.toDownload, h.connections⟩
  | broadcasts hidle hqueue horder =>
    have hevents := h.events
    rw [hqueue, List.forall_mem_cons] at hevents
    cases hevents.1
  | reaches hsending hnext hc hover =>
    rw [h.broadcasting] at hsending
    cases hsending
  | misses hsending hnext hc hover =>
    rw [h.broadcasting] at hsending
    cases hsending
  | finishes hsending hdone handled =>
    rw [h.broadcasting] at hsending
    cases hsending
  | disconnects hidle hqueue handled =>
    refine Unfed.afterRound ?_ _
    exact ⟨h.download, h.posted, h.events, h.broadcasting, h.toDownload, h.connections⟩
  | posts hsent =>
    rw [h.download, List.getElem?_eq_none h.posted] at hsent
    cases hsent
  | @downloadHandles id e toDownload reply download c stage hposted hqueue handled hc hanswer =>
    have hevents := h.toDownload
    rw [hqueue, List.forall_mem_cons] at hevents
    have hsame : download = d₀ := by
      have hhandled := Download.handled_of_not_piece sha1 s.download hevents.1
      rw [Download.handled, handled] at hhandled
      exact hhandled.trans h.download
    refine Unfed.setConnection ?_ ⟨(hconnection hc).stage.answer hanswer, (hconnection hc).ipcs⟩
    exact ⟨hsame, h.posted, h.events, h.broadcasting, hevents.2, h.connections⟩
  | requires hc hstage =>
    refine Unfed.setConnection ?_ ⟨trivial, (hconnection hc).ipcs⟩
    refine ⟨h.download, h.posted, h.events, h.broadcasting, fun x hx => ?_, h.connections⟩
    rcases List.mem_append.mp hx with hold | hnew
    · exact h.toDownload x hold
    · rw [List.mem_singleton.mp hnew]
      rfl
  | connects hc hstage =>
    exact h.setConnection ⟨PeerConnection.sendBitfield_storesNothing _, (hconnection hc).ipcs⟩
  | fails hc hstage => exact h.setConnection ⟨trivial, (hconnection hc).ipcs⟩
  | @peerSends id c phase m hc hstage =>
    refine h.setConnection ⟨(hconnection hc).stage, fun ipc hipc => ?_⟩
    rcases List.mem_append.mp hipc with hold | hnew
    · exact (hconnection hc).ipcs ipc hold
    · rw [List.mem_singleton.mp hnew]
      exact ha id m rfl
  | takes hc hstage hipcs =>
    have hpending := (hconnection hc).ipcs
    rw [hipcs, List.forall_mem_cons] at hpending
    exact h.setConnection ⟨PeerConnection.handleIpc_storesNothing hpending.1 _, hpending.2⟩
  | @calls id choice c e next phase messages events hc hstage hperform =>
    have hrest := (hconnection hc).stage
    rw [hstage] at hrest
    obtain ⟨hphase, hevents⟩ := PeerConnection.perform_storesNothing hrest hperform
    refine Unfed.setConnection ?_ ⟨hphase, (hconnection hc).ipcs⟩
    refine ⟨h.download, h.posted, h.events, h.broadcasting, fun x hx => ?_, h.connections⟩
    rcases List.mem_append.mp hx with hold | hnew
    · exact h.toDownload x hold
    · obtain ⟨event, hevent, rfl⟩ := List.mem_map.mp hnew
      exact hevents event hevent
  | returns hc hstage => exact h.setConnection ⟨trivial, (hconnection hc).ipcs⟩
  | stops hc hstage => exact h.setConnection ⟨trivial, (hconnection hc).ipcs⟩
  | panics hc hstage => exact h.setConnection ⟨trivial, (hconnection hc).ipcs⟩
  | closes hc hstage => exact h.setConnection ⟨trivial, (hconnection hc).ipcs⟩
  | notifies hc hstage hpeer =>
    refine Unfed.setConnection ?_ ⟨trivial, (hconnection hc).ipcs⟩
    exact ⟨h.download, h.posted, h.events, h.broadcasting, h.toDownload, h.connections⟩
  | @writes id c m writer hc hwriter =>
    refine h.setConnection ⟨(hconnection hc).stage, fun ipc hipc => ?_⟩
    rcases List.mem_append.mp hipc with hold | hnew
    · exact (hconnection hc).ipcs ipc hold
    · cases m with
      | piece =>
        rw [List.mem_singleton.mp hnew]
        rfl
      | _ => cases hnew

end Client

end TorrentClient
