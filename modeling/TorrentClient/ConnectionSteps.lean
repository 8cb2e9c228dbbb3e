import TorrentClient.PeerConnection
import TorrentClient.TransitionRuns

/-!
# Steps of a connection

A step of a connection is an IPC event that is handled, whatever the other tasks answer.
The handlers of one side leave the state of the other side alone: `SameHoldings` is what
the requesting handlers keep and `SameRequests` what the uploading ones keep. The pieces we
have change in one event only.
-/
namespace TorrentClient
open EffectPrograms TransitionRuns
open EffectPrograms.Program (anyReply anyReply_mono)

namespace PeerConnection
open Task

/-- An event that is handled, with some answers of the other tasks. -/
def ipcStep (conn : PeerConnection) (ipc : IPC) (conn' : PeerConnection) : Prop :=
  ∃ calls, Finishes (handleIpc ipc) conn calls () conn'

theorem ipcStep.post {conn conn' : PeerConnection} {ipc : IPC} (h : ipcStep conn ipc conn')
    {post : Unit → PeerConnection → Prop} (hw : wp anyReply (handleIpc ipc) post conn) :
    post () conn' := by
  obtain ⟨calls, hcalls⟩ := h
  exact hcalls.post hw

variable {s t : PeerConnection}

@[simp] theorem wp_sendMessage (m : Message) (post : Unit → PeerConnection → Prop) :
    wp anyReply (sendMessage m) post s = post () s := by
  apply propext
  simp only [sendMessage, wp_bind, wp_perform, wp_lift, anyReply]
  constructor
  · intro h
    exact h true () rfl
  · intro h sent a _
    exact h

@[simp] theorem wp_sendDownload (m : Message) (post : Unit → PeerConnection → Prop) :
    wp anyReply (sendDownload m) post s = post () s := by
  apply propext
  simp only [sendDownload, wp_bind, wp_perform, wp_lift, anyReply]
  constructor
  · intro h
    exact h true () rfl
  · intro h sent a _
    exact h

theorem forall_answer {α : Type} {p : α → Prop} :
    (∀ answer : Option α, ∀ a, checkAnswer answer = .ok a → p a) ↔ ∀ a, p a := by
  constructor
  · intro h a
    exact h (some a) a rfl
  · intro h _ a _
    exact h a

@[simp] theorem wp_requireData (r : RequestMetadata) (post : Bytes → PeerConnection → Prop) :
    wp anyReply (requireData r) post s = ∀ data, post data s := by
  apply propext
  simp only [requireData, wp_bind, wp_perform, wp_lift, anyReply]
  exact forall_answer

@[simp] theorem wp_requireIncompleteBlocks (pieceIndex : UInt32)
    (post : List (UInt32 × UInt32) → PeerConnection → Prop) :
    wp anyReply (requireIncompleteBlocks pieceIndex) post s = ∀ blocks, post blocks s := by
  apply propext
  simp only [requireIncompleteBlocks, wp_bind, wp_perform, wp_lift, anyReply]
  exact forall_answer

/-- Every send succeeds, every request is answered with a byte, and every piece has the blocks. -/
def answerWith (blocks : List (UInt32 × UInt32)) : (e : Call) → e.Reply
  | .send _ => true
  | .download _ => true
  | .requireData _ => some [0]
  | .requireIncompleteBlocks _ => some blocks
  | .firstKey _ => 0

/-- The events one after the other, with fixed answers of the other tasks. -/
def execute (answer : (e : Call) → e.Reply) : PeerConnection → List IPC → Option PeerConnection
  | conn, [] => some conn
  | conn, ipc :: events =>
    match (handleIpc ipc conn).runWith answer with
    | .ok (_, conn') => execute answer conn' events
    | .error _ => none

theorem ipcStep_of_runWith (answer : (e : Call) → e.Reply) {ipc : IPC}
    (h : (handleIpc ipc s).runWith answer = .ok ((), t)) : ipcStep s ipc t := by
  obtain ⟨calls, hcalls⟩ := Program.returns_runWith answer (handleIpc ipc s)
  rw [h] at hcalls
  exact ⟨calls, hcalls⟩

theorem run_of_execute {start : PeerConnection} {answer : (e : Call) → e.Reply}
    {trace : List (Step PeerConnection IPC)} {events : List IPC}
    (run : Run ipcStep start trace s) (h : execute answer s events = some t) :
    ∃ trace', Run ipcStep start trace' t ∧
      trace'.map (·.label) = trace.map (·.label) ++ events := by
  induction events generalizing s trace with
  | nil =>
    cases h
    exact ⟨trace, run, (List.append_nil _).symm⟩
  | cons ipc events ih =>
    rw [execute] at h
    cases hrun : (handleIpc ipc s).runWith answer with
    | error e =>
      rw [hrun] at h
      cases h
    | ok result =>
      rw [hrun] at h
      obtain ⟨trace', hrun', hlabels⟩ := ih (run.snoc (ipcStep_of_runWith answer hrun)) h
      exact ⟨trace', hrun', by simp [hlabels]⟩

/-! ### What the requesting handlers keep -/

/-- The uploading side is the same, up to the pieces the peer has. -/
structure SameUploads (s t : PeerConnection) : Prop where
  isChoked : t.he.isChoked = s.he.isChoked
  isInterested : t.he.isInterested = s.he.isInterested
  requests : t.he.requests = s.he.requests
  uploadInProgress : t.uploadInProgress = s.uploadInProgress

theorem SameUploads.refl (s : PeerConnection) : SameUploads s s := ⟨rfl, rfl, rfl, rfl⟩

theorem SameUploads.trans {u : PeerConnection} (h : SameUploads s t) (h' : SameUploads t u) :
    SameUploads s u :=
  ⟨h'.isChoked.trans h.isChoked, h'.isInterested.trans h.isInterested,
    h'.requests.trans h.requests, h'.uploadInProgress.trans h.uploadInProgress⟩

instance : IsTrans PeerConnection SameUploads := ⟨fun _ _ _ => SameUploads.trans⟩

/-- Neither the uploading side nor the pieces we have are changed. -/
structure SameHoldings (s t : PeerConnection) : Prop where
  uploads : SameUploads s t
  hasPieces : t.me.hasPieces = s.me.hasPieces

theorem SameHoldings.refl (s : PeerConnection) : SameHoldings s s := ⟨.refl s, rfl⟩

theorem SameHoldings.trans {u : PeerConnection} (h : SameHoldings s t) (h' : SameHoldings t u) :
    SameHoldings s u :=
  ⟨h.uploads.trans h'.uploads, h'.hasPieces.trans h.hasPieces⟩

instance : IsTrans PeerConnection SameHoldings := ⟨fun _ _ _ => SameHoldings.trans⟩

/-- All that is kept of the peer and of our pieces is the same. -/
structure SamePeer (s t : PeerConnection) : Prop where
  he : t.he = s.he
  uploadInProgress : t.uploadInProgress = s.uploadInProgress
  hasPieces : t.me.hasPieces = s.me.hasPieces

theorem SamePeer.refl (s : PeerConnection) : SamePeer s s := ⟨rfl, rfl, rfl⟩

theorem SamePeer.trans {u : PeerConnection} (h : SamePeer s t) (h' : SamePeer t u) : SamePeer s u :=
  ⟨h'.he.trans h.he, h'.uploadInProgress.trans h.uploadInProgress, h'.hasPieces.trans h.hasPieces⟩

instance : IsTrans PeerConnection SamePeer := ⟨fun _ _ _ => SamePeer.trans⟩

theorem SamePeer.holdings (h : SamePeer s t) : SameHoldings s t :=
  ⟨⟨by rw [h.he], by rw [h.he], by rw [h.he], h.uploadInProgress⟩, h.hasPieces⟩

/-- A handler keeps a relation to the state it starts in. -/
def Keeps (rel : PeerConnection → PeerConnection → Prop) (x : Handler Unit) : Prop :=
  ∀ s, wp anyReply x (fun _ t => rel s t) s

variable {rel : PeerConnection → PeerConnection → Prop} [IsTrans PeerConnection rel]
  {x y : Handler Unit}

/-- A handler that starts in a related state ends in one. -/
theorem Keeps.after (hx : Keeps rel x) (hst : rel s t) : wp anyReply x (fun _ u => rel s u) t := by
  apply wp_mono anyReply_mono (hx t)
  intro _ u htu
  exact IsTrans.trans _ _ _ hst htu

theorem Keeps.bind (hx : Keeps rel x) (hy : Keeps rel y) : Keeps rel (x >>= fun _ => y) := by
  intro s
  rw [wp_bind]
  apply wp_mono anyReply_mono (hx s)
  intro _ t hst
  exact hy.after hst

theorem Keeps.holdings (h : Keeps SamePeer x) : Keeps SameHoldings x := by
  intro s
  exact wp_mono anyReply_mono (h s) fun _ _ => SamePeer.holdings

theorem sendMessage_samePeer (m : Message) : Keeps SamePeer (sendMessage m) := by
  intro s
  rw [wp_sendMessage]
  exact .refl s

theorem requestLoop_samePeer (fuel : ℕ) : Keeps SamePeer (requestLoop fuel) := by
  induction fuel with
  | zero => exact fun s => .refl s
  | succ fuel ih =>
    intro s
    rw [requestLoop]
    simp only [wp_bind, wp_get, wp_ite]
    split_ifs
    · cases s.toRequest.keys with
      | nil => exact .refl s
      | cons key keys =>
        simp only [wp_bind, wp_perform, wp_lift, anyReply, wp_modify, wp_runIf, wp_sendMessage]
        intro i entry _ offset _
        rw [ite_self]
        exact ih.after ⟨rfl, rfl, rfl⟩
    · exact .refl s

theorem requestMoreBlocks_samePeer : Keeps SamePeer requestMoreBlocks := by
  intro s
  rw [requestMoreBlocks]
  simp only [wp_bind, wp_get, wp_ite]
  split_ifs
  · exact .refl s
  · exact requestLoop_samePeer _ s

/-- Queueing blocks changes nothing but the map of blocks to request. -/
theorem queueBlock_foldl_frame (pieceIndex : UInt32) (blocks : List (UInt32 × UInt32))
    (s : PeerConnection) :
    (blocks.foldl (queueBlock pieceIndex) s).he = s.he ∧
      (blocks.foldl (queueBlock pieceIndex) s).uploadInProgress = s.uploadInProgress ∧
      (blocks.foldl (queueBlock pieceIndex) s).me = s.me := by
  induction blocks generalizing s with
  | nil => exact ⟨rfl, rfl, rfl⟩
  | cons block blocks ih =>
    obtain ⟨hhe, hupload, hme⟩ := ih (queueBlock pieceIndex s block)
    rw [List.foldl_cons, hhe, hupload, hme]
    unfold queueBlock
    split_ifs
    · exact ⟨rfl, rfl, rfl⟩
    · exact ⟨rfl, rfl, rfl⟩

theorem queueBlocks_samePeer (pieceIndex : UInt32) : Keeps SamePeer (queueBlocks pieceIndex) := by
  intro s
  simp only [queueBlocks, wp_bind, wp_requireIncompleteBlocks, wp_modify]
  intro blocks
  obtain ⟨hhe, hupload, hme⟩ := queueBlock_foldl_frame pieceIndex blocks s
  exact ⟨hhe, hupload, by rw [hme]⟩

theorem updateMyInterestedStatus_samePeer : Keeps SamePeer updateMyInterestedStatus := by
  intro s
  rw [updateMyInterestedStatus]
  simp only [wp_bind, wp_get, wp_ite, wp_modify, wp_sendMessage, wp_pure]
  split_ifs
  · exact ⟨rfl, rfl, rfl⟩
  · exact .refl s

theorem update_and_request_samePeer :
    Keeps SamePeer (do updateMyInterestedStatus; requestMoreBlocks) :=
  updateMyInterestedStatus_samePeer.bind requestMoreBlocks_samePeer

/-- The loop over a bitfield keeps what noting a piece of the peer and queueing its blocks keep. -/
theorem bitfieldLoop_keeps (hrefl : ∀ s, rel s s)
    (hnote : ∀ (s : PeerConnection) hasPieces, rel s { s with he := { s.he with hasPieces } })
    (hqueue : ∀ pieceIndex, Keeps rel (queueBlocks pieceIndex)) (bytes : Bytes)
    (indices : List ℕ) : Keeps rel (bitfieldLoop bytes indices) := by
  induction indices with
  | nil => exact hrefl
  | cons haveIndex rest ih =>
    intro s
    simp only [bitfieldLoop, wp_bind, wp_lift, wp_get, wp_modify, wp_runIf]
    intro byte _ hasPieces _
    split_ifs
    · rw [← wp_bind]
      exact ((hqueue _).bind ih).after (hnote s hasPieces)
    · exact ih.after (hnote s hasPieces)

theorem bitfieldLoop_sameHoldings (bytes : Bytes) (indices : List ℕ) :
    Keeps SameHoldings (bitfieldLoop bytes indices) := by
  apply bitfieldLoop_keeps SameHoldings.refl
  · exact fun s hasPieces => ⟨⟨rfl, rfl, rfl, rfl⟩, rfl⟩
  · exact fun pieceIndex => (queueBlocks_samePeer pieceIndex).holdings

/-! ### What the uploading handlers keep -/

/-- The requesting side is the same. -/
structure SameRequests (s t : PeerConnection) : Prop where
  me : t.me = s.me
  toRequest : t.toRequest = s.toRequest

theorem SameRequests.refl (s : PeerConnection) : SameRequests s s := ⟨rfl, rfl⟩

theorem SameRequests.trans {u : PeerConnection} (h : SameRequests s t) (h' : SameRequests t u) :
    SameRequests s u :=
  ⟨h'.me.trans h.me, h'.toRequest.trans h.toRequest⟩

instance : IsTrans PeerConnection SameRequests := ⟨fun _ _ _ => SameRequests.trans⟩

theorem uploadNextBlock_sameRequests : Keeps SameRequests uploadNextBlock := by
  intro s
  rw [uploadNextBlock]
  simp only [wp_bind, wp_get, wp_ite, wp_modify, wp_pure]
  split_ifs
  · exact .refl s
  · cases s.he.requests.pop.1 with
    | none => exact ⟨rfl, rfl⟩
    | some r =>
      simp only [wp_bind, wp_requireData, wp_modify, wp_sendMessage]
      intro data
      exact ⟨rfl, rfl⟩

/-! ### The two kinds of events -/

/-- The events that the uploading side handles. -/
def isUploadEvent : IPC → Bool
  | .message .interested => true
  | .message .notInterested => true
  | .message (.request ..) => true
  | .message (.cancel ..) => true
  | .blockUploaded => true
  | _ => false

/-- They leave the requesting side alone. -/
theorem handleIpc_sameRequests {ipc : IPC} (h : isUploadEvent ipc = true) :
    Keeps SameRequests (handleIpc ipc) := by
  cases ipc with
  | message m =>
    cases m with
    | interested =>
      intro s
      rw [handleIpc, processMessage, wp_bind, wp_modify, wp_bind, wp_get, wp_ite]
      split_ifs
      · rw [wp_bind, wp_modify, wp_bind, wp_sendMessage]
        exact uploadNextBlock_sameRequests.after ⟨rfl, rfl⟩
      · exact ⟨rfl, rfl⟩
    | notInterested => exact fun s => ⟨rfl, rfl⟩
    | request pieceIndex offset length =>
      intro s
      rw [handleIpc, processMessage, wp_bind, wp_modify]
      exact uploadNextBlock_sameRequests.after ⟨rfl, rfl⟩
    | cancel => exact fun s => ⟨rfl, rfl⟩
    | _ => cases h
  | blockUploaded =>
    intro s
    rw [handleIpc, wp_bind, wp_modify]
    exact uploadNextBlock_sameRequests.after ⟨rfl, rfl⟩
  | _ => cases h

/-- The other events leave the uploading side alone, and only a completed piece changes
which pieces we have. -/
theorem handleIpc_sameHoldings {ipc : IPC} (h : isUploadEvent ipc = false)
    (hother : ∀ pieceIndex, ipc ≠ .pieceCompleted pieceIndex) :
    Keeps SameHoldings (handleIpc ipc) := by
  have hupdate := update_and_request_samePeer.holdings
  cases ipc with
  | message m =>
    cases m with
    | keepAlive => exact fun s => .refl s
    | choke => exact fun s => ⟨⟨rfl, rfl, rfl, rfl⟩, rfl⟩
    | unChoke =>
      intro s
      simp only [handleIpc, processMessage, wp_bind, wp_get, wp_ite, wp_modify, wp_pure]
      split_ifs
      · exact requestMoreBlocks_samePeer.holdings.after ⟨⟨rfl, rfl, rfl, rfl⟩, rfl⟩
      · exact .refl s
    | «have» haveIndex =>
      intro s
      rw [handleIpc, processMessage, wp_bind, wp_get, wp_bind, wp_lift]
      intro hasPieces _
      rw [wp_bind, wp_modify]
      exact ((queueBlocks_samePeer haveIndex).holdings.bind hupdate).after ⟨⟨rfl, rfl, rfl, rfl⟩, rfl⟩
    | bitfield bytes =>
      intro s
      exact ((bitfieldLoop_sameHoldings bytes _).bind hupdate) s
    | piece pieceIndex offset data =>
      intro s
      rw [handleIpc, processMessage, wp_bind, wp_modify, wp_bind, wp_sendDownload]
      exact hupdate.after ⟨⟨rfl, rfl, rfl, rfl⟩, rfl⟩
    | port => exact fun s => trivial
    | _ => cases h
  | blockCompleted pieceIndex blockIndex =>
    intro s
    rw [handleIpc, wp_bind, wp_modify, wp_bind, wp_get]
    simp only [wp_bind, wp_modify]
    cases (s.me.requests.remove pieceIndex blockIndex).1 with
    | none => exact ⟨⟨rfl, rfl, rfl, rfl⟩, rfl⟩
    | some r =>
      rw [wp_sendMessage]
      exact ⟨⟨rfl, rfl, rfl, rfl⟩, rfl⟩
  | pieceCompleted pieceIndex => exact absurd rfl (hother pieceIndex)
  | downloadCompleted => exact updateMyInterestedStatus_samePeer.holdings
  | blockUploaded => cases h

/-- What an event adds to the pieces we have. -/
def markCompleted : IPC → List Bool → List Bool
  | .pieceCompleted pieceIndex, hasPieces => hasPieces.set pieceIndex.toNat true
  | _, hasPieces => hasPieces

theorem markCompleted_of_ne {ipc : IPC} (h : ∀ pieceIndex, ipc ≠ .pieceCompleted pieceIndex)
    (hasPieces : List Bool) : markCompleted ipc hasPieces = hasPieces := by
  cases ipc with
  | pieceCompleted pieceIndex => exact absurd rfl (h pieceIndex)
  | _ => rfl

/-- A completed piece is added to the pieces we have before anything else is changed. -/
theorem handleIpc_pieceCompleted (pieceIndex : UInt32) (s : PeerConnection) :
    wp anyReply (handleIpc (.pieceCompleted pieceIndex)) (fun _ t =>
      SameUploads s t ∧ t.me.hasPieces = s.me.hasPieces.set pieceIndex.toNat true) s := by
  rw [handleIpc, wp_bind, wp_get, wp_bind, wp_lift]
  intro hasPieces hassign
  have hset : hasPieces = s.me.hasPieces.set pieceIndex.toNat true := by
    rw [assignPiece] at hassign
    split_ifs at hassign
    exact (Except.ok.inj hassign).symm
  rw [wp_bind, wp_modify]
  apply wp_mono anyReply_mono
    ((updateMyInterestedStatus_samePeer.bind (sendMessage_samePeer _)).holdings _)
  intro _ t hsame
  obtain ⟨hchoked, hinterested, hrequests, hupload⟩ := hsame.uploads
  exact ⟨⟨hchoked, hinterested, hrequests, hupload⟩, hsame.hasPieces.trans hset⟩

theorem handleIpc_sameUploads {ipc : IPC} (h : isUploadEvent ipc = false) :
    Keeps SameUploads (handleIpc ipc) := by
  intro s
  by_cases hcompleted : ∃ pieceIndex, ipc = .pieceCompleted pieceIndex
  · obtain ⟨pieceIndex, rfl⟩ := hcompleted
    exact wp_mono anyReply_mono (handleIpc_pieceCompleted pieceIndex s) fun _ _ hsame => hsame.1
  · rw [not_exists] at hcompleted
    exact wp_mono anyReply_mono (handleIpc_sameHoldings h hcompleted s)
      fun _ _ hsame => hsame.uploads

/-- The pieces we have after an event. -/
theorem handleIpc_hasPieces (ipc : IPC) (s : PeerConnection) :
    wp anyReply (handleIpc ipc)
      (fun _ t => t.me.hasPieces = markCompleted ipc s.me.hasPieces) s := by
  by_cases hcompleted : ∃ pieceIndex, ipc = .pieceCompleted pieceIndex
  · obtain ⟨pieceIndex, rfl⟩ := hcompleted
    exact wp_mono anyReply_mono (handleIpc_pieceCompleted pieceIndex s) fun _ _ hsame => hsame.2
  · rw [not_exists] at hcompleted
    rw [markCompleted_of_ne hcompleted]
    cases hupload : isUploadEvent ipc with
    | true =>
      apply wp_mono anyReply_mono (handleIpc_sameRequests hupload s)
      intro _ t hsame
      rw [hsame.me]
    | false =>
      exact wp_mono anyReply_mono (handleIpc_sameHoldings hupload hcompleted s)
        fun _ _ hsame => hsame.hasPieces

/-- The bitfield that is sent after the handshake. -/
theorem sendBitfield_hasPieces (s : PeerConnection) :
    wp anyReply sendBitfield (fun _ t => t.me.hasPieces = s.me.hasPieces) s := by
  rw [sendBitfield, wp_bind, wp_get, wp_bind, wp_lift]
  intro bytes _
  rw [wp_sendMessage]

end PeerConnection
end TorrentClient
