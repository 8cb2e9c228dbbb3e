import TorrentClient.ConnectionSteps

/-!
# The upload queue

An interested peer that is not choked waits for an upload only while one is in progress.
Every event restores this but `Interested` itself: it serves the queue only if it unchokes
the peer.
-/
namespace TorrentClient
open EffectPrograms TransitionRuns
open EffectPrograms.Program (anyReply anyReply_mono)

namespace PeerConnection
open Task

variable {s t : PeerConnection}

/-- No request of an interested and unchoked peer waits without an upload in progress. -/
def UploadsServed (conn : PeerConnection) : Prop :=
  conn.he.isInterested = true → conn.he.isChoked = false → conn.uploadInProgress = false →
    conn.he.requests.requests = []

/-- The peer regains its interest while requests wait and nothing else will serve them. -/
def StallsUploads (conn : PeerConnection) (ipc : IPC) : Prop :=
  ipc = .message .interested ∧ conn.he.isChoked = false ∧ conn.uploadInProgress = false ∧
    conn.he.requests.requests ≠ []

theorem SameUploads.served_iff (h : SameUploads s t) : UploadsServed t ↔ UploadsServed s := by
  rw [UploadsServed, h.isInterested, h.isChoked, h.uploadInProgress, h.requests]
  rfl

theorem uploadNextBlock_served (s : PeerConnection) :
    wp anyReply uploadNextBlock (fun _ t => UploadsServed t) s := by
  rw [uploadNextBlock]
  simp only [wp_bind, wp_get, wp_ite, wp_modify, wp_pure]
  split_ifs with hidle
  · intro hi hc hp
    simp [hi, hc, hp] at hidle
  · cases hrequests : s.he.requests.requests with
    | nil =>
      simp only [RequestQueue.pop, hrequests, wp_pure]
      intro _ _ _
      exact hrequests
    | cons r rest =>
      simp only [RequestQueue.pop, hrequests, wp_bind, wp_requireData, wp_modify, wp_sendMessage]
      intro data _ _ hp
      cases hp

/-- Where the event does not make the peer interested, serving the queue is enough. -/
theorem served_of_other {ipc : IPC} (hne : ipc ≠ .message .interested) {x : Handler Unit}
    (hx : wp anyReply x (fun _ u => UploadsServed u) t) :
    wp anyReply x (fun _ u => UploadsServed u ↔ ¬ StallsUploads s ipc) t := by
  apply wp_mono anyReply_mono hx
  intro _ u hu
  exact ⟨fun _ hstall => hne hstall.1, fun _ => hu⟩

theorem handleIpc_served {ipc : IPC} (hs : UploadsServed s) (hupload : isUploadEvent ipc = true) :
    wp anyReply (handleIpc ipc) (fun _ t => UploadsServed t ↔ ¬ StallsUploads s ipc) s := by
  cases ipc with
  | message m =>
    cases m with
    | interested =>
      rw [handleIpc, processMessage, wp_bind, wp_modify, wp_bind, wp_get, wp_ite]
      split_ifs with hchoked
      · rw [wp_bind, wp_modify, wp_bind, wp_sendMessage]
        apply wp_mono anyReply_mono (uploadNextBlock_served _)
        intro _ t ht
        refine ⟨fun _ hstall => ?_, fun _ => ht⟩
        exact Bool.false_ne_true (hstall.2.1.symm.trans hchoked)
      · have hfree : s.he.isChoked = false := by simpa using hchoked
        rw [wp_pure]
        simp [UploadsServed, StallsUploads, hfree]
    | notInterested =>
      apply served_of_other (by simp)
      intro hi
      cases hi
    | request pieceIndex offset length =>
      apply served_of_other (by simp)
      rw [handleIpc, processMessage, wp_bind, wp_modify]
      exact uploadNextBlock_served _
    | cancel pieceIndex offset length =>
      apply served_of_other (by simp)
      intro hi hc hp
      exact RequestQueue.remove_requests_of_nil (hs hi hc hp)
    | _ => cases hupload
  | blockUploaded =>
    apply served_of_other (by simp)
    rw [handleIpc, wp_bind, wp_modify]
    exact uploadNextBlock_served _
  | _ => cases hupload

/-- An event keeps the uploads served exactly when it does not stall them. -/
theorem ipcStep.served_iff {ipc : IPC} (hs : UploadsServed s) (h : ipcStep s ipc t) :
    UploadsServed t ↔ ¬ StallsUploads s ipc := by
  cases hupload : isUploadEvent ipc with
  | true => exact h.post (handleIpc_served hs hupload)
  | false =>
    have hsame := h.post (handleIpc_sameUploads hupload s)
    rw [hsame.served_iff]
    refine ⟨fun _ => ?_, fun _ => hs⟩
    rintro ⟨rfl, -⟩
    cases hupload

theorem new_served (havePieces : List Bool) : UploadsServed (new havePieces) :=
  fun _ _ _ => rfl

/-- In every state of a run the uploads are served exactly when no event of the run stalls
them. -/
theorem uploads_served_iff {havePieces : List Bool} {trace : List (Step PeerConnection IPC)}
    (run : Run ipcStep (new havePieces) trace s) :
    (∀ x ∈ trace, UploadsServed x.after) ↔ ∀ x ∈ trace, ¬ StallsUploads x.before x.label :=
  run.forall_after_iff_of_step (new_served havePieces) fun _ _ _ hs h => h.served_iff hs

/-- An interested peer that has got the block it asked for. -/
def servedConnection : PeerConnection where
  me := PeerMetadata.new [true]
  he := ⟨[false], false, true, ⟨[]⟩⟩
  toRequest := ∅
  uploadInProgress := false

theorem uploads_served_iff_uploaded :
    ∃ trace, Run ipcStep (new [true]) trace servedConnection ∧
      trace.map (·.label) = [.message .interested, .message (.request 0 0 1), .blockUploaded] ∧
      ∀ x ∈ trace, UploadsServed x.after := by
  have hunchokes : ipcStep (new [true]) (.message .interested) servedConnection :=
    ipcStep_of_runWith (answerWith []) rfl
  have huploads : ipcStep servedConnection (.message (.request 0 0 1))
      { servedConnection with uploadInProgress := true } :=
    ipcStep_of_runWith (answerWith []) rfl
  have hreports : ipcStep { servedConnection with uploadInProgress := true } .blockUploaded
      servedConnection := ipcStep_of_runWith (answerWith []) rfl
  have run := ((Run.nil.snoc hunchokes).snoc huploads).snoc hreports
  refine ⟨_, run, rfl, (uploads_served_iff run).mpr ?_⟩
  intro x hx hstalls
  simp only [List.nil_append, List.cons_append, List.mem_cons, List.not_mem_nil, or_false] at hx
  rcases hx with rfl | rfl | rfl
  · cases hstalls.2.1
  · cases hstalls.1
  · cases hstalls.1

/-- The second request of a peer waits although nothing is uploaded. -/
def stalledConnection : PeerConnection where
  me := PeerMetadata.new [true]
  he := ⟨[false], false, true, ⟨[⟨0, 1, 16384, 1⟩]⟩⟩
  toRequest := ∅
  uploadInProgress := false

/-- The peer loses its interest while its second request waits, and regains it after the
first upload. -/
theorem regained_interest_stalls_uploads :
    ∃ trace, Run ipcStep (new [true]) trace stalledConnection ∧
      trace.map (·.label) = [.message .interested, .message (.request 0 0 1),
        .message (.request 0 16384 1), .message .notInterested, .blockUploaded,
        .message .interested] ∧
      ¬ UploadsServed stalledConnection := by
  have hrun : execute (answerWith []) (new [true]) [.message .interested, .message (.request 0 0 1),
      .message (.request 0 16384 1), .message .notInterested, .blockUploaded,
      .message .interested] = some stalledConnection := rfl
  obtain ⟨trace, run, hlabels⟩ := run_of_execute Run.nil hrun
  refine ⟨trace, run, hlabels, fun hserved => ?_⟩
  cases hserved rfl rfl rfl

end PeerConnection
end TorrentClient
