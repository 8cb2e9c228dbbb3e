import TorrentClient.ConnectionCalls
import TorrentClient.ConnectionTasks

/-!
# Uploads in flight

An upload is a token: the connection loop makes it when it sends a `Piece`, the write loop
turns it into a `BlockUploaded`, and the connection loop takes that back. While the write
loop runs, the tokens between the two tasks are counted by `uploadInProgress`.
-/
namespace TorrentClient
open EffectPrograms TransitionRuns

/-- The token that a message carries. -/
def Message.uploads (m : Message) : ℕ := m.isBlockUpload.toNat

def Call.uploads : Call → ℕ
  | .send m => m.uploads
  | _ => 0

/-- The token that the write loop holds. -/
def WritePhase.uploads : WritePhase → ℕ
  | .writing m => m.uploads
  | .notifying => 1
  | _ => 0

/-- Counts the tokens that a handler makes. -/
def uploadMonitor : Monitor Call Call.Reply ℕ where
  allows _ _ := True
  after e _ n := n + e.uploads

namespace PeerConnection
open Task

variable {s : PeerConnection} {n : ℕ}

/-- The flag of the connection counts the tokens. -/
def CountsUploads (conn : PeerConnection) (n : ℕ) : Prop := n = conn.uploadInProgress.toNat

/-- A handler keeps the flag and the number of tokens together. -/
def KeepsCount (x : Handler Unit) : Prop :=
  ∀ s n, CountsUploads s n → monitored uploadMonitor x (fun _ t n => CountsUploads t n) s n

theorem uploadMonitor_ignores {e : Call} (h : ¬ e.IsUpload) : uploadMonitor.Ignores n e := by
  refine ⟨trivial, fun _ => ?_⟩
  cases e with
  | send m =>
    cases m with
    | piece => exact absurd trivial h
    | _ => rfl
  | _ => rfl

/-- `BlockUploaded` is not waited for where no upload is in progress. -/
theorem uploadNextBlock_keepsCount : KeepsCount uploadNextBlock := by
  intro s n hn
  rw [uploadNextBlock]
  simp only [monitored_bind, monitored_get, monitored_ite, monitored_modify, monitored_pure]
  split_ifs with hidle
  · exact hn
  · have hfree : s.uploadInProgress = false := by
      cases hp : s.uploadInProgress with
      | false => rfl
      | true => simp [hp] at hidle
    rw [CountsUploads, hfree] at hn
    subst hn
    cases s.he.requests.pop.1 with
    | none => exact congrArg Bool.toNat hfree.symm
    | some r =>
      rw [monitored_bind]
      refine monitored_requireData ⟨trivial, fun _ => rfl⟩ fun data => ?_
      exact monitored_sendMessage trivial rfl

theorem handleIpc_counts_uploads {ipc : IPC} (hupload : isUploadEvent ipc = true)
    (hn : CountsUploads s n) (hipc : ipc ≠ .blockUploaded) :
    monitored uploadMonitor (handleIpc ipc) (fun _ t n => CountsUploads t n) s n := by
  cases ipc with
  | message m =>
    cases m with
    | interested =>
      rw [handleIpc, processMessage, monitored_bind, monitored_modify, monitored_bind,
        monitored_get, monitored_ite]
      split_ifs
      · rw [monitored_bind, monitored_modify, monitored_bind]
        exact monitored_sendMessage trivial (uploadNextBlock_keepsCount _ _ hn)
      · exact hn
    | notInterested => exact hn
    | request pieceIndex offset length =>
      rw [handleIpc, processMessage, monitored_bind, monitored_modify]
      exact uploadNextBlock_keepsCount _ _ hn
    | cancel pieceIndex offset length => exact hn
    | _ => cases hupload
  | blockUploaded => exact absurd rfl hipc
  | _ => cases hupload

/-- An event that gives no token back. -/
theorem handleIpc_counts {ipc : IPC} (hn : CountsUploads s n) (hipc : ipc ≠ .blockUploaded) :
    monitored uploadMonitor (handleIpc ipc) (fun _ t n => CountsUploads t n) s n := by
  cases hupload : isUploadEvent ipc with
  | true => exact handleIpc_counts_uploads hupload hn hipc
  | false =>
    have hcalls : only (uploadMonitor.Ignores n) (handleIpc ipc) :=
      (handleIpc_only_requests hupload).mono fun _ => uploadMonitor_ignores
    apply monitored_mono (monitored_of_only hcalls (handleIpc_sameUploads hupload s))
    rintro _ t n' ⟨hsame, rfl⟩
    rw [CountsUploads, hsame.uploadInProgress]
    exact hn

/-- The event that gives the token of an upload back. -/
theorem blockUploaded_counts (hn : CountsUploads s (n + 1)) :
    monitored uploadMonitor (handleIpc .blockUploaded) (fun _ t n => CountsUploads t n) s n := by
  have hlt := Bool.toNat_lt s.uploadInProgress
  have hzero : n = 0 := by
    rw [CountsUploads] at hn
    omega
  rw [handleIpc, monitored_bind, monitored_modify]
  exact uploadNextBlock_keepsCount _ _ hzero

theorem sendBitfield_counts (hn : CountsUploads s n) :
    monitored uploadMonitor sendBitfield (fun _ t n => CountsUploads t n) s n := by
  simp only [sendBitfield, monitored_bind, monitored_get, monitored_lift]
  intro bytes _
  exact monitored_sendMessage trivial hn

end PeerConnection

namespace ConnectionTasks
open PeerConnection

/-- The `Piece` messages in the writer channel or being written, and the `BlockUploaded`
notifications that the connection loop has not taken. -/
def uploadsInFlight (s : ConnectionTasks) : ℕ :=
  s.writer.countP Message.isBlockUpload + s.writeLoop.uploads + s.ipcs.count .blockUploaded

/-- The rest of a handler ends with as many tokens as the flag says. -/
def CountedRest (rest : PendingHandler) (n : ℕ) : Prop :=
  rest.monitored uploadMonitor (fun r n => Task.onSuccess (fun _ t => CountsUploads t n) r) n

/-- `n` tokens are what the connection loop has to reckon with. -/
def Counted : LoopPhase → ℕ → Prop
  | .idle conn, n => CountsUploads conn n
  | .running rest, n => CountedRest rest n
  | .sending m next, n => CountedRest (next true) (n + m.uploads)
  | .closing, _ => True
  | .ended, _ => True

/-- The invariant of the tokens. -/
def Balanced (s : ConnectionTasks) : Prop :=
  s.writeLoop = .ended ∨ Counted s.loop s.uploadsInFlight

variable {s t : ConnectionTasks} {a : TaskAction}

theorem countP_append_message (writer : List Message) (m : Message) :
    (writer ++ [m]).countP Message.isBlockUpload =
      writer.countP Message.isBlockUpload + m.uploads := by
  rw [List.countP_append, List.countP_singleton, Message.uploads]
  cases m.isBlockUpload <;> rfl

theorem uploadsInFlight_deliver {ipc : IPC} (h : ipc ≠ .blockUploaded) :
    ({ s with ipcs := s.ipcs ++ [ipc] } : ConnectionTasks).uploadsInFlight =
      s.uploadsInFlight := by
  simp [uploadsInFlight, List.count_append, h]

theorem uploadsInFlight_send (m : Message) (loop : LoopPhase) :
    ({ s with writer := s.writer ++ [m], loop } : ConnectionTasks).uploadsInFlight =
      s.uploadsInFlight + m.uploads := by
  simp only [uploadsInFlight, countP_append_message]
  omega

theorem uploadsInFlight_writerTakes {m : Message} {writer : List Message}
    (hwrite : s.writeLoop = .receiving) (hwriter : s.writer = m :: writer) :
    ({ s with writer, writeLoop := .writing m } : ConnectionTasks).uploadsInFlight =
      s.uploadsInFlight := by
  simp only [uploadsInFlight, hwrite, hwriter, List.countP_cons, WritePhase.uploads,
    Message.uploads]
  cases m.isBlockUpload <;> simp

theorem uploadsInFlight_writes {m : Message} (hwrite : s.writeLoop = .writing m) :
    ({ s with writeLoop := if m.isBlockUpload then .notifying else .receiving } :
      ConnectionTasks).uploadsInFlight = s.uploadsInFlight := by
  simp only [uploadsInFlight, hwrite, WritePhase.uploads, Message.uploads]
  cases m.isBlockUpload <;> rfl

theorem uploadsInFlight_notifies (hwrite : s.writeLoop = .notifying) :
    ({ s with ipcs := s.ipcs ++ [.blockUploaded], writeLoop := .receiving } :
      ConnectionTasks).uploadsInFlight = s.uploadsInFlight := by
  simp only [uploadsInFlight, hwrite, WritePhase.uploads, List.count_append,
    List.count_singleton_self]
  omega

/-- The loop takes an event; a `BlockUploaded` gives its token back. -/
theorem takes_counted {conn : PeerConnection} {ipc : IPC} {ipcs : List IPC}
    (hipcs : s.ipcs = ipc :: ipcs) (hs : CountsUploads conn s.uploadsInFlight)
    (loop : LoopPhase) :
    CountedRest (handleIpc ipc conn)
      ({ s with ipcs, loop } : ConnectionTasks).uploadsInFlight := by
  by_cases hipc : ipc = .blockUploaded
  · subst hipc
    apply blockUploaded_counts
    rw [uploadsInFlight, hipcs, List.count_cons_self] at hs
    exact hs
  · apply handleIpc_counts _ hipc
    rw [uploadsInFlight, hipcs, List.count_cons_of_ne hipc] at hs
    exact hs

/-- A step of one of the tasks keeps the tokens balanced. -/
theorem Move.balanced (h : Move s a t) (hs : Balanced s) : Balanced t := by
  rcases hs with hended | hs
  · left
    cases h with
    | beginsSend hloop hwriter => exact absurd hended hwriter
    | writerTakes hwrite hwriter =>
      rw [hended] at hwrite
      cases hwrite
    | writes hwrite =>
      rw [hended] at hwrite
      cases hwrite
    | notifies hwrite hroom =>
      rw [hended] at hwrite
      cases hwrite
    | writerStops => rfl
    | _ => exact hended
  · cases h with
    | delivers hipc =>
      right
      rw [uploadsInFlight_deliver hipc]
      exact hs
    | takes hloop hipcs =>
      rw [hloop] at hs
      exact Or.inr (takes_counted hipcs hs _)
    | @answers e next answer hloop he =>
      rw [hloop] at hs
      have hnext : CountedRest (next (answer e)) (s.uploadsInFlight + e.uploads) := hs.2 _
      have hzero : e.uploads = 0 := by
        cases e with
        | send m => cases he
        | _ => rfl
      rw [hzero] at hnext
      exact Or.inr hnext
    | beginsSend hloop hwriter =>
      rw [hloop] at hs
      exact Or.inr (hs.2 true)
    | sendFails hloop hwriter => exact Or.inl hwriter
    | sends hloop hroom =>
      right
      rw [hloop] at hs
      rw [uploadsInFlight_send]
      exact hs
    | drops hloop hwriter => exact Or.inl hwriter
    | returns hloop =>
      rw [hloop] at hs
      exact Or.inr hs
    | stops hloop =>
      right
      rcases hloop with rfl | rfl
      · trivial
      · trivial
    | writerTakes hwrite hwriter =>
      right
      rw [uploadsInFlight_writerTakes hwrite hwriter]
      exact hs
    | writes hwrite =>
      right
      rw [uploadsInFlight_writes hwrite]
      exact hs
    | notifies hwrite hroom =>
      right
      rw [uploadsInFlight_notifies hwrite]
      exact hs
    | writerStops => exact Or.inl rfl

theorem start_balanced (havePieces : List Bool) : Balanced (start havePieces) :=
  Or.inr (sendBitfield_counts rfl)

theorem balanced_of_reachable {havePieces : List Bool}
    (h : Reachable actStep (start havePieces) s) : Balanced s := by
  obtain ⟨trace, run⟩ := h
  exact run.invariant (start_balanced havePieces) fun _ _ _ hs hstep => hstep.move.balanced hs

/-- Between two events of the connection loop, while the write loop runs, the uploads in
flight are those that the flag of the connection counts. -/
theorem uploads_in_flight {havePieces : List Bool} (h : Reachable actStep (start havePieces) s)
    {conn : PeerConnection} (hloop : s.loop = .idle conn) (hwrite : s.writeLoop ≠ .ended) :
    s.uploadsInFlight = if conn.uploadInProgress then 1 else 0 := by
  rcases balanced_of_reachable h with hended | hcounted
  · exact absurd hended hwrite
  · rw [hloop] at hcounted
    refine hcounted.trans ?_
    cases conn.uploadInProgress <;> rfl

/-- The peer asks for a block, and the connection sends it. -/
def uploadActions : List TaskAction :=
  [.beginsSend, .completesSend, .returns, .reads .interested, .takes, .beginsSend,
    .completesSend, .returns, .reads (.request 0 0 1), .takes, .answers (answerWith []),
    .beginsSend, .completesSend, .returns]

def uploadingConnection : PeerConnection where
  me := PeerMetadata.new [true]
  he := ⟨[false], false, true, ⟨[]⟩⟩
  toRequest := ∅
  uploadInProgress := true

def uploadingTasks : ConnectionTasks where
  loop := .idle uploadingConnection
  writeLoop := .receiving
  ipcs := []
  writer := [.bitfield [128], .unChoke, .piece 0 0 [0]]

theorem uploadingTasks_reachable : Reachable actStep (start [true]) uploadingTasks := by
  have hacts : uploadActions.foldlM act (start [true]) = some uploadingTasks := rfl
  obtain ⟨trace, run, -⟩ := run_of_foldlM Run.nil hacts
  exact ⟨trace, run⟩

theorem uploads_in_flight_once : Reachable actStep (start [true]) uploadingTasks ∧
    uploadingTasks.loop = .idle uploadingConnection ∧ uploadingTasks.writeLoop ≠ .ended ∧
    uploadingTasks.uploadsInFlight = if uploadingConnection.uploadInProgress then 1 else 0 := by
  have hwrite : uploadingTasks.writeLoop ≠ .ended := by simp [uploadingTasks]
  exact ⟨uploadingTasks_reachable, rfl, hwrite,
    uploads_in_flight uploadingTasks_reachable rfl hwrite⟩

/-- The write loop ends with the first write that fails, and an upload that it has not
written by then is never reported back. -/
theorem failed_write_loses_upload : ∃ s conn, Reachable actStep (start [true]) s ∧
    s.loop = .idle conn ∧ conn.uploadInProgress = true ∧ s.uploadsInFlight = 0 := by
  have hacts : [.writerTakes, .writes, .writerTakes, .writes, .writerTakes,
      .writeFails].foldlM act uploadingTasks =
        some { uploadingTasks with writeLoop := .ended, writer := [] } := rfl
  obtain ⟨trace, run⟩ := uploadingTasks_reachable
  obtain ⟨trace', run', -⟩ := run_of_foldlM run hacts
  exact ⟨_, uploadingConnection, ⟨trace', run'⟩, rfl, rfl, rfl⟩

end ConnectionTasks
end TorrentClient
