import TorrentClient.FinalStates
import TorrentClient.DownloadEvents
import TorrentClient.Manager
import TorrentClient.ConnectionTasks

/-!
# What the manager takes note of

The download task tells the manager of every file that it renames, and the manager follows. The
peers that it hears of from a tracker are announced to it one by one.
-/
namespace TorrentClient
open FinalStates

namespace ManagerEvent

/-- The names of the files after the event has been handled by the manager. -/
def rename (filePaths : List String) : ManagerEvent → List String
  | .fileFinish fileIndex filePath => filePaths.set fileIndex filePath
  | _ => filePaths

/-- The events that the task spawned for a tracker message sends to the manager. -/
def announcements : ManagerEvent → List ManagerEvent
  | .tracker (.peers peers) => peers.map (.connection true)
  | _ => []

/-- What the download task sends about `count` files. -/
def IsNews (count : ℕ) : ManagerEvent → Prop
  | .broadcast ipc => ipc.isBroadcast = true
  | .fileFinish fileIndex _ => fileIndex < count
  | _ => False

@[simp] theorem length_rename (filePaths : List String) (e : ManagerEvent) :
    (rename filePaths e).length = filePaths.length := by
  cases e <;> simp [rename]

@[simp] theorem length_foldl_rename (filePaths : List String) (events : List ManagerEvent) :
    (events.foldl rename filePaths).length = filePaths.length := by
  induction events generalizing filePaths with
  | nil => rfl
  | cons e events ih => simp [ih]

end ManagerEvent

namespace Download

variable {α : Type} {d d' d'' : Download}

/-- What has been sent since tells the names that the files have got. -/
structure Reports (d d' : Download) : Prop where
  news : ∃ events, d'.sent = d.sent ++ events ∧
    d'.filePaths = events.foldl ManagerEvent.rename d.filePaths ∧
    ∀ e ∈ events, e.IsNews d.filePaths.length

theorem Reports.of_eq (hsent : d'.sent = d.sent) (hpaths : d'.filePaths = d.filePaths) :
    Reports d d' :=
  ⟨[], by simp [hsent], by simp [hpaths], by simp⟩

theorem Reports.trans (h : Reports d d') (h' : Reports d' d'') : Reports d d'' := by
  obtain ⟨events, hsent, hpaths, hnews⟩ := h.news
  obtain ⟨events', hsent', hpaths', hnews'⟩ := h'.news
  refine ⟨events ++ events', ?_, ?_, ?_⟩
  · simp [hsent', hsent]
  · rw [hpaths', hpaths, List.foldl_append]
  · have hlength : d'.filePaths.length = d.filePaths.length := by simp [hpaths]
    rw [hlength] at hnews'
    exact List.forall_mem_append.mpr ⟨hnews, hnews'⟩

instance : Std.Refl Reports := ⟨fun _ => .of_eq rfl rfl⟩

instance : IsTrans Download Reports := ⟨fun _ _ _ => Reports.trans⟩

theorem stays_broadcast {ipc : IPC} (hipc : ipc.isBroadcast = true) :
    Stays Reports (broadcast ipc) :=
  fun _ => ⟨[.broadcast ipc], rfl, rfl, by simpa [ManagerEvent.IsNews] using hipc⟩

theorem stays_renameTempFile (fileIndex : ℕ) : Stays Reports (renameTempFile fileIndex) := by
  apply stays_get_bind
  intro d
  apply final_pureStep_bind
  intro filePath hindex
  cases stripTemp filePath with
  | none => exact stays_pure () d
  | some newName =>
    apply final_pureStep_bind
    intro file hfile
    have hlt := (List.getElem?_eq_some_iff.mp (index_eq_ok.mp hindex)).1
    exact ⟨[.fileFinish fileIndex newName], rfl, rfl, by simpa [ManagerEvent.IsNews] using hlt⟩

theorem stays_verifyFiles (pieceLen fileIndex count : ℕ) :
    Stays Reports (verifyFiles pieceLen fileIndex count) := by
  induction count generalizing fileIndex with
  | zero => exact stays_pure ()
  | succ count ih =>
    apply stays_get_bind
    intro d
    have hrest : ∀ contained : List Piece, Stays Reports (do
        runIf (contained.all (·.isCompleted)) (renameTempFile fileIndex)
        verifyFiles pieceLen (fileIndex + 1) count) := fun contained =>
      (stays_runIf _ (stays_renameTempFile fileIndex)).bind fun _ => ih _
    have hall : Stays Reports (do
        let low ← pureStep (do checkedDiv (← index d.fileOffsets fileIndex) pieceLen)
        let last ← pureStep (do checkedSub (← index d.fileOffsets (fileIndex + 1)) 1)
        let high ← pureStep (checkedDiv last pieceLen)
        let containedPieces ← pureStep (subslice d.pieces low (high + 1))
        runIf (containedPieces.all (·.isCompleted)) (renameTempFile fileIndex)
        verifyFiles pieceLen (fileIndex + 1) count : DownloadM Unit) :=
      (stays_pureStep _).bind fun _ => (stays_pureStep _).bind fun _ =>
        (stays_pureStep _).bind fun _ => (stays_pureStep _).bind hrest
    exact hall d

theorem stays_verifyFile (pieceIndex : ℕ) : Stays Reports (verifyFile pieceIndex) := by
  apply stays_get_bind
  intro d
  apply final_pureStep_bind
  intro piece hpiece
  exact ((stays_pureStep _).bind fun _ => stays_verifyFiles _ _ _) d

theorem stays_notify (pieceIndex blockIndex : UInt32) :
    Stays Reports (notify pieceIndex blockIndex) := by
  apply (stays_broadcast rfl).bind
  intro _
  apply stays_get_bind
  intro d
  exact ((stays_pureStep _).bind fun _ => (stays_runIf _ (stays_broadcast rfl)).bind fun _ =>
    stays_runIf _ (stays_broadcast rfl)) d

theorem stays_completePiece (pieceIndex blockIndex : UInt32) :
    Stays Reports (completePiece pieceIndex blockIndex) := by
  have hflag : Stays Reports (modify fun d : Download =>
      d.modifyPiece pieceIndex.toNat fun p => { p with isCompleted := true } : DownloadM Unit) :=
    stays_modify fun _ => .of_eq rfl rfl
  exact hflag.bind fun _ => (stays_verifyFile _).bind fun _ => stays_notify _ _

theorem stays_verify (sha1 : Bytes → Sha1) (pieceIndex : ℕ) :
    Stays Reports (verify sha1 pieceIndex) := by
  apply stays_get_bind
  intro d
  apply final_pureStep_bind
  intro piece hpiece
  apply final_pureStep_bind
  intro buffer hbuffer
  exact .of_eq rfl rfl

theorem stays_store (sha1 : Bytes → Sha1) (pieceIndex blockIndex : UInt32) (data : Bytes) :
    Stays Reports (store sha1 pieceIndex blockIndex data) := by
  apply stays_get_bind
  intro d
  apply final_pureStep_bind
  intro piece hpiece
  apply final_pureStep_bind
  intro hasBlock hblock
  split_ifs with hdone hall
  · exact stays_pure () d
  · apply final_pureStep_bind
    intro files hfiles
    apply final_bind (Reports.of_eq rfl rfl)
    intro _ t hset
    cases hset
    refine ((stays_verify sha1 _).bind fun valid => ?_) _
    cases valid with
    | true => exact stays_completePiece _ _
    | false => exact stays_modify fun _ => .of_eq rfl rfl
  · apply final_pureStep_bind
    intro files hfiles
    apply final_bind (Reports.of_eq rfl rfl)
    intro _ t hset
    cases hset
    exact stays_completePiece _ _ _

/-- However an event ends, the manager is told of the names that files have got. -/
theorem stays_handleEvent (sha1 : Bytes → Sha1) (e : ManagerEvent) :
    Stays Reports (handleEvent sha1 e) := by
  cases e with
  | download m =>
    cases m with
    | piece pieceIndex offset data => exact (stays_store _ _ _ _).bind fun _ => stays_pure _
    | _ => exact stays_pure _
  | requireData request =>
    intro d
    rw [handleEvent_requireData]
    exact stays_pureStep _ d
  | requireIncompleteBlocks pieceIndex =>
    intro d
    rw [handleEvent_requireIncompleteBlocks]
    exact stays_pureStep _ d
  | requireHavePieces => exact fun d => .of_eq rfl rfl
  | _ => exact fun d => .of_eq rfl rfl

end Download

namespace Manager

variable {m t : Manager}

theorem replacePeer_notes {p : Peer} {r : Unit} (h : replacePeer p m = .ok r t) :
    t.filePaths = m.filePaths ∧ t.announced = m.announced := by
  rcases replacePeer_cases h with ⟨-, rfl⟩ | ⟨flag, peer, rest, -, -, rfl⟩
  · exact ⟨rfl, rfl⟩
  · exact ⟨rfl, rfl⟩

theorem replacePeers_notes {deleteKeys : List Peer} {r : Unit}
    (h : replacePeers deleteKeys m = .ok r t) :
    t.filePaths = m.filePaths ∧ t.announced = m.announced := by
  induction deleteKeys generalizing m with
  | nil =>
    cases h
    exact ⟨rfl, rfl⟩
  | cons p deleteKeys ih =>
    obtain ⟨_, m₁, hp, hrest⟩ := stateful_bind_eq_ok.mp h
    obtain ⟨hpaths, hannounced⟩ := ih hrest
    obtain ⟨hpaths₁, hannounced₁⟩ := replacePeer_notes hp
    exact ⟨hpaths.trans hpaths₁, hannounced.trans hannounced₁⟩

/-- An event leaves the names alone unless it tells of a new one, and announces peers only if it
comes from a tracker. -/
theorem handleInput_notes {e : ManagerEvent} {receivers : Receivers} {r : Option ℕ}
    (h : handleInput (.event e receivers) m = .ok r t) :
    t.filePaths = e.rename m.filePaths ∧ t.announced = m.announced ++ e.announcements := by
  have hsame : ∀ t' : Manager, t'.filePaths = m.filePaths → t'.announced = m.announced →
      t'.filePaths = m.filePaths ∧ t'.announced = m.announced ++ [] := by
    intro t' hpaths hannounced
    exact ⟨hpaths, hannounced.trans (List.append_nil _).symm⟩
  have hforward : ∀ x : ManagerM (Option ℕ), x = (do
      if receivers.download then
        modify fun m => { m with toDownload := m.toDownload ++ [e] }
        return none
      else throw (.err "send failed because receiver is gone")) → x m = .ok r t →
      t.filePaths = m.filePaths ∧ t.announced = m.announced ++ [] := by
    intro x hx hrun
    rw [hx] at hrun
    cases hreceives : receivers.download with
    | true =>
      rw [hreceives] at hrun
      cases hrun
      exact hsame _ rfl rfl
    | false =>
      rw [hreceives] at hrun
      cases hrun
  cases e with
  | «continue» =>
    cases h
    exact hsame _ rfl rfl
  | broadcast ipc =>
    rw [handleInput, processEvent_broadcast] at h
    obtain ⟨u, t', hreplace, hreturn⟩ := stateful_bind_eq_ok.mp h
    cases hreturn
    obtain ⟨hpaths, hannounced⟩ := replacePeers_notes hreplace
    exact hsame _ hpaths hannounced
  | connection flag peer =>
    rw [handleInput, processEvent_connection] at h
    split_ifs at h with hknown hfree
    · cases h
      exact hsame _ rfl rfl
    · obtain ⟨u, t', hconnect, hreturn⟩ := stateful_bind_eq_ok.mp h
      cases hreturn
      rw [(connect_eq_ok.mp hconnect).2]
      exact hsame _ rfl rfl
    · cases h
      exact hsame _ rfl rfl
  | requirePieceLength =>
    obtain ⟨u, t', hcheck, hreturn⟩ := stateful_bind_eq_ok.mp (show
      ((pureStep (assert receivers.requester) >>= fun _ =>
        return some m.metaInfo.pieceLength : ManagerM (Option ℕ)) m) = .ok r t from h)
    obtain ⟨-, rfl⟩ := pureStep_eq_ok.mp hcheck
    cases hreturn
    exact hsame _ rfl rfl
  | fileFinish fileIndex filePath =>
    obtain ⟨old, t', hindex, hset⟩ := stateful_bind_eq_ok.mp (show
      ((pureStep (index m.filePaths fileIndex) >>= fun _ => do
        set ({ m with filePaths := m.filePaths.set fileIndex filePath } : Manager)
        return none : ManagerM (Option ℕ)) m) = .ok r t from h)
    obtain ⟨-, rfl⟩ := pureStep_eq_ok.mp hindex
    cases hset
    exact ⟨rfl, (List.append_nil _).symm⟩
  | tracker message =>
    cases message with
    | peers peers =>
      cases h
      exact ⟨rfl, rfl⟩
  | _ => exact hforward _ rfl h

/-- The manager has a name for every file that it is told of. -/
theorem handleInput_fileFinish {fileIndex : ℕ} (hlt : fileIndex < m.filePaths.length)
    (filePath : String) (receivers : Receivers) :
    ∃ t, handleInput (.event (.fileFinish fileIndex filePath) receivers) m = .ok none t := by
  have hindex : (index m.filePaths fileIndex : Outcome String) = .ok m.filePaths[fileIndex] :=
    index_of_getElem? (List.getElem?_eq_getElem hlt)
  have hstep : (pureStep (index m.filePaths fileIndex) : ManagerM String) m =
      .ok m.filePaths[fileIndex] m := by
    rw [hindex, pureStep_ok]
  exact ⟨_, bind_of_ok hstep⟩

end Manager
end TorrentClient
