import TorrentClient.ManagerNames

/-!
# The client runs its loops

The manager and the download task of the client are where their own loops get to, and the manager
fails on nothing that comes into its channels.
-/
namespace TorrentClient
open TransitionRuns

namespace ClientTasks

variable {sha1 : Bytes → Sha1} {s t : ClientTasks} {a : ClientTaskAction}

/-- A move leaves the manager alone or is a round of its loop. -/
theorem Moves.managerStep (h : Moves sha1 s a t) (hman : Managed s) (hinf : Informed s) :
    t.manager = s.manager ∨ ∃ input, Manager.InputStep s.manager input t.manager := by
  cases h with
  | handles hidle hqueue hother handled =>
    have hannounced := (hinf.head hqueue).input_announced (Client.receivers [] [])
    exact Or.inr ⟨_, hannounced, walks_of_passedOn hother _ _, _, handled⟩
  | @finishes b r manager hsending hdone handled =>
    have hround : Manager.InputStep s.manager
        (.event (.broadcast b.ipc) (Client.receivers b.order b.lost)) manager :=
      ⟨trivial, (hman.walk b hsending).1, r, handled⟩
    exact Or.inr ⟨_, hround⟩
  | @disconnects peer disconnects r manager hidle hqueue handled =>
    have hround : Manager.InputStep s.manager (.disconnect peer) manager :=
      ⟨trivial, trivial, r, handled⟩
    exact Or.inr ⟨_, hround⟩
  | _ => exact Or.inl rfl

/-- In every run of the client the manager has gone through rounds of its own loop and the
download task, while it is alive, through events of its own, and whatever the manager takes next
it handles. -/
theorem loops_run_alone {metaInfo : TorrentMetaInfo} {download : Download}
    (h : Reachable (Moves sha1) (start (.new metaInfo download.filePaths) download) s) :
    Reachable Manager.InputStep (.new metaInfo download.filePaths) s.manager ∧
    (s.downloadOver = false → Reachable (Download.eventStep sha1) download s.download) ∧
    ∀ input, MayTake s input → ∃ m, Manager.handleInput input s.manager = .ok none m := by
  have hmanager : Reachable Manager.InputStep (.new metaInfo download.filePaths) s.manager := by
    apply h.invariant_of_reachable .refl
    intro u a v hu hreach hmove
    obtain ⟨hman, hinf, -⟩ := reachable_wired hu
    rcases hmove.managerStep hman hinf with hsame | ⟨input, hround⟩
    · rw [hsame]
      exact hreach
    · exact hreach.tail hround
  have hstart : FollowsLoop sha1 download (start (.new metaInfo download.filePaths) download) :=
    fun _ => .refl
  have hdownload : FollowsLoop sha1 download s :=
    h.invariant hstart fun _ _ _ hu hmove => hmove.followsLoop hu
  obtain ⟨hman, hinf, -⟩ := reachable_wired h
  exact ⟨hmanager, hdownload, fun input hinput => hinput.handled hman hinf⟩

/-- A peer has been announced to the manager. -/
theorem loops_run_alone_announced :
    ∃ s : ClientTasks, s.events = [.connection true ⟨"10.0.0.1", 6881⟩] ∧
      Reachable Manager.InputStep
        (.new Download.oneBlockTorrent Download.oneBlockDownload.filePaths) s.manager ∧
      (s.downloadOver = false → Reachable (Download.eventStep fun _ => Sha1.replicate 0)
        Download.oneBlockDownload s.download) ∧
      ∃ m, Manager.handleInput
        (.event (.connection true ⟨"10.0.0.1", 6881⟩) (Client.receivers [] [])) s.manager =
          .ok none m := by
  have hannounced := (announced_safely (fun _ => Sha1.replicate 0) Download.oneBlockTorrent
    Download.oneBlockDownload.filePaths Download.oneBlockDownload ⟨"10.0.0.1", 6881⟩).reachable
  obtain ⟨hmanager, hdownload, hhandled⟩ := loops_run_alone hannounced
  exact ⟨_, rfl, hmanager, hdownload, hhandled _ (.event rfl trivial)⟩

end ClientTasks
end TorrentClient
