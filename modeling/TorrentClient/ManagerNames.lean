import TorrentClient.UnblockedRuns
import TorrentClient.FileNames

/-!
# The names that the manager has

As long as the download task is alive, a run of the client holds a run of the download loop, so
that the names of the manager follow the pieces once the news of them have come in.
-/
namespace TorrentClient
open TransitionRuns

namespace ClientTasks

variable {sha1 : Bytes → Sha1} {s t : ClientTasks} {a : ClientTaskAction} {d₀ : Download}

/-- The download task is over or where its loop has got to. -/
def FollowsLoop (sha1 : Bytes → Sha1) (d₀ : Download) (s : ClientTasks) : Prop :=
  s.downloadOver = false → Reachable (Download.eventStep sha1) d₀ s.download

theorem FollowsLoop.congr (h : FollowsLoop sha1 d₀ s) (hdownload : t.download = s.download)
    (hover : t.downloadOver = s.downloadOver) : FollowsLoop sha1 d₀ t := by
  intro hgoing
  rw [hdownload]
  exact h (hover ▸ hgoing)

theorem Moves.followsLoop (h : Moves sha1 s a t) (hs : FollowsLoop sha1 d₀ s) :
    FollowsLoop sha1 d₀ t := by
  cases h with
  | replies hgoing hposted hqueue handled =>
    intro _
    have hstep : Download.eventStep sha1 s.download _ _ := ⟨_, handled⟩
    exact (hs hgoing).tail hstep
  | breaks =>
    intro hgoing
    cases hgoing
  | _ => exact hs.congr rfl rfl

variable {disk : String → Bytes} {metaInfo : TorrentMetaInfo}

/-- In every state of every run the names that the manager has and the events on their way to it
make up the names of the files. When none is on its way and the download task is alive, a file
of a torrent of non-empty files has lost its `.temp` for the manager just where all pieces that
overlap it are completed. -/
theorem manager_names_follow_pieces (hlaunch : Download.launch disk metaInfo = .ok d₀)
    (h : Reachable (Moves sha1) (start (.new metaInfo d₀.filePaths) d₀) s) :
    s.incoming.foldl ManagerEvent.rename s.manager.filePaths = s.download.filePaths ∧
    (metaInfo.pieceLength < 2 ^ 32 → (∀ file ∈ d₀.files, file ≠ []) →
      s.downloadOver = false → s.incoming = [] → ∀ (i : ℕ) path, d₀.filePaths[i]? = some path →
      (s.manager.filePaths[i]? = stripTemp path ↔
        ∀ q, s.download.Overlaps q i → s.download.havePieces[q]? = some true) ∧
      (s.manager.filePaths[i]? = some path ↔
        ∃ q, s.download.Overlaps q i ∧ s.download.havePieces[q]? ≠ some true)) := by
  have hinf : Informed s := (reachable_wired h).2.1
  refine ⟨hinf.names, fun hlength hfiles hgoing hnone i path hi => ?_⟩
  have hstart : FollowsLoop sha1 d₀ (start (.new metaInfo d₀.filePaths) d₀) := fun _ => .refl
  have hloop : FollowsLoop sha1 d₀ s := h.invariant hstart fun _ _ _ hu hmove => hmove.followsLoop hu
  have hnamed : Download.Plain d₀.filePaths s.download ∧ Download.Named d₀.filePaths s.download :=
    (hloop hgoing).invariant (Download.launch_plain hlaunch hlength hfiles)
      fun _ _ _ hinv hstep => hstep.named hinv.1 hinv.2
  have hnames := hinf.names
  rw [hnone, List.foldl_nil] at hnames
  rw [hnames]
  exact hnamed.2.follows hi

/-- The peer has sent the only block, and the news of it are on their way. -/
def storedClient : ClientTasks :=
  { greetedClient with download := Download.storedDownload }

theorem reachable_stored :
    Reachable (Moves fun _ => Sha1.replicate 0) oneBlockClient storedClient := by
  have hreads := greeted_safely.reachable.tail
    (@Moves.acts _ _ 0 _ _ _ _ (.reads (.piece 0 0 [7])) rfl rfl rfl (fun h => by cases h.1) rfl)
  have htakes := hreads.tail
    (@Moves.acts _ _ 0 _ _ _ _ .takes rfl rfl rfl (fun h => by cases h.1) rfl)
  have htells := htakes.tail (@Moves.tells _ _ 0 _ _ _ _ rfl rfl rfl ⟨rfl, by decide⟩)
  have hreplies := htells.tail (@Moves.replies _ _ 0 _ _ .none _ _ _ rfl (Nat.le_refl 0) rfl
    Download.handleEvent_oneBlockDownload rfl rfl)
  have hreturns := hreplies.tail
    (@Moves.acts _ _ 0 _ _ _ _ .returns rfl rfl rfl (fun h => by cases h.2) rfl)
  exact hreturns

/-- The manager has renamed the file and passed some of the news on to the connection. -/
def newsClient (news passed : List IPC) : ClientTasks :=
  { storedClient with
    manager := { storedClient.manager with
      filePaths := ["downloads/f"]
      toConnections := passed.map fun ipc => (0, ipc) }
    posted := 4
    events := news.map .broadcast
    connections :=
      [⟨.looping ⟨.idle (.new [false]), .receiving, passed, []⟩ false, [], false, false⟩] }

theorem reachable_renamed :
    Reachable (Moves fun _ => Sha1.replicate 0) oneBlockClient
      (newsClient [.blockCompleted 0 0, .pieceCompleted 0, .downloadCompleted] []) := by
  have hfinish := reachable_stored.tail (.posts rfl)
  have hblock := hfinish.tail (.posts rfl)
  have hpiece := hblock.tail (.posts rfl)
  have hdownload := hpiece.tail (.posts rfl)
  have hrenamed := hdownload.tail (.handles rfl rfl rfl rfl)
  exact hrenamed

/-- The manager passes on the next of the news. -/
theorem reachable_passed {ipc : IPC} {news passed : List IPC}
    (h : Reachable (Moves fun _ => Sha1.replicate 0) oneBlockClient
      (newsClient (ipc :: news) passed)) (hroom : passed.length < channelCapacity) :
    Reachable (Moves fun _ => Sha1.replicate 0) oneBlockClient
      (newsClient news (passed ++ [ipc])) := by
  have hbegins := h.tail (.broadcasts rfl rfl (List.Perm.refl _))
  have hdeliver : ConnectionTask.deliver
      ⟨.looping ⟨.idle (.new [false]), .receiving, passed, []⟩ false, [], false, false⟩ ipc =
        some ⟨.looping ⟨.idle (.new [false]), .receiving, passed ++ [ipc], []⟩ false, [], false,
          false⟩ := by
    simp [ConnectionTask.deliver, ConnectionTasks.deliver, ConnectionTask.setLoop,
      LoopPhase.isReceiver, hroom]
  have hsends := hbegins.tail (.reaches rfl rfl rfl hdeliver)
  have hfinishes := hsends.tail (.finishes rfl rfl rfl)
  rw [newsClient.eq_1 news, List.map_append]
  exact hfinishes

/-- The manager has handled the news of the finished file and passed on all the others. -/
theorem manager_names_follow_pieces_stored :
    ∃ s, Reachable (Moves fun _ => Sha1.replicate 0) oneBlockClient s ∧ s.incoming = [] ∧
      s.manager.filePaths = ["downloads/f"] ∧ s.download = Download.storedDownload ∧
      ∀ q, s.download.Overlaps q 0 → s.download.havePieces[q]? = some true := by
  have hlaunch : Download.launch (fun _ => []) Download.oneBlockTorrent =
      .ok Download.oneBlockDownload := rfl
  have hfiles : ∀ file ∈ Download.oneBlockDownload.files, file ≠ [] := by decide
  have hblock := reachable_passed reachable_renamed (by decide)
  have hpiece := reachable_passed hblock (by decide)
  have hpassed := reachable_passed hpiece (by decide)
  have hnames := (manager_names_follow_pieces hlaunch hpassed).2 (by decide) hfiles rfl rfl 0
    "downloads/f.temp" rfl
  have htemp : some "downloads/f" = stripTemp "downloads/f.temp" := by decide +kernel
  exact ⟨_, hpassed, rfl, rfl, rfl, hnames.1.mp htemp⟩

end ClientTasks
end TorrentClient
