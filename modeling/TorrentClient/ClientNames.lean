import TorrentClient.ClientTasks
import TorrentClient.RenameEvents

/-!
# The manager knows the names of the files

Whatever the tasks of the client do and whichever of them fail, the names that the manager has
and the events on their way to it make up the names that the download task works with.
-/
namespace TorrentClient
open FinalStates TransitionRuns

/-- What may be in the channel of the manager. -/
inductive ManagerEvent.Incoming (count : ℕ) : ManagerEvent → Prop where
  | news {e : ManagerEvent} (h : e.IsNews count) : Incoming count e
  | announced (peer : Peer) : Incoming count (.connection true peer)
  | tracker (peers : List Peer) : Incoming count (.tracker (.peers peers))

namespace ClientTasks

variable {sha1 : Bytes → Sha1} {s t : ClientTasks} {a : ClientTaskAction}

/-- The events on their way to the manager, those that are not posted yet included. -/
def incoming (s : ClientTasks) : List ManagerEvent := s.events ++ s.download.sent.drop s.posted

/-- With the news that are on their way the manager has the names of the download task. -/
structure Informed (s : ClientTasks) : Prop where
  incoming : ∀ e ∈ s.incoming, e.Incoming s.download.filePaths.length
  names : s.incoming.foldl ManagerEvent.rename s.manager.filePaths = s.download.filePaths
  posted : s.posted ≤ s.download.sent.length

theorem informed_start {manager : Manager} {download : Download}
    (h : manager.filePaths = download.filePaths) : Informed (start manager download) := by
  have hnone : (start manager download).incoming = [] := by simp [ClientTasks.incoming, start]
  refine ⟨by simp [hnone], ?_, Nat.le_refl _⟩
  rw [hnone]
  exact h

namespace Informed

theorem congr (h : Informed s) (hincoming : t.incoming = s.incoming)
    (hpaths : t.manager.filePaths = s.manager.filePaths) (hdownload : t.download = s.download)
    (hposted : t.posted ≤ s.download.sent.length) : Informed t := by
  obtain ⟨hin, hnames, -⟩ := h
  refine ⟨?_, ?_, ?_⟩
  · rwa [hincoming, hdownload]
  · rwa [hincoming, hpaths, hdownload]
  · rwa [hdownload]

theorem length_paths (h : Informed s) :
    s.manager.filePaths.length = s.download.filePaths.length := by
  rw [← h.names, ManagerEvent.length_foldl_rename]

/-- The next event of the manager is one that it knows. -/
theorem head (h : Informed s) {e : ManagerEvent} {events : List ManagerEvent}
    (hqueue : s.events = e :: events) : e.Incoming s.download.filePaths.length := by
  apply h.incoming
  simp [ClientTasks.incoming, hqueue]

/-- The manager has taken its next event and follows the news in it. -/
theorem pop (h : Informed s) {e : ManagerEvent} {events : List ManagerEvent}
    (hqueue : s.events = e :: events) (hevents : t.events = events)
    (hpaths : t.manager.filePaths = e.rename s.manager.filePaths)
    (hdownload : t.download = s.download) (hposted : t.posted = s.posted) : Informed t := by
  have hincoming : s.incoming = e :: t.incoming := by
    simp [ClientTasks.incoming, hqueue, hevents, hdownload, hposted]
  have hin := h.incoming
  have hnames := h.names
  rw [hincoming] at hin hnames
  refine ⟨?_, ?_, ?_⟩
  · rw [hdownload]
    exact (List.forall_mem_cons.mp hin).2
  · rw [hpaths, hdownload]
    exact hnames
  · rw [hdownload, hposted]
    exact h.posted

/-- An event that is about no name is put behind the others. -/
theorem push (h : Informed s) {e : ManagerEvent} (he : e.Incoming s.download.filePaths.length)
    (hrename : ∀ filePaths, e.rename filePaths = filePaths)
    (hevents : t.events = s.events ++ [e]) (hmanager : t.manager = s.manager)
    (hdownload : t.download = s.download) (hposted : t.posted = s.posted) : Informed t := by
  have hsame : ∀ (events : List ManagerEvent) filePaths,
      (s.events ++ e :: events).foldl ManagerEvent.rename filePaths =
        (s.events ++ events).foldl ManagerEvent.rename filePaths := by
    intro events filePaths
    simp [hrename]
  have hincoming : t.incoming = s.events ++ e :: s.download.sent.drop s.posted := by
    simp [ClientTasks.incoming, hevents, hdownload, hposted]
  refine ⟨?_, ?_, ?_⟩
  · rw [hincoming, hdownload]
    have hin := List.forall_mem_append.mp h.incoming
    exact List.forall_mem_append.mpr ⟨hin.1, List.forall_mem_cons.mpr ⟨he, hin.2⟩⟩
  · rw [hincoming, hsame, hmanager, hdownload]
    exact h.names
  · rw [hdownload, hposted]
    exact h.posted

/-- The download task has told of the names that it has given. -/
theorem reports (h : Informed s) (hdone : s.download.sent.length ≤ s.posted)
    (hreports : Download.Reports s.download t.download) (hevents : t.events = s.events)
    (hmanager : t.manager = s.manager) (hposted : t.posted = s.posted) : Informed t := by
  obtain ⟨news, hsent, hpaths, hnews⟩ := hreports.news
  have hall : s.posted = s.download.sent.length := le_antisymm h.posted hdone
  have hold : s.incoming = s.events := by simp [ClientTasks.incoming, hall]
  have hnew : t.incoming = s.events ++ news := by
    simp [ClientTasks.incoming, hevents, hposted, hsent, hall]
  have hlength : t.download.filePaths.length = s.download.filePaths.length := by simp [hpaths]
  have hin := h.incoming
  have hnames := h.names
  rw [hold] at hin hnames
  refine ⟨?_, ?_, ?_⟩
  · rw [hnew, hlength]
    exact List.forall_mem_append.mpr ⟨hin, fun e he => .news (hnews e he)⟩
  · rw [hnew, List.foldl_append, hmanager, hnames, hpaths]
  · rw [hposted, hsent, hall, List.length_append]
    exact Nat.le_add_right _ _

end Informed

theorem Moves.informed (h : Moves sha1 s a t) (hs : Informed s) : Informed t := by
  cases h with
  | trackerSends => exact hs.push (.tracker _) (fun _ => rfl) rfl rfl rfl rfl
  | announces => exact hs.push (.announced _) (fun _ => rfl) rfl rfl rfl rfl
  | handles hidle hqueue hother handled =>
    exact hs.pop hqueue rfl (Manager.handleInput_notes handled).1 rfl rfl
  | broadcasts hidle hqueue horder => exact hs.pop hqueue rfl rfl rfl rfl
  | finishes hsending hdone handled =>
    exact hs.congr rfl (Manager.handleInput_notes handled).1 rfl hs.posted
  | disconnects hidle hqueue handled =>
    cases handled
    exact hs.congr rfl rfl rfl hs.posted
  | posts hsent =>
    obtain ⟨hlt, hget⟩ := List.getElem?_eq_some_iff.mp hsent
    refine hs.congr ?_ rfl rfl hlt
    simp [incoming, ← hget]
  | replies hgoing hposted hqueue handled =>
    exact hs.reports hposted ((Download.stays_handleEvent sha1 _).ok handled) rfl rfl rfl
  | breaks hgoing hposted hqueue handled =>
    exact hs.reports hposted ((Download.stays_handleEvent sha1 _).error handled) rfl rfl rfl
  | _ => exact hs.congr rfl rfl rfl hs.posted

end ClientTasks
end TorrentClient
