import TorrentClient.UnblockedRuns

/-!
# Questions and answers

While the download task is alive no question of a connection is lost or put twice, and every answer
finds the connection that waits for it.
-/
namespace TorrentClient
open TransitionRuns

namespace ClientTasks

variable {sha1 : Bytes → Sha1} {s : ClientTasks}

/-- In every state of every run in which the download task is alive, the questions of a connection
in its channel are the one that the connection waits for, if it waits. The answer to the next
event can be taken by the connection that sent it, and answers its question. -/
theorem questions_find_answers {metaInfo : TorrentMetaInfo} {download : Download}
    (h : Reachable (Moves sha1) (start (.new metaInfo download.filePaths) download) s)
    (hgoing : s.downloadOver = false) :
    (∀ (id : ℕ) c, s.connections[id]? = some c →
      s.questions id = c.pending ∧ c.pending.length ≤ 1) ∧
    ∀ (id : ℕ) (e : ManagerEvent) toDownload reply d, s.toDownload = (id, e) :: toDownload →
      Download.handleEvent sha1 e s.download = .ok reply d →
      ∃ c c', s.connections[id]? = some c ∧ c.answer reply = some c' ∧
        (e.isQuestion = true → c.pending = [e] ∧ c'.pending = []) := by
  have hasked : Asked s := (reachable_wired h).2.2
  constructor
  · intro id c hc
    exact ⟨hasked.questions hgoing id c hc, c.length_pending_le⟩
  · intro id e toDownload reply d hqueue handled
    obtain ⟨c, c', hc, hanswer, hpending⟩ := exists_taker hasked hgoing hqueue handled
    refine ⟨c, c', hc, hanswer, fun hquestion => ⟨hpending hquestion, ?_⟩⟩
    rcases ConnectionTask.answer_cases hanswer with ⟨hnone, -⟩ | ⟨-, -, hanswered⟩
    · rw [(handleEvent_silent_iff handled).mp hnone] at hquestion
      cases hquestion
    · exact hanswered

/-- A connection has asked for the pieces that there are. -/
theorem questions_find_answers_pieces :
    ∃ s : ClientTasks, s.toDownload = [(0, .requireHavePieces)] ∧
      (∀ (id : ℕ) c, s.connections[id]? = some c →
        s.questions id = c.pending ∧ c.pending.length ≤ 1) ∧
      ∃ c c', s.connections[0]? = some c ∧ c.answer (.havePieces [false]) = some c' ∧
        c.pending = [.requireHavePieces] ∧ c'.pending = [] := by
  have hannounced := (announced_safely (fun _ => Sha1.replicate 0) Download.oneBlockTorrent
    Download.oneBlockDownload.filePaths Download.oneBlockDownload ⟨"10.0.0.1", 6881⟩).reachable
  have hstarted := hannounced.tail (.handles rfl rfl rfl rfl)
  have hrequired := hstarted.tail (@Moves.requires _ _ 0 _ rfl rfl ⟨rfl, by decide⟩)
  obtain ⟨hquestions, hanswers⟩ := questions_find_answers hrequired rfl
  obtain ⟨c, c', hc, hanswer, hpending⟩ := hanswers 0 _ [] (.havePieces [false]) _ rfl rfl
  exact ⟨_, rfl, hquestions, c, c', hc, hanswer, hpending rfl⟩

end ClientTasks
end TorrentClient
