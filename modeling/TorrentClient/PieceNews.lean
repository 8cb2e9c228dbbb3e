import TorrentClient.PieceAnnouncements
import TorrentClient.StageKnowledge

/-!
# News of pieces on their way

A connection knows a completed piece, or as long as it has its entry in the map of peers, the news
of it are still in a channel on the way. This stands while queues change, the manager goes through
a round and the download task announces pieces.
-/
namespace TorrentClient

namespace Client

variable {sha1 : Bytes → Sha1} {s t : Client} {id : ℕ} {c : Connection}

/-- Some peer has the sender of the connection. -/
def Registered (s : Client) (id : ℕ) : Prop := ∃ peer, s.manager.peers.lookup peer = some id

/-- What the download task has sent and the manager has not begun to handle. -/
def pending (s : Client) : List ManagerEvent := s.events ++ s.download.sent.drop s.posted

/-- The manager has not yet passed the news of the piece on to the connection. -/
def Coming (s : Client) (id i : ℕ) : Prop :=
  (∃ b, s.broadcasting = some b ∧ b.ipc.Completes i ∧ id ∈ b.remaining.map (·.2)) ∨
    ∃ e ∈ s.pending, e.Completes i

/-- The connection knows only of completed pieces, and as long as it has its entry, the news of
all others are on the way to it. -/
structure Tracks (s : Client) (id : ℕ) (c : Connection) (hasPieces : List Bool) : Prop where
  knows : c.stage.Knows hasPieces
  length : hasPieces.length = s.download.pieces.length
  sound : ∀ i, hasPieces[i]? = some true → s.download.Has i
  complete : s.Registered id → ∀ i, s.download.Has i →
    hasPieces[i]? = some true ∨ (∃ ipc ∈ c.ipcs, ipc.Completes i) ∨ s.Coming id i

/-- News are of completed pieces only, and every connection is on top of them. -/
structure Informs (s : Client) : Prop where
  wellFormed : s.download.WellFormed
  posted : s.posted ≤ s.download.sent.length
  length_connections : s.connections.length = s.manager.started.length
  entries : ∀ id, s.Registered id → id < s.manager.started.length
  pending : ∀ e ∈ s.pending, ∀ i, e.Completes i → s.download.Has i
  broadcasting : ∀ b, s.broadcasting = some b → ∀ i, b.ipc.Completes i → s.download.Has i
  ipcs : ∀ (id : ℕ) c, s.connections[id]? = some c → ∀ ipc ∈ c.ipcs, ∀ i, ipc.Completes i →
    s.download.Has i
  tracked : ∀ (id : ℕ) c, s.connections[id]? = some c → c.stage.informed = true →
    ∃ hasPieces, s.Tracks id c hasPieces

/-- A change of the queues keeps the news that are on the way. -/
theorem Informs.requeue (h : s.Informs) (hmanager : t.manager = s.manager)
    (hdownload : t.download = s.download) (hconnections : t.connections = s.connections)
    (hposted : t.posted ≤ s.download.sent.length)
    (hpending : ∀ e ∈ t.pending, ∀ i, e.Completes i → s.download.Has i)
    (hbroadcasting : ∀ b, t.broadcasting = some b → ∀ i, b.ipc.Completes i → s.download.Has i)
    (hcoming : ∀ (id : ℕ) c, s.connections[id]? = some c → c.stage.informed = true →
      s.Registered id → ∀ i, s.Coming id i → (∃ ipc ∈ c.ipcs, ipc.Completes i) ∨ t.Coming id i) :
    t.Informs := by
  have hregistered : ∀ id, t.Registered id ↔ s.Registered id := by
    intro id
    rw [Registered, Registered, hmanager]
  constructor
  · rw [hdownload]
    exact h.wellFormed
  · rw [hdownload]
    exact hposted
  · rw [hconnections, hmanager]
    exact h.length_connections
  · intro id hid
    rw [hmanager]
    exact h.entries id ((hregistered id).mp hid)
  · rw [hdownload]
    exact hpending
  · rw [hdownload]
    exact hbroadcasting
  · rw [hconnections, hdownload]
    exact h.ipcs
  · intro id c hc hinformed
    rw [hconnections] at hc
    obtain ⟨hasPieces, htracks⟩ := h.tracked id c hc hinformed
    refine ⟨hasPieces, htracks.knows, ?_, ?_, ?_⟩
    · rw [hdownload]
      exact htracks.length
    · rw [hdownload]
      exact htracks.sound
    · intro hid i hi
      rw [hregistered] at hid
      rw [hdownload] at hi
      rcases htracks.complete hid i hi with hknown | hipcs | hcome
      · exact Or.inl hknown
      · exact Or.inr (Or.inl hipcs)
      · exact Or.inr (hcoming id c hc hinformed hid i hcome)

/-- A change of one connection. -/
theorem Informs.setConnection (h : s.Informs) {c' : Connection}
    (hc : s.connections[id]? = some c)
    (hipcs : ∀ ipc ∈ c'.ipcs, ∀ i, ipc.Completes i → s.download.Has i)
    (htracked : c'.stage.informed = true → ∃ hasPieces, s.Tracks id c' hasPieces) :
    (s.setConnection id c').Informs := by
  have hget : ∀ (j : ℕ) x, (s.setConnection id c').connections[j]? = some x →
      (j = id ∧ x = c') ∨ s.connections[j]? = some x := by
    intro j x hx
    rw [Client.setConnection, List.getElem?_set] at hx
    split_ifs at hx with hj hlt
    · exact Or.inl ⟨hj.symm, (Option.some.inj hx).symm⟩
    · exact Or.inr hx
  refine ⟨h.wellFormed, h.posted, ?_, h.entries, h.pending, h.broadcasting, ?_, ?_⟩
  · rw [Client.setConnection, List.length_set]
    exact h.length_connections
  · intro j x hx
    rcases hget j x hx with ⟨rfl, rfl⟩ | hx
    · exact hipcs
    · exact h.ipcs j x hx
  · intro j x hx hinformed
    rcases hget j x hx with ⟨rfl, rfl⟩ | hx
    · obtain ⟨hasPieces, htracks⟩ := htracked hinformed
      exact ⟨hasPieces, htracks.knows, htracks.length, htracks.sound, htracks.complete⟩
    · obtain ⟨hasPieces, htracks⟩ := h.tracked j x hx hinformed
      exact ⟨hasPieces, htracks.knows, htracks.length, htracks.sound, htracks.complete⟩

/-- A round of the manager starts new connections, which have not asked for the pieces yet. -/
theorem Informs.afterRound (h : s.Informs) {m : Manager} (hgrows : s.manager.Grows m) :
    (s.afterRound m).Informs := by
  have hget : ∀ (j : ℕ) x, (s.afterRound m).connections[j]? = some x →
      s.connections[j]? = some x ∨ x = Connection.new := by
    intro j x hx
    rw [Client.afterRound, List.getElem?_append] at hx
    split_ifs at hx with hj
    · exact Or.inl hx
    · rw [List.getElem?_replicate] at hx
      split_ifs at hx
      exact Or.inr (Option.some.inj hx).symm
  have hregistered : ∀ j < s.connections.length, (s.afterRound m).Registered j →
      s.Registered j := by
    rintro j hj ⟨peer, hpeer⟩
    rcases hgrows.entries peer j hpeer with hold | hnew
    · exact ⟨peer, hold⟩
    · have := h.length_connections
      omega
  refine ⟨h.wellFormed, h.posted, ?_, ?_, h.pending, h.broadcasting, ?_, ?_⟩
  · have hle := hgrows.started
    rw [Client.afterRound, List.length_append, List.length_replicate]
    rw [← h.length_connections] at hle
    exact Nat.add_sub_cancel' hle
  · rintro j ⟨peer, hpeer⟩
    rcases hgrows.entries peer j hpeer with hold | hnew
    · exact Nat.lt_of_lt_of_le (h.entries j ⟨peer, hold⟩) hgrows.started
    · exact hnew.2
  · intro j x hx
    rcases hget j x hx with hold | rfl
    · exact h.ipcs j x hold
    · intro ipc hipc
      cases hipc
  · intro j x hx hinformed
    rcases hget j x hx with hold | rfl
    · obtain ⟨hasPieces, htracks⟩ := h.tracked j x hold hinformed
      have hj := (List.getElem?_eq_some_iff.mp hold).1
      exact ⟨hasPieces, htracks.knows, htracks.length, htracks.sound,
        fun hid => htracks.complete (hregistered j hj hid)⟩
    · cases hinformed

/-- The pieces that an event completes are among its broadcasts. -/
theorem Informs.announce (h : s.Informs) {d : Download} (hd : d.WellFormed)
    (hannounces : Download.Announces s.download d) (toDownload : List (ℕ × ManagerEvent)) :
    Informs { s with download := d, toDownload } := by
  obtain ⟨hlength, news, hsent, hhas⟩ := hannounces
  have hpending : Client.pending { s with download := d, toDownload } = s.pending ++ news := by
    rw [Client.pending, Client.pending, hsent, List.drop_append_of_le_length h.posted,
      List.append_assoc]
  have hgrows : ∀ i, s.download.Has i → d.Has i := fun i hi => (hhas i).mpr (Or.inl hi)
  refine ⟨hd, ?_, h.length_connections, h.entries, ?_, ?_, ?_, ?_⟩
  · rw [hsent, List.length_append]
    exact Nat.le_add_right_of_le h.posted
  · intro e he i hi
    rw [hpending, List.mem_append] at he
    rcases he with hold | hnew
    · exact hgrows i (h.pending e hold i hi)
    · exact (hhas i).mpr (Or.inr ⟨e, hnew, hi⟩)
  · exact fun b hb i hi => hgrows i (h.broadcasting b hb i hi)
  · exact fun j x hx ipc hipc i hi => hgrows i (h.ipcs j x hx ipc hipc i hi)
  · intro j x hx hinformed
    obtain ⟨hasPieces, htracks⟩ := h.tracked j x hx hinformed
    refine ⟨hasPieces, htracks.knows, htracks.length.trans hlength.symm,
      fun i hi => hgrows i (htracks.sound i hi), fun hid i hi => ?_⟩
    have hcoming : ∀ hold : s.Coming j i, Coming { s with download := d, toDownload } j i := by
      rintro (hsending | ⟨e, he, hei⟩)
      · exact Or.inl hsending
      · refine Or.inr ⟨e, ?_, hei⟩
        rw [hpending]
        exact List.mem_append_left _ he
    rcases (hhas i).mp hi with hold | ⟨e, he, hei⟩
    · rcases htracks.complete hid i hold with hknown | hipcs | hcome
      · exact Or.inl hknown
      · exact Or.inr (Or.inl hipcs)
      · exact Or.inr (Or.inr (hcoming hcome))
    · refine Or.inr (Or.inr (Or.inr ⟨e, ?_, hei⟩))
      rw [hpending]
      exact List.mem_append_right _ he

/-- The channels of the download task and of the notifications carry no news. -/
theorem Informs.withQueues (h : s.Informs) (toDownload : List (ℕ × ManagerEvent))
    (disconnects : List Peer) : Informs { s with toDownload, disconnects } :=
  h.requeue rfl rfl rfl h.posted h.pending h.broadcasting fun _ _ _ _ _ _ hcome => Or.inr hcome

/-- The handler of a connection goes on. -/
theorem Tracks.progress {hasPieces : List Bool} (h : s.Tracks id c hasPieces) {stage : Stage}
    {ipcs : List IPC} (hknows : stage.Knows hasPieces) (hipcs : c.ipcs ⊆ ipcs)
    (writer : List Message) : s.Tracks id ⟨stage, ipcs, writer⟩ hasPieces := by
  refine ⟨hknows, h.length, h.sound, fun hid i hi => ?_⟩
  rcases h.complete hid i hi with hknown | ⟨ipc, hipc, hcompletes⟩ | hcome
  · exact Or.inl hknown
  · exact Or.inr (Or.inl ⟨ipc, hipcs hipc, hcompletes⟩)
  · exact Or.inr (Or.inr hcome)

/-- An ipc that is handled is known from then on. -/
theorem Tracks.take {conn : PeerConnection} {ipc : IPC} {ipcs : List IPC}
    (h : s.Tracks id c conn.me.hasPieces) (hipcs : c.ipcs = ipc :: ipcs)
    (hnews : ∀ i, ipc.Completes i → s.download.Has i) (writer : List Message) :
    s.Tracks id ⟨.looping (.running (PeerConnection.handleIpc ipc conn)), ipcs, writer⟩
      (PeerConnection.markCompleted ipc conn.me.hasPieces) := by
  have hlength : (PeerConnection.markCompleted ipc conn.me.hasPieces).length =
      conn.me.hasPieces.length := by
    unfold PeerConnection.markCompleted
    split
    · exact List.length_set
    · rfl
  have hget : ∀ i, (PeerConnection.markCompleted ipc conn.me.hasPieces)[i]? = some true ↔
      conn.me.hasPieces[i]? = some true ∨ (ipc.Completes i ∧ i < conn.me.hasPieces.length) := by
    intro i
    cases ipc with
    | pieceCompleted pieceIndex =>
      simp only [PeerConnection.markCompleted, IPC.Completes, List.getElem?_set]
      by_cases hi : pieceIndex.toNat = i
      · subst hi
        by_cases hlt : pieceIndex.toNat < conn.me.hasPieces.length
        · simp [hlt]
        · simp [hlt]
      · simp [hi]
    | _ => simp [PeerConnection.markCompleted, IPC.Completes]
  refine ⟨.handle ipc conn, hlength.trans h.length, fun i hi => ?_, fun hid i hi => ?_⟩
  · rcases (hget i).mp hi with hold | hnew
    · exact h.sound i hold
    · exact hnews i hnew.1
  · rcases h.complete hid i hi with hknown | ⟨ipc', hmem, hcompletes⟩ | hcome
    · exact Or.inl ((hget i).mpr (Or.inl hknown))
    · rw [hipcs, List.mem_cons] at hmem
      rcases hmem with rfl | hmem
      · have hlt : i < s.download.havePieces.length := (List.getElem?_eq_some_iff.mp hi).1
        rw [Download.havePieces, List.length_map, ← h.length] at hlt
        exact Or.inl ((hget i).mpr (Or.inr ⟨hcompletes, hlt⟩))
      · exact Or.inr (Or.inl ⟨ipc', hmem, hcompletes⟩)
    · exact Or.inr (Or.inr hcome)

/-- The answer of the download task tells a connection all there is to know. -/
theorem tracks_havePieces (s : Client) (id : ℕ) (ipcs : List IPC) (writer : List Message) :
    s.Tracks id ⟨.connecting s.download.havePieces, ipcs, writer⟩ s.download.havePieces :=
  ⟨.connecting _, List.length_map _, fun _ hi => hi, fun _ _ hi => Or.inl hi⟩

end Client
end TorrentClient
