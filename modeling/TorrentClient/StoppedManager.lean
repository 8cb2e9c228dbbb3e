import TorrentClient.BlockedManager

/-!
# A peer that stops the manager

The own moves of a connection are moves of the client. So a peer that leaves while a piece is
written to it, with enough of its messages unread, blocks its connection without the help of any
other task, and the next broadcast never ends.
-/
namespace TorrentClient
open EffectPrograms TransitionRuns

namespace ClientTasks

variable {sha1 : Bytes → Sha1} {s u : ClientTasks} {id : ℕ} {c : ConnectionTask}
  {tasks tasks' : ConnectionTasks} {awaiting : Bool}

theorem setConnection_set (s : ClientTasks) (id : ℕ) (c c' : ConnectionTask) :
    (s.setConnection id c).setConnection id c' = s.setConnection id c' := by
  simp [setConnection]

theorem setConnection_setLoop_self (hc : s.connections[id]? = some c)
    (hstage : c.stage = .looping tasks awaiting) :
    s.setConnection id (c.setLoop tasks awaiting) = s := by
  obtain ⟨hlt, hget⟩ := List.getElem?_eq_some_iff.mp hc
  have hsame : c.setLoop tasks awaiting = c := by
    rw [ConnectionTask.setLoop, ← hstage]
  rw [hsame, setConnection, ← hget, List.set_getElem_self]

/-- All moves are such that the tasks of one connection make by themselves. -/
def OwnMoves (id : ℕ) (trace : List (Step ClientTasks ClientTaskAction)) : Prop :=
  ∀ x ∈ trace, ∃ a : TaskAction, a.isOwn = true ∧ x.label = .connectionActs id a

/-- The client after moves that only the tasks of one connection have made. -/
def Gets (sha1 : Bytes → Sha1) (s : ClientTasks) (id : ℕ) (c : ConnectionTask) (awaiting : Bool)
    (tasks : ConnectionTasks) : Prop :=
  ∃ trace, Run (Moves sha1) s trace (s.setConnection id (c.setLoop tasks awaiting)) ∧
    OwnMoves id trace

theorem Gets.act {a : TaskAction} (h : Gets sha1 s id c awaiting tasks)
    (hid : id < s.connections.length) (hown : a.isOwn = true) (hgoing : a ≠ .returns)
    (hact : ConnectionTasks.actStep tasks a tasks') : Gets sha1 s id c awaiting tasks' := by
  obtain ⟨trace, run, htrace⟩ := h
  have hc : (s.setConnection id (c.setLoop tasks awaiting)).connections[id]? =
      some (c.setLoop tasks awaiting) := List.getElem?_set_self hid
  have hmove : Moves sha1 (s.setConnection id (c.setLoop tasks awaiting)) (.connectionActs id a)
      ((s.setConnection id (c.setLoop tasks awaiting)).setConnection id
        ((c.setLoop tasks awaiting).setLoop tasks' awaiting)) :=
    .acts hown hc rfl (fun hpanics => hgoing hpanics.1) hact
  rw [setConnection_set] at hmove
  exact ⟨_, run.snoc hmove,
    List.forall_mem_append.mpr ⟨htrace, List.forall_mem_singleton.mpr ⟨a, hown, rfl⟩⟩⟩

theorem Gets.read {n : ℕ} (h : Gets sha1 s id c awaiting tasks) (hid : id < s.connections.length)
    (hloop : tasks.loop.isReceiver = true) (hroom : tasks.ipcs.length + n ≤ channelCapacity) :
    Gets sha1 s id c awaiting
      { tasks with ipcs := tasks.ipcs ++ List.replicate n (IPC.message .keepAlive) } := by
  induction n with
  | zero => simpa using h
  | succ n ih =>
    have hlt : (tasks.ipcs ++ List.replicate n (IPC.message .keepAlive)).length <
        channelCapacity := by
      rw [List.length_append, List.length_replicate]
      omega
    have hreads : ConnectionTasks.actStep
        { tasks with ipcs := tasks.ipcs ++ List.replicate n (IPC.message .keepAlive) }
        (.reads .keepAlive)
        { tasks with ipcs := tasks.ipcs ++ List.replicate n (IPC.message .keepAlive) ++
          [IPC.message .keepAlive] } := ConnectionTasks.deliver_of_room hloop hlt
    have hnext := (ih (Nat.le_of_succ_le hroom)).act hid rfl (by simp) hreads
    simpa [List.replicate_succ'] using hnext

/-- The peer sends until its messages find no room. -/
theorem Gets.fill (h : Gets sha1 s id c awaiting tasks) (hid : id < s.connections.length)
    (hloop : tasks.loop.isReceiver = true) :
    ∃ ipcs, Gets sha1 s id c awaiting { tasks with ipcs } ∧ channelCapacity ≤ ipcs.length := by
  rcases Nat.le_total channelCapacity tasks.ipcs.length with hfull | hroom
  · exact ⟨tasks.ipcs, h, hfull⟩
  · have hfill : tasks.ipcs.length + (channelCapacity - tasks.ipcs.length) ≤ channelCapacity := by
      omega
    refine ⟨_, h.read hid hloop hfill, ?_⟩
    rw [List.length_append, List.length_replicate]
    omega

/-- The write loop reports the upload in its hands. -/
theorem Gets.report (h : Gets sha1 s id c awaiting tasks) (hid : id < s.connections.length)
    (hupload : tasks.writeLoop.holdsUpload = true) :
    Gets sha1 s id c awaiting { tasks with writeLoop := .notifying } := by
  obtain ⟨loop, writeLoop, ipcs, writer⟩ := tasks
  cases writeLoop with
  | writing m =>
    have hm : m.isBlockUpload = true := hupload
    have hwrites : ConnectionTasks.actStep ⟨loop, .writing m, ipcs, writer⟩ .writes
        ⟨loop, .notifying, ipcs, writer⟩ := by
      simp [ConnectionTasks.actStep, ConnectionTasks.act, hm]
    exact h.act hid rfl (by simp) hwrites
  | notifying => exact h
  | _ => cases hupload

/-- A connection between two events, with an upload in the hands of its write loop, can be
blocked by its peer. -/
theorem exists_blocked {conn : PeerConnection} (hc : s.connections[id]? = some c)
    (hstage : c.stage = .looping tasks awaiting) (hloop : tasks.loop = .idle conn)
    (hupload : tasks.writeLoop.holdsUpload = true) :
    ∃ blocked, ConnectionTasks.Blocked blocked ∧ Gets sha1 s id c awaiting blocked := by
  have hid := (List.getElem?_eq_some_iff.mp hc).1
  have hstart : Gets sha1 s id c awaiting tasks := by
    rw [Gets, setConnection_setLoop_self hc hstage]
    exact ⟨[], .nil, List.forall_mem_nil _⟩
  obtain ⟨loop, writeLoop, ipcs, writer⟩ := tasks
  cases hloop
  obtain ⟨ipcs', hfill, hfull⟩ := (hstart.report hid hupload).fill hid rfl
  have hleaves : ConnectionTasks.actStep ⟨.idle conn, .notifying, ipcs', writer⟩ .shutsDown
      ⟨.closing, .notifying, ipcs', writer⟩ := rfl
  exact ⟨_, ⟨rfl, hfull, Or.inl rfl⟩, hfill.act hid rfl (by simp) hleaves⟩

/-- Where the next event of the manager is a broadcast, a connected peer that is just sent a piece
can bring the client to a state from which on the manager never handles anything again: before
the broadcast begins only the tasks of its connection move. -/
theorem peer_can_stop_manager {entry : Sigma fun _ : Peer => ℕ} {ipc : IPC}
    {events : List ManagerEvent} {conn : PeerConnection} (hidle : s.broadcasting = none)
    (hqueue : s.events = .broadcast ipc :: events) (hentry : entry ∈ s.manager.peers.entries)
    (hc : s.connections[entry.2]? = some c) (hstage : c.stage = .looping tasks awaiting)
    (hloop : tasks.loop = .idle conn) (hupload : tasks.writeLoop.holdsUpload = true) :
    ∃ trace before order t, Run (Moves sha1) s trace before ∧ OwnMoves entry.2 trace ∧
      Moves sha1 before (.managerBroadcasts order) t ∧ t.events = events ∧
      ∀ u, Reachable (Moves sha1) t u →
        u.manager = s.manager ∧ u.broadcasting ≠ none ∧ events <+: u.events ∧
          s.disconnects <+: u.disconnects := by
  have hblock : ∃ blocked, ConnectionTasks.Blocked blocked ∧
      Gets sha1 s entry.2 c awaiting blocked := exists_blocked hc hstage hloop hupload
  obtain ⟨blocked, hblocked, trace, run, htrace⟩ := hblock
  have hid := (List.getElem?_eq_some_iff.mp hc).1
  let t : ClientTasks := { s.setConnection entry.2 (c.setLoop blocked awaiting) with
    events
    broadcasting := some ⟨ipc, s.manager.peers.entries, s.manager.peers.entries, []⟩ }
  have hbroadcasts : Moves sha1 (s.setConnection entry.2 (c.setLoop blocked awaiting))
      (.managerBroadcasts s.manager.peers.entries) t :=
    .broadcasts hidle hqueue (List.Perm.refl _)
  have hconnection : t.connections[entry.2]? = some (c.setLoop blocked awaiting) :=
    List.getElem?_set_self hid
  refine ⟨trace, _, _, t, run, htrace, hbroadcasts, rfl, fun u hu => ?_⟩
  have hheld : HeldUp entry (c.setLoop blocked awaiting) t u :=
    heldUp_of_reachable hconnection rfl hblocked rfl hentry hu
  obtain ⟨b, hsending, -⟩ := hheld.sending
  refine ⟨hheld.manager, ?_, hheld.events, hheld.disconnects⟩
  rw [hsending]
  exact fun hnone => by cases hnone

def uploadingLoops : ConnectionTasks := ⟨.idle (.new [true]), .writing (.piece 0 0 [7]), [], []⟩

/-- The client sends a block to the peer while the news of a completed piece come in. -/
def uploadingClient : ClientTasks :=
  { blockedClient with
    manager := blockedClient.manager.connected true ⟨"10.0.0.1", 6881⟩
    events := [.broadcast (.pieceCompleted 0)]
    broadcasting := none
    connections := [⟨.looping uploadingLoops false, [], false, false⟩] }

theorem peer_can_stop_manager_uploading :
    ∃ trace before order t, Run (Moves fun _ => Sha1.replicate 0) uploadingClient trace before ∧
      OwnMoves 0 trace ∧ Moves (fun _ => Sha1.replicate 0) before (.managerBroadcasts order) t ∧
      t.events = [] ∧
      ∀ u, Reachable (Moves fun _ => Sha1.replicate 0) t u →
        u.manager = uploadingClient.manager ∧ u.broadcasting ≠ none ∧ [] <+: u.events ∧
          uploadingClient.disconnects <+: u.disconnects := by
  have hentry : blockedPeer ∈ uploadingClient.manager.peers.entries := List.mem_singleton_self _
  exact peer_can_stop_manager rfl rfl hentry rfl rfl rfl rfl

end ClientTasks
end TorrentClient
