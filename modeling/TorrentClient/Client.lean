import TorrentClient.ConnectedDownload
import TorrentClient.Manager

/-!
# The client

The manager, the download task and the tasks of all connections side by side. `connect` puts
the sender of a connection into the map of peers and starts its task, which asks the download
task for the pieces there are, connects to the peer and then handles one IPC event after the
other. The channels between the tasks are lists. No send fails, except that a broadcast does
not reach a connection whose task has ended.
-/
namespace TorrentClient
open EffectPrograms TransitionRuns

/-- How far the task of a connection has got. -/
inductive Stage where
  | starting
  | awaitingPieces
  /-- connecting and shaking hands, with the answer of the download task -/
  | connecting (havePieces : List Bool)
  | looping (phase : Phase)
  /-- the task has told the manager that its loop is over -/
  | notified
  /-- a handler has panicked, and the task is gone without a word to the manager -/
  | panicked

structure Connection where
  stage : Stage
  ipcs : List IPC
  writer : List Message

/-- A broadcast in whose first loop the manager is. -/
structure Broadcasting where
  ipc : IPC
  /-- the order in which the hash map `peers` is walked -/
  order : List (Sigma fun _ : Peer => ℕ)
  remaining : List (Sigma fun _ : Peer => ℕ)
  /-- the connections that the send did not reach -/
  lost : List ℕ

structure Client where
  manager : Manager
  /-- the unbounded channel of the manager -/
  events : List ManagerEvent
  broadcasting : Option Broadcasting
  disconnects : List Peer
  download : Download
  /-- how many of the events in `download.sent` have gone into `events` -/
  posted : ℕ
  /-- the events for the download task, each with the connection that sent it -/
  toDownload : List (ℕ × ManagerEvent)
  /-- the connections in the order in which they were started -/
  connections : List Connection

inductive ClientAction where
  /-- a tracker task or the listener sends to the manager -/
  | outsideSends (e : ManagerEvent)
  | managerHandles
  | managerBroadcasts (order : List (Sigma fun _ : Peer => ℕ))
  | managerSends
  | managerFinishes
  | managerDisconnects
  | downloadPosts
  | downloadHandles
  | connectionRequires (id : ℕ)
  | connectionConnects (id : ℕ)
  | connectionFails (id : ℕ)
  /-- the read loop passes on a message of the peer -/
  | peerSends (id : ℕ) (m : Message)
  | connectionTakes (id : ℕ)
  /-- the handler makes its next call; `choice` picks among the keys of a map -/
  | connectionCalls (id choice : ℕ)
  | connectionReturns (id : ℕ)
  /-- the read loop is over -/
  | connectionCloses (id : ℕ)
  | connectionNotifies (id : ℕ)
  | writerWrites (id : ℕ)

/-- What the tasks outside of this model send to the manager. -/
def ManagerEvent.fromOutside : ManagerEvent → Bool
  | .connection .. => true
  | .requirePieceLength => true
  | .tracker _ => true
  | _ => false

namespace Stage

/-- The receiver of the IPC channel is gone. -/
def isOver : Stage → Bool
  | looping .ended => true
  | notified => true
  | panicked => true
  | _ => false

/-- The task goes on with the answer to its request. -/
def answer : Stage → Download.Reply → Option Stage
  | stage, .none => some stage
  | awaitingPieces, .havePieces pieces => some (.connecting pieces)
  | looping phase, reply => (phase.answer reply).map .looping
  | _, _ => none

/-- `me.has_pieces` between two events, and before the first one the answer it is made from. -/
def hasPieces : Stage → Option (List Bool)
  | connecting havePieces => some havePieces
  | looping (.idle conn) => some conn.me.hasPieces
  | _ => none

end Stage

def Connection.new : Connection := ⟨.starting, [], []⟩

namespace Client

/-- The client when the manager enters its loop. -/
def start (manager : Manager) (download : Download) : Client where
  manager
  events := []
  broadcasting := none
  disconnects := []
  download
  posted := download.sent.length
  toDownload := []
  connections := []

/-- The manager after a round, with the tasks of the connections that it started. -/
def afterRound (s : Client) (manager : Manager) : Client :=
  { s with
    manager
    connections := s.connections ++
      List.replicate (manager.started.length - s.connections.length) Connection.new }

def setConnection (s : Client) (id : ℕ) (c : Connection) : Client :=
  { s with connections := s.connections.set id c }

/-- How the sends of a round go; those of a broadcast have been made. -/
def receivers (order : List (Sigma fun _ : Peer => ℕ)) (lost : List ℕ) : Receivers :=
  ⟨order, fun id => !lost.contains id, true, true⟩

/-- One move of one task. An event on which the manager or the download task fails ends that
task, and nothing is taken from its channel any more. -/
inductive Moves (sha1 : Bytes → Sha1) (s : Client) : ClientAction → Client → Prop where
  | outsideSends {e : ManagerEvent} (he : e.fromOutside = true) :
      Moves sha1 s (.outsideSends e) { s with events := s.events ++ [e] }
  | handles {e : ManagerEvent} {events : List ManagerEvent} {r : Option ℕ} {manager : Manager}
      (hidle : s.broadcasting = none) (hqueue : s.events = e :: events) (hother : e.passedOn = [])
      (handled : Manager.handleInput (.event e (receivers [] [])) s.manager = .ok r manager) :
      Moves sha1 s .managerHandles (afterRound { s with events } manager)
  | broadcasts {ipc : IPC} {events : List ManagerEvent}
      {order : List (Sigma fun _ : Peer => ℕ)} (hidle : s.broadcasting = none)
      (hqueue : s.events = .broadcast ipc :: events) (horder : order.Perm s.manager.peers.entries) :
      Moves sha1 s (.managerBroadcasts order)
        { s with events, broadcasting := some ⟨ipc, order, order, []⟩ }
  | reaches {b : Broadcasting} {entry : Sigma fun _ : Peer => ℕ}
      {remaining : List (Sigma fun _ : Peer => ℕ)} {c : Connection}
      (hsending : s.broadcasting = some b) (hnext : b.remaining = entry :: remaining)
      (hc : s.connections[entry.2]? = some c) (hover : c.stage.isOver = false) :
      Moves sha1 s .managerSends
        (setConnection { s with broadcasting := some { b with remaining } } entry.2
          { c with ipcs := c.ipcs ++ [b.ipc] })
  | misses {b : Broadcasting} {entry : Sigma fun _ : Peer => ℕ}
      {remaining : List (Sigma fun _ : Peer => ℕ)} {c : Connection}
      (hsending : s.broadcasting = some b) (hnext : b.remaining = entry :: remaining)
      (hc : s.connections[entry.2]? = some c) (hover : c.stage.isOver = true) :
      Moves sha1 s .managerSends
        { s with broadcasting := some { b with remaining, lost := b.lost ++ [entry.2] } }
  | finishes {b : Broadcasting} {r : Option ℕ} {manager : Manager}
      (hsending : s.broadcasting = some b) (hdone : b.remaining = [])
      (handled : Manager.handleInput (.event (.broadcast b.ipc) (receivers b.order b.lost))
        s.manager = .ok r manager) :
      Moves sha1 s .managerFinishes (afterRound { s with broadcasting := none } manager)
  | disconnects {peer : Peer} {disconnects : List Peer} {r : Option ℕ} {manager : Manager}
      (hidle : s.broadcasting = none) (hqueue : s.disconnects = peer :: disconnects)
      (handled : Manager.handleInput (.disconnect peer) s.manager = .ok r manager) :
      Moves sha1 s .managerDisconnects (afterRound { s with disconnects } manager)
  | posts {e : ManagerEvent} (hsent : s.download.sent[s.posted]? = some e) :
      Moves sha1 s .downloadPosts { s with events := s.events ++ [e], posted := s.posted + 1 }
  | downloadHandles {id : ℕ} {e : ManagerEvent} {toDownload : List (ℕ × ManagerEvent)}
      {reply : Download.Reply} {download : Download} {c : Connection} {stage : Stage}
      (hposted : s.download.sent.length ≤ s.posted) (hqueue : s.toDownload = (id, e) :: toDownload)
      (handled : Download.handleEvent sha1 e s.download = .ok reply download)
      (hc : s.connections[id]? = some c) (hanswer : c.stage.answer reply = some stage) :
      Moves sha1 s .downloadHandles
        (setConnection { s with download, toDownload } id { c with stage })
  | requires {id : ℕ} {c : Connection} (hc : s.connections[id]? = some c)
      (hstage : c.stage = .starting) :
      Moves sha1 s (.connectionRequires id)
        (setConnection { s with toDownload := s.toDownload ++ [(id, .requireHavePieces)] } id
          { c with stage := .awaitingPieces })
  | connects {id : ℕ} {c : Connection} {havePieces : List Bool}
      (hc : s.connections[id]? = some c) (hstage : c.stage = .connecting havePieces) :
      Moves sha1 s (.connectionConnects id)
        (s.setConnection id { c with
          stage := .looping (.running (PeerConnection.sendBitfield (.new havePieces))) })
  | fails {id : ℕ} {c : Connection} {havePieces : List Bool}
      (hc : s.connections[id]? = some c) (hstage : c.stage = .connecting havePieces) :
      Moves sha1 s (.connectionFails id) (s.setConnection id { c with stage := .looping .ended })
  | peerSends {id : ℕ} {c : Connection} {phase : Phase} {m : Message}
      (hc : s.connections[id]? = some c) (hstage : c.stage = .looping phase) :
      Moves sha1 s (.peerSends id m) (s.setConnection id { c with ipcs := c.ipcs ++ [.message m] })
  | takes {id : ℕ} {c : Connection} {conn : PeerConnection} {ipc : IPC} {ipcs : List IPC}
      (hc : s.connections[id]? = some c) (hstage : c.stage = .looping (.idle conn))
      (hipcs : c.ipcs = ipc :: ipcs) :
      Moves sha1 s (.connectionTakes id)
        (s.setConnection id { c with
          ipcs
          stage := .looping (.running (PeerConnection.handleIpc ipc conn)) })
  | calls {id choice : ℕ} {c : Connection} {e : Call} {next : e.Reply → PendingHandler}
      {phase : Phase} {messages : List Message} {events : List ManagerEvent}
      (hc : s.connections[id]? = some c) (hstage : c.stage = .looping (.running (.call e next)))
      (hperform : PeerConnection.perform choice e next = some (phase, messages, events)) :
      Moves sha1 s (.connectionCalls id choice)
        (setConnection { s with toDownload := s.toDownload ++ events.map (id, ·) } id
          { c with stage := .looping phase, writer := c.writer ++ messages })
  | returns {id : ℕ} {c : Connection} {conn : PeerConnection} (hc : s.connections[id]? = some c)
      (hstage : c.stage = .looping (.running (.done (.ok ((), conn))))) :
      Moves sha1 s (.connectionReturns id)
        (s.setConnection id { c with stage := .looping (.idle conn) })
  | stops {id : ℕ} {c : Connection} {e : String} (hc : s.connections[id]? = some c)
      (hstage : c.stage = .looping (.running (.done (.error (.err e))))) :
      Moves sha1 s (.connectionReturns id) (s.setConnection id { c with stage := .looping .ended })
  | panics {id : ℕ} {c : Connection} (hc : s.connections[id]? = some c)
      (hstage : c.stage = .looping (.running (.done (.error .panic)))) :
      Moves sha1 s (.connectionReturns id) (s.setConnection id { c with stage := .panicked })
  | closes {id : ℕ} {c : Connection} {conn : PeerConnection} (hc : s.connections[id]? = some c)
      (hstage : c.stage = .looping (.idle conn)) :
      Moves sha1 s (.connectionCloses id) (s.setConnection id { c with stage := .looping .ended })
  | notifies {id : ℕ} {c : Connection} {sendHandshakeFirst : Bool} {peer : Peer}
      (hc : s.connections[id]? = some c) (hstage : c.stage = .looping .ended)
      (hpeer : s.manager.started[id]? = some (sendHandshakeFirst, peer)) :
      Moves sha1 s (.connectionNotifies id)
        (setConnection { s with disconnects := s.disconnects ++ [peer] } id
          { c with stage := .notified })
  | writes {id : ℕ} {c : Connection} {m : Message} {writer : List Message}
      (hc : s.connections[id]? = some c) (hwriter : c.writer = m :: writer) :
      Moves sha1 s (.writerWrites id)
        (s.setConnection id { c with writer, ipcs := c.ipcs ++ m.uploaded })

theorem passedOn_of_fromOutside {e : ManagerEvent} (h : e.fromOutside = true) :
    e.passedOn = [] := by
  cases e with
  | broadcast ipc => cases h
  | _ => rfl

/-- No event and no ipc is on its way. What is left in the channel of a connection whose loop is
over has been dropped with it. -/
structure Quiet (s : Client) : Prop where
  events : s.events = []
  broadcasting : s.broadcasting = none
  posted : s.download.sent.length ≤ s.posted
  toDownload : s.toDownload = []
  ipcs : ∀ (id : ℕ) c, s.connections[id]? = some c → c.stage.isOver = false → c.ipcs = []

end Client
end TorrentClient
