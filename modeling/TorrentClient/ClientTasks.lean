import TorrentClient.Client
import TorrentClient.ConnectionTasks

/-!
# The tasks of the client and their bounded channels

The manager, the download task and all connections with their write loops, where a send waits
as long as its channel is full. A task that is over drops its channels, so that sends to it fail
from then on. So do the sends of the manager and of a connection that wait by then, which
`futures` lets return `Ok`: the notification of the connection or its next call finds out. A
connection that has returned tells the manager, and one whose task has panicked does not, for
`connect` sends behind the `await` of the loop. The trackers and the peers are open: the trackers
announce any peers, and a peer sends any messages and may leave at any time.
-/
namespace TorrentClient
open EffectPrograms TransitionRuns

/-- How far the task of a connection has got. -/
inductive ConnectionStage where
  | starting
  | awaitingPieces
  /-- connecting and shaking hands, with the answer of the download task -/
  | connecting (havePieces : List Bool)
  /-- `awaiting` tells that the call of the loop has been sent to the download task -/
  | looping (tasks : ConnectionTasks) (awaiting : Bool)
  /-- over before its loop began -/
  | failed

structure ConnectionTask where
  stage : ConnectionStage
  /-- the events that wait for the loop to begin -/
  early : List IPC
  /-- the manager has been told that the connection is over -/
  notified : Bool
  /-- the task is over by a panic, which unwinds past the notification -/
  panicked : Bool

structure ClientTasks where
  manager : Manager
  /-- the tasks spawned for a tracker message, with the peers that are left to announce -/
  announcers : List (List Peer)
  /-- the unbounded channel of the manager -/
  events : List ManagerEvent
  broadcasting : Option Broadcasting
  disconnects : List Peer
  download : Download
  /-- `download_loop` has failed -/
  downloadOver : Bool
  /-- how many of the events in `download.sent` have gone into `events` -/
  posted : ℕ
  /-- the events for the download task, each with the connection that sent it -/
  toDownload : List (ℕ × ManagerEvent)
  /-- the connections in the order in which they were started -/
  connections : List ConnectionTask

inductive ClientTaskAction where
  | trackerSends (peers : List Peer)
  | announces (i : ℕ)
  | managerHandles
  | managerBroadcasts (order : List (Sigma fun _ : Peer => ℕ))
  | managerSends
  | managerFinishes
  | managerDisconnects
  | downloadPosts
  | downloadHandles
  | connectionRequires (id : ℕ)
  | connectionConnects (id : ℕ)
  | connectionGivesUp (id : ℕ)
  /-- the loop sends an event to the download task, or finds that it is over -/
  | connectionAsks (id : ℕ)
  /-- the iteration of a map begins with the key at `choice` -/
  | connectionPicks (id choice : ℕ)
  /-- the read loop, the connection loop or the write loop goes on by itself -/
  | connectionActs (id : ℕ) (a : TaskAction)
  /-- the connection loop has waited for the write loop -/
  | connectionEnds (id : ℕ)
  | connectionNotifies (id : ℕ)

namespace Call

/-- The event with which a call asks the download task. -/
def question : Call → Option ManagerEvent
  | requireData request => some (.requireData request)
  | requireIncompleteBlocks pieceIndex => some (.requireIncompleteBlocks pieceIndex)
  | _ => none

/-- The call takes the answer of the download task. -/
def takeReply : (e : Call) → Download.Reply → Option e.Reply
  | requireData _, .data buf => some (some buf)
  | requireIncompleteBlocks _, .incompleteBlocks blocks => some (some blocks)
  | _, _ => none

/-- The result of a call to a task that is over. -/
def refused : (e : Call) → e.Reply
  | send _ => false
  | download _ => false
  | requireData _ => none
  | requireIncompleteBlocks _ => none
  | firstKey n => ⟨0, Nat.succ_pos n⟩

def toDownloadTask : Call → Bool
  | download _ => true
  | requireData _ => true
  | requireIncompleteBlocks _ => true
  | _ => false

end Call

/-- What the tasks of a connection do without the manager and the download task. -/
def TaskAction.isOwn : TaskAction → Bool
  | broadcasts _ => false
  | answers _ => false
  | _ => true

/-- The handler of the loop has panicked, and the loop ends with it. -/
def ConnectionTasks.Panics (tasks : ConnectionTasks) (a : TaskAction) : Prop :=
  a = .returns ∧ tasks.loop = .running (.done (.error .panic))

theorem ConnectionTasks.Panics.isOwn {tasks : ConnectionTasks} {a : TaskAction}
    (h : tasks.Panics a) : a.isOwn = true := by
  rw [h.1]
  rfl

/-- The tasks that the manager spawns for an event. -/
def ManagerEvent.announcers : ManagerEvent → List (List Peer)
  | .tracker (.peers peers) => [peers]
  | _ => []

namespace ConnectionTask

/-- A connection that `connect` has started. -/
def new : ConnectionTask := ⟨.starting, [], false, false⟩

def setLoop (c : ConnectionTask) (tasks : ConnectionTasks) (awaiting : Bool) : ConnectionTask :=
  { c with stage := .looping tasks awaiting }

/-- `peer_conn_loop` has ended, and the receiver of the events is gone. -/
def isOver (c : ConnectionTask) : Bool :=
  match c.stage with
  | .failed => true
  | .looping tasks _ => !tasks.loop.isReceiver
  | _ => false

/-- The send of the manager goes through. -/
def deliver (c : ConnectionTask) (ipc : IPC) : Option ConnectionTask :=
  match c.stage with
  | .looping tasks awaiting => (tasks.deliver ipc).map fun tasks => c.setLoop tasks awaiting
  | .failed => none
  | _ =>
    if c.early.length < channelCapacity then some { c with early := c.early ++ [ipc] } else none

/-- The connection goes on with the answer of the download task. -/
def answer (c : ConnectionTask) (reply : Download.Reply) : Option ConnectionTask :=
  match reply, c.stage with
  | .none, _ => some c
  | .havePieces pieces, .awaitingPieces => some { c with stage := .connecting pieces }
  | reply, .looping tasks true =>
    match tasks.loop with
    | .running (.call e next) =>
      (e.takeReply reply).map fun r => c.setLoop { tasks with loop := .running (next r) } false
    | _ => none
  | _, _ => none

/-- The loop begins with the events that have come in meanwhile. -/
def connected (c : ConnectionTask) (havePieces : List Bool) : ConnectionTask :=
  { c with
    stage := .looping { ConnectionTasks.start havePieces with ipcs := c.early } false
    early := [] }

end ConnectionTask

namespace ClientTasks

/-- The client when the manager enters its loop. -/
def start (manager : Manager) (download : Download) : ClientTasks where
  manager
  announcers := []
  events := []
  broadcasting := none
  disconnects := []
  download
  downloadOver := false
  posted := download.sent.length
  toDownload := []
  connections := []

/-- The manager after a round, with the tasks of the connections that it started. -/
def afterRound (s : ClientTasks) (manager : Manager) : ClientTasks :=
  { s with
    manager
    connections := s.connections ++
      List.replicate (manager.started.length - s.connections.length) ConnectionTask.new }

def setConnection (s : ClientTasks) (id : ℕ) (c : ConnectionTask) : ClientTasks :=
  { s with connections := s.connections.set id c }

/-- A send to the download task goes through. -/
def sendDownload (s : ClientTasks) (id : ℕ) (e : ManagerEvent) : ClientTasks :=
  { s with toDownload := s.toDownload ++ [(id, e)] }

/-- The download task takes events, and its channel is not full. -/
def HasRoom (s : ClientTasks) : Prop :=
  s.downloadOver = false ∧ s.toDownload.length < channelCapacity

/-- One move of one task. -/
inductive Moves (sha1 : Bytes → Sha1) (s : ClientTasks) : ClientTaskAction → ClientTasks → Prop where
  | trackerSends {peers : List Peer} :
      Moves sha1 s (.trackerSends peers) { s with events := s.events ++ [.tracker (.peers peers)] }
  | announces {i : ℕ} {peer : Peer} {peers : List Peer}
      (hpeers : s.announcers[i]? = some (peer :: peers)) :
      Moves sha1 s (.announces i)
        { s with
          announcers := s.announcers.set i peers
          events := s.events ++ [.connection true peer] }
  | handles {e : ManagerEvent} {events : List ManagerEvent} {r : Option ℕ} {manager : Manager}
      (hidle : s.broadcasting = none) (hqueue : s.events = e :: events) (hother : e.passedOn = [])
      (handled : Manager.handleInput (.event e (Client.receivers [] [])) s.manager =
        .ok r manager) :
      Moves sha1 s .managerHandles
        (afterRound { s with events, announcers := s.announcers ++ e.announcers } manager)
  | broadcasts {ipc : IPC} {events : List ManagerEvent}
      {order : List (Sigma fun _ : Peer => ℕ)} (hidle : s.broadcasting = none)
      (hqueue : s.events = .broadcast ipc :: events) (horder : order.Perm s.manager.peers.entries) :
      Moves sha1 s (.managerBroadcasts order)
        { s with events, broadcasting := some ⟨ipc, order, order, []⟩ }
  | reaches {b : Broadcasting} {entry : Sigma fun _ : Peer => ℕ}
      {remaining : List (Sigma fun _ : Peer => ℕ)} {c c' : ConnectionTask}
      (hsending : s.broadcasting = some b) (hnext : b.remaining = entry :: remaining)
      (hc : s.connections[entry.2]? = some c) (hdeliver : c.deliver b.ipc = some c') :
      Moves sha1 s .managerSends
        (setConnection { s with broadcasting := some { b with remaining } } entry.2 c')
  | misses {b : Broadcasting} {entry : Sigma fun _ : Peer => ℕ}
      {remaining : List (Sigma fun _ : Peer => ℕ)} {c : ConnectionTask}
      (hsending : s.broadcasting = some b) (hnext : b.remaining = entry :: remaining)
      (hc : s.connections[entry.2]? = some c) (hover : c.isOver = true) :
      Moves sha1 s .managerSends
        { s with broadcasting := some { b with remaining, lost := b.lost ++ [entry.2] } }
  | finishes {b : Broadcasting} {r : Option ℕ} {manager : Manager}
      (hsending : s.broadcasting = some b) (hdone : b.remaining = [])
      (handled : Manager.handleInput (.event (.broadcast b.ipc) (Client.receivers b.order b.lost))
        s.manager = .ok r manager) :
      Moves sha1 s .managerFinishes (afterRound { s with broadcasting := none } manager)
  | disconnects {peer : Peer} {disconnects : List Peer} {r : Option ℕ} {manager : Manager}
      (hidle : s.broadcasting = none) (hqueue : s.disconnects = peer :: disconnects)
      (handled : Manager.handleInput (.disconnect peer) s.manager = .ok r manager) :
      Moves sha1 s .managerDisconnects (afterRound { s with disconnects } manager)
  | posts {e : ManagerEvent} (hsent : s.download.sent[s.posted]? = some e) :
      Moves sha1 s .downloadPosts { s with events := s.events ++ [e], posted := s.posted + 1 }
  | replies {id : ℕ} {e : ManagerEvent} {toDownload : List (ℕ × ManagerEvent)}
      {reply : Download.Reply} {download : Download} {c c' : ConnectionTask}
      (hgoing : s.downloadOver = false) (hposted : s.download.sent.length ≤ s.posted)
      (hqueue : s.toDownload = (id, e) :: toDownload)
      (handled : Download.handleEvent sha1 e s.download = .ok reply download)
      (hc : s.connections[id]? = some c) (hanswer : c.answer reply = some c') :
      Moves sha1 s .downloadHandles (setConnection { s with download, toDownload } id c')
  | breaks {id : ℕ} {e : ManagerEvent} {toDownload : List (ℕ × ManagerEvent)}
      {error : Fault String} {download : Download}
      (hgoing : s.downloadOver = false) (hposted : s.download.sent.length ≤ s.posted)
      (hqueue : s.toDownload = (id, e) :: toDownload)
      (handled : Download.handleEvent sha1 e s.download = .error error download) :
      Moves sha1 s .downloadHandles { s with download, downloadOver := true, toDownload := [] }
  | requires {id : ℕ} {c : ConnectionTask} (hc : s.connections[id]? = some c)
      (hstage : c.stage = .starting) (hroom : s.HasRoom) :
      Moves sha1 s (.connectionRequires id)
        ((s.sendDownload id .requireHavePieces).setConnection id { c with stage := .awaitingPieces })
  | connects {id : ℕ} {c : ConnectionTask} {havePieces : List Bool}
      (hc : s.connections[id]? = some c) (hstage : c.stage = .connecting havePieces) :
      Moves sha1 s (.connectionConnects id) (s.setConnection id (c.connected havePieces))
  | fails {id : ℕ} {c : ConnectionTask} {havePieces : List Bool}
      (hc : s.connections[id]? = some c) (hstage : c.stage = .connecting havePieces) :
      Moves sha1 s (.connectionGivesUp id) (s.setConnection id { c with stage := .failed, early := [] })
  | unparsed {id : ℕ} {c : ConnectionTask} {havePieces : List Bool}
      (hc : s.connections[id]? = some c) (hstage : c.stage = .connecting havePieces) :
      -- `peer.ip.parse().unwrap()`
      Moves sha1 s (.connectionGivesUp id)
        (s.setConnection id { c with stage := .failed, early := [], panicked := true })
  | cancelled {id : ℕ} {c : ConnectionTask} (hc : s.connections[id]? = some c)
      (hstage : c.stage = .starting ∨ c.stage = .awaitingPieces) (hover : s.downloadOver = true) :
      Moves sha1 s (.connectionGivesUp id) (s.setConnection id { c with stage := .failed, early := [] })
  | tells {id : ℕ} {c : ConnectionTask} {tasks : ConnectionTasks} {m : Message}
      {next : Bool → PendingHandler} (hc : s.connections[id]? = some c)
      (hstage : c.stage = .looping tasks false)
      (hloop : tasks.loop = .running (.call (.download m) next)) (hroom : s.HasRoom) :
      Moves sha1 s (.connectionAsks id)
        ((s.sendDownload id (.download m)).setConnection id
          (c.setLoop { tasks with loop := .running (next true) } false))
  | asks {id : ℕ} {c : ConnectionTask} {tasks : ConnectionTasks} {e : Call}
      {next : e.Reply → PendingHandler} {event : ManagerEvent} (hc : s.connections[id]? = some c)
      (hstage : c.stage = .looping tasks false) (hloop : tasks.loop = .running (.call e next))
      (hevent : e.question = some event) (hroom : s.HasRoom) :
      Moves sha1 s (.connectionAsks id)
        ((s.sendDownload id event).setConnection id (c.setLoop tasks true))
  | refused {id : ℕ} {c : ConnectionTask} {tasks : ConnectionTasks} {awaiting : Bool} {e : Call}
      {next : e.Reply → PendingHandler} (hc : s.connections[id]? = some c)
      (hstage : c.stage = .looping tasks awaiting) (hloop : tasks.loop = .running (.call e next))
      (he : e.toDownloadTask = true) (hover : s.downloadOver = true) :
      Moves sha1 s (.connectionAsks id)
        (s.setConnection id (c.setLoop { tasks with loop := .running (next e.refused) } false))
  | picks {id : ℕ} {c : ConnectionTask} {tasks : ConnectionTasks} {awaiting : Bool} {n : ℕ}
      {next : Fin (n + 1) → PendingHandler} (choice : Fin (n + 1))
      (hc : s.connections[id]? = some c) (hstage : c.stage = .looping tasks awaiting)
      (hloop : tasks.loop = .running (.call (.firstKey n) next)) :
      Moves sha1 s (.connectionPicks id choice)
        (s.setConnection id (c.setLoop { tasks with loop := .running (next choice) } awaiting))
  | acts {id : ℕ} {c : ConnectionTask} {tasks tasks' : ConnectionTasks} {awaiting : Bool}
      {a : TaskAction} (hown : a.isOwn = true) (hc : s.connections[id]? = some c)
      (hstage : c.stage = .looping tasks awaiting) (hgoing : ¬ tasks.Panics a)
      (hact : ConnectionTasks.actStep tasks a tasks') :
      Moves sha1 s (.connectionActs id a) (s.setConnection id (c.setLoop tasks' awaiting))
  | panics {id : ℕ} {c : ConnectionTask} {tasks tasks' : ConnectionTasks} {awaiting : Bool}
      {a : TaskAction} (hc : s.connections[id]? = some c)
      (hstage : c.stage = .looping tasks awaiting) (hpanics : tasks.Panics a)
      (hact : ConnectionTasks.actStep tasks a tasks') :
      Moves sha1 s (.connectionActs id a)
        (s.setConnection id { c.setLoop tasks' awaiting with panicked := true })
  | ends {id : ℕ} {c : ConnectionTask} {tasks : ConnectionTasks} {awaiting : Bool}
      (hc : s.connections[id]? = some c) (hstage : c.stage = .looping tasks awaiting)
      (hloop : tasks.loop = .closing) (hwriter : tasks.writeLoop = .ended) :
      Moves sha1 s (.connectionEnds id)
        (s.setConnection id (c.setLoop { tasks with loop := .ended } awaiting))
  | notifies {id : ℕ} {c : ConnectionTask} {sendHandshakeFirst : Bool} {peer : Peer}
      (hc : s.connections[id]? = some c) (hover : c.isOver = true)
      (hreturned : c.panicked = false) (hfirst : c.notified = false)
      (hpeer : s.manager.started[id]? = some (sendHandshakeFirst, peer))
      (hroom : s.disconnects.length < channelCapacity) :
      Moves sha1 s (.connectionNotifies id)
        (setConnection { s with disconnects := s.disconnects ++ [peer] } id
          { c with notified := true })

end ClientTasks
end TorrentClient
