import TorrentClient.Client

/-!
# The moves of a client as a function

Where the order of a broadcast and the choice among the keys of a map are given, a move leads to
one state at most, and whether it is possible can be computed. So a run is found by evaluation.
-/
namespace TorrentClient
open EffectPrograms TransitionRuns

/-- What the task of a connection and its write loop do: how the connection goes on, what it
sends to the download task and whom it reports to the manager. -/
def Connection.act (c : Connection) (entry : Option (Bool × Peer)) :
    ClientAction → Option (Connection × List ManagerEvent × List Peer)
  | .connectionRequires _ =>
    match c.stage with
    | .starting => some ({ c with stage := .awaitingPieces }, [.requireHavePieces], [])
    | _ => none
  | .connectionConnects _ =>
    match c.stage with
    | .connecting havePieces =>
      let conn := PeerConnection.sendBitfield (.new havePieces)
      some ({ c with stage := .looping (.running conn) }, [], [])
    | _ => none
  | .connectionFails _ =>
    match c.stage with
    | .connecting _ => some ({ c with stage := .looping .ended }, [], [])
    | _ => none
  | .peerSends _ m =>
    match c.stage with
    | .looping _ => some ({ c with ipcs := c.ipcs ++ [.message m] }, [], [])
    | _ => none
  | .connectionTakes _ =>
    match c.stage, c.ipcs with
    | .looping (.idle conn), ipc :: ipcs =>
      let rest := PeerConnection.handleIpc ipc conn
      some ({ c with ipcs, stage := .looping (.running rest) }, [], [])
    | _, _ => none
  | .connectionCalls _ choice =>
    match c.stage with
    | .looping (.running (.call e next)) =>
      (PeerConnection.perform choice e next).map fun (phase, messages, events) =>
        ({ c with stage := .looping phase, writer := c.writer ++ messages }, events, [])
    | _ => none
  | .connectionReturns _ =>
    match c.stage with
    | .looping (.running (.done (.ok (_, conn)))) =>
      some ({ c with stage := .looping (.idle conn) }, [], [])
    | .looping (.running (.done (.error (.err _)))) =>
      some ({ c with stage := .looping .ended }, [], [])
    | .looping (.running (.done (.error .panic))) => some ({ c with stage := .panicked }, [], [])
    | _ => none
  | .connectionCloses _ =>
    match c.stage with
    | .looping (.idle _) => some ({ c with stage := .looping .ended }, [], [])
    | _ => none
  | .connectionNotifies _ =>
    match c.stage, entry with
    | .looping .ended, some (_, peer) => some ({ c with stage := .notified }, [], [peer])
    | _, _ => none
  | .writerWrites _ =>
    match c.writer with
    | m :: writer => some ({ c with writer, ipcs := c.ipcs ++ m.uploaded }, [], [])
    | [] => none
  | _ => none

namespace ClientAction

/-- The connection whose tasks make the move. -/
def connection? : ClientAction → Option ℕ
  | connectionRequires id => some id
  | connectionConnects id => some id
  | connectionFails id => some id
  | peerSends id _ => some id
  | connectionTakes id => some id
  | connectionCalls id _ => some id
  | connectionReturns id => some id
  | connectionCloses id => some id
  | connectionNotifies id => some id
  | writerWrites id => some id
  | _ => none

end ClientAction

namespace Client

/-- The manager goes through a round. -/
def round (s : Client) (input : ManagerInput) : Option Client :=
  match Manager.handleInput input s.manager with
  | .ok _ manager => some (afterRound s manager)
  | .error _ _ => none

def actConnection (s : Client) (id : ℕ) (a : ClientAction) : Option Client := do
  let c ← s.connections[id]?
  let (c, events, peers) ← c.act s.manager.started[id]? a
  return setConnection { s with
    toDownload := s.toDownload ++ events.map (id, ·)
    disconnects := s.disconnects ++ peers } id c

/-- What the manager, the download task and the tasks outside do. -/
def actTask (sha1 : Bytes → Sha1) (s : Client) : ClientAction → Option Client
  | .outsideSends e => if e.fromOutside then some { s with events := s.events ++ [e] } else none
  | .managerHandles =>
    match s.broadcasting, s.events with
    | none, e :: events =>
      if e.passedOn = [] then round { s with events } (.event e (receivers [] [])) else none
    | _, _ => none
  | .managerBroadcasts order =>
    match s.broadcasting, s.events with
    | none, .broadcast ipc :: events =>
      if order.Perm s.manager.peers.entries then
        some { s with events, broadcasting := some ⟨ipc, order, order, []⟩ }
      else none
    | _, _ => none
  | .managerSends =>
    match s.broadcasting with
    | some ⟨ipc, order, entry :: remaining, lost⟩ => do
      let c ← s.connections[entry.2]?
      if c.stage.isOver then
        some { s with broadcasting := some ⟨ipc, order, remaining, lost ++ [entry.2]⟩ }
      else
        some (setConnection { s with broadcasting := some ⟨ipc, order, remaining, lost⟩ } entry.2
          { c with ipcs := c.ipcs ++ [ipc] })
    | _ => none
  | .managerFinishes =>
    match s.broadcasting with
    | some ⟨ipc, order, [], lost⟩ =>
      round { s with broadcasting := none } (.event (.broadcast ipc) (receivers order lost))
    | _ => none
  | .managerDisconnects =>
    match s.broadcasting, s.disconnects with
    | none, peer :: disconnects => round { s with disconnects } (.disconnect peer)
    | _, _ => none
  | .downloadPosts => do
    let e ← s.download.sent[s.posted]?
    return { s with events := s.events ++ [e], posted := s.posted + 1 }
  | .downloadHandles =>
    match s.toDownload with
    | (id, e) :: toDownload =>
      if s.download.sent.length ≤ s.posted then
        match Download.handleEvent sha1 e s.download with
        | .ok reply download => do
          let c ← s.connections[id]?
          let stage ← c.stage.answer reply
          return setConnection { s with download, toDownload } id { c with stage }
        | .error _ _ => none
      else none
    | [] => none
  | _ => none

def act (sha1 : Bytes → Sha1) (s : Client) (a : ClientAction) : Option Client :=
  match a.connection? with
  | some id => s.actConnection id a
  | none => s.actTask sha1 a

variable {sha1 : Bytes → Sha1} {s t : Client} {a : ClientAction}

theorem round_eq_some {input : ManagerInput} : s.round input = some t ↔
    ∃ r manager, Manager.handleInput input s.manager = .ok r manager ∧ afterRound s manager = t := by
  rw [round]
  cases Manager.handleInput input s.manager <;> simp

/-- The moves of a connection are those of its tasks. -/
theorem moves_of_actConnection {id : ℕ} (ha : a.connection? = some id)
    (h : s.actConnection id a = some t) : Moves sha1 s a t := by
  obtain ⟨c, hc, h⟩ := Option.bind_eq_some_iff.mp h
  obtain ⟨⟨c', events, peers⟩, hact, h⟩ := Option.bind_eq_some_iff.mp h
  cases h
  obtain ⟨stage, ipcs, writer⟩ := c
  cases a with
  | connectionRequires =>
    cases ha
    cases stage with
    | starting =>
      cases hact
      simpa using Moves.requires hc rfl
    | _ => cases hact
  | connectionConnects =>
    cases ha
    cases stage with
    | connecting havePieces =>
      cases hact
      simpa using Moves.connects hc rfl
    | _ => cases hact
  | connectionFails =>
    cases ha
    cases stage with
    | connecting havePieces =>
      cases hact
      simpa using Moves.fails hc rfl
    | _ => cases hact
  | peerSends id m =>
    cases ha
    cases stage with
    | looping phase =>
      cases hact
      simpa using Moves.peerSends hc rfl
    | _ => cases hact
  | connectionTakes =>
    cases ha
    rw [Connection.act] at hact
    split at hact
    · rename_i conn ipc ipcs' hstage hipcs
      cases hact
      simpa using Moves.takes hc hstage hipcs
    · cases hact
  | connectionCalls id choice =>
    cases ha
    rw [Connection.act] at hact
    split at hact
    · rename_i e next hstage
      obtain ⟨⟨phase, messages, sent⟩, hperform, heq⟩ := Option.map_eq_some_iff.mp hact
      cases heq
      simpa using Moves.calls hc hstage hperform
    · cases hact
  | connectionReturns =>
    cases ha
    rw [Connection.act] at hact
    split at hact
    · rename_i conn hstage
      cases hact
      simpa using Moves.returns hc hstage
    · rename_i e hstage
      cases hact
      simpa using Moves.stops hc hstage
    · rename_i hstage
      cases hact
      simpa using Moves.panics hc hstage
    · cases hact
  | connectionCloses =>
    cases ha
    rw [Connection.act] at hact
    split at hact
    · rename_i conn hstage
      cases hact
      simpa using Moves.closes hc hstage
    · cases hact
  | connectionNotifies =>
    cases ha
    rw [Connection.act.eq_def] at hact
    dsimp only at hact
    split at hact
    · rename_i peer hpeer
      cases hact
      simpa using Moves.notifies hc rfl hpeer
    · cases hact
  | writerWrites =>
    cases ha
    rw [Connection.act] at hact
    split at hact
    · rename_i m writer' hwriter
      cases hact
      simpa using Moves.writes hc hwriter
    · cases hact
  | _ => cases ha

theorem moves_of_actTask (h : s.actTask sha1 a = some t) : Moves sha1 s a t := by
  cases a with
  | outsideSends e =>
    rw [actTask] at h
    split at h
    · rename_i he
      cases h
      exact .outsideSends he
    · cases h
  | managerHandles =>
    rw [actTask] at h
    split at h
    · rename_i e events hidle hqueue
      split at h
      · rename_i hother
        obtain ⟨r, manager, hhandled, rfl⟩ := round_eq_some.mp h
        exact .handles hidle hqueue hother hhandled
      · cases h
    · cases h
  | managerBroadcasts order =>
    rw [actTask] at h
    split at h
    · rename_i ipc events hidle hqueue
      split at h
      · rename_i horder
        cases h
        exact .broadcasts hidle hqueue horder
      · cases h
    · cases h
  | managerSends =>
    rw [actTask] at h
    split at h
    · rename_i ipc order entry remaining lost hsending
      obtain ⟨c, hc, h⟩ := Option.bind_eq_some_iff.mp h
      split at h
      · rename_i hover
        cases h
        exact .misses hsending rfl hc hover
      · rename_i hover
        cases h
        exact .reaches hsending rfl hc (Bool.eq_false_iff.mpr hover)
    · cases h
  | managerFinishes =>
    rw [actTask] at h
    split at h
    · rename_i ipc order lost hsending
      obtain ⟨r, manager, hhandled, rfl⟩ := round_eq_some.mp h
      exact .finishes hsending rfl hhandled
    · cases h
  | managerDisconnects =>
    rw [actTask] at h
    split at h
    · rename_i peer disconnects hidle hqueue
      obtain ⟨r, manager, hhandled, rfl⟩ := round_eq_some.mp h
      exact .disconnects hidle hqueue hhandled
    · cases h
  | downloadPosts =>
    obtain ⟨e, hsent, h⟩ := Option.bind_eq_some_iff.mp h
    cases h
    exact .posts hsent
  | downloadHandles =>
    rw [actTask] at h
    split at h
    · rename_i id e toDownload hqueue
      split at h
      · rename_i hposted
        split at h
        · rename_i reply download hhandled
          obtain ⟨c, hc, h⟩ := Option.bind_eq_some_iff.mp h
          obtain ⟨stage, hanswer, h⟩ := Option.bind_eq_some_iff.mp h
          cases h
          exact .downloadHandles hposted hqueue hhandled hc hanswer
        · cases h
      · cases h
    · cases h
  | _ => cases h

/-- What is evaluated is a move. -/
theorem moves_of_act (h : s.act sha1 a = some t) : Moves sha1 s a t := by
  rw [act] at h
  split at h
  · rename_i id ha
    exact moves_of_actConnection ha h
  · exact moves_of_actTask h

theorem run_of_acts {actions : List ClientAction} (h : actions.foldlM (act sha1) s = some t) :
    ∃ trace, Run (Moves sha1) s trace t ∧ trace.map (·.label) = actions := by
  obtain ⟨trace, run, hlabels⟩ := run_of_foldlM Run.nil h
  exact ⟨trace, run.mono fun _ _ _ => moves_of_act, hlabels⟩

instance (s : Client) : Decidable s.Quiet :=
  decidable_of_iff (s.events = [] ∧ s.broadcasting = none ∧
      s.download.sent.length ≤ s.posted ∧ s.toDownload = [] ∧
      ∀ c ∈ s.connections, c.stage.isOver = false → c.ipcs = []) <| by
    constructor
    · rintro ⟨hevents, hidle, hposted, hqueue, hipcs⟩
      exact ⟨hevents, hidle, hposted, hqueue, fun id c hc => hipcs c (List.mem_of_getElem? hc)⟩
    · intro h
      refine ⟨h.events, h.broadcasting, h.posted, h.toDownload, fun c hc => ?_⟩
      obtain ⟨id, hid⟩ := List.mem_iff_getElem?.mp hc
      exact h.ipcs id c hid

/-- A connection is started and gets the pieces there are. -/
def startActions (peer : Peer) (id : ℕ) : List ClientAction :=
  [.outsideSends (.connection true peer), .managerHandles, .connectionRequires id, .downloadHandles]

def greetActions (id : ℕ) : List ClientAction :=
  [.connectionConnects id, .connectionCalls id 0, .connectionReturns id]

/-- A connection handles an event with so many calls. -/
def handleActions (id calls : ℕ) : List ClientAction :=
  .connectionTakes id :: List.replicate calls (.connectionCalls id 0) ++ [.connectionReturns id]

/-- A connection asks the download task, and makes one more call with the answer. -/
def askActions (id : ℕ) : List ClientAction :=
  [.connectionTakes id, .connectionCalls id 0, .downloadHandles, .connectionCalls id 0,
    .connectionReturns id]

/-- The download task posts an event that goes to all connections. -/
def broadcastActions (order : List (Sigma fun _ : Peer => ℕ)) : List ClientAction :=
  [.downloadPosts, .managerBroadcasts order] ++ order.map (fun _ => .managerSends) ++
    [.managerFinishes]

end Client
end TorrentClient
