import TorrentClient.ConnectionSteps
import TorrentClient.BlockWrites

/-!
# The download task and one connection

The two tasks run side by side and reach each other through channels: the connection sends
events to the download task and waits for some of the answers, and what the download task
broadcasts comes back through the manager. The peer may send a message at any time. A
channel is a list, and each action of the system is one move of one party.
-/
namespace TorrentClient
open EffectPrograms TransitionRuns

/-- What the task of the connection is doing. -/
inductive Phase where
  | idle (conn : PeerConnection)
  | running (rest : PendingHandler)
  | awaitingBlocks (pieceIndex : UInt32)
      (next : Option (List (UInt32 × UInt32)) → PendingHandler)
  | awaitingData (request : RequestMetadata) (next : Option Bytes → PendingHandler)
  | ended

structure ConnectedDownload where
  download : Download
  /-- how many of the events in `download.sent` the manager has passed on -/
  delivered : ℕ
  toDownload : List ManagerEvent
  ipcs : List IPC
  writer : List Message
  phase : Phase

inductive Action where
  /-- the read loop passes on a message of the peer -/
  | peerSends (m : Message)
  | managerDelivers
  | connectionTakes
  /-- the handler makes its next call; `choice` picks among the keys of a map -/
  | connectionCalls (choice : ℕ)
  | connectionReturns
  | downloadHandles
  | writerWrites
  deriving DecidableEq

namespace Phase

/-- The answer that the connection waits for. -/
def expected : Phase → List ManagerEvent
  | awaitingBlocks pieceIndex _ => [.requireIncompleteBlocks pieceIndex]
  | awaitingData request _ => [.requireData request]
  | _ => []

/-- The handler goes on with the answer to its request. -/
def answer : Phase → Download.Reply → Option Phase
  | phase, .none => some phase
  | awaitingBlocks _ next, .incompleteBlocks blocks => some (.running (next (some blocks)))
  | awaitingData _ next, .data buf => some (.running (next (some buf)))
  | _, _ => none

theorem answer_none (phase : Phase) : phase.answer .none = some phase := by
  cases phase <;> rfl

theorem answer_havePieces (phase : Phase) (pieces : List Bool) :
    phase.answer (.havePieces pieces) = none := by
  cases phase <;> rfl

theorem answer_blocks {phase phase' : Phase} {blocks : List (UInt32 × UInt32)}
    (h : phase.answer (.incompleteBlocks blocks) = some phase') :
    ∃ pieceIndex next, phase = awaitingBlocks pieceIndex next ∧
      phase' = .running (next (some blocks)) := by
  cases phase with
  | awaitingBlocks pieceIndex next =>
    cases h
    exact ⟨pieceIndex, next, rfl, rfl⟩
  | _ => cases h

theorem answer_data {phase phase' : Phase} {buf : Bytes}
    (h : phase.answer (.data buf) = some phase') :
    ∃ request next, phase = awaitingData request next ∧ phase' = .running (next (some buf)) := by
  cases phase with
  | awaitingData request next =>
    cases h
    exact ⟨request, next, rfl, rfl⟩
  | _ => cases h

end Phase

/-- What the write loop reports back to its connection. -/
def Message.uploaded : Message → List IPC
  | .piece .. => [.blockUploaded]
  | _ => []

/-- The blocks in the messages of the peer are aligned and have the right length. -/
def Download.carriesBlocks (d : Download) : Message → Bool
  | .piece pieceIndex offset data =>
    match d.pieces[pieceIndex.toNat]? with
    | none => false
    | some piece =>
      match piece.blocks[(blockIndexOf offset).toNat]? with
      | none => false
      | some block =>
        decide (offset.toNat % blockSize = 0) && decide (data.length = block.length.toNat)
  | _ => true

/-- The effect of a call: how its handler goes on, what goes to the writer and what to the
download task. Both tasks are there to receive, so no send fails. -/
def PeerConnection.perform (choice : ℕ) :
    (e : Call) → (e.Reply → PendingHandler) → Option (Phase × List Message × List ManagerEvent)
  | .send m, next => some (.running (next true), [m], [])
  | .download m, next => some (.running (next true), [], [.download m])
  | .requireData request, next => some (.awaitingData request next, [], [.requireData request])
  | .requireIncompleteBlocks pieceIndex, next =>
    some (.awaitingBlocks pieceIndex next, [], [.requireIncompleteBlocks pieceIndex])
  | .firstKey n, next =>
    if h : choice < n + 1 then some (.running (next ⟨choice, h⟩), [], []) else none

namespace ConnectedDownload
open PeerConnection

/-- The connection after its handshake, with nothing on its way. -/
def start (d : Download) : ConnectedDownload where
  download := d
  delivered := d.sent.length
  toDownload := []
  ipcs := []
  writer := []
  phase := .idle (.new d.havePieces)

/-- One move of one party. An event that the download task fails on ends that task, and
nothing is taken from its channel any more. -/
def act (sha1 : Bytes → Sha1) (s : ConnectedDownload) : Action → Option ConnectedDownload
  | .peerSends m =>
    if s.download.carriesBlocks m then some { s with ipcs := s.ipcs ++ [.message m] } else none
  | .managerDelivers =>
    match s.download.sent[s.delivered]? with
    | some event => some { s with
        delivered := s.delivered + 1
        ipcs := s.ipcs ++ event.passedOn }
    | none => none
  | .connectionTakes =>
    match s.phase, s.ipcs with
    | .idle conn, ipc :: ipcs => some { s with ipcs, phase := .running (handleIpc ipc conn) }
    | _, _ => none
  | .connectionCalls choice =>
    match s.phase with
    | .running (.call e next) =>
      (PeerConnection.perform choice e next).map fun (phase, messages, events) =>
        { s with writer := s.writer ++ messages, toDownload := s.toDownload ++ events, phase }
    | _ => none
  | .connectionReturns =>
    match s.phase with
    | .running (.done (.ok (_, conn))) => some { s with phase := .idle conn }
    | .running (.done (.error _)) => some { s with phase := .ended }
    | _ => none
  | .downloadHandles =>
    match s.toDownload with
    | [] => none
    | event :: events =>
      match Download.handleEvent sha1 event s.download with
      | .error _ _ => none
      | .ok reply download =>
        (s.phase.answer reply).map fun phase =>
          { s with download, toDownload := events, phase }
  | .writerWrites =>
    match s.writer with
    | [] => none
    | m :: writer => some { s with writer, ipcs := s.ipcs ++ m.uploaded }

def actStep (sha1 : Bytes → Sha1) (s : ConnectedDownload) (a : Action) (t : ConnectedDownload) :
    Prop :=
  act sha1 s a = some t

/-- No message and no event is on its way, and the connection waits for one. -/
structure Quiescent (s : ConnectedDownload) (conn : PeerConnection) : Prop where
  phase : s.phase = .idle conn
  ipcs : s.ipcs = []
  toDownload : s.toDownload = []
  writer : s.writer = []
  delivered : s.download.sent.length ≤ s.delivered

/-- What an action does, one constructor for each way it can go. -/
inductive Move (sha1 : Bytes → Sha1) (s : ConnectedDownload) : Action → ConnectedDownload → Prop where
  | peerSends {m : Message} (hm : s.download.carriesBlocks m = true) :
      Move sha1 s (.peerSends m) { s with ipcs := s.ipcs ++ [.message m] }
  | delivers {event : ManagerEvent} (hsent : s.download.sent[s.delivered]? = some event) :
      Move sha1 s .managerDelivers
        { s with delivered := s.delivered + 1, ipcs := s.ipcs ++ event.passedOn }
  | takes {conn : PeerConnection} {ipc : IPC} {ipcs : List IPC} (hphase : s.phase = .idle conn)
      (hipcs : s.ipcs = ipc :: ipcs) :
      Move sha1 s .connectionTakes { s with ipcs, phase := .running (handleIpc ipc conn) }
  | sends {choice : ℕ} {m : Message} {next : Bool → PendingHandler}
      (hphase : s.phase = .running (.call (.send m) next)) :
      Move sha1 s (.connectionCalls choice)
        { s with writer := s.writer ++ [m], phase := .running (next true) }
  | downloads {choice : ℕ} {m : Message} {next : Bool → PendingHandler}
      (hphase : s.phase = .running (.call (.download m) next)) :
      Move sha1 s (.connectionCalls choice)
        { s with toDownload := s.toDownload ++ [.download m], phase := .running (next true) }
  | requiresData {choice : ℕ} {request : RequestMetadata} {next : Option Bytes → PendingHandler}
      (hphase : s.phase = .running (.call (.requireData request) next)) :
      Move sha1 s (.connectionCalls choice)
        { s with
          toDownload := s.toDownload ++ [.requireData request]
          phase := .awaitingData request next }
  | requiresBlocks {choice : ℕ} {pieceIndex : UInt32}
      {next : Option (List (UInt32 × UInt32)) → PendingHandler}
      (hphase : s.phase = .running (.call (.requireIncompleteBlocks pieceIndex) next)) :
      Move sha1 s (.connectionCalls choice)
        { s with
          toDownload := s.toDownload ++ [.requireIncompleteBlocks pieceIndex]
          phase := .awaitingBlocks pieceIndex next }
  | picks {n : ℕ} {next : Fin (n + 1) → PendingHandler} (choice : Fin (n + 1))
      (hphase : s.phase = .running (.call (.firstKey n) next)) :
      Move sha1 s (.connectionCalls choice) { s with phase := .running (next choice) }
  | returns {conn : PeerConnection} (hphase : s.phase = .running (.done (.ok ((), conn)))) :
      Move sha1 s .connectionReturns { s with phase := .idle conn }
  | fails {e : Fault String} (hphase : s.phase = .running (.done (.error e))) :
      Move sha1 s .connectionReturns { s with phase := .ended }
  | handles {event : ManagerEvent} {events : List ManagerEvent} {reply : Download.Reply}
      {download : Download} {phase : Phase} (hqueue : s.toDownload = event :: events)
      (hevent : Download.handleEvent sha1 event s.download = .ok reply download)
      (hanswer : s.phase.answer reply = some phase) :
      Move sha1 s .downloadHandles { s with download, toDownload := events, phase }
  | writes {m : Message} {writer : List Message} (hwriter : s.writer = m :: writer) :
      Move sha1 s .writerWrites { s with writer, ipcs := s.ipcs ++ m.uploaded }

variable {sha1 : Bytes → Sha1} {s t : ConnectedDownload} {a : Action}

theorem perform_move {choice : ℕ} {e : Call} {next : e.Reply → PendingHandler} {phase : Phase}
    {messages : List Message} {events : List ManagerEvent}
    (hphase : s.phase = .running (.call e next))
    (h : PeerConnection.perform choice e next = some (phase, messages, events)) :
    Move sha1 s (.connectionCalls choice)
      { s with writer := s.writer ++ messages, toDownload := s.toDownload ++ events, phase } := by
  cases e with
  | send m =>
    cases h
    rw [List.append_nil]
    exact .sends hphase
  | download m =>
    cases h
    rw [List.append_nil]
    exact .downloads hphase
  | requireData request =>
    cases h
    rw [List.append_nil]
    exact .requiresData hphase
  | requireIncompleteBlocks pieceIndex =>
    cases h
    rw [List.append_nil]
    exact .requiresBlocks hphase
  | firstKey n =>
    rw [PeerConnection.perform] at h
    split at h
    · rename_i hlt
      cases h
      rw [List.append_nil, List.append_nil]
      exact .picks ⟨choice, hlt⟩ hphase
    · cases h

theorem actStep.move (h : actStep sha1 s a t) : Move sha1 s a t := by
  rw [actStep, act.eq_def] at h
  cases a with
  | peerSends m =>
    simp only at h
    split at h
    · rename_i hm
      cases h
      exact .peerSends hm
    · cases h
  | managerDelivers =>
    simp only at h
    split at h
    · rename_i event hevent
      cases h
      exact .delivers hevent
    · cases h
  | connectionTakes =>
    simp only at h
    split at h
    · rename_i conn ipc ipcs hphase hipcs
      cases h
      exact .takes hphase hipcs
    · cases h
  | connectionCalls choice =>
    simp only at h
    split at h
    · rename_i e next hphase
      obtain ⟨⟨phase, messages, events⟩, hperform, rfl⟩ := Option.map_eq_some_iff.mp h
      exact perform_move hphase hperform
    · cases h
  | connectionReturns =>
    simp only at h
    split at h
    · rename_i u conn hphase
      cases h
      exact .returns hphase
    · rename_i e hphase
      cases h
      exact .fails hphase
    · cases h
  | downloadHandles =>
    simp only at h
    split at h
    · cases h
    · rename_i event events hqueue
      split at h
      · cases h
      · rename_i reply download hevent
        obtain ⟨phase, hanswer, rfl⟩ := Option.map_eq_some_iff.mp h
        exact .handles hqueue hevent hanswer
  | writerWrites =>
    simp only at h
    split at h
    · cases h
    · rename_i m writer hwriter
      cases h
      exact .writes hwriter

end ConnectedDownload
end TorrentClient
