import TorrentClient.PeerConnection
import TorrentClient.TransitionRuns

/-!
# The tasks of one connection

The connection loop and the write loop are joined by two bounded channels: messages go to
the write loop through one, and events to the connection loop through the other, which the
read loop and the manager feed as well. A send waits while its channel is full, and fails once
its receiver is gone. The notification of an upload that waits by then fails here as well, where
`futures` lets it return `Ok` and the write loop empties its channel first. The peer, the manager
and the download task are open: they may send and answer anything.
-/
namespace TorrentClient
open EffectPrograms TransitionRuns

/-- The buffer of `mpsc::channel(10)`, for the messages and for the events. -/
def channelCapacity : ℕ := 10

/-- What `peer_conn_loop` is doing. -/
inductive LoopPhase where
  /-- between two events -/
  | idle (conn : PeerConnection)
  | running (rest : PendingHandler)
  /-- in a send to the write loop -/
  | sending (m : Message) (next : Bool → PendingHandler)
  /-- after its loop, waiting for the write loop to end -/
  | closing
  | ended

/-- What `conn_write_loop` is doing. -/
inductive WritePhase where
  | receiving
  | writing (m : Message)
  /-- in the send of `BlockUploaded` -/
  | notifying
  | ended
  deriving DecidableEq

structure ConnectionTasks where
  loop : LoopPhase
  writeLoop : WritePhase
  ipcs : List IPC
  writer : List Message

inductive TaskAction where
  /-- the read loop passes on a message of the peer -/
  | reads (m : Message)
  /-- the manager passes on an event of the download -/
  | broadcasts (ipc : IPC)
  | takes
  /-- a call that is no send to the write loop gets its answer -/
  | answers (answer : (e : Call) → e.Reply)
  | beginsSend
  | completesSend
  | returns
  /-- the read loop has ended -/
  | shutsDown
  | writerTakes
  | writes
  | writeFails
  | notifies
  | writerEnds

/-- The events that the download broadcasts. -/
def IPC.isBroadcast : IPC → Bool
  | .blockCompleted .. => true
  | .pieceCompleted _ => true
  | .downloadCompleted => true
  | _ => false

/-- `is_block_upload` -/
def Message.isBlockUpload : Message → Bool
  | .piece .. => true
  | _ => false

def Call.isSend : Call → Bool
  | .send _ => true
  | _ => false

/-- The receiver of the events is not dropped. -/
def LoopPhase.isReceiver : LoopPhase → Bool
  | .ended => false
  | _ => true

/-- The sender of the messages is dropped. -/
def LoopPhase.isOver : LoopPhase → Bool
  | .closing => true
  | .ended => true
  | _ => false

namespace ConnectionTasks
open PeerConnection

/-- The loop after the handshake, before it sends its bitfield. -/
def start (havePieces : List Bool) : ConnectionTasks where
  loop := .running (sendBitfield (new havePieces))
  writeLoop := .receiving
  ipcs := []
  writer := []

/-- `sender.send(ipc)` goes through. -/
def deliver (s : ConnectionTasks) (ipc : IPC) : Option ConnectionTasks :=
  if s.loop.isReceiver ∧ s.ipcs.length < channelCapacity then
    some { s with ipcs := s.ipcs ++ [ipc] }
  else none

/-- A send fails at once where the write loop has ended. -/
def beginSend (s : ConnectionTasks) :
    (e : Call) → (e.Reply → PendingHandler) → Option ConnectionTasks
  | .send m, next =>
    if s.writeLoop = .ended then some { s with loop := .running (next false) }
    else some { s with loop := .sending m next }
  | _, _ => none

/-- One move of one task. -/
def act (s : ConnectionTasks) : TaskAction → Option ConnectionTasks
  | .reads m => s.deliver (.message m)
  | .broadcasts ipc => if ipc.isBroadcast then s.deliver ipc else none
  | .takes =>
    match s.loop, s.ipcs with
    | .idle conn, ipc :: ipcs => some { s with ipcs, loop := .running (handleIpc ipc conn) }
    | _, _ => none
  | .answers answer =>
    match s.loop with
    | .running (.call e next) =>
      if e.isSend then none else some { s with loop := .running (next (answer e)) }
    | _ => none
  | .beginsSend =>
    match s.loop with
    | .running (.call e next) => s.beginSend e next
    | _ => none
  | .completesSend =>
    match s.loop with
    | .sending m next =>
      if s.writeLoop = .ended then some { s with loop := .running (next true) }
      else if s.writer.length < channelCapacity then
        some { s with writer := s.writer ++ [m], loop := .running (next true) }
      else none
    | _ => none
  | .returns =>
    match s.loop with
    | .running (.done (.ok (_, conn))) => some { s with loop := .idle conn }
    | .running (.done (.error _)) => some { s with loop := .ended }
    | _ => none
  | .shutsDown =>
    match s.loop with
    | .idle _ => some { s with loop := .closing }
    | _ => none
  | .writerTakes =>
    match s.writeLoop, s.writer with
    | .receiving, m :: writer => some { s with writer, writeLoop := .writing m }
    | _, _ => none
  | .writes =>
    match s.writeLoop with
    | .writing m =>
      some { s with writeLoop := if m.isBlockUpload then .notifying else .receiving }
    | _ => none
  | .writeFails =>
    match s.writeLoop with
    | .writing _ => some { s with writeLoop := .ended, writer := [] }
    | _ => none
  | .notifies =>
    match s.writeLoop with
    | .notifying =>
      if s.loop.isReceiver then
        (s.deliver .blockUploaded).map fun s => { s with writeLoop := .receiving }
      else some { s with writeLoop := .ended, writer := [] }
    | _ => none
  | .writerEnds =>
    match s.writeLoop, s.writer with
    | .receiving, [] => if s.loop.isOver then some { s with writeLoop := .ended } else none
    | _, _ => none

/-- A step of one of the tasks. -/
def actStep (s : ConnectionTasks) (a : TaskAction) (t : ConnectionTasks) : Prop :=
  act s a = some t

/-- The moves, one for each way that a task goes on. -/
inductive Move (s : ConnectionTasks) : TaskAction → ConnectionTasks → Prop where
  | delivers {a : TaskAction} {ipc : IPC} (hipc : ipc ≠ .blockUploaded)
      (hroom : s.ipcs.length < channelCapacity) (ha : a ≠ .beginsSend) :
      Move s a { s with ipcs := s.ipcs ++ [ipc] }
  | takes {conn : PeerConnection} {ipc : IPC} {ipcs : List IPC} (hloop : s.loop = .idle conn)
      (hipcs : s.ipcs = ipc :: ipcs) :
      Move s .takes { s with ipcs, loop := .running (handleIpc ipc conn) }
  | answers {e : Call} {next : e.Reply → PendingHandler} (answer : (e : Call) → e.Reply)
      (hloop : s.loop = .running (.call e next)) (he : e.isSend = false) :
      Move s (.answers answer) { s with loop := .running (next (answer e)) }
  | beginsSend {m : Message} {next : Bool → PendingHandler}
      (hloop : s.loop = .running (.call (.send m) next)) (hwriter : s.writeLoop ≠ .ended) :
      Move s .beginsSend { s with loop := .sending m next }
  | sendFails {m : Message} {next : Bool → PendingHandler}
      (hloop : s.loop = .running (.call (.send m) next)) (hwriter : s.writeLoop = .ended) :
      Move s .beginsSend { s with loop := .running (next false) }
  | sends {m : Message} {next : Bool → PendingHandler} (hloop : s.loop = .sending m next)
      (hroom : s.writer.length < channelCapacity) :
      Move s .completesSend { s with writer := s.writer ++ [m], loop := .running (next true) }
  | drops {m : Message} {next : Bool → PendingHandler} (hloop : s.loop = .sending m next)
      (hwriter : s.writeLoop = .ended) :
      Move s .completesSend { s with loop := .running (next true) }
  | returns {conn : PeerConnection} (hloop : s.loop = .running (.done (.ok ((), conn)))) :
      Move s .returns { s with loop := .idle conn }
  | stops {a : TaskAction} {loop : LoopPhase} (hloop : loop = .closing ∨ loop = .ended)
      (ha : a ≠ .beginsSend) : Move s a { s with loop }
  | writerTakes {m : Message} {writer : List Message} (hwrite : s.writeLoop = .receiving)
      (hwriter : s.writer = m :: writer) :
      Move s .writerTakes { s with writer, writeLoop := .writing m }
  | writes {m : Message} (hwrite : s.writeLoop = .writing m) :
      Move s .writes
        { s with writeLoop := if m.isBlockUpload then .notifying else .receiving }
  | notifies (hwrite : s.writeLoop = .notifying) (hroom : s.ipcs.length < channelCapacity) :
      Move s .notifies { s with ipcs := s.ipcs ++ [.blockUploaded], writeLoop := .receiving }
  | writerStops {a : TaskAction} (ha : a ≠ .beginsSend) :
      Move s a { s with writeLoop := .ended, writer := [] }

variable {s t : ConnectionTasks} {a : TaskAction}

theorem deliver_eq_some {ipc : IPC} (h : s.deliver ipc = some t) :
    s.ipcs.length < channelCapacity ∧ t = { s with ipcs := s.ipcs ++ [ipc] } := by
  rw [deliver] at h
  split at h
  · rename_i hroom
    cases h
    exact ⟨hroom.2, rfl⟩
  · cases h

theorem beginSend_move {e : Call} {next : e.Reply → PendingHandler}
    (hloop : s.loop = .running (.call e next)) (h : s.beginSend e next = some t) :
    Move s .beginsSend t := by
  cases e with
  | send m =>
    rw [beginSend] at h
    split at h
    · rename_i hwriter
      cases h
      exact .sendFails hloop hwriter
    · rename_i hwriter
      cases h
      exact .beginsSend hloop hwriter
  | _ => cases h

theorem actStep.move (h : actStep s a t) : Move s a t := by
  rw [actStep, act.eq_def] at h
  cases a with
  | reads m =>
    obtain ⟨hroom, rfl⟩ := deliver_eq_some h
    exact .delivers (by simp) hroom (by simp)
  | broadcasts ipc =>
    simp only at h
    split at h
    · rename_i hipc
      obtain ⟨hroom, rfl⟩ := deliver_eq_some h
      refine .delivers ?_ hroom (by simp)
      rintro rfl
      cases hipc
    · cases h
  | takes =>
    simp only at h
    split at h
    · rename_i conn ipc ipcs hloop hipcs
      cases h
      exact .takes hloop hipcs
    · cases h
  | answers answer =>
    simp only at h
    split at h
    · rename_i e next hloop
      split at h
      · cases h
      · rename_i he
        cases h
        exact .answers answer hloop (Bool.eq_false_iff.mpr he)
    · cases h
  | beginsSend =>
    simp only at h
    split at h
    · rename_i e next hloop
      exact beginSend_move hloop h
    · cases h
  | completesSend =>
    simp only at h
    split at h
    · rename_i m next hloop
      split at h
      · rename_i hwriter
        cases h
        exact .drops hloop hwriter
      · split at h
        · rename_i hroom
          cases h
          exact .sends hloop hroom
        · cases h
    · cases h
  | returns =>
    simp only at h
    split at h
    · rename_i u conn hloop
      cases h
      exact .returns hloop
    · cases h
      exact .stops (Or.inr rfl) (by simp)
    · cases h
  | shutsDown =>
    simp only at h
    split at h
    · cases h
      exact .stops (Or.inl rfl) (by simp)
    · cases h
  | writerTakes =>
    simp only at h
    split at h
    · rename_i m writer hwrite hwriter
      cases h
      exact .writerTakes hwrite hwriter
    · cases h
  | writes =>
    simp only at h
    split at h
    · rename_i m hwrite
      cases h
      exact .writes hwrite
    · cases h
  | writeFails =>
    simp only at h
    split at h
    · cases h
      exact .writerStops (by simp)
    · cases h
  | notifies =>
    simp only at h
    split at h
    · rename_i hwrite
      split at h
      · obtain ⟨u, hu, rfl⟩ := Option.map_eq_some_iff.mp h
        obtain ⟨hroom, rfl⟩ := deliver_eq_some hu
        exact .notifies hwrite hroom
      · cases h
        exact .writerStops (by simp)
    · cases h
  | writerEnds =>
    simp only at h
    split at h
    · rename_i hwrite hwriter
      split at h
      · cases h
        have hstop : Move s .writerEnds { s with writeLoop := .ended, writer := [] } :=
          .writerStops (by simp)
        rw [← hwriter] at hstop
        exact hstop
      · cases h
    · cases h

end ConnectionTasks
end TorrentClient
