import TorrentClient.Client

/-!
# The pieces that a connection knows

A handler may learn of one piece from the event it is given, whatever the other tasks answer it.
So at any stage of its task it is settled which pieces a connection knows afterwards.
-/
namespace TorrentClient
open EffectPrograms
open EffectPrograms.Program (anyReply)

/-- However the other tasks answer, the handler leaves the connection with these pieces. -/
def Settles (rest : PendingHandler) (hasPieces : List Bool) : Prop :=
  rest.wp anyReply (Task.onSuccess fun _ conn => conn.me.hasPieces = hasPieces)

/-- The pieces that a connection has once its handler is done. -/
inductive Stage.Knows : Stage → List Bool → Prop where
  | connecting (havePieces : List Bool) : Knows (.connecting havePieces) havePieces
  | idle (conn : PeerConnection) : Knows (.looping (.idle conn)) conn.me.hasPieces
  | running {rest : PendingHandler} {hasPieces : List Bool} (h : Settles rest hasPieces) :
      Knows (.looping (.running rest)) hasPieces
  | awaitingBlocks {pieceIndex : UInt32}
      {next : Option (List (UInt32 × UInt32)) → PendingHandler} {hasPieces : List Bool}
      (h : ∀ answer, Settles (next answer) hasPieces) :
      Knows (.looping (.awaitingBlocks pieceIndex next)) hasPieces
  | awaitingData {request : RequestMetadata} {next : Option Bytes → PendingHandler}
      {hasPieces : List Bool} (h : ∀ answer, Settles (next answer) hasPieces) :
      Knows (.looping (.awaitingData request next)) hasPieces

/-- The connection has had its answer and its loop is not over. -/
def Stage.informed : Stage → Bool
  | .starting => false
  | .awaitingPieces => false
  | .looping .ended => false
  | .notified => false
  | .panicked => false
  | _ => true

namespace Stage

variable {stage stage' : Stage} {hasPieces : List Bool}

theorem informed_of_over (h : stage.isOver = true) : stage.informed = false := by
  cases stage with
  | looping phase =>
    cases phase with
    | ended => rfl
    | _ => cases h
  | notified => rfl
  | panicked => rfl
  | _ => cases h

theorem Knows.isOver_eq_false (h : stage.Knows hasPieces) : stage.isOver = false := by
  cases h with
  | _ => rfl

theorem Knows.of_hasPieces (h : stage.Knows hasPieces) {held : List Bool}
    (hheld : stage.hasPieces = some held) : held = hasPieces := by
  cases h with
  | connecting => exact (Option.some.inj hheld).symm
  | idle => exact (Option.some.inj hheld).symm
  | _ => cases hheld

theorem informed_of_hasPieces {held : List Bool} (h : stage.hasPieces = some held) :
    stage.informed = true := by
  cases stage with
  | looping phase =>
    cases phase with
    | ended => cases h
    | _ => rfl
  | connecting => rfl
  | _ => cases h

theorem Knows.handle (ipc : IPC) (conn : PeerConnection) :
    Knows (.looping (.running (PeerConnection.handleIpc ipc conn)))
      (PeerConnection.markCompleted ipc conn.me.hasPieces) :=
  .running (PeerConnection.handleIpc_hasPieces ipc conn)

theorem Knows.greet (havePieces : List Bool) :
    Knows (.looping (.running (PeerConnection.sendBitfield (.new havePieces)))) havePieces :=
  .running (PeerConnection.sendBitfield_hasPieces (.new havePieces))

theorem Knows.returned {conn : PeerConnection}
    (h : Knows (.looping (.running (.done (.ok ((), conn))))) hasPieces) :
    Knows (.looping (.idle conn)) hasPieces := by
  cases h with
  | running h =>
    obtain rfl : conn.me.hasPieces = hasPieces := h
    exact .idle conn

theorem Knows.perform {choice : ℕ} {e : Call} {next : e.Reply → PendingHandler} {phase : Phase}
    {messages : List Message} {events : List ManagerEvent}
    (h : Knows (.looping (.running (.call e next))) hasPieces)
    (hperform : PeerConnection.perform choice e next = some (phase, messages, events)) :
    Knows (.looping phase) hasPieces := by
  cases h with
  | running h =>
    have hnext : ∀ reply, Settles (next reply) hasPieces := h
    cases e with
    | send m =>
      cases hperform
      exact .running (hnext true)
    | download m =>
      cases hperform
      exact .running (hnext true)
    | requireData request =>
      cases hperform
      exact .awaitingData hnext
    | requireIncompleteBlocks pieceIndex =>
      cases hperform
      exact .awaitingBlocks hnext
    | firstKey n =>
      rw [PeerConnection.perform] at hperform
      split at hperform
      · cases hperform
        exact .running (hnext _)
      · cases hperform

/-- An answer informs a connection that waits for the pieces and leaves the others as they
were. -/
theorem answer_cases {reply : Download.Reply} (h : stage.answer reply = some stage') :
    (∃ pieces, reply = .havePieces pieces ∧ stage' = .connecting pieces) ∨
      (stage.informed = stage'.informed ∧
        ∀ hasPieces, stage.Knows hasPieces → stage'.Knows hasPieces) := by
  cases reply with
  | none =>
    cases stage with
    | looping phase =>
      have heq : some (Stage.looping phase) = some stage' := h
      cases heq
      exact Or.inr ⟨rfl, fun _ => id⟩
    | _ =>
      cases h
      exact Or.inr ⟨rfl, fun _ => id⟩
  | havePieces pieces =>
    cases stage with
    | awaitingPieces =>
      cases h
      exact Or.inl ⟨pieces, rfl, rfl⟩
    | looping phase =>
      have hmap : (phase.answer (.havePieces pieces)).map Stage.looping = some stage' := h
      rw [Phase.answer_havePieces] at hmap
      cases hmap
    | _ => cases h
  | incompleteBlocks blocks =>
    cases stage with
    | looping phase =>
      have hmap : (phase.answer (.incompleteBlocks blocks)).map Stage.looping = some stage' := h
      obtain ⟨phase', hanswer, rfl⟩ := Option.map_eq_some_iff.mp hmap
      obtain ⟨pieceIndex, next, rfl, rfl⟩ := Phase.answer_blocks hanswer
      refine Or.inr ⟨rfl, fun hasPieces hknows => ?_⟩
      cases hknows with
      | awaitingBlocks hnext => exact .running (hnext _)
    | _ => cases h
  | data buf =>
    cases stage with
    | looping phase =>
      have hmap : (phase.answer (.data buf)).map Stage.looping = some stage' := h
      obtain ⟨phase', hanswer, rfl⟩ := Option.map_eq_some_iff.mp hmap
      obtain ⟨request, next, rfl, rfl⟩ := Phase.answer_data hanswer
      refine Or.inr ⟨rfl, fun hasPieces hknows => ?_⟩
      cases hknows with
      | awaitingData hnext => exact .running (hnext _)
    | _ => cases h

end Stage

end TorrentClient
