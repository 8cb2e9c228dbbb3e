import TorrentClient.OutstandingRequests
import TorrentClient.TransitionRuns

/-!
# Requests in the exchanges of a connection

The exchanges of a connection are the events that it takes and the messages that it sends,
in their order. The queue of the connection can be read off them, and so can it be seen
that no block is requested again before it is taken out of the queue.
-/
namespace TorrentClient
open EffectPrograms TransitionRuns

inductive Exchange where
  /-- an event is taken from the channel -/
  | handled (ipc : IPC)
  /-- a message is sent to the writer task -/
  | sent (m : Message)

def Call.sentMessage : Call → Option Message
  | .send m => some m
  | _ => none

/-- The messages among the calls of a handler. -/
def sentMessages (calls : List (Σ e : Call, e.Reply)) : List Message :=
  calls.filterMap fun c => c.1.sentMessage

/-- An event and what its handler sends. -/
def exchanges (ipc : IPC) (calls : List (Σ e : Call, e.Reply)) : List Exchange :=
  .handled ipc :: (sentMessages calls).map .sent

namespace RequestQueue

def afterExchange (q : RequestQueue) : Exchange → RequestQueue
  | .handled ipc => q.afterEvent ipc
  | .sent m => q.afterSend m

def afterExchanges (q : RequestQueue) (history : List Exchange) : RequestQueue :=
  history.foldl afterExchange q

/-- A request is sent only for a block that is not in the queue, and a completed block that
is taken out of the queue is cancelled at once. -/
def Orderly : RequestQueue → List Exchange → Prop
  | _, [] => True
  | q, .sent m :: history => q.admits m ∧ Orderly (q.afterSend m) history
  | q, .handled ipc :: history =>
    (∀ p b r, ipc = .blockCompleted p b → (q.remove p b).1 = some r →
      ∃ rest, history = .sent (.cancel r.pieceIndex r.offset r.blockLength) :: rest) ∧
      Orderly (q.afterEvent ipc) history

variable {q : RequestQueue} {history history' : List Exchange}

theorem Orderly.append (h : Orderly q history) (h' : Orderly (q.afterExchanges history) history') :
    Orderly q (history ++ history') := by
  induction history generalizing q with
  | nil => exact h'
  | cons x history ih =>
    cases x with
    | sent m => exact ⟨h.1, ih h.2 h'⟩
    | handled ipc =>
      refine ⟨fun p b r hipc hr => ?_, ih h.2 h'⟩
      obtain ⟨rest, rfl⟩ := h.1 p b r hipc hr
      exact ⟨rest ++ history', rfl⟩

theorem Orderly.drop (h : Orderly q (history ++ history')) :
    Orderly (q.afterExchanges history) history' := by
  induction history generalizing q with
  | nil => exact h
  | cons x history ih =>
    cases x with
    | sent m => exact ih h.2
    | handled ipc => exact ih h.2

theorem afterExchange_nodup (h : q.keys.Nodup) (x : Exchange) : (q.afterExchange x).keys.Nodup := by
  have hremove (p b : UInt32) : (q.remove p b).2.keys.Nodup := h.sublist (keys_remove_sublist q p b)
  cases x with
  | sent m =>
    cases m with
    | request => exact nodup_add h _ _ _ _
    | _ => exact h
  | handled ipc =>
    cases ipc with
    | message m =>
      cases m with
      | piece => exact hremove _ _
      | _ => exact h
    | blockCompleted => exact hremove _ _
    | _ => exact h

theorem afterExchanges_nodup (h : q.keys.Nodup) (history : List Exchange) :
    (q.afterExchanges history).keys.Nodup := by
  induction history generalizing q with
  | nil => exact h
  | cons x history ih => exact ih (afterExchange_nodup h x)

/-- A request is found by its block. -/
theorem remove_eq_of_mem (h : q.keys.Nodup) {r : RequestMetadata} (hr : r ∈ q.requests) :
    (q.remove r.pieceIndex r.blockIndex).1 = some r := by
  have hhas : q.has r.pieceIndex r.blockIndex = true :=
    has_iff.mpr ⟨r, hr, RequestMetadata.matchesBlock_iff.mpr ⟨rfl, rfl⟩⟩
  obtain ⟨before, r', after, hq, hmatch, hremove⟩ := remove_of_has hhas
  have hr' : r' ∈ q.requests := by simp [hq]
  obtain ⟨hp, hb⟩ := RequestMetadata.matchesBlock_iff.mp hmatch
  have heq : r' = r := List.inj_on_of_nodup_map h hr' hr (Prod.ext hp hb)
  rw [hremove, heq]

theorem mem_add {r : RequestMetadata} (hr : r ∈ q.requests) (p b offset blockLength : UInt32) :
    r ∈ (q.add p b offset blockLength).2.requests := by
  cases h : q.has p b with
  | true =>
    rw [add_of_has h]
    exact hr
  | false =>
    rw [add_of_not_has h]
    exact List.mem_append_left _ hr

theorem mem_remove {r : RequestMetadata} (hr : r ∈ q.requests) {p b : UInt32}
    (hne : ¬ (p = r.pieceIndex ∧ b = r.blockIndex)) : r ∈ (q.remove p b).2.requests := by
  cases h : q.has p b with
  | false =>
    rw [remove_of_not_has h]
    exact hr
  | true =>
    obtain ⟨before, r', after, hq, hmatch, hremove⟩ := remove_of_has h
    obtain ⟨rfl, rfl⟩ := RequestMetadata.matchesBlock_iff.mp hmatch
    rw [hq] at hr
    rw [hremove]
    rcases List.mem_append.mp hr with hr | hr
    · exact List.mem_append_left _ hr
    · rcases List.mem_cons.mp hr with rfl | hr
      · exact absurd ⟨rfl, rfl⟩ hne
      · exact List.mem_append_right _ hr

end RequestQueue

open RequestQueue

/-- The request is taken out of the queue: its block comes in a `Piece`, or it is completed,
and the request is cancelled. -/
def TakenOut (r : RequestMetadata) (history : List Exchange) : Prop :=
  (∃ offset data, blockIndexOf offset = r.blockIndex ∧
    Exchange.handled (.message (.piece r.pieceIndex offset data)) ∈ history) ∨
  ∃ before after, history = before ++ .handled (.blockCompleted r.pieceIndex r.blockIndex) ::
    .sent (.cancel r.pieceIndex r.offset r.blockLength) :: after

theorem TakenOut.cons {r : RequestMetadata} {history : List Exchange} (h : TakenOut r history)
    (x : Exchange) : TakenOut r (x :: history) := by
  rcases h with ⟨offset, data, hindex, hmem⟩ | ⟨before, after, rfl⟩
  · exact Or.inl ⟨offset, data, hindex, List.mem_cons_of_mem _ hmem⟩
  · exact Or.inr ⟨x :: before, after, rfl⟩

/-- A request that is sent again was taken out of the queue before. -/
theorem takenOut_of_sent_again {q : RequestQueue} {r : RequestMetadata} {mid : List Exchange}
    {offset length : UInt32} {rest : List Exchange} (hnodup : q.keys.Nodup)
    (hr : r ∈ q.requests) (hindex : blockIndexOf offset = r.blockIndex)
    (h : Orderly q (mid ++ .sent (.request r.pieceIndex offset length) :: rest)) :
    TakenOut r mid := by
  induction mid generalizing q with
  | nil =>
    have hnot := h.1
    rw [admits, hindex] at hnot
    have hhas := has_iff.mpr ⟨r, hr, RequestMetadata.matchesBlock_iff.mpr ⟨rfl, rfl⟩⟩
    rw [hnot] at hhas
    cases hhas
  | cons x mid ih =>
    have hnext := afterExchange_nodup hnodup x
    cases x with
    | sent m =>
      refine (ih hnext ?_ h.2).cons _
      cases m with
      | request => exact mem_add hr _ _ _ _
      | _ => exact hr
    | handled ipc =>
      cases ipc with
      | message m =>
        cases m with
        | piece p offset' data =>
          by_cases hblock : p = r.pieceIndex ∧ blockIndexOf offset' = r.blockIndex
          · obtain ⟨rfl, hindex'⟩ := hblock
            exact Or.inl ⟨offset', data, hindex', List.mem_cons_self⟩
          · exact (ih hnext (mem_remove hr hblock) h.2).cons _
        | _ => exact (ih hnext hr h.2).cons _
      | blockCompleted p b =>
        by_cases hblock : p = r.pieceIndex ∧ b = r.blockIndex
        · obtain ⟨rfl, rfl⟩ := hblock
          obtain ⟨rest', hrest⟩ := h.1 _ _ r rfl (remove_eq_of_mem hnodup hr)
          cases mid with
          | nil => cases hrest
          | cons y mid =>
            cases hrest
            exact Or.inr ⟨[], mid, rfl⟩
        · exact (ih hnext (mem_remove hr hblock) h.2).cons _
      | _ => exact (ih hnext hr h.2).cons _

/-- A block is requested again only after it was taken out of the queue. -/
def RequestedOnce (history : List Exchange) : Prop :=
  ∀ before p offset length mid offset' length' rest,
    history = before ++ .sent (.request p offset length) ::
      (mid ++ .sent (.request p offset' length') :: rest) →
    blockIndexOf offset' = blockIndexOf offset →
    TakenOut ⟨p, blockIndexOf offset, offset, length⟩ mid

theorem requestedOnce_of_orderly {history : List Exchange} (h : Orderly RequestQueue.new history) :
    RequestedOnce history := by
  rintro before p offset length mid offset' length' rest rfl hindex
  have hsent := h.drop
  have hnodup := afterExchanges_nodup (q := RequestQueue.new) List.nodup_nil before
  refine takenOut_of_sent_again (afterExchange_nodup hnodup (.sent (.request p offset length)))
    ?_ hindex hsent.2
  have hnot : (RequestQueue.new.afterExchanges before).has p (blockIndexOf offset) = false :=
    hsent.1
  rw [afterExchange, afterSend, add_of_not_has hnot]
  exact List.mem_append_right _ List.mem_cons_self

theorem orderly_of_accepts {q : RequestQueue} {calls : List (Σ e : Call, e.Reply)}
    (h : requestMonitor.Accepts q calls) :
    Orderly q ((sentMessages calls).map .sent) ∧
      requestMonitor.afterAll calls q = q.afterExchanges ((sentMessages calls).map .sent) := by
  induction calls generalizing q with
  | nil => exact ⟨trivial, rfl⟩
  | cons c calls ih =>
    obtain ⟨e, reply⟩ := c
    obtain ⟨hallows, hrest⟩ := h.of_cons
    obtain ⟨horderly, hafter⟩ := ih hrest
    cases e with
    | send m => exact ⟨⟨hallows, horderly⟩, hafter⟩
    | _ => exact ⟨horderly, hafter⟩

namespace PeerConnection
open Task

variable {s t : PeerConnection}

theorem sendMessage_calls {m : Message} {calls : List (Σ e : Call, e.Reply)}
    {result : Except (Fault String) (Unit × PeerConnection)}
    (h : Program.Returns (sendMessage m s) calls result) : sentMessages calls = [m] := by
  cases h with
  | call sent rest =>
    cases sent with
    | true =>
      cases rest
      rfl
    | false =>
      cases rest
      rfl

/-- The handler of a completed block cancels the request that it takes out. -/
theorem blockCompleted_cancels {p b : UInt32} {r : RequestMetadata}
    (hr : (s.me.requests.remove p b).1 = some r) {calls : List (Σ e : Call, e.Reply)}
    {result : Except (Fault String) (Unit × PeerConnection)}
    (h : Program.Returns (handleIpc (.blockCompleted p b) s) calls result) :
    sentMessages calls = [.cancel r.pieceIndex r.offset r.blockLength] := by
  generalize hremoved : s.me.requests.remove p b = removed at hr
  obtain ⟨_, requests⟩ := removed
  cases hr
  rw [handleIpc] at h
  simp only [bind, EffectPrograms.Task.modify, EffectPrograms.Task.get, Program.bind,
    hremoved] at h
  exact sendMessage_calls h

/-- Whether the handler of an event succeeds or fails, its exchanges are in order, and where
it succeeds its queue can be read off them. -/
theorem handleIpc_exchanges (hs : RequestsApart s) {ipc : IPC}
    {calls : List (Σ e : Call, e.Reply)}
    {result : Except (Fault String) (Unit × PeerConnection)}
    (h : Program.Returns (handleIpc ipc s) calls result) :
    Orderly s.me.requests (exchanges ipc calls) ∧ ∀ t, result = .ok ((), t) →
      RequestsApart t ∧ t.me.requests = s.me.requests.afterExchanges (exchanges ipc calls) := by
  obtain ⟨haccepts, hpost⟩ := Program.monitored_returns (handleIpc_apart hs ipc) h
  obtain ⟨horderly, hafter⟩ := orderly_of_accepts haccepts
  refine ⟨⟨?_, horderly⟩, ?_⟩
  · rintro p b r rfl hr
    rw [blockCompleted_cancels hr h]
    exact ⟨[], rfl⟩
  · rintro t rfl
    rw [hafter] at hpost
    exact hpost

/-- An event that is handled, with the calls of its handler. -/
def exchangeStep (conn : PeerConnection) (e : IPC × List (Σ e : Call, e.Reply))
    (conn' : PeerConnection) : Prop :=
  Finishes (handleIpc e.1) conn e.2 () conn'

/-- The exchanges of a run. -/
def history (trace : List (Step PeerConnection (IPC × List (Σ e : Call, e.Reply)))) :
    List Exchange :=
  trace.flatMap fun x => exchanges x.label.1 x.label.2

variable {havePieces : List Bool}
  {trace : List (Step PeerConnection (IPC × List (Σ e : Call, e.Reply)))}

theorem history_orderly (run : Run exchangeStep (new havePieces) trace s) :
    RequestsApart s ∧ Orderly RequestQueue.new (history trace) ∧
      s.me.requests = RequestQueue.new.afterExchanges (history trace) := by
  induction run with
  | nil => exact ⟨new_requestsApart havePieces, trivial, rfl⟩
  | snoc run last ih =>
    obtain ⟨hs, horderly, hqueue⟩ := ih
    obtain ⟨hnext, hafter⟩ := handleIpc_exchanges hs last
    obtain ⟨ht, hqueue'⟩ := hafter _ rfl
    rw [hqueue] at hnext hqueue'
    rw [history, List.flatMap_append, List.flatMap_singleton]
    refine ⟨ht, horderly.append hnext, ?_⟩
    rw [hqueue', afterExchanges, afterExchanges, afterExchanges, List.foldl_append]
    rfl

/-- In every state of a run the queue holds no block twice, not too many, and none that
waits in the map; and in the exchanges up to there and in those of the next event, whether
its handler succeeds or fails, no block is requested again before it was taken out. -/
theorem requests_sent_once (run : Run exchangeStep (new havePieces) trace s) :
    s.me.requests.keys.Nodup ∧ s.me.requests.len ≤ maxConcurrentRequests ∧
      (∀ key ∈ s.toRequest, key ∉ s.me.requests.keys) ∧ RequestedOnce (history trace) ∧
      ∀ ipc calls result, Program.Returns (handleIpc ipc s) calls result →
        RequestedOnce (history trace ++ exchanges ipc calls) := by
  obtain ⟨hs, horderly, hqueue⟩ := history_orderly run
  refine ⟨hs.nodup, hs.len_le, hs.disjoint, requestedOnce_of_orderly horderly, ?_⟩
  intro ipc calls result h
  have hnext := (handleIpc_exchanges hs h).1
  rw [hqueue] at hnext
  exact requestedOnce_of_orderly (horderly.append hnext)

theorem run_of_ipcStep {start : PeerConnection} {trace : List (Step PeerConnection IPC)}
    (run : Run ipcStep start trace s) :
    ∃ trace', Run exchangeStep start trace' s ∧
      trace'.map (·.label.1) = trace.map (·.label) := by
  induction run with
  | nil => exact ⟨[], .nil, rfl⟩
  | snoc run last ih =>
    obtain ⟨trace', run', hlabels⟩ := ih
    obtain ⟨calls, hcalls⟩ := last
    refine ⟨_, run'.snoc (e := (_, calls)) hcalls, ?_⟩
    rw [List.map_append, List.map_append, hlabels]
    rfl

/-- The peer has a piece of two blocks and unchokes us, and one of them comes. -/
def requestingConnection : PeerConnection where
  me := ⟨[false], false, true, ⟨[⟨0, 1, 16384, 1⟩]⟩⟩
  he := ⟨[true], true, false, ⟨[]⟩⟩
  toRequest := ∅
  uploadInProgress := false

theorem requests_sent_once_two_blocks :
    ∃ trace, Run exchangeStep (new [false]) trace requestingConnection ∧
      trace.map (·.label.1) = [.message (.have 0), .message .unChoke, .blockCompleted 0 0] ∧
      requestingConnection.me.requests.keys.Nodup ∧
      requestingConnection.me.requests.len ≤ maxConcurrentRequests ∧
      (∀ key ∈ requestingConnection.toRequest,
        key ∉ requestingConnection.me.requests.keys) ∧ RequestedOnce (history trace) ∧
      ∀ ipc calls result, Program.Returns (handleIpc ipc requestingConnection) calls result →
        RequestedOnce (history trace ++ exchanges ipc calls) := by
  have hrun : execute (answerWith [(0, 16384), (1, 1)]) (new [false]) [.message (.have 0),
      .message .unChoke, .blockCompleted 0 0] = some requestingConnection := rfl
  obtain ⟨trace, run, hlabels⟩ := run_of_execute Run.nil hrun
  obtain ⟨trace', run', hlabels'⟩ := run_of_ipcStep run
  exact ⟨trace', run', hlabels'.trans hlabels, requests_sent_once run'⟩

end PeerConnection
end TorrentClient
