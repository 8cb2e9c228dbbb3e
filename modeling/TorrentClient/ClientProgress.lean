import TorrentClient.ClientWiring
import TorrentClient.BlockedLoops

/-!
# Where the client can stop

The download task waits for nobody, a connection waits for the download task and for its own
write loop, and the manager waits for the connections. So the client stops only at rest, or where
a write loop reports an upload to a loop that takes no event because it waits for the write loop.
-/
namespace TorrentClient
open EffectPrograms TransitionRuns

/-- Nothing is left to do for the connection. -/
def ConnectionStage.Rests : ConnectionStage → Prop
  | .looping tasks awaiting => awaiting = false ∧ tasks.Rests
  | .failed => True
  | _ => False

namespace ClientTasks

variable {sha1 : Bytes → Sha1} {s t : ClientTasks} {a : ClientTaskAction} {id : ℕ}
  {c c' : ConnectionTask}

/-- No event and no message is on its way, and every connection that has returned has said so. -/
structure Rests (s : ClientTasks) : Prop where
  announcers : ∀ peers ∈ s.announcers, peers = []
  events : s.events = []
  broadcasting : s.broadcasting = none
  disconnects : s.disconnects = []
  posted : s.download.sent.length ≤ s.posted
  toDownload : s.toDownload = []
  connections : ∀ (id : ℕ) c, s.connections[id]? = some c →
    c.stage.Rests ∧ (c.isOver = true → c.panicked = false → c.notified = true)

theorem exists_call {tasks : ConnectionTasks} {awaiting : Bool} {early : List IPC}
    {notified panicked : Bool} {event : ManagerEvent}
    (h : (⟨.looping tasks awaiting, early, notified, panicked⟩ : ConnectionTask).pending =
      [event]) :
    awaiting = true ∧ ∃ (e : Call) (next : e.Reply → PendingHandler),
      tasks.loop = .running (.call e next) ∧ e.question = some event := by
  obtain ⟨loop, writeLoop, ipcs, writer⟩ := tasks
  cases awaiting with
  | false => cases h
  | true =>
    cases loop with
    | running rest =>
      cases rest with
      | done r => cases h
      | call e next =>
        have hevent : e.question.toList = [event] := h
        cases hquestion : e.question with
        | none =>
          rw [hquestion] at hevent
          cases hevent
        | some event' =>
          rw [hquestion] at hevent
          cases hevent
          exact ⟨rfl, e, next, rfl, hquestion⟩
    | _ => cases h

/-- The connection that waits for the answer takes it. -/
theorem exists_answer {e : ManagerEvent} {r : Download.Reply} {d d' : Download}
    (handled : Download.handleEvent sha1 e d = .ok r d')
    (hpending : e.isQuestion = true → c.pending = [e]) : ∃ c', c.answer r = some c' := by
  obtain ⟨stage, early, notified, panicked⟩ := c
  cases Download.handleEvent_reply handled with
  | silent => exact ⟨_, rfl⟩
  | havePieces =>
    have hasked := hpending rfl
    cases stage with
    | awaitingPieces => exact ⟨_, rfl⟩
    | looping tasks awaiting =>
      obtain ⟨-, call, next, -, hevent⟩ := exists_call hasked
      cases call <;> cases hevent
    | _ => cases hasked
  | data =>
    have hasked := hpending rfl
    cases stage with
    | looping tasks awaiting =>
      obtain ⟨rfl, call, next, hcall, hevent⟩ := exists_call hasked
      obtain ⟨loop, writeLoop, ipcs, writer⟩ := tasks
      cases hcall
      cases call with
      | requireData => exact ⟨_, rfl⟩
      | _ => cases hevent
    | _ => cases hasked
  | blocks =>
    have hasked := hpending rfl
    cases stage with
    | looping tasks awaiting =>
      obtain ⟨rfl, call, next, hcall, hevent⟩ := exists_call hasked
      obtain ⟨loop, writeLoop, ipcs, writer⟩ := tasks
      cases hcall
      cases call with
      | requireIncompleteBlocks => exact ⟨_, rfl⟩
      | _ => cases hevent
    | _ => cases hasked

/-- The connection that has sent an event takes the answer to it, and has waited for it if the
event is a question. -/
theorem exists_taker {e : ManagerEvent} {toDownload : List (ℕ × ManagerEvent)}
    {r : Download.Reply} {d : Download} (hs : Asked s) (hgoing : s.downloadOver = false)
    (hqueue : s.toDownload = (id, e) :: toDownload)
    (handled : Download.handleEvent sha1 e s.download = .ok r d) :
    ∃ c c', s.connections[id]? = some c ∧ c.answer r = some c' ∧
      (e.isQuestion = true → c.pending = [e]) := by
  have hlt : id < s.connections.length := hs.senders (id, e) (by simp [hqueue])
  have hc := List.getElem?_eq_getElem hlt
  have hasked := hs.questions hgoing id _ hc
  have hpending : e.isQuestion = true → s.connections[id].pending = [e] := by
    intro hquestion
    have hle := s.connections[id].length_pending_le
    rw [← hasked] at hle ⊢
    simp only [questions, hqueue, List.filter_cons, beq_self_eq_true, hquestion,
      Bool.and_self, if_true, List.map_cons, List.length_cons] at hle ⊢
    rw [List.eq_nil_of_length_eq_zero (Nat.le_zero.mp (Nat.le_of_succ_le_succ hle))]
  obtain ⟨c', hanswer⟩ := exists_answer handled hpending
  exact ⟨_, c', hc, hanswer, hpending⟩

/-- What the manager can take next: the event at the front of its channel, the end of its
broadcast, or a notification. -/
inductive MayTake (s : ClientTasks) : ManagerInput → Prop where
  | event {e : ManagerEvent} {events : List ManagerEvent} {receivers : Receivers}
      (hqueue : s.events = e :: events)
      (hwalks : (ManagerInput.event e receivers).Walks s.manager) : MayTake s (.event e receivers)
  | broadcast {b : Broadcasting} (hsending : s.broadcasting = some b) :
      MayTake s (.event (.broadcast b.ipc) (Client.receivers b.order b.lost))
  | disconnect {peer : Peer} {disconnects : List Peer}
      (hqueue : s.disconnects = peer :: disconnects) : MayTake s (.disconnect peer)

/-- The manager fails on nothing that it takes. -/
theorem MayTake.handled {input : ManagerInput} (h : MayTake s input) (hman : Managed s)
    (hinf : Informed s) : ∃ m, Manager.handleInput input s.manager = .ok none m := by
  cases h with
  | @event e events receivers hqueue hwalks =>
    cases hinf.head hqueue with
    | announced peer => exact Manager.handleInput_ok hman.table rfl hwalks trivial
    | tracker peers => exact ⟨_, rfl⟩
    | news hnews =>
      cases e with
      | broadcast ipc => exact Manager.handleInput_ok hman.table trivial hwalks trivial
      | fileFinish fileIndex filePath =>
        have hlt : fileIndex < s.manager.filePaths.length := by
          rw [hinf.length_paths]
          exact hnews
        exact Manager.handleInput_fileFinish hlt filePath receivers
      | _ => exact hnews.elim
  | broadcast hsending =>
    exact Manager.handleInput_ok hman.table trivial (hman.walk _ hsending).1 trivial
  | disconnect hqueue => exact ⟨_, rfl⟩

theorem reachable_wired {metaInfo : TorrentMetaInfo} {download : Download}
    (h : Reachable (Moves sha1) (start (.new metaInfo download.filePaths) download) s) :
    Managed s ∧ Informed s ∧ Asked s := by
  have hinit : Managed (start (.new metaInfo download.filePaths) download) ∧
      Informed (start (.new metaInfo download.filePaths) download) ∧
      Asked (start (.new metaInfo download.filePaths) download) :=
    ⟨managed_start _ _ _, informed_start rfl, asked_start _ _⟩
  have hstep : ∀ u a v, (Managed u ∧ Informed u ∧ Asked u) → Moves sha1 u a v →
      Managed v ∧ Informed v ∧ Asked v := by
    rintro u a v ⟨hman, hinf, hasked⟩ hmove
    exact ⟨hmove.managed hinf hman, hmove.informed hinf, hmove.asked hasked⟩
  exact h.invariant hinit hstep

end ClientTasks
end TorrentClient
