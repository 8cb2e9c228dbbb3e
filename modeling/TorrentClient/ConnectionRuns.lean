import TorrentClient.UnblockedRuns

/-!
# The connections of the client run like the connection's own tasks

Whatever the manager, the download task and the other connections do, the tasks of a connection
are in a state that they reach by the moves of one connection alone. So what has been shown of
these holds for every connection of the client.
-/
namespace TorrentClient
open EffectPrograms TransitionRuns

namespace ConnectionTasks

variable {tasks tasks' : ConnectionTasks} {a : TaskAction}

/-- The tasks have come to their state by the moves of one connection, or the loop has ended
after it had waited for the write loop in such a state. -/
def Stands (tasks : ConnectionTasks) : Prop :=
  ∃ havePieces, Reachable actStep (start havePieces) tasks ∨
    tasks.loop = .ended ∧ tasks.writeLoop = .ended ∧
      Reachable actStep (start havePieces) { tasks with loop := .closing }

/-- A loop that has ended with its write loop makes no further move. -/
theorem stuck_of_ended (hloop : tasks.loop = .ended) (hwriter : tasks.writeLoop = .ended) :
    ¬ actStep tasks a tasks' := by
  obtain ⟨loop, writeLoop, ipcs, writer⟩ := tasks
  cases hloop
  cases hwriter
  intro h
  cases a with
  | broadcasts ipc =>
    simp [actStep, act, deliver, LoopPhase.isReceiver] at h
  | reads m => cases h
  | _ => cases h

theorem Stands.act (h : tasks.Stands) (hact : actStep tasks a tasks') : tasks'.Stands := by
  obtain ⟨havePieces, hreach | ⟨hloop, hwriter, -⟩⟩ := h
  · exact ⟨havePieces, Or.inl (hreach.tail hact)⟩
  · exact absurd hact (stuck_of_ended hloop hwriter)

/-- Any answer of a task is one that the open model admits. -/
theorem exists_answers {e : Call} {next : e.Reply → PendingHandler}
    (hloop : tasks.loop = .running (.call e next)) (he : e.isSend = false) (r : e.Reply) :
    ∃ a, actStep tasks a { tasks with loop := .running (next r) } := by
  classical
  let answer : (e' : Call) → e'.Reply := fun e' =>
    if heq : e = e' then heq ▸ r else e'.refused
  have hanswer : answer e = r := dif_pos rfl
  refine ⟨.answers answer, ?_⟩
  rw [actStep, ConnectionTasks.act, hloop]
  simp only [he, Bool.false_eq_true, if_false, hanswer]

theorem Stands.answers {e : Call} {next : e.Reply → PendingHandler} (h : tasks.Stands)
    (hloop : tasks.loop = .running (.call e next)) (he : e.isSend = false) (r : e.Reply) :
    Stands { tasks with loop := .running (next r) } := by
  obtain ⟨a, hact⟩ := exists_answers hloop he r
  exact h.act hact

theorem broadcasts_of_deliver {ipc : IPC} (hipc : ipc.isBroadcast = true)
    (h : tasks.deliver ipc = some tasks') : actStep tasks (.broadcasts ipc) tasks' :=
  (if_pos hipc).trans h

/-- The events that have come in before the loop began. -/
theorem reachable_early {s₀ : ConnectionTasks} {early : List IPC}
    (h : Reachable actStep s₀ tasks) (hloop : tasks.loop.isReceiver = true)
    (hearly : ∀ ipc ∈ early, ipc.isBroadcast = true)
    (hroom : tasks.ipcs.length + early.length ≤ channelCapacity) :
    Reachable actStep s₀ { tasks with ipcs := tasks.ipcs ++ early } := by
  induction early generalizing tasks with
  | nil => simpa using h
  | cons ipc early ih =>
    rw [List.forall_mem_cons] at hearly
    rw [List.length_cons] at hroom
    have hfree : tasks.ipcs.length < channelCapacity := by omega
    have hdeliver : tasks.deliver ipc = some { tasks with ipcs := tasks.ipcs ++ [ipc] } :=
      deliver_of_room hloop hfree
    have hnext := h.tail (broadcasts_of_deliver hearly.1 hdeliver)
    have hrest := ih hnext hloop hearly.2 (by simp; omega)
    simpa using hrest

theorem stands_start {havePieces : List Bool} {early : List IPC}
    (hearly : ∀ ipc ∈ early, ipc.isBroadcast = true) (hroom : early.length ≤ channelCapacity) :
    Stands { start havePieces with ipcs := early } := by
  have hlength : (start havePieces).ipcs.length + early.length ≤ channelCapacity := by
    rw [start, List.length_nil, Nat.zero_add]
    exact hroom
  have hreach : Reachable actStep (start havePieces)
      { start havePieces with ipcs := [] ++ early } :=
    reachable_early .refl rfl hearly hlength
  exact ⟨havePieces, Or.inl hreach⟩

/-- The loop has waited for the write loop. -/
theorem Stands.ends (h : tasks.Stands) (hloop : tasks.loop = .closing)
    (hwriter : tasks.writeLoop = .ended) : Stands { tasks with loop := .ended } := by
  obtain ⟨loop, writeLoop, ipcs, writer⟩ := tasks
  cases hloop
  obtain ⟨havePieces, hreach | ⟨hended, -⟩⟩ := h
  · exact ⟨havePieces, Or.inr ⟨rfl, hwriter, hreach⟩⟩
  · cases hended

end ConnectionTasks

namespace Call

theorem isSend_of_takeReply {e : Call} {reply : Download.Reply} {r : e.Reply}
    (h : e.takeReply reply = some r) : e.isSend = false := by
  cases e with
  | send m => cases h
  | _ => rfl

theorem isSend_of_toDownloadTask {e : Call} (h : e.toDownloadTask = true) : e.isSend = false := by
  cases e with
  | send m => cases h
  | _ => rfl

end Call

namespace ConnectionTask

variable {c c' : ConnectionTask}

/-- What waits for the loop are events for which there was room, and the loop runs like one of a
connection alone. -/
structure Stands (c : ConnectionTask) : Prop where
  early : ∀ ipc ∈ c.early, ipc.isBroadcast = true
  room : c.early.length ≤ channelCapacity
  loop : ∀ tasks awaiting, c.stage = .looping tasks awaiting → tasks.Stands

theorem Stands.withoutLoop (h : c.Stands) (hearly : c'.early = c.early)
    (hstage : ∀ tasks awaiting, c'.stage ≠ .looping tasks awaiting) : c'.Stands where
  early := hearly ▸ h.early
  room := hearly ▸ h.room
  loop tasks awaiting heq := absurd heq (hstage tasks awaiting)

/-- Nothing waits for a loop that never begins. -/
theorem stands_of_nil (hearly : c.early = [])
    (hstage : ∀ tasks awaiting, c.stage ≠ .looping tasks awaiting) : c.Stands where
  early := by simp [hearly]
  room := by simp [hearly]
  loop tasks awaiting heq := absurd heq (hstage tasks awaiting)

theorem Stands.setLoop {tasks : ConnectionTasks} (h : c.Stands) (htasks : tasks.Stands)
    (awaiting : Bool) : (c.setLoop tasks awaiting).Stands where
  early := h.early
  room := h.room
  loop tasks' awaiting' heq := by
    cases heq
    exact htasks

theorem Stands.deliver {ipc : IPC} (h : c.Stands) (hipc : ipc.isBroadcast = true)
    (hdeliver : c.deliver ipc = some c') : c'.Stands := by
  obtain ⟨stage, early, notified⟩ := c
  cases stage with
  | looping tasks awaiting =>
    obtain ⟨tasks', htasks, rfl⟩ := Option.map_eq_some_iff.mp hdeliver
    have hact := ConnectionTasks.broadcasts_of_deliver hipc htasks
    exact h.setLoop ((h.loop tasks awaiting rfl).act hact) awaiting
  | failed => cases hdeliver
  | _ =>
    rw [ConnectionTask.deliver] at hdeliver
    split_ifs at hdeliver with hroom
    cases hdeliver
    refine ⟨?_, ?_, fun _ _ heq => by cases heq⟩
    · exact List.forall_mem_append.mpr ⟨h.early, List.forall_mem_singleton.mpr hipc⟩
    · rw [List.length_append]
      exact hroom

theorem Stands.answer {reply : Download.Reply} (h : c.Stands)
    (hanswer : c.answer reply = some c') : c'.Stands := by
  rw [ConnectionTask.answer.eq_def] at hanswer
  split at hanswer
  · cases hanswer
    exact h
  · cases hanswer
    exact h.withoutLoop rfl fun _ _ heq => by cases heq
  · rename_i hstage
    split at hanswer
    · rename_i hcall
      obtain ⟨r, hr, rfl⟩ := Option.map_eq_some_iff.mp hanswer
      have htasks := h.loop _ true hstage
      exact h.setLoop (htasks.answers hcall (Call.isSend_of_takeReply hr) r) false
    · cases hanswer
  · cases hanswer

theorem Stands.connected (h : c.Stands) (havePieces : List Bool) :
    (c.connected havePieces).Stands where
  early := by simp [ConnectionTask.connected]
  room := Nat.zero_le _
  loop tasks awaiting heq := by
    cases heq
    exact ConnectionTasks.stands_start h.early h.room

end ConnectionTask

namespace ClientTasks

variable {sha1 : Bytes → Sha1} {s t : ClientTasks} {a : ClientTaskAction} {id : ℕ}
  {c : ConnectionTask}

/-- Every connection runs like one alone, and what the manager sends is a broadcast. -/
structure Stands (s : ClientTasks) : Prop where
  connections : ∀ (id : ℕ) c, s.connections[id]? = some c → c.Stands
  sending : ∀ b, s.broadcasting = some b → b.ipc.isBroadcast = true

theorem stands_start (manager : Manager) (download : Download) :
    Stands (start manager download) where
  connections _ _ hc := by cases hc
  sending _ hb := by cases hb

theorem Stands.congr (h : Stands s) (hconnections : t.connections = s.connections)
    (hsending : t.broadcasting = s.broadcasting) : Stands t where
  connections := hconnections ▸ h.connections
  sending := hsending ▸ h.sending

theorem Stands.setConnection (h : Stands s) (hc : c.Stands) : Stands (s.setConnection id c) where
  connections := forall_setConnection hc fun j c' _ hj => h.connections j c' hj
  sending := h.sending

theorem Stands.round (h : Stands s) (manager : Manager) : Stands (s.afterRound manager) where
  connections id c hc := by
    rw [afterRound, List.getElem?_append] at hc
    split_ifs at hc with hlt
    · exact h.connections id c hc
    · rw [List.eq_of_mem_replicate (List.mem_of_getElem? hc)]
      exact ConnectionTask.stands_of_nil rfl fun _ _ heq => by cases heq
  sending := h.sending

/-- The part of the manager in a step of a broadcast. -/
theorem Stands.withBroadcasting {broadcasting : Option Broadcasting} (h : Stands s)
    (hsending : ∀ b, broadcasting = some b → b.ipc.isBroadcast = true) :
    Stands { s with broadcasting } :=
  ⟨h.connections, hsending⟩

theorem Moves.stands (h : Moves sha1 s a t) (hinf : Informed s) (hs : Stands s) : Stands t := by
  cases h with
  | handles =>
    apply Stands.round
    exact hs.congr rfl rfl
  | finishes =>
    apply Stands.round
    exact hs.withBroadcasting fun _ hb => by cases hb
  | disconnects =>
    apply Stands.round
    exact hs.congr rfl rfl
  | broadcasts hidle hqueue horder =>
    refine ⟨hs.connections, fun b hb => ?_⟩
    cases hb
    cases hinf.head hqueue with
    | news hnews => exact hnews
  | @reaches b entry remaining c c' hsending hnext hc hdeliver =>
    have hipc := hs.sending b hsending
    refine Stands.setConnection (hs.withBroadcasting fun b' hb' => ?_)
      ((hs.connections _ c hc).deliver hipc hdeliver)
    cases hb'
    exact hipc
  | @misses b entry remaining c hsending hnext hc hover =>
    refine hs.withBroadcasting fun b' hb' => ?_
    cases hb'
    exact hs.sending b hsending
  | replies hgoing hposted hqueue handled hc hanswer =>
    exact Stands.setConnection (hs.congr rfl rfl) ((hs.connections _ _ hc).answer hanswer)
  | requires hc hstage hroom =>
    exact Stands.setConnection (hs.congr rfl rfl)
      ((hs.connections _ _ hc).withoutLoop rfl fun _ _ heq => by cases heq)
  | connects hc hstage => exact hs.setConnection ((hs.connections _ _ hc).connected _)
  | fails | unparsed =>
    exact hs.setConnection (ConnectionTask.stands_of_nil rfl fun _ _ heq => by cases heq)
  | cancelled =>
    exact hs.setConnection (ConnectionTask.stands_of_nil rfl fun _ _ heq => by cases heq)
  | tells hc hstage hloop hroom =>
    have hc := hs.connections _ _ hc
    have htasks := (hc.loop _ _ hstage).answers hloop rfl true
    exact Stands.setConnection (hs.congr rfl rfl) (hc.setLoop htasks false)
  | asks hc hstage hloop hevent hroom =>
    have hc := hs.connections _ _ hc
    exact Stands.setConnection (hs.congr rfl rfl) (hc.setLoop (hc.loop _ _ hstage) true)
  | @refused id c tasks awaiting e next hc hstage hloop he hover =>
    have hc := hs.connections _ _ hc
    have hsend := Call.isSend_of_toDownloadTask he
    exact hs.setConnection (hc.setLoop ((hc.loop _ _ hstage).answers hloop hsend e.refused) false)
  | picks choice hc hstage hloop =>
    have hc := hs.connections _ _ hc
    exact hs.setConnection (hc.setLoop ((hc.loop _ _ hstage).answers hloop rfl choice) _)
  | acts hown hc hstage hgoing hact =>
    have hc := hs.connections _ _ hc
    exact hs.setConnection (hc.setLoop ((hc.loop _ _ hstage).act hact) _)
  | @panics id c tasks tasks' awaiting a hc hstage hpanics hact =>
    have hc := hs.connections _ _ hc
    have hnext : (c.setLoop tasks' awaiting).Stands :=
      hc.setLoop ((hc.loop _ _ hstage).act hact) awaiting
    exact hs.setConnection ⟨hnext.early, hnext.room, hnext.loop⟩
  | ends hc hstage hloop hwriter =>
    have hc := hs.connections _ _ hc
    exact hs.setConnection (hc.setLoop ((hc.loop _ _ hstage).ends hloop hwriter) _)
  | notifies hc hover hreturned hfirst hpeer hroom =>
    have hc := hs.connections _ _ hc
    exact Stands.setConnection (hs.congr rfl rfl) ⟨hc.early, hc.room, hc.loop⟩
  | _ => exact hs.congr rfl rfl

/-- In every run of the client the tasks of a connection whose loop has begun are in a state that
the tasks of one connection reach alone, or the loop has ended after it had waited for the write
loop in such a state. -/
theorem connections_run_alone {metaInfo : TorrentMetaInfo} {download : Download}
    (h : Reachable (Moves sha1) (start (.new metaInfo download.filePaths) download) s)
    (hc : s.connections[id]? = some c) {tasks : ConnectionTasks} {awaiting : Bool}
    (hstage : c.stage = .looping tasks awaiting) :
    ∃ havePieces,
      Reachable ConnectionTasks.actStep (ConnectionTasks.start havePieces) tasks ∨
        tasks.loop = .ended ∧ tasks.writeLoop = .ended ∧
          Reachable ConnectionTasks.actStep (ConnectionTasks.start havePieces)
            { tasks with loop := .closing } := by
  have hs : Stands s := by
    apply h.invariant_of_reachable (stands_start _ download)
    intro u a v hu hstands hmove
    exact hmove.stands (reachable_wired hu).2.1 hstands
  exact (hs.connections id c hc).loop tasks awaiting hstage

/-- The loop of `greetedClient` after an `UnChoke`, for which it has no use. -/
def unchokedTasks : ConnectionTasks :=
  ⟨.idle { PeerConnection.new [false] with me := ⟨[false], false, false, ⟨[]⟩⟩ }, .receiving, [],
    []⟩

/-- The loop has handled an event of the peer. -/
theorem connections_run_alone_unchoked :
    ∃ s : ClientTasks, Reachable (Moves fun _ => Sha1.replicate 0) greetedClient s ∧
      s.connections[0]? = some ⟨.looping unchokedTasks false, [], false, false⟩ ∧
      ∃ havePieces,
        Reachable ConnectionTasks.actStep (ConnectionTasks.start havePieces) unchokedTasks ∨
          unchokedTasks.loop = .ended ∧ unchokedTasks.writeLoop = .ended ∧
            Reachable ConnectionTasks.actStep (ConnectionTasks.start havePieces)
              { unchokedTasks with loop := .closing } := by
  have hgreeted : Reachable (Moves fun _ => Sha1.replicate 0) greetedClient greetedClient := .refl
  have hreads := hgreeted.tail
    (@Moves.acts _ _ 0 _ _ _ _ (.reads .unChoke) rfl rfl rfl (fun h => by cases h.1) rfl)
  have htakes := hreads.tail
    (@Moves.acts _ _ 0 _ _ _ _ .takes rfl rfl rfl (fun h => by cases h.1) rfl)
  have hreturns := htakes.tail
    (@Moves.acts _ _ 0 _ _ _ _ .returns rfl rfl rfl (fun h => by cases h.2) rfl)
  have hreach := greeted_safely.reachable.trans hreturns
  exact ⟨_, hreturns, rfl, @connections_run_alone _ _ 0 _ _ _ hreach rfl _ _ rfl⟩

end ClientTasks
end TorrentClient
