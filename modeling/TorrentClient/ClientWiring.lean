import TorrentClient.ClientNames
import TorrentClient.ConnectionTable
import TorrentClient.MissedPieces
import TorrentClient.BlockOwnership

/-!
# How the tasks of the client hang together

Every entry of the manager belongs to a connection that has been started, and every question in
the channel of the download task is the one that its connection waits for.
-/
namespace TorrentClient
open EffectPrograms TransitionRuns

/-- The event asks for an answer. -/
def ManagerEvent.isQuestion : ManagerEvent → Bool
  | .requireData _ => true
  | .requireIncompleteBlocks _ => true
  | .requireHavePieces => true
  | _ => false

/-- The connections of the tracker path send their handshake first. -/
theorem ManagerEvent.Incoming.input_announced {count : ℕ} {e : ManagerEvent}
    (h : e.Incoming count) (receivers : Receivers) :
    (ManagerInput.event e receivers).Announced := by
  cases h with
  | news h =>
    cases e with
    | connection => exact h.elim
    | _ => trivial
  | announced => rfl
  | tracker => trivial

namespace ConnectionTask

/-- The question that the connection waits for. -/
def pending (c : ConnectionTask) : List ManagerEvent :=
  match c.stage with
  | .awaitingPieces => [.requireHavePieces]
  | .looping tasks true =>
    match tasks.loop with
    | .running (.call e _) => e.question.toList
    | _ => []
  | _ => []

/-- A loop that waits for an answer has asked a question. -/
def Waits (c : ConnectionTask) : Prop :=
  ∀ tasks, c.stage = .looping tasks true → ∃ (e : Call) (next : e.Reply → PendingHandler)
    (event : ManagerEvent), tasks.loop = .running (.call e next) ∧ e.question = some event

variable {c c' : ConnectionTask}

theorem waits_of_stage (h : ∀ tasks, c.stage ≠ .looping tasks true) : c.Waits :=
  fun tasks hstage => absurd hstage (h tasks)

theorem Waits.not_awaiting {tasks : ConnectionTasks} {awaiting : Bool} (h : c.Waits)
    (hstage : c.stage = .looping tasks awaiting)
    (hloop : ∀ (e : Call) next event, tasks.loop = .running (.call e next) →
      e.question ≠ some event) : awaiting = false := by
  cases awaiting with
  | false => rfl
  | true =>
    obtain ⟨e, next, event, hcall, hevent⟩ := h tasks hstage
    exact absurd hevent (hloop e next event hcall)

@[simp] theorem pending_setLoop_false (c : ConnectionTask) (tasks : ConnectionTasks) :
    (c.setLoop tasks false).pending = [] := rfl

theorem waits_setLoop_false (c : ConnectionTask) (tasks : ConnectionTasks) :
    (c.setLoop tasks false).Waits :=
  waits_of_stage fun _ h => by cases h

theorem pending_of_stage (h : c'.stage = c.stage) : c'.pending = c.pending := by
  rw [pending, pending, h]

theorem Waits.of_stage (h : c.Waits) (hstage : c'.stage = c.stage) : c'.Waits := by
  intro tasks hlooping
  exact h tasks (hstage ▸ hlooping)

theorem length_pending_le (c : ConnectionTask) : c.pending.length ≤ 1 := by
  rw [pending]
  split
  · exact Nat.le_refl 1
  · split
    · rename_i e _ _
      cases e <;> simp [Call.question]
    · exact Nat.zero_le 1
  · exact Nat.zero_le 1

/-- The tasks of the connection go on while its loop stays where it is. -/
theorem setLoop_keeps {tasks tasks' : ConnectionTasks} {awaiting : Bool} (h : c.Waits)
    (hstage : c.stage = .looping tasks awaiting)
    (hloop : awaiting = true → tasks'.loop = tasks.loop) :
    (c.setLoop tasks' awaiting).Waits ∧ (c.setLoop tasks' awaiting).pending = c.pending := by
  cases awaiting with
  | false =>
    have hnone : c.pending = [] := by simp [pending, hstage]
    exact ⟨waits_setLoop_false c tasks', hnone.symm⟩
  | true =>
    obtain ⟨e, next, event, hcall, hevent⟩ := h tasks hstage
    have hcall' : tasks'.loop = .running (.call e next) := (hloop rfl).trans hcall
    constructor
    · intro tasks'' heq
      cases heq
      exact ⟨e, next, event, hcall', hevent⟩
    · simp [pending, setLoop, hstage, hcall, hcall']

theorem deliver_keeps {ipc : IPC} (h : c.Waits) (hdeliver : c.deliver ipc = some c') :
    c'.Waits ∧ c'.pending = c.pending := by
  obtain ⟨stage, early, notified⟩ := c
  cases stage with
  | looping tasks awaiting =>
    obtain ⟨tasks', htasks, rfl⟩ := Option.map_eq_some_iff.mp hdeliver
    obtain ⟨-, rfl⟩ := ConnectionTasks.deliver_eq_some htasks
    exact setLoop_keeps h rfl fun _ => rfl
  | failed => cases hdeliver
  | _ =>
    rw [deliver] at hdeliver
    split_ifs at hdeliver
    cases hdeliver
    exact ⟨h.of_stage rfl, rfl⟩

/-- An answer ends the waiting. -/
theorem answer_cases {reply : Download.Reply} (h : c.answer reply = some c') :
    (reply = .none ∧ c' = c) ∨ (reply ≠ .none ∧ c'.Waits ∧ c'.pending = []) := by
  rw [answer.eq_def] at h
  split at h
  · cases h
    exact Or.inl ⟨rfl, rfl⟩
  · cases h
    exact Or.inr ⟨by simp, waits_of_stage fun _ heq => (by cases heq), rfl⟩
  · rename_i hne hpieces
    split at h
    · obtain ⟨r, hr, rfl⟩ := Option.map_eq_some_iff.mp h
      exact Or.inr ⟨fun heq => hne heq, waits_setLoop_false c _, rfl⟩
    · cases h
  · cases h

end ConnectionTask

namespace ConnectionTasks

variable {s t : ConnectionTasks} {a : TaskAction}

/-- A loop that is in a call to the download task stays there. -/
theorem loop_eq_of_question {e : Call} {next : e.Reply → PendingHandler} {event : ManagerEvent}
    (hloop : s.loop = .running (.call e next)) (hevent : e.question = some event)
    (hown : a.isOwn = true) (h : actStep s a t) : t.loop = s.loop := by
  rw [actStep, act.eq_def] at h
  cases a with
  | reads m =>
    obtain ⟨-, rfl⟩ := deliver_eq_some h
    rfl
  | broadcasts => cases hown
  | answers => cases hown
  | beginsSend =>
    rw [hloop] at h
    cases e with
    | send m => cases hevent
    | _ => cases h
  | writerTakes =>
    simp only at h
    split at h
    · cases h
      rfl
    · cases h
  | writes =>
    simp only at h
    split at h
    · cases h
      rfl
    · cases h
  | writeFails =>
    simp only at h
    split at h
    · cases h
      rfl
    · cases h
  | notifies =>
    simp only at h
    split at h
    · split at h
      · obtain ⟨t', hdeliver, rfl⟩ := Option.map_eq_some_iff.mp h
        obtain ⟨-, rfl⟩ := deliver_eq_some hdeliver
        rfl
      · cases h
        rfl
    · cases h
  | writerEnds =>
    simp only at h
    split at h
    · split at h
      · cases h
        rfl
      · cases h
    · cases h
  | _ =>
    rw [hloop] at h
    cases h

end ConnectionTasks

/-- What the tasks of a connection do by themselves keeps its question. -/
theorem ConnectionTask.act_keeps {c : ConnectionTask} {tasks tasks' : ConnectionTasks}
    {awaiting : Bool} {a : TaskAction} (h : c.Waits) (hstage : c.stage = .looping tasks awaiting)
    (hown : a.isOwn = true) (hact : ConnectionTasks.actStep tasks a tasks') :
    (c.setLoop tasks' awaiting).Waits ∧ (c.setLoop tasks' awaiting).pending = c.pending := by
  refine ConnectionTask.setLoop_keeps h hstage ?_
  rintro rfl
  obtain ⟨e, next, event, hcall, hevent⟩ := h tasks hstage
  exact ConnectionTasks.loop_eq_of_question hcall hevent hown hact

namespace ClientTasks

variable {sha1 : Bytes → Sha1} {s t : ClientTasks} {a : ClientTaskAction} {id : ℕ}
  {c c' : ConnectionTask}

/-! ### The manager and its connections -/

/-- The manager and the connections belong together. -/
structure Managed (s : ClientTasks) : Prop where
  length_eq : s.connections.length = s.manager.started.length
  table : s.manager.TableInvariant
  entries : ∀ peer id, s.manager.peers.lookup peer = some id → id < s.connections.length
  walk : ∀ b, s.broadcasting = some b →
    b.order.Perm s.manager.peers.entries ∧ ∀ entry ∈ b.remaining, entry ∈ b.order

@[simp] theorem length_setConnection (s : ClientTasks) (id : ℕ) (c : ConnectionTask) :
    (s.setConnection id c).connections.length = s.connections.length := by
  simp [setConnection]

theorem managed_start (metaInfo : TorrentMetaInfo) (filePaths : List String) (download : Download) :
    Managed (start (.new metaInfo filePaths) download) where
  length_eq := rfl
  table := Manager.tableInvariant_new metaInfo filePaths
  entries := fun _ _ h => by cases h
  walk := fun _ h => by cases h

theorem Managed.congr (h : Managed s) (hmanager : t.manager = s.manager)
    (hlength : t.connections.length = s.connections.length)
    (hwalk : ∀ b, t.broadcasting = some b →
      b.order.Perm s.manager.peers.entries ∧ ∀ entry ∈ b.remaining, entry ∈ b.order) :
    Managed t := by
  obtain ⟨hlen, htable, hentries, -⟩ := h
  constructor
  · rw [hlength, hmanager, hlen]
  · rwa [hmanager]
  · rwa [hmanager, hlength]
  · rwa [hmanager]

/-- An event that is not sent on to connections walks over none. -/
theorem walks_of_passedOn {e : ManagerEvent} (h : e.passedOn = []) (receivers : Receivers)
    (m : Manager) : (ManagerInput.event e receivers).Walks m := by
  cases e with
  | broadcast => cases h
  | _ => trivial

/-- A round of the manager, whose new connections begin. -/
theorem Managed.round (h : Managed s) {input : ManagerInput} {r : Option ℕ} {manager : Manager}
    (handled : Manager.handleInput input s.manager = .ok r manager)
    (hannounced : input.Announced) (hwalks : input.Walks s.manager)
    (hconnections : t.connections = s.connections) (hidle : t.broadcasting = none) :
    Managed (t.afterRound manager) := by
  have hgrows := Manager.handleInput_grows handled
  have hlen : (t.afterRound manager).connections.length = manager.started.length := by
    have hle := hgrows.started
    have hold := h.length_eq
    simp [afterRound, hconnections]
    omega
  refine ⟨hlen, ?_, ?_, ?_⟩
  · exact (Manager.inputStep_keeps h.table ⟨hannounced, hwalks, r, handled⟩).1
  · intro peer id hlookup
    rw [hlen]
    rcases hgrows.entries peer id hlookup with hold | hnew
    · exact Nat.lt_of_lt_of_le (h.length_eq ▸ h.entries peer id hold) hgrows.started
    · exact hnew.2
  · intro b hb
    rw [afterRound, hidle] at hb
    cases hb

theorem Moves.managed (h : Moves sha1 s a t) (hinf : Informed s) (hs : Managed s) :
    Managed t := by
  cases h with
  | handles hidle hqueue hother handled =>
    have hannounced := (hinf.head hqueue).input_announced (Client.receivers [] [])
    exact hs.round handled hannounced (walks_of_passedOn hother _ _) rfl hidle
  | broadcasts hidle hqueue horder =>
    refine hs.congr rfl rfl fun b hb => ?_
    cases hb
    exact ⟨horder, fun _ h => h⟩
  | reaches hsending hnext hc hdeliver =>
    refine hs.congr rfl (by simp) fun b' hb => ?_
    cases hb
    obtain ⟨horder, hmem⟩ := hs.walk _ hsending
    rw [hnext] at hmem
    exact ⟨horder, (List.forall_mem_cons.mp hmem).2⟩
  | misses hsending hnext hc hover =>
    refine hs.congr rfl rfl fun b' hb => ?_
    cases hb
    obtain ⟨horder, hmem⟩ := hs.walk _ hsending
    rw [hnext] at hmem
    exact ⟨horder, (List.forall_mem_cons.mp hmem).2⟩
  | finishes hsending hdone handled =>
    exact hs.round handled trivial (hs.walk _ hsending).1 rfl rfl
  | disconnects hidle hqueue handled => exact hs.round handled trivial trivial rfl hidle
  | _ => exact hs.congr rfl (by simp [setConnection, sendDownload]) hs.walk

/-! ### The download task and its questions -/

/-- The questions of the connection that are in the channel of the download task. -/
def questions (s : ClientTasks) (id : ℕ) : List ManagerEvent :=
  (s.toDownload.filter fun p => p.1 == id && p.2.isQuestion).map (·.2)

/-- The questions in the channel are those that the connections wait for. -/
structure Asked (s : ClientTasks) : Prop where
  waits : ∀ (id : ℕ) c, s.connections[id]? = some c → c.Waits
  questions : s.downloadOver = false → ∀ (id : ℕ) c, s.connections[id]? = some c →
    s.questions id = c.pending
  senders : ∀ p ∈ s.toDownload, p.1 < s.connections.length
  cleared : s.downloadOver = true → s.toDownload = []

theorem getElem?_setConnection_of_ne {j : ℕ} (hj : id ≠ j) :
    (s.setConnection id c).connections[j]? = s.connections[j]? := by
  simp [setConnection, List.getElem?_set_ne hj]

theorem forall_setConnection {P : ℕ → ConnectionTask → Prop} (hnew : P id c)
    (hold : ∀ j c', id ≠ j → s.connections[j]? = some c' → P j c') :
    ∀ j c', (s.setConnection id c).connections[j]? = some c' → P j c' := by
  intro j c' hj
  by_cases hid : id = j
  · subst hid
    rw [setConnection, List.getElem?_set, if_pos rfl] at hj
    split_ifs at hj with hlt
    cases hj
    exact hnew
  · rw [getElem?_setConnection_of_ne hid] at hj
    exact hold j c' hid hj

theorem questions_sendDownload_of_ne {e : ManagerEvent} {j : ℕ} (hj : id ≠ j) :
    (s.sendDownload id e).questions j = s.questions j := by
  simp [questions, sendDownload, hj]

theorem questions_sendDownload (e : ManagerEvent) :
    (s.sendDownload id e).questions id =
      s.questions id ++ if e.isQuestion then [e] else [] := by
  cases h : e.isQuestion <;> simp [questions, sendDownload, h]

namespace Asked

/-- Nothing changes but one connection, which waits for the same answer as before. -/
theorem setConnection (h : Asked s) (hc : s.connections[id]? = some c)
    (hwaits : c'.Waits) (hpending : s.downloadOver = false → c'.pending = c.pending) :
    Asked (s.setConnection id c') where
  waits := forall_setConnection hwaits fun j _ _ => h.waits j _
  questions hgoing := by
    apply forall_setConnection
    · rw [hpending hgoing]
      exact h.questions hgoing id c hc
    · intro j c'' _ hj
      exact h.questions hgoing j c'' hj
  senders p hp := by
    rw [length_setConnection]
    exact h.senders p hp
  cleared := h.cleared

theorem congr (h : Asked s) (hconnections : t.connections = s.connections)
    (hqueue : t.toDownload = s.toDownload) (hover : t.downloadOver = s.downloadOver) :
    Asked t := by
  have hquestions : t.questions = s.questions := by
    funext id
    rw [ClientTasks.questions, hqueue, ClientTasks.questions]
  obtain ⟨hwaits, hasked, hsenders, hcleared⟩ := h
  constructor
  · rwa [hconnections]
  · rwa [hconnections, hquestions, hover]
  · rwa [hconnections, hqueue]
  · rwa [hqueue, hover]

/-- The connections that a round starts ask nothing yet. -/
theorem round (h : Asked t) (manager : Manager) : Asked (t.afterRound manager) := by
  have hcases : ∀ id c, (t.afterRound manager).connections[id]? = some c →
      t.connections[id]? = some c ∨ t.connections.length ≤ id ∧ c = .new := by
    intro id c hc
    rw [afterRound, List.getElem?_append] at hc
    split_ifs at hc with hlt
    · exact Or.inl hc
    · exact Or.inr ⟨Nat.le_of_not_lt hlt, List.eq_of_mem_replicate (List.mem_of_getElem? hc)⟩
  constructor
  · intro id c hc
    rcases hcases id c hc with hold | ⟨-, rfl⟩
    · exact h.waits id c hold
    · exact ConnectionTask.waits_of_stage fun _ heq => by cases heq
  · intro hgoing id c hc
    rcases hcases id c hc with hold | ⟨hnew, rfl⟩
    · exact h.questions hgoing id c hold
    · have hnone : t.toDownload.filter (fun p => p.1 == id && p.2.isQuestion) = [] := by
        apply List.filter_eq_nil_iff.mpr
        intro p hp
        have hlt := h.senders p hp
        have hne : p.1 ≠ id := Nat.ne_of_lt (Nat.lt_of_lt_of_le hlt hnew)
        simp [hne]
      exact congrArg (List.map (·.2)) hnone
  · intro p hp
    have hlt := h.senders p hp
    simp only [afterRound, List.length_append]
    omega
  · exact h.cleared

/-- A connection sends to the download task, and waits if it has asked a question. -/
theorem send {e : ManagerEvent} (h : Asked s) (hc : s.connections[id]? = some c)
    (hroom : s.HasRoom) (hwaits : c'.Waits)
    (hpending : c'.pending = c.pending ++ if e.isQuestion then [e] else []) :
    Asked ((s.sendDownload id e).setConnection id c') where
  waits := forall_setConnection hwaits fun j _ _ => h.waits j _
  questions hgoing := by
    apply forall_setConnection
    · rw [hpending, ← h.questions hroom.1 id c hc]
      exact questions_sendDownload e
    · intro j c'' hj hget
      rw [← h.questions hroom.1 j c'' hget]
      exact questions_sendDownload_of_ne hj
  senders p hp := by
    rw [length_setConnection]
    rcases List.mem_append.mp hp with hp | hp
    · exact h.senders p hp
    · cases List.mem_singleton.mp hp
      exact (List.getElem?_eq_some_iff.mp hc).1
  cleared hover := by
    have hgoing := hroom.1
    rw [show s.downloadOver = true from hover] at hgoing
    cases hgoing

/-- The download task has handled its next event. -/
theorem reply {e : ManagerEvent} {toDownload : List (ℕ × ManagerEvent)} {r : Download.Reply}
    (h : Asked s) (hgoing : s.downloadOver = false) (hqueue : s.toDownload = (id, e) :: toDownload)
    (hc : s.connections[id]? = some c) (hanswer : c.answer r = some c')
    (hr : r = .none ↔ e.isQuestion = false) (htake : t.toDownload = toDownload)
    (hover : t.downloadOver = false) (hconnections : t.connections = s.connections) :
    Asked (t.setConnection id c') := by
  have hother : ∀ j, id ≠ j → t.questions j = s.questions j := by
    intro j hj
    simp [ClientTasks.questions, hqueue, htake, hj]
  have hhead : s.questions id = (if e.isQuestion then [e] else []) ++ t.questions id := by
    cases hquestion : e.isQuestion <;>
      simp [ClientTasks.questions, hqueue, htake, hquestion]
  have hasked := h.questions hgoing id c hc
  rw [hhead] at hasked
  have hnew : c'.Waits ∧ t.questions id = c'.pending := by
    rcases ConnectionTask.answer_cases hanswer with ⟨hnone, rfl⟩ | ⟨hsome, hwaits, hpending⟩
    · rw [if_neg (by simp [hr.mp hnone])] at hasked
      exact ⟨h.waits id _ hc, hasked⟩
    · have hquestion : e.isQuestion = true := by
        cases heq : e.isQuestion with
        | true => rfl
        | false => exact absurd (hr.mpr heq) hsome
      have hle := c.length_pending_le
      rw [if_pos hquestion] at hasked
      rw [← hasked] at hle
      have hempty : t.questions id = [] := by
        apply List.eq_nil_of_length_eq_zero
        simp only [List.length_append, List.length_singleton] at hle
        omega
      exact ⟨hwaits, hempty.trans hpending.symm⟩
  constructor
  · apply forall_setConnection (P := fun _ c => c.Waits) hnew.1
    intro j c'' _ hj
    exact h.waits j c'' (hconnections ▸ hj)
  · intro _
    apply forall_setConnection (P := fun j c => t.questions j = c.pending) hnew.2
    intro j c'' hj hget
    rw [hother j hj]
    exact h.questions hgoing j c'' (hconnections ▸ hget)
  · intro p hp
    rw [length_setConnection, hconnections]
    apply h.senders p
    rw [hqueue]
    exact List.mem_cons_of_mem _ (htake ▸ hp)
  · intro hend
    rw [show t.downloadOver = true from hend] at hover
    cases hover

end Asked

/-- Exactly the questions are answered. -/
theorem handleEvent_silent_iff {e : ManagerEvent} {r : Download.Reply} {d d' : Download}
    (h : Download.handleEvent sha1 e d = .ok r d') : r = .none ↔ e.isQuestion = false := by
  cases Download.handleEvent_reply h with
  | silent hsilent =>
    cases e with
    | requireHavePieces => cases h
    | requireData => cases hsilent
    | requireIncompleteBlocks => cases hsilent
    | _ => exact iff_of_true rfl rfl
  | _ => exact iff_of_false (fun heq => by cases heq) fun heq => by cases heq

theorem asked_start (manager : Manager) (download : Download) : Asked (start manager download) where
  waits := fun _ _ h => by cases h
  questions := fun _ _ _ h => by cases h
  senders := fun _ h => by cases h
  cleared := fun h => by cases h

theorem Moves.asked (h : Moves sha1 s a t) (hs : Asked s) : Asked t := by
  cases h with
  | handles =>
    apply Asked.round
    exact hs.congr rfl rfl rfl
  | finishes =>
    apply Asked.round
    exact hs.congr rfl rfl rfl
  | disconnects =>
    apply Asked.round
    exact hs.congr rfl rfl rfl
  | reaches hsending hnext hc hdeliver =>
    obtain ⟨hwaits, hpending⟩ := ConnectionTask.deliver_keeps (hs.waits _ _ hc) hdeliver
    exact Asked.setConnection (hs.congr rfl rfl rfl) hc hwaits fun _ => hpending
  | replies hgoing hposted hqueue handled hc hanswer =>
    exact hs.reply hgoing hqueue hc hanswer (handleEvent_silent_iff handled) rfl hgoing rfl
  | breaks =>
    exact ⟨hs.waits, fun hover => (by cases hover), fun _ hp => (by cases hp), fun _ => rfl⟩
  | requires hc hstage hroom =>
    refine hs.send hc hroom (ConnectionTask.waits_of_stage fun _ heq => by cases heq) ?_
    rw [ConnectionTask.pending, ConnectionTask.pending, hstage]
    rfl
  | connects hc hstage =>
    refine hs.setConnection hc (ConnectionTask.waits_of_stage fun _ heq => by cases heq) fun _ => ?_
    simp [ConnectionTask.pending, ConnectionTask.connected, hstage]
  | fails hc hstage | unparsed hc hstage =>
    refine hs.setConnection hc (ConnectionTask.waits_of_stage fun _ heq => by cases heq) fun _ => ?_
    simp [ConnectionTask.pending, hstage]
  | cancelled hc hstage hover =>
    refine hs.setConnection hc (ConnectionTask.waits_of_stage fun _ heq => by cases heq) ?_
    simp [hover]
  | tells hc hstage hloop hroom =>
    refine hs.send hc hroom (ConnectionTask.waits_setLoop_false _ _) ?_
    rw [ConnectionTask.pending_setLoop_false, ConnectionTask.pending, hstage]
    rfl
  | @asks id c tasks e next event hc hstage hloop hevent hroom =>
    have hquestion : event.isQuestion = true := by
      cases e with
      | requireData => cases hevent; rfl
      | requireIncompleteBlocks => cases hevent; rfl
      | _ => cases hevent
    refine hs.send hc hroom ?_ ?_
    · intro tasks' heq
      cases heq
      exact ⟨e, next, event, hloop, hevent⟩
    · simp [ConnectionTask.pending, ConnectionTask.setLoop, hstage, hloop, hevent, hquestion]
  | refused hc hstage hloop he hover =>
    refine hs.setConnection hc (ConnectionTask.waits_setLoop_false _ _) ?_
    simp [hover]
  | @picks id c tasks awaiting n next choice hc hstage hloop =>
    have hidle := (hs.waits _ _ hc).not_awaiting hstage fun e next' event hcall hevent => by
      rw [hloop] at hcall
      cases hcall
      cases hevent
    subst hidle
    have hkeeps : ∀ tasks', (c.setLoop tasks' false).Waits ∧
        (c.setLoop tasks' false).pending = c.pending := fun tasks' =>
      ConnectionTask.setLoop_keeps (hs.waits _ _ hc) hstage fun heq => by cases heq
    obtain ⟨hwaits, hpending⟩ := hkeeps { tasks with loop := .running (next choice) }
    exact hs.setConnection hc hwaits fun _ => hpending
  | acts hown hc hstage hgoing hact =>
    obtain ⟨hwaits, hpending⟩ := ConnectionTask.act_keeps (hs.waits _ _ hc) hstage hown hact
    exact hs.setConnection hc hwaits fun _ => hpending
  | panics hc hstage hpanics hact =>
    obtain ⟨hwaits, hpending⟩ :=
      ConnectionTask.act_keeps (hs.waits _ _ hc) hstage hpanics.isOwn hact
    exact hs.setConnection hc (hwaits.of_stage rfl) fun _ => hpending
  | @ends id c tasks awaiting hc hstage hloop hwriter =>
    have hidle := (hs.waits _ _ hc).not_awaiting hstage fun e next event hcall hevent => by
      rw [hloop] at hcall
      cases hcall
    subst hidle
    have hkeeps : ∀ tasks', (c.setLoop tasks' false).Waits ∧
        (c.setLoop tasks' false).pending = c.pending := fun tasks' =>
      ConnectionTask.setLoop_keeps (hs.waits _ _ hc) hstage fun heq => by cases heq
    obtain ⟨hwaits, hpending⟩ := hkeeps { tasks with loop := .ended }
    exact hs.setConnection hc hwaits fun _ => hpending
  | notifies hc hover hreturned hfirst hpeer hroom =>
    exact Asked.setConnection (hs.congr rfl rfl rfl) hc ((hs.waits _ _ hc).of_stage rfl)
      fun _ => ConnectionTask.pending_of_stage rfl
  | _ => exact hs.congr rfl rfl rfl

end ClientTasks
end TorrentClient
