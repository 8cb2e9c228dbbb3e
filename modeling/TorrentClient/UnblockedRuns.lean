import TorrentClient.ClientProgress

/-!
# Runs that block no connection

A connection gets blocked only by a step of its own that risks it, so a run without such a step
ends at rest where it stops. A connection that panics on a message of its peer is no exception: it
rests as well, and nobody is told of it.
-/
namespace TorrentClient
open EffectPrograms TransitionRuns

namespace ConnectionTask

variable {c c' : ConnectionTask}

/-- The loops of the connection are not blocked, and not about to be. -/
def Unblocked (c : ConnectionTask) : Prop :=
  ∀ tasks awaiting, c.stage = .looping tasks awaiting → tasks.Unblocked

theorem unblocked_of_stage (h : ∀ tasks awaiting, c.stage ≠ .looping tasks awaiting) :
    c.Unblocked :=
  fun tasks awaiting hstage => absurd hstage (h tasks awaiting)

theorem unblocked_setLoop {tasks : ConnectionTasks} (h : tasks.Unblocked) (awaiting : Bool) :
    (c.setLoop tasks awaiting).Unblocked := by
  intro tasks' awaiting' hstage
  cases hstage
  exact h

theorem Unblocked.deliver {ipc : IPC} (h : c.Unblocked) (hdeliver : c.deliver ipc = some c') :
    c'.Unblocked := by
  obtain ⟨stage, early, notified⟩ := c
  cases stage with
  | looping tasks awaiting =>
    obtain ⟨tasks', htasks, rfl⟩ := Option.map_eq_some_iff.mp hdeliver
    obtain ⟨-, rfl⟩ := ConnectionTasks.deliver_eq_some htasks
    have hfree : ConnectionTasks.Unblocked { tasks with ipcs := tasks.ipcs ++ [ipc] } :=
      (h tasks awaiting rfl).congr rfl rfl rfl
    exact unblocked_setLoop hfree awaiting
  | failed => cases hdeliver
  | _ =>
    rw [ConnectionTask.deliver] at hdeliver
    split_ifs at hdeliver
    cases hdeliver
    exact unblocked_of_stage fun _ _ heq => by cases heq

theorem Unblocked.answer {reply : Download.Reply} (h : c.Unblocked)
    (hanswer : c.answer reply = some c') : c'.Unblocked := by
  rw [ConnectionTask.answer.eq_def] at hanswer
  split at hanswer
  · cases hanswer
    exact h
  · cases hanswer
    exact unblocked_of_stage fun _ _ heq => by cases heq
  · split at hanswer
    · obtain ⟨r, hr, rfl⟩ := Option.map_eq_some_iff.mp hanswer
      exact unblocked_setLoop ((h _ true (by assumption)).running _) false
    · cases hanswer
  · cases hanswer

end ConnectionTask

namespace ClientTasks

variable {sha1 : Bytes → Sha1} {s t : ClientTasks} {a : ClientTaskAction} {id : ℕ}
  {c c' : ConnectionTask}

/-- A connection takes a step that may block its loops. -/
def RisksBlock (s : ClientTasks) (a : ClientTaskAction) : Prop :=
  ∃ (id : ℕ) (b : TaskAction) (c : ConnectionTask) (tasks : ConnectionTasks) (awaiting : Bool),
    a = .connectionActs id b ∧ s.connections[id]? = some c ∧
      c.stage = .looping tasks awaiting ∧ tasks.RisksBlock b

def Unblocked (s : ClientTasks) : Prop :=
  ∀ (id : ℕ) c, s.connections[id]? = some c → c.Unblocked

theorem Unblocked.setConnection (h : s.Unblocked) (hc : c.Unblocked) :
    (s.setConnection id c).Unblocked :=
  forall_setConnection hc fun j c' _ hj => h j c' hj

theorem Unblocked.round (h : s.Unblocked) (manager : Manager) :
    (s.afterRound manager).Unblocked := by
  intro id c hc
  rw [afterRound, List.getElem?_append] at hc
  split_ifs at hc with hlt
  · exact h id c hc
  · rw [List.eq_of_mem_replicate (List.mem_of_getElem? hc)]
    exact ConnectionTask.unblocked_of_stage fun _ _ heq => by cases heq

/-- A run gets there in which no step risks a block. -/
def ReachesSafely (sha1 : Bytes → Sha1) (s₀ s : ClientTasks) : Prop :=
  ∃ trace, Run (Moves sha1) s₀ trace s ∧ ∀ x ∈ trace, ¬ x.before.RisksBlock x.label

theorem not_risksBlock (ha : ∀ id b, a ≠ .connectionActs id b) : ¬ s.RisksBlock a := by
  rintro ⟨id, b, c, tasks, awaiting, heq, -⟩
  exact ha id b heq

/-- Only a send to the write loop and the end of the loop can risk a block. -/
theorem not_risksBlock_acts {b : TaskAction} (hsend : b ≠ .beginsSend) (hleave : b ≠ .shutsDown) :
    ¬ s.RisksBlock (.connectionActs id b) := by
  rintro ⟨id', b', c, tasks, awaiting, heq, -, -, hsends | hleaves⟩
  · cases heq
    exact hsend hsends.1
  · cases heq
    exact hleave hleaves.1

namespace ReachesSafely

theorem refl : ReachesSafely sha1 s s := ⟨[], .nil, List.forall_mem_nil _⟩

theorem reachable (h : ReachesSafely sha1 s t) : Reachable (Moves sha1) s t := by
  obtain ⟨trace, run, -⟩ := h
  exact ⟨trace, run⟩

theorem tail_of_not {u : ClientTasks} (h : ReachesSafely sha1 s t) (hmove : Moves sha1 t a u)
    (ha : ¬ t.RisksBlock a) : ReachesSafely sha1 s u := by
  obtain ⟨trace, run, hsafe⟩ := h
  exact ⟨_, run.snoc hmove, List.forall_mem_append.mpr ⟨hsafe, List.forall_mem_singleton.mpr ha⟩⟩

/-- A move that is not one of the loops of a connection. -/
theorem tail {u : ClientTasks} (h : ReachesSafely sha1 s t) (hmove : Moves sha1 t a u)
    (ha : ∀ id b, a ≠ .connectionActs id b) : ReachesSafely sha1 s u :=
  h.tail_of_not hmove (not_risksBlock ha)

/-- A move of the loops of a connection that begins no send and does not end the loop. -/
theorem act {u : ClientTasks} {b : TaskAction} (h : ReachesSafely sha1 s t)
    (hmove : Moves sha1 t (.connectionActs id b) u) (hsend : b ≠ .beginsSend)
    (hleave : b ≠ .shutsDown) : ReachesSafely sha1 s u :=
  h.tail_of_not hmove (not_risksBlock_acts hsend hleave)

end ReachesSafely

/-- The moves that bring a peer of a tracker into the channel of the manager. -/
theorem announced_safely (sha1 : Bytes → Sha1) (metaInfo : TorrentMetaInfo)
    (filePaths : List String) (download : Download) (peer : Peer) :
    ReachesSafely sha1 (start (.new metaInfo filePaths) download)
      { start (.new metaInfo filePaths) download with
        manager := { Manager.new metaInfo filePaths with announced := [.connection true peer] }
        announcers := [[]]
        events := [.connection true peer] } := by
  have htold : ReachesSafely sha1 (start (.new metaInfo filePaths) download) _ :=
    ReachesSafely.refl.tail (@Moves.trackerSends _ _ [peer]) (by simp)
  have hspawned := htold.tail (.handles rfl rfl rfl rfl) (by simp)
  exact hspawned.tail (@Moves.announces _ _ 0 peer [] rfl) (by simp)

/-- The client with the download of `oneBlockTorrent`. -/
def oneBlockClient : ClientTasks :=
  start (.new Download.oneBlockTorrent Download.oneBlockDownload.filePaths)
    Download.oneBlockDownload

def announcedPeer : Peer := ⟨"10.0.0.1", 6881⟩

/-- A peer of a tracker is connected, and its loop waits for the first event. -/
def greetedClient : ClientTasks :=
  { oneBlockClient with
    manager := { oneBlockClient.manager.connected true announcedPeer with
      announced := [.connection true announcedPeer] }
    announcers := [[]]
    connections :=
      [⟨.looping ⟨.idle (.new [false]), .receiving, [], []⟩ false, [], false, false⟩] }

theorem greeted_safely :
    ReachesSafely (fun _ => Sha1.replicate 0) oneBlockClient greetedClient := by
  have hannounced := announced_safely (fun _ => Sha1.replicate 0) Download.oneBlockTorrent
    Download.oneBlockDownload.filePaths Download.oneBlockDownload announcedPeer
  have hstarted := hannounced.tail (.handles rfl rfl rfl rfl) (by simp)
  have hrequired := hstarted.tail (@Moves.requires _ _ 0 _ rfl rfl ⟨rfl, by decide⟩) (by simp)
  have hanswered := hrequired.tail (.replies rfl (Nat.le_refl 0) rfl rfl rfl rfl) (by simp)
  have hconnected := hanswered.tail (@Moves.connects _ _ 0 _ _ rfl rfl) (by simp)
  -- the loop sends its bitfield
  have hbegins := hconnected.tail_of_not
    (@Moves.acts _ _ 0 _ _ _ _ .beginsSend rfl rfl rfl (fun h => by cases h.1) rfl) (by
      rintro ⟨id, b, c, tasks, awaiting, hact, hc, hstage, hfull | hleaves⟩
      · cases hact
        cases hc
        cases hstage
        exact absurd hfull.2.1 (by decide)
      · cases hact
        cases hleaves.1)
  have hsends := hbegins.act
    (@Moves.acts _ _ 0 _ _ _ _ .completesSend rfl rfl rfl (fun h => by cases h.1) rfl)
    (by simp) (by simp)
  have hreturns := hsends.act
    (@Moves.acts _ _ 0 _ _ _ _ .returns rfl rfl rfl (fun h => by cases h.2) rfl)
    (by simp) (by simp)
  have htakes := hreturns.act
    (@Moves.acts _ _ 0 _ _ _ _ .writerTakes rfl rfl rfl (fun h => by cases h.1) rfl)
    (by simp) (by simp)
  have hwrites := htakes.act
    (@Moves.acts _ _ 0 _ _ _ _ .writes rfl rfl rfl (fun h => by cases h.1) rfl)
    (by simp) (by simp)
  exact hwrites

end ClientTasks
end TorrentClient
