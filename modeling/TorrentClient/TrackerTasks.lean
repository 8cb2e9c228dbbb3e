import TorrentClient.FilteredLists
import TorrentClient.Tracker
import TorrentClient.TransitionRuns

/-!
# The supervisor and the tasks of the trackers

The supervisor and all trackers that it has started side by side, with their channels. Seen from
the supervisor a tracker reports until it reports an error, or ends without one: where a response
makes the parser panic or the manager is gone.
-/
namespace TorrentClient
open EffectPrograms TransitionRuns FilteredLists

/-- What is left of a round of a tracker. -/
abbrev PendingRound (Url : Type) :=
  Program TrackerCall TrackerCall.Reply (Except (Fault TrackerError) (Bool × Tracker Url))

inductive TrackerStage (Url : Type) where
  | between (t : Tracker Url)
  | running (rest : PendingRound Url)
  | ended

/-- The task that `spawn_tracker` has started for a url. -/
structure SpawnedTracker (Url : Type) where
  url : Url
  stage : TrackerStage Url

structure TrackerTasks (Url : Type) where
  supervisor : TrackerSupervisor Url
  tasks : List (SpawnedTracker Url)
  /-- the unbounded channel of the manager -/
  toManager : List ManagerEvent

inductive TrackerAction where
  | supervises (a : SupervisorAction)
  | begins (i : ℕ)
  | gets (i : ℕ) (body : Option Bytes)
  | reports (i : ℕ)
  | tells (i : ℕ) (sent : Bool)
  | sleeps (i : ℕ)
  | returns (i : ℕ)
  | ends (i : ℕ)

/-- The action is one of the supervisor itself. -/
def SupervisorAction.isOwn : SupervisorAction → Bool
  | .proceeds => true
  | .receives => true
  | .timesOut => true
  | _ => false

namespace PendingRound

variable {Url : Type}

/-- The task does not end with this round, as far as can be seen. -/
def isLive : PendingRound Url → Bool
  | .done (.ok (goesOn, _)) => goesOn
  | .done (.error _) => false
  | .call .. => true

end PendingRound

/-- The task still has to report. -/
def SpawnedTracker.isLive {Url : Type} (task : SpawnedTracker Url) : Bool :=
  match task.stage with
  | .between _ => true
  | .running rest => rest.isLive
  | .ended => false

/-- The parser does not panic on the body. -/
def Readable (body : Option Bytes) : Prop :=
  ∀ buf, body = some buf → TrackerResponse.parse buf ≠ .error .panic

namespace PendingRound

variable {Url : Type}

/-- The task ends where it has reported an error, and else only where a response cannot be read
or the manager is gone. -/
def Honest (metadata : TorrentMetaInfo) : PendingRound Url → Prop
  | .done (.ok (_, t)) => t.metadata = metadata
  | .done (.error _) => True
  | .call (.get _) next =>
    ∀ body, Honest metadata (next body) ∧ (Readable body → isLive (next body) = true)
  | .call (.report status) next =>
    Honest metadata (next true) ∧ isLive (next true) = TrackerSupervisor.goesOn status
  | .call (.tell _) next =>
    Honest metadata (next false) ∧ Honest metadata (next true) ∧ isLive (next true) = true
  | .call (.sleep _) next => Honest metadata (next ()) ∧ isLive (next ()) = true

end PendingRound

/-! ### Rounds -/

namespace Tracker
open Task PendingRound

variable {Url : Type} {web : Web Url} {t : Tracker Url}

/-- A round after its announce. -/
def restOfRound :
    Except (Fault TrackerError) (Except TrackerError (List Peer) × Tracker Url) → PendingRound Url
  | .ok (res, t) => (reportAnnounce res >>= afterAnnounce) t
  | .error e => .done (.error e)

theorem startRound_eq (web : Web Url) (t : Tracker Url) :
    startRound web t = (tryAnnounce web t).bind restOfRound := by
  refine (Program.bind_assoc _ _ _).trans ?_
  congr 1
  funext r
  match r with
  | .ok (res, t') => rfl
  | .error e => rfl

theorem restOfRound_honest (res : Except TrackerError (List Peer)) :
    Honest t.metadata (restOfRound (.ok (res, t))) ∧
      isLive (restOfRound (.ok (res, t))) = true := by
  match res with
  | .ok peers => exact ⟨⟨⟨rfl, ⟨rfl, rfl⟩, rfl⟩, rfl⟩, rfl⟩
  | .error .unresponsive => exact ⟨⟨⟨rfl, rfl⟩, rfl⟩, rfl⟩
  | .error .unsupportedScheme => exact ⟨⟨rfl, rfl⟩, rfl⟩
  | .error .invalidInput => exact ⟨⟨rfl, rfl⟩, rfl⟩
  | .error .sendError => exact ⟨⟨rfl, rfl⟩, rfl⟩

/-- What an announce over HTTP gives. -/
def announced (t : Tracker Url) :
    Option Bytes → Except (Fault TrackerError) (Except TrackerError (List Peer) × Tracker Url)
  | none => .ok (.error .unresponsive, t)
  | some buf => do
    match ← parseResponse buf with
    | .ok res => return (.ok res.peers, { t with interval := res.interval.toNat })
    | .error e => return (.error e, t)

theorem httpAnnounce_of_error {e : Fault TrackerError} (h : t.metadata.length = .error e) :
    httpAnnounce web t = .done (.error e) := by
  change Program.bind ((lift t.metadata.length : TrackerTask Url ℕ) t) _ = _
  rw [h]
  rfl

theorem httpAnnounce_of_ok {length : ℕ}
    (h : (t.metadata.length : Except (Fault TrackerError) ℕ) = .ok length) :
    ∃ address, httpAnnounce web t = .call (.get address) fun body => .done (announced t body) := by
  refine ⟨announceUrl web.display web.percentEncode t.peerId t.url (UInt64.ofNat length)
    (t.metadata.infoHash web.sha1) t.listenerPort, ?_⟩
  change Program.bind ((lift t.metadata.length : TrackerTask Url ℕ) t) _ = _
  rw [h]
  refine congrArg (Program.call _) (funext fun body => ?_)
  cases body with
  | none => rfl
  | some buf =>
    change Program.bind ((lift (parseResponse buf) : TrackerTask Url _) t) _ =
      Program.done ((parseResponse buf).bind _)
    match parseResponse buf with
    | .ok (.ok res) => rfl
    | .ok (.error e) => rfl
    | .error e => rfl

theorem announced_panic {body : Option Bytes} {e : Fault TrackerError}
    (h : announced t body = .error e) : ¬ Readable body := by
  cases body with
  | none => cases h
  | some buf =>
    intro hreadable
    have hparse := hreadable buf rfl
    rw [announced, parseResponse] at h
    cases hres : TrackerResponse.parse buf with
    | ok res =>
      rw [hres] at h
      cases h
    | error fault =>
      cases fault with
      | panic => exact hparse hres
      | err e =>
        rw [hres] at h
        cases h

theorem announced_metadata {body : Option Bytes} {r : Except TrackerError (List Peer) × Tracker Url}
    (h : announced t body = .ok r) : r.2.metadata = t.metadata := by
  cases body with
  | none =>
    cases h
    rfl
  | some buf =>
    obtain ⟨res, -, hres⟩ := bind_eq_ok.mp h
    cases res with
    | ok res =>
      cases hres
      rfl
    | error e =>
      cases hres
      rfl

theorem startRound_honest (web : Web Url) (t : Tracker Url) :
    Honest t.metadata (startRound web t) ∧
      ((∃ n, (t.metadata.length : Except (Fault TrackerError) ℕ) = .ok n) →
        isLive (startRound web t) = true) := by
  have htry : tryAnnounce web t = (if web.scheme t.url = "http" ∨ web.scheme t.url = "https" then
      httpAnnounce web else pure (.error .unsupportedScheme) : TrackerTask Url _) t := rfl
  rw [startRound_eq, htry]
  split_ifs with hscheme
  · cases hlength : (t.metadata.length : Except (Fault TrackerError) ℕ) with
    | error e =>
      rw [httpAnnounce_of_error hlength]
      exact ⟨trivial, nofun⟩
    | ok length =>
      obtain ⟨address, hhttp⟩ := @httpAnnounce_of_ok Url web t length hlength
      rw [hhttp]
      refine ⟨fun body => ?_, fun _ => rfl⟩
      change Honest t.metadata (restOfRound (announced t body)) ∧
        (Readable body → isLive (restOfRound (announced t body)) = true)
      cases hbody : announced t body with
      | error e => exact ⟨trivial, fun hreadable => absurd hreadable (announced_panic hbody)⟩
      | ok r =>
        obtain ⟨hhonest, hlive⟩ := restOfRound_honest (t := r.2) r.1
        rw [announced_metadata hbody] at hhonest
        exact ⟨hhonest, fun _ => hlive⟩
  · obtain ⟨hhonest, hlive⟩ := restOfRound_honest (t := t) (.error .unsupportedScheme)
    exact ⟨hhonest, fun _ => hlive⟩

end Tracker

/-- No move of this kind makes a task end without a report of an error. -/
def TrackerAction.Reports : TrackerAction → Prop
  | .gets _ body => Readable body
  | .tells _ sent => sent = true
  | _ => True

namespace TrackerTasks

variable {Url : Type}

def start (urls : List Url) : TrackerTasks Url := ⟨.start urls, [], []⟩

/-- The supervisor after a move of its own, with the tasks that it started. -/
def afterMove (s : TrackerTasks Url) (new : Url → Tracker Url)
    (supervisor : TrackerSupervisor Url) : TrackerTasks Url :=
  { s with
    supervisor
    tasks := s.tasks ++
      (supervisor.spawned.drop s.supervisor.spawned.length).map fun url => ⟨url, .between (new url)⟩ }

def setTask (s : TrackerTasks Url) (i : ℕ) (task : SpawnedTracker Url) : TrackerTasks Url :=
  { s with tasks := s.tasks.set i task }

/-! ### Seen from the supervisor -/

/-- The tasks that still have to report, as the supervisor's trackers. -/
def abstract (s : TrackerTasks Url) : TrackerSupervisor Url :=
  { s.supervisor with trackers := (s.tasks.filter (·.isLive)).map (·.url) }

/-- Every task announces this torrent. -/
structure Announcing (metadata : TorrentMetaInfo) (s : TrackerTasks Url) : Prop where
  between : ∀ task ∈ s.tasks, ∀ t, task.stage = .between t → t.metadata = metadata
  running : ∀ task ∈ s.tasks, ∀ rest, task.stage = .running rest → PendingRound.Honest metadata rest

variable {metadata : TorrentMetaInfo} {s t : TrackerTasks Url} {i : ℕ}
  {task task' : SpawnedTracker Url}

theorem announcing_start (urls : List Url) : (start urls).Announcing metadata :=
  ⟨by simp [start], by simp [start]⟩

theorem Announcing.setTask (h : s.Announcing metadata)
    (hbetween : ∀ t, task'.stage = .between t → t.metadata = metadata)
    (hrunning : ∀ rest, task'.stage = .running rest → PendingRound.Honest metadata rest) :
    (s.setTask i task').Announcing metadata := by
  constructor
  · intro x hx
    rcases List.mem_or_eq_of_mem_set hx with hold | rfl
    · exact h.between x hold
    · exact hbetween
  · intro x hx
    rcases List.mem_or_eq_of_mem_set hx with hold | rfl
    · exact h.running x hold
    · exact hrunning

theorem Announcing.setRunning {url : Url} {rest : PendingRound Url} (h : s.Announcing metadata)
    (hrest : PendingRound.Honest metadata rest) :
    (s.setTask i ⟨url, .running rest⟩).Announcing metadata := by
  refine h.setTask ?_ ?_
  · rintro t ⟨⟩
  · rintro rest' ⟨⟩
    exact hrest

theorem abstract_setTask (hi : s.tasks[i]? = some task) (hlive : task'.isLive = task.isLive)
    (hurl : task'.url = task.url) : (s.setTask i task').abstract = s.abstract := by
  rw [abstract, setTask, map_filter_set hi hlive hurl]
  rfl

variable [DecidableEq Url] {web : Web Url} {new : Url → Tracker Url}

/-- One move of one task. The supervisor never ends, so no report fails. -/
inductive Moves (web : Web Url) (new : Url → Tracker Url) (s : TrackerTasks Url) :
    TrackerAction → TrackerTasks Url → Prop where
  | supervises {a : SupervisorAction} {supervisor : TrackerSupervisor Url} (hown : a.isOwn = true)
      (hact : s.supervisor.act a = some supervisor) :
      Moves web new s (.supervises a) (s.afterMove new supervisor)
  | begins {i : ℕ} {url : Url} {t : Tracker Url} (hi : s.tasks[i]? = some ⟨url, .between t⟩) :
      Moves web new s (.begins i) (s.setTask i ⟨url, .running (Tracker.startRound web t)⟩)
  | gets {i : ℕ} {url : Url} {address : String} {next : Option Bytes → PendingRound Url}
      (hi : s.tasks[i]? = some ⟨url, .running (.call (.get address) next)⟩) (body : Option Bytes) :
      Moves web new s (.gets i body) (s.setTask i ⟨url, .running (next body)⟩)
  | reports {i : ℕ} {url : Url} {status : TrackerStatus} {next : Bool → PendingRound Url}
      (hi : s.tasks[i]? = some ⟨url, .running (.call (.report status) next)⟩) :
      Moves web new s (.reports i)
        (setTask { s with supervisor := { s.supervisor with
          receiver := s.supervisor.receiver ++ [(url, status)] } } i ⟨url, .running (next true)⟩)
  | tells {i : ℕ} {url : Url} {e : ManagerEvent} {next : Bool → PendingRound Url}
      (hi : s.tasks[i]? = some ⟨url, .running (.call (.tell e) next)⟩) (sent : Bool) :
      Moves web new s (.tells i sent)
        (setTask { s with toManager := if sent then s.toManager ++ [e] else s.toManager } i
          ⟨url, .running (next sent)⟩)
  | sleeps {i : ℕ} {url : Url} {seconds : ℕ} {next : Unit → PendingRound Url}
      (hi : s.tasks[i]? = some ⟨url, .running (.call (.sleep seconds) next)⟩) :
      Moves web new s (.sleeps i) (s.setTask i ⟨url, .running (next ())⟩)
  | returns {i : ℕ} {url : Url} {t : Tracker Url}
      (hi : s.tasks[i]? = some ⟨url, .running (.done (.ok (true, t)))⟩) :
      Moves web new s (.returns i) (s.setTask i ⟨url, .between t⟩)
  | ends {i : ℕ} {url : Url} {r : Except (Fault TrackerError) (Bool × Tracker Url)}
      (hi : s.tasks[i]? = some ⟨url, .running (.done r)⟩)
      (hr : PendingRound.isLive (.done r : PendingRound Url) = false) :
      Moves web new s (.ends i) (s.setTask i ⟨url, .ended⟩)

/-- A task that will not report any more has stopped. -/
theorem abstract_setTask_stops (hi : s.tasks[i]? = some task) (hlive : task.isLive = true)
    (hover : task'.isLive = false) :
    ∃ j, s.abstract.actStep (.stops j) (s.setTask i task').abstract := by
  obtain ⟨j, hj, herase⟩ := filter_set_of_drop (p := (·.isLive)) hi hlive hover
  refine ⟨j, ?_⟩
  have hlt : j < s.abstract.trackers.length := by
    rw [abstract, List.length_map]
    exact (List.getElem?_eq_some_iff.mp hj).1
  rw [TrackerSupervisor.actStep, TrackerSupervisor.act, if_pos hlt]
  simp [abstract, setTask, herase, List.eraseIdx_map]

/-- Reports change the states of the trackers and nothing else. -/
theorem insertPending_eq (s : TrackerSupervisor Url) :
    s.insertPending = { s with
      phase := .waiting
      pendingStatus := []
      trackerStates := s.pendingStatus.foldl (fun states report => states.insert report.1 report.2)
        s.trackerStates } := by
  have hfold (reports : List (Url × TrackerStatus)) (s : TrackerSupervisor Url) :
      reports.foldl TrackerSupervisor.insertStatus s = { s with
        trackerStates := reports.foldl (fun states report => states.insert report.1 report.2)
          s.trackerStates } := by
    induction reports generalizing s with
    | nil => rfl
    | cons report reports ih => exact ih (s.insertStatus report)
  exact hfold s.pendingStatus _

theorem insertPending_with (s : TrackerSupervisor Url) (trackers : List Url) :
    TrackerSupervisor.insertPending { s with trackers } =
      { s.insertPending with
        trackers := trackers ++ s.insertPending.spawned.drop s.spawned.length } := by
  simp [insertPending_eq]

theorem tryAnotherTracker_with (s : TrackerSupervisor Url) (trackers : List Url) :
    TrackerSupervisor.tryAnotherTracker { s with trackers } =
      { s.tryAnotherTracker with
        trackers := trackers ++ s.tryAnotherTracker.spawned.drop s.spawned.length } := by
  have hsame : s.urls.find? (TrackerSupervisor.unreported { s with trackers }) =
      s.urls.find? s.unreported := rfl
  simp only [TrackerSupervisor.tryAnotherTracker, hsame]
  cases s.urls.find? s.unreported with
  | none => simp
  | some url => simp [TrackerSupervisor.spawnTracker]

theorem waitOnTrackerMsg_with (s : TrackerSupervisor Url) (report : Url × TrackerStatus)
    (trackers : List Url) :
    TrackerSupervisor.waitOnTrackerMsg { s with trackers } report =
      { s.waitOnTrackerMsg report with
        trackers := trackers ++ (s.waitOnTrackerMsg report).spawned.drop s.spawned.length } := by
  have hsame : (TrackerSupervisor.insertStatus { s with trackers } report).isOneActive =
      (s.insertStatus report).isOneActive := rfl
  simp only [TrackerSupervisor.waitOnTrackerMsg, hsame]
  cases (s.insertStatus report).isOneActive with
  | true => simp [TrackerSupervisor.insertStatus]
  | false => exact tryAnotherTracker_with (s.insertStatus report) trackers

/-- The moves of the supervisor itself neither see nor stop a tracker. -/
theorem act_of_isOwn {s t : TrackerSupervisor Url} {a : SupervisorAction} (hown : a.isOwn = true)
    (hact : s.act a = some t) (trackers : List Url) :
    TrackerSupervisor.act { s with trackers } a =
      some { t with trackers := trackers ++ t.spawned.drop s.spawned.length } := by
  obtain ⟨urls, receiver, trackerStates, pendingStatus, phase, old, spawned⟩ := s
  rw [TrackerSupervisor.act.eq_def] at hact ⊢
  cases a with
  | proceeds =>
    cases phase with
    | connecting rest =>
      cases rest with
      | nil =>
        cases hact
        exact congrArg some (insertPending_with
          ⟨urls, receiver, trackerStates, pendingStatus, .connecting [], old, spawned⟩ trackers)
      | cons url rest =>
        cases hact
        simp [TrackerSupervisor.spawnTracker]
    | _ => cases hact
  | receives =>
    cases receiver with
    | nil => cases phase <;> cases hact
    | cons report receiver =>
      cases phase with
      | connecting rest => cases hact
      | awaiting rest =>
        cases hact
        simp
      | waiting =>
        cases hact
        exact congrArg some (waitOnTrackerMsg_with
          ⟨urls, receiver, trackerStates, pendingStatus, .waiting, old, spawned⟩ report trackers)
  | timesOut =>
    cases receiver with
    | nil =>
      cases phase with
      | awaiting rest =>
        cases hact
        simp
      | _ => cases hact
    | cons report receiver => cases phase <;> cases hact
  | reports j status => cases hown
  | stops j => cases hown

theorem abstract_afterMove {a : SupervisorAction} {supervisor : TrackerSupervisor Url}
    (hown : a.isOwn = true) (hact : s.supervisor.act a = some supervisor) :
    s.abstract.actStep a (s.afterMove new supervisor).abstract := by
  have hnew (urls : List Url) : ((urls.map fun url => (⟨url, .between (new url)⟩ :
      SpawnedTracker Url)).filter (·.isLive)).map (·.url) = urls := by
    induction urls with
    | nil => rfl
    | cons url urls ih => simpa [SpawnedTracker.isLive] using ih
  rw [TrackerSupervisor.actStep, abstract, act_of_isOwn hown hact, abstract, afterMove,
    List.filter_append, List.map_append, hnew]

/-- A task that reports is one of the trackers, and it stays one unless it reports an error. -/
theorem abstract_reports {status : TrackerStatus} (hi : s.tasks[i]? = some task)
    (hlive : task.isLive = true) (hurl : task'.url = task.url)
    (hnext : task'.isLive = TrackerSupervisor.goesOn status) :
    ∃ j, s.abstract.actStep (.reports j status) (setTask { s with supervisor := { s.supervisor with
      receiver := s.supervisor.receiver ++ [(task.url, status)] } } i task').abstract := by
  cases hgoesOn : TrackerSupervisor.goesOn status with
  | true =>
    obtain ⟨j, hj⟩ := getElem?_filter (p := (·.isLive)) hi hlive
    have hkept := map_filter_set (p := (·.isLive)) hi (by rw [hnext, hgoesOn, hlive]) hurl
    refine ⟨j, ?_⟩
    simp [TrackerSupervisor.actStep, TrackerSupervisor.act, abstract, setTask, hj, hgoesOn, hkept]
  | false =>
    obtain ⟨j, hj, herase⟩ := filter_set_of_drop (p := (·.isLive)) hi hlive (hnext.trans hgoesOn)
    refine ⟨j, ?_⟩
    simp [TrackerSupervisor.actStep, TrackerSupervisor.act, abstract, setTask, hj, hgoesOn, herase,
      List.eraseIdx_map]

/-- A move of a task that reports nothing: it goes on, or it has stopped. -/
theorem setTask_refines {P : Prop} (hi : s.tasks[i]? = some task) (hlive : task.isLive = true)
    (hurl : task'.url = task.url) (hnext : P → task'.isLive = true) :
    (s.setTask i task').abstract = s.abstract ∨
      ∃ a', s.abstract.actStep a' (s.setTask i task').abstract ∧ (P → ∀ j, a' ≠ .stops j) := by
  cases h : task'.isLive with
  | true => exact Or.inl (abstract_setTask hi (h.trans hlive.symm) hurl)
  | false =>
    obtain ⟨j, hstep⟩ := abstract_setTask_stops hi hlive h
    refine Or.inr ⟨_, hstep, fun hP => ?_⟩
    rw [hnext hP] at h
    cases h

/-- The length of the torrent can be computed. -/
def Measured (metadata : TorrentMetaInfo) : Prop :=
  ∃ n, (metadata.length : Except (Fault TrackerError) ℕ) = .ok n

/-- Every move of a task is a move of the supervisor's system, or it is not seen there. A tracker
stops without a report only in a move that does not report. -/
theorem Moves.refines {a : TrackerAction} (h : s.Announcing metadata)
    (hnew : ∀ url, (new url).metadata = metadata) (hmove : s.Moves web new a t) :
    t.Announcing metadata ∧ (t.abstract = s.abstract ∨
      ∃ a', s.abstract.actStep a' t.abstract ∧
        (Measured metadata ∧ a.Reports → ∀ j, a' ≠ .stops j)) := by
  have hrunning {i : ℕ} {url : Url} {rest : PendingRound Url}
      (hi : s.tasks[i]? = some ⟨url, .running rest⟩) : PendingRound.Honest metadata rest :=
    h.running _ (List.mem_of_getElem? hi) rest rfl
  cases hmove with
  | @supervises a supervisor hown hact =>
    refine ⟨⟨?_, ?_⟩, Or.inr ⟨a, abstract_afterMove hown hact, ?_⟩⟩
    · intro task htask t ht
      rcases List.mem_append.mp htask with hold | hadded
      · exact h.between task hold t ht
      · obtain ⟨url, -, rfl⟩ := List.mem_map.mp hadded
        cases ht
        exact hnew url
    · intro task htask rest hrest
      rcases List.mem_append.mp htask with hold | hadded
      · exact h.running task hold rest hrest
      · obtain ⟨url, -, rfl⟩ := List.mem_map.mp hadded
        cases hrest
    · rintro - j rfl
      cases hown
  | @begins i url t hi =>
    have hmetadata : t.metadata = metadata := h.between _ (List.mem_of_getElem? hi) t rfl
    obtain ⟨hhonest, hlive⟩ := Tracker.startRound_honest web t
    rw [hmetadata] at hhonest hlive
    exact ⟨h.setRunning hhonest, setTask_refines hi rfl rfl fun hP => hlive hP.1⟩
  | @gets i url address next hi body =>
    obtain ⟨hhonest, hlive⟩ := hrunning hi body
    exact ⟨h.setRunning hhonest, setTask_refines hi rfl rfl fun hP => hlive hP.2⟩
  | @reports i url status next hi =>
    obtain ⟨hhonest, hlive⟩ := hrunning hi
    obtain ⟨j, hstep⟩ := @abstract_reports _ s i _ ⟨url, .running (next true)⟩ _ status hi rfl rfl
      hlive
    exact ⟨Announcing.setRunning ⟨h.between, h.running⟩ hhonest, Or.inr ⟨_, hstep, nofun⟩⟩
  | @tells i url e next hi sent =>
    obtain ⟨hfailed, hhonest, hlive⟩ := hrunning hi
    have hnext : (Measured metadata ∧ sent = true) → PendingRound.isLive (next sent) = true := by
      rintro ⟨-, rfl⟩
      exact hlive
    have hrefines := @setTask_refines _ s i _ ⟨url, .running (next sent)⟩ _ _ hi rfl rfl hnext
    refine ⟨Announcing.setRunning ⟨h.between, h.running⟩ ?_, hrefines⟩
    cases sent with
    | true => exact hhonest
    | false => exact hfailed
  | @sleeps i url seconds next hi =>
    obtain ⟨hhonest, hlive⟩ := hrunning hi
    exact ⟨h.setRunning hhonest, setTask_refines hi rfl rfl fun _ => hlive⟩
  | @returns i url t hi =>
    refine ⟨h.setTask ?_ ?_, setTask_refines hi rfl rfl fun _ => rfl⟩
    · rintro t' ⟨⟩
      exact hrunning hi
    · rintro rest ⟨⟩
  | @ends i url r hi hr =>
    refine ⟨h.setTask ?_ ?_, Or.inl (abstract_setTask hi hr.symm rfl)⟩
    · rintro t ⟨⟩
    · rintro rest ⟨⟩

/-- A run of the tasks, as the supervisor sees it. -/
theorem run_refines {urls : List Url} {trace : List (Step (TrackerTasks Url) TrackerAction)}
    (hnew : ∀ url, (new url).metadata = metadata)
    (run : Run (Moves web new) (start urls) trace s) :
    s.Announcing metadata ∧ ∃ trace',
      Run TrackerSupervisor.actStep (TrackerSupervisor.start urls) trace' s.abstract ∧
      (Measured metadata → (∀ x ∈ trace, x.label.Reports) → ∀ x ∈ trace', ∀ j, x.label ≠ .stops j) := by
  induction run with
  | nil => exact ⟨announcing_start urls, [], .nil, by simp⟩
  | @snoc trace s t a run last ih =>
    obtain ⟨hannouncing, trace', run', hreports⟩ := ih
    obtain ⟨hannouncing', hsame | ⟨a', hstep, ha'⟩⟩ := last.refines hannouncing hnew
    · refine ⟨hannouncing', trace', hsame ▸ run', fun hmeasured hall => ?_⟩
      exact hreports hmeasured (List.forall_mem_append.mp hall).1
    · refine ⟨hannouncing', _, run'.snoc hstep, fun hmeasured hall => ?_⟩
      obtain ⟨hbefore, hlast⟩ := List.forall_mem_append.mp hall
      have hreport : a.Reports := hlast ⟨s, a, t⟩ List.mem_cons_self
      refine List.forall_mem_append.mpr ⟨hreports hmeasured hbefore, fun x hx => ?_⟩
      rw [List.mem_singleton.mp hx]
      exact ha' ⟨hmeasured, hreport⟩

end TrackerTasks
end TorrentClient
