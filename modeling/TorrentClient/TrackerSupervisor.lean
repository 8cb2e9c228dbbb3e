import Mathlib.Data.List.AList

/-!
# The tracker supervisor

The supervisor starts a task for a tracker and waits for a report or for a timeout, until a
report has found peers; after that it takes reports and tries another tracker while none is
active. The tasks report through one channel, again and again, each in its own time.
-/
namespace TorrentClient

inductive TrackerStatus where
  | foundPeers (n : ℕ)
  | hostUnresolved
  | errorOccurred
  deriving DecidableEq, Repr

/-- Where `run` stands. -/
inductive SupervisorPhase (Url : Type) where
  /-- at the head of the loop over the urls in `loop_until_connected` -/
  | connecting (rest : List Url)
  /-- in the timeout of that loop -/
  | awaiting (rest : List Url)
  /-- in `wait_on_tracker_msg` -/
  | waiting
  deriving DecidableEq, Repr

structure TrackerSupervisor (Url : Type) where
  urls : List Url
  receiver : List (Url × TrackerStatus)
  trackerStates : AList fun _ : Url => TrackerStatus
  pendingStatus : List (Url × TrackerStatus)
  phase : SupervisorPhase Url
  /-- the trackers whose task is running -/
  trackers : List Url
  /-- ghost: the calls of `spawn_tracker` so far -/
  spawned : List Url

inductive SupervisorAction where
  /-- the loop over the urls goes on, or ends -/
  | proceeds
  | receives
  | timesOut
  /-- the task at this place announces and sends its status -/
  | reports (i : ℕ) (status : TrackerStatus)
  /-- the task at this place ends without a report -/
  | stops (i : ℕ)
  deriving DecidableEq, Repr

namespace TrackerSupervisor

variable {Url : Type} [DecidableEq Url]

/-- `run` at its start. -/
def start (urls : List Url) : TrackerSupervisor Url where
  urls
  receiver := []
  trackerStates := ∅
  pendingStatus := []
  phase := .connecting urls
  trackers := []
  spawned := []

def spawnTracker (s : TrackerSupervisor Url) (url : Url) : TrackerSupervisor Url :=
  { s with trackers := s.trackers ++ [url], spawned := s.spawned ++ [url] }

def isOneActive (s : TrackerSupervisor Url) : Bool :=
  s.trackerStates.entries.any fun state =>
    match state.2 with
    | .foundPeers n => 1 < n
    | _ => false

/-- `!spawned.contains(url)`: the keys of `tracker_states` stand for the trackers spawned. -/
def unreported (s : TrackerSupervisor Url) (url : Url) : Bool :=
  !s.trackerStates.keys.contains url

def tryAnotherTracker (s : TrackerSupervisor Url) : TrackerSupervisor Url :=
  match s.urls.find? s.unreported with
  | some url => s.spawnTracker url
  | none => s

def insertStatus (s : TrackerSupervisor Url) (report : Url × TrackerStatus) :
    TrackerSupervisor Url :=
  { s with trackerStates := s.trackerStates.insert report.1 report.2 }

/-- What `wait_on_tracker_msg` does with a report. -/
def waitOnTrackerMsg (s : TrackerSupervisor Url) (report : Url × TrackerStatus) :
    TrackerSupervisor Url :=
  if (s.insertStatus report).isOneActive then s.insertStatus report
  else (s.insertStatus report).tryAnotherTracker

/-- The end of `loop_until_connected`. -/
def insertPending (s : TrackerSupervisor Url) : TrackerSupervisor Url :=
  s.pendingStatus.foldl insertStatus { s with phase := .waiting, pendingStatus := [] }

/-- A report that ends the wait for the last url: the loop is left where it found peers. -/
def restAfter (rest : List Url) : TrackerStatus → List Url
  | .foundPeers _ => []
  | _ => rest

/-- A task goes on after a report unless it is one of an error. -/
def goesOn : TrackerStatus → Bool
  | .errorOccurred => false
  | _ => true

def act (s : TrackerSupervisor Url) : SupervisorAction → Option (TrackerSupervisor Url)
  | .proceeds =>
    match s.phase with
    | .connecting [] => some s.insertPending
    | .connecting (url :: rest) => some { s.spawnTracker url with phase := .awaiting rest }
    | _ => none
  | .receives =>
    match s.phase, s.receiver with
    | .awaiting rest, report :: receiver => some { s with
        receiver
        pendingStatus := s.pendingStatus ++ [report]
        phase := .connecting (restAfter rest report.2) }
    | .waiting, report :: receiver => some (waitOnTrackerMsg { s with receiver } report)
    | _, _ => none
  | .timesOut =>
    match s.phase, s.receiver with
    | .awaiting rest, [] => some { s with phase := .connecting rest }
    | _, _ => none
  | .reports i status =>
    match s.trackers[i]? with
    | some url => some { s with
        receiver := s.receiver ++ [(url, status)]
        trackers := if goesOn status then s.trackers else s.trackers.eraseIdx i }
    | none => none
  | .stops i =>
    if i < s.trackers.length then some { s with trackers := s.trackers.eraseIdx i } else none

def actStep (s : TrackerSupervisor Url) (a : SupervisorAction) (t : TrackerSupervisor Url) :
    Prop :=
  s.act a = some t

end TrackerSupervisor
end TorrentClient
