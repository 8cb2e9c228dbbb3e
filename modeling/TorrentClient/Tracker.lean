import TorrentClient.EffectPrograms
import TorrentClient.TrackerResponse
import TorrentClient.TrackerSupervisor
import TorrentClient.AnnounceUrls

/-!
# The task of one tracker

A tracker announces the torrent again and again. After every announce it reports a status to
the supervisor and passes the peers it was given on to the manager; an error other than a
tracker that does not respond ends the task.
-/
namespace TorrentClient
open EffectPrograms

inductive TrackerError where
  | unresponsive
  | unsupportedScheme
  | invalidInput
  | sendError
  deriving DecidableEq, Repr

structure Tracker (Url : Type) where
  metadata : TorrentMetaInfo
  peerId : String
  url : Url
  interval : ℕ
  listenerPort : UInt16

/-- What the trackers use of other libraries. -/
structure Web (Url : Type) where
  parse : String → Option Url
  scheme : Url → String
  display : Url → String
  percentEncode : Bytes → String
  sha1 : Bytes → Sha1

/-- What a tracker asks of its environment. -/
inductive TrackerCall where
  /-- an HTTP request and the body of the response -/
  | get (url : String)
  /-- send to the supervisor -/
  | report (status : TrackerStatus)
  /-- send to the manager -/
  | tell (e : ManagerEvent)
  | sleep (seconds : ℕ)

/-- A request that fails is `none`, a failed send `false`. -/
@[reducible] def TrackerCall.Reply : TrackerCall → Type
  | .get _ => Option Bytes
  | .report _ => Bool
  | .tell _ => Bool
  | .sleep _ => Unit

/-- The functions of a tracker return their errors, and only a panic stops them. -/
abbrev TrackerTask (Url α : Type) :=
  Task TrackerCall TrackerCall.Reply (Fault TrackerError) (Tracker Url) α

namespace Tracker
open Task

variable {Url : Type}

def new (metadata : TorrentMetaInfo) (peerId : String) (listenerPort : UInt16) (url : Url) :
    Tracker Url :=
  ⟨metadata, peerId, url, 120, listenerPort⟩

/-- What becomes of a send. -/
def checkSent (sent : Bool) : Except TrackerError Unit :=
  if sent then .ok () else .error .sendError

def sendToSupervisor (msg : TrackerStatus) : TrackerTask Url (Except TrackerError Unit) := do
  let sent : Bool ← perform (TrackerCall.report msg)
  return checkSent sent

/-- `to_manager.send(ManagerEvent::Tracker(..))` -/
def sendToManager (peers : List Peer) : TrackerTask Url (Except TrackerError Unit) := do
  let sent : Bool ← perform (TrackerCall.tell (.tracker (.peers peers)))
  return checkSent sent

/-- The response to a request that has a body. -/
def parseResponse (buf : Bytes) : Except (Fault TrackerError) (Except TrackerError TrackerResponse) :=
  match TrackerResponse.parse buf with
  | .ok res => .ok (.ok res)
  | .error (.err _) => .ok (.error .invalidInput)
  | .error .panic => .error .panic

def getTrackerResponseSurf (web : Web Url) (peerId : String) (announce : Url) (length : ℕ)
    (infoHash : Sha1) (listenerPort : UInt16) :
    TrackerTask Url (Except TrackerError TrackerResponse) := do
  let body : Option Bytes ← perform (TrackerCall.get (announceUrl web.display web.percentEncode
    peerId announce (UInt64.ofNat length) infoHash listenerPort))
  match body with
  | none => return .error .unresponsive
  | some buf => lift (parseResponse buf)

def httpAnnounce (web : Web Url) : TrackerTask Url (Except TrackerError (List Peer)) := do
  let t ← get
  let length ← lift t.metadata.length
  let res ← getTrackerResponseSurf web t.peerId t.url length (t.metadata.infoHash web.sha1)
    t.listenerPort
  match res with
  | .error e => return .error e
  | .ok res =>
    modify fun t => { t with interval := res.interval.toNat }
    return .ok res.peers

def tryAnnounce (web : Web Url) : TrackerTask Url (Except TrackerError (List Peer)) := do
  let t ← get
  if web.scheme t.url = "http" ∨ web.scheme t.url = "https" then httpAnnounce web
  else return .error .unsupportedScheme

/-- The arms of `resolve_and_start`. -/
def reportAnnounce :
    Except TrackerError (List Peer) → TrackerTask Url (Except TrackerError Unit)
  | .ok peerAddrs => do
    let sent ← sendToSupervisor (.foundPeers peerAddrs.length)
    match sent with
    | .ok () => sendToManager peerAddrs
    | .error e => return .error e
  | .error .unresponsive => sendToSupervisor .hostUnresolved
  | .error e => do
    let sent ← sendToSupervisor .errorOccurred
    match sent with
    | .ok () => return .error e
    | .error e => return .error e

def resolveAndStart (web : Web Url) : TrackerTask Url (Except TrackerError Unit) := do
  let res ← tryAnnounce web
  reportAnnounce res

/-- The arms of the loop of `start`, which goes on after `true`. -/
def afterAnnounce : Except TrackerError Unit → TrackerTask Url Bool
  | .ok () | .error .unresponsive => do
    let t ← get
    let _slept : Unit ← perform (TrackerCall.sleep t.interval)
    return true
  | .error _ => return false

/-- One round of the loop of `start`. -/
def startRound (web : Web Url) : TrackerTask Url Bool := do
  let res ← resolveAndStart web
  afterAnnounce res

end Tracker
end TorrentClient
