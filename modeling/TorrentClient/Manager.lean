import TorrentClient.ManagerEvents
import TorrentClient.MetaInfo
import Mathlib.Data.List.AList

/-!
# The manager

The manager keeps a sender for every peer it is connected to, up to a limit, and a queue
of the peers that wait. A connection is the place at which it was started, so that two
connections to one peer stay apart, and the sender of an entry is the connection it
belongs to.
-/
namespace TorrentClient

/-- The number of connections that `process_event` keeps to. -/
def maxConnections : ℕ := 30

structure Manager where
  metaInfo : TorrentMetaInfo
  filePaths : List String
  peers : AList fun _ : Peer => ℕ
  peersDeque : List (Bool × Peer)
  /-- what went through `sender_to_download` so far -/
  toDownload : List ManagerEvent
  /-- what went through the senders of `peers` so far -/
  toConnections : List (ℕ × IPC)
  /-- the events that the tasks spawned for tracker messages send to the manager -/
  announced : List ManagerEvent
  /-- the connections that were started, with their first handshake and their peer -/
  started : List (Bool × Peer)

abbrev ManagerM := Stateful String Manager

/-- How the sends of one event are met by the other tasks. -/
structure Receivers where
  /-- the order in which the hash map `peers` is walked -/
  order : List (Sigma fun _ : Peer => ℕ)
  connection : ℕ → Bool
  download : Bool
  requester : Bool

/-- What `manager_loop` selects between. -/
inductive ManagerInput where
  | event (e : ManagerEvent) (receivers : Receivers)
  | disconnect (peer : Peer)

namespace Manager

def new (metaInfo : TorrentMetaInfo) (filePaths : List String) : Manager where
  metaInfo
  filePaths
  peers := ∅
  peersDeque := []
  toDownload := []
  toConnections := []
  announced := []
  started := []

def connect (sendHandshakeFirst : Bool) (peer : Peer) : ManagerM Unit := do
  let m ← get
  set { m with peers := m.peers.insert peer m.started.length }
  pureStep (assert ((m.peers.lookup peer).isNone))
  modify fun m => { m with started := m.started ++ [(sendHandshakeFirst, peer)] }

/-- What `Broadcast` does with one of its `delete_keys`. -/
def replacePeer (p : Peer) : ManagerM Unit := do
  modify fun m => { m with peers := m.peers.erase p }
  let m ← get
  match m.peersDeque with
  | [] => return ()
  | (sendHandshakeFirst, peer) :: peersDeque =>
    set { m with peersDeque }
    connect sendHandshakeFirst peer

def replacePeers : List Peer → ManagerM Unit
  | [] => return ()
  | p :: deleteKeys => do
    replacePeer p
    replacePeers deleteKeys

/-- The peers of `order` whose connection is gone. -/
def deleteKeys (receivers : Receivers) : List Peer :=
  (receivers.order.filter fun entry => !receivers.connection entry.2).map (·.1)

/-- The connections of `order` that receive what is broadcast. -/
def reached (receivers : Receivers) : List ℕ :=
  (receivers.order.filter fun entry => receivers.connection entry.2).map (·.2)

/-- The first loop of `Broadcast`. -/
def sendAll (m : Manager) (receivers : Receivers) (ipc : IPC) : Manager :=
  { m with toConnections := m.toConnections ++ (reached receivers).map (·, ipc) }

/-- The result is what `RequirePieceLength` sends back. -/
def processEvent (receivers : Receivers) : ManagerEvent → ManagerM (Option ℕ)
  | .continue => return none
  | .broadcast ipc => do
    modify fun m => m.sendAll receivers ipc
    replacePeers (deleteKeys receivers)
    return none
  | .connection sendHandshakeFirst peer => do
    let m ← get
    if (m.peers.lookup peer).isSome || m.peersDeque.contains (sendHandshakeFirst, peer) then
      return none
    else if m.peers.keys.length < maxConnections then
      connect sendHandshakeFirst peer
      return none
    else
      set { m with peersDeque := m.peersDeque ++ [(sendHandshakeFirst, peer)] }
      return none
  | .requirePieceLength => do
    let m ← get
    pureStep (assert receivers.requester)
    return some m.metaInfo.pieceLength
  | .fileFinish fileIndex filePath => do
    let m ← get
    let _old ← pureStep (index m.filePaths fileIndex)
    set { m with filePaths := m.filePaths.set fileIndex filePath }
    return none
  | .tracker (.peers peers) => do
    modify fun m => { m with announced := m.announced ++ peers.map (.connection true) }
    return none
  | e => do
    if receivers.download then
      modify fun m => { m with toDownload := m.toDownload ++ [e] }
      return none
    else throw (.err "send failed because receiver is gone")

/-- One round of `manager_loop`. -/
def handleInput : ManagerInput → ManagerM (Option ℕ)
  | .event e receivers => processEvent receivers e
  | .disconnect peer => do
    modify fun m => { m with peers := m.peers.erase peer }
    return none

/-- `manager_loop` over what it receives, up to the first round that fails. -/
def managerLoop : List ManagerInput → ManagerM (List (Option ℕ))
  | [] => return []
  | input :: inputs => do
    let reply ← handleInput input
    let replies ← managerLoop inputs
    return reply :: replies

/-- What the events that are not about connections leave alone. -/
structure SameTable (m t : Manager) : Prop where
  peers : t.peers = m.peers
  peersDeque : t.peersDeque = m.peersDeque
  started : t.started = m.started

/-- The connection to the peer is started and its sender becomes the peer's entry. -/
def connected (m : Manager) (sendHandshakeFirst : Bool) (peer : Peer) : Manager :=
  { m with
    peers := m.peers.insert peer m.started.length
    started := m.started ++ [(sendHandshakeFirst, peer)] }

/-- The peer loses its entry. -/
def disconnected (m : Manager) (peer : Peer) : Manager :=
  { m with peers := m.peers.erase peer }

theorem connect_of_none {m : Manager} {peer : Peer} (sendHandshakeFirst : Bool)
    (h : m.peers.lookup peer = none) :
    connect sendHandshakeFirst peer m = .ok () (m.connected sendHandshakeFirst peer) := by
  have hassert : (assert ((m.peers.lookup peer).isNone) : Outcome Unit) = .ok () :=
    assert_eq_ok.mpr (by simp [h])
  have hcheck : (pureStep (assert ((m.peers.lookup peer).isNone)) : ManagerM Unit)
      { m with peers := m.peers.insert peer m.started.length } =
        .ok () { m with peers := m.peers.insert peer m.started.length } := by
    rw [hassert, pureStep_ok]
  exact bind_of_ok hcheck

theorem connect_of_some {m : Manager} {peer : Peer} {id : ℕ} (sendHandshakeFirst : Bool)
    (h : m.peers.lookup peer = some id) :
    connect sendHandshakeFirst peer m =
      .error .panic { m with peers := m.peers.insert peer m.started.length } := by
  have hcheck : (pureStep (assert ((m.peers.lookup peer).isNone)) : ManagerM Unit)
      { m with peers := m.peers.insert peer m.started.length } =
        .error .panic { m with peers := m.peers.insert peer m.started.length } := by
    simp [assert, h]
  exact (bind_of_ok rfl).trans ((bind_of_ok rfl).trans (bind_of_error hcheck))

theorem connect_eq_ok {m t : Manager} {sendHandshakeFirst : Bool} {peer : Peer} {u : Unit} :
    connect sendHandshakeFirst peer m = .ok u t ↔
      m.peers.lookup peer = none ∧ t = m.connected sendHandshakeFirst peer := by
  cases h : m.peers.lookup peer with
  | none => simp [connect_of_none _ h, eq_comm]
  | some id => simp [connect_of_some _ h]

theorem replacePeer_eq (p : Peer) (m : Manager) :
    replacePeer p m = match m.peersDeque with
      | [] => .ok () (m.disconnected p)
      | (sendHandshakeFirst, peer) :: peersDeque =>
        connect sendHandshakeFirst peer { m.disconnected p with peersDeque } := by
  cases m with
  | mk metaInfo filePaths peers peersDeque =>
    cases peersDeque <;> rfl

/-- The next peer of the queue takes the place of the one that is deleted. -/
theorem replacePeer_cases {m t : Manager} {p : Peer} {u : Unit} (h : replacePeer p m = .ok u t) :
    (m.peersDeque = [] ∧ t = m.disconnected p) ∨
      ∃ sendHandshakeFirst peer rest, m.peersDeque = (sendHandshakeFirst, peer) :: rest ∧
        (m.disconnected p).peers.lookup peer = none ∧
        t = connected { m.disconnected p with peersDeque := rest } sendHandshakeFirst peer := by
  rw [replacePeer_eq] at h
  cases hdeque : m.peersDeque with
  | nil =>
    rw [hdeque] at h
    cases h
    exact Or.inl ⟨rfl, rfl⟩
  | cons waiting rest =>
    rw [hdeque] at h
    obtain ⟨hnone, ht⟩ := connect_eq_ok.mp h
    exact Or.inr ⟨_, _, rest, rfl, hnone, ht⟩

/-- What one round can do to the table of peers. -/
inductive Round (m : Manager) : ManagerInput → Manager → Prop where
  | keeps {e : ManagerEvent} {receivers : Receivers} {t : Manager} (same : SameTable m t) :
      Round m (.event e receivers) t
  | broadcasts {ipc : IPC} {receivers : Receivers} {t : Manager}
      (h : replacePeers (deleteKeys receivers) (m.sendAll receivers ipc) = .ok () t) :
      Round m (.event (.broadcast ipc) receivers) t
  | connects {sendHandshakeFirst : Bool} {peer : Peer} {receivers : Receivers}
      (hnew : m.peers.lookup peer = none) (hdeque : (sendHandshakeFirst, peer) ∉ m.peersDeque)
      (hfree : m.peers.keys.length < maxConnections) :
      Round m (.event (.connection sendHandshakeFirst peer) receivers)
        (m.connected sendHandshakeFirst peer)
  | waits {sendHandshakeFirst : Bool} {peer : Peer} {receivers : Receivers}
      (hnew : m.peers.lookup peer = none) (hdeque : (sendHandshakeFirst, peer) ∉ m.peersDeque)
      (hfull : maxConnections ≤ m.peers.keys.length) :
      Round m (.event (.connection sendHandshakeFirst peer) receivers)
        { m with peersDeque := m.peersDeque ++ [(sendHandshakeFirst, peer)] }
  | disconnects {peer : Peer} : Round m (.disconnect peer) (m.disconnected peer)

theorem SameTable.refl (m : Manager) : SameTable m m := ⟨rfl, rfl, rfl⟩

theorem sameTable_sendAll (m : Manager) (receivers : Receivers) (ipc : IPC) :
    SameTable m (m.sendAll receivers ipc) := ⟨rfl, rfl, rfl⟩

theorem processEvent_connection (receivers : Receivers) (sendHandshakeFirst : Bool) (peer : Peer)
    (m : Manager) :
    processEvent receivers (.connection sendHandshakeFirst peer) m =
      (if (m.peers.lookup peer).isSome || m.peersDeque.contains (sendHandshakeFirst, peer) then
        return none
      else if m.peers.keys.length < maxConnections then do
        connect sendHandshakeFirst peer
        return none
      else do
        set { m with peersDeque := m.peersDeque ++ [(sendHandshakeFirst, peer)] }
        return none : ManagerM (Option ℕ)) m := rfl

theorem processEvent_broadcast (receivers : Receivers) (ipc : IPC) (m : Manager) :
    processEvent receivers (.broadcast ipc) m =
      (replacePeers (deleteKeys receivers) >>= fun _ => return none : ManagerM (Option ℕ))
        (m.sendAll receivers ipc) := rfl

private theorem connection_round {m t : Manager} {sendHandshakeFirst : Bool} {peer : Peer}
    {receivers : Receivers} {r : Option ℕ}
    (h : processEvent receivers (.connection sendHandshakeFirst peer) m = .ok r t) :
    Round m (.event (.connection sendHandshakeFirst peer) receivers) t := by
  rw [processEvent_connection] at h
  split_ifs at h with hknown hfree
  · cases h
    exact .keeps (.refl m)
  · rw [Bool.or_eq_true, not_or, Bool.not_eq_true, Option.isSome_eq_false_iff] at hknown
    obtain ⟨u, t', hconnect, hreturn⟩ := stateful_bind_eq_ok.mp h
    cases hreturn
    obtain ⟨hnew, rfl⟩ := connect_eq_ok.mp hconnect
    exact .connects hnew (by simpa using hknown.2) hfree
  · rw [Bool.or_eq_true, not_or, Bool.not_eq_true, Option.isSome_eq_false_iff] at hknown
    cases h
    exact .waits (by simpa using hknown.1) (by simpa using hknown.2) (Nat.le_of_not_lt hfree)

theorem handleInput_round {m t : Manager} {input : ManagerInput} {r : Option ℕ}
    (h : handleInput input m = .ok r t) : Round m input t := by
  cases input with
  | disconnect peer =>
    cases h
    exact .disconnects
  | event e receivers =>
    have hforward : ∀ x : ManagerM (Option ℕ), x = (do
        if receivers.download then
          modify fun m => { m with toDownload := m.toDownload ++ [e] }
          return none
        else throw (.err "send failed because receiver is gone")) → x m = .ok r t →
        Round m (.event e receivers) t := by
      intro x hx hrun
      rw [hx] at hrun
      cases hreceives : receivers.download with
      | true =>
        rw [hreceives] at hrun
        cases hrun
        exact .keeps ⟨rfl, rfl, rfl⟩
      | false =>
        rw [hreceives] at hrun
        cases hrun
    cases e with
    | «continue» =>
      cases h
      exact .keeps (.refl m)
    | broadcast ipc =>
      rw [handleInput, processEvent_broadcast] at h
      obtain ⟨u, t', hreplace, hreturn⟩ := stateful_bind_eq_ok.mp h
      cases hreturn
      exact .broadcasts hreplace
    | connection sendHandshakeFirst peer => exact connection_round h
    | requirePieceLength =>
      obtain ⟨u, t', hcheck, hreturn⟩ := stateful_bind_eq_ok.mp (show
        ((pureStep (assert receivers.requester) >>= fun _ =>
          return some m.metaInfo.pieceLength : ManagerM (Option ℕ)) m) = .ok r t from h)
      obtain ⟨-, rfl⟩ := pureStep_eq_ok.mp hcheck
      cases hreturn
      exact .keeps (.refl _)
    | fileFinish fileIndex filePath =>
      obtain ⟨old, t', hindex, hset⟩ := stateful_bind_eq_ok.mp (show
        ((pureStep (index m.filePaths fileIndex) >>= fun _ => do
          set ({ m with filePaths := m.filePaths.set fileIndex filePath } : Manager)
          return none : ManagerM (Option ℕ)) m) = .ok r t from h)
      obtain ⟨-, rfl⟩ := pureStep_eq_ok.mp hindex
      cases hset
      exact .keeps ⟨rfl, rfl, rfl⟩
    | tracker message =>
      cases message with
      | peers peers =>
        cases h
        exact .keeps ⟨rfl, rfl, rfl⟩
    | _ => exact hforward _ rfl h

end Manager
end TorrentClient
