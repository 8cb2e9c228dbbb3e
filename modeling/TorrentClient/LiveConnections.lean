import TorrentClient.ConnectionTable

/-!
# The manager and the tasks of its connections

A connection is running from its start until its loop ends. Its task then notifies the
manager, which handles the notification some time later, and before that a broadcast may
have found the connection gone. Entries are removed by the address of the peer, so a
notification that comes late removes the entry of the connection that replaced its own.
-/
namespace TorrentClient
open TransitionRuns

/-- The peer of a connection. -/
def Manager.peerOf (m : Manager) (id : ℕ) : Option Peer := m.started[id]?.map (·.2)

/-- The manager, the connections whose loop has ended and those of them whose notification
is on its way. -/
structure ManagedConnections where
  manager : Manager
  ended : List ℕ
  notifying : List ℕ

inductive Happening where
  /-- the manager handles an event, with the sends that do not go to connections -/
  | event (e : ManagerEvent) (order : List (Sigma fun _ : Peer => ℕ)) (download requester : Bool)
  | ends (id : ℕ)
  | notified (id : ℕ)

namespace ManagedConnections

def start (metaInfo : TorrentMetaInfo) (filePaths : List String) : ManagedConnections :=
  ⟨.new metaInfo filePaths, [], []⟩

/-- The loop of the connection to the peer has not ended. -/
def Running (s : ManagedConnections) (id : ℕ) (peer : Peer) : Prop :=
  s.manager.peerOf id = some peer ∧ id ∉ s.ended

/-- A send reaches the connections whose loop has not ended. -/
def receivers (s : ManagedConnections) (order : List (Sigma fun _ : Peer => ℕ))
    (download requester : Bool) : Receivers :=
  ⟨order, fun id => !s.ended.contains id, download, requester⟩

inductive Happens (s : ManagedConnections) : Happening → ManagedConnections → Prop where
  | event {e : ManagerEvent} {order : List (Sigma fun _ : Peer => ℕ)} {download requester : Bool}
      {r : Option ℕ} {manager : Manager}
      (walks : ManagerInput.Walks s.manager (.event e (s.receivers order download requester)))
      (handled : Manager.handleInput (.event e (s.receivers order download requester)) s.manager =
        .ok r manager) :
      Happens s (.event e order download requester) { s with manager }
  | ends {id : ℕ} {peer : Peer} (running : s.Running id peer) :
      Happens s (.ends id) { s with ended := id :: s.ended, notifying := id :: s.notifying }
  | notified {id : ℕ} {peer : Peer} {r : Option ℕ} {manager : Manager} (sent : id ∈ s.notifying)
      (hpeer : s.manager.peerOf id = some peer)
      (handled : Manager.handleInput (.disconnect peer) s.manager = .ok r manager) :
      Happens s (.notified id) { s with manager, notifying := s.notifying.erase id }

/-- The map of the manager tracks the live connections. -/
structure Tracked (s : ManagedConnections) : Prop where
  unique : ∀ i j peer, s.Running i peer → s.Running j peer → i = j
  entry : ∀ i peer, s.Running i peer → s.manager.peers.lookup peer = some i

/-- A notification removes the entry of a connection that is running. -/
def RemovesLive (s : ManagedConnections) : Happening → Prop
  | .notified id => ∃ peer j, s.manager.peerOf id = some peer ∧
      s.manager.peers.lookup peer = some j ∧ s.Running j peer
  | _ => False

/-- Every entry belongs to a connection to its peer. -/
def EntriesMatch (m : Manager) : Prop :=
  ∀ peer id, m.peers.lookup peer = some id → m.peerOf id = some peer

/-- Every connection but those that have ended has its entry. -/
def HasEntries (m : Manager) (ended : List ℕ) : Prop :=
  ∀ id peer, m.peerOf id = some peer → id ∉ ended → m.peers.lookup peer = some id

variable {s t : ManagedConnections} {m m' : Manager} {ended : List ℕ}

theorem tracked_iff : s.Tracked ↔ HasEntries s.manager s.ended := by
  constructor
  · intro h id peer hpeer hid
    exact h.entry id peer ⟨hpeer, hid⟩
  · intro h
    refine ⟨fun i j peer hi hj => ?_, fun i peer hi => h i peer hi.1 hi.2⟩
    have hentry := h i peer hi.1 hi.2
    rw [h j peer hj.1 hj.2] at hentry
    exact (Option.some.inj hentry).symm

theorem peerOf_connected {flag : Bool} {peer p : Peer} {id : ℕ} :
    (m.connected flag peer).peerOf id = some p ↔
      m.peerOf id = some p ∨ (id = m.started.length ∧ peer = p) := by
  unfold Manager.peerOf Manager.connected
  rcases lt_trichotomy id m.started.length with hlt | rfl | hgt
  · simp [List.getElem?_append_left hlt, hlt.ne]
  · simp
  · have hnone : (m.started ++ [(flag, peer)])[id]? = none :=
      List.getElem?_eq_none (by simp; omega)
    simp [hnone, List.getElem?_eq_none hgt.le, hgt.ne']

theorem entriesMatch_connected {flag : Bool} {peer : Peer} (h : EntriesMatch m) :
    EntriesMatch (m.connected flag peer) := by
  intro p id hlookup
  rw [peerOf_connected]
  by_cases hp : p = peer
  · subst hp
    rw [Manager.connected, AList.lookup_insert, Option.some.injEq] at hlookup
    exact Or.inr ⟨hlookup.symm, rfl⟩
  · rw [Manager.connected, AList.lookup_insert_ne hp] at hlookup
    exact Or.inl (h p id hlookup)

theorem hasEntries_connected {flag : Bool} {peer : Peer} (h : HasEntries m ended)
    (hnew : m.peers.lookup peer = none) : HasEntries (m.connected flag peer) ended := by
  intro id p hpeer hid
  rcases peerOf_connected.mp hpeer with hpeer | ⟨rfl, rfl⟩
  · have hentry := h id p hpeer hid
    have hp : p ≠ peer := by
      rintro rfl
      rw [hnew] at hentry
      cases hentry
    rw [Manager.connected, AList.lookup_insert_ne hp]
    exact hentry
  · exact AList.lookup_insert _

theorem entriesMatch_disconnected {peer : Peer} (h : EntriesMatch m) :
    EntriesMatch (m.disconnected peer) := by
  intro p id hlookup
  have hp : p ≠ peer := by
    rintro rfl
    rw [Manager.disconnected, AList.lookup_erase] at hlookup
    cases hlookup
  rw [Manager.disconnected, AList.lookup_erase_ne hp] at hlookup
  exact h p id hlookup

/-- Removing an entry is right exactly when the entry is not that of a live connection. -/
theorem hasEntries_disconnected_iff {peer : Peer} (hmatch : EntriesMatch m)
    (h : HasEntries m ended) : HasEntries (m.disconnected peer) ended ↔
      ∀ id, m.peers.lookup peer = some id → id ∈ ended := by
  constructor
  · intro hentries id hlookup
    by_contra hid
    have hgone := hentries id peer (hmatch peer id hlookup) hid
    rw [Manager.disconnected, AList.lookup_erase] at hgone
    cases hgone
  · intro hended id p hpeer hid
    have hentry := h id p hpeer hid
    have hp : p ≠ peer := by
      rintro rfl
      exact hid (hended id hentry)
    rw [Manager.disconnected, AList.lookup_erase_ne hp]
    exact hentry

/-- Replacing a peer whose connection has ended keeps the map and the other entries. -/
theorem replacePeer_hasEntries {p : Peer} {id : ℕ} {u : Unit} (hmatch : EntriesMatch m)
    (h : HasEntries m ended) (hp : m.peers.lookup p = some id) (hid : id ∈ ended)
    (hrun : Manager.replacePeer p m = .ok u m') :
    EntriesMatch m' ∧ HasEntries m' ended ∧
      ∀ k j, k ≠ p → m.peers.lookup k = some j → m'.peers.lookup k = some j := by
  have hgone : HasEntries (m.disconnected p) ended := by
    refine (hasEntries_disconnected_iff hmatch h).mpr fun j hj => ?_
    rw [hp, Option.some.injEq] at hj
    exact hj ▸ hid
  have hrest : ∀ k j, k ≠ p → m.peers.lookup k = some j →
      (m.disconnected p).peers.lookup k = some j := by
    intro k j hk hj
    rw [Manager.disconnected, AList.lookup_erase_ne hk]
    exact hj
  rcases Manager.replacePeer_cases hrun with ⟨-, rfl⟩ | ⟨flag, peer, rest, -, hnew, rfl⟩
  · exact ⟨entriesMatch_disconnected hmatch, hgone, hrest⟩
  · refine ⟨entriesMatch_connected (m := { m.disconnected p with peersDeque := rest })
      (entriesMatch_disconnected hmatch), hasEntries_connected
        (m := { m.disconnected p with peersDeque := rest }) hgone hnew, ?_⟩
    intro k j hk hj
    have hentry := hrest k j hk hj
    have hne : k ≠ peer := by
      rintro rfl
      rw [hnew] at hentry
      cases hentry
    rw [Manager.connected, AList.lookup_insert_ne hne]
    exact hentry

theorem replacePeers_hasEntries {deleteKeys : List Peer} {u : Unit} (hmatch : EntriesMatch m)
    (h : HasEntries m ended) (hnodup : deleteKeys.Nodup)
    (hended : ∀ p ∈ deleteKeys, ∃ id ∈ ended, m.peers.lookup p = some id)
    (hrun : Manager.replacePeers deleteKeys m = .ok u m') :
    EntriesMatch m' ∧ HasEntries m' ended := by
  induction deleteKeys generalizing m with
  | nil =>
    cases hrun
    exact ⟨hmatch, h⟩
  | cons p deleteKeys ih =>
    obtain ⟨u', m₁, hp, hrest⟩ := stateful_bind_eq_ok.mp hrun
    rw [List.nodup_cons] at hnodup
    rw [List.forall_mem_cons] at hended
    obtain ⟨⟨id, hid, hlookup⟩, hended⟩ := hended
    obtain ⟨hmatch', h', hkeeps⟩ := replacePeer_hasEntries hmatch h hlookup hid hp
    refine ih hmatch' h' hnodup.2 (fun k hk => ?_) hrest
    obtain ⟨j, hj, hkj⟩ := hended k hk
    exact ⟨j, hj, hkeeps k j (fun heq => hnodup.1 (heq ▸ hk)) hkj⟩

theorem deleteKeys_ended {order : List (Sigma fun _ : Peer => ℕ)} {download requester : Bool}
    (h : order.Perm s.manager.peers.entries) :
    ∀ p ∈ Manager.deleteKeys (s.receivers order download requester),
      ∃ id ∈ s.ended, s.manager.peers.lookup p = some id := by
  intro p hp
  obtain ⟨entry, hentry, rfl⟩ := List.mem_map.mp hp
  obtain ⟨horder, hgone⟩ := List.mem_filter.mp hentry
  refine ⟨entry.2, by simpa [receivers] using hgone, ?_⟩
  exact AList.mem_lookup_iff.mpr (h.mem_iff.mp horder)

private theorem SameTable.peerOf (same : Manager.SameTable m m') (id : ℕ) :
    m'.peerOf id = m.peerOf id := by
  rw [Manager.peerOf, same.started, Manager.peerOf]

private theorem SameTable.entriesMatch (same : Manager.SameTable m m') (h : EntriesMatch m) :
    EntriesMatch m' := by
  intro p id hlookup
  rw [SameTable.peerOf same]
  exact h p id (same.peers ▸ hlookup)

private theorem SameTable.hasEntries (same : Manager.SameTable m m') (h : HasEntries m ended) :
    HasEntries m' ended := by
  intro id p hpeer hid
  rw [SameTable.peerOf same] at hpeer
  rw [same.peers]
  exact h id p hpeer hid

/-- One event handled by the manager keeps the map in step with the connections. -/
theorem handleInput_hasEntries {e : ManagerEvent} {order : List (Sigma fun _ : Peer => ℕ)}
    {download requester : Bool} {r : Option ℕ} (hmatch : EntriesMatch s.manager)
    (h : HasEntries s.manager s.ended)
    (walks : ManagerInput.Walks s.manager (.event e (s.receivers order download requester)))
    (hrun : Manager.handleInput (.event e (s.receivers order download requester)) s.manager =
      .ok r m') : EntriesMatch m' ∧ HasEntries m' s.ended := by
  cases Manager.handleInput_round hrun with
  | keeps same => exact ⟨SameTable.entriesMatch same hmatch, SameTable.hasEntries same h⟩
  | broadcasts hreplace =>
    have same := Manager.sameTable_sendAll s.manager
    exact replacePeers_hasEntries (m := s.manager.sendAll _ _)
      (SameTable.entriesMatch (same _ _) hmatch) (SameTable.hasEntries (same _ _) h)
      (Manager.deleteKeys_nodup walks).1 (deleteKeys_ended walks) hreplace
  | connects hnew => exact ⟨entriesMatch_connected hmatch, hasEntries_connected h hnew⟩
  | waits => exact ⟨hmatch, h⟩

theorem happens_keeps {x : Happening} (hmatch : EntriesMatch s.manager) (h : s.Tracked)
    (hstep : Happens s x t) : EntriesMatch t.manager ∧ (t.Tracked ↔ ¬ s.RemovesLive x) := by
  rw [tracked_iff] at h ⊢
  cases hstep with
  | event walks handled =>
    obtain ⟨hmatch', h'⟩ := handleInput_hasEntries hmatch h walks handled
    exact ⟨hmatch', iff_of_true h' (by simp [RemovesLive])⟩
  | ends running =>
    refine ⟨hmatch, iff_of_true (fun j p hpeer hid => ?_) (by simp [RemovesLive])⟩
    exact h j p hpeer (fun hmem => hid (List.mem_cons_of_mem _ hmem))
  | notified sent hpeer handled =>
    rename_i id peer r manager
    cases handled
    refine ⟨entriesMatch_disconnected hmatch, ?_⟩
    refine (hasEntries_disconnected_iff hmatch h).trans ?_
    simp only [RemovesLive, hpeer, Option.some.injEq]
    constructor
    · rintro hended ⟨_, j, rfl, hlookup, -, hj⟩
      exact hj (hended j hlookup)
    · intro hlive j hlookup
      by_contra hj
      exact hlive ⟨peer, j, rfl, hlookup, hmatch peer j hlookup, hj⟩

theorem entriesMatch_new (metaInfo : TorrentMetaInfo) (filePaths : List String) :
    EntriesMatch (Manager.new metaInfo filePaths) := by
  intro p id hlookup
  cases hlookup

theorem tracked_start (metaInfo : TorrentMetaInfo) (filePaths : List String) :
    (start metaInfo filePaths).Tracked := by
  rw [tracked_iff]
  intro id p hpeer
  simp [start, Manager.peerOf, Manager.new] at hpeer

/-- Every state of a run has one running connection for a peer at most, each with its own
sender as the entry of its peer, exactly as long as no notification is handled while the
entry of its peer is that of a running connection. -/
theorem map_tracks_running_connections_iff {metaInfo : TorrentMetaInfo}
    {filePaths : List String} {trace : List (Step ManagedConnections Happening)}
    {s : ManagedConnections} (run : Run Happens (start metaInfo filePaths) trace s) :
    (∀ x ∈ trace, x.after.Tracked) ↔ ∀ x ∈ trace, ¬ x.before.RemovesLive x.label := by
  have hstep : ∀ s x t, EntriesMatch s.manager → Tracked s → Happens s x t →
      EntriesMatch t.manager ∧ (Tracked t ↔ ¬ s.RemovesLive x) :=
    fun s x t hmatch h hstep => happens_keeps hmatch h hstep
  refine run.forall_after_iff ?_ (tracked_start metaInfo filePaths) hstep
  exact entriesMatch_new metaInfo filePaths

def seeder : Peer := ⟨"10.0.0.1", 6881⟩

/-- The manager before any event. -/
def emptyManager : Manager := .new (TorrentMetaInfo.singleFile "a" 1 1 []) []

private theorem happens_connection {m : Manager} (ended notifying : List ℕ)
    (h : Manager.processEvent ⟨[], fun id => !ended.contains id, true, true⟩
      (.connection true seeder) m = .ok none (m.connected true seeder)) :
    Happens ⟨m, ended, notifying⟩ (.event (.connection true seeder) [] true true)
      ⟨m.connected true seeder, ended, notifying⟩ :=
  .event trivial h

private theorem happens_ends {m : Manager} {id : ℕ} {ended notifying : List ℕ}
    (hpeer : m.peerOf id = some seeder) (hid : id ∉ ended) :
    Happens ⟨m, ended, notifying⟩ (.ends id) ⟨m, id :: ended, id :: notifying⟩ :=
  .ends ⟨hpeer, hid⟩

theorem map_tracks_running_connections_one : ∃ trace,
    Run Happens (start (TorrentMetaInfo.singleFile "a" 1 1 []) []) trace
      ⟨(emptyManager.connected true seeder).disconnected seeder, [0], []⟩ ∧
      trace.length = 3 ∧ ∀ x ∈ trace, x.after.Tracked := by
  have hends : Happens ⟨emptyManager.connected true seeder, [], []⟩ (.ends 0)
      ⟨emptyManager.connected true seeder, [0], [0]⟩ := happens_ends rfl (by simp)
  have hnotified : Happens ⟨emptyManager.connected true seeder, [0], [0]⟩ (.notified 0)
      ⟨(emptyManager.connected true seeder).disconnected seeder, [0], []⟩ :=
    .notified (by simp) rfl rfl
  have run := ((Run.nil.snoc (happens_connection (m := emptyManager) [] [] rfl)).snoc hends).snoc
    hnotified
  refine ⟨_, run, rfl, (map_tracks_running_connections_iff run).mpr ?_⟩
  simp only [List.nil_append, List.cons_append, List.forall_mem_cons]
  refine ⟨id, id, ?_, by simp⟩
  rintro ⟨peer, j, hpeer, hlookup, -, hj⟩
  obtain rfl : seeder = peer := Option.some.inj hpeer
  obtain rfl : 0 = j := Option.some.inj hlookup
  exact hj List.mem_cons_self

/-- The notification of the first connection comes after the second one has started, and
then a third one is started while the second is running. -/
theorem late_notification_removes_live_entry : ∃ trace s,
    Run Happens (start (TorrentMetaInfo.singleFile "a" 1 1 []) []) trace s ∧
      trace.map (·.label) = [
        .event (.connection true seeder) [] true true, .ends 0,
        .event (.broadcast .downloadCompleted) [⟨seeder, 0⟩] true true,
        .event (.connection true seeder) [] true true, .notified 0,
        .event (.connection true seeder) [] true true] ∧
      s.Running 1 seeder ∧ s.Running 2 seeder ∧ s.manager.peers.lookup seeder = some 2 := by
  let first := emptyManager.connected true seeder
  let second := (first.disconnected seeder).connected true seeder
  have hends : Happens ⟨first, [], []⟩ (.ends 0) ⟨first, [0], [0]⟩ :=
    happens_ends rfl (by simp)
  have hbroadcast : Happens ⟨first, [0], [0]⟩
      (.event (.broadcast .downloadCompleted) [⟨seeder, 0⟩] true true)
      ⟨first.disconnected seeder, [0], [0]⟩ := .event (List.Perm.refl _) rfl
  have hnotified : Happens ⟨second, [0], [0]⟩ (.notified 0)
      ⟨second.disconnected seeder, [0], []⟩ := .notified (by simp) rfl rfl
  have run := (((Run.nil.snoc (happens_connection (m := emptyManager) [] [] rfl)).snoc hends).snoc
    hbroadcast).snoc (happens_connection (m := first.disconnected seeder) [0] [0] rfl)
  have run' := (run.snoc hnotified).snoc
    (happens_connection (m := second.disconnected seeder) [0] [] rfl)
  exact ⟨_, _, run', rfl, ⟨rfl, by simp⟩, ⟨rfl, by simp⟩, rfl⟩

end ManagedConnections
end TorrentClient
