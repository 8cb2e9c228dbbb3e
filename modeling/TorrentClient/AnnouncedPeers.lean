import TorrentClient.UnblockedRuns
import Mathlib.Data.Finset.Card

/-!
# No announced peer is lost

A peer of a tracker is on its way to the manager, waits in its queue, or has been given a
connection, and no other peer has. With no more announced peers than there are places none of them
ever waits.
-/
namespace TorrentClient
open TransitionRuns

theorem ManagerEvent.mem_announcements {e : ManagerEvent} {peer : Peer} :
    .connection true peer ∈ e.announcements ↔ ∃ peers ∈ e.announcers, peer ∈ peers := by
  cases e with
  | tracker message =>
    cases message with
    | peers peers => simp [announcements, announcers]
  | _ => simp [announcements, announcers]

namespace Manager

variable {m t : Manager} {peer : Peer}

/-- The peers that wait and those that a connection has been started to. -/
def known (m : Manager) : List Peer := m.peersDeque.map (·.2) ++ m.started.map (·.2)

/-- Every entry is one of a started connection, and a peer waits only if there are more known
peers than places. -/
structure Recorded (m : Manager) : Prop where
  entries : ∀ peer ∈ m.peers, peer ∈ m.started.map (·.2)
  crowded : m.peersDeque ≠ [] → maxConnections < m.known.toFinset.card

theorem recorded_new (metaInfo : TorrentMetaInfo) (filePaths : List String) :
    (new metaInfo filePaths).Recorded where
  entries := by simp [new]
  crowded := fun hne => absurd rfl hne

theorem Recorded.mem_known (h : m.Recorded) (hmem : peer ∈ m.peers) : peer ∈ m.known :=
  List.mem_append_right _ (h.entries peer hmem)

theorem Recorded.congr (h : m.Recorded) (hentries : ∀ peer ∈ t.peers, peer ∈ t.started.map (·.2))
    (hdeque : t.peersDeque ≠ [] → m.peersDeque ≠ [])
    (hknown : ∀ peer, peer ∈ t.known ↔ peer ∈ m.known) : t.Recorded where
  entries := hentries
  crowded hne := by
    have hsame : t.known.toFinset = m.known.toFinset := by
      ext peer
      simp [hknown]
    rw [hsame]
    exact h.crowded (hdeque hne)

theorem Recorded.disconnected (h : m.Recorded) (peer : Peer) : (m.disconnected peer).Recorded where
  entries p hp := h.entries p (mem_disconnected.mp hp).2
  crowded := h.crowded

/-- The peer that takes a place is one of those that waited for it. -/
theorem replacePeer_knows {p : Peer} {u : Unit} (h : m.Recorded)
    (hrun : replacePeer p m = .ok u t) : t.Recorded ∧ ∀ peer, peer ∈ t.known ↔ peer ∈ m.known := by
  rcases replacePeer_cases hrun with ⟨-, rfl⟩ | ⟨flag, next, rest, hdeque, -, rfl⟩
  · exact ⟨h.disconnected p, fun _ => Iff.rfl⟩
  · have hknown : ∀ peer, peer ∈ (connected { m.disconnected p with peersDeque := rest } flag
        next).known ↔ peer ∈ m.known := by
      intro peer
      simp only [known, connected, Manager.disconnected, hdeque, List.map_cons, List.map_append,
        List.mem_append, List.mem_cons, List.map_nil, List.not_mem_nil, or_false]
      tauto
    refine ⟨h.congr ?_ (fun _ => ?_) hknown, hknown⟩
    · intro peer hpeer
      rw [connected, List.map_append, List.mem_append]
      rcases mem_connected.mp hpeer with rfl | hold
      · exact Or.inr (List.mem_singleton_self _)
      · exact Or.inl (h.entries peer (mem_disconnected.mp hold).2)
    · rw [hdeque]
      exact List.cons_ne_nil _ _

theorem replacePeers_knows {deleteKeys : List Peer} {u : Unit} (h : m.Recorded)
    (hrun : replacePeers deleteKeys m = .ok u t) :
    t.Recorded ∧ ∀ peer, peer ∈ t.known ↔ peer ∈ m.known := by
  induction deleteKeys generalizing m with
  | nil =>
    cases hrun
    exact ⟨h, fun _ => Iff.rfl⟩
  | cons p deleteKeys ih =>
    obtain ⟨_, m₁, hp, hrest⟩ := stateful_bind_eq_ok.mp hrun
    obtain ⟨h₁, hknown₁⟩ := replacePeer_knows h hp
    obtain ⟨ht, hknown⟩ := ih h₁ hrest
    exact ⟨ht, fun peer => (hknown peer).trans (hknown₁ peer)⟩

/-- The manager gets to know the announced peer and no other. -/
theorem connection_knows {next : Peer} {receivers : Receivers} {r : Option ℕ} (h : m.Recorded)
    (hrun : handleInput (.event (.connection true next) receivers) m = .ok r t) :
    t.Recorded ∧ ∀ peer, peer ∈ t.known ↔ peer ∈ m.known ∨ peer = next := by
  rw [handleInput, processEvent_connection] at hrun
  split_ifs at hrun with hthere hfree
  · cases hrun
    rw [Bool.or_eq_true, List.contains_iff_mem, AList.lookup_isSome] at hthere
    have hknown : next ∈ m.known := by
      rcases hthere with hentry | hwaits
      · exact h.mem_known hentry
      · exact List.mem_append_left _ (List.mem_map_of_mem hwaits)
    refine ⟨h, fun peer => (or_iff_left_of_imp ?_).symm⟩
    rintro rfl
    exact hknown
  · obtain ⟨u, t', hconnect, hreturn⟩ := stateful_bind_eq_ok.mp hrun
    cases hreturn
    obtain ⟨hnew, rfl⟩ := connect_eq_ok.mp hconnect
    have hknown : ∀ peer, peer ∈ (m.connected true next).known ↔ peer ∈ m.known ∨ peer = next := by
      intro peer
      simp [known, connected, or_assoc]
    refine ⟨⟨?_, fun hne => ?_⟩, hknown⟩
    · intro peer hpeer
      rw [connected, List.map_append, List.mem_append]
      rcases mem_connected.mp hpeer with rfl | hold
      · exact Or.inr (List.mem_singleton_self _)
      · exact Or.inl (h.entries peer hold)
    · apply lt_of_lt_of_le (h.crowded hne)
      apply Finset.card_le_card
      intro peer hpeer
      rw [List.mem_toFinset] at hpeer ⊢
      exact (hknown peer).mpr (Or.inl hpeer)
  · cases hrun
    rw [Bool.or_eq_true, not_or, AList.lookup_isSome] at hthere
    have hknown : ∀ peer, peer ∈ known { m with peersDeque := m.peersDeque ++ [(true, next)] } ↔
        peer ∈ m.known ∨ peer = next := by
      intro peer
      simp only [known, List.map_append, List.mem_append, List.map_cons, List.map_nil,
        List.mem_singleton]
      tauto
    refine ⟨⟨h.entries, fun _ => ?_⟩, hknown⟩
    -- the entries and the peer that finds no place among them
    have hnodup : (next :: m.peers.keys).Nodup := List.nodup_cons.mpr ⟨hthere.1, m.peers.keys_nodup⟩
    have hcard : (next :: m.peers.keys).toFinset.card = m.peers.keys.length + 1 :=
      List.toFinset_card_of_nodup hnodup
    apply lt_of_le_of_lt (Nat.le_of_not_lt hfree)
    apply lt_of_lt_of_le (Nat.lt_succ_self m.peers.keys.length)
    rw [Nat.succ_eq_add_one, ← hcard]
    apply Finset.card_le_card
    intro peer hpeer
    rw [List.mem_toFinset] at hpeer ⊢
    rcases List.mem_cons.mp hpeer with rfl | hentry
    · exact (hknown peer).mpr (Or.inr rfl)
    · exact (hknown peer).mpr (Or.inl (h.mem_known hentry))

/-- Of all events only the announcement of a peer makes it known. -/
theorem handleInput_knows {e : ManagerEvent} {receivers : Receivers} {r : Option ℕ}
    (h : m.Recorded) (hannounced : (ManagerInput.event e receivers).Announced)
    (hrun : handleInput (.event e receivers) m = .ok r t) :
    t.Recorded ∧ ∀ peer, peer ∈ t.known ↔ peer ∈ m.known ∨ .connection true peer = e := by
  have hsame : (∀ flag next, e ≠ .connection flag next) → SameTable m t →
      t.Recorded ∧ ∀ peer, peer ∈ t.known ↔ peer ∈ m.known ∨ .connection true peer = e := by
    intro hother same
    have hknown : t.known = m.known := by rw [known, known, same.peersDeque, same.started]
    refine ⟨⟨?_, ?_⟩, fun peer => ?_⟩
    · rw [same.peers, same.started]
      exact h.entries
    · rw [same.peersDeque, hknown]
      exact h.crowded
    · rw [hknown, or_iff_left fun heq => hother true peer heq.symm]
  cases e with
  | connection flag next =>
    cases (show flag = true from hannounced)
    obtain ⟨ht, hknown⟩ := connection_knows h hrun
    refine ⟨ht, fun peer => ?_⟩
    rw [hknown, ManagerEvent.connection.injEq, eq_self, true_and]
  | broadcast ipc =>
    cases handleInput_round hrun with
    | keeps same => exact hsame (fun _ _ heq => by cases heq) same
    | broadcasts hreplace =>
      have hsent : (m.sendAll receivers ipc).Recorded := ⟨h.entries, h.crowded⟩
      obtain ⟨ht, hknown⟩ := replacePeers_knows hsent hreplace
      refine ⟨ht, fun peer => ?_⟩
      rw [or_iff_left fun heq => by cases heq]
      exact hknown peer
  | _ =>
    cases handleInput_round hrun with
    | keeps same => exact hsame (fun _ _ heq => by cases heq) same

end Manager

namespace ClientTasks

variable {sha1 : Bytes → Sha1} {s t : ClientTasks} {a : ClientTaskAction} {peer : Peer}

/-- The peer is announced and the manager has still to hear of it. -/
def OnItsWay (s : ClientTasks) (peer : Peer) : Prop :=
  (∃ peers ∈ s.announcers, peer ∈ peers) ∨ .connection true peer ∈ s.events

/-- The manager knows the peers that are announced and not on their way, and no others. -/
structure Accounted (s : ClientTasks) : Prop where
  recorded : s.manager.Recorded
  peers : ∀ peer, .connection true peer ∈ s.manager.announced ↔
    s.OnItsWay peer ∨ peer ∈ s.manager.known
  unposted : ∀ peer, .connection true peer ∉ s.download.sent.drop s.posted

theorem accounted_start (metaInfo : TorrentMetaInfo) (filePaths : List String)
    (download : Download) : Accounted (start (.new metaInfo filePaths) download) where
  recorded := Manager.recorded_new metaInfo filePaths
  peers := by simp [start, Manager.new, OnItsWay, Manager.known]
  unposted := by simp [start]

theorem Accounted.congr (h : Accounted s) (hmanager : t.manager = s.manager)
    (hway : ∀ peer, t.OnItsWay peer ↔ s.OnItsWay peer)
    (hunposted : ∀ peer, .connection true peer ∉ t.download.sent.drop t.posted) :
    Accounted t where
  recorded := hmanager ▸ h.recorded
  peers peer := by
    rw [hmanager, hway]
    exact h.peers peer
  unposted := hunposted

/-- What the download task sends announces no peer. -/
theorem Accounted.reports (h : Accounted s) (hposted : s.posted = s.download.sent.length)
    (hreports : Download.Reports s.download t.download) (hmanager : t.manager = s.manager)
    (hevents : t.events = s.events) (hannouncers : t.announcers = s.announcers)
    (hsame : t.posted = s.posted) : Accounted t := by
  obtain ⟨news, hsent, -, hnews⟩ := hreports.news
  refine h.congr hmanager (fun peer => ?_) fun peer hmem => ?_
  · rw [OnItsWay, OnItsWay, hevents, hannouncers]
  · rw [hsent, hsame, hposted, List.drop_left] at hmem
    exact hnews _ hmem

/-- The manager has handled its next event. -/
theorem Accounted.handles (h : Accounted s) (hinf : Informed s) {e : ManagerEvent}
    {events : List ManagerEvent} {receivers : Receivers} {r : Option ℕ} {manager : Manager}
    (hqueue : s.events = e :: events)
    (handled : Manager.handleInput (.event e receivers) s.manager = .ok r manager) :
    Accounted
      (afterRound { s with events, announcers := s.announcers ++ e.announcers } manager) := by
  have hannounced := (hinf.head hqueue).input_announced receivers
  obtain ⟨hrecorded, hknown⟩ := Manager.handleInput_knows h.recorded hannounced handled
  refine ⟨hrecorded, fun peer => ?_, h.unposted⟩
  have hpeers := h.peers peer
  simp only [OnItsWay, hqueue, List.mem_cons] at hpeers
  simp only [OnItsWay, afterRound, (Manager.handleInput_notes handled).2, List.mem_append,
    ManagerEvent.mem_announcements, hknown, hpeers, or_and_right, exists_or]
  apply iff_of_eq
  ac_rfl

theorem exists_mem_set {i : ℕ} {next : Peer} {rest : List Peer} {announcers : List (List Peer)}
    (h : announcers[i]? = some (next :: rest)) :
    (∃ peers ∈ announcers, peer ∈ peers) ↔
      (∃ peers ∈ announcers.set i rest, peer ∈ peers) ∨ peer = next := by
  obtain ⟨hlt, hget⟩ := List.getElem?_eq_some_iff.mp h
  have hold : announcers = announcers.take i ++ (next :: rest) :: announcers.drop (i + 1) := by
    rw [← hget, List.getElem_cons_drop, List.take_append_drop]
  have hnew : announcers.set i rest =
      announcers.take i ++ rest :: announcers.drop (i + 1) := List.set_eq_take_cons_drop rest hlt
  rw [hnew]
  nth_rewrite 1 [hold]
  simp only [List.mem_append, List.mem_cons, or_and_right, exists_or, exists_eq_left]
  apply iff_of_eq
  ac_rfl

theorem Moves.accounted (h : Moves sha1 s a t) (hinf : Informed s) (hs : Accounted s) :
    Accounted t := by
  cases h with
  | trackerSends => exact hs.congr rfl (fun peer => by simp [OnItsWay]) hs.unposted
  | announces hpeers =>
    refine hs.congr rfl (fun peer => ?_) hs.unposted
    simp only [OnItsWay, exists_mem_set hpeers, List.mem_append, List.mem_singleton,
      ManagerEvent.connection.injEq, true_and]
    apply iff_of_eq
    ac_rfl
  | handles hidle hqueue hother handled => exact hs.handles hinf hqueue handled
  | broadcasts hidle hqueue horder =>
    exact hs.congr rfl (fun peer => by simp [OnItsWay, hqueue]) hs.unposted
  | @finishes b r manager hsending hdone handled =>
    obtain ⟨hrecorded, hknown⟩ := Manager.handleInput_knows hs.recorded (by trivial) handled
    have hannounced : manager.announced = s.manager.announced :=
      (Manager.handleInput_notes handled).2.trans (List.append_nil _)
    have hsame : ∀ peer, peer ∈ manager.known ↔ peer ∈ s.manager.known := fun peer =>
      (hknown peer).trans (or_iff_left fun heq => by cases heq)
    refine ⟨hrecorded, fun peer => ?_, hs.unposted⟩
    change .connection true peer ∈ manager.announced ↔ s.OnItsWay peer ∨ peer ∈ manager.known
    rw [hannounced, hsame]
    exact hs.peers peer
  | disconnects hidle hqueue handled =>
    cases handled
    exact ⟨hs.recorded.disconnected _, hs.peers, hs.unposted⟩
  | posts hsent =>
    obtain ⟨hlt, rfl⟩ := List.getElem?_eq_some_iff.mp hsent
    have hunposted := hs.unposted
    rw [List.drop_eq_getElem_cons hlt] at hunposted
    refine hs.congr rfl (fun peer => ?_) fun peer hmem =>
      hunposted peer (List.mem_cons_of_mem _ hmem)
    have hne : ManagerEvent.connection true peer ≠ s.download.sent[s.posted] := fun heq =>
      hunposted peer (heq ▸ List.mem_cons_self)
    simp [OnItsWay, hne]
  | replies hgoing hposted hqueue handled =>
    exact hs.reports (le_antisymm hinf.posted hposted)
      ((Download.stays_handleEvent sha1 _).ok handled) rfl rfl rfl rfl
  | breaks hgoing hposted hqueue handled =>
    exact hs.reports (le_antisymm hinf.posted hposted)
      ((Download.stays_handleEvent sha1 _).error handled) rfl rfl rfl rfl
  | _ => exact hs.congr rfl (fun _ => Iff.rfl) hs.unposted

/-- In every state of every run a peer has been announced exactly when it is on its way to the
manager, waits, or has been given a connection; at rest none is on its way. With no more announced
peers than places none waits, so that each of them gets a connection. -/
theorem announced_peers_accounted {metaInfo : TorrentMetaInfo} {download : Download}
    (h : Reachable (Moves sha1) (start (.new metaInfo download.filePaths) download) s) :
    (∀ peer, .connection true peer ∈ s.manager.announced ↔ s.OnItsWay peer ∨
      peer ∈ s.manager.peersDeque.map (·.2) ∨ peer ∈ s.manager.started.map (·.2)) ∧
    (s.Rests → ∀ peer, ¬ s.OnItsWay peer) ∧
    ∀ peers : Finset Peer, (∀ peer, .connection true peer ∈ s.manager.announced → peer ∈ peers) →
      peers.card ≤ maxConnections → s.manager.peersDeque = [] := by
  have hs : Accounted s := by
    apply h.invariant_of_reachable (accounted_start metaInfo download.filePaths download)
    intro u a v hu haccounted hmove
    exact hmove.accounted (reachable_wired hu).2.1 haccounted
  obtain ⟨hrecorded, hpeers, -⟩ := hs
  refine ⟨fun peer => ?_, fun hrests peer hway => ?_, fun peers hall hfew => ?_⟩
  · rw [hpeers, Manager.known, List.mem_append]
  · rcases hway with ⟨remaining, hmem, hpeer⟩ | hevent
    · rw [hrests.announcers remaining hmem] at hpeer
      cases hpeer
    · rw [hrests.events] at hevent
      cases hevent
  · by_contra hne
    have hcrowded := hrecorded.crowded hne
    have hle : s.manager.known.toFinset.card ≤ peers.card := by
      apply Finset.card_le_card
      intro peer hpeer
      exact hall peer ((hpeers peer).mpr (Or.inr (List.mem_toFinset.mp hpeer)))
    omega

/-- The peer of a tracker has been given a connection. -/
theorem announced_peers_accounted_connected :
    ∃ s, Reachable (Moves fun _ => Sha1.replicate 0)
        (start (.new Download.oneBlockTorrent Download.oneBlockDownload.filePaths)
          Download.oneBlockDownload) s ∧
      s.manager.started = [(true, announcedPeer)] ∧
      (∀ peer, .connection true peer ∈ s.manager.announced ↔ s.OnItsWay peer ∨
        peer ∈ s.manager.peersDeque.map (·.2) ∨ peer ∈ s.manager.started.map (·.2)) ∧
      (s.Rests → ∀ peer, ¬ s.OnItsWay peer) ∧
      ∀ peers : Finset Peer, (∀ peer, .connection true peer ∈ s.manager.announced → peer ∈ peers) →
        peers.card ≤ maxConnections → s.manager.peersDeque = [] := by
  have hannounced := (announced_safely (fun _ => Sha1.replicate 0) Download.oneBlockTorrent
    Download.oneBlockDownload.filePaths Download.oneBlockDownload announcedPeer).reachable
  have hstarted := hannounced.tail (.handles rfl rfl rfl rfl)
  exact ⟨_, hstarted, rfl, announced_peers_accounted hstarted⟩

end ClientTasks
end TorrentClient
