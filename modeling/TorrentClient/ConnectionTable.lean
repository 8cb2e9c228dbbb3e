import TorrentClient.Manager
import TorrentClient.TransitionRuns

/-!
# The table of connections

What holds of the peers that are connected and of those that wait, over the events of the
tracker path, broadcasts in which any sends fail, and notifications that a connection has
ended. A broadcast fills the places that it frees; the branch that handles a notification
frees a place and leaves the queue as it is.
-/
namespace TorrentClient
open TransitionRuns

namespace ManagerInput

/-- New connections are those of the tracker path, which sends its handshake first. -/
def Announced : ManagerInput → Prop
  | event (.connection sendHandshakeFirst _) _ => sendHandshakeFirst = true
  | _ => True

/-- A broadcast walks over all entries, in some order. -/
def Walks (m : Manager) : ManagerInput → Prop
  | event (.broadcast _) receivers => receivers.order.Perm m.peers.entries
  | _ => True

/-- The branches that call `connect`. -/
def MayConnect : ManagerInput → Prop
  | event (.connection ..) _ => True
  | event (.broadcast _) _ => True
  | _ => False

end ManagerInput

namespace Manager

/-- One round of the loop that goes on. -/
structure InputStep (m : Manager) (input : ManagerInput) (t : Manager) : Prop where
  announced : input.Announced
  walks : input.Walks m
  handled : ∃ r, handleInput input m = .ok r t

/-- The table keeps to its limit, and no peer waits twice or while it is connected. -/
structure TableInvariant (m : Manager) : Prop where
  room : m.peers.keys.length ≤ maxConnections
  nodup : (m.peersDeque.map (·.2)).Nodup
  apart : ∀ waiting ∈ m.peersDeque, waiting.2 ∉ m.peers
  announced : ∀ waiting ∈ m.peersDeque, waiting.1 = true

/-- A peer waits only while all places are taken. -/
def Filled (m : Manager) : Prop :=
  m.peersDeque ≠ [] → m.peers.keys.length = maxConnections

/-- The notification takes a place away while peers wait. -/
def LosesSlot (m : Manager) : ManagerInput → Prop
  | .disconnect peer => peer ∈ m.peers ∧ m.peersDeque ≠ []
  | _ => False

variable {m t : Manager}

/-! ### Entries -/

theorem length_keys_connected {peer : Peer} (flag : Bool) (h : m.peers.lookup peer = none) :
    (m.connected flag peer).peers.keys.length = m.peers.keys.length + 1 := by
  have hmem : peer ∉ m.peers.keys := AList.lookup_eq_none.mp h
  rw [connected, AList.keys_insert, List.length_cons, List.erase_of_not_mem hmem]

theorem length_keys_disconnected {peer : Peer} (h : peer ∈ m.peers) :
    (m.disconnected peer).peers.keys.length = m.peers.keys.length - 1 := by
  rw [disconnected, AList.keys_erase]
  exact List.length_erase_of_mem h

theorem disconnected_of_notMem {peer : Peer} (h : peer ∉ m.peers) :
    (m.disconnected peer).peers = m.peers := by
  exact AList.ext (List.kerase_of_notMem_keys h)

theorem mem_connected {flag : Bool} {peer p : Peer} :
    p ∈ (m.connected flag peer).peers ↔ p = peer ∨ p ∈ m.peers := AList.mem_insert _

theorem mem_disconnected {peer p : Peer} :
    p ∈ (m.disconnected peer).peers ↔ p ≠ peer ∧ p ∈ m.peers := AList.mem_erase

/-! ### What one change of the table preserves -/

theorem TableInvariant.connected {flag : Bool} {peer : Peer} (h : m.TableInvariant)
    (hnew : m.peers.lookup peer = none) (hfree : m.peers.keys.length < maxConnections)
    (hdeque : peer ∉ m.peersDeque.map (·.2)) : (m.connected flag peer).TableInvariant where
  room := by
    rw [length_keys_connected flag hnew]
    exact hfree
  nodup := h.nodup
  apart waiting hwaiting hmem := by
    rcases mem_connected.mp hmem with heq | hmem
    · exact hdeque (heq ▸ List.mem_map_of_mem hwaiting)
    · exact h.apart waiting hwaiting hmem
  announced := h.announced

theorem TableInvariant.disconnected (h : m.TableInvariant) (peer : Peer) :
    (m.disconnected peer).TableInvariant where
  room := by
    rw [Manager.disconnected, AList.keys_erase]
    exact le_trans List.length_erase_le h.room
  nodup := h.nodup
  apart waiting hwaiting hmem := h.apart waiting hwaiting (mem_disconnected.mp hmem).2
  announced := h.announced

theorem TableInvariant.tail {waiting : Bool × Peer} {rest : List (Bool × Peer)}
    (h : m.TableInvariant) (hdeque : m.peersDeque = waiting :: rest) :
    TableInvariant { m with peersDeque := rest } ∧ waiting.2 ∉ rest.map (·.2) := by
  have hnodup := h.nodup
  have hapart := h.apart
  have hannounced := h.announced
  rw [hdeque] at hnodup hapart hannounced
  rw [List.map_cons, List.nodup_cons] at hnodup
  refine ⟨⟨h.room, hnodup.2, ?_, ?_⟩, hnodup.1⟩
  · exact fun x hx => hapart x (List.mem_cons_of_mem _ hx)
  · exact fun x hx => hannounced x (List.mem_cons_of_mem _ hx)

/-- Replacing a connected peer keeps the table, keeps it filled, and keeps the other peers. -/
theorem replacePeer_keeps {p : Peer} {u : Unit} (h : m.TableInvariant) (hp : p ∈ m.peers)
    (hrun : replacePeer p m = .ok u t) :
    t.TableInvariant ∧ (m.Filled → t.Filled) ∧ ∀ k ∈ m.peers, k ≠ p → k ∈ t.peers := by
  have hpos : 0 < m.peers.keys.length := List.length_pos_of_mem hp
  have hlen := length_keys_disconnected hp
  have hroom := h.room
  rcases replacePeer_cases hrun with ⟨hdeque, rfl⟩ | ⟨flag, peer, rest, hdeque, hnew, rfl⟩
  · refine ⟨h.disconnected p, fun _ hne => absurd hdeque hne, ?_⟩
    exact fun k hk hne => mem_disconnected.mpr ⟨hne, hk⟩
  · obtain ⟨htail, hrest⟩ := (h.disconnected p).tail hdeque
    have hlen' :=
      length_keys_connected (m := { m.disconnected p with peersDeque := rest }) flag hnew
    refine ⟨htail.connected hnew ?_ hrest, fun hfilled _ => ?_, fun k hk hne => ?_⟩
    · change (m.disconnected p).peers.keys.length < maxConnections
      omega
    · have hfull : m.peers.keys.length = maxConnections := hfilled (by simp [hdeque])
      change _ = (m.disconnected p).peers.keys.length + 1 at hlen'
      omega
    · exact mem_connected.mpr (Or.inr (mem_disconnected.mpr ⟨hne, hk⟩))

theorem replacePeers_keeps {deleteKeys : List Peer} {u : Unit} (h : m.TableInvariant)
    (hnodup : deleteKeys.Nodup) (hmem : ∀ p ∈ deleteKeys, p ∈ m.peers)
    (hrun : replacePeers deleteKeys m = .ok u t) :
    t.TableInvariant ∧ (m.Filled → t.Filled) := by
  induction deleteKeys generalizing m with
  | nil =>
    cases hrun
    exact ⟨h, id⟩
  | cons p deleteKeys ih =>
    obtain ⟨u', m', hp, hrest⟩ := stateful_bind_eq_ok.mp hrun
    rw [List.nodup_cons] at hnodup
    rw [List.forall_mem_cons] at hmem
    obtain ⟨htable, hfilled, hkeeps⟩ := replacePeer_keeps h hmem.1 hp
    have hmem' : ∀ k ∈ deleteKeys, k ∈ m'.peers := by
      intro k hk
      exact hkeeps k (hmem.2 k hk) (fun heq => hnodup.1 (heq ▸ hk))
    obtain ⟨htable', hfilled'⟩ := ih htable hnodup.2 hmem' hrest
    exact ⟨htable', fun hm => hfilled' (hfilled hm)⟩

theorem deleteKeys_nodup {receivers : Receivers} (h : receivers.order.Perm m.peers.entries) :
    (deleteKeys receivers).Nodup ∧ ∀ p ∈ deleteKeys receivers, p ∈ m.peers := by
  have hsub : (deleteKeys receivers).Sublist (receivers.order.map (·.1)) :=
    List.filter_sublist.map _
  have hperm : (receivers.order.map (·.1)).Perm m.peers.keys := h.map _
  exact ⟨hsub.nodup (hperm.nodup_iff.mpr m.peers.nodupKeys),
    fun p hp => hperm.mem_iff.mp (hsub.subset hp)⟩

theorem tableInvariant_new (metaInfo : TorrentMetaInfo) (filePaths : List String) :
    (new metaInfo filePaths).TableInvariant where
  room := Nat.zero_le _
  nodup := List.nodup_nil
  apart := by simp [new]
  announced := by simp [new]

theorem SameTable.tableInvariant (same : SameTable m t) (h : m.TableInvariant) :
    t.TableInvariant where
  room := same.peers ▸ h.room
  nodup := same.peersDeque ▸ h.nodup
  apart := same.peersDeque ▸ same.peers ▸ h.apart
  announced := same.peersDeque ▸ h.announced

theorem SameTable.filled (same : SameTable m t) (h : m.Filled) : t.Filled := by
  unfold Filled
  rw [same.peers, same.peersDeque]
  exact h

private theorem TableInvariant.notMem_waiting {peer : Peer} (h : m.TableInvariant)
    (hdeque : (true, peer) ∉ m.peersDeque) : peer ∉ m.peersDeque.map (·.2) := by
  intro hmem
  obtain ⟨waiting, hwaiting, rfl⟩ := List.mem_map.mp hmem
  refine hdeque ?_
  rw [← h.announced waiting hwaiting]
  exact hwaiting

/-- One round keeps the table, and keeps it filled unless it loses a slot. -/
theorem inputStep_keeps {input : ManagerInput} (h : m.TableInvariant)
    (hstep : InputStep m input t) :
    t.TableInvariant ∧ (m.Filled → (t.Filled ↔ ¬ LosesSlot m input)) := by
  obtain ⟨hannounced, hwalks, r, hhandled⟩ := hstep
  cases handleInput_round hhandled with
  | keeps same =>
    exact ⟨same.tableInvariant h, fun hm => iff_of_true (same.filled hm) (by simp [LosesSlot])⟩
  | broadcasts hreplace =>
    obtain ⟨hnodup, hmem⟩ := deleteKeys_nodup hwalks
    have same := sameTable_sendAll m
    obtain ⟨htable, hfilled⟩ := replacePeers_keeps (m := m.sendAll _ _)
      ((same _ _).tableInvariant h) hnodup hmem hreplace
    exact ⟨htable, fun hm => iff_of_true (hfilled hm) (by simp [LosesSlot])⟩
  | connects hnew hdeque hfree =>
    obtain rfl := hannounced
    refine ⟨h.connected hnew hfree (h.notMem_waiting hdeque), fun hm => ?_⟩
    refine iff_of_true (fun hne => ?_) (by simp [LosesSlot])
    exact absurd (hm hne) (Nat.ne_of_lt hfree)
  | waits hnew hdeque hfull =>
    obtain rfl := hannounced
    refine ⟨⟨h.room, ?_, ?_, ?_⟩, fun hm => ?_⟩
    · rw [List.map_append, List.map_singleton, List.nodup_append]
      refine ⟨h.nodup, by simp, fun p hp q hq heq => ?_⟩
      obtain rfl := heq.trans (List.mem_singleton.mp hq)
      exact h.notMem_waiting hdeque hp
    · intro waiting hwaiting
      rcases List.mem_append.mp hwaiting with hwaiting | hwaiting
      · exact h.apart waiting hwaiting
      · rw [List.mem_singleton.mp hwaiting]
        exact AList.lookup_eq_none.mp hnew
    · intro waiting hwaiting
      rcases List.mem_append.mp hwaiting with hwaiting | hwaiting
      · exact h.announced waiting hwaiting
      · rw [List.mem_singleton.mp hwaiting]
    · exact iff_of_true (fun _ => le_antisymm h.room hfull) (by simp [LosesSlot])
  | disconnects =>
    rename_i peer
    refine ⟨h.disconnected peer, fun hm => ?_⟩
    simp only [LosesSlot, not_and, not_not]
    by_cases hpeer : peer ∈ m.peers
    · have hlen := length_keys_disconnected hpeer
      have hpos : 0 < m.peers.keys.length := List.length_pos_of_mem hpeer
      constructor
      · intro hfilled _
        by_contra hne
        have hfull : (m.disconnected peer).peers.keys.length = maxConnections := hfilled hne
        have hfull' := hm hne
        omega
      · intro hempty hne
        exact absurd (hempty hpeer) hne
    · refine iff_of_true (fun hne => ?_) (fun hmem => absurd hmem hpeer)
      rw [disconnected_of_notMem hpeer]
      exact hm hne

theorem tableInvariant_of_run {metaInfo : TorrentMetaInfo} {filePaths : List String}
    {trace : List (Step Manager ManagerInput)}
    (run : Run InputStep (new metaInfo filePaths) trace m) : m.TableInvariant :=
  run.invariant (tableInvariant_new metaInfo filePaths)
    (fun _ _ _ h hstep => (inputStep_keeps h hstep).1)

/-- In a run of the manager every waiting peer waits for one of 30 taken places exactly as
long as no notification takes an entry away while the queue is not empty. -/
theorem queue_waits_for_full_table_iff {metaInfo : TorrentMetaInfo} {filePaths : List String}
    {trace : List (Step Manager ManagerInput)} {m : Manager}
    (run : Run InputStep (new metaInfo filePaths) trace m) :
    (∀ x ∈ trace, x.after.Filled) ↔ ∀ x ∈ trace, ¬ LosesSlot x.before x.label := by
  have hstep : ∀ m input t, TableInvariant m → Filled m → InputStep m input t →
      TableInvariant t ∧ (Filled t ↔ ¬ LosesSlot m input) := by
    intro m input t h hm hstep
    obtain ⟨htable, hfilled⟩ := inputStep_keeps h hstep
    exact ⟨htable, hfilled hm⟩
  exact run.forall_after_iff (tableInvariant_new metaInfo filePaths) (fun hne => absurd rfl hne) hstep

/-- 31 peers are announced. -/
def announcedPeers : List ManagerInput :=
  (List.range 31).map fun port => .event (.connection true ⟨"10.0.0.1", UInt16.ofNat port⟩)
    ⟨[], fun _ => true, true, true⟩

private theorem run_of_managerLoop {start : Manager} {trace : List (Step Manager ManagerInput)}
    {inputs : List ManagerInput} {replies : List (Option ℕ)}
    (run : Run InputStep start trace m) (hannounced : ∀ input ∈ inputs, input.Announced)
    (hwalks : ∀ input ∈ inputs, ∀ m, input.Walks m)
    (h : managerLoop inputs m = .ok replies t) :
    ∃ trace', Run InputStep start trace' t ∧
      trace'.map (·.label) = trace.map (·.label) ++ inputs := by
  induction inputs generalizing m trace replies with
  | nil =>
    cases h
    exact ⟨trace, run, (List.append_nil _).symm⟩
  | cons input inputs ih =>
    rw [List.forall_mem_cons] at hannounced hwalks
    obtain ⟨reply, m', hhandle, h⟩ := stateful_bind_eq_ok.mp h
    obtain ⟨replies', t', hloop, hreturn⟩ := stateful_bind_eq_ok.mp h
    cases hreturn
    obtain ⟨trace', hrun, hlabels⟩ := ih (run.snoc ⟨hannounced.1, hwalks.1 m, reply, hhandle⟩)
      hannounced.2 hwalks.2 hloop
    exact ⟨trace', hrun, by simp [hlabels]⟩

theorem announcedPeers_announced : ∀ input ∈ announcedPeers,
    input.Announced ∧ ∀ m, input.Walks m := by
  intro input hinput
  obtain ⟨port, -, rfl⟩ := List.mem_map.mp hinput
  exact ⟨rfl, fun _ => trivial⟩

private theorem managerLoop_announcedPeers :
    (match managerLoop announcedPeers (new (TorrentMetaInfo.singleFile "a" 1 1 []) []) with
    | .ok _ m => some (m.peersDeque.length, m.peers.keys.length)
    | .error _ _ => none) = some (1, 30) := by decide +kernel

/-- The last of them waits for the places of the others. -/
theorem queue_waits_for_full_table_announced : ∃ trace m,
    Run InputStep (new (TorrentMetaInfo.singleFile "a" 1 1 []) []) trace m ∧
      trace.map (·.label) = announcedPeers ∧ m.peersDeque.length = 1 ∧
      m.peers.keys.length = 30 ∧ ∀ x ∈ trace, x.after.Filled := by
  have hloop := managerLoop_announcedPeers
  split at hloop
  · rename_i replies m hrun
    rw [Option.some.injEq, Prod.mk.injEq] at hloop
    obtain ⟨trace, run, hlabels⟩ := run_of_managerLoop .nil
      (fun input h => (announcedPeers_announced input h).1)
      (fun input h => (announcedPeers_announced input h).2) hrun
    refine ⟨trace, m, run, hlabels, hloop.1, hloop.2, (queue_waits_for_full_table_iff run).mpr ?_⟩
    intro x hx hloses
    have hmem : x.label ∈ trace.map (·.label) := List.mem_map_of_mem hx
    rw [hlabels] at hmem
    obtain ⟨port, -, hlabel⟩ := List.mem_map.mp hmem
    rw [← hlabel] at hloses
    exact hloses
  · cases hloop

/-! ### The assertion in `connect` -/

/-- The peer that takes over a place has no entry yet, so its `connect` succeeds. -/
theorem replacePeer_ok (h : m.TableInvariant) (p : Peer) : ∃ t, replacePeer p m = .ok () t := by
  rw [replacePeer_eq]
  cases hdeque : m.peersDeque with
  | nil => exact ⟨_, rfl⟩
  | cons waiting rest =>
    have hapart : waiting.2 ∉ m.peers := h.apart waiting (by simp [hdeque])
    have hnew : (m.disconnected p).peers.lookup waiting.2 = none :=
      AList.lookup_eq_none.mpr fun hmem => hapart (mem_disconnected.mp hmem).2
    exact ⟨_, connect_of_none waiting.1 hnew⟩

theorem replacePeers_ok {deleteKeys : List Peer} (h : m.TableInvariant) (hnodup : deleteKeys.Nodup)
    (hmem : ∀ p ∈ deleteKeys, p ∈ m.peers) : ∃ t, replacePeers deleteKeys m = .ok () t := by
  induction deleteKeys generalizing m with
  | nil => exact ⟨m, rfl⟩
  | cons p deleteKeys ih =>
    rw [List.nodup_cons] at hnodup
    rw [List.forall_mem_cons] at hmem
    obtain ⟨m', hp⟩ := replacePeer_ok h p
    obtain ⟨h', -, hkeeps⟩ := replacePeer_keeps h hmem.1 hp
    have hmem' : ∀ k ∈ deleteKeys, k ∈ m'.peers := by
      intro k hk
      exact hkeeps k (hmem.2 k hk) (fun heq => hnodup.1 (heq ▸ hk))
    obtain ⟨t, hrest⟩ := ih h' hnodup.2 hmem'
    exact ⟨t, (bind_of_ok hp).trans hrest⟩

/-- Where peers are announced and broadcasts walk over the table, every `connect` succeeds. -/
theorem handleInput_ok {input : ManagerInput} (h : m.TableInvariant)
    (hannounced : input.Announced) (hwalks : input.Walks m) (hconnect : input.MayConnect) :
    ∃ t, handleInput input m = .ok none t := by
  cases input with
  | disconnect => exact hconnect.elim
  | event e receivers =>
    cases e with
    | connection flag peer =>
      rw [handleInput, processEvent_connection]
      split_ifs with hknown hfree
      · exact ⟨m, rfl⟩
      · rw [Bool.or_eq_true, not_or, Bool.not_eq_true, Option.isSome_eq_false_iff] at hknown
        exact ⟨_, bind_of_ok (connect_of_none flag (by simpa using hknown.1))⟩
      · exact ⟨_, rfl⟩
    | broadcast ipc =>
      obtain ⟨hnodup, hmem⟩ := deleteKeys_nodup hwalks
      have same := sameTable_sendAll m receivers ipc
      obtain ⟨t, hreplace⟩ := replacePeers_ok (same.tableInvariant h) hnodup hmem
      rw [handleInput, processEvent_broadcast]
      exact ⟨t, bind_of_ok hreplace⟩
    | _ => exact hconnect.elim

/-- In every state of a run there are at most 30 entries, no peer waits twice or while it has
an entry, and whatever announced peer or broadcast comes next, no `connect` fails. -/
theorem connect_never_fails {metaInfo : TorrentMetaInfo} {filePaths : List String}
    {trace : List (Step Manager ManagerInput)} {m : Manager}
    (run : Run InputStep (new metaInfo filePaths) trace m) :
    m.peers.keys.length ≤ 30 ∧ (m.peersDeque.map (·.2)).Nodup ∧
      (∀ waiting ∈ m.peersDeque, waiting.2 ∉ m.peers) ∧
      ∀ input : ManagerInput, input.Announced → input.Walks m → input.MayConnect →
        ∃ t, handleInput input m = .ok none t := by
  have h := tableInvariant_of_run run
  exact ⟨h.room, h.nodup, h.apart, fun input => handleInput_ok h⟩

/-- A send to the only connection fails. -/
theorem connect_never_fails_one : ∃ t,
    handleInput (.event (.broadcast .downloadCompleted)
        ⟨[⟨⟨"10.0.0.1", 0⟩, 0⟩], fun _ => false, true, true⟩)
      ((new (TorrentMetaInfo.singleFile "a" 1 1 []) []).connected true ⟨"10.0.0.1", 0⟩) =
        .ok none t := by
  have hconnects : InputStep (new (TorrentMetaInfo.singleFile "a" 1 1 []) [])
      (.event (.connection true ⟨"10.0.0.1", 0⟩) ⟨[], fun _ => true, true, true⟩)
      ((new (TorrentMetaInfo.singleFile "a" 1 1 []) []).connected true ⟨"10.0.0.1", 0⟩) :=
    ⟨rfl, trivial, none, rfl⟩
  obtain ⟨-, -, -, hinput⟩ := connect_never_fails (Run.nil.snoc hconnects)
  exact hinput _ trivial (List.Perm.refl _) trivial

/-- 31 peers are announced, and the first of them disconnects. -/
def announcedThenLost : List ManagerInput := announcedPeers ++ [.disconnect ⟨"10.0.0.1", 0⟩]

private theorem managerLoop_announcedThenLost :
    (match managerLoop announcedThenLost (new (TorrentMetaInfo.singleFile "a" 1 1 []) []) with
    | .ok _ m => some (m.peersDeque.length, m.peers.keys.length)
    | .error _ _ => none) = some (1, 29) := by decide +kernel

/-- The peer that waits is not connected to when the notification frees a place. -/
theorem disconnect_leaves_queue : ∃ trace m,
    Run InputStep (new (TorrentMetaInfo.singleFile "a" 1 1 []) []) trace m ∧
      trace.map (·.label) = announcedThenLost ∧ m.peersDeque.length = 1 ∧
      m.peers.keys.length = 29 := by
  have hloop := managerLoop_announcedThenLost
  split at hloop
  · rename_i replies m hrun
    have hinputs : ∀ input ∈ announcedThenLost, input.Announced ∧ ∀ m, input.Walks m := by
      intro input hinput
      rcases List.mem_append.mp hinput with hinput | hinput
      · exact announcedPeers_announced input hinput
      · obtain rfl := List.mem_singleton.mp hinput
        exact ⟨trivial, fun _ => trivial⟩
    obtain ⟨trace, run, hlabels⟩ := run_of_managerLoop .nil (fun input h => (hinputs input h).1)
      (fun input h => (hinputs input h).2) hrun
    rw [Option.some.injEq, Prod.mk.injEq] at hloop
    exact ⟨trace, m, run, hlabels, hloop⟩
  · cases hloop

end Manager
end TorrentClient
