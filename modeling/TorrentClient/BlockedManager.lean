import TorrentClient.ClientProgress

/-!
# A blocked connection blocks the manager

The manager sends a broadcast to one connection after the other and waits for room in the channel
of each. The channel of a blocked connection never has room again, so a broadcast that has still
to reach it never ends, and the manager handles no further event.
-/
namespace TorrentClient
open EffectPrograms TransitionRuns

namespace ConnectionTask

variable {c c' : ConnectionTask} {tasks : ConnectionTasks} {awaiting : Bool}

theorem deliver_of_blocked (hstage : c.stage = .looping tasks awaiting) (h : tasks.Blocked)
    (ipc : IPC) : c.deliver ipc = none := by
  have hfull : tasks.deliver ipc = none := if_neg fun hroom => Nat.not_lt_of_le h.2.1 hroom.2
  rw [deliver, hstage]
  exact congrArg (Option.map _) hfull

theorem isOver_of_blocked (hstage : c.stage = .looping tasks awaiting) (h : tasks.Blocked) :
    c.isOver = false := by
  rw [isOver, hstage]
  exact congrArg (!·) h.isReceiver

/-- A blocked loop waits for no answer. -/
theorem answer_of_blocked (hstage : c.stage = .looping tasks awaiting) (h : tasks.Blocked)
    {reply : Download.Reply} (hanswer : c.answer reply = some c') : c' = c := by
  rw [answer.eq_def] at hanswer
  split at hanswer
  · cases hanswer
    rfl
  · rename_i hawaiting
    rw [hstage] at hawaiting
    cases hawaiting
  · split at hanswer
    · rename_i hlooping _ _ _ hcall
      cases hstage.symm.trans hlooping
      exact absurd hcall (h.not_running _)
    · cases hanswer
  · cases hanswer

end ConnectionTask

namespace ClientTasks

variable {sha1 : Bytes → Sha1} {s t u : ClientTasks} {a : ClientTaskAction}
  {entry : Sigma fun _ : Peer => ℕ} {c : ConnectionTask} {tasks : ConnectionTasks}
  {awaiting : Bool}

/-- Since `s` the manager has not got past the entry of its broadcast, and has taken nothing from
its channels. -/
structure HeldUp (entry : Sigma fun _ : Peer => ℕ) (c : ConnectionTask) (s t : ClientTasks) :
    Prop where
  connection : t.connections[entry.2]? = some c
  sending : ∃ b, t.broadcasting = some b ∧ entry ∈ b.remaining
  manager : t.manager = s.manager
  events : s.events <+: t.events
  disconnects : s.disconnects <+: t.disconnects

namespace HeldUp

theorem congr (h : HeldUp entry c s t) (hconnection : u.connections[entry.2]? = some c)
    (hsending : u.broadcasting = t.broadcasting) (hmanager : u.manager = t.manager)
    (hevents : t.events <+: u.events) (hdisconnects : t.disconnects <+: u.disconnects) :
    HeldUp entry c s u := by
  obtain ⟨-, hs, hm, he, hd⟩ := h
  refine ⟨hconnection, ?_, hmanager.trans hm, he.trans hevents, hd.trans hdisconnects⟩
  rwa [hsending]

/-- Another connection has changed. -/
theorem setConnection {id : ℕ} {c' : ConnectionTask} (h : HeldUp entry c s t)
    (hid : id ≠ entry.2) : HeldUp entry c s (t.setConnection id c') := by
  refine h.congr ?_ rfl rfl (List.prefix_refl _) (List.prefix_refl _)
  rw [getElem?_setConnection_of_ne hid]
  exact h.connection

/-- The broadcast does not get past the entry with another one. -/
theorem mem_rest (h : HeldUp entry c s t) {b : Broadcasting}
    {next : Sigma fun _ : Peer => ℕ} {remaining : List (Sigma fun _ : Peer => ℕ)}
    (hsending : t.broadcasting = some b) (hnext : b.remaining = next :: remaining)
    (hid : next.2 ≠ entry.2) : entry ∈ remaining := by
  obtain ⟨b', hb, hmem⟩ := h.sending
  cases hsending.symm.trans hb
  rw [hnext] at hmem
  exact (List.mem_cons.mp hmem).resolve_left fun heq => hid (heq ▸ rfl)

theorem not_idle (h : HeldUp entry c s t) (hidle : t.broadcasting = none) : False := by
  obtain ⟨b, hb, -⟩ := h.sending
  rw [hidle] at hb
  cases hb

end HeldUp

/-- A move of a connection is one of another connection if the blocked one cannot make it. -/
theorem ne_of_blocked {id : ℕ} {c₁ : ConnectionTask} (h : HeldUp entry c s t)
    (hc : t.connections[id]? = some c₁) (hne : c₁ ≠ c) : id ≠ entry.2 := by
  rintro rfl
  exact hne (Option.some.inj (hc.symm.trans h.connection))

theorem Moves.heldUp (hmove : Moves sha1 t a u) (hstage : c.stage = .looping tasks awaiting)
    (hblocked : tasks.Blocked) (h : HeldUp entry c s t) : HeldUp entry c s u := by
  have hstages : ∀ {c₁ : ConnectionTask}, (∀ tasks awaiting, c₁.stage = .looping tasks awaiting →
      ¬ tasks.Blocked) → c₁ ≠ c := by
    rintro c₁ hnot rfl
    exact hnot tasks awaiting hstage hblocked
  have hrunning : ∀ {c₁ : ConnectionTask} {tasks₁ : ConnectionTasks} {awaiting₁ : Bool}
      {rest : PendingHandler}, c₁.stage = .looping tasks₁ awaiting₁ →
      tasks₁.loop = .running rest → c₁ ≠ c := by
    intro c₁ tasks₁ awaiting₁ rest hstage₁ hloop
    refine hstages fun tasks₂ awaiting₂ hstage₂ hb => ?_
    cases hstage₁.symm.trans hstage₂
    exact hb.not_running rest hloop
  have hother : ∀ {c₁ : ConnectionTask}, (∀ tasks awaiting, c₁.stage ≠ .looping tasks awaiting) →
      c₁ ≠ c := fun hne => hstages fun tasks₁ awaiting₁ heq => absurd heq (hne tasks₁ awaiting₁)
  cases hmove with
  | trackerSends => exact h.congr h.connection rfl rfl (List.prefix_append _ _) (List.prefix_refl _)
  | announces => exact h.congr h.connection rfl rfl (List.prefix_append _ _) (List.prefix_refl _)
  | posts => exact h.congr h.connection rfl rfl (List.prefix_append _ _) (List.prefix_refl _)
  | breaks => exact h.congr h.connection rfl rfl (List.prefix_refl _) (List.prefix_refl _)
  | handles hidle => exact (h.not_idle hidle).elim
  | broadcasts hidle => exact (h.not_idle hidle).elim
  | disconnects hidle => exact (h.not_idle hidle).elim
  | finishes hsending hdone =>
    obtain ⟨b, hb, hmem⟩ := h.sending
    cases hsending.symm.trans hb
    rw [hdone] at hmem
    cases hmem
  | @reaches b entry' remaining c₁ c' hsending hnext hc hdeliver =>
    have hid : entry'.2 ≠ entry.2 := by
      refine ne_of_blocked h hc ?_
      rintro rfl
      rw [ConnectionTask.deliver_of_blocked hstage hblocked] at hdeliver
      cases hdeliver
    have hrest := h.mem_rest hsending hnext hid
    refine ⟨?_, ⟨_, rfl, hrest⟩, h.manager, h.events, h.disconnects⟩
    rw [getElem?_setConnection_of_ne hid]
    exact h.connection
  | @misses b entry' remaining c₁ hsending hnext hc hover =>
    have hid : entry'.2 ≠ entry.2 := by
      refine ne_of_blocked h hc ?_
      rintro rfl
      rw [ConnectionTask.isOver_of_blocked hstage hblocked] at hover
      cases hover
    have hrest := h.mem_rest hsending hnext hid
    exact ⟨h.connection, ⟨_, rfl, hrest⟩, h.manager, h.events, h.disconnects⟩
  | @replies id e toDownload reply download c₁ c' hgoing hposted hqueue handled hc hanswer =>
    refine h.congr ?_ rfl rfl (List.prefix_refl _) (List.prefix_refl _)
    by_cases hid : id = entry.2
    · subst hid
      cases hc.symm.trans h.connection
      rw [ConnectionTask.answer_of_blocked hstage hblocked hanswer]
      exact List.getElem?_set_self (List.getElem?_eq_some_iff.mp hc).1
    · rw [getElem?_setConnection_of_ne hid]
      exact h.connection
  | requires hc hst =>
    have hid := ne_of_blocked h hc (hother fun _ _ heq => by cases hst.symm.trans heq)
    exact HeldUp.setConnection (h.congr h.connection rfl rfl (List.prefix_refl _)
      (List.prefix_refl _)) hid
  | connects hc hst =>
    exact h.setConnection (ne_of_blocked h hc (hother fun _ _ heq => by cases hst.symm.trans heq))
  | fails hc hst | unparsed hc hst =>
    exact h.setConnection (ne_of_blocked h hc (hother fun _ _ heq => by cases hst.symm.trans heq))
  | cancelled hc hst =>
    refine h.setConnection (ne_of_blocked h hc (hother fun _ _ heq => ?_))
    rcases hst with hst | hst
    · cases hst.symm.trans heq
    · cases hst.symm.trans heq
  | tells hc hst hloop =>
    have hid := ne_of_blocked h hc (hrunning hst hloop)
    exact HeldUp.setConnection (h.congr h.connection rfl rfl (List.prefix_refl _)
      (List.prefix_refl _)) hid
  | asks hc hst hloop =>
    have hid := ne_of_blocked h hc (hrunning hst hloop)
    exact HeldUp.setConnection (h.congr h.connection rfl rfl (List.prefix_refl _)
      (List.prefix_refl _)) hid
  | refused hc hst hloop => exact h.setConnection (ne_of_blocked h hc (hrunning hst hloop))
  | picks choice hc hst hloop => exact h.setConnection (ne_of_blocked h hc (hrunning hst hloop))
  | acts hown hc hst hgoing hact =>
    refine h.setConnection (ne_of_blocked h hc (hstages fun tasks₁ awaiting₁ heq hb => ?_))
    cases hst.symm.trans heq
    rw [ConnectionTasks.actStep, hb.stuck hown] at hact
    cases hact
  | panics hc hst hpanics => exact h.setConnection (ne_of_blocked h hc (hrunning hst hpanics.2))
  | ends hc hst hloop hwriter =>
    refine h.setConnection (ne_of_blocked h hc (hstages fun tasks₁ awaiting₁ heq hb => ?_))
    cases hst.symm.trans heq
    rw [hb.1] at hwriter
    cases hwriter
  | notifies hc hover =>
    have hid := ne_of_blocked h hc (by
      rintro rfl
      rw [ConnectionTask.isOver_of_blocked hstage hblocked] at hover
      cases hover)
    exact HeldUp.setConnection (h.congr h.connection rfl rfl (List.prefix_refl _)
      (List.prefix_append _ _)) hid

theorem heldUp_of_reachable {b : Broadcasting} (hc : s.connections[entry.2]? = some c)
    (hstage : c.stage = .looping tasks awaiting) (hblocked : tasks.Blocked)
    (hsending : s.broadcasting = some b) (hentry : entry ∈ b.remaining)
    (h : Reachable (Moves sha1) s t) : HeldUp entry c s t := by
  have hinit : HeldUp entry c s s :=
    ⟨hc, ⟨b, hsending, hentry⟩, rfl, List.prefix_refl _, List.prefix_refl _⟩
  exact h.invariant hinit fun _ _ _ hu hmove => hmove.heldUp hstage hblocked hu

/-- Where a broadcast has still to reach a blocked connection, the connection never changes
again, the broadcast never ends, and the manager handles nothing of what is in its channels or
comes into them. -/
theorem blocked_stops_manager {b : Broadcasting} (hc : s.connections[entry.2]? = some c)
    (hstage : c.stage = .looping tasks awaiting) (hblocked : tasks.Blocked)
    (hsending : s.broadcasting = some b) (hentry : entry ∈ b.remaining)
    (h : Reachable (Moves sha1) s t) :
    t.connections[entry.2]? = some c ∧
      (∃ b', t.broadcasting = some b' ∧ entry ∈ b'.remaining) ∧
      t.manager = s.manager ∧ s.events <+: t.events ∧ s.disconnects <+: t.disconnects := by
  have hheld := heldUp_of_reachable hc hstage hblocked hsending hentry h
  exact ⟨hheld.connection, hheld.sending, hheld.manager, hheld.events, hheld.disconnects⟩

/-- A peer that has left while a piece was on its way to it, and ten of its messages unread. -/
def blockedLoops : ConnectionTasks :=
  ⟨.closing, .notifying, List.replicate 10 (.message .keepAlive), []⟩

def blockedPeer : Sigma fun _ : Peer => ℕ := ⟨⟨"10.0.0.1", 6881⟩, 0⟩

def blockedClient : ClientTasks :=
  { start (.new Download.oneBlockTorrent Download.oneBlockDownload.filePaths)
      Download.oneBlockDownload with
    broadcasting := some ⟨.pieceCompleted 0, [blockedPeer], [blockedPeer], []⟩
    connections := [⟨.looping blockedLoops false, [], false, false⟩] }

theorem blocked_stops_manager_closing :
    ∃ t, Reachable (Moves fun _ => Sha1.replicate 0) blockedClient t ∧
      t.events = [.tracker (.peers [])] ∧
      t.connections[0]? = some ⟨.looping blockedLoops false, [], false, false⟩ ∧
      (∃ b', t.broadcasting = some b' ∧ blockedPeer ∈ b'.remaining) ∧
      t.manager = blockedClient.manager ∧ blockedClient.events <+: t.events ∧
      blockedClient.disconnects <+: t.disconnects := by
  have hblocked : blockedLoops.Blocked := ⟨rfl, by decide, Or.inl rfl⟩
  have hreach : Reachable (Moves fun _ => Sha1.replicate 0) blockedClient _ :=
    Reachable.refl.tail (@Moves.trackerSends _ _ [])
  have hentry : blockedPeer ∈ [blockedPeer] := List.mem_singleton_self blockedPeer
  exact ⟨_, hreach, rfl, blocked_stops_manager rfl rfl hblocked rfl hentry hreach⟩

end ClientTasks
end TorrentClient
