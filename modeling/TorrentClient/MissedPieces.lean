import TorrentClient.ClientActs
import TorrentClient.PieceNews

/-!
# No connection misses a completed piece

A connection learns which pieces are completed in two ways: from the answer of the download
task at its start, and from what the download task broadcasts through the manager afterwards.
Its entry in the map of peers is there before it asks, so every piece that is completed later
is broadcast to it: at any time each completed piece is known to the connection, or the news of
it are in a channel on the way.
-/
namespace TorrentClient
open TransitionRuns

namespace Client

variable {sha1 : Bytes → Sha1} {s t : Client} {id : ℕ} {c : Connection}

theorem not_completes {e : ManagerEvent} (h : e.passedOn = []) (i : ℕ) : ¬ e.Completes i := by
  rintro ⟨ipc, hipc, -⟩
  rw [h] at hipc
  cases hipc

/-- Events that are no broadcasts come and go. -/
theorem Informs.withEvents (h : s.Informs) {events : List ManagerEvent}
    (hevents : ∀ e, e.passedOn ≠ [] → (e ∈ events ↔ e ∈ s.events)) :
    Informs { s with events } := by
  have hpending : ∀ e i, e.Completes i →
      (e ∈ Client.pending { s with events } ↔ e ∈ s.pending) := by
    intro e i hi
    have hbroadcast : e.passedOn ≠ [] := fun hnone => not_completes hnone i hi
    rw [Client.pending, Client.pending, List.mem_append, List.mem_append, hevents e hbroadcast]
  refine h.requeue rfl rfl rfl h.posted
    (fun e he i hi => h.pending e ((hpending e i hi).mp he) i hi) h.broadcasting ?_
  rintro id c _ _ _ i (hsending | ⟨e, he, hi⟩)
  · exact Or.inr (Or.inl hsending)
  · exact Or.inr (Or.inr ⟨e, (hpending e i hi).mpr he, hi⟩)

/-- A broadcast is going to reach every connection that has its entry. -/
theorem Informs.broadcast (h : s.Informs) {ipc : IPC} {events : List ManagerEvent}
    {order : List (Sigma fun _ : Peer => ℕ)} (hidle : s.broadcasting = none)
    (hqueue : s.events = .broadcast ipc :: events) (horder : order.Perm s.manager.peers.entries) :
    Informs { s with events, broadcasting := some ⟨ipc, order, order, []⟩ } := by
  have hpending : s.pending = .broadcast ipc :: (events ++ s.download.sent.drop s.posted) := by
    rw [Client.pending, hqueue]
    rfl
  refine h.requeue rfl rfl rfl h.posted (fun e he i hi => h.pending e ?_ i hi) ?_ ?_
  · rw [hpending]
    exact List.mem_cons_of_mem _ he
  · intro b hb i hi
    cases hb
    refine h.pending (.broadcast ipc) ?_ i ⟨ipc, List.mem_cons_self, hi⟩
    rw [hpending]
    exact List.mem_cons_self
  · rintro id c _ _ ⟨peer, hpeer⟩ i (⟨b, hb, -⟩ | ⟨e, he, hi⟩)
    · rw [hidle] at hb
      cases hb
    · rw [hpending, List.mem_cons] at he
      rcases he with rfl | he
      · obtain ⟨ipc', hmem, hi⟩ := hi
        obtain rfl := List.mem_singleton.mp hmem
        have hentry : ⟨peer, id⟩ ∈ order :=
          horder.mem_iff.mpr (AList.mem_lookup_iff.mp hpeer)
        exact Or.inr (Or.inl ⟨_, rfl, hi, List.mem_map_of_mem hentry⟩)
      · exact Or.inr (Or.inr ⟨e, he, hi⟩)

/-- The manager goes on to the next entry, once the news have reached the connection of this one
or its loop is over. -/
theorem Informs.advance (h : s.Informs) {b : Broadcasting} {entry : Sigma fun _ : Peer => ℕ}
    {remaining : List (Sigma fun _ : Peer => ℕ)} (hsending : s.broadcasting = some b)
    (hnext : b.remaining = entry :: remaining)
    (hserved : ∀ c, s.connections[entry.2]? = some c → c.stage.informed = true → b.ipc ∈ c.ipcs)
    (lost : List ℕ) :
    Informs { s with broadcasting := some { b with remaining, lost } } := by
  refine h.requeue rfl rfl rfl h.posted h.pending (fun b' hb' i hi => ?_) ?_
  · cases hb'
    exact h.broadcasting b hsending i hi
  · rintro id c hc hinformed _ i (⟨b', hb', hi, hid⟩ | hpending)
    · obtain rfl : b = b' := Option.some.inj (hsending.symm.trans hb')
      rw [hnext, List.map_cons, List.mem_cons] at hid
      rcases hid with rfl | hid
      · exact Or.inl ⟨b.ipc, hserved c hc hinformed, hi⟩
      · exact Or.inr (Or.inl ⟨_, rfl, hi, hid⟩)
    · exact Or.inr (Or.inr hpending)

theorem Informs.finish (h : s.Informs) {b : Broadcasting} (hsending : s.broadcasting = some b)
    (hdone : b.remaining = []) : Informs { s with broadcasting := none } := by
  refine h.requeue rfl rfl rfl h.posted h.pending (fun b' hb' => ?_) ?_
  · cases hb'
  · rintro id c _ _ _ i (⟨b', hb', -, hid⟩ | hpending)
    · obtain rfl : b = b' := Option.some.inj (hsending.symm.trans hb')
      rw [hdone] at hid
      cases hid
    · exact Or.inr (Or.inr hpending)

theorem Informs.post (h : s.Informs) {e : ManagerEvent}
    (hsent : s.download.sent[s.posted]? = some e) :
    Informs { s with events := s.events ++ [e], posted := s.posted + 1 } := by
  obtain ⟨hlt, rfl⟩ := List.getElem?_eq_some_iff.mp hsent
  have hpending : Client.pending { s with
      events := s.events ++ [s.download.sent[s.posted]]
      posted := s.posted + 1 } = s.pending := by
    rw [Client.pending, Client.pending, List.drop_eq_getElem_cons hlt, List.append_assoc]
    rfl
  refine h.requeue rfl rfl rfl hlt (by rw [hpending]; exact h.pending) h.broadcasting ?_
  rintro id c _ _ _ i (hsending | hpend)
  · exact Or.inr (Or.inl hsending)
  · refine Or.inr (Or.inr ?_)
    rw [hpending]
    exact hpend

/-- A connection whose channel keeps its news goes on. -/
theorem Informs.proceed (h : s.Informs) (hc : s.connections[id]? = some c) {stage : Stage}
    {ipcs : List IPC} {writer : List Message} (hold : c.ipcs ⊆ ipcs)
    (hnew : ∀ ipc ∈ ipcs, ipc ∈ c.ipcs ∨ ∀ i, ipc.Completes i → s.download.Has i)
    (hknows : stage.informed = true → c.stage.informed = true ∧
      ∀ hasPieces, c.stage.Knows hasPieces → stage.Knows hasPieces) :
    (s.setConnection id ⟨stage, ipcs, writer⟩).Informs := by
  refine h.setConnection hc (fun ipc hipc i hi => ?_) fun hinformed => ?_
  · rcases hnew ipc hipc with hmem | hnews
    · exact h.ipcs id c hc ipc hmem i hi
    · exact hnews i hi
  · obtain ⟨hbefore, hkeeps⟩ := hknows hinformed
    obtain ⟨hasPieces, htracks⟩ := h.tracked id c hc hbefore
    exact ⟨hasPieces, htracks.progress (hkeeps hasPieces htracks.knows) hold writer⟩

/-- More comes into the channel of a connection. -/
theorem Informs.receive (h : s.Informs) (hc : s.connections[id]? = some c) {ipcs : List IPC}
    (hnews : ∀ ipc ∈ ipcs, ∀ i, ipc.Completes i → s.download.Has i) (writer : List Message) :
    (s.setConnection id ⟨c.stage, c.ipcs ++ ipcs, writer⟩).Informs := by
  refine h.proceed hc (List.subset_append_left _ _) (fun ipc hipc => ?_)
    fun hin => ⟨hin, fun _ hknows => hknows⟩
  rcases List.mem_append.mp hipc with hold | hnew
  · exact Or.inl hold
  · exact Or.inr (hnews ipc hnew)

/-- A handler goes on and leaves the channel as it was. -/
theorem Informs.advanceStage (h : s.Informs) (hc : s.connections[id]? = some c) {stage : Stage}
    {writer : List Message} (hknows : stage.informed = true → c.stage.informed = true ∧
      ∀ hasPieces, c.stage.Knows hasPieces → stage.Knows hasPieces) :
    (s.setConnection id ⟨stage, c.ipcs, writer⟩).Informs :=
  h.proceed hc (List.Subset.refl _) (fun _ => Or.inl) hknows

theorem Moves.informs {a : ClientAction} (hmove : Moves sha1 s a t) (h : s.Informs) :
    t.Informs := by
  cases hmove with
  | outsideSends he =>
    refine h.withEvents fun e hbroadcast => ?_
    rw [List.mem_append, List.mem_singleton, or_iff_left]
    rintro rfl
    exact hbroadcast (passedOn_of_fromOutside he)
  | handles _ hqueue hother handled =>
    refine Informs.afterRound (h.withEvents fun e hbroadcast => ?_)
      (Manager.handleInput_grows handled)
    rw [hqueue, List.mem_cons, or_iff_right]
    rintro rfl
    exact hbroadcast hother
  | broadcasts hidle hqueue horder => exact h.broadcast hidle hqueue horder
  | @reaches b entry remaining c hsending hnext hc hover =>
    have hreached : (s.setConnection entry.2 ⟨c.stage, c.ipcs ++ [b.ipc], c.writer⟩).Informs := by
      refine h.receive hc (fun ipc hipc => ?_) c.writer
      obtain rfl := List.mem_singleton.mp hipc
      exact h.broadcasting b hsending
    refine hreached.advance hsending hnext (fun x hx _ => ?_) b.lost
    have hlt := (List.getElem?_eq_some_iff.mp hc).1
    rw [setConnection, List.getElem?_set_self hlt, Option.some.injEq] at hx
    rw [← hx]
    exact List.mem_append_right _ List.mem_cons_self
  | @misses b entry remaining c hsending hnext hc hover =>
    refine h.advance hsending hnext (fun x hx hinformed => ?_) _
    obtain rfl := Option.some.inj (hc.symm.trans hx)
    rw [Stage.informed_of_over hover] at hinformed
    cases hinformed
  | finishes hsending hdone handled =>
    exact (h.finish hsending hdone).afterRound (Manager.handleInput_grows handled)
  | disconnects _ _ handled =>
    exact (h.withQueues s.toDownload _).afterRound (Manager.handleInput_grows handled)
  | posts hsent => exact h.post hsent
  | @downloadHandles id e toDownload reply download c stage hposted hqueue handled hc hanswer =>
    have hstep : Download.eventStep sha1 s.download e download := ⟨reply, handled⟩
    have hnext :=
      h.announce (hstep.wellFormed h.wellFormed) (hstep.announces h.wellFormed) toDownload
    rcases Stage.answer_cases hanswer with ⟨pieces, rfl, rfl⟩ | ⟨hinformed, hknows⟩
    · obtain rfl := Download.handleEvent_havePieces handled
      exact hnext.setConnection hc (hnext.ipcs id c hc) fun _ =>
        ⟨_, tracks_havePieces _ id c.ipcs c.writer⟩
    · exact hnext.advanceStage hc fun hin => ⟨hinformed.trans hin, hknows⟩
  | @requires id c hc hstage =>
    have hasked := h.withQueues (s.toDownload ++ [(id, .requireHavePieces)]) s.disconnects
    refine hasked.advanceStage hc fun hin => ?_
    cases hin
  | @connects id c havePieces hc hstage =>
    refine h.advanceStage hc fun _ => ?_
    rw [hstage]
    refine ⟨rfl, fun hasPieces hknows => ?_⟩
    cases hknows
    exact .greet havePieces
  | fails hc hstage =>
    refine h.advanceStage hc fun hin => ?_
    cases hin
  | peerSends hc hstage =>
    refine h.receive hc (fun ipc hipc i hi => ?_) _
    obtain rfl := List.mem_singleton.mp hipc
    exact hi.elim
  | @takes id c conn ipc ipcs hc hstage hipcs =>
    have hnews := h.ipcs id c hc
    rw [hipcs] at hnews
    refine h.setConnection hc (fun ipc' hmem => ?_) fun _ => ?_
    · exact hnews ipc' (List.mem_cons_of_mem _ hmem)
    · have hinformed : c.stage.informed = true := by
        rw [hstage]
        rfl
      obtain ⟨hasPieces, htracks⟩ := h.tracked id c hc hinformed
      have hknows := htracks.knows
      rw [hstage] at hknows
      cases hknows
      exact ⟨_, htracks.take hipcs (hnews ipc List.mem_cons_self) c.writer⟩
  | @calls id choice c e next phase messages events hc hstage hperform =>
    have hcalled := h.withQueues (s.toDownload ++ events.map (id, ·)) s.disconnects
    refine hcalled.advanceStage hc fun _ => ?_
    rw [hstage]
    exact ⟨rfl, fun _ hknows => hknows.perform hperform⟩
  | returns hc hstage =>
    refine h.advanceStage hc fun _ => ?_
    rw [hstage]
    exact ⟨rfl, fun _ hknows => hknows.returned⟩
  | stops hc hstage =>
    refine h.advanceStage hc fun hin => ?_
    cases hin
  | panics hc hstage =>
    refine h.advanceStage hc fun hin => ?_
    cases hin
  | closes hc hstage =>
    refine h.advanceStage hc fun hin => ?_
    cases hin
  | @notifies id c sendHandshakeFirst peer hc hstage hpeer =>
    have hsent := h.withQueues s.toDownload (s.disconnects ++ [peer])
    refine hsent.advanceStage hc fun hin => ?_
    cases hin
  | @writes id c m writer hc hwriter =>
    refine h.receive hc (fun ipc hipc i hi => ?_) writer
    cases m with
    | piece =>
      obtain rfl := List.mem_singleton.mp hipc
      exact hi.elim
    | _ => cases hipc

private theorem eq_of_true_iff {xs ys : List Bool} (hlength : xs.length = ys.length)
    (h : ∀ i : ℕ, xs[i]? = some true ↔ ys[i]? = some true) : xs = ys := by
  refine List.ext_getElem hlength fun i hi hj => ?_
  have hiff := h i
  rw [List.getElem?_eq_getElem hi, List.getElem?_eq_getElem hj, Option.some.injEq,
    Option.some.injEq] at hiff
  exact Bool.eq_iff_iff.mpr hiff

theorem informs_start {disk : String → Bytes} {metaInfo : TorrentMetaInfo} {d₀ : Download}
    (hstart : Download.start disk metaInfo = .ok d₀) (filePaths : List String) :
    (start (Manager.new metaInfo filePaths) d₀).Informs := by
  have hnone : (start (Manager.new metaInfo filePaths) d₀).pending = [] := by
    simp [pending, start]
  refine ⟨(Download.start_spec hstart).1, Nat.le_refl _, rfl, ?_, ?_, ?_, ?_, ?_⟩
  · rintro id ⟨peer, hpeer⟩
    cases hpeer
  · intro e he
    rw [hnone] at he
    cases he
  · intro b hb
    cases hb
  · intro id c hc
    cases hc
  · intro id c hc
    cases hc

/-- Where nothing is on its way, what a connection knows are the completed pieces. -/
theorem Tracks.eq_havePieces {hasPieces : List Bool} (h : s.Tracks id c hasPieces)
    (hc : s.connections[id]? = some c) (hquiet : s.Quiet) (hentry : s.Registered id) :
    hasPieces = s.download.havePieces := by
  have hpending : s.pending = [] := by
    rw [pending, hquiet.events, List.drop_of_length_le hquiet.posted]
    rfl
  refine eq_of_true_iff (h.length.trans (List.length_map _).symm) fun i => ?_
  refine ⟨h.sound i, fun hi => ?_⟩
  rcases h.complete hentry i hi with hknown | ⟨ipc, hipc, -⟩ | ⟨b, hb, -⟩ | ⟨e, he, -⟩
  · exact hknown
  · rw [hquiet.ipcs id c hc h.knows.isOver_eq_false] at hipc
    cases hipc
  · rw [hquiet.broadcasting] at hb
    cases hb
  · rw [hpending] at he
    cases he

/-- In every state in which nothing is on its way, every connection that has its entry in the
map of peers knows of the completed pieces and of no other. In the middle of a handler these are
the pieces it goes on with afterwards. -/
theorem connections_miss_no_piece {disk : String → Bytes} {metaInfo : TorrentMetaInfo}
    {d₀ : Download} (hstart : Download.start disk metaInfo = .ok d₀) {filePaths : List String}
    (hreach : Reachable (Moves sha1) (start (Manager.new metaInfo filePaths) d₀) s)
    (hquiet : s.Quiet) {peer : Peer} (hentry : s.manager.peers.lookup peer = some id) :
    ∃ c, s.connections[id]? = some c ∧
      (∀ hasPieces, c.stage.hasPieces = some hasPieces → hasPieces = s.download.havePieces) ∧
      (c.stage.informed = true → c.stage.Knows s.download.havePieces) := by
  have h : s.Informs :=
    hreach.invariant (informs_start hstart filePaths) fun _ _ _ hs hmove => hmove.informs hs
  have hid := h.entries id ⟨peer, hentry⟩
  rw [← h.length_connections] at hid
  have hc := List.getElem?_eq_getElem hid
  have hknows : s.connections[id].stage.informed = true →
      s.connections[id].stage.Knows s.download.havePieces := by
    intro hinformed
    obtain ⟨hasPieces, htracks⟩ := h.tracked id _ hc hinformed
    have heq := htracks.eq_havePieces hc hquiet ⟨peer, hentry⟩
    rw [← heq]
    exact htracks.knows
  refine ⟨_, hc, fun hasPieces hhas => ?_, hknows⟩
  exact (hknows (Stage.informed_of_hasPieces hhas)).of_hasPieces hhas

/-- A block comes from the first peer when the second connection has its answer. -/
def storedNewsActions : List ClientAction :=
  startActions ⟨"10.0.0.1", 6881⟩ 0 ++ greetActions 0 ++ startActions ⟨"10.0.0.2", 6881⟩ 1 ++
  [.peerSends 0 (.piece 0 0 [7])] ++ handleActions 0 1 ++ [.downloadHandles]

/-- The news reach both connections, and the second one greets its peer. -/
def spreadNewsActions : List ClientAction :=
  [.downloadPosts, .managerHandles] ++
  (List.replicate 3 (broadcastActions
    [⟨⟨"10.0.0.1", 6881⟩, 0⟩, ⟨⟨"10.0.0.2", 6881⟩, 1⟩])).flatten ++
  greetActions 1 ++ handleActions 0 0 ++ handleActions 0 1 ++ handleActions 0 0 ++
  handleActions 1 0 ++ handleActions 1 1 ++ handleActions 1 0

/-- The piece is completed between the answer of the download task and the greeting. -/
theorem connections_miss_no_piece_between : ∃ s t c,
    Reachable (Moves fun _ => Sha1.replicate 0)
      (start (Manager.new Download.oneBlockTorrent ["downloads/f.temp"]) Download.oneBlockDownload)
      s ∧
    s.connections[1]?.bind (·.stage.hasPieces) = some [false] ∧ s.download.havePieces = [true] ∧
    Reachable (Moves fun _ => Sha1.replicate 0) s t ∧ t.connections[1]? = some c ∧
    c.stage.hasPieces = some t.download.havePieces := by
  have hacts : (storedNewsActions.foldlM (act fun _ => Sha1.replicate 0) (start
      (Manager.new Download.oneBlockTorrent ["downloads/f.temp"]) Download.oneBlockDownload)).any
      (fun s => decide (s.connections[1]?.bind (·.stage.hasPieces) = some [false] ∧
        s.download.havePieces = [true]) &&
        (spreadNewsActions.foldlM (act fun _ => Sha1.replicate 0) s).any fun t =>
          decide (t.Quiet ∧ t.manager.peers.lookup ⟨"10.0.0.2", 6881⟩ = some 1 ∧
            (t.connections[1]?.bind (·.stage.hasPieces)).isSome)) = true := by
    decide +kernel
  obtain ⟨s, hs, hboth⟩ := (Option.any_eq_true _ _).mp hacts
  obtain ⟨hbefore, hafter⟩ := (Bool.and_eq_true _ _).mp hboth
  obtain ⟨t, ht, hend⟩ := (Option.any_eq_true _ _).mp hafter
  obtain ⟨hanswer, hpieces⟩ := of_decide_eq_true hbefore
  obtain ⟨hquiet, hentry, hsome⟩ := of_decide_eq_true hend
  obtain ⟨trace, run, -⟩ := run_of_acts hs
  obtain ⟨trace', run', -⟩ := run_of_acts ht
  obtain ⟨c, hc, hknown, -⟩ := connections_miss_no_piece Download.start_oneBlockTorrent
    (Reachable.trans ⟨trace, run⟩ ⟨trace', run'⟩) hquiet hentry
  rw [hc] at hsome
  obtain ⟨hasPieces, hhas⟩ := Option.isSome_iff_exists.mp hsome
  have heq := hknown _ hhas
  rw [heq] at hhas
  exact ⟨s, t, c, ⟨trace, run⟩, hanswer, hpieces, ⟨trace', run'⟩, hc, hhas⟩

end Client
end TorrentClient
