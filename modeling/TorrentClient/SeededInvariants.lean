import TorrentClient.SeededLedger

/-!
# Runs of a download from a seeder

A state that a run reaches meets `Sound`: no block is lost, what is on its way is honest and
accounted for, the pipeline of requests is full where it can be, and what the seeder has said is
known to the connection or on its way to it.
-/
namespace TorrentClient
open EffectPrograms TransitionRuns ListRanges
open PeerConnection

namespace SeededDownload

variable {sha1 : Bytes → Sha1} {d₀ : Download} {content : Bytes} {s t : SeededDownload}
  {a : SeededAction}

/-- The connection has been told, or a message tells so that has not come to it. -/
def Told (s : SeededDownload) (tells : Message → Prop) (post : PeerConnection → Prop) : Prop :=
  (∃ m ∈ s.greeting, tells m) ∨ (∃ m, .message m ∈ s.link.ipcs ∧ tells m) ∨ s.link.phase.Will post

/-- The files are what correct messages have made of them. -/
def Assembling (d₀ : Download) (content : Bytes) (d : Download) : Prop :=
  ∃ messages, (∀ m ∈ messages, Download.CorrectMessage d₀ content m) ∧
    Download.Assembled d₀ content messages d

structure Sound (sha1 : Bytes → Sha1) (d₀ : Download) (content : Bytes) (s : SeededDownload) :
    Prop where
  owned : ConnectedDownload.Owned sha1 d₀ s.link
  honest : Honest d₀ content s
  ledger : Ledger s
  assembled : Assembling d₀ content s.link.download
  pipelined : s.link.phase.Will fun conn => Requesting conn ∧ Pipelined conn
  unchoked : s.Told (· = .unChoke) fun conn => conn.me.isChoked = false
  known : ∀ i < d₀.pieces.length,
    s.Told (Message.Announces i) fun conn => conn.he.hasPieces[i]? = some true

theorem sound_start (hd₀ : Download.Continues d₀ d₀) (hsent : d₀.sent = [])
    (hfresh : ∀ (i : ℕ) piece, d₀.pieces[i]? = some piece → piece.isCompleted = false)
    {greeting : List Message} (hgreeting : Greeting d₀.pieces.length greeting) :
    Sound sha1 d₀ content (start d₀ greeting) where
  owned := ConnectedDownload.owned_start hd₀
  honest := honest_start hsent hgreeting.greets
  ledger := ledger_start hsent
  assembled := ⟨[], fun _ => nofun, Download.assembled_nil hd₀.wellFormed hfresh⟩
  pipelined := ⟨new_requesting _, new_pipelined _⟩
  unchoked := Or.inl ⟨_, hgreeting.unchokes, rfl⟩
  known := fun i hi => Or.inl (hgreeting.announces i hi)

/-- A block that is the only one of its piece and carries the content has the right hash. -/
theorem hash_eq_of_carries (htorrent : Download.TorrentOf sha1 d₀ content)
    (hd₀ : d₀.WellFormed) {d : Download} (hd : Download.Continues d₀ d) {p offset : UInt32}
    {data : Bytes} (hm : (Message.piece p offset data).Carries d₀ content) {piece : Piece}
    (hp : d.pieces[p.toNat]? = some piece) (hone : piece.blocks.length = 1) :
    piece.hash = sha1 data := by
  obtain ⟨p', offset', data', heq, piece₀, block₀, hp₀, hb₀, -, hdata⟩ := hm
  cases heq
  obtain ⟨piece', hp', hoffset, hlength, hhash, hshapes⟩ :=
    hd₀.same_piece hd.wellFormed hd.metaInfo_eq hd.length_eq hp₀
  obtain rfl := Option.some.inj (hp.symm.trans hp')
  have hcount := congrArg List.length hshapes
  rw [List.length_map, List.length_map, hone] at hcount
  obtain ⟨hindex, hwhole⟩ := (hd₀.shape _ piece₀ hp₀).single_block hcount.symm hb₀
  rw [hhash, htorrent.hash_eq hd₀ hp₀]
  replace hdata : data = _ := hdata
  rw [hdata, hindex, Nat.zero_mul, Nat.add_zero, hwhole]

/-- No block of a seeder is lost. -/
theorem Honest.not_losesBlock (htorrent : Download.TorrentOf sha1 d₀ content)
    (hd₀ : d₀.WellFormed) (hd : Download.Continues d₀ s.link.download)
    (h : Honest d₀ content s) {b : Action} : ¬ ConnectedDownload.LosesBlock sha1 s.link b := by
  rintro ⟨-, conn, p, offset, data, ipcs, piece, -, hipcs, -, -, hp, -, hone, hbad, -⟩
  have hipc := h.ipcs _ (by rw [hipcs]; exact List.mem_cons_self)
  rcases hipc with hgreets | hcarries
  · cases hgreets
  · exact hbad (hash_eq_of_carries htorrent hd₀ hd hcarries hp hone)

/-- The download task handles what the connection hands to it. -/
theorem handle_expected (htorrent : Download.TorrentOf sha1 d₀ content) (hd₀ : d₀.WellFormed)
    {d : Download} (hd : Download.Continues d₀ d)
    (ha : Assembling d₀ content d) {event : ManagerEvent} (hevent : d₀.Expects content event) :
    ∃ d', Download.eventStep sha1 d event d' ∧ Assembling d₀ content d' := by
  obtain ⟨messages, hcorrects, ha⟩ := ha
  cases event with
  | download m =>
    obtain ⟨p, offset, data, rfl, hcorrect⟩ := hevent
    obtain ⟨d', hstep, ha'⟩ := htorrent.handle_correct hd₀ ha hcorrect
    have hall := List.forall_mem_append.mpr ⟨hcorrects, List.forall_mem_singleton.mpr hcorrect⟩
    exact ⟨d', hstep, _, hall, ha'⟩
  | requireIncompleteBlocks p =>
    have hlt : p.toNat < d.pieces.length := by
      rw [length_pieces_eq hd₀ hd]
      exact hevent
    obtain ⟨d', hstep⟩ : ∃ d', Download.eventStep sha1 d (.requireIncompleteBlocks p) d' :=
      (Download.eventStep_iff hd.wellFormed (.requireIncompleteBlocks p)).mpr hlt
    rcases hstep.piece_or_eq with ⟨q, offset, data, heq, -⟩ | ⟨-, rfl⟩
    · cases heq
    · exact ⟨d', hstep, messages, hcorrects, ha⟩
  | _ => cases hevent

/-- What came to the connection is there until it is taken. -/
theorem mem_ipcs_of_move {link link' : ConnectedDownload} {b : Action}
    (hmove : ConnectedDownload.Move sha1 link b link') (hother : b ≠ .connectionTakes) {ipc : IPC}
    (h : ipc ∈ link.ipcs) : ipc ∈ link'.ipcs := by
  cases hmove with
  | takes => exact absurd rfl hother
  | peerSends => exact List.mem_append_left _ h
  | delivers => exact List.mem_append_left _ h
  | writes => exact List.mem_append_left _ h
  | _ => exact h

/-- What the connection was told stays known, if the handlers keep it. -/
theorem Told.of_moves {tells : Message → Prop} {post : PeerConnection → Prop}
    (h : s.Told tells post) (hmove : Moves sha1 content s a t)
    (hkeeps : ∀ ipc conn, s.link.phase = .idle conn → ipc ∈ s.link.ipcs →
      (post conn ∨ ∃ m, ipc = .message m ∧ tells m) →
      Phase.Will post (.running (handleIpc ipc conn))) : t.Told tells post := by
  cases hmove with
  | @greets m greeting hgreeting hm =>
    rcases h with ⟨m', hmem, htells⟩ | ⟨m', hmem, htells⟩ | hwill
    · rw [hgreeting] at hmem
      rcases List.mem_cons.mp hmem with rfl | hmem
      · exact Or.inr (Or.inl ⟨m', List.mem_append_right _ List.mem_cons_self, htells⟩)
      · exact Or.inl ⟨m', hmem, htells⟩
    · exact Or.inr (Or.inl ⟨m', List.mem_append_left _ hmem, htells⟩)
    · exact Or.inr (Or.inr hwill)
  | answers hpending hm =>
    rcases h with hgreeting | ⟨m', hmem, htells⟩ | hwill
    · exact Or.inl hgreeting
    · exact Or.inr (Or.inl ⟨m', List.mem_append_left _ hmem, htells⟩)
    · exact Or.inr (Or.inr hwill)
  | @client b link hown hmove =>
    by_cases htakes : b = .connectionTakes
    · subst htakes
      cases hmove with
      | @takes conn ipc ipcs hphase hipcs =>
        have hhead : ipc ∈ s.link.ipcs := by
          rw [hipcs]
          exact List.mem_cons_self
        have hhandled := hkeeps ipc conn hphase hhead
        rcases h with hgreeting | ⟨m', hmem, htells⟩ | hwill
        · exact Or.inl hgreeting
        · rw [hipcs] at hmem
          rcases List.mem_cons.mp hmem with rfl | hmem
          · exact Or.inr (Or.inr (hhandled (Or.inr ⟨m', rfl, htells⟩)))
          · exact Or.inr (Or.inl ⟨m', hmem, htells⟩)
        · rw [hphase] at hwill
          exact Or.inr (Or.inr (hhandled (Or.inl hwill)))
    · rcases h with hgreeting | ⟨m', hmem, htells⟩ | hwill
      · exact Or.inl hgreeting
      · exact Or.inr (Or.inl ⟨m', mem_ipcs_of_move hmove htakes hmem, htells⟩)
      · exact Or.inr (Or.inr (hwill.of_move hmove htakes))

/-- The pipeline of an idle connection stays full when it takes the next event. -/
theorem Ledger.pipelined (h : Ledger s) {conn : PeerConnection} {ipc : IPC}
    (hphase : s.link.phase = .idle conn) (hipc : ipc ∈ s.link.ipcs) (hs : Requesting conn)
    (hp : Pipelined conn) :
    Phase.Will (fun t => Requesting t ∧ Pipelined t) (.running (handleIpc ipc conn)) := by
  by_cases hblock : ∃ p b, ipc = .blockCompleted p b
  · obtain ⟨p, b, rfl⟩ := hblock
    have hnot := h.not_has hphase (Or.inr (Or.inr hipc))
    apply Task.wp_mono Program.anyReply_mono (blockCompleted_pipelined hs hp p b)
    rintro _ t ⟨ht, hiff⟩
    refine ⟨ht, hiff.mpr ?_⟩
    rintro ⟨p', b', heq, -, -, hhas, -⟩
    cases heq
    rw [hnot] at hhas
    cases hhas
  · exact handleIpc_pipelined hs hp fun p b heq => hblock ⟨p, b, heq⟩

/-- Every move keeps the invariant. -/
theorem Sound.step (htorrent : Download.TorrentOf sha1 d₀ content) (hd₀ : d₀.WellFormed)
    (hn : d₀.pieces.length ≤ 2 ^ 32) (h : Sound sha1 d₀ content s)
    (hstep : actStep sha1 content s a t) : Sound sha1 d₀ content t := by
  have hmove := hstep.moves
  obtain ⟨b, hb⟩ := hstep.link
  have hlost : ¬ ConnectedDownload.LosesBlock sha1 s.link b :=
    h.honest.not_losesBlock htorrent hd₀ h.owned.continues
  refine ⟨h.owned.step hd₀ hlost hb, h.honest.step hd₀ hn h.owned hmove,
    h.ledger.step h.owned h.honest hmove, ?_, ?_, ?_, fun i hi => ?_⟩
  · cases hmove with
    | greets => exact h.assembled
    | answers => exact h.assembled
    | client hown hmove =>
      cases hmove with
      | @handles event events reply download phase hqueue hevent hanswer =>
        have hexpected := h.honest.toDownload event (by rw [hqueue]; exact List.mem_cons_self)
        obtain ⟨d', hd', ha⟩ :=
          handle_expected htorrent hd₀ h.owned.continues h.assembled hexpected
        obtain ⟨reply', hreply⟩ := hd'
        rw [hevent] at hreply
        cases hreply
        exact ha
      | _ => exact h.assembled
  · cases hmove with
    | greets => exact h.pipelined
    | answers => exact h.pipelined
    | @client b link hown hmove =>
      by_cases htakes : b = .connectionTakes
      · subst htakes
        have hpipelined := h.pipelined
        cases hmove with
        | @takes conn ipc ipcs hphase hipcs =>
          rw [hphase] at hpipelined
          refine h.ledger.pipelined hphase ?_ hpipelined.1 hpipelined.2
          rw [hipcs]
          exact List.mem_cons_self
      · exact h.pipelined.of_move hmove htakes
  · refine h.unchoked.of_moves hmove fun ipc conn hphase hipc htold => ?_
    refine handleIpc_unchoked (h.honest.ipcs ipc hipc) (htold.imp id ?_)
    rintro ⟨m, rfl, rfl⟩
    rfl
  · refine (h.known i hi).of_moves hmove fun ipc conn hphase hipc htold => ?_
    have hready := h.honest.served
    rw [hphase] at hready
    exact handleIpc_knows (h.honest.ipcs ipc hipc) hready hi htold

/-- Every state of a run meets the invariant. -/
theorem sound_of_run (htorrent : Download.TorrentOf sha1 d₀ content)
    (hd₀ : Download.Continues d₀ d₀) (hn : d₀.pieces.length ≤ 2 ^ 32) (hsent : d₀.sent = [])
    (hfresh : ∀ (i : ℕ) piece, d₀.pieces[i]? = some piece → piece.isCompleted = false)
    {greeting : List Message} (hgreeting : Greeting d₀.pieces.length greeting)
    {trace : List (Step SeededDownload SeededAction)}
    (run : Run (actStep sha1 content) (start d₀ greeting) trace s) : Sound sha1 d₀ content s :=
  run.invariant (sound_start hd₀ hsent hfresh hgreeting)
    fun _ _ _ h hstep => h.step htorrent hd₀.wellFormed hn hstep

end SeededDownload
end TorrentClient
