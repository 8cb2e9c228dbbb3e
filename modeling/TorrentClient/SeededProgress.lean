import TorrentClient.SeededInvariants

/-!
# A download from a seeder that has come to rest

While something is on its way, or the connection has work, there is a move. Where no move is left
nothing is on its way, and then every piece is complete: a block that the download still reports
would be requested.
-/
namespace TorrentClient
open EffectPrograms TransitionRuns ListRanges
open PeerConnection

namespace SeededDownload

variable {sha1 : Bytes → Sha1} {d₀ : Download} {content : Bytes} {s t : SeededDownload}

/-- Nobody can make a move. -/
def Resting (sha1 : Bytes → Sha1) (content : Bytes) (s : SeededDownload) : Prop :=
  ∀ a t, ¬ actStep sha1 content s a t

theorem Resting.client (h : Resting sha1 content s) {a : Action} (hown : ∀ m, a ≠ .peerSends m) :
    ConnectedDownload.act sha1 s.link a = none := by
  cases hact : ConnectedDownload.act sha1 s.link a with
  | none => rfl
  | some link => exact absurd (actStep_client hown hact) (h _ _)

theorem Resting.greeting (h : Resting sha1 content s) (hs : Honest d₀ content s) :
    s.greeting = [] := by
  cases hgreeting : s.greeting with
  | nil => rfl
  | cons m greeting =>
    have hm := hs.greeting m (by rw [hgreeting]; exact List.mem_cons_self)
    exact absurd (actStep_greets hgreeting (carriesBlocks_of_greets hm)) (h _ _)

theorem Resting.pending (h : Resting sha1 content s) (hd₀ : d₀.WellFormed)
    (hlength : content.length = d₀.content.length)
    (hd : Download.Continues d₀ s.link.download) (hs : Honest d₀ content s) : s.pending = [] := by
  cases hpending : s.pending with
  | nil => rfl
  | cons r pending =>
    have hr := hs.pending r (by rw [hpending]; exact List.mem_cons_self)
    have hm := carriesBlocks_of_carries hd₀ hlength hd (carries_answer hd₀ hd.metaInfo_eq hr)
    exact absurd (actStep_answers (i := 0) (by rw [hpending]; rfl) hm) (h _ _)

theorem Resting.writer (h : Resting sha1 content s) : s.link.writer = [] := by
  have hnone := h.client (a := .writerWrites) nofun
  rw [ConnectedDownload.act] at hnone
  split at hnone
  · assumption
  · cases hnone

theorem Resting.delivered (h : Resting sha1 content s) :
    s.link.download.sent.length ≤ s.link.delivered := by
  have hnone := h.client (a := .managerDelivers) nofun
  rw [ConnectedDownload.act] at hnone
  split at hnone
  · cases hnone
  · rename_i hsent
    exact List.getElem?_eq_none_iff.mp hsent

/-- The download task has handled all that was handed to it. -/
theorem Resting.toDownload (h : Resting sha1 content s)
    (htorrent : Download.TorrentOf sha1 d₀ content) (hd₀ : d₀.WellFormed)
    (hs : Sound sha1 d₀ content s) : s.link.toDownload = [] := by
  cases hqueue : s.link.toDownload with
  | nil => rfl
  | cons event events =>
    have hexpected := hs.honest.toDownload event (by rw [hqueue]; exact List.mem_cons_self)
    obtain ⟨d', ⟨reply, hreply⟩, -⟩ :=
      handle_expected htorrent hd₀ hs.owned.continues hs.assembled hexpected
    obtain ⟨phase, hphase⟩ : ∃ phase, s.link.phase.answer reply = some phase := by
      have hpaired := hs.owned.paired
      rw [hqueue] at hpaired
      cases Download.handleEvent_reply hreply with
      | silent => exact ⟨_, Phase.answer_none _⟩
      | data => cases hexpected
      | havePieces => cases hexpected
      | blocks =>
        cases hwaits : s.link.phase with
        | awaitingBlocks p next => exact ⟨_, rfl⟩
        | awaitingData request next =>
          rw [hwaits] at hpaired
          cases (List.cons.inj hpaired).1
        | _ =>
          rw [hwaits] at hpaired
          cases hpaired
    have hnone := h.client (a := .downloadHandles) nofun
    simp only [ConnectedDownload.act, hqueue, hreply, hphase] at hnone
    cases hnone

/-- The connection waits for the next event. -/
theorem Resting.phase (h : Resting sha1 content s) (hs : Sound sha1 d₀ content s)
    (htoDownload : s.link.toDownload = []) : ∃ conn, s.link.phase = .idle conn := by
  have hserved := hs.honest.served
  have hpaired := hs.owned.paired
  rw [htoDownload] at hpaired
  have hreturns := h.client (a := .connectionReturns) nofun
  have hcalls := h.client (a := .connectionCalls 0) nofun
  cases hphase : s.link.phase with
  | idle conn => exact ⟨conn, rfl⟩
  | running rest =>
    cases rest with
    | done r =>
      cases r with
      | ok r => simp [ConnectedDownload.act, hphase] at hreturns
      | error e => simp [ConnectedDownload.act, hphase] at hreturns
    | call e next =>
      cases e with
      | _ => simp [ConnectedDownload.act, hphase, PeerConnection.perform] at hcalls
  | awaitingBlocks p next =>
    rw [hphase] at hpaired
    cases hpaired
  | awaitingData request next =>
    rw [hphase] at hserved
    cases hserved
  | ended =>
    rw [hphase] at hserved
    cases hserved

/-- At rest nothing is on its way. -/
theorem Resting.quiescent (h : Resting sha1 content s)
    (htorrent : Download.TorrentOf sha1 d₀ content) (hd₀ : d₀.WellFormed)
    (hs : Sound sha1 d₀ content s) : ∃ conn, s.link.Quiescent conn := by
  have htoDownload := h.toDownload htorrent hd₀ hs
  obtain ⟨conn, hphase⟩ := h.phase hs htoDownload
  refine ⟨conn, hphase, ?_, htoDownload, h.writer, h.delivered⟩
  cases hipcs : s.link.ipcs with
  | nil => rfl
  | cons ipc ipcs =>
    have htakes := h.client (a := .connectionTakes) nofun
    simp [ConnectedDownload.act, hphase, hipcs] at htakes

/-- What the seeder was going to tell is known at rest. -/
theorem Told.resting {tells : Message → Prop} {post : PeerConnection → Prop}
    (h : s.Told tells post) (hgreeting : s.greeting = []) {conn : PeerConnection}
    (hquiet : s.link.Quiescent conn) : post conn := by
  rcases h with ⟨m, hmem, -⟩ | ⟨m, hmem, -⟩ | hwill
  · rw [hgreeting] at hmem
    cases hmem
  · rw [hquiet.ipcs] at hmem
    cases hmem
  · rw [hquiet.phase] at hwill
    exact hwill

/-- At rest no block is asked for. -/
theorem Resting.not_asksFor (h : Resting sha1 content s)
    (htorrent : Download.TorrentOf sha1 d₀ content) (hd₀ : d₀.WellFormed)
    (hs : Sound sha1 d₀ content s) {conn : PeerConnection} (hquiet : s.link.Quiescent conn)
    {p b : UInt32} : ¬ conn.AsksFor p b := by
  obtain ⟨q, hq, hkeys⟩ := hs.ledger.queue
  have hpipelined := hs.pipelined
  rw [hquiet.phase] at hq hpipelined
  obtain ⟨-, rfl⟩ := hq
  have hpending := h.pending hd₀ htorrent.length_eq hs.owned.continues hs.honest
  have hnone : conn.me.requests.keys = [] := by
    rw [awaited, hquiet.writer, hquiet.ipcs, hpending] at hkeys
    exact hkeys.eq_nil
  obtain ⟨hrequesting, hfull⟩ := hpipelined
  rintro (hwaits | hhas)
  · have hne : conn.toRequest.keys ≠ [] := List.ne_nil_of_mem hwaits
    have hlen := hfull (hs.unchoked.resting (h.greeting hs.honest) hquiet)
      (hrequesting.interested (Or.inl hne)) hne
    have hempty : conn.me.requests.len = 0 := by
      rw [RequestQueue.len, ← List.length_map, ← RequestQueue.keys, hnone]
      rfl
    rw [hempty] at hlen
    cases hlen
  · rw [RequestQueue.has_iff_mem_keys, hnone] at hhas
    cases hhas

/-- A piece has a block. -/
theorem exists_mem_blocks (htorrent : Download.TorrentOf sha1 d₀ content) {d : Download}
    (hd : Download.Continues d₀ d) {i : ℕ} {piece : Piece} (hp : d.pieces[i]? = some piece) :
    ∃ block, block ∈ piece.blocks := by
  have hshape := hd.wellFormed.shape i piece hp
  have hgeometry := hd.wellFormed.geometry
  have hpieceLength := htorrent.pieceLength_lt
  rw [← hd.metaInfo_eq] at hpieceLength
  have hpos : 0 < piece.length.toNat := by
    have hlength := hgeometry.pieceLength_pos hshape.index_lt
    have hstart := hgeometry.start_lt hshape.index_lt
    rw [hshape.length_eq_span hgeometry hpieceLength, pieceSpan]
    split_ifs <;> omega
  obtain ⟨block, hb, -⟩ := hshape.exists_block hpos
  exact ⟨block, List.mem_of_getElem? hb⟩

/-- At rest every piece is complete. -/
theorem Resting.isComplete (h : Resting sha1 content s)
    (htorrent : Download.TorrentOf sha1 d₀ content) (hd₀ : d₀.WellFormed)
    (hn : d₀.pieces.length ≤ 2 ^ 32) (hs : Sound sha1 d₀ content s) :
    s.link.download.isComplete = true := by
  obtain ⟨conn, hquiet⟩ := h.quiescent htorrent hd₀ hs
  have hd := hs.owned.continues
  have hlength := length_pieces_eq hd₀ hd
  rw [Download.isComplete, List.all_eq_true]
  intro piece hmem
  obtain ⟨i, hi, rfl⟩ := List.mem_iff_getElem.mp hmem
  have hpiece := List.getElem?_eq_getElem hi
  cases hc : s.link.download.pieces[i].isCompleted with
  | true => rfl
  | false =>
    obtain ⟨block, hblock⟩ := exists_mem_blocks htorrent hd hpiece
    have hindex : (UInt32.ofNat i).toNat = i := by
      rw [UInt32.toNat_ofNat', Nat.mod_eq_of_lt (by omega)]
    have hreported : s.link.download.Reported (UInt32.ofNat i) block.index := by
      rw [Download.reported_iff, hindex]
      exact ⟨_, hpiece, hc, block, hblock, hd.wellFormed.unstarted i _ hpiece hc block hblock, rfl⟩
    have hknown : conn.he.hasPieces[i]? = some true :=
      (hs.known i (by omega)).resting (h.greeting hs.honest) hquiet
    have hasks := hs.owned.noBlockLost conn hquiet _ _ hreported (by rw [hindex]; exact hknown)
    exact absurd hasks (h.not_asksFor htorrent hd₀ hs hquiet)

/-- One block of each piece is that of the content, and the others are as they were. -/
def KeepsOneBlock (d₀ : Download) (content : Bytes) (d : Download) : Prop :=
  ∀ (i : ℕ) piece, d₀.pieces[i]? = some piece → ∃ j block, piece.blocks[j]? = some block ∧
    ∀ (k : ℕ) block, piece.blocks[k]? = some block →
      slice d.content (piece.offset + k * blockSize) block.length.toNat =
        slice (if k = j then content else d₀.content) (piece.offset + k * blockSize)
          block.length.toNat

/-- Of a complete piece the first block that arrived is there. -/
theorem Assembling.keepsOneBlock {d : Download} (h : Assembling d₀ content d)
    (hd₀ : d₀.WellFormed) (hcomplete : d.isComplete = true) : KeepsOneBlock d₀ content d := by
  obtain ⟨messages, hcorrects, ha⟩ := h
  intro i piece₀ hp₀
  obtain ⟨piece, hp, hoffset, -, -, hshapes⟩ := ha.piece_of_start hd₀ hp₀
  have hc := List.all_eq_true.mp hcomplete piece (List.mem_of_getElem? hp)
  rw [ha.completed i piece hp, PieceMessage.firstBlock, Option.isSome_map] at hc
  obtain ⟨m, hfind⟩ := Option.isSome_iff_exists.mp hc
  have hfirst : PieceMessage.firstBlock messages i = some m.blockIndex := by
    rw [PieceMessage.firstBlock, hfind, Option.map_some]
  have hfound := List.find?_some hfind
  have hindex : m.pieceIndex.toNat = i := of_decide_eq_true hfound
  obtain ⟨piece', block', hp', hb', -⟩ := hcorrects m (List.mem_of_find?_eq_some hfind)
  rw [hindex] at hp'
  obtain rfl := Option.some.inj (hp₀.symm.trans hp')
  refine ⟨m.blockIndex, block', hb', fun k block₀ hb₀ => ?_⟩
  obtain ⟨block, hb, hlength⟩ := Download.exists_block_of_shapes hshapes hb₀
  have hbytes := ha.blocks i piece k block hp hb
  rw [Download.blockBytes, hfirst, hoffset, hlength] at hbytes
  rw [hbytes]
  by_cases hk : k = m.blockIndex
  · rw [if_pos hk, if_pos (congrArg some hk.symm)]
  · rw [if_neg hk, if_neg fun heq => hk (Option.some.inj heq).symm]

/-- With one block for each piece that is the content. -/
theorem KeepsOneBlock.content_eq {d : Download} (h : KeepsOneBlock d₀ content d)
    (htorrent : Download.TorrentOf sha1 d₀ content) (hd₀ : d₀.WellFormed)
    (hd : Download.Continues d₀ d) (hone : ∀ piece ∈ d₀.pieces, piece.blocks.length = 1) :
    d.content = content := by
  refine htorrent.ext_blocks hd₀ (hd.length_eq.trans htorrent.length_eq.symm) ?_
  intro i piece k block hp hb
  obtain ⟨j, block', hb', hbytes⟩ := h i piece hp
  have hshape := hd₀.shape i piece hp
  have hsingle := hone piece (List.mem_of_getElem? hp)
  have hj := (hshape.single_block hsingle hb').1
  have hk := (hshape.single_block hsingle hb).1
  rw [hbytes k block hb, if_pos (hk.trans hj.symm)]

end SeededDownload
end TorrentClient
