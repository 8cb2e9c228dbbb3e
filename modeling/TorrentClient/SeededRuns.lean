import TorrentClient.SeededCalls
import TorrentClient.ForwardedBlocks
import TorrentClient.RequestPipeline

/-!
# What holds while a seeder is asked for its blocks

Everything on its way between the seeder and the download task is about blocks of the torrent and
carries the right bytes. A block that the connection has requested is on its way to the seeder,
waits there or comes back, exactly once; one that was handed to the download task is not asked for.
-/
namespace TorrentClient
open EffectPrograms ListRanges TransitionRuns
open EffectPrograms.Program (anyReply anyReply_mono)
open PeerConnection

namespace Download

variable {sha1 : Bytes → Sha1} {d₀ d d' : Download} {content : Bytes} {event e : ManagerEvent}

/-- What the download task sends when it handles the event. -/
def SendsFor (d : Download) (event e : ManagerEvent) : Prop :=
  (∃ i path, e = .fileFinish i path) ∨ ∃ p offset data ipc,
    event = .download (.piece p offset data) ∧ e = .broadcast ipc ∧ p.toNat < d.pieces.length ∧
      (ipc = .blockCompleted p (blockIndexOf offset) ∨ ipc = .pieceCompleted p ∨
        ipc = .downloadCompleted)

theorem exists_broadcast {p b : UInt32} (h : e ∈ d.notifications p b) :
    ∃ ipc, e = .broadcast ipc := by
  rcases List.mem_append.mp h with h | h
  · rcases List.mem_pair.mp h with rfl | rfl
    · exact ⟨_, rfl⟩
    · exact ⟨_, rfl⟩
  · split_ifs at h
    · exact ⟨_, List.mem_singleton.mp h⟩
    · cases h

theorem eventStep.sends (hd : d.WellFormed) (h : eventStep sha1 d event d') :
    ∃ new, d'.sent = d.sent ++ new ∧ ∀ e ∈ new, d.SendsFor event e := by
  rcases h.piece_or_eq with ⟨p, offset, data, rfl, hstore⟩ | ⟨-, rfl⟩
  · obtain ⟨piece, hp, -, hstored⟩ := hstore.stored hd
    have hlt : p.toNat < d.pieces.length := (List.getElem?_eq_some_iff.mp hp).1
    cases hstored with
    | dropped => exact ⟨[], by simp, by simp⟩
    | rejected => exact ⟨[], by simp [reject], by simp⟩
    | @accepted files d'' hc hw hfin =>
      obtain ⟨renamed, hsent, hrenamed⟩ := hfin.sent
      refine ⟨renamed ++ d''.notifications p (blockIndexOf offset), ?_, ?_⟩
      · change d''.sent ++ _ = _
        rw [hsent, List.append_assoc]
        rfl
      · intro e he
        rcases List.mem_append.mp he with he | he
        · exact Or.inl (hrenamed e he)
        · obtain ⟨ipc, rfl⟩ := exists_broadcast he
          exact Or.inr ⟨p, offset, data, ipc, rfl, rfl, hlt, mem_notifications he⟩
  · exact ⟨[], by simp, by simp⟩

/-- What the connection hands to the download task. -/
def Expects (d₀ : Download) (content : Bytes) : ManagerEvent → Prop
  | .download m => m.Carries d₀ content
  | .requireIncompleteBlocks p => p.toNat < d₀.pieces.length
  | _ => False

end Download

namespace Phase

/-- What is left of the handler ends without an error. -/
def Served (d₀ : Download) (content : Bytes) (phase : Phase) : Prop :=
  Program.wp (seededCalls d₀ content) phase.program
    (Task.onEnd (fun _ t => Ready d₀ t) fun _ => False)

/-- The connection will be in a state of the kind. -/
def Will (post : PeerConnection → Prop) (phase : Phase) : Prop :=
  Program.wp anyReply phase.program (Task.onSuccess fun _ t => post t)

/-- The queue of the connection is what it makes of `q`. -/
def Queues (phase : Phase) (q : RequestQueue) : Prop :=
  Program.monitored requestMonitor phase.program
    (fun r q' => Task.onSuccess (fun _ t => RequestsApart t ∧ t.me.requests = q') r) q

/-- The connection does not ask for the block if it was handed on. -/
def Forgone (p b : UInt32) (phase : Phase) (g : Bool) : Prop :=
  Program.monitored (forwardMonitor p b) phase.program
    (fun r g' => Task.onSuccess (fun _ t => Forgoes p b t g') r) g

end Phase

namespace SeededDownload

variable {sha1 : Bytes → Sha1} {d₀ : Download} {content : Bytes} {s t : SeededDownload}
  {a : SeededAction}

/-- All that is on its way is about blocks of the torrent. -/
structure Honest (d₀ : Download) (content : Bytes) (s : SeededDownload) : Prop where
  greeting : ∀ m ∈ s.greeting, m.Greets d₀.pieces.length
  pending : ∀ r ∈ s.pending, d₀.AsksBlock r
  writer : ∀ m ∈ s.link.writer, m.Asks d₀
  ipcs : ∀ ipc ∈ s.link.ipcs, ipc.Honest d₀ content
  sent : ∀ e ∈ s.link.download.sent, ∀ ipc ∈ e.passedOn, ipc.Honest d₀ content
  toDownload : ∀ e ∈ s.link.toDownload, d₀.Expects content e
  served : s.link.phase.Served d₀ content

theorem honest_start {greeting : List Message} (hsent : d₀.sent = [])
    (hgreeting : ∀ m ∈ greeting, m.Greets d₀.pieces.length) :
    Honest d₀ content (start d₀ greeting) where
  greeting := hgreeting
  pending := fun _ => nofun
  writer := fun _ => nofun
  ipcs := fun _ => nofun
  sent := by
    intro e he
    rw [start, ConnectedDownload.start, hsent] at he
    cases he
  toDownload := fun _ => nofun
  served := by
    have hlength : d₀.havePieces.length = d₀.pieces.length := List.length_map _
    refine ⟨?_, hlength, nofun⟩
    simp [PeerConnection.new, PeerMetadata.new, hlength]

/-- The answer to a request is a correct block. -/
theorem carries_answer (hd₀ : d₀.WellFormed)
    (hmetaInfo : s.link.download.metaInfo = d₀.metaInfo) {r : UInt32 × UInt32 × UInt32}
    (hr : d₀.AsksBlock r) : (s.answer content r).Carries d₀ content := by
  obtain ⟨piece, block, hp, hb, haligned, hlength⟩ := hr
  refine ⟨_, _, _, rfl, piece, block, hp, hb, haligned, ?_⟩
  have hoffset := (hd₀.shape _ piece hp).offset_eq
  have hindex : r.2.1.toNat = (blockIndexOf r.2.1).toNat * blockSize := by
    have hdiv := Nat.div_add_mod r.2.1.toNat blockSize
    rw [haligned, Nat.add_zero, Nat.mul_comm] at hdiv
    rw [blockIndexOf, UInt32.toNat_div]
    exact hdiv.symm
  rw [hmetaInfo, hlength, ← hoffset, hindex]
  rfl

theorem carriesBlocks_of_carries {d : Download} (hd₀ : d₀.WellFormed)
    (hlength : content.length = d₀.content.length) (hd : Download.Continues d₀ d) {m : Message}
    (hm : m.Carries d₀ content) : d.carriesBlocks m = true := by
  obtain ⟨p, offset, data, rfl, piece₀, block₀, hp₀, hb₀, haligned, hdata⟩ := hm
  obtain ⟨piece, hp, -, -, -, hshapes⟩ := hd₀.same_piece hd.wellFormed hd.metaInfo_eq
    hd.length_eq hp₀
  obtain ⟨block, hb, hbl⟩ := Download.exists_block_of_shapes hshapes hb₀
  have hshape := hd₀.shape _ piece₀ hp₀
  have hin := (hshape.block_le hb₀).2.2
  have hend := hshape.end_le hd₀.geometry
  refine Download.carriesBlocks_piece.mpr ⟨piece, block, hp, hb, haligned, ?_⟩
  refine (congrArg List.length hdata).trans ?_
  rw [length_slice, hbl]
  omega

theorem carriesBlocks_of_greets {d : Download} {n : ℕ} {m : Message} (hm : m.Greets n) :
    d.carriesBlocks m = true := by
  cases m with
  | piece => cases hm
  | _ => rfl

theorem Honest.hear (h : Honest d₀ content s) {m : Message}
    (hm : m.Greets d₀.pieces.length ∨ m.Carries d₀ content) {greeting : List Message}
    {pending : List (UInt32 × UInt32 × UInt32)} (hgreeting : ∀ x ∈ greeting, x ∈ s.greeting)
    (hpending : ∀ x ∈ pending, x ∈ s.pending) :
    Honest d₀ content { link := hear s.link m, greeting, pending } where
  greeting := fun x hx => h.greeting x (hgreeting x hx)
  pending := fun x hx => h.pending x (hpending x hx)
  writer := h.writer
  ipcs := List.forall_mem_append.mpr ⟨h.ipcs, List.forall_mem_singleton.mpr hm⟩
  sent := h.sent
  toDownload := h.toDownload
  served := h.served

/-- The task of the connection goes on, and the download task is as it was. -/
theorem Honest.advance (h : Honest d₀ content s) (phase : Phase) {ipcs : List IPC}
    {writer : List Message} {toDownload : List ManagerEvent} (hserved : phase.Served d₀ content)
    (hipcs : ∀ ipc ∈ ipcs, ipc.Honest d₀ content) (hwriter : ∀ m ∈ writer, m.Asks d₀)
    (htoDownload : ∀ e ∈ toDownload, d₀.Expects content e) (delivered : ℕ)
    {requests : List (UInt32 × UInt32 × UInt32)} (hrequests : ∀ r ∈ requests, d₀.AsksBlock r) :
    Honest d₀ content { s with
      link := { s.link with phase, ipcs, writer, toDownload, delivered }
      pending := s.pending ++ requests } where
  greeting := h.greeting
  pending := List.forall_mem_append.mpr ⟨h.pending, hrequests⟩
  writer := hwriter
  ipcs := hipcs
  sent := h.sent
  toDownload := htoDownload
  served := hserved

/-- What the download task sends about a correct block is honest. -/
theorem honest_of_sendsFor {d : Download} (hlength : d.pieces.length = d₀.pieces.length)
    {event e : ManagerEvent} (h : d.SendsFor event e) :
    ∀ ipc ∈ e.passedOn, ipc.Honest d₀ content := by
  rcases h with ⟨i, path, rfl⟩ | ⟨p, offset, data, ipc, -, rfl, hlt, hipc⟩
  · exact fun _ => nofun
  · refine List.forall_mem_singleton.mpr ?_
    rcases hipc with rfl | rfl | rfl
    · trivial
    · rw [hlength] at hlt
      exact hlt
    · trivial

theorem length_pieces_eq {d : Download} (hd₀ : d₀.WellFormed) (hd : Download.Continues d₀ d) :
    d.pieces.length = d₀.pieces.length := by
  rw [hd.wellFormed.length_pieces, hd₀.length_pieces, hd.metaInfo_eq]

theorem Honest.handle (hd₀ : d₀.WellFormed) (h : Honest d₀ content s)
    (howned : ConnectedDownload.Owned sha1 d₀ s.link) {event : ManagerEvent}
    {events : List ManagerEvent} {reply : Download.Reply} {download : Download} {phase : Phase}
    (hqueue : s.link.toDownload = event :: events)
    (hevent : Download.handleEvent sha1 event s.link.download = .ok reply download)
    (hanswer : s.link.phase.answer reply = some phase) :
    Honest d₀ content { s with
      link := { s.link with download, toDownload := events, phase } } := by
  have hd := howned.continues
  obtain ⟨new, hsent, hnew⟩ := Download.eventStep.sends hd.wellFormed ⟨reply, hevent⟩
  refine ⟨h.greeting, h.pending, h.writer, h.ipcs, ?_, ?_, ?_⟩
  · intro e he
    rw [hsent] at he
    rcases List.mem_append.mp he with he | he
    · exact h.sent e he
    · exact honest_of_sendsFor (length_pieces_eq hd₀ hd) (hnew e he)
  · intro e he
    exact h.toDownload e (by rw [hqueue]; exact List.mem_cons_of_mem _ he)
  · have hserved := h.served
    have hpaired := howned.paired
    rw [hqueue] at hpaired
    cases Download.handleEvent_reply hevent with
    | silent =>
      rw [Phase.answer_none] at hanswer
      cases hanswer
      exact hserved
    | data =>
      obtain ⟨request, next, hphase, rfl⟩ := Phase.answer_data hanswer
      rw [hphase] at hserved
      cases hserved
    | blocks hblocks =>
      obtain ⟨p, next, hphase, rfl⟩ := Phase.answer_blocks hanswer
      rw [hphase] at hserved hpaired
      cases (List.cons.inj hpaired).1
      exact hserved.2 _ (Download.hasBlock_of_reported hd₀ hd hblocks)
    | havePieces =>
      rw [Phase.answer_havePieces] at hanswer
      cases hanswer

/-- Every move keeps what is on its way honest. -/
theorem Honest.step (hd₀ : d₀.WellFormed) (hn : d₀.pieces.length ≤ 2 ^ 32)
    (howned : ConnectedDownload.Owned sha1 d₀ s.link) (h : Honest d₀ content s)
    (hmove : Moves sha1 content s a t) : Honest d₀ content t := by
  have hnothing : ∀ r ∈ ([] : List (UInt32 × UInt32 × UInt32)), d₀.AsksBlock r := fun _ => nofun
  have hserved := h.served
  cases hmove with
  | @greets m greeting hgreeting hm =>
    have hgreets := h.greeting
    rw [hgreeting] at hgreets
    refine h.hear (Or.inl (hgreets m List.mem_cons_self)) (fun x hx => ?_) fun _ => id
    rw [hgreeting]
    exact List.mem_cons_of_mem _ hx
  | @answers i r hpending hm =>
    have hr := h.pending r (List.mem_of_getElem? hpending)
    exact h.hear (Or.inr (carries_answer hd₀ howned.continues.metaInfo_eq hr)) (fun _ => id)
      fun x hx => List.eraseIdx_subset hx
  | client hown hmove =>
    cases hmove with
    | @peerSends m => exact absurd rfl (hown m)
    | @delivers event hsent =>
      have hpassed := h.sent event (List.mem_of_getElem? hsent)
      exact h.advance _ hserved (List.forall_mem_append.mpr ⟨h.ipcs, hpassed⟩) h.writer h.toDownload
        _ hnothing
    | @takes conn ipc ipcs hphase hipcs =>
      have hall := h.ipcs
      rw [hipcs] at hall
      rw [hphase] at hserved
      obtain ⟨hipc, hrest⟩ := List.forall_mem_cons.mp hall
      have hserves := handleIpc_serves hd₀ hn hipc hserved
      exact h.advance (.running (handleIpc ipc conn)) hserves hrest h.writer h.toDownload
        _ hnothing
    | @sends choice m next hphase =>
      rw [hphase] at hserved
      have hwriter := List.forall_mem_append.mpr ⟨h.writer, List.forall_mem_singleton.mpr hserved.1⟩
      exact h.advance (.running (next true)) hserved.2 h.ipcs hwriter h.toDownload _ hnothing
    | @downloads choice m next hphase =>
      rw [hphase] at hserved
      have hexpected : d₀.Expects content (.download m) := hserved.1
      have htoDownload :=
        List.forall_mem_append.mpr ⟨h.toDownload, List.forall_mem_singleton.mpr hexpected⟩
      exact h.advance (.running (next true)) hserved.2 h.ipcs h.writer htoDownload _ hnothing
    | requiresData hphase =>
      rw [hphase] at hserved
      cases hserved
    | @requiresBlocks choice p next hphase =>
      rw [hphase] at hserved
      have hexpected : d₀.Expects content (.requireIncompleteBlocks p) := hserved.1
      have htoDownload :=
        List.forall_mem_append.mpr ⟨h.toDownload, List.forall_mem_singleton.mpr hexpected⟩
      exact h.advance (.awaitingBlocks p next) hserved h.ipcs h.writer htoDownload _ hnothing
    | @picks n next choice hphase =>
      rw [hphase] at hserved
      exact h.advance (.running (next choice)) (hserved choice) h.ipcs h.writer h.toDownload _ hnothing
    | @returns conn hphase =>
      rw [hphase] at hserved
      exact h.advance (.idle conn) hserved h.ipcs h.writer h.toDownload _ hnothing
    | fails hphase =>
      rw [hphase] at hserved
      cases hserved
    | handles hqueue hevent hanswer =>
      have hhandled := h.handle hd₀ howned hqueue hevent hanswer
      simpa only [reached, List.append_nil] using hhandled
    | @writes m writer hwriter =>
      have hall := h.writer
      rw [hwriter] at hall
      obtain ⟨hm, hrest⟩ := List.forall_mem_cons.mp hall
      have huploaded : ∀ ipc ∈ m.uploaded, ipc.Honest d₀ content := by
        cases m with
        | piece => cases hm
        | _ => exact fun _ => nofun
      have hrequests : ∀ r ∈ s.reached .writerWrites, d₀.AsksBlock r := by
        rw [reached, hwriter]
        cases m with
        | request => exact List.forall_mem_singleton.mpr hm
        | _ => exact fun _ => nofun
      exact h.advance _ hserved (List.forall_mem_append.mpr ⟨h.ipcs, huploaded⟩) hrest h.toDownload
        _ hrequests

end SeededDownload
end TorrentClient
