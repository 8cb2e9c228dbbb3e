import TorrentClient.SeededRuns

/-!
# Where the blocks are between a connection and a seeder

The blocks in the queue of the connection are those that its messages ask for, that wait at the
seeder and that are on their way back, each one once. The connection does not ask for a block
that the download task still has to store or that its completion is still to be told.
-/
namespace TorrentClient
open EffectPrograms TransitionRuns
open PeerConnection

/-- The blocks that a message asks for. -/
def Message.requested (m : Message) : List (UInt32 × UInt32) :=
  m.asked.map fun r => (r.1, blockIndexOf r.2.1)

/-- The blocks that an event brings. -/
def IPC.carried : IPC → List (UInt32 × UInt32)
  | .message (.piece pieceIndex offset _) => [(pieceIndex, blockIndexOf offset)]
  | _ => []

theorem IPC.Honest.not_upload {d₀ : Download} {content : Bytes} {ipc : IPC}
    (h : ipc.Honest d₀ content) : isUploadEvent ipc = false := by
  cases ipc with
  | message m =>
    rcases h with hgreets | ⟨p, offset, data, rfl, -⟩
    · cases m with
      | keepAlive => rfl
      | unChoke => rfl
      | «have» => rfl
      | bitfield => rfl
      | _ => cases hgreets
    · rfl
  | blockUploaded => cases h
  | _ => rfl

namespace Phase

/-- A phase of which something holds until it takes the next event. -/
theorem Will.of_move {sha1 : Bytes → Sha1} {post : PeerConnection → Prop}
    {s t : ConnectedDownload} {a : Action} (h : s.phase.Will post)
    (hmove : ConnectedDownload.Move sha1 s a t) (hother : a ≠ .connectionTakes) :
    t.phase.Will post := by
  cases hmove with
  | takes => exact absurd rfl hother
  | peerSends => exact h
  | delivers => exact h
  | writes => exact h
  | fails => trivial
  | sends hphase =>
    rw [hphase] at h
    exact h true
  | downloads hphase =>
    rw [hphase] at h
    exact h true
  | requiresData hphase =>
    rw [hphase] at h
    exact h
  | requiresBlocks hphase =>
    rw [hphase] at h
    exact h
  | picks choice hphase =>
    rw [hphase] at h
    exact h choice
  | returns hphase =>
    rw [hphase] at h
    exact h
  | @handles event events reply download phase hqueue hevent hanswer =>
    cases reply with
    | none =>
      rw [Phase.answer_none] at hanswer
      cases hanswer
      exact h
    | data buf =>
      obtain ⟨request, next, hphase, rfl⟩ := Phase.answer_data hanswer
      rw [hphase] at h
      exact h (some buf)
    | incompleteBlocks blocks =>
      obtain ⟨p, next, hphase, rfl⟩ := Phase.answer_blocks hanswer
      rw [hphase] at h
      exact h (some blocks)
    | havePieces pieces =>
      rw [Phase.answer_havePieces] at hanswer
      cases hanswer

end Phase

namespace SeededDownload

variable {sha1 : Bytes → Sha1} {d₀ : Download} {content : Bytes} {s t : SeededDownload}
  {a : SeededAction}

/-- The blocks that are asked for and have not come to the connection. -/
def awaited (s : SeededDownload) : List (UInt32 × UInt32) :=
  s.link.writer.flatMap Message.requested ++
    (s.pending.map (fun r => (r.1, blockIndexOf r.2.1)) ++ s.link.ipcs.flatMap IPC.carried)

/-- The block is on its way to the files, or its completion on its way to the connection. -/
def Forwarded (s : SeededDownload) (p b : UInt32) : Prop :=
  (∃ offset data, .download (.piece p offset data) ∈ s.link.toDownload ∧ blockIndexOf offset = b) ∨
    .broadcast (.blockCompleted p b) ∈ s.link.download.sent.drop s.link.delivered ∨
    .blockCompleted p b ∈ s.link.ipcs

structure Ledger (s : SeededDownload) : Prop where
  queue : ∃ q, s.link.phase.Queues q ∧ q.keys.Perm s.awaited
  forgone : ∀ p b, ∃ g, (s.Forwarded p b → g = true) ∧ s.link.phase.Forgone p b g
  /-- what the connection waits for is the last that it sent -/
  waits : s.link.phase.expected <:+ s.link.toDownload

theorem ledger_start {greeting : List Message} (hsent : d₀.sent = []) :
    Ledger (start d₀ greeting) where
  queue := ⟨_, ⟨new_requestsApart _, rfl⟩, .refl []⟩
  forgone := by
    intro p b
    refine ⟨false, ?_, ?_, nofun⟩
    · rintro (⟨_, _, h, -⟩ | h | h)
      · cases h
      · rw [start, ConnectedDownload.start, hsent] at h
        cases h
      · cases h
    · exact (new_requestsApart _).keys
  waits := List.suffix_rfl

theorem carried_of_greets {n : ℕ} {m : Message} (hm : m.Greets n) :
    IPC.carried (.message m) = [] := by
  cases m with
  | piece => cases hm
  | _ => rfl

/-- The seeder answers a request. -/
theorem awaited_answer {i : ℕ} {r : UInt32 × UInt32 × UInt32} (hpending : s.pending[i]? = some r) :
    s.awaited.Perm ({ s with
      link := hear s.link (s.answer content r), pending := s.pending.eraseIdx i } :
        SeededDownload).awaited := by
  obtain ⟨hi, rfl⟩ := List.getElem?_eq_some_iff.mp hpending
  have hperm := (List.getElem_cons_eraseIdx_perm hi).symm.map
    fun r : UInt32 × UInt32 × UInt32 => (r.1, blockIndexOf r.2.1)
  refine List.Perm.append_left _ ?_
  rw [hear, List.flatMap_append]
  refine (hperm.append_right _).trans ?_
  rw [List.map_cons, List.cons_append, ← List.append_assoc]
  exact (List.perm_append_singleton _ _).symm

/-- The moves that ask for no block and hand none on. -/
theorem Ledger.advance (h : Ledger s)
    (hqueue : ∀ q, s.link.phase.Queues q → t.link.phase.Queues q)
    (hforgone : ∀ p b g, s.link.phase.Forgone p b g → t.link.phase.Forgone p b g)
    (hawaited : s.awaited.Perm t.awaited) (hforwarded : ∀ p b, t.Forwarded p b → s.Forwarded p b)
    (hwaits : t.link.phase.expected <:+ t.link.toDownload) : Ledger t := by
  obtain ⟨q, hq, hkeys⟩ := h.queue
  refine ⟨⟨q, hqueue q hq, hkeys.trans hawaited⟩, fun p b => ?_, hwaits⟩
  obtain ⟨g, hg, hphase⟩ := h.forgone p b
  exact ⟨g, fun hnew => hg (hforwarded p b hnew), hforgone p b g hphase⟩

/-- Messages that are not about completed blocks come to the connection. -/
theorem forwarded_of_arrive {ipcs : List IPC} {greeting : List Message}
    {pending : List (UInt32 × UInt32 × UInt32)} {writer : List Message} {p b : UInt32}
    (hipcs : .blockCompleted p b ∉ ipcs)
    (h : Forwarded { link := { s.link with ipcs := s.link.ipcs ++ ipcs, writer }, greeting, pending }
      p b) : s.Forwarded p b := by
  rcases h with hdownload | hsent | h
  · exact Or.inl hdownload
  · exact Or.inr (Or.inl hsent)
  · exact Or.inr (Or.inr ((List.mem_append.mp h).resolve_right hipcs))

theorem Ledger.hear (h : Ledger s) {m : Message} {greeting : List Message}
    {pending : List (UInt32 × UInt32 × UInt32)}
    (hawaited : s.awaited.Perm ({ link := hear s.link m, greeting, pending } :
      SeededDownload).awaited) :
    Ledger { link := hear s.link m, greeting, pending } := by
  refine h.advance (fun _ => id) (fun _ _ _ => id) hawaited (fun p b hnew => ?_) h.waits
  have hnone : .blockCompleted p b ∉ [IPC.message m] :=
    fun hmem => by cases List.mem_singleton.mp hmem
  exact forwarded_of_arrive hnone hnew

/-- The manager passes on what the download task sent. -/
theorem Ledger.deliver (h : Ledger s) (hannounced : s.link.download.Announced)
    {event : ManagerEvent} (hsent : s.link.download.sent[s.link.delivered]? = some event) :
    Ledger { s with link := { s.link with
      delivered := s.link.delivered + 1, ipcs := s.link.ipcs ++ event.passedOn } } := by
  have hdrop := List.drop_eq_getElem_cons (List.getElem?_eq_some_iff.mp hsent).1
  rw [(List.getElem?_eq_some_iff.mp hsent).2] at hdrop
  have hcarried : event.passedOn.flatMap IPC.carried = [] := by
    cases event with
    | broadcast ipc =>
      have htrue := hannounced ipc (List.mem_of_getElem? hsent)
      cases ipc with
      | message m => cases htrue
      | _ => rfl
    | _ => rfl
  refine h.advance (fun _ => id) (fun _ _ _ => id) (.of_eq ?_) (fun p b hnew => ?_) h.waits
  · simp only [awaited, List.flatMap_append, hcarried, List.append_nil]
  · rcases hnew with hdownload | hrest | hipcs
    · exact Or.inl hdownload
    · refine Or.inr (Or.inl ?_)
      rw [hdrop]
      exact List.mem_cons_of_mem _ hrest
    · rcases List.mem_append.mp hipcs with hipcs | hpassed
      · exact Or.inr (Or.inr hipcs)
      · refine Or.inr (Or.inl ?_)
        rw [hdrop]
        cases event with
        | broadcast ipc =>
          obtain rfl := List.mem_singleton.mp hpassed
          exact List.mem_cons_self
        | _ => cases hpassed

/-- A completed block that is told to the connection is not in its queue. -/
theorem Ledger.not_has (h : Ledger s) {conn : PeerConnection} (hphase : s.link.phase = .idle conn)
    {p b : UInt32} (hforwarded : s.Forwarded p b) : conn.me.requests.has p b = false := by
  obtain ⟨g, hg, hforgone⟩ := h.forgone p b
  rw [hphase] at hforgone
  rw [Bool.eq_false_iff]
  exact fun hhas => hforgone.forgone (hg hforwarded) (Or.inr hhas)

/-- The connection takes the next event. -/
theorem Ledger.take (h : Ledger s) {conn : PeerConnection} {ipc : IPC} {ipcs : List IPC}
    (hphase : s.link.phase = .idle conn) (hipcs : s.link.ipcs = ipc :: ipcs)
    (hupload : isUploadEvent ipc = false) :
    Ledger { s with link := { s.link with ipcs, phase := .running (handleIpc ipc conn) } } := by
  obtain ⟨q, hq, hkeys⟩ := h.queue
  have hold := hq
  rw [hphase] at hold
  obtain ⟨happart, rfl⟩ := hold
  have hcarried : s.awaited.Perm (ipc.carried ++ ({ s with link := { s.link with
      ipcs, phase := .running (handleIpc ipc conn) } } : SeededDownload).awaited) := by
    rw [awaited, hipcs, List.flatMap_cons, ← List.append_assoc]
    refine (List.perm_append_comm_assoc _ _ _).trans ?_
    rw [awaited, List.append_assoc]
  replace hkeys := hkeys.trans hcarried
  refine ⟨⟨conn.me.requests.afterEvent ipc, handleIpc_apart happart ipc, ?_⟩, fun p b => ?_, ?_⟩
  · cases ipc with
    | message m =>
      cases m with
      | piece p offset data =>
        have hhas : conn.me.requests.has p (blockIndexOf offset) = true :=
          RequestQueue.has_iff_mem_keys.mpr (hkeys.symm.subset List.mem_cons_self)
        exact ((RequestQueue.keys_remove_of_has hhas).symm.trans hkeys).cons_inv
      | _ => exact hkeys
    | blockCompleted p b =>
      have hnot := h.not_has (p := p) (b := b) hphase
        (Or.inr (Or.inr (by rw [hipcs]; exact List.mem_cons_self)))
      rw [RequestQueue.afterEvent, RequestQueue.remove_of_not_has hnot]
      exact hkeys
    | _ => exact hkeys
  · obtain ⟨g, hg, hforgone⟩ := h.forgone p b
    rw [hphase] at hforgone
    refine ⟨g, fun hnew => hg ?_, handleIpc_forgoes hupload hforgone happart ?_⟩
    · rcases hnew with hdownload | hsent | hmem
      · exact Or.inl hdownload
      · exact Or.inr (Or.inl hsent)
      · refine Or.inr (Or.inr ?_)
        rw [hipcs]
        exact List.mem_cons_of_mem _ hmem
    · rintro q offset data rfl
      exact RequestQueue.has_iff_mem_keys.mpr (hkeys.symm.subset List.mem_cons_self)
  · exact List.nil_suffix

/-- The handler asks for a block. -/
theorem Ledger.send (h : Ledger s) {m : Message} {next : Bool → PendingHandler}
    (hphase : s.link.phase = .running (.call (.send m) next)) :
    Ledger { s with link := { s.link with
      writer := s.link.writer ++ [m], phase := .running (next true) } } := by
  obtain ⟨q, hq, hkeys⟩ := h.queue
  rw [hphase] at hq
  have hsent : (s.awaited ++ m.requested).Perm ({ s with link := { s.link with
      writer := s.link.writer ++ [m], phase := .running (next true) } } :
        SeededDownload).awaited := by
    simp only [awaited, List.append_assoc, List.flatMap_append, List.flatMap_singleton]
    refine List.Perm.append_left _ ?_
    rw [← List.append_assoc]
    exact List.perm_append_comm
  refine ⟨⟨q.afterSend m, hq.2 true, ?_⟩, fun p b => ?_, List.nil_suffix⟩
  · refine List.Perm.trans ?_ hsent
    cases m with
    | request p offset length =>
      rw [RequestQueue.afterSend, RequestQueue.keys_add_of_not_has hq.1]
      exact hkeys.append_right _
    | _ => exact hkeys.trans (.of_eq (List.append_nil _).symm)
  · obtain ⟨g, hg, hforgone⟩ := h.forgone p b
    rw [hphase] at hforgone
    exact ⟨g, hg, hforgone.2 true⟩

/-- The handler hands a block on. -/
theorem Ledger.download (h : Ledger s) {m : Message} {next : Bool → PendingHandler}
    (hphase : s.link.phase = .running (.call (.download m) next)) :
    Ledger { s with link := { s.link with
      toDownload := s.link.toDownload ++ [.download m], phase := .running (next true) } } := by
  obtain ⟨q, hq, hkeys⟩ := h.queue
  rw [hphase] at hq
  refine ⟨⟨q, hq.2 true, hkeys⟩, fun p b => ?_, List.nil_suffix⟩
  obtain ⟨g, hg, hforgone⟩ := h.forgone p b
  rw [hphase] at hforgone
  refine ⟨_, ?_, hforgone.2 true⟩
  rintro (⟨offset, data, hmem, hindex⟩ | hsent | hipcs)
  · rcases List.mem_append.mp hmem with hmem | hmem
    · rw [show g = true from hg (Or.inl ⟨offset, data, hmem, hindex⟩)]
      cases m <;> rfl
    · cases List.mem_singleton.mp hmem
      simp [forwardMonitor, hindex]
  · rw [show g = true from hg (Or.inr (Or.inl hsent))]
    cases m <;> rfl
  · rw [show g = true from hg (Or.inr (Or.inr hipcs))]
    cases m <;> rfl

/-- A completed block is told of only after it was handed on. -/
theorem forwarded_of_handle {d' : Download} {event : ManagerEvent} {events : List ManagerEvent}
    {new : List ManagerEvent} {phase : Phase} (hqueue : s.link.toDownload = event :: events)
    (hsent : d'.sent = s.link.download.sent ++ new)
    (hnew : ∀ e ∈ new, s.link.download.SendsFor event e) {p b : UInt32}
    (h : Forwarded { s with link := { s.link with download := d', toDownload := events, phase } }
      p b) : s.Forwarded p b := by
  rcases h with ⟨offset, data, hmem, hindex⟩ | hmem | hipcs
  · refine Or.inl ⟨offset, data, ?_, hindex⟩
    rw [hqueue]
    exact List.mem_cons_of_mem _ hmem
  · replace hmem : .broadcast (.blockCompleted p b) ∈ d'.sent.drop s.link.delivered := hmem
    rw [hsent, List.drop_append] at hmem
    rcases List.mem_append.mp hmem with hmem | hmem
    · exact Or.inr (Or.inl hmem)
    · rcases hnew _ (List.mem_of_mem_drop hmem) with ⟨_, _, he⟩ | ⟨q, offset, data, ipc, rfl, he, -, hipc⟩
      · cases he
      · cases he
        rcases hipc with hipc | hipc | hipc
        · cases hipc
          refine Or.inl ⟨offset, data, ?_, rfl⟩
          rw [hqueue]
          exact List.mem_cons_self
        · cases hipc
        · cases hipc
  · exact Or.inr (Or.inr hipcs)

/-- A block that is on its way to the files or is told of is not reported. -/
theorem not_reported_of_forwarded (howned : ConnectedDownload.Owned sha1 d₀ s.link) {p b : UInt32}
    (hdownload : s.link.toDownload.filter Download.isRequest = s.link.toDownload)
    (h : s.Forwarded p b) : ¬ s.link.download.Reported p b := by
  rcases h with ⟨offset, data, hmem, -⟩ | hsent | hipcs
  · rw [← hdownload] at hmem
    cases (List.mem_filter.mp hmem).2
  · exact howned.continues.announced _ (List.mem_of_mem_drop hsent) b
  · exact howned.grounded _ hipcs b

/-- The download task handles the next event. -/
theorem Ledger.handle (h : Ledger s) (howned : ConnectedDownload.Owned sha1 d₀ s.link)
    {event : ManagerEvent} {events : List ManagerEvent} {reply : Download.Reply}
    {download : Download} {phase : Phase} (hqueue : s.link.toDownload = event :: events)
    (hevent : Download.handleEvent sha1 event s.link.download = .ok reply download)
    (hanswer : s.link.phase.answer reply = some phase) :
    Ledger { s with link := { s.link with download, toDownload := events, phase } } := by
  obtain ⟨new, hsent, hnew⟩ :=
    Download.eventStep.sends howned.continues.wellFormed ⟨reply, hevent⟩
  have hforwarded (p b : UInt32) : Forwarded { s with link := { s.link with
      download, toDownload := events, phase } } p b → s.Forwarded p b :=
    forwarded_of_handle hqueue hsent hnew
  have hpaired := howned.paired
  have hwaits := h.waits
  rw [hqueue] at hpaired hwaits
  cases Download.handleEvent_reply hevent with
  | silent hsilent =>
    rw [Phase.answer_none] at hanswer
    cases hanswer
    refine h.advance (fun _ => id) (fun _ _ _ => id) (.refl _) hforwarded ?_
    rcases List.suffix_cons_iff.mp hwaits with hall | hrest
    · rw [← hpaired] at hall
      have hmem : event ∈ (event :: events).filter Download.isRequest := by
        rw [hall]
        exact List.mem_cons_self
      rw [(List.mem_filter.mp hmem).2] at hsilent
      cases hsilent
    · exact hrest
  | data =>
    obtain ⟨request, next, hphase, rfl⟩ := Phase.answer_data hanswer
    refine h.advance (fun q hq => ?_) (fun p b g hg => ?_) (.refl _) hforwarded List.nil_suffix
    · rw [hphase] at hq
      exact hq.2 _
    · rw [hphase] at hg
      exact hg.2 _
  | @blocks q blocks hblocks =>
    obtain ⟨q', next, hphase, rfl⟩ := Phase.answer_blocks hanswer
    rw [hphase] at hpaired hwaits
    obtain ⟨hhead, htail⟩ := List.cons.inj hpaired
    cases hhead
    -- The connection has sent nothing since it asked.
    have hnone : s.link.toDownload = [.requireIncompleteBlocks q] := by
      rw [hqueue]
      rcases List.suffix_cons_iff.mp hwaits with hall | hrest
      · exact hall.symm
      · have hmem : .requireIncompleteBlocks q ∈ events := hrest.subset List.mem_cons_self
        have hfilter : .requireIncompleteBlocks q ∈ events.filter Download.isRequest :=
          List.mem_filter.mpr ⟨hmem, rfl⟩
        rw [htail] at hfilter
        cases hfilter
    obtain ⟨queue, hq, hkeys⟩ := h.queue
    rw [hphase] at hq
    refine ⟨⟨queue, hq.2 _, hkeys⟩, fun p b => ?_, List.nil_suffix⟩
    obtain ⟨g, hg, hforgone⟩ := h.forgone p b
    rw [hphase] at hforgone
    refine ⟨_, fun hafter => ?_, hforgone.2 (some blocks)⟩
    have hbefore := hforwarded p b hafter
    have hnot := not_reported_of_forwarded howned (by rw [hnone]; rfl) hbefore
    have hother : ¬ (q = p ∧ b ∈ blocks.map Prod.fst) := by
      rintro ⟨rfl, hmem⟩
      exact hnot ⟨blocks, hblocks, hmem⟩
    change (g && !(decide (q = p) && decide (b ∈ blocks.map Prod.fst))) = true
    rw [← Bool.decide_and, decide_eq_false hother, hg hbefore]
    rfl
  | havePieces =>
    rw [Phase.answer_havePieces] at hanswer
    cases hanswer

/-- Every move keeps the ledger. -/
theorem Ledger.step (howned : ConnectedDownload.Owned sha1 d₀ s.link) (hhonest : Honest d₀ content s)
    (h : Ledger s) (hmove : Moves sha1 content s a t) : Ledger t := by
  have hserved := hhonest.served
  cases hmove with
  | @greets m greeting hgreeting hm =>
    have hgreets := hhonest.greeting m (by rw [hgreeting]; exact List.mem_cons_self)
    refine h.hear (.of_eq ?_)
    simp only [awaited, SeededDownload.hear, List.flatMap_append, List.flatMap_singleton,
      carried_of_greets hgreets, List.append_nil]
  | answers hpending hm => exact h.hear (awaited_answer hpending)
  | client hown hmove =>
    cases hmove with
    | @peerSends m => exact absurd rfl (hown m)
    | delivers hsent =>
      simpa only [reached, List.append_nil] using h.deliver howned.continues.announced hsent
    | @takes conn ipc ipcs hphase hipcs =>
      have hipc := hhonest.ipcs ipc (by rw [hipcs]; exact List.mem_cons_self)
      simpa only [reached, List.append_nil] using h.take hphase hipcs hipc.not_upload
    | sends hphase => simpa only [reached, List.append_nil] using h.send hphase
    | downloads hphase => simpa only [reached, List.append_nil] using h.download hphase
    | requiresData hphase =>
      rw [hphase] at hserved
      cases hserved
    | @requiresBlocks choice p next hphase =>
      simp only [reached, List.append_nil]
      refine h.advance (fun q hq => ?_) (fun p b g hg => ?_) (.refl _) (fun p b hnew => ?_)
        (List.suffix_append _ _)
      · rw [hphase] at hq
        exact hq
      · rw [hphase] at hg
        exact hg
      · rcases hnew with ⟨offset, data, hmem, hindex⟩ | hnew
        · rcases List.mem_append.mp hmem with hmem | hmem
          · exact Or.inl ⟨offset, data, hmem, hindex⟩
          · cases List.mem_singleton.mp hmem
        · exact Or.inr hnew
    | picks choice hphase =>
      simp only [reached, List.append_nil]
      refine h.advance (fun q hq => ?_) (fun p b g hg => ?_) (.refl _) (fun _ _ => id)
        List.nil_suffix
      · rw [hphase] at hq
        exact hq.2 choice
      · rw [hphase] at hg
        exact hg.2 choice
    | returns hphase =>
      simp only [reached, List.append_nil]
      refine h.advance (fun q hq => ?_) (fun p b g hg => ?_) (.refl _) (fun _ _ => id)
        List.nil_suffix
      · rw [hphase] at hq
        exact hq
      · rw [hphase] at hg
        exact hg
    | fails hphase =>
      rw [hphase] at hserved
      cases hserved
    | handles hqueue hevent hanswer =>
      simpa only [reached, List.append_nil] using h.handle howned hqueue hevent hanswer
    | @writes m writer hwriter =>
      have hasks := hhonest.writer m (by rw [hwriter]; exact List.mem_cons_self)
      have huploaded : m.uploaded = [] := by
        cases m with
        | piece => cases hasks
        | _ => rfl
      refine h.advance (fun _ => id) (fun _ _ _ => id) ?_ (fun p b hnew => ?_) h.waits
      · simp only [awaited, reached, hwriter, huploaded, List.head?_cons, Option.toList_some,
          List.flatMap_cons, List.flatMap_nil, List.append_nil, List.map_append, List.append_assoc]
        refine (List.perm_append_comm_assoc _ _ _).trans (List.Perm.append_left _ ?_)
        exact List.perm_append_comm_assoc _ _ _
      · exact forwarded_of_arrive (by rw [huploaded]; exact List.not_mem_nil) hnew

end SeededDownload
end TorrentClient
