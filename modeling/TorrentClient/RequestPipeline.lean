import TorrentClient.ConnectionSteps

/-!
# The request pipeline

While the peer has not choked us and blocks wait to be requested, the greatest number of
requests is outstanding. `Message::Piece` refills the pipeline when it takes a request out
of it; `IPC::BlockCompleted` takes one out and does not.
-/
namespace TorrentClient
open EffectPrograms TransitionRuns
open EffectPrograms.Program (anyReply anyReply_mono)

namespace PeerConnection
open Task

variable {s t : PeerConnection}

/-- The pipeline is full while there is something to request. -/
def Pipelined (conn : PeerConnection) : Prop :=
  conn.me.isChoked = false → conn.me.isInterested = true → conn.toRequest.keys ≠ [] →
    conn.me.requests.len = maxConcurrentRequests

/-- The pipeline is never too full, and what is requested or waits is of interest. -/
structure Requesting (conn : PeerConnection) : Prop where
  len_le : conn.me.requests.len ≤ maxConcurrentRequests
  interested : conn.toRequest.keys ≠ [] ∨ conn.me.requests.requests ≠ [] →
    conn.me.isInterested = true

/-- A request is taken out of the pipeline of an unchoked connection with blocks waiting,
and no event follows that refills it. -/
def DrainsPipeline (conn : PeerConnection) (ipc : IPC) : Prop :=
  ∃ pieceIndex blockIndex, ipc = .blockCompleted pieceIndex blockIndex ∧
    conn.me.isChoked = false ∧ conn.me.isInterested = true ∧
    conn.me.requests.has pieceIndex blockIndex = true ∧
    (conn.toRequest.erase (pieceIndex, blockIndex)).keys ≠ []

theorem length_keys_erase {target : UInt32 × UInt32} (h : target ∈ s.toRequest.keys) :
    (s.toRequest.erase target).keys.length + 1 = s.toRequest.keys.length := by
  have hpos := List.length_pos_of_mem h
  rw [AList.keys_erase, @List.length_erase_of_mem _ instBEqOfDecidableEq _ _ _ h]
  omega

/-- The loop ends with a full pipeline or nothing left to request. -/
theorem requestLoop_fills {fuel : ℕ} (hfuel : s.toRequest.keys.length = fuel)
    (hlen : s.me.requests.len ≤ maxConcurrentRequests) (hi : s.me.isInterested = true) :
    wp anyReply (requestLoop fuel) (fun _ t => Requesting t ∧
      (t.toRequest.keys = [] ∨ t.me.requests.len = maxConcurrentRequests)) s := by
  induction fuel generalizing s with
  | zero => exact ⟨⟨hlen, fun _ => hi⟩, Or.inl (List.eq_nil_of_length_eq_zero hfuel)⟩
  | succ fuel ih =>
    rw [requestLoop, wp_bind, wp_get, wp_ite]
    split_ifs with hroom
    · cases hkeys : s.toRequest.keys with
      | nil =>
        rw [hkeys] at hfuel
        cases hfuel
      | cons key keys =>
        simp only [wp_bind, wp_perform, wp_lift, anyReply, wp_modify, wp_runIf, wp_sendMessage]
        intro i entry _ offset _
        rw [ite_self]
        have hmem : (key :: keys).get i ∈ s.toRequest.keys := by
          rw [hkeys]
          exact List.get_mem (key :: keys) i
        apply ih
        · have herase := length_keys_erase hmem
          exact Nat.succ_injective (herase.trans hfuel)
        · exact Nat.le_trans (RequestQueue.len_add_le _ _ _ _ _) hroom
        · exact hi
    · exact ⟨⟨hlen, fun _ => hi⟩, Or.inr (Nat.le_antisymm hlen (Nat.le_of_not_lt hroom))⟩

theorem requestMoreBlocks_fills (hs : Requesting s) :
    wp anyReply requestMoreBlocks (fun _ t => Requesting t ∧ Pipelined t) s := by
  rw [requestMoreBlocks, wp_bind, wp_get, wp_ite]
  split_ifs with hidle
  · refine ⟨hs, fun hc hi hkeys => absurd hidle ?_⟩
    simp [hc, hi, hkeys]
  · have hi : s.me.isInterested = true := by
      cases hi : s.me.isInterested with
      | true => rfl
      | false => simp [hi] at hidle
    apply wp_mono anyReply_mono (requestLoop_fills rfl hs.len_le hi)
    intro _ t ht
    refine ⟨ht.1, fun _ _ hkeys => ?_⟩
    rcases ht.2 with hnil | hfull
    · exact absurd hnil hkeys
    · exact hfull

/-- `update_my_interested_status` makes the connection interested in what it requests. -/
theorem updateMyInterestedStatus_requesting (hlen : s.me.requests.len ≤ maxConcurrentRequests) :
    wp anyReply updateMyInterestedStatus (fun _ t => Requesting t ∧
      (Requesting s → Pipelined s → Pipelined t)) s := by
  have hany : (decide (s.me.requests.len > 0) || decide (s.toRequest.keys.length > 0)) = true ↔
      s.toRequest.keys ≠ [] ∨ s.me.requests.requests ≠ [] := by
    rw [Bool.or_eq_true, decide_eq_true_iff, decide_eq_true_iff, or_comm, RequestQueue.len]
    exact or_congr List.length_pos_iff List.length_pos_iff
  rw [updateMyInterestedStatus]
  simp only [wp_bind, wp_get, wp_ite, wp_modify, wp_sendMessage, wp_pure]
  split_ifs with hchange
  · refine ⟨⟨hlen, hany.mpr⟩, ?_⟩
    intro hs hp hc hi hkeys
    exact hp hc (hs.interested (Or.inl hkeys)) hkeys
  · rw [bne_iff_ne, ne_eq, not_not] at hchange
    exact ⟨⟨hlen, fun h => hchange.trans (hany.mpr h)⟩, fun _ hp => hp⟩

theorem update_and_request (hlen : s.me.requests.len ≤ maxConcurrentRequests) :
    wp anyReply (do updateMyInterestedStatus; requestMoreBlocks)
      (fun _ t => Requesting t ∧ Pipelined t) s := by
  rw [wp_bind]
  apply wp_mono anyReply_mono (updateMyInterestedStatus_requesting hlen)
  intro _ t ht
  exact requestMoreBlocks_fills ht.1

/-- Only blocks to request are added, and pieces that the peer has. -/
def SameMe (s t : PeerConnection) : Prop := t.me = s.me

instance : IsTrans PeerConnection SameMe := ⟨fun _ _ _ h h' => Eq.trans h' h⟩

theorem queueBlocks_sameMe (pieceIndex : UInt32) : Keeps SameMe (queueBlocks pieceIndex) := by
  intro s
  simp only [queueBlocks, wp_bind, wp_requireIncompleteBlocks, wp_modify]
  intro blocks
  exact (queueBlock_foldl_frame pieceIndex blocks s).2.2

theorem bitfieldLoop_sameMe (bytes : Bytes) (indices : List ℕ) :
    Keeps SameMe (bitfieldLoop bytes indices) := by
  apply bitfieldLoop_keeps
  · exact fun s => rfl
  · exact fun s hasPieces => rfl
  · exact queueBlocks_sameMe

theorem new_requesting (havePieces : List Bool) : Requesting (new havePieces) :=
  ⟨Nat.zero_le _, by simp [new, PeerMetadata.new, RequestQueue.new]⟩

theorem new_pipelined (havePieces : List Bool) : Pipelined (new havePieces) :=
  fun hc => by cases hc

/-- What is left after a block was taken out of the map and the queue. -/
theorem removed_pipelined (hs : Requesting s) (hp : Pipelined s) {pieceIndex blockIndex : UInt32}
    (hc : t.me.isChoked = s.me.isChoked) (hi : t.me.isInterested = s.me.isInterested)
    (hr : t.me.requests = (s.me.requests.remove pieceIndex blockIndex).2)
    (ht : t.toRequest = s.toRequest.erase (pieceIndex, blockIndex)) :
    Requesting t ∧ (Pipelined t ↔ ¬ DrainsPipeline s (.blockCompleted pieceIndex blockIndex)) := by
  have hkeys : t.toRequest.keys ≠ [] → s.toRequest.keys ≠ [] := by
    intro hne hnil
    rw [ht, AList.keys_erase, hnil] at hne
    exact hne rfl
  have hrequests : t.me.requests.requests ≠ [] → s.me.requests.requests ≠ [] := by
    intro hne hnil
    rw [hr] at hne
    exact hne (RequestQueue.remove_requests_of_nil hnil)
  have hlen : t.me.requests.len ≤ s.me.requests.len := by
    rw [hr]
    exact RequestQueue.len_remove_le _ _ _
  refine ⟨⟨Nat.le_trans hlen hs.len_le, ?_⟩, ?_⟩
  · intro h
    rw [hi]
    exact hs.interested (h.imp hkeys hrequests)
  · constructor
    · rintro hpt ⟨p, b, heq, hc', hi', hhas, hne⟩
      obtain ⟨rfl, rfl⟩ := IPC.blockCompleted.inj heq
      rw [← ht] at hne
      have hfull := hp hc' hi' (hkeys hne)
      have hfull' := hpt (hc.trans hc') (hi.trans hi') hne
      have hdrop := RequestQueue.len_remove_of_has hhas
      rw [← hr] at hdrop
      omega
    · intro hdrain hc' hi' hne
      have hfull := hp (hc.symm.trans hc') (hi.symm.trans hi') (hkeys hne)
      cases hhas : s.me.requests.has pieceIndex blockIndex with
      | true =>
        rw [ht] at hne
        exact absurd ⟨_, _, rfl, hc.symm.trans hc', hi.symm.trans hi', hhas, hne⟩ hdrain
      | false =>
        rw [RequestQueue.remove_of_not_has hhas] at hr
        rw [hr]
        exact hfull

/-- `BlockCompleted` keeps the pipeline full exactly when it does not drain it. -/
theorem blockCompleted_pipelined (hs : Requesting s) (hp : Pipelined s)
    (pieceIndex blockIndex : UInt32) :
    wp anyReply (handleIpc (.blockCompleted pieceIndex blockIndex)) (fun _ t => Requesting t ∧
      (Pipelined t ↔ ¬ DrainsPipeline s (.blockCompleted pieceIndex blockIndex))) s := by
  rw [handleIpc, wp_bind, wp_modify, wp_bind, wp_get]
  simp only [wp_bind, wp_modify]
  cases (s.me.requests.remove pieceIndex blockIndex).1 with
  | none => exact removed_pipelined hs hp rfl rfl rfl rfl
  | some r =>
    rw [wp_sendMessage]
    exact removed_pipelined hs hp rfl rfl rfl rfl

/-- Every other event keeps it full. -/
theorem handleIpc_pipelined (hs : Requesting s) (hp : Pipelined s) {ipc : IPC}
    (hother : ∀ pieceIndex blockIndex, ipc ≠ .blockCompleted pieceIndex blockIndex) :
    wp anyReply (handleIpc ipc) (fun _ t => Requesting t ∧ Pipelined t) s := by
  have hupdate : ∀ u, u.me = s.me → wp anyReply (do updateMyInterestedStatus; requestMoreBlocks)
      (fun _ t => Requesting t ∧ Pipelined t) u := by
    intro u hu
    exact update_and_request (hu ▸ hs.len_le)
  cases hupload : isUploadEvent ipc with
  | true =>
    apply wp_mono anyReply_mono (handleIpc_sameRequests hupload s)
    intro _ t ht
    constructor
    · exact ⟨ht.me ▸ hs.len_le, ht.me ▸ ht.toRequest ▸ hs.interested⟩
    · rw [Pipelined, ht.me, ht.toRequest]
      exact hp
  | false =>
    cases ipc with
    | message m =>
      cases m with
      | keepAlive => exact ⟨hs, hp⟩
      | choke => exact ⟨⟨hs.len_le, hs.interested⟩, fun hc => by cases hc⟩
      | unChoke =>
        rw [handleIpc, processMessage, wp_bind, wp_get, wp_ite]
        split_ifs
        · rw [wp_bind, wp_modify]
          exact requestMoreBlocks_fills ⟨hs.len_le, hs.interested⟩
        · exact ⟨hs, hp⟩
      | «have» haveIndex =>
        rw [handleIpc, processMessage, wp_bind, wp_get, wp_bind, wp_lift]
        intro hasPieces _
        rw [wp_bind, wp_modify, wp_bind]
        apply wp_mono anyReply_mono (queueBlocks_sameMe haveIndex _)
        intro _ t ht
        exact hupdate t ht
      | bitfield bytes =>
        rw [handleIpc, processMessage, wp_bind, wp_get, wp_bind]
        apply wp_mono anyReply_mono (bitfieldLoop_sameMe bytes _ s)
        intro _ t ht
        exact hupdate t ht
      | piece pieceIndex offset data =>
        rw [handleIpc, processMessage, wp_bind, wp_modify, wp_bind, wp_sendDownload]
        exact update_and_request (Nat.le_trans (RequestQueue.len_remove_le _ _ _) hs.len_le)
      | port => trivial
      | _ => cases hupload
    | blockCompleted pieceIndex blockIndex => exact absurd rfl (hother _ _)
    | pieceCompleted pieceIndex =>
      rw [handleIpc, wp_bind, wp_get, wp_bind, wp_lift]
      intro hasPieces _
      rw [wp_bind, wp_modify, wp_bind]
      apply wp_mono anyReply_mono (updateMyInterestedStatus_requesting (by exact hs.len_le))
      intro _ t ht
      rw [wp_sendMessage]
      exact ⟨ht.1, ht.2 ⟨hs.len_le, hs.interested⟩ hp⟩
    | downloadCompleted =>
      apply wp_mono anyReply_mono (updateMyInterestedStatus_requesting hs.len_le)
      intro _ t ht
      exact ⟨ht.1, ht.2 hs hp⟩
    | blockUploaded => cases hupload

/-- An event keeps the pipeline full exactly when it does not drain it. -/
theorem ipcStep.keeps_pipelined_iff {ipc : IPC} (hs : Requesting s) (hp : Pipelined s)
    (h : ipcStep s ipc t) : Requesting t ∧ (Pipelined t ↔ ¬ DrainsPipeline s ipc) := by
  by_cases hblock : ∃ pieceIndex blockIndex, ipc = .blockCompleted pieceIndex blockIndex
  · obtain ⟨pieceIndex, blockIndex, rfl⟩ := hblock
    exact h.post (blockCompleted_pipelined hs hp pieceIndex blockIndex)
  · have hother : ∀ pieceIndex blockIndex, ipc ≠ .blockCompleted pieceIndex blockIndex :=
      fun p b heq => hblock ⟨p, b, heq⟩
    obtain ⟨ht, hpt⟩ := h.post (handleIpc_pipelined hs hp hother)
    refine ⟨ht, fun _ hdrain => ?_, fun _ => hpt⟩
    obtain ⟨p, b, heq, -⟩ := hdrain
    exact hother p b heq

/-- In every state of a run the pipeline is full exactly when no event of the run drains
it. -/
theorem pipelined_iff {havePieces : List Bool} {trace : List (Step PeerConnection IPC)}
    (run : Run ipcStep (new havePieces) trace s) :
    (∀ x ∈ trace, Pipelined x.after) ↔ ∀ x ∈ trace, ¬ DrainsPipeline x.before x.label :=
  run.forall_after_iff (new_requesting havePieces) (new_pipelined havePieces)
    fun _ _ _ hs hp h => h.keeps_pipelined_iff hs hp

/-- The blocks of a piece of eleven. -/
def elevenBlocks : List (UInt32 × UInt32) := (List.range 11).map fun i => (UInt32.ofNat i, 16384)

/-- Ten of the blocks are requested and the eleventh waits. -/
theorem pipelined_iff_eleven :
    ∃ trace s, Run ipcStep (new [false]) trace s ∧
      trace.map (·.label) = [.message .unChoke, .message (.have 0)] ∧
      s.me.isChoked = false ∧ s.me.isInterested = true ∧ s.toRequest.keys.length = 1 ∧
      s.me.requests.len = maxConcurrentRequests ∧ ∀ x ∈ trace, Pipelined x.after := by
  have hrun : ∃ s, execute (answerWith elevenBlocks) (new [false])
      [.message .unChoke, .message (.have 0)] = some s ∧ s.me.isChoked = false ∧
      s.me.isInterested = true ∧ s.toRequest.keys.length = 1 ∧
      s.me.requests.len = maxConcurrentRequests := by
    refine ⟨_, rfl, rfl, rfl, ?_⟩
    decide +kernel
  obtain ⟨s, hexecute, hs⟩ := hrun
  obtain ⟨trace, run, hlabels⟩ := run_of_execute Run.nil hexecute
  refine ⟨trace, s, run, hlabels, hs.1, hs.2.1, hs.2.2.1, hs.2.2.2, (pipelined_iff run).mpr ?_⟩
  rintro x hx ⟨p, b, hlabel, -⟩
  have hmem : x.label ∈ trace.map (·.label) := List.mem_map_of_mem hx
  rw [hlabels, hlabel] at hmem
  simp at hmem

/-- Another connection completes a requested block while an eleventh one waits. -/
theorem completed_block_drains_pipeline :
    ∃ trace s, Run ipcStep (new [false]) trace s ∧
      trace.map (·.label) = [.message .unChoke, .message (.have 0), .blockCompleted 0 5] ∧
      ¬ Pipelined s := by
  obtain ⟨s, hrun, hs⟩ : ∃ s, execute (answerWith elevenBlocks) (new [false])
      [.message .unChoke, .message (.have 0), .blockCompleted 0 5] = some s ∧ ¬ Pipelined s := by
    refine ⟨_, rfl, fun hfull => ?_⟩
    have hlen := hfull rfl rfl
    revert hlen
    decide +kernel
  obtain ⟨trace, run, hlabels⟩ := run_of_execute Run.nil hrun
  exact ⟨trace, s, run, hlabels, hs⟩

end PeerConnection
end TorrentClient
