import TorrentClient.OutstandingRequests

/-!
# Blocks that were handed to the download task

From the time a connection hands a block to the download task it does not ask for it, unless
the download task reports the block again.
-/
namespace TorrentClient
open EffectPrograms

namespace RequestQueue

variable {q : RequestQueue} {p b : UInt32}

/-- A requested block that is removed leaves the others. -/
theorem keys_remove_of_has (h : q.has p b = true) :
    q.keys.Perm ((p, b) :: (q.remove p b).2.keys) := by
  obtain ⟨before, r, after, hq, hmatches, hremove⟩ := remove_of_has h
  obtain ⟨rfl, rfl⟩ := RequestMetadata.matchesBlock_iff.mp hmatches
  rw [hremove, keys, keys, hq, List.map_append, List.map_append, List.map_cons]
  exact List.perm_middle

theorem not_has_remove (hnodup : q.keys.Nodup) : (q.remove p b).2.has p b = false := by
  cases h : q.has p b with
  | false =>
    rw [remove_of_not_has h]
    exact h
  | true =>
    have hcons := (keys_remove_of_has h).nodup_iff.mp hnodup
    exact not_has_iff.mpr (List.nodup_cons.mp hcons).1

end RequestQueue

/-- Whether the block was handed to the download task and has not been reported since. -/
def forwardMonitor (p b : UInt32) : Monitor Call Call.Reply Bool where
  allows _ _ := True
  after
    | .download (.piece q offset _), _, g => g || (decide (q = p) && decide (blockIndexOf offset = b))
    | .requireIncompleteBlocks q, some blocks, g =>
      g && !(decide (q = p) && decide (b ∈ blocks.map Prod.fst))
    | _, _, g => g

namespace PeerConnection
open Task

variable {p b : UInt32} {s t : PeerConnection} {g : Bool}

/-- The connection does not ask for a block that it has handed on. -/
structure Forgoes (p b : UInt32) (conn : PeerConnection) (g : Bool) : Prop where
  keys : conn.KeysMatch
  forgone : g = true → ¬ conn.AsksFor p b

theorem Forgoes.congr (h : Forgoes p b s g) (htoRequest : t.toRequest = s.toRequest)
    (hrequests : t.me.requests = s.me.requests) : Forgoes p b t g := by
  obtain ⟨hkeys, hforgone⟩ := h
  constructor
  · rw [KeysMatch, htoRequest]
    exact hkeys
  · rw [AsksFor, htoRequest, hrequests]
    exact hforgone

/-- Blocks are taken out of the map and the queue. -/
theorem Forgoes.remove (h : Forgoes p b s g) (q c : UInt32) :
    Forgoes p b { s with
      toRequest := s.toRequest.erase (q, c)
      me := { s.me with requests := (s.me.requests.remove q c).2 } } g := by
  refine ⟨h.keys.erase (q, c), fun hg hasks => h.forgone hg (hasks.imp ?_ ?_)⟩
  · exact fun hmem => (AList.mem_erase.mp hmem).2
  · intro hhas
    rw [RequestQueue.has_iff_mem_keys] at hhas ⊢
    exact (RequestQueue.keys_remove_sublist _ _ _).subset hhas

/-- A block moves from the map into the queue. -/
theorem Forgoes.request (h : Forgoes p b s g) {target : UInt32 × UInt32}
    {entry : UInt32 × UInt32 × UInt32} (hentry : s.toRequest.lookup target = some entry)
    (offset : UInt32) :
    Forgoes p b { s with
      toRequest := s.toRequest.erase target
      me := { s.me with
        requests := (s.me.requests.add entry.1 entry.2.1 offset entry.2.2).2 } } g := by
  have hmem : target ∈ s.toRequest := AList.lookup_isSome.mp (Option.isSome_of_eq_some hentry)
  refine ⟨h.keys.erase target, fun hg hasks => h.forgone hg ?_⟩
  rcases hasks with hwaits | hhas
  · exact Or.inl (AList.mem_erase.mp hwaits).2
  · simp only [RequestQueue.has_add, Bool.or_eq_true, Bool.and_eq_true, beq_iff_eq] at hhas
    rcases hhas with hhas | ⟨rfl, rfl⟩
    · exact Or.inr hhas
    · exact Or.inl (h.keys target entry hentry ▸ hmem)

/-- A block that is asked for after some were queued was asked for before, or is one of them. -/
theorem asksFor_of_foldl (q : UInt32) (blocks : List (UInt32 × UInt32))
    (h : (blocks.foldl (queueBlock q) s).AsksFor p b) :
    s.AsksFor p b ∨ q = p ∧ b ∈ blocks.map Prod.fst := by
  induction blocks generalizing s with
  | nil => exact Or.inl h
  | cons block blocks ih =>
    rcases ih h with hasks | ⟨rfl, hmem⟩
    · rw [queueBlock] at hasks
      split_ifs at hasks
      · exact Or.inl hasks
      · rcases hasks with hmem | hhas
        · rcases (AList.mem_insert _).mp hmem with heq | hmem
          · cases heq
            exact Or.inr ⟨rfl, List.mem_cons_self⟩
          · exact Or.inl (Or.inl hmem)
        · exact Or.inl (Or.inr hhas)
    · exact Or.inr ⟨rfl, List.mem_cons_of_mem _ hmem⟩

/-- A handler keeps forgoing the block. -/
def KeepsForgoing (p b : UInt32) (x : Handler Unit) : Prop :=
  ∀ s g, Forgoes p b s g → monitored (forwardMonitor p b) x (fun _ t g' => Forgoes p b t g') s g

theorem KeepsForgoing.bind {x y : Handler Unit} (hx : KeepsForgoing p b x)
    (hy : KeepsForgoing p b y) : KeepsForgoing p b (x >>= fun _ => y) := by
  intro s g hs
  rw [monitored_bind]
  apply monitored_mono (hx s g hs)
  intro _ t g' ht
  exact hy t g' ht

theorem sendMessage_forgoes (m : Message) : KeepsForgoing p b (sendMessage m) :=
  fun _ _ hs => monitored_sendMessage trivial hs

theorem requestLoop_forgoes (fuel : ℕ) : KeepsForgoing p b (requestLoop fuel) := by
  induction fuel with
  | zero => exact fun s g hs => hs
  | succ fuel ih =>
    intro s g hs
    rw [requestLoop, monitored_bind, monitored_get, monitored_ite]
    split_ifs
    · cases s.toRequest.keys with
      | nil => exact hs
      | cons key keys =>
        simp only [monitored_bind, monitored_perform, monitored_lift, monitored_modify,
          monitored_runIf]
        refine ⟨trivial, fun i entry hentry offset _ => ?_⟩
        have hrest := ih _ g (hs.request (eq_some_of_entry hentry) (UInt32.ofNat offset))
        split_ifs
        · exact monitored_sendMessage trivial hrest
        · exact hrest
    · exact hs

theorem requestMoreBlocks_forgoes : KeepsForgoing p b requestMoreBlocks := by
  intro s g hs
  rw [requestMoreBlocks, monitored_bind, monitored_get, monitored_ite]
  split_ifs
  · exact hs
  · exact requestLoop_forgoes _ s g hs

theorem updateMyInterestedStatus_forgoes : KeepsForgoing p b updateMyInterestedStatus := by
  intro s g hs
  rw [updateMyInterestedStatus]
  simp only [monitored_bind, monitored_get, monitored_ite, monitored_modify, monitored_pure]
  split_ifs
  · exact monitored_sendMessage trivial (hs.congr rfl rfl)
  · exact monitored_sendMessage trivial (hs.congr rfl rfl)
  · exact hs

theorem update_and_request_forgoes :
    KeepsForgoing p b (do updateMyInterestedStatus; requestMoreBlocks) :=
  updateMyInterestedStatus_forgoes.bind requestMoreBlocks_forgoes

theorem queueBlocks_forgoes (q : UInt32) : KeepsForgoing p b (queueBlocks q) := by
  intro s g hs
  simp only [queueBlocks, requireIncompleteBlocks, monitored_bind, monitored_perform,
    monitored_lift, monitored_modify]
  refine ⟨trivial, fun answer blocks hanswer => ?_⟩
  cases answer with
  | none => cases hanswer
  | some blocks' =>
    cases hanswer
    refine ⟨(queueBlock_foldl (p := p) (b := b) q blocks hs.keys).1, fun hg hasks => ?_⟩
    simp only [forwardMonitor, Bool.and_eq_true, Bool.not_eq_true', Bool.and_eq_false_iff,
      decide_eq_false_iff_not] at hg
    rcases asksFor_of_foldl q blocks hasks with hasks | ⟨hq, hmem⟩
    · exact hs.forgone hg.1 hasks
    · rcases hg.2 with hne | hne
      · exact hne hq
      · exact hne hmem

theorem bitfieldLoop_forgoes (bytes : Bytes) (indices : List ℕ) :
    KeepsForgoing p b (bitfieldLoop bytes indices) := by
  induction indices with
  | nil => exact fun s g hs => hs
  | cons haveIndex rest ih =>
    intro s g hs
    simp only [bitfieldLoop, monitored_bind, monitored_lift, monitored_get, monitored_modify,
      monitored_runIf]
    intro byte _ hasPieces _
    split_ifs
    · rw [← monitored_bind]
      exact (queueBlocks_forgoes _).bind ih _ g (hs.congr rfl rfl)
    · exact ih _ g (hs.congr rfl rfl)

/-- The handlers of the requesting side keep forgoing the block; the one of a requested block
hands it on. -/
theorem handleIpc_forgoes {ipc : IPC} (hupload : isUploadEvent ipc = false) (hs : Forgoes p b s g)
    (happart : RequestsApart s)
    (hrequested : ∀ q offset data, ipc = .message (.piece q offset data) →
      s.me.requests.has q (blockIndexOf offset) = true) :
    monitored (forwardMonitor p b) (handleIpc ipc) (fun _ t g' => Forgoes p b t g') s g := by
  cases ipc with
  | message m =>
    cases m with
    | keepAlive => exact hs
    | choke => exact hs.congr rfl rfl
    | unChoke =>
      rw [handleIpc, processMessage, monitored_bind, monitored_get, monitored_ite]
      split_ifs
      · rw [monitored_bind, monitored_modify]
        exact requestMoreBlocks_forgoes _ g (hs.congr rfl rfl)
      · exact hs
    | «have» haveIndex =>
      rw [handleIpc, processMessage, monitored_bind, monitored_get, monitored_bind,
        monitored_lift]
      intro hasPieces _
      rw [monitored_bind, monitored_modify]
      exact (queueBlocks_forgoes _).bind update_and_request_forgoes _ g (hs.congr rfl rfl)
    | bitfield bytes =>
      exact (bitfieldLoop_forgoes bytes _).bind update_and_request_forgoes s g hs
    | piece q offset data =>
      have hhas := hrequested q offset data rfl
      have hforgone : Forgoes p b
          { s with me := { s.me with requests := (s.me.requests.remove q (blockIndexOf offset)).2 } }
          (g || (decide (q = p) && decide (blockIndexOf offset = b))) := by
        refine ⟨hs.keys, fun hg hasks => ?_⟩
        simp only [Bool.or_eq_true, Bool.and_eq_true, decide_eq_true_eq] at hg
        rcases hg with hg | ⟨rfl, rfl⟩
        · refine hs.forgone hg (hasks.imp id fun hhas' => ?_)
          rw [RequestQueue.has_iff_mem_keys] at hhas' ⊢
          exact (RequestQueue.keys_remove_sublist _ _ _).subset hhas'
        · rcases hasks with hwaits | hhas'
          · exact happart.disjoint _ hwaits (RequestQueue.has_iff_mem_keys.mp hhas)
          · rw [RequestQueue.not_has_remove happart.nodup] at hhas'
            cases hhas'
      rw [handleIpc, processMessage, monitored_bind, monitored_modify, monitored_bind,
        sendDownload, monitored_bind, monitored_perform]
      refine ⟨trivial, fun sent => ?_⟩
      rw [monitored_lift]
      intro _ _
      exact update_and_request_forgoes _ _ hforgone
    | port => trivial
    | _ => cases hupload
  | blockCompleted q c =>
    have hremoved := hs.remove q c
    rw [handleIpc, monitored_bind, monitored_modify, monitored_bind, monitored_get]
    simp only [monitored_bind, monitored_modify]
    cases (s.me.requests.remove q c).1 with
    | none => exact hremoved
    | some r => exact monitored_sendMessage trivial hremoved
  | pieceCompleted q =>
    rw [handleIpc, monitored_bind, monitored_get, monitored_bind, monitored_lift]
    intro hasPieces _
    rw [monitored_bind, monitored_modify]
    exact updateMyInterestedStatus_forgoes.bind (sendMessage_forgoes _) _ g (hs.congr rfl rfl)
  | downloadCompleted => exact updateMyInterestedStatus_forgoes s g hs
  | blockUploaded => cases hupload

end PeerConnection
end TorrentClient
