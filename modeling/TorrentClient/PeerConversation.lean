import TorrentClient.ConnectionCalls
import TorrentClient.WatchedRounds
import TorrentClient.RequestExchanges

/-!
# The conversation with a peer

What a connection says depends on what both sides have said before. `Conversation` is what a
listener knows who hears the events of the connection and its calls, and `permits` are the
rules: nothing is requested while the peer chokes us or does not know of our interest, interest
is announced when it changes, the peer is unchoked once, and a block is sent only in answer to
the oldest request that waits, with the data that the download task has given out for it.
-/
namespace TorrentClient
open EffectPrograms TransitionRuns

structure Conversation where
  /-- the last of the peer's `Choke` and `UnChoke` -/
  chokedUs : Bool
  /-- our last `Interested` or `NotInterested` -/
  interested : Bool
  /-- whether we have sent an `UnChoke` -/
  unchokedHim : Bool
  /-- the peer's last `Interested` or `NotInterested` -/
  heInterested : Bool
  /-- whether a block was sent and not reported as written -/
  uploading : Bool
  /-- the requests of the peer that wait -/
  asked : RequestQueue
  /-- the request that was taken out of the queue, and the data for it -/
  fetched : Option (RequestMetadata × Bytes)
  /-- the event that is handled -/
  handling : Option IPC

namespace Conversation

def new : Conversation := ⟨true, false, false, false, false, RequestQueue.new, none, none⟩

/-- The request is the next one to be served, and may be. -/
def Serves (g : Conversation) (r : RequestMetadata) : Prop :=
  g.unchokedHim = true ∧ g.heInterested = true ∧ g.uploading = false ∧ g.asked.pop.1 = some r

/-- The rules for what a connection sends and asks for. -/
def permits : Call → Conversation → Prop
  | .send .interested, g => g.interested = false
  | .send .notInterested, g => g.interested = true
  | .send .unChoke, g => g.unchokedHim = false ∧ g.heInterested = true
  | .send (.request ..), g => g.chokedUs = false ∧ g.interested = true
  | .send (.piece p offset data), g =>
    ∃ r, g.fetched = some (r, data) ∧ r.pieceIndex = p ∧ r.offset = offset
  | .send (.have p), g => g.handling = some (.pieceCompleted p)
  | .send (.cancel p offset _), g =>
    ∃ b, g.handling = some (.blockCompleted p b) ∧ offset.toNat = b.toNat * blockSize
  | .send _, _ => False
  | .download m, g => g.handling = some (.message m)
  | .requireData r, g => g.Serves r
  | _, _ => True

def afterCall : (e : Call) → e.Reply → Conversation → Conversation
  | .send .interested, _, g => { g with interested := true }
  | .send .notInterested, _, g => { g with interested := false }
  | .send .unChoke, _, g => { g with unchokedHim := true }
  | .send (.piece ..), _, g => { g with uploading := true, fetched := none }
  | .requireData r, reply, g =>
    { g with asked := g.asked.pop.2, fetched := reply.map (r, ·) }
  | _, _, g => g

/-- What a message or a notification changes. -/
def hearIpc : IPC → Conversation → Conversation
  | .message .choke, g => { g with chokedUs := true }
  | .message .unChoke, g => { g with chokedUs := false }
  | .message .interested, g => { g with heInterested := true }
  | .message .notInterested, g => { g with heInterested := false }
  | .message (.request p offset length), g =>
    { g with asked := (g.asked.add p (blockIndexOf offset) offset length).2 }
  | .message (.cancel p offset _), g =>
    { g with asked := (g.asked.remove p (blockIndexOf offset)).2 }
  | .blockUploaded, g => { g with uploading := false }
  | _, g => g

end Conversation

/-- The listener. -/
def conversationWatch : Watch IPC Call Call.Reply Conversation where
  allows := Conversation.permits
  after := Conversation.afterCall
  hears ipc g := { g.hearIpc ipc with handling := some ipc }

namespace RequestQueue

theorem pop_of_none {q : RequestQueue} (h : q.pop.1 = none) : q.pop.2 = q := by
  rw [pop] at h ⊢
  split at h
  · rfl
  · cases h

theorem matches_of_remove {q : RequestQueue} {p b : UInt32} {r : RequestMetadata}
    (h : (q.remove p b).1 = some r) : r ∈ q.requests ∧ r.pieceIndex = p ∧ r.blockIndex = b := by
  cases hhas : q.has p b with
  | false =>
    rw [remove_of_not_has hhas] at h
    cases h
  | true =>
    obtain ⟨before, r', after, hq, hmatch, hremove⟩ := remove_of_has hhas
    rw [hremove] at h
    cases h
    rw [hq]
    exact ⟨List.mem_append_cons_self, RequestMetadata.matchesBlock_iff.mp hmatch⟩

/-- The offset of every request is that of its block. -/
def Aligned (q : RequestQueue) : Prop :=
  ∀ r ∈ q.requests, r.offset.toNat = r.blockIndex.toNat * blockSize

theorem Aligned.add {q : RequestQueue} (h : q.Aligned) {b offset : UInt32}
    (hoffset : offset.toNat = b.toNat * blockSize) (p blockLength : UInt32) :
    (q.add p b offset blockLength).2.Aligned := by
  cases hhas : q.has p b with
  | true =>
    rw [add_of_has hhas]
    exact h
  | false =>
    rw [add_of_not_has hhas]
    intro r hr
    rcases List.mem_append.mp hr with hr | hr
    · exact h r hr
    · obtain rfl := List.mem_singleton.mp hr
      exact hoffset

theorem Aligned.remove {q : RequestQueue} (h : q.Aligned) (p b : UInt32) :
    (q.remove p b).2.Aligned := by
  cases hhas : q.has p b with
  | false =>
    rw [remove_of_not_has hhas]
    exact h
  | true =>
    obtain ⟨before, r', after, hq, -, hremove⟩ := remove_of_has hhas
    rw [hremove]
    intro r hr
    apply h
    rw [hq]
    rcases List.mem_append.mp hr with hr | hr
    · exact List.mem_append_left _ hr
    · exact List.mem_append_right _ (List.mem_cons_of_mem _ hr)

end RequestQueue

namespace PeerConnection
open Task

variable {s t : PeerConnection} {g : Conversation}

/-- Between two events the listener knows the flags and the upload queue of the connection, and our
requests are for whole blocks. -/
structure Reflects (s : PeerConnection) (g : Conversation) : Prop where
  chokedUs : g.chokedUs = s.me.isChoked
  interested : g.interested = s.me.isInterested
  unchokedHim : g.unchokedHim = !s.he.isChoked
  heInterested : g.heInterested = s.he.isInterested
  uploading : g.uploading = s.uploadInProgress
  asked : g.asked = s.he.requests
  fetched : g.fetched = none
  aligned : s.me.requests.Aligned

theorem new_reflects (havePieces : List Bool) : Reflects (new havePieces) .new :=
  ⟨rfl, rfl, rfl, rfl, rfl, rfl, rfl, fun _ hr => nomatch hr⟩

/-- A part of a handler that keeps to the rules. -/
def Converses (x : Handler Unit) : Prop :=
  ∀ s g, Reflects s g → monitored conversationWatch.toMonitor x
    (fun _ t g' => Reflects t g' ∧ g'.handling = g.handling) s g

theorem Converses.bind {x y : Handler Unit} (hx : Converses x) (hy : Converses y) :
    Converses (x >>= fun _ => y) := by
  intro s g hs
  rw [monitored_bind]
  apply monitored_mono (hx s g hs)
  rintro _ t g' ⟨ht, hhandling⟩
  rw [← hhandling]
  exact hy t g' ht

theorem converses_pure : Converses (pure ()) := fun _ _ hs => ⟨hs, rfl⟩

theorem updateMyInterestedStatus_converses : Converses updateMyInterestedStatus := by
  intro s g hs
  rw [updateMyInterestedStatus]
  simp only [monitored_bind, monitored_get, monitored_ite, monitored_modify, monitored_pure]
  split_ifs with hchange hinterested
  · refine monitored_sendMessage ?_ ⟨{ hs with interested := hinterested.symm }, rfl⟩
    rw [hinterested, bne_iff_ne, ne_eq, Bool.not_eq_true] at hchange
    exact hs.interested.trans hchange
  · rw [Bool.not_eq_true] at hinterested
    refine monitored_sendMessage ?_ ⟨{ hs with interested := hinterested.symm }, rfl⟩
    rw [hinterested, bne_iff_ne, ne_eq, Bool.not_eq_false] at hchange
    exact hs.interested.trans hchange
  · exact ⟨hs, trivial⟩

theorem toNat_of_checkedMul32 {b : UInt32} {offset : ℕ}
    (h : checkedMul32 b.toNat blockSize = (.ok offset : Outcome ℕ)) :
    (UInt32.ofNat offset).toNat = b.toNat * blockSize := by
  rw [checkedMul32] at h
  split at h
  · rename_i hlt
    cases h
    exact Nat.mod_eq_of_lt hlt
  · cases h

/-- The rounds of the request loop, which runs while we are unchoked and have announced our
interest. -/
theorem requestLoop_converses (fuel : ℕ) {s : PeerConnection} {g : Conversation}
    (hs : Reflects s g) (hchoked : s.me.isChoked = false) (hinterested : s.me.isInterested = true) :
    monitored conversationWatch.toMonitor (requestLoop fuel)
      (fun _ t g' => Reflects t g' ∧ g'.handling = g.handling) s g := by
  induction fuel generalizing s with
  | zero => exact ⟨hs, rfl⟩
  | succ fuel ih =>
    rw [requestLoop, monitored_bind, monitored_get, monitored_ite]
    split_ifs with hroom
    · cases s.toRequest.keys with
      | nil => exact ⟨hs, rfl⟩
      | cons key keys =>
        simp only [monitored_bind, monitored_perform, monitored_lift, monitored_modify,
          monitored_runIf]
        refine ⟨trivial, fun i entry _ offset hoffset => ?_⟩
        have haligned := hs.aligned.add (toNat_of_checkedMul32 hoffset) entry.1 entry.2.2
        split_ifs
        · refine monitored_sendMessage ⟨hs.chokedUs.trans hchoked, hs.interested.trans hinterested⟩ ?_
          exact ih { hs with aligned := haligned } hchoked hinterested
        · exact ih { hs with aligned := haligned } hchoked hinterested
    · exact ⟨hs, rfl⟩

theorem requestMoreBlocks_converses : Converses requestMoreBlocks := by
  intro s g hs
  rw [requestMoreBlocks, monitored_bind, monitored_get, monitored_ite]
  split_ifs with hidle
  · exact ⟨hs, rfl⟩
  · simp only [Bool.or_eq_true, not_or, Bool.not_eq_true, Bool.not_eq_false'] at hidle
    exact requestLoop_converses _ hs hidle.1.1 hidle.1.2

theorem update_and_request_converses :
    Converses (do updateMyInterestedStatus; requestMoreBlocks) :=
  updateMyInterestedStatus_converses.bind requestMoreBlocks_converses

theorem queueBlocks_converses (pieceIndex : UInt32) : Converses (queueBlocks pieceIndex) := by
  intro s g hs
  rw [queueBlocks, monitored_bind]
  refine monitored_requireIncompleteBlocks ⟨trivial, fun _ => rfl⟩ fun blocks => ?_
  rw [monitored_modify]
  obtain ⟨hhe, hupload, hme⟩ := queueBlock_foldl_frame pieceIndex blocks s
  refine ⟨?_, rfl⟩
  constructor
  · rw [hme, hs.chokedUs]
  · rw [hme, hs.interested]
  · rw [hhe, hs.unchokedHim]
  · rw [hhe, hs.heInterested]
  · rw [hupload, hs.uploading]
  · rw [hhe, hs.asked]
  · exact hs.fetched
  · rw [hme]
    exact hs.aligned

theorem bitfieldLoop_converses (bytes : Bytes) (indices : List ℕ) :
    Converses (bitfieldLoop bytes indices) := by
  induction indices with
  | nil => exact converses_pure
  | cons haveIndex rest ih =>
    intro s g hs
    simp only [bitfieldLoop, monitored_bind, monitored_lift, monitored_get, monitored_modify,
      monitored_runIf]
    intro byte _ hasPieces _
    split_ifs
    · rw [← monitored_bind]
      exact (queueBlocks_converses _).bind ih _ _ { hs with }
    · exact ih _ _ { hs with }

/-- The oldest request that waits is served, if that is allowed. -/
theorem uploadNextBlock_converses : Converses uploadNextBlock := by
  intro s g hs
  rw [uploadNextBlock, monitored_bind, monitored_get, monitored_ite]
  split_ifs with hidle
  · exact ⟨hs, rfl⟩
  · simp only [Bool.or_eq_true, not_or, Bool.not_eq_true, Bool.not_eq_false'] at hidle
    obtain ⟨⟨hupload, hchoked⟩, hinterested⟩ := hidle
    rw [monitored_bind, monitored_modify]
    cases hpop : s.he.requests.pop.1 with
    | none =>
      have hsame := RequestQueue.pop_of_none hpop
      exact ⟨{ hs with asked := hs.asked.trans hsame.symm }, rfl⟩
    | some r =>
      have hserves : g.Serves r := by
        refine ⟨?_, hs.heInterested.trans hinterested, hs.uploading.trans hupload, ?_⟩
        · rw [hs.unchokedHim, hchoked]
          rfl
        · rw [hs.asked, hpop]
      simp only [requireData, monitored_bind, monitored_perform, monitored_lift, monitored_modify]
      refine ⟨hserves, fun answer data hdata => ?_⟩
      cases answer with
      | none => cases hdata
      | some data' =>
        cases hdata
        refine monitored_sendMessage ⟨r, rfl, rfl, rfl⟩ ⟨?_, rfl⟩
        exact { hs with
          uploading := rfl
          asked := congrArg (fun q : RequestQueue => q.pop.2) hs.asked
          fetched := rfl }

/-- Every event is heard and then handled by the rules. -/
theorem handleIpc_watched : Watched handleIpc conversationWatch Reflects := by
  intro ipc s g hs
  have hdrop {x : Handler Unit} {g' : Conversation} {t : PeerConnection} (hx : Converses x)
      (ht : Reflects t g') : monitored conversationWatch.toMonitor x
        (fun _ t g' => Reflects t g') t g' :=
    monitored_mono (hx t g' ht) fun _ _ _ h => h.1
  cases ipc with
  | message m =>
    cases m with
    | keepAlive => exact { hs with }
    | choke => exact { hs with chokedUs := rfl }
    | unChoke =>
      rw [handleIpc, processMessage, monitored_bind, monitored_get, monitored_ite]
      split_ifs with hchoked
      · rw [monitored_bind, monitored_modify]
        exact hdrop requestMoreBlocks_converses { hs with chokedUs := rfl }
      · rw [Bool.not_eq_true] at hchoked
        exact { hs with chokedUs := hchoked.symm }
    | interested =>
      rw [handleIpc, processMessage, monitored_bind, monitored_modify, monitored_bind,
        monitored_get, monitored_ite]
      split_ifs with hchoked
      · rw [monitored_bind, monitored_modify, monitored_bind]
        refine monitored_sendMessage ⟨?_, rfl⟩ ?_
        · exact hs.unchokedHim.trans (by rw [hchoked]; rfl)
        · exact hdrop uploadNextBlock_converses { hs with unchokedHim := rfl, heInterested := rfl }
      · exact { hs with heInterested := rfl }
    | notInterested => exact { hs with heInterested := rfl }
    | «have» haveIndex =>
      rw [handleIpc, processMessage, monitored_bind, monitored_get, monitored_bind,
        monitored_lift]
      intro hasPieces _
      rw [monitored_bind, monitored_modify]
      exact hdrop ((queueBlocks_converses _).bind update_and_request_converses) { hs with }
    | bitfield bytes =>
      rw [handleIpc, processMessage, monitored_bind, monitored_get]
      exact hdrop ((bitfieldLoop_converses bytes _).bind update_and_request_converses) { hs with }
    | request p offset length =>
      rw [handleIpc, processMessage, monitored_bind, monitored_modify]
      exact hdrop uploadNextBlock_converses { hs with
        asked := congrArg (fun q : RequestQueue => (q.add p (blockIndexOf offset) offset length).2)
          hs.asked }
    | piece p offset data =>
      rw [handleIpc, processMessage, monitored_bind, monitored_modify, monitored_bind]
      refine monitored_sendDownload ⟨rfl, fun _ => rfl⟩ ?_
      exact hdrop update_and_request_converses { hs with aligned := hs.aligned.remove _ _ }
    | cancel p offset length =>
      exact { hs with
        asked := congrArg (fun q : RequestQueue => (q.remove p (blockIndexOf offset)).2) hs.asked }
    | port => trivial
  | blockCompleted p b =>
    rw [handleIpc, monitored_bind, monitored_modify, monitored_bind, monitored_get]
    simp only [monitored_bind, monitored_modify]
    cases hremoved : (s.me.requests.remove p b).1 with
    | none => exact { hs with aligned := hs.aligned.remove p b }
    | some r =>
      have haligned := hs.aligned.remove p b
      obtain ⟨hr, rfl, rfl⟩ := RequestQueue.matches_of_remove hremoved
      exact monitored_sendMessage ⟨r.blockIndex, rfl, hs.aligned r hr⟩
        { hs with aligned := haligned }
  | pieceCompleted p =>
    rw [handleIpc, monitored_bind, monitored_get, monitored_bind, monitored_lift]
    intro hasPieces _
    rw [monitored_bind, monitored_modify, monitored_bind]
    have hreflects : Reflects { s with me := { s.me with hasPieces } }
        (conversationWatch.hears (.pieceCompleted p) g) := { hs with }
    apply monitored_mono (updateMyInterestedStatus_converses _ _ hreflects)
    rintro _ t g' ⟨ht, hhandling⟩
    exact monitored_sendMessage hhandling ht
  | downloadCompleted => exact hdrop updateMyInterestedStatus_converses { hs with }
  | blockUploaded =>
    rw [handleIpc, monitored_bind, monitored_modify]
    exact hdrop uploadNextBlock_converses { hs with uploading := rfl }

/-- In every run, and in the next event whether its handler succeeds or fails, whatever the other
tasks answer, the connection keeps to the rules of the conversation; and its flags and its upload
queue are what the listener knows. -/
theorem conversation_kept {havePieces : List Bool}
    {trace : List (Step PeerConnection (Round IPC Call Call.Reply))}
    (run : Run (roundStep handleIpc) (new havePieces) trace s) :
    conversationWatch.Keeps .new (trace.map (·.label)) ∧
      Reflects s (conversationWatch.afterRounds .new (trace.map (·.label))) ∧
      ∀ ipc calls result, Program.Returns (handleIpc ipc s) calls result →
        conversationWatch.Keeps .new (trace.map (·.label) ++ [(ipc, calls)]) :=
  handleIpc_watched.run (new_reflects havePieces) run

/-- The peer is interested, asks for a block and gets it. -/
theorem conversation_kept_upload :
    ∃ (s : PeerConnection) (trace : List (Step PeerConnection (Round IPC Call Call.Reply))),
      Run (roundStep handleIpc) (new [true]) trace s ∧
      trace.map (·.label.1) = [.message .interested, .message (.request 0 0 1), .blockUploaded] ∧
      conversationWatch.Keeps .new (trace.map (·.label)) := by
  obtain ⟨s, hrun⟩ : ∃ s, execute (answerWith []) (new [true])
      [.message .interested, .message (.request 0 0 1), .blockUploaded] = some s := ⟨_, rfl⟩
  obtain ⟨trace, run, hlabels⟩ := run_of_execute Run.nil hrun
  obtain ⟨trace', run', hlabels'⟩ := run_of_ipcStep run
  exact ⟨s, trace', run', hlabels'.trans hlabels, (conversation_kept run').1⟩

end PeerConnection
end TorrentClient
