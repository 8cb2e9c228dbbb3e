import TorrentClient.ConnectionSteps
import TorrentClient.ReportedBlocks

/-!
# What a connection asks for

A connection asks for a block when the block waits in its map or is requested in its queue.
The handlers keep asking for a block as long as the download reports it: the calls they make
are specified for one block, by what the download task answers while it reports the block.
-/
namespace TorrentClient
open EffectPrograms

/-- What the calls guarantee while the download of `d` reports the block: its piece is
reported with the block, unless a block is on its way that completes the piece. -/
def whileReported (sha1 : Bytes → Sha1) (d : Download) (p b : UInt32) :
    CallSpec Call Call.Reply
  | .download m, post => Download.Completes sha1 d p m ∨ ∀ r, post r
  | .requireIncompleteBlocks q, post =>
    ∀ r, (q = p → ∀ blocks, r = some blocks → b ∈ blocks.map Prod.fst) → post r
  | .send _, post => ∀ r, post r
  | .requireData _, post => ∀ r, post r
  | .firstKey _, post => ∀ r, post r

theorem whileReported_mono (sha1 : Bytes → Sha1) (d : Download) (p b : UInt32) :
    (whileReported sha1 d p b).Mono := by
  intro e post post' h hpost
  cases e with
  | download m => exact hpost.imp id fun hall r => h r (hall r)
  | requireIncompleteBlocks q => exact fun r hr => h r (hpost r hr)
  | send m => exact fun r => h r (hpost r)
  | requireData request => exact fun r => h r (hpost r)
  | firstKey n => exact fun r => h r (hpost r)

namespace PeerConnection
open Task

/-- The block waits to be requested or is requested. -/
def AsksFor (conn : PeerConnection) (p b : UInt32) : Prop :=
  (p, b) ∈ conn.toRequest ∨ conn.me.requests.has p b = true

/-- The entries of the map are what their keys say. -/
def KeysMatch (conn : PeerConnection) : Prop :=
  ∀ key entry, conn.toRequest.lookup key = some entry → (entry.1, entry.2.1) = key

/-- The connection asks for the block if the peer has its piece. -/
structure Asking (p b : UInt32) (conn : PeerConnection) : Prop where
  keys : conn.KeysMatch
  asks : conn.he.hasPieces[p.toNat]? = some true → conn.AsksFor p b

variable {sha1 : Bytes → Sha1} {d : Download} {p b : UInt32} {s t : PeerConnection}

theorem new_asking (havePieces : List Bool) : Asking p b (new havePieces) := by
  constructor
  · intro key entry h
    cases h
  · intro h
    simp [new, PeerMetadata.new, List.getElem?_replicate] at h

theorem Asking.congr (h : Asking p b s) (htoRequest : t.toRequest = s.toRequest)
    (hrequests : t.me.requests = s.me.requests) (hhe : t.he.hasPieces = s.he.hasPieces) :
    Asking p b t := by
  obtain ⟨hkeys, hasks⟩ := h
  constructor
  · rw [KeysMatch, htoRequest]
    exact hkeys
  · rw [AsksFor, htoRequest, hrequests, hhe]
    exact hasks

/-! ### The map and the queue -/

theorem KeysMatch.insert (h : s.KeysMatch) (p b l : UInt32) :
    KeysMatch { s with toRequest := s.toRequest.insert (p, b) (p, b, l) } := by
  intro key entry hentry
  by_cases hkey : key = (p, b)
  · subst hkey
    rw [AList.lookup_insert] at hentry
    cases hentry
    rfl
  · rw [AList.lookup_insert_ne hkey] at hentry
    exact h key entry hentry

theorem KeysMatch.erase (h : s.KeysMatch) (target : UInt32 × UInt32) :
    KeysMatch { s with toRequest := s.toRequest.erase target } := by
  intro key entry hentry
  by_cases hkey : key = target
  · subst hkey
    rw [AList.lookup_erase] at hentry
    cases hentry
  · rw [AList.lookup_erase_ne hkey] at hentry
    exact h key entry hentry

theorem KeysMatch.queueBlock (h : s.KeysMatch) (q : UInt32) (block : UInt32 × UInt32) :
    (queueBlock q s block).KeysMatch := by
  rw [PeerConnection.queueBlock]
  split_ifs
  · exact h
  · exact h.insert q block.1 block.2

theorem AsksFor.queueBlock (h : s.AsksFor p b) (q : UInt32) (block : UInt32 × UInt32) :
    (queueBlock q s block).AsksFor p b := by
  rw [PeerConnection.queueBlock]
  split_ifs
  · exact h
  · exact h.imp (fun hmem => (AList.mem_insert _).mpr (Or.inr hmem)) id

theorem asksFor_queueBlock (s : PeerConnection) (p b l : UInt32) :
    (queueBlock p s (b, l)).AsksFor p b := by
  rw [PeerConnection.queueBlock]
  split_ifs with hhas
  · exact Or.inr hhas
  · exact Or.inl ((AList.mem_insert _).mpr (Or.inl rfl))

/-- All blocks of the list are asked for afterwards, and all that were before. -/
theorem queueBlock_foldl (q : UInt32) (blocks : List (UInt32 × UInt32)) (hs : s.KeysMatch) :
    (blocks.foldl (queueBlock q) s).KeysMatch ∧
      (s.AsksFor p b ∨ (q = p ∧ b ∈ blocks.map Prod.fst) →
        (blocks.foldl (queueBlock q) s).AsksFor p b) := by
  induction blocks generalizing s with
  | nil =>
    refine ⟨hs, ?_⟩
    rintro (h | ⟨_, h⟩)
    · exact h
    · cases h
  | cons block blocks ih =>
    obtain ⟨hkeys, hasks⟩ := ih (hs.queueBlock q block)
    refine ⟨hkeys, fun h => hasks ?_⟩
    rcases h with h | ⟨rfl, h⟩
    · exact Or.inl (h.queueBlock q block)
    · rcases List.mem_cons.mp h with rfl | h
      · exact Or.inl (asksFor_queueBlock s q block.1 block.2)
      · exact Or.inr ⟨rfl, h⟩

/-- Taking another block out of the map and the queue changes nothing for this one. -/
theorem Asking.remove (h : Asking p b s) {q c : UInt32} (hne : ¬ (p = q ∧ b = c))
    (ht : t.toRequest = s.toRequest ∨ t.toRequest = s.toRequest.erase (q, c))
    (hr : t.me.requests = (s.me.requests.remove q c).2)
    (hhe : t.he.hasPieces = s.he.hasPieces) : Asking p b t := by
  obtain ⟨hkeys, hasks⟩ := h
  have hhas : t.me.requests.has p b = s.me.requests.has p b := by
    rw [hr, RequestQueue.has_remove_of_ne hne]
  constructor
  · rcases ht with ht | ht
    · rw [KeysMatch, ht]
      exact hkeys
    · rw [KeysMatch, ht]
      exact hkeys.erase (q, c)
  · intro hhave
    rw [hhe] at hhave
    refine (hasks hhave).imp (fun hmem => ?_) (fun hold => hhas.trans hold)
    rcases ht with ht | ht
    · rw [ht]
      exact hmem
    · rw [ht, AList.mem_erase]
      exact ⟨fun heq => hne (Prod.mk.inj heq), hmem⟩

/-- A block moves from the map into the queue. -/
theorem Asking.request (h : Asking p b s) {target : UInt32 × UInt32}
    {entry : UInt32 × UInt32 × UInt32} (hentry : s.toRequest.lookup target = some entry)
    (offset : UInt32) :
    Asking p b { s with
      toRequest := s.toRequest.erase target
      me := { s.me with
        requests := (s.me.requests.add entry.1 entry.2.1 offset entry.2.2).2 } } := by
  constructor
  · exact h.keys.erase target
  · intro hhave
    have hkey := h.keys target entry hentry
    simp only [AsksFor, RequestQueue.has_add, Bool.or_eq_true]
    rcases h.asks hhave with hmem | hhas
    · by_cases heq : (p, b) = target
      · rw [← heq] at hkey
        obtain ⟨rfl, rfl⟩ := Prod.mk.inj hkey
        simp
      · exact Or.inl (AList.mem_erase.mpr ⟨heq, hmem⟩)
    · exact Or.inr (Or.inl hhas)

/-- The peer gets or loses a piece; it does not get the one of the block. -/
theorem Asking.assign (h : Asking p b s) {i : ℕ} {value : Bool} {hasPieces : List Bool}
    (hassign : assignPiece s.he.hasPieces i value = .ok hasPieces)
    (hvalue : i = p.toNat → value = false) :
    Asking p b { s with he := { s.he with hasPieces } } := by
  refine ⟨h.keys, fun hhave => h.asks ?_⟩
  rw [assignPiece] at hassign
  split at hassign
  · cases hassign
    by_cases hi : i = p.toNat
    · subst hi
      rw [hvalue rfl] at hhave
      simp [List.getElem?_set] at hhave
    · rwa [List.getElem?_set_ne hi] at hhave
  · cases hassign

/-! ### The handlers -/

/-- A handler goes on asking for the block while the download reports it. -/
def KeepsAsking (sha1 : Bytes → Sha1) (d : Download) (p b : UInt32) (x : Handler Unit) : Prop :=
  ∀ s, Asking p b s → wp (whileReported sha1 d p b) x (fun _ t => Asking p b t) s

theorem KeepsAsking.bind {x y : Handler Unit} (hx : KeepsAsking sha1 d p b x)
    (hy : KeepsAsking sha1 d p b y) : KeepsAsking sha1 d p b (x >>= fun _ => y) := by
  intro s hs
  rw [wp_bind]
  apply wp_mono (whileReported_mono sha1 d p b) (hx s hs)
  intro _ t ht
  exact hy t ht

theorem wp_sendMessage_reported (m : Message) (post : Unit → PeerConnection → Prop) :
    wp (whileReported sha1 d p b) (sendMessage m) post s = post () s := by
  apply propext
  constructor
  · intro h
    exact h true
  · intro h sent
    cases sent with
    | true => exact h
    | false => trivial

theorem wp_sendDownload_reported {m : Message} {post : Unit → PeerConnection → Prop}
    (h : Download.Completes sha1 d p m ∨ post () s) :
    wp (whileReported sha1 d p b) (sendDownload m) post s := by
  refine h.imp id fun hpost sent => ?_
  cases sent with
  | true => exact hpost
  | false => trivial

theorem wp_requireIncompleteBlocks_reported {q : UInt32}
    {post : List (UInt32 × UInt32) → PeerConnection → Prop}
    (h : ∀ blocks, (q = p → b ∈ blocks.map Prod.fst) → post blocks s) :
    wp (whileReported sha1 d p b) (requireIncompleteBlocks q) post s := by
  intro answer hanswer
  cases answer with
  | none => trivial
  | some blocks => exact h blocks fun hq => hanswer hq blocks rfl

theorem wp_requireData_reported {r : RequestMetadata} {post : Bytes → PeerConnection → Prop}
    (h : ∀ data, post data s) : wp (whileReported sha1 d p b) (requireData r) post s := by
  intro answer
  cases answer with
  | none => trivial
  | some data => exact h data

theorem whileReported_firstKey (n : ℕ) (post : Fin (n + 1) → Prop) :
    whileReported sha1 d p b (.firstKey n) post = ∀ i, post i := rfl

theorem sendMessage_asking (m : Message) : KeepsAsking sha1 d p b (sendMessage m) := by
  intro s hs
  rw [wp_sendMessage_reported]
  exact hs

/-- An entry that was there for the loop is one of the map. -/
theorem eq_some_of_entry {found : Option (UInt32 × UInt32 × UInt32)}
    {entry : UInt32 × UInt32 × UInt32}
    (h : (match found with
      | some entry => (.ok entry : Except (Fault String) _)
      | none => .error .panic) = .ok entry) : found = some entry := by
  cases found with
  | none => cases h
  | some entry' =>
    cases h
    rfl

theorem requestLoop_asking (fuel : ℕ) : KeepsAsking sha1 d p b (requestLoop fuel) := by
  induction fuel with
  | zero => exact fun s hs => hs
  | succ fuel ih =>
    intro s hs
    rw [requestLoop, wp_bind, wp_get, wp_ite]
    split_ifs
    · cases s.toRequest.keys with
      | nil => exact hs
      | cons key keys =>
        simp only [wp_bind, wp_perform, whileReported_firstKey, wp_lift, wp_modify,
          wp_runIf, wp_sendMessage_reported]
        intro i entry hentry offset _
        rw [ite_self]
        apply ih
        exact hs.request (eq_some_of_entry hentry) _
    · exact hs

theorem requestMoreBlocks_asking : KeepsAsking sha1 d p b requestMoreBlocks := by
  intro s hs
  rw [requestMoreBlocks, wp_bind, wp_get, wp_ite]
  split_ifs
  · exact hs
  · exact requestLoop_asking _ s hs

theorem updateMyInterestedStatus_asking : KeepsAsking sha1 d p b updateMyInterestedStatus := by
  intro s hs
  rw [updateMyInterestedStatus]
  simp only [wp_bind, wp_get, wp_ite, wp_modify, wp_sendMessage_reported, wp_pure]
  split_ifs
  · exact hs.congr rfl rfl rfl
  · exact hs

theorem uploadNextBlock_asking : KeepsAsking sha1 d p b uploadNextBlock := by
  intro s hs
  rw [uploadNextBlock]
  simp only [wp_bind, wp_get, wp_ite, wp_modify, wp_pure]
  split_ifs
  · exact hs
  · cases s.he.requests.pop.1 with
    | none => exact hs.congr rfl rfl rfl
    | some r =>
      rw [wp_bind]
      apply wp_requireData_reported
      intro data
      rw [wp_bind, wp_modify, wp_sendMessage_reported]
      exact hs.congr rfl rfl rfl

/-- The blocks of the piece are asked for once its incomplete blocks are queued. -/
theorem queueBlocks_asking {q : UInt32} (hkeys : s.KeysMatch) (h : q = p ∨ Asking p b s) :
    wp (whileReported sha1 d p b) (queueBlocks q) (fun _ t => Asking p b t) s := by
  rw [queueBlocks, wp_bind]
  apply wp_requireIncompleteBlocks_reported
  intro blocks hblocks
  rw [wp_modify]
  obtain ⟨hkeys', hasks'⟩ := queueBlock_foldl (p := p) (b := b) q blocks hkeys
  refine ⟨hkeys', fun hhave => hasks' ?_⟩
  rw [(queueBlock_foldl_frame q blocks s).1] at hhave
  rcases h with hq | hasking
  · exact Or.inr ⟨hq, hblocks hq⟩
  · exact Or.inl (hasking.asks hhave)

/-- The peer has got a piece, whose blocks are queued. -/
theorem queueBlocks_assigned (hs : Asking p b s) {i : ℕ} {hasPieces : List Bool}
    (hassign : assignPiece s.he.hasPieces i true = .ok hasPieces) {q : UInt32}
    (hq : i = p.toNat → q = p) :
    wp (whileReported sha1 d p b) (queueBlocks q) (fun _ t => Asking p b t)
      { s with he := { s.he with hasPieces } } := by
  refine queueBlocks_asking (s := { s with he := { s.he with hasPieces } }) hs.keys ?_
  by_cases hi : i = p.toNat
  · exact Or.inl (hq hi)
  · exact Or.inr (hs.assign hassign fun heq => absurd heq hi)

theorem bitfieldLoop_asking (bytes : Bytes) (indices : List ℕ) :
    KeepsAsking sha1 d p b (bitfieldLoop bytes indices) := by
  induction indices with
  | nil => exact fun s hs => hs
  | cons haveIndex rest ih =>
    intro s hs
    simp only [bitfieldLoop, wp_bind, wp_lift, wp_get, wp_modify, wp_runIf]
    intro byte _ hasPieces hassign
    cases hvalue : bitfieldBit byte haveIndex with
    | true =>
      rw [hvalue] at hassign
      rw [if_pos rfl]
      apply wp_mono (whileReported_mono sha1 d p b) (queueBlocks_assigned hs hassign ?_)
      · intro _ t ht
        exact ih t ht
      · intro hi
        rw [hi, UInt32.ofNat_toNat]
    | false =>
      rw [hvalue] at hassign
      exact ih _ (hs.assign hassign fun _ => rfl)

theorem update_then_request_asking :
    KeepsAsking sha1 d p b (do updateMyInterestedStatus; requestMoreBlocks) :=
  updateMyInterestedStatus_asking.bind requestMoreBlocks_asking

/-- A piece message takes its block out of the queue and sends it to the download. -/
theorem piece_asking (hs : Asking p b s) {q offset : UInt32} {data : Bytes}
    (hpiece : q = p → blockIndexOf offset = b →
      Download.Completes sha1 d p (.piece q offset data) ∨
        (s.he.hasPieces[p.toNat]? = some true → s.me.requests.has p b = false)) :
    wp (whileReported sha1 d p b) (processMessage (.piece q offset data))
      (fun _ t => Asking p b t) s := by
  rw [processMessage, wp_bind, wp_modify, wp_bind]
  apply wp_sendDownload_reported
  by_cases hblock : p = q ∧ b = blockIndexOf offset
  · obtain ⟨rfl, rfl⟩ := hblock
    refine (hpiece rfl rfl).imp id fun hhas => ?_
    apply update_then_request_asking
    refine ⟨hs.keys, fun hhave => ?_⟩
    rcases hs.asks hhave with hmem | hrequested
    · exact Or.inl hmem
    · rw [hhas hhave] at hrequested
      cases hrequested
  · right
    exact update_then_request_asking _ (hs.remove hblock (Or.inl rfl) rfl rfl)

/-- An event is handled with the block asked for, unless it is the block itself, taken out
of the queue for data that does not complete its piece. -/
theorem handleIpc_asking (hs : Asking p b s) {ipc : IPC}
    (hpiece : ∀ offset data, ipc = .message (.piece p offset data) → blockIndexOf offset = b →
      Download.Completes sha1 d p (.piece p offset data) ∨
        (s.he.hasPieces[p.toNat]? = some true → s.me.requests.has p b = false))
    (hblock : ∀ c, ipc ≠ .blockCompleted p c) :
    wp (whileReported sha1 d p b) (handleIpc ipc) (fun _ t => Asking p b t) s := by
  cases ipc with
  | message m =>
    cases m with
    | keepAlive => exact hs
    | choke => exact hs.congr rfl rfl rfl
    | unChoke =>
      rw [handleIpc, processMessage, wp_bind, wp_get, wp_ite]
      split_ifs
      · rw [wp_bind, wp_modify]
        exact requestMoreBlocks_asking _ (hs.congr rfl rfl rfl)
      · exact hs
    | interested =>
      rw [handleIpc, processMessage, wp_bind, wp_modify, wp_bind, wp_get, wp_ite]
      split_ifs
      · rw [wp_bind, wp_modify, wp_bind, wp_sendMessage_reported]
        exact uploadNextBlock_asking _ (hs.congr rfl rfl rfl)
      · exact hs.congr rfl rfl rfl
    | notInterested => exact hs.congr rfl rfl rfl
    | «have» haveIndex =>
      rw [handleIpc, processMessage, wp_bind, wp_get, wp_bind, wp_lift]
      intro hasPieces hassign
      rw [wp_bind, wp_modify, wp_bind]
      apply wp_mono (whileReported_mono sha1 d p b)
        (queueBlocks_assigned hs hassign fun hi => UInt32.toNat_inj.mp hi)
      intro _ t ht
      exact update_then_request_asking t ht
    | bitfield bytes =>
      exact ((bitfieldLoop_asking bytes _).bind update_then_request_asking) s hs
    | request pieceIndex offset length =>
      rw [handleIpc, processMessage, wp_bind, wp_modify]
      exact uploadNextBlock_asking _ (hs.congr rfl rfl rfl)
    | piece q offset data =>
      rw [handleIpc]
      apply piece_asking hs
      rintro rfl hindex
      exact hpiece offset data rfl hindex
    | cancel pieceIndex offset length => exact hs.congr rfl rfl rfl
    | port => trivial
  | blockCompleted q c =>
    have hne : ¬ (p = q ∧ b = c) := fun heq => hblock c (by rw [heq.1])
    rw [handleIpc, wp_bind, wp_modify, wp_bind, wp_get]
    simp only [wp_bind, wp_modify]
    cases (s.me.requests.remove q c).1 with
    | none => exact hs.remove hne (Or.inr rfl) rfl rfl
    | some r =>
      rw [wp_sendMessage_reported]
      exact hs.remove hne (Or.inr rfl) rfl rfl
  | pieceCompleted pieceIndex =>
    rw [handleIpc, wp_bind, wp_get, wp_bind, wp_lift]
    intro hasPieces _
    rw [wp_bind, wp_modify]
    exact (updateMyInterestedStatus_asking.bind (sendMessage_asking _)) _ (hs.congr rfl rfl rfl)
  | downloadCompleted => exact updateMyInterestedStatus_asking s hs
  | blockUploaded =>
    rw [handleIpc, wp_bind, wp_modify]
    exact uploadNextBlock_asking _ (hs.congr rfl rfl rfl)

end PeerConnection
end TorrentClient
