import TorrentClient.SeededDownload
import TorrentClient.MessageSafety
import TorrentClient.PieceTiling

/-!
# The calls of a connection to a seeder

With what a seeder says and what the download task answers, every handler of the connection ends
without an error. It asks the seeder for blocks of the torrent only, hands correct blocks to the
download task only, and never asks for data to upload. What the seeder has told of its pieces
and that it has unchoked us stays known.
-/
namespace TorrentClient
open EffectPrograms ListRanges
open EffectPrograms.Program (anyReply anyReply_mono)
open PeerConnection (assignPiece_ok)

namespace Download

/-- The request is for a block of the torrent. -/
def AsksBlock (d₀ : Download) (r : UInt32 × UInt32 × UInt32) : Prop :=
  ∃ piece block, d₀.pieces[r.1.toNat]? = some piece ∧
    piece.blocks[(blockIndexOf r.2.1).toNat]? = some block ∧ r.2.1.toNat % blockSize = 0 ∧
    r.2.2 = block.length

/-- The piece has a block with the index and length. -/
def HasBlock (d₀ : Download) (p b length : UInt32) : Prop :=
  ∃ piece block, d₀.pieces[p.toNat]? = some piece ∧ piece.blocks[b.toNat]? = some block ∧
    length = block.length

variable {d₀ d : Download} {p b length : UInt32}

theorem HasBlock.fits (hd₀ : d₀.WellFormed) (h : d₀.HasBlock p b length) : FitsOffset b := by
  obtain ⟨piece, block, hp, hb, -⟩ := h
  exact ((hd₀.shape _ piece hp).block_le hb).1

theorem HasBlock.asks (hd₀ : d₀.WellFormed) (h : d₀.HasBlock p b length) :
    d₀.AsksBlock (p, UInt32.ofNat (b.toNat * blockSize), length) := by
  have hfits := h.fits hd₀
  obtain ⟨piece, block, hp, hb, hlength⟩ := h
  refine ⟨piece, block, hp, ?_, ?_, hlength⟩
  · rw [blockIndexOf_mul hfits]
    exact hb
  · rw [UInt32.toNat_ofNat', Nat.mod_eq_of_lt hfits]
    exact Nat.mul_mod_left _ _

/-- The blocks that the download reports are those of the torrent. -/
theorem hasBlock_of_reported (hd₀ : d₀.WellFormed) (hd : Continues d₀ d)
    {blocks : List (UInt32 × UInt32)} (h : d.reportedBlocks p = .ok blocks) :
    ∀ block ∈ blocks, d₀.HasBlock p block.1 block.2 := by
  obtain ⟨piece, hpiece, h⟩ := bind_eq_ok.mp h
  have hp := index_eq_ok.mp hpiece
  obtain ⟨piece₀, hp₀, -, -, -, hshapes⟩ := hd.wellFormed.same_piece hd₀
    hd.metaInfo_eq.symm hd.length_eq.symm hp
  cases h
  intro block hblock
  split_ifs at hblock
  · cases hblock
  · obtain ⟨x, hx, rfl⟩ := List.mem_map.mp hblock
    obtain ⟨j, hj⟩ := List.getElem?_of_mem (List.mem_of_mem_filter hx)
    obtain ⟨x₀, hx₀, hlength⟩ := exists_block_of_shapes hshapes hj
    have hindex := (hd.wellFormed.shape _ piece hp).toNat_block hj
    refine ⟨piece₀, x₀, hp₀, ?_, hlength.symm⟩
    rw [hindex.1]
    exact hx₀

end Download

/-- What the connection may send to the writer task. -/
def Message.Asks (d₀ : Download) : Message → Prop
  | .request p offset length => d₀.AsksBlock (p, offset, length)
  | .piece .. => False
  | _ => True

/-- The message is a correct block of the content. -/
def Message.Carries (d₀ : Download) (content : Bytes) (m : Message) : Prop :=
  ∃ p offset data, m = .piece p offset data ∧ d₀.CorrectMessage content ⟨p, offset, data⟩

/-- What comes to the connection. -/
def IPC.Honest (d₀ : Download) (content : Bytes) : IPC → Prop
  | .message m => m.Greets d₀.pieces.length ∨ m.Carries d₀ content
  | .pieceCompleted p => p.toNat < d₀.pieces.length
  | .blockUploaded => False
  | _ => True

/-- What the calls of the connection have to be, and how they are answered. -/
def seededCalls (d₀ : Download) (content : Bytes) : CallSpec Call Call.Reply
  | .send m, post => m.Asks d₀ ∧ post true
  | .download m, post => m.Carries d₀ content ∧ post true
  | .requireData _, _ => False
  | .requireIncompleteBlocks p, post => p.toNat < d₀.pieces.length ∧
      ∀ blocks, (∀ block ∈ blocks, d₀.HasBlock p block.1 block.2) → post (some blocks)
  | .firstKey _, post => ∀ i, post i

theorem seededCalls_mono (d₀ : Download) (content : Bytes) : (seededCalls d₀ content).Mono := by
  intro e post post' h hpost
  cases e with
  | send m => exact ⟨hpost.1, h _ hpost.2⟩
  | download m => exact ⟨hpost.1, h _ hpost.2⟩
  | requireData r => exact hpost
  | requireIncompleteBlocks p => exact ⟨hpost.1, fun blocks hblocks => h _ (hpost.2 blocks hblocks)⟩
  | firstKey n => exact fun i => h i (hpost i)

namespace PeerConnection
open Task

variable {d₀ : Download} {content : Bytes} {s t : PeerConnection}

/-- The connection is about the pieces of the torrent and has blocks of it to request. -/
structure Ready (d₀ : Download) (conn : PeerConnection) : Prop where
  length_he : conn.he.hasPieces.length = d₀.pieces.length
  length_me : conn.me.hasPieces.length = d₀.pieces.length
  blocks : ∀ key entry, conn.toRequest.lookup key = some entry →
    d₀.HasBlock entry.1 entry.2.1 entry.2.2

theorem Ready.congr (h : Ready d₀ s) (htoRequest : t.toRequest = s.toRequest)
    (hhe : t.he.hasPieces.length = s.he.hasPieces.length)
    (hme : t.me.hasPieces.length = s.me.hasPieces.length) : Ready d₀ t := by
  obtain ⟨hlengthHe, hlengthMe, hblocks⟩ := h
  constructor
  · exact hhe.trans hlengthHe
  · exact hme.trans hlengthMe
  · rw [htoRequest]
    exact hblocks

theorem Ready.erase (h : Ready d₀ s) (target : UInt32 × UInt32) (requests : RequestQueue) :
    Ready d₀ { s with toRequest := s.toRequest.erase target, me := { s.me with requests } } := by
  refine ⟨h.length_he, h.length_me, fun key entry hentry => ?_⟩
  by_cases hkey : key = target
  · subst hkey
    rw [AList.lookup_erase] at hentry
    cases hentry
  · rw [AList.lookup_erase_ne hkey] at hentry
    exact h.blocks key entry hentry

theorem Ready.queueBlocks (h : Ready d₀ s) {p : UInt32} {blocks : List (UInt32 × UInt32)}
    (hblocks : ∀ block ∈ blocks, d₀.HasBlock p block.1 block.2) :
    Ready d₀ (blocks.foldl (queueBlock p) s) := by
  induction blocks generalizing s with
  | nil => exact h
  | cons block blocks ih =>
    obtain ⟨hblock, hrest⟩ := List.forall_mem_cons.mp hblocks
    apply ih _ hrest
    unfold queueBlock
    split_ifs
    · exact h
    · refine ⟨h.length_he, h.length_me, fun key entry hentry => ?_⟩
      by_cases hkey : key = (p, block.1)
      · subst hkey
        rw [AList.lookup_insert] at hentry
        cases hentry
        exact hblock
      · rw [AList.lookup_insert_ne hkey] at hentry
        exact h.blocks key entry hentry

/-- The handler ends without an error and calls as it has to. -/
def Serves (d₀ : Download) (content : Bytes) (x : Handler Unit) (s : PeerConnection) : Prop :=
  wpFail (seededCalls d₀ content) x (fun _ t => Ready d₀ t) (fun _ => False) s

theorem Serves.bind {x y : Handler Unit} (hx : Serves d₀ content x s)
    (hy : ∀ t, Ready d₀ t → Serves d₀ content y t) : Serves d₀ content (x >>= fun _ => y) s := by
  rw [Serves, wpFail_bind]
  exact wpFail_mono (seededCalls_mono d₀ content) hx (fun _ t ht => hy t ht) fun _ => id

theorem sendMessage_serves (hs : Ready d₀ s) {m : Message} (hm : m.Asks d₀) :
    Serves d₀ content (sendMessage m) s :=
  ⟨hm, hs⟩

theorem requestLoop_serves (hd₀ : d₀.WellFormed) (fuel : ℕ) (hs : Ready d₀ s) :
    Serves d₀ content (requestLoop fuel) s := by
  induction fuel generalizing s with
  | zero => exact hs
  | succ fuel ih =>
    rw [requestLoop, Serves, wpFail_bind, wpFail_get, wpFail_ite]
    split_ifs
    · cases hkeys : s.toRequest.keys with
      | nil => exact hs
      | cons key keys =>
        simp only [wpFail_bind, wpFail_perform]
        intro i
        have hmem : (key :: keys).get i ∈ s.toRequest := by
          rw [AList.mem_keys, hkeys]
          exact List.get_mem (key :: keys) i
        obtain ⟨entry, hentry⟩ := Option.isSome_iff_exists.mp (AList.lookup_isSome.mpr hmem)
        have hblock := hs.blocks _ _ hentry
        rw [hentry]
        simp only [wpFail_lift_ok, wpFail_modify, wpFail_bind, wpFail_runIf,
          checkedMul32_of_lt (hblock.fits hd₀)]
        have hrest := ih (hs.erase ((key :: keys).get i) (s.me.requests.add entry.1 entry.2.1
          (UInt32.ofNat (entry.2.1.toNat * blockSize)) entry.2.2).2)
        split_ifs
        · exact ⟨hblock.asks hd₀, hrest⟩
        · exact hrest
    · exact hs

theorem requestMoreBlocks_serves (hd₀ : d₀.WellFormed) (hs : Ready d₀ s) :
    Serves d₀ content requestMoreBlocks s := by
  rw [requestMoreBlocks, Serves, wpFail_bind, wpFail_get, wpFail_ite]
  split_ifs
  · exact hs
  · exact requestLoop_serves hd₀ _ hs

theorem updateMyInterestedStatus_serves (hs : Ready d₀ s) :
    Serves d₀ content updateMyInterestedStatus s := by
  rw [updateMyInterestedStatus]
  simp only [Serves, wpFail_bind, wpFail_get, wpFail_ite, wpFail_modify, wpFail_pure]
  split_ifs
  · exact ⟨trivial, hs.congr rfl rfl rfl⟩
  · exact ⟨trivial, hs.congr rfl rfl rfl⟩
  · exact hs

theorem update_and_request_serves (hd₀ : d₀.WellFormed) (hs : Ready d₀ s) :
    Serves d₀ content (do updateMyInterestedStatus; requestMoreBlocks) s :=
  (updateMyInterestedStatus_serves hs).bind fun _ ht => requestMoreBlocks_serves hd₀ ht

theorem queueBlocks_serves (hs : Ready d₀ s) {p : UInt32} (hp : p.toNat < d₀.pieces.length) :
    Serves d₀ content (queueBlocks p) s :=
  ⟨hp, fun _ hblocks => hs.queueBlocks hblocks⟩

theorem Ready.assign (hs : Ready d₀ s) (i : ℕ) (value : Bool) :
    Ready d₀ { s with he := { s.he with hasPieces := s.he.hasPieces.set i value } } :=
  hs.congr rfl List.length_set rfl

theorem Ready.complete (hs : Ready d₀ s) (i : ℕ) :
    Ready d₀ { s with me := { s.me with hasPieces := s.me.hasPieces.set i true } } :=
  hs.congr rfl rfl List.length_set

theorem bitfieldLoop_serves (hn : d₀.pieces.length ≤ 2 ^ 32) {bytes : Bytes}
    (hbytes : (d₀.pieces.length + 7) / 8 ≤ bytes.length) {indices : List ℕ}
    (hindices : ∀ i ∈ indices, i < d₀.pieces.length) (hs : Ready d₀ s) :
    Serves d₀ content (bitfieldLoop bytes indices) s := by
  induction indices generalizing s with
  | nil => exact hs
  | cons haveIndex rest ih =>
    obtain ⟨hlt, hrest⟩ := List.forall_mem_cons.mp hindices
    have hbyte : haveIndex / 8 < bytes.length := by omega
    have hpiece : haveIndex < s.he.hasPieces.length := by
      rw [hs.length_he]
      exact hlt
    rw [bitfieldLoop, Serves, wpFail_bind]
    simp only [index_of_getElem? (List.getElem?_eq_getElem hbyte), wpFail_bind, wpFail_get,
      wpFail_lift_ok, assignPiece_ok hpiece, wpFail_modify, wpFail_runIf]
    split_ifs
    · rw [← wpFail_bind]
      refine (queueBlocks_serves (hs.assign _ _) ?_).bind fun t ht => ih hrest ht
      rw [UInt32.toNat_ofNat', Nat.mod_eq_of_lt (by omega)]
      exact hlt
    · exact ih hrest (hs.assign _ _)

/-- Every event that comes to the connection is handled. -/
theorem handleIpc_serves (hd₀ : d₀.WellFormed) (hn : d₀.pieces.length ≤ 2 ^ 32) {ipc : IPC}
    (hipc : ipc.Honest d₀ content) (hs : Ready d₀ s) : Serves d₀ content (handleIpc ipc) s := by
  have hupdate : ∀ t, Ready d₀ t →
      Serves d₀ content (do updateMyInterestedStatus; requestMoreBlocks) t :=
    fun _ ht => update_and_request_serves hd₀ ht
  cases ipc with
  | message m =>
    rcases hipc with hgreets | ⟨p, offset, data, rfl, hcorrect⟩
    · cases m with
      | keepAlive => exact hs
      | unChoke =>
        rw [handleIpc, processMessage, Serves, wpFail_bind, wpFail_get, wpFail_ite]
        split_ifs
        · rw [wpFail_bind, wpFail_modify]
          exact requestMoreBlocks_serves hd₀ (hs.congr rfl rfl rfl)
        · exact hs
      | «have» haveIndex =>
        have hlt : haveIndex.toNat < s.he.hasPieces.length := by
          rw [hs.length_he]
          exact hgreets
        rw [handleIpc, processMessage, Serves, wpFail_bind, wpFail_get, wpFail_bind,
          assignPiece_ok hlt, wpFail_lift_ok, wpFail_bind, wpFail_modify]
        exact (queueBlocks_serves (hs.assign _ _) hgreets).bind hupdate
      | bitfield bytes =>
        rw [handleIpc, processMessage, Serves, wpFail_bind, wpFail_get, hs.length_he]
        exact (bitfieldLoop_serves hn hgreets.1 (fun i hi => List.mem_range.mp hi) hs).bind hupdate
      | _ => cases hgreets
    · rw [handleIpc, processMessage, Serves, wpFail_bind, wpFail_modify, wpFail_bind]
      exact ⟨⟨p, offset, data, rfl, hcorrect⟩, hupdate _ (hs.congr rfl rfl rfl)⟩
  | blockCompleted p b =>
    rw [handleIpc, Serves, wpFail_bind, wpFail_modify, wpFail_bind, wpFail_get]
    simp only [wpFail_bind, wpFail_modify]
    have hremoved := hs.erase (p, b) (s.me.requests.remove p b).2
    cases (s.me.requests.remove p b).1 with
    | none => exact hremoved
    | some r => exact sendMessage_serves hremoved trivial
  | pieceCompleted p =>
    have hlt : p.toNat < s.me.hasPieces.length := by
      rw [hs.length_me]
      exact hipc
    rw [handleIpc, Serves, wpFail_bind, wpFail_get, wpFail_bind, assignPiece_ok hlt,
      wpFail_lift_ok, wpFail_bind, wpFail_modify]
    exact (updateMyInterestedStatus_serves (hs.complete p.toNat)).bind
      fun _ ht => sendMessage_serves (m := .have p) ht trivial
  | downloadCompleted => exact updateMyInterestedStatus_serves hs
  | blockUploaded => cases hipc

/-! ### What the seeder has told -/

/-- Whether we are choked is the same. -/
def SameChoke (s t : PeerConnection) : Prop := t.me.isChoked = s.me.isChoked

instance : IsTrans PeerConnection SameChoke := ⟨fun _ _ _ h h' => Eq.trans h' h⟩

theorem requestLoop_sameChoke (fuel : ℕ) : Keeps SameChoke (requestLoop fuel) := by
  induction fuel with
  | zero => exact fun s => rfl
  | succ fuel ih =>
    intro s
    rw [requestLoop]
    simp only [wp_bind, wp_get, wp_ite]
    split_ifs
    · cases s.toRequest.keys with
      | nil => exact rfl
      | cons key keys =>
        simp only [wp_bind, wp_perform, wp_lift, anyReply, wp_modify, wp_runIf, wp_sendMessage]
        intro i entry _ offset _
        rw [ite_self]
        exact ih _
    · exact rfl

theorem requestMoreBlocks_sameChoke : Keeps SameChoke requestMoreBlocks := by
  intro s
  rw [requestMoreBlocks]
  simp only [wp_bind, wp_get, wp_ite]
  split_ifs
  · exact rfl
  · exact requestLoop_sameChoke _ s

theorem updateMyInterestedStatus_sameChoke : Keeps SameChoke updateMyInterestedStatus := by
  intro s
  rw [updateMyInterestedStatus]
  simp only [wp_bind, wp_get, wp_ite, wp_modify, wp_sendMessage, wp_pure]
  split_ifs
  · exact rfl
  · exact rfl

theorem update_and_request_sameChoke :
    Keeps SameChoke (do updateMyInterestedStatus; requestMoreBlocks) :=
  updateMyInterestedStatus_sameChoke.bind requestMoreBlocks_sameChoke

theorem queueBlocks_sameChoke (p : UInt32) : Keeps SameChoke (queueBlocks p) := by
  intro s
  simp only [queueBlocks, wp_bind, wp_requireIncompleteBlocks, wp_modify]
  intro blocks
  exact congrArg PeerMetadata.isChoked (queueBlock_foldl_frame p blocks s).2.2

/-- A connection that was unchoked stays so. -/
theorem handleIpc_unchoked {ipc : IPC} (hipc : ipc.Honest d₀ content)
    (h : s.me.isChoked = false ∨ ipc = .message .unChoke) :
    wp anyReply (handleIpc ipc) (fun _ t => t.me.isChoked = false) s := by
  have hkeeps {x : Handler Unit} (hx : Keeps SameChoke x) {u : PeerConnection}
      (hu : u.me.isChoked = false) : wp anyReply x (fun _ t => t.me.isChoked = false) u :=
    wp_mono anyReply_mono (hx u) fun _ _ ht => Eq.trans ht hu
  have hsend (m : Message) : Keeps SameChoke (sendMessage m) := by
    intro u
    rw [wp_sendMessage]
    exact rfl
  by_cases hunchoke : ipc = .message .unChoke
  · rw [hunchoke, handleIpc, processMessage, wp_bind, wp_get, wp_ite]
    split_ifs with hchoked
    · rw [wp_bind, wp_modify]
      exact hkeeps requestMoreBlocks_sameChoke rfl
    · exact Bool.eq_false_iff.mpr hchoked
  · have hs := h.resolve_right hunchoke
    cases ipc with
    | message m =>
      rcases hipc with hgreets | ⟨p, offset, data, rfl, -⟩
      · cases m with
        | keepAlive => exact hs
        | unChoke => exact absurd rfl hunchoke
        | «have» haveIndex =>
          rw [handleIpc, processMessage, wp_bind, wp_get, wp_bind, wp_lift]
          intro hasPieces _
          rw [wp_bind, wp_modify]
          exact hkeeps ((queueBlocks_sameChoke _).bind update_and_request_sameChoke) (by exact hs)
        | bitfield bytes =>
          rw [handleIpc, processMessage, wp_bind, wp_get]
          have hloop : Keeps SameChoke (bitfieldLoop bytes (List.range s.he.hasPieces.length)) := by
            apply bitfieldLoop_keeps
            · exact fun _ => rfl
            · exact fun _ _ => rfl
            · exact queueBlocks_sameChoke
          exact hkeeps (hloop.bind update_and_request_sameChoke) hs
        | _ => cases hgreets
      · rw [handleIpc, processMessage, wp_bind, wp_modify, wp_bind, wp_sendDownload]
        exact hkeeps update_and_request_sameChoke (by exact hs)
    | blockCompleted p b =>
      rw [handleIpc, wp_bind, wp_modify, wp_bind, wp_get]
      simp only [wp_bind, wp_modify]
      cases (s.me.requests.remove p b).1 with
      | none => exact hs
      | some r => exact hkeeps (hsend _) (by exact hs)
    | pieceCompleted p =>
      rw [handleIpc, wp_bind, wp_get, wp_bind, wp_lift]
      intro hasPieces _
      rw [wp_bind, wp_modify]
      exact hkeeps (updateMyInterestedStatus_sameChoke.bind (hsend _)) (by exact hs)
    | downloadCompleted => exact hkeeps updateMyInterestedStatus_sameChoke hs
    | blockUploaded => cases hipc

/-- The peer has at least the pieces that it had. -/
def KnowsMore (s t : PeerConnection) : Prop :=
  ∀ i : ℕ, s.he.hasPieces[i]? = some true → t.he.hasPieces[i]? = some true

theorem KnowsMore.trans {u : PeerConnection} (h : KnowsMore s t) (h' : KnowsMore t u) :
    KnowsMore s u :=
  fun i hi => h' i (h i hi)

instance : IsTrans PeerConnection KnowsMore := ⟨fun _ _ _ => KnowsMore.trans⟩

theorem Keeps.knows {x : Handler Unit} (hx : Keeps SamePeer x) : Keeps KnowsMore x := by
  intro u
  apply wp_mono anyReply_mono (hx u)
  intro _ t ht i hi
  rw [ht.he]
  exact hi

/-- A piece is noted that the peer has. -/
theorem knowsMore_assign {i : ℕ} {hasPieces : List Bool}
    (h : assignPiece s.he.hasPieces i true = .ok hasPieces) :
    KnowsMore s { s with he := { s.he with hasPieces } } ∧ hasPieces[i]? = some true := by
  rw [assignPiece] at h
  split at h
  · rename_i hlt
    cases h
    refine ⟨fun j hj => ?_, by simp [hlt]⟩
    by_cases hij : i = j
    · subst hij
      simp [hlt]
    · simp [hij, hj]
  · cases h

theorem bitfieldLoop_knows {bytes : Bytes} (hbytes : Message.Greets d₀.pieces.length (.bitfield bytes))
    {indices : List ℕ} (hindices : ∀ i ∈ indices, i < d₀.pieces.length) :
    wp anyReply (bitfieldLoop bytes indices)
      (fun _ t => KnowsMore s t ∧ ∀ i ∈ indices, t.he.hasPieces[i]? = some true) s := by
  induction indices generalizing s with
  | nil => exact ⟨fun _ => id, fun i hi => absurd hi List.not_mem_nil⟩
  | cons haveIndex rest ih =>
    obtain ⟨hlt, hrest⟩ := List.forall_mem_cons.mp hindices
    simp only [bitfieldLoop, wp_bind, wp_lift, wp_get, wp_modify, wp_runIf]
    intro byte hbyte hasPieces hassign
    have hbit := hbytes.2 haveIndex hlt byte (index_eq_ok.mp hbyte)
    rw [hbit] at hassign ⊢
    rw [if_pos rfl]
    obtain ⟨hknows, hpiece⟩ := knowsMore_assign hassign
    apply wp_mono anyReply_mono ((queueBlocks_samePeer _).knows _)
    intro _ u hu
    apply wp_mono anyReply_mono (ih hrest)
    intro _ t ht
    refine ⟨(hknows.trans hu).trans ht.1, List.forall_mem_cons.mpr ⟨?_, ht.2⟩⟩
    exact ht.1 _ (hu _ hpiece)

/-- A piece that the peer has told of stays known. -/
theorem handleIpc_knows {ipc : IPC} (hipc : ipc.Honest d₀ content) (hs : Ready d₀ s) {i : ℕ}
    (hi : i < d₀.pieces.length)
    (h : s.he.hasPieces[i]? = some true ∨ ∃ m, ipc = .message m ∧ m.Announces i) :
    wp anyReply (handleIpc ipc) (fun _ t => t.he.hasPieces[i]? = some true) s := by
  have hkeeps {x : Handler Unit} (hx : Keeps SamePeer x) {u : PeerConnection}
      (hu : u.he.hasPieces[i]? = some true) :
      wp anyReply x (fun _ t => t.he.hasPieces[i]? = some true) u :=
    wp_mono anyReply_mono (hx.knows u) fun _ _ ht => ht i hu
  have hold (hnot : ∀ m, ipc = .message m → ¬ m.Announces i) : s.he.hasPieces[i]? = some true := by
    rcases h with h | ⟨m, hm, hannounces⟩
    · exact h
    · exact absurd hannounces (hnot m hm)
  cases ipc with
  | message m =>
    rcases hipc with hgreets | ⟨p, offset, data, rfl, -⟩
    · cases m with
      | keepAlive =>
        refine hold fun m hm => ?_
        cases hm
        exact id
      | unChoke =>
        have hold := hold fun m hm => by
          cases hm
          exact id
        rw [handleIpc, processMessage, wp_bind, wp_get, wp_ite]
        split_ifs
        · rw [wp_bind, wp_modify]
          exact hkeeps requestMoreBlocks_samePeer (by exact hold)
        · exact hold
      | «have» haveIndex =>
        rw [handleIpc, processMessage, wp_bind, wp_get, wp_bind, wp_lift]
        intro hasPieces hassign
        obtain ⟨hknows, hpiece⟩ := knowsMore_assign hassign
        rw [wp_bind, wp_modify]
        apply hkeeps ((queueBlocks_samePeer _).bind update_and_request_samePeer)
        rcases h with h | ⟨m, hm, hannounces⟩
        · exact hknows i h
        · cases hm
          exact hannounces ▸ hpiece
      | bitfield bytes =>
        rw [handleIpc, processMessage, wp_bind, wp_get, wp_bind, hs.length_he]
        apply wp_mono anyReply_mono (bitfieldLoop_knows hgreets fun j hj => List.mem_range.mp hj)
        intro _ t ht
        exact hkeeps update_and_request_samePeer (ht.2 i (List.mem_range.mpr hi))
      | _ => cases hgreets
    · have hold := hold fun m hm => by
        cases hm
        exact id
      rw [handleIpc, processMessage, wp_bind, wp_modify, wp_bind, wp_sendDownload]
      exact hkeeps update_and_request_samePeer (by exact hold)
  | blockCompleted p b =>
    have hold := hold fun m hm => by cases hm
    rw [handleIpc, wp_bind, wp_modify, wp_bind, wp_get]
    simp only [wp_bind, wp_modify]
    cases (s.me.requests.remove p b).1 with
    | none => exact hold
    | some r => exact hkeeps (sendMessage_samePeer _) (by exact hold)
  | pieceCompleted p =>
    have hold := hold fun m hm => by cases hm
    rw [handleIpc, wp_bind, wp_get, wp_bind, wp_lift]
    intro hasPieces _
    rw [wp_bind, wp_modify]
    exact hkeeps (updateMyInterestedStatus_samePeer.bind (sendMessage_samePeer _)) (by exact hold)
  | downloadCompleted => exact hkeeps updateMyInterestedStatus_samePeer (hold fun m hm => by cases hm)
  | blockUploaded => cases hipc

end PeerConnection
end TorrentClient
