import TorrentClient.Client
import TorrentClient.DownloadEvents

/-!
# Announcements of completed pieces

The download task broadcasts the pieces that it completes and no others, and what is new in the
map of peers after a round of the manager are connections that it has started.
-/
namespace TorrentClient
open TransitionRuns

/-- The news of a completed piece. -/
def IPC.Completes (i : ℕ) : IPC → Prop
  | .pieceCompleted pieceIndex => pieceIndex.toNat = i
  | _ => False

def ManagerEvent.Completes (i : ℕ) (e : ManagerEvent) : Prop := ∃ ipc ∈ e.passedOn, ipc.Completes i

namespace Download

variable {sha1 : Bytes → Sha1} {d d' : Download} {event : ManagerEvent}

/-- The piece exists and is completed. -/
def Has (d : Download) (i : ℕ) : Prop := d.havePieces[i]? = some true

/-- What happened between two states: the pieces that were completed have been broadcast. -/
structure Announces (d d' : Download) : Prop where
  length_pieces : d'.pieces.length = d.pieces.length
  sent : ∃ news, d'.sent = d.sent ++ news ∧
    ∀ i, d'.Has i ↔ d.Has i ∨ ∃ e ∈ news, e.Completes i

theorem Announces.refl (d : Download) : Announces d d :=
  ⟨rfl, [], (List.append_nil _).symm, by simp⟩

theorem has_accept {p j : ℕ} {piece : Piece} {files : List Bytes}
    (hp : d.pieces[p]? = some piece) (i : ℕ) :
    (d.accept p j piece files).Has i ↔ d.Has i ∨ p = i := by
  simp only [Has, havePieces, accept, List.getElem?_map, List.getElem?_modify]
  by_cases hi : p = i
  · subst hi
    simp [hp]
  · simp [hi]

/-- Only the notification of the piece itself completes one. -/
theorem completes_notifications (d : Download) (pieceIndex blockIndex : UInt32) (i : ℕ) :
    (∃ e ∈ d.notifications pieceIndex blockIndex, e.Completes i) ↔ pieceIndex.toNat = i := by
  cases h : d.isComplete <;>
    simp [notifications, h, ManagerEvent.Completes, ManagerEvent.passedOn, IPC.Completes]

theorem storeStep.announces {call : StoreCall} (hd : d.WellFormed)
    (h : storeStep sha1 d call d') : Announces d d' := by
  have hcase := store_cases sha1 hd call.pieceIndex call.blockIndex call.data
  rw [show store sha1 _ _ _ d = _ from h] at hcase
  cases hcase with
  | dropped => exact .refl d
  | rejected =>
    refine ⟨rfl, [], (List.append_nil _).symm, fun i => ?_⟩
    simp [Has, havePieces, reject]
  | @accepted piece block files d'' hp hb hc hw hgood hlands hfin =>
    obtain ⟨events, hsent, hfinishes⟩ := hfin.sent
    refine ⟨?_, events ++ d''.notifications call.pieceIndex call.blockIndex, ?_, fun i => ?_⟩
    · rw [hfin.pieces_eq]
      exact List.length_modify _ _ _
    · rw [hsent, List.append_assoc]
      rfl
    · have hpieces : ∀ sent, Has { d'' with sent } i ↔
          (d.accept call.pieceIndex.toNat call.blockIndex.toNat piece files).Has i := by
        intro sent
        simp only [Has, havePieces, hfin.pieces_eq]
      have hnone : ¬ ∃ e ∈ events, e.Completes i := by
        rintro ⟨e, he, ipc, hipc, -⟩
        obtain ⟨fileIndex, filePath, rfl⟩ := hfinishes e he
        cases hipc
      rw [hpieces, has_accept hp]
      simp only [List.mem_append, or_and_right, exists_or, hnone, false_or,
        completes_notifications]

theorem eventStep.announces (hd : d.WellFormed) (h : eventStep sha1 d event d') :
    Announces d d' := by
  cases hpiece : isPieceEvent event with
  | false =>
    rw [← h.handled_eq, handled_of_not_piece sha1 d hpiece]
    exact .refl d
  | true =>
    cases event with
    | download m =>
      cases m with
      | piece pieceIndex offset data => exact (eventStep_piece_iff.mp h).announces hd
      | _ => cases hpiece
    | _ => cases hpiece

/-- The answer to `RequireHavePieces`. -/
theorem handleEvent_havePieces {pieces : List Bool}
    (h : handleEvent sha1 event d = .ok (.havePieces pieces) d') : pieces = d'.havePieces := by
  cases event with
  | download m =>
    cases m with
    | piece pieceIndex offset data =>
      rw [handleEvent_piece] at h
      cases hstore : store sha1 pieceIndex (blockIndexOf offset) data d with
      | ok u t =>
        rw [hstore] at h
        cases h
      | error e t =>
        rw [hstore] at h
        cases h
    | _ => cases h
  | requireData request =>
    rw [handleEvent_requireData, pureStep_eq_ok] at h
    cases hdata : requiredData d request with
    | ok buf =>
      rw [hdata] at h
      cases h.1
    | error e =>
      rw [hdata] at h
      cases h.1
  | requireIncompleteBlocks pieceIndex =>
    rw [handleEvent_requireIncompleteBlocks, pureStep_eq_ok] at h
    cases hblocks : reportedBlocks d pieceIndex with
    | ok blocks =>
      rw [hblocks] at h
      cases h.1
    | error e =>
      rw [hblocks] at h
      cases h.1
  | requireHavePieces =>
    cases h
    rfl
  | _ => cases h

end Download
namespace Manager

variable {m t u : Manager}

/-- Every entry of the map is an old one or that of a connection that was started since. -/
structure Grows (m t : Manager) : Prop where
  started : m.started.length ≤ t.started.length
  entries : ∀ peer id, t.peers.lookup peer = some id → m.peers.lookup peer = some id ∨
    (m.started.length ≤ id ∧ id < t.started.length)

theorem Grows.refl (m : Manager) : Grows m m := ⟨Nat.le_refl _, fun _ _ h => Or.inl h⟩

theorem Grows.trans (h : Grows m t) (h' : Grows t u) : Grows m u := by
  refine ⟨Nat.le_trans h.started h'.started, fun peer id hlookup => ?_⟩
  rcases h'.entries peer id hlookup with hold | hnew
  · rcases h.entries peer id hold with hold | hstarted
    · exact Or.inl hold
    · exact Or.inr ⟨hstarted.1, Nat.lt_of_lt_of_le hstarted.2 h'.started⟩
  · exact Or.inr ⟨Nat.le_trans h.started hnew.1, hnew.2⟩

theorem grows_of_sameTable (same : SameTable m t) : Grows m t := by
  refine ⟨by rw [same.started], fun peer id hlookup => Or.inl ?_⟩
  rw [← same.peers]
  exact hlookup

theorem grows_connected (m : Manager) (flag : Bool) (peer : Peer) :
    Grows m (m.connected flag peer) := by
  refine ⟨by simp [connected], fun p id hlookup => ?_⟩
  by_cases hp : p = peer
  · subst hp
    rw [connected, AList.lookup_insert, Option.some.injEq] at hlookup
    subst hlookup
    exact Or.inr ⟨Nat.le_refl _, by simp [connected]⟩
  · rw [connected, AList.lookup_insert_ne hp] at hlookup
    exact Or.inl hlookup

theorem grows_disconnected (m : Manager) (peer : Peer) : Grows m (m.disconnected peer) := by
  refine ⟨Nat.le_refl _, fun p id hlookup => ?_⟩
  by_cases hp : p = peer
  · subst hp
    rw [disconnected, AList.lookup_erase] at hlookup
    cases hlookup
  · rw [disconnected, AList.lookup_erase_ne hp] at hlookup
    exact Or.inl hlookup

theorem replacePeer_grows {p : Peer} {r : Unit} (h : replacePeer p m = .ok r t) : Grows m t := by
  have hgone := grows_disconnected m p
  rcases replacePeer_cases h with ⟨-, rfl⟩ | ⟨flag, peer, rest, -, -, rfl⟩
  · exact hgone
  · have hrest : Grows m { m.disconnected p with peersDeque := rest } :=
      ⟨hgone.started, hgone.entries⟩
    exact hrest.trans (grows_connected _ flag peer)

theorem replacePeers_grows {deleteKeys : List Peer} {r : Unit}
    (h : replacePeers deleteKeys m = .ok r t) : Grows m t := by
  induction deleteKeys generalizing m with
  | nil =>
    cases h
    exact .refl _
  | cons p deleteKeys ih =>
    obtain ⟨_, m₁, hp, hrest⟩ := stateful_bind_eq_ok.mp h
    exact (replacePeer_grows hp).trans (ih hrest)

theorem handleInput_grows {input : ManagerInput} {r : Option ℕ}
    (h : handleInput input m = .ok r t) : Grows m t := by
  cases handleInput_round h with
  | keeps same => exact grows_of_sameTable same
  | broadcasts hreplace =>
    exact (grows_of_sameTable (sameTable_sendAll m _ _)).trans (replacePeers_grows hreplace)
  | connects => exact grows_connected m _ _
  | waits => exact ⟨Nat.le_refl _, fun _ _ hlookup => Or.inl hlookup⟩
  | disconnects => exact grows_disconnected m _

end Manager

end TorrentClient
