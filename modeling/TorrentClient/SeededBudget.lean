import TorrentClient.SeededCalls
import TorrentClient.ConnectionCalls
import TorrentClient.RequestPipeline

/-!
# What the handlers of a connection to a seeder cost

Every call of a handler, and every message on its way, is charged with the moves that it can lead
to. A block that waits in the map is charged with its request, the answer to it and what the answer
leads to, so the requests that a handler sends are paid for by the blocks that it takes out of
the map.
-/
namespace TorrentClient
open EffectPrograms

/-- To deliver an event of the download task and to handle it. -/
def eventCost : ℕ := 9

/-- To store a block and to handle the three messages about it. -/
def downloadCost : ℕ := 1 + 3 * eventCost

/-- To handle a block that has come. -/
def pieceCost : ℕ := 7 + downloadCost

/-- To write a message, and for a request to answer it. -/
def Message.cost : Message → ℕ
  | .request .. => 2 + pieceCost
  | _ => 1

/-- To request a block that waits in the map. -/
def blockCost : ℕ := 4 + pieceCost

/-- No piece has more blocks. -/
def blocksLimit : ℕ := 2 ^ 18

/-- To ask for the blocks of a piece and to request them. -/
def listCost : ℕ := 2 + blockCost * blocksLimit

/-- To handle an event of a connection with `n` pieces. -/
def IPC.cost (n : ℕ) : IPC → ℕ
  | .message (.have _) => 6 + listCost
  | .message (.bitfield _) => 6 + n * listCost
  | .message (.piece ..) => pieceCost
  | .message _ => 4
  | .blockCompleted _ _ => 6
  | .pieceCompleted _ => 8
  | .downloadCompleted => 6
  | .blockUploaded => 0

def Call.cost : Call → ℕ
  | .send m => 1 + m.cost
  | .download _ => 1 + downloadCost
  | .requireData _ => 0
  | .requireIncompleteBlocks _ => 2
  | .firstKey _ => 1

/-- What a handler still has to spend. It is paid back for blocks that no piece has. -/
def budget : Monitor Call Call.Reply ℕ where
  allows e g := e.cost ≤ g
  after
    | .requireIncompleteBlocks _, some blocks, g => g - 2 + blockCost * (blocks.length - blocksLimit)
    | e, _, g => g - e.cost

namespace PeerConnection
open Task

variable {s t : PeerConnection} {g : ℕ}

/-- What the blocks in the map cost. -/
def owes (conn : PeerConnection) : ℕ := blockCost * conn.toRequest.keys.length

/-- The handler spends no more than `cost`, besides what the blocks in the map cost. -/
def Spends (cost : ℕ) (x : Handler Unit) : Prop :=
  ∀ s rest g, s.owes + cost + rest ≤ g →
    monitored budget x (fun _ t g' => t.owes + rest ≤ g') s g

theorem Spends.mono {cost cost' : ℕ} {x : Handler Unit} (hx : Spends cost x) (h : cost ≤ cost') :
    Spends cost' x := by
  intro s rest g hg
  exact hx s rest g (by omega)

theorem Spends.bind {cost cost' : ℕ} {x y : Handler Unit} (hx : Spends cost x)
    (hy : Spends cost' y) : Spends (cost + cost') (x >>= fun _ => y) := by
  intro s rest g hg
  rw [monitored_bind]
  apply monitored_mono (hx s (cost' + rest) g (by omega))
  intro _ t g' hg'
  exact hy t rest g' (by omega)

/-- A change that leaves the map alone costs nothing. -/
theorem Spends.after {cost : ℕ} {x : Handler Unit} (hx : Spends cost x) {rest : ℕ}
    (htoRequest : t.toRequest = s.toRequest) (hg : s.owes + cost + rest ≤ g) :
    monitored budget x (fun _ u g' => u.owes + rest ≤ g') t g := by
  apply hx t rest g
  rw [owes, htoRequest]
  exact hg

theorem sendMessage_spends (m : Message) : Spends (1 + m.cost) (sendMessage m) := by
  intro s rest g hg
  apply monitored_sendMessage
  · change 1 + m.cost ≤ g
    omega
  · change s.owes + rest ≤ g - (1 + m.cost)
    omega

theorem requestLoop_spends (fuel : ℕ) : Spends 0 (requestLoop fuel) := by
  induction fuel with
  | zero => exact fun s rest g hg => hg
  | succ fuel ih =>
    intro s rest g hg
    rw [requestLoop, monitored_bind, monitored_get, monitored_ite]
    split_ifs
    · cases hkeys : s.toRequest.keys with
      | nil => exact hg
      | cons key keys =>
        simp only [monitored_bind, monitored_perform, monitored_lift, monitored_modify,
          monitored_runIf]
        have hlength : s.toRequest.keys.length = keys.length + 1 := by
          rw [hkeys, List.length_cons]
        have howes : s.owes = blockCost * keys.length + blockCost := by
          rw [owes, hlength, Nat.mul_succ]
        refine ⟨?_, fun i entry hentry offset _ => ?_⟩
        · change 1 ≤ g
          simp only [howes, blockCost] at hg
          omega
        · have hmem : (key :: keys).get i ∈ s.toRequest.keys := by
            rw [hkeys]
            exact List.get_mem (key :: keys) i
          have herase := length_keys_erase hmem
          have hrest (requests : RequestQueue) : monitored budget (requestLoop fuel)
              (fun _ t g' => t.owes + rest ≤ g')
              { s with
                toRequest := s.toRequest.erase ((key :: keys).get i)
                me := { s.me with requests } } (g - blockCost) := by
            apply ih
            rw [owes, Nat.succ_injective (herase.trans hlength)]
            omega
          split_ifs
          · apply monitored_sendMessage
            · change 1 + (2 + pieceCost) ≤ g - 1
              simp only [howes, blockCost] at hg
              omega
            · have hspent : g - 1 - (1 + (2 + pieceCost)) = g - blockCost := by
                rw [blockCost]
                omega
              change monitored budget (requestLoop fuel) _ _ (g - 1 - (1 + (2 + pieceCost)))
              rw [hspent]
              exact hrest _
          · apply ih
            rw [owes, Nat.succ_injective (herase.trans hlength)]
            change blockCost * keys.length + 0 + rest ≤ g - 1
            simp only [howes, blockCost] at hg ⊢
            omega
    · exact hg

theorem requestMoreBlocks_spends : Spends 0 requestMoreBlocks := by
  intro s rest g hg
  rw [requestMoreBlocks, monitored_bind, monitored_get, monitored_ite]
  split_ifs
  · exact hg
  · exact requestLoop_spends _ s rest g hg

theorem updateMyInterestedStatus_spends : Spends 2 updateMyInterestedStatus := by
  intro s rest g hg
  rw [updateMyInterestedStatus]
  simp only [monitored_bind, monitored_get, monitored_ite, monitored_modify, monitored_pure]
  split_ifs
  · exact (sendMessage_spends .interested).after rfl hg
  · exact (sendMessage_spends .notInterested).after rfl hg
  · omega

theorem update_and_request_spends :
    Spends 2 (do updateMyInterestedStatus; requestMoreBlocks) :=
  updateMyInterestedStatus_spends.bind requestMoreBlocks_spends

theorem length_keys_foldl_le (p : UInt32) (blocks : List (UInt32 × UInt32))
    (s : PeerConnection) :
    (blocks.foldl (queueBlock p) s).toRequest.keys.length ≤
      s.toRequest.keys.length + blocks.length := by
  induction blocks generalizing s with
  | nil => exact Nat.le_refl _
  | cons block blocks ih =>
    have hblocks := ih (queueBlock p s block)
    have hblock : (queueBlock p s block).toRequest.keys.length ≤ s.toRequest.keys.length + 1 := by
      rw [queueBlock]
      split_ifs
      · exact Nat.le_succ _
      · simp only [AList.keys_insert, List.length_cons]
        exact Nat.succ_le_succ (@List.length_erase_le _ instBEqOfDecidableEq _ _)
    rw [List.foldl_cons, List.length_cons]
    omega

theorem queueBlocks_spends (p : UInt32) : Spends listCost (queueBlocks p) := by
  intro s rest g hg
  simp only [queueBlocks, requireIncompleteBlocks, monitored_bind, monitored_perform,
    monitored_lift, monitored_modify]
  refine ⟨?_, fun answer blocks hanswer => ?_⟩
  · change 2 ≤ g
    rw [listCost] at hg
    omega
  · cases answer with
    | none => cases hanswer
    | some blocks' =>
      cases hanswer
      have hlength := Nat.mul_le_mul_left blockCost (length_keys_foldl_le p blocks s)
      change (blocks.foldl (queueBlock p) s).owes + rest ≤
        g - 2 + blockCost * (blocks.length - blocksLimit)
      have hblocks : blockCost * blocks.length ≤
          blockCost * blocksLimit + blockCost * (blocks.length - blocksLimit) := by
        rw [← Nat.mul_add]
        exact Nat.mul_le_mul_left _ (by omega)
      rw [Nat.mul_add] at hlength
      simp only [owes, listCost] at hg ⊢
      omega

theorem bitfieldLoop_spends (bytes : Bytes) (indices : List ℕ) :
    Spends (indices.length * listCost) (bitfieldLoop bytes indices) := by
  induction indices with
  | nil =>
    intro s rest g hg
    exact Nat.le_trans (by simp) hg
  | cons haveIndex rest ih =>
    intro s more g hg
    rw [List.length_cons, Nat.succ_mul] at hg
    simp only [bitfieldLoop, monitored_bind, monitored_lift, monitored_get, monitored_modify,
      monitored_runIf]
    intro byte _ hasPieces _
    split_ifs
    · rw [← monitored_bind]
      exact ((queueBlocks_spends _).bind ih).after rfl (s := s) (by omega)
    · exact ih.after rfl (s := s) (by omega)

/-- An event costs what it is charged with, but for taking it and the end of its handler. -/
theorem handleIpc_spends {d₀ : Download} {content : Bytes} {ipc : IPC}
    (hipc : ipc.Honest d₀ content) (hs : s.he.hasPieces.length = d₀.pieces.length) {rest : ℕ}
    (hg : s.owes + (ipc.cost d₀.pieces.length - 4) + rest ≤ g) :
    monitored budget (handleIpc ipc) (fun _ t g' => t.owes + rest ≤ g') s g := by
  have hupdate := update_and_request_spends
  cases ipc with
  | message m =>
    rcases hipc with hgreets | ⟨p, offset, data, rfl, -⟩
    · cases m with
      | keepAlive => exact hg
      | unChoke =>
        rw [handleIpc, processMessage, monitored_bind, monitored_get, monitored_ite]
        split_ifs
        · rw [monitored_bind, monitored_modify]
          exact requestMoreBlocks_spends.after rfl hg
        · exact hg
      | «have» haveIndex =>
        rw [handleIpc, processMessage, monitored_bind, monitored_get, monitored_bind,
          monitored_lift]
        intro hasPieces _
        rw [monitored_bind, monitored_modify]
        refine ((queueBlocks_spends _).bind hupdate).after (s := s) rfl ?_
        simp only [IPC.cost] at hg
        omega
      | bitfield bytes =>
        rw [handleIpc, processMessage, monitored_bind, monitored_get]
        refine ((bitfieldLoop_spends bytes _).bind hupdate).after (s := s) rfl ?_
        rw [List.length_range, hs]
        simp only [IPC.cost] at hg
        omega
      | _ => cases hgreets
    · rw [handleIpc, processMessage, monitored_bind, monitored_modify, monitored_bind,
        sendDownload, monitored_bind, monitored_perform]
      simp only [IPC.cost, pieceCost] at hg
      refine ⟨?_, fun sent => ?_⟩
      · change 1 + downloadCost ≤ g
        omega
      · rw [monitored_lift]
        intro _ _
        refine hupdate.after (s := s) rfl ?_
        change s.owes + 2 + rest ≤ g - (1 + downloadCost)
        omega
  | blockCompleted p b =>
    have herase : (s.toRequest.erase (p, b)).keys.length ≤ s.toRequest.keys.length := by
      rw [AList.keys_erase]
      exact @List.length_erase_le _ instBEqOfDecidableEq _ _
    have howes := Nat.mul_le_mul_left blockCost herase
    rw [handleIpc, monitored_bind, monitored_modify, monitored_bind, monitored_get]
    simp only [monitored_bind, monitored_modify]
    simp only [IPC.cost, owes] at hg
    cases (s.me.requests.remove p b).1 with
    | none =>
      change blockCost * (s.toRequest.erase (p, b)).keys.length + rest ≤ g
      omega
    | some r =>
      apply sendMessage_spends (.cancel r.pieceIndex r.offset r.blockLength)
      change blockCost * (s.toRequest.erase (p, b)).keys.length + (1 + 1) + rest ≤ g
      omega
  | pieceCompleted p =>
    rw [handleIpc, monitored_bind, monitored_get, monitored_bind, monitored_lift]
    intro hasPieces _
    rw [monitored_bind, monitored_modify]
    exact (updateMyInterestedStatus_spends.bind (sendMessage_spends (.have p))).after rfl hg
  | downloadCompleted => exact updateMyInterestedStatus_spends.after rfl hg
  | blockUploaded => cases hipc

end PeerConnection
end TorrentClient
