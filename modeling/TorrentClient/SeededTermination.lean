import TorrentClient.SeededInvariants
import TorrentClient.SeededBudget
import TorrentClient.DownloadOutlook

/-!
# A download from a seeder comes to rest

What is on its way, what the download task can still send and what the handler of the connection
may still spend add up to a number that every move makes smaller.
-/
namespace TorrentClient
open EffectPrograms TransitionRuns
open PeerConnection

/-- The sum of the charges of the elements. -/
def charge {α : Type} (f : α → ℕ) : List α → ℕ
  | [] => 0
  | x :: xs => f x + charge f xs

section Charge

variable {α : Type} (f : α → ℕ)

@[simp] theorem charge_nil : charge f [] = 0 := rfl

@[simp] theorem charge_cons (x : α) (xs : List α) : charge f (x :: xs) = f x + charge f xs := rfl

@[simp] theorem charge_append (xs ys : List α) :
    charge f (xs ++ ys) = charge f xs + charge f ys := by
  induction xs with
  | nil => exact (Nat.zero_add _).symm
  | cons x xs ih => rw [List.cons_append, charge_cons, charge_cons, ih, Nat.add_assoc]

theorem charge_eraseIdx {xs : List α} {i : ℕ} {x : α} (h : xs[i]? = some x) :
    f x + charge f (xs.eraseIdx i) = charge f xs := by
  induction xs generalizing i with
  | nil => cases h
  | cons y ys ih =>
    cases i with
    | zero =>
      cases h
      rfl
    | succ i =>
      have hrest := ih h
      rw [List.eraseIdx_cons_succ, charge_cons, charge_cons]
      omega

end Charge

/-- To handle an event of the connection, and to tell of a block that it stores. -/
def ManagerEvent.cost : ManagerEvent → ℕ
  | .download _ => downloadCost
  | _ => 1

namespace Phase

/-- To make the next call, and to return. -/
def units : Phase → ℕ
  | idle _ => 0
  | running _ => 3
  | awaitingBlocks _ _ => 1
  | awaitingData _ _ => 1
  | ended => 0

/-- What is left of the handler costs no more than `k`. -/
def Affords (phase : Phase) (k : ℕ) : Prop :=
  Program.monitored budget phase.program
    (fun r k' => Task.onSuccess (fun _ t => t.owes ≤ k') r) k

end Phase

/-- Any event that comes to the connection pays for its handler to return. -/
theorem IPC.Honest.four_le_cost {d₀ : Download} {content : Bytes} {ipc : IPC}
    (h : ipc.Honest d₀ content) (n : ℕ) : 4 ≤ ipc.cost n := by
  cases ipc with
  | message m =>
    rcases h with hgreets | ⟨p, offset, data, rfl, -⟩
    · cases m with
      | keepAlive => exact Nat.le_refl 4
      | unChoke => exact Nat.le_refl 4
      | «have» =>
        simp only [IPC.cost]
        omega
      | bitfield =>
        simp only [IPC.cost]
        omega
      | _ => cases hgreets
    · simp only [IPC.cost, pieceCost]
      omega
  | blockUploaded => cases h
  | _ => simp [IPC.cost]

/-- An announcement is paid for by its event. -/
theorem charge_passedOn_lt {d : Download} (hannounced : d.Announced) {event : ManagerEvent}
    (hevent : event ∈ d.sent) (n : ℕ) : charge (IPC.cost n) event.passedOn < eventCost := by
  cases event with
  | broadcast ipc =>
    have htrue := hannounced ipc hevent
    cases ipc with
    | message m => cases htrue
    | _ => simp [ManagerEvent.passedOn, IPC.cost, eventCost]
  | _ => simp [ManagerEvent.passedOn, eventCost]

/-- A piece has no more blocks than the budget reckons with. -/
theorem length_reportedBlocks_le {d : Download} (hd : d.WellFormed) {p : UInt32}
    {blocks : List (UInt32 × UInt32)} (h : d.reportedBlocks p = .ok blocks) :
    blocks.length ≤ blocksLimit := by
  obtain ⟨piece, hpiece, h⟩ := bind_eq_ok.mp h
  have hshape := hd.shape _ piece (index_eq_ok.mp hpiece)
  cases h
  split_ifs
  · exact Nat.zero_le _
  · rw [List.length_map]
    refine Nat.le_trans (List.length_filter_le _ _) ?_
    rw [hshape.length_blocks]
    exact Piece.numBlocks_le piece.length

namespace SeededDownload

variable {sha1 : Bytes → Sha1} {d₀ : Download} {content : Bytes} {s t : SeededDownload}
  {a : SeededAction} {n bound : ℕ}

/-- What is on its way, and what the download task can still send. -/
def load (n : ℕ) (s : SeededDownload) : ℕ :=
  charge (fun m => 1 + (IPC.message m).cost n) s.greeting +
    charge (fun _ => 1 + pieceCost) s.pending +
    charge Message.cost s.link.writer + charge (IPC.cost n) s.link.ipcs +
    charge ManagerEvent.cost s.link.toDownload +
    eventCost * (s.link.download.outlook - s.link.delivered)

/-- The moves that are left are no more than the bound. -/
def Bounded (n : ℕ) (s : SeededDownload) (bound : ℕ) : Prop :=
  ∃ k, s.link.phase.Affords k ∧ s.load n + s.link.phase.units + k ≤ bound

theorem Bounded.of_lt {k : ℕ} (hk : t.link.phase.Affords k)
    (hlt : t.load n + t.link.phase.units + k < bound) : ∃ bound' < bound, Bounded n t bound' :=
  ⟨_, hlt, k, hk, Nat.le_refl _⟩

/-- The download task handles the next event. -/
theorem Bounded.handle (h : Sound sha1 d₀ content s) (hbound : Bounded n s bound)
    {event : ManagerEvent} {events : List ManagerEvent} {reply : Download.Reply}
    {download : Download} {phase : Phase} (hqueue : s.link.toDownload = event :: events)
    (hevent : Download.handleEvent sha1 event s.link.download = .ok reply download)
    (hanswer : s.link.phase.answer reply = some phase) :
    ∃ bound' < bound, Bounded n
      { s with link := { s.link with download, toDownload := events, phase } } bound' := by
  obtain ⟨k, hk, hle⟩ := hbound
  have hd := h.owned.continues
  have hexpected := h.honest.toDownload event (by rw [hqueue]; exact List.mem_cons_self)
  simp only [load, hqueue, charge_cons] at hle
  cases event with
  | download m =>
    have houtlook := Download.eventStep.outlook_le ⟨reply, hevent⟩
    cases Download.handleEvent_reply hevent with
    | silent =>
      rw [Phase.answer_none] at hanswer
      cases hanswer
      refine Bounded.of_lt (k := k) hk ?_
      simp only [load, ManagerEvent.cost, downloadCost, eventCost] at hle ⊢
      omega
  | requireIncompleteBlocks p =>
    cases Download.handleEvent_reply hevent with
    | silent hsilent => cases hsilent
    | @blocks _ blocks hblocks =>
      obtain ⟨p', next, hphase, rfl⟩ := Phase.answer_blocks hanswer
      rw [hphase] at hk hle
      have hsame : download = s.link.download := by
        rcases Download.eventStep.piece_or_eq ⟨_, hevent⟩ with ⟨q, offset, data, heq, -⟩ | ⟨-, heq⟩
        · cases heq
        · exact heq
      have hfew := length_reportedBlocks_le hd.wellFormed hblocks
      have hcost : 2 ≤ k := hk.1
      have hback : budget.after (.requireIncompleteBlocks p') (some blocks) k = k - 2 := by
        change k - 2 + blockCost * (blocks.length - blocksLimit) = k - 2
        rw [Nat.sub_eq_zero_of_le hfew, Nat.mul_zero, Nat.add_zero]
      refine Bounded.of_lt (k := k - 2) (hback ▸ hk.2 (some blocks)) ?_
      simp only [load, ManagerEvent.cost, Phase.units, hsame] at hle ⊢
      omega
  | _ => cases hexpected

/-- Every move makes the bound smaller. -/
theorem Bounded.step (h : Sound sha1 d₀ content s) (hmove : Moves sha1 content s a t)
    (hbound : Bounded d₀.pieces.length s bound) :
    ∃ bound' < bound, Bounded d₀.pieces.length t bound' := by
  have hbefore := hbound
  obtain ⟨k, hk, hle⟩ := hbound
  cases hmove with
  | @greets m greeting hgreeting hm =>
    refine Bounded.of_lt (k := k) hk ?_
    simp only [load, hear, hgreeting, charge_cons, charge_append, charge_nil] at hle ⊢
    omega
  | @answers i r hpending hm =>
    have herase := charge_eraseIdx (fun _ => 1 + pieceCost) hpending
    refine Bounded.of_lt (k := k) hk ?_
    simp only [load, hear, answer, IPC.cost, charge_cons, charge_append, charge_nil] at hle ⊢
    omega
  | client hown hmove =>
    cases hmove with
    | @peerSends m => exact absurd rfl (hown m)
    | @delivers event hsent =>
      have hpassed := charge_passedOn_lt h.owned.continues.announced (List.mem_of_getElem? hsent)
        d₀.pieces.length
      have hlt := (List.getElem?_eq_some_iff.mp hsent).1
      have houtlook : s.link.download.sent.length ≤ s.link.download.outlook := Nat.le_add_right _ _
      refine Bounded.of_lt (k := k) hk ?_
      simp only [load, reached, charge_append, charge_nil, eventCost] at hle hpassed ⊢
      omega
    | @takes conn ipc ipcs hphase hipcs =>
      have hipc := h.honest.ipcs ipc (by rw [hipcs]; exact List.mem_cons_self)
      have hready := h.honest.served
      rw [hphase] at hready hk hle
      have howes : conn.owes ≤ k := hk
      have hcost := hipc.four_le_cost d₀.pieces.length
      have hspends : Task.monitored budget (handleIpc ipc) (fun _ t k' => t.owes + 0 ≤ k') conn
          (conn.owes + (ipc.cost d₀.pieces.length - 4) + 0) :=
        handleIpc_spends hipc hready.length_he (Nat.le_refl _)
      refine Bounded.of_lt (k := conn.owes + (ipc.cost d₀.pieces.length - 4) + 0) hspends ?_
      simp only [load, reached, hipcs, charge_cons, charge_append, charge_nil, Phase.units] at hle ⊢
      omega
    | @sends choice m next hphase =>
      rw [hphase] at hk hle
      have hcost : 1 + m.cost ≤ k := hk.1
      refine Bounded.of_lt (k := k - (1 + m.cost)) (hk.2 true) ?_
      simp only [load, reached, charge_cons, charge_append, charge_nil, Phase.units] at hle ⊢
      omega
    | @downloads choice m next hphase =>
      rw [hphase] at hk hle
      have hcost : 1 + downloadCost ≤ k := hk.1
      refine Bounded.of_lt (k := k - (1 + downloadCost)) (hk.2 true) ?_
      simp only [load, reached, charge_cons, charge_append, charge_nil, Phase.units,
        ManagerEvent.cost] at hle ⊢
      omega
    | requiresData hphase =>
      have hserved := h.honest.served
      rw [hphase] at hserved
      cases hserved
    | requiresBlocks hphase =>
      rw [hphase] at hk hle
      refine Bounded.of_lt (k := k) hk ?_
      simp only [load, reached, charge_cons, charge_append, charge_nil, Phase.units,
        ManagerEvent.cost] at hle ⊢
      omega
    | picks choice hphase =>
      rw [hphase] at hk hle
      have hcost : 1 ≤ k := hk.1
      refine Bounded.of_lt (k := k - 1) (hk.2 choice) ?_
      simp only [load, reached, charge_append, charge_nil, Phase.units] at hle ⊢
      omega
    | returns hphase =>
      rw [hphase] at hk hle
      refine Bounded.of_lt (k := k) hk ?_
      simp only [load, reached, charge_append, charge_nil, Phase.units] at hle ⊢
      omega
    | fails hphase =>
      have hserved := h.honest.served
      rw [hphase] at hserved
      cases hserved
    | handles hqueue hevent hanswer =>
      simpa only [reached, List.append_nil] using hbefore.handle h hqueue hevent hanswer
    | @writes m writer hwriter =>
      have hasks := h.honest.writer m (by rw [hwriter]; exact List.mem_cons_self)
      cases m with
      | piece => cases hasks
      | request =>
        refine Bounded.of_lt (k := k) hk ?_
        simp only [load, reached, hwriter, Message.uploaded, Message.asked, Message.cost,
          List.head?_cons, Option.toList_some, List.flatMap_singleton, charge_cons, charge_append,
          charge_nil] at hle ⊢
        omega
      | _ =>
        refine Bounded.of_lt (k := k) hk ?_
        simp only [load, reached, hwriter, Message.uploaded, Message.asked, Message.cost,
          List.head?_cons, Option.toList_some, List.flatMap_singleton, charge_cons, charge_append,
          charge_nil] at hle ⊢
        omega

/-- How many moves there can be. -/
def movesBound (d₀ : Download) (greeting : List Message) : ℕ :=
  (start d₀ greeting).load d₀.pieces.length

theorem bounded_start (d₀ : Download) (greeting : List Message) :
    Bounded d₀.pieces.length (start d₀ greeting) (movesBound d₀ greeting) :=
  ⟨0, Nat.le_refl 0, Nat.le_refl _⟩

/-- A run has no more moves than its start allows. -/
theorem length_le_of_run (htorrent : Download.TorrentOf sha1 d₀ content)
    (hd₀ : Download.Continues d₀ d₀) (hn : d₀.pieces.length ≤ 2 ^ 32) (hsent : d₀.sent = [])
    (hfresh : ∀ (i : ℕ) piece, d₀.pieces[i]? = some piece → piece.isCompleted = false)
    {greeting : List Message} (hgreeting : Greeting d₀.pieces.length greeting)
    {trace : List (Step SeededDownload SeededAction)}
    (run : Run (actStep sha1 content) (start d₀ greeting) trace s) :
    trace.length ≤ movesBound d₀ greeting := by
  suffices h : ∃ bound, Bounded d₀.pieces.length s bound ∧
      bound + trace.length ≤ movesBound d₀ greeting by
    obtain ⟨bound, -, hle⟩ := h
    omega
  induction run with
  | nil => exact ⟨_, bounded_start d₀ greeting, Nat.le_refl _⟩
  | snoc run hstep ih =>
    obtain ⟨bound, hbound, hle⟩ := ih
    have hsound := sound_of_run htorrent hd₀ hn hsent hfresh hgreeting run
    obtain ⟨bound', hlt, hbound'⟩ := hbound.step hsound hstep.moves
    refine ⟨bound', hbound', ?_⟩
    rw [List.length_append, List.length_singleton]
    omega

end SeededDownload
end TorrentClient
