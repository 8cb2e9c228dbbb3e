import TorrentClient.PieceCompletion

/-!
# What completion announces

`store` broadcasts at its end only, and a piece that is completed takes the early return from
then on. So what has been broadcast says which pieces are completed, each of them once, and
whether all of them are.
-/
namespace TorrentClient
open ListRanges TransitionRuns

namespace Download

/-- What has been broadcast so far. -/
def broadcasts (d : Download) : List IPC := d.sent.flatMap ManagerEvent.passedOn

/-- The piece exists and is completed. -/
def completed (d : Download) (pieceIndex : UInt32) : Bool :=
  d.pieces[pieceIndex.toNat]?.any (·.isCompleted)

/-- Completion has been announced once, and never otherwise. -/
structure CompletionAnnounced (d : Download) : Prop where
  pieces : ∀ p, d.broadcasts.count (.pieceCompleted p) = if d.completed p then 1 else 0
  download : d.broadcasts.count .downloadCompleted = if d.isComplete then 1 else 0
  last : ∀ before after, d.broadcasts = before ++ .downloadCompleted :: after → after = []

variable {sha1 : Bytes → Sha1} {d d' : Download} {call : StoreCall}

theorem CompletionAnnounced.congr (h : d.CompletionAnnounced) (hpieces : d'.pieces = d.pieces)
    (hbroadcasts : d'.broadcasts = d.broadcasts) : d'.CompletionAnnounced where
  pieces p := by
    rw [hbroadcasts, completed, hpieces]
    exact h.pieces p
  download := by
    rw [hbroadcasts, isComplete, hpieces]
    exact h.download
  last before after heq := h.last before after (hbroadcasts ▸ heq)

/-- Renaming files broadcasts nothing. -/
theorem Finished.broadcasts_eq (h : Finished d d') : d'.broadcasts = d.broadcasts := by
  obtain ⟨events, hsent, hevents⟩ := h.sent
  have hnone : events.flatMap ManagerEvent.passedOn = [] := by
    rw [List.flatMap_eq_nil_iff]
    intro e he
    obtain ⟨i, path, rfl⟩ := hevents e he
    rfl
  rw [broadcasts, hsent, List.flatMap_append, hnone, List.append_nil, broadcasts]

theorem broadcasts_notifications (pieceIndex blockIndex : UInt32) :
    broadcasts { d with sent := d.sent ++ d.notifications pieceIndex blockIndex } =
      d.broadcasts ++ ([.blockCompleted pieceIndex blockIndex, .pieceCompleted pieceIndex] ++
        if d.isComplete then [.downloadCompleted] else []) := by
  rw [broadcasts, List.flatMap_append, broadcasts, notifications]
  cases d.isComplete <;> rfl

/-- An incomplete piece keeps the download incomplete. -/
theorem isComplete_of_incomplete {i : ℕ} {piece : Piece} (hp : d.pieces[i]? = some piece)
    (hc : piece.isCompleted = false) : d.isComplete = false := by
  rw [isComplete, List.all_eq_false]
  exact ⟨piece, List.mem_of_getElem? hp, by simp [hc]⟩

theorem completed_accept {pieceIndex : UInt32} {piece : Piece} (blockIndex : ℕ)
    (files : List Bytes) (hp : d.pieces[pieceIndex.toNat]? = some piece) (p : UInt32) :
    (d.accept pieceIndex.toNat blockIndex piece files).completed p =
      if p = pieceIndex then true else d.completed p := by
  rw [completed, accept, List.getElem?_modify]
  split_ifs with heq hne hne
  · obtain rfl := hne
    simp [hp]
  · exact absurd (UInt32.toNat_inj.mp heq).symm hne
  · exact absurd (congrArg UInt32.toNat hne).symm heq
  · simp [completed]

private theorem eq_nil_of_last {α : Type} {a : α} {xs before after : List α} (ha : a ∉ xs)
    (h : xs ++ [a] = before ++ a :: after) : after = [] := by
  rcases List.eq_nil_or_concat after with hnil | ⟨rest, b, rfl⟩
  · exact hnil
  · rw [List.concat_eq_append, ← List.cons_append, ← List.append_assoc,
      List.append_singleton_inj] at h
    refine absurd ?_ ha
    rw [h.1]
    simp

/-- An accepted block announces its piece, and the download if no other piece is missing. -/
theorem CompletionAnnounced.accept (h : d.CompletionAnnounced) {pieceIndex : UInt32} {piece : Piece}
    {blockIndex : UInt32} {files : List Bytes} (hp : d.pieces[pieceIndex.toNat]? = some piece)
    (hc : piece.isCompleted = false)
    (hfin : Finished (d.accept pieceIndex.toNat blockIndex.toNat piece files) d') :
    CompletionAnnounced { d' with sent := d'.sent ++ d'.notifications pieceIndex blockIndex } := by
  have hbefore : d'.broadcasts = d.broadcasts := hfin.broadcasts_eq
  have hnotYet : d.broadcasts.count .downloadCompleted = 0 := by
    rw [h.download, isComplete_of_incomplete hp hc]
    rfl
  have hpieces : ∀ p, d'.completed p = if p = pieceIndex then true else d.completed p := by
    intro p
    rw [← completed_accept blockIndex.toNat files hp p, completed, hfin.pieces_eq]
    rfl
  have hunflagged : d.completed pieceIndex = false := by simp [completed, hp, hc]
  refine ⟨fun p => ?_, ?_, fun before after heq => ?_⟩
  · rw [broadcasts_notifications, hbefore, List.count_append, h.pieces p]
    change _ = if d'.completed p = true then 1 else 0
    rw [hpieces p]
    by_cases heq : p = pieceIndex
    · subst heq
      rw [if_pos rfl, hunflagged]
      cases d'.isComplete <;> simp
    · rw [if_neg heq]
      cases d'.isComplete <;> simp [Ne.symm heq]
  · rw [broadcasts_notifications, hbefore, List.count_append, hnotYet]
    change _ = if d'.isComplete = true then 1 else 0
    cases d'.isComplete <;> rfl
  · rw [broadcasts_notifications, hbefore] at heq
    have hnotYet : IPC.downloadCompleted ∉ d.broadcasts := List.count_eq_zero.mp hnotYet
    cases hcomplete : d'.isComplete with
    | false =>
      have hmem : IPC.downloadCompleted ∈ before ++ .downloadCompleted :: after := by simp
      rw [← heq, hcomplete] at hmem
      simp [hnotYet] at hmem
    | true =>
      rw [hcomplete, if_pos rfl, ← List.append_assoc] at heq
      exact eq_nil_of_last (by simp [hnotYet]) heq

/-- One call keeps what has been broadcast in step with the flags; a failing one broadcasts
nothing. -/
theorem store_announces (sha1 : Bytes → Sha1) (hd : d.WellFormed) (h : d.CompletionAnnounced)
    (call : StoreCall) :
    match store sha1 call.pieceIndex call.blockIndex call.data d with
    | .ok _ d' => d'.CompletionAnnounced
    | .error _ d' => d'.broadcasts = d.broadcasts := by
  have hcase := store_cases sha1 hd call.pieceIndex call.blockIndex call.data
  generalize store sha1 call.pieceIndex call.blockIndex call.data d = result at hcase ⊢
  cases hcase with
  | noPiece => rfl
  | noBlock => rfl
  | dropped => exact h
  | pastEnd => rfl
  | rejected => exact h.congr rfl rfl
  | accepted hp _ hc _ _ _ hfin => exact h.accept hp hc hfin
  | stuck => rfl

theorem start_announced {disk : String → Bytes} {metaInfo : TorrentMetaInfo}
    (h : launch disk metaInfo = .ok d) : d.CompletionAnnounced := by
  obtain ⟨hstart, hpos⟩ := launch_eq_ok.mp h
  obtain ⟨-, -, -, hsent, hflags⟩ := start_spec hstart
  have hnone : d.broadcasts = [] := by rw [broadcasts, hsent]; rfl
  have hfirst := List.getElem?_eq_getElem hpos
  refine ⟨fun p => ?_, ?_, ?_⟩
  · rw [hnone, completed]
    cases hp : d.pieces[p.toNat]? with
    | none => rfl
    | some piece => simp [hflags _ piece hp]
  · rw [hnone, isComplete_of_incomplete hfirst (hflags _ _ hfirst)]
    rfl
  · intro before after heq
    rw [hnone] at heq
    simp at heq

/-- In every state of a run, `PieceCompleted` has been broadcast once for each completed piece
and for no other, `DownloadCompleted` once if all pieces are completed and not otherwise, and
nothing after it; a call that fails broadcasts nothing. -/
theorem completion_announced_once {disk : String → Bytes} {metaInfo : TorrentMetaInfo}
    {d₀ d : Download} (hlaunch : launch disk metaInfo = .ok d₀)
    {trace : List (Step Download StoreCall)} (run : Run (storeStep sha1) d₀ trace d) :
    (∀ (p : UInt32) piece, d.pieces[p.toNat]? = some piece →
      d.broadcasts.count (.pieceCompleted p) = if piece.isCompleted then 1 else 0) ∧
    (∀ p : UInt32, d.pieces[p.toNat]? = none → d.broadcasts.count (.pieceCompleted p) = 0) ∧
    (d.broadcasts.count .downloadCompleted =
      if ∀ piece ∈ d.pieces, piece.isCompleted then 1 else 0) ∧
    (∀ before after, d.broadcasts = before ++ .downloadCompleted :: after → after = []) ∧
    ∀ (call : StoreCall) e d',
      store sha1 call.pieceIndex call.blockIndex call.data d = .error e d' →
        d'.broadcasts = d.broadcasts := by
  have hkeeps : ∀ s call t, WellFormed s ∧ CompletionAnnounced s → storeStep sha1 s call t →
      WellFormed t ∧ CompletionAnnounced t := by
    rintro s call t ⟨hs, h⟩ hstep
    have hannounced := store_announces sha1 hs h call
    rw [show store sha1 call.pieceIndex call.blockIndex call.data s = .ok () t from hstep]
      at hannounced
    exact ⟨hstep.wellFormed hs, hannounced⟩
  obtain ⟨hd, h⟩ :=
    run.invariant ⟨(start_spec (launch_eq_ok.mp hlaunch).1).1, start_announced hlaunch⟩ hkeeps
  refine ⟨fun p piece hp => ?_, fun p hp => ?_, ?_, h.last, fun call e d' herror => ?_⟩
  · rw [h.pieces p, completed, hp]
    rfl
  · rw [h.pieces p, completed, hp]
    rfl
  · rw [h.download, isComplete]
    simp only [List.all_eq_true]
  · have hannounced := store_announces sha1 hd h call
    rw [herror] at hannounced
    exact hannounced

/-- The only block of a torrent completes its piece and the download. -/
theorem completion_announced_once_oneBlock :
    ∃ trace, Run (storeStep fun _ => Sha1.replicate 0) oneBlockDownload trace storedDownload ∧
      trace.map (·.label) = [⟨0, 0, [7]⟩] ∧
      storedDownload.broadcasts.count (.pieceCompleted 0) = 1 ∧
      storedDownload.broadcasts.count .downloadCompleted = 1 := by
  have hlaunch : launch (fun _ => []) oneBlockTorrent = .ok oneBlockDownload := rfl
  have run := Run.nil.snoc store_oneBlockDownload
  obtain ⟨hpieces, -, hdownload, -⟩ := completion_announced_once hlaunch run
  refine ⟨_, run, rfl, hpieces 0 _ rfl, hdownload.trans (if_pos fun piece hpiece => ?_)⟩
  obtain rfl := List.mem_singleton.mp hpiece
  rfl

end Download
end TorrentClient
