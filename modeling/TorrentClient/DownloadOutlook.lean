import TorrentClient.ReportedBlocks

/-!
# How much the download task can send

The task announces a stored block with three messages at most, and it announces that it has
renamed a file. A rename shortens the path of the file, so the paths bound the renames that are
still to come.
-/
namespace TorrentClient

/-- A path without its ending is shorter. -/
theorem length_stripTemp {filePath newName : String} (h : stripTemp filePath = some newName) :
    newName.toList.length < filePath.toList.length := by
  rw [stripTemp] at h
  split_ifs at h with htemp
  cases h
  have hlength : 5 ≤ filePath.toList.length := htemp.length_le
  rw [String.toList_ofList, List.length_take]
  omega

namespace Download

variable {α β : Type} {j k : ℕ}

/-- What the task has sent, and the renames that it can still announce. -/
def outlook (d : Download) : ℕ :=
  d.sent.length + (d.filePaths.map String.toList).flatten.length

/-- The computation adds at most `k` to what the task sends. -/
def Sends (k : ℕ) (x : DownloadM α) : Prop :=
  ∀ d a d', x d = .ok a d' → d'.outlook ≤ d.outlook + k

theorem Sends.bind {x : DownloadM α} {f : α → DownloadM β} (hx : Sends j x)
    (hf : ∀ a, Sends k (f a)) : Sends (j + k) (x >>= f) := by
  intro d b d'' h
  obtain ⟨a, d', ha, hb⟩ := stateful_bind_eq_ok.mp h
  have hfirst := hx d a d' ha
  have hrest := hf a d' b d'' hb
  omega

theorem Sends.mono {x : DownloadM α} (hx : Sends j x) (h : j ≤ k) : Sends k x := by
  intro d a d' hd
  have hle := hx d a d' hd
  omega

/-- A part that sends nothing goes before. -/
theorem Sends.after {x : DownloadM α} {f : α → DownloadM β} (hx : Sends 0 x)
    (hf : ∀ a, Sends k (f a)) : Sends k (x >>= f) :=
  (hx.bind hf).mono (Nat.le_of_eq (Nat.zero_add k))

theorem sends_pure (a : α) : Sends 0 (pure a : DownloadM α) := by
  rintro d a d' ⟨⟩
  exact Nat.le_refl _

theorem sends_get : Sends 0 (get : DownloadM Download) := by
  rintro d a d' ⟨⟩
  exact Nat.le_refl _

theorem sends_pureStep (x : Outcome α) : Sends 0 (pureStep x : DownloadM α) := by
  intro d a d' h
  obtain ⟨-, rfl⟩ := pureStep_eq_ok.mp h
  exact Nat.le_refl _

theorem sends_send (event : ManagerEvent) : Sends 1 (send event) := by
  rintro d a d' ⟨⟩
  rw [outlook, outlook, List.length_append]
  exact Nat.le_of_eq (Nat.add_right_comm _ _ _)

theorem sends_runIf {c : Bool} {x : DownloadM Unit} (hx : Sends k x) : Sends k (runIf c x) := by
  cases c with
  | true => exact hx
  | false => exact (sends_pure ()).mono (Nat.zero_le _)

/-- A change of other parts of the state sends nothing. -/
theorem outlook_congr {d d' : Download} (hsent : d'.sent = d.sent)
    (hpaths : d'.filePaths = d.filePaths) : d'.outlook = d.outlook := by
  rw [outlook, outlook, hsent, hpaths]

theorem length_flatten_set {paths : List String} {i : ℕ} {filePath : String} (newName : String)
    (h : paths[i]? = some filePath) :
    ((paths.set i newName).map String.toList).flatten.length + filePath.toList.length =
      (paths.map String.toList).flatten.length + newName.toList.length := by
  induction paths generalizing i with
  | nil => cases h
  | cons path paths ih =>
    cases i with
    | zero =>
      cases h
      simp only [List.set_cons_zero, List.map_cons, List.flatten_cons, List.length_append]
      omega
    | succ i =>
      have hrest := ih h
      simp only [List.set_cons_succ, List.map_cons, List.flatten_cons, List.length_append]
      omega

/-- A rename is paid for by the path that it shortens. -/
theorem sends_renameTempFile (fileIndex : ℕ) : Sends 0 (renameTempFile fileIndex) := by
  intro d a d' h
  rw [renameTempFile, bind_of_ok (get_eq d)] at h
  obtain ⟨filePath, t, hpath, h⟩ := stateful_bind_eq_ok.mp h
  obtain ⟨hpath, rfl⟩ := pureStep_eq_ok.mp hpath
  have hget := index_eq_ok.mp hpath
  cases hstrip : stripTemp filePath with
  | none =>
    rw [hstrip] at h
    cases h
    exact Nat.le_refl _
  | some newName =>
    rw [hstrip] at h
    obtain ⟨file, u, hfile, h⟩ := stateful_bind_eq_ok.mp h
    obtain ⟨-, rfl⟩ := pureStep_eq_ok.mp hfile
    cases h
    have hlength := length_flatten_set newName hget
    have hshorter := length_stripTemp hstrip
    simp only [outlook, List.length_append, List.length_singleton]
    omega

theorem sends_verifyFiles (pieceLen i count : ℕ) : Sends 0 (verifyFiles pieceLen i count) := by
  induction count generalizing i with
  | zero => exact sends_pure ()
  | succ count ih =>
    rw [verifyFiles]
    refine sends_get.after fun d => (sends_pureStep _).after fun low => ?_
    refine (sends_pureStep _).after fun last => (sends_pureStep _).after fun high => ?_
    refine (sends_pureStep _).after fun pieces => ?_
    exact (sends_runIf (sends_renameTempFile i)).after fun _ => ih (i + 1)

theorem sends_verifyFile (pieceIndex : ℕ) : Sends 0 (verifyFile pieceIndex) := by
  rw [verifyFile]
  refine sends_get.after fun d => (sends_pureStep _).after fun piece => ?_
  exact (sends_pureStep _).after fun _ => sends_verifyFiles _ _ _

theorem sends_notify (pieceIndex blockIndex : UInt32) : Sends 3 (notify pieceIndex blockIndex) := by
  rw [notify]
  refine (sends_send (.broadcast (.blockCompleted pieceIndex blockIndex))).bind (k := 2) fun _ => ?_
  refine sends_get.after fun d => (sends_pureStep _).after fun piece => ?_
  exact (sends_runIf (sends_send _)).bind (k := 1) fun _ => sends_runIf (sends_send _)

theorem sends_modifyPiece (pieceIndex : ℕ) (f : Piece → Piece) :
    Sends 0 (modify fun d => d.modifyPiece pieceIndex f : DownloadM Unit) := by
  rintro d a d' ⟨⟩
  exact Nat.le_refl _

theorem sends_completePiece (pieceIndex blockIndex : UInt32) :
    Sends 3 (completePiece pieceIndex blockIndex) := by
  rw [completePiece]
  exact (sends_modifyPiece _ _).after fun _ => (sends_verifyFile _).after fun _ => sends_notify _ _

theorem sends_verify (sha1 : Bytes → Sha1) (pieceIndex : ℕ) : Sends 0 (verify sha1 pieceIndex) := by
  intro d a d' h
  rw [verify, bind_of_ok (get_eq d)] at h
  obtain ⟨piece, t, hpiece, h⟩ := stateful_bind_eq_ok.mp h
  obtain ⟨-, rfl⟩ := pureStep_eq_ok.mp hpiece
  obtain ⟨buffer, u, hbuffer, h⟩ := stateful_bind_eq_ok.mp h
  obtain ⟨-, rfl⟩ := pureStep_eq_ok.mp hbuffer
  cases h
  exact Nat.le_refl _

/-- A block is announced with three messages at most. -/
theorem sends_store (sha1 : Bytes → Sha1) (pieceIndex blockIndex : UInt32) (data : Bytes) :
    Sends 3 (store sha1 pieceIndex blockIndex data) := by
  intro d a d' h
  rw [store, bind_of_ok (get_eq d)] at h
  obtain ⟨piece, t, hpiece, h⟩ := stateful_bind_eq_ok.mp h
  obtain ⟨-, rfl⟩ := pureStep_eq_ok.mp hpiece
  obtain ⟨hasBlock, u, hblock, h⟩ := stateful_bind_eq_ok.mp h
  obtain ⟨-, rfl⟩ := pureStep_eq_ok.mp hblock
  split at h
  · cases h
    exact Nat.le_add_right _ _
  · obtain ⟨files, v, hfiles, h⟩ := stateful_bind_eq_ok.mp h
    obtain ⟨-, rfl⟩ := pureStep_eq_ok.mp hfiles
    obtain ⟨⟨⟩, w, hset, h⟩ := stateful_bind_eq_ok.mp h
    cases hset
    have hrest {x : DownloadM Unit} {e : Download} (h : x e = .ok a d') (hx : Sends 3 x)
        (he : e.outlook = v.outlook) : d'.outlook ≤ v.outlook + 3 := he ▸ hx e a d' h
    refine hrest h ?_ (outlook_congr rfl rfl)
    split
    · refine (sends_verify sha1 _).after fun valid => ?_
      split
      · exact sends_completePiece _ _
      · exact (sends_modifyPiece _ _).mono (Nat.zero_le 3)
    · exact sends_completePiece _ _

/-- and so is the handling of any event. -/
theorem eventStep.outlook_le {sha1 : Bytes → Sha1} {d d' : Download} {event : ManagerEvent}
    (h : eventStep sha1 d event d') : d'.outlook ≤ d.outlook + 3 := by
  rcases h.piece_or_eq with ⟨p, offset, data, -, hstore⟩ | ⟨-, rfl⟩
  · exact sends_store sha1 p (blockIndexOf offset) data d () d' hstore
  · exact Nat.le_add_right _ _

end Download
end TorrentClient
