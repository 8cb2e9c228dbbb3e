import TorrentClient.ConnectionSteps
import TorrentClient.ConnectionTasks

/-!
# A connection loop and a write loop that wait on each other

The write loop waits for room among the events only while it reports an upload, and the
connection loop waits for room among the messages only where it sends into a full channel.
Such a send is safe while the write loop has no upload in its hands; otherwise the events
can fill up before the write loop reports back, and then neither loop moves again.
-/
namespace TorrentClient
open EffectPrograms TransitionRuns

/-- The write loop has to report an upload before it takes another message. -/
def WritePhase.holdsUpload : WritePhase → Bool
  | .writing m => m.isBlockUpload
  | .notifying => true
  | _ => false

def LoopPhase.isSending : LoopPhase → Bool
  | .sending .. => true
  | _ => false

namespace ConnectionTasks
open PeerConnection

/-- The connection loop sends into the full channel of the write loop, which sends into the
full channel of the connection loop. -/
def Deadlocked (s : ConnectionTasks) : Prop :=
  s.loop.isSending = true ∧ channelCapacity ≤ s.writer.length ∧ s.writeLoop = .notifying ∧
    channelCapacity ≤ s.ipcs.length

/-- The connection loop begins a send into a full channel while the write loop has an upload
in its hands. -/
def SendsIntoFull (s : ConnectionTasks) (a : TaskAction) : Prop :=
  a = .beginsSend ∧ channelCapacity ≤ s.writer.length ∧ s.writeLoop.holdsUpload = true

/-- A loop that waits for room among the messages waits for a write loop that is free. -/
structure WaitsForFree (s : ConnectionTasks) : Prop where
  length_le : s.writer.length ≤ channelCapacity
  free : s.loop.isSending = true → channelCapacity ≤ s.writer.length →
    s.writeLoop.holdsUpload = false

instance (s : ConnectionTasks) : Decidable s.Deadlocked :=
  inferInstanceAs (Decidable (_ ∧ _ ∧ _ ∧ _))

variable {s t : ConnectionTasks} {a : TaskAction}

theorem WaitsForFree.not_deadlocked (h : WaitsForFree s) : ¬ Deadlocked s := by
  rintro ⟨hsending, hfull, hwrite, -⟩
  have hfree := h.free hsending hfull
  rw [hwrite] at hfree
  cases hfree

/-- A step keeps this unless it begins a send into a full channel. -/
theorem Move.waitsForFree (h : Move s a t) (hs : WaitsForFree s) (ha : ¬ SendsIntoFull s a) :
    WaitsForFree t := by
  have hlen := hs.length_le
  cases h with
  | delivers => exact ⟨hlen, hs.free⟩
  | beginsSend hloop hwriter =>
    refine ⟨hlen, fun _ hfull => ?_⟩
    exact Bool.eq_false_iff.mpr fun hupload => ha ⟨rfl, hfull, hupload⟩
  | sends hloop hroom =>
    refine ⟨?_, fun hsending => nomatch hsending⟩
    rw [List.length_append]
    exact hroom
  | stops hloop =>
    refine ⟨hlen, fun hsending => ?_⟩
    rcases hloop with rfl | rfl
    · cases hsending
    · cases hsending
  | writerTakes hwrite hwriter =>
    rw [hwriter, List.length_cons] at hlen
    refine ⟨Nat.le_of_succ_le hlen, fun _ hfull => ?_⟩
    exact absurd (Nat.le_trans hlen hfull) (Nat.not_succ_le_self _)
  | writes hwrite =>
    refine ⟨hlen, fun hsending hfull => ?_⟩
    have hfree := hs.free hsending hfull
    rw [hwrite, WritePhase.holdsUpload] at hfree
    rw [hfree]
    rfl
  | notifies => exact ⟨hlen, fun _ _ => rfl⟩
  | writerStops => exact ⟨Nat.zero_le _, fun _ _ => rfl⟩
  | _ => exact ⟨hlen, fun hsending => nomatch hsending⟩

theorem start_waitsForFree (havePieces : List Bool) : WaitsForFree (start havePieces) :=
  ⟨Nat.zero_le _, fun hsending => nomatch hsending⟩

theorem SendsIntoFull.sending (ha : SendsIntoFull s a) (h : Move s a t) :
    t.loop.isSending = true ∧ t.writer = s.writer ∧ t.writeLoop = s.writeLoop := by
  obtain ⟨rfl, -, hupload⟩ := ha
  cases h with
  | delivers hipc hroom ha => exact absurd rfl ha
  | beginsSend => exact ⟨rfl, rfl, rfl⟩
  | sendFails hloop hwriter =>
    rw [hwriter] at hupload
    cases hupload
  | stops hloop ha => exact absurd rfl ha
  | writerStops ha => exact absurd rfl ha

/-- The loops wait for each other's room only after a send into a full channel. -/
theorem Move.waitsForFree_iff (h : Move s a t) (hs : WaitsForFree s) :
    WaitsForFree t ↔ ¬ SendsIntoFull s a := by
  refine ⟨fun ht ha => ?_, h.waitsForFree hs⟩
  obtain ⟨hsending, hwriter, hwrite⟩ := ha.sending h
  have hfree := ht.free hsending (by rw [hwriter]; exact ha.2.1)
  rw [hwrite, ha.2.2] at hfree
  cases hfree

theorem reachable_step {a : TaskAction} (h : act s a = some t) : Reachable actStep s t :=
  Reachable.refl.tail h

/-- The read loop passes on messages of the peer while there is room. -/
theorem read_keepAlives (hloop : s.loop.isReceiver = true) (n : ℕ)
    (hroom : s.ipcs.length + n ≤ channelCapacity) : Reachable actStep s
      { s with ipcs := s.ipcs ++ List.replicate n (.message .keepAlive) } := by
  induction n with
  | zero =>
    rw [List.replicate_zero, List.append_nil]
    exact .refl
  | succ n ih =>
    have hreads : act { s with ipcs := s.ipcs ++ List.replicate n (.message .keepAlive) }
        (.reads .keepAlive) =
          some { s with ipcs := s.ipcs ++ List.replicate (n + 1) (.message .keepAlive) } := by
      have hlt : s.ipcs.length + n < channelCapacity := hroom
      simp [act, deliver, hloop, hlt, List.replicate_succ', List.append_assoc]
    exact (ih (Nat.le_of_succ_le hroom)).tail hreads

/-- The events fill up. -/
theorem fill_ipcs (hloop : s.loop.isReceiver = true) : ∃ ipcs,
    Reachable actStep s { s with ipcs } ∧ channelCapacity ≤ ipcs.length := by
  rcases Nat.le_total channelCapacity s.ipcs.length with hfull | hroom
  · exact ⟨s.ipcs, .refl, hfull⟩
  · refine ⟨_, read_keepAlives hloop (channelCapacity - s.ipcs.length) ?_, ?_⟩
    · omega
    · rw [List.length_append, List.length_replicate]
      omega

theorem isReceiver_of_isSending {loop : LoopPhase} (h : loop.isSending = true) :
    loop.isReceiver = true := by
  cases loop with
  | sending => rfl
  | _ => cases h

/-- The write loop reports the upload in its hands before it takes another message. -/
theorem report_upload (hupload : s.writeLoop.holdsUpload = true) :
    Reachable actStep s { s with writeLoop := .notifying } := by
  obtain ⟨loop, writeLoop, ipcs, writer⟩ := s
  cases writeLoop with
  | writing m =>
    have hm : m.isBlockUpload = true := hupload
    apply reachable_step (a := .writes)
    simp [act, hm]
  | notifying => exact .refl
  | _ => cases hupload

/-- Where a message waits for room and the write loop has an upload in its hands, a deadlock
can be reached. -/
theorem deadlock_of_sending (hsending : s.loop.isSending = true)
    (hfull : channelCapacity ≤ s.writer.length) (hupload : s.writeLoop.holdsUpload = true) :
    ∃ t, Reachable actStep s t ∧ Deadlocked t := by
  have hreport := report_upload hupload
  obtain ⟨ipcs, hfill, hipcs⟩ := fill_ipcs (s := { s with writeLoop := .notifying })
    (isReceiver_of_isSending hsending)
  exact ⟨_, hreport.trans hfill, hsending, hfull, rfl, hipcs⟩

/-- No task moves any more. -/
theorem Deadlocked.stuck (hs : Deadlocked s) (a : TaskAction) : act s a = none := by
  obtain ⟨loop, writeLoop, ipcs, writer⟩ := s
  obtain ⟨hsending, hwriter, hwrite, hipcs⟩ := hs
  cases hwrite
  have hdeliver (ipc : IPC) : deliver ⟨loop, .notifying, ipcs, writer⟩ ipc = none :=
    if_neg fun hroom => Nat.not_lt_of_le hipcs hroom.2
  cases loop with
  | sending m next =>
    cases a with
    | reads m => exact hdeliver _
    | broadcasts ipc =>
      rw [act, hdeliver, ite_self]
    | completesSend => exact if_neg (Nat.not_lt_of_le hwriter)
    | notifies =>
      rw [act, hdeliver]
      rfl
    | _ => rfl
  | _ => cases hsending

/-- While no send goes into a full channel of a write loop with an upload in its hands, the
two loops never wait on each other; after such a send they can. -/
theorem deadlock_free_unless_full {havePieces : List Bool}
    {trace : List (Step ConnectionTasks TaskAction)} (run : Run actStep (start havePieces) trace s) :
    ((∀ x ∈ trace, ¬ SendsIntoFull x.before x.label) → ∀ x ∈ trace, ¬ Deadlocked x.after) ∧
      ∀ x ∈ trace, SendsIntoFull x.before x.label →
        ∃ t, Reachable actStep x.after t ∧ Deadlocked t := by
  constructor
  · intro hsafe x hx
    have hwaits := (run.forall_after_iff_of_step (start_waitsForFree havePieces)
      fun _ _ _ hs h => h.move.waitsForFree_iff hs).mpr hsafe
    exact (hwaits x hx).not_deadlocked
  · intro x hx hfull
    obtain ⟨hsending, hwriter, hwrite⟩ := hfull.sending (run.step_of_mem hx).move
    apply deadlock_of_sending hsending
    · rw [hwriter]
      exact hfull.2.1
    · rw [hwrite]
      exact hfull.2.2

/-- A send that the connection loop finishes. -/
def sendActions : List TaskAction := [.beginsSend, .completesSend]

/-- A request that is sent, for one of the ten blocks of a piece. -/
def requestActions : List TaskAction := .answers (answerWith []) :: sendActions

/-- The bitfield is written, and the peer unchokes us. -/
def greetActions : List TaskAction :=
  sendActions ++ [.returns, .writerTakes, .writes, .reads .unChoke, .takes, .returns]

/-- The peer announces a piece of ten blocks, and the last request waits for room. -/
def pipelineActions : List TaskAction :=
  [.reads (.have 1), .takes,
    .answers (answerWith ((List.range 10).map fun i => (UInt32.ofNat i, 16384)))] ++
  sendActions ++ (List.replicate 9 requestActions).flatten ++
  [.answers (answerWith []), .beginsSend]

/-- A step that is no send into the full channel of a write loop with an upload. -/
def actsSafely (s : ConnectionTasks) (a : TaskAction) : Option ConnectionTasks :=
  match a with
  | .beginsSend =>
    if channelCapacity ≤ s.writer.length ∧ s.writeLoop.holdsUpload = true then none
    else act s .beginsSend
  | a => act s a

theorem actsSafely_eq_some (h : actsSafely s a = some t) :
    ¬ SendsIntoFull s a ∧ act s a = some t := by
  cases a with
  | beginsSend =>
    rw [actsSafely] at h
    split at h
    · cases h
    · rename_i hroom
      exact ⟨fun hfull => hroom hfull.2, h⟩
  | _ =>
    refine ⟨fun hfull => ?_, h⟩
    cases hfull.1

theorem deadlock_free_unless_full_pipeline : ∃ trace s,
    Run actStep (start [true, false]) trace s ∧ s.loop.isSending = true ∧
      channelCapacity ≤ s.writer.length ∧ ∀ x ∈ trace, ¬ Deadlocked x.after := by
  have hacts : ((greetActions ++ pipelineActions).foldlM actsSafely (start [true, false])).any
      (fun s => s.loop.isSending && channelCapacity ≤ s.writer.length) = true := by
    decide +kernel
  obtain ⟨s, hs, hfull⟩ := (Option.any_eq_true _ _).mp hacts
  obtain ⟨hsending, hfull⟩ := (Bool.and_eq_true _ _).mp hfull
  obtain ⟨trace, hsafe, -⟩ := run_of_foldlM Run.nil hs
  have run : Run actStep (start [true, false]) trace s :=
    hsafe.mono fun _ _ _ h => (actsSafely_eq_some h).2
  refine ⟨trace, s, run, hsending, of_decide_eq_true hfull, ?_⟩
  exact (deadlock_free_unless_full run).1 fun x hx =>
    (actsSafely_eq_some (hsafe.step_of_mem hx)).1

/-- The peer is sent a block of our piece, and announces a piece of its own. -/
def deadlockActions : List TaskAction :=
  greetActions ++ [.reads .interested, .takes] ++ sendActions ++
  [.returns, .writerTakes, .writes] ++ [.reads (.request 0 0 1), .takes, .answers (answerWith [])] ++
  sendActions ++ [.returns, .writerTakes] ++ pipelineActions ++ [.writes] ++
  List.replicate 10 (.reads .keepAlive)

/-- `Interested` and ten requests do not fit into the channel while the write loop reports
the block that it has written, and the peer fills up the events. -/
theorem writer_deadlock_reachable :
    ∃ s, Reachable actStep (start [true, false]) s ∧ Deadlocked s := by
  have hacts : (deadlockActions.foldlM act (start [true, false])).map
      (fun s => decide s.Deadlocked) = some true := by
    decide +kernel
  obtain ⟨s, hs, hdead⟩ := Option.map_eq_some_iff.mp hacts
  obtain ⟨trace, run, -⟩ := run_of_foldlM Run.nil hs
  exact ⟨s, ⟨trace, run⟩, of_decide_eq_true hdead⟩

end ConnectionTasks
end TorrentClient
