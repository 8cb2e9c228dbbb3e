import TorrentClient.WriterDeadlock
import TorrentClient.ClientTasks

/-!
# Loops that are blocked

The write loop of a connection can only wait for room among the events, and the connection loop
for room among the messages or for the end of the write loop. Where neither of them goes on they
have nothing to do, or each waits for the other.
-/
namespace TorrentClient
open EffectPrograms TransitionRuns

namespace ConnectionTasks

variable {s t : ConnectionTasks} {a : TaskAction}

/-- The write loop waits for room among the events of a loop that waits for it in turn: for room
among the messages, or for its end. -/
def Blocked (s : ConnectionTasks) : Prop :=
  s.writeLoop = .notifying ∧ channelCapacity ≤ s.ipcs.length ∧
    (s.loop = .closing ∨ s.loop.isSending = true ∧ channelCapacity ≤ s.writer.length)

/-- Neither loop has anything to do. -/
def Rests (s : ConnectionTasks) : Prop :=
  (s.loop = .ended ∧ s.writeLoop = .ended) ∨
    ∃ conn, s.loop = .idle conn ∧ s.ipcs = [] ∧
      (s.writeLoop = .ended ∨ s.writeLoop = .receiving ∧ s.writer = [])

theorem deliver_of_room {ipc : IPC} (hloop : s.loop.isReceiver = true)
    (hroom : s.ipcs.length < channelCapacity) :
    s.deliver ipc = some { s with ipcs := s.ipcs ++ [ipc] } :=
  if_pos ⟨hloop, hroom⟩

/-- Blocked loops stay where they are. -/
theorem Blocked.stuck (hs : Blocked s) (hown : a.isOwn = true) : act s a = none := by
  obtain ⟨hnotifying, hfull, hclosing | ⟨hsending, hwriter⟩⟩ := hs
  · obtain ⟨loop, writeLoop, ipcs, writer⟩ := s
    cases hnotifying
    cases hclosing
    have hdeliver (ipc : IPC) : deliver ⟨.closing, .notifying, ipcs, writer⟩ ipc = none :=
      if_neg fun hroom => Nat.not_lt_of_le hfull hroom.2
    cases a with
    | reads m => exact hdeliver _
    | broadcasts => cases hown
    | answers => cases hown
    | notifies =>
      rw [act, hdeliver]
      rfl
    | _ => rfl
  · exact Deadlocked.stuck ⟨hsending, hwriter, hnotifying, hfull⟩ a

theorem Blocked.isReceiver (hs : Blocked s) : s.loop.isReceiver = true := by
  obtain ⟨-, -, hclosing | ⟨hsending, -⟩⟩ := hs
  · rw [hclosing]
    rfl
  · exact isReceiver_of_isSending hsending

theorem Blocked.not_running (hs : Blocked s) (rest : PendingHandler) :
    s.loop ≠ .running rest := by
  intro hrunning
  obtain ⟨-, -, hclosing | ⟨hsending, -⟩⟩ := hs
  · rw [hclosing] at hrunning
    cases hrunning
  · rw [hrunning] at hsending
    cases hsending

/-- An upload is in the hands of the write loop or on its way to it. -/
def HasUpload (s : ConnectionTasks) : Prop :=
  s.writeLoop.holdsUpload = true ∨ ∃ m ∈ s.writer, m.isBlockUpload = true

/-- The loop begins a send into a full channel, or its end, while the write loop has an upload to
report. -/
def RisksBlock (s : ConnectionTasks) (a : TaskAction) : Prop :=
  s.SendsIntoFull a ∨ a = .shutsDown ∧ s.HasUpload

/-- A loop waits for the write loop only where this has no upload to report. -/
structure Unblocked (s : ConnectionTasks) : Prop where
  waits : s.WaitsForFree
  closes : s.loop = .closing → ¬ s.HasUpload

/-- A loop that does not wait is not blocked, whatever the write loop does. -/
theorem Unblocked.running (h : s.Unblocked) (rest : PendingHandler) :
    Unblocked { s with loop := .running rest } :=
  ⟨⟨h.waits.length_le, fun hsending => by cases hsending⟩, fun hclosing => by cases hclosing⟩

theorem Unblocked.congr (h : s.Unblocked) (hloop : t.loop = s.loop) (hwriter : t.writer = s.writer)
    (hwriteLoop : t.writeLoop = s.writeLoop) : t.Unblocked := by
  obtain ⟨⟨hlength, hfree⟩, hcloses⟩ := h
  refine ⟨⟨?_, ?_⟩, ?_⟩
  · rwa [hwriter]
  · rwa [hloop, hwriter, hwriteLoop]
  · rwa [HasUpload, hloop, hwriter, hwriteLoop]

end ConnectionTasks
end TorrentClient
