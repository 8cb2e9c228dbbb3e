import TorrentClient.BlockOwnership
import TorrentClient.ContentAssembly

/-!
# A download from one seeder

The peer of the connection has the whole content. It tells of its pieces and unchokes us in the
messages of its greeting, and it answers the requests that reach it with the bytes they ask for,
in any order. Everything else is the download task and the connection as they are. The files are
separate sequences of bytes, as they are on a disk where no two entries share a path.
-/
namespace TorrentClient
open TransitionRuns ListRanges

/-- The piece, offset and length that a message asks the peer for. -/
def Message.asked : Message → List (UInt32 × UInt32 × UInt32)
  | .request pieceIndex offset length => [(pieceIndex, offset, length)]
  | _ => []

structure SeededDownload where
  link : ConnectedDownload
  /-- what the seeder has not told us yet -/
  greeting : List Message
  /-- the requests that have reached the seeder and are not answered -/
  pending : List (UInt32 × UInt32 × UInt32)

inductive SeededAction where
  | greets
  | answers (i : ℕ)
  | client (a : Action)
  deriving DecidableEq

/-- The message tells that the peer has the piece. -/
def Message.Announces (i : ℕ) : Message → Prop
  | .have haveIndex => haveIndex.toNat = i
  | .bitfield _ => True
  | _ => False

/-- A seeder of `n` pieces may greet with the message: what it says of its pieces is that it
has them. -/
def Message.Greets (n : ℕ) : Message → Prop
  | .keepAlive => True
  | .unChoke => True
  | .have haveIndex => haveIndex.toNat < n
  | .bitfield bytes => (n + 7) / 8 ≤ bytes.length ∧
      ∀ i < n, ∀ byte, bytes[i / 8]? = some byte → PeerConnection.bitfieldBit byte i = true
  | _ => False

/-- The greeting tells of every piece, and unchokes us. -/
structure Greeting (n : ℕ) (greeting : List Message) : Prop where
  greets : ∀ m ∈ greeting, m.Greets n
  unchokes : .unChoke ∈ greeting
  announces : ∀ i < n, ∃ m ∈ greeting, m.Announces i

namespace SeededDownload

/-- After the handshake, with nothing on its way. -/
def start (d : Download) (greeting : List Message) : SeededDownload where
  link := .start d
  greeting := greeting
  pending := []

/-- The bytes that a request asks for. -/
def answer (s : SeededDownload) (content : Bytes) (r : UInt32 × UInt32 × UInt32) : Message :=
  .piece r.1 r.2.1 (slice content
    (r.1.toNat * s.link.download.metaInfo.pieceLength + r.2.1.toNat) r.2.2.toNat)

/-- The requests that an action of the client brings to the seeder. -/
def reached (s : SeededDownload) : Action → List (UInt32 × UInt32 × UInt32)
  | .writerWrites => s.link.writer.head?.toList.flatMap Message.asked
  | _ => []

def act (sha1 : Bytes → Sha1) (content : Bytes) (s : SeededDownload) :
    SeededAction → Option SeededDownload
  | .greets =>
    match s.greeting with
    | [] => none
    | m :: greeting => (ConnectedDownload.act sha1 s.link (.peerSends m)).map fun link =>
        { s with link, greeting }
  | .answers i =>
    match s.pending[i]? with
    | none => none
    | some r => (ConnectedDownload.act sha1 s.link (.peerSends (s.answer content r))).map
        fun link => { s with link, pending := s.pending.eraseIdx i }
  | .client (.peerSends _) => none
  | .client a => (ConnectedDownload.act sha1 s.link a).map fun link =>
      { s with link, pending := s.pending ++ s.reached a }

def actStep (sha1 : Bytes → Sha1) (content : Bytes) (s : SeededDownload) (a : SeededAction)
    (t : SeededDownload) : Prop :=
  act sha1 content s a = some t

/-- The link after a message of the seeder has been read. -/
def hear (link : ConnectedDownload) (m : Message) : ConnectedDownload :=
  { link with ipcs := link.ipcs ++ [.message m] }

/-- What an action does. -/
inductive Moves (sha1 : Bytes → Sha1) (content : Bytes) (s : SeededDownload) :
    SeededAction → SeededDownload → Prop where
  | greets {m : Message} {greeting : List Message} (hgreeting : s.greeting = m :: greeting)
      (hm : s.link.download.carriesBlocks m = true) :
      Moves sha1 content s .greets { s with link := hear s.link m, greeting }
  | answers {i : ℕ} {r : UInt32 × UInt32 × UInt32} (hpending : s.pending[i]? = some r)
      (hm : s.link.download.carriesBlocks (s.answer content r) = true) :
      Moves sha1 content s (.answers i)
        { s with link := hear s.link (s.answer content r), pending := s.pending.eraseIdx i }
  | client {a : Action} {link : ConnectedDownload} (hown : ∀ m, a ≠ .peerSends m)
      (hmove : ConnectedDownload.Move sha1 s.link a link) :
      Moves sha1 content s (.client a)
        { s with link, pending := s.pending ++ s.reached a }

variable {sha1 : Bytes → Sha1} {content : Bytes} {s t : SeededDownload} {a : SeededAction}

theorem act_peerSends {link link' : ConnectedDownload} {m : Message} :
    ConnectedDownload.act sha1 link (.peerSends m) = some link' ↔
      link.download.carriesBlocks m = true ∧ link' = hear link m := by
  rw [ConnectedDownload.act]
  split_ifs with hm
  · rw [Option.some.injEq, eq_comm (b := link'), hear]
    simp [hm]
  · simp [hm]

theorem act_client {a : Action} (hown : ∀ m, a ≠ .peerSends m) :
    act sha1 content s (.client a) = (ConnectedDownload.act sha1 s.link a).map fun link =>
      { s with link, pending := s.pending ++ s.reached a } := by
  cases a with
  | peerSends m => exact absurd rfl (hown m)
  | _ => rfl

theorem actStep.moves (h : actStep sha1 content s a t) : Moves sha1 content s a t := by
  rw [actStep] at h
  cases a with
  | greets =>
    rw [act] at h
    split at h
    · cases h
    · rename_i m greeting hgreeting
      obtain ⟨link, hlink, rfl⟩ := Option.map_eq_some_iff.mp h
      obtain ⟨hm, rfl⟩ := act_peerSends.mp hlink
      exact .greets hgreeting hm
  | answers i =>
    rw [act] at h
    split at h
    · cases h
    · rename_i r hpending
      obtain ⟨link, hlink, rfl⟩ := Option.map_eq_some_iff.mp h
      obtain ⟨hm, rfl⟩ := act_peerSends.mp hlink
      exact .answers hpending hm
  | client a =>
    have hown : ∀ m, a ≠ .peerSends m := by
      rintro m rfl
      cases h
    rw [act_client hown] at h
    obtain ⟨link, hlink, rfl⟩ := Option.map_eq_some_iff.mp h
    exact .client hown (ConnectedDownload.actStep.move hlink)

/-- The seeder greets. -/
theorem actStep_greets {m : Message} {greeting : List Message} (hgreeting : s.greeting = m :: greeting)
    (hm : s.link.download.carriesBlocks m = true) :
    actStep sha1 content s .greets { s with link := hear s.link m, greeting } := by
  have hlink : ConnectedDownload.act sha1 s.link (.peerSends m) = some (hear s.link m) :=
    act_peerSends.mpr ⟨hm, rfl⟩
  simp only [actStep, act, hgreeting, hlink, Option.map_some]

theorem actStep_answers {i : ℕ} {r : UInt32 × UInt32 × UInt32} (hpending : s.pending[i]? = some r)
    (hm : s.link.download.carriesBlocks (s.answer content r) = true) :
    actStep sha1 content s (.answers i)
      { s with link := hear s.link (s.answer content r), pending := s.pending.eraseIdx i } := by
  have hlink : ConnectedDownload.act sha1 s.link (.peerSends (s.answer content r)) =
      some (hear s.link (s.answer content r)) := act_peerSends.mpr ⟨hm, rfl⟩
  simp only [actStep, act, hpending, hlink, Option.map_some]

theorem actStep_client {a : Action} {link : ConnectedDownload} (hown : ∀ m, a ≠ .peerSends m)
    (h : ConnectedDownload.act sha1 s.link a = some link) :
    actStep sha1 content s (.client a) { s with link, pending := s.pending ++ s.reached a } := by
  rw [actStep, act_client hown, h]
  rfl

/-- To the client the seeder is a peer that sends messages. -/
theorem actStep.link (h : actStep sha1 content s a t) :
    ∃ b, ConnectedDownload.actStep sha1 s.link b t.link := by
  rw [actStep] at h
  cases a with
  | greets =>
    rw [act] at h
    split at h
    · cases h
    · obtain ⟨link, hlink, rfl⟩ := Option.map_eq_some_iff.mp h
      exact ⟨_, hlink⟩
  | answers i =>
    rw [act] at h
    split at h
    · cases h
    · obtain ⟨link, hlink, rfl⟩ := Option.map_eq_some_iff.mp h
      exact ⟨_, hlink⟩
  | client a =>
    have hown : ∀ m, a ≠ .peerSends m := by
      rintro m rfl
      cases h
    rw [act_client hown] at h
    obtain ⟨link, hlink, rfl⟩ := Option.map_eq_some_iff.mp h
    exact ⟨a, hlink⟩

end SeededDownload

/-- What is left to run of the handler of the connection. -/
def Phase.program : Phase → PendingHandler
  | .idle conn => .done (.ok ((), conn))
  | .running rest => rest
  | .awaitingBlocks pieceIndex next => .call (.requireIncompleteBlocks pieceIndex) next
  | .awaitingData request next => .call (.requireData request) next
  | .ended => .done (.error .panic)

end TorrentClient
