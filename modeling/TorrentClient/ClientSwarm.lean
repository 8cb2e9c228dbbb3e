import TorrentClient.ClientActs
import TorrentClient.PeerMessageStream
import Mathlib.Logic.Function.Basic

/-!
# Clients among themselves

Any number of clients that are connected to each other: what the write loop of a connection
writes is what the read loop at its other end reads. A `Piece` is written with the tag of a
`Request`, so no client of this program ever reads one from another, and no download changes.
-/
namespace TorrentClient
open TransitionRuns

/-- A client and one of its connections. -/
abbrev ConnectionEnd (ι : Type) := ι × ℕ

structure Swarm (ι : Type) where
  clients : ι → Client
  /-- the bytes that are on the way to a connection -/
  wires : ConnectionEnd ι → Bytes

inductive SwarmAction (ι : Type) where
  /-- a move of a client that neither writes to a connection nor reads from one -/
  | acts (i : ι) (a : ClientAction)
  | writes (i : ι) (id : ℕ) (m : Message)
  | reads (i : ι) (id : ℕ) (m : Message)

/-- The move is one of the client alone. -/
def ClientAction.isLocal : ClientAction → Bool
  | .peerSends .. => false
  | .writerWrites _ => false
  | _ => true

namespace Swarm

variable {ι : Type} [DecidableEq ι]

/-- The clients when their managers enter their loops. -/
def start (managers : ι → Manager) (downloads : ι → Download) : Swarm ι :=
  ⟨fun i => .start (managers i) (downloads i), fun _ => []⟩

/-- One move of one client; `link` is the other end of a connection. -/
inductive Moves (sha1 : Bytes → Sha1) (link : ConnectionEnd ι → ConnectionEnd ι) (s : Swarm ι) :
    SwarmAction ι → Swarm ι → Prop where
  | acts {i : ι} {a : ClientAction} {client : Client} (hlocal : a.isLocal = true)
      (move : (s.clients i).Moves sha1 a client) :
      Moves sha1 link s (.acts i a) { s with clients := Function.update s.clients i client }
  | writes {i : ι} {id : ℕ} {c : Connection} {m : Message} {client : Client}
      (hc : (s.clients i).connections[id]? = some c) (hm : c.writer.head? = some m)
      (move : (s.clients i).Moves sha1 (.writerWrites id) client) :
      Moves sha1 link s (.writes i id m)
        { clients := Function.update s.clients i client
          wires := Function.update s.wires (link (i, id)) (s.wires (link (i, id)) ++ m.serialize) }
  | reads {i : ι} {id : ℕ} {m : Message} {rest : Bytes} {client : Client}
      (hread : readMessage (s.wires (i, id)) = .ok (m, rest))
      (move : (s.clients i).Moves sha1 (.peerSends id m) client) :
      Moves sha1 link s (.reads i id m)
        { clients := Function.update s.clients i client
          wires := Function.update s.wires (i, id) rest }

/-- A move as a function, as those of a client are. -/
def act (sha1 : Bytes → Sha1) (link : ConnectionEnd ι → ConnectionEnd ι) (s : Swarm ι) :
    SwarmAction ι → Option (Swarm ι)
  | .acts i a =>
    if a.isLocal then
      ((s.clients i).act sha1 a).map fun client =>
        { s with clients := Function.update s.clients i client }
    else none
  | .writes i id m => do
    let c ← (s.clients i).connections[id]?
    if c.writer.head? = some m then
      ((s.clients i).act sha1 (.writerWrites id)).map fun client =>
        { clients := Function.update s.clients i client
          wires := Function.update s.wires (link (i, id)) (s.wires (link (i, id)) ++ m.serialize) }
    else none
  | .reads i id m =>
    match readMessage (s.wires (i, id)) with
    | .ok (m', rest) =>
      if m' = m then
        ((s.clients i).act sha1 (.peerSends id m)).map fun client =>
          { clients := Function.update s.clients i client
            wires := Function.update s.wires (i, id) rest }
      else none
    | .error _ => none

variable {sha1 : Bytes → Sha1} {link : ConnectionEnd ι → ConnectionEnd ι} {s t : Swarm ι}

theorem moves_of_act {a : SwarmAction ι} (h : s.act sha1 link a = some t) :
    s.Moves sha1 link a t := by
  cases a with
  | acts i a =>
    rw [act] at h
    split at h
    · rename_i hlocal
      obtain ⟨client, hclient, rfl⟩ := Option.map_eq_some_iff.mp h
      exact .acts hlocal (Client.moves_of_act hclient)
    · cases h
  | writes i id m =>
    obtain ⟨c, hc, h⟩ := Option.bind_eq_some_iff.mp h
    split at h
    · rename_i hm
      obtain ⟨client, hclient, rfl⟩ := Option.map_eq_some_iff.mp h
      exact .writes hc hm (Client.moves_of_act hclient)
    · cases h
  | reads i id m =>
    rw [act] at h
    split at h
    · rename_i m' rest hread
      split at h
      · rename_i heq
        cases heq
        obtain ⟨client, hclient, rfl⟩ := Option.map_eq_some_iff.mp h
        exact .reads hread (Client.moves_of_act hclient)
      · cases h
    · cases h

theorem run_of_acts {actions : List (SwarmAction ι)}
    (h : actions.foldlM (act sha1 link) s = some t) :
    ∃ trace, Run (Moves sha1 link) s trace t ∧ trace.map (·.label) = actions := by
  obtain ⟨trace, run, hlabels⟩ := run_of_foldlM Run.nil h
  exact ⟨trace, run.mono fun _ _ _ => moves_of_act, hlabels⟩

end Swarm

/-- The length of the frame fits into its four bytes. -/
def SwarmAction.Fits {ι : Type} : SwarmAction ι → Prop
  | .writes _ _ m => m.payload.length < 2 ^ 32
  | _ => True

instance {ι : Type} : (a : SwarmAction ι) → Decidable a.Fits
  | .acts _ _ => isTrue trivial
  | .writes _ _ m => inferInstanceAs (Decidable (m.payload.length < 2 ^ 32))
  | .reads _ _ _ => isTrue trivial
/-- The bytes are whole frames. -/
def Framed (wire : Bytes) : Prop :=
  ∃ messages : List Message, (∀ m ∈ messages, m.payload.length < 2 ^ 32) ∧
    wire = messages.flatMap Message.serialize

theorem Framed.nil : Framed [] := ⟨[], by simp, rfl⟩

theorem Framed.append {wire : Bytes} {m : Message} (h : Framed wire)
    (hm : m.payload.length < 2 ^ 32) : Framed (wire ++ m.serialize) := by
  obtain ⟨messages, hfits, rfl⟩ := h
  refine ⟨messages ++ [m], ?_, by simp⟩
  intro m' hm'
  rcases List.mem_append.mp hm' with hm' | hm'
  · exact hfits m' hm'
  · rw [List.mem_singleton.mp hm']
    exact hm

/-- What is read in front of some bytes ends where its frame ended, and it is no `Piece`. -/
theorem readMessage_serialize_append {m m' : Message} {rest rest' : Bytes}
    (hm : m.payload.length < 2 ^ 32) (hread : readMessage (m.serialize ++ rest) = .ok (m', rest')) :
    m'.isPiece = false ∧ rest' = rest := by
  cases hp : m.isPiece with
  | false =>
    rw [readMessage_serialize m hp hm] at hread
    cases hread
    exact ⟨hp, rfl⟩
  | true =>
    cases m with
    | piece index offset data =>
      refine ⟨readMessage_serialize_piece index offset data rest hm hread, ?_⟩
      rw [Message.serialize, List.append_assoc] at hread
      have hframe := readMessage_framed 6 (u32ToBytes index ++ u32ToBytes offset ++ data) rest hm
      obtain ⟨_, _, hpure⟩ := bind_eq_ok.mp (hframe.symm.trans hread)
      cases hpure
      rfl
    | _ => cases hp

theorem Framed.read {wire rest : Bytes} {m : Message} (h : Framed wire)
    (hread : readMessage wire = .ok (m, rest)) : m.isPiece = false ∧ Framed rest := by
  obtain ⟨messages, hfits, rfl⟩ := h
  cases messages with
  | nil => cases hread
  | cons m' messages =>
    rw [List.forall_mem_cons] at hfits
    obtain ⟨hm, rfl⟩ := readMessage_serialize_append hfits.1 hread
    exact ⟨hm, messages, hfits.2, rfl⟩

end TorrentClient
