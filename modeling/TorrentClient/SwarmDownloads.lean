import TorrentClient.ClientSwarm
import TorrentClient.PieceCompletion
import TorrentClient.UnfedClients

/-!
# Downloads among clients of one kind

What goes over the wires are whole frames, and none of them is read as a `Piece`. So in a swarm
of clients of this program every download stays what it was.
-/
namespace TorrentClient
open TransitionRuns

namespace Swarm

variable {ι : Type} [DecidableEq ι] {sha1 : Bytes → Sha1} {link : ConnectionEnd ι → ConnectionEnd ι}
  {downloads : ι → Download} {s t : Swarm ι}

/-- No client has got a block, and what is on the way to them are frames. -/
structure Unfed (downloads : ι → Download) (s : Swarm ι) : Prop where
  clients : ∀ i, (s.clients i).Unfed (downloads i)
  wires : ∀ e, Framed (s.wires e)

theorem unfed_update {i : ι} {client : Client} (h : s.Unfed downloads)
    (hclient : client.Unfed (downloads i)) :
    ∀ j, (Function.update s.clients i client j).Unfed (downloads j) := by
  intro j
  by_cases hj : j = i
  · subst hj
    simpa using hclient
  · simpa [hj] using h.clients j

theorem framed_update {e : ConnectionEnd ι} {wire : Bytes} (h : s.Unfed downloads)
    (hwire : Framed wire) : ∀ e', Framed (Function.update s.wires e wire e') := by
  intro e'
  by_cases he : e' = e
  · subst he
    simpa using hwire
  · simpa [he] using h.wires e'

theorem Moves.unfed {a : SwarmAction ι} (h : s.Unfed downloads) (hmove : s.Moves sha1 link a t)
    (hfits : a.Fits) : t.Unfed downloads := by
  cases hmove with
  | @acts i a client hlocal move =>
    refine ⟨unfed_update h (move.unfed (h.clients i) ?_), h.wires⟩
    rintro id m rfl
    cases hlocal
  | @writes i id c m client hc hm move =>
    refine ⟨unfed_update h (move.unfed (h.clients i) ?_), framed_update h ?_⟩
    · rintro id' m' heq
      cases heq
    · exact (h.wires _).append hfits
  | @reads i id m rest client hread move =>
    obtain ⟨hm, hrest⟩ := (h.wires (i, id)).read hread
    refine ⟨unfed_update h (move.unfed (h.clients i) ?_), framed_update h hrest⟩
    rintro id' m' heq
    cases heq
    exact hm

/-- Among clients of this program no block ever goes from one to another: in every run in which
the lengths of the frames fit into their fields, the downloads stay what they were. -/
theorem downloads_never_change {managers : ι → Manager}
    {trace : List (Step (Swarm ι) (SwarmAction ι))}
    (run : Run (Moves sha1 link) (start managers downloads) trace s)
    (hfits : ∀ x ∈ trace, x.label.Fits) :
    (∀ i, (s.clients i).download = downloads i) ∧
      ∀ i, ∀ c ∈ (s.clients i).connections, ∀ ipc ∈ c.ipcs, ipc.isPiece = false := by
  have hstart : (start managers downloads).Unfed downloads :=
    ⟨fun i => Client.unfed_start (managers i), fun _ => .nil⟩
  have h : s.Unfed downloads := run.invariant_of_mem hstart fun x hx hbefore hmove =>
    hmove.unfed hbefore (hfits x hx)
  exact ⟨fun i => (h.clients i).download, fun i c hc => ((h.clients i).connections c hc).ipcs⟩

/-- The empty download of a torrent of one block of four bytes. -/
def fourByteDownload : Download where
  metaInfo := .singleFile "f" 4 4 [Sha1.replicate 0]
  pieces := [⟨4, 0, Sha1.replicate 0, [Block.new 0 4], false⟩]
  filePaths := ["downloads/f.temp"]
  files := [[0, 0, 0, 0]]
  fileOffsets := [0, 4]
  sent := []
  checks := []

def completedDownload : Download :=
  { fourByteDownload with
    pieces := [⟨4, 0, Sha1.replicate 0, [⟨0, 4, true⟩], true⟩]
    filePaths := ["downloads/f"]
    files := [[7, 7, 7, 7]] }

/-- One client has the block, and the other has not. -/
def twoClients : Swarm Bool :=
  start (fun _ => Manager.new fourByteDownload.metaInfo ["downloads/f.temp"]) fun i =>
    if i then completedDownload else fourByteDownload

/-- The two clients greet each other, the one without the block gets to send its request, and the
answer is read by it. -/
def blockActions : List (SwarmAction Bool) :=
  (Client.startActions ⟨"10.0.0.1", 6881⟩ 0 ++ Client.greetActions 0).map (.acts false) ++
  (Client.startActions ⟨"10.0.0.2", 6881⟩ 0 ++ Client.greetActions 0).map (.acts true) ++
  [.writes true 0 (.bitfield [128]), .reads false 0 (.bitfield [128])] ++
  (Client.askActions 0).map (.acts false) ++
  [.writes false 0 (.bitfield [0]), .writes false 0 .interested, .reads true 0 (.bitfield [0]),
    .reads true 0 .interested] ++
  (Client.handleActions 0 0 ++ Client.handleActions 0 1).map (.acts true) ++
  [.writes true 0 .unChoke, .reads false 0 .unChoke] ++
  (Client.handleActions 0 2).map (.acts false) ++
  [.writes false 0 (.request 0 0 4), .reads true 0 (.request 0 0 4)] ++
  (Client.askActions 0).map (.acts true) ++
  [.writes true 0 (.piece 0 0 [7, 7, 7, 7]), .reads false 0 (.request 0 0 0x7070707)]

/-- A block is sent for a request, and its four bytes are read as the length of a request. -/
theorem downloads_never_change_block : ∃ trace s,
    Run (Moves (fun _ => Sha1.replicate 0) fun e : ConnectionEnd Bool => (!e.1, e.2)) twoClients
      trace s ∧
    SwarmAction.writes true 0 (.piece 0 0 [7, 7, 7, 7]) ∈ trace.map (·.label) ∧
    (s.clients false).connections.map (·.ipcs) = [[.message (.request 0 0 0x7070707)]] ∧
    (s.clients false).download = fourByteDownload := by
  have hacts : (blockActions.foldlM
      (act (fun _ => Sha1.replicate 0) fun e : ConnectionEnd Bool => (!e.1, e.2)) twoClients).any
      (fun s => (s.clients false).connections.map (·.ipcs) =
        [[.message (.request 0 0 0x7070707)]]) = true := by
    decide +kernel
  obtain ⟨s, hs, hipcs⟩ := (Option.any_eq_true _ _).mp hacts
  obtain ⟨trace, run, hlabels⟩ := run_of_acts hs
  have hfits : ∀ a ∈ blockActions, a.Fits := by decide +kernel
  have hdownloads := downloads_never_change run fun x hx =>
    hfits _ (hlabels ▸ List.mem_map_of_mem hx)
  refine ⟨trace, s, run, ?_, of_decide_eq_true hipcs, hdownloads.1 false⟩
  rw [hlabels]
  simp [blockActions]

end Swarm
end TorrentClient
