import TorrentClient.SeededProgress
import TorrentClient.SeededTermination

/-!
# A download from a seeder completes

Whatever the order of the moves, there are no more than `movesBound` of them, and where none is
left every piece is flagged as completed. Of each piece one block has been stored.
-/
namespace TorrentClient
open EffectPrograms TransitionRuns

namespace SeededDownload

variable {sha1 : Bytes → Sha1} {d : Download} {content : Bytes} {s : SeededDownload}
  {greeting : List Message} {trace : List (Step SeededDownload SeededAction)}

/-- A run goes on until no move is left. -/
theorem exists_resting {limit : ℕ}
    (hlimit : ∀ trace t, Run (actStep sha1 content) (start d greeting) trace t →
      trace.length ≤ limit)
    (run : Run (actStep sha1 content) (start d greeting) trace s) :
    ∃ rest t, Run (actStep sha1 content) (start d greeting) (trace ++ rest) t ∧
      Resting sha1 content t := by
  induction hleft : limit - trace.length generalizing trace s with
  | zero =>
    refine ⟨[], s, by rwa [List.append_nil], fun a t hstep => ?_⟩
    have hlonger := hlimit _ _ (run.snoc hstep)
    rw [List.length_append, List.length_singleton] at hlonger
    omega
  | succ left ih =>
    by_cases hrest : Resting sha1 content s
    · exact ⟨[], s, by rwa [List.append_nil], hrest⟩
    · simp only [Resting, not_forall, not_not] at hrest
      obtain ⟨a, t, hstep⟩ := hrest
      have hshorter : limit - (trace ++ [Step.mk s a t]).length = left := by
        rw [List.length_append, List.length_singleton]
        omega
      obtain ⟨rest, u, hrun, hresting⟩ := ih (run.snoc hstep) hshorter
      exact ⟨_, u, by rwa [List.append_assoc] at hrun, hresting⟩

/-- In every run of a download from a seeder there is a bounded number of moves, and a run goes
on until every piece is flagged. Then one block of each piece is that of the content, which is
all of it where no piece has more. -/
theorem seeded_download_completes {disk : String → Bytes} {metaInfo : TorrentMetaInfo}
    (hlaunch : Download.launch disk metaInfo = .ok d)
    (htorrent : Download.TorrentOf sha1 d content) (hn : d.pieces.length ≤ 2 ^ 32)
    (hgreeting : Greeting d.pieces.length greeting)
    (run : Run (actStep sha1 content) (start d greeting) trace s) :
    trace.length ≤ movesBound d greeting ∧
      (∃ rest t, Run (actStep sha1 content) (start d greeting) (trace ++ rest) t ∧
        Resting sha1 content t) ∧
      (Resting sha1 content s → s.link.download.isComplete = true ∧
        KeepsOneBlock d content s.link.download ∧
        ((∀ piece ∈ d.pieces, piece.blocks.length = 1) →
          s.link.download.files.flatten = content)) := by
  have hstart := (Download.launch_eq_ok.mp hlaunch).1
  have hd := Download.continues_start hstart
  obtain ⟨hwf, -, -, hsent, hfresh⟩ := Download.start_spec hstart
  have hlimit : ∀ trace t, Run (actStep sha1 content) (start d greeting) trace t →
      trace.length ≤ movesBound d greeting :=
    fun _ _ => length_le_of_run htorrent hd hn hsent hfresh hgreeting
  refine ⟨hlimit trace s run, exists_resting hlimit run, fun hrest => ?_⟩
  have hsound := sound_of_run htorrent hd hn hsent hfresh hgreeting run
  have hcomplete := hrest.isComplete htorrent hwf hn hsound
  have hkept := hsound.assembled.keepsOneBlock hwf hcomplete
  exact ⟨hcomplete, hkept, hkept.content_eq htorrent hwf hsound.owned.continues⟩

/-- A seeder of one block that tells of its piece before it unchokes us. -/
def oneBlockGreeting : List Message := [.bitfield [128], .unChoke]

theorem greeting_oneBlock : Greeting 1 oneBlockGreeting where
  greets := by
    rintro m hm
    rcases List.mem_pair.mp hm with rfl | rfl
    · refine ⟨Nat.le_refl 1, fun i hi byte hbyte => ?_⟩
      obtain rfl := Nat.lt_one_iff.mp hi
      cases hbyte
      rfl
    · trivial
  unchokes := List.mem_cons_of_mem _ List.mem_cons_self
  announces := fun _ _ => ⟨_, List.mem_cons_self, trivial⟩

theorem seeded_download_completes_oneBlock :
    ∃ d trace s, Download.launch (fun _ => []) Download.oneBlockTorrent = .ok d ∧
      Run (actStep (fun _ => Sha1.replicate 0) [7]) (start d oneBlockGreeting) trace s ∧
      s.link.download.isComplete = true ∧ s.link.download.files.flatten = [7] := by
  have hlaunch : Download.launch (fun _ => []) Download.oneBlockTorrent =
      .ok Download.oneBlockDownload := rfl
  obtain ⟨-, ⟨rest, t, run, hrest⟩, -⟩ := seeded_download_completes hlaunch
    Download.torrentOf_oneBlock (by decide) greeting_oneBlock Run.nil
  obtain ⟨-, -, hdone⟩ := seeded_download_completes hlaunch Download.torrentOf_oneBlock
    (by decide) greeting_oneBlock run
  obtain ⟨hcomplete, -, hcontent⟩ := hdone hrest
  exact ⟨_, _, t, hlaunch, run, hcomplete, hcontent (by decide)⟩

end SeededDownload
end TorrentClient
