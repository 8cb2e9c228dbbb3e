import TorrentClient.Handshake

/-!
# What the handshake agrees on

Two clients that shake hands with each other both go on or both give up, in whatever order
they move, unless both of them wait for the other one. What the receiving side accepts is
described for any stream: the name of the protocol is not looked at.
-/
namespace TorrentClient
open EffectPrograms StreamPrograms TransitionRuns

namespace Handshake
open Task

variable {h g : Handshake} {α : Type} {n : ℕ}

theorem feed_receiveN_bind {f : Bytes → StreamTask α} {stream rest : Bytes} {a : α × Unit} :
    feed ((receiveN n >>= f) ()) stream = (.ok a, rest) ↔
      ∃ bytes stream', bytes.length = n ∧ stream = bytes ++ stream' ∧
        feed (f bytes ()) stream' = (.ok a, rest) := by
  change feed (.call (.read n) _) stream = _ ↔ _
  rw [feed]
  split_ifs with hn
  · constructor
    · intro hfeed
      exact ⟨stream.take n, stream.drop n, List.length_take_of_le hn,
        (List.take_append_drop n stream).symm, hfeed⟩
    · rintro ⟨bytes, stream', rfl, rfl, hfeed⟩
      rw [List.take_left, List.drop_left]
      exact hfeed
  · constructor
    · intro hfeed
      cases hfeed
    · rintro ⟨bytes, stream', rfl, rfl, -⟩
      exact absurd (by simp) hn

theorem validate_eq_ok {infoHash peerId : Bytes} :
    h.validate infoHash peerId = .ok () ↔
      infoHash = h.infoHash.bytes ∧ peerId ≠ asBytes h.ourPeerId := by
  rw [validate]
  split_ifs with hhash hid
  · simp [hhash]
  · simp [hid]
  · simpa [hid] using hhash

theorem feed_lift {x : Outcome Unit} {stream rest : Bytes} :
    feed ((lift x : StreamTask Unit) ()) stream = (.ok ((), ()), rest) ↔
      x = .ok () ∧ stream = rest := by
  cases x with
  | ok u =>
    change (Except.ok (u, ()), stream) = (Except.ok ((), ()), rest) ↔ _
    simp
  | error e =>
    change (Except.error e, stream) = (Except.ok ((), ()), rest) ↔ _
    simp

/-- A stream that starts with a handshake for this info hash of another peer. -/
def StartsConnection (h : Handshake) (stream rest : Bytes) : Prop :=
  ∃ len pstr reserved peerId, stream =
      len :: (pstr ++ (reserved ++ (h.infoHash.bytes ++ (peerId ++ rest)))) ∧
    pstr.length = len.toNat ∧ reserved.length = 8 ∧ peerId.length = 20 ∧
    peerId ≠ asBytes h.ourPeerId

theorem feed_receiveHandshake {stream rest : Bytes} :
    feed (h.receiveHandshake ()) stream = (.ok ((), ()), rest) ↔
      h.StartsConnection stream rest := by
  rw [receiveHandshake, feed_receiveN_bind]
  constructor
  · rintro ⟨pstrlen, stream₁, hlen, rfl, hfeed₁⟩
    obtain ⟨len, rfl⟩ := List.length_eq_one_iff.mp hlen
    obtain ⟨pstr, stream₂, hpstr, rfl, hfeed₂⟩ := feed_receiveN_bind.mp hfeed₁
    obtain ⟨reserved, stream₃, hreserved, rfl, hfeed₃⟩ := feed_receiveN_bind.mp hfeed₂
    obtain ⟨infoHash, stream₄, -, rfl, hfeed₄⟩ := feed_receiveN_bind.mp hfeed₃
    obtain ⟨peerId, stream₅, hid, rfl, hfeed₅⟩ := feed_receiveN_bind.mp hfeed₄
    obtain ⟨hvalid, rfl⟩ := feed_lift.mp hfeed₅
    obtain ⟨rfl, hother⟩ := validate_eq_ok.mp hvalid
    exact ⟨len, pstr, reserved, peerId, rfl, hpstr, hreserved, hid, hother⟩
  · rintro ⟨len, pstr, reserved, peerId, rfl, hpstr, hreserved, hid, hother⟩
    refine ⟨[len], _, rfl, rfl, ?_⟩
    refine feed_receiveN_bind.mpr ⟨pstr, _, hpstr, rfl, ?_⟩
    refine feed_receiveN_bind.mpr ⟨reserved, _, hreserved, rfl, ?_⟩
    refine feed_receiveN_bind.mpr ⟨h.infoHash.bytes, _, h.infoHash.size, rfl, ?_⟩
    refine feed_receiveN_bind.mpr ⟨peerId, rest, hid, rfl, ?_⟩
    exact feed_lift.mpr ⟨validate_eq_ok.mpr ⟨rfl, hother⟩, rfl⟩

/-- Whatever the peer has sent when it closes the stream: all runs come to rest in one state, in
which the handshake is accepted exactly if the stream starts with one, and the rest is unread. -/
theorem receiveHandshake_accepts_iff (h : Handshake) (stream : Bytes) :
    ∃ n t, Rests Joined.Moves
        (⟨⟨h.receiveHandshake (), stream⟩, ⟨.done (), []⟩⟩ : Joined UInt8 _ Unit) n t ∧
      (∀ trace s, Run Joined.Moves ⟨⟨h.receiveHandshake (), stream⟩, ⟨.done (), []⟩⟩ trace s →
        Stuck Joined.Moves s → s = t) ∧
      ∀ rest, t.left = ⟨.done (.ok ((), ())), rest⟩ ↔ h.StartsConnection stream rest := by
  obtain ⟨n, inbox', hfeed⟩ := rests_feed (h.receiveHandshake ()) stream () []
  refine ⟨n, _, hfeed, fun trace s run hstuck => Joined.diamond.eq_of_stuck hfeed run hstuck, ?_⟩
  intro rest
  rw [← feed_receiveHandshake, Prod.ext_iff]
  simp

section Receiving

variable {α' : Type} {k : Except (Fault String) (Unit × Unit) → StreamProgram UInt8 α}
  {rest : Bytes} {q : Party UInt8 α'} {t : Joined UInt8 α α'}

theorem rests_receiveN {f : Bytes → StreamTask Unit} {bytes : Bytes} {k' : ℕ}
    (hk : bytes.length = k')
    (h : Rests Joined.Moves ⟨⟨(f bytes ()).bind k, rest⟩, q⟩ n t) :
    Rests Joined.Moves ⟨⟨((receiveN k' >>= f) ()).bind k, bytes ++ rest⟩, q⟩ (n + 1) t := by
  subst hk
  exact Joined.rests_read h

/-- The left program receives the handshake that stands at the front of its inbox. -/
theorem rests_receive (hid : (asBytes g.ourPeerId).length = 20)
    (hrest : Rests Joined.Moves
      ⟨⟨((lift (h.validate g.infoHash.bytes (asBytes g.ourPeerId)) : StreamTask Unit) ()).bind k,
        rest⟩, q⟩ n t) :
    Rests Joined.Moves ⟨⟨(h.receiveHandshake ()).bind k, g.message ++ rest⟩, q⟩ (n + 5) t := by
  have hname : (asBytes protocol).length = (UInt8.ofNat (asBytes protocol).length).toNat := by
    decide
  simp only [message, List.append_assoc]
  refine rests_receiveN rfl ?_
  refine rests_receiveN hname ?_
  refine rests_receiveN List.length_replicate ?_
  refine rests_receiveN g.infoHash.size ?_
  exact rests_receiveN hid hrest

end Receiving

/-- What the handshake ends in: a failure, or the connection goes on. -/
abbrev Verdict := Except (Fault String) (Unit × Unit)

def start (h g : Handshake) (first first' : Bool) : Joined UInt8 Verdict Verdict :=
  ⟨⟨h.handshake first (), []⟩, ⟨g.handshake first' (), []⟩⟩

/-- The two clients have the same torrent and different ids. -/
def Matches (h g : Handshake) : Prop := h.infoHash = g.infoHash ∧ h.ourPeerId ≠ g.ourPeerId

/-- Both sides go on, and nothing that was sent is left over. -/
def Agreed (s : Joined UInt8 Verdict Verdict) : Prop :=
  s = ⟨⟨.done (.ok ((), ())), []⟩, ⟨.done (.ok ((), ())), []⟩⟩

/-- Both sides give up. -/
def Refused (s : Joined UInt8 Verdict Verdict) : Prop :=
  ∃ e e', s.left.program = .done (.error e) ∧ s.right.program = .done (.error e')

/-- The two sides go on together or give up together. -/
def Settled (h g : Handshake) (s : Joined UInt8 Verdict Verdict) : Prop :=
  (h.Matches g ∧ Agreed s) ∨ (¬ h.Matches g ∧ Refused s)

theorem Matches.symm (hm : h.Matches g) : g.Matches h := ⟨hm.1.symm, hm.2.symm⟩

theorem Settled.swap {s : Joined UInt8 Verdict Verdict} (hs : g.Settled h s) :
    h.Settled g s.swap := by
  rcases hs with ⟨hm, rfl⟩ | ⟨hm, e, e', hleft, hright⟩
  · exact Or.inl ⟨hm.symm, rfl⟩
  · exact Or.inr ⟨fun hm' => hm hm'.symm, e', e, hright, hleft⟩

/-- What one side makes of the handshake of the other one. -/
def verdict (h g : Handshake) : Verdict :=
  (h.validate g.infoHash.bytes (asBytes g.ourPeerId)).map (·, ())

theorem lift_validate (h g : Handshake) :
    (lift (h.validate g.infoHash.bytes (asBytes g.ourPeerId)) : StreamTask Unit) () =
      .done (h.verdict g) := by
  rw [verdict]
  cases h.validate g.infoHash.bytes (asBytes g.ourPeerId) with
  | ok u => rfl
  | error e => rfl

theorem validate_of_matches (hm : h.Matches g) :
    h.validate g.infoHash.bytes (asBytes g.ourPeerId) = .ok () :=
  validate_eq_ok.mpr ⟨by rw [hm.1], fun hid => hm.2 (asBytes_injective hid).symm⟩

theorem sha1_eq_of_bytes {x y : Sha1} (hbytes : x.bytes = y.bytes) : x = y := by
  cases x
  cases y
  cases hbytes
  rfl

theorem validate_of_not_matches (hm : ¬ h.Matches g) :
    ∃ e, h.validate g.infoHash.bytes (asBytes g.ourPeerId) = .error e := by
  cases hvalid : h.validate g.infoHash.bytes (asBytes g.ourPeerId) with
  | ok u =>
    obtain ⟨hhash, hid⟩ := validate_eq_ok.mp hvalid
    refine absurd ⟨(sha1_eq_of_bytes hhash).symm, ?_⟩ hm
    intro heq
    exact hid (congrArg asBytes heq.symm)
  | error e => exact ⟨e, rfl⟩

theorem verdict_of_matches (hm : h.Matches g) : h.verdict g = .ok ((), ()) := by
  rw [verdict, validate_of_matches hm]
  rfl

theorem verdict_of_not_matches (hm : ¬ h.Matches g) : ∃ e, h.verdict g = .error e := by
  obtain ⟨e, he⟩ := validate_of_not_matches hm
  exact ⟨e, by rw [verdict, he]; rfl⟩

/-- Both clients send before they receive. -/
theorem rests_both_first (hid : (asBytes h.ourPeerId).length = 20)
    (hid' : (asBytes g.ourPeerId).length = 20) :
    Rests Joined.Moves (start h g true true) 12
      ⟨⟨.done (h.verdict g), []⟩, ⟨.done (g.verdict h), []⟩⟩ := by
  refine .step (.left (.writes rfl)) (.step (.right (.writes rfl)) ?_)
  change Rests Joined.Moves ⟨⟨h.receiveHandshake (), g.message⟩, ⟨g.receiveHandshake (), h.message⟩⟩
    10 _
  rw [← Program.bind_done (h.receiveHandshake ()), ← List.append_nil g.message]
  refine rests_receive (n := 5) hid' ?_
  rw [Program.bind_done, lift_validate]
  refine Joined.rests_swap (s := ⟨⟨g.receiveHandshake (), h.message⟩, _⟩)
    (t := ⟨⟨.done (g.verdict h), []⟩, _⟩) ?_
  rw [← Program.bind_done (g.receiveHandshake ()), ← List.append_nil h.message]
  refine rests_receive (n := 0) hid ?_
  rw [Program.bind_done, lift_validate]
  exact .stuck (Joined.stuck_done _ _ _ _)

/-- Behind the first handshake, seen from the side that has waited for it. -/
theorem rests_waiting (hid : (asBytes h.ourPeerId).length = 20)
    (hid' : (asBytes g.ourPeerId).length = 20) :
    ∃ n ≤ 11, ∃ t, Rests Joined.Moves
      ⟨⟨g.handshake false (), h.message⟩, ⟨h.receiveHandshake (), []⟩⟩ n t ∧ g.Settled h t := by
  have hreceives {n : ℕ} {t : Joined UInt8 Verdict Verdict}
      (hrest : Rests Joined.Moves
        ⟨⟨((lift (g.validate h.infoHash.bytes (asBytes h.ourPeerId)) : StreamTask Unit) >>=
          fun _ => g.sendHandshake) (), []⟩, ⟨h.receiveHandshake (), []⟩⟩ n t) :
      Rests Joined.Moves
        ⟨⟨g.handshake false (), h.message⟩, ⟨h.receiveHandshake (), []⟩⟩ (n + 5) t := by
    have hall := rests_receive hid hrest
    rw [List.append_nil] at hall
    exact hall
  by_cases hm : g.Matches h
  · refine ⟨11, le_rfl, ⟨⟨.done (.ok ((), ())), []⟩, ⟨.done (h.verdict g), []⟩⟩,
      hreceives (n := 6) ?_, ?_⟩
    · rw [validate_of_matches hm]
      refine .step (.left (.writes rfl)) ?_
      refine Joined.rests_swap (s := ⟨⟨h.receiveHandshake (), g.message⟩, _⟩)
        (t := ⟨⟨.done (h.verdict g), []⟩, _⟩) ?_
      rw [← Program.bind_done (h.receiveHandshake ()), ← List.append_nil g.message]
      refine rests_receive (n := 0) hid' ?_
      rw [Program.bind_done, lift_validate]
      exact .stuck (Joined.stuck_done _ _ _ _)
    · rw [verdict_of_matches hm.symm]
      exact Or.inl ⟨hm, rfl⟩
  · obtain ⟨e, he⟩ := validate_of_not_matches hm
    refine ⟨6, by omega, ⟨⟨.done (.error e), []⟩,
      ⟨.done (.error (.err "unexpected end of file")), []⟩⟩, hreceives (n := 1) ?_, ?_⟩
    · rw [he]
      refine .step (.right (.fails rfl Nat.one_pos rfl)) ?_
      exact .stuck (Joined.stuck_done _ _ _ _)
    · exact Or.inr ⟨hm, e, _, rfl, rfl⟩

/-- Unless both clients wait, they come to rest. -/
theorem rests_start (hid : (asBytes h.ourPeerId).length = 20)
    (hid' : (asBytes g.ourPeerId).length = 20) {first first' : Bool}
    (hfirst : first = true ∨ first' = true) :
    ∃ n ≤ 12, ∃ t, Rests Joined.Moves (start h g first first') n t ∧ h.Settled g t := by
  match first, first', hfirst with
  | true, true, _ =>
    refine ⟨12, le_rfl, _, rests_both_first hid hid', ?_⟩
    by_cases hm : h.Matches g
    · rw [verdict_of_matches hm, verdict_of_matches hm.symm]
      exact Or.inl ⟨hm, rfl⟩
    · obtain ⟨e, he⟩ := verdict_of_not_matches hm
      obtain ⟨e', he'⟩ := verdict_of_not_matches fun hm' => hm (Matches.symm hm')
      rw [he, he']
      exact Or.inr ⟨hm, e, e', rfl, rfl⟩
  | true, false, _ =>
    obtain ⟨n, hn, t, hrest, hsettled⟩ := rests_waiting (h := h) (g := g) hid hid'
    exact ⟨n + 1, by omega, t.swap, .step (.left (.writes rfl)) (Joined.rests_swap hrest),
      hsettled.swap⟩
  | false, true, _ =>
    obtain ⟨n, hn, t, hrest, hsettled⟩ := rests_waiting (h := g) (g := h) hid' hid
    exact ⟨n + 1, by omega, t, .step (.right (.writes rfl)) hrest, hsettled⟩

/-- Where both clients wait, neither ever moves. -/
theorem stuck_both_wait : Stuck Joined.Moves (start h g false false) := by
  intro e t hmove
  cases hmove with
  | left hadv =>
    cases hadv with
    | writes hcall => cases hcall
    | reads hcall hn =>
      cases hcall
      cases hn
    | fails hcall hn hover => cases hover
  | right hadv =>
    cases hadv with
    | writes hcall => cases hcall
    | reads hcall hn =>
      cases hcall
      cases hn
    | fails hcall hn hover => cases hover

/-- However two clients move, at most twelve moves are made, each state has a way to rest, and
where they rest they have settled. If both wait for the other one, nothing ever happens. -/
theorem handshake_settles (hid : (asBytes h.ourPeerId).length = 20)
    (hid' : (asBytes g.ourPeerId).length = 20) {first first' : Bool}
    {trace : List (Step (Joined UInt8 Verdict Verdict) Side)} {s : Joined UInt8 Verdict Verdict}
    (run : Run Joined.Moves (start h g first first') trace s) :
    (first = true ∨ first' = true → trace.length ≤ 12 ∧ (∃ n t, Rests Joined.Moves s n t) ∧
      (Stuck Joined.Moves s → h.Settled g s)) ∧
    (first = false → first' = false → Stuck Joined.Moves s ∧ s = start h g false false) := by
  constructor
  · intro hfirst
    obtain ⟨n, hn, t, hrest, hsettled⟩ := rests_start hid hid' hfirst
    obtain ⟨m, hm, hrest'⟩ := Joined.diamond.rests_of_run hrest run
    refine ⟨by omega, ⟨m, t, hrest'⟩, fun hstuck => ?_⟩
    rw [Joined.diamond.eq_of_stuck hrest run hstuck]
    exact hsettled
  · rintro rfl rfl
    have hs := Joined.diamond.rests_of_run (.stuck stuck_both_wait) run
    obtain ⟨m, hm, hrest⟩ := hs
    obtain rfl : m = 0 := by omega
    cases hrest with
    | stuck hstuck => exact ⟨hstuck, rfl⟩

/-- Two clients with one torrent, of which the right one waits, agree; with two torrents they
give up. -/
theorem handshake_settles_twice :
    (∃ s, Reachable Joined.Moves (start ⟨"-RC0001-aaaaaaaaaaaa", .replicate 1⟩
      ⟨"-RC0001-bbbbbbbbbbbb", .replicate 1⟩ true false) s ∧ Stuck Joined.Moves s ∧ Agreed s) ∧
    ∃ s, Reachable Joined.Moves (start ⟨"-RC0001-aaaaaaaaaaaa", .replicate 1⟩
      ⟨"-RC0001-bbbbbbbbbbbb", .replicate 2⟩ true true) s ∧ Stuck Joined.Moves s ∧ Refused s := by
  constructor
  · obtain ⟨n, s, hrest⟩ := ((handshake_settles (h := ⟨"-RC0001-aaaaaaaaaaaa", .replicate 1⟩)
      (g := ⟨"-RC0001-bbbbbbbbbbbb", .replicate 1⟩) (by decide) (by decide)
      Run.nil).1 (Or.inl rfl)).2.1
    obtain ⟨trace, run⟩ := hrest.reachable
    have hsettled := ((handshake_settles (by decide) (by decide) run).1 (Or.inl rfl)).2.2
      hrest.isStuck
    rcases hsettled with ⟨-, hagreed⟩ | ⟨hm, -⟩
    · exact ⟨s, ⟨trace, run⟩, hrest.isStuck, hagreed⟩
    · exact absurd ⟨rfl, by decide⟩ hm
  · obtain ⟨n, s, hrest⟩ := ((handshake_settles (h := ⟨"-RC0001-aaaaaaaaaaaa", .replicate 1⟩)
      (g := ⟨"-RC0001-bbbbbbbbbbbb", .replicate 2⟩) (by decide) (by decide)
      Run.nil).1 (Or.inl rfl)).2.1
    obtain ⟨trace, run⟩ := hrest.reachable
    have hsettled := ((handshake_settles (by decide) (by decide) run).1 (Or.inl rfl)).2.2
      hrest.isStuck
    rcases hsettled with ⟨hm, -⟩ | ⟨-, hrefused⟩
    · exact absurd hm.1 (by decide)
    · exact ⟨s, ⟨trace, run⟩, hrest.isStuck, hrefused⟩

end Handshake
end TorrentClient
