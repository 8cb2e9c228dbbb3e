import TorrentClient.TrackerSupervisor
import TorrentClient.TransitionRuns
import Mathlib.Data.List.Nodup

/-!
# How often a tracker is started

The trackers are started in the order of their urls. `try_another_tracker` takes the trackers
that have reported for those that were started, so it starts one again that is late.
-/
namespace TorrentClient
open TransitionRuns

namespace TrackerSupervisor

variable {Url : Type} {s t : TrackerSupervisor Url}

/-- What is left of the loop over the urls. -/
def LeftToTry (s : TrackerSupervisor Url) : Prop :=
  match s.phase with
  | .connecting rest => rest = [] ∨ s.spawned ++ rest = s.urls
  | .awaiting rest => s.spawned ++ rest = s.urls
  | .waiting => True

/-- The trackers that were started are the first ones, and only they run and report. -/
structure InOrder (s : TrackerSupervisor Url) : Prop where
  nodup : s.urls.Nodup
  started : s.spawned <+: s.urls
  left : s.LeftToTry
  running : ∀ url ∈ s.trackers, url ∈ s.spawned
  received : ∀ report ∈ s.receiver, report.1 ∈ s.spawned
  pending : ∀ report ∈ s.pendingStatus, report.1 ∈ s.spawned
  states : ∀ url ∈ s.trackerStates, url ∈ s.spawned

theorem InOrder.nodup_spawned (h : s.InOrder) : s.spawned.Nodup :=
  h.started.sublist.nodup h.nodup

theorem inOrder_start {urls : List Url} (h : urls.Nodup) : (start urls).InOrder where
  nodup := h
  started := List.nil_prefix
  left := Or.inr (List.nil_append _)
  running := by simp [start]
  received := by simp [start]
  pending := by simp [start]
  states := by simp [start]

/-- A tracker is started that comes next in the list. -/
theorem InOrder.spawnTracker {url : Url} {phase : SupervisorPhase Url} (h : s.InOrder)
    (hnext : s.spawned ++ [url] <+: s.urls)
    (hleft : LeftToTry { s.spawnTracker url with phase }) :
    InOrder { s.spawnTracker url with phase } where
  nodup := h.nodup
  started := hnext
  left := hleft
  running := by
    intro x hx
    rcases List.mem_append.mp hx with hx | hx
    · exact List.mem_append_left _ (h.running x hx)
    · exact List.mem_append_right _ hx
  received x hx := List.mem_append_left _ (h.received x hx)
  pending x hx := List.mem_append_left _ (h.pending x hx)
  states x hx := List.mem_append_left _ (h.states x hx)

variable [DecidableEq Url]

/-- A report is handled that leaves no tracker active, while one that was started has not
reported. -/
def Respawns (s : TrackerSupervisor Url) : SupervisorAction → Prop
  | .receives => s.phase = .waiting ∧ ∃ report ∈ s.receiver.head?,
      (s.insertStatus report).isOneActive = false ∧
        ∃ url ∈ s.spawned, url ∉ (s.insertStatus report).trackerStates
  | _ => False

theorem InOrder.insertStatus {report : Url × TrackerStatus} (h : s.InOrder)
    (hreport : report.1 ∈ s.spawned) : (s.insertStatus report).InOrder where
  nodup := h.nodup
  started := h.started
  left := h.left
  running := h.running
  received := h.received
  pending := h.pending
  states url hurl := by
    rcases (AList.mem_insert _).mp hurl with rfl | hurl
    · exact hreport
    · exact h.states url hurl

theorem InOrder.foldl_insertStatus {reports : List (Url × TrackerStatus)} (h : s.InOrder)
    (hreports : ∀ report ∈ reports, report.1 ∈ s.spawned) :
    (reports.foldl TrackerSupervisor.insertStatus s).InOrder := by
  induction reports generalizing s with
  | nil => exact h
  | cons report reports ih =>
    rw [List.forall_mem_cons] at hreports
    exact ih (h.insertStatus hreports.1) hreports.2

theorem InOrder.insertPending (h : s.InOrder) : s.insertPending.InOrder := by
  refine InOrder.foldl_insertStatus ?_ h.pending
  exact ⟨h.nodup, h.started, trivial, h.running, h.received, by simp, h.states⟩

theorem unreported_iff {url : Url} : s.unreported url = true ↔ url ∉ s.trackerStates := by
  simp [unreported, AList.mem_keys]

/-- While all that were started have reported, the first that has not is the next one. -/
theorem InOrder.tryAnotherTracker (h : s.InOrder) (hphase : s.phase = .waiting)
    (hall : ∀ url ∈ s.spawned, url ∈ s.trackerStates) : s.tryAnotherTracker.InOrder := by
  obtain ⟨rest, hrest⟩ := h.started
  have hnone : s.spawned.find? s.unreported = none := by
    rw [List.find?_eq_none]
    intro url hurl hnot
    exact unreported_iff.mp hnot (hall url hurl)
  rw [TrackerSupervisor.tryAnotherTracker, ← hrest, List.find?_append, hnone, Option.none_or]
  cases rest with
  | nil => exact h
  | cons url rest =>
    have hnew : s.unreported url = true := by
      rw [unreported_iff]
      intro hmem
      have hnodup := hrest ▸ h.nodup
      exact List.disjoint_of_nodup_append hnodup (h.states url hmem) List.mem_cons_self
    rw [List.find?_cons_of_pos hnew]
    have hnext : (s.spawned ++ [url]) ++ rest = s.urls := by
      rw [List.append_assoc]
      exact hrest
    have hleft : LeftToTry { s.spawnTracker url with phase := s.phase } := by
      rw [LeftToTry, hphase]
      trivial
    exact h.spawnTracker ⟨rest, hnext⟩ hleft

/-- One that was started and has not reported is found before those that were not. -/
theorem InOrder.not_nodup_tryAnotherTracker (h : s.InOrder)
    (hlate : ∃ url ∈ s.spawned, url ∉ s.trackerStates) :
    ¬ s.tryAnotherTracker.spawned.Nodup := by
  obtain ⟨rest, hrest⟩ := h.started
  obtain ⟨late, hspawned, hlate⟩ := hlate
  have hsome : (s.spawned.find? s.unreported).isSome = true :=
    List.find?_isSome.mpr ⟨late, hspawned, unreported_iff.mpr hlate⟩
  obtain ⟨url, hurl⟩ := Option.isSome_iff_exists.mp hsome
  rw [TrackerSupervisor.tryAnotherTracker, ← hrest, List.find?_append, hurl, Option.some_or]
  intro hnodup
  exact List.disjoint_of_nodup_append hnodup (List.mem_of_find?_eq_some hurl) List.mem_cons_self

theorem InOrder.proceeds (h : s.InOrder) (hstep : s.actStep .proceeds t) : t.InOrder := by
  rw [actStep, act.eq_def] at hstep
  simp only at hstep
  split at hstep
  · cases hstep
    exact h.insertPending
  · rename_i url rest hphase
    cases hstep
    have hleft := h.left
    rw [LeftToTry, hphase] at hleft
    obtain hrest := hleft.resolve_left (List.cons_ne_nil _ _)
    have hnext : (s.spawned ++ [url]) ++ rest = s.urls := by rwa [List.append_assoc]
    exact h.spawnTracker ⟨rest, hnext⟩ hnext
  · cases hstep

theorem InOrder.timesOut (h : s.InOrder) (hstep : s.actStep .timesOut t) : t.InOrder := by
  rw [actStep, act.eq_def] at hstep
  simp only at hstep
  split at hstep
  · rename_i rest hphase hreceiver
    cases hstep
    have hleft := h.left
    rw [LeftToTry, hphase] at hleft
    exact ⟨h.nodup, h.started, Or.inr hleft, h.running, h.received, h.pending, h.states⟩
  · cases hstep

theorem InOrder.reports {i : ℕ} {status : TrackerStatus} (h : s.InOrder)
    (hstep : s.actStep (.reports i status) t) : t.InOrder := by
  rw [actStep, act.eq_def] at hstep
  simp only at hstep
  split at hstep
  · rename_i url hurl
    cases hstep
    refine ⟨h.nodup, h.started, h.left, ?_, ?_, h.pending, h.states⟩
    · intro x hx
      change x ∈ (if goesOn status then s.trackers else s.trackers.eraseIdx i) at hx
      split at hx
      · exact h.running x hx
      · exact h.running x (List.mem_of_mem_eraseIdx hx)
    · intro report hreport
      rcases List.mem_append.mp hreport with hreport | hreport
      · exact h.received report hreport
      · rw [List.mem_singleton.mp hreport]
        exact h.running url (List.mem_of_getElem? hurl)
  · cases hstep

theorem InOrder.stops {i : ℕ} (h : s.InOrder) (hstep : s.actStep (.stops i) t) : t.InOrder := by
  rw [actStep, act.eq_def] at hstep
  simp only at hstep
  split at hstep
  · cases hstep
    exact ⟨h.nodup, h.started, h.left, fun x hx => h.running x (List.mem_of_mem_eraseIdx hx),
      h.received, h.pending, h.states⟩
  · cases hstep

/-- Taking a report keeps the order unless it starts a tracker again. -/
theorem InOrder.receives (h : s.InOrder) (hstep : s.actStep .receives t) :
    (¬ s.Respawns .receives → t.InOrder) ∧ (s.Respawns .receives → ¬ t.spawned.Nodup) := by
  rw [actStep, act.eq_def] at hstep
  simp only at hstep
  split at hstep
  · rename_i rest report receiver hphase hreceiver
    cases hstep
    refine ⟨fun _ => ?_, fun hbad => absurd hbad.1 (by rw [hphase]; simp)⟩
    have hleft := h.left
    have hreceived := h.received
    rw [LeftToTry, hphase] at hleft
    rw [hreceiver, List.forall_mem_cons] at hreceived
    refine ⟨h.nodup, h.started, ?_, h.running, hreceived.2, ?_, h.states⟩
    · obtain ⟨url, status⟩ := report
      cases status with
      | foundPeers n => exact Or.inl rfl
      | _ => exact Or.inr hleft
    · intro x hx
      rcases List.mem_append.mp hx with hx | hx
      · exact h.pending x hx
      · rw [List.mem_singleton.mp hx]
        exact hreceived.1
  · rename_i report receiver hphase hreceiver
    cases hstep
    have hreceived := h.received
    rw [hreceiver, List.forall_mem_cons] at hreceived
    have hinserted : (TrackerSupervisor.insertStatus { s with receiver } report).InOrder :=
      InOrder.insertStatus ⟨h.nodup, h.started, h.left, h.running, hreceived.2, h.pending,
        h.states⟩ hreceived.1
    rw [waitOnTrackerMsg, Respawns, hreceiver]
    cases hactive : (TrackerSupervisor.insertStatus { s with receiver } report).isOneActive with
    | true =>
      refine ⟨fun _ => hinserted, ?_⟩
      rintro ⟨-, report', hhead, hnot, -⟩
      obtain rfl := Option.some.inj hhead
      cases hactive.symm.trans hnot
    | false =>
      refine ⟨fun hgood => hinserted.tryAnotherTracker hphase ?_, ?_⟩
      · intro url hurl
        by_contra hlate
        exact hgood ⟨hphase, report, rfl, hactive, url, hurl, hlate⟩
      · rintro ⟨-, report', hhead, -, hlate⟩
        obtain rfl := Option.some.inj hhead
        exact hinserted.not_nodup_tryAnotherTracker hlate
  · cases hstep

/-- One action keeps the order exactly when it starts no tracker again. -/
theorem actStep_keeps {a : SupervisorAction} (h : s.InOrder) (hstep : s.actStep a t) :
    (¬ s.Respawns a → t.InOrder) ∧ (s.Respawns a → ¬ t.spawned.Nodup) := by
  cases a with
  | proceeds => exact ⟨fun _ => h.proceeds hstep, False.elim⟩
  | receives => exact h.receives hstep
  | timesOut => exact ⟨fun _ => h.timesOut hstep, False.elim⟩
  | reports i status => exact ⟨fun _ => h.reports hstep, False.elim⟩
  | stops i => exact ⟨fun _ => h.stops hstep, False.elim⟩

/-- Over a run every url gets at most one tracker exactly as long as no report that leaves no
tracker active is handled before all trackers that were started have reported. -/
theorem spawned_once_iff {urls : List Url} (hurls : urls.Nodup)
    {trace : List (Step (TrackerSupervisor Url) SupervisorAction)} {s : TrackerSupervisor Url}
    (run : Run actStep (start urls) trace s) :
    (∀ x ∈ trace, x.after.spawned.Nodup) ↔ ∀ x ∈ trace, ¬ x.before.Respawns x.label := by
  have hstep : ∀ (s : TrackerSupervisor Url) a t, (s.spawned.Nodup → s.InOrder) → s.spawned.Nodup → actStep s a t →
      (t.spawned.Nodup → t.InOrder) ∧ (t.spawned.Nodup ↔ ¬ s.Respawns a) := by
    intro s a t haux hs hstep
    obtain ⟨hgood, hbad⟩ := actStep_keeps (haux hs) hstep
    refine ⟨fun ht => hgood fun hrespawns => hbad hrespawns ht, ?_, ?_⟩
    · exact fun ht hrespawns => hbad hrespawns ht
    · exact fun hnot => (hgood hnot).nodup_spawned
  refine run.forall_after_iff ?_ ?_ hstep
  · exact fun _ => inOrder_start hurls
  · exact List.nodup_nil

private theorem run_of_act {urls : List Url} {labels : List SupervisorAction}
    {s : TrackerSupervisor Url} (h : labels.foldlM act (start urls) = some s) :
    ∃ trace, Run actStep (start urls) trace s ∧ trace.map (·.label) = labels :=
  run_of_foldlM (f := act) .nil h

theorem spawned_once_iff_two : ∃ trace s,
    Run actStep (start ["http://a", "http://b"]) trace s ∧
      trace.map (·.label) = [.proceeds, .timesOut, .proceeds] ∧
      ∀ x ∈ trace, x.after.spawned.Nodup := by
  have hacts : [SupervisorAction.proceeds, .timesOut, .proceeds].foldlM act
      (start ["http://a", "http://b"]) = some _ := rfl
  obtain ⟨trace, run, hlabels⟩ := run_of_act hacts
  refine ⟨trace, _, run, hlabels, (spawned_once_iff (by decide) run).mpr ?_⟩
  intro x hx
  have hlabel : x.label ∈ [SupervisorAction.proceeds, .timesOut, .proceeds] :=
    hlabels ▸ List.mem_map_of_mem hx
  have hne : x.label ≠ .receives := by
    intro heq
    rw [heq] at hlabel
    simp at hlabel
  cases hlabel' : x.label with
  | receives => exact absurd hlabel' hne
  | _ => exact id

/-- The first tracker has not reported when the second one reports again. -/
theorem late_tracker_spawned_again : ∃ trace s,
    Run actStep (start ["http://a", "http://b"]) trace s ∧
      trace.map (·.label) = [.proceeds, .timesOut, .proceeds, .reports 1 .hostUnresolved,
        .receives, .proceeds, .reports 1 .hostUnresolved, .receives] ∧
      s.spawned = ["http://a", "http://b", "http://a"] := by
  have hacts : [SupervisorAction.proceeds, .timesOut, .proceeds, .reports 1 .hostUnresolved,
      .receives, .proceeds, .reports 1 .hostUnresolved, .receives].foldlM act
      (start ["http://a", "http://b"]) = some _ := rfl
  obtain ⟨trace, run, hlabels⟩ := run_of_act hacts
  exact ⟨trace, _, run, hlabels, rfl⟩

end TrackerSupervisor
end TorrentClient
