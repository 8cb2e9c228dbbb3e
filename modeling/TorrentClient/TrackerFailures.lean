import TorrentClient.Download
import TorrentClient.DownloadGeometry
import TorrentClient.TrackerSpawns
import TorrentClient.TrackerTasks

/-!
# When the supervisor comes to rest

While every tracker that ends has reported an error, the supervisor has something left to do
until all urls of the torrent have failed.
-/
namespace TorrentClient
open TransitionRuns

namespace TrackerSupervisor

variable {Url : Type} [DecidableEq Url] {s t : TrackerSupervisor Url}

/-- The states once the reports that are on the way have been handled. -/
def finalStates (s : TrackerSupervisor Url) : AList fun _ : Url => TrackerStatus :=
  (s.pendingStatus ++ s.receiver).foldl (fun states report => states.insert report.1 report.2)
    s.trackerStates

/-- A tracker that was started runs, or its last word is an error. -/
structure Persists (s : TrackerSupervisor Url) : Prop where
  running : ∀ url ∈ s.trackers, url ∈ s.spawned
  reported : ∀ url ∈ s.finalStates, url ∈ s.spawned
  failed : ∀ url ∈ s.spawned, url ∈ s.trackers ∨ s.finalStates.lookup url = some .errorOccurred

/-- There is a tracker, or a report to take. -/
def Busy (s : TrackerSupervisor Url) : Prop := s.trackers ≠ [] ∨ s.receiver ≠ []

/-- What the supervisor has not started it is still going to try, or it is busy. -/
def Covered (s : TrackerSupervisor Url) : Prop :=
  match s.phase with
  | .connecting rest =>
    (∀ url ∈ s.urls, url ∈ s.spawned ∨ url ∈ rest) ∨ (rest = [] ∧ s.Busy)
  | .awaiting rest => ∀ url ∈ s.urls, url ∈ s.spawned ∨ url ∈ rest
  | .waiting => s.pendingStatus = [] ∧ ((∀ url ∈ s.urls, url ∈ s.spawned) ∨ s.Busy)

theorem persists_start (urls : List Url) : (start urls).Persists where
  running := by simp [start]
  reported := by simp [start, finalStates]
  failed := by simp [start]

omit [DecidableEq Url] in
theorem covered_start (urls : List Url) : (start urls).Covered :=
  Or.inl fun _ hurl => Or.inr hurl

theorem Persists.ne_nil_of_found (h : s.Persists) {url : Url} {n : ℕ}
    (hfound : s.finalStates.lookup url = some (.foundPeers n)) : s.trackers ≠ [] := by
  have hmem : url ∈ s.finalStates := by
    rw [← AList.lookup_isSome, hfound]
    rfl
  rcases h.failed url (h.reported url hmem) with hrunning | hfailed
  · exact List.ne_nil_of_mem hrunning
  · rw [hfound] at hfailed
    cases hfailed

/-- A tracker that is started is running. -/
theorem Persists.spawnTracker (h : s.Persists) (url : Url) : (s.spawnTracker url).Persists where
  running x hx := by
    rcases List.mem_append.mp hx with hx | hx
    · exact List.mem_append_left _ (h.running x hx)
    · exact List.mem_append_right _ hx
  reported x hx := List.mem_append_left _ (h.reported x hx)
  failed x hx := by
    rcases List.mem_append.mp hx with hx | hx
    · exact (h.failed x hx).imp_left (List.mem_append_left _)
    · exact Or.inl (List.mem_append_right _ hx)

/-- No report is lost where one is taken or handled. -/
theorem Persists.moveOn (h : s.Persists) (htrackers : t.trackers = s.trackers)
    (hspawned : t.spawned = s.spawned) (hstates : t.finalStates = s.finalStates) :
    t.Persists where
  running := by
    rw [htrackers, hspawned]
    exact h.running
  reported := by
    rw [hstates, hspawned]
    exact h.reported
  failed := by
    rw [hspawned, htrackers, hstates]
    exact h.failed

/-! ### The moves of the supervisor -/

theorem Persists.proceeds (h : s.Persists) (hcovered : s.Covered) (hstep : s.actStep .proceeds t) :
    t.Persists ∧ t.Covered := by
  rw [actStep, act.eq_def] at hstep
  simp only at hstep
  split at hstep
  · rename_i hphase
    cases hstep
    rw [Covered, hphase] at hcovered
    rw [TrackerTasks.insertPending_eq]
    refine ⟨h.moveOn rfl rfl (by simp [finalStates]), rfl, ?_⟩
    rcases hcovered with hall | hbusy
    · exact Or.inl fun url hurl => (hall url hurl).resolve_right List.not_mem_nil
    · exact Or.inr hbusy.2
  · rename_i url rest hphase
    cases hstep
    rw [Covered, hphase] at hcovered
    have hall := hcovered.resolve_right fun hbusy => List.cons_ne_nil _ _ hbusy.1
    refine ⟨(h.spawnTracker url).moveOn rfl rfl rfl, fun x hx => ?_⟩
    rcases hall x hx with hold | hnew
    · exact Or.inl (List.mem_append_left _ hold)
    · rcases List.mem_cons.mp hnew with rfl | hrest
      · exact Or.inl (List.mem_append_right _ List.mem_cons_self)
      · exact Or.inr hrest
  · cases hstep

theorem Persists.timesOut (h : s.Persists) (hcovered : s.Covered) (hstep : s.actStep .timesOut t) :
    t.Persists ∧ t.Covered := by
  rw [actStep, act.eq_def] at hstep
  simp only at hstep
  split at hstep
  · rename_i rest hphase hreceiver
    cases hstep
    rw [Covered, hphase] at hcovered
    exact ⟨h.moveOn rfl rfl rfl, Or.inl hcovered⟩
  · cases hstep

theorem mem_foldl_insert {reports : List (Url × TrackerStatus)}
    {states : AList fun _ : Url => TrackerStatus} {url : Url} (h : url ∈ states) :
    url ∈ reports.foldl (fun states report => states.insert report.1 report.2) states := by
  induction reports generalizing states with
  | nil => exact h
  | cons report reports ih => exact ih ((AList.mem_insert _).mpr (Or.inr h))

theorem exists_found_of_isOneActive (h : s.isOneActive = true) :
    ∃ url n, s.trackerStates.lookup url = some (.foundPeers n) := by
  obtain ⟨⟨url, status⟩, hmem, hactive⟩ := List.any_eq_true.mp h
  cases status with
  | foundPeers n => exact ⟨url, n, AList.mem_lookup_iff.mpr hmem⟩
  | _ => cases hactive

/-- An active tracker runs, or it has reported again. -/
theorem Persists.busy_of_active (h : s.Persists) (hpending : s.pendingStatus = [])
    (hactive : s.isOneActive = true) : s.Busy := by
  obtain ⟨url, n, hfound⟩ := exists_found_of_isOneActive hactive
  by_cases hreceiver : s.receiver = []
  · have hfinal : s.finalStates.lookup url = some (.foundPeers n) := by
      rw [finalStates, hpending, hreceiver]
      exact hfound
    exact Or.inl (h.ne_nil_of_found hfinal)
  · exact Or.inr hreceiver

/-- Where no tracker is active another one is started, or all have been. -/
theorem Persists.tryAnotherTracker (h : s.Persists) (hphase : s.phase = .waiting)
    (hpending : s.pendingStatus = []) :
    s.tryAnotherTracker.Persists ∧ s.tryAnotherTracker.Covered := by
  rw [TrackerSupervisor.tryAnotherTracker]
  cases hfind : s.urls.find? s.unreported with
  | some url =>
    refine ⟨h.spawnTracker url, ?_⟩
    have hnext : (s.spawnTracker url).phase = .waiting := hphase
    rw [Covered, hnext]
    exact ⟨hpending, Or.inr (Or.inl (List.append_ne_nil_of_right_ne_nil _ (List.cons_ne_nil _ _)))⟩
  | none =>
    refine ⟨h, ?_⟩
    rw [Covered, hphase]
    refine ⟨hpending, Or.inl fun url hurl => h.reported url (mem_foldl_insert ?_)⟩
    have hseen := List.find?_eq_none.mp hfind url hurl
    by_contra hunreported
    exact hseen (unreported_iff.mpr hunreported)

/-- A report that is handled while the supervisor waits. -/
theorem Persists.waitOnTrackerMsg {report : Url × TrackerStatus}
    (h : (s.insertStatus report).Persists) (hphase : s.phase = .waiting)
    (hpending : s.pendingStatus = []) :
    (s.waitOnTrackerMsg report).Persists ∧ (s.waitOnTrackerMsg report).Covered := by
  rw [TrackerSupervisor.waitOnTrackerMsg]
  split_ifs with hactive
  · refine ⟨h, ?_⟩
    rw [Covered, insertStatus, hphase]
    exact ⟨hpending, Or.inr (h.busy_of_active hpending hactive)⟩
  · exact h.tryAnotherTracker hphase hpending

theorem Persists.receives (h : s.Persists) (hcovered : s.Covered) (hstep : s.actStep .receives t) :
    t.Persists ∧ t.Covered := by
  rw [actStep, act.eq_def] at hstep
  simp only at hstep
  split at hstep
  · rename_i rest report receiver hphase hreceiver
    cases hstep
    rw [Covered, hphase] at hcovered
    refine ⟨h.moveOn rfl rfl (by simp [finalStates, hreceiver]), ?_⟩
    obtain ⟨url, status⟩ := report
    cases status with
    | foundPeers n =>
      refine Or.inr ⟨rfl, ?_⟩
      cases receiver with
      | cons report receiver => exact Or.inr (List.cons_ne_nil _ _)
      | nil =>
        have hfound : s.finalStates.lookup url = some (.foundPeers n) := by
          rw [finalStates, hreceiver, List.foldl_append]
          exact AList.lookup_insert _
        exact Or.inl (h.ne_nil_of_found hfound)
    | _ => exact Or.inl hcovered
  · rename_i report receiver hphase hreceiver
    cases hstep
    rw [Covered, hphase] at hcovered
    have hinserted : (insertStatus { s with receiver } report).Persists :=
      h.moveOn rfl rfl (by simp [finalStates, insertStatus, hcovered.1, hreceiver])
    exact hinserted.waitOnTrackerMsg hphase hcovered.1
  · cases hstep

/-! ### The moves of the trackers -/

theorem mem_eraseIdx_of_ne {α : Type} {xs : List α} {i : ℕ} {x y : α} (hi : xs[i]? = some x)
    (hy : y ∈ xs) (hne : y ≠ x) : y ∈ xs.eraseIdx i := by
  obtain ⟨j, hj⟩ := List.getElem?_of_mem hy
  refine List.mem_eraseIdx_iff_getElem?.mpr ⟨j, ?_, hj⟩
  rintro rfl
  rw [hi] at hj
  exact hne (Option.some.inj hj).symm

omit [DecidableEq Url] in
/-- A report on its way is something to do. -/
theorem Covered.of_report (h : s.Covered) {report : Url × TrackerStatus} {trackers : List Url} :
    Covered { s with receiver := s.receiver ++ [report], trackers } := by
  have hbusy : Busy { s with receiver := s.receiver ++ [report], trackers } :=
    Or.inr (List.append_ne_nil_of_right_ne_nil _ (List.cons_ne_nil _ _))
  rw [Covered] at h ⊢
  cases hphase : s.phase with
  | connecting rest =>
    rw [hphase] at h
    exact h.imp_right fun hrest => ⟨hrest.1, hbusy⟩
  | awaiting rest =>
    rw [hphase] at h
    exact h
  | waiting =>
    rw [hphase] at h
    exact ⟨h.1, Or.inr hbusy⟩

/-- What a tracker reports is its last word. -/
theorem finalStates_report (s : TrackerSupervisor Url) (url : Url) (status : TrackerStatus)
    (trackers : List Url) :
    finalStates { s with receiver := s.receiver ++ [(url, status)], trackers } =
      s.finalStates.insert url status := by
  simp [finalStates, ← List.append_assoc]

theorem Persists.reports {i : ℕ} {status : TrackerStatus} (h : s.Persists)
    (hcovered : s.Covered) (hstep : s.actStep (.reports i status) t) :
    t.Persists ∧ t.Covered := by
  rw [actStep, act.eq_def] at hstep
  simp only at hstep
  split at hstep
  · rename_i url hurl
    cases hstep
    have hspawned : url ∈ s.spawned := h.running url (List.mem_of_getElem? hurl)
    refine ⟨⟨?_, ?_, ?_⟩, hcovered.of_report⟩
    · intro x hx
      refine h.running x ?_
      split at hx
      · exact hx
      · exact List.mem_of_mem_eraseIdx hx
    · intro x hx
      rw [finalStates_report, AList.mem_insert] at hx
      rcases hx with rfl | hx
      · exact hspawned
      · exact h.reported x hx
    · intro x hx
      rw [finalStates_report]
      by_cases hxurl : x = url
      · subst hxurl
        cases hgoesOn : goesOn status with
        | true => exact Or.inl (by simpa [hgoesOn] using List.mem_of_getElem? hurl)
        | false =>
          rw [AList.lookup_insert]
          cases status with
          | errorOccurred => exact Or.inr rfl
          | _ => cases hgoesOn
      · rw [AList.lookup_insert_ne hxurl]
        refine (h.failed x hx).imp_left fun hrunning => ?_
        split
        · exact hrunning
        · exact mem_eraseIdx_of_ne hurl hrunning hxurl
  · cases hstep

/-- As long as every tracker that ends has reported an error, the supervisor loses none. -/
theorem actStep_persists {a : SupervisorAction} (ha : ∀ i, a ≠ .stops i) (h : s.Persists)
    (hcovered : s.Covered) (hstep : s.actStep a t) : t.Persists ∧ t.Covered := by
  cases a with
  | proceeds => exact h.proceeds hcovered hstep
  | receives => exact h.receives hcovered hstep
  | timesOut => exact h.timesOut hcovered hstep
  | reports i status => exact h.reports hcovered hstep
  | stops i => exact absurd rfl (ha i)

theorem persists_of_run {urls : List Url}
    {trace : List (Step (TrackerSupervisor Url) SupervisorAction)}
    (run : Run actStep (start urls) trace s) (ha : ∀ x ∈ trace, ∀ i, x.label ≠ .stops i) :
    s.Persists ∧ s.Covered := by
  have hinitial : (start urls).Persists ∧ (start urls).Covered :=
    ⟨persists_start urls, covered_start urls⟩
  exact @Run.invariant_of_mem _ _ _ _ _ _ (fun s => s.Persists ∧ s.Covered) run hinitial
    fun x hx hbefore hstep => actStep_persists (ha x hx) hbefore.1 hbefore.2 hstep

theorem waitOnTrackerMsg_urls (s : TrackerSupervisor Url) (report : Url × TrackerStatus) :
    (s.waitOnTrackerMsg report).urls = s.urls := by
  rw [TrackerSupervisor.waitOnTrackerMsg, TrackerSupervisor.tryAnotherTracker]
  split_ifs
  · rfl
  · split <;> rfl

theorem actStep_urls {a : SupervisorAction} (hstep : s.actStep a t) : t.urls = s.urls := by
  rw [actStep, act.eq_def] at hstep
  cases a with
  | proceeds =>
    simp only at hstep
    split at hstep
    · cases hstep
      rw [TrackerTasks.insertPending_eq]
    · cases hstep
      rfl
    · cases hstep
  | receives =>
    simp only at hstep
    split at hstep
    · cases hstep
      rfl
    · cases hstep
      exact waitOnTrackerMsg_urls _ _
    · cases hstep
  | timesOut =>
    simp only at hstep
    split at hstep
    · cases hstep
      rfl
    · cases hstep
  | reports i status =>
    simp only at hstep
    split at hstep
    · cases hstep
      rfl
    · cases hstep
  | stops i =>
    simp only at hstep
    split at hstep
    · cases hstep
      rfl
    · cases hstep

theorem urls_of_run {urls : List Url} {trace : List (Step (TrackerSupervisor Url) SupervisorAction)}
    (run : Run actStep (start urls) trace s) : s.urls = urls :=
  @Run.invariant _ _ _ _ _ _ (fun s => s.urls = urls) run rfl
    fun _ _ _ hs hstep => (actStep_urls hstep).trans hs

/-- Where nothing is left to do every url has been tried, and its tracker has reported an
error. -/
theorem Persists.all_failed (h : s.Persists) (hcovered : s.Covered) (hphase : s.phase = .waiting)
    (hreceiver : s.receiver = []) (htrackers : s.trackers = []) :
    ∀ url ∈ s.urls, url ∈ s.spawned ∧ s.trackerStates.lookup url = some .errorOccurred := by
  rw [Covered, hphase] at hcovered
  obtain ⟨hpending, hall | hbusy⟩ := hcovered
  · intro url hurl
    have hspawned := hall url hurl
    refine ⟨hspawned, ?_⟩
    have hfailed := h.failed url hspawned
    rw [htrackers, finalStates, hpending, hreceiver] at hfailed
    exact hfailed.resolve_left List.not_mem_nil
  · exact absurd hbusy (by simp [Busy, htrackers, hreceiver])

end TrackerSupervisor

/-! ### The urls of a torrent -/

/-- The torrent names the tracker. -/
def TorrentMetaInfo.Announces (metaInfo : TorrentMetaInfo) (text : String) : Prop :=
  (∃ tiers, metaInfo.announceList = some tiers ∧ ∃ tier ∈ tiers, text ∈ tier) ∨
    metaInfo.announce = some text

theorem TorrentMetaInfo.mem_listedUrls {Url : Type} {parse : String → Option Url}
    {metaInfo : TorrentMetaInfo} {url : Url} :
    url ∈ metaInfo.listedUrls parse ↔ ∃ text, (∃ tiers, metaInfo.announceList = some tiers ∧
      ∃ tier ∈ tiers, text ∈ tier) ∧ parse text = some url := by
  rw [listedUrls]
  cases metaInfo.announceList with
  | none => simp
  | some tiers =>
    simp only [List.mem_flatMap, List.mem_filterMap, Option.some.injEq, exists_eq_left']
    constructor
    · rintro ⟨tier, htier, text, htext, hparse⟩
      exact ⟨text, ⟨tier, htier, htext⟩, hparse⟩
    · rintro ⟨text, ⟨tier, htier, htext⟩, hparse⟩
      exact ⟨tier, htier, text, htext, hparse⟩

theorem TorrentMetaInfo.mem_getUrls {Url : Type} [DecidableEq Url] {parse : String → Option Url}
    {metaInfo : TorrentMetaInfo} {url : Url} :
    url ∈ metaInfo.getUrls parse ↔ ∃ text, metaInfo.Announces text ∧ parse text = some url := by
  have hsingle : metaInfo.announce.bind parse = some url ↔
      ∃ text, metaInfo.announce = some text ∧ parse text = some url := Option.bind_eq_some_iff
  simp only [Announces, or_and_right, exists_or, ← mem_listedUrls, ← hsingle]
  rw [getUrls]
  cases metaInfo.announce.bind parse with
  | none => simp
  | some url' =>
    simp only [Option.some.injEq]
    split_ifs with hknown
    · constructor
      · exact Or.inl
      · rintro (hmem | rfl)
        · exact hmem
        · simpa using hknown
    · simp [eq_comm]

theorem foldlM_checkedAdd {ε α : Type} (f : α → ℕ) {xs : List α} {total : ℕ}
    (h : total + (xs.map f).sum < 2 ^ 64) :
    xs.foldlM (fun total x => (checkedAdd total (f x) : Except (Fault ε) ℕ)) total =
      .ok (total + (xs.map f).sum) := by
  induction xs generalizing total with
  | nil => rfl
  | cons x xs ih =>
    rw [List.map_cons, List.sum_cons, ← Nat.add_assoc] at h ⊢
    rw [List.foldlM_cons, checkedAdd_of_lt (Nat.lt_of_le_of_lt (Nat.le_add_right _ _) h), ok_bind]
    exact ih h

/-- The client has added up the lengths before it starts the supervisor. -/
theorem measured_of_launch {disk : String → Bytes} {metaInfo : TorrentMetaInfo} {d : Download}
    (h : Download.launch disk metaInfo = .ok d) : TrackerTasks.Measured metaInfo := by
  obtain ⟨⟨fileOffsets, filePaths, files⟩, hfiles, -⟩ :=
    bind_eq_ok.mp (Download.launch_eq_ok.mp h).1
  obtain ⟨hlayout, hlengths, -, -⟩ := createFiles_spec hfiles
  have htotal := hlayout.total_lt
  rw [List.length_flatten, hlengths] at htotal
  rw [TrackerTasks.Measured, TorrentMetaInfo.length]
  cases hinfo : metaInfo.info with
  | single i => exact ⟨_, rfl⟩
  | multi m =>
    rw [hinfo, createFileInfos, List.map_map] at htotal
    refine ⟨_, foldlM_checkedAdd (fun item : FileInfo => item.length.toNat) ?_⟩
    rw [Nat.zero_add]
    exact htotal

namespace TrackerTasks

variable {Url : Type} [DecidableEq Url] {web : Web Url} {metadata : TorrentMetaInfo}
  {s : TrackerTasks Url}

/-- The supervisor comes to rest only after the trackers of all urls of the torrent have reported
an error, in every run in which no response makes the parser panic and the manager is there. -/
theorem rests_after_failures {disk : String → Bytes} {d : Download}
    (hlaunch : Download.launch disk metadata = .ok d) {peerId : String} {listenerPort : UInt16}
    {trace : List (Step (TrackerTasks Url) TrackerAction)}
    (run : Run (Moves web (Tracker.new metadata peerId listenerPort))
      (start (metadata.getUrls web.parse)) trace s)
    (hreports : ∀ x ∈ trace, x.label.Reports) (hphase : s.supervisor.phase = .waiting)
    (hreceiver : s.supervisor.receiver = []) (hended : ∀ task ∈ s.tasks, task.isLive = false)
    {text : String} (hannounces : metadata.Announces text) {url : Url}
    (hparse : web.parse text = some url) :
    url ∈ s.supervisor.spawned ∧ s.supervisor.trackerStates.lookup url = some .errorOccurred := by
  have hnew (url : Url) : (Tracker.new metadata peerId listenerPort url).metadata = metadata := rfl
  obtain ⟨-, trace', run', hstops⟩ := run_refines hnew run
  obtain ⟨h, hcovered⟩ :=
    TrackerSupervisor.persists_of_run run' (hstops (measured_of_launch hlaunch) hreports)
  have htrackers : s.abstract.trackers = [] := by
    rw [abstract, List.map_eq_nil_iff, List.filter_eq_nil_iff]
    intro task htask
    simp [hended task htask]
  have hurl : url ∈ s.abstract.urls := by
    rw [TrackerSupervisor.urls_of_run run', TorrentMetaInfo.mem_getUrls]
    exact ⟨text, hannounces, hparse⟩
  exact h.all_failed hcovered hphase hreceiver htrackers url hurl

/-- Urls are texts, and the scheme is what stands before the colon. -/
def plainWeb : Web String where
  parse := some
  scheme url := String.ofList (url.toList.takeWhile (· ≠ ':'))
  display url := url
  percentEncode := formUrlencoded
  sha1 _ := Sha1.replicate 0

/-- A torrent with one tracker, whose scheme is not supported. -/
def announcedTorrent : TorrentMetaInfo :=
  { TorrentMetaInfo.singleFile "a" 1 1 [Sha1.replicate 0] with announce := some "udp://t" }

/-- The one tracker reports its error, and the supervisor has nothing left to do. -/
theorem rests_after_failures_udp : ∃ trace s,
    Run (Moves plainWeb (Tracker.new announcedTorrent "-BT-1" 6881))
      (start (announcedTorrent.getUrls plainWeb.parse)) trace s ∧ trace.length = 6 ∧
    s.supervisor.trackerStates.lookup "udp://t" = some .errorOccurred := by
  have hlaunch : ∃ d, Download.launch (fun _ => []) announcedTorrent = .ok d := ⟨_, rfl⟩
  obtain ⟨d, hlaunch⟩ := hlaunch
  have spawned : Moves plainWeb (Tracker.new announcedTorrent "-BT-1" 6881)
      (start (announcedTorrent.getUrls plainWeb.parse)) _ _ :=
    .supervises (a := .proceeds) rfl rfl
  have begun := (Run.nil.snoc spawned).snoc (.begins (i := 0) rfl)
  have reported := begun.snoc (.reports (i := 0) rfl)
  have ended := reported.snoc (.ends (i := 0) rfl rfl)
  have received := ended.snoc (.supervises (a := .receives) rfl rfl)
  have run := received.snoc (.supervises (a := .proceeds) rfl rfl)
  have hall := rests_after_failures hlaunch run ?_ rfl rfl ?_ (Or.inr rfl) rfl
  · exact ⟨_, _, run, rfl, hall.2⟩
  · simp [TrackerAction.Reports]
  · intro task htask
    obtain rfl := List.mem_singleton.mp htask
    rfl

end TrackerTasks
end TorrentClient
