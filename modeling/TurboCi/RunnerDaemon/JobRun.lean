import TurboCi.Lib.Runs
import TurboCi.RunnerDaemon.Cancel
import TurboCi.RunnerDaemon.JobSteps

set_option autoImplicit false

/-! # Running a job

`run_job` prepares the workspace, executes the job, uploads its artifacts, saves its cache and
reports its final state (`runner_daemon/mod.rs`). Meanwhile GitLab's answers and the heartbeat
move the job's cancellation, and the runner may be told to stop. The cancellation is read when
the uploads begin and before the report, the shutdown mode once in between; each read is a step
of its own here, so that anything may happen between two of them.

A job whose uploads were skipped because it was aborted is not reported, as GitLab has ended
it, unless the runner itself is aborting. Then a job that had already succeeded is reported as
successful although nothing was uploaded (`success_without_upload`). Apart from that a success
report means that the artifacts are there (`artifactsThere_of_success`).
-/

namespace TurboCi

open Runs

/-! ## Artifacts -/

/-- An archive to upload as job artifacts. -/
structure ArtifactUpload where
  fileName : Chars
  format : Chars
  artifactType : Chars
  expireIn : Option Chars
  deriving DecidableEq

/-- What became of an artifact entry. -/
inductive UploadResult where
  /-- no files matched, nothing uploaded -/
  | noFiles
  | uploaded
  /-- the archive could not be made or uploaded -/
  | failed (message : Chars)
  deriving DecidableEq

structure Upload where
  artifact : Artifact
  request : ArtifactUpload
  result : UploadResult
  deriving DecidableEq

/-- Values of the job's variables. -/
def jobVariables (job : Job) : Values := (jobEnv job [] [] {}).get

def artifactWanted (succeeded : Bool) (artifact : Artifact) : Bool :=
  if artifact.when = some "always".toList then true
  else if artifact.when = some "on_failure".toList then !succeeded
  else succeeded

def artifactPaths (job : Job) (untracked : List Chars) (artifact : Artifact) : List Chars :=
  artifact.paths.map (fun item => expand item (jobVariables job))
    ++ if artifact.untracked then untracked else []

/-- The entries that `upload_artifacts` does not skip. -/
def entriesToUpload (job : Job) (untracked : List Chars) (succeeded : Bool) : List Artifact :=
  (job.artifacts.getD []).filter (fun artifact =>
    artifactWanted succeeded artifact && artifactPaths job untracked artifact ≠ [])

def artifactName (job : Job) (artifact : Artifact) : Chars :=
  ((artifact.name.map (fun name => expand name (jobVariables job))).filter (· ≠ [])).getD
    "artifacts".toList

def artifactUpload (job : Job) (artifact : Artifact) : ArtifactUpload :=
  let format := artifact.artifactFormat.getD "zip".toList
  let extension :=
    if format = "gzip".toList then ".gz".toList
    else if format = "zip".toList then ".zip".toList
    else []
  { fileName := artifactName job artifact ++ extension
    format := format
    artifactType := artifact.artifactType.getD "archive".toList
    expireIn := artifact.expireIn }

/-- The failure that a failed upload gives the job. -/
def uploadFailure (job : Job) (artifact : Artifact) : UploadResult → JobOutcome
  | .failed message =>
      some {
        reason := .scriptFailure
        message := "uploading artifacts (".toList ++ artifactName job artifact
          ++ ") failed: ".toList ++ message }
  | _ => none

/-! ## The job's run -/

namespace JobRun

inductive Phase where
  | preparing
  /-- the executor's own preparations -/
  | starting
  | steps (steps : JobSteps.State)
  /-- the executor cleans up after the steps -/
  | releasing
  /-- about to look whether the job is aborted -/
  | deciding
  | listing
  | uploading (rest : List Artifact)
  | saving
  | cleaning
  /-- about to look at the shutdown mode -/
  | stopping
  | closing (stoppedByShutdown : Bool)
  /-- about to look at the cancellation and to report -/
  | reporting (stoppedByShutdown : Bool)
  | ended
  deriving DecidableEq

/-- The arguments of `update_job`. -/
structure Report where
  state : JobState
  reason : Option FailureReason
  exitCode : Option Int
  deriving DecidableEq

structure State where
  cancel : RemoteState := .running
  shutdown : Shutdown := .running
  phase : Phase := .preparing
  outcome : JobOutcome := none
  untracked : List Chars := []
  /-- what `upload_artifacts` did, if it was called -/
  uploads : Option (List Upload) := none
  uploadFailure : JobOutcome := none
  report : Option Report := none
  deriving DecidableEq

inductive Label where
  /-- an answer of GitLab -/
  | remote (state : RemoteState)
  | shutdown (mode : Shutdown)
  /-- the heartbeat sees that the runner is aborting -/
  | heartbeatAbort
  | prepared (error : Option Chars)
  | setupFailed (failure : JobFailure)
  | setup (now : Nat)
  | step (label : JobSteps.Label)
  | panicked
  | released
  | decide
  | listed (files : List Chars)
  | upload (result : UploadResult)
  | uploadsDone
  | saved
  | cleaned
  | readShutdown
  | closed
  | report
  deriving DecidableEq

/-- Jobs stopped by a runner shutdown are the runner's failure, not the user's. -/
def blameShutdown (stoppedByShutdown : Bool) (failure : JobFailure) : JobFailure :=
  if stoppedByShutdown ∧ failure.reason = .jobCanceled then
    { failure with
      reason := .runnerSystemFailure
      message := "the runner is shutting down".toList }
  else failure

def finalReport : JobOutcome → Report
  | none => ⟨.success, none, none⟩
  | some failure => ⟨.failed, some failure.reason, failure.exitCode⟩

def step (parseDuration : Chars → Option Nat) (job : Job) (s : State) : Label → Option State
  | .remote state => some { s with cancel := s.cancel.update state }
  | .shutdown mode => some { s with shutdown := s.shutdown.request mode }
  | .heartbeatAbort =>
      if s.shutdown = .abort then some { s with cancel := s.cancel.update .aborted } else none
  | .prepared error =>
      if s.phase = .preparing then
        match error with
        | none => some { s with phase := .starting }
        | some message =>
            some { s with
              outcome := some (JobFailure.system ("Failed to create workspace: ".toList ++ message))
              phase := .deciding }
      else none
  | .setupFailed failure =>
      if s.phase = .starting then some { s with outcome := some failure, phase := .releasing }
      else none
  | .setup now =>
      if s.phase = .starting then some { s with phase := .steps (JobSteps.start job now) }
      else none
  | .step label =>
      match s.phase with
      | .steps steps =>
          match JobSteps.step parseDuration job s.cancel steps label with
          | some steps =>
              if steps.phase = .done then
                some { s with outcome := steps.failure, phase := .releasing }
              else some { s with phase := .steps steps }
          | none => none
      | _ => none
  | .panicked =>
      match s.phase with
      | .steps _ =>
          some { s with
            outcome := some (JobFailure.system "internal runner error".toList)
            phase := .releasing }
      | _ => none
  | .released => if s.phase = .releasing then some { s with phase := .deciding } else none
  | .decide =>
      if s.phase = .deciding then
        -- aborted jobs upload nothing
        if s.cancel = .aborted then some { s with phase := .cleaning }
        else some { s with uploads := some [], phase := .listing }
      else none
  | .listed files =>
      if s.phase = .listing then
        let untracked := if (job.artifacts.getD []).any (·.untracked) then files else []
        some { s with
          untracked := untracked
          phase := .uploading (entriesToUpload job untracked s.outcome.isNone) }
      else none
  | .upload result =>
      match s.phase with
      | .uploading (artifact :: rest) =>
          some { s with
            uploads := some (s.uploads.getD [] ++ [⟨artifact, artifactUpload job artifact, result⟩])
            uploadFailure := s.uploadFailure.or (uploadFailure job artifact result)
            phase := .uploading rest }
      | _ => none
  | .uploadsDone =>
      match s.phase with
      | .uploading [] =>
          -- the job's own failure takes precedence
          some { s with
            outcome := if s.outcome = none then s.uploadFailure else s.outcome
            phase := .saving }
      | _ => none
  | .saved => if s.phase = .saving then some { s with phase := .cleaning } else none
  | .cleaned => if s.phase = .cleaning then some { s with phase := .stopping } else none
  | .readShutdown =>
      if s.phase = .stopping then
        let stopped : Bool := s.shutdown = .abort
        some { s with
          outcome := s.outcome.map (blameShutdown stopped)
          phase := .closing stopped }
      else none
  | .closed =>
      match s.phase with
      | .closing stopped => some { s with phase := .reporting stopped }
      | _ => none
  | .report =>
      match s.phase with
      | .reporting stopped =>
          -- canceled in GitLab: it already has the final state
          if s.cancel = .aborted ∧ !stopped then some { s with phase := .ended }
          else some { s with report := some (finalReport s.outcome), phase := .ended }
      | _ => none

def init : State := {}

/-! ## Success and artifacts -/

/-- The uploads of a successful job were carried out: every entry it wanted matched no file or
was uploaded. -/
def ArtifactsThere (job : Job) (s : State) : Prop :=
  ∃ uploads, s.uploads = some uploads ∧
    uploads.map (·.artifact) = entriesToUpload job s.untracked true ∧
    ∀ upload ∈ uploads, upload.result = .noFiles ∨ upload.result = .uploaded

/-- The runner is aborting when it looks at its shutdown mode, after the job succeeded and its
uploads were skipped. -/
def AbortsSkipped (s : State) (l : Label) : Prop :=
  l = .readShutdown ∧ s.outcome = none ∧ s.uploads = none ∧ s.shutdown = .abort

instance (s : State) (l : Label) : Decidable (AbortsSkipped s l) :=
  inferInstanceAs (Decidable (_ ∧ _))

/-- What holds in each phase. -/
def Inv (job : Job) (s : State) : Prop :=
  match s.phase with
  | .preparing | .starting | .steps _ | .releasing | .deciding =>
      s.report = none ∧ s.uploadFailure = none ∧ s.uploads = none
  | .listing => s.report = none ∧ s.uploadFailure = none ∧ s.uploads = some []
  | .uploading rest =>
      s.report = none ∧ ∃ uploads, s.uploads = some uploads ∧
        uploads.map (·.artifact) ++ rest = entriesToUpload job s.untracked s.outcome.isNone ∧
        (s.uploadFailure = none →
          ∀ upload ∈ uploads, upload.result = .noFiles ∨ upload.result = .uploaded)
  | .saving => s.report = none ∧ (s.outcome = none → ArtifactsThere job s)
  | .cleaning | .stopping =>
      s.report = none ∧
        ((s.uploads = none ∧ s.cancel = .aborted) ∨ (s.outcome = none → ArtifactsThere job s))
  | .closing stopped | .reporting stopped =>
      s.report = none ∧
        (s.outcome = none → ArtifactsThere job s ∨ (s.cancel = .aborted ∧ stopped = false))
  | .ended => ∀ report, s.report = some report → report.state = .success → ArtifactsThere job s

theorem inv_init (job : Job) : Inv job init := ⟨rfl, rfl, rfl⟩

theorem uploadFailure_eq_none {job : Job} {artifact : Artifact} {result : UploadResult}
    (h : uploadFailure job artifact result = none) : result = .noFiles ∨ result = .uploaded := by
  cases result with
  | noFiles => exact Or.inl rfl
  | uploaded => exact Or.inr rfl
  | failed message => cases h

/-- Nothing that others do to the cancellation or the shutdown mode breaks the invariant. -/
theorem Inv.signal {job : Job} {s : State} (h : Inv job s) {cancel : RemoteState}
    (hcancel : s.cancel = .aborted → cancel = .aborted) (shutdown : Shutdown) :
    Inv job { s with cancel := cancel, shutdown := shutdown } := by
  unfold Inv at h ⊢
  cases hphase : s.phase with
  | cleaning | stopping =>
      simp only [hphase] at h ⊢
      exact ⟨h.1, h.2.imp_left (fun hs => ⟨hs.1, hcancel hs.2⟩)⟩
  | closing stopped | reporting stopped =>
      simp only [hphase] at h ⊢
      exact ⟨h.1, fun ho => (h.2 ho).imp_right (fun hs => ⟨hcancel hs.1, hs.2⟩)⟩
  | _ =>
      simp only [hphase] at h ⊢
      exact h

/-- The executor's part of the run: nothing is uploaded or reported yet. -/
theorem inv_execute {parseDuration : Chars → Option Nat} {job : Job} {s s' : State} {l : Label}
    (h : Inv job s) (hl : (∃ e, l = .prepared e) ∨ (∃ f, l = .setupFailed f) ∨
      (∃ now, l = .setup now) ∨ (∃ label, l = .step label) ∨ l = .panicked ∨ l = .released)
    (hstep : step parseDuration job s l = some s') : Inv job s' := by
  rcases hl with ⟨e, rfl⟩ | ⟨f, rfl⟩ | ⟨now, rfl⟩ | ⟨label, rfl⟩ | rfl | rfl
  · simp only [step] at hstep
    split at hstep
    · next hphase =>
        simp only [Inv, hphase] at h
        cases e with
        | none =>
            obtain rfl := Option.some.inj hstep
            exact h
        | some message =>
            -- a job without a workspace goes on with the uploads
            obtain rfl := Option.some.inj hstep
            exact h
    · cases hstep
  · obtain ⟨hphase, rfl⟩ := of_guard hstep
    simp only [Inv, hphase] at h
    exact h
  · obtain ⟨hphase, rfl⟩ := of_guard hstep
    simp only [Inv, hphase] at h
    exact h
  · simp only [step] at hstep
    split at hstep
    · next steps hphase =>
        simp only [Inv, hphase] at h
        split at hstep
        · -- the steps go on, or this was the last of them
          split at hstep
          · obtain rfl := Option.some.inj hstep
            exact h
          · obtain rfl := Option.some.inj hstep
            exact h
        · cases hstep
    · cases hstep
  · simp only [step] at hstep
    split at hstep
    · next hphase =>
        simp only [Inv, hphase] at h
        obtain rfl := Option.some.inj hstep
        exact h
    · cases hstep
  · obtain ⟨hphase, rfl⟩ := of_guard hstep
    simp only [Inv, hphase] at h
    exact h

/-- One upload: the entry it was about moves from the rest to what is done. -/
theorem inv_upload {parseDuration : Chars → Option Nat} {job : Job} {s s' : State}
    {result : UploadResult} (h : Inv job s)
    (hstep : step parseDuration job s (.upload result) = some s') : Inv job s' := by
  simp only [step] at hstep
  split at hstep
  · next artifact rest hphase =>
      simp only [Inv, hphase] at h
      obtain ⟨hreport, uploads, huploads, hentries, hok⟩ := h
      obtain rfl := Option.some.inj hstep
      refine ⟨hreport, uploads ++ [⟨artifact, artifactUpload job artifact, result⟩], ?_, ?_, ?_⟩
      · simp only [huploads, Option.getD_some]
      · simpa using hentries
      · intro hnone upload hupload
        obtain ⟨hbefore, hthis⟩ := Option.or_eq_none_iff.mp hnone
        exact forall_concat (hok hbefore) (uploadFailure_eq_none hthis) upload hupload
  · cases hstep

/-- **Every step keeps the invariant**, unless the runner aborts after skipped uploads. -/
theorem inv_step {parseDuration : Chars → Option Nat} {job : Job} {s : State} {l : Label}
    {s' : State} (h : Inv job s) (hc : ¬ AbortsSkipped s l)
    (hstep : step parseDuration job s l = some s') : Inv job s' := by
  cases l with
  | remote state =>
      obtain rfl := Option.some.inj hstep
      refine h.signal (fun ha => ?_) s.shutdown
      rw [ha, RemoteState.update_aborted]
  | shutdown mode =>
      obtain rfl := Option.some.inj hstep
      exact h.signal id _
  | heartbeatAbort =>
      simp only [step] at hstep
      split at hstep
      · obtain rfl := Option.some.inj hstep
        refine h.signal (fun ha => ?_) s.shutdown
        rw [ha, RemoteState.update_aborted]
      · cases hstep
  | prepared error => exact inv_execute h (.inl ⟨error, rfl⟩) hstep
  | setupFailed failure => exact inv_execute h (.inr (.inl ⟨failure, rfl⟩)) hstep
  | setup now => exact inv_execute h (.inr (.inr (.inl ⟨now, rfl⟩))) hstep
  | step label => exact inv_execute h (.inr (.inr (.inr (.inl ⟨label, rfl⟩)))) hstep
  | panicked => exact inv_execute h (.inr (.inr (.inr (.inr (.inl rfl))))) hstep
  | released => exact inv_execute h (.inr (.inr (.inr (.inr (.inr rfl))))) hstep
  | decide =>
      simp only [step] at hstep
      split at hstep
      · next hphase =>
          simp only [Inv, hphase] at h
          split at hstep
          · next haborted =>
              obtain rfl := Option.some.inj hstep
              exact ⟨h.1, Or.inl ⟨h.2.2, haborted⟩⟩
          · obtain rfl := Option.some.inj hstep
            exact ⟨h.1, h.2.1, rfl⟩
      · cases hstep
  | listed files =>
      obtain ⟨hphase, rfl⟩ := of_guard hstep
      simp only [Inv, hphase] at h
      obtain ⟨hreport, -, huploads⟩ := h
      -- nothing uploaded yet, and every entry is in the rest
      exact ⟨hreport, [], huploads, rfl, fun _ upload hupload => nomatch hupload⟩
  | upload result => exact inv_upload h hstep
  | uploadsDone =>
      simp only [step] at hstep
      split at hstep
      · next hphase =>
          simp only [Inv, hphase] at h
          obtain ⟨hreport, uploads, huploads, hentries, hok⟩ := h
          obtain rfl := Option.some.inj hstep
          refine ⟨hreport, fun hnone => ?_⟩
          -- a job that succeeds had no failure of its own and none of its uploads failed
          simp only at hnone
          split at hnone
          · next houtcome =>
              refine ⟨uploads, huploads, ?_, hok hnone⟩
              rw [List.append_nil, houtcome] at hentries
              exact hentries
          · next houtcome => exact absurd hnone houtcome
      · cases hstep
  | saved =>
      obtain ⟨hphase, rfl⟩ := of_guard hstep
      simp only [Inv, hphase] at h
      exact ⟨h.1, Or.inr h.2⟩
  | cleaned =>
      obtain ⟨hphase, rfl⟩ := of_guard hstep
      simp only [Inv, hphase] at h
      exact h
  | readShutdown =>
      obtain ⟨hphase, rfl⟩ := of_guard hstep
      simp only [Inv, hphase] at h
      obtain ⟨hreport, hskip⟩ := h
      refine ⟨hreport, fun hnone => ?_⟩
      have houtcome : s.outcome = none := Option.map_eq_none_iff.mp hnone
      rcases hskip with ⟨huploads, hcancel⟩ | hthere
      · -- aborted without a runner abort, or the condition fails
        right
        refine ⟨hcancel, ?_⟩
        by_contra hstopped
        have habort : s.shutdown = .abort := by simpa using hstopped
        exact hc ⟨rfl, houtcome, huploads, habort⟩
      · exact Or.inl (hthere houtcome)
  | closed =>
      simp only [step] at hstep
      split at hstep
      · next stopped hphase =>
          simp only [Inv, hphase] at h
          obtain rfl := Option.some.inj hstep
          exact h
      · cases hstep
  | report =>
      simp only [step] at hstep
      split at hstep
      · next stopped hphase =>
          simp only [Inv, hphase] at h
          obtain ⟨hreport, hthere⟩ := h
          split at hstep
          · -- canceled in GitLab: no report
            obtain rfl := Option.some.inj hstep
            intro report hr
            rw [hreport] at hr
            cases hr
          · next hnot =>
              obtain rfl := Option.some.inj hstep
              intro report hr hsuccess
              obtain rfl := Option.some.inj hr
              cases houtcome : s.outcome with
              | some failure => simp [houtcome, finalReport] at hsuccess
              | none =>
                  rcases hthere houtcome with hgood | ⟨hcancel, hstopped⟩
                  · exact hgood
                  · exact absurd ⟨hcancel, by simp [hstopped]⟩ hnot
      · cases hstep

/-- After the report, `Inv` says what a success report means. -/
theorem artifactsThere_of_inv {job : Job} {s : State} (h : Inv job s) {report : Report}
    (hreport : s.report = some report) (hsuccess : report.state = .success) :
    ArtifactsThere job s := by
  unfold Inv at h
  cases hphase : s.phase with
  | ended =>
      simp only [hphase] at h
      exact h report hreport hsuccess
  | _ =>
      simp only [hphase] at h
      have hnone : s.report = none := by tauto
      rw [hnone] at hreport
      cases hreport

/-- **A success report means that the artifacts are there**, in every run in which the runner
is not found aborting after a job succeeded and its uploads were skipped. -/
theorem artifactsThere_of_success {parseDuration : Chars → Option Nat} {job : Job}
    {ls : List Label} {s : State} (hrun : run (step parseDuration job) init ls = some s)
    (hc : Always (step parseDuration job) (fun s l => ¬ AbortsSkipped s l) init ls)
    {report : Report} (hreport : s.report = some report) (hsuccess : report.state = .success) :
    ArtifactsThere job s :=
  artifactsThere_of_inv
    (invariant_of_always (fun _ _ _ hi hcond hs => inv_step hi hcond hs) (inv_init job) hc hrun)
    hreport hsuccess

/-- A job with one step and one artifact. -/
def buildJob : Job where
  id := 7
  token := "job-token".toList
  steps := [{ name := "script".toList, script := ["make".toList] }]
  artifacts := some [{ paths := ["out".toList] }]

/-- The job succeeds. -/
def executed : List Label :=
  [.prepared none, .setup 0, .step (.sources .ok), .step (.restore .ok), .step (.timeouts 1),
    .step .boundary, .step (.choose 2), .step (.finished (.exited 0)), .released]

/-- The rest of a run in which the artifact is uploaded. -/
def uploadedAfter : List Label :=
  [.decide, .listed [], .upload .uploaded, .uploadsDone, .saved, .cleaned, .readShutdown,
    .closed, .report]

theorem artifactsThere_of_success_uploaded :
    ∃ s, run (step (fun _ => none) buildJob) init (executed ++ uploadedAfter) = some s ∧
      ArtifactsThere buildJob s := by
  obtain ⟨s, hs, hreport⟩ : ∃ s,
      run (step (fun _ => none) buildJob) init (executed ++ uploadedAfter) = some s ∧
        s.report = some ⟨.success, none, none⟩ :=
    Option.map_eq_some_iff.mp (by decide)
  exact ⟨s, hs, artifactsThere_of_success hs (by decide) hreport rfl⟩

/-- The rest of a run in which the runner is aborted right after the last step. -/
def abortedAfter : List Label :=
  [.shutdown .abort, .heartbeatAbort, .decide, .cleaned, .readShutdown, .closed, .report]

/-- **A success report without the artifacts.** -/
theorem success_without_upload :
    ∃ s, run (step (fun _ => none) buildJob) init (executed ++ abortedAfter) = some s ∧
      s.report = some ⟨.success, none, none⟩ ∧ s.uploads = none ∧
      entriesToUpload buildJob [] true ≠ [] ∧ ¬ ArtifactsThere buildJob s := by
  obtain ⟨s, hs, hfinal⟩ : ∃ s,
      run (step (fun _ => none) buildJob) init (executed ++ abortedAfter) = some s ∧
        (s.report, s.uploads) = (some ⟨.success, none, none⟩, none) :=
    Option.map_eq_some_iff.mp (by decide)
  obtain ⟨hreport, huploads⟩ := Prod.mk.inj hfinal
  refine ⟨s, hs, hreport, huploads, by decide, ?_⟩
  rintro ⟨uploads, hsomeUploads, -⟩
  rw [huploads] at hsomeUploads
  cases hsomeUploads

end JobRun

end TurboCi
