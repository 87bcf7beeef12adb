import TurboCi.RunnerDaemon.JobRun
import TurboCi.RunnerDaemon.StepOutcome

set_option autoImplicit false

/-! # The final report

`run_job` ends with one call of `update_job`, except that a job which GitLab has ended is not
reported. It tells who ended the job from the cancellation and the shutdown mode, each read once
at the end. So a job that GitLab ended is reported all the same if the runner is told to abort
afterwards (`reports_ended_job`), and a heartbeat that is already polling when it is dropped can
abort a job of its own accord after the shutdown mode was read: then nobody reports it.
`one_final_report` is about the runs in which neither happens.
-/

namespace TurboCi

open Runs

namespace JobRun

/-! ## What is watched -/

/-- GitLab's answer ends the job while it is being run. -/
def endsJob (s : State) (l : Label) : Bool := l = .remote .aborted && s.phase ≠ .ended

/-- The call of `update_job` that a step makes. -/
def updateJob (s : State) (l : Label) : Option Report :=
  match l, s.phase with
  | .report, .reporting stopped =>
      if s.cancel = .aborted ∧ !stopped then none else some (finalReport s.outcome)
  | _, _ => none

/-- A run, with what GitLab did and was told. -/
structure Watched where
  run : State := {}
  /-- GitLab has ended the job -/
  gitlabEnded : Bool := false
  /-- it did so before any shutdown was requested -/
  endedFirst : Bool := false
  /-- the calls of `update_job` so far -/
  calls : List Report := []

def watch (parseDuration : Chars → Option Nat) (job : Job) (w : Watched) (l : Label) :
    Option Watched :=
  (step parseDuration job w.run l).map fun s => {
    run := s
    gitlabEnded := w.gitlabEnded || endsJob w.run l
    endedFirst := w.endedFirst || (endsJob w.run l && w.run.shutdown = .running)
    calls := w.calls ++ (updateJob w.run l).toList }

/-- The shutdown mode that the end of the run goes by, once it is read. -/
def stoppedBy : Phase → Option Bool
  | .closing stopped | .reporting stopped => some stopped
  | _ => none

/-- The step confuses who ended the job: the runner is found aborting although GitLab ended the
job first, or the heartbeat aborts the job after the shutdown mode was read. -/
def Confuses (w : Watched) (l : Label) : Prop :=
  (l = .readShutdown ∧ w.endedFirst = true ∧ w.run.shutdown = .abort) ∨
    (l = .heartbeatAbort ∧ w.gitlabEnded = false ∧ stoppedBy w.run.phase = some false)

instance (w : Watched) (l : Label) : Decidable (Confuses w l) :=
  inferInstanceAs (Decidable (_ ∨ _))

/-! ## The steps that only go on -/

/-- How many steps of its own the run still takes, at most. -/
def weight (job : Job) : Phase → Nat
  | .preparing => 3 * job.steps.length + (job.artifacts.getD []).length + 15
  | .starting => 3 * job.steps.length + (job.artifacts.getD []).length + 14
  | .steps steps => JobSteps.weight job steps.phase + (job.artifacts.getD []).length + 10
  | .releasing => (job.artifacts.getD []).length + 9
  | .deciding => (job.artifacts.getD []).length + 8
  | .listing => (job.artifacts.getD []).length + 7
  | .uploading rest => rest.length + 6
  | .saving => 5
  | .cleaning => 4
  | .stopping => 3
  | .closing _ => 2
  | .reporting _ => 1
  | .ended => 0

/-- The labels of the run's own steps before the report, other than the read of the shutdown
mode. -/
def GoesOn : Label → Prop
  | .remote _ | .shutdown _ | .heartbeatAbort | .readShutdown | .report => False
  | _ => True

/-- What such a step keeps. -/
structure Onward (job : Job) (s t : State) : Prop where
  cancel : t.cancel = s.cancel
  shutdown : t.shutdown = s.shutdown
  report : t.report = s.report
  stopped : stoppedBy t.phase = stoppedBy s.phase
  weight : weight job t.phase < weight job s.phase
  running : t.phase ≠ .ended

theorem length_entriesToUpload_le (job : Job) (untracked : List Chars) (succeeded : Bool) :
    (entriesToUpload job untracked succeeded).length ≤ (job.artifacts.getD []).length :=
  List.length_filter_le _ _

variable {parseDuration : Chars → Option Nat} {job : Job}

theorem onward_of_step {s t : State} {l : Label} (hl : GoesOn l)
    (h : step parseDuration job s l = some t) : Onward job s t := by
  cases l with
  | remote state => exact hl.elim
  | shutdown mode => exact hl.elim
  | heartbeatAbort => exact hl.elim
  | readShutdown => exact hl.elim
  | report => exact hl.elim
  | prepared error =>
      simp only [step] at h
      split at h
      case isFalse => cases h
      next hphase =>
      cases error with
      | none =>
          obtain rfl := Option.some.inj h
          constructor <;> simp [hphase, stoppedBy, weight]
      | some message =>
          obtain rfl := Option.some.inj h
          constructor <;> simp [hphase, stoppedBy, weight]
          omega
  | setupFailed failure =>
      obtain ⟨hphase, rfl⟩ := of_guard h
      constructor <;> simp [hphase, stoppedBy, weight]
      omega
  | setup now =>
      obtain ⟨hphase, rfl⟩ := of_guard h
      constructor <;> simp [hphase, stoppedBy, weight, JobSteps.start, JobSteps.weight]
      omega
  | step label =>
      simp only [step] at h
      split at h
      case h_2 => cases h
      next steps hphase =>
      split at h
      case h_2 => cases h
      next steps' hsteps =>
      have hweight : JobSteps.weight job steps'.phase < JobSteps.weight job steps.phase :=
        JobSteps.weight_move (l := (s.cancel, label)) hsteps
      split at h
      · obtain rfl := Option.some.inj h
        constructor <;> simp [hphase, stoppedBy, weight]
      · obtain rfl := Option.some.inj h
        constructor <;> simp [hphase, stoppedBy, weight, hweight]
  | panicked =>
      simp only [step] at h
      split at h
      case h_2 => cases h
      next steps hphase =>
      obtain rfl := Option.some.inj h
      constructor <;> simp [hphase, stoppedBy, weight]
  | released =>
      obtain ⟨hphase, rfl⟩ := of_guard h
      constructor <;> simp [hphase, stoppedBy, weight]
  | decide =>
      simp only [step] at h
      split at h
      case isFalse => cases h
      next hphase =>
      split at h
      · obtain rfl := Option.some.inj h
        constructor <;> simp [hphase, stoppedBy, weight]
      · obtain rfl := Option.some.inj h
        constructor <;> simp [hphase, stoppedBy, weight]
  | listed files =>
      obtain ⟨hphase, rfl⟩ := of_guard h
      constructor <;> simp [hphase, stoppedBy, weight]
      exact length_entriesToUpload_le job _ _
  | upload result =>
      simp only [step] at h
      split at h
      case h_2 => cases h
      next artifact rest hphase =>
      obtain rfl := Option.some.inj h
      constructor <;> simp [hphase, stoppedBy, weight]
  | uploadsDone =>
      simp only [step] at h
      split at h
      case h_2 => cases h
      next hphase =>
      obtain rfl := Option.some.inj h
      constructor <;> simp [hphase, stoppedBy, weight]
  | saved =>
      obtain ⟨hphase, rfl⟩ := of_guard h
      constructor <;> simp [hphase, stoppedBy, weight]
  | cleaned =>
      obtain ⟨hphase, rfl⟩ := of_guard h
      constructor <;> simp [hphase, stoppedBy, weight]
  | closed =>
      simp only [step] at h
      split at h
      case h_2 => cases h
      next stopped hphase =>
      obtain rfl := Option.some.inj h
      constructor <;> simp [hphase, stoppedBy, weight]

/-! ## The invariant -/

/-- Who ended a job, and what was reported of it. -/
structure Settled (w : Watched) : Prop where
  aborted : w.run.phase ≠ .ended → w.run.cancel = .aborted →
    w.gitlabEnded = true ∨ w.run.shutdown = .abort
  first : w.endedFirst = true → w.gitlabEnded = true ∧ w.run.cancel = .aborted
  byShutdown : stoppedBy w.run.phase = some true → w.run.shutdown = .abort ∧ w.endedFirst = false
  byGitlab : stoppedBy w.run.phase = some false → w.run.cancel = .aborted → w.gitlabEnded = true
  calls : w.calls = w.run.report.toList
  unreported : w.run.phase ≠ .ended → w.run.report = none
  reported : w.run.phase = .ended →
    (w.gitlabEnded = false → w.run.report.isSome) ∧ (w.endedFirst = true → w.run.report = none)

theorem settled_init : Settled {} := by
  constructor <;> simp [stoppedBy]

theorem update_eq_aborted (current state : RemoteState) :
    current.update state = .aborted ↔ current = .aborted ∨ state = .aborted := by
  cases current <;> cases state <;> decide

theorem request_abort (mode : Shutdown) : Shutdown.abort.request mode = .abort := by
  cases mode <;> decide

theorem settled_onward {w : Watched} {s : State} {l : Label} (hi : Settled w) (hl : GoesOn l)
    (h : step parseDuration job w.run l = some s) :
    Settled {
      run := s
      gitlabEnded := w.gitlabEnded || endsJob w.run l
      endedFirst := w.endedFirst || (endsJob w.run l && w.run.shutdown = .running)
      calls := w.calls ++ (updateJob w.run l).toList } := by
  have hon : Onward job w.run s := onward_of_step hl h
  have hbefore : w.run.phase ≠ .ended := fun hended => by
    have hweight := hon.weight
    rw [hended] at hweight
    exact absurd hweight (Nat.not_lt_zero _)
  have hends : endsJob w.run l = false := by
    cases l with
    | remote state => exact hl.elim
    | _ => rfl
  have hcall : updateJob w.run l = none := by
    cases l with
    | report => exact hl.elim
    | _ => rfl
  simp only [hends, hcall, Bool.or_false, Bool.false_and, Option.toList_none, List.append_nil]
  constructor
  · intro _ hcancel
    show w.gitlabEnded = true ∨ s.shutdown = .abort
    rw [hon.shutdown]
    exact hi.aborted hbefore (hon.cancel ▸ hcancel)
  · intro hfirst
    show w.gitlabEnded = true ∧ s.cancel = .aborted
    rw [hon.cancel]
    exact hi.first hfirst
  · intro hstopped
    show s.shutdown = .abort ∧ w.endedFirst = false
    rw [hon.shutdown]
    exact hi.byShutdown (hon.stopped ▸ hstopped)
  · exact fun hstopped hcancel => hi.byGitlab (hon.stopped ▸ hstopped) (hon.cancel ▸ hcancel)
  · show w.calls = s.report.toList
    rw [hon.report]
    exact hi.calls
  · intro _
    show s.report = none
    rw [hon.report]
    exact hi.unreported hbefore
  · exact fun hended => absurd hended hon.running

/-- An answer of GitLab ends the job or changes nothing that was settled. -/
theorem settled_remote {w : Watched} {state : RemoteState} (hi : Settled w) :
    Settled {
      run := { w.run with cancel := w.run.cancel.update state }
      gitlabEnded := w.gitlabEnded || endsJob w.run (.remote state)
      endedFirst := w.endedFirst ||
        (endsJob w.run (.remote state) && w.run.shutdown = .running)
      calls := w.calls ++ (updateJob w.run (.remote state)).toList } := by
  have hcall : w.calls ++ (updateJob w.run (.remote state)).toList = w.calls :=
    List.append_nil _
  rw [hcall]
  by_cases hends : state = .aborted ∧ w.run.phase ≠ .ended
  · have hendsJob : endsJob w.run (.remote state) = true := by simp [endsJob, hends]
    rw [hendsJob, Bool.or_true, Bool.true_and]
    constructor
    · exact fun _ _ => .inl rfl
    · exact fun _ => ⟨rfl, (update_eq_aborted _ _).mpr (.inr hends.1)⟩
    · intro hstopped
      obtain ⟨hshutdown, hfirst⟩ := hi.byShutdown hstopped
      exact ⟨hshutdown, by simp [hshutdown, hfirst]⟩
    · exact fun _ _ => rfl
    · exact hi.calls
    · exact hi.unreported
    · exact fun hended => absurd hended hends.2
  · have hendsJob : endsJob w.run (.remote state) = false := by
      rw [not_and_or, not_not] at hends
      rcases hends with hstate | hphase
      · simp [endsJob, hstate]
      · simp [endsJob, hphase]
    rw [hendsJob, Bool.or_false, Bool.false_and, Bool.or_false]
    have hcancel : w.run.phase ≠ .ended → w.run.cancel.update state = .aborted →
        w.run.cancel = .aborted := fun hphase hupdate =>
      ((update_eq_aborted _ _).mp hupdate).resolve_right fun hstate => hends ⟨hstate, hphase⟩
    constructor
    · exact fun hphase hupdate => hi.aborted hphase (hcancel hphase hupdate)
    · intro hfirst
      obtain ⟨hended, haborted⟩ := hi.first hfirst
      exact ⟨hended, (update_eq_aborted _ _).mpr (.inl haborted)⟩
    · exact hi.byShutdown
    · intro hstopped hupdate
      have hphase : w.run.phase ≠ .ended := by
        intro hended
        simp [hended, stoppedBy] at hstopped
      exact hi.byGitlab hstopped (hcancel hphase hupdate)
    · exact hi.calls
    · exact hi.unreported
    · exact hi.reported

theorem settled_shutdown {w : Watched} (mode : Shutdown) (hi : Settled w) :
    Settled { w with run := { w.run with shutdown := w.run.shutdown.request mode } } := by
  have habort : w.run.shutdown = .abort → w.run.shutdown.request mode = .abort := by
    intro h
    rw [h, request_abort]
  constructor
  · exact fun hphase hcancel => (hi.aborted hphase hcancel).imp_right habort
  · exact hi.first
  · exact fun hstopped => ⟨habort (hi.byShutdown hstopped).1, (hi.byShutdown hstopped).2⟩
  · exact hi.byGitlab
  · exact hi.calls
  · exact hi.unreported
  · exact hi.reported

/-- The heartbeat aborts the job because the runner is aborting. -/
theorem settled_heartbeat {w : Watched} (hi : Settled w) (habort : w.run.shutdown = .abort)
    (hc : ¬ (w.gitlabEnded = false ∧ stoppedBy w.run.phase = some false)) :
    Settled { w with run := { w.run with cancel := w.run.cancel.update .aborted } } := by
  constructor
  · exact fun _ _ => .inr habort
  · exact fun hfirst => ⟨(hi.first hfirst).1, (update_eq_aborted _ _).mpr (.inr rfl)⟩
  · exact hi.byShutdown
  · intro hstopped _
    by_contra hended
    exact hc ⟨Bool.eq_false_of_not_eq_true hended, hstopped⟩
  · exact hi.calls
  · exact hi.unreported
  · exact hi.reported

/-- The shutdown mode is read, and not confused with GitLab's end of the job. -/
theorem settled_readShutdown {w : Watched} (hi : Settled w) (hphase : w.run.phase = .stopping)
    (hc : ¬ (w.endedFirst = true ∧ w.run.shutdown = .abort)) (outcome : JobOutcome) :
    Settled { w with
      run := { w.run with
        outcome := outcome, phase := .closing (decide (w.run.shutdown = .abort)) } } := by
  have hrunning : w.run.phase ≠ .ended := by simp [hphase]
  constructor
  · exact fun _ => hi.aborted hrunning
  · exact hi.first
  · intro hstopped
    have habort : w.run.shutdown = .abort := by simpa [stoppedBy] using hstopped
    refine ⟨habort, ?_⟩
    by_contra hfirst
    exact hc ⟨Bool.eq_true_of_not_eq_false hfirst, habort⟩
  · intro hstopped hcancel
    have hnot : w.run.shutdown ≠ .abort := by simpa [stoppedBy] using hstopped
    exact (hi.aborted hrunning hcancel).resolve_right hnot
  · exact hi.calls
  · exact fun _ => hi.unreported hrunning
  · exact fun hended => Phase.noConfusion hended

/-- The run ends, with a report or without one. -/
theorem settled_report {w : Watched} (hi : Settled w) {stopped : Bool}
    (hphase : w.run.phase = .reporting stopped) {report : Option Report}
    (hreport : report = if w.run.cancel = .aborted ∧ !stopped then none
      else some (finalReport w.run.outcome)) :
    Settled { w with
      run := { w.run with report := report, phase := .ended }
      calls := w.calls ++ report.toList } := by
  have hnone : w.run.report = none := hi.unreported (by simp [hphase])
  have hstopped : stoppedBy w.run.phase = some stopped := by rw [hphase, stoppedBy]
  constructor
  · exact fun hended => absurd rfl hended
  · exact hi.first
  · exact fun h => absurd h (by simp [stoppedBy])
  · exact fun h => absurd h (by simp [stoppedBy])
  · show w.calls ++ report.toList = report.toList
    rw [hi.calls, hnone]
    rfl
  · exact fun hended => absurd rfl hended
  · intro _
    by_cases hskip : w.run.cancel = .aborted ∧ !stopped
    · -- not reported: GitLab has ended the job
      rw [if_pos hskip] at hreport
      obtain rfl : stopped = false := by simpa using hskip.2
      have hended : w.gitlabEnded = true := hi.byGitlab hstopped hskip.1
      exact ⟨fun h => absurd (hended.symm.trans h) (by simp), fun _ => hreport⟩
    · -- reported: then GitLab did not end the job first
      rw [if_neg hskip] at hreport
      refine ⟨fun _ => by simp [hreport], fun hfirst => ?_⟩
      have hcancel : w.run.cancel = .aborted := (hi.first hfirst).2
      obtain rfl : stopped = true := by simpa [hcancel] using hskip
      exact absurd ((hi.byShutdown hstopped).2.symm.trans hfirst) (by simp)

/-- **Every step that does not confuse who ended the job keeps the invariant.** -/
theorem settled_step {w : Watched} {l : Label} {w' : Watched} (hi : Settled w)
    (hc : ¬ Confuses w l) (h : watch parseDuration job w l = some w') : Settled w' := by
  obtain ⟨s, hs, rfl⟩ := Option.map_eq_some_iff.mp h
  by_cases hl : GoesOn l
  · exact settled_onward hi hl hs
  · cases l with
    | remote state =>
        obtain rfl := Option.some.inj hs
        exact settled_remote hi
    | shutdown mode =>
        obtain rfl := Option.some.inj hs
        simpa [endsJob, updateJob] using settled_shutdown mode hi
    | heartbeatAbort =>
        obtain ⟨habort, rfl⟩ := of_guard hs
        simpa [endsJob, updateJob] using settled_heartbeat hi habort
          fun hconfused => hc (.inr ⟨rfl, hconfused⟩)
    | readShutdown =>
        obtain ⟨hphase, rfl⟩ := of_guard hs
        simpa [endsJob, updateJob] using settled_readShutdown hi hphase
          (fun hconfused => hc (.inl ⟨rfl, hconfused⟩)) _
    | report =>
        simp only [step] at hs
        split at hs
        case h_2 => cases hs
        next stopped hphase =>
        have hcall : updateJob w.run .report = if w.run.cancel = .aborted ∧ !stopped then none
            else some (finalReport w.run.outcome) := by
          simp only [updateJob, hphase]
        have hended := settled_report hi hphase hcall
        have hnone : w.run.report = none := hi.unreported (by simp [hphase])
        split at hs
        · next hskip =>
            obtain rfl := Option.some.inj hs
            rw [hcall, if_pos hskip] at hended
            simpa [endsJob, hcall, hskip, hnone] using hended
        · next hskip =>
            obtain rfl := Option.some.inj hs
            rw [if_neg hskip] at hcall
            rw [hcall] at hended
            simpa [endsJob, hcall] using hended
    | _ => exact absurd trivial hl

/-! ## The end of a run -/

/-- A run that has not ended takes a step of its own, and is closer to its end. -/
theorem exists_step {s : State} (h : s.phase ≠ .ended) :
    ∃ l t, step parseDuration job s l = some t ∧ weight job t.phase < weight job s.phase := by
  have honward : ∀ l t, GoesOn l → step parseDuration job s l = some t →
      ∃ l t, step parseDuration job s l = some t ∧ weight job t.phase < weight job s.phase :=
    fun l t hl ht => ⟨l, t, ht, (onward_of_step hl ht).weight⟩
  cases hphase : s.phase with
  | preparing => exact hphase ▸ honward (.prepared none) _ trivial (if_pos hphase)
  | starting => exact hphase ▸ honward (.setup 0) _ trivial (if_pos hphase)
  | steps steps =>
      have hstep : step parseDuration job s .panicked = some { s with
          outcome := some (JobFailure.system "internal runner error".toList)
          phase := .releasing } := by simp only [step, hphase]
      exact hphase ▸ honward .panicked _ trivial hstep
  | releasing => exact hphase ▸ honward .released _ trivial (if_pos hphase)
  | deciding =>
      obtain ⟨t, ht⟩ : ∃ t, step parseDuration job s .decide = some t := by
        simp only [step, hphase, if_true]
        split
        · exact ⟨_, rfl⟩
        · exact ⟨_, rfl⟩
      exact hphase ▸ honward .decide t trivial ht
  | listing => exact hphase ▸ honward (.listed []) _ trivial (if_pos hphase)
  | uploading rest =>
      cases rest with
      | nil =>
          have hstep : step parseDuration job s .uploadsDone = some { s with
              outcome := if s.outcome = none then s.uploadFailure else s.outcome
              phase := .saving } := by simp only [step, hphase]
          exact hphase ▸ honward .uploadsDone _ trivial hstep
      | cons artifact rest =>
          obtain ⟨t, ht⟩ : ∃ t, step parseDuration job s (.upload .noFiles) = some t := by
            simp only [step, hphase]
            exact ⟨_, rfl⟩
          exact hphase ▸ honward (.upload .noFiles) t trivial ht
  | saving => exact hphase ▸ honward .saved _ trivial (if_pos hphase)
  | cleaning => exact hphase ▸ honward .cleaned _ trivial (if_pos hphase)
  | stopping => exact ⟨.readShutdown, _, if_pos hphase, by simp [weight]⟩
  | closing stopped =>
      have hstep : step parseDuration job s .closed =
          some { s with phase := .reporting stopped } := by
        simp only [step, hphase]
      exact hphase ▸ honward .closed _ trivial hstep
  | reporting stopped =>
      by_cases hskip : s.cancel = .aborted ∧ !stopped
      · have hstep : step parseDuration job s .report = some { s with phase := .ended } := by
          simp only [step, hphase, if_pos hskip]
        exact ⟨.report, _, hstep, by simp [weight]⟩
      · have hstep : step parseDuration job s .report =
            some { s with report := some (finalReport s.outcome), phase := .ended } := by
          simp only [step, hphase, if_neg hskip]
        exact ⟨.report, _, hstep, by simp [weight]⟩
  | ended => exact absurd hphase h

/-- **A run comes to its end**: it can always go on to it. -/
theorem exists_run_ended (w : Watched) :
    ∃ ls w', run (watch parseDuration job) w ls = some w' ∧ w'.run.phase = .ended := by
  induction hn : weight job w.run.phase using Nat.strong_induction_on generalizing w with
  | _ n ih =>
      by_cases hended : w.run.phase = .ended
      · exact ⟨[], w, rfl, hended⟩
      · obtain ⟨l, t, ht, hlt⟩ : ∃ l t, step parseDuration job w.run l = some t ∧
            weight job t.phase < weight job w.run.phase := exists_step hended
        obtain ⟨u, hu, hrun⟩ : ∃ u, watch parseDuration job w l = some u ∧ u.run = t :=
          ⟨_, Option.map_eq_some_iff.mpr ⟨t, ht, rfl⟩, rfl⟩
        obtain ⟨ls, w', hw', hend⟩ := ih _ (by rw [← hn, hrun]; exact hlt) u rfl
        exact ⟨l :: ls, w', run_cons_eq_some.mpr ⟨u, hu, hw'⟩, hend⟩

/-- **One final report for each job**, in every run in which the run does not confuse who ended
the job: it makes at most one call of `update_job`, and when it has ended, exactly one unless
GitLab ended the job, and none if GitLab did so before any shutdown was requested. A run can
always go on to its end. -/
theorem one_final_report {parseDuration : Chars → Option Nat} {job : Job} {ls : List Label}
    {w : Watched} (hrun : run (watch parseDuration job) {} ls = some w)
    (hc : Always (watch parseDuration job) (fun w l => ¬ Confuses w l) {} ls) :
    w.calls.length ≤ 1 ∧
      (w.run.phase = .ended → (w.gitlabEnded = false → w.calls.length = 1) ∧
        (w.endedFirst = true → w.calls = [])) ∧
      ∃ more w', run (watch parseDuration job) w more = some w' ∧ w'.run.phase = .ended := by
  have hi : Settled w :=
    invariant_of_always (fun _ _ _ hi hcond hs => settled_step hi hcond hs) settled_init hc hrun
  refine ⟨?_, fun hended => ⟨fun hgitlab => ?_, fun hfirst => ?_⟩, exists_run_ended w⟩
  · rw [hi.calls]
    exact Option.length_toList_le
  · obtain ⟨report, hreport⟩ := Option.isSome_iff_exists.mp ((hi.reported hended).1 hgitlab)
    rw [hi.calls, hreport]
    rfl
  · rw [hi.calls, (hi.reported hended).2 hfirst]
    rfl

/-- GitLab ends the job while its step runs. -/
def endedByGitlab : List Label :=
  [.prepared none, .setup 0, .step (.sources .ok), .step (.restore .ok), .step (.timeouts 1),
    .step .boundary, .step (.choose 2), .remote .aborted, .step (.finished .canceled), .released,
    .decide, .cleaned]

/-- The rest of such a run. -/
def closedAfter : List Label := [.readShutdown, .closed, .report]

theorem one_final_report_ended :
    ∃ w, run (watch (fun _ => none) buildJob) {} (endedByGitlab ++ closedAfter) = some w ∧
      w.run.phase = .ended ∧ w.calls = [] := by
  obtain ⟨w, hw, hfinal⟩ : ∃ w,
      run (watch (fun _ => none) buildJob) {} (endedByGitlab ++ closedAfter) = some w ∧
        (w.run.phase, w.endedFirst) = (.ended, true) :=
    Option.map_eq_some_iff.mp (by decide)
  obtain ⟨hphase, hfirst⟩ := Prod.mk.inj hfinal
  exact ⟨w, hw, hphase, ((one_final_report hw (by decide)).2.1 hphase).2 hfirst⟩

/-- **A job that GitLab ended is reported**, since the runner is told to abort after it; and a
job that GitLab did not end is not reported, since a heartbeat already under way aborts it after
the shutdown mode was read. -/
theorem reports_ended_job :
    (∃ w, run (watch (fun _ => none) buildJob) {}
        (endedByGitlab ++ .shutdown .abort :: closedAfter) = some w ∧
      (w.run.phase, w.endedFirst, w.calls) =
        (.ended, true, [⟨.failed, some .runnerSystemFailure, none⟩])) ∧
    ∃ w, run (watch (fun _ => none) buildJob) {} (executed ++ [.decide, .listed [],
        .upload .uploaded, .uploadsDone, .saved, .cleaned, .readShutdown, .shutdown .abort,
        .heartbeatAbort, .closed, .report]) = some w ∧
      (w.run.phase, w.gitlabEnded, w.calls) = (.ended, false, []) :=
  ⟨Option.map_eq_some_iff.mp (by decide), Option.map_eq_some_iff.mp (by decide)⟩

end JobRun

end TurboCi
