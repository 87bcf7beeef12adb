import TurboCi.Lib.Runs
import TurboCi.RunnerDaemon.JobSteps

set_option autoImplicit false

/-! # The outcome of the steps

What the steps of a job observed, in the order of execution, says how the job ended: its failure
is that of the first observation that is one (`first_failure_and_after_script`). The results of
`after_script` are no failures, and two runs that differ in nothing else have the same outcome
and run the same steps.

A run is a list of labels, each with the cancellation state at its time. Any results and any
cancellation states are allowed, also ones that go back.
-/

namespace TurboCi

open Runs

namespace JobSteps

/-- A move of the machine with the cancellation state of its time. -/
def move (parseDuration : Chars → Option Nat) (job : Job) (s : State)
    (l : RemoteState × Label) : Option State :=
  step parseDuration job l.1 s l.2

/-! ## What a run observed -/

inductive Observation where
  | sources (result : StageResult)
  | restore (result : StageResult)
  /-- whether the job is aborted, before any step -/
  | abortCheck (step : Step) (cancel : RemoteState)
  /-- whether the job is being canceled, before a step of a job that is not aborted -/
  | cancelCheck (step : Step) (cancel : RemoteState)
  | ran (step : Step) (result : RunStatus)
  deriving DecidableEq

/-- How a script run fails its job. -/
def runFailure (job : Job) (step : Step) : RunStatus → Option JobFailure
  | .exited code => if code = 0 ∨ step.allowFailure then none else some (exitFailure code)
  | .timedOut => some (timedOut job)
  | .canceled => some canceled
  | .error message => some (JobFailure.system message)

/-- **The failure events**: sources or restore did not succeed, a step other than
`after_script` failed, a cancellation was seen before one, or an abort before any step. -/
def Observation.failure (job : Job) : Observation → Option JobFailure
  | .sources result => stageFailure job result
  | .restore result => stageFailure job result
  | .abortCheck _ cancel => if cancel = .aborted then some canceled else none
  | .cancelCheck step cancel =>
      if !isAfterScript step ∧ cancel ≠ .running then some canceled else none
  | .ran step result => if isAfterScript step then none else runFailure job step result

/-- What one move observes. -/
def observe (s : State) (l : RemoteState × Label) : Option Observation :=
  match l.2, s.phase with
  | .sources result, _ => some (.sources result)
  | .restore result, _ => some (.restore result)
  | .boundary, .boundary next _ => some (.abortCheck next l.1)
  | .choose _, .chosen next _ => some (.cancelCheck next l.1)
  | .finished result, .running run _ => some (.ran run.step result)
  | _, _ => none

/-- What a run observed, in the order of execution. -/
def history (parseDuration : Chars → Option Nat) (job : Job) :
    State → List (RemoteState × Label) → List Observation
  | _, [] => []
  | s, l :: ls =>
      match move parseDuration job s l with
      | some t => (observe s l).toList ++ history parseDuration job t ls
      | none => []

/-- The scripts that ran, other than those of `after_script`, and their results. -/
def otherRuns (observations : List Observation) : List (Step × RunStatus) :=
  observations.filterMap fun
    | .ran step result => if isAfterScript step then none else some (step, result)
    | _ => none

variable {parseDuration : Chars → Option Nat} {job : Job}

theorem history_cons {s t : State} {l : RemoteState × Label} {ls : List (RemoteState × Label)}
    (h : move parseDuration job s l = some t) :
    history parseDuration job s (l :: ls) =
      (observe s l).toList ++ history parseDuration job t ls := by
  rw [history, h]

/-! ## The first failure -/

/-- Nothing has failed while the sources are fetched or the workspace is restored. -/
def Fresh (s : State) : Prop :=
  s.phase = .sources ∨ s.phase = .restore → s.failure = none

theorem before_ne (steps : List Step) : before steps ≠ .sources ∧ before steps ≠ .restore := by
  cases steps with
  | nil => exact ⟨by simp [before], by simp [before]⟩
  | cons step rest => exact ⟨by simp [before], by simp [before]⟩

/-- The phase is past sources and restore, so there is nothing to show. -/
theorem fresh_of_ne {s : State} (h : s.phase ≠ .sources ∧ s.phase ≠ .restore) : Fresh s :=
  fun hphase => absurd hphase (not_or.mpr h)

theorem afterRun_eq (step : Step) (failure : Option JobFailure) (result : RunStatus) :
    afterRun job step failure result =
      failure.or ((Observation.ran step result).failure job) := by
  cases hafter : isAfterScript step with
  | true => cases result with
    | _ => simp [afterRun, Observation.failure, hafter]
  | false =>
      cases result with
      | exited code =>
          by_cases hok : code = 0 ∨ step.allowFailure
          · have hok' : code = 0 ∨ step.allowFailure ∨ isAfterScript step :=
              hok.imp id Or.inl
            simp [afterRun, Observation.failure, runFailure, hafter, hok]
          · rw [not_or] at hok
            simp [afterRun, Observation.failure, runFailure, record, hafter, hok]
      | timedOut => simp [afterRun, Observation.failure, runFailure, record, hafter]
      | canceled => simp [afterRun, Observation.failure, runFailure, record, hafter]
      | error message => simp [afterRun, Observation.failure, runFailure, record, hafter]

/-- The failure with which a step is looked at. -/
def failureAt (cancel : RemoteState) (next : Step) (failure : Option JobFailure) :
    Option JobFailure :=
  if !isAfterScript next ∧ cancel ≠ .running then record failure canceled else failure

/-- A step of this outcome with something to run. -/
def IsChosen (next : Step) (failure : Option JobFailure) : Prop :=
  shouldRun next failure ∧ stepLines next ≠ []

/-- All that a step's choice does. -/
theorem of_choose {cancel : RemoteState} {now : Nat} {s t : State}
    (h : step parseDuration job cancel s (.choose now) = some t) :
    ∃ next rest, s.phase = .chosen next rest ∧ t.failure = failureAt cancel next s.failure ∧
      ((IsChosen next t.failure ∧
          ∃ limits, t.phase = .running ⟨next, scriptText job next t.failure, limits⟩ rest) ∨
        (¬ IsChosen next t.failure ∧ t.phase = before rest)) := by
  simp only [step] at h
  split at h
  case h_2 => cases h
  next next rest hphase =>
  refine ⟨next, rest, hphase, ?_⟩
  rw [← failureAt] at h
  by_cases hchosen : shouldRun next (failureAt cancel next s.failure) ∧ stepLines next ≠ []
  · rw [if_pos hchosen] at h
    obtain rfl := Option.some.inj h
    exact ⟨rfl, .inl ⟨hchosen, _, rfl⟩⟩
  · rw [if_neg hchosen] at h
    obtain rfl := Option.some.inj h
    exact ⟨rfl, .inr ⟨hchosen, rfl⟩⟩

/-- **What a move does to the failure**: it stays, or becomes what the move observed. -/
theorem failure_of_move {s t : State} {l : RemoteState × Label} (hfresh : Fresh s)
    (h : move parseDuration job s l = some t) :
    t.failure = s.failure.or ((observe s l).bind (Observation.failure job)) ∧ Fresh t := by
  obtain ⟨cancel, l⟩ := l
  cases l with
  | sources result =>
      obtain ⟨hphase, rfl⟩ := of_guard h
      have hnone : s.failure = none := hfresh (.inl hphase)
      refine ⟨?_, ?_⟩
      · simp [observe, Observation.failure, hnone]
      · intro hphase'
        by_cases hok : stageFailure job result = none
        · exact hok
        · simp [hok] at hphase'
  | restore result =>
      obtain ⟨hphase, rfl⟩ := of_guard h
      have hnone : s.failure = none := hfresh (.inr hphase)
      refine ⟨?_, fresh_of_ne ⟨nofun, nofun⟩⟩
      simp [observe, Observation.failure, hnone]
  | timeouts now =>
      obtain ⟨hphase, rfl⟩ := of_guard h
      refine ⟨?_, fresh_of_ne (before_ne _)⟩
      simp [observe]
  | boundary =>
      simp only [move, step] at h
      split at h
      · next next rest hphase =>
          by_cases habort : cancel = .aborted
          · rw [if_pos habort] at h
            obtain rfl := Option.some.inj h
            refine ⟨?_, fresh_of_ne ⟨nofun, nofun⟩⟩
            simp [observe, hphase, Observation.failure, habort, record]
          · rw [if_neg habort] at h
            obtain rfl := Option.some.inj h
            refine ⟨?_, fresh_of_ne ⟨nofun, nofun⟩⟩
            simp [observe, hphase, Observation.failure, habort]
      · cases h
  | choose now =>
      obtain ⟨next, rest, hphase, hfailure, hnext⟩ := of_choose h
      constructor
      · rw [hfailure]
        simp only [observe, hphase, Option.bind_some, Observation.failure, failureAt]
        split
        · rfl
        · simp
      · rcases hnext with ⟨-, limits, hnext⟩ | ⟨-, hnext⟩
        · exact fresh_of_ne (by simp [hnext])
        · exact fresh_of_ne (hnext ▸ before_ne rest)
  | finished result =>
      simp only [move, step] at h
      split at h
      · next run rest hphase =>
          obtain rfl := Option.some.inj h
          refine ⟨?_, fresh_of_ne (before_ne _)⟩
          simp only [observe, hphase, Option.bind_some]
          exact afterRun_eq run.step s.failure result
      · cases h

/-- **The failure after a run** is the one before it, or the first that the run observed. -/
theorem failure_of_run {ls : List (RemoteState × Label)} {s t : State} (hfresh : Fresh s)
    (h : run (move parseDuration job) s ls = some t) :
    t.failure =
      s.failure.or ((history parseDuration job s ls).findSome? (Observation.failure job)) := by
  induction ls generalizing s with
  | nil =>
      obtain rfl := Option.some.inj h
      simp [history]
  | cons l ls ih =>
      obtain ⟨u, hu, hrun⟩ := run_cons_eq_some.mp h
      obtain ⟨hfailure, hfresh'⟩ := failure_of_move hfresh hu
      have hobserved : ∀ o : Option Observation, o.toList.findSome? (Observation.failure job) =
          o.bind (Observation.failure job) := by
        intro o
        cases o with
        | none => rfl
        | some o => simp
      rw [ih hfresh' hrun, hfailure, history_cons hu, List.findSome?_append, hobserved,
        Option.or_assoc]

/-! ## The results of `after_script` -/

def inAfterScript (s : State) : Bool :=
  match s.phase with
  | .running run _ => isAfterScript run.step
  | _ => false

/-- The two moves differ at most in what a clock says and in the result of `after_script`. -/
def sameInput (s : State) (l l' : RemoteState × Label) : Bool :=
  match l.2, l'.2 with
  | .sources result, .sources result' => result = result'
  | .restore result, .restore result' => result = result'
  | .timeouts _, .timeouts _ => true
  | .boundary, .boundary => l.1 = l'.1
  | .choose _, .choose _ => l.1 = l'.1
  | .finished result, .finished result' => result = result' || inAfterScript s
  | _, _ => false

/-- The second run has the first one's moves, but for clocks and the results of
`after_script`. -/
def sameRun (parseDuration : Chars → Option Nat) (job : Job) :
    State → List (RemoteState × Label) → List (RemoteState × Label) → Bool
  | _, [], [] => true
  | s, l :: ls, l' :: ls' => sameInput s l l' &&
      match move parseDuration job s l with
      | some t => sameRun parseDuration job t ls ls'
      | none => true
  | _, _, _ => false

/-- The states differ at most in deadlines. -/
structure Alike (s s' : State) : Prop where
  failure : s'.failure = s.failure
  phase : s'.phase = s.phase ∨ ∃ step script limits limits' rest,
    s.phase = .running ⟨step, script, limits⟩ rest ∧
      s'.phase = .running ⟨step, script, limits'⟩ rest

theorem Alike.phase_eq {s s' : State} (h : Alike s s') {p : Phase} (hp : s.phase = p)
    (hrunning : ∀ run rest, p ≠ .running run rest) : s'.phase = p := by
  rcases h.phase with hsame | ⟨step, script, limits, limits', rest, hs, -⟩
  · exact hsame.trans hp
  · exact absurd (hp.symm.trans hs) (hrunning _ _)

/-- A step that was not found aborted is looked at. -/
theorem exists_choose {cancel : RemoteState} {now : Nat} {s : State} {next : Step}
    {rest : List Step} (h : s.phase = .chosen next rest) :
    ∃ t, step parseDuration job cancel s (.choose now) = some t := by
  simp only [step, h]
  rw [← failureAt]
  by_cases hchosen : shouldRun next (failureAt cancel next s.failure) ∧ stepLines next ≠ []
  · rw [if_pos hchosen]
    exact ⟨_, rfl⟩
  · rw [if_neg hchosen]
    exact ⟨_, rfl⟩

theorem afterRun_of_afterScript {step : Step} (h : isAfterScript step = true)
    (failure : Option JobFailure) (result : RunStatus) :
    afterRun job step failure result = failure := by
  rw [afterRun_eq]
  simp [Observation.failure, h]

theorem alike_boundary {cancel : RemoteState} {s s' t : State} (hs : Alike s s')
    (h : move parseDuration job s (cancel, .boundary) = some t) :
    ∃ t', move parseDuration job s' (cancel, .boundary) = some t' ∧ Alike t t' := by
  simp only [move, step] at h
  split at h
  case h_2 => cases h
  next next rest hphase =>
  have hphase' : s'.phase = .boundary next rest := hs.phase_eq hphase nofun
  by_cases habort : cancel = .aborted
  · rw [if_pos habort] at h
    obtain rfl := Option.some.inj h
    have hmove : move parseDuration job s' (cancel, .boundary) =
        some { s' with failure := record s'.failure canceled, phase := .done } := by
      simp only [move, step, hphase', if_pos habort]
    refine ⟨_, hmove, ?_, .inl rfl⟩
    show record s'.failure canceled = record s.failure canceled
    rw [hs.failure]
  · rw [if_neg habort] at h
    obtain rfl := Option.some.inj h
    have hmove : move parseDuration job s' (cancel, .boundary) =
        some { s' with phase := .chosen next rest } := by
      simp only [move, step, hphase', if_neg habort]
    exact ⟨_, hmove, hs.failure, .inl rfl⟩

theorem alike_choose {cancel : RemoteState} {now now' : Nat} {s s' t : State} (hs : Alike s s')
    (h : move parseDuration job s (cancel, .choose now) = some t) :
    ∃ t', move parseDuration job s' (cancel, .choose now') = some t' ∧ Alike t t' := by
  obtain ⟨next, rest, hphase, hfailure, hnext⟩ := of_choose h
  have hphase' : s'.phase = .chosen next rest := hs.phase_eq hphase nofun
  obtain ⟨t', ht'⟩ : ∃ t', step parseDuration job cancel s' (.choose now') = some t' :=
    exists_choose hphase'
  obtain ⟨next', rest', hsame, hfailure', hnext'⟩ := of_choose ht'
  obtain ⟨rfl, rfl⟩ := Phase.chosen.inj (hphase'.symm.trans hsame)
  have hboth : t'.failure = t.failure := by rw [hfailure', hfailure, hs.failure]
  refine ⟨t', ht', hboth, ?_⟩
  rw [hboth] at hnext'
  rcases hnext with ⟨hchosen, limits, hrun⟩ | ⟨hchosen, hskip⟩
  · rcases hnext' with ⟨-, limits', hrun'⟩ | ⟨hchosen', -⟩
    · exact .inr ⟨_, _, _, _, _, hrun, hrun'⟩
    · exact absurd hchosen hchosen'
  · rcases hnext' with ⟨hchosen', -⟩ | ⟨-, hskip'⟩
    · exact absurd hchosen' hchosen
    · exact .inl (hskip'.trans hskip.symm)

/-- In alike states one step is running. -/
theorem Alike.running {s s' : State} (hs : Alike s s') {run : ScriptRun} {rest : List Step}
    (hphase : s.phase = .running run rest) :
    ∃ run', s'.phase = .running run' rest ∧ run'.step = run.step := by
  rcases hs.phase with hsame | ⟨_, _, _, _, _, hrun, hrun'⟩
  · exact ⟨run, hsame.trans hphase, rfl⟩
  · obtain ⟨rfl, rfl⟩ := Phase.running.inj (hphase.symm.trans hrun)
    exact ⟨_, hrun', rfl⟩

theorem alike_finished {cancel cancel' : RemoteState} {result result' : RunStatus} {s s' t : State}
    (hs : Alike s s') (hresult : result = result' ∨ inAfterScript s = true)
    (h : move parseDuration job s (cancel, .finished result) = some t) :
    ∃ t', move parseDuration job s' (cancel', .finished result') = some t' ∧ Alike t t' ∧
      otherRuns (observe s' (cancel', .finished result')).toList =
        otherRuns (observe s (cancel, .finished result)).toList := by
  simp only [move, step] at h
  split at h
  case h_2 => cases h
  next run rest hphase =>
  obtain rfl := Option.some.inj h
  obtain ⟨run', hphase', hstep⟩ := hs.running hphase
  simp only [inAfterScript, hphase] at hresult
  have hmove : move parseDuration job s' (cancel', .finished result') =
      some { s' with
        failure := afterRun job run'.step s'.failure result', phase := before rest } := by
    simp only [move, step, hphase']
  refine ⟨_, hmove, ⟨?_, .inl rfl⟩, ?_⟩
  · show afterRun job run'.step s'.failure result' = afterRun job run.step s.failure result
    rw [hstep, hs.failure]
    rcases hresult with rfl | hafter
    · rfl
    · rw [afterRun_of_afterScript hafter, afterRun_of_afterScript hafter]
  · rcases hresult with rfl | hafter
    · simp [observe, otherRuns, hphase, hphase', hstep]
    · simp [observe, otherRuns, hphase, hphase', hstep, hafter]

/-- A move that ends no script shows no run. -/
theorem otherRuns_observe {s : State} {l : RemoteState × Label}
    (h : ∀ result, l.2 ≠ .finished result) : otherRuns (observe s l).toList = [] := by
  obtain ⟨cancel, l⟩ := l
  cases l with
  | finished result => exact absurd rfl (h result)
  | sources result => rfl
  | restore result => rfl
  | timeouts now => simp [observe, otherRuns]
  | boundary => cases hphase : s.phase with
    | _ => simp [observe, otherRuns, hphase]
  | choose now => cases hphase : s.phase with
    | _ => simp [observe, otherRuns, hphase]

/-- **Alike states make alike moves.** -/
theorem alike_move {s s' t : State} {l l' : RemoteState × Label} (hs : Alike s s')
    (hl : sameInput s l l' = true) (h : move parseDuration job s l = some t) :
    ∃ t', move parseDuration job s' l' = some t' ∧ Alike t t' ∧
      otherRuns (observe s' l').toList = otherRuns (observe s l).toList := by
  obtain ⟨cancel, l⟩ := l
  obtain ⟨cancel', l'⟩ := l'
  cases l with
  | sources result =>
      cases l' with
      | sources result' =>
          obtain rfl : result = result' := of_decide_eq_true hl
          obtain ⟨hphase, rfl⟩ := of_guard h
          exact ⟨_, if_pos (hs.phase_eq hphase nofun), ⟨rfl, .inl rfl⟩, rfl⟩
      | _ => simp [sameInput] at hl
  | restore result =>
      cases l' with
      | restore result' =>
          obtain rfl : result = result' := of_decide_eq_true hl
          obtain ⟨hphase, rfl⟩ := of_guard h
          exact ⟨_, if_pos (hs.phase_eq hphase nofun), ⟨rfl, .inl rfl⟩, rfl⟩
      | _ => simp [sameInput] at hl
  | timeouts now =>
      cases l' with
      | timeouts now' =>
          obtain ⟨hphase, rfl⟩ := of_guard h
          refine ⟨_, if_pos (hs.phase_eq hphase nofun), ⟨hs.failure, .inl rfl⟩, ?_⟩
          rw [otherRuns_observe (by simp), otherRuns_observe (by simp)]
      | _ => simp [sameInput] at hl
  | boundary =>
      cases l' with
      | boundary =>
          obtain rfl : cancel = cancel' := of_decide_eq_true hl
          obtain ⟨t', ht', halike⟩ := alike_boundary hs h
          refine ⟨t', ht', halike, ?_⟩
          rw [otherRuns_observe (by simp), otherRuns_observe (by simp)]
      | _ => simp [sameInput] at hl
  | choose now =>
      cases l' with
      | choose now' =>
          obtain rfl : cancel = cancel' := of_decide_eq_true hl
          obtain ⟨t', ht', halike⟩ : ∃ t',
              move parseDuration job s' (cancel, .choose now') = some t' ∧ Alike t t' :=
            alike_choose hs h
          refine ⟨t', ht', halike, ?_⟩
          rw [otherRuns_observe (by simp), otherRuns_observe (by simp)]
      | _ => simp [sameInput] at hl
  | finished result =>
      cases l' with
      | finished result' => exact alike_finished hs (by simpa [sameInput] using hl) h
      | _ => simp [sameInput] at hl

theorem otherRuns_append (a b : List Observation) :
    otherRuns (a ++ b) = otherRuns a ++ otherRuns b := List.filterMap_append

theorem alike_run {ls ls' : List (RemoteState × Label)} {s s' t : State} (hs : Alike s s')
    (hl : sameRun parseDuration job s ls ls' = true)
    (h : run (move parseDuration job) s ls = some t) :
    ∃ t', run (move parseDuration job) s' ls' = some t' ∧ Alike t t' ∧
      otherRuns (history parseDuration job s' ls') =
        otherRuns (history parseDuration job s ls) := by
  induction ls generalizing s s' ls' with
  | nil =>
      cases ls' with
      | nil =>
          obtain rfl := Option.some.inj h
          exact ⟨s', rfl, hs, rfl⟩
      | cons l' ls' => simp [sameRun] at hl
  | cons l ls ih =>
      cases ls' with
      | nil => simp [sameRun] at hl
      | cons l' ls' =>
          obtain ⟨u, hu, hrun⟩ := run_cons_eq_some.mp h
          simp only [sameRun, hu, Bool.and_eq_true] at hl
          obtain ⟨hinput, hrest⟩ := hl
          obtain ⟨u', hu', halike, hobserved⟩ := alike_move hs hinput hu
          obtain ⟨t', ht', halike', hruns⟩ := ih halike hrest hrun
          refine ⟨t', run_cons_eq_some.mpr ⟨u', hu', ht'⟩, halike', ?_⟩
          rw [history_cons hu', history_cons hu, otherRuns_append, otherRuns_append, hobserved,
            hruns]

/-! ## The end of a run -/

/-- How many moves there are to the end, at most. -/
def weight (job : Job) : Phase → Nat
  | .sources => 3 * job.steps.length + 3
  | .restore => 3 * job.steps.length + 2
  | .timeouts => 3 * job.steps.length + 1
  | .boundary _ rest => 3 * rest.length + 3
  | .chosen _ rest => 3 * rest.length + 2
  | .running _ rest => 3 * rest.length + 1
  | .done => 0

theorem weight_before (job : Job) (steps : List Step) :
    weight job (before steps) = 3 * steps.length := by
  cases steps with
  | nil => rfl
  | cons step rest =>
      simp only [before, weight, List.length_cons]
      omega

theorem weight_move {s t : State} {l : RemoteState × Label}
    (h : move parseDuration job s l = some t) : weight job t.phase < weight job s.phase := by
  obtain ⟨cancel, l⟩ := l
  cases l with
  | sources result =>
      obtain ⟨hphase, rfl⟩ := of_guard h
      simp only [hphase]
      split
      · simp [weight]
      · simp [weight]
  | restore result =>
      obtain ⟨hphase, rfl⟩ := of_guard h
      simp [hphase, weight]
  | timeouts now =>
      obtain ⟨hphase, rfl⟩ := of_guard h
      show weight job (before job.steps) < weight job s.phase
      rw [weight_before, hphase]
      simp [weight]
  | boundary =>
      simp only [move, step] at h
      split at h
      case h_2 => cases h
      next next rest hphase =>
      split at h
      · obtain rfl := Option.some.inj h
        simp [hphase, weight]
      · obtain rfl := Option.some.inj h
        simp [hphase, weight]
  | choose now =>
      obtain ⟨next, rest, hphase, -, hnext⟩ := of_choose h
      rcases hnext with ⟨-, limits, hrun⟩ | ⟨-, hskip⟩
      · simp [hphase, hrun, weight]
      · rw [hphase, hskip, weight_before]
        simp [weight]
  | finished result =>
      simp only [move, step] at h
      split at h
      case h_2 => cases h
      next run rest hphase =>
      obtain rfl := Option.some.inj h
      show weight job (before rest) < weight job s.phase
      rw [weight_before, hphase]
      simp [weight]

/-- A job that is not done makes a move, whatever the cancellation state. -/
theorem exists_move {s : State} (cancel : RemoteState) (h : s.phase ≠ .done) :
    ∃ l t, move parseDuration job s (cancel, l) = some t := by
  cases hphase : s.phase with
  | sources => exact ⟨.sources .ok, _, if_pos hphase⟩
  | restore => exact ⟨.restore .ok, _, if_pos hphase⟩
  | timeouts => exact ⟨.timeouts 0, _, if_pos hphase⟩
  | boundary next rest =>
      refine ⟨.boundary, ?_⟩
      simp only [move, step, hphase]
      by_cases habort : cancel = .aborted
      · exact ⟨_, if_pos habort⟩
      · exact ⟨_, if_neg habort⟩
  | chosen next rest => exact ⟨.choose 0, exists_choose hphase⟩
  | running run rest =>
      refine ⟨.finished .timedOut, ?_⟩
      simp only [move, step, hphase]
      exact ⟨_, rfl⟩
  | done => exact absurd hphase h

/-- **A run comes to its end**: it can be continued until the job is done. -/
theorem exists_run_done (s : State) :
    ∃ ls t, run (move parseDuration job) s ls = some t ∧ t.phase = .done := by
  induction hn : weight job s.phase using Nat.strong_induction_on generalizing s with
  | _ n ih =>
      by_cases hdone : s.phase = .done
      · exact ⟨[], s, rfl, hdone⟩
      · obtain ⟨l, u, hu⟩ : ∃ l u, move parseDuration job s (.running, l) = some u :=
          exists_move .running hdone
        obtain ⟨ls, t, ht, hend⟩ := ih _ (hn ▸ weight_move hu) u rfl
        exact ⟨_ :: ls, t, run_cons_eq_some.mpr ⟨u, hu, ht⟩, hend⟩

/-- No run goes on for longer than its steps take. -/
theorem length_le_weight {ls : List (RemoteState × Label)} {s t : State}
    (h : run (move parseDuration job) s ls = some t) :
    ls.length + weight job t.phase ≤ weight job s.phase := by
  induction ls generalizing s with
  | nil =>
      obtain rfl := Option.some.inj h
      simp
  | cons l ls ih =>
      obtain ⟨u, hu, hrun⟩ := run_cons_eq_some.mp h
      have hlt := weight_move hu
      have hrest := ih hrun
      rw [List.length_cons]
      omega

/-- **The first failure is reported, and `after_script` never matters.** A run ends, and its
outcome is the failure of the first failure event that it observed, none if there is none.
With other results of `after_script` (and other clocks) there is a run with the same outcome
that runs the same other steps with the same results. -/
theorem first_failure_and_after_script (parseDuration : Chars → Option Nat) (job : Job)
    (now : Nat) (ls : List (RemoteState × Label)) (s : State)
    (h : run (move parseDuration job) (start job now) ls = some s) :
    (ls.length ≤ 3 * job.steps.length + 3 ∧
      ∃ more t, run (move parseDuration job) s more = some t ∧ t.phase = .done) ∧
    s.failure = (history parseDuration job (start job now) ls).findSome?
      (Observation.failure job) ∧
    (s.failure = none ↔
      ∀ o ∈ history parseDuration job (start job now) ls, o.failure job = none) ∧
    ∀ now' ls', sameRun parseDuration job (start job now) ls ls' = true →
      ∃ s', run (move parseDuration job) (start job now') ls' = some s' ∧
        s'.failure = s.failure ∧ (s.phase = .done → s'.phase = .done) ∧
        otherRuns (history parseDuration job (start job now') ls') =
          otherRuns (history parseDuration job (start job now) ls) := by
  have hfailure : s.failure = (history parseDuration job (start job now) ls).findSome?
      (Observation.failure job) := by
    rw [failure_of_run (fun _ => rfl) h]
    rfl
  refine ⟨⟨?_, exists_run_done s⟩, hfailure, ?_, ?_⟩
  · have hle : ls.length + weight job s.phase ≤ 3 * job.steps.length + 3 := length_le_weight h
    omega
  · rw [hfailure, List.findSome?_eq_none_iff]
  · intro now' ls' hsame
    have hstart : Alike (start job now) (start job now') := ⟨rfl, .inl rfl⟩
    obtain ⟨s', hs', halike, hruns⟩ := alike_run hstart hsame h
    exact ⟨s', hs', halike.failure, fun hdone => halike.phase_eq hdone nofun, hruns⟩

/-- A script, a step that may fail, one for failures, and the `after_script`. -/
def fourSteps : Job where
  id := 1
  token := []
  steps := [
    { name := "script".toList, script := ["make".toList], when := "on_success".toList },
    { name := "lint".toList, script := ["lint".toList], when := "always".toList,
      allowFailure := true },
    { name := "report".toList, script := ["report".toList], when := "on_failure".toList },
    { name := "after_script".toList, script := ["clean".toList], when := "always".toList }]

/-- The script fails with exit code 2, and the job is canceled before the last script step. -/
def failedThenCanceled (afterScript : RunStatus) : List (RemoteState × Label) :=
  [(.running, .sources .ok), (.running, .restore .ok), (.running, .timeouts 0),
    (.running, .boundary), (.running, .choose 0), (.running, .finished (.exited 2)),
    (.running, .boundary), (.running, .choose 0), (.running, .finished (.exited 1)),
    (.canceling, .boundary), (.canceling, .choose 0), (.canceling, .finished .canceled),
    (.canceling, .boundary), (.canceling, .choose 0), (.canceling, .finished afterScript)]

theorem first_failure_and_after_script_fourSteps :
    ∃ s, run (move (fun _ => none) fourSteps) (start fourSteps 0)
        (failedThenCanceled (.exited 0)) = some s ∧ s.phase = .done ∧
      s.failure = some (exitFailure 2) ∧
      ∃ s', run (move (fun _ => none) fourSteps) (start fourSteps 5)
        (failedThenCanceled .timedOut) = some s' ∧ s'.failure = some (exitFailure 2) := by
  obtain ⟨s, hs, hdone⟩ : ∃ s, run (move (fun _ => none) fourSteps) (start fourSteps 0)
      (failedThenCanceled (.exited 0)) = some s ∧ s.phase = .done :=
    Option.map_eq_some_iff.mp (by decide)
  obtain ⟨-, hfailure, -, hsame⟩ := first_failure_and_after_script _ _ _ _ _ hs
  have hfirst : s.failure = some (exitFailure 2) := by
    rw [hfailure]
    decide
  obtain ⟨s', hs', hsame', -⟩ := hsame 5 (failedThenCanceled .timedOut) (by decide)
  exact ⟨s, hs, hdone, hfirst, s', hs', hsame'.trans hfirst⟩

end JobSteps

end TurboCi
