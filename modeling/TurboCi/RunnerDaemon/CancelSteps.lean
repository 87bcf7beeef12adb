import TurboCi.RunnerDaemon.Cancel
import TurboCi.RunnerDaemon.StepOutcome

set_option autoImplicit false

/-! # What starts in a canceled job

`run_job_steps` looks at the cancellation twice before each step. Once it has seen the job being
canceled, it hands no other script to the runner than that of `after_script`, or of a step that is
to run on a failure or always; the limit of such a step is a cancellation that is already there.
Once it has seen an abort before a step, it hands over nothing more (`handed_after_cancel`).
-/

namespace TurboCi

open Runs

/-! ## The signal -/

theorem RemoteState.le_update (current state : RemoteState) : current ≤ current.update state := by
  unfold RemoteState.update
  split
  · exact Nat.le_refl current.rank
  · next h => exact Nat.le_of_not_le h

theorem RemoteState.le_foldl_update (states : List RemoteState) :
    ∀ current : RemoteState, current ≤ states.foldl RemoteState.update current := by
  induction states with
  | nil => exact fun current => Nat.le_refl current.rank
  | cons state states ih =>
      exact fun current => Nat.le_trans (le_update current state) (ih (current.update state))

namespace JobSteps

/-- The moves with the states that they see, when before each of them others update the signal. -/
def underSignal (signal : RemoteState) :
    List (List RemoteState × Label) → List (RemoteState × Label)
  | [] => []
  | (updates, l) :: ls =>
      (updates.foldl RemoteState.update signal, l) ::
        underSignal (updates.foldl RemoteState.update signal) ls

/-- What follows a move sees what the signal became from there. -/
theorem underSignal_split {ls : List (List RemoteState × Label)} :
    ∀ {signal : RemoteState} {front : List (RemoteState × Label)} {cancel : RemoteState}
      {l : Label} {back : List (RemoteState × Label)},
      underSignal signal ls = front ++ (cancel, l) :: back →
        signal ≤ cancel ∧ ∃ ls', back = underSignal cancel ls' := by
  induction ls with
  | nil =>
      intro signal front cancel l back h
      simp [underSignal] at h
  | cons p ls ih =>
      intro signal front cancel l back h
      obtain ⟨updates, l'⟩ := p
      have hle := RemoteState.le_foldl_update updates signal
      cases front with
      | nil =>
          obtain ⟨hhead, hback⟩ := List.cons.inj h
          obtain ⟨hcancel, -⟩ := Prod.mk.inj hhead
          rw [hcancel] at hle hback
          exact ⟨hle, ls, hback.symm⟩
      | cons q front =>
          obtain ⟨hle', hback⟩ := ih (List.cons.inj h).2
          exact ⟨Nat.le_trans hle hle', hback⟩

/-! ## What a run shows -/

inductive Event where
  /-- the first look before a step, which finds an abort -/
  | abortCheck (step : Step) (cancel : RemoteState)
  /-- the second look, before a step other than `after_script` -/
  | cancelCheck (step : Step) (cancel : RemoteState)
  /-- the script is handed to the runner -/
  | handed (run : ScriptRun)
  deriving DecidableEq

/-- What the event saw of the cancellation. -/
def Event.saw : Event → Option RemoteState
  | abortCheck _ cancel => some cancel
  | cancelCheck _ cancel => some cancel
  | handed _ => none

/-- The script that was handed over to get to the state. -/
def started (t : State) : List Event :=
  match t.phase with
  | .running run _ => [.handed run]
  | _ => []

/-- What a move from `s` to `t` shows. -/
def shown (s : State) (l : RemoteState × Label) (t : State) : List Event :=
  match l.2, s.phase with
  | .boundary, .boundary next _ => [.abortCheck next l.1]
  | .choose _, .chosen next _ =>
      (if isAfterScript next then [] else [.cancelCheck next l.1]) ++ started t
  | _, _ => []

/-- What a run of the steps shows, when others update the signal meanwhile. -/
def events (parseDuration : Chars → Option Nat) (job : Job) (now : Nat)
    (ls : List (List RemoteState × Label)) : List Event :=
  log (move parseDuration job) shown (start job now) (underSignal .running ls)

/-- A script that is still handed over: of `after_script`, or of a step that runs on failure,
which the cancellation stops. -/
def AllowedUnder (cancel : RemoteState) (run : ScriptRun) : Prop :=
  isAfterScript run.step = true ∨
    (run.step.when = "always".toList ∨ run.step.when = "on_failure".toList) ∧
      run.limits.stopAt ≤ cancel

/-! ## One move -/

variable {parseDuration : Chars → Option Nat} {job : Job}

theorem of_singleton {a e : Event} {early late : List Event} (h : [a] = early ++ e :: late) :
    a = e ∧ late = [] := by
  rcases List.singleton_eq_append_iff.mp h with ⟨-, heq⟩ | ⟨-, heq⟩
  · obtain ⟨rfl, hlate⟩ := List.cons.inj heq
    exact ⟨rfl, hlate⟩
  · cases heq

theorem started_cases {t : State} {early late : List Event} {e : Event}
    (h : started t = early ++ e :: late) : ∃ run, e = .handed run ∧ late = [] := by
  unfold started at h
  split at h
  · next run _ _ =>
      obtain ⟨rfl, hlate⟩ := of_singleton h
      exact ⟨run, rfl, hlate⟩
  · simp at h

/-- What a move shows, and what it shows after that. -/
theorem shown_cases {s t : State} {cancel : RemoteState} {l : Label} {early late : List Event}
    {e : Event} (h : shown s (cancel, l) t = early ++ e :: late) :
    (∃ next, e = .abortCheck next cancel ∧ late = []) ∨
      (∃ next, e = .cancelCheck next cancel ∧ late = started t) ∨
      ∃ run, e = .handed run ∧ late = [] := by
  cases l with
  | boundary =>
      cases hphase : s.phase with
      | boundary next rest =>
          simp only [shown, hphase] at h
          obtain ⟨rfl, hlate⟩ := of_singleton h
          exact .inl ⟨next, rfl, hlate⟩
      | _ => simp [shown, hphase] at h
  | choose now =>
      cases hphase : s.phase with
      | chosen next rest =>
          simp only [shown, hphase] at h
          cases hafter : isAfterScript next with
          | true =>
              rw [hafter, if_pos rfl, List.nil_append] at h
              exact .inr (.inr (started_cases h))
          | false =>
              rw [hafter, if_neg Bool.false_ne_true, List.singleton_append] at h
              cases early with
              | nil =>
                  obtain ⟨rfl, rfl⟩ := List.cons.inj h
                  exact .inr (.inl ⟨next, rfl, rfl⟩)
              | cons e' early => exact .inr (.inr (started_cases (List.cons.inj h).2))
      | _ => simp [shown, hphase] at h
  | _ => simp [shown] at h

theorem limits_stopAt (s : State) (step : Step) (now : Nat) :
    (limits s step now).stopAt = if isAfterScript step then .aborted else .canceling := by
  unfold limits
  split <;> rfl

/-- A script is handed over by the choice of its step. -/
theorem of_handed {s t : State} {cancel : RemoteState} {l : Label} {run : ScriptRun}
    (hmove : move parseDuration job s (cancel, l) = some t)
    (h : .handed run ∈ shown s (cancel, l) t) :
    (∃ rest, s.phase = .chosen run.step rest) ∧ (∃ rest, t.phase = .running run rest) ∧
      shouldRun run.step (failureAt cancel run.step s.failure) = true ∧
      run.limits.stopAt = if isAfterScript run.step then .aborted else .canceling := by
  cases l with
  | choose now =>
      cases hphase : s.phase with
      | chosen next rest =>
          have hstarted : .handed run ∈ started t := by
            simp only [shown, hphase, List.mem_append] at h
            rcases h with h | h
            · split at h
              · cases h
              · cases List.mem_singleton.mp h
            · exact h
          simp only [move, step, hphase] at hmove
          rw [← failureAt] at hmove
          -- a step that is skipped hands over nothing
          by_cases hchosen : shouldRun next (failureAt cancel next s.failure) ∧ stepLines next ≠ []
          · rw [if_pos hchosen] at hmove
            obtain rfl := Option.some.inj hmove
            obtain rfl := Event.handed.inj (List.mem_singleton.mp hstarted)
            exact ⟨⟨rest, rfl⟩, ⟨rest, rfl⟩, hchosen.1, limits_stopAt _ next now⟩
          · rw [if_neg hchosen] at hmove
            obtain rfl := Option.some.inj hmove
            cases rest with
            | nil => cases hstarted
            | cons step rest => cases hstarted
      | _ => simp [shown, hphase] at h
  | boundary =>
      cases hphase : s.phase with
      | boundary next rest => simp [shown, hphase] at h
      | _ => simp [shown, hphase] at h
  | _ => simp [shown] at h

/-- A cancellation that is seen is a failure, and then `when` decides. -/
theorem allowed_of_handed {s t : State} {seen cancel : RemoteState} {l : Label} {run : ScriptRun}
    (hmove : move parseDuration job s (cancel, l) = some t)
    (h : .handed run ∈ shown s (cancel, l) t) (hseen : .canceling ≤ seen)
    (hle : seen ≤ cancel) : AllowedUnder seen run := by
  obtain ⟨-, -, hshould, hstop⟩ := of_handed hmove h
  cases hafter : isAfterScript run.step with
  | true => exact .inl hafter
  | false =>
      right
      have hcancel : cancel ≠ .running := by
        rintro rfl
        exact absurd (Nat.le_trans hseen hle) (by decide)
      rw [failureAt, if_pos ⟨by rw [hafter]; rfl, hcancel⟩] at hshould
      rw [hafter, if_neg Bool.false_ne_true] at hstop
      refine ⟨?_, hstop ▸ hseen⟩
      unfold shouldRun at hshould
      by_cases halways : run.step.when = "always".toList
      · exact .inl halways
      · rw [if_neg halways] at hshould
        by_cases hfailure : run.step.when = "on_failure".toList
        · exact .inr hfailure
        · rw [if_neg hfailure] at hshould
          -- a failure is on record, so no step of a successful job runs
          cases hrecorded : s.failure <;> simp [record, hrecorded] at hshould

/-- An aborted job gets to no choice of a step. -/
theorem not_chosen_of_aborted {s t : State} {l : Label}
    (hmove : move parseDuration job s (.aborted, l) = some t) (next : Step) (rest : List Step) :
    t.phase ≠ .chosen next rest := by
  have hbefore : ∀ steps : List Step, before steps ≠ .chosen next rest := by
    intro steps
    cases steps <;> simp [before]
  cases l with
  | sources result =>
      obtain ⟨-, rfl⟩ := of_guard hmove
      show (if _ then _ else _) ≠ _
      split <;> simp
  | restore result =>
      obtain ⟨-, rfl⟩ := of_guard hmove
      simp
  | timeouts now =>
      obtain ⟨-, rfl⟩ := of_guard hmove
      exact hbefore job.steps
  | boundary =>
      simp only [move, step] at hmove
      split at hmove
      · rw [if_true] at hmove
        obtain rfl := Option.some.inj hmove
        simp
      · cases hmove
  | choose now =>
      obtain ⟨next', rest', -, -, hnext⟩ := of_choose hmove
      rcases hnext with ⟨-, limits, hrunning⟩ | ⟨-, hskipped⟩
      · simp [hrunning]
      · rw [hskipped]
        exact hbefore rest'
  | finished result =>
      simp only [move, step] at hmove
      split at hmove
      · obtain rfl := Option.some.inj hmove
        exact hbefore _
      · cases hmove

/-! ## Runs -/

/-- The move that shows an event, and what is shown from there on. -/
theorem exists_move_of_log {signal : RemoteState} {ls : List (List RemoteState × Label)} {s : State}
    {before after : List Event} {e : Event}
    (h : log (move parseDuration job) shown s (underSignal signal ls) = before ++ e :: after) :
    ∃ (cancel : RemoteState) (l : Label) (u t : State) (early late : List Event)
      (ls' : List (List RemoteState × Label)), signal ≤ cancel ∧
        move parseDuration job u (cancel, l) = some t ∧
        shown u (cancel, l) t = early ++ e :: late ∧
        after = late ++ log (move parseDuration job) shown t (underSignal cancel ls') := by
  obtain ⟨front, ⟨cancel, l⟩, back, u, t, early, late, hsplit, -, hmove, hshown, hafter⟩ :=
    exists_step_of_log h
  obtain ⟨hle, ls', rfl⟩ := underSignal_split hsplit
  exact ⟨cancel, l, u, t, early, late, ls', hle, hmove, hshown, hafter⟩

/-- Under a signal that was raised, nothing else is handed over. -/
theorem allowed_of_log {seen signal : RemoteState} (hseen : .canceling ≤ seen)
    (hle : seen ≤ signal) {ls : List (List RemoteState × Label)} {s : State} {run : ScriptRun}
    (h : .handed run ∈ log (move parseDuration job) shown s (underSignal signal ls)) :
    AllowedUnder seen run := by
  obtain ⟨before, after, hlog⟩ := List.append_of_mem h
  obtain ⟨cancel, l, u, t, early, late, -, hraised, hmove, hshown, -⟩ := exists_move_of_log hlog
  have hmem : .handed run ∈ shown u (cancel, l) t := by
    rw [hshown]
    exact List.mem_append_right early List.mem_cons_self
  exact allowed_of_handed hmove hmem hseen (Nat.le_trans hle hraised)

/-- Nothing is handed over once the job is aborted, unless a step is already chosen. -/
theorem not_handed_of_aborted {ls : List (List RemoteState × Label)} : ∀ {s : State},
    (∀ next rest, s.phase ≠ .chosen next rest) → ∀ run,
      .handed run ∉ log (move parseDuration job) shown s (underSignal .aborted ls) := by
  induction ls with
  | nil => exact fun _ run h => by cases h
  | cons p ls ih =>
      intro s hs run h
      obtain ⟨updates, l⟩ := p
      have hstays : ∀ updates : List RemoteState,
          updates.foldl RemoteState.update .aborted = .aborted := by
        intro updates
        induction updates with
        | nil => rfl
        | cons state updates ih => rw [List.foldl_cons, RemoteState.update_aborted, ih]
      rw [underSignal, hstays] at h
      cases hmove : move parseDuration job s (.aborted, l) with
      | none =>
          rw [log_cons_none hmove] at h
          cases h
      | some t =>
          rw [log_cons hmove] at h
          rcases List.mem_append.mp h with h | h
          · obtain ⟨⟨rest, hphase⟩, -⟩ := of_handed hmove h
            exact hs _ _ hphase
          · exact ih (not_chosen_of_aborted hmove) run h

/-- **What is handed over once a cancellation was seen before a step.** -/
theorem handed_after_cancel (parseDuration : Chars → Option Nat) (job : Job) (now : Nat)
    (ls : List (List RemoteState × Label)) :
    (∀ before e after cancel, events parseDuration job now ls = before ++ e :: after →
      e.saw = some cancel → .canceling ≤ cancel →
        ∀ run, .handed run ∈ after → AllowedUnder cancel run) ∧
    (∀ before next after,
      events parseDuration job now ls = before ++ .abortCheck next .aborted :: after →
        ∀ run, .handed run ∉ after) ∧
    ∀ before next after,
      events parseDuration job now ls = before ++ .cancelCheck next .aborted :: after →
        ∀ run, .handed run ∉ after.tail := by
  refine ⟨fun before e after cancel hlog hsaw hcancel run hrun => ?_,
    fun before next after hlog run hrun => ?_, fun before next after hlog run hrun => ?_⟩
  · obtain ⟨signal, l, u, t, early, late, ls', -, hmove, hshown, rfl⟩ := exists_move_of_log hlog
    have hsignal : signal = cancel := by
      rcases shown_cases hshown with ⟨next, rfl, -⟩ | ⟨next, rfl, -⟩ | ⟨run, rfl, -⟩
      · exact Option.some.inj hsaw
      · exact Option.some.inj hsaw
      · cases hsaw
    subst hsignal
    rcases List.mem_append.mp hrun with hrun | hrun
    · have hmem : .handed run ∈ shown u (signal, l) t := by
        rw [hshown]
        exact List.mem_append_right early (List.mem_cons_of_mem e hrun)
      exact allowed_of_handed hmove hmem hcancel (Nat.le_refl signal.rank)
    · exact allowed_of_log hcancel (Nat.le_refl signal.rank) hrun
  · obtain ⟨signal, l, u, t, early, late, ls', -, hmove, hshown, rfl⟩ := exists_move_of_log hlog
    rcases shown_cases hshown with ⟨next', heq, rfl⟩ | ⟨next', heq, -⟩ | ⟨run, heq, -⟩
    · obtain ⟨-, rfl⟩ := Event.abortCheck.inj heq
      exact not_handed_of_aborted (not_chosen_of_aborted hmove) run hrun
    · cases heq
    · cases heq
  · obtain ⟨signal, l, u, t, early, late, ls', -, hmove, hshown, rfl⟩ := exists_move_of_log hlog
    rcases shown_cases hshown with ⟨next', heq, -⟩ | ⟨next', heq, rfl⟩ | ⟨run, heq, -⟩
    · cases heq
    · obtain ⟨-, rfl⟩ := Event.cancelCheck.inj heq
      have hrest : .handed run ∉ log (move parseDuration job) shown t (underSignal .aborted ls') :=
        not_handed_of_aborted (not_chosen_of_aborted hmove) run
      -- the only script that is still handed over is that of the step looked at
      unfold started at hrun
      split at hrun
      · exact hrest hrun
      · exact hrest (List.mem_of_mem_tail hrun)
    · cases heq

def makeStep : Step :=
  { name := "script".toList, script := ["make".toList], when := "on_success".toList }

def reportStep : Step :=
  { name := "report".toList, script := ["report".toList], when := "always".toList }

def cleanStep : Step :=
  { name := "after_script".toList, script := ["clean".toList], when := "always".toList }

/-- A script, one that is to run in any case, and the `after_script`. -/
def reportedJob : Job where
  id := 1
  token := []
  steps := [makeStep, reportStep, cleanStep]

/-- The job is canceled during its script, and aborted between the two looks before the report. -/
def canceledThenAborted : List (List RemoteState × Label) :=
  [([], .sources .ok), ([], .restore .ok), ([], .timeouts 0), ([], .boundary), ([], .choose 0),
    ([.canceling], .finished .canceled), ([], .boundary), ([.aborted], .choose 0),
    ([], .finished .canceled), ([], .boundary)]

/-- **A report starts in a canceled job**, also when an abort was just seen. -/
theorem handed_report :
    events (fun _ => none) reportedJob 0 canceledThenAborted =
      [.abortCheck makeStep .running, .cancelCheck makeStep .running,
        .handed ⟨makeStep, scriptText reportedJob makeStep none, ⟨seconds 3600, .canceling⟩⟩,
        .abortCheck reportStep .canceling, .cancelCheck reportStep .aborted,
        .handed ⟨reportStep, scriptText reportedJob reportStep (some canceled),
          ⟨seconds 3600, .canceling⟩⟩,
        .abortCheck cleanStep .aborted] ∧
      isAfterScript reportStep = false :=
  ⟨by decide, by decide⟩

end JobSteps

end TurboCi
