import TurboCi.Lib.Runs
import TurboCi.RunnerDaemon.StepOutcome

set_option autoImplicit false

/-! # How long a job keeps its slot

`run_job_steps` with its clock (`runner_daemon/executor.rs`). The sources, the restore and the
steps are all given deadlines. However long the job's stage timeouts are, those of `after_script`
alone may lie past the job's own deadline, and by no more than the default grace
(`deadlines_and_time`).

Only what is waited for takes time: the scripts and the restore. A script of the runner ends by
its deadline, or at once when that has passed (`Punctual`), and `timeout` drops a restore that was
stopped and does not end within its grace.
-/

namespace TurboCi

open Runs

namespace JobSteps

/-- `RESTORE_STOP_GRACE`. -/
def restoreStopGrace : Nat := seconds 10

/-! ## The machine with its clock -/

structure Timed where
  state : State
  clock : Nat
  deriving DecidableEq

/-- A move, the cancellation state at its time and the time itself. -/
structure TimedLabel where
  cancel : RemoteState := .running
  label : Label
  time : Nat
  /-- when the scripts of the sources end (the hooks, the attempts of the checkout), or when the
  restore is stopped -/
  ends : List Nat := []

/-- What `Instant::now` says, in the moves that call it. -/
def Label.reading : Label → Option Nat
  | .timeouts now => some now
  | .choose now => some now
  | _ => none

inductive TimedEvent where
  /-- a script of the sources, with its deadline -/
  | sources (deadline : Nat)
  /-- the restore, which `select!` stops at the deadline -/
  | restore (deadline : Nat)
  /-- the script of a step, handed to the runner at a time with its deadline -/
  | script (step : Step) (now deadline : Nat)
  /-- an addition to a time with `+`, which panics when it overflows -/
  | added (now timeout : Nat)

section Timed

variable (parseDuration : Chars → Option Nat) (job : Job)

/-- `select!` stops the restore at the deadline, or before it when the job is canceled. Only the
sources and the restore have moments of their own. -/
def selected (s : Timed) (l : TimedLabel) : Bool :=
  match l.label, l.ends with
  | .restore .timedOut, [stop] => stop = max s.clock s.state.deadline
  | .restore .timedOut, _ => false
  | .restore .canceled, [stop] => stop ≤ max s.clock s.state.deadline
  | .restore .canceled, _ => false
  | .restore _, _ => l.time ≤ max s.clock s.state.deadline
  | .sources _, _ => true
  | _, ends => ends = []

/-- A move of the machine; the clock does not run backwards. -/
def timedStep (s : Timed) (l : TimedLabel) : Option Timed :=
  if (s.clock :: (l.ends ++ [l.time])).IsChain (· ≤ ·) ∧ l.label.reading.getD l.time = l.time ∧
      selected s l then
    (move parseDuration job s.state (l.cancel, l.label)).map fun state => ⟨state, l.time⟩
  else none

def timedStart (started : Nat) : Timed := ⟨start job started, started⟩

/-- The deadlines a move gives, and its unchecked additions. -/
def given (s : Timed) (l : TimedLabel) (t : Timed) : List TimedEvent :=
  match l.label, t.state.phase with
  | .sources _, _ => l.ends.map fun _ => .sources s.state.deadline
  | .restore _, _ => [.restore s.state.deadline]
  | .choose now, .running run _ =>
      (if isAfterScript run.step then [.added now defaultAfterScriptTimeout] else []) ++
        [.script run.step now run.limits.deadline]
  | _, _ => []

/-- The deadlines of a job that starts at the time, and its unchecked additions. -/
def timedEvents (started : Nat) (ls : List TimedLabel) : List TimedEvent :=
  .added started (seconds (jobTimeout job)) ::
    log (timedStep parseDuration job) given (timedStart job started) ls

end Timed

/-! ## What is expected of the scripts -/

/-- Scripts that run one after another end by the deadline, or at once. -/
def EndInTime (deadline : Nat) : Nat → List Nat → Prop
  | _, [] => True
  | start, e :: ends => e ≤ max start deadline ∧ EndInTime deadline e ends

instance decidableEndInTime (deadline : Nat) : ∀ (start : Nat) (ends : List Nat),
    Decidable (EndInTime deadline start ends)
  | _, [] => inferInstanceAs (Decidable True)
  | start, e :: ends =>
      have := decidableEndInTime deadline e ends
      inferInstanceAs (Decidable (e ≤ max start deadline ∧ EndInTime deadline e ends))

/-- When what the job waits for in a move has ended. -/
def due (s : Timed) (l : TimedLabel) : Nat :=
  match l.label, s.state.phase with
  | .sources _, _ => l.ends.getLastD s.clock
  | .restore _, _ => l.ends.getLastD l.time + restoreStopGrace
  | .finished _, .running run _ => max s.clock run.limits.deadline
  | _, _ => s.clock

/-- A script ends by its deadline, or at once when it has passed; a restore that was stopped
ends within its grace. Nothing else takes time. -/
def Punctual (s : Timed) (l : TimedLabel) : Prop :=
  EndInTime s.state.deadline s.clock l.ends ∧ l.time ≤ due s l

instance (s : Timed) (l : TimedLabel) : Decidable (Punctual s l) :=
  inferInstanceAs (Decidable (_ ∧ _))

theorem EndInTime.getLastD_le {deadline : Nat} {ends : List Nat} : ∀ {start : Nat},
    EndInTime deadline start ends → ends.getLastD start ≤ max start deadline := by
  induction ends with
  | nil => exact fun _ => le_max_left _ _
  | cons e ends ih =>
      intro start h
      rw [List.getLastD_cons]
      calc ends.getLastD e ≤ max e deadline := ih h.2
        _ ≤ max start deadline := max_le h.1 (le_max_right _ _)

/-! ## Moves -/

section Moves

variable {parseDuration : Chars → Option Nat} {job : Job}

/-- What a move does to the phase and the deadlines. -/
inductive Moved (job : Job) (s t : State) : Label → Prop where
  | fetched {result : StageResult} : s.phase = .sources →
      t.phase = .restore ∨ t.phase = .timeouts → t.scriptDeadline = s.scriptDeadline →
      Moved job s t (.sources result)
  | restored {result : StageResult} : s.phase = .restore → t.phase = .timeouts →
      t.scriptDeadline = s.scriptDeadline → Moved job s t (.restore result)
  | limited {now : Nat} : s.phase = .timeouts → t.phase = before job.steps →
      t.scriptDeadline ≤ s.deadline → Moved job s t (.timeouts now)
  | aborted {next : Step} {rest : List Step} : s.phase = .boundary next rest → t.phase = .done →
      t.scriptDeadline = s.scriptDeadline → Moved job s t .boundary
  | kept {next : Step} {rest : List Step} : s.phase = .boundary next rest →
      t.phase = .chosen next rest → t.scriptDeadline = s.scriptDeadline → Moved job s t .boundary
  | skipped {now : Nat} {next : Step} {rest : List Step} : s.phase = .chosen next rest →
      t.phase = before rest → t.scriptDeadline = s.scriptDeadline → Moved job s t (.choose now)
  | handed {now : Nat} {next : Step} {rest : List Step} {run : ScriptRun} :
      s.phase = .chosen next rest → t.phase = .running run rest → run.step = next →
      run.limits = limits s next now → t.scriptDeadline = s.scriptDeadline →
      Moved job s t (.choose now)
  | finished {result : RunStatus} {run : ScriptRun} {rest : List Step} :
      s.phase = .running run rest → t.phase = before rest →
      t.scriptDeadline = s.scriptDeadline → Moved job s t (.finished result)

theorem moved {cancel : RemoteState} {l : Label} {s t : State}
    (h : step parseDuration job cancel s l = some t) :
    t.deadline = s.deadline ∧ Moved job s t l := by
  cases l with
  | sources result =>
      obtain ⟨hphase, rfl⟩ := of_guard h
      refine ⟨rfl, .fetched hphase ?_ rfl⟩
      by_cases hok : stageFailure job result = none
      · exact .inl (if_pos hok)
      · exact .inr (if_neg hok)
  | restore result =>
      obtain ⟨hphase, rfl⟩ := of_guard h
      exact ⟨rfl, .restored hphase rfl rfl⟩
  | timeouts now =>
      obtain ⟨hphase, rfl⟩ := of_guard h
      refine ⟨rfl, .limited hphase rfl ?_⟩
      -- the script timeout only makes the deadline earlier
      dsimp only
      split
      · exact min_le_left _ _
      · exact le_refl _
  | boundary =>
      simp only [step] at h
      split at h
      case h_2 => cases h
      next next rest hphase =>
      by_cases habort : cancel = .aborted
      · rw [if_pos habort] at h
        obtain rfl := Option.some.inj h
        exact ⟨rfl, .aborted hphase rfl rfl⟩
      · rw [if_neg habort] at h
        obtain rfl := Option.some.inj h
        exact ⟨rfl, .kept hphase rfl rfl⟩
  | choose now =>
      simp only [step] at h
      split at h
      case h_2 => cases h
      next next rest hphase =>
      rw [← failureAt] at h
      by_cases hchosen : shouldRun next (failureAt cancel next s.failure) ∧ stepLines next ≠ []
      · rw [if_pos hchosen] at h
        obtain rfl := Option.some.inj h
        exact ⟨rfl, .handed hphase rfl rfl rfl rfl⟩
      · rw [if_neg hchosen] at h
        obtain rfl := Option.some.inj h
        exact ⟨rfl, .skipped hphase rfl rfl⟩
  | finished result =>
      simp only [step] at h
      split at h
      case h_2 => cases h
      next run rest hphase =>
      obtain rfl := Option.some.inj h
      exact ⟨rfl, .finished hphase rfl rfl⟩

/-- All that a move with the clock does. -/
structure TimedMove (parseDuration : Chars → Option Nat) (job : Job) (s t : Timed)
    (l : TimedLabel) : Prop where
  clock : s.clock ≤ t.clock
  time : t.clock = l.time
  reading : l.label.reading.getD t.clock = t.clock
  selected : selected s l
  move : move parseDuration job s.state (l.cancel, l.label) = some t.state

theorem timedMove {s t : Timed} {l : TimedLabel} (h : timedStep parseDuration job s l = some t) :
    TimedMove parseDuration job s t l := by
  rw [timedStep, Option.ite_none_right_eq_some] at h
  obtain ⟨⟨hchain, hreading, hselected⟩, hmove⟩ := h
  obtain ⟨state, hstate, rfl⟩ := Option.map_eq_some_iff.mp hmove
  have hclock : s.clock ≤ l.time :=
    List.rel_of_pairwise_cons (List.isChain_iff_pairwise.mp hchain) (by simp)
  exact ⟨hclock, rfl, hreading, hselected, hstate⟩

theorem TimedMove.deadline {s t : Timed} {l : TimedLabel}
    (h : TimedMove parseDuration job s t l) : t.state.deadline = s.state.deadline :=
  (moved h.move).1

theorem TimedMove.moved {s t : Timed} {l : TimedLabel}
    (h : TimedMove parseDuration job s t l) : Moved job s.state t.state l.label :=
  (JobSteps.moved h.move).2

/-! ## The deadlines -/

/-- The deadlines of a job that is to end by the limit. -/
structure Limited (limit : Nat) (s : Timed) : Prop where
  deadline : s.state.deadline = limit
  script : s.state.scriptDeadline ≤ limit

theorem Moved.scriptDeadline_le {limit : Nat} {l : Label} {s t : State} (h : Moved job s t l)
    (hdeadline : s.deadline ≤ limit) (hscript : s.scriptDeadline ≤ limit) :
    t.scriptDeadline ≤ limit := by
  cases h with
  | limited _ _ hle => exact hle.trans hdeadline
  | fetched _ _ heq => omega
  | restored _ _ heq => omega
  | aborted _ _ heq => omega
  | kept _ _ heq => omega
  | skipped _ _ heq => omega
  | handed _ _ _ _ heq => omega
  | finished _ _ heq => omega

theorem Limited.step {limit : Nat} {s t : Timed} {l : TimedLabel} (hs : Limited limit s)
    (h : TimedMove parseDuration job s t l) : Limited limit t :=
  ⟨h.deadline.trans hs.deadline, h.moved.scriptDeadline_le hs.deadline.le hs.script⟩

theorem limited_start (started : Nat) :
    Limited (started + seconds (jobTimeout job)) (timedStart job started) :=
  ⟨rfl, le_refl _⟩

theorem afterScriptDeadline_le (s : State) (step : Step) (now : Nat) :
    afterScriptDeadline s step now ≤ max s.deadline (now + defaultAfterScriptTimeout) := by
  rw [afterScriptDeadline]
  split
  · exact min_le_right _ _
  · exact le_refl _

/-- The latest deadline of a step that is handed to the runner. -/
def latest (limit : Nat) (step : Step) (now : Nat) : Nat :=
  if isAfterScript step then max limit (now + defaultAfterScriptTimeout) else limit

theorem Limited.limits_le {limit : Nat} {s : Timed} (hs : Limited limit s) (step : Step)
    (now : Nat) : (limits s.state step now).deadline ≤ latest limit step now := by
  rw [limits, latest]
  by_cases hafter : isAfterScript step
  · rw [if_pos hafter, if_pos hafter]
    have hle := afterScriptDeadline_le s.state step now
    rw [hs.deadline] at hle
    exact hle
  · rw [if_neg hafter, if_neg hafter]
    exact hs.script

/-- The deadline is none past the limit, but for the default grace of `after_script`. -/
def TimedEvent.DeadlineLe (limit : Nat) : TimedEvent → Prop
  | .sources deadline => deadline ≤ limit
  | .restore deadline => deadline ≤ limit
  | .script step now deadline => deadline ≤ latest limit step now
  | .added _ _ => True

/-- The addition stays within the range of an `Instant`. -/
def TimedEvent.Fits : TimedEvent → Prop
  | .added now timeout => now + timeout < maxInstant
  | _ => True

theorem defaultAfterScriptTimeout_lt : defaultAfterScriptTimeout < seconds (2 ^ 32) := by decide

theorem given_inOrder {limit : Nat} {s t : Timed} {l : TimedLabel} (hs : Limited limit s)
    (h : TimedMove parseDuration job s t l) : ∀ e ∈ given s l t,
      e.DeadlineLe limit ∧ (t.clock + seconds (2 ^ 32) ≤ maxInstant → e.Fits) := by
  have hmoved := h.moved
  have hreading := h.reading
  rw [given]
  generalize l.label = label at hmoved hreading
  cases hmoved with
  | fetched =>
      intro e he
      obtain ⟨_, -, rfl⟩ := List.mem_map.mp he
      exact ⟨hs.deadline.le, fun _ => trivial⟩
  | restored =>
      intro e he
      rw [List.mem_singleton.mp he]
      exact ⟨hs.deadline.le, fun _ => trivial⟩
  | @handed now next rest run _ hrunning hstep hlimits _ =>
      rw [hrunning]
      intro e he
      rcases List.mem_append.mp he with he | he
      · -- only `after_script` adds its grace to the time without a check
        split at he
        · rw [List.mem_singleton.mp he]
          refine ⟨trivial, fun hclock => ?_⟩
          have hnow : now = t.clock := hreading
          have hgrace := defaultAfterScriptTimeout_lt
          show now + defaultAfterScriptTimeout < maxInstant
          omega
        · cases he
      · rw [List.mem_singleton.mp he]
        refine ⟨?_, fun _ => trivial⟩
        show run.limits.deadline ≤ latest limit run.step now
        rw [hlimits, hstep]
        exact hs.limits_le next now
  | limited => simp
  | aborted => simp
  | kept => simp
  | @skipped now next rest _ hphase _ =>
      rw [hphase]
      cases rest with
      | nil => simp [before]
      | cons step rest => simp [before]
  | finished => simp

/-- What a run shows is in order. -/
theorem log_inOrder {limit : Nat} {ls : List TimedLabel} : ∀ {s t : Timed}, Limited limit s →
    run (timedStep parseDuration job) s ls = some t →
    s.clock ≤ t.clock ∧ ∀ e ∈ log (timedStep parseDuration job) given s ls,
      e.DeadlineLe limit ∧ (t.clock + seconds (2 ^ 32) ≤ maxInstant → e.Fits) := by
  induction ls with
  | nil =>
      intro s t _ hrun
      obtain rfl := Option.some.inj hrun
      exact ⟨le_refl _, nofun⟩
  | cons l ls ih =>
      intro s t hs hrun
      obtain ⟨u, hu, hrun⟩ := run_cons_eq_some.mp hrun
      have hmove := timedMove hu
      obtain ⟨hclock, hrest⟩ := ih (hs.step hmove) hrun
      refine ⟨hmove.clock.trans hclock, fun e he => ?_⟩
      rw [log_cons hu] at he
      rcases List.mem_append.mp he with he | he
      · obtain ⟨hdeadline, hfits⟩ := given_inOrder hs hmove e he
        exact ⟨hdeadline, fun h => hfits (by omega)⟩
      · exact hrest e he

/-! ## The time of a run -/

/-- The graces of the `after_script`s among the steps. -/
def graces (steps : List Step) : Nat := steps.countP isAfterScript * defaultAfterScriptTimeout

theorem graces_cons (step : Step) (rest : List Step) : graces (step :: rest) =
    graces rest + if isAfterScript step then defaultAfterScriptTimeout else 0 := by
  rw [graces, graces, List.countP_cons, Nat.add_mul]
  split
  · rw [Nat.one_mul]
  · rw [Nat.zero_mul]

/-- The time by which a job that is to end by the limit has ended. -/
def lastMoment (job : Job) (limit : Nat) : Nat :=
  limit + restoreStopGrace + graces job.steps

/-- Enough time is left for the graces of the steps to come. -/
def InTime (job : Job) (limit : Nat) (s : Timed) : Prop :=
  match s.state.phase with
  | .sources => s.clock ≤ limit
  | .restore => s.clock ≤ limit
  | .timeouts => s.clock ≤ limit + restoreStopGrace
  | .boundary next rest => max s.clock limit + graces (next :: rest) ≤ lastMoment job limit
  | .chosen next rest => max s.clock limit + graces (next :: rest) ≤ lastMoment job limit
  | .running run rest =>
      max (max s.clock limit) run.limits.deadline + graces rest ≤ lastMoment job limit
  | .done => s.clock ≤ lastMoment job limit

/-- Before the steps that are left. -/
theorem inTime_before {limit : Nat} {t : Timed} {rest : List Step}
    (hphase : t.state.phase = before rest)
    (h : max t.clock limit + graces rest ≤ lastMoment job limit) :
    InTime job limit t := by
  rw [InTime, hphase]
  cases rest with
  | nil => exact (le_max_left _ _).trans ((Nat.le_add_right _ _).trans h)
  | cons step rest => exact h

/-- A restore has ended when its deadline, and the grace after it, have passed. -/
theorem restore_inTime {s : Timed} {l : TimedLabel} {result : StageResult}
    (hlabel : l.label = .restore result) (hselected : selected s l) (hpunctual : Punctual s l) :
    l.time ≤ max s.clock s.state.deadline + restoreStopGrace := by
  have htime : l.time ≤ l.ends.getLastD l.time + restoreStopGrace := by
    have hdue := hpunctual.2
    rw [due, hlabel] at hdue
    exact hdue
  simp only [selected, hlabel] at hselected
  have hstopped : ∀ stop, l.ends = [stop] → stop ≤ max s.clock s.state.deadline →
      l.time ≤ max s.clock s.state.deadline + restoreStopGrace := by
    intro stop hends hstop
    rw [hends] at htime
    exact htime.trans (Nat.add_le_add_right hstop _)
  split at hselected
  · next stop hresult hends => exact hstopped stop hends (of_decide_eq_true hselected).le
  · cases hselected
  · next stop hresult hends => exact hstopped stop hends (of_decide_eq_true hselected)
  · cases hselected
  · exact (of_decide_eq_true hselected).trans (Nat.le_add_right _ _)
  · next hsources => cases hsources
  · next hother _ _ _ => exact absurd rfl (hother result)

/-- **A punctual move leaves enough time.** -/
theorem inTime_step {limit : Nat} {s t : Timed} {l : TimedLabel} (hs : Limited limit s)
    (hi : InTime job limit s) (hpunctual : Punctual s l) (h : TimedMove parseDuration job s t l) :
    InTime job limit t := by
  have htime := h.time
  have hdeadline := hs.deadline
  have hmoved := h.moved
  cases hlabel : l.label with
  | sources result =>
      have hends := hpunctual.1.getLastD_le
      have hdue := hpunctual.2
      rw [due, hlabel] at hdue
      replace hdue : l.time ≤ l.ends.getLastD s.clock := hdue
      rw [hlabel] at hmoved
      cases hmoved with
      | fetched hphase hnext =>
          rw [InTime, hphase] at hi
          have hclock : t.clock ≤ limit := by omega
          rcases hnext with hnext | hnext
          · rw [InTime, hnext]
            exact hclock
          · rw [InTime, hnext]
            exact Nat.le_add_right_of_le hclock
  | restore result =>
      have hrestore := restore_inTime hlabel h.selected hpunctual
      rw [hlabel] at hmoved
      cases hmoved with
      | restored hphase hnext =>
          rw [InTime, hphase] at hi
          rw [InTime, hnext]
          show t.clock ≤ limit + restoreStopGrace
          omega
  | timeouts now =>
      rw [hlabel] at hmoved
      have hdue : l.time ≤ s.clock := by
        have hdue := hpunctual.2
        rw [due, hlabel] at hdue
        exact hdue
      cases hmoved with
      | limited hphase hnext =>
          rw [InTime, hphase] at hi
          refine inTime_before hnext ?_
          have hclock : max t.clock limit ≤ limit + restoreStopGrace := by
            replace hi : s.clock ≤ limit + restoreStopGrace := hi
            omega
          exact Nat.add_le_add_right hclock _
  | boundary =>
      rw [hlabel] at hmoved
      have hdue : l.time ≤ s.clock := by
        have hdue := hpunctual.2
        rw [due, hlabel] at hdue
        exact hdue
      cases hmoved with
      | aborted hphase hnext =>
          rw [InTime, hphase] at hi
          replace hi : max s.clock limit + graces (_ :: _) ≤ lastMoment job limit := hi
          rw [InTime, hnext]
          show t.clock ≤ lastMoment job limit
          omega
      | @kept next rest hphase hnext =>
          rw [InTime, hphase] at hi
          replace hi : max s.clock limit + graces (next :: rest) ≤ lastMoment job limit := hi
          rw [InTime, hnext]
          show max t.clock limit + graces (next :: rest) ≤ lastMoment job limit
          omega
  | choose now =>
      have hreading := h.reading
      rw [hlabel] at hmoved hreading
      have hdue : l.time ≤ s.clock := by
        have hdue := hpunctual.2
        rw [due, hlabel] at hdue
        exact hdue
      cases hmoved with
      | @skipped _ next rest hphase hnext =>
          rw [InTime, hphase] at hi
          replace hi : max s.clock limit + graces (next :: rest) ≤ lastMoment job limit := hi
          rw [graces_cons] at hi
          exact inTime_before hnext (by omega)
      | @handed _ next rest run hphase hnext hstep hlimits =>
          rw [InTime, hphase] at hi
          replace hi : max s.clock limit + graces (next :: rest) ≤ lastMoment job limit := hi
          rw [InTime, hnext]
          show max (max t.clock limit) run.limits.deadline + graces rest ≤ lastMoment job limit
          have hnow : now = t.clock := hreading
          have hgiven := hs.limits_le next now
          rw [← hlimits, latest] at hgiven
          rw [graces_cons] at hi
          split at hgiven
          · next hafter =>
              rw [if_pos hafter] at hi
              omega
          · omega
  | finished result =>
      rw [hlabel] at hmoved
      cases hmoved with
      | @finished _ run rest hphase hnext =>
          rw [InTime, hphase] at hi
          replace hi : max (max s.clock limit) run.limits.deadline + graces rest ≤
            lastMoment job limit := hi
          have hdue := hpunctual.2
          rw [due, hlabel, hphase] at hdue
          replace hdue : l.time ≤ max s.clock run.limits.deadline := hdue
          exact inTime_before hnext (by omega)

theorem inTime_of_run {limit : Nat} {ls : List TimedLabel} {s t : Timed} (hs : Limited limit s)
    (hi : InTime job limit s) (hpunctual : Always (timedStep parseDuration job) Punctual s ls)
    (hrun : run (timedStep parseDuration job) s ls = some t) : InTime job limit t := by
  refine (invariant_of_always (I := fun s => Limited limit s ∧ InTime job limit s) ?_ ⟨hs, hi⟩
    hpunctual hrun).2
  intro s l t hinv hpunctual hstep
  have hmove := timedMove hstep
  exact ⟨hinv.1.step hmove, inTime_step hinv.1 hinv.2 hpunctual hmove⟩

theorem InTime.clock_le {limit : Nat} {s : Timed} (h : InTime job limit s) :
    s.clock ≤ lastMoment job limit := by
  have hlast : limit + restoreStopGrace ≤ lastMoment job limit := Nat.le_add_right _ _
  rw [InTime] at h
  split at h
  · omega
  · omega
  · omega
  · omega
  · omega
  · omega
  · exact h

/-! ## The end of a run -/

theorem length_le_of_run {ls : List TimedLabel} : ∀ {s t : Timed},
    run (timedStep parseDuration job) s ls = some t →
    ls.length + weight job t.state.phase ≤ weight job s.state.phase := by
  induction ls with
  | nil =>
      intro s t hrun
      obtain rfl := Option.some.inj hrun
      simp
  | cons l ls ih =>
      intro s t hrun
      obtain ⟨u, hu, hrun⟩ := run_cons_eq_some.mp hrun
      have hlt : weight job u.state.phase < weight job s.state.phase :=
        weight_move (timedMove hu).move
      have hrest := ih hrun
      rw [List.length_cons]
      omega

/-- A move at once that shows nothing of the clock but what it says. -/
def atOnce (s : Timed) (label : Label) : TimedLabel := { label := label, time := s.clock }

theorem exists_atOnce {s : Timed} (label : Label)
    (hreading : label.reading.getD s.clock = s.clock) (hselected : selected s (atOnce s label))
    (h : ∃ t, move parseDuration job s.state (.running, label) = some t) :
    ∃ t, timedStep parseDuration job s (atOnce s label) = some t := by
  obtain ⟨t, ht⟩ := h
  have hchain : (s.clock :: ([] ++ [s.clock])).IsChain (· ≤ ·) := by simp
  refine ⟨⟨t, s.clock⟩, ?_⟩
  rw [timedStep, if_pos ⟨hchain, hreading, hselected⟩]
  simp only [atOnce, ht, Option.map_some]

/-- **A run goes on until the job is done.** -/
theorem exists_timedStep {s : Timed} (h : s.state.phase ≠ .done) :
    ∃ l t, Punctual s l ∧ timedStep parseDuration job s l = some t := by
  cases hphase : s.state.phase with
  | sources =>
      obtain ⟨t, ht⟩ := exists_atOnce (.sources .ok) rfl rfl ⟨_, if_pos hphase⟩
      exact ⟨atOnce s (.sources .ok), t, ⟨trivial, le_refl _⟩, ht⟩
  | restore =>
      obtain ⟨t, ht⟩ := exists_atOnce (.restore .ok) rfl
        (decide_eq_true (le_max_left _ _)) ⟨_, if_pos hphase⟩
      exact ⟨atOnce s (.restore .ok), t, ⟨trivial, Nat.le_add_right _ _⟩, ht⟩
  | timeouts =>
      obtain ⟨t, ht⟩ := exists_atOnce (.timeouts s.clock) rfl rfl ⟨_, if_pos hphase⟩
      exact ⟨atOnce s (.timeouts s.clock), t, ⟨trivial, le_refl _⟩, ht⟩
  | boundary next rest =>
      have hmove : move parseDuration job s.state (.running, .boundary) =
          some { s.state with phase := .chosen next rest } := by
        simp only [move, step, hphase]
        exact if_neg (by decide)
      obtain ⟨t, ht⟩ := exists_atOnce .boundary rfl rfl ⟨_, hmove⟩
      exact ⟨atOnce s .boundary, t, ⟨trivial, le_refl _⟩, ht⟩
  | chosen next rest =>
      obtain ⟨t, ht⟩ := exists_atOnce (.choose s.clock) rfl rfl (exists_choose hphase)
      exact ⟨atOnce s (.choose s.clock), t, ⟨trivial, le_refl _⟩, ht⟩
  | running run rest =>
      have hmove : ∃ t, move parseDuration job s.state (.running, .finished .timedOut) =
          some t := by
        simp only [move, step, hphase]
        exact ⟨_, rfl⟩
      obtain ⟨t, ht⟩ := exists_atOnce (.finished .timedOut) rfl rfl hmove
      refine ⟨atOnce s (.finished .timedOut), t, ⟨trivial, ?_⟩, ht⟩
      simp only [due, atOnce, hphase]
      exact le_max_left _ _
  | done => exact absurd hphase h

/-- A punctual run can be continued until the job is done. -/
theorem exists_punctual_run (s : Timed) : ∃ more t,
    Always (timedStep parseDuration job) Punctual s more ∧
      run (timedStep parseDuration job) s more = some t ∧ t.state.phase = .done := by
  induction hn : weight job s.state.phase using Nat.strong_induction_on generalizing s with
  | _ n ih =>
      by_cases hdone : s.state.phase = .done
      · exact ⟨[], s, trivial, rfl, hdone⟩
      · obtain ⟨l, u, hpunctual, hu⟩ : ∃ l u, Punctual s l ∧
            timedStep parseDuration job s l = some u := exists_timedStep hdone
        have hlt : weight job u.state.phase < weight job s.state.phase :=
          weight_move (timedMove hu).move
        obtain ⟨more, t, hmore, ht, hend⟩ := ih _ (hn ▸ hlt) u rfl
        refine ⟨l :: more, t, ⟨hpunctual, ?_⟩, run_cons_eq_some.mpr ⟨u, hu, ht⟩, hend⟩
        rw [hu]
        exact hmore

/-- The timeouts of the payload are `u32`. -/
def FitTimeouts (job : Job) : Prop :=
  job.timeout < 2 ^ 32 ∧ ∀ info ∈ job.runnerInfo, ∀ secs ∈ info.timeout, secs < 2 ^ 32

theorem jobTimeout_lt (h : FitTimeouts job) : jobTimeout job < 2 ^ 32 := by
  rw [jobTimeout]
  cases hsecs : job.timeoutSecs with
  | none => decide
  | some secs =>
      have hgiven := (Option.filter_eq_some_iff.mp hsecs).1
      rcases Option.or_eq_some_iff.mp hgiven with hinfo | ⟨-, htimeout⟩
      · obtain ⟨info, hmem, hinfo⟩ := Option.bind_eq_some_iff.mp hinfo
        exact h.2 info hmem secs hinfo
      · rw [← Option.some.inj htimeout]
        exact h.1

end Moves

/-- **The time of a job on its slot is bounded.** Whatever its stage timeouts are, no deadline
is past the job's own, but for the default grace of `after_script`, and no addition overflows
while the clock is far from the end of an `Instant`'s range. When the scripts and a stopped
restore are punctual, the job ends, and by that deadline with the grace of the restore and the
default grace of each `after_script`. -/
theorem deadlines_and_time (parseDuration : Chars → Option Nat) (job : Job)
    (hfit : FitTimeouts job) (started : Nat) (ls : List TimedLabel) (t : Timed)
    (h : run (timedStep parseDuration job) (timedStart job started) ls = some t) :
    (∀ e ∈ timedEvents parseDuration job started ls,
      e.DeadlineLe (started + seconds (jobTimeout job))) ∧
    (t.clock + seconds (2 ^ 32) ≤ maxInstant →
      ∀ e ∈ timedEvents parseDuration job started ls, e.Fits) ∧
    (Always (timedStep parseDuration job) Punctual (timedStart job started) ls →
      t.clock ≤ started + seconds (jobTimeout job) + restoreStopGrace +
          job.steps.countP isAfterScript * defaultAfterScriptTimeout ∧
      ls.length ≤ 3 * job.steps.length + 3 ∧
      ∃ more t', Always (timedStep parseDuration job) Punctual t more ∧
        run (timedStep parseDuration job) t more = some t' ∧ t'.state.phase = .done) := by
  obtain ⟨hclock, hlog⟩ := log_inOrder (limited_start started) h
  refine ⟨?_, ?_, ?_⟩
  · intro e he
    rcases List.mem_cons.mp he with rfl | he
    · trivial
    · exact (hlog e he).1
  · intro hfar e he
    rcases List.mem_cons.mp he with rfl | he
    · -- the deadline of the job
      have htimeout : seconds (jobTimeout job) < seconds (2 ^ 32) :=
        Nat.mul_lt_mul_of_pos_right (jobTimeout_lt hfit) (by decide)
      replace hclock : started ≤ t.clock := hclock
      show started + seconds (jobTimeout job) < maxInstant
      omega
    · exact (hlog e he).2 hfar
  · intro hpunctual
    have hstart : InTime job (started + seconds (jobTimeout job)) (timedStart job started) :=
      Nat.le_add_right _ _
    have htime := inTime_of_run (limited_start started) hstart hpunctual h
    have hlength := length_le_of_run h
    exact ⟨htime.clock_le, (Nat.le_add_right _ _).trans hlength, exists_punctual_run t⟩

/-- A job that asks for huge stage timeouts, and whose scripts run until they are stopped. -/
def hugeTimeoutsJob : Job where
  id := 16
  token := "t".toList
  timeout := 3600
  vars := [
    { key := "RUNNER_SCRIPT_TIMEOUT".toList, value := some "10000000000000000000s".toList },
    { key := "RUNNER_AFTER_SCRIPT_TIMEOUT".toList, value := some "10000000000000000000s".toList }]
  steps := [
    { name := "script".toList, script := ["sleep 9999".toList], when := "on_success".toList },
    { name := "after_script".toList, script := ["sleep 9999".toList], when := "always".toList }]

def parseHuge (text : Chars) : Option Nat :=
  if text = "10000000000000000000s".toList then some (seconds (10 ^ 19)) else none

def hugeTimeoutsRun : List TimedLabel := [
  { label := .sources .ok, time := seconds 5, ends := [seconds 5] },
  { label := .restore .ok, time := seconds 6 },
  { label := .timeouts (seconds 6), time := seconds 6 },
  { label := .boundary, time := seconds 6 },
  { label := .choose (seconds 6), time := seconds 6 },
  { label := .finished .timedOut, time := seconds 3601 },
  { label := .boundary, time := seconds 3601 },
  { label := .choose (seconds 3601), time := seconds 3601 },
  { label := .finished .timedOut, time := seconds 3901 }]

theorem deadlines_and_time_huge :
    ∃ t, run (timedStep parseHuge hugeTimeoutsJob) (timedStart hugeTimeoutsJob (seconds 1))
        hugeTimeoutsRun = some t ∧ t.state.phase = .done ∧
      (∀ e ∈ timedEvents parseHuge hugeTimeoutsJob (seconds 1) hugeTimeoutsRun,
        e.DeadlineLe (seconds 3601) ∧ e.Fits) ∧
      t.clock ≤ seconds 3601 + seconds 10 + 1 * seconds 300 := by
  have hfit : FitTimeouts hugeTimeoutsJob := ⟨by decide, nofun⟩
  have hrun : run (timedStep parseHuge hugeTimeoutsJob) (timedStart hugeTimeoutsJob (seconds 1))
      hugeTimeoutsRun = some
        ⟨{ deadline := seconds 3601
           scriptDeadline := seconds 3601
           afterScriptTimeout := some (seconds (10 ^ 19))
           failure := some (timedOut hugeTimeoutsJob)
           phase := .done }, seconds 3901⟩ := by
    decide
  have hpunctual : Always (timedStep parseHuge hugeTimeoutsJob) Punctual
      (timedStart hugeTimeoutsJob (seconds 1)) hugeTimeoutsRun := by
    decide
  obtain ⟨hdeadlines, hfits, htime⟩ :=
    deadlines_and_time parseHuge hugeTimeoutsJob hfit (seconds 1) hugeTimeoutsRun _ hrun
  refine ⟨_, hrun, rfl, fun e he => ⟨hdeadlines e he, hfits (by decide) e he⟩, ?_⟩
  exact (htime hpunctual).1

end JobSteps

end TurboCi
