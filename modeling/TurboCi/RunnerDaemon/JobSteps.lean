import TurboCi.RunnerDaemon.Script

set_option autoImplicit false

/-! # The steps of a job

`run_job_steps` gets the sources, restores the cache and runs the steps GitLab sent
(`runner_daemon/executor.rs`). It is a machine that waits for the results of what it starts:
the labels are these results, the clock readings and the moments at which it looks at the
job's cancellation, which others change meanwhile. Times are in nanoseconds.

What it writes to the job log is left out, and parsing a Go duration is a parameter.
-/

namespace TurboCi

/-- Why a job did not succeed. -/
structure JobFailure where
  reason : FailureReason
  exitCode : Option Int := none
  message : Chars
  deriving DecidableEq

def JobFailure.system (message : Chars) : JobFailure :=
  { reason := .runnerSystemFailure, message := message }

/-- The outcome of a job: its failure, if it failed. -/
abbrev JobOutcome := Option JobFailure

/-- Result of running one script. -/
inductive RunStatus where
  | exited (code : Int)
  | timedOut
  | canceled
  | error (message : Chars)
  deriving DecidableEq

/-- Result of getting the sources or restoring the workspace. -/
inductive StageResult where
  | ok
  | timedOut
  | canceled
  | failed (failure : JobFailure)
  deriving DecidableEq

/-- A script run stops at its deadline or once cancellation reaches `stopAt`. -/
structure Limits where
  deadline : Nat
  stopAt : RemoteState
  deriving DecidableEq

namespace JobSteps

def seconds (n : Nat) : Nat := n * 1000000000

def defaultJobTimeout : Nat := 3600

def defaultAfterScriptTimeout : Nat := seconds 300

/-- The times that an `Instant` can hold. -/
def maxInstant : Nat := seconds (2 ^ 63)

/-- `Instant::checked_add`. -/
def checkedAdd (now timeout : Nat) : Option Nat :=
  if now + timeout < maxInstant then some (now + timeout) else none

def jobTimeout (job : Job) : Nat := job.timeoutSecs.getD defaultJobTimeout

def canceled : JobFailure := { reason := .jobCanceled, message := "canceled".toList }

def timedOut (job : Job) : JobFailure where
  reason := .jobExecutionTimeout
  message := "execution took longer than ".toList ++ Nat.toDigits 10 (jobTimeout job) ++ ['s']

def intDigits : Int → Chars
  | .ofNat n => Nat.toDigits 10 n
  | .negSucc n => '-' :: Nat.toDigits 10 (n + 1)

def exitFailure (code : Int) : JobFailure where
  reason := .scriptFailure
  exitCode := some code
  message := "exit code ".toList ++ intDigits code

/-- A stage timeout from a job variable; malformed and zero ones are ignored. -/
def stageTimeout (parseDuration : Chars → Option Nat) (job : Job) (key : Chars) : Option Nat :=
  match (variableValue job key).map trim with
  | none => none
  | some raw =>
      if raw = [] then none
      else
        match parseDuration raw with
        | some timeout => if timeout = 0 then none else some timeout
        | none => none

/-- A script that was handed to the runner. -/
structure ScriptRun where
  step : Step
  script : Chars
  limits : Limits
  deriving DecidableEq

inductive Phase where
  | sources
  | restore
  /-- about to read the stage timeouts -/
  | timeouts
  /-- about to look at the cancellation before the first of the steps -/
  | boundary (step : Step) (rest : List Step)
  /-- not aborted; about to look at the cancellation again -/
  | chosen (step : Step) (rest : List Step)
  | running (run : ScriptRun) (rest : List Step)
  | done
  deriving DecidableEq

structure State where
  deadline : Nat
  scriptDeadline : Nat
  afterScriptTimeout : Option Nat := none
  failure : Option JobFailure := none
  phase : Phase := .sources
  deriving DecidableEq

inductive Label where
  | sources (result : StageResult)
  | restore (result : StageResult)
  | timeouts (now : Nat)
  | boundary
  | choose (now : Nat)
  | finished (result : RunStatus)
  deriving DecidableEq

def isAfterScript (step : Step) : Bool := step.name = "after_script".toList

/-- `get_or_insert`: the first failure stays. -/
def record (failure : Option JobFailure) (new : JobFailure) : Option JobFailure :=
  failure.or (some new)

def stageFailure (job : Job) : StageResult → Option JobFailure
  | .ok => none
  | .timedOut => some (timedOut job)
  | .canceled => some canceled
  | .failed failure => some failure

def shouldRun (step : Step) (failure : Option JobFailure) : Bool :=
  if step.when = "always".toList then true
  else if step.when = "on_failure".toList then failure.isSome
  else failure.isNone

def stepLines (step : Step) : List Chars := step.beforeScript ++ step.script

/-- `CI_JOB_STATUS` in `after_script`. -/
def jobStatus : Option JobFailure → Chars
  | none => "success".toList
  | some f => if f.reason = .jobCanceled then "canceled".toList else "failed".toList

def scriptText (job : Job) (step : Step) (failure : Option JobFailure) : Chars :=
  let script := stepScript (stepLines step)
  let script :=
    if variableValue job "CI_DEBUG_TRACE".toList = some "true".toList then
      "set -x\n".toList ++ script
    else script
  if isAfterScript step then
    "export CI_JOB_STATUS=".toList ++ jobStatus failure ++ '\n' :: script
  else script

/-- `after_script` may not outlive the job timeout, but always gets the default grace. -/
def afterScriptDeadline (s : State) (step : Step) (now : Nat) : Nat :=
  let wanted := s.afterScriptTimeout.getD
    (if 0 < step.timeout then seconds step.timeout else defaultAfterScriptTimeout)
  let cap := max s.deadline (now + defaultAfterScriptTimeout)
  match checkedAdd now wanted with
  | some deadline => min deadline cap
  | none => cap

def limits (s : State) (step : Step) (now : Nat) : Limits :=
  if isAfterScript step then ⟨afterScriptDeadline s step now, .aborted⟩
  else ⟨s.scriptDeadline, .canceling⟩

/-- The phase before the given steps. -/
def before : List Step → Phase
  | [] => .done
  | step :: rest => .boundary step rest

/-- What the result of a step's script does to the outcome. -/
def afterRun (job : Job) (step : Step) (failure : Option JobFailure) :
    RunStatus → Option JobFailure
  | .exited code =>
      if code = 0 ∨ step.allowFailure ∨ isAfterScript step then failure
      else record failure (exitFailure code)
  | .timedOut => if isAfterScript step then failure else record failure (timedOut job)
  | .canceled => if isAfterScript step then failure else record failure canceled
  | .error message =>
      if isAfterScript step then failure else record failure (JobFailure.system message)

def start (job : Job) (now : Nat) : State :=
  let deadline := now + seconds (jobTimeout job)
  { deadline := deadline, scriptDeadline := deadline }

/-- One move of the machine, when `cancel` is the state of the job's cancellation. -/
def step (parseDuration : Chars → Option Nat) (job : Job) (cancel : RemoteState) (s : State) :
    Label → Option State
  | .sources result =>
      if s.phase = .sources then
        -- a job without its sources skips the restore
        let failure := stageFailure job result
        some { s with
          failure := failure
          phase := if failure = none then .restore else .timeouts }
      else none
  | .restore result =>
      if s.phase = .restore then
        some { s with failure := stageFailure job result, phase := .timeouts }
      else none
  | .timeouts now =>
      if s.phase = .timeouts then
        let scriptTimeout := stageTimeout parseDuration job "RUNNER_SCRIPT_TIMEOUT".toList
        let scriptDeadline :=
          match scriptTimeout.bind (checkedAdd now) with
          | some deadline => min s.deadline deadline
          | none => s.deadline
        some { s with
          scriptDeadline := scriptDeadline
          afterScriptTimeout := stageTimeout parseDuration job
            "RUNNER_AFTER_SCRIPT_TIMEOUT".toList
          phase := before job.steps }
      else none
  | .boundary =>
      match s.phase with
      | .boundary next rest =>
          -- an aborted job runs nothing more, not even `after_script`
          if cancel = .aborted then
            some { s with failure := record s.failure canceled, phase := .done }
          else some { s with phase := .chosen next rest }
      | _ => none
  | .choose now =>
      match s.phase with
      | .chosen next rest =>
          let failure :=
            if !isAfterScript next ∧ cancel ≠ .running then record s.failure canceled
            else s.failure
          let s := { s with failure := failure }
          -- a step that is not for this outcome or has no lines is skipped
          if shouldRun next failure ∧ stepLines next ≠ [] then
            let run : ScriptRun := ⟨next, scriptText job next failure, limits s next now⟩
            some { s with phase := .running run rest }
          else some { s with phase := before rest }
      | _ => none
  | .finished result =>
      match s.phase with
      | .running run rest =>
          some { s with
            failure := afterRun job run.step s.failure result
            phase := before rest }
      | _ => none

end JobSteps

end TurboCi
