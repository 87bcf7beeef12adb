import Mathlib.Data.List.Basic

set_option autoImplicit false

/-! # The job payload

The parts of GitLab's job payload that the runner's logic reads (`gitlab/mod.rs`), with the
defaults of its deserialisation. Strings that are taken apart character by character are
lists of characters.
-/

namespace TurboCi

abbrev Chars := List Char

structure Variable where
  key : Chars
  value : Option Chars := none
  isPublic : Bool := false
  masked : Bool := false
  raw : Bool := false
  file : Bool := false
  isInternal : Bool := false
  deriving DecidableEq

/-- The part of `runner_info` that the runner reads. -/
structure RunnerVariables where
  timeout : Option Nat := none
  deriving DecidableEq

structure Image where
  name : Chars
  pullPolicy : List Chars := []
  deriving DecidableEq

structure Service where
  name : Chars
  pullPolicy : List Chars := []
  serviceAlias : Option Chars := none
  deriving DecidableEq

/-- A job that this one depends on; `artifacts` where it has produced any. -/
structure Dependency where
  id : Nat
  name : Chars
  token : Chars := []
  artifacts : Bool := false
  deriving DecidableEq

/-- A `cache:` entry of a job. -/
structure Cache where
  key : Chars
  untracked : Option Bool := none
  paths : List Chars := []
  policy : Chars := "pull-push".toList
  when : Option Chars := none
  fallbackKeys : List Chars := []
  deriving DecidableEq

structure Step where
  name : Chars
  script : List Chars := []
  beforeScript : List Chars := []
  timeout : Nat := 0
  when : Chars := []
  allowFailure : Bool := false
  deriving DecidableEq

structure Artifact where
  name : Option Chars := none
  untracked : Bool := false
  paths : List Chars := []
  exclude : List Chars := []
  when : Option Chars := none
  expireIn : Option Chars := none
  artifactType : Option Chars := none
  artifactFormat : Option Chars := none
  deriving DecidableEq

/-- The part of `job_info` that the runner reads. -/
structure JobInfo where
  projectId : Nat
  deriving DecidableEq

/-- The part of `git_info` that the runner reads. -/
structure GitInfo where
  repoUrl : Chars := []
  sha : Chars := []
  depth : Option Nat := none
  refspecs : List Chars := []
  repoObjectFormat : Option Chars := none
  /-- whether the ref is protected, where GitLab says so -/
  protectedRef : Option Bool := none
  deriving DecidableEq

structure Job where
  id : Nat
  token : Chars
  jobInfo : Option JobInfo := none
  gitInfo : Option GitInfo := none
  runnerInfo : Option RunnerVariables := none
  vars : List Variable := []
  steps : List Step := []
  image : Option Image := none
  services : List Service := []
  allowGitFetch : Bool := false
  artifacts : Option (List Artifact) := none
  dependencies : List Dependency := []
  cache : List Cache := []
  timeout : Nat := 0
  /-- set by the runner: the job's slot within its project -/
  projectSlot : Nat := 0
  deriving DecidableEq

/-- Job timeout in seconds as configured in GitLab. -/
def Job.timeoutSecs (job : Job) : Option Nat :=
  ((job.runnerInfo.bind (·.timeout)).or (some job.timeout)).filter (0 < ·)

/-- What GitLab says about a running job. -/
inductive RemoteState where
  | running
  /-- canceled in the UI: stop the script, still run after_script -/
  | canceling
  /-- canceled, failed or no longer ours: stop everything -/
  | aborted
  deriving DecidableEq

/-- The derived order of the states. -/
def RemoteState.rank : RemoteState → Nat
  | running => 0
  | canceling => 1
  | aborted => 2

instance : LE RemoteState := ⟨fun a b => a.rank ≤ b.rank⟩

instance (a b : RemoteState) : Decidable (a ≤ b) :=
  inferInstanceAs (Decidable (a.rank ≤ b.rank))

/-- Why a job failed, as GitLab expects it in `failure_reason`. -/
inductive FailureReason where
  | scriptFailure
  | runnerSystemFailure
  | jobExecutionTimeout
  | imagePullFailure
  /-- runner-internal: never sent to GitLab -/
  | jobCanceled
  deriving DecidableEq

/-- The final state that a job is reported with. -/
inductive JobState where
  | success
  | failed
  deriving DecidableEq

end TurboCi
