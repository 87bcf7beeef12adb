import TurboCi.RunnerDaemon.Image
import TurboCi.RunnerDaemon.JobRun
import TurboCi.RunnerDaemon.RunnerConfig

set_option autoImplicit false

/-! # What the configuration adds to a job

`apply_runner_config` of `runner_daemon/mod.rs`: the variables of the proxy, with the host names of
the job's services (`runner_daemon/image.rs`) in `NO_PROXY` (`net.rs`), those of the environment,
and the scripts around the job's own. Hooks, which no modelled function reads, are left out.
-/

namespace TurboCi

/-! ## Host names -/

/-- `str::replace` of a character. -/
def replaceChar (c : Char) (text cs : Chars) : Chars :=
  cs.flatMap fun d => if d = c then text else [d]

/-- The host names that a service has from its image. -/
def imageHosts (image : Chars) : List Chars :=
  [replaceChar '/' "__".toList (repository image), replaceChar '/' "-".toList (repository image)]

/-- The host names that a service is given, separated by commas or blanks. -/
def givenHosts (serviceAlias : Option Chars) : List Chars :=
  ((serviceAlias.getD []).splitOnP fun c => c = ',' || isWhitespace c).filter (· ≠ [])

/-- `Vec::dedup`: removes repeats that follow each other. -/
def dedupHosts : List Chars → List Chars
  | a :: b :: rest => if a = b then dedupHosts (b :: rest) else a :: dedupHosts (b :: rest)
  | hosts => hosts

/-- The host names that a service is reachable at. -/
def serviceAliases (image : Chars) (serviceAlias : Option Chars) : List Chars :=
  dedupHosts (imageHosts image ++ givenHosts serviceAlias)

/-! ## The value of `NO_PROXY` -/

def loopback : List Chars := ["localhost".toList, "127.0.0.1".toList, "::1".toList]

/-- The entries of a configured list, as they are given. -/
def givenEntries (configured : Option Chars) : List Chars :=
  ((configured.getD []).splitOn ',').map trim

/-- One round of the loop of `effective_no_proxy`. -/
def pushEntry (entries : List Chars) (entry : Chars) : List Chars :=
  if entry ≠ [] ∧ !entries.contains entry then entries ++ [entry] else entries

/-- The configured entries, loopback and `extra`, without repeats. -/
def effectiveNoProxy (configured : Option Chars) (extra : List Chars) : Chars :=
  [','].intercalate ((givenEntries configured ++ loopback ++ extra).foldl pushEntry [])

/-! ## Variables -/

/-- `str::split_once`. -/
def splitOnce (sep : Char) (cs : Chars) : Option (Chars × Chars) :=
  match cs.dropWhile (· ≠ sep) with
  | [] => none
  | _ :: value => some (cs.takeWhile (· ≠ sep), value)

/-- `job.variables.insert(0, …)` for one variable after the other. -/
def insertVars (added vars : List Variable) : List Variable :=
  added.foldl (fun vars v => v :: vars) vars

theorem insertVars_eq (added vars : List Variable) :
    insertVars added vars = added.reverse ++ vars := by
  unfold insertVars
  induction added generalizing vars with
  | nil => rfl
  | cons v added ih => rw [List.foldl_cons, ih, List.reverse_cons, List.append_assoc]; rfl

/-- A variable that the runner adds. -/
def runnerVariable (key value : Chars) : Variable :=
  { key, value := some value, isPublic := true, isInternal := true }

/-- The variables of `environment`. -/
def environmentVars (config : Config.RunnerConfig) : List Variable :=
  config.environment.filterMap fun entry =>
    (splitOnce '=' entry).map fun kv => runnerVariable (trim kv.1) kv.2

namespace Config

/-- The services with their aliases: those of the configuration first, then the job's own. -/
def services (config : RunnerConfig) (job : Job) : List (Chars × Option Chars) :=
  config.executor.docker.services.map (fun s => (s.name, s.serviceAlias)) ++
    job.services.map (fun s => (s.name, s.serviceAlias))

/-- The aliases of the services, with the job's variables before the runner adds any. -/
def aliases (config : RunnerConfig) (job : Job) : List Chars :=
  (services config job).flatMap fun s => serviceAliases (expand s.1 (jobVariables job)) s.2

def noProxy (config : RunnerConfig) (job : Job) : Chars :=
  effectiveNoProxy config.noProxy (aliases config job)

/-- A variable of the proxy, as the runner adds it. -/
def proxyVariable (key value : Chars) : Variable :=
  { runnerVariable key value with raw := true }

/-- The variables of the proxy, in the order in which they are inserted. -/
def proxyVariables (config : RunnerConfig) (job : Job) : List Variable :=
  match config.proxy with
  | some proxy => [
      proxyVariable "HTTP_PROXY".toList proxy, proxyVariable "HTTPS_PROXY".toList proxy,
      proxyVariable "http_proxy".toList proxy, proxyVariable "https_proxy".toList proxy,
      proxyVariable "NO_PROXY".toList (noProxy config job),
      proxyVariable "no_proxy".toList (noProxy config job)]
  | none => []

end Config

/-- `apply_runner_config`: the proxy's variables come first, so the job's own win. -/
def applyRunnerConfig (config : Config.RunnerConfig) (job : Job) : Job :=
  { job with
    vars := insertVars (Config.proxyVariables config job) job.vars ++ environmentVars config
    steps := job.steps.map (fun step =>
      if step.name = "script".toList then
        { step with
          beforeScript := config.preBuildScript.toList ++ step.beforeScript
          script := step.script ++ config.postBuildScript.toList }
      else step) }

end TurboCi
