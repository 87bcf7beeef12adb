import TurboCi.Gitlab.Job
import Mathlib.Tactic

set_option autoImplicit false

/-! # The job's environment

What a job finds in its environment: the runner's own variables and the job's CI/CD variables,
expanded against each other (`runner_daemon/script.rs`). A host path is the list of its
components.
-/

namespace TurboCi

/-! ## Shell scripts -/

/-- Quote a string for POSIX sh. -/
def quote (value : Chars) : Chars :=
  '\'' :: (value.flatMap (fun c => if c = '\'' then "'\\''".toList else [c]) ++ ['\''])

/-- `pipefail` is enabled only where the shell supports it. -/
def shellPrelude : Chars :=
  "set -e\n(set -o pipefail) 2>/dev/null && set -o pipefail\n".toList

/-- A line of a step: echoed as a green `$ command`, then run. -/
def stepLine (line : Chars) : Chars :=
  "printf '\\033[32;1m%s\\033[0;m\\n' ".toList ++ quote ("$ ".toList ++ line) ++ ['\n']
    ++ line ++ ['\n']

/-- One script for a whole step. -/
def stepScript (lines : List Chars) : Chars := shellPrelude ++ lines.flatMap stepLine

/-- One argv command as a shell line, every argument quoted. -/
def argvLine (argv : List Chars) : Chars := [' '].intercalate (argv.map quote)

/-- A script running argv commands in order, without echoing them. -/
def argvScript (commands : List (List Chars)) : Chars :=
  shellPrelude ++ commands.flatMap fun argv => argvLine argv ++ ['\n']

/-- The last definition of a variable, as it is written. -/
def variableValue (job : Job) (key : Chars) : Option Chars :=
  (job.vars.reverse.find? (·.key = key)).bind (·.value)

/-! ## Expansion -/

/-- A map from names to values. -/
abbrev Values := Chars → Option Chars

def Values.insert (values : Values) (key value : Chars) : Values :=
  fun k => if k = key then some value else values k

def isNameChar (c : Char) : Bool := c.isAlphanum || c == '_'

def isValidKey : Chars → Bool
  | [] => false
  | c :: cs => (c.isAlpha || c == '_') && cs.all isNameChar

/-- How many characters after a `$` are a variable name. -/
def nameLen : Chars → Nat
  | [] => 0
  | c :: cs => if c.isDigit then 0 else ((c :: cs).takeWhile isNameChar).length

/-- What stands for the reference that `after` begins with, after a `$`, and how many characters
of it belong to the reference; a `$` that begins none is kept. -/
def reference (values : Values) (after : Chars) : Chars × Nat :=
  match after with
  | '$' :: _ => (['$'], 1)
  | '{' :: braced =>
      let name := braced.takeWhile (· ≠ '}')
      if name.length < braced.length ∧ isValidKey name then
        ((values name).getD [], name.length + 2)
      else (['$'], 0)
  | _ =>
      let len := nameLen after
      if len = 0 then (['$'], 0) else ((values (after.take len)).getD [], len)

/-- Expand the text, the next `k` characters of which belong to a reference already replaced. -/
def expandFrom (values : Values) : Nat → Chars → Chars
  | _, [] => []
  | k + 1, _ :: rest => expandFrom values k rest
  | 0, c :: after =>
      if c = '$' then
        (reference values after).1 ++ expandFrom values (reference values after).2 after
      else c :: expandFrom values 0 after

/-- Expand `$VAR` and `${VAR}`; unknown names expand to empty, and `$$` is a literal `$`. -/
def expand (value : Chars) (values : Values) : Chars := expandFrom values 0 value

/-- A text without `$` stays as it is. -/
theorem expand_of_not_mem (values : Values) {value : Chars} (h : '$' ∉ value) :
    expand value values = value := by
  unfold expand
  induction value with
  | nil => rfl
  | cons c cs ih =>
      rw [List.mem_cons, not_or] at h
      rw [expandFrom, if_neg (Ne.symm h.1), ih h.2]

/-! ## The project directory -/

/-- `char::is_whitespace`. -/
def isWhitespace (c : Char) : Bool :=
  (0x09 ≤ c.val && c.val ≤ 0x0D) || c.val == 0x20 || c.val == 0x85 || c.val == 0xA0
    || c.val == 0x1680 || (0x2000 ≤ c.val && c.val ≤ 0x200A) || c.val == 0x2028
    || c.val == 0x2029 || c.val == 0x202F || c.val == 0x205F || c.val == 0x3000

/-- `str::trim`. -/
def trim (cs : Chars) : Chars :=
  ((cs.dropWhile isWhitespace).reverse.dropWhile isWhitespace).reverse

/-- `str::strip_prefix`. -/
def stripPrefix (pre cs : Chars) : Option Chars :=
  if pre.isPrefixOf cs then some (cs.drop pre.length) else none

/-- The values of the job's variables, the last definition of a key winning. -/
def variableValues (job : Job) : Values :=
  job.vars.foldl (fun values v => match v.value with
    | some value => values.insert v.key value
    | none => values) (fun _ => none)

/-- The last definition of a key that has a value gives the value. -/
theorem variableValues_eq (job : Job) (key : Chars) :
    variableValues job key =
      (job.vars.reverse.find? fun v => v.key = key && v.value.isSome).bind (·.value) := by
  unfold variableValues
  -- from any values on
  rw [← Option.or_none (o := (job.vars.reverse.find? _).bind _)]
  show _ = Option.or _ ((fun _ : Chars => (none : Option Chars)) key)
  generalize (fun _ : Chars => (none : Option Chars)) = values
  induction job.vars generalizing values with
  | nil => rfl
  | cons v vs ih =>
      rw [List.foldl_cons, ih, List.reverse_cons, List.find?_append]
      cases hfind : vs.reverse.find? fun v => v.key = key && v.value.isSome with
      | some w =>
          have hsome : w.value.isSome = true := by
            have hw := List.find?_some hfind
            exact (Bool.and_eq_true_iff.mp hw).2
          obtain ⟨value, hvalue⟩ := Option.isSome_iff_exists.mp hsome
          simp [hvalue]
      | none =>
          cases hvalue : v.value with
          | none => simp [hvalue]
          | some value =>
              unfold Values.insert
              by_cases hkey : v.key = key
              · simp [hkey, hvalue]
              · have hkey' : key ≠ v.key := fun h => hkey h.symm
                simp [hkey, hkey']

/-- A part of a clone path that names a directory. -/
def isPathPart (part : Chars) : Bool :=
  part ≠ [] && part ≠ ['.'] && part ≠ ['.', '.']
    && part.all (fun c => c.isAlphanum || c == '-' || c == '_' || c == '.')

/-- Why a clone path is refused. -/
inductive ClonePathError where
  /-- it must start with `$CI_BUILDS_DIR/` -/
  | outsideBuildsDir (clonePath : Chars)
  /-- it gives `relative`, not a directory inside the builds directory -/
  | notADirectory (clonePath relative : Chars)
  deriving DecidableEq

/-- Where the project is checked out, relative to the builds directory: `project`, or the part
of `GIT_CLONE_PATH` after `$CI_BUILDS_DIR/`. -/
def projectSubdir (job : Job) : Except ClonePathError Chars :=
  let clonePath := variableValue job "GIT_CLONE_PATH".toList
  match (clonePath.map trim).filter (· ≠ []) with
  | none => .ok "project".toList
  | some clonePath =>
      match (stripPrefix "$CI_BUILDS_DIR/".toList clonePath).or
          (stripPrefix "${CI_BUILDS_DIR}/".toList clonePath) with
      | none => .error (.outsideBuildsDir clonePath)
      | some relative =>
          let relative := expand relative (variableValues job)
          if relative ≠ [] ∧ (relative.splitOn '/').all isPathPart then .ok relative
          else .error (.notADirectory clonePath relative)

/-- The project directory, also for a job whose clone path is refused. -/
def subdirOrDefault (job : Job) : Chars :=
  match projectSubdir job with
  | .ok subdir => subdir
  | .error _ => "project".toList

/-! ## The environment -/

/-- The components of a host path. -/
abbrev HostPath := List Chars

/-- Environment of a job, plus the files behind its `file` variables. -/
structure JobEnv where
  vars : List (Chars × Chars)
  files : List (HostPath × Chars)
  deriving DecidableEq

namespace JobEnv

/-- Set a variable, replacing an earlier value of the same name. -/
def set (env : JobEnv) (key value : Chars) : JobEnv :=
  { env with vars := env.vars.filter (·.1 ≠ key) ++ [(key, value)] }

/-- The value of a variable. -/
def get (env : JobEnv) : Values := fun key => (env.vars.find? (·.1 = key)).map Prod.snd

end JobEnv

/-- What the runner itself adds to a job's environment. -/
structure RunnerVars where
  /-- Docker (disposable) or shell (shared) environment -/
  disposable : Bool := false
  /-- PEM of a custom CA for the GitLab server -/
  caPem : Option Chars := none

def tmpName (subdir : Chars) : Chars := subdir ++ ".tmp".toList

/-- Host path of a file in the job's directory of file variables. -/
def filePath (hostJobDir : HostPath) (subdir key : Chars) : HostPath :=
  hostJobDir ++ (tmpName subdir).splitOn '/' ++ [key]

/-- The part of the runner's variables that says what the job shares with others. -/
def setSharing (job : Job) (runner : RunnerVars) (env : JobEnv) : JobEnv :=
  if runner.disposable then
    let env := env.set "CI_DISPOSABLE_ENVIRONMENT".toList "true".toList
    match job.image with
    | some image => env.set "CI_JOB_IMAGE".toList image.name
    | none => env
  else env.set "CI_SHARED_ENVIRONMENT".toList "true".toList

/-- The variables that the runner defines itself. -/
def runnerEnv (job : Job) (buildsDir : Chars) (hostJobDir : HostPath) (runner : RunnerVars) :
    JobEnv :=
  let subdir := subdirOrDefault job
  let env : JobEnv := ⟨[], []⟩
  let env := env.set "CI_BUILDS_DIR".toList buildsDir
  let env := env.set "CI_PROJECT_DIR".toList (buildsDir ++ '/' :: subdir)
  let env := env.set "CI_SERVER".toList "yes".toList
  let env := env.set "CI_JOB_STATUS".toList "running".toList
  let env := env.set "CI_JOB_TIMEOUT".toList (Nat.toDigits 10 (job.timeoutSecs.getD 3600))
  let env := setSharing job runner env
  match runner.caPem with
  | some pem =>
      let key := "CI_SERVER_TLS_CA_FILE".toList
      let path := buildsDir ++ '/' :: tmpName subdir ++ '/' :: key
      let env := { env with files := env.files ++ [(filePath hostJobDir subdir key, pem)] }
      (env.set "GIT_SSL_CAINFO".toList path).set key path
  | none => env

/-- The job's variables with a valid name. -/
def validVariables (job : Job) : List Variable := job.vars.filter (fun v => isValidKey v.key)

/-- The values that a variable may refer to: the runner's own, and every valid variable of the
job as it is written, whatever its position. -/
def expansionValues (env : JobEnv) (valid : List Variable) : Values :=
  valid.foldl (fun values v => values.insert v.key (v.value.getD [])) env.get

/-- The content of a variable: expanded, unless it is raw. -/
def variableContent (values : Values) (v : Variable) : Chars :=
  if v.raw then v.value.getD [] else expand (v.value.getD []) values

/-- One round of the loop over the variables. -/
def setVariable (values : Values) (buildsDir : Chars) (hostJobDir : HostPath) (subdir : Chars)
    (env : JobEnv) (v : Variable) : JobEnv :=
  let value := variableContent values v
  if v.file then
    let files := env.files.filter (fun f => f.1.getLast? ≠ some v.key)
    ({ env with files := files ++ [(filePath hostJobDir subdir v.key, value)] } : JobEnv).set v.key
      (buildsDir ++ '/' :: tmpName subdir ++ '/' :: v.key)
  else env.set v.key value

/-- Build the job environment. -/
def jobEnv (job : Job) (buildsDir : Chars) (hostJobDir : HostPath) (runner : RunnerVars) :
    JobEnv :=
  let env := runnerEnv job buildsDir hostJobDir runner
  let values := expansionValues env (validVariables job)
  (validVariables job).foldl (setVariable values buildsDir hostJobDir (subdirOrDefault job)) env

/-! ## What the environment holds -/

namespace JobEnv

theorem get_set (env : JobEnv) (key value k : Chars) :
    (env.set key value).get k = if k = key then some value else env.get k := by
  have hfind : ((env.vars.filter (·.1 ≠ key)).find? (·.1 = k))
      = if k = key then none else env.vars.find? (·.1 = k) := by
    induction env.vars with
    | nil => simp
    | cons p vars ih =>
        by_cases hp : p.1 = key <;> by_cases hk : p.1 = k <;> simp_all
  unfold get set
  rw [List.find?_append, hfind]
  by_cases hk : k = key
  · simp [hk]
  · have hk' : key ≠ k := fun h => hk h.symm
    simp [hk, hk']

end JobEnv

/-- The last definition of a key among the job's valid variables. -/
def lastDefinition (job : Job) (key : Chars) : Option Variable :=
  (validVariables job).reverse.find? (·.key = key)

theorem isValidKey_of_lastDefinition {job : Job} {key : Chars} {v : Variable}
    (h : lastDefinition job key = some v) : v.key = key ∧ isValidKey key = true := by
  have hfind : (validVariables job).reverse.find? (·.key = key) = some v := h
  have hkey : v.key = key := by simpa using List.find?_some hfind
  refine ⟨hkey, ?_⟩
  rw [← hkey]
  exact (List.mem_filter.mp (List.mem_reverse.mp (List.mem_of_find?_eq_some hfind))).2

/-- What a definition puts into the environment. -/
def definedValue (values : Values) (buildsDir subdir : Chars) (v : Variable) : Chars :=
  if v.file then buildsDir ++ '/' :: tmpName subdir ++ '/' :: v.key else variableContent values v

theorem variableContent_of_raw (values : Values) {v : Variable} (h : v.raw = true) :
    variableContent values v = v.value.getD [] := if_pos h

theorem variableContent_of_not_raw (values : Values) {v : Variable} (h : ¬ v.raw = true) :
    variableContent values v = expand (v.value.getD []) values := if_neg h

theorem definedValue_of_not_file (values : Values) (buildsDir subdir : Chars) {v : Variable}
    (h : v.file = false) : definedValue values buildsDir subdir v = variableContent values v := by
  rw [definedValue, h, if_neg Bool.false_ne_true]

theorem get_setVariable (values : Values) (buildsDir : Chars) (hostJobDir : HostPath)
    (subdir : Chars) (env : JobEnv) (v : Variable) (k : Chars) :
    (setVariable values buildsDir hostJobDir subdir env v).get k
      = if k = v.key then some (definedValue values buildsDir subdir v) else env.get k := by
  unfold setVariable definedValue
  cases v.file with
  | false => exact JobEnv.get_set env v.key _ k
  | true => exact JobEnv.get_set _ v.key _ k

theorem get_foldl_setVariable (values : Values) (buildsDir : Chars) (hostJobDir : HostPath)
    (subdir k : Chars) : ∀ (vs : List Variable) (env : JobEnv),
    (vs.foldl (setVariable values buildsDir hostJobDir subdir) env).get k
      = ((vs.reverse.find? (·.key = k)).map (definedValue values buildsDir subdir)).or
          (env.get k) := by
  intro vs
  induction vs with
  | nil => intro env; rfl
  | cons v vs ih =>
      intro env
      rw [List.foldl_cons, ih, get_setVariable, List.reverse_cons, List.find?_append]
      cases vs.reverse.find? (·.key = k) with
      | some w => rfl
      | none =>
          by_cases hk : v.key = k
          · simp [hk]
          · have hk' : k ≠ v.key := fun h => hk h.symm
            simp [hk, hk']

/-- **A variable's value in the environment is that of its last definition.** -/
theorem get_jobEnv (job : Job) (buildsDir : Chars) (hostJobDir : HostPath) (runner : RunnerVars)
    {key : Chars} {v : Variable} (h : lastDefinition job key = some v) :
    (jobEnv job buildsDir hostJobDir runner).get key
      = some (definedValue (expansionValues (runnerEnv job buildsDir hostJobDir runner)
          (validVariables job)) buildsDir (subdirOrDefault job) v) := by
  rw [jobEnv, get_foldl_setVariable]
  unfold lastDefinition at h
  rw [h]
  rfl

end TurboCi
