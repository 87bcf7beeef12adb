import TurboCi.RunnerDaemon.Docker
import TurboCi.RunnerDaemon.Expansion
import TurboCi.RunnerDaemon.FileVariables
import TurboCi.RunnerDaemon.JobRun

set_option autoImplicit false

/-! # The runner's view of a job's variables

The runner expands cache keys, artifact paths and names with `jobVariables`, which is the job's
environment without a builds directory, a Docker image or a CA (`runner_daemon/mod.rs`). The job
itself has the environment of its executor. All templates expand to the same text exactly if the
job defines every variable whose value is the executor's, and has no file variables
(`job_variables_iff`).
-/

namespace TurboCi

/-! ## The two maps -/

inductive Executor where
  | docker
  | shell
  deriving DecidableEq

def Executor.runnerVars (caPem : Option Chars) : Executor → RunnerVars
  | docker => { disposable := true, caPem }
  | shell => { disposable := false, caPem }

/-- The builds directory as the job sees it. -/
def Executor.buildsDir (buildsRoot : HostPath) (job : Job) : Executor → Chars
  | docker => "/builds".toList
  | shell => display (jobDir buildsRoot job)

/-- The environment that the executor gives the job. -/
def Executor.env (executor : Executor) (buildsRoot : HostPath) (caPem : Option Chars) (job : Job) :
    JobEnv :=
  jobEnv job (executor.buildsDir buildsRoot job) (jobDir buildsRoot job)
    (executor.runnerVars caPem)

/-! ## The values of an environment -/

theorem expansionValues_eq (env : JobEnv) (vs : List Variable) (key : Chars) :
    expansionValues env vs key =
      ((vs.reverse.find? (·.key = key)).map fun v => v.value.getD []).or (env.get key) := by
  unfold expansionValues
  generalize env.get = values
  induction vs generalizing values with
  | nil => rfl
  | cons v vs ih =>
      rw [List.foldl_cons, ih, List.reverse_cons, List.find?_append]
      cases vs.reverse.find? (·.key = key) with
      | some w => rfl
      | none =>
          unfold Values.insert
          by_cases hkey : v.key = key
          · simp [hkey]
          · have hkey' : key ≠ v.key := fun h => hkey h.symm
            simp [hkey, hkey']

theorem get_jobEnv_or (job : Job) (buildsDir : Chars) (dir : HostPath) (runner : RunnerVars)
    (key : Chars) :
    (jobEnv job buildsDir dir runner).get key =
      ((lastDefinition job key).map (definedValue
        (expansionValues (runnerEnv job buildsDir dir runner) (validVariables job)) buildsDir
        (subdirOrDefault job))).or ((runnerEnv job buildsDir dir runner).get key) :=
  get_foldl_setVariable _ _ _ _ _ _ _

/-! ## The executor's variables -/

/-- The value of this predefined variable is the executor's. -/
def OfExecutor (job : Job) (runner : RunnerVars) (key : Chars) : Prop :=
  key = "CI_BUILDS_DIR".toList ∨ key = "CI_PROJECT_DIR".toList ∨
    (runner.disposable = true ∧
      (key = "CI_DISPOSABLE_ENVIRONMENT".toList ∨ key = "CI_SHARED_ENVIRONMENT".toList ∨
        key = "CI_JOB_IMAGE".toList ∧ ∃ image, job.image = some image ∧ image.name ≠ [])) ∨
    (runner.caPem.isSome = true ∧ (key = "GIT_SSL_CAINFO".toList ∨ key = caKey))

theorem isValidKey_of_ofExecutor {job : Job} {runner : RunnerVars} {key : Chars}
    (h : OfExecutor job runner key) : isValidKey key = true := by
  rcases h with rfl | rfl | ⟨-, rfl | rfl | ⟨rfl, -⟩⟩ | ⟨-, rfl | rfl⟩ <;> decide

theorem get_setSharing (job : Job) (runner : RunnerVars) (env : JobEnv) (key : Chars) :
    (setSharing job runner env).get key =
      if runner.disposable then
        match job.image with
        | some image =>
            if key = "CI_JOB_IMAGE".toList then some image.name
            else if key = "CI_DISPOSABLE_ENVIRONMENT".toList then some "true".toList
            else env.get key
        | none =>
            if key = "CI_DISPOSABLE_ENVIRONMENT".toList then some "true".toList else env.get key
      else if key = "CI_SHARED_ENVIRONMENT".toList then some "true".toList
      else env.get key := by
  unfold setSharing
  cases runner.disposable with
  | false => exact JobEnv.get_set _ _ _ _
  | true =>
      cases job.image with
      | none => exact JobEnv.get_set _ _ _ _
      | some image =>
          simp only [if_true]
          rw [JobEnv.get_set, JobEnv.get_set]

/-- The variables that are set before those of the executor. -/
def baseEnv (job : Job) (buildsDir : Chars) : JobEnv :=
  (((((⟨[], []⟩ : JobEnv).set "CI_BUILDS_DIR".toList buildsDir).set "CI_PROJECT_DIR".toList
    (buildsDir ++ '/' :: subdirOrDefault job)).set "CI_SERVER".toList "yes".toList).set
    "CI_JOB_STATUS".toList "running".toList).set "CI_JOB_TIMEOUT".toList
    (Nat.toDigits 10 (job.timeoutSecs.getD 3600))

theorem get_baseEnv (job : Job) (buildsDir : Chars) (key : Chars) :
    (baseEnv job buildsDir).get key =
      if key = "CI_JOB_TIMEOUT".toList then
        some (Nat.toDigits 10 (job.timeoutSecs.getD 3600))
      else if key = "CI_JOB_STATUS".toList then some "running".toList
      else if key = "CI_SERVER".toList then some "yes".toList
      else if key = "CI_PROJECT_DIR".toList then
        some (buildsDir ++ '/' :: subdirOrDefault job)
      else if key = "CI_BUILDS_DIR".toList then some buildsDir
      else none := by
  unfold baseEnv
  rw [JobEnv.get_set, JobEnv.get_set, JobEnv.get_set, JobEnv.get_set, JobEnv.get_set]
  rfl

/-- The path of the CA as the job sees it. -/
def caPath (job : Job) (buildsDir : Chars) : Chars :=
  buildsDir ++ '/' :: tmpName (subdirOrDefault job) ++ '/' :: caKey

theorem get_runnerEnv (job : Job) (buildsDir : Chars) (dir : HostPath) (runner : RunnerVars)
    (key : Chars) :
    (runnerEnv job buildsDir dir runner).get key =
      if runner.caPem.isSome = true ∧ (key = "GIT_SSL_CAINFO".toList ∨ key = caKey) then
        some (caPath job buildsDir)
      else (setSharing job runner (baseEnv job buildsDir)).get key := by
  unfold runnerEnv
  cases runner.caPem with
  | none => exact (if_neg (by simp)).symm
  | some pem =>
      simp only [Option.isSome_some, true_and]
      rw [JobEnv.get_set, JobEnv.get_set]
      by_cases hca : key = "CI_SERVER_TLS_CA_FILE".toList
      · have hcaKey : key = "GIT_SSL_CAINFO".toList ∨ key = caKey := .inr hca
        rw [if_pos hca, if_pos hcaKey]
        rfl
      · rw [if_neg hca]
        by_cases hgit : key = "GIT_SSL_CAINFO".toList
        · have hgitKey : key = "GIT_SSL_CAINFO".toList ∨ key = caKey := .inl hgit
          rw [if_pos hgit, if_pos hgitKey]
          rfl
        · have hother : ¬ (key = "GIT_SSL_CAINFO".toList ∨ key = caKey) := not_or.mpr ⟨hgit, hca⟩
          rw [if_neg hgit, if_neg hother]
          rfl

/-- The other predefined variables have one value. -/
theorem get_runnerEnv_of_not_ofExecutor {job : Job} {buildsDir : Chars} {dir : HostPath}
    {runner : RunnerVars} {key : Chars} (h : ¬ OfExecutor job runner key) :
    ((runnerEnv job buildsDir dir runner).get key).getD [] =
      ((runnerEnv job [] [] {}).get key).getD [] := by
  unfold OfExecutor at h
  push Not at h
  obtain ⟨hbuilds, hproject, hdocker, hca⟩ := h
  have hbase : (baseEnv job buildsDir).get key = (baseEnv job []).get key := by
    rw [get_baseEnv, get_baseEnv, if_neg hproject, if_neg hbuilds, if_neg hproject,
      if_neg hbuilds]
  have hno : ¬ (runner.caPem.isSome = true ∧ (key = "GIT_SSL_CAINFO".toList ∨ key = caKey)) := by
    rintro ⟨hsome, hkey | hkey⟩
    · exact (hca hsome).1 hkey
    · exact (hca hsome).2 hkey
  rw [get_runnerEnv, if_neg hno, get_runnerEnv, if_neg (by simp), get_setSharing, get_setSharing,
    hbase]
  cases hdisposable : runner.disposable with
  | false => rfl
  | true =>
      obtain ⟨hdisp, hshared, himage⟩ := hdocker hdisposable
      simp only [if_true, Bool.false_eq_true, if_false, if_neg hshared]
      cases hjob : job.image with
      | none => simp only [if_neg hdisp]
      | some image =>
          simp only [if_neg hdisp]
          by_cases hkey : key = "CI_JOB_IMAGE".toList
          · have hname : image.name = [] := himage hkey image hjob
            rw [if_pos hkey, hname, hkey, get_baseEnv, if_neg (by decide), if_neg (by decide),
              if_neg (by decide), if_neg (by decide), if_neg (by decide)]
            rfl
          · rw [if_neg hkey]

theorem get_setSharing_of_ne {job : Job} {runner : RunnerVars} {env : JobEnv} {key : Chars}
    (himage : key ≠ "CI_JOB_IMAGE".toList) (hdisposable : key ≠ "CI_DISPOSABLE_ENVIRONMENT".toList)
    (hshared : key ≠ "CI_SHARED_ENVIRONMENT".toList) :
    (setSharing job runner env).get key = env.get key := by
  rw [get_setSharing, if_neg hshared]
  cases runner.disposable with
  | false => rfl
  | true =>
      cases job.image with
      | none => exact if_neg hdisposable
      | some image => exact (if_neg himage).trans (if_neg hdisposable)

theorem get_baseEnv_buildsDir (job : Job) (buildsDir : Chars) :
    (baseEnv job buildsDir).get "CI_BUILDS_DIR".toList = some buildsDir := by
  rw [get_baseEnv]
  rfl

theorem get_baseEnv_projectDir (job : Job) (buildsDir : Chars) :
    (baseEnv job buildsDir).get "CI_PROJECT_DIR".toList =
      some (buildsDir ++ '/' :: subdirOrDefault job) := by
  rw [get_baseEnv]
  rfl

/-- The executor's variables are other ones for the runner. -/
theorem get_runnerEnv_of_ofExecutor {job : Job} {buildsDir : Chars} (dir : HostPath)
    {runner : RunnerVars} {key : Chars} (hbuilds : buildsDir ≠ []) (h : OfExecutor job runner key) :
    ((runnerEnv job buildsDir dir runner).get key).getD [] ≠
      ((runnerEnv job [] [] {}).get key).getD [] := by
  have hrunner : (runnerEnv job [] [] {}).get key =
      if key = "CI_SHARED_ENVIRONMENT".toList then some "true".toList
      else (baseEnv job []).get key := by
    rw [get_runnerEnv, if_neg (by simp), get_setSharing]
    rfl
  by_cases hca : runner.caPem.isSome = true ∧ (key = "GIT_SSL_CAINFO".toList ∨ key = caKey)
  · -- the runner has no CA
    have hnone : (runnerEnv job [] [] {}).get key = none := by
      rw [hrunner, get_baseEnv]
      rcases hca.2 with rfl | rfl <;> rfl
    rw [get_runnerEnv, if_pos hca, hnone]
    unfold caPath
    simp
  · have hother : (runnerEnv job buildsDir dir runner).get key =
        (setSharing job runner (baseEnv job buildsDir)).get key := by
      rw [get_runnerEnv, if_neg hca]
    rw [hother]
    rcases h with rfl | rfl | ⟨hdisposable, rfl | rfl | ⟨rfl, image, himage, hname⟩⟩ | hcaKey
    · rw [hrunner, if_neg (by decide), get_setSharing_of_ne (by decide) (by decide) (by decide),
        get_baseEnv_buildsDir, get_baseEnv_buildsDir]
      exact hbuilds
    · rw [hrunner, if_neg (by decide), get_setSharing_of_ne (by decide) (by decide) (by decide),
        get_baseEnv_projectDir, get_baseEnv_projectDir]
      intro heq
      have hlength := congrArg List.length heq
      simp only [Option.getD_some, List.length_append, List.length_nil] at hlength
      exact hbuilds (List.eq_nil_of_length_eq_zero (by omega))
    · have htrue : (setSharing job runner (baseEnv job buildsDir)).get
          "CI_DISPOSABLE_ENVIRONMENT".toList = some "true".toList := by
        rw [get_setSharing, if_pos hdisposable]
        cases job.image <;> rfl
      rw [htrue, hrunner]
      exact fun heq => by cases heq
    · have hnone : (setSharing job runner (baseEnv job buildsDir)).get
          "CI_SHARED_ENVIRONMENT".toList = none := by
        rw [get_setSharing, if_pos hdisposable]
        cases job.image <;> rfl
      rw [hnone, hrunner, if_pos rfl]
      exact fun heq => by cases heq
    · have hsome : (setSharing job runner (baseEnv job buildsDir)).get
          "CI_JOB_IMAGE".toList = some image.name := by
        rw [get_setSharing, if_pos hdisposable, himage]
        rfl
      rw [hsome, hrunner]
      exact hname
    · exact absurd hcaKey hca

/-! ## Expanding with the two maps -/

/-- The job defines every variable of the executor, and none as a file. -/
structure Overrides (job : Job) (runner : RunnerVars) : Prop where
  executor : ∀ key, OfExecutor job runner key → (lastDefinition job key).isSome = true
  file : ∀ key v, lastDefinition job key = some v → v.file = false

/-- A reference to the name is a reference to the job's own text or to a value that the runner
has too. -/
def HasOneText (job : Job) (runner : RunnerVars) (key : Chars) : Prop :=
  (lastDefinition job key).isSome = true ∨ ¬ OfExecutor job runner key

/-- The name has one value for the job and for the runner. -/
def Alike (job : Job) (runner : RunnerVars) (key : Chars) : Prop :=
  match lastDefinition job key with
  | some v =>
      v.file = false ∧
        (v.raw = true ∨ ∀ k ∈ references (v.value.getD []), HasOneText job runner k)
  | none => ¬ OfExecutor job runner key

section TwoEnvironments

variable {job job' : Job} {buildsDir buildsDir' : Chars} {dir dir' : HostPath}
  {runner runner' : RunnerVars} {key : Chars}

/-- Two jobs that define a name alike expand it alike, if they do where neither defines it. -/
theorem expansionValues_congr (hlast : lastDefinition job' key = lastDefinition job key)
    (hnone : lastDefinition job key = none →
      ((runnerEnv job buildsDir dir runner).get key).getD [] =
        ((runnerEnv job' buildsDir' dir' runner').get key).getD []) :
    (expansionValues (runnerEnv job buildsDir dir runner) (validVariables job) key).getD [] =
      (expansionValues (runnerEnv job' buildsDir' dir' runner') (validVariables job')
        key).getD [] := by
  unfold lastDefinition at hlast hnone
  rw [expansionValues_eq, expansionValues_eq, hlast]
  cases hdef : (validVariables job).reverse.find? (·.key = key) with
  | some v => rfl
  | none => exact hnone hdef

/-- Two jobs that define a name alike, and not as a file, give it one value if what the
definition refers to has one text for both. -/
theorem get_jobEnv_congr (hlast : lastDefinition job' key = lastDefinition job key)
    (hnone : lastDefinition job key = none →
      ((runnerEnv job buildsDir dir runner).get key).getD [] =
        ((runnerEnv job' buildsDir' dir' runner').get key).getD [])
    (hsome : ∀ v, lastDefinition job key = some v → v.file = false ∧
      (v.raw = true ∨ ∀ k ∈ references (v.value.getD []),
        (expansionValues (runnerEnv job buildsDir dir runner) (validVariables job) k).getD [] =
          (expansionValues (runnerEnv job' buildsDir' dir' runner') (validVariables job')
            k).getD [])) :
    ((jobEnv job buildsDir dir runner).get key).getD [] =
      ((jobEnv job' buildsDir' dir' runner').get key).getD [] := by
  rw [get_jobEnv_or, get_jobEnv_or, hlast]
  cases hdef : lastDefinition job key with
  | none => exact hnone hdef
  | some v =>
      obtain ⟨hfile, htext⟩ := hsome v hdef
      rw [Option.map_some, Option.map_some, Option.some_or, Option.some_or, Option.getD_some,
        Option.getD_some, definedValue_of_not_file _ _ _ hfile,
        definedValue_of_not_file _ _ _ hfile]
      by_cases hraw : v.raw = true
      · rw [variableContent_of_raw _ hraw, variableContent_of_raw _ hraw]
      · rw [variableContent_of_not_raw _ hraw, variableContent_of_not_raw _ hraw]
        exact expand_congr (htext.resolve_left hraw)

end TwoEnvironments

section Alike

variable {job : Job} {buildsDir : Chars} {dir : HostPath} {runner : RunnerVars} {key : Chars}

theorem HasOneText.not_ofExecutor (h : HasOneText job runner key)
    (hnone : lastDefinition job key = none) : ¬ OfExecutor job runner key := by
  refine h.resolve_left ?_
  rw [hnone]
  exact Bool.false_ne_true

theorem expansionValues_of_hasOneText (h : HasOneText job runner key) :
    (expansionValues (runnerEnv job [] [] {}) (validVariables job) key).getD [] =
      (expansionValues (runnerEnv job buildsDir dir runner) (validVariables job) key).getD [] :=
  expansionValues_congr rfl fun hnone =>
    (get_runnerEnv_of_not_ofExecutor (h.not_ofExecutor hnone)).symm

theorem Alike.not_ofExecutor (h : Alike job runner key) (hnone : lastDefinition job key = none) :
    ¬ OfExecutor job runner key := by
  unfold Alike at h
  simpa only [hnone] using h

theorem Alike.of_some (h : Alike job runner key) {v : Variable}
    (hlast : lastDefinition job key = some v) :
    v.file = false ∧
      (v.raw = true ∨ ∀ k ∈ references (v.value.getD []), HasOneText job runner k) := by
  unfold Alike at h
  simpa only [hlast] using h

theorem get_of_alike (h : Alike job runner key) :
    (jobVariables job key).getD [] = ((jobEnv job buildsDir dir runner).get key).getD [] := by
  refine get_jobEnv_congr rfl (fun hnone => ?_) fun v hlast => ?_
  · exact (get_runnerEnv_of_not_ofExecutor (h.not_ofExecutor hnone)).symm
  · obtain ⟨hfile, htext⟩ := h.of_some hlast
    exact ⟨hfile, htext.imp_right fun htext k hk => expansionValues_of_hasOneText (htext k hk)⟩

/-- A template whose names are alike is expanded to one text. -/
theorem expand_of_alike {t : Chars} (h : ∀ key ∈ references t, Alike job runner key) :
    expand t (jobVariables job) = expand t (jobEnv job buildsDir dir runner).get :=
  expand_congr fun key hkey => get_of_alike (h key hkey)

theorem Overrides.alike (h : Overrides job runner) (key : Chars) : Alike job runner key := by
  unfold Alike
  cases hlast : lastDefinition job key with
  | none =>
      intro hexecutor
      have hsome := h.executor key hexecutor
      rw [hlast] at hsome
      cases hsome
  | some v =>
      refine ⟨h.file key v hlast, .inr fun k _ => ?_⟩
      by_cases hk : OfExecutor job runner k
      · exact .inl (h.executor k hk)
      · exact .inr hk

/-- **All templates are expanded to one text exactly if** the job defines every variable of the
executor, and none as a file. -/
theorem expand_eq_iff_overrides (hbuilds : buildsDir ≠ []) :
    (∀ t, expand t (jobVariables job) = expand t (jobEnv job buildsDir dir runner).get) ↔
      Overrides job runner := by
  constructor
  · intro h
    -- a reference to one name has its value
    have hget : ∀ key, isValidKey key = true →
        (jobVariables job key).getD [] = ((jobEnv job buildsDir dir runner).get key).getD [] := by
      intro key hkey
      rw [← expand_dollar _ hkey, ← expand_dollar _ hkey]
      exact h _
    constructor
    · intro key hkey
      by_contra hnone
      rw [Bool.not_eq_true, Option.isSome_eq_false_iff, Option.isNone_iff_eq_none] at hnone
      have heq := hget key (isValidKey_of_ofExecutor hkey)
      unfold jobVariables at heq
      rw [get_jobEnv_or, get_jobEnv_or, hnone, Option.map_none, Option.map_none, Option.none_or,
        Option.none_or] at heq
      exact get_runnerEnv_of_ofExecutor dir hbuilds hkey heq.symm
    · intro key v hlast
      by_contra hfile
      rw [Bool.not_eq_false] at hfile
      have heq := hget key (isValidKey_of_lastDefinition hlast).2
      unfold jobVariables at heq
      rw [get_jobEnv _ _ _ _ hlast, get_jobEnv _ _ _ _ hlast, definedValue, definedValue,
        if_pos hfile, if_pos hfile] at heq
      have hlength := congrArg List.length heq
      simp only [Option.getD_some, List.length_append, List.length_nil] at hlength
      exact hbuilds (List.eq_nil_of_length_eq_zero (by omega))
  · intro h t
    exact expand_of_alike fun key _ => h.alike key

end Alike

/-! ## The executors -/

theorem slash_not_mem_toDigits (n : Nat) : '/' ∉ Nat.toDigits 10 n := by
  intro h
  exact absurd (Names.isDigit_of_mem h) (by decide)

theorem workspace_isEntryName (job : Job) : IsEntryName (workspace job).1 := by
  have hhead : ∀ {c : Char} {rest : Chars}, c ≠ '.' → '/' ∉ c :: rest →
      IsEntryName (c :: rest) := by
    intro c rest hdot hslash
    exact ⟨List.cons_ne_nil c rest, fun heq => hdot (List.cons.inj heq).1,
      fun heq => hdot (List.cons.inj heq).1, hslash⟩
  cases hprotected : job.gitInfo.bind (·.protectedRef) with
  | none =>
      rw [workspace_of_none hprotected]
      refine hhead (by decide) ?_
      show '/' ∉ "job-".toList ++ Nat.toDigits 10 job.id
      rw [List.mem_append, not_or]
      exact ⟨by decide, slash_not_mem_toDigits _⟩
  | some p =>
      rw [workspace_of_some hprotected]
      refine hhead (by decide) ?_
      show '/' ∉ "project-".toList ++ (Nat.toDigits 10 (projectId job) ++
        ('-' :: (Nat.toDigits 10 job.projectSlot ++ protectedSuffix p)))
      rw [List.mem_append, List.mem_append, List.mem_cons, List.mem_append, not_or, not_or,
        not_or, not_or]
      refine ⟨by decide, slash_not_mem_toDigits _, by decide, slash_not_mem_toDigits _, ?_⟩
      cases p <;> decide

theorem Executor.buildsDir_ne_nil (executor : Executor) (buildsRoot : HostPath) (job : Job) :
    executor.buildsDir buildsRoot job ≠ [] := by
  cases executor with
  | docker =>
      show "/builds".toList ≠ []
      decide
  | shell =>
      show display (jobDir buildsRoot job) ≠ []
      unfold jobDir
      rw [joinPath_entry _ (workspace_isEntryName job), display, List.flatMap_append]
      simp

/-- **When the runner expands variables as the job sees them.** For a job and an executor, all
templates are expanded to the same text by the runner and with the job's environment exactly if
the job itself defines every predefined variable whose value is the executor's, and has no file
variables; and a template is, if each of its names is alike. -/
theorem job_variables_iff (executor : Executor) (buildsRoot : HostPath) (caPem : Option Chars)
    (job : Job) :
    ((∀ t, expand t (jobVariables job) = expand t (executor.env buildsRoot caPem job).get) ↔
      Overrides job (executor.runnerVars caPem)) ∧
    ∀ t, (∀ key ∈ references t, Alike job (executor.runnerVars caPem) key) →
      expand t (jobVariables job) = expand t (executor.env buildsRoot caPem job).get :=
  ⟨expand_eq_iff_overrides (executor.buildsDir_ne_nil buildsRoot job),
    fun _ h => expand_of_alike h⟩

/-- A job that defines one variable, and a cache key with it. -/
theorem job_variables_iff_branch :
    expand "deps-$BRANCH".toList
        (jobVariables { id := 1, token := [], vars := [{ key := "BRANCH".toList,
                                                         value := some "main".toList }] }) =
      expand "deps-$BRANCH".toList
        (Executor.docker.env [] none
          { id := 1, token := [], vars := [{ key := "BRANCH".toList,
                                             value := some "main".toList }] }).get := by
  refine (job_variables_iff .docker [] none _).2 _ fun key hkey => ?_
  have hnames : references "deps-$BRANCH".toList = ["BRANCH".toList] := by decide
  rw [hnames, List.mem_singleton] at hkey
  rw [hkey]
  refine ⟨rfl, .inr fun k hk => ?_⟩
  have hnone : references "main".toList = [] := by decide
  exact absurd (hnone ▸ hk) List.not_mem_nil

/-- A job without variables, and a path below its project: **the runner looks for `/project/out`,
and for the job it is `/builds/project/out`.** -/
theorem expand_project_dir :
    expand "$CI_PROJECT_DIR/out".toList (jobVariables { id := 1, token := [] }) =
        "/project/out".toList ∧
      expand "$CI_PROJECT_DIR/out".toList
          (Executor.docker.env [] none { id := 1, token := [] }).get =
        "/builds/project/out".toList ∧
      ¬ ∀ job t, expand t (jobVariables job) = expand t (Executor.docker.env [] none job).get := by
  have hrunner : expand "$CI_PROJECT_DIR/out".toList (jobVariables { id := 1, token := [] }) =
      "/project/out".toList := by decide
  have hjob : expand "$CI_PROJECT_DIR/out".toList
      (Executor.docker.env [] none { id := 1, token := [] }).get =
        "/builds/project/out".toList := by decide
  refine ⟨hrunner, hjob, fun hall => ?_⟩
  have heq := hall { id := 1, token := [] } "$CI_PROJECT_DIR/out".toList
  rw [hrunner, hjob] at heq
  exact absurd heq (by decide)

end TurboCi
