import TurboCi.RunnerDaemon.JobVariables
import TurboCi.Security.JobSecrets

set_option autoImplicit false

/-! # The last definition decides

A job may define a variable more than once. Its environment holds one value for each key, that of
the last definition, and the order of the variables matters for nothing else
(`jobEnv_one_value`). Of the files this is so only where no file variable is overridden by a plain
one: the round of the loop over a plain variable leaves the file of an earlier one where it is
(`files_agree_iff`).
-/

namespace TurboCi

/-! ## One value for each key -/

/-- No two variables of the environment have the same name. -/
def JobEnv.KeysDistinct (env : JobEnv) : Prop := (env.vars.map Prod.fst).Nodup

theorem JobEnv.KeysDistinct.set {env : JobEnv} (h : env.KeysDistinct) (key value : Chars) :
    (env.set key value).KeysDistinct := by
  have hkept : ((env.vars.filter (·.1 ≠ key)).map Prod.fst).Nodup :=
    h.sublist (List.filter_sublist.map Prod.fst)
  have hnew : key ∉ (env.vars.filter (·.1 ≠ key)).map Prod.fst := by
    rw [List.mem_map]
    rintro ⟨p, hp, rfl⟩
    have hother := (List.mem_filter.mp hp).2
    simp at hother
  show ((env.vars.filter (·.1 ≠ key) ++ [(key, value)]).map Prod.fst).Nodup
  rw [List.map_append, List.map_singleton]
  exact List.nodup_append.mpr ⟨hkept, List.nodup_singleton key, fun a ha b hb => by
    rw [List.mem_singleton.mp hb]
    rintro rfl
    exact hnew ha⟩

theorem keysDistinct_setSharing {env : JobEnv} (h : env.KeysDistinct) (job : Job)
    (runner : RunnerVars) : (setSharing job runner env).KeysDistinct := by
  unfold setSharing
  split
  · cases job.image with
    | none => exact h.set _ _
    | some image => exact (h.set _ _).set _ _
  · exact h.set _ _

theorem keysDistinct_runnerEnv (job : Job) (buildsDir : Chars) (dir : HostPath)
    (runner : RunnerVars) : (runnerEnv job buildsDir dir runner).KeysDistinct := by
  have hnil : (⟨[], []⟩ : JobEnv).KeysDistinct := List.nodup_nil
  have hbase := (((((hnil.set "CI_BUILDS_DIR".toList buildsDir).set "CI_PROJECT_DIR".toList
    (buildsDir ++ '/' :: subdirOrDefault job)).set "CI_SERVER".toList "yes".toList).set
    "CI_JOB_STATUS".toList "running".toList).set "CI_JOB_TIMEOUT".toList
    (Nat.toDigits 10 (job.timeoutSecs.getD 3600)))
  have hsharing := keysDistinct_setSharing hbase job runner
  unfold runnerEnv
  cases runner.caPem with
  | none => exact hsharing
  | some pem =>
      apply JobEnv.KeysDistinct.set
      apply JobEnv.KeysDistinct.set
      exact hsharing

section SetVariable

variable (values : Values) (buildsDir : Chars) (dir : HostPath) (subdir : Chars)

theorem keysDistinct_setVariable {env : JobEnv} (h : env.KeysDistinct) (v : Variable) :
    (setVariable values buildsDir dir subdir env v).KeysDistinct := by
  unfold setVariable
  cases v.file with
  | false => exact h.set _ _
  | true =>
      apply JobEnv.KeysDistinct.set
      exact h

theorem keysValid_setVariable {env : JobEnv} (h : env.KeysValid) {v : Variable}
    (hkey : isValidKey v.key = true) :
    (setVariable values buildsDir dir subdir env v).KeysValid := by
  unfold setVariable
  cases v.file with
  | false => exact h.set hkey _
  | true =>
      apply JobEnv.KeysValid.set _ hkey
      exact h

theorem foldl_setVariable_keys : ∀ (vs : List Variable) {env : JobEnv},
    (∀ v ∈ vs, isValidKey v.key = true) → env.KeysDistinct → env.KeysValid →
      (vs.foldl (setVariable values buildsDir dir subdir) env).KeysDistinct ∧
        (vs.foldl (setVariable values buildsDir dir subdir) env).KeysValid := by
  intro vs
  induction vs with
  | nil => exact fun _ hdistinct hvalid => ⟨hdistinct, hvalid⟩
  | cons v vs ih =>
      intro env hvs hdistinct hvalid
      apply ih fun w hw => hvs w (List.mem_cons_of_mem v hw)
      · exact keysDistinct_setVariable values buildsDir dir subdir hdistinct v
      · exact keysValid_setVariable values buildsDir dir subdir hvalid (hvs v List.mem_cons_self)

end SetVariable

theorem isValidKey_of_mem_validVariables {job : Job} {v : Variable}
    (h : v ∈ validVariables job) : isValidKey v.key = true := (List.mem_filter.mp h).2

/-- The keys of the environment are distinct and valid. -/
theorem jobEnv_keys (job : Job) (buildsDir : Chars) (dir : HostPath) (runner : RunnerVars) :
    (jobEnv job buildsDir dir runner).KeysDistinct ∧
      (jobEnv job buildsDir dir runner).KeysValid :=
  foldl_setVariable_keys _ _ _ _ (validVariables job)
    (fun _ hv => isValidKey_of_mem_validVariables hv)
    (keysDistinct_runnerEnv job buildsDir dir runner) (runnerEnv_keysValid job buildsDir dir runner)

/-! ## The order of the variables

Variables are reordered where each key has the same definitions in the same order. -/

def Reordered (vs vs' : List Variable) : Prop :=
  ∀ key, vs'.filter (·.key = key) = vs.filter (·.key = key)

section Reordered

variable {vs vs' : List Variable}

theorem reverse_find?_eq (vs : List Variable) (key : Chars) :
    vs.reverse.find? (·.key = key) = (vs.filter (·.key = key)).getLast? := by
  rw [← List.head?_filter, List.filter_reverse, List.head?_reverse]

theorem Reordered.find? (h : Reordered vs vs') (key : Chars) :
    vs'.reverse.find? (·.key = key) = vs.reverse.find? (·.key = key) := by
  rw [reverse_find?_eq, reverse_find?_eq, h key]

theorem Reordered.filter (h : Reordered vs vs') (p : Variable → Bool) :
    Reordered (vs.filter p) (vs'.filter p) := by
  intro key
  rw [List.filter_comm, h key, List.filter_comm]

end Reordered

section TwoOrders

variable {job : Job} {vs : List Variable}

theorem lastDefinition_reordered (h : Reordered job.vars vs) (key : Chars) :
    lastDefinition { job with vars := vs } key = lastDefinition job key :=
  (h.filter fun v => isValidKey v.key).find? key

theorem variableValues_reordered (h : Reordered job.vars vs) :
    variableValues { job with vars := vs } = variableValues job := by
  have hfind : ∀ (vs : List Variable) (key : Chars),
      (vs.reverse.find? fun v => v.key = key && v.value.isSome) =
        ((vs.filter (·.key = key)).reverse.find? (·.value.isSome)) := by
    intro vs key
    rw [← List.filter_reverse, List.find?_filter]
    congr 1
    funext v
    simp
  funext key
  rw [variableValues_eq, variableValues_eq, hfind, hfind, h key]

theorem subdirOrDefault_reordered (h : Reordered job.vars vs) :
    subdirOrDefault { job with vars := vs } = subdirOrDefault job := by
  have hclone : variableValue { job with vars := vs } "GIT_CLONE_PATH".toList =
      variableValue job "GIT_CLONE_PATH".toList :=
    congrArg (Option.bind · Variable.value) (h.find? "GIT_CLONE_PATH".toList)
  have hsubdir : projectSubdir { job with vars := vs } = projectSubdir job := by
    simp only [projectSubdir, hclone, variableValues_reordered h]
  rw [subdirOrDefault, hsubdir]
  rfl

theorem runnerEnv_reordered (h : Reordered job.vars vs) (buildsDir : Chars) (dir : HostPath)
    (runner : RunnerVars) :
    runnerEnv { job with vars := vs } buildsDir dir runner =
      runnerEnv job buildsDir dir runner := by
  unfold runnerEnv
  rw [subdirOrDefault_reordered h]
  rfl

theorem expansionValues_reordered (h : Reordered job.vars vs) (env : JobEnv) :
    expansionValues env (validVariables { job with vars := vs }) =
      expansionValues env (validVariables job) := by
  funext key
  have hlast := lastDefinition_reordered h key
  unfold lastDefinition at hlast
  rw [expansionValues_eq, expansionValues_eq, hlast]

theorem get_jobEnv_reordered (h : Reordered job.vars vs) (buildsDir : Chars) (dir : HostPath)
    (runner : RunnerVars) (key : Chars) :
    (jobEnv { job with vars := vs } buildsDir dir runner).get key =
      (jobEnv job buildsDir dir runner).get key := by
  rw [get_jobEnv_or, get_jobEnv_or, lastDefinition_reordered h, runnerEnv_reordered h,
    subdirOrDefault_reordered h, expansionValues_reordered h]

end TwoOrders

/-- The values that an expansion uses: every valid variable as its last definition writes it, and
otherwise the runner's own. -/
def writtenValues (job : Job) (buildsDir : Chars) (dir : HostPath) (runner : RunnerVars) :
    Values := fun key =>
  ((lastDefinition job key).map fun v => v.value.getD []).or
    ((runnerEnv job buildsDir dir runner).get key)

theorem expansionValues_eq_written (job : Job) (buildsDir : Chars) (dir : HostPath)
    (runner : RunnerVars) :
    expansionValues (runnerEnv job buildsDir dir runner) (validVariables job) =
      writtenValues job buildsDir dir runner :=
  funext fun key => expansionValues_eq _ _ key

/-- **The environment has one value for each key, which does not depend on the order of the
variables.** -/
theorem jobEnv_one_value (job : Job) (buildsDir : Chars) (dir : HostPath) (runner : RunnerVars) :
    ((jobEnv job buildsDir dir runner).vars.map Prod.fst).Nodup ∧
    (∀ p ∈ (jobEnv job buildsDir dir runner).vars, isValidKey p.1 = true) ∧
    (∀ key v, lastDefinition job key = some v →
      (jobEnv job buildsDir dir runner).get key = some (
        if v.file then buildsDir ++ '/' :: subdirOrDefault job ++ ".tmp/".toList ++ key
        else if v.raw then v.value.getD []
        else expand (v.value.getD []) (writtenValues job buildsDir dir runner))) ∧
    ∀ vs, (∀ key, vs.filter (·.key = key) = job.vars.filter (·.key = key)) →
      ∀ key, (jobEnv { job with vars := vs } buildsDir dir runner).get key =
        (jobEnv job buildsDir dir runner).get key := by
  obtain ⟨hdistinct, hvalid⟩ := jobEnv_keys job buildsDir dir runner
  refine ⟨hdistinct, hvalid, fun key v hlast => ?_,
    fun vs hvs => get_jobEnv_reordered hvs buildsDir dir runner⟩
  rw [get_jobEnv job buildsDir dir runner hlast, expansionValues_eq_written, definedValue,
    (isValidKey_of_lastDefinition hlast).1]
  congr 2
  simp [tmpName]

/-! ## The files

The runner writes every entry of `files` to disk before the job's scripts run. -/

/-- The file of a definition. -/
def fileEntry (job : Job) (buildsDir : Chars) (dir : HostPath) (runner : RunnerVars)
    (v : Variable) : HostPath × Chars :=
  (filePath dir (subdirOrDefault job) v.key,
    variableContent (expansionValues (runnerEnv job buildsDir dir runner) (validVariables job)) v)

/-- The files are those of the keys whose last definition is a file variable, one for each. -/
structure FilesAgree (job : Job) (buildsDir : Chars) (dir : HostPath) (runner : RunnerVars) :
    Prop where
  distinct : ((jobEnv job buildsDir dir runner).files.map Prod.fst).Nodup
  mem_iff : ∀ f, f ∈ (jobEnv job buildsDir dir runner).files ↔
    ∃ key v, lastDefinition job key = some v ∧ v.file = true ∧
      f = fileEntry job buildsDir dir runner v

/-- The last definition of a key among those that are files. -/
def lastFile (vs : List Variable) (key : Chars) : Option Variable :=
  vs.reverse.find? fun v => v.key = key && v.file

theorem filePath_inj {dir : HostPath} {subdir key key' : Chars}
    (h : filePath dir subdir key = filePath dir subdir key') : key = key' := by
  have hlast := congrArg List.getLast? h
  rw [getLast?_filePath, getLast?_filePath] at hlast
  exact Option.some.inj hlast

theorem lastFile_concat (vs : List Variable) (v : Variable) (key : Chars) :
    lastFile (vs ++ [v]) key =
      if v.key = key ∧ v.file = true then some v else lastFile vs key := by
  unfold lastFile
  rw [List.reverse_append, List.reverse_singleton, List.singleton_append, List.find?_cons]
  by_cases hv : v.key = key ∧ v.file = true
  · rw [if_pos hv]
    simp [hv.1, hv.2]
  · rw [if_neg hv]
    have hfalse : (decide (v.key = key) && v.file) = false := by
      rw [Bool.eq_false_iff]
      intro htrue
      exact hv (by simpa using htrue)
    rw [hfalse]

theorem key_of_lastFile {vs : List Variable} {key : Chars} {v : Variable}
    (h : lastFile vs key = some v) : v ∈ vs ∧ v.key = key ∧ v.file = true := by
  have hv : v.key = key ∧ v.file = true := by simpa using List.find?_some h
  exact ⟨List.mem_reverse.mp (List.mem_of_find?_eq_some h), hv⟩

section Files

variable {values : Values} {dir : HostPath} {subdir : Chars} {vs : List Variable}
  {files : List (HostPath × Chars)}

/-- One file for each key that has one among the definitions, with the content of the last. -/
structure HoldsLastFiles (values : Values) (dir : HostPath) (subdir : Chars) (vs : List Variable)
    (files : List (HostPath × Chars)) : Prop where
  distinct : (files.map Prod.fst).Nodup
  mem_iff : ∀ f, f ∈ files ↔ ∃ key v, lastFile vs key = some v ∧
    f = (filePath dir subdir v.key, variableContent values v)

theorem HoldsLastFiles.nil : HoldsLastFiles values dir subdir [] [] :=
  ⟨List.nodup_nil, fun f => by simp [lastFile]⟩

/-- A file variable replaces the file of its key. -/
theorem HoldsLastFiles.file (h : HoldsLastFiles values dir subdir vs files) {w : Variable}
    (hfile : w.file = true) :
    HoldsLastFiles values dir subdir (vs ++ [w])
      (files.filter (fun f => f.1.getLast? ≠ some w.key) ++
        [(filePath dir subdir w.key, variableContent values w)]) := by
  constructor
  · rw [List.map_append, List.map_singleton]
    refine List.nodup_append.mpr
      ⟨h.distinct.sublist (List.filter_sublist.map Prod.fst), List.nodup_singleton _, ?_⟩
    intro path hpath path' hpath' heq
    obtain ⟨f, hf, rfl⟩ := List.mem_map.mp hpath
    have hother := of_decide_eq_true (List.mem_filter.mp hf).2
    rw [heq, List.mem_singleton.mp hpath'] at hother
    exact hother (getLast?_filePath dir subdir w.key)
  · intro f
    rw [List.mem_append, List.mem_filter, List.mem_singleton, h.mem_iff]
    constructor
    · rintro (⟨⟨key, v, hlast, rfl⟩, hother⟩ | rfl)
      · -- a file that is kept is of another key
        have hkey : v.key = key := (key_of_lastFile hlast).2.1
        have hne : ¬ (w.key = key ∧ w.file = true) := by
          rintro ⟨hw, -⟩
          have hpath := getLast?_filePath dir subdir v.key
          rw [hkey, ← hw] at hpath
          rw [hkey, ← hw] at hother
          exact of_decide_eq_true hother hpath
        exact ⟨key, v, by rw [lastFile_concat, if_neg hne, hlast], rfl⟩
      · exact ⟨w.key, w, by rw [lastFile_concat, if_pos ⟨rfl, hfile⟩], rfl⟩
    · rintro ⟨key, v, hlast, rfl⟩
      rw [lastFile_concat] at hlast
      by_cases hw : w.key = key ∧ w.file = true
      · rw [if_pos hw] at hlast
        obtain rfl := Option.some.inj hlast
        exact .inr rfl
      · rw [if_neg hw] at hlast
        refine .inl ⟨⟨key, v, hlast, rfl⟩, decide_eq_true ?_⟩
        rw [getLast?_filePath, (key_of_lastFile hlast).2.1]
        intro heq
        exact hw ⟨(Option.some.inj heq).symm, hfile⟩

/-- A plain definition leaves the files as they are. -/
theorem HoldsLastFiles.plain (h : HoldsLastFiles values dir subdir vs files) {w : Variable}
    (hfile : ¬ w.file = true) : HoldsLastFiles values dir subdir (vs ++ [w]) files := by
  have hsame : ∀ key, lastFile (vs ++ [w]) key = lastFile vs key := fun key => by
    rw [lastFile_concat, if_neg fun hw => hfile hw.2]
  refine ⟨h.distinct, fun f => ?_⟩
  rw [h.mem_iff]
  simp only [hsame]

theorem holdsLastFiles_foldl (values : Values) (buildsDir : Chars) (dir : HostPath)
    (subdir : Chars) (vars : List (Chars × Chars)) (vs : List Variable) :
    HoldsLastFiles values dir subdir vs
      (vs.foldl (setVariable values buildsDir dir subdir) ⟨vars, []⟩).files := by
  induction vs using List.reverseRecOn with
  | nil => exact .nil
  | append_singleton vs w ih =>
      rw [List.foldl_append, List.foldl_cons, List.foldl_nil, files_setVariable]
      by_cases hfile : w.file = true
      · rw [if_pos hfile]
        exact ih.file hfile
      · rw [if_neg hfile]
        exact ih.plain hfile

end Files

/-- The files of a job without a CA. -/
theorem holdsLastFiles_jobEnv (job : Job) (buildsDir : Chars) (dir : HostPath)
    (disposable : Bool) :
    HoldsLastFiles
      (expansionValues (runnerEnv job buildsDir dir { disposable }) (validVariables job)) dir
      (subdirOrDefault job) (validVariables job)
      (jobEnv job buildsDir dir { disposable }).files := by
  have hnone : (runnerEnv job buildsDir dir { disposable }).files = [] :=
    files_runnerEnv job buildsDir dir { disposable }
  have henv : runnerEnv job buildsDir dir { disposable } =
      ⟨(runnerEnv job buildsDir dir { disposable }).vars, []⟩ := by rw [← hnone]
  have hfold := holdsLastFiles_foldl
    (expansionValues (runnerEnv job buildsDir dir { disposable }) (validVariables job)) buildsDir
    dir (subdirOrDefault job) (runnerEnv job buildsDir dir { disposable }).vars
    (validVariables job)
  rw [← henv] at hfold
  exact hfold

/-- A last definition that is a file is the last file. -/
theorem lastFile_of_lastDefinition {job : Job} {key : Chars} {v : Variable}
    (h : lastDefinition job key = some v) (hfile : v.file = true) :
    lastFile (validVariables job) key = some v := by
  have hfind : (validVariables job).reverse.find? (·.key = key) = some v := h
  obtain ⟨hkey, before, after, heq, hbefore⟩ := List.find?_eq_some_iff_append.mp hfind
  refine List.find?_eq_some_iff_append.mpr ⟨?_, before, after, heq, ?_⟩
  · rw [hfile, Bool.and_true]
    exact hkey
  · intro u hu
    have hother := hbefore u hu
    simp only [Bool.not_eq_true', decide_eq_false_iff_not] at hother ⊢
    simp [hother]

/-- A file variable has a last file and its key a last definition. -/
theorem exists_lastFile {job : Job} {v : Variable} (hv : v ∈ validVariables job)
    (hfile : v.file = true) : ∃ w, lastFile (validVariables job) v.key = some w := by
  apply Option.isSome_iff_exists.mp
  rw [lastFile, List.find?_isSome]
  exact ⟨v, List.mem_reverse.mpr hv, by simp [hfile]⟩

/-- **Files and variables agree exactly if** no file variable is overridden by a plain one. -/
theorem files_agree_iff (job : Job) (buildsDir : Chars) (dir : HostPath) (disposable : Bool) :
    FilesAgree job buildsDir dir { disposable } ↔
      ∀ v ∈ validVariables job, v.file = true →
        ∃ w, lastDefinition job v.key = some w ∧ w.file = true := by
  obtain ⟨hdistinct, hmem⟩ := holdsLastFiles_jobEnv job buildsDir dir disposable
  constructor
  · intro h v hv hfile
    obtain ⟨w, hlast⟩ := exists_lastFile hv hfile
    -- the entry of the last file of the key is that of some key with a file as its last definition
    have hentry : fileEntry job buildsDir dir { disposable } w ∈
        (jobEnv job buildsDir dir { disposable }).files := (hmem _).mpr ⟨_, w, hlast, rfl⟩
    obtain ⟨key, u, hu, hufile, heq⟩ := (h.mem_iff _).mp hentry
    have hpath : filePath dir (subdirOrDefault job) w.key =
        filePath dir (subdirOrDefault job) u.key := congrArg Prod.fst heq
    have hkey : v.key = key := by
      rw [← (isValidKey_of_lastDefinition hu).1, ← filePath_inj hpath, (key_of_lastFile hlast).2.1]
    exact ⟨u, by rw [hkey, hu], hufile⟩
  · intro h
    refine ⟨hdistinct, fun f => ?_⟩
    rw [hmem]
    constructor
    · rintro ⟨key, v, hlast, rfl⟩
      obtain ⟨hv, hkey, hfile⟩ := key_of_lastFile hlast
      obtain ⟨w, hw, hwfile⟩ := h v hv hfile
      rw [hkey] at hw
      have hsame : some w = some v := (lastFile_of_lastDefinition hw hwfile).symm.trans hlast
      obtain rfl := Option.some.inj hsame
      exact ⟨key, w, hw, hwfile, rfl⟩
    · rintro ⟨key, v, hlast, hfile, rfl⟩
      exact ⟨key, v, lastFile_of_lastDefinition hlast hfile, rfl⟩

/-- A job that overrides a file variable. -/
def overriddenJob : Job where
  id := 1
  token := []
  vars := [{ key := "KEY".toList, value := some "secret".toList, file := true },
    { key := "KEY".toList, value := some "none".toList }]

/-- **The content of an overridden file variable is written**: the job sees `KEY=none`, and the
file with the secret is beside its project. -/
theorem not_filesAgree_overridden :
    ¬ FilesAgree overriddenJob "/builds".toList ["host".toList] { disposable := true } ∧
      (jobEnv overriddenJob "/builds".toList ["host".toList] { disposable := true }).get
        "KEY".toList = some "none".toList ∧
      (jobEnv overriddenJob "/builds".toList ["host".toList] { disposable := true }).files =
        [(["host".toList, "project.tmp".toList, "KEY".toList], "secret".toList)] := by
  have hfiles :
      (jobEnv overriddenJob "/builds".toList ["host".toList] { disposable := true }).files =
        [(["host".toList, "project.tmp".toList, "KEY".toList], "secret".toList)] := by
    decide
  refine ⟨fun h => ?_, by decide, hfiles⟩
  have hmem := h.mem_iff (["host".toList, "project.tmp".toList, "KEY".toList], "secret".toList)
  rw [hfiles] at hmem
  obtain ⟨key, v, hlast, hfile, heq⟩ := hmem.mp List.mem_cons_self
  have hpath : filePath ["host".toList] (subdirOrDefault overriddenJob) "KEY".toList =
      filePath ["host".toList] (subdirOrDefault overriddenJob) v.key :=
    (show _ = ["host".toList, "project.tmp".toList, "KEY".toList] by decide).trans
      (congrArg Prod.fst heq)
  rw [← (isValidKey_of_lastDefinition hlast).1, ← filePath_inj hpath] at hlast
  have hplain : lastDefinition overriddenJob "KEY".toList =
      some { key := "KEY".toList, value := some "none".toList } := by decide
  rw [hplain] at hlast
  rw [← Option.some.inj hlast] at hfile
  cases hfile

end TurboCi
