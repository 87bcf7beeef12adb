import TurboCi.RunnerDaemon.Script
import TurboCi.RunnerDaemon.Slots

set_option autoImplicit false

/-! # The files of file variables

A job's `file` variables and its CA are written to one directory beside the project, which is
removed before and after the job (`runner_daemon/script.rs`, `runner_daemon/executor.rs`).
Whatever the keys of the variables and `GIT_CLONE_PATH` are, that directory holds all of them, is
inside the job's directory and apart from the project (`file_variables_confined`).
-/

namespace TurboCi

/-! ## Host paths -/

/-- `Path::components` of a text: `.` and repeated slashes are skipped. -/
def pathComponents (text : Chars) : HostPath :=
  (text.splitOn '/').filter fun part => part ≠ [] && part ≠ ['.']

/-- `Path::join`: an absolute path replaces the whole path. -/
def joinPath (path : HostPath) (text : Chars) : HostPath :=
  if text.head? = some '/' then pathComponents text else path ++ pathComponents text

/-- The name of an entry of a directory. -/
structure IsEntryName (name : Chars) : Prop where
  ne_nil : name ≠ []
  ne_dot : name ≠ ['.']
  ne_dotdot : name ≠ ['.', '.']
  no_slash : '/' ∉ name

/-- The path is below the directory, by names of entries only. -/
def StrictlyInside (dir path : HostPath) : Prop :=
  ∃ names : List Chars, names ≠ [] ∧ (∀ name ∈ names, IsEntryName name) ∧ path = dir ++ names

/-! ## The directories -/

/-- Host directory of the job's workspace. -/
def jobDir (buildsRoot : HostPath) (job : Job) : HostPath := joinPath buildsRoot (workspace job).1

/-- Host directory of the job's file variables. -/
def variablesDir (jobDir : HostPath) (job : Job) : HostPath :=
  joinPath jobDir (tmpName (subdirOrDefault job))

/-- The paths that exist on the host, one by one. -/
abbrev HostTree := List HostPath

/-- `rm -rf` -/
def removeDir (dir : HostPath) (tree : HostTree) : HostTree :=
  tree.filter fun path => !dir.isPrefixOf path

def lastUsed : Chars := ".turboci-last-used".toList

/-- Mark the job's workspace as used now and remove what an earlier job left of its file
variables. -/
def prepare (buildsRoot : HostPath) (job : Job) (tree : HostTree) : HostTree :=
  let dir := jobDir buildsRoot job
  removeDir (variablesDir dir job) (joinPath dir lastUsed :: dir.inits ++ tree)

/-- Remove the job's file variables and, unless the workspace is kept for the project's next job,
the whole workspace. -/
def cleanup (buildsRoot : HostPath) (job : Job) (keepWorkspace : Bool) (tree : HostTree) :
    HostTree :=
  let dir := jobDir buildsRoot job
  if keepWorkspace ∧ (workspace job).2 then removeDir (variablesDir dir job) tree
  else removeDir dir tree

theorem not_mem_removeDir {dir path : HostPath} (h : dir <+: path) (tree : HostTree) :
    path ∉ removeDir dir tree := by
  intro hmem
  have hkept := (List.mem_filter.mp hmem).2
  rw [List.isPrefixOf_iff_prefix.mpr h] at hkept
  cases hkept

/-! ## Names of entries -/

theorem isEntryName_of_isValidKey {key : Chars} (h : isValidKey key = true) :
    IsEntryName key := by
  cases key with
  | nil => cases h
  | cons c cs =>
      obtain ⟨hfirst, hrest⟩ := Bool.and_eq_true_iff.mp h
      have hdot : c ≠ '.' := by
        rintro rfl
        exact absurd hfirst (by decide)
      refine ⟨List.cons_ne_nil c cs, ?_, ?_, ?_⟩
      · intro heq
        exact hdot (List.cons.inj heq).1
      · intro heq
        exact hdot (List.cons.inj heq).1
      · intro hslash
        rcases List.mem_cons.mp hslash with rfl | hmem
        · exact absurd hfirst (by decide)
        · exact absurd (List.all_eq_true.mp hrest '/' hmem) (by decide)

theorem isEntryName_of_isPathPart {part : Chars} (h : isPathPart part = true) :
    IsEntryName part := by
  simp only [isPathPart, Bool.and_eq_true, decide_eq_true_eq] at h
  obtain ⟨⟨⟨hnil, hdot⟩, hdotdot⟩, hall⟩ := h
  refine ⟨hnil, hdot, hdotdot, fun hslash => ?_⟩
  exact absurd (List.all_eq_true.mp hall '/' hslash) (by decide)

theorem IsEntryName.tmpName {part : Chars} (h : IsEntryName part) : IsEntryName (tmpName part) := by
  have hlength : (TurboCi.tmpName part).length = part.length + 4 := List.length_append
  refine ⟨?_, ?_, ?_, ?_⟩
  · intro heq
    rw [heq, List.length_nil] at hlength
    omega
  · intro heq
    rw [heq, List.length_singleton] at hlength
    omega
  · intro heq
    rw [heq] at hlength
    simp at hlength
  · intro hslash
    rcases List.mem_append.mp hslash with hmem | hmem
    · exact h.no_slash hmem
    · exact absurd hmem (by decide)

/-- A path whose parts are names of entries is taken apart into them. -/
theorem joinPath_of_entries (path : HostPath) {text : Chars}
    (h : ∀ part ∈ text.splitOn '/', IsEntryName part) :
    joinPath path text = path ++ text.splitOn '/' := by
  have hcomponents : pathComponents text = text.splitOn '/' := by
    refine List.filter_eq_self.mpr fun part hpart => ?_
    simp [(h part hpart).ne_nil, (h part hpart).ne_dot]
  have hrelative : text.head? ≠ some '/' := by
    intro hhead
    obtain ⟨rest, rfl⟩ := List.head?_eq_some_iff.mp hhead
    refine (h [] ?_).ne_nil rfl
    rw [List.splitOn, List.splitOnP_cons_eq_if_modifyHead]
    exact List.mem_cons_self
  rw [joinPath, if_neg hrelative, hcomponents]

theorem splitOn_of_not_mem {text : Chars} (h : '/' ∉ text) : text.splitOn '/' = [text] := by
  have hparts : ∀ part ∈ [text], '/' ∉ part := by simpa using h
  have hsplit := List.splitOn_intercalate '/' hparts (List.cons_ne_nil text [])
  rwa [List.intercalate_singleton] at hsplit

theorem joinPath_entry (path : HostPath) {name : Chars} (h : IsEntryName name) :
    joinPath path name = path ++ [name] := by
  have hsplit : name.splitOn '/' = [name] := splitOn_of_not_mem h.no_slash
  rw [joinPath_of_entries path (by rw [hsplit]; simpa using h), hsplit]

/-- A text after the last slash only makes the last part longer. -/
theorem splitOn_append {t : Chars} (ht : '/' ∉ t) (s : Chars) :
    ∃ names last, s.splitOn '/' = names ++ [last] ∧
      (s ++ t).splitOn '/' = names ++ [last ++ t] := by
  induction s with
  | nil => exact ⟨[], [], rfl, splitOn_of_not_mem ht⟩
  | cons c s ih =>
      obtain ⟨names, last, hs, hst⟩ := ih
      unfold List.splitOn at hs hst ⊢
      rw [List.cons_append, List.splitOnP_cons_eq_if_modifyHead,
        List.splitOnP_cons_eq_if_modifyHead, hs, hst]
      by_cases hc : (c == '/') = true
      · rw [if_pos hc, if_pos hc]
        exact ⟨[] :: names, last, rfl, rfl⟩
      · rw [if_neg hc, if_neg hc]
        cases names with
        | nil => exact ⟨[], c :: last, rfl, rfl⟩
        | cons name names => exact ⟨(c :: name) :: names, last, rfl, rfl⟩

/-! ## The project and its file variables -/

theorem isEntryName_subdir (job : Job) :
    ∀ part ∈ (subdirOrDefault job).splitOn '/', IsEntryName part := by
  have hproject : ∀ part ∈ "project".toList.splitOn '/', IsEntryName part := by
    intro part hpart
    have heq : part ∈ ["project".toList] := hpart
    rw [List.mem_singleton.mp heq]
    exact isEntryName_of_isPathPart (by decide)
  unfold subdirOrDefault
  cases hsubdir : projectSubdir job with
  | error e => exact hproject
  | ok subdir =>
      simp only [projectSubdir] at hsubdir
      split at hsubdir
      · rw [← Except.ok.inj hsubdir]
        exact hproject
      · split at hsubdir
        · cases hsubdir
        · -- the expanded clone path is checked part by part
          split at hsubdir
          · next hvalid =>
              rw [← Except.ok.inj hsubdir]
              intro part hpart
              exact isEntryName_of_isPathPart (List.all_eq_true.mp hvalid.2 part hpart)
          · cases hsubdir

/-- The parts of the project's path below the job's directory, and of the path of its file
variables: they differ in the last one. -/
theorem exists_names (job : Job) :
    ∃ names last, (∀ name ∈ names, IsEntryName name) ∧ IsEntryName last ∧
      (subdirOrDefault job).splitOn '/' = names ++ [last] ∧
      (tmpName (subdirOrDefault job)).splitOn '/' = names ++ [tmpName last] := by
  have htmp : '/' ∉ ".tmp".toList := by decide
  obtain ⟨names, last, hsubdir, htmpName⟩ := splitOn_append htmp (subdirOrDefault job)
  have hparts := isEntryName_subdir job
  rw [hsubdir] at hparts
  have hnames : ∀ name ∈ names, IsEntryName name := fun name hname =>
    hparts name (List.mem_append_left _ hname)
  have hlast : IsEntryName last := hparts last (List.mem_append_right _ List.mem_cons_self)
  exact ⟨names, last, hnames, hlast, hsubdir, htmpName⟩

theorem variablesDir_eq (dir : HostPath) (job : Job) :
    variablesDir dir job = dir ++ (tmpName (subdirOrDefault job)).splitOn '/' := by
  obtain ⟨names, last, hnames, hlast, -, htmpName⟩ := exists_names job
  refine joinPath_of_entries dir ?_
  rw [htmpName]
  exact Runs.forall_concat hnames hlast.tmpName

theorem strictlyInside_of_concat {dir : HostPath} {names : List Chars} {last : Chars}
    (hnames : ∀ name ∈ names, IsEntryName name) (hlast : IsEntryName last) :
    StrictlyInside dir (dir ++ (names ++ [last])) :=
  ⟨names ++ [last], by simp, Runs.forall_concat hnames hlast, rfl⟩

/-- The two directories have paths of one length, which are different. -/
theorem not_prefix_of_concat {dir : HostPath} {names : List Chars} {a b : Chars} (h : a ≠ b) :
    ¬ dir ++ (names ++ [a]) <+: dir ++ (names ++ [b]) := by
  intro hpre
  have heq := hpre.eq_of_length (by simp only [List.length_append, List.length_singleton])
  have hlast := List.append_cancel_left (List.append_cancel_left heq)
  exact h (List.singleton_inj.mp hlast)

theorem tmpName_ne (part : Chars) : tmpName part ≠ part := by
  intro heq
  have hlength : (tmpName part).length = part.length + 4 := List.length_append
  rw [heq] at hlength
  omega

/-! ## The files -/

theorem filePath_eq (job : Job) (dir : HostPath) (key : Chars) :
    filePath dir (subdirOrDefault job) key = variablesDir dir job ++ [key] := by
  rw [variablesDir_eq]
  rfl

/-- The file at the path of a variable, seen from the job's directory. -/
theorem filePath_eq_joinPath (job : Job) (dir : HostPath) {key : Chars} (h : IsEntryName key) :
    filePath dir (subdirOrDefault job) key =
      joinPath dir (tmpName (subdirOrDefault job) ++ '/' :: key) := by
  obtain ⟨names, last, hnames, hlast, -, htmpName⟩ := exists_names job
  have hsplit : (tmpName (subdirOrDefault job) ++ '/' :: key).splitOn '/' =
      (tmpName (subdirOrDefault job)).splitOn '/' ++ [key] := by
    unfold List.splitOn
    rw [List.splitOnP_append_cons _ _ (by decide)]
    congr 1
    exact splitOn_of_not_mem h.no_slash
  have hparts : ∀ part ∈ (tmpName (subdirOrDefault job) ++ '/' :: key).splitOn '/',
      IsEntryName part := by
    rw [hsplit, htmpName]
    exact Runs.forall_concat (Runs.forall_concat hnames hlast.tmpName) h
  rw [joinPath_of_entries dir hparts, hsplit, filePath, List.append_assoc]

/-- The file of a variable or of the CA. -/
def IsVariableFile (job : Job) (dir path : HostPath) : Prop :=
  ∃ key, IsEntryName key ∧ path = variablesDir dir job ++ [key]

/-- The variable with the path of the CA. -/
def caKey : Chars := "CI_SERVER_TLS_CA_FILE".toList

theorem caKey_isEntryName : IsEntryName caKey :=
  isEntryName_of_isValidKey (by decide)

theorem files_setSharing (job : Job) (runner : RunnerVars) (env : JobEnv) :
    (setSharing job runner env).files = env.files := by
  unfold setSharing
  cases runner.disposable with
  | false => rfl
  | true =>
      cases job.image with
      | none => rfl
      | some image => rfl

theorem files_runnerEnv (job : Job) (buildsDir : Chars) (dir : HostPath) (runner : RunnerVars) :
    (runnerEnv job buildsDir dir runner).files =
      (runner.caPem.map fun pem => (filePath dir (subdirOrDefault job) caKey, pem)).toList := by
  unfold runnerEnv
  cases hca : runner.caPem with
  | none => exact files_setSharing job runner _
  | some pem =>
      show (setSharing job runner _).files ++ _ = _
      rw [files_setSharing]
      rfl

/-- One variable keeps the files of the others, and adds its own if it is a file. -/
theorem files_setVariable (values : Values) (buildsDir : Chars) (dir : HostPath) (subdir : Chars)
    (env : JobEnv) (v : Variable) :
    (setVariable values buildsDir dir subdir env v).files =
      if v.file then
        env.files.filter (fun f => f.1.getLast? ≠ some v.key) ++
          [(filePath dir subdir v.key, variableContent values v)]
      else env.files := by
  unfold setVariable
  cases v.file <;> rfl

theorem isVariableFile_foldl {job : Job} {values : Values} {buildsDir : Chars} {dir : HostPath} :
    ∀ (vs : List Variable) (env : JobEnv), (∀ v ∈ vs, isValidKey v.key = true) →
      (∀ f ∈ env.files, IsVariableFile job dir f.1) →
      ∀ f ∈ (vs.foldl (setVariable values buildsDir dir (subdirOrDefault job)) env).files,
        IsVariableFile job dir f.1 := by
  intro vs
  induction vs with
  | nil => exact fun env _ henv => henv
  | cons v vs ih =>
      intro env hvalid henv
      refine ih _ (fun w hw => hvalid w (List.mem_cons_of_mem _ hw)) ?_
      rw [files_setVariable]
      by_cases hfile : v.file = true
      · rw [if_pos hfile]
        refine Runs.forall_concat ?_ ?_
        · intro f hf
          exact henv f (List.mem_of_mem_filter hf)
        · exact ⟨v.key, isEntryName_of_isValidKey (hvalid v List.mem_cons_self),
            filePath_eq job dir v.key⟩
      · rw [if_neg hfile]
        exact henv

/-- **Every file is a direct child of the directory of file variables.** -/
theorem isVariableFile_jobEnv (job : Job) (buildsDir : Chars) (dir : HostPath)
    (runner : RunnerVars) :
    ∀ f ∈ (jobEnv job buildsDir dir runner).files, IsVariableFile job dir f.1 := by
  refine isVariableFile_foldl (validVariables job) _ ?_ ?_
  · intro v hv
    exact (List.mem_filter.mp hv).2
  · rw [files_runnerEnv]
    intro f hf
    obtain ⟨pem, -, rfl⟩ := Option.mem_map.mp (Option.mem_toList.mp hf)
    exact ⟨_, caKey_isEntryName, filePath_eq job dir _⟩

/-! ## What the job is told

The value of a file variable is the path of its file, below the directory that the job sees as
its builds directory.
-/

/-- The content of the file of a variable: its last definition says whether it is one. -/
def fileContent (job : Job) (values : Values) (runner : RunnerVars) (key : Chars) :
    Option Chars :=
  match lastDefinition job key with
  | some v => if v.file then some (variableContent values v) else none
  | none => if key = caKey then runner.caPem else none

section Files

variable (values : Values) (buildsDir : Chars) (dir : HostPath) (subdir : Chars)

/-- A file stays while no variable of its name is set. -/
theorem mem_files_of_no_definition {f : HostPath × Chars} {key : Chars}
    (hkey : f.1.getLast? = some key) : ∀ (vs : List Variable) (env : JobEnv),
    (∀ v ∈ vs, v.key ≠ key) → f ∈ env.files →
    f ∈ (vs.foldl (setVariable values buildsDir dir subdir) env).files := by
  intro vs
  induction vs with
  | nil => exact fun _ _ hf => hf
  | cons v vs ih =>
      intro env hvs hf
      refine ih _ (fun w hw => hvs w (List.mem_cons_of_mem _ hw)) ?_
      have hother : f.1.getLast? ≠ some v.key := by
        rw [hkey]
        intro heq
        exact hvs v List.mem_cons_self (Option.some.inj heq).symm
      rw [files_setVariable]
      by_cases hfile : v.file = true
      · rw [if_pos hfile]
        exact List.mem_append_left _ (List.mem_filter.mpr ⟨hf, by simpa using hother⟩)
      · rw [if_neg hfile]
        exact hf

theorem getLast?_filePath (key : Chars) : (filePath dir subdir key).getLast? = some key := by
  unfold filePath
  exact List.getLast?_concat

/-- The file of the last definition is there. -/
theorem mem_files_of_definition {key : Chars} {v : Variable} (hfile : v.file = true) :
    ∀ (vs : List Variable) (env : JobEnv), vs.reverse.find? (·.key = key) = some v →
      (filePath dir subdir key, variableContent values v) ∈
        (vs.foldl (setVariable values buildsDir dir subdir) env).files := by
  intro vs
  induction vs with
  | nil => exact fun _ h => by cases h
  | cons w vs ih =>
      intro env hfind
      rw [List.foldl_cons]
      rw [List.reverse_cons, List.find?_append] at hfind
      cases hlater : vs.reverse.find? (·.key = key) with
      | some u =>
          rw [hlater] at hfind
          exact ih _ (hlater.trans hfind)
      | none =>
          rw [hlater, Option.none_or] at hfind
          have hw : w = v := List.mem_singleton.mp (List.mem_of_find?_eq_some hfind) |>.symm
          have hkey : v.key = key := by simpa using List.find?_some hfind
          have hvs : ∀ u ∈ vs, u.key ≠ key := fun u hu => by
            simpa using List.find?_eq_none.mp hlater u (List.mem_reverse.mpr hu)
          subst hw
          -- no later variable takes the file of the last definition away
          refine mem_files_of_no_definition values buildsDir dir subdir
            (getLast?_filePath dir subdir key) vs _ hvs ?_
          rw [files_setVariable, if_pos hfile, hkey]
          exact List.mem_append_right _ List.mem_cons_self

end Files

theorem get_runnerEnv_caKey {job : Job} {buildsDir : Chars} {dir : HostPath} {runner : RunnerVars}
    {pem : Chars} (hca : runner.caPem = some pem) :
    (runnerEnv job buildsDir dir runner).get caKey =
      some (buildsDir ++ '/' :: tmpName (subdirOrDefault job) ++ '/' :: caKey) := by
  unfold runnerEnv
  rw [hca]
  exact (JobEnv.get_set _ _ _ _).trans (if_pos rfl)

/-- **A file variable's value is the path of its file**, below the builds directory that the job
sees. -/
theorem file_at_value (job : Job) (buildsDir : Chars) (dir : HostPath) (runner : RunnerVars)
    {key content : Chars}
    (h : fileContent job (expansionValues (runnerEnv job buildsDir dir runner)
      (validVariables job)) runner key = some content) :
    ∃ relative,
      (jobEnv job buildsDir dir runner).get key = some (buildsDir ++ '/' :: relative) ∧
        (joinPath dir relative, content) ∈ (jobEnv job buildsDir dir runner).files := by
  refine ⟨tmpName (subdirOrDefault job) ++ '/' :: key, ?_⟩
  unfold fileContent at h
  cases hlast : lastDefinition job key with
  | some v =>
      simp only [hlast] at h
      obtain ⟨hfile, hcontent⟩ := Option.ite_none_right_eq_some.mp h
      have hfind : (validVariables job).reverse.find? (·.key = key) = some v := hlast
      obtain ⟨hkey, hvalid⟩ := isValidKey_of_lastDefinition hlast
      constructor
      · rw [get_jobEnv job buildsDir dir runner hlast, definedValue, if_pos hfile, hkey]
        simp only [List.append_assoc, List.cons_append]
      · rw [← filePath_eq_joinPath job dir (isEntryName_of_isValidKey hvalid),
          ← Option.some.inj hcontent]
        exact mem_files_of_definition _ buildsDir dir _ hfile _ _ hfind
  | none =>
      simp only [hlast] at h
      obtain ⟨rfl, hca⟩ := Option.ite_none_right_eq_some.mp h
      have hfind : (validVariables job).reverse.find? (·.key = caKey) = none := hlast
      have hvs : ∀ v ∈ validVariables job, v.key ≠ caKey := fun v hv => by
        simpa using List.find?_eq_none.mp hfind v (List.mem_reverse.mpr hv)
      constructor
      · rw [jobEnv, get_foldl_setVariable, hfind, Option.map_none, Option.none_or,
          get_runnerEnv_caKey hca]
        simp only [List.append_assoc, List.cons_append]
      · rw [← filePath_eq_joinPath job dir caKey_isEntryName]
        refine mem_files_of_no_definition _ buildsDir dir _ (getLast?_filePath dir _ caKey) _ _
          hvs ?_
        rw [files_runnerEnv, hca]
        exact List.mem_cons_self

/-! ## Confinement -/

theorem variablesDir_strictlyInside (job : Job) (dir : HostPath) :
    StrictlyInside dir (variablesDir dir job) := by
  obtain ⟨names, last, hnames, hlast, -, htmpName⟩ := exists_names job
  rw [variablesDir_eq, htmpName]
  exact strictlyInside_of_concat hnames hlast.tmpName

/-- The project and the directory of its file variables are apart. -/
theorem project_apart (job : Job) (dir : HostPath) :
    StrictlyInside dir (joinPath dir (subdirOrDefault job)) ∧
      ¬ joinPath dir (subdirOrDefault job) <+: variablesDir dir job ∧
      ¬ variablesDir dir job <+: joinPath dir (subdirOrDefault job) := by
  obtain ⟨names, last, hnames, hlast, hsubdir, htmpName⟩ := exists_names job
  rw [variablesDir_eq, htmpName, joinPath_of_entries dir (isEntryName_subdir job), hsubdir]
  exact ⟨strictlyInside_of_concat hnames hlast, not_prefix_of_concat (tmpName_ne last).symm,
    not_prefix_of_concat (tmpName_ne last)⟩

/-- Nothing of the directory of file variables is left, in whatever state the host was. -/
theorem variablesDir_removed (job : Job) (buildsRoot : HostPath) {path : HostPath}
    (h : variablesDir (jobDir buildsRoot job) job <+: path) (tree : HostTree) :
    path ∉ prepare buildsRoot job tree ∧
      ∀ keepWorkspace, path ∉ cleanup buildsRoot job keepWorkspace tree := by
  refine ⟨not_mem_removeDir h _, fun keepWorkspace => ?_⟩
  unfold cleanup
  split
  · exact not_mem_removeDir h tree
  · -- the whole workspace is removed
    obtain ⟨names, -, -, heq⟩ := variablesDir_strictlyInside job (jobDir buildsRoot job)
    have hdir : jobDir buildsRoot job <+: variablesDir (jobDir buildsRoot job) job := by
      rw [heq]
      exact List.prefix_append _ _
    exact not_mem_removeDir (hdir.trans h) tree

/-- **File variables stay in one removable directory**, for every job and every CA: the files are
direct children of a directory inside the job's, which is apart from the project; the job is given
the same relative paths; and neither before nor after the job anything of the directory is left. -/
theorem file_variables_confined (job : Job) (buildsDir : Chars) (dir : HostPath)
    (runner : RunnerVars) :
    (∀ f ∈ (jobEnv job buildsDir dir runner).files,
      ∃ key, IsEntryName key ∧ f.1 = variablesDir dir job ++ [key]) ∧
    StrictlyInside dir (variablesDir dir job) ∧
    (∀ subdir, projectSubdir job = .ok subdir →
      StrictlyInside dir (joinPath dir subdir) ∧
        ¬ joinPath dir subdir <+: variablesDir dir job ∧
        ¬ variablesDir dir job <+: joinPath dir subdir) ∧
    (∀ key content, fileContent job (expansionValues (runnerEnv job buildsDir dir runner)
        (validVariables job)) runner key = some content →
      ∃ relative,
        (jobEnv job buildsDir dir runner).get key = some (buildsDir ++ '/' :: relative) ∧
          (joinPath dir relative, content) ∈ (jobEnv job buildsDir dir runner).files) ∧
    ∀ (buildsRoot : HostPath) (tree : HostTree),
      ∀ f ∈ (jobEnv job buildsDir (jobDir buildsRoot job) runner).files,
        f.1 ∉ prepare buildsRoot job tree ∧
          ∀ keepWorkspace, f.1 ∉ cleanup buildsRoot job keepWorkspace tree := by
  refine ⟨isVariableFile_jobEnv job buildsDir dir runner, variablesDir_strictlyInside job dir,
    fun subdir hsubdir => ?_, fun key content h => file_at_value job buildsDir dir runner h,
    fun buildsRoot tree f hf => ?_⟩
  · have heq : subdirOrDefault job = subdir := by rw [subdirOrDefault, hsubdir]
    rw [← heq]
    exact project_apart job dir
  · obtain ⟨key, -, hpath⟩ := isVariableFile_jobEnv job buildsDir _ runner f hf
    refine variablesDir_removed job buildsRoot ?_ tree
    rw [hpath]
    exact List.prefix_append _ _

/-- A job with a clone path and a file variable. -/
def keyJob : Job where
  id := 1
  token := []
  vars := [{ key := "GIT_CLONE_PATH".toList, value := some "$CI_BUILDS_DIR/$GROUP/app".toList },
    { key := "GROUP".toList, value := some "tools".toList },
    { key := "KEY".toList, value := some "secret".toList, file := true }]

theorem file_variables_confined_keyJob :
    projectSubdir keyJob = .ok "tools/app".toList ∧
      ¬ joinPath [] "tools/app".toList <+: variablesDir [] keyJob ∧
      ∃ relative, (jobEnv keyJob "/builds".toList [] {}).get "KEY".toList =
        some ("/builds/".toList ++ relative) := by
  have hsubdir : projectSubdir keyJob = .ok "tools/app".toList := by decide +kernel
  have hconfined := file_variables_confined keyJob "/builds".toList [] {}
  have hcontent : fileContent keyJob (expansionValues (runnerEnv keyJob "/builds".toList [] {})
      (validVariables keyJob)) {} "KEY".toList = some "secret".toList := by decide +kernel
  obtain ⟨relative, hvalue, -⟩ := hconfined.2.2.2.1 _ _ hcontent
  exact ⟨hsubdir, (hconfined.2.2.1 _ hsubdir).2.1, relative, hvalue⟩

end TurboCi
