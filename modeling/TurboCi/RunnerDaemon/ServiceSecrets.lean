import TurboCi.RunnerDaemon.ServiceEnv

set_option autoImplicit false

/-! # What of a service's environment depends on secrets

A name is tainted if its value in the job's environment can change with the values of hidden
variables: because a hidden variable defines it, because a visible variable that defines it refers
to one, or because it has the project directory in it and `GIT_CLONE_PATH` can change with them.
Untainted names have one value in all jobs that differ in secrets; and with two fillings of the
secrets, one letter and two, every tainted name has a longer value with the second one. So a
service learns nothing from secrets exactly if none of its variables refers to a tainted name.
-/

namespace TurboCi

def gitClonePath : Chars := "GIT_CLONE_PATH".toList

/-! ## Tainted names -/

/-- A text for a secret: letters, below the builds directory where it is the clone path. -/
def filling (n : Nat) (key : Chars) : Chars :=
  if key = gitClonePath then "$CI_BUILDS_DIR/".toList ++ List.replicate n 'x'
  else List.replicate n 'x'

def Variable.fill (n : Nat) (v : Variable) : Variable :=
  if v.isVisible then v else { v with value := some (filling n v.key) }

/-- The job with letters for its secrets. -/
def Job.filled (n : Nat) (job : Job) : Job := { job with vars := job.vars.map (·.fill n) }

/-- The last definition of a key that has a value or can have one. -/
def lastWithText (job : Job) (key : Chars) : Option Variable :=
  job.vars.reverse.find? fun v => v.key = key && (!v.isVisible || v.value.isSome)

/-- What the name stands for in a clone path is a secret. -/
def CloneTainted (job : Job) (key : Chars) : Prop :=
  ∃ v, lastWithText job key = some v ∧ v.isVisible = false

/-- The last definition of the clone path. -/
def cloneDefinition (job : Job) : Option Variable :=
  job.vars.reverse.find? (·.key = gitClonePath)

/-- The project directory depends on secrets: the clone path is one, or it refers to one and is
accepted for some values of the secrets. -/
def SubdirTainted (job : Job) : Prop :=
  ∃ v, cloneDefinition job = some v ∧
    (v.isVisible = false ∨ ∃ relative, cloneTemplate v.value = some relative ∧
      (∃ key ∈ references relative, CloneTainted job key) ∧
        IsSubdir (expand relative (variableValues (job.filled 1))))

/-- A predefined variable with the project directory in it. -/
def RunnerTainted (job : Job) (runner : RunnerVars) (key : Chars) : Prop :=
  (key = "CI_PROJECT_DIR".toList ∨
    runner.caPem.isSome = true ∧ (key = "GIT_SSL_CAINFO".toList ∨ key = caKey)) ∧
  SubdirTainted job

/-- What a reference to the name in a variable of the job stands for depends on secrets. -/
def TextTainted (job : Job) (runner : RunnerVars) (key : Chars) : Prop :=
  match lastDefinition job key with
  | some v => v.isVisible = false
  | none => RunnerTainted job runner key

/-- The value of the name in the job's environment depends on secrets. -/
def EnvTainted (job : Job) (runner : RunnerVars) (key : Chars) : Prop :=
  match lastDefinition job key with
  | some v =>
      if v.file = true then SubdirTainted job
      else if v.isVisible = true then
        v.raw = false ∧ ∃ k ∈ references (v.value.getD []), TextTainted job runner k
      else True
  | none => RunnerTainted job runner key

/-! ## Two jobs with related secrets -/

theorem Tracks.same {Rel : Prop → Chars → Chars → Prop} (h : Tracks Rel) {T : Prop} (hT : ¬ T)
    (a : Chars) : Rel T a a := by
  have hfalse : T = False := eq_false hT
  rw [hfalse]
  exact h.refl a

/-- A text in the middle of others. -/
theorem Tracks.within {Rel : Prop → Chars → Chars → Prop} (h : Tracks Rel) {T : Prop}
    {a b : Chars} (hab : Rel T a b) (before after : Chars) :
    Rel T (before ++ a ++ after) (before ++ b ++ after) := by
  have hall := h.append (h.append (h.refl before) hab) (h.refl after)
  simpa only [false_or, or_false] using hall

section Related

variable {Rel : Prop → Chars → Chars → Prop} {job j₁ j₂ : Job} {buildsDir : Chars} {dir : HostPath}
  {runner : RunnerVars}

/-- The predefined variables of two jobs. -/
theorem runnerEnv_related (hRel : Tracks Rel) (h₁ : LowEq job j₁) (h₂ : LowEq job j₂)
    (hsubdir : Rel (SubdirTainted job) (subdirOrDefault j₁) (subdirOrDefault j₂)) (key : Chars) :
    Rel (RunnerTainted job runner key) (((runnerEnv j₁ buildsDir dir runner).get key).getD [])
      (((runnerEnv j₂ buildsDir dir runner).get key).getD []) := by
  obtain ⟨vars₁, -, rfl⟩ := h₁
  obtain ⟨vars₂, -, rfl⟩ := h₂
  rw [get_runnerEnv, get_runnerEnv]
  by_cases hca : runner.caPem.isSome = true ∧ (key = "GIT_SSL_CAINFO".toList ∨ key = caKey)
  · -- the path of the CA has the project directory in it
    have htainted : RunnerTainted job runner key = SubdirTainted job :=
      propext ⟨fun h => h.2, fun h => ⟨.inr hca, h⟩⟩
    rw [if_pos hca, if_pos hca, htainted]
    have hpath := hRel.within hsubdir (buildsDir ++ ['/']) (".tmp".toList ++ '/' :: caKey)
    unfold caPath tmpName
    simp only [Option.getD_some, List.append_assoc, List.cons_append, List.nil_append] at hpath ⊢
    exact hpath
  · rw [if_neg hca, if_neg hca]
    by_cases hproject : key = "CI_PROJECT_DIR".toList
    · have htainted : RunnerTainted job runner key = SubdirTainted job :=
        propext ⟨fun h => h.2, fun h => ⟨.inl hproject, h⟩⟩
      rw [htainted, hproject, get_setSharing_of_ne (by decide) (by decide) (by decide),
        get_setSharing_of_ne (by decide) (by decide) (by decide), get_baseEnv_projectDir,
        get_baseEnv_projectDir]
      have hpath := hRel.within hsubdir (buildsDir ++ ['/']) []
      simp only [Option.getD_some, List.append_assoc, List.cons_append, List.nil_append,
        List.append_nil] at hpath ⊢
      exact hpath
    · -- nothing else that is predefined looks at the job's variables
      have hno : ¬ RunnerTainted job runner key := fun h =>
        h.1.elim hproject fun hkey => hca hkey
      have heq : (setSharing { job with vars := vars₁ } runner
          (baseEnv { job with vars := vars₁ } buildsDir)).get key =
          (setSharing { job with vars := vars₂ } runner
            (baseEnv { job with vars := vars₂ } buildsDir)).get key := by
        rw [get_setSharing, get_setSharing, get_baseEnv, get_baseEnv, if_neg hproject,
          if_neg hproject]
        rfl
      rw [heq]
      exact hRel.same hno _

/-- The values that the jobs' variables may refer to. -/
def textValues (job : Job) (buildsDir : Chars) (dir : HostPath) (runner : RunnerVars) : Values :=
  expansionValues (runnerEnv job buildsDir dir runner) (validVariables job)

/-- The last definitions of a key in the three jobs. -/
theorem lastDefinition_of_lowEq₂ (h₁ : LowEq job j₁) (h₂ : LowEq job j₂) (key : Chars) :
    (lastDefinition job key = none ∧ lastDefinition j₁ key = none ∧ lastDefinition j₂ key = none) ∨
      ∃ v v₁ v₂, lastDefinition job key = some v ∧ lastDefinition j₁ key = some v₁ ∧
        lastDefinition j₂ key = some v₂ ∧ SameVisible v v₁ ∧ SameVisible v v₂ := by
  rcases lastDefinition_of_lowEq h₁ key with ⟨hnone, hnone₁⟩ | ⟨v, v₁, hv, hv₁, hsame₁⟩
  · rcases lastDefinition_of_lowEq h₂ key with ⟨-, hnone₂⟩ | ⟨v, v₂, hv, -, -⟩
    · exact .inl ⟨hnone, hnone₁, hnone₂⟩
    · rw [hnone] at hv
      cases hv
  · rcases lastDefinition_of_lowEq h₂ key with ⟨hnone, -⟩ | ⟨w, v₂, hw, hv₂, hsame₂⟩
    · rw [hv] at hnone
      cases hnone
    · rw [hv] at hw
      obtain rfl := Option.some.inj hw
      exact .inr ⟨v, v₁, v₂, hv, hv₁, hv₂, hsame₁, hsame₂⟩

/-- Where the jobs may differ in `f` of a hidden definition. -/
def HiddenRelated (Rel : Prop → Chars → Chars → Prop) (job j₁ j₂ : Job) (p : Variable → Prop)
    (f₁ f₂ : Variable → Chars) : Prop :=
  ∀ key v v₁ v₂, lastDefinition job key = some v → v.isVisible = false → p v →
    lastDefinition j₁ key = some v₁ → lastDefinition j₂ key = some v₂ → Rel True (f₁ v₁) (f₂ v₂)

/-- What a reference to a name stands for in two jobs. -/
theorem textValues_related (hRel : Tracks Rel) (h₁ : LowEq job j₁) (h₂ : LowEq job j₂)
    (hsubdir : Rel (SubdirTainted job) (subdirOrDefault j₁) (subdirOrDefault j₂))
    (htext : HiddenRelated Rel job j₁ j₂ (fun _ => True) (·.value.getD []) (·.value.getD []))
    (key : Chars) :
    Rel (TextTainted job runner key) ((textValues j₁ buildsDir dir runner key).getD [])
      ((textValues j₂ buildsDir dir runner key).getD []) := by
  have heq : ∀ j, (textValues j buildsDir dir runner key) =
      ((lastDefinition j key).map fun v => v.value.getD []).or
        ((runnerEnv j buildsDir dir runner).get key) := fun j => expansionValues_eq _ _ key
  rw [heq j₁, heq j₂]
  unfold TextTainted
  rcases lastDefinition_of_lowEq₂ h₁ h₂ key with
    ⟨hnone, hnone₁, hnone₂⟩ | ⟨v, v₁, v₂, hv, hv₁, hv₂, hsame₁, hsame₂⟩
  · rw [hnone₁, hnone₂, hnone]
    exact runnerEnv_related hRel h₁ h₂ hsubdir key
  · rw [hv₁, hv₂, hv]
    show Rel (v.isVisible = false) (v₁.value.getD []) (v₂.value.getD [])
    by_cases hvisible : v.isVisible = true
    · rw [hsame₁.eq hvisible, hsame₂.eq hvisible]
      refine hRel.same (fun hhidden => ?_) _
      rw [hvisible] at hhidden
      cases hhidden
    · rw [Bool.not_eq_true] at hvisible
      have htrue : (v.isVisible = false) = True := eq_true hvisible
      rw [htrue]
      exact htext key v v₁ v₂ hv hvisible trivial hv₁ hv₂

/-- The values of a name in the environments of two jobs. -/
theorem jobEnv_related (hRel : Tracks Rel) (h₁ : LowEq job j₁) (h₂ : LowEq job j₂)
    (hsubdir : Rel (SubdirTainted job) (subdirOrDefault j₁) (subdirOrDefault j₂))
    (htext : HiddenRelated Rel job j₁ j₂ (fun _ => True) (·.value.getD []) (·.value.getD []))
    (hcontent : HiddenRelated Rel job j₁ j₂ (·.file = false)
      (variableContent (textValues j₁ buildsDir dir runner))
      (variableContent (textValues j₂ buildsDir dir runner))) (key : Chars) :
    Rel (EnvTainted job runner key) (((jobEnv j₁ buildsDir dir runner).get key).getD [])
      (((jobEnv j₂ buildsDir dir runner).get key).getD []) := by
  rw [get_jobEnv_or, get_jobEnv_or]
  unfold EnvTainted
  rcases lastDefinition_of_lowEq₂ h₁ h₂ key with
    ⟨hnone, hnone₁, hnone₂⟩ | ⟨v, v₁, v₂, hv, hv₁, hv₂, hsame₁, hsame₂⟩
  · rw [hnone₁, hnone₂, hnone]
    exact runnerEnv_related hRel h₁ h₂ hsubdir key
  · rw [hv₁, hv₂, hv]
    show Rel (if v.file = true then _ else _)
      (definedValue (textValues j₁ buildsDir dir runner) buildsDir (subdirOrDefault j₁) v₁)
      (definedValue (textValues j₂ buildsDir dir runner) buildsDir (subdirOrDefault j₂) v₂)
    have hfile₁ : v₁.file = v.file := by rw [hsame₁.rest]
    have hfile₂ : v₂.file = v.file := by rw [hsame₂.rest]
    unfold definedValue
    by_cases hfile : v.file = true
    · -- the path of a file, whatever is in it
      rw [if_pos hfile, if_pos (hfile₁.trans hfile), if_pos (hfile₂.trans hfile), hsame₁.key,
        hsame₂.key]
      have hpath := hRel.within hsubdir (buildsDir ++ ['/']) (".tmp".toList ++ '/' :: v.key)
      unfold tmpName
      simp only [List.append_assoc, List.cons_append, List.nil_append] at hpath ⊢
      exact hpath
    · have hno₁ : ¬ v₁.file = true := by rwa [hfile₁]
      have hno₂ : ¬ v₂.file = true := by rwa [hfile₂]
      rw [if_neg hfile, if_neg hno₁, if_neg hno₂]
      by_cases hvisible : v.isVisible = true
      · -- both jobs expand one text, each with its own values
        rw [if_pos hvisible, hsame₁.eq hvisible, hsame₂.eq hvisible]
        unfold variableContent
        by_cases hraw : v.raw = true
        · rw [if_pos hraw, if_pos hraw]
          refine hRel.same (fun h => ?_) _
          rw [hraw] at h
          cases h.1
        · rw [if_neg hraw, if_neg hraw]
          rw [Bool.not_eq_true] at hraw
          have hreferences : (v.raw = false ∧
              ∃ k ∈ references (v.value.getD []), TextTainted job runner k) =
              ∃ k ∈ references (v.value.getD []), TextTainted job runner k :=
            propext ⟨fun h => h.2, fun h => ⟨hraw, h⟩⟩
          rw [hreferences]
          exact hRel.expand _ fun k _ => textValues_related hRel h₁ h₂ hsubdir htext k
      · rw [if_neg hvisible]
        rw [Bool.not_eq_true] at hvisible hfile
        exact hcontent key v v₁ v₂ hv hvisible hfile hv₁ hv₂

end Related

end TurboCi
