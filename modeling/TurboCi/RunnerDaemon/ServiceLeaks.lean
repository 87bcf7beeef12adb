import TurboCi.RunnerDaemon.ServiceSecrets

set_option autoImplicit false

/-! # When a service learns secrets

Two relations track what a service sees. Jobs that differ in secrets agree on every untainted text
(`SameUnless`), and filling the secrets with one letter or with two makes every tainted text
longer (`Grows`). Both are followed through the clone path, the predefined variables and the
expansion of the job's variables, and together they say exactly when the environment of a service
is independent of secrets (`service_env_iff`).
-/

namespace TurboCi

/-! ## The two relations -/

/-- The texts are equal, unless they may differ. -/
def SameUnless (T : Prop) (a b : Chars) : Prop := ¬ T → a = b

/-- The second text is at least as long, and longer where it must be. -/
def Grows (T : Prop) (a b : Chars) : Prop := a.length ≤ b.length ∧ (T → a.length < b.length)

theorem tracks_sameUnless : Tracks SameUnless where
  refl _ _ := rfl
  append hab hcd h := by
    rw [not_or] at h
    rw [hab h.1, hcd h.2]

theorem tracks_grows : Tracks Grows where
  refl _ := ⟨le_rfl, False.elim⟩
  append := by
    rintro T U a b c d ⟨hab, hlt⟩ ⟨hcd, hlt'⟩
    unfold Grows
    rw [List.length_append, List.length_append]
    refine ⟨by omega, ?_⟩
    rintro (hT | hU)
    · have h := hlt hT
      omega
    · have h := hlt' hU
      omega

theorem Grows.mono {T U : Prop} {a b : Chars} (h : Grows T a b) (hU : U → T) : Grows U a b :=
  ⟨h.1, fun hu => h.2 (hU hu)⟩

theorem grows_of_lt {T : Prop} {a b : Chars} (h : a.length < b.length) : Grows T a b :=
  ⟨by omega, fun _ => h⟩

/-! ## What the names in a clone path stand for -/

/-- A job that differs in secrets has the same value of a name, unless it is a secret. -/
theorem variableValues_of_lowEq {job job' : Job} (h : LowEq job job') {key : Chars}
    (hkey : ¬ CloneTainted job key) : variableValues job' key = variableValues job key := by
  obtain ⟨vars, hvars, rfl⟩ := h
  rw [variableValues_eq, variableValues_eq]
  have hvisible : ∀ v, (job.vars.reverse.find? fun v =>
      v.key = key && (!v.isVisible || v.value.isSome)) = some v → v.isVisible = true := by
    intro v hv
    by_contra hno
    exact hkey ⟨v, hv, Bool.eq_false_iff.mpr hno⟩
  have hreverse := List.forall₂_reverse_iff.mpr hvars
  generalize job.vars.reverse = vs at hvisible hreverse
  show (vars.reverse.find? _).bind _ = _
  generalize vars.reverse = ws at hreverse
  induction hreverse with
  | nil => rfl
  | @cons v w vs ws hvw _ ih =>
      by_cases hname : v.key = key
      · have hname' : w.key = key := hvw.key.trans hname
        by_cases hv : v.isVisible = true
        · -- both have the same definition, with a value or without
          obtain rfl := hvw.eq hv
          cases hvalue : w.value with
          | some value => simp [hname, hvalue]
          | none =>
              have hrest := ih (fun u hu => hvisible u (by simpa [hname, hv, hvalue] using hu))
              simpa [hname, hvalue] using hrest
        · exact absurd (hvisible v (by simp [hname, hv])) hv
      · have hname' : ¬ w.key = key := by rwa [hvw.key]
        have hrest := ih (fun u hu => hvisible u (by simpa [hname] using hu))
        simpa [hname, hname'] using hrest

/-! ## The filled jobs -/

theorem sameVisible_fill (n : Nat) (v : Variable) : SameVisible v (v.fill n) := by
  unfold Variable.fill
  by_cases hv : v.isVisible = true
  · rw [if_pos hv]
    exact SameVisible.refl v
  · rw [if_neg hv]
    exact ⟨rfl, fun h => absurd h hv⟩

theorem lowEq_filled (job : Job) (n : Nat) : LowEq job (job.filled n) := by
  refine ⟨job.vars.map (·.fill n), ?_, rfl⟩
  rw [List.forall₂_map_right_iff]
  exact List.forall₂_same.mpr fun v _ => sameVisible_fill n v

theorem fill_of_hidden {n : Nat} {v : Variable} (h : v.isVisible = false) :
    v.fill n = { v with value := some (filling n v.key) } :=
  if_neg (by rw [h]; exact Bool.false_ne_true)

theorem lastDefinition_filled (job : Job) (n : Nat) (key : Chars) :
    lastDefinition (job.filled n) key = (lastDefinition job key).map (·.fill n) := by
  unfold lastDefinition validVariables Job.filled
  rw [List.filter_map, ← List.map_reverse, List.find?_map]
  have hkey : ∀ v : Variable, (v.fill n).key = v.key := fun v => (sameVisible_fill n v).key
  simp only [Function.comp_def, hkey]

theorem cloneDefinition_filled (job : Job) (n : Nat) :
    cloneDefinition (job.filled n) = (cloneDefinition job).map (·.fill n) := by
  unfold cloneDefinition Job.filled
  rw [← List.map_reverse, List.find?_map]
  have hkey : ∀ v : Variable, (v.fill n).key = v.key := fun v => (sameVisible_fill n v).key
  simp only [Function.comp_def, hkey]

theorem variableValues_filled {job : Job} {n : Nat} {key : Chars} (h : CloneTainted job key)
    (hkey : key ≠ gitClonePath) :
    variableValues (job.filled n) key = some (List.replicate n 'x') := by
  obtain ⟨v, hv, hhidden⟩ := h
  have hname : v.key = key := by
    have hfound := List.find?_some hv
    exact of_decide_eq_true (Bool.and_eq_true_iff.mp hfound).1
  have hfind : ((job.filled n).vars.reverse.find? fun v => v.key = key && v.value.isSome) =
      (lastWithText job key).map (·.fill n) := by
    unfold Job.filled lastWithText
    rw [← List.map_reverse, List.find?_map]
    congr 2
    funext w
    show (decide ((w.fill n).key = key) && (w.fill n).value.isSome) = _
    rw [(sameVisible_fill n w).key]
    -- a filled secret has a value, and the others keep theirs
    by_cases hw : w.isVisible = true
    · rw [(sameVisible_fill n w).eq hw, hw]
      rfl
    · rw [Bool.not_eq_true] at hw
      rw [fill_of_hidden hw, hw]
      rfl
  rw [variableValues_eq, hfind, hv, Option.map_some, Option.bind_some, fill_of_hidden hhidden]
  show some (filling n v.key) = _
  unfold filling
  rw [hname, if_neg hkey]

/-! ## The project directory -/

theorem cloneDefinition_of_lowEq {job job' : Job} (h : LowEq job job') :
    (cloneDefinition job = none ∧ cloneDefinition job' = none) ∨
      ∃ v w, cloneDefinition job = some v ∧ cloneDefinition job' = some w ∧ SameVisible v w := by
  obtain ⟨vars, hvars, rfl⟩ := h
  exact find?_of_forall₂ (fun v w hvw => by rw [hvw.key]) (List.forall₂_reverse_iff.mpr hvars)

/-- The clone path is no secret, so it is the same one. -/
theorem clonePath_of_lowEq {job job' : Job} (h : LowEq job job')
    (hvisible : ∀ v, cloneDefinition job = some v → v.isVisible = true) :
    (cloneDefinition job').bind (·.value) = (cloneDefinition job).bind (·.value) := by
  rcases cloneDefinition_of_lowEq h with ⟨hnone, hnone'⟩ | ⟨v, w, hv, hw, hsame⟩
  · rw [hnone, hnone']
  · rw [hv, hw, hsame.eq (hvisible v hv)]

theorem cloneTemplate_none : cloneTemplate none = none := rfl

/-- A clone path that is written in the open is not one of its own secrets. -/
theorem not_cloneTainted_clonePath {job : Job} {v : Variable} (hv : cloneDefinition job = some v)
    (hvisible : v.isVisible = true) (hvalue : v.value.isSome = true) :
    ¬ CloneTainted job gitClonePath := by
  rintro ⟨w, hw, hhidden⟩
  have hlast : lastWithText job gitClonePath = some v := by
    unfold cloneDefinition at hv
    unfold lastWithText
    rw [List.find?_eq_some_iff_append] at hv ⊢
    obtain ⟨hkey, before, after, hsplit, hbefore⟩ := hv
    refine ⟨?_, before, after, hsplit, fun u hu => ?_⟩
    · rw [hkey, hvalue, Bool.or_true]
      rfl
    · have hno := hbefore u hu
      rw [Bool.not_eq_true'] at hno ⊢
      rw [hno, Bool.false_and]
  rw [hlast] at hw
  obtain rfl := Option.some.inj hw
  rw [hvisible] at hhidden
  cases hhidden

/-- The job's clone path is written in the open, and `relative` is its part after the builds
directory. -/
structure OpenTemplate (job : Job) (relative : Chars) : Prop where
  visible : ∀ v, cloneDefinition job = some v → v.isVisible = true
  template : cloneTemplate ((cloneDefinition job).bind (·.value)) = some relative

namespace OpenTemplate

variable {job job' : Job} {relative : Chars}

/-- The definition of the clone path that the template is from. -/
theorem exists_definition (h : OpenTemplate job relative) :
    ∃ v, cloneDefinition job = some v ∧ v.isVisible = true ∧
      cloneTemplate v.value = some relative := by
  have htemplate := h.template
  cases hv : cloneDefinition job with
  | none =>
      rw [hv, Option.bind_none, cloneTemplate_none] at htemplate
      cases htemplate
  | some v =>
      rw [hv, Option.bind_some] at htemplate
      exact ⟨v, rfl, h.visible v hv, htemplate⟩

theorem not_tainted (h : OpenTemplate job relative) : ¬ CloneTainted job gitClonePath := by
  obtain ⟨v, hv, hvisible, htemplate⟩ := h.exists_definition
  refine not_cloneTainted_clonePath hv hvisible ?_
  by_contra hno
  rw [Bool.not_eq_true, Option.isSome_eq_false_iff, Option.isNone_iff_eq_none] at hno
  rw [hno, cloneTemplate_none] at htemplate
  cases htemplate

theorem subdir_eq (h : OpenTemplate job relative) (hlow : LowEq job job') :
    subdirOrDefault job' =
      if IsSubdir (expand relative (variableValues job')) then
        expand relative (variableValues job')
      else "project".toList := by
  rw [subdirOrDefault_eq]
  show (cloneTemplate ((cloneDefinition job').bind (·.value))).elim _ _ = _
  rw [clonePath_of_lowEq hlow h.visible, h.template, Option.elim_some]

/-- With letters for the secrets, a name has the same value or letters. -/
theorem values_filled (h : OpenTemplate job relative) (hlow : LowEq job job') (n : Nat)
    (key : Chars) :
    (variableValues job' key).getD [] = (variableValues (job.filled n) key).getD [] ∨
      (variableValues (job.filled n) key).getD [] = List.replicate n 'x' := by
  by_cases hkey : CloneTainted job key
  · right
    have hne : key ≠ gitClonePath := by
      rintro rfl
      exact h.not_tainted hkey
    rw [variableValues_filled hkey hne]
    rfl
  · left
    rw [variableValues_of_lowEq hlow hkey, variableValues_of_lowEq (lowEq_filled job n) hkey]

theorem isSubdir_filled (h : OpenTemplate job relative) (hlow : LowEq job job') {n : Nat}
    (hn : 0 < n) (hsub : IsSubdir (expand relative (variableValues job'))) :
    IsSubdir (expand relative (variableValues (job.filled n))) :=
  isSubdir_expand hn (fun key _ => h.values_filled hlow n key) hsub

theorem subdirTainted_iff (h : OpenTemplate job relative) :
    SubdirTainted job ↔ (∃ key ∈ references relative, CloneTainted job key) ∧
      IsSubdir (expand relative (variableValues (job.filled 1))) := by
  obtain ⟨v, hv, hvisible, htemplate⟩ := h.exists_definition
  constructor
  · rintro ⟨w, hw, hhidden | ⟨other, hother, hreferences⟩⟩
    · rw [h.visible w hw] at hhidden
      cases hhidden
    · rw [hv] at hw
      obtain rfl := Option.some.inj hw
      rw [htemplate] at hother
      rw [Option.some.inj hother]
      exact hreferences
  · intro hreferences
    exact ⟨v, hv, .inr ⟨relative, htemplate, hreferences⟩⟩

end OpenTemplate

/-- The clone path is a secret, it is no template, or it is one that is written in the open. -/
theorem clone_cases (job : Job) :
    (∃ v, cloneDefinition job = some v ∧ v.isVisible = false) ∨
      ((∀ v, cloneDefinition job = some v → v.isVisible = true) ∧
        cloneTemplate ((cloneDefinition job).bind (·.value)) = none) ∨
      ∃ relative, OpenTemplate job relative := by
  by_cases hhidden : ∃ v, cloneDefinition job = some v ∧ v.isVisible = false
  · exact .inl hhidden
  · right
    have hvisible : ∀ v, cloneDefinition job = some v → v.isVisible = true := by
      intro v hv
      by_contra hno
      exact hhidden ⟨v, hv, Bool.eq_false_iff.mpr hno⟩
    cases htemplate : cloneTemplate ((cloneDefinition job).bind (·.value)) with
    | none => exact .inl ⟨hvisible, rfl⟩
    | some relative => exact .inr ⟨relative, hvisible, htemplate⟩

/-- Without a template, the project directory is `project`. -/
theorem subdir_of_no_template {job job' : Job} (hlow : LowEq job job')
    (hvisible : ∀ v, cloneDefinition job = some v → v.isVisible = true)
    (hnone : cloneTemplate ((cloneDefinition job).bind (·.value)) = none) :
    subdirOrDefault job' = "project".toList := by
  rw [subdirOrDefault_eq]
  show (cloneTemplate ((cloneDefinition job').bind (·.value))).elim _ _ = _
  rw [clonePath_of_lowEq hlow hvisible, hnone, Option.elim_none]

/-- An untainted project directory is the same for jobs that differ in secrets. -/
theorem subdir_sameUnless {job job' : Job} (hlow : LowEq job job') :
    SameUnless (SubdirTainted job) (subdirOrDefault job) (subdirOrDefault job') := by
  intro hno
  rcases clone_cases job with ⟨v, hv, hhidden⟩ | ⟨hvisible, hnone⟩ | ⟨relative, h⟩
  · exact absurd ⟨v, hv, .inl hhidden⟩ hno
  · rw [subdir_of_no_template (LowEq.refl job) hvisible hnone,
      subdir_of_no_template hlow hvisible hnone]
  · rw [h.subdir_eq (LowEq.refl job), h.subdir_eq hlow]
    by_cases hreferences : ∃ key ∈ references relative, CloneTainted job key
    · -- refused with letters for the secrets, so refused with any secrets
      have hrefused : ¬ IsSubdir (expand relative (variableValues (job.filled 1))) := fun hsub =>
        hno (h.subdirTainted_iff.mpr ⟨hreferences, hsub⟩)
      have hone : ¬ IsSubdir (expand relative (variableValues job)) := fun hsub =>
        hrefused (h.isSubdir_filled (LowEq.refl job) Nat.one_pos hsub)
      have hother : ¬ IsSubdir (expand relative (variableValues job')) := fun hsub =>
        hrefused (h.isSubdir_filled hlow Nat.one_pos hsub)
      rw [if_neg hone, if_neg hother]
    · have hexpand : expand relative (variableValues job) =
          expand relative (variableValues job') := by
        refine expand_congr fun key hkey => ?_
        have huntainted : ¬ CloneTainted job key := fun h => hreferences ⟨key, hkey, h⟩
        rw [variableValues_of_lowEq hlow huntainted]
      rw [hexpand]

/-- A clone path that is one letter or two. -/
theorem subdir_filled_of_hidden {job : Job} {v : Variable} (hv : cloneDefinition job = some v)
    (hhidden : v.isVisible = false) :
    subdirOrDefault (job.filled 1) = ['x'] ∧ subdirOrDefault (job.filled 2) = ['x', 'x'] := by
  have hkey : v.key = gitClonePath := by
    have hfound := List.find?_some hv
    exact of_decide_eq_true hfound
  have hpath : ∀ n, (cloneDefinition (job.filled n)).bind (·.value) =
      some (filling n gitClonePath) := by
    intro n
    rw [cloneDefinition_filled, hv, Option.map_some, Option.bind_some, fill_of_hidden hhidden,
      hkey]
  have hsubdir : ∀ n relative, cloneTemplate (some (filling n gitClonePath)) = some relative →
      '$' ∉ relative → IsSubdir relative → subdirOrDefault (job.filled n) = relative := by
    intro n relative htemplate hplain hsub
    rw [subdirOrDefault_eq]
    show (cloneTemplate ((cloneDefinition (job.filled n)).bind (·.value))).elim _ _ = _
    rw [hpath, htemplate]
    show (if IsSubdir (expand relative _) then expand relative _ else _) = relative
    rw [expand_of_not_mem _ hplain, if_pos hsub]
  exact ⟨hsubdir 1 ['x'] (by decide) (by decide) (by decide),
    hsubdir 2 ['x', 'x'] (by decide) (by decide) (by decide)⟩

/-- A tainted project directory gets longer with the secrets. -/
theorem subdir_grows (job : Job) :
    Grows (SubdirTainted job) (subdirOrDefault (job.filled 1))
      (subdirOrDefault (job.filled 2)) := by
  rcases clone_cases job with ⟨v, hv, hhidden⟩ | ⟨hvisible, hnone⟩ | ⟨relative, h⟩
  · obtain ⟨hone, htwo⟩ := subdir_filled_of_hidden hv hhidden
    rw [hone, htwo]
    exact grows_of_lt (by decide)
  · rw [subdir_of_no_template (lowEq_filled job 1) hvisible hnone,
      subdir_of_no_template (lowEq_filled job 2) hvisible hnone]
    refine tracks_grows.same ?_ _
    rintro ⟨v, hv, hhidden | ⟨relative, hrelative, -⟩⟩
    · rw [hvisible v hv] at hhidden
      cases hhidden
    · rw [hv, Option.bind_some, hrelative] at hnone
      cases hnone
  · rw [h.subdir_eq (lowEq_filled job 1), h.subdir_eq (lowEq_filled job 2)]
    -- one letter and two are accepted alike
    by_cases hsub : IsSubdir (expand relative (variableValues (job.filled 1)))
    · have hsub' := h.isSubdir_filled (lowEq_filled job 1) (Nat.succ_pos 1) hsub
      rw [if_pos hsub, if_pos hsub']
      refine (tracks_grows.expand relative fun key _ => ?_).mono
        fun htainted => (h.subdirTainted_iff.mp htainted).1
      by_cases hkey : CloneTainted job key
      · have hne : key ≠ gitClonePath := by
          rintro rfl
          exact h.not_tainted hkey
        rw [variableValues_filled hkey hne, variableValues_filled hkey hne]
        exact grows_of_lt (by decide)
      · rw [variableValues_of_lowEq (lowEq_filled job 1) hkey,
          variableValues_of_lowEq (lowEq_filled job 2) hkey]
        exact tracks_grows.same hkey _
    · have hsub' : ¬ IsSubdir (expand relative (variableValues (job.filled 2))) := fun hsub' =>
        hsub (h.isSubdir_filled (lowEq_filled job 2) Nat.one_pos hsub')
      rw [if_neg hsub, if_neg hsub']
      exact tracks_grows.same (fun htainted => hsub (h.subdirTainted_iff.mp htainted).2) _

/-! ## Hidden variables -/

/-- The filling of a secret, expanded: it is longer with two letters than with one. -/
theorem filling_length (key : Chars) : (filling 1 key).length < (filling 2 key).length := by
  unfold filling
  by_cases hkey : key = gitClonePath
  · rw [if_pos hkey, if_pos hkey]
    decide
  · rw [if_neg hkey, if_neg hkey]
    decide

theorem hidden_text_grows (job : Job) :
    HiddenRelated Grows job (job.filled 1) (job.filled 2) (fun _ => True) (·.value.getD [])
      (·.value.getD []) := by
  intro key v v₁ v₂ hv hhidden _ hv₁ hv₂
  rw [lastDefinition_filled, hv, Option.map_some, fill_of_hidden hhidden] at hv₁ hv₂
  obtain rfl := Option.some.inj hv₁
  obtain rfl := Option.some.inj hv₂
  exact grows_of_lt (filling_length v.key)

theorem expand_dollar_append {key rest : Chars} (values : Values) (h : isValidKey key = true)
    (hrest : ∀ c ∈ rest.head?, isNameChar c = false) :
    expand ('$' :: (key ++ rest)) values = (values key).getD [] ++ expand rest values := by
  rw [expand_eq, pieces_dollar h hrest, List.flatMap_cons, ← expand_eq]
  rfl

theorem dollar_not_mem_letters (n : Nat) : '$' ∉ List.replicate n 'x' := by
  intro h
  exact absurd (List.eq_of_mem_replicate h) (by decide)

/-- The filling of the clone path, expanded. -/
theorem expand_filling_clonePath (n : Nat) (values : Values) :
    expand (filling n gitClonePath) values =
      (values "CI_BUILDS_DIR".toList).getD [] ++ '/' :: List.replicate n 'x' := by
  have hfilling : filling n gitClonePath =
      '$' :: ("CI_BUILDS_DIR".toList ++ '/' :: List.replicate n 'x') := rfl
  rw [hfilling, expand_dollar_append values (by decide) (by
    intro c hc
    obtain rfl := Option.some.inj hc
    decide)]
  rw [expand_of_not_mem]
  intro h
  rcases List.mem_cons.mp h with hslash | hletter
  · exact absurd hslash (by decide)
  · exact dollar_not_mem_letters n hletter

theorem expand_filling {n : Nat} {key : Chars} (hkey : key ≠ gitClonePath) (values : Values) :
    expand (filling n key) values = List.replicate n 'x' := by
  have hfilling : filling n key = List.replicate n 'x' := if_neg hkey
  rw [hfilling]
  exact expand_of_not_mem values (dollar_not_mem_letters n)

theorem hidden_content_grows (job : Job) (buildsDir : Chars) (dir : HostPath)
    (runner : RunnerVars) :
    HiddenRelated Grows job (job.filled 1) (job.filled 2) (·.file = false)
      (variableContent (textValues (job.filled 1) buildsDir dir runner))
      (variableContent (textValues (job.filled 2) buildsDir dir runner)) := by
  intro key v v₁ v₂ hv hhidden _ hv₁ hv₂
  rw [lastDefinition_filled, hv, Option.map_some, fill_of_hidden hhidden] at hv₁ hv₂
  obtain rfl := Option.some.inj hv₁
  obtain rfl := Option.some.inj hv₂
  unfold variableContent
  show Grows True (if v.raw = true then filling 1 v.key else expand (filling 1 v.key) _)
    (if v.raw = true then filling 2 v.key else expand (filling 2 v.key) _)
  by_cases hraw : v.raw = true
  · rw [if_pos hraw, if_pos hraw]
    exact grows_of_lt (filling_length v.key)
  · rw [if_neg hraw, if_neg hraw]
    by_cases hkey : v.key = gitClonePath
    · -- the builds directory in front may itself be a secret, and gets longer too
      rw [hkey, expand_filling_clonePath, expand_filling_clonePath]
      have hbuilds : Grows (TextTainted job runner "CI_BUILDS_DIR".toList)
          ((textValues (job.filled 1) buildsDir dir runner "CI_BUILDS_DIR".toList).getD [])
          ((textValues (job.filled 2) buildsDir dir runner "CI_BUILDS_DIR".toList).getD []) :=
        textValues_related tracks_grows (lowEq_filled job 1) (lowEq_filled job 2)
          (subdir_grows job) (hidden_text_grows job) _
      have hletters : Grows True ('/' :: List.replicate 1 'x') ('/' :: List.replicate 2 'x') :=
        grows_of_lt (by decide)
      exact (tracks_grows.append hbuilds hletters).mono fun _ => .inr trivial
    · rw [expand_filling hkey, expand_filling hkey]
      exact grows_of_lt (by decide)

theorem hidden_sameUnless (job job' : Job) (p : Variable → Prop) (f₁ f₂ : Variable → Chars) :
    HiddenRelated SameUnless job job job' p f₁ f₂ :=
  fun _ _ _ _ _ _ _ _ _ hno => absurd trivial hno

/-! ## What a service learns -/

section Service

variable (job : Job) (buildsDir : Chars) (dir : HostPath) (runner : RunnerVars)

/-- The value of an untainted name is the same for jobs that differ in secrets. -/
theorem jobEnv_sameUnless {job' : Job} (h : LowEq job job') (key : Chars) :
    SameUnless (EnvTainted job runner key) (((jobEnv job buildsDir dir runner).get key).getD [])
      (((jobEnv job' buildsDir dir runner).get key).getD []) :=
  jobEnv_related tracks_sameUnless (LowEq.refl job) h (subdir_sameUnless h)
    (hidden_sameUnless job job' _ _ _) (hidden_sameUnless job job' _ _ _) key

/-- The value of a tainted name gets longer with the secrets. -/
theorem jobEnv_grows (key : Chars) :
    Grows (EnvTainted job runner key)
      (((jobEnv (job.filled 1) buildsDir dir runner).get key).getD [])
      (((jobEnv (job.filled 2) buildsDir dir runner).get key).getD []) :=
  jobEnv_related tracks_grows (lowEq_filled job 1) (lowEq_filled job 2) (subdir_grows job)
    (hidden_text_grows job) (hidden_content_grows job buildsDir dir runner) key

end Service

/-- None of the variables that the service gets refers to a name whose value depends on
secrets. -/
def NoTaintedReference (job : Job) (runner : RunnerVars) (serviceVariables : List Variable) :
    Prop :=
  ∀ v ∈ serviceDefinitions job serviceVariables, v.raw = false →
    ∀ key ∈ references (v.value.getD []), ¬ EnvTainted job runner key

/-- **What a service learns of secrets.** For any job and any service, the environment of the
service is the same for all jobs that differ from it in secrets only, exactly if none of the
variables that the service gets refers to a name whose value depends on secrets. -/
theorem service_env_iff (job : Job) (serviceVariables : List Variable) (buildsDir : Chars)
    (dir : HostPath) (runner : RunnerVars) :
    (∀ job', LowEq job job' →
      serviceEnv job serviceVariables (jobEnv job buildsDir dir runner).get =
        serviceEnv job' serviceVariables (jobEnv job' buildsDir dir runner).get) ↔
      NoTaintedReference job runner serviceVariables := by
  constructor
  · intro h v hv hraw key hkey htainted
    have hone := h (job.filled 1) (lowEq_filled job 1)
    have htwo := h (job.filled 2) (lowEq_filled job 2)
    rw [serviceEnv_of_lowEq (lowEq_filled job 1)] at hone
    rw [serviceEnv_of_lowEq (lowEq_filled job 2)] at htwo
    -- the service gets the same content with one letter and with two
    have heq := (serviceEnv_eq_iff job serviceVariables _ _).mp (hone.symm.trans htwo) v hv
    have hgrows := tracks_grows.expand (v.value.getD []) fun key _ =>
      jobEnv_grows job buildsDir dir runner key
    have hlt := hgrows.2 ⟨key, hkey, htainted⟩
    unfold variableContent at heq
    have hno : ¬ v.raw = true := by rw [hraw]; exact Bool.false_ne_true
    rw [if_neg hno, if_neg hno] at heq
    rw [heq] at hlt
    exact absurd hlt (lt_irrefl _)
  · intro h job' hlow
    rw [serviceEnv_of_lowEq hlow]
    refine (serviceEnv_eq_iff job serviceVariables _ _).mpr fun v hv => ?_
    unfold variableContent
    by_cases hraw : v.raw = true
    · rw [if_pos hraw, if_pos hraw]
    · rw [if_neg hraw, if_neg hraw]
      rw [Bool.not_eq_true] at hraw
      have hsame := tracks_sameUnless.expand (v.value.getD []) fun key _ =>
        jobEnv_sameUnless job buildsDir dir runner hlow key
      refine hsame ?_
      rintro ⟨key, hkey, htainted⟩
      exact h v hv hraw key hkey htainted

/-- A job with a masked variable, and a public one that refers to it. -/
def urlJob (secret : Chars) : Job :=
  { id := 1, token := []
    vars := [{ key := "SECRET".toList, value := some secret, masked := true },
      { key := "URL".toList, value := some "http://$SECRET".toList, isPublic := true }] }

theorem lowEq_urlJob (secret secret' : Chars) :
    LowEq (urlJob secret) (urlJob secret') := by
  refine ⟨(urlJob secret').vars, ?_, rfl⟩
  refine .cons ⟨rfl, fun hvisible => ?_⟩ (.cons (SameVisible.refl _) .nil)
  cases hvisible

/-- Two secrets, and a service without variables of its own: **the secrets are in the environment
of the service**. -/
theorem service_env_secret :
    serviceEnv (urlJob "a".toList) []
        (jobEnv (urlJob "a".toList) "/builds".toList [] {}).get = ["URL=http://a".toList] ∧
      serviceEnv (urlJob "b".toList) []
        (jobEnv (urlJob "b".toList) "/builds".toList [] {}).get = ["URL=http://b".toList] ∧
      ¬ ∀ (job job' : Job) (serviceVariables : List Variable) (buildsDir : Chars) (dir : HostPath)
        (runner : RunnerVars), LowEq job job' → (∀ v ∈ serviceVariables, v.raw = true) →
        serviceEnv job serviceVariables (jobEnv job buildsDir dir runner).get =
          serviceEnv job' serviceVariables (jobEnv job' buildsDir dir runner).get := by
  have hone : serviceEnv (urlJob "a".toList) []
      (jobEnv (urlJob "a".toList) "/builds".toList [] {}).get =
        ["URL=http://a".toList] := by decide
  have htwo : serviceEnv (urlJob "b".toList) []
      (jobEnv (urlJob "b".toList) "/builds".toList [] {}).get =
        ["URL=http://b".toList] := by decide
  refine ⟨hone, htwo, fun hall => ?_⟩
  have heq := hall _ _ [] "/builds".toList [] {} (lowEq_urlJob "a".toList "b".toList)
    (fun _ hv => absurd hv List.not_mem_nil)
  rw [hone, htwo] at heq
  exact absurd heq (by decide)

end TurboCi
