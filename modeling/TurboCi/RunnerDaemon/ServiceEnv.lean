import Mathlib.Data.List.Forall2
import TurboCi.RunnerDaemon.ClonePath
import TurboCi.RunnerDaemon.JobVariables

set_option autoImplicit false

/-! # The environment of a service

A service container gets the job's public and internal variables, expanded against the whole
environment of the job (`service_env` in `runner_daemon/script.rs`). The variables themselves are
filtered, what they refer to is not: secrets reach a service exactly if a variable that it gets
refers to a name whose value depends on them (`service_env_iff`).
-/

namespace TurboCi

/-! ## The environment -/

/-- `KEY=value` list, as Docker expects it. -/
def JobEnv.toDocker (env : JobEnv) : List Chars := env.vars.map fun p => p.1 ++ '=' :: p.2

/-- Public or internal, and no secret. -/
def Variable.isVisible (v : Variable) : Bool :=
  (v.isPublic || v.isInternal) && !v.masked && !v.file

/-- Set a variable of a service, if its name is valid. -/
def setServiceVariable (values : Values) (env : JobEnv) (v : Variable) : JobEnv :=
  if isValidKey v.key then env.set v.key (variableContent values v) else env

/-- Environment of a service container: only public and internal job variables, and the service's
own, which take precedence. -/
def serviceEnv (job : Job) (serviceVariables : List Variable) (values : Values) : List Chars :=
  ((job.vars.filter (·.isVisible) ++ serviceVariables).foldl (setServiceVariable values)
    ⟨[], []⟩).toDocker

/-! ## The last definitions -/

def addLast (vs : List Variable) (v : Variable) : List Variable := vs.filter (·.key ≠ v.key) ++ [v]

/-- The last definition of each key, in their order. -/
def lastDefinitions (vs : List Variable) : List Variable := vs.foldl addLast []

theorem vars_foldl_setServiceVariable (values : Values) : ∀ (vs acc : List Variable) (env : JobEnv),
    env.vars = acc.map (fun v => (v.key, variableContent values v)) →
    (vs.foldl (setServiceVariable values) env).vars =
      ((vs.filter fun v => isValidKey v.key).foldl addLast acc).map
        fun v => (v.key, variableContent values v) := by
  intro vs
  induction vs with
  | nil => exact fun _ _ h => h
  | cons v vs ih =>
      intro acc env h
      rw [List.foldl_cons]
      by_cases hkey : isValidKey v.key = true
      · rw [List.filter_cons, if_pos hkey, List.foldl_cons]
        refine ih (addLast acc v) _ ?_
        unfold setServiceVariable addLast
        rw [if_pos hkey]
        show env.vars.filter (·.1 ≠ v.key) ++ _ = _
        rw [h, List.filter_map, List.map_append]
        rfl
      · rw [List.filter_cons, if_neg hkey]
        refine ih acc _ ?_
        unfold setServiceVariable
        rw [if_neg hkey]
        exact h

/-- The variables that a service gets. -/
def serviceDefinitions (job : Job) (serviceVariables : List Variable) : List Variable :=
  lastDefinitions
    ((job.vars.filter (·.isVisible) ++ serviceVariables).filter fun v => isValidKey v.key)

theorem serviceEnv_eq (job : Job) (serviceVariables : List Variable) (values : Values) :
    serviceEnv job serviceVariables values =
      (serviceDefinitions job serviceVariables).map
        fun v => v.key ++ '=' :: variableContent values v := by
  unfold serviceEnv JobEnv.toDocker
  rw [vars_foldl_setServiceVariable values _ [] _ rfl, List.map_map]
  rfl

/-- Two environments of a service are the same if the variables that it gets have the same
contents. -/
theorem serviceEnv_eq_iff (job : Job) (serviceVariables : List Variable) (values values' : Values) :
    serviceEnv job serviceVariables values = serviceEnv job serviceVariables values' ↔
      ∀ v ∈ serviceDefinitions job serviceVariables,
        variableContent values v = variableContent values' v := by
  rw [serviceEnv_eq, serviceEnv_eq, List.map_inj_left]
  constructor
  · intro h v hv
    exact (List.cons.inj (List.append_cancel_left (h v hv))).2
  · intro h v hv
    rw [h v hv]

/-! ## Jobs that differ in secrets -/

/-- The same variable, but for the value of a hidden one. -/
structure SameVisible (v w : Variable) : Prop where
  rest : w = { v with value := w.value }
  value : v.isVisible = true → w.value = v.value

theorem SameVisible.refl (v : Variable) : SameVisible v v := ⟨rfl, fun _ => rfl⟩

theorem SameVisible.key {v w : Variable} (h : SameVisible v w) : w.key = v.key := by rw [h.rest]

theorem SameVisible.isVisible {v w : Variable} (h : SameVisible v w) :
    w.isVisible = v.isVisible := by rw [h.rest]; rfl

theorem SameVisible.eq {v w : Variable} (h : SameVisible v w) (hv : v.isVisible = true) :
    w = v := by
  rw [h.rest, h.value hv]

/-- The jobs are equal except for the values of hidden variables. -/
def LowEq (job job' : Job) : Prop :=
  ∃ vars, List.Forall₂ SameVisible job.vars vars ∧ job' = { job with vars }

theorem LowEq.refl (job : Job) : LowEq job job :=
  ⟨job.vars, List.forall₂_same.mpr fun v _ => SameVisible.refl v, rfl⟩

theorem filter_isVisible_of_forall₂ {vs ws : List Variable} (h : List.Forall₂ SameVisible vs ws) :
    ws.filter (·.isVisible) = vs.filter (·.isVisible) := by
  induction h with
  | nil => rfl
  | @cons v w vs ws hvw _ ih =>
      by_cases hv : v.isVisible = true
      · rw [List.filter_cons_of_pos hv, List.filter_cons_of_pos (hvw.isVisible.trans hv), ih,
          hvw.eq hv]
      · rw [List.filter_cons_of_neg hv, List.filter_cons_of_neg (by rwa [hvw.isVisible]), ih]

/-- A service gets the same variables of both jobs. -/
theorem serviceEnv_of_lowEq {job job' : Job} (h : LowEq job job')
    (serviceVariables : List Variable) (values : Values) :
    serviceEnv job' serviceVariables values = serviceEnv job serviceVariables values := by
  obtain ⟨vars, hvars, rfl⟩ := h
  unfold serviceEnv
  rw [filter_isVisible_of_forall₂ hvars]

/-- Looking for a variable that is told by what both have. -/
theorem find?_of_forall₂ {p : Variable → Bool} (hp : ∀ v w, SameVisible v w → p w = p v)
    {vs ws : List Variable} (h : List.Forall₂ SameVisible vs ws) :
    (vs.find? p = none ∧ ws.find? p = none) ∨
      ∃ v w, vs.find? p = some v ∧ ws.find? p = some w ∧ SameVisible v w := by
  induction h with
  | nil => exact .inl ⟨rfl, rfl⟩
  | @cons v w vs ws hvw _ ih =>
      by_cases hv : p v = true
      · exact .inr ⟨v, w, List.find?_cons_of_pos hv,
          List.find?_cons_of_pos ((hp v w hvw).trans hv), hvw⟩
      · rw [List.find?_cons_of_neg hv, List.find?_cons_of_neg (by rwa [hp v w hvw])]
        exact ih

theorem lastDefinition_of_lowEq {job job' : Job} (h : LowEq job job') (key : Chars) :
    (lastDefinition job key = none ∧ lastDefinition job' key = none) ∨
      ∃ v w, lastDefinition job key = some v ∧ lastDefinition job' key = some w ∧
        SameVisible v w := by
  obtain ⟨vars, hvars, rfl⟩ := h
  unfold lastDefinition validVariables
  refine find?_of_forall₂ (fun v w hvw => by rw [hvw.key]) ?_
  refine List.forall₂_reverse_iff.mpr ?_
  refine List.rel_filter (fun v w hvw => ?_) hvars
  show isValidKey v.key = true ↔ isValidKey w.key = true
  rw [hvw.key]

end TurboCi
