import TurboCi.RunnerDaemon.AppliedConfig
import TurboCi.RunnerDaemon.JobVariables

set_option autoImplicit false

/-! # Services and the proxy

The host names of a job's services in the `NO_PROXY` that the runner gives to the job
(`apply_runner_config` in `runner_daemon/mod.rs`), and the aliases that the Docker executor gives to
the services' containers (`runner_daemon/executor/docker.rs`).

Both expand the services' names, one before and one after the runner's variables are added, and
with other directories. So a name that refers to a variable of the configuration has an alias
that is not in `NO_PROXY` (`not_bypassesProxy`). The aliases that are given to a service are
always there; those of its image are where its name refers to nothing that the configuration or
the executor defines (`bypassesProxy_of_settled`).
-/

namespace TurboCi

/-! ## Host names -/

theorem mem_dedupHosts {host : Chars} (hosts : List Chars) :
    host ∈ dedupHosts hosts ↔ host ∈ hosts := by
  induction hosts with
  | nil => rfl
  | cons a rest ih =>
      cases rest with
      | nil => rfl
      | cons b rest =>
          rw [dedupHosts]
          split
          · next heq => rw [ih, heq, List.mem_cons, List.mem_cons, List.mem_cons, or_self_left]
          · rw [List.mem_cons, ih]
            exact List.mem_cons.symm

theorem mem_serviceAliases {host image : Chars} {serviceAlias : Option Chars} :
    host ∈ serviceAliases image serviceAlias ↔
      host ∈ imageHosts image ∨ host ∈ givenHosts serviceAlias := by
  unfold serviceAliases
  rw [mem_dedupHosts, List.mem_append]

/-- No part of a split text has a separator. -/
theorem eq_false_of_mem_splitOnP {p : Char → Bool} {text : Chars} : ∀ {part : Chars},
    part ∈ text.splitOnP p → ∀ c ∈ part, p c = false := by
  induction text with
  | nil =>
      intro part hpart c hc
      rw [List.splitOnP_nil, List.mem_singleton] at hpart
      rw [hpart] at hc
      exact absurd hc List.not_mem_nil
  | cons d rest ih =>
      intro part hpart c hc
      rw [List.splitOnP_cons_eq_if_modifyHead] at hpart
      cases hsplit : rest.splitOnP p with
      | nil => exact absurd hsplit (List.splitOnP_ne_nil p rest)
      | cons head parts =>
          rw [hsplit] at hpart
          by_cases hd : p d = true
          · rw [if_pos hd] at hpart
            rcases List.mem_cons.mp hpart with rfl | hlater
            · exact absurd hc List.not_mem_nil
            · exact ih (hsplit ▸ hlater) c hc
          · rw [if_neg hd, List.modifyHead_cons] at hpart
            rcases List.mem_cons.mp hpart with rfl | hlater
            · rcases List.mem_cons.mp hc with rfl | hc
              · exact eq_false_of_ne_true hd
              · exact ih (hsplit ▸ List.mem_cons_self) c hc
            · exact ih (hsplit ▸ List.mem_cons_of_mem _ hlater) c hc

/-- A host that is given is one entry of a list. -/
theorem listable_of_mem_givenHosts {host : Chars} {serviceAlias : Option Chars}
    (h : host ∈ givenHosts serviceAlias) : host ≠ [] ∧ ',' ∉ host := by
  obtain ⟨hsplit, hne⟩ := List.mem_filter.mp h
  refine ⟨of_decide_eq_true hne, fun hcomma => ?_⟩
  have hnot := eq_false_of_mem_splitOnP hsplit ',' hcomma
  simp at hnot

/-! ## The value of `NO_PROXY` -/

theorem mem_pushEntry {entries : List Chars} {entry source : Chars} :
    entry ∈ pushEntry entries source ↔ entry ∈ entries ∨ (entry = source ∧ entry ≠ []) := by
  unfold pushEntry
  split
  · next hnew =>
      rw [List.mem_append, List.mem_singleton]
      constructor
      · rintro (hmem | rfl)
        · exact .inl hmem
        · exact .inr ⟨rfl, hnew.1⟩
      · rintro (hmem | ⟨rfl, -⟩)
        · exact .inl hmem
        · exact .inr rfl
  · next hold =>
      -- an entry that is there already, or an empty one
      constructor
      · exact .inl
      · rintro (hmem | ⟨rfl, hne⟩)
        · exact hmem
        · exact not_not.mp fun hmem => hold ⟨hne, by simpa using hmem⟩

theorem mem_foldl_pushEntry {entry : Chars} (sources : List Chars) : ∀ entries,
    entry ∈ sources.foldl pushEntry entries ↔
      entry ∈ entries ∨ (entry ∈ sources ∧ entry ≠ []) := by
  induction sources with
  | nil => simp
  | cons source sources ih =>
      intro entries
      rw [List.foldl_cons, ih, List.mem_cons, mem_pushEntry, or_and_right, or_assoc]

/-- Joined entries are split at every comma in them. -/
theorem mem_splitOn_intercalate {host : Chars} (entries : List Chars) (hne : entries ≠ []) :
    host ∈ ([','].intercalate entries).splitOn ',' ↔
      ∃ entry ∈ entries, host ∈ entry.splitOn ',' := by
  induction entries with
  | nil => exact absurd rfl hne
  | cons entry entries ih =>
      cases entries with
      | nil => simp
      | cons next rest =>
          have hjoin : [','].intercalate (entry :: next :: rest) =
              entry ++ ',' :: [','].intercalate (next :: rest) := by
            rw [List.intercalate_cons_cons, List.append_assoc]
            rfl
          rw [hjoin, List.splitOn_append_cons_self, List.mem_append, ih (List.cons_ne_nil _ _)]
          simp only [List.mem_cons, exists_eq_or_imp]

theorem mem_effectiveNoProxy {host : Chars} {configured : Option Chars} {extra : List Chars} :
    host ∈ (effectiveNoProxy configured extra).splitOn ',' ↔
      ∃ entry ∈ givenEntries configured ++ loopback ++ extra,
        entry ≠ [] ∧ host ∈ entry.splitOn ',' := by
  have hlocal : "localhost".toList ∈
      (givenEntries configured ++ loopback ++ extra).foldl pushEntry [] := by
    rw [mem_foldl_pushEntry]
    refine .inr ⟨?_, by decide⟩
    exact List.mem_append_left _ (List.mem_append_right _ List.mem_cons_self)
  unfold effectiveNoProxy
  rw [mem_splitOn_intercalate _ (List.ne_nil_of_mem hlocal)]
  simp only [mem_foldl_pushEntry, List.not_mem_nil, false_or, and_assoc]

/-- An entry without a comma is listed as it is. -/
theorem mem_effectiveNoProxy_of_extra {host : Chars} {configured : Option Chars}
    {extra : List Chars} (hmem : host ∈ extra) (hne : host ≠ []) (hcomma : ',' ∉ host) :
    host ∈ (effectiveNoProxy configured extra).splitOn ',' := by
  refine mem_effectiveNoProxy.mpr ⟨host, List.mem_append_right _ hmem, hne, ?_⟩
  rw [List.splitOn_eq_singleton hcomma]
  exact List.mem_singleton_self host

/-! ## A job behind a proxy -/

namespace Config

/-- The Docker executor of the configuration. -/
def dockerExecutor (config : RunnerConfig) (caPem : Option Chars) : DockerExecutor where
  config := config.executor.docker
  caPem := caPem

/-- The executor starts the services whose aliases the runner lists. -/
theorem services_eq (config : RunnerConfig) (caPem : Option Chars) (job : Job) :
    services config job =
      ((dockerExecutor config caPem).services (applyRunnerConfig config job)).map
        fun s => (s.name, s.serviceAlias) := by
  unfold services DockerExecutor.services
  rw [List.map_append, List.map_map]
  rfl

section Executor

variable (config : RunnerConfig) (caPem : Option Chars) (jobDir : HostPath) (job : Job)

/-- What the executor expands the names of images and services with. -/
def dockerValues : Values :=
  (jobEnv (applyRunnerConfig config job) "/builds".toList jobDir
    { disposable := true, caPem := caPem }).get

variable (starts : Chars → Bool)

/-- The services that are started, up to the first one whose image does not start. -/
def started : List Service :=
  ((dockerExecutor config caPem).services (applyRunnerConfig config job)).takeWhile fun s =>
    starts (expand s.name (dockerValues config caPem jobDir job))

/-- The aliases at which services can be reached on the job's network. -/
def networkAliases : List Chars :=
  (started config caPem jobDir job starts).flatMap fun s =>
    serviceAliases (expand s.name (dockerValues config caPem jobDir job)) s.serviceAlias

/-- Every service is reached without the proxy at all its aliases. -/
def BypassesProxy : Prop :=
  ∀ host ∈ networkAliases config caPem jobDir job starts,
    ∃ value ∈ variableValue (applyRunnerConfig config job) "NO_PROXY".toList,
      host ∈ value.splitOn ','

/-- The host is configured as reached directly, loopback, or an alias of a service with the job's
variables as they were before the runner's. -/
def Listed (host : Chars) : Prop :=
  ∃ entry ∈ givenEntries config.noProxy ++ loopback ++ aliases config job,
    entry ≠ [] ∧ host ∈ entry.splitOn ','

end Executor

/-! ## What is listed -/

section Bypass

variable {config : RunnerConfig} {caPem : Option Chars} {jobDir : HostPath} {job : Job}
  {starts : Chars → Bool}

theorem vars_apply (config : RunnerConfig) (job : Job) :
    (applyRunnerConfig config job).vars = (proxyVariables config job).reverse ++
      (job.vars ++ environmentVars config) := by
  show insertVars _ _ ++ _ = _
  rw [insertVars_eq, List.append_assoc]

/-- **The job has the runner's `NO_PROXY`** if nothing else defines one. -/
theorem variableValue_noProxy (hproxy : config.proxy.isSome = true)
    (hjob : ∀ v ∈ job.vars, v.key ≠ "NO_PROXY".toList)
    (henv : ∀ v ∈ environmentVars config, v.key ≠ "NO_PROXY".toList) :
    variableValue (applyRunnerConfig config job) "NO_PROXY".toList = some (noProxy config job) := by
  have hnone : (job.vars ++ environmentVars config).reverse.find?
      (·.key = "NO_PROXY".toList) = none := by
    rw [List.find?_eq_none]
    intro v hv
    rw [decide_eq_true_eq]
    rcases List.mem_append.mp (List.mem_reverse.mp hv) with hv | hv
    · exact hjob v hv
    · exact henv v hv
  unfold variableValue
  rw [vars_apply, List.reverse_append, List.find?_append, hnone, Option.none_or,
    List.reverse_reverse]
  unfold proxyVariables
  cases hsome : config.proxy with
  | none =>
      rw [hsome] at hproxy
      cases hproxy
  | some proxy => rfl

theorem mem_noProxy {host : Chars} :
    host ∈ (noProxy config job).splitOn ',' ↔ Listed config job host := mem_effectiveNoProxy

/-- An alias that the runner sees is listed, unless it is no entry of a list. -/
theorem listed_of_mem_aliases {host : Chars} (hmem : host ∈ aliases config job)
    (hne : host ≠ []) (hcomma : ',' ∉ host) : Listed config job host :=
  mem_noProxy.mp (mem_effectiveNoProxy_of_extra hmem hne hcomma)

theorem mem_services_of_started {s : Service}
    (h : s ∈ started config caPem jobDir job starts) :
    (s.name, s.serviceAlias) ∈ services config job := by
  rw [services_eq config caPem job]
  exact List.mem_map_of_mem ((List.takeWhile_prefix _).subset h)

/-- **The aliases that a service is given are listed.** -/
theorem listed_of_mem_givenHosts {s : Chars × Option Chars} {host : Chars}
    (hs : s ∈ services config job) (hhost : host ∈ givenHosts s.2) : Listed config job host := by
  obtain ⟨hne, hcomma⟩ := listable_of_mem_givenHosts hhost
  exact listed_of_mem_aliases
    (List.mem_flatMap.mpr ⟨s, hs, mem_serviceAliases.mpr (.inr hhost)⟩) hne hcomma

/-- **All aliases bypass the proxy exactly if those are listed that the started services have
from their images**, by the names as the executor expands them. -/
theorem bypassesProxy_iff (hproxy : config.proxy.isSome = true)
    (hjob : ∀ v ∈ job.vars, v.key ≠ "NO_PROXY".toList)
    (henv : ∀ v ∈ environmentVars config, v.key ≠ "NO_PROXY".toList) :
    BypassesProxy config caPem jobDir job starts ↔
      ∀ s ∈ started config caPem jobDir job starts,
        ∀ host ∈ imageHosts (expand s.name (dockerValues config caPem jobDir job)),
          Listed config job host := by
  have hvalue := variableValue_noProxy hproxy hjob henv
  constructor
  · intro hbypass s hs host hhost
    obtain ⟨value, hadded, hentry⟩ := hbypass host
      (List.mem_flatMap.mpr ⟨s, hs, mem_serviceAliases.mpr (.inl hhost)⟩)
    obtain rfl := Option.some.inj (hvalue.symm.trans hadded)
    exact mem_noProxy.mp hentry
  · intro hlisted host hhost
    refine ⟨noProxy config job, hvalue, mem_noProxy.mpr ?_⟩
    obtain ⟨s, hs, halias⟩ := List.mem_flatMap.mp hhost
    rcases mem_serviceAliases.mp halias with himage | hgiven
    · exact hlisted s hs host himage
    · exact listed_of_mem_givenHosts (mem_services_of_started hs) hgiven

/-! ## Names that the configuration does not change -/

/-- The configuration adds no variable of this name. -/
def Untouched (config : RunnerConfig) (job : Job) (key : Chars) : Prop :=
  ∀ v ∈ proxyVariables config job ++ environmentVars config, v.key ≠ key

theorem lastDefinition_apply {key : Chars} (h : Untouched config job key) :
    lastDefinition (applyRunnerConfig config job) key = lastDefinition job key := by
  have hnone : ∀ vs : List Variable, (∀ v ∈ vs, v.key ≠ key) →
      (vs.filter fun v => isValidKey v.key).reverse.find? (·.key = key) = none := by
    intro vs hvs
    rw [List.find?_eq_none]
    intro v hv
    rw [decide_eq_true_eq]
    exact hvs v (List.mem_filter.mp (List.mem_reverse.mp hv)).1
  unfold lastDefinition validVariables
  rw [vars_apply, List.filter_append, List.filter_append, List.reverse_append, List.reverse_append,
    List.find?_append, List.find?_append,
    hnone _ fun v hv => h v (List.mem_append_right _ hv), Option.none_or,
    hnone _ fun v hv => h v (List.mem_append_left _ (List.mem_reverse.mp hv)), Option.or_none]

/-- The predefined variables that are not the executor's do not depend on the job's variables. -/
theorem get_runnerEnv_apply {key : Chars} {runner : RunnerVars}
    (h : ¬ OfExecutor job runner key) :
    ((runnerEnv (applyRunnerConfig config job) [] [] {}).get key).getD [] =
      ((runnerEnv job [] [] {}).get key).getD [] := by
  have hproject : key ≠ "CI_PROJECT_DIR".toList := fun hkey => h (.inr (.inl hkey))
  rw [get_runnerEnv, get_runnerEnv, if_neg (by simp), if_neg (by simp), get_setSharing,
    get_setSharing, get_baseEnv, get_baseEnv, if_neg hproject, if_neg hproject]
  rfl

/-- The name has one value for the runner and for the job, with what the configuration adds or
without. -/
def Settled (config : RunnerConfig) (caPem : Option Chars) (job : Job) (key : Chars) : Prop :=
  Alike job { disposable := true, caPem := caPem } key ∧ Untouched config job key ∧
    ∀ v ∈ lastDefinition job key,
      v.raw = true ∨ ∀ k ∈ references (v.value.getD []), Untouched config job k

theorem hasOneText_apply {runner : RunnerVars} {key : Chars} (huntouched : Untouched config job key)
    (h : HasOneText job runner key) : HasOneText (applyRunnerConfig config job) runner key := by
  unfold HasOneText
  rw [lastDefinition_apply huntouched]
  exact h

/-- The runner finds the same value for it before and after the configuration's variables. -/
theorem jobVariables_apply_of_settled {key : Chars} (h : Settled config caPem job key) :
    (jobVariables job key).getD [] = (jobVariables (applyRunnerConfig config job) key).getD [] := by
  obtain ⟨halike, huntouched, hreferences⟩ := h
  refine get_jobEnv_congr (lastDefinition_apply huntouched) (fun hnone => ?_) fun v hlast => ?_
  · exact (get_runnerEnv_apply (halike.not_ofExecutor hnone)).symm
  · obtain ⟨hfile, htext⟩ := halike.of_some hlast
    refine ⟨hfile, or_iff_not_imp_left.mpr fun hraw k hk => ?_⟩
    have hkept : Untouched config job k := (hreferences v hlast).resolve_left hraw k hk
    exact expansionValues_congr (lastDefinition_apply hkept) fun hnone =>
      (get_runnerEnv_apply ((htext.resolve_left hraw k hk).not_ofExecutor hnone)).symm

/-- Its definition is alike with the configuration's variables too. -/
theorem alike_apply_of_settled {key : Chars} (h : Settled config caPem job key) :
    Alike (applyRunnerConfig config job) { disposable := true, caPem := caPem } key := by
  obtain ⟨halike, huntouched, hreferences⟩ := h
  unfold Alike
  rw [lastDefinition_apply huntouched]
  cases hlast : lastDefinition job key with
  | none => exact halike.not_ofExecutor hlast
  | some v =>
      obtain ⟨hfile, htext⟩ := halike.of_some hlast
      refine ⟨hfile, or_iff_not_imp_left.mpr fun hraw k hk => ?_⟩
      exact hasOneText_apply ((hreferences v hlast).resolve_left hraw k hk)
        (htext.resolve_left hraw k hk)

theorem dockerValues_of_settled {key : Chars} (h : Settled config caPem job key) :
    (jobVariables job key).getD [] = (dockerValues config caPem jobDir job key).getD [] :=
  (jobVariables_apply_of_settled h).trans (get_of_alike (alike_apply_of_settled h))

/-- **All aliases bypass the proxy** if the services' names refer to settled variables only, and
are expanded to host names that a list can have. -/
theorem bypassesProxy_of_settled (hproxy : config.proxy.isSome = true)
    (hjob : ∀ v ∈ job.vars, v.key ≠ "NO_PROXY".toList)
    (henv : ∀ v ∈ environmentVars config, v.key ≠ "NO_PROXY".toList)
    (hsettled : ∀ s ∈ services config job, ∀ key ∈ references s.1, Settled config caPem job key)
    (hhosts : ∀ s ∈ services config job, ∀ host ∈ imageHosts (expand s.1 (jobVariables job)),
      host ≠ [] ∧ ',' ∉ host) :
    BypassesProxy config caPem jobDir job starts := by
  refine (bypassesProxy_iff hproxy hjob henv).mpr fun s hs host hhost => ?_
  have hmem := mem_services_of_started hs
  have hexpand : expand s.name (jobVariables job) =
      expand s.name (dockerValues config caPem jobDir job) :=
    expand_congr fun key hkey => dockerValues_of_settled (hsettled _ hmem key hkey)
  rw [← hexpand] at hhost
  obtain ⟨hne, hcomma⟩ := hhosts _ hmem host hhost
  exact listed_of_mem_aliases
    (List.mem_flatMap.mpr ⟨_, hmem, mem_serviceAliases.mpr (.inl hhost)⟩) hne hcomma

/-- A configuration with a proxy that sets the locale. -/
def localized : RunnerConfig :=
  { RunnerConfig.default with
    proxy := some "http://proxy:3128".toList
    environment := ["LANG=C".toList] }

/-- A job that defines the registry of its service's image. -/
def registryJob : Job :=
  { id := 1, token := []
    vars := [{ key := "REGISTRY".toList, value := some "registry.example.com".toList }]
    services := [{ name := "$REGISTRY/postgres".toList }] }

theorem bypassesProxy_of_settled_registry :
    BypassesProxy localized none [] registryJob fun _ => true := by
  refine bypassesProxy_of_settled rfl (by decide) (by decide) ?_ (by decide)
  intro s hs key hkey
  obtain rfl := List.mem_singleton.mp hs
  have href : references "$REGISTRY/postgres".toList = ["REGISTRY".toList] := by decide
  rw [href] at hkey
  obtain rfl := List.mem_singleton.mp hkey
  have hlast : lastDefinition registryJob "REGISTRY".toList =
      some { key := "REGISTRY".toList, value := some "registry.example.com".toList } := by decide
  have hnone : references "registry.example.com".toList = [] := by decide
  refine ⟨?_, by unfold Untouched; decide, ?_⟩
  · rw [Alike, hlast]
    exact ⟨rfl, .inr fun k hk => absurd (hnone ▸ hk) List.not_mem_nil⟩
  · intro v hv
    obtain rfl := Option.some.inj (hlast.symm.trans hv)
    exact .inr fun k hk => absurd (hnone ▸ hk) List.not_mem_nil

end Bypass

/-- A configuration with a service whose image names a variable of the configuration. -/
def mirrored : RunnerConfig :=
  { RunnerConfig.default with
    runnerToken := "glrt-token".toList
    proxy := some "http://proxy:3128".toList
    environment := ["REGISTRY=registry.example.com".toList]
    executor := { RunnerConfig.default.executor with
      docker := { services := [{ name := "$REGISTRY/postgres".toList }] } } }

/-- **A service whose image names a variable of the configuration is reached through the
proxy.** -/
theorem not_bypassesProxy :
    ¬ ∀ (config : RunnerConfig) (caPem : Option Chars) (jobDir : HostPath) (job : Job)
      (starts : Chars → Bool), config.proxy.isSome = true →
      (∀ v ∈ job.vars, v.key ≠ "NO_PROXY".toList) →
      (∀ v ∈ environmentVars config, v.key ≠ "NO_PROXY".toList) →
      BypassesProxy config caPem jobDir job starts := by
  intro h
  have hbypass := h mirrored none [] { id := 1, token := [] } (fun _ => true) rfl nofun
    (by decide)
  have hmem : "registry.example.com-postgres".toList ∈
      networkAliases mirrored none [] { id := 1, token := [] } fun _ => true := by decide
  have hadded : variableValue (applyRunnerConfig mirrored { id := 1, token := [] })
      "NO_PROXY".toList = some "localhost,127.0.0.1,::1,__postgres,-postgres".toList := by decide
  obtain ⟨value, hvalue, hentry⟩ := hbypass _ hmem
  obtain rfl := Option.some.inj (hadded.symm.trans hvalue)
  exact absurd hentry (by decide)

end Config

end TurboCi
