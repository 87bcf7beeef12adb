import TurboCi.RunnerDaemon.Script
import TurboCi.Security.SecretScrubber

set_option autoImplicit false

/-! # The secrets of a job

`with_job_secrets` collects what the log of a job must not show: the values of its masked
variables as they are written, its token and the tokens of its dependencies, each also
percent-encoded. The job sees the values of its environment, which are expanded and come from
the last definition of each key; where the two differ the value the job sees may be missing
among the secrets.
-/

namespace TurboCi

open Utf8

/-! ## Percent encoding -/

/-- RFC 3986 unreserved characters. -/
def isUnreserved (b : UInt8) : Bool :=
  (0x41 ≤ b && b ≤ 0x5A) || (0x61 ≤ b && b ≤ 0x7A) || (0x30 ≤ b && b ≤ 0x39) ||
    (encode "-._~".toList).contains b

/-- An upper-case hexadecimal digit. -/
def hexDigit (n : UInt8) : Char := Char.ofNat (if n < 10 then 0x30 + n.toNat else 0x37 + n.toNat)

/-- Percent-encode everything except unreserved characters. -/
def percentEncode (value : Chars) : Chars :=
  (encode value).flatMap (fun b =>
    if isUnreserved b then [Char.ofNat b.toNat] else ['%', hexDigit (b / 16), hexDigit (b % 16)])

/-! ## The scrubber of a job -/

namespace SecretScrubber

/-- The values to mask in the log of a job. -/
def jobValues (job : Job) : List Chars :=
  ((job.vars.filter (·.masked)).filterMap (·.value)) ++ [job.token] ++
    job.dependencies.map (·.token)

/-- Add a value and its percent-encoded form. -/
def addValue (self : SecretScrubber) (value : Chars) : SecretScrubber :=
  let encoded := percentEncode value
  let self := if encoded ≠ value then self.addSecret (.ofChars encoded) else self
  self.addSecret (.ofChars value)

/-- Longer secrets first, so that a shorter one cannot break a longer match. -/
def sortSecrets (self : SecretScrubber) : SecretScrubber :=
  { self with secrets := self.secrets.mergeSort (fun a b => b.bytes.length ≤ a.bytes.length) }

/-- Copy of this scrubber that also masks the job's token, dependency tokens and masked
variables. -/
def withJobSecrets (self : SecretScrubber) (job : Job) : SecretScrubber :=
  ((jobValues job).foldl addValue self).sortSecrets

/-! ## What is among the secrets -/

theorem mem_addSecret {self : SecretScrubber} {secret s : Str} :
    s ∈ (self.addSecret secret).secrets ↔
      s ∈ self.secrets ∨ (s.bytes = secret.bytes ∧ s.bytes ≠ []) := by
  have heq : s.bytes = secret.bytes → s = secret := Str.ext
  unfold addSecret
  split
  · next h =>
      rw [List.mem_append, List.mem_singleton]
      constructor
      · rintro (hs | rfl)
        · exact Or.inl hs
        · exact Or.inr ⟨rfl, h.1⟩
      · rintro (hs | ⟨hs, -⟩)
        · exact Or.inl hs
        · exact Or.inr (heq hs)
  · next h =>
      constructor
      · exact Or.inl
      · rintro (hs | ⟨hs, hne⟩)
        · exact hs
        · -- the secret is there already
          have hany : self.secrets.any (·.bytes == secret.bytes) = true := by
            by_contra hno
            exact h ⟨hs ▸ hne, hno⟩
          obtain ⟨s', hs', hb⟩ := List.any_eq_true.mp hany
          rwa [Str.ext (hs.trans (beq_iff_eq.mp hb).symm)]

/-- The value is one that is masked, or the percent-encoded form of one. -/
def MasksValue (values : List Chars) (value : Chars) : Prop :=
  value ≠ [] ∧ ∃ v ∈ values, value = v ∨ value = percentEncode v

theorem mem_addValue {self : SecretScrubber} {v value : Chars} :
    Str.ofChars value ∈ (self.addValue v).secrets ↔
      Str.ofChars value ∈ self.secrets ∨ MasksValue [v] value := by
  have hbytes : ∀ a b : Chars, (Str.ofChars a).bytes = (Str.ofChars b).bytes ↔ a = b :=
    fun a b => encode_injective.eq_iff
  have hne : (Str.ofChars value).bytes ≠ [] ↔ value ≠ [] :=
    not_congr (by rw [← hbytes value []]; rfl)
  unfold addValue MasksValue
  rw [mem_addSecret]
  by_cases henc : percentEncode v = v
  · rw [if_neg (by simpa using henc), hbytes, hne]
    simp only [List.mem_singleton, exists_eq_left, henc]
    tauto
  · rw [if_pos henc, mem_addSecret, hbytes, hbytes, hne]
    simp only [List.mem_singleton, exists_eq_left]
    tauto

theorem mem_foldl_addValue {value : Chars} : ∀ {values : List Chars} {self : SecretScrubber},
    Str.ofChars value ∈ (values.foldl addValue self).secrets ↔
      Str.ofChars value ∈ self.secrets ∨ MasksValue values value
  | [], self => by simp [MasksValue]
  | v :: values, self => by
      rw [List.foldl_cons, mem_foldl_addValue, mem_addValue, or_assoc]
      apply or_congr_right
      simp only [MasksValue, List.mem_cons, List.not_mem_nil, or_false, exists_eq_left,
        exists_eq_or_imp]
      exact and_or_left.symm

/-- **The secrets of a job**: the scrubber's own, and the values to mask with their
percent-encoded forms. -/
theorem mem_withJobSecrets {self : SecretScrubber} {job : Job} {value : Chars} :
    Str.ofChars value ∈ (self.withJobSecrets job).secrets ↔
      Str.ofChars value ∈ self.secrets ∨ MasksValue (jobValues job) value := by
  rw [← mem_foldl_addValue]
  exact List.mem_mergeSort

end SecretScrubber

/-! ## What the job sees -/

theorem JobEnv.mem_vars_of_get {env : JobEnv} {key value : Chars} (h : env.get key = some value) :
    (key, value) ∈ env.vars := by
  obtain ⟨p, hp, rfl⟩ := Option.map_eq_some_iff.mp h
  have hkey : p.1 = key := by simpa using List.find?_some hp
  rw [← hkey]
  exact List.mem_of_find?_eq_some hp

/-- Every variable of the environment has a valid name. -/
def JobEnv.KeysValid (env : JobEnv) : Prop := ∀ p ∈ env.vars, isValidKey p.1 = true

theorem JobEnv.KeysValid.set {env : JobEnv} (h : env.KeysValid) {key : Chars}
    (hkey : isValidKey key = true) (value : Chars) : (env.set key value).KeysValid := by
  intro p hp
  rcases List.mem_append.mp hp with hp | hp
  · exact h p (List.mem_filter.mp hp).1
  · rw [List.mem_singleton.mp hp]
    exact hkey

theorem JobEnv.KeysValid.setSharing {env : JobEnv} (h : env.KeysValid) (job : Job)
    (runner : RunnerVars) : (setSharing job runner env).KeysValid := by
  unfold TurboCi.setSharing
  split
  · have hdisposable := h.set (by decide : isValidKey "CI_DISPOSABLE_ENVIRONMENT".toList)
      "true".toList
    cases job.image with
    | none => exact hdisposable
    | some image => exact hdisposable.set (by decide) image.name
  · exact h.set (by decide) _

theorem runnerEnv_keysValid (job : Job) (buildsDir : Chars) (hostJobDir : HostPath)
    (runner : RunnerVars) : (runnerEnv job buildsDir hostJobDir runner).KeysValid := by
  have hnil : (⟨[], []⟩ : JobEnv).KeysValid := fun p hp => absurd hp List.not_mem_nil
  have hbase := (((((hnil.set (by decide : isValidKey "CI_BUILDS_DIR".toList) buildsDir).set
    (by decide : isValidKey "CI_PROJECT_DIR".toList) (buildsDir ++ '/' :: subdirOrDefault job)).set
    (by decide : isValidKey "CI_SERVER".toList) "yes".toList).set
    (by decide : isValidKey "CI_JOB_STATUS".toList) "running".toList).set
    (by decide : isValidKey "CI_JOB_TIMEOUT".toList)
    (Nat.toDigits 10 (job.timeoutSecs.getD 3600))).setSharing job runner
  unfold runnerEnv
  cases runner.caPem with
  | none => exact hbase
  | some pem =>
      refine JobEnv.KeysValid.set (JobEnv.KeysValid.set ?_ (by decide) _) (by decide) _
      exact hbase

/-- A name that no valid variable has is not in the environment, unless the runner sets it. -/
theorem get_jobEnv_of_none {job : Job} {buildsDir : Chars} {hostJobDir : HostPath}
    {runner : RunnerVars} {key : Chars} (h : lastDefinition job key = none) :
    (jobEnv job buildsDir hostJobDir runner).get key
      = (runnerEnv job buildsDir hostJobDir runner).get key := by
  unfold lastDefinition at h
  rw [jobEnv, get_foldl_setVariable, h]
  rfl

/-- A variable with a valid name has a last definition. -/
theorem isValidKey_of_lastDefinition_none {job : Job} {v : Variable} (hv : v ∈ job.vars)
    (h : lastDefinition job v.key = none) : isValidKey v.key = false := by
  by_contra hvalid
  have hmem : v ∈ (validVariables job).reverse := by
    rw [List.mem_reverse, validVariables, List.mem_filter]
    exact ⟨hv, by simpa using hvalid⟩
  exact absurd (List.find?_eq_none.mp h v hmem) (by simp)

/-- The value that the environment gives a variable is masked, if it is long enough to be. -/
def EnvHidden (scrubber : SecretScrubber) (job : Job) (env : JobEnv) (key : Chars) : Prop :=
  ∀ value, env.get key = some value → 4 < (encode value).length →
    Str.ofChars value ∈ (scrubber.withJobSecrets job).secrets

/-- What the last definition of a variable gives is too short to be masked, or is known as it
stands: a secret of the scrubber, or a value that is masked in the log of the job. -/
def DefinitionKnown (scrubber : SecretScrubber) (job : Job) (values : Values) (buildsDir : Chars)
    (key : Chars) : Prop :=
  ∀ d, lastDefinition job key = some d →
    let value := definedValue values buildsDir (subdirOrDefault job) d
    (encode value).length ≤ 4 ∨ Str.ofChars value ∈ scrubber.secrets ∨
      SecretScrubber.MasksValue (SecretScrubber.jobValues job) value

theorem envHidden_iff (scrubber : SecretScrubber) {job : Job} (buildsDir : Chars)
    (hostJobDir : HostPath) (runner : RunnerVars) {v : Variable} (hv : v ∈ job.vars) :
    EnvHidden scrubber job (jobEnv job buildsDir hostJobDir runner) v.key ↔
      DefinitionKnown scrubber job (expansionValues (runnerEnv job buildsDir hostJobDir runner)
        (validVariables job)) buildsDir v.key := by
  unfold EnvHidden DefinitionKnown
  cases hd : lastDefinition job v.key with
  | none =>
      -- the name is not valid, so the environment has no such variable
      have hno : ∀ value, (jobEnv job buildsDir hostJobDir runner).get v.key ≠ some value := by
        intro value hget
        rw [get_jobEnv_of_none hd] at hget
        have hvalid := runnerEnv_keysValid job buildsDir hostJobDir runner _
          (JobEnv.mem_vars_of_get hget)
        rw [isValidKey_of_lastDefinition_none hv hd] at hvalid
        cases hvalid
      constructor
      · intro _ d h
        cases h
      · intro _ value hget
        exact absurd hget (hno value)
  | some d =>
      rw [get_jobEnv job buildsDir hostJobDir runner hd]
      constructor
      · intro h d' hd'
        obtain rfl := Option.some.inj hd'
        by_cases hlong : 4 < (encode (definedValue (expansionValues (runnerEnv job buildsDir
            hostJobDir runner) (validVariables job)) buildsDir (subdirOrDefault job) d)).length
        · exact Or.inr (SecretScrubber.mem_withJobSecrets.mp (h _ rfl hlong))
        · exact Or.inl (by omega)
      · rintro h value hvalue hlong
        obtain rfl := Option.some.inj hvalue
        rcases h d rfl with hshort | hknown
        · omega
        · exact SecretScrubber.mem_withJobSecrets.mpr hknown

/-- **When the job sees only masked values**: for each masked variable that is no file, what
its last definition gives must be known as it stands. -/
theorem masked_envHidden_iff (scrubber : SecretScrubber) (job : Job) (buildsDir : Chars)
    (hostJobDir : HostPath) (runner : RunnerVars) :
    (∀ v ∈ job.vars, v.masked = true → v.file = false →
      EnvHidden scrubber job (jobEnv job buildsDir hostJobDir runner) v.key) ↔
    ∀ v ∈ job.vars, v.masked = true → v.file = false →
      DefinitionKnown scrubber job (expansionValues (runnerEnv job buildsDir hostJobDir runner)
        (validVariables job)) buildsDir v.key := by
  constructor
  · intro h v hv hm hf
    exact (envHidden_iff scrubber buildsDir hostJobDir runner hv).mp (h v hv hm hf)
  · intro h v hv hm hf
    exact (envHidden_iff scrubber buildsDir hostJobDir runner hv).mpr (h v hv hm hf)

/-- A masked variable that is the last of its name and is not changed by expansion is known. -/
theorem definitionKnown_of_unexpanded (scrubber : SecretScrubber) {job : Job} (values : Values)
    (buildsDir : Chars) {v : Variable} (hv : v ∈ job.vars) (hm : v.masked = true)
    (hf : v.file = false) (hlast : lastDefinition job v.key = some v)
    (hraw : v.raw = true ∨ '$' ∉ v.value.getD []) :
    DefinitionKnown scrubber job values buildsDir v.key := by
  intro d hd
  rw [hlast] at hd
  obtain rfl := Option.some.inj hd
  have hcontent : definedValue values buildsDir (subdirOrDefault job) v = v.value.getD [] := by
    rw [definedValue, hf, if_neg Bool.false_ne_true, variableContent]
    rcases hraw with hraw | hdollar
    · rw [if_pos hraw]
    · rw [expand_of_not_mem values hdollar, ite_self]
  simp only
  rw [hcontent]
  cases hval : v.value with
  | none => exact Or.inl (Nat.zero_le 4)
  | some value =>
      by_cases hne : value = []
      · rw [hne]
        exact Or.inl (Nat.zero_le 4)
      · refine Or.inr (Or.inr ⟨hne, value, ?_, Or.inl rfl⟩)
        rw [SecretScrubber.jobValues, List.mem_append, List.mem_append]
        refine Or.inl (Or.inl (List.mem_filterMap.mpr ⟨v, ?_, hval⟩))
        exact List.mem_filter.mpr ⟨hv, hm⟩

/-- A job with a masked variable that refers to another one. -/
def referringJob : Job where
  id := 1
  token := "job-token".toList
  vars := [{ key := "X".toList, value := "db-host".toList },
    { key := "S".toList, value := "pre-$X-post".toList, masked := true }]

/-- **A masked variable the log shows.** The job sees `pre-db-host-post`, which is not among
the secrets. -/
theorem not_envHidden_referring :
    ¬ ∀ v ∈ referringJob.vars, v.masked = true → v.file = false →
      EnvHidden ⟨[], []⟩ referringJob (jobEnv referringJob "/builds".toList [] {}) v.key := by
  intro h
  have hmem := h { key := "S".toList, value := "pre-$X-post".toList, masked := true }
    (by decide) rfl rfl "pre-db-host-post".toList (by decide +kernel) (by decide +kernel)
  rw [SecretScrubber.mem_withJobSecrets] at hmem
  rcases hmem with hmem | ⟨-, value, hvalue, hmem⟩
  · cases hmem
  · have hno : ∀ value ∈ SecretScrubber.jobValues referringJob,
        "pre-db-host-post".toList ≠ value ∧ "pre-db-host-post".toList ≠ percentEncode value := by
      decide +kernel
    rcases hmem with hmem | hmem
    · exact (hno value hvalue).1 hmem
    · exact (hno value hvalue).2 hmem

end TurboCi
