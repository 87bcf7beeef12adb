import Mathlib.Data.List.Basic
import TurboCi.RunnerDaemon.Docker
import TurboCi.RunnerDaemon.Slots

set_option autoImplicit false

/-! # Cache volumes

A container path that is configured without a host path becomes a Docker volume. Its name has the
project, the job's `CI_CONCURRENT_PROJECT_ID` and a hash of the path (`job_volumes` in
`runner_daemon/executor/docker.rs`), so that parallel jobs of a project have volumes of their
own. The variable is what the runner's environment or the job define it as, and only else the
slot that the job was assigned: two jobs have a volume in common exactly if they are of one
project and these texts are the same (`cache_volumes_private`).
-/

namespace TurboCi

open Prog Runs

namespace DockerExecutor

open Program

variable (blake3 : List UInt8 → Digest) (executor : DockerExecutor)

/-- The container paths without a host path. -/
def barePaths : List Chars := executor.config.volumes.filter fun volume => ¬ ':' ∈ volume

/-- The names of the volumes of a job. -/
def cacheVolumes (job : Job) : List Chars :=
  executor.barePaths.map (volumeName blake3 job)

/-! ## What the executor asks for -/

/-- The request is not about a volume other than these. -/
def OnlyVolumes (names : List Chars) : Request → Prop
  | .inspectVolume name | .createVolume name _ => name ∈ names
  | _ => True

variable {blake3 executor}

theorem onlyVolumes_volumeBinds {job : Job} {names volumes : List Chars}
    (h : ∀ volume ∈ volumes, ':' ∉ volume → volumeName blake3 job volume ∈ names) :
    (volumeBinds blake3 executor job volumes).Calls (OnlyVolumes names) := by
  induction volumes with
  | nil => trivial
  | cons volume rest ih =>
      have hrest := ih fun v hv => h v (List.mem_cons_of_mem _ hv)
      rw [volumeBinds]
      split
      · exact calls_bind hrest fun _ => trivial
      · next hbare =>
          have hname := h volume List.mem_cons_self hbare
          refine calls_bind (calls_bind (calls_ask hname) fun present => ?_) fun _ =>
            calls_bind hrest fun _ => trivial
          cases present with
          | ok x => trivial
          | error e => exact calls_bind (calls_ask hname) fun _ => calls_orFail

/-- **The volumes of a job are the only ones that are looked at and created for it.** -/
theorem onlyVolumes_jobVolumes (job : Job) :
    (jobVolumes blake3 executor job).Calls (OnlyVolumes (cacheVolumes blake3 executor job)) := by
  refine onlyVolumes_volumeBinds fun volume hvolume hbare => ?_
  exact List.mem_map_of_mem (List.mem_filter.mpr ⟨hvolume, by simpa using hbare⟩)

/-- Whatever the daemon answers. -/
def anyReply : Spec Unit Request Request.Reply where
  pre _ _ := True
  post _ _ _ _ := True

theorem sound_anyReply {ε α : Type} (p : Docker ε α) : Sound anyReply (fun _ _ => True) p () := by
  induction p with
  | done a => trivial
  | fail e => trivial
  | call c k ih => exact ⟨trivial, fun r _ _ => ih r⟩

/-- What a configured volume is bound as. -/
def volumeBind (blake3 : List UInt8 → Digest) (job : Job) (volume : Chars) : Chars :=
  if ':' ∈ volume then volume else volumeName blake3 job volume ++ ':' :: volume

/-- **A bare container path is bound to its volume**, the other volumes are bound as they are. -/
theorem sound_volumeBinds (job : Job) (volumes : List Chars) :
    Sound anyReply (fun binds _ => binds = volumes.map (volumeBind blake3 job))
      (volumeBinds blake3 executor job volumes) () := by
  induction volumes with
  | nil => rfl
  | cons volume rest ih =>
      rw [volumeBinds]
      split
      · next hhost =>
          refine sound_bind ih fun binds _ hbinds => ?_
          show volume :: binds = _
          rw [hbinds, List.map_cons, volumeBind, if_pos hhost]
      · next hbare =>
          refine sound_bind (sound_anyReply _) fun _ _ _ => ?_
          refine sound_bind ih fun binds _ hbinds => ?_
          show (volumeName blake3 job volume ++ ':' :: volume) :: binds = _
          rw [hbinds, List.map_cons, volumeBind, if_neg hbare]

/-! ## Names -/

theorem volumeName_eq (job : Job) (volume : Chars) :
    volumeName blake3 job volume = "turboci-cache-p".toList ++ (Nat.toDigits 10 (projectId job) ++
      ("-c".toList ++ ((variableValue job "CI_CONCURRENT_PROJECT_ID".toList).getD "0".toList ++
        '-' :: (blake3 (Utf8.encode volume)).toHex.take 12))) := by
  unfold volumeName projectId
  rw [List.append_assoc, List.append_assoc, List.append_assoc]

/-- **What a volume's name says about its job**: the project and the slot. -/
theorem eq_of_volumeName_eq {a b : Job} {v w : Chars}
    (h : volumeName blake3 a v = volumeName blake3 b w) :
    projectId a = projectId b ∧
      (variableValue a "CI_CONCURRENT_PROJECT_ID".toList).getD "0".toList =
        (variableValue b "CI_CONCURRENT_PROJECT_ID".toList).getD "0".toList := by
  rw [volumeName_eq, volumeName_eq] at h
  have hslot : ∀ rest, Names.NoDigit ("-c".toList ++ rest) := fun _ =>
    Names.noDigit_cons (by decide)
  obtain ⟨hproject, hrest⟩ :=
    Names.toDigits_append_inj (hslot _) (hslot _) (List.append_cancel_left h)
  -- the hashes have one length, so the slots end at one place
  have hlength : ∀ volume : Chars,
      ('-' :: (blake3 (Utf8.encode volume)).toHex.take 12).length = 13 := by
    intro volume
    rw [List.length_cons, List.length_take, length_toHex]
    rfl
  have hslots := List.append_inj' (List.append_cancel_left hrest)
    ((hlength v).trans (hlength w).symm)
  exact ⟨hproject, hslots.1⟩

/-- Two jobs have volumes of their own exactly if there are none, or the projects or the slots in
their names are different. -/
theorem disjoint_cacheVolumes_iff (a b : Job) :
    (cacheVolumes blake3 executor a).Disjoint (cacheVolumes blake3 executor b) ↔
      executor.barePaths = [] ∨ projectId a ≠ projectId b ∨
        (variableValue a "CI_CONCURRENT_PROJECT_ID".toList).getD "0".toList ≠
          (variableValue b "CI_CONCURRENT_PROJECT_ID".toList).getD "0".toList := by
  constructor
  · intro hdisjoint
    by_contra hsame
    push Not at hsame
    obtain ⟨hbare, hproject, hslot⟩ := hsame
    obtain ⟨volume, hvolume⟩ := List.exists_mem_of_ne_nil _ hbare
    have hname : volumeName blake3 a volume = volumeName blake3 b volume := by
      rw [volumeName_eq, volumeName_eq, hproject, hslot]
    refine hdisjoint (List.mem_map_of_mem hvolume) ?_
    rw [hname]
    exact List.mem_map_of_mem hvolume
  · intro hapart name ha hb
    obtain ⟨v, hv, rfl⟩ := List.mem_map.mp ha
    obtain ⟨w, -, heq⟩ := List.mem_map.mp hb
    obtain ⟨hproject, hslot⟩ := eq_of_volumeName_eq heq.symm
    rcases hapart with hbare | hprojects | hslots
    · rw [hbare] at hv
      exact absurd hv List.not_mem_nil
    · exact hprojects hproject
    · exact hslots hslot

end DockerExecutor

/-! ## Which definition wins -/

def concurrentProjectId : Chars := "CI_CONCURRENT_PROJECT_ID".toList

/-- The last definition of the slot by the runner's environment or by the job. -/
def slotDefinition (config : Config.RunnerConfig) (job : Job) : Option Variable :=
  (job.vars ++ environmentVars config).reverse.find? (·.key = concurrentProjectId)

/-- The slot in the names of a job's volumes, for the slot that it was assigned. -/
def slotText (config : Config.RunnerConfig) (job : Job) (slot : Nat) : Chars :=
  match slotDefinition config job with
  | some v => v.value.getD "0".toList
  | none => Nat.toDigits 10 slot

/-- **The runner's environment and the job win over the slot that was assigned.** -/
theorem variableValue_withSlot (build : Build) (config : Config.RunnerConfig) (token : Chars)
    (pair : Nat × Nat) (job : Job) :
    (variableValue (withSlot build config token pair job) concurrentProjectId).getD "0".toList =
      slotText config job pair.2 := by
  obtain ⟨proxyVars, hvars⟩ : ∃ proxyVars : List Variable,
      (withSlot build config token pair job).vars = proxyVars ++ ([
        runnerVariable "CI_RUNNER_SHORT_TOKEN".toList (shortToken token),
        runnerVariable "CI_RUNNER_EXECUTABLE_ARCH".toList build.executableArch,
        runnerVariable "CI_RUNNER_REVISION".toList build.revision,
        runnerVariable "CI_RUNNER_VERSION".toList build.version,
        runnerVariable concurrentProjectId (Nat.toDigits 10 pair.2),
        runnerVariable "CI_CONCURRENT_ID".toList (Nat.toDigits 10 pair.1)] ++
        (job.vars ++ environmentVars config)) := by
    unfold withSlot applyRunnerConfig
    simp only [insertVars_eq, List.append_assoc]
    exact ⟨_, rfl⟩
  unfold variableValue slotText slotDefinition
  rw [hvars, List.reverse_append, List.reverse_append, List.find?_append, List.find?_append]
  cases (job.vars ++ environmentVars config).reverse.find? (·.key = concurrentProjectId) with
  | some v => rfl
  | none =>
      rw [Option.none_or]
      rfl

/-! ## Jobs that run at the same time -/

namespace Jobs

/-- The running job is this one of GitLab's, with its slot. -/
def Running.Runs (build : Build) (config : Config.RunnerConfig) (r : Running) (job : Job) : Prop :=
  ∃ token, r.job = withSlot build config token r.slot.pair job ∧ r.slot.project = projectId job

/-- Neither the job nor the runner's environment defines the slot. -/
def AssignsSlot (config : Config.RunnerConfig) : Label → Prop
  | .start job _ => slotDefinition config job = none
  | .finish _ => True

/-- Every running job is one of GitLab's for which `C` holds. -/
def RunsAll (build : Build) (config : Config.RunnerConfig) (C : Job → Prop) (s : State) : Prop :=
  ∀ r ∈ s.running, ∃ job, r.Runs build config job ∧ C job

theorem runsAll_step {build : Build} {config : Config.RunnerConfig} {C : Job → Prop} {s : State}
    {l : Label} {s' : State}
    (hi : RunsAll build config C s) (hc : ∀ job token, l = .start job token → C job)
    (h : step build config s l = some s') : RunsAll build config C s' := by
  cases l with
  | start job token =>
      simp only [step] at h
      split at h
      · obtain rfl := Option.some.inj h
        exact forall_concat hi ⟨job, ⟨token, rfl, rfl⟩, hc job token rfl⟩
      · cases h
  | finish i =>
      simp only [step] at h
      split at h
      · obtain rfl := Option.some.inj h
        exact fun r hr => hi r (List.mem_of_mem_eraseIdx hr)
      · cases h

theorem slotText_of_runs {build : Build} {config : Config.RunnerConfig} {r : Running} {job : Job}
    (h : r.Runs build config job) :
    (variableValue r.job concurrentProjectId).getD "0".toList =
      slotText config job r.slot.pair.2 := by
  obtain ⟨token, hjob, -⟩ := h
  rw [hjob]
  exact variableValue_withSlot build config token r.slot.pair job

theorem projectId_of_runs {build : Build} {config : Config.RunnerConfig} {r : Running} {job : Job}
    (h : r.Runs build config job) : projectId r.job = projectId job := by
  obtain ⟨token, hjob, -⟩ := h
  rw [hjob]
  rfl

end Jobs

/-- **Jobs that run at the same time have cache volumes of their own exactly if** no bare
container path is configured, or any two of them in one project have different slot texts; and so
in every run in which neither a job nor the runner's environment defines the slot. -/
theorem cache_volumes_private (blake3 : List UInt8 → Digest) (executor : DockerExecutor)
    (build : Build) (config : Config.RunnerConfig) (ls : List Jobs.Label) (s : Jobs.State)
    (hrun : run (Jobs.step build config) {} ls = some s) :
    (∀ r ∈ s.running, ∃ job, r.Runs build config job) ∧
    (∀ a ∈ s.running, ∀ b ∈ s.running, ∀ ja jb, a.Runs build config ja → b.Runs build config jb →
      ((executor.cacheVolumes blake3 a.job).Disjoint (executor.cacheVolumes blake3 b.job) ↔
        executor.barePaths = [] ∨ projectId ja ≠ projectId jb ∨
          slotText config ja a.slot.pair.2 ≠ slotText config jb b.slot.pair.2)) ∧
    (Runs.Always (Jobs.step build config) (fun _ l => Jobs.AssignsSlot config l) {} ls →
      s.running.Pairwise fun a b =>
        (executor.cacheVolumes blake3 a.job).Disjoint (executor.cacheVolumes blake3 b.job)) := by
  refine ⟨fun r hr => ?_, fun a _ b _ ja jb ha hb => ?_, fun hassigns => ?_⟩
  · have hall : Jobs.RunsAll build config (fun _ => True) s :=
      invariant (fun _ _ _ hi hs => Jobs.runsAll_step hi (fun _ _ _ => trivial) hs)
        (fun r hr => absurd hr List.not_mem_nil) hrun
    obtain ⟨job, hruns, -⟩ := hall r hr
    exact ⟨job, hruns⟩
  · rw [DockerExecutor.disjoint_cacheVolumes_iff]
    have hslots := Jobs.slotText_of_runs ha
    have hslots' := Jobs.slotText_of_runs hb
    unfold concurrentProjectId at hslots hslots'
    rw [Jobs.projectId_of_runs ha, Jobs.projectId_of_runs hb, hslots, hslots']
  · have hnone : Jobs.RunsAll build config (fun job => slotDefinition config job = none) s := by
      refine invariant_of_always (fun s l s' hi hc hs => Jobs.runsAll_step hi ?_ hs)
        (fun r hr => absurd hr List.not_mem_nil) hassigns hrun
      rintro job token rfl
      exact hc
    have hslots : Slots.Inv s.toSlots := Slots.inv_run (Jobs.run_toSlots hrun)
    refine (List.pairwise_map.mp hslots.apart).imp_of_mem ?_
    intro a b ha hb hapart
    obtain ⟨ja, hja, hanone⟩ := hnone a ha
    obtain ⟨jb, hjb, hbnone⟩ := hnone b hb
    rw [DockerExecutor.disjoint_cacheVolumes_iff]
    by_cases hproject : projectId a.job = projectId b.job
    · refine .inr (.inr ?_)
      have hslotA := Jobs.slotText_of_runs hja
      have hslotB := Jobs.slotText_of_runs hjb
      unfold concurrentProjectId at hslotA hslotB
      rw [hslotA, hslotB, slotText, slotText, hanone, hbnone]
      intro heq
      -- the slots were handed out to jobs of one project
      rw [Jobs.projectId_of_runs hja, Jobs.projectId_of_runs hjb] at hproject
      obtain ⟨ta, -, hpa⟩ := hja
      obtain ⟨tb, -, hpb⟩ := hjb
      exact hapart.2 (by rw [hpa, hpb, hproject]) (Names.toDigits_inj.mp heq)
    · exact .inr (.inl hproject)

/-- Two jobs of a project that define nothing. -/
def twoJobs : List Jobs.Label :=
  [.start { id := 1, token := [], jobInfo := some ⟨7⟩ } [],
    .start { id := 2, token := [], jobInfo := some ⟨7⟩ } []]

/-- An executor with one bare container path. -/
def cacheExecutor : DockerExecutor := { config := { volumes := ["/cache".toList] } }

theorem cache_volumes_private_twoJobs :
    ∃ s, run (Jobs.step {} {}) {} twoJobs = some s ∧ s.running.length = 2 ∧
      s.running.Pairwise fun a b =>
        (cacheExecutor.cacheVolumes DockerExecutor.zeroDigest a.job).Disjoint
          (cacheExecutor.cacheVolumes DockerExecutor.zeroDigest b.job) := by
  obtain ⟨s, hs, hlength⟩ : ∃ s, run (Jobs.step {} {}) {} twoJobs = some s ∧ s.running.length = 2 :=
    Option.map_eq_some_iff.mp (by decide)
  have hassigns : Runs.Always (Jobs.step {} {}) (fun _ l => Jobs.AssignsSlot {} l) {} twoJobs :=
    ⟨rfl, rfl, trivial⟩
  exact ⟨s, hs, hlength,
    (cache_volumes_private DockerExecutor.zeroDigest cacheExecutor {} {} _ s hs).2.2 hassigns⟩

/-- The second job defines the slot that the first one was assigned. -/
def takenSlot : List Jobs.Label :=
  [.start { id := 1, token := [], jobInfo := some ⟨7⟩ } [],
    .start { id := 2, token := [], jobInfo := some ⟨7⟩,
             vars := [{ key := "CI_CONCURRENT_PROJECT_ID".toList, value := some ['0'] }] } []]

/-- **Two jobs that run at the same time and have one volume**, though their slots differ. -/
theorem shared_cache_volume :
    ∃ s, run (Jobs.step {} {}) {} takenSlot = some s ∧
      s.running.map (fun r =>
          (r.slot.pair.2, cacheExecutor.cacheVolumes DockerExecutor.zeroDigest r.job)) =
        [(0, ["turboci-cache-p7-c0-000000000000".toList]),
          (1, ["turboci-cache-p7-c0-000000000000".toList])] ∧
      ¬ s.running.Pairwise fun a b =>
        (cacheExecutor.cacheVolumes DockerExecutor.zeroDigest a.job).Disjoint
          (cacheExecutor.cacheVolumes DockerExecutor.zeroDigest b.job) := by
  obtain ⟨s, hs, hnames⟩ : ∃ s, run (Jobs.step {} {}) {} takenSlot = some s ∧
      s.running.map (fun r =>
          (r.slot.pair.2, cacheExecutor.cacheVolumes DockerExecutor.zeroDigest r.job)) =
        [(0, ["turboci-cache-p7-c0-000000000000".toList]),
          (1, ["turboci-cache-p7-c0-000000000000".toList])] :=
    Option.map_eq_some_iff.mp (by decide)
  refine ⟨s, hs, hnames, fun hpairwise => ?_⟩
  have hvolumes := congrArg (List.map Prod.snd) hnames
  rw [List.map_map] at hvolumes
  have hdisjoint := (List.pairwise_map (f := fun r : Jobs.Running =>
    cacheExecutor.cacheVolumes DockerExecutor.zeroDigest r.job)).mpr hpairwise
  have hmap : s.running.map (fun r => cacheExecutor.cacheVolumes DockerExecutor.zeroDigest r.job) =
      [["turboci-cache-p7-c0-000000000000".toList],
        ["turboci-cache-p7-c0-000000000000".toList]] := hvolumes
  rw [hmap] at hdisjoint
  exact List.rel_of_pairwise_cons hdisjoint List.mem_cons_self List.mem_cons_self
    List.mem_cons_self

end TurboCi
