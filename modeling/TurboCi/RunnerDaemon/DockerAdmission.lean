import TurboCi.Lib.Justified
import TurboCi.RunnerDaemon.CacheVolumes

set_option autoImplicit false

/-! # What a job can make the Docker daemon do

A job chooses image names and pull policies, and nothing else of the containers that are made for
it (`start_and_run`, `ensure_image` and `release` in `runner_daemon/executor/docker.rs`). Every
request of a job has its reason in the job, the runner's configuration and what the daemon
answered before (`Admissible`): an image is pulled only if a policy allows it, a container is
made for a role, with the image, the host directories and the network of that role, and only from
an image that was found or pulled as the policy asks, steps run only in started containers of the
job, and only containers that were made for it are removed by their ids.
-/

namespace TurboCi

open Prog Logs

namespace DockerExecutor

abbrev Log := List (Sigma Request.Reply)

/-- An image that is used for a job, with the pull policies that the job asks for; the runner's
own image has none. -/
structure ImageUse where
  image : Chars
  jobPolicies : Option (List Chars)
  deriving DecidableEq

section Reasons

variable (blake3 : List UInt8 → Digest) (executor : DockerExecutor) (job : Job) (jobDir : HostPath)

/-- The variables that image names are expanded with. -/
def jobValues : Values :=
  (jobEnv job "/builds".toList jobDir { disposable := true, caPem := executor.caPem }).get

/-- The image of each role. -/
def roleImage : Role → Option ImageUse
  | .job =>
      let image := executor.jobImage job (jobValues executor job jobDir)
      some ⟨image.1, some image.2⟩
  | .service index => (executor.services job)[index]?.map fun service =>
      ⟨expand service.name (jobValues executor job jobDir), some service.pullPolicy⟩
  | .sources | .wait | .cleanup | .untracked => some ⟨executor.config.helperImage, none⟩

/-- The workspace and the configured volumes. -/
def roleBinds : Role → List Chars
  | .job => buildsBind jobDir :: executor.config.volumes.map (volumeBind blake3 job)
  | .service _ => executor.config.volumes.map (volumeBind blake3 job)
  | .sources | .cleanup | .untracked => [buildsBind jobDir]
  | .wait => []

/-- A job with services has a network of its own. -/
def jobNetwork : Option Chars := if executor.services job = [] then none else some (jobName job.id)

def roleNetwork : Role → Option Chars
  | .job | .service _ => some ((jobNetwork executor job).getD executor.config.networkMode)
  | .sources => some executor.config.networkMode
  | .wait => some (jobName job.id)
  | .cleanup => none
  | .untracked => some "none".toList

/-- The role is played in the job's own network, where the job has one. -/
def onJobNetwork : Role → Prop
  | .job | .service _ | .wait => True
  | .sources | .cleanup | .untracked => False

/-! ## What was asked and answered -/

def Present (log : Log) (image : Chars) : Prop :=
  ⟨.inspectImage (withDefaultTag image), .ok ()⟩ ∈ log

def Missing (log : Log) (image : Chars) : Prop :=
  ∃ error, ⟨.inspectImage (withDefaultTag image), .error error⟩ ∈ log

def Pulled (log : Log) (image : Chars) : Prop :=
  ⟨.createImageFor (withDefaultTag image), Pull.done⟩ ∈ log ∨
    ⟨.createImage (withDefaultTag image), .ok ()⟩ ∈ log

/-- A policy allows to pull the image. -/
def MayPull (log : Log) (use : ImageUse) : Prop :=
  match executor.imagePolicy use.jobPolicies with
  | .ok .always => True
  | .ok .ifNotPresent => Missing log use.image
  | .ok .never | .error _ => False

/-- The image is available, in the way that the policy asks for. -/
def Ready (log : Log) (use : ImageUse) : Prop :=
  match executor.imagePolicy use.jobPolicies with
  | .ok .always => Pulled log use.image
  | .ok .ifNotPresent => Present log use.image ∨ Pulled log use.image
  | .ok .never => Present log use.image
  | .error _ => False

/-- The container was made for the job. -/
def CreatedFor (log : Log) (role : Role) (id : Chars) : Prop :=
  ∃ config, ⟨.createContainer (role.name job.id) config, .ok id⟩ ∈ log

def HasStarted (log : Log) (id : Chars) : Prop := ⟨.startContainer id, .ok ()⟩ ∈ log

def NetworkMade (log : Log) (network : Chars) : Prop :=
  network = jobName job.id ∧ ∃ labels, ⟨.createNetwork network labels, .ok ()⟩ ∈ log

/-- What a container of the role is made with. -/
structure Plays (log : Log) (role : Role) (config : ContainerConfig) : Prop where
  image : ∃ use, roleImage executor job jobDir role = some use ∧ config.image = use.image ∧
    Ready executor log use
  binds : config.binds = roleBinds blake3 executor job jobDir role
  networkMode : config.networkMode = roleNetwork executor job role
  network : onJobNetwork role →
    ∀ network, jobNetwork executor job = some network → NetworkMade job log network

/-- **The reasons for the requests of a job.** -/
def Admissible (log : Log) : Request → Prop
  | .createImage reference | .createImageFor reference => ∃ role use,
      roleImage executor job jobDir role = some use ∧ reference = withDefaultTag use.image ∧
        MayPull executor log use
  | .createContainer name config => ∃ role : Role, name = role.name job.id ∧
      Plays blake3 executor job jobDir log role config
  | .startContainer id | .removeContainer .forceRemove id => ∃ role, CreatedFor job log role id
  | .removeNetwork .release network => NetworkMade job log network
  | .runJobSteps sources runner =>
      (CreatedFor job log .job runner ∧ HasStarted log runner) ∧
        (sources = runner ∨ CreatedFor job log .sources sources ∧ HasStarted log sources)
  | _ => True

/-- The containers and the network that are recorded for the job were made for it. -/
structure Recorded (log : Log) (containers : JobContainers) : Prop where
  network : ∀ network, containers.network = some network → NetworkMade job log network
  helper : ∀ id, containers.helper = some id → CreatedFor job log .sources id ∧ HasStarted log id
  services : ∀ id ∈ containers.services, ∃ role, CreatedFor job log role id
  job : ∀ id, containers.job = some id → CreatedFor job log .job id

end Reasons

variable {blake3 : List UInt8 → Digest} {executor : DockerExecutor} {job : Job} {jobDir : HostPath}
  {log t : Log}

theorem CreatedFor.mono {role : Role} {id : Chars} (hlog : log ⊆ t)
    (h : CreatedFor job log role id) : CreatedFor job t role id :=
  h.imp fun _ hmem => hlog hmem

theorem NetworkMade.mono {network : Chars} (hlog : log ⊆ t) (h : NetworkMade job log network) :
    NetworkMade job t network :=
  ⟨h.1, h.2.imp fun _ hmem => hlog hmem⟩

theorem Ready.mono {use : ImageUse} (hlog : log ⊆ t) (h : Ready executor log use) :
    Ready executor t use := by
  have hpulled : Pulled log use.image → Pulled t use.image :=
    fun hp => hp.imp (fun hmem => hlog hmem) (fun hmem => hlog hmem)
  unfold Ready at h ⊢
  split at h
  · exact hpulled h
  · exact h.imp (fun hmem => hlog hmem) hpulled
  · exact hlog h
  · exact h

theorem Recorded.mono {containers : JobContainers} (hlog : log ⊆ t)
    (h : Recorded job log containers) : Recorded job t containers where
  network := fun network hn => (h.network network hn).mono hlog
  helper := fun id hid => ⟨(h.helper id hid).1.mono hlog, hlog (h.helper id hid).2⟩
  services := fun id hid => (h.services id hid).imp fun _ hc => hc.mono hlog
  job := fun id hid => (h.job id hid).mono hlog

theorem recorded_nothing : Recorded job log {} where
  network := fun network hn => by cases hn
  helper := fun id hid => by cases hid
  services := fun id hid => by cases hid
  job := fun id hid => by cases hid

theorem recorded_helper {helper : Chars}
    (h : CreatedFor job log .sources helper ∧ HasStarted log helper) :
    Recorded job log { helper := some helper } where
  network := fun network hn => by cases hn
  helper := fun id hid => by cases hid; exact h
  services := fun id hid => by cases hid
  job := fun id hid => by cases hid

/-! ## Images -/

section Images

variable {role : Role} {use : ImageUse}

/-- A request that needs no reason. -/
def Free : Request → Prop
  | .createImage _ | .createImageFor _ | .createContainer _ _ | .startContainer _
  | .removeContainer .forceRemove _ | .removeNetwork .release _ | .runJobSteps _ _ => False
  | _ => True

theorem admissible_of_free (log : Log) (c : Request) (h : Free c) :
    Admissible blake3 executor job jobDir log c := by
  cases c with
  | removeContainer remover container => cases remover <;> trivial
  | removeNetwork remover network => cases remover <;> trivial
  | createImage | createImageFor | createContainer | startContainer | runJobSteps => exact h.elim
  | _ => trivial

theorem reaches_orFail {ε α : Type} {J : Log → Request → Prop} {error : Chars → ε}
    {reply : Except Chars α} {P : α → Log → Prop} (h : ∀ a, reply = .ok a → P a log) :
    Reaches J P (fun _ _ => True) (orFail error reply) log :=
  reaches_mapError (fun _ _ _ _ => trivial)
    (reaches_ofExcept (F := fun _ _ => True) h (fun _ _ => trivial))

theorem reaches_pullFor (hrole : roleImage executor job jobDir role = some use)
    (hmay : MayPull executor log use) :
    Reaches (Admissible blake3 executor job jobDir) (fun _ t => Pulled t use.image)
      (fun _ _ => True) (pullFor use.image) log := by
  refine reaches_ask_bind ⟨role, use, hrole, rfl, hmay⟩ fun pull => ?_
  cases pull with
  | done => exact reaches_done (.inl (by simp))
  | failed error => exact reaches_fail trivial
  | canceled => exact reaches_fail trivial

/-- **An image is pulled only where the policy asks for it**, and then it is available. -/
theorem reaches_ensureImage (hrole : roleImage executor job jobDir role = some use) :
    Reaches (Admissible blake3 executor job jobDir) (fun _ t => Ready executor t use)
      (fun _ _ => True) (executor.ensureImage use.image use.jobPolicies) log := by
  refine reaches_ask_bind trivial fun present => ?_
  refine reaches_bind (P := fun policy _ => executor.imagePolicy use.jobPolicies = .ok policy)
    (reaches_mapError (fun _ _ _ _ => trivial)
      (reaches_ofExcept (F := fun _ _ => True) (fun _ h => h) (fun _ _ => trivial)))
    fun policy u hu hpolicy => ?_
  have hinspected : ⟨.inspectImage (withDefaultTag use.image), present⟩ ∈ u := hu (by simp)
  have hpull (hmay : MayPull executor u use)
      (hready : ∀ v, Pulled v use.image → Ready executor v use) :
      Reaches (Admissible blake3 executor job jobDir) (fun _ t => Ready executor t use)
        (fun _ _ => True) (pullFor use.image) u :=
    (reaches_pullFor hrole hmay).mono (fun _ v _ hv => hready v hv) (fun _ _ _ _ => trivial)
  cases policy with
  | never =>
      cases present with
      | ok x => exact reaches_done (by rw [Ready, hpolicy]; exact hinspected)
      | error e => exact reaches_fail trivial
  | ifNotPresent =>
      have hready : ∀ v, Pulled v use.image → Ready executor v use := by
        intro v hv
        rw [Ready, hpolicy]
        exact .inr hv
      cases present with
      | ok x => exact reaches_done (by rw [Ready, hpolicy]; exact .inl hinspected)
      | error e => exact hpull (by rw [MayPull, hpolicy]; exact ⟨e, hinspected⟩) hready
  | always =>
      have hready : ∀ v, Pulled v use.image → Ready executor v use := by
        intro v hv
        rw [Ready, hpolicy]
        exact hv
      have hmay : MayPull executor u use := by
        rw [MayPull, hpolicy]
        trivial
      cases present with
      | ok x => exact hpull hmay hready
      | error e => exact hpull hmay hready

/-- The runner's own image is pulled only when it is missing. -/
theorem reaches_pullIfMissing (hrole : roleImage executor job jobDir role = some use)
    (hown : use.jobPolicies = none) :
    Reaches (Admissible blake3 executor job jobDir) (fun _ t => Ready executor t use)
      (fun _ _ => True) (pullIfMissing use.image) log := by
  have hpolicy : executor.imagePolicy use.jobPolicies = .ok .ifNotPresent := by rw [hown]; rfl
  refine reaches_ask_bind trivial fun present => ?_
  cases present with
  | ok x => exact reaches_done (by rw [Ready, hpolicy]; exact .inl (by simp [Present]))
  | error e =>
      have hmay : MayPull executor (log ++ [⟨.inspectImage (withDefaultTag use.image), .error e⟩])
          use := by
        rw [MayPull, hpolicy]
        exact ⟨e, by simp⟩
      refine reaches_ask_bind ⟨role, use, hrole, rfl, hmay⟩ fun reply => ?_
      refine reaches_orFail fun x hx => ?_
      rw [Ready, hpolicy]
      exact .inr (.inr (by simp [hx]))

end Images

/-! ## Containers -/

section Containers

variable {role : Role} {use : ImageUse}

theorem Plays.mono {config : ContainerConfig} (hlog : log ⊆ t)
    (h : Plays blake3 executor job jobDir log role config) :
    Plays blake3 executor job jobDir t role config where
  image := h.image.imp fun _ hi => ⟨hi.1, hi.2.1, hi.2.2.mono hlog⟩
  binds := h.binds
  networkMode := h.networkMode
  network := fun hon network hn => (h.network hon network hn).mono hlog

theorem reaches_createNamed {config : ContainerConfig}
    (hplays : Plays blake3 executor job jobDir log role config) :
    Reaches (Admissible blake3 executor job jobDir) (fun id t => CreatedFor job t role id)
      (fun _ _ => True) (executor.createNamed (role.name job.id) config) log := by
  have hreplace (u : Log) (hu : log ⊆ u) :
      Reaches (Admissible blake3 executor job jobDir) (fun id t => CreatedFor job t role id)
        (fun _ _ => True) (replaceNamed (role.name job.id)
          { config with labels := config.labels.extend executor.labels }) u := by
    refine reaches_ask_bind trivial fun removed => ?_
    have hlater := hplays.mono (List.Subset.trans hu (List.subset_append_left u
      [⟨.removeContainer .createNamed (role.name job.id), removed⟩]))
    refine reaches_ask_bind ⟨role, rfl, ⟨hlater.image, hlater.binds, hlater.networkMode,
      hlater.network⟩⟩ fun reply => ?_
    exact reaches_orFail fun id hid =>
      ⟨{ config with labels := config.labels.extend executor.labels }, by simp [hid]⟩
  refine reaches_ask_bind trivial fun inspected => ?_
  cases inspected with
  | error e => exact hreplace _ (List.subset_append_left log _)
  | ok existing =>
      show Reaches _ _ _ (if _ then Program.fail _ else replaceNamed _ _) _
      split
      · exact reaches_fail trivial
      · exact hreplace _ (List.subset_append_left log _)

theorem reaches_forceRemove {id : Chars} (hid : CreatedFor job log role id) :
    Reaches (Admissible blake3 executor job jobDir) (fun _ _ => True) (fun _ _ => True)
      (forceRemove id) log :=
  reaches_ask_bind ⟨role, hid⟩ fun _ => reaches_orFail fun _ _ => trivial

theorem reaches_startAndWait {id : Chars} (hid : CreatedFor job log role id) :
    Reaches (Admissible blake3 executor job jobDir) (fun _ _ => True) (fun _ _ => True)
      (startAndWait id) log := by
  refine reaches_ask_bind ⟨role, hid⟩ fun started => ?_
  refine reaches_bind (reaches_orFail (P := fun _ _ => True) fun _ _ => trivial) fun _ u _ _ => ?_
  exact reaches_ask_bind trivial fun _ => reaches_orFail fun _ _ => trivial

theorem reaches_thenRemove {α : Type} {id : Chars} {work : Docker DockerError α}
    (hid : CreatedFor job log role id)
    (hwork : Reaches (Admissible blake3 executor job jobDir) (fun _ _ => True) (fun _ _ => True)
      work log) :
    Reaches (Admissible blake3 executor job jobDir) (fun _ _ => True) (fun _ _ => True)
      (thenRemove id work) log := by
  have hremove (result : Except DockerError α) (u : Log) (hu : log ⊆ u) :
      Reaches (Admissible blake3 executor job jobDir) (fun _ _ => True) (fun _ _ => True)
        ((forceRemove id).attempt >>= fun _ => Program.ofExcept result) u := by
    have hdone (v : Log) : Reaches (Admissible blake3 executor job jobDir) (fun _ _ => True)
        (fun _ _ => True) (Program.ofExcept result) v :=
      reaches_ofExcept (fun _ _ => trivial) (fun _ _ => trivial)
    exact reaches_attempt_bind (reaches_forceRemove (hid.mono hu)) (fun _ v _ _ => hdone v)
      (fun _ v _ _ => hdone v)
  exact reaches_attempt_bind hwork (fun _ u hu _ => hremove _ u hu) (fun _ u hu _ => hremove _ u hu)

/-! ## The parts of a job -/

variable {containers : JobContainers}

/-- How a part of a job ends: with a result, or where it stopped. -/
abbrev JobReaches {α : Type} (blake3 : List UInt8 → Digest) (executor : DockerExecutor) (job : Job)
    (jobDir : HostPath) (P : α → Log → Prop) (p : Docker Stopped α) (log : Log) : Prop :=
  Reaches (Admissible blake3 executor job jobDir) P (fun e t => Recorded job t e.containers) p log

theorem reaches_during {ε α : Type} {error : ε → ExecutorFailure} {work : Docker ε α}
    {P : α → Log → Prop} (hmade : Recorded job log containers)
    (hwork : Reaches (Admissible blake3 executor job jobDir) P (fun _ _ => True) work log) :
    JobReaches blake3 executor job jobDir P (during containers error work) log :=
  reaches_mapError (fun _ _ hlog _ => hmade.mono hlog) hwork

theorem reaches_startSources :
    JobReaches blake3 executor job jobDir
      (fun c t => Recorded job t c ∧ c.network = none ∧ c.services = [] ∧ c.job = none)
      (executor.startSources job jobDir) log := by
  unfold startSources
  split
  · have hrole : roleImage executor job jobDir .sources =
        some ⟨executor.config.helperImage, none⟩ := rfl
    refine reaches_bind (reaches_during recorded_nothing (reaches_ensureImage hrole))
      fun _ u hu hready => ?_
    have hplays : Plays blake3 executor job jobDir u .sources
        { image := executor.config.helperImage, binds := [buildsBind jobDir],
          networkMode := some executor.config.networkMode } :=
      ⟨⟨_, rfl, rfl, hready⟩, rfl, rfl, fun hon => hon.elim⟩
    have hstart : Reaches (Admissible blake3 executor job jobDir)
        (fun id t => CreatedFor job t .sources id ∧ HasStarted t id) (fun _ _ => True)
        (executor.startHelper job jobDir) u := by
      refine reaches_bind (reaches_createNamed hplays) fun id v hv hid => ?_
      refine reaches_ask_bind ⟨.sources, hid⟩ fun started => ?_
      refine reaches_bind (P := fun _ t => CreatedFor job t .sources id ∧ HasStarted t id)
        (reaches_orFail fun x hx =>
          ⟨hid.mono (List.subset_append_left v _), by simp [HasStarted, hx]⟩)
        fun _ w _ hw => ?_
      exact reaches_done hw
    refine reaches_bind (reaches_during recorded_nothing hstart) fun id v hv hid => ?_
    exact reaches_done ⟨recorded_helper hid, rfl, rfl, rfl⟩
  · exact reaches_done ⟨recorded_nothing, rfl, rfl, rfl⟩

/-- The network is there where the job has one. -/
def Networked (job : Job) (executor : DockerExecutor) (log : Log) (c : JobContainers) : Prop :=
  Recorded job log c ∧ c.network = jobNetwork executor job ∧ c.job = none

theorem reaches_startNetwork (hmade : Recorded job log containers)
    (hnone : containers.network = none) (hjob : containers.job = none) :
    JobReaches blake3 executor job jobDir (fun c t => Networked job executor t c)
      (executor.startNetwork job containers) log := by
  unfold startNetwork
  split
  · next hempty =>
      exact reaches_done ⟨hmade, by rw [hnone, jobNetwork, if_pos hempty], hjob⟩
  · next hservices =>
      have hcreate : Reaches (Admissible blake3 executor job jobDir)
          (fun _ t => NetworkMade job t (jobName job.id)) (fun _ _ => True)
          (executor.createNetwork (jobName job.id)) log := by
        refine reaches_ask_bind trivial fun _ => reaches_ask_bind trivial fun reply => ?_
        exact reaches_orFail fun x hx => ⟨rfl, executor.labels, by simp [hx]⟩
      refine reaches_bind (reaches_during hmade hcreate) fun _ u hu hnetwork => ?_
      have hlater := hmade.mono hu
      refine reaches_done ⟨⟨fun n hn => ?_, hlater.helper, hlater.services, hlater.job⟩,
        by rw [jobNetwork, if_neg hservices], hjob⟩
      obtain rfl := Option.some.inj hn
      exact hnetwork

open Program in
theorem free_volumeBinds {volumes : List Chars} :
    (volumeBinds blake3 executor job volumes).Calls Free := by
  induction volumes with
  | nil => trivial
  | cons volume rest ih =>
      rw [volumeBinds]
      split
      · exact calls_bind ih fun _ => trivial
      · refine calls_bind (calls_bind (calls_ask trivial) fun present => ?_) fun _ =>
          calls_bind ih fun _ => trivial
        cases present with
        | ok x => trivial
        | error e => exact calls_bind (calls_ask trivial) fun _ => calls_orFail

theorem reaches_jobVolumes :
    Reaches (Admissible blake3 executor job jobDir)
      (fun binds _ => binds = executor.config.volumes.map (volumeBind blake3 job)) (fun _ _ => True)
      (jobVolumes blake3 executor job) log := by
  have hcalls : Reaches (Admissible blake3 executor job jobDir) (fun _ _ => True) (fun _ _ => True)
      (jobVolumes blake3 executor job) log := reaches_calls admissible_of_free free_volumeBinds
  have hbinds : Sound anyReply
      (fun binds _ => binds = executor.config.volumes.map (volumeBind blake3 job))
      (jobVolumes blake3 executor job) () := sound_volumeBinds job executor.config.volumes
  exact (reaches_of_sound (fun _ _ => trivial) hbinds hcalls).mono (fun _ _ _ h => h.2)
    (fun _ _ _ _ => trivial)

theorem reaches_prepareHost {env : JobEnv} :
    Reaches (Admissible blake3 executor job jobDir) (fun _ _ => True) (fun _ _ => True)
      (prepareHost job jobDir env) log := by
  have hcalls : (prepareHost job jobDir env).Calls Free := by
    refine Program.calls_bind (Program.calls_ask trivial) fun _ => ?_
    refine Program.calls_bind calls_orFail fun _ => ?_
    refine Program.calls_bind (Program.calls_mapError Program.calls_ofExcept) fun subdir => ?_
    exact Program.calls_bind (Program.calls_ask trivial) fun _ => calls_orFail
  exact reaches_calls admissible_of_free hcalls

/-- **Each service is made for its role**, from the service at its place in the list. -/
theorem reaches_startServices {done rest : List Service}
    (hservices : executor.services job = done ++ rest)
    (hc : Networked job executor log containers) :
    JobReaches blake3 executor job jobDir (fun c t => Networked job executor t c)
      (executor.startServices job (jobValues executor job jobDir)
        (executor.config.volumes.map (volumeBind blake3 job)) rest done.length containers) log := by
  induction rest generalizing done containers log with
  | nil => exact reaches_done hc
  | cons service rest ih =>
      have hrole : roleImage executor job jobDir (.service done.length) =
          some ⟨expand service.name (jobValues executor job jobDir), some service.pullPolicy⟩ := by
        simp [roleImage, hservices]
      have hnetworked {u v : Log} (huv : u ⊆ v) (h : Networked job executor u containers) :
          Networked job executor v containers := ⟨h.1.mono huv, h.2⟩
      refine reaches_bind (reaches_during hc.1 (reaches_ensureImage hrole)) fun _ u hu hready => ?_
      have hcu := hnetworked hu hc
      have hplays : Plays blake3 executor job jobDir u (.service done.length)
          { image := expand service.name (jobValues executor job jobDir),
            binds := executor.config.volumes.map (volumeBind blake3 job),
            networkMode := some (containers.network.getD executor.config.networkMode) } := by
        refine ⟨⟨_, hrole, rfl, hready⟩, rfl, ?_, fun _ network hn => ?_⟩
        · rw [hcu.2.1]
          rfl
        · exact hcu.1.network network (hcu.2.1.trans hn)
      refine reaches_bind (reaches_during hcu.1 (reaches_createNamed hplays)) fun id v hv hid => ?_
      have hcv := hnetworked hv hcu
      have hadded : Networked job executor v
          { containers with services := containers.services ++ [id] } := by
        refine ⟨⟨hcv.1.network, hcv.1.helper, fun i hi => ?_, hcv.1.job⟩, hcv.2⟩
        rcases List.mem_append.mp hi with hold | hnew
        · exact hcv.1.services i hold
        · rw [List.mem_singleton.mp hnew]
          exact ⟨_, hid⟩
      refine reaches_ask_bind ⟨_, hid⟩ fun started => ?_
      have hgrown : v ⊆ v ++ [⟨.startContainer id, started⟩] := List.subset_append_left v _
      have hnow := hadded.1.mono hgrown
      refine reaches_bind (reaches_during hnow (reaches_orFail (P := fun _ _ => True)
        fun _ _ => trivial)) fun _ w hw _ => ?_
      have hsplit : executor.services job = (done ++ [service]) ++ rest := by
        rw [hservices, List.append_assoc, List.singleton_append]
      have hthen : Networked job executor w
          { containers with services := containers.services ++ [id] } := ⟨hnow.mono hw, hadded.2⟩
      have hnext := ih hsplit hthen
      rw [List.length_append] at hnext
      exact hnext

open Program in
theorem free_serviceChecks {ids : List Chars} : (serviceChecks ids).Calls Free := by
  induction ids with
  | nil => trivial
  | cons id rest ih =>
      refine calls_bind (calls_ask trivial) fun inspected => ?_
      cases inspected with
      | ok info => exact calls_bind ih fun _ => trivial
      | error e => exact ih

theorem reaches_runHelper {binds : List Chars} {network : Chars}
    (hrole : roleImage executor job jobDir role = some ⟨executor.config.helperImage, none⟩)
    (hbinds : binds = roleBinds blake3 executor job jobDir role)
    (hmode : some network = roleNetwork executor job role)
    (hnetwork : onJobNetwork role →
      ∀ n, jobNetwork executor job = some n → NetworkMade job log n) :
    Reaches (Admissible blake3 executor job jobDir) (fun _ _ => True) (fun _ _ => True)
      (executor.runHelper (role.name job.id) binds network) log := by
  refine reaches_bind (reaches_pullIfMissing hrole rfl) fun _ u hu hready => ?_
  have hplays : Plays blake3 executor job jobDir u role
      { image := executor.config.helperImage, binds, networkMode := some network } :=
    ⟨⟨_, hrole, rfl, hready⟩, hbinds, hmode, fun hon n hn => (hnetwork hon n hn).mono hu⟩
  refine reaches_bind (reaches_createNamed hplays) fun id v hv hid => ?_
  refine reaches_thenRemove hid (reaches_bind (reaches_startAndWait hid) fun _ w _ _ => ?_)
  exact reaches_ask_bind trivial fun _ => reaches_orFail fun _ _ => trivial

theorem reaches_awaitServices (hc : Networked job executor log containers) :
    JobReaches blake3 executor job jobDir (fun _ t => Networked job executor t containers)
      (executor.awaitServices job.id containers) log := by
  have hkept {t : Log} (ht : log ⊆ t) : Networked job executor t containers :=
    ⟨hc.1.mono ht, hc.2⟩
  unfold awaitServices
  split
  · next network hnetwork =>
      have hmode : network = jobName job.id := (hc.1.network network hnetwork).1
      have hwait : Reaches (Admissible blake3 executor job jobDir) (fun _ _ => True)
          (fun _ _ => True) (executor.waitForServices job.id network containers.services) log := by
        refine reaches_bind (reaches_calls admissible_of_free free_serviceChecks)
          fun checks u hu _ => ?_
        split
        · exact reaches_done trivial
        · have hrole : roleImage executor job jobDir .wait =
              some ⟨executor.config.helperImage, none⟩ := rfl
          have hbinds : [] = roleBinds blake3 executor job jobDir .wait := rfl
          have hnetwork : onJobNetwork .wait →
              ∀ n, jobNetwork executor job = some n → NetworkMade job u n :=
            fun _ n hn => (hkept hu).1.network n (hc.2.1.trans hn)
          have hhelper := reaches_runHelper hrole hbinds (congrArg some hmode) hnetwork
          exact reaches_attempt_bind hhelper (fun _ _ _ _ => reaches_done trivial)
            (fun _ _ _ _ => reaches_done trivial)
      exact reaches_attempt_bind hwait (fun _ t ht _ => reaches_done (hkept ht))
        (fun _ t ht _ => reaches_done (hkept ht))
  · exact reaches_done hc

/-- **The steps of a job run in containers that were made for it and started.** -/
theorem reaches_runJob {image : Chars} {policies : List Chars}
    (himage : executor.jobImage job (jobValues executor job jobDir) = (image, policies))
    (hready : Ready executor log ⟨image, some policies⟩)
    (hc : Networked job executor log containers) :
    JobReaches blake3 executor job jobDir (fun c t => Recorded job t c)
      (executor.runJob job jobDir image
        (executor.config.volumes.map (volumeBind blake3 job)) containers) log := by
  have hplays : Plays blake3 executor job jobDir log .job
      { image, binds := buildsBind jobDir :: executor.config.volumes.map (volumeBind blake3 job),
        networkMode := some (containers.network.getD executor.config.networkMode) } := by
    refine ⟨⟨⟨image, some policies⟩, ?_, rfl, hready⟩, rfl, ?_, fun _ network hn => ?_⟩
    · rw [roleImage, himage]
    · rw [hc.2.1]
      rfl
    · exact hc.1.network network (hc.2.1.trans hn)
  refine reaches_bind (reaches_during hc.1 (reaches_createNamed hplays)) fun id u hu hid => ?_
  have hadded : Recorded job u { containers with job := some id } := by
    have hlater := hc.1.mono hu
    refine ⟨hlater.network, hlater.helper, hlater.services, fun i hi => ?_⟩
    obtain rfl := Option.some.inj hi
    exact hid
  refine reaches_ask_bind ⟨_, hid⟩ fun started => ?_
  have hnow := hadded.mono (List.subset_append_left u [⟨.startContainer id, started⟩])
  refine reaches_bind (P := fun _ t => HasStarted t id)
    (reaches_during hnow (reaches_orFail fun x hx => by simp [HasStarted, hx]))
    fun _ v hv hstarted => ?_
  have hthen := hnow.mono hv
  have hsources : containers.helper.getD id = id ∨
      CreatedFor job v .sources (containers.helper.getD id) ∧
        HasStarted v (containers.helper.getD id) := by
    cases hhelper : containers.helper with
    | none => exact .inl rfl
    | some helper => exact .inr (hthen.helper helper hhelper)
  refine reaches_ask_bind ⟨⟨hthen.job id rfl, hstarted⟩, hsources⟩ fun reply => ?_
  have hlast := hthen.mono (List.subset_append_left v
    [⟨.runJobSteps (containers.helper.getD id) id, reply⟩])
  cases reply with
  | panicked => exact reaches_fail hlast
  | outcome outcome =>
      cases outcome with
      | none => exact reaches_done hlast
      | some failure => exact reaches_fail hlast

theorem reaches_startAndRun :
    JobReaches blake3 executor job jobDir (fun c t => Recorded job t c)
      (startAndRun blake3 executor job jobDir) log := by
  have hrole : roleImage executor job jobDir .job =
      some ⟨(executor.jobImage job (jobValues executor job jobDir)).1,
        some (executor.jobImage job (jobValues executor job jobDir)).2⟩ := rfl
  refine reaches_bind (reaches_during recorded_nothing (reaches_ensureImage hrole))
    fun _ t ht hready => ?_
  refine reaches_bind (reaches_during recorded_nothing reaches_prepareHost) fun _ u hu _ => ?_
  refine reaches_bind reaches_startSources fun c v hv hc => ?_
  refine reaches_bind (reaches_during hc.1 reaches_jobVolumes) fun volumes w hw hvolumes => ?_
  subst hvolumes
  refine reaches_bind (reaches_startNetwork (hc.1.mono hw) hc.2.1 hc.2.2.2) fun c x hx hc => ?_
  have hservices : executor.services job = [] ++ executor.services job := rfl
  refine reaches_bind (reaches_startServices hservices hc) fun c y hy hc => ?_
  refine reaches_bind (reaches_awaitServices hc) fun _ z hz hc => ?_
  have hlater : Ready executor z ⟨_, some _⟩ :=
    hready.mono fun e he => hz (hy (hx (hw (hv (hu he)))))
  exact reaches_runJob rfl hlater hc

/-! ## The end of a job -/

theorem reaches_removeAll {ids : List Chars}
    (hids : ∀ id ∈ ids, ∃ role, CreatedFor job log role id) :
    Reaches (Admissible blake3 executor job jobDir) (fun _ _ => True) (fun _ _ => True)
      (removeAll ids) log := by
  induction ids generalizing log with
  | nil => exact reaches_done trivial
  | cons id rest ih =>
      obtain ⟨role, hid⟩ := hids id List.mem_cons_self
      have hrest (t : Log) (ht : log ⊆ t) : Reaches (Admissible blake3 executor job jobDir)
          (fun _ _ => True) (fun _ _ => True) (removeAll rest) t :=
        ih fun i hi => (hids i (List.mem_cons_of_mem _ hi)).imp fun _ hc => hc.mono ht
      exact reaches_attempt_bind (reaches_forceRemove hid) (fun _ t ht _ => hrest t ht)
        (fun _ t ht _ => hrest t ht)

theorem reaches_resetOwnership :
    Reaches (Admissible blake3 executor job jobDir) (fun _ _ => True) (fun _ _ => True)
      (executor.resetOwnership job.id jobDir) log := by
  refine reaches_ask_bind trivial fun reply => ?_
  refine reaches_bind (reaches_orFail (P := fun _ _ => True) fun _ _ => trivial) fun _ t _ _ => ?_
  have hrole : roleImage executor job jobDir .cleanup =
      some ⟨executor.config.helperImage, none⟩ := rfl
  refine reaches_bind (reaches_pullIfMissing hrole rfl) fun _ u hu hready => ?_
  have hplays : Plays blake3 executor job jobDir u .cleanup
      { image := executor.config.helperImage, binds := [buildsBind jobDir] } :=
    ⟨⟨_, rfl, rfl, hready⟩, rfl, rfl, fun hon => hon.elim⟩
  refine reaches_bind (reaches_createNamed hplays) fun id v hv hid => ?_
  exact reaches_thenRemove hid (reaches_startAndWait hid)

theorem reaches_release (hmade : Recorded job log containers) :
    Reaches (Admissible blake3 executor job jobDir) (fun _ _ => True) (fun _ _ => True)
      (executor.release job.id containers jobDir) log := by
  have hids : ∀ id ∈ containers.job.toList ++ containers.helper.toList ++ containers.services,
      ∃ role, CreatedFor job log role id := by
    intro id hid
    rcases List.mem_append.mp hid with hfirst | hservice
    · rcases List.mem_append.mp hfirst with hjob | hhelper
      · exact ⟨_, hmade.job id (by simpa using hjob)⟩
      · exact ⟨_, (hmade.helper id (by simpa using hhelper)).1⟩
    · exact hmade.services id hservice
  refine reaches_bind (reaches_removeAll hids) fun _ t ht _ => ?_
  have hnetwork : Reaches (Admissible blake3 executor job jobDir) (fun _ _ => True)
      (fun _ _ => True) (releaseNetwork containers.network) t := by
    cases hn : containers.network with
    | none => exact reaches_done trivial
    | some network =>
        exact reaches_ask_bind ((hmade.network network hn).mono ht) fun _ => reaches_done trivial
  refine reaches_bind hnetwork fun _ u _ _ => ?_
  split
  · exact reaches_attempt_bind reaches_resetOwnership (fun _ _ _ _ => reaches_done trivial)
      (fun _ _ _ _ => reaches_done trivial)
  · exact reaches_done trivial

theorem reaches_execute :
    Reaches (Admissible blake3 executor job jobDir) (fun _ _ => True) (fun _ _ => True)
      (execute blake3 executor job jobDir) log := by
  refine reaches_attempt_bind reaches_startAndRun (fun c t ht hc => reaches_release hc)
    fun stopped t ht hmade => ?_
  exact reaches_bind (reaches_release hmade) fun _ _ _ _ => reaches_fail trivial

end Containers

/-- **Whatever the daemon answers, every request of a job has its reason** in what was asked and
answered before. -/
theorem requests_admissible (blake3 : List UInt8 → Digest) (executor : DockerExecutor) (job : Job)
    (jobDir : HostPath) (answer : Log → (c : Request) → c.Reply) :
    Justified (fun before e => Admissible blake3 executor job jobDir before e.1)
      ((execute blake3 executor job jobDir).play answer []).1 :=
  justified_play answer justified_nil reaches_execute

end DockerExecutor
end TurboCi
