import TurboCi.Lib.Prog
import TurboCi.RunnerDaemon.CacheNames
import TurboCi.RunnerDaemon.Git
import TurboCi.RunnerDaemon.Image
import TurboCi.RunnerDaemon.JobSteps
import TurboCi.RunnerDaemon.RunnerConfig

set_option autoImplicit false

/-! # The Docker executor

What the Docker executor asks of the Docker daemon, in order: one container for the job, one
that checks out its sources, one for each service on a network of the job's own
(`runner_daemon/executor/docker.rs`). The executor is a program whose calls are requests to the
daemon, and the few things it does on the host. Running the steps in the containers is one call
(`run_job_steps`), which makes no containers and no networks.

Of what a container is made with, only the image, the labels, the binds and the network are
kept; messages of failures are kept as one constructor for each.
-/

namespace TurboCi

open Prog

/-! ## Requests -/

abbrev Labels := List (Chars × Chars)

/-- Marks containers and networks with the runner that created them. -/
def ownerLabel : Chars := "turboci.runner".toList

structure ContainerConfig where
  image : Chars
  labels : Labels := []
  binds : List Chars := []
  networkMode : Option Chars := none
  deriving DecidableEq

/-- What an inspection of a container shows; `ports` are those that `service_ports` reads. -/
structure ContainerInfo where
  name : Option Chars := none
  labels : Option Labels := none
  ports : List Nat := []
  deriving DecidableEq

/-- The function that asks for a removal. -/
inductive Remover where
  | createNamed
  | createNetwork
  | forceRemove
  | release
  | sweepOrphans
  deriving DecidableEq

inductive Request where
  | inspectImage (reference : Chars)
  /-- a pull, to its end -/
  | createImage (reference : Chars)
  /-- a pull that stops when the job is aborted -/
  | createImageFor (reference : Chars)
  | writeVariableFiles (files : List (HostPath × Chars))
  | createDirAll (dir : HostPath)
  | metadata (dir : HostPath)
  | inspectVolume (name : Chars)
  | createVolume (name : Chars) (labels : Labels)
  | inspectContainer (container : Chars)
  | createContainer (name : Chars) (config : ContainerConfig)
  | startContainer (container : Chars)
  | waitContainer (container : Chars)
  | logs (container : Chars)
  | removeContainer (remover : Remover) (container : Chars)
  | listContainers (label : Chars × Chars)
  | createNetwork (name : Chars) (labels : Labels)
  | removeNetwork (remover : Remover) (network : Chars)
  | listNetworks (label : Chars × Chars)
  /-- the job's steps, in the containers for the sources and for the scripts -/
  | runJobSteps (sources runner : Chars)
  deriving DecidableEq

inductive Pull where
  | done
  | failed (error : Chars)
  | canceled
  deriving DecidableEq

inductive StepsReply where
  | outcome (outcome : JobOutcome)
  | panicked
  deriving DecidableEq

/-- The reply to a request; an error is its text. -/
abbrev Request.Reply : Request → Type
  | .createImageFor _ => Pull
  | .inspectContainer _ => Except Chars ContainerInfo
  | .createContainer _ _ | .logs _ => Except Chars Chars
  | .listContainers _ | .listNetworks _ => Except Chars (List (Option Chars))
  | .runJobSteps _ _ => StepsReply
  | _ => Except Chars Unit

/-! ## Failures -/

/-- What a function that talks to Docker fails with. -/
inductive DockerError where
  | api (error : Chars)
  | usedByAnotherRunner (name : Chars)
  | failedToCreateContainer (error : Chars)
  | failedToCreateNetwork (name error : Chars)
  | failedToCreateVolume (volume error : Chars)
  | failedToStartHelper (error : Chars)
  | failedToPull (image error : Chars)
  | metadata (error : Chars)
  deriving DecidableEq

/-- Why the executor fails a job. -/
inductive ExecutorFailure where
  | policyNotAllowed (jobPolicies allowed : List Chars)
  | imageNotPresent (image : Chars)
  | failedToPull (image error : Chars)
  | canceled
  | variableFiles (error : Chars)
  | clonePath (error : ClonePathError)
  | failedToCreateWorkspace (error : Chars)
  | docker (error : DockerError)
  | service (name : Chars) (error : DockerError)
  | serviceStart (image error : Chars)
  | failedToStart (error : Chars)
  | steps (failure : JobFailure)
  | internalError
  deriving DecidableEq

abbrev Docker := Program Request Request.Reply

def ask {ε : Type} (c : Request) : Docker ε c.Reply := Program.ask c

/-- A reply with `?`. -/
def orFail {ε α : Type} (error : Chars → ε) (reply : Except Chars α) : Docker ε α :=
  (Program.ofExcept reply).mapError error

/-! ## The executor -/

structure DockerExecutor where
  config : Config.DockerConfig := {}
  owner : Chars := "turboci".toList
  caPem : Option Chars := none
  deriving DecidableEq

/-- Containers and network created for one job, removed when it ends. -/
structure JobContainers where
  network : Option Chars := none
  helper : Option Chars := none
  services : List Chars := []
  job : Option Chars := none
  deriving DecidableEq

/-! ### Names -/

def jobName (id : Nat) : Chars := "turboci-job-".toList ++ Nat.toDigits 10 id

def sourcesName (id : Nat) : Chars := jobName id ++ "-sources".toList

def serviceName (id index : Nat) : Chars := jobName id ++ "-svc-".toList ++ Nat.toDigits 10 index

def waitName (id : Nat) : Chars := jobName id ++ "-svc-wait".toList

def cleanupName (id : Nat) : Chars := jobName id ++ "-cleanup".toList

def untrackedName (id : Nat) : Chars := jobName id ++ "-untracked".toList

/-- What a container is for. -/
inductive Role where
  | job
  | sources
  | service (index : Nat)
  | wait
  | cleanup
  | untracked
  deriving DecidableEq

namespace Role

def name (id : Nat) : Role → Chars
  | job => jobName id
  | sources => sourcesName id
  | service index => serviceName id index
  | wait => waitName id
  | cleanup => cleanupName id
  | untracked => untrackedName id

def serviceSuffix (index : Nat) : Chars := "-svc-".toList ++ Nat.toDigits 10 index

/-- What follows the job's id. -/
def suffix : Role → Chars
  | job => []
  | sources => "-sources".toList
  | service index => serviceSuffix index
  | wait => "-svc-wait".toList
  | cleanup => "-cleanup".toList
  | untracked => "-untracked".toList

theorem name_eq (id : Nat) (role : Role) : role.name id = jobName id ++ role.suffix := by
  cases role with
  | job => exact (List.append_nil _).symm
  | service index => exact List.append_assoc _ _ _
  | sources | wait | cleanup | untracked => rfl

theorem toDigits_ne_wait (index : Nat) : Nat.toDigits 10 index ≠ ['w', 'a', 'i', 't'] := by
  intro h
  have hdigit := Names.isDigit_of_mem (n := index) (c := 'w') (by simp [h])
  simp at hdigit

theorem suffix_injective : Function.Injective suffix := by
  intro a b h
  unfold suffix serviceSuffix at h
  cases a with
  | service i =>
      cases b with
      | service j =>
          have hdigits : Nat.toDigits 10 i = Nat.toDigits 10 j := by simpa using h
          rw [Names.toDigits_inj.mp hdigits]
      | wait =>
          have hdigits : Nat.toDigits 10 i = ['w', 'a', 'i', 't'] := by simpa using h
          exact absurd hdigits (toDigits_ne_wait i)
      | job | sources | cleanup | untracked => simp at h
  | wait =>
      cases b with
      | service j =>
          have hdigits : Nat.toDigits 10 j = ['w', 'a', 'i', 't'] := by simpa using h.symm
          exact absurd hdigits (toDigits_ne_wait j)
      | wait => rfl
      | job | sources | cleanup | untracked => simp at h
  | job | sources | cleanup | untracked =>
      cases b <;> first | rfl | simp at h

/-- **The containers of a job have different names.** -/
theorem name_injective (id : Nat) : Function.Injective (name id) := by
  intro a b h
  rw [name_eq, name_eq] at h
  exact suffix_injective (List.append_cancel_left h)

end Role

/-- A path as text. -/
def display (path : HostPath) : Chars := path.flatMap ('/' :: ·)

def buildsBind (jobDir : HostPath) : Chars := display jobDir ++ ":/builds".toList

/-- A map in which these entries replace those of the same key. -/
def Labels.extend (labels entries : Labels) : Labels :=
  entries ++ labels.filter fun l => entries.all fun e => e.1 ≠ l.1

/-- Why `start_and_run` ended early: the containers it had made, and its failure, none when it
panicked. -/
structure Stopped where
  containers : JobContainers
  failure : Option ExecutorFailure

namespace DockerExecutor

variable (blake3 : List UInt8 → Digest) (executor : DockerExecutor)

def labels : Labels := [(ownerLabel, executor.owner)]

/-! ### Images -/

/-- Pull an image for the job, until the job is aborted. -/
def pullFor (image : Chars) : Docker ExecutorFailure Unit := do
  let pull : Pull ← ask (.createImageFor (withDefaultTag image))
  match pull with
  | .done => return ()
  | .failed error => .fail (.failedToPull image error)
  | .canceled => .fail .canceled

/-- The pull policy; without policies of a job it is that of the runner's own helper image, which
is pulled only when it is missing. -/
def imagePolicy (jobPolicies : Option (List Chars)) :
    Except (List Chars × List Chars) PullPolicy :=
  match jobPolicies with
  | none => .ok .ifNotPresent
  | some policies =>
      PullPolicy.resolve policies executor.config.pullPolicy executor.config.allowedPullPolicies

/-- Make an image available according to the pull policy. -/
def ensureImage (image : Chars) (jobPolicies : Option (List Chars)) :
    Docker ExecutorFailure Unit := do
  let present : Except Chars Unit ← ask (.inspectImage (withDefaultTag image))
  let policy ← (Program.ofExcept (executor.imagePolicy jobPolicies)).mapError fun e =>
    .policyNotAllowed e.1 e.2
  match policy, present with
  | .never, .ok _ | .ifNotPresent, .ok _ => return ()
  | .never, .error _ => .fail (.imageNotPresent image)
  | .ifNotPresent, .error _ | .always, _ => pullFor image

/-- Pull an image of the runner's own when it is not present. -/
def pullIfMissing (image : Chars) : Docker DockerError Unit := do
  let reference := withDefaultTag image
  let present : Except Chars Unit ← ask (.inspectImage reference)
  match present with
  | .ok _ => return ()
  | .error _ => orFail (.failedToPull image) (← ask (.createImage reference))

/-! ### Containers and networks -/

/-- The second half of `create_named`. -/
def replaceNamed (name : Chars) (config : ContainerConfig) : Docker DockerError Chars := do
  let _ ← ask (.removeContainer .createNamed name)
  orFail .failedToCreateContainer (← ask (.createContainer name config))

/-- Create a container under a fixed name, replacing a leftover one. -/
def createNamed (name : Chars) (config : ContainerConfig) : Docker DockerError Chars := do
  let config := { config with labels := config.labels.extend executor.labels }
  -- a container of another runner that has this name must not be killed
  let inspected : Except Chars ContainerInfo ← ask (.inspectContainer name)
  match inspected with
  | .ok existing =>
      let owner := existing.labels.bind (·.lookup ownerLabel)
      if owner ≠ some executor.owner then .fail (.usedByAnotherRunner name)
      else replaceNamed name config
  | .error _ => replaceNamed name config

/-- Create the job's network, replacing a leftover one. -/
def createNetwork (name : Chars) : Docker DockerError Unit := do
  let _ ← ask (.removeNetwork .createNetwork name)
  orFail (.failedToCreateNetwork name) (← ask (.createNetwork name executor.labels))

def forceRemove (container : Chars) : Docker DockerError Unit := do
  orFail .api (← ask (.removeContainer .forceRemove container))

/-- Work in a container that is removed whatever the work gives (the end of `run_helper` and of
`reset_ownership`). -/
def thenRemove {α : Type} (container : Chars) (work : Docker DockerError α) :
    Docker DockerError α := do
  let result ← work.attempt
  let _ ← (forceRemove container).attempt
  Program.ofExcept result

/-- Start a container and wait for its end. -/
def startAndWait (container : Chars) : Docker DockerError Unit := do
  orFail .api (← ask (.startContainer container))
  orFail .api (← ask (.waitContainer container))

/-- Run a script in a short-lived container of the helper image and return its output. -/
def runHelper (name : Chars) (binds : List Chars) (networkMode : Chars) :
    Docker DockerError Chars := do
  pullIfMissing executor.config.helperImage
  let id ← executor.createNamed name
    { image := executor.config.helperImage, binds, networkMode := some networkMode }
  thenRemove id do
    startAndWait id
    orFail .api (← ask (.logs id))

/-- The files that git does not track, listed by a helper container. -/
def untrackedFiles (jobId : Nat) (jobDir : HostPath) : Docker DockerError Chars :=
  executor.runHelper (untrackedName jobId) [buildsBind jobDir] "none".toList

/-- `chown` the workspace to the runner's user, from a container of the helper image. -/
def resetOwnership (jobId : Nat) (jobDir : HostPath) : Docker DockerError Unit := do
  orFail .metadata (← ask (.metadata jobDir))
  pullIfMissing executor.config.helperImage
  let id ← executor.createNamed (cleanupName jobId)
    { image := executor.config.helperImage, binds := [buildsBind jobDir] }
  thenRemove id (startAndWait id)

/-! ### A job -/

/-- Create a volume unless it is there. -/
def ensureVolume (name volume : Chars) : Docker DockerError Unit := do
  let present : Except Chars Unit ← ask (.inspectVolume name)
  match present with
  | .ok _ => return ()
  | .error _ =>
      orFail (.failedToCreateVolume volume) (← ask (.createVolume name
        (executor.labels.extend [("turboci.volume".toList, volume)])))

/-- The name of the volume for a container path, one for each slot of a project. -/
def volumeName (job : Job) (volume : Chars) : Chars :=
  let project := (job.jobInfo.map (·.projectId)).getD 0
  let slot := (variableValue job "CI_CONCURRENT_PROJECT_ID".toList).getD "0".toList
  "turboci-cache-p".toList ++ Nat.toDigits 10 project ++ "-c".toList ++ slot ++
    '-' :: (blake3 (Utf8.encode volume)).toHex.take 12

/-- The binds for the configured volumes: a bare container path becomes a volume that persists
between the project's jobs. -/
def volumeBinds (job : Job) : List Chars → Docker DockerError (List Chars)
  | [] => return []
  | volume :: rest => do
      if ':' ∈ volume then return volume :: (← volumeBinds job rest)
      else
        let name := volumeName blake3 job volume
        executor.ensureVolume name volume
        return (name ++ ':' :: volume) :: (← volumeBinds job rest)

def jobVolumes (job : Job) : Docker DockerError (List Chars) :=
  volumeBinds blake3 executor job executor.config.volumes

/-- Start the container that checks out sources. -/
def startHelper (job : Job) (jobDir : HostPath) : Docker DockerError Chars := do
  let id ← executor.createNamed (sourcesName job.id)
    { image := executor.config.helperImage, binds := [buildsBind jobDir],
      networkMode := some executor.config.networkMode }
  orFail .failedToStartHelper (← ask (.startContainer id))
  return id

/-- The checks of the services that show ports, by the services' names. -/
def serviceChecks : List Chars → Docker DockerError (List Chars)
  | [] => return []
  | id :: rest => do
      let inspected : Except Chars ContainerInfo ← ask (.inspectContainer id)
      match inspected with
      | .ok info =>
          let checks ← serviceChecks rest
          return if info.ports = [] then checks else info.name.getD [] :: checks
      | .error _ => serviceChecks rest

/-- Wait until the services' ports accept connections; a failure is only warned of. -/
def waitForServices (jobId : Nat) (network : Chars) (services : List Chars) :
    Docker DockerError Unit := do
  let checks ← serviceChecks services
  if checks = [] then return ()
  else
    let _ ← (executor.runHelper (waitName jobId) [] network).attempt
    return ()

/-- Services have a network. -/
def awaitServices (jobId : Nat) (containers : JobContainers) : Docker Stopped Unit :=
  match containers.network with
  | some network => do
      let _ ← (executor.waitForServices jobId network containers.services).attempt
      return ()
  | none => return ()

/-- A failure while these containers exist. -/
def during {ε α : Type} (containers : JobContainers) (error : ε → ExecutorFailure)
    (work : Docker ε α) : Docker Stopped α :=
  work.mapError fun e => ⟨containers, some (error e)⟩

/-- The loop over the services, from service `index` on. -/
def startServices (job : Job) (values : Values) (volumes : List Chars) :
    List Service → Nat → JobContainers → Docker Stopped JobContainers
  | [], _, containers => return containers
  | service :: rest, index, containers => do
      let serviceImage := expand service.name values
      during containers id (executor.ensureImage serviceImage (some service.pullPolicy))
      let id ← during containers (.service service.name)
        (executor.createNamed (serviceName job.id index)
          { image := serviceImage, binds := volumes,
            networkMode := some (containers.network.getD executor.config.networkMode) })
      -- recorded before starting, so a service that fails to start is removed too
      let containers := { containers with services := containers.services ++ [id] }
      during containers (.serviceStart serviceImage)
        (orFail (fun e => e) (← ask (.startContainer id)))
      startServices job values volumes rest (index + 1) containers

/-- The image of the job and the pull policies that it asks for. -/
def jobImage (job : Job) (values : Values) : Chars × List Chars :=
  match job.image with
  | some image => (expand image.name values, image.pullPolicy)
  | none => (executor.config.defaultImage, [])

/-- What the executor does on the host before it makes containers. -/
def prepareHost (job : Job) (jobDir : HostPath) (env : JobEnv) :
    Docker ExecutorFailure Unit := do
  orFail .variableFiles (← ask (.writeVariableFiles env.files))
  let subdir ← (Program.ofExcept (projectSubdir job)).mapError .clonePath
  orFail .failedToCreateWorkspace
    (← ask (.createDirAll (jobDir ++ subdir.splitOn '/')))

/-- The services of the runner's configuration come first, then the job's own. -/
def services (job : Job) : List Service :=
  executor.config.services.map (fun s => { name := s.name, serviceAlias := s.serviceAlias }) ++
    job.services

/-- The containers for the sources, where the job has sources to check out. -/
def startSources (job : Job) (jobDir : HostPath) : Docker Stopped JobContainers :=
  if job.gitInfo.isSome ∧ Git.strategy job.vars job.allowGitFetch ≠ .none then do
    during {} id (executor.ensureImage executor.config.helperImage none)
    let id ← during {} .docker (executor.startHelper job jobDir)
    return { helper := some id }
  else return {}

/-- The network of the services, which need one of their own to be reachable by alias. -/
def startNetwork (job : Job) (containers : JobContainers) : Docker Stopped JobContainers := do
  if executor.services job = [] then return containers
  else
    let network := jobName job.id
    during containers .docker (executor.createNetwork network)
    return { containers with network := some network }

/-- The job's own container, and its steps in it. -/
def runJob (job : Job) (jobDir : HostPath) (image : Chars) (volumes : List Chars)
    (containers : JobContainers) : Docker Stopped JobContainers := do
  let id ← during containers .docker
    (executor.createNamed (jobName job.id)
      { image, binds := buildsBind jobDir :: volumes,
        networkMode := some (containers.network.getD executor.config.networkMode) })
  let containers := { containers with job := some id }
  during containers .failedToStart (orFail (fun e => e) (← ask (.startContainer id)))
  let reply : StepsReply ← ask (.runJobSteps (containers.helper.getD id) id)
  match reply with
  | .outcome none => return containers
  | .outcome (some failure) => .fail ⟨containers, some (.steps failure)⟩
  | .panicked => .fail ⟨containers, none⟩

def startAndRun (job : Job) (jobDir : HostPath) : Docker Stopped JobContainers := do
  let env := jobEnv job "/builds".toList jobDir { disposable := true, caPem := executor.caPem }
  let (image, policies) := executor.jobImage job env.get
  during {} id (executor.ensureImage image (some policies))
  during {} id (prepareHost job jobDir env)
  let containers ← executor.startSources job jobDir
  let volumes ← during containers .docker (jobVolumes blake3 executor job)
  let containers ← executor.startNetwork job containers
  let containers ←
    executor.startServices job env.get volumes (executor.services job) 0 containers
  executor.awaitServices job.id containers
  executor.runJob job jobDir image volumes containers

/-! ### The end of a job -/

def removeAll : List Chars → Docker ExecutorFailure Unit
  | [] => return ()
  | container :: rest => do
      let _ ← (forceRemove container).attempt
      removeAll rest

def releaseNetwork (network : Option Chars) : Docker ExecutorFailure Unit :=
  match network with
  | some network => do
      let _ ← ask (.removeNetwork .release network)
      return ()
  | none => return ()

/-- Remove the job's containers and network, then hand the workspace back to the runner's
user. -/
def release (jobId : Nat) (containers : JobContainers) (jobDir : HostPath) :
    Docker ExecutorFailure Unit := do
  removeAll (containers.job.toList ++ containers.helper.toList ++ containers.services)
  releaseNetwork containers.network
  if containers.job.isSome ∨ containers.helper.isSome then
    let _ ← (executor.resetOwnership jobId jobDir).attempt
    return ()
  else return ()

/-- Run a job; what it made is released whether it succeeds, fails or panics. -/
def execute (job : Job) (jobDir : HostPath) : Docker ExecutorFailure Unit := do
  let started ← (startAndRun blake3 executor job jobDir).attempt
  match started with
  | .ok containers => executor.release job.id containers jobDir
  | .error stopped => do
      executor.release job.id stopped.containers jobDir
      .fail (stopped.failure.getD .internalError)

/-! ### Leftovers of earlier runs -/

def sweepContainers : List (Option Chars) → Docker ExecutorFailure Unit
  | [] => return ()
  | none :: rest => sweepContainers rest
  | some id :: rest => do
      let _ ← (forceRemove id).attempt
      sweepContainers rest

def sweepNetworks : List (Option Chars) → Docker ExecutorFailure Unit
  | [] => return ()
  | none :: rest => sweepNetworks rest
  | some name :: rest => do
      let _ ← ask (.removeNetwork .sweepOrphans name)
      sweepNetworks rest

/-- The reply of a listing; a failed one is taken for an empty one. -/
def listed (reply : Except Chars (List (Option Chars))) : List (Option Chars) :=
  match reply with
  | .ok entries => entries
  | .error _ => []

/-- Remove the containers and networks that this runner left behind. -/
def sweepOrphans : Docker ExecutorFailure Unit := do
  let containers ← ask (.listContainers (ownerLabel, executor.owner))
  sweepContainers (listed containers)
  let networks ← ask (.listNetworks (ownerLabel, executor.owner))
  sweepNetworks (listed networks)

/-! ## What makes and removes nothing

Most of what the executor asks is about images, volumes and the host. -/

/-- The request makes, starts and removes no container and no network. -/
def Quiet : Request → Prop
  | .createContainer _ _ | .createNetwork _ _ | .startContainer _ | .removeContainer _ _
  | .removeNetwork _ _ | .listContainers _ | .listNetworks _ => False
  | _ => True

theorem ends_ask_bind {σ ε α : Type} {spec : Spec σ Request Request.Reply} {c : Request}
    {f : c.Reply → Docker ε α} {Q : Except ε α → σ → Prop} {s : σ} (hpre : spec.pre s c)
    (h : ∀ r t, spec.post s c r t → Ends spec Q (f r) t) : Ends spec Q (ask c >>= f) s :=
  ⟨hpre, h⟩

theorem ends_orFail {σ ε α : Type} {spec : Spec σ Request Request.Reply} {error : Chars → ε}
    {reply : Except Chars α} {Q : Except ε α → σ → Prop} {s : σ} (h : Q (reply.mapError error) s) :
    Ends spec Q (orFail error reply) s :=
  ends_mapError (ends_ofExcept h)

open Program in
theorem calls_orFail {ε α : Type} {P : Request → Prop} {error : Chars → ε}
    {reply : Except Chars α} : (orFail error reply).Calls P :=
  calls_mapError calls_ofExcept

section Quiet

open Program

variable {blake3 : List UInt8 → Digest} {executor : DockerExecutor} {image : Chars}

theorem calls_pullFor : (pullFor image).Calls Quiet := by
  refine calls_bind (calls_ask trivial) fun pull => ?_
  cases pull <;> trivial

theorem calls_ensureImage {jobPolicies : Option (List Chars)} :
    (executor.ensureImage image jobPolicies).Calls Quiet := by
  refine calls_bind (calls_ask trivial) fun present => ?_
  refine calls_bind (calls_mapError calls_ofExcept) fun policy => ?_
  cases policy <;> cases present <;> first | trivial | exact calls_pullFor

theorem calls_pullIfMissing : (pullIfMissing image).Calls Quiet := by
  refine calls_bind (calls_ask trivial) fun present => ?_
  cases present with
  | ok x => trivial
  | error e => exact calls_bind (calls_ask trivial) fun _ => calls_orFail

theorem calls_prepareHost {job : Job} {jobDir : HostPath} {env : JobEnv} :
    (prepareHost job jobDir env).Calls Quiet := by
  refine calls_bind (calls_ask trivial) fun _ => ?_
  refine calls_bind calls_orFail fun _ => ?_
  refine calls_bind (calls_mapError calls_ofExcept) fun subdir => ?_
  exact calls_bind (calls_ask trivial) fun _ => calls_orFail

theorem calls_ensureVolume {name volume : Chars} :
    (executor.ensureVolume name volume).Calls Quiet := by
  refine calls_bind (calls_ask trivial) fun present => ?_
  cases present with
  | ok x => trivial
  | error e => exact calls_bind (calls_ask trivial) fun _ => calls_orFail

theorem calls_volumeBinds {job : Job} {volumes : List Chars} :
    (volumeBinds blake3 executor job volumes).Calls Quiet := by
  induction volumes with
  | nil => trivial
  | cons volume rest ih =>
      rw [volumeBinds]
      split
      · exact calls_bind ih fun _ => trivial
      · exact calls_bind calls_ensureVolume fun _ => calls_bind ih fun _ => trivial

theorem calls_serviceChecks {ids : List Chars} : (serviceChecks ids).Calls Quiet := by
  induction ids with
  | nil => trivial
  | cons id rest ih =>
      refine calls_bind (calls_ask trivial) fun inspected => ?_
      cases inspected with
      | ok info => exact calls_bind ih fun _ => trivial
      | error e => exact ih

end Quiet

/-! ## A job -/

/-- A daemon that has no containers and does what it is asked. -/
def willing : (c : Request) → c.Reply
  | .createImageFor _ => .done
  | .inspectContainer _ => .error "No such container".toList
  | .createContainer name _ => .ok ("id of ".toList ++ name)
  | .logs _ | .listContainers _ | .listNetworks _ => .ok []
  | .runJobSteps _ _ => .outcome none
  | .inspectImage _ | .createImage _ | .writeVariableFiles _ | .createDirAll _ | .metadata _
  | .inspectVolume _ | .createVolume _ _ | .startContainer _ | .waitContainer _
  | .removeContainer _ _ | .createNetwork _ _ | .removeNetwork _ _ => .ok ()

/-- A job with sources to check out and a service. -/
def serviceJob : Job where
  id := 7
  token := []
  gitInfo := some {}
  image := some { name := "alpine".toList }
  services := [{ name := "redis".toList }]

def zeroDigest : List UInt8 → Digest := fun _ => ⟨List.replicate 32 0, by decide⟩

end DockerExecutor

end TurboCi
