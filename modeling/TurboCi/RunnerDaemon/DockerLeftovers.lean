import TurboCi.RunnerDaemon.Docker

set_option autoImplicit false

/-! # What a job leaves behind in Docker

The log of a job's requests and their replies tells which containers and networks it made and
which of them it has not yet asked to be removed (`leftovers`). For any job and any replies,
nothing is left over when the job returns, unless the container for the sources was created and
could not be started (`removed_iff`): its id is recorded only after the start.
-/

namespace TurboCi

open Prog

namespace DockerExecutor

/-- A request and its reply. -/
abbrev Exchange := Sigma Request.Reply

/-! ## Leftovers -/

/-- What a request can leave behind. -/
inductive Leftover where
  | container (id name : Chars)
  | network (name : Chars)
  deriving DecidableEq

/-- What a successful request to create something made. -/
def created : Exchange → Option Leftover
  | ⟨.createContainer name _, .ok id⟩ => some (.container id name)
  | ⟨.createNetwork name _, .ok _⟩ => some (.network name)
  | _ => none

/-- The request asks for the removal of this, whatever the reply. -/
def asksToRemove : Exchange → Leftover → Bool
  | ⟨.removeContainer _ container, _⟩, .container id name => container = id ∨ container = name
  | ⟨.removeNetwork _ network, _⟩, .network name => network = name
  | _, _ => false

/-- After everything that was created, its removal was asked for. -/
def AllRemoved (log : List Exchange) : Prop :=
  ∀ before e after x, log = before ++ e :: after → created e = some x →
    ∃ e' ∈ after, asksToRemove e' x

/-- What was created and not asked to be removed after that. -/
def leftovers (log : List Exchange) : List Leftover :=
  log.foldl (fun xs e => (created e).toList ++ xs.filter fun x => !asksToRemove e x) []

theorem leftovers_concat (log : List Exchange) (e : Exchange) :
    leftovers (log ++ [e]) =
      (created e).toList ++ (leftovers log).filter fun x => !asksToRemove e x := by
  rw [leftovers, List.foldl_append]
  rfl

/-- Leftovers are what was created and not asked to be removed after that. -/
theorem mem_leftovers {log : List Exchange} {x : Leftover} :
    x ∈ leftovers log ↔ ∃ before e after, log = before ++ e :: after ∧ created e = some x ∧
      ∀ e' ∈ after, asksToRemove e' x = false := by
  induction log using List.reverseRecOn with
  | nil => simp [leftovers]
  | append_singleton log e ih =>
      rw [leftovers_concat, List.mem_append, Option.mem_toList, List.mem_filter, ih]
      constructor
      · rintro (hnew | ⟨⟨before, e', after, rfl, he, hafter⟩, hkept⟩)
        · exact ⟨log, e, [], rfl, hnew, by simp⟩
        · refine ⟨before, e', after ++ [e], by simp, he, fun e'' he'' => ?_⟩
          rcases List.mem_append.mp he'' with h | h
          · exact hafter e'' h
          · rw [List.mem_singleton.mp h]
            simpa using hkept
      · rintro ⟨before, e', after, hlog, he, hafter⟩
        rcases List.eq_nil_or_concat' after with rfl | ⟨after, last, rfl⟩
        · obtain ⟨-, hlast⟩ := List.append_inj' hlog rfl
          obtain rfl : e = e' := by simpa using hlast
          exact Or.inl he
        · rw [← List.cons_append, ← List.append_assoc] at hlog
          obtain ⟨rfl, hlast⟩ := List.append_inj' hlog rfl
          obtain rfl : e = last := by simpa using hlast
          refine Or.inr ⟨⟨before, e', after, rfl, he, ?_⟩, ?_⟩
          · exact fun e'' he'' => hafter e'' (List.mem_append_left _ he'')
          · simpa using hafter e (by simp)

theorem allRemoved_iff {log : List Exchange} : AllRemoved log ↔ leftovers log = [] := by
  rw [List.eq_nil_iff_forall_not_mem]
  constructor
  · rintro hall x hx
    obtain ⟨before, e, after, hlog, he, hafter⟩ := mem_leftovers.mp hx
    obtain ⟨e', he', hremoved⟩ := hall before e after x hlog he
    rw [hafter e' he'] at hremoved
    cases hremoved
  · intro hnone before e after x hlog he
    by_contra hkept
    refine hnone x (mem_leftovers.mpr ⟨before, e, after, hlog, he, fun e' he' => ?_⟩)
    by_contra hremoved
    exact hkept ⟨e', he', by simpa using hremoved⟩

/-! ## The start of the helper -/

/-- The container for the job's sources was created and the request to start it failed. -/
def HelperStartFailed (jobId : Nat) (log : List Exchange) : Prop :=
  ∃ config id error, [⟨.createContainer (sourcesName jobId) config, .ok id⟩,
    ⟨.startContainer id, .error error⟩] <:+: log

/-- A container was created just now. -/
def CreatedNow (name id : Chars) (log : List Exchange) : Prop :=
  ∃ config, log.getLast? = some ⟨.createContainer name config, .ok id⟩

/-- The container for the job's sources was created just now. -/
def HelperCreated (jobId : Nat) (log : List Exchange) : Prop :=
  ∃ id, CreatedNow (sourcesName jobId) id log

/-- A failed request to start a container. -/
def failedStart : Exchange → Bool
  | ⟨.startContainer _, .error _⟩ => true
  | _ => false

theorem helperStartFailed_of_concat {jobId : Nat} {log : List Exchange} {e : Exchange}
    (h : HelperStartFailed jobId (log ++ [e])) :
    HelperStartFailed jobId log ∨ HelperCreated jobId log ∧ failedStart e := by
  obtain ⟨config, id, error, before, after, hlog⟩ := h
  rcases List.eq_nil_or_concat' after with rfl | ⟨after, last, rfl⟩
  · refine Or.inr ⟨⟨id, config, ?_⟩, ?_⟩
    all_goals
      rw [List.append_nil, List.append_cons] at hlog
      obtain ⟨rfl, hlast⟩ := List.append_inj' hlog rfl
      obtain rfl : _ = e := by simpa using hlast
    · simp
    · rfl
  · rw [← List.append_assoc] at hlog
    obtain ⟨rfl, -⟩ := List.append_inj' hlog rfl
    exact Or.inl ⟨config, id, error, before, after, rfl⟩

/-! ## What is recorded -/

/-- Everything that is left over is recorded in `Recorded`, and no helper failed to start. -/
structure Tracked (jobId : Nat) (Recorded : Leftover → Prop) (log : List Exchange) : Prop where
  recorded : ∀ x ∈ leftovers log, Recorded x
  started : ¬ HelperStartFailed jobId log

theorem tracked_nil {jobId : Nat} {Recorded : Leftover → Prop} : Tracked jobId Recorded [] where
  recorded x hx := by simp [leftovers] at hx
  started := by
    rintro ⟨config, id, error, h⟩
    simpa using h.length_le

variable {jobId : Nat} {Recorded Recorded' : Leftover → Prop} {log : List Exchange}

theorem Tracked.concat (h : Tracked jobId Recorded log) {e : Exchange}
    (hnew : ∀ x, created e = some x → Recorded' x)
    (hold : ∀ x, Recorded x → asksToRemove e x = false → Recorded' x)
    (hstart : failedStart e → ¬ HelperCreated jobId log) :
    Tracked jobId Recorded' (log ++ [e]) where
  recorded x hx := by
    rw [leftovers_concat, List.mem_append, Option.mem_toList, List.mem_filter] at hx
    rcases hx with hx | ⟨hx, hkept⟩
    · exact hnew x hx
    · exact hold x (h.recorded x hx) (by simpa using hkept)
  started hfailed := by
    rcases helperStartFailed_of_concat hfailed with hfailed | ⟨hcreated, he⟩
    · exact h.started hfailed
    · exact hstart he hcreated

/-! ## Requests that leave nothing behind -/

/-- The request creates and starts nothing. -/
def Calm : Request → Prop
  | .createContainer _ _ | .createNetwork _ _ | .startContainer _ => False
  | _ => True

theorem calm_of_quiet {c : Request} (hc : Quiet c) : Calm c := by
  cases c with
  | createContainer | createNetwork | startContainer => exact hc.elim
  | _ => trivial

theorem Tracked.calm (h : Tracked jobId Recorded log) {c : Request} (hc : Calm c) (r : c.Reply) :
    Tracked jobId Recorded (log ++ [⟨c, r⟩]) := by
  refine h.concat ?_ (fun _ hx _ => hx) ?_
  · intro x hx
    cases c with
    | createContainer | createNetwork | startContainer => exact hc.elim
    | _ => cases hx
  · intro he
    cases c with
    | createContainer | createNetwork | startContainer => exact hc.elim
    | _ => cases he

theorem ends_quiet {ε α : Type} {p : Docker ε α} (hp : p.Calls Quiet)
    (h : Tracked jobId Recorded log) :
    Ends answers (fun _ t => Tracked jobId Recorded t) p log := by
  refine ends_of_calls (P := Quiet) (F := Tracked jobId Recorded) ?_ ?_ hp h
  · exact fun _ _ _ _ => trivial
  · rintro log c r t hc hlog rfl
    exact hlog.calm (calm_of_quiet hc) r

/-! ## Containers that are made and removed -/

section Containers

variable {ε α : Type} {executor : DockerExecutor} {name id : Chars} {config : ContainerConfig}

theorem ends_ask {c : Request} {f : c.Reply → Docker ε α} {Q : Except ε α → List Exchange → Prop}
    (h : ∀ r, Ends answers Q (f r) (log ++ [⟨c, r⟩])) : Ends answers Q (ask c >>= f) log :=
  ends_ask_bind trivial (by rintro r _ rfl; exact h r)

/-- A new container is to be recorded; where none was made there is nothing to record. -/
def NewContainer (jobId : Nat) (Recorded : Leftover → Prop) (name : Chars) :
    Except ε Chars → List Exchange → Prop
  | .ok id, log =>
      Tracked jobId (fun x => Recorded x ∨ x = .container id name) log ∧ CreatedNow name id log
  | .error _, log => Tracked jobId Recorded log

theorem ends_replaceNamed (h : Tracked jobId Recorded log) :
    Ends answers (NewContainer jobId Recorded name) (replaceNamed name config) log := by
  refine ends_ask fun removed => ends_ask fun reply => ends_orFail ?_
  have hremoved := h.calm (c := .removeContainer .createNamed name) trivial removed
  cases reply with
  | ok id =>
      refine ⟨hremoved.concat ?_ (fun x hx _ => Or.inl hx) (fun hfailed => nomatch hfailed),
        config, by simp⟩
      intro x hx
      exact Or.inr (Option.some.inj hx).symm
  | error e =>
      refine Tracked.concat hremoved ?_ (fun x hx _ => hx) (fun hfailed => nomatch hfailed)
      intro x hx
      cases hx

theorem ends_createNamed (h : Tracked jobId Recorded log) :
    Ends answers (NewContainer jobId Recorded name) (executor.createNamed name config) log := by
  refine ends_ask fun inspected => ?_
  have hinspected := h.calm (c := .inspectContainer name) trivial inspected
  cases inspected with
  | ok existing =>
      show Ends _ _ (if _ then _ else _) _
      split
      · exact hinspected
      · exact ends_replaceNamed hinspected
  | error e => exact ends_replaceNamed hinspected

/-- Starting a container that is not the one for the sources. -/
theorem Tracked.start (h : Tracked jobId Recorded log) (hnow : CreatedNow name id log)
    (hname : name ≠ sourcesName jobId) (reply : Except Chars Unit) :
    Tracked jobId Recorded (log ++ [⟨.startContainer id, reply⟩]) := by
  refine h.concat (fun x hx => nomatch hx) (fun x hx _ => hx) fun _ hhelper => ?_
  obtain ⟨config, hlast⟩ := hnow
  obtain ⟨id', config', hlast'⟩ := hhelper
  rw [hlast'] at hlast
  refine hname ?_
  injection hlast with hlast
  injection hlast with hrequest
  injection hrequest with hsources
  exact hsources.symm

theorem ends_forceRemove (h : Tracked jobId Recorded log) :
    Ends answers (fun _ t => Tracked jobId (fun x => Recorded x ∧ ∀ name, x ≠ .container id name) t)
      (forceRemove id) log := by
  refine ends_ask fun reply => ends_orFail ?_
  refine h.concat (fun x hx => nomatch hx) ?_ (fun hfailed => nomatch hfailed)
  intro x hx hkept
  refine ⟨hx, ?_⟩
  rintro name rfl
  simp [asksToRemove] at hkept

/-- A container that is removed after the work in it leaves nothing behind. -/
theorem ends_thenRemove {work : Docker DockerError α}
    (h : Ends answers (fun _ t => Tracked jobId (fun x => Recorded x ∨ x = .container id name) t)
      work log) :
    Ends answers (fun _ t => Tracked jobId Recorded t) (thenRemove id work) log := by
  refine ends_attempt_bind (fun result t ht => ?_) h
  refine ends_attempt_bind (fun _ u hu => ends_ofExcept ?_) (ends_forceRemove ht)
  refine ⟨fun x hx => ?_, hu.started⟩
  obtain ⟨hrecorded | rfl, hne⟩ := hu.recorded x hx
  · exact hrecorded
  · exact absurd rfl (hne name)

theorem ends_startAndWait (h : Tracked jobId Recorded log) (hnow : CreatedNow name id log)
    (hname : name ≠ sourcesName jobId) :
    Ends answers (fun _ t => Tracked jobId Recorded t) (startAndWait id) log := by
  refine ends_ask fun started => ?_
  have hstarted := h.start hnow hname started
  refine ends_bind (P := fun _ t => Tracked jobId Recorded t) (fun _ t ht => ?_)
    (fun _ _ ht => ht) (ends_orFail hstarted)
  exact ends_ask fun waited => ends_orFail (ht.calm (c := .waitContainer id) trivial waited)

theorem ends_runHelper {binds : List Chars} {networkMode : Chars}
    (h : Tracked jobId Recorded log) (hname : name ≠ sourcesName jobId) :
    Ends answers (fun _ t => Tracked jobId Recorded t)
      (executor.runHelper name binds networkMode) log := by
  refine ends_bind (fun _ t ht => ?_) (fun _ _ ht => ht) (ends_quiet calls_pullIfMissing h)
  refine ends_bind (fun id u hu => ?_) (fun _ _ hu => hu) (ends_createNamed ht)
  refine ends_thenRemove (ends_bind ?_ (fun _ _ hv => hv) (ends_startAndWait hu.1 hu.2 hname))
  exact fun _ v hv => ends_ask fun logs => ends_orFail (hv.calm (c := .logs id) trivial logs)

end Containers

/-! ## A job -/

section Job

variable {blake3 : List UInt8 → Digest} {executor : DockerExecutor} {job : Job}
  {jobDir : HostPath}

/-- The names of a job's containers differ from that of the container for its sources. -/
theorem name_ne_sources {id : Nat} (role : Role) (hrole : role ≠ .sources) :
    role.name id ≠ sourcesName id :=
  fun h => hrole (Role.name_injective id h)

/-- What the job has recorded of its containers and its network. -/
def Records (containers : JobContainers) : Leftover → Prop
  | .container id _ =>
      id ∈ containers.job.toList ++ containers.helper.toList ++ containers.services
  | .network name => containers.network = some name

/-- The helper that was created was not started, and nothing came after it. -/
structure Leaked (jobId : Nat) (log : List Exchange) : Prop where
  started : HelperStartFailed jobId log
  leftover : leftovers log ≠ []

/-- How the parts of `start_and_run` end: what was made is recorded, unless it was the helper.
`Made` says what has not been made yet. -/
def Started (jobId : Nat) (Made : JobContainers → Prop) :
    Except Stopped JobContainers → List Exchange → Prop
  | .ok containers, log => Tracked jobId (Records containers) log ∧ Made containers
  | .error stopped, log =>
      Tracked jobId (Records stopped.containers) log ∨ stopped.containers = {} ∧ Leaked jobId log

theorem Tracked.mono (h : Tracked jobId Recorded log) (hmono : ∀ x, Recorded x → Recorded' x) :
    Tracked jobId Recorded' log :=
  ⟨fun x hx => hmono x (h.recorded x hx), h.started⟩

/-- A helper that is not started is left over. -/
theorem leaked_of_created {id error : Chars} (hnow : CreatedNow (sourcesName jobId) id log) :
    Leaked jobId (log ++ [⟨.startContainer id, .error error⟩]) := by
  obtain ⟨config, hlast⟩ := hnow
  obtain ⟨before, rfl⟩ := List.getLast?_eq_some_iff.mp hlast
  constructor
  · exact ⟨config, id, error, before, [], by simp⟩
  · rw [leftovers_concat, leftovers_concat]
    simp [created, asksToRemove]

theorem ends_startHelper (h : Tracked job.id (fun _ => False) log) :
    Ends answers (fun r t => match r with
        | .ok id => Tracked job.id (fun x => x = .container id (sourcesName job.id)) t
        | .error _ => Tracked job.id (fun _ => False) t ∨ Leaked job.id t)
      (executor.startHelper job jobDir) log := by
  refine ends_bind (fun id t ht => ?_) (fun e t ht => Or.inl ht) (ends_createNamed h)
  refine ends_ask fun reply => ?_
  cases reply with
  | ok x =>
      have hrecorded := ht.1.mono fun x hx => hx.resolve_left fun hfalse => hfalse
      exact hrecorded.concat (fun x hx => nomatch hx) (fun x hx _ => hx)
        (fun hfailed => nomatch hfailed)
  | error e => exact Or.inr (leaked_of_created ht.2)

theorem ends_startSources (h : Tracked job.id (fun _ => False) log) :
    Ends answers (Started job.id fun c => c.network = none ∧ c.job = none)
      (executor.startSources job jobDir) log := by
  have hnone : ∀ {t : List Exchange}, Tracked job.id (fun _ => False) t →
      Tracked job.id (Records {}) t := fun ht => ht.mono fun _ hx => hx.elim
  unfold startSources
  split
  · refine ends_mapError_bind (fun _ t ht => ?_) (fun _ _ ht => Or.inl (hnone ht))
      (ends_quiet calls_ensureImage h)
    refine ends_mapError_bind (fun id u hu => ?_) (fun _ u hu => ?_) (ends_startHelper ht)
    · refine ⟨Tracked.mono hu ?_, rfl, rfl⟩
      rintro x rfl
      simp [Records]
    · exact hu.imp hnone fun hleak => ⟨rfl, hleak⟩
  · exact ⟨hnone h, rfl, rfl⟩

variable {containers : JobContainers}

theorem ends_startNetwork (h : Tracked job.id (Records containers) log)
    (hnetwork : containers.network = none) (hjob : containers.job = none) :
    Ends answers (Started job.id fun c => c.job = none) (executor.startNetwork job containers)
      log := by
  unfold startNetwork
  split
  · exact ⟨h, hjob⟩
  · refine ends_mapError_bind (P := fun r t => match r with
      | .ok _ => Tracked job.id
          (Records { containers with network := some (jobName job.id) }) t
      | .error _ => Tracked job.id (Records containers) t)
      (fun _ _ ht => ⟨ht, hjob⟩) (fun _ _ ht => Or.inl ht) ?_
    refine ends_ask fun removed => ends_ask fun reply => ends_orFail ?_
    have hremoved := h.calm (c := .removeNetwork .createNetwork (jobName job.id)) trivial removed
    cases reply with
    | ok x =>
        refine hremoved.concat ?_ (fun x hx _ => ?_) (fun hfailed => nomatch hfailed)
        · intro x hx
          obtain rfl := Option.some.inj hx
          exact rfl
        · cases x with
          | container id name => exact hx
          | network name =>
              rw [Records, hnetwork] at hx
              cases hx
    | error e =>
        exact Tracked.concat hremoved (fun x hx => nomatch hx) (fun x hx _ => hx)
          (fun hfailed => nomatch hfailed)

/-- The containers with one more service record the new one and what they recorded before. -/
theorem records_service {id name : Chars} {x : Leftover}
    (hx : Records containers x ∨ x = .container id name) :
    Records { containers with services := containers.services ++ [id] } x := by
  rcases hx with hx | rfl
  · cases x with
    | container id' name' =>
        rw [Records] at hx ⊢
        rw [← List.append_assoc]
        exact List.mem_append_left _ hx
    | network name' => exact hx
  · simp [Records]

theorem ends_startServices {values : Values} {volumes : List Chars} {services : List Service} :
    ∀ {index : Nat} {containers : JobContainers} {log : List Exchange},
      Tracked job.id (Records containers) log → containers.job = none →
        Ends answers (Started job.id fun c => c.job = none)
          (executor.startServices job values volumes services index containers) log := by
  induction services with
  | nil => exact fun h hjob => ⟨h, hjob⟩
  | cons service rest ih =>
      intro index containers log h hjob
      refine ends_mapError_bind (fun _ t ht => ?_) (fun _ t ht => Or.inl ht)
        (ends_quiet calls_ensureImage h)
      refine ends_mapError_bind (fun id u hu => ?_) (fun _ u hu => Or.inl hu)
        (ends_createNamed ht)
      have hrecorded := hu.1.mono fun _ => records_service
      refine ends_ask fun reply => ?_
      have hstarted := hrecorded.start hu.2 (name_ne_sources (.service index) nofun) reply
      cases reply with
      | ok x => exact ih hstarted hjob
      | error e => exact Or.inl hstarted

theorem ends_awaitServices (h : Tracked jobId Recorded log) :
    Ends answers (fun r t => Tracked jobId Recorded t ∧ ∀ e, r ≠ .error e)
      (executor.awaitServices jobId containers) log := by
  have hwait : ∀ {network : Chars}, Ends answers (fun _ t => Tracked jobId Recorded t)
      (executor.waitForServices jobId network containers.services) log := by
    intro network
    refine ends_bind (fun checks t ht => ?_) (fun _ _ ht => ht) (ends_quiet calls_serviceChecks h)
    split
    · exact ht
    · exact ends_attempt_bind (fun _ u hu => hu) (ends_runHelper ht (name_ne_sources .wait nofun))
  unfold awaitServices
  split
  · exact ends_attempt_bind (fun _ t ht => ⟨ht, by simp⟩) hwait
  · exact ⟨h, by simp⟩

theorem ends_runJob {image : Chars} {volumes : List Chars} (hjob : containers.job = none)
    (h : Tracked job.id (Records containers) log) :
    Ends answers (Started job.id fun _ => True)
      (executor.runJob job jobDir image volumes containers) log := by
  refine ends_mapError_bind (fun id t ht => ?_) (fun _ t ht => Or.inl ht) (ends_createNamed h)
  have hrecorded : Tracked job.id (Records { containers with job := some id }) t := by
    refine ht.1.mono ?_
    rintro x (hx | rfl)
    · cases x with
      | container id' name =>
          rw [Records, hjob] at hx
          rw [Records, List.append_assoc]
          exact List.mem_append_right _ hx
      | network name => exact hx
    · simp [Records]
  refine ends_ask fun reply => ?_
  have hstarted := hrecorded.start ht.2 (name_ne_sources .job nofun) reply
  cases reply with
  | error e => exact Or.inl hstarted
  | ok x =>
      refine ends_ask fun steps => ?_
      have hsteps := hstarted.calm (c := .runJobSteps (containers.helper.getD id) id) trivial steps
      cases steps with
      | panicked => exact Or.inl hsteps
      | outcome outcome =>
          cases outcome with
          | none => exact ⟨hsteps, trivial⟩
          | some failure => exact Or.inl hsteps

theorem ends_startAndRun (h : Tracked job.id (fun _ => False) log) :
    Ends answers (Started job.id fun _ => True) (startAndRun blake3 executor job jobDir) log := by
  have hnone : ∀ {t : List Exchange}, Tracked job.id (fun _ => False) t →
      Tracked job.id (Records {}) t := fun ht => ht.mono fun _ hx => hx.elim
  refine ends_mapError_bind (fun _ t ht => ?_) (fun _ t ht => Or.inl (hnone ht))
    (ends_quiet calls_ensureImage h)
  refine ends_mapError_bind (fun _ u hu => ?_) (fun _ u hu => Or.inl (hnone hu))
    (ends_quiet calls_prepareHost ht)
  refine ends_bind (P := Started job.id fun c => c.network = none ∧ c.job = none)
    (fun containers v hv => ?_) (fun _ v hv => hv) (ends_startSources hu)
  refine ends_mapError_bind (fun volumes w hw => ?_) (fun _ w hw => Or.inl hw)
    (ends_quiet calls_volumeBinds hv.1)
  refine ends_bind (P := Started job.id fun c => c.job = none) (fun containers x hx => ?_)
    (fun _ x hx => hx) (ends_startNetwork hw hv.2.1 hv.2.2)
  refine ends_bind (P := Started job.id fun c => c.job = none) (fun containers y hy => ?_)
    (fun _ y hy => hy) (ends_startServices hx.1 hx.2)
  refine ends_bind (fun _ z hz => ?_) (fun e z hz => absurd rfl (hz.2 e)) (ends_awaitServices hy.1)
  exact ends_runJob hy.2 hz.1

/-! ### The end of a job -/

theorem ends_removeAll {ids : List Chars} :
    ∀ {Recorded : Leftover → Prop} {log : List Exchange}, Tracked jobId Recorded log →
      Ends answers (fun r t => (∀ e, r ≠ .error e) ∧
          Tracked jobId (fun x => Recorded x ∧ ∀ id ∈ ids, ∀ name, x ≠ .container id name) t)
        (removeAll ids) log := by
  induction ids with
  | nil => exact fun h => ⟨by simp, h.mono fun _ hx => ⟨hx, by simp⟩⟩
  | cons id ids ih =>
      intro Recorded log h
      refine ends_attempt_bind (fun _ t ht => ?_) (ends_forceRemove h)
      refine ends_mono (fun r u hu => ⟨hu.1, hu.2.mono fun x hx => ⟨hx.1.1, ?_⟩⟩) (ih ht)
      exact List.forall_mem_cons.mpr ⟨hx.1.2, hx.2⟩

theorem ends_releaseNetwork {network : Option Chars} (h : Tracked jobId Recorded log) :
    Ends answers (fun r t => (∀ e, r ≠ .error e) ∧
        Tracked jobId (fun x => Recorded x ∧ ∀ name ∈ network, x ≠ .network name) t)
      (releaseNetwork network) log := by
  cases network with
  | none => exact ⟨by simp, h.mono fun _ hx => ⟨hx, by simp⟩⟩
  | some name =>
      refine ends_ask fun reply => ⟨by simp, h.concat (fun x hx => nomatch hx) ?_
        (fun hfailed => nomatch hfailed)⟩
      rintro x hx hkept
      refine ⟨hx, ?_⟩
      rintro _ hname rfl
      obtain rfl := Option.some.inj hname
      simp [asksToRemove] at hkept

theorem ends_resetOwnership (h : Tracked jobId Recorded log) :
    Ends answers (fun _ t => Tracked jobId Recorded t) (executor.resetOwnership jobId jobDir)
      log := by
  refine ends_ask fun reply => ?_
  have hreply := h.calm (c := .metadata jobDir) trivial reply
  refine ends_bind (P := fun _ t => Tracked jobId Recorded t) (fun _ t ht => ?_)
    (fun _ _ ht => ht) (ends_orFail hreply)
  refine ends_bind (fun _ u hu => ?_) (fun _ _ hu => hu) (ends_quiet calls_pullIfMissing ht)
  refine ends_bind (fun id v hv => ?_) (fun _ _ hv => hv) (ends_createNamed hu)
  exact ends_thenRemove (ends_startAndWait hv.1 hv.2 (name_ne_sources .cleanup nofun))

/-- A release leaves nothing of what is recorded. -/
theorem ends_release (h : Tracked jobId (Records containers) log) :
    Ends answers (fun r t => (∀ e, r ≠ .error e) ∧ Tracked jobId (fun _ => False) t)
      (executor.release jobId containers jobDir) log := by
  refine ends_bind (fun _ t ht => ?_) (fun e t ht => absurd rfl (ht.1 e)) (ends_removeAll h)
  refine ends_bind (fun _ u hu => ?_) (fun e u hu => absurd rfl (hu.1 e))
    (ends_releaseNetwork ht.2)
  have hnothing : Tracked jobId (fun _ => False) u := by
    refine hu.2.mono ?_
    rintro x ⟨⟨hrecorded, hcontainer⟩, hnetwork⟩
    cases x with
    | container id name => exact hcontainer id hrecorded name rfl
    | network name => exact hnetwork name hrecorded rfl
  split
  · exact ends_attempt_bind (fun _ v hv => ⟨by simp, hv⟩) (ends_resetOwnership hnothing)
  · exact ⟨by simp, hnothing⟩

/-- **For any job and any replies, everything that the job made in Docker has been asked to be
removed when it returns, except where the container for its sources could not be started.** -/
theorem removed_iff (blake3 : List UInt8 → Digest) (executor : DockerExecutor) (job : Job)
    (jobDir : HostPath) (answer : List Exchange → (c : Request) → c.Reply) :
    AllRemoved ((execute blake3 executor job jobDir).play answer []).1 ↔
      ¬ HelperStartFailed job.id ((execute blake3 executor job jobDir).play answer []).1 := by
  refine ends_play (Q := fun _ log => AllRemoved log ↔ ¬ HelperStartFailed job.id log) answer ?_
  have htidy : ∀ {t : List Exchange}, Tracked job.id (fun _ => False) t →
      (AllRemoved t ↔ ¬ HelperStartFailed job.id t) := fun ht =>
    iff_of_true (allRemoved_iff.mpr (List.eq_nil_iff_forall_not_mem.mpr ht.recorded)) ht.started
  refine ends_attempt_bind (fun started t ht => ?_) (ends_startAndRun tracked_nil)
  cases started with
  | ok containers => exact ends_mono (fun _ u hu => htidy hu.2) (ends_release ht.1)
  | error stopped =>
      rcases ht with ht | ⟨hempty, hleak⟩
      · exact ends_bind (fun _ u hu => htidy hu.2) (fun _ u hu => htidy hu.2) (ends_release ht)
      · -- nothing is recorded, so nothing is removed
        show Ends _ _ (executor.release job.id stopped.containers jobDir >>= _) t
        rw [hempty]
        exact iff_of_false (fun hall => hleak.leftover (allRemoved_iff.mp hall))
          (fun hstarted => hstarted hleak.started)

end Job

/-- A daemon that cannot start the container for the sources of job 7. -/
def cannotStartSources : (c : Request) → c.Reply
  | .startContainer container =>
      if container = "id of ".toList ++ sourcesName 7 then .error "no such network".toList
      else .ok ()
  | c => willing c

example : leftovers ((execute zeroDigest {} serviceJob []).play (fun _ => willing) []).1 = [] := by
  decide

/-- **A container that could not be started is left over.** -/
theorem helper_left_over :
    ¬ AllRemoved
      ((execute zeroDigest {} serviceJob []).play (fun _ => cannotStartSources) []).1 := by
  rw [allRemoved_iff]
  decide

end DockerExecutor

end TurboCi
