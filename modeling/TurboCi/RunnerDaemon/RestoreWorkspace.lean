import TurboCi.Lib.Attempts
import TurboCi.Lib.Justified
import TurboCi.RunnerDaemon.CacheNames
import TurboCi.RunnerDaemon.Git
import TurboCi.RunnerDaemon.JobRun
import TurboCi.RunnerDaemon.Slots

set_option autoImplicit false

/-! # What a job restores

Before its scripts run a job gets its caches and the artifacts of the jobs it depends on:
`restore_workspace` and `download_dependencies` of `runner_daemon/mod.rs`, over
`LocalCache::restore` of `runner_daemon/job_cache.rs`. Bringing an archive up to date with S3,
looking for it and extracting it are calls, and so is the download of a dependency.

Caches are an optimisation: whatever becomes of them, the job goes on. Dependencies are inputs:
a job starts with all of them or not at all.
-/

namespace TurboCi

open Prog Program Logs

/-! ## Cache entries -/

def Cache.pulls (entry : Cache) : Bool :=
  entry.policy = "pull".toList ∨ entry.policy = "pull-push".toList

/-- The keys that a cache entry is restored from. -/
def Cache.keys (entry : Cache) (job : Job) : List Chars :=
  restoreKeys entry.key entry.fallbackKeys (jobVariables job)

namespace RestoreWorkspace

/-! ## Calls -/

/-- Where a restored archive came from. -/
inductive Origin where
  | localCopy
  | s3NotModified
  | s3Downloaded (bytes : Nat)
  deriving DecidableEq

/-- What `metadata` says about an archive. -/
inductive Lookup where
  | found
  | missing
  /-- the error names the archive -/
  | unreadable (error : Chars)
  deriving DecidableEq

inductive RestoreCall where
  /-- whether the job has been told to stop -/
  | stopped
  /-- `LocalCache::fetch` -/
  | fetch (project : Nat) (key : Chars)
  | find (project : Nat) (key : Chars)
  /-- set the archive's time of use -/
  | markUsed (project : Nat) (key : Chars)
  | extract (project : Nat) (key : Chars)
  /-- `download_and_extract_artifacts` -/
  | download (source : Dependency)
  /-- to the job's log -/
  | write (text : Chars)
  | sectionStart (name header : Chars)
  | sectionEnd (name : Chars)
  deriving DecidableEq

abbrev RestoreCall.Reply : RestoreCall → Type
  | stopped => Bool
  | fetch _ _ => Except Chars (Option Origin)
  | find _ _ => Lookup
  | markUsed _ _ => Unit
  | extract _ _ => Except Chars Unit
  | download _ => Except Chars Unit
  | write _ => Unit
  | sectionStart _ _ => Unit
  | sectionEnd _ => Unit

abbrev Restoring (α : Type) := Program RestoreCall RestoreCall.Reply Chars α

def call (c : RestoreCall) : Restoring c.Reply := Program.ask c

/-! ## One restore from the cache -/

/-- The outcome of a restore: the key found, if any, and S3 problems on the way. -/
structure Restored where
  hit : Option (Chars × Origin) := none
  warnings : List Chars := []
  deriving DecidableEq

/-- Bring the archive up to date with S3, where there is one. -/
def upToDate (remote : Bool) (project : Nat) (key : Chars) (warnings : List Chars) :
    Restoring (Origin × List Chars) :=
  if remote then do
    match ← call (.fetch project key) with
    | .ok (some origin) => .done (origin, warnings)
    | .ok none => .done (.localCopy, warnings)
    | .error e => .done (.localCopy,
        warnings ++ ["S3 unavailable for cache ".toList ++ key ++ ": ".toList ++ e])
  else .done (.localCopy, warnings)

/-- `LocalCache::restore`: extract the first key that has an archive. -/
def restore (remote : Bool) (project : Nat) : List Chars → List Chars → Restoring Restored
  | [], warnings => .done { warnings := warnings }
  | key :: keys, warnings => do
      if ← call .stopped then .fail "stopped".toList
      else do
        let (origin, warnings) ← upToDate remote project key warnings
        match ← call (.find project key) with
        | .found => do
            call (.markUsed project key)
            match ← call (.extract project key) with
            | .ok () => .done { hit := some (key, origin), warnings := warnings }
            | .error e => .fail e
        | .missing => restore remote project keys warnings
        | .unreadable e => .fail e

/-! ## Attempts -/

/-- The number of attempts that a job variable asks for (1 to 10, 1 by default). -/
def attempts (job : Job) (key : Chars) : Nat :=
  let value := (job.vars.reverse.find? (·.key = key)).bind (·.value)
  max 1 (min 10 ((value.bind Git.parseU32).getD 1))

/-- Every failure is worth another attempt. -/
def retried {α : Type} : Except Chars α → Attempt Chars α
  | .ok a => .done a
  | .error e => .again e

/-- Attempts at an operation without pauses between them; the outcome is that of the last. -/
def tries {α : Type} (n : Nat) (operation : Restoring α) : Restoring (Except Chars α) :=
  (Prog.attempts (fun _ => operation.attempt >>= fun x => .done (retried x)) (n - 1) 0).attempt

/-! ## The caches -/

section Display

-- how the origin of an archive is written
variable (display : Origin → Chars)

/-- What a restore writes to the log. -/
def reportRestored : Except Chars Restored → Restoring Unit
  | .ok restored => do
      restored.warnings.forM fun warning =>
        call (.write ("WARNING: ".toList ++ warning ++ "\n".toList))
      match restored.hit with
      | some (key, origin) =>
          call (.write ("Successfully restored cache ".toList ++ key ++ " (".toList ++
            display origin ++ ")\n".toList))
      | none => call (.write "No cache found\n".toList)
  | .error e => call (.write ("WARNING: Failed to restore cache: ".toList ++ e ++ "\n".toList))

/-- Say that `CACHE_FALLBACK_KEY` is left out, where it is. -/
def warnFallback (values : Values) : Restoring Unit :=
  if (values "CACHE_FALLBACK_KEY".toList).isSome ∧ cacheFallbackKey values = none then
    call (.write ("WARNING: CACHE_FALLBACK_KEY ending in -protected is not allowed, " ++
      "ignoring it\n").toList)
  else .done ()

/-- Restore one cache entry. -/
def restoreEntry (remote : Bool) (job : Job) (entry : Cache) : Restoring Unit := do
  warnFallback (jobVariables job)
  call (.write ("Restoring cache ".toList ++ resolveKey entry.key (jobVariables job) ++
    "...\n".toList))
  let restored ← tries (attempts job "RESTORE_CACHE_ATTEMPTS".toList)
    (restore remote (projectId job) (entry.keys job) [])
  reportRestored display restored

def restoreEntries (remote : Bool) (job : Job) : List Cache → Restoring Unit
  | [] => .done ()
  | entry :: entries => do
      (if entry.pulls then restoreEntry display remote job entry else .done ())
      restoreEntries remote job entries

/-- The first part of `restore_workspace`. -/
def restoreCaches (cacheEnabled remote : Bool) (job : Job) : Restoring Unit :=
  if cacheEnabled ∧ job.cache.any Cache.pulls then do
    call (.sectionStart "restore_cache".toList "Restoring cache".toList)
    restoreEntries display remote job job.cache
    call (.sectionEnd "restore_cache".toList)
  else .done ()

/-! ## The dependencies -/

/-- Why a job fails that does not get a dependency's artifacts. -/
def downloadFailure (source : Dependency) (error : Chars) : JobFailure where
  reason := .scriptFailure
  exitCode := none
  message := "failed to download artifacts from job #".toList ++ Nat.toDigits 10 source.id ++
    " (".toList ++ source.name ++ "): ".toList ++ error

def downloadSource (job : Job) (source : Dependency) : Restoring (Except Chars Unit) := do
  call (.write ("Downloading artifacts from job #".toList ++ Nat.toDigits 10 source.id ++
    " (".toList ++ source.name ++ ")...\n".toList))
  tries (attempts job "ARTIFACT_DOWNLOAD_ATTEMPTS".toList)
    (call (.download source) >>= .ofExcept)

/-- `download_dependencies`, of the dependencies that have artifacts. -/
def downloadSources (job : Job) : List Dependency → Restoring JobOutcome
  | [] => .done none
  | source :: sources => do
      match ← downloadSource job source with
      | .ok () => downloadSources job sources
      | .error e => .done (some (downloadFailure source e))

/-- The second part, where a dependency has artifacts. -/
def downloadDependencies (job : Job) : Restoring JobOutcome := do
  call (.sectionStart "download_artifacts".toList "Downloading artifacts".toList)
  let downloaded ← downloadSources job (job.dependencies.filter (·.artifacts))
  call (.sectionEnd "download_artifacts".toList)
  .done downloaded

def restoreWorkspace (cacheEnabled remote : Bool) (job : Job) : Restoring JobOutcome := do
  restoreCaches display cacheEnabled remote job
  if job.dependencies.any (·.artifacts) then downloadDependencies job else .done none

end Display

/-! ## What the log tells -/

/-- Archives whose extraction was begun. -/
def extracted (log : List (Sigma RestoreCall.Reply)) : List (Nat × Chars) :=
  log.filterMap fun entry =>
    match entry.1 with
    | .extract project key => some (project, key)
    | _ => none

/-- Attempts to download a dependency's artifacts, with their outcomes. -/
def downloads : List (Sigma RestoreCall.Reply) → List (Dependency × Except Chars Unit)
  | [] => []
  | ⟨.download source, reply⟩ :: log => (source, reply) :: downloads log
  | _ :: log => downloads log

/-- The key was looked for, and there was no archive. -/
def Missing (project : Nat) (log : List (Sigma RestoreCall.Reply)) (key : Chars) : Prop :=
  ⟨.find project key, .missing⟩ ∈ log

theorem extracted_append (l l' : List (Sigma RestoreCall.Reply)) :
    extracted (l ++ l') = extracted l ++ extracted l' := List.filterMap_append

theorem downloads_append (l l' : List (Sigma RestoreCall.Reply)) :
    downloads (l ++ l') = downloads l ++ downloads l' := by
  induction l with
  | nil => rfl
  | cons entry l ih =>
      obtain ⟨c, reply⟩ := entry
      cases c with
      | download source => exact congrArg ((source, reply) :: ·) ih
      | _ => exact ih

/-- Nothing was extracted or downloaded. -/
def Idle (log : List (Sigma RestoreCall.Reply)) : Prop := extracted log = [] ∧ downloads log = []

theorem idle_append {l l' : List (Sigma RestoreCall.Reply)} (h : Idle l) (h' : Idle l') :
    Idle (l ++ l') := by
  constructor
  · rw [extracted_append, h.1, h'.1, List.append_nil]
  · rw [downloads_append, h.2, h'.2, List.append_nil]

theorem downloads_flatten {logs : List (List (Sigma RestoreCall.Reply))}
    (h : ∀ log ∈ logs, downloads log = []) : downloads logs.flatten = [] := by
  induction logs with
  | nil => rfl
  | cons log logs ih =>
      obtain ⟨hlog, hlogs⟩ := List.forall_mem_cons.mp h
      rw [List.flatten_cons, downloads_append, hlog, ih hlogs, List.append_nil]

theorem length_extracted_flatten {logs : List (List (Sigma RestoreCall.Reply))}
    (h : ∀ log ∈ logs, (extracted log).length ≤ 1) :
    (extracted logs.flatten).length ≤ logs.length := by
  induction logs with
  | nil => exact Nat.le_refl 0
  | cons log logs ih =>
      obtain ⟨hlog, hlogs⟩ := List.forall_mem_cons.mp h
      have hrest := ih hlogs
      rw [List.flatten_cons, extracted_append, List.length_append, List.length_cons]
      omega

/-! ## One restore from the cache -/

/-- What one attempt at a restore does: it extracts nothing, or its last call is the extraction of
an archive that it has found, having looked in vain for those of the keys before it. -/
inductive Attempted (project : Nat) (keys : List Chars) :
    List (Sigma RestoreCall.Reply) → Prop where
  | nothing {log : List (Sigma RestoreCall.Reply)} (hnone : extracted log = []) :
      Attempted project keys log
  | archive {log : List (Sigma RestoreCall.Reply)} {earlier later : List Chars} {key : Chars}
      (hnone : extracted log = []) (hkeys : keys = earlier ++ key :: later)
      (hmissing : ∀ k ∈ earlier, Missing project log k) (hfound : ⟨.find project key, .found⟩ ∈ log)
      (reply : Except Chars Unit) : Attempted project keys (log ++ [⟨.extract project key, reply⟩])

/-- After a key that has no archive. -/
theorem Attempted.later {project : Nat} {key : Chars} {keys : List Chars}
    {log more : List (Sigma RestoreCall.Reply)} (hnone : extracted log = [])
    (hmissing : Missing project log key) (h : Attempted project keys more) :
    Attempted project (key :: keys) (log ++ more) := by
  cases h with
  | nothing hmore =>
      refine .nothing ?_
      rw [extracted_append, hnone, hmore, List.append_nil]
  | @archive rest earlier later found hrest hkeys hearlier hfound reply =>
      rw [← List.append_assoc]
      have hkeys' : key :: keys = (key :: earlier) ++ found :: later := by
        rw [hkeys, List.cons_append]
      refine .archive ?_ hkeys' ?_ ?_ reply
      · rw [extracted_append, hnone, hrest, List.append_nil]
      · refine List.forall_mem_cons.mpr ⟨List.mem_append_left rest hmissing, fun k hk => ?_⟩
        exact List.mem_append_right log (hearlier k hk)
      · exact List.mem_append_right log hfound

theorem Attempted.length_le {project : Nat} {keys : List Chars}
    {log : List (Sigma RestoreCall.Reply)} (h : Attempted project keys log) :
    (extracted log).length ≤ 1 := by
  cases h with
  | nothing hnone =>
      rw [hnone]
      exact Nat.zero_le 1
  | archive hnone _ _ _ reply =>
      rw [extracted_append, hnone]
      exact Nat.le_refl 1

/-- Bringing an archive up to date looks for no archive and extracts none. -/
theorem adds_upToDate (remote : Bool) (project : Nat) (key : Chars) (warnings : List Chars) :
    Adds (upToDate remote project key warnings) fun r log => Idle log ∧ ∃ x, r = .ok x := by
  unfold upToDate
  split
  · intro reply
    cases reply with
    | ok fetched =>
        cases fetched with
        | some origin => exact ⟨⟨rfl, rfl⟩, _, rfl⟩
        | none => exact ⟨⟨rfl, rfl⟩, _, rfl⟩
    | error e => exact ⟨⟨rfl, rfl⟩, _, rfl⟩
  · exact ⟨⟨rfl, rfl⟩, _, rfl⟩

/-- A restore that comes to a key which has an archive. -/
theorem attempted_found {project : Nat} {key : Chars} {keys : List Chars}
    {log : List (Sigma RestoreCall.Reply)} (hidle : Idle log) (reply : Except Chars Unit) :
    let whole := log ++ [⟨.find project key, .found⟩, ⟨.markUsed project key, ()⟩,
      ⟨.extract project key, reply⟩]
    Attempted project (key :: keys) whole ∧ downloads whole = [] := by
  intro whole
  have hfound : Idle (log ++ [⟨.find project key, .found⟩, ⟨.markUsed project key, ()⟩]) :=
    idle_append hidle ⟨rfl, rfl⟩
  have hkeys : key :: keys = [] ++ key :: keys := rfl
  have hwhole := Attempted.archive hfound.1 hkeys (fun k hk => absurd hk List.not_mem_nil)
    (List.mem_append_right log List.mem_cons_self) reply
  rw [List.append_assoc] at hwhole
  refine ⟨hwhole, ?_⟩
  rw [downloads_append, hidle.2]
  rfl

/-- A restore that comes to a key which has none. -/
theorem attempted_missing {project : Nat} {key : Chars} {keys : List Chars}
    {log more : List (Sigma RestoreCall.Reply)} (hidle : Idle log)
    (h : Attempted project keys more ∧ downloads more = []) :
    let whole := log ++ ⟨.find project key, .missing⟩ :: more
    Attempted project (key :: keys) whole ∧ downloads whole = [] := by
  intro whole
  have hlook : Idle (log ++ [⟨.find project key, .missing⟩]) := idle_append hidle ⟨rfl, rfl⟩
  have hwhole := h.1.later hlook.1 (List.mem_append_right log List.mem_cons_self)
  have hdownloads := downloads_append (log ++ [⟨.find project key, .missing⟩]) more
  rw [hlook.2, h.2] at hdownloads
  rw [List.append_assoc] at hwhole hdownloads
  exact ⟨hwhole, hdownloads⟩

/-- **One restore**: the archive of the first key that has one, if any. By induction on the
keys. -/
theorem adds_restore (remote : Bool) (project : Nat) :
    ∀ (keys warnings : List Chars), Adds (restore remote project keys warnings)
      fun _ log => Attempted project keys log ∧ downloads log = [] := by
  intro keys
  induction keys with
  | nil => exact fun warnings => ⟨.nothing rfl, rfl⟩
  | cons key keys ih =>
      intro warnings stopped
      have hstopped : Idle [⟨.stopped, stopped⟩] := ⟨rfl, rfl⟩
      cases stopped with
      | true => exact ⟨.nothing rfl, rfl⟩
      | false =>
        show Adds (upToDate remote project key warnings >>= _) _
        refine adds_bind (fun x log hlog => ?_) (fun e log hlog => ?_)
          (adds_upToDate remote project key warnings)
        · have hidle := idle_append hstopped hlog.1
          intro lookup
          cases lookup with
          | found =>
              intro _ reply
              cases reply with
              | ok _ => exact attempted_found hidle (.ok ())
              | error e => exact attempted_found hidle (.error e)
          | missing =>
              exact adds_mono (fun r more hmore => attempted_missing hidle hmore) (ih x.2)
          | unreadable e =>
              have hlook : Idle [⟨.find project key, .unreadable e⟩] := ⟨rfl, rfl⟩
              have hwhole := idle_append hidle hlook
              exact ⟨.nothing hwhole.1, hwhole.2⟩
        · obtain ⟨-, x, hx⟩ := hlog
          cases hx

/-! ## Attempts -/

theorem attempts_bounds (job : Job) (key : Chars) :
    1 ≤ attempts job key ∧ attempts job key ≤ 10 := by
  unfold attempts
  dsimp only
  omega

/-- What the tries of an operation add, each of which adds what `P` says. -/
theorem adds_tries {α : Type} {P : Except Chars α → List (Sigma RestoreCall.Reply) → Prop}
    {operation : Restoring α} (n : Nat) (h : Adds operation P) :
    Adds (tries n operation) fun r log => ∃ x, r = .ok x ∧
      Tried (fun _ y l => ∃ z, y = .ok (retried z) ∧ P z l) (n - 1) 0 x log := by
  refine adds_attempt (adds_attempts (fun k => ?_) (n - 1) 0)
  refine adds_bind (fun x log hx => ?_) (fun e log he => ?_) (adds_attempt h)
  · obtain ⟨y, hy, hP⟩ := hx
    obtain rfl := Except.ok.inj hy
    refine ⟨x, rfl, ?_⟩
    rw [List.append_nil]
    exact hP
  · obtain ⟨y, hy, -⟩ := he
    cases hy

/-- The tries of one restore, one after the other. -/
theorem adds_restoreTries (remote : Bool) (project : Nat) (keys : List Chars) {n : Nat}
    (hn : 1 ≤ n) :
    Adds (tries n (restore remote project keys [])) fun r log => (∃ x, r = .ok x) ∧
      ∃ parts : List (List (Sigma RestoreCall.Reply)), log = parts.flatten ∧ parts.length ≤ n ∧
        ∀ part ∈ parts, Attempted project keys part ∧ downloads part = [] := by
  refine adds_mono (fun r log h => ?_) (adds_tries n (adds_restore remote project keys []))
  obtain ⟨x, hx, htried⟩ := h
  obtain ⟨parts, hlog, hlength, hparts⟩ := htried.parts
  refine ⟨⟨x, hx⟩, parts, hlog, by omega, fun part hpart => ?_⟩
  obtain ⟨k, y, z, -, hz⟩ := hparts part hpart
  exact hz

/-! ## The caches of a job -/

variable {display : Origin → Chars}

/-- The log of what is written is idle. -/
theorem adds_write (text : Chars) :
    Adds (call (.write text)) fun r log => Idle log ∧ r = .ok () :=
  fun _ => ⟨⟨rfl, rfl⟩, rfl⟩

theorem adds_writeAll (texts : List Chars) :
    Adds (texts.forM fun text => call (.write ("WARNING: ".toList ++ text ++ "\n".toList)))
      fun r log => Idle log ∧ r = .ok () := by
  induction texts with
  | nil => exact ⟨⟨rfl, rfl⟩, rfl⟩
  | cons text texts ih =>
      exact fun _ => adds_mono (fun r log h => ⟨⟨h.1.1, h.1.2⟩, h.2⟩) ih

theorem adds_reportRestored (restored : Except Chars Restored) :
    Adds (reportRestored display restored) fun r log => Idle log ∧ r = .ok () := by
  cases restored with
  | error e => exact adds_write _
  | ok restored =>
      refine adds_bind (fun _ log hlog => ?_) (fun e log hlog => ?_)
        (adds_writeAll restored.warnings)
      · cases restored.hit with
        | none => exact fun _ => ⟨idle_append hlog.1 ⟨rfl, rfl⟩, rfl⟩
        | some hit => exact fun _ => ⟨idle_append hlog.1 ⟨rfl, rfl⟩, rfl⟩
      · cases hlog.2

theorem adds_warnFallback (values : Values) :
    Adds (warnFallback values) fun r log => Idle log ∧ r = .ok () := by
  unfold warnFallback
  split
  · exact adds_write _
  · exact ⟨⟨rfl, rfl⟩, rfl⟩

/-- The restores of a job's entries, one after the other: each that pulls in at most `n` attempts,
and nothing is extracted outside of them. -/
inductive Restores (job : Job) (n : Nat) : List Cache → List (Sigma RestoreCall.Reply) → Prop where
  | done {log : List (Sigma RestoreCall.Reply)} (hnone : extracted log = []) : Restores job n [] log
  | skip {entry : Cache} {entries : List Cache} {log : List (Sigma RestoreCall.Reply)}
      (hpulls : entry.pulls = false) (hrest : Restores job n entries log) :
      Restores job n (entry :: entries) log
  | entry {entry : Cache} {entries : List Cache} {log more : List (Sigma RestoreCall.Reply)}
      {tries : List (List (Sigma RestoreCall.Reply))} (hpulls : entry.pulls = true)
      (hnone : extracted log = []) (hlength : tries.length ≤ n)
      (htries : ∀ part ∈ tries, Attempted (projectId job) (entry.keys job) part)
      (hrest : Restores job n entries more) :
      Restores job n (entry :: entries) (log ++ tries.flatten ++ more)

/-- Before the restores nothing may be extracted either. -/
theorem Restores.after {job : Job} {n : Nat} {entries : List Cache}
    {log more : List (Sigma RestoreCall.Reply)} (hnone : extracted log = [])
    (h : Restores job n entries more) : Restores job n entries (log ++ more) := by
  induction h with
  | done hmore => exact .done (by rw [extracted_append, hnone, hmore, List.append_nil])
  | skip hpulls _ ih => exact .skip hpulls ih
  | entry hpulls hbefore hlength htries hrest =>
      rw [← List.append_assoc, ← List.append_assoc]
      refine .entry hpulls ?_ hlength htries hrest
      rw [extracted_append, hnone, hbefore, List.append_nil]

theorem restores_of_none {job : Job} {n : Nat} {entries : List Cache}
    {log : List (Sigma RestoreCall.Reply)} (hpulls : ∀ entry ∈ entries, entry.pulls = false)
    (hnone : extracted log = []) : Restores job n entries log := by
  induction entries with
  | nil => exact .done hnone
  | cons entry entries ih =>
      obtain ⟨hentry, hentries⟩ := List.forall_mem_cons.mp hpulls
      exact .skip hentry (ih hentries)

/-- Nor after them. -/
theorem Restores.before {job : Job} {n : Nat} {entries : List Cache}
    {log more : List (Sigma RestoreCall.Reply)} (h : Restores job n entries log)
    (hnone : extracted more = []) : Restores job n entries (log ++ more) := by
  induction h with
  | done hlog => exact .done (by rw [extracted_append, hnone, hlog, List.append_nil])
  | skip hpulls _ ih => exact .skip hpulls ih
  | entry hpulls hbefore hlength htries _ ih =>
      rw [List.append_assoc]
      exact .entry hpulls hbefore hlength htries ih

theorem adds_restoreEntry (remote : Bool) (job : Job) (entry : Cache) :
    Adds (restoreEntry display remote job entry) fun r log => r = .ok () ∧ downloads log = [] ∧
      ∃ before after tries, log = before ++ List.flatten tries ++ after ∧
        extracted before = [] ∧ extracted after = [] ∧
        tries.length ≤ attempts job "RESTORE_CACHE_ATTEMPTS".toList ∧
        ∀ part ∈ tries, Attempted (projectId job) (entry.keys job) part := by
  refine adds_bind (fun _ log hlog => ?_) (fun e log hlog => ?_)
    (adds_warnFallback (jobVariables job))
  · refine adds_ask_bind fun written => ?_
    refine adds_bind (fun restored tried htried => ?_) (fun e tried htried => ?_)
      (adds_restoreTries remote (projectId job) (entry.keys job) (attempts_bounds job _).1)
    · refine adds_mono (fun r more hmore => ⟨hmore.2, ?_⟩) (adds_reportRestored restored)
      obtain ⟨-, tries, htries, hlength, hparts⟩ := htried
      have hwritten : Idle [⟨.write _, written⟩] := ⟨rfl, rfl⟩
      have hbefore := idle_append hlog.1 hwritten
      have hnone : downloads tries.flatten = [] := downloads_flatten fun part hpart =>
        (hparts part hpart).2
      rw [htries, List.append_cons, ← List.append_assoc]
      refine ⟨?_, _, more, tries, rfl, hbefore.1, hmore.1.1, hlength, fun part hpart =>
        (hparts part hpart).1⟩
      rw [downloads_append, downloads_append, hbefore.2, hnone, hmore.1.2]
      rfl
    · obtain ⟨x, hx⟩ := htried.1
      cases hx
  · cases hlog.2

theorem adds_restoreEntries (remote : Bool) (job : Job) :
    ∀ entries : List Cache, Adds (restoreEntries display remote job entries) fun r log =>
      r = .ok () ∧ downloads log = [] ∧
        Restores job (attempts job "RESTORE_CACHE_ATTEMPTS".toList) entries log := by
  intro entries
  induction entries with
  | nil => exact ⟨rfl, rfl, .done rfl⟩
  | cons entry entries ih =>
      unfold restoreEntries
      by_cases hpulls : entry.pulls = true
      · rw [if_pos hpulls]
        refine adds_bind (fun _ log hlog => ?_) (fun e log hlog => ?_)
          (adds_restoreEntry remote job entry)
        · refine adds_mono (fun r more h => ⟨h.1, ?_, ?_⟩) ih
          · rw [downloads_append, hlog.2.1, h.2.1, List.append_nil]
          · obtain ⟨-, -, before, after, tries, hsplit, hbefore, hafter, hlength, htries⟩ := hlog
            rw [hsplit, List.append_assoc]
            exact .entry hpulls hbefore hlength htries (h.2.2.after hafter)
        · cases hlog.1
      · rw [if_neg hpulls]
        exact adds_mono (fun r log h => ⟨h.1, h.2.1, .skip (by simpa using hpulls) h.2.2⟩) ih

/-- What a job's caches come to: nothing where they are off. -/
theorem adds_restoreCaches (cacheEnabled remote : Bool) (job : Job) :
    Adds (restoreCaches display cacheEnabled remote job) fun r log => r = .ok () ∧
      downloads log = [] ∧ Restores job (attempts job "RESTORE_CACHE_ATTEMPTS".toList)
        (if cacheEnabled then job.cache else []) log := by
  unfold restoreCaches
  by_cases henabled : cacheEnabled = true ∧ job.cache.any Cache.pulls = true
  · rw [if_pos henabled, if_pos henabled.1]
    refine adds_ask_bind fun started => ?_
    refine adds_bind (fun _ log hlog => ?_) (fun e log hlog => ?_)
      (adds_restoreEntries remote job job.cache)
    · intro ended
      obtain ⟨-, hdownloads, hrestores⟩ := hlog
      have hend : Idle [⟨.sectionEnd "restore_cache".toList, ended⟩] := ⟨rfl, rfl⟩
      refine ⟨rfl, ?_, ?_⟩
      · show downloads (log ++ _) = []
        rw [downloads_append, hdownloads, hend.2, List.append_nil]
      · have hstart : extracted [⟨.sectionStart "restore_cache".toList "Restoring cache".toList,
          started⟩] = [] := rfl
        exact (hrestores.before hend.1).after hstart
    · cases hlog.1
  · rw [if_neg henabled]
    refine ⟨rfl, rfl, ?_⟩
    split
    · next hon =>
        refine restores_of_none (fun entry hentry => ?_) rfl
        have hany : job.cache.any Cache.pulls = false := by simpa [hon] using henabled
        simpa using List.any_eq_false.mp hany entry hentry
    · exact .done rfl

/-! ### What follows of the archives -/

theorem Restores.length_le {job : Job} {n : Nat} {entries : List Cache}
    {log : List (Sigma RestoreCall.Reply)} (h : Restores job n entries log) :
    (extracted log).length ≤ (entries.filter Cache.pulls).length * n := by
  induction h with
  | done hnone =>
      rw [hnone]
      exact Nat.zero_le _
  | skip hpulls _ ih => rwa [List.filter_cons_of_neg (by rw [hpulls]; exact Bool.false_ne_true)]
  | @entry entry entries log more tries hpulls hnone hlength htries _ ih =>
      have hsum : (extracted tries.flatten).length ≤ tries.length := length_extracted_flatten
        fun part hpart => (htries part hpart).length_le
      rw [extracted_append, extracted_append, hnone, List.nil_append, List.length_append,
        List.filter_cons_of_pos hpulls, List.length_cons, Nat.add_mul, Nat.one_mul]
      omega

/-- What justifies an extraction: the archive was found, and none of the keys before it. -/
def ChosenFor (job : Job) (entries : List Cache) (log : List (Sigma RestoreCall.Reply))
    (project : Nat) (key : Chars) : Prop :=
  project = projectId job ∧ ∃ entry ∈ entries, entry.pulls = true ∧ ∃ earlier later,
    entry.keys job = earlier ++ key :: later ∧ (∀ k ∈ earlier, Missing project log k) ∧
    ⟨.find project key, .found⟩ ∈ log

def ExtractsFor (job : Job) (entries : List Cache) (before : List (Sigma RestoreCall.Reply))
    (call : Sigma RestoreCall.Reply) : Prop :=
  ∀ project key, call.1 = .extract project key → ChosenFor job entries before project key

theorem lasting_extractsFor (job : Job) (entries : List Cache) :
    Lasting (ExtractsFor job entries) := by
  intro l l' call hsub h project key hcall
  obtain ⟨hproject, entry, hentry, hpulls, earlier, later, hkeys, hmissing, hfound⟩ :=
    h project key hcall
  exact ⟨hproject, entry, hentry, hpulls, earlier, later, hkeys, fun k hk => hsub (hmissing k hk),
    hsub hfound⟩

theorem justified_of_none {job : Job} {entries : List Cache} {log : List (Sigma RestoreCall.Reply)}
    (hnone : extracted log = []) : Justified (ExtractsFor job entries) log := by
  intro before call after hsplit project key hcall
  have hextracted : (project, key) ∈ extracted log := by
    rw [hsplit, extracted_append]
    refine List.mem_append_right _ (List.mem_filterMap.mpr ⟨call, List.mem_cons_self, ?_⟩)
    rw [hcall]
  rw [hnone] at hextracted
  cases hextracted

theorem Attempted.justified {job : Job} {entries : List Cache} {entry : Cache}
    {log : List (Sigma RestoreCall.Reply)} (hentry : entry ∈ entries) (hpulls : entry.pulls = true)
    (h : Attempted (projectId job) (entry.keys job) log) :
    Justified (ExtractsFor job entries) log := by
  cases h with
  | nothing hnone => exact justified_of_none hnone
  | archive hnone hkeys hmissing hfound reply =>
      refine (justified_of_none hnone).concat ?_
      rintro _ _ ⟨⟩
      exact ⟨rfl, entry, hentry, hpulls, _, _, hkeys, hmissing, hfound⟩

theorem Restores.justified {job : Job} {n : Nat} {entries : List Cache}
    {log : List (Sigma RestoreCall.Reply)} (h : Restores job n entries log) :
    Justified (ExtractsFor job entries) log := by
  have hmore : ∀ {entry : Cache} {entries : List Cache} {log : List (Sigma RestoreCall.Reply)},
      Justified (ExtractsFor job entries) log →
        Justified (ExtractsFor job (entry :: entries)) log := by
    intro entry entries log hlog
    refine hlog.mono fun before call hreason project key hcall => ?_
    obtain ⟨hproject, later, hlater, hchosen⟩ := hreason project key hcall
    exact ⟨hproject, later, List.mem_cons_of_mem entry hlater, hchosen⟩
  induction h with
  | done hnone => exact justified_of_none hnone
  | skip _ _ ih => exact hmore ih
  | @entry entry entries log more tries hpulls hnone _ htries _ ih =>
      have hlasting := lasting_extractsFor job (entry :: entries)
      have hparts := hlasting.flatten fun part hpart =>
        (htries part hpart).justified List.mem_cons_self hpulls
      exact hlasting.append (hlasting.append (justified_of_none hnone) hparts) (hmore ih)

/-! ## The dependencies of a job -/

/-- The dependencies whose artifacts have arrived, one after the other. -/
def arrived (attempts : List (Dependency × Except Chars Unit)) : List Dependency :=
  attempts.filterMap fun attempt =>
    match attempt.2 with
    | .ok () => some attempt.1
    | .error _ => none

/-- The attempts at one dependency: those that failed, and the last. -/
def attemptsAt (source : Dependency) (failures : List (Except Chars Unit))
    (last : Except Chars Unit) : List (Dependency × Except Chars Unit) :=
  (failures ++ [last]).map (source, ·)

/-- The dependencies are downloaded in order, with at most `n` attempts at each, until all have
arrived or one has not. -/
inductive Fetched (n : Nat) :
    List Dependency → JobOutcome → List (Dependency × Except Chars Unit) → Prop where
  | all : Fetched n [] none []
  | next {source : Dependency} {sources : List Dependency} {outcome : JobOutcome}
      {failures : List (Except Chars Unit)} {rest : List (Dependency × Except Chars Unit)}
      (hfailures : ∀ x ∈ failures, x ≠ .ok ()) (hlength : failures.length < n)
      (hrest : Fetched n sources outcome rest) :
      Fetched n (source :: sources) outcome (attemptsAt source failures (.ok ()) ++ rest)
  | failed {source : Dependency} {sources : List Dependency} {failures : List (Except Chars Unit)}
      {e : Chars} (hfailures : ∀ x ∈ failures, x ≠ .ok ()) (hlength : failures.length + 1 = n) :
      Fetched n (source :: sources) (some (downloadFailure source e))
        (attemptsAt source failures (.error e))

theorem arrived_append (l l' : List (Dependency × Except Chars Unit)) :
    arrived (l ++ l') = arrived l ++ arrived l' := List.filterMap_append

theorem arrived_failures (source : Dependency) {failures : List (Except Chars Unit)}
    (h : ∀ x ∈ failures, x ≠ .ok ()) : arrived (failures.map (source, ·)) = [] := by
  refine List.filterMap_eq_nil_iff.mpr fun attempt hmem => ?_
  obtain ⟨x, hx, rfl⟩ := List.mem_map.mp hmem
  cases x with
  | ok _ => exact absurd rfl (h _ hx)
  | error e => rfl

/-- The job may start exactly when all have arrived. -/
theorem Fetched.none_iff {n : Nat} {sources : List Dependency} {outcome : JobOutcome}
    {tried : List (Dependency × Except Chars Unit)} (h : Fetched n sources outcome tried) :
    outcome = none ↔ arrived tried = sources := by
  induction h with
  | all => exact ⟨fun _ => rfl, fun _ => rfl⟩
  | @next source sources outcome failures rest hfailures _ _ ih =>
      have harrived : arrived (attemptsAt source failures (.ok ()) ++ rest)
          = source :: arrived rest := by
        rw [arrived_append, attemptsAt, List.map_append, arrived_append,
          arrived_failures source hfailures]
        rfl
      rw [harrived, ih]
      exact ⟨fun h => congrArg _ h, fun h => (List.cons.inj h).2⟩
  | @failed source sources failures e hfailures _ =>
      have harrived : arrived (attemptsAt source failures (.error e)) = [] := by
        rw [attemptsAt, List.map_append, arrived_append, arrived_failures source hfailures]
        rfl
      rw [harrived]
      constructor
      · intro h
        cases h
      · intro h
        cases h

/-- The log of a download. -/
def shownDownload (source : Dependency) (_ : Nat) (reply : Except Chars Unit) :
    List (Sigma RestoreCall.Reply) := [⟨.download source, reply⟩]

theorem downloads_showAll (source : Dependency) (replies : List (Except Chars Unit)) :
    ∀ n, downloads (showAll (shownDownload source) n replies) = replies.map (source, ·) ∧
      extracted (showAll (shownDownload source) n replies) = [] := by
  induction replies with
  | nil => exact fun _ => ⟨rfl, rfl⟩
  | cons reply replies ih =>
      intro n
      exact ⟨congrArg ((source, reply) :: ·) (ih (n + 1)).1, (ih (n + 1)).2⟩

theorem result_retried {α : Type} (x : Except Chars α) : (retried x).result = x := by
  cases x with
  | ok a => rfl
  | error e => rfl

/-- What the attempts at one dependency come to. -/
structure Downloaded (n : Nat) (source : Dependency) (last : Except Chars Unit)
    (failures : List (Except Chars Unit)) (log : List (Sigma RestoreCall.Reply)) : Prop where
  tried : downloads log = attemptsAt source failures last
  failed : ∀ x ∈ failures, x ≠ .ok ()
  length : failures.length < n
  exhausted : ∀ e, last = .error e → failures.length + 1 = n
  extracted : extracted log = []

theorem adds_downloadSource (job : Job) (source : Dependency) :
    Adds (downloadSource job source) fun r log => ∃ last failures, r = .ok last ∧
      Downloaded (attempts job "ARTIFACT_DOWNLOAD_ATTEMPTS".toList) source last failures log := by
  have hbounds := attempts_bounds job "ARTIFACT_DOWNLOAD_ATTEMPTS".toList
  have hone : Adds (call (.download source) >>= .ofExcept) fun (r : Except Chars Unit) log =>
      log = [⟨.download source, r⟩] := by
    refine adds_ask_bind fun reply => ?_
    cases reply with
    | ok _ => rfl
    | error e => rfl
  refine adds_ask_bind fun written => ?_
  refine adds_mono (fun r log h => ?_)
    (adds_tries (attempts job "ARTIFACT_DOWNLOAD_ATTEMPTS".toList) hone)
  obtain ⟨x, hx, htried⟩ := h
  have hsettled : ∃ failures last, Settled (shownDownload source) retried _ 0 x log failures last :=
    htried.observed fun _ y l hy => by
      obtain ⟨z, hz, hl⟩ := hy
      exact ⟨z, hl, hz⟩
  obtain ⟨failures, last, hlog, hbound, hundecided, houtcome, hexhausted⟩ := hsettled
  rw [result_retried] at houtcome
  have hshown := downloads_showAll source (failures ++ [last]) 0
  refine ⟨last, failures, by rw [hx, houtcome], ?_, ?_, by omega, ?_, ?_⟩
  · rw [attemptsAt, ← hshown.1, ← hlog]
    rfl
  · rintro x hmem rfl
    exact absurd (hundecided _ hmem) (by simp [retried, Attempt.undecided])
  · rintro e rfl
    have hlength := hexhausted rfl
    omega
  · rw [← hshown.2, ← hlog]
    rfl

theorem adds_downloadSources (job : Job) : ∀ sources : List Dependency,
    Adds (downloadSources job sources) fun r log => ∃ outcome, r = .ok outcome ∧
      Fetched (attempts job "ARTIFACT_DOWNLOAD_ATTEMPTS".toList) sources outcome (downloads log) ∧
      extracted log = [] := by
  intro sources
  induction sources with
  | nil => exact ⟨none, rfl, .all, rfl⟩
  | cons source sources ih =>
      refine adds_bind (fun last log hlog => ?_) (fun e log hlog => ?_)
        (adds_downloadSource job source)
      · obtain ⟨last', failures, hlast, h⟩ := hlog
        obtain rfl := Except.ok.inj hlast
        cases last with
        | ok _ =>
            refine adds_mono (fun r more hmore => ?_) ih
            obtain ⟨outcome, houtcome, hfetched, hextracted⟩ := hmore
            refine ⟨outcome, houtcome, ?_, ?_⟩
            · rw [downloads_append, h.tried]
              exact .next h.failed h.length hfetched
            · rw [extracted_append, h.extracted, hextracted, List.append_nil]
        | error e =>
            refine ⟨some (downloadFailure source e), rfl, ?_, ?_⟩
            · rw [List.append_nil, h.tried]
              exact .failed h.failed (h.exhausted e rfl)
            · rw [List.append_nil, h.extracted]
      · obtain ⟨last, failures, hlast, -⟩ := hlog
        cases hlast

theorem adds_downloadDependencies (job : Job) :
    Adds (downloadDependencies job) fun r log => ∃ outcome, r = .ok outcome ∧
      Fetched (attempts job "ARTIFACT_DOWNLOAD_ATTEMPTS".toList)
        (job.dependencies.filter (·.artifacts)) outcome (downloads log) ∧ extracted log = [] := by
  refine adds_ask_bind fun started => ?_
  refine adds_bind (fun downloaded log hlog => ?_) (fun e log hlog => ?_)
    (adds_downloadSources job (job.dependencies.filter (·.artifacts)))
  · intro ended
    obtain ⟨outcome, houtcome, hfetched, hextracted⟩ := hlog
    have hend : Idle [⟨.sectionEnd "download_artifacts".toList, ended⟩] := ⟨rfl, rfl⟩
    refine ⟨outcome, houtcome, ?_, ?_⟩
    · show Fetched _ _ outcome (downloads (log ++ _))
      rw [downloads_append, hend.2, List.append_nil]
      exact hfetched
    · show extracted (log ++ _) = []
      rw [extracted_append, hextracted, hend.1, List.append_nil]
  · obtain ⟨outcome, houtcome, -⟩ := hlog
    cases houtcome

/-! ## The whole restore -/

/-- What a run of `restoreWorkspace` comes to, whatever its calls are answered. -/
structure RestoredJob (cacheEnabled : Bool) (job : Job) (outcome : JobOutcome)
    (log : List (Sigma RestoreCall.Reply)) : Prop where
  restores : Restores job (attempts job "RESTORE_CACHE_ATTEMPTS".toList)
    (if cacheEnabled then job.cache else []) log
  fetched : Fetched (attempts job "ARTIFACT_DOWNLOAD_ATTEMPTS".toList)
    (job.dependencies.filter (·.artifacts)) outcome (downloads log)

theorem adds_restoreWorkspace (cacheEnabled remote : Bool) (job : Job) :
    Adds (restoreWorkspace display cacheEnabled remote job) fun r log =>
      ∃ outcome, r = .ok outcome ∧ RestoredJob cacheEnabled job outcome log := by
  refine adds_bind (fun _ log hlog => ?_) (fun e log hlog => ?_)
    (adds_restoreCaches cacheEnabled remote job)
  · obtain ⟨-, hdownloads, hrestores⟩ := hlog
    by_cases hany : job.dependencies.any (·.artifacts) = true
    · rw [if_pos hany]
      refine adds_mono (fun r more h => ?_) (adds_downloadDependencies job)
      obtain ⟨outcome, houtcome, hfetched, hextracted⟩ := h
      refine ⟨outcome, houtcome, hrestores.before hextracted, ?_⟩
      rw [downloads_append, hdownloads]
      exact hfetched
    · rw [if_neg hany]
      have hnone : job.dependencies.filter (·.artifacts) = [] := by
        refine List.filter_eq_nil_iff.mpr fun dependency hdependency hartifacts => ?_
        exact hany (List.any_eq_true.mpr ⟨dependency, hdependency, hartifacts⟩)
      refine ⟨none, rfl, ?_, ?_⟩
      · rw [List.append_nil]
        exact hrestores
      · rw [List.append_nil, hdownloads, hnone]
        exact .all
  · cases hlog.1

theorem protected_restoreKeys {entry : Cache} {job : Job} {key : Chars}
    (hkey : key ∈ entry.keys job) (hprotected : "-protected".toList <:+ key) :
    key ∈ (entry.key :: entry.fallbackKeys).map (resolveKey · (jobVariables job)) := by
  obtain ⟨k, hk, rfl⟩ := List.mem_map.mp hkey
  rw [← List.cons_append] at hk
  rcases List.mem_append.mp hk with hk | hk
  · exact List.mem_map_of_mem hk
  · have hallowed := (Option.filter_eq_some_iff.mp (Option.mem_toList.mp hk)).2
    exact absurd hprotected (of_decide_eq_true hallowed)

/-- **Which archives a job may get from the cache**: none where caches are off; at most one in each
attempt, of which there are at most ten for each entry that pulls; each of the job's own project,
and of the first of the entry's keys that has one: it was found, and those before it were looked
for and there was none. A protected branch's cache is never restored because `CACHE_FALLBACK_KEY`
names it. -/
theorem restoreWorkspace_caches (display : Origin → Chars) (cacheEnabled remote : Bool)
    (job : Job) (answer : List (Sigma RestoreCall.Reply) → (c : RestoreCall) → c.Reply) :
    let log := ((restoreWorkspace display cacheEnabled remote job).play answer []).1
    let tries := attempts job "RESTORE_CACHE_ATTEMPTS".toList
    1 ≤ tries ∧ tries ≤ 10 ∧
    Restores job tries (if cacheEnabled then job.cache else []) log ∧
    (extracted log).length ≤ (job.cache.filter Cache.pulls).length * tries ∧
    (cacheEnabled = false → extracted log = []) ∧
    ∀ before project key reply after, log = before ++ ⟨.extract project key, reply⟩ :: after →
      project = projectId job ∧ ∃ entry ∈ job.cache, entry.pulls = true ∧
        ∃ earlier later, entry.keys job = earlier ++ key :: later ∧
          (∀ k ∈ earlier, Missing project before k) ∧ ⟨.find project key, .found⟩ ∈ before ∧
          ("-protected".toList <:+ key →
            key ∈ (entry.key :: entry.fallbackKeys).map (resolveKey · (jobVariables job))) := by
  intro log tries
  have hadds : Adds (restoreWorkspace display cacheEnabled remote job) _ :=
    adds_restoreWorkspace cacheEnabled remote job
  obtain ⟨played, hlog, ⟨outcome, -, h⟩, -⟩ :=
    adds_play answer (P := fun _ => True) (fun _ _ => trivial) [] hadds
  have hlog' : log = played := hlog
  rw [hlog']
  -- with the caches off there is no entry to restore
  have hoff : cacheEnabled = false → extracted played = [] := by
    intro hoff
    have hrestores := h.restores
    rw [hoff] at hrestores
    cases hrestores with
    | done hnone => exact hnone
  refine ⟨(attempts_bounds _ _).1, (attempts_bounds _ _).2, h.restores, ?_, hoff, ?_⟩
  · cases cacheEnabled with
    | true => exact h.restores.length_le
    | false =>
        rw [hoff rfl]
        exact Nat.zero_le _
  · intro before project key reply after hsplit
    obtain ⟨rfl, entry, hentry, hpulls, earlier, later, hkeys, hmissing, hfound⟩ :=
      h.restores.justified before _ after hsplit project key rfl
    have hmem : entry ∈ job.cache := by
      cases cacheEnabled with
      | true => exact hentry
      | false => cases hentry
    refine ⟨rfl, entry, hmem, hpulls, earlier, later, hkeys, hmissing, hfound, ?_⟩
    refine protected_restoreKeys ?_
    rw [hkeys]
    exact List.mem_append_right _ List.mem_cons_self

/-- **Whether a job may start**, whatever becomes of its caches: the dependencies that have
artifacts are downloaded one after the other, with at most ten attempts at each, and the job goes on
exactly if all have arrived. Otherwise it fails by its own fault, the message names the first that
has not, and those after it were not asked for. -/
theorem restoreWorkspace_dependencies (display : Origin → Chars) (cacheEnabled remote : Bool)
    (job : Job) (answer : List (Sigma RestoreCall.Reply) → (c : RestoreCall) → c.Reply) :
    let played := (restoreWorkspace display cacheEnabled remote job).play answer []
    let tries := attempts job "ARTIFACT_DOWNLOAD_ATTEMPTS".toList
    let wanted := job.dependencies.filter (·.artifacts)
    1 ≤ tries ∧ tries ≤ 10 ∧
    ∃ outcome, played.2 = .ok outcome ∧
      Fetched tries wanted outcome (downloads played.1) ∧
      (outcome = none ↔ arrived (downloads played.1) = wanted) := by
  intro played tries wanted
  have hadds : Adds (restoreWorkspace display cacheEnabled remote job) _ :=
    adds_restoreWorkspace cacheEnabled remote job
  obtain ⟨log, hlog, ⟨outcome, houtcome, h⟩, -⟩ :=
    adds_play answer (P := fun _ => True) (fun _ _ => trivial) [] hadds
  have hlog' : played.1 = log := hlog
  rw [hlog']
  exact ⟨(attempts_bounds _ _).1, (attempts_bounds _ _).2, outcome, houtcome, h.fetched,
    h.fetched.none_iff⟩

end RestoreWorkspace

end TurboCi
