import TurboCi.RunnerDaemon.RestoreWorkspace

set_option autoImplicit false

/-! # What a job leaves behind

After its scripts a job uploads artifacts and saves caches: `upload_artifacts` and `upload_cache` of
`runner_daemon/mod.rs`. Listing files that git does not track, making an archive, uploading it and
`LocalCache::save` are calls.

Call by call, `upload_artifacts` does what the job's run says about it (`uploadArtifacts_refines`).
The caches that are saved are those that the job asks for, until it is aborted
(`uploadCache_saves`).
-/

namespace TurboCi

open Prog Program Runs RestoreWorkspace

namespace JobResults

/-! ## Calls -/

/-- An archive in the cache, and how its upload to S3 ended, where there is one. -/
structure Saved where
  size : Nat
  upload : Option (Except Chars Unit) := none
  deriving DecidableEq

inductive SaveReply where
  /-- the job was aborted before the save ended -/
  | dropped
  | finished (saved : Except Chars (Option Saved))
  deriving DecidableEq

inductive ResultCall where
  | untrackedFiles
  /-- to the job's log -/
  | write (text : Chars)
  | createArchive (paths exclude : List Chars) (format : Chars)
  /-- `GitLabClient::upload_artifacts` of a staged archive -/
  | upload (archive : Nat) (request : ArtifactUpload)
  /-- whether the job has been aborted -/
  | aborted
  | save (project : Nat) (key : Chars) (paths : List Chars)
  deriving DecidableEq

abbrev ResultCall.Reply : ResultCall → Type
  | untrackedFiles => Except Chars (List Chars)
  | write _ => Unit
  | createArchive _ _ _ => Except Chars (Option Nat)
  | upload _ _ => Except Chars Unit
  | aborted => Bool
  | save _ _ _ => SaveReply

abbrev Leaving (α : Type) := Program ResultCall ResultCall.Reply Empty α

abbrev Log := List (Sigma ResultCall.Reply)

def call (c : ResultCall) : Leaving c.Reply := Program.ask c

section Programs

-- `glob::Pattern::escape`, and how a size is written in megabytes
variable (escape : Chars → Chars) (megabytes : Nat → Chars) (job : Job)

/-- Untracked files as literal path patterns, when some entry asks for them. -/
def untrackedIfNeeded (wanted : Bool) : Leaving (List Chars) :=
  if wanted then do
    let listed : Except Chars (List Chars) ← call .untrackedFiles
    match listed with
    | .ok files => .done (files.map escape)
    | .error e => do
        call (.write ("WARNING: Could not list untracked files: ".toList ++ e ++ "\n".toList))
        .done []
  else .done []

/-! ## Artifacts -/

def reportUpload : Except Chars Unit → Leaving UploadResult
  | .ok () => .done .uploaded
  | .error e => do
      call (.write ("ERROR: Uploading artifacts failed: ".toList ++ e ++ "\n".toList))
      .done (.failed e)

def archiveCall (untracked : List Chars) (artifact : Artifact) : ResultCall :=
  .createArchive (artifactPaths job untracked artifact)
    (artifact.exclude.map fun item => expand item (jobVariables job))
    (artifact.artifactFormat.getD "zip".toList)

def uploadArtifact (untracked : List Chars) (artifact : Artifact) : Leaving UploadResult := do
  call (.write ("Uploading artifacts (".toList ++ artifactName job artifact ++ ", ".toList ++
    artifact.artifactType.getD "archive".toList ++ ")...\n".toList))
  let archive : Except Chars (Option Nat) ← call (archiveCall job untracked artifact)
  match archive with
  | .ok none => do
      call (.write "WARNING: No files matched the artifact paths, nothing uploaded\n".toList)
      .done .noFiles
  | .ok (some archive) => do
      let result : Except Chars Unit ← call (.upload archive (artifactUpload job artifact))
      reportUpload result
  | .error e => reportUpload (.error e)

/-- The loop over the entries; `failure` is the first one so far. -/
def uploadEach (untracked : List Chars) (succeeded : Bool) :
    List Artifact → JobOutcome → Leaving JobOutcome
  | [], failure => .done failure
  | artifact :: rest, failure =>
      if artifactWanted succeeded artifact && artifactPaths job untracked artifact ≠ [] then do
        let result ← uploadArtifact job untracked artifact
        uploadEach untracked succeeded rest (failure.or (uploadFailure job artifact result))
      else uploadEach untracked succeeded rest failure

/-- Upload the artifacts whose `when` matches the job's result. -/
def uploadArtifacts (succeeded : Bool) : Leaving JobOutcome :=
  match job.artifacts with
  | none => .done none
  | some artifacts => do
      let untracked ← untrackedIfNeeded escape (artifacts.any (·.untracked))
      uploadEach job untracked succeeded artifacts none

/-! ## Caches -/

def cacheWanted (succeeded : Bool) (entry : Cache) : Bool :=
  if entry.when = some "always".toList then true
  else if entry.when = some "on_failure".toList then !succeeded
  else succeeded

def Cache.pushes (entry : Cache) : Bool :=
  entry.policy = "push".toList ∨ entry.policy = "pull-push".toList

def cachePaths (untracked : List Chars) (entry : Cache) : List Chars :=
  entry.paths.map (fun path => expand path (jobVariables job)) ++
    if entry.untracked.getD false then untracked else []

def cacheKey (entry : Cache) : Chars := resolveKey entry.key (jobVariables job)

/-- What is written about an upload to S3. -/
def reportRemote (key : Chars) (size : Nat) : Option (Except Chars Unit) → Leaving Unit
  | some (.ok ()) =>
      call (.write ("Uploaded cache ".toList ++ key ++ " to S3 (".toList ++ megabytes size ++
        " MB)\n".toList))
  | some (.error e) =>
      call (.write ("WARNING: cache ".toList ++ key ++
        " saved locally, not uploaded to S3: ".toList ++ e ++ "\n".toList))
  | none => .done ()

def reportSaved (key : Chars) : Except Chars (Option Saved) → Leaving Unit
  | .ok (some saved) => do
      call (.write ("Created cache ".toList ++ key ++ " (".toList ++ Nat.toDigits 10 saved.size ++
        " bytes)\n".toList))
      reportRemote megabytes key saved.size saved.upload
  | .ok none =>
      call (.write ("No files matched the paths of cache ".toList ++ key ++ ", not saved\n".toList))
  | .error e => call (.write ("WARNING: Failed to save cache: ".toList ++ e ++ "\n".toList))

def notSaved : Chars := "Cache not saved: job canceled\n".toList

/-- Save one cache; whether the loop goes on. -/
def saveEntry (untracked : List Chars) (entry : Cache) : Leaving Bool := do
  call (.write ("Saving cache ".toList ++ cacheKey job entry ++ "...\n".toList))
  let aborted : Bool ← call .aborted
  if aborted then do
    call (.write notSaved)
    .done false
  else do
    let reply : SaveReply ←
      call (.save (projectId job) (cacheKey job entry) (cachePaths job untracked entry))
    match reply with
    | .dropped => do
        call (.write notSaved)
        .done false
    | .finished saved => do
        reportSaved megabytes (cacheKey job entry) saved
        .done true

def saveEach (untracked : List Chars) (succeeded : Bool) : List Cache → Leaving Unit
  | [] => .done ()
  | entry :: rest =>
      if cacheWanted succeeded entry && cachePaths job untracked entry ≠ [] && Cache.pushes entry
      then do
        let more ← saveEntry megabytes job untracked entry
        if more then saveEach untracked succeeded rest else .done ()
      else saveEach untracked succeeded rest

end Programs

/-- Save the cache entries whose policy pushes and whose `when` matches the job's result. -/
def uploadCache (escape : Chars → Chars) (megabytes : Nat → Chars) (cacheEnabled : Bool)
    (job : Job) (succeeded : Bool) : Leaving Unit :=
  if cacheEnabled then do
    let untracked ← untrackedIfNeeded escape (job.cache.any fun entry => entry.untracked.getD false)
    saveEach megabytes job untracked succeeded job.cache
  else .done ()

/-! ## What the log tells

Everything but what is written to the job's log. -/

/-- The calls that do something, with their replies. -/
def requests (log : Log) : Log :=
  log.filter fun e => match e.1 with
    | .write _ => false
    | _ => true

theorem requests_append (l l' : Log) : requests (l ++ l') = requests l ++ requests l' :=
  List.filter_append _ _

theorem adds_ask_bind {α : Type} {c : ResultCall} {f : c.Reply → Leaving α}
    {Q : Except Empty α → Log → Prop} (h : ∀ r, Adds (f r) fun x log => Q x (⟨c, r⟩ :: log)) :
    Adds (call c >>= f) Q := h

/-- What was listed, by the reply to the only call. -/
def listedBy (escape : Chars → Chars) : Except Chars (List Chars) → List Chars
  | .ok files => files.map escape
  | .error _ => []

/-- **Untracked files are listed once, and only if an entry asks for them.** -/
theorem adds_untrackedIfNeeded (escape : Chars → Chars) (wanted : Bool) :
    Adds (untrackedIfNeeded escape wanted) fun r log =>
      (wanted = false ∧ requests log = [] ∧ r = .ok []) ∨
      (wanted = true ∧ ∃ reply, requests log = [⟨.untrackedFiles, reply⟩] ∧
        r = .ok (listedBy escape reply)) := by
  unfold untrackedIfNeeded
  cases wanted with
  | false => exact .inl ⟨rfl, rfl, rfl⟩
  | true =>
      refine adds_ask_bind fun reply => ?_
      cases reply with
      | ok files => exact .inr ⟨rfl, .ok files, rfl, rfl⟩
      | error e => exact fun _ => .inr ⟨rfl, .error e, rfl, rfl⟩

/-! ## Artifacts -/

/-- What became of the archive of an entry. -/
inductive Made where
  | noFiles
  | failed (error : Chars)
  | uploaded (archive : Nat) (reply : Except Chars Unit)

def Made.result : Made → UploadResult
  | noFiles => .noFiles
  | failed e => .failed e
  | uploaded _ (.ok ()) => .uploaded
  | uploaded _ (.error e) => .failed e

section Artifacts

variable {job : Job} {untracked : List Chars} {succeeded : Bool}

/-- The requests for an entry: at most one archive is made, and it is uploaded once. -/
def madeBy (job : Job) (untracked : List Chars) (artifact : Artifact) : Made → Log
  | .noFiles => [⟨archiveCall job untracked artifact, .ok none⟩]
  | .failed e => [⟨archiveCall job untracked artifact, .error e⟩]
  | .uploaded archive reply => [⟨archiveCall job untracked artifact, .ok (some archive)⟩,
      ⟨.upload archive (artifactUpload job artifact), reply⟩]

theorem adds_reportUpload (reply : Except Chars Unit) :
    Adds (reportUpload reply) fun r log => requests log = [] ∧
      ∀ archive, r = .ok (Made.uploaded archive reply).result := by
  cases reply with
  | ok x => exact ⟨rfl, fun _ => rfl⟩
  | error e => exact fun _ => ⟨rfl, fun _ => rfl⟩

theorem adds_uploadArtifact (artifact : Artifact) :
    Adds (uploadArtifact job untracked artifact) fun r log =>
      ∃ made : Made, requests log = madeBy job untracked artifact made ∧ r = .ok made.result := by
  refine adds_ask_bind fun _ => adds_ask_bind fun archive => ?_
  cases archive with
  | error e =>
      refine adds_mono (fun r log h => ⟨.failed e, ?_, h.2 0⟩) (adds_reportUpload (.error e))
      show _ :: requests log = _
      rw [h.1]
      rfl
  | ok found =>
      cases found with
      | none => exact fun _ => ⟨.noFiles, rfl, rfl⟩
      | some archive =>
          refine adds_ask_bind fun reply => ?_
          refine adds_mono (fun r log h => ⟨.uploaded archive reply, ?_, h.2 archive⟩)
            (adds_reportUpload reply)
          show _ :: _ :: requests log = _
          rw [h.1]
          rfl

/-- The entries that are not skipped. -/
def chosen (job : Job) (untracked : List Chars) (succeeded : Bool) (artifacts : List Artifact) :
    List Artifact :=
  artifacts.filter fun artifact =>
    artifactWanted succeeded artifact && artifactPaths job untracked artifact ≠ []

/-- The first failure. -/
def firstFailure (job : Job) (failure : JobOutcome) (done : List (Artifact × Made)) : JobOutcome :=
  done.foldl (fun failure d => failure.or (uploadFailure job d.1 d.2.result)) failure

/-- **Every entry that is not skipped is tried, whatever becomes of the others.** -/
theorem adds_uploadEach {artifacts : List Artifact} : ∀ {failure : JobOutcome},
    Adds (uploadEach job untracked succeeded artifacts failure) fun r log =>
      ∃ done : List (Artifact × Made),
        done.map Prod.fst = chosen job untracked succeeded artifacts ∧
        requests log = done.flatMap (fun d => madeBy job untracked d.1 d.2) ∧
        r = .ok (firstFailure job failure done) := by
  induction artifacts with
  | nil => exact ⟨[], rfl, rfl, rfl⟩
  | cons artifact artifacts ih =>
      intro failure
      rw [uploadEach]
      split
      · next hwanted =>
          refine adds_bind (fun result log hlog => ?_) (fun e _ _ => e.elim)
            (adds_uploadArtifact artifact)
          obtain ⟨made, hmade, hresult⟩ := hlog
          obtain rfl := Except.ok.inj hresult
          refine adds_mono (fun r more h => ?_) ih
          obtain ⟨done, hdone, hrequests, hr⟩ := h
          refine ⟨(artifact, made) :: done, ?_, ?_, hr⟩
          · rw [List.map_cons, hdone, chosen, chosen, List.filter_cons, if_pos hwanted]
          · rw [requests_append, hmade, hrequests, List.flatMap_cons]
      · next hskipped =>
          refine adds_mono (fun r log h => ?_) ih
          obtain ⟨done, hdone, hrest⟩ := h
          exact ⟨done, by rw [hdone, chosen, chosen, List.filter_cons, if_neg hskipped], hrest⟩

/-- What the job's run keeps of an entry. -/
def uploadOf (job : Job) (d : Artifact × Made) : Upload :=
  ⟨d.1, artifactUpload job d.1, d.2.result⟩

/-- The job's run goes through the entries in the same order. -/
theorem run_uploads (parseDuration : Chars → Option Nat) (job : Job)
    (done : List (Artifact × Made)) (s : JobRun.State) (uploads : List Upload)
    (hphase : s.phase = .uploading (done.map Prod.fst)) (huploads : s.uploads = some uploads) :
    run (JobRun.step parseDuration job) s
        ((done.map fun d => .upload d.2.result) ++ [.uploadsDone]) =
      some { s with
        uploads := some (uploads ++ done.map (uploadOf job))
        uploadFailure := firstFailure job s.uploadFailure done
        outcome := if s.outcome = none then firstFailure job s.uploadFailure done else s.outcome
        phase := .saving } := by
  induction done generalizing s uploads with
  | nil =>
      have hstep : JobRun.step parseDuration job s .uploadsDone = some { s with
          outcome := if s.outcome = none then s.uploadFailure else s.outcome
          phase := .saving } := by
        simp only [JobRun.step, hphase, List.map_nil]
      rw [List.map_nil, List.nil_append, run_cons_eq_some.mpr ⟨_, hstep, rfl⟩, List.map_nil,
        List.append_nil, ← huploads]
      rfl
  | cons d done ih =>
      have hstep : JobRun.step parseDuration job s (.upload d.2.result) = some { s with
          uploads := some (uploads ++ [uploadOf job d])
          uploadFailure := s.uploadFailure.or (uploadFailure job d.1 d.2.result)
          phase := .uploading (done.map Prod.fst) } := by
        simp only [JobRun.step, hphase, List.map_cons, huploads]
        rfl
      rw [List.map_cons, List.cons_append, run_cons_eq_some.mpr ⟨_, hstep, ih _ _ rfl rfl⟩,
        List.append_assoc, List.singleton_append, List.map_cons]
      rfl

theorem adds_uploadArtifacts (escape : Chars → Chars) (job : Job) (succeeded : Bool) :
    Adds (uploadArtifacts escape job succeeded) fun r log =>
      ∃ (listing : Log) (files untracked : List Chars) (done : List (Artifact × Made)),
        (listing = [] ∨ ∃ reply, listing = [⟨.untrackedFiles, reply⟩] ∧
          files = listedBy escape reply) ∧
        untracked = (if (job.artifacts.getD []).any (·.untracked) then files else []) ∧
        done.map Prod.fst = entriesToUpload job untracked succeeded ∧
        requests log = listing ++ done.flatMap (fun d => madeBy job untracked d.1 d.2) ∧
        r = .ok (firstFailure job none done) := by
  unfold uploadArtifacts
  cases hartifacts : job.artifacts with
  | none =>
      refine ⟨[], [], [], [], .inl rfl, rfl, ?_, rfl, rfl⟩
      rw [entriesToUpload, hartifacts]
      rfl
  | some artifacts =>
      refine adds_bind (fun untracked log hlog => ?_) (fun e _ _ => e.elim)
        (adds_untrackedIfNeeded escape (artifacts.any (·.untracked)))
      have hentries : ∀ untracked, entriesToUpload job untracked succeeded =
          chosen job untracked succeeded artifacts := by
        intro untracked
        rw [entriesToUpload, hartifacts]
        rfl
      rcases hlog with ⟨hnone, hlog, hr⟩ | ⟨hsome, reply, hlog, hr⟩
      · obtain rfl := Except.ok.inj hr
        refine adds_mono (fun r more h => ?_) adds_uploadEach
        obtain ⟨done, hdone, hrequests, hresult⟩ := h
        refine ⟨[], [], [], done, .inl rfl, (if_neg ?_).symm, ?_, ?_, hresult⟩
        · rw [Option.getD_some, hnone]
          exact Bool.false_ne_true
        · rw [hdone, hentries]
        · rw [requests_append, hlog, hrequests]
      · obtain rfl := Except.ok.inj hr
        refine adds_mono (fun r more h => ?_) adds_uploadEach
        obtain ⟨done, hdone, hrequests, hresult⟩ := h
        refine ⟨_, listedBy escape reply, _, done, .inr ⟨reply, rfl, rfl⟩, (if_pos ?_).symm, ?_, ?_,
          hresult⟩
        · rw [Option.getD_some, hsome]
        · rw [hdone, hentries]
        · rw [requests_append, hlog, hrequests]

/-- **Call by call, `upload_artifacts` does what the job's run says about it**: the run with the
results of these calls ends with these uploads and with the failure that is returned, whatever is
answered; each entry that the run keeps was asked for as the requests show. -/
theorem uploadArtifacts_refines (escape : Chars → Chars) (parseDuration : Chars → Option Nat)
    (job : Job) (s : JobRun.State) (hphase : s.phase = .listing) (huploads : s.uploads = some [])
    (hfailure : s.uploadFailure = none) (answer : Log → (c : ResultCall) → c.Reply) :
    let played := (uploadArtifacts escape job s.outcome.isNone).play answer []
    ∃ (listing : Log) (files : List Chars) (done : List (Artifact × Made)) (t : JobRun.State),
      (listing = [] ∨ ∃ reply, listing = [⟨.untrackedFiles, reply⟩] ∧
        files = listedBy escape reply) ∧
      run (JobRun.step parseDuration job) s
        (.listed files :: (done.map fun d => .upload d.2.result) ++ [.uploadsDone]) = some t ∧
      t.phase = .saving ∧ t.uploads = some (done.map (uploadOf job)) ∧
      requests played.1 = listing ++ done.flatMap (fun d => madeBy job t.untracked d.1 d.2) ∧
      played.2 = .ok t.uploadFailure := by
  intro played
  obtain ⟨more, hlog, hQ, -⟩ := adds_play (P := fun _ => True) answer (fun _ _ => trivial) []
    (adds_uploadArtifacts escape job s.outcome.isNone)
  obtain ⟨listing, files, untracked, done, hlisting, huntracked, hdone, hrequests, hresult⟩ := hQ
  -- the run lists the files, and goes on with the entries
  have hlisted : JobRun.step parseDuration job s (.listed files) = some { s with
      untracked := untracked, phase := .uploading (done.map Prod.fst) } := by
    simp only [JobRun.step, if_pos hphase, ← huntracked, hdone]
  have hrun := run_uploads parseDuration job done { s with
    untracked := untracked, phase := .uploading (done.map Prod.fst) } [] rfl huploads
  refine ⟨listing, files, done, _, hlisting, run_cons_eq_some.mpr ⟨_, hlisted, hrun⟩, rfl, rfl, ?_,
    ?_⟩
  · rw [show played.1 = more from hlog]
    exact hrequests
  · rw [hfailure]
    exact hresult

end Artifacts

/-- A daemon and a GitLab that do what they are asked. -/
def willing (_ : Log) : (c : ResultCall) → c.Reply
  | .untrackedFiles => .ok ["a.o".toList]
  | .write _ => ()
  | .createArchive _ _ _ => .ok (some 1)
  | .upload _ _ => .error "413".toList
  | .aborted => false
  | .save _ _ _ => .finished (.ok (some { size := 3 }))

/-- A job whose artifacts are the files that git does not track. -/
def untrackedJob : Job := { id := 1, token := [], artifacts := some [{ untracked := true }] }

theorem uploadArtifacts_refines_untracked : ∃ t : JobRun.State, t.phase = .saving ∧
    ((uploadArtifacts id untrackedJob true).play willing []).2 = .ok t.uploadFailure := by
  obtain ⟨-, -, -, t, -, -, hphase, -, -, hresult⟩ := uploadArtifacts_refines id (fun _ => none)
    untrackedJob { phase := .listing, uploads := some [] } rfl rfl rfl willing
  exact ⟨t, hphase, hresult⟩

/-! ## Caches -/

section Caches

variable {megabytes : Nat → Chars} {job : Job} {untracked : List Chars} {succeeded : Bool}

/-- The saves that were begun. -/
def saves (log : Log) : List (Nat × Chars × List Chars) :=
  log.filterMap fun e => match e.1 with
    | .save project key paths => some (project, key, paths)
    | _ => none

/-- The entry shows that the job has been aborted. -/
def Aborts (e : Sigma ResultCall.Reply) : Prop :=
  e = ⟨.aborted, true⟩ ∨ ∃ project key paths, e = ⟨.save project key paths, .dropped⟩

/-- The saves that the job asks for. -/
def askedFor (job : Job) (untracked : List Chars) (succeeded : Bool) (entries : List Cache) :
    List (Nat × Chars × List Chars) :=
  (entries.filter fun entry => cacheWanted succeeded entry &&
    cachePaths job untracked entry ≠ [] && Cache.pushes entry).map fun entry =>
      (projectId job, cacheKey job entry, cachePaths job untracked entry)

/-- What a loop over the entries leaves in the log. -/
structure Saving (asked : List (Nat × Chars × List Chars)) (log : Log) : Prop where
  inOrder : saves log <+: asked
  complete : (∀ e ∈ log, ¬ Aborts e) → saves log = asked
  last : ∀ before e after, log = before ++ e :: after → Aborts e → after = [⟨.write notSaved, ()⟩]

theorem saves_append (l l' : Log) : saves (l ++ l') = saves l ++ saves l' := List.filterMap_append

/-- Nothing is saved, and no abort is seen. -/
def Idle (log : Log) : Prop := saves log = [] ∧ ∀ e ∈ log, ¬ Aborts e

theorem idle_write (text : Chars) : Idle [⟨.write text, ()⟩] := by
  refine ⟨rfl, fun e he habort => ?_⟩
  rw [List.mem_singleton.mp he] at habort
  rcases habort with h | ⟨project, key, paths, h⟩
  · cases h
  · cases h

theorem Idle.append {l l' : Log} (h : Idle l) (h' : Idle l') : Idle (l ++ l') := by
  refine ⟨by rw [saves_append, h.1, h'.1]; rfl, fun e he => ?_⟩
  rcases List.mem_append.mp he with hl | hl'
  · exact h.2 e hl
  · exact h'.2 e hl'

/-- Nothing is saved while untracked files are listed. -/
theorem idle_of_requests {log : Log} (h : ∀ e ∈ requests log, e.1 = .untrackedFiles) :
    Idle log := by
  have hentry : ∀ e ∈ log, e.1 = .untrackedFiles ∨ ∃ text, e.1 = .write text := by
    intro e he
    cases hcall : e.1 with
    | write text => exact .inr ⟨text, rfl⟩
    | _ =>
        have hmem : e ∈ requests log := List.mem_filter.mpr ⟨he, by rw [hcall]⟩
        exact .inl (hcall ▸ h e hmem)
  refine ⟨List.filterMap_eq_nil_iff.mpr fun e he => ?_, fun e he habort => ?_⟩
  · rcases hentry e he with hcall | ⟨text, hcall⟩
    · rw [hcall]
    · rw [hcall]
  · rcases habort with rfl | ⟨project, key, paths, rfl⟩
    · rcases hentry _ he with hcall | ⟨text, hcall⟩ <;> cases hcall
    · rcases hentry _ he with hcall | ⟨text, hcall⟩ <;> cases hcall

/-- More that is saved, before the rest of the loop. -/
theorem Saving.cons {l log : Log} {asked first : List (Nat × Chars × List Chars)}
    (hl : ∀ e ∈ l, ¬ Aborts e) (hfirst : saves l = first) (h : Saving asked log) :
    Saving (first ++ asked) (l ++ log) where
  inOrder := by
    rw [saves_append, hfirst]
    exact (List.prefix_append_right_inj first).mpr h.inOrder
  complete := by
    intro hnone
    rw [saves_append, hfirst, h.complete fun e he => hnone e (List.mem_append_right l he)]
  last := by
    intro before e after hsplit habort
    rcases List.append_eq_append_iff.mp hsplit with ⟨more, -, hlog⟩ | ⟨more, hbefore, hafter⟩
    · exact h.last more e after hlog habort
    · cases more with
      | nil => exact h.last [] e after hafter.symm habort
      | cons e' more =>
          obtain ⟨rfl, -⟩ := List.cons.inj hafter
          rw [hbefore] at hl
          exact absurd habort (hl e (List.mem_append_right before List.mem_cons_self))

/-- What is left in the log by an entry at which the loop ends. -/
structure Stops (asked : Nat × Chars × List Chars) (log : Log) : Prop where
  atMost : saves log <+: [asked]
  seen : ∃ e ∈ log, Aborts e
  last : ∀ before e after, log = before ++ e :: after → Aborts e → after = [⟨.write notSaved, ()⟩]

/-- The abort is the last entry but one. -/
theorem stops_of_abort {asked : Nat × Chars × List Chars} {l : Log}
    {e : Sigma ResultCall.Reply} (hl : Idle l) (hsaves : saves [e] <+: [asked]) (he : Aborts e) :
    Stops asked (l ++ [e, ⟨.write notSaved, ()⟩]) where
  atMost := by
    have hwrite : saves [⟨.write notSaved, ()⟩] = [] := rfl
    have hsplit : [e, ⟨.write notSaved, ()⟩] = [e] ++ [⟨.write notSaved, ()⟩] := rfl
    rw [saves_append, hl.1, List.nil_append, hsplit, saves_append, hwrite, List.append_nil]
    exact hsaves
  seen := ⟨e, List.mem_append_right l List.mem_cons_self, he⟩
  last := by
    intro before e' after hsplit habort
    rcases List.append_eq_append_iff.mp hsplit with ⟨more, -, hmore⟩ | ⟨more, hbefore, hmore⟩
    · cases more with
      | nil => exact (List.cons.inj hmore).2.symm
      | cons first more =>
          have htail := (List.cons.inj hmore).2
          cases more with
          | nil =>
              -- what is written is no abort
              obtain rfl := (List.cons.inj htail).1
              exact absurd habort ((idle_write notSaved).2 _ (List.mem_singleton.mpr rfl))
          | cons second more => simp at htail
    · cases more with
      | nil => exact (List.cons.inj hmore).2
      | cons first more =>
          obtain rfl := (List.cons.inj hmore).1
          rw [hbefore] at hl
          exact absurd habort (hl.2 _ (List.mem_append_right before List.mem_cons_self))

theorem adds_reportSaved (key : Chars) (saved : Except Chars (Option Saved)) :
    Adds (reportSaved megabytes key saved) fun r log => r = .ok () ∧ Idle log := by
  have hwrite (text : Chars) :
      Adds (call (.write text)) fun r log => r = .ok () ∧ Idle log :=
    fun _ => ⟨rfl, idle_write text⟩
  cases saved with
  | error e => exact hwrite _
  | ok found =>
      cases found with
      | none => exact hwrite _
      | some saved =>
          refine adds_ask_bind fun _ => ?_
          cases hupload : saved.upload with
          | none => exact ⟨rfl, idle_write _⟩
          | some reply =>
              cases reply with
              | ok x => exact fun _ => ⟨rfl, (idle_write _).append (idle_write _)⟩
              | error e => exact fun _ => ⟨rfl, (idle_write _).append (idle_write _)⟩

theorem adds_saveEntry (entry : Cache) :
    Adds (saveEntry megabytes job untracked entry) fun r log =>
      let asked := (projectId job, cacheKey job entry, cachePaths job untracked entry)
      (r = .ok true ∧ (∀ e ∈ log, ¬ Aborts e) ∧ saves log = [asked]) ∨
      (r = .ok false ∧ Stops asked log) := by
  refine adds_ask_bind fun _ => adds_ask_bind fun aborted => ?_
  have hwritten := idle_write ("Saving cache ".toList ++ cacheKey job entry ++ "...\n".toList)
  cases aborted with
  | true => exact fun _ => .inr ⟨rfl, stops_of_abort hwritten (List.nil_prefix) (.inl rfl)⟩
  | false =>
      have hnotYet : ¬ Aborts ⟨.aborted, false⟩ := by simp [Aborts]
      have hasked : Idle [⟨.write ("Saving cache ".toList ++ cacheKey job entry ++
          "...\n".toList), ()⟩, ⟨.aborted, false⟩] := by
        refine ⟨rfl, fun e he => ?_⟩
        rcases List.mem_pair.mp he with rfl | rfl
        · exact hwritten.2 _ (List.mem_singleton.mpr rfl)
        · exact hnotYet
      refine adds_ask_bind fun reply => ?_
      cases reply with
      | dropped =>
          exact fun _ => .inr ⟨rfl, stops_of_abort hasked (List.prefix_refl _)
            (.inr ⟨_, _, _, rfl⟩)⟩
      | finished saved =>
          refine adds_bind (fun _ log hlog => ?_) (fun e _ _ => e.elim)
            (adds_reportSaved (cacheKey job entry) saved)
          have hsave : ¬ Aborts ⟨.save (projectId job) (cacheKey job entry)
              (cachePaths job untracked entry), .finished saved⟩ := by simp [Aborts]
          refine .inl ⟨rfl, fun e he => ?_, ?_⟩
          · rw [List.append_nil] at he
            rcases List.mem_cons.mp he with rfl | he
            · exact hasked.2 _ List.mem_cons_self
            · rcases List.mem_cons.mp he with rfl | he
              · exact hnotYet
              · rcases List.mem_cons.mp he with rfl | he
                · exact hsave
                · exact hlog.2.2 e he
          · rw [List.append_nil]
            show _ :: saves log = _
            rw [hlog.2.1]

/-- **Caches are saved in the order of the job, until it is aborted.** -/
theorem adds_saveEach {entries : List Cache} :
    Adds (saveEach megabytes job untracked succeeded entries) fun r log =>
      r = .ok () ∧ Saving (askedFor job untracked succeeded entries) log := by
  induction entries with
  | nil => exact ⟨rfl, List.prefix_refl _, fun _ => rfl, fun before e after h => by simp at h⟩
  | cons entry entries ih =>
      rw [saveEach]
      split
      · next hwanted =>
          have hasked : askedFor job untracked succeeded (entry :: entries) =
              [(projectId job, cacheKey job entry, cachePaths job untracked entry)] ++
                askedFor job untracked succeeded entries := by
            rw [askedFor, List.filter_cons, if_pos hwanted]
            rfl
          rw [hasked]
          refine adds_bind (fun more log hlog => ?_) (fun e _ _ => e.elim) (adds_saveEntry entry)
          rcases hlog with ⟨hmore, hnone, hsaves⟩ | ⟨hmore, hstops⟩
          · obtain rfl := Except.ok.inj hmore
            exact adds_mono (fun r rest h => ⟨h.1, h.2.cons hnone hsaves⟩) ih
          · obtain rfl := Except.ok.inj hmore
            refine ⟨rfl, ?_, fun hnone => ?_, ?_⟩
            · rw [List.append_nil]
              exact hstops.atMost.trans (List.prefix_append _ _)
            · obtain ⟨e, he, habort⟩ := hstops.seen
              rw [List.append_nil] at hnone
              exact absurd habort (hnone e he)
            · rw [List.append_nil]
              exact hstops.last
      · next hskipped =>
          have hasked : askedFor job untracked succeeded (entry :: entries) =
              askedFor job untracked succeeded entries := by
            rw [askedFor, askedFor, List.filter_cons, if_neg hskipped]
          rw [hasked]
          exact ih

/-- The key of a save is the one that is restored first. -/
theorem key_of_askedFor {entries : List Cache} {saved : Nat × Chars × List Chars}
    (h : saved ∈ askedFor job untracked succeeded entries) :
    saved.1 = projectId job ∧ ∃ entry ∈ entries, Cache.pushes entry = true ∧
      ∃ fallbacks, entry.keys job = saved.2.1 :: fallbacks := by
  obtain ⟨entry, hentry, rfl⟩ := List.mem_map.mp h
  obtain ⟨hmem, hwanted⟩ := List.mem_filter.mp hentry
  rw [Bool.and_eq_true] at hwanted
  exact ⟨rfl, entry, hmem, hwanted.2, _, rfl⟩

end Caches

/-- **The caches that are saved are those that the job asks for, in order, until an abort is
seen**; after it nothing is saved, and without it everything is. Each is saved under the key that
the same entry is restored from first, and untracked files are those that were listed. -/
theorem uploadCache_saves (escape : Chars → Chars) (megabytes : Nat → Chars) (job : Job)
    (succeeded : Bool) (answer : Log → (c : ResultCall) → c.Reply) :
    let log := ((uploadCache escape megabytes true job succeeded).play answer []).1
    ∃ untracked,
      (untracked = [] ∨
        ∃ reply, ⟨.untrackedFiles, reply⟩ ∈ log ∧ untracked = listedBy escape reply) ∧
      Saving (askedFor job untracked succeeded job.cache) log ∧
      ∀ saved ∈ saves log, saved.1 = projectId job ∧ ∃ entry ∈ job.cache,
        Cache.pushes entry = true ∧ ∃ fallbacks, entry.keys job = saved.2.1 :: fallbacks := by
  intro log
  have hadds : Adds (uploadCache escape megabytes true job succeeded) fun _ log => ∃ untracked,
      (untracked = [] ∨
        ∃ reply, ⟨.untrackedFiles, reply⟩ ∈ log ∧ untracked = listedBy escape reply) ∧
      Saving (askedFor job untracked succeeded job.cache) log := by
    refine adds_bind (fun untracked listed hlisted => ?_) (fun e _ _ => e.elim)
      (adds_untrackedIfNeeded escape (job.cache.any fun entry => entry.untracked.getD false))
    have hidle : Idle listed := by
      refine idle_of_requests fun e he => ?_
      rcases hlisted with ⟨-, hnone, -⟩ | ⟨-, reply, hone, -⟩
      · rw [hnone] at he
        cases he
      · rw [hone] at he
        rw [List.mem_singleton.mp he]
    refine adds_mono (fun r log h => ⟨untracked, ?_, h.2.cons hidle.2 hidle.1⟩) adds_saveEach
    rcases hlisted with ⟨-, -, hr⟩ | ⟨-, reply, hone, hr⟩
    · exact .inl (Except.ok.inj hr)
    · have hreply : ⟨.untrackedFiles, reply⟩ ∈ requests listed := by
        rw [hone]
        exact List.mem_cons_self
      have hmem : ⟨.untrackedFiles, reply⟩ ∈ listed := (List.mem_filter.mp hreply).1
      exact .inr ⟨reply, List.mem_append_left log hmem, Except.ok.inj hr⟩
  obtain ⟨more, hlog, ⟨untracked, huntracked, hsaving⟩, -⟩ :=
    adds_play (P := fun _ => True) answer (fun _ _ => trivial) [] hadds
  have hall : log = more := hlog
  rw [hall]
  refine ⟨untracked, huntracked, hsaving, fun saved hsaved => ?_⟩
  exact key_of_askedFor (hsaving.inOrder.subset hsaved)

end JobResults

end TurboCi
