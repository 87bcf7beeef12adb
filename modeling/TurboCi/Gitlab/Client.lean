import TurboCi.Lib.Attempts
import TurboCi.RunnerDaemon.JobRun
import TurboCi.RunnerDaemon.TraceProtocol

set_option autoImplicit false

/-! # The GitLab client

The requests of `GitLabClient` that are attempted again (`gitlab/mod.rs`), and the request for a
job, which fails a job that it cannot read. A request is a call, its reply is what became of it:
nothing when no answer came. Times are in milliseconds. `display` is how a status is written.
-/

namespace TurboCi

open Prog Program

/-! ## Requests -/

/-- An answer of GitLab, as far as `patch_trace` does not need more. -/
structure Answer where
  status : Nat
  /-- empty where the text cannot be read -/
  text : Chars := []
  deriving DecidableEq

/-- The body of a job update. -/
structure JobUpdate where
  token : Chars
  state : JobState
  failureReason : Option FailureReason
  exitCode : Option Int
  deriving DecidableEq

/-- The part of a job request that is not fixed. -/
structure JobRequest where
  token : Chars
  systemId : Chars
  executor : Chars
  deriving DecidableEq

/-- The answer to a job request; its text may fail to arrive. -/
structure JobAnswer where
  status : Nat
  text : Option Chars
  deriving DecidableEq

/-- What became of an upload: the archive could not be opened, no answer came, or one did. -/
inductive UploadReply where
  | notOpened
  | notSent
  | answered (answer : Answer)
  deriving DecidableEq

inductive ClientCall where
  | requestJob (request : JobRequest)
  | updateJob (jobId : Nat) (update : JobUpdate)
  | patchTrace (jobId : Nat) (token : Chars) (request : TraceProtocol.Request)
  | uploadArtifacts (jobId : Nat) (token : Chars) (upload : ArtifactUpload)
  | sleep (ms : Nat)
  deriving DecidableEq

abbrev ClientCall.Reply : ClientCall → Type
  | requestJob _ => Option JobAnswer
  | updateJob _ _ => Option Answer
  | patchTrace _ _ _ => Option Response
  | uploadArtifacts _ _ _ => UploadReply
  | sleep _ => Unit

/-- An error, with the outermost part of its text. -/
structure ClientError where
  message : Chars
  deriving DecidableEq

abbrev Client (α : Type) := Program ClientCall ClientCall.Reply ClientError α

def sent (c : ClientCall) : Client c.Reply := Program.ask c

/-! ## Attempts -/

/-- The pause before an attempt, none before the first. -/
def pause (delay : Nat → Nat) (n : Nat) : Client Unit :=
  if n = 0 then .done () else sent (.sleep (delay n))

/-- Attempt number `n` of a request. -/
def attemptCall {α : Type} (c : ClientCall) (verdict : c.Reply → Attempt ClientError α)
    (delay : Nat → Nat) (n : Nat) : Client (Attempt ClientError α) := do
  pause delay n
  let reply ← sent c
  .done (verdict reply)

/-- What `retry_with_backoff` waits before an attempt. -/
def backoff (n : Nat) : Nat := 100 * 2 ^ (n - 1)

/-- `retry_with_backoff` of a request: three attempts. -/
def retryWithBackoff {α : Type} (c : ClientCall) (verdict : c.Reply → Attempt ClientError α) :
    Client α :=
  attempts (attemptCall c verdict backoff) 2 0

section Display

variable (display : Nat → Chars)

/-! ## The job's state -/

/-- What `update_job` makes of a reply. -/
def updateVerdict : Option Answer → Attempt ClientError Unit
  | none => .again ⟨"Failed to update job status".toList⟩
  | some answer =>
      if answer.status = 200 then .done ()
      else if answer.status = 202 then
        .again ⟨"Job update accepted but not completed".toList⟩
      else if answer.status = 403 ∨ answer.status = 404 then
        -- the job is gone or no longer ours
        .stop ⟨"Job update rejected: ".toList ++ display answer.status⟩
      else if 500 ≤ answer.status ∧ answer.status < 600 then
        .again ⟨"Job update failed: ".toList ++ display answer.status⟩
      else
        .stop ⟨"Job update failed: ".toList ++ display answer.status ++ ' ' :: answer.text⟩

/-- What `update_job` waits before an attempt. -/
def updateDelay (n : Nat) : Nat := 250 * 2 ^ min (n - 1) 4

/-- The body that `update_job` sends. -/
def updateBody (token : Chars) (state : JobState) (failureReason : Option FailureReason)
    (exitCode : Option Int) : JobUpdate where
  token := token
  state := state
  failureReason := failureReason.filter (· ≠ .jobCanceled)
  exitCode := exitCode

def updateJob (jobId : Nat) (token : Chars) (state : JobState)
    (failureReason : Option FailureReason) (exitCode : Option Int) : Client Unit :=
  attempts (attemptCall (.updateJob jobId (updateBody token state failureReason exitCode))
    (updateVerdict display) updateDelay) 7 0

/-! ## The log -/

/-- What `patch_trace` makes of a reply. -/
def patchVerdict (request : TraceProtocol.Request) :
    Option Response → Attempt ClientError TracePatch
  | none => .again ⟨"Failed to stream trace".toList⟩
  | some response =>
      match patchResult request.start (request.start + request.body.length) response with
      | some patch => .done patch
      | none =>
          if response.status = 416 then
            .again ⟨"Range mismatch: ".toList ++ display response.status⟩
          else .again ⟨"Trace streaming failed: ".toList ++ display response.status⟩

def patchTrace (jobId : Nat) (token : Chars) (request : TraceProtocol.Request) :
    Client TracePatch :=
  if request.body = [] then .done ⟨request.start, .running, none⟩
  else retryWithBackoff (.patchTrace jobId token request) (patchVerdict display request)

/-! ## Artifacts -/

/-- What `upload_artifacts` makes of a reply. -/
def uploadVerdict : UploadReply → Attempt ClientError Unit
  | .notOpened => .again ⟨"Failed to open the archive".toList⟩
  | .notSent => .again ⟨"Failed to upload artifacts".toList⟩
  | .answered answer =>
      if answer.status = 201 ∨ answer.status = 200 then .done ()
      else if answer.status = 413 then
        .stop ⟨("Artifact upload rejected: archive is larger than the instance limit").toList⟩
      else
        let message :=
          "Artifact upload failed: ".toList ++ display answer.status ++ ' ' :: answer.text
        -- the same request would fail the same way again
        if 400 ≤ answer.status ∧ answer.status < 500 then .stop ⟨message⟩ else .again ⟨message⟩

def uploadArtifacts (jobId : Nat) (token : Chars) (upload : ArtifactUpload) : Client Unit :=
  retryWithBackoff (.uploadArtifacts jobId token upload) (uploadVerdict display)

/-! ## Jobs -/

/-- Where reading a document failed. -/
structure ParseError where
  /-- the class of the error, as it is written -/
  category : Chars
  line : Nat
  column : Nat
  deriving DecidableEq

/-- Says where, without the values of the document: they may be secrets. -/
def describeParseError (e : ParseError) : Chars :=
  e.category ++ " error at line ".toList ++ Nat.toDigits 10 e.line ++ " column ".toList ++
    Nat.toDigits 10 e.column

/-- The minimum that reports a job which cannot be read as failed. -/
structure JobIdentity where
  id : Nat
  token : Chars
  deriving DecidableEq

/-- What the log of such a job says. -/
def unparseableTrace (e : ParseError) : Chars :=
  "TurboCI could not parse the job payload: ".toList ++ describeParseError e ++ "\n".toList

/-- How documents are read as a job, and as a job's identity. -/
structure Payloads where
  job : Chars → Except ParseError Job
  identity : Chars → Option JobIdentity

/-- The job is assigned to this runner already: fail it instead of leaving it running. -/
def failUnparseable (identity : JobIdentity) (e : ParseError) : Client Unit := do
  let _ ← (patchTrace display identity.id identity.token
    ⟨0, Utf8.encode (unparseableTrace e)⟩).attempt
  let _ ← (updateJob display identity.id identity.token .failed (some .runnerSystemFailure)
    none).attempt
  .done ()

/-- What `request_job` does with its reply. -/
def receiveJob (payloads : Payloads) : Option JobAnswer → Client (Option Job)
  | none => .fail ⟨"Failed to request job from GitLab".toList⟩
  | some answer =>
      if answer.status = 204 then .done none
      else if answer.status = 200 ∨ answer.status = 201 then
        match answer.text with
        | none => .fail ⟨"Failed to read response text".toList⟩
        | some text =>
            match payloads.job text with
            | .ok job => .done (some job)
            | .error e => do
                match payloads.identity text with
                | some identity => failUnparseable display identity e
                | none => .done ()
                .fail ⟨"Failed to parse job response: ".toList ++ describeParseError e⟩
      else if answer.status = 403 ∨ answer.status = 401 then
        .fail ⟨"Invalid runner token".toList⟩
      else .fail ⟨"Job request failed: ".toList ++ display answer.status⟩

def requestJob (payloads : Payloads) (request : JobRequest) : Client (Option Job) := do
  let reply ← sent (.requestJob request)
  receiveJob display payloads reply

end Display

/-! ## What attempts do -/

/-- The log of an attempt that got a reply. -/
def shownAttempt (c : ClientCall) (delay : Nat → Nat) (n : Nat) (reply : c.Reply) :
    List (Sigma ClientCall.Reply) :=
  if n = 0 then [⟨c, reply⟩] else [⟨.sleep (delay n), ()⟩, ⟨c, reply⟩]

theorem adds_attemptCall {α : Type} (c : ClientCall) (verdict : c.Reply → Attempt ClientError α)
    (delay : Nat → Nat) (n : Nat) :
    Adds (attemptCall c verdict delay n) fun x log =>
      ∃ reply, log = shownAttempt c delay n reply ∧ x = .ok (verdict reply) := by
  unfold attemptCall pause shownAttempt
  split
  · exact fun reply => ⟨reply, rfl, rfl⟩
  · exact fun _ reply => ⟨reply, rfl, rfl⟩

/-- How long the log sleeps. -/
def slept (log : List (Sigma ClientCall.Reply)) : Nat :=
  (log.map fun entry =>
    match entry.1 with
    | .sleep ms => ms
    | _ => 0).sum

theorem slept_append (l l' : List (Sigma ClientCall.Reply)) :
    slept (l ++ l') = slept l + slept l' := by
  unfold slept
  rw [List.map_append, List.sum_append]

/-- Requests, unlike pauses. -/
def ClientCall.isRequest : ClientCall → Bool
  | sleep _ => false
  | _ => true

theorem slept_shownAttempt {c : ClientCall} (hc : c.isRequest = true) (delay : Nat → Nat) (n : Nat)
    (reply : c.Reply) : slept (shownAttempt c delay n reply) = if n = 0 then 0 else delay n := by
  cases c with
  | sleep ms => cases hc
  | _ =>
      unfold shownAttempt slept
      split
      · rfl
      · rfl

/-- **What a request that is attempted again does**: it is sent, always the same, until a reply
decides, as often as it may be, and the pauses between add up. -/
theorem adds_requests {α : Type} (c : ClientCall) (hc : c.isRequest = true)
    (verdict : c.Reply → Attempt ClientError α) (delay : Nat → Nat) (left : Nat) :
    Adds (attempts (attemptCall c verdict delay) left 0) fun r log =>
      (∃ before last, Settled (shownAttempt c delay) verdict left 0 r log before last) ∧
        slept log ≤ ∑ i ∈ Finset.range (left + 1), if i = 0 then 0 else delay i := by
  refine adds_mono (fun r log h => ⟨h.observed fun _ _ _ hone => hone, ?_⟩)
    (adds_attempts (adds_attemptCall c verdict delay) left 0)
  have hcost := h.cost_le slept (fun n => if n = 0 then 0 else delay n) slept_append
    (fun n x l hone => by
      obtain ⟨reply, rfl, -⟩ := hone
      exact le_of_eq (slept_shownAttempt hc delay n reply))
  simpa only [Nat.zero_add] using hcost

/-! ## Job updates -/

variable {display : Nat → Chars}

/-- Replies after which the update is tried again: none came, or GitLab has accepted it without
carrying it out, or GitLab failed. -/
theorem undecided_updateVerdict {reply : Option Answer} :
    (updateVerdict display reply).undecided = true ↔ ∀ answer, reply = some answer →
      answer.status = 202 ∨ 500 ≤ answer.status ∧ answer.status < 600 := by
  cases reply with
  | none => simp [updateVerdict, Attempt.undecided]
  | some answer =>
      unfold updateVerdict
      dsimp only
      constructor
      · intro h given hgiven
        obtain rfl := Option.some.inj hgiven
        by_contra hdecided
        split_ifs at h with h200 h202 hgone herror
        · cases h
        · exact hdecided (Or.inl h202)
        · cases h
        · exact hdecided (Or.inr herror)
        · cases h
      · intro h
        rcases h answer rfl with h202 | herror
        · rw [if_neg (by omega), if_pos h202]
          rfl
        · rw [if_neg (by omega), if_neg (by omega), if_neg (by omega), if_pos herror]
          rfl

theorem result_updateVerdict {reply : Option Answer} :
    (updateVerdict display reply).result = .ok () ↔ ∃ text, reply = some ⟨200, text⟩ := by
  cases reply with
  | none => simp [updateVerdict, Attempt.result]
  | some answer =>
      obtain ⟨status, text⟩ := answer
      unfold updateVerdict
      dsimp only
      split_ifs with h200 h202 hgone herror
      · obtain rfl : status = 200 := h200
        exact ⟨fun _ => ⟨text, rfl⟩, fun _ => rfl⟩
      all_goals
        refine ⟨fun h => by simp [Attempt.result] at h, fun h => ?_⟩
        obtain ⟨text', htext⟩ := h
        exact absurd (congrArg Answer.status (Option.some.inj htext)) h200

/-- **Reporting a job's state.** Every run sends one and the same update, at most eight times and
never after an answer that decides, and sleeps less than 16 seconds in all; it succeeds exactly when
GitLab's last answer is 200, and the runner's own reason for canceled jobs is never sent. -/
theorem updateJob_run (jobId : Nat) (token : Chars) (state : JobState)
    (failureReason : Option FailureReason) (exitCode : Option Int)
    (answer : List (Sigma ClientCall.Reply) → (c : ClientCall) → c.Reply) :
    let update := updateBody token state failureReason exitCode
    let played := (updateJob display jobId token state failureReason exitCode).play answer []
    update.failureReason ≠ some .jobCanceled ∧ slept played.1 ≤ 15750 ∧
      ∃ before last,
        played.1 = showAll (shownAttempt (.updateJob jobId update) updateDelay) 0
          (before ++ [last]) ∧
        before.length ≤ 7 ∧
        (∀ reply ∈ before, ∀ given, reply = some given →
          given.status = 202 ∨ 500 ≤ given.status ∧ given.status < 600) ∧
        (played.2 = .ok () ↔ ∃ text, last = some ⟨200, text⟩) ∧
        ((∀ given, last = some given →
          given.status = 202 ∨ 500 ≤ given.status ∧ given.status < 600) → before.length = 7) := by
  intro update played
  have hadds := adds_requests (.updateJob jobId update) rfl (updateVerdict display)
    updateDelay 7
  obtain ⟨log, hlog, ⟨⟨before, last, h⟩, hslept⟩, -⟩ :=
    adds_play answer (P := fun _ => True) (fun _ _ => trivial) [] hadds
  have hlog' : played.1 = log := hlog
  refine ⟨?_, ?_, before, last, ?_, h.bound, ?_, ?_, ?_⟩
  · show failureReason.filter (· ≠ .jobCanceled) ≠ some .jobCanceled
    intro hcanceled
    have := (Option.filter_eq_some_iff.mp hcanceled).2
    simp at this
  · rw [hlog']
    exact hslept
  · rw [hlog', h.log]
  · intro reply hreply
    exact undecided_updateVerdict.mp (h.undecided reply hreply)
  · have houtcome : played.2 = (updateVerdict display last).result := h.outcome
    rw [houtcome]
    exact result_updateVerdict
  · exact fun hlast => h.exhausted (undecided_updateVerdict.mpr hlast)

/-! ## Uploads -/

/-- Replies after which the upload is tried again: not one that accepts the archive, and not one
that says the request is at fault. -/
theorem undecided_uploadVerdict {reply : UploadReply} :
    (uploadVerdict display reply).undecided = true ↔ ∀ answer, reply = .answered answer →
      answer.status ≠ 200 ∧ answer.status ≠ 201 ∧
        ¬ (400 ≤ answer.status ∧ answer.status < 500) := by
  cases reply with
  | notOpened => simp [uploadVerdict, Attempt.undecided]
  | notSent => simp [uploadVerdict, Attempt.undecided]
  | answered answer =>
      unfold uploadVerdict
      dsimp only
      constructor
      · intro h given hgiven
        obtain rfl := UploadReply.answered.inj hgiven
        split_ifs at h with hok hlarge hclient
        · cases h
        · cases h
        · cases h
        · exact ⟨fun h => hok (Or.inr h), fun h => hok (Or.inl h), hclient⟩
      · intro h
        obtain ⟨h200, h201, hclient⟩ := h answer rfl
        rw [if_neg (by omega), if_neg (by omega), if_neg hclient]
        rfl

theorem result_uploadVerdict {reply : UploadReply} :
    (uploadVerdict display reply).result = .ok () ↔
      ∃ answer, reply = .answered answer ∧ (answer.status = 200 ∨ answer.status = 201) := by
  cases reply with
  | notOpened => simp [uploadVerdict, Attempt.result]
  | notSent => simp [uploadVerdict, Attempt.result]
  | answered answer =>
      unfold uploadVerdict
      dsimp only
      split_ifs with hok hlarge hclient
      · exact ⟨fun _ => ⟨answer, rfl, hok.symm⟩, fun _ => rfl⟩
      all_goals
        refine ⟨fun h => by simp [Attempt.result] at h, fun h => ?_⟩
        obtain ⟨given, hgiven, hstatus⟩ := h
        obtain rfl := UploadReply.answered.inj hgiven
        exact absurd hstatus.symm hok

/-- **Uploading artifacts.** Every run sends one and the same archive, at most three times, and
never again after GitLab has accepted it or found the request at fault; the upload succeeds exactly
when the last answer accepts it. -/
theorem uploadArtifacts_run (jobId : Nat) (token : Chars) (upload : ArtifactUpload)
    (answer : List (Sigma ClientCall.Reply) → (c : ClientCall) → c.Reply) :
    let played := (uploadArtifacts display jobId token upload).play answer []
    slept played.1 ≤ 300 ∧ ∃ before last,
      played.1 = showAll (shownAttempt (.uploadArtifacts jobId token upload) backoff) 0
        (before ++ [last]) ∧
      before.length ≤ 2 ∧
      (∀ reply ∈ before, ∀ given, reply = .answered given →
        given.status ≠ 200 ∧ given.status ≠ 201 ∧ ¬ (400 ≤ given.status ∧ given.status < 500)) ∧
      (played.2 = .ok () ↔
        ∃ given, last = .answered given ∧ (given.status = 200 ∨ given.status = 201)) ∧
      (played.2 ≠ .ok () → (∀ given, last = .answered given →
        ¬ (400 ≤ given.status ∧ given.status < 500)) → before.length = 2) := by
  intro played
  have hadds := adds_requests (.uploadArtifacts jobId token upload) rfl
    (uploadVerdict display) backoff 2
  obtain ⟨log, hlog, ⟨⟨before, last, h⟩, hslept⟩, -⟩ :=
    adds_play answer (P := fun _ => True) (fun _ _ => trivial) [] hadds
  have hlog' : played.1 = log := hlog
  have houtcome : played.2 = (uploadVerdict display last).result := h.outcome
  refine ⟨?_, before, last, ?_, h.bound, ?_, ?_, ?_⟩
  · rw [hlog']
    exact hslept
  · rw [hlog', h.log]
  · intro reply hreply
    exact undecided_uploadVerdict.mp (h.undecided reply hreply)
  · rw [houtcome]
    exact result_uploadVerdict
  · intro hfailed hclient
    refine h.exhausted (undecided_uploadVerdict.mpr fun given hgiven => ?_)
    have hnot : ∀ status, given.status = status → (status = 200 ∨ status = 201) → False := by
      intro status hstatus hok
      apply hfailed
      rw [houtcome]
      exact result_uploadVerdict.mpr ⟨given, hgiven, hstatus ▸ hok⟩
    exact ⟨fun h => hnot 200 h (Or.inl rfl), fun h => hnot 201 h (Or.inr rfl),
      hclient given hgiven⟩

/-! ## Jobs that cannot be read -/

/-- A job that cannot be read is reported: its log says where reading it failed, and its state is
set to failed. -/
def ReportedFailed (identity : JobIdentity) (e : ParseError) (log : List (Sigma ClientCall.Reply)) :
    Prop :=
  ∃ patches updates,
    log = showAll (shownAttempt (.patchTrace identity.id identity.token
        ⟨0, Utf8.encode (unparseableTrace e)⟩) backoff) 0 patches ++
      showAll (shownAttempt (.updateJob identity.id
        ⟨identity.token, .failed, some .runnerSystemFailure, none⟩) updateDelay) 0 updates ∧
    0 < patches.length ∧ patches.length ≤ 3 ∧ 0 < updates.length ∧ updates.length ≤ 8

/-- What a job request comes to: its reply, its outcome, and what else is asked. -/
inductive JobRequested (payloads : Payloads) :
    Option JobAnswer → Except ClientError (Option Job) → List (Sigma ClientCall.Reply) → Prop where
  /-- GitLab has assigned a job, and it is returned -/
  | handed {status : Nat} {text : Chars} {job : Job} (assigned : status = 200 ∨ status = 201)
      (read : payloads.job text = .ok job) :
      JobRequested payloads (some ⟨status, some text⟩) (.ok (some job)) []
  /-- the assigned job cannot be read, and is reported failed where it can be told which it is -/
  | unparseable {status : Nat} {text : Chars} {e : ParseError}
      {log : List (Sigma ClientCall.Reply)} (assigned : status = 200 ∨ status = 201)
      (unread : payloads.job text = .error e)
      (reported : ∀ identity, payloads.identity text = some identity →
        ReportedFailed identity e log)
      (unknown : payloads.identity text = none → log = []) :
      JobRequested payloads (some ⟨status, some text⟩)
        (.error ⟨"Failed to parse job response: ".toList ++ describeParseError e⟩) log
  | noJob {text : Option Chars} : JobRequested payloads (some ⟨204, text⟩) (.ok none) []
  /-- no answer that assigns a job arrived whole -/
  | failed {reply : Option JobAnswer} {error : ClientError}
      (unassigned : ∀ status text, reply = some ⟨status, some text⟩ →
        status ≠ 200 ∧ status ≠ 201) :
      JobRequested payloads reply (.error error) []

/-- A request is sent at least once and as often as it may be. -/
theorem adds_replies {α : Type} (c : ClientCall) (hc : c.isRequest = true)
    (verdict : c.Reply → Attempt ClientError α) (delay : Nat → Nat) (left : Nat) :
    Adds (attempts (attemptCall c verdict delay) left 0) fun _ log => ∃ replies,
      log = showAll (shownAttempt c delay) 0 replies ∧
        0 < replies.length ∧ replies.length ≤ left + 1 := by
  refine adds_mono (fun r log h => ?_) (adds_requests c hc verdict delay left)
  obtain ⟨⟨before, last, h⟩, -⟩ := h
  have hbound := h.bound
  have hlength : (before ++ [last]).length = before.length + 1 := List.length_append
  exact ⟨before ++ [last], h.log, by omega, by omega⟩

theorem adds_patchTrace (jobId : Nat) (token : Chars) {request : TraceProtocol.Request}
    (hbody : request.body ≠ []) :
    Adds (patchTrace display jobId token request) fun _ log => ∃ replies,
      log = showAll (shownAttempt (.patchTrace jobId token request) backoff) 0 replies ∧
        0 < replies.length ∧ replies.length ≤ 3 := by
  unfold patchTrace retryWithBackoff
  rw [if_neg hbody]
  exact adds_replies (.patchTrace jobId token request) rfl (patchVerdict display request) backoff 2

theorem unparseableTrace_ne_nil (e : ParseError) : Utf8.encode (unparseableTrace e) ≠ [] := by
  unfold unparseableTrace
  rw [List.append_assoc, Utf8.encode_append]
  exact List.append_ne_nil_of_left_ne_nil (by decide) _

/-- **A job that cannot be read is reported**, whatever becomes of the requests. -/
theorem adds_failUnparseable (identity : JobIdentity) (e : ParseError) :
    Adds (failUnparseable display identity e) fun r log =>
      r = .ok () ∧ ReportedFailed identity e log := by
  refine adds_attempt_bind (fun _ log hpatches => ?_)
    (adds_patchTrace identity.id identity.token (unparseableTrace_ne_nil e))
  refine adds_attempt_bind (fun _ more hupdates => ?_)
    (adds_replies (.updateJob identity.id
      (updateBody identity.token .failed (some .runnerSystemFailure) none)) rfl
      (updateVerdict display) updateDelay 7)
  obtain ⟨patches, rfl, hsome, hthree⟩ := hpatches
  obtain ⟨updates, rfl, hsome', height⟩ := hupdates
  refine ⟨rfl, patches, updates, ?_, hsome, hthree, hsome', height⟩
  rw [List.append_nil]
  rfl

/-- **What becomes of the reply to a job request.** -/
theorem adds_receiveJob (payloads : Payloads) (reply : Option JobAnswer) :
    Adds (receiveJob display payloads reply) (JobRequested payloads reply) := by
  cases reply with
  | none => exact .failed (by simp)
  | some given =>
      obtain ⟨status, text⟩ := given
      unfold receiveJob
      dsimp only
      by_cases hnoJob : status = 204
      · rw [if_pos hnoJob, hnoJob]
        exact .noJob
      by_cases hassigned : status = 200 ∨ status = 201
      · rw [if_neg hnoJob, if_pos hassigned]
        cases text with
        | none => exact .failed (by simp)
        | some text =>
            dsimp only
            cases hread : payloads.job text with
            | ok job => exact .handed hassigned hread
            | error e =>
                dsimp only
                cases hidentity : payloads.identity text with
                | none =>
                    exact .unparseable hassigned hread
                      (fun identity h => absurd (hidentity.symm.trans h) (by simp)) fun _ => rfl
                | some identity =>
                    refine adds_bind (fun _ log hlog => ?_) (fun e log hlog => ?_)
                      (adds_failUnparseable identity e)
                    · refine .unparseable hassigned hread (fun identity' h => ?_) fun h => ?_
                      · obtain rfl := Option.some.inj (hidentity.symm.trans h)
                        rw [List.append_nil]
                        exact hlog.2
                      · exact absurd (hidentity.symm.trans h) (by simp)
                    · exact absurd hlog.1 (by simp)
      · have hfailed : ∀ error : ClientError,
            JobRequested payloads (some ⟨status, text⟩) (.error error) [] := by
          intro error
          refine .failed fun status' text' h => ?_
          obtain rfl : status = status' := congrArg JobAnswer.status (Option.some.inj h)
          exact not_or.mp hassigned
        rw [if_neg hnoJob, if_neg hassigned]
        split
        · exact hfailed _
        · exact hfailed _

/-- **No assigned job is lost silently.** Every request for a job is one request; when GitLab's
answer assigns a job and arrives, the job is returned, or it cannot be read and is reported failed
with no more than where reading failed; in every other case nothing else is asked. -/
theorem requestJob_accounted (payloads : Payloads) (request : JobRequest)
    (answer : List (Sigma ClientCall.Reply) → (c : ClientCall) → c.Reply) :
    ∃ (reply : Option JobAnswer) (log : List (Sigma ClientCall.Reply)),
      ((requestJob display payloads request).play answer []).1 =
        ⟨.requestJob request, reply⟩ :: log ∧
      JobRequested payloads reply ((requestJob display payloads request).play answer []).2 log := by
  have hadds : Adds (requestJob display payloads request) fun r log =>
      ∃ reply more, log = ⟨.requestJob request, reply⟩ :: more ∧
        JobRequested payloads reply r more := by
    intro reply
    exact adds_mono (fun r more h => ⟨reply, more, rfl, h⟩) (adds_receiveJob payloads reply)
  obtain ⟨log, hlog, ⟨reply, more, hmore, hrequested⟩, -⟩ :=
    adds_play answer (P := fun _ => True) (fun _ _ => trivial) [] hadds
  exact ⟨reply, more, by rw [hlog, hmore]; rfl, hrequested⟩

end TurboCi
