import TurboCi.Lib.Runs
import TurboCi.RunnerDaemon.Trace

set_option autoImplicit false

/-! # The log protocol

The writer, the network and GitLab's copy of the log as one system. GitLab appends the body of
a request whose `Content-Range` starts at the length of its log and answers 416 with the length
otherwise; it may end the job at any time. The network delivers any request ever sent, at any
later time and as often as it likes, and any answer may be lost.

Every request carries a slice of the writer's log at its own offset, and that log only grows.
So a request that GitLab appends continues its copy with the right bytes, however old it is, and
what an answer acknowledges stays true.
-/

namespace TurboCi

open Runs

namespace TraceProtocol

/-- A `PATCH` of the trace. -/
structure Request where
  /-- start of the `Content-Range` -/
  start : Nat
  body : Text
  deriving DecidableEq

/-- How GitLab treats a request, and the headers it adds. -/
inductive Mood where
  | serve (jobStatus updateInterval : Option Chars)
  /-- the job is no longer running -/
  | forbid
  /-- a server error -/
  | error
  deriving DecidableEq

/-- The `Range` header for a log of the given length. -/
def rangeHeader (length : Nat) : Chars := "0-".toList ++ Nat.toDigits 10 length

/-- GitLab's log after a request, and the answer. -/
def serve (log : Text) (request : Request) : Mood → Text × Response
  | .serve jobStatus updateInterval =>
      if request.start = log.length then
        (log ++ request.body,
          { status := 202, jobStatus := jobStatus, updateInterval := updateInterval })
      else
        (log, { status := 416, jobStatus := jobStatus, range := rangeHeader log.length,
                updateInterval := updateInterval })
  | .forbid => (log, { status := 403 })
  | .error => (log, { status := 500 })

/-- A call of `patch_trace` waiting for the answer to one of its attempts. -/
structure Call where
  /-- the number of the attempt's request -/
  id : Nat
  request : Request
  attempt : Nat
  deriving DecidableEq

def maxAttempts : Nat := 3

structure State where
  writer : TraceWriter
  /-- GitLab's copy -/
  log : Text := []
  /-- every request sent so far -/
  requests : List Request := []
  /-- every answer so far, with the number of its request -/
  responses : List (Nat × Response) := []
  call : Option Call := none
  /-- how many flushes `finish` has left -/
  finishing : Nat := 0
  /-- what `flush` returned, when it has and nothing was written since -/
  flushed : Option Bool := none
  /-- an answer reported the job as aborted -/
  aborted : Bool := false
  deriving DecidableEq

inductive Label where
  /-- `write`, so long after the last flush -/
  | write (text : Text) (elapsed : Nat)
  | flush
  | flushIfDue (elapsed : Nat)
  | finish
  /-- the next flush of `finish` -/
  | finishAgain
  /-- the network delivers a request -/
  | deliver (id : Nat) (mood : Mood)
  /-- the waiting call receives an answer -/
  | receive (id : Nat)
  /-- the waiting call's attempt fails: its request or its answer was lost -/
  | lose
  /-- the waiting call is dropped -/
  | drop
  deriving DecidableEq

namespace State

/-- Send a request as the given attempt of a call. -/
def send (s : State) (request : Request) (attempt : Nat) : State :=
  { s with
    requests := s.requests ++ [request]
    call := some ⟨s.requests.length, request, attempt⟩ }

/-- `flush` returns whether GitLab has it all; then `finish` is done too. -/
def endFlush (s : State) : State :=
  { s with
    call := none
    flushed := some s.writer.complete
    finishing := if s.writer.complete then 0 else s.finishing }

/-- `flush` up to its first request. -/
def startFlush (s : State) : State :=
  if s.writer.complete then s.endFlush
  else { s with flushed := none }.send
    ⟨s.writer.sent, s.writer.trace.drop s.writer.sent⟩ 1

/-- An attempt that failed is repeated or ends the call with an error. -/
def retry (s : State) (call : Call) : State :=
  if call.attempt < maxAttempts then s.send call.request (call.attempt + 1) else s.endFlush

/-- The answer to an attempt. -/
def receive (s : State) (call : Call) (response : Response) : State :=
  match patchResult call.request.start (call.request.start + call.request.body.length) response with
  | none => s.retry call
  | some patch =>
      { s with
        writer := s.writer.acknowledge patch
        aborted := s.aborted || patch.remote = RemoteState.aborted }.endFlush

/-- The writer is not in the middle of an operation. -/
def idle (s : State) : Bool := s.call.isNone && s.finishing = 0

end State

def step (scrubber : SecretScrubber) (s : State) : Label → Option State
  | .write text elapsed =>
      if s.idle then
        let s := { s with writer := s.writer.push scrubber text, flushed := none }
        if flushBytes ≤ s.writer.trace.length - s.writer.sent ∨ s.writer.updateInterval ≤ elapsed
        then some s.startFlush
        else some s
      else none
  | .flush => if s.idle then some s.startFlush else none
  | .flushIfDue elapsed =>
      if s.idle then
        if s.writer.updateInterval ≤ elapsed then some s.startFlush else some s
      else none
  | .finish =>
      if s.idle then
        some { s with
          writer := s.writer.pushRest scrubber
          finishing := finishAttempts
          flushed := none }
      else none
  | .finishAgain =>
      match s.call, s.finishing with
      | none, n + 1 => some { s with finishing := n }.startFlush
      | _, _ => none
  | .deliver id mood =>
      match s.requests[id]? with
      | some request =>
          let (log, response) := serve s.log request mood
          some { s with log := log, responses := s.responses ++ [(id, response)] }
      | none => none
  | .receive id =>
      match s.call, s.responses[id]? with
      | some call, some (request, response) =>
          if request = call.id then some (s.receive call response) else none
      | _, _ => none
  | .lose =>
      match s.call with
      | some call => some (s.retry call)
      | none => none
  | .drop => if s.call.isSome then some { s with call := none, finishing := 0 } else none

/-- A writer with an empty log, before anything was sent. -/
def init (limit : Nat) : State := { writer := { limit := limit } }

/-! ## The invariant -/

/-- The request carries a slice of the log at its own offset. -/
structure Slice (trace : Text) (request : Request) : Prop where
  le : request.start ≤ trace.length
  body : request.body <+: trace.drop request.start

theorem Slice.mono {trace trace' : Text} {request : Request} (h : trace <+: trace')
    (hs : Slice trace request) : Slice trace' request := by
  obtain ⟨more, rfl⟩ := h
  refine ⟨hs.le.trans (by simp), ?_⟩
  rw [List.drop_append_of_le_length hs.le]
  exact hs.body.trans (List.prefix_append _ _)

/-- What the answer acknowledges for the request is in a log of the given length. -/
def Sound (length : Nat) (request : Request) (response : Response) : Prop :=
  ∀ patch, patchResult request.start (request.start + request.body.length) response = some patch →
    patch.remote = .aborted ∨ patch.offset ≤ length

structure Inv (s : State) : Prop where
  log : s.log <+: s.writer.trace
  sent : s.writer.sent ≤ s.writer.trace.length
  requests : ∀ request ∈ s.requests, Slice s.writer.trace request
  responses : ∀ p ∈ s.responses, ∃ request, s.requests[p.1]? = some request ∧
    Sound s.log.length request p.2
  call : ∀ c, s.call = some c → s.requests[c.id]? = some c.request
  acknowledged : s.aborted = false → s.writer.sent ≤ s.log.length
  flushed : s.flushed = some true → s.writer.trace.length ≤ s.writer.sent

theorem inv_init (limit : Nat) : Inv (init limit) where
  log := List.nil_prefix
  sent := le_refl 0
  requests _ h := absurd h List.not_mem_nil
  responses _ h := absurd h List.not_mem_nil
  call _ h := nomatch h
  acknowledged _ := le_refl 0
  flushed h := nomatch h

/-! ## GitLab's answers -/

theorem parseUnsigned_toDigits {n m : Nat} (h : parseUnsigned (Nat.toDigits 10 n) = some m) :
    m = n := by
  have hsign : parseUnsigned.stripSign (Nat.toDigits 10 n) = Nat.toDigits 10 n := by
    unfold parseUnsigned.stripSign
    split
    · next cs hcs =>
        have hdigit := Nat.isDigit_of_mem_toDigits (by decide) (by decide)
          (hcs ▸ List.mem_cons_self : '+' ∈ Nat.toDigits 10 n)
        exact absurd hdigit (by decide)
    · rfl
  unfold parseUnsigned at h
  simp only [hsign, Nat.ofDigitChars_ten_toDigits] at h
  split at h
  · exact (Option.some.inj h).symm
  · cases h

/-- What an answer acknowledges is in GitLab's log. -/
theorem serve_sound (log : Text) (request : Request) (mood : Mood) :
    Sound (serve log request mood).1.length request (serve log request mood).2 := by
  intro patch h
  cases mood with
  | serve jobStatus updateInterval =>
      by_cases hstart : request.start = log.length
      · -- appended: the body's end is now the end of the log
        simp only [serve, if_pos hstart, patchResult] at h ⊢
        obtain rfl := Option.some.inj h
        right
        simp [hstart]
      · -- 416: the writer reads the log's length from the range header
        have hdash : afterDash (rangeHeader log.length) = some (Nat.toDigits 10 log.length) := rfl
        simp only [serve, if_neg hstart, patchResult, Option.bind_some, hdash] at h ⊢
        cases hparse : parseUnsigned (Nat.toDigits 10 log.length) with
        | none => simp [hparse] at h
        | some n =>
            obtain rfl := parseUnsigned_toDigits hparse
            simp only [hparse] at h
            obtain rfl := Option.some.inj h
            exact Or.inr (le_refl _)
  | forbid =>
      simp only [serve, patchResult] at h
      obtain rfl := Option.some.inj h
      exact Or.inl rfl
  | error => simp [serve, patchResult] at h

/-- **GitLab appends the right bytes**: a slice of the writer's log that starts where GitLab's
log ends continues it. -/
theorem serve_log {trace log : Text} (hlog : log <+: trace) {request : Request}
    (hs : Slice trace request) (mood : Mood) :
    log <+: (serve log request mood).1 ∧ (serve log request mood).1 <+: trace := by
  cases mood with
  | serve jobStatus updateInterval =>
      simp only [serve]
      split
      · next hstart =>
          refine ⟨List.prefix_append _ _, ?_⟩
          have hbody := hs.body
          rw [hstart] at hbody
          obtain ⟨rest, rfl⟩ := hlog
          rw [List.drop_left] at hbody
          exact (List.prefix_append_right_inj log).mpr hbody
      · exact ⟨List.prefix_rfl, hlog⟩
  | forbid => exact ⟨List.prefix_rfl, hlog⟩
  | error => exact ⟨List.prefix_rfl, hlog⟩

/-! ## What each operation keeps -/

theorem Sound.mono {length length' : Nat} (hle : length ≤ length') {request : Request}
    {response : Response} (h : Sound length request response) :
    Sound length' request response := by
  intro patch hpatch
  exact (h patch hpatch).imp_right (fun hoffset => hoffset.trans hle)

/-- The writer may add to its log. -/
theorem Inv.write {s : State} (h : Inv s) {writer : TraceWriter}
    (htrace : s.writer.trace <+: writer.trace) (hsent : writer.sent = s.writer.sent)
    (finishing : Nat) :
    Inv { s with writer := writer, finishing := finishing, flushed := none } where
  log := h.log.trans htrace
  sent := by
    show writer.sent ≤ writer.trace.length
    rw [hsent]
    exact h.sent.trans htrace.length_le
  requests request hr := (h.requests request hr).mono htrace
  responses := h.responses
  call := h.call
  acknowledged ha := by
    show writer.sent ≤ s.log.length
    rw [hsent]
    exact h.acknowledged ha
  flushed hf := nomatch hf

theorem Inv.send {s : State} (h : Inv s) {request : Request}
    (hr : Slice s.writer.trace request) (attempt : Nat) : Inv (s.send request attempt) where
  log := h.log
  sent := h.sent
  requests := forall_concat h.requests hr
  responses p hp := by
    obtain ⟨r, hget, hsound⟩ := h.responses p hp
    exact ⟨r, List.getElem?_append_left (List.getElem?_eq_some_iff.mp hget).1 ▸ hget, hsound⟩
  call c hc := by
    obtain rfl := Option.some.inj hc
    exact List.getElem?_concat_length
  acknowledged := h.acknowledged
  flushed := h.flushed

theorem Inv.unflushed {s : State} (h : Inv s) : Inv { s with flushed := none } :=
  h.write List.prefix_rfl rfl s.finishing

theorem Inv.endFlush {s : State} (h : Inv { s with flushed := none }) : Inv s.endFlush where
  log := h.log
  sent := h.sent
  requests := h.requests
  responses := h.responses
  call _ hc := nomatch hc
  acknowledged := h.acknowledged
  flushed hf := by
    have hcomplete : s.writer.complete = true := Option.some.inj hf
    exact of_decide_eq_true hcomplete

theorem Inv.startFlush {s : State} (h : Inv s) : Inv s.startFlush := by
  unfold State.startFlush
  split
  · exact h.unflushed.endFlush
  · exact h.unflushed.send ⟨h.sent, List.prefix_rfl⟩ 1

theorem Inv.retry {s : State} (h : Inv s) {c : Call} (hc : s.call = some c) :
    Inv (s.retry c) := by
  unfold State.retry
  split
  · exact h.send (h.requests c.request (List.mem_of_getElem? (h.call c hc))) _
  · exact h.unflushed.endFlush

/-- An answer to the waiting call: what it acknowledges GitLab has, unless it aborts the job. -/
theorem Inv.receive {s : State} (h : Inv s) {c : Call} (hc : s.call = some c)
    {response : Response} (hsound : Sound s.log.length c.request response) :
    Inv (s.receive c response) := by
  unfold State.receive
  split
  · exact h.retry hc
  · next patch hpatch =>
      refine Inv.endFlush ?_
      exact {
        log := h.log
        sent := TraceWriter.acknowledge_sent_le s.writer patch
        requests := h.requests
        responses := h.responses
        call := h.call
        acknowledged := fun ha => by
          have ha' : s.aborted = false ∧ patch.remote ≠ .aborted := by simpa using ha
          have hoffset : patch.offset ≤ s.log.length := (hsound patch hpatch).resolve_left ha'.2
          calc (s.writer.acknowledge patch).sent ≤ patch.offset :=
                TraceWriter.acknowledge_sent_le_offset s.writer ha'.2
            _ ≤ s.log.length := hoffset
        flushed := fun hf => nomatch hf }

/-- **Every step keeps the invariant.** -/
theorem inv_step {scrubber : SecretScrubber} {s : State} {l : Label} {s' : State} (h : Inv s)
    (hstep : step scrubber s l = some s') : Inv s' := by
  cases l with
  | write text elapsed =>
      obtain ⟨htrace, hsent⟩ := TraceWriter.push_spec scrubber s.writer text
      have hwrite := h.write htrace hsent s.finishing
      simp only [step] at hstep
      split at hstep
      · split at hstep
        · obtain rfl := Option.some.inj hstep
          exact hwrite.startFlush
        · obtain rfl := Option.some.inj hstep
          exact hwrite
      · cases hstep
  | flush =>
      obtain ⟨-, rfl⟩ := of_guard hstep
      exact h.startFlush
  | flushIfDue elapsed =>
      simp only [step] at hstep
      split at hstep
      · split at hstep
        · obtain rfl := Option.some.inj hstep
          exact h.startFlush
        · obtain rfl := Option.some.inj hstep
          exact h
      · cases hstep
  | finish =>
      obtain ⟨htrace, hsent⟩ := TraceWriter.pushRest_spec scrubber s.writer
      obtain ⟨-, rfl⟩ := of_guard hstep
      exact h.write htrace hsent finishAttempts
  | finishAgain =>
      simp only [step] at hstep
      split at hstep
      · next n _ _ =>
          obtain rfl := Option.some.inj hstep
          refine Inv.startFlush ?_
          exact { h with }
      · cases hstep
  | deliver id mood =>
      simp only [step] at hstep
      split at hstep
      · next request hget =>
          obtain rfl := Option.some.inj hstep
          -- however old the request is, it carries a slice of the log
          have hslice := h.requests request (List.mem_of_getElem? hget)
          obtain ⟨hgrow, htrace⟩ := serve_log h.log hslice mood
          refine { h with log := htrace, responses := ?_, acknowledged := ?_ }
          · apply forall_concat
            · intro p hp
              obtain ⟨r, hr, hsound⟩ := h.responses p hp
              exact ⟨r, hr, hsound.mono hgrow.length_le⟩
            · exact ⟨request, hget, serve_sound s.log request mood⟩
          · intro ha
            exact (h.acknowledged ha).trans hgrow.length_le
      · cases hstep
  | receive id =>
      simp only [step] at hstep
      split at hstep
      · next call request response hcall hresp =>
          split at hstep
          · -- the answer is one to the request of the waiting call
            next hid =>
              obtain rfl := Option.some.inj hstep
              obtain ⟨r, hr, hsound⟩ := h.responses _ (List.mem_of_getElem? hresp)
              have hr' : s.requests[call.id]? = some r := hid ▸ hr
              rw [h.call call hcall] at hr'
              obtain rfl := Option.some.inj hr'
              exact h.receive hcall hsound
          · cases hstep
      · cases hstep
  | lose =>
      simp only [step] at hstep
      split at hstep
      · next call hcall =>
          obtain rfl := Option.some.inj hstep
          exact h.retry hcall
      · cases hstep
  | drop =>
      obtain ⟨-, rfl⟩ := of_guard hstep
      exact { h with call := fun _ hc => nomatch hc }

theorem inv_of_run {scrubber : SecretScrubber} {limit : Nat} {ls : List Label} {s : State}
    (h : run (step scrubber) (init limit) ls = some s) : Inv s :=
  invariant (fun _ _ _ hi hs => inv_step hi hs) (inv_init limit) h

/-! ## The protocol's guarantee -/

/-- **GitLab's log is a prefix of the writer's**, whatever the network does, and it is the
whole of it whenever a flush succeeds before the job is reported as aborted. -/
theorem log_of_run {scrubber : SecretScrubber} {limit : Nat} {ls : List Label} {s : State}
    (h : run (step scrubber) (init limit) ls = some s) :
    s.log <+: s.writer.trace ∧ s.writer.sent ≤ s.writer.trace.length ∧
      (s.flushed = some true → s.aborted = false → s.log = s.writer.trace) := by
  have hinv := inv_of_run h
  refine ⟨hinv.log, hinv.sent, fun hflushed haborted => ?_⟩
  have hlen : s.writer.trace.length ≤ s.log.length := by
    calc s.writer.trace.length ≤ s.writer.sent := hinv.flushed hflushed
      _ ≤ s.log.length := hinv.acknowledged haborted
  exact hinv.log.eq_of_length_le hlen

/-- A flush whose first answer is lost: the repeated request is answered with 416. -/
def lostAnswer : List Label :=
  [.write (Utf8.encode "hi\n".toList) 5000, .deliver 0 (.serve none none), .lose,
    .deliver 1 (.serve none none), .deliver 0 (.serve none none), .receive 1]

theorem log_of_run_lostAnswer :
    ∃ s, run (step ⟨[], []⟩) (init defaultLimit) lostAnswer = some s ∧
      s.flushed = some true ∧ s.aborted = false ∧ s.log = s.writer.trace := by
  obtain ⟨s, hs, hflushed, haborted⟩ : ∃ s,
      run (step ⟨[], []⟩) (init defaultLimit) lostAnswer = some s ∧
        s.flushed = some true ∧ s.aborted = false := ⟨_, rfl, rfl, rfl⟩
  exact ⟨s, hs, hflushed, haborted, (log_of_run hs).2.2 hflushed haborted⟩

end TraceProtocol

end TurboCi
