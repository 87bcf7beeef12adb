import TurboCi.RunnerDaemon.Cancel
import TurboCi.Security.SecretScrubber

set_option autoImplicit false

/-! # The job log

`TraceWriter` owns the scrubbed log of a job and the offset up to which GitLab has acknowledged
it (`runner_daemon/trace.rs`); `patch_trace` sends the rest and reads the answer
(`gitlab/mod.rs`). Times are in milliseconds. The writer here streams to GitLab; one that only
collects output has no protocol to speak of.
-/

namespace TurboCi

open Utf8

/-! ## Answers -/

/-- What `patch_trace` looks at in an answer of GitLab. -/
structure Response where
  status : Nat
  jobStatus : Option Chars := none
  range : Option Chars := none
  updateInterval : Option Chars := none
  deriving DecidableEq

/-- `RemoteState::from_response`. -/
def RemoteState.fromResponse (response : Response) : RemoteState :=
  if response.status = 403 then aborted
  else if response.jobStatus = some "canceling".toList then canceling
  else if response.jobStatus = some "canceled".toList
      ∨ response.jobStatus = some "failed".toList then aborted
  else running

/-- Parse a number that fits in 64 bits, an optional `+` before its digits. -/
def parseUnsigned (cs : Chars) : Option Nat :=
  let digits := (stripSign cs)
  if digits ≠ [] ∧ digits.all Char.isDigit ∧ Nat.ofDigitChars 10 digits 0 < 2 ^ 64 then
    some (Nat.ofDigitChars 10 digits 0)
  else none
where
  stripSign : Chars → Chars
    | '+' :: cs => cs
    | cs => cs

/-- What is after the first `-`, if there is one. -/
def afterDash : Chars → Option Chars
  | [] => none
  | c :: cs => if c = '-' then some cs else afterDash cs

/-- The result of appending to the trace. -/
structure TracePatch where
  /-- end of what GitLab has; after a 416 this is where to resend from -/
  offset : Nat
  remote : RemoteState
  updateInterval : Option Nat
  deriving DecidableEq

/-- What `patch_trace` makes of the answer to one attempt; none is an error, which is retried. -/
def patchResult (offset endOffset : Nat) (response : Response) : Option TracePatch :=
  let remote := RemoteState.fromResponse response
  let updateInterval :=
    ((response.updateInterval.bind parseUnsigned).filter (0 < ·)).map (· * 1000)
  if response.status = 403 then some ⟨offset, remote, updateInterval⟩
  else if response.status = 416 then
    match (response.range.bind afterDash).bind parseUnsigned with
    | some serverOffset => some ⟨serverOffset, remote, updateInterval⟩
    | none => none
  else if 200 ≤ response.status ∧ response.status < 300 then
    some ⟨endOffset, remote, updateInterval⟩
  else none

/-! ## The writer -/

def defaultLimit : Nat := 4 * 1024 * 1024

def defaultUpdateInterval : Nat := 3000

def maxUpdateInterval : Nat := 15 * 60 * 1000

/-- Output sent sooner than the interval once this much is pending. -/
def flushBytes : Nat := 256 * 1024

def finishAttempts : Nat := 5

structure TraceWriter where
  scrubber : StreamScrubber := .new
  trace : Text := []
  /-- bytes GitLab has acknowledged -/
  sent : Nat := 0
  updateInterval : Nat := defaultUpdateInterval
  limit : Nat := defaultLimit
  truncated : Bool := false
  cancel : RemoteState := .running
  deriving DecidableEq

namespace TraceWriter

/-- What a log that exceeds its limit ends with. -/
def limitNotice (limit : Nat) : Text :=
  encode ("\nJob's log exceeded limit of ".toList ++ Nat.toDigits 10 limit ++ (" bytes.\n" ++
    "Job execution will continue but no more output will be collected.\n").toList)

def append (self : TraceWriter) (text : Text) : TraceWriter :=
  if self.truncated then self
  else
    let room := self.limit - self.trace.length
    if text.length ≤ room then { self with trace := self.trace ++ text }
    else
      { self with
        trace := self.trace ++ text.take (floorCharBoundary text room) ++ limitNotice self.limit
        truncated := true }

/-- The part of `write` before anything is sent. -/
def push (scrubber : SecretScrubber) (self : TraceWriter) (text : Text) : TraceWriter :=
  let (safe, stream) := StreamScrubber.push scrubber self.scrubber text
  { self with scrubber := stream }.append safe

/-- The part of `finish` before anything is sent. -/
def pushRest (scrubber : SecretScrubber) (self : TraceWriter) : TraceWriter :=
  let (rest, stream) := StreamScrubber.finish scrubber self.scrubber
  { self with scrubber := stream }.append rest

/-- What `flush` does with the result of `patch_trace`. -/
def acknowledge (self : TraceWriter) (patch : TracePatch) : TraceWriter :=
  { self with
    sent :=
      -- GitLab no longer accepts output for an aborted job
      if patch.remote = .aborted then self.trace.length
      else min patch.offset self.trace.length
    cancel := self.cancel.update patch.remote
    updateInterval :=
      match patch.updateInterval with
      | some interval => min interval maxUpdateInterval
      | none => self.updateInterval }

/-- Whether GitLab has all of the log, as far as the writer knows. -/
def complete (self : TraceWriter) : Bool := self.trace.length ≤ self.sent

/-! ## What the writer does to its log -/

theorem append_spec (self : TraceWriter) (text : Text) :
    self.trace <+: (self.append text).trace ∧ (self.append text).sent = self.sent := by
  unfold append
  split
  · exact ⟨List.prefix_rfl, rfl⟩
  · simp only
    split
    · exact ⟨List.prefix_append _ _, rfl⟩
    · exact ⟨by rw [List.append_assoc]; exact List.prefix_append _ _, rfl⟩

theorem push_spec (scrubber : SecretScrubber) (self : TraceWriter) (text : Text) :
    self.trace <+: (self.push scrubber text).trace
      ∧ (self.push scrubber text).sent = self.sent :=
  append_spec { self with scrubber := (StreamScrubber.push scrubber self.scrubber text).2 } _

theorem pushRest_spec (scrubber : SecretScrubber) (self : TraceWriter) :
    self.trace <+: (self.pushRest scrubber).trace
      ∧ (self.pushRest scrubber).sent = self.sent :=
  append_spec { self with scrubber := (StreamScrubber.finish scrubber self.scrubber).2 } _

theorem acknowledge_sent_le (self : TraceWriter) (patch : TracePatch) :
    (self.acknowledge patch).sent ≤ (self.acknowledge patch).trace.length := by
  show (if patch.remote = .aborted then self.trace.length
    else min patch.offset self.trace.length) ≤ self.trace.length
  split
  · exact le_refl _
  · exact min_le_right _ _

theorem acknowledge_sent_le_offset (self : TraceWriter) {patch : TracePatch}
    (h : patch.remote ≠ .aborted) : (self.acknowledge patch).sent ≤ patch.offset := by
  show (if patch.remote = .aborted then self.trace.length
    else min patch.offset self.trace.length) ≤ patch.offset
  rw [if_neg h]
  exact min_le_left _ _

end TraceWriter

end TurboCi
