import TurboCi.RunnerDaemon.TraceProtocol

set_option autoImplicit false

/-! # Finishing the log

`finish` flushes until GitLab has the whole log, five times at most. Whatever the network did
before (requests lost, delivered twice, answers that never came), two answers are enough once
GitLab answers again: the first one appends the rest or tells where GitLab's log ends, and the
second flush starts there.
-/

namespace TurboCi

open Runs

namespace TraceProtocol

/-! ## When GitLab answers -/

/-- The job goes on as far as the `Job-Status` of an answer says. -/
def GoesOn (jobStatus : Option Chars) : Prop :=
  jobStatus ≠ some "canceled".toList ∧ jobStatus ≠ some "failed".toList

/-- Only `finish` runs, GitLab gets the request it waits for and no older one, serves it, and
no answer is lost. -/
def Served (s : State) : Label → Prop
  | .finishAgain => True
  | .deliver id mood => (∃ c, s.call = some c ∧ c.id = id) ∧
      ∃ jobStatus updateInterval, mood = .serve jobStatus updateInterval ∧ GoesOn jobStatus
  | .receive _ => True
  | _ => False

/-- How many answers `finish` got. -/
def answers (ls : List Label) : Nat :=
  ls.countP fun
    | .receive _ => true
    | _ => false

/-! ## The phases of `finish` -/

/-- The call waits for an answer to a request with all that is left of the log. Each answer so
far tells where GitLab's log ends, which is not where the request starts. -/
structure Waiting (s : State) (c : Call) : Prop where
  call : s.call = some c
  request : c.request = ⟨s.writer.sent, s.writer.trace.drop s.writer.sent⟩
  rest : s.writer.sent < s.writer.trace.length
  answered : ∀ p ∈ s.responses, p.1 = c.id → s.writer.sent ≠ s.log.length ∧
    ∃ patch, patchResult s.writer.sent s.writer.trace.length p.2 = some patch ∧
      patch.remote ≠ .aborted ∧ patch.offset = s.log.length

/-- Where `finish` is, after so many answers. -/
inductive Phase (s : State) : Nat → Prop where
  | start (call : s.call = none) (finishing : s.finishing = finishAttempts) : Phase s 0
  | first (c : Call) (waiting : Waiting s c) (finishing : s.finishing + 1 = finishAttempts) :
      Phase s 0
  /-- the writer knows where GitLab's log ends -/
  | again (call : s.call = none) (finishing : s.finishing + 1 = finishAttempts)
      (sent : s.writer.sent = s.log.length) (rest : s.writer.sent < s.writer.trace.length) :
      Phase s 1
  | second (c : Call) (waiting : Waiting s c)
      (log : s.writer.sent = s.log.length ∨ s.log = s.writer.trace) : Phase s 1
  | done {n : Nat} (call : s.call = none) (finishing : s.finishing = 0)
      (flushed : s.flushed = some true) (twice : n ≤ 2) : Phase s n

/-- The job was never reported as aborted, and the length of its log fits in 64 bits. -/
structure Going (s : State) : Prop where
  inv : Inv s
  running : s.aborted = false
  fits : s.writer.trace.length < 2 ^ 64

/-! ## One request -/

theorem complete_iff (writer : TraceWriter) :
    writer.complete = true ↔ writer.trace.length ≤ writer.sent := decide_eq_true_iff

theorem fromResponse_of_goesOn (response : Response) (hstatus : response.status ≠ 403)
    (h : GoesOn response.jobStatus) : RemoteState.fromResponse response ≠ .aborted := by
  unfold RemoteState.fromResponse
  rw [if_neg hstatus]
  split
  · simp
  · rw [if_neg (not_or.mpr h)]
    simp

theorem parseUnsigned_digits {n : Nat} (h : n < 2 ^ 64) :
    parseUnsigned (Nat.toDigits 10 n) = some n := by
  have hdigits : ∀ c ∈ Nat.toDigits 10 n, c.isDigit = true :=
    fun c hc => Nat.isDigit_of_mem_toDigits (by decide) (by decide) hc
  have hsign : parseUnsigned.stripSign (Nat.toDigits 10 n) = Nat.toDigits 10 n := by
    unfold parseUnsigned.stripSign
    split
    · next cs hcs =>
        have hplus : ('+' : Char).isDigit = true :=
          hdigits _ (hcs ▸ List.mem_cons_self : '+' ∈ Nat.toDigits 10 n)
        exact absurd hplus (by decide)
    · rfl
  unfold parseUnsigned
  simp only [hsign, Nat.ofDigitChars_ten_toDigits]
  rw [if_pos]
  exact ⟨Nat.toDigits_ne_nil, List.all_eq_true.mpr hdigits, h⟩

/-- **What GitLab's answer tells**: where its log ends now. -/
theorem patchResult_serve (request : Request) {log : Text} {jobStatus : Option Chars}
    (interval : Option Chars) (hfits : log.length < 2 ^ 64) (h : GoesOn jobStatus) :
    ∃ patch, patchResult request.start (request.start + request.body.length)
        (serve log request (.serve jobStatus interval)).2 = some patch ∧
      patch.remote ≠ .aborted ∧
      patch.offset = (serve log request (.serve jobStatus interval)).1.length := by
  by_cases hstart : request.start = log.length
  · have hserve : serve log request (.serve jobStatus interval) = (log ++ request.body,
        { status := 202, jobStatus := jobStatus, updateInterval := interval }) := if_pos hstart
    have hremote := fromResponse_of_goesOn
      { status := 202, jobStatus := jobStatus, updateInterval := interval } (by simp) h
    rw [hserve]
    refine ⟨_, rfl, hremote, ?_⟩
    show request.start + request.body.length = (log ++ request.body).length
    rw [List.length_append, hstart]
  · have hserve : serve log request (.serve jobStatus interval) = (log,
        { status := 416, jobStatus := jobStatus, range := rangeHeader log.length,
          updateInterval := interval }) := if_neg hstart
    have hdash : afterDash (rangeHeader log.length) = some (Nat.toDigits 10 log.length) := rfl
    have hremote := fromResponse_of_goesOn
      { status := 416, jobStatus := jobStatus, range := rangeHeader log.length,
        updateInterval := interval } (by simp) h
    rw [hserve]
    simp only [patchResult, Option.bind_some, hdash, parseUnsigned_digits hfits]
    exact ⟨_, rfl, hremote, rfl⟩

/-- A request with all that is left either continues GitLab's log to its end or changes nothing. -/
theorem log_serve {trace log : Text} (hlog : log <+: trace) (sent : Nat)
    (jobStatus interval : Option Chars) :
    let log' := (serve log ⟨sent, trace.drop sent⟩ (.serve jobStatus interval)).1
    sent ≠ log.length ∧ log' = log ∨ sent = log.length ∧ log' = trace := by
  by_cases hstart : sent = log.length
  · right
    refine ⟨hstart, ?_⟩
    have hserve : (serve log ⟨sent, trace.drop sent⟩ (.serve jobStatus interval)).1
        = log ++ trace.drop sent := congrArg Prod.fst (if_pos hstart)
    obtain ⟨rest, rfl⟩ := hlog
    rw [hserve, hstart, List.drop_left]
  · exact Or.inl ⟨hstart, congrArg Prod.fst (if_neg hstart)⟩

/-! ## The steps of `finish` -/

/-- A flush that is not complete sends all that is left. -/
theorem waiting_startFlush {s : State} (hinv : Inv s)
    (hrest : s.writer.sent < s.writer.trace.length) :
    ∃ c, Waiting s.startFlush c ∧ s.startFlush.finishing = s.finishing ∧
      s.startFlush.writer = s.writer ∧ s.startFlush.log = s.log := by
  have hincomplete : ¬ s.writer.complete = true := by
    rw [complete_iff]
    omega
  have heq : s.startFlush = { s with flushed := none }.send
      ⟨s.writer.sent, s.writer.trace.drop s.writer.sent⟩ 1 := if_neg hincomplete
  rw [heq]
  refine ⟨⟨s.requests.length, _, 1⟩, ⟨rfl, rfl, hrest, fun p hp hid => ?_⟩, rfl, rfl, rfl⟩
  -- an answer to it would be one to a request sent before
  obtain ⟨request, hget, -⟩ := hinv.responses p hp
  rw [hid] at hget
  rw [List.getElem?_eq_none (le_refl _)] at hget
  cases hget

/-- A flush that is complete ends `finish`. -/
theorem done_startFlush {s : State} (hrest : ¬ s.writer.sent < s.writer.trace.length) {n : Nat}
    (hn : n ≤ 2) : Phase s.startFlush n := by
  have hcomplete : s.writer.complete = true := by
    rw [complete_iff]
    omega
  have heq : s.startFlush = s.endFlush := if_pos hcomplete
  rw [heq]
  refine .done rfl ?_ ?_ hn
  · exact if_pos hcomplete
  · exact congrArg some hcomplete

/-- Delivering the waiting call's request. -/
theorem waiting_deliver {s : State} (h : Going s) {c : Call} (hw : Waiting s c)
    {jobStatus interval : Option Chars} (hgoes : GoesOn jobStatus) {s' : State}
    (hs' : s' = { s with
      log := (serve s.log c.request (.serve jobStatus interval)).1
      responses := s.responses ++ [(c.id, (serve s.log c.request (.serve jobStatus interval)).2)] }) :
    Waiting s' c ∧ (s'.log = s.log ∨ s'.log = s.writer.trace) ∧
      (s.writer.sent = s.log.length → s'.log = s.writer.trace) := by
  have hlog := log_serve h.inv.log s.writer.sent jobStatus interval
  have hfits : s.log.length < 2 ^ 64 := lt_of_le_of_lt h.inv.log.length_le h.fits
  obtain ⟨patch, hpatch, hremote, hoffset⟩ :=
    patchResult_serve c.request interval hfits hgoes
  have hrest := hw.rest
  have hend : c.request.start + c.request.body.length = s.writer.trace.length := by
    rw [hw.request]
    show s.writer.sent + (s.writer.trace.drop s.writer.sent).length = _
    rw [List.length_drop]
    omega
  have hstart : c.request.start = s.writer.sent := by rw [hw.request]
  rw [hend, hstart] at hpatch
  rw [← hw.request] at hlog
  subst hs'
  refine ⟨⟨hw.call, hw.request, hw.rest, ?_⟩, ?_, ?_⟩
  · intro p hp hid
    rcases List.mem_append.mp hp with hp | hp
    · -- an earlier answer: the log has not changed since
      obtain ⟨hne, hold⟩ := hw.answered p hp hid
      rcases hlog with ⟨-, hsame⟩ | ⟨heq, -⟩
      · dsimp only
        rw [hsame]
        exact ⟨hne, hold⟩
      · exact absurd heq hne
    · obtain rfl := List.mem_singleton.mp hp
      refine ⟨?_, patch, hpatch, hremote, hoffset⟩
      dsimp only
      rcases hlog with ⟨hne, hsame⟩ | ⟨-, hwhole⟩
      · rw [hsame]
        exact hne
      · rw [hwhole]
        omega
  · rcases hlog with ⟨-, hsame⟩ | ⟨-, hwhole⟩
    · exact Or.inl hsame
    · exact Or.inr hwhole
  · intro heq
    rcases hlog with ⟨hne, -⟩ | ⟨-, hwhole⟩
    · exact absurd heq hne
    · exact hwhole

/-- The waiting call gets an answer: the writer knows where GitLab's log ends. -/
theorem receive_waiting {s : State} (h : Going s) {c : Call} (hw : Waiting s c)
    {response : Response} (hmem : (c.id, response) ∈ s.responses) {finishing : Nat}
    (hfinishing : s.finishing = finishing) :
    let s' := s.receive c response
    Going s' ∧ s'.writer.trace = s.writer.trace ∧ s'.call = none ∧ s'.log = s.log ∧
      s'.writer.sent = s.log.length ∧
      (s.log = s.writer.trace → s'.finishing = 0 ∧ s'.flushed = some true) ∧
      (s.log ≠ s.writer.trace → s'.finishing = finishing ∧
        s'.writer.sent < s'.writer.trace.length) := by
  obtain ⟨-, patch, hpatch, hremote, hoffset⟩ := hw.answered _ hmem rfl
  have hrest := hw.rest
  have hle := h.inv.log.length_le
  -- the request reaches to the end of the trace
  have hresult : patchResult c.request.start (c.request.start + c.request.body.length) response
      = some patch := by
    have hend : c.request.start + c.request.body.length = s.writer.trace.length := by
      rw [hw.request]
      show s.writer.sent + (s.writer.trace.drop s.writer.sent).length = _
      rw [List.length_drop]
      omega
    rw [hend, hw.request]
    exact hpatch
  have heq : s.receive c response = { s with
      writer := s.writer.acknowledge patch
      aborted := s.aborted || patch.remote = RemoteState.aborted }.endFlush := by
    unfold State.receive
    rw [hresult]
  -- the answer tells how long GitLab's log is
  have hsent : (s.writer.acknowledge patch).sent = s.log.length := by
    show (if patch.remote = .aborted then s.writer.trace.length
      else min patch.offset s.writer.trace.length) = s.log.length
    rw [if_neg hremote, hoffset]
    omega
  have hinv : Inv (s.receive c response) := by
    obtain ⟨request, hget, hsound⟩ := h.inv.responses _ hmem
    have hrequest : request = c.request :=
      Option.some.inj (hget.symm.trans (h.inv.call c hw.call))
    exact h.inv.receive hw.call (hrequest ▸ hsound)
  have hrunning : (s.receive c response).aborted = false := by
    rw [heq]
    show (s.aborted || decide (patch.remote = RemoteState.aborted)) = false
    rw [h.running, decide_eq_false hremote]
    rfl
  refine ⟨⟨hinv, hrunning, ?_⟩, ?_⟩
  · rw [heq]
    exact h.fits
  rw [heq]
  refine ⟨rfl, rfl, rfl, hsent, fun hlog => ?_, fun hlog => ?_⟩
  -- GitLab has everything, and no flush follows
  · have hcomplete : (s.writer.acknowledge patch).complete = true := by
      rw [complete_iff]
      show s.writer.trace.length ≤ (s.writer.acknowledge patch).sent
      rw [hsent, hlog]
    exact ⟨if_pos hcomplete, congrArg some hcomplete⟩
  -- something is left for the next request
  · have hshort : s.log.length < s.writer.trace.length := by
      by_contra hlong
      exact hlog (h.inv.log.eq_of_length_le (by omega))
    have hincomplete : ¬ (s.writer.acknowledge patch).complete = true := by
      rw [complete_iff]
      show ¬ s.writer.trace.length ≤ (s.writer.acknowledge patch).sent
      rw [hsent]
      omega
    refine ⟨(if_neg hincomplete).trans hfinishing, ?_⟩
    show (s.writer.acknowledge patch).sent < s.writer.trace.length
    rw [hsent]
    exact hshort

/-- A flush that sends nothing is the last one. -/
theorem finishing_startFlush {s : State} (hcall : s.startFlush.call = none) :
    s.startFlush.finishing = 0 := by
  unfold State.startFlush at hcall ⊢
  split at hcall
  · next hcomplete =>
      rw [if_pos hcomplete]
      exact if_pos hcomplete
  · cases hcall

theorem going_startFlush {s : State} (h : Going s) : Going s.startFlush := by
  refine ⟨h.inv.startFlush, ?_, ?_⟩
  · unfold State.startFlush
    split
    · exact h.running
    · exact h.running
  · unfold State.startFlush
    split
    · exact h.fits
    · exact h.fits

theorem Phase.none_of_call {s : State} {n : Nat} (h : Phase s n) {c : Call}
    (hcall : s.call = some c) :
    Waiting s c ∧ (n = 0 ∧ s.finishing + 1 = finishAttempts ∨
      n = 1 ∧ (s.writer.sent = s.log.length ∨ s.log = s.writer.trace)) := by
  cases h with
  | start call _ => exact absurd (call.symm.trans hcall) (by simp)
  | first c' waiting finishing =>
      obtain rfl := Option.some.inj (waiting.call.symm.trans hcall)
      exact ⟨waiting, Or.inl ⟨rfl, finishing⟩⟩
  | again call _ _ _ => exact absurd (call.symm.trans hcall) (by simp)
  | second c' waiting log =>
      obtain rfl := Option.some.inj (waiting.call.symm.trans hcall)
      exact ⟨waiting, Or.inr ⟨rfl, log⟩⟩
  | done call _ _ _ => exact absurd (call.symm.trans hcall) (by simp)

/-- `finish` goes on with its next flush. -/
theorem phase_finishAgain {s s' : State} {n finishing : Nat} (h : Going s) (hp : Phase s n)
    (hcall : s.call = none) (hfinishing : s.finishing = finishing + 1)
    (hs' : s' = { s with finishing := finishing }.startFlush) :
    Going s' ∧ s'.writer.trace = s.writer.trace ∧ Phase s' n := by
  have hgoing : Going { s with finishing := finishing } :=
    ⟨{ h.inv with }, h.running, h.fits⟩
  have htrace : s'.writer.trace = s.writer.trace := by
    rw [hs']
    unfold State.startFlush
    split
    · rfl
    · rfl
  refine ⟨hs' ▸ going_startFlush hgoing, htrace, ?_⟩
  by_cases hrest : s.writer.sent < s.writer.trace.length
  · obtain ⟨c, hw, hleft, hwriter, hlog⟩ := waiting_startFlush hgoing.inv hrest
    rw [← hs'] at hw hleft hwriter hlog
    have hfinishing' : s'.finishing = finishing := hleft
    cases hp with
    | start _ hall =>
        refine .first c hw ?_
        rw [hfinishing', ← hfinishing]
        exact hall
    | first c waiting _ => exact absurd (waiting.call.symm.trans hcall) (by simp)
    | again _ _ sent _ =>
        refine .second c hw (Or.inl ?_)
        rw [hwriter, hlog]
        exact sent
    | second c waiting _ => exact absurd (waiting.call.symm.trans hcall) (by simp)
    | done _ hnone _ _ => omega
  · have htwice : n ≤ 2 := by
      cases hp with
      | start => omega
      | first => omega
      | again => omega
      | second => omega
      | done _ _ _ htwice => exact htwice
    rw [hs']
    exact done_startFlush (s := { s with finishing := finishing }) hrest htwice

/-- GitLab gets the request that the call waits for. -/
theorem phase_deliver {s s' : State} {n : Nat} (h : Going s) (hp : Phase s n) {c : Call}
    (hcall : s.call = some c) {jobStatus interval : Option Chars} (hgoes : GoesOn jobStatus)
    (hinv : Inv s')
    (hs' : s' = { s with
      log := (serve s.log c.request (.serve jobStatus interval)).1
      responses := s.responses ++ [(c.id, (serve s.log c.request (.serve jobStatus interval)).2)] }) :
    Going s' ∧ s'.writer.trace = s.writer.trace ∧ Phase s' n := by
  obtain ⟨hw, hphase⟩ := hp.none_of_call hcall
  obtain ⟨hw', hlog, hwhole⟩ := waiting_deliver h hw hgoes hs'
  have hwriter : s'.writer = s.writer := by rw [hs']
  refine ⟨⟨hinv, ?_, ?_⟩, by rw [hwriter], ?_⟩
  · rw [hs']
    exact h.running
  · rw [hwriter]
    exact h.fits
  · rcases hphase with ⟨rfl, hfinishing⟩ | ⟨rfl, hwhere⟩
    · refine .first c hw' ?_
      rw [hs']
      exact hfinishing
    · refine .second c hw' (Or.inr ?_)
      rw [hwriter]
      rcases hwhere with heq | heq
      · exact hwhole heq
      · rcases hlog with hlog | hlog
        · exact hlog.trans heq
        · exact hlog

/-- The call gets its answer. -/
theorem phase_receive {s : State} {n : Nat} (h : Going s) (hp : Phase s n) {c : Call}
    (hcall : s.call = some c) {response : Response} (hmem : (c.id, response) ∈ s.responses) :
    Going (s.receive c response) ∧ (s.receive c response).writer.trace = s.writer.trace ∧
      Phase (s.receive c response) (n + 1) := by
  obtain ⟨hw, hphase⟩ := hp.none_of_call hcall
  obtain ⟨hgoing, htrace, hnone, hlog, hsent, hwhole, hshort⟩ := receive_waiting h hw hmem rfl
  refine ⟨hgoing, htrace, ?_⟩
  by_cases hall : s.log = s.writer.trace
  · obtain ⟨hfinishing, hflushed⟩ := hwhole hall
    refine .done hnone hfinishing hflushed ?_
    rcases hphase with ⟨rfl, -⟩ | ⟨rfl, -⟩
    · omega
    · omega
  · obtain ⟨hfinishing, hrest⟩ := hshort hall
    rcases hphase with ⟨rfl, hleft⟩ | ⟨-, hwhere⟩
    · refine .again hnone ?_ ?_ hrest
      · rw [hfinishing]
        exact hleft
      · rw [hsent, hlog]
    · -- the second request starts where GitLab's log ended, so its answer comes after the whole
      obtain ⟨hne, -⟩ := hw.answered _ hmem rfl
      exact absurd (hwhere.resolve_right hall) hne

/-- **A step of `finish` when GitLab answers.** -/
theorem phase_step {scrubber : SecretScrubber} {s s' : State} {n : Nat} {l : Label}
    (h : Going s) (hp : Phase s n) (hl : Served s l) (hstep : step scrubber s l = some s') :
    Going s' ∧ s'.writer.trace = s.writer.trace ∧ Phase s' (n + answers [l]) := by
  have hinv : Inv s' := inv_step h.inv hstep
  cases l with
  | finishAgain =>
      simp only [step] at hstep
      split at hstep
      · next finishing hcall hfinishing =>
          exact phase_finishAgain h hp hcall hfinishing (Option.some.inj hstep).symm
      · cases hstep
  | deliver id mood =>
      obtain ⟨⟨c, hcall, rfl⟩, jobStatus, interval, rfl, hgoes⟩ := hl
      simp only [step, h.inv.call c hcall] at hstep
      exact phase_deliver h hp hcall hgoes hinv (Option.some.inj hstep).symm
  | receive id =>
      simp only [step] at hstep
      split at hstep
      · next c request response hcall hresponse =>
          obtain ⟨rfl, rfl⟩ := of_guard hstep
          exact phase_receive h hp hcall (List.mem_of_getElem? hresponse)
      · cases hstep
  | write text elapsed => cases hl
  | flush => cases hl
  | flushIfDue elapsed => cases hl
  | finish => cases hl
  | lose => cases hl
  | drop => cases hl

theorem answers_cons (l : Label) (ls : List Label) :
    answers (l :: ls) = answers [l] + answers ls := by
  unfold answers
  rw [← List.countP_append, List.singleton_append]

theorem phase_run {scrubber : SecretScrubber} {ls : List Label} :
    ∀ {s s' : State} {n : Nat}, Going s → Phase s n → Always (step scrubber) Served s ls →
      run (step scrubber) s ls = some s' →
      Going s' ∧ s'.writer.trace = s.writer.trace ∧ Phase s' (n + answers ls) := by
  induction ls with
  | nil =>
      intro s s' n h hp _ hrun
      obtain rfl := Option.some.inj hrun
      exact ⟨h, rfl, hp⟩
  | cons l ls ih =>
      rintro s s' n h hp ⟨hl, hls⟩ hrun
      obtain ⟨t, hstep, hrun⟩ := run_cons_eq_some.mp hrun
      rw [hstep] at hls
      obtain ⟨hgoing, htrace, hphase⟩ := phase_step h hp hl hstep
      obtain ⟨hgoing', htrace', hphase'⟩ := ih hgoing hphase hls hrun
      refine ⟨hgoing', htrace'.trans htrace, ?_⟩
      rw [answers_cons, ← Nat.add_assoc]
      exact hphase'

/-! ## `finish` is over -/

theorem idle_iff {s : State} : s.idle = true ↔ s.call = none ∧ s.finishing = 0 := by
  simp [State.idle]

theorem Phase.le_two {s : State} {n : Nat} (h : Phase s n) : n ≤ 2 := by
  cases h with
  | start => omega
  | first => omega
  | again => omega
  | second => omega
  | done _ _ _ twice => exact twice

theorem Phase.flushed_of_idle {s : State} {n : Nat} (h : Phase s n) (hidle : s.idle = true) :
    s.flushed = some true := by
  obtain ⟨hnone, hzero⟩ := idle_iff.mp hidle
  have hattempts : finishAttempts = 5 := rfl
  cases h with
  | start _ finishing => omega
  | first c waiting _ => exact absurd (waiting.call.symm.trans hnone) (by simp)
  | again _ finishing _ _ => omega
  | second c waiting _ => exact absurd (waiting.call.symm.trans hnone) (by simp)
  | done _ _ flushed _ => exact flushed

/-- From here `finish` can end, when GitLab answers. -/
def CanFinish (scrubber : SecretScrubber) (s : State) : Prop :=
  ∃ ls t, Always (step scrubber) Served s ls ∧ run (step scrubber) s ls = some t ∧ t.idle = true

theorem CanFinish.cons {scrubber : SecretScrubber} {s t : State} {l : Label} (hl : Served s l)
    (hstep : step scrubber s l = some t) (h : CanFinish scrubber t) : CanFinish scrubber s := by
  obtain ⟨ls, u, hserved, hrun, hidle⟩ := h
  refine ⟨l :: ls, u, ⟨hl, ?_⟩, run_cons_eq_some.mpr ⟨t, hstep, hrun⟩, hidle⟩
  rw [hstep]
  exact hserved

/-- **`finish` can go on** whenever it is not over. By induction on the answers that are left. -/
theorem canFinish {scrubber : SecretScrubber} : ∀ (left : Nat) {s : State} {n : Nat},
    n + left = 2 → Going s → Phase s n → CanFinish scrubber s := by
  intro left
  induction left with
  | zero =>
      intro s n hn _ hp
      cases hp with
      | start => omega
      | first => omega
      | again => omega
      | second => omega
      | done call finishing _ _ =>
          exact ⟨[], s, trivial, rfl, idle_iff.mpr ⟨call, finishing⟩⟩
  | succ left ih =>
      -- a waiting call: its request is delivered and answered
      have hwaiting : ∀ {s : State} {n : Nat} {c : Call}, n + (left + 1) = 2 → Going s →
          Phase s n → s.call = some c → CanFinish scrubber s := by
        intro s n c hn h hp hcall
        have hdeliver : step scrubber s (.deliver c.id (.serve none none)) = some { s with
            log := (serve s.log c.request (.serve none none)).1
            responses := s.responses ++ [(c.id, (serve s.log c.request (.serve none none)).2)] } := by
          simp only [step, h.inv.call c hcall]
        have hserved : Served s (.deliver c.id (.serve none none)) :=
          ⟨⟨c, hcall, rfl⟩, none, none, rfl, by simp, by simp⟩
        refine CanFinish.cons hserved hdeliver ?_
        obtain ⟨hgoing, -, hphase⟩ := phase_step h hp hserved hdeliver
        generalize hs' : ({ s with
            log := (serve s.log c.request (.serve none none)).1
            responses := s.responses ++ [(c.id, (serve s.log c.request (.serve none none)).2)] }
              : State) = s' at hgoing hphase
        have hcall' : s'.call = some c := by rw [← hs']; exact hcall
        have hlast : s'.responses[s.responses.length]? =
            some (c.id, (serve s.log c.request (.serve none none)).2) := by
          rw [← hs']
          exact List.getElem?_concat_length
        have hreceive : step scrubber s' (.receive s.responses.length) =
            some (s'.receive c (serve s.log c.request (.serve none none)).2) := by
          simp only [step, hcall', hlast, if_true]
        refine CanFinish.cons (l := .receive s.responses.length) trivial hreceive ?_
        obtain ⟨hgoing', -, hphase'⟩ :=
          phase_step (l := .receive s.responses.length) hgoing hphase trivial hreceive
        exact ih (by show n + 0 + 1 + left = 2; omega) hgoing' hphase'
      intro s n hn h hp
      cases hcall : s.call with
      | some c => exact hwaiting hn h hp hcall
      | none =>
          by_cases hzero : s.finishing = 0
          · exact ⟨[], s, trivial, rfl, idle_iff.mpr ⟨hcall, hzero⟩⟩
          · obtain ⟨finishing, hfinishing⟩ := Nat.exists_eq_succ_of_ne_zero hzero
            have hagain : step scrubber s .finishAgain =
                some { s with finishing := finishing }.startFlush := by
              simp only [step, hcall, hfinishing]
            refine CanFinish.cons (l := .finishAgain) trivial hagain ?_
            obtain ⟨hgoing, -, hphase⟩ := phase_step (l := .finishAgain) h hp trivial hagain
            cases hcall' : { s with finishing := finishing }.startFlush.call with
            | some c => exact hwaiting hn hgoing hphase hcall'
            | none =>
                have hover := finishing_startFlush hcall'
                exact ⟨[], _, trivial, rfl, idle_iff.mpr ⟨hcall', hover⟩⟩

/-- **`finish` gets the whole log to GitLab.** Take any run of the protocol in which the job was
not reported as aborted, and let `finish` begin. As long as GitLab serves what it is sent and its
answers arrive, `finish` gets at most two answers, it can always go on to its end, and at its end
GitLab has the whole log of the job. -/
theorem finish_delivers {scrubber : SecretScrubber} {limit : Nat} {ls ls' : List Label}
    {s t u : State} (hrun : run (step scrubber) (init limit) ls = some s)
    (hrunning : s.aborted = false) (hbegin : step scrubber s .finish = some t)
    (hfits : t.writer.trace.length < 2 ^ 64) (hserved : Always (step scrubber) Served t ls')
    (hfinish : run (step scrubber) t ls' = some u) :
    answers ls' ≤ 2 ∧
      (∃ more v, Always (step scrubber) Served u more ∧
        run (step scrubber) u more = some v ∧ v.idle = true) ∧
      (u.idle = true → u.flushed = some true ∧ u.log = t.writer.trace) := by
  have hinv : Inv t := inv_step (inv_of_run hrun) hbegin
  obtain ⟨hidle, rfl⟩ := of_guard hbegin
  have hnone : s.call = none := (idle_iff.mp hidle).1
  obtain ⟨hgoing, htrace, hphase⟩ :=
    phase_run ⟨hinv, hrunning, hfits⟩ (.start hnone rfl) hserved hfinish
  rw [Nat.zero_add] at hphase
  have htwo : answers ls' ≤ 2 := hphase.le_two
  refine ⟨htwo, canFinish (2 - answers ls') (by omega) hgoing hphase, fun hover => ?_⟩
  have hflushed := hphase.flushed_of_idle hover
  have hlen : u.writer.trace.length ≤ u.log.length := by
    calc u.writer.trace.length ≤ u.writer.sent := hgoing.inv.flushed hflushed
      _ ≤ u.log.length := hgoing.inv.acknowledged hgoing.running
  exact ⟨hflushed, (hgoing.inv.log.eq_of_length_le hlen).trans htrace⟩

/-- A log of which GitLab got the first line twice, and no answer the writer saw. -/
def twiceDelivered : List Label :=
  [.write (Utf8.encode "hi\n".toList) 5000, .deliver 0 (.serve none none), .lose,
    .deliver 1 (.serve none none), .lose, .lose, .write (Utf8.encode "ho\n".toList) 0]

/-- The first flush of `finish` learns where GitLab's log ends, the second one appends the rest. -/
def finishedInTwo : List Label :=
  [.finishAgain, .deliver 3 (.serve none none), .receive 2, .finishAgain,
    .deliver 4 (.serve none none), .receive 3]

theorem finish_delivers_twice : ∃ s t u,
    run (step ⟨[], []⟩) (init defaultLimit) twiceDelivered = some s ∧
      step ⟨[], []⟩ s .finish = some t ∧ run (step ⟨[], []⟩) t finishedInTwo = some u ∧
      answers finishedInTwo = 2 ∧ u.log = t.writer.trace := by
  obtain ⟨s, t, u, hrun, hrunning, hbegin, hfits, hserved, hfinish, hidle⟩ : ∃ s t u,
      run (step ⟨[], []⟩) (init defaultLimit) twiceDelivered = some s ∧ s.aborted = false ∧
        step ⟨[], []⟩ s .finish = some t ∧ t.writer.trace.length < 2 ^ 64 ∧
        Always (step ⟨[], []⟩) Served t finishedInTwo ∧
        run (step ⟨[], []⟩) t finishedInTwo = some u ∧ u.idle = true := by
    refine ⟨_, _, _, rfl, rfl, rfl, by decide, ?_, rfl, rfl⟩
    refine ⟨trivial, ⟨⟨_, rfl, rfl⟩, none, none, rfl, by simp, by simp⟩, trivial, trivial,
      ⟨⟨_, rfl, rfl⟩, none, none, rfl, by simp, by simp⟩, trivial, trivial⟩
  have hall := finish_delivers hrun hrunning hbegin hfits hserved hfinish
  exact ⟨s, t, u, hrun, hbegin, hfinish, rfl, (hall.2.2 hidle).2⟩

end TraceProtocol

end TurboCi
