import TurboCi.RunnerDaemon.TraceProtocol
import TurboCi.Security.StreamLeak

set_option autoImplicit false

/-! # Secrets and the log on GitLab

What a job writes goes through the stream scrubber, is cut at the log's limit, and is sent in
slices over a network that may lose, repeat and reorder them. A secret that the scrubber keeps
out of its output stays out of everything that is sent: the log is a prefix of that output and
perhaps the notice of the limit, and every request carries a slice of the log.
-/

namespace TurboCi

open Runs Utf8 Masking SecretScrubber

/-! ## What the log keeps of the scrubbed output -/

/-- No occurrence of the secret starts before the notice of the limit and ends in it, or lies in
it. -/
structure ApartFromNotice (secret : Text) (limit : Nat) : Prop where
  outside : ¬ secret <:+: TraceWriter.limitNotice limit
  seam : ∀ v, v ≠ [] → v <:+ secret → ¬ v <+: TraceWriter.limitNotice limit

/-- A secret of one line that the notice does not hold is apart from it. -/
theorem apartFromNotice_of_line {secret : Text} {limit : Nat} (hline : (0x0A : UInt8) ∉ secret)
    (houtside : ¬ secret <:+: TraceWriter.limitNotice limit) : ApartFromNotice secret limit := by
  refine ⟨houtside, fun v hv hsuf hpre => ?_⟩
  -- the notice begins with a line break
  have hnotice : ∃ rest, TraceWriter.limitNotice limit = 0x0A :: rest := by
    unfold TraceWriter.limitNotice
    rw [List.append_assoc, encode_append]
    exact ⟨_, rfl⟩
  obtain ⟨rest, hrest⟩ := hnotice
  rw [hrest] at hpre
  cases v with
  | nil => exact hv rfl
  | cons b v =>
      obtain ⟨rfl, -⟩ := List.cons_prefix_cons.mp hpre
      exact hline (hsuf.subset List.mem_cons_self)

/-- The log is the output so far, or a prefix of it and the notice. -/
structure Showing (limit : Nat) (out : Text) (writer : TraceWriter) : Prop where
  sameLimit : writer.limit = limit
  whole : writer.truncated = false → writer.trace = out
  cut : writer.truncated = true →
    ∃ kept, kept <+: out ∧ writer.trace = kept ++ TraceWriter.limitNotice limit

theorem Showing.append {limit : Nat} {out : Text} {writer : TraceWriter}
    (h : Showing limit out writer) (text : Text) :
    Showing limit (out ++ text) (writer.append text) := by
  unfold TraceWriter.append
  split
  · next htruncated =>
      obtain ⟨kept, hkept, htrace⟩ := h.cut htruncated
      refine ⟨h.sameLimit, fun hopen => ?_, fun _ => ?_⟩
      · exact absurd (htruncated.symm.trans hopen) (by simp)
      · exact ⟨kept, hkept.trans (List.prefix_append out text), htrace⟩
  · next hopen =>
      have hopen' : writer.truncated = false := by simpa using hopen
      have htrace : writer.trace = out := h.whole hopen'
      dsimp only
      split
      · refine ⟨h.sameLimit, fun _ => ?_, fun hcut => ?_⟩
        · show writer.trace ++ text = out ++ text
          rw [htrace]
        · exact absurd (hopen'.symm.trans hcut) (by simp)
      · refine ⟨h.sameLimit, fun hfalse => absurd hfalse (by simp), fun _ => ?_⟩
        refine ⟨out ++ text.take (floorCharBoundary text (writer.limit - writer.trace.length)),
          ?_, ?_⟩
        · exact (List.prefix_append_right_inj out).mpr (List.take_prefix _ text)
        · show writer.trace ++ _ ++ _ = _
          rw [htrace, h.sameLimit]

theorem Showing.withScrubber {limit : Nat} {out : Text} {writer : TraceWriter}
    (h : Showing limit out writer) (stream : StreamScrubber) :
    Showing limit out { writer with scrubber := stream } :=
  ⟨h.sameLimit, h.whole, h.cut⟩

/-- **What the log shows**, the output shows. -/
theorem Showing.not_shown {limit : Nat} {out : Text} {writer : TraceWriter}
    (h : Showing limit out writer) {secret : Text} (hapart : ApartFromNotice secret limit)
    (hout : ¬ secret <:+: out) : ¬ secret <:+: writer.trace := by
  cases htruncated : writer.truncated with
  | false =>
      rw [h.whole htruncated]
      exact hout
  | true =>
      obtain ⟨kept, hkept, htrace⟩ := h.cut htruncated
      rw [htrace]
      intro hinfix
      rcases List.infix_append_iff_ne_nil.mp hinfix with hinfix | hinfix | hseam
      · exact hout (List.IsInfix.trans hinfix hkept.isInfix)
      · exact hapart.outside hinfix
      · obtain ⟨u, v, -, hv, huv, -, hpre⟩ := hseam
        refine hapart.seam v hv ?_ hpre
        rw [huv]
        exact List.suffix_append u v

/-! ## What a step writes -/

/-- The writers have the same log and hold back the same. -/
structure SameText (writer writer' : TraceWriter) : Prop where
  scrubber : writer'.scrubber = writer.scrubber
  trace : writer'.trace = writer.trace
  limit : writer'.limit = writer.limit
  truncated : writer'.truncated = writer.truncated

theorem SameText.refl (writer : TraceWriter) : SameText writer writer := ⟨rfl, rfl, rfl, rfl⟩

theorem SameText.trans {writer writer' writer'' : TraceWriter} (h : SameText writer writer')
    (h' : SameText writer' writer'') : SameText writer writer'' where
  scrubber := h'.scrubber.trans h.scrubber
  trace := h'.trace.trans h.trace
  limit := h'.limit.trans h.limit
  truncated := h'.truncated.trans h.truncated

theorem SameText.showing {limit : Nat} {out : Text} {writer writer' : TraceWriter}
    (h : SameText writer writer') (hs : Showing limit out writer) : Showing limit out writer' where
  sameLimit := h.limit.trans hs.sameLimit
  whole hopen := h.trace.trans (hs.whole (h.truncated.symm.trans hopen))
  cut hcut := by
    obtain ⟨kept, hkept, htrace⟩ := hs.cut (h.truncated.symm.trans hcut)
    exact ⟨kept, hkept, h.trace.trans htrace⟩

theorem sameText_acknowledge (writer : TraceWriter) (patch : TracePatch) :
    SameText writer (writer.acknowledge patch) := ⟨rfl, rfl, rfl, rfl⟩

theorem scrubber_append (writer : TraceWriter) (text : Text) :
    (writer.append text).scrubber = writer.scrubber := by
  unfold TraceWriter.append
  split
  · rfl
  · dsimp only
    split
    · rfl
    · rfl

namespace TraceProtocol

theorem writer_startFlush (s : State) : s.startFlush.writer = s.writer := by
  unfold State.startFlush
  split
  · rfl
  · rfl

theorem writer_retry (s : State) (c : Call) : (s.retry c).writer = s.writer := by
  unfold State.retry
  split
  · rfl
  · rfl

theorem sameText_receive (s : State) (c : Call) (response : Response) :
    SameText s.writer (s.receive c response).writer := by
  unfold State.receive
  split
  · rw [writer_retry]
    exact .refl s.writer
  · exact sameText_acknowledge s.writer _

/-- Labels at which the writer adds to its log. -/
def Label.writes : Label → Bool
  | .write _ _ | .finish => true
  | _ => false

/-- The writer after it has added what the label says. -/
def wrote (scrubber : SecretScrubber) (writer : TraceWriter) : Label → TraceWriter
  | .write text _ => writer.push scrubber text
  | .finish => writer.pushRest scrubber
  | _ => writer

/-- **What a step writes**, and nothing else changes the log. -/
theorem sameText_step {scrubber : SecretScrubber} {s s' : State} {l : Label}
    (hstep : step scrubber s l = some s') : SameText (wrote scrubber s.writer l) s'.writer := by
  cases l with
  | write text elapsed =>
      simp only [step] at hstep
      split at hstep
      · split at hstep
        · obtain rfl := Option.some.inj hstep
          rw [writer_startFlush]
          exact .refl _
        · obtain rfl := Option.some.inj hstep
          exact .refl _
      · cases hstep
  | flush =>
      obtain ⟨-, rfl⟩ := of_guard hstep
      rw [writer_startFlush]
      exact .refl _
  | flushIfDue elapsed =>
      simp only [step] at hstep
      split at hstep
      · split at hstep
        · obtain rfl := Option.some.inj hstep
          rw [writer_startFlush]
          exact .refl _
        · obtain rfl := Option.some.inj hstep
          exact .refl _
      · cases hstep
  | finish =>
      obtain ⟨-, rfl⟩ := of_guard hstep
      exact .refl _
  | finishAgain =>
      simp only [step] at hstep
      split at hstep
      · obtain rfl := Option.some.inj hstep
        rw [writer_startFlush]
        exact .refl _
      · cases hstep
  | deliver id mood =>
      simp only [step] at hstep
      split at hstep
      · obtain rfl := Option.some.inj hstep
        exact .refl _
      · cases hstep
  | receive id =>
      simp only [step] at hstep
      split at hstep
      · obtain ⟨-, rfl⟩ := of_guard hstep
        exact sameText_receive s _ _
      · cases hstep
  | lose =>
      simp only [step] at hstep
      split at hstep
      · obtain rfl := Option.some.inj hstep
        rw [writer_retry]
        exact .refl _
      · cases hstep
  | drop =>
      obtain ⟨-, rfl⟩ := of_guard hstep
      exact .refl _

theorem sameText_run {scrubber : SecretScrubber} {ls : List Label} :
    ∀ {s s' : State}, (∀ l ∈ ls, l.writes = false) → run (step scrubber) s ls = some s' →
      SameText s.writer s'.writer := by
  induction ls with
  | nil =>
      intro s s' _ hrun
      obtain rfl := Option.some.inj hrun
      exact .refl s.writer
  | cons l ls ih =>
      intro s s' hquiet hrun
      obtain ⟨t, hstep, hrun⟩ := run_cons_eq_some.mp hrun
      obtain ⟨hl, hls⟩ := List.forall_mem_cons.mp hquiet
      have hwrote : wrote scrubber s.writer l = s.writer := by
        cases l with
        | write => cases hl
        | finish => cases hl
        | _ => rfl
      exact (hwrote ▸ sameText_step hstep).trans (ih hls hrun)

/-! ## Runs -/

/-- The texts that are written. -/
def written (ls : List Label) : List Text :=
  ls.filterMap fun
    | .write text _ => some text
    | _ => none

/-- Nothing is written after `finish`. -/
def FinishLast : List Label → Prop
  | [] => True
  | l :: ls => (l = .finish → ∀ l' ∈ ls, l'.writes = false) ∧ FinishLast ls

/-- The output so far and what the scrubber holds back keep the secret hidden, and the log
shows no more than the output. -/
structure Hidden (secret : Text) (limit : Nat) (out : Text) (writer : TraceWriter) : Prop where
  hidden : StreamScrubber.Sealed secret out writer.scrubber
  showing : Showing limit out writer

open StreamScrubber in
/-- A write that leaves the occurrences of the secret undivided keeps it hidden. -/
theorem Hidden.push {scrubber : SecretScrubber} {secret : Str} (hmem : secret ∈ scrubber.secrets)
    (hplain : Plain secret.bytes) {limit : Nat} {out : Text} {writer writer' : TraceWriter}
    (h : Hidden secret.bytes limit out writer) (chunk : Str)
    (hwhole : ∀ t ∈ writer.scrubber.buffered chunk.bytes, scrubber.Undivided secret.bytes t)
    (hsame : SameText (writer.push scrubber chunk.bytes) writer') :
    Hidden secret.bytes limit (out ++ (StreamScrubber.push scrubber writer.scrubber chunk.bytes).1)
      writer' := by
  have hscrubber :
      writer'.scrubber = (StreamScrubber.push scrubber writer.scrubber chunk.bytes).2 :=
    hsame.scrubber.trans (scrubber_append _ _)
  refine ⟨?_, hsame.showing ?_⟩
  · rw [hscrubber]
    exact push_sealed hmem hplain h.hidden chunk hwhole
  · exact (h.showing.withScrubber _).append _

open StreamScrubber in
/-- **A run shows the secret nowhere in the log.** By induction on the run. -/
theorem not_infix_of_run {scrubber : SecretScrubber} {secret : Str}
    (hmem : secret ∈ scrubber.secrets) (hplain : Plain secret.bytes) {limit : Nat}
    (hapart : ApartFromNotice secret.bytes limit) {ls : List Label} :
    ∀ {s t : State} {out : Text} {chunks : List Str},
      Hidden secret.bytes limit out s.writer →
      written ls = chunks.map Str.bytes →
      KeepsWhole scrubber secret.bytes s.writer.scrubber chunks → FinishLast ls →
      run (step scrubber) s ls = some t → ¬ secret.bytes <:+: t.writer.trace := by
  induction ls with
  | nil =>
      intro s t out chunks h _ _ _ hrun
      obtain rfl := Option.some.inj hrun
      exact h.showing.not_shown hapart h.hidden.clean.free
  | cons l ls ih =>
      rintro s t out chunks h hwritten hwhole ⟨hlast, hrest⟩ hrun
      obtain ⟨u, hstep, hback⟩ := run_cons_eq_some.mp hrun
      have hsame := sameText_step hstep
      -- a step that writes nothing
      have hquiet : SameText s.writer u.writer → written ls = chunks.map Str.bytes →
          ¬ secret.bytes <:+: t.writer.trace := by
        intro hsame hwritten
        refine ih ⟨?_, hsame.showing h.showing⟩ hwritten ?_ hrest hback
        · rw [hsame.scrubber]
          exact h.hidden
        · rw [hsame.scrubber]
          exact hwhole
      cases l with
      | write text elapsed =>
          cases chunks with
          | nil => cases hwritten
          | cons chunk chunks =>
              obtain ⟨rfl, hchunks⟩ := List.cons.inj hwritten
              have hpush := h.push hmem hplain chunk hwhole.1 hsame
              refine ih hpush hchunks ?_ hrest hback
              rw [hsame.scrubber.trans (scrubber_append _ _)]
              exact hwhole.2
      | finish =>
          -- what was held back is shown, and it is the last that is
          have hout : ¬ secret.bytes <:+: out ++ (finish scrubber s.writer.scrubber).1 :=
            finish_sealed hmem hplain h.hidden
          have hshowing := hsame.showing
            ((h.showing.withScrubber _).append (finish scrubber s.writer.scrubber).1)
          have hend := sameText_run (hlast rfl) hback
          exact (hend.showing hshowing).not_shown hapart hout
      | flush => exact hquiet hsame hwritten
      | flushIfDue elapsed => exact hquiet hsame hwritten
      | finishAgain => exact hquiet hsame hwritten
      | deliver id mood => exact hquiet hsame hwritten
      | receive id => exact hquiet hsame hwritten
      | lose => exact hquiet hsame hwritten
      | drop => exact hquiet hsame hwritten

/-- **The log on GitLab never shows a secret**, and no request that is sent does: for every run of
the log protocol, whatever the network and GitLab do, in which every write leaves the occurrences
of the secret in the buffered output undivided. -/
theorem log_shows_no_secret {scrubber : SecretScrubber} {secret : Str}
    (hmem : secret ∈ scrubber.secrets) (hplain : Plain secret.bytes) {limit : Nat}
    (hapart : ApartFromNotice secret.bytes limit) {ls : List Label} {chunks : List Str}
    (hwritten : written ls = chunks.map Str.bytes)
    (hwhole : StreamScrubber.KeepsWhole scrubber secret.bytes .new chunks) (hlast : FinishLast ls)
    {s : State} (hrun : run (step scrubber) (init limit) ls = some s) :
    ¬ secret.bytes <:+: s.log ∧ ∀ request ∈ s.requests, ¬ secret.bytes <:+: request.body := by
  have hstart : Hidden secret.bytes limit [] (init limit).writer :=
    ⟨StreamScrubber.sealed_new hplain.ne_nil, rfl, fun _ => rfl, fun h => absurd h (by simp [init])⟩
  have htrace : ¬ secret.bytes <:+: s.writer.trace :=
    not_infix_of_run hmem hplain hapart hstart hwritten hwhole hlast hrun
  have hinv := inv_of_run hrun
  refine ⟨fun hlog => htrace (hlog.trans hinv.log.isInfix), fun request hmem hbody => htrace ?_⟩
  have hslice := hinv.requests request hmem
  calc secret.bytes <:+: request.body := hbody
    _ <:+: s.writer.trace.drop request.start := hslice.body.isInfix
    _ <:+: s.writer.trace := (List.drop_suffix _ _).isInfix

/-- A token that a job prints in two parts, and a request that is sent three times. -/
def splitToken : List Label :=
  [.write (Utf8.encode "a tok-1".toList) 0, .write (Utf8.encode "2345\n".toList) 5000,
    .deliver 0 (.serve none none), .lose, .lose, .deliver 2 (.serve none none), .lose, .finish,
    .finishAgain]

/-- The chunks that the scrubber gets. -/
def tokenChunks : List Str := [.ofChars "a tok-1".toList, .ofChars "2345\n".toList]

theorem log_shows_no_secret_splitToken : ∃ s,
    run (step ⟨[.ofChars "tok-12345".toList], []⟩) (init 64) splitToken = some s ∧
      s.log ≠ [] ∧ ¬ (Str.ofChars "tok-12345".toList).bytes <:+: s.log := by
  obtain ⟨s, hrun, hlog⟩ : ∃ s,
      run (step ⟨[.ofChars "tok-12345".toList], []⟩) (init 64) splitToken = some s ∧
        s.log ≠ [] := ⟨_, rfl, by decide⟩
  have hdash : (0x2D : UInt8) ∉ TraceWriter.limitNotice 64 := by decide
  have hapart : ApartFromNotice (Str.ofChars "tok-12345".toList).bytes 64 :=
    apartFromNotice_of_line (by decide) fun h => hdash (h.subset (by decide))
  have hwhole : StreamScrubber.KeepsWhole ⟨[.ofChars "tok-12345".toList], []⟩
      (Str.ofChars "tok-12345".toList).bytes .new tokenChunks := by decide
  refine ⟨s, hrun, hlog, ?_⟩
  exact (log_shows_no_secret List.mem_cons_self ⟨by decide, by decide, by decide⟩ hapart rfl hwhole
    (by simp [splitToken, FinishLast, Label.writes]) hrun).1

end TraceProtocol

end TurboCi
