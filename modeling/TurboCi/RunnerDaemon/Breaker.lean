import TurboCi.Gitlab.Job
import TurboCi.Lib.Runs

set_option autoImplicit false

/-! # The circuit breaker of the S3 cache

Calls of a bucket and all its clones share a breaker: while it is open they are skipped, and
when the cooldown is over one call tries again (`Bucket::check_breaker`, `trip` and `send` in
`runner_daemon/s3.rs`). The machine interleaves any number of calls, step by step as they take
the breaker's lock; time passes at any point, and a call may be dropped at any point. An
attempt starts when it has passed the breaker. Times are in nanoseconds.

What was done to the breaker is logged, the latest first. Between an event that opens the
breaker and a later start of an attempt there is a cooldown, unless S3 answered in between, and
a trial is the last attempt of its call (`one_call_per_cooldown`).

Left out are the texts of the skipped calls' errors, the retry delay (any delay may pass), and a
poisoned lock.
-/

namespace TurboCi

open Runs

namespace Breaker

def attempts : Nat := 3

inductive Method where
  | get
  | put
  | head
  deriving DecidableEq

inductive Phase where
  /-- an upload that has looked at the breaker and hashes its file -/
  | hashing
  /-- about to pass the breaker -/
  | ready (attempt : Nat)
  /-- about to open the file to upload -/
  | opening (attempt : Nat) (trial : Bool)
  /-- the request is sent -/
  | waiting (attempt : Nat) (trial : Bool)
  /-- about to trip the breaker -/
  | tripping (error : Chars)
  /-- downloading the body of the answer -/
  | reading
  | over
  deriving DecidableEq

structure Call where
  method : Method
  phase : Phase
  deriving DecidableEq

inductive Event where
  /-- an attempt of a call passed the breaker, as a trial or not -/
  | started (i : Nat) (time : Nat) (trial : Bool)
  | tripped (time : Nat)
  /-- an answer closed the breaker -/
  | closed (time : Nat)
  deriving DecidableEq

structure State where
  clock : Nat := 0
  /-- until when calls are skipped, and why -/
  breaker : Option (Nat × Chars) := none
  calls : List Call := []
  /-- the latest event first -/
  log : List Event := []
  deriving DecidableEq

inductive Label where
  | tick (time : Nat)
  | call (method : Method)
  /-- the file is hashed, or cannot be uploaded -/
  | hashed (i : Nat) (ok : Bool)
  | check (i : Nat)
  /-- the file to upload is opened, or cannot be -/
  | opened (i : Nat) (ok : Bool)
  | answer (i : Nat) (status : Nat) (error : Chars)
  /-- the request failed after it had a connection -/
  | failed (i : Nat) (error : Chars)
  /-- there is no connection, or the request stalled -/
  | unreachable (i : Nat) (error : Chars)
  | trip (i : Nat)
  /-- the download was interrupted -/
  | interrupted (i : Nat) (error : Chars)
  | read (i : Nat)
  /-- the call is dropped -/
  | drop (i : Nat)
  deriving DecidableEq

/-- `check_breaker`: whether the call is a trial, and the breaker afterwards; none while calls
are skipped. -/
def checkBreaker (cooldown : Nat) (claim : Bool) (now : Nat) :
    Option (Nat × Chars) → Option (Bool × Option (Nat × Chars))
  | none => some (false, none)
  | some (paused, error) =>
      if now < paused then none
      else some (claim, some (if claim then now + cooldown else paused, error))

/-- The breaker after `trip`. -/
def trip (cooldown now : Nat) (error : Chars) : Option (Nat × Chars) := some (now + cooldown, error)

def State.enter (s : State) (i : Nat) (phase : Phase) : State :=
  { s with calls := s.calls.modify i fun c => { c with phase := phase } }

/-- What follows on an attempt that failed: a trial gets one attempt. -/
def retry (attempt : Nat) (trial : Bool) (error : Chars) : Phase :=
  if trial then .tripping error
  else if attempt + 1 < attempts then .ready (attempt + 1)
  else .tripping error

def step (cooldown : Nat) (s : State) : Label → Option State
  | .tick time => some { s with clock := s.clock + time }
  | .call .put =>
      match checkBreaker cooldown false s.clock s.breaker with
      | some _ => some { s with calls := s.calls ++ [⟨.put, .hashing⟩] }
      | none => some { s with calls := s.calls ++ [⟨.put, .over⟩] }
  | .call method => some { s with calls := s.calls ++ [⟨method, .ready 0⟩] }
  | .hashed i ok =>
      match s.calls[i]? with
      | some ⟨_, .hashing⟩ => some (s.enter i (if ok then .ready 0 else .over))
      | _ => none
  | .check i =>
      match s.calls[i]? with
      | some ⟨method, .ready attempt⟩ =>
          match checkBreaker cooldown true s.clock s.breaker with
          | some (trial, breaker) =>
              some { s.enter i (if method = .put then .opening attempt trial
                  else .waiting attempt trial) with
                breaker := breaker
                log := .started i s.clock trial :: s.log }
          | none => some (s.enter i .over)
      | _ => none
  | .opened i ok =>
      match s.calls[i]? with
      | some ⟨_, .opening attempt trial⟩ =>
          some (s.enter i (if ok then .waiting attempt trial else .over))
      | _ => none
  | .answer i status error =>
      match s.calls[i]? with
      | some ⟨method, .waiting attempt trial⟩ =>
          if 500 ≤ status ∧ status < 600 then some (s.enter i (retry attempt trial error))
          else
            some { s.enter i (if method = .get ∧ status = 200 then .reading else .over) with
              breaker := none
              log := .closed s.clock :: s.log }
      | _ => none
  | .failed i error =>
      match s.calls[i]? with
      | some ⟨_, .waiting attempt trial⟩ => some (s.enter i (retry attempt trial error))
      | _ => none
  | .unreachable i error =>
      match s.calls[i]? with
      | some ⟨_, .waiting _ _⟩ => some (s.enter i (.tripping error))
      | _ => none
  | .trip i =>
      match s.calls[i]? with
      | some ⟨_, .tripping error⟩ =>
          some { s.enter i .over with
            breaker := trip cooldown s.clock error
            log := .tripped s.clock :: s.log }
      | _ => none
  | .interrupted i error =>
      match s.calls[i]? with
      | some ⟨_, .reading⟩ => some (s.enter i (.tripping error))
      | _ => none
  | .read i =>
      match s.calls[i]? with
      | some ⟨_, .reading⟩ => some (s.enter i .over)
      | _ => none
  | .drop i => if i < s.calls.length then some (s.enter i .over) else none

/-! ## What a step does -/

/-- A trial, if the call had one, is under way or behind it: no attempt follows. -/
def Phase.last : Phase → Bool
  | .hashing | .ready _ => false
  | .opening _ trial | .waiting _ trial => trial
  | .tripping _ | .reading | .over => true

/-- What every step keeps: time does not go back, and a call whose last attempt was made makes
no other one. -/
structure Keeps (s t : State) : Prop where
  clock : s.clock ≤ t.clock
  calls : ∀ (i : Nat) (c : Call), s.calls[i]? = some c → ∃ c', t.calls[i]? = some c' ∧
    (c.phase.last = true → c'.phase.last = true)

/-- What a step does to the breaker. -/
inductive Change (cooldown : Nat) (s t : State) : Prop where
  | quiet (breaker : t.breaker = s.breaker) (log : t.log = s.log)
  | passed (i : Nat) (free : s.breaker = none) (breaker : t.breaker = none)
      (ready : ∀ c : Call, s.calls[i]? = some c → c.phase.last = false)
      (log : t.log = .started i s.clock false :: s.log)
  | claimed (i paused : Nat) (error : Chars) (was : s.breaker = some (paused, error))
      (due : paused ≤ s.clock) (breaker : t.breaker = some (s.clock + cooldown, error))
      (ready : ∀ c : Call, s.calls[i]? = some c → c.phase.last = false)
      (last : ∃ c : Call, t.calls[i]? = some c ∧ c.phase.last = true)
      (log : t.log = .started i s.clock true :: s.log)
  | closed (breaker : t.breaker = none) (log : t.log = .closed s.clock :: s.log)
  | tripped (error : Chars) (breaker : t.breaker = some (s.clock + cooldown, error))
      (log : t.log = .tripped s.clock :: s.log)

theorem enter_calls_self {s : State} {i : Nat} {c : Call} {phase : Phase}
    (h : s.calls[i]? = some c) : (s.enter i phase).calls[i]? = some { c with phase := phase } := by
  simp [State.enter, h]

/-- A call that moves on keeps its last attempt, if it had it. -/
theorem keeps_enter {s : State} {i : Nat} {c : Call} {phase : Phase} (hc : s.calls[i]? = some c)
    (hlast : c.phase.last = true → phase.last = true) : Keeps s (s.enter i phase) := by
  refine ⟨le_rfl, fun j c' hc' => ?_⟩
  by_cases hj : j = i
  · subst hj
    obtain rfl := Option.some.inj (hc.symm.trans hc')
    exact ⟨_, enter_calls_self hc, hlast⟩
  · refine ⟨c', ?_, id⟩
    simpa [State.enter, Ne.symm hj] using hc'

theorem keeps_call {s : State} {c : Call} : Keeps s { s with calls := s.calls ++ [c] } := by
  refine ⟨le_rfl, fun i c' hc' => ⟨c', ?_, id⟩⟩
  obtain ⟨hlt, -⟩ := List.getElem?_eq_some_iff.mp hc'
  show (s.calls ++ [c])[i]? = some c'
  rw [List.getElem?_append_left hlt]
  exact hc'

theorem retry_last {attempt : Nat} {trial : Bool} {error : Chars} (h : trial = true) :
    (retry attempt trial error).last = true := by
  simp [retry, h, Phase.last]

/-- **All that a step does.** -/
theorem step_cases {cooldown : Nat} {s t : State} {l : Label} (h : step cooldown s l = some t) :
    Keeps s t ∧ Change cooldown s t := by
  -- a call that moves on and leaves the breaker alone
  have hquiet : ∀ {i : Nat} {c : Call} {phase : Phase}, s.calls[i]? = some c →
      (c.phase.last = true → phase.last = true) →
      Keeps s (s.enter i phase) ∧ Change cooldown s (s.enter i phase) :=
    fun hc hlast => ⟨keeps_enter hc hlast, .quiet rfl rfl⟩
  cases l with
  | tick time =>
      obtain rfl := Option.some.inj h
      exact ⟨⟨Nat.le_add_right _ _, fun i c hc => ⟨c, hc, id⟩⟩, .quiet rfl rfl⟩
  | call method =>
      cases method with
      | put =>
          simp only [step] at h
          split at h
          · obtain rfl := Option.some.inj h
            exact ⟨keeps_call, .quiet rfl rfl⟩
          · obtain rfl := Option.some.inj h
            exact ⟨keeps_call, .quiet rfl rfl⟩
      | get | head =>
          obtain rfl := Option.some.inj h
          exact ⟨keeps_call, .quiet rfl rfl⟩
  | hashed i ok =>
      simp only [step] at h
      split at h
      case h_2 => cases h
      next hc =>
      obtain rfl := Option.some.inj h
      exact hquiet hc (by simp [Phase.last])
  | check i =>
      simp only [step] at h
      split at h
      case h_2 => cases h
      next method attempt hc =>
      have hready : ∀ c : Call, s.calls[i]? = some c → c.phase.last = false := by
        intro c hc'
        obtain rfl := Option.some.inj (hc.symm.trans hc')
        rfl
      cases hbreaker : s.breaker with
      | none =>
          simp only [hbreaker, checkBreaker] at h
          obtain rfl := Option.some.inj h
          have hkeeps : Keeps s (s.enter i (if method = .put then .opening attempt false
              else .waiting attempt false)) := keeps_enter hc (by simp [Phase.last])
          exact ⟨⟨hkeeps.clock, hkeeps.calls⟩, .passed i hbreaker rfl hready rfl⟩
      | some open_ =>
          obtain ⟨paused, error⟩ := open_
          simp only [hbreaker, checkBreaker] at h
          by_cases hlt : s.clock < paused
          · rw [if_pos hlt] at h
            obtain rfl := Option.some.inj h
            exact hquiet hc fun _ => rfl
          · rw [if_neg hlt] at h
            obtain rfl := Option.some.inj h
            have hkeeps : Keeps s (s.enter i (if method = .put then .opening attempt true
                else .waiting attempt true)) := keeps_enter hc (by simp [Phase.last])
            refine ⟨⟨hkeeps.clock, hkeeps.calls⟩,
              .claimed i paused error hbreaker (by omega) rfl hready
                ⟨_, enter_calls_self hc, ?_⟩ rfl⟩
            cases method with
            | _ => rfl
  | opened i ok =>
      simp only [step] at h
      split at h
      case h_2 => cases h
      next attempt trial hc =>
      obtain rfl := Option.some.inj h
      refine hquiet hc fun hlast => ?_
      cases ok with
      | true => exact hlast
      | false => rfl
  | answer i status error =>
      simp only [step] at h
      split at h
      case h_2 => cases h
      next method attempt trial hc =>
      split at h
      · obtain rfl := Option.some.inj h
        exact hquiet hc fun hlast => retry_last hlast
      · obtain rfl := Option.some.inj h
        have hkeeps : Keeps s (s.enter i (if method = .get ∧ status = 200 then .reading
            else .over)) := by
          refine keeps_enter hc fun _ => ?_
          split
          · rfl
          · rfl
        exact ⟨⟨hkeeps.clock, hkeeps.calls⟩, .closed rfl rfl⟩
  | failed i error =>
      simp only [step] at h
      split at h
      case h_2 => cases h
      next attempt trial hc =>
      obtain rfl := Option.some.inj h
      exact hquiet hc fun hlast => retry_last hlast
  | unreachable i error =>
      simp only [step] at h
      split at h
      case h_2 => cases h
      next hc =>
      obtain rfl := Option.some.inj h
      exact hquiet hc fun _ => rfl
  | trip i =>
      simp only [step] at h
      split at h
      case h_2 => cases h
      next error hc =>
      obtain rfl := Option.some.inj h
      have hkeeps : Keeps s (s.enter i .over) := keeps_enter hc fun _ => rfl
      exact ⟨⟨hkeeps.clock, hkeeps.calls⟩, .tripped error rfl rfl⟩
  | interrupted i error =>
      simp only [step] at h
      split at h
      case h_2 => cases h
      next hc =>
      obtain rfl := Option.some.inj h
      exact hquiet hc fun _ => rfl
  | read i =>
      simp only [step] at h
      split at h
      case h_2 => cases h
      next hc =>
      obtain rfl := Option.some.inj h
      exact hquiet hc fun _ => rfl
  | drop i =>
      obtain ⟨hlt, rfl⟩ := of_guard h
      exact hquiet (List.getElem?_eq_getElem hlt) fun _ => rfl

/-! ## The invariant -/

/-- When an event opens the breaker. -/
def Event.opens : Event → Option Nat
  | .started _ time trial => if trial then some time else none
  | .tripped time => some time
  | .closed _ => none

/-- When an event starts an attempt. -/
def Event.starts : Event → Option Nat
  | .started _ time _ => some time
  | _ => none

def Event.closes : Event → Bool
  | .closed _ => true
  | _ => false

/-- The events since the breaker was last closed. -/
def recent (log : List Event) : List Event := log.takeWhile fun e => !e.closes

/-- Every attempt starts a cooldown after what opened the breaker. -/
def Spaced (cooldown : Nat) : List Event → Prop
  | [] => True
  | e :: older =>
      (∀ start ∈ e.starts, ∀ e' ∈ recent older, ∀ time ∈ e'.opens, time + cooldown ≤ start) ∧
        Spaced cooldown older

/-- No attempt follows on a trial of its call. -/
def TrialsLast : List Event → Prop
  | [] => True
  | e :: older =>
      (∀ i start trial, e = .started i start trial → ∀ time, .started i time true ∉ older) ∧
        TrialsLast older

structure Inv (cooldown : Nat) (s : State) : Prop where
  spaced : Spaced cooldown s.log
  /-- the breaker stays open for a cooldown from what opened it last -/
  guarded : ∀ e ∈ recent s.log, ∀ time ∈ e.opens,
    time ≤ s.clock ∧ ∃ paused error, s.breaker = some (paused, error) ∧ time + cooldown ≤ paused
  trialsLast : TrialsLast s.log
  trials : ∀ i time, Event.started i time true ∈ s.log →
    ∃ c, s.calls[i]? = some c ∧ c.phase.last = true

theorem inv_init (cooldown : Nat) : Inv cooldown {} where
  spaced := trivial
  guarded _ he := absurd he List.not_mem_nil
  trialsLast := trivial
  trials _ _ h := absurd h List.not_mem_nil

theorem recent_cons {e : Event} {log : List Event} (h : e.closes = false) :
    recent (e :: log) = e :: recent log := by
  simp [recent, h]

theorem recent_closed {e : Event} {log : List Event} (h : e.closes = true) :
    recent (e :: log) = [] := by
  simp [recent, h]

/-- The events that are logged next to old trials. -/
theorem Inv.trials_cons {cooldown : Nat} {s t : State} (hi : Inv cooldown s) (hk : Keeps s t)
    {e : Event} (hnew : ∀ i time, e = .started i time true →
      ∃ c, t.calls[i]? = some c ∧ c.phase.last = true) :
    ∀ i time, Event.started i time true ∈ e :: s.log →
      ∃ c, t.calls[i]? = some c ∧ c.phase.last = true := by
  intro i time hmem
  rcases List.mem_cons.mp hmem with heq | hold
  · exact hnew i time heq.symm
  · obtain ⟨c, hc, hlast⟩ := hi.trials i time hold
    obtain ⟨c', hc', hlast'⟩ := hk.calls i c hc
    exact ⟨c', hc', hlast' hlast⟩

/-- A call that is about to pass the breaker has made no trial. -/
theorem Inv.no_trial {cooldown : Nat} {s : State} (hi : Inv cooldown s) {i : Nat}
    (hready : ∀ c : Call, s.calls[i]? = some c → c.phase.last = false) (time : Nat) :
    Event.started i time true ∉ s.log := by
  intro hmem
  obtain ⟨c, hc, hlast⟩ := hi.trials i time hmem
  rw [hready c hc] at hlast
  cases hlast

/-- **Every step keeps the invariant.** -/
theorem inv_step {cooldown : Nat} {s : State} {l : Label} {t : State} (hi : Inv cooldown s)
    (h : step cooldown s l = some t) : Inv cooldown t := by
  obtain ⟨hk, hchange⟩ := step_cases h
  have hclock : s.clock ≤ t.clock := hk.clock
  cases hchange with
  | quiet hbreaker hlog =>
      refine ⟨hlog ▸ hi.spaced, ?_, hlog ▸ hi.trialsLast, ?_⟩
      · rw [hlog, hbreaker]
        intro e he time htime
        obtain ⟨hle, hopen⟩ := hi.guarded e he time htime
        exact ⟨hle.trans hclock, hopen⟩
      · rw [hlog]
        intro i time hmem
        obtain ⟨c, hc, hlast⟩ := hi.trials i time hmem
        obtain ⟨c', hc', hlast'⟩ := hk.calls i c hc
        exact ⟨c', hc', hlast' hlast⟩
  | passed i hfree hbreaker hready hlog =>
      -- a closed breaker was opened by nothing since it was closed
      have hnone : ∀ e ∈ recent s.log, ∀ time, time ∉ e.opens := by
        intro e he time htime
        obtain ⟨-, paused, error, hopen, -⟩ := hi.guarded e he time htime
        rw [hfree] at hopen
        cases hopen
      constructor
      · rw [hlog]
        exact ⟨fun start _ e he time htime => absurd htime (hnone e he time), hi.spaced⟩
      · rw [hlog, recent_cons rfl]
        intro e he time htime
        rcases List.mem_cons.mp he with rfl | hold
        · cases htime
        · exact absurd htime (hnone e hold time)
      · rw [hlog]
        refine ⟨fun j start trial heq time => ?_, hi.trialsLast⟩
        obtain ⟨rfl, -, -⟩ := Event.started.inj heq
        exact hi.no_trial hready time
      · rw [hlog]
        refine hi.trials_cons hk fun j time heq => ?_
        simp at heq
  | claimed i paused error hwas hdue hbreaker hready hlast hlog =>
      have hold : ∀ e ∈ recent s.log, ∀ time ∈ e.opens,
          time ≤ s.clock ∧ time + cooldown ≤ paused := by
        intro e he time htime
        obtain ⟨hle, paused', error', hopen, hpaused⟩ := hi.guarded e he time htime
        rw [hwas] at hopen
        obtain ⟨rfl, -⟩ := Prod.mk.inj (Option.some.inj hopen)
        exact ⟨hle, hpaused⟩
      constructor
      · rw [hlog]
        refine ⟨fun start hstart e he time htime => ?_, hi.spaced⟩
        obtain rfl : s.clock = start := Option.some.inj hstart
        exact (hold e he time htime).2.trans hdue
      · rw [hlog, recent_cons rfl]
        intro e he time htime
        have hle : time ≤ s.clock := by
          rcases List.mem_cons.mp he with rfl | hmem
          · exact (Option.some.inj htime).symm.le
          · exact (hold e hmem time htime).1
        exact ⟨hle.trans hclock, _, error, hbreaker, by omega⟩
      · rw [hlog]
        refine ⟨fun j start trial heq time => ?_, hi.trialsLast⟩
        obtain ⟨rfl, -, -⟩ := Event.started.inj heq
        exact hi.no_trial hready time
      · rw [hlog]
        refine hi.trials_cons hk fun j time heq => ?_
        obtain ⟨rfl, -, -⟩ := Event.started.inj heq
        exact hlast
  | closed hbreaker hlog =>
      constructor
      · rw [hlog]
        exact ⟨fun start hstart => absurd hstart (Option.not_mem_none start), hi.spaced⟩
      · rw [hlog, recent_closed rfl]
        exact fun e he => absurd he List.not_mem_nil
      · rw [hlog]
        exact ⟨fun j start trial heq => Event.noConfusion heq, hi.trialsLast⟩
      · rw [hlog]
        exact hi.trials_cons hk fun j time heq => Event.noConfusion heq
  | tripped error hbreaker hlog =>
      constructor
      · rw [hlog]
        exact ⟨fun start hstart => absurd hstart (Option.not_mem_none start), hi.spaced⟩
      · rw [hlog, recent_cons rfl]
        intro e he time htime
        have hle : time ≤ s.clock := by
          rcases List.mem_cons.mp he with rfl | hmem
          · exact (Option.some.inj htime).symm.le
          · exact (hi.guarded e hmem time htime).1
        exact ⟨hle.trans hclock, _, error, hbreaker, by omega⟩
      · rw [hlog]
        exact ⟨fun j start trial heq => Event.noConfusion heq, hi.trialsLast⟩
      · rw [hlog]
        exact hi.trials_cons hk fun j time heq => Event.noConfusion heq

/-! ## What the log says -/

theorem Spaced.of_append {cooldown : Nat} {newer log : List Event}
    (h : Spaced cooldown (newer ++ log)) : Spaced cooldown log := by
  induction newer with
  | nil => exact h
  | cons e newer ih => exact ih h.2

theorem TrialsLast.of_append {newer log : List Event} (h : TrialsLast (newer ++ log)) :
    TrialsLast log := by
  induction newer with
  | nil => exact h
  | cons e newer ih => exact ih h.2

/-- An event with no later one that closes is recent. -/
theorem mem_recent {between older : List Event} {e : Event}
    (hbetween : ∀ e' ∈ between, e'.closes = false) (he : e.closes = false) :
    e ∈ recent (between ++ e :: older) := by
  have hopen : ∀ e' ∈ between, (!e'.closes) = true := fun e' he' => by simp [hbetween e' he']
  rw [recent, List.takeWhile_append_of_pos hopen]
  simp [he]

theorem not_closes_of_opens {e : Event} {time : Nat} (h : e.opens = some time) :
    e.closes = false := by
  cases e with
  | closed t => cases h
  | _ => rfl

/-- **The breaker admits one call per cooldown**: in every run, an attempt that starts after the
breaker was tripped or claimed, with no answer in between that closed it, starts a cooldown
later; and no attempt of a call starts after a trial of it. -/
theorem one_call_per_cooldown {cooldown : Nat} {ls : List Label} {s : State}
    (hrun : run (step cooldown) {} ls = some s) :
    (∀ newer between older i start trial e time,
      s.log = newer ++ .started i start trial :: (between ++ e :: older) →
      e.opens = some time → (∀ e' ∈ between, e'.closes = false) → time + cooldown ≤ start) ∧
    ∀ newer between older i start trial time,
      s.log ≠ newer ++ .started i start trial :: (between ++ .started i time true :: older) := by
  have hi : Inv cooldown s := invariant (fun _ _ _ hi hs => inv_step hi hs) (inv_init cooldown) hrun
  constructor
  · intro newer between older i start trial e time hlog hopens hbetween
    have hspaced : Spaced cooldown (.started i start trial :: (between ++ e :: older)) :=
      Spaced.of_append (hlog ▸ hi.spaced)
    exact hspaced.1 start rfl e (mem_recent hbetween (not_closes_of_opens hopens)) time hopens
  · intro newer between older i start trial time hlog
    have hlast : TrialsLast
        (.started i start trial :: (between ++ .started i time true :: older)) :=
      TrialsLast.of_append (hlog ▸ hi.trialsLast)
    exact hlast.1 i start trial rfl time (by simp)

/-- A call finds no connection and trips the breaker, another one is skipped, and a third one
is the trial after the cooldown. -/
def outage : List Label :=
  [.call .get, .call .put, .hashed 1 true, .check 0, .tick 5, .unreachable 0 "refused".toList,
    .trip 0, .check 1, .tick 70, .call .get, .check 2]

theorem one_call_per_cooldown_outage :
    ∃ s, run (step 60) {} outage = some s ∧
      s.log = [.started 2 75 true, .tripped 5, .started 0 0 false] ∧ 5 + 60 ≤ 75 := by
  obtain ⟨s, hs, hlog⟩ : ∃ s, run (step 60) {} outage = some s ∧
      s.log = [.started 2 75 true, .tripped 5, .started 0 0 false] :=
    Option.map_eq_some_iff.mp (by decide)
  exact ⟨s, hs, hlog, (one_call_per_cooldown hs).1 [] [] _ 2 75 true _ 5 hlog rfl (by simp)⟩

end Breaker

end TurboCi
