import TurboCi.Lib.Runs
import TurboCi.RunnerDaemon.Cancel

set_option autoImplicit false

/-! # The main loop

`RunnerDaemon::start` takes a permit for a job, asks GitLab for one, and spawns what it gets;
a shutdown request ends the loop, which then waits for the running jobs
(`runner_daemon/mod.rs`). Each wait of the loop is a `tokio::select!` without `biased`: when
both of its branches are ready either may be taken, so the labels name the branch.

A permit that is free when the shutdown has been requested can therefore still win, and the
loop asks GitLab for another job (`request_after_shutdown`). It asks for none once the shutdown
branch is preferred whenever it is ready and no request falls between taking a permit and
starting the request (`requests_before_shutdown`). Whatever the order of shutdowns, answers and
completions, no permit is lost and no job that was handed out is dropped (`no_job_dropped`).
-/

namespace TurboCi

open Runs

namespace MainLoop

inductive Phase where
  /-- waiting for a free slot or a shutdown -/
  | waiting
  /-- holds a permit and is about to ask GitLab -/
  | claiming
  /-- the request is in flight -/
  | requesting
  /-- sleeping until the next check or a shutdown -/
  | idle
  /-- waiting for the running jobs to finish -/
  | draining
  | stopped
  deriving DecidableEq

structure State where
  /-- free permits of the semaphore -/
  permits : Nat
  mode : Shutdown := .running
  phase : Phase := .waiting
  /-- the jobs that run, each with its permit -/
  executing : List Job := []
  /-- the jobs of GitLab's answers -/
  accepted : List Job := []
  /-- the jobs whose execution has ended -/
  finished : List Job := []
  /-- the shutdown mode at the start of each request -/
  requests : List Shutdown := []
  deriving DecidableEq

/-- GitLab's answer to a job request. -/
inductive Answer where
  | job (job : Job)
  | noJob
  | error
  deriving DecidableEq

inductive Label where
  | shutdown (mode : Shutdown)
  /-- the permit branch of the first wait -/
  | acquire
  /-- the shutdown branch of a wait -/
  | stop
  | request
  | answer (answer : Answer)
  /-- the sleep branch of the second wait -/
  | wake
  /-- the execution of the running job with this index ends -/
  | finish (index : Nat)
  /-- all permits are free -/
  | drained
  deriving DecidableEq

/-- The job that GitLab hands out by this label. -/
def Label.handsOut : Label → Option Job
  | answer (.job job) => some job
  | _ => none

def step (concurrent : Nat) (s : State) : Label → Option State
  | .shutdown mode => some { s with mode := s.mode.request mode }
  | .acquire =>
      if s.phase = .waiting ∧ 0 < s.permits then
        some { s with permits := s.permits - 1, phase := .claiming }
      else none
  | .stop =>
      if (s.phase = .waiting ∨ s.phase = .idle) ∧ s.mode ≠ .running then
        some { s with phase := .draining }
      else none
  | .request =>
      if s.phase = .claiming then
        some { s with phase := .requesting, requests := s.requests ++ [s.mode] }
      else none
  | .answer answer =>
      if s.phase = .requesting then
        match answer with
        | .job job =>
            some { s with
              executing := s.executing ++ [job]
              accepted := s.accepted ++ [job]
              phase := .waiting }
        | _ => some { s with permits := s.permits + 1, phase := .idle }
      else none
  | .wake => if s.phase = .idle then some { s with phase := .waiting } else none
  | .finish index =>
      match s.executing[index]? with
      | some job =>
          -- the permit of a job is dropped with its task
          some { s with
            executing := s.executing.eraseIdx index
            finished := s.finished ++ [job]
            permits := s.permits + 1 }
      | none => none
  | .drained =>
      if s.phase = .draining ∧ concurrent ≤ s.permits then some { s with phase := .stopped }
      else none

def init (concurrent : Nat) : State := { permits := concurrent }

/-! ## No request after a shutdown request -/

/-- The step lets a request start after the shutdown was requested: the permit branch wins over
a shutdown that is ready, or the shutdown is requested between the permit and the request. -/
def Slips (s : State) : Label → Prop
  | .acquire => s.mode ≠ .running
  | .shutdown _ => s.phase = .claiming
  | _ => False

instance (s : State) : ∀ l, Decidable (Slips s l)
  | .acquire => inferInstanceAs (Decidable (s.mode ≠ .running))
  | .shutdown _ => inferInstanceAs (Decidable (s.phase = .claiming))
  | .stop | .request | .answer _ | .wake | .finish _ | .drained => isFalse id

structure Inv (s : State) : Prop where
  requests : ∀ mode ∈ s.requests, mode = .running
  claiming : s.phase = .claiming → s.mode = .running

theorem inv_init (concurrent : Nat) : Inv (init concurrent) where
  requests _ h := absurd h List.not_mem_nil
  claiming h := nomatch h

/-- A step that starts no request and does not take a permit. -/
theorem Inv.of_phase {s s' : State} (h : Inv s) (hrequests : s'.requests = s.requests)
    (hphase : s'.phase ≠ .claiming) : Inv s' where
  requests := by
    rw [hrequests]
    exact h.requests
  claiming hclaiming := absurd hclaiming hphase

theorem inv_step {concurrent : Nat} {s : State} {l : Label} {s' : State} (h : Inv s)
    (hc : ¬ Slips s l) (hstep : step concurrent s l = some s') : Inv s' := by
  cases l with
  | shutdown mode =>
      obtain rfl := Option.some.inj hstep
      exact h.of_phase rfl hc
  | acquire =>
      obtain ⟨-, rfl⟩ := of_guard hstep
      -- the permit is taken before the shutdown branch was ready
      have hrunning : s.mode = .running := not_not.mp hc
      exact ⟨h.requests, fun _ => hrunning⟩
  | stop =>
      obtain ⟨-, rfl⟩ := of_guard hstep
      exact h.of_phase rfl nofun
  | request =>
      obtain ⟨hphase, rfl⟩ := of_guard hstep
      have hrunning : s.mode = .running := h.claiming hphase
      constructor
      · exact forall_concat h.requests hrunning
      · intro hclaiming
        cases hclaiming
  | answer answer =>
      simp only [step] at hstep
      split at hstep
      · cases answer with
        | job job =>
            obtain rfl := Option.some.inj hstep
            exact h.of_phase rfl nofun
        | noJob =>
            obtain rfl := Option.some.inj hstep
            exact h.of_phase rfl nofun
        | error =>
            obtain rfl := Option.some.inj hstep
            exact h.of_phase rfl nofun
      · cases hstep
  | wake =>
      obtain ⟨-, rfl⟩ := of_guard hstep
      exact h.of_phase rfl nofun
  | finish index =>
      -- jobs end at any time, also while the loop holds a permit
      simp only [step] at hstep
      split at hstep
      · obtain rfl := Option.some.inj hstep
        exact ⟨h.requests, h.claiming⟩
      · cases hstep
  | drained =>
      obtain ⟨-, rfl⟩ := of_guard hstep
      exact h.of_phase rfl nofun

/-- **Every request was started before the shutdown was requested**, in a run in which no
permit is taken while the shutdown branch is ready, and no shutdown is requested between a
permit and its request. -/
theorem requests_before_shutdown {concurrent : Nat} {ls : List Label} {s : State}
    (hrun : run (step concurrent) (init concurrent) ls = some s)
    (hc : Always (step concurrent) (fun s l => ¬ Slips s l) (init concurrent) ls) :
    ∀ mode ∈ s.requests, mode = .running :=
  (invariant_of_always (fun _ _ _ hi hcond hs => inv_step hi hcond hs) (inv_init concurrent) hc
    hrun).requests

/-- A shutdown that is requested while a request is in flight; its answer is still a job. -/
def stoppedInFlight : List Label :=
  [.acquire, .request, .shutdown .graceful, .answer (.job { id := 1, token := [] }), .stop,
    .finish 0, .drained]

theorem requests_before_shutdown_inFlight :
    ∃ s, run (step 2) (init 2) stoppedInFlight = some s ∧ s.phase = .stopped ∧
      ∀ mode ∈ s.requests, mode = .running := by
  obtain ⟨s, hs, hphase⟩ : ∃ s, run (step 2) (init 2) stoppedInFlight = some s ∧
      s.phase = .stopped := Option.map_eq_some_iff.mp (by decide)
  exact ⟨s, hs, hphase, requests_before_shutdown hs (by decide)⟩

/-- The same, but the free second permit wins over the shutdown. -/
def acquiredAfter : List Label :=
  [.acquire, .request, .shutdown .graceful, .answer (.job { id := 1, token := [] }), .acquire,
    .request]

/-- **A request after the shutdown was requested.** -/
theorem request_after_shutdown :
    ∃ s, run (step 2) (init 2) acquiredAfter = some s ∧ .graceful ∈ s.requests := by
  obtain ⟨s, hs, hrequests⟩ : ∃ s, run (step 2) (init 2) acquiredAfter = some s ∧
      s.requests = [.running, .graceful] := Option.map_eq_some_iff.mp (by decide)
  exact ⟨s, hs, by rw [hrequests]; decide⟩

/-! ## The permits

A permit is free, or with the loop from the first wait to the answer, or with a job that runs.
-/

/-- The permit that the loop holds. -/
def State.held (s : State) : Nat :=
  match s.phase with
  | .claiming | .requesting => 1
  | .waiting | .idle | .draining | .stopped => 0

/-- The job requests that GitLab has not answered. -/
def State.inFlight (s : State) : Nat :=
  match s.phase with
  | .requesting => 1
  | .waiting | .claiming | .idle | .draining | .stopped => 0

theorem State.inFlight_le_held (s : State) : s.inFlight ≤ s.held := by
  unfold State.inFlight State.held
  cases s.phase <;> simp

structure Accounts (concurrent : Nat) (s : State) : Prop where
  /-- no permit is lost, and none is made -/
  permits : s.permits + s.held + s.executing.length = concurrent
  /-- every job that was handed out runs or has ended, and no other job does -/
  jobs : (s.finished ++ s.executing).Perm s.accepted
  stopped : s.phase = .stopped → s.executing = []

theorem accounts_init (concurrent : Nat) : Accounts concurrent (init concurrent) where
  permits := rfl
  jobs := List.Perm.refl _
  stopped := fun _ => rfl

/-- A step that takes or gives back no permit. -/
theorem Accounts.of_phase {concurrent : Nat} {s s' : State} (h : Accounts concurrent s)
    (hpermits : s'.permits + s'.held = s.permits + s.held) (hexecuting : s'.executing = s.executing)
    (hfinished : s'.finished = s.finished) (haccepted : s'.accepted = s.accepted)
    (hstopped : s'.phase ≠ .stopped) : Accounts concurrent s' where
  permits := by
    rw [hpermits, hexecuting]
    exact h.permits
  jobs := by
    rw [hexecuting, hfinished, haccepted]
    exact h.jobs
  stopped heq := absurd heq hstopped

theorem eraseIdx_accounts {xs : List Job} {index : Nat} {job : Job} (h : xs[index]? = some job) :
    (job :: xs.eraseIdx index).Perm xs ∧ (xs.eraseIdx index).length + 1 = xs.length := by
  obtain ⟨hlt, hget⟩ := List.getElem?_eq_some_iff.mp h
  have hperm : (job :: xs.eraseIdx index).Perm xs := by
    rw [← hget]
    exact List.getElem_cons_eraseIdx_perm hlt
  exact ⟨hperm, hperm.length_eq⟩

theorem accounts_step {concurrent : Nat} {s : State} {l : Label} {s' : State}
    (h : Accounts concurrent s) (hstep : step concurrent s l = some s') :
    Accounts concurrent s' := by
  cases l with
  | shutdown mode =>
      obtain rfl := Option.some.inj hstep
      exact ⟨h.permits, h.jobs, h.stopped⟩
  | acquire =>
      obtain ⟨⟨hphase, hfree⟩, rfl⟩ := of_guard hstep
      have hheld : s.held = 0 := by rw [State.held, hphase]
      refine h.of_phase ?_ rfl rfl rfl (by simp)
      show s.permits - 1 + 1 = s.permits + s.held
      omega
  | stop =>
      obtain ⟨⟨hphase, -⟩, rfl⟩ := of_guard hstep
      have hheld : s.held = 0 := by rcases hphase with hphase | hphase <;> rw [State.held, hphase]
      refine h.of_phase ?_ rfl rfl rfl (by simp)
      show s.permits + 0 = s.permits + s.held
      rw [hheld]
  | request =>
      obtain ⟨hphase, rfl⟩ := of_guard hstep
      have hheld : s.held = 1 := by rw [State.held, hphase]
      refine h.of_phase ?_ rfl rfl rfl (by simp)
      show s.permits + 1 = s.permits + s.held
      rw [hheld]
  | answer answer =>
      unfold step at hstep
      obtain ⟨hphase, hanswer⟩ : s.phase = .requesting ∧ _ := Option.ite_none_right_eq_some.mp hstep
      have hheld : s.held = 1 := by rw [State.held, hphase]
      have hpermits := h.permits
      cases answer with
      | job job =>
          -- the permit of the request goes on to the job
          obtain rfl := Option.some.inj hanswer
          refine ⟨?_, ?_, fun heq => by cases heq⟩
          · show s.permits + 0 + (s.executing ++ [job]).length = concurrent
            rw [List.length_append, List.length_singleton]
            omega
          · show (s.finished ++ (s.executing ++ [job])).Perm (s.accepted ++ [job])
            rw [← List.append_assoc]
            exact h.jobs.append_right [job]
      | noJob =>
          obtain rfl := Option.some.inj hanswer
          refine h.of_phase ?_ rfl rfl rfl (by simp)
          show s.permits + 1 + 0 = s.permits + s.held
          omega
      | error =>
          obtain rfl := Option.some.inj hanswer
          refine h.of_phase ?_ rfl rfl rfl (by simp)
          show s.permits + 1 + 0 = s.permits + s.held
          omega
  | wake =>
      obtain ⟨hphase, rfl⟩ := of_guard hstep
      have hheld : s.held = 0 := by rw [State.held, hphase]
      refine h.of_phase ?_ rfl rfl rfl (by simp)
      show s.permits + 0 = s.permits + s.held
      rw [hheld]
  | finish index =>
      cases hjob : s.executing[index]? with
      | none =>
          simp only [step, hjob] at hstep
          cases hstep
      | some job =>
          simp only [step, hjob] at hstep
          obtain rfl := Option.some.inj hstep
          have herase := eraseIdx_accounts hjob
          have hpermits := h.permits
          refine ⟨?_, ?_, fun heq => ?_⟩
          · show s.permits + 1 + s.held + (s.executing.eraseIdx index).length = concurrent
            omega
          · show (s.finished ++ [job] ++ s.executing.eraseIdx index).Perm s.accepted
            rw [List.append_assoc, List.singleton_append]
            exact (herase.1.append_left s.finished).trans h.jobs
          · -- nothing runs any more once the runner has stopped
            rw [h.stopped heq] at hjob
            cases hjob
  | drained =>
      obtain ⟨⟨hphase, hall⟩, rfl⟩ := of_guard hstep
      have hpermits := h.permits
      have hheld : s.held = 0 := by rw [State.held, hphase]
      have hempty : s.executing = [] := List.eq_nil_of_length_eq_zero (by omega)
      refine ⟨?_, h.jobs, fun _ => hempty⟩
      show s.permits + 0 + s.executing.length = concurrent
      omega

theorem accepted_step {concurrent : Nat} {s t : State} {l : Label}
    (hstep : step concurrent s l = some t) : t.accepted = s.accepted ++ l.handsOut.toList := by
  have hsame {accepted : List Job} : accepted = accepted ++ (none : Option Job).toList := by simp
  cases l with
  | shutdown mode =>
      obtain rfl := Option.some.inj hstep
      exact hsame
  | acquire =>
      obtain ⟨-, rfl⟩ := of_guard hstep
      exact hsame
  | stop =>
      obtain ⟨-, rfl⟩ := of_guard hstep
      exact hsame
  | request =>
      obtain ⟨-, rfl⟩ := of_guard hstep
      exact hsame
  | answer answer =>
      unfold step at hstep
      obtain ⟨-, hanswer⟩ : s.phase = .requesting ∧ _ := Option.ite_none_right_eq_some.mp hstep
      cases answer with
      | job job =>
          obtain rfl := Option.some.inj hanswer
          rfl
      | noJob =>
          obtain rfl := Option.some.inj hanswer
          exact hsame
      | error =>
          obtain rfl := Option.some.inj hanswer
          exact hsame
  | wake =>
      obtain ⟨-, rfl⟩ := of_guard hstep
      exact hsame
  | finish index =>
      simp only [step] at hstep
      split at hstep
      · obtain rfl := Option.some.inj hstep
        exact hsame
      · cases hstep
  | drained =>
      obtain ⟨-, rfl⟩ := of_guard hstep
      exact hsame

/-- **No accepted job is dropped and the limit holds**, in every run of the main loop: the jobs
that run and the requests in flight are never more than `concurrent`, every job that GitLab
handed out in an answer runs or has ended, when the runner has stopped all of them have ended, and
it can stop as soon as none of them runs. -/
theorem no_job_dropped {concurrent : Nat} {ls : List Label} {s : State}
    (hrun : run (step concurrent) (init concurrent) ls = some s) :
    s.executing.length + s.inFlight ≤ concurrent ∧
      (s.finished ++ s.executing).Perm (ls.filterMap Label.handsOut) ∧
      (s.phase = .stopped → s.finished.Perm (ls.filterMap Label.handsOut)) ∧
      (s.phase = .draining → s.executing = [] → (step concurrent s .drained).isSome) := by
  have haccounts : Accounts concurrent s :=
    invariant (fun _ _ _ hi hs => accounts_step hi hs) (accounts_init concurrent) hrun
  have hpermits := haccounts.permits
  have haccepted : s.accepted = (init concurrent).accepted ++ ls.filterMap Label.handsOut :=
    history_of_run (fun _ l _ hstep => accepted_step (l := l) hstep) hrun
  rw [init, List.nil_append] at haccepted
  rw [← haccepted]
  refine ⟨?_, haccounts.jobs, fun hstopped => ?_, fun hdraining hempty => ?_⟩
  · have hle := s.inFlight_le_held
    omega
  · have hjobs := haccounts.jobs
    rw [haccounts.stopped hstopped, List.append_nil] at hjobs
    exact hjobs
  · have hheld : s.held = 0 := by rw [State.held, hdraining]
    have hfree : concurrent ≤ s.permits := by
      rw [hempty, List.length_nil] at hpermits
      omega
    have hdrained : step concurrent s .drained = some { s with phase := .stopped } :=
      if_pos ⟨hdraining, hfree⟩
    rw [hdrained, Option.isSome_some]

theorem no_job_dropped_inFlight :
    ∃ s, run (step 2) (init 2) stoppedInFlight = some s ∧ s.phase = .stopped ∧
      s.finished.Perm [{ id := 1, token := [] }] := by
  obtain ⟨s, hs, hphase⟩ : ∃ s, run (step 2) (init 2) stoppedInFlight = some s ∧
      s.phase = .stopped := Option.map_eq_some_iff.mp (by decide)
  exact ⟨s, hs, hphase, (no_job_dropped hs).2.2.1 hphase⟩

end MainLoop

end TurboCi
