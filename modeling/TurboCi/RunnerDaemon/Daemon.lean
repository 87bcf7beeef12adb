import TurboCi.RunnerDaemon.MainLoop
import TurboCi.RunnerDaemon.TokenRotation

set_option autoImplicit false

/-! # The daemon and its token

`RunnerDaemon::start` runs the main loop and the token rotation side by side, until the loop has
ended and the rotation does not hold its lock (`runner_daemon/mod.rs`). GitLab is a party here: it
accepts one token, and a reset replaces that token when GitLab deals with it, before the runner has
the reply. A daemon may be killed at any time, and a new one may be started after it: it has the
file of the token store and nothing else.

So the runner can lose its token only between GitLab's dealing with a reset and the saved reply, and
`start` never returns in between (`stopped_daemon`). Where no reply is lost there, every daemon of a
run has the token that GitLab accepts (`token_kept`).
-/

namespace TurboCi

open Runs

namespace Daemon

/-- A job request, at the moment that it starts. -/
structure Request where
  token : Chars
  /-- the token that GitLab accepts then -/
  valid : Chars
  /-- a reset is under way -/
  resetting : Bool
  deriving DecidableEq

structure State where
  loop : MainLoop.State
  rotation : TokenRotation.State
  /-- the token that GitLab accepts -/
  valid : Chars
  /-- the reply to a reset that GitLab has dealt with, not delivered yet -/
  reply : Option TokenRotation.Reply := none
  /-- `start` has returned -/
  returned : Bool := false
  requests : List Request := []

inductive Label where
  | loop (l : MainLoop.Label)
  | verify (reply : TokenRotation.Reply) (now : Int)
  | wake
  | saveOld (saved : Bool)
  /-- GitLab deals with a reset -/
  | serve (reply : TokenRotation.Reply)
  /-- the reply to a reset arrives; whether a new token can be saved -/
  | deliver (now : Int) (saved : Bool)
  /-- a reset, or the reply to it, is lost -/
  | lost
  | exit
  /-- a new daemon starts; the one before may have been killed -/
  | restart

section Steps

variable (concurrent : Nat) (parseRfc3339 : Chars → Option Int) (fingerprint : Chars → Chars)
  (config : TokenRotation.Config)

/-- A step of the rotation. -/
def State.rotate (s : State) (l : TokenRotation.Label) : Option State :=
  match TokenRotation.step parseRfc3339 fingerprint config s.rotation l with
  | some rotation => some { s with rotation := rotation }
  | none => none

/-- The rotation holds its lock. -/
def State.locked (s : State) : Bool := s.rotation.phase = .saving ∨ s.rotation.phase = .resetting

/-- What a running daemon and GitLab do. -/
def stepRunning (s : State) : Label → Option State
  | .loop l =>
      match MainLoop.step concurrent s.loop l with
      | some loop =>
          some { s with
            loop := loop
            requests := if l = .request then
                s.requests ++ [⟨s.rotation.token, s.valid, s.rotation.phase = .resetting⟩]
              else s.requests }
      | none => none
  | .verify reply now => s.rotate parseRfc3339 fingerprint config (.verify reply now)
  | .wake => s.rotate parseRfc3339 fingerprint config .wake
  | .saveOld saved => s.rotate parseRfc3339 fingerprint config (.saveOld saved)
  | .serve reply =>
      if s.rotation.phase = .resetting ∧ s.reply.isNone then
        some { s with valid := (TokenRotation.carried reply).getD s.valid, reply := some reply }
      else none
  | .deliver now saved =>
      match s.reply with
      | some reply =>
          State.rotate parseRfc3339 fingerprint config { s with reply := none }
            (.reset reply now saved)
      | none => none
  | .lost =>
      State.rotate parseRfc3339 fingerprint config { s with reply := none } (.reset .failed 0 false)
  | .exit =>
      if s.loop.phase = .stopped ∧ ¬ s.locked then
        some { s with rotation := { s.rotation with phase := .stopped }, returned := true }
      else none
  | .restart => none

def step (s : State) (l : Label) : Option State :=
  match l with
  | .restart =>
      some { s with
        loop := MainLoop.init concurrent
        rotation := TokenRotation.init fingerprint config s.rotation.file
        reply := none
        returned := false }
  | l => if s.returned then none else stepRunning concurrent parseRfc3339 fingerprint config s l

/-- The first daemon starts with what the file of the token store holds. -/
def init (file : Option TokenRotation.StoredToken) (valid : Chars) : State where
  loop := MainLoop.init concurrent
  rotation := TokenRotation.init fingerprint config file
  valid := valid

end Steps

variable {concurrent : Nat} {parseRfc3339 : Chars → Option Int} {fingerprint : Chars → Chars}
  {config : TokenRotation.Config}

/-! ## The end of a daemon -/

/-- What holds at every point of every run. -/
structure Inv (concurrent : Nat) (fingerprint : Chars → Chars) (config : TokenRotation.Config)
    (s : State) : Prop where
  loop : MainLoop.Accounts concurrent s.loop
  rotation : TokenRotation.Inv fingerprint config s.rotation
  reply : s.reply.isSome → s.rotation.phase = .resetting
  returned : s.returned = true → s.loop.phase = .stopped ∧ s.rotation.phase = .stopped

theorem of_rotate {s t : State} {l : TokenRotation.Label}
    (h : s.rotate parseRfc3339 fingerprint config l = some t) :
    ∃ rotation, TokenRotation.step parseRfc3339 fingerprint config s.rotation l = some rotation ∧
      t = { s with rotation := rotation } := by
  unfold State.rotate at h
  split at h
  · next rotation hstep => exact ⟨rotation, hstep, (Option.some.inj h).symm⟩
  · cases h

/-- A step of the rotation in a daemon that runs, with no reply on the way. -/
theorem Inv.rotate {s t : State} {l : TokenRotation.Label} (h : Inv concurrent fingerprint config s)
    (hreply : s.reply = none) (hreturned : s.returned = false)
    (hstep : s.rotate parseRfc3339 fingerprint config l = some t) :
    Inv concurrent fingerprint config t := by
  obtain ⟨rotation, hrotation, rfl⟩ := of_rotate hstep
  refine ⟨h.loop, TokenRotation.inv_step h.rotation hrotation, fun hsome => ?_, fun htrue => ?_⟩
  · rw [show State.reply _ = none from hreply] at hsome
    cases hsome
  · rw [show State.returned _ = false from hreturned] at htrue
    cases htrue

/-- The rotation waits for a reply while it resets, and does nothing else. -/
theorem reply_none_of_step {s : State} {l : TokenRotation.Label} {rotation : TokenRotation.State}
    (h : Inv concurrent fingerprint config s)
    (hstep : TokenRotation.step parseRfc3339 fingerprint config s.rotation l = some rotation)
    (hl : ∀ reply now saved, l ≠ .reset reply now saved) : s.reply = none := by
  rw [← Option.not_isSome_iff_eq_none]
  intro hsome
  have hphase := h.reply hsome
  cases l with
  | verify reply now =>
      have hother : s.rotation.phase = .verifying := (Option.ite_none_right_eq_some.mp hstep).1
      rw [hphase] at hother
      cases hother
  | wake =>
      have hother : s.rotation.phase = .waiting := (of_guard hstep).1
      rw [hphase] at hother
      cases hother
  | saveOld saved =>
      simp only [TokenRotation.step, hphase] at hstep
      cases hstep
  | reset reply now saved => exact hl reply now saved rfl
  | abort =>
      have hother := (of_guard hstep).1
      rw [hphase] at hother
      rcases hother with hother | hother
      · cases hother
      · cases hother

theorem Inv.rotateAlone {s t : State} {l : TokenRotation.Label}
    (h : Inv concurrent fingerprint config s) (hreturned : s.returned = false)
    (hl : ∀ reply now saved, l ≠ .reset reply now saved)
    (hstep : s.rotate parseRfc3339 fingerprint config l = some t) :
    Inv concurrent fingerprint config t := by
  obtain ⟨rotation, hrotation, -⟩ := of_rotate hstep
  exact h.rotate (reply_none_of_step h hrotation hl) hreturned hstep

/-- The reply is off the way. -/
theorem Inv.noReply {s : State} (h : Inv concurrent fingerprint config s) :
    Inv concurrent fingerprint config { s with reply := none } :=
  ⟨h.loop, h.rotation, (fun hsome => by cases hsome), h.returned⟩

theorem inv_stepRunning {s t : State} {l : Label} (h : Inv concurrent fingerprint config s)
    (hreturned : s.returned = false)
    (hstep : stepRunning concurrent parseRfc3339 fingerprint config s l = some t) :
    Inv concurrent fingerprint config t := by
  cases l with
  | loop l =>
      simp only [stepRunning] at hstep
      split at hstep
      · next loop hloop =>
          obtain rfl := Option.some.inj hstep
          refine ⟨MainLoop.accounts_step h.loop hloop, h.rotation, h.reply, fun htrue => ?_⟩
          rw [show State.returned _ = false from hreturned] at htrue
          cases htrue
      · cases hstep
  | verify reply now => exact h.rotateAlone hreturned (by simp) hstep
  | wake => exact h.rotateAlone hreturned (by simp) hstep
  | saveOld saved => exact h.rotateAlone hreturned (by simp) hstep
  | serve reply =>
      simp only [stepRunning] at hstep
      obtain ⟨⟨hphase, -⟩, rfl⟩ := of_guard hstep
      exact ⟨h.loop, h.rotation, fun _ => hphase, h.returned⟩
  | deliver now saved =>
      simp only [stepRunning] at hstep
      split at hstep
      · exact h.noReply.rotate rfl hreturned hstep
      · cases hstep
  | lost => exact h.noReply.rotate rfl hreturned hstep
  | exit =>
      simp only [stepRunning] at hstep
      obtain ⟨⟨hloop, hlocked⟩, rfl⟩ := of_guard hstep
      refine ⟨h.loop, h.rotation.of_phase rfl rfl (by simp), fun hsome => ?_, fun _ => ⟨hloop, rfl⟩⟩
      -- a reply on the way would hold the lock
      have hphase := h.reply hsome
      exact absurd (by simp [State.locked, hphase]) hlocked
  | restart => cases hstep

theorem inv_step {s t : State} {l : Label} (h : Inv concurrent fingerprint config s)
    (hstep : step concurrent parseRfc3339 fingerprint config s l = some t) :
    Inv concurrent fingerprint config t := by
  cases l with
  | restart =>
      obtain rfl := Option.some.inj hstep
      exact ⟨MainLoop.accounts_init concurrent, TokenRotation.inv_init s.rotation.file,
        (fun hsome => by cases hsome), fun htrue => by cases htrue⟩
  | _ =>
      simp only [step] at hstep
      split at hstep
      · cases hstep
      · next hreturned => exact inv_stepRunning h (Bool.eq_false_iff.mpr hreturned) hstep

theorem inv_init (file : Option TokenRotation.StoredToken) (valid : Chars) :
    Inv concurrent fingerprint config (init concurrent fingerprint config file valid) :=
  ⟨MainLoop.accounts_init concurrent, TokenRotation.inv_init file, (fun hsome => by cases hsome),
    fun htrue => by cases htrue⟩

/-- **When `start` returns nothing is under way**: in every run, with any number of restarts before,
every job that the daemon has accepted has ended, no reset of its own that GitLab has dealt with
still awaits its reply, and the rotation has stopped. -/
theorem stopped_daemon (concurrent : Nat) (parseRfc3339 : Chars → Option Int)
    (fingerprint : Chars → Chars) (config : TokenRotation.Config)
    (file : Option TokenRotation.StoredToken) (valid : Chars) (ls : List Label) (s : State)
    (hrun : run (step concurrent parseRfc3339 fingerprint config)
      (init concurrent fingerprint config file valid) ls = some s)
    (hreturned : s.returned = true) :
    s.loop.finished.Perm s.loop.accepted ∧ s.reply = none ∧ s.rotation.phase = .stopped := by
  have h : Inv concurrent fingerprint config s :=
    invariant (fun _ _ _ hi hs => inv_step hi hs) (inv_init file valid) hrun
  obtain ⟨hloop, hrotation⟩ := h.returned hreturned
  refine ⟨?_, ?_, hrotation⟩
  · have hjobs := h.loop.jobs
    rw [h.loop.stopped hloop, List.append_nil] at hjobs
    exact hjobs
  · rw [← Option.not_isSome_iff_eq_none]
    intro hsome
    rw [h.reply hsome] at hrotation
    cases hrotation

theorem stopped_daemon_idle :
    ∃ s, run (step 1 TokenRotation.exampleTime id TokenRotation.exampleConfig)
        (init 1 id TokenRotation.exampleConfig none "glrt-config".toList)
        [.loop (.shutdown .graceful), .loop .stop, .loop .drained, .exit] = some s ∧
      s.reply = none := by
  refine ⟨_, rfl, ?_⟩
  exact (stopped_daemon 1 TokenRotation.exampleTime id TokenRotation.exampleConfig none
    "glrt-config".toList [.loop (.shutdown .graceful), .loop .stop, .loop .drained, .exit] _ rfl
    rfl).2.1

/-! ## The token -/

/-- GitLab has given out a token that the runner does not have yet. -/
def State.owed (s : State) : Option Chars := s.reply.bind TokenRotation.carried

/-- No token is lost on its way: a reply with a new token arrives, its expiry can be read and the
token can be saved, and the daemon is not killed before. -/
def Reliable (parseRfc3339 : Chars → Option Int) (s : State) : Label → Prop
  | .deliver _ saved => s.owed.isSome →
      saved = true ∧ ∀ reply ∈ s.reply, TokenRotation.ExpiryReadable parseRfc3339 reply
  | .lost | .restart => s.owed = none
  | _ => True

/-- The runner and its file have the token that GitLab accepts, unless it is on its way. -/
structure Kept (fingerprint : Chars → Chars) (config : TokenRotation.Config) (s : State) : Prop where
  file : TokenRotation.startToken fingerprint config s.rotation.file = s.rotation.token
  valid : s.valid = s.owed.getD s.rotation.token
  requests : ∀ r ∈ s.requests, r.token = r.valid ∨ r.resetting = true

/-- A step of the rotation that is no reset. -/
theorem Kept.rotate {s t : State} {l : TokenRotation.Label} (h : Kept fingerprint config s)
    (hi : Inv concurrent fingerprint config s)
    (hl : ∀ reply now saved, l ≠ .reset reply now saved)
    (hstep : s.rotate parseRfc3339 fingerprint config l = some t) : Kept fingerprint config t := by
  obtain ⟨rotation, hrotation, rfl⟩ := of_rotate hstep
  have hplain : l.Readable parseRfc3339 ∧ l.Saves ∧ l.carried = none := by
    cases l with
    | reset reply now saved => exact absurd rfl (hl reply now saved)
    | _ => exact ⟨trivial, trivial, rfl⟩
  have htoken : rotation.token = s.rotation.token := by
    rw [TokenRotation.token_step hplain.1 hrotation, hplain.2.2]
    rfl
  refine ⟨TokenRotation.restart_step hi.rotation h.file hplain.2.1 hrotation, ?_, h.requests⟩
  show s.valid = s.owed.getD rotation.token
  rw [htoken]
  exact h.valid

/-- A reset that brings no new token. -/
theorem Kept.refused {s t : State} {reply : TokenRotation.Reply} {now : Int} {saved : Bool}
    (h : Kept fingerprint config s) (howed : s.owed = none)
    (hcarried : TokenRotation.carried reply = none)
    (hstep : State.rotate parseRfc3339 fingerprint config { s with reply := none }
      (.reset reply now saved) = some t) : Kept fingerprint config t := by
  obtain ⟨rotation, hrotation, rfl⟩ := of_rotate hstep
  have hvalid : s.valid = s.rotation.token := by
    rw [h.valid, howed]
    rfl
  rcases (TokenRotation.step_reset hrotation).2 with ⟨new, newExpiry, hnew, -⟩ | ⟨-, rfl⟩
  · rw [TokenRotation.carried_of_resetRunnerToken hnew] at hcarried
    cases hcarried
  · exact ⟨h.file, hvalid, h.requests⟩

/-- A reset whose new token arrives and is saved. -/
theorem Kept.adopted {s t : State} {reply : TokenRotation.Reply} {now : Int}
    (h : Kept fingerprint config s) (hi : Inv concurrent fingerprint config s)
    (hreply : s.reply = some reply)
    (hreadable : TokenRotation.ExpiryReadable parseRfc3339 reply)
    (hstep : State.rotate parseRfc3339 fingerprint config { s with reply := none }
      (.reset reply now true) = some t) : Kept fingerprint config t := by
  obtain ⟨rotation, hrotation, rfl⟩ := of_rotate hstep
  have hread : (TokenRotation.Label.reset reply now true).Readable parseRfc3339 :=
    fun _ => hreadable
  have hsaves : (TokenRotation.Label.reset reply now true).Saves := rfl
  have htoken : rotation.token = (TokenRotation.carried reply).getD s.rotation.token :=
    TokenRotation.token_step hread hrotation
  refine ⟨TokenRotation.restart_step hi.rotation h.file hsaves hrotation, ?_, h.requests⟩
  show s.valid = rotation.token
  rw [htoken, h.valid, State.owed, hreply]
  rfl

theorem kept_stepRunning {s t : State} {l : Label} (h : Kept fingerprint config s)
    (hi : Inv concurrent fingerprint config s) (hreliable : Reliable parseRfc3339 s l)
    (hstep : stepRunning concurrent parseRfc3339 fingerprint config s l = some t) :
    Kept fingerprint config t := by
  cases l with
  | loop l =>
      simp only [stepRunning] at hstep
      split at hstep
      · obtain rfl := Option.some.inj hstep
        refine ⟨h.file, h.valid, fun r hr => ?_⟩
        by_cases hrequest : l = .request
        · rw [show State.requests _ = _ from if_pos hrequest] at hr
          rcases List.mem_append.mp hr with hr | hr
          · exact h.requests r hr
          · obtain rfl := List.mem_singleton.mp hr
            cases hreply : s.reply with
            | none =>
                left
                have hvalid := h.valid
                rw [State.owed, hreply] at hvalid
                exact hvalid.symm
            | some reply =>
                right
                exact decide_eq_true (hi.reply (by rw [hreply]; rfl))
        · rw [show State.requests _ = _ from if_neg hrequest] at hr
          exact h.requests r hr
      · cases hstep
  | verify reply now => exact h.rotate hi (by simp) hstep
  | wake => exact h.rotate hi (by simp) hstep
  | saveOld saved => exact h.rotate hi (by simp) hstep
  | serve reply =>
      simp only [stepRunning] at hstep
      obtain ⟨⟨-, hnone⟩, rfl⟩ := of_guard hstep
      refine ⟨h.file, ?_, h.requests⟩
      have hvalid := h.valid
      rw [State.owed, Option.isNone_iff_eq_none.mp hnone] at hvalid
      show (TokenRotation.carried reply).getD s.valid
        = (TokenRotation.carried reply).getD s.rotation.token
      rw [hvalid]
      rfl
  | deliver now saved =>
      simp only [stepRunning] at hstep
      split at hstep
      · next reply hreply =>
          have howed : s.owed = TokenRotation.carried reply := by
            rw [State.owed, hreply]
            rfl
          cases hcarried : TokenRotation.carried reply with
          | none => exact h.refused (howed.trans hcarried) hcarried hstep
          | some token =>
              obtain ⟨rfl, hreadable⟩ := hreliable (by rw [howed, hcarried]; rfl)
              exact h.adopted hi hreply (hreadable reply hreply) hstep
      · cases hstep
  | lost => exact h.refused hreliable rfl hstep
  | exit =>
      simp only [stepRunning] at hstep
      obtain ⟨-, rfl⟩ := of_guard hstep
      exact ⟨h.file, h.valid, h.requests⟩
  | restart => cases hstep

theorem kept_step {s t : State} {l : Label} (h : Kept fingerprint config s)
    (hi : Inv concurrent fingerprint config s) (hreliable : Reliable parseRfc3339 s l)
    (hstep : step concurrent parseRfc3339 fingerprint config s l = some t) :
    Kept fingerprint config t := by
  cases l with
  | restart =>
      obtain rfl := Option.some.inj hstep
      refine ⟨rfl, ?_, h.requests⟩
      show s.valid = TokenRotation.startToken fingerprint config s.rotation.file
      rw [h.valid, h.file, show s.owed = none from hreliable]
      rfl
  | _ =>
      simp only [step] at hstep
      split at hstep
      · cases hstep
      · exact kept_stepRunning h hi hreliable hstep

/-- **No daemon loses the token**: in every run with any number of restarts, after kills or not, in
which the replies that bring a new token arrive and can be saved, the runner has the token that
GitLab accepts and a new daemon would begin with it, at every moment but those between GitLab's
dealing with a reset and the reply; and job requests carry that token, except in these moments. A
daemon that has returned leaves it to the next one. -/
theorem token_kept (concurrent : Nat) (parseRfc3339 : Chars → Option Int)
    (fingerprint : Chars → Chars) (config : TokenRotation.Config)
    (file : Option TokenRotation.StoredToken) (valid : Chars)
    (hvalid : TokenRotation.startToken fingerprint config file = valid) (ls : List Label) (s : State)
    (hreliable : Always (step concurrent parseRfc3339 fingerprint config) (Reliable parseRfc3339)
      (init concurrent fingerprint config file valid) ls)
    (hrun : run (step concurrent parseRfc3339 fingerprint config)
      (init concurrent fingerprint config file valid) ls = some s) :
    (s.owed = none → s.rotation.token = s.valid ∧
      (TokenRotation.init fingerprint config s.rotation.file).token = s.valid) ∧
    (s.returned = true →
      (TokenRotation.init fingerprint config s.rotation.file).token = s.valid) ∧
    ∀ r ∈ s.requests, r.token = r.valid ∨ r.resetting = true := by
  have hkept : Inv concurrent fingerprint config s ∧ Kept fingerprint config s := by
    refine invariant_of_always (I := fun s => Inv concurrent fingerprint config s ∧
      Kept fingerprint config s) (fun s l t h hc hs => ?_) ⟨inv_init file valid, ?_⟩ hreliable hrun
    · exact ⟨inv_step h.1 hs, kept_step h.2 h.1 hc hs⟩
    · exact ⟨rfl, hvalid.symm, fun r hr => absurd hr List.not_mem_nil⟩
  obtain ⟨hi, h⟩ := hkept
  have hrestart : s.owed = none →
      (TokenRotation.init fingerprint config s.rotation.file).token = s.valid := by
    intro howed
    calc (TokenRotation.init fingerprint config s.rotation.file).token
        = s.rotation.token := h.file
      _ = s.owed.getD s.rotation.token := by rw [howed]; rfl
      _ = s.valid := h.valid.symm
  refine ⟨fun howed => ⟨?_, hrestart howed⟩, fun hreturned => hrestart ?_, h.requests⟩
  · rw [← hrestart howed]
    exact h.file.symm
  · cases hreply : s.reply with
    | none => rw [State.owed, hreply]; rfl
    | some reply =>
        -- the lock would be held
        have hphase := hi.reply (by rw [hreply]; rfl)
        rw [(hi.returned hreturned).2] at hphase
        cases hphase

/-- A token is reset, and the daemon is killed and started again after the reply. -/
def resetAndRestart : List Label :=
  [.verify (.response 200 (TokenRotation.tokenBody "glrt-config" "2030-01-01T00:00:00Z"))
      1893450000,
    .wake, .saveOld true, .serve (.response 201 (TokenRotation.tokenBody "glrt-new" "")),
    .deliver 1893455000 true, .restart]

theorem token_kept_resetAndRestart :
    ∃ s, run (step 1 TokenRotation.exampleTime id TokenRotation.exampleConfig)
        (init 1 id TokenRotation.exampleConfig none "glrt-config".toList) resetAndRestart = some s ∧
      s.valid = "glrt-new".toList ∧ s.rotation.token = s.valid := by
  refine ⟨_, rfl, rfl, ?_⟩
  refine ((token_kept 1 TokenRotation.exampleTime id TokenRotation.exampleConfig none
    "glrt-config".toList rfl resetAndRestart _ ?_ rfl).1 rfl).1
  refine ⟨trivial, trivial, trivial, trivial, fun _ => ⟨rfl, fun reply hreply => ?_⟩, rfl, trivial⟩
  obtain rfl := Option.some.inj hreply
  exact Or.inl rfl

end Daemon

end TurboCi
