import TurboCi.RunnerDaemon.TokenRotation

set_option autoImplicit false

/-! # When the runner token is reset

The rotation with the clock (`RunnerDaemon::rotate_token` and `token::reset_time`): when it looks at
the time, how long it sleeps and when it sends the request for a new token. Times are Unix
seconds, and none is near the ends of an `i64`: the replies hold RFC 3339 times.

After a failed request the rotation sleeps for ten minutes. After a successful one it does not
sleep when the new token is due already, and sends the next request at once; in a run in which
every new token is still ahead of its time it sleeps between any two requests
(`sleeps_between_resets`).
-/

namespace TurboCi

open Runs

namespace TokenRotation

/-! ## The time of a reset -/

/-- The nearest multiple of `unit`, the even one of two. -/
def nearestMultiple (unit n : Nat) : Nat :=
  if 2 * (n % unit) < unit ∨ 2 * (n % unit) = unit ∧ n / unit % 2 = 0 then n / unit * unit
  else (n / unit + 1) * unit

/-- The nearest `f64`, which has 53 significant bits. -/
def asF64 (n : Nat) : Nat :=
  if n < 2 ^ 53 then n else nearestMultiple (2 ^ (n.log2 + 1 - 53)) n

/-- `(lifetime as f64 * RESET_FACTOR) as i64`: both the conversion and the product, which is a
multiple of a quarter, are rounded, and then the fraction is dropped. -/
def threeQuarters (lifetime : Nat) : Nat := asF64 (3 * asF64 lifetime) / 4

/-- When a token obtained at `obtainedAt` and expiring at `expiresAt` is reset. -/
def resetTime (obtainedAt expiresAt : Int) : Int :=
  obtainedAt + threeQuarters (max (expiresAt - obtainedAt) 0).toNat

theorem threeQuarters_eq {lifetime : Nat} (h : lifetime < 2 ^ 51) :
    threeQuarters lifetime = 3 * lifetime / 4 := by
  have hlifetime : asF64 lifetime = lifetime := if_pos (by omega)
  have hproduct : asF64 (3 * lifetime) = 3 * lifetime := if_pos (by omega)
  rw [threeQuarters, hlifetime, hproduct]

/-- A token is due when it has expired on arrival, or three quarters of its lifetime are over. -/
theorem resetTime_le_iff {obtainedAt expiresAt now : Int} (h : expiresAt - obtainedAt < 2 ^ 51)
    (hnow : obtainedAt ≤ now) :
    resetTime obtainedAt expiresAt ≤ now ↔
      expiresAt ≤ obtainedAt ∨ 3 * (expiresAt - obtainedAt) < 4 * (now - obtainedAt + 1) := by
  have hshort : (max (expiresAt - obtainedAt) 0).toNat < 2 ^ 51 := by omega
  rw [resetTime, threeQuarters_eq hshort]
  omega

/-! ## The rotation with its clock -/

structure Timed where
  rotation : State
  /-- the last reading of the clock -/
  clock : Int
  /-- the loop goes round after a successful reset -/
  renewed : Bool

/-- The labels of the rotation, with what the clock says where the loop looks at it. -/
inductive TimedLabel where
  | verify (reply : Reply) (now : Int)
  /-- the wait is computed and slept, and the lock is taken -/
  | wake (now : Int)
  | saveOld (saved : Bool)
  | reset (reply : Reply) (now : Int) (saved : Bool)
  | abort

namespace TimedLabel

def label : TimedLabel → Label
  | verify reply now => .verify reply now
  | wake _ => .wake
  | saveOld saved => .saveOld saved
  | reset reply now saved => .reset reply now saved
  | abort => .abort

/-- What the clock says; nothing where it is not looked at. -/
def reading : TimedLabel → Option Int
  | verify _ now => some now
  | wake now => some now
  | saveOld _ => none
  | reset _ now _ => some now
  | abort => none

end TimedLabel

inductive Event where
  /-- a sleep of so many seconds -/
  | slept (secs : Nat)
  /-- a request for a new token is sent -/
  | resetSent
  deriving DecidableEq

/-- `RETRY`. -/
def retry : Nat := 10 * 60

section Timed

variable (parseRfc3339 : Chars → Option Int) (fingerprint : Chars → Chars) (config : Config)

/-- A reset that succeeds. -/
def TimedLabel.renews : TimedLabel → Bool
  | .reset reply _ _ => (resetRunnerToken parseRfc3339 reply).isSome
  | _ => false

/-- A move of the rotation; the clock does not run backwards. -/
def timedStep (s : Timed) (l : TimedLabel) : Option Timed :=
  if s.clock ≤ l.reading.getD s.clock then
    (step parseRfc3339 fingerprint config s.rotation l.label).map fun rotation =>
      { rotation, clock := l.reading.getD s.clock, renewed := l.renews parseRfc3339 }
  else none

/-- How long until the token is due. -/
def wait (s : State) (now : Int) : Int :=
  match s.expiry with
  | some (obtainedAt, expiresAt) => resetTime obtainedAt expiresAt - now
  | none => 0

/-- What a move sleeps and sends. -/
def shown (s : Timed) (l : TimedLabel) (_ : Timed) : List Event :=
  match l with
  | .verify reply _ => if (verifyRunner parseRfc3339 reply).isNone then [.slept (60 * 60)] else []
  | .wake now => if 0 < wait s.rotation now then [.slept (wait s.rotation now).toNat] else []
  | .saveOld saved => if saved then [.resetSent] else []
  | .reset reply _ _ =>
      if (resetRunnerToken parseRfc3339 reply).isNone then [.slept retry] else []
  | .abort => []

def timedInit (file : Option StoredToken) (clock : Int) : Timed where
  rotation := init fingerprint config file
  clock := clock
  renewed := false

/-- What the rotation does after a start with the file of the token store. -/
def events (file : Option StoredToken) (clock : Int) (ls : List TimedLabel) : List Event :=
  log (timedStep parseRfc3339 fingerprint config) (shown parseRfc3339)
    (timedInit fingerprint config file clock) ls

end Timed

/-- The rotation sleeps between any two requests for a new token. -/
def SleepsBetweenResets (es : List Event) : Prop :=
  ∀ before between after, es = before ++ .resetSent :: (between ++ .resetSent :: after) →
    ∃ secs, 0 < secs ∧ .slept secs ∈ between

/-- When the loop goes round after a successful reset, the time to reset the new token is still to
come. -/
def NewTokenAhead (s : Timed) : TimedLabel → Prop
  | .wake now => s.renewed = true →
      ∀ token ∈ s.rotation.expiry, now < resetTime token.1 token.2
  | _ => True

/-! ## Sleeps -/

/-- The requests are paced: none is sent while `hot`, when one was sent and no sleep followed. -/
def Paced : Bool → List Event → Prop
  | _, [] => True
  | hot, .slept secs :: es => Paced (hot && secs == 0) es
  | hot, .resetSent :: es => hot = false ∧ Paced true es

theorem Paced.exists_sleep {es : List Event} : ∀ {between after : List Event}, Paced true es →
    es = between ++ .resetSent :: after → ∃ secs, 0 < secs ∧ .slept secs ∈ between := by
  induction es with
  | nil =>
      intro between after _ heq
      simp at heq
  | cons e es ih =>
      intro between after h heq
      cases between with
      | nil =>
          obtain ⟨rfl, -⟩ := List.cons.inj heq
          cases h.1
      | cons e' between =>
          obtain ⟨rfl, hrest⟩ := List.cons.inj heq
          cases e with
          | resetSent => cases h.1
          | slept secs =>
              rcases Nat.eq_zero_or_pos secs with rfl | hpos
              · obtain ⟨secs, hpos, hmem⟩ := ih h hrest
                exact ⟨secs, hpos, List.mem_cons_of_mem _ hmem⟩
              · exact ⟨secs, hpos, List.mem_cons_self⟩

theorem Paced.sleepsBetweenResets {hot : Bool} {es : List Event} (h : Paced hot es) :
    SleepsBetweenResets es := by
  intro before between after heq
  induction es generalizing hot before with
  | nil => simp at heq
  | cons e es ih =>
      cases before with
      | nil =>
          obtain ⟨rfl, hrest⟩ := List.cons.inj heq
          exact h.2.exists_sleep hrest
      | cons e' before =>
          obtain ⟨rfl, hrest⟩ := List.cons.inj heq
          cases e with
          | slept secs => exact ih h before hrest
          | resetSent => exact ih h.2 before hrest

/-! ## Moves -/

section Moves

variable {parseRfc3339 : Chars → Option Int} {fingerprint : Chars → Chars} {config : Config}

/-- What a move does to the phase, and what it shows. -/
inductive Moved (s t : Timed) : TimedLabel → List Event → Prop where
  /-- the token does not expire, cannot be kept, or the daemon stops -/
  | stopped {l : TimedLabel} : t.rotation.phase = .stopped → Moved s t l []
  | verified {l : TimedLabel} : s.rotation.phase = .verifying → t.rotation.phase = .waiting →
      t.rotation.expiry.isSome → t.renewed = false → Moved s t l []
  | unverified {l : TimedLabel} : t.rotation.phase = .verifying → Moved s t l [.slept (60 * 60)]
  | woke {now : Int} : s.rotation.phase = .waiting → t.rotation.phase = .saving →
      t.rotation.expiry = s.rotation.expiry →
      Moved s t (.wake now)
        (if 0 < wait s.rotation now then [.slept (wait s.rotation now).toNat] else [])
  | sent {l : TimedLabel} : s.rotation.phase = .saving → t.rotation.phase = .resetting →
      t.rotation.expiry = s.rotation.expiry → Moved s t l [.resetSent]
  | renewed {l : TimedLabel} : s.rotation.phase = .resetting → t.rotation.phase = .waiting →
      t.rotation.expiry.isSome → t.renewed = true → Moved s t l []
  | refused {l : TimedLabel} : s.rotation.phase = .resetting → t.rotation.phase = .waiting →
      t.rotation.expiry = s.rotation.expiry → t.renewed = false → Moved s t l [.slept retry]

theorem of_timedStep {s t : Timed} {l : TimedLabel}
    (h : timedStep parseRfc3339 fingerprint config s l = some t) :
    step parseRfc3339 fingerprint config s.rotation l.label = some t.rotation ∧
      t.renewed = l.renews parseRfc3339 := by
  unfold timedStep at h
  rw [Option.ite_none_right_eq_some] at h
  obtain ⟨rotation, hrotation, rfl⟩ := Option.map_eq_some_iff.mp h.2
  exact ⟨hrotation, rfl⟩

theorem moved {s t : Timed} {l : TimedLabel}
    (h : timedStep parseRfc3339 fingerprint config s l = some t) :
    Moved s t l (shown parseRfc3339 s l t) := by
  obtain ⟨hstep, hrenews⟩ := of_timedStep h
  cases l with
  | verify reply now =>
      obtain ⟨hphase, hstep⟩ := Option.ite_none_right_eq_some.mp hstep
      simp only [shown]
      cases hverify : verifyRunner parseRfc3339 reply with
      | none =>
          rw [hverify] at hstep
          rw [Option.some.inj hstep] at hphase
          exact .unverified hphase
      | some expiry =>
          rw [hverify] at hstep
          cases expiry with
          | none => exact .stopped (by rw [← Option.some.inj hstep])
          | some expiresAt =>
              refine .verified hphase ?_ ?_ hrenews
              · rw [← Option.some.inj hstep]
              · rw [← Option.some.inj hstep]
                rfl
  | wake now =>
      obtain ⟨hphase, heq⟩ := of_guard hstep
      exact .woke hphase (by rw [← heq]) (by rw [← heq])
  | saveOld saved =>
      simp only [TimedLabel.label, step] at hstep
      split at hstep
      · next hphase hexpiry =>
          cases saved with
          | true =>
              have heq := Option.some.inj hstep
              exact .sent hphase (by rw [← heq]) (by rw [← heq])
          | false => exact .stopped (by rw [← Option.some.inj hstep])
      · cases hstep
  | reset reply now saved =>
      obtain ⟨hphase, hreset⟩ := step_reset hstep
      simp only [shown]
      rcases hreset with ⟨new, newExpiry, hnew, heq⟩ | ⟨hnone, heq⟩
      · rw [hnew]
        cases newExpiry with
        | none => exact .stopped (by rw [heq]; rfl)
        | some expiresAt =>
            refine .renewed hphase (by rw [heq]; rfl) (by rw [heq]; rfl) ?_
            rw [hrenews, TimedLabel.renews, hnew]
            rfl
      · rw [hnone]
        refine .refused hphase (by rw [heq]) (by rw [heq]) ?_
        rw [hrenews, TimedLabel.renews, hnone]
        rfl
  | abort =>
      obtain ⟨-, heq⟩ := of_guard hstep
      exact .stopped (by rw [← heq])

/-! ## Whole runs -/

/-- A token that is waited for has an expiry. -/
def HasExpiry (s : Timed) : Prop :=
  s.rotation.phase = .verifying ∨ s.rotation.phase = .stopped ∨ s.rotation.expiry.isSome = true

theorem HasExpiry.step {s t : Timed} {l : TimedLabel} {es : List Event} (h : HasExpiry s)
    (hmove : Moved s t l es) : HasExpiry t := by
  have hkept : s.rotation.phase ≠ .verifying → s.rotation.phase ≠ .stopped →
      t.rotation.expiry = s.rotation.expiry → HasExpiry t := by
    intro hverifying hstopped hexpiry
    rcases h with h | h | h
    · exact absurd h hverifying
    · exact absurd h hstopped
    · exact .inr (.inr (by rw [hexpiry, h]))
  cases hmove with
  | stopped ht => exact .inr (.inl ht)
  | verified _ _ hexpiry _ => exact .inr (.inr hexpiry)
  | unverified ht => exact .inl ht
  | woke hs _ hexpiry => exact hkept (by simp [hs]) (by simp [hs]) hexpiry
  | sent hs _ hexpiry => exact hkept (by simp [hs]) (by simp [hs]) hexpiry
  | renewed _ _ hexpiry _ => exact .inr (.inr hexpiry)
  | refused hs _ hexpiry _ => exact hkept (by simp [hs]) (by simp [hs]) hexpiry

theorem hasExpiry_init (file : Option StoredToken) (clock : Int) :
    HasExpiry (timedInit fingerprint config file clock) := by
  cases hload : (load fingerprint config file).bind (·.expiresAt) with
  | none =>
      left
      simp only [timedInit, init, hload, Option.isSome_none]
      rfl
  | some expiresAt =>
      right
      right
      obtain ⟨stored, hstored, hexpires⟩ := Option.bind_eq_some_iff.mp hload
      simp [timedInit, init, hstored, hexpires]

/-- A request was just sent, or the token that it brought was just received. -/
def JustReset (s : Timed) : Prop :=
  s.rotation.phase = .resetting ∨ s.rotation.phase = .waiting ∧ s.renewed = true

theorem not_hot_of_phase {s : Timed} {hot : Bool}
    (hhot : hot = true → s.rotation.phase = .stopped ∨ JustReset s)
    (hs : s.rotation.phase = .verifying ∨ s.rotation.phase = .saving) : hot = false := by
  rw [Bool.eq_false_iff]
  intro h
  have hjust := hhot h
  rcases hs with hs | hs
  · simp [JustReset, hs] at hjust
  · simp [JustReset, hs] at hjust

/-- A token that was just received is waited for. -/
theorem wait_pos {s : Timed} {now : Int} (hs : s.rotation.phase = .waiting)
    (hjust : s.rotation.phase = .stopped ∨ JustReset s) (hexpiry : HasExpiry s)
    (hahead : NewTokenAhead s (.wake now)) : 0 < wait s.rotation now := by
  have hrenewed : s.renewed = true := by simpa [JustReset, hs] using hjust
  have hsome : s.rotation.expiry.isSome = true := by simpa [HasExpiry, hs] using hexpiry
  obtain ⟨token, htoken⟩ := Option.isSome_iff_exists.mp hsome
  have hlater : now < resetTime token.1 token.2 := hahead hrenewed token htoken
  rw [wait, htoken]
  show 0 < resetTime token.1 token.2 - now
  omega

/-- **The requests of a run are paced** when every new token is ahead of its time. -/
theorem paced_log {ls : List TimedLabel} : ∀ {s : Timed} {hot : Bool},
    (hot = true → s.rotation.phase = .stopped ∨ JustReset s) → HasExpiry s →
    Always (timedStep parseRfc3339 fingerprint config) NewTokenAhead s ls →
    Paced hot (log (timedStep parseRfc3339 fingerprint config) (shown parseRfc3339) s ls) := by
  induction ls with
  | nil => exact fun _ _ _ => trivial
  | cons l ls ih =>
      rintro s hot hhot hexpiry ⟨hahead, hrest⟩
      cases hstep : timedStep parseRfc3339 fingerprint config s l with
      | none =>
          rw [log_cons_none hstep]
          trivial
      | some t =>
          rw [hstep] at hrest
          rw [log_cons hstep]
          have hmove := moved hstep
          have hexpiry' : HasExpiry t := hexpiry.step hmove
          generalize shown parseRfc3339 s l t = es at hmove
          cases hmove with
          | stopped ht => exact ih (fun _ => .inl ht) hexpiry' hrest
          | verified hs _ _ _ =>
              -- no request is sent before the token is verified
              have hcool : hot = false := not_hot_of_phase hhot (.inl hs)
              exact ih (by simp [hcool]) hexpiry' hrest
          | unverified _ =>
              show Paced (hot && (60 * 60 == 0)) _
              exact ih (by simp) hexpiry' hrest
          | @woke now hs _ _ =>
              by_cases hwait : 0 < wait s.rotation now
              · rw [if_pos hwait]
                have hpos : ((wait s.rotation now).toNat == 0) = false := by
                  rw [beq_eq_false_iff_ne]
                  omega
                show Paced (hot && ((wait s.rotation now).toNat == 0)) _
                rw [hpos, Bool.and_false]
                exact ih (by simp) hexpiry' hrest
              · -- the token is due, so it is not one that was just received
                rw [if_neg hwait]
                have hcool : hot = false := by
                  rw [Bool.eq_false_iff]
                  exact fun h => hwait (wait_pos hs (hhot h) hexpiry hahead)
                rw [hcool]
                exact ih (by simp) hexpiry' hrest
          | sent hs ht _ =>
              have hcool : hot = false := not_hot_of_phase hhot (.inr hs)
              exact ⟨hcool, ih (fun _ => .inr (.inl ht)) hexpiry' hrest⟩
          | renewed _ ht _ hrenewed =>
              exact ih (fun _ => .inr (.inr ⟨ht, hrenewed⟩)) hexpiry' hrest
          | refused _ _ _ _ =>
              show Paced (hot && (retry == 0)) _
              exact ih (by simp [retry]) hexpiry' hrest

/-- The request that was just sent is the last event. -/
theorem endsWith_reset {ls : List TimedLabel} : ∀ {s t : Timed} {es : List Event},
    (JustReset s → ∃ before, es = before ++ [.resetSent]) →
    run (timedStep parseRfc3339 fingerprint config) s ls = some t → JustReset t →
    ∃ before, es ++ log (timedStep parseRfc3339 fingerprint config) (shown parseRfc3339) s ls =
      before ++ [.resetSent] := by
  induction ls with
  | nil =>
      intro s t es hs hrun ht
      obtain rfl := Option.some.inj hrun
      rw [log, List.append_nil]
      exact hs ht
  | cons l ls ih =>
      intro s t es hs hrun ht
      obtain ⟨u, hstep, hrun⟩ := run_cons_eq_some.mp hrun
      rw [log_cons hstep, ← List.append_assoc]
      refine ih ?_ hrun ht
      have hmove := moved hstep
      generalize shown parseRfc3339 s l u = new at hmove
      cases hmove with
      | stopped hu | unverified hu | woke _ hu _ =>
          rintro (h | ⟨h, -⟩) <;> rw [hu] at h <;> cases h
      | verified _ hu _ hold | refused _ hu _ hold =>
          rintro (h | ⟨-, h⟩)
          · rw [hu] at h
            cases h
          · rw [hold] at h
            cases h
      | sent _ _ _ => exact fun _ => ⟨es, rfl⟩
      | renewed hphase _ _ _ =>
          intro _
          rw [List.append_nil]
          exact hs (.inl hphase)

/-- **A new token that is due is reset again at once.** -/
theorem not_sleeps_of_due {ls : List TimedLabel} {file : Option StoredToken} {clock now : Int}
    {s : Timed}
    (hrun : run (timedStep parseRfc3339 fingerprint config)
      (timedInit fingerprint config file clock) ls = some s)
    (hphase : s.rotation.phase = .waiting) (hclock : s.clock ≤ now)
    (hdue : ¬ NewTokenAhead s (.wake now)) :
    ¬ SleepsBetweenResets
      (events parseRfc3339 fingerprint config file clock (ls ++ [.wake now, .saveOld true])) := by
  simp only [NewTokenAhead, Classical.not_imp, not_forall, not_lt] at hdue
  obtain ⟨hrenewed, token, htoken, hle⟩ := hdue
  have hstart : JustReset (timedInit fingerprint config file clock) →
      ∃ before, ([] : List Event) = before ++ [.resetSent] := by
    rintro (h | ⟨-, h⟩)
    · simp only [timedInit, init] at h
      split at h <;> cases h
    · cases h
  obtain ⟨before, hbefore⟩ := endsWith_reset hstart hrun (.inr ⟨hphase, hrenewed⟩)
  rw [List.nil_append] at hbefore
  -- the wait is over, and the token in use can be saved
  have hwake : timedStep parseRfc3339 fingerprint config s (.wake now) =
      some ⟨{ s.rotation with phase := .saving }, now, false⟩ := by
    simp only [timedStep, TimedLabel.reading, TimedLabel.label, TimedLabel.renews, step, hphase,
      Option.getD_some, if_pos hclock, if_true, Option.map_some]
  have hwait : ¬ 0 < wait s.rotation now := by
    rw [wait, Option.mem_def.mp htoken]
    show ¬ 0 < resetTime token.1 token.2 - now
    omega
  have hsave : ∃ t, timedStep parseRfc3339 fingerprint config
      ⟨{ s.rotation with phase := .saving }, now, false⟩ (.saveOld true) = some t := by
    simp only [timedStep, TimedLabel.reading, TimedLabel.label, step, Option.mem_def.mp htoken,
      Option.getD_none, le_refl, if_true, Option.map_some]
    exact ⟨_, rfl⟩
  obtain ⟨t, hsave⟩ := hsave
  intro hsleeps
  have hevents : events parseRfc3339 fingerprint config file clock
      (ls ++ [.wake now, .saveOld true]) = before ++ .resetSent :: ([] ++ .resetSent :: []) := by
    rw [events, log_append hrun, hbefore, log_cons hwake, log_cons hsave]
    simp [shown, hwait, log]
  obtain ⟨secs, -, hmem⟩ := hsleeps before [] [] hevents
  cases hmem

/-- **The rotation sleeps between any two resets if every new token is ahead of its time**, and
after a new token that is not it can send the next request at once. -/
theorem sleeps_between_resets (parseRfc3339 : Chars → Option Int) (fingerprint : Chars → Chars)
    (config : Config) (file : Option StoredToken) (clock : Int) (ls : List TimedLabel) :
    (Always (timedStep parseRfc3339 fingerprint config) NewTokenAhead
        (timedInit fingerprint config file clock) ls →
      SleepsBetweenResets (events parseRfc3339 fingerprint config file clock ls)) ∧
    ∀ s now, run (timedStep parseRfc3339 fingerprint config)
        (timedInit fingerprint config file clock) ls = some s →
      s.rotation.phase = .waiting → s.clock ≤ now → ¬ NewTokenAhead s (.wake now) →
      ¬ SleepsBetweenResets
        (events parseRfc3339 fingerprint config file clock (ls ++ [.wake now, .saveOld true])) := by
  constructor
  · intro hahead
    have hpaced : Paced false (events parseRfc3339 fingerprint config file clock ls) :=
      paced_log (by simp) (hasExpiry_init file clock) hahead
    exact hpaced.sleepsBetweenResets
  · exact fun s now hrun hphase hclock hdue => not_sleeps_of_due hrun hphase hclock hdue

end Moves

/-- By the clock of the runner, which is ahead of that of GitLab, the new token that it gets at
00:12:30 has expired at 00:12. -/
def lateTimes (text : Chars) : Option Int :=
  if text = "2030-01-01T00:16:40Z".toList then some (1893456000 + 1000)
  else if text = "2030-01-01T00:12:00Z".toList then some (1893456000 + 720)
  else none

/-- **A request right after another one.** -/
theorem not_sleepsBetweenResets :
    events lateTimes id exampleConfig none 1893456000
        [.verify (.response 200 (tokenBody "glrt-config" "2030-01-01T00:16:40Z")) 1893456000,
          .wake 1893456000, .saveOld true,
          .reset (.response 201 (tokenBody "glrt-new" "2030-01-01T00:12:00Z")) 1893456750 true,
          .wake 1893456750, .saveOld true] =
      [.slept 750, .resetSent, .resetSent] ∧
    ¬ SleepsBetweenResets [.slept 750, .resetSent, .resetSent] := by
  refine ⟨by decide, fun h => ?_⟩
  obtain ⟨secs, -, hmem⟩ := h [.slept 750] [] [] rfl
  cases hmem

end TokenRotation

end TurboCi
