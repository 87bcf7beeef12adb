import TurboCi.Lib.Runs
import TurboCi.Security.DefaultPatterns
import TurboCi.Security.JobSecrets

set_option autoImplicit false

/-! # Rotating the runner token

`RunnerDaemon::rotate_token` asks GitLab when the runner's token expires and resets it in time
(`runner_daemon/mod.rs`, `runner_daemon/token.rs`, and the two requests in `gitlab/mod.rs`). A
reset invalidates the old token at once. The reply with the new token is given up when the expiry
in it cannot be read, though the token can (`reset_adopts_iff`).

The fingerprint of a token and the parser of RFC 3339 times are parameters. The locks around the
token and the scrubber are only held to assign the one and to add a secret to the other, and are
never poisoned; the file of the token store is written whole or not at all.
-/

namespace TurboCi

open Runs Utf8

namespace TokenRotation

/-! ## Replies -/

/-- A value in a body, as far as it is told apart. -/
inductive JsonValue where
  | null
  | string (text : Chars)
  | other

inductive Body where
  /-- an object, by the names of its members -/
  | object (member : Chars → Option JsonValue)
  | array (elements : List JsonValue)
  /-- another value, no JSON, or not received -/
  | other

inductive Reply where
  | failed
  | response (status : Nat) (body : Body)

/-- The values of `token` and `token_expires_at`; a missing member is null. -/
def Body.fields : Body → Option (JsonValue × JsonValue)
  | .object member =>
      some ((member "token".toList).getD .null, (member "token_expires_at".toList).getD .null)
  | .array [token, tokenExpiresAt] => some (token, tokenExpiresAt)
  | .array _ | .other => none

/-- Deserialises an `Option<String>`. -/
def JsonValue.optionString : JsonValue → Option (Option Chars)
  | .null => some none
  | .string text => some (some text)
  | .other => none

/-- Body of the runner verify and token reset responses. -/
structure TokenResponse where
  token : Option Chars
  tokenExpiresAt : Option Chars

def TokenResponse.ofBody (body : Body) : Option TokenResponse :=
  match body.fields with
  | none => none
  | some (token, tokenExpiresAt) =>
      match token.optionString, tokenExpiresAt.optionString with
      | some token, some tokenExpiresAt => some ⟨token, tokenExpiresAt⟩
      | _, _ => none

section Requests

variable (parseRfc3339 : Chars → Option Int)

/-- When the token expires, or never; `none` for a time that cannot be read. -/
def TokenResponse.expiresAt (body : TokenResponse) : Option (Option Int) :=
  match body.tokenExpiresAt.filter (· ≠ []) with
  | none => some none
  | some tokenExpiresAt => (parseRfc3339 tokenExpiresAt).map some

/-- What `verify_runner` makes of the reply. -/
def verifyRunner : Reply → Option (Option Int)
  | .failed => none
  | .response status body =>
      if status = 200 ∨ status = 201 then
        (TokenResponse.ofBody body).bind (·.expiresAt parseRfc3339)
      else none

/-- What `reset_runner_token` makes of the reply. -/
def resetRunnerToken : Reply → Option (Chars × Option Int)
  | .failed => none
  | .response status body =>
      if status = 200 ∨ status = 201 then
        match TokenResponse.ofBody body with
        | none => none
        | some body =>
            match body.token.filter (· ≠ []) with
            | none => none
            | some token => (body.expiresAt parseRfc3339).map fun expiresAt => (token, expiresAt)
      else none

end Requests

/-! ## The token store -/

structure StoredToken where
  /-- fingerprint of the config token that this one replaces -/
  replaces : Chars
  token : Chars
  obtainedAt : Int
  expiresAt : Option Int
  deriving DecidableEq

/-- The parts of the configuration that the daemon's secrets come from. -/
structure Config where
  runnerToken : Chars
  gitlabUrl : Chars := []
  proxy : Option Chars := none
  deriving DecidableEq

section Store

variable (fingerprint : Chars → Chars) (config : Config)

/-- The rotated token, unless the config token was changed since. -/
def load (file : Option StoredToken) : Option StoredToken :=
  file.filter fun stored =>
    stored.replaces = fingerprint config.runnerToken ∧ stored.token ≠ []

/-- The token that a daemon starts with. -/
def startToken (file : Option StoredToken) : Chars :=
  match load fingerprint config file with
  | some stored => stored.token
  | none => config.runnerToken

def addToken (scrubber : SecretScrubber) (token : Chars) : SecretScrubber :=
  scrubber.addSecret (Str.ofChars token)

/-- The secrets that a daemon starts with. -/
def startScrubber (file : Option StoredToken) : SecretScrubber :=
  let scrubber := addToken (SecretScrubber.new [Str.ofChars config.runnerToken])
    (startToken fingerprint config file)
  let scrubber := if '@' ∈ config.gitlabUrl then addToken scrubber config.gitlabUrl else scrubber
  match config.proxy.filter ('@' ∈ ·) with
  | some proxy => addToken scrubber proxy
  | none => scrubber

end Store

/-! ## The rotation -/

inductive Phase where
  /-- the request for the expiry is in flight, or will be sent again -/
  | verifying
  /-- until the token is due -/
  | waiting
  /-- holds the lock `rotating` -/
  | saving
  /-- the reset is in flight -/
  | resetting
  | stopped
  deriving DecidableEq

structure State where
  token : Chars
  scrubber : SecretScrubber
  /-- the file of the token store, as far as a token can be read from it -/
  file : Option StoredToken
  /-- when the token was obtained and when it expires -/
  expiry : Option (Int × Int)
  phase : Phase

inductive Label where
  | verify (reply : Reply) (now : Int)
  /-- the token is due, and the lock is taken -/
  | wake
  /-- the token in use is saved before it is reset, or cannot be -/
  | saveOld (saved : Bool)
  /-- the reply to a reset; whether a new token can be saved -/
  | reset (reply : Reply) (now : Int) (saved : Bool)
  /-- the daemon stops; not while the lock is held -/
  | abort

section Rotation

variable (parseRfc3339 : Chars → Option Int) (fingerprint : Chars → Chars) (config : Config)

/-- `TokenStore::save` -/
def save (token : Chars) (obtainedAt : Int) (expiresAt : Option Int) : Option StoredToken :=
  some ⟨fingerprint config.runnerToken, token, obtainedAt, expiresAt⟩

/-- A new token is in use, whether or not it could be saved. -/
def adopt (s : State) (new : Chars) (newExpiry : Option Int) (now : Int) (saved : Bool) :
    State where
  token := new
  scrubber := addToken s.scrubber new
  file := if saved then save fingerprint config new now newExpiry else s.file
  expiry := match newExpiry with
    | some expiresAt => some (now, expiresAt)
    | none => s.expiry
  phase := if newExpiry.isSome then .waiting else .stopped

def step (s : State) : Label → Option State
  | .verify reply now =>
      if s.phase = .verifying then
        match verifyRunner parseRfc3339 reply with
        | some (some expiresAt) =>
            some { s with expiry := some (now, expiresAt), phase := .waiting }
        -- the token does not expire
        | some none => some { s with phase := .stopped }
        | none => some s
      else none
  | .wake => if s.phase = .waiting then some { s with phase := .saving } else none
  | .saveOld saved =>
      match s.phase, s.expiry with
      | .saving, some (obtainedAt, expiresAt) =>
          if saved then
            some { s with
              file := save fingerprint config s.token obtainedAt (some expiresAt)
              phase := .resetting }
          else some { s with phase := .stopped }
      | _, _ => none
  | .reset reply now saved =>
      if s.phase = .resetting then
        match resetRunnerToken parseRfc3339 reply with
        | some (new, newExpiry) => some (adopt fingerprint config s new newExpiry now saved)
        -- tried again later
        | none => some { s with phase := .waiting }
      else none
  | .abort =>
      if s.phase = .verifying ∨ s.phase = .waiting then some { s with phase := .stopped } else none

/-- A daemon that has just started, with what the file of the token store holds. -/
def init (file : Option StoredToken) : State where
  token := startToken fingerprint config file
  scrubber := startScrubber fingerprint config file
  file := file
  expiry := (load fingerprint config file).bind fun stored =>
    stored.expiresAt.map fun expiresAt => (stored.obtainedAt, expiresAt)
  phase :=
    if ((load fingerprint config file).bind (·.expiresAt)).isSome then .waiting else .verifying

end Rotation

/-! ## What replies carry -/

/-- The new token in the reply to a reset. -/
def carried : Reply → Option Chars
  | .failed => none
  | .response status body =>
      if status = 200 ∨ status = 201 then
        match body.fields with
        | some (.string token, _) => if token = [] then none else some token
        | _ => none
      else none

/-- The expiry in the value is missing, null, empty or an RFC 3339 time. -/
def JsonValue.IsExpiry (parseRfc3339 : Chars → Option Int) : JsonValue → Prop
  | .null => True
  | .string text => text = [] ∨ (parseRfc3339 text).isSome
  | .other => False

/-- The expiry in the reply can be read. -/
def ExpiryReadable (parseRfc3339 : Chars → Option Int) : Reply → Prop
  | .failed => False
  | .response _ body =>
      match body.fields with
      | some (_, tokenExpiresAt) => tokenExpiresAt.IsExpiry parseRfc3339
      | none => False

theorem carried_eq_some {reply : Reply} {token : Chars} (h : carried reply = some token) :
    token ≠ [] ∧ ∃ status body tokenExpiresAt, reply = .response status body ∧
      (status = 200 ∨ status = 201) ∧ body.fields = some (.string token, tokenExpiresAt) := by
  cases reply with
  | failed => cases h
  | response status body =>
      obtain ⟨hstatus, h⟩ := Option.ite_none_right_eq_some.mp h
      cases hfields : body.fields with
      | none =>
          rw [hfields] at h
          cases h
      | some fields =>
          obtain ⟨tokenValue, tokenExpiresAt⟩ := fields
          rw [hfields] at h
          cases tokenValue with
          | null => cases h
          | other => cases h
          | string text =>
              obtain ⟨hne, heq⟩ := Option.ite_none_left_eq_some.mp h
              obtain rfl := Option.some.inj heq
              exact ⟨hne, status, body, tokenExpiresAt, rfl, hstatus, hfields⟩

/-- The expiry of a deserialised body can be read exactly if its value is one. -/
theorem isExpiry_iff (parseRfc3339 : Chars → Option Int) (token : Chars) (value : JsonValue) :
    value.IsExpiry parseRfc3339 ↔ ∃ text, value.optionString = some text ∧
      ((TokenResponse.mk (some token) text).expiresAt parseRfc3339).isSome := by
  cases value with
  | null => exact ⟨fun _ => ⟨none, rfl, rfl⟩, fun _ => trivial⟩
  | other =>
      constructor
      · exact False.elim
      · rintro ⟨text, htext, -⟩
        cases htext
  | string text =>
      have hexpires : ((TokenResponse.mk (some token) (some text)).expiresAt parseRfc3339).isSome ↔
          text = [] ∨ (parseRfc3339 text).isSome := by
        unfold TokenResponse.expiresAt
        by_cases htext : text = []
        · subst htext
          exact ⟨fun _ => .inl rfl, fun _ => rfl⟩
        · have hfilter : (some text).filter (· ≠ []) = some text := by simp [htext]
          simp only [hfilter, Option.isSome_map, htext, false_or]
      constructor
      · exact fun h => ⟨some text, rfl, hexpires.mpr h⟩
      · rintro ⟨text', htext', h⟩
        obtain rfl := Option.some.inj htext'
        exact hexpires.mp h

/-- **A token that a reply carries is returned exactly if the expiry can be read.** -/
theorem resetRunnerToken_of_carried (parseRfc3339 : Chars → Option Int) {reply : Reply}
    {token : Chars} (h : carried reply = some token) :
    (ExpiryReadable parseRfc3339 reply →
      ∃ newExpiry, resetRunnerToken parseRfc3339 reply = some (token, newExpiry)) ∧
    (¬ ExpiryReadable parseRfc3339 reply → resetRunnerToken parseRfc3339 reply = none) := by
  obtain ⟨hne, status, body, value, rfl, hstatus, hfields⟩ := carried_eq_some h
  have hfilter : (some token).filter (· ≠ []) = some token := by simp [hne]
  have hreadable : ExpiryReadable parseRfc3339 (.response status body) ↔
      value.IsExpiry parseRfc3339 := by
    simp only [ExpiryReadable, hfields]
  have htoken : (JsonValue.string token).optionString = some (some token) := rfl
  rw [hreadable, isExpiry_iff parseRfc3339 token]
  cases htext : value.optionString with
  | none =>
      constructor
      · rintro ⟨text, heq, -⟩
        cases heq
      · simp only [resetRunnerToken, if_pos hstatus, TokenResponse.ofBody, hfields, htoken, htext,
          implies_true]
  | some text =>
      simp only [resetRunnerToken, if_pos hstatus, TokenResponse.ofBody, hfields, htoken, htext,
        hfilter]
      cases hexpires : (TokenResponse.mk (some token) text).expiresAt parseRfc3339 with
      | some newExpiry =>
          constructor
          · exact fun _ => ⟨newExpiry, rfl⟩
          · intro hunreadable
            exact absurd ⟨text, rfl, by rw [hexpires]; rfl⟩ hunreadable
      | none =>
          constructor
          · rintro ⟨text', heq, hsome⟩
            obtain rfl := Option.some.inj heq
            rw [hexpires] at hsome
            cases hsome
          · exact fun _ => rfl

/-! ## Runs -/

section Runs

variable (parseRfc3339 : Chars → Option Int) (fingerprint : Chars → Chars) (config : Config)

/-- The new token is in use, masked, and what a restart begins with if it could be saved. -/
structure Adopts (s : State) (token : Chars) (saved : Bool) : Prop where
  inUse : s.token = token
  masked : Str.ofChars token ∈ s.scrubber.secrets
  restart : saved = true → (init fingerprint config s.file).token = token

/-- What holds in every state of the rotation. -/
structure Inv (s : State) : Prop where
  masked : s.token ≠ [] → Str.ofChars s.token ∈ s.scrubber.secrets
  /-- only the token of the config can be empty -/
  empty : s.token = [] → config.runnerToken = []
  saved : s.phase = .resetting → startToken fingerprint config s.file = s.token

variable {parseRfc3339 fingerprint config}

theorem mem_addToken_self (scrubber : SecretScrubber) {token : Chars} (h : token ≠ []) :
    Str.ofChars token ∈ (addToken scrubber token).secrets := by
  refine SecretScrubber.mem_addSecret.mpr (.inr ⟨rfl, fun hbytes => h ?_⟩)
  exact encode_injective hbytes

theorem mem_addToken {scrubber : SecretScrubber} {secret : Str} (token : Chars)
    (h : secret ∈ scrubber.secrets) : secret ∈ (addToken scrubber token).secrets :=
  SecretScrubber.mem_addSecret.mpr (.inl h)

/-- A saved token is loaded again, if it is not empty. -/
theorem startToken_save {token : Chars} {obtainedAt : Int} {expiresAt : Option Int}
    (h : token = [] → config.runnerToken = []) :
    startToken fingerprint config (save fingerprint config token obtainedAt expiresAt) =
      token := by
  unfold startToken load save
  by_cases htoken : token = []
  · have hnone : (some (StoredToken.mk (fingerprint config.runnerToken) token obtainedAt
        expiresAt)).filter (fun stored => stored.replaces = fingerprint config.runnerToken ∧
          stored.token ≠ []) = none := by simp [htoken]
    rw [hnone, htoken, h htoken]
  · have hsome : (some (StoredToken.mk (fingerprint config.runnerToken) token obtainedAt
        expiresAt)).filter (fun stored => stored.replaces = fingerprint config.runnerToken ∧
          stored.token ≠ []) =
        some ⟨fingerprint config.runnerToken, token, obtainedAt, expiresAt⟩ := by simp [htoken]
    rw [hsome]

theorem inv_init (file : Option StoredToken) :
    Inv fingerprint config (init fingerprint config file) where
  masked h := by
    have hstart : Str.ofChars (startToken fingerprint config file) ∈
        (addToken (SecretScrubber.new [Str.ofChars config.runnerToken])
          (startToken fingerprint config file)).secrets := mem_addToken_self _ h
    show Str.ofChars (startToken fingerprint config file) ∈
      (startScrubber fingerprint config file).secrets
    unfold startScrubber
    have hurl := mem_addToken config.gitlabUrl hstart
    cases config.proxy.filter ('@' ∈ ·) with
    | none =>
        show _ ∈ (if _ then _ else _ : SecretScrubber).secrets
        split
        · exact hurl
        · exact hstart
    | some proxy =>
        refine mem_addToken proxy ?_
        split
        · exact hurl
        · exact hstart
  empty h := by
    have hstart : startToken fingerprint config file = [] := h
    unfold startToken at hstart
    cases hload : load fingerprint config file with
    | none =>
        rw [hload] at hstart
        exact hstart
    | some stored =>
        rw [hload] at hstart
        have hstored := (Option.filter_eq_some_iff.mp hload).2
        simp only [decide_eq_true_eq] at hstored
        exact absurd hstart hstored.2
  saved h := by
    have hphase : (init fingerprint config file).phase ≠ .resetting := by
      unfold init
      simp only
      split <;> simp
    exact absurd h hphase

/-- The token, the secrets and the file stay, and no reset begins. -/
theorem Inv.of_phase {s s' : State} (h : Inv fingerprint config s) (htoken : s'.token = s.token)
    (hscrubber : s'.scrubber = s.scrubber) (hphase : s'.phase ≠ .resetting) :
    Inv fingerprint config s' where
  masked := by
    rw [htoken, hscrubber]
    exact h.masked
  empty := by
    rw [htoken]
    exact h.empty
  saved heq := absurd heq hphase

theorem inv_adopt {s : State} {new : Chars} {newExpiry : Option Int} {now : Int} {saved : Bool}
    (hnew : new ≠ []) : Inv fingerprint config (adopt fingerprint config s new newExpiry now saved)
    where
  masked _ := mem_addToken_self s.scrubber hnew
  empty h := absurd h hnew
  saved h := by
    cases newExpiry <;> cases h

/-- A token that is adopted was carried by the reply. -/
theorem carried_of_resetRunnerToken {reply : Reply} {new : Chars} {newExpiry : Option Int}
    (h : resetRunnerToken parseRfc3339 reply = some (new, newExpiry)) :
    carried reply = some new := by
  cases reply with
  | failed => cases h
  | response status body =>
      simp only [resetRunnerToken] at h
      split at h
      · next hstatus =>
          cases hfields : body.fields with
          | none =>
              simp only [TokenResponse.ofBody, hfields] at h
              cases h
          | some fields =>
              obtain ⟨tokenValue, value⟩ := fields
              simp only [TokenResponse.ofBody, hfields] at h
              cases htext : value.optionString with
              | none =>
                  rw [htext] at h
                  cases tokenValue <;> cases h
              | some text =>
                  rw [htext] at h
                  cases tokenValue with
                  | null => cases h
                  | other => cases h
                  | string token =>
                      have hstring : (JsonValue.string token).optionString = some (some token) :=
                        rfl
                      rw [hstring] at h
                      by_cases hne : token = []
                      · have hfilter : (some token).filter (· ≠ []) = none := by simp [hne]
                        simp only [hfilter] at h
                        cases h
                      · have hfilter : (some token).filter (· ≠ []) = some token := by simp [hne]
                        simp only [hfilter] at h
                        obtain ⟨expiresAt, -, heq⟩ := Option.map_eq_some_iff.mp h
                        obtain ⟨rfl, rfl⟩ := Prod.mk.inj heq
                        simp only [carried, if_pos hstatus, hfields, if_neg hne]
      · cases h

/-- The new token that a step receives. -/
def Label.carried : Label → Option Chars
  | .reset reply _ _ => TokenRotation.carried reply
  | .verify _ _ | .wake | .saveOld _ | .abort => none

/-- What a reset does. -/
theorem step_reset {s s' : State} {reply : Reply} {now : Int} {saved : Bool}
    (h : step parseRfc3339 fingerprint config s (.reset reply now saved) = some s') :
    s.phase = .resetting ∧
      ((∃ new newExpiry, resetRunnerToken parseRfc3339 reply = some (new, newExpiry) ∧
          s' = adopt fingerprint config s new newExpiry now saved) ∨
        resetRunnerToken parseRfc3339 reply = none ∧ s' = { s with phase := .waiting }) := by
  obtain ⟨hphase, h⟩ := Option.ite_none_right_eq_some.mp h
  refine ⟨hphase, ?_⟩
  cases hreset : resetRunnerToken parseRfc3339 reply with
  | none =>
      rw [hreset] at h
      exact .inr ⟨rfl, (Option.some.inj h).symm⟩
  | some x =>
      obtain ⟨new, newExpiry⟩ := x
      rw [hreset] at h
      exact .inl ⟨new, newExpiry, rfl, (Option.some.inj h).symm⟩

/-- What saving the token in use does. -/
theorem step_saveOld {s s' : State} {saved : Bool}
    (h : step parseRfc3339 fingerprint config s (.saveOld saved) = some s') :
    (∃ obtainedAt expiresAt, s' = { s with
        file := save fingerprint config s.token obtainedAt (some expiresAt)
        phase := .resetting }) ∨ s' = { s with phase := .stopped } := by
  simp only [step] at h
  split at h
  · next obtainedAt expiresAt _ _ =>
      split at h
      · exact .inl ⟨obtainedAt, expiresAt, (Option.some.inj h).symm⟩
      · exact .inr (Option.some.inj h).symm
  · cases h

/-- The other steps change nothing but the phase and the expiry. -/
theorem step_other {s s' : State} {l : Label}
    (h : step parseRfc3339 fingerprint config s l = some s')
    (hsave : ∀ saved, l ≠ .saveOld saved) (hreset : ∀ reply now saved, l ≠ .reset reply now saved) :
    s'.token = s.token ∧ s'.scrubber = s.scrubber ∧ s'.file = s.file ∧ s'.phase ≠ .resetting := by
  cases l with
  | verify reply now =>
      obtain ⟨hphase, h⟩ := Option.ite_none_right_eq_some.mp h
      cases hverify : verifyRunner parseRfc3339 reply with
      | none =>
          rw [hverify] at h
          obtain rfl := Option.some.inj h
          exact ⟨rfl, rfl, rfl, by simp [hphase]⟩
      | some expiry =>
          rw [hverify] at h
          cases expiry <;> obtain rfl := Option.some.inj h <;> exact ⟨rfl, rfl, rfl, by simp⟩
  | wake =>
      obtain ⟨-, rfl⟩ := of_guard h
      exact ⟨rfl, rfl, rfl, by simp⟩
  | saveOld saved => exact absurd rfl (hsave saved)
  | reset reply now saved => exact absurd rfl (hreset reply now saved)
  | abort =>
      obtain ⟨-, rfl⟩ := of_guard h
      exact ⟨rfl, rfl, rfl, by simp⟩

variable (parseRfc3339 fingerprint config) in
/-- What a step does. -/
inductive Stepped (s : State) : Label → State → Prop where
  /-- The token in use is saved with what is known of its expiry. -/
  | oldSaved {saved : Bool} (obtainedAt expiresAt : Int) :
      Stepped s (.saveOld saved) { s with
        file := save fingerprint config s.token obtainedAt (some expiresAt)
        phase := .resetting }
  | stopped {saved : Bool} : Stepped s (.saveOld saved) { s with phase := .stopped }
  | adopted {reply : Reply} {now : Int} {saved : Bool} {new : Chars} {newExpiry : Option Int}
      (hnew : resetRunnerToken parseRfc3339 reply = some (new, newExpiry)) :
      Stepped s (.reset reply now saved) (adopt fingerprint config s new newExpiry now saved)
  | refused {reply : Reply} {now : Int} {saved : Bool}
      (hnone : resetRunnerToken parseRfc3339 reply = none) :
      Stepped s (.reset reply now saved) { s with phase := .waiting }
  | other {l : Label} {s' : State} (hcarried : l.carried = none) (htoken : s'.token = s.token)
      (hscrubber : s'.scrubber = s.scrubber) (hfile : s'.file = s.file)
      (hphase : s'.phase ≠ .resetting) : Stepped s l s'

theorem stepped {s s' : State} {l : Label}
    (h : step parseRfc3339 fingerprint config s l = some s') :
    Stepped parseRfc3339 fingerprint config s l s' := by
  cases l with
  | saveOld saved =>
      rcases step_saveOld h with ⟨obtainedAt, expiresAt, rfl⟩ | rfl
      · exact .oldSaved obtainedAt expiresAt
      · exact .stopped
  | reset reply now saved =>
      rcases (step_reset h).2 with ⟨new, newExpiry, hnew, rfl⟩ | ⟨hnone, rfl⟩
      · exact .adopted hnew
      · exact .refused hnone
  | verify reply now =>
      obtain ⟨htoken, hscrubber, hfile, hphase⟩ := step_other h (by simp) (by simp)
      exact .other rfl htoken hscrubber hfile hphase
  | wake =>
      obtain ⟨htoken, hscrubber, hfile, hphase⟩ := step_other h (by simp) (by simp)
      exact .other rfl htoken hscrubber hfile hphase
  | abort =>
      obtain ⟨htoken, hscrubber, hfile, hphase⟩ := step_other h (by simp) (by simp)
      exact .other rfl htoken hscrubber hfile hphase

theorem inv_step {s s' : State} {l : Label} (hi : Inv fingerprint config s)
    (h : step parseRfc3339 fingerprint config s l = some s') : Inv fingerprint config s' := by
  cases stepped h with
  | oldSaved obtainedAt expiresAt =>
      exact ⟨hi.masked, hi.empty, fun _ => startToken_save hi.empty⟩
  | stopped => exact hi.of_phase rfl rfl (by simp)
  | adopted hnew => exact inv_adopt (carried_eq_some (carried_of_resetRunnerToken hnew)).1
  | refused hnone => exact hi.of_phase rfl rfl (by simp)
  | other _ htoken hscrubber _ hphase => exact hi.of_phase htoken hscrubber hphase

theorem inv_run {file : Option StoredToken} {ls : List Label} {s : State}
    (hrun : run (step parseRfc3339 fingerprint config) (init fingerprint config file) ls = some s) :
    Inv fingerprint config s :=
  invariant (fun _ _ _ hi hs => inv_step hi hs) (inv_init file) hrun

/-- **The new token of a reply is adopted exactly if the expiry can be read**, or the runner has
it already. -/
theorem adopts_iff {s s' : State} {reply : Reply} {now : Int} {saved : Bool} {token : Chars}
    (hi : Inv fingerprint config s) (hcarried : carried reply = some token)
    (h : step parseRfc3339 fingerprint config s (.reset reply now saved) = some s') :
    Adopts fingerprint config s' token saved ↔
      ExpiryReadable parseRfc3339 reply ∨ token = s.token := by
  obtain ⟨hphase, hstep⟩ := step_reset h
  obtain ⟨hreadable, hunreadable⟩ := resetRunnerToken_of_carried parseRfc3339 hcarried
  have hne : token ≠ [] := (carried_eq_some hcarried).1
  by_cases hexpiry : ExpiryReadable parseRfc3339 reply
  · obtain ⟨newExpiry, hreset⟩ := hreadable hexpiry
    obtain ⟨new, newExpiry', hnew, rfl⟩ : ∃ new newExpiry',
        resetRunnerToken parseRfc3339 reply = some (new, newExpiry') ∧
          s' = adopt fingerprint config s new newExpiry' now saved := by
      rcases hstep with hadopt | ⟨hnone, -⟩
      · exact hadopt
      · rw [hreset] at hnone
        cases hnone
    rw [hreset] at hnew
    obtain ⟨rfl, rfl⟩ := Prod.mk.inj (Option.some.inj hnew)
    refine iff_of_true ⟨rfl, mem_addToken_self _ hne, fun hsaved => ?_⟩ (.inl hexpiry)
    subst hsaved
    exact startToken_save fun hempty => absurd hempty hne
  · obtain rfl : s' = { s with phase := .waiting } := by
      rcases hstep with ⟨new, newExpiry, hnew, -⟩ | ⟨-, heq⟩
      · rw [hunreadable hexpiry] at hnew
        cases hnew
      · exact heq
    constructor
    · intro hadopts
      exact .inr hadopts.inUse.symm
    · rintro (hexpiry' | rfl)
      · exact absurd hexpiry' hexpiry
      · -- the token was saved before the reset
        exact ⟨rfl, hi.masked hne, fun _ => hi.saved hphase⟩

/-! ### Over a run -/

/-- The last new token that was received. -/
def lastCarried : List Label → Option Chars
  | [] => none
  | l :: ls => (lastCarried ls).or l.carried

/-- If a new token comes with the reply, so does an expiry that can be read. -/
def Label.Readable (parseRfc3339 : Chars → Option Int) : Label → Prop
  | .reset reply _ _ => (TokenRotation.carried reply).isSome → ExpiryReadable parseRfc3339 reply
  | .verify _ _ | .wake | .saveOld _ | .abort => True

/-- A new token can be saved. -/
def Label.Saves : Label → Prop
  | .reset _ _ saved => saved = true
  | .verify _ _ | .wake | .saveOld _ | .abort => True

/-- The token in use after a step whose expiry can be read. -/
theorem token_step {s s' : State} {l : Label} (hreadable : l.Readable parseRfc3339)
    (h : step parseRfc3339 fingerprint config s l = some s') :
    s'.token = l.carried.getD s.token := by
  cases stepped h with
  | oldSaved obtainedAt expiresAt => rfl
  | stopped => rfl
  | @adopted reply _ _ new newExpiry hnew =>
      show new = (carried reply).getD s.token
      rw [carried_of_resetRunnerToken hnew]
      rfl
  | @refused reply _ _ hnone =>
      show s.token = (carried reply).getD s.token
      cases hcarried : carried reply with
      | none => rfl
      | some token =>
          -- a token that comes with a readable expiry is not refused
          obtain ⟨newExpiry, hnew⟩ := (resetRunnerToken_of_carried parseRfc3339 hcarried).1
            (hreadable (by rw [hcarried]; rfl))
          rw [hnone] at hnew
          cases hnew
  | other hcarried htoken =>
      rw [hcarried, htoken]
      rfl

/-- **The token in use is the last one received**, in a run in which every expiry can be read. -/
theorem token_run {ls : List Label} : ∀ {s s' : State},
    (∀ l ∈ ls, l.Readable parseRfc3339) →
    run (step parseRfc3339 fingerprint config) s ls = some s' →
    s'.token = (lastCarried ls).getD s.token := by
  induction ls with
  | nil =>
      intro s s' _ hrun
      obtain rfl := Option.some.inj hrun
      rfl
  | cons l ls ih =>
      intro s s' hreadable hrun
      obtain ⟨t, ht, hrun⟩ := run_cons_eq_some.mp hrun
      rw [ih (fun l' hl' => hreadable l' (List.mem_cons_of_mem _ hl')) hrun,
        token_step (hreadable l List.mem_cons_self) ht, lastCarried]
      cases lastCarried ls <;> rfl

/-- A restart begins with the token in use. -/
theorem restart_step {s s' : State} {l : Label} (hi : Inv fingerprint config s)
    (hfile : startToken fingerprint config s.file = s.token) (hsaves : l.Saves)
    (h : step parseRfc3339 fingerprint config s l = some s') :
    startToken fingerprint config s'.file = s'.token := by
  cases stepped h with
  | oldSaved obtainedAt expiresAt => exact startToken_save hi.empty
  | stopped => exact hfile
  | @adopted _ _ saved _ _ hnew =>
      obtain rfl : saved = true := hsaves
      have hne := (carried_eq_some (carried_of_resetRunnerToken hnew)).1
      exact startToken_save fun hempty => absurd hempty hne
  | refused hnone => exact hfile
  | other _ htoken _ hkept =>
      rw [htoken, hkept]
      exact hfile

theorem restart_run {ls : List Label} : ∀ {s s' : State}, Inv fingerprint config s →
    startToken fingerprint config s.file = s.token → (∀ l ∈ ls, l.Saves) →
    run (step parseRfc3339 fingerprint config) s ls = some s' →
    startToken fingerprint config s'.file = s'.token := by
  induction ls with
  | nil =>
      intro s s' _ hfile _ hrun
      obtain rfl := Option.some.inj hrun
      exact hfile
  | cons l ls ih =>
      intro s s' hi hfile hsaves hrun
      obtain ⟨t, ht, hrun⟩ := run_cons_eq_some.mp hrun
      exact ih (inv_step hi ht) (restart_step hi hfile (hsaves l List.mem_cons_self) ht)
        (fun l' hl' => hsaves l' (List.mem_cons_of_mem _ hl')) hrun

/-- **A new token is adopted exactly if the expiry that comes with it can be read** (or it is the
one in use): at every step of every run. So in a run in which every expiry can be read, the token
in use is the last one received; it is masked, and, if the new tokens could be saved, a restart
begins with it. -/
theorem reset_adopts_iff (parseRfc3339 : Chars → Option Int) (fingerprint : Chars → Chars)
    (config : Config) (file : Option StoredToken) (ls : List Label) (s : State)
    (hrun : run (step parseRfc3339 fingerprint config) (init fingerprint config file) ls = some s) :
    (∀ reply now saved token s', carried reply = some token →
      step parseRfc3339 fingerprint config s (.reset reply now saved) = some s' →
      (Adopts fingerprint config s' token saved ↔
        ExpiryReadable parseRfc3339 reply ∨ token = s.token)) ∧
    ((∀ l ∈ ls, l.Readable parseRfc3339) →
      s.token = (lastCarried ls).getD (startToken fingerprint config file)) ∧
    (s.token ≠ [] → Str.ofChars s.token ∈ s.scrubber.secrets) ∧
    ((∀ l ∈ ls, l.Saves) → (init fingerprint config s.file).token = s.token) := by
  have hi : Inv fingerprint config s := inv_run hrun
  refine ⟨fun reply now saved token s' hcarried h => adopts_iff hi hcarried h,
    fun hreadable => token_run hreadable hrun, hi.masked, fun hsaves => ?_⟩
  exact restart_run (inv_init file) rfl hsaves hrun

end Runs

/-! ### A reply without a readable expiry -/

/-- A body with these two members. -/
def tokenBody (token tokenExpiresAt : String) : Body :=
  .object fun name =>
    if name = "token".toList then some (.string token.toList)
    else if name = "token_expires_at".toList then some (.string tokenExpiresAt.toList)
    else none

/-- The time of the example, and no other one. -/
def exampleTime (text : Chars) : Option Int :=
  if text = "2030-01-01T00:00:00Z".toList then some 1893456000 else none

/-- A token that expires is saved and about to be reset. -/
def untilReset : List Label :=
  [.verify (.response 200 (tokenBody "glrt-config" "2030-01-01T00:00:00Z")) 1893450000, .wake,
    .saveOld true]

def exampleConfig : Config := { runnerToken := "glrt-config".toList }

theorem run_untilReset :
    ∃ s, run (step exampleTime id exampleConfig) (init id exampleConfig none) untilReset = some s ∧
      (s.phase, s.token) = (.resetting, "glrt-config".toList) :=
  Option.map_eq_some_iff.mp (by decide)

/-- A date without a time is no RFC 3339 time: **the new token is thrown away.** -/
theorem reset_loses_token :
    ∃ s s', run (step exampleTime id exampleConfig) (init id exampleConfig none) untilReset =
        some s ∧
      step exampleTime id exampleConfig s
        (.reset (.response 201 (tokenBody "glrt-new" "2031-01-01")) 1893455000 true) = some s' ∧
      carried (.response 201 (tokenBody "glrt-new" "2031-01-01")) = some "glrt-new".toList ∧
      s'.token = "glrt-config".toList ∧
      ¬ Adopts id exampleConfig s' "glrt-new".toList true := by
  obtain ⟨s, hs, hstate⟩ := run_untilReset
  obtain ⟨hphase, htoken⟩ := Prod.mk.inj hstate
  have hnone : resetRunnerToken exampleTime (.response 201 (tokenBody "glrt-new" "2031-01-01")) =
      none := by decide
  refine ⟨s, { s with phase := .waiting }, hs, ?_, by decide, htoken, ?_⟩
  · simp only [step, if_pos hphase, hnone]
  · intro hadopts
    have hsame : s.token = "glrt-new".toList := hadopts.inUse
    rw [htoken] at hsame
    exact absurd hsame (by decide)

theorem reset_adopts_iff_example :
    ∃ s s', run (step exampleTime id exampleConfig) (init id exampleConfig none) untilReset =
        some s ∧
      step exampleTime id exampleConfig s
        (.reset (.response 201 (tokenBody "glrt-new" "")) 1893455000 true) = some s' ∧
      Adopts id exampleConfig s' "glrt-new".toList true := by
  obtain ⟨s, hs, hstate⟩ := run_untilReset
  obtain ⟨hphase, -⟩ := Prod.mk.inj hstate
  have hnew : resetRunnerToken exampleTime (.response 201 (tokenBody "glrt-new" "")) =
      some ("glrt-new".toList, none) := by decide
  have hstep : step exampleTime id exampleConfig s
      (.reset (.response 201 (tokenBody "glrt-new" "")) 1893455000 true) =
        some (adopt id exampleConfig s "glrt-new".toList none 1893455000 true) := by
    simp only [step, if_pos hphase, hnew]
  have hreadable : ExpiryReadable exampleTime (.response 201 (tokenBody "glrt-new" "")) :=
    .inl rfl
  exact ⟨s, _, hs, hstep, ((reset_adopts_iff exampleTime id exampleConfig none untilReset s hs).1
    _ _ _ _ _ (by decide) hstep).mpr (.inl hreadable)⟩

end TokenRotation

end TurboCi
