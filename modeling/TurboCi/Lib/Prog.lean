import TurboCi.Lib.Runs

set_option autoImplicit false

/-! # Programs that make calls

A program returns, fails, or makes a call and goes on with its reply. What a call does to the
world is given apart from the program, by `exec`, and depends on a choice of the world (which
failure, which fresh number, what others did since the last call). A run of a program can stop
after any call.

Programs are verified against a specification of the calls: `pre`, what the program owes before
a call, and `post`, what it may rely on after it. `Sound` says that the program pays what it
owes at every call, and its rules follow the program's text (`sound_bind`). Calls that keep an
invariant whenever `pre` holds then keep it at every point of every run (`sound_run`).

`Ends` says in addition how the program ends, also when it fails. With a world that may answer
anything and keeps a log of what was asked and answered (`answers`), it speaks of all complete
runs (`ends_play`). `Adds` says what a run adds to the log, and so composes where logs are summed
up (`adds_bind`, `adds_play`).
-/

namespace Prog

open Runs

/-- Programs with calls `C`, whose replies are `R c`, failures `ε` and results `α`. -/
inductive Program (C : Type) (R : C → Type) (ε α : Type) where
  | done (a : α)
  | fail (e : ε)
  | call (c : C) (k : R c → Program C R ε α)

variable {C : Type} {R : C → Type} {ε ε' α β σ κ : Type}

namespace Program

def bind : Program C R ε α → (α → Program C R ε β) → Program C R ε β
  | .done a, f => f a
  | .fail e, _ => .fail e
  | .call c k, f => .call c (fun r => (k r).bind f)

instance : Monad (Program C R ε) where
  pure := .done
  bind := bind

/-- A call whose reply is returned as it is. -/
def ask (c : C) : Program C R ε (R c) := .call c .done

def ofExcept : Except ε α → Program C R ε α
  | .ok a => .done a
  | .error e => .fail e

/-- The program with other failures. -/
def mapError (f : ε → ε') : Program C R ε α → Program C R ε' α
  | .done a => .done a
  | .fail e => .fail (f e)
  | .call c k => .call c fun r => (k r).mapError f

/-- The program that returns the outcome of this one, whether it fails or not. -/
def attempt : Program C R ε α → Program C R ε' (Except ε α)
  | .done a => .done (.ok a)
  | .fail e => .done (.error e)
  | .call c k => .call c fun r => (k r).attempt

/-- The next call. -/
def next : Program C R ε α → Option C
  | .call c _ => some c
  | .done _ | .fail _ => none

/-- Every call that the program can make satisfies `P`. -/
def Calls (P : C → Prop) : Program C R ε α → Prop
  | .done _ | .fail _ => True
  | .call c k => P c ∧ ∀ r, Calls P (k r)

/-- The complete run in which the calls are answered by `answer`, which sees what was asked and
answered before. -/
def play (answer : List (Sigma R) → (c : C) → R c) :
    Program C R ε α → List (Sigma R) → List (Sigma R) × Except ε α
  | .done a, log => (log, .ok a)
  | .fail e, log => (log, .error e)
  | .call c k, log => play answer (k (answer log c)) (log ++ [⟨c, answer log c⟩])

/-- A step of a program in a world: its next call. -/
def step (exec : σ → (c : C) → κ → Option (σ × R c)) :
    σ × Program C R ε α → κ → Option (σ × Program C R ε α)
  | (s, .call c k), x =>
      match exec s c x with
      | some (s', r) => some (s', k r)
      | none => none
  | (_, .done _), _ | (_, .fail _), _ => none

end Program

/-- What a program owes before a call, and what it may rely on after it. -/
structure Spec (σ C : Type) (R : C → Type) where
  pre : σ → C → Prop
  post : σ → (c : C) → R c → σ → Prop

/-- At every call the program meets `pre`, if the calls before it met `post`; if it returns,
`Q` holds of the result. -/
def Sound (spec : Spec σ C R) (Q : α → σ → Prop) : Program C R ε α → σ → Prop
  | .done a, s => Q a s
  | .fail _, _ => True
  | .call c k, s => spec.pre s c ∧ ∀ r s', spec.post s c r s' → Sound spec Q (k r) s'

variable {spec : Spec σ C R}

theorem sound_bind {Q : α → σ → Prop} {Q' : β → σ → Prop} {p : Program C R ε α}
    {f : α → Program C R ε β} :
    ∀ {s : σ}, Sound spec Q p s → (∀ a t, Q a t → Sound spec Q' (f a) t) →
      Sound spec Q' (p >>= f) s := by
  induction p with
  | done a => exact fun h hf => hf _ _ h
  | fail e => exact fun _ _ => trivial
  | call c k ih => exact fun h hf => ⟨h.1, fun r t hr => ih r (h.2 r t hr) hf⟩

theorem sound_mono {Q Q' : α → σ → Prop} {p : Program C R ε α} (hQ : ∀ a t, Q a t → Q' a t) :
    ∀ {s : σ}, Sound spec Q p s → Sound spec Q' p s := by
  induction p with
  | done a => exact fun h => hQ _ _ h
  | fail e => exact fun _ => trivial
  | call c k ih => exact fun h => ⟨h.1, fun r t hr => ih r (h.2 r t hr)⟩

/-- A fact that no call destroys may be kept for later. -/
theorem sound_keep {F : σ → Prop} (hF : ∀ s c r t, F s → spec.post s c r t → F t)
    {Q : α → σ → Prop} {p : Program C R ε α} :
    ∀ {s : σ}, F s → Sound spec Q p s → Sound spec (fun a t => Q a t ∧ F t) p s := by
  induction p with
  | done a => exact fun hs h => ⟨h, hs⟩
  | fail e => exact fun _ _ => trivial
  | call c k ih =>
      exact fun hs h => ⟨h.1, fun r t hr => ih r (hF _ c r t hs hr) (h.2 r t hr)⟩

/-- **At every point of a run the world's invariant holds and the rest of the program is
sound**, when the calls, by every choice that is allowed for the call, keep the invariant and
meet `post`. -/
theorem sound_run_of {exec : σ → (c : C) → κ → Option (σ × R c)} {I : σ → Prop}
    {A : σ → C → κ → Prop}
    (hexec : ∀ s c x t r, I s → spec.pre s c → A s c x → exec s c x = some (t, r) →
      I t ∧ spec.post s c r t)
    {Q : α → σ → Prop} {p q : Program C R ε α} {s t : σ} {xs : List κ} (hs : I s)
    (hp : Sound spec Q p s) (hrun : run (Program.step exec) (s, p) xs = some (t, q))
    (hA : Always (Program.step exec) (fun w x => ∀ c, w.2.next = some c → A w.1 c x) (s, p) xs) :
    I t ∧ Sound spec Q q t := by
  refine invariant_of_always (I := fun w : σ × Program C R ε α => I w.1 ∧ Sound spec Q w.2 w.1)
    ?_ ⟨hs, hp⟩ hA hrun
  rintro ⟨u, p⟩ x w ⟨hu, hp⟩ hx hstep
  cases p with
  | done a => cases hstep
  | fail e => cases hstep
  | call c k =>
      rw [Program.step] at hstep
      split at hstep
      · next v r hcall =>
          obtain rfl := Option.some.inj hstep
          obtain ⟨hv, hpost⟩ := hexec u c x v r hu hp.1 (hx c rfl) hcall
          exact ⟨hv, hp.2 r v hpost⟩
      · cases hstep

/-- The same where the allowed choices do not depend on the call. -/
theorem sound_run {exec : σ → (c : C) → κ → Option (σ × R c)} {I : σ → Prop} {A : σ → κ → Prop}
    (hexec : ∀ s c x t r, I s → spec.pre s c → A s x → exec s c x = some (t, r) →
      I t ∧ spec.post s c r t)
    {Q : α → σ → Prop} {p q : Program C R ε α} {s t : σ} {xs : List κ} (hs : I s)
    (hp : Sound spec Q p s) (hrun : run (Program.step exec) (s, p) xs = some (t, q))
    (hA : Always (Program.step exec) (fun w x => A w.1 x) (s, p) xs) :
    I t ∧ Sound spec Q q t :=
  sound_run_of (A := fun s _ x => A s x) hexec hs hp hrun
    (hA.mono fun _ _ hx _ _ => hx)

/-- What a sound program owes before a call holds at every call of a run. -/
theorem always_of_sound {exec : σ → (c : C) → κ → Option (σ × R c)} {I : σ → Prop}
    {A : σ → C → κ → Prop}
    (hexec : ∀ s c x t r, I s → spec.pre s c → exec s c x = some (t, r) →
      I t ∧ spec.post s c r t)
    (hA : ∀ s c x, I s → spec.pre s c → A s c x) {Q : α → σ → Prop} {xs : List κ} :
    ∀ {p : Program C R ε α} {s : σ}, I s → Sound spec Q p s →
      Always (Program.step exec) (fun w x => ∀ c, w.2.next = some c → A w.1 c x) (s, p) xs := by
  induction xs with
  | nil => exact fun _ _ => trivial
  | cons x xs ih =>
      intro p s hs hp
      cases p with
      | done a => exact ⟨nofun, trivial⟩
      | fail e => exact ⟨nofun, trivial⟩
      | call c k =>
          refine ⟨fun c' hc => ?_, ?_⟩
          · obtain rfl := Option.some.inj hc
            exact hA s c x hs hp.1
          · rw [Program.step]
            cases hcall : exec s c x with
            | none => trivial
            | some w =>
                obtain ⟨ht, hpost⟩ := hexec s c x w.1 w.2 hs hp.1 hcall
                exact ih ht (hp.2 w.2 w.1 hpost)

/-! ## How a program ends -/

/-- At every call the program meets `pre`, if the calls before it met `post`; `Q` holds of its
outcome, also when it fails. -/
def Ends (spec : Spec σ C R) (Q : Except ε α → σ → Prop) : Program C R ε α → σ → Prop
  | .done a, s => Q (.ok a) s
  | .fail e, s => Q (.error e) s
  | .call c k, s => spec.pre s c ∧ ∀ r s', spec.post s c r s' → Ends spec Q (k r) s'

theorem ends_mono {Q Q' : Except ε α → σ → Prop} {p : Program C R ε α} {s : σ}
    (hQ : ∀ r t, Q r t → Q' r t) (h : Ends spec Q p s) : Ends spec Q' p s := by
  induction p generalizing s with
  | done a => exact hQ _ _ h
  | fail e => exact hQ _ _ h
  | call c k ih => exact ⟨h.1, fun r t hr => ih r (h.2 r t hr)⟩

theorem ends_bind {P : Except ε α → σ → Prop} {Q : Except ε β → σ → Prop} {p : Program C R ε α}
    {f : α → Program C R ε β} {s : σ} (hok : ∀ a t, P (.ok a) t → Ends spec Q (f a) t)
    (herror : ∀ e t, P (.error e) t → Q (.error e) t) (h : Ends spec P p s) :
    Ends spec Q (p >>= f) s := by
  induction p generalizing s with
  | done a => exact hok _ _ h
  | fail e => exact herror _ _ h
  | call c k ih => exact ⟨h.1, fun r t hr => ih r (h.2 r t hr)⟩

theorem ends_mapError {g : ε → ε'} {Q : Except ε' α → σ → Prop} {p : Program C R ε α} {s : σ}
    (h : Ends spec (fun r t => Q (r.mapError g) t) p s) : Ends spec Q (p.mapError g) s := by
  induction p generalizing s with
  | done a => exact h
  | fail e => exact h
  | call c k ih => exact ⟨h.1, fun r t hr => ih r (h.2 r t hr)⟩

/-- A program whose failures are replaced, and what follows it. -/
theorem ends_mapError_bind {g : ε → ε'} {P : Except ε α → σ → Prop} {Q : Except ε' β → σ → Prop}
    {p : Program C R ε α} {f : α → Program C R ε' β} {s : σ}
    (hok : ∀ a t, P (.ok a) t → Ends spec Q (f a) t)
    (herror : ∀ e t, P (.error e) t → Q (.error (g e)) t) (h : Ends spec P p s) :
    Ends spec Q (p.mapError g >>= f) s := by
  induction p generalizing s with
  | done a => exact hok _ _ h
  | fail e => exact herror _ _ h
  | call c k ih => exact ⟨h.1, fun r t hr => ih r (h.2 r t hr)⟩

/-- A program whose outcome is returned, and what follows it. -/
theorem ends_attempt_bind {P : Except ε α → σ → Prop} {Q : Except ε' β → σ → Prop}
    {p : Program C R ε α} {f : Except ε α → Program C R ε' β} {s : σ}
    (hf : ∀ r t, P r t → Ends spec Q (f r) t) (h : Ends spec P p s) :
    Ends spec Q (p.attempt >>= f) s := by
  induction p generalizing s with
  | done a => exact hf _ _ h
  | fail e => exact hf _ _ h
  | call c k ih => exact ⟨h.1, fun r t hr => ih r (h.2 r t hr)⟩

theorem ends_ofExcept {Q : Except ε α → σ → Prop} {x : Except ε α} {s : σ} (h : Q x s) :
    Ends spec Q (.ofExcept x) s := by
  cases x with
  | ok a => exact h
  | error e => exact h

/-- How it ends says more than that it is sound. -/
theorem sound_of_ends {Q : Except ε α → σ → Prop} {p : Program C R ε α} :
    ∀ {s : σ}, Ends spec Q p s → Sound spec (fun a t => Q (.ok a) t) p s := by
  induction p with
  | done a => exact fun h => h
  | fail e => exact fun _ => trivial
  | call c k ih => exact fun h => ⟨h.1, fun r t hr => ih r (h.2 r t hr)⟩

/-- What is left of a program after some of its calls ends as the program does. -/
theorem ends_run {exec : σ → (c : C) → κ → Option (σ × R c)} {A : κ → Prop}
    (hexec : ∀ s c x t r, A x → exec s c x = some (t, r) → spec.post s c r t)
    {Q : Except ε α → σ → Prop} {xs : List κ} (hxs : ∀ x ∈ xs, A x) {p q : Program C R ε α}
    {s t : σ} (hp : Ends spec Q p s)
    (hrun : run (Program.step exec) (s, p) xs = some (t, q)) : Ends spec Q q t := by
  induction xs generalizing p s with
  | nil =>
      obtain ⟨rfl, rfl⟩ := Prod.mk.inj (Option.some.inj hrun)
      exact hp
  | cons x xs ih =>
      obtain ⟨hx, hxs⟩ := List.forall_mem_cons.mp hxs
      obtain ⟨⟨u, p'⟩, hstep, hrun⟩ := run_cons_eq_some.mp hrun
      cases p with
      | done a => cases hstep
      | fail e => cases hstep
      | call c k =>
          rw [Program.step] at hstep
          split at hstep
          · next v r hcall =>
              obtain ⟨rfl, rfl⟩ := Prod.mk.inj (Option.some.inj hstep)
              exact ih hxs (hp.2 r v (hexec s c x v r hx hcall)) hrun
          · cases hstep

/-- At every call the program meets `pre`, if the calls before it met `post`, and it returns a
result with `P`. -/
def Returns (spec : Spec σ C R) (P : α → σ → Prop) (p : Program C R ε α) (s : σ) : Prop :=
  Ends spec (fun r t => ∃ a, r = .ok a ∧ P a t) p s

theorem returns_done {P : α → σ → Prop} {a : α} {s : σ} (h : P a s) :
    Returns spec P (.done a : Program C R ε α) s := ⟨a, rfl, h⟩

theorem returns_mono {P P' : α → σ → Prop} {p : Program C R ε α} {s : σ}
    (hP : ∀ a t, P a t → P' a t) (h : Returns spec P p s) : Returns spec P' p s :=
  ends_mono (fun _ t hr => hr.imp fun a ha => ⟨ha.1, hP a t ha.2⟩) h

theorem returns_bind {P : α → σ → Prop} {Q : β → σ → Prop} {p : Program C R ε α}
    {f : α → Program C R ε β} {s : σ} (h : Returns spec P p s)
    (hf : ∀ a t, P a t → Returns spec Q (f a) t) : Returns spec Q (p >>= f) s := by
  refine ends_bind (fun a t ha => ?_) (fun e t he => ?_) h
  · obtain ⟨b, hb, hP⟩ := ha
    obtain rfl := Except.ok.inj hb
    exact hf a t hP
  · obtain ⟨b, hb, -⟩ := he
    cases hb

/-! ## Programs known by their calls -/

namespace Program

variable {P : C → Prop}

theorem calls_bind {p : Program C R ε α} {f : α → Program C R ε β} (hp : Calls P p)
    (hf : ∀ a, Calls P (f a)) : Calls P (p >>= f) := by
  induction p with
  | done a => exact hf a
  | fail e => trivial
  | call c k ih => exact ⟨hp.1, fun r => ih r (hp.2 r)⟩

theorem calls_mapError {g : ε → ε'} {p : Program C R ε α} (hp : Calls P p) :
    Calls P (p.mapError g) := by
  induction p with
  | done a => trivial
  | fail e => trivial
  | call c k ih => exact ⟨hp.1, fun r => ih r (hp.2 r)⟩

theorem Calls.mono {P' : C → Prop} (hP : ∀ c, P c → P' c) {p : Program C R ε α} (hp : Calls P p) :
    Calls P' p := by
  induction p with
  | done a => trivial
  | fail e => trivial
  | call c k ih => exact ⟨hP c hp.1, fun r => ih r (hp.2 r)⟩

theorem calls_ask {c : C} (hc : P c) : Calls P (ask c : Program C R ε (R c)) :=
  ⟨hc, fun _ => trivial⟩

theorem calls_ofExcept {x : Except ε α} : Calls P (ofExcept x : Program C R ε α) := by
  cases x with
  | ok a => trivial
  | error e => trivial

end Program

/-- What each of a program's calls keeps, the program keeps. -/
theorem ends_of_calls {P : C → Prop} {F : σ → Prop} (hpre : ∀ s c, P c → F s → spec.pre s c)
    (hpost : ∀ s c r t, P c → F s → spec.post s c r t → F t) {p : Program C R ε α} :
    ∀ {s : σ}, p.Calls P → F s → Ends spec (fun _ t => F t) p s := by
  induction p with
  | done a => exact fun _ hs => hs
  | fail e => exact fun _ hs => hs
  | call c k ih =>
      intro s hp hs
      exact ⟨hpre s c hp.1 hs, fun r t hr => ih r (hp.2 r) (hpost s c r t hp.1 hs hr)⟩

/-! ## Worlds that may answer anything -/

/-- The world keeps a log, and any reply is possible. -/
def answers : Spec (List (Sigma R)) C R where
  pre _ _ := True
  post log c r log' := log' = log ++ [⟨c, r⟩]

theorem ends_play {Q : Except ε α → List (Sigma R) → Prop} {p : Program C R ε α}
    (answer : List (Sigma R) → (c : C) → R c) :
    ∀ {log : List (Sigma R)}, Ends answers Q p log →
      Q (p.play answer log).2 (p.play answer log).1 := by
  induction p with
  | done a => exact fun h => h
  | fail e => exact fun h => h
  | call c k ih => exact fun h => ih _ (h.2 _ _ rfl)

/-! ## What a run adds to the log -/

/-- Every complete run, whatever it is answered, has an outcome and a log that satisfy `Q`. -/
def Adds : Program C R ε α → (Except ε α → List (Sigma R) → Prop) → Prop
  | .done a, Q => Q (.ok a) []
  | .fail e, Q => Q (.error e) []
  | .call c k, Q => ∀ r, Adds (k r) fun x log => Q x (⟨c, r⟩ :: log)

theorem adds_mono {Q Q' : Except ε α → List (Sigma R) → Prop} {p : Program C R ε α}
    (hQ : ∀ r log, Q r log → Q' r log) (h : Adds p Q) : Adds p Q' := by
  induction p generalizing Q Q' with
  | done a => exact hQ _ _ h
  | fail e => exact hQ _ _ h
  | call c k ih => exact fun r => ih r (fun x log => hQ x _) (h r)

theorem adds_bind {P : Except ε α → List (Sigma R) → Prop}
    {Q : Except ε β → List (Sigma R) → Prop} {p : Program C R ε α} {f : α → Program C R ε β}
    (hok : ∀ a log, P (.ok a) log → Adds (f a) fun r more => Q r (log ++ more))
    (herror : ∀ e log, P (.error e) log → Q (.error e) log) (h : Adds p P) :
    Adds (p >>= f) Q := by
  induction p generalizing P Q with
  | done a => exact hok a [] h
  | fail e => exact herror e [] h
  | call c k ih => exact fun r => ih r (fun a log => hok a _) (fun e log => herror e _) (h r)

/-- A complete run adds a log that the program allows, of answers that were given. -/
theorem adds_play {Q : Except ε α → List (Sigma R) → Prop} {P : Sigma R → Prop}
    (answer : List (Sigma R) → (c : C) → R c) (hP : ∀ log c, P ⟨c, answer log c⟩)
    {p : Program C R ε α} (log : List (Sigma R)) (h : Adds p Q) :
    ∃ more, (p.play answer log).1 = log ++ more ∧ Q (p.play answer log).2 more ∧
      ∀ a ∈ more, P a := by
  induction p generalizing Q log with
  | done a => exact ⟨[], (List.append_nil log).symm, h, by simp⟩
  | fail e => exact ⟨[], (List.append_nil log).symm, h, by simp⟩
  | call c k ih =>
      obtain ⟨more, hlog, hQ, hmore⟩ :=
        ih (answer log c) (log ++ [⟨c, answer log c⟩]) (h (answer log c))
      refine ⟨⟨c, answer log c⟩ :: more, ?_, hQ, ?_⟩
      · rw [Program.play, hlog, List.append_assoc, List.singleton_append]
      · exact List.forall_mem_cons.mpr ⟨hP log c, hmore⟩

end Prog
