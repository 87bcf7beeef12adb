import TurboCi.Lib.Prog

set_option autoImplicit false

/-! # Logs whose entries are justified by what came before

A reason `J before e` says why the entry `e` may follow the entries `before`. Where a reason is
not lost when more has come before (`Lasting`), justified logs compose (`Lasting.append`).

A program that makes each call for a reason in what was asked and answered before (`reasoned`)
leaves a justified log (`justified_play`).
-/

namespace Logs

variable {E : Type} {J J' : List E → E → Prop}

/-- Every entry has a reason in the entries before it. -/
def Justified (J : List E → E → Prop) (log : List E) : Prop :=
  ∀ before e after, log = before ++ e :: after → J before e

/-- A reason that holds whatever else has come before. -/
def Lasting (J : List E → E → Prop) : Prop := ∀ l l' e, l ⊆ l' → J l e → J l' e

theorem justified_nil : Justified J ([] : List E) := by
  intro before e after h
  simp at h

theorem Lasting.append (hJ : Lasting J) {l l' : List E} (h : Justified J l) (h' : Justified J l') :
    Justified J (l ++ l') := by
  intro before e after hsplit
  rcases List.append_eq_append_iff.mp hsplit with ⟨rest, hbefore, hl'⟩ | ⟨rest, hl, hafter⟩
  · -- the entry is one of the second log
    have hreason := h' rest e after hl'
    rw [hbefore]
    exact hJ rest (l ++ rest) e (List.subset_append_right l rest) hreason
  · cases rest with
    | nil =>
        have hreason := h' [] e after hafter.symm
        exact hJ [] before e (List.nil_subset before) hreason
    | cons first rest =>
        obtain ⟨hfirst, -⟩ := List.cons.inj hafter
        rw [← hfirst] at hl
        exact h before e rest hl

theorem Lasting.flatten (hJ : Lasting J) {logs : List (List E)}
    (h : ∀ log ∈ logs, Justified J log) :
    Justified J logs.flatten := by
  induction logs with
  | nil => exact justified_nil
  | cons log logs ih =>
      obtain ⟨hlog, hlogs⟩ := List.forall_mem_cons.mp h
      exact hJ.append hlog (ih hlogs)

theorem Justified.concat {l : List E} {e : E} (h : Justified J l) (he : J l e) :
    Justified J (l ++ [e]) := by
  intro before e' after hsplit
  rcases List.append_eq_append_iff.mp hsplit with ⟨rest, hbefore, he'⟩ | ⟨rest, hl, hafter⟩
  · cases rest with
    | nil =>
        obtain rfl := (List.cons.inj he').1
        rw [hbefore, List.append_nil]
        exact he
    | cons first rest =>
        rw [List.cons_append] at he'
        simp at he'
  · cases rest with
    | nil =>
        obtain rfl := (List.cons.inj hafter).1
        rw [List.append_nil] at hl
        rw [← hl]
        exact he
    | cons first rest =>
        obtain ⟨hfirst, -⟩ := List.cons.inj hafter
        rw [← hfirst] at hl
        exact h before e' rest hl

/-- A log after one more entry, which may give its entries other reasons. -/
theorem Justified.cons {l : List E} {e : E} (h : Justified J l) (he : J' [] e)
    (hlater : ∀ before e', J before e' → J' (e :: before) e') : Justified J' (e :: l) := by
  intro before e' after hsplit
  cases before with
  | nil =>
      obtain rfl := (List.cons.inj hsplit).1
      exact he
  | cons first before =>
      obtain ⟨rfl, hl⟩ := List.cons.inj hsplit
      exact hlater before e' (h before e' after hl)

theorem Justified.mono {l : List E} (hJ : ∀ before e, J before e → J' before e)
    (h : Justified J l) : Justified J' l :=
  fun before e after hsplit => hJ before e (h before e after hsplit)

end Logs

namespace Prog

open Logs

variable {C : Type} {R : C → Type} {ε ε' α β σ : Type}

/-- What holds of a program's results whatever is answered holds of them beside what is known of its
runs. -/
theorem ends_of_sound {any : Spec Unit C R} (hany : ∀ c r, any.post () c r ())
    {V : α → Unit → Prop} {spec : Spec σ C R} {Q : Except ε α → σ → Prop} {p : Program C R ε α} :
    ∀ {s : σ}, Sound any V p () → Ends spec Q p s →
      Ends spec (fun r t => Q r t ∧ ∀ a, r = .ok a → V a ()) p s := by
  induction p with
  | done a =>
      refine fun hv h => ⟨h, fun b hb => ?_⟩
      rw [← Except.ok.inj hb]
      exact hv
  | fail e => exact fun _ h => ⟨h, fun b hb => by cases hb⟩
  | call c k ih =>
      exact fun hv h => ⟨h.1, fun r t hr => ih r (hv.2 r () (hany c r)) (h.2 r t hr)⟩

/-- Any reply is possible, and a call needs a reason in the log. -/
def reasoned (J : List (Sigma R) → C → Prop) : Spec (List (Sigma R)) C R where
  pre := J
  post log c r log' := log' = log ++ [⟨c, r⟩]

variable {J : List (Sigma R) → C → Prop}

/-- The program makes its calls for reasons, its results satisfy `P` and its failures `F`. -/
def Reaches (J : List (Sigma R) → C → Prop) (P : α → List (Sigma R) → Prop)
    (F : ε → List (Sigma R) → Prop) (p : Program C R ε α) (log : List (Sigma R)) : Prop :=
  Ends (reasoned J) (fun r t => log ⊆ t ∧ match r with | .ok a => P a t | .error e => F e t) p log

variable {P P' : α → List (Sigma R) → Prop} {F F' : ε → List (Sigma R) → Prop}
  {log : List (Sigma R)}

theorem reaches_done {a : α} (h : P a log) : Reaches J P F (.done a : Program C R ε α) log :=
  ⟨List.Subset.refl log, h⟩

theorem reaches_fail {e : ε} (h : F e log) : Reaches J P F (.fail e : Program C R ε α) log :=
  ⟨List.Subset.refl log, h⟩

theorem reaches_call {c : C} {k : R c → Program C R ε α} (hc : J log c)
    (h : ∀ r, Reaches J P F (k r) (log ++ [⟨c, r⟩])) : Reaches J P F (.call c k) log := by
  refine ⟨hc, fun r t ht => ?_⟩
  have hlog : t = log ++ [⟨c, r⟩] := ht
  rw [hlog]
  refine ends_mono (fun x u hu => ⟨?_, hu.2⟩) (h r)
  exact List.Subset.trans (List.subset_append_left log _) hu.1

theorem reaches_ask_bind {c : C} {f : R c → Program C R ε α} (hc : J log c)
    (h : ∀ r, Reaches J P F (f r) (log ++ [⟨c, r⟩])) :
    Reaches J P F ((Program.ask c : Program C R ε (R c)) >>= f) log :=
  reaches_call hc h

theorem reaches_ofExcept {x : Except ε α} (hok : ∀ a, x = .ok a → P a log)
    (herror : ∀ e, x = .error e → F e log) :
    Reaches J P F (.ofExcept x : Program C R ε α) log := by
  cases x with
  | ok a => exact reaches_done (hok a rfl)
  | error e => exact reaches_fail (herror e rfl)

/-- One program after the other. -/
theorem reaches_bind {p : Program C R ε α} {f : α → Program C R ε β}
    {Q : β → List (Sigma R) → Prop} (hp : Reaches J P F p log)
    (hf : ∀ a t, log ⊆ t → P a t → Reaches J Q F (f a) t) : Reaches J Q F (p >>= f) log := by
  refine ends_bind (fun a t ht => ?_) (fun e t ht => ht) hp
  refine ends_mono (fun x u hu => ⟨?_, hu.2⟩) (hf a t ht.1 ht.2)
  exact List.Subset.trans ht.1 hu.1

theorem reaches_mapError {g : ε → ε'} {F' : ε' → List (Sigma R) → Prop} {p : Program C R ε α}
    (hF : ∀ e t, log ⊆ t → F e t → F' (g e) t) (hp : Reaches J P F p log) :
    Reaches J P F' (p.mapError g) log := by
  refine ends_mapError (ends_mono (fun x t ht => ?_) hp)
  cases x with
  | ok a => exact ht
  | error e => exact ⟨ht.1, hF e t ht.1 ht.2⟩

/-- A program whose outcome is returned, and what follows it. -/
theorem reaches_attempt_bind {p : Program C R ε α} {f : Except ε α → Program C R ε' β}
    {Q : β → List (Sigma R) → Prop} {G : ε' → List (Sigma R) → Prop} (hp : Reaches J P F p log)
    (hok : ∀ a t, log ⊆ t → P a t → Reaches J Q G (f (.ok a)) t)
    (herror : ∀ e t, log ⊆ t → F e t → Reaches J Q G (f (.error e)) t) :
    Reaches J Q G (p.attempt >>= f) log := by
  refine ends_attempt_bind (fun x t ht => ?_) hp
  have hrest : Reaches J Q G (f x) t := by
    cases x with
    | ok a => exact hok a t ht.1 ht.2
    | error e => exact herror e t ht.1 ht.2
  exact ends_mono (fun x u hu => ⟨List.Subset.trans ht.1 hu.1, hu.2⟩) hrest

theorem Reaches.mono {p : Program C R ε α} (hp : Reaches J P F p log)
    (hP : ∀ a t, log ⊆ t → P a t → P' a t) (hF : ∀ e t, log ⊆ t → F e t → F' e t) :
    Reaches J P' F' p log := by
  refine ends_mono (fun x t ht => ?_) hp
  cases x with
  | ok a => exact ⟨ht.1, hP a t ht.1 ht.2⟩
  | error e => exact ⟨ht.1, hF e t ht.1 ht.2⟩

/-- Calls that need no particular reason. -/
theorem reaches_calls {K : C → Prop} (hK : ∀ log c, K c → J log c) {p : Program C R ε α}
    (hp : p.Calls K) : Reaches J (fun _ _ => True) (fun _ _ => True) p log := by
  induction p generalizing log with
  | done a => exact reaches_done trivial
  | fail e => exact reaches_fail trivial
  | call c k ih => exact reaches_call (hK log c hp.1) fun r => ih r (hp.2 r)

/-- What holds of the results whatever is answered. -/
theorem reaches_of_sound {any : Spec Unit C R} (hany : ∀ c r, any.post () c r ())
    {V : α → Unit → Prop} {p : Program C R ε α} (hv : Sound any V p ())
    (hp : Reaches J P F p log) : Reaches J (fun a t => P a t ∧ V a ()) F p log := by
  refine ends_mono (fun x t ht => ?_) (ends_of_sound hany hv hp)
  cases x with
  | ok a => exact ⟨ht.1.1, ht.1.2, ht.2 a rfl⟩
  | error e => exact ht.1

/-- **A run of a program that makes its calls for reasons leaves a justified log.** -/
theorem justified_play {Q : Except ε α → List (Sigma R) → Prop} {p : Program C R ε α}
    (answer : List (Sigma R) → (c : C) → R c) :
    ∀ {log : List (Sigma R)}, Justified (fun before e => J before e.1) log →
      Ends (reasoned J) Q p log →
      Justified (fun before e => J before e.1) (p.play answer log).1 := by
  induction p with
  | done a => exact fun hlog _ => hlog
  | fail e => exact fun hlog _ => hlog
  | call c k ih => exact fun hlog h => ih _ (hlog.concat h.1) (h.2 _ _ rfl)

end Prog
