import Mathlib.Algebra.BigOperators.Group.Finset.Basic
import Mathlib.Algebra.Order.BigOperators.Group.Finset
import TurboCi.Lib.Prog

set_option autoImplicit false

/-! # Operations that are attempted again

An operation is attempted until an attempt decides: it succeeds, or fails in a way that another
attempt would not mend. The number of attempts is bounded, and the last failure is the outcome
when it runs out.

`Tried` says what a complete run adds to the log when each attempt is known by what it adds. Where
each attempt makes one observation and is judged by it (`Tried.observed`), the run consists of
undecided attempts and a last one, which settles the outcome.
-/

namespace Prog

variable {C : Type} {R : C → Type} {ε ε' α β : Type}

/-- How an attempt ended. -/
inductive Attempt (ε α : Type) where
  | done (a : α)
  /-- another attempt would fail the same way -/
  | stop (e : ε)
  | again (e : ε)

namespace Attempt

/-- What the operation comes to when this is the last attempt. -/
def result : Attempt ε α → Except ε α
  | .done a => .ok a
  | .stop e | .again e => .error e

/-- Another attempt is worthwhile. -/
def undecided : Attempt ε α → Bool
  | .again _ => true
  | .done _ | .stop _ => false

end Attempt

/-- Attempt number `n`, and as many further ones as are left while they do not decide. -/
def attempts (op : Nat → Program C R ε (Attempt ε α)) : Nat → Nat → Program C R ε α
  | 0, n => op n >>= fun attempt => .ofExcept attempt.result
  | left + 1, n => op n >>= fun attempt =>
      if attempt.undecided then attempts op left (n + 1) else .ofExcept attempt.result

/-- What a complete run of the attempts adds, when attempt number `n` adds what `P n` says. -/
inductive Tried (P : Nat → Except ε (Attempt ε α) → List (Sigma R) → Prop) :
    Nat → Nat → Except ε α → List (Sigma R) → Prop where
  | decided {left n : Nat} {attempt : Attempt ε α} {log : List (Sigma R)}
      (hadds : P n (.ok attempt) log) (hdecided : attempt.undecided = false ∨ left = 0) :
      Tried P left n attempt.result log
  | failed {left n : Nat} {e : ε} {log : List (Sigma R)} (hadds : P n (.error e) log) :
      Tried P left n (.error e) log
  | again {left n : Nat} {attempt : Attempt ε α} {log more : List (Sigma R)} {r : Except ε α}
      (hadds : P n (.ok attempt) log) (hundecided : attempt.undecided = true)
      (hrest : Tried P left (n + 1) r more) : Tried P (left + 1) n r (log ++ more)

theorem adds_ofExcept {x : Except ε α} {Q : Except ε α → List (Sigma R) → Prop} (h : Q x []) :
    Adds (.ofExcept x : Program C R ε α) Q := by
  cases x with
  | ok a => exact h
  | error e => exact h

/-- A call, and what follows it. -/
theorem adds_ask_bind {Q : Except ε β → List (Sigma R) → Prop} {c : C} {f : R c → Program C R ε β}
    (h : ∀ r, Adds (f r) fun x log => Q x (⟨c, r⟩ :: log)) :
    Adds ((Program.ask c : Program C R ε (R c)) >>= f) Q := h

/-- A program whose outcome is returned, and what follows it. -/
theorem adds_attempt_bind {P : Except ε α → List (Sigma R) → Prop}
    {Q : Except ε' β → List (Sigma R) → Prop} {p : Program C R ε α}
    {f : Except ε α → Program C R ε' β}
    (hf : ∀ r log, P r log → Adds (f r) fun x more => Q x (log ++ more)) (h : Adds p P) :
    Adds (p.attempt >>= f) Q := by
  induction p generalizing P Q with
  | done a => exact hf _ [] h
  | fail e => exact hf _ [] h
  | call c k ih => exact fun r => ih r (fun x log => hf x _) (h r)

/-- A program whose outcome is returned. -/
theorem adds_attempt {P : Except ε α → List (Sigma R) → Prop} {p : Program C R ε α}
    (h : Adds p P) :
    Adds (p.attempt : Program C R ε' (Except ε α)) fun r log => ∃ x, r = .ok x ∧ P x log := by
  induction p generalizing P with
  | done a => exact ⟨_, rfl, h⟩
  | fail e => exact ⟨_, rfl, h⟩
  | call c k ih => exact fun r => ih r (h r)

/-- **What the attempts add.** By induction on how many are left. -/
theorem adds_attempts {op : Nat → Program C R ε (Attempt ε α)}
    {P : Nat → Except ε (Attempt ε α) → List (Sigma R) → Prop} (hop : ∀ n, Adds (op n) (P n)) :
    ∀ (left n : Nat), Adds (attempts op left n) (Tried P left n) := by
  intro left
  induction left with
  | zero =>
      intro n
      refine adds_bind (P := P n) (fun attempt log hlog => ?_) (fun e log hlog => .failed hlog)
        (hop n)
      refine adds_ofExcept ?_
      rw [List.append_nil]
      exact .decided hlog (Or.inr rfl)
  | succ left ih =>
      intro n
      refine adds_bind (P := P n) (fun attempt log hlog => ?_) (fun e log hlog => .failed hlog)
        (hop n)
      by_cases hundecided : attempt.undecided = true
      · rw [if_pos hundecided]
        exact adds_mono (fun r more hmore => .again hlog hundecided hmore) (ih (n + 1))
      · rw [if_neg hundecided]
        refine adds_ofExcept ?_
        rw [List.append_nil]
        exact .decided hlog (Or.inl (by simpa using hundecided))

/-- The log of a run is that of its attempts, one after the other. -/
theorem Tried.parts {P : Nat → Except ε (Attempt ε α) → List (Sigma R) → Prop} {left n : Nat}
    {r : Except ε α} {log : List (Sigma R)} (h : Tried P left n r log) :
    ∃ parts : List (List (Sigma R)), log = parts.flatten ∧ parts.length ≤ left + 1 ∧
      ∀ part ∈ parts, ∃ k x, P k x part := by
  have hone : ∀ {left n : Nat} {x : Except ε (Attempt ε α)} {log : List (Sigma R)}, P n x log →
      ∃ parts : List (List (Sigma R)), log = parts.flatten ∧ parts.length ≤ left + 1 ∧
        ∀ part ∈ parts, ∃ k x, P k x part := by
    intro left n x log hadds
    refine ⟨[log], List.flatten_singleton.symm, Nat.le_add_left 1 left, fun part hpart => ?_⟩
    rw [List.mem_singleton.mp hpart]
    exact ⟨n, x, hadds⟩
  induction h with
  | decided hadds _ => exact hone hadds
  | failed hadds => exact hone hadds
  | @again left n attempt log more r hadds _ _ ih =>
      obtain ⟨parts, hlog, hlength, hparts⟩ := ih
      refine ⟨log :: parts, ?_, Nat.succ_le_succ hlength, ?_⟩
      · rw [hlog]
        rfl
      · exact List.forall_mem_cons.mpr ⟨⟨n, _, hadds⟩, hparts⟩

/-! ## What the attempts observe -/

section Observed

variable {O : Type} {P : Nat → Except ε (Attempt ε α) → List (Sigma R) → Prop}

/-- The log of attempts with these observations, the first of which is made by number `n`. -/
def showAll (shown : Nat → O → List (Sigma R)) : Nat → List O → List (Sigma R)
  | _, [] => []
  | n, o :: os => shown n o ++ showAll shown (n + 1) os

/-- A run of attempts: undecided ones, as many as there may be before the last, and a last one,
which settles the outcome; undecided itself only if no attempt is left. -/
structure Settled (shown : Nat → O → List (Sigma R)) (verdict : O → Attempt ε α) (left n : Nat)
    (r : Except ε α) (log : List (Sigma R)) (before : List O) (last : O) : Prop where
  log : log = showAll shown n (before ++ [last])
  bound : before.length ≤ left
  undecided : ∀ o ∈ before, (verdict o).undecided = true
  outcome : r = (verdict last).result
  exhausted : (verdict last).undecided = true → before.length = left

/-- **Each attempt makes one observation and is judged by it.** -/
theorem Tried.observed {shown : Nat → O → List (Sigma R)} {verdict : O → Attempt ε α}
    (hone : ∀ n x l, P n x l → ∃ o, l = shown n o ∧ x = .ok (verdict o))
    {left n : Nat} {r : Except ε α} {log : List (Sigma R)} (h : Tried P left n r log) :
    ∃ before last, Settled shown verdict left n r log before last := by
  induction h with
  | @decided left n attempt log hadds hdecided =>
      obtain ⟨o, rfl, hattempt⟩ := hone _ _ _ hadds
      obtain rfl := Except.ok.inj hattempt
      refine ⟨[], o, ?_, Nat.zero_le left, fun _ hmem => absurd hmem List.not_mem_nil, rfl, ?_⟩
      · exact (List.append_nil _).symm
      · intro hundecided
        rcases hdecided with hdecided | hzero
        · rw [hdecided] at hundecided
          cases hundecided
        · exact hzero.symm
  | failed hadds =>
      obtain ⟨o, -, hattempt⟩ := hone _ _ _ hadds
      cases hattempt
  | @again left n attempt log more r hadds hundecided _ ih =>
      obtain ⟨o, rfl, hattempt⟩ := hone _ _ _ hadds
      obtain rfl := Except.ok.inj hattempt
      obtain ⟨before, last, hlog, hbound, hbefore, houtcome, hexhausted⟩ := ih
      refine ⟨o :: before, last, ?_, ?_, ?_, houtcome, ?_⟩
      · rw [hlog]
        rfl
      · rw [List.length_cons]
        omega
      · exact List.forall_mem_cons.mpr ⟨hundecided, hbefore⟩
      · intro hlast
        rw [List.length_cons, hexhausted hlast]

/-- What the attempts cost together, each at most the cost of its number. -/
theorem Tried.cost_le (cost : List (Sigma R) → Nat) (price : Nat → Nat)
    (happend : ∀ l l', cost (l ++ l') = cost l + cost l')
    (hone : ∀ n x l, P n x l → cost l ≤ price n) {left n : Nat} {r : Except ε α}
    {log : List (Sigma R)} (h : Tried P left n r log) :
    cost log ≤ ∑ i ∈ Finset.range (left + 1), price (n + i) := by
  have hfirst : ∀ left n, price n ≤ ∑ i ∈ Finset.range (left + 1), price (n + i) := by
    intro left n
    have hmem : 0 ∈ Finset.range (left + 1) := Finset.mem_range.mpr (Nat.succ_pos left)
    exact Finset.single_le_sum (f := fun i => price (n + i)) (fun i _ => Nat.zero_le _) hmem
  induction h with
  | decided hadds _ => exact (hone _ _ _ hadds).trans (hfirst _ _)
  | failed hadds => exact (hone _ _ _ hadds).trans (hfirst _ _)
  | @again left n attempt log more r hadds _ _ ih =>
      have hlog := hone _ _ _ hadds
      have hshift : ∀ i, price (n + (i + 1)) = price (n + 1 + i) := by
        intro i
        congr 1
        omega
      calc cost (log ++ more) = cost log + cost more := happend log more
        _ ≤ price n + ∑ i ∈ Finset.range (left + 1), price (n + 1 + i) := Nat.add_le_add hlog ih
        _ = ∑ i ∈ Finset.range (left + 1 + 1), price (n + i) := by
            rw [Finset.sum_range_succ' (fun i => price (n + i)) (left + 1), Nat.add_comm]
            simp only [hshift, Nat.add_zero]

end Observed

end Prog
