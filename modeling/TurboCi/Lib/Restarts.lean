import TurboCi.Lib.Prog

set_option autoImplicit false

/-! # Programs that are started again and again

A process may be killed between any two of its calls and started again. The world keeps what the
calls did before. What holds of the world before each call of the program and at its end, holds
however often the program is started and wherever it is killed (`keeps_run`).
-/

namespace Restarts

open Prog Runs

variable {C : Type} {R : C → Type} {ε α σ κ : Type}

/-- The world, the process that runs, and how those that were not killed ended and in what world. -/
structure State (σ C : Type) (R : C → Type) (ε α : Type) where
  world : σ
  running : Option (Program C R ε α) := none
  outcomes : List (Except ε α × σ) := []

inductive Label (κ : Type) where
  /-- a new process; one that still runs is killed -/
  | start
  /-- the process gets the reply to its call -/
  | answer (choice : κ)
  deriving DecidableEq

/-- The process goes on with this program, or it has ended. -/
def State.goOn (s : State σ C R ε α) (world : σ) : Program C R ε α → State σ C R ε α
  | .done a => { world, running := none, outcomes := s.outcomes ++ [(.ok a, world)] }
  | .fail e => { world, running := none, outcomes := s.outcomes ++ [(.error e, world)] }
  | .call c k => { world, running := some (.call c k), outcomes := s.outcomes }

variable (program : Program C R ε α) (exec : σ → (c : C) → κ → Option (σ × R c))

def step (s : State σ C R ε α) : Label κ → Option (State σ C R ε α)
  | .start => some (s.goOn s.world program)
  | .answer choice =>
      match s.running with
      | some (.call c k) =>
          match exec s.world c choice with
          | some (world, reply) => some (s.goOn world (k reply))
          | none => none
      | _ => none

/-- The choices that the world makes are allowed for the calls. -/
def Allowed (A : C → κ → Prop) (s : State σ C R ε α) : Label κ → Prop
  | .start => True
  | .answer choice => ∀ c k, s.running = some (.call c k) → A c choice

/-- What the world does by the choices that are allowed; `I` is owed to it before each call. -/
def worldSpec (A : C → κ → Prop) (I : σ → Prop) : Spec σ C R where
  pre w _ := I w
  post w c r t := ∃ choice, A c choice ∧ exec w c choice = some (t, r)

variable {program exec} {A : C → κ → Prop} {I : σ → Prop} {Q : Except ε α → σ → Prop}

theorem ends_ask {P : Except ε α → σ → Prop} {c : C} {f : R c → Program C R ε α} {w : σ} (hw : I w)
    (h : ∀ choice t r, A c choice → exec w c choice = some (t, r) →
      Ends (worldSpec exec A I) P (f r) t) :
    Ends (worldSpec exec A I) P ((Program.ask c : Program C R ε (R c)) >>= f) w := by
  refine ⟨hw, fun r t hr => ?_⟩
  obtain ⟨choice, hallowed, hcall⟩ := hr
  exact h choice t r hallowed hcall

/-- The world is as it should be, what runs keeps it so, and what ended after `since` ended as it
should. -/
structure Keeps (exec : σ → (c : C) → κ → Option (σ × R c)) (A : C → κ → Prop) (I : σ → Prop)
    (Q : Except ε α → σ → Prop) (since : List (Except ε α × σ)) (s : State σ C R ε α) : Prop where
  world : I s.world
  running : ∀ p, s.running = some p → Ends (worldSpec exec A I) (fun r w => I w ∧ Q r w) p s.world
  outcomes : ∃ later, s.outcomes = since ++ later ∧ ∀ r ∈ later, Q r.1 r.2

theorem keeps_idle {s : State σ C R ε α} (hw : I s.world) (hidle : s.running = none) :
    Keeps exec A I Q s.outcomes s where
  world := hw
  running := fun p hp => by rw [hidle] at hp; cases hp
  outcomes := ⟨[], (List.append_nil s.outcomes).symm, by simp⟩

theorem keeps_goOn {s : State σ C R ε α} {since : List (Except ε α × σ)} {w : σ}
    {p : Program C R ε α} (hs : ∃ later, s.outcomes = since ++ later ∧ ∀ r ∈ later, Q r.1 r.2)
    (hp : Ends (worldSpec exec A I) (fun r w => I w ∧ Q r w) p w) :
    Keeps exec A I Q since (s.goOn w p) := by
  obtain ⟨later, hlater, hall⟩ := hs
  have hended (r : Except ε α × σ) (hr : Q r.1 r.2) :
      ∃ later, s.outcomes ++ [r] = since ++ later ∧ ∀ r ∈ later, Q r.1 r.2 := by
    refine ⟨later ++ [r], by rw [hlater, List.append_assoc], fun r' hr' => ?_⟩
    rcases List.mem_append.mp hr' with hold | hnew
    · exact hall r' hold
    · rw [List.mem_singleton.mp hnew]
      exact hr
  cases p with
  | done a => exact ⟨hp.1, (fun q hq => by cases hq), hended _ hp.2⟩
  | fail e => exact ⟨hp.1, (fun q hq => by cases hq), hended _ hp.2⟩
  | call c k =>
      refine ⟨hp.1, fun q hq => ?_, later, hlater, hall⟩
      obtain rfl := Option.some.inj hq
      exact hp

/-- **What a program keeps at each of its calls, the world keeps** over any number of starts. -/
theorem keeps_run {since : List (Except ε α × σ)}
    (hstart : ∀ w, I w → Ends (worldSpec exec A I) (fun r t => I t ∧ Q r t) program w)
    {s t : State σ C R ε α} {ls : List (Label κ)} (hs : Keeps exec A I Q since s)
    (hA : Always (step program exec) (Allowed A) s ls)
    (hrun : run (step program exec) s ls = some t) : Keeps exec A I Q since t := by
  refine invariant_of_always (fun s l t hs hl hstep => ?_) hs hA hrun
  cases l with
  | start =>
      obtain rfl := Option.some.inj hstep
      exact keeps_goOn hs.outcomes (hstart s.world hs.world)
  | answer choice =>
      rw [step] at hstep
      split at hstep
      · next c k hrunning =>
          split at hstep
          · next w reply hcall =>
              obtain rfl := Option.some.inj hstep
              have hp := hs.running _ hrunning
              exact keeps_goOn hs.outcomes (hp.2 reply w ⟨choice, hl c k hrunning, hcall⟩)
          · cases hstep
      · cases hstep

end Restarts
