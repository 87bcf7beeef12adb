import Mathlib.Tactic

set_option autoImplicit false

/-! # Runs of a step function

A system is a function `step` from a state and a label to the next state, `none` when the label
is not enabled; the choices of schedulers, networks and other processes are part of the labels.
A run is a list of labels. What one step preserves, a run preserves (`invariant`), also when
the steps preserve it only under a condition that every step of the run meets (`Always`).
-/

namespace Runs

variable {σ ℓ : Type*}

/-- The state that a run ends in. -/
def run (step : σ → ℓ → Option σ) : σ → List ℓ → Option σ
  | s, [] => some s
  | s, l :: ls =>
      match step s l with
      | some s' => run step s' ls
      | none => none

/-- Every step of the run is taken in a state and with a label that satisfy `C`. -/
def Always (step : σ → ℓ → Option σ) (C : σ → ℓ → Prop) : σ → List ℓ → Prop
  | _, [] => True
  | s, l :: ls => C s l ∧
      match step s l with
      | some s' => Always step C s' ls
      | none => True

instance decidableAlways (step : σ → ℓ → Option σ) (C : σ → ℓ → Prop)
    [∀ s l, Decidable (C s l)] : ∀ (s : σ) (ls : List ℓ), Decidable (Always step C s ls)
  | _, [] => inferInstanceAs (Decidable True)
  | s, l :: ls =>
      match h : step s l with
      | some s' =>
          have := decidableAlways step C s' ls
          decidable_of_iff (C s l ∧ Always step C s' ls) (by simp [Always, h])
      | none => decidable_of_iff (C s l) (by simp [Always, h])

variable {step : σ → ℓ → Option σ}

/-- A guarded step was enabled and went where its branch says. -/
theorem of_guard {p : Prop} [Decidable p] {s t : σ} (h : (if p then some s else none) = some t) :
    p ∧ s = t := by
  rw [Option.ite_none_right_eq_some] at h
  exact ⟨h.1, Option.some.inj h.2⟩

theorem run_cons_eq_some {s s' : σ} {l : ℓ} {ls : List ℓ} :
    run step s (l :: ls) = some s' ↔ ∃ t, step s l = some t ∧ run step t ls = some s' := by
  rw [run]
  cases step s l with
  | none => simp
  | some t => simp

theorem always_true {s : σ} {ls : List ℓ} : Always step (fun _ _ => True) s ls := by
  induction ls generalizing s with
  | nil => trivial
  | cons l ls ih =>
      refine ⟨trivial, ?_⟩
      split
      · exact ih
      · trivial

theorem Always.mono {C D : σ → ℓ → Prop} (h : ∀ s l, C s l → D s l) {ls : List ℓ} :
    ∀ {s : σ}, Always step C s ls → Always step D s ls := by
  induction ls with
  | nil => exact fun _ => trivial
  | cons l ls ih =>
      rintro s ⟨hc, hrest⟩
      refine ⟨h s l hc, ?_⟩
      split
      · next t ht =>
          rw [ht] at hrest
          exact ih hrest
      · trivial

/-- **What every step keeps under the condition, a run whose steps all meet it keeps.** -/
theorem invariant_of_always {I : σ → Prop} {C : σ → ℓ → Prop}
    (hstep : ∀ s l s', I s → C s l → step s l = some s' → I s') :
    ∀ {ls : List ℓ} {s s' : σ}, I s → Always step C s ls → run step s ls = some s' → I s' := by
  intro ls
  induction ls with
  | nil =>
      intro s s' hi _ hrun
      obtain rfl := Option.some.inj hrun
      exact hi
  | cons l ls ih =>
      rintro s s' hi ⟨hc, hrest⟩ hrun
      obtain ⟨t, ht, hrun⟩ := run_cons_eq_some.mp hrun
      rw [ht] at hrest
      exact ih (hstep s l t hi hc ht) hrest hrun

/-- **What every step keeps, a run keeps.** -/
theorem invariant {I : σ → Prop} (hstep : ∀ s l s', I s → step s l = some s' → I s')
    {ls : List ℓ} {s s' : σ} (hi : I s) (hrun : run step s ls = some s') : I s' :=
  invariant_of_always (fun s l s' hi _ hs => hstep s l s' hi hs) hi always_true hrun

/-- A state that notes what each label brings has noted what the labels of the run brought. -/
theorem history_of_run {ε : Type*} {noted : σ → List ε} {brings : ℓ → Option ε}
    (hstep : ∀ s l t, step s l = some t → noted t = noted s ++ (brings l).toList) {ls : List ℓ} :
    ∀ {s t : σ}, run step s ls = some t → noted t = noted s ++ ls.filterMap brings := by
  induction ls with
  | nil =>
      intro s t hrun
      obtain rfl := Option.some.inj hrun
      rw [List.filterMap_nil, List.append_nil]
  | cons l ls ih =>
      intro s t hrun
      obtain ⟨u, hu, hrun⟩ := run_cons_eq_some.mp hrun
      rw [ih hrun, hstep s l u hu, List.append_assoc, List.filterMap_cons]
      cases brings l with
      | none => rfl
      | some event => rfl

/-! ## What a run shows

Each step shows some events; the log of a run lists them in order. -/

section Log

variable {ε : Type*} {emit : σ → ℓ → σ → List ε}

def log (step : σ → ℓ → Option σ) (emit : σ → ℓ → σ → List ε) : σ → List ℓ → List ε
  | _, [] => []
  | s, l :: ls =>
      match step s l with
      | some t => emit s l t ++ log step emit t ls
      | none => []

theorem log_cons {s t : σ} {l : ℓ} (h : step s l = some t) (ls : List ℓ) :
    log step emit s (l :: ls) = emit s l t ++ log step emit t ls := by
  rw [log, h]

theorem log_cons_none {s : σ} {l : ℓ} (h : step s l = none) (ls : List ℓ) :
    log step emit s (l :: ls) = [] := by
  rw [log, h]

theorem log_append {s t : σ} {ls : List ℓ} (h : run step s ls = some t) (ls' : List ℓ) :
    log step emit s (ls ++ ls') = log step emit s ls ++ log step emit t ls' := by
  induction ls generalizing s with
  | nil =>
      obtain rfl := Option.some.inj h
      rfl
  | cons l ls ih =>
      obtain ⟨u, hu, hrun⟩ := run_cons_eq_some.mp h
      rw [List.cons_append, log_cons hu, log_cons hu, ih hrun, List.append_assoc]

/-- **Every event is shown by a step**, and what follows it in the log is the rest of what the
step shows and the log of the rest of the run. -/
theorem exists_step_of_log {e : ε} {after : List ε} : ∀ {ls : List ℓ} {s : σ} {before : List ε},
    log step emit s ls = before ++ e :: after →
      ∃ front l back u t early late, ls = front ++ l :: back ∧ run step s front = some u ∧
        step u l = some t ∧ emit u l t = early ++ e :: late ∧
        after = late ++ log step emit t back := by
  intro ls
  induction ls with
  | nil =>
      intro s before h
      simp [log] at h
  | cons l ls ih =>
      intro s before h
      cases hstep : step s l with
      | none =>
          rw [log_cons_none hstep] at h
          simp at h
      | some t =>
          rw [log_cons hstep] at h
          rcases List.append_eq_append_iff.mp h with ⟨early, hbefore, hrest⟩ | ⟨late, hemit, hrest⟩
          · -- the event is shown later
            obtain ⟨front, l', back, u, t', early', late, rfl, hrun, hlater⟩ := ih hrest
            exact ⟨l :: front, l', back, u, t', early', late, rfl,
              run_cons_eq_some.mpr ⟨t, hstep, hrun⟩, hlater⟩
          · cases late with
            | nil =>
                have hhere : log step emit t ls = [] ++ e :: after := hrest.symm
                obtain ⟨front, l', back, u, t', early', late, rfl, hrun, hlater⟩ := ih hhere
                exact ⟨l :: front, l', back, u, t', early', late, rfl,
                  run_cons_eq_some.mpr ⟨t, hstep, hrun⟩, hlater⟩
            | cons e' late =>
                obtain ⟨rfl, hafter⟩ := List.cons.inj hrest
                exact ⟨[], l, ls, s, t, before, late, rfl, rfl, hstep, hemit, hafter⟩

end Log

/-! ## Lists of parties

A state holds its parties in a list; a step adds a party at the end or replaces one. -/

theorem forall_concat {β : Type} {xs : List β} {x : β} {p : β → Prop} (hold : ∀ y ∈ xs, p y)
    (hnew : p x) : ∀ y ∈ xs ++ [x], p y := by
  intro y hy
  rcases List.mem_append.mp hy with hy | hy
  · exact hold y hy
  · rw [List.mem_singleton.mp hy]
    exact hnew

theorem forall_set {β : Type} {xs : List β} {i : Nat} {x : β} {p : β → Prop}
    (hold : ∀ y ∈ xs, p y) (hnew : p x) : ∀ y ∈ xs.set i x, p y := by
  intro y hy
  rcases List.mem_or_eq_of_mem_set hy with hy | rfl
  · exact hold y hy
  · exact hnew

end Runs
