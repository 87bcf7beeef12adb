import Mathlib.Data.List.Perm.Basic
import Mathlib.Order.Bounds.Basic
import TurboCi.Lib.Names
import TurboCi.Lib.Runs
import TurboCi.RunnerDaemon.AppliedConfig

set_option autoImplicit false

/-! # Concurrency slots

Every job gets the lowest id that is free on the runner and the lowest id that is free in its
project, and gives both back when it ends (`ConcurrencySlots` and `execute_job` in
`runner_daemon/mod.rs`). The second id is part of the name of the workspace
(`workspace` in `runner_daemon/executor.rs`), so jobs that run at the same time have different
workspaces.

`Slots.step` is the bare allocator with the pairs that are outstanding, `Jobs.step` starts and
ends jobs. A run of jobs is a run of the allocator (`Jobs.run_toSlots`). The ids are `u32`;
while all of them are taken the search in the source does not come to an end, and no job
starts. A panic that poisons the allocator's mutex is left out.
-/

namespace TurboCi

open Runs

/-! ## The allocator -/

/-- The ids in use on the runner and, where a project has any, in the project. -/
structure ConcurrencySlots where
  runner : Finset Nat := ∅
  projects : Nat → Option (Finset Nat) := fun _ => none

namespace ConcurrencySlots

/-- The first of `fuel` ids, from `id` on, that is not in use. -/
def findFree (used : Finset Nat) : Nat → Nat → Option Nat
  | 0, _ => none
  | fuel + 1, id => if id ∈ used then findFree used fuel (id + 1) else some id

/-- The lowest `u32` that is not in use. -/
def lowestFree (used : Finset Nat) : Option Nat := findFree used (2 ^ 32) 0

def setProject (projects : Nat → Option (Finset Nat)) (project : Nat)
    (used : Option (Finset Nat)) : Nat → Option (Finset Nat) :=
  fun p => if p = project then used else projects p

/-- `entry(project).or_default()`. -/
def usedIn (slots : ConcurrencySlots) (project : Nat) : Finset Nat :=
  (slots.projects project).getD ∅

def acquire (slots : ConcurrencySlots) (project : Nat) :
    Option ((Nat × Nat) × ConcurrencySlots) :=
  match lowestFree slots.runner with
  | none => none
  | some id =>
      match lowestFree (slots.usedIn project) with
      | none => none
      | some projectId => some ((id, projectId), {
          runner := insert id slots.runner
          projects := setProject slots.projects project
            (some (insert projectId (slots.usedIn project))) })

def release (slots : ConcurrencySlots) (project : Nat) (pair : Nat × Nat) : ConcurrencySlots where
  runner := slots.runner.erase pair.1
  projects := match slots.projects project with
    | some used => setProject slots.projects project
        (if used.erase pair.2 = ∅ then none else some (used.erase pair.2))
    | none => slots.projects

theorem findFree_eq_some {used : Finset Nat} {fuel first id : Nat} :
    findFree used fuel first = some id ↔
      first ≤ id ∧ id < first + fuel ∧ id ∉ used ∧ ∀ n, first ≤ n → n < id → n ∈ used := by
  induction fuel generalizing first with
  | zero =>
      simp only [findFree, reduceCtorEq, false_iff]
      omega
  | succ fuel ih =>
      rw [findFree]
      split
      · next hused =>
          rw [ih]
          constructor
          · rintro ⟨hle, hlt, hfree, hbelow⟩
            refine ⟨by omega, by omega, hfree, fun n hn hnid => ?_⟩
            rcases Nat.eq_or_lt_of_le hn with rfl | hn
            · exact hused
            · exact hbelow n hn hnid
          · rintro ⟨hle, hlt, hfree, hbelow⟩
            have hne : first ≠ id := fun h => hfree (h ▸ hused)
            exact ⟨by omega, by omega, hfree, fun n hn => hbelow n (by omega)⟩
      · next hunused =>
          simp only [Option.some.injEq]
          constructor
          · rintro rfl
            exact ⟨le_rfl, by omega, hunused, fun n hn hlt => by omega⟩
          · rintro ⟨hle, -, -, hbelow⟩
            by_contra hne
            exact hunused (hbelow first le_rfl (by omega))

/-- **The id found is the least one that is not in use.** -/
theorem isLeast_of_lowestFree {used : Finset Nat} {id : Nat} (h : lowestFree used = some id) :
    IsLeast {n | n ∉ used} id := by
  obtain ⟨-, -, hfree, hbelow⟩ := findFree_eq_some.mp h
  refine ⟨hfree, fun n hn => ?_⟩
  by_contra hlt
  exact hn (hbelow n (Nat.zero_le n) (by omega))

/-- An id is found while not all of them are in use. -/
theorem isSome_lowestFree {used : Finset Nat} (h : used.card < 2 ^ 32) :
    (lowestFree used).isSome := by
  have hfree : ∃ n, n < 2 ^ 32 ∧ n ∉ used := by
    by_contra hall
    push Not at hall
    have hsub : Finset.range (2 ^ 32) ⊆ used := fun n hn => hall n (Finset.mem_range.mp hn)
    have hcard := Finset.card_le_card hsub
    rw [Finset.card_range] at hcard
    omega
  have hleast := Nat.find_spec hfree
  rw [lowestFree, Option.isSome_iff_exists]
  refine ⟨Nat.find hfree, findFree_eq_some.mpr ⟨Nat.zero_le _, by omega, hleast.2, ?_⟩⟩
  intro n _ hn
  have hmin := Nat.find_min hfree hn
  by_contra hunused
  exact hmin ⟨by omega, hunused⟩

end ConcurrencySlots

/-! ## Runs of the allocator -/

/-- A pair of ids that was handed out to a job of a project. -/
structure Slot where
  project : Nat
  pair : Nat × Nat
  deriving DecidableEq

/-- The runner ids differ, and in one project the project ids. -/
def Slot.Apart (a b : Slot) : Prop :=
  a.pair.1 ≠ b.pair.1 ∧ (a.project = b.project → a.pair.2 ≠ b.pair.2)

theorem Slot.Apart.symm {a b : Slot} (h : a.Apart b) : b.Apart a :=
  ⟨h.1.symm, fun hproject => (h.2 hproject.symm).symm⟩

namespace Slots

/-- The allocator, and the pairs that were handed out and not given back. -/
structure State where
  slots : ConcurrencySlots := {}
  outstanding : List Slot := []

inductive Label where
  | acquire (project : Nat)
  /-- gives back an outstanding pair -/
  | release (i : Nat)

def step (s : State) : Label → Option State
  | .acquire project =>
      match s.slots.acquire project with
      | some (pair, slots) => some ⟨slots, s.outstanding ++ [⟨project, pair⟩]⟩
      | none => none
  | .release i =>
      match s.outstanding[i]? with
      | some slot => some ⟨s.slots.release slot.project slot.pair, s.outstanding.eraseIdx i⟩
      | none => none

/-- The ids in use are the ids that are outstanding, and no project has an empty entry. -/
structure Inv (s : State) : Prop where
  apart : s.outstanding.Pairwise Slot.Apart
  runner : ∀ id, id ∈ s.slots.runner ↔ ∃ a ∈ s.outstanding, a.pair.1 = id
  projects : ∀ project id, id ∈ s.slots.usedIn project ↔
    ∃ a ∈ s.outstanding, a.project = project ∧ a.pair.2 = id
  nonempty : ∀ project, s.slots.projects project ≠ some ∅

/-- All that `acquire` does. -/
theorem step_acquire {s s' : State} {project : Nat} (h : step s (.acquire project) = some s') :
    ∃ id projectId, IsLeast {n | n ∉ s.slots.runner} id ∧
      IsLeast {n | n ∉ s.slots.usedIn project} projectId ∧
      s' = {
        slots := {
          runner := insert id s.slots.runner
          projects := ConcurrencySlots.setProject s.slots.projects project
            (some (insert projectId (s.slots.usedIn project))) }
        outstanding := s.outstanding ++ [⟨project, id, projectId⟩] } := by
  simp only [step, ConcurrencySlots.acquire] at h
  cases hid : ConcurrencySlots.lowestFree s.slots.runner with
  | none => simp [hid] at h
  | some id =>
      cases hproject : ConcurrencySlots.lowestFree (s.slots.usedIn project) with
      | none => simp [hid, hproject] at h
      | some projectId =>
          refine ⟨id, projectId, ConcurrencySlots.isLeast_of_lowestFree hid,
            ConcurrencySlots.isLeast_of_lowestFree hproject, ?_⟩
          simpa [hid, hproject] using h.symm

theorem usedIn_setProject {slots : ConcurrencySlots} {runner : Finset Nat} {p project : Nat}
    {used : Option (Finset Nat)} :
    (ConcurrencySlots.mk runner
      (ConcurrencySlots.setProject slots.projects project used)).usedIn p =
      if p = project then used.getD ∅ else slots.usedIn p := by
  simp only [ConcurrencySlots.usedIn, ConcurrencySlots.setProject]
  split
  · rfl
  · rfl

theorem inv_acquire {s s' : State} {project : Nat} (hi : Inv s)
    (h : step s (.acquire project) = some s') : Inv s' := by
  obtain ⟨id, projectId, hid, hproject, rfl⟩ := step_acquire h
  constructor
  · -- the new ids are in no outstanding pair
    refine List.pairwise_append.mpr ⟨hi.apart, List.pairwise_singleton _ _, ?_⟩
    intro a ha b hb
    rw [List.mem_singleton.mp hb]
    refine ⟨fun heq => hid.1 ?_, fun hsame heq => hproject.1 ?_⟩
    · exact (hi.runner id).mpr ⟨a, ha, heq⟩
    · exact (hi.projects project projectId).mpr ⟨a, ha, hsame, heq⟩
  · intro n
    simp only [Finset.mem_insert, hi.runner n, List.mem_append, List.mem_singleton, or_and_right,
      exists_or, exists_eq_left]
    rw [or_comm, eq_comm]
  · intro p n
    rw [usedIn_setProject]
    simp only [List.mem_append, List.mem_singleton, or_and_right, exists_or, exists_eq_left]
    split
    · next hp =>
        subst hp
        simp only [Option.getD_some, Finset.mem_insert, hi.projects p n, true_and]
        rw [or_comm, eq_comm]
    · next hp =>
        simp only [hi.projects p n, Ne.symm hp, false_and, or_false]
  · intro p
    simp only [ConcurrencySlots.setProject]
    split
    · simp
    · exact hi.nonempty p

theorem usedIn_release (slots : ConcurrencySlots) (project p : Nat) (pair : Nat × Nat) :
    (slots.release project pair).usedIn p =
      if p = project then (slots.usedIn p).erase pair.2 else slots.usedIn p := by
  cases hused : slots.projects project with
  | none =>
      simp only [ConcurrencySlots.usedIn, ConcurrencySlots.release, hused]
      split
      · next hp =>
          subst hp
          simp [hused]
      · rfl
  | some used =>
      simp only [ConcurrencySlots.usedIn, ConcurrencySlots.release, hused,
        ConcurrencySlots.setProject]
      by_cases hp : p = project
      · subst hp
        by_cases hempty : used.erase pair.2 = ∅
        · simp [hused, hempty]
        · simp [hused, hempty]
      · simp [hp]

/-- An entry that becomes empty is dropped. -/
theorem release_ne_empty {slots : ConcurrencySlots} {project : Nat} {pair : Nat × Nat}
    (hslots : ∀ p, slots.projects p ≠ some ∅) (p : Nat) :
    (slots.release project pair).projects p ≠ some ∅ := by
  cases hused : slots.projects project with
  | none =>
      simp only [ConcurrencySlots.release, hused]
      exact hslots p
  | some used =>
      simp only [ConcurrencySlots.release, hused, ConcurrencySlots.setProject]
      split
      · split
        · simp
        · next hne => exact fun h => hne (Option.some.inj h)
      · exact hslots p

/-- Taking one pair out leaves the others. -/
theorem perm_eraseIdx {outstanding : List Slot} {i : Nat} {slot : Slot}
    (h : outstanding[i]? = some slot) : outstanding.Perm (slot :: outstanding.eraseIdx i) := by
  obtain ⟨hlt, rfl⟩ := List.getElem?_eq_some_iff.mp h
  exact (List.getElem_cons_eraseIdx_perm hlt).symm

theorem inv_release {s s' : State} {i : Nat} (hi : Inv s) (h : step s (.release i) = some s') :
    Inv s' := by
  simp only [step] at h
  split at h
  case h_2 => cases h
  next slot hslot =>
  obtain rfl := Option.some.inj h
  have hperm := perm_eraseIdx hslot
  have hmem : ∀ a, a ∈ s.outstanding ↔ a = slot ∨ a ∈ s.outstanding.eraseIdx i :=
    fun a => by rw [hperm.mem_iff, List.mem_cons]
  obtain ⟨hapart, hrest⟩ := List.pairwise_cons.mp
    ((hperm.pairwise_iff (fun hab => Slot.Apart.symm hab)).mp hi.apart)
  constructor
  · exact hrest
  · intro n
    simp only [ConcurrencySlots.release, Finset.mem_erase, hi.runner n, hmem, or_and_right,
      exists_or, exists_eq_left]
    constructor
    · rintro ⟨hne, heq | hothers⟩
      · exact absurd heq.symm hne
      · exact hothers
    · rintro ⟨a, ha, rfl⟩
      exact ⟨(hapart a ha).1.symm, .inr ⟨a, ha, rfl⟩⟩
  · intro p n
    rw [usedIn_release]
    have hold := hi.projects p n
    simp only [hmem, or_and_right, exists_or, exists_eq_left] at hold
    split
    · next hp =>
        subst hp
        rw [Finset.mem_erase, hold]
        constructor
        · rintro ⟨hne, heq | hothers⟩
          · exact absurd heq.2.symm hne
          · exact hothers
        · rintro ⟨a, ha, hsame, rfl⟩
          exact ⟨((hapart a ha).2 hsame.symm).symm, .inr ⟨a, ha, hsame, rfl⟩⟩
    · next hp =>
        rw [hold]
        simp [Ne.symm hp]
  · exact fun p => release_ne_empty hi.nonempty p

theorem inv_step {s : State} {l : Label} {s' : State} (hi : Inv s) (h : step s l = some s') :
    Inv s' := by
  cases l with
  | acquire project => exact inv_acquire hi h
  | release i => exact inv_release hi h

theorem inv_init : Inv {} := by
  constructor
  · exact List.Pairwise.nil
  · simp
  · simp [ConcurrencySlots.usedIn]
  · simp

theorem inv_run {ls : List Label} {s : State} (hrun : run step {} ls = some s) : Inv s :=
  invariant (fun _ _ _ hi hs => inv_step hi hs) inv_init hrun

/-- When nothing is outstanding, the allocator is as it was at the start. -/
theorem Inv.slots_eq {s : State} (hi : Inv s) (hnone : s.outstanding = []) : s.slots = {} := by
  have hrunner : s.slots.runner = ∅ := by
    refine Finset.eq_empty_of_forall_notMem fun id hid => ?_
    simpa [hnone] using (hi.runner id).mp hid
  have hprojects : s.slots.projects = fun _ => none := by
    funext project
    cases hused : s.slots.projects project with
    | none => rfl
    | some used =>
        exfalso
        have hempty : used = ∅ := by
          refine Finset.eq_empty_of_forall_notMem fun id hid => ?_
          have hmem : id ∈ s.slots.usedIn project := by
            simpa [ConcurrencySlots.usedIn, hused] using hid
          simpa [hnone] using (hi.projects project id).mp hmem
        exact hi.nonempty project (hempty ▸ hused)
  show ConcurrencySlots.mk s.slots.runner s.slots.projects = {}
  rw [hrunner, hprojects]

/-- The sets hold at most one id for each outstanding pair. -/
theorem Inv.card_le {s : State} (hi : Inv s) (project : Nat) :
    s.slots.runner.card ≤ s.outstanding.length ∧
      (s.slots.usedIn project).card ≤ s.outstanding.length := by
  constructor
  · have hsub : s.slots.runner ⊆ (s.outstanding.map (·.pair.1)).toFinset := by
      intro id hid
      obtain ⟨a, ha, heq⟩ := (hi.runner id).mp hid
      exact List.mem_toFinset.mpr (List.mem_map.mpr ⟨a, ha, heq⟩)
    calc s.slots.runner.card
        ≤ (s.outstanding.map (·.pair.1)).toFinset.card := Finset.card_le_card hsub
      _ ≤ (s.outstanding.map (·.pair.1)).length := List.toFinset_card_le _
      _ = s.outstanding.length := List.length_map _
  · have hsub : s.slots.usedIn project ⊆ (s.outstanding.map (·.pair.2)).toFinset := by
      intro id hid
      obtain ⟨a, ha, -, heq⟩ := (hi.projects project id).mp hid
      exact List.mem_toFinset.mpr (List.mem_map.mpr ⟨a, ha, heq⟩)
    calc (s.slots.usedIn project).card
        ≤ (s.outstanding.map (·.pair.2)).toFinset.card := Finset.card_le_card hsub
      _ ≤ (s.outstanding.map (·.pair.2)).length := List.toFinset_card_le _
      _ = s.outstanding.length := List.length_map _

/-- A pair is handed out while fewer than all ids are. -/
theorem Inv.isSome_acquire {s : State} (hi : Inv s) (project : Nat)
    (hlt : s.outstanding.length < 2 ^ 32) : (step s (.acquire project)).isSome := by
  obtain ⟨hrunner, hproject⟩ := hi.card_le project
  obtain ⟨id, hid⟩ := Option.isSome_iff_exists.mp
    (ConcurrencySlots.isSome_lowestFree (hrunner.trans_lt hlt))
  obtain ⟨projectId, hprojectId⟩ := Option.isSome_iff_exists.mp
    (ConcurrencySlots.isSome_lowestFree (hproject.trans_lt hlt))
  simp [step, ConcurrencySlots.acquire, hid, hprojectId]

/-- **The new ids are the least ones that are not outstanding.** -/
theorem Inv.isLeast_acquire {s s' : State} (hi : Inv s) {project : Nat}
    (h : step s (.acquire project) = some s') :
    ∃ slot, s'.outstanding = s.outstanding ++ [slot] ∧ slot.project = project ∧
      IsLeast {n | ∀ a ∈ s.outstanding, a.pair.1 ≠ n} slot.pair.1 ∧
      IsLeast {n | ∀ a ∈ s.outstanding, a.project = project → a.pair.2 ≠ n} slot.pair.2 := by
  obtain ⟨id, projectId, hid, hprojectId, rfl⟩ := step_acquire h
  have hrunner : {n | n ∉ s.slots.runner} = {n | ∀ a ∈ s.outstanding, a.pair.1 ≠ n} := by
    ext n
    simp [hi.runner n]
  have hproject : {n | n ∉ s.slots.usedIn project} =
      {n | ∀ a ∈ s.outstanding, a.project = project → a.pair.2 ≠ n} := by
    ext n
    simp [hi.projects project n]
  exact ⟨⟨project, id, projectId⟩, rfl, rfl, hrunner ▸ hid, hproject ▸ hprojectId⟩

end Slots

/-! ## Names of workspaces -/

/-- The project whose ids a job gets. -/
def projectId (job : Job) : Nat := (job.jobInfo.map (·.projectId)).getD 0

/-- The directory name of the workspace below the builds root, and whether a later job may
reuse it. -/
def workspace (job : Job) : Chars × Bool :=
  let project := (job.jobInfo.map (·.projectId)).getD 0
  match job.gitInfo.bind (·.protectedRef) with
  | some protectedRef =>
      ("project-".toList ++ (Nat.toDigits 10 project ++ ('-' :: (Nat.toDigits 10 job.projectSlot
        ++ if protectedRef then "-protected".toList else []))), true)
  | none => ("job-".toList ++ Nat.toDigits 10 job.id, false)

/-- GitLab says that the job runs on a protected ref. -/
def OnProtectedRef (job : Job) : Prop := job.gitInfo.bind (·.protectedRef) = some true

/-- The end of a shared workspace's name. -/
def protectedSuffix (protectedRef : Bool) : Chars :=
  if protectedRef then "-protected".toList else []

theorem workspace_of_some {job : Job} {p : Bool}
    (h : job.gitInfo.bind (·.protectedRef) = some p) :
    (workspace job).1 = "project-".toList ++ (Nat.toDigits 10 (projectId job) ++
      ('-' :: (Nat.toDigits 10 job.projectSlot ++ protectedSuffix p))) := by
  simp only [workspace, h]
  rfl

theorem workspace_of_none {job : Job} (h : job.gitInfo.bind (·.protectedRef) = none) :
    (workspace job).1 = "job-".toList ++ Nat.toDigits 10 job.id := by
  simp only [workspace, h]

theorem noDigit_protectedSuffix (p : Bool) : Names.NoDigit (protectedSuffix p) := by
  cases p with
  | false => exact Names.noDigit_nil
  | true => decide

theorem protectedSuffix_inj {p q : Bool} (h : protectedSuffix p = protectedSuffix q) : p = q := by
  revert h
  revert p q
  decide

/-- **What a workspace's name says about its job**: jobs with one workspace agree on the
protection of the ref and, where GitLab gives it, on project and slot; other jobs are one
job. -/
theorem eq_of_workspace_eq {a b : Job} (h : (workspace a).1 = (workspace b).1) :
    a.gitInfo.bind (·.protectedRef) = b.gitInfo.bind (·.protectedRef) ∧
      (a.id = b.id ∨ (projectId a = projectId b ∧ a.projectSlot = b.projectSlot)) := by
  cases ha : a.gitInfo.bind (·.protectedRef) with
  | none =>
      rw [workspace_of_none ha] at h
      cases hb : b.gitInfo.bind (·.protectedRef) with
      | none =>
          rw [workspace_of_none hb] at h
          exact ⟨rfl, .inl (Names.toDigits_inj.mp (List.append_cancel_left h))⟩
      | some q =>
          rw [workspace_of_some hb] at h
          exact absurd (congrArg List.head? h) (by simp)
  | some p =>
      rw [workspace_of_some ha] at h
      cases hb : b.gitInfo.bind (·.protectedRef) with
      | none =>
          rw [workspace_of_none hb] at h
          exact absurd (congrArg List.head? h) (by simp)
      | some q =>
          rw [workspace_of_some hb] at h
          have hdash : ∀ rest, Names.NoDigit ('-' :: rest) := fun _ =>
            Names.noDigit_cons (by decide)
          obtain ⟨hproject, hrest⟩ := Names.toDigits_append_inj (hdash _) (hdash _)
            (List.append_cancel_left h)
          obtain ⟨hslot, hsuffix⟩ := Names.toDigits_append_inj (noDigit_protectedSuffix p)
            (noDigit_protectedSuffix q) (List.cons.inj hrest).2
          exact ⟨congrArg some (protectedSuffix_inj hsuffix), .inr ⟨hproject, hslot⟩⟩

/-! ## Jobs -/

/-- What is known when the runner is built. -/
structure Build where
  version : Chars := []
  revision : Chars := []
  executableArch : Chars := []

/-- First 9 characters of the runner token after its prefix. -/
def shortToken (token : Chars) : Chars :=
  let rest := ((stripPrefix "glrtr-".toList token).or (stripPrefix "glrt-".toList token)).getD token
  let rest := match rest with
    | 't' :: n :: '_' :: tail => if n ∈ ['1', '2', '3'] then tail else rest
    | _ => rest
  rest.take 9

/-- The job that `execute_job` runs: with the runner's variables and its slot. -/
def withSlot (build : Build) (config : Config.RunnerConfig) (token : Chars) (pair : Nat × Nat)
    (job : Job) : Job :=
  applyRunnerConfig config { job with
    vars := insertVars [
      runnerVariable "CI_CONCURRENT_ID".toList (Nat.toDigits 10 pair.1),
      runnerVariable "CI_CONCURRENT_PROJECT_ID".toList (Nat.toDigits 10 pair.2),
      runnerVariable "CI_RUNNER_VERSION".toList build.version,
      runnerVariable "CI_RUNNER_REVISION".toList build.revision,
      runnerVariable "CI_RUNNER_EXECUTABLE_ARCH".toList build.executableArch,
      runnerVariable "CI_RUNNER_SHORT_TOKEN".toList (shortToken token)] job.vars
    projectSlot := pair.2 }

namespace Jobs

structure Running where
  job : Job
  slot : Slot

structure State where
  slots : ConcurrencySlots := {}
  running : List Running := []
  /-- every job that was started so far -/
  started : List Job := []

inductive Label where
  /-- `execute_job` begins, with the current runner token -/
  | start (job : Job) (token : Chars)
  /-- `execute_job` is done with a job -/
  | finish (i : Nat)

def step (build : Build) (config : Config.RunnerConfig) (s : State) : Label → Option State
  | .start job token =>
      match s.slots.acquire (projectId job) with
      | some (pair, slots) =>
          let slotted := withSlot build config token pair job
          some ⟨slots, s.running ++ [⟨slotted, projectId job, pair⟩], s.started ++ [slotted]⟩
      | none => none
  | .finish i =>
      match s.running[i]? with
      | some r =>
          some ⟨s.slots.release r.slot.project r.slot.pair, s.running.eraseIdx i, s.started⟩
      | none => none

/-- The allocator's part of a state, and of a label. -/
def State.toSlots (s : State) : Slots.State := ⟨s.slots, s.running.map (·.slot)⟩

def Label.toSlots : Label → Slots.Label
  | .start job _ => .acquire (projectId job)
  | .finish i => .release i

/-- A step of the jobs is a step of the allocator. -/
theorem step_toSlots {build : Build} {config : Config.RunnerConfig} {s s' : State} {l : Label}
    (h : step build config s l = some s') : Slots.step s.toSlots l.toSlots = some s'.toSlots := by
  cases l with
  | start job token =>
      simp only [step] at h
      split at h
      · next pair slots hacquire =>
          obtain rfl := Option.some.inj h
          simp [Slots.step, State.toSlots, Label.toSlots, hacquire]
      · cases h
  | finish i =>
      simp only [step] at h
      split at h
      · next r hr =>
          obtain rfl := Option.some.inj h
          simp [Slots.step, State.toSlots, Label.toSlots, hr, List.eraseIdx_map]
      · cases h

/-- **A run of the jobs is a run of the allocator.** -/
theorem run_toSlots {build : Build} {config : Config.RunnerConfig} {ls : List Label} {s s' : State}
    (h : run (step build config) s ls = some s') :
    run Slots.step s.toSlots (ls.map Label.toSlots) = some s'.toSlots := by
  induction ls generalizing s with
  | nil =>
      obtain rfl := Option.some.inj h
      rfl
  | cons l ls ih =>
      obtain ⟨t, ht, hrun⟩ := run_cons_eq_some.mp h
      exact run_cons_eq_some.mpr ⟨t.toSlots, step_toSlots ht, ih hrun⟩

/-- Every running job carries the slot that it holds. -/
def Slotted (s : State) : Prop :=
  ∀ r ∈ s.running, projectId r.job = r.slot.project ∧ r.job.projectSlot = r.slot.pair.2

theorem slotted_step {build : Build} {config : Config.RunnerConfig} {s : State} {l : Label}
    {s' : State}
    (hi : Slotted s) (h : step build config s l = some s') : Slotted s' := by
  cases l with
  | start job token =>
      simp only [step] at h
      split at h
      · obtain rfl := Option.some.inj h
        exact forall_concat hi ⟨rfl, rfl⟩
      · cases h
  | finish i =>
      simp only [step] at h
      split at h
      · obtain rfl := Option.some.inj h
        exact fun r hr => hi r (List.mem_of_mem_eraseIdx hr)
      · cases h

end Jobs

/-- **Concurrent jobs never share a workspace.** In every run of the allocator the outstanding
ids are distinct, on the runner and in each project; an id is handed out while fewer than
`2 ^ 32` are, and it is the least one that is not outstanding; when all are given back, the
allocator is empty. So jobs that run at the same time have different workspaces, and a job on
a protected ref never gets the workspace of another kind of job. -/
theorem concurrent_jobs_never_share :
    (∀ ls s, run Slots.step {} ls = some s →
      s.outstanding.Pairwise Slot.Apart ∧ (s.outstanding = [] → s.slots = {}) ∧
      ∀ project,
        (s.outstanding.length < 2 ^ 32 → (Slots.step s (.acquire project)).isSome) ∧
        ∀ s', Slots.step s (.acquire project) = some s' →
          ∃ slot, s'.outstanding = s.outstanding ++ [slot] ∧ slot.project = project ∧
            IsLeast {n | ∀ a ∈ s.outstanding, a.pair.1 ≠ n} slot.pair.1 ∧
            IsLeast {n | ∀ a ∈ s.outstanding, a.project = project → a.pair.2 ≠ n}
              slot.pair.2) ∧
    (∀ build config ls s, run (Jobs.step build config) {} ls = some s →
      (s.running.Pairwise fun a b =>
        a.job.id ≠ b.job.id → (workspace a.job).1 ≠ (workspace b.job).1) ∧
      ∀ a ∈ s.started, ∀ b ∈ s.started, OnProtectedRef a → ¬ OnProtectedRef b →
        (workspace a).1 ≠ (workspace b).1) := by
  constructor
  · intro ls s hrun
    have hi : Slots.Inv s := Slots.inv_run hrun
    exact ⟨hi.apart, hi.slots_eq,
      fun project => ⟨hi.isSome_acquire project, fun s' hs => hi.isLeast_acquire hs⟩⟩
  · intro build config ls s hrun
    constructor
    · have hslots : Slots.Inv s.toSlots := Slots.inv_run (Jobs.run_toSlots hrun)
      have hslotted : Jobs.Slotted s :=
        invariant (fun _ _ _ hi hs => Jobs.slotted_step hi hs)
          (fun r hr => absurd hr List.not_mem_nil) hrun
      refine (List.pairwise_map.mp hslots.apart).imp_of_mem ?_
      intro a b ha hb hapart hid hname
      obtain ⟨hproject, hslot⟩ := (eq_of_workspace_eq hname).2.resolve_left hid
      rw [(hslotted a ha).1, (hslotted b hb).1] at hproject
      rw [(hslotted a ha).2, (hslotted b hb).2] at hslot
      exact hapart.2 hproject hslot
    · intro a _ b _ ha hb hname
      exact hb ((eq_of_workspace_eq hname).1.symm.trans ha)

/-- Three jobs of a project, the second one on a protected ref; the first one ends before the
third one starts. -/
def threeJobs : List Jobs.Label :=
  let job : Nat → Option Bool → Job := fun id isProtected =>
    { id := id, token := [], jobInfo := some ⟨7⟩, gitInfo := some { protectedRef := isProtected } }
  [.start (job 1 (some false)) [], .start (job 2 (some true)) [], .finish 0,
    .start (job 3 (some false)) []]

theorem concurrent_jobs_never_share_threeJobs :
    ∃ s, run (Jobs.step {} {}) {} threeJobs = some s ∧
      s.running.map (fun r => (workspace r.job).1) =
        ["project-7-1-protected".toList, "project-7-0".toList] ∧
      (s.running.Pairwise fun a b =>
        a.job.id ≠ b.job.id → (workspace a.job).1 ≠ (workspace b.job).1) := by
  obtain ⟨s, hs, hnames⟩ : ∃ s, run (Jobs.step {} {}) {} threeJobs = some s ∧
      s.running.map (fun r => (workspace r.job).1) =
        ["project-7-1-protected".toList, "project-7-0".toList] :=
    Option.map_eq_some_iff.mp (by decide)
  exact ⟨s, hs, hnames, (concurrent_jobs_never_share.2 {} {} threeJobs s hs).1⟩

end TurboCi
