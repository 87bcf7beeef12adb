import TurboCi.Lib.Runs

set_option autoImplicit false

/-! # Evicting workspaces

Workspaces are kept between jobs and removed when no job used them for some days. A job notes
its workspace as in use, may start an eviction in the background, and writes the last-used
marker when it prepares the workspace; an eviction works from the workspaces that were in use
when it began, and removes what has an old marker (`runner_daemon/mod.rs`,
`runner_daemon/executor.rs`). Times are in nanoseconds, and the time stamp of a file lags behind
the clock by at most `grain`. Concurrent jobs have different workspaces, and what scripts do to
the marker is left out.

An eviction that looks at a marker before the job has written it removes the workspace of a
running job (`evicts_running`). Otherwise a workspace in use is removed only when its marker
cannot be read, when its job starts between the decision and the removal, or when the clock
misleads the eviction: it was set back, or went on by the retention period between the snapshot
and the scan (`no_eviction_in_use`).
-/

namespace TurboCi

open Runs

namespace Workspaces

/-- The name of a workspace below the builds root. -/
abbrev Name := List Char

/-- Nanoseconds. -/
abbrev Duration := Nat

def nanosPerSec : Nat := 10 ^ 9

/-- `Duration::from_secs` -/
def fromSecs (secs : Nat) : Duration := secs * nanosPerSec

/-- A workspace directory: when its marker was written, and its own modification time. -/
structure Dir where
  marker : Option Nat
  modified : Nat
  deriving DecidableEq

inductive JobPhase where
  /-- noted in `workspaces_in_use` -/
  | inserted
  /-- has called `evict_workspaces` -/
  | checked
  /-- has the directory of its workspace -/
  | created
  /-- has written the marker -/
  | prepared
  /-- has cleaned up -/
  | cleaned
  deriving DecidableEq

/-- A job, from noting its workspace as in use to removing the note. -/
structure Use where
  workspace : Name
  /-- the clock when the workspace was noted -/
  since : Nat
  phase : JobPhase := .inserted
  /-- the job has written the marker -/
  marked : Bool := false
  deriving DecidableEq

inductive TaskPhase where
  | spawned
  /-- has copied `workspaces_in_use` -/
  | snapshotted
  /-- has opened the builds root and read the clock -/
  | scanning (now : Nat)
  /-- has decided to remove a workspace -/
  | removing (now : Nat) (workspace : Name)
  deriving DecidableEq

/-- An eviction in the background. -/
structure Task where
  phase : TaskPhase := .spawned
  snapshot : List Name := []
  /-- the clock when `workspaces_in_use` was copied -/
  taken : Nat := 0
  deriving DecidableEq

structure State where
  /-- the system clock -/
  clock : Nat
  dirs : Name → Option Dir
  /-- the monotonic clock of `Instant` -/
  uptime : Nat := 0
  inUse : List Name := []
  uses : List Use := []
  tasks : List Task := []
  lastEviction : Option Nat := none
  /-- the workspaces an eviction removed while a job used them -/
  lost : List Name := []

inductive Label where
  | tick (elapsed : Duration)
  | setClock (clock : Nat)
  /-- a job notes its workspace as in use -/
  | insert (workspace : Name)
  /-- the job calls `evict_workspaces` -/
  | evict (workspace : Name)
  /-- `prepare` creates the directory if there is none, with the time stamp it gets then -/
  | create (workspace : Name) (stamp : Nat)
  /-- `prepare` writes the marker -/
  | mark (workspace : Name) (stamp : Nat)
  /-- the job cleans up, keeping the workspace or not -/
  | cleanup (workspace : Name) (keep : Bool)
  /-- the job's workspace is no longer in use -/
  | remove (workspace : Name)
  | snapshot (task : Nat)
  | readDir (task : Nat)
  /-- the task looks at a directory, and may fail to read its marker -/
  | examine (task : Nat) (workspace : Name) (failed : Bool)
  /-- the task is done removing the directory it decided to remove -/
  | delete (task : Nat)
  deriving DecidableEq

/-- In seconds. -/
def evictionInterval : Nat := 60 * 60

/-- The retention period in seconds, in wrapping arithmetic. -/
def maxAge (days : Nat) : Nat := days * 24 * 60 * 60 % 2 ^ 64

/-- When a workspace was last used: its marker, or else its modification time. -/
def Dir.used (dir : Dir) : Nat := dir.marker.getD dir.modified

/-- When an eviction thinks it was: without the marker where that cannot be read. -/
def Dir.seen (dir : Dir) (failed : Bool) : Nat := if failed then dir.modified else dir.used

def Dir.expired (days now : Nat) (failed : Bool) (dir : Dir) : Bool :=
  fromSecs (maxAge days) < now - dir.seen failed

/-- The directory after `tokio::fs::write` of the marker. -/
def Dir.mark (dir : Dir) (stamp : Nat) : Dir where
  marker := some stamp
  modified := if dir.marker.isNone then stamp else dir.modified

def setDir (dirs : Name → Option Dir) (name : Name) (dir : Option Dir) : Name → Option Dir :=
  fun n => if n = name then dir else dirs n

def Use.enter (phase : JobPhase) (u : Use) : Use := { u with phase := phase }

def setUse (uses : List Use) (workspace : Name) (change : Use → Use) : List Use :=
  uses.map (fun u => if u.workspace = workspace then change u else u)

def phaseOf (s : State) (workspace : Name) : Option JobPhase :=
  (s.uses.find? (·.workspace = workspace)).map (·.phase)

/-- Whether `evict_workspaces` starts an eviction. -/
def evictionDue (days : Nat) (s : State) : Bool :=
  0 < days && match s.lastEviction with
    | none => true
    | some last => fromSecs evictionInterval ≤ s.uptime - last

/-- A time stamp that a file may get. -/
def State.Stamps (grain : Duration) (s : State) (stamp : Nat) : Prop :=
  stamp ≤ s.clock ∧ s.clock ≤ stamp + grain

instance (grain : Duration) (s : State) (stamp : Nat) : Decidable (s.Stamps grain stamp) :=
  inferInstanceAs (Decidable (_ ∧ _))

def step (days : Nat) (grain : Duration) (s : State) : Label → Option State
  | .tick elapsed => some { s with clock := s.clock + elapsed, uptime := s.uptime + elapsed }
  | .setClock clock => some { s with clock := clock }
  | .insert workspace =>
      if phaseOf s workspace = none then
        some { s with
          inUse := workspace :: s.inUse
          uses := { workspace := workspace, since := s.clock } :: s.uses }
      else none
  | .evict workspace =>
      if phaseOf s workspace = some .inserted then
        if evictionDue days s then
          some { s with
            uses := setUse s.uses workspace (Use.enter .checked)
            lastEviction := some s.uptime
            tasks := s.tasks ++ [{}] }
        else some { s with uses := setUse s.uses workspace (Use.enter .checked) }
      else none
  | .create workspace stamp =>
      if phaseOf s workspace = some .checked ∧ s.Stamps grain stamp then
        some { s with
          dirs := setDir s.dirs workspace (some ((s.dirs workspace).getD ⟨none, stamp⟩))
          uses := setUse s.uses workspace (Use.enter .created) }
      else none
  | .mark workspace stamp =>
      match s.dirs workspace with
      | some dir =>
          if phaseOf s workspace = some .created ∧ s.Stamps grain stamp then
            some { s with
              dirs := setDir s.dirs workspace (some (dir.mark stamp))
              uses := setUse s.uses workspace
                (fun u => { u with phase := .prepared, marked := true }) }
          else none
      | none => none
  | .cleanup workspace keep =>
      -- also after a preparation that failed
      if phaseOf s workspace ∈ [some .checked, some .created, some .prepared] then
        some { s with
          dirs := if keep then s.dirs else setDir s.dirs workspace none
          uses := setUse s.uses workspace (Use.enter .cleaned) }
      else none
  | .remove workspace =>
      if phaseOf s workspace = some .cleaned then
        some { s with
          inUse := s.inUse.filter (· ≠ workspace)
          uses := s.uses.filter (·.workspace ≠ workspace) }
      else none
  | .snapshot task =>
      match s.tasks[task]? with
      | some ⟨.spawned, _, _⟩ =>
          some { s with tasks := s.tasks.set task ⟨.snapshotted, s.inUse, s.clock⟩ }
      | _ => none
  | .readDir task =>
      match s.tasks[task]? with
      | some ⟨.snapshotted, snapshot, taken⟩ =>
          some { s with tasks := s.tasks.set task ⟨.scanning s.clock, snapshot, taken⟩ }
      | _ => none
  | .examine task workspace failed =>
      match s.tasks[task]?, s.dirs workspace with
      | some ⟨.scanning now, snapshot, taken⟩, some dir =>
          if workspace ∉ snapshot ∧ dir.expired days now failed then
            some { s with tasks := s.tasks.set task ⟨.removing now workspace, snapshot, taken⟩ }
          else some s
      | _, _ => none
  | .delete task =>
      match s.tasks[task]? with
      | some ⟨.removing now workspace, snapshot, taken⟩ =>
          some { s with
            dirs := setDir s.dirs workspace none
            tasks := s.tasks.set task ⟨.scanning now, snapshot, taken⟩
            lost :=
              if (s.dirs workspace).isSome ∧ s.uses.any (·.workspace = workspace) then
                s.lost ++ [workspace]
              else s.lost }
      | _ => none

def init (clock : Nat) (dirs : Name → Option Dir) : State := { clock := clock, dirs := dirs }

/-! ## The races -/

def Task.Removes (t : Task) (workspace : Name) : Prop :=
  match t.phase with
  | .removing _ removed => removed = workspace
  | _ => False

instance (t : Task) (workspace : Name) : Decidable (t.Removes workspace) :=
  match h : t.phase with
  | .removing _ removed => decidable_of_iff (removed = workspace) (by simp [Task.Removes, h])
  | .spawned | .snapshotted | .scanning _ => isFalse (by simp [Task.Removes, h])

/-- Looking at the workspace, the task decides to remove it. -/
def Task.Condemns (days : Nat) (dirs : Name → Option Dir) (t : Task) (workspace : Name)
    (failed : Bool) : Prop :=
  workspace ∉ t.snapshot ∧ ∃ dir ∈ dirs workspace,
    match t.phase with
    | .scanning now => dir.expired days now failed = true
    | _ => False

instance (days : Nat) (dirs : Name → Option Dir) (t : Task) (workspace : Name) (failed : Bool) :
    Decidable (t.Condemns days dirs workspace failed) :=
  match h : t.phase with
  | .scanning now =>
      decidable_of_iff (workspace ∉ t.snapshot ∧
        ∃ dir ∈ dirs workspace, dir.expired days now failed = true) (by simp [Task.Condemns, h])
  | .spawned | .snapshotted | .removing _ _ => isFalse (by simp [Task.Condemns, h])

/-- The step races with an eviction: a job starts in a workspace that an eviction is removing,
an eviction decides to remove a workspace whose job has not written its marker yet or whose
marker it cannot read, the clock is set back, or it passed the retention period between an
eviction's snapshot and its scan. -/
def Races (days : Nat) (grain : Duration) (s : State) : Label → Prop
  | .insert workspace => ∃ t ∈ s.tasks, t.Removes workspace
  | .examine task workspace failed =>
      (∃ u ∈ s.uses, u.workspace = workspace ∧ (u.marked = false ∨ failed = true)) ∧
        ∃ t ∈ s.tasks[task]?, t.Condemns days s.dirs workspace failed
  | .readDir task =>
      ∃ t ∈ s.tasks[task]?, fromSecs (maxAge days) < s.clock - t.taken + grain
  | .setClock clock => clock < s.clock
  | _ => False

instance (days : Nat) (grain : Duration) (s : State) : ∀ l, Decidable (Races days grain s l)
  | .insert workspace => inferInstanceAs (Decidable (∃ t ∈ s.tasks, t.Removes workspace))
  | .examine task workspace failed =>
      inferInstanceAs (Decidable
        ((∃ u ∈ s.uses, u.workspace = workspace ∧ (u.marked = false ∨ failed = true)) ∧
          ∃ t ∈ s.tasks[task]?, t.Condemns days s.dirs workspace failed))
  | .readDir task =>
      inferInstanceAs (Decidable
        (∃ t ∈ s.tasks[task]?, fromSecs (maxAge days) < s.clock - t.taken + grain))
  | .setClock clock => inferInstanceAs (Decidable (clock < s.clock))
  | .tick _ | .evict _ | .create _ _ | .mark _ _ | .cleanup _ _ | .remove _ | .snapshot _
  | .delete _ => isFalse id

/-! ## Single changes -/

theorem mem_setDir {dirs : Name → Option Dir} {name n : Name} {new : Option Dir} {dir : Dir}
    (h : setDir dirs name new n = some dir) : (n = name ∧ new = some dir) ∨ dirs n = some dir := by
  rw [setDir] at h
  split at h
  · next hn => exact .inl ⟨hn, h⟩
  · exact .inr h

/-- What holds of a use and of its change holds of all uses after the change. -/
theorem forall_setUse {uses : List Use} {workspace : Name} {change : Use → Use} {p : Use → Prop}
    (hold : ∀ u ∈ uses, p u) (hnew : ∀ u ∈ uses, u.workspace = workspace → p (change u)) :
    ∀ u ∈ setUse uses workspace change, p u := by
  intro u hu
  obtain ⟨v, hv, rfl⟩ := List.mem_map.mp hu
  split
  · next hw => exact hnew v hv hw
  · exact hold v hv

/-! ## The invariant -/

/-- What a job in use keeps: it is noted, and its marker is no older than the note, as far as
time stamps tell. -/
structure Use.Good (grain : Duration) (s : State) (u : Use) : Prop where
  noted : u.workspace ∈ s.inUse
  since : u.since ≤ s.clock
  marker : u.marked = true → ∀ dir, s.dirs u.workspace = some dir → u.since ≤ dir.used + grain

/-- What an eviction keeps: it snapshotted every use that is older than its snapshot, scans
with a clock close to the snapshot's, and removes no workspace in use. -/
structure Task.Good (days : Nat) (grain : Duration) (s : State) (t : Task) : Prop where
  taken : t.taken ≤ s.clock
  snapshot : t.phase ≠ .spawned → ∀ u ∈ s.uses, u.workspace ∉ t.snapshot → t.taken ≤ u.since
  now : ∀ now, t.phase = .scanning now ∨ (∃ w, t.phase = .removing now w) →
    now - t.taken + grain ≤ fromSecs (maxAge days)
  removing : ∀ now w, t.phase = .removing now w → ∀ u ∈ s.uses, u.workspace ≠ w

structure Inv (days : Nat) (grain : Duration) (s : State) : Prop where
  uses : ∀ u ∈ s.uses, u.Good grain s
  tasks : ∀ t ∈ s.tasks, t.Good days grain s
  lost : s.lost = []

variable {days : Nat} {grain : Duration}

theorem inv_init (clock : Nat) (dirs : Name → Option Dir) : Inv days grain (init clock dirs) where
  uses _ h := absurd h List.not_mem_nil
  tasks _ h := absurd h List.not_mem_nil
  lost := rfl

theorem Use.Good.mono {s s' : State} {u : Use} (h : u.Good grain s)
    (hinUse : s'.inUse = s.inUse) (hclock : s.clock ≤ s'.clock)
    (hdirs : ∀ dir, s'.dirs u.workspace = some dir →
      s.dirs u.workspace = some dir ∨ u.since ≤ dir.used + grain) : u.Good grain s' where
  noted := hinUse ▸ h.noted
  since := h.since.trans hclock
  marker hmarked dir hdir := (hdirs dir hdir).elim (h.marker hmarked dir) id

theorem Use.Good.enter {s : State} {u : Use} (h : u.Good grain s)
    (phase : JobPhase) : (u.enter phase).Good grain s := ⟨h.noted, h.since, h.marker⟩

theorem Task.Good.mono {s s' : State} {t : Task}
    (h : t.Good days grain s) (hclock : s.clock ≤ s'.clock)
    (huses : ∀ u ∈ s'.uses, ∃ v ∈ s.uses, v.workspace = u.workspace ∧ v.since = u.since) :
    t.Good days grain s' where
  taken := h.taken.trans hclock
  snapshot hphase u hu hn := by
    obtain ⟨v, hv, hworkspace, hsince⟩ := huses u hu
    rw [← hsince]
    exact h.snapshot hphase v hv (hworkspace ▸ hn)
  now := h.now
  removing now w hphase u hu := by
    obtain ⟨v, hv, hworkspace, -⟩ := huses u hu
    rw [← hworkspace]
    exact h.removing now w hphase v hv

theorem exists_of_setUse {uses : List Use} {workspace : Name} {change : Use → Use}
    (hchange : ∀ u, (change u).workspace = u.workspace ∧ (change u).since = u.since) :
    ∀ u ∈ setUse uses workspace change,
      ∃ v ∈ uses, v.workspace = u.workspace ∧ v.since = u.since :=
  forall_setUse (fun u hu => ⟨u, hu, rfl, rfl⟩)
    (fun u hu _ => ⟨u, hu, (hchange u).1.symm, (hchange u).2.symm⟩)

/-- A step that only moves the phase of a job and changes directories in place. -/
theorem Inv.enter {s : State} (h : Inv days grain s)
    (workspace : Name) (phase : JobPhase) {dirs : Name → Option Dir}
    (hdirs : ∀ n dir, dirs n = some dir → s.dirs n = some dir ∨ s.clock ≤ dir.used + grain) :
    Inv days grain { s with dirs := dirs, uses := setUse s.uses workspace (Use.enter phase) } where
  uses := by
    have hgood : ∀ u ∈ s.uses, u.Good grain { s with
        dirs := dirs, uses := setUse s.uses workspace (Use.enter phase) } := by
      intro u hu
      refine (h.uses u hu).mono rfl le_rfl fun dir hdir => ?_
      exact (hdirs _ _ hdir).imp id (h.uses u hu).since.trans
    exact forall_setUse hgood (fun u hu _ => (hgood u hu).enter phase)
  tasks t ht := (h.tasks t ht).mono le_rfl (exists_of_setUse fun _ => ⟨rfl, rfl⟩)
  lost := h.lost

theorem dirs_setDir_none {dirs : Name → Option Dir} {name n : Name} {dir : Dir}
    (h : setDir dirs name none n = some dir) : dirs n = some dir :=
  (mem_setDir h).elim (fun hn => nomatch hn.2) id

/-- **A use that keeps its invariant is not condemned**, unless its job has not written the
marker yet or the marker is not read. -/
theorem not_condemned {s : State} {t : Task} {u : Use}
    (hu : u.Good grain s) (ht : t.Good days grain s) (hmem : u ∈ s.uses)
    (hmarked : u.marked = true) : ¬ t.Condemns days s.dirs u.workspace false := by
  rintro ⟨hsnapshot, dir, hdir, hexpired⟩
  split at hexpired
  · next now hphase =>
      -- the marker is younger than the snapshot, which is at most the maximal age back
      have hsince : t.taken ≤ u.since := ht.snapshot (by rw [hphase]; nofun) u hmem hsnapshot
      have hused : u.since ≤ dir.used + grain := hu.marker hmarked dir hdir
      have hage : fromSecs (maxAge days) < now - dir.used := of_decide_eq_true hexpired
      have hyoung : now - dir.used ≤ fromSecs (maxAge days) := by
        calc now - dir.used ≤ now - t.taken + grain := by omega
          _ ≤ fromSecs (maxAge days) := ht.now now (.inl hphase)
      exact absurd hage (Nat.not_lt.mpr hyoung)
  · exact hexpired

/-- Clocks that go forward. -/
theorem Inv.setClock {s : State} (h : Inv days grain s) {clock : Nat}
    (hclock : s.clock ≤ clock) (uptime : Nat) :
    Inv days grain { s with clock := clock, uptime := uptime } where
  uses u hu := (h.uses u hu).mono rfl hclock fun _ => .inl
  tasks t ht := (h.tasks t ht).mono hclock fun u hu => ⟨u, hu, rfl, rfl⟩
  lost := h.lost

/-- A step of one eviction. -/
theorem Inv.setTask {s : State} (h : Inv days grain s) (i : Nat) {t : Task}
    (ht : t.Good days grain s) : Inv days grain { s with tasks := s.tasks.set i t } where
  uses u hu := (h.uses u hu).mono rfl le_rfl fun _ => .inl
  tasks := by
    apply forall_set
    · exact fun v hv => (h.tasks v hv).mono le_rfl fun u hu => ⟨u, hu, rfl, rfl⟩
    · exact ht.mono le_rfl fun u hu => ⟨u, hu, rfl, rfl⟩
  lost := h.lost

theorem Inv.insert {s : State} (h : Inv days grain s) {workspace : Name}
    (hfree : ∀ t ∈ s.tasks, ¬ t.Removes workspace) :
    Inv days grain { s with
      inUse := workspace :: s.inUse
      uses := { workspace := workspace, since := s.clock } :: s.uses } where
  uses u hu := by
    rcases List.mem_cons.mp hu with rfl | hu
    · exact ⟨List.mem_cons_self, le_rfl, fun hmarked => nomatch hmarked⟩
    · have hold : u.Good grain s := h.uses u hu
      exact ⟨List.mem_cons_of_mem _ hold.noted, hold.since, hold.marker⟩
  tasks t ht := by
    have hold : t.Good days grain s := h.tasks t ht
    constructor
    · exact hold.taken
    · intro hphase u hu hsnapshot
      rcases List.mem_cons.mp hu with rfl | hu
      · exact hold.taken
      · exact hold.snapshot hphase u hu hsnapshot
    · exact hold.now
    · intro now w hphase u hu hworkspace
      rcases List.mem_cons.mp hu with rfl | hu
      · apply hfree t ht
        rw [Task.Removes, hphase]
        exact hworkspace.symm
      · exact hold.removing now w hphase u hu hworkspace
  lost := h.lost

theorem Inv.mark {s : State} (h : Inv days grain s) (workspace : Name) (dir : Dir) {stamp : Nat}
    (hstamp : s.clock ≤ stamp + grain) :
    Inv days grain { s with
      dirs := setDir s.dirs workspace (some (dir.mark stamp))
      uses := setUse s.uses workspace
        (fun u => { u with phase := .prepared, marked := true }) } where
  uses := by
    apply forall_setUse
    · intro u hu
      have hsince : u.since ≤ stamp + grain := (h.uses u hu).since.trans hstamp
      refine (h.uses u hu).mono rfl le_rfl fun new hnew => ?_
      rcases mem_setDir hnew with ⟨-, hnew⟩ | hnew
      · obtain rfl := Option.some.inj hnew
        exact .inr hsince
      · exact .inl hnew
    · intro u hu hworkspace
      have hold : u.Good grain s := h.uses u hu
      refine ⟨hold.noted, hold.since, fun _ new hnew => ?_⟩
      obtain rfl : dir.mark stamp = new := by simpa [setDir, hworkspace] using hnew
      exact hold.since.trans hstamp
  tasks t ht := (h.tasks t ht).mono le_rfl (exists_of_setUse fun _ => ⟨rfl, rfl⟩)
  lost := h.lost

theorem Inv.remove {s : State} (h : Inv days grain s) (workspace : Name) :
    Inv days grain { s with
      inUse := s.inUse.filter (· ≠ workspace)
      uses := s.uses.filter (·.workspace ≠ workspace) } where
  uses u hu := by
    obtain ⟨hmem, hworkspace⟩ := List.mem_filter.mp hu
    have hold : u.Good grain s := h.uses u hmem
    exact ⟨List.mem_filter.mpr ⟨hold.noted, hworkspace⟩, hold.since, hold.marker⟩
  tasks t ht := (h.tasks t ht).mono le_rfl fun u hu => ⟨u, List.mem_of_mem_filter hu, rfl, rfl⟩
  lost := h.lost

/-- **Every step that does not race keeps the invariant.** -/
theorem inv_step {s : State} {l : Label} {s' : State} (h : Inv days grain s)
    (hc : ¬ Races days grain s l) (hstep : step days grain s l = some s') :
    Inv days grain s' := by
  cases l with
  | tick elapsed =>
      obtain rfl := Option.some.inj hstep
      exact h.setClock (Nat.le_add_right _ _) _
  | setClock clock =>
      obtain rfl := Option.some.inj hstep
      exact h.setClock (Nat.le_of_not_lt hc) _
  | insert workspace =>
      obtain ⟨-, rfl⟩ := of_guard hstep
      exact h.insert fun t ht hremoves => hc ⟨t, ht, hremoves⟩
  | evict workspace =>
      simp only [step] at hstep
      split at hstep
      · have hentered : Inv days grain { s with
            uses := setUse s.uses workspace (Use.enter .checked) } :=
          h.enter workspace .checked fun _ _ => .inl
        split at hstep
        · obtain rfl := Option.some.inj hstep
          constructor
          · exact fun u hu => (hentered.uses u hu).mono rfl le_rfl fun _ => .inl
          · apply forall_concat
            · exact fun t ht => (hentered.tasks t ht).mono le_rfl fun u hu => ⟨u, hu, rfl, rfl⟩
            · -- the new eviction has seen nothing yet
              exact ⟨Nat.zero_le _, fun hphase => absurd rfl hphase,
                fun now hphase => by simp at hphase, nofun⟩
          · exact h.lost
        · obtain rfl := Option.some.inj hstep
          exact hentered
      · cases hstep
  | create workspace stamp =>
      obtain ⟨hcond, rfl⟩ := of_guard hstep
      apply h.enter workspace .created
      intro n dir hdir
      rcases mem_setDir hdir with ⟨rfl, hdir⟩ | hdir
      · -- a new directory is as young as the clock, as far as its time stamp tells
        obtain rfl := Option.some.inj hdir
        cases hn : s.dirs n with
        | none => exact .inr hcond.2.2
        | some old => exact .inl rfl
      · exact .inl hdir
  | mark workspace stamp =>
      simp only [step] at hstep
      split at hstep
      · next dir _ =>
          obtain ⟨hcond, rfl⟩ := of_guard hstep
          exact h.mark workspace dir hcond.2.2
      · cases hstep
  | cleanup workspace keep =>
      obtain ⟨-, rfl⟩ := of_guard hstep
      apply h.enter workspace .cleaned
      intro n dir hdir
      left
      split at hdir
      · exact hdir
      · exact dirs_setDir_none hdir
  | remove workspace =>
      obtain ⟨-, rfl⟩ := of_guard hstep
      exact h.remove workspace
  | snapshot task =>
      simp only [step] at hstep
      split at hstep
      · obtain rfl := Option.some.inj hstep
        apply h.setTask
        constructor
        · exact le_rfl
        · -- every workspace in use is in the new snapshot
          exact fun _ u hu hsnapshot => absurd (h.uses u hu).noted hsnapshot
        · intro now hphase
          simp at hphase
        · nofun
      · cases hstep
  | readDir task =>
      simp only [step] at hstep
      split at hstep
      · next snapshot taken htask =>
          obtain rfl := Option.some.inj hstep
          have hold := h.tasks _ (List.mem_of_getElem? htask)
          apply h.setTask
          constructor
          · exact hold.taken
          · exact fun _ => hold.snapshot nofun
          · intro now hphase
            obtain rfl : s.clock = now := by simpa using hphase
            exact Nat.le_of_not_lt fun hlt => hc ⟨_, htask, hlt⟩
          · nofun
      · cases hstep
  | examine task workspace failed =>
      simp only [step] at hstep
      split at hstep
      · next now snapshot taken dir htask hdir =>
          have hold := h.tasks _ (List.mem_of_getElem? htask)
          split at hstep
          · next hcond =>
              obtain rfl := Option.some.inj hstep
              have hcondemns : Task.Condemns days s.dirs ⟨.scanning now, snapshot, taken⟩
                  workspace failed := ⟨hcond.1, dir, hdir, hcond.2⟩
              apply h.setTask
              constructor
              · exact hold.taken
              · exact fun _ => hold.snapshot nofun
              · intro now' hphase
                obtain rfl : now = now' := by simpa using hphase
                exact hold.now now (.inl rfl)
              · intro now' w hphase u hu hworkspace
                obtain ⟨rfl, rfl⟩ := TaskPhase.removing.inj hphase
                -- a job is safe once it has written a marker that is read, and races before
                by_cases hread : u.marked = true ∧ failed = false
                · obtain ⟨hmarked, rfl⟩ := hread
                  rw [← hworkspace] at hcondemns
                  exact not_condemned (h.uses u hu) hold hu hmarked hcondemns
                · have hlate : u.marked = false ∨ failed = true := by
                    rcases not_and_or.mp hread with hmarked | hfailed
                    · exact .inl (Bool.eq_false_of_not_eq_true hmarked)
                    · exact .inr (Bool.eq_true_of_not_eq_false hfailed)
                  exact hc ⟨⟨u, hu, hworkspace, hlate⟩, _, htask, hcondemns⟩
          · obtain rfl := Option.some.inj hstep
            exact h
      · cases hstep
  | delete task =>
      simp only [step] at hstep
      split at hstep
      · next now workspace snapshot taken htask =>
          obtain rfl := Option.some.inj hstep
          have hold := h.tasks _ (List.mem_of_getElem? htask)
          -- so what is removed was in no use, and nothing is lost
          have hfree : s.uses.any (·.workspace = workspace) = false := by
            simpa using hold.removing now workspace rfl
          constructor
          · intro u hu
            exact (h.uses u hu).mono rfl le_rfl fun _ hdir => .inl (dirs_setDir_none hdir)
          · apply forall_set
            · exact fun t ht => (h.tasks t ht).mono le_rfl fun u hu => ⟨u, hu, rfl, rfl⟩
            · exact ⟨hold.taken, fun _ => hold.snapshot nofun,
                fun now' hphase => hold.now now' (.inr ⟨workspace, by simpa using hphase⟩), nofun⟩
          · simpa [hfree] using h.lost
      · cases hstep

/-- **No workspace in use is evicted** in a run whose steps do not race. -/
theorem no_eviction_in_use {clock : Nat} {dirs : Name → Option Dir} {ls : List Label}
    {s : State} (hrun : run (step days grain) (init clock dirs) ls = some s)
    (hc : Always (step days grain) (fun s l => ¬ Races days grain s l) (init clock dirs) ls) :
    s.lost = [] :=
  (invariant_of_always (fun _ _ _ hi hcond hs => inv_step hi hcond hs)
    (inv_init clock dirs) hc hrun).lost

/-- Two workspaces that were last used at time 0. -/
def twoOld (name : Name) : Option Dir :=
  if name = "w0".toList ∨ name = "w1".toList then some ⟨some 0, 0⟩ else none

/-- A clock that is more than a day later. -/
def twoDays : Nat := fromSecs 200000

/-- The time stamps of files lag by at most a hundredth of a second. -/
def someGrain : Duration := 10 ^ 7

/-- Two jobs start and write their markers while an eviction goes on; it removes nothing. -/
def markedInTime : List Label :=
  [.insert "w0".toList, .evict "w0".toList, .snapshot 0, .create "w0".toList twoDays,
    .mark "w0".toList twoDays, .insert "w1".toList, .evict "w1".toList,
    .create "w1".toList twoDays, .mark "w1".toList (twoDays - 5), .readDir 0,
    .examine 0 "w0".toList false, .examine 0 "w1".toList false, .tick (fromSecs 60),
    .cleanup "w1".toList true, .remove "w1".toList]

theorem no_eviction_in_use_markedInTime :
    ∃ s, run (step 1 someGrain) (init twoDays twoOld) markedInTime = some s ∧
      s.uses.length = 1 ∧ s.lost = [] := by
  obtain ⟨s, hs, huses⟩ : ∃ s, run (step 1 someGrain) (init twoDays twoOld) markedInTime =
      some s ∧ s.uses.length = 1 := Option.map_eq_some_iff.mp (by decide)
  exact ⟨s, hs, huses, no_eviction_in_use hs (by decide)⟩

/-- The eviction looks at the second workspace before its job has written the marker. -/
def examinedEarly : List Label :=
  [.insert "w0".toList, .evict "w0".toList, .snapshot 0, .create "w0".toList twoDays,
    .mark "w0".toList twoDays, .readDir 0, .insert "w1".toList, .examine 0 "w1".toList false,
    .evict "w1".toList, .create "w1".toList twoDays, .mark "w1".toList twoDays, .delete 0]

/-- **The workspace of a running job is evicted.** -/
theorem evicts_running :
    ∃ s, run (step 1 0) (init twoDays twoOld) examinedEarly = some s ∧ s.lost = ["w1".toList] ∧
      phaseOf s "w1".toList = some .prepared := by
  obtain ⟨s, hs, hlost⟩ : ∃ s, run (step 1 0) (init twoDays twoOld) examinedEarly = some s ∧
      (s.lost, phaseOf s "w1".toList) = (["w1".toList], some .prepared) :=
    Option.map_eq_some_iff.mp (by decide)
  exact ⟨s, hs, congrArg Prod.fst hlost, congrArg Prod.snd hlost⟩

end Workspaces

end TurboCi
