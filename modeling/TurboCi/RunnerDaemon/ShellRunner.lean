import TurboCi.Lib.Runs
import TurboCi.RunnerDaemon.Cancel
import TurboCi.RunnerDaemon.Decoder
import TurboCi.RunnerDaemon.JobSteps

set_option autoImplicit false

/-! # How the shell executor runs a script

`ShellRunner::run` of `runner_daemon/executor/shell.rs`, among the processes of the host. The script
gets a process group of its own; the runner reads the two pipes that it writes to until nobody can
write to them any more, and then waits for it. At the deadline or on a cancel the whole group is
killed.

Processes come and go as they like: they fork, leave their group, join another one, run on as
another user, and pass the pipes on. A number is given to a new process only when no process has
it, as its own or as that of its group. So the script's group keeps its number as long as the
runner has not reaped the script's first process. A kill reaches nobody but the script and who has
joined its group, and what the script started and has not moved away does not survive it
(`runner_spares_others`).

Sending the log, and errors of waiting for a process, are left out.
-/

namespace TurboCi

open Runs

namespace ShellRunner

/-! ## Processes -/

inductive Stream where
  | out
  | err
  deriving DecidableEq

structure Process where
  pid : Nat
  group : Nat
  /-- how it has ended: with a code, or by a signal -/
  ended : Option (Option Int) := none
  /-- the pipes that it can write to -/
  holds : Stream → Bool := fun _ => false
  /-- it comes from the script -/
  script : Bool := false
  /-- it, or a process that it comes from, has joined the script's group -/
  joined : Bool := false
  /-- it, or a process that it comes from, has changed its group or its user -/
  moved : Bool := false
  /-- the runner may signal it -/
  own : Bool := true

def Process.newGroup (p : Process) : Process := { p with group := p.pid, moved := true }

def Process.join (p q : Process) (child : Nat) : Process :=
  { p with group := q.group, joined := p.joined || q.group == child, moved := true }

def Process.setUser (p : Process) (own : Bool) : Process := { p with own := own, moved := true }

def Process.setHolds (p : Process) (stream : Stream) (value : Bool) : Process :=
  { p with holds := Function.update p.holds stream value }

def Process.end (p : Process) (status : Option Int) : Process :=
  { p with ended := some status, holds := fun _ => false }

/-- A kill ends a process that runs and that the runner may signal. -/
def Process.kill (p : Process) : Process := if p.ended = none ∧ p.own then p.end none else p

/-- Who may be in the script's group: it comes from the script or has joined the group. -/
def Process.member (p : Process) : Bool := p.script || p.joined

/-- The script started it, and it is still in the group and of the user that it was started in. -/
def Process.stays (p : Process) : Bool := p.script && !p.moved

structure Pipe where
  /-- written and not read yet -/
  pending : List UInt8 := []
  /-- all that was ever written -/
  written : List UInt8 := []
  /-- what was read, chunk by chunk -/
  chunks : List (List UInt8) := []

def Pipe.write (pipe : Pipe) (bytes : List UInt8) : Pipe :=
  { pipe with pending := pipe.pending ++ bytes, written := pipe.written ++ bytes }

def Pipe.read (pipe : Pipe) (n : Nat) : Pipe :=
  { pipe with pending := pipe.pending.drop n, chunks := pipe.chunks ++ [pipe.pending.take n] }

inductive Phase where
  | reading
  /-- for the script's first process -/
  | waiting
  /-- the same, after a kill -/
  | reaping (status : RunStatus)
  | done (status : RunStatus)
  /-- the run failed and dropped the process -/
  | failed (message : Chars)
  deriving DecidableEq

/-- The runner has not reaped the script's first process, and nobody else may. -/
def Phase.keepsChild : Phase → Bool
  | reading | waiting | reaping _ => true
  | done _ | failed _ => false

structure State where
  processes : List Process
  pipe : Stream → Pipe := fun _ => {}
  now : Nat
  cancel : RemoteState
  isOpen : Stream → Bool := fun _ => true
  decoder : Stream → Utf8Decoder := fun _ => {}
  /-- what was written to the trace, and from which stream it is -/
  trace : List (Stream × List UInt8) := []
  phase : Phase := .reading

inductive Label where
  -- the processes of the host
  | fork (parent pid : Nat)
  /-- a process leads a group of its own -/
  | newGroup (pid : Nat)
  /-- a process joins the group of another one, which may have ended -/
  | join (pid other : Nat)
  /-- a process runs on as another user, whose processes the runner may signal or not -/
  | setUser (pid : Nat) (own : Bool)
  | write (pid : Nat) (stream : Stream) (bytes : List UInt8)
  | close (pid : Nat) (stream : Stream)
  /-- a process passes a pipe on -/
  | pass (pid other : Nat) (stream : Stream)
  | exit (pid : Nat) (status : Option Int)
  /-- a process that has ended is reaped by whoever started it -/
  | reap (pid : Nat)
  -- the clock and GitLab
  | tick (time : Nat)
  | signal (state : RemoteState)
  -- the runner
  | read (stream : Stream) (n : Nat)
  | eof (stream : Stream)
  | readError (message : Chars)
  /-- at the deadline; whether the kill could be sent -/
  | deadline (sent : Bool)
  | stop (sent : Bool)
  | wait

/-- Steps of the runner itself. -/
def Label.isRunner : Label → Bool
  | read .. | eof .. | readError .. | deadline .. | stop .. | wait => true
  | _ => false

/-! ## Steps -/

/-- Something happens to the process with this number. -/
def State.alter (s : State) (pid : Nat) (f : Process → Process) : State :=
  { s with processes := s.processes.map fun p => if p.pid = pid then f p else p }

def State.setPipe (s : State) (stream : Stream) (pipe : Pipe) : State :=
  { s with pipe := Function.update s.pipe stream pipe }

/-- The process with this number, if it runs. -/
def State.running (s : State) (pid : Nat) : Option Process :=
  s.processes.find? fun p => p.pid = pid ∧ p.ended = none

/-- No process has this number, as its own or as that of its group. -/
def State.isFree (s : State) (pid : Nat) : Bool :=
  s.processes.all fun p => p.pid ≠ pid ∧ p.group ≠ pid

/-- What the processes do; while the script's first process is the runner's, nobody else reaps
it. -/
def hostStep (child : Nat) (s : State) : Label → Option State
  | .fork parent pid =>
      match s.running parent with
      | some p =>
          if s.isFree pid then some { s with processes := s.processes ++ [{ p with pid := pid }] }
          else none
      | none => none
  | .newGroup pid =>
      match s.running pid with
      | some _ => some (s.alter pid Process.newGroup)
      | none => none
  | .join pid other =>
      match s.running pid, s.processes.find? fun q => q.pid = other with
      | some _, some q => some (s.alter pid fun p => p.join q child)
      | _, _ => none
  | .setUser pid own =>
      match s.running pid with
      | some _ => some (s.alter pid fun p => p.setUser own)
      | none => none
  | .write pid stream bytes =>
      match s.running pid with
      | some p =>
          if p.holds stream then some (s.setPipe stream ((s.pipe stream).write bytes)) else none
      | none => none
  | .close pid stream => some (s.alter pid fun p => p.setHolds stream false)
  | .pass pid other stream =>
      match s.running pid, s.running other with
      | some p, some _ =>
          if p.holds stream then some (s.alter other fun q => q.setHolds stream true) else none
      | _, _ => none
  | .exit pid status =>
      match s.running pid with
      | some _ => some (s.alter pid fun p => p.end status)
      | none => none
  | .reap pid =>
      if pid = child ∧ s.phase.keepsChild then none
      else some { s with processes := s.processes.filter fun p => ¬ (p.pid = pid ∧ p.ended ≠ none) }
  | .tick time => some { s with now := s.now + time }
  | .signal state => some { s with cancel := s.cancel.update state }
  | _ => none

/-- `kill_process_group`, which may fail to be sent. -/
def State.kill (s : State) (group : Nat) (sent : Bool) : State :=
  if sent then
    { s with processes := s.processes.map fun p => if p.group = group then p.kill else p }
  else s

/-- Text goes to the trace. -/
def State.show (s : State) (stream : Stream) (text : List UInt8 × Utf8Decoder) : State :=
  { s with
    trace := s.trace ++ [(stream, text.1)]
    decoder := Function.update s.decoder stream text.2 }

/-- Nobody writes to the pipe any more; what the decoders hold back follows when both are at
their ends. -/
def State.closed (s : State) (stream : Stream) : State :=
  let t := { s with isOpen := Function.update s.isOpen stream false }
  if t.isOpen .out ∨ t.isOpen .err then t
  else
    let t := (t.show .out (t.decoder .out).finish).show .err (t.decoder .err).finish
    { t with phase := .waiting }

/-- The time or GitLab ends the run. -/
def State.interrupt (s : State) (child : Nat) (sent : Bool) (status : RunStatus) : State :=
  { s.kill child sent with phase := .reaping status }

/-- The size of the buffers. -/
def bufferSize : Nat := 8192

/-- What `run` does. -/
def runnerStep (child : Nat) (limits : Limits) (s : State) : Label → Option State
  | .read stream n =>
      if s.phase = .reading ∧ s.isOpen stream ∧ 0 < n ∧ n ≤ bufferSize ∧
          n ≤ (s.pipe stream).pending.length then
        let t := s.setPipe stream ((s.pipe stream).read n)
        some (t.show stream ((t.decoder stream).decode ((s.pipe stream).pending.take n)))
      else none
  | .eof stream =>
      if s.phase = .reading ∧ s.isOpen stream ∧ (s.pipe stream).pending = [] ∧
          (∀ p ∈ s.processes, p.holds stream = false) then
        some (s.closed stream)
      else none
  -- the process is dropped, and killed then, but not its group
  | .readError message =>
      if s.phase = .reading then
        some { s.alter child Process.kill with phase := .failed message }
      else none
  | .deadline sent =>
      if (s.phase = .reading ∨ s.phase = .waiting) ∧ limits.deadline ≤ s.now then
        some (s.interrupt child sent .timedOut)
      else none
  | .stop sent =>
      if (s.phase = .reading ∨ s.phase = .waiting) ∧ limits.stopAt ≤ s.cancel then
        some (s.interrupt child sent .canceled)
      else none
  | .wait =>
      match s.processes.find? fun p => p.pid = child with
      | some p =>
          match p.ended with
          | some status =>
              let t := { s with processes := s.processes.filter fun p => p.pid ≠ child }
              match s.phase with
              | .waiting => some { t with phase := .done (.exited (status.getD (-1))) }
              | .reaping outcome => some { t with phase := .done outcome }
              | _ => none
          | none => none
      | none => none
  | _ => none

def step (child : Nat) (limits : Limits) (s : State) (l : Label) : Option State :=
  if l.isRunner then runnerStep child limits s l else hostStep child s l

/-- The script's first process, in a group of its own. -/
def firstProcess (child : Nat) : Process where
  pid := child
  group := child
  holds := fun _ => true
  script := true

/-- The script has just been started, among other processes. -/
def spawned (child : Nat) (others : List Process) (now : Nat) (cancel : RemoteState) : State where
  processes := firstProcess child ::
    others.map fun p => { p with holds := fun _ => false, script := false, joined := false }
  now := now
  cancel := cancel

/-! ## The script's group -/

/-- The script's first process has its number still, and nobody has the number or the group but the
script and who joined. -/
structure Own (child : Nat) (processes : List Process) : Prop where
  first : ∃ p ∈ processes, p.pid = child ∧ p.script = true
  number : ∀ p ∈ processes, p.pid = child → p.member = true
  group : ∀ p ∈ processes, p.group = child → p.member = true

/-- While the runner has not reaped the first process, the group is the script's own. -/
def Owned (child : Nat) (s : State) : Prop := s.phase.keepsChild = true → Own child s.processes

variable {child : Nat}

/-- Processes may change as long as they keep their numbers, stay members, and only members are in
the script's group. -/
theorem Own.map {processes : List Process} {f : Process → Process} (h : Own child processes)
    (hkeep : ∀ p, (f p).pid = p.pid ∧ (f p).script = p.script)
    (hmember : ∀ p ∈ processes, p.member = true → (f p).member = true)
    (hgroup : ∀ p ∈ processes, (f p).group = child → (f p).member = true) :
    Own child (processes.map f) where
  first := by
    obtain ⟨p, hp, hchild, hscript⟩ := h.first
    exact ⟨f p, List.mem_map_of_mem hp, (hkeep p).1.trans hchild, (hkeep p).2.trans hscript⟩
  number := by
    intro q hq hchild
    obtain ⟨p, hp, rfl⟩ := List.mem_map.mp hq
    rw [(hkeep p).1] at hchild
    exact hmember p hp (h.number p hp hchild)
  group := by
    intro q hq hchild
    obtain ⟨p, hp, rfl⟩ := List.mem_map.mp hq
    exact hgroup p hp hchild

theorem Own.alter {s : State} {pid : Nat} {f : Process → Process} (h : Own child s.processes)
    (hkeep : ∀ p, (f p).pid = p.pid ∧ (f p).script = p.script)
    (hmember : ∀ p ∈ s.processes, p.member = true → (f p).member = true)
    (hgroup : ∀ p ∈ s.processes, (f p).group = child → (f p).member = true) :
    Own child (s.alter pid f).processes := by
  refine h.map (fun p => ?_) (fun p hp hm => ?_) (fun p hp hg => ?_)
  · split
    · exact hkeep p
    · exact ⟨rfl, rfl⟩
  · split
    · exact hmember p hp hm
    · exact hm
  · by_cases hsame : p.pid = pid
    · rw [if_pos hsame] at hg ⊢
      exact hgroup p hp hg
    · rw [if_neg hsame] at hg ⊢
      exact h.group p hp hg

theorem kill_same (p : Process) : (p.kill.pid = p.pid ∧ p.kill.script = p.script) ∧
    p.kill.group = p.group ∧ p.kill.member = p.member := by
  unfold Process.kill
  split
  · exact ⟨⟨rfl, rfl⟩, rfl, rfl⟩
  · exact ⟨⟨rfl, rfl⟩, rfl, rfl⟩

/-- A change that leaves numbers, groups and membership as they are. -/
theorem Own.alter_same {s : State} {pid : Nat} {f : Process → Process} (h : Own child s.processes)
    (hf : ∀ p, ((f p).pid = p.pid ∧ (f p).script = p.script) ∧
      (f p).group = p.group ∧ (f p).member = p.member) :
    Own child (s.alter pid f).processes := by
  refine h.alter (fun p => (hf p).1) (fun p _ hm => ?_) (fun p hp hg => ?_)
  · rw [(hf p).2.2]
    exact hm
  · rw [(hf p).2.2]
    rw [(hf p).2.1] at hg
    exact h.group p hp hg

theorem mem_of_running {s : State} {pid : Nat} {p : Process} (h : s.running pid = some p) :
    p ∈ s.processes := List.mem_of_find?_eq_some h

/-- **What other processes do leaves the script its group.** -/
theorem owned_hostStep {s t : State} {l : Label} (h : Owned child s)
    (hstep : hostStep child s l = some t) : Owned child t := by
  intro hkeeps
  cases l with
  | fork parent pid =>
      simp only [hostStep] at hstep
      split at hstep
      · next p hp =>
          obtain ⟨hfree, rfl⟩ := of_guard hstep
          have hown := h hkeeps
          obtain ⟨first, hfirst, hchild, hscript⟩ := hown.first
          -- a free number is not that of the first process; the group is the parent's
          have hne : pid ≠ child := by
            rintro rfl
            have hall := List.all_eq_true.mp hfree first hfirst
            simp [hchild] at hall
          refine ⟨⟨first, List.mem_append_left _ hfirst, hchild, hscript⟩, fun q hq hq' => ?_,
            fun q hq hq' => ?_⟩
          · rcases List.mem_append.mp hq with hq | hq
            · exact hown.number q hq hq'
            · obtain rfl := List.mem_singleton.mp hq
              exact absurd hq' hne
          · rcases List.mem_append.mp hq with hq | hq
            · exact hown.group q hq hq'
            · obtain rfl := List.mem_singleton.mp hq
              exact hown.group p (mem_of_running hp) hq'
      · cases hstep
  | newGroup pid =>
      simp only [hostStep] at hstep
      split at hstep
      · obtain rfl := Option.some.inj hstep
        have hown := h hkeeps
        exact hown.alter (fun _ => ⟨rfl, rfl⟩) (fun _ _ hm => hm) fun p hp hg => hown.number p hp hg
      · cases hstep
  | join pid other =>
      simp only [hostStep] at hstep
      split at hstep
      · next p q hp hq =>
          obtain rfl := Option.some.inj hstep
          have hown := h hkeeps
          refine hown.alter (fun _ => ⟨rfl, rfl⟩) (fun r _ hm => ?_) (fun r _ hg => ?_)
          · show (r.script || (r.joined || q.group == child)) = true
            rw [← Bool.or_assoc, show (r.script || r.joined) = true from hm, Bool.true_or]
          · -- who joins the script's group is noted
            have hgroup : q.group = child := hg
            show (r.script || (r.joined || q.group == child)) = true
            rw [hgroup, beq_self_eq_true, Bool.or_true, Bool.or_true]
      · cases hstep
  | setUser pid own =>
      simp only [hostStep] at hstep
      split at hstep
      · obtain rfl := Option.some.inj hstep
        exact (h hkeeps).alter_same fun _ => ⟨⟨rfl, rfl⟩, rfl, rfl⟩
      · cases hstep
  | write pid stream bytes =>
      simp only [hostStep] at hstep
      split at hstep
      · obtain ⟨-, rfl⟩ := of_guard hstep
        exact h hkeeps
      · cases hstep
  | close pid stream =>
      obtain rfl := Option.some.inj hstep
      exact (h hkeeps).alter_same fun _ => ⟨⟨rfl, rfl⟩, rfl, rfl⟩
  | pass pid other stream =>
      simp only [hostStep] at hstep
      split at hstep
      · obtain ⟨-, rfl⟩ := of_guard hstep
        exact (h hkeeps).alter_same fun _ => ⟨⟨rfl, rfl⟩, rfl, rfl⟩
      · cases hstep
  | exit pid status =>
      simp only [hostStep] at hstep
      split at hstep
      · obtain rfl := Option.some.inj hstep
        exact (h hkeeps).alter_same fun _ => ⟨⟨rfl, rfl⟩, rfl, rfl⟩
      · cases hstep
  | reap pid =>
      simp only [hostStep] at hstep
      split at hstep
      · cases hstep
      · next hother =>
          -- nobody but the runner reaps the first process
          obtain rfl := Option.some.inj hstep
          have hown := h hkeeps
          obtain ⟨first, hfirst, hchild, hscript⟩ := hown.first
          refine ⟨⟨first, List.mem_filter.mpr ⟨hfirst, ?_⟩, hchild, hscript⟩, fun q hq => ?_,
            fun q hq => ?_⟩
          · have hne : first.pid ≠ pid := by
              intro hsame
              exact hother ⟨hsame ▸ hchild, hkeeps⟩
            simp [hne]
          · exact hown.number q (List.mem_of_mem_filter hq)
          · exact hown.group q (List.mem_of_mem_filter hq)
  | tick time =>
      obtain rfl := Option.some.inj hstep
      exact h hkeeps
  | signal state =>
      obtain rfl := Option.some.inj hstep
      exact h hkeeps
  | _ => cases hstep

/-- A kill leaves numbers, groups and membership as they are. -/
theorem Own.kill {s : State} (h : Own child s.processes) (sent : Bool) :
    Own child (s.kill child sent).processes := by
  have hsame : ∀ p : Process, ((if p.group = child then p.kill else p).pid = p.pid ∧
      (if p.group = child then p.kill else p).script = p.script) ∧
      (if p.group = child then p.kill else p).group = p.group ∧
      (if p.group = child then p.kill else p).member = p.member := by
    intro p
    split
    · exact kill_same p
    · exact ⟨⟨rfl, rfl⟩, rfl, rfl⟩
  unfold State.kill
  split
  · refine h.map (fun p => (hsame p).1) (fun p hp hm => ?_) (fun p hp hg => ?_)
    · rw [(hsame p).2.2]
      exact hm
    · rw [(hsame p).2.1] at hg
      rw [(hsame p).2.2]
      exact h.group p hp hg
  · exact h

variable {limits : Limits}

/-- The phases in which the runner acts are those in which the group is the script's own. -/
theorem keeps_of_runnerStep {s t : State} {l : Label}
    (hstep : runnerStep child limits s l = some t) : s.phase.keepsChild = true := by
  have hreading : ∀ {p : Prop}, s.phase = .reading ∧ p → s.phase.keepsChild = true := by
    intro p hp
    rw [hp.1]
    rfl
  have hboth : ∀ {p : Prop}, (s.phase = .reading ∨ s.phase = .waiting) ∧ p →
      s.phase.keepsChild = true := by
    intro p hp
    rcases hp.1 with hphase | hphase
    · rw [hphase]
      rfl
    · rw [hphase]
      rfl
  cases l with
  | read stream n =>
      simp only [runnerStep] at hstep
      exact hreading (of_guard hstep).1
  | eof stream =>
      simp only [runnerStep] at hstep
      exact hreading (of_guard hstep).1
  | readError message =>
      simp only [runnerStep] at hstep
      exact hreading ⟨(of_guard hstep).1, trivial⟩
  | deadline sent =>
      simp only [runnerStep] at hstep
      exact hboth (of_guard hstep).1
  | stop sent =>
      simp only [runnerStep] at hstep
      exact hboth (of_guard hstep).1
  | wait =>
      simp only [runnerStep] at hstep
      split at hstep
      · split at hstep
        · split at hstep
          · next hphase => rw [hphase]; rfl
          · next hphase => rw [hphase]; rfl
          · cases hstep
        · cases hstep
      · cases hstep
  | _ => cases hstep

theorem processes_closed (s : State) (stream : Stream) :
    (s.closed stream).processes = s.processes := by
  unfold State.closed
  dsimp only
  split
  · rfl
  · rfl

/-- What the runner does to the processes of the host. -/
theorem processes_runnerStep {s t : State} {l : Label}
    (hstep : runnerStep child limits s l = some t) :
    t.processes = s.processes ∨
    t.processes = (s.kill child true).processes ∨
    (t.phase.keepsChild = false ∧ ∀ p ∈ s.processes, p.pid ≠ child → p ∈ t.processes) := by
  have hkill : ∀ sent, (s.kill child sent).processes = s.processes ∨
      (s.kill child sent).processes = (s.kill child true).processes := by
    intro sent
    cases sent with
    | false => exact Or.inl rfl
    | true => exact Or.inr rfl
  cases l with
  | read stream n =>
      simp only [runnerStep] at hstep
      obtain ⟨-, rfl⟩ := of_guard hstep
      exact Or.inl rfl
  | eof stream =>
      simp only [runnerStep] at hstep
      obtain ⟨-, rfl⟩ := of_guard hstep
      exact Or.inl (processes_closed s stream)
  | readError message =>
      simp only [runnerStep] at hstep
      obtain ⟨-, rfl⟩ := of_guard hstep
      refine Or.inr (Or.inr ⟨rfl, fun p hp hne => ?_⟩)
      exact List.mem_map.mpr ⟨p, hp, if_neg hne⟩
  | deadline sent =>
      simp only [runnerStep] at hstep
      obtain ⟨-, rfl⟩ := of_guard hstep
      exact (hkill sent).imp_right Or.inl
  | stop sent =>
      simp only [runnerStep] at hstep
      obtain ⟨-, rfl⟩ := of_guard hstep
      exact (hkill sent).imp_right Or.inl
  | wait =>
      have hfilter : ∀ p ∈ s.processes, p.pid ≠ child →
          p ∈ s.processes.filter fun p => p.pid ≠ child :=
        fun p hp hne => List.mem_filter.mpr ⟨hp, by simp [hne]⟩
      simp only [runnerStep] at hstep
      split at hstep
      · split at hstep
        · split at hstep
          · obtain rfl := Option.some.inj hstep
            exact Or.inr (Or.inr ⟨rfl, hfilter⟩)
          · obtain rfl := Option.some.inj hstep
            exact Or.inr (Or.inr ⟨rfl, hfilter⟩)
          · cases hstep
        · cases hstep
      · cases hstep
  | _ => cases hstep

theorem owned_step {s t : State} {l : Label} (h : Owned child s)
    (hstep : step child limits s l = some t) : Owned child t := by
  unfold step at hstep
  split at hstep
  · intro hkeeps
    have hown := h (keeps_of_runnerStep hstep)
    rcases processes_runnerStep hstep with hsame | hkill | ⟨hover, -⟩
    · rw [hsame]
      exact hown
    · rw [hkill]
      exact hown.kill true
    · rw [hover] at hkeeps
      cases hkeeps
  · exact owned_hostStep h hstep

theorem owned_spawned {others : List Process}
    (hfree : ∀ p ∈ others, p.pid ≠ child ∧ p.group ≠ child) (now : Nat) (cancel : RemoteState) :
    Owned child (spawned child others now cancel) := by
  intro _
  refine ⟨⟨firstProcess child, List.mem_cons_self, rfl, rfl⟩, fun p hp hchild => ?_,
    fun p hp hchild => ?_⟩
  · rcases List.mem_cons.mp hp with rfl | hp
    · rfl
    · obtain ⟨q, hq, rfl⟩ := List.mem_map.mp hp
      exact absurd hchild (hfree q hq).1
  · rcases List.mem_cons.mp hp with rfl | hp
    · rfl
    · obtain ⟨q, hq, rfl⟩ := List.mem_map.mp hp
      exact absurd hchild (hfree q hq).2

/-! ## What a kill leaves -/

/-- What the processes of the host keep: what holds of each of them, and survives all that can
happen to one, holds of each of them after a step. -/
theorem forall_hostStep {P : Process → Prop} {s t : State} {l : Label}
    (hfork : ∀ p pid, p.ended = none → P p → P { p with pid := pid })
    (hgroup : ∀ p, P p → P p.newGroup) (hjoin : ∀ p q, P p → P (p.join q child))
    (huser : ∀ p own, P p → P (p.setUser own))
    (hholds : ∀ p stream value, P p → P (p.setHolds stream value))
    (hend : ∀ p status, P p → P (p.end status)) (h : ∀ p ∈ s.processes, P p)
    (hstep : hostStep child s l = some t) : ∀ p ∈ t.processes, P p := by
  have halter : ∀ pid f, (∀ p, P p → P (f p)) → ∀ p ∈ (s.alter pid f).processes, P p := by
    intro pid f hf q hq
    obtain ⟨p, hp, rfl⟩ := List.mem_map.mp hq
    split
    · exact hf p (h p hp)
    · exact h p hp
  cases l with
  | fork parent pid =>
      simp only [hostStep] at hstep
      split at hstep
      · next p hp =>
          obtain ⟨-, rfl⟩ := of_guard hstep
          intro q hq
          rcases List.mem_append.mp hq with hq | hq
          · exact h q hq
          · obtain rfl := List.mem_singleton.mp hq
            have hrunning := List.find?_some hp
            exact hfork p pid (of_decide_eq_true hrunning).2 (h p (mem_of_running hp))
      · cases hstep
  | newGroup pid =>
      simp only [hostStep] at hstep
      split at hstep
      · obtain rfl := Option.some.inj hstep
        exact halter pid _ hgroup
      · cases hstep
  | join pid other =>
      simp only [hostStep] at hstep
      split at hstep
      · next q _ _ =>
          obtain rfl := Option.some.inj hstep
          exact halter pid _ fun p => hjoin p _
      · cases hstep
  | setUser pid own =>
      simp only [hostStep] at hstep
      split at hstep
      · obtain rfl := Option.some.inj hstep
        exact halter pid _ fun p => huser p own
      · cases hstep
  | write pid stream bytes =>
      simp only [hostStep] at hstep
      split at hstep
      · obtain ⟨-, rfl⟩ := of_guard hstep
        exact h
      · cases hstep
  | close pid stream =>
      obtain rfl := Option.some.inj hstep
      exact halter pid _ fun p => hholds p stream false
  | pass pid other stream =>
      simp only [hostStep] at hstep
      split at hstep
      · obtain ⟨-, rfl⟩ := of_guard hstep
        exact halter other _ fun p => hholds p stream true
      · cases hstep
  | exit pid status =>
      simp only [hostStep] at hstep
      split at hstep
      · obtain rfl := Option.some.inj hstep
        exact halter pid _ fun p => hend p status
      · cases hstep
  | reap pid =>
      simp only [hostStep] at hstep
      split at hstep
      · cases hstep
      · obtain rfl := Option.some.inj hstep
        exact fun p hp => h p (List.mem_of_mem_filter hp)
  | tick time =>
      obtain rfl := Option.some.inj hstep
      exact h
  | signal state =>
      obtain rfl := Option.some.inj hstep
      exact h
  | _ => cases hstep

theorem forall_kill {P : Process → Prop} {s : State} {sent : Bool}
    (hkill : ∀ p, P p → P p.kill) (h : ∀ p ∈ s.processes, P p) :
    ∀ p ∈ (s.kill child sent).processes, P p := by
  unfold State.kill
  split
  · intro q hq
    obtain ⟨p, hp, rfl⟩ := List.mem_map.mp hq
    split
    · exact hkill p (h p hp)
    · exact h p hp
  · exact h

/-- The same for the steps of the runner. -/
theorem forall_runnerStep {P : Process → Prop} {s t : State} {l : Label}
    (hkill : ∀ p, P p → P p.kill) (h : ∀ p ∈ s.processes, P p)
    (hstep : runnerStep child limits s l = some t) : ∀ p ∈ t.processes, P p := by
  cases l with
  | read stream n =>
      simp only [runnerStep] at hstep
      obtain ⟨-, rfl⟩ := of_guard hstep
      exact h
  | eof stream =>
      simp only [runnerStep] at hstep
      obtain ⟨-, rfl⟩ := of_guard hstep
      rw [processes_closed]
      exact h
  | readError message =>
      simp only [runnerStep] at hstep
      obtain ⟨-, rfl⟩ := of_guard hstep
      intro q hq
      obtain ⟨p, hp, rfl⟩ := List.mem_map.mp hq
      split
      · exact hkill p (h p hp)
      · exact h p hp
  | deadline sent =>
      simp only [runnerStep] at hstep
      obtain ⟨-, rfl⟩ := of_guard hstep
      exact forall_kill hkill h
  | stop sent =>
      simp only [runnerStep] at hstep
      obtain ⟨-, rfl⟩ := of_guard hstep
      exact forall_kill hkill h
  | wait =>
      simp only [runnerStep] at hstep
      split at hstep
      · split at hstep
        · split at hstep
          · obtain rfl := Option.some.inj hstep
            exact fun p hp => h p (List.mem_of_mem_filter hp)
          · obtain rfl := Option.some.inj hstep
            exact fun p hp => h p (List.mem_of_mem_filter hp)
          · cases hstep
        · cases hstep
      · cases hstep
  | _ => cases hstep

/-- Who stays is in the script's group, and the runner may signal it. -/
def Process.Reachable (child : Nat) (p : Process) : Prop :=
  p.stays = true → p.group = child ∧ p.own = true

/-- Who stays has ended. -/
def Process.Over (p : Process) : Prop := p.stays = true → p.ended ≠ none

theorem not_stays_of_moved {p : Process} (h : p.moved = true) : ¬ p.stays = true := by
  simp [Process.stays, h]

theorem reachable_step {s t : State} {l : Label} (h : ∀ p ∈ s.processes, p.Reachable child)
    (hstep : step child limits s l = some t) : ∀ p ∈ t.processes, p.Reachable child := by
  have hmoved : ∀ p : Process, p.moved = true → p.Reachable child :=
    fun p hp hstays => absurd hstays (not_stays_of_moved hp)
  unfold step at hstep
  split at hstep
  · refine forall_runnerStep (fun p hp => ?_) h hstep
    unfold Process.kill
    split
    · exact hp
    · exact hp
  · exact forall_hostStep (fun _ _ _ hp => hp) (fun _ _ => hmoved _ rfl) (fun _ _ _ => hmoved _ rfl)
      (fun _ _ _ => hmoved _ rfl) (fun _ _ _ hp => hp) (fun _ _ hp => hp) h hstep

/-- What has ended forks no more. -/
theorem over_step {s t : State} {l : Label} (h : ∀ p ∈ s.processes, p.Over)
    (hstep : step child limits s l = some t) : ∀ p ∈ t.processes, p.Over := by
  have hmoved : ∀ p : Process, p.moved = true → p.Over :=
    fun p hp hstays => absurd hstays (not_stays_of_moved hp)
  unfold step at hstep
  split at hstep
  · refine forall_runnerStep (fun p hp => ?_) h hstep
    unfold Process.kill
    split
    · exact fun _ => Option.some_ne_none _
    · exact hp
  · exact forall_hostStep (fun p _ hrunning hp hstays => absurd hrunning (hp hstays))
      (fun _ _ => hmoved _ rfl) (fun _ _ _ => hmoved _ rfl) (fun _ _ _ => hmoved _ rfl)
      (fun _ _ _ hp => hp) (fun _ _ _ _ => Option.some_ne_none _) h hstep

/-- After a kill nobody runs who was reachable. -/
theorem over_kill {s : State} (h : ∀ p ∈ s.processes, p.Reachable child) :
    ∀ p ∈ (s.kill child true).processes, p.Over := by
  intro q hq
  obtain ⟨p, hp, rfl⟩ := List.mem_map.mp hq
  have hreach := h p hp
  split
  · unfold Process.kill
    split
    · exact fun _ => Option.some_ne_none _
    · next hnot => exact fun hstays hrunning => hnot ⟨hrunning, (hreach hstays).2⟩
  · next hgroup => exact fun hstays => absurd (hreach hstays).1 hgroup

theorem reachable_spawned (others : List Process) (now : Nat) (cancel : RemoteState) :
    ∀ p ∈ (spawned child others now cancel).processes, p.Reachable child := by
  intro p hp
  rcases List.mem_cons.mp hp with rfl | hp
  · exact fun _ => ⟨rfl, rfl⟩
  · obtain ⟨q, -, rfl⟩ := List.mem_map.mp hp
    exact fun hstays => by cases hstays

/-- **A kill reaches the script and who has joined it, and nobody else.** In every run, whatever the
processes of the host do and whichever numbers are used again: no step of the runner touches a
process that neither comes from the script nor has joined its group. When a kill is sent, the
script's first process is still unreaped, and from then on nothing runs that the script started
and that has stayed in its group and with its user. -/
theorem runner_spares_others (child : Nat) (limits : Limits) (others : List Process) (now : Nat)
    (cancel : RemoteState) (hfree : ∀ p ∈ others, p.pid ≠ child ∧ p.group ≠ child)
    (ls : List Label) (l : Label) (s t : State)
    (hrun : run (step child limits) (spawned child others now cancel) ls = some s)
    (hrunner : l.isRunner = true) (hstep : step child limits s l = some t) :
    (∀ p ∈ s.processes, p.member = false → p ∈ t.processes) ∧
    (l = .deadline true ∨ l = .stop true → (∃ p ∈ s.processes, p.pid = child ∧ p.script = true) ∧
      ∀ later u, run (step child limits) t later = some u →
        ∀ p ∈ u.processes, p.stays = true → p.ended ≠ none) := by
  have howned : Owned child s :=
    invariant (fun _ _ _ h hs => owned_step h hs) (owned_spawned hfree now cancel) hrun
  have hreach : ∀ p ∈ s.processes, p.Reachable child :=
    invariant (fun _ _ _ h hs => reachable_step h hs) (reachable_spawned others now cancel) hrun
  rw [step, if_pos hrunner] at hstep
  have hown := howned (keeps_of_runnerStep hstep)
  constructor
  · intro p hp hstranger
    rcases processes_runnerStep hstep with hsame | hkill | ⟨-, hrest⟩
    · rw [hsame]
      exact hp
    · have hgroup : p.group ≠ child := by
        intro hgroup
        rw [hown.group p hp hgroup] at hstranger
        cases hstranger
      rw [hkill]
      exact List.mem_map.mpr ⟨p, hp, if_neg hgroup⟩
    · refine hrest p hp fun hpid => ?_
      rw [hown.number p hp hpid] at hstranger
      cases hstranger
  · intro hkill
    have hprocesses : t.processes = (s.kill child true).processes := by
      rcases hkill with rfl | rfl
      · simp only [runnerStep] at hstep
        obtain ⟨-, rfl⟩ := of_guard hstep
        rfl
      · simp only [runnerStep] at hstep
        obtain ⟨-, rfl⟩ := of_guard hstep
        rfl
    have hover : ∀ p ∈ t.processes, p.Over := by
      rw [hprocesses]
      exact over_kill hreach
    refine ⟨hown.first, fun later u hlater => ?_⟩
    exact invariant (fun _ _ _ h hs => over_step h hs) hover hlater

/-- The first process of a host, and one that it starts, are spared when a script and what it
started are killed, and so is what the script has started as another user. -/
theorem runner_spares_others_started :
    ∃ s t : State, run (step 7 ⟨10, .canceling⟩) (spawned 7 [{ pid := 1, group := 1 }] 0 .running)
        [.fork 1 8, .newGroup 8, .fork 7 9, .fork 7 10, .setUser 10 false, .tick 10] = some s ∧
      step 7 ⟨10, .canceling⟩ s (.deadline true) = some t ∧
      t.processes.map (fun p => (p.pid, p.ended.isSome)) =
        [(7, true), (1, false), (8, false), (9, true), (10, false)] ∧
      (∀ p ∈ s.processes, p.member = false → p ∈ t.processes) ∧
      ∀ later u, run (step 7 ⟨10, .canceling⟩) t later = some u →
        ∀ p ∈ u.processes, p.stays = true → p.ended ≠ none := by
  refine ⟨_, _, rfl, rfl, rfl, ?_⟩
  have hspares := runner_spares_others 7 ⟨10, .canceling⟩ [{ pid := 1, group := 1 }] 0 .running
    (by simp) [.fork 1 8, .newGroup 8, .fork 7 9, .fork 7 10, .setUser 10 false, .tick 10]
    (.deadline true) _ _ rfl rfl rfl
  exact ⟨hspares.1, (hspares.2 (Or.inl rfl)).2⟩

/-! ## The output of the script -/

/-- What the trace has from one of the streams. -/
def texts (stream : Stream) (trace : List (Stream × List UInt8)) : List UInt8 :=
  (trace.filter fun entry => entry.1 = stream).flatMap Prod.snd

theorem texts_append (stream : Stream) (a b : List (Stream × List UInt8)) :
    texts stream (a ++ b) = texts stream a ++ texts stream b := by
  unfold texts
  rw [List.filter_append, List.flatMap_append]

theorem texts_same (stream : Stream) (text : List UInt8) :
    texts stream [(stream, text)] = text := by
  simp [texts]

theorem texts_other {stream other : Stream} (h : other ≠ stream) (text : List UInt8) :
    texts stream [(other, text)] = [] := by
  simp [texts, h]

/-- Both streams were read to their ends, and what the decoders held back is in the trace. -/
def bothClosed (isOpen : Stream → Bool) : Bool := !(isOpen .out || isOpen .err)

def State.isFinished (s : State) : Bool := bothClosed s.isOpen

/-- How far a stream has come: its text, before and after what the decoder holds back was added to
it. Nobody can write to a stream that was read to its end. -/
structure Reads (pipe : Pipe) (isOpen isFinished : Bool) (decoder : Utf8Decoder)
    (text : List UInt8) (isHeld : Prop) : Prop where
  written : pipe.chunks.flatten ++ pipe.pending = pipe.written
  ended : isOpen = false → pipe.pending = [] ∧ ¬ isHeld
  soFar : isFinished = false → ∀ rest,
    text ++ decoder.decodeAll rest = Utf8Decoder.decodeAll {} (pipe.chunks ++ rest)
  whole : isFinished = true → text = Utf8Decoder.decodeAll {} pipe.chunks

section Reads

variable {pipe : Pipe} {isOpen isFinished : Bool} {decoder : Utf8Decoder} {text : List UInt8}
  {isHeld : Prop}

theorem Reads.write (h : Reads pipe isOpen isFinished decoder text isHeld) (hheld : isHeld)
    (bytes : List UInt8) : Reads (pipe.write bytes) isOpen isFinished decoder text isHeld where
  written := by
    show pipe.chunks.flatten ++ (pipe.pending ++ bytes) = pipe.written ++ bytes
    rw [← List.append_assoc, h.written]
  ended := fun hclosed => absurd hheld (h.ended hclosed).2
  soFar := h.soFar
  whole := h.whole

theorem Reads.read (h : Reads pipe true false decoder text isHeld) (n : Nat) :
    Reads (pipe.read n) true false (decoder.decode (pipe.pending.take n)).2
      (text ++ (decoder.decode (pipe.pending.take n)).1) isHeld where
  written := by
    show (pipe.chunks ++ [pipe.pending.take n]).flatten ++ pipe.pending.drop n = pipe.written
    rw [List.flatten_append, List.flatten_singleton, List.append_assoc, List.take_append_drop,
      h.written]
  ended := fun hclosed => by cases hclosed
  soFar := by
    intro _ rest
    show _ = Utf8Decoder.decodeAll {} (pipe.chunks ++ [pipe.pending.take n] ++ rest)
    rw [List.append_assoc, List.append_assoc]
    exact h.soFar rfl (pipe.pending.take n :: rest)
  whole := fun hfinished => by cases hfinished

theorem Reads.close (h : Reads pipe isOpen false decoder text isHeld) (hpending : pipe.pending = [])
    (hheld : ¬ isHeld) : Reads pipe false false decoder text isHeld where
  written := h.written
  ended := fun _ => ⟨hpending, hheld⟩
  soFar := h.soFar
  whole := h.whole

theorem Reads.finish (h : Reads pipe false false decoder text isHeld) :
    Reads pipe false true decoder.finish.2 (text ++ decoder.finish.1) isHeld where
  written := h.written
  ended := h.ended
  soFar := fun hfinished => by cases hfinished
  whole := by
    intro _
    have htext := h.soFar rfl []
    rw [List.append_nil] at htext
    exact htext

end Reads

/-- Some process can write to the stream. -/
def State.held (s : State) (stream : Stream) : Prop := ∃ p ∈ s.processes, p.holds stream = true

def Read (s : State) (stream : Stream) : Prop :=
  Reads (s.pipe stream) (s.isOpen stream) s.isFinished (s.decoder stream) (texts stream s.trace)
    (s.held stream)

/-- What the phases say about the streams. -/
def PhaseFits (s : State) : Prop :=
  match s.phase with
  | .waiting | .done (.exited _) => s.isFinished = true
  | .reading => s.isFinished = false
  | .reaping status => status = .timedOut ∨ status = .canceled
  | .done _ | .failed _ => True

structure Inv (s : State) : Prop where
  fits : PhaseFits s
  read : ∀ stream, Read s stream

/-- Processes may change as long as nobody gets hold of a pipe that nobody held. -/
theorem Read.same {s t : State} {stream : Stream} (h : Read s stream) (hpipe : t.pipe = s.pipe)
    (hopen : t.isOpen = s.isOpen) (hdecoder : t.decoder = s.decoder) (htrace : t.trace = s.trace)
    (hheld : t.held stream → s.held stream) : Read t stream := by
  unfold Read State.isFinished
  rw [hpipe, hopen, hdecoder, htrace]
  exact ⟨h.written, fun hclosed => ⟨(h.ended hclosed).1, fun ht => (h.ended hclosed).2 (hheld ht)⟩,
    h.soFar, h.whole⟩

/-- The same in the same phase. -/
theorem Inv.same {s t : State} (h : Inv s)
    (ht : t = { s with processes := t.processes, now := t.now, cancel := t.cancel })
    (hheld : ∀ stream, t.held stream → s.held stream) : Inv t := by
  refine ⟨?_, fun stream => (h.read stream).same ?_ ?_ ?_ ?_ (hheld stream)⟩
  · rw [ht]
    exact h.fits
  all_goals rw [ht]

theorem held_alter {s : State} {pid : Nat} {f : Process → Process} {stream : Stream}
    (hf : ∀ p, (f p).holds stream = true → p.holds stream = true)
    (h : (s.alter pid f).held stream) : s.held stream := by
  obtain ⟨q, hq, hholds⟩ := h
  obtain ⟨p, hp, rfl⟩ := List.mem_map.mp hq
  refine ⟨p, hp, ?_⟩
  split at hholds
  · exact hf p hholds
  · exact hholds

/-- **What other processes do keeps the readers right.** -/
theorem inv_hostStep {s t : State} {l : Label} (h : Inv s) (hstep : hostStep child s l = some t) :
    Inv t := by
  cases l with
  | fork parent pid =>
      simp only [hostStep] at hstep
      split at hstep
      · next p hp =>
          obtain ⟨-, rfl⟩ := of_guard hstep
          -- a new process holds what its parent holds
          refine h.same rfl fun stream hheld => ?_
          obtain ⟨q, hq, hholds⟩ := hheld
          rcases List.mem_append.mp hq with hq | hq
          · exact ⟨q, hq, hholds⟩
          · obtain rfl := List.mem_singleton.mp hq
            exact ⟨p, mem_of_running hp, hholds⟩
      · cases hstep
  | newGroup pid =>
      simp only [hostStep] at hstep
      split at hstep
      · obtain rfl := Option.some.inj hstep
        exact h.same rfl fun stream => held_alter fun _ hp => hp
      · cases hstep
  | join pid other =>
      simp only [hostStep] at hstep
      split at hstep
      · obtain rfl := Option.some.inj hstep
        exact h.same rfl fun stream => held_alter fun _ hp => hp
      · cases hstep
  | setUser pid own =>
      simp only [hostStep] at hstep
      split at hstep
      · obtain rfl := Option.some.inj hstep
        exact h.same rfl fun stream => held_alter fun _ hp => hp
      · cases hstep
  | write pid stream bytes =>
      simp only [hostStep] at hstep
      split at hstep
      · next p hp =>
          obtain ⟨hholds, rfl⟩ := of_guard hstep
          refine ⟨h.fits, fun other => ?_⟩
          -- only this stream has more to read, and somebody holds it
          by_cases hsame : other = stream
          · subst hsame
            have hpipe : (s.setPipe other ((s.pipe other).write bytes)).pipe other
                = (s.pipe other).write bytes := Function.update_self ..
            unfold Read
            rw [hpipe]
            exact (h.read other).write ⟨p, mem_of_running hp, hholds⟩ bytes
          · have hpipe : (s.setPipe stream ((s.pipe stream).write bytes)).pipe other
                = s.pipe other := Function.update_of_ne hsame ..
            unfold Read
            rw [hpipe]
            exact h.read other
      · cases hstep
  | close pid stream =>
      obtain rfl := Option.some.inj hstep
      refine h.same rfl fun other => held_alter fun p hp => ?_
      by_cases hsame : other = stream
      · subst hsame
        have hnot : (p.setHolds other false).holds other = false := Function.update_self ..
        rw [hnot] at hp
        cases hp
      · exact (Function.update_of_ne hsame _ _).symm.trans hp
  | pass pid other stream =>
      simp only [hostStep] at hstep
      split at hstep
      · next p q hp hq =>
          obtain ⟨hholds, rfl⟩ := of_guard hstep
          refine h.same rfl fun read hheld => ?_
          by_cases hsame : read = stream
          · subst hsame
            exact ⟨p, mem_of_running hp, hholds⟩
          · exact held_alter (fun r hr => (Function.update_of_ne hsame _ _).symm.trans hr) hheld
      · cases hstep
  | exit pid status =>
      simp only [hostStep] at hstep
      split at hstep
      · obtain rfl := Option.some.inj hstep
        exact h.same rfl fun stream => held_alter fun _ hp => by cases hp
      · cases hstep
  | reap pid =>
      simp only [hostStep] at hstep
      split at hstep
      · cases hstep
      · obtain rfl := Option.some.inj hstep
        refine h.same rfl fun stream hheld => ?_
        obtain ⟨p, hp, hholds⟩ := hheld
        exact ⟨p, List.mem_of_mem_filter hp, hholds⟩
  | tick time =>
      obtain rfl := Option.some.inj hstep
      exact h.same rfl fun stream hheld => hheld
  | signal state =>
      obtain rfl := Option.some.inj hstep
      exact h.same rfl fun stream hheld => hheld
  | _ => cases hstep

theorem texts_show (s : State) (stream other : Stream) (text : List UInt8 × Utf8Decoder) :
    texts other (s.show stream text).trace
      = texts other s.trace ++ if other = stream then text.1 else [] := by
  show texts other (s.trace ++ [(stream, text.1)]) = _
  rw [texts_append]
  by_cases hsame : other = stream
  · subst hsame
    rw [if_pos rfl, texts_same]
  · rw [if_neg hsame, texts_other (Ne.symm hsame)]

theorem decoder_show (s : State) (stream other : Stream) (text : List UInt8 × Utf8Decoder) :
    (s.show stream text).decoder other = if other = stream then text.2 else s.decoder other := by
  by_cases hsame : other = stream
  · subst hsame
    rw [if_pos rfl]
    exact Function.update_self ..
  · rw [if_neg hsame]
    exact Function.update_of_ne hsame ..

/-- A chunk is read. -/
theorem inv_read {s : State} (h : Inv s) (hfinished : s.isFinished = false) {stream : Stream}
    (hopen : s.isOpen stream = true) (n : Nat) :
    Inv ((s.setPipe stream ((s.pipe stream).read n)).show stream
      ((s.decoder stream).decode ((s.pipe stream).pending.take n))) := by
  refine ⟨h.fits, fun other => ?_⟩
  have hread := h.read other
  unfold Read at hread ⊢
  rw [texts_show, decoder_show]
  by_cases hsame : other = stream
  · subst hsame
    have hpipe : ((s.setPipe other ((s.pipe other).read n)).show other
        ((s.decoder other).decode ((s.pipe other).pending.take n))).pipe other
        = (s.pipe other).read n := Function.update_self ..
    rw [hfinished, hopen] at hread
    rw [hpipe, if_pos rfl, if_pos rfl]
    show Reads _ (s.isOpen other) s.isFinished _ _ _
    rw [hfinished, hopen]
    exact hread.read n
  · have hpipe : ((s.setPipe stream ((s.pipe stream).read n)).show stream
        ((s.decoder stream).decode ((s.pipe stream).pending.take n))).pipe other
        = s.pipe other := Function.update_of_ne hsame ..
    rw [hpipe, if_neg hsame, if_neg hsame, List.append_nil]
    exact hread

/-- A stream has come to its end, and with it maybe the reading. -/
theorem inv_closed {s : State} (h : Inv s) (hphase : s.phase = .reading)
    (hfinished : s.isFinished = false) {stream : Stream} (hpending : (s.pipe stream).pending = [])
    (hheld : ¬ s.held stream) : Inv (s.closed stream) := by
  have hread : ∀ other, Reads (s.pipe other) (Function.update s.isOpen stream false other) false
      (s.decoder other) (texts other s.trace) (s.held other) := by
    intro other
    have hread := h.read other
    unfold Read at hread
    rw [hfinished] at hread
    by_cases hsame : other = stream
    · subst hsame
      rw [Function.update_self]
      exact hread.close hpending hheld
    · rw [Function.update_of_ne hsame]
      exact hread
  unfold State.closed
  dsimp only
  split
  · next hopen =>
      -- the other stream is still read
      have hunfinished : bothClosed (Function.update s.isOpen stream false) = false := by
        unfold bothClosed
        rcases hopen with hopen | hopen
        · rw [hopen]
          rfl
        · rw [hopen, Bool.or_true]
          rfl
      constructor
      · unfold PhaseFits
        rw [hphase]
        exact hunfinished
      · intro other
        show Reads _ _ (bothClosed (Function.update s.isOpen stream false)) _ _ _
        rw [hunfinished]
        exact hread other
  · next hclosed =>
      -- both are at their ends: what the decoders held back is shown now
      have hclosed' : ∀ other, Function.update s.isOpen stream false other = false := by
        intro other
        cases other with
        | out => exact Bool.eq_false_iff.mpr fun hout => hclosed (Or.inl hout)
        | err => exact Bool.eq_false_iff.mpr fun herr => hclosed (Or.inr herr)
      have hdone : bothClosed (Function.update s.isOpen stream false) = true := by
        unfold bothClosed
        rw [hclosed', hclosed']
        rfl
      refine ⟨hdone, fun other => ?_⟩
      have hfinish := hread other
      rw [hclosed' other] at hfinish
      have hfinish := hfinish.finish
      show Reads (s.pipe other) (Function.update s.isOpen stream false other)
        (bothClosed (Function.update s.isOpen stream false)) _
        (texts other (State.show _ _ _).trace) _
      rw [hdone, hclosed', texts_show, texts_show]
      cases other with
      | out =>
          rw [if_pos rfl, if_neg (by simp), List.append_nil]
          exact hfinish
      | err =>
          rw [if_neg (by simp), if_pos rfl, List.append_nil]
          exact hfinish

theorem holds_of_kill {p : Process} {stream : Stream} (h : p.kill.holds stream = true) :
    p.holds stream = true := by
  unfold Process.kill at h
  split at h
  · cases h
  · exact h

theorem held_kill {s : State} {group : Nat} {sent : Bool} {stream : Stream}
    (h : (s.kill group sent).held stream) : s.held stream := by
  cases sent with
  | false => exact h
  | true =>
      obtain ⟨q, hq, hholds⟩ := h
      obtain ⟨p, hp, rfl⟩ := List.mem_map.mp hq
      refine ⟨p, hp, ?_⟩
      split at hholds
      · exact holds_of_kill hholds
      · exact hholds

theorem inv_interrupt {s : State} (h : Inv s) (child : Nat) (sent : Bool) {status : RunStatus}
    (hstatus : status = .timedOut ∨ status = .canceled) : Inv (s.interrupt child sent status) := by
  refine ⟨hstatus, fun stream => ?_⟩
  cases sent with
  | false => exact (h.read stream).same rfl rfl rfl rfl fun hheld => hheld
  | true =>
      exact (h.read stream).same rfl rfl rfl rfl fun hheld => @held_kill s child true stream hheld

theorem inv_runnerStep {s t : State} {l : Label} (h : Inv s)
    (hstep : runnerStep child limits s l = some t) : Inv t := by
  have hfinished : s.phase = .reading → s.isFinished = false := by
    intro hphase
    have hfits := h.fits
    unfold PhaseFits at hfits
    rw [hphase] at hfits
    exact hfits
  cases l with
  | read stream n =>
      simp only [runnerStep] at hstep
      obtain ⟨⟨hphase, hopen, -⟩, rfl⟩ := of_guard hstep
      exact inv_read h (hfinished hphase) hopen n
  | eof stream =>
      simp only [runnerStep] at hstep
      obtain ⟨⟨hphase, -, hpending, hnone⟩, rfl⟩ := of_guard hstep
      refine inv_closed h hphase (hfinished hphase) hpending fun hheld => ?_
      obtain ⟨p, hp, hholds⟩ := hheld
      rw [hnone p hp] at hholds
      cases hholds
  | readError message =>
      simp only [runnerStep] at hstep
      obtain ⟨-, rfl⟩ := of_guard hstep
      refine ⟨trivial, fun stream => (h.read stream).same rfl rfl rfl rfl fun hheld => ?_⟩
      exact @held_alter s child _ stream (fun p hp => holds_of_kill hp) hheld
  | deadline sent =>
      simp only [runnerStep] at hstep
      obtain ⟨-, rfl⟩ := of_guard hstep
      exact inv_interrupt h child sent (Or.inl rfl)
  | stop sent =>
      simp only [runnerStep] at hstep
      obtain ⟨-, rfl⟩ := of_guard hstep
      exact inv_interrupt h child sent (Or.inr rfl)
  | wait =>
      -- without the first process nobody holds more than before
      have hheld : ∀ stream, (∃ p ∈ s.processes.filter fun p => p.pid ≠ child,
          p.holds stream = true) → s.held stream := by
        intro stream hheld
        obtain ⟨p, hp, hholds⟩ := hheld
        exact ⟨p, List.mem_of_mem_filter hp, hholds⟩
      have hfits := h.fits
      unfold PhaseFits at hfits
      simp only [runnerStep] at hstep
      split at hstep
      · split at hstep
        · split at hstep
          · next hphase =>
              obtain rfl := Option.some.inj hstep
              rw [hphase] at hfits
              exact ⟨hfits, fun stream => (h.read stream).same rfl rfl rfl rfl (hheld stream)⟩
          · next outcome hphase =>
              obtain rfl := Option.some.inj hstep
              rw [hphase] at hfits
              refine ⟨?_, fun stream => (h.read stream).same rfl rfl rfl rfl (hheld stream)⟩
              rcases hfits with rfl | rfl
              · trivial
              · trivial
          · cases hstep
        · cases hstep
      · cases hstep
  | _ => cases hstep

theorem inv_step {s t : State} {l : Label} (h : Inv s) (hstep : step child limits s l = some t) :
    Inv t := by
  unfold step at hstep
  split at hstep
  · exact inv_runnerStep h hstep
  · exact inv_hostStep h hstep

theorem inv_spawned (child : Nat) (others : List Process) (now : Nat) (cancel : RemoteState) :
    Inv (spawned child others now cancel) := by
  refine ⟨rfl, fun stream => ⟨rfl, fun hclosed => ?_, fun _ rest => rfl, fun hfinished => ?_⟩⟩
  · cases hclosed
  · cases hfinished

/-- **No output is lost.** In every run, the trace has of each stream the beginning of what the
decoder makes of the chunks that were read, and these are the beginning of what was written. When
the script has exited, the trace has all of it, whatever background processes wrote before they
closed the pipes; and bytes that are UTF-8 are in the trace as they were written. -/
theorem script_output (child : Nat) (limits : Limits) (others : List Process) (now : Nat)
    (cancel : RemoteState) (ls : List Label) (s : State)
    (hrun : run (step child limits) (spawned child others now cancel) ls = some s)
    (stream : Stream) :
    let pipe := s.pipe stream
    let text := texts stream s.trace
    text <+: Utf8Decoder.decodeAll {} pipe.chunks ∧ pipe.chunks.flatten <+: pipe.written ∧
    ∀ code, s.phase = .done (.exited code) →
      text = Utf8Decoder.decodeAll {} pipe.chunks ∧ pipe.chunks.flatten = pipe.written ∧
      ¬ s.held stream ∧ (Utf8.fromUtf8 pipe.written = .ok () → text = pipe.written) := by
  intro pipe text
  have hinv : Inv s :=
    invariant (fun _ _ _ h hs => inv_step h hs) (inv_spawned child others now cancel) hrun
  have hread := hinv.read stream
  refine ⟨?_, ⟨pipe.pending, hread.written⟩, fun code hdone => ?_⟩
  · cases hfinished : s.isFinished with
    | true =>
        have hwhole : text = Utf8Decoder.decodeAll {} pipe.chunks := hread.whole hfinished
        rw [hwhole]
    | false =>
        have hsoFar := hread.soFar hfinished []
        rw [List.append_nil] at hsoFar
        exact ⟨_, hsoFar⟩
  · have hfits := hinv.fits
    unfold PhaseFits at hfits
    rw [hdone] at hfits
    have hfinished : s.isFinished = true := hfits
    have hclosed : s.isOpen stream = false := by
      have hboth : s.isOpen .out = false ∧ s.isOpen .err = false := by
        simpa [State.isFinished, bothClosed] using hfinished
      cases stream with
      | out => exact hboth.1
      | err => exact hboth.2
    obtain ⟨hpending, hheld⟩ := hread.ended hclosed
    have hwritten : pipe.chunks.flatten = pipe.written := by
      have hwritten := hread.written
      rw [hpending, List.append_nil] at hwritten
      exact hwritten
    refine ⟨hread.whole hfinished, hwritten, hheld, fun hvalid => ?_⟩
    calc text = Utf8Decoder.decodeAll {} pipe.chunks := hread.whole hfinished
      _ = pipe.chunks.flatten := by
          refine Utf8Decoder.decodeAll_of_valid ?_
          show Utf8.fromUtf8 pipe.chunks.flatten = .ok ()
          rw [hwritten]
          exact hvalid
      _ = pipe.written := hwritten

/-- A background process writes the second byte of a character after the script has exited. -/
def background : List Label :=
  [.fork 7 9, .write 7 .out [0xC3], .exit 7 (some 0), .write 9 .out [0xA9], .read .out 1,
    .read .out 1, .close 9 .out, .close 9 .err, .eof .err, .eof .out, .wait]

theorem script_output_background :
    ∃ s : State, run (step 7 ⟨10, .canceling⟩) (spawned 7 [] 0 .running) background = some s ∧
      s.phase = .done (.exited 0) ∧ texts .out s.trace = [0xC3, 0xA9] := by
  refine ⟨_, rfl, rfl, ?_⟩
  exact ((script_output 7 ⟨10, .canceling⟩ [] 0 .running background _ rfl .out).2.2 0 rfl).2.2.2
    (by decide)

end ShellRunner

end TurboCi
