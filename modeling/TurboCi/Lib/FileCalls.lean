import TurboCi.Lib.FileSystem

set_option autoImplicit false

/-! # File-system calls relative to handles

A process holds handles of nodes and makes the calls of the `openat` family: they open,
create and remove what a directory of a handle names, and never follow a link. Every call may
also fail. A handle stays with its node whatever happens to the names that led to it.

`exec` is what a call does. It changes the nodes of held handles and adds new nodes, and so
leaves what is outside of a directory untouched as long as the handles are not outside and the
components that are opened do not go up (`untouched_of_exec`, `confined_of_exec`).
-/

namespace FileSystem

/-- A handle: a position in the list of opened nodes. -/
abbrev Fd := Nat

inductive Errno where
  | noent
  | exist
  | loop
  | notdir
  | isdir
  | badf
  | other
  deriving DecidableEq

inductive Call where
  /-- looks whether the work is to stop -/
  | poll
  /-- takes bytes of an input that is none of the nodes -/
  | read (bytes : Nat)
  /-- opens the start directory by its path, unless that is a link -/
  | openStart
  /-- `openat` with `O_DIRECTORY | O_NOFOLLOW` -/
  | openat (dir : Fd) (component : Component)
  | mkdirat (dir : Fd) (name : Name)
  /-- `unlinkat` without `AT_REMOVEDIR` -/
  | unlinkat (dir : Fd) (name : Name)
  /-- `openat` with `O_CREAT | O_EXCL | O_NOFOLLOW`, to write -/
  | createat (dir : Fd) (name : Name)
  | symlinkat (target : List Char) (dir : Fd) (name : Name)
  | write (file : Fd) (data : List UInt8)
  | fchmod (file : Fd) (mode : Nat)

/-- What a call gives when it succeeds. -/
def Call.Result : Call → Type
  | .openStart | .openat _ _ | .createat _ _ => Fd
  | .poll | .read _ | .mkdirat _ _ | .unlinkat _ _ | .symlinkat _ _ _ | .write _ _
  | .fchmod _ _ => Unit

abbrev Reply (c : Call) : Type := Except Errno c.Result

/-- What the kernel chooses: to let the call fail, or the number of a node that it makes. -/
inductive Choice where
  | fail (e : Errno)
  | proceed (fresh : Ino)

structure State where
  fs : FS
  /-- the start directory -/
  start : Ino
  fds : List Ino := []

def FS.setNode (fs : FS) (i : Ino) (node : Node) : FS :=
  { fs with nodes := fun j => if j = i then some node else fs.nodes j }

/-- The directory `d` names `n` as `i`, or no longer when `i` is `none`. -/
def FS.setEntry (fs : FS) (d : Ino) (n : Name) (i : Option Ino) : FS :=
  match fs.nodes d with
  | some (.dir parent entries) =>
      fs.setNode d (.dir parent (fun m => if m = n then i else entries m))
  | _ => fs

/-- The node that a component leads to from a directory. -/
def FS.child (fs : FS) (d : Ino) : Component → Option Ino
  | .rootDir => some fs.top
  | .curDir => some d
  | .parentDir =>
      match fs.nodes d with
      | some (.dir parent _) => parent
      | _ => none
  | .normal n => fs.entry d n

/-- Makes a node with a name that the directory does not have; `none` if the number is taken. -/
def FS.create (fs : FS) (d : Ino) (n : Name) (fresh : Ino) (node : Node) :
    Option (Except Errno FS) :=
  match fs.nodes d with
  | some (.dir (some _) entries) =>
      if (entries n).isSome then some (.error .exist)
      else if (fs.nodes fresh).isSome then none
      else some (.ok ((fs.setNode fresh node).setEntry d n (some fresh)))
  | some (.dir none _) => some (.error .noent)
  | _ => some (.error .notdir)

def FS.unlink (fs : FS) (d : Ino) (n : Name) : Except Errno FS :=
  match fs.entry d n with
  | none => .error .noent
  | some i =>
      match fs.nodes i with
      | some (.dir _ _) => .error .isdir
      | _ => .ok (fs.setEntry d n none)

def FS.writeTo (fs : FS) (i : Ino) (change : List UInt8 → Nat → Node) : Except Errno FS :=
  match fs.nodes i with
  | some (.file data mode) => .ok (fs.setNode i (change data mode))
  | _ => .error .badf

/-- Opens a node that has to be a directory. -/
def State.openDir (s : State) (i : Ino) : State × Except Errno Fd :=
  match s.fs.nodes i with
  | some (.dir _ _) => ({ s with fds := s.fds ++ [i] }, .ok s.fds.length)
  -- with `O_DIRECTORY` a link that may not be followed is no directory either
  | some (.symlink _) => (s, .error .notdir)
  | some (.file _ _) => (s, .error .notdir)
  | none => (s, .error .noent)

/-- The state after a change of the file system, if that succeeds. -/
def State.after (s : State) : Except Errno FS → State × Except Errno Unit
  | .ok fs => ({ s with fs := fs }, .ok ())
  | .error e => (s, .error e)

/-- A call on the node of a handle. -/
def State.on {c : Call} (s : State) (f : Fd) (g : Ino → Option (State × Reply c)) :
    Option (State × Reply c) :=
  match s.fds[f]? with
  | some i => g i
  | none => some (s, .error .badf)

def exec (s : State) : (c : Call) → Choice → Option (State × Reply c)
  | _, .fail e => some (s, .error e)
  | .poll, .proceed _ => some (s, .ok ())
  | .read _, .proceed _ => some (s, .ok ())
  | .openStart, .proceed _ => some (s.openDir s.start)
  | .openat f component, .proceed _ => s.on f fun d =>
      match s.fs.child d component with
      | some i => some (s.openDir i)
      | none => some (s, .error .noent)
  | .mkdirat f n, .proceed fresh => s.on f fun d =>
      (s.fs.create d n fresh (.dir (some d) fun _ => none)).map s.after
  | .unlinkat f n, .proceed _ => s.on f fun d => some (s.after (s.fs.unlink d n))
  | .createat f n, .proceed fresh => s.on f fun d =>
      match s.fs.create d n fresh (.file [] 0o644) with
      | some (.ok fs) => some ({ s with fs := fs, fds := s.fds ++ [fresh] }, .ok s.fds.length)
      | some (.error e) => some (s, .error e)
      | none => none
  | .symlinkat target f n, .proceed fresh => s.on f fun d =>
      if target = [] then some (s, .error .noent)
      else (s.fs.create d n fresh (.symlink target)).map s.after
  | .write f data, .proceed _ => s.on f fun i =>
      some (s.after (s.fs.writeTo i fun old mode => .file (old ++ data) mode))
  | .fchmod f mode, .proceed _ => s.on f fun i =>
      some (s.after (s.fs.writeTo i fun data _ => .file data mode))

/-! ## Changes of a file system -/

variable {fs fs' : FS} {root d fresh : Ino} {n : Name} {node : Node}

theorem setNode_nodes (i j : Ino) :
    (fs.setNode i node).nodes j = if j = i then some node else fs.nodes j := rfl

/-- A node made under a new name, in a directory that is not removed. -/
structure Made (fs : FS) (d : Ino) (n : Name) (fresh : Ino) (node : Node) (fs' : FS) : Prop where
  top : fs'.top = fs.top
  absent : fs.entry d n = none
  unused : fs.nodes fresh = none
  made : fs'.nodes fresh = some node
  dir : ∃ parent entries, fs.nodes d = some (.dir parent entries) ∧
    fs'.nodes d = some (.dir parent fun m => if m = n then some fresh else entries m)
  other : ∀ i, i ≠ d → i ≠ fresh → fs'.nodes i = fs.nodes i

/-- A name dropped that was no directory's. -/
structure Dropped (fs : FS) (d : Ino) (n : Name) (fs' : FS) : Prop where
  top : fs'.top = fs.top
  named : ∀ i, fs.entry d n = some i → ¬ fs.IsDir i
  dir : ∃ parent entries, fs.nodes d = some (.dir parent entries) ∧
    fs'.nodes d = some (.dir parent fun m => if m = n then none else entries m)
  other : ∀ i, i ≠ d → fs'.nodes i = fs.nodes i

/-- A change of a file's data or mode. -/
structure Written (fs : FS) (i : Ino) (fs' : FS) : Prop where
  top : fs'.top = fs.top
  file : ∃ data mode, fs.nodes i = some (.file data mode)
  file' : ∃ data mode, fs'.nodes i = some (.file data mode)
  other : ∀ j, j ≠ i → fs'.nodes j = fs.nodes j

theorem made_of_create (h : fs.create d n fresh node = some (.ok fs')) :
    Made fs d n fresh node fs' := by
  rw [FS.create] at h
  split at h
  · next parent entries hd =>
      split at h
      · cases h
      · next habsent =>
          split at h
          · cases h
          · next hunused =>
              obtain rfl := Except.ok.inj (Option.some.inj h)
              have hfresh : fs.nodes fresh = none := by simpa using hunused
              -- the directory is there and the new node's number is not in use
              have hne : d ≠ fresh := by
                rintro rfl
                rw [hd] at hfresh
                cases hfresh
              have hd' : (fs.setNode fresh node).nodes d = some (.dir (some parent) entries) := by
                rw [setNode_nodes, if_neg hne, hd]
              constructor
              · rw [FS.setEntry, hd']
                rfl
              · rw [entry_of_dir n hd]
                simpa using habsent
              · exact hfresh
              · rw [FS.setEntry, hd', setNode_nodes, if_neg hne.symm, setNode_nodes, if_pos rfl]
              · refine ⟨some parent, entries, hd, ?_⟩
                rw [FS.setEntry, hd', setNode_nodes, if_pos rfl]
              · intro i hi hi'
                rw [FS.setEntry, hd', setNode_nodes, if_neg hi, setNode_nodes, if_neg hi']
  · cases h
  · cases h

theorem dropped_of_unlink (h : fs.unlink d n = .ok fs') : Dropped fs d n fs' := by
  rw [FS.unlink] at h
  split at h
  · cases h
  · next i hi =>
      split at h
      · cases h
      · next hnode =>
          obtain rfl := Except.ok.inj h
          obtain ⟨parent, entries, hd⟩ := isDir_of_entry hi
          constructor
          · rw [FS.setEntry, hd]
            rfl
          · rintro j hj ⟨p, es, hdir⟩
            obtain rfl := Option.some.inj (hi.symm.trans hj)
            exact hnode p es hdir
          · refine ⟨parent, entries, hd, ?_⟩
            rw [FS.setEntry, hd, setNode_nodes, if_pos rfl]
          · intro j hj
            rw [FS.setEntry, hd, setNode_nodes, if_neg hj]

theorem written_of_writeTo {i : Ino} {change : List UInt8 → Nat → Node}
    (hchange : ∀ data mode, ∃ data' mode', change data mode = .file data' mode')
    (h : fs.writeTo i change = .ok fs') : Written fs i fs' := by
  rw [FS.writeTo] at h
  split at h
  · next data mode hi =>
      obtain rfl := Except.ok.inj h
      obtain ⟨data', mode', hnew⟩ := hchange data mode
      exact ⟨rfl, ⟨data, mode, hi⟩, ⟨data', mode', by rw [setNode_nodes, if_pos rfl, hnew]⟩,
        fun j hj => if_neg hj⟩
  · cases h

/-! ## The effect of a call -/

/-- All that a call can do. -/
inductive Effect (s : State) : (c : Call) → Reply c → State → Prop where
  | failed (c : Call) (e : Errno) : Effect s c (.error e) s
  | polled : Effect s .poll (.ok ()) s
  | read (bytes : Nat) : Effect s (.read bytes) (.ok ()) s
  | openStart : s.fs.IsDir s.start →
      Effect s .openStart (.ok s.fds.length) { s with fds := s.fds ++ [s.start] }
  | openat {f : Fd} {component : Component} {d i : Ino} : s.fds[f]? = some d →
      s.fs.child d component = some i → s.fs.IsDir i →
      Effect s (.openat f component) (.ok s.fds.length) { s with fds := s.fds ++ [i] }
  | mkdirat {f : Fd} {n : Name} {d fresh : Ino} {fs' : FS} : s.fds[f]? = some d →
      Made s.fs d n fresh (.dir (some d) fun _ => none) fs' →
      Effect s (.mkdirat f n) (.ok ()) { s with fs := fs' }
  | unlinkat {f : Fd} {n : Name} {d : Ino} {fs' : FS} : s.fds[f]? = some d →
      Dropped s.fs d n fs' → Effect s (.unlinkat f n) (.ok ()) { s with fs := fs' }
  | createat {f : Fd} {n : Name} {d fresh : Ino} {fs' : FS} : s.fds[f]? = some d →
      Made s.fs d n fresh (.file [] 0o644) fs' →
      Effect s (.createat f n) (.ok s.fds.length)
        { s with fs := fs', fds := s.fds ++ [fresh] }
  | symlinkat {target : List Char} {f : Fd} {n : Name} {d fresh : Ino} {fs' : FS} :
      s.fds[f]? = some d → Made s.fs d n fresh (.symlink target) fs' →
      Effect s (.symlinkat target f n) (.ok ()) { s with fs := fs' }
  | write {f : Fd} {data : List UInt8} {i : Ino} {fs' : FS} : s.fds[f]? = some i →
      Written s.fs i fs' → Effect s (.write f data) (.ok ()) { s with fs := fs' }
  | fchmod {f : Fd} {mode : Nat} {i : Ino} {fs' : FS} : s.fds[f]? = some i →
      Written s.fs i fs' → Effect s (.fchmod f mode) (.ok ()) { s with fs := fs' }

theorem effect_of_on {c : Call} {s t : State} {r : Reply c} {f : Fd}
    {g : Ino → Option (State × Reply c)} (h : s.on f g = some (t, r))
    (hg : ∀ d, s.fds[f]? = some d → g d = some (t, r) → Effect s c r t) : Effect s c r t := by
  rw [State.on] at h
  split at h
  · next d hd => exact hg d hd h
  · cases h
    exact .failed c .badf

theorem openDir_cases {s t : State} {i : Ino} {r : Except Errno Fd} (h : s.openDir i = (t, r)) :
    (∃ e, t = s ∧ r = .error e) ∨
      (s.fs.IsDir i ∧ t = { s with fds := s.fds ++ [i] } ∧ r = .ok s.fds.length) := by
  rw [State.openDir] at h
  split at h
  · next parent entries hi =>
      cases h
      exact .inr ⟨⟨parent, entries, hi⟩, rfl, rfl⟩
  · cases h
    exact .inl ⟨_, rfl, rfl⟩
  · cases h
    exact .inl ⟨_, rfl, rfl⟩
  · cases h
    exact .inl ⟨_, rfl, rfl⟩

theorem after_cases {s t : State} {x : Except Errno FS} {r : Except Errno Unit}
    (h : s.after x = (t, r)) :
    (∃ e, t = s ∧ r = .error e) ∨ ∃ fs, x = .ok fs ∧ t = { s with fs := fs } ∧ r = .ok () := by
  cases x with
  | error e =>
      cases h
      exact .inl ⟨e, rfl, rfl⟩
  | ok fs =>
      cases h
      exact .inr ⟨fs, rfl, rfl, rfl⟩

/-- **What `exec` does is an effect.** -/
theorem effect_of_exec {s t : State} {c : Call} {x : Choice} {r : Reply c}
    (h : exec s c x = some (t, r)) : Effect s c r t := by
  cases x with
  | fail e =>
      -- a call that the world lets fail changes nothing
      obtain ⟨rfl, rfl⟩ : t = s ∧ r = .error e := by
        cases c <;> cases h <;> exact ⟨rfl, rfl⟩
      exact .failed c e
  | proceed fresh =>
      cases c with
      | poll =>
          cases h
          exact .polled
      | read bytes =>
          cases h
          exact .read bytes
      | openStart =>
          rcases openDir_cases (Option.some.inj h) with ⟨e, rfl, rfl⟩ | ⟨hdir, rfl, rfl⟩
          · exact .failed _ e
          · exact .openStart hdir
      | openat f component =>
          refine effect_of_on h fun d hd hg => ?_
          split at hg
          · next i hi =>
              rcases openDir_cases (Option.some.inj hg) with ⟨e, rfl, rfl⟩ | ⟨hdir, rfl, rfl⟩
              · exact .failed _ e
              · exact .openat hd hi hdir
          · cases hg
            exact .failed _ _
      | mkdirat f n =>
          refine effect_of_on h fun d hd hg => ?_
          obtain ⟨y, hy, hafter⟩ := Option.map_eq_some_iff.mp hg
          rcases after_cases hafter with ⟨e, rfl, rfl⟩ | ⟨fs, rfl, rfl, rfl⟩
          · exact .failed _ e
          · exact .mkdirat hd (made_of_create hy)
      | unlinkat f n =>
          refine effect_of_on h fun d hd hg => ?_
          rcases after_cases (Option.some.inj hg) with ⟨e, rfl, rfl⟩ | ⟨fs, hfs, rfl, rfl⟩
          · exact .failed _ e
          · exact .unlinkat hd (dropped_of_unlink hfs)
      | createat f n =>
          refine effect_of_on h fun d hd hg => ?_
          split at hg
          · next fs hfs =>
              cases hg
              exact .createat hd (made_of_create hfs)
          · cases hg
            exact .failed _ _
          · cases hg
      | symlinkat target f n =>
          refine effect_of_on h fun d hd hg => ?_
          split at hg
          · cases hg
            exact .failed _ _
          · obtain ⟨y, hy, hafter⟩ := Option.map_eq_some_iff.mp hg
            rcases after_cases hafter with ⟨e, rfl, rfl⟩ | ⟨fs, rfl, rfl, rfl⟩
            · exact .failed _ e
            · exact .symlinkat hd (made_of_create hy)
      | write f data =>
          refine effect_of_on h fun i hi hg => ?_
          rcases after_cases (Option.some.inj hg) with ⟨e, rfl, rfl⟩ | ⟨fs, hfs, rfl, rfl⟩
          · exact .failed _ e
          · exact .write hi (written_of_writeTo (fun _ _ => ⟨_, _, rfl⟩) hfs)
      | fchmod f mode =>
          refine effect_of_on h fun i hi hg => ?_
          rcases after_cases (Option.some.inj hg) with ⟨e, rfl, rfl⟩ | ⟨fs, hfs, rfl, rfl⟩
          · exact .failed _ e
          · exact .fchmod hi (written_of_writeTo (fun _ _ => ⟨_, _, rfl⟩) hfs)

end FileSystem
