import TurboCi.Lib.Confined
import TurboCi.Lib.PathWalk
import TurboCi.Lib.Prog
import Mathlib.Logic.Function.Basic

set_option autoImplicit false

/-! # The layout below a directory

What stands below a directory, by the paths that lead to it: a `Layout`. A process that nobody
disturbs (`undisturbed`: no call fails without a reason, and there is always an unused number for
a new node) changes the layout at the path that it names, and nowhere else. The rules
`proceeds_mkdirat`, `proceeds_createat` and so on say for each call what it replies and what
becomes of the layout.
-/

namespace FileSystem

open Prog

variable {fs fs' : FS} {root d fresh i : Ino} {n : Name} {node : Node} {ns ms : List Name}

/-- What stands at a path. -/
inductive Item where
  | dir
  | file (data : List UInt8) (mode : Nat)
  | symlink (target : List Char)
  deriving DecidableEq

def Node.item : Node → Item
  | .dir _ _ => .dir
  | .file data mode => .file data mode
  | .symlink target => .symlink target

abbrev Layout := List Name → Option Item

/-- What stands below a directory. -/
def FS.layout (fs : FS) (root : Ino) : Layout := fun ns =>
  ((fs.locate root ns).bind fs.nodes).map Node.item

/-- No node below the root has two paths. -/
def FS.OnePath (fs : FS) (root : Ino) : Prop :=
  ∀ ns ms i, fs.locate root ns = some i → fs.locate root ms = some i → ns = ms

theorem layout_eq_some {item : Item} :
    fs.layout root ns = some item ↔
      ∃ i node, fs.locate root ns = some i ∧ fs.nodes i = some node ∧ node.item = item := by
  simp only [FS.layout, Option.map_eq_some_iff, Option.bind_eq_some_iff]
  constructor
  · rintro ⟨node, ⟨i, hi, hnode⟩, hitem⟩
    exact ⟨i, node, hi, hnode, hitem⟩
  · rintro ⟨i, node, hi, hnode, hitem⟩
    exact ⟨node, ⟨i, hi, hnode⟩, hitem⟩

theorem known_of_locate (hfs : fs.Rooted root) (h : fs.locate root ns = some i) :
    fs.nodes i ≠ none := by
  rcases List.eq_nil_or_concat ns with rfl | ⟨ns, n, rfl⟩
  · obtain rfl := Option.some.inj h
    obtain ⟨parent, entries, hroot⟩ := hfs.dir
    rw [hroot]
    exact Option.some_ne_none _
  · rw [List.concat_eq_append] at h
    obtain ⟨d, -, hentry⟩ := locate_concat.mp h
    exact hfs.wellFormed.known d n i hentry

theorem layout_eq_none (hfs : fs.Rooted root) :
    fs.layout root ns = none ↔ fs.locate root ns = none := by
  rw [FS.layout, Option.map_eq_none_iff, Option.bind_eq_none_iff]
  constructor
  · intro h
    cases hns : fs.locate root ns with
    | none => rfl
    | some i => exact absurd (h i hns) (known_of_locate hfs hns)
  · intro h i hi
    rw [h] at hi
    cases hi

theorem layout_dir : fs.layout root ns = some .dir ↔
    ∃ i, fs.locate root ns = some i ∧ fs.IsDir i := by
  rw [layout_eq_some]
  constructor
  · rintro ⟨i, node, hi, hnode, hitem⟩
    cases node with
    | dir parent entries => exact ⟨i, hi, parent, entries, hnode⟩
    | file data mode => cases hitem
    | symlink target => cases hitem
  · rintro ⟨i, hi, parent, entries, hnode⟩
    exact ⟨i, _, hi, hnode, rfl⟩

/-! ## A new node -/

theorem locate_concat_eq (ns : List Name) (n : Name) :
    fs.locate root (ns ++ [n]) = (fs.locate root ns).bind (fs.entry · n) := by
  ext i
  rw [locate_concat, Option.bind_eq_some_iff]

theorem Made.locate (hfs : fs.Rooted root) (h : Made fs d n fresh node fs')
    (hnode : node.Childless) (hd : fs.locate root ns = some d) (ms : List Name) :
    fs'.locate root ms = if ms = ns ++ [n] then some fresh else fs.locate root ms := by
  have hdir : fs.IsDir d := by
    obtain ⟨parent, entries, hd, -⟩ := h.dir
    exact ⟨parent, entries, hd⟩
  induction ms using List.reverseRecOn with
  | nil => simp [FS.locate]
  | append_singleton ms m ih =>
      rw [locate_concat_eq, locate_concat_eq, ih]
      by_cases hms : ms = ns ++ [n]
      · -- the new node names nothing, and nothing was below its name
        have hne : ms ++ [m] ≠ ns ++ [n] := by
          intro heq
          have hlength := congrArg List.length heq
          simp [hms] at hlength
        have hfresh : fs'.entry fresh m = none := by
          rw [h.entry hnode, if_neg (fun hf => h.fresh_ne hf.1), FS.entry, h.unused]
        have hold : fs.locate root ms = none := by
          rw [hms, locate_concat_eq, hd]
          exact h.absent
        rw [if_pos hms, if_neg hne, hold]
        exact hfresh
      · rw [if_neg hms]
        cases hms' : fs.locate root ms with
        | none =>
            have hne : ms ++ [m] ≠ ns ++ [n] := by
              intro heq
              obtain ⟨rfl, -⟩ := List.append_inj' heq rfl
              rw [hd] at hms'
              cases hms'
            rw [if_neg hne]
            rfl
        | some e =>
            have hiff : (e = d ∧ m = n) ↔ ms ++ [m] = ns ++ [n] := by
              constructor
              · rintro ⟨rfl, rfl⟩
                rw [locate_injective hfs hms' hd hdir]
              · intro heq
                obtain ⟨rfl, hmn⟩ := List.append_inj' heq rfl
                exact ⟨Option.some.inj (hms'.symm.trans hd), by simpa using hmn⟩
            rw [Option.bind_some, Option.bind_some, h.entry hnode]
            simp only [hiff]

/-- **A new node changes the layout at its path.** -/
theorem Made.layout (hfs : fs.Rooted root) (h : Made fs d n fresh node fs')
    (hnode : node.Childless) (hd : fs.locate root ns = some d) :
    fs'.layout root = Function.update (fs.layout root) (ns ++ [n]) (some node.item) := by
  funext ms
  rw [FS.layout, h.locate hfs hnode hd]
  by_cases hms : ms = ns ++ [n]
  · rw [if_pos hms, hms, Function.update_self, Option.bind_some, h.made, Option.map_some]
  · rw [if_neg hms, Function.update_of_ne hms, FS.layout]
    cases hi : fs.locate root ms with
    | none => rfl
    | some i =>
        have hknown := known_of_locate hfs hi
        simp only [Option.bind_some]
        by_cases hid : i = d
        · -- the directory has another entry, but stays a directory
          obtain ⟨parent, entries, hold, hnew⟩ := h.dir
          rw [hid, hold, hnew]
          rfl
        · rw [h.other i hid (h.nodes_old hknown)]

theorem Made.onePath (hfs : fs.Rooted root) (h : Made fs d n fresh node fs')
    (hnode : node.Childless) (hd : fs.locate root ns = some d) (hone : fs.OnePath root) :
    fs'.OnePath root := by
  have hold : ∀ ms, fs.locate root ms ≠ some fresh := fun ms hms =>
    known_of_locate hfs hms h.unused
  intro ms ms' i hi hi'
  rw [h.locate hfs hnode hd] at hi hi'
  split at hi
  · next hms =>
      obtain rfl := Option.some.inj hi
      split at hi'
      · next hms' => rw [hms, hms']
      · exact absurd hi' (hold ms')
  · split at hi'
    · obtain rfl := Option.some.inj hi'
      exact absurd hi (hold ms)
    · exact hone ms ms' i hi hi'

/-! ## A written file -/

theorem Written.locate (h : Written fs i fs') (ms : List Name) :
    fs'.locate root ms = fs.locate root ms := by
  induction ms using List.reverseRecOn with
  | nil => rfl
  | append_singleton ms m ih =>
      rw [locate_concat_eq, locate_concat_eq, ih]
      congr 1
      funext e
      exact h.entry e m

/-- A write changes the layout at the file's only path. -/
theorem Written.layout (h : Written fs i fs') (hone : fs.OnePath root)
    (hi : fs.locate root ns = some i) :
    fs'.layout root = Function.update (fs.layout root) ns ((fs'.nodes i).map Node.item) := by
  funext ms
  rw [FS.layout, h.locate]
  by_cases hms : ms = ns
  · rw [hms, Function.update_self, hi, Option.bind_some]
  · rw [Function.update_of_ne hms, FS.layout]
    cases hj : fs.locate root ms with
    | none => rfl
    | some j =>
        have hij : j ≠ i := by
          rintro rfl
          exact hms (hone ms ns j hj hi)
        rw [Option.bind_some, Option.bind_some, h.other j hij]

theorem Written.onePath (h : Written fs i fs') (hone : fs.OnePath root) : fs'.OnePath root := by
  intro ms ms' j hj hj'
  rw [h.locate] at hj hj'
  exact hone ms ms' j hj hj'

/-! ## A process that nobody disturbs -/

/-- Every call goes on, with some unused number for a new node. -/
def undisturbed : Spec State Call Reply where
  pre s c := ∃ x t r, exec s c (.proceed x) = some (t, r)
  post s c r t := ∃ x, exec s c (.proceed x) = some (t, r)

/-- The file system has finitely many nodes. -/
def FS.Bounded (fs : FS) : Prop := ∃ bound, ∀ i, bound ≤ i → fs.nodes i = none

/-- The directory, which has not been removed, has this layout. -/
structure Lays (root : Ino) (l : Layout) (s : State) : Prop where
  rooted : s.fs.Rooted root
  start : s.start = root
  live : ∃ parent entries, s.fs.nodes root = some (.dir (some parent) entries)
  onePath : s.fs.OnePath root
  bounded : s.fs.Bounded
  layout : s.fs.layout root = l

/-- Handle `f` is of the file at the path. -/
def FileAt (root : Ino) (s : State) (f : Fd) (ns : List Name) : Prop :=
  ∃ i, s.fds[f]? = some i ∧ s.fs.locate root ns = some i

/-- Handles of directories stay. -/
def Keeps (root : Ino) (s t : State) : Prop :=
  ∀ f ns, HandleAt root s f ns → HandleAt root t f ns

theorem Keeps.trans {s t u : State} (h : Keeps root s t) (h' : Keeps root t u) : Keeps root s u :=
  fun f ns hf => h' f ns (h f ns hf)

/-- What a call that goes on replies and leaves. -/
def Proceeds (s : State) (c : Call) (P : Reply c → State → Prop) : Prop :=
  (∃ x t r, exec s c (.proceed x) = some (t, r)) ∧
    ∀ x t r, exec s c (.proceed x) = some (t, r) → P r t

theorem ends_call {ε α : Type} {s : State} {c : Call} {k : Reply c → Program Call Reply ε α}
    {P : Reply c → State → Prop} {Q : Except ε α → State → Prop} (h : Proceeds s c P)
    (hk : ∀ r t, P r t → Ends undisturbed Q (k r) t) : Ends undisturbed Q (.call c k) s :=
  ⟨h.1, fun r t hr => hr.elim fun x hx => hk r t (h.2 x t r hx)⟩

theorem returns_call {ε α : Type} {s : State} {c : Call} {k : Reply c → Program Call Reply ε α}
    {P : Reply c → State → Prop} {Q : α → State → Prop} (h : Proceeds s c P)
    (hk : ∀ r t, P r t → Returns undisturbed Q (k r) t) :
    Returns undisturbed Q (.call c k) s :=
  ends_call h hk

/-- A call whose reply and effect do not depend on a choice. -/
theorem proceeds_of_eq {s t : State} {c : Call} {r : Reply c} {P : Reply c → State → Prop}
    (h : ∀ x, exec s c (.proceed x) = some (t, r)) (hP : P r t) : Proceeds s c P := by
  refine ⟨⟨0, t, r, h 0⟩, fun x t' r' hx => ?_⟩
  obtain ⟨rfl, rfl⟩ := Prod.mk.inj (Option.some.inj ((h x).symm.trans hx))
  exact hP

section Rules

variable {l : Layout} {s t : State} {f : Fd}

theorem Lays.keeps (hs : Lays root l s) {c : Call} {r : Reply c} {x : Choice}
    (h : exec s c x = some (t, r)) : Keeps root s t :=
  fun _ _ hf => hf.of_effect hs.rooted.wellFormed (effect_of_exec h)

/-- Handles do not matter for the layout. -/
theorem Lays.fds (hs : Lays root l s) (fds : List Ino) : Lays root l { s with fds := fds } where
  rooted := hs.rooted
  start := hs.start
  live := hs.live
  onePath := hs.onePath
  bounded := hs.bounded
  layout := hs.layout

theorem Lays.isDir (hs : Lays root l s) (hf : HandleAt root s f ns) : l ns = some .dir := by
  obtain ⟨d, -, hlocate, hdir⟩ := hf
  rw [← hs.layout]
  exact layout_dir.mpr ⟨d, hlocate, hdir⟩

/-- Every directory below the root has a parent, and so takes new names. -/
theorem Lays.parent (hs : Lays root l s) (hd : s.fs.locate root ns = some d)
    (hdir : s.fs.IsDir d) : ∃ parent entries, s.fs.nodes d = some (.dir (some parent) entries) := by
  rcases List.eq_nil_or_concat ns with rfl | ⟨ns, n, rfl⟩
  · obtain rfl := Option.some.inj hd
    exact hs.live
  · rw [List.concat_eq_append] at hd
    obtain ⟨e, -, hentry⟩ := locate_concat.mp hd
    obtain ⟨parent, entries, hnode⟩ := hdir
    obtain rfl := hs.rooted.wellFormed.parent e n d parent entries hentry hnode
    exact ⟨e, entries, hnode⟩

theorem Lays.absent (hs : Lays root l s) (hd : s.fs.locate root ns = some d)
    (hl : l (ns ++ [n]) = none) : s.fs.entry d n = none := by
  rw [← hs.layout, layout_eq_none hs.rooted, locate_concat_eq, hd] at hl
  exact hl

theorem Lays.made (hs : Lays root l s) (hd : s.fs.locate root ns = some d)
    (h : Made s.fs d n fresh node fs') (hnode : node.Childless)
    (hparent : ∀ parent entries, node = .dir parent entries → parent = some d) :
    Lays root (Function.update l (ns ++ [n]) (some node.item)) { s with fs := fs' } where
  rooted := (h.change hs.rooted.wellFormed hnode hparent).rooted hs.rooted
  start := hs.start
  live := by
    obtain ⟨parent, entries, hroot⟩ := hs.live
    by_cases hrd : root = d
    · obtain ⟨parent', entries', hold, hnew⟩ := h.dir
      rw [← hrd, hroot] at hold
      obtain ⟨rfl, -⟩ := Node.dir.inj (Option.some.inj hold)
      exact ⟨parent, _, hrd ▸ hnew⟩
    · have hne : root ≠ fresh := by
        rintro rfl
        rw [h.unused] at hroot
        cases hroot
      exact ⟨parent, entries, (h.other root hrd hne).trans hroot⟩
  onePath := h.onePath hs.rooted hnode hd hs.onePath
  bounded := by
    obtain ⟨bound, hbound⟩ := hs.bounded
    obtain ⟨parent, entries, hdir, -⟩ := h.dir
    refine ⟨max bound (fresh + 1), fun i hi => ?_⟩
    have hid : i ≠ d := by
      rintro rfl
      rw [hbound i (le_trans (le_max_left _ _) hi)] at hdir
      cases hdir
    have hif : i ≠ fresh := by
      have hlt : fresh < i := le_trans (le_max_right _ _) hi
      exact hlt.ne'
    exact (h.other i hid hif).trans (hbound i (le_trans (le_max_left _ _) hi))
  layout := by rw [h.layout hs.rooted hnode hd, hs.layout]

theorem Lays.written (hs : Lays root l s) (hi : s.fs.locate root ns = some i)
    (h : Written s.fs i fs') {node : Node} (hnode : fs'.nodes i = some node) :
    Lays root (Function.update l ns (some node.item)) { s with fs := fs' } where
  rooted := (h.change hs.rooted.wellFormed).rooted hs.rooted
  start := hs.start
  live := by
    obtain ⟨parent, entries, hroot⟩ := hs.live
    obtain ⟨data, mode, hfile⟩ := h.file
    have hne : root ≠ i := by
      rintro rfl
      rw [hfile] at hroot
      cases hroot
    exact ⟨parent, entries, (h.other root hne).trans hroot⟩
  onePath := h.onePath hs.onePath
  bounded := by
    obtain ⟨bound, hbound⟩ := hs.bounded
    obtain ⟨data, mode, hfile⟩ := h.file
    refine ⟨bound, fun j hj => ?_⟩
    have hne : j ≠ i := by
      rintro rfl
      rw [hbound j hj] at hfile
      cases hfile
    exact (h.other j hne).trans (hbound j hj)
  layout := by rw [h.layout hs.onePath hi, hs.layout, hnode, Option.map_some]

/-! ## What each call does -/

theorem proceeds_poll : Proceeds s .poll fun r t => r = .ok () ∧ t = s :=
  proceeds_of_eq (fun _ => rfl) ⟨rfl, rfl⟩

theorem proceeds_read {bytes : Nat} : Proceeds s (.read bytes) fun r t => r = .ok () ∧ t = s :=
  proceeds_of_eq (fun _ => rfl) ⟨rfl, rfl⟩

/-- A directory is opened. -/
theorem Lays.opened (hs : Lays root l s) (hlocate : s.fs.locate root ns = some i)
    (hdir : s.fs.IsDir i) : s.openDir i = ({ s with fds := s.fds ++ [i] }, .ok s.fds.length) ∧
      Lays root l { s with fds := s.fds ++ [i] } ∧
      HandleAt root { s with fds := s.fds ++ [i] } s.fds.length ns := by
  refine ⟨?_, hs.fds _, handleAt_opened hlocate hdir⟩
  obtain ⟨parent, entries, hnode⟩ := hdir
  simp only [State.openDir, hnode]

/-- The reply and the state of a call that opens a directory. -/
def Opened (root : Ino) (l : Layout) (s : State) (ns : List Name) (r : Except Errno Fd)
    (t : State) : Prop :=
  ∃ g, r = .ok g ∧ Lays root l t ∧ HandleAt root t g ns ∧ Keeps root s t

theorem proceeds_openStart (hs : Lays root l s) :
    Proceeds s .openStart (Opened root l s []) := by
  have hself : s.fs.locate root [] = some root := rfl
  obtain ⟨hopen, hlays, hhandle⟩ := hs.opened hself hs.rooted.dir
  have hexec : ∀ x, exec s .openStart (.proceed x) =
      some ({ s with fds := s.fds ++ [root] }, .ok s.fds.length) := by
    intro x
    show some (s.openDir s.start) = _
    exact (congrArg (fun i => some (s.openDir i)) hs.start).trans (congrArg some hopen)
  exact proceeds_of_eq hexec ⟨_, rfl, hlays, hhandle, hs.keeps (hexec 0)⟩

theorem proceeds_openat_curDir (hs : Lays root l s) (hf : HandleAt root s f ns) :
    Proceeds s (.openat f .curDir) (Opened root l s ns) := by
  obtain ⟨d, hd, hlocate, hdir⟩ := hf
  obtain ⟨hopen, hlays, hhandle⟩ := hs.opened hlocate hdir
  have hexec : ∀ x, exec s (.openat f .curDir) (.proceed x) =
      some ({ s with fds := s.fds ++ [d] }, .ok s.fds.length) := by
    intro x
    simp only [exec, State.on, hd, FS.child]
    exact congrArg some hopen
  exact proceeds_of_eq hexec ⟨_, rfl, hlays, hhandle, hs.keeps (hexec 0)⟩

theorem proceeds_openat_dir (hs : Lays root l s) (hf : HandleAt root s f ns)
    (hl : l (ns ++ [n]) = some .dir) :
    Proceeds s (.openat f (.normal n)) (Opened root l s (ns ++ [n])) := by
  obtain ⟨d, hd, hlocate, -⟩ := hf
  rw [← hs.layout, layout_dir] at hl
  obtain ⟨i, hi, hdir⟩ := hl
  obtain ⟨hopen, hlays, hhandle⟩ := hs.opened hi hdir
  have hentry : s.fs.entry d n = some i := by
    rw [locate_concat_eq, hlocate] at hi
    exact hi
  have hexec : ∀ x, exec s (.openat f (.normal n)) (.proceed x) =
      some ({ s with fds := s.fds ++ [i] }, .ok s.fds.length) := by
    intro x
    simp only [exec, State.on, hd, FS.child, hentry]
    exact congrArg some hopen
  exact proceeds_of_eq hexec ⟨_, rfl, hlays, hhandle, hs.keeps (hexec 0)⟩

theorem proceeds_openat_absent (hs : Lays root l s) (hf : HandleAt root s f ns)
    (hl : l (ns ++ [n]) = none) :
    Proceeds s (.openat f (.normal n)) fun r t => r = .error .noent ∧ t = s := by
  obtain ⟨d, hd, hlocate, -⟩ := hf
  refine proceeds_of_eq (fun x => ?_) ⟨rfl, rfl⟩
  simp only [exec, State.on, hd, FS.child, hs.absent hlocate hl]

theorem proceeds_unlinkat_absent (hs : Lays root l s) (hf : HandleAt root s f ns)
    (hl : l (ns ++ [n]) = none) :
    Proceeds s (.unlinkat f n) fun r t => r = .error .noent ∧ t = s := by
  obtain ⟨d, hd, hlocate, -⟩ := hf
  refine proceeds_of_eq (fun x => ?_) ⟨rfl, rfl⟩
  simp only [exec, State.on, hd, FS.unlink, hs.absent hlocate hl]
  rfl

/-- A node is made under any unused number. -/
theorem Lays.create (hs : Lays root l s) (hf : HandleAt root s f ns) (hl : l (ns ++ [n]) = none) :
    ∃ d, s.fds[f]? = some d ∧ s.fs.locate root ns = some d ∧ ∀ node,
      (∃ x fs, s.fs.create d n x node = some (.ok fs)) ∧
      ∀ x r, s.fs.create d n x node = some r → ∃ fs, r = .ok fs := by
  obtain ⟨d, hd, hlocate, hdir⟩ := hf
  obtain ⟨parent, entries, hnode⟩ := hs.parent hlocate hdir
  have hfree : (entries n).isSome = false := by
    rw [← entry_of_dir n hnode, hs.absent hlocate hl]
    rfl
  refine ⟨d, hd, hlocate, fun node => ?_⟩
  have hcreate : ∀ x, s.fs.create d n x node = if (s.fs.nodes x).isSome then none else
      some (.ok ((s.fs.setNode x node).setEntry d n (some x))) := by
    intro x
    simp only [FS.create, hnode, hfree, Bool.false_eq_true, if_false]
  constructor
  · obtain ⟨bound, hbound⟩ := hs.bounded
    refine ⟨bound, _, (hcreate bound).trans (if_neg ?_)⟩
    rw [hbound bound le_rfl]
    exact Bool.false_ne_true
  · intro x r hr
    rw [hcreate] at hr
    split at hr
    · cases hr
    · exact ⟨_, (Option.some.inj hr).symm⟩

/-- The state after a directory or a link is made. -/
theorem Lays.after_create (hs : Lays root l s) (hf : HandleAt root s f ns)
    (hl : l (ns ++ [n]) = none) :
    ∃ d, s.fds[f]? = some d ∧ ∀ node : Node, node.Childless →
      (∀ parent entries, node = .dir parent entries → parent = some d) →
      (∃ x t r, (s.fs.create d n x node).map s.after = some (t, r)) ∧
      ∀ x t r, (s.fs.create d n x node).map s.after = some (t, r) →
        r = .ok () ∧ Lays root (Function.update l (ns ++ [n]) (some node.item)) t := by
  obtain ⟨d, hd, hlocate, hall⟩ := hs.create hf hl
  refine ⟨d, hd, fun node hnode hparent => ?_⟩
  obtain ⟨⟨x, fs, hx⟩, hok⟩ := hall node
  refine ⟨⟨x, { s with fs := fs }, .ok (), by rw [hx]; rfl⟩, fun x t r h => ?_⟩
  obtain ⟨y, hy, hafter⟩ := Option.map_eq_some_iff.mp h
  obtain ⟨fs, rfl⟩ := hok x y hy
  obtain ⟨rfl, rfl⟩ := Prod.mk.inj hafter
  exact ⟨rfl, hs.made hlocate (made_of_create hy) hnode hparent⟩

theorem proceeds_mkdirat (hs : Lays root l s) (hf : HandleAt root s f ns)
    (hl : l (ns ++ [n]) = none) :
    Proceeds s (.mkdirat f n) fun r t => r = .ok () ∧
      Lays root (Function.update l (ns ++ [n]) (some .dir)) t ∧ Keeps root s t := by
  obtain ⟨d, hd, hall⟩ := hs.after_create hf hl
  have hexec : ∀ x, exec s (.mkdirat f n) (.proceed x) =
      (s.fs.create d n x (.dir (some d) fun _ => none)).map s.after := by
    intro x
    simp only [exec, State.on, hd]
    rfl
  obtain ⟨⟨x, t, r, hx⟩, hok⟩ := hall (.dir (some d) fun _ => none) (fun _ => rfl)
    fun parent entries hnode => (Node.dir.inj hnode).1.symm
  refine ⟨⟨x, t, r, (hexec x).trans hx⟩, fun x t r h => ?_⟩
  obtain ⟨hr, hlays⟩ := hok x t r ((hexec x).symm.trans h)
  exact ⟨hr, hlays, hs.keeps h⟩

theorem proceeds_symlinkat (hs : Lays root l s) (hf : HandleAt root s f ns)
    (hl : l (ns ++ [n]) = none) {target : List Char} (htarget : target ≠ []) :
    Proceeds s (.symlinkat target f n) fun r t => r = .ok () ∧
      Lays root (Function.update l (ns ++ [n]) (some (.symlink target))) t ∧ Keeps root s t := by
  obtain ⟨d, hd, hall⟩ := hs.after_create hf hl
  have hexec : ∀ x, exec s (.symlinkat target f n) (.proceed x) =
      (s.fs.create d n x (.symlink target)).map s.after := by
    intro x
    simp only [exec, State.on, hd, if_neg htarget]
    rfl
  obtain ⟨⟨x, t, r, hx⟩, hok⟩ := hall (.symlink target) trivial (fun _ _ h => by cases h)
  refine ⟨⟨x, t, r, (hexec x).trans hx⟩, fun x t r h => ?_⟩
  obtain ⟨hr, hlays⟩ := hok x t r ((hexec x).symm.trans h)
  exact ⟨hr, hlays, hs.keeps h⟩

theorem proceeds_createat (hs : Lays root l s) (hf : HandleAt root s f ns)
    (hl : l (ns ++ [n]) = none) :
    Proceeds s (.createat f n) fun r t => ∃ g, r = .ok g ∧
      Lays root (Function.update l (ns ++ [n]) (some (.file [] 0o644))) t ∧
      FileAt root t g (ns ++ [n]) ∧ Keeps root s t := by
  obtain ⟨d, hd, hlocate, hall⟩ := hs.create hf hl
  obtain ⟨⟨x, fs, hx⟩, hok⟩ := hall (.file [] 0o644)
  have hexec : ∀ x fs, s.fs.create d n x (.file [] 0o644) = some (.ok fs) →
      exec s (.createat f n) (.proceed x) =
        some ({ s with fs := fs, fds := s.fds ++ [x] }, .ok s.fds.length) := by
    intro x fs hx
    simp only [exec, State.on, hd, hx]
  refine ⟨⟨x, _, _, hexec x fs hx⟩, fun x t r h => ?_⟩
  have hkeeps := hs.keeps h
  cases hy : s.fs.create d n x (.file [] 0o644) with
  | none =>
      simp only [exec, State.on, hd, hy] at h
      cases h
  | some y =>
      obtain ⟨fs, rfl⟩ := hok x y hy
      obtain ⟨rfl, rfl⟩ := Prod.mk.inj (Option.some.inj ((hexec x fs hy).symm.trans h))
      have hmade := made_of_create hy
      refine ⟨_, rfl, (hs.made hlocate hmade trivial (fun _ _ h => by cases h)).fds _, ?_, hkeeps⟩
      refine ⟨x, List.getElem?_concat_length, ?_⟩
      rw [hmade.locate hs.rooted trivial hlocate, if_pos rfl]

/-- The state after a change of a file by its handle. -/
theorem Lays.after_write (hs : Lays root l s) (hf : FileAt root s f ns) {data : List UInt8}
    {mode : Nat} (hl : l ns = some (.file data mode)) :
    ∃ i, s.fds[f]? = some i ∧ ∀ change : List UInt8 → Nat → Node,
      (∀ data mode, ∃ data' mode', change data mode = .file data' mode') →
      ∃ fs, s.fs.writeTo i change = .ok fs ∧
        Lays root (Function.update l ns (some (change data mode).item)) { s with fs := fs } ∧
        FileAt root { s with fs := fs } f ns := by
  obtain ⟨i, hi, hlocate⟩ := hf
  refine ⟨i, hi, fun change hchange => ?_⟩
  rw [← hs.layout, layout_eq_some] at hl
  obtain ⟨j, node, hj, hnode, hitem⟩ := hl
  obtain rfl := Option.some.inj (hlocate.symm.trans hj)
  obtain rfl : node = .file data mode := by
    cases node with
    | dir parent entries => cases hitem
    | file data' mode' =>
        obtain ⟨rfl, rfl⟩ := Item.file.inj hitem
        rfl
    | symlink target => cases hitem
  have hwrite : s.fs.writeTo i change = .ok (s.fs.setNode i (change data mode)) := by
    simp only [FS.writeTo, hnode]
  have hwritten := written_of_writeTo hchange hwrite
  have hnew : (s.fs.setNode i (change data mode)).nodes i = some (change data mode) := if_pos rfl
  refine ⟨_, hwrite, hs.written hlocate hwritten hnew, i, hi, ?_⟩
  rw [hwritten.locate]
  exact hlocate

theorem proceeds_write (hs : Lays root l s) (hf : FileAt root s f ns) {data bytes : List UInt8}
    {mode : Nat} (hl : l ns = some (.file data mode)) :
    Proceeds s (.write f bytes) fun r t => r = .ok () ∧
      Lays root (Function.update l ns (some (.file (data ++ bytes) mode))) t ∧
      FileAt root t f ns ∧ Keeps root s t := by
  obtain ⟨i, hi, hall⟩ := hs.after_write hf hl
  obtain ⟨fs, hwrite, hlays, hfile⟩ :=
    hall (fun old mode => .file (old ++ bytes) mode) fun _ _ => ⟨_, _, rfl⟩
  have hexec : ∀ x, exec s (.write f bytes) (.proceed x) = some ({ s with fs := fs }, .ok ()) := by
    intro x
    simp only [exec, State.on, hi, hwrite]
    rfl
  exact proceeds_of_eq hexec ⟨rfl, hlays, hfile, hs.keeps (hexec 0)⟩

theorem proceeds_fchmod (hs : Lays root l s) (hf : FileAt root s f ns) {data : List UInt8}
    {mode mode' : Nat} (hl : l ns = some (.file data mode)) :
    Proceeds s (.fchmod f mode') fun r t => r = .ok () ∧
      Lays root (Function.update l ns (some (.file data mode'))) t ∧ Keeps root s t := by
  obtain ⟨i, hi, hall⟩ := hs.after_write hf hl
  obtain ⟨fs, hwrite, hlays, hfile⟩ :=
    hall (fun data _ => .file data mode') fun _ _ => ⟨_, _, rfl⟩
  have hexec : ∀ x, exec s (.fchmod f mode') (.proceed x) =
      some ({ s with fs := fs }, .ok ()) := by
    intro x
    simp only [exec, State.on, hi, hwrite]
    rfl
  exact proceeds_of_eq hexec ⟨rfl, hlays, hs.keeps (hexec 0)⟩

/-- The layout of an empty directory. -/
theorem lays_of_empty {parent : Ino} (hfs : fs.Rooted root)
    (hempty : fs.nodes root = some (.dir (some parent) fun _ => none)) (hbounded : fs.Bounded) :
    Lays root (fun ns => if ns = [] then some .dir else none) { fs := fs, start := root } := by
  have hentry : ∀ n, fs.entry root n = none := fun n => entry_of_dir n hempty
  have hnone : ∀ ns i, fs.locate root ns = some i → ns = [] := by
    intro ns i hi
    cases ns with
    | nil => rfl
    | cons n ns =>
        rw [FS.locate, hentry n] at hi
        cases hi
  refine ⟨hfs, rfl, ⟨parent, _, hempty⟩, fun ns ms i hi hi' => ?_, hbounded, ?_⟩
  · rw [hnone ns i hi, hnone ms i hi']
  · funext ns
    cases ns with
    | nil => exact layout_dir.mpr ⟨root, rfl, hfs.dir⟩
    | cons n ns =>
        rw [if_neg (List.cons_ne_nil n ns), layout_eq_none hfs, FS.locate, hentry n]

end Rules

end FileSystem
