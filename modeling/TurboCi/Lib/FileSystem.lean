import Mathlib.Tactic

set_option autoImplicit false

/-! # File systems

A file system as a kernel sees it: numbered nodes, which are directories, files or symbolic
links, and directories that name nodes. Paths are lists of components, and `walk` resolves them
as the kernel does, one component at a time and following the links on the way.

Seen from one directory, its *root*, the nodes are those that names lead to from it (`locate`),
and those *outside*, which names lead to from the top without passing the root. Whoever changes
only nodes that are not outside leaves what is outside as it is (`outside_congr`), and a
directory named by a directory that is not outside is not outside either (`not_outside_child`).
-/

namespace FileSystem

/-! ## Paths -/

/-- A name in a directory. -/
def Name := { n : List Char // n ≠ [] ∧ n ≠ ['.'] ∧ n ≠ ['.', '.'] ∧ '/' ∉ n }

instance : DecidableEq Name := inferInstanceAs (DecidableEq (Subtype _))

inductive Component where
  | rootDir
  | curDir
  | parentDir
  | normal (name : Name)
  deriving DecidableEq

/-- The component stays in the directory or goes down. -/
def Component.Plain : Component → Prop
  | .curDir | .normal _ => True
  | .rootDir | .parentDir => False

instance : DecidablePred Component.Plain
  | .curDir | .normal _ => isTrue trivial
  | .rootDir | .parentDir => isFalse id

/-- What stands between two slashes of a path. -/
abbrev Segment := { s : List Char // '/' ∉ s }

def segments : List Char → List Segment
  | [] => [⟨[], List.not_mem_nil⟩]
  | c :: cs =>
      if h : c = '/' then ⟨[], List.not_mem_nil⟩ :: segments cs
      else
        match segments cs with
        | [] => [⟨[c], fun hc => h (List.mem_singleton.mp hc).symm⟩]
        | s :: rest =>
            ⟨c :: s.1, fun hc => (List.mem_cons.mp hc).elim (fun hc => h hc.symm) s.2⟩ :: rest

def Segment.component (s : Segment) : Component :=
  if h : s.1 = [] ∨ s.1 = ['.'] then .curDir
  else if h' : s.1 = ['.', '.'] then .parentDir
  else .normal ⟨s.1, fun hs => h (.inl hs), fun hs => h (.inr hs), h', s.2⟩

def isAbsolute (path : List Char) : Bool := path.head? = some '/'

/-- The components of a path, as the kernel reads it. -/
def parse (path : List Char) : List Component :=
  (if path.head? = some '/' then [.rootDir] else []) ++ (segments path).map Segment.component

/-! ## Nodes -/

abbrev Ino := Nat

inductive Node where
  /-- A directory that has been removed has no parent. -/
  | dir (parent : Option Ino) (entries : Name → Option Ino)
  | file (data : List UInt8) (mode : Nat)
  | symlink (target : List Char)

structure FS where
  /-- the directory `/` -/
  top : Ino
  nodes : Ino → Option Node

variable {fs fs' : FS} {root d i : Ino}

def FS.IsDir (fs : FS) (i : Ino) : Prop := ∃ parent entries, fs.nodes i = some (.dir parent entries)

/-- The node that the directory `d` names `n`. -/
def FS.entry (fs : FS) (d : Ino) (n : Name) : Option Ino :=
  match fs.nodes d with
  | some (.dir _ entries) => entries n
  | _ => none

/-- Follows names from a directory down, through directories only. -/
def FS.locate (fs : FS) : Ino → List Name → Option Ino
  | d, [] => some d
  | d, n :: ns =>
      match fs.entry d n with
      | some i => fs.locate i ns
      | none => none

/-- What every kernel keeps: names lead to nodes, and every directory has one name, in the
directory that it has as its parent. -/
structure FS.WellFormed (fs : FS) : Prop where
  top : fs.nodes fs.top ≠ none
  known : ∀ d n i, fs.entry d n = some i → fs.nodes i ≠ none
  top_unnamed : ∀ d n, fs.entry d n ≠ some fs.top
  unique : ∀ d n d' n' i, fs.entry d n = some i → fs.entry d' n' = some i → fs.IsDir i →
    d = d' ∧ n = n'
  parent : ∀ d n i parent entries, fs.entry d n = some i →
    fs.nodes i = some (.dir parent entries) → parent = some d

theorem entry_of_dir {parent : Option Ino} {entries : Name → Option Ino} (n : Name)
    (h : fs.nodes d = some (.dir parent entries)) : fs.entry d n = entries n := by
  rw [FS.entry, h]

theorem isDir_of_entry {n : Name} (h : fs.entry d n = some i) : fs.IsDir d := by
  rw [FS.entry] at h
  split at h
  · next parent entries hnode => exact ⟨parent, entries, hnode⟩
  · cases h

theorem locate_append (ns ms : List Name) :
    fs.locate d (ns ++ ms) = (fs.locate d ns).bind (fun i => fs.locate i ms) := by
  induction ns generalizing d with
  | nil => rfl
  | cons n ns ih =>
      simp only [List.cons_append, FS.locate]
      cases fs.entry d n with
      | none => rfl
      | some i => exact ih

theorem locate_concat {ns : List Name} {n : Name} :
    fs.locate root (ns ++ [n]) = some i ↔
      ∃ d, fs.locate root ns = some d ∧ fs.entry d n = some i := by
  have hone : ∀ d, fs.locate d [n] = fs.entry d n := by
    intro d
    simp only [FS.locate]
    cases fs.entry d n with
    | none => rfl
    | some i => rfl
  rw [locate_append]
  simp only [hone, Option.bind_eq_some_iff]

/-! ## Outside of a directory -/

/-- Names lead from the top to the node without passing the root. -/
inductive Outside (fs : FS) (root : Ino) : Ino → Prop where
  | top : fs.top ≠ root → Outside fs root fs.top
  | entry {d : Ino} {n : Name} {i : Ino} : Outside fs root d → fs.entry d n = some i →
      i ≠ root → Outside fs root i

theorem not_outside_root : ¬ Outside fs root root := by
  intro h
  cases h with
  | top hne => exact hne rfl
  | entry _ _ hne => exact hne rfl

theorem Outside.known (hfs : fs.WellFormed) (h : Outside fs root i) : fs.nodes i ≠ none := by
  cases h with
  | top _ => exact hfs.top
  | entry _ hentry _ => exact hfs.known _ _ _ hentry

/-- **A directory inside names no directory outside.** -/
theorem not_outside_child (hfs : fs.WellFormed) {n : Name} (hd : ¬ Outside fs root d)
    (hentry : fs.entry d n = some i) (hi : fs.IsDir i) : ¬ Outside fs root i := by
  intro h
  cases h with
  | top _ => exact hfs.top_unnamed d n hentry
  | entry hd' hentry' _ =>
      obtain ⟨rfl, -⟩ := hfs.unique _ _ _ _ _ hentry hentry' hi
      exact hd hd'

theorem Outside.of_unchanged (htop : fs'.top = fs.top)
    (h : ∀ i, Outside fs root i → fs'.nodes i = fs.nodes i) (hi : Outside fs root i) :
    Outside fs' root i := by
  induction hi with
  | top hne => exact htop ▸ .top (htop.symm ▸ hne)
  | entry hd hentry hne ih =>
      rw [FS.entry, ← h _ hd] at hentry
      exact .entry ih hentry hne

theorem Outside.to_unchanged (htop : fs'.top = fs.top)
    (h : ∀ i, Outside fs root i → fs'.nodes i = fs.nodes i) (hi : Outside fs' root i) :
    Outside fs root i := by
  induction hi with
  | top hne => exact htop.symm ▸ .top (htop ▸ hne)
  | entry hd hentry hne ih =>
      rw [FS.entry, h _ ih] at hentry
      exact .entry ih hentry hne

/-- Nothing outside has changed. -/
structure Untouched (root : Ino) (fs fs' : FS) : Prop where
  top : fs'.top = fs.top
  nodes : ∀ i, Outside fs root i → fs'.nodes i = fs.nodes i

/-- **Where nothing outside changes, the same nodes stay outside.** -/
theorem outside_congr (h : Untouched root fs fs') : Outside fs' root i ↔ Outside fs root i :=
  ⟨Outside.to_unchanged h.top h.nodes, Outside.of_unchanged h.top h.nodes⟩

theorem Untouched.refl (root : Ino) (fs : FS) : Untouched root fs fs := ⟨rfl, fun _ _ => rfl⟩

theorem Untouched.trans {fs'' : FS} (h : Untouched root fs fs') (h' : Untouched root fs' fs'') :
    Untouched root fs fs'' where
  top := h'.top.trans h.top
  nodes i hi := (h'.nodes i ((outside_congr h).mpr hi)).trans (h.nodes i hi)

/-! ## Below a directory -/

/-- The root is a directory, named from outside or the top itself. -/
structure FS.Rooted (fs : FS) (root : Ino) : Prop where
  wellFormed : fs.WellFormed
  dir : fs.IsDir root
  above : root = fs.top ∨ ∃ d n, Outside fs root d ∧ fs.entry d n = some root

theorem not_outside_of_locate (hfs : fs.WellFormed) {ns : List Name} :
    ∀ {i : Ino}, fs.locate root ns = some i → fs.IsDir i → ¬ Outside fs root i := by
  induction ns using List.reverseRecOn with
  | nil =>
      intro i hi _
      obtain rfl := Option.some.inj hi
      exact not_outside_root
  | append_singleton ns n ih =>
      intro i hi hdir
      obtain ⟨d, hd, hentry⟩ := locate_concat.mp hi
      exact not_outside_child hfs (ih hd (isDir_of_entry hentry)) hentry hdir

theorem eq_nil_of_locate_root (hfs : fs.Rooted root) {ns : List Name}
    (h : fs.locate root ns = some root) : ns = [] := by
  rcases List.eq_nil_or_concat ns with rfl | ⟨ns, n, rfl⟩
  · rfl
  · rw [List.concat_eq_append] at h
    obtain ⟨d, hd, hentry⟩ := locate_concat.mp h
    rcases hfs.above with rfl | ⟨d', n', hd', hentry'⟩
    · exact absurd hentry (hfs.wellFormed.top_unnamed d n)
    · obtain ⟨rfl, -⟩ := hfs.wellFormed.unique _ _ _ _ _ hentry hentry' hfs.dir
      exact absurd hd'
        (not_outside_of_locate hfs.wellFormed hd (isDir_of_entry hentry))

/-- **A directory below the root is at one place.** -/
theorem locate_injective (hfs : fs.Rooted root) {ns : List Name} :
    ∀ {ms : List Name} {i : Ino}, fs.locate root ns = some i → fs.locate root ms = some i →
      fs.IsDir i → ns = ms := by
  induction ns using List.reverseRecOn with
  | nil =>
      intro ms i hi hi' _
      obtain rfl := Option.some.inj hi
      exact (eq_nil_of_locate_root hfs hi').symm
  | append_singleton ns n ih =>
      intro ms i hi hi' hdir
      rcases List.eq_nil_or_concat ms with rfl | ⟨ms, m, rfl⟩
      · obtain rfl := Option.some.inj hi'
        exact eq_nil_of_locate_root hfs hi
      · rw [List.concat_eq_append] at hi' ⊢
        obtain ⟨d, hd, hentry⟩ := locate_concat.mp hi
        obtain ⟨d', hd', hentry'⟩ := locate_concat.mp hi'
        obtain ⟨rfl, rfl⟩ := hfs.wellFormed.unique _ _ _ _ _ hentry hentry' hdir
        rw [ih hd hd' (isDir_of_entry hentry)]

end FileSystem
