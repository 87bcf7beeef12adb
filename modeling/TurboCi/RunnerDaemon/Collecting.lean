import TurboCi.Lib.Layouts
import TurboCi.RunnerDaemon.Artifacts

set_option autoImplicit false

/-! # Collecting paths

`collect_paths` (`runner_daemon/artifacts.rs`) collects what matches the patterns of artifacts and
caches. The workspace is a directory of a file system that does not change meanwhile. Paths below
the workspace's own are lists of components; links on the way to the last one are followed as the
kernel does, up to a number of steps (`fuel`). The crates `glob` and `walkdir` are parameters.

`glob` also matches the entries `.` and `..` of a directory, with a pattern such as `.*`. So a
match may go up although no `..` is written in its pattern, and a match that ends in `/.` is what
a link leads to. `mem_collectPaths` says what is collected.
-/

namespace TurboCi

open FileSystem Prog

namespace Artifacts

inductive SaveError where
  | badPattern
  /-- a directory that `glob` or `walkdir` cannot read -/
  | unreadable
  | metadata (path : List Component)
  /-- the archive cannot be written -/
  | archive
  deriving DecidableEq

/-- A match of a pattern: a path without `.` in it, as `Path::components` reads it, and whether
it is followed by `/.` -/
structure Match where
  path : List Component
  dot : Bool := false
  deriving DecidableEq

/-- The crates `glob` and `walkdir`, for one workspace. -/
structure Globs where
  /-- `glob::glob` of a pattern that is joined to the workspace's path; `none` for a match that
  cannot be read -/
  glob : Chars → Except SaveError (List (Option Match))
  /-- `WalkDir::new` without following links: what is below a directory, and whether it is a
  directory itself -/
  walkDir : Match → List (Option (List Component × Bool))
  /-- `glob::Pattern::new` and `matches_path_with` -/
  pattern : Chars → Option (List Component → Bool)

/-! ## Loops -/

section Collect

variable {α β ε : Type}

/-- A loop that collects what each round finds and ends at the first error. -/
def collectAll (f : α → Except ε (List β)) : List α → Except ε (List β)
  | [] => .ok []
  | a :: rest =>
      match f a with
      | .error e => .error e
      | .ok found =>
          match collectAll f rest with
          | .error e => .error e
          | .ok more => .ok (found ++ more)

/-- The loop finds what its rounds find. -/
theorem mem_collectAll {f : α → Except ε (List β)} {P : α → β → Prop} {l : List α}
    {found : List β} {b : β} (h : collectAll f l = .ok found)
    (hf : ∀ a bs, f a = .ok bs → ∀ b, b ∈ bs ↔ P a b) : b ∈ found ↔ ∃ a ∈ l, P a b := by
  induction l generalizing found with
  | nil =>
      obtain rfl := Except.ok.inj h
      simp
  | cons a rest ih =>
      rw [collectAll] at h
      split at h
      · cases h
      · next bs hbs =>
          split at h
          · cases h
          · next more hmore =>
              obtain rfl := Except.ok.inj h
              rw [List.mem_append, hf a bs hbs, ih hmore, List.exists_mem_cons_iff]

theorem collectAll_eq_ok {f : α → Except ε (List β)} {g : α → List β} {l : List α}
    (h : ∀ a ∈ l, f a = .ok (g a)) : collectAll f l = .ok (l.flatMap g) := by
  induction l with
  | nil => rfl
  | cons a rest ih =>
      rw [collectAll, h a List.mem_cons_self]
      simp only [ih fun b hb => h b (List.mem_cons_of_mem a hb)]
      rfl

theorem mem_of_collectAll {f : α → Except ε (List β)} {l : List α}
    {found : List β} {b : β} (h : collectAll f l = .ok found) :
    b ∈ found ↔ ∃ a ∈ l, ∃ bs, f a = .ok bs ∧ b ∈ bs := by
  refine mem_collectAll (P := fun a b => ∃ bs, f a = .ok bs ∧ b ∈ bs) h ?_
  intro a bs hbs b
  constructor
  · exact fun hb => ⟨bs, hbs, hb⟩
  · rintro ⟨bs', hbs', hb⟩
    rw [Except.ok.inj (hbs.symm.trans hbs')]
    exact hb

theorem ok_of_collectAll {f : α → Except ε (List β)} {l : List α} :
    ∀ {found : List β}, collectAll f l = .ok found → ∀ a ∈ l, ∃ bs, f a = .ok bs := by
  induction l with
  | nil => exact fun _ _ ha => absurd ha List.not_mem_nil
  | cons a rest ih =>
      intro found h
      rw [collectAll] at h
      split at h
      · cases h
      · next bs hbs =>
          split at h
          · cases h
          · next more hmore =>
              intro x hx
              rcases List.mem_cons.mp hx with rfl | hx
              · exact ⟨bs, hbs⟩
              · exact ih hmore x hx

end Collect

/-! ## The collection -/

/-- The order of names: character by character. -/
def nameLt (m n : List Char) : Bool := List.lex m n fun a b => a.toNat < b.toNat

/-- The order of components in paths. -/
def componentLt : Component → Component → Bool
  | .normal m, .normal n => nameLt m.1 n.1
  | c, d => rank c < rank d
where
  rank : Component → Nat
    | .rootDir => 0
    | .curDir => 1
    | .parentDir => 2
    | .normal _ => 3

/-- `BTreeSet::insert`, on the paths in their order. -/
def insertPath (path : List Component) (entries : List (List Component)) :
    List (List Component) :=
  if entries.any (· = path) then entries
  else entries.orderedInsert (fun p q => !List.lex q p componentLt) path

theorem mem_insertPath {path q : List Component} {entries : List (List Component)} :
    q ∈ insertPath path entries ↔ q = path ∨ q ∈ entries := by
  rw [insertPath]
  split
  · next hany =>
      have hmem : path ∈ entries := by simpa using hany
      constructor
      · exact .inr
      · rintro (rfl | hq)
        · exact hmem
        · exact hq
  · rw [List.mem_orderedInsert]

theorem nodup_insertPath {path : List Component} {entries : List (List Component)}
    (h : entries.Nodup) : (insertPath path entries).Nodup := by
  rw [insertPath]
  split
  · exact h
  · next hany =>
      have hmem : path ∉ entries := by simpa using hany
      exact (List.perm_orderedInsert _ path entries).nodup_iff.mpr (List.nodup_cons.mpr ⟨hmem, h⟩)

theorem mem_foldr_insertPath {found : List (List Component)} {path : List Component} :
    path ∈ found.foldr insertPath [] ↔ path ∈ found := by
  induction found with
  | nil => exact Iff.rfl
  | cons p found ih => rw [List.foldr_cons, mem_insertPath, ih, List.mem_cons]

theorem nodup_foldr_insertPath (found : List (List Component)) :
    (found.foldr insertPath []).Nodup := by
  induction found with
  | nil => exact List.nodup_nil
  | cons p found ih => exact nodup_insertPath ih

/-- The directory is the workspace or below it, found by going up. -/
def isBelow (fs : FS) (ws : Ino) : Nat → Ino → Bool
  | 0, d => d = ws
  | fuel + 1, d =>
      d = ws ||
        match fs.nodes d with
        | some (.dir (some parent) _) => isBelow fs ws fuel parent
        | _ => false

section Paths

variable (globs : Globs) (fs : FS) (ws : Ino) (fuel : Nat)

/-- What a path leads to, when the last name is followed too. -/
def resolved (path : List Component) : Option Ino :=
  match fs.walk fuel ws path with
  | some (.existing d) => some d
  | _ => none

/-- What a path names, when links on the way are followed but not the last name. -/
def named (path : List Component) : Option Ino :=
  match path.getLast? with
  | some (.normal n) => (resolved fs ws fuel path.dropLast).bind fun d => fs.entry d n
  | _ => resolved fs ws fuel path

/-- `symlink_metadata` of a path in the workspace. -/
def symlinkMetadata (path : List Component) : Option Node := (named fs ws fuel path).bind fs.nodes

/-- A directory is named through a `/.` even where the path is a link to it. -/
def Match.named (m : Match) : Option Ino :=
  if m.dot then resolved fs ws fuel (m.path ++ [.curDir]) else Artifacts.named fs ws fuel m.path

/-- `is_inside_workspace`: the parent of the path resolves to a directory of the workspace. -/
def isInsideWorkspace (path : List Component) : Bool :=
  -- the workspace itself is in a directory above it
  path ≠ [] && (resolved fs ws fuel path.dropLast).any (isBelow fs ws fuel)

/-- A pattern that is absolute or goes up is skipped. -/
def isSkipped (pattern : Chars) : Bool :=
  isAbsolute pattern || (components pattern).any (· = .parentDir)

/-- What an item of `walkdir` adds. -/
def collectItem : Option (List Component × Bool) → Except SaveError (List (List Component))
  | none => .error .unreadable
  | some (path, isDir) => .ok (if isDir then [] else [path])

/-- What a match of a pattern adds: itself, or what is below it. -/
def collectMatch : Option Match → Except SaveError (List (List Component))
  | none => .error .unreadable
  | some m =>
      if isInsideWorkspace fs ws fuel m.path then
        match (m.named fs ws fuel).bind fs.nodes with
        | none => .error (.metadata m.path)
        | some (.dir _ _) => collectAll collectItem (globs.walkDir m)
        | some _ => .ok [m.path]
      else .ok []

def collectPattern (pattern : Chars) : Except SaveError (List (List Component)) :=
  if isSkipped pattern then .ok []
  else
    match globs.glob pattern with
    | .error e => .error e
    | .ok found => collectAll (collectMatch globs fs ws fuel) found

/-- `collect_paths`, with the paths in their order. -/
def collectPaths (patterns exclude : List Chars) : Except SaveError (List (List Component)) :=
  match collectAll (collectPattern globs fs ws fuel) patterns with
  | .error e => .error e
  | .ok found =>
      .ok ((found.foldr insertPath []).filter fun path =>
        !(exclude.filterMap globs.pattern).any (· path))

/-! ## What is to be collected -/

/-- A match of a pattern that is not skipped. -/
def IsMatch (patterns : List Chars) (m : Match) : Prop :=
  ∃ pattern ∈ patterns, isSkipped pattern = false ∧ ∃ found, globs.glob pattern = .ok found ∧
    some m ∈ found

/-- The names below a match lead to a file or link. -/
def LeadsToFile (m : Match) (rest : List Name) : Prop :=
  ∃ i j node, m.named fs ws fuel = some i ∧ fs.locate i rest = some j ∧
    fs.nodes j = some node ∧ node.item ≠ .dir

def NotExcluded (exclude : List Chars) (path : List Component) : Prop :=
  ∀ pattern ∈ exclude.filterMap globs.pattern, pattern path = false

/-- The path is that of a file or link at or below a match that is inside of the workspace. -/
def Archived (patterns : List Chars) (path : List Component) : Prop :=
  ∃ m, IsMatch globs patterns m ∧ isInsideWorkspace fs ws fuel m.path = true ∧
    ∃ rest, path = m.path ++ rest.map .normal ∧ LeadsToFile fs ws fuel m rest

/-- The crates do what their documentation says, for the patterns. -/
structure GlobsDocumented (patterns : List Chars) : Prop where
  /-- what matches a pattern exists -/
  exist : ∀ m, IsMatch globs patterns m → ∃ i node, m.named fs ws fuel = some i ∧
    fs.nodes i = some node
  /-- `walkdir` returns what the directory's names lead to, without following links -/
  walked : ∀ m i, IsMatch globs patterns m → m.named fs ws fuel = some i → fs.IsDir i →
    ∀ path isDir, some (path, isDir) ∈ globs.walkDir m → ∃ rest j node,
      path = m.path ++ rest.map .normal ∧ fs.locate i rest = some j ∧ fs.nodes j = some node ∧
        (isDir = true ↔ node.item = .dir)
  /-- all of it, unless something cannot be read -/
  all : ∀ m i, IsMatch globs patterns m → m.named fs ws fuel = some i → fs.IsDir i →
    none ∉ globs.walkDir m → ∀ rest j node, fs.locate i rest = some j → fs.nodes j = some node →
      some (m.path ++ rest.map .normal, decide (node.item = .dir)) ∈ globs.walkDir m

variable {globs fs ws fuel}

/-- Where every match is a file or a link there is nothing to walk. -/
theorem globsDocumented_of_files {patterns : List Chars}
    (h : ∀ m, IsMatch globs patterns m → ∃ i node, m.named fs ws fuel = some i ∧
      fs.nodes i = some node ∧ node.item ≠ .dir) :
    GlobsDocumented globs fs ws fuel patterns := by
  have hnever : ∀ m i, IsMatch globs patterns m → m.named fs ws fuel = some i →
      ¬ fs.IsDir i := by
    rintro m i hm hi ⟨parent, entries, hdir⟩
    obtain ⟨i', node, hi', hnode, hitem⟩ := h m hm
    obtain rfl := Option.some.inj (hi.symm.trans hi')
    obtain rfl := Option.some.inj (hdir.symm.trans hnode)
    exact hitem rfl
  exact {
    exist := fun m hm => by
      obtain ⟨i, node, hi, hnode, -⟩ := h m hm
      exact ⟨i, node, hi, hnode⟩
    walked := fun m i hm hi hdir => absurd hdir (hnever m i hm hi)
    all := fun m i hm hi hdir => absurd hdir (hnever m i hm hi) }

/-! ## What is collected -/

theorem walk_of_resolved {path : List Component} {d : Ino} (h : resolved fs ws fuel path = some d) :
    fs.walk fuel ws path = some (.existing d) := by
  unfold resolved at h
  split at h
  · next e he =>
      obtain rfl := Option.some.inj h
      exact he
  · cases h

theorem named_concat {path : List Component} {n : Name} {i : Ino} :
    named fs ws fuel (path ++ [.normal n]) = some i ↔
      ∃ d, resolved fs ws fuel path = some d ∧ fs.entry d n = some i := by
  unfold named
  rw [List.getLast?_concat, List.dropLast_concat]
  exact Option.bind_eq_some_iff

/-- Of a path of names, the metadata is what `lstat` finds. -/
theorem symlinkMetadata_normal (ns : List Name) :
    symlinkMetadata fs ws fuel (ns.map .normal) = fs.lstat fuel ws ns := by
  unfold symlinkMetadata named FS.lstat
  rcases List.eq_nil_or_concat ns with rfl | ⟨ms, n, rfl⟩
  · cases fuel <;> rfl
  · rw [List.concat_eq_append, List.map_append, List.map_singleton, List.getLast?_concat,
      List.getLast?_concat, List.dropLast_concat, List.dropLast_concat]
    dsimp only
    unfold resolved
    cases fs.walk fuel ws (ms.map .normal) with
    | none => rfl
    | some place => cases place <;> rfl

/-- A `.` stays in the directory that the path leads to. -/
theorem walk_of_dot {path : List Component} {i : Ino}
    (h : resolved fs ws fuel (path ++ [.curDir]) = some i) :
    fs.walk fuel ws path = some (.existing i) ∧ fs.IsDir i := by
  obtain ⟨d, fuel', hd, hdot⟩ := walk_append (List.cons_ne_nil _ _) (walk_of_resolved h)
  cases fuel' with
  | zero => cases hdot
  | succ fuel' =>
      rw [FS.walk] at hdot
      split at hdot
      · next parent entries hnode =>
          have hsame : d = i := by cases fuel' <;> exact Place.existing.inj (Option.some.inj hdot)
          exact ⟨hsame ▸ hd, parent, entries, hsame ▸ hnode⟩
      · cases hdot

/-- A match that names a directory leads nowhere else when its path is resolved. -/
theorem walk_of_named {m : Match} {i : Ino} {place : Place} (hi : m.named fs ws fuel = some i)
    (hdir : fs.IsDir i) (h : fs.walk fuel ws m.path = some place) : place = .existing i := by
  unfold Match.named at hi
  split at hi
  · exact Option.some.inj (h.symm.trans (walk_of_dot hi).1)
  · rcases List.eq_nil_or_concat m.path with hnil | ⟨front, c, hpath⟩
    · rw [hnil] at hi h
      have hwalk : fs.walk fuel ws [] = some (.existing i) := walk_of_resolved hi
      exact Option.some.inj (h.symm.trans hwalk)
    · rw [List.concat_eq_append] at hpath
      rw [hpath] at hi h
      cases c with
      | normal n =>
          obtain ⟨d, hd, hentry⟩ := named_concat.mp hi
          obtain ⟨d', fuel', hd', hlast⟩ := walk_append (List.cons_ne_nil _ _) h
          obtain rfl := Place.existing.inj (Option.some.inj
            ((walk_of_resolved hd).symm.trans hd'))
          have hlocate : fs.locate d ([] ++ [n]) = some i := locate_concat.mpr ⟨d, rfl, hentry⟩
          exact walk_of_locate hlocate hdir hlast
      | rootDir | curDir | parentDir =>
          rw [Artifacts.named, List.getLast?_concat] at hi
          exact Option.some.inj (h.symm.trans (walk_of_resolved hi))

/-- **What a match leads to is found by its path**, as far as this can be resolved. -/
theorem node_of_leadsToFile {m : Match} {rest : List Name} {node : Node}
    (h : LeadsToFile fs ws fuel m rest)
    (hnode : symlinkMetadata fs ws fuel (m.path ++ rest.map .normal) = some node) :
    node.item ≠ .dir := by
  obtain ⟨i, j, below, hi, hj, hbelow, hitem⟩ := h
  obtain ⟨k, hk, hkind⟩ := Option.bind_eq_some_iff.mp hnode
  suffices hsame : k = j by
    rw [hsame, hbelow] at hkind
    rwa [← Option.some.inj hkind]
  rcases List.eq_nil_or_concat rest with rfl | ⟨rest, n, rfl⟩
  · -- a file is not named through a `/.`
    obtain rfl := Option.some.inj hj
    rw [List.map_nil, List.append_nil] at hk
    by_cases hdot : m.dot = true
    · rw [Match.named, if_pos hdot] at hi
      obtain ⟨parent, entries, hdir⟩ := (walk_of_dot hi).2
      obtain rfl := Option.some.inj (hdir.symm.trans hbelow)
      exact absurd rfl hitem
    · rw [Match.named, if_neg hdot] at hi
      exact Option.some.inj (hk.symm.trans hi)
  · rw [List.concat_eq_append] at hj hk
    rw [List.map_append, List.map_singleton, ← List.append_assoc] at hk
    obtain ⟨d', hd', hentry'⟩ := locate_concat.mp hj
    obtain ⟨d, hd, hentry⟩ := named_concat.mp hk
    have hwalk := walk_of_resolved hd
    suffices hdirs : d = d' by
      rw [hdirs] at hentry
      exact Option.some.inj (hentry.symm.trans hentry')
    cases rest with
    | nil =>
        obtain rfl := Option.some.inj hd'
        rw [List.map_nil, List.append_nil] at hwalk
        exact Place.existing.inj (walk_of_named hi (isDir_of_entry hentry') hwalk)
    | cons a rest =>
        obtain ⟨e, fuel', he, hrest⟩ := walk_append (List.cons_ne_nil _ _) hwalk
        have hdir : fs.IsDir i := by
          rw [FS.locate] at hd'
          split at hd'
          · next b hb => exact isDir_of_entry hb
          · cases hd'
        obtain rfl := Place.existing.inj (walk_of_named hi hdir he)
        exact Place.existing.inj (walk_of_locate hd' (isDir_of_entry hentry') hrest)

theorem mem_collectItems {items : List (Option (List Component × Bool))}
    {found : List (List Component)} (path : List Component)
    (h : collectAll collectItem items = .ok found) :
    none ∉ items ∧ (path ∈ found ↔ some (path, false) ∈ items) := by
  constructor
  · intro hnone
    obtain ⟨bs, hbs⟩ := ok_of_collectAll h none hnone
    cases hbs
  · rw [mem_of_collectAll h]
    constructor
    · rintro ⟨item, hitem, bs, hbs, hpath⟩
      cases item with
      | none => cases hbs
      | some item =>
          obtain ⟨p, isDir⟩ := item
          obtain rfl := Except.ok.inj hbs
          cases isDir with
          | true => exact absurd hpath List.not_mem_nil
          | false =>
              rw [List.mem_singleton.mp hpath]
              exact hitem
    · exact fun hitem => ⟨_, hitem, [path], rfl, List.mem_singleton_self _⟩

/-- **A match adds the files and links that its names lead to.** -/
theorem mem_collectMatch {patterns : List Chars}
    (hglobs : GlobsDocumented globs fs ws fuel patterns) {m : Match} {path : List Component}
    {found : List (List Component)} (hm : IsMatch globs patterns m)
    (h : collectMatch globs fs ws fuel (some m) = .ok found) :
    path ∈ found ↔ isInsideWorkspace fs ws fuel m.path = true ∧
      ∃ rest, path = m.path ++ rest.map .normal ∧ LeadsToFile fs ws fuel m rest := by
  obtain ⟨i, node, hi, hnode⟩ := hglobs.exist m hm
  have hmeta : (m.named fs ws fuel).bind fs.nodes = some node := by
    rw [hi]
    exact hnode
  simp only [collectMatch, hmeta] at h
  by_cases hinside : isInsideWorkspace fs ws fuel m.path = true
  · rw [if_pos hinside] at h
    simp only [hinside, true_and]
    by_cases hdir : node.item = .dir
    · have hisDir : fs.IsDir i := by
        cases node with
        | dir parent entries => exact ⟨parent, entries, hnode⟩
        | file data mode => cases hdir
        | symlink target => cases hdir
      have hwalk : collectAll collectItem (globs.walkDir m) = .ok found := by
        cases node with
        | dir parent entries => exact h
        | file data mode => cases hdir
        | symlink target => cases hdir
      obtain ⟨hnone, hmem⟩ := mem_collectItems path hwalk
      rw [hmem]
      constructor
      · intro hitem
        obtain ⟨rest, j, below, hpath, hj, hbelow, hkind⟩ :=
          hglobs.walked m i hm hi hisDir path false hitem
        exact ⟨rest, hpath, i, j, below, hi, hj, hbelow,
          fun hitem => Bool.false_ne_true (hkind.mpr hitem)⟩
      · rintro ⟨rest, rfl, i', j, below, hi', hj, hbelow, hkind⟩
        obtain rfl := Option.some.inj (hi.symm.trans hi')
        have hitem := hglobs.all m i hm hi hisDir hnone rest j below hj hbelow
        rw [decide_eq_false hkind] at hitem
        exact hitem
    · have hfound : found = [m.path] := by
        cases node with
        | dir parent entries => exact absurd rfl hdir
        | file data mode => exact (Except.ok.inj h).symm
        | symlink target => exact (Except.ok.inj h).symm
      rw [hfound, List.mem_singleton]
      constructor
      · rintro rfl
        exact ⟨[], (List.append_nil _).symm, i, i, node, hi, rfl, hnode, hdir⟩
      · rintro ⟨rest, rfl, i', j, below, hi', hj, hbelow, hkind⟩
        obtain rfl := Option.some.inj (hi.symm.trans hi')
        cases rest with
        | nil => exact List.append_nil _
        | cons n rest =>
            -- no name leads further from what is no directory
            exfalso
            rw [FS.locate, FS.entry, hnode] at hj
            cases node with
            | dir parent entries => exact hdir rfl
            | file data mode => cases hj
            | symlink target => cases hj
  · rw [if_neg hinside] at h
    obtain rfl := Except.ok.inj h
    simp [hinside]

/-- The matches of the patterns, as one loop over them finds them. -/
theorem mem_collectPatterns {patterns : List Chars} {found : List (List Component)}
    (path : List Component)
    (h : collectAll (collectPattern globs fs ws fuel) patterns = .ok found) :
    (path ∈ found ↔ ∃ m, IsMatch globs patterns m ∧ ∃ bs,
      collectMatch globs fs ws fuel (some m) = .ok bs ∧ path ∈ bs) ∧
    ∀ m, IsMatch globs patterns m → ∃ bs, collectMatch globs fs ws fuel (some m) = .ok bs := by
  -- what is collected for one pattern that is not skipped
  have hone : ∀ pattern bs, collectPattern globs fs ws fuel pattern = .ok bs →
      isSkipped pattern = false → ∃ matched, globs.glob pattern = .ok matched ∧
        collectAll (collectMatch globs fs ws fuel) matched = .ok bs := by
    intro pattern bs hbs hskip
    rw [collectPattern, if_neg (by simp [hskip])] at hbs
    split at hbs
    · cases hbs
    · next matched hmatched => exact ⟨matched, hmatched, hbs⟩
  constructor
  · rw [mem_of_collectAll h]
    constructor
    · rintro ⟨pattern, hpattern, bs, hbs, hpath⟩
      by_cases hskip : isSkipped pattern = true
      · rw [collectPattern, if_pos hskip] at hbs
        obtain rfl := Except.ok.inj hbs
        exact absurd hpath List.not_mem_nil
      · rw [Bool.not_eq_true] at hskip
        obtain ⟨matched, hmatched, hall⟩ := hone pattern bs hbs hskip
        obtain ⟨entry, hentry, es, hes, hpath⟩ := (mem_of_collectAll hall).mp hpath
        cases entry with
        | none => cases hes
        | some m => exact ⟨m, ⟨pattern, hpattern, hskip, matched, hmatched, hentry⟩, es, hes, hpath⟩
    · rintro ⟨m, ⟨pattern, hpattern, hskip, matched, hmatched, hm⟩, es, hes, hpath⟩
      obtain ⟨bs, hbs⟩ := ok_of_collectAll h pattern hpattern
      obtain ⟨matched', hmatched', hall⟩ := hone pattern bs hbs hskip
      obtain rfl := Except.ok.inj (hmatched.symm.trans hmatched')
      exact ⟨pattern, hpattern, bs, hbs, (mem_of_collectAll hall).mpr ⟨_, hm, es, hes, hpath⟩⟩
  · rintro m ⟨pattern, hpattern, hskip, matched, hmatched, hm⟩
    obtain ⟨bs, hbs⟩ := ok_of_collectAll h pattern hpattern
    obtain ⟨matched', hmatched', hall⟩ := hone pattern bs hbs hskip
    obtain rfl := Except.ok.inj (hmatched.symm.trans hmatched')
    exact ok_of_collectAll hall _ hm

/-- **What is collected**: the files and links below the matches whose parent resolves to a
directory of the workspace, unless they are excluded. -/
theorem mem_collectPaths {patterns exclude : List Chars} {files : List (List Component)}
    {path : List Component} (hglobs : GlobsDocumented globs fs ws fuel patterns)
    (h : collectPaths globs fs ws fuel patterns exclude = .ok files) :
    path ∈ files ↔ Archived globs fs ws fuel patterns path ∧ NotExcluded globs exclude path := by
  rw [collectPaths] at h
  split at h
  · cases h
  · next found hfound =>
      obtain rfl := Except.ok.inj h
      obtain ⟨hmem, hok⟩ := mem_collectPatterns path hfound
      rw [List.mem_filter, mem_foldr_insertPath, hmem]
      apply and_congr
      · constructor
        · rintro ⟨m, hm, bs, hbs, hpath⟩
          exact ⟨m, hm, (mem_collectMatch hglobs hm hbs).mp hpath⟩
        · rintro ⟨m, hm, hinside⟩
          obtain ⟨bs, hbs⟩ := hok m hm
          exact ⟨m, hm, bs, hbs, (mem_collectMatch hglobs hm hbs).mpr hinside⟩
      · simp only [NotExcluded, Bool.not_eq_true', List.any_eq_false, Bool.not_eq_true]

theorem mem_collectPaths_nil {patterns : List Chars} {files : List (List Component)}
    {path : List Component} (hglobs : GlobsDocumented globs fs ws fuel patterns)
    (h : collectPaths globs fs ws fuel patterns [] = .ok files) :
    path ∈ files ↔ Archived globs fs ws fuel patterns path := by
  rw [mem_collectPaths hglobs h]
  exact and_iff_left nofun

theorem nodup_collectPaths {patterns exclude : List Chars} {files : List (List Component)}
    (h : collectPaths globs fs ws fuel patterns exclude = .ok files) : files.Nodup := by
  rw [collectPaths] at h
  split at h
  · cases h
  · next found hfound =>
      obtain rfl := Except.ok.inj h
      exact (nodup_foldr_insertPath found).filter _

end Paths

end Artifacts

end TurboCi
