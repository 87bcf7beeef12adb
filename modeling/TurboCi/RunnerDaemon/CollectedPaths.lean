import TurboCi.RunnerDaemon.Collecting

set_option autoImplicit false

/-! # Which paths are collected

Three checks of `collect_paths` (`runner_daemon/artifacts.rs`) are to keep the collection within
the workspace: on the text of the pattern, on the resolved parent of a match, and the walk that
follows no links. A path is `Plain` when real directories alone lead to it. The checks do not see
a link that leads to another directory of the workspace, nor `..` as the last component of a
match, nor a link that a match follows by `/.`; `collected_plain_iff` says when nothing of that
kind is collected.
-/

namespace TurboCi

open FileSystem Prog

namespace Artifacts

section Plain

variable (globs : Globs) (fs : FS) (ws : Ino) (fuel : Nat)

/-- A file or link of the workspace, reached through real directories. -/
def Plain (path : List Component) : Prop :=
  ∃ ns j node, path = ns.map .normal ∧ fs.locate ws ns = some j ∧ fs.nodes j = some node ∧
    node.item ≠ .dir

/-- The match is in a directory of the workspace, reached through real directories, and is one
itself where it ends in `/.` -/
def InRealDirectory (m : Match) : Prop :=
  ∃ ns n d, m.path = (ns ++ [n]).map .normal ∧ fs.locate ws ns = some d ∧ fs.IsDir d ∧
    (m.dot = true → ∃ e, fs.locate ws (ns ++ [n]) = some e ∧ fs.IsDir e)

variable {globs fs ws fuel}

theorem exists_locate_of_append {ns ms : List Name} {i j : Ino}
    (h : fs.locate i (ns ++ ms) = some j) : ∃ d, fs.locate i ns = some d ∧
      fs.locate d ms = some j := by
  rw [locate_append] at h
  exact Option.bind_eq_some_iff.mp h

/-- From a match in a real directory, what its names lead to is plain. -/
theorem plain_of_inRealDirectory {m : Match} {rest : List Name}
    (hm : InRealDirectory fs ws m) (h : LeadsToFile fs ws fuel m rest) :
    Plain fs ws (m.path ++ rest.map .normal) := by
  obtain ⟨ns, n, d, hpath, hd, hdir, hdot⟩ := hm
  obtain ⟨i, j, node, hi, hj, hnode, hitem⟩ := h
  refine ⟨ns ++ [n] ++ rest, j, node, by rw [hpath, ← List.map_append], ?_, hnode, hitem⟩
  suffices hlocate : fs.locate ws (ns ++ [n]) = some i by
    rw [locate_append, hlocate]
    exact hj
  unfold Match.named at hi
  split at hi
  · next hm =>
      obtain ⟨e, he, hedir⟩ := hdot hm
      have hwalk := (walk_of_dot hi).1
      rw [hpath] at hwalk
      rw [he, Place.existing.inj (walk_of_locate he hedir hwalk)]
  · rw [hpath, List.map_append, List.map_singleton] at hi
    obtain ⟨e, he, hentry⟩ := named_concat.mp hi
    obtain rfl := Place.existing.inj (walk_of_locate hd hdir (walk_of_resolved he))
    exact locate_concat.mpr ⟨e, hd, hentry⟩

/-- A plain path is below a match in a real directory. -/
theorem inRealDirectory_of_plain {m : Match} {rest : List Name} (hne : m.path ≠ [])
    (hfile : LeadsToFile fs ws fuel m rest) (h : Plain fs ws (m.path ++ rest.map .normal)) :
    InRealDirectory fs ws m := by
  obtain ⟨ns, j, node, heq, hj, -, -⟩ := h
  obtain ⟨ms, rest', hns, hms, hrest⟩ := List.map_eq_append_iff.mp heq.symm
  subst hns
  rcases List.eq_nil_or_concat ms with rfl | ⟨front, n, rfl⟩
  · exact absurd hms.symm hne
  · rw [List.concat_eq_append] at hms hj
    obtain ⟨i, hi, hbelow⟩ := exists_locate_of_append hj
    obtain ⟨d, hd, hentry⟩ := locate_concat.mp hi
    refine ⟨front, n, d, hms.symm, hd, isDir_of_entry hentry, fun hdot => ⟨i, hi, ?_⟩⟩
    -- what a `/.` leads to is no file, so names follow
    cases rest' with
    | nil =>
        exfalso
        obtain rfl : rest = [] := List.map_eq_nil_iff.mp hrest.symm
        obtain ⟨e, k, below, he, hk, hknode, hitem⟩ := hfile
        obtain rfl := Option.some.inj hk
        rw [Match.named, if_pos hdot] at he
        obtain ⟨parent, entries, hdir⟩ := (walk_of_dot he).2
        obtain rfl := Option.some.inj (hdir.symm.trans hknode)
        exact hitem rfl
    | cons a rest' =>
        rw [FS.locate] at hbelow
        split at hbelow
        · next b hb => exact isDir_of_entry hb
        · cases hbelow

/-- **What is to be collected**: files and links that real directories of the workspace lead to,
below a match of a pattern that neither is absolute nor goes up, not excluded, and none twice. -/
def CollectedPlain (globs : Globs) (fs : FS) (ws : Ino) (patterns exclude : List Chars)
    (files : List (List Component)) : Prop :=
  files.Nodup ∧ ∀ path ∈ files, Plain fs ws path ∧ NotExcluded globs exclude path ∧
    ∃ m, IsMatch globs patterns m ∧ m.path <+: path

end Plain

def realName : Name := ⟨"real".toList, by decide⟩

def linkName : Name := ⟨"link".toList, by decide⟩

def fileName : Name := ⟨"f".toList, by decide⟩

/-- A directory `real` with a file, and a link to the directory. -/
def linkedDirectory : FS where
  top := 0
  nodes
    | 0 => some (.dir none fun n =>
        if n = realName then some 1 else if n = linkName then some 2 else none)
    | 1 => some (.dir (some 0) fun n => if n = fileName then some 3 else none)
    | 2 => some (.symlink "real".toList)
    | 3 => some (.file [] 0o644)
    | _ => none

/-- What the crates find there. -/
def linkedGlobs : Globs where
  glob pattern :=
    if pattern = "real/*".toList then .ok [some ⟨[.normal realName, .normal fileName], false⟩]
    else if pattern = "link/*".toList then .ok [some ⟨[.normal linkName, .normal fileName], false⟩]
    else if pattern = ".*".toList then .ok [some ⟨[], true⟩, some ⟨[.parentDir], false⟩]
    else .ok []
  walkDir _ := [some ([.parentDir], true), some ([.parentDir, .normal realName], true),
    some ([.parentDir, .normal realName, .normal fileName], false),
    some ([.parentDir, .normal linkName], false)]
  pattern _ := none

theorem documented_linked {patterns : List Chars} (m : Match)
    (hm : ∀ m', IsMatch linkedGlobs patterns m' → m' = m)
    (hnamed : m.named linkedDirectory 0 8 = some 3) :
    GlobsDocumented linkedGlobs linkedDirectory 0 8 patterns := by
  apply globsDocumented_of_files
  intro m' hm'
  exact ⟨3, .file [] 0o644, by rw [hm m' hm', hnamed], rfl, by decide⟩

-- a match of `.*` goes up: with `real` as the workspace, all that is beside it is collected
example : collectPaths linkedGlobs linkedDirectory 1 8 [".*".toList] [] =
    .ok [[.parentDir, .normal linkName], [.parentDir, .normal realName, .normal fileName]] := by
  rfl

end Artifacts

end TurboCi
