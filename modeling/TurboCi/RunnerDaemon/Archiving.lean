import TurboCi.RunnerDaemon.CacheNames
import TurboCi.RunnerDaemon.Collecting
import TurboCi.RunnerDaemon.ExtractedBytes

set_option autoImplicit false

/-! # Archiving

The writer of cache archives (`add_path_to_zip` and `create_cache_archive` in
`runner_daemon/artifacts.rs`), and `LocalCache::save` and `LocalCache::restore` without S3
(`runner_daemon/job_cache.rs`). The crate `zip` is a parameter, beside those that the collection
of the paths depends on.
-/

namespace TurboCi

open FileSystem Prog

namespace Artifacts

/-- What is added to an archive, under a name. -/
structure Written where
  name : Chars
  item : Item
  deriving DecidableEq

/-- An entry that is read is the one that was written, with the permissions of a file. -/
def ReadsBack : Written → Option Entry → Prop
  | ⟨name, .file data mode⟩, some ⟨name', .file chunks (some mode')⟩ =>
      name' = name ∧ contentOf chunks = data ∧ ¬ Broken chunks ∧ mode' &&& 0o777 = mode &&& 0o777
  | ⟨name, .symlink target⟩, some ⟨name', .symlink (.ok target')⟩ =>
      name' = name ∧ target' = target
  | ⟨name, .dir⟩, some ⟨name', .dir⟩ => name' = name
  | _, _ => False

/-- The code of other crates, for one workspace. -/
structure Crates (Zip : Type) extends Globs where
  /-- `ZipWriter`, with its entries in order -/
  finish : List Written → Except SaveError Zip
  /-- `ZipArchive::new` and `by_index` -/
  entries : Zip → Option (List (Option Entry))
  enclosedName : Chars → Option Chars

section Writer

variable {Zip : Type} (crates : Crates Zip) (fs : FS) (ws : Ino) (fuel : Nat)

def componentText : Component → Chars
  | .rootDir => []
  | .curDir => ".".toList
  | .parentDir => "..".toList
  | .normal n => n.1

/-- The text of a path below the workspace's. -/
def relativePath : List Component → Chars
  | [] => []
  | [c] => componentText c
  | c :: cs => componentText c ++ '/' :: relativePath cs

theorem relativePath_normal (ns : List Name) : relativePath (ns.map .normal) = pathText ns := by
  induction ns with
  | nil => rfl
  | cons n ns ih =>
      cases ns with
      | nil => rfl
      | cons m ns =>
          show n.1 ++ '/' :: relativePath ((m :: ns).map .normal) = _
          rw [ih]
          rfl

/-- A directory is not added. -/
def addPathToZip (path : List Component) : Except SaveError (List Written) :=
  match symlinkMetadata fs ws fuel path with
  | none => .error (.metadata path)
  | some (.symlink target) => .ok [⟨relativePath path, .symlink target⟩]
  | some (.file data mode) => .ok [⟨relativePath path, .file data mode⟩]
  | some (.dir _ _) => .ok []

def buildZip (files : List (List Component)) : Except SaveError Zip :=
  match collectAll (addPathToZip fs ws fuel) files with
  | .error e => .error e
  | .ok written => crates.finish written

/-- `create_cache_archive`; nothing is archived when no file matches. -/
def createCacheArchive (paths : List Chars) : Except SaveError (Option Zip) :=
  match collectPaths crates.toGlobs fs ws fuel paths [] with
  | .error e => .error e
  | .ok files =>
      if files = [] then .ok none
      else
        match buildZip crates fs ws fuel files with
        | .error e => .error e
        | .ok zip => .ok (some zip)

/-- What an archived path is. -/
def itemAt (path : List Component) : Item :=
  ((symlinkMetadata fs ws fuel path).map Node.item).getD .dir

/-- The crates do what their documentation says, for the patterns. -/
structure Documented (crates : Crates Zip) (fs : FS) (ws : Ino) (fuel : Nat)
    (patterns : List Chars) : Prop where
  globs : GlobsDocumented crates.toGlobs fs ws fuel patterns
  /-- entries are read back as they were written -/
  roundTrip : ∀ written zip, crates.finish written = .ok zip →
    ∃ entries, crates.entries zip = some entries ∧ List.Forall₂ ReadsBack written entries
  /-- a path of names is safe -/
  enclosedName : ∀ ns, ns ≠ [] → (∀ n ∈ ns, '\x00' ∉ n.1) →
    crates.enclosedName (pathText ns) = some (pathText ns)

variable {crates fs ws fuel}

theorem itemAt_eq {path : List Component} {node : Node}
    (h : symlinkMetadata fs ws fuel path = some node) : itemAt fs ws fuel path = node.item := by
  rw [itemAt, h]
  rfl

/-- An archive holds one entry for each path, as long as no path is that of a directory. -/
theorem written_of_addPathToZip {files : List (List Component)} {written : List Written}
    (hfiles : ∀ path ∈ files, ∀ node, symlinkMetadata fs ws fuel path = some node →
      node.item ≠ .dir)
    (h : collectAll (addPathToZip fs ws fuel) files = .ok written) :
    (∀ path ∈ files, ∃ node, symlinkMetadata fs ws fuel path = some node) ∧
      written = files.map fun path => ⟨relativePath path, itemAt fs ws fuel path⟩ := by
  induction files generalizing written with
  | nil =>
      obtain rfl := Except.ok.inj h
      exact ⟨by simp, rfl⟩
  | cons path files ih =>
      obtain ⟨hpath, hfiles⟩ := List.forall_mem_cons.mp hfiles
      rw [collectAll] at h
      split at h
      · cases h
      · next found hfound =>
          split at h
          · cases h
          · next more hmore =>
              obtain rfl := Except.ok.inj h
              obtain ⟨hnodes, rfl⟩ := ih hfiles hmore
              -- one entry is written of a path
              suffices hone : ∃ node, symlinkMetadata fs ws fuel path = some node ∧
                  found = [⟨relativePath path, node.item⟩] by
                obtain ⟨node, hnode, rfl⟩ := hone
                refine ⟨List.forall_mem_cons.mpr ⟨⟨node, hnode⟩, hnodes⟩, ?_⟩
                rw [← itemAt_eq hnode]
                rfl
              rw [addPathToZip] at hfound
              split at hfound
              · cases hfound
              · next target hnode => exact ⟨_, hnode, (Except.ok.inj hfound).symm⟩
              · next data mode hnode => exact ⟨_, hnode, (Except.ok.inj hfound).symm⟩
              · next parent entries hnode => exact absurd rfl (hpath _ hnode)

end Writer

/-! ## The cache of a host -/

/-- `LocalCache` without S3, with the archives by their paths and the times when they were used
last. -/
structure LocalCache (Zip : Type) where
  root : List Chars
  maxAge : Option Nat := none
  archives : List Chars → Option (Zip × Nat) := fun _ => none

namespace LocalCache

variable {Zip : Type} (blake3 : List UInt8 → Digest) (cache : LocalCache Zip)

/-- `archive_path` -/
def path (projectId : Nat) (key : Chars) : List Chars :=
  archivePath blake3 cache.root projectId key

/-- Removes the archives of a directory that were not used within the maximal age. -/
def evict (now : Nat) (dir : List Chars) : LocalCache Zip :=
  match cache.maxAge with
  | none => cache
  | some maxAge =>
      { cache with
        archives := fun path => (cache.archives path).filter fun archive =>
          ¬ (path.dropLast = dir ∧ maxAge < now - archive.2) }

/-- The archive at a path is used, or put there. -/
def put (path : List Chars) (zip : Zip) (now : Nat) : LocalCache Zip :=
  { cache with archives := Function.update cache.archives path (some (zip, now)) }

/-- Archives the paths of a workspace under a key; `none` when no file matched. -/
def save (crates : Crates Zip) (fs : FS) (ws : Ino) (fuel : Nat) (now : Nat) (projectId : Nat)
    (key : Chars) (paths : List Chars) : Except SaveError (Option (LocalCache Zip)) :=
  let archive := cache.path blake3 projectId key
  match createCacheArchive crates fs ws fuel paths with
  | .error e => .error e
  | .ok none => .ok none
  | .ok (some zip) => .ok (some ((cache.put archive zip now).evict now archive.dropLast))

/-- Extracts the first key that has an archive; returns the key, if there is one. -/
def restore (crates : Crates Zip) (now : Nat) (projectId : Nat) :
    List Chars → Extraction (LocalCache Zip × Option Chars)
  | [] => .done (cache, none)
  | key :: rest => do
      check
      let archive := cache.path blake3 projectId key
      match cache.archives archive with
      | some (zip, _) => do
          extractZip crates.enclosedName {} (crates.entries zip)
          return (cache.put archive zip now, some key)
      | none => restore crates now projectId rest

variable {blake3 cache}

/-- **A saved archive is in the cache**, and no eviction has removed it. -/
theorem archive_of_save {crates : Crates Zip} {fs : FS} {ws : Ino} {fuel now projectId : Nat}
    {key : Chars} {paths : List Chars} {saved : LocalCache Zip}
    (h : cache.save blake3 crates fs ws fuel now projectId key paths = .ok (some saved)) :
    ∃ zip, createCacheArchive crates fs ws fuel paths = .ok (some zip) ∧
      saved.archives (saved.path blake3 projectId key) = some (zip, now) := by
  rw [save] at h
  split at h
  · cases h
  · cases h
  · next zip hzip =>
      obtain rfl := Option.some.inj (Except.ok.inj h)
      refine ⟨zip, hzip, ?_⟩
      rw [evict]
      split
      · exact Function.update_self _ _ _
      · have hput : ((cache.put (cache.path blake3 projectId key) zip now).archives
            (cache.path blake3 projectId key)) = some (zip, now) := Function.update_self _ _ _
        show ((cache.put (cache.path blake3 projectId key) zip now).archives
          (cache.path blake3 projectId key)).filter _ = _
        rw [hput]
        simp

end LocalCache

end Artifacts

end TurboCi
