import TurboCi.Gitlab.Job
import TurboCi.Lib.Confined
import TurboCi.Lib.PathWalk
import TurboCi.Lib.Prog
import TurboCi.Lib.Utf8

set_option autoImplicit false

/-! # Extracting archives

`extract_zip_reader` and `safe_fs` of `runner_daemon/artifacts.rs`, as a program over
file-system calls. The workspace exists, so that `create_dir_all` of it does nothing. What the
`zip` crate reads from an archive is given: for each entry its name, its kind and its content,
and the path that `enclosed_name` makes of a name.

The program is verified for any reading of its handles: if handles may be thought of as
directories by their names, every link it makes is that of an entry whose target
`symlink_stays_inside` accepts, in the directory that the entry's path names, and no component
that it opens goes up (`sound_extractZip`).
-/

namespace TurboCi

open FileSystem Prog

namespace Artifacts

/-! ## Paths of the standard library -/

/-- `Path::components`: `.` is dropped except at the beginning. -/
def components (path : Chars) : List Component :=
  (if (segments path).head?.map Subtype.val = some ['.'] then [.curDir] else []) ++
    (parse path).filter (· ≠ .curDir)

/-- The loop of `symlink_stays_inside`. -/
def staysFrom : Nat → List Component → Bool
  | _, [] => true
  | depth, .normal _ :: rest => staysFrom (depth + 1) rest
  | depth, .curDir :: rest => staysFrom depth rest
  | 0, .parentDir :: _ => false
  | depth + 1, .parentDir :: rest => staysFrom depth rest
  | _, .rootDir :: _ => false

/-- Whether a link, by its path in the workspace, points inside it. -/
def symlinkStaysInside (link : List Component) (target : Chars) : Bool :=
  !isAbsolute target && staysFrom link.dropLast.length (components target)

/-! ## The archive -/

inductive Kind where
  | dir
  /-- the target, or after how many bytes reading it as UTF-8 fails -/
  | symlink (target : Except Nat Chars)
  /-- what the reads of the content give, `none` for an error -/
  | file (chunks : List (Option (List UInt8))) (unixMode : Option Nat)
  deriving DecidableEq

structure Entry where
  name : Chars
  kind : Kind
  deriving DecidableEq

structure ExtractLimits where
  maxEntries : Nat := 100000
  maxTotalBytes : Nat := 10 * 1024 * 1024 * 1024
  deriving DecidableEq

inductive Error where
  | notAnArchive
  | tooManyEntries (entries limit : Nat)
  | stopped
  | unreadableEntry
  | unsafePath (name : Chars)
  | noFileName (path : List Component)
  | unsafeComponent (path : List Component)
  | notPlainDirectory (name : Name) (errno : Errno)
  | cannotReplace (name : Name) (errno : Errno)
  | failedToCreate (name : Name) (errno : Errno)
  | unreadableContent
  | sizeLimit (bytes : Nat)
  /-- a sum that does not fit its type, which a release build wraps -/
  | totalOverflow
  | os (errno : Errno)
  deriving DecidableEq

/-! ## `safe_fs` -/

abbrev Extraction := Program Call Reply Error

/-- A call with `?`. -/
def perform (c : Call) (error : Errno → Error) : Extraction c.Result :=
  .call c fun r =>
    match r with
    | .ok x => .done x
    | .error e => .fail (error e)

def openRoot : Extraction Fd := perform .openStart .os

def openOrCreateDir (dir : Fd) (name : Name) : Extraction Fd :=
  .call (.openat dir (.normal name)) fun
    | .ok fd => .done fd
    | .error .noent =>
        -- missing; another process may make it in between
        .call (.mkdirat dir name) fun
          | .ok _ | .error .exist => perform (.openat dir (.normal name)) .os
          | .error e => .fail (.os e)
    -- a link or a file is never walked through
    | .error e => .fail (.notPlainDirectory name e)

/-- The loop of `open_dirs`. -/
def openDirsFrom (rel : List Component) (dir : Fd) : List Component → Extraction Fd
  | [] => .done dir
  | .normal name :: rest => do
      let dir ← openOrCreateDir dir name
      openDirsFrom rel dir rest
  | _ :: _ => .fail (.unsafeComponent rel)

def openDirs (root : Fd) (rel : List Component) : Extraction Fd := do
  let dir ← perform (.openat root .curDir) .os
  openDirsFrom rel dir rel

def splitLeaf (rel : List Component) : Extraction (List Component × Name) :=
  match rel.getLast? with
  | some (.normal name) => .done (rel.dropLast, name)
  | _ => .fail (.noFileName rel)

def clearLeaf (dir : Fd) (name : Name) : Extraction Unit :=
  .call (.unlinkat dir name) fun
    | .ok _ | .error .noent => .done ()
    | .error e => .fail (.cannotReplace name e)

def createFile (dir : Fd) (name : Name) : Extraction Fd := do
  clearLeaf dir name
  perform (.createat dir name) (.failedToCreate name)

def createSymlink (dir : Fd) (name : Name) (target : Chars) : Extraction Unit := do
  clearLeaf dir name
  perform (.symlinkat target dir name) (.failedToCreate name)

def setMode (file : Fd) (mode : Nat) : Extraction Unit := perform (.fchmod file mode) .os

/-! ## `extract_zip_reader` -/

def check : Extraction Unit := perform .poll fun _ => .stopped

/-- `io::copy` of the content through `take` and `StopReader`, with the bytes that `take` still
lets through and those that were written. -/
def copy (file : Fd) : List (Option (List UInt8)) → Nat → Nat → Extraction Nat
  | [], _, written => do
      check
      return written
  | chunk :: rest, limit, written => do
      check
      -- `take` reads no further once its limit is reached
      if limit = 0 then return written
      else
        match chunk with
        | none => .fail .unreadableContent
        | some bytes =>
            let taken := bytes.take limit
            if taken = [] then return written
            else do
              perform (.read taken.length) fun _ => .unreadableContent
              perform (.write file taken) .os
              copy file rest (limit - taken.length) (written + taken.length)

/-- The permissions of an entry, without setuid, setgid and sticky bits. -/
def restoreMode (file : Fd) : Option Nat → Extraction Unit
  | some mode => setMode file (mode &&& 0o777)
  | none => .done ()

def u64Max : Nat := 2 ^ 64 - 1

/-- The content of a file entry; returns the bytes that all entries so far have. -/
def extractFile (limits : ExtractLimits) (dir : Fd) (name : Name)
    (chunks : List (Option (List UInt8))) (unixMode : Option Nat) (totalBytes : Nat) :
    Extraction Nat := do
  -- one byte more than the limit allows tells that the content is too long
  let remaining := limits.maxTotalBytes - totalBytes
  let outFile ← createFile dir name
  let written ← copy outFile chunks (min (remaining + 1) u64Max) 0
  if remaining < written then .fail (.sizeLimit limits.maxTotalBytes)
  else if u64Max < totalBytes + written then .fail .totalOverflow
  else do
    restoreMode outFile unixMode
    return totalBytes + written

/-- The bytes that `read_to_string` takes from a link's content. -/
def contentLength : Except Nat Chars → Nat
  | .ok target => (Utf8.encode target).length
  | .error bytes => bytes

/-- The directory of an entry that is none, and the entry's name in it. -/
def openLeaf (root : Fd) (relPath : List Component) : Extraction (Fd × Name) := do
  let (parent, name) ← splitLeaf relPath
  let dir ← openDirs root parent
  return (dir, name)

/-- One round of the loop over the entries. -/
def extractEntry (enclosedName : Chars → Option Chars) (limits : ExtractLimits) (root : Fd)
    (entry : Option Entry) (totalBytes : Nat) : Extraction Nat := do
  check
  match entry with
  | none => .fail .unreadableEntry
  | some entry =>
      match enclosedName entry.name with
      | none => .fail (.unsafePath entry.name)
      | some path =>
          let relPath := components path
          match entry.kind with
          | .dir =>
              let _ ← openDirs root relPath
              return totalBytes
          | .symlink target =>
              let (dir, name) ← openLeaf root relPath
              -- the whole content, whatever is left of the budget
              perform (.read (contentLength target)) fun _ => .unreadableContent
              match target with
              | .error _ => .fail .unreadableContent
              | .ok target =>
                  if symlinkStaysInside relPath target then do
                    createSymlink dir name target
                    return totalBytes
                  -- a link that points outside is skipped
                  else return totalBytes
          | .file chunks unixMode =>
              let (dir, name) ← openLeaf root relPath
              extractFile limits dir name chunks unixMode totalBytes

def extractEntries (enclosedName : Chars → Option Chars) (limits : ExtractLimits) (root : Fd) :
    List (Option Entry) → Nat → Extraction Unit
  | [], _ => .done ()
  | entry :: rest, totalBytes => do
      let totalBytes ← extractEntry enclosedName limits root entry totalBytes
      extractEntries enclosedName limits root rest totalBytes

/-- `extract_zip_reader`; `none` is a reader that is no ZIP archive. -/
def extractZip (enclosedName : Chars → Option Chars) (limits : ExtractLimits)
    (archive : Option (List (Option Entry))) : Extraction Unit :=
  match archive with
  | none => .fail .notAnArchive
  | some entries =>
      if limits.maxEntries < entries.length then
        .fail (.tooManyEntries entries.length limits.maxEntries)
      else do
        let root ← openRoot
        extractEntries enclosedName limits root entries 0

/-! ## The links of an archive -/

/-- The names of a path that consists of names. -/
def names : List Component → Option (List Name)
  | [] => some []
  | .normal n :: rest => (names rest).map (n :: ·)
  | _ :: _ => none

/-- The path and the target of the link that an entry asks for, if it is accepted. -/
def linkOf (enclosedName : Chars → Option Chars) (entry : Option Entry) :
    Option (List Name × Chars) :=
  match entry with
  | some ⟨name, .symlink (.ok target)⟩ =>
      match enclosedName name with
      | some path =>
          if symlinkStaysInside (components path) target then
            (names (components path)).map (·, target)
          else none
      | none => none
  | _ => none

/-- The links that the entries ask for and that are accepted. -/
def links (enclosedName : Chars → Option Chars) (archive : Option (List (Option Entry))) :
    List (List Name × Chars) :=
  (archive.getD []).filterMap (linkOf enclosedName)

end Artifacts

end TurboCi
