import TurboCi.Lib.ShellLex
import TurboCi.RunnerDaemon.Script
import TurboCi.RunnerDaemon.Trace

set_option autoImplicit false

/-! # Source checkout

The git commands that check out a job's commit, as argv, and the shell script that runs them
(`runner_daemon/git.rs`).
-/

namespace TurboCi

namespace Git

/-- How sources are prepared. -/
inductive GitStrategy where
  /-- update the checkout that an earlier job left, or clone when there is none -/
  | fetch
  | clone
  | none
  | empty
  deriving DecidableEq

inductive SubmoduleStrategy where
  | none
  | normal
  | recursive
  deriving DecidableEq

/-- Why no commands can be given. -/
inductive GitError where
  | invalidSha (sha : Chars)
  | invalidRepositoryUrl
  | invalidRefspec (refspec : Chars)
  | invalidSubmodulePaths (paths : List Chars)
  deriving DecidableEq

/-- The last definition of a variable, trimmed; an empty one is none. -/
def lookup (vars : List Variable) (key : Chars) : Option Chars :=
  (((vars.reverse.find? (·.key = key)).bind (·.value)).map trim).filter (· ≠ [])

/-- `GIT_STRATEGY`, else the project's setting. -/
def strategy (vars : List Variable) (allowGitFetch : Bool) : GitStrategy :=
  let value := lookup vars "GIT_STRATEGY".toList
  if value = some "none".toList then .none
  else if value = some "empty".toList then .empty
  else if value = some "clone".toList then .clone
  else if value = some "fetch".toList then .fetch
  else if allowGitFetch then .fetch
  else .clone

def submoduleStrategy (vars : List Variable) : SubmoduleStrategy :=
  let value := lookup vars "GIT_SUBMODULE_STRATEGY".toList
  if value = some "normal".toList then .normal
  else if value = some "recursive".toList then .recursive
  else .none

/-- `str::parse::<u32>` -/
def parseU32 (cs : Chars) : Option Nat := (parseUnsigned cs).filter (· < 2 ^ 32)

/-- `GIT_DEPTH` overrides the project setting; 0 means full history. -/
def depth (gitInfo : GitInfo) (vars : List Variable) : Nat :=
  (((lookup vars "GIT_DEPTH".toList).bind parseU32).or gitInfo.depth).getD 0

def isAsciiHexdigit (c : Char) : Bool :=
  c.isDigit || ('a' ≤ c && c ≤ 'f') || ('A' ≤ c && c ≤ 'F')

def isCommitSha (sha : Chars) : Bool :=
  (sha.length = 40 || sha.length = 64) && sha.all isAsciiHexdigit

/-- `str::split_whitespace` -/
def splitWhitespace (cs : Chars) : List Chars := (cs.splitOnP isWhitespace).filter (· ≠ [])

def words (texts : List String) : List Chars := texts.map String.toList

section Commands

variable (gitInfo : GitInfo) (vars : List Variable) (dest : Chars)

/-- A git command in the destination, whoever owns it. -/
def git (args : List Chars) : List Chars :=
  words ["git", "-c"] ++ ["safe.directory=".toList ++ dest, "-C".toList, dest] ++ args

def initCommand : List Chars :=
  let format := match gitInfo.repoObjectFormat with
    | some format =>
        if format = "sha1".toList ∨ format = "sha256".toList then
          ["--object-format=".toList ++ format]
        else []
    | none => []
  words ["git", "init", "-q"] ++ format ++ [dest]

def depthFlag (depth : Nat) : List Chars :=
  if 0 < depth then ["--depth=".toList ++ Nat.toDigits 10 depth] else []

/-- The flags that a variable lists. -/
def flags (key : String) : List Chars :=
  match lookup vars key.toList with
  | some extra => splitWhitespace extra
  | none => []

def fetchCommand : List Chars :=
  git dest (words ["fetch", "-q", "--prune", "--no-tags"] ++ depthFlag (depth gitInfo vars) ++
    flags vars "GIT_FETCH_EXTRA_FLAGS" ++ words ["origin"] ++
    if gitInfo.refspecs = [] then [gitInfo.sha] else gitInfo.refspecs)

/-- Locks that a killed job left, and what of its repository can run commands. -/
def removeCommands : List (List Chars) :=
  let gitDir := dest ++ "/.git".toList
  [words ["rm", "-f"] ++
      (words ["index.lock", "shallow.lock", "HEAD.lock", "config.lock", "config"]).map fun name =>
        gitDir ++ '/' :: name,
    words ["rm", "-rf"] ++ [gitDir ++ "/hooks".toList]]

/-- `GIT_CHECKOUT=false` fetches without checking out. -/
def checkoutSteps (existing : Bool) : List (List Chars) :=
  if lookup vars "GIT_CHECKOUT".toList = some "false".toList then []
  else
    let cleanFlags := (lookup vars "GIT_CLEAN_FLAGS".toList).getD "-ffdx".toList
    [git dest (words ["checkout", "-q", "-f"] ++ [gitInfo.sha])] ++
      if existing ∧ cleanFlags ≠ "none".toList then
        [git dest (words ["clean", "-q"] ++ splitWhitespace cleanFlags)]
      else []

/-- The submodules, all or those that `GIT_SUBMODULE_PATHS` names. -/
def submoduleSteps (recursive : Bool) : Except GitError (List (List Chars)) :=
  let paths := flags vars "GIT_SUBMODULE_PATHS"
  if paths.any (· = ":(exclude)".toList) then .error (.invalidSubmodulePaths paths)
  else
    let withPaths := fun (args : List Chars) =>
      if paths = [] then args else args ++ words ["--"] ++ paths
    let recursiveFlag := if recursive then words ["--recursive"] else []
    let submoduleDepth :=
      ((lookup vars "GIT_SUBMODULE_DEPTH".toList).bind parseU32).getD (depth gitInfo vars)
    .ok [git dest (words ["submodule", "init"]),
      withPaths (git dest (words ["submodule", "sync"]) ++ recursiveFlag),
      withPaths (git dest (words ["submodule", "update", "--init"]) ++ recursiveFlag ++
        depthFlag submoduleDepth ++ flags vars "GIT_SUBMODULE_UPDATE_FLAGS")]

def syncCommands (existing : Bool) : Except GitError (List (List Chars)) :=
  if ¬ isCommitSha gitInfo.sha then .error (.invalidSha gitInfo.sha)
  else if gitInfo.repoUrl.head? = some '-' then .error .invalidRepositoryUrl
  else
    match gitInfo.refspecs.find? (·.head? = some '-') with
    | some bad => .error (.invalidRefspec bad)
    | none =>
        let commands := (if existing then removeCommands dest else []) ++
          [initCommand gitInfo dest,
            git dest (words ["remote", "add", "origin"] ++ [gitInfo.repoUrl]),
            fetchCommand gitInfo vars dest] ++ checkoutSteps gitInfo vars dest existing
        match submoduleStrategy vars with
        | .none => .ok commands
        | .normal => (submoduleSteps gitInfo vars dest false).map (commands ++ ·)
        | .recursive => (submoduleSteps gitInfo vars dest true).map (commands ++ ·)

/-- Argv lists that check out the commit into a new repository. -/
def checkoutCommands : Except GitError (List (List Chars)) :=
  syncCommands gitInfo vars dest false

/-- The same for the checkout of an earlier job. -/
def updateCommands : Except GitError (List (List Chars)) := syncCommands gitInfo vars dest true

/-- The beginning of the script that updates an earlier checkout. -/
def updateScript (update : List (List Chars)) : Chars :=
  let gitDir := quote (dest ++ "/.git".toList)
  "updated=0\nif [ -d ".toList ++ gitDir ++ " ] && [ ! -e ".toList ++ gitDir ++
    "/modules ]; then\necho 'Reusing the checkout of an earlier job'\nif ".toList ++
    " && ".toList.intercalate (update.map argvLine) ++
    ("; then updated=1; else echo 'WARNING: Updating the earlier checkout failed, " ++
      "cloning again'; fi\nfi\nif [ \"$updated\" = 0 ]; then\n").toList

def wipeCommand : List Chars := words ["rm", "-rf"] ++ [dest]

/-- The script that prepares the sources, for `fetch` or `clone`. -/
def checkoutScript (strategy : GitStrategy) : Except GitError Chars :=
  match checkoutCommands gitInfo vars dest with
  | .error e => .error e
  | .ok fresh =>
      let clone := (wipeCommand dest :: fresh).flatMap fun argv => argvLine argv ++ ['\n']
      if strategy = .fetch ∧ submoduleStrategy vars = .none then
        match updateCommands gitInfo vars dest with
        | .error e => .error e
        | .ok update => .ok (updateScript dest update ++ clone ++ "fi\n".toList)
      else .ok clone

end Commands

end Git

end TurboCi
