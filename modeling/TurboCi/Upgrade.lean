import TurboCi.Lib.Restarts
import TurboCi.Lib.Utf8Lossy
import TurboCi.RunnerDaemon.CacheNames
import TurboCi.RunnerDaemon.ImageReferences

set_option autoImplicit false

/-! # The upgrade

`upgrade` of `main.rs` replaces the runner's binary with that of the latest release, after it has
checked it against the release's `SHA256SUMS` (`verify_checksum`) and seen it run. The new binary
is written next to the old one and renamed.

The entry of a file in what `sha256sum` writes is the one that is found (`verifyChecksum_sumsFile`).
However often the command is given and wherever it is killed, the binary is the old one or one that
passed both checks, and nothing else is ever executed (`upgrade_safe`).
-/

namespace TurboCi

open Prog Program Restarts Runs Utf8

namespace Upgrade

/-! ## Checksums -/

/-- A line without a carriage return at its end. -/
def stripCr (line : Chars) : Chars :=
  if line.getLast? = some '\r' then line.dropLast else line

def linesFrom : Chars → Chars → List Chars
  | line, [] => if line = [] then [] else [line]
  | line, c :: rest =>
      if c = '\n' then stripCr line :: linesFrom [] rest else linesFrom (line ++ [c]) rest

/-- `str::lines`. -/
def lines (text : Chars) : List Chars := linesFrom [] text

/-- `split_once(char::is_whitespace)`. -/
def splitOnceWhitespace (line : Chars) : Option (Chars × Chars) :=
  match line.dropWhile (!isWhitespace ·) with
  | [] => none
  | _ :: rest => some (line.takeWhile (!isWhitespace ·), rest)

def trimStartMatches (c : Char) (cs : Chars) : Chars := cs.dropWhile (· = c)

inductive ChecksumError where
  | noEntry (asset : Chars)
  | mismatch (asset expected actual : Chars)
  deriving DecidableEq

section Checksums

variable (sha256 : List UInt8 → Digest)

/-- Check data against the entry for an asset in a `sha256sum` style file. -/
def verifyChecksum (data : List UInt8) (sums asset : Chars) : Except ChecksumError Unit :=
  match ((lines sums).filterMap splitOnceWhitespace).find? fun entry =>
      trimStartMatches '*' (trim entry.2) = asset with
  | none => .error (.noEntry asset)
  | some (hash, _) =>
      let expected := hash.map Char.toLower
      let actual := (sha256 data).toHex
      if actual = expected then .ok () else .error (.mismatch asset expected actual)

/-- A file of a release. -/
structure Asset where
  name : Chars
  data : List UInt8
  /-- `sha256sum` read it in binary mode -/
  binary : Bool := false

/-- The characters that `sha256sum` escapes in a name. -/
def escapeChar : Char → Option Char
  | '\\' => some '\\'
  | '\n' => some 'n'
  | '\r' => some 'r'
  | _ => none

def escape (c : Char) : Chars :=
  match escapeChar c with
  | some escaped => ['\\', escaped]
  | none => [c]

/-- The line that `sha256sum` writes for a file; a backslash marks a line whose name is escaped. -/
def sumsLine (asset : Asset) : Chars :=
  (if asset.name.any (escapeChar · |>.isSome) then ['\\'] else []) ++
    (sha256 asset.data).toHex ++ ' ' :: (if asset.binary then '*' else ' ') ::
      (asset.name.flatMap escape ++ ['\n'])

def sumsFile (assets : List Asset) : Chars := assets.flatMap (sumsLine sha256)

end Checksums

/-- A name that `sha256sum` writes as it is and that is read as it is. -/
structure Plain (name : Chars) : Prop where
  trimmed : trim name = name
  noStar : name.head? ≠ some '*'
  verbatim : ∀ c ∈ name, escapeChar c = none

theorem Plain.oneLine {name : Chars} (h : Plain name) : '\n' ∉ name :=
  fun hc => absurd (h.verbatim _ hc) (by decide)

theorem Plain.flatMap_escape {name : Chars} (h : Plain name) : name.flatMap escape = name := by
  have hkeep : ∀ c ∈ name, escape c = [c] := fun c hc => by rw [escape, h.verbatim c hc]
  rw [List.flatMap_congr hkeep, List.flatMap_singleton']

theorem sumsLine_plain (sha256 : List UInt8 → Digest) {asset : Asset} (h : Plain asset.name) :
    sumsLine sha256 asset = (sha256 asset.data).toHex ++
      ' ' :: (if asset.binary then '*' else ' ') :: (asset.name ++ ['\n']) := by
  have hnone : asset.name.any (escapeChar · |>.isSome) = false := by
    rw [List.any_eq_false]
    intro c hc
    rw [h.verbatim c hc]
    exact Bool.false_ne_true
  rw [sumsLine, hnone, h.flatMap_escape]
  rfl

/-! ### Lines -/

theorem linesFrom_line {part : Chars} (hpart : '\n' ∉ part) (rest line : Chars) :
    linesFrom line (part ++ '\n' :: rest) = stripCr (line ++ part) :: lines rest := by
  induction part generalizing line with
  | nil =>
      rw [List.nil_append, linesFrom, if_pos rfl, List.append_nil]
      rfl
  | cons c part ih =>
      have hc : c ≠ '\n' := fun h => hpart (h ▸ List.mem_cons_self)
      have hrest : '\n' ∉ part := fun h => hpart (List.mem_cons_of_mem c h)
      rw [List.cons_append, linesFrom, if_neg hc, ih hrest, List.append_assoc,
        List.singleton_append]

theorem splitOnceWhitespace_append {word : Chars} (hword : ∀ c ∈ word, isWhitespace c = false)
    {c : Char} (hc : isWhitespace c = true) (rest : Chars) :
    splitOnceWhitespace (word ++ c :: rest) = some (word, rest) := by
  have hkeep : ∀ d ∈ word, (!isWhitespace d) = true := fun d hd => by rw [hword d hd]; rfl
  have hdrop : (word ++ c :: rest).dropWhile (!isWhitespace ·) = c :: rest := by
    rw [List.dropWhile_append_of_pos hkeep, List.dropWhile_cons_of_neg (by simp [hc])]
  have htake : (word ++ c :: rest).takeWhile (!isWhitespace ·) = word := by
    rw [List.takeWhile_append_of_pos hkeep, List.takeWhile_cons_of_neg (by simp [hc]),
      List.append_nil]
  unfold splitOnceWhitespace
  rw [hdrop, htake]

/-- A name that is trimmed ends in no whitespace. -/
theorem getLast?_trim (name : Chars) :
    ∀ c, (trim name).getLast? = some c → isWhitespace c = false := by
  intro c hc
  rw [trim, List.getLast?_reverse] at hc
  have hhead := List.head?_dropWhile_not isWhitespace (name.dropWhile isWhitespace).reverse
  rw [hc] at hhead
  exact hhead

theorem trim_space (name : Chars) : trim (' ' :: name) = trim name := by
  unfold trim
  rw [List.dropWhile_cons_of_pos (by decide)]

theorem trim_star {name : Chars} (h : trim name = name) : trim ('*' :: name) = '*' :: name := by
  have hback : ('*' :: name).reverse.dropWhile isWhitespace = ('*' :: name).reverse := by
    cases hlast : ('*' :: name).reverse with
    | nil => rfl
    | cons c rest =>
        have hc : ('*' :: name).getLast? = some c := by
          rw [← List.head?_reverse, hlast]
          rfl
        have hplain : isWhitespace c = false := by
          cases name with
          | nil =>
              obtain rfl : '*' = c := by simpa using hc
              decide
          | cons d name =>
              rw [List.getLast?_cons_cons, ← h] at hc
              exact getLast?_trim (d :: name) c hc
        exact List.dropWhile_cons_of_neg (by simp [hplain])
  unfold trim
  rw [List.dropWhile_cons_of_neg (by decide), hback, List.reverse_reverse]

/-- What is read of the text that follows the checksum. -/
theorem read_name {name : Chars} (h : Plain name) (binary : Bool) :
    trimStartMatches '*' (trim ((if binary then '*' else ' ') :: name)) = name := by
  have hname : trimStartMatches '*' name = name := by
    unfold trimStartMatches
    cases name with
    | nil => rfl
    | cons c rest =>
        have hc : c ≠ '*' := fun hstar => h.noStar (by rw [hstar]; rfl)
        exact List.dropWhile_cons_of_neg (by simpa using hc)
  cases binary with
  | true =>
      rw [if_pos rfl, trim_star h.trimmed, trimStartMatches, List.dropWhile_cons_of_pos (by decide)]
      exact hname
  | false =>
      rw [if_neg Bool.false_ne_true, trim_space, h.trimmed]
      exact hname

/-! ### The file of checksums -/

section Checksums

variable {sha256 : List UInt8 → Digest}

theorem toHex_chars (d : Digest) : ∀ c ∈ d.toHex, c ∈ "0123456789abcdef".toList := by
  intro c hc
  obtain ⟨b, -, hb⟩ := List.mem_flatMap.mp hc
  exact hexByte_chars b c hb

theorem map_toLower_toHex (d : Digest) : d.toHex.map Char.toLower = d.toHex := by
  have hlower : "0123456789abcdef".toList.all (fun c => c.toLower = c) = true := by decide
  refine (List.map_congr_left fun c hc => ?_).trans (List.map_id _)
  exact of_decide_eq_true (List.all_eq_true.mp hlower c (toHex_chars d c hc))

theorem isWhitespace_toHex (d : Digest) : ∀ c ∈ d.toHex, isWhitespace c = false := by
  have hplain : "0123456789abcdef".toList.all (fun c => !isWhitespace c) = true := by decide
  intro c hc
  simpa using List.all_eq_true.mp hplain c (toHex_chars d c hc)

/-- The lines of the file are its entries. -/
theorem entries_sumsFile {assets : List Asset} (hplain : ∀ asset ∈ assets, Plain asset.name) :
    (lines (sumsFile sha256 assets)).filterMap splitOnceWhitespace =
      assets.map fun asset => ((sha256 asset.data).toHex,
        (if asset.binary then '*' else ' ') :: asset.name) := by
  induction assets with
  | nil => rfl
  | cons asset assets ih =>
      have hname := hplain asset List.mem_cons_self
      have hrest := ih fun a ha => hplain a (List.mem_cons_of_mem asset ha)
      let flag := if asset.binary then '*' else ' '
      have hflag : flag = '*' ∨ flag = ' ' := by
        cases hbinary : asset.binary with
        | true => exact .inl (if_pos hbinary)
        | false => exact .inr (if_neg (by simp [hbinary]))
      have hline : sumsFile sha256 (asset :: assets) =
          ((sha256 asset.data).toHex ++ ' ' :: flag :: asset.name) ++
            '\n' :: sumsFile sha256 assets := by
        have hfile : sumsFile sha256 (asset :: assets) =
            sumsLine sha256 asset ++ sumsFile sha256 assets := rfl
        rw [hfile, sumsLine_plain sha256 hname]
        simp [flag]
      have hnewline : '\n' ∉ (sha256 asset.data).toHex ++ ' ' :: flag :: asset.name := by
        have hhex : '\n' ∉ (sha256 asset.data).toHex := fun h => by
          have hws := isWhitespace_toHex _ _ h
          exact absurd hws (by decide)
        have hflagNe : flag ≠ '\n' := by
          rcases hflag with h | h <;> rw [h] <;> decide
        simp only [List.mem_append, List.mem_cons, not_or]
        exact ⟨hhex, by decide, hflagNe.symm, hname.oneLine⟩
      have hcr : stripCr ((sha256 asset.data).toHex ++ ' ' :: flag :: asset.name) =
          (sha256 asset.data).toHex ++ ' ' :: flag :: asset.name := by
        refine if_neg fun hlast => ?_
        rw [List.getLast?_append_of_ne_nil _ (by simp), List.getLast?_cons_cons] at hlast
        cases hn : asset.name with
        | nil =>
            rw [hn] at hlast
            obtain hcr : flag = '\r' := by simpa using hlast
            rcases hflag with h | h <;> rw [h] at hcr <;> exact absurd hcr (by decide)
        | cons c name =>
            rw [hn, List.getLast?_cons_cons, ← hn, ← hname.trimmed] at hlast
            exact absurd (getLast?_trim _ _ hlast) (by decide)
      rw [hline, lines, linesFrom_line hnewline, List.nil_append, hcr, List.filterMap_cons,
        splitOnceWhitespace_append (isWhitespace_toHex _) (by decide), hrest]
      rfl

/-- **A file passes exactly if it has the content of the first file of its name** that the checksums
were written for. -/
theorem verifyChecksum_sumsFile {assets : List Asset} (hplain : ∀ asset ∈ assets, Plain asset.name)
    (data : List UInt8) (name : Chars) :
    verifyChecksum sha256 data (sumsFile sha256 assets) name = .ok () ↔
      ∃ asset, assets.find? (·.name = name) = some asset ∧ sha256 data = sha256 asset.data := by
  have hfind : ((assets.map fun asset => ((sha256 asset.data).toHex,
      (if asset.binary then '*' else ' ') :: asset.name)).find? fun entry =>
        trimStartMatches '*' (trim entry.2) = name) =
      (assets.find? (·.name = name)).map fun asset => ((sha256 asset.data).toHex,
        (if asset.binary then '*' else ' ') :: asset.name) := by
    rw [List.find?_map]
    congr 1
    refine List.find?_congr fun asset hasset => ?_
    simp only [Function.comp, read_name (hplain asset hasset)]
  rw [verifyChecksum, entries_sumsFile hplain, hfind]
  cases assets.find? (·.name = name) with
  | none => simp
  | some asset =>
      simp only [Option.map_some, Option.some.injEq, exists_eq_left', map_toLower_toHex]
      constructor
      · intro h
        by_contra hne
        rw [if_neg fun heq => hne (toHex_inj heq)] at h
        cases h
      · intro h
        rw [if_pos (congrArg Digest.toHex h)]

/-- A release of one file, on a host on which every digest is zero. -/
def release : List Asset := [{ name := "turboci-linux".toList, data := [7, 8] }]

def zeroSha : List UInt8 → Digest := fun _ => lengthHash []

theorem verifyChecksum_sumsFile_release :
    verifyChecksum zeroSha [7, 8] (sumsFile zeroSha release) "turboci-linux".toList = .ok () := by
  have hverbatim : ("turboci-linux".toList.all fun c => (escapeChar c).isNone) = true := by decide
  have hplain : ∀ asset ∈ release, Plain asset.name := by
    intro asset hasset
    rw [List.mem_singleton.mp hasset]
    refine ⟨by decide, by decide, fun c hc => ?_⟩
    exact Option.isNone_iff_eq_none.mp (List.all_eq_true.mp hverbatim c hc)
  exact (verifyChecksum_sumsFile hplain [7, 8] "turboci-linux".toList).mpr
    ⟨{ name := "turboci-linux".toList, data := [7, 8] }, rfl, rfl⟩

end Checksums

/-! ## The upgrade -/

abbrev Path := Chars

/-- `Path::with_extension`, of a path that ends in a file's name. -/
def withExtension (path extension : Chars) : Path :=
  let name := (path.reverse.takeWhile (· ≠ '/')).reverse
  let dir := path.take (path.length - name.length)
  let front := ((name.reverse.dropWhile (· ≠ '.')).drop 1).reverse
  -- a name that only begins with a dot has no extension
  dir ++ (if front = [] then name else front) ++ '.' :: extension

inductive Call where
  /-- the latest release's tag, where it has one -/
  | getRelease
  | download (tag name : Chars)
  | currentExe
  /-- create or truncate a file -/
  | create (path : Path)
  | writeByte (path : Path) (byte : UInt8)
  | setMode (path : Path) (mode : Nat)
  /-- run with `--version`; whether that succeeds, where it can be executed -/
  | run (path : Path)
  | removeFile (path : Path)
  | rename (source target : Path)
  deriving DecidableEq

abbrev Call.Reply : Call → Type
  | getRelease => Except Chars (Option Chars)
  | download _ _ => Except Chars (List UInt8)
  | currentExe => Except Chars Path
  | run _ => Option Bool
  | create _ | writeByte _ _ | setMode _ _ | removeFile _ | rename _ _ => Except Chars Unit

inductive UpgradeError where
  | release (error : Chars)
  | noTag
  | unsupportedPlatform
  | download (error : Chars)
  | checksum (error : ChecksumError)
  | io (error : Chars)
  | doesNotRun
  deriving DecidableEq

inductive Upgraded where
  | alreadyLatest
  | upgraded (version : Chars)
  deriving DecidableEq

abbrev Upgrading (α : Type) := Program Call Call.Reply UpgradeError α

def call (c : Call) : Upgrading c.Reply := Program.ask c

/-- A call with `?`. -/
def perform {α : Type} (error : Chars → UpgradeError) (reply : Except Chars α) : Upgrading α :=
  (Program.ofExcept reply).mapError error

/-- `String::from_utf8_lossy`. -/
def fromLossy (bytes : List UInt8) : Chars := (stringFromUtf8 (fromUtf8Lossy bytes)).getD []

def checksums : Chars := "SHA256SUMS".toList

/-- `fs::write`; it may fail, or the process may be killed, after any of the bytes. -/
def writeAll (path : Path) : List UInt8 → Upgrading Unit
  | [] => .done ()
  | byte :: rest => do
      perform .io (← call (.writeByte path byte))
      writeAll path rest

/-- Put a new binary in the place of this one, if it runs. -/
def install (binary : List UInt8) : Upgrading Unit := do
  let currentExe ← perform .io (← call .currentExe)
  let tempPath := withExtension currentExe "new".toList
  perform .io (← call (.create tempPath))
  writeAll tempPath binary
  perform .io (← call (.setMode tempPath 0o755))
  let runs : Option Bool ← call (.run tempPath)
  if runs.getD false then perform .io (← call (.rename tempPath currentExe))
  else do
    let _ ← call (.removeFile tempPath)
    .fail .doesNotRun

section Release

variable (sha256 : List UInt8 → Digest) (currentVersion : Chars) (releaseAsset : Option Chars)

/-- The binary of a release, checked against the release's checksums. -/
def downloadVerified (tag asset : Chars) : Upgrading (List UInt8) := do
  let binary ← perform .download (← call (.download tag asset))
  let sums ← perform (fun e => .download (e ++ " (refusing to upgrade without checksums)".toList))
    (← call (.download tag checksums))
  (Program.ofExcept (verifyChecksum sha256 binary (fromLossy sums) asset)).mapError .checksum
  .done binary

def upgradeTo (tag : Chars) : Upgrading Upgraded :=
  if currentVersion = trimStartMatches 'v' tag then .done .alreadyLatest
  else
    match releaseAsset with
    | none => .fail .unsupportedPlatform
    | some asset => do
        let binary ← downloadVerified sha256 tag asset
        install binary
        .done (.upgraded (trimStartMatches 'v' tag))

def upgrade : Upgrading Upgraded := do
  let release ← perform .release (← call .getRelease)
  match release with
  | none => .fail .noTag
  | some tag => upgradeTo sha256 currentVersion releaseAsset tag

end Release

/-! ## The host -/

/-- The host's files, what was downloaded, and the contents that were executed, with whether they
succeeded. -/
structure Host where
  files : Path → Option (List UInt8)
  downloads : List ((Chars × Chars) × List UInt8) := []
  executed : List (List UInt8 × Bool) := []

inductive Choice where
  | works
  | fails (error : Chars)
  | release (tag : Option Chars)
  | content (bytes : List UInt8)
  | exits (success : Bool)
  deriving DecidableEq

def Host.write (host : Host) (path : Path) (content : Option (List UInt8)) : Host :=
  { host with files := Function.update host.files path content }

/-- What a call does on a host on which the runner's binary is `exe`. -/
def exec (exe : Path) (host : Host) : (c : Call) → Choice → Option (Host × c.Reply)
  | .getRelease, .release tag => some (host, .ok tag)
  | .getRelease, .fails e => some (host, .error e)
  | .download tag name, .content bytes =>
      some ({ host with downloads := host.downloads ++ [((tag, name), bytes)] }, .ok bytes)
  | .download _ _, .fails e => some (host, .error e)
  | .currentExe, .works => some (host, .ok exe)
  | .currentExe, .fails e => some (host, .error e)
  | .create path, .works => some (host.write path (some []), .ok ())
  | .create _, .fails e => some (host, .error e)
  | .writeByte path byte, .works =>
      some (host.write path (some ((host.files path).getD [] ++ [byte])), .ok ())
  | .writeByte _ _, .fails e => some (host, .error e)
  | .setMode _ _, .works => some (host, .ok ())
  | .setMode _ _, .fails e => some (host, .error e)
  | .run path, .exits success =>
      match host.files path with
      | some content =>
          some ({ host with executed := host.executed ++ [(content, success)] }, some success)
      | none => none
  | .run _, .fails _ => some (host, none)
  | .removeFile path, .works => some (host.write path none, .ok ())
  | .removeFile _, .fails e => some (host, .error e)
  | .rename source target, .works =>
      some ((host.write target (host.files source)).write source none, .ok ())
  | .rename _ _, .fails e => some (host, .error e)
  | _, _ => none

/-! ## What is installed -/

section Safe

variable (sha256 : List UInt8 → Digest) (currentVersion : Chars) (releaseAsset : Option Chars)

/-- The content is that of a later release, by the checksums of the same release. -/
def Verified (host : Host) (version : Chars) (content : List UInt8) : Prop :=
  ∃ tag asset sums, releaseAsset = some asset ∧ ((tag, asset), content) ∈ host.downloads ∧
    ((tag, checksums), sums) ∈ host.downloads ∧
      verifyChecksum sha256 content (fromLossy sums) asset = .ok () ∧
        version = trimStartMatches 'v' tag ∧ version ≠ currentVersion

/-- The file holds content that was verified and that ran. -/
def Installed (exe : Path) (host : Host) (version : Chars) : Prop :=
  ∃ content, host.files exe = some content ∧
    Verified sha256 currentVersion releaseAsset host version content ∧ (content, true) ∈ host.executed

/-- Only the binary and the file next to it are ever touched, the binary is the one of the start
or one that was installed, and only verified content is executed. -/
structure Safe (exe : Path) (start : Path → Option (List UInt8)) (host : Host) : Prop where
  binary : host.files exe = start exe ∨
    ∃ version, Installed sha256 currentVersion releaseAsset exe host version
  executed : ∀ e ∈ host.executed,
    ∃ version, Verified sha256 currentVersion releaseAsset host version e.1
  others : ∀ path, path ≠ exe → path ≠ withExtension exe "new".toList →
    host.files path = start path

end Safe

section Effects

variable {exe path source target : Path} {host t : Host} {choice : Choice}

theorem exec_create {r : Except Chars Unit}
    (h : exec exe host (.create path) choice = some (t, r)) :
    (r = .ok () ∧ t = host.write path (some [])) ∨ ((∃ e, r = .error e) ∧ t = host) := by
  cases choice with
  | works =>
      obtain ⟨rfl, rfl⟩ := Prod.mk.inj (Option.some.inj h)
      exact .inl ⟨rfl, rfl⟩
  | fails e =>
      obtain ⟨rfl, rfl⟩ := Prod.mk.inj (Option.some.inj h)
      exact .inr ⟨⟨e, rfl⟩, rfl⟩
  | _ => cases h

theorem exec_writeByte {byte : UInt8} {r : Except Chars Unit}
    (h : exec exe host (.writeByte path byte) choice = some (t, r)) :
    (r = .ok () ∧ t = host.write path (some ((host.files path).getD [] ++ [byte]))) ∨
      ((∃ e, r = .error e) ∧ t = host) := by
  cases choice with
  | works =>
      obtain ⟨rfl, rfl⟩ := Prod.mk.inj (Option.some.inj h)
      exact .inl ⟨rfl, rfl⟩
  | fails e =>
      obtain ⟨rfl, rfl⟩ := Prod.mk.inj (Option.some.inj h)
      exact .inr ⟨⟨e, rfl⟩, rfl⟩
  | _ => cases h

theorem exec_download {tag name : Chars} {r : Except Chars (List UInt8)}
    (h : exec exe host (.download tag name) choice = some (t, r)) :
    (∃ bytes, r = .ok bytes ∧
      t = { host with downloads := host.downloads ++ [((tag, name), bytes)] }) ∨
      ((∃ e, r = .error e) ∧ t = host) := by
  cases choice with
  | content bytes =>
      obtain ⟨rfl, rfl⟩ := Prod.mk.inj (Option.some.inj h)
      exact .inl ⟨bytes, rfl, rfl⟩
  | fails e =>
      obtain ⟨rfl, rfl⟩ := Prod.mk.inj (Option.some.inj h)
      exact .inr ⟨⟨e, rfl⟩, rfl⟩
  | _ => cases h

theorem exec_run {r : Option Bool} (h : exec exe host (.run path) choice = some (t, r)) :
    (∃ success content, r = some success ∧ host.files path = some content ∧
      t = { host with executed := host.executed ++ [(content, success)] }) ∨
    (r = none ∧ t = host) := by
  cases choice with
  | exits success =>
      rw [exec] at h
      cases hfile : host.files path with
      | none =>
          rw [hfile] at h
          cases h
      | some content =>
          rw [hfile] at h
          obtain ⟨rfl, rfl⟩ := Prod.mk.inj (Option.some.inj h)
          exact .inl ⟨success, content, rfl, rfl, rfl⟩
  | fails e =>
      obtain ⟨rfl, rfl⟩ := Prod.mk.inj (Option.some.inj h)
      exact .inr ⟨rfl, rfl⟩
  | _ => cases h

theorem exec_removeFile {r : Except Chars Unit}
    (h : exec exe host (.removeFile path) choice = some (t, r)) :
    t = host.write path none ∨ t = host := by
  cases choice <;> simp_all [exec]

theorem exec_rename {r : Except Chars Unit}
    (h : exec exe host (.rename source target) choice = some (t, r)) :
    (r = .ok () ∧ t = (host.write target (host.files source)).write source none) ∨
      ((∃ e, r = .error e) ∧ t = host) := by
  cases choice with
  | works =>
      obtain ⟨rfl, rfl⟩ := Prod.mk.inj (Option.some.inj h)
      exact .inl ⟨rfl, rfl⟩
  | fails e =>
      obtain ⟨rfl, rfl⟩ := Prod.mk.inj (Option.some.inj h)
      exact .inr ⟨⟨e, rfl⟩, rfl⟩
  | _ => cases h

theorem exec_currentExe {r : Except Chars Path}
    (h : exec exe host .currentExe choice = some (t, r)) :
    (r = .ok exe ∨ ∃ e, r = .error e) ∧ t = host := by
  cases choice with
  | works =>
      obtain ⟨rfl, rfl⟩ := Prod.mk.inj (Option.some.inj h)
      exact ⟨.inl rfl, rfl⟩
  | fails e =>
      obtain ⟨rfl, rfl⟩ := Prod.mk.inj (Option.some.inj h)
      exact ⟨.inr ⟨e, rfl⟩, rfl⟩
  | _ => cases h

theorem exec_getRelease {r : Except Chars (Option Chars)}
    (h : exec exe host .getRelease choice = some (t, r)) : t = host := by
  cases choice <;> simp_all [exec]

theorem exec_setMode {mode : Nat} {r : Except Chars Unit}
    (h : exec exe host (.setMode path mode) choice = some (t, r)) : t = host := by
  cases choice <;> simp_all [exec]

end Effects

/-! ## One upgrade -/

section Steps

variable {sha256 : List UInt8 → Digest} {currentVersion : Chars} {releaseAsset : Option Chars}
  {exe : Path} {start : Path → Option (List UInt8)} {host t : Host} {version : Chars}
  {content : List UInt8}

theorem Verified.mono (hsub : host.downloads ⊆ t.downloads)
    (h : Verified sha256 currentVersion releaseAsset host version content) :
    Verified sha256 currentVersion releaseAsset t version content := by
  obtain ⟨tag, asset, sums, hasset, hbinary, hsums, hrest⟩ := h
  exact ⟨tag, asset, sums, hasset, hsub hbinary, hsub hsums, hrest⟩

/-- A step that leaves the binary alone, and executes verified content only. -/
theorem Safe.step (h : Safe sha256 currentVersion releaseAsset exe start host)
    (hdownloads : host.downloads ⊆ t.downloads) (hexe : t.files exe = host.files exe)
    (hold : host.executed ⊆ t.executed)
    (hnew : ∀ e ∈ t.executed, e ∈ host.executed ∨
      ∃ version, Verified sha256 currentVersion releaseAsset t version e.1)
    (hothers : ∀ path, path ≠ exe → path ≠ withExtension exe "new".toList →
      t.files path = host.files path) :
    Safe sha256 currentVersion releaseAsset exe start t where
  binary := by
    rw [hexe]
    refine h.binary.imp id fun hinstalled => ?_
    obtain ⟨version, content, hcontent, hverified, hran⟩ := hinstalled
    exact ⟨version, content, hexe.trans hcontent, hverified.mono hdownloads, hold hran⟩
  executed := by
    intro e he
    rcases hnew e he with hbefore | hnow
    · exact (h.executed e hbefore).imp fun _ hv => hv.mono hdownloads
    · exact hnow
  others := fun path hpath htemp => (hothers path hpath htemp).trans (h.others path hpath htemp)

/-- Writing the file next to the binary. -/
theorem Safe.write (h : Safe sha256 currentVersion releaseAsset exe start host)
    (hapart : withExtension exe "new".toList ≠ exe) (written : Option (List UInt8)) :
    Safe sha256 currentVersion releaseAsset exe start
      (host.write (withExtension exe "new".toList) written) := by
  refine h.step (List.Subset.refl _) ?_ (List.Subset.refl _) (fun e he => .inl he) ?_
  · exact Function.update_of_ne hapart.symm _ _
  · intro path _ htemp
    exact Function.update_of_ne htemp _ _

theorem Safe.download (h : Safe sha256 currentVersion releaseAsset exe start host)
    (served : (Chars × Chars) × List UInt8) :
    Safe sha256 currentVersion releaseAsset exe start
      { host with downloads := host.downloads ++ [served] } :=
  h.step (List.subset_append_left _ _) rfl (List.Subset.refl _) (fun _ he => .inl he)
    fun _ _ _ => rfl

theorem Safe.execute (h : Safe sha256 currentVersion releaseAsset exe start host)
    (hverified : Verified sha256 currentVersion releaseAsset host version content)
    (success : Bool) :
    Safe sha256 currentVersion releaseAsset exe start
      { host with executed := host.executed ++ [(content, success)] } := by
  refine h.step (List.Subset.refl _) rfl (List.subset_append_left _ _) (fun e he => ?_)
    fun _ _ _ => rfl
  rcases List.mem_append.mp he with hold | hnew
  · exact .inl hold
  · rw [List.mem_singleton.mp hnew]
    exact .inr ⟨version, hverified.mono (List.Subset.refl _)⟩

/-- The renaming puts the verified content in the place of the binary. -/
theorem Safe.rename (h : Safe sha256 currentVersion releaseAsset exe start host)
    (hapart : withExtension exe "new".toList ≠ exe)
    (hfile : host.files (withExtension exe "new".toList) = some content)
    (hverified : Verified sha256 currentVersion releaseAsset host version content)
    (hran : (content, true) ∈ host.executed) :
    let t := (host.write exe (host.files (withExtension exe "new".toList))).write
      (withExtension exe "new".toList) none
    Safe sha256 currentVersion releaseAsset exe start t ∧
      Installed sha256 currentVersion releaseAsset exe t version := by
  intro t
  have hexe : t.files exe = some content := by
    show Function.update (Function.update host.files exe _) _ none exe = some content
    rw [Function.update_of_ne hapart.symm, Function.update_self, hfile]
  have hinstalled : Installed sha256 currentVersion releaseAsset exe t version :=
    ⟨content, hexe, hverified, hran⟩
  refine ⟨⟨.inr ⟨version, hinstalled⟩, h.executed, fun path hpath htemp => ?_⟩, hinstalled⟩
  show Function.update (Function.update host.files exe _) _ none path = start path
  rw [Function.update_of_ne htemp, Function.update_of_ne hpath]
  exact h.others path hpath htemp

theorem ends_perform_bind {α β σ : Type} {spec : Spec σ Call Call.Reply}
    {Q : Except UpgradeError β → σ → Prop} {error : Chars → UpgradeError} {reply : Except Chars α}
    {f : α → Upgrading β} {w : σ} (hok : ∀ a, reply = .ok a → Ends spec Q (f a) w)
    (herror : ∀ e, Q (.error (error e)) w) : Ends spec Q (perform error reply >>= f) w := by
  cases reply with
  | ok a => exact hok a rfl
  | error e => exact herror e

/-- The content is in the file next to the binary, as far as it has been written. -/
structure Staged (sha256 : List UInt8 → Digest) (currentVersion : Chars)
    (releaseAsset : Option Chars) (exe : Path) (start : Path → Option (List UInt8))
    (version : Chars) (content written : List UInt8) (host : Host) : Prop where
  safe : Safe sha256 currentVersion releaseAsset exe start host
  verified : Verified sha256 currentVersion releaseAsset host version content
  file : host.files (withExtension exe "new".toList) = some written

theorem ends_writeAll (hapart : withExtension exe "new".toList ≠ exe) {rest : List UInt8} :
    ∀ {written : List UInt8} {host : Host}, content = written ++ rest →
      Staged sha256 currentVersion releaseAsset exe start version content written host →
      Ends (worldSpec (exec exe) (fun _ _ => True)
          (Safe sha256 currentVersion releaseAsset exe start))
        (fun r t => Safe sha256 currentVersion releaseAsset exe start t ∧ (r = .ok () →
          Staged sha256 currentVersion releaseAsset exe start version content content t))
        (writeAll (withExtension exe "new".toList) rest) host := by
  induction rest with
  | nil =>
      intro written host hsplit h
      rw [List.append_nil] at hsplit
      exact ⟨h.safe, fun _ => hsplit ▸ h⟩
  | cons byte rest ih =>
      intro written host hsplit h
      refine ends_ask h.safe fun choice t r _ hcall => ?_
      refine ends_perform_bind (fun _ hr => ?_) (fun e => ?_)
      · rcases exec_writeByte hcall with ⟨-, rfl⟩ | ⟨⟨e, he⟩, -⟩
        · have hfile := h.safe.write hapart (some (written ++ [byte]))
          rw [h.file]
          have hnext : content = (written ++ [byte]) ++ rest := by
            rw [hsplit, List.append_assoc, List.singleton_append]
          exact ih hnext ⟨hfile, h.verified, Function.update_self _ _ _⟩
        · rw [he] at hr
          cases hr
      · rcases exec_writeByte hcall with ⟨-, rfl⟩ | ⟨-, rfl⟩
        · exact ⟨h.safe.write hapart _, fun hok => by cases hok⟩
        · exact ⟨h.safe, fun hok => by cases hok⟩

/-- **Verified content is installed if it runs**; otherwise the binary stays as it is. -/
theorem ends_install (hapart : withExtension exe "new".toList ≠ exe)
    (hsafe : Safe sha256 currentVersion releaseAsset exe start host)
    (hverified : Verified sha256 currentVersion releaseAsset host version content) :
    Ends (worldSpec (exec exe) (fun _ _ => True)
        (Safe sha256 currentVersion releaseAsset exe start))
      (fun r t => Safe sha256 currentVersion releaseAsset exe start t ∧
        (r = .ok () → Installed sha256 currentVersion releaseAsset exe t version))
      (install content) host := by
  refine ends_ask hsafe fun choice t r _ hcall => ?_
  obtain ⟨hexe, rfl⟩ := exec_currentExe hcall
  refine ends_perform_bind (fun path hpath => ?_) fun e => ⟨hsafe, fun hok => by cases hok⟩
  obtain rfl : exe = path := by
    rcases hexe with hexe | ⟨e, he⟩
    · rw [hpath] at hexe
      exact (Except.ok.inj hexe).symm
    · rw [hpath] at he
      cases he
  refine ends_ask hsafe fun choice u r _ hcall => ?_
  have hcreated : Safe sha256 currentVersion releaseAsset exe start u := by
    rcases exec_create hcall with ⟨-, rfl⟩ | ⟨-, rfl⟩
    · exact hsafe.write hapart _
    · exact hsafe
  refine ends_perform_bind (fun _ hr => ?_) fun e => ⟨hcreated, fun hok => by cases hok⟩
  rcases exec_create hcall with ⟨-, rfl⟩ | ⟨⟨e, he⟩, -⟩
  swap
  · rw [he] at hr
    cases hr
  have hstaged : Staged sha256 currentVersion releaseAsset exe start version content []
      (t.write (withExtension exe "new".toList) (some [])) :=
    ⟨hcreated, hverified, Function.update_self _ _ _⟩
  refine ends_bind (fun _ v hv => ?_) (fun e v hv => ⟨hv.1, fun hok => by cases hok⟩)
    (ends_writeAll hapart (List.nil_append content).symm hstaged)
  have hwritten := hv.2 rfl
  refine ends_ask hv.1 fun choice v' r _ hcall => ?_
  obtain rfl := exec_setMode hcall
  refine ends_perform_bind (fun _ _ => ?_) fun e => ⟨hv.1, fun hok => by cases hok⟩
  refine ends_ask hv.1 fun choice w runs _ hcall => ?_
  have hremove (w : Host) (hw : Safe sha256 currentVersion releaseAsset exe start w) :
      Ends (worldSpec (exec exe) (fun _ _ => True)
          (Safe sha256 currentVersion releaseAsset exe start))
        (fun r t => Safe sha256 currentVersion releaseAsset exe start t ∧
          (r = .ok () → Installed sha256 currentVersion releaseAsset exe t version))
        (call (.removeFile (withExtension exe "new".toList)) >>= fun _ => .fail .doesNotRun) w := by
    refine ends_ask hw fun choice x r _ hcall => ?_
    rcases exec_removeFile hcall with rfl | rfl
    · exact ⟨hw.write hapart none, fun hok => by cases hok⟩
    · exact ⟨hw, fun hok => by cases hok⟩
  rcases exec_run hcall with ⟨success, ran, rfl, hfile, rfl⟩ | ⟨rfl, rfl⟩
  swap
  · exact hremove _ hv.1
  obtain rfl : content = ran := Option.some.inj (hwritten.file.symm.trans hfile)
  have hexecuted := hv.1.execute hwritten.verified success
  cases success with
  | false => exact hremove _ hexecuted
  | true =>
      -- what ran is in the file still
      refine ends_ask hexecuted fun choice x r _ hcall => ?_
      rcases exec_rename hcall with ⟨rfl, rfl⟩ | ⟨⟨e, rfl⟩, rfl⟩
      · have hrenamed := hexecuted.rename hapart hwritten.file hwritten.verified
          (List.mem_append_right _ (List.mem_singleton.mpr rfl))
        exact ⟨hrenamed.1, fun _ => hrenamed.2⟩
      · exact ⟨hexecuted, fun hok => by cases hok⟩

theorem ends_downloadVerified {tag asset : Chars} (hasset : releaseAsset = some asset)
    (hother : trimStartMatches 'v' tag ≠ currentVersion)
    (hsafe : Safe sha256 currentVersion releaseAsset exe start host) :
    Ends (worldSpec (exec exe) (fun _ _ => True)
        (Safe sha256 currentVersion releaseAsset exe start))
      (fun r t => Safe sha256 currentVersion releaseAsset exe start t ∧ ∀ content, r = .ok content →
        Verified sha256 currentVersion releaseAsset t (trimStartMatches 'v' tag) content)
      (downloadVerified sha256 tag asset) host := by
  refine ends_ask hsafe fun choice t r _ hcall => ?_
  have ht : Safe sha256 currentVersion releaseAsset exe start t := by
    rcases exec_download hcall with ⟨bytes, -, rfl⟩ | ⟨-, rfl⟩
    · exact hsafe.download _
    · exact hsafe
  refine ends_perform_bind (fun binary hbinary => ?_) fun e => ⟨ht, fun _ hok => by cases hok⟩
  have hserved : ((tag, asset), binary) ∈ t.downloads := by
    rcases exec_download hcall with ⟨bytes, hbytes, rfl⟩ | ⟨⟨e, he⟩, -⟩
    · rw [hbinary] at hbytes
      rw [Except.ok.inj hbytes]
      exact List.mem_append_right _ (List.mem_singleton.mpr rfl)
    · rw [hbinary] at he
      cases he
  refine ends_ask ht fun choice u r _ hcall => ?_
  have hu : Safe sha256 currentVersion releaseAsset exe start u := by
    rcases exec_download hcall with ⟨bytes, -, rfl⟩ | ⟨-, rfl⟩
    · exact ht.download _
    · exact ht
  refine ends_perform_bind (fun sums hsums => ?_) fun e => ⟨hu, fun _ hok => by cases hok⟩
  have hboth : ((tag, asset), binary) ∈ u.downloads ∧ ((tag, checksums), sums) ∈ u.downloads := by
    rcases exec_download hcall with ⟨bytes, hbytes, rfl⟩ | ⟨⟨e, he⟩, -⟩
    · rw [hsums] at hbytes
      rw [Except.ok.inj hbytes]
      exact ⟨List.mem_append_left _ hserved, List.mem_append_right _ (List.mem_singleton.mpr rfl)⟩
    · rw [hsums] at he
      cases he
  refine ends_mapError_bind (P := fun r w => w = u ∧
    r = verifyChecksum sha256 binary (fromLossy sums) asset) (fun _ w hw => ?_)
    (fun e w hw => ⟨hw.1 ▸ hu, fun _ hok => by cases hok⟩) (ends_ofExcept ⟨rfl, rfl⟩)
  obtain ⟨rfl, hchecked⟩ := hw
  refine ⟨hu, fun content hcontent => ?_⟩
  obtain rfl := Except.ok.inj hcontent
  exact ⟨tag, asset, sums, hasset, hboth.1, hboth.2, hchecked.symm, rfl, hother⟩

/-- What an upgrade leaves, however it ends. -/
theorem ends_upgrade (hapart : withExtension exe "new".toList ≠ exe)
    (hsafe : Safe sha256 currentVersion releaseAsset exe start host) :
    Ends (worldSpec (exec exe) (fun _ _ => True)
        (Safe sha256 currentVersion releaseAsset exe start))
      (fun r t => Safe sha256 currentVersion releaseAsset exe start t ∧ ∀ version,
        r = .ok (.upgraded version) → Installed sha256 currentVersion releaseAsset exe t version)
      (upgrade sha256 currentVersion releaseAsset) host := by
  refine ends_ask hsafe fun choice t release _ hcall => ?_
  obtain rfl := exec_getRelease hcall
  refine ends_perform_bind (fun found _ => ?_) fun e => ⟨hsafe, fun _ hok => by cases hok⟩
  cases found with
  | none => exact ⟨hsafe, fun _ hok => by cases hok⟩
  | some tag =>
      show Ends _ _ (upgradeTo sha256 currentVersion releaseAsset tag) t
      unfold upgradeTo
      split
      · exact ⟨hsafe, fun _ hok => by cases hok⟩
      · next hother =>
          split
          · exact ⟨hsafe, fun _ hok => by cases hok⟩
          · next asset =>
              refine ends_bind (fun content u hu => ?_)
                (fun e u hu => ⟨hu.1, fun _ hok => by cases hok⟩)
                (ends_downloadVerified rfl (Ne.symm hother) hsafe)
              refine ends_bind (fun _ v hv => ⟨hv.1, fun version hok => ?_⟩)
                (fun e v hv => ⟨hv.1, fun _ hok => by cases hok⟩)
                (ends_install hapart hu.1 (hu.2 content rfl))
              obtain rfl := Upgraded.upgraded.inj (Except.ok.inj hok)
              exact hv.2 rfl

end Steps

/-! ## Any number of upgrades -/

/-- The command, given any number of times, one at a time; it may be killed at any point. -/
abbrev Upgrades := State Host Call Call.Reply UpgradeError Upgraded

def step (sha256 : List UInt8 → Digest) (currentVersion : Chars) (releaseAsset : Option Chars)
    (exe : Path) : Upgrades → Label Choice → Option Upgrades :=
  Restarts.step (upgrade sha256 currentVersion releaseAsset) (exec exe)

/-- **At every moment the binary is the old one or a verified one that ran**, only verified content
is ever executed and no other file is touched but the one next to the binary, wherever upgrades
are killed and whatever fails; and one that says so has installed the version that it names. -/
theorem upgrade_safe (sha256 : List UInt8 → Digest) (currentVersion : Chars)
    (releaseAsset : Option Chars) (exe : Path) (hapart : withExtension exe "new".toList ≠ exe)
    (files : Path → Option (List UInt8)) (ls : List (Label Choice)) (s : Upgrades)
    (hrun : run (step sha256 currentVersion releaseAsset exe) { world := { files } } ls = some s) :
    Safe sha256 currentVersion releaseAsset exe files s.world ∧
      ∀ outcome ∈ s.outcomes, ∀ version, outcome.1 = .ok (.upgraded version) →
        Installed sha256 currentVersion releaseAsset exe outcome.2 version := by
  have hsafe : Safe sha256 currentVersion releaseAsset exe files { files } :=
    ⟨.inl rfl, (fun e he => by cases he), fun _ _ _ => rfl⟩
  have hstart (w : Host) (hw : Safe sha256 currentVersion releaseAsset exe files w) :=
    ends_upgrade hapart hw
  have hrun' : run (Restarts.step (upgrade sha256 currentVersion releaseAsset) (exec exe))
      { world := { files } } ls = some s := hrun
  have hkeeps := keeps_run hstart (keeps_idle hsafe rfl)
    (always_true.mono fun _ l _ => by cases l <;> simp [Allowed]) hrun'
  obtain ⟨later, hlater, hall⟩ := hkeeps.outcomes
  refine ⟨hkeeps.world, fun outcome houtcome => ?_⟩
  rw [hlater] at houtcome
  exact hall outcome houtcome

def exePath : Path := "/bin/turboci".toList

def oldFiles : Path → Option (List UInt8) := fun path => if path = exePath then some [1] else none

/-- The first upgrade is killed while it writes, the second one succeeds. -/
def killedOnce : List (Label Choice) :=
  [.start, .answer (.release (some "v0.9.0".toList)), .answer (.content [7, 8]),
    .answer (.content (encode (sumsFile zeroSha release))), .answer .works, .answer .works,
    .answer .works,
    .start, .answer (.release (some "v0.9.0".toList)), .answer (.content [7, 8]),
    .answer (.content (encode (sumsFile zeroSha release))), .answer .works, .answer .works,
    .answer .works, .answer .works, .answer .works, .answer (.exits true), .answer .works]

set_option maxRecDepth 8000 in
theorem upgrade_safe_killedOnce :
    ∃ s, run (step zeroSha "0.8.0".toList (some "turboci-linux".toList) exePath)
        { world := { files := oldFiles } } killedOnce = some s ∧
      s.world.files exePath = some [7, 8] ∧
        Safe zeroSha "0.8.0".toList (some "turboci-linux".toList) exePath oldFiles s.world := by
  obtain ⟨s, hs, hexe⟩ :
      ∃ s, run (step zeroSha "0.8.0".toList (some "turboci-linux".toList) exePath)
        { world := { files := oldFiles } } killedOnce = some s ∧
        s.world.files exePath = some [7, 8] :=
    Option.map_eq_some_iff.mp (by decide)
  exact ⟨s, hs, hexe, (upgrade_safe zeroSha "0.8.0".toList (some "turboci-linux".toList) exePath
    (by decide) oldFiles killedOnce s hs).1⟩

end Upgrade

end TurboCi
