import TurboCi.Lib.ShellLex

set_option autoImplicit false

/-! # How a POSIX shell runs a script

Simple commands, `&&`, lists and `if`, read from the tokens of a script one at a time (`feed`),
and run under `set -e` (`exec`). A script with anything else is not read: other operators,
words that are split or matched against file names, and builtins that change the shell itself.

Which commands succeed is not known: `exec` takes any answer for each of them, which may depend
on all that ran before. Assignments succeed, and `[ x = y ]` compares. What ran is recorded with
its result (`State.trace`).
-/

namespace ShellRun

open ShellLex

/-! ## Words -/

def isNameStart (c : Char) : Bool := c.isAlpha || c = '_'

def isNameChar (c : Char) : Bool := c.isAlphanum || c = '_'

/-- Characters that a bare word is split or matched at. -/
def specials : List Char := ['$', '*', '?', '[', ']', '~']

/-- Nothing is expanded but parameters with a name, in double quotes. -/
def readable : Word → Bool
  | [] => true
  | (c, q) :: rest =>
      (match q with
        | .literal => true
        | .double => c ≠ '$' || rest.head?.any fun x => x.2 = .double && isNameStart x.1
        | .bare => !(specials.contains c)) && readable rest

/-- A word that stands for one argument. -/
def isArgument (w : Word) : Bool :=
  w = bareWord ['['] || w = bareWord [']'] || readable w

/-- The name and the value of an assignment. -/
def assignment (w : Word) : Option (List Char × Word) :=
  let name := w.takeWhile fun x => x.2 = .bare && isNameChar x.1
  match w.drop name.length with
  | ('=', .bare) :: value =>
      if name.head?.any fun x => isNameStart x.1 then some (name.map (·.1), value) else none
  | _ => none

/-- Where the expansion of a word is: in a parameter's name or not. -/
def expandWordFrom (vars : List Char → List Char) : Option (List Char) → Word → List Char
  | none, [] => []
  | some name, [] => vars name
  | none, (c, q) :: rest =>
      if c = '$' ∧ q ≠ .literal then expandWordFrom vars (some []) rest
      else c :: expandWordFrom vars none rest
  | some name, (c, q) :: rest =>
      if isNameChar c ∧ q ≠ .literal then expandWordFrom vars (some (name ++ [c])) rest
      else vars name ++
        if c = '$' ∧ q ≠ .literal then expandWordFrom vars (some []) rest
        else c :: expandWordFrom vars none rest

/-- The argument that a word stands for. -/
def expandWord (vars : List Char → List Char) (w : Word) : List Char := expandWordFrom vars none w

/-- Words that are read as a part of the grammar where a command may begin. -/
def reservedWords : List (List Char) :=
  ["if", "then", "else", "elif", "fi", "do", "done", "case", "esac", "while", "until", "for",
    "\x7b", "\x7d", "!"].map String.toList

/-- Builtins that change the shell itself. -/
def builtins : List (List Char) :=
  [".", ":", "alias", "bg", "break", "cd", "command", "continue", "eval", "exec", "exit", "export",
    "fg", "getopts", "hash", "jobs", "read", "readonly", "return", "set", "shift", "times", "trap",
    "ulimit", "umask", "unalias", "unset", "wait"].map String.toList

/-- A word that a simple command begins with. -/
def isFirstWord (w : Word) : Bool :=
  isArgument w && w.all (fun x => x.1 ≠ '$' || x.2 = .literal) &&
    !(reservedWords.any fun text => w = bareWord text) &&
    !(builtins.any fun text => w.map (·.1) = text)

/-! ## Scripts -/

inductive Cmd where
  | skip
  | simple (words : List Word)
  | and (left right : Cmd)
  | seq (first second : Cmd)
  /-- `other` is `skip` where there is no `else` -/
  | ite (cond body other : Cmd)
  deriving DecidableEq

/-- What has been read of a list of commands. -/
structure Line where
  before : Cmd := .skip
  /-- what `&&` joins with the command that is read -/
  left : Option Cmd := none
  current : Option Cmd := none
  deriving DecidableEq

/-- An `if` that has not ended, with the list around it. -/
inductive Frame where
  | cond (outer : Line)
  | body (outer : Line) (cond : Cmd)
  | other (outer : Line) (cond body : Cmd)
  deriving DecidableEq

structure Reader where
  stack : List Frame := []
  line : Line := {}
  deriving DecidableEq

def Line.joined (l : Line) (c : Cmd) : Cmd :=
  match l.left with
  | some left => .and left c
  | none => c

/-- The list ends here. -/
def Line.ended (l : Line) : Option Cmd :=
  match l.left, l.current with
  | none, none => some l.before
  | _, some c => some (.seq l.before (l.joined c))
  | some _, none => none

/-- A list of a compound command, which is not empty. -/
def Line.inner (l : Line) : Option Cmd :=
  if l.left = none ∧ l.current = none ∧ l.before ≠ .skip then some l.before else none

/-- A word where a command may begin. -/
def feedFirst (r : Reader) (w : Word) : Option Reader :=
  if w = bareWord "if".toList then some ⟨.cond r.line :: r.stack, {}⟩
  else if w = bareWord "then".toList then
    match r.stack with
    | .cond outer :: rest => r.line.inner.map fun cond => ⟨.body outer cond :: rest, {}⟩
    | _ => none
  else if w = bareWord "else".toList then
    match r.stack with
    | .body outer cond :: rest => r.line.inner.map fun body => ⟨.other outer cond body :: rest, {}⟩
    | _ => none
  else if w = bareWord "fi".toList then
    match r.stack with
    | .body outer cond :: rest =>
        r.line.inner.map fun body => ⟨rest, { outer with current := some (.ite cond body .skip) }⟩
    | .other outer cond body :: rest =>
        r.line.inner.map fun other => ⟨rest, { outer with current := some (.ite cond body other) }⟩
    | _ => none
  else if isFirstWord w then some { r with line := { r.line with current := some (.simple [w]) } }
  else none

/-- A word after the first of a simple command; after assignments only assignments are read. -/
def feedNext (r : Reader) (words : List Word) (w : Word) : Option Reader :=
  if isArgument w ∧ ((words.head?.bind assignment).isSome → (assignment w).isSome) then
    some { r with line := { r.line with current := some (.simple (words ++ [w])) } }
  else none

def feed (r : Reader) : Token → Option Reader
  | .word w =>
      match r.line.current with
      | none => feedFirst r w
      | some (.simple words) => feedNext r words w
      | some _ => none
  | .operator text =>
      match r.line.current with
      | some c =>
          if text = ";".toList ∨ text = ['\n'] then
            some { r with line := { before := .seq r.line.before (r.line.joined c) } }
          else if text = "&&".toList then
            some { r with line := { r.line with left := some (r.line.joined c), current := none } }
          else none
      | none => if text = ['\n'] then some r else none

def feedAll : Reader → List Token → Option Reader
  | r, [] => some r
  | r, t :: rest => (feed r t).bind fun r' => feedAll r' rest

/-- The commands of a script. -/
def parse (tokens : List Token) : Option Cmd :=
  (feedAll {} tokens).bind fun r => if r.stack = [] then r.line.ended else none

/-! ## Runs -/

structure State where
  /-- the shell's variables, empty where they are not set -/
  vars : List Char → List Char
  /-- the commands that ran, and whether they succeeded -/
  trace : List (List (List Char) × Bool)

/-- Whether a command succeeds, after what ran before. -/
abbrev Oracle := List (List (List Char) × Bool) → List (List Char) → Bool

inductive Outcome where
  /-- with the status of the last command -/
  | finished (ok : Bool) (s : State)
  /-- `set -e` ended the shell -/
  | exited (s : State)

def assign (vars : List Char → List Char) (w : Word) : List Char → List Char :=
  match assignment w with
  | some (name, value) => fun x => if x = name then expandWord vars value else vars x
  | none => vars

/-- `[ x = y ]` -/
def comparison : List (List Char) → Option Bool
  | [command, x, equals, y, close] =>
      if command = ['['] ∧ equals = ['='] ∧ close = [']'] then some (x = y) else none
  | _ => none

def runSimple (succeeds : Oracle) (words : List Word) (s : State) : Bool × State :=
  if (words.head?.bind assignment).isSome then (true, { s with vars := words.foldl assign s.vars })
  else
    let argv := words.map (expandWord s.vars)
    match comparison argv with
    | some equal => (equal, s)
    | none =>
        (succeeds s.trace argv, { s with trace := s.trace ++ [(argv, succeeds s.trace argv)] })

/-- Runs a command; where `checked`, a failure ends the shell. -/
def exec (succeeds : Oracle) : Cmd → Bool → State → Outcome
  | .skip, _, s => .finished true s
  | .simple words, checked, s =>
      let (ok, s') := runSimple succeeds words s
      if ok || !checked then .finished ok s' else .exited s'
  | .and left right, checked, s =>
      -- only the last command of the list is checked
      match exec succeeds left false s with
      | .finished true s' => exec succeeds right checked s'
      | other => other
  | .seq first second, checked, s =>
      match exec succeeds first checked s with
      | .finished _ s' => exec succeeds second checked s'
      | .exited s' => .exited s'
  | .ite cond body other, checked, s =>
      match exec succeeds cond false s with
      | .finished true s' => exec succeeds body checked s'
      | .finished false s' => exec succeeds other checked s'
      | .exited s' => .exited s'

/-! ## Reading in pieces -/

/-- The tokens take a reader from one state to another. -/
def Feeds (r : Reader) (tokens : List Token) (r' : Reader) : Prop := feedAll r tokens = some r'

theorem Feeds.nil {r : Reader} : Feeds r [] r := rfl

theorem Feeds.append {r r' r'' : Reader} {ts us : List Token} (ht : Feeds r ts r')
    (hu : Feeds r' us r'') : Feeds r (ts ++ us) r'' := by
  unfold Feeds at ht hu ⊢
  induction ts generalizing r with
  | nil =>
      obtain rfl := Option.some.inj ht
      exact hu
  | cons t ts ih =>
      rw [feedAll] at ht
      obtain ⟨r₁, hfeed, hrest⟩ := Option.bind_eq_some_iff.mp ht
      rw [List.cons_append, feedAll, hfeed]
      exact ih hrest

theorem Feeds.cons {r r' r'' : Reader} {t : Token} {ts : List Token} (ht : feed r t = some r')
    (hts : Feeds r' ts r'') : Feeds r (t :: ts) r'' := by
  unfold Feeds
  rw [feedAll, ht]
  exact hts

/-- What a script is read as. -/
theorem Feeds.parse {tokens : List Token} {l : Line} {script : Cmd} (h : Feeds {} tokens ⟨[], l⟩)
    (hl : l.ended = some script) : parse tokens = some script := by
  unfold ShellRun.parse
  rw [h]
  exact hl

/-- A reader where a command may begin. -/
def Reader.at (stack : List Frame) (before : Cmd) (left : Option Cmd) (current : Option Cmd) :
    Reader := ⟨stack, ⟨before, left, current⟩⟩

/-- The words of a simple command that is no assignment. -/
structure IsSimple (words : List Word) : Prop where
  first : ∃ w rest, words = w :: rest ∧ isFirstWord w = true ∧ assignment w = none
  arguments : ∀ w ∈ words, isArgument w = true

theorem feedFirst_of_isFirstWord {r : Reader} {w : Word} (h : isFirstWord w = true) :
    feedFirst r w = some { r with line := { r.line with current := some (.simple [w]) } } := by
  have hno : ∀ text ∈ reservedWords, w ≠ bareWord text := by
    rintro text hmem rfl
    have hany : (reservedWords.any fun t => bareWord text = bareWord t) = true :=
      List.any_eq_true.mpr ⟨text, hmem, decide_eq_true rfl⟩
    simp [isFirstWord, hany] at h
  unfold feedFirst
  rw [if_neg (hno _ (by decide)), if_neg (hno _ (by decide)), if_neg (hno _ (by decide)),
    if_neg (hno _ (by decide)), if_pos h]

/-- The words of a simple command are read together. -/
theorem feeds_simple (stack : List Frame) (before : Cmd) (left : Option Cmd) {words : List Word}
    (h : IsSimple words) :
    Feeds (.at stack before left none) (words.map .word)
      (.at stack before left (some (.simple words))) := by
  obtain ⟨w, rest, rfl, hfirst, hassign⟩ := h.first
  -- the words that were read, one more with each step
  have hmore : ∀ (rest read : List Word), read.head? = some w →
      (∀ x ∈ rest, isArgument x = true) →
      Feeds (.at stack before left (some (.simple read))) (rest.map .word)
        (.at stack before left (some (.simple (read ++ rest)))) := by
    intro rest
    induction rest with
    | nil =>
        intro read _ _
        rw [List.append_nil]
        exact Feeds.nil
    | cons x rest ih =>
        intro read hread hargs
        have hstep : feed (.at stack before left (some (.simple read))) (.word x) =
            some (.at stack before left (some (.simple (read ++ [x])))) := by
          show feedNext _ read x = _
          unfold feedNext
          rw [if_pos ⟨hargs x List.mem_cons_self, by simp [hread, hassign]⟩]
          rfl
        have hrest := ih (read ++ [x]) (by rw [List.head?_append, hread]; rfl)
          fun y hy => hargs y (List.mem_cons_of_mem x hy)
        rw [List.append_assoc] at hrest
        exact Feeds.cons hstep hrest
  have hone : feed (.at stack before left none) (.word w) =
      some (.at stack before left (some (.simple [w]))) := feedFirst_of_isFirstWord hfirst
  exact Feeds.cons hone
    (hmore rest [w] rfl fun x hx => h.arguments x (List.mem_cons_of_mem w hx))

/-! ## Reserved words and operators -/

section Steps

variable {stack : List Frame} {outer : Line} {before cond body : Cmd} {left : Option Cmd}

theorem inner_at (h : before ≠ .skip) : (Line.mk before none none).inner = some before :=
  if_pos ⟨rfl, rfl, h⟩

theorem feed_if : feed (.at stack before left none) (.word (bareWord "if".toList)) =
    some (.at (.cond ⟨before, left, none⟩ :: stack) .skip none none) := rfl

theorem feed_then (h : cond ≠ .skip) :
    feed (.at (.cond outer :: stack) cond none none) (.word (bareWord "then".toList)) =
      some (.at (.body outer cond :: stack) .skip none none) := by
  show (Line.mk cond none none).inner.map _ = _
  rw [inner_at h]
  rfl

theorem feed_else (h : body ≠ .skip) :
    feed (.at (.body outer cond :: stack) body none none) (.word (bareWord "else".toList)) =
      some (.at (.other outer cond body :: stack) .skip none none) := by
  show (Line.mk body none none).inner.map _ = _
  rw [inner_at h]
  rfl

/-- An `if` without an `else` ends. -/
theorem feed_fi (h : body ≠ .skip) :
    feed (.at (.body outer cond :: stack) body none none) (.word (bareWord "fi".toList)) =
      some (.at stack outer.before outer.left (some (.ite cond body .skip))) := by
  show (Line.mk body none none).inner.map _ = _
  rw [inner_at h]
  rfl

/-- An `if` with an `else` ends. -/
theorem feed_fi_else {other : Cmd} (h : other ≠ .skip) :
    feed (.at (.other outer cond body :: stack) other none none) (.word (bareWord "fi".toList)) =
      some (.at stack outer.before outer.left (some (.ite cond body other))) := by
  show (Line.mk other none none).inner.map _ = _
  rw [inner_at h]
  rfl

/-- `;` and a newline end a command. -/
theorem feed_end {c : Cmd} {text : List Char} (h : text = ";".toList ∨ text = ['\n']) :
    feed (.at stack before left (some c)) (.operator text) =
      some (.at stack (.seq before ((Line.mk before left (some c)).joined c)) none none) :=
  if_pos h

theorem feed_and {c : Cmd} : feed (.at stack before left (some c)) (.operator "&&".toList) =
    some (.at stack before (some ((Line.mk before left (some c)).joined c)) none) := rfl

/-- A newline where a command may begin. -/
theorem feed_blank : feed (.at stack before left none) (.operator ['\n']) =
    some (.at stack before left none) := rfl

end Steps

/-! ## Quoted commands -/

/-- The command with the given arguments. -/
def quotedCmd (argv : List (List Char)) : Cmd := .simple (argv.map literalWord)

/-- Arguments that are a command: a program, and not `[`. -/
def IsProgram (argv : List (List Char)) : Prop :=
  ∃ program args, argv = program :: args ∧ program ∉ builtins ∧ program ≠ ['[']

theorem readable_literalWord (text : List Char) : readable (literalWord text) = true := by
  induction text with
  | nil => rfl
  | cons c text ih => exact ih

theorem literalWord_ne_bareWord {text word : List Char} (h : word ≠ []) :
    literalWord text ≠ bareWord word := by
  cases word with
  | nil => exact absurd rfl h
  | cons c word =>
      cases text with
      | nil => exact fun heq => by cases heq
      | cons d text => exact fun heq => by cases (Prod.mk.inj (List.cons.inj heq).1).2

theorem assignment_literalWord (text : List Char) : assignment (literalWord text) = none := by
  cases text with
  | nil => rfl
  | cons c text =>
      have hname : (literalWord (c :: text)).takeWhile
          (fun x => x.2 = .bare && isNameChar x.1) = [] := rfl
      unfold assignment
      rw [hname]
      show (match (c, Quoting.literal) :: literalWord text with
        | ('=', .bare) :: value => _
        | _ => none) = none
      split
      · next heq => cases (Prod.mk.inj (List.cons.inj heq).1).2
      · rfl

theorem isSimple_quoted {argv : List (List Char)} (h : IsProgram argv) :
    IsSimple (argv.map literalWord) := by
  obtain ⟨program, args, rfl, hbuiltin, -⟩ := h
  have hargument : ∀ text, isArgument (literalWord text) = true := by
    intro text
    rw [isArgument, readable_literalWord, Bool.or_true]
  constructor
  · refine ⟨literalWord program, args.map literalWord, rfl, ?_, assignment_literalWord program⟩
    have hchars : (literalWord program).all (fun x => x.1 ≠ '$' || x.2 = .literal) = true := by
      apply List.all_eq_true.mpr
      intro x hx
      obtain ⟨c, -, rfl⟩ := List.mem_map.mp hx
      simp
    have hreserved : (reservedWords.any fun text => literalWord program = bareWord text) =
        false := by
      apply List.any_eq_false.mpr
      intro text hmem
      have hne : text ≠ [] := by
        revert text
        decide
      simpa using literalWord_ne_bareWord hne
    have hother : (builtins.any fun text => (literalWord program).map (·.1) = text) = false := by
      apply List.any_eq_false.mpr
      intro text hmem
      have htext : (literalWord program).map (·.1) = program := by
        rw [literalWord, List.map_map]
        exact List.map_id program
      rw [htext]
      simp only [decide_eq_true_eq]
      rintro rfl
      exact hbuiltin hmem
    rw [isFirstWord, hargument, hchars, hreserved, hother]
    rfl
  · intro w hw
    obtain ⟨text, -, rfl⟩ := List.mem_map.mp hw
    exact hargument text

/-- A list of commands, after others. -/
def sequence (before : Cmd) (commands : List (List (List Char))) : Cmd :=
  commands.foldl (fun before argv => .seq before (quotedCmd argv)) before

/-- Commands joined by `&&`, after others. -/
def conjunction (left : Cmd) (commands : List (List (List Char))) : Cmd :=
  commands.foldl (fun left argv => .and left (quotedCmd argv)) left

theorem feeds_quoted {stack : List Frame} {before : Cmd} {left : Option Cmd}
    {argv : List (List Char)} (h : IsProgram argv) :
    Feeds (.at stack before left none) (literals argv)
      (.at stack before left (some (quotedCmd argv))) := by
  have hwords : literals argv = (argv.map literalWord).map .word := by
    unfold literals
    rw [List.map_map]
    rfl
  rw [hwords]
  exact feeds_simple stack before left (isSimple_quoted h)

/-- Lines of quoted commands are a list. -/
theorem feeds_lines (stack : List Frame) {commands : List (List (List Char))}
    (h : ∀ argv ∈ commands, IsProgram argv) : ∀ before : Cmd,
    Feeds (.at stack before none none) (commands.flatMap fun argv => literals argv ++ [newline])
      (.at stack (sequence before commands) none none) := by
  induction commands with
  | nil => exact fun _ => Feeds.nil
  | cons argv rest ih =>
      intro before
      have hrest := ih (fun x hx => h x (List.mem_cons_of_mem argv hx))
        (.seq before (quotedCmd argv))
      have hline : Feeds (.at stack before none (some (quotedCmd argv))) [newline]
          (.at stack (.seq before (quotedCmd argv)) none none) := rfl
      exact ((feeds_quoted (h argv List.mem_cons_self)).append hline).append hrest

/-- Quoted commands that are joined, up to the last one. -/
theorem feeds_joined (stack : List Frame) (before : Cmd) {commands : List (List (List Char))} :
    ∀ {argv : List (List Char)}, (∀ x ∈ argv :: commands, IsProgram x) → ∀ left : Option Cmd,
    ∃ left' last,
      Feeds (.at stack before left none)
        ([Token.operator "&&".toList].intercalate ((argv :: commands).map literals))
        (.at stack before left' (some last)) ∧
      (Line.mk before left' (some last)).joined last =
        conjunction ((Line.mk before left (some (quotedCmd argv))).joined (quotedCmd argv))
          commands := by
  induction commands with
  | nil =>
      intro argv h left
      refine ⟨left, quotedCmd argv, ?_, rfl⟩
      rw [List.map_cons, List.map_nil, List.intercalate_singleton]
      exact feeds_quoted (h argv List.mem_cons_self)
  | cons argv' rest ih =>
      intro argv h left
      obtain ⟨left', last, hfeeds, hjoined⟩ := ih
        (fun x hx => h x (List.mem_cons_of_mem argv hx))
        (some ((Line.mk before left (some (quotedCmd argv))).joined (quotedCmd argv)))
      refine ⟨left', last, ?_, hjoined⟩
      have hand : Feeds (.at stack before left (some (quotedCmd argv)))
          [.operator "&&".toList]
          (.at stack before
            (some ((Line.mk before left (some (quotedCmd argv))).joined (quotedCmd argv))) none) :=
        rfl
      rw [List.map_cons, List.map_cons, List.intercalate_cons_cons]
      exact ((feeds_quoted (h argv List.mem_cons_self)).append hand).append hfeeds

/-! ## Runs of quoted commands -/

section Runs

variable {succeeds : Oracle}

theorem expandWordFrom_literalWord (vars : List Char → List Char) (text : List Char) :
    expandWordFrom vars none (literalWord text) = text := by
  induction text with
  | nil => rfl
  | cons c text ih =>
      show expandWordFrom vars none ((c, .literal) :: literalWord text) = c :: text
      rw [expandWordFrom, if_neg (fun h => h.2 rfl), ih]

theorem runSimple_quoted {argv : List (List Char)} (h : IsProgram argv) (s : State) :
    runSimple succeeds (argv.map literalWord) s =
      (succeeds s.trace argv, { s with trace := s.trace ++ [(argv, succeeds s.trace argv)] }) := by
  obtain ⟨program, args, rfl, -, hbracket⟩ := h
  have hassign : (((program :: args).map literalWord).head?.bind assignment).isSome = false := by
    rw [List.map_cons, List.head?_cons, Option.bind_some, assignment_literalWord]
    rfl
  have hargv : ((program :: args).map literalWord).map (expandWord s.vars) = program :: args := by
    rw [List.map_map]
    refine (List.map_congr_left fun text _ => ?_).trans (List.map_id _)
    exact expandWordFrom_literalWord s.vars text
  have hcomparison : comparison (program :: args) = none := by
    unfold comparison
    split
    · next heq =>
        obtain ⟨rfl, -⟩ := List.cons.inj heq
        rw [if_neg (fun h => hbracket h.1)]
    · rfl
  unfold runSimple
  rw [hassign, if_neg Bool.false_ne_true]
  dsimp only
  rw [hargv, hcomparison]

/-- The commands ran one after the other and succeeded. -/
def allRan (commands : List (List (List Char))) : List (List (List Char) × Bool) :=
  commands.map fun argv => (argv, true)

/-- A list that finishes under `set -e` has run all its commands, and they succeeded. -/
theorem exec_sequence {commands : List (List (List Char))}
    (h : ∀ argv ∈ commands, IsProgram argv) : ∀ {before : Cmd} {s s' : State} {ok : Bool},
    exec succeeds (sequence before commands) true s = .finished ok s' →
    ∃ ok₁ s₁, exec succeeds before true s = .finished ok₁ s₁ ∧ s'.vars = s₁.vars ∧
      s'.trace = s₁.trace ++ allRan commands := by
  induction commands with
  | nil =>
      intro before s s' ok hexec
      exact ⟨ok, s', hexec, rfl, (List.append_nil _).symm⟩
  | cons argv rest ih =>
      intro before s s' ok hexec
      obtain ⟨ok₂, s₂, hfirst, hvars, htrace⟩ :=
        ih (fun x hx => h x (List.mem_cons_of_mem argv hx)) hexec
      rw [exec] at hfirst
      split at hfirst
      · next ok₁ s₁ hbefore =>
          rw [quotedCmd, exec, runSimple_quoted (h argv List.mem_cons_self)] at hfirst
          dsimp only at hfirst
          cases hsucceeds : succeeds s₁.trace argv with
          | false =>
              rw [hsucceeds] at hfirst
              cases hfirst
          | true =>
              rw [hsucceeds] at hfirst
              obtain ⟨-, rfl⟩ := Outcome.finished.inj hfirst
              refine ⟨ok₁, s₁, hbefore, hvars, ?_⟩
              rw [htrace, List.append_assoc]
              rfl
      · cases hfirst

/-- A list of commands that all succeed finishes. -/
theorem exec_sequence_succeeds {commands : List (List (List Char))}
    (h : ∀ argv ∈ commands, IsProgram argv)
    (hall : ∀ argv ∈ commands, ∀ trace, succeeds trace argv = true) :
    ∀ {before : Cmd} {s s₁ : State}, exec succeeds before true s = .finished true s₁ →
      ∃ s', exec succeeds (sequence before commands) true s = .finished true s' := by
  induction commands with
  | nil => exact fun hbefore => ⟨_, hbefore⟩
  | cons argv rest ih =>
      intro before s s₁ hbefore
      have hfirst : exec succeeds (.seq before (quotedCmd argv)) true s =
          .finished true { s₁ with trace := s₁.trace ++ [(argv, true)] } := by
        rw [exec, hbefore]
        dsimp only
        rw [quotedCmd, exec, runSimple_quoted (h argv List.mem_cons_self),
          hall argv List.mem_cons_self]
        rfl
      exact ih (fun x hx => h x (List.mem_cons_of_mem argv hx))
        (fun x hx => hall x (List.mem_cons_of_mem argv hx)) hfirst

/-- Joined commands in a condition finish; they succeed if all of them do, in order. -/
theorem exec_conjunction {commands : List (List (List Char))}
    (h : ∀ argv ∈ commands, IsProgram argv) : ∀ {left : Cmd} {s s₁ : State} {ok₁ : Bool},
    exec succeeds left false s = .finished ok₁ s₁ →
    ∃ ok s' ran, exec succeeds (conjunction left commands) false s = .finished ok s' ∧
      s'.vars = s₁.vars ∧ s'.trace = s₁.trace ++ ran ∧
      (ok = true → ok₁ = true ∧ ran = allRan commands) := by
  induction commands with
  | nil =>
      intro left s s₁ ok₁ hleft
      exact ⟨ok₁, s₁, [], hleft, rfl, (List.append_nil _).symm, fun hok => ⟨hok, rfl⟩⟩
  | cons argv rest ih =>
      intro left s s₁ ok₁ hleft
      have hrest := fun x hx => h x (List.mem_cons_of_mem argv hx)
      cases ok₁ with
      | false =>
          have hand : exec succeeds (.and left (quotedCmd argv)) false s = .finished false s₁ := by
            rw [exec, hleft]
          obtain ⟨ok, s', ran, hexec, hvars, htrace, hok⟩ := ih hrest hand
          exact ⟨ok, s', ran, hexec, hvars, htrace, fun h => absurd (hok h).1 Bool.false_ne_true⟩
      | true =>
          have hand : exec succeeds (.and left (quotedCmd argv)) false s =
              .finished (succeeds s₁.trace argv)
                { s₁ with trace := s₁.trace ++ [(argv, succeeds s₁.trace argv)] } := by
            rw [exec, hleft]
            dsimp only
            rw [quotedCmd, exec, runSimple_quoted (h argv List.mem_cons_self)]
            simp only [Bool.not_false, Bool.or_true, if_true]
          obtain ⟨ok, s', ran, hexec, hvars, htrace, hok⟩ := ih hrest hand
          refine ⟨ok, s', (argv, succeeds s₁.trace argv) :: ran, hexec, hvars, ?_, ?_⟩
          · rw [htrace, List.append_assoc, List.singleton_append]
          · intro h
            obtain ⟨hone, hran⟩ := hok h
            refine ⟨rfl, ?_⟩
            rw [hone, hran]
            rfl

/-! ## Commands that assign nothing -/

/-- Some simple command is an assignment. -/
def Cmd.assigns : Cmd → Bool
  | .skip => false
  | .simple words => (words.head?.bind assignment).isSome
  | .and left right => left.assigns || right.assigns
  | .seq first second => first.assigns || second.assigns
  | .ite cond body other => cond.assigns || body.assigns || other.assigns

/-- The variables are as they were, and more has run. -/
structure Extends (s s' : State) : Prop where
  vars : s'.vars = s.vars
  trace : s.trace <+: s'.trace

theorem Extends.refl (s : State) : Extends s s := ⟨rfl, List.prefix_refl _⟩

theorem Extends.trans {s s' s'' : State} (h : Extends s s') (h' : Extends s' s'') :
    Extends s s'' := ⟨h'.vars.trans h.vars, h.trace.trans h'.trace⟩

theorem extends_runSimple (succeeds : Oracle) {words : List Word}
    (h : (Cmd.simple words).assigns = false) (s : State) :
    Extends s (runSimple succeeds words s).2 := by
  have hassign : (words.head?.bind assignment).isSome = false := h
  unfold runSimple
  rw [hassign, if_neg Bool.false_ne_true]
  dsimp only
  split
  · exact Extends.refl s
  · exact ⟨rfl, List.prefix_append _ _⟩

/-- **What assigns nothing leaves the variables as they are.** -/
theorem extends_exec {c : Cmd} : ∀ {checked : Bool} {s s' : State} {ok : Bool},
    c.assigns = false → exec succeeds c checked s = .finished ok s' → Extends s s' := by
  induction c with
  | skip =>
      intro checked s s' ok _ h
      obtain ⟨-, rfl⟩ := Outcome.finished.inj h
      exact Extends.refl s
  | simple words =>
      intro checked s s' ok hassigns h
      have hextends := extends_runSimple succeeds hassigns s
      rw [exec] at h
      dsimp only at h
      split at h
      · obtain ⟨-, rfl⟩ := Outcome.finished.inj h
        exact hextends
      · cases h
  | and left right ihl ihr =>
      intro checked s s' ok hassigns h
      obtain ⟨hl, hr⟩ := Bool.or_eq_false_iff.mp hassigns
      rw [exec] at h
      split at h
      · next s₁ hleft => exact (ihl hl hleft).trans (ihr hr h)
      · exact ihl hl h
  | seq first second ihf ihs =>
      intro checked s s' ok hassigns h
      obtain ⟨hf, hs⟩ := Bool.or_eq_false_iff.mp hassigns
      rw [exec] at h
      split at h
      · next ok₁ s₁ hfirst => exact (ihf hf hfirst).trans (ihs hs h)
      · cases h
  | ite cond body other ihc ihb iho =>
      intro checked s s' ok hassigns h
      obtain ⟨hcb, ho⟩ := Bool.or_eq_false_iff.mp hassigns
      obtain ⟨hc, hb⟩ := Bool.or_eq_false_iff.mp hcb
      rw [exec] at h
      split at h
      · next s₁ hcond => exact (ihc hc hcond).trans (ihb hb h)
      · next s₁ hcond => exact (ihc hc hcond).trans (iho ho h)
      · cases h

end Runs

end ShellRun
