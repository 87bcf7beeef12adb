import Mathlib.Data.List.Basic
import Mathlib.Tactic

set_option autoImplicit false

/-! # How a POSIX shell reads a text

Token recognition of a POSIX shell, one character at a time: blanks and operators end a word,
and every character of a word is kept with the way it is quoted. A `literal` character, from
single quotes or after a backslash, stands for itself; of the others the shell may recognise
reserved words, patterns, parameters and so on. Command and parameter expansions in braces or
parentheses and here-documents, whose ends are found by other rules, are not read (`none`). A
text has no NUL, which no shell can be given.

A text is read piece by piece (`Reads.append`), and a text in single quotes is a part of a word
with literal characters only (`reads_quoted`).
-/

namespace ShellLex

inductive Quoting where
  | bare
  /-- in double quotes, where `$` keeps its meaning -/
  | double
  | literal
  deriving DecidableEq

/-- A word, its quotes removed. -/
abbrev Word := List (Char × Quoting)

inductive Token where
  | word (w : Word)
  | operator (text : List Char)
  deriving DecidableEq

def newline : Token := .operator ['\n']

/-- Where the reader is. -/
inductive Mode where
  /-- between tokens -/
  | blank
  | operator (text : List Char)
  | word (w : Word)
  /-- after a backslash outside quotes, in a word if there is one -/
  | escaped (w : Option Word)
  | single (w : Word)
  | double (w : Word)
  | doubleEscaped (w : Word)
  | comment
  deriving DecidableEq

/-- The operators, without those of here-documents. -/
def operators : List (List Char) :=
  ["&", "|", ";", "<", ">", "(", ")", "&&", "||", ";;", "<&", ">&", "<>", ">>", ">|"].map
    String.toList

def isOperator (text : List Char) : Bool := operators.any (· = text)

/-- The character would go on an expansion that the word ends with. -/
def opensExpansion (w : Word) (c : Char) : Bool :=
  (c = '(' || c = '{') &&
    match w.getLast? with
    | some ('$', .bare) | some ('$', .double) => true
    | _ => false

/-- The word that is ended, if one was begun. -/
def ended : Option Word → List Token
  | none => []
  | some w => [.word w]

/-- A character outside quotes, in a word if one was begun. -/
def outside (w : Option Word) (c : Char) : Option (List Token × Mode) :=
  if c = '\'' then some ([], .single (w.getD []))
  else if c = '"' then some ([], .double (w.getD []))
  else if c = '\\' then some ([], .escaped w)
  else if c = '\x60' || opensExpansion (w.getD []) c then none
  else if c = ' ' || c = '\t' then some (ended w, .blank)
  else if c = '\n' then some (ended w ++ [newline], .blank)
  else if c = '#' && w.isNone then some ([], .comment)
  else if isOperator [c] then some (ended w, .operator [c])
  else some ([], .word (w.getD [] ++ [(c, .bare)]))

def step : Mode → Char → Option (List Token × Mode)
  | .blank, c => outside none c
  | .word w, c => outside (some w) c
  | .operator text, c =>
      if isOperator (text ++ [c]) then some ([], .operator (text ++ [c]))
      else if text = ['<'] && c = '<' then none
      else (outside none c).map fun x => (.operator text :: x.1, x.2)
  | .escaped w, c =>
      -- an escaped newline is removed
      if c = '\n' then some ([], match w with
        | none => .blank
        | some w => .word w)
      else some ([], .word (w.getD [] ++ [(c, .literal)]))
  | .single w, c =>
      if c = '\'' then some ([], .word w) else some ([], .single (w ++ [(c, .literal)]))
  | .double w, c =>
      if c = '"' then some ([], .word w)
      else if c = '\\' then some ([], .doubleEscaped w)
      else if c = '\x60' || opensExpansion w c then none
      else some ([], .double (w ++ [(c, .double)]))
  | .doubleEscaped w, c =>
      if c = '$' || c = '\x60' || c = '"' || c = '\\' then some ([], .double (w ++ [(c, .literal)]))
      else if c = '\n' then some ([], .double w)
      else some ([], .double (w ++ [('\\', .literal), (c, .literal)]))
  | .comment, c => if c = '\n' then some ([newline], .blank) else some ([], .comment)

/-- Reads a text from a mode on: the tokens that end in it, and the mode after it. -/
def run : Mode → List Char → Option (List Token × Mode)
  | m, [] => some ([], m)
  | m, c :: rest =>
      match step m c with
      | none => none
      | some (tokens, m') => (run m' rest).map fun x => (tokens ++ x.1, x.2)

/-- The token that ends with the text; quotes must be closed. -/
def finish : Mode → Option (List Token)
  | .blank | .comment => some []
  | .operator text => some [.operator text]
  | .word w => some [.word w]
  | .escaped _ | .single _ | .double _ | .doubleEscaped _ => none

/-- The tokens of a text. -/
def lex (text : List Char) : Option (List Token) :=
  match run .blank text with
  | none => none
  | some (tokens, m) => (finish m).map (tokens ++ ·)

/-- The tokens of each line. -/
def lines : List Token → List (List Token)
  | [] => []
  | t :: rest =>
      if t = newline then [] :: lines rest
      else
        match lines rest with
        | [] => [[t]]
        | line :: more => (t :: line) :: more

/-! ## Reading in pieces -/

/-- The text is read, from one mode to another. -/
def Reads (m : Mode) (text : List Char) (tokens : List Token) (m' : Mode) : Prop :=
  run m text = some (tokens, m')

theorem Reads.nil {m : Mode} : Reads m [] [] m := rfl

theorem Reads.append {m m' m'' : Mode} {s t : List Char} {ts us : List Token}
    (hs : Reads m s ts m') (ht : Reads m' t us m'') : Reads m (s ++ t) (ts ++ us) m'' := by
  unfold Reads at hs ht ⊢
  induction s generalizing m ts with
  | nil =>
      obtain ⟨rfl, rfl⟩ := Prod.mk.inj (Option.some.inj hs)
      exact ht
  | cons c s ih =>
      rw [List.cons_append]
      rw [run] at hs ⊢
      cases hstep : step m c with
      | none =>
          rw [hstep] at hs
          cases hs
      | some x =>
          obtain ⟨tokens, m₁⟩ := x
          rw [hstep] at hs
          obtain ⟨y, hy, heq⟩ := Option.map_eq_some_iff.mp hs
          obtain ⟨rfl, rfl⟩ := Prod.mk.inj heq
          simp only [ih hy, Option.map_some, List.append_assoc]

theorem Reads.lex {text : List Char} {tokens last : List Token} {m : Mode}
    (h : Reads .blank text tokens m) (hm : finish m = some last) :
    lex text = some (tokens ++ last) := by
  unfold ShellLex.lex
  rw [h]
  simp only [hm, Option.map_some]

/-- What comes after a blank is read by itself. -/
theorem Reads.lex_append {s t : List Char} {tokens more : List Token}
    (hs : Reads .blank s tokens .blank) (ht : ShellLex.lex t = some more) :
    ShellLex.lex (s ++ t) = some (tokens ++ more) := by
  unfold ShellLex.lex at ht
  cases hrun : run .blank t with
  | none =>
      rw [hrun] at ht
      cases ht
  | some x =>
      obtain ⟨ts, m⟩ := x
      rw [hrun] at ht
      obtain ⟨last, hlast, rfl⟩ := Option.map_eq_some_iff.mp ht
      rw [(hs.append hrun).lex hlast, List.append_assoc]

/-! ## Quoted text -/

/-- A word whose characters stand for themselves. -/
def literalWord (text : List Char) : Word := text.map fun c => (c, .literal)

def bareWord (text : List Char) : Word := text.map fun c => (c, .bare)

/-- The text in single quotes; a quote in it is written after a backslash, between two parts. -/
def quoted (text : List Char) : List Char :=
  '\'' :: (text.flatMap (fun c => if c = '\'' then "'\\''".toList else [c]) ++ ['\''])

theorem reads_in_quotes (text : List Char) : ∀ w : Word,
    Reads (.single w) (text.flatMap fun c => if c = '\'' then "'\\''".toList else [c]) []
      (.single (w ++ literalWord text)) := by
  induction text with
  | nil =>
      intro w
      rw [literalWord, List.map_nil, List.append_nil]
      exact Reads.nil
  | cons c text ih =>
      intro w
      have hone : Reads (.single w) (if c = '\'' then "'\\''".toList else [c]) []
          (.single (w ++ [(c, .literal)])) := by
        by_cases hc : c = '\''
        · -- the quotes are closed, a quote is escaped, and they are opened again
          subst hc
          rfl
        · rw [if_neg hc]
          show run _ _ = _
          simp only [run, step, if_neg hc, Option.map_some, List.append_nil]
      have hrest := ih (w ++ [(c, .literal)])
      have hword : w ++ [(c, Quoting.literal)] ++ literalWord text = w ++ literalWord (c :: text) :=
        List.append_assoc _ _ _
      rw [hword] at hrest
      exact hone.append hrest

theorem reads_quoted (text : List Char) :
    Reads .blank (quoted text) [] (.word (literalWord text)) := by
  have hopen : Reads .blank ['\''] [] (.single []) := rfl
  have hclose : Reads (.single (literalWord text)) ['\''] [] (.word (literalWord text)) := rfl
  exact (hopen.append (reads_in_quotes text [])).append hclose

/-- The character is a part of any word, as it is. -/
def isPlain (c : Char) : Bool :=
  !(c = '\'' || c = '"' || c = '\\' || c = '\x60' || c = '(' || c = '{' || c = ' ' || c = '\t' ||
    c = '\n' || isOperator [c])

/-- Plain characters go on a word. -/
theorem reads_plain {text : List Char} (h : text.all isPlain = true) : ∀ w : Word,
    Reads (.word w) text [] (.word (w ++ bareWord text)) := by
  induction text with
  | nil =>
      intro w
      rw [bareWord, List.map_nil, List.append_nil]
      exact Reads.nil
  | cons c text ih =>
      intro w
      obtain ⟨hc, htext⟩ := List.all_cons ▸ h |> Bool.and_eq_true_iff.mp
      have hstep : step (.word w) c = some ([], .word (w ++ [(c, .bare)])) := by
        simp only [isPlain, Bool.not_eq_true', Bool.or_eq_false_iff, decide_eq_false_iff_not] at hc
        simp [step, outside, opensExpansion, hc]
      have hone : Reads (.word w) [c] [] (.word (w ++ [(c, .bare)])) := by
        unfold Reads
        simp only [run, hstep, Option.map_some, List.append_nil]
      have hword : w ++ [(c, Quoting.bare)] ++ bareWord text = w ++ bareWord (c :: text) :=
        List.append_assoc _ _ _
      have hrest := ih htext (w ++ [(c, .bare)])
      rw [hword] at hrest
      exact hone.append hrest

/-- Quoted texts with blanks between them. -/
def quotedLine : List (List Char) → List Char
  | [] => []
  | [text] => quoted text
  | text :: rest => quoted text ++ ' ' :: quotedLine rest

theorem quotedLine_cons_cons (t t' : List Char) (rest : List (List Char)) :
    quotedLine (t :: t' :: rest) = quoted t ++ [' '] ++ quotedLine (t' :: rest) := by
  rw [quotedLine, List.append_assoc, List.singleton_append]
  exact List.cons_ne_nil t' rest

/-- The words of texts that stand for themselves. -/
def literals (texts : List (List Char)) : List Token :=
  texts.map fun text => .word (literalWord text)

/-- A delimiter and what may follow it, after a word or none. -/
structure Delimits (text : List Char) (tokens : List Token) (m : Mode) : Prop where
  blank : Reads .blank text tokens m
  word : ∀ w, Reads (.word w) text (.word w :: tokens) m

/-- A text delimits whose first character ends a word and is then read as after a blank. -/
theorem delimits_of_first {c : Char} {text : List Char} {tokens : List Token} {m : Mode}
    (hhead : text.head? = some c)
    (hc : ∀ w, step (.word w) c = (step .blank c).map fun x => (.word w :: x.1, x.2))
    (h : Reads .blank text tokens m) : Delimits text tokens m := by
  refine ⟨h, fun w => ?_⟩
  obtain ⟨rest, rfl⟩ := List.head?_eq_some_iff.mp hhead
  unfold Reads at h ⊢
  rw [run] at h ⊢
  rw [hc w]
  cases hstep : step .blank c with
  | none =>
      rw [hstep] at h
      cases h
  | some x =>
      rw [hstep] at h
      obtain ⟨y, hy, heq⟩ := Option.map_eq_some_iff.mp h
      obtain ⟨rfl, rfl⟩ := Prod.mk.inj heq
      simp only [Option.map_some, hy, List.cons_append]

theorem delimits_blank : Delimits [' '] [] .blank := ⟨rfl, fun _ => rfl⟩

theorem delimits_newline : Delimits ['\n'] [newline] .blank := ⟨rfl, fun _ => rfl⟩

/-- A line of quoted texts ends at a delimiter. -/
theorem reads_quotedLine (texts : List (List Char)) {text : List Char} {tokens : List Token}
    {m : Mode} (h : Delimits text tokens m) :
    Reads .blank (quotedLine texts ++ text) (literals texts ++ tokens) m := by
  induction texts with
  | nil => exact h.blank
  | cons t rest ih =>
      cases rest with
      | nil => exact (reads_quoted t).append (h.word (literalWord t))
      | cons t' rest =>
          rw [quotedLine_cons_cons, List.append_assoc, List.append_assoc]
          exact (reads_quoted t).append ((delimits_blank.word (literalWord t)).append ih)

/-- Lines of quoted texts between delimiters. -/
theorem reads_intercalate (lines : List (List (List Char))) {sep text : List Char}
    {septokens tokens : List Token} {m : Mode} (hsep : Delimits sep septokens .blank)
    (h : Delimits text tokens m) :
    Reads .blank (sep.intercalate (lines.map quotedLine) ++ text)
      (septokens.intercalate (lines.map literals) ++ tokens) m := by
  induction lines with
  | nil => exact h.blank
  | cons line rest ih =>
      cases rest with
      | nil =>
          simp only [List.map_cons, List.map_nil, List.intercalate_singleton]
          exact reads_quotedLine line h
      | cons line' rest =>
          simp only [List.map_cons, List.intercalate_cons_cons, List.append_assoc] at ih ⊢
          rw [← List.append_assoc, ← List.append_assoc (literals line)]
          exact (reads_quotedLine line hsep).append ih

/-- **A line of quoted texts is read as these texts**, whatever is in them. -/
theorem lex_quotedLine (texts : List (List Char)) :
    lex (quotedLine texts) = some (literals texts) := by
  induction texts with
  | nil => rfl
  | cons t rest ih =>
      cases rest with
      | nil => exact (reads_quoted t).lex rfl
      | cons t' rest =>
          rw [quotedLine_cons_cons]
          exact ((reads_quoted t).append (delimits_blank.word (literalWord t))).lex_append ih

/-! ## Lines -/

theorem lines_append_newline (line rest : List Token) (h : newline ∉ line) :
    lines (line ++ newline :: rest) = line :: lines rest := by
  induction line with
  | nil => rfl
  | cons t line ih =>
      rw [List.mem_cons, not_or] at h
      have ht : t ≠ newline := fun heq => h.1 heq.symm
      rw [List.cons_append, lines, if_neg ht, ih h.2]

theorem newline_not_mem_literals (texts : List (List Char)) : newline ∉ literals texts := by
  intro h
  obtain ⟨text, -, heq⟩ := List.mem_map.mp h
  cases heq

/-- Lines of quoted texts, each ended by a newline. -/
def quotedLines (commands : List (List (List Char))) : List Char :=
  commands.flatMap fun texts => quotedLine texts ++ ['
']

theorem reads_quotedLines (commands : List (List (List Char))) :
    Reads .blank (quotedLines commands)
      (commands.flatMap fun texts => literals texts ++ [newline]) .blank := by
  induction commands with
  | nil => exact Reads.nil
  | cons texts rest ih => exact (reads_quotedLine texts delimits_newline).append ih

/-- **The lines of quoted texts are read as these texts, line by line.** -/
theorem lines_quotedLines (commands : List (List (List Char))) :
    (lex (quotedLines commands)).map lines = some (commands.map literals) := by
  rw [(reads_quotedLines commands).lex rfl, List.append_nil, Option.map_some]
  congr 1
  induction commands with
  | nil => rfl
  | cons texts rest ih =>
      rw [List.flatMap_cons, List.append_assoc, List.singleton_append,
        lines_append_newline _ _ (newline_not_mem_literals texts), ih, List.map_cons]

end ShellLex
