import TurboCi.RunnerDaemon.Git

set_option autoImplicit false

/-! # What the shell reads

The scripts that the runner builds from argv commands, as a POSIX shell reads them: the words of
the commands come back as they were, with every character quoted (`lex_argvScript`), and around
them stands only what the template of `checkout_script` has (`lex_checkoutScript`).
-/

namespace TurboCi

open ShellLex

/-! ## Argv commands -/

theorem quote_eq (value : Chars) : quote value = quoted value := rfl

theorem argvLine_eq (argv : List Chars) : argvLine argv = quotedLine argv := by
  unfold argvLine
  induction argv with
  | nil => rfl
  | cons arg rest ih =>
      cases rest with
      | nil => exact List.intercalate_singleton
      | cons arg' rest =>
          rw [List.map_cons] at ih
          rw [List.map_cons, List.map_cons, List.intercalate_cons_cons, ih, quotedLine_cons_cons]
          rfl

/-- The lines of a script after what every script begins with. -/
def argvBody (commands : List (List Chars)) : Chars :=
  commands.flatMap fun argv => argvLine argv ++ ['\n']

theorem argvBody_eq (commands : List (List Chars)) : argvBody commands = quotedLines commands := by
  unfold argvBody quotedLines
  simp only [argvLine_eq]

/-- A word without quotes. -/
def plain (text : String) : Token := .word (bareWord text.toList)

def op (text : String) : Token := .operator text.toList

def preludeTokens : List Token :=
  [plain "set", plain "-e", newline, op "(", plain "set", plain "-o", plain "pipefail", op ")",
    plain "2", op ">", plain "/dev/null", op "&&", plain "set", plain "-o", plain "pipefail",
    newline]

theorem reads_shellPrelude : Reads .blank shellPrelude preludeTokens .blank := by
  unfold Reads shellPrelude preludeTokens plain op
  repeat rw [String.toList_ofList]
  decide

/-- The words of commands, each of which ends its line. -/
def commandTokens (commands : List (List Chars)) : List Token :=
  commands.flatMap fun argv => literals argv ++ [newline]

theorem reads_argvBody (commands : List (List Chars)) :
    Reads .blank (argvBody commands) (commandTokens commands) .blank := by
  rw [argvBody_eq]
  exact reads_quotedLines commands

/-- **The shell reads the arguments as they are**, line by line, from a whole script and from one
line. -/
theorem lex_argvScript (commands : List (List Chars)) :
    argvScript commands = shellPrelude ++ argvBody commands ∧
      lex (argvScript commands) = some (preludeTokens ++ commandTokens commands) ∧
      (lex (argvBody commands)).map lines = some (commands.map literals) ∧
      ∀ argv, lex (argvLine argv) = some (literals argv) := by
  refine ⟨rfl, ?_, ?_, fun argv => ?_⟩
  · have hscript := (reads_shellPrelude.append (reads_argvBody commands)).lex rfl
    rw [List.append_nil] at hscript
    exact hscript
  · rw [argvBody_eq]
    exact lines_quotedLines commands
  · rw [argvLine_eq]
    exact lex_quotedLine argv

/-! ## The checkout script -/

namespace Git

theorem delimits_and : Delimits " && ".toList [op "&&"] .blank := ⟨rfl, fun _ => rfl⟩

/-- Commands that are joined by `&&`. -/
def joinedTokens (commands : List (List Chars)) : List Token :=
  [op "&&"].intercalate (commands.map literals)

/-- What the update of an earlier checkout begins with. -/
def testTokens (dest : Chars) : List Token :=
  [plain "updated=0", newline, plain "if", plain "[", plain "-d",
    .word (literalWord (dest ++ "/.git".toList)), plain "]", op "&&", plain "[", plain "!",
    plain "-e", .word (literalWord (dest ++ "/.git".toList) ++ bareWord "/modules".toList),
    plain "]", op ";", plain "then", newline, plain "echo",
    .word (literalWord "Reusing the checkout of an earlier job".toList), newline, plain "if"]

/-- What comes after the commands of the update. -/
def elseTokens : List Token :=
  [op ";", plain "then", plain "updated=1", op ";", plain "else", plain "echo",
    .word (literalWord
      "WARNING: Updating the earlier checkout failed, cloning again".toList),
    op ";", plain "fi", newline, plain "fi", newline, plain "if", plain "[",
    .word ("$updated".toList.map fun c => (c, .double)), plain "=", plain "0", plain "]", op ";",
    plain "then", newline]

def updateTokens (dest : Chars) (update : List (List Chars)) : List Token :=
  testTokens dest ++ joinedTokens update ++ elseTokens

/-- The text after the commands of the update. -/
def elseText : Chars :=
  ("; then updated=1; else echo 'WARNING: Updating the earlier checkout failed, " ++
    "cloning again'; fi\nfi\nif [ \"$updated\" = 0 ]; then\n").toList

theorem delimits_else : Delimits elseText elseTokens .blank := by
  have hblank : Reads .blank elseText elseTokens .blank := by
    unfold Reads elseText elseTokens plain op
    rw [String.toList_append]
    repeat rw [String.toList_ofList]
    decide +kernel
  have hhead : elseText.head? = some ';' := by
    unfold elseText
    rw [String.toList_append, String.toList_ofList]
    rfl
  exact delimits_of_first hhead (fun _ => rfl) hblank

/-- The text before the first use of the repository's path. -/
def testText : Chars := "updated=0\nif [ -d ".toList

def betweenText : Chars := " ] && [ ! -e ".toList

def thenText : Chars := " ]; then\necho 'Reusing the checkout of an earlier job'\nif ".toList

theorem reads_test : Reads .blank testText
    [plain "updated=0", newline, plain "if", plain "[", plain "-d"] .blank := by
  unfold Reads testText plain
  repeat rw [String.toList_ofList]
  decide

theorem delimits_between :
    Delimits betweenText [plain "]", op "&&", plain "[", plain "!", plain "-e"] .blank := by
  have hblank : Reads .blank betweenText
      [plain "]", op "&&", plain "[", plain "!", plain "-e"] .blank := by
    unfold Reads betweenText plain op
    repeat rw [String.toList_ofList]
    decide
  exact delimits_of_first (c := ' ') rfl (fun _ => rfl) hblank

theorem delimits_then : Delimits thenText
    [plain "]", op ";", plain "then", newline, plain "echo",
      .word (literalWord "Reusing the checkout of an earlier job".toList), newline, plain "if"]
    .blank := by
  have hblank : Reads .blank thenText
      [plain "]", op ";", plain "then", newline, plain "echo",
        .word (literalWord "Reusing the checkout of an earlier job".toList), newline, plain "if"]
      .blank := by
    unfold Reads thenText plain op
    repeat rw [String.toList_ofList]
    decide
  exact delimits_of_first (c := ' ') rfl (fun _ => rfl) hblank

theorem updateScript_eq (dest : Chars) (update : List (List Chars)) :
    updateScript dest update =
      (testText ++ quoted (dest ++ "/.git".toList) ++ betweenText ++
          quoted (dest ++ "/.git".toList) ++ "/modules".toList ++ thenText) ++
        (" && ".toList.intercalate (update.map quotedLine) ++ elseText) := by
  have hlines : update.map argvLine = update.map quotedLine :=
    List.map_congr_left fun argv _ => argvLine_eq argv
  have hmodules :
      "/modules ]; then\necho 'Reusing the checkout of an earlier job'\nif ".toList =
        "/modules".toList ++ thenText := by
    unfold thenText
    rw [← String.toList_append]
    rfl
  unfold updateScript testText betweenText elseText
  rw [hlines, hmodules]
  simp only [quote_eq, List.append_assoc]

theorem reads_updateScript (dest : Chars) (update : List (List Chars)) :
    Reads .blank (updateScript dest update) (updateTokens dest update) .blank := by
  have hgit := reads_quoted (dest ++ "/.git".toList)
  have hmodules : Reads (.word (literalWord (dest ++ "/.git".toList))) "/modules".toList []
      (.word (literalWord (dest ++ "/.git".toList) ++ bareWord "/modules".toList)) :=
    reads_plain (by decide) _
  have htest := ((((reads_test.append hgit).append (delimits_between.word _)).append hgit).append
    hmodules).append (delimits_then.word _)
  have hall := htest.append (reads_intercalate update delimits_and delimits_else)
  rw [updateScript_eq]
  have htokens : updateTokens dest update =
      [plain "updated=0", newline, plain "if", plain "[", plain "-d"] ++ [] ++
          .word (literalWord (dest ++ "/.git".toList)) ::
            [plain "]", op "&&", plain "[", plain "!", plain "-e"] ++ [] ++ [] ++
          .word (literalWord (dest ++ "/.git".toList) ++ bareWord "/modules".toList) ::
            [plain "]", op ";", plain "then", newline, plain "echo",
              .word (literalWord "Reusing the checkout of an earlier job".toList), newline,
              plain "if"] ++
        ([op "&&"].intercalate (update.map literals) ++ elseTokens) := by
    simp only [updateTokens, testTokens, joinedTokens, List.nil_append, List.cons_append]
  rw [htokens]
  exact hall

/-- What the whole script is read as; `update` are the commands for an earlier checkout, if the
script has them. -/
def scriptTokens (dest : Chars) (update : Option (List (List Chars)))
    (fresh : List (List Chars)) : List Token :=
  match update with
  | some update =>
      updateTokens dest update ++ commandTokens (wipeCommand dest :: fresh) ++
        [plain "fi", newline]
  | none => commandTokens (wipeCommand dest :: fresh)

/-- The commands for an earlier checkout that the script has. -/
def scriptUpdate (gitInfo : GitInfo) (vars : List Variable) (dest : Chars)
    (strategy : GitStrategy) : Except GitError (Option (List (List Chars))) :=
  if strategy = .fetch ∧ submoduleStrategy vars = .none then
    (updateCommands gitInfo vars dest).map some
  else .ok none

theorem lex_of_update (dest : Chars) (update fresh : List (List Chars)) :
    lex (updateScript dest update ++ argvBody (wipeCommand dest :: fresh) ++ "fi\n".toList) =
      some (scriptTokens dest (some update) fresh) := by
  have hfi : Reads .blank "fi\n".toList [plain "fi", newline] .blank := by
    unfold Reads
    decide
  have hall := ((reads_updateScript dest update).append
    (reads_argvBody (wipeCommand dest :: fresh))).append hfi
  rw [hall.lex rfl, List.append_nil]
  rfl

theorem lex_of_fresh (dest : Chars) (fresh : List (List Chars)) :
    lex (argvBody (wipeCommand dest :: fresh)) = some (scriptTokens dest none fresh) := by
  rw [(reads_argvBody (wipeCommand dest :: fresh)).lex rfl, List.append_nil]
  rfl

theorem lex_checkoutScript {gitInfo : GitInfo} {vars : List Variable} {dest out : Chars}
    {strategy : GitStrategy} (h : checkoutScript gitInfo vars dest strategy = .ok out) :
    ∃ fresh update, checkoutCommands gitInfo vars dest = .ok fresh ∧
      scriptUpdate gitInfo vars dest strategy = .ok update ∧
      lex out = some (scriptTokens dest update fresh) := by
  unfold checkoutScript at h
  unfold scriptUpdate
  cases hfresh : checkoutCommands gitInfo vars dest with
  | error e =>
      rw [hfresh] at h
      cases h
  | ok fresh =>
      simp only [hfresh] at h
      by_cases hreuse : strategy = .fetch ∧ submoduleStrategy vars = .none
      · rw [if_pos hreuse] at h
        rw [if_pos hreuse]
        cases hupdate : updateCommands gitInfo vars dest with
        | error e =>
            rw [hupdate] at h
            cases h
        | ok update =>
            rw [hupdate] at h
            have hout : _ = out := Except.ok.inj h
            refine ⟨fresh, some update, rfl, rfl, ?_⟩
            rw [← hout]
            exact lex_of_update dest update fresh
      · rw [if_neg hreuse] at h
        rw [if_neg hreuse]
        have hout : _ = out := Except.ok.inj h
        refine ⟨fresh, none, rfl, rfl, ?_⟩
        rw [← hout]
        exact lex_of_fresh dest fresh

/-! ## What may be interpreted -/

/-- A token without the characters that stand for themselves. -/
def interpreted : Token → Token
  | .word w => .word (w.filter (·.2 ≠ .literal))
  | .operator text => .operator text

/-- Commands with the same numbers of arguments, all of them empty. -/
def blanked (commands : List (List Chars)) : List (List Chars) :=
  commands.map fun argv => argv.map fun _ => []

theorem filter_literalWord (text : Chars) :
    (literalWord text).filter (·.2 ≠ .literal) = [] := by
  induction text with
  | nil => rfl
  | cons c text ih => exact ih

theorem interpreted_literal_append (text : Chars) (w : Word) :
    interpreted (.word (literalWord text ++ w)) = interpreted (.word w) := by
  show Token.word ((literalWord text ++ w).filter _) = Token.word (w.filter _)
  rw [List.filter_append, filter_literalWord, List.nil_append]

theorem interpreted_literal (text : Chars) :
    interpreted (.word (literalWord text)) = .word [] := by
  show Token.word ((literalWord text).filter _) = Token.word []
  rw [filter_literalWord]

theorem interpreted_literals (argv : List Chars) :
    (literals argv).map interpreted = (literals (argv.map fun _ => [])).map interpreted := by
  unfold literals
  simp only [List.map_map]
  refine List.map_congr_left fun text _ => ?_
  show interpreted (.word (literalWord text)) = interpreted (.word (literalWord []))
  rw [interpreted_literal, interpreted_literal]

theorem interpreted_commandTokens (commands : List (List Chars)) :
    (commandTokens commands).map interpreted =
      (commandTokens (blanked commands)).map interpreted := by
  unfold commandTokens blanked
  induction commands with
  | nil => rfl
  | cons argv rest ih =>
      simp only [List.map_cons, List.flatMap_cons, List.map_append] at ih ⊢
      rw [interpreted_literals, ih]

theorem interpreted_joinedTokens (commands : List (List Chars)) :
    (joinedTokens commands).map interpreted =
      (joinedTokens (blanked commands)).map interpreted := by
  unfold joinedTokens blanked
  induction commands with
  | nil => rfl
  | cons argv rest ih =>
      cases rest with
      | nil =>
          simp only [List.map_cons, List.map_nil, List.intercalate_singleton]
          exact interpreted_literals argv
      | cons argv' rest =>
          simp only [List.map_cons, List.intercalate_cons_cons, List.map_append] at ih ⊢
          rw [interpreted_literals, ih]

theorem interpreted_testTokens (dest : Chars) :
    (testTokens dest).map interpreted = (testTokens []).map interpreted := by
  unfold testTokens
  simp only [List.map_cons, List.map_nil, interpreted_literal, interpreted_literal_append]

theorem interpreted_scriptTokens (dest : Chars) (update : Option (List (List Chars)))
    (fresh : List (List Chars)) :
    (scriptTokens dest update fresh).map interpreted =
      (scriptTokens [] (update.map blanked) (blanked fresh)).map interpreted := by
  have hclone : (commandTokens (wipeCommand dest :: fresh)).map interpreted =
      (commandTokens (wipeCommand [] :: blanked fresh)).map interpreted := by
    rw [interpreted_commandTokens, interpreted_commandTokens (wipeCommand [] :: blanked fresh)]
    unfold blanked wipeCommand
    simp only [List.map_cons, List.map_map, Function.comp_def, List.map_append, List.map_nil]
  cases update with
  | none => exact hclone
  | some update =>
      unfold scriptTokens updateTokens
      simp only [Option.map_some, List.map_append]
      rw [interpreted_testTokens, interpreted_joinedTokens, hclone]

end Git

/-- **The shell sees exactly the arguments.** A script of argv commands and each of their lines
are read as these commands; a checkout script is read as the commands for the sources in the
template of the script, and what of it the shell may interpret is the same when the destination
and all the arguments are empty. -/
theorem shell_sees_arguments :
    (∀ commands : List (List Chars),
      argvScript commands = shellPrelude ++ argvBody commands ∧
        lex (argvScript commands) = some (preludeTokens ++ commandTokens commands) ∧
        (lex (argvBody commands)).map lines = some (commands.map literals) ∧
        ∀ argv, lex (argvLine argv) = some (literals argv)) ∧
    ∀ (gitInfo : GitInfo) (vars : List Variable) (dest out : Chars) (strategy : Git.GitStrategy),
      Git.checkoutScript gitInfo vars dest strategy = .ok out →
      ∃ fresh update, Git.checkoutCommands gitInfo vars dest = .ok fresh ∧
        Git.scriptUpdate gitInfo vars dest strategy = .ok update ∧
        lex out = some (Git.scriptTokens dest update fresh) ∧
        (Git.scriptTokens dest update fresh).map Git.interpreted =
          (Git.scriptTokens [] (update.map Git.blanked) (Git.blanked fresh)).map
            Git.interpreted := by
  refine ⟨lex_argvScript, ?_⟩
  intro gitInfo vars dest out strategy h
  obtain ⟨fresh, update, hfresh, hupdate, hlex⟩ := Git.lex_checkoutScript h
  exact ⟨fresh, update, hfresh, hupdate, hlex, Git.interpreted_scriptTokens dest update fresh⟩

/-- A commit of forty zeros, cloned to a destination with a quote in it. -/
theorem shell_sees_arguments_clone :
    ∃ out fresh update,
      Git.checkoutScript { sha := List.replicate 40 '0' } [] "it's".toList .clone = .ok out ∧
        Git.checkoutCommands { sha := List.replicate 40 '0' } [] "it's".toList = .ok fresh ∧
        lex out = some (Git.scriptTokens "it's".toList update fresh) := by
  cases hout : Git.checkoutScript { sha := List.replicate 40 '0' } [] "it's".toList .clone with
  | error e =>
      have hok : (Git.checkoutScript { sha := List.replicate 40 '0' } [] "it's".toList
          .clone).isOk = true := by decide
      rw [hout] at hok
      cases hok
  | ok out =>
      obtain ⟨fresh, update, hfresh, -, hlex, -⟩ := shell_sees_arguments.2
        { sha := List.replicate 40 '0' } [] "it's".toList out .clone hout
      exact ⟨out, fresh, update, rfl, hfresh, hlex⟩

end TurboCi
