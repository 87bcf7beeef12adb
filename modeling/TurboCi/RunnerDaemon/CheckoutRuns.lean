import TurboCi.Lib.ShellRun
import TurboCi.RunnerDaemon.GitOptions
import TurboCi.RunnerDaemon.ShellScripts

set_option autoImplicit false

/-! # Runs of the checkout script

The script of `checkout_script` as a shell reads and runs it under `set -e`, with any result of
each of its commands. It finishes with success only after one of two histories: every command of
the update, or the removal of the destination and then every command of a fresh checkout
(`checkout_script_complete`). The first is possible only where an earlier checkout may be used.
-/

namespace TurboCi

open ShellLex ShellRun

namespace Git

/-! ## The commands of the script -/

def gitDirWord (dest : Chars) : Word := literalWord (dest ++ "/.git".toList)

/-- `[ -d dest/.git ]` -/
def dirTest (dest : Chars) : List Word :=
  [bareWord ['['], bareWord "-d".toList, gitDirWord dest, bareWord [']']]

/-- `[ ! -e dest/.git/modules ]` -/
def modulesTest (dest : Chars) : List Word :=
  [bareWord ['['], bareWord ['!'], bareWord "-e".toList,
    gitDirWord dest ++ bareWord "/modules".toList, bareWord [']']]

def echoReusing : List Word :=
  [bareWord "echo".toList, literalWord "Reusing the checkout of an earlier job".toList]

def echoWarning : List Word :=
  [bareWord "echo".toList,
    literalWord "WARNING: Updating the earlier checkout failed, cloning again".toList]

/-- `updated=0` or `updated=1` -/
def setUpdated (value : Chars) : List Word := [bareWord ("updated=".toList ++ value)]

/-- `[ "$updated" = 0 ]` -/
def flagTest : List Word :=
  [bareWord ['['], "$updated".toList.map fun c => (c, .double), bareWord ['='], bareWord ['0'],
    bareWord [']']]

/-- The condition under which an earlier checkout is updated. -/
def reusable (dest : Chars) : Cmd :=
  .seq .skip (.and (.simple (dirTest dest)) (.simple (modulesTest dest)))

/-- The commands of the update, and what is noted of them. -/
def tryUpdate (argv : List Chars) (update : List (List Chars)) : Cmd :=
  .ite (.seq .skip (conjunction (quotedCmd argv) update)) (.seq .skip (.simple (setUpdated ['1'])))
    (.seq .skip (.simple echoWarning))

def reuse (dest : Chars) (argv : List Chars) (update : List (List Chars)) : Cmd :=
  .ite (reusable dest) (.seq (.seq .skip (.simple echoReusing)) (tryUpdate argv update)) .skip

/-- What stands before the first `if`. -/
def startLine : Line := ⟨.seq .skip (.simple (setUpdated ['0'])), none, none⟩

/-- What stands before the `if` of the update. -/
def reuseLine : Line := ⟨.seq .skip (.simple echoReusing), none, none⟩

/-- What stands before the `if` of the clone. -/
def cloneLine (dest : Chars) (argv : List Chars) (update : List (List Chars)) : Line :=
  ⟨.seq (.seq .skip (.simple (setUpdated ['0']))) (reuse dest argv update), none, none⟩

/-- The script that updates an earlier checkout or clones again. -/
def updateOrClone (dest : Chars) (argv : List Chars) (update fresh : List (List Chars)) : Cmd :=
  .seq (.seq (.seq .skip (.simple (setUpdated ['0']))) (reuse dest argv update))
    (.ite (.seq .skip (.simple flagTest)) (sequence .skip (wipeCommand dest :: fresh)) .skip)

/-- Where the commands of the update are. -/
def updateStack (dest : Chars) : List Frame := [.cond reuseLine, .body startLine (reusable dest)]

/-- Where the warning is that the update failed. -/
def warnStack (dest : Chars) (argv : List Chars) (update : List (List Chars)) : List Frame :=
  [.other reuseLine (.seq .skip (conjunction (quotedCmd argv) update))
      (.seq .skip (.simple (setUpdated ['1']))),
    .body startLine (reusable dest)]

/-! ## Reading -/

theorem isArgument_gitDir (dest : Chars) (rest : Chars) (h : readable (bareWord rest) = true) :
    isArgument (gitDirWord dest ++ bareWord rest) = true := by
  have hall : ∀ text : Chars, readable (literalWord text ++ bareWord rest) = true := by
    intro text
    induction text with
    | nil => exact h
    | cons c text ih => exact ih
  rw [isArgument, gitDirWord, hall, Bool.or_true]

theorem isSimple_of_first {w : Word} {rest : List Word} (hfirst : isFirstWord w = true)
    (hassign : assignment w = none) (hargs : ∀ x ∈ w :: rest, isArgument x = true) :
    IsSimple (w :: rest) := ⟨⟨w, rest, rfl, hfirst, hassign⟩, hargs⟩

theorem isSimple_dirTest (dest : Chars) : IsSimple (dirTest dest) := by
  have hdir : isArgument (gitDirWord dest) = true := by
    have h := isArgument_gitDir dest [] rfl
    rwa [show bareWord [] = [] from rfl, List.append_nil] at h
  refine isSimple_of_first (by decide) (by decide) ?_
  intro w hw
  simp only [List.mem_cons, List.not_mem_nil, or_false] at hw
  rcases hw with rfl | rfl | rfl | rfl
  · decide
  · decide
  · exact hdir
  · decide

theorem isSimple_modulesTest (dest : Chars) : IsSimple (modulesTest dest) := by
  refine isSimple_of_first (by decide) (by decide) ?_
  intro w hw
  simp only [List.mem_cons, List.not_mem_nil, or_false] at hw
  rcases hw with rfl | rfl | rfl | rfl | rfl
  · decide
  · decide
  · decide
  · exact isArgument_gitDir dest "/modules".toList (by decide)
  · decide

theorem isSimple_echo : IsSimple echoReusing ∧ IsSimple echoWarning ∧ IsSimple flagTest := by
  refine ⟨isSimple_of_first (by decide) (by decide) (by decide), ?_, ?_⟩
  · exact isSimple_of_first (by decide) (by decide) (by decide)
  · exact isSimple_of_first (by decide) (by decide) (by decide)

/-- An assignment of one of the two values. -/
theorem feed_setUpdated {stack : List Frame} {before : Cmd} {left : Option Cmd} (value : Chars)
    (h : value = ['0'] ∨ value = ['1']) :
    feed (.at stack before left none) (.word (bareWord ("updated=".toList ++ value))) =
      some (.at stack before left (some (.simple (setUpdated value)))) := by
  have hfirst : isFirstWord (bareWord ("updated=".toList ++ value)) = true := by
    rcases h with rfl | rfl
    · decide
    · decide
  exact feedFirst_of_isFirstWord hfirst

/-- What the update begins with, up to its commands. -/
theorem feeds_test (dest : Chars) : Feeds {} (testTokens dest)
    (.at (updateStack dest) .skip none none) := by
  have hend : Feeds (.at [] .skip none (some (.simple (setUpdated ['0'])))) [newline]
      (.at [] (.seq .skip (.simple (setUpdated ['0']))) none none) :=
    .cons (feed_end (.inr rfl)) .nil
  have hif : Feeds (.at [] (.seq .skip (.simple (setUpdated ['0']))) none none) [plain "if"]
      (.at [.cond startLine] .skip none none) := .cons feed_if .nil
  have hdir := feeds_simple [.cond startLine] .skip none (isSimple_dirTest dest)
  have hmodules := feeds_simple [.cond startLine] .skip (some (.simple (dirTest dest)))
    (isSimple_modulesTest dest)
  have hthen : Feeds (.at [.cond startLine] .skip
        (some (.simple (dirTest dest))) (some (.simple (modulesTest dest))))
      [op ";", plain "then", newline]
      (.at [.body startLine (reusable dest)] .skip none none) := by
    refine .cons (feed_end (.inl rfl)) (.cons (feed_then ?_) (.cons feed_blank .nil))
    exact fun h => by cases h
  have hecho := feeds_simple [.body startLine (reusable dest)] .skip none isSimple_echo.1
  have hlast : Feeds
      (.at [.body startLine (reusable dest)] .skip none (some (.simple echoReusing)))
      [newline, plain "if"]
      (.at (updateStack dest) .skip none none) := .cons (feed_end (.inr rfl)) (.cons feed_if .nil)
  have hdirAnd := hdir.append (.cons feed_and .nil)
  have hcond := (hdirAnd.append hmodules).append hthen
  have hall := (hend.append hif).append (hcond.append (hecho.append hlast))
  exact .cons (feed_setUpdated ['0'] (.inl rfl)) hall

/-- What comes after the commands of the update. -/
theorem feeds_else (dest : Chars) (argv : List Chars) (update : List (List Chars))
    {left : Option Cmd} {last : Cmd}
    (hjoined : (Line.mk .skip left (some last)).joined last =
      conjunction (quotedCmd argv) update) :
    Feeds (.at (updateStack dest) .skip left (some last)) elseTokens
      (.at [.body (cloneLine dest argv update) (.seq .skip (.simple flagTest))] .skip none
        none) := by
  have hthen : Feeds (.at (updateStack dest) .skip left (some last))
      [op ";", plain "then", plain "updated=1", op ";", plain "else"]
      (.at (warnStack dest argv update) .skip none none) := by
    unfold warnStack
    rw [← hjoined]
    refine .cons (feed_end (.inl rfl)) (.cons (feed_then ?_)
      (.cons (feed_setUpdated ['1'] (.inr rfl)) (.cons (feed_end (.inl rfl))
        (.cons (feed_else ?_) .nil))))
    · exact fun h => by cases h
    · exact fun h => by cases h
  have hecho := feeds_simple (warnStack dest argv update) .skip none isSimple_echo.2.1
  have hfi : Feeds (.at (warnStack dest argv update) .skip none (some (.simple echoWarning)))
      [op ";", plain "fi", newline, plain "fi", newline, plain "if"]
      (.at [.cond (cloneLine dest argv update)] .skip none none) := by
    refine .cons (feed_end (.inl rfl)) (.cons (feed_fi_else ?_) (.cons (feed_end (.inr rfl))
      (.cons (feed_fi ?_) (.cons (feed_end (.inr rfl)) (.cons feed_if .nil)))))
    · exact fun h => by cases h
    · exact fun h => by cases h
  have hflag := feeds_simple [.cond (cloneLine dest argv update)] .skip none isSimple_echo.2.2
  have hclone : Feeds
      (.at [.cond (cloneLine dest argv update)] .skip none (some (.simple flagTest)))
      [op ";", plain "then", newline]
      (.at [.body (cloneLine dest argv update) (.seq .skip (.simple flagTest))] .skip none
        none) := by
    refine .cons (feed_end (.inl rfl)) (.cons (feed_then ?_) (.cons feed_blank .nil))
    exact fun h => by cases h
  exact hthen.append ((hecho.append hfi).append (hflag.append hclone))

/-- **The script is read as its commands in the template.** -/
theorem parse_update (dest : Chars) {argv : List Chars} {update fresh : List (List Chars)}
    (hupdate : ∀ x ∈ argv :: update, IsProgram x)
    (hfresh : ∀ x ∈ wipeCommand dest :: fresh, IsProgram x) :
    parse (scriptTokens dest (some (argv :: update)) fresh) =
      some (updateOrClone dest argv update fresh) := by
  obtain ⟨left, last, hjoin, hjoined⟩ := feeds_joined (updateStack dest) .skip hupdate none
  have hlines := feeds_lines [.body (cloneLine dest argv update) (.seq .skip (.simple flagTest))]
    hfresh .skip
  have hfi : Feeds
      (.at [.body (cloneLine dest argv update) (.seq .skip (.simple flagTest))]
        (sequence .skip (wipeCommand dest :: fresh)) none none)
      [plain "fi", newline]
      (.at [] (updateOrClone dest argv update fresh) none none) := by
    refine .cons (feed_fi ?_) (.cons (feed_end (.inr rfl)) .nil)
    -- the list is not empty: it begins with the removal
    have hne : ∀ (commands : List (List Chars)) (before : Cmd), before ≠ .skip →
        sequence before commands ≠ .skip := by
      intro commands
      induction commands with
      | nil => exact fun before h => h
      | cons x rest ih => exact fun before _ => ih _ fun h => by cases h
    exact hne fresh _ fun h => by cases h
  have hstart := ((feeds_test dest).append hjoin).append (feeds_else dest argv update hjoined)
  have hall := hstart.append (hlines.append hfi)
  refine Feeds.parse (l := ⟨updateOrClone dest argv update fresh, none, none⟩) ?_ rfl
  have htokens : scriptTokens dest (some (argv :: update)) fresh =
      testTokens dest ++ joinedTokens (argv :: update) ++ elseTokens ++
        (commandTokens (wipeCommand dest :: fresh) ++ [plain "fi", newline]) := by
    unfold scriptTokens updateTokens
    dsimp only
    rw [List.append_assoc]
  rw [htokens]
  exact hall

theorem parse_fresh (dest : Chars) {fresh : List (List Chars)}
    (hfresh : ∀ x ∈ wipeCommand dest :: fresh, IsProgram x) :
    parse (scriptTokens dest none fresh) =
      some (sequence .skip (wipeCommand dest :: fresh)) :=
  (feeds_lines [] hfresh .skip).parse rfl

/-! ## Programs -/

/-- The commands run git or `rm`. -/
theorem isProgram_sync {gitInfo : GitInfo} {vars : List Variable} {dest : Chars} {existing : Bool}
    {commands : List (List Chars)} (h : syncCommands gitInfo vars dest existing = .ok commands) :
    commands ≠ [] ∧ ∀ argv ∈ commands, IsProgram argv := by
  have hgit : ∀ args, IsProgram ("git".toList :: args) := fun args =>
    ⟨_, args, rfl, by decide, by decide⟩
  have hrm : ∀ args, IsProgram ("rm".toList :: args) := fun args =>
    ⟨_, args, rfl, by decide, by decide⟩
  have hsubmodules : ∀ recursive submodules,
      submoduleSteps gitInfo vars dest recursive = .ok submodules →
      ∀ argv ∈ submodules, IsProgram argv := by
    intro recursive submodules hsteps
    rw [submoduleSteps] at hsteps
    dsimp only at hsteps
    by_cases hbad : (flags vars "GIT_SUBMODULE_PATHS").any (· = ":(exclude)".toList) = true
    · rw [if_pos hbad] at hsteps
      cases hsteps
    · rw [if_neg hbad] at hsteps
      obtain rfl := Except.ok.inj hsteps
      intro argv hmem
      simp only [List.mem_cons, List.not_mem_nil, or_false] at hmem
      rcases hmem with rfl | rfl | rfl
      · exact hgit _
      · split
        · exact hgit _
        · exact hgit _
      · split
        · exact hgit _
        · exact hgit _
  obtain ⟨-, submodules, rfl, hmore⟩ := sync_cases h
  constructor
  · intro hnil
    have hlen := congrArg List.length hnil
    simp at hlen
  · intro argv hmem
    simp only [List.mem_append, List.mem_cons, List.not_mem_nil, or_false] at hmem
    -- the commands one by one, in their order
    rcases hmem with ((hmem | rfl | rfl | rfl) | hmem) | hmem
    · split at hmem
      · rcases List.mem_pair.mp hmem with rfl | rfl
        · exact hrm _
        · exact hrm _
      · exact absurd hmem List.not_mem_nil
    · exact hgit _
    · exact hgit _
    · exact hgit _
    · unfold checkoutSteps at hmem
      split at hmem
      · exact absurd hmem List.not_mem_nil
      · rcases List.mem_append.mp hmem with hmem | hmem
        · rw [List.mem_singleton.mp hmem]
          exact hgit _
        · split at hmem
          · rw [List.mem_singleton.mp hmem]
            exact hgit _
          · exact absurd hmem List.not_mem_nil
    · rcases hmore with rfl | ⟨recursive, hsteps⟩
      · exact absurd hmem List.not_mem_nil
      · exact hsubmodules recursive submodules hsteps argv hmem

theorem isProgram_wipe (dest : Chars) : IsProgram (wipeCommand dest) :=
  ⟨"rm".toList, _, rfl, by decide, by decide⟩

/-! ## Runs -/

section Runs

variable {succeeds : Oracle} {dest : Chars} {argv : List Chars} {update fresh : List (List Chars)}

/-- The variable that says whether the update succeeded. -/
def updatedName : Chars := "updated".toList

theorem exec_setUpdated (succeeds : Oracle) (value : Chars)
    (h : value = ['0'] ∨ value = ['1']) (checked : Bool) (s : State) :
    ∃ s', exec succeeds (.simple (setUpdated value)) checked s = .finished true s' ∧
      s'.vars updatedName = value ∧ s'.trace = s.trace := by
  have hassign : ((setUpdated value).head?.bind assignment).isSome = true := by
    rcases h with rfl | rfl
    · decide
    · decide
  refine ⟨{ s with vars := (setUpdated value).foldl assign s.vars }, ?_, ?_, rfl⟩
  · rw [exec, runSimple, hassign]
    rfl
  · rcases h with rfl | rfl
    · rfl
    · rfl

theorem expandWord_bareWord (vars : Chars → Chars) {c : Char} (hc : c ≠ '$') :
    expandWord vars (bareWord [c]) = [c] := by
  show expandWordFrom vars none [(c, .bare)] = [c]
  rw [expandWordFrom, if_neg (fun h => hc h.1), expandWordFrom]

/-- The test of the variable only compares. -/
theorem exec_flagTest (s : State) (checked : Bool) (hchecked : checked = false) :
    exec succeeds (.seq .skip (.simple flagTest)) checked s =
      .finished (s.vars updatedName = ['0']) s := by
  subst hchecked
  have hargv : flagTest.map (expandWord s.vars) =
      [['['], s.vars updatedName, ['='], ['0'], [']']] := by
    have hvalue : expandWord s.vars ("$updated".toList.map fun c => (c, .double)) =
        s.vars updatedName := rfl
    simp only [flagTest, List.map_cons, List.map_nil, hvalue]
    rw [expandWord_bareWord _ (by decide), expandWord_bareWord _ (by decide),
      expandWord_bareWord _ (by decide), expandWord_bareWord _ (by decide)]
  have hassign : (flagTest.head?.bind assignment).isSome = false := by decide
  have hcompare : comparison [['['], s.vars updatedName, ['='], ['0'], [']']] =
      some (decide (s.vars updatedName = ['0'])) := rfl
  rw [exec, exec]
  dsimp only
  rw [exec, runSimple, hassign, if_neg Bool.false_ne_true]
  dsimp only
  rw [hargv, hcompare]
  dsimp only
  rw [Bool.not_false, Bool.or_true, if_pos rfl]

/-- After trying an update the variable says whether all of its commands succeeded, as the last
ones that ran. -/
theorem exec_tryUpdate (hupdate : ∀ x ∈ argv :: update, IsProgram x) {s s' : State} {ok : Bool}
    (hflag : s.vars updatedName = ['0'])
    (h : exec succeeds (tryUpdate argv update) true s = .finished ok s') :
    s.trace <+: s'.trace ∧ (s'.vars updatedName = ['0'] ∨
      s'.vars updatedName = ['1'] ∧ s'.trace = s.trace ++ allRan (argv :: update)) := by
  have hfirst : exec succeeds (quotedCmd argv) false s =
      .finished (succeeds s.trace argv)
        { s with trace := s.trace ++ [(argv, succeeds s.trace argv)] } := by
    rw [quotedCmd, exec, runSimple_quoted (hupdate argv List.mem_cons_self)]
    simp only [Bool.not_false, Bool.or_true, if_true]
  obtain ⟨ok₁, s₁, ran, hconj, hvars, htrace, hall⟩ := exec_conjunction
    (fun x hx => hupdate x (List.mem_cons_of_mem argv hx)) hfirst
  have hcond : exec succeeds (.seq .skip (conjunction (quotedCmd argv) update)) false s =
      .finished ok₁ s₁ := by
    rw [exec, exec]
    exact hconj
  have hpre : s.trace <+: s₁.trace := by
    rw [htrace, List.append_assoc]
    exact List.prefix_append _ _
  rw [tryUpdate, exec, hcond] at h
  cases ok₁ with
  | true =>
      obtain ⟨hone, hran⟩ := hall rfl
      obtain ⟨s₂, hset, hvalue, hsame⟩ := exec_setUpdated succeeds ['1'] (.inr rfl)
        true s₁
      dsimp only at h
      rw [exec, exec] at h
      dsimp only at h
      rw [hset] at h
      obtain ⟨-, rfl⟩ := Outcome.finished.inj h
      rw [hsame]
      refine ⟨hpre, .inr ⟨hvalue, ?_⟩⟩
      rw [htrace, hone, hran, List.append_assoc]
      rfl
  | false =>
      dsimp only at h
      have hextends := extends_exec (by decide) h
      refine ⟨hpre.trans hextends.trace, .inl ?_⟩
      rw [hextends.vars, hvars]
      exact hflag

/-- The same for the part of the script that looks for an earlier checkout. -/
theorem exec_reuse (hupdate : ∀ x ∈ argv :: update, IsProgram x) {s s' : State} {ok : Bool}
    (hflag : s.vars updatedName = ['0'])
    (h : exec succeeds (reuse dest argv update) true s = .finished ok s') :
    s.trace <+: s'.trace ∧ (s'.vars updatedName = ['0'] ∨
      s'.vars updatedName = ['1'] ∧ ∃ before, s.trace <+: before ∧
        s'.trace = before ++ allRan (argv :: update)) := by
  rw [reuse, exec] at h
  have htests : (reusable dest).assigns = false := by
    have hword : assignment (bareWord ['[']) = none := by decide
    simp [reusable, Cmd.assigns, dirTest, modulesTest, hword]
  split at h
  · next s₁ hcond =>
      have hext₁ := extends_exec htests hcond
      rw [exec] at h
      split at h
      · next ok₂ s₂ hecho =>
          have hext₂ := hext₁.trans (extends_exec (by decide) hecho)
          obtain ⟨hpre, hresult⟩ := exec_tryUpdate hupdate (by rw [hext₂.vars]; exact hflag) h
          refine ⟨hext₂.trace.trans hpre, hresult.imp_right fun hdone => ?_⟩
          exact ⟨hdone.1, s₂.trace, hext₂.trace, hdone.2⟩
      · cases h
  · next s₁ hcond =>
      have hext₁ := extends_exec htests hcond
      obtain ⟨-, rfl⟩ := Outcome.finished.inj h
      exact ⟨hext₁.trace, .inl (by rw [hext₁.vars]; exact hflag)⟩
  · cases h

/-- **A run of the script that finishes has updated or cloned completely.** -/
theorem exec_updateOrClone (hupdate : ∀ x ∈ argv :: update, IsProgram x)
    (hfresh : ∀ x ∈ wipeCommand dest :: fresh, IsProgram x) {s s' : State} {ok : Bool}
    (h : exec succeeds (updateOrClone dest argv update fresh) true s = .finished ok s') :
    ∃ before, s.trace <+: before ∧
      (s'.trace = before ++ allRan (argv :: update) ∨
        s'.trace = before ++ allRan (wipeCommand dest :: fresh)) := by
  obtain ⟨s₁, hset, hflag, hsame⟩ := exec_setUpdated succeeds ['0'] (.inl rfl) true s
  have hstart : exec succeeds (.seq .skip (.simple (setUpdated ['0']))) true s =
      .finished true s₁ := by
    rw [exec, exec]
    exact hset
  rw [updateOrClone, exec] at h
  split at h
  · next ok₂ s₂ hreuse =>
      rw [exec, hstart] at hreuse
      obtain ⟨hpre, hresult⟩ := exec_reuse hupdate hflag hreuse
      rw [hsame] at hpre hresult
      rw [exec, exec_flagTest s₂ false rfl] at h
      rcases hresult with hzero | ⟨hone, before, hbefore, htrace⟩
      · rw [decide_eq_true hzero] at h
        obtain ⟨ok₃, s₃, hskip, -, htrace⟩ := exec_sequence hfresh h
        obtain ⟨-, rfl⟩ := Outcome.finished.inj hskip
        exact ⟨s₂.trace, hpre, .inr htrace⟩
      · have hnot : ¬ s₂.vars updatedName = ['0'] := by
          rw [hone]
          decide
        rw [decide_eq_false hnot] at h
        obtain ⟨-, rfl⟩ := Outcome.finished.inj h
        exact ⟨before, hbefore, .inl htrace⟩
  · cases h

/-- Where there is no earlier checkout nothing is updated. -/
theorem exec_reuse_none (htest : ∀ trace args, succeeds trace (['['] :: args) = false)
    (s : State) :
    ∃ s', exec succeeds (reuse dest argv update) true s = .finished true s' ∧ s'.vars = s.vars := by
  have hassign : ((dirTest dest).head?.bind assignment).isSome = false := by
    show (assignment (bareWord ['['])).isSome = false
    decide
  let args := [bareWord "-d".toList, gitDirWord dest, bareWord [']']].map (expandWord s.vars)
  have hargv : (dirTest dest).map (expandWord s.vars) = ['['] :: args := by
    rw [dirTest, List.map_cons, expandWord_bareWord _ (by decide)]
  have hcompares : comparison (['['] :: args) = none := rfl
  have hrun : runSimple succeeds (dirTest dest) s =
      (false, { s with trace := s.trace ++ [(['['] :: args, false)] }) := by
    rw [runSimple, hassign, if_neg Bool.false_ne_true]
    dsimp only
    rw [hargv, hcompares, htest]
  have hcond : exec succeeds (reusable dest) false s =
      .finished false { s with trace := s.trace ++ [(['['] :: args, false)] } := by
    rw [reusable, exec, exec]
    dsimp only
    rw [exec, exec, hrun]
    rfl
  refine ⟨{ s with trace := s.trace ++ [(['['] :: args, false)] }, ?_, rfl⟩
  rw [reuse, exec, hcond]
  rfl

/-- Then a script whose commands all succeed succeeds. -/
theorem exec_updateOrClone_none (hfresh : ∀ x ∈ wipeCommand dest :: fresh, IsProgram x)
    (htest : ∀ trace args, succeeds trace (['['] :: args) = false)
    (hall : ∀ x ∈ wipeCommand dest :: fresh, ∀ trace, succeeds trace x = true) (s : State) :
    ∃ s', exec succeeds (updateOrClone dest argv update fresh) true s = .finished true s' := by
  obtain ⟨s₁, hset, hflag, -⟩ := exec_setUpdated succeeds ['0'] (.inl rfl) true s
  have hstart : exec succeeds (.seq .skip (.simple (setUpdated ['0']))) true s =
      .finished true s₁ := by
    rw [exec, exec]
    exact hset
  obtain ⟨s₂, hreuse, hvars⟩ : ∃ s₂, exec succeeds (reuse dest argv update) true s₁ =
      .finished true s₂ ∧ s₂.vars = s₁.vars := exec_reuse_none htest s₁
  have hskip : exec succeeds .skip true s₂ = .finished true s₂ := rfl
  obtain ⟨s', hclone⟩ := exec_sequence_succeeds hfresh hall hskip
  refine ⟨s', ?_⟩
  have hzero : s₂.vars updatedName = ['0'] := by rw [hvars, hflag]
  rw [updateOrClone, exec, exec, hstart]
  dsimp only
  rw [hreuse]
  dsimp only
  rw [exec, exec_flagTest s₂ false rfl, decide_eq_true hzero]
  exact hclone

end Runs

/-- **The checkout script never succeeds on a half-prepared checkout.** Whatever its commands
answer, it is read as a script that under `set -e` finishes with success only if, last of all,
either every command of the update ran in order and succeeded, or the removal of the destination
and then every command of a fresh checkout. Without an earlier checkout to use it runs only the
latter. -/
theorem checkout_script_complete (gitInfo : GitInfo) (vars : List Variable) (dest out : Chars)
    (strategy : GitStrategy) (h : checkoutScript gitInfo vars dest strategy = .ok out) :
    ∃ script fresh, (lex out).bind parse = some script ∧
      checkoutCommands gitInfo vars dest = .ok fresh ∧
      ∀ (succeeds : Oracle) (s s' : State), exec succeeds script true s = .finished true s' →
        (∃ before, s.trace <+: before ∧
          ((∃ update, updateCommands gitInfo vars dest = .ok update ∧
              s'.trace = before ++ allRan update) ∨
            s'.trace = before ++ allRan (wipeCommand dest :: fresh))) ∧
        (strategy = .clone ∨ submoduleStrategy vars ≠ .none →
          s'.trace = s.trace ++ allRan (wipeCommand dest :: fresh)) := by
  obtain ⟨fresh, update, hfresh, hupdate, hlex⟩ := lex_checkoutScript h
  have hprograms : ∀ x ∈ wipeCommand dest :: fresh, IsProgram x := by
    intro x hx
    rcases List.mem_cons.mp hx with rfl | hx
    · exact isProgram_wipe dest
    · exact (isProgram_sync hfresh).2 x hx
  rw [hlex, Option.bind_some]
  unfold scriptUpdate at hupdate
  by_cases hreuse : strategy = .fetch ∧ submoduleStrategy vars = .none
  · rw [if_pos hreuse] at hupdate
    obtain ⟨commands, hcommands, rfl⟩ := except_map_ok hupdate
    obtain ⟨hne, hall⟩ := isProgram_sync hcommands
    obtain ⟨argv, rest, rfl⟩ := List.exists_cons_of_ne_nil hne
    refine ⟨updateOrClone dest argv rest fresh, fresh, parse_update dest hall hprograms, hfresh, ?_⟩
    intro succeeds s s' hexec
    obtain ⟨before, hbefore, htrace⟩ := exec_updateOrClone hall hprograms hexec
    refine ⟨⟨before, hbefore, htrace.imp_left fun htrace => ⟨argv :: rest, hcommands, htrace⟩⟩, ?_⟩
    rintro (hclone | hsubmodules)
    · rw [hreuse.1] at hclone
      cases hclone
    · exact absurd hreuse.2 hsubmodules
  · rw [if_neg hreuse] at hupdate
    obtain rfl := Except.ok.inj hupdate
    refine ⟨sequence .skip (wipeCommand dest :: fresh), fresh, parse_fresh dest hprograms, hfresh,
      ?_⟩
    intro succeeds s s' hexec
    obtain ⟨ok₁, s₁, hskip, -, htrace⟩ := exec_sequence hprograms hexec
    obtain ⟨-, rfl⟩ := Outcome.finished.inj hskip
    exact ⟨⟨s.trace, List.prefix_refl _, .inr htrace⟩, fun _ => htrace⟩

/-- A commit of forty zeros. -/
def zeroCommit : GitInfo := { sha := List.replicate 40 '0' }

/-- No earlier job has left a checkout, and all commands succeed. -/
def firstCheckout : Oracle := fun _ argv => argv.head? ≠ some ['[']

/-- A checkout that an earlier job may have left is looked for, and not found. -/
theorem checkout_script_complete_fetch : ∃ out script s',
    checkoutScript zeroCommit [] "/builds/p".toList .fetch = .ok out ∧
    (lex out).bind parse = some script ∧
    exec firstCheckout script true ⟨fun _ => [], []⟩ = .finished true s' ∧
    ∃ before commands, s'.trace = before ++ allRan commands ∧
      (updateCommands zeroCommit [] "/builds/p".toList = .ok commands ∨
        ∃ fresh, checkoutCommands zeroCommit [] "/builds/p".toList = .ok fresh ∧
          commands = wipeCommand "/builds/p".toList :: fresh) := by
  cases hout : checkoutScript zeroCommit [] "/builds/p".toList .fetch with
  | error e =>
      have hok : (checkoutScript zeroCommit [] "/builds/p".toList .fetch).isOk = true := by decide
      rw [hout] at hok
      cases hok
  | ok out =>
      obtain ⟨script, fresh, hparse, hfresh, hcomplete⟩ :=
        checkout_script_complete zeroCommit [] "/builds/p".toList out .fetch hout
      obtain ⟨fresh', update, hfresh', hupdate, hlex⟩ := lex_checkoutScript hout
      obtain rfl := Except.ok.inj (hfresh.symm.trans hfresh')
      rw [scriptUpdate, if_pos ⟨rfl, by decide⟩] at hupdate
      obtain ⟨commands, hcommands, rfl⟩ := except_map_ok hupdate
      obtain ⟨hne, hall⟩ := isProgram_sync hcommands
      obtain ⟨argv, rest, rfl⟩ := List.exists_cons_of_ne_nil hne
      have hprograms : ∀ x ∈ wipeCommand "/builds/p".toList :: fresh, IsProgram x :=
        List.forall_mem_cons.mpr ⟨isProgram_wipe _, (isProgram_sync hfresh).2⟩
      have hsucceeds : ∀ x ∈ wipeCommand "/builds/p".toList :: fresh, ∀ trace,
          firstCheckout trace x = true := by
        intro x hx trace
        obtain ⟨program, args, rfl, -, hbracket⟩ := hprograms x hx
        simpa [firstCheckout] using hbracket
      have hupdating := parse_update "/builds/p".toList hall hprograms
      obtain ⟨s', hrun⟩ : ∃ s', exec firstCheckout
          (updateOrClone "/builds/p".toList argv rest fresh) true ⟨fun _ => [], []⟩ =
            .finished true s' :=
        exec_updateOrClone_none hprograms (fun _ _ => by simp [firstCheckout]) hsucceeds _
      have hscript : script = updateOrClone "/builds/p".toList argv rest fresh := by
        rw [hlex, Option.bind_some, hupdating] at hparse
        exact (Option.some.inj hparse).symm
      rw [← hscript] at hrun
      obtain ⟨⟨before, -, htrace⟩, -⟩ := hcomplete firstCheckout _ s' hrun
      refine ⟨out, script, s', rfl, hparse, hrun, before, ?_⟩
      rcases htrace with ⟨commands, hupdated, htrace⟩ | htrace
      · exact ⟨commands, htrace, .inl hupdated⟩
      · exact ⟨_, htrace, .inr ⟨fresh, hfresh, rfl⟩⟩

end Git

end TurboCi
