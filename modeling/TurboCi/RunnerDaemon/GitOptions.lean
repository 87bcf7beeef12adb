import TurboCi.RunnerDaemon.Git

set_option autoImplicit false

/-! # What git reads as an option

Values of the job's payload reach git in the middle of its argument lists. An argument that
begins with `-` is read as an option unless a `--` comes before it, so none of these values may
begin with one where they stand. `sync_commands` checks the commit, the repository's URL and the
refspecs, the destination is an absolute path, and pathspecs come after `--`
(`no_payload_option`). The three variables that list flags are for that purpose.
-/

namespace TurboCi

namespace Git

/-- The options that the templates of the commands hold. -/
def fixedOptions : List Chars :=
  words ["-c", "-C", "-q", "-f", "-rf", "-ffdx", "--prune", "--no-tags", "--init", "--recursive",
    "--"]

/-- An option that no payload chose but by its depth. -/
inductive TemplateOption : Chars → Prop
  | fixed {arg : Chars} (h : arg ∈ fixedOptions) : TemplateOption arg
  | sha1 : TemplateOption "--object-format=sha1".toList
  | sha256 : TemplateOption "--object-format=sha256".toList
  | depth (n : Nat) : TemplateOption ("--depth=".toList ++ Nat.toDigits 10 n)

/-- Every argument that is read as an option, with no `--` before it, is one of the template. -/
def OptionsFixed (argv : List Chars) : Prop :=
  ∀ before arg after, argv = before ++ arg :: after → arg.head? = some '-' →
    "--".toList ∉ before → TemplateOption arg

/-- Arguments that are no options but those of the template, wherever they stand. -/
def Harmless (args : List Chars) : Prop := ∀ arg ∈ args, arg.head? = some '-' → TemplateOption arg

/-- The operands of a `git checkout` in a destination. -/
def checkedOut : List Chars → Option (List Chars)
  | git :: c :: _ :: dir :: _ :: subcommand :: args =>
      if [git, c, dir, subcommand] = words ["git", "-c", "-C", "checkout"] then
        some (args.filter (·.head? ≠ some '-'))
      else none
  | _ => none

/-- A value that `sync_commands` refuses. -/
def Unusable (gitInfo : GitInfo) : Prop :=
  isCommitSha gitInfo.sha = false ∨ gitInfo.repoUrl.head? = some '-' ∨
    ∃ refspec ∈ gitInfo.refspecs, refspec.head? = some '-'

/-! ## Lists of arguments -/

theorem harmless_append {args more : List Chars} (hargs : Harmless args) (hmore : Harmless more) :
    Harmless (args ++ more) := by
  intro arg hmem
  rcases List.mem_append.mp hmem with hmem | hmem
  · exact hargs arg hmem
  · exact hmore arg hmem

theorem harmless_nil : Harmless [] := fun _ hmem => absurd hmem List.not_mem_nil

/-- A value that begins with no `-` is harmless. -/
theorem harmless_plain {arg : Chars} (h : arg.head? ≠ some '-') : Harmless [arg] := by
  intro x hmem hdash
  rw [List.mem_singleton.mp hmem] at hdash
  exact absurd hdash h

/-- The words of a template are. -/
theorem harmless_words {texts : List String}
    (h : ∀ arg ∈ words texts, arg.head? = some '-' → arg ∈ fixedOptions) :
    Harmless (words texts) :=
  fun arg hmem hdash => .fixed (h arg hmem hdash)

theorem optionsFixed_of_harmless {argv : List Chars} (h : Harmless argv) : OptionsFixed argv := by
  rintro before arg after rfl hdash -
  exact h arg (List.mem_append_right before List.mem_cons_self) hdash

/-- After `--` any argument may come. -/
theorem optionsFixed_dashes {args operands : List Chars} (h : Harmless args) :
    OptionsFixed (args ++ words ["--"] ++ operands) := by
  intro before arg after heq hdash hnot
  have hdashes : Harmless (args ++ words ["--"]) :=
    harmless_append h (harmless_words (by decide))
  by_cases hlen : before.length < (args ++ words ["--"]).length
  · -- the argument is one of those up to the `--`
    have hget : (args ++ words ["--"] ++ operands)[before.length]? = some arg := by
      rw [heq, List.getElem?_append_right le_rfl, Nat.sub_self]
      rfl
    rw [List.getElem?_append_left hlen] at hget
    exact hdashes arg (List.mem_of_getElem? hget) hdash
  · -- the `--` is before it
    have hpre : args ++ words ["--"] <+: before := by
      have hstart : args ++ words ["--"] <+: args ++ words ["--"] ++ operands :=
        List.prefix_append _ _
      apply List.prefix_of_prefix_length_le hstart
      · exact ⟨arg :: after, heq.symm⟩
      · omega
    exact absurd (hpre.subset (List.mem_append_right args (List.mem_singleton_self _))) hnot

/-! ## The commands -/

section Commands

variable {gitInfo : GitInfo} {vars : List Variable} {dest : Chars}

theorem head_of_usable_sha {sha : Chars} (h : isCommitSha sha = true) : sha.head? ≠ some '-' := by
  intro hdash
  have hall : sha.all isAsciiHexdigit = true := by
    rw [isCommitSha, Bool.and_eq_true] at h
    exact h.2
  have hhex := List.all_eq_true.mp hall '-' (List.mem_of_head? hdash)
  exact absurd hhex (by decide)

/-- A path in the destination. -/
theorem head_append {cs more : Chars} {c : Char} (h : cs.head? = some c) :
    (cs ++ more).head? = some c := by
  rw [List.head?_append, h]
  rfl

theorem harmless_git (hdest : dest.head? = some '/') {args : List Chars} (hargs : Harmless args) :
    Harmless (git dest args) := by
  have hdir : Harmless [dest] := harmless_plain (by rw [hdest]; decide)
  have hsafe : Harmless ["safe.directory=".toList ++ dest] :=
    harmless_plain (by rw [head_append (c := 's') rfl]; decide)
  have hoptions : Harmless (words ["-C"]) := harmless_words (by decide)
  have hstart : Harmless (words ["git", "-c"]) := harmless_words (by decide)
  have hmiddle := harmless_append (harmless_append hsafe hoptions) hdir
  exact harmless_append (harmless_append hstart hmiddle) hargs

theorem harmless_depthFlag (n : Nat) : Harmless (depthFlag n) := by
  unfold depthFlag
  split
  · intro arg hmem _
    rw [List.mem_singleton.mp hmem]
    exact .depth n
  · exact harmless_nil

theorem flags_unset {key : String} (h : lookup vars key.toList = none) : flags vars key = [] := by
  rw [flags, h]

theorem harmless_init (hdest : dest.head? = some '/') : Harmless (initCommand gitInfo dest) := by
  have hdir : Harmless [dest] := harmless_plain (by rw [hdest]; decide)
  refine harmless_append (harmless_append (harmless_words (by decide)) ?_) hdir
  -- the object format is passed on when it is one of the two git knows
  split
  · split
    · next hknown =>
        intro arg hmem _
        rw [List.mem_singleton.mp hmem]
        rcases hknown with hsha1 | hsha256
        · rw [hsha1]
          exact .sha1
        · rw [hsha256]
          exact .sha256
    · exact harmless_nil
  · exact harmless_nil

theorem harmless_fetch (hdest : dest.head? = some '/') (husable : ¬ Unusable gitInfo)
    (hunset : lookup vars "GIT_FETCH_EXTRA_FLAGS".toList = none) :
    Harmless (fetchCommand gitInfo vars dest) := by
  have hwhat : Harmless (if gitInfo.refspecs = [] then [gitInfo.sha] else gitInfo.refspecs) := by
    split
    · apply harmless_plain
      apply head_of_usable_sha
      by_contra hsha
      exact husable (.inl (by simpa using hsha))
    · intro refspec hmem hdash
      exact absurd (.inr (.inr ⟨refspec, hmem, hdash⟩)) husable
  have hwords : Harmless (words ["fetch", "-q", "--prune", "--no-tags"]) :=
    harmless_words (by decide)
  have hstart := harmless_append hwords (harmless_depthFlag (depth gitInfo vars))
  have hflags : Harmless (flags vars "GIT_FETCH_EXTRA_FLAGS") := by
    rw [flags_unset hunset]
    exact harmless_nil
  have horigin : Harmless (words ["origin"]) := harmless_words (by decide)
  exact harmless_git hdest
    (harmless_append (harmless_append (harmless_append hstart hflags) horigin) hwhat)

theorem harmless_remove (hdest : dest.head? = some '/') :
    ∀ argv ∈ removeCommands dest, Harmless argv := by
  have hinside : ∀ rest, Harmless [dest ++ "/.git".toList ++ rest] := fun rest =>
    harmless_plain (by rw [head_append (head_append hdest)]; decide)
  intro argv hmem
  rcases List.mem_pair.mp hmem with rfl | rfl
  · refine harmless_append (harmless_words (by decide)) ?_
    intro arg harg
    obtain ⟨name, -, rfl⟩ := List.mem_map.mp harg
    exact hinside ('/' :: name) _ (List.mem_singleton_self _)
  · exact harmless_append (harmless_words (by decide)) (hinside _)

theorem harmless_checkout (hdest : dest.head? = some '/') (husable : ¬ Unusable gitInfo)
    (hunset : lookup vars "GIT_CLEAN_FLAGS".toList = none) (existing : Bool) :
    ∀ argv ∈ checkoutSteps gitInfo vars dest existing, Harmless argv := by
  intro argv hmem
  rw [checkoutSteps, hunset] at hmem
  split at hmem
  · exact absurd hmem List.not_mem_nil
  · rcases List.mem_append.mp hmem with hmem | hmem
    · rw [List.mem_singleton.mp hmem]
      have hsha : Harmless [gitInfo.sha] := by
        apply harmless_plain
        apply head_of_usable_sha
        by_contra hsha
        exact husable (.inl (by simpa using hsha))
      exact harmless_git hdest (harmless_append (harmless_words (by decide)) hsha)
    · split at hmem
      · rw [List.mem_singleton.mp hmem]
        have hclean : splitWhitespace "-ffdx".toList = words ["-ffdx"] := by decide
        refine harmless_git hdest (harmless_append (harmless_words (by decide)) ?_)
        rw [Option.getD_none, hclean]
        exact harmless_words (by decide)
      · exact absurd hmem List.not_mem_nil

theorem optionsFixed_submodules (hdest : dest.head? = some '/')
    (hunset : lookup vars "GIT_SUBMODULE_UPDATE_FLAGS".toList = none) {recursive : Bool}
    {commands : List (List Chars)}
    (h : submoduleSteps gitInfo vars dest recursive = .ok commands) :
    ∀ argv ∈ commands, OptionsFixed argv := by
  have hrecursive : Harmless (if recursive then words ["--recursive"] else []) := by
    split
    · exact harmless_words (by decide)
    · exact harmless_nil
  have hpaths : ∀ args, Harmless args → OptionsFixed
      (if flags vars "GIT_SUBMODULE_PATHS" = [] then args
        else args ++ words ["--"] ++ flags vars "GIT_SUBMODULE_PATHS") := by
    intro args hargs
    split
    · exact optionsFixed_of_harmless hargs
    · exact optionsFixed_dashes hargs
  rw [submoduleSteps] at h
  dsimp only at h
  by_cases hbad : (flags vars "GIT_SUBMODULE_PATHS").any (· = ":(exclude)".toList) = true
  · rw [if_pos hbad] at h
    cases h
  · rw [if_neg hbad] at h
    obtain rfl := Except.ok.inj h
    intro argv hmem
    simp only [List.mem_cons, List.not_mem_nil, or_false] at hmem
    rcases hmem with rfl | rfl | rfl
    · exact optionsFixed_of_harmless (harmless_git hdest (harmless_words (by decide)))
    · exact hpaths _ (harmless_append (harmless_git hdest (harmless_words (by decide))) hrecursive)
    · apply hpaths
      rw [flags_unset hunset, List.append_nil]
      exact harmless_append (harmless_append (harmless_git hdest (harmless_words (by decide)))
        hrecursive) (harmless_depthFlag _)

/-! ## What is checked out -/

theorem checkedOut_git (args : List Chars) (subcommand : Chars) :
    checkedOut (git dest (subcommand :: args)) =
      if subcommand = "checkout".toList then some (args.filter (·.head? ≠ some '-')) else none := by
  have hargs : git dest (subcommand :: args) = "git".toList :: "-c".toList ::
      ("safe.directory=".toList ++ dest) :: "-C".toList :: dest :: subcommand :: args := rfl
  have hwords : words ["git", "-c", "-C", "checkout"] =
      ["git".toList, "-c".toList, "-C".toList, "checkout".toList] := rfl
  rw [hargs, checkedOut, hwords]
  simp only [List.cons.injEq, true_and, and_true]

/-- A command that is not one of git's in a destination checks nothing out. -/
theorem checkedOut_other {argv : List Chars} (h : argv.take 2 ≠ words ["git", "-c"]) :
    checkedOut argv = none := by
  unfold checkedOut
  split
  · split
    · next hcommand =>
        have hwords : words ["git", "-c", "-C", "checkout"] =
            ["git".toList, "-c".toList, "-C".toList, "checkout".toList] := rfl
        rw [hwords, List.cons.injEq, List.cons.injEq] at hcommand
        obtain ⟨rfl, rfl, -⟩ := hcommand
        exact absurd rfl h
    · rfl
  · rfl

theorem checkedOut_checkoutSteps (husable : ¬ Unusable gitInfo) (existing : Bool) :
    (checkoutSteps gitInfo vars dest existing).filterMap checkedOut =
      if lookup vars "GIT_CHECKOUT".toList = some "false".toList then [] else [[gitInfo.sha]] := by
  have hsha : gitInfo.sha.head? ≠ some '-' := by
    apply head_of_usable_sha
    by_contra hsha
    exact husable (.inl (by simpa using hsha))
  have hcheckout : checkedOut (git dest (words ["checkout", "-q", "-f"] ++ [gitInfo.sha])) =
      some [gitInfo.sha] := by
    have hkept : (words ["-q", "-f"] ++ [gitInfo.sha]).filter (·.head? ≠ some '-') =
        [gitInfo.sha] := by
      rw [List.filter_append, List.filter_eq_nil_iff.mpr (by decide), List.nil_append]
      simp [hsha]
    exact ((checkedOut_git _ _).trans (if_pos rfl)).trans (congrArg some hkept)
  have hclean : ∀ cleanFlags, checkedOut (git dest (words ["clean", "-q"] ++ cleanFlags)) = none :=
    fun cleanFlags => (checkedOut_git _ _).trans (if_neg (by decide))
  unfold checkoutSteps
  split
  · rfl
  · dsimp only
    rw [List.filterMap_append, List.filterMap_cons_some hcheckout]
    split
    · rw [List.filterMap_cons_none (hclean _)]
      rfl
    · rfl

theorem checkedOut_submodules {recursive : Bool} {commands : List (List Chars)}
    (h : submoduleSteps gitInfo vars dest recursive = .ok commands) :
    commands.filterMap checkedOut = [] := by
  have hgit : ∀ args, checkedOut (git dest ("submodule".toList :: args)) = none :=
    fun args => (checkedOut_git _ _).trans (if_neg (by decide))
  rw [submoduleSteps] at h
  dsimp only at h
  by_cases hbad : (flags vars "GIT_SUBMODULE_PATHS").any (· = ":(exclude)".toList) = true
  · rw [if_pos hbad] at h
    cases h
  · rw [if_neg hbad] at h
    obtain rfl := Except.ok.inj h
    apply List.filterMap_eq_nil_iff.mpr
    intro argv hmem
    simp only [List.mem_cons, List.not_mem_nil, or_false] at hmem
    rcases hmem with rfl | rfl | rfl
    · exact hgit _
    · split
      · exact hgit _
      · exact hgit _
    · split
      · exact hgit _
      · exact hgit _

/-! ## All commands -/

theorem except_map_ok {ε α β : Type} {x : Except ε α} {f : α → β} {b : β}
    (h : x.map f = .ok b) : ∃ a, x = .ok a ∧ f a = b := by
  cases x with
  | error e => cases h
  | ok a => exact ⟨a, rfl, Except.ok.inj h⟩

/-- The commands that are given. -/
theorem sync_cases {existing : Bool} {commands : List (List Chars)}
    (h : syncCommands gitInfo vars dest existing = .ok commands) :
    ¬ Unusable gitInfo ∧ ∃ submodules,
      commands = (if existing then removeCommands dest else []) ++
        [initCommand gitInfo dest,
          git dest (words ["remote", "add", "origin"] ++ [gitInfo.repoUrl]),
          fetchCommand gitInfo vars dest] ++ checkoutSteps gitInfo vars dest existing ++
        submodules ∧
      (submodules = [] ∨
        ∃ recursive, submoduleSteps gitInfo vars dest recursive = .ok submodules) := by
  unfold syncCommands at h
  split at h
  · cases h
  · next hsha =>
      split at h
      · cases h
      · next hurl =>
          cases hfind : gitInfo.refspecs.find? (·.head? = some '-') with
          | some bad =>
              rw [hfind] at h
              cases h
          | none =>
              rw [hfind] at h
              dsimp only at h
              have husable : ¬ Unusable gitInfo := by
                rintro (hbad | hbad | ⟨refspec, hmem, hdash⟩)
                · exact hsha (by simp [hbad])
                · exact hurl hbad
                · have hnone := List.find?_eq_none.mp hfind refspec hmem
                  exact hnone (decide_eq_true hdash)
              refine ⟨husable, ?_⟩
              split at h
              · exact ⟨[], by rw [List.append_nil]; exact (Except.ok.inj h).symm, .inl rfl⟩
              · obtain ⟨submodules, hsteps, rfl⟩ := except_map_ok h
                exact ⟨submodules, rfl, .inr ⟨false, hsteps⟩⟩
              · obtain ⟨submodules, hsteps, rfl⟩ := except_map_ok h
                exact ⟨submodules, rfl, .inr ⟨true, hsteps⟩⟩

/-- Unusable values give no command. -/
theorem sync_unusable (h : Unusable gitInfo) (existing : Bool) :
    ∃ e, syncCommands gitInfo vars dest existing = .error e := by
  cases hsync : syncCommands gitInfo vars dest existing with
  | error e => exact ⟨e, rfl⟩
  | ok commands => exact absurd h (sync_cases hsync).1

/-- **No value of the payload becomes an option of git**, in the commands of a fresh checkout and
of an update: every argument that is read as an option is one of the templates', only the job's
commit is checked out, and with unusable values there are no commands. -/
theorem no_payload_option (gitInfo : GitInfo) (vars : List Variable) (dest : Chars)
    (existing : Bool) (hdest : dest.head? = some '/')
    (hfetch : lookup vars "GIT_FETCH_EXTRA_FLAGS".toList = none)
    (hclean : lookup vars "GIT_CLEAN_FLAGS".toList = none)
    (hsubmodule : lookup vars "GIT_SUBMODULE_UPDATE_FLAGS".toList = none) :
    (∀ commands, syncCommands gitInfo vars dest existing = .ok commands →
      (∀ argv ∈ commands, OptionsFixed argv) ∧
      commands.filterMap checkedOut =
        if lookup vars "GIT_CHECKOUT".toList = some "false".toList then [] else [[gitInfo.sha]]) ∧
    (Unusable gitInfo → ∃ e, syncCommands gitInfo vars dest existing = .error e) := by
  refine ⟨fun commands h => ?_, fun h => sync_unusable h existing⟩
  obtain ⟨husable, submodules, rfl, hsubmodules⟩ := sync_cases h
  have hurl : Harmless [gitInfo.repoUrl] :=
    harmless_plain fun hdash => husable (.inr (.inl hdash))
  have hremote : ∀ arg, Harmless [arg] →
      Harmless (git dest (words ["remote", "add", "origin"] ++ [arg])) := fun arg harg =>
    harmless_git hdest (harmless_append (harmless_words (by decide)) harg)
  constructor
  · intro argv hmem
    simp only [List.mem_append, List.mem_cons, List.not_mem_nil, or_false] at hmem
    -- the commands one by one, in their order
    rcases hmem with ((hmem | rfl | rfl | rfl) | hmem) | hmem
    · split at hmem
      · exact optionsFixed_of_harmless (harmless_remove hdest argv hmem)
      · exact absurd hmem List.not_mem_nil
    · exact optionsFixed_of_harmless (harmless_init hdest)
    · exact optionsFixed_of_harmless (hremote _ hurl)
    · exact optionsFixed_of_harmless (harmless_fetch hdest husable hfetch)
    · exact optionsFixed_of_harmless (harmless_checkout hdest husable hclean existing argv hmem)
    · rcases hsubmodules with rfl | ⟨recursive, hsteps⟩
      · exact absurd hmem List.not_mem_nil
      · exact optionsFixed_submodules hdest hsubmodule hsteps argv hmem
  -- only the checkout names what is checked out
  · have hremove : (if existing then removeCommands dest else []).filterMap checkedOut = [] := by
      split
      · exact List.filterMap_eq_nil_iff.mpr fun argv hmem => by
          rcases List.mem_pair.mp hmem with rfl | rfl
          · apply checkedOut_other
            show words ["rm", "-f"] ≠ words ["git", "-c"]
            decide
          · apply checkedOut_other
            show words ["rm", "-rf"] ≠ words ["git", "-c"]
            decide
      · rfl
    have hinit : checkedOut (initCommand gitInfo dest) = none := by
      apply checkedOut_other
      show ["git".toList, "init".toList] ≠ words ["git", "-c"]
      decide
    have hadd : checkedOut (git dest (words ["remote", "add", "origin"] ++ [gitInfo.repoUrl])) =
        none := (checkedOut_git _ _).trans (if_neg (by decide))
    have hfetched : checkedOut (fetchCommand gitInfo vars dest) = none := by
      unfold fetchCommand
      exact (checkedOut_git _ _).trans (if_neg (by decide))
    have hlast : submodules.filterMap checkedOut = [] := by
      rcases hsubmodules with rfl | ⟨recursive, hsteps⟩
      · rfl
      · exact checkedOut_submodules hsteps
    rw [List.filterMap_append, List.filterMap_append, List.filterMap_append, hremove, hlast,
      checkedOut_checkoutSteps husable, List.filterMap_cons_none hinit,
      List.filterMap_cons_none hadd, List.filterMap_cons_none hfetched, List.filterMap_nil,
      List.nil_append, List.nil_append, List.append_nil]

end Commands

/-- A commit of forty zeros, with one refspec. -/
def refspecInfo (refspec : Chars) : GitInfo where
  repoUrl := "https://gitlab.example.com/g/p.git".toList
  sha := List.replicate 40 '0'
  refspecs := [refspec]

/-- A refspec that would be an option gives no update, another one is fetched. -/
theorem no_payload_option_refspec :
    (∃ e, syncCommands (refspecInfo "--upload-pack=id".toList) [] "/builds/p".toList true =
      .error e) ∧
    ∃ commands, syncCommands (refspecInfo "refs/heads/main".toList) [] "/builds/p".toList true =
        .ok commands ∧ (∀ argv ∈ commands, OptionsFixed argv) ∧
      commands.filterMap checkedOut = [[List.replicate 40 '0']] := by
  have hsafe (refspec : Chars) := no_payload_option (refspecInfo refspec) [] "/builds/p".toList true
    (by decide) (by decide) (by decide) (by decide)
  refine ⟨(hsafe _).2 (.inr (.inr ⟨_, List.mem_singleton_self _, by decide⟩)), ?_⟩
  cases h : syncCommands (refspecInfo "refs/heads/main".toList) [] "/builds/p".toList true with
  | error e =>
      have hok : (syncCommands (refspecInfo "refs/heads/main".toList) [] "/builds/p".toList
          true).isOk = true := by decide
      rw [h] at hok
      cases hok
  | ok commands =>
      have hfixed := (hsafe _).1 commands h
      exact ⟨commands, rfl, hfixed.1, hfixed.2⟩

end Git

end TurboCi
