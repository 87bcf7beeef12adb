import TurboCi.RunnerDaemon.Expansion

set_option autoImplicit false

/-! # What a template is read as

The grammar of the texts that are expanded: plain characters, `$$`, `$KEY`, `${KEY}`, and a `$`
that begins none of these and stands for itself. Every text is read in one way (`exists_reads`),
which does not depend on the values, and an expansion puts the values in for the names and
`$` for `$$` (`ReadsAs.expand_eq`). So nothing of a value is ever read.
-/

namespace TurboCi

/-- A part of a template. -/
inductive TemplateToken where
  | char (c : Char)
  /-- `$$` -/
  | dollar
  /-- `$KEY` -/
  | bare (key : Chars)
  /-- `${KEY}` -/
  | braced (key : Chars)
  deriving DecidableEq

namespace TemplateToken

/-- How the part is written. -/
def source : TemplateToken → Chars
  | char c => [c]
  | dollar => ['$', '$']
  | bare key => '$' :: key
  | braced key => '$' :: '{' :: (key ++ ['}'])

def piece : TemplateToken → Piece
  | char c => .char c
  | dollar => .char '$'
  | bare key => .name key
  | braced key => .name key

/-- What the part expands to. -/
def value (values : Values) (token : TemplateToken) : Chars := token.piece.value values

/-- The name that the part refers to. -/
def key? : TemplateToken → Option Chars
  | char _ => none
  | dollar => none
  | bare key => some key
  | braced key => some key

end TemplateToken

/-- What follows a `$` makes it the begin of `$$`, `$KEY` or `${KEY}`. -/
inductive BeginsReference : Chars → Prop where
  | dollar {rest : Chars} : BeginsReference ('$' :: rest)
  | bare {c : Char} {rest : Chars} : isNameChar c = true → c.isDigit = false →
      BeginsReference (c :: rest)
  | braced {key rest : Chars} : isValidKey key = true →
      BeginsReference ('{' :: (key ++ '}' :: rest))

/-- The text is read as the tokens. -/
inductive ReadsAs : Chars → List TemplateToken → Prop where
  | nil : ReadsAs [] []
  | char {c : Char} {rest : Chars} {tokens : List TemplateToken} : c ≠ '$' → ReadsAs rest tokens →
      ReadsAs (c :: rest) (.char c :: tokens)
  | dollar {rest : Chars} {tokens : List TemplateToken} : ReadsAs rest tokens →
      ReadsAs ('$' :: '$' :: rest) (.dollar :: tokens)
  /-- a name goes on as far as it can -/
  | bare {key rest : Chars} {tokens : List TemplateToken} : isValidKey key = true →
      (∀ c ∈ rest.head?, isNameChar c = false) → ReadsAs rest tokens →
      ReadsAs ('$' :: (key ++ rest)) (.bare key :: tokens)
  | braced {key rest : Chars} {tokens : List TemplateToken} : isValidKey key = true →
      ReadsAs rest tokens → ReadsAs ('$' :: '{' :: (key ++ '}' :: rest)) (.braced key :: tokens)
  | kept {rest : Chars} {tokens : List TemplateToken} : ¬ BeginsReference rest →
      ReadsAs rest tokens → ReadsAs ('$' :: rest) (.char '$' :: tokens)

/-! ## Names -/

theorem first_of_isNameChar {c : Char} (h : isNameChar c = true) (hdigit : c.isDigit = false) :
    (c.isAlpha || c == '_') = true := by
  unfold isNameChar Char.isAlphanum at h
  rwa [hdigit, Bool.or_false] at h

/-- A valid name that is no more than a part of `braced` and is followed by `}`. -/
theorem takeWhile_of_isValidKey {key : Chars} (h : isValidKey key = true) (rest : Chars) :
    (key ++ '}' :: rest).takeWhile (· ≠ '}') = key := by
  have hall : ∀ c ∈ key, decide (c ≠ '}') = true := by
    intro c hc
    apply decide_eq_true
    rintro rfl
    exact absurd (isNameChar_of_isValidKey h _ hc) (by decide)
  rw [List.takeWhile_append_of_pos hall, List.takeWhile_cons_of_neg (by decide), List.append_nil]

/-- What stands between the braces when there is a closing one. -/
theorem eq_of_takeWhile_length_lt {braced : Chars}
    (h : (braced.takeWhile (· ≠ '}')).length < braced.length) :
    ∃ rest, braced = braced.takeWhile (· ≠ '}') ++ '}' :: rest := by
  induction braced with
  | nil => cases h
  | cons c braced ih =>
      by_cases hc : c = '}'
      · exact ⟨braced, by simp [hc]⟩
      · have htake : (c :: braced).takeWhile (· ≠ '}') = c :: braced.takeWhile (· ≠ '}') :=
          List.takeWhile_cons_of_pos (by simpa using hc)
        rw [htake, List.length_cons, List.length_cons] at h
        obtain ⟨rest, hrest⟩ := ih (by omega)
        refine ⟨rest, ?_⟩
        rw [htake, List.cons_append, ← hrest]

/-! ## The pieces of what is read -/

theorem pieces_char {c : Char} (hc : c ≠ '$') (rest : Chars) :
    pieces (c :: rest) = .char c :: pieces rest := by
  rw [pieces, piecesFrom, if_neg hc]
  rfl

theorem pieces_escaped (rest : Chars) : pieces ('$' :: '$' :: rest) = .char '$' :: pieces rest := by
  rw [pieces, piecesFrom, if_pos rfl]
  rfl

theorem pieces_braced {key : Chars} (h : isValidKey key = true) (rest : Chars) :
    pieces ('$' :: '{' :: (key ++ '}' :: rest)) = .name key :: pieces rest := by
  have hpiece : referencePiece ('{' :: (key ++ '}' :: rest)) = (.name key, key.length + 2) := by
    simp only [referencePiece, takeWhile_of_isValidKey h rest]
    rw [if_pos ⟨by simp, h⟩]
  rw [pieces, piecesFrom, if_pos rfl, hpiece]
  show Piece.name key :: piecesFrom (key.length + 1) (key ++ '}' :: rest) = _
  have hskip : piecesFrom (key.length + 1) (key ++ '}' :: rest) = piecesFrom 0 rest := by
    have happend : key ++ '}' :: rest = (key ++ ['}']) ++ rest := by simp
    have hlen : key.length + 1 = (key ++ ['}']).length := by simp
    rw [happend, hlen, piecesFrom_length]
  rw [hskip]
  rfl

theorem pieces_kept {rest : Chars} (h : ¬ BeginsReference rest) :
    pieces ('$' :: rest) = .char '$' :: pieces rest := by
  have hpiece : referencePiece rest = (.char '$', 0) := by
    unfold referencePiece
    split
    · exact absurd .dollar h
    · next braced =>
        simp only
        split
        · next hvalid =>
            obtain ⟨later, heq⟩ := eq_of_takeWhile_length_lt hvalid.1
            refine absurd ?_ h
            rw [heq]
            exact .braced hvalid.2
        · rfl
    · -- no name begins here
      have hlen : nameLen rest = 0 := by
        cases rest with
        | nil => rfl
        | cons c rest =>
            show (if c.isDigit then 0 else ((c :: rest).takeWhile isNameChar).length) = 0
            cases hdigit : c.isDigit with
            | true => rfl
            | false =>
                have hname : ¬ isNameChar c = true := fun hname => h (.bare hname hdigit)
                rw [List.takeWhile_cons_of_neg hname]
                rfl
      simp only [hlen, if_true]
  rw [pieces, piecesFrom, if_pos rfl, hpiece]
  rfl

namespace ReadsAs

variable {text : Chars} {tokens : List TemplateToken}

theorem pieces_eq (h : ReadsAs text tokens) : pieces text = tokens.map TemplateToken.piece := by
  induction h with
  | nil => rfl
  | char hc _ ih => rw [pieces_char hc, ih]; rfl
  | dollar _ ih => rw [pieces_escaped, ih]; rfl
  | bare hkey hrest _ ih => rw [pieces_dollar hkey hrest, ih]; rfl
  | braced hkey _ ih => rw [pieces_braced hkey, ih]; rfl
  | kept hno _ ih => rw [pieces_kept hno, ih]; rfl

/-- **An expansion puts the values into the tokens.** -/
theorem expand_eq (h : ReadsAs text tokens) (values : Values) :
    expand text values = tokens.flatMap (TemplateToken.value values) := by
  rw [TurboCi.expand_eq, h.pieces_eq, List.flatMap_map]
  rfl

theorem source_eq (h : ReadsAs text tokens) : tokens.flatMap TemplateToken.source = text := by
  induction h with
  | nil => rfl
  | char _ _ ih => rw [List.flatMap_cons, ih]; rfl
  | dollar _ ih => rw [List.flatMap_cons, ih]; rfl
  | bare _ _ _ ih => rw [List.flatMap_cons, ih]; rfl
  | braced _ _ ih =>
      rw [List.flatMap_cons, ih]
      simp [TemplateToken.source]
  | kept _ _ ih => rw [List.flatMap_cons, ih]; rfl

theorem isValidKey_of_mem (h : ReadsAs text tokens) {token : TemplateToken} (hmem : token ∈ tokens)
    {key : Chars} (hkey : key ∈ token.key?) : isValidKey key = true := by
  induction h with
  | nil => cases hmem
  | char _ _ ih | dollar _ ih | kept _ _ ih =>
      rcases List.mem_cons.mp hmem with rfl | hmem
      · cases hkey
      · exact ih hmem
  | bare hvalid _ _ ih | braced hvalid _ ih =>
      rcases List.mem_cons.mp hmem with rfl | hmem
      · rwa [← Option.some.inj hkey]
      · exact ih hmem

/-- What is read after some of the tokens. -/
theorem of_append {before after : List TemplateToken} (h : ReadsAs text (before ++ after)) :
    ReadsAs (after.flatMap TemplateToken.source) after := by
  induction before generalizing text with
  | nil =>
      rw [List.nil_append] at h
      rwa [h.source_eq]
  | cons token before ih =>
      cases h with
      | char _ hrest => exact ih hrest
      | dollar hrest => exact ih hrest
      | bare _ _ hrest => exact ih hrest
      | braced _ hrest => exact ih hrest
      | kept _ hrest => exact ih hrest

/-- A `${` that no valid name and `}` follow is read as it is. -/
theorem eq_of_not_braced {rest : Chars} (h : ReadsAs ('$' :: '{' :: rest) tokens)
    (hno : ¬ ∃ key later, rest = key ++ '}' :: later ∧ isValidKey key = true) :
    ∃ later, tokens = .char '$' :: .char '{' :: later := by
  generalize htext : '$' :: '{' :: rest = text at h
  cases h with
  | nil => cases htext
  | char hc _ => exact absurd (List.cons.inj htext).1.symm hc
  | dollar _ => exact absurd (List.cons.inj (List.cons.inj htext).2).1 (by decide)
  | @bare key later _ hkey _ _ =>
      have hbrace := (List.cons.inj htext).2
      cases key with
      | nil => cases hkey
      | cons c key =>
          obtain rfl : '{' = c := (List.cons.inj hbrace).1
          exact absurd hkey (by rw [isValidKey]; simp)
  | @braced key later _ hkey _ =>
      exact absurd ⟨key, later, (List.cons.inj (List.cons.inj htext).2).2, hkey⟩ hno
  | kept _ hrest =>
      rw [← (List.cons.inj htext).2] at hrest
      cases hrest with
      | char _ _ => exact ⟨_, rfl⟩

/-- A name takes all the name characters that follow. -/
theorem bare_takeWhile {c : Char} {later : Chars} (hname : isNameChar c = true)
    (hdigit : c.isDigit = false) (h : ReadsAs (later.dropWhile isNameChar) tokens) :
    ReadsAs ('$' :: c :: later) (.bare (c :: later.takeWhile isNameChar) :: tokens) := by
  have hkey : isValidKey (c :: later.takeWhile isNameChar) = true := by
    have hall : (later.takeWhile isNameChar).all isNameChar = true := List.all_takeWhile
    rw [isValidKey, first_of_isNameChar hname hdigit, hall]
    rfl
  have hstop : ∀ d ∈ (later.dropWhile isNameChar).head?, isNameChar d = false := by
    intro d hd
    have hhead := List.head?_dropWhile_not isNameChar later
    rw [Option.mem_def.mp hd] at hhead
    exact hhead
  have hbare := ReadsAs.bare hkey hstop h
  have hsplit : later.takeWhile isNameChar ++ later.dropWhile isNameChar = later :=
    List.takeWhile_append_dropWhile
  rwa [List.cons_append, hsplit] at hbare

end ReadsAs

/-- Every text is read in some way. -/
theorem exists_reads (text : Chars) : ∃ tokens, ReadsAs text tokens := by
  induction hn : text.length using Nat.strong_induction_on generalizing text with
  | _ n ih =>
    subst hn
    cases text with
    | nil => exact ⟨[], .nil⟩
    | cons c rest =>
        have hlater : ∀ later : Chars, later.length ≤ rest.length →
            ∃ tokens, ReadsAs later tokens :=
          fun later hle => ih later.length (Nat.lt_succ_of_le hle) later rfl
        by_cases hc : c = '$'
        · -- a `$` stands for itself only where nothing else begins
          subst hc
          by_cases hbegins : BeginsReference rest
          · cases hbegins with
            | @dollar later =>
                obtain ⟨tokens, hreads⟩ := hlater later (by simp)
                exact ⟨_, .dollar hreads⟩
            | @bare c later hname hdigit =>
                have hshort : (later.dropWhile isNameChar).length ≤ (c :: later).length :=
                  (List.dropWhile_suffix isNameChar).length_le.trans (by simp)
                obtain ⟨tokens, hreads⟩ := hlater _ hshort
                exact ⟨_, .bare_takeWhile hname hdigit hreads⟩
            | @braced key later hkey =>
                have hshort : later.length ≤ ('{' :: (key ++ '}' :: later)).length := by
                  simp only [List.length_cons, List.length_append]
                  omega
                obtain ⟨tokens, hreads⟩ := hlater later hshort
                exact ⟨_, .braced hkey hreads⟩
          · obtain ⟨tokens, hreads⟩ := hlater rest (le_refl _)
            exact ⟨_, .kept hbegins hreads⟩
        · obtain ⟨tokens, hreads⟩ := hlater rest (le_refl _)
          exact ⟨_, .char hc hreads⟩

/-! ## Expanding once -/

/-- `$` doubled. -/
def escape (c : Char) : Chars := if c = '$' then ['$', '$'] else [c]

theorem expand_escape (text : Chars) (values : Values) :
    expand (text.flatMap escape) values = text := by
  have hreads : ∃ tokens, ReadsAs (text.flatMap escape) tokens ∧
      tokens.flatMap (TemplateToken.value values) = text := by
    induction text with
    | nil => exact ⟨[], .nil, rfl⟩
    | cons c text ih =>
        obtain ⟨tokens, hreads, hvalue⟩ := ih
        by_cases hc : c = '$'
        · refine ⟨.dollar :: tokens, ?_, ?_⟩
          · rw [List.flatMap_cons, escape, if_pos hc]
            exact .dollar hreads
          · rw [List.flatMap_cons, hvalue, hc]
            rfl
        · refine ⟨.char c :: tokens, ?_, ?_⟩
          · rw [List.flatMap_cons, escape, if_neg hc]
            exact .char hc hreads
          · rw [List.flatMap_cons, hvalue]
            rfl
  obtain ⟨tokens, hreads, hvalue⟩ := hreads
  rw [hreads.expand_eq, hvalue]

/-- **Expansion is one pass**: doubling every `$` undoes it, and a template is made of tokens that
do not depend on the values, between which an unclosed or invalid `${` is kept. -/
theorem expand_single_pass :
    (∀ (text : Chars) (values : Values), expand (text.flatMap escape) values = text) ∧
    ∀ template : Chars, ∃ tokens : List TemplateToken,
      tokens.flatMap TemplateToken.source = template ∧
      (∀ token ∈ tokens, ∀ key ∈ token.key?, isValidKey key = true) ∧
      (∀ values, expand template values = tokens.flatMap (TemplateToken.value values)) ∧
      ∀ before after rest, tokens = before ++ after →
        after.flatMap TemplateToken.source = '$' :: '{' :: rest →
        (¬ ∃ key later, rest = key ++ '}' :: later ∧ isValidKey key = true) →
        ∃ later, after = .char '$' :: .char '{' :: later := by
  refine ⟨expand_escape, fun template => ?_⟩
  obtain ⟨tokens, hreads⟩ := exists_reads template
  refine ⟨tokens, hreads.source_eq, fun token hmem key => hreads.isValidKey_of_mem hmem,
    hreads.expand_eq, ?_⟩
  rintro before after rest rfl hsource hno
  have hafter := hreads.of_append
  rw [hsource] at hafter
  exact hafter.eq_of_not_braced hno

/-- A value that looks like a reference is inserted as it is. -/
example : expand "a$X-${Y}-$\x7bX-$$".toList
    (fun key => if key = ['X'] then some "${Y}$$".toList else none) =
      "a${Y}$$--$\x7bX-$".toList := by decide

end TurboCi
