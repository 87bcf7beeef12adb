import TurboCi.RunnerDaemon.Script

set_option autoImplicit false

/-! # Templates

A text that is expanded is a list of pieces, characters and references to variables, whatever the
values are: expanding it puts the values in (`expand_eq`). So an expansion depends on the values
of the names that the text refers to and on nothing else.
-/

namespace TurboCi

inductive Piece where
  | char (c : Char)
  | name (key : Chars)
  deriving DecidableEq

namespace Piece

def value (values : Values) : Piece → Chars
  | char c => [c]
  | name key => (values key).getD []

end Piece

/-- The piece that `after` begins with, after a `$`, and how many characters of it belong to the
piece. -/
def referencePiece (after : Chars) : Piece × Nat :=
  match after with
  | '$' :: _ => (.char '$', 1)
  | '{' :: braced =>
      let name := braced.takeWhile (· ≠ '}')
      if name.length < braced.length ∧ isValidKey name then (.name name, name.length + 2)
      else (.char '$', 0)
  | _ =>
      let len := nameLen after
      if len = 0 then (.char '$', 0) else (.name (after.take len), len)

/-- The pieces of a text, the next `k` characters of which belong to an earlier piece. -/
def piecesFrom : Nat → Chars → List Piece
  | _, [] => []
  | k + 1, _ :: rest => piecesFrom k rest
  | 0, c :: after =>
      if c = '$' then (referencePiece after).1 :: piecesFrom (referencePiece after).2 after
      else .char c :: piecesFrom 0 after

def pieces (text : Chars) : List Piece := piecesFrom 0 text

/-- The names that a text refers to. -/
def references (text : Chars) : List Chars :=
  (pieces text).filterMap fun
    | .char _ => none
    | .name key => some key

/-! ## Expanding pieces -/

theorem reference_eq (values : Values) (after : Chars) :
    reference values after =
      ((referencePiece after).1.value values, (referencePiece after).2) := by
  unfold reference
  split
  · rfl
  · next braced =>
      show _ = ((referencePiece ('{' :: braced)).1.value values, (referencePiece ('{' :: braced)).2)
      simp only [referencePiece]
      split
      · rfl
      · rfl
  · next hdollar hbrace =>
      unfold referencePiece
      split
      · exact (hdollar _ rfl).elim
      · exact (hbrace _ rfl).elim
      · simp only
        split
        · rfl
        · rfl

theorem expandFrom_eq (values : Values) (text : Chars) : ∀ k,
    expandFrom values k text = (piecesFrom k text).flatMap (Piece.value values) := by
  induction text with
  | nil => intro k; cases k <;> rfl
  | cons c after ih =>
      intro k
      cases k with
      | succ k => exact ih k
      | zero =>
          rw [expandFrom, piecesFrom]
          by_cases hc : c = '$'
          · rw [if_pos hc, if_pos hc, List.flatMap_cons, reference_eq, ih]
          · rw [if_neg hc, if_neg hc, List.flatMap_cons, ih]
            rfl

/-- **An expansion puts the values into the pieces of the text.** -/
theorem expand_eq (text : Chars) (values : Values) :
    expand text values = (pieces text).flatMap (Piece.value values) :=
  expandFrom_eq values text 0

theorem mem_references {text key : Chars} : key ∈ references text ↔ .name key ∈ pieces text := by
  unfold references
  rw [List.mem_filterMap]
  constructor
  · rintro ⟨piece, hpiece, heq⟩
    cases piece with
    | char c => cases heq
    | name key' =>
        obtain rfl := Option.some.inj heq
        exact hpiece
  · intro h
    exact ⟨.name key, h, rfl⟩

/-- Values that agree on the names that a text refers to expand it to the same text. -/
theorem expand_congr {text : Chars} {values values' : Values}
    (h : ∀ key ∈ references text, (values key).getD [] = (values' key).getD []) :
    expand text values = expand text values' := by
  rw [expand_eq, expand_eq]
  refine List.flatMap_congr fun piece hpiece => ?_
  cases piece with
  | char c => rfl
  | name key => exact h key (mem_references.mpr hpiece)

/-! ## Two expansions of one text

A relation between the texts of two runs, for whether they may differ there: for example that
they are equal unless they may differ, or that the second one is at least as long, and longer
where they may. -/

structure Tracks (Rel : Prop → Chars → Chars → Prop) : Prop where
  refl : ∀ a, Rel False a a
  append : ∀ {T U : Prop} {a b c d : Chars}, Rel T a b → Rel U c d → Rel (T ∨ U) (a ++ c) (b ++ d)

section Tracks

variable {Rel : Prop → Chars → Chars → Prop}

theorem Tracks.flatMap (h : Tracks Rel) {α : Type} {T : α → Prop} {f g : α → Chars} (xs : List α)
    (hxs : ∀ x ∈ xs, Rel (T x) (f x) (g x)) :
    Rel (∃ x ∈ xs, T x) (xs.flatMap f) (xs.flatMap g) := by
  induction xs with
  | nil =>
      have hfalse : (∃ x ∈ ([] : List α), T x) = False := by simp
      rw [hfalse]
      exact h.refl []
  | cons x xs ih =>
      have hor : (∃ y ∈ x :: xs, T y) = (T x ∨ ∃ y ∈ xs, T y) := by simp
      rw [hor, List.flatMap_cons, List.flatMap_cons]
      exact h.append (hxs x List.mem_cons_self) (ih fun y hy => hxs y (List.mem_cons_of_mem x hy))

/-- What relates the values of the names in a text relates the expansions of the text. -/
theorem Tracks.expand (h : Tracks Rel) {T : Chars → Prop} {values values' : Values} (text : Chars)
    (hvalues : ∀ key ∈ references text,
      Rel (T key) ((values key).getD []) ((values' key).getD [])) :
    Rel (∃ key ∈ references text, T key) (expand text values) (expand text values') := by
  have hpieces := h.flatMap (T := fun piece => ∃ key, piece = .name key ∧ T key)
    (f := Piece.value values) (g := Piece.value values') (pieces text) (by
      intro piece hpiece
      cases piece with
      | char c =>
          have hfalse : (∃ key, Piece.char c = .name key ∧ T key) = False := by simp
          rw [hfalse]
          exact h.refl [c]
      | name key =>
          have hkey : (∃ key', Piece.name key = .name key' ∧ T key') = T key := by simp
          rw [hkey]
          exact hvalues key (mem_references.mpr hpiece))
  have hexists : (∃ piece ∈ pieces text, ∃ key, piece = .name key ∧ T key) =
      ∃ key ∈ references text, T key := by
    apply propext
    constructor
    · rintro ⟨piece, hpiece, key, rfl, hkey⟩
      exact ⟨key, mem_references.mpr hpiece, hkey⟩
    · rintro ⟨key, hkey, htainted⟩
      exact ⟨.name key, mem_references.mp hkey, key, rfl, htainted⟩
  rw [hexists] at hpieces
  rw [expand_eq, expand_eq]
  exact hpieces

end Tracks

/-! ## Names in a text -/

theorem isNameChar_of_isValidKey {key : Chars} (h : isValidKey key = true) :
    ∀ c ∈ key, isNameChar c = true := by
  cases key with
  | nil => cases h
  | cons c cs =>
      obtain ⟨hfirst, hrest⟩ := Bool.and_eq_true_iff.mp h
      intro d hd
      rcases List.mem_cons.mp hd with rfl | hd
      · rcases Bool.or_eq_true_iff.mp hfirst with halpha | hline
        · simp [isNameChar, Char.isAlphanum, halpha]
        · simp [isNameChar, hline]
      · exact List.all_eq_true.mp hrest d hd

theorem isDigit_of_isAlpha {c : Char} (h : c.isAlpha = true) : c.isDigit = false := by
  by_contra hdigit
  rw [Bool.not_eq_false] at hdigit
  have hhigh : c.val ≤ '9'.val := of_decide_eq_true (Bool.and_eq_true_iff.mp hdigit).2
  have halpha : (c.isUpper || c.isLower) = true := h
  rcases Bool.or_eq_true_iff.mp halpha with hupper | hlower
  · have hlow : 'A'.val ≤ c.val := (of_decide_eq_true hupper).1
    exact absurd (UInt32.le_trans hlow hhigh) (by decide)
  · have hlow : 'a'.val ≤ c.val := of_decide_eq_true (Bool.and_eq_true_iff.mp hlower).1
    exact absurd (UInt32.le_trans hlow hhigh) (by decide)

theorem nameLen_append {key rest : Chars} (h : isValidKey key = true)
    (hrest : ∀ c ∈ rest.head?, isNameChar c = false) : nameLen (key ++ rest) = key.length := by
  have hchars := isNameChar_of_isValidKey h
  cases key with
  | nil => cases h
  | cons c cs =>
      obtain ⟨hfirst, -⟩ := Bool.and_eq_true_iff.mp h
      have hdigit : c.isDigit = false := by
        rcases Bool.or_eq_true_iff.mp hfirst with halpha | hline
        · exact isDigit_of_isAlpha halpha
        · rw [eq_of_beq hline]
          decide
      show (if c.isDigit then 0 else _) = _
      rw [if_neg (by rw [hdigit]; exact Bool.false_ne_true)]
      show ((c :: cs ++ rest).takeWhile isNameChar).length = _
      rw [List.takeWhile_append_of_pos hchars]
      cases rest with
      | nil => simp
      | cons d rest =>
          have hd : isNameChar d = false := hrest d rfl
          rw [List.takeWhile_cons_of_neg (by rw [hd]; exact Bool.false_ne_true), List.append_nil]

theorem piecesFrom_length (text rest : Chars) : piecesFrom text.length (text ++ rest) =
    piecesFrom 0 rest := by
  induction text with
  | nil => rfl
  | cons c text ih => exact ih

/-- A `$` and a name is a reference, up to what cannot be a part of the name. -/
theorem pieces_dollar {key rest : Chars} (h : isValidKey key = true)
    (hrest : ∀ c ∈ rest.head?, isNameChar c = false) :
    pieces ('$' :: (key ++ rest)) = .name key :: pieces rest := by
  have hlen := nameLen_append h hrest
  have hpiece : referencePiece (key ++ rest) = (.name key, key.length) := by
    cases key with
    | nil => cases h
    | cons c cs =>
        obtain ⟨hfirst, -⟩ := Bool.and_eq_true_iff.mp h
        have hdollar : c ≠ '$' := by
          rintro rfl
          exact absurd hfirst (by decide)
        have hbrace : c ≠ '{' := by
          rintro rfl
          exact absurd hfirst (by decide)
        unfold referencePiece
        rw [List.cons_append] at hlen ⊢
        split
        · next heq => exact absurd (List.cons.inj heq).1 hdollar
        · next heq => exact absurd (List.cons.inj heq).1 hbrace
        · rw [hlen]
          have htake : (c :: (cs ++ rest)).take (c :: cs).length = c :: cs :=
            List.take_left' rfl
          show (if (c :: cs).length = 0 then _ else _) = _
          rw [if_neg (by simp), htake]
  unfold pieces
  rw [piecesFrom, if_pos rfl, hpiece]
  show Piece.name key :: piecesFrom key.length (key ++ rest) = _
  rw [piecesFrom_length]

theorem expand_dollar {key : Chars} (values : Values) (h : isValidKey key = true) :
    expand ('$' :: key) values = (values key).getD [] := by
  have hpieces : pieces ('$' :: key) = [.name key] := by
    have hnil : pieces ('$' :: (key ++ [])) = .name key :: pieces [] :=
      pieces_dollar h (by simp)
    rwa [List.append_nil] at hnil
  rw [expand_eq, hpieces, List.flatMap_singleton]
  rfl

end TurboCi
