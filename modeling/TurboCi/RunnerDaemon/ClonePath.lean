import TurboCi.RunnerDaemon.Expansion

set_option autoImplicit false

/-! # Clone paths

The project directory is what a template gives, if that names a directory below the builds
directory, and `project` otherwise. A template that gives such a path with any texts in some of
its places also gives one with letters in these places (`isSubdir_flatMap`).
-/

namespace TurboCi

/-- The part of a clone path after the builds directory, as it is written. -/
def cloneTemplate (clonePath : Option Chars) : Option Chars :=
  ((clonePath.map trim).filter (· ≠ [])).bind fun clonePath =>
    (stripPrefix "$CI_BUILDS_DIR/".toList clonePath).or
      (stripPrefix "${CI_BUILDS_DIR}/".toList clonePath)

/-- The path names a directory below the builds directory. -/
def IsSubdir (relative : Chars) : Prop :=
  relative ≠ [] ∧ (relative.splitOn '/').all isPathPart = true

instance (relative : Chars) : Decidable (IsSubdir relative) :=
  inferInstanceAs (Decidable (_ ∧ _))

theorem subdirOrDefault_eq (job : Job) :
    subdirOrDefault job =
      (cloneTemplate (variableValue job "GIT_CLONE_PATH".toList)).elim "project".toList
        fun relative =>
          if IsSubdir (expand relative (variableValues job)) then
            expand relative (variableValues job)
          else "project".toList := by
  unfold subdirOrDefault projectSubdir cloneTemplate
  simp only
  cases ((variableValue job "GIT_CLONE_PATH".toList).map trim).filter (· ≠ []) with
  | none => rfl
  | some clonePath =>
      simp only [Option.bind_some]
      cases (stripPrefix "$CI_BUILDS_DIR/".toList clonePath).or
          (stripPrefix "${CI_BUILDS_DIR}/".toList clonePath) with
      | none => rfl
      | some relative =>
          simp only [Option.elim_some]
          by_cases h : IsSubdir (expand relative (variableValues job))
          · have hparts : expand relative (variableValues job) ≠ [] ∧
                ((expand relative (variableValues job)).splitOn '/').all isPathPart = true := h
            rw [if_pos hparts, if_pos h]
          · have hparts : ¬ (expand relative (variableValues job) ≠ [] ∧
                ((expand relative (variableValues job)).splitOn '/').all isPathPart = true) := h
            rw [if_neg hparts, if_neg h]

/-! ## Reading a path part by part -/

/-- The rest of a path is read, after a part that is not finished. -/
def partsFrom : Chars → Chars → Bool
  | part, [] => isPathPart part
  | part, c :: cs =>
      if c = '/' then isPathPart part && partsFrom [] cs else partsFrom (part ++ [c]) cs

theorem partsFrom_eq (text : Chars) : ∀ part, ∃ first rest,
    text.splitOn '/' = first :: rest ∧
      partsFrom part text = (isPathPart (part ++ first) && rest.all isPathPart) := by
  induction text with
  | nil =>
      intro part
      refine ⟨[], [], rfl, ?_⟩
      rw [List.append_nil, List.all_nil, Bool.and_true]
      rfl
  | cons c cs ih =>
      intro part
      by_cases hc : c = '/'
      · obtain ⟨first, rest, hsplit, hparts⟩ := ih []
        refine ⟨[], first :: rest, ?_, ?_⟩
        · unfold List.splitOn at hsplit ⊢
          rw [List.splitOnP_cons_eq_if_modifyHead, if_pos (by simp [hc]), hsplit]
        · rw [partsFrom, if_pos hc, hparts, List.append_nil, List.all_cons, List.nil_append]
      · obtain ⟨first, rest, hsplit, hparts⟩ := ih (part ++ [c])
        refine ⟨c :: first, rest, ?_, ?_⟩
        · unfold List.splitOn at hsplit ⊢
          rw [List.splitOnP_cons_eq_if_modifyHead, if_neg (by simp [hc]), hsplit]
          rfl
        · rw [partsFrom, if_neg hc, hparts, List.append_assoc, List.singleton_append]

theorem isSubdir_iff (relative : Chars) : IsSubdir relative ↔ partsFrom [] relative = true := by
  obtain ⟨first, rest, hsplit, hparts⟩ := partsFrom_eq relative []
  unfold IsSubdir
  rw [hsplit, hparts, List.all_cons, List.nil_append]
  constructor
  · exact fun h => h.2
  · intro h
    refine ⟨?_, h⟩
    rintro rfl
    -- the empty path has one part, which is empty
    have hfirst : first = [] := (List.cons.inj hsplit).1.symm
    rw [hfirst] at h
    cases h

def pathChar (c : Char) : Bool := c.isAlphanum || c == '-' || c == '_' || c == '.'

theorem isPathPart_iff (part : Chars) : isPathPart part = true ↔
    part ≠ [] ∧ part ≠ ['.'] ∧ part ≠ ['.', '.'] ∧ part.all pathChar = true := by
  unfold isPathPart pathChar
  simp only [Bool.and_eq_true, decide_eq_true_eq, and_assoc, ne_eq]

/-- A part begun as `q` can be ended as one begun as `p`. -/
structure Fits (p q : Chars) : Prop where
  chars : q.all pathChar = true
  ends : ∀ w, isPathPart (p ++ w) = true → isPathPart (q ++ w) = true

theorem fits_nil : Fits [] [] := ⟨rfl, fun _ h => h⟩

theorem Fits.concat {p q : Chars} (h : Fits p q) {c : Char} (hc : pathChar c = true) :
    Fits (p ++ [c]) (q ++ [c]) where
  chars := by rw [List.all_append, h.chars, List.all_cons, hc]; rfl
  ends w hw := by
    rw [List.append_assoc] at hw ⊢
    exact h.ends _ hw

/-- A part with a letter in it can be ended as any other. -/
theorem fits_letters {q : Chars} (hq : q.all pathChar = true) {n : Nat} (hn : 0 < n) (p : Chars) :
    Fits p (q ++ List.replicate n 'x') := by
  have hletters : (List.replicate n 'x').all pathChar = true := by
    refine List.all_eq_true.mpr fun c hc => ?_
    rw [List.eq_of_mem_replicate hc]
    decide
  have hx : 'x' ∈ q ++ List.replicate n 'x' :=
    List.mem_append_right _ (List.mem_replicate.mpr ⟨by omega, rfl⟩)
  constructor
  · rw [List.all_append, hq, hletters]
    rfl
  · intro w hw
    obtain ⟨-, -, -, hchars⟩ := (isPathPart_iff _).mp hw
    rw [List.all_append] at hchars
    have hw' : w.all pathChar = true := (Bool.and_eq_true_iff.mp hchars).2
    have hmem : 'x' ∈ q ++ List.replicate n 'x' ++ w := List.mem_append_left _ hx
    refine (isPathPart_iff _).mpr ⟨?_, ?_, ?_, ?_⟩
    · exact List.ne_nil_of_mem hmem
    · intro heq
      rw [heq] at hmem
      exact absurd hmem (by decide)
    · intro heq
      rw [heq] at hmem
      exact absurd hmem (by decide)
    · rw [List.all_append, List.all_append, hq, hletters, hw']
      rfl

theorem pathChar_of_partsFrom {text : Chars} : ∀ {part : Chars}, partsFrom part text = true →
    part.all pathChar = true := by
  induction text with
  | nil => exact fun h => ((isPathPart_iff _).mp h).2.2.2
  | cons c cs ih =>
      intro part h
      rw [partsFrom] at h
      by_cases hc : c = '/'
      · rw [if_pos hc] at h
        exact ((isPathPart_iff _).mp (Bool.and_eq_true_iff.mp h).1).2.2.2
      · rw [if_neg hc] at h
        have hall := ih h
        rw [List.all_append] at hall
        exact (Bool.and_eq_true_iff.mp hall).1

/-- Two readers have read `a` and `b`, where the first one has `s` before it, and the second one
can end whatever the first one can. -/
def GoOn (p q a b : Chars) : Prop :=
  ∀ s, partsFrom p (a ++ s) = true → ∃ p' q', Fits p' q' ∧ partsFrom p' s = true ∧
    ∀ s', partsFrom q' s' = true → partsFrom q (b ++ s') = true

/-- Both read the same text. -/
theorem goOn_same {p q : Chars} (a : Chars) (h : Fits p q) : GoOn p q a a := by
  induction a generalizing p q with
  | nil => exact fun s hs => ⟨p, q, h, hs, fun _ hs' => hs'⟩
  | cons c a ih =>
      intro s hs
      rw [List.cons_append, partsFrom] at hs
      by_cases hc : c = '/'
      · rw [if_pos hc] at hs
        obtain ⟨hpart, hs⟩ := Bool.and_eq_true_iff.mp hs
        obtain ⟨p', q', hfits, hp', hq'⟩ := ih fits_nil s hs
        refine ⟨p', q', hfits, hp', fun s' hs' => ?_⟩
        -- the part that ends here could be ended by the first reader
        have hq : isPathPart q = true := by
          have hends := h.ends [] (by rw [List.append_nil]; exact hpart)
          rwa [List.append_nil] at hends
        rw [List.cons_append, partsFrom, if_pos hc, hq, hq' s' hs']
        rfl
      · rw [if_neg hc] at hs
        have hchar : pathChar c = true := by
          have hall := pathChar_of_partsFrom hs
          rw [List.all_append, List.all_cons, List.all_nil, Bool.and_true] at hall
          exact (Bool.and_eq_true_iff.mp hall).2
        obtain ⟨p', q', hfits, hp', hq'⟩ := ih (h.concat hchar) s hs
        refine ⟨p', q', hfits, hp', fun s' hs' => ?_⟩
        rw [List.cons_append, partsFrom, if_neg hc]
        exact hq' s' hs'

/-- What comes after a text is read from some part on. -/
theorem exists_partsFrom {a s : Chars} : ∀ {p : Chars}, partsFrom p (a ++ s) = true →
    ∃ p', partsFrom p' s = true := by
  induction a with
  | nil => exact fun h => ⟨_, h⟩
  | cons c a ih =>
      intro p h
      rw [List.cons_append, partsFrom] at h
      by_cases hc : c = '/'
      · rw [if_pos hc] at h
        exact ih (Bool.and_eq_true_iff.mp h).2
      · rw [if_neg hc] at h
        exact ih h

theorem partsFrom_letters (n : Nat) (s : Chars) : ∀ q : Chars,
    partsFrom q (List.replicate n 'x' ++ s) = partsFrom (q ++ List.replicate n 'x') s := by
  induction n with
  | zero =>
      intro q
      rw [List.replicate_zero, List.append_nil]
      rfl
  | succ n ih =>
      intro q
      rw [List.replicate_succ, List.cons_append, partsFrom, if_neg (by decide), ih,
        List.append_assoc]
      rfl

/-- The second one reads letters instead. -/
theorem goOn_letters {p q : Chars} (a : Chars) {n : Nat} (hn : 0 < n) (h : Fits p q) :
    GoOn p q a (List.replicate n 'x') := by
  intro s hs
  obtain ⟨p', hp'⟩ := exists_partsFrom hs
  refine ⟨p', q ++ List.replicate n 'x', fits_letters h.chars hn p', hp', fun s' hs' => ?_⟩
  rw [partsFrom_letters]
  exact hs'

theorem partsFrom_flatMap {α : Type} {f g : α → Chars} {n : Nat} (hn : 0 < n) (xs : List α)
    (hxs : ∀ x ∈ xs, f x = g x ∨ g x = List.replicate n 'x') : ∀ {p q : Chars}, Fits p q →
    partsFrom p (xs.flatMap f) = true → partsFrom q (xs.flatMap g) = true := by
  induction xs with
  | nil =>
      intro p q h hp
      have hends := h.ends [] (by rw [List.append_nil]; exact hp)
      rwa [List.append_nil] at hends
  | cons x xs ih =>
      intro p q h hp
      have hgo : GoOn p q (f x) (g x) := by
        rcases hxs x List.mem_cons_self with heq | heq
        · rw [heq]
          exact goOn_same _ h
        · rw [heq]
          exact goOn_letters _ hn h
      rw [List.flatMap_cons] at hp ⊢
      obtain ⟨p', q', hfits, hp', hq'⟩ := hgo _ hp
      exact hq' _ (ih (fun y hy => hxs y (List.mem_cons_of_mem x hy)) hfits hp')

/-- **Letters in some places of a path keep it a path**, whatever was in these places. -/
theorem isSubdir_flatMap {α : Type} {f g : α → Chars} {n : Nat} (hn : 0 < n) {xs : List α}
    (hxs : ∀ x ∈ xs, f x = g x ∨ g x = List.replicate n 'x') (h : IsSubdir (xs.flatMap f)) :
    IsSubdir (xs.flatMap g) := by
  rw [isSubdir_iff] at h ⊢
  exact partsFrom_flatMap hn xs hxs fits_nil h

/-- The same for the expansions of a template. -/
theorem isSubdir_expand {relative : Chars} {values values' : Values} {n : Nat} (hn : 0 < n)
    (hvalues : ∀ key ∈ references relative, (values key).getD [] = (values' key).getD [] ∨
      (values' key).getD [] = List.replicate n 'x') (h : IsSubdir (expand relative values)) :
    IsSubdir (expand relative values') := by
  rw [expand_eq] at h ⊢
  refine isSubdir_flatMap hn (fun piece hpiece => ?_) h
  cases piece with
  | char c => exact .inl rfl
  | name key => exact hvalues key (mem_references.mpr hpiece)

end TurboCi
