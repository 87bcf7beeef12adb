import TurboCi.Lib.Scan

set_option autoImplicit false

/-! # Passes of several matchers

A text can be masked by several matchers, one after the other; the later ones look at what the
earlier ones left. Local matchers mask the two halves of a text apart where no match of a pass
crosses the seam (`maskAll_append`).

Which matches a pass has is said of the text itself: a word is `Matched` when one of the passes
matches it, words that earlier passes match in it being replaced by the marker. Where the
passes take a marker whole or not at all (`Matcher.Solid`), every match of a pass comes from
such a word, so a position inside none of them is a clear seam (`seamClear_of_matched`).
-/

namespace Masking

variable {α : Type*} {marker : List α}

/-! ## Seams -/

/-- Mask the matches of each matcher in turn. -/
def maskAll (marker : List α) (ms : List (Matcher α)) (t : List α) : List α :=
  ms.foldl (fun t m => mask marker (m.scan t) t) t

/-- No match of any pass over `x ++ y` crosses the seam between what `x` and `y` became. -/
def SeamClear (marker : List α) : List (Matcher α) → List α → List α → Prop
  | [], _, _ => True
  | m :: ms, x, y =>
      (∀ r ∈ m.scan (x ++ y), ¬ Inside x.length r) ∧
        SeamClear marker ms (mask marker (m.scan x) x) (mask marker (m.scan y) y)

/-- **Passes of local matchers split at a clear seam.** -/
theorem maskAll_append : ∀ {ms : List (Matcher α)}, (∀ m ∈ ms, m.Local) →
    ∀ {x y : List α}, SeamClear marker ms x y →
      maskAll marker ms (x ++ y) = maskAll marker ms x ++ maskAll marker ms y
  | [], _, x, y, _ => rfl
  | m :: ms, hl, x, y, ⟨hm, hms⟩ => by
      have hpass : mask marker (m.scan (x ++ y)) (x ++ y)
          = mask marker (m.scan x) x ++ mask marker (m.scan y) y := by
        rw [(hl m List.mem_cons_self).scan_append hm, mask_append marker (m.ordered_scan x)]
      calc maskAll marker (m :: ms) (x ++ y)
          = maskAll marker ms (mask marker (m.scan (x ++ y)) (x ++ y)) := rfl
        _ = maskAll marker ms (mask marker (m.scan x) x ++ mask marker (m.scan y) y) := by
            rw [hpass]
        _ = maskAll marker (m :: ms) x ++ maskAll marker (m :: ms) y :=
            maskAll_append (fun m' h => hl m' (List.mem_cons_of_mem m h)) hms

/-! ## Words -/

/-- `o` is `t` with some words of `P` in it replaced by the marker. -/
inductive Replaced (marker : List α) (P : List α → Prop) : List α → List α → Prop
  | nil : Replaced marker P [] []
  | keep {c : α} {t o : List α} : Replaced marker P t o → Replaced marker P (c :: t) (c :: o)
  | word {w t o : List α} : w ≠ [] → P w → Replaced marker P t o →
      Replaced marker P (w ++ t) (marker ++ o)

/-- The matcher matches the whole word, with words of `P` in it replaced. -/
def MatchedOver (marker : List α) (P : List α → Prop) (m : Matcher α) (w : List α) : Prop :=
  ∃ o, Replaced marker P w o ∧ m.run o = some o.length

/-- The words of `P` and those that the passes match, with earlier ones in them replaced. -/
def MatchedAfter (marker : List α) : List (Matcher α) → (List α → Prop) → List α → Prop
  | [], P, w => P w
  | m :: ms, P, w => MatchedAfter marker ms (fun w => P w ∨ MatchedOver marker P m w) w

/-- The words that the passes match. -/
def Matched (marker : List α) (ms : List (Matcher α)) : List α → Prop :=
  MatchedAfter marker ms (fun _ => False)

/-- The matcher takes a marker whole or not at all: no match begins or ends inside one. -/
structure Matcher.Solid (m : Matcher α) (marker : List α) : Prop where
  start : ∀ {k} (v), 0 < k → k < marker.length → m.run (marker.drop k ++ v) = none
  stop : ∀ {u v n}, m.run (u ++ (marker ++ v)) = some n →
    n ≤ u.length ∨ u.length + marker.length ≤ n

section Replaced

variable {P : List α → Prop} {t u v : List α}

theorem Replaced.refl : ∀ t : List α, Replaced marker P t t
  | [] => .nil
  | _ :: t => .keep (Replaced.refl t)

theorem Replaced.append {t' u' : List α} (h : Replaced marker P t t')
    (hu : Replaced marker P u u') : Replaced marker P (t ++ u) (t' ++ u') := by
  induction h with
  | nil => exact hu
  | keep _ ih => exact .keep ih
  | @word w t o hw hP _ ih =>
      rw [List.append_assoc, List.append_assoc]
      exact .word hw hP ih

theorem Replaced.ne_nil (h : Replaced marker P t u) (hu : u ≠ []) : t ≠ [] := by
  cases h with
  | nil => exact hu
  | keep _ => exact List.cons_ne_nil _ _
  | word hw _ _ => simp [hw]

theorem MatchedOver.ne_nil {m : Matcher α} {w : List α} (h : MatchedOver marker P m w) :
    w ≠ [] := by
  obtain ⟨o, ho, hrun⟩ := h
  refine ho.ne_nil ?_
  rintro rfl
  rw [m.run_nil] at hrun
  cases hrun

theorem Replaced.mono {Q : List α → Prop} (hPQ : ∀ w, P w → Q w) (h : Replaced marker P t u) :
    Replaced marker Q t u := by
  induction h with
  | nil => exact .nil
  | keep _ ih => exact .keep ih
  | word hw hP _ ih => exact .word hw (hPQ _ hP) ih

/-- Without a symbol of the marker in the result nothing has been replaced. -/
theorem Replaced.eq_of_not_mem {c : α} (hc : c ∈ marker) (h : Replaced marker P t u)
    (hu : c ∉ u) : t = u := by
  induction h with
  | nil => rfl
  | keep _ ih => rw [ih fun hmem => hu (List.mem_cons_of_mem _ hmem)]
  | word _ _ _ _ => exact absurd (List.mem_append_left _ hc) hu

/-- A split of the result is one of the text, unless it goes through a marker. -/
theorem Replaced.split (h : Replaced marker P t (u ++ v)) :
    (∃ a b, t = a ++ b ∧ Replaced marker P a u ∧ Replaced marker P b v) ∨
      ∃ k u₁ v₁, 0 < k ∧ k < marker.length ∧ u = u₁ ++ marker.take k ∧
        v = marker.drop k ++ v₁ := by
  generalize hw : u ++ v = w at h
  induction h generalizing u with
  | nil =>
      obtain ⟨rfl, rfl⟩ := List.append_eq_nil_iff.mp hw
      exact Or.inl ⟨[], [], rfl, .nil, .nil⟩
  | @keep c t o ht ih =>
      cases u with
      | nil =>
          obtain rfl : v = c :: o := hw
          exact Or.inl ⟨[], c :: t, rfl, .nil, .keep ht⟩
      | cons d u =>
          obtain ⟨rfl, hrest⟩ := List.cons.inj hw
          rcases ih hrest with ⟨a, b, rfl, ha, hb⟩ | ⟨k, u₁, v₁, hk, hk', rfl, hv⟩
          · exact Or.inl ⟨d :: a, b, rfl, .keep ha, hb⟩
          · exact Or.inr ⟨k, d :: u₁, v₁, hk, hk', rfl, hv⟩
  | @word w t o hne hP ht ih =>
      rcases List.append_eq_append_iff.mp hw with ⟨z, hz, rfl⟩ | ⟨z, rfl, ho⟩
      · -- the split is before the end of the marker
        by_cases hu : u = []
        · subst hu
          obtain rfl : marker = z := hz
          exact Or.inl ⟨[], w ++ t, rfl, .nil, .word hne hP ht⟩
        · by_cases hz0 : z = []
          · subst hz0
            obtain rfl : marker = u := by rw [hz, List.append_nil]
            have hword : Replaced marker P (w ++ []) (marker ++ []) := .word hne hP .nil
            rw [List.append_nil, List.append_nil] at hword
            exact Or.inl ⟨w, t, rfl, hword, ht⟩
          · refine Or.inr ⟨u.length, [], o, List.length_pos_of_ne_nil hu, ?_, ?_, ?_⟩
            · have := List.length_pos_of_ne_nil hz0
              rw [hz, List.length_append]
              omega
            · rw [hz, List.take_left, List.nil_append]
            · rw [hz, List.drop_left]
      · rcases ih ho.symm with ⟨a, b, rfl, ha, hb⟩ | ⟨k, u₁, v₁, hk, hk', rfl, hv⟩
        · exact Or.inl ⟨w ++ a, b, (List.append_assoc w a b).symm, .word hne hP ha, hb⟩
        · exact Or.inr ⟨k, marker ++ u₁, v₁, hk, hk', (List.append_assoc _ _ _).symm, hv⟩

end Replaced

/-! ## One pass -/

section Pass

variable {m : Matcher α} {P : List α → Prop} {t t' : List α}

/-- Where no match begins in the front, the scan goes on after it. -/
theorem scanFrom_append_of_none (m : Matcher α) (o : List α) : ∀ (u : List α) (i : Nat),
    (∀ k < u.length, m.run (u.drop k ++ o) = none) →
      scanFrom m.run i 0 (u ++ o) = scanFrom m.run (i + u.length) 0 o
  | [], _, _ => rfl
  | c :: u, i, h => by
      have hc : m.run (c :: (u ++ o)) = none := h 0 (Nat.zero_lt_succ _)
      have hrest : ∀ k < u.length, m.run (u.drop k ++ o) = none :=
        fun k hk => h (k + 1) (Nat.succ_lt_succ hk)
      rw [List.cons_append, m.scanFrom_none hc, scanFrom_append_of_none m o u (i + 1) hrest,
        List.length_cons]
      congr 1
      omega

/-- What is before the first range is kept. -/
theorem maskFrom_append_left {rs : List Range} {hi : Nat} (o : List α) : ∀ (u : List α) (i : Nat),
    Ordered hi (i + u.length) rs →
      maskFrom marker i rs (u ++ o) = u ++ maskFrom marker (i + u.length) rs o
  | [], _, _ => rfl
  | c :: u, i, h => by
      rw [List.length_cons, show i + (u.length + 1) = i + 1 + u.length by omega] at h ⊢
      rw [List.cons_append, maskFrom_cons marker c (u ++ o) (h.mono_lo (by omega)),
        maskFrom_append_left o u (i + 1) h, List.cons_append]

/-- A match of what is seen of a text is one of a word of the text. -/
theorem Replaced.split_match (hm : m.Local) (hs : m.Solid marker) (h : Replaced marker P t t')
    {n : Nat} (hn : m.run t' = some n) :
    ∃ w rest, t = w ++ rest ∧ MatchedOver marker P m w ∧ Replaced marker P rest (t'.drop n) := by
  have hle := m.bounded hn
  have hsplit : t'.take n ++ t'.drop n = t' := List.take_append_drop n t'
  have hlen : (t'.take n).length = n := List.length_take_of_le hle
  rw [← hsplit] at h
  rcases h.split with ⟨w, rest, rfl, hw, hrest⟩ | ⟨k, u, v, hk, hk', hu, hv⟩
  · refine ⟨w, rest, rfl, ⟨_, hw, ?_⟩, hrest⟩
    rw [← hsplit] at hn
    rw [hlen]
    exact hm.shrink hn hlen.ge
  · -- the match would end inside a marker
    have hmarker : t' = u ++ (marker ++ v) := by
      rw [← hsplit, hu, hv, List.append_assoc, ← List.append_assoc (marker.take k),
        List.take_append_drop]
    have hend : n = u.length + k := by
      rw [← hlen, hu, List.length_append, List.length_take_of_le hk'.le]
    rw [hmarker] at hn
    have := hs.stop hn
    omega

/-- **What a pass leaves is the text with words replaced**: those that were before, and those
that the matcher matches over them. -/
theorem Replaced.pass (hm : m.Local) (hs : m.Solid marker) (hmarker : marker ≠ []) :
    ∀ {t t' : List α}, Replaced marker P t t' →
      Replaced marker (fun w => P w ∨ MatchedOver marker P m w) t
        (mask marker (m.scan t') t') := by
  have hfrom : ∀ (n : Nat) (t t' : List α) (i : Nat), t'.length = n → Replaced marker P t t' →
      Replaced marker (fun w => P w ∨ MatchedOver marker P m w) t
        (maskFrom marker i (scanFrom m.run i 0 t') t') := by
    intro n
    induction n using Nat.strong_induction_on with
    | _ n ih =>
        intro t t' i hn h
        cases hrun : m.run t' with
        | some k =>
            have hpos := m.pos hrun
            have hle := m.bounded hrun
            obtain ⟨w, rest, rfl, hw, hrest⟩ := h.split_match hm hs hrun
            have hdrop : (t'.drop k).length < n := by
              rw [List.length_drop]
              omega
            have htail := ih _ hdrop rest (t'.drop k) (i + k) rfl hrest
            rw [m.scanFrom_match hrun]
            show Replaced marker _ (w ++ rest) (t'.take (i - i) ++ marker
              ++ maskFrom marker (i + k) _ (t'.drop (i + k - i)))
            rw [Nat.sub_self, List.take_zero, Nat.add_sub_cancel_left, List.nil_append]
            exact .word hw.ne_nil (.inr hw) htail
        | none =>
            cases h with
            | nil => exact .nil
            | @keep c t o h =>
                rw [m.scanFrom_none hrun,
                  maskFrom_cons marker c o (m.ordered_scanFrom o.length o (i + 1) (le_refl _))]
                rw [List.length_cons] at hn
                exact .keep (ih _ (by omega) t o (i + 1) rfl h)
            | @word w t o hw hP h =>
                -- no match begins in the marker
                have hnone : ∀ k < marker.length, m.run (marker.drop k ++ o) = none := by
                  intro k hk
                  by_cases hk0 : k = 0
                  · rw [hk0]
                    exact hrun
                  · exact hs.start o (by omega) hk
                have hlen := List.length_pos_of_ne_nil hmarker
                rw [List.length_append] at hn
                rw [scanFrom_append_of_none m o marker i hnone,
                  maskFrom_append_left o marker i (m.ordered_scanFrom o.length o _ (le_refl _))]
                exact .word hw (.inl hP) (ih _ (by omega) t o _ rfl h)
  intro t t' h
  exact hfrom _ t t' 0 rfl h

/-! ## Clear seams -/

theorem MatchedAfter.of_mem {w : List α} : ∀ (ms : List (Matcher α)) {P : List α → Prop},
    P w → MatchedAfter marker ms P w
  | [], _, h => h
  | _ :: ms, _, h => MatchedAfter.of_mem ms (Or.inl h)

/-- A match across the seam between two texts is one of a word across it. -/
theorem exists_matchedOver (hm : m.Local) (hs : m.Solid marker) {x y x' y' : List α}
    (hx : Replaced marker P x x') (hy : Replaced marker P y y') {r : Range}
    (hr : r ∈ m.scan (x' ++ y')) (hinside : Inside x'.length r) :
    ∃ q : Range, Inside x.length q ∧ q.2 ≤ (x ++ y).length ∧
      MatchedOver marker P m ((x ++ y).extract q.1 q.2) := by
  obtain ⟨hle, hrun⟩ := m.run_of_mem_scan hr
  obtain ⟨hstart, hend⟩ := hinside
  -- the match is `u' ++ v'`, of which `u'` ends `x'` and `v'` begins `y'`
  obtain ⟨a', u', rfl, ha'⟩ : ∃ a' u', x' = a' ++ u' ∧ a'.length = r.1 :=
    ⟨x'.take r.1, x'.drop r.1, (List.take_append_drop _ _).symm, List.length_take_of_le hstart.le⟩
  rw [← ha', List.append_assoc, List.drop_left] at hrun
  have hbound := m.bounded hrun
  rw [List.length_append] at hstart hend hbound
  obtain ⟨v', z', rfl, hv'⟩ : ∃ v' z', y' = v' ++ z' ∧ v'.length = r.2 - r.1 - u'.length :=
    ⟨y'.take _, y'.drop _, (List.take_append_drop _ _).symm,
      List.length_take_of_le (by rw [ha'] at hbound; omega)⟩
  have hu0 : u' ≠ [] := List.ne_nil_of_length_pos (by omega)
  have hv0 : v' ≠ [] := List.ne_nil_of_length_pos (by omega)
  have hlen : r.2 - r.1 = (u' ++ v').length := by rw [List.length_append]; omega
  rw [ha', hlen] at hrun
  rcases hx.split with ⟨a, u, rfl, -, hu⟩ | ⟨k, _, v, hk, hk', -, rfl⟩
  · rcases hy.split with ⟨v, z, rfl, hv, -⟩ | ⟨k, w, _, hk, hk', rfl, rfl⟩
    · refine ⟨(a.length, (a ++ u ++ v).length), ⟨?_, ?_⟩, ?_, u' ++ v', ?_, ?_⟩
      · have := List.length_pos_of_ne_nil (hu.ne_nil hu0)
        simp only [List.length_append]
        omega
      · have := List.length_pos_of_ne_nil (hv.ne_nil hv0)
        simp only [List.length_append]
        omega
      · simp only [List.length_append]
        omega
      · -- the part of the text there is the word that the match comes from
        have hword : (a ++ u ++ (v ++ z)).extract a.length (a ++ u ++ v).length = u ++ v := by
          rw [List.extract_eq_take_drop, List.append_assoc a u (v ++ z), List.drop_left,
            List.append_assoc a, List.length_append, Nat.add_sub_cancel_left, ← List.append_assoc,
            List.take_left]
        rw [hword]
        exact hu.append hv
      · rw [← List.append_assoc] at hrun
        exact hm.shrink hrun (le_refl _)
    · -- the match would end inside a marker
      rw [List.append_assoc w, ← List.append_assoc (marker.take k), List.take_append_drop,
        ← List.append_assoc u'] at hrun
      have := hs.stop hrun
      simp only [List.length_append, List.length_take_of_le hk'.le] at this
      omega
  · -- the match would begin inside a marker
    rw [List.append_assoc, hs.start _ hk hk'] at hrun
    cases hrun

/-- **A position inside no word of the passes is a clear seam.** -/
theorem seamClear_of_matchedAfter (hmarker : marker ≠ []) : ∀ {ms : List (Matcher α)},
    (∀ m ∈ ms, m.Local ∧ m.Solid marker) → ∀ {P : List α → Prop} {x y x' y' : List α},
      Replaced marker P x x' → Replaced marker P y y' →
        (∀ r : Range, Inside x.length r → r.2 ≤ (x ++ y).length →
          ¬ MatchedAfter marker ms P ((x ++ y).extract r.1 r.2)) →
          SeamClear marker ms x' y'
  | [], _, _, _, _, _, _, _, _, _ => trivial
  | m :: ms, hms, P, x, y, x', y', hx, hy, hclear => by
      obtain ⟨hm, hs⟩ := hms m List.mem_cons_self
      constructor
      · intro r hr hinside
        obtain ⟨q, hq, hqle, hmatch⟩ := exists_matchedOver hm hs hx hy hr hinside
        exact hclear q hq hqle (MatchedAfter.of_mem ms (Or.inr hmatch))
      · exact seamClear_of_matchedAfter hmarker (fun m' h => hms m' (List.mem_cons_of_mem m h))
          (hx.pass hm hs hmarker) (hy.pass hm hs hmarker) hclear

theorem seamClear_of_matched (hmarker : marker ≠ []) {ms : List (Matcher α)}
    (hms : ∀ m ∈ ms, m.Local ∧ m.Solid marker) {x y : List α}
    (hclear : ∀ r : Range, Inside x.length r → r.2 ≤ (x ++ y).length →
      ¬ Matched marker ms ((x ++ y).extract r.1 r.2)) :
    SeamClear marker ms x y :=
  seamClear_of_matchedAfter hmarker hms (.refl x) (.refl y) hclear

end Pass

/-! ## Words as matchers -/

/-- No occurrence of `s` begins or ends inside a marker: `s` neither begins with a proper end of
the marker, nor ends with a proper beginning of it, nor begins inside it. -/
def SetApart (marker s : List α) : Prop :=
  ∀ k < marker.length, 0 < k →
    ¬ marker.drop k <+: s ∧ ¬ s <+: marker.drop k ∧ ¬ marker.take k <:+ s

instance [DecidableEq α] (marker s : List α) : Decidable (SetApart marker s) :=
  inferInstanceAs (Decidable (∀ k < marker.length, _))

theorem SetApart.not_prefix {s v : List α} (h : SetApart marker s) {k : Nat} (hk : 0 < k)
    (hk' : k < marker.length) : ¬ s <+: marker.drop k ++ v := by
  obtain ⟨hlong, hshort, -⟩ := h k hk' hk
  intro hp
  rcases List.prefix_or_prefix_of_prefix hp (List.prefix_append _ v) with hp | hp
  · exact hshort hp
  · exact hlong hp

/-- A word without the symbols that enclose the marker, and not in between them. -/
theorem setApart_of_free {l r : α} {body s : List α} (hfree : Free l r s)
    (hbody : ¬ s <:+: body) : SetApart (l :: (body ++ [r])) s := by
  intro k hk hk0
  obtain ⟨j, rfl⟩ : ∃ j, k = j + 1 := ⟨k - 1, by omega⟩
  have hj : j ≤ body.length := by
    rw [List.length_cons, List.length_append, List.length_singleton] at hk
    omega
  rw [List.drop_succ_cons, List.drop_append_of_le_length hj, List.take_succ_cons]
  refine ⟨fun h => ?_, fun h => ?_, fun h => ?_⟩
  · exact hfree.2 (h.subset (by simp))
  · have hinner : s <+: body.drop j := prefix_of_not_mem hfree.2 h
    exact hbody (hinner.isInfix.trans (List.drop_suffix j body).isInfix)
  · exact hfree.1 (h.subset List.mem_cons_self)

theorem literal_solid [DecidableEq α] {s : List α} (h : SetApart marker s) :
    (literal s).Solid marker where
  start {k} v hk hk' := if_neg fun hs => h.not_prefix hk hk' hs.2
  stop {u v n} hn := by
    simp only [literal, Option.ite_none_right_eq_some] at hn
    obtain ⟨⟨-, w, hw⟩, hn⟩ := hn
    obtain rfl := Option.some.inj hn
    by_contra hinside
    -- then the word ends with the beginning of the marker
    have htake : s = u ++ marker.take (s.length - u.length) := by
      have hs : (u ++ (marker ++ v)).take s.length = s := by rw [← hw, List.take_left]
      rw [← hs, List.length_take_of_le (by rw [← hw, List.length_append]; omega)]
      rw [List.take_append, List.take_of_length_le (by omega),
        List.take_append_of_le_length (by omega)]
    exact (h (s.length - u.length) (by omega) (by omega)).2.2 ⟨u, htake.symm⟩

/-- Masking one word after the other leaves the text with words replaced. -/
theorem Replaced.words [DecidableEq α] {c : α} (hc : c ∈ marker) {words : List (List α)}
    (hwords : ∀ s ∈ words, SetApart marker s ∧ c ∉ s) {t : List α} : ∀ (rest : List (List α)),
      (∀ s ∈ rest, s ∈ words) → ∀ {o : List α}, Replaced marker (· ∈ words) t o →
        Replaced marker (· ∈ words) t (maskAll marker (rest.map literal) o)
  | [], _, _, h => h
  | s :: rest, hrest, o, h => by
      have hs := hrest s List.mem_cons_self
      obtain ⟨hapart, hfree⟩ := hwords s hs
      have hpass := h.pass (literal_local s) (literal_solid hapart) (List.ne_nil_of_mem hc)
      refine Replaced.words hc hwords rest (fun s' h' => hrest s' (List.mem_cons_of_mem _ h'))
        (hpass.mono ?_)
      rintro w (hw | ⟨o', hw, hrun⟩)
      · exact hw
      · -- what the word is found in is the word itself
        have ho : o' = s := by
          simp only [literal, Option.ite_none_right_eq_some] at hrun
          exact (hrun.1.2.eq_of_length (Option.some.inj hrun.2)).symm
        rw [ho] at hw
        rw [hw.eq_of_not_mem hc hfree]
        exact hs

end Masking
