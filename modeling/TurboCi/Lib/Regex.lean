import TurboCi.Lib.Passes

set_option autoImplicit false

/-! # Regular expressions as matchers

Leftmost-first regular expressions over any alphabet, as the list of their successes:
`r.ends t` lists the lengths of the matches of `r` at the front of `t` in the order in which a
backtracking engine prefers them, so the first one is the match.

The atoms read one unit at the front of a text and look no further than what they read. Then
the successes in a prefix of a text are those in the text that fit (`ends_filter`), and a
regular expression that matches no empty text is a `Local` matcher.
-/

namespace Masking

variable {α : Type*}

/-! ## Expressions -/

/-- Reads a unit, such as a character or a word, from the front of a text. -/
structure Atom (α : Type*) where
  read : List α → Option Nat
  pos : ∀ {t n}, read t = some n → 0 < n
  bounded : ∀ {t n}, read t = some n → n ≤ t.length
  shrink : ∀ {x y n}, read (x ++ y) = some n → n ≤ x.length → read x = some n
  grow : ∀ {x y n}, read x = some n → read (x ++ y) = some n

inductive Regex (α : Type*) where
  | atom (a : Atom α)
  | seq (l r : Regex α)
  | alt (l r : Regex α)
  /-- the atom at least `min` times and at most `max` times, as often as possible -/
  | many (a : Atom α) (min : Nat) (max : Option Nat)

/-- The successes of at most `k` and at least `min` repetitions, the longest first. -/
def Atom.manyEnds (a : Atom α) : Nat → Nat → List α → List Nat
  | 0, min, _ => if min = 0 then [0] else []
  | k + 1, min, t =>
      (match a.read t with
        | some n => (a.manyEnds k (min - 1) (t.drop n)).map (n + ·)
        | none => []) ++ (if min = 0 then [0] else [])

namespace Regex

instance : Append (Regex α) := ⟨seq⟩

/-- The lengths of the matches at the front of a text, the preferred one first. -/
def ends : Regex α → List α → List Nat
  | atom a, t => (a.read t).toList
  | seq l r, t => (l.ends t).flatMap (fun n => (r.ends (t.drop n)).map (n + ·))
  | alt l r, t => l.ends t ++ r.ends t
  | many a min max, t => a.manyEnds (max.getD t.length) min t

/-- Whether every match is nonempty. -/
def consumes : Regex α → Bool
  | atom _ => true
  | seq l r => l.consumes || r.consumes
  | alt l r => l.consumes && r.consumes
  | many _ min _ => 0 < min

end Regex

/-! ## Successes in a prefix -/

theorem Atom.manyEnds_filter (a : Atom α) (y : List α) : ∀ (k min : Nat) (x : List α),
    a.manyEnds k min x = (a.manyEnds k min (x ++ y)).filter (· ≤ x.length)
  | 0, min, x => by
      unfold manyEnds
      split <;> simp
  | k + 1, min, x => by
      rw [manyEnds, manyEnds, List.filter_append]
      congr 1
      · cases hall : a.read (x ++ y) with
        | none =>
            have hx : a.read x = none := by
              cases hx : a.read x with
              | none => rfl
              | some m => rw [a.grow hx] at hall; cases hall
            rw [hx]
            rfl
        | some n =>
            by_cases hn : n ≤ x.length
            · rw [a.shrink hall hn]
              simp only
              rw [List.drop_append_of_le_length hn, List.filter_map,
                manyEnds_filter a y k (min - 1) (x.drop n)]
              congr 1
              apply List.filter_congr
              intro m _
              simp only [Function.comp_apply, List.length_drop, decide_eq_decide]
              omega
            · -- the atom reads beyond the prefix, and so does every success that it begins
              have hx : a.read x = none := by
                cases hx : a.read x with
                | none => rfl
                | some m =>
                    have hm := a.bounded hx
                    rw [a.grow hx] at hall
                    obtain rfl := Option.some.inj hall
                    exact absurd hm hn
              rw [hx]
              refine (List.filter_eq_nil_iff.mpr ?_).symm
              intro m hm
              obtain ⟨m', -, rfl⟩ := List.mem_map.mp hm
              simp only [decide_eq_true_eq]
              omega
      · split <;> simp

theorem Atom.manyEnds_succ (a : Atom α) : ∀ (k min : Nat) (t : List α), t.length ≤ k →
    a.manyEnds (k + 1) min t = a.manyEnds k min t
  | 0, min, t, h => by
      obtain rfl : t = [] := List.eq_nil_of_length_eq_zero (by omega)
      have hnone : a.read [] = none := by
        cases hr : a.read [] with
        | none => rfl
        | some n =>
            have := a.pos hr
            have := a.bounded hr
            simp at this
            omega
      simp only [manyEnds, hnone, List.nil_append]
  | k + 1, min, t, h => by
      rw [manyEnds]
      conv => rhs; rw [manyEnds]
      cases hr : a.read t with
      | none => rfl
      | some n =>
          have hpos := a.pos hr
          simp only
          rw [manyEnds_succ a k (min - 1) (t.drop n) (by rw [List.length_drop]; omega)]

/-- More repetitions than symbols change nothing. -/
theorem Atom.manyEnds_of_le (a : Atom α) (min : Nat) (t : List α) {k : Nat} (h : t.length ≤ k) :
    a.manyEnds k min t = a.manyEnds t.length min t := by
  induction k, h using Nat.le_induction with
  | base => rfl
  | succ k h ih => rw [a.manyEnds_succ k min t h, ih]

theorem flatMap_filter_eq {β γ : Type*} (p : β → Bool) (f : β → List γ) : ∀ (l : List β),
    (l.filter p).flatMap f = l.flatMap (fun b => if p b then f b else [])
  | [] => rfl
  | b :: l => by
      rw [List.filter_cons, List.flatMap_cons, ← flatMap_filter_eq p f l]
      split <;> rfl

namespace Regex

/-- **The successes in a prefix are those in the text that fit.** -/
theorem ends_filter (r : Regex α) (x y : List α) :
    r.ends x = (r.ends (x ++ y)).filter (· ≤ x.length) := by
  induction r generalizing x with
  | atom a =>
      -- an atom is a repetition of exactly one
      have hone : ∀ t, (atom a).ends t = a.manyEnds 1 1 t := by
        intro t
        cases h : a.read t <;> simp [ends, Atom.manyEnds, h]
      rw [hone, hone]
      exact a.manyEnds_filter y 1 1 x
  | seq l r ihl ihr =>
      rw [ends, ends, ihl x, List.filter_flatMap, flatMap_filter_eq]
      apply List.flatMap_congr
      intro n _
      by_cases hn : n ≤ x.length
      · rw [if_pos (by simpa using hn), List.drop_append_of_le_length hn, ihr (x.drop n),
          List.filter_map]
        congr 1
        apply List.filter_congr
        intro m _
        simp only [Function.comp_apply, List.length_drop, decide_eq_decide]
        omega
      · -- the first part is too long already
        rw [if_neg (by simpa using hn)]
        refine (List.filter_eq_nil_iff.mpr ?_).symm
        intro m hm
        obtain ⟨m', -, rfl⟩ := List.mem_map.mp hm
        simp only [decide_eq_true_eq]
        omega
  | alt l r ihl ihr => rw [ends, ends, List.filter_append, ihl x, ihr x]
  | many a min max =>
      cases max with
      | some k => exact a.manyEnds_filter y k min x
      | none =>
          -- without a bound the text's length is one, and the longer text's does as well
          show a.manyEnds x.length min x = _
          rw [← a.manyEnds_of_le min x (k := (x ++ y).length) (by simp)]
          exact a.manyEnds_filter y (x ++ y).length min x

/-! ## Expressions as matchers -/

theorem le_of_mem_ends (r : Regex α) {t : List α} {n : Nat} (h : n ∈ r.ends t) :
    n ≤ t.length := by
  have hself := r.ends_filter t []
  rw [List.append_nil] at hself
  rw [hself] at h
  simpa using (List.mem_filter.mp h).2

theorem le_of_mem_manyEnds (a : Atom α) : ∀ (k min : Nat) (t : List α) {n : Nat},
    n ∈ a.manyEnds k min t → min ≤ n
  | 0, min, t, n, h => by
      rw [Atom.manyEnds] at h
      split at h
      · omega
      · cases h
  | k + 1, min, t, n, h => by
      rw [Atom.manyEnds, List.mem_append] at h
      rcases h with h | h
      · cases hr : a.read t with
        | none => rw [hr] at h; cases h
        | some m =>
            rw [hr] at h
            obtain ⟨m', hm', rfl⟩ := List.mem_map.mp h
            have := a.pos hr
            have := le_of_mem_manyEnds a k (min - 1) (t.drop m) hm'
            omega
      · split at h
        · omega
        · cases h

theorem pos_of_mem_ends : ∀ (r : Regex α), r.consumes = true → ∀ {t : List α} {n : Nat},
    n ∈ r.ends t → 0 < n
  | atom a, _, t, n, h => by
      rw [ends, Option.mem_toList] at h
      exact a.pos h
  | seq l r, hc, t, n, h => by
      rw [consumes, Bool.or_eq_true] at hc
      rw [ends, List.mem_flatMap] at h
      obtain ⟨n₁, h₁, h⟩ := h
      obtain ⟨n₂, h₂, rfl⟩ := List.mem_map.mp h
      rcases hc with hc | hc
      · have := pos_of_mem_ends l hc h₁
        omega
      · have := pos_of_mem_ends r hc h₂
        omega
  | alt l r, hc, t, n, h => by
      rw [consumes, Bool.and_eq_true] at hc
      rw [ends, List.mem_append] at h
      rcases h with h | h
      · exact pos_of_mem_ends l hc.1 h
      · exact pos_of_mem_ends r hc.2 h
  | many a min max, hc, t, n, h => by
      have := le_of_mem_manyEnds a _ min t h
      have : 0 < min := by simpa [consumes] using hc
      omega

/-- The matcher of an expression: its preferred match. -/
def matcher (r : Regex α) (h : r.consumes = true) : Matcher α where
  run t := (r.ends t).head?
  pos hn := r.pos_of_mem_ends h (List.mem_of_head? hn)
  bounded hn := r.le_of_mem_ends (List.mem_of_head? hn)

theorem matcher_local (r : Regex α) (h : r.consumes = true) : (r.matcher h).Local where
  shrink {x y n} hn hle := by
    have hrun : (r.ends (x ++ y)).head? = some n := hn
    obtain ⟨l, hl⟩ := List.head?_eq_some_iff.mp hrun
    show (r.ends x).head? = some n
    rw [r.ends_filter x y, hl, List.filter_cons_of_pos (by simpa using hle)]
    rfl
  grow {x y n} hn := by
    have hmem : n ∈ r.ends x := List.mem_of_head? hn
    rw [r.ends_filter x y] at hmem
    cases hl : r.ends (x ++ y) with
    | nil => rw [hl] at hmem; cases hmem
    | cons k l => exact ⟨k, by show (r.ends (x ++ y)).head? = some k; rw [hl]; rfl⟩

/-! ## What atoms read carries over -/

/-- A property of every atom. -/
def All (P : Atom α → Prop) : Regex α → Prop
  | atom a => P a
  | seq l r => l.All P ∧ r.All P
  | alt l r => l.All P ∧ r.All P
  | many a _ _ => P a

/-- `F` holds of the texts an atom reads from, and `V` of what it leaves of one with `V`. -/
def Reads (F V : List α → Prop) (a : Atom α) : Prop :=
  ∀ t n, a.read t = some n → F t ∧ (V t → V (t.drop n))

section Carry

variable {F V : List α → Prop}

theorem carry_manyEnds {a : Atom α} (ha : Reads F V a) : ∀ (k min : Nat) {t : List α} {n : Nat},
    n ∈ a.manyEnds k min t → (0 < n → F t) ∧ (V t → V (t.drop n))
  | 0, min, t, n, h => by
      rw [Atom.manyEnds] at h
      split at h
      · obtain rfl := List.mem_singleton.mp h
        exact ⟨fun h => absurd h (lt_irrefl 0), fun hv => hv⟩
      · cases h
  | k + 1, min, t, n, h => by
      rw [Atom.manyEnds, List.mem_append] at h
      rcases h with h | h
      · cases hr : a.read t with
        | none => rw [hr] at h; cases h
        | some m =>
            rw [hr] at h
            obtain ⟨m', hm', rfl⟩ := List.mem_map.mp h
            refine ⟨fun _ => (ha t m hr).1, fun hv => ?_⟩
            rw [← List.drop_drop]
            exact (carry_manyEnds ha k (min - 1) hm').2 ((ha t m hr).2 hv)
      · split at h
        · obtain rfl := List.mem_singleton.mp h
          exact ⟨fun h => absurd h (lt_irrefl 0), fun hv => hv⟩
        · cases h

/-- **What the atoms keep, a match keeps.** -/
theorem carry : ∀ {r : Regex α}, r.All (Reads F V) → ∀ {t : List α} {n : Nat}, n ∈ r.ends t →
    (0 < n → F t) ∧ (V t → V (t.drop n))
  | atom a, ha, t, n, h => by
      rw [ends, Option.mem_toList] at h
      exact ⟨fun _ => (ha t n h).1, (ha t n h).2⟩
  | seq l r, ⟨hl, hr⟩, t, n, h => by
      rw [ends, List.mem_flatMap] at h
      obtain ⟨n₁, h₁, h⟩ := h
      obtain ⟨n₂, h₂, rfl⟩ := List.mem_map.mp h
      obtain ⟨hf₁, hv₁⟩ := carry hl h₁
      obtain ⟨hf₂, hv₂⟩ := carry hr h₂
      refine ⟨fun hpos => ?_, fun hv => ?_⟩
      · -- if the left part is empty, the match begins with the right one
        rcases Nat.eq_zero_or_pos n₁ with rfl | h0
        · exact hf₂ (by omega)
        · exact hf₁ h0
      · rw [← List.drop_drop]
        exact hv₂ (hv₁ hv)
  | alt l r, ⟨hl, hr⟩, t, n, h => by
      rw [ends, List.mem_append] at h
      rcases h with h | h
      · exact carry hl h
      · exact carry hr h
  | many a min max, ha, t, n, h => carry_manyEnds ha _ min h

end Carry

/-! ## Expressions and a marker

What an expression matches takes a marker whole or not at all when it begins outside of it, and
what it reads last cannot stop inside of it. -/

/-- `F` holds of the texts that what the expression reads first reads from. -/
def Begins (F : List α → Prop) : Regex α → Prop
  | atom a => ∀ t n, a.read t = some n → F t
  | seq l _ => l.Begins F
  | alt l r => l.Begins F ∧ r.Begins F
  | many _ _ _ => False

theorem begins_of_mem_ends {F : List α → Prop} : ∀ (r : Regex α), r.Begins F → ∀ {t : List α}
    {n : Nat}, n ∈ r.ends t → F t
  | atom a, hF, t, n, h => by
      rw [ends, Option.mem_toList] at h
      exact hF t n h
  | seq l r, hF, t, n, h => by
      rw [ends, List.mem_flatMap] at h
      obtain ⟨n₁, h₁, -⟩ := h
      exact begins_of_mem_ends l hF h₁
  | alt l r, hF, t, n, h => by
      rw [ends, List.mem_append] at h
      rcases h with h | h
      · exact begins_of_mem_ends l hF.1 h
      · exact begins_of_mem_ends r hF.2 h

/-- The atom reads no unit with the symbol `c` in it. -/
def Avoids (c : α) (a : Atom α) : Prop := ∀ t n, a.read t = some n → c ∉ t.take n

theorem avoids_manyEnds {c : α} {a : Atom α} (ha : Avoids c a) : ∀ (k min : Nat) {t : List α}
    {n : Nat}, n ∈ a.manyEnds k min t → c ∉ t.take n
  | 0, min, t, n, h => by
      rw [Atom.manyEnds] at h
      split at h
      · obtain rfl := List.mem_singleton.mp h
        simp
      · cases h
  | k + 1, min, t, n, h => by
      rw [Atom.manyEnds, List.mem_append] at h
      rcases h with h | h
      · cases hr : a.read t with
        | none => rw [hr] at h; cases h
        | some m =>
            rw [hr] at h
            obtain ⟨m', hm', rfl⟩ := List.mem_map.mp h
            rw [List.take_add, List.mem_append, not_or]
            exact ⟨ha t m hr, avoids_manyEnds ha k (min - 1) hm'⟩
      · split at h
        · obtain rfl := List.mem_singleton.mp h
          simp
        · cases h

/-- **A symbol that no atom reads is in no match.** -/
theorem avoids_ends {c : α} : ∀ {r : Regex α}, r.All (Avoids c) → ∀ {t : List α} {n : Nat},
    n ∈ r.ends t → c ∉ t.take n
  | atom a, ha, t, n, h => by
      rw [ends, Option.mem_toList] at h
      exact ha t n h
  | seq l r, ⟨hl, hr⟩, t, n, h => by
      rw [ends, List.mem_flatMap] at h
      obtain ⟨n₁, h₁, h⟩ := h
      obtain ⟨n₂, h₂, rfl⟩ := List.mem_map.mp h
      rw [List.take_add, List.mem_append, not_or]
      exact ⟨avoids_ends hl h₁, avoids_ends hr h₂⟩
  | alt l r, ⟨hl, hr⟩, t, n, h => by
      rw [ends, List.mem_append] at h
      rcases h with h | h
      · exact avoids_ends hl h
      · exact avoids_ends hr h
  | many a min max, ha, t, n, h => avoids_manyEnds ha _ min h

/-- As many repetitions as there are: nothing more can be read after them. -/
theorem read_of_head?_manyEnds (a : Atom α) : ∀ (k min : Nat) {t : List α} {n : Nat},
    t.length ≤ k → (a.manyEnds k min t).head? = some n → a.read (t.drop n) = none
  | 0, min, t, n, hk, h => by
      obtain rfl : t = [] := List.eq_nil_of_length_eq_zero (by omega)
      cases hr : a.read ([].drop n) with
      | none => rfl
      | some m =>
          have hpos := a.pos hr
          have hle := a.bounded hr
          rw [List.drop_nil, List.length_nil] at hle
          omega
  | k + 1, min, t, n, hk, h => by
      rw [Atom.manyEnds] at h
      cases hr : a.read t with
      | none =>
          have hn : n = 0 := by
            rw [hr] at h
            simp only [List.nil_append] at h
            split at h
            · simpa using h.symm
            · cases h
          rw [hn, List.drop_zero]
          exact hr
      | some m =>
          have hpos := a.pos hr
          rw [hr] at h
          simp only [List.head?_append] at h
          cases hmore : (a.manyEnds k (min - 1) (t.drop m)).head? with
          | some n' =>
              have hn : n = m + n' := by simpa [hmore] using h.symm
              have := read_of_head?_manyEnds a k (min - 1) (by rw [List.length_drop]; omega) hmore
              rwa [List.drop_drop, ← hn] at this
          | none =>
              -- then at least one more was asked for
              have hmin : min - 1 ≠ 0 := by
                intro hmin
                rw [hmin] at hmore
                cases k <;> simp [Atom.manyEnds] at hmore
              rw [List.head?_map, hmore, if_neg (by omega)] at h
              cases h

/-- The preferred match of a sequence ends with the preferred match of its last part. -/
theorem head?_ends_seq {l r : Regex α} {t : List α} {n : Nat}
    (h : ((seq l r).ends t).head? = some n) :
    ∃ n₁ n₂, n = n₁ + n₂ ∧ (r.ends (t.drop n₁)).head? = some n₂ := by
  rw [ends, List.head?_flatMap] at h
  obtain ⟨n₁, -, h⟩ := List.exists_of_findSome?_eq_some h
  rw [List.head?_map] at h
  obtain ⟨n₂, h₂, rfl⟩ := Option.map_eq_some_iff.mp h
  exact ⟨n₁, n₂, rfl, h₂⟩

/-- A text that does not begin inside a marker. -/
def OutsideMarker (marker t : List α) : Prop :=
  ∀ k v, 0 < k → k < marker.length → t ≠ marker.drop k ++ v

section Solid

variable {marker : List α} {r : Regex α} {h : r.consumes = true}

theorem matcher_start (hr : r.Begins (OutsideMarker marker)) {k : Nat} (v : List α) (hk : 0 < k)
    (hk' : k < marker.length) : (r.matcher h).run (marker.drop k ++ v) = none := by
  cases hrun : (r.matcher h).run (marker.drop k ++ v) with
  | none => rfl
  | some n => exact absurd rfl (begins_of_mem_ends r hr (List.mem_of_head? hrun) k v hk hk')

/-- An expression that reads no such symbol as the marker begins with. -/
theorem solid_of_avoids {c : α} {rest : List α} (hr : r.Begins (OutsideMarker (c :: rest)))
    (hc : r.All (Avoids c)) : (r.matcher h).Solid (c :: rest) where
  start := matcher_start hr
  stop {u v n} hrun := by
    have hmem : c ∉ (u ++ (c :: rest ++ v)).take n :=
      avoids_ends hc (List.mem_of_head? hrun)
    left
    by_contra hn
    apply hmem
    rw [List.take_append, show n - u.length = (n - u.length - 1) + 1 by omega, List.cons_append,
      List.take_succ_cons]
    simp

/-- An expression that ends with a symbol that is not in the marker. -/
theorem solid_of_last {l : Regex α} {a : Atom α} {h : (seq l (atom a)).consumes = true}
    (hr : l.Begins (OutsideMarker marker)) (hone : ∀ t n, a.read t = some n → n = 1)
    (ha : ∀ k v, k < marker.length → a.read (marker.drop k ++ v) = none) :
    ((seq l (atom a)).matcher h).Solid marker where
  start := matcher_start (r := seq l (atom a)) hr
  stop {u v n} hrun := by
    obtain ⟨n₁, n₂, rfl, hlast⟩ := head?_ends_seq hrun
    rw [ends] at hlast
    have hread : a.read ((u ++ (marker ++ v)).drop n₁) = some n₂ := by simpa using hlast
    obtain rfl := hone _ _ hread
    by_contra hinside
    have hdrop : (u ++ (marker ++ v)).drop n₁ = marker.drop (n₁ - u.length) ++ v := by
      rw [List.drop_append, List.drop_of_length_le (by omega), List.nil_append,
        List.drop_append_of_le_length (by omega)]
    rw [hdrop, ha _ v (by omega)] at hread
    cases hread

/-- An expression that ends with as many symbols as possible, those of the marker among them. -/
theorem solid_of_greedy {l : Regex α} {a : Atom α} {min : Nat}
    {h : (seq l (many a min none)).consumes = true} (hr : l.Begins (OutsideMarker marker))
    (ha : ∀ k v, k < marker.length → a.read (marker.drop k ++ v) ≠ none) :
    ((seq l (many a min none)).matcher h).Solid marker where
  start := matcher_start (r := seq l (many a min none)) hr
  stop {u v n} hrun := by
    obtain ⟨n₁, n₂, rfl, hlast⟩ := head?_ends_seq hrun
    have hread : a.read ((u ++ (marker ++ v)).drop (n₁ + n₂)) = none := by
      rw [← List.drop_drop]
      exact read_of_head?_manyEnds a _ min (le_refl _) hlast
    by_contra hinside
    have hdrop : (u ++ (marker ++ v)).drop (n₁ + n₂)
        = marker.drop (n₁ + n₂ - u.length) ++ v := by
      rw [List.drop_append, List.drop_of_length_le (by omega), List.nil_append,
        List.drop_append_of_le_length (by omega)]
    rw [hdrop] at hread
    exact ha _ v (by omega) hread

end Solid

end Regex

end Masking
