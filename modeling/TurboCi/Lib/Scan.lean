import TurboCi.Lib.Masking

set_option autoImplicit false

/-! # Leftmost scanning

`scan m t` collects the leftmost non-overlapping matches of a matcher `m` in a text: at each
position `m` says how long its preferred match of the rest of the text is, if any. Substring
search and leftmost-first regular expressions are both instances.

A matcher is `Local` when it decides from the symbols it matches: what it finds in a prefix
of a text is what it finds in the text, as long as the match fits. Scanning with a local
matcher splits at every position no match crosses (`scan_append`).
-/

namespace Masking

variable {α : Type*}

/-- The length of the preferred match at the front of a text; matches are never empty. -/
structure Matcher (α : Type*) where
  run : List α → Option Nat
  pos : ∀ {t n}, run t = some n → 0 < n
  bounded : ∀ {t n}, run t = some n → n ≤ t.length

/-- Scan a text from its position `i` on, the next `k` symbols belonging to the last match. -/
def scanFrom (m : List α → Option Nat) : Nat → Nat → List α → List Range
  | _, _, [] => []
  | i, 0, c :: t =>
      match m (c :: t) with
      | some (n + 1) => (i, i + (n + 1)) :: scanFrom m (i + 1) n t
      | _ => scanFrom m (i + 1) 0 t
  | i, k + 1, _ :: t => scanFrom m (i + 1) k t

/-- The leftmost non-overlapping matches of `m` in `t`. -/
def Matcher.scan (m : Matcher α) (t : List α) : List Range := scanFrom m.run 0 0 t

theorem scanFrom_skip (m : List α → Option Nat) : ∀ (t : List α) (i k : Nat),
    scanFrom m i k t = scanFrom m (i + k) 0 (t.drop k)
  | [], i, k => by simp [scanFrom]
  | c :: t, i, 0 => rfl
  | c :: t, i, k + 1 => by
      show scanFrom m (i + 1) k t = _
      rw [scanFrom_skip m t (i + 1) k, List.drop_succ_cons]
      congr 1
      omega

theorem Matcher.scanFrom_match (m : Matcher α) {t : List α} {n i : Nat} (h : m.run t = some n) :
    scanFrom m.run i 0 t = (i, i + n) :: scanFrom m.run (i + n) 0 (t.drop n) := by
  have hpos := m.pos h
  have hlen := m.bounded h
  obtain ⟨n, rfl⟩ : ∃ k, n = k + 1 := ⟨n - 1, by omega⟩
  cases t with
  | nil => simp at hlen
  | cons c t =>
      rw [scanFrom, h]
      simp only [List.drop_succ_cons]
      rw [scanFrom_skip m.run t (i + 1) n]
      congr 2
      omega

theorem Matcher.scanFrom_none (m : Matcher α) {c : α} {t : List α} {i : Nat}
    (h : m.run (c :: t) = none) :
    scanFrom m.run i 0 (c :: t) = scanFrom m.run (i + 1) 0 t := by
  rw [scanFrom, h]

theorem Matcher.scanFrom_shift (m : Matcher α) : ∀ (t : List α) (k i j : Nat),
    scanFrom m.run (j + i) k t = shift j (scanFrom m.run i k t)
  | [], k, i, j => by simp [scanFrom, shift]
  | c :: t, 0, i, j => by
      cases h : m.run (c :: t) with
      | none =>
          rw [m.scanFrom_none h, m.scanFrom_none h, Nat.add_assoc, m.scanFrom_shift t 0 (i + 1) j]
      | some n =>
          have hpos := m.pos h
          obtain ⟨n, rfl⟩ : ∃ k, n = k + 1 := ⟨n - 1, by omega⟩
          rw [scanFrom, scanFrom, h]
          simp only [shift, List.map_cons]
          rw [Nat.add_assoc j i 1, m.scanFrom_shift t n (i + 1) j, Nat.add_assoc j i]
          rfl
  | c :: t, k + 1, i, j => by
      show scanFrom m.run (j + i + 1) k t = shift j (scanFrom m.run (i + 1) k t)
      rw [Nat.add_assoc, m.scanFrom_shift t k (i + 1) j]

theorem Matcher.ordered_scanFrom (m : Matcher α) : ∀ (n : Nat) (t : List α) (i : Nat),
    t.length ≤ n → Ordered (i + t.length) i (scanFrom m.run i 0 t) := by
  intro n
  induction n with
  | zero =>
      intro t i h
      obtain rfl : t = [] := List.eq_nil_of_length_eq_zero (by omega)
      trivial
  | succ n ih =>
      intro t i h
      cases t with
      | nil => trivial
      | cons c t =>
          rw [List.length_cons] at h ⊢
          cases hm : m.run (c :: t) with
          | none =>
              rw [m.scanFrom_none hm]
              have := ih t (i + 1) (by omega)
              rw [show i + (t.length + 1) = i + 1 + t.length by omega]
              exact this.mono_lo (by omega)
          | some k =>
              -- the scan goes on after the match
              have hpos := m.pos hm
              have hlen := m.bounded hm
              rw [List.length_cons] at hlen
              have hdrop : ((c :: t).drop k).length = t.length + 1 - k := by simp
              have := ih ((c :: t).drop k) (i + k) (by omega)
              rw [hdrop, show i + k + (t.length + 1 - k) = i + (t.length + 1) by omega] at this
              rw [m.scanFrom_match hm]
              exact ⟨le_refl i, by omega, by omega, this⟩

theorem Matcher.ordered_scan (m : Matcher α) (t : List α) : Ordered t.length 0 (m.scan t) := by
  have := m.ordered_scanFrom t.length t 0 (le_refl _)
  rwa [Nat.zero_add] at this

/-- Every range of a scan is a match. -/
theorem Matcher.run_of_mem_scanFrom (m : Matcher α) : ∀ (t : List α) (i k : Nat) {r : Range},
    r ∈ scanFrom m.run i k t →
      i ≤ r.1 ∧ r.1 ≤ r.2 ∧ m.run (t.drop (r.1 - i)) = some (r.2 - r.1)
  | [], i, k, r, hr => by simp [scanFrom] at hr
  | c :: t, i, 0, r, hr => by
      have hrest : ∀ k, r ∈ scanFrom m.run (i + 1) k t →
          i ≤ r.1 ∧ r.1 ≤ r.2 ∧ m.run ((c :: t).drop (r.1 - i)) = some (r.2 - r.1) := by
        intro k hr
        obtain ⟨h1, h2, h3⟩ := m.run_of_mem_scanFrom t (i + 1) k hr
        refine ⟨by omega, h2, ?_⟩
        rwa [show r.1 - i = (r.1 - (i + 1)) + 1 by omega, List.drop_succ_cons]
      cases h : m.run (c :: t) with
      | none =>
          rw [m.scanFrom_none h] at hr
          exact hrest 0 hr
      | some n =>
          have hpos := m.pos h
          obtain ⟨n, rfl⟩ : ∃ k, n = k + 1 := ⟨n - 1, by omega⟩
          rw [scanFrom, h] at hr
          rcases List.mem_cons.mp hr with rfl | hr
          · refine ⟨le_refl i, Nat.le_add_right i _, ?_⟩
            rw [Nat.sub_self, List.drop_zero, Nat.add_sub_cancel_left]
            exact h
          · exact hrest n hr
  | c :: t, i, k + 1, r, hr => by
      have hr' : r ∈ scanFrom m.run (i + 1) k t := hr
      obtain ⟨h1, h2, h3⟩ := m.run_of_mem_scanFrom t (i + 1) k hr'
      refine ⟨by omega, h2, ?_⟩
      rwa [show r.1 - i = (r.1 - (i + 1)) + 1 by omega, List.drop_succ_cons]

theorem Matcher.run_of_mem_scan (m : Matcher α) {t : List α} {r : Range} (h : r ∈ m.scan t) :
    r.1 ≤ r.2 ∧ m.run (t.drop r.1) = some (r.2 - r.1) := by
  obtain ⟨-, hle, hrun⟩ := m.run_of_mem_scanFrom t 0 0 h
  exact ⟨hle, by rwa [Nat.sub_zero] at hrun⟩

theorem Matcher.run_nil (m : Matcher α) : m.run [] = none := by
  cases h : m.run [] with
  | none => rfl
  | some n =>
      have hpos := m.pos h
      have hlen := m.bounded h
      rw [List.length_nil] at hlen
      omega

/-- A scan finds nothing just if no rest of the text begins with a match. -/
theorem Matcher.scan_eq_nil_iff (m : Matcher α) (t : List α) :
    m.scan t = [] ↔ ∀ v, v <:+ t → m.run v = none := by
  have hfrom : ∀ (t : List α) (i : Nat),
      scanFrom m.run i 0 t = [] ↔ ∀ v, v <:+ t → m.run v = none := by
    intro t
    induction t with
    | nil =>
        intro i
        simp [scanFrom, m.run_nil]
    | cons c t ih =>
        intro i
        cases h : m.run (c :: t) with
        | none =>
            rw [m.scanFrom_none h, ih]
            constructor
            · intro hrest v hv
              rcases List.suffix_cons_iff.mp hv with rfl | hv
              · exact h
              · exact hrest v hv
            · exact fun hall v hv => hall v (hv.trans (List.suffix_cons c t))
        | some n =>
            rw [m.scanFrom_match h]
            constructor
            · intro hnil
              cases hnil
            · intro hall
              rw [hall _ List.suffix_rfl] at h
              cases h
  exact hfrom t 0

/-! ## Splitting a scan -/

/-- The matcher decides from the symbols it matches. -/
structure Matcher.Local (m : Matcher α) : Prop where
  shrink : ∀ {x y n}, m.run (x ++ y) = some n → n ≤ x.length → m.run x = some n
  grow : ∀ {x y n}, m.run x = some n → ∃ k, m.run (x ++ y) = some k

/-- Where nothing matches in a text, nothing matches in a part of it. -/
theorem Matcher.Local.scan_eq_nil_of_part {m : Matcher α} (hm : m.Local) {t u : List α}
    (h : m.scan t = []) (hu : u <:+: t) : m.scan u = [] := by
  obtain ⟨a, b, rfl⟩ := hu
  rw [m.scan_eq_nil_iff] at h ⊢
  intro v hv
  cases hrun : m.run v with
  | none => rfl
  | some n =>
      -- the match goes on to be one in front of what follows the part
      obtain ⟨k, hk⟩ := hm.grow (y := b) hrun
      obtain ⟨w, rfl⟩ := hv
      have hsuffix : v ++ b <:+ a ++ (w ++ v) ++ b := ⟨a ++ w, by simp⟩
      rw [h _ hsuffix] at hk
      cases hk

theorem Matcher.Local.scanFrom_append {m : Matcher α} (hm : m.Local) (y : List α) :
    ∀ (n : Nat) (x : List α) (i : Nat), x.length ≤ n →
      (∀ r ∈ scanFrom m.run i 0 (x ++ y), ¬ Inside (i + x.length) r) →
      scanFrom m.run i 0 (x ++ y)
        = scanFrom m.run i 0 x ++ scanFrom m.run (i + x.length) 0 y := by
  intro n
  induction n with
  | zero =>
      intro x i h _
      obtain rfl : x = [] := List.eq_nil_of_length_eq_zero (by omega)
      rfl
  | succ n ih =>
      intro x i h hclear
      cases x with
      | nil => rfl
      | cons c x =>
          rw [List.length_cons] at h hclear ⊢
          cases hall : m.run (c :: x ++ y) with
          | none =>
              -- a match in the first part alone would grow to one of the whole
              have hx : m.run (c :: x) = none := by
                cases hx : m.run (c :: x) with
                | none => rfl
                | some k =>
                    obtain ⟨k', hk'⟩ := hm.grow (y := y) hx
                    rw [hall] at hk'
                    cases hk'
              rw [List.cons_append] at hall hclear ⊢
              rw [m.scanFrom_none hall] at hclear ⊢
              rw [m.scanFrom_none hx]
              have := ih x (i + 1) (by omega)
                (by rwa [show i + 1 + x.length = i + (x.length + 1) by omega])
              rwa [show i + 1 + x.length = i + (x.length + 1) by omega] at this
          | some k =>
              have hpos := m.pos hall
              rw [m.scanFrom_match hall] at hclear ⊢
              -- the match does not cross the seam, so it lies in the first part
              have hk : k ≤ (c :: x).length := by
                have := hclear _ List.mem_cons_self
                rw [List.length_cons]
                unfold Inside at this
                omega
              have hx : m.run (c :: x) = some k := hm.shrink hall hk
              have hdrop : (c :: x ++ y).drop k = (c :: x).drop k ++ y :=
                List.drop_append_of_le_length hk
              have hlen : i + k + ((c :: x).drop k).length = i + (x.length + 1) := by
                rw [List.length_drop]
                rw [List.length_cons] at hk ⊢
                omega
              rw [hdrop] at hclear ⊢
              rw [m.scanFrom_match hx, List.cons_append]
              have := ih ((c :: x).drop k) (i + k)
                (by rw [List.length_drop, List.length_cons]; omega)
                (by rw [hlen]; exact fun r hr => hclear r (List.mem_cons_of_mem _ hr))
              rw [this, hlen]

/-- **A scan splits where no match crosses.** -/
theorem Matcher.Local.scan_append {m : Matcher α} (hm : m.Local) {x y : List α}
    (h : ∀ r ∈ m.scan (x ++ y), ¬ Inside x.length r) :
    m.scan (x ++ y) = m.scan x ++ shift x.length (m.scan y) := by
  have hsplit := hm.scanFrom_append y x.length x 0 (le_refl _) (by rwa [Nat.zero_add])
  rw [Nat.zero_add] at hsplit
  calc m.scan (x ++ y) = m.scan x ++ scanFrom m.run x.length 0 y := hsplit
    _ = m.scan x ++ shift x.length (m.scan y) := by
        rw [Matcher.scan, Matcher.scan, ← m.scanFrom_shift, Nat.add_zero]

/-! ## Substring search -/

/-- The word is at this position of the text. -/
def OccursAt (s t : List α) (q : Nat) : Prop := s <+: t.drop q

instance [DecidableEq α] (s t : List α) (q : Nat) : Decidable (OccursAt s t q) :=
  inferInstanceAs (Decidable (s <+: t.drop q))

section Search

variable [DecidableEq α]

/-- The matcher that looks for the word `s`. -/
def literal (s : List α) : Matcher α where
  run t := if s ≠ [] ∧ s <+: t then some s.length else none
  pos {t n} h := by
    split at h
    · next hs =>
        obtain rfl : s.length = n := by simpa using h
        exact List.length_pos_of_ne_nil hs.1
    · cases h
  bounded {t n} h := by
    split at h
    · next hs =>
        obtain rfl : s.length = n := by simpa using h
        exact hs.2.length_le
    · cases h

theorem literal_run {s t : List α} (hs : s ≠ []) :
    (literal s).run t = if s <+: t then some s.length else none := by
  simp [literal, hs]

theorem literal_local (s : List α) : (literal s).Local where
  shrink {x y n} h hn := by
    simp only [literal] at h ⊢
    split at h
    · next hs =>
        obtain rfl : s.length = n := by simpa using h
        have : s <+: x := List.prefix_of_prefix_length_le hs.2 (List.prefix_append x y) hn
        rw [if_pos ⟨hs.1, this⟩]
    · cases h
  grow {x y n} h := by
    simp only [literal] at h ⊢
    split at h
    · next hs => exact ⟨s.length, by rw [if_pos ⟨hs.1, hs.2.trans (List.prefix_append x y)⟩]⟩
    · cases h

/-- Every match of a word is an occurrence of it. -/
theorem eq_of_mem_scan {s t : List α} {r : Range} (h : r ∈ (literal s).scan t) :
    r.2 = r.1 + s.length ∧ s <+: t.drop r.1 := by
  obtain ⟨hle, hrun⟩ := (literal s).run_of_mem_scan h
  simp only [literal] at hrun
  split at hrun
  · next hs =>
      have := Option.some.inj hrun
      exact ⟨by omega, hs.2⟩
  · cases hrun

theorem scan_literal_eq_nil {s t : List α} (h : ¬ s <:+: t) : (literal s).scan t = [] := by
  apply List.eq_nil_iff_forall_not_mem.mpr
  intro r hr
  have hocc : s <+: t.drop r.1 := (eq_of_mem_scan hr).2
  exact h (hocc.isInfix.trans (List.drop_suffix r.1 t).isInfix)

/-- The parts between the matches of a word do not contain it. -/
theorem masked_scanFrom {s m : List α} (hs : s ≠ []) : ∀ (n : Nat) (t : List α) (i : Nat),
    t.length ≤ n →
      Masked m (fun a => ¬ s <:+: a) t (maskFrom m i (scanFrom (literal s).run i 0 t) t) := by
  have hnil : ¬ s <:+: [] := fun h => hs (List.eq_nil_of_infix_nil h)
  intro n
  induction n with
  | zero =>
      intro t i h
      obtain rfl : t = [] := List.eq_nil_of_length_eq_zero (by omega)
      exact .keep hnil
  | succ n ih =>
      intro t i h
      cases t with
      | nil => exact .keep hnil
      | cons c t =>
          rw [List.length_cons] at h
          cases hm : (literal s).run (c :: t) with
          | some k =>
              have hlen := (literal s).bounded hm
              have hpos := (literal s).pos hm
              rw [(literal s).scanFrom_match hm]
              -- the match is covered by the marker, with nothing kept before it
              have hrec := ih ((c :: t).drop k) (i + k)
                (by rw [List.length_drop, List.length_cons]; omega)
              have hcover : Masked m (fun a => ¬ s <:+: a)
                  ([] ++ (c :: t).take k ++ (c :: t).drop k)
                  ([] ++ m ++ maskFrom m (i + k)
                    (scanFrom (literal s).run (i + k) 0 ((c :: t).drop k)) ((c :: t).drop k)) :=
                .cover hnil hrec
              rw [List.nil_append, List.take_append_drop] at hcover
              show Masked m _ (c :: t) ((c :: t).take (i - i) ++ m
                ++ maskFrom m (i + k) _ ((c :: t).drop (i + k - i)))
              rwa [Nat.sub_self, List.take_zero, Nat.add_sub_cancel_left]
          | none =>
              have hno : ¬ s <+: c :: t := by
                intro hp
                rw [literal_run hs, if_pos hp] at hm
                cases hm
              rw [(literal s).scanFrom_none hm]
              rw [maskFrom_cons m c t ((literal s).ordered_scanFrom t.length t (i + 1) (le_refl _))]
              -- the first kept part grows by `c`, and `s` does not begin there
              refine (ih t (i + 1) (by omega)).cons (fun a z haz ha hi => ?_)
              rcases List.infix_cons_iff.mp hi with hp | hi
              · exact hno (hp.trans ⟨z, by rw [← haz]; rfl⟩)
              · exact ha hi

/-- **Masking the matches of a word leaves kept parts without it.** -/
theorem masked_scan {s : List α} (m : List α) (hs : s ≠ []) (t : List α) :
    Masked m (fun a => ¬ s <:+: a) t (mask m ((literal s).scan t) t) :=
  masked_scanFrom hs t.length t 0 (le_refl _)

end Search

end Masking
