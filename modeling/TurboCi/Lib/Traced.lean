import TurboCi.Lib.Masking

set_option autoImplicit false

/-! # Which symbols survive masking

A traced text is one whose symbols know their position in an original text; the symbols of a
marker have none. Masking a traced text shows which positions survive several passes, each of
which looks for its ranges in the text that the passes before it left.

The surviving positions are those that no pass reports of the original text exactly if the
passes are `Faithful` to their reports (`survivors_eq_iff`).
-/

namespace Masking

variable {α : Type*}

/-- A symbol with its position in the original text, if it has one. -/
abbrev Traced (α : Type*) := α × Option Nat

def trace (t : List α) : List (Traced α) := t.zipIdx.map fun p => (p.1, some p.2)

/-- The symbols of a marker. -/
def untraced (m : List α) : List (Traced α) := m.map fun c => (c, none)

def symbols (T : List (Traced α)) : List α := T.map Prod.fst

/-- The positions that are left, in order. -/
def origins (T : List (Traced α)) : List Nat := T.filterMap Prod.snd

/-- The position lies in one of the ranges. -/
def Covered (rs : List Range) (p : Nat) : Prop := ∃ r ∈ rs, r.1 ≤ p ∧ p < r.2

instance (rs : List Range) (p : Nat) : Decidable (Covered rs p) :=
  inferInstanceAs (Decidable (∃ r ∈ rs, _))

@[simp] theorem symbols_trace (t : List α) : symbols (trace t) = t := by
  unfold symbols trace
  rw [List.map_map]
  exact List.zipIdx_map_fst 0 t

@[simp] theorem symbols_untraced (m : List α) : symbols (untraced m) = m := by
  unfold symbols untraced
  rw [List.map_map]
  exact List.map_id m

@[simp] theorem origins_trace (t : List α) : origins (trace t) = List.range t.length := by
  unfold origins trace
  rw [List.filterMap_map]
  have hsome : (Prod.snd ∘ fun p : α × Nat => (p.1, some p.2)) = some ∘ Prod.snd := rfl
  rw [hsome, List.filterMap_eq_map, List.range_eq_range']
  exact List.zipIdx_map_snd 0 t

@[simp] theorem origins_untraced (m : List α) : origins (untraced m) = [] := by
  unfold origins untraced
  rw [List.filterMap_map]
  exact List.filterMap_eq_nil_iff.mpr fun _ _ => rfl

theorem origins_append (T U : List (Traced α)) : origins (T ++ U) = origins T ++ origins U :=
  List.filterMap_append

theorem symbols_append (T U : List (Traced α)) : symbols (T ++ U) = symbols T ++ symbols U :=
  List.map_append

theorem mem_origins {T : List (Traced α)} {p : Nat} :
    p ∈ origins T ↔ ∃ (k : Nat) (c : α), T[k]? = some (c, some p) := by
  unfold origins
  rw [List.mem_filterMap]
  constructor
  · rintro ⟨⟨c, q⟩, hmem, hq⟩
    obtain ⟨k, hk⟩ := List.mem_iff_getElem?.mp hmem
    exact ⟨k, c, hk.trans (congrArg some (Prod.ext rfl hq))⟩
  · rintro ⟨k, c, hk⟩
    exact ⟨(c, some p), List.mem_of_getElem? hk, rfl⟩

/-! ## One pass -/

theorem map_maskFrom {β : Type*} (f : α → β) (m : List α) (rs : List Range) : ∀ pos (t : List α),
    (maskFrom m pos rs t).map f = maskFrom (m.map f) pos rs (t.map f) := by
  induction rs with
  | nil => intro pos t; rfl
  | cons r rs ih =>
      intro pos t
      show (t.take (r.1 - pos) ++ m ++ maskFrom m r.2 rs (t.drop (r.2 - pos))).map f = _
      rw [List.map_append, List.map_append, ih, List.map_take, List.map_drop]
      rfl

theorem symbols_mask (m : List α) (rs : List Range) (T : List (Traced α)) :
    symbols (mask (untraced m) rs T) = mask m rs (symbols T) := by
  have hmap := map_maskFrom Prod.fst (untraced m) rs 0 T
  rw [show (untraced m).map Prod.fst = m from symbols_untraced m] at hmap
  exact hmap

theorem covered_cons {r : Range} {rs : List Range} {p : Nat} :
    Covered (r :: rs) p ↔ (r.1 ≤ p ∧ p < r.2) ∨ Covered rs p := by
  unfold Covered
  exact List.exists_mem_cons_iff _ r rs

/-- No range begins before the position from which they are ordered. -/
theorem not_covered_of_lt {hi pos p : Nat} {rs : List Range} (h : Ordered hi pos rs)
    (hlt : p < pos) : ¬ Covered rs p := by
  rintro ⟨r, hr, hlo, -⟩
  have hle : pos ≤ r.1 := (h.le_of_mem hr).1
  omega

/-- What is not covered survives. -/
theorem mem_origins_maskFrom (m : List α) {hi p : Nat} {rs : List Range} :
    ∀ {pos : Nat} {T : List (Traced α)}, Ordered hi pos rs →
      (p ∈ origins (maskFrom (untraced m) pos rs T) ↔
        ∃ (k : Nat) (c : α), T[k]? = some (c, some p) ∧ ¬ Covered rs (pos + k)) := by
  induction rs with
  | nil =>
      intro pos T _
      have hnone : ∀ k, ¬ Covered [] (pos + k) := fun k => nofun
      simp only [maskFrom, mem_origins, hnone, not_false_eq_true, and_true]
  | cons r rs ih =>
      obtain ⟨s, e⟩ := r
      rintro pos T ⟨hs, hse, -, hrest⟩
      show p ∈ origins (T.take (s - pos) ++ untraced m ++
        maskFrom (untraced m) e rs (T.drop (e - pos))) ↔ _
      rw [origins_append, origins_append, origins_untraced, List.append_nil, List.mem_append,
        mem_origins, ih hrest]
      constructor
      · rintro (⟨k, c, hk⟩ | ⟨k, c, hk, hnot⟩)
        · -- before the first range
          have hlt : k < s - pos := by
            by_contra hge
            rw [List.getElem?_take, if_neg hge] at hk
            cases hk
          rw [List.getElem?_take_of_lt hlt] at hk
          refine ⟨k, c, hk, ?_⟩
          rw [covered_cons]
          rintro (⟨hlo, -⟩ | hlater)
          · simp only at hlo
            omega
          · exact not_covered_of_lt hrest (by omega) hlater
        · -- behind it
          rw [List.getElem?_drop] at hk
          refine ⟨e - pos + k, c, hk, ?_⟩
          have heq : pos + (e - pos + k) = e + k := by omega
          rw [heq, covered_cons]
          rintro (⟨-, hup⟩ | hlater)
          · simp only at hup
            omega
          · exact hnot hlater
      · rintro ⟨k, c, hk, hnot⟩
        rw [covered_cons, not_or] at hnot
        obtain ⟨hhere, hlater⟩ := hnot
        by_cases hbefore : k < s - pos
        · left
          exact ⟨k, c, by rw [List.getElem?_take_of_lt hbefore]; exact hk⟩
        · right
          have hsplit : k = e - pos + (k - (e - pos)) := by
            simp only at hhere
            omega
          refine ⟨k - (e - pos), c, ?_, ?_⟩
          · rw [List.getElem?_drop, ← hsplit]
            exact hk
          · have heq : e + (k - (e - pos)) = pos + k := by omega
            rw [heq]
            exact hlater

theorem origins_maskFrom_sublist (m : List α) {hi : Nat} {rs : List Range} :
    ∀ {pos : Nat} {T : List (Traced α)}, Ordered hi pos rs →
      (origins (maskFrom (untraced m) pos rs T)).Sublist (origins T) := by
  induction rs with
  | nil => intro pos T _; exact List.Sublist.refl _
  | cons r rs ih =>
      obtain ⟨s, e⟩ := r
      rintro pos T ⟨hs, hse, -, hrest⟩
      show (origins (T.take (s - pos) ++ untraced m ++
        maskFrom (untraced m) e rs (T.drop (e - pos)))).Sublist (origins T)
      have hdrop : T.drop (e - pos) = (T.drop (s - pos)).drop (e - s) := by
        rw [List.drop_drop]
        congr 1
        omega
      have hright : (origins (maskFrom (untraced m) e rs (T.drop (e - pos)))).Sublist
          (origins (T.drop (s - pos))) := by
        refine (ih hrest).trans ?_
        rw [hdrop]
        exact (List.drop_sublist _ _).filterMap _
      have hboth := (List.Sublist.refl (origins (T.take (s - pos)))).append hright
      rw [← origins_append (T.take (s - pos)) (T.drop (s - pos)), List.take_append_drop] at hboth
      rw [origins_append, origins_append, origins_untraced, List.append_nil]
      exact hboth

/-- A symbol with a position is kept from the text. -/
theorem mem_of_mem_maskFrom (m : List α) {c : α} {p : Nat} (rs : List Range) :
    ∀ {pos : Nat} {T : List (Traced α)}, (c, some p) ∈ maskFrom (untraced m) pos rs T →
      (c, some p) ∈ T := by
  induction rs with
  | nil => intro pos T h; exact h
  | cons r rs ih =>
      intro pos T h
      have hparts : (c, some p) ∈ T.take (r.1 - pos) ++ untraced m ++
          maskFrom (untraced m) r.2 rs (T.drop (r.2 - pos)) := h
      rw [List.mem_append, List.mem_append] at hparts
      rcases hparts with (htake | hmarker) | hrest
      · exact List.mem_of_mem_take htake
      · obtain ⟨d, -, hd⟩ := List.mem_map.mp hmarker
        cases hd
      · exact List.mem_of_mem_drop (ih hrest)

theorem getElem?_of_mem_trace {t : List α} {c : α} {p : Nat} (h : (c, some p) ∈ trace t) :
    t[p]? = some c := by
  obtain ⟨⟨d, q⟩, hmem, heq⟩ := List.mem_map.mp h
  cases heq
  exact List.mem_zipIdx_iff_getElem?.mp hmem

/-- A position is at one place. -/
theorem index_unique {p : Nat} {T : List (Traced α)} : ∀ {k k' : Nat} {c c' : α},
    (origins T).Nodup → T[k]? = some (c, some p) → T[k']? = some (c', some p) → k = k' := by
  induction T with
  | nil => intro k k' c c' _ hk; cases hk
  | cons x T ih =>
      obtain ⟨d, q⟩ := x
      intro k k' c c' hnodup hk hk'
      cases q with
      | none =>
          have hrest : (origins T).Nodup := hnodup
          cases k with
          | zero => cases hk
          | succ k =>
              cases k' with
              | zero => cases hk'
              | succ k' => rw [ih hrest hk hk']
      | some q =>
          have hcons : (q :: origins T).Nodup := hnodup
          obtain ⟨hnot, hrest⟩ := List.nodup_cons.mp hcons
          cases k with
          | zero =>
              cases k' with
              | zero => rfl
              | succ k' =>
                  cases hk
                  exact absurd (mem_origins.mpr ⟨k', c', hk'⟩) hnot
          | succ k =>
              cases k' with
              | zero =>
                  cases hk'
                  exact absurd (mem_origins.mpr ⟨k, c, hk⟩) hnot
              | succ k' => rw [ih hrest hk hk']

/-- What a pass looks for. -/
structure Finder (α : Type*) where
  find : List α → List Range
  ordered : ∀ t, Ordered t.length 0 (find t)

section Passes

variable (m : List α)

/-- Mask what is found in the text that a traced one shows. -/
def Finder.pass (f : Finder α) (T : List (Traced α)) : List (Traced α) :=
  mask (untraced m) (f.find (symbols T)) T

/-- The passes, one after the other. -/
def passAll (fs : List (Finder α)) (T : List (Traced α)) : List (Traced α) :=
  fs.foldl (fun T f => f.pass m T) T

/-- The pass finds the symbol from this position. -/
def Finder.Found (f : Finder α) (T : List (Traced α)) (p : Nat) : Prop :=
  ∃ (k : Nat) (c : α), T[k]? = some (c, some p) ∧ Covered (f.find (symbols T)) k

/-- One of the passes finds it, in what the ones before it left. -/
def FoundByOne : List (Finder α) → List (Traced α) → Nat → Prop
  | [], _, _ => False
  | f :: fs, T, p => f.Found T p ∨ FoundByOne fs (f.pass m T) p

/-- One of the passes reports the position of the original text. -/
def Reported (fs : List (Finder α)) (t : List α) (p : Nat) : Prop :=
  ∃ f ∈ fs, Covered (f.find t) p

instance (fs : List (Finder α)) (t : List α) (p : Nat) : Decidable (Reported fs t p) :=
  inferInstanceAs (Decidable (∃ f ∈ fs, _))

/-- Each pass finds only what some pass reports, and what it reports itself is found, as far as it
is left, by it or by a later one. -/
def Faithful (t : List α) (reported : Nat → Prop) : List (Finder α) → List (Traced α) → Prop
  | [], _ => True
  | f :: fs, T =>
      (∀ p, f.Found T p → reported p) ∧
        (∀ p ∈ origins T, Covered (f.find t) p → FoundByOne m (f :: fs) T p) ∧
        Faithful t reported fs (f.pass m T)

variable {m}

theorem symbols_passAll (fs : List (Finder α)) : ∀ T : List (Traced α),
    symbols (passAll m fs T) = fs.foldl (fun t f => mask m (f.find t) t) (symbols T) := by
  induction fs with
  | nil => intro T; rfl
  | cons f fs ih =>
      intro T
      show symbols (passAll m fs (f.pass m T)) = _
      rw [ih, Finder.pass, symbols_mask]
      rfl

theorem ordered_symbols (f : Finder α) (T : List (Traced α)) :
    Ordered T.length 0 (f.find (symbols T)) := by
  have hord := f.ordered (symbols T)
  rwa [symbols, List.length_map] at hord

theorem mem_origins_pass {f : Finder α} {T : List (Traced α)} {p : Nat}
    (hnodup : (origins T).Nodup) :
    p ∈ origins (f.pass m T) ↔ p ∈ origins T ∧ ¬ f.Found T p := by
  have hkept : p ∈ origins (f.pass m T) ↔
      ∃ (k : Nat) (c : α), T[k]? = some (c, some p) ∧ ¬ Covered (f.find (symbols T)) (0 + k) :=
    mem_origins_maskFrom m (ordered_symbols f T)
  rw [hkept]
  constructor
  · rintro ⟨k, c, hk, hnot⟩
    refine ⟨mem_origins.mpr ⟨k, c, hk⟩, ?_⟩
    rintro ⟨k', c', hk', hcovered⟩
    obtain rfl := index_unique hnodup hk hk'
    rw [Nat.zero_add] at hnot
    exact hnot hcovered
  · rintro ⟨hmem, hnot⟩
    obtain ⟨k, c, hk⟩ := mem_origins.mp hmem
    refine ⟨k, c, hk, fun hcovered => hnot ⟨k, c, hk, ?_⟩⟩
    rwa [Nat.zero_add] at hcovered

theorem nodup_origins_pass {f : Finder α} {T : List (Traced α)} (hnodup : (origins T).Nodup) :
    (origins (f.pass m T)).Nodup :=
  hnodup.sublist (origins_maskFrom_sublist m (ordered_symbols f T))

theorem mem_origins_of_found {f : Finder α} {T : List (Traced α)} {p : Nat} (h : f.Found T p) :
    p ∈ origins T := by
  obtain ⟨k, c, hk, -⟩ := h
  exact mem_origins.mpr ⟨k, c, hk⟩

/-! ## All passes -/

/-- A position survives if no pass finds it. -/
theorem mem_origins_passAll {p : Nat} (fs : List (Finder α)) : ∀ {T : List (Traced α)},
    (origins T).Nodup →
      (p ∈ origins (passAll m fs T) ↔ p ∈ origins T ∧ ¬ FoundByOne m fs T p) := by
  induction fs with
  | nil => intro T _; exact (and_iff_left not_false).symm
  | cons f fs ih =>
      intro T hnodup
      show p ∈ origins (passAll m fs (f.pass m T)) ↔ _
      rw [ih (nodup_origins_pass hnodup), mem_origins_pass hnodup, and_assoc]
      show _ ↔ p ∈ origins T ∧ ¬ (f.Found T p ∨ FoundByOne m fs (f.pass m T) p)
      rw [not_or]

theorem passAll_sublist (fs : List (Finder α)) : ∀ (T : List (Traced α)),
    (origins (passAll m fs T)).Sublist (origins T) := by
  induction fs with
  | nil => intro T; exact List.Sublist.refl _
  | cons f fs ih =>
      intro T
      exact (ih (f.pass m T)).trans (origins_maskFrom_sublist m (ordered_symbols f T))

theorem mem_origins_of_foundByOne {p : Nat} (fs : List (Finder α)) : ∀ {T : List (Traced α)},
    (origins T).Nodup → FoundByOne m fs T p → p ∈ origins T := by
  induction fs with
  | nil => intro T _ h; exact h.elim
  | cons f fs ih =>
      intro T hnodup h
      rcases h with hfound | hlater
      · exact mem_origins_of_found hfound
      · exact ((mem_origins_pass hnodup).mp (ih (nodup_origins_pass hnodup) hlater)).1

theorem mem_of_mem_passAll {c : α} {p : Nat} (fs : List (Finder α)) : ∀ {T : List (Traced α)},
    (c, some p) ∈ passAll m fs T → (c, some p) ∈ T := by
  induction fs with
  | nil => intro T h; exact h
  | cons f fs ih => intro T h; exact mem_of_mem_maskFrom m _ (ih h)

/-- **Passes are faithful if they find** only what is reported, and all of it that is left. -/
theorem faithful_iff {t : List α} {reported : Nat → Prop} (fs : List (Finder α)) :
    ∀ {T : List (Traced α)}, (origins T).Nodup →
      (Faithful m t reported fs T ↔ (∀ p, FoundByOne m fs T p → reported p) ∧
        ∀ p ∈ origins T, Reported fs t p → FoundByOne m fs T p) := by
  induction fs with
  | nil =>
      intro T _
      refine iff_of_true trivial ⟨fun p h => h.elim, ?_⟩
      rintro p - ⟨f, hf, -⟩
      exact absurd hf List.not_mem_nil
  | cons f fs ih =>
      intro T hnodup
      show _ ∧ _ ∧ Faithful m t reported fs (f.pass m T) ↔ _
      rw [ih (nodup_origins_pass hnodup)]
      constructor
      · rintro ⟨hextra, hmissed, hextras, hmisseds⟩
        refine ⟨?_, ?_⟩
        · rintro p (hfound | hlater)
          · exact hextra p hfound
          · exact hextras p hlater
        · rintro p hp ⟨g, hg, hcovered⟩
          rcases List.mem_cons.mp hg with rfl | hg
          · exact hmissed p hp hcovered
          · by_cases hfound : f.Found T p
            · exact .inl hfound
            · exact .inr (hmisseds p ((mem_origins_pass hnodup).mpr ⟨hp, hfound⟩)
                ⟨g, hg, hcovered⟩)
      · rintro ⟨hextra, hmissed⟩
        refine ⟨fun p hfound => hextra p (.inl hfound), ?_,
          fun p hlater => hextra p (.inr hlater), ?_⟩
        · exact fun p hp hcovered => hmissed p hp ⟨f, List.mem_cons_self, hcovered⟩
        · rintro p hp ⟨g, hg, hcovered⟩
          obtain ⟨hleft, hnot⟩ := (mem_origins_pass hnodup).mp hp
          have hone := hmissed p hleft ⟨g, List.mem_cons_of_mem _ hg, hcovered⟩
          exact hone.resolve_left hnot

/-- Passes that find nothing change nothing. -/
theorem passAll_of_quiet {fs : List (Finder α)} {T : List (Traced α)}
    (h : ∀ f ∈ fs, f.find (symbols T) = []) : passAll m fs T = T := by
  induction fs with
  | nil => rfl
  | cons f fs ih =>
      have hpass : f.pass m T = T := by
        rw [Finder.pass, h f List.mem_cons_self, mask_nil]
      show passAll m fs (f.pass m T) = T
      rw [hpass]
      exact ih fun g hg => h g (List.mem_cons_of_mem f hg)

/-- A part of a list without repeats is what it keeps of it. -/
theorem eq_filter_iff {l l' : List Nat} {P : Nat → Prop} [DecidablePred P] (hnodup : l.Nodup)
    (hsub : l'.Sublist l) : l' = l.filter (fun p => P p) ↔ ∀ p ∈ l, p ∈ l' ↔ P p := by
  constructor
  · rintro rfl p hp
    rw [List.mem_filter, decide_eq_true_eq]
    exact and_iff_right hp
  · intro h
    induction hsub with
    | slnil => rfl
    | cons a hsub ih =>
        obtain ⟨hnot, hrest⟩ := List.nodup_cons.mp hnodup
        have ha : ¬ P a := fun hP => hnot (hsub.subset ((h a List.mem_cons_self).mpr hP))
        rw [List.filter_cons_of_neg (by simpa using ha)]
        exact ih hrest fun p hp => h p (List.mem_cons_of_mem _ hp)
    | cons_cons a hsub ih =>
        obtain ⟨hnot, hrest⟩ := List.nodup_cons.mp hnodup
        have ha : P a := (h a List.mem_cons_self).mp List.mem_cons_self
        rw [List.filter_cons_of_pos (by simpa using ha)]
        congr 1
        refine ih hrest fun p hp => ?_
        have hne : p ≠ a := fun heq => hnot (heq ▸ hp)
        have hiff := h p (List.mem_cons_of_mem _ hp)
        rwa [List.mem_cons, or_iff_right hne] at hiff

/-- **The survivors are the positions that no pass reports exactly if the passes are faithful.** -/
theorem survivors_eq_iff (fs : List (Finder α)) (t : List α) :
    origins (passAll m fs (trace t)) =
        (List.range t.length).filter (fun p => ¬ Reported fs t p) ↔
      Faithful m t (Reported fs t) fs (trace t) := by
  have hnodup : (origins (trace t)).Nodup := by
    rw [origins_trace]
    exact List.nodup_range
  have hsub := passAll_sublist (m := m) fs (trace t)
  rw [origins_trace] at hsub
  rw [eq_filter_iff List.nodup_range hsub, faithful_iff fs hnodup, origins_trace]
  constructor
  · intro h
    constructor
    · intro p hone
      have hp : p ∈ List.range t.length := by
        have hmem := mem_origins_of_foundByOne fs hnodup hone
        rwa [origins_trace] at hmem
      by_contra hnot
      exact ((mem_origins_passAll fs hnodup).mp ((h p hp).mpr hnot)).2 hone
    · intro p hp hreported
      by_contra hnot
      refine (h p hp).mp ((mem_origins_passAll fs hnodup).mpr ⟨?_, hnot⟩) hreported
      rwa [origins_trace]
  · rintro ⟨hextra, hmissed⟩ p hp
    rw [mem_origins_passAll fs hnodup, origins_trace, and_iff_right hp]
    exact not_congr ⟨hextra p, hmissed p hp⟩

end Passes

end Masking
