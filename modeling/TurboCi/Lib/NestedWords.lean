import TurboCi.Lib.Scan
import TurboCi.Lib.Traced

set_option autoImplicit false

/-! # Masking words one after the other

Words that the marker does not have are masked one after the other, the longer ones first. When
all their occurrences in a text lie apart or one within the other (`Laminar`), each of them is
masked with the others as it is without them, so the passes are faithful to their reports
(`faithful_of_laminar`).

The invariant of the passes is a text with pieces cut out, none of them empty (`CutBy`): what is
left of it is together where it was together before.
-/

namespace Masking

variable {α : Type*}

/-! ## Cutting pieces out -/

/-- `o` is `t` with some disjoint parts, none of them empty, replaced by `M`. -/
inductive CutBy {β : Type*} (M : List β) : List β → List β → Prop
  | keep (t : List β) : CutBy M t t
  | cover {a w t o : List β} : w ≠ [] → CutBy M t o → CutBy M (a ++ w ++ t) (a ++ M ++ o)

section Cuts

variable {β : Type*} {M t o : List β}

theorem CutBy.masked (h : CutBy M t o) : Masked M (fun _ => True) t o := by
  induction h with
  | keep t => exact .keep trivial
  | cover _ _ ih => exact .cover trivial ih

theorem CutBy.mem (h : CutBy M t o) {x : β} (hx : x ∈ o) : x ∈ t ∨ x ∈ M := by
  induction h with
  | keep t => exact .inl hx
  | cover _ _ ih =>
      rcases List.mem_append.mp hx with hx | hx
      · rcases List.mem_append.mp hx with hx | hx
        · exact .inl (List.mem_append_left _ (List.mem_append_left _ hx))
        · exact .inr hx
      · rcases ih hx with hx | hx
        · exact .inl (List.mem_append_right _ hx)
        · exact .inr hx

/-- Two texts with pieces cut out, around one more piece. -/
theorem CutBy.append_cover {w u o' : List β} (h : CutBy M t o) (hw : w ≠ []) (hu : CutBy M u o') :
    CutBy M (t ++ w ++ u) (o ++ M ++ o') := by
  induction h with
  | keep t => exact .cover hw hu
  | @cover a v t o hv _ ih =>
      have hcover : CutBy M (a ++ v ++ (t ++ w ++ u)) (a ++ M ++ (o ++ M ++ o')) := .cover hv ih
      simp only [List.append_assoc] at hcover ⊢
      exact hcover

theorem cutBy_maskFrom {hi : Nat} {rs : List Range} : ∀ {pos : Nat} {t : List β},
    hi = pos + t.length → Ordered hi pos rs → (∀ r ∈ rs, r.1 < r.2) →
      CutBy M t (maskFrom M pos rs t) := by
  induction rs with
  | nil => intro pos t _ _ _; exact .keep t
  | cons r rs ih =>
      obtain ⟨s, e⟩ := r
      rintro pos t hhi ⟨h1, h2, h3, h4⟩ hne
      have hse : s < e := hne (s, e) List.mem_cons_self
      have hdrop : t.drop (e - pos) = (t.drop (s - pos)).drop (e - s) := by
        rw [List.drop_drop]
        congr 1
        omega
      have hsplit : t =
          t.take (s - pos) ++ (t.drop (s - pos)).take (e - s) ++ t.drop (e - pos) := by
        rw [List.append_assoc, hdrop, List.take_append_drop, List.take_append_drop]
      have hcut : (t.drop (s - pos)).take (e - s) ≠ [] := by
        apply List.ne_nil_of_length_pos
        rw [List.length_take, List.length_drop]
        omega
      have hrest : CutBy M (t.drop (e - pos)) (maskFrom M e rs (t.drop (e - pos))) := by
        refine ih ?_ h4 fun r hr => hne r (List.mem_cons_of_mem _ hr)
        rw [List.length_drop]
        omega
      show CutBy M t (t.take (s - pos) ++ M ++ maskFrom M e rs (t.drop (e - pos)))
      conv => lhs; rw [hsplit]
      exact .cover hcut hrest

/-- What has none of the symbols of a piece in front lies behind the piece. -/
theorem infix_of_forall_not_mem {v u : List β} (w : List β) (hw : ∀ x ∈ w, x ∉ v)
    (h : v <:+: w ++ u) : v <:+: u := by
  induction w with
  | nil => exact h
  | cons c w ih =>
      have hc : c ∉ v := hw c List.mem_cons_self
      have hsides : v <:+: [] ∨ v <:+: w ++ u := infix_of_not_mem hc h
      rcases hsides with hnil | hrest
      · rw [List.eq_nil_of_infix_nil hnil]
        exact List.nil_infix
      · exact ih (fun x hx => hw x (List.mem_cons_of_mem _ hx)) hrest

/-- What was together and is left is still together. -/
theorem CutBy.infix_of_forall_mem (h : CutBy M t o) {v : List β} (hnodup : t.Nodup)
    (hv : v <:+: t) (hleft : ∀ x ∈ v, x ∈ o) (hM : ∀ x ∈ v, x ∉ M) : v <:+: o := by
  induction h with
  | keep t => exact hv
  | @cover a w u o hw hcut ih =>
      -- no symbol of the piece is left
      obtain ⟨hau, hu, hdisj⟩ := List.nodup_append.mp hnodup
      obtain ⟨-, -, haw⟩ := List.nodup_append.mp hau
      have hgone : ∀ x ∈ v, x ∉ w := by
        intro x hxv hxw
        rcases List.mem_append.mp (hleft x hxv) with hx | hx
        · rcases List.mem_append.mp hx with hx | hx
          · exact haw x hx x hxw rfl
          · exact hM x hxv hx
        · rcases hcut.mem hx with hx | hx
          · exact hdisj x (List.mem_append_right _ hxw) x hx rfl
          · exact hM x hxv hx
      obtain ⟨d, ws, rfl⟩ := List.exists_cons_of_ne_nil hw
      have hd : d ∉ v := fun hmem => hgone d hmem List.mem_cons_self
      have hsides : v <:+: a ∨ v <:+: ws ++ u := by
        refine infix_of_not_mem hd ?_
        rw [List.append_assoc] at hv
        exact hv
      rcases hsides with hleftside | hrightside
      · exact hleftside.trans ⟨[], M ++ o, by simp⟩
      · have hlater : v <:+: u := infix_of_forall_not_mem ws
          (fun x hx hxv => hgone x hxv (List.mem_cons_of_mem _ hx)) hrightside
        have hleft' : ∀ x ∈ v, x ∈ o := by
          intro x hxv
          rcases List.mem_append.mp (hleft x hxv) with hx | hx
          · rcases List.mem_append.mp hx with hx | hx
            · exact absurd rfl (hdisj x (List.mem_append_left _ hx) x (hlater.subset hxv))
            · exact absurd hx (hM x hxv)
          · exact hx
        exact (ih hu hlater hleft').trans (List.suffix_append _ _).isInfix

end Cuts

/-! ## Occurrences -/

theorem getElem?_trace (t : List α) (k : Nat) : (trace t)[k]? = t[k]?.map fun c => (c, some k) := by
  unfold trace
  rw [List.getElem?_map, List.getElem?_zipIdx, Nat.zero_add]
  cases t[k]? <;> rfl

theorem nodup_trace (t : List α) : (trace t).Nodup := by
  have hsnd : ((trace t).map Prod.snd).Nodup := by
    have hmap : (trace t).map Prod.snd = (List.range t.length).map some := by
      unfold trace
      rw [List.map_map, List.range_eq_range', ← List.zipIdx_map_snd 0 t, List.map_map]
      rfl
    rw [hmap]
    exact List.nodup_range.map (Option.some_injective _)
  exact hsnd.of_map

/-- A match covers where it begins. -/
theorem Matcher.covered_of_run (m : Matcher α) : ∀ (n : Nat) {t : List α} {i k len : Nat},
    t.length ≤ n → m.run (t.drop k) = some len →
      ∃ r ∈ scanFrom m.run i 0 t, r.1 ≤ i + k ∧ i + k < r.2 := by
  intro n
  induction n with
  | zero =>
      intro t i k len hn h
      obtain rfl : t = [] := List.eq_nil_of_length_eq_zero (by omega)
      rw [List.drop_nil, m.run_nil] at h
      cases h
  | succ n ih =>
      intro t i k len hn h
      cases t with
      | nil =>
          rw [List.drop_nil, m.run_nil] at h
          cases h
      | cons c t =>
          rw [List.length_cons] at hn
          cases hrun : m.run (c :: t) with
          | none =>
              cases k with
              | zero =>
                  rw [List.drop_zero, hrun] at h
                  cases h
              | succ k =>
                  rw [m.scanFrom_none hrun]
                  obtain ⟨r, hr, hlo, hup⟩ := ih (i := i + 1) (k := k) (by omega) h
                  exact ⟨r, hr, by omega, by omega⟩
          | some l =>
              have hpos := m.pos hrun
              rw [m.scanFrom_match hrun]
              by_cases hk : k < l
              · exact ⟨(i, i + l), List.mem_cons_self, Nat.le_add_right _ _, by simpa using hk⟩
              · have hdrop : m.run (((c :: t).drop l).drop (k - l)) = some len := by
                  rw [List.drop_drop, show l + (k - l) = k by omega]
                  exact h
                have hlen : ((c :: t).drop l).length ≤ n := by
                  rw [List.length_drop, List.length_cons]
                  omega
                obtain ⟨r, hr, hlo, hup⟩ := ih (i := i + l) hlen hdrop
                exact ⟨r, List.mem_cons_of_mem _ hr, by omega, by omega⟩

/-- A part of a text is its symbols from some position on. -/
theorem exists_drop_of_infix {β : Type*} {v t : List β} (h : v <:+: t) : ∃ q, v <+: t.drop q := by
  obtain ⟨a, b, rfl⟩ := h
  refine ⟨a.length, b, ?_⟩
  rw [List.append_assoc, List.drop_left]

theorem getElem?_of_prefix_drop {β : Type*} {v t : List β} {q j : Nat} (h : v <+: t.drop q)
    (hj : j < v.length) : t[q + j]? = v[j]? := by
  obtain ⟨b, hb⟩ := h
  rw [← List.getElem?_drop, ← hb, List.getElem?_append_left hj]

/-- The symbols from `k` on are those of the text from `q` on, as many as the word has. -/
def Shows (s : List α) (T : List (Traced α)) (k q : Nat) : Prop :=
  ∀ j < s.length, ∃ c, T[k + j]? = some (c, some (q + j))

section Occurrences

variable {s t : List α} {T v : List (Traced α)} {k q : Nat}

/-- The symbol of a text at a place that an occurrence of the word covers. -/
theorem mem_of_occursAt {i : Nat} {c : α} (h : OccursAt s t k) (hlo : k ≤ i)
    (hup : i < k + s.length) (hc : t[i]? = some c) : c ∈ s := by
  have hget : t[k + (i - k)]? = s[i - k]? := getElem?_of_prefix_drop h (by omega)
  rw [show k + (i - k) = i by omega, hc] at hget
  exact List.mem_of_getElem? hget.symm

theorem occursAt_symbols (h : v <+: T.drop k) (hv : symbols v = s) : OccursAt s (symbols T) k := by
  have hmap := h.map Prod.fst
  rwa [List.map_drop, show v.map Prod.fst = s from hv] at hmap

/-- The part of a traced text that shows a word. -/
theorem symbols_take_drop (h : OccursAt s (symbols T) k) :
    symbols ((T.drop k).take s.length) = s := by
  show ((T.drop k).take s.length).map Prod.fst = s
  rw [List.map_take, List.map_drop]
  exact (List.prefix_iff_eq_take.mp h).symm

/-- A part of the original text that is in a traced one. -/
theorem shows_of_prefix (hT : v <+: T.drop k) (ht : v <+: (trace t).drop q)
    (hv : symbols v = s) : Shows s T k q := by
  intro j hj
  have hjv : j < v.length := by rwa [← hv, symbols, List.length_map] at hj
  have htrace : (trace t)[q + j]? = v[j]? := getElem?_of_prefix_drop ht hjv
  rw [getElem?_trace, List.getElem?_eq_getElem hjv] at htrace
  obtain ⟨c, -, hc⟩ := Option.map_eq_some_iff.mp htrace
  refine ⟨c, ?_⟩
  rw [getElem?_of_prefix_drop hT hjv, List.getElem?_eq_getElem hjv, ← hc]

/-- What is left of the original text is what was there. -/
theorem mem_of_mem_origins {m : List α} (hcut : CutBy (untraced m) (trace t) T) {c : α} {p : Nat}
    (hc : t[p]? = some c) (hp : p ∈ origins T) : (c, some p) ∈ T := by
  obtain ⟨i, d, hi⟩ := mem_origins.mp hp
  have hmem : (d, some p) ∈ T := List.mem_of_getElem? hi
  rcases hcut.mem hmem with hd | hd
  · have heq : some d = some c := (getElem?_of_mem_trace hd).symm.trans hc
    rwa [Option.some.inj heq] at hmem
  · obtain ⟨e, -, he⟩ := List.mem_map.mp hd
    cases he

/-- The symbols of the original text at an occurrence. -/
theorem exists_of_mem_trace {x : Traced α} (hv : v <+: (trace t).drop q) (hx : x ∈ v) :
    ∃ j < v.length, t[q + j]? = some x.1 ∧ x.2 = some (q + j) := by
  obtain ⟨j, hj⟩ := List.mem_iff_getElem?.mp hx
  have hjv : j < v.length := (List.getElem?_eq_some_iff.mp hj).1
  have htrace : (trace t)[q + j]? = v[j]? := getElem?_of_prefix_drop hv hjv
  rw [hj, getElem?_trace] at htrace
  obtain ⟨c, hc, rfl⟩ := Option.map_eq_some_iff.mp htrace
  exact ⟨j, hjv, hc, rfl⟩

/-- **A word of the original text that is left is seen.** -/
theorem exists_occursAt {m : List α} (hcut : CutBy (untraced m) (trace t) T)
    (h : OccursAt s t q) (hleft : ∀ j < s.length, q + j ∈ origins T) :
    ∃ k, OccursAt s (symbols T) k ∧ Shows s T k q := by
  let v := ((trace t).drop q).take s.length
  have hfront : v <+: (trace t).drop q := List.take_prefix _ _
  have hv : symbols v = s := symbols_take_drop (by rwa [symbols_trace])
  have hlen : v.length = s.length := by rw [← hv, symbols, List.length_map]
  have hinfix : v <:+: T := by
    refine hcut.infix_of_forall_mem (nodup_trace t)
      (hfront.isInfix.trans (List.drop_suffix _ _).isInfix) ?_ ?_
    · rintro ⟨c, o⟩ hx
      obtain ⟨j, hj, hc, ho⟩ := exists_of_mem_trace hfront hx
      have ho' : o = some (q + j) := ho
      rw [ho']
      exact mem_of_mem_origins hcut hc (hleft j (hlen ▸ hj))
    · intro x hx hmarker
      obtain ⟨j, -, -, ho⟩ := exists_of_mem_trace hfront hx
      obtain ⟨e, -, rfl⟩ := List.mem_map.mp hmarker
      cases ho
  obtain ⟨k, hk⟩ := exists_drop_of_infix hinfix
  exact ⟨k, occursAt_symbols hk hv, shows_of_prefix hk hfront hv⟩

/-! ## A marker around which words cannot be -/

variable {l r : α} {body : List α}

/-- **A word that is seen is one of the original text.** -/
theorem exists_shows (hcut : CutBy (untraced (l :: (body ++ [r]))) (trace t) T)
    (hfree : Free l r s) (hbody : ¬ s <:+: body) (h : OccursAt s (symbols T) k) :
    ∃ q, OccursAt s t q ∧ Shows s T k q := by
  let v := (T.drop k).take s.length
  have hfront : v <+: T.drop k := List.take_prefix _ _
  have hv : symbols v = s := symbols_take_drop h
  have hmem : ∀ c, (c, none) ∈ v → c ∈ s := by
    intro c hc
    rw [← hv]
    exact List.mem_map_of_mem hc
  have hfree' : Free (l, none) (r, none) v :=
    ⟨fun hl => hfree.1 (hmem l hl), fun hr => hfree.2 (hmem r hr)⟩
  have hmarker : untraced (l :: (body ++ [r])) = (l, none) :: (untraced body ++ [(r, none)]) := by
    unfold untraced
    rw [List.map_cons, List.map_append]
    rfl
  rw [hmarker] at hcut
  have hinfix : v <:+: T := hfront.isInfix.trans (List.drop_suffix _ _).isInfix
  rcases hcut.masked.infix_cases hfree' hinfix with ⟨a, -, hat, hva⟩ | hhidden
  · obtain ⟨q, hq⟩ := exists_drop_of_infix (hva.trans hat)
    have hoccurs := occursAt_symbols hq hv
    rw [symbols_trace] at hoccurs
    exact ⟨q, hoccurs, shows_of_prefix hfront hq hv⟩
  · -- it would be hidden in the marker
    have hmap := hhidden.map Prod.fst
    rw [show v.map Prod.fst = s from hv,
      show (untraced body).map Prod.fst = body from symbols_untraced body] at hmap
    exact absurd hmap hbody

end Occurrences

/-! ## One pass -/

section Words

variable [DecidableEq α]

/-- The search for a word. -/
def wordFinder (s : List α) : Finder α := ⟨(literal s).scan, (literal s).ordered_scan⟩

/-- Some occurrence of the word has this position. -/
def InWord (s t : List α) (p : Nat) : Prop := ∃ q, OccursAt s t q ∧ q ≤ p ∧ p < q + s.length

/-- Occurrences of the word lie apart. -/
def Apart (s t : List α) : Prop :=
  ∀ q q', OccursAt s t q → OccursAt s t q' → q = q' ∨ q + s.length ≤ q' ∨ q' + s.length ≤ q

variable {l r : α} {body s t : List α} {T : List (Traced α)}

theorem exists_range_of_occursAt {q : Nat} (hs : s ≠ []) (h : OccursAt s t q) :
    ∃ k, (k, k + s.length) ∈ (wordFinder s).find t ∧ OccursAt s t k ∧ k ≤ q ∧
      q < k + s.length := by
  have hfront : s <+: t.drop q := h
  have hrun : (literal s).run (t.drop q) = some s.length := by
    rw [literal_run hs, if_pos hfront]
  obtain ⟨⟨k, e⟩, hr, hlo, hup⟩ := (literal s).covered_of_run t.length (le_refl _) hrun
  obtain ⟨he, hk⟩ := eq_of_mem_scan hr
  have he' : e = k + s.length := he
  subst he'
  rw [Nat.zero_add] at hlo hup
  exact ⟨k, hr, hk, hlo, hup⟩

/-- The positions that are reported are those of the occurrences. -/
theorem covered_iff_inWord (hs : s ≠ []) (hapart : Apart s t) {p : Nat} :
    Covered ((wordFinder s).find t) p ↔ InWord s t p := by
  constructor
  · rintro ⟨r, hr, hlo, hup⟩
    obtain ⟨he, hocc⟩ := eq_of_mem_scan hr
    exact ⟨r.1, hocc, hlo, he ▸ hup⟩
  · rintro ⟨q, hq, hlo, hup⟩
    obtain ⟨k, hr, hk, hkq, hqk⟩ := exists_range_of_occursAt hs hq
    have hpos := List.length_pos_of_ne_nil hs
    have heq : k = q := by
      rcases hapart k q hk hq with heq | hbefore | hafter <;> omega
    subst heq
    exact ⟨_, hr, hlo, hup⟩

/-- A pass finds the occurrences that are left. -/
theorem found_iff (hcut : CutBy (untraced (l :: (body ++ [r]))) (trace t) T) (hs : s ≠ [])
    (hfree : Free l r s) (hbody : ¬ s <:+: body) (hapart : Apart s t) {p : Nat} :
    (wordFinder s).Found T p ↔
      ∃ q, OccursAt s t q ∧ (q ≤ p ∧ p < q + s.length) ∧ ∀ j < s.length, q + j ∈ origins T := by
  constructor
  · rintro ⟨i, c, hi, rng, hrng, hlo, hup⟩
    obtain ⟨he, hocc⟩ := eq_of_mem_scan hrng
    obtain ⟨q, hq, hshows⟩ := exists_shows hcut hfree hbody hocc
    have hleft : ∀ j < s.length, q + j ∈ origins T := by
      intro j hj
      obtain ⟨d, hd⟩ := hshows j hj
      exact mem_origins.mpr ⟨_, d, hd⟩
    obtain ⟨d, hd⟩ := hshows (i - rng.1) (by omega)
    have hidx : rng.1 + (i - rng.1) = i := by omega
    rw [hidx, hi] at hd
    have hp : p = q + (i - rng.1) := Option.some.inj (Prod.mk.inj (Option.some.inj hd)).2
    exact ⟨q, hq, by omega, hleft⟩
  · rintro ⟨q, hq, ⟨hlo, hup⟩, hleft⟩
    obtain ⟨k, hk, hshows⟩ := exists_occursAt hcut hq hleft
    -- the range that the search has there is another occurrence, or this one
    obtain ⟨k', hr, hk', hle, hlt⟩ := exists_range_of_occursAt hs hk
    obtain ⟨q', hq', hshows'⟩ := exists_shows hcut hfree hbody hk'
    have hpos := List.length_pos_of_ne_nil hs
    obtain ⟨c, hc⟩ := hshows 0 hpos
    obtain ⟨d, hd⟩ := hshows' (k - k') (by omega)
    have hidx : k' + (k - k') = k + 0 := by omega
    rw [hidx, hc] at hd
    have hsame : q + 0 = q' + (k - k') :=
      Option.some.inj (Prod.mk.inj (Option.some.inj hd)).2
    have heq : k = k' := by
      rcases hapart q q' hq hq' with heq | hbefore | hafter <;> omega
    subst heq
    obtain ⟨d, hd⟩ := hshows (p - q) (by omega)
    have hp : q + (p - q) = p := by omega
    rw [hp] at hd
    exact ⟨k + (p - q), d, hd, (k, k + s.length), hr, Nat.le_add_right _ _, by
      show k + (p - q) < k + s.length
      omega⟩

theorem scan_marker (hs : s ≠ []) (hfree : Free l r s) (hbody : ¬ s <:+: body) :
    (literal s).scan (l :: (body ++ [r])) = [] := by
  refine scan_literal_eq_nil fun h => ?_
  have houter : s <:+: [] ∨ s <:+: body ++ r :: [] := infix_of_not_mem hfree.1 h
  rcases houter with hnil | hinner
  · exact hs (List.eq_nil_of_infix_nil hnil)
  · rcases infix_of_not_mem hfree.2 hinner with hin | hnil
    · exact hbody hin
    · exact hs (List.eq_nil_of_infix_nil hnil)

/-- Around a marker the word is looked for apart. -/
theorem scan_append_marker (hs : s ≠ []) (hfree : Free l r s) (hbody : ¬ s <:+: body)
    (x z : List α) :
    (literal s).scan (x ++ (l :: (body ++ [r]) ++ z)) =
      (literal s).scan x ++ shift x.length (shift (l :: (body ++ [r])).length
        ((literal s).scan z)) := by
  have hleft : ∀ rng ∈ (literal s).scan (x ++ (l :: (body ++ [r]) ++ z)),
      ¬ Inside x.length rng := by
    rintro rng hrng ⟨hlo, hup⟩
    obtain ⟨he, hocc⟩ := eq_of_mem_scan hrng
    have hl : (x ++ (l :: (body ++ [r]) ++ z))[x.length]? = some l := by simp
    exact hfree.1 (mem_of_occursAt hocc (Nat.le_of_lt hlo) (by omega) hl)
  have hright : ∀ rng ∈ (literal s).scan (l :: (body ++ [r]) ++ z),
      ¬ Inside (l :: (body ++ [r])).length rng := by
    rintro rng hrng ⟨hlo, hup⟩
    obtain ⟨he, hocc⟩ := eq_of_mem_scan hrng
    have hlen : (l :: (body ++ [r])).length = body.length + 1 + 1 := by simp
    have hr : (l :: (body ++ [r]) ++ z)[body.length + 1]? = some r := by simp
    exact hfree.2 (mem_of_occursAt hocc (by omega) (by omega) hr)
  rw [(literal_local s).scan_append hleft, (literal_local s).scan_append hright,
    scan_marker hs hfree hbody, List.nil_append]

theorem pass_append_marker (hs : s ≠ []) (hfree : Free l r s) (hbody : ¬ s <:+: body)
    (a o : List (Traced α)) :
    (wordFinder s).pass (l :: (body ++ [r])) (a ++ untraced (l :: (body ++ [r])) ++ o) =
      (wordFinder s).pass (l :: (body ++ [r])) a ++ untraced (l :: (body ++ [r])) ++
        (wordFinder s).pass (l :: (body ++ [r])) o := by
  let m := l :: (body ++ [r])
  have hsymbols : symbols (a ++ untraced m ++ o) = symbols a ++ (m ++ symbols o) := by
    rw [List.append_assoc, symbols_append, symbols_append, symbols_untraced]
  have hscan : (wordFinder s).find (symbols (a ++ untraced m ++ o)) =
      (literal s).scan (symbols a) ++ shift a.length ([] ++ shift (untraced m).length
        ((literal s).scan (symbols o))) := by
    rw [hsymbols]
    show (literal s).scan (symbols a ++ (m ++ symbols o)) = _
    rw [scan_append_marker hs hfree hbody, symbols, List.length_map, untraced, List.length_map,
      List.nil_append]
  have hord : Ordered a.length 0 ((literal s).scan (symbols a)) :=
    ordered_symbols (wordFinder s) a
  have hnil : Ordered (untraced m).length 0 [] := trivial
  calc (wordFinder s).pass m (a ++ untraced m ++ o)
      = mask (untraced m) ((wordFinder s).find (symbols (a ++ untraced m ++ o)))
          (a ++ (untraced m ++ o)) := by
        rw [Finder.pass, List.append_assoc a]
    _ = mask (untraced m) ((literal s).scan (symbols a)) a ++
          mask (untraced m) ([] ++ shift (untraced m).length ((literal s).scan (symbols o)))
            (untraced m ++ o) := by
        rw [hscan, mask_append (untraced m) hord]
    _ = mask (untraced m) ((literal s).scan (symbols a)) a ++ (untraced m ++
          mask (untraced m) ((literal s).scan (symbols o)) o) := by
        rw [mask_append (untraced m) hnil, mask_nil]
    _ = (wordFinder s).pass m a ++ untraced m ++ (wordFinder s).pass m o :=
        (List.append_assoc _ _ _).symm

/-- **Another word cuts out more pieces.** -/
theorem CutBy.pass {B : List (Traced α)} (hs : s ≠ []) (hfree : Free l r s)
    (hbody : ¬ s <:+: body) (hcut : CutBy (untraced (l :: (body ++ [r]))) B T) :
    CutBy (untraced (l :: (body ++ [r]))) B ((wordFinder s).pass (l :: (body ++ [r])) T) := by
  have hpass : ∀ T : List (Traced α), CutBy (untraced (l :: (body ++ [r]))) T
      ((wordFinder s).pass (l :: (body ++ [r])) T) := by
    intro T
    have hpos := List.length_pos_of_ne_nil hs
    refine cutBy_maskFrom (Nat.zero_add _).symm (ordered_symbols (wordFinder s) T) ?_
    intro rng hrng
    have he := (eq_of_mem_scan hrng).1
    omega
  induction hcut with
  | keep T => exact hpass T
  | cover hw _ ih =>
      rw [pass_append_marker hs hfree hbody]
      exact (hpass _).append_cover hw ih

end Words

/-! ## The longer words first -/

section Laminar

/-- The ranges lie apart, or one within the other. -/
def Nested (a b : Range) : Prop :=
  a.2 ≤ b.1 ∨ b.2 ≤ a.1 ∨ (a.1 ≤ b.1 ∧ b.2 ≤ a.2) ∨ (b.1 ≤ a.1 ∧ a.2 ≤ b.2)

instance (a b : Range) : Decidable (Nested a b) := inferInstanceAs (Decidable (_ ∨ _))

/-- Any two occurrences of the words lie apart, or one within the other. -/
def Laminar (words : List (List α)) (t : List α) : Prop :=
  ∀ s ∈ words, ∀ s' ∈ words, ∀ q q', OccursAt s t q → OccursAt s' t q' →
    Nested (q, q + s.length) (q', q' + s'.length)

theorem Laminar.apart {words : List (List α)} {s t : List α} (h : Laminar words t)
    (hs : s ∈ words) : Apart s t := by
  intro q q' hq hq'
  rcases h s hs s hs q q' hq hq' with hbefore | hafter | hin | hout <;> omega

/-- It is enough to look at the positions of the text. -/
theorem laminar_of_lt {words : List (List α)} {t : List α} (hwords : ∀ s ∈ words, s ≠ [])
    (h : ∀ s ∈ words, ∀ s' ∈ words, ∀ q < t.length, ∀ q' < t.length, OccursAt s t q →
      OccursAt s' t q' → Nested (q, q + s.length) (q', q' + s'.length)) :
    Laminar words t := by
  have hlt : ∀ s ∈ words, ∀ q, OccursAt s t q → q < t.length := by
    intro s hs q hq
    have hpos := List.length_pos_of_ne_nil (hwords s hs)
    have hle := List.IsPrefix.length_le hq
    rw [List.length_drop] at hle
    omega
  exact fun s hs s' hs' q q' hq hq' => h s hs s' hs' q (hlt s hs q hq) q' (hlt s' hs' q' hq') hq hq'

variable {l r : α} {body t : List α} {words : List (List α)}

/-- The positions that are left are outside the words that are done. -/
def LeftBy (done : List (List α)) (t : List α) (T : List (Traced α)) : Prop :=
  ∀ p, p ∈ origins T ↔ p < t.length ∧ ∀ s ∈ done, ¬ InWord s t p

/-- An occurrence with a position that is left is left as a whole. -/
theorem left_of_laminar {done : List (List α)} {s : List α} {T : List (Traced α)}
    (hlam : Laminar words t) (hs : s ∈ words) (hdone : ∀ s' ∈ done, s' ∈ words)
    (hlonger : ∀ s' ∈ done, s.length ≤ s'.length) (hleft : LeftBy done t T) {p q j : Nat}
    (hq : OccursAt s t q) (hlo : q ≤ p) (hup : p < q + s.length) (hp : p ∈ origins T)
    (hj : j < s.length) : q + j ∈ origins T := by
  have hlen : s.length ≤ (t.drop q).length := hq.length_le
  rw [List.length_drop] at hlen
  refine (hleft (q + j)).mpr ⟨by omega, ?_⟩
  rintro s' hs' ⟨q', hq', hlo', hup'⟩
  refine ((hleft p).mp hp).2 s' hs' ⟨q', hq', ?_⟩
  have hle := hlonger s' hs'
  rcases hlam s hs s' (hdone s' hs') q q' hq hq' with hbefore | hafter | hin | hout <;> omega

variable [DecidableEq α]

/-- A pass finds the positions of its word that are left. -/
theorem found_iff_inWord {done : List (List α)} {s : List α} {T : List (Traced α)}
    (hcut : CutBy (untraced (l :: (body ++ [r]))) (trace t) T) (hne : s ≠ [])
    (hfree : Free l r s) (hbody : ¬ s <:+: body) (hlam : Laminar words t) (hs : s ∈ words)
    (hdone : ∀ s' ∈ done, s' ∈ words) (hlonger : ∀ s' ∈ done, s.length ≤ s'.length)
    (hleft : LeftBy done t T) {p : Nat} :
    (wordFinder s).Found T p ↔ p ∈ origins T ∧ InWord s t p := by
  rw [found_iff hcut hne hfree hbody (hlam.apart hs)]
  constructor
  · rintro ⟨q, hq, ⟨hlo, hup⟩, hall⟩
    have hp : q + (p - q) ∈ origins T := hall (p - q) (by omega)
    rw [show q + (p - q) = p by omega] at hp
    exact ⟨hp, q, hq, hlo, hup⟩
  · rintro ⟨hp, q, hq, hlo, hup⟩
    exact ⟨q, hq, ⟨hlo, hup⟩, fun j hj =>
      left_of_laminar hlam hs hdone hlonger hleft hq hlo hup hp hj⟩

theorem LeftBy.pass {m s : List α} {done : List (List α)} {T : List (Traced α)}
    (hleft : LeftBy done t T) (hnodup : (origins T).Nodup)
    (hfound : ∀ p, (wordFinder s).Found T p ↔ p ∈ origins T ∧ InWord s t p) :
    LeftBy (done ++ [s]) t ((wordFinder s).pass m T) := by
  intro p
  rw [mem_origins_pass hnodup, hfound, hleft p]
  constructor
  · rintro ⟨⟨hlt, hout⟩, hnot⟩
    refine ⟨hlt, fun s' hs' => ?_⟩
    rcases List.mem_append.mp hs' with hs' | hs'
    · exact hout s' hs'
    · rw [List.mem_singleton.mp hs']
      exact fun hin => hnot ⟨⟨hlt, hout⟩, hin⟩
  · rintro ⟨hlt, hout⟩
    refine ⟨⟨hlt, fun s' hs' => hout s' (List.mem_append_left _ hs')⟩, fun hin => ?_⟩
    exact hout s (List.mem_append_right _ List.mem_cons_self) hin.2

theorem faithful_suffix (hwords : ∀ s ∈ words, s ≠ [] ∧ Free l r s ∧ ¬ s <:+: body)
    (hsorted : words.Pairwise fun a b => b.length ≤ a.length) (hlam : Laminar words t)
    (rest : List (List α)) : ∀ {done : List (List α)} {T : List (Traced α)},
      words = done ++ rest → CutBy (untraced (l :: (body ++ [r]))) (trace t) T →
      (origins T).Nodup → LeftBy done t T →
      Faithful (l :: (body ++ [r])) t (Reported (words.map wordFinder) t) (rest.map wordFinder)
        T := by
  induction rest with
  | nil => intro done T _ _ _ _; trivial
  | cons s rest ih =>
      intro done T hsplit hcut hnodup hleft
      have hs : s ∈ words := by
        rw [hsplit]
        exact List.mem_append_right _ List.mem_cons_self
      have hdone : ∀ s' ∈ done, s' ∈ words := by
        intro s' hs'
        rw [hsplit]
        exact List.mem_append_left _ hs'
      have hlonger : ∀ s' ∈ done, s.length ≤ s'.length := by
        intro s' hs'
        rw [hsplit] at hsorted
        exact (List.pairwise_append.mp hsorted).2.2 s' hs' s List.mem_cons_self
      obtain ⟨hne, hfree, hbody⟩ := hwords s hs
      have hapart := hlam.apart hs
      have hfound : ∀ p, (wordFinder s).Found T p ↔ p ∈ origins T ∧ InWord s t p := fun p =>
        found_iff_inWord hcut hne hfree hbody hlam hs hdone hlonger hleft
      refine ⟨?_, ?_, ?_⟩
      · intro p hp
        have hcovered := (covered_iff_inWord hne hapart).mpr ((hfound p).mp hp).2
        exact ⟨wordFinder s, List.mem_map_of_mem hs, hcovered⟩
      · intro p hp hcovered
        exact .inl ((hfound p).mpr ⟨hp, (covered_iff_inWord hne hapart).mp hcovered⟩)
      · have hsplit' : words = (done ++ [s]) ++ rest := by
          rw [hsplit, List.append_assoc]
          rfl
        exact ih hsplit' (hcut.pass hne hfree hbody) (nodup_origins_pass hnodup)
          (hleft.pass hnodup hfound)

/-- **Words whose occurrences are nested or apart are masked as reported**, the longer ones
first. -/
theorem faithful_of_laminar (hwords : ∀ s ∈ words, s ≠ [] ∧ Free l r s ∧ ¬ s <:+: body)
    (hsorted : words.Pairwise fun a b => b.length ≤ a.length) (hlam : Laminar words t) :
    Faithful (l :: (body ++ [r])) t (Reported (words.map wordFinder) t) (words.map wordFinder)
      (trace t) := by
  have hnodup : (origins (trace t)).Nodup := by
    rw [origins_trace]
    exact List.nodup_range
  refine faithful_suffix hwords hsorted hlam words (List.nil_append _).symm (.keep _) hnodup ?_
  intro p
  rw [origins_trace, List.mem_range]
  exact (and_iff_left fun s hs => absurd hs List.not_mem_nil).symm

end Laminar

end Masking
