import Mathlib.Data.List.Infix
import Mathlib.Tactic

set_option autoImplicit false

/-! # Masking ranges of a text

A text is a list over any alphabet. `mask m rs t` replaces each of the ranges `rs` of `t` by
the marker `m`; the ranges lie in order and do not overlap (`Ordered`).

The second half is about markers that begin and end with a *fence*: a symbol that the words
one looks for do not contain. What such a word can see of a masked text is the text itself:
a free prefix, suffix or infix of the result is one of the text (`Fenced`), except for words
hidden inside the marker. `Fenced` is closed under composition, so it holds of any number of
masking passes, one after the other.
-/

namespace Masking

variable {α : Type*}

/-! ## Ranges -/

/-- The positions `[start, end)`. -/
abbrev Range := Nat × Nat

/-- The ranges lie in order and without overlap between the positions `lo` and `hi`. -/
def Ordered (hi : Nat) : Nat → List Range → Prop
  | _, [] => True
  | lo, (s, e) :: rs => lo ≤ s ∧ s ≤ e ∧ e ≤ hi ∧ Ordered hi e rs

/-- The position `p` lies strictly inside the range. -/
def Inside (p : Nat) (r : Range) : Prop := r.1 < p ∧ p < r.2

instance (p : Nat) (r : Range) : Decidable (Inside p r) :=
  inferInstanceAs (Decidable (_ ∧ _))

/-- Move ranges `k` positions to the right. -/
def shift (k : Nat) (rs : List Range) : List Range := rs.map (fun r => (k + r.1, k + r.2))

theorem Ordered.mono_lo {hi lo lo' : Nat} (h : lo' ≤ lo) :
    ∀ {rs : List Range}, Ordered hi lo rs → Ordered hi lo' rs
  | [], _ => trivial
  | (_, _) :: _, ⟨h1, h2, h3, h4⟩ => ⟨h.trans h1, h2, h3, h4⟩

theorem Ordered.le_of_mem {hi : Nat} : ∀ {lo : Nat} {rs : List Range} {r : Range},
    Ordered hi lo rs → r ∈ rs → lo ≤ r.1 ∧ r.1 ≤ r.2 ∧ r.2 ≤ hi := by
  intro lo rs
  induction rs generalizing lo with
  | nil => intro r _ hr; cases hr
  | cons q rs ih =>
      rintro r ⟨h1, h2, h3, h4⟩ hr
      rcases List.mem_cons.mp hr with rfl | hr
      · exact ⟨h1, h2, h3⟩
      · obtain ⟨h5, h6, h7⟩ := ih h4 hr
        exact ⟨by omega, h6, h7⟩

/-! ## Masking -/

/-- Replace the ranges by `m`, where `t` is the text from position `pos` on. -/
def maskFrom (m : List α) : Nat → List Range → List α → List α
  | _, [], t => t
  | pos, (s, e) :: rs, t => t.take (s - pos) ++ m ++ maskFrom m e rs (t.drop (e - pos))

/-- Replace the ranges `rs` of `t` by the marker `m`. -/
def mask (m : List α) (rs : List Range) (t : List α) : List α := maskFrom m 0 rs t

@[simp] theorem mask_nil (m t : List α) : mask m [] t = t := rfl

/-- `o` is `t` with some disjoint parts replaced by `m`, each kept part satisfying `P`. -/
inductive Masked (m : List α) (P : List α → Prop) : List α → List α → Prop
  | keep {t : List α} : P t → Masked m P t t
  | cover {a w t o : List α} : P a → Masked m P t o → Masked m P (a ++ w ++ t) (a ++ m ++ o)

/-- One more kept symbol in front. -/
theorem Masked.cons {m : List α} {P : List α → Prop} {c : α} {t o : List α}
    (h : Masked m P t o) (hc : ∀ a z, a ++ z = t → P a → P (c :: a)) :
    Masked m P (c :: t) (c :: o) := by
  cases h with
  | keep ht => exact .keep (hc t [] (List.append_nil t) ht)
  | @cover a w u o ha hu =>
      exact Masked.cover (hc a (w ++ u) (List.append_assoc a w u).symm ha) hu

theorem maskFrom_masked (m : List α) {rs : List Range} : ∀ {pos : Nat} {t : List α},
    Ordered (pos + t.length) pos rs → Masked m (fun _ => True) t (maskFrom m pos rs t) := by
  induction rs with
  | nil => intro pos t _; exact .keep trivial
  | cons r rs ih =>
      obtain ⟨s, e⟩ := r
      rintro pos t ⟨h1, h2, h3, h4⟩
      have hsplit : t =
          t.take (s - pos) ++ (t.drop (s - pos)).take (e - s) ++ t.drop (e - pos) := by
        have hdrop : t.drop (e - pos) = (t.drop (s - pos)).drop (e - s) := by
          rw [List.drop_drop]; congr 1; omega
        rw [List.append_assoc, hdrop, List.take_append_drop, List.take_append_drop]
      have hrest : Ordered (e + (t.drop (e - pos)).length) e rs := by
        have : e + (t.drop (e - pos)).length = pos + t.length := by
          rw [List.length_drop]; omega
        rwa [this]
      conv => lhs; rw [hsplit]
      exact .cover trivial (ih hrest)

theorem mask_masked (m : List α) {rs : List Range} {t : List α} (h : Ordered t.length 0 rs) :
    Masked m (fun _ => True) t (mask m rs t) :=
  maskFrom_masked m (by rwa [Nat.zero_add])

theorem maskFrom_shift (m : List α) (k : Nat) : ∀ (rs : List Range) (pos : Nat) (t : List α),
    maskFrom m (k + pos) (shift k rs) t = maskFrom m pos rs t := by
  intro rs
  induction rs with
  | nil => intro pos t; rfl
  | cons r rs ih =>
      intro pos t
      have h1 : k + r.1 - (k + pos) = r.1 - pos := by omega
      have h2 : k + r.2 - (k + pos) = r.2 - pos := by omega
      show t.take (k + r.1 - (k + pos)) ++ m
          ++ maskFrom m (k + r.2) (shift k rs) (t.drop (k + r.2 - (k + pos))) = _
      rw [h1, h2, ih]
      rfl

/-- The symbol before the first range is kept. -/
theorem maskFrom_cons (m : List α) (c : α) (t : List α) {hi pos : Nat} :
    ∀ {rs : List Range}, Ordered hi (pos + 1) rs →
      maskFrom m pos rs (c :: t) = c :: maskFrom m (pos + 1) rs t
  | [], _ => rfl
  | (s, e) :: rs, ⟨h1, h2, _, _⟩ => by
      show (c :: t).take (s - pos) ++ m ++ maskFrom m e rs ((c :: t).drop (e - pos)) = _
      rw [show s - pos = (s - (pos + 1)) + 1 by omega, show e - pos = (e - (pos + 1)) + 1 by omega,
        List.take_succ_cons, List.drop_succ_cons]
      rfl

/-- Masking the two halves of a text apart, when no range crosses the seam. -/
theorem maskFrom_append (m : List α) (rs' : List Range) (y : List α) :
    ∀ (rs : List Range) (pos : Nat) (x : List α), Ordered (pos + x.length) pos rs →
      maskFrom m pos (rs ++ shift (pos + x.length) rs') (x ++ y)
        = maskFrom m pos rs x ++ mask m rs' y := by
  intro rs
  induction rs with
  | nil =>
      intro pos x _
      rw [List.nil_append, mask]
      cases rs' with
      | nil => rfl
      | cons r rs' =>
          show (x ++ y).take (pos + x.length + r.1 - pos) ++ m
              ++ maskFrom m (pos + x.length + r.2) (shift (pos + x.length) rs')
                  ((x ++ y).drop (pos + x.length + r.2 - pos))
            = x ++ (y.take (r.1 - 0) ++ m ++ maskFrom m r.2 rs' (y.drop (r.2 - 0)))
          have h1 : pos + x.length + r.1 - pos = x.length + r.1 := by omega
          have h2 : pos + x.length + r.2 - pos = x.length + r.2 := by omega
          rw [h1, h2, List.take_length_add_append, List.drop_length_add_append,
            maskFrom_shift, List.append_assoc, List.append_assoc, List.append_assoc]
          rfl
  | cons r rs ih =>
      obtain ⟨s, e⟩ := r
      rintro pos x ⟨h1, h2, h3, h4⟩
      have hlen : e + (x.drop (e - pos)).length = pos + x.length := by
        rw [List.length_drop]; omega
      have hrec := ih e (x.drop (e - pos)) (by rwa [hlen])
      rw [hlen] at hrec
      show (x ++ y).take (s - pos) ++ m ++ maskFrom m e (rs ++ shift (pos + x.length) rs')
          ((x ++ y).drop (e - pos)) = _
      rw [List.take_append_of_le_length (by omega), List.drop_append_of_le_length (by omega),
        hrec, ← List.append_assoc]
      rfl

theorem mask_append (m : List α) {rs rs' : List Range} {x y : List α}
    (h : Ordered x.length 0 rs) :
    mask m (rs ++ shift x.length rs') (x ++ y) = mask m rs x ++ mask m rs' y := by
  have := maskFrom_append m rs' y rs 0 x (by rwa [Nat.zero_add])
  rwa [Nat.zero_add] at this

/-! ## Fences -/

/-- A word without the fence symbols `l` and `r`. -/
def Free (l r : α) (w : List α) : Prop := l ∉ w ∧ r ∉ w

instance [DecidableEq α] (l r : α) (w : List α) : Decidable (Free l r w) :=
  inferInstanceAs (Decidable (_ ∧ _))

theorem Free.of_infix {l r : α} {u w : List α} (h : Free l r w) (hu : u <:+: w) : Free l r u :=
  ⟨fun hl => h.1 (hu.subset hl), fun hr => h.2 (hu.subset hr)⟩

/-- A prefix without the symbol `c` ends before the first `c`. -/
theorem prefix_of_not_mem {c : α} {v x y : List α} (hc : c ∉ v) (h : v <+: x ++ c :: y) :
    v <+: x := by
  rcases List.prefix_or_prefix_of_prefix h (List.prefix_append x (c :: y)) with h' | h'
  · exact h'
  · obtain ⟨z, rfl⟩ := h'
    cases z with
    | nil => simp
    | cons d z =>
        have hd : d :: z <+: c :: y := (List.prefix_append_right_inj x).mp h
        obtain rfl : d = c := (List.cons_prefix_cons.mp hd).1
        exact absurd (by simp) hc

/-- A suffix without the symbol `c` begins after the last `c`. -/
theorem suffix_of_not_mem {c : α} {u x y : List α} (hc : c ∉ u) (h : u <:+ x ++ c :: y) :
    u <:+ y := by
  have h' : u.reverse <+: y.reverse ++ c :: x.reverse := by
    have := List.reverse_prefix.mpr h
    simpa using this
  have hc' : c ∉ u.reverse := by simpa using hc
  exact List.reverse_prefix.mp (prefix_of_not_mem hc' h')

/-- An infix without the symbol `c` lies on one side of it. -/
theorem infix_of_not_mem {c : α} {w x y : List α} (hc : c ∉ w) (h : w <:+: x ++ c :: y) :
    w <:+: x ∨ w <:+: y := by
  obtain ⟨a, b, hab⟩ := h
  rw [List.append_assoc] at hab
  rcases List.append_eq_append_iff.mp hab with ⟨z, rfl, hz⟩ | ⟨z, rfl, hz⟩
  · have hw : w <+: z ++ c :: y := ⟨b, hz⟩
    exact Or.inl ((prefix_of_not_mem hc hw).isInfix.trans (List.suffix_append _ _).isInfix)
  · cases z with
    | nil =>
        cases w with
        | nil => exact Or.inl (List.nil_infix)
        | cons d w =>
            have : d = c := by simpa using congrArg List.head? hz.symm
            exact absurd (by simp [this]) hc
    | cons d z =>
        have hy : y = z ++ (w ++ b) := by simpa using congrArg List.tail hz
        exact Or.inr ⟨z, b, by rw [hy, List.append_assoc]⟩

section Fences

variable {l r : α} {body : List α}

/-- What words without fence symbols can see of `o` is the text `t`: free prefixes, suffixes
and infixes of `o` are ones of `t`, up to words hidden in the marker's `body`. -/
structure Fenced (l r : α) (body t o : List α) : Prop where
  pre : ∀ v, Free l r v → v <+: o → v <+: t
  suf : ∀ u, Free l r u → u <:+ o → u <:+ t
  inf : ∀ w, Free l r w → w <:+: o → w <:+: t ∨ w <:+: body
  whole : Free l r o → o = t

theorem Fenced.refl (t : List α) : Fenced l r body t t :=
  ⟨fun _ _ h => h, fun _ _ h => h, fun _ _ h => Or.inl h, fun _ => rfl⟩

theorem Fenced.trans {t o o' : List α} (h : Fenced l r body t o) (h' : Fenced l r body o o') :
    Fenced l r body t o' where
  pre v hv hp := h.pre v hv (h'.pre v hv hp)
  suf u hu hs := h.suf u hu (h'.suf u hu hs)
  inf w hw hi := by
    rcases h'.inf w hw hi with hi | hi
    · exact h.inf w hw hi
    · exact Or.inr hi
  whole hf := by
    have heq : o' = o := h'.whole hf
    subst heq
    exact h.whole hf

/-- A free word in a masked text lies in a kept part or inside the marker. -/
theorem Masked.infix_cases {P : List α → Prop} {t o w : List α}
    (h : Masked (l :: (body ++ [r])) P t o) (hw : Free l r w) (hi : w <:+: o) :
    (∃ a, P a ∧ a <:+: t ∧ w <:+: a) ∨ w <:+: body := by
  induction h with
  | @keep t ht => exact Or.inl ⟨t, ht, List.infix_rfl, hi⟩
  | @cover a v t o ha _ ih =>
      have hi' : w <:+: a ++ l :: (body ++ r :: o) := by simpa using hi
      rcases infix_of_not_mem hw.1 hi' with hi' | hi'
      · exact Or.inl ⟨a, ha, ⟨[], v ++ t, by simp⟩, hi'⟩
      · rcases infix_of_not_mem hw.2 hi' with hi' | hi'
        · exact Or.inr hi'
        · rcases ih hi' with ⟨b, hb, hbt, hwb⟩ | hb
          · exact Or.inl ⟨b, hb, hbt.trans (List.suffix_append _ _).isInfix, hwb⟩
          · exact Or.inr hb

theorem Masked.fenced {P : List α → Prop} {t o : List α}
    (h : Masked (l :: (body ++ [r])) P t o) : Fenced l r body t o where
  pre v hv hp := by
    cases h with
    | keep _ => exact hp
    | @cover a u t o _ _ =>
        have hp' : v <+: a ++ l :: (body ++ r :: o) := by simpa using hp
        exact (prefix_of_not_mem hv.1 hp').trans (by simp [List.append_assoc])
  suf u hu hs := by
    induction h with
    | keep _ => exact hs
    | @cover a v t o _ _ ih =>
        have hs' : u <:+ (a ++ l :: body) ++ r :: o := by simpa using hs
        exact (ih (suffix_of_not_mem hu.2 hs')).trans (List.suffix_append _ _)
  inf w hw hi := by
    rcases h.infix_cases hw hi with ⟨a, -, hat, hwa⟩ | hb
    · exact Or.inl (hwa.trans hat)
    · exact Or.inr hb
  whole hf := by
    cases h with
    | keep _ => rfl
    | cover _ _ => exact absurd (by simp) hf.1

/-- A free word that no kept part contains is gone after masking. -/
theorem Masked.not_infix_of_kept {t o s : List α}
    (h : Masked (l :: (body ++ [r])) (fun a => ¬ s <:+: a) t o) (hs : Free l r s)
    (hb : ¬ s <:+: body) : ¬ s <:+: o := by
  intro hi
  rcases h.infix_cases hs hi with ⟨a, ha, -, hsa⟩ | hsb
  · exact ha hsa
  · exact hb hsb

/-! ## Emitting a text piece by piece

`Clean s out rest` is the invariant of an output that never shows the word `s`, when `rest` is
what is still held back: `out` does not contain `s`, and no part of `s` that `out` ends with
goes on in `rest`, or could go on in what follows `rest`. -/

structure Clean (s out rest : List α) : Prop where
  free : ¬ s <:+: out
  seam : ∀ u v, s = u ++ v → u ≠ [] → v ≠ [] → u <:+ out → ¬ v <+: rest ∧ ¬ rest <+: v

theorem Clean.start {s : List α} (hs : s ≠ []) (rest : List α) : Clean s [] rest where
  free h := hs (List.eq_nil_of_infix_nil h)
  seam _ _ _ hu _ h := absurd (List.eq_nil_of_suffix_nil h) hu

/-- The output ends with a fence, so `s` cannot go on after it. -/
theorem Clean.of_fence {s out : List α} (hs : Free l r s) (h : ¬ s <:+: out ++ [r])
    (rest : List α) : Clean s (out ++ [r]) rest where
  free := h
  seam u v huv hu _ hsuf := by
    have hmem : r ∈ u := by
      obtain ⟨z, hz⟩ := hsuf
      have hlast : u.getLast? = some r := by
        have := congrArg List.getLast? hz
        rw [List.getLast?_append_of_ne_nil _ hu, List.getLast?_concat] at this
        exact this
      exact List.mem_of_getLast? hlast
    exact absurd (by rw [huv]; exact List.mem_append_left v hmem) hs.2

theorem suffix_append_cases {u x y : List α} (h : u <:+ x ++ y) :
    u <:+ y ∨ ∃ u₁, u₁ ≠ [] ∧ u = u₁ ++ y ∧ u₁ <:+ x := by
  rcases List.suffix_or_suffix_of_suffix h (List.suffix_append x y) with h' | ⟨u₁, rfl⟩
  · exact Or.inl h'
  · cases u₁ with
    | nil => exact Or.inl (by simp)
    | cons a u₁ => exact Or.inr ⟨a :: u₁, by simp, rfl, List.suffix_append_self_iff.mp h⟩

/-- A part of `s` in front of held-back text cannot be completed by a piece of that text. -/
theorem Clean.not_prefix_append {s out rest : List α} (h : Clean s out rest) (more : List α)
    {u v : List α} (huv : s = u ++ v) (hu : u ≠ []) (hv : v ≠ []) (hout : u <:+ out) :
    ¬ v <+: rest ++ more ∧ ¬ rest ++ more <+: v := by
  obtain ⟨h1, h2⟩ := h.seam u v huv hu hv hout
  constructor
  · intro hp
    rcases List.prefix_or_prefix_of_prefix hp (List.prefix_append rest more) with h' | h'
    · exact h1 h'
    · exact h2 h'
  · exact fun hp => h2 ((List.prefix_append rest more).trans hp)

/-- Of the held-back text `rest ++ more = ready ++ rest'` the piece `ready` is shown as `o`. -/
theorem Clean.not_infix_append {s out rest more ready rest' o : List α} (h : Clean s out rest)
    (hs : Free l r s) (ht : rest ++ more = ready ++ rest') (ho : Fenced l r body ready o)
    (hfree : ¬ s <:+: o) : ¬ s <:+: out ++ o := by
  intro hi
  rcases List.infix_append_iff_ne_nil.mp hi with hi | hi | ⟨u, v, hu, hv, huv, hsuf, hpre⟩
  · exact h.free hi
  · exact hfree hi
  · have hvf : Free l r v := hs.of_infix (by rw [huv]; exact (List.suffix_append u v).isInfix)
    have hvr : v <+: rest ++ more := by
      rw [ht]
      exact (ho.pre v hvf hpre).trans (List.prefix_append ready rest')
    exact (h.not_prefix_append more huv hu hv hsuf).1 hvr

/-- **Emitting a piece.** No occurrence of `s` crosses the end of the emitted piece `ready`, or
could do so once more text follows. -/
theorem Clean.emit {s out rest more ready rest' o : List α} (h : Clean s out rest)
    (hs : Free l r s) (ht : rest ++ more = ready ++ rest') (ho : Fenced l r body ready o)
    (hfree : ¬ s <:+: o)
    (hseam : ∀ u v, s = u ++ v → u ≠ [] → v ≠ [] → u <:+ ready → ¬ v <+: rest' ∧ ¬ rest' <+: v) :
    Clean s (out ++ o) rest' where
  free := h.not_infix_append hs ht ho hfree
  seam u v huv hu hv hsuf := by
    have huf : Free l r u := hs.of_infix (by rw [huv]; exact (List.prefix_append u v).isInfix)
    rcases suffix_append_cases hsuf with hsuf₁ | ⟨u₁, hu₁, rfl, hsuf₁⟩
    · exact hseam u v huv hu hv (ho.suf u huf hsuf₁)
    · -- the whole piece belongs to the part of `s`, so it was emitted as it is
      have hoeq : o = ready := ho.whole (huf.of_infix (List.suffix_append u₁ o).isInfix)
      subst hoeq
      have huv' : s = u₁ ++ (o ++ v) := by rw [huv, List.append_assoc]
      have hne : o ++ v ≠ [] := by simp [hv]
      have hnot := h.not_prefix_append more huv' hu₁ hne hsuf₁
      rw [ht, List.prefix_append_right_inj, List.prefix_append_right_inj] at hnot
      exact hnot

/-- A piece shown with a marker after it: nothing can go on after the marker. -/
theorem Clean.emit_marker {s out rest more ready rest' o : List α} (h : Clean s out rest)
    (hs : Free l r s) (hb : ¬ s <:+: body) (ht : rest ++ more = ready ++ rest')
    (ho : Fenced l r body ready o) (hfree : ¬ s <:+: o) (next : List α) :
    Clean s (out ++ (o ++ l :: (body ++ [r]))) next := by
  have heq : out ++ (o ++ l :: (body ++ [r])) = (out ++ o ++ l :: body) ++ [r] := by simp
  rw [heq]
  refine Clean.of_fence hs (fun hi => ?_) next
  rcases infix_of_not_mem hs.2 hi with hi | hi
  · rcases infix_of_not_mem hs.1 hi with hi | hi
    · exact h.not_infix_append hs ht ho hfree hi
    · exact hb hi
  · exact hfree (hi.trans (List.nil_infix))

end Fences

end Masking
