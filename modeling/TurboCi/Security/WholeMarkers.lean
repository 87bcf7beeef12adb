import TurboCi.Security.DefaultPatterns

set_option autoImplicit false

/-! # The default patterns and the marker

A later pass of `scrub` looks at a text with `[MASKED]` in it. None of the default patterns
begins or ends a match inside a marker (`defaultRegexes_solid`): all begin with a word that no
end of the marker begins; most of them read no bracket, `password` goes on as long as there is
no white space, and the URLs end with an `@`.
-/

namespace TurboCi

open Masking Utf8 TextRegex

/-! ## First words -/

theorem marker_cons : marker = 0x5B :: marker.tail := by decide

theorem begins_word (s : String) (h : ∀ k < marker.length, 0 < k →
    ¬ marker.drop k <+: (Str.ofChars s.toList).bytes ∧
      ¬ (Str.ofChars s.toList).bytes <+: marker.drop k) :
    (word s).regex.Begins (Regex.OutsideMarker marker) := by
  intro t n hread k v hk hk' ht
  simp only [wordAtom, literal, Option.ite_none_right_eq_some] at hread
  rw [ht] at hread
  obtain ⟨hlong, hshort⟩ := h k hk' hk
  rcases List.prefix_or_prefix_of_prefix hread.1.2 (List.prefix_append _ v) with hp | hp
  · exact hshort hp
  · exact hlong hp

/-! ## Brackets -/

theorem avoids_word (s : String) {c : UInt8} (h : c ∉ (Str.ofChars s.toList).bytes) :
    Regex.Avoids c (wordAtom (.ofChars s.toList)) := by
  intro t n hread
  simp only [wordAtom, literal, Option.ite_none_right_eq_some] at hread
  obtain ⟨⟨-, w, rfl⟩, hn⟩ := hread
  obtain rfl := Option.some.inj hn
  rwa [List.take_left]

theorem avoids_charAtom {p : Text → Bool} {c : UInt8}
    (h : ∀ b t, p ((b :: t).take (width b)) = true → c ∉ (b :: t).take (width b)) :
    Regex.Avoids c (charAtom p) := by
  intro t n hread
  cases t with
  | nil => simp
  | cons b t =>
      simp only [charAtom, Option.ite_none_right_eq_some, Bool.and_eq_true] at hread
      rw [← Option.some.inj hread.2]
      exact h b t hread.1.2

theorem avoids_ascii {p : UInt8 → Bool} {c : UInt8} (h : p c = false) :
    Regex.Avoids c (charAtom (ascii p)) := by
  apply avoids_charAtom
  intro b t hchar hmem
  unfold ascii at hchar
  split at hchar
  · next heq =>
      rw [heq] at hmem
      obtain rfl := List.mem_singleton.mp hmem
      rw [h] at hchar
      cases hchar
  · cases hchar

/-- A white space character holds no bracket: it is one ASCII byte, or has none. -/
theorem avoids_space : Regex.Avoids 0x5B (charAtom space) := by
  apply avoids_charAtom
  intro b t hchar
  have hlen : ((b :: t).take (width b)).length ≤ width b := List.length_take_le _ _
  have hhead : ((b :: t).take (width b)).head? = some b := by
    rw [List.head?_take, if_neg (width_pos b).ne']
    rfl
  generalize (b :: t).take (width b) = char at hchar hlen hhead
  have htail : ∀ {l : Text}, l.length ≤ 0 → l = [] :=
    fun h => List.eq_nil_of_length_eq_zero (Nat.le_zero.mp h)
  unfold space startsWithWhitespace at hchar
  split at hchar
  case h_8 => cases hchar
  all_goals
    obtain rfl := Option.some.inj hhead
  case h_4 b' _ =>
    rw [htail (Nat.le_of_succ_le_succ (Nat.le_of_succ_le_succ (Nat.le_of_succ_le_succ hlen)))]
    intro hmem
    have hb : b' = 0x5B := by simpa [eq_comm] using hmem
    rw [hb] at hchar
    exact absurd hchar (by decide)
  case h_7 b t _ _ _ _ _ _ =>
    have hb : b ≠ 0x5B := by
      rintro rfl
      exact absurd hchar (by decide)
    have hascii : b < 0x80 := by
      rcases (by simpa using hchar : (0x09 ≤ b ∧ b ≤ 0x0D) ∨ b = 0x20) with ⟨-, h⟩ | rfl
      · exact UInt8.lt_of_le_of_lt h (by decide)
      · decide
    have hone : width b = 1 := if_pos hascii
    rw [hone, List.length_cons] at hlen
    rw [htail (Nat.le_of_succ_le_succ hlen)]
    simpa using hb.symm
  case h_1 | h_2 =>
    rw [htail (Nat.le_of_succ_le_succ (Nat.le_of_succ_le_succ hlen))]
    decide
  all_goals
    rw [htail (Nat.le_of_succ_le_succ (Nat.le_of_succ_le_succ (Nat.le_of_succ_le_succ hlen)))]
    decide

/-! ## The list -/

/-- A default pattern without brackets. -/
theorem solid_of_avoids {r : PatternRegex} (hr : r.regex.Begins (Regex.OutsideMarker marker))
    (hc : r.regex.All (Regex.Avoids 0x5B)) : r.matcher.Solid marker := by
  rw [marker_cons] at hr ⊢
  exact Regex.solid_of_avoids hr hc

theorem read_one {p : Text → Bool} {b : UInt8} (t : Text) (hb : isFirst b = true)
    (hw : width b = 1) (hp : p [b] = true) : (charAtom p).read (b :: t) = some 1 := by
  simp [charAtom, hb, hw, hp]

/-- The characters of a marker are no white space. -/
theorem read_nonSpace_marker {k : Nat} (hk : k < marker.length) (v : Text) :
    (charAtom nonSpace).read (marker.drop k ++ v) ≠ none := by
  have hall : ∀ k < marker.length, ∃ b rest, marker.drop k = b :: rest ∧ isFirst b = true ∧
      width b = 1 ∧ nonSpace [b] = true := by
    intro k hk
    have hk8 : k < 8 := hk
    interval_cases k <;> exact ⟨_, _, rfl, by decide, by decide, by decide⟩
  obtain ⟨b, rest, hdrop, hb, hw, hp⟩ := hall k hk
  rw [hdrop, List.cons_append, read_one _ hb hw hp]
  exact Option.some_ne_none 1

theorem read_at_one (t : Text) (n : Nat)
    (h : (wordAtom (.ofChars "@".toList)).read t = some n) : n = 1 := by
  simp only [wordAtom, literal, Option.ite_none_right_eq_some] at h
  exact (Option.some.inj h.2).symm

/-- No character of a marker is an `@`. -/
theorem read_at_marker {k : Nat} (hk : k < marker.length) (v : Text) :
    (wordAtom (.ofChars "@".toList)).read (marker.drop k ++ v) = none := by
  refine if_neg ?_
  rintro ⟨-, hp⟩
  obtain ⟨b, rest, hdrop⟩ : ∃ b rest, marker.drop k = b :: rest :=
    List.exists_cons_of_ne_nil (by rwa [Ne, List.drop_eq_nil_iff, not_le])
  have hb : b ∈ marker := List.mem_of_mem_drop (i := k) (by rw [hdrop]; exact List.mem_cons_self)
  rw [hdrop] at hp
  obtain rfl : (0x40 : UInt8) = b := (List.cons_prefix_cons.mp hp).1
  exact absurd hb (by decide)

/-- **No match of a default pattern begins or ends inside a marker.** -/
theorem defaultRegexes_solid : ∀ r ∈ defaultRegexes, r.matcher.Solid marker := by
  simp only [defaultRegexes, List.forall_mem_cons]
  refine ⟨?_, ?_, ?_, ?_, ?_, ?_, ?_, ?_, ?_, ?_, ?_, ?_, ?_⟩
  · apply solid_of_avoids
    · exact begins_word "glrt-" (by decide)
    · exact ⟨avoids_word _ (by decide), avoids_ascii (by decide)⟩
  · apply solid_of_avoids
    · exact begins_word "GR1348941" (by decide)
    · exact ⟨avoids_word _ (by decide), avoids_ascii (by decide)⟩
  · apply solid_of_avoids
    · exact begins_word "gh" (by decide)
    · exact ⟨⟨⟨avoids_word _ (by decide), avoids_ascii (by decide)⟩, avoids_word _ (by decide)⟩,
        avoids_ascii (by decide)⟩
  · apply solid_of_avoids
    · exact begins_word "AKIA" (by decide)
    · exact ⟨avoids_word _ (by decide), avoids_ascii (by decide)⟩
  · apply solid_of_avoids
    · exact begins_word "aws_secret_access_key" (by decide)
    · exact ⟨⟨⟨⟨avoids_word _ (by decide), avoids_space⟩, avoids_word _ (by decide)⟩,
        avoids_space⟩, avoids_ascii (by decide)⟩
  · apply solid_of_avoids
    · exact begins_word "api" (by decide)
    · exact ⟨⟨⟨⟨⟨⟨avoids_word _ (by decide), avoids_ascii (by decide)⟩, avoids_word _ (by decide)⟩,
        avoids_space⟩, avoids_ascii (by decide)⟩, avoids_space⟩, avoids_ascii (by decide)⟩
  · apply solid_of_avoids
    · exact begins_word "secret" (by decide)
    · exact ⟨⟨⟨⟨avoids_word _ (by decide), avoids_space⟩, avoids_ascii (by decide)⟩, avoids_space⟩,
        avoids_ascii (by decide)⟩
  · apply Regex.solid_of_greedy
    · exact begins_word "password" (by decide)
    · exact fun k v hk => read_nonSpace_marker hk v
  · apply solid_of_avoids
    · exact begins_word "-----BEGIN " (by decide)
    · exact ⟨⟨avoids_word _ (by decide), avoids_ascii (by decide)⟩, avoids_word _ (by decide)⟩
  · apply solid_of_avoids
    · exact begins_word "eyJ" (by decide)
    · exact ⟨⟨⟨⟨⟨avoids_word _ (by decide), avoids_ascii (by decide)⟩, avoids_word _ (by decide)⟩,
        avoids_ascii (by decide)⟩, avoids_word _ (by decide)⟩, avoids_ascii (by decide)⟩
  · apply Regex.solid_of_last
    · exact ⟨begins_word "postgres" (by decide), begins_word "mysql" (by decide),
        begins_word "mongodb" (by decide)⟩
    · exact read_at_one
    · exact fun k v hk => read_at_marker hk v
  · apply Regex.solid_of_last
    · exact begins_word "redis://" (by decide)
    · exact read_at_one
    · exact fun k v hk => read_at_marker hk v
  · simp

end TurboCi
