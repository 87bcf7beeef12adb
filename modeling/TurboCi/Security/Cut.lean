import TurboCi.Security.SecretScrubber

set_option autoImplicit false

/-! # What `scrub` leaves and where `push` cuts

One specification lemma for each piece of the scrubber: `scrub` is a masking that keeps no
exact secret, the ranges of `matchRanges` lie in the text and begin and end between
characters, and the point where a push splits the buffered output lies between characters and
leaves every started secret in the rest.
-/

namespace TurboCi

open Masking Utf8

/-! ## Scrubbing -/

namespace SecretScrubber

/-- A text and a masked text, as a secret without brackets sees them. -/
abbrev Scrubbed (t o : Text) : Prop := Fenced 0x5B 0x5D markerWord t o

theorem scrubSecret_scrubbed (t : Text) (s : Str) : Scrubbed t (scrubSecret t s) := by
  unfold scrubSecret
  split
  · rw [replace, marker_eq]
    exact (mask_masked _ ((literal s.bytes).ordered_scan t)).fenced
  · exact .refl t

theorem replaceAll_scrubbed (t : Text) (p : Pattern) : Scrubbed t (replaceAll t p) := by
  rw [replaceAll, marker_eq]
  exact (mask_masked _ (p.ordered t)).fenced

theorem foldl_scrubbed {β : Type} {f : Text → β → Text} (hf : ∀ t b, Scrubbed t (f t b)) :
    ∀ (bs : List β) (t : Text), Scrubbed t (bs.foldl f t)
  | [], t => .refl t
  | b :: bs, t => (hf t b).trans (foldl_scrubbed hf bs (f t b))

theorem scrub_scrubbed (self : SecretScrubber) (t : Text) : Scrubbed t (self.scrub t) :=
  (foldl_scrubbed scrubSecret_scrubbed self.secrets t).trans
    (foldl_scrubbed replaceAll_scrubbed self.patterns _)

/-- A secret that a masking shows as it is: it has no bracket and is no part of `MASKED`. -/
structure Plain (s : Text) : Prop where
  long : 4 < s.length
  free : Free 0x5B 0x5D s
  word : ¬ s <:+: markerWord

theorem Plain.ne_nil {s : Text} (h : Plain s) : s ≠ [] := by
  rintro rfl
  exact absurd h.long (by simp)

theorem Plain.not_infix_of_scrubbed {s t o : Text} (hs : Plain s) (h : Scrubbed t o)
    (ht : ¬ s <:+: t) : ¬ s <:+: o := by
  intro hi
  rcases h.inf s hs.free hi with h' | h'
  · exact ht h'
  · exact hs.word h'

/-- **`scrub` leaves no exact secret.** -/
theorem not_infix_scrub {self : SecretScrubber} {s : Str} (hmem : s ∈ self.secrets)
    (hs : Plain s.bytes) (t : Text) : ¬ s.bytes <:+: self.scrub t := by
  obtain ⟨before, after, heq⟩ := List.append_of_mem hmem
  have hpass : ¬ s.bytes <:+: scrubSecret (before.foldl scrubSecret t) s := by
    rw [scrubSecret, if_pos ⟨hs.ne_nil, hs.long⟩, replace, marker_eq]
    exact (masked_scan _ hs.ne_nil _).not_infix_of_kept hs.free hs.word
  rw [scrub, heq, List.foldl_append, List.foldl_cons]
  exact hs.not_infix_of_scrubbed (foldl_scrubbed replaceAll_scrubbed _ _)
    (hs.not_infix_of_scrubbed (foldl_scrubbed scrubSecret_scrubbed _ _) hpass)

/-! ## Match ranges -/

theorem mem_matchRanges {self : SecretScrubber} {t : Text} {r : Range}
    (h : r ∈ self.matchRanges t) :
    (∃ s ∈ self.secrets, 4 < s.bytes.length ∧ r ∈ (literal s.bytes).scan t) ∨
      ∃ p ∈ self.patterns, r ∈ p.findIter t := by
  rw [matchRanges, List.mem_append, List.mem_flatMap, List.mem_flatMap] at h
  rcases h with ⟨s, hs, hr⟩ | h
  · rw [List.mem_filter, decide_eq_true_eq] at hs
    exact Or.inl ⟨s, hs.1, hs.2, hr⟩
  · exact Or.inr h

theorem le_of_mem_matchRanges {self : SecretScrubber} {t : Text} {r : Range}
    (h : r ∈ self.matchRanges t) : r.1 ≤ r.2 ∧ r.2 ≤ t.length := by
  rcases mem_matchRanges h with ⟨s, -, -, hr⟩ | ⟨p, -, hr⟩
  · exact (((literal s.bytes).ordered_scan t).le_of_mem hr).2
  · exact ((p.ordered t).le_of_mem hr).2

theorem boundary_of_mem_matchRanges {self : SecretScrubber} {t : Text} (ht : Valid t) {r : Range}
    (h : r ∈ self.matchRanges t) :
    isCharBoundary t r.1 = true ∧ isCharBoundary t r.2 = true := by
  rcases mem_matchRanges h with ⟨s, -, hlong, hr⟩ | ⟨p, -, hr⟩
  · obtain ⟨hend, hocc⟩ := eq_of_mem_scan hr
    rw [hend]
    exact s.valid.isCharBoundary_occurrence ht (List.ne_nil_of_length_pos (by omega)) hocc
  · exact p.boundary ht r hr

/-! ## Holding back -/

theorem suffixPrefixFrom_le (t s : Text) : ∀ n, suffixPrefixFrom t s n ≤ n
  | 0 => le_refl 0
  | n + 1 => by
      unfold suffixPrefixFrom
      split
      · exact le_refl _
      · exact (suffixPrefixFrom_le t s n).trans (Nat.le_succ n)

theorem le_suffixPrefixFrom {t s : Text} {k : Nat} (hb : isCharBoundary s k = true)
    (hk : s.take k <:+ t) : ∀ {n}, k ≤ n → k ≤ suffixPrefixFrom t s n
  | 0, h => by omega
  | n + 1, h => by
      unfold suffixPrefixFrom
      split
      · exact h
      · next hno =>
          have hne : k ≠ n + 1 := by
            rintro rfl
            exact hno (by rw [hb, Bool.true_and]; exact List.isSuffixOf_iff_suffix.mpr hk)
          exact le_suffixPrefixFrom hb hk (by omega)

/-- Every proper prefix of a secret that the text ends with is counted. -/
theorem le_suffixPrefixLen {t : Text} {s : Str} (ht : Valid t) {k : Nat} (hk : k < s.bytes.length)
    (h : s.bytes.take k <:+ t) : k ≤ suffixPrefixLen t s.bytes :=
  le_suffixPrefixFrom (isCharBoundary_of_suffix s.valid ht hk.le h) h (by omega)

theorem suffixPrefixLen_le (t s : Text) : suffixPrefixLen t s ≤ s.length - 1 :=
  suffixPrefixFrom_le t s _

theorem suffixPrefixFrom_le_length (t s : Text) : ∀ {n}, n ≤ s.length →
    suffixPrefixFrom t s n ≤ t.length
  | 0, _ => Nat.zero_le _
  | n + 1, h => by
      unfold suffixPrefixFrom
      split
      · next hsuf =>
          have hsuf := List.isSuffixOf_iff_suffix.mp (Bool.and_eq_true_iff.mp hsuf).2
          have hle := hsuf.length_le
          rwa [List.length_take_of_le h] at hle
      · exact suffixPrefixFrom_le_length t s (by omega)

theorem le_max?_getD {l : List Nat} {a : Nat} (h : a ∈ l) : a ≤ l.max?.getD 0 := by
  cases hm : l.max? with
  | none => rw [List.max?_eq_none_iff.mp hm] at h; cases h
  | some b => exact (List.max?_le_iff hm).mp (le_refl b) a h

theorem suffixPrefixLen_le_heldBack {self : SecretScrubber} {s : Str} (h : s ∈ self.secrets)
    (t : Text) : suffixPrefixLen t s.bytes ≤ self.heldBack t :=
  (le_max?_getD (List.mem_map_of_mem (f := fun s : Str => suffixPrefixLen t s.bytes) h)).trans
    (le_max_left _ _)

theorem length_le_longestSecret {self : SecretScrubber} {s : Str} (h : s ∈ self.secrets) :
    s.bytes.length ≤ self.longestSecret :=
  le_max?_getD (List.mem_map_of_mem (f := fun s : Str => s.bytes.length) h)

theorem floorCharBoundary_spec (t : Text) : ∀ i,
    floorCharBoundary t i ≤ i ∧ isCharBoundary t (floorCharBoundary t i) = true
  | 0 => ⟨le_refl 0, isCharBoundary_zero t⟩
  | i + 1 => by
      unfold floorCharBoundary
      split
      · next h => exact ⟨le_refl _, h⟩
      · exact ⟨(floorCharBoundary_spec t i).1.trans (Nat.le_succ i),
          (floorCharBoundary_spec t i).2⟩

theorem ceilCharBoundaryFrom_spec {t : Text} {p : Nat} (hp : isCharBoundary t p = true) :
    ∀ (fuel i : Nat), i ≤ p → p ≤ i + fuel → i ≤ ceilCharBoundaryFrom t fuel i ∧
      ceilCharBoundaryFrom t fuel i ≤ p ∧ isCharBoundary t (ceilCharBoundaryFrom t fuel i) = true
  | 0, i, h1, h2 => by
      obtain rfl : i = p := by omega
      exact ⟨le_refl _, le_refl _, hp⟩
  | fuel + 1, i, h1, h2 => by
      unfold ceilCharBoundaryFrom
      split
      · next h => exact ⟨le_refl _, h1, h⟩
      · next h =>
          have hne : i ≠ p := by rintro rfl; exact h hp
          obtain ⟨h3, h4, h5⟩ := ceilCharBoundaryFrom_spec hp fuel (i + 1) (by omega) (by omega)
          exact ⟨by omega, h4, h5⟩

/-- Stepping up ends less than four bytes ahead. -/
theorem ceilCharBoundary_spec {t : Text} (ht : Valid t) {i : Nat} (hi : i ≤ t.length) :
    i ≤ ceilCharBoundary t i ∧ ceilCharBoundary t i < i + 4 ∧ ceilCharBoundary t i ≤ t.length ∧
      isCharBoundary t (ceilCharBoundary t i) = true := by
  obtain ⟨p, h1, h2, h3, h4⟩ := ht.exists_boundary hi
  obtain ⟨h5, h6, h7⟩ := ceilCharBoundaryFrom_spec h4 (t.length - i) i h1 (by omega)
  exact ⟨h5, by unfold ceilCharBoundary; omega, by unfold ceilCharBoundary; omega, h7⟩

theorem drawBack_spec (len : Nat) : ∀ (ranges : List Range) (b : Nat),
    drawBack len b ranges ≤ b ∧ (drawBack len b ranges = b ∨
      ∃ r ∈ ranges, drawBack len b ranges = r.1)
  | [], b => ⟨le_refl b, Or.inl rfl⟩
  | r :: ranges, b => by
      rw [drawBack, List.foldl_cons, ← drawBack]
      split
      · next h =>
          obtain ⟨h1, h2⟩ := drawBack_spec len ranges r.1
          refine ⟨by omega, Or.inr ?_⟩
          rcases h2 with h2 | ⟨q, hq, h2⟩
          · exact ⟨r, List.mem_cons_self, h2⟩
          · exact ⟨q, List.mem_cons_of_mem r hq, h2⟩
      · obtain ⟨h1, h2⟩ := drawBack_spec len ranges b
        refine ⟨h1, h2.imp_right ?_⟩
        rintro ⟨q, hq, h2⟩
        exact ⟨q, List.mem_cons_of_mem r hq, h2⟩

/-- The boundary before the limit is looked at. -/
theorem drawBack_floor (self : SecretScrubber) {t : Text} (ht : Valid t) :
    let b := drawBack t.length (floorCharBoundary t (t.length - self.heldBack t))
      (self.matchRanges t)
    b ≤ t.length - self.heldBack t ∧ isCharBoundary t b = true := by
  obtain ⟨h1, h2⟩ := floorCharBoundary_spec t (t.length - self.heldBack t)
  obtain ⟨h3, h4⟩ := drawBack_spec t.length (self.matchRanges t)
    (floorCharBoundary t (t.length - self.heldBack t))
  refine ⟨h3.trans h1, ?_⟩
  rcases h4 with h4 | ⟨r, hr, h4⟩
  · rw [h4]; exact h2
  · rw [h4]; exact (boundary_of_mem_matchRanges ht hr).1

/-- **Where a push splits the output**: between characters, and no later than a started
secret. -/
theorem cut_split {self : SecretScrubber} {t : Text} (ht : Valid t) {b : Nat}
    (h : self.cut t = .split b) :
    b ≤ t.length ∧ isCharBoundary t b = true ∧
      ∀ s ∈ self.secrets, suffixPrefixLen t s.bytes ≤ t.length - b := by
  obtain ⟨h1, h2⟩ := drawBack_floor self ht
  unfold cut at h
  simp only at h
  split at h
  · next hlimit =>
      split at h
      · cases h
      · -- cut at the limit, which is longer than the longest secret
        obtain rfl := Cut.split.inj h
        obtain ⟨-, h4, h5, h6⟩ := ceilCharBoundary_spec ht (Nat.sub_le t.length self.limit)
        refine ⟨h5, h6, fun s hs => ?_⟩
        have := suffixPrefixLen_le t s.bytes
        have := length_le_longestSecret hs
        have : self.longestSecret + 256 ≤ self.limit := le_max_right _ _
        omega
  · obtain rfl := Cut.split.inj h
    refine ⟨by omega, h2, fun s hs => ?_⟩
    have := suffixPrefixLen_le_heldBack hs t
    have : suffixPrefixLen t s.bytes ≤ t.length := suffixPrefixFrom_le_length t s.bytes (by omega)
    omega

theorem cut_swallow {self : SecretScrubber} {t : Text} (ht : Valid t) {start : Nat}
    (h : self.cut t = .swallow start) : start ≤ t.length ∧ isCharBoundary t start = true := by
  unfold cut at h
  simp only at h
  split at h
  · split at h
    · next hmin =>
        obtain rfl := Cut.swallow.inj h
        obtain ⟨r, hr, rfl⟩ := List.mem_map.mp (List.min?_mem hmin)
        rw [List.mem_filter, decide_eq_true_eq] at hr
        have := le_of_mem_matchRanges hr.1
        exact ⟨by omega, (boundary_of_mem_matchRanges ht hr.1).1⟩
    · cases h
  · cases h

end SecretScrubber

/-! ## One push -/

theorem findWhitespace_spec : ∀ {t : Text} {i : Nat}, findWhitespace t = some i →
    ∃ b rest, t.drop i = b :: rest ∧ startsWithWhitespace (b :: rest) = true
  | [], i, h => by cases h
  | b :: t, i, h => by
      rw [findWhitespace] at h
      split at h
      · next hws =>
          obtain rfl := Option.some.inj h
          exact ⟨b, t, rfl, hws⟩
      · obtain ⟨j, hj, rfl⟩ := Option.map_eq_some_iff.mp h
        obtain ⟨c, rest, hdrop, hws⟩ := findWhitespace_spec hj
        exact ⟨c, rest, hdrop, hws⟩

theorem isFirst_of_startsWithWhitespace {b : UInt8} {t : Text}
    (h : startsWithWhitespace (b :: t) = true) : isFirst b = true := by
  have hascii : ∀ b : UInt8, ((0x09 ≤ b && b ≤ 0x0D) || b == 0x20) = true → isFirst b = true :=
    forall_byte (by decide +kernel)
  unfold startsWithWhitespace at h
  split at h
  case h_7 heq =>
    rw [(List.cons.inj heq).1]
    exact hascii _ h
  case h_8 => cases h
  all_goals
    next heq =>
      rw [(List.cons.inj heq).1]
      decide

/-- What follows the swallowed output is a string. -/
theorem valid_drop_findWhitespace {t : Text} (ht : Valid t) {i : Nat}
    (h : findWhitespace t = some i) : Valid (t.drop i) := by
  obtain ⟨b, rest, hdrop, hws⟩ := findWhitespace_spec h
  have hi : i ≤ t.length := by
    by_contra hlt
    rw [List.drop_eq_nil_of_le (by omega)] at hdrop
    cases hdrop
  exact (ht.split hi (isCharBoundary_of_isFirst hdrop (isFirst_of_startsWithWhitespace hws))).2

namespace StreamScrubber

/-- The buffered output that a push of the chunk splits; none while the chunk is swallowed. -/
def buffered (self : StreamScrubber) (chunk : Text) : Option Text :=
  if self.swallowing then (findWhitespace chunk).map (fun stop => self.pending ++ chunk.drop stop)
  else some (self.pending ++ chunk)

/-- **What a push can do.** -/
theorem push_cases (scrubber : SecretScrubber) (self : StreamScrubber) (chunk : Text) :
    (self.buffered chunk = none ∧ self.swallowing = true ∧
      push scrubber self chunk = ([], self)) ∨
    (∃ t b, self.buffered chunk = some t ∧ scrubber.cut t = .split b ∧
      push scrubber self chunk = (scrubber.scrub (t.take b), ⟨t.drop b, false⟩)) ∨
    ∃ t start, self.buffered chunk = some t ∧ scrubber.cut t = .swallow start ∧
      push scrubber self chunk = (scrubber.scrub (t.take start) ++ marker, ⟨[], true⟩) := by
  -- whatever is fed to the buffer, it is split or swallowed
  have hfeed : ∀ (pending more : Text),
      (∃ b, scrubber.cut (pending ++ more) = .split b ∧
        feed scrubber ⟨pending, false⟩ more = (scrubber.scrub ((pending ++ more).take b),
          ⟨(pending ++ more).drop b, false⟩)) ∨
      ∃ start, scrubber.cut (pending ++ more) = .swallow start ∧
        feed scrubber ⟨pending, false⟩ more = (scrubber.scrub ((pending ++ more).take start)
          ++ marker, ⟨[], true⟩) := by
    intro pending more
    cases hcut : scrubber.cut (pending ++ more) with
    | split b => exact Or.inl ⟨b, rfl, by simp only [feed, hcut]⟩
    | swallow start => exact Or.inr ⟨start, rfl, by simp only [feed, hcut]⟩
  obtain ⟨pending, swallowing⟩ := self
  cases swallowing with
  | false =>
      rcases hfeed pending chunk with ⟨b, hb, heq⟩ | ⟨start, hs, heq⟩
      · exact Or.inr (Or.inl ⟨_, b, rfl, hb, heq⟩)
      · exact Or.inr (Or.inr ⟨_, start, rfl, hs, heq⟩)
  | true =>
      cases hws : findWhitespace chunk with
      | none =>
          -- the swallowed run goes on: the whole chunk is dropped
          exact Or.inl ⟨by simp [buffered, hws], rfl, by simp [push, hws]⟩
      | some stop =>
          have hbuf : buffered ⟨pending, true⟩ chunk = some (pending ++ chunk.drop stop) := by
            simp [buffered, hws]
          have hpush : push scrubber ⟨pending, true⟩ chunk
              = feed scrubber ⟨pending, false⟩ (chunk.drop stop) := by
            simp [push, hws]
          rw [hpush]
          rcases hfeed pending (chunk.drop stop) with ⟨b, hb, heq⟩ | ⟨start, hs, heq⟩
          · exact Or.inr (Or.inl ⟨_, b, hbuf, hb, heq⟩)
          · exact Or.inr (Or.inr ⟨_, start, hbuf, hs, heq⟩)

/-- The buffered output is what was pending and a string after it. -/
theorem buffered_spec {self : StreamScrubber} {chunk : Text} (hc : Valid chunk) {t : Text}
    (h : self.buffered chunk = some t) : ∃ more, Valid more ∧ self.pending ++ more = t := by
  unfold buffered at h
  split at h
  · obtain ⟨stop, hstop, rfl⟩ := Option.map_eq_some_iff.mp h
    exact ⟨_, valid_drop_findWhitespace hc hstop, rfl⟩
  · exact ⟨chunk, hc, Option.some.inj h⟩

end StreamScrubber

end TurboCi
