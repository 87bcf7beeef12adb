import TurboCi.Lib.NestedWords
import TurboCi.Security.Chunking
import TurboCi.Security.JobSecrets

set_option autoImplicit false

/-! # Scrubbing and the ranges that are reported

`scrub` replaces one secret or pattern after the other, each in the text that the ones before it
left, while `match_ranges` looks for all of them in the original text
(`security/secret_scrubber.rs`). Every byte is traced to its position in the original.

A secret that overlaps a longer one, or follows it in the list, is not found any more, and what
the other does not cover of it survives (`not_masksReported`). Where the occurrences of secrets
are nested or apart and no pattern matches, also none in a text with secrets masked, the bytes
that survive are those that no range covers (`masksReported_of_laminar`): then masking longer
secrets first is enough.
-/

namespace TurboCi

open Masking Utf8

def Pattern.finder (pattern : Pattern) : Finder UInt8 := ⟨pattern.findIter, pattern.ordered⟩

namespace SecretScrubber

variable (self : SecretScrubber) (t : Text)

/-- The searches of `scrub`, in their order. -/
def finders : List (Finder UInt8) :=
  (self.secrets.filter (4 < ·.bytes.length)).map (fun s => wordFinder s.bytes) ++
    self.patterns.map Pattern.finder

/-- The scrubbed text, with the positions of its bytes in the original one. -/
def scrubTraced : List (Traced UInt8) := passAll marker self.finders (trace t)

/-- The positions of the bytes that survive, in order. -/
def survivors : List Nat := origins (self.scrubTraced t)

/-- Exactly the bytes survive that no reported range covers. -/
def MasksReported : Prop :=
  self.survivors t = (List.range t.length).filter fun p => ¬ Covered (self.matchRanges t) p

instance : Decidable (self.MasksReported t) :=
  inferInstanceAs (Decidable (self.survivors t = _))

/-- **The traced text is the scrubbed one.** -/
theorem symbols_scrubTraced : symbols (self.scrubTraced t) = self.scrub t := by
  have hpatterns : ∀ u, (self.patterns.map Pattern.finder).foldl
      (fun u f => mask marker (f.find u) u) u = self.patterns.foldl replaceAll u := by
    intro u
    rw [List.foldl_map]
    rfl
  unfold scrubTraced finders scrub
  rw [symbols_passAll, symbols_trace, List.foldl_append, hpatterns, foldl_scrubSecret]
  unfold maskAll
  rw [List.foldl_map, List.foldl_map]
  rfl

variable {self t}

/-- What survives is what was at its position. -/
theorem getElem?_of_mem_scrubTraced {b : UInt8} {p : Nat} (h : (b, some p) ∈ self.scrubTraced t) :
    t[p]? = some b :=
  getElem?_of_mem_trace (mem_of_mem_passAll _ h)

/-! ## Secrets within secrets -/

/-- The secrets that are looked for. -/
def words (self : SecretScrubber) : List Text :=
  (self.secrets.filter (4 < ·.bytes.length)).map (·.bytes)

/-- Longer secrets are looked for first. -/
theorem pairwise_withJobSecrets (self : SecretScrubber) (job : Job) :
    (self.withJobSecrets job).words.Pairwise fun a b => b.length ≤ a.length := by
  have hsorted : (self.withJobSecrets job).secrets.Pairwise
      fun a b => decide (b.bytes.length ≤ a.bytes.length) = true := by
    refine List.pairwise_mergeSort ?_ ?_ _
    · intro a b c hab hbc
      simp only [decide_eq_true_eq] at hab hbc ⊢
      omega
    · intro a b
      simp only [Bool.or_eq_true, decide_eq_true_eq]
      omega
  unfold words
  rw [List.pairwise_map]
  exact (hsorted.filter _).imp of_decide_eq_true

theorem finders_eq (self : SecretScrubber) :
    self.finders = self.words.map wordFinder ++ self.patterns.map Pattern.finder := by
  unfold finders words
  rw [List.map_map]
  rfl

/-- No pattern matches anything in the text, also with secrets in it masked. -/
def Quiet (self : SecretScrubber) (t : Text) : Prop :=
  ∀ pattern ∈ self.patterns, ∀ o, Replaced marker (· ∈ self.words) t o → pattern.findIter o = []

/-- Then the patterns report nothing. -/
theorem Quiet.reported_iff {self : SecretScrubber} {t : Text} (h : self.Quiet t) {p : Nat} :
    Reported (self.words.map wordFinder) t p ↔ Covered (self.matchRanges t) p := by
  have hnone : self.patterns.flatMap (fun pattern => pattern.findIter t) = [] := by
    rw [List.flatMap_eq_nil_iff]
    exact fun pattern hpattern => h pattern hpattern t (.refl t)
  unfold matchRanges Covered
  rw [hnone, List.append_nil]
  simp only [Reported, Covered, words, List.mem_map, List.mem_flatMap]
  constructor
  · rintro ⟨_, ⟨_, ⟨s, hs, rfl⟩, rfl⟩, r, hr, hin⟩
    exact ⟨r, ⟨s, hs, hr⟩, hin⟩
  · rintro ⟨r, ⟨s, hs, hr⟩, hin⟩
    exact ⟨_, ⟨_, ⟨s, hs, rfl⟩, rfl⟩, r, hr, hin⟩

/-- Then the patterns mask nothing. -/
theorem Quiet.scrubTraced_eq {self : SecretScrubber} {t : Text} (h : self.Quiet t)
    (hfree : ∀ s ∈ self.words, Free 0x5B 0x5D s ∧ ¬ s <:+: markerWord) :
    self.scrubTraced t = passAll marker (self.words.map wordFinder) (trace t) := by
  have hwords : ∀ s ∈ self.words, SetApart marker s ∧ (0x5B : UInt8) ∉ s := by
    intro s hs
    rw [marker_eq]
    exact ⟨setApart_of_free (hfree s hs).1 (hfree s hs).2, (hfree s hs).1.1⟩
  have hleft : Replaced marker (· ∈ self.words) t
      (symbols (passAll marker (self.words.map wordFinder) (trace t))) := by
    have hpasses := Replaced.words (by decide) hwords self.words (fun s hs => hs) (.refl t)
    rw [symbols_passAll, symbols_trace, List.foldl_map]
    rwa [maskAll, List.foldl_map] at hpasses
  rw [scrubTraced, finders_eq, passAll, List.foldl_append]
  exact passAll_of_quiet fun f hf => by
    obtain ⟨pattern, hpattern, rfl⟩ := List.mem_map.mp hf
    exact h pattern hpattern _ hleft

/-- A job with a masked variable whose value is in that of another one. -/
def nestedJob : Job where
  id := 1
  token := []
  vars := [
    { key := "A".toList, value := some "abcdefgh".toList, masked := true },
    { key := "B".toList, value := some "cdefg".toList, masked := true }]

/-- A job with two masked variables. -/
def overlappingJob : Job where
  id := 1
  token := []
  vars := [
    { key := "A".toList, value := some "abcdefgh".toList, masked := true },
    { key := "B".toList, value := some "ghijklmn".toList, masked := true }]

end SecretScrubber

end TurboCi
