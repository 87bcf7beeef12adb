import TurboCi.Security.StreamLeak
import TurboCi.Security.WholeMarkers

set_option autoImplicit false

/-! # Streaming and scrubbing the whole text

For a scrubber with the default patterns `scrub` is a sequence of passes, each of which masks
the matches of a local matcher. Scrubbing a text in two parts gives the same as scrubbing it
whole when no match of a pass crosses the seam, so a stream gives the same as long as no push
splits the output inside a word that the passes match: a word that a pass matches as it is, or
once such words in it are masked, like `password=` with a secret after it.

The holdback of `push` does not ensure that: it keeps back the starts of exact secrets, matches
that touch the end and runs of token characters, but not the start of a pattern that is none of
these, such as `password:` with white space after it.
-/

namespace TurboCi

open Masking Utf8

/-! ## Passes -/

namespace SecretScrubber

/-- The passes that `scrub` makes, in their order. -/
def passes (secrets : List Str) : List (Matcher UInt8) :=
  (secrets.filter (4 < ·.bytes.length)).map (fun s => literal s.bytes)
    ++ defaultRegexes.map PatternRegex.matcher

theorem passes_solid {secrets : List Str}
    (hsecrets : ∀ s ∈ secrets, 4 < s.bytes.length → SetApart marker s.bytes) :
    ∀ m ∈ passes secrets, m.Solid marker := by
  intro m hm
  rw [passes, List.mem_append, List.mem_map, List.mem_map] at hm
  rcases hm with ⟨s, hs, rfl⟩ | ⟨r, hr, rfl⟩
  · rw [List.mem_filter, decide_eq_true_eq] at hs
    exact literal_solid (hsecrets s hs.1 hs.2)
  · exact defaultRegexes_solid r hr

theorem passes_local (secrets : List Str) : ∀ m ∈ passes secrets, m.Local := by
  intro m hm
  rw [passes, List.mem_append, List.mem_map, List.mem_map] at hm
  rcases hm with ⟨s, -, rfl⟩ | ⟨r, -, rfl⟩
  · exact literal_local s.bytes
  · exact r.regex.matcher_local r.consumes

theorem foldl_scrubSecret (secrets : List Str) : ∀ (t : Text),
    secrets.foldl scrubSecret t
      = maskAll marker ((secrets.filter (4 < ·.bytes.length)).map (fun s => literal s.bytes))
          t := by
  induction secrets with
  | nil => intro t; rfl
  | cons s secrets ih =>
      intro t
      rw [List.foldl_cons, ih]
      by_cases hlong : 4 < s.bytes.length
      · have hne : s.bytes ≠ [] := List.ne_nil_of_length_pos (by omega)
        rw [scrubSecret, if_pos ⟨hne, hlong⟩, List.filter_cons_of_pos (by simpa using hlong)]
        rfl
      · rw [scrubSecret, if_neg (fun h => hlong h.2),
          List.filter_cons_of_neg (by simpa using hlong)]

/-- **`scrub` is its passes.** -/
theorem scrub_new (secrets : List Str) (t : Text) :
    (SecretScrubber.new secrets).scrub t = maskAll marker (passes secrets) t := by
  have hpatterns : ∀ (rs : List PatternRegex) (t : Text),
      (rs.map PatternRegex.pattern).foldl replaceAll t
        = maskAll marker (rs.map PatternRegex.matcher) t := by
    intro rs
    induction rs with
    | nil => intro t; rfl
    | cons r rs ih => intro t; exact ih _
  calc (SecretScrubber.new secrets).scrub t
      = (defaultRegexes.map PatternRegex.pattern).foldl replaceAll (secrets.foldl scrubSecret t) :=
        rfl
    _ = maskAll marker (defaultRegexes.map PatternRegex.matcher) (maskAll marker
          ((secrets.filter (4 < ·.bytes.length)).map (fun s => literal s.bytes)) t) := by
        rw [hpatterns, foldl_scrubSecret]
    _ = maskAll marker (passes secrets) t := by
        rw [maskAll, maskAll, maskAll, passes, List.foldl_append]

end SecretScrubber

/-! ## Streams -/

namespace StreamScrubber

open SecretScrubber

/-- The output that the chunks make up. -/
def text (chunks : List Str) : Text := chunks.flatMap (·.bytes)

/-- Where the pass over the matches of the buffered output `t` can get to inside a word that the
passes match in the output not yet emitted, it can get to the start of the word, too. -/
def Uncrossed (secrets : List Str) (t later : Text) : Prop :=
  ∀ r : Range, r.2 ≤ (t ++ later).length →
    Matched marker (passes secrets) ((t ++ later).extract r.1 r.2) →
      ∀ x, Pulled t.length ((SecretScrubber.new secrets).matchRanges t)
          ((SecretScrubber.new secrets).tailBoundary t) x → Inside x r →
        ∃ y, Pulled t.length ((SecretScrubber.new secrets).matchRanges t)
          ((SecretScrubber.new secrets).tailBoundary t) y ∧ y ≤ r.1

/-- The buffered output is split at a position inside no such word. -/
theorem uncrossed_iff {secrets : List Str} {t later : Text} :
    Uncrossed secrets t later ↔ ∀ r : Range, r.2 ≤ (t ++ later).length →
      Matched marker (passes secrets) ((t ++ later).extract r.1 r.2) →
        ¬ Inside ((SecretScrubber.new secrets).drawnBoundary t) r := by
  simp only [Uncrossed, drawnBoundary, not_inside_drawBack_iff]

/-- At every push of the chunks no word of the output not yet emitted is crossed. -/
def KeepsMatches (secrets : List Str) : StreamScrubber → List Str → Prop
  | _, [] => True
  | self, chunk :: chunks =>
      (∀ t ∈ self.buffered chunk.bytes, Uncrossed secrets t (text chunks)) ∧
        KeepsMatches secrets (push (SecretScrubber.new secrets) self chunk.bytes).2 chunks

/-- A push that crosses no word emits a part of what scrubbing the whole rest gives. -/
theorem push_of_uncrossed {secrets : List Str}
    (hsecrets : ∀ s ∈ secrets, 4 < s.bytes.length → SetApart marker s.bytes)
    {pending chunk later : Text} (hlen : (pending ++ chunk).length ≤ maxPending)
    (hclear : Uncrossed secrets (pending ++ chunk) later) :
    ∃ b, push (SecretScrubber.new secrets) ⟨pending, false⟩ chunk
        = ((SecretScrubber.new secrets).scrub ((pending ++ chunk).take b),
          ⟨(pending ++ chunk).drop b, false⟩) ∧
      (SecretScrubber.new secrets).scrub (pending ++ chunk ++ later)
        = (SecretScrubber.new secrets).scrub ((pending ++ chunk).take b)
          ++ (SecretScrubber.new secrets).scrub ((pending ++ chunk).drop b ++ later) := by
  have hlimit : maxPending ≤ (SecretScrubber.new secrets).limit := le_max_left _ _
  have hb : (SecretScrubber.new secrets).cut (pending ++ chunk) =
      .split ((SecretScrubber.new secrets).drawnBoundary (pending ++ chunk)) :=
    cut_of_within (by omega)
  have hle := (SecretScrubber.new secrets).drawnBoundary_le (pending ++ chunk)
  rw [uncrossed_iff] at hclear
  generalize (SecretScrubber.new secrets).drawnBoundary (pending ++ chunk) = b at hb hle hclear
  refine ⟨b, by simp [push, feed, hb], ?_⟩
  have hseam : SeamClear marker (passes secrets) ((pending ++ chunk).take b)
      ((pending ++ chunk).drop b ++ later) := by
    apply seamClear_of_matched (by decide)
      (fun m hm => ⟨passes_local secrets m hm, passes_solid hsecrets m hm⟩)
    rw [← List.append_assoc, List.take_append_drop, List.length_take_of_le hle]
    exact fun r hinside hend hword => hclear r hend hword hinside
  calc (SecretScrubber.new secrets).scrub (pending ++ chunk ++ later)
      = maskAll marker (passes secrets)
          ((pending ++ chunk).take b ++ ((pending ++ chunk).drop b ++ later)) := by
        rw [scrub_new, ← List.append_assoc, List.take_append_drop]
    _ = maskAll marker (passes secrets) ((pending ++ chunk).take b)
          ++ maskAll marker (passes secrets) ((pending ++ chunk).drop b ++ later) :=
        maskAll_append (passes_local secrets) hseam
    _ = (SecretScrubber.new secrets).scrub ((pending ++ chunk).take b)
          ++ (SecretScrubber.new secrets).scrub ((pending ++ chunk).drop b ++ later) := by
        rw [scrub_new, scrub_new]

theorem run_eq_scrub_of_pending {secrets : List Str}
    (hsecrets : ∀ s ∈ secrets, 4 < s.bytes.length → SetApart marker s.bytes) :
    ∀ (chunks : List Str) (pending : Text),
    (pending ++ text chunks).length ≤ maxPending →
      KeepsMatches secrets ⟨pending, false⟩ chunks →
        run (SecretScrubber.new secrets) ⟨pending, false⟩ chunks
          = (SecretScrubber.new secrets).scrub (pending ++ text chunks) := by
  intro chunks
  induction chunks with
  | nil =>
      intro pending _ _
      rw [run, finish, text, List.flatMap_nil, List.append_nil]
  | cons chunk chunks ih =>
      rintro pending hlen ⟨hclear, hrest⟩
      have htext : pending ++ text (chunk :: chunks) = pending ++ chunk.bytes ++ text chunks := by
        rw [text, List.flatMap_cons, ← List.append_assoc]
        rfl
      rw [htext] at hlen ⊢
      have hfit : (pending ++ chunk.bytes).length ≤ maxPending :=
        (List.length_append ▸ Nat.le_add_right _ _).trans hlen
      obtain ⟨b, hpush, hscrub⟩ := push_of_uncrossed hsecrets hfit (hclear _ rfl)
      rw [hpush] at hrest
      have hshort : ((pending ++ chunk.bytes).drop b ++ text chunks).length ≤ maxPending := by
        rw [List.length_append, List.length_drop]
        rw [List.length_append] at hlen
        omega
      calc run (SecretScrubber.new secrets) ⟨pending, false⟩ (chunk :: chunks)
          = (SecretScrubber.new secrets).scrub ((pending ++ chunk.bytes).take b)
              ++ run (SecretScrubber.new secrets) ⟨(pending ++ chunk.bytes).drop b, false⟩
                chunks := by rw [run, hpush]
        _ = (SecretScrubber.new secrets).scrub ((pending ++ chunk.bytes).take b)
              ++ (SecretScrubber.new secrets).scrub
                ((pending ++ chunk.bytes).drop b ++ text chunks) := by rw [ih _ hshort hrest]
        _ = (SecretScrubber.new secrets).scrub (pending ++ chunk.bytes ++ text chunks) :=
            hscrub.symm

end StreamScrubber

end TurboCi
