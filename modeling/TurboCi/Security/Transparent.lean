import TurboCi.Security.Chunking

set_option autoImplicit false

/-! # Streaming output that holds no secret

Output in which nothing matches comes out of the stream as it went in. Every buffered part of it
is a part of the output, so there is no match range to draw the split point back, nothing is
ever swallowed, and `scrub` changes nothing: a push only moves the point between what was
emitted and what is held back.
-/

namespace TurboCi

open Masking Utf8

/-! ## Harmless texts -/

namespace SecretScrubber

/-- No secret that is looked for, and no pattern, matches in any part of the text. -/
structure Harmless (scrubber : SecretScrubber) (t : Text) : Prop where
  secrets : ∀ s ∈ scrubber.secrets, 4 < s.bytes.length → ¬ s.bytes <:+: t
  patterns : ∀ p ∈ scrubber.patterns, ∀ u, Valid u → u <:+: t → p.findIter u = []

variable {self : SecretScrubber} {t u : Text}

theorem Harmless.part (h : self.Harmless t) (hu : u <:+: t) : self.Harmless u where
  secrets s hs hlong hin := h.secrets s hs hlong (hin.trans hu)
  patterns p hp v hv hin := h.patterns p hp v hv (hin.trans hu)

theorem Harmless.scrubSecret_eq (h : self.Harmless t) {s : Str} (hs : s ∈ self.secrets) :
    scrubSecret t s = t := by
  unfold scrubSecret
  split
  · next hlong =>
      have hnone : (literal s.bytes).scan t = [] :=
        scan_literal_eq_nil (h.secrets s hs hlong.2)
      rw [replace, hnone, mask_nil]
  · rfl

theorem Harmless.replaceAll_eq (h : self.Harmless t) (ht : Valid t) {p : Pattern}
    (hp : p ∈ self.patterns) : replaceAll t p = t := by
  have hnone : p.findIter t = [] := h.patterns p hp t ht List.infix_rfl
  rw [replaceAll, hnone, mask_nil]

/-- A fold of rounds that change nothing. -/
theorem foldl_eq_self {β : Type} {f : Text → β → Text} :
    ∀ {bs : List β}, (∀ b ∈ bs, f t b = t) → bs.foldl f t = t
  | [], _ => rfl
  | b :: bs, h => by
      rw [List.foldl_cons, h b List.mem_cons_self]
      exact foldl_eq_self fun c hc => h c (List.mem_cons_of_mem b hc)

/-- `scrub` leaves a harmless text as it is. -/
theorem Harmless.scrub_eq (h : self.Harmless t) (ht : Valid t) : self.scrub t = t := by
  have hsecrets : self.secrets.foldl scrubSecret t = t :=
    foldl_eq_self fun s hs => h.scrubSecret_eq hs
  have hpatterns : self.patterns.foldl replaceAll t = t :=
    foldl_eq_self fun p hp => h.replaceAll_eq ht hp
  rw [scrub, hsecrets, hpatterns]

theorem Harmless.matchRanges_eq (h : self.Harmless t) (ht : Valid t) :
    self.matchRanges t = [] := by
  have hsecrets : (self.secrets.filter (4 < ·.bytes.length)).flatMap
      (fun s => (literal s.bytes).scan t) = [] := by
    apply List.flatMap_eq_nil_iff.mpr
    intro s hs
    rw [List.mem_filter, decide_eq_true_eq] at hs
    exact scan_literal_eq_nil (h.secrets s hs.1 hs.2)
  have hpatterns : self.patterns.flatMap (fun p => p.findIter t) = [] :=
    List.flatMap_eq_nil_iff.mpr fun p hp => h.patterns p hp t ht List.infix_rfl
  rw [matchRanges, hsecrets, hpatterns, List.append_nil]

/-- Nothing of a harmless text is swallowed. -/
theorem Harmless.cut_eq (h : self.Harmless t) (ht : Valid t) : ∃ b, self.cut t = .split b := by
  unfold cut
  simp only [h.matchRanges_eq ht, List.filter_nil, List.map_nil, List.min?_nil]
  split
  · exact ⟨_, rfl⟩
  · exact ⟨_, rfl⟩

/-- With the default patterns, which look at nothing but what they match, a text is harmless
where no pass finds anything in the whole of it. -/
theorem harmless_new {secrets : List Str}
    (hsecrets : ∀ s ∈ secrets, 4 < s.bytes.length → ¬ s.bytes <:+: t)
    (hpatterns : ∀ r ∈ defaultRegexes, r.matcher.scan t = []) :
    (SecretScrubber.new secrets).Harmless t where
  secrets := hsecrets
  patterns p hp u _ hu := by
    obtain ⟨r, hr, rfl⟩ := List.mem_map.mp hp
    exact (r.regex.matcher_local r.consumes).scan_eq_nil_of_part (hpatterns r hr) hu

end SecretScrubber

/-! ## The stream -/

namespace StreamScrubber

open SecretScrubber

variable {scrubber : SecretScrubber}

/-- A push of harmless output emits what is before some point and holds back the rest. -/
theorem push_of_harmless {pending chunk : Text} (ht : Valid (pending ++ chunk))
    (h : scrubber.Harmless (pending ++ chunk)) :
    ∃ b, push scrubber ⟨pending, false⟩ chunk
        = ((pending ++ chunk).take b, ⟨(pending ++ chunk).drop b, false⟩) ∧
      Valid ((pending ++ chunk).drop b) := by
  obtain ⟨b, hb⟩ := h.cut_eq ht
  obtain ⟨hle, hbound, -⟩ := cut_split ht hb
  obtain ⟨htake, hdrop⟩ := ht.split hle hbound
  have hscrub : scrubber.scrub ((pending ++ chunk).take b) = (pending ++ chunk).take b :=
    (h.part (List.take_prefix b _).isInfix).scrub_eq htake
  refine ⟨b, ?_, hdrop⟩
  simp [push, feed, hb, hscrub]

/-- What comes out is what is held back and what is still to come. -/
theorem run_of_harmless : ∀ (chunks : List Str) {pending : Text}, Valid pending →
    scrubber.Harmless (pending ++ text chunks) →
      run scrubber ⟨pending, false⟩ chunks = pending ++ text chunks := by
  intro chunks
  induction chunks with
  | nil =>
      intro pending hvalid h
      rw [text, List.flatMap_nil, List.append_nil] at h ⊢
      show scrubber.scrub pending = pending
      exact h.scrub_eq hvalid
  | cons chunk chunks ih =>
      intro pending hvalid h
      have htext : pending ++ text (chunk :: chunks) = pending ++ chunk.bytes ++ text chunks := by
        rw [text, List.flatMap_cons, ← List.append_assoc]
        rfl
      rw [htext] at h ⊢
      have hhere : scrubber.Harmless (pending ++ chunk.bytes) :=
        h.part (List.prefix_append _ _).isInfix
      obtain ⟨b, hpush, hrest⟩ := push_of_harmless (hvalid.append chunk.valid) hhere
      -- what is held back and what follows are a part of the output again
      have hlater : scrubber.Harmless ((pending ++ chunk.bytes).drop b ++ text chunks) := by
        apply h.part
        refine ⟨(pending ++ chunk.bytes).take b, [], ?_⟩
        rw [← List.append_assoc, List.take_append_drop, List.append_nil]
      calc run scrubber ⟨pending, false⟩ (chunk :: chunks)
          = (pending ++ chunk.bytes).take b
              ++ run scrubber ⟨(pending ++ chunk.bytes).drop b, false⟩ chunks := by
            rw [run, hpush]
        _ = (pending ++ chunk.bytes).take b
              ++ ((pending ++ chunk.bytes).drop b ++ text chunks) := by rw [ih hrest hlater]
        _ = pending ++ chunk.bytes ++ text chunks := by
            rw [← List.append_assoc, List.take_append_drop]

/-- **Harmless output comes out of the stream as it went in**, however it is chunked. -/
theorem run_eq_text (scrubber : SecretScrubber) (chunks : List Str)
    (h : scrubber.Harmless (text chunks)) : run scrubber new chunks = text chunks :=
  run_of_harmless chunks valid_nil h

/-- A line with a character of two bytes, chunked inside a word that begins like the secret. -/
theorem run_eq_text_line :
    run (SecretScrubber.new [.ofChars "tok-12345".toList]) new
        [.ofChars "für tok-1".toList, .ofChars "2346\n".toList]
      = text [.ofChars "für tok-1".toList, .ofChars "2346\n".toList] :=
  run_eq_text _ _ (harmless_new (by decide) (by decide))

end StreamScrubber

end TurboCi
