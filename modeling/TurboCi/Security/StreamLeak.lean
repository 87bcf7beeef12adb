import TurboCi.Security.DrawBack

set_option autoImplicit false

/-! # What streaming shows of an exact secret

`push` scrubs what is before the point where it splits the buffered output. An exact secret
stays hidden as long as no push splits inside one of its occurrences: then every started
occurrence is wholly held back, and `Clean` is an invariant of the pushes.

The one pass over the match ranges does not ensure this. A range listed later can draw the
split point into a range that was already looked at, and then the secret is shown in two
halves, none of which `scrub` masks. `Undivided` says of the buffered output when that happens,
from its match ranges: also for occurrences that are no match because they overlap another one,
and for the cut at the limit.
-/

namespace TurboCi

open Masking Utf8 SecretScrubber

namespace SecretScrubber

/-! ## Whole occurrences -/

/-- Where the pass over the matches can get to inside an occurrence of `s` in the buffered output,
it can get to its start, too; and where more is left than may be held back, the limit lies in no
occurrence. -/
def Undivided (self : SecretScrubber) (s t : Text) : Prop :=
  ∀ k, OccursAt s t k →
    (¬ self.Overlong t →
      ∀ x, Pulled t.length (self.matchRanges t) (self.tailBoundary t) x →
        Inside x (k, k + s.length) →
          ∃ y, Pulled t.length (self.matchRanges t) (self.tailBoundary t) y ∧ y ≤ k) ∧
    (self.Overlong t → (∀ r ∈ self.matchRanges t, r.2 ≠ t.length) →
      ¬ Inside (ceilCharBoundary t (t.length - self.limit)) (k, k + s.length))

/-- The output is split inside an occurrence of `s`. -/
def Cut.Divides (s t : Text) : Cut → Prop
  | .split b => ∃ k < b, OccursAt s t k ∧ b < k + s.length
  | .swallow _ => False

instance (s t : Text) : (c : Cut) → Decidable (c.Divides s t)
  | .split b => inferInstanceAs (Decidable (∃ k < b, OccursAt s t k ∧ b < k + s.length))
  | .swallow _ => inferInstanceAs (Decidable False)

/-- **What keeps an occurrence whole.** -/
theorem undivided_iff {self : SecretScrubber} {s t : Text} :
    self.Undivided s t ↔ ¬ (self.cut t).Divides s t := by
  by_cases hover : self.Overlong t
  · rcases cut_of_overlong hover with ⟨⟨start, hcut⟩, r, hr, hend⟩ | ⟨hcut, hnone⟩
    · -- a match at the end is swallowed
      rw [hcut]
      exact ⟨fun _ h => h, fun _ k _ => ⟨fun h => absurd hover h, fun _ h => absurd hend (h r hr)⟩⟩
    · rw [hcut]
      constructor
      · rintro h ⟨k, hk, hocc, hb⟩
        exact (h k hocc).2 hover hnone ⟨hk, hb⟩
      · exact fun h k hocc => ⟨fun hno => absurd hover hno,
          fun _ _ hinside => h ⟨k, hinside.1, hocc, hinside.2⟩⟩
  · have hcut := cut_of_within (Nat.not_lt.mp (fun h => hover (overlong_iff.mpr h)))
    rw [hcut]
    constructor
    · rintro h ⟨k, hk, hocc, hb⟩
      exact (not_inside_drawBack_iff _ _ _ (k, k + s.length)).mpr ((h k hocc).1 hover) ⟨hk, hb⟩
    · intro h k hocc
      refine ⟨fun _ => ?_, fun hyes => absurd hyes hover⟩
      exact (not_inside_drawBack_iff _ _ _ (k, k + s.length)).mp
        (fun hinside => h ⟨k, hinside.1, hocc, hinside.2⟩)

instance (self : SecretScrubber) (s t : Text) : Decidable (self.Undivided s t) :=
  decidable_of_iff _ undivided_iff.symm

end SecretScrubber

namespace StreamScrubber

/-- At every push of the chunks the occurrences of `s` in the buffered output stay whole. -/
def KeepsWhole (scrubber : SecretScrubber) (s : Text) : StreamScrubber → List Str → Prop
  | _, [] => True
  | self, chunk :: chunks =>
      (∀ t ∈ self.buffered chunk.bytes, scrubber.Undivided s t) ∧
        KeepsWhole scrubber s (push scrubber self chunk.bytes).2 chunks

instance decidableKeepsWhole (scrubber : SecretScrubber) (s : Text) :
    ∀ (self : StreamScrubber) (chunks : List Str), Decidable (KeepsWhole scrubber s self chunks)
  | _, [] => inferInstanceAs (Decidable True)
  | self, chunk :: chunks =>
      have := decidableKeepsWhole scrubber s (push scrubber self chunk.bytes).2 chunks
      inferInstanceAs (Decidable (_ ∧ _))

/-- What holds between two pushes, when `out` is the output so far. -/
structure Sealed (s out : Text) (stream : StreamScrubber) : Prop where
  clean : Clean s out stream.pending
  valid : Valid stream.pending

theorem sealed_new {s : Text} (hs : s ≠ []) : Sealed s [] new :=
  ⟨.start hs [], valid_nil⟩

theorem divides_of_append {s t u v : Text} {b : Nat} (huv : s = u ++ v) (hu : u ≠ [])
    (hv : v ≠ []) (hsuf : u <:+ t.take b) (hpre : v <+: t.drop b) : (Cut.split b).Divides s t := by
  have h1 := List.length_pos_iff.mpr hu
  have h2 := List.length_pos_iff.mpr hv
  have hle := hsuf.length_le
  rw [List.length_take] at hle
  obtain ⟨a, ha⟩ := hsuf
  obtain ⟨z, hz⟩ := hpre
  have htext : t = a ++ (u ++ (v ++ z)) := by
    rw [← List.append_assoc, ha, hz, List.take_append_drop]
  have hb : a.length + u.length = b := by
    rw [← List.length_append, ha, List.length_take_of_le]
    by_contra hlt
    rw [List.drop_eq_nil_of_le (by omega)] at hz
    exact hv (List.append_eq_nil_iff.mp hz).1
  refine ⟨a.length, by omega, ⟨z, ?_⟩, by rw [huv, List.length_append]; omega⟩
  rw [htext, List.drop_left, huv, List.append_assoc]

/-- The rest that a split leaves cannot go on an occurrence of the secret: had the secret
started before, more would have been held back. -/
theorem seam_of_split {scrubber : SecretScrubber} {s : Str} (hmem : s ∈ scrubber.secrets) {t : Text}
    (ht : Valid t) {b : Nat} (hcut : scrubber.cut t = .split b) (hw : scrubber.Undivided s.bytes t)
    {u v : Text} (huv : s.bytes = u ++ v) (hu : u ≠ []) (hv : v ≠ []) (hsuf : u <:+ t.take b) :
    ¬ v <+: t.drop b ∧ ¬ t.drop b <+: v := by
  have hno : ¬ v <+: t.drop b := by
    intro hpre
    rw [undivided_iff, hcut] at hw
    exact hw (divides_of_append huv hu hv hsuf hpre)
  refine ⟨hno, fun hpre => ?_⟩
  obtain ⟨w, rfl⟩ := hpre
  have hw0 : w ≠ [] := by
    rintro rfl
    exact hno (by simp)
  obtain ⟨hb, -, hheld⟩ := cut_split ht hcut
  -- the started secret is the suffix `u ++ t.drop b` of the text
  have hstart : s.bytes.take (u.length + (t.length - b)) <:+ t := by
    have heq : s.bytes.take (u.length + (t.length - b)) = u ++ t.drop b := by
      rw [huv, List.take_length_add_append, List.take_left' (by rw [List.length_drop])]
    obtain ⟨z, hz⟩ := hsuf
    exact ⟨z, by rw [heq, ← List.append_assoc, hz, List.take_append_drop]⟩
  have hlen : u.length + (t.length - b) < s.bytes.length := by
    have := List.length_pos_iff.mpr hw0
    rw [huv, List.length_append, List.length_append, List.length_drop]
    omega
  have h1 := le_suffixPrefixLen ht hlen hstart
  have h2 := hheld s hmem
  have := List.length_pos_iff.mpr hu
  omega

/-- **A push keeps the secret sealed**, where it leaves its occurrences undivided. -/
theorem push_sealed {scrubber : SecretScrubber} {s : Str} (hmem : s ∈ scrubber.secrets)
    (hs : Plain s.bytes) {self : StreamScrubber} {out : Text} (h : Sealed s.bytes out self)
    (chunk : Str) (hw : ∀ t ∈ self.buffered chunk.bytes, scrubber.Undivided s.bytes t) :
    Sealed s.bytes (out ++ (push scrubber self chunk.bytes).1)
      (push scrubber self chunk.bytes).2 := by
  rcases push_cases scrubber self chunk.bytes with
    ⟨-, -, heq⟩ | ⟨t, b, hbuf, hcut, heq⟩ | ⟨t, start, hbuf, hcut, heq⟩
  · rw [heq, List.append_nil]
    exact h
  · obtain ⟨more, hmore, rfl⟩ := buffered_spec chunk.valid hbuf
    have ht := h.valid.append hmore
    obtain ⟨hb, hbound, -⟩ := cut_split ht hcut
    rw [heq]
    exact ⟨h.clean.emit hs.free (List.take_append_drop b _).symm (scrub_scrubbed scrubber _)
      (not_infix_scrub hmem hs _) (fun u v => seam_of_split hmem ht hcut (hw _ hbuf)),
      (ht.split hb hbound).2⟩
  · obtain ⟨more, hmore, rfl⟩ := buffered_spec chunk.valid hbuf
    rw [heq, marker_eq]
    exact ⟨h.clean.emit_marker hs.free hs.word (List.take_append_drop start _).symm
      (scrub_scrubbed scrubber _) (not_infix_scrub hmem hs _) [], valid_nil⟩

/-- Flushing what is held back shows no secret. -/
theorem finish_sealed {scrubber : SecretScrubber} {s : Str} (hmem : s ∈ scrubber.secrets)
    (hs : Plain s.bytes) {self : StreamScrubber} {out : Text} (h : Sealed s.bytes out self) :
    ¬ s.bytes <:+: out ++ (finish scrubber self).1 :=
  h.clean.not_infix_append hs.free (rfl : self.pending ++ [] = self.pending ++ [])
    (scrub_scrubbed scrubber _) (not_infix_scrub hmem hs _)

theorem not_infix_run_of_sealed {scrubber : SecretScrubber} {s : Str}
    (hmem : s ∈ scrubber.secrets) (hs : Plain s.bytes) (chunks : List Str) :
    ∀ {self : StreamScrubber} {out : Text}, Sealed s.bytes out self →
      KeepsWhole scrubber s.bytes self chunks → ¬ s.bytes <:+: out ++ run scrubber self chunks := by
  induction chunks with
  | nil =>
      intro self out h _
      exact finish_sealed hmem hs h
  | cons chunk chunks ih =>
      rintro self out h ⟨hw, hrest⟩
      rw [run, ← List.append_assoc]
      exact ih (push_sealed hmem hs h chunk hw) hrest

/-- **Streaming shows no exact secret**, in a run where every push leaves the occurrences in the
buffered output undivided. -/
theorem not_infix_run {scrubber : SecretScrubber} {s : Str} (hmem : s ∈ scrubber.secrets)
    (hs : Plain s.bytes) (chunks : List Str) (hw : KeepsWhole scrubber s.bytes new chunks) :
    ¬ s.bytes <:+: run scrubber new chunks :=
  not_infix_run_of_sealed hmem hs chunks (sealed_new hs.ne_nil) hw

/-- A secret that arrives in two chunks. -/
theorem not_infix_run_split :
    ¬ (Str.ofChars "tok-12345".toList).bytes <:+: run ⟨[.ofChars "tok-12345".toList], []⟩ new
      [.ofChars "a tok-1".toList, .ofChars "2345\n".toList] :=
  not_infix_run List.mem_cons_self ⟨by decide, by decide, by decide⟩ _ (by decide)

/-- **A secret shown in full.** One push of `abcdef!hij` splits inside `abcde`: the range of
`f!hij`, which touches the end, draws the split point before the `f`, and then the range of
`def!h` draws it before the `d`. -/
theorem infix_run_crossing :
    Str.ofChars "abcde".toList ∈ crossing.secrets ∧
      Plain (Str.ofChars "abcde".toList).bytes ∧
      (Str.ofChars "abcde".toList).bytes <:+:
        run crossing new [.ofChars "abcdef!hij".toList] :=
  ⟨List.mem_cons_self, ⟨by decide, by decide, by decide⟩, by decide⟩

end StreamScrubber

end TurboCi
