import TurboCi.Security.Cut

set_option autoImplicit false

/-! # Where the pass over the matches ends

`push` draws the point where it splits the buffered output back in one pass over the match
ranges, in the order of `match_ranges`. The point can get to the starts of those ranges that
follow one another in this order (`Pulled`), and the pass finds the first of these starts
(`pulled_drawBack`, `drawBack_le`). So it ends strictly inside a range just if a start inside
the range can be reached, but nothing at or before the start of the range
(`not_inside_iff`).
-/

namespace TurboCi

open Masking Utf8

/-- From `b` the position `x` is reached over ranges in their order, each around the start of the
one before, or up to the end of the text. -/
inductive Pulled (len : Nat) : List Range → Nat → Nat → Prop where
  | stay {ranges : List Range} {b : Nat} : Pulled len ranges b b
  | skip {r : Range} {ranges : List Range} {b x : Nat} :
      Pulled len ranges b x → Pulled len (r :: ranges) b x
  | pull {r : Range} {ranges : List Range} {b x : Nat} : r.1 < b → b < r.2 ∨ r.2 = len →
      Pulled len ranges r.1 x → Pulled len (r :: ranges) b x

namespace SecretScrubber

variable {len b x : Nat} {ranges : List Range}

theorem drawBack_cons (len b : Nat) (r : Range) (ranges : List Range) :
    drawBack len b (r :: ranges) =
      drawBack len (if r.1 < b ∧ (b < r.2 ∨ r.2 = len) then r.1 else b) ranges := rfl

/-- The pass takes one of the ways. -/
theorem pulled_drawBack (len : Nat) (ranges : List Range) (b : Nat) :
    Pulled len ranges b (drawBack len b ranges) := by
  induction ranges generalizing b with
  | nil => exact .stay
  | cons r ranges ih =>
      rw [drawBack_cons]
      split
      · next hmove => exact .pull hmove.1 hmove.2 (ih r.1)
      · exact .skip (ih b)

/-- No way leads further than the pass, also where the pass begins further on. -/
theorem drawBack_le (h : Pulled len ranges b x) :
    ∀ {c : Nat}, c ≤ b → drawBack len c ranges ≤ x := by
  induction h with
  | stay => exact fun hc => (drawBack_spec _ _ _).1.trans hc
  | skip _ ih =>
      intro c hc
      rw [drawBack_cons]
      split
      · next hmove => exact ih (hmove.1.le.trans hc)
      · exact ih hc
  | @pull r ranges b x hlt hcover _ ih =>
      intro c hc
      rw [drawBack_cons]
      split
      · exact ih (le_refl r.1)
      · next hstay =>
          -- the pass is already before the range
          have hbefore : c ≤ r.1 := by
            by_contra hafter
            exact hstay ⟨by omega, hcover.imp_left fun hb => by omega⟩
          exact ih hbefore

/-- **Where the pass does not end inside a range.** -/
theorem not_inside_drawBack_iff (len b : Nat) (ranges : List Range) (r : Range) :
    ¬ Inside (drawBack len b ranges) r ↔
      ∀ x, Pulled len ranges b x → Inside x r → ∃ y, Pulled len ranges b y ∧ y ≤ r.1 := by
  constructor
  · intro h x hx hinside
    refine ⟨drawBack len b ranges, pulled_drawBack len ranges b, ?_⟩
    have hle : drawBack len b ranges ≤ x := drawBack_le hx (le_refl b)
    by_contra hafter
    exact h ⟨by omega, by have := hinside.2; omega⟩
  · intro h hinside
    obtain ⟨y, hy, hle⟩ := h _ (pulled_drawBack len ranges b) hinside
    have hmin : drawBack len b ranges ≤ y := drawBack_le hy (le_refl b)
    have hstart := hinside.1
    omega

theorem not_inside_iff (len b : Nat) (ranges : List Range) :
    (∀ r ∈ ranges, ¬ Inside (drawBack len b ranges) r) ↔
      ∀ x, Pulled len ranges b x → ∀ r ∈ ranges, Inside x r →
        ∃ y, Pulled len ranges b y ∧ y ≤ r.1 := by
  simp only [not_inside_drawBack_iff]
  exact ⟨fun h x hx r hr => h r hr x hx, fun h r hr x hx => h x hx r hr⟩

/-- Where the last range of a way begins, later ranges are taken into account. -/
theorem drawBack_inside {r : Range} (h : Inside (drawBack len b ranges) r) (hr : r ∈ ranges) :
    ∃ front back, ranges = front ++ back ∧ r ∈ front ∧ ∃ q ∈ back, q.1 = drawBack len b ranges := by
  induction ranges generalizing b with
  | nil => cases hr
  | cons q ranges ih =>
      rw [drawBack_cons] at h ⊢
      rcases List.mem_cons.mp hr with rfl | hr
      · -- the pass has moved after it looked at the range
        refine ⟨[r], ranges, rfl, List.mem_singleton_self r, ?_⟩
        have hspec := drawBack_spec len ranges
          (if r.1 < b ∧ (b < r.2 ∨ r.2 = len) then r.1 else b)
        rcases hspec.2 with hsame | ⟨q, hq, hstart⟩
        · rw [hsame] at h
          split at h
          · exact absurd h.1 (lt_irrefl _)
          · next hstay => exact absurd ⟨h.1, .inl h.2⟩ hstay
        · exact ⟨q, hq, hstart.symm⟩
      · obtain ⟨front, back, rfl, hfront, hback⟩ := ih h hr
        exact ⟨q :: front, back, rfl, List.mem_cons_of_mem q hfront, hback⟩

/-- Ranges that begin inside no range before them are enough. -/
theorem not_inside_of_pairwise (h : ranges.Pairwise fun r q => ¬ Inside q.1 r) :
    ∀ r ∈ ranges, ¬ Inside (drawBack len b ranges) r := by
  intro r hr hinside
  obtain ⟨front, back, rfl, hfront, q, hback, hq⟩ := drawBack_inside hinside hr
  refine (List.pairwise_append.mp h).2.2 r hfront q hback ?_
  rw [hq]
  exact hinside

/-- Where the held-back tail begins, before the matches are looked at. -/
def tailBoundary (self : SecretScrubber) (pending : Text) : Nat :=
  floorCharBoundary pending (pending.length - self.heldBack pending)

/-- The boundary after the pass over the matches. -/
def drawnBoundary (self : SecretScrubber) (pending : Text) : Nat :=
  drawBack pending.length (self.tailBoundary pending) (self.matchRanges pending)

theorem drawnBoundary_le (self : SecretScrubber) (pending : Text) :
    self.drawnBoundary pending ≤ pending.length :=
  calc self.drawnBoundary pending ≤ self.tailBoundary pending := (drawBack_spec _ _ _).1
    _ ≤ pending.length - self.heldBack pending := (floorCharBoundary_spec _ _).1
    _ ≤ pending.length := Nat.sub_le _ _

/-- The pass over the matches can get so far that more is left than may be held back. -/
def Overlong (self : SecretScrubber) (pending : Text) : Prop :=
  ∃ x, Pulled pending.length (self.matchRanges pending) (self.tailBoundary pending) x ∧
    self.limit < pending.length - x

theorem overlong_iff {self : SecretScrubber} {pending : Text} :
    self.Overlong pending ↔ self.limit < pending.length - self.drawnBoundary pending := by
  constructor
  · rintro ⟨x, hx, hlimit⟩
    have hle : self.drawnBoundary pending ≤ x := drawBack_le hx (le_refl _)
    omega
  · exact fun h => ⟨_, pulled_drawBack _ _ _, h⟩

theorem cut_of_within {self : SecretScrubber} {pending : Text}
    (h : pending.length - self.drawnBoundary pending ≤ self.limit) :
    self.cut pending = .split (self.drawnBoundary pending) :=
  if_neg (Nat.not_lt.mpr h)

/-- Beyond the limit a match at the end is swallowed, or else the limit cuts. -/
theorem cut_of_overlong {self : SecretScrubber} {pending : Text} (h : self.Overlong pending) :
    (∃ start, self.cut pending = .swallow start) ∧
        (∃ r ∈ self.matchRanges pending, r.2 = pending.length) ∨
      self.cut pending = .split (ceilCharBoundary pending (pending.length - self.limit)) ∧
        ∀ r ∈ self.matchRanges pending, r.2 ≠ pending.length := by
  have hlimit := overlong_iff.mp h
  generalize hcut : self.cut pending = c
  unfold cut at hcut
  simp only at hcut
  split at hcut
  · split at hcut
    · next start hmin =>
        left
        obtain ⟨r, hr, -⟩ := List.mem_map.mp (List.min?_mem hmin)
        rw [List.mem_filter, decide_eq_true_eq] at hr
        exact ⟨⟨start, hcut.symm⟩, r, hr⟩
    · next hmin =>
        right
        rw [List.min?_eq_none_iff, List.map_eq_nil_iff, List.filter_eq_nil_iff] at hmin
        exact ⟨hcut.symm, fun r hr => by simpa using hmin r hr⟩
  · next hwithin => exact absurd hlimit hwithin

end SecretScrubber

namespace StreamScrubber

open SecretScrubber

/-- The state after pushes. -/
def pushes (scrubber : SecretScrubber) (self : StreamScrubber) (chunks : List Str) :
    StreamScrubber :=
  chunks.foldl (fun self chunk => (push scrubber self chunk.bytes).2) self

/-- **A push cuts through no match just if the order of the matches leads far enough**, after any
pushes, where what is held back is within the limit. -/
theorem push_keeps_matches_iff {scrubber : SecretScrubber} {chunks : List Str} {chunk : Str}
    {t : Text} (ht : (pushes scrubber new chunks).buffered chunk.bytes = some t)
    (hlimit : t.length - scrubber.drawnBoundary t ≤ scrubber.limit) :
    (∃ b, push scrubber (pushes scrubber new chunks) chunk.bytes =
        (scrubber.scrub (t.take b), ⟨t.drop b, false⟩) ∧
      b = scrubber.drawnBoundary t ∧ ∀ r ∈ scrubber.matchRanges t, ¬ Inside b r) ↔
    ∀ x, Pulled t.length (scrubber.matchRanges t) (scrubber.tailBoundary t) x →
      ∀ r ∈ scrubber.matchRanges t, Inside x r →
        ∃ y, Pulled t.length (scrubber.matchRanges t) (scrubber.tailBoundary t) y ∧ y ≤ r.1 := by
  have hcut := cut_of_within hlimit
  have hpush : push scrubber (pushes scrubber new chunks) chunk.bytes =
      (scrubber.scrub (t.take (scrubber.drawnBoundary t)),
        ⟨t.drop (scrubber.drawnBoundary t), false⟩) := by
    rcases push_cases scrubber (pushes scrubber new chunks) chunk.bytes with
      ⟨hnone, -, -⟩ | ⟨t', b, hbuf, hsplit, heq⟩ | ⟨t', start, hbuf, hswallow, -⟩
    · rw [hnone] at ht
      cases ht
    · obtain rfl := Option.some.inj (ht.symm.trans hbuf)
      obtain rfl := Cut.split.inj (hcut.symm.trans hsplit)
      exact heq
    · obtain rfl := Option.some.inj (ht.symm.trans hbuf)
      rw [hcut] at hswallow
      cases hswallow
  rw [← not_inside_iff]
  constructor
  · rintro ⟨b, -, rfl, hall⟩
    exact hall
  · exact fun hall => ⟨_, hpush, rfl, hall⟩

/-- A secret within a line, with a token after it. -/
theorem push_keeps_matches_line :
    ∃ b, push ⟨[.ofChars "tok-12345".toList], []⟩
        (pushes ⟨[.ofChars "tok-12345".toList], []⟩ new [])
        (Str.ofChars "a tok-12345 b".toList).bytes =
        (scrub ⟨[.ofChars "tok-12345".toList], []⟩
          ((Str.ofChars "a tok-12345 b".toList).bytes.take b),
          ⟨(Str.ofChars "a tok-12345 b".toList).bytes.drop b, false⟩) ∧
      b = drawnBoundary ⟨[.ofChars "tok-12345".toList], []⟩
        (Str.ofChars "a tok-12345 b".toList).bytes ∧
      ∀ r ∈ matchRanges ⟨[.ofChars "tok-12345".toList], []⟩
        (Str.ofChars "a tok-12345 b".toList).bytes, ¬ Inside b r := by
  refine (push_keeps_matches_iff (by decide) (by decide)).mpr ?_
  rw [← not_inside_iff]
  exact not_inside_of_pairwise (by decide)

/-- Three secrets of which the third overlaps the first two. -/
def crossing : SecretScrubber :=
  ⟨[.ofChars "abcde".toList, .ofChars "f!hij".toList, .ofChars "def!h".toList], []⟩

/-- The range of `abcde` comes first; then `f!hij` draws the boundary before the `f`, and `def!h`
before the `d`. -/
theorem push_cuts_crossing :
    push crossing new (Str.ofChars "abcdef!hij".toList).bytes =
        (crossing.scrub (encode "abc".toList), ⟨encode "def!hij".toList, false⟩) ∧
      (Str.ofChars "abcdef!hij".toList).bytes.length - 3 ≤ crossing.limit ∧
      (0, 5) ∈ crossing.matchRanges (Str.ofChars "abcdef!hij".toList).bytes ∧ Inside 3 (0, 5) := by
  decide

end StreamScrubber

end TurboCi
