import TurboCi.Security.Cut
import TurboCi.RunnerDaemon.Trace

set_option autoImplicit false

/-! # The limit of the job log

`TraceWriter::append` stops collecting at the limit. Its cut is made with the room that the texts
before have left, and yet what is kept of all texts together is their longest prefix within the
limit that ends between characters (`trace_appendAll`): `Kept` is what every append keeps true.
-/

namespace TurboCi

open Utf8 SecretScrubber

/-- The first `p` bytes are the longest part within the limit that ends between characters. -/
structure LongestWithin (t : Text) (limit p : Nat) : Prop where
  within : p ≤ limit
  le : p ≤ t.length
  boundary : isCharBoundary t p = true
  longest : ∀ q ≤ limit, q ≤ t.length → isCharBoundary t q = true → q ≤ p

theorem le_floorCharBoundary {t : Text} {q : Nat} (hq : isCharBoundary t q = true) :
    ∀ {i : Nat}, q ≤ i → q ≤ floorCharBoundary t i
  | 0, h => h
  | i + 1, h => by
      unfold floorCharBoundary
      split
      · exact h
      · next hno =>
          have hne : q ≠ i + 1 := fun heq => hno (heq ▸ hq)
          exact le_floorCharBoundary hq (by omega)

/-- A text that is added changes no boundary before the end. -/
theorem isCharBoundary_append_left {t : Text} (u : Text) {q : Nat} (h : q < t.length) :
    isCharBoundary (t ++ u) q = isCharBoundary t q := by
  have hget : (t ++ u)[q]? = t[q]? := List.getElem?_append_left h
  have hsome : t[q]? = some t[q] := List.getElem?_eq_getElem h
  unfold isCharBoundary
  rw [hget, hsome]

theorem isCharBoundary_append_right (t u : Text) {j : Nat} (hj : 0 < j) :
    isCharBoundary (t ++ u) (t.length + j) = isCharBoundary u j := by
  have hget : (t ++ u)[t.length + j]? = u[j]? := by
    rw [List.getElem?_append_right (by omega), Nat.add_sub_cancel_left]
  unfold isCharBoundary
  rw [hget]
  cases u[j]? with
  | none => simp
  | some b =>
      have hzero : (t.length + j == 0) = (j == 0) := by
        rw [Bool.eq_iff_iff, beq_iff_eq, beq_iff_eq]
        omega
      rw [hzero]

theorem LongestWithin.append {t : Text} {limit p : Nat} (h : LongestWithin t limit p)
    (hlimit : limit < t.length) (u : Text) : LongestWithin (t ++ u) limit p where
  within := h.within
  le := by
    have hle := h.le
    rw [List.length_append]
    omega
  boundary := by
    have hp := h.within
    rw [isCharBoundary_append_left u (by omega)]
    exact h.boundary
  longest q hq _ hb := by
    rw [isCharBoundary_append_left u (by omega)] at hb
    exact h.longest q hq (by omega) hb

/-- A text that exceeds the room is cut between characters, as near to the limit as possible. -/
theorem longestWithin_append {t u : Text} (ht : Valid t) (hu : Valid u) {limit : Nat}
    (hfits : t.length ≤ limit) (hlimit : limit < (t ++ u).length) :
    LongestWithin (t ++ u) limit (t.length + floorCharBoundary u (limit - t.length)) := by
  obtain ⟨hle, hboundary⟩ := floorCharBoundary_spec u (limit - t.length)
  rw [List.length_append] at hlimit
  refine ⟨by omega, by rw [List.length_append]; omega, ?_, fun q hq hqle hb => ?_⟩
  · by_cases hzero : floorCharBoundary u (limit - t.length) = 0
    · rw [hzero]
      exact Valid.isCharBoundary_append ht (ht.append hu)
    · rw [isCharBoundary_append_right t u (by omega)]
      exact hboundary
  · by_cases hbefore : q ≤ t.length
    · omega
    · obtain ⟨j, rfl⟩ := Nat.exists_eq_add_of_le (Nat.le_of_not_le hbefore)
      rw [isCharBoundary_append_right t u (by omega)] at hb
      have hj := le_floorCharBoundary (i := limit - t.length) hb (by omega)
      omega

namespace TraceWriter

/-- Where an append slices its text, if it does. -/
def sliceAt (self : TraceWriter) (text : Text) : Option Nat :=
  if self.truncated ∨ text.length ≤ self.limit - self.trace.length then none
  else some (floorCharBoundary text (self.limit - self.trace.length))

/-- **No append slices out of range or inside a character.** -/
theorem sliceAt_boundary {self : TraceWriter} {text : Text} {cut : Nat}
    (h : self.sliceAt text = some cut) :
    cut ≤ text.length ∧ isCharBoundary text cut = true := by
  rw [sliceAt] at h
  split at h
  · cases h
  · next hroom =>
      obtain rfl := Option.some.inj h
      obtain ⟨hle, hboundary⟩ :=
        floorCharBoundary_spec text (self.limit - self.trace.length)
      have hlong := (not_or.mp hroom).2
      exact ⟨by omega, hboundary⟩

/-- The writer after appending texts. -/
def appendAll (self : TraceWriter) (texts : List Str) : TraceWriter :=
  texts.foldl (fun self text => self.append text.bytes) self

/-- What the writer has kept of the output. -/
structure Kept (limit : Nat) (output : Text) (writer : TraceWriter) : Prop where
  sameLimit : writer.limit = limit
  whole : output.length ≤ limit → writer.truncated = false ∧ writer.trace = output
  cut : limit < output.length → writer.truncated = true ∧
    ∃ p, LongestWithin output limit p ∧ writer.trace = output.take p ++ limitNotice limit

/-- **One append keeps it.** -/
theorem Kept.append {limit : Nat} {output : Text} {self : TraceWriter}
    (h : Kept limit output self) (houtput : Valid output) (text : Str) :
    Kept limit (output ++ text.bytes) (self.append text.bytes) := by
  by_cases hfits : output.length ≤ limit
  · obtain ⟨hopen, htrace⟩ := h.whole hfits
    -- either the whole text fits in the room that is left, or this is the text that is cut
    by_cases hroom : text.bytes.length ≤ self.limit - self.trace.length
    · have happend : self.append text.bytes =
          { self with trace := self.trace ++ text.bytes } := by
        unfold TraceWriter.append
        simp only [hopen, Bool.false_eq_true, if_false, if_pos hroom]
      rw [h.sameLimit, htrace] at hroom
      rw [happend]
      refine ⟨h.sameLimit, fun _ => ⟨hopen, by rw [htrace]⟩, fun hlong => ?_⟩
      rw [List.length_append] at hlong
      omega
    · have happend : self.append text.bytes =
          { self with
            trace := self.trace ++
              text.bytes.take (floorCharBoundary text.bytes (self.limit - self.trace.length)) ++
              limitNotice self.limit
            truncated := true } := by
        unfold TraceWriter.append
        simp only [hopen, Bool.false_eq_true, if_false, if_neg hroom]
      rw [h.sameLimit, htrace] at happend hroom
      have hlong : limit < (output ++ text.bytes).length := by
        rw [List.length_append]
        omega
      rw [happend]
      refine ⟨rfl, fun hshort => absurd hshort (by omega), fun _ => ⟨rfl, _,
        longestWithin_append houtput text.valid hfits hlong, ?_⟩⟩
      rw [List.take_length_add_append]
  · -- nothing is kept after the cut
    obtain ⟨htruncated, p, hp, htrace⟩ := h.cut (by omega)
    have happend : self.append text.bytes = self := by
      unfold TraceWriter.append
      rw [if_pos htruncated]
    rw [happend]
    refine ⟨h.sameLimit, fun hshort => ?_, fun _ => ⟨htruncated, p, hp.append (by omega) _, ?_⟩⟩
    · rw [List.length_append] at hshort
      omega
    · rw [htrace, List.take_append_of_le_length hp.le]

theorem kept_appendAll {limit : Nat} {texts : List Str} :
    ∀ {output : Text} {self : TraceWriter}, Kept limit output self → Valid output →
      Kept limit (output ++ (texts.map Str.bytes).flatten) (self.appendAll texts) := by
  induction texts with
  | nil =>
      intro output self h _
      rw [List.map_nil, List.flatten_nil, List.append_nil]
      exact h
  | cons text texts ih =>
      intro output self h houtput
      rw [List.map_cons, List.flatten_cons, ← List.append_assoc]
      exact ih (h.append houtput text) (houtput.append text.valid)

/-- **The log is the output, or its longest prefix within the limit and the notice**, and no
append slices a text out of range or inside a character. -/
theorem trace_appendAll (limit : Nat) (texts : List Str) :
    ((texts.map Str.bytes).flatten.length ≤ limit →
      (appendAll { limit := limit } texts).trace = (texts.map Str.bytes).flatten) ∧
    (limit < (texts.map Str.bytes).flatten.length →
      ∃ p, LongestWithin (texts.map Str.bytes).flatten limit p ∧
        (appendAll { limit := limit } texts).trace =
          (texts.map Str.bytes).flatten.take p ++ limitNotice limit) ∧
    ∀ front text back, texts = front ++ text :: back →
      ∀ cut, (appendAll { limit := limit } front).sliceAt text.bytes = some cut →
        cut ≤ text.bytes.length ∧ isCharBoundary text.bytes cut = true := by
  have hstart : Kept limit [] { limit := limit } :=
    ⟨rfl, fun _ => ⟨rfl, rfl⟩, fun h => absurd h (Nat.not_lt_zero limit)⟩
  have hkept : Kept limit (texts.map Str.bytes).flatten (appendAll { limit := limit } texts) :=
    kept_appendAll hstart valid_nil
  refine ⟨fun h => (hkept.whole h).2, fun h => (hkept.cut h).2, ?_⟩
  intro front text back _ cut hcut
  exact sliceAt_boundary hcut

end TraceWriter

end TurboCi
