import TurboCi.Lib.Utf8Lossy

set_option autoImplicit false

/-! # Decoding output in chunks

`Utf8Decoder` of `runner_daemon/executor.rs`, which reads what a script writes. An incomplete
character at the end of a chunk is kept for the next one, but not after bytes that are invalid:
then everything is decoded at once. So the text depends on the chunks just where an invalid
byte and a character that the chunk cuts come together (`decodeAll_eq_iff`).
-/

namespace TurboCi

open Utf8

/-- Decodes a byte stream, which comes in chunks, to UTF-8. -/
structure Utf8Decoder where
  pending : List UInt8 := []
  deriving DecidableEq

namespace Utf8Decoder

/-- `pending.split_off(valid)`, and the string of what comes before; not valid bytes would give
the empty string. -/
def splitOff (pending : List UInt8) (valid : Nat) : List UInt8 × Utf8Decoder :=
  match fromUtf8 (pending.take valid) with
  | .ok () => (pending.take valid, ⟨pending.drop valid⟩)
  | .error _ => ([], ⟨pending.drop valid⟩)

def decode (decoder : Utf8Decoder) (bytes : List UInt8) : List UInt8 × Utf8Decoder :=
  let pending := decoder.pending ++ bytes
  match fromUtf8 pending with
  | .ok () => splitOff pending pending.length
  -- an incomplete character at the end is kept for the next chunk
  | .error ⟨validUpTo, none⟩ => splitOff pending validUpTo
  | .error ⟨_, some _⟩ => (fromUtf8Lossy pending, ⟨[]⟩)

def finish (decoder : Utf8Decoder) : List UInt8 × Utf8Decoder :=
  (fromUtf8Lossy decoder.pending, ⟨[]⟩)

/-- The text of all chunks. -/
def decodeAll (decoder : Utf8Decoder) : List (List UInt8) → List UInt8
  | [] => decoder.finish.1
  | bytes :: rest => (decoder.decode bytes).1 ++ decodeAll (decoder.decode bytes).2 rest

/-! ## One chunk -/

variable {decoder : Utf8Decoder} {bytes : List UInt8}

theorem decode_of_ok (h : fromUtf8 (decoder.pending ++ bytes) = .ok ()) :
    decoder.decode bytes = (decoder.pending ++ bytes, ⟨[]⟩) := by
  unfold decode splitOff
  simp only [h, List.take_length, List.drop_length]

theorem decode_of_incomplete {v : Nat}
    (h : fromUtf8 (decoder.pending ++ bytes) = .error ⟨v, none⟩) :
    decoder.decode bytes =
      ((decoder.pending ++ bytes).take v, ⟨(decoder.pending ++ bytes).drop v⟩) := by
  unfold decode splitOff
  simp only [h, fromUtf8_take h]

theorem decode_of_invalid {v n : Nat}
    (h : fromUtf8 (decoder.pending ++ bytes) = .error ⟨v, some n⟩) :
    decoder.decode bytes = (fromUtf8Lossy (decoder.pending ++ bytes), ⟨[]⟩) := by
  unfold decode
  simp only [h]

/-- What is decoded and what is kept, before more bytes. -/
theorem decode_append (more : List UInt8)
    (h : ∀ v n, fromUtf8 (decoder.pending ++ bytes) = .error ⟨v, some n⟩ →
      ¬ Cuts (decoder.pending ++ bytes) more) :
    fromUtf8Lossy (decoder.pending ++ bytes ++ more) =
      (decoder.decode bytes).1 ++ fromUtf8Lossy ((decoder.decode bytes).2.pending ++ more) := by
  cases hcheck : fromUtf8 (decoder.pending ++ bytes) with
  | ok _ =>
      rw [decode_of_ok hcheck, fromUtf8Lossy_append_of_valid hcheck]
      rfl
  | error e =>
      obtain ⟨v, len⟩ := e
      cases len with
      | none =>
          have hsplit := fromUtf8Lossy_append_of_valid (fromUtf8_take hcheck)
            ((decoder.pending ++ bytes).drop v ++ more)
          rw [← List.append_assoc, List.take_append_drop] at hsplit
          rw [decode_of_incomplete hcheck, hsplit]
      | some n =>
          rw [decode_of_invalid hcheck, fromUtf8Lossy_append (h v n hcheck)]
          rfl

/-! ## All chunks -/

/-- Wherever bytes that hold something invalid are decoded, the stream does not go on with a
character that they end in. -/
def KeepsCharacters (decoder : Utf8Decoder) : List (List UInt8) → Prop
  | [] => True
  | bytes :: rest =>
      (∀ v n, fromUtf8 (decoder.pending ++ bytes) = .error ⟨v, some n⟩ →
        ¬ Cuts (decoder.pending ++ bytes) rest.flatten) ∧
      KeepsCharacters (decoder.decode bytes).2 rest

theorem decodeAll_of_keeps {chunks : List (List UInt8)} :
    ∀ {decoder : Utf8Decoder}, KeepsCharacters decoder chunks →
      decodeAll decoder chunks = fromUtf8Lossy (decoder.pending ++ chunks.flatten) := by
  induction chunks with
  | nil =>
      intro decoder _
      rw [List.flatten_nil, List.append_nil]
      rfl
  | cons bytes rest ih =>
      intro decoder h
      calc decodeAll decoder (bytes :: rest)
          = (decoder.decode bytes).1 ++
              fromUtf8Lossy ((decoder.decode bytes).2.pending ++ rest.flatten) := by
            rw [decodeAll, ih h.2]
        _ = fromUtf8Lossy (decoder.pending ++ bytes ++ rest.flatten) :=
            (decode_append rest.flatten h.1).symm
        _ = fromUtf8Lossy (decoder.pending ++ (bytes :: rest).flatten) := by
            rw [List.flatten_cons, List.append_assoc]

/-- The chunks give at least the characters of the stream, and more where one is broken. -/
theorem firsts_decodeAll {chunks : List (List UInt8)} : ∀ decoder : Utf8Decoder,
    firsts (fromUtf8Lossy (decoder.pending ++ chunks.flatten)) ≤
        firsts (decodeAll decoder chunks) ∧
      (¬ KeepsCharacters decoder chunks →
        firsts (fromUtf8Lossy (decoder.pending ++ chunks.flatten)) <
          firsts (decodeAll decoder chunks)) := by
  induction chunks with
  | nil =>
      intro decoder
      refine ⟨?_, fun h => absurd trivial h⟩
      rw [List.flatten_nil, List.append_nil]
      exact le_refl _
  | cons bytes rest ih =>
      intro decoder
      have hrest := ih (decoder.decode bytes).2
      have hall : firsts (decodeAll decoder (bytes :: rest)) =
          firsts (decoder.decode bytes).1 + firsts (decodeAll (decoder.decode bytes).2 rest) := by
        rw [decodeAll, firsts_append]
      rw [List.flatten_cons, ← List.append_assoc, hall]
      by_cases hcut : ∃ v n, fromUtf8 (decoder.pending ++ bytes) = .error ⟨v, some n⟩ ∧
        Cuts (decoder.pending ++ bytes) rest.flatten
      · obtain ⟨v, n, hcheck, hcuts⟩ := hcut
        have hlt := firsts_append_lt hcuts
        have hdecode := decode_of_invalid hcheck
        rw [hdecode] at hrest ⊢
        have hle : firsts (fromUtf8Lossy rest.flatten) ≤ firsts (decodeAll ⟨[]⟩ rest) := hrest.1
        dsimp only
        exact ⟨by omega, fun _ => by omega⟩
      · have hkeep : ∀ v n, fromUtf8 (decoder.pending ++ bytes) = .error ⟨v, some n⟩ →
            ¬ Cuts (decoder.pending ++ bytes) rest.flatten :=
          fun v n hcheck hcuts => hcut ⟨v, n, hcheck, hcuts⟩
        rw [decode_append rest.flatten hkeep, firsts_append]
        refine ⟨by omega, fun h => ?_⟩
        have hlt := hrest.2 fun hkeeps => h ⟨hkeep, hkeeps⟩
        omega

/-- **The text is that of the whole stream just if no chunk that holds something invalid breaks
a character.** -/
theorem decodeAll_eq_iff (chunks : List (List UInt8)) :
    decodeAll {} chunks = fromUtf8Lossy chunks.flatten ↔ KeepsCharacters {} chunks := by
  constructor
  · intro h
    by_contra hkeeps
    have hlt := (firsts_decodeAll {}).2 hkeeps
    rw [h] at hlt
    exact lt_irrefl _ hlt
  · exact fun h => decodeAll_of_keeps h

/-- The end of `✓` comes after a chunk with a byte that is in no character. -/
theorem decodeAll_broken :
    decodeAll {} [[0xFF, 0xE2], [0x9C, 0x93]] ≠ fromUtf8Lossy [0xFF, 0xE2, 0x9C, 0x93] := by
  decide

/-- **A stream of valid bytes is decoded as it is**, wherever it is cut. -/
theorem decodeAll_of_valid {chunks : List (List UInt8)} : ∀ {decoder : Utf8Decoder},
    fromUtf8 (decoder.pending ++ chunks.flatten) = .ok () →
      decodeAll decoder chunks = decoder.pending ++ chunks.flatten := by
  induction chunks with
  | nil =>
      intro decoder h
      rw [List.flatten_nil, List.append_nil] at h ⊢
      have hself := fromUtf8Lossy_append_of_valid h []
      rw [List.append_nil] at hself
      rw [decodeAll, finish, hself]
      exact List.append_nil _
  | cons bytes rest ih =>
      intro decoder h
      rw [List.flatten_cons, ← List.append_assoc] at h ⊢
      rw [decodeAll]
      cases hcheck : fromUtf8 (decoder.pending ++ bytes) with
      | ok _ =>
          have hrest : fromUtf8 ((⟨[]⟩ : Utf8Decoder).pending ++ rest.flatten) = .ok () :=
            fromUtf8_of_append hcheck h
          rw [decode_of_ok hcheck, ih hrest]
          rfl
      | error e =>
          obtain ⟨v, len⟩ := e
          cases len with
          | none =>
              rw [← List.take_append_drop v (decoder.pending ++ bytes), List.append_assoc] at h
              have hrest : fromUtf8 ((⟨(decoder.pending ++ bytes).drop v⟩ : Utf8Decoder).pending ++
                  rest.flatten) = .ok () := fromUtf8_of_append (fromUtf8_take hcheck) h
              rw [decode_of_incomplete hcheck, ih hrest, ← List.append_assoc,
                List.take_append_drop]
          | some n => exact absurd h (fromUtf8_append_ne hcheck)

end Utf8Decoder

end TurboCi
