import TurboCi.RunnerDaemon.Config

set_option autoImplicit false

/-! # Percent-decoding

`percent_decode` of `runner_daemon/s3.rs` reads the bytes of a text by their index and takes the
two bytes after a `%` with `str::get`, which gives nothing where it would cut a character. The
model of it (`percentDecodeFrom`) reads on from byte to byte; the loop over the index is
`percentDecodeLoop`, and the two agree on every text (`percentDecodeLoop_eq`).

The standard for it is `decodeEscapes`: a `%` and two hexadecimal digits stand for a byte. The
number parser of the source also takes a sign and one digit, so that `%+5` is decoded, and this
is all that keeps it from the standard (`percentDecode_exact_iff`).
-/

namespace TurboCi

open Utf8

namespace Config

/-! ## The loop over the bytes -/

/-- `str::get(i..j)` -/
def slice (text : List UInt8) (i j : Nat) : Option (List UInt8) :=
  if i ≤ j ∧ isCharBoundary text i ∧ isCharBoundary text j then some ((text.take j).drop i)
  else none

/-- `u8::from_str_radix(hex, 16)` for a slice of two bytes. -/
def readHex : List UInt8 → Option UInt8
  | [a, b] => fromStrRadix16 a b
  | _ => none

/-- The byte that an escape at `i` stands for. -/
def escapedAt (text : List UInt8) (i : Nat) : Option UInt8 :=
  if text[i]? = some 0x25 then (slice text (i + 1) (i + 3)).bind readHex else none

/-- The bytes that the loop of `percent_decode` pushes from `i` on. -/
def percentDecodeLoop (text : List UInt8) (i : Nat) : List UInt8 :=
  if h : i < text.length then
    match escapedAt text i with
    | some byte => byte :: percentDecodeLoop text (i + 3)
    | none => text[i] :: percentDecodeLoop text (i + 1)
  else []
termination_by text.length - i

/-- A slice is a text again: no character is cut. -/
theorem valid_slice {text part : List UInt8} {i j : Nat} (htext : Valid text)
    (h : slice text i j = some part) : Valid part := by
  unfold slice at h
  split at h
  · next hbounds =>
      obtain ⟨hij, hi, hj⟩ := hbounds
      obtain rfl := Option.some.inj h
      have hle : ∀ k, isCharBoundary text k = true → k ≤ text.length := by
        intro k hk
        by_contra hlt
        have hnone : text[k]? = none := List.getElem?_eq_none (by omega)
        simp only [isCharBoundary, hnone, beq_iff_eq] at hk
        omega
      have hrest : Valid (text.drop i) := (htext.split (hle i hi) hi).2
      have hend : isCharBoundary (text.drop i) (j - i) = true := by
        apply isCharBoundary_of_valid_drop
        · have := hle j hj
          rw [List.length_drop]
          omega
        · rw [List.drop_drop, Nat.add_sub_cancel' hij]
          exact (htext.split (hle j hj) hj).2
      have hlen : j - i ≤ (text.drop i).length := by
        have := hle j hj
        rw [List.length_drop]
        omega
      rw [List.drop_take]
      exact (hrest.split hlen hend).1
  · cases h

/-! ## Escapes in a text -/

theorem hexValue_ascii {b digit : UInt8} (h : hexValue b = some digit) : b < 0x80 := by
  have hall : (hexValue b).isSome → b < 0x80 :=
    forall_byte (p := fun b => (hexValue b).isSome → b < 0x80) (by decide +kernel) b
  exact hall (by rw [h]; rfl)

theorem hexValue_lt {b digit : UInt8} (h : hexValue b = some digit) : digit < 16 := by
  have hall : (hexValue b).all (· < 16) = true :=
    forall_byte (p := fun b => (hexValue b).all (· < 16) = true) (by decide +kernel) b
  rw [h] at hall
  exact of_decide_eq_true hall

/-- The byte that two hexadecimal digits stand for. -/
def hexPair (a b : UInt8) : Option UInt8 :=
  (hexValue a).bind fun high => (hexValue b).map fun low => 16 * high + low

theorem fromStrRadix16_eq (a b : UInt8) :
    fromStrRadix16 a b = if a = 0x2B then hexValue b else hexPair a b := rfl

/-- What is read as a number is ASCII. -/
theorem ascii_of_fromStrRadix16 {a b byte : UInt8} (h : fromStrRadix16 a b = some byte) :
    a < 0x80 ∧ b < 0x80 := by
  unfold fromStrRadix16 at h
  split at h
  · next ha =>
      rw [ha]
      exact ⟨by decide, hexValue_ascii h⟩
  · obtain ⟨high, hhigh, hlow⟩ := Option.bind_eq_some_iff.mp h
    obtain ⟨low, hlow, -⟩ := Option.map_eq_some_iff.mp hlow
    exact ⟨hexValue_ascii hhigh, hexValue_ascii hlow⟩

/-- After two bytes that are a number comes a character. -/
theorem escaped_of_valid {a b : UInt8} {rest : List UInt8} (h : Valid (a :: b :: rest)) :
    escaped (a :: b :: rest) = fromStrRadix16 a b := by
  show (if rest.head?.all isFirst then fromStrRadix16 a b else none) = fromStrRadix16 a b
  cases hnumber : fromStrRadix16 a b with
  | none => exact ite_self none
  | some byte =>
      obtain ⟨ha, hb⟩ := ascii_of_fromStrRadix16 hnumber
      have htail : Valid (b :: rest) := Valid.after_ascii (s := []) h ha
      have hrest : Valid rest := Valid.after_ascii (s := []) htail hb
      have hfirst : rest.head?.all isFirst = true := by
        cases rest with
        | nil => rfl
        | cons c rest => simpa using hrest.width_le.1
      rw [if_pos hfirst]

/-- The step of `percent_decode` at a byte that is no `%`. -/
theorem percentDecodeFrom_cons {b : UInt8} (hb : b ≠ 0x25) (rest : List UInt8) :
    percentDecodeFrom 0 (b :: rest) = b :: percentDecodeFrom 0 rest := by
  rw [percentDecodeFrom, if_neg hb]

theorem percentDecodeFrom_skip (k : Nat) (rest : List UInt8) :
    percentDecodeFrom k rest = percentDecodeFrom 0 (rest.drop k) := by
  induction k generalizing rest with
  | zero => rfl
  | succ k ih =>
      cases rest with
      | nil => rfl
      | cons b rest => exact ih rest

/-- **Induction over what is decoded**: a text is empty, or it begins with a byte that is kept,
or with an escape. -/
theorem percentDecodeFrom_induction {P : List UInt8 → List UInt8 → Prop} (hnil : P [] [])
    (hkept : ∀ b rest out,
      (b = 0x25 → ∀ a c more, rest = a :: c :: more → fromStrRadix16 a c = none) →
      P rest out → P (b :: rest) (b :: out))
    (hescape : ∀ a b rest byte out, fromStrRadix16 a b = some byte → P rest out →
      P (0x25 :: a :: b :: rest) (byte :: out)) :
    ∀ n u s, u.length ≤ n → Valid (s ++ u) → P u (percentDecodeFrom 0 u) := by
  intro n
  induction n with
  | zero =>
      intro u s hlen _
      rw [List.eq_nil_of_length_eq_zero (by omega : u.length = 0)]
      exact hnil
  | succ n ih =>
      intro u s hlen hs
      match u, hlen, hs with
      | [], _, _ => exact hnil
      | b :: rest, hlen, hs =>
          rw [List.length_cons] at hlen
          have hrest : P rest (percentDecodeFrom 0 rest) :=
            ih rest (s ++ [b]) (by omega) (by simpa using hs)
          cases hescaped : if b = 0x25 then escaped rest else none with
          | none =>
              rw [percentDecodeFrom, hescaped]
              apply hkept b rest _ _ hrest
              rintro rfl a c more rfl
              rw [if_pos rfl, escaped_of_valid (hs.after_ascii (by decide))] at hescaped
              exact hescaped
          | some byte =>
              rw [percentDecodeFrom, hescaped]
              by_cases hb : b = 0x25
              · subst hb
                have hvalid : Valid rest := hs.after_ascii (by decide)
                rw [if_pos rfl] at hescaped
                match rest, hlen, hvalid, hescaped with
                | a :: c :: rest, hlen, hvalid, hescaped =>
                    rw [escaped_of_valid hvalid] at hescaped
                    simp only [List.length_cons] at hlen
                    apply hescape a c rest byte _ hescaped
                    exact ih rest (s ++ [0x25, a, c]) (by omega) (by simpa using hs)
              · rw [if_neg hb] at hescaped
                cases hescaped

/-- The escape at an index is the one that the rest of the text begins with. -/
theorem escapedAt_eq {text : List UInt8} (htext : Valid text) {i : Nat} {b : UInt8}
    {rest : List UInt8} (hrest : text.drop i = b :: rest) :
    escapedAt text i = if b = 0x25 then escaped rest else none := by
  have hget : text[i]? = some b := by rw [← List.head?_drop, hrest]; rfl
  have hafter : text.drop (i + 1) = rest := by
    rw [← List.drop_drop, hrest]
    rfl
  have hlength : text.length - i = rest.length + 1 := by
    rw [← List.length_drop, hrest, List.length_cons]
  unfold escapedAt
  rw [hget]
  by_cases hb : b = 0x25
  · rw [if_pos (congrArg some hb), if_pos hb]
    have hvalid : Valid rest := by
      have hsplit : text = text.take i ++ b :: rest := by rw [← hrest, List.take_append_drop]
      rw [hsplit] at htext
      exact htext.after_ascii (by rw [hb]; decide)
    have hstart : isCharBoundary text (i + 1) = true :=
      isCharBoundary_of_valid_drop (by omega) (by rw [hafter]; exact hvalid)
    have hend : text[i + 3]? = rest[2]? := by
      rw [← hafter, List.getElem?_drop]
    match rest, hafter, hlength, hend with
    | [], _, hlength, hend =>
        have hno : isCharBoundary text (i + 3) = false := by
          have hne : i + 3 ≠ text.length := by
            simp only [List.length_nil] at hlength
            omega
          simp [isCharBoundary, hend, hne]
        simp [slice, hno, escaped]
    | [a], _, hlength, hend =>
        have hno : isCharBoundary text (i + 3) = false := by
          have hne : i + 3 ≠ text.length := by
            simp only [List.length_cons, List.length_nil] at hlength
            omega
          simp [isCharBoundary, hend, hne]
        simp [slice, hno, escaped]
    | a :: c :: rest, hafter, hlength, hend =>
        have hpart : (text.take (i + 3)).drop (i + 1) = [a, c] := by
          rw [List.drop_take, hafter, show i + 3 - (i + 1) = 2 by omega]
          rfl
        have hbound : isCharBoundary text (i + 3) = rest.head?.all isFirst := by
          cases rest with
          | nil =>
              have heq : i + 3 = text.length := by
                simp only [List.length_cons, List.length_nil] at hlength
                omega
              rw [heq]
              simp [isCharBoundary]
          | cons d rest =>
              simp [isCharBoundary, hend]
        have hescaped : escaped (a :: c :: rest) =
            if rest.head?.all isFirst then fromStrRadix16 a c else none := rfl
        unfold slice
        rw [hbound, hpart, hescaped]
        by_cases hfirst : rest.head?.all isFirst = true
        · rw [if_pos ⟨by omega, hstart, hfirst⟩, if_pos hfirst]
          rfl
        · rw [if_neg (fun h => hfirst h.2.2), if_neg hfirst]
          rfl
  · have hne : ¬ some b = some 0x25 := fun h => hb (Option.some.inj h)
    rw [if_neg hne, if_neg hb]

/-- **The loop over the index reads on from byte to byte.** -/
theorem percentDecodeLoop_eq {text : List UInt8} (htext : Valid text) (i : Nat) :
    percentDecodeLoop text i = percentDecodeFrom 0 (text.drop i) := by
  fun_induction percentDecodeLoop text i with
  | case1 i hi byte hbyte ih =>
      rw [ih]
      have hdrop : text.drop i = text[i] :: text.drop (i + 1) := List.drop_eq_getElem_cons hi
      rw [escapedAt_eq htext hdrop] at hbyte
      rw [hdrop, percentDecodeFrom, hbyte]
      show _ = byte :: percentDecodeFrom 2 (text.drop (i + 1))
      rw [percentDecodeFrom_skip 2, List.drop_drop]
  | case2 i hi hnone ih =>
      rw [ih]
      have hdrop : text.drop i = text[i] :: text.drop (i + 1) := List.drop_eq_getElem_cons hi
      rw [escapedAt_eq htext hdrop] at hnone
      rw [hdrop, percentDecodeFrom, hnone]
  | case3 i hi =>
      rw [List.drop_eq_nil_of_le (by omega)]
      rfl

/-! ## The standard -/

/-- Every `%` that two hexadecimal digits follow is replaced, with them, by their byte. -/
def decodeEscapes : List UInt8 → List UInt8
  | c :: a :: b :: rest =>
      match if c = 0x25 then hexPair a b else none with
      | some byte => byte :: decodeEscapes rest
      | none => c :: decodeEscapes (a :: b :: rest)
  | short => short

/-- The places with a `%`, a plus sign and a hexadecimal digit. -/
def signedEscapes : List UInt8 → Nat
  | c :: a :: b :: rest =>
      (if c = 0x25 ∧ a = 0x2B ∧ (hexValue b).isSome then 1 else 0) +
        signedEscapes (a :: b :: rest)
  | _ => 0

theorem signedEscapes_cons {c : UInt8} (hc : c ≠ 0x25) (u : List UInt8) :
    signedEscapes (c :: u) = signedEscapes u := by
  match u with
  | [] => rfl
  | [a] => rfl
  | a :: b :: rest => rw [signedEscapes, if_neg (fun h => hc h.1), Nat.zero_add]

theorem signedEscapes_eq_zero {t : List UInt8} : signedEscapes t = 0 ↔
    ∀ digit, (hexValue digit).isSome → ¬ [0x25, 0x2B, digit] <:+: t := by
  fun_induction signedEscapes t with
  | case1 c a b rest ih =>
      rw [Nat.add_eq_zero_iff, ih]
      constructor
      · rintro ⟨hhere, hlater⟩ digit hdigit hpart
        rcases List.infix_cons_iff.mp hpart with hfirst | hpart
        · simp only [List.cons_prefix_cons, List.nil_prefix, and_true] at hfirst
          obtain ⟨rfl, rfl, rfl⟩ := hfirst
          rw [if_pos ⟨rfl, rfl, hdigit⟩] at hhere
          cases hhere
        · exact hlater digit hdigit hpart
      · intro h
        constructor
        · apply if_neg
          rintro ⟨rfl, rfl, hdigit⟩
          exact h b hdigit ⟨[], rest, rfl⟩
        · exact fun digit hdigit hpart => h digit hdigit (List.infix_cons hpart)
  | case2 t hshort =>
      refine ⟨fun _ digit _ hpart => ?_, fun _ => rfl⟩
      have hlen := hpart.length_le
      match t, hshort with
      | [], _ => simp at hlen
      | [a], _ => simp at hlen
      | [a, b], _ => simp at hlen
      | a :: b :: c :: rest, hshort => exact hshort a b c rest rfl

/-- What a `%` and two bytes are decoded to differs from the standard only for a signed digit. -/
theorem escaped_or_signed {a b : UInt8} {rest : List UInt8} (h : Valid (a :: b :: rest)) :
    (¬ (a = 0x2B ∧ (hexValue b).isSome) ∧ escaped (a :: b :: rest) = hexPair a b) ∨
    ∃ byte, a = 0x2B ∧ hexValue b = some byte ∧ escaped (a :: b :: rest) = some byte ∧
      hexPair a b = none := by
  rw [escaped_of_valid h, fromStrRadix16_eq]
  by_cases ha : a = 0x2B
  · subst ha
    rw [if_pos rfl]
    have hnone : hexPair 0x2B b = none := rfl
    cases hb : hexValue b with
    | none => exact .inl ⟨by simp, hnone.symm⟩
    | some byte => exact .inr ⟨byte, rfl, rfl, rfl, hnone⟩
  · rw [if_neg ha]
    exact .inl ⟨fun h => ha h.1, rfl⟩

/-- **The rest of a text is decoded as the standard says, but for signed digits**, and each of
these costs a `%`. -/
theorem percentDecodeFrom_standard (u : List UInt8) : ∀ s, Valid (s ++ u) →
    (signedEscapes u = 0 → percentDecodeFrom 0 u = decodeEscapes u) ∧
    (decodeEscapes u).count 0x25 = (percentDecodeFrom 0 u).count 0x25 + signedEscapes u := by
  fun_induction decodeEscapes u with
  | case1 c a b rest byte hbyte ih =>
      intro s hs
      have hc : c = 0x25 := by
        by_contra hc
        rw [if_neg hc] at hbyte
        cases hbyte
      subst hc
      rw [if_pos rfl] at hbyte
      have hvalid : Valid (a :: b :: rest) := hs.after_ascii (by decide)
      have hne : ∀ x y, hexValue x = some y → x ≠ 0x25 := by
        rintro x y hx rfl
        cases hx
      obtain ⟨high, hhigh, hlow⟩ := Option.bind_eq_some_iff.mp hbyte
      obtain ⟨low, hlow, -⟩ := Option.map_eq_some_iff.mp hlow
      -- two digits follow, so there is no sign, and the code reads the same byte
      obtain ⟨hnot, hescaped⟩ | ⟨_, _, _, _, hnone⟩ := escaped_or_signed hvalid
      · have hcode : percentDecodeFrom 0 (0x25 :: a :: b :: rest) =
            byte :: percentDecodeFrom 0 rest := by
          rw [percentDecodeFrom, if_pos rfl, hescaped, hbyte]
          rfl
        have hsigned : signedEscapes (0x25 :: a :: b :: rest) = signedEscapes rest := by
          rw [signedEscapes, if_neg (fun h => hnot h.2), Nat.zero_add,
            signedEscapes_cons (hne a high hhigh), signedEscapes_cons (hne b low hlow)]
        have hrest := ih [] (Valid.after_ascii (s := [])
          (Valid.after_ascii (s := []) hvalid (hexValue_ascii hhigh)) (hexValue_ascii hlow))
        rw [hcode, hsigned, List.count_cons, List.count_cons]
        exact ⟨fun h => congrArg _ (hrest.1 h), by omega⟩
      · rw [hnone] at hbyte
        cases hbyte
  | case2 c a b rest hnone ih =>
      intro s hs
      have hrest := ih (s ++ [c]) (by simpa using hs)
      by_cases hc : c = 0x25
      · subst hc
        rw [if_pos rfl] at hnone
        have hvalid : Valid (a :: b :: rest) := hs.after_ascii (by decide)
        obtain ⟨hnot, hescaped⟩ | ⟨byte, rfl, hb, hescaped, -⟩ := escaped_or_signed hvalid
        · have hcode : percentDecodeFrom 0 (0x25 :: a :: b :: rest) =
              0x25 :: percentDecodeFrom 0 (a :: b :: rest) := by
            rw [percentDecodeFrom, if_pos rfl, hescaped, hnone]
          rw [hcode, signedEscapes, if_neg (fun h => hnot h.2), Nat.zero_add, List.count_cons,
            List.count_cons]
          exact ⟨fun h => congrArg _ (hrest.1 h), by omega⟩
        · -- the sign and the digit are kept by the standard, and skipped by the code
          have hbne : b ≠ 0x25 := by
            rintro rfl
            cases hb
          have hbyte : byte ≠ 0x25 := by
            rintro rfl
            exact absurd (hexValue_lt hb) (by decide)
          have hcode : percentDecodeFrom 0 (0x25 :: 0x2B :: b :: rest) =
              byte :: percentDecodeFrom 0 rest := by
            rw [percentDecodeFrom, if_pos rfl, hescaped]
            rfl
          have hkept : percentDecodeFrom 0 (0x2B :: b :: rest) =
              0x2B :: b :: percentDecodeFrom 0 rest := by
            rw [percentDecodeFrom_cons (by decide), percentDecodeFrom_cons hbne]
          have hcount := hrest.2
          rw [hkept, List.count_cons_of_ne (by decide), List.count_cons_of_ne hbne] at hcount
          rw [hcode, signedEscapes, if_pos ⟨rfl, rfl, by rw [hb]; rfl⟩, List.count_cons_self,
            List.count_cons_of_ne hbyte, hcount]
          exact ⟨fun h => by omega, by omega⟩
      · rw [percentDecodeFrom_cons hc, signedEscapes_cons hc, List.count_cons, List.count_cons]
        exact ⟨fun h => congrArg _ (hrest.1 h), by omega⟩
  | case3 t hshort =>
      intro s hs
      -- nothing shorter than an escape is changed
      match t, hshort with
      | [], _ => exact ⟨fun _ => rfl, rfl⟩
      | [a], _ =>
          have hcode : percentDecodeFrom 0 [a] = [a] := by
            rw [percentDecodeFrom]
            by_cases ha : a = 0x25
            · rw [if_pos ha]
              rfl
            · rw [if_neg ha]
              rfl
          rw [hcode]
          exact ⟨fun _ => rfl, rfl⟩
      | [a, b], _ =>
          have hcode : percentDecodeFrom 0 [a, b] = [a, b] := by
            have hlast : percentDecodeFrom 0 [b] = [b] := by
              rw [percentDecodeFrom]
              by_cases hb : b = 0x25
              · rw [if_pos hb]
                rfl
              · rw [if_neg hb]
                rfl
            rw [percentDecodeFrom, hlast]
            by_cases ha : a = 0x25
            · rw [if_pos ha]
              rfl
            · rw [if_neg ha]
          rw [hcode]
          exact ⟨fun _ => rfl, rfl⟩
      | a :: b :: c :: rest, hshort => exact (hshort a b c rest rfl).elim

/-! ## The decoder -/

/-- What percent-decoding is: the escapes are replaced, and the bytes are read as UTF-8. -/
def standardDecode (text : Chars) : List UInt8 := fromUtf8Lossy (decodeEscapes (encode text))

theorem percentDecode_eq_standard_iff {text : Chars} : percentDecode text = standardDecode text ↔
    ∀ digit, (hexValue digit).isSome → ¬ [0x25, 0x2B, digit] <:+: encode text := by
  obtain ⟨hsame, hcount⟩ := percentDecodeFrom_standard (encode text) [] ⟨text, rfl⟩
  rw [← signedEscapes_eq_zero, percentDecode, standardDecode]
  constructor
  · intro h
    have hpercent := congrArg (List.count 0x25) h
    rw [count_fromUtf8Lossy (by decide), count_fromUtf8Lossy (by decide)] at hpercent
    omega
  · intro h
    rw [hsame h]

/-- **When no byte is decoded to another one**: what the escapes stand for is UTF-8, and no `%` is
followed by a plus sign and a hexadecimal digit. -/
theorem percentDecode_eq_bytes_iff {text : Chars} :
    percentDecode text = decodeEscapes (encode text) ↔
      (∀ digit, (hexValue digit).isSome → ¬ [0x25, 0x2B, digit] <:+: encode text) ∧
      fromUtf8 (decodeEscapes (encode text)) = .ok () := by
  rw [← percentDecode_eq_standard_iff, ← fromUtf8Lossy_eq_self_iff]
  change _ ↔ _ ∧ standardDecode text = _
  constructor
  · intro h
    have hsame : standardDecode text = decodeEscapes (encode text) := by
      apply fromUtf8Lossy_eq_self_iff.mpr
      rw [← h]
      exact fromUtf8_fromUtf8Lossy _
    exact ⟨h.trans hsame.symm, hsame⟩
  · exact fun h => h.1.trans h.2

/-- `percent_decode` with its loop over the index. -/
theorem percentDecode_eq_loop (text : Chars) :
    percentDecode text = fromUtf8Lossy (percentDecodeLoop (encode text) 0) := by
  rw [percentDecodeLoop_eq ⟨text, rfl⟩, List.drop_zero, percentDecode]

/-- The loop decodes as the standard says, and no slice that it takes cuts a character. -/
structure ExactDecoding (text : Chars) : Prop where
  decoded : fromUtf8Lossy (percentDecodeLoop (encode text) 0) = standardDecode text
  sliced : ∀ i part, slice (encode text) (i + 1) (i + 3) = some part → Valid part

/-- **When percent-decoding is exact**: where no `%` is followed by a plus sign and a hexadecimal
digit. -/
theorem percentDecode_exact_iff (text : Chars) : ExactDecoding text ↔
    ∀ digit, (hexValue digit).isSome → ¬ [0x25, 0x2B, digit] <:+: encode text := by
  rw [← percentDecode_eq_standard_iff, percentDecode_eq_loop]
  constructor
  · exact fun h => h.decoded
  · exact fun h => ⟨h, fun i part => valid_slice ⟨text, rfl⟩⟩

/-- A signed digit is decoded. -/
theorem signed_digit_decoded : ¬ ExactDecoding "%+5".toList := by
  intro h
  have hdecoded := h.decoded
  rw [← percentDecode_eq_loop] at hdecoded
  revert hdecoded
  decide

end Config

end TurboCi
