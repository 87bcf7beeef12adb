import Mathlib.Data.List.Infix
import Mathlib.Tactic

set_option autoImplicit false

/-! # UTF-8 at the level of bytes

A Rust string is a list of bytes that is `Valid`: the encoding of some characters. Offsets
into it are byte offsets, and those that do not cut a character are its character boundaries
(`isCharBoundary`, decided from a single byte as Rust does). A valid string splits into valid
strings exactly there.
-/

namespace Utf8

/-- The bytes of a string, given by its characters. -/
def encode (cs : List Char) : List UInt8 := cs.flatMap String.utf8EncodeChar

/-- The bytes are the encoding of some characters. -/
def Valid (t : List UInt8) : Prop := ∃ cs : List Char, t = encode cs

/-- The byte begins a character: it is no continuation byte `10xxxxxx`. -/
def isFirst (b : UInt8) : Bool := b < 0x80 || 0xC0 ≤ b

/-- The number of bytes of the character that begins with `b`. -/
def width (b : UInt8) : Nat :=
  if b < 0x80 then 1 else if b < 0xE0 then 2 else if b < 0xF0 then 3 else 4

/-- `str::is_char_boundary`. -/
def isCharBoundary (t : List UInt8) (i : Nat) : Bool :=
  match t[i]? with
  | some b => i == 0 || isFirst b
  | none => i == t.length

@[simp] theorem encode_nil : encode [] = [] := rfl

theorem encode_cons (c : Char) (cs : List Char) :
    encode (c :: cs) = String.utf8EncodeChar c ++ encode cs := rfl

theorem encode_append (cs ds : List Char) : encode (cs ++ ds) = encode cs ++ encode ds :=
  List.flatMap_append

/-- The first character can be decoded again. -/
theorem decode_encode_cons (c : Char) (cs : List Char) :
    (encode (c :: cs)).toByteArray.utf8DecodeChar? 0 = some c := by
  rw [encode_cons, List.toByteArray_append]
  exact ByteArray.utf8DecodeChar?_utf8EncodeChar_append

theorem encode_injective : Function.Injective encode := by
  intro cs
  induction cs with
  | nil =>
      intro ds h
      cases ds with
      | nil => rfl
      | cons d ds => simp [encode_cons, String.utf8EncodeChar_ne_nil] at h
  | cons c cs ih =>
      intro ds h
      cases ds with
      | nil => simp [encode_cons, String.utf8EncodeChar_ne_nil] at h
      | cons d ds =>
          have hd := decode_encode_cons d ds
          rw [← h, decode_encode_cons] at hd
          obtain rfl := Option.some.inj hd
          rw [encode_cons, encode_cons, List.append_cancel_left_eq] at h
          rw [ih h]

theorem valid_nil : Valid [] := ⟨[], rfl⟩

theorem Valid.append {t u : List UInt8} : Valid t → Valid u → Valid (t ++ u) := by
  rintro ⟨cs, rfl⟩ ⟨ds, rfl⟩
  exact ⟨cs ++ ds, (encode_append cs ds).symm⟩

/-! ## One character -/

theorem forall_byte {p : UInt8 → Prop} (h : ∀ n : Fin 256, p (UInt8.ofFin n)) (b : UInt8) : p b :=
  h b.toFin

theorem isFirst_continuation (b : UInt8) : isFirst (b &&& 0x3f ||| 0x80) = false :=
  forall_byte (p := fun b => isFirst (b &&& 0x3f ||| 0x80) = false) (by decide +kernel) b

theorem lead_two (b : UInt8) :
    isFirst (b &&& 0x1f ||| 0xc0) = true ∧ width (b &&& 0x1f ||| 0xc0) = 2 :=
  forall_byte (p := fun b => isFirst (b &&& 0x1f ||| 0xc0) = true ∧ width (b &&& 0x1f ||| 0xc0) = 2)
    (by decide +kernel) b

theorem lead_three (b : UInt8) :
    isFirst (b &&& 0x0f ||| 0xe0) = true ∧ width (b &&& 0x0f ||| 0xe0) = 3 :=
  forall_byte (p := fun b => isFirst (b &&& 0x0f ||| 0xe0) = true ∧ width (b &&& 0x0f ||| 0xe0) = 3)
    (by decide +kernel) b

theorem lead_four (b : UInt8) :
    isFirst (b &&& 0x07 ||| 0xf0) = true ∧ width (b &&& 0x07 ||| 0xf0) = 4 :=
  forall_byte (p := fun b => isFirst (b &&& 0x07 ||| 0xf0) = true ∧ width (b &&& 0x07 ||| 0xf0) = 4)
    (by decide +kernel) b

/-- A character is a first byte, which gives its width, and continuation bytes. -/
theorem encodeChar_shape (c : Char) : ∃ b bs, String.utf8EncodeChar c = b :: bs ∧
    isFirst b = true ∧ width b = bs.length + 1 ∧ ∀ x ∈ bs, isFirst x = false := by
  rcases c.utf8Size_eq with h | h | h | h
  · rw [String.utf8EncodeChar_eq_singleton h]
    have hc : c.val ≤ 127 := Char.utf8Size_eq_one_iff.mp h
    have hb : c.val.toUInt8 < 0x80 := by
      rw [UInt8.lt_iff_toNat_lt, UInt32.toNat_toUInt8]
      have : c.val.toNat ≤ 127 := hc
      show c.val.toNat % 256 < 128
      omega
    exact ⟨_, [], rfl, by simp only [isFirst, hb, decide_true, Bool.true_or], if_pos hb, by simp⟩
  · rw [String.utf8EncodeChar_eq_cons_cons h]
    exact ⟨_, _, rfl, (lead_two _).1, (lead_two _).2, by simp [isFirst_continuation]⟩
  · rw [String.utf8EncodeChar_eq_cons_cons_cons h]
    exact ⟨_, _, rfl, (lead_three _).1, (lead_three _).2, by simp [isFirst_continuation]⟩
  · rw [String.utf8EncodeChar_eq_cons_cons_cons_cons h]
    exact ⟨_, _, rfl, (lead_four _).1, (lead_four _).2, by simp [isFirst_continuation]⟩

theorem encodeChar_length (c : Char) {b : UInt8} {bs : List UInt8}
    (h : String.utf8EncodeChar c = b :: bs) : width b = (String.utf8EncodeChar c).length := by
  obtain ⟨b', bs', h', -, hw, -⟩ := encodeChar_shape c
  rw [h] at h'
  obtain ⟨rfl, rfl⟩ := List.cons.inj h'
  rw [hw, h, List.length_cons]

/-- An ASCII character is one byte, and no other character has an ASCII byte. -/
theorem encodeChar_ascii (c : Char) :
    (c.toNat < 0x80 ∧ String.utf8EncodeChar c = [UInt8.ofNat c.toNat]) ∨
    (0x80 ≤ c.toNat ∧ ∀ b ∈ String.utf8EncodeChar c, 0x80 ≤ b) := by
  by_cases hc : c.toNat < 0x80
  · left
    have hsize : c.utf8Size = 1 := by
      apply Char.utf8Size_eq_one_iff.mpr
      show c.toNat ≤ 127
      omega
    refine ⟨hc, (String.utf8EncodeChar_eq_singleton hsize).trans ?_⟩
    congr 1
  · right
    refine ⟨by omega, ?_⟩
    obtain ⟨b, bs, heq, -, hwidth, hbs⟩ := encodeChar_shape c
    have hsize : c.utf8Size ≠ 1 := by
      intro hone
      have hle : c.toNat ≤ 127 := Char.utf8Size_eq_one_iff.mp hone
      omega
    have hlen : c.utf8Size = bs.length + 1 := by
      rw [← String.length_utf8EncodeChar, heq, List.length_cons]
    intro x hx
    rw [heq] at hx
    rcases List.mem_cons.mp hx with rfl | hx
    · by_contra hlt
      have hone : width x = 1 := if_pos (UInt8.not_le.mp hlt)
      omega
    · have hcont := hbs x hx
      rw [isFirst, Bool.or_eq_false_iff] at hcont
      exact UInt8.not_lt.mp (of_decide_eq_false hcont.1)

/-- An ASCII byte stands for the character with its number. -/
theorem mem_encode_ascii {a : Char} (ha : a.toNat < 0x80) {cs : List Char} :
    UInt8.ofNat a.toNat ∈ encode cs ↔ a ∈ cs := by
  rw [encode, List.mem_flatMap]
  constructor
  · rintro ⟨c, hc, hmem⟩
    rcases encodeChar_ascii c with ⟨hlt, hone⟩ | ⟨-, hall⟩
    · rw [hone, List.mem_singleton] at hmem
      have hval : a.toNat = c.toNat := by
        have := congrArg UInt8.toNat hmem
        rw [UInt8.toNat_ofNat', UInt8.toNat_ofNat'] at this
        omega
      rwa [Char.toNat_inj.mp hval]
    · have hle := UInt8.le_iff_toNat_le.mp (hall _ hmem)
      rw [UInt8.toNat_ofNat'] at hle
      have h80 : (0x80 : UInt8).toNat = 128 := rfl
      omega
  · intro hmem
    refine ⟨a, hmem, ?_⟩
    rcases encodeChar_ascii a with ⟨-, hone⟩ | ⟨hge, -⟩
    · rw [hone]
      exact List.mem_singleton_self _
    · omega

theorem encode_ascii_cons {a : Char} (ha : a.toNat < 0x80) (cs : List Char) :
    encode (a :: cs) = UInt8.ofNat a.toNat :: encode cs := by
  rcases encodeChar_ascii a with ⟨-, hone⟩ | ⟨hge, -⟩
  · rw [encode_cons, hone, List.singleton_append]
  · omega

theorem encode_singleton_eq_ascii {a c : Char} (ha : a.toNat < 0x80)
    (h : UInt8.ofNat a.toNat ∈ String.utf8EncodeChar c) : c = a := by
  have hmem : UInt8.ofNat a.toNat ∈ encode [c] := by
    rw [encode_cons, encode_nil, List.append_nil]
    exact h
  exact (List.mem_singleton.mp ((mem_encode_ascii ha).mp hmem)).symm

theorem head?_encode_ascii {a : Char} (ha : a.toNat < 0x80) {cs : List Char} :
    (encode cs).head? = some (UInt8.ofNat a.toNat) ↔ cs.head? = some a := by
  cases cs with
  | nil => simp
  | cons c cs =>
      constructor
      · intro h
        rw [encode_cons, List.head?_append_of_ne_nil _ String.utf8EncodeChar_ne_nil] at h
        rw [encode_singleton_eq_ascii ha (List.mem_of_head? h)]
        rfl
      · intro h
        obtain rfl := Option.some.inj h
        rw [encode_ascii_cons ha]
        rfl

theorem getLast?_encode_ascii {a : Char} (ha : a.toNat < 0x80) {cs : List Char} :
    (encode cs).getLast? = some (UInt8.ofNat a.toNat) ↔ cs.getLast? = some a := by
  rcases List.eq_nil_or_concat cs with rfl | ⟨before, c, rfl⟩
  · simp
  · have hlast : encode [c] = String.utf8EncodeChar c := List.append_nil _
    rw [List.concat_eq_append, encode_append, hlast,
      List.getLast?_append_of_ne_nil _ String.utf8EncodeChar_ne_nil, List.getLast?_concat]
    constructor
    · intro h
      rw [encode_singleton_eq_ascii ha (List.mem_of_getLast? h)]
    · intro h
      obtain rfl := Option.some.inj h
      rw [← hlast, encode_ascii_cons ha]
      rfl

theorem length_encode_ascii {cs : List Char} (h : ∀ c ∈ cs, c.toNat < 0x80) :
    (encode cs).length = cs.length := by
  induction cs with
  | nil => rfl
  | cons c cs ih =>
      have hrest : ∀ d ∈ cs, d.toNat < 0x80 := fun d hd => h d (List.mem_cons_of_mem c hd)
      rw [encode_ascii_cons (h c List.mem_cons_self), List.length_cons, List.length_cons, ih hrest]

/-! ## Boundaries -/

theorem isCharBoundary_zero (t : List UInt8) : isCharBoundary t 0 = true := by
  cases t <;> simp [isCharBoundary]

theorem isCharBoundary_length (t : List UInt8) : isCharBoundary t t.length = true := by
  simp [isCharBoundary]

theorem isCharBoundary_of_isFirst {t : List UInt8} {i : Nat} {b : UInt8} {rest : List UInt8}
    (h : t.drop i = b :: rest) (hb : isFirst b = true) : isCharBoundary t i = true := by
  have : t[i]? = some b := by rw [← List.head?_drop, h]; rfl
  simp [isCharBoundary, this, hb]

theorem width_pos (b : UInt8) : 0 < width b := by
  unfold width
  split_ifs <;> decide

/-- Where a position in a string lies: between two characters, or inside one. -/
theorem encode_split : ∀ (cs : List Char) (i : Nat), i ≤ (encode cs).length →
    (∃ cs₁ cs₂, cs = cs₁ ++ cs₂ ∧ i = (encode cs₁).length) ∨
    (∃ cs₁ c cs₂ j, cs = cs₁ ++ c :: cs₂ ∧ i = (encode cs₁).length + j ∧ 0 < j ∧
      j < (String.utf8EncodeChar c).length) := by
  intro cs
  induction cs with
  | nil =>
      intro i h
      exact Or.inl ⟨[], [], rfl, by simpa using h⟩
  | cons c cs ih =>
      intro i h
      rw [encode_cons, List.length_append] at h
      by_cases hi : i < (String.utf8EncodeChar c).length
      · rcases Nat.eq_zero_or_pos i with rfl | hpos
        · exact Or.inl ⟨[], c :: cs, rfl, rfl⟩
        · exact Or.inr ⟨[], c, cs, i, rfl, by simp, hpos, hi⟩
      · rcases ih (i - (String.utf8EncodeChar c).length) (by omega) with
          ⟨cs₁, cs₂, rfl, hlen⟩ | ⟨cs₁, d, cs₂, j, rfl, hlen, hj⟩
        · refine Or.inl ⟨c :: cs₁, cs₂, rfl, ?_⟩
          rw [encode_cons, List.length_append]
          omega
        · refine Or.inr ⟨c :: cs₁, d, cs₂, j, rfl, ?_, hj⟩
          rw [encode_cons, List.length_append]
          omega

/-- A position strictly inside a character holds a continuation byte. -/
theorem not_isCharBoundary_inside {cs₁ cs₂ : List Char} {c : Char} {j : Nat} (hj : 0 < j)
    (hlt : j < (String.utf8EncodeChar c).length) :
    isCharBoundary (encode (cs₁ ++ c :: cs₂)) ((encode cs₁).length + j) = false := by
  obtain ⟨b, bs, heq, -, -, hbs⟩ := encodeChar_shape c
  have hget : (encode (cs₁ ++ c :: cs₂))[(encode cs₁).length + j]? = bs[j - 1]? := by
    rw [encode_append, encode_cons, List.getElem?_append_right (by omega), Nat.add_sub_cancel_left,
      List.getElem?_append_left hlt, heq, show j = (j - 1) + 1 by omega, List.getElem?_cons_succ]
    rfl
  rw [heq, List.length_cons] at hlt
  obtain ⟨d, hd⟩ : ∃ d, bs[j - 1]? = some d := ⟨_, List.getElem?_eq_getElem (by omega)⟩
  have hcont : isFirst d = false := hbs d (List.mem_of_getElem? hd)
  simp only [isCharBoundary, hget, hd, hcont]
  simp
  omega

/-- **A valid string splits at its character boundaries.** -/
theorem Valid.split {t : List UInt8} (ht : Valid t) {i : Nat} (hi : i ≤ t.length)
    (hb : isCharBoundary t i = true) : Valid (t.take i) ∧ Valid (t.drop i) := by
  obtain ⟨cs, rfl⟩ := ht
  rcases encode_split cs i hi with ⟨cs₁, cs₂, rfl, rfl⟩ | ⟨cs₁, c, cs₂, j, rfl, rfl, hj, hlt⟩
  · rw [encode_append, List.take_left, List.drop_left]
    exact ⟨⟨cs₁, rfl⟩, ⟨cs₂, rfl⟩⟩
  · rw [not_isCharBoundary_inside hj hlt] at hb
    cases hb

/-- The first byte of a valid string gives the width of a whole character. -/
theorem Valid.width_le {b : UInt8} {t : List UInt8} (h : Valid (b :: t)) :
    isFirst b = true ∧ width b ≤ (b :: t).length := by
  obtain ⟨cs, hcs⟩ := h
  cases cs with
  | nil => cases hcs
  | cons c cs =>
      obtain ⟨b', bs, heq, hfirst, hw, -⟩ := encodeChar_shape c
      rw [encode_cons, heq, List.cons_append] at hcs
      obtain ⟨rfl, rfl⟩ := List.cons.inj hcs
      refine ⟨hfirst, ?_⟩
      rw [hw, List.length_cons, List.length_append]
      omega

/-- What remains of a valid string after its first character is valid. -/
theorem Valid.drop_width {b : UInt8} {t : List UInt8} (h : Valid (b :: t)) :
    Valid ((b :: t).drop (width b)) := by
  obtain ⟨cs, hcs⟩ := h
  cases cs with
  | nil => cases hcs
  | cons c cs =>
      obtain ⟨b', bs, heq, -, hw, -⟩ := encodeChar_shape c
      have hcs' := hcs
      rw [encode_cons, heq, List.cons_append] at hcs'
      obtain rfl := (List.cons.inj hcs').1
      rw [hcs, encodeChar_length c heq, encode_cons, List.drop_left]
      exact ⟨cs, rfl⟩

/-- What comes after an ASCII byte of a valid string is valid. -/
theorem Valid.after_ascii {s u : List UInt8} {b : UInt8} (h : Valid (s ++ b :: u))
    (hb : b < 0x80) : Valid u := by
  have hfirst : isFirst b = true := by simp only [isFirst, hb, decide_true, Bool.true_or]
  have hbound : isCharBoundary (s ++ b :: u) s.length = true :=
    isCharBoundary_of_isFirst List.drop_left hfirst
  have hrest : Valid (b :: u) := by
    have hsplit := (h.split (by simp) hbound).2
    rwa [List.drop_left] at hsplit
  have hwidth : width b = 1 := if_pos hb
  have hdrop := hrest.drop_width
  rwa [hwidth] at hdrop

/-- Where the rest is a string lies a boundary. -/
theorem isCharBoundary_of_valid_drop {t : List UInt8} {i : Nat} (hi : i ≤ t.length)
    (h : Valid (t.drop i)) : isCharBoundary t i = true := by
  cases hd : t.drop i with
  | nil =>
      have := congrArg List.length hd
      rw [List.length_drop, List.length_nil] at this
      rw [show i = t.length by omega]
      exact isCharBoundary_length t
  | cons b rest =>
      rw [hd] at h
      exact isCharBoundary_of_isFirst hd h.width_le.1

/-- A part of `s` that a valid string ends with is cut off at a character boundary of `s`. -/
theorem isCharBoundary_of_suffix {s t : List UInt8} (hs : Valid s) (ht : Valid t) {k : Nat}
    (hk : k ≤ s.length) (hsuf : s.take k <:+ t) : isCharBoundary s k = true := by
  obtain ⟨cs, rfl⟩ := hs
  rcases encode_split cs k hk with ⟨cs₁, cs₂, rfl, rfl⟩ | ⟨cs₁, c, cs₂, j, rfl, rfl, hj, hlt⟩
  · rw [encode_append]
    cases h : encode cs₂ with
    | nil => simp [isCharBoundary]
    | cons b bs =>
        have hv : Valid (b :: bs) := ⟨cs₂, h.symm⟩
        exact isCharBoundary_of_isFirst List.drop_left hv.width_le.1
  · -- the part ends with an incomplete character, which no valid string does
    obtain ⟨b, bs, heq, hfirst, hw, -⟩ := encodeChar_shape c
    rw [encode_append, encode_cons, List.take_length_add_append, List.take_append_of_le_length
      (by omega)] at hsuf
    have hpart : (String.utf8EncodeChar c).take j <:+ t := (List.suffix_append _ _).trans hsuf
    obtain ⟨u, hu⟩ := hpart
    have hlen : ((String.utf8EncodeChar c).take j).length = j := List.length_take_of_le hlt.le
    obtain ⟨j, rfl⟩ : ∃ m, j = m + 1 := ⟨j - 1, by omega⟩
    have hdrop : t.drop u.length = b :: bs.take j := by
      rw [← hu, List.drop_left, heq, List.take_succ_cons]
    have hsplit := ht.split (i := u.length) (by rw [← hu]; simp)
      (isCharBoundary_of_isFirst hdrop hfirst)
    rw [hdrop] at hsplit
    have hle := hsplit.2.width_le.2
    rw [encodeChar_length c heq] at hle
    rw [heq, List.length_cons] at hlt hle
    rw [List.length_cons, List.length_take] at hle
    omega

/-- A boundary of the rest of a string is one of the string. -/
theorem isCharBoundary_of_drop {t : List UInt8} {i j : Nat} (hi : i ≤ t.length) (hj : 0 < j)
    (h : isCharBoundary (t.drop i) j = true) : isCharBoundary t (i + j) = true := by
  simp only [isCharBoundary, List.getElem?_drop, List.length_drop] at h ⊢
  cases hget : t[i + j]? with
  | some b =>
      rw [hget] at h
      simp only [Bool.or_eq_true, beq_iff_eq] at h ⊢
      exact Or.inr (h.resolve_left (by omega))
  | none =>
      rw [hget] at h
      simp only [beq_iff_eq] at h ⊢
      omega

theorem Valid.isCharBoundary_append {s z : List UInt8} (hs : Valid s) (h : Valid (s ++ z)) :
    isCharBoundary (s ++ z) s.length = true :=
  isCharBoundary_of_suffix h hs (by simp) (by simp)

/-- A valid string occurs in a valid string between characters. -/
theorem Valid.isCharBoundary_occurrence {s t : List UInt8} (hs : Valid s) (ht : Valid t)
    (hne : s ≠ []) {i : Nat} (h : s <+: t.drop i) :
    isCharBoundary t i = true ∧ isCharBoundary t (i + s.length) = true := by
  obtain ⟨z, hz⟩ := h
  cases s with
  | nil => exact absurd rfl hne
  | cons b s =>
      have hi : i ≤ t.length := by
        by_contra hlt
        rw [List.drop_eq_nil_of_le (by omega)] at hz
        simp at hz
      have h1 : isCharBoundary t i = true :=
        isCharBoundary_of_isFirst (by rw [← hz]; rfl) hs.width_le.1
      have h2 : Valid (b :: s ++ z) := by rw [hz]; exact (ht.split hi h1).2
      refine ⟨h1, isCharBoundary_of_drop hi (by simp) ?_⟩
      rw [← hz]
      exact hs.isCharBoundary_append h2

/-- A position less than four bytes ahead is a boundary. -/
theorem Valid.exists_boundary {t : List UInt8} (ht : Valid t) {i : Nat} (hi : i ≤ t.length) :
    ∃ p, i ≤ p ∧ p < i + 4 ∧ p ≤ t.length ∧ isCharBoundary t p = true := by
  obtain ⟨cs, rfl⟩ := ht
  rcases encode_split cs i hi with ⟨cs₁, cs₂, rfl, rfl⟩ | ⟨cs₁, c, cs₂, j, rfl, rfl, hj, hlt⟩
  · refine ⟨(encode cs₁).length, le_refl _, by omega, hi, ?_⟩
    rw [encode_append]
    exact Valid.isCharBoundary_append ⟨cs₁, rfl⟩ ⟨cs₁ ++ cs₂, (encode_append _ _).symm⟩
  · have hw : (String.utf8EncodeChar c).length ≤ 4 := by
      rw [String.length_utf8EncodeChar]
      exact Char.utf8Size_le_four c
    have heq : encode (cs₁ ++ c :: cs₂) = encode (cs₁ ++ [c]) ++ encode cs₂ := by
      rw [← encode_append, List.append_assoc]; rfl
    have hlen : (encode (cs₁ ++ [c])).length
        = (encode cs₁).length + (String.utf8EncodeChar c).length := by
      rw [encode_append, List.length_append, encode_cons, encode_nil, List.append_nil]
    refine ⟨(encode (cs₁ ++ [c])).length, by omega, by omega, ?_, ?_⟩
    · rw [heq, List.length_append]; omega
    · rw [heq]
      exact Valid.isCharBoundary_append ⟨_, rfl⟩ (Valid.append ⟨_, rfl⟩ ⟨_, rfl⟩)

/-! ## Strings -/

/-- A string, as its bytes. -/
@[ext] structure Str where
  bytes : List UInt8
  valid : Valid bytes

/-- The string with the given characters. -/
def Str.ofChars (cs : List Char) : Str := ⟨encode cs, cs, rfl⟩

end Utf8
