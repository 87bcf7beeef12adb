import Mathlib.Data.List.Basic

set_option autoImplicit false

/-! # Names that can be read back

A name that is put together from decimal numbers and other text can be taken apart again where
the text after each number does not begin with a digit. A text that is written one code word
for each element can be taken apart where no code word begins another one (`flatMap_inj`).
-/

namespace Names

/-! ## Numbers -/

theorem toDigits_inj {a b : Nat} : Nat.toDigits 10 a = Nat.toDigits 10 b ↔ a = b := by
  constructor
  · intro h
    rw [← Nat.ofDigitChars_ten_toDigits (n := a), h, Nat.ofDigitChars_ten_toDigits]
  · rintro rfl
    rfl

theorem isDigit_of_mem {n : Nat} {c : Char} (h : c ∈ Nat.toDigits 10 n) : c.isDigit = true :=
  Nat.isDigit_of_mem_toDigits (by decide) (by decide) h

/-- The text begins with no digit. -/
def NoDigit (text : List Char) : Prop := ∀ c ∈ text.head?, c.isDigit = false

theorem noDigit_nil : NoDigit [] := by simp [NoDigit]

theorem noDigit_cons {c : Char} {text : List Char} (h : c.isDigit = false) :
    NoDigit (c :: text) := by
  simpa [NoDigit] using h

instance : ∀ text : List Char, Decidable (NoDigit text)
  | [] => isTrue noDigit_nil
  | c :: text => decidable_of_iff (c.isDigit = false) (by simp [NoDigit])

/-- The digits end where the number ends. -/
theorem takeWhile_toDigits (n : Nat) {rest : List Char} (hrest : NoDigit rest) :
    (Nat.toDigits 10 n ++ rest).takeWhile Char.isDigit = Nat.toDigits 10 n := by
  rw [List.takeWhile_append_of_pos fun _ => isDigit_of_mem]
  cases rest with
  | nil => simp
  | cons c rest =>
      have hc : c.isDigit = false := hrest c rfl
      simp [hc]

/-- **A number can be read off the front of a name.** -/
theorem toDigits_append_inj {a b : Nat} {r s : List Char} (hr : NoDigit r) (hs : NoDigit s)
    (h : Nat.toDigits 10 a ++ r = Nat.toDigits 10 b ++ s) : a = b ∧ r = s := by
  have hdigits : Nat.toDigits 10 a = Nat.toDigits 10 b := by
    rw [← takeWhile_toDigits a hr, h, takeWhile_toDigits b hs]
  refine ⟨toDigits_inj.mp hdigits, ?_⟩
  rw [hdigits] at h
  exact List.append_cancel_left h

/-! ## Code words -/

/-- A code word says what it stands for, whatever follows. -/
def ReadsBack {α : Type} (code : α → List Char) : Prop :=
  ∀ a b r s, code a ++ r = code b ++ s → a = b ∧ r = s

/-- **What is written in code words is written in one way only.** -/
theorem flatMap_inj {α : Type} {code : α → List Char} (hcode : ReadsBack code)
    (hne : ∀ a, code a ≠ []) {xs ys : List α} (h : xs.flatMap code = ys.flatMap code) :
    xs = ys := by
  induction xs generalizing ys with
  | nil =>
      cases ys with
      | nil => rfl
      | cons y ys => simp [hne y] at h
  | cons x xs ih =>
      cases ys with
      | nil => simp [hne x] at h
      | cons y ys =>
          simp only [List.flatMap_cons] at h
          obtain ⟨rfl, hrest⟩ := hcode x y _ _ h
          rw [ih hrest]

end Names
