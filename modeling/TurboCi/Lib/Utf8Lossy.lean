import TurboCi.Lib.Utf8

set_option autoImplicit false

/-! # Bytes that may be no UTF-8

Rust's checks of bytes that should be UTF-8, as machines that read one byte at a time. What a
machine has read of a character is held, with the ranges of the bytes that are still to come
(`Partial`). `fromUtf8` is `str::from_utf8` with the place and the length of the first error, and
`fromUtf8Lossy` is `String::from_utf8_lossy`, which writes `U+FFFD` for every maximal part of a
character that is not completed and for every byte that begins none.

Bytes that are decoded in two pieces are decoded as they are as a whole where the cut does not
lie inside a character or such a part (`fromUtf8Lossy_append`); otherwise more characters are
written (`firsts_append_lt`).
-/

namespace Utf8

/-- The ranges of the bytes after a first byte; `none` for a byte that begins no character. -/
def tails (b : UInt8) : Option (List (UInt8 × UInt8)) :=
  if b ≤ 0x7F then some []
  else if 0xC2 ≤ b ∧ b ≤ 0xDF then some [(0x80, 0xBF)]
  else if b = 0xE0 then some [(0xA0, 0xBF), (0x80, 0xBF)]
  else if b = 0xED then some [(0x80, 0x9F), (0x80, 0xBF)]
  else if 0xE1 ≤ b ∧ b ≤ 0xEF then some [(0x80, 0xBF), (0x80, 0xBF)]
  else if b = 0xF0 then some [(0x90, 0xBF), (0x80, 0xBF), (0x80, 0xBF)]
  else if 0xF1 ≤ b ∧ b ≤ 0xF3 then some [(0x80, 0xBF), (0x80, 0xBF), (0x80, 0xBF)]
  else if b = 0xF4 then some [(0x80, 0x8F), (0x80, 0xBF), (0x80, 0xBF)]
  else none

def inRange (r : UInt8 × UInt8) (b : UInt8) : Bool := r.1 ≤ b && b ≤ r.2

/-- The bytes that were read of a character, and the ranges of those that it still needs. -/
structure Partial where
  held : List UInt8 := []
  want : List (UInt8 × UInt8) := []
  deriving DecidableEq

/-- The next byte belongs to the character that was begun. -/
def Partial.continues (s : Partial) (b : UInt8) : Bool :=
  match s.want with
  | [] => false
  | r :: _ => inRange r b

/-! ## Strict decoding -/

/-- `str::Utf8Error` -/
structure Utf8Error where
  validUpTo : Nat
  /-- `none` where the bytes end inside a character -/
  errorLen : Option Nat
  deriving DecidableEq

/-- Reads on, when characters of `valid` bytes have been read. -/
def checkFrom : Partial → Nat → List UInt8 → Except Utf8Error Unit
  | ⟨_, []⟩, _, [] => .ok ()
  | ⟨_, _ :: _⟩, valid, [] => .error ⟨valid, none⟩
  | ⟨_, []⟩, valid, b :: rest =>
      match tails b with
      | none => .error ⟨valid, some 1⟩
      | some [] => checkFrom {} (valid + 1) rest
      | some want => checkFrom ⟨[b], want⟩ valid rest
  | ⟨held, r :: want⟩, valid, b :: rest =>
      if inRange r b then
        if want = [] then checkFrom {} (valid + held.length + 1) rest
        else checkFrom ⟨held ++ [b], want⟩ valid rest
      else .error ⟨valid, some held.length⟩

/-- `str::from_utf8` -/
def fromUtf8 (t : List UInt8) : Except Utf8Error Unit := checkFrom {} 0 t

/-! ## Lossy decoding -/

/-- The bytes of `U+FFFD`. -/
def replacement : List UInt8 := [0xEF, 0xBF, 0xBD]

/-- A first byte: what is written, and what is held. -/
def beginChar (b : UInt8) : List UInt8 × Partial :=
  match tails b with
  | none => (replacement, {})
  | some [] => ([b], {})
  | some want => ([], ⟨[b], want⟩)

def lossyStep : Partial → UInt8 → List UInt8 × Partial
  | ⟨_, []⟩, b => beginChar b
  | ⟨held, r :: want⟩, b =>
      if inRange r b then
        if want = [] then (held ++ [b], {}) else ([], ⟨held ++ [b], want⟩)
      else (replacement ++ (beginChar b).1, (beginChar b).2)

def lossyRun : Partial → List UInt8 → List UInt8 × Partial
  | s, [] => ([], s)
  | s, b :: rest =>
      ((lossyStep s b).1 ++ (lossyRun (lossyStep s b).2 rest).1,
        (lossyRun (lossyStep s b).2 rest).2)

/-- What is written at the end for a character that was not completed. -/
def flush (s : Partial) : List UInt8 := if s.want = [] then [] else replacement

/-- What is written for the bytes, after what is held. -/
def lossyFrom (s : Partial) (t : List UInt8) : List UInt8 :=
  (lossyRun s t).1 ++ flush (lossyRun s t).2

/-- `String::from_utf8_lossy` -/
def fromUtf8Lossy (t : List UInt8) : List UInt8 := lossyFrom {} t

/-! ## Valid bytes -/

/-- Bytes after which nothing is held are written as they are, if they are valid. -/
theorem lossyRun_of_check {t : List UInt8} :
    ∀ {s : Partial} {valid : Nat}, (s.want = [] → s.held = []) → checkFrom s valid t = .ok () →
      lossyRun s t = (s.held ++ t, {}) := by
  induction t with
  | nil =>
      rintro ⟨held, want⟩ valid hs h
      cases want with
      | nil =>
          obtain rfl : held = [] := hs rfl
          rfl
      | cons r want => cases h
  | cons b rest ih =>
      rintro ⟨held, want⟩ valid hs h
      cases want with
      | nil =>
          obtain rfl : held = [] := hs rfl
          rw [checkFrom] at h
          cases htails : tails b with
          | none =>
              rw [htails] at h
              cases h
          | some want =>
              rw [htails] at h
              cases want with
              | nil =>
                  have hrest := ih (fun _ => rfl) h
                  simp only [lossyRun, lossyStep, beginChar, htails, hrest]
                  rfl
              | cons r want =>
                  have hrest := ih (fun hnil => absurd hnil (List.cons_ne_nil r want)) h
                  simp only [lossyRun, lossyStep, beginChar, htails, hrest]
                  rfl
      | cons r want =>
          rw [checkFrom] at h
          split at h
          · next hin =>
              split at h
              · next hwant =>
                  have hrest := ih (fun _ => rfl) h
                  simp only [lossyRun, lossyStep, if_pos hin, if_pos hwant, hrest]
                  simp
              · next hwant =>
                  have hrest := ih (fun hnil => absurd hnil hwant) h
                  simp only [lossyRun, lossyStep, if_pos hin, if_neg hwant, hrest]
                  simp
          · cases h

/-- Where the bytes end inside a character, those before it are valid. -/
theorem check_of_incomplete {t : List UInt8} :
    ∀ {s : Partial} {valid v : Nat}, (s.want = [] → s.held = []) →
      checkFrom s valid t = .error ⟨v, none⟩ →
      v = valid ∨ ∃ u w, t = u ++ w ∧ v = valid + s.held.length + u.length ∧
        checkFrom s valid u = .ok () := by
  induction t with
  | nil =>
      rintro ⟨held, want⟩ valid v hs h
      cases want with
      | nil => cases h
      | cons r want => exact .inl (Utf8Error.mk.inj (Except.error.inj h)).1.symm
  | cons b rest ih =>
      rintro ⟨held, want⟩ valid v hs h
      cases want with
      | nil =>
          obtain rfl : held = [] := hs rfl
          rw [checkFrom] at h
          cases htails : tails b with
          | none =>
              rw [htails] at h
              cases h
          | some want =>
              rw [htails] at h
              cases want with
              | nil =>
                  rcases ih (fun _ => rfl) h with rfl | ⟨u, w, rfl, rfl, hu⟩
                  · refine .inr ⟨[b], rest, rfl, rfl, ?_⟩
                    simp only [checkFrom, htails]
                  · refine .inr ⟨b :: u, w, rfl, by simp; omega, ?_⟩
                    simp only [checkFrom, htails, hu]
              | cons r want =>
                  rcases ih (fun hnil => absurd hnil (List.cons_ne_nil r want)) h with
                    rfl | ⟨u, w, rfl, rfl, hu⟩
                  · exact .inl rfl
                  · refine .inr ⟨b :: u, w, rfl, by simp; omega, ?_⟩
                    simp only [checkFrom, htails, hu]
      | cons r want =>
          rw [checkFrom] at h
          split at h
          · next hin =>
              split at h
              · next hwant =>
                  rcases ih (fun _ => rfl) h with rfl | ⟨u, w, rfl, rfl, hu⟩
                  · refine .inr ⟨[b], rest, rfl, rfl, ?_⟩
                    simp only [checkFrom, if_pos hin, if_pos hwant]
                  · refine .inr ⟨b :: u, w, rfl, by simp; omega, ?_⟩
                    simp only [checkFrom, if_pos hin, if_pos hwant, hu]
              · next hwant =>
                  rcases ih (fun hnil => absurd hnil hwant) h with rfl | ⟨u, w, rfl, rfl, hu⟩
                  · exact .inl rfl
                  · refine .inr ⟨b :: u, w, rfl, by simp; omega, ?_⟩
                    simp only [checkFrom, if_pos hin, if_neg hwant, hu]
          · cases h

theorem lossyRun_of_fromUtf8 {t : List UInt8} (h : fromUtf8 t = .ok ()) :
    lossyRun {} t = (t, {}) :=
  lossyRun_of_check (fun _ => rfl) h

/-- **What comes before an incomplete character is valid.** -/
theorem fromUtf8_take {t : List UInt8} {v : Nat} (h : fromUtf8 t = .error ⟨v, none⟩) :
    fromUtf8 (t.take v) = .ok () := by
  rcases check_of_incomplete (fun _ => rfl) h with rfl | ⟨u, w, rfl, rfl, hu⟩
  · rfl
  · have hlength : 0 + ([] : List UInt8).length + u.length = u.length := by simp
    rw [hlength, List.take_left]
    exact hu

/-- What is read after valid bytes is read as if they were not there; an error stays one. -/
theorem checkFrom_append {t u : List UInt8} : ∀ (s : Partial) (valid : Nat),
    (s.want = [] → s.held = []) →
    (checkFrom s valid t = .ok () →
      checkFrom s valid (t ++ u) = checkFrom {} (valid + s.held.length + t.length) u) ∧
    ∀ v n, checkFrom s valid t = .error ⟨v, some n⟩ →
      checkFrom s valid (t ++ u) = .error ⟨v, some n⟩ := by
  induction t with
  | nil =>
      rintro ⟨held, want⟩ valid hs
      cases want with
      | nil =>
          obtain rfl : held = [] := hs rfl
          exact ⟨fun _ => rfl, fun v n h => by cases h⟩
      | cons r want => exact ⟨fun h => (by cases h), fun v n h => (by cases h)⟩
  | cons b rest ih =>
      rintro ⟨held, want⟩ valid hs
      rw [List.cons_append]
      cases want with
      | nil =>
          obtain rfl : held = [] := hs rfl
          simp only [checkFrom]
          cases htails : tails b with
          | none => exact ⟨fun h => (by cases h), fun v n h => h⟩
          | some want =>
              cases want with
              | nil =>
                  have hrest := ih {} (valid + 1) fun _ => rfl
                  refine ⟨fun h => (hrest.1 h).trans ?_, hrest.2⟩
                  congr 1
                  simp
                  omega
              | cons r want =>
                  have hrest := ih ⟨[b], r :: want⟩ valid
                    fun hnil => absurd hnil (List.cons_ne_nil r want)
                  refine ⟨fun h => (hrest.1 h).trans ?_, hrest.2⟩
                  congr 1
                  simp
                  omega
      | cons r want =>
          simp only [checkFrom]
          split
          · split
            · have hrest := ih {} (valid + held.length + 1) fun _ => rfl
              refine ⟨fun h => (hrest.1 h).trans ?_, hrest.2⟩
              congr 1
              simp
              omega
            · next hwant =>
                have hrest := ih ⟨held ++ [b], want⟩ valid
                  fun hnil => absurd hnil hwant
                refine ⟨fun h => (hrest.1 h).trans ?_, hrest.2⟩
                congr 1
                simp
                omega
          · exact ⟨fun h => (by cases h), fun v n h => h⟩

/-- Whether bytes are valid does not depend on how many came before. -/
theorem checkFrom_ok_shift {t : List UInt8} : ∀ {s : Partial} {valid : Nat} (valid' : Nat),
    checkFrom s valid t = .ok () → checkFrom s valid' t = .ok () := by
  induction t with
  | nil =>
      rintro ⟨held, want⟩ valid valid' h
      cases want with
      | nil => rfl
      | cons r want => cases h
  | cons b rest ih =>
      rintro ⟨held, want⟩ valid valid' h
      cases want with
      | nil =>
          simp only [checkFrom] at h ⊢
          split at h
          · cases h
          · exact ih _ h
          · exact ih _ h
      | cons r want =>
          simp only [checkFrom] at h ⊢
          split at h
          · next hin =>
              rw [if_pos hin]
              split at h
              · next hwant =>
                  rw [if_pos hwant]
                  exact ih _ h
              · next hwant =>
                  rw [if_neg hwant]
                  exact ih _ h
          · cases h

/-- The rest of valid bytes after valid ones is valid. -/
theorem fromUtf8_of_append {t u : List UInt8} (ht : fromUtf8 t = .ok ())
    (h : fromUtf8 (t ++ u) = .ok ()) : fromUtf8 u = .ok () := by
  rw [fromUtf8, (checkFrom_append {} 0 fun _ => rfl).1 ht] at h
  exact checkFrom_ok_shift 0 h

/-- Valid bytes have no invalid beginning. -/
theorem fromUtf8_append_ne {t u : List UInt8} {v n : Nat}
    (ht : fromUtf8 t = .error ⟨v, some n⟩) : fromUtf8 (t ++ u) ≠ .ok () := by
  intro h
  rw [fromUtf8, (checkFrom_append {} 0 fun _ => rfl).2 v n ht] at h
  cases h

/-! ## Decoding in pieces -/

theorem lossyRun_append (t u : List UInt8) : ∀ s, lossyRun s (t ++ u) =
    ((lossyRun s t).1 ++ (lossyRun (lossyRun s t).2 u).1, (lossyRun (lossyRun s t).2 u).2) := by
  induction t with
  | nil => intro s; rfl
  | cons b rest ih =>
      intro s
      simp only [List.cons_append, lossyRun, ih, List.append_assoc]

theorem lossyFrom_append (s : Partial) (t u : List UInt8) :
    lossyFrom s (t ++ u) = (lossyRun s t).1 ++ lossyFrom (lossyRun s t).2 u := by
  rw [lossyFrom, lossyRun_append, lossyFrom, List.append_assoc]

/-- Valid bytes are decoded apart from what follows. -/
theorem fromUtf8Lossy_append_of_valid {t : List UInt8} (ht : fromUtf8 t = .ok ())
    (u : List UInt8) : fromUtf8Lossy (t ++ u) = t ++ fromUtf8Lossy u := by
  rw [fromUtf8Lossy, lossyFrom_append, lossyRun_of_fromUtf8 ht]
  rfl

/-- The cut between two pieces lies inside a character or a part of one. -/
def Cuts (t u : List UInt8) : Prop :=
  ∃ b, u.head? = some b ∧ (lossyRun {} t).2.continues b = true

instance (t u : List UInt8) : Decidable (Cuts t u) :=
  decidable_of_iff (u.head?.any (lossyRun {} t).2.continues = true) (by
    unfold Cuts
    rw [Option.any_eq_true])

/-- Bytes that do not go on with what is held come after its replacement. -/
theorem lossyFrom_of_not_continues {s : Partial} (hs : s.want = [] → s.held = [])
    {u : List UInt8} (hu : ∀ b, u.head? = some b → s.continues b = false) :
    lossyFrom s u = flush s ++ fromUtf8Lossy u := by
  obtain ⟨held, want⟩ := s
  cases want with
  | nil =>
      obtain rfl : held = [] := hs rfl
      rfl
  | cons r want =>
      cases u with
      | nil => simp [lossyFrom, fromUtf8Lossy, lossyRun, flush]
      | cons b rest =>
          have hb : inRange r b = false := hu b rfl
          have hflush : flush ⟨held, r :: want⟩ = replacement := rfl
          rw [hflush]
          simp only [lossyFrom, fromUtf8Lossy, lossyRun, lossyStep, hb, Bool.false_eq_true,
            if_false, List.append_assoc]

/-! ## Counting characters -/

/-- The bytes that are still to come of a character are no first bytes. -/
structure Partial.Ok (s : Partial) : Prop where
  held : s.want = [] → s.held = []
  first : s.want ≠ [] → s.held.countP isFirst = 1
  later : ∀ r ∈ s.want, 0x80 ≤ r.1 ∧ r.2 ≤ 0xBF

theorem tails_some {b : UInt8} {want : List (UInt8 × UInt8)} (h : tails b = some want) :
    isFirst b = true ∧ ∀ r ∈ want, 0x80 ≤ r.1 ∧ r.2 ≤ 0xBF := by
  have hall : (tails b).all fun want => isFirst b && want.all fun r => 0x80 ≤ r.1 && r.2 ≤ 0xBF :=
    forall_byte (p := fun b => (tails b).all fun want =>
      isFirst b && want.all fun r => 0x80 ≤ r.1 && r.2 ≤ 0xBF) (by decide +kernel) b
  rw [h] at hall
  simpa using hall

theorem later_byte {r : UInt8 × UInt8} (hr : 0x80 ≤ r.1 ∧ r.2 ≤ 0xBF) {b : UInt8}
    (hb : inRange r b = true) : isFirst b = false ∧ tails b = none := by
  have hall : 0x80 ≤ b ∧ b ≤ 0xBF → isFirst b = false ∧ tails b = none :=
    forall_byte (p := fun b => 0x80 ≤ b ∧ b ≤ 0xBF → isFirst b = false ∧ tails b = none)
      (by decide +kernel) b
  simp only [inRange, Bool.and_eq_true, decide_eq_true_eq] at hb
  exact hall ⟨UInt8.le_trans hr.1 hb.1, UInt8.le_trans hb.2 hr.2⟩

theorem ok_start : ({} : Partial).Ok := ⟨fun _ => rfl, fun h => absurd rfl h, nofun⟩

theorem ok_beginChar (b : UInt8) : (beginChar b).2.Ok := by
  rw [beginChar]
  split
  · exact ok_start
  · exact ok_start
  · next want hnot htails =>
      obtain ⟨hfirst, hlater⟩ := tails_some htails
      exact ⟨fun hnil => absurd hnil hnot, fun _ => by simp [hfirst], hlater⟩

theorem ok_lossyStep {s : Partial} (hs : s.Ok) (b : UInt8) : (lossyStep s b).2.Ok := by
  obtain ⟨held, want⟩ := s
  cases want with
  | nil => exact ok_beginChar b
  | cons r want =>
      rw [lossyStep]
      split
      · next hin =>
          split
          · exact ok_start
          · next hwant =>
              obtain ⟨hr, hlater⟩ := List.forall_mem_cons.mp hs.later
              refine ⟨fun hnil => absurd hnil hwant, fun _ => ?_, hlater⟩
              have hfirst : held.countP isFirst = 1 := hs.first (List.cons_ne_nil r want)
              simp [hfirst, (later_byte hr hin).1]
      · exact ok_beginChar b

theorem ok_lossyRun {t : List UInt8} : ∀ {s : Partial}, s.Ok → (lossyRun s t).2.Ok := by
  induction t with
  | nil => exact fun hs => hs
  | cons b rest ih => exact fun hs => ih (ok_lossyStep hs b)

/-- The number of characters of a string. -/
def firsts (t : List UInt8) : Nat := t.countP isFirst

theorem firsts_append (t u : List UInt8) : firsts (t ++ u) = firsts t + firsts u :=
  List.countP_append

theorem firsts_replacement : firsts replacement = 1 := by decide

/-- Less is written for a byte that belongs to what is held than for the two apart. -/
theorem firsts_lt_of_continues {s : Partial} (hs : s.Ok) {u : List UInt8}
    (ih : ∀ {s : Partial}, s.Ok →
      firsts (lossyFrom s u) ≤ firsts (flush s) + firsts (fromUtf8Lossy u)) {b : UInt8}
    (hb : s.continues b = true) :
    firsts (lossyFrom s (b :: u)) < firsts (flush s) + firsts (fromUtf8Lossy (b :: u)) := by
  obtain ⟨held, want⟩ := s
  cases want with
  | nil => cases hb
  | cons r want =>
      have hin : inRange r b = true := hb
      obtain ⟨hr, hlater⟩ := List.forall_mem_cons.mp hs.later
      obtain ⟨hcont, htails⟩ := later_byte hr hin
      have hflush : firsts (flush ⟨held, r :: want⟩) = 1 := firsts_replacement
      have hapart : firsts (fromUtf8Lossy (b :: u)) = 1 + firsts (fromUtf8Lossy u) := by
        have heq : fromUtf8Lossy (b :: u) = replacement ++ fromUtf8Lossy u := by
          simp [fromUtf8Lossy, lossyFrom, lossyRun, lossyStep, beginChar, htails]
        rw [heq, firsts_append, firsts_replacement]
      have hstep := ih (ok_lossyStep hs b)
      have hwhole : firsts (lossyFrom ⟨held, r :: want⟩ (b :: u)) ≤
          1 + firsts (fromUtf8Lossy u) := by
        have heq : lossyFrom ⟨held, r :: want⟩ (b :: u) =
            (lossyStep ⟨held, r :: want⟩ b).1 ++ lossyFrom (lossyStep ⟨held, r :: want⟩ b).2 u := by
          simp [lossyFrom, lossyRun]
        rw [heq, firsts_append]
        rw [lossyStep, if_pos hin] at hstep ⊢
        split at hstep
        · next hwant =>
            have hheld : firsts (held ++ [b]) = 1 := by
              have hfirst : held.countP isFirst = 1 := hs.first (List.cons_ne_nil r want)
              simp [firsts, hfirst, hcont]
            have hnone : firsts (flush {}) = 0 := rfl
            rw [if_pos hwant]
            dsimp only at hstep ⊢
            omega
        · next hwant =>
            have hone : firsts (flush ⟨held ++ [b], want⟩) = 1 := by
              rw [flush, if_neg hwant, firsts_replacement]
            have hzero : firsts [] = 0 := rfl
            rw [if_neg hwant]
            dsimp only at hstep ⊢
            omega
      omega

/-- **Decoding in pieces writes at least as many characters.** -/
theorem firsts_lossyFrom_le {u : List UInt8} : ∀ {s : Partial}, s.Ok →
    firsts (lossyFrom s u) ≤ firsts (flush s) + firsts (fromUtf8Lossy u) := by
  induction u with
  | nil =>
      intro s hs
      rw [lossyFrom_of_not_continues hs.held (fun b h => by cases h), firsts_append]
  | cons b u ih =>
      intro s hs
      cases hb : s.continues b with
      | true => exact (firsts_lt_of_continues hs ih hb).le
      | false =>
          have hnot : ∀ c, (b :: u).head? = some c → s.continues c = false := by
            intro c hc
            obtain rfl := Option.some.inj hc
            exact hb
          rw [lossyFrom_of_not_continues hs.held hnot, firsts_append]

variable {t u : List UInt8}

/-- Two pieces that are not cut apart inside a character are decoded one after the other. -/
theorem fromUtf8Lossy_append (h : ¬ Cuts t u) :
    fromUtf8Lossy (t ++ u) = fromUtf8Lossy t ++ fromUtf8Lossy u := by
  have hnot : ∀ b, u.head? = some b → (lossyRun {} t).2.continues b = false := by
    intro b hb
    by_contra hcont
    exact h ⟨b, hb, by simpa using hcont⟩
  calc fromUtf8Lossy (t ++ u)
      = (lossyRun {} t).1 ++ lossyFrom (lossyRun {} t).2 u := lossyFrom_append {} t u
    _ = (lossyRun {} t).1 ++ (flush (lossyRun {} t).2 ++ fromUtf8Lossy u) := by
        rw [lossyFrom_of_not_continues (ok_lossyRun ok_start).held hnot]
    _ = fromUtf8Lossy t ++ fromUtf8Lossy u := (List.append_assoc _ _ _).symm

/-- **Two pieces that are cut apart inside a character give more characters.** -/
theorem firsts_append_lt (h : Cuts t u) :
    firsts (fromUtf8Lossy (t ++ u)) < firsts (fromUtf8Lossy t) + firsts (fromUtf8Lossy u) := by
  obtain ⟨b, hb, hcont⟩ := h
  obtain ⟨rest, rfl⟩ := List.head?_eq_some_iff.mp hb
  have hlt := firsts_lt_of_continues (ok_lossyRun (t := t) ok_start)
    (fun hs => firsts_lossyFrom_le hs) hcont (u := rest)
  have hwhole : fromUtf8Lossy (t ++ b :: rest) =
      (lossyRun {} t).1 ++ lossyFrom (lossyRun {} t).2 (b :: rest) := lossyFrom_append {} t _
  have hfirst : firsts (fromUtf8Lossy t) =
      firsts (lossyRun {} t).1 + firsts (flush (lossyRun {} t).2) := firsts_append _ _
  rw [hwhole, firsts_append]
  omega

/-! ## ASCII bytes

A byte below `0x80` is a character of its own, wherever it stands: it is written once, and what
is before it is decoded apart from what is after it. -/

theorem tails_ascii {b : UInt8} (hb : b < 0x80) : tails b = some [] := by
  revert hb
  revert b
  apply forall_byte
  decide +kernel

/-- A first byte that needs others is none. -/
theorem not_ascii_of_tails {b : UInt8} {want : List (UInt8 × UInt8)} (h : tails b = some want)
    (hwant : want ≠ []) : 0x80 ≤ b := by
  by_contra hb
  rw [tails_ascii (UInt8.not_le.mp hb)] at h
  exact hwant (Option.some.inj h).symm

/-- No byte that is held is one. -/
def Partial.NoAscii (s : Partial) : Prop := ∀ x ∈ s.held, 0x80 ≤ x

theorem noAscii_beginChar (b : UInt8) : (beginChar b).2.NoAscii := by
  unfold beginChar
  split
  · exact fun x hx => absurd hx List.not_mem_nil
  · exact fun x hx => absurd hx List.not_mem_nil
  · next want hwant htails =>
      intro x hx
      rw [List.mem_singleton.mp hx]
      exact not_ascii_of_tails htails hwant

/-- A byte that goes on with a character is none. -/
theorem not_ascii_of_inRange {r : UInt8 × UInt8} (hr : 0x80 ≤ r.1 ∧ r.2 ≤ 0xBF) {b : UInt8}
    (hb : inRange r b = true) : 0x80 ≤ b := by
  simp only [inRange, Bool.and_eq_true, decide_eq_true_eq] at hb
  exact UInt8.le_trans hr.1 hb.1

theorem noAscii_lossyStep {s : Partial} (hs : s.Ok) (hheld : s.NoAscii) (b : UInt8) :
    (lossyStep s b).2.NoAscii := by
  obtain ⟨held, want⟩ := s
  cases want with
  | nil => exact noAscii_beginChar b
  | cons r want =>
      rw [lossyStep]
      split
      · next hin =>
          split
          · exact fun x hx => absurd hx List.not_mem_nil
          · intro x hx
            rcases List.mem_append.mp hx with hx | hx
            · exact hheld x hx
            · rw [List.mem_singleton.mp hx]
              exact not_ascii_of_inRange (hs.later r List.mem_cons_self) hin
      · exact noAscii_beginChar b

theorem count_eq_zero_of_not_ascii {a : UInt8} (ha : a < 0x80) {t : List UInt8}
    (ht : ∀ x ∈ t, 0x80 ≤ x) : t.count a = 0 := by
  apply List.count_eq_zero.mpr
  intro hmem
  exact absurd ha (UInt8.not_lt.mpr (ht a hmem))

theorem count_replacement {a : UInt8} (ha : a < 0x80) : replacement.count a = 0 :=
  count_eq_zero_of_not_ascii ha (by simp [replacement])

theorem count_beginChar {a : UInt8} (ha : a < 0x80) (b : UInt8) :
    (beginChar b).1.count a = [b].count a := by
  have hother : 0x80 ≤ b → [b].count a = 0 := fun hb =>
    count_eq_zero_of_not_ascii ha fun x hx => by rw [List.mem_singleton.mp hx]; exact hb
  unfold beginChar
  split
  · next htails =>
      rw [count_replacement ha, hother]
      by_contra hb
      rw [tails_ascii (UInt8.not_le.mp hb)] at htails
      cases htails
  · rfl
  · next want hwant htails => rw [hother (not_ascii_of_tails htails hwant), List.count_nil]

theorem count_lossyStep {a : UInt8} (ha : a < 0x80) {s : Partial} (hs : s.Ok)
    (hheld : s.NoAscii) (b : UInt8) : (lossyStep s b).1.count a = [b].count a := by
  obtain ⟨held, want⟩ := s
  cases want with
  | nil => exact count_beginChar ha b
  | cons r want =>
      rw [lossyStep]
      split
      · next hin =>
          have hb : 0x80 ≤ b := not_ascii_of_inRange (hs.later r List.mem_cons_self) hin
          have hzero : [b].count a = 0 :=
            count_eq_zero_of_not_ascii ha fun x hx => by rw [List.mem_singleton.mp hx]; exact hb
          split
          · rw [List.count_append, count_eq_zero_of_not_ascii ha hheld, Nat.zero_add]
          · rw [hzero, List.count_nil]
      · rw [List.count_append, count_replacement ha, count_beginChar ha, Nat.zero_add]

theorem count_lossyFrom {a : UInt8} (ha : a < 0x80) {t : List UInt8} : ∀ {s : Partial},
    s.Ok → s.NoAscii → (lossyFrom s t).count a = t.count a := by
  induction t with
  | nil =>
      intro s _ _
      show (flush s).count a = 0
      unfold flush
      split
      · rfl
      · exact count_replacement ha
  | cons b t ih =>
      intro s hs hheld
      have hrest := ih (ok_lossyStep hs b) (noAscii_lossyStep hs hheld b)
      calc (lossyFrom s (b :: t)).count a
          = (lossyStep s b).1.count a + (lossyFrom (lossyStep s b).2 t).count a := by
            simp only [lossyFrom, lossyRun, List.append_assoc, List.count_append]
        _ = [b].count a + t.count a := by rw [count_lossyStep ha hs hheld, hrest]
        _ = (b :: t).count a := by rw [← List.count_append, List.singleton_append]

/-- **ASCII bytes are neither lost nor made.** -/
theorem count_fromUtf8Lossy {a : UInt8} (ha : a < 0x80) (t : List UInt8) :
    (fromUtf8Lossy t).count a = t.count a :=
  count_lossyFrom ha ok_start fun _ hx => absurd hx List.not_mem_nil

theorem mem_fromUtf8Lossy {a : UInt8} (ha : a < 0x80) {t : List UInt8} :
    a ∈ fromUtf8Lossy t ↔ a ∈ t := by
  rw [← List.count_pos_iff, count_fromUtf8Lossy ha, List.count_pos_iff]

theorem lossyFrom_ne_nil {t : List UInt8} : ∀ {s : Partial}, t ≠ [] ∨ s.want ≠ [] →
    lossyFrom s t ≠ [] := by
  induction t with
  | nil =>
      intro s h
      have hwant : s.want ≠ [] := h.resolve_left (fun hne => hne rfl)
      show flush s ≠ []
      rw [flush, if_neg hwant]
      exact List.cons_ne_nil _ _
  | cons b t ih =>
      intro s _ hnil
      have hsplit : (lossyStep s b).1 ++ lossyFrom (lossyStep s b).2 t = [] := by
        simpa only [lossyFrom, lossyRun, List.append_assoc] using hnil
      obtain ⟨hstep, hrest⟩ := List.append_eq_nil_iff.mp hsplit
      have hbegin : (beginChar b).1 = [] → (beginChar b).2.want ≠ [] := by
        unfold beginChar
        split
        · exact fun h => absurd h (List.cons_ne_nil _ _)
        · exact fun h => absurd h (List.cons_ne_nil _ _)
        · next want hwant _ => exact fun _ => hwant
      -- nothing is written only where something is held
      have hheld : (lossyStep s b).2.want ≠ [] := by
        obtain ⟨held, want⟩ := s
        cases want with
        | nil => exact hbegin hstep
        | cons r want =>
            rw [lossyStep] at hstep ⊢
            split at hstep
            · next hin =>
                rw [if_pos hin]
                split at hstep
                · exact absurd (List.append_eq_nil_iff.mp hstep).2 (List.cons_ne_nil _ _)
                · next hwant =>
                    rw [if_neg hwant]
                    exact hwant
            · next hin =>
                rw [if_neg hin]
                exact absurd (List.append_eq_nil_iff.mp hstep).1 (List.cons_ne_nil _ _)
      exact ih (.inr hheld) hrest

theorem fromUtf8Lossy_ne_nil {t : List UInt8} (ht : t ≠ []) : fromUtf8Lossy t ≠ [] :=
  lossyFrom_ne_nil (.inl ht)

/-- An ASCII byte does not go on with a character, and holds nothing back. -/
theorem fromUtf8Lossy_append_ascii {a : UInt8} (ha : a < 0x80) (t u : List UInt8) :
    fromUtf8Lossy (t ++ a :: u) = fromUtf8Lossy t ++ a :: fromUtf8Lossy u := by
  have hnot : ¬ Cuts t (a :: u) := by
    rintro ⟨b, hb, hcont⟩
    obtain rfl := Option.some.inj hb
    have hok : (lossyRun {} t).2.Ok := ok_lossyRun ok_start
    rw [Partial.continues] at hcont
    split at hcont
    · cases hcont
    · next r want hwant =>
        have hr := hok.later r (by rw [hwant]; exact List.mem_cons_self)
        exact absurd ha (UInt8.not_lt.mpr (not_ascii_of_inRange hr hcont))
  have hhead : fromUtf8Lossy (a :: u) = a :: fromUtf8Lossy u := by
    simp only [fromUtf8Lossy, lossyFrom, lossyRun, lossyStep, beginChar, tails_ascii ha,
      List.cons_append, List.nil_append]
  rw [fromUtf8Lossy_append hnot, hhead]

/-- An ASCII byte is written first where it comes first. -/
theorem head?_fromUtf8Lossy {a : UInt8} (ha : a < 0x80) (t : List UInt8) :
    (fromUtf8Lossy t).head? = some a ↔ t.head? = some a := by
  constructor
  · intro h
    have hmem : a ∈ t := (mem_fromUtf8Lossy ha).mp (List.mem_of_head? h)
    obtain ⟨before, after, rfl, hbefore⟩ := List.eq_append_cons_of_mem hmem
    cases before with
    | nil => rfl
    | cons b before =>
        rw [fromUtf8Lossy_append_ascii ha, List.head?_append_of_ne_nil _
          (fromUtf8Lossy_ne_nil (List.cons_ne_nil b before))] at h
        exact absurd ((mem_fromUtf8Lossy ha).mp (List.mem_of_head? h)) hbefore
  · intro h
    obtain ⟨rest, rfl⟩ := List.head?_eq_some_iff.mp h
    have hhead := fromUtf8Lossy_append_ascii ha [] rest
    rw [List.nil_append] at hhead
    rw [hhead]
    rfl

/-- An ASCII byte is written last where it comes last. -/
theorem getLast?_fromUtf8Lossy {a : UInt8} (ha : a < 0x80) (t : List UInt8) :
    (fromUtf8Lossy t).getLast? = some a ↔ t.getLast? = some a := by
  constructor
  · intro h
    have hmem : a ∈ t := (mem_fromUtf8Lossy ha).mp (List.mem_of_getLast? h)
    obtain ⟨before, after, hreverse, hbefore⟩ :=
      List.eq_append_cons_of_mem (List.mem_reverse.mpr hmem)
    -- the last place of the byte
    have ht : t = after.reverse ++ a :: before.reverse := by
      rw [← List.reverse_reverse t, hreverse]
      simp
    subst ht
    cases hb : before.reverse with
    | nil => simp
    | cons b rest =>
        rw [fromUtf8Lossy_append_ascii ha, List.getLast?_append_cons, hb,
          List.getLast?_cons_of_ne_nil (fromUtf8Lossy_ne_nil (List.cons_ne_nil b rest))] at h
        have hlast := (mem_fromUtf8Lossy ha).mp (List.mem_of_getLast? h)
        rw [← hb] at hlast
        exact absurd (List.mem_reverse.mp hlast) hbefore
  · intro h
    obtain ⟨rest, rfl⟩ := List.getLast?_eq_some_iff.mp h
    rw [fromUtf8Lossy_append_ascii ha]
    simp [fromUtf8Lossy, lossyFrom, lossyRun, flush]

/-! ## The bytes of a character -/

theorem toNat_ofNat_byte {n : Nat} (hn : n < 256) : (UInt8.ofNat n).toNat = n := by
  rw [UInt8.toNat_ofNat', Nat.mod_eq_of_lt hn]

/-- A byte with the given number is compared by it. -/
theorem inRange_ofNat {lo hi : UInt8} {n : Nat} (hlo : lo.toNat ≤ n) (hhi : n ≤ hi.toNat) :
    inRange (lo, hi) (UInt8.ofNat n) = true := by
  have hn := toNat_ofNat_byte (Nat.lt_of_le_of_lt hhi hi.toNat_lt)
  simp only [inRange, Bool.and_eq_true, decide_eq_true_eq, UInt8.le_iff_toNat_le, hn]
  exact ⟨hlo, hhi⟩

theorem tails_two : ∀ b : UInt8, 0xC2 ≤ b → b ≤ 0xDF → tails b = some [(0x80, 0xBF)] := by
  apply forall_byte
  decide +kernel

/-- The second byte of three: neither an overlong form nor a surrogate. -/
def secondOfThree (b : UInt8) : UInt8 × UInt8 :=
  if b = 0xE0 then (0xA0, 0xBF) else if b = 0xED then (0x80, 0x9F) else (0x80, 0xBF)

theorem tails_three : ∀ b : UInt8, 0xE0 ≤ b → b ≤ 0xEF →
    tails b = some [secondOfThree b, (0x80, 0xBF)] := by
  apply forall_byte
  decide +kernel

/-- The second byte of four: neither an overlong form nor above `U+10FFFF`. -/
def secondOfFour (b : UInt8) : UInt8 × UInt8 :=
  if b = 0xF0 then (0x90, 0xBF) else if b = 0xF4 then (0x80, 0x8F) else (0x80, 0xBF)

theorem tails_four : ∀ b : UInt8, 0xF0 ≤ b → b ≤ 0xF4 →
    tails b = some [secondOfFour b, (0x80, 0xBF), (0x80, 0xBF)] := by
  apply forall_byte
  decide +kernel

/-- The bytes that are still to come complete the character. -/
theorem checkFrom_complete {rest : List UInt8} (valid : Nat) :
    ∀ {want : List (UInt8 × UInt8)} {bs held : List UInt8}, want ≠ [] →
      List.Forall₂ (fun r b => inRange r b = true) want bs →
      checkFrom ⟨held, want⟩ valid (bs ++ rest) =
        checkFrom {} (valid + held.length + bs.length) rest := by
  intro want
  induction want with
  | nil => exact fun hne => absurd rfl hne
  | cons r want ih =>
      intro bs held _ hbs
      cases hbs with
      | cons hb hbs =>
          rename_i b bs
          rw [List.cons_append, checkFrom, if_pos hb, List.length_cons]
          by_cases hwant : want = []
          · subst hwant
            cases hbs
            rw [if_pos rfl, List.nil_append, List.length_nil, Nat.add_assoc]
          · rw [if_neg hwant, ih hwant hbs, List.length_append, List.length_singleton]
            congr 1
            omega

/-- A first byte and the bytes that it needs are a character. -/
theorem checkFrom_character {b : UInt8} {bs : List UInt8} {want : List (UInt8 × UInt8)}
    (hwant : tails b = some want) (hne : want ≠ [])
    (hbs : List.Forall₂ (fun r b => inRange r b = true) want bs) (valid : Nat)
    (rest : List UInt8) :
    checkFrom {} valid (b :: bs ++ rest) = checkFrom {} (valid + (b :: bs).length) rest := by
  have hstep : checkFrom {} valid (b :: bs ++ rest) =
      checkFrom ⟨[b], want⟩ valid (bs ++ rest) := by
    cases want with
    | nil => exact absurd rfl hne
    | cons r want =>
        rw [List.cons_append, checkFrom, hwant]
  rw [hstep, checkFrom_complete valid hne hbs]
  congr 1
  simp only [List.length_cons, List.length_nil]
  omega

theorem checkFrom_encodeChar (c : Char) (valid : Nat) (rest : List UInt8) :
    checkFrom {} valid (String.utf8EncodeChar c ++ rest) =
      checkFrom {} (valid + (String.utf8EncodeChar c).length) rest := by
  have hchar : c.toNat < 0xD800 ∨ 0xDFFF < c.toNat ∧ c.toNat < 0x110000 := c.valid
  have hval : c.val.toNat = c.toNat := rfl
  have hle : ∀ {lo : UInt8} {n : Nat}, lo.toNat ≤ n → n < 256 → lo ≤ UInt8.ofNat n := by
    intro lo n hlo hn
    rw [UInt8.le_iff_toNat_le, toNat_ofNat_byte hn]
    exact hlo
  have hge : ∀ {hi : UInt8} {n : Nat}, n ≤ hi.toNat → UInt8.ofNat n ≤ hi := by
    intro hi n hhi
    rw [UInt8.le_iff_toNat_le, toNat_ofNat_byte (Nat.lt_of_le_of_lt hhi hi.toNat_lt)]
    exact hhi
  have heq : ∀ {b : UInt8} {n : Nat}, n < 256 → UInt8.ofNat n = b → n = b.toNat := by
    rintro b n hn rfl
    exact (toNat_ofNat_byte hn).symm
  have hlater : ∀ n : Nat, inRange (0x80, 0xBF) (UInt8.ofNat (n % 0x40 + 0x80)) = true := by
    intro n
    apply inRange_ofNat
    · show 128 ≤ _
      omega
    · show _ ≤ 191
      omega
  unfold String.utf8EncodeChar
  dsimp only
  rw [hval]
  split
  · next h1 =>
      have htails : tails (UInt8.ofNat c.toNat) = some [] := by
        apply tails_ascii
        rw [UInt8.lt_iff_toNat_lt, toNat_ofNat_byte (by omega)]
        show c.toNat < 128
        omega
      rw [List.singleton_append, checkFrom, htails]
      rfl
  · split
    · have hfirst : tails (UInt8.ofNat (c.toNat / 64 % 0x20 + 0xc0)) = some [(0x80, 0xBF)] := by
        apply tails_two
        · apply hle
          · show 194 ≤ _
            omega
          · omega
        · apply hge
          show _ ≤ 223
          omega
      exact checkFrom_character hfirst (List.cons_ne_nil _ _) (.cons (hlater _) .nil) valid rest
    · split
      · have hfirst : tails (UInt8.ofNat (c.toNat / 4096 % 0x10 + 0xe0)) =
            some [secondOfThree (UInt8.ofNat (c.toNat / 4096 % 0x10 + 0xe0)), (0x80, 0xBF)] := by
          apply tails_three
          · apply hle
            · show 224 ≤ _
              omega
            · omega
          · apply hge
            show _ ≤ 239
            omega
        have hsecond : inRange (secondOfThree (UInt8.ofNat (c.toNat / 4096 % 0x10 + 0xe0)))
            (UInt8.ofNat (c.toNat / 64 % 0x40 + 0x80)) = true := by
          unfold secondOfThree
          split
          · next hb =>
              have hn : c.toNat / 4096 % 0x10 + 0xe0 = 224 := heq (by omega) hb
              apply inRange_ofNat
              · show 160 ≤ _
                omega
              · show _ ≤ 191
                omega
          · split
            · next hb =>
                have hn : c.toNat / 4096 % 0x10 + 0xe0 = 237 := heq (by omega) hb
                apply inRange_ofNat
                · show 128 ≤ _
                  omega
                · show _ ≤ 159
                  omega
            · exact hlater _
        exact checkFrom_character hfirst (List.cons_ne_nil _ _)
          (.cons hsecond (.cons (hlater _) .nil)) valid rest
      · have hfirst : tails (UInt8.ofNat (c.toNat / 262144 % 0x08 + 0xf0)) =
            some [secondOfFour (UInt8.ofNat (c.toNat / 262144 % 0x08 + 0xf0)), (0x80, 0xBF),
              (0x80, 0xBF)] := by
          apply tails_four
          · apply hle
            · show 240 ≤ _
              omega
            · omega
          · apply hge
            show _ ≤ 244
            omega
        have hsecond : inRange (secondOfFour (UInt8.ofNat (c.toNat / 262144 % 0x08 + 0xf0)))
            (UInt8.ofNat (c.toNat / 4096 % 0x40 + 0x80)) = true := by
          unfold secondOfFour
          split
          · next hb =>
              have hn : c.toNat / 262144 % 0x08 + 0xf0 = 240 := heq (by omega) hb
              apply inRange_ofNat
              · show 144 ≤ _
                omega
              · show _ ≤ 191
                omega
          · split
            · next hb =>
                have hn : c.toNat / 262144 % 0x08 + 0xf0 = 244 := heq (by omega) hb
                apply inRange_ofNat
                · show 128 ≤ _
                  omega
                · show _ ≤ 143
                  omega
            · exact hlater _
        exact checkFrom_character hfirst (List.cons_ne_nil _ _)
          (.cons hsecond (.cons (hlater _) (.cons (hlater _) .nil))) valid rest

theorem checkFrom_encode (cs : List Char) (valid : Nat) :
    checkFrom {} valid (encode cs) = .ok () := by
  induction cs generalizing valid with
  | nil => rfl
  | cons c cs ih => rw [encode_cons, checkFrom_encodeChar, ih]

/-- **A string is valid.** -/
theorem fromUtf8_encode (cs : List Char) : fromUtf8 (encode cs) = .ok () := checkFrom_encode cs 0

/-- A string is decoded to itself. -/
theorem fromUtf8Lossy_encode (cs : List Char) : fromUtf8Lossy (encode cs) = encode cs := by
  have hall := fromUtf8Lossy_append_of_valid (fromUtf8_encode cs) []
  have hnil : fromUtf8Lossy [] = [] := rfl
  rwa [hnil, List.append_nil] at hall

/-! ## What is written is valid -/

/-- What is held is what was read. -/
def Partial.Reached (s : Partial) : Prop :=
  ∀ valid u, checkFrom {} valid (s.held ++ u) = checkFrom s valid u

theorem reached_beginChar (b : UInt8) : (beginChar b).2.Reached := by
  unfold beginChar
  split
  · exact fun _ _ => rfl
  · exact fun _ _ => rfl
  · next want hwant htails =>
      intro valid u
      cases want with
      | nil => exact absurd rfl hwant
      | cons r want =>
          show checkFrom {} valid (b :: u) = _
          rw [checkFrom, htails]

theorem reached_lossyStep {s : Partial} (hs : s.Reached) (b : UInt8) :
    (lossyStep s b).2.Reached := by
  obtain ⟨held, want⟩ := s
  cases want with
  | nil => exact reached_beginChar b
  | cons r want =>
      rw [lossyStep]
      split
      · next hin =>
          split
          · exact fun _ _ => rfl
          · next hwant =>
              intro valid u
              have hread := hs valid (b :: u)
              rw [checkFrom, if_pos hin, if_neg hwant] at hread
              rw [← hread, List.append_assoc]
              rfl
      · exact reached_beginChar b

/-- What one step writes is read as characters. -/
theorem check_lossyStep {s : Partial} (hs : s.Reached) (b : UInt8) (valid : Nat)
    (u : List UInt8) : ∃ more,
    checkFrom {} valid ((lossyStep s b).1 ++ u) = checkFrom {} (valid + more) u := by
  have hbegin : ∀ valid, ∃ more,
      checkFrom {} valid ((beginChar b).1 ++ u) = checkFrom {} (valid + more) u := by
    intro valid
    unfold beginChar
    split
    · exact ⟨3, rfl⟩
    · next htails =>
        refine ⟨1, ?_⟩
        show checkFrom {} valid (b :: u) = _
        rw [checkFrom, htails]
    · exact ⟨0, rfl⟩
  obtain ⟨held, want⟩ := s
  cases want with
  | nil => exact hbegin valid
  | cons r want =>
      rw [lossyStep]
      split
      · next hin =>
          split
          · next hwant =>
              refine ⟨held.length + 1, ?_⟩
              have hread := hs valid (b :: u)
              rw [checkFrom, if_pos hin, if_pos hwant] at hread
              rw [← Nat.add_assoc, ← hread, List.append_assoc]
              rfl
          · exact ⟨0, rfl⟩
      · obtain ⟨more, hmore⟩ := hbegin (valid + 3)
        refine ⟨3 + more, ?_⟩
        rw [List.append_assoc, ← Nat.add_assoc, ← hmore]
        rfl

theorem check_lossyFrom {t : List UInt8} : ∀ {s : Partial} (valid : Nat), s.Reached →
    checkFrom {} valid (lossyFrom s t) = .ok () := by
  induction t with
  | nil =>
      intro s valid _
      show checkFrom {} valid (flush s) = .ok ()
      unfold flush
      split
      · rfl
      · rfl
  | cons b t ih =>
      intro s valid hs
      have hsplit : lossyFrom s (b :: t) = (lossyStep s b).1 ++ lossyFrom (lossyStep s b).2 t := by
        simp only [lossyFrom, lossyRun, List.append_assoc]
      obtain ⟨more, hmore⟩ := check_lossyStep hs b valid (lossyFrom (lossyStep s b).2 t)
      rw [hsplit, hmore]
      exact ih (valid + more) (reached_lossyStep hs b)

/-- What is read lossily is valid. -/
theorem fromUtf8_fromUtf8Lossy (t : List UInt8) : fromUtf8 (fromUtf8Lossy t) = .ok () :=
  check_lossyFrom 0 fun _ _ => rfl

/-- **Only valid bytes are kept as they are.** -/
theorem fromUtf8Lossy_eq_self_iff {t : List UInt8} : fromUtf8Lossy t = t ↔ fromUtf8 t = .ok () := by
  constructor
  · intro h
    rw [← h]
    exact fromUtf8_fromUtf8Lossy t
  · intro h
    have hall := fromUtf8Lossy_append_of_valid h []
    have hnil : fromUtf8Lossy [] = [] := rfl
    rwa [hnil, List.append_nil] at hall

end Utf8
