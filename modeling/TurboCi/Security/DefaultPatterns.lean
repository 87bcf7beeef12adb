import TurboCi.Lib.Regex
import TurboCi.Security.SecretScrubber

set_option autoImplicit false

/-! # The default patterns

The regular expressions that every scrubber made by `SecretScrubber::new` masks, over the bytes
of a string. A class reads one whole character, as the expressions do; matches therefore begin
and end between characters.
-/

namespace TurboCi

open Masking Utf8

/-! ## Atoms -/

/-- A character whose bytes satisfy `p`. -/
def charAtom (p : Text → Bool) : Atom UInt8 where
  read
    | [] => none
    | b :: t =>
        if isFirst b && decide (width b ≤ (b :: t).length) && p ((b :: t).take (width b)) then
          some (width b)
        else none
  pos {t n} h := by
    cases t with
    | nil => cases h
    | cons b t =>
        simp only [Option.ite_none_right_eq_some] at h
        rw [← Option.some.inj h.2]
        exact width_pos b
  bounded {t n} h := by
    cases t with
    | nil => cases h
    | cons b t =>
        simp only [Option.ite_none_right_eq_some, Bool.and_eq_true, decide_eq_true_eq] at h
        rw [← Option.some.inj h.2]
        exact h.1.1.2
  shrink {x y n} h hn := by
    cases x with
    | nil =>
        cases y with
        | nil => cases h
        | cons b y =>
            simp only [List.nil_append, Option.ite_none_right_eq_some] at h
            have := width_pos b
            obtain rfl := Option.some.inj h.2
            simp at hn
            omega
    | cons b x =>
        simp only [List.cons_append, Option.ite_none_right_eq_some, Bool.and_eq_true,
          decide_eq_true_eq] at h ⊢
        obtain rfl := Option.some.inj h.2
        rw [← List.cons_append, List.take_append_of_le_length hn] at h
        exact ⟨⟨⟨h.1.1.1, hn⟩, h.1.2⟩, rfl⟩
  grow {x y n} h := by
    cases x with
    | nil => cases h
    | cons b x =>
        simp only [List.cons_append, Option.ite_none_right_eq_some, Bool.and_eq_true,
          decide_eq_true_eq] at h ⊢
        rw [← List.cons_append, List.take_append_of_le_length h.1.1.2, List.length_append]
        exact ⟨⟨⟨h.1.1.1, h.1.1.2.trans (Nat.le_add_right _ _)⟩, h.1.2⟩, h.2⟩

/-- A fixed word. -/
def wordAtom (s : Str) : Atom UInt8 where
  read := (literal s.bytes).run
  pos := (literal s.bytes).pos
  bounded := (literal s.bytes).bounded
  shrink := (literal_local s.bytes).shrink
  grow {x y n} h := by
    simp only [literal, Option.ite_none_right_eq_some] at h ⊢
    exact ⟨⟨h.1.1, h.1.2.trans (List.prefix_append x y)⟩, h.2⟩

/-- A character begins at the front. -/
def AtChar (t : Text) : Prop := ∃ b rest, t = b :: rest ∧ isFirst b = true

theorem reads_charAtom (p : Text → Bool) : Regex.Reads AtChar Valid (charAtom p) := by
  intro t n h
  cases t with
  | nil => cases h
  | cons b t =>
      simp only [charAtom, Option.ite_none_right_eq_some, Bool.and_eq_true] at h
      rw [← Option.some.inj h.2]
      exact ⟨⟨b, t, rfl, h.1.1.1⟩, Valid.drop_width⟩

theorem reads_wordAtom (s : Str) : Regex.Reads AtChar Valid (wordAtom s) := by
  intro t n h
  simp only [wordAtom, literal, Option.ite_none_right_eq_some] at h
  obtain ⟨⟨hne, z, rfl⟩, hn⟩ := h
  obtain rfl := Option.some.inj hn
  refine ⟨?_, fun hv => ?_⟩
  · cases hs : s.bytes with
    | nil => exact absurd hs hne
    | cons b bs =>
        have hv : Valid (b :: bs) := hs ▸ s.valid
        exact ⟨b, bs ++ z, rfl, hv.width_le.1⟩
  · exact (hv.split (by simp) (s.valid.isCharBoundary_append hv)).2

/-! ## Expressions over characters -/

/-- A regular expression that reads whole characters. -/
structure TextRegex where
  regex : Regex UInt8
  reads : regex.All (Regex.Reads AtChar Valid)

namespace TextRegex

def word (s : String) : TextRegex :=
  ⟨.atom (wordAtom (.ofChars s.toList)), reads_wordAtom _⟩

def many (p : Text → Bool) (min : Nat) (max : Option Nat) : TextRegex :=
  ⟨.many (charAtom p) min max, reads_charAtom p⟩

/-- One character. -/
def one (p : Text → Bool) : TextRegex := ⟨.atom (charAtom p), reads_charAtom p⟩

/-- `{n,}`; `*` is `{0,}` and `+` is `{1,}`. -/
def atLeast (n : Nat) (p : Text → Bool) : TextRegex := many p n none

def exactly (n : Nat) (p : Text → Bool) : TextRegex := many p n (some n)

def optional (p : Text → Bool) : TextRegex := many p 0 (some 1)

def alt (a b : TextRegex) : TextRegex := ⟨.alt a.regex b.regex, a.reads, b.reads⟩

instance : Append TextRegex := ⟨fun a b => ⟨a.regex ++ b.regex, a.reads, b.reads⟩⟩

/-! ### Classes -/

/-- An ASCII character of a class. -/
def ascii (p : UInt8 → Bool) : Text → Bool
  | [b] => p b
  | _ => false

def upper (b : UInt8) : Bool := 0x41 ≤ b && b ≤ 0x5A
def lower (b : UInt8) : Bool := 0x61 ≤ b && b ≤ 0x7A
def digit (b : UInt8) : Bool := 0x30 ≤ b && b ≤ 0x39
def alnum (b : UInt8) : Bool := upper b || lower b || digit b

/-- Alphanumeric or one of the given characters. -/
def alnumOr (s : String) : Text → Bool := ascii (fun b => alnum b || (encode s.toList).contains b)

def oneOf (s : String) : Text → Bool := ascii (fun b => (encode s.toList).contains b)

/-- Any character but the given ASCII one. -/
def noneOf (c : UInt8) (char : Text) : Bool := char != [c]

/-- `\s`. -/
def space : Text → Bool := startsWithWhitespace

/-- `\S`. -/
def nonSpace (char : Text) : Bool := !startsWithWhitespace char

end TextRegex

/-- An expression that matches no empty text. -/
structure PatternRegex extends TextRegex where
  consumes : regex.consumes = true

namespace PatternRegex

def matcher (r : PatternRegex) : Matcher UInt8 := r.regex.matcher r.consumes

/-- `Regex::find_iter`. -/
def pattern (r : PatternRegex) : Pattern where
  findIter := r.matcher.scan
  ordered := r.matcher.ordered_scan
  boundary {t} ht q hq := by
    obtain ⟨hle, hrun⟩ := r.matcher.run_of_mem_scan hq
    have hmem : q.2 - q.1 ∈ r.regex.ends (t.drop q.1) := List.mem_of_head? hrun
    have hpos := r.matcher.pos hrun
    have hbound := r.matcher.bounded hrun
    rw [List.length_drop] at hbound
    obtain ⟨hfront, hrest⟩ := Regex.carry r.reads hmem
    obtain ⟨b, rest, hb, hfirst⟩ := hfront hpos
    have hstart := isCharBoundary_of_isFirst hb hfirst
    have hvalid := hrest (ht.split (by omega) hstart).2
    rw [List.drop_drop, show q.1 + (q.2 - q.1) = q.2 by omega] at hvalid
    exact ⟨hstart, isCharBoundary_of_valid_drop (by omega) hvalid⟩

end PatternRegex

/-! ## The list -/

open TextRegex

/-- `get_default_patterns`. -/
def defaultRegexes : List PatternRegex := [
  -- GitLab tokens
  ⟨word "glrt-" ++ atLeast 20 (alnumOr "_-"), rfl⟩,
  ⟨word "GR1348941" ++ atLeast 20 (alnumOr ""), rfl⟩,
  -- GitHub tokens
  ⟨word "gh" ++ one (oneOf "pousr") ++ word "_" ++ atLeast 36 (alnumOr "_"), rfl⟩,
  -- AWS credentials
  ⟨word "AKIA" ++ exactly 16 (ascii (fun b => digit b || upper b)), rfl⟩,
  ⟨word "aws_secret_access_key" ++ atLeast 0 space ++ word "=" ++ atLeast 0 space
    ++ exactly 40 (alnumOr "/+="), rfl⟩,
  -- generic API keys
  ⟨word "api" ++ optional (oneOf "_-") ++ word "key" ++ atLeast 0 space ++ one (oneOf ":=")
    ++ atLeast 0 space ++ atLeast 32 (alnumOr "_-"), rfl⟩,
  -- generic secrets
  ⟨word "secret" ++ atLeast 0 space ++ one (oneOf ":=") ++ atLeast 0 space
    ++ atLeast 16 (alnumOr "_-"), rfl⟩,
  -- passwords
  ⟨word "password" ++ atLeast 0 space ++ one (oneOf ":=") ++ atLeast 0 space
    ++ atLeast 8 nonSpace, rfl⟩,
  -- private keys
  ⟨word "-----BEGIN " ++ atLeast 1 (ascii upper) ++ word " PRIVATE KEY-----", rfl⟩,
  -- JWT tokens
  ⟨word "eyJ" ++ atLeast 0 (alnumOr "_-") ++ word ".eyJ" ++ atLeast 0 (alnumOr "_-") ++ word "."
    ++ atLeast 0 (alnumOr "_-"), rfl⟩,
  -- database URLs
  ⟨alt (word "postgres") (alt (word "mysql") (word "mongodb")) ++ word "://"
    ++ atLeast 1 (noneOf 0x3A) ++ word ":" ++ atLeast 1 (noneOf 0x40) ++ word "@", rfl⟩,
  -- Redis URLs with passwords
  ⟨word "redis://" ++ atLeast 0 (noneOf 0x3A) ++ word ":" ++ atLeast 1 (noneOf 0x40) ++ word "@",
    rfl⟩]

/-- A scrubber with custom secrets and the default patterns. -/
def SecretScrubber.new (secrets : List Str) : SecretScrubber :=
  ⟨secrets, defaultRegexes.map PatternRegex.pattern⟩

end TurboCi
