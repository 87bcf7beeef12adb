import TurboCi.Lib.Scan
import TurboCi.Lib.Utf8

set_option autoImplicit false

/-! # The secret scrubber

`SecretScrubber` masks exact secrets and pattern matches in a text; `StreamScrubber` does the
same for output that arrives in chunks, holding back a tail that may become a secret
(`security/secret_scrubber.rs`). Texts are byte lists and every offset is a byte offset, as in
the source. The patterns are any functions from texts to match ranges; the default ones are in
`Security/DefaultPatterns.lean`.
-/

namespace TurboCi

open Masking Utf8

abbrev Text := List UInt8

/-- Longest run of token-like characters held back while streaming. -/
def maxHoldback : Nat := 256

/-- Most output ever held back. -/
def maxPending : Nat := 16 * 1024

/-- `[MASKED]`. -/
def marker : Text := encode "[MASKED]".toList

/-- What `[MASKED]` holds between its brackets. -/
def markerWord : Text := encode "MASKED".toList

theorem marker_eq : marker = 0x5B :: (markerWord ++ [0x5D]) := by decide

/-- Characters that can be part of a token. They are all ASCII, so the last bytes of a text
show the run of token characters it ends with. -/
def isTokenChar (b : UInt8) : Bool :=
  (0x61 ≤ b && b ≤ 0x7A) || (0x41 ≤ b && b ≤ 0x5A) || (0x30 ≤ b && b ≤ 0x39) ||
    (encode "-_+/=.:@%~".toList).contains b

/-- The largest `k` from the given one down to 1 such that `text` ends with the first `k` bytes
of `secret`, cut at a character. -/
def suffixPrefixFrom (text secret : Text) : Nat → Nat
  | 0 => 0
  | k + 1 =>
      if isCharBoundary secret (k + 1) && (secret.take (k + 1)).isSuffixOf text then k + 1
      else suffixPrefixFrom text secret k

/-- Length of the longest proper prefix of `secret` that `text` ends with. -/
def suffixPrefixLen (text secret : Text) : Nat :=
  suffixPrefixFrom text secret (secret.length - 1)

/-- A pattern: its leftmost non-overlapping matches in a text, which begin and end between
characters. -/
structure Pattern where
  findIter : Text → List Range
  ordered : ∀ t, Ordered t.length 0 (findIter t)
  boundary : ∀ {t}, Valid t → ∀ r ∈ findIter t,
    isCharBoundary t r.1 = true ∧ isCharBoundary t r.2 = true

structure SecretScrubber where
  secrets : List Str
  patterns : List Pattern

namespace SecretScrubber

/-- `str::replace` of a secret by `[MASKED]`. -/
def replace (secret text : Text) : Text := mask marker ((literal secret).scan text) text

/-- `Regex::replace_all` by `[MASKED]`. -/
def replaceAll (text : Text) (pattern : Pattern) : Text :=
  mask marker (pattern.findIter text) text

/-- One round of the loop over the secrets. -/
def scrubSecret (result : Text) (secret : Str) : Text :=
  if secret.bytes ≠ [] ∧ 4 < secret.bytes.length then replace secret.bytes result else result

/-- Scrub secrets from a text: the exact secrets in their order, then the patterns. -/
def scrub (self : SecretScrubber) (text : Text) : Text :=
  self.patterns.foldl replaceAll (self.secrets.foldl scrubSecret text)

/-- Add a custom secret. -/
def addSecret (self : SecretScrubber) (secret : Str) : SecretScrubber :=
  if secret.bytes ≠ [] ∧ ¬ self.secrets.any (·.bytes == secret.bytes) then
    { self with secrets := self.secrets ++ [secret] }
  else self

/-- Byte ranges of everything `scrub` would mask. -/
def matchRanges (self : SecretScrubber) (text : Text) : List Range :=
  ((self.secrets.filter (4 < ·.bytes.length)).flatMap (fun s => (literal s.bytes).scan text)) ++
    self.patterns.flatMap (fun p => p.findIter text)

def longestSecret (self : SecretScrubber) : Nat :=
  ((self.secrets.map (·.bytes.length)).max?).getD 0

end SecretScrubber

/-! ## Streaming -/

/-- A stream of output chunks being scrubbed: the output held back, and whether it is inside
an over-long match that was already masked. -/
structure StreamScrubber where
  pending : Text
  swallowing : Bool
  deriving DecidableEq

def StreamScrubber.new : StreamScrubber := ⟨[], false⟩

/-- Whether a white space character is at the front: the characters of `char::is_whitespace`. -/
def startsWithWhitespace : Text → Bool
  | 0xC2 :: 0x85 :: _ => true
  | 0xC2 :: 0xA0 :: _ => true
  | 0xE1 :: 0x9A :: 0x80 :: _ => true
  | 0xE2 :: 0x80 :: b :: _ => (0x80 ≤ b && b ≤ 0x8A) || b == 0xA8 || b == 0xA9 || b == 0xAF
  | 0xE2 :: 0x81 :: 0x9F :: _ => true
  | 0xE3 :: 0x80 :: 0x80 :: _ => true
  | b :: _ => (0x09 ≤ b && b ≤ 0x0D) || b == 0x20
  | [] => false

/-- `str::find(char::is_whitespace)`. -/
def findWhitespace : Text → Option Nat
  | [] => none
  | b :: t => if startsWithWhitespace (b :: t) then some 0 else (findWhitespace t).map (· + 1)

/-- Step down to a character boundary. -/
def floorCharBoundary (text : Text) : Nat → Nat
  | 0 => 0
  | i + 1 => if isCharBoundary text (i + 1) then i + 1 else floorCharBoundary text i

/-- Step up to a character boundary, at most `fuel` times. -/
def ceilCharBoundaryFrom (text : Text) : Nat → Nat → Nat
  | 0, i => i
  | fuel + 1, i => if isCharBoundary text i then i else ceilCharBoundaryFrom text fuel (i + 1)

/-- Step up to a character boundary; the end of the text is one. -/
def ceilCharBoundary (text : Text) (i : Nat) : Nat :=
  ceilCharBoundaryFrom text (text.length - i) i

namespace SecretScrubber

/-- How many bytes at the end may be the start of an exact secret, or a token still being
written. -/
def heldBack (self : SecretScrubber) (pending : Text) : Nat :=
  let secretStart := ((self.secrets.map (fun s => suffixPrefixLen pending s.bytes)).max?).getD 0
  let tokenRun := (pending.reverse.takeWhile isTokenChar).length
  max secretStart (min tokenRun maxHoldback)

/-- Never cut through a match, and keep matches touching the end: one pass over the ranges. -/
def drawBack (len boundary : Nat) (ranges : List Range) : Nat :=
  ranges.foldl (fun boundary r =>
    if r.1 < boundary ∧ (boundary < r.2 ∨ r.2 = len) then r.1 else boundary) boundary

/-- How much may be held back. -/
def limit (self : SecretScrubber) : Nat := max maxPending (self.longestSecret + maxHoldback)

/-- What a push does with the buffered output. -/
inductive Cut where
  /-- emit what is before the boundary, hold back the rest -/
  | split (boundary : Nat)
  /-- a match still growing at the limit: emit what is before it, mask it and swallow its rest -/
  | swallow (start : Nat)
  deriving DecidableEq

/-- Where a push splits the buffered output. -/
def cut (self : SecretScrubber) (pending : Text) : Cut :=
  let len := pending.length
  let ranges := self.matchRanges pending
  let boundary := drawBack len (floorCharBoundary pending (len - self.heldBack pending)) ranges
  if self.limit < len - boundary then
    match ((ranges.filter (fun r => r.2 = len)).map Prod.fst).min? with
    | some start => .swallow start
    | none => .split (ceilCharBoundary pending (len - self.limit))
  else .split boundary

end SecretScrubber

namespace StreamScrubber

open SecretScrubber

/-- The part of `push` that runs outside an over-long match. -/
def feed (scrubber : SecretScrubber) (self : StreamScrubber) (chunk : Text) :
    Text × StreamScrubber :=
  let pending := self.pending ++ chunk
  match scrubber.cut pending with
  | .split boundary =>
      (scrubber.scrub (pending.take boundary), { self with pending := pending.drop boundary })
  | .swallow start =>
      (scrubber.scrub (pending.take start) ++ marker, { pending := [], swallowing := true })

/-- Feed a chunk; the scrubbed output that is safe to emit now, and the new state. -/
def push (scrubber : SecretScrubber) (self : StreamScrubber) (chunk : Text) :
    Text × StreamScrubber :=
  if self.swallowing then
    match findWhitespace chunk with
    | some stop => feed scrubber { self with swallowing := false } (chunk.drop stop)
    | none => ([], self)
  else feed scrubber self chunk

/-- Flush everything still held back. -/
def finish (scrubber : SecretScrubber) (self : StreamScrubber) : Text × StreamScrubber :=
  (scrubber.scrub self.pending, { pending := [], swallowing := false })

/-- The concatenated results of pushing the chunks and of `finish`. -/
def run (scrubber : SecretScrubber) : StreamScrubber → List Str → Text
  | self, [] => (finish scrubber self).1
  | self, chunk :: chunks =>
      (push scrubber self chunk.bytes).1 ++ run scrubber (push scrubber self chunk.bytes).2 chunks

end StreamScrubber

end TurboCi
