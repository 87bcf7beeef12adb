import TurboCi.Security.DrawBack

set_option autoImplicit false

/-! # The stream's limit

`checkedPush` is `push` with what Rust checks at run time: a `usize` subtraction, or a slice of a
string, that panics has no result. It refines `push` (`checkedPush_eq`), so no push of a stream
panics, and what a push holds back is within the limit (`push_pending`).
-/

namespace TurboCi

open Masking Utf8

/-! ## Checked operations -/

/-- `a - b` of `usize`. -/
def checkedSub (a b : Nat) : Option Nat := if b ≤ a then some (a - b) else none

/-- `&text[..i]`. -/
def sliceTo (text : Text) (i : Nat) : Option Text :=
  if isCharBoundary text i then some (text.take i) else none

/-- `&text[i..]`. -/
def sliceFrom (text : Text) (i : Nat) : Option Text :=
  if isCharBoundary text i then some (text.drop i) else none

/-- `text.split_off(i)`: what remains, and what was split off. -/
def splitOff (text : Text) (i : Nat) : Option (Text × Text) :=
  if isCharBoundary text i then some (text.take i, text.drop i) else none

/-- The loop of `suffix_prefix_len`, which slices the secret at character boundaries only. -/
def checkedSuffixPrefixFrom (text secret : Text) : Nat → Option Nat
  | 0 => some 0
  | k + 1 =>
      if isCharBoundary secret (k + 1) then do
        let start ← sliceTo secret (k + 1)
        if start.isSuffixOf text then some (k + 1) else checkedSuffixPrefixFrom text secret k
      else checkedSuffixPrefixFrom text secret k

def checkedSuffixPrefixLen (text secret : Text) : Option Nat :=
  checkedSuffixPrefixFrom text secret (secret.length - 1)

/-- Step down to a character boundary, by `boundary -= 1`. -/
def checkedFloor (text : Text) : Nat → Option Nat
  | 0 => if isCharBoundary text 0 then some 0 else none
  | i + 1 => if isCharBoundary text (i + 1) then some (i + 1) else checkedFloor text i

/-- Step up to a character boundary, at most `fuel` times. -/
def checkedCeilFrom (text : Text) : Nat → Nat → Option Nat
  | 0, i => if isCharBoundary text i then some i else none
  | fuel + 1, i =>
      if isCharBoundary text i then some i else checkedCeilFrom text fuel (i + 1)

/-- Step up to a character boundary: past the end there is none to come. -/
def checkedCeil (text : Text) (i : Nat) : Option Nat := checkedCeilFrom text (text.length - i) i

namespace SecretScrubber

def checkedHeldBack (self : SecretScrubber) (pending : Text) : Option Nat := do
  let starts ← self.secrets.mapM (fun s => checkedSuffixPrefixLen pending s.bytes)
  let tokenRun := (pending.reverse.takeWhile isTokenChar).length
  some (max (starts.max?.getD 0) (min tokenRun maxHoldback))

def checkedCut (self : SecretScrubber) (pending : Text) : Option Cut := do
  let len := pending.length
  let heldBack ← self.checkedHeldBack pending
  let tail ← checkedSub len heldBack
  let floor ← checkedFloor pending tail
  let ranges := self.matchRanges pending
  let boundary := drawBack len floor ranges
  let held ← checkedSub len boundary
  if self.limit < held then
    match ((ranges.filter (fun r => r.2 = len)).map Prod.fst).min? with
    | some start => some (.swallow start)
    | none => do
        let start ← checkedSub len self.limit
        let boundary ← checkedCeil pending start
        some (.split boundary)
  else some (.split boundary)

end SecretScrubber

namespace StreamScrubber

open SecretScrubber

def checkedFeed (scrubber : SecretScrubber) (self : StreamScrubber) (chunk : Text) :
    Option (Text × StreamScrubber) := do
  let pending := self.pending ++ chunk
  match ← scrubber.checkedCut pending with
  | .split boundary => do
      let (ready, rest) ← splitOff pending boundary
      some (scrubber.scrub ready, { self with pending := rest })
  | .swallow start => do
      let head ← sliceTo pending start
      some (scrubber.scrub head ++ marker, { pending := [], swallowing := true })

/-- `push`, which has no result where Rust panics. -/
def checkedPush (scrubber : SecretScrubber) (self : StreamScrubber) (chunk : Text) :
    Option (Text × StreamScrubber) :=
  if self.swallowing then
    match findWhitespace chunk with
    | some stop => do
        let chunk ← sliceFrom chunk stop
        checkedFeed scrubber { self with swallowing := false } chunk
    | none => some ([], self)
  else checkedFeed scrubber self chunk

/-- The state after pushes, if none of them panics. -/
def checkedPushes (scrubber : SecretScrubber) (self : StreamScrubber) (chunks : List Str) :
    Option StreamScrubber :=
  chunks.foldlM (fun self chunk => (checkedPush scrubber self chunk.bytes).map Prod.snd) self

end StreamScrubber

/-! ## What the checks see -/

theorem checkedSub_eq {a b : Nat} (h : b ≤ a) : checkedSub a b = some (a - b) := if_pos h

theorem checkedSuffixPrefixFrom_eq (text secret : Text) : ∀ k,
    checkedSuffixPrefixFrom text secret k = some (suffixPrefixFrom text secret k)
  | 0 => rfl
  | k + 1 => by
      have ih := checkedSuffixPrefixFrom_eq text secret k
      unfold checkedSuffixPrefixFrom suffixPrefixFrom
      by_cases hb : isCharBoundary secret (k + 1) = true
      · have hslice : sliceTo secret (k + 1) = some (secret.take (k + 1)) := if_pos hb
        rw [if_pos hb, hslice, ih, hb, Bool.true_and]
        show (if _ then _ else _) = _
        split
        · rfl
        · rfl
      · rw [if_neg hb, ih, Bool.eq_false_iff.mpr hb, Bool.false_and, if_neg (by simp)]

theorem checkedFloor_eq (text : Text) : ∀ i, checkedFloor text i = some (floorCharBoundary text i)
  | 0 => if_pos (isCharBoundary_zero text)
  | i + 1 => by
      unfold checkedFloor floorCharBoundary
      rw [checkedFloor_eq text i]
      split
      · rfl
      · rfl

theorem checkedCeilFrom_eq {text : Text} : ∀ {fuel i : Nat}, i + fuel = text.length →
    checkedCeilFrom text fuel i = some (ceilCharBoundaryFrom text fuel i)
  | 0, i, h => by
      obtain rfl : i = text.length := h
      exact if_pos (isCharBoundary_length text)
  | fuel + 1, i, h => by
      unfold checkedCeilFrom ceilCharBoundaryFrom
      rw [checkedCeilFrom_eq (show i + 1 + fuel = text.length by omega)]
      split
      · rfl
      · rfl

theorem checkedCeil_eq {text : Text} {i : Nat} (h : i ≤ text.length) :
    checkedCeil text i = some (ceilCharBoundary text i) :=
  checkedCeilFrom_eq (Nat.add_sub_of_le h)

namespace SecretScrubber

theorem checkedHeldBack_eq (self : SecretScrubber) (pending : Text) :
    self.checkedHeldBack pending = some (self.heldBack pending) := by
  have hstarts : self.secrets.mapM (fun s => checkedSuffixPrefixLen pending s.bytes)
      = some (self.secrets.map (fun s => suffixPrefixLen pending s.bytes)) := by
    have hpure : (fun s : Str => checkedSuffixPrefixLen pending s.bytes)
        = fun s => some (suffixPrefixLen pending s.bytes) :=
      funext fun s => checkedSuffixPrefixFrom_eq pending s.bytes _
    rw [hpure]
    exact List.mapM_pure
  rw [checkedHeldBack, hstarts]
  rfl

/-- No more is held back than there is. -/
theorem heldBack_le_length (self : SecretScrubber) (pending : Text) :
    self.heldBack pending ≤ pending.length := by
  have hstart : ((self.secrets.map (fun s => suffixPrefixLen pending s.bytes)).max?).getD 0
      ≤ pending.length := by
    cases hmax : (self.secrets.map (fun s => suffixPrefixLen pending s.bytes)).max? with
    | none => exact Nat.zero_le _
    | some n =>
        obtain ⟨s, -, rfl⟩ := List.mem_map.mp (List.max?_mem hmax)
        exact suffixPrefixFrom_le_length pending s.bytes (by omega)
  have hrun : (pending.reverse.takeWhile isTokenChar).length ≤ pending.length := by
    calc (pending.reverse.takeWhile isTokenChar).length
        ≤ pending.reverse.length := (List.takeWhile_prefix _).length_le
      _ = pending.length := List.length_reverse
  unfold heldBack
  simp only
  omega

/-- The subtractions of `cut` do not go below zero and its loops end. -/
theorem checkedCut_eq (self : SecretScrubber) {pending : Text} (ht : Valid pending) :
    self.checkedCut pending = some (self.cut pending) := by
  have hheld := checkedSub_eq (self.heldBack_le_length pending)
  obtain ⟨hle, -⟩ := drawBack_floor self ht
  have hboundary := checkedSub_eq (hle.trans (Nat.sub_le _ _))
  simp only [checkedCut, cut, self.checkedHeldBack_eq, Option.bind_eq_bind, Option.bind_some,
    hheld, checkedFloor_eq, hboundary]
  split
  · next hlimit =>
      -- more is held than the limit, so `len - limit` does not go below zero
      have hshort : self.limit ≤ pending.length := by omega
      cases ((self.matchRanges pending).filter
        (fun r => r.2 = pending.length)).map Prod.fst |>.min? with
      | some start => rfl
      | none =>
          simp only [checkedSub_eq hshort, Option.bind_some, checkedCeil_eq (Nat.sub_le _ _)]
  · rfl

end SecretScrubber

namespace StreamScrubber

open SecretScrubber

theorem checkedFeed_eq (scrubber : SecretScrubber) {self : StreamScrubber} {chunk : Text}
    (ht : Valid (self.pending ++ chunk)) :
    checkedFeed scrubber self chunk = some (feed scrubber self chunk) := by
  unfold checkedFeed feed
  simp only [scrubber.checkedCut_eq ht, Option.bind_eq_bind, Option.bind_some]
  cases hcut : scrubber.cut (self.pending ++ chunk) with
  | split b =>
      obtain ⟨-, hb, -⟩ := cut_split ht hcut
      simp only [splitOff, hb, if_true, Option.bind_some]
  | swallow start =>
      obtain ⟨-, hstart⟩ := cut_swallow ht hcut
      simp only [sliceTo, hstart, if_true, Option.bind_some]

/-- **No push panics**: the checked push has the result of the unchecked one. -/
theorem checkedPush_eq (scrubber : SecretScrubber) {self : StreamScrubber}
    (hvalid : Valid self.pending) (chunk : Str) :
    checkedPush scrubber self chunk.bytes = some (push scrubber self chunk.bytes) := by
  unfold checkedPush push
  split
  · cases hstop : findWhitespace chunk.bytes with
    | none => rfl
    | some stop =>
        have hrest := valid_drop_findWhitespace chunk.valid hstop
        -- a whitespace character begins there
        obtain ⟨b, rest, hdrop, hws⟩ := findWhitespace_spec hstop
        have hbound : isCharBoundary chunk.bytes stop = true :=
          isCharBoundary_of_isFirst hdrop (isFirst_of_startsWithWhitespace hws)
        simp only [sliceFrom, hbound, if_true, Option.bind_eq_bind, Option.bind_some]
        exact checkedFeed_eq scrubber (hvalid.append hrest)
  · exact checkedFeed_eq scrubber (hvalid.append chunk.valid)

end StreamScrubber

/-! ## The limit -/

namespace SecretScrubber

/-- What a split leaves is within the limit. -/
theorem length_sub_le_of_cut_split {self : SecretScrubber} {t : Text} (ht : Valid t) {b : Nat}
    (h : self.cut t = .split b) : t.length - b ≤ self.limit := by
  unfold cut at h
  simp only at h
  split at h
  · split at h
    · cases h
    · obtain rfl := Cut.split.inj h
      have hceil := (ceilCharBoundary_spec ht (Nat.sub_le t.length self.limit)).1
      omega
  · next hwithin =>
      obtain rfl := Cut.split.inj h
      omega

end SecretScrubber

namespace StreamScrubber

open SecretScrubber

/-- What a push leaves: a string within the limit, if it found one. -/
theorem push_pending (scrubber : SecretScrubber) {self : StreamScrubber}
    (hvalid : Valid self.pending) (hlimit : self.pending.length ≤ scrubber.limit) (chunk : Str) :
    Valid (push scrubber self chunk.bytes).2.pending ∧
      (push scrubber self chunk.bytes).2.pending.length ≤ scrubber.limit := by
  rcases push_cases scrubber self chunk.bytes with
    ⟨-, -, heq⟩ | ⟨t, b, hbuf, hcut, heq⟩ | ⟨t, start, -, -, heq⟩
  · rw [heq]
    exact ⟨hvalid, hlimit⟩
  · obtain ⟨more, hmore, rfl⟩ := buffered_spec chunk.valid hbuf
    have ht := hvalid.append hmore
    obtain ⟨hle, hbound, -⟩ := cut_split ht hcut
    have hshort := length_sub_le_of_cut_split ht hcut
    rw [heq]
    refine ⟨(ht.split hle hbound).2, ?_⟩
    show ((self.pending ++ more).drop b).length ≤ scrubber.limit
    rwa [List.length_drop]
  · rw [heq]
    exact ⟨valid_nil, Nat.zero_le _⟩

/-- What holds after any pushes. -/
theorem pushes_pending (scrubber : SecretScrubber) (chunks : List Str) :
    ∀ {self : StreamScrubber}, Valid self.pending → self.pending.length ≤ scrubber.limit →
      checkedPushes scrubber self chunks = some (pushes scrubber self chunks) ∧
        Valid (pushes scrubber self chunks).pending ∧
        (pushes scrubber self chunks).pending.length ≤ scrubber.limit := by
  induction chunks with
  | nil => exact fun hvalid hlimit => ⟨rfl, hvalid, hlimit⟩
  | cons chunk chunks ih =>
      intro self hvalid hlimit
      obtain ⟨hvalid', hlimit'⟩ := push_pending scrubber hvalid hlimit chunk
      obtain ⟨hrun, hrest⟩ := ih hvalid' hlimit'
      refine ⟨?_, hrest⟩
      rw [checkedPushes, List.foldlM_cons, checkedPush_eq scrubber hvalid chunk]
      exact hrun

/-- **No push panics and what is held back is bounded**, for any pushes before it. -/
theorem checkedPush_bounded (scrubber : SecretScrubber) (chunks : List Str) (chunk : Str) :
    ∃ self out self', checkedPushes scrubber new chunks = some self ∧
      checkedPush scrubber self chunk.bytes = some (out, self') ∧
      push scrubber self chunk.bytes = (out, self') ∧
      self'.pending.length ≤ max maxPending (scrubber.longestSecret + maxHoldback) := by
  have hnew : Valid new.pending := valid_nil
  have hempty : new.pending.length ≤ scrubber.limit := Nat.zero_le _
  obtain ⟨hrun, hvalid, hlimit⟩ := pushes_pending scrubber chunks hnew hempty
  have hstep := checkedPush_eq scrubber hvalid chunk
  obtain ⟨-, hbound⟩ := push_pending scrubber hvalid hlimit chunk
  exact ⟨pushes scrubber new chunks, _, _, hrun, hstep, rfl, hbound⟩

end StreamScrubber

end TurboCi
