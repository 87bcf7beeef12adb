import Mathlib.Data.List.TakeWhile
import TurboCi.Lib.FileSystem
import TurboCi.RunnerDaemon.CacheNames
import TurboCi.RunnerDaemon.PercentDecode

set_option autoImplicit false

/-! # Paths of objects

The URL path of an archive in S3: the bucket and the object's key, percent-encoded once
(`encode_path` and `Bucket::object_path` in `runner_daemon/s3.rs`). Decoding it gives the bucket
and the key back, whatever they hold (`object_path_decodes`).

The bucket and the prefix come from the URL of the configuration, whose path is split and trimmed
as it is written there and decoded afterwards. So an escaped slash gets into the bucket, or to an
end of the prefix. `parse_wellFormed_iff` says that this is all that can go wrong, besides the
signed digits of `percent_decode` and a bucket that is not UTF-8.
-/

namespace TurboCi

open Utf8 Config

/-! ## Encoding -/

/-- A byte of a path that is kept as it is. -/
def isPathByte (b : UInt8) : Bool := isKeyByte b || b == 0x2E || b == 0x7E || b == 0x2F

def encodePathByte (b : UInt8) : Chars :=
  if isPathByte b then [Char.ofNat b.toNat] else ['%', hexDigit (b / 16), hexDigit (b % 16)]

/-- Percent-encode everything but unreserved characters and `/`. -/
def encodePath (path : List UInt8) : Chars := path.flatMap encodePathByte

/-- URL path of an object (or of the bucket for an empty key), encoded once. -/
def objectPath (bucket : List UInt8) (key : Chars) : Chars :=
  if key = [] then encodePath (0x2F :: bucket)
  else encodePath (0x2F :: (bucket ++ 0x2F :: encode key))

theorem encodePath_cons (b : UInt8) (path : List UInt8) :
    encodePath (b :: path) = encodePathByte b ++ encodePath path := rfl

theorem encode_kept {b : UInt8} (hb : isPathByte b = true) :
    encode (encodePathByte b) = [b] ∧ b ≠ 0x25 := by
  revert hb
  revert b
  apply forall_byte
  decide +kernel

/-- Another byte is two digits that are read as it. -/
theorem encode_escaped {b : UInt8} (hb : isPathByte b = false) : ∃ x y,
    encode (encodePathByte b) = [0x25, x, y] ∧ fromStrRadix16 x y = some b := by
  refine ⟨(encode (encodePathByte b)).getD 1 0, (encode (encodePathByte b)).getD 2 0, ?_⟩
  revert hb
  revert b
  apply forall_byte
  decide +kernel

/-- **An encoded path is read back byte by byte.** -/
theorem percentDecodeFrom_encodePath (path : List UInt8) :
    percentDecodeFrom 0 (encode (encodePath path)) = path := by
  induction path with
  | nil => rfl
  | cons b path ih =>
      rw [encodePath_cons, encode_append]
      cases hb : isPathByte b with
      | true =>
          obtain ⟨heq, hne⟩ := encode_kept hb
          rw [heq, List.singleton_append, percentDecodeFrom_cons hne, ih]
      | false =>
          obtain ⟨x, y, heq, hread⟩ := encode_escaped hb
          have hvalid : Valid (0x25 :: x :: y :: encode (encodePath path)) := by
            have hall : Valid (encode (encodePathByte b) ++ encode (encodePath path)) := by
              rw [← encode_append]
              exact ⟨_, rfl⟩
            rwa [heq] at hall
          have hescaped : escaped (x :: y :: encode (encodePath path)) = some b := by
            rw [escaped_of_valid (Valid.after_ascii (s := []) hvalid (by decide)), hread]
          have hstep : percentDecodeFrom 0 ([0x25, x, y] ++ encode (encodePath path)) =
              b :: percentDecodeFrom 0 (encode (encodePath path)) := by
            show percentDecodeFrom 0 (0x25 :: x :: y :: encode (encodePath path)) = _
            rw [percentDecodeFrom, if_pos rfl, hescaped]
            rfl
          rw [heq, hstep, ih]

/-- Decoding once undoes the encoding. -/
theorem percentDecode_encodePath (path : List UInt8) :
    percentDecode (encodePath path) = fromUtf8Lossy path := by
  rw [percentDecode, percentDecodeFrom_encodePath]

/-! ## The names of archives -/

/-- A character of a name: neither a separator nor a dot, and one byte. -/
def IsNameChar (c : Char) : Prop := c.toNat < 0x80 ∧ c ≠ '/' ∧ c ≠ '.'

instance (c : Char) : Decidable (IsNameChar c) :=
  inferInstanceAs (Decidable (c.toNat < 0x80 ∧ c ≠ '/' ∧ c ≠ '.'))

section Names

variable (blake3 : List UInt8 → Digest)

theorem isNameChar_encodeKey (key : Chars) : ∀ c ∈ encodeKey blake3 key, IsNameChar c := by
  have hencoded : ∀ b : UInt8, (encodeKeyByte b).all (fun c => IsNameChar c) = true := by
    apply forall_byte
    decide +kernel
  have hhex : ∀ b : UInt8, (hexByte b).all (fun c => IsNameChar c) = true := by
    apply forall_byte
    decide +kernel
  intro c hc
  unfold encodeKey at hc
  split at hc
  · rcases List.mem_append.mp hc with hc | hc
    · rcases List.mem_pair.mp hc with rfl | rfl
      · decide
      · decide
    · obtain ⟨b, -, hb⟩ := List.mem_flatMap.mp hc
      exact of_decide_eq_true (List.all_eq_true.mp (hhex b) c hb)
  · obtain ⟨b, -, hb⟩ := List.mem_flatMap.mp hc
    exact of_decide_eq_true (List.all_eq_true.mp (hencoded b) c hb)

theorem length_encodeKey_le (key : Chars) : (encodeKey blake3 key).length ≤ 200 := by
  unfold encodeKey
  split
  · rw [hashedKey, List.length_append, length_toHex]
    decide
  · next hshort => exact Nat.not_lt.mp hshort

/-- The directory of a project's archives. -/
def projectDir (projectId : Nat) : FileSystem.Name :=
  ⟨"project-".toList ++ Nat.toDigits 10 projectId, by
    refine ⟨by simp, by simp, by simp, fun hmem => ?_⟩
    rcases List.mem_append.mp hmem with hmem | hmem
    · revert hmem
      decide
    · exact absurd (Names.isDigit_of_mem hmem) (by decide)⟩

/-- The file of a key's archive. -/
def archiveFile (key : Chars) : FileSystem.Name :=
  ⟨encodeKey blake3 key ++ ".zip".toList, by
    have hshort : ∀ short : Chars, short.length < 4 →
        encodeKey blake3 key ++ ".zip".toList ≠ short := by
      rintro short hlt rfl
      rw [List.length_append] at hlt
      exact absurd hlt (Nat.not_lt.mpr (Nat.le_add_left 4 _))
    refine ⟨hshort _ (by decide), hshort _ (by decide), hshort _ (by decide), fun hmem => ?_⟩
    · rcases List.mem_append.mp hmem with hmem | hmem
      · exact (isNameChar_encodeKey blake3 key _ hmem).2.1 rfl
      · revert hmem
        decide⟩

/-- The object that the URL path of an archive is meant to name. -/
def intendedPath (bucket pre : Chars) (projectId : Nat) (name : Chars) : Chars :=
  '/' :: bucket ++ '/' :: (if pre = [] then [] else pre ++ ['/']) ++ "project-".toList ++
    Nat.toDigits 10 projectId ++ '/' :: name ++ ".zip".toList

end Names

/-- **Object URLs decode to the intended object**, and an archive on the host is a plain file of
its project's directory. -/
theorem object_path_decodes (blake3 : List UInt8 → Digest) (root : List Chars)
    (bucket pre : Chars) (projectId : Nat) (key text : Chars) :
    (encode (encodeKey blake3 key)).length ≤ 200 ∧
    '/' ∉ encodeKey blake3 key ∧ '.' ∉ encodeKey blake3 key ∧
    archivePath blake3 root projectId key =
      root ++ [(projectDir projectId).1, (archiveFile blake3 key).1] ∧
    percentDecode (objectPath (encode bucket)
        (objectKey pre projectId (encodeKey blake3 key ++ ".zip".toList))) =
      encode (intendedPath bucket pre projectId (encodeKey blake3 key)) ∧
    percentDecode (encodePath (encode text)) = encode text := by
  have hchars := isNameChar_encodeKey blake3 key
  have hundo : ∀ text : Chars, percentDecode (encodePath (encode text)) = encode text := by
    intro text
    rw [percentDecode_encodePath, fromUtf8Lossy_encode]
  refine ⟨?_, fun hmem => (hchars _ hmem).2.1 rfl, fun hmem => (hchars _ hmem).2.2 rfl, rfl, ?_,
    hundo text⟩
  · rw [length_encode_ascii fun c hc => (hchars c hc).1]
    exact length_encodeKey_le blake3 key
  · have hkey : objectKey pre projectId (encodeKey blake3 key ++ ".zip".toList) ≠ [] := by
      unfold objectKey
      split
      · simp
      · simp
    have hpath : objectPath (encode bucket)
        (objectKey pre projectId (encodeKey blake3 key ++ ".zip".toList)) =
        encodePath (encode (intendedPath bucket pre projectId (encodeKey blake3 key))) := by
      have hslash : ∀ cs, encode ('/' :: cs) = 0x2F :: encode cs := fun cs =>
        encode_ascii_cons (by decide) cs
      rw [objectPath, if_neg hkey, ← hslash, ← encode_append, ← hslash]
      congr 2
      unfold intendedPath objectKey
      split
      · simp
      · simp
    rw [hpath, hundo]

/-! ## Escaped slashes -/

/-- `%2F` and `%2f`. -/
def escapedSlashes : List (List UInt8) := [[0x25, 0x32, 0x46], [0x25, 0x32, 0x66]]

/-- Two digits that are read as a slash. -/
theorem fromStrRadix16_slash {a b : UInt8} :
    fromStrRadix16 a b = some 0x2F ↔ a = 0x32 ∧ (b = 0x46 ∨ b = 0x66) := by
  have htwo : ∀ x : UInt8, hexValue x = some 2 → x = 0x32 := by
    apply forall_byte
    decide +kernel
  have hfifteen : ∀ x : UInt8, hexValue x = some 15 → x = 0x46 ∨ x = 0x66 := by
    apply forall_byte
    decide +kernel
  constructor
  · intro h
    rw [fromStrRadix16_eq] at h
    split at h
    · exact absurd (hexValue_lt h) (by decide)
    · obtain ⟨high, hhigh, hlow⟩ := Option.bind_eq_some_iff.mp h
      obtain ⟨low, hlow, hsum⟩ := Option.map_eq_some_iff.mp hlow
      have hhigh16 : high.toNat < 16 := UInt8.lt_iff_toNat_lt.mp (hexValue_lt hhigh)
      have hlow16 : low.toNat < 16 := UInt8.lt_iff_toNat_lt.mp (hexValue_lt hlow)
      have hnat : (16 * high.toNat % 256 + low.toNat) % 256 = 47 := by
        have hbytes := congrArg UInt8.toNat hsum
        rwa [UInt8.toNat_add, UInt8.toNat_mul] at hbytes
      have h2 : high = 2 := UInt8.toNat_inj.mp (show high.toNat = 2 by omega)
      have h15 : low = 15 := UInt8.toNat_inj.mp (show low.toNat = 15 by omega)
      exact ⟨htwo a (by rw [hhigh]; exact congrArg some h2),
        hfifteen b (by rw [hlow]; exact congrArg some h15)⟩
  · rintro ⟨rfl, rfl | rfl⟩
    · decide
    · decide

/-- Two bytes after a `%` that make it an escaped slash. -/
theorem mem_escapedSlashes {a b : UInt8} :
    [0x25, a, b] ∈ escapedSlashes ↔ fromStrRadix16 a b = some 0x2F := by
  rw [fromStrRadix16_slash]
  simp only [escapedSlashes, List.mem_cons, List.cons.injEq, List.not_mem_nil, or_false, true_and,
    and_true]
  exact and_or_left.symm

theorem exists_of_mem_escapedSlashes {e : List UInt8} (he : e ∈ escapedSlashes) :
    ∃ a b, e = [0x25, a, b] ∧ fromStrRadix16 a b = some 0x2F := by
  rcases List.mem_pair.mp he with rfl | rfl
  · exact ⟨0x32, 0x46, rfl, rfl⟩
  · exact ⟨0x32, 0x66, rfl, rfl⟩

/-- Where the slashes of a decoded text come from: its own, and the escaped ones. -/
structure SlashOrigins (text out : List UInt8) : Prop where
  mem : 0x2F ∈ out ↔ 0x2F ∈ text ∨ ∃ e ∈ escapedSlashes, e <:+: text
  head : out.head? = some 0x2F ↔ text.head? = some 0x2F ∨ ∃ e ∈ escapedSlashes, e <+: text
  last : out.getLast? = some 0x2F ↔ text.getLast? = some 0x2F ∨ ∃ e ∈ escapedSlashes, e <:+ text
  empty : out = [] ↔ text = []

/-- No escape begins with a byte that is kept. -/
theorem SlashOrigins.kept {b : UInt8} {rest out : List UInt8}
    (hnot : b = 0x25 → ∀ a c more, rest = a :: c :: more → fromStrRadix16 a c = none)
    (h : SlashOrigins rest out) : SlashOrigins (b :: rest) (b :: out) := by
  have hhere : ∀ e ∈ escapedSlashes, ¬ e <+: b :: rest := by
    intro e he hpre
    obtain ⟨x, y, rfl, hread⟩ := exists_of_mem_escapedSlashes he
    obtain ⟨more, hmore⟩ := hpre
    obtain ⟨rfl, hrest⟩ := List.cons.inj hmore
    rw [hnot rfl x y more hrest.symm] at hread
    cases hread
  constructor
  · have hlater : (∃ e ∈ escapedSlashes, e <:+: b :: rest) ↔ ∃ e ∈ escapedSlashes, e <:+: rest := by
      refine exists_congr fun e => and_congr_right fun he => ?_
      rw [List.infix_cons_iff, or_iff_right (hhere e he)]
    rw [List.mem_cons, List.mem_cons, h.mem, hlater, or_assoc]
  · constructor
    · exact .inl
    · rintro (hb | ⟨e, he, hpre⟩)
      · exact hb
      · exact absurd hpre (hhere e he)
  · cases hrest : rest with
    | nil =>
        have hout : out = [] := h.empty.mpr hrest
        rw [hout]
        constructor
        · exact .inl
        · rintro (hb | ⟨e, he, hsuf⟩)
          · exact hb
          · obtain ⟨x, y, rfl, -⟩ := exists_of_mem_escapedSlashes he
            have hlen := hsuf.length_le
            simp at hlen
    | cons c more =>
        have hne : rest ≠ [] := by rw [hrest]; exact List.cons_ne_nil c more
        have hout : out ≠ [] := fun hnil => hne (h.empty.mp hnil)
        have hlater : (∃ e ∈ escapedSlashes, e <:+ b :: rest) ↔
            ∃ e ∈ escapedSlashes, e <:+ rest := by
          refine exists_congr fun e => and_congr_right fun he => ?_
          rw [List.suffix_cons_iff]
          constructor
          · rintro (rfl | hsuf)
            · exact absurd (List.prefix_refl _) (hhere _ he)
            · exact hsuf
          · exact .inr
        rw [← hrest, List.getLast?_cons_of_ne_nil hout, List.getLast?_cons_of_ne_nil hne, h.last,
          hlater]
  · simp

/-- After an escape the text goes on. -/
theorem SlashOrigins.escape {a b byte : UInt8} {rest out : List UInt8}
    (hread : fromStrRadix16 a b = some byte) (h : SlashOrigins rest out) :
    SlashOrigins (0x25 :: a :: b :: rest) (byte :: out) := by
  have hno : ∀ x : UInt8, (x = 0x2B ∨ (hexValue x).isSome) → x ≠ 0x25 ∧ x ≠ 0x2F := by
    apply forall_byte
    decide +kernel
  have ha : a ≠ 0x25 ∧ a ≠ 0x2F := by
    apply hno
    rw [fromStrRadix16_eq] at hread
    split at hread
    · next ha => exact .inl ha
    · obtain ⟨high, hhigh, -⟩ := Option.bind_eq_some_iff.mp hread
      exact .inr (by rw [hhigh]; rfl)
  have hb : b ≠ 0x25 ∧ b ≠ 0x2F := by
    apply hno
    right
    rw [fromStrRadix16_eq] at hread
    split at hread
    · rw [hread]
      rfl
    · obtain ⟨high, -, hlow⟩ := Option.bind_eq_some_iff.mp hread
      obtain ⟨low, hlow, -⟩ := Option.map_eq_some_iff.mp hlow
      rw [hlow]
      rfl
  -- an escaped slash begins here, or in the rest
  have hpre : ∀ e ∈ escapedSlashes, e <+: 0x25 :: a :: b :: rest ↔ e = [0x25, a, b] := by
    intro e he
    obtain ⟨x, y, rfl, -⟩ := exists_of_mem_escapedSlashes he
    simp only [List.cons_prefix_cons, List.nil_prefix, and_true, true_and, List.cons.injEq]
  have hskip : ∀ e ∈ escapedSlashes, ∀ c u, c ≠ 0x25 → ¬ e <+: c :: u := by
    intro e he c u hc hpre
    obtain ⟨x, y, rfl, -⟩ := exists_of_mem_escapedSlashes he
    exact hc (List.cons_prefix_cons.mp hpre).1.symm
  have hhere : (∃ e ∈ escapedSlashes, e = [0x25, a, b]) ↔ byte = 0x2F := by
    constructor
    · rintro ⟨e, he, rfl⟩
      rw [mem_escapedSlashes, hread] at he
      exact Option.some.inj he
    · rintro rfl
      exact ⟨_, mem_escapedSlashes.mpr hread, rfl⟩
  constructor
  · have hlater : (∃ e ∈ escapedSlashes, e <:+: 0x25 :: a :: b :: rest) ↔
        byte = 0x2F ∨ ∃ e ∈ escapedSlashes, e <:+: rest := by
      rw [← hhere, ← exists_or]
      refine exists_congr fun e => ?_
      rw [← and_or_left]
      refine and_congr_right fun he => ?_
      rw [List.infix_cons_iff, List.infix_cons_iff, List.infix_cons_iff, hpre e he,
        or_iff_right (hskip e he a _ ha.1), or_iff_right (hskip e he b _ hb.1)]
    rw [List.mem_cons, h.mem, hlater]
    simp only [List.mem_cons, ha.2.symm, hb.2.symm, false_or, eq_comm (a := (0x2F : UInt8)),
      (by decide : (0x25 : UInt8) ≠ 0x2F)]
    exact or_left_comm
  · have hlater : (∃ e ∈ escapedSlashes, e <+: 0x25 :: a :: b :: rest) ↔ byte = 0x2F := by
      rw [← hhere]
      exact exists_congr fun e => and_congr_right fun he => hpre e he
    rw [hlater]
    simp
  · have hwhole : ∀ e ∈ escapedSlashes, e <:+ 0x25 :: a :: b :: rest ↔
        (e = [0x25, a, b] ∧ rest = []) ∨ e <:+ rest := by
      intro e he
      have hnot : ∀ c u, c ≠ 0x25 → e ≠ c :: u := fun c u hc heq =>
        hskip e he c u hc (by rw [heq])
      rw [List.suffix_cons_iff, List.suffix_cons_iff, List.suffix_cons_iff,
        or_iff_right (hnot a _ ha.1), or_iff_right (hnot b _ hb.1)]
      refine or_congr_left ?_
      obtain ⟨x, y, rfl, -⟩ := exists_of_mem_escapedSlashes he
      simp only [List.cons.injEq, true_and, and_true]
      constructor
      · rintro ⟨rfl, rfl, rfl⟩
        exact ⟨⟨rfl, rfl⟩, rfl⟩
      · rintro ⟨⟨rfl, rfl⟩, rfl⟩
        exact ⟨rfl, rfl, rfl⟩
    cases hrest : rest with
    | nil =>
        have hout : out = [] := h.empty.mpr hrest
        have hlater : (∃ e ∈ escapedSlashes, e <:+ [0x25, a, b]) ↔ byte = 0x2F := by
          rw [← hhere]
          refine exists_congr fun e => and_congr_right fun he => ?_
          have he' := hwhole e he
          rw [hrest] at he'
          rw [he']
          constructor
          · rintro (⟨heq, -⟩ | hsuf)
            · exact heq
            · obtain ⟨x, y, rfl, -⟩ := exists_of_mem_escapedSlashes he
              exact absurd hsuf.length_le (by simp)
          · exact fun heq => .inl ⟨heq, rfl⟩
        rw [hout, hlater]
        simp [hb.2]
    | cons c more =>
        have hne : rest ≠ [] := by rw [hrest]; exact List.cons_ne_nil c more
        have hout : out ≠ [] := fun hnil => hne (h.empty.mp hnil)
        have hlater : (∃ e ∈ escapedSlashes, e <:+ 0x25 :: a :: b :: rest) ↔
            ∃ e ∈ escapedSlashes, e <:+ rest := by
          refine exists_congr fun e => and_congr_right fun he => ?_
          rw [hwhole e he, or_iff_right (fun h => hne h.2)]
        rw [← hrest, List.getLast?_cons_of_ne_nil hout, List.getLast?_cons_of_ne_nil (by simp),
          List.getLast?_cons_of_ne_nil (by simp), List.getLast?_cons_of_ne_nil hne, h.last, hlater]
  · simp

theorem slashOrigins_percentDecodeFrom (text : Chars) :
    SlashOrigins (encode text) (percentDecodeFrom 0 (encode text)) :=
  percentDecodeFrom_induction ⟨by simp [escapedSlashes], by simp [escapedSlashes],
    by simp [escapedSlashes], by simp⟩ (fun _ _ _ hnot h => h.kept hnot)
    (fun _ _ _ _ _ hread h => h.escape hread) (encode text).length (encode text) [] le_rfl
    ⟨text, rfl⟩

/-- The slashes of a decoded text. -/
theorem slashOrigins_percentDecode (text : Chars) :
    SlashOrigins (encode text) (percentDecode text) := by
  have h := slashOrigins_percentDecodeFrom text
  refine ⟨?_, ?_, ?_, ?_⟩
  · rw [percentDecode, mem_fromUtf8Lossy (by decide), h.mem]
  · rw [percentDecode, head?_fromUtf8Lossy (by decide), h.head]
  · rw [percentDecode, getLast?_fromUtf8Lossy (by decide), h.last]
  · rw [percentDecode, ← h.empty]
    constructor
    · intro hnil
      by_contra hne
      exact fromUtf8Lossy_ne_nil hne hnil
    · intro hnil
      rw [hnil]
      rfl

/-! ## The first segment of an object's path -/

/-- The first segment of an absolute path. -/
def firstSegment (path : Chars) : Chars := path.tail.takeWhile (· ≠ '/')

theorem encodePathByte_slash : encodePathByte 0x2F = ['/'] := by decide

theorem slash_not_mem_encodePathByte {b : UInt8} (hb : b ≠ 0x2F) : '/' ∉ encodePathByte b := by
  revert hb
  revert b
  apply forall_byte
  decide +kernel

theorem plus_not_mem_encodePath (path : List UInt8) : '+' ∉ encodePath path := by
  have hbyte : ∀ b : UInt8, '+' ∉ encodePathByte b := by
    apply forall_byte
    decide +kernel
  intro hmem
  obtain ⟨b, -, hb⟩ := List.mem_flatMap.mp hmem
  exact hbyte b hb

theorem takeWhile_bucket_cons {b : UInt8} (hb : b ≠ 0x2F) (rest : List UInt8) :
    (b :: rest).takeWhile (· ≠ 0x2F) = b :: rest.takeWhile (· ≠ 0x2F) := by
  simp [hb]

/-- Encoding keeps the slashes, and makes none. -/
theorem takeWhile_encodePath (path : List UInt8) :
    (encodePath path).takeWhile (· ≠ '/') = encodePath (path.takeWhile (· ≠ 0x2F)) := by
  induction path with
  | nil => rfl
  | cons b path ih =>
      rw [encodePath_cons]
      by_cases hb : b = 0x2F
      · rw [hb, encodePathByte_slash]
        rfl
      · have hall : ∀ c ∈ encodePathByte b, decide (c ≠ '/') = true := by
          intro c hc
          apply decide_eq_true
          rintro rfl
          exact slash_not_mem_encodePathByte hb hc
        rw [List.takeWhile_append_of_pos hall, ih, takeWhile_bucket_cons hb, encodePath_cons]

theorem firstSegment_objectPath (bucket : List UInt8) (key : Chars) :
    firstSegment (objectPath bucket key) = encodePath (bucket.takeWhile (· ≠ 0x2F)) := by
  unfold objectPath firstSegment
  split
  · rw [encodePath_cons, encodePathByte_slash, List.singleton_append, List.tail_cons,
      takeWhile_encodePath]
  · rw [encodePath_cons, encodePathByte_slash, List.singleton_append, List.tail_cons,
      takeWhile_encodePath]
    congr 1
    induction bucket with
    | nil => rfl
    | cons b bucket ih =>
        by_cases hb : b = 0x2F
        · rw [hb]
          rfl
        · rw [List.cons_append, takeWhile_bucket_cons hb, takeWhile_bucket_cons hb, ih]

/-- An encoded path has no signed escapes, and the standard decodes it to its bytes. -/
theorem decodeEscapes_encodePath (path : List UInt8) :
    decodeEscapes (encode (encodePath path)) = path := by
  have hsigned : signedEscapes (encode (encodePath path)) = 0 := by
    apply signedEscapes_eq_zero.mpr
    intro digit _ hpart
    have hplus : UInt8.ofNat '+'.toNat ∈ encode (encodePath path) :=
      hpart.subset (by simp)
    exact plus_not_mem_encodePath path ((mem_encode_ascii (by decide)).mp hplus)
  have hsame := (percentDecodeFrom_standard (encode (encodePath path)) [] ⟨_, rfl⟩).1 hsigned
  rw [← hsame, percentDecodeFrom_encodePath]

/-! ## Locations -/

/-- The bucket and the prefix that the path of a URL names, as they are written there. -/
def namedIn (path : Chars) : Chars × Chars :=
  let path := trimMatches '/' path
  let (bucket, pre) := (splitOnce '/' path).getD (path, [])
  (bucket, trimMatches '/' pre)

/-- A location whose objects lie in the bucket that its URL names: the first segment of their
paths stands for the same bytes as the bucket's name in the URL. -/
structure Config.S3Location.WellFormed (location : S3Location) (named : Chars) : Prop where
  bucket : location.bucket ≠ []
  oneSegment : 0x2F ∉ location.bucket
  preHead : location.pre.head? ≠ some 0x2F
  preLast : location.pre.getLast? ≠ some 0x2F
  path : location.endpoint.path = ['/']
  query : location.endpoint.query = none
  fragment : location.endpoint.fragment = none
  username : location.endpoint.username = []
  password : location.endpoint.password = none
  objects : ∀ key, decodeEscapes (encode (firstSegment (objectPath location.bucket key))) =
    decodeEscapes (encode named)

/-- What is written in the URL holds no escaped slash, in the bucket or at an end of the prefix.
The bucket holds no signed escape either, and what it stands for is UTF-8. -/
structure PlainEscapes (bucket pre : Chars) : Prop where
  slash : ∀ e ∈ escapedSlashes, ¬ e <:+: encode bucket
  sign : ∀ digit, (hexValue digit).isSome → ¬ [0x25, 0x2B, digit] <:+: encode bucket
  utf8 : fromUtf8 (decodeEscapes (encode bucket)) = .ok ()
  preHead : ∀ e ∈ escapedSlashes, ¬ e <+: encode pre
  preLast : ∀ e ∈ escapedSlashes, ¬ e <:+ encode pre

theorem head?_dropWhile_ne (c : Char) (cs : Chars) :
    (cs.dropWhile (· = c)).head? ≠ some c := by
  intro h
  have hnot := List.head?_dropWhile_not (fun x => decide (x = c)) cs
  rw [h] at hnot
  simp at hnot

/-- Nothing is left to trim. -/
theorem ends_trimMatches (c : Char) (cs : Chars) :
    (trimMatches c cs).head? ≠ some c ∧ (trimMatches c cs).getLast? ≠ some c := by
  unfold trimMatches
  constructor
  · intro h
    rw [List.head?_reverse] at h
    obtain ⟨before, hbefore⟩ := List.dropWhile_suffix (fun x => decide (x = c))
      (l := (cs.dropWhile (· = c)).reverse)
    have hlast : ((cs.dropWhile (· = c)).reverse).getLast? = some c := by
      rw [← hbefore, List.getLast?_append, h]
      rfl
    rw [List.getLast?_reverse] at hlast
    exact head?_dropWhile_ne c cs hlast
  · rw [List.getLast?_reverse]
    exact head?_dropWhile_ne c _

/-- A bucket is cut off at the first slash. -/
theorem slash_not_mem_named (path : Chars) : '/' ∉ (namedIn path).1 := by
  have htake : ∀ cs : Chars, '/' ∉ cs.takeWhile (· ≠ '/') := by
    intro cs hmem
    have hne := List.mem_takeWhile_imp hmem
    simp at hne
  unfold namedIn splitOnce
  cases hdrop : (trimMatches '/' path).dropWhile (· ≠ '/') with
  | nil =>
      simp only [hdrop, Option.getD_none]
      have hall : (trimMatches '/' path).takeWhile (· ≠ '/') = trimMatches '/' path := by
        have hsplit := List.takeWhile_append_dropWhile (p := (· ≠ '/')) (l := trimMatches '/' path)
        rwa [hdrop, List.append_nil] at hsplit
      rw [← hall]
      exact htake _
  | cons c rest =>
      simp only [hdrop, Option.getD_some]
      exact htake _

/-- What an accepted URL is made into. -/
theorem parse_cases {outside : Outside} {url : Chars} {region : Option Chars} {parsed : Url}
    {location : S3Location} (hparsed : outside.parseUrl url = some parsed)
    (h : S3Location.parse outside url region = .ok location) :
    (namedIn parsed.path).1 ≠ [] ∧
    location.bucket = percentDecode (namedIn parsed.path).1 ∧
    location.pre = percentDecode (namedIn parsed.path).2 ∧
    location.endpoint = { parsed with path := ['/'], query := none, fragment := none } ∧
    parsed.username = [] ∧ parsed.password = none := by
  rw [S3Location.parse, hparsed] at h
  obtain ⟨hcredentials, h⟩ := bailIf_bind_ok.mp h
  obtain ⟨-, h⟩ := bailIf_bind_ok.mp h
  obtain ⟨hbucket, h⟩ := bailIf_bind_ok.mp h
  obtain ⟨-, h⟩ := bailIf_bind_ok.mp h
  obtain rfl := Except.ok.inj h
  rw [Bool.or_eq_false_iff] at hcredentials
  exact ⟨of_decide_eq_false hbucket, rfl, rfl, rfl, by simpa using hcredentials.1,
    by simpa using hcredentials.2⟩

/-- **When a parsed location is well-formed**: where what its URL names holds no escaped slash in
the bucket or at an end of the prefix, and the bucket is UTF-8 without a signed escape. -/
theorem parse_wellFormed_iff (outside : Outside) (url : Chars) (region : Option Chars)
    (parsed : Url) (location : S3Location) (hparsed : outside.parseUrl url = some parsed)
    (h : S3Location.parse outside url region = .ok location) :
    location.WellFormed (namedIn parsed.path).1 ↔
      PlainEscapes (namedIn parsed.path).1 (namedIn parsed.path).2 := by
  obtain ⟨hne, hbucket, hpre, hendpoint, husername, hpassword⟩ := parse_cases hparsed h
  have hslash : 0x2F ∉ encode (namedIn parsed.path).1 := fun hmem =>
    slash_not_mem_named parsed.path ((mem_encode_ascii (a := '/') (by decide)).mp hmem)
  have hends : (encode (namedIn parsed.path).2).head? ≠ some 0x2F ∧
      (encode (namedIn parsed.path).2).getLast? ≠ some 0x2F := by
    have hchars := ends_trimMatches '/' ((splitOnce '/' (trimMatches '/' parsed.path)).getD
      (trimMatches '/' parsed.path, [])).2
    exact ⟨fun hhead => hchars.1 ((head?_encode_ascii (a := '/') (by decide)).mp hhead),
      fun hlast => hchars.2 ((getLast?_encode_ascii (a := '/') (by decide)).mp hlast)⟩
  have hinBucket := slashOrigins_percentDecode (namedIn parsed.path).1
  have hinPre := slashOrigins_percentDecode (namedIn parsed.path).2
  have hmem : 0x2F ∈ location.bucket ↔
      ∃ e ∈ escapedSlashes, e <:+: encode (namedIn parsed.path).1 := by
    rw [hbucket, hinBucket.mem, or_iff_right hslash]
  have hhead : location.pre.head? = some 0x2F ↔
      ∃ e ∈ escapedSlashes, e <+: encode (namedIn parsed.path).2 := by
    rw [hpre, hinPre.head, or_iff_right hends.1]
  have hlast : location.pre.getLast? = some 0x2F ↔
      ∃ e ∈ escapedSlashes, e <:+ encode (namedIn parsed.path).2 := by
    rw [hpre, hinPre.last, or_iff_right hends.2]
  -- without a slash the first segment is the whole bucket
  have hobjects : 0x2F ∉ location.bucket → ∀ key,
      decodeEscapes (encode (firstSegment (objectPath location.bucket key))) =
        percentDecode (namedIn parsed.path).1 := by
    intro hno key
    have hall : location.bucket.takeWhile (· ≠ 0x2F) = location.bucket := by
      rw [List.takeWhile_eq_self_iff]
      rintro b hb
      apply decide_eq_true
      rintro rfl
      exact hno hb
    rw [firstSegment_objectPath, hall, decodeEscapes_encodePath, hbucket]
  constructor
  · intro hwell
    have hbytes : percentDecode (namedIn parsed.path).1 =
        decodeEscapes (encode (namedIn parsed.path).1) := by
      rw [← hobjects hwell.oneSegment [], hwell.objects []]
    obtain ⟨hsign, hutf8⟩ := percentDecode_eq_bytes_iff.mp hbytes
    exact ⟨fun e he hpart => hwell.oneSegment (hmem.mpr ⟨e, he, hpart⟩), hsign, hutf8,
      fun e he hpre => hwell.preHead (hhead.mpr ⟨e, he, hpre⟩),
      fun e he hsuffix => hwell.preLast (hlast.mpr ⟨e, he, hsuffix⟩)⟩
  · intro hplain
    have hno : 0x2F ∉ location.bucket := by
      intro hin
      obtain ⟨e, he, hpart⟩ := hmem.mp hin
      exact hplain.slash e he hpart
    refine {
      bucket := ?_
      oneSegment := hno
      preHead := ?_
      preLast := ?_
      path := by rw [hendpoint]
      query := by rw [hendpoint]
      fragment := by rw [hendpoint]
      username := by rw [hendpoint]; exact husername
      password := by rw [hendpoint]; exact hpassword
      objects := fun key => ?_ }
    · rw [hbucket]
      intro hnil
      have hencode : encode (namedIn parsed.path).1 = encode [] := hinBucket.empty.mp hnil
      exact hne (encode_injective hencode)
    · intro hin
      obtain ⟨e, he, hpre⟩ := hhead.mp hin
      exact hplain.preHead e he hpre
    · intro hin
      obtain ⟨e, he, hsuffix⟩ := hlast.mp hin
      exact hplain.preLast e he hsuffix
    · rw [hobjects hno key]
      exact percentDecode_eq_bytes_iff.mpr ⟨hplain.sign, hplain.utf8⟩

/-- A URL with the given path. -/
def oneUrlParsed (path : Chars) : Url :=
  { scheme := "https".toList, host := some "s3.example".toList, path }

/-- A URL parser that knows one URL. -/
def oneUrl (url path : Chars) : Outside where
  parseUrl text := if text = url then some (oneUrlParsed path) else none
  certificates _ := none

/-- A location at that host. -/
def oneUrlLocation (bucket pre : Chars) : S3Location where
  endpoint := oneUrlParsed ['/']
  bucket := encode bucket
  pre := encode pre
  region := "us-east-1".toList

theorem parse_wellFormed_space :
    (oneUrlLocation "a".toList "b c".toList).WellFormed (namedIn "/a/b%20c".toList).1 ↔
      PlainEscapes (namedIn "/a/b%20c".toList).1 (namedIn "/a/b%20c".toList).2 :=
  parse_wellFormed_iff (oneUrl "https://s3.example/a/b%20c".toList "/a/b%20c".toList)
    "https://s3.example/a/b%20c".toList none (oneUrlParsed "/a/b%20c".toList) _ (by decide)
    (by decide)

/-- **An escaped slash gets into the bucket.** -/
theorem escaped_slash_in_bucket : ¬ ∀ (outside : Outside) (url : Chars) (region : Option Chars)
    (parsed : Url) (location : S3Location), outside.parseUrl url = some parsed →
    S3Location.parse outside url region = .ok location →
    location.WellFormed (namedIn parsed.path).1 := by
  intro h
  have hwell := h (oneUrl "https://s3.example/a%2Fb".toList "/a%2Fb".toList)
    "https://s3.example/a%2Fb".toList none (oneUrlParsed "/a%2Fb".toList)
    (oneUrlLocation "a/b".toList []) (by decide) (by decide)
  exact absurd hwell.oneSegment (by decide)

end TurboCi
