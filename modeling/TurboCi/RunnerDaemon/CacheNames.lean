import TurboCi.Lib.Names
import TurboCi.Security.JobSecrets

set_option autoImplicit false

/-! # Names of cache archives

A cache archive is stored under a name made of the project's id and the cache key, on the host
(`LocalCache::archive_path`) and in S3 (`Bucket::object_key`). The key is percent-encoded; where
that takes more than 200 bytes, the name is `h-` and the hash of the key (`encode_key` in
`runner_daemon/job_cache.rs`). The hash is a parameter: it gives 32 bytes, and what is known of
it is that the two keys at hand do not collide.

Encoded keys do not collide with each other, and hashed ones do not. But `h-` and a hash is
also a short key, and it is its own encoding: it has the name of the long key with that hash
(`encodeKey_eq_iff`). A branch may name it as its fallback key.
-/

namespace TurboCi

open Utf8

/-- What blake3 gives. -/
abbrev Digest := { bytes : List UInt8 // bytes.length = 32 }

/-- A byte of a key that is kept as it is. -/
def isKeyByte (b : UInt8) : Bool :=
  (0x41 ≤ b && b ≤ 0x5A) || (0x61 ≤ b && b ≤ 0x7A) || (0x30 ≤ b && b ≤ 0x39) ||
    b == 0x2D || b == 0x5F

def encodeKeyByte (b : UInt8) : Chars :=
  if isKeyByte b then [Char.ofNat b.toNat] else ['%', hexDigit (b / 16), hexDigit (b % 16)]

/-- The key in percent encoding. -/
def percentEncodeKey (key : Chars) : Chars := (encode key).flatMap encodeKeyByte

def hexByte (b : UInt8) : Chars := [Nat.digitChar (b.toNat / 16), Nat.digitChar (b.toNat % 16)]

/-- `Hash::to_hex`. -/
def Digest.toHex (digest : Digest) : Chars := digest.1.flatMap hexByte

section Names

variable (blake3 : List UInt8 → Digest)

/-- The name of a key that is too long. -/
def hashedKey (key : Chars) : Chars := "h-".toList ++ (blake3 (encode key)).toHex

/-- The encoded form takes more than 200 bytes. -/
def TooLong (key : Chars) : Prop := 200 < (percentEncodeKey key).length

instance (key : Chars) : Decidable (TooLong key) :=
  inferInstanceAs (Decidable (200 < (percentEncodeKey key).length))

/-- A single file name component that stands for a cache key. -/
def encodeKey (key : Chars) : Chars :=
  if TooLong key then hashedKey blake3 key else percentEncodeKey key

/-- The components of an archive's path. -/
def archivePath (root : List Chars) (projectId : Nat) (key : Chars) : List Chars :=
  root ++ ["project-".toList ++ Nat.toDigits 10 projectId, encodeKey blake3 key ++ ".zip".toList]

/-- `<prefix>/project-<id>/<file_name>`. -/
def objectKey (pre : Chars) (projectId : Nat) (fileName : Chars) : Chars :=
  let key := "project-".toList ++ (Nat.toDigits 10 projectId ++ ('/' :: fileName))
  if pre = [] then key else pre ++ ('/' :: key)

/-- The object that an archive is stored as. -/
def archiveObject (pre : Chars) (projectId : Nat) (key : Chars) : Chars :=
  objectKey pre projectId (encodeKey blake3 key ++ ".zip".toList)

end Names

/-! ## The keys of a restore -/

/-- Expand variables in a cache key; an empty key means `default`. -/
def resolveKey (key : Chars) (values : Values) : Chars :=
  let trimmed := trim (expand key values)
  if trimmed = [] then "default".toList else trimmed

/-- `CACHE_FALLBACK_KEY`, unless it names a protected branch's cache. -/
def cacheFallbackKey (values : Values) : Option Chars :=
  (values "CACHE_FALLBACK_KEY".toList).filter fun key =>
    ¬ "-protected".toList <:+ resolveKey key values

/-- The keys that a restore tries, in order. -/
def restoreKeys (key : Chars) (fallbackKeys : List Chars) (values : Values) : List Chars :=
  (key :: (fallbackKeys ++ (cacheFallbackKey values).toList)).map (resolveKey · values)

/-! ## Reading names back -/

theorem char_ofNat_inj {b c : UInt8} (h : Char.ofNat b.toNat = Char.ofNat c.toNat) : b = c := by
  have hvalid : ∀ n : UInt8, (Char.ofNat n.toNat).toNat = n.toNat := by
    apply forall_byte
    decide +kernel
  rw [← UInt8.toNat_inj, ← hvalid b, h, hvalid c]

theorem ofNat_ne_percent {b : UInt8} (h : isKeyByte b = true) : Char.ofNat b.toNat ≠ '%' := by
  revert h
  revert b
  apply forall_byte
  decide +kernel

/-- The two halves of a byte. -/
theorem exists_nibbles (b : UInt8) : ∃ high low : Fin 16, b / 16 = UInt8.ofNat high ∧
    b % 16 = UInt8.ofNat low ∧ b.toNat = 16 * high + low := by
  have hhalves : b / 16 = UInt8.ofNat (b.toNat / 16) ∧ b % 16 = UInt8.ofNat (b.toNat % 16) := by
    revert b
    apply forall_byte
    decide +kernel
  have hlt : b.toNat < 256 := b.toNat_lt
  refine ⟨⟨b.toNat / 16, by omega⟩, ⟨b.toNat % 16, by omega⟩, hhalves.1, hhalves.2, ?_⟩
  show b.toNat = 16 * (b.toNat / 16) + b.toNat % 16
  omega

theorem hexDigit_inj {b c : UInt8} (hhigh : hexDigit (b / 16) = hexDigit (c / 16))
    (hlow : hexDigit (b % 16) = hexDigit (c % 16)) : b = c := by
  have hdigit : ∀ m n : Fin 16, hexDigit (UInt8.ofNat m) = hexDigit (UInt8.ofNat n) → m = n := by
    decide
  obtain ⟨bh, bl, hbh, hbl, hb⟩ := exists_nibbles b
  obtain ⟨ch, cl, hch, hcl, hc⟩ := exists_nibbles c
  rw [hbh, hch] at hhigh
  rw [hbl, hcl] at hlow
  rw [← UInt8.toNat_inj, hb, hc, hdigit bh ch hhigh, hdigit bl cl hlow]

theorem encodeKeyByte_readsBack : Names.ReadsBack encodeKeyByte := by
  intro b c r s h
  unfold encodeKeyByte at h
  by_cases hb : isKeyByte b
  · by_cases hc : isKeyByte c
    · rw [if_pos hb, if_pos hc] at h
      obtain ⟨hchar, hrest⟩ := List.cons.inj h
      exact ⟨char_ofNat_inj hchar, hrest⟩
    · rw [if_pos hb, if_neg hc] at h
      exact absurd (List.cons.inj h).1 (ofNat_ne_percent hb)
  · by_cases hc : isKeyByte c
    · rw [if_neg hb, if_pos hc] at h
      exact absurd (List.cons.inj h).1.symm (ofNat_ne_percent hc)
    · rw [if_neg hb, if_neg hc] at h
      simp only [List.cons_append, List.nil_append, List.cons.injEq, true_and] at h
      obtain ⟨hhigh, hlow, hrest⟩ := h
      exact ⟨hexDigit_inj hhigh hlow, hrest⟩

theorem percentEncodeKey_inj {k k' : Chars} (h : percentEncodeKey k = percentEncodeKey k') :
    k = k' := by
  have hne : ∀ b, encodeKeyByte b ≠ [] := by
    intro b
    unfold encodeKeyByte
    split
    · simp
    · simp
  exact encode_injective (Names.flatMap_inj encodeKeyByte_readsBack hne h)

theorem hexByte_readsBack : Names.ReadsBack hexByte := by
  intro b c r s h
  simp only [hexByte, List.cons_append, List.nil_append, List.cons.injEq] at h
  obtain ⟨hhigh, hlow, hrest⟩ := h
  have hdigit : ∀ m n : Fin 16, Nat.digitChar m = Nat.digitChar n → m = n := by decide
  have hb : b.toNat < 256 := b.toNat_lt
  have hc : c.toNat < 256 := c.toNat_lt
  have hhigh' := hdigit ⟨b.toNat / 16, by omega⟩ ⟨c.toNat / 16, by omega⟩ hhigh
  have hlow' := hdigit ⟨b.toNat % 16, by omega⟩ ⟨c.toNat % 16, by omega⟩ hlow
  rw [Fin.mk.injEq] at hhigh' hlow'
  exact ⟨UInt8.toNat_inj.mp (by omega), hrest⟩

theorem hexByte_chars (b : UInt8) : ∀ c ∈ hexByte b, c ∈ "0123456789abcdef".toList := by
  have hdigit : ∀ n : Fin 16, Nat.digitChar n ∈ "0123456789abcdef".toList := by decide
  have hb : b.toNat < 256 := b.toNat_lt
  intro c hc
  rcases List.mem_pair.mp hc with rfl | rfl
  · exact hdigit ⟨b.toNat / 16, by omega⟩
  · exact hdigit ⟨b.toNat % 16, by omega⟩

theorem toHex_inj {d e : Digest} (h : d.toHex = e.toHex) : d = e :=
  Subtype.ext (Names.flatMap_inj hexByte_readsBack (fun _ => List.cons_ne_nil _ _) h)

theorem length_toHex (d : Digest) : d.toHex.length = 64 := by
  have hbyte : ∀ b : UInt8, (hexByte b).length = 2 := fun _ => rfl
  simp [Digest.toHex, List.length_flatMap, hbyte, d.2]

/-! ## The two forms of a name -/

/-- A text of characters that are kept is its own encoding. -/
theorem percentEncodeKey_eq_self {key : Chars} (h : ∀ c ∈ key, percentEncodeKey [c] = [c]) :
    percentEncodeKey key = key := by
  induction key with
  | nil => rfl
  | cons c key ih =>
      have hhead : percentEncodeKey [c] = [c] := h c List.mem_cons_self
      have htail : percentEncodeKey key = key := ih fun d hd => h d (List.mem_cons_of_mem c hd)
      calc percentEncodeKey (c :: key)
          = percentEncodeKey [c] ++ percentEncodeKey key := by
            simp [percentEncodeKey, encode_cons]
        _ = [c] ++ key := by rw [hhead, htail]

section Names

variable {blake3 : List UInt8 → Digest} {k k' : Chars}

theorem percentEncodeKey_hashedKey :
    percentEncodeKey (hashedKey blake3 k) = hashedKey blake3 k := by
  have hdigit : ∀ n : Fin 16, percentEncodeKey [Nat.digitChar n] = [Nat.digitChar n] := by
    decide
  apply percentEncodeKey_eq_self
  intro c hc
  rcases List.mem_append.mp hc with hc | hc
  · rcases List.mem_pair.mp hc with rfl | rfl
    · decide
    · decide
  · obtain ⟨b, -, hb⟩ := List.mem_flatMap.mp hc
    have hlt : b.toNat < 256 := b.toNat_lt
    simp only [hexByte, List.mem_cons, List.not_mem_nil, or_false] at hb
    rcases hb with rfl | rfl
    · exact hdigit ⟨b.toNat / 16, by omega⟩
    · exact hdigit ⟨b.toNat % 16, by omega⟩

/-- A hashed name is the encoding of one key, itself. -/
theorem percentEncodeKey_eq_hashedKey :
    percentEncodeKey k' = hashedKey blake3 k ↔ k' = hashedKey blake3 k := by
  constructor
  · intro h
    exact percentEncodeKey_inj (h.trans percentEncodeKey_hashedKey.symm)
  · rintro rfl
    exact percentEncodeKey_hashedKey

theorem not_tooLong_hashedKey : ¬ TooLong (hashedKey blake3 k) := by
  rw [TooLong, percentEncodeKey_hashedKey, hashedKey, List.length_append, length_toHex]
  decide

/-- The short key that is the hashed name of the long one. -/
def Aliases (blake3 : List UInt8 → Digest) (short long : Chars) : Prop :=
  TooLong long ∧ short = hashedKey blake3 long

instance : Decidable (Aliases blake3 k k') :=
  inferInstanceAs (Decidable (TooLong k' ∧ k = hashedKey blake3 k'))

/-- **When two keys have one name**: they are one key, or one of them is the hashed name of the
other. -/
theorem encodeKey_eq_iff (hfree : blake3 (encode k) = blake3 (encode k') → k = k') :
    encodeKey blake3 k = encodeKey blake3 k' ↔
      k = k' ∨ Aliases blake3 k k' ∨ Aliases blake3 k' k := by
  unfold encodeKey Aliases
  by_cases hk : TooLong k
  · by_cases hk' : TooLong k'
    · rw [if_pos hk, if_pos hk']
      constructor
      · intro h
        exact .inl (hfree (toHex_inj (List.append_cancel_left h)))
      · rintro (rfl | ⟨-, rfl⟩ | ⟨-, rfl⟩)
        · rfl
        · exact absurd hk not_tooLong_hashedKey
        · exact absurd hk' not_tooLong_hashedKey
    · rw [if_pos hk, if_neg hk', eq_comm, percentEncodeKey_eq_hashedKey]
      constructor
      · exact fun h => .inr (.inr ⟨hk, h⟩)
      · rintro (rfl | ⟨hlong, -⟩ | ⟨-, h⟩)
        · exact absurd hk hk'
        · exact absurd hlong hk'
        · exact h
  · by_cases hk' : TooLong k'
    · rw [if_neg hk, if_pos hk', percentEncodeKey_eq_hashedKey]
      constructor
      · exact fun h => .inr (.inl ⟨hk', h⟩)
      · rintro (rfl | ⟨-, h⟩ | ⟨hlong, -⟩)
        · exact absurd hk' hk
        · exact h
        · exact absurd hlong hk
    · rw [if_neg hk, if_neg hk']
      constructor
      · exact fun h => .inl (percentEncodeKey_inj h)
      · rintro (rfl | ⟨hlong, -⟩ | ⟨hlong, -⟩)
        · rfl
        · exact absurd hlong hk'
        · exact absurd hlong hk

theorem archivePath_eq_iff {root : List Chars} {p p' : Nat} :
    archivePath blake3 root p k = archivePath blake3 root p' k' ↔
      p = p' ∧ encodeKey blake3 k = encodeKey blake3 k' := by
  simp [archivePath, Names.toDigits_inj]

theorem archiveObject_eq_iff {pre : Chars} {p p' : Nat} :
    archiveObject blake3 pre p k = archiveObject blake3 pre p' k' ↔
      p = p' ∧ encodeKey blake3 k = encodeKey blake3 k' := by
  have hslash : ∀ rest, Names.NoDigit ('/' :: rest) := fun _ => Names.noDigit_cons (by decide)
  have hkey : archiveObject blake3 pre p k = archiveObject blake3 pre p' k' ↔
      Nat.toDigits 10 p ++ ('/' :: (encodeKey blake3 k ++ ".zip".toList)) =
        Nat.toDigits 10 p' ++ ('/' :: (encodeKey blake3 k' ++ ".zip".toList)) := by
    unfold archiveObject objectKey
    split
    · exact List.append_right_inj _
    · rw [List.append_right_inj, List.cons_inj_right, List.append_right_inj]
  rw [hkey]
  constructor
  · intro h
    obtain ⟨hproject, hrest⟩ := Names.toDigits_append_inj (hslash _) (hslash _) h
    exact ⟨hproject, List.append_cancel_right (List.cons.inj hrest).2⟩
  · rintro ⟨rfl, h⟩
    rw [h]

end Names

/-- **Names of different keys differ**, on the host and in S3, exactly if the projects differ or
neither key is the hashed name of the other. -/
theorem cache_names_differ_iff (blake3 : List UInt8 → Digest) (root : List Chars) (pre : Chars)
    {p p' : Nat} {k k' : Chars} (hne : (p, k) ≠ (p', k'))
    (hfree : blake3 (encode k) = blake3 (encode k') → k = k') :
    (archivePath blake3 root p k ≠ archivePath blake3 root p' k' ↔
      ¬ (p = p' ∧ (Aliases blake3 k k' ∨ Aliases blake3 k' k))) ∧
    (archiveObject blake3 pre p k ≠ archiveObject blake3 pre p' k' ↔
      ¬ (p = p' ∧ (Aliases blake3 k k' ∨ Aliases blake3 k' k))) := by
  have hnames : (p = p' ∧ encodeKey blake3 k = encodeKey blake3 k') ↔
      (p = p' ∧ (Aliases blake3 k k' ∨ Aliases blake3 k' k)) := by
    refine and_congr_right fun hp => ?_
    have hk : k ≠ k' := fun hk => hne (Prod.ext hp hk)
    rw [encodeKey_eq_iff hfree, or_iff_right hk]
  exact ⟨not_congr (archivePath_eq_iff.trans hnames), not_congr (archiveObject_eq_iff.trans hnames)⟩

/-- A hash for examples: the length of the key. -/
def lengthHash (bytes : List UInt8) : Digest :=
  ⟨UInt8.ofNat bytes.length :: List.replicate 31 0, by simp⟩

theorem cache_names_differ_two :
    archivePath lengthHash [] 1 "main".toList ≠ archivePath lengthHash [] 1 "dev".toList :=
  ((cache_names_differ_iff lengthHash [] [] (by decide) (by decide)).1).mpr (by decide)

/-- The key of a protected branch's cache. -/
def protectedKey : Chars := List.replicate 201 'a' ++ "-protected".toList

/-- The hashed name of that key. -/
def aliasKey : Chars := hashedKey lengthHash protectedKey

/-- The variables of a job that names the alias as its fallback key. -/
def aliasValues : Values := fun key =>
  if key = "CACHE_FALLBACK_KEY".toList then some aliasKey else none

theorem tooLong_letters {n : Nat} (hn : 200 < n) :
    TooLong (List.replicate n 'a' ++ "-protected".toList) := by
  have hself : percentEncodeKey (List.replicate n 'a' ++ "-protected".toList) =
      List.replicate n 'a' ++ "-protected".toList := by
    apply percentEncodeKey_eq_self
    intro c hc
    rcases List.mem_append.mp hc with hletter | hend
    · rw [List.eq_of_mem_replicate hletter]
      decide
    · have hkept : ("-protected".toList.all fun c => percentEncodeKey [c] = [c]) = true := by
        decide
      exact of_decide_eq_true (List.all_eq_true.mp hkept c hend)
  rw [TooLong, hself, List.length_append, List.length_replicate]
  omega

/-- **A fallback key reaches the archive of another key**, one that ends in `-protected`. -/
theorem alias_reaches_protected :
    aliasKey ≠ protectedKey ∧ lengthHash (encode aliasKey) ≠ lengthHash (encode protectedKey) ∧
      aliasKey ∈ restoreKeys "default".toList [] aliasValues ∧
      archivePath lengthHash [] 1 aliasKey = archivePath lengthHash [] 1 protectedKey ∧
      archiveObject lengthHash [] 1 aliasKey = archiveObject lengthHash [] 1 protectedKey := by
  have hne : aliasKey ≠ protectedKey := by decide
  have hhash : lengthHash (encode aliasKey) ≠ lengthHash (encode protectedKey) := by
    decide +kernel
  have hrestore : aliasKey ∈ restoreKeys "default".toList [] aliasValues := by decide +kernel
  have hname : encodeKey lengthHash aliasKey = encodeKey lengthHash protectedKey := by
    refine (encodeKey_eq_iff fun h => absurd h hhash).mpr (.inr (.inl ?_))
    exact ⟨tooLong_letters (by decide), rfl⟩
  exact ⟨hne, hhash, hrestore, archivePath_eq_iff.mpr ⟨rfl, hname⟩,
    archiveObject_eq_iff.mpr ⟨rfl, hname⟩⟩

end TurboCi
