import TurboCi.RunnerDaemon.Breaker
import TurboCi.RunnerDaemon.ObjectPaths

set_option autoImplicit false

/-! # Signed requests

The requests to S3 are signed with the secret key: `Signer::authorization`, and the use that
`Bucket::send` makes of it (`runner_daemon/s3.rs`). SHA-256 and HMAC are parameters.

The signature is made from a text that holds the time and a hash of the request's text. Both texts
can be taken apart again. So what the header `Authorization` of a request says is of no use for
another request, with another method, object, content or time, unless the two collide in one of the
hashes (`authorization_binds`).
-/

namespace TurboCi

open Utf8 Config

/-! ## Times -/

/-- A time of the clock, to the second. -/
structure UtcTime where
  year : Nat
  month : Nat
  day : Nat
  hour : Nat
  minute : Nat
  second : Nat
  month_le : month ≤ 12 := by decide
  day_le : day ≤ 31 := by decide
  hour_le : hour ≤ 23 := by decide
  minute_le : minute ≤ 59 := by decide
  /-- a leap second counts as the 60th -/
  second_le : second ≤ 60 := by decide
  deriving DecidableEq

/-- A number below 100, in two digits. -/
def pad (n : Nat) : Chars := [Nat.digitChar (n / 10), Nat.digitChar (n % 10)]

/-- `%Y`: four digits, or a sign and all of them. -/
def yearText (year : Nat) : Chars :=
  if year ≤ 9999 then pad (year / 100) ++ pad (year % 100) else '+' :: Nat.toDigits 10 year

/-- `%m%dT%H%M%SZ` -/
def UtcTime.afterYear (t : UtcTime) : Chars :=
  pad t.month ++ (pad t.day ++ 'T' :: (pad t.hour ++ (pad t.minute ++ (pad t.second ++ ['Z']))))

/-- `%Y%m%dT%H%M%SZ` -/
def UtcTime.amzDate (t : UtcTime) : Chars := yearText t.year ++ t.afterYear

/-- What follows the year fits two digits each. -/
structure UtcTime.TwoDigits (t : UtcTime) : Prop where
  month : t.month < 100
  day : t.day < 100
  hour : t.hour < 100
  minute : t.minute < 100
  second : t.second < 100

theorem UtcTime.twoDigits (t : UtcTime) : t.TwoDigits where
  month := Nat.lt_of_le_of_lt t.month_le (by decide)
  day := Nat.lt_of_le_of_lt t.day_le (by decide)
  hour := Nat.lt_of_le_of_lt t.hour_le (by decide)
  minute := Nat.lt_of_le_of_lt t.minute_le (by decide)
  second := Nat.lt_of_le_of_lt t.second_le (by decide)

theorem digitChar_inj {m n : Nat} (hm : m < 10) (hn : n < 10)
    (h : Nat.digitChar m = Nat.digitChar n) : m = n := by
  have hdigit : ∀ m n : Fin 10, Nat.digitChar m = Nat.digitChar n → m = n := by decide
  exact Fin.mk.inj (hdigit ⟨m, hm⟩ ⟨n, hn⟩ h)

theorem pad_inj {m n : Nat} (hm : m < 100) (hn : n < 100) (h : pad m = pad n) : m = n := by
  have htens : Nat.digitChar (m / 10) = Nat.digitChar (n / 10) := (List.cons.inj h).1
  have hones : Nat.digitChar (m % 10) = Nat.digitChar (n % 10) :=
    (List.cons.inj (List.cons.inj h).2).1
  have hdiv := digitChar_inj (by omega) (by omega) htens
  have hmod := digitChar_inj (by omega) (by omega) hones
  omega

/-- The first of two numbers in two digits, and what follows. -/
theorem pad_append_inj {m n : Nat} {r s : Chars} (hm : m < 100) (hn : n < 100)
    (h : pad m ++ r = pad n ++ s) : m = n ∧ r = s := by
  obtain ⟨hpad, hrest⟩ := List.append_inj h rfl
  exact ⟨pad_inj hm hn hpad, hrest⟩

theorem isDigit_of_mem_pad {n : Nat} (hn : n < 100) : ∀ c ∈ pad n, c.isDigit = true := by
  have hdigit : ∀ n : Fin 10, (Nat.digitChar n).isDigit = true := by decide
  intro c hc
  rcases List.mem_pair.mp hc with rfl | rfl
  · exact hdigit ⟨n / 10, by omega⟩
  · exact hdigit ⟨n % 10, by omega⟩

theorem yearText_inj {y z : Nat} (h : yearText y = yearText z) : y = z := by
  have hsign : ∀ {y z : Nat}, y ≤ 9999 →
      pad (y / 100) ++ pad (y % 100) ≠ '+' :: Nat.toDigits 10 z := by
    intro y z hy heq
    have hplus : ('+' : Char) ∈ pad (y / 100) :=
      (List.cons.inj heq).1 ▸ List.mem_cons_self
    exact absurd (isDigit_of_mem_pad (by omega) _ hplus) (by decide)
  unfold yearText at h
  by_cases hy : y ≤ 9999
  · by_cases hz : z ≤ 9999
    · rw [if_pos hy, if_pos hz] at h
      obtain ⟨hcentury, hrest⟩ := pad_append_inj (by omega) (by omega) h
      have hyears := pad_inj (by omega) (by omega) hrest
      omega
    · rw [if_pos hy, if_neg hz] at h
      exact absurd h (hsign hy)
  · by_cases hz : z ≤ 9999
    · rw [if_neg hy, if_pos hz] at h
      exact absurd h.symm (hsign hz)
    · rw [if_neg hy, if_neg hz] at h
      exact Names.toDigits_inj.mp (List.cons.inj h).2

/-- What follows the year has always the same length. -/
theorem length_afterYear (t : UtcTime) : t.afterYear.length = 12 := rfl

/-- The date is the first eight bytes of the text. -/
theorem eight_le_length_amzDate (t : UtcTime) : 8 ≤ t.amzDate.length := by
  rw [UtcTime.amzDate, List.length_append, length_afterYear]
  omega

/-- **The text says what time it is.** -/
theorem amzDate_inj {t u : UtcTime} (h : t.amzDate = u.amzDate) : t = u := by
  have hlength : (yearText t.year).length = (yearText u.year).length := by
    have htotal := congrArg List.length h
    rw [UtcTime.amzDate, UtcTime.amzDate, List.length_append, List.length_append,
      length_afterYear, length_afterYear] at htotal
    omega
  obtain ⟨hyear, hrest⟩ := List.append_inj h hlength
  have ht := t.twoDigits
  have hu := u.twoDigits
  obtain ⟨hmonth, hrest⟩ := pad_append_inj ht.month hu.month hrest
  obtain ⟨hday, hrest⟩ := pad_append_inj ht.day hu.day hrest
  obtain ⟨hhour, hrest⟩ := pad_append_inj ht.hour hu.hour (List.cons.inj hrest).2
  obtain ⟨hminute, hrest⟩ := pad_append_inj ht.minute hu.minute hrest
  obtain ⟨hsecond, -⟩ := pad_append_inj ht.second hu.second hrest
  have hyear := yearText_inj hyear
  cases t
  cases u
  simp_all

/-- The text is one line. -/
theorem newline_not_mem_amzDate (t : UtcTime) : '\n' ∉ t.amzDate := by
  have hpad : ∀ {n : Nat}, n < 100 → '\n' ∉ pad n := fun hn hmem =>
    absurd (isDigit_of_mem_pad hn _ hmem) (by decide)
  have hyear : '\n' ∉ yearText t.year := by
    unfold yearText
    by_cases hy : t.year ≤ 9999
    · rw [if_pos hy, List.mem_append, not_or]
      exact ⟨hpad (by omega), hpad (by omega)⟩
    · rw [if_neg hy, List.mem_cons, not_or]
      exact ⟨by decide, fun hmem => absurd (Names.isDigit_of_mem hmem) (by decide)⟩
  have ht := t.twoDigits
  simp [UtcTime.amzDate, UtcTime.afterYear, hyear, hpad ht.month, hpad ht.day, hpad ht.hour,
    hpad ht.minute, hpad ht.second]

/-! ## Signatures -/

structure Signer where
  accessKey : Chars
  secretKey : Chars
  region : Chars
  deriving DecidableEq

section Hashes

variable (sha256 : List UInt8 → Digest) (hmac : List UInt8 → List UInt8 → Digest)

def hmacSha256 (key : List UInt8) (data : Chars) : List UInt8 := (hmac key (encode data)).1

/-- What a signature is for. -/
def scope (date region : Chars) : Chars := date ++ '/' :: (region ++ "/s3/aws4_request".toList)

def canonicalHeaders (headers : List (Chars × Chars)) : Chars :=
  headers.flatMap fun header => header.1 ++ ':' :: (header.2 ++ ['\n'])

def signedHeaders (headers : List (Chars × Chars)) : Chars :=
  [';'].intercalate (headers.map Prod.fst)

def canonicalRequest (method canonicalUri : Chars) (headers : List (Chars × Chars))
    (payloadHash : Chars) : Chars :=
  method ++ '\n' :: (canonicalUri ++ '\n' :: '\n' :: (canonicalHeaders headers ++
    '\n' :: (signedHeaders headers ++ '\n' :: payloadHash)))

def stringToSign (amzDate region canonicalRequest : Chars) : Chars :=
  "AWS4-HMAC-SHA256".toList ++ '\n' :: (amzDate ++ '\n' :: (scope (amzDate.take 8) region ++
    '\n' :: (sha256 (encode canonicalRequest)).toHex))

/-- The key of a day. -/
def Signer.signingKey (signer : Signer) (date : Chars) : List UInt8 :=
  [date, signer.region, "s3".toList, "aws4_request".toList].foldl (hmacSha256 hmac)
    (encode ("AWS4".toList ++ signer.secretKey))

def Signer.signature (signer : Signer) (amzDate canonicalRequest : Chars) : Digest :=
  hmac (signer.signingKey hmac (amzDate.take 8))
    (encode (stringToSign sha256 amzDate signer.region canonicalRequest))

/-- `Authorization` header for a request without a query string. -/
def Signer.authorization (signer : Signer) (method canonicalUri : Chars)
    (headers : List (Chars × Chars)) (payloadHash amzDate : Chars) : Chars :=
  "AWS4-HMAC-SHA256 Credential=".toList ++ (signer.accessKey ++ '/' ::
    (scope (amzDate.take 8) signer.region ++ (", SignedHeaders=".toList ++
      (signedHeaders headers ++ (", Signature=".toList ++
        (signer.signature sha256 hmac amzDate
          (canonicalRequest method canonicalUri headers payloadHash)).toHex)))))

/-! ## The requests of a bucket -/

structure Bucket where
  location : S3Location
  accessKey : Chars
  secretKey : Chars

/-- What a request is for. -/
structure ObjectRequest where
  method : Breaker.Method
  /-- empty for the bucket itself -/
  key : Chars
  payload : Digest
  time : UtcTime
  deriving DecidableEq

def methodText : Breaker.Method → Chars
  | .get => "GET".toList
  | .put => "PUT".toList
  | .head => "HEAD".toList

namespace Bucket

variable (bucket : Bucket)

def hostHeader : Chars :=
  let host := bucket.location.endpoint.host.getD []
  match bucket.location.endpoint.port with
  | some port => host ++ ':' :: Nat.toDigits 10 port
  | none => host

def path (key : Chars) : Chars := objectPath bucket.location.bucket key

def signer : Signer where
  accessKey := bucket.accessKey
  secretKey := bucket.secretKey
  region := bucket.location.region

/-- The headers that are signed. -/
def headers (payloadHash amzDate : Chars) : List (Chars × Chars) :=
  [("host".toList, bucket.hostHeader), ("x-amz-content-sha256".toList, payloadHash),
    ("x-amz-date".toList, amzDate)]

/-- The text of a request. -/
def canonical (r : ObjectRequest) : Chars :=
  canonicalRequest (methodText r.method) (bucket.path r.key)
    (bucket.headers r.payload.toHex r.time.amzDate) r.payload.toHex

/-- What `send` puts in the header `Authorization`. -/
def authorization (r : ObjectRequest) : Chars :=
  bucket.signer.authorization sha256 hmac (methodText r.method) (bucket.path r.key)
    (bucket.headers r.payload.toHex r.time.amzDate) r.payload.toHex r.time.amzDate

end Bucket

end Hashes

/-! ## Taking the texts apart -/

/-- A line can be read off the front of a text. -/
theorem line_append_inj {l m r s : Chars} (hl : '\n' ∉ l) (hm : '\n' ∉ m)
    (h : l ++ '\n' :: r = m ++ '\n' :: s) : l = m ∧ r = s := by
  have hline : ∀ {l : Chars} (r : Chars), '\n' ∉ l →
      (l ++ '\n' :: r).takeWhile (· ≠ '\n') = l := by
    intro l r hl
    have hall : ∀ c ∈ l, decide (c ≠ '\n') = true := by
      intro c hc
      have hne : c ≠ '\n' := by
        rintro rfl
        exact hl hc
      simp [hne]
    rw [List.takeWhile_append_of_pos hall]
    simp
  have hsame : l = m := by rw [← hline r hl, h, hline s hm]
  subst hsame
  exact ⟨rfl, (List.cons.inj (List.append_cancel_left h)).2⟩

theorem encodePath_inj {p q : List UInt8} (h : encodePath p = encodePath q) : p = q := by
  rw [← percentDecodeFrom_encodePath p, h, percentDecodeFrom_encodePath]

/-- Objects of a bucket have different paths. -/
theorem objectPath_inj {bucket : List UInt8} {key key' : Chars}
    (h : objectPath bucket key = objectPath bucket key') : key = key' := by
  have hlonger : ∀ {key : Chars}, 0x2F :: bucket ≠ 0x2F :: (bucket ++ 0x2F :: encode key) := by
    intro key heq
    have hlength := congrArg List.length heq
    simp at hlength
  unfold objectPath at h
  by_cases hkey : key = []
  · by_cases hkey' : key' = []
    · rw [hkey, hkey']
    · rw [if_pos hkey, if_neg hkey'] at h
      exact absurd (encodePath_inj h) hlonger
  · by_cases hkey' : key' = []
    · rw [if_neg hkey, if_pos hkey'] at h
      exact absurd (encodePath_inj h).symm hlonger
    · rw [if_neg hkey, if_neg hkey'] at h
      have hpath := (List.cons.inj (encodePath_inj h)).2
      exact encode_injective (List.cons.inj (List.append_cancel_left hpath)).2

theorem newline_not_mem_encodePath (path : List UInt8) : '\n' ∉ encodePath path := by
  have hbyte : ∀ b : UInt8, '\n' ∉ encodePathByte b := by
    apply forall_byte
    decide +kernel
  intro hmem
  obtain ⟨b, -, hb⟩ := List.mem_flatMap.mp hmem
  exact hbyte b hb

theorem newline_not_mem_objectPath (bucket : List UInt8) (key : Chars) :
    '\n' ∉ objectPath bucket key := by
  unfold objectPath
  split
  · exact newline_not_mem_encodePath _
  · exact newline_not_mem_encodePath _

theorem newline_not_mem_toHex (digest : Digest) : '\n' ∉ digest.toHex := by
  intro hmem
  obtain ⟨b, -, hb⟩ := List.mem_flatMap.mp hmem
  exact absurd (hexByte_chars b _ hb) (by decide)

theorem methodText_inj {m n : Breaker.Method} (h : methodText m = methodText n) : m = n := by
  cases m <;> cases n <;> first | rfl | exact absurd h (by decide)

theorem newline_not_mem_methodText (m : Breaker.Method) : '\n' ∉ methodText m := by
  cases m <;> decide

/-- **The text of a request says what the request is for.** -/
theorem canonical_inj (bucket : Bucket) {r r' : ObjectRequest}
    (h : bucket.canonical r = bucket.canonical r') : r = r' := by
  simp only [Bucket.canonical, canonicalRequest, canonicalHeaders, Bucket.headers,
    List.flatMap_cons, List.append_assoc, List.cons_append, List.nil_append] at h
  -- line by line: the method, the path, and of the headers the two that differ
  obtain ⟨hmethod, h⟩ :=
    line_append_inj (newline_not_mem_methodText _) (newline_not_mem_methodText _) h
  obtain ⟨hpath, h⟩ :=
    line_append_inj (newline_not_mem_objectPath _ _) (newline_not_mem_objectPath _ _) h
  have h := List.append_cancel_left (List.cons.inj (List.append_cancel_left (List.cons.inj h).2)).2
  have h := (List.cons.inj (List.append_cancel_left (List.cons.inj h).2)).2
  obtain ⟨hpayload, h⟩ := line_append_inj (newline_not_mem_toHex _) (newline_not_mem_toHex _) h
  have h := (List.cons.inj (List.append_cancel_left h)).2
  obtain ⟨htime, -⟩ := line_append_inj (newline_not_mem_amzDate _) (newline_not_mem_amzDate _) h
  cases r
  cases r'
  have hmethod := methodText_inj hmethod
  have hkey := objectPath_inj hpath
  have hpayload := toHex_inj hpayload
  have htime := amzDate_inj htime
  simp_all

/-! ## What a signature is good for -/

/-- Two inputs with one hash. -/
def Collide {α β : Type} (f : α → β) (a b : α) : Prop := a ≠ b ∧ f a = f b

theorem eq_or_collide {α β : Type} {f : α → β} {a b : α} (h : f a = f b) :
    a = b ∨ Collide f a b := by
  by_cases hab : a = b
  · exact Or.inl hab
  · exact Or.inr ⟨hab, h⟩

section Binding

variable {sha256 : List UInt8 → Digest} {hmac : List UInt8 → List UInt8 → Digest}

/-- The header says for which day it is, and what the signature is. -/
theorem signature_of_authorization {signer : Signer} {m m' u u' p p' d d' : Chars}
    {headers headers' : List (Chars × Chars)} (hd : 8 ≤ d.length) (hd' : 8 ≤ d'.length)
    (hnames : signedHeaders headers = signedHeaders headers')
    (h : signer.authorization sha256 hmac m u headers p d =
      signer.authorization sha256 hmac m' u' headers' p' d') :
    d.take 8 = d'.take 8 ∧
      signer.signature sha256 hmac d (canonicalRequest m u headers p) =
        signer.signature sha256 hmac d' (canonicalRequest m' u' headers' p') := by
  unfold Signer.authorization scope at h
  rw [hnames] at h
  have h := (List.cons.inj (List.append_cancel_left (List.append_cancel_left h))).2
  simp only [List.append_assoc] at h
  have hlength : (d.take 8).length = (d'.take 8).length := by
    rw [List.length_take_of_le hd, List.length_take_of_le hd']
  obtain ⟨hdate, h⟩ := List.append_inj h hlength
  refine ⟨hdate, toHex_inj ?_⟩
  simpa using h

/-- What is signed says when the request is sent, and what the hash of its text is. -/
theorem stringToSign_inj {region c c' : Chars} {t t' : UtcTime}
    (h : stringToSign sha256 t.amzDate region c = stringToSign sha256 t'.amzDate region c') :
    t = t' ∧ sha256 (encode c) = sha256 (encode c') := by
  unfold stringToSign at h
  have h := List.append_cancel_left h
  obtain ⟨htime, h⟩ :=
    line_append_inj (newline_not_mem_amzDate _) (newline_not_mem_amzDate _) (List.cons.inj h).2
  rw [htime] at h
  have hhash : (sha256 (encode c)).toHex = (sha256 (encode c')).toHex :=
    List.tail_eq_of_cons_eq (List.append_cancel_left h)
  exact ⟨amzDate_inj htime, toHex_inj hhash⟩

/-- **An authorization is good for one request.** When two requests to a bucket carry the same
header `Authorization`, they are the same in method, object, content and time; or else the texts of
the two collide in SHA-256, or what is signed for them collides in HMAC with the key of their
day. -/
theorem authorization_binds (bucket : Bucket) (r r' : ObjectRequest)
    (h : bucket.authorization sha256 hmac r = bucket.authorization sha256 hmac r') :
    r = r' ∨
    Collide sha256 (encode (bucket.canonical r)) (encode (bucket.canonical r')) ∨
    Collide (hmac (bucket.signer.signingKey hmac (r.time.amzDate.take 8)))
      (encode (stringToSign sha256 r.time.amzDate bucket.location.region (bucket.canonical r)))
      (encode (stringToSign sha256 r'.time.amzDate bucket.location.region
        (bucket.canonical r'))) := by
  have hnames : signedHeaders (bucket.headers r.payload.toHex r.time.amzDate) =
      signedHeaders (bucket.headers r'.payload.toHex r'.time.amzDate) := rfl
  obtain ⟨hdate, hsignature⟩ := signature_of_authorization (eight_le_length_amzDate r.time)
    (eight_le_length_amzDate r'.time) hnames h
  rw [← Bucket.canonical, ← Bucket.canonical] at hsignature
  unfold Signer.signature at hsignature
  rw [← hdate] at hsignature
  rcases eq_or_collide hsignature with hsigned | hcollide
  · obtain ⟨-, hhash⟩ := stringToSign_inj (encode_injective hsigned)
    rcases eq_or_collide hhash with htext | hcollide
    · exact Or.inl (canonical_inj bucket (encode_injective htext))
    · exact Or.inr (Or.inl hcollide)
  · exact Or.inr (Or.inr hcollide)

/-- A bucket for examples. -/
def cacheBucket : Bucket where
  location := {
    endpoint := { scheme := "https".toList, host := some "s3".toList }
    bucket := [0x62]
    pre := []
    region := "r".toList }
  accessKey := "k".toList
  secretKey := "s".toList

/-- The request for an object, on a day of 2026. -/
def objectRead (key : Chars) : ObjectRequest where
  method := .get
  key := key
  payload := lengthHash []
  time := { year := 2026, month := 3, day := 14, hour := 9, minute := 26, second := 53 }

set_option maxRecDepth 8000 in
/-- With hashes that say only how long a text is, the authorization for one object is good for
another one. -/
theorem authorization_binds_lengthHash :
    cacheBucket.authorization lengthHash (fun _ => lengthHash) (objectRead "a".toList) =
        cacheBucket.authorization lengthHash (fun _ => lengthHash) (objectRead "b".toList) ∧
      Collide lengthHash (encode (cacheBucket.canonical (objectRead "a".toList)))
        (encode (cacheBucket.canonical (objectRead "b".toList))) := by
  have hsame : cacheBucket.authorization lengthHash (fun _ => lengthHash) (objectRead "a".toList) =
      cacheBucket.authorization lengthHash (fun _ => lengthHash) (objectRead "b".toList) := by
    decide
  refine ⟨hsame, ?_⟩
  rcases authorization_binds cacheBucket (objectRead "a".toList) (objectRead "b".toList) hsame with
    heq | hcollide | hcollide
  · exact absurd heq (by decide)
  · exact hcollide
  · exact absurd hcollide.1 (by decide)

end Binding

end TurboCi
