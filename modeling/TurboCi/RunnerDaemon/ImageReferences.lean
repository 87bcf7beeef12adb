import Mathlib.Data.List.TakeWhile
import TurboCi.Lib.Utf8
import TurboCi.RunnerDaemon.Image
import TurboCi.RunnerDaemon.Slots

set_option autoImplicit false

/-! # Image references and registry logins

How an image reference is taken apart, and which login is used for its registry
(`runner_daemon/image.rs`). A reference of Docker's grammar, `[domain/]path[:tag][@digest]`, is a
`Reference`; `repository`, `registry` and `with_default_tag` read its parts
(`reference_and_logins`), so a login goes to the registry that its URL names and to no other.

Parsing JSON and decoding base64 are parameters.
-/

namespace TurboCi

/-! ## Sources -/

/-- Docker's rule for the first component of a name to be a host (`splitDockerDomain`). -/
def isRegistryHost (first : Chars) : Bool :=
  first.contains '.' || first.contains ':' || first = "localhost".toList || first.any Char.isUpper

/-- Registry host of an image; Docker Hub images have none in their name. -/
def registry (image : Chars) : Chars :=
  match splitOnce '/' (repository image) with
  | some (first, _) => if isRegistryHost first then first else "docker.io".toList
  | none => "docker.io".toList

/-- `str::split_once` with a text. -/
def splitOnceAt (sep : Chars) : Chars → Option (Chars × Chars)
  | [] => none
  | c :: cs =>
      match stripPrefix sep (c :: cs) with
      | some rest => some ([], rest)
      | none => (splitOnceAt sep cs).map fun (front, rest) => (c :: front, rest)

def hostOf (url : Chars) : Chars :=
  let withoutScheme := ((splitOnceAt "://".toList url).map (·.2)).getD url
  withoutScheme.takeWhile (· ≠ '/')

def isDockerHub (host : Chars) : Bool :=
  host = "docker.io".toList || host = "index.docker.io".toList ||
    host = "registry-1.docker.io".toList

structure Credential where
  credType : Chars
  url : Chars
  username : Chars
  password : Chars
  deriving DecidableEq

/-- A login whose URL names the host is for the registry. -/
def isLoginFor (registry host : Chars) : Bool :=
  host = registry || (isDockerHub host && isDockerHub registry)

/-- The registry credentials GitLab sent for the registry that the image is pulled from. -/
def credentialsFor (image : Chars) (credentials : List Credential) : Option Credential :=
  credentials.find? fun c =>
    c.credType.map Char.toLower = "registry".toList && isLoginFor (registry image) (hostOf c.url)

/-- A JSON value, as far as a Docker config is read; an object has its members in the order in
which they are gone through. -/
inductive Json where
  | string (text : Chars)
  | object (members : List (Chars × Json))
  | other

namespace Json

def asStr : Json → Option Chars
  | string text => some text
  | _ => none

def asObject : Json → Option (List (Chars × Json))
  | object members => some members
  | _ => none

/-- `Value::get` with a key. -/
def get (key : String) (value : Json) : Option Json :=
  (value.asObject.bind (·.find? fun member => member.1 = key.toList)).map (·.2)

end Json

/-- `String::from_utf8`. -/
def stringFromUtf8 (bytes : List UInt8) : Option Chars :=
  (String.fromUTF8? ⟨bytes.toArray⟩).map String.toList

theorem stringFromUtf8_iff {bytes : List UInt8} {cs : Chars} :
    stringFromUtf8 bytes = some cs ↔ bytes = Utf8.encode cs := by
  have hdata (l : List UInt8) : (⟨l.toArray⟩ : ByteArray) = l.toByteArray := by
    rw [ByteArray.ext_iff, List.data_toByteArray]
  have hencode : bytes = Utf8.encode cs ↔ (⟨bytes.toArray⟩ : ByteArray) = cs.utf8Encode := by
    rw [hdata, List.utf8Encode, ByteArray.ext_iff, List.data_toByteArray, List.data_toByteArray,
      ← Array.toList_inj]
    rfl
  unfold stringFromUtf8
  rw [String.fromUTF8?, hencode]
  split
  · next hvalid =>
      rw [Option.map_some, Option.some_inj]
      constructor
      · rintro rfl
        rw [String.utf8Encode_toList]
        rfl
      · intro h
        have hstring : String.fromUTF8 ⟨bytes.toArray⟩ hvalid = String.ofList cs := by
          rw [← String.toByteArray_inj, String.toByteArray_ofList, ← h]
          rfl
        rw [hstring, String.toList_ofList]
  · next hvalid =>
      constructor
      · intro h
        cases h
      · intro h
        exact absurd ⟨cs, h⟩ hvalid

/-- The login that an entry of a Docker config holds. -/
def entryLogin (decodeBase64 : Chars → Option (List UInt8)) (entry : Json) :
    Option (Chars × Chars) :=
  match (entry.get "username").bind Json.asStr, (entry.get "password").bind Json.asStr with
  | some user, some password => some (user, password)
  | _, _ => do
      let auth ← (← entry.get "auth").asStr
      splitOnce ':' (← stringFromUtf8 (← decodeBase64 (trim auth)))

/-- Username and password for the registry of an image from a Docker client config. -/
def dockerConfigAuth (fromStr : Chars → Option Json) (decodeBase64 : Chars → Option (List UInt8))
    (config image : Chars) : Option (Chars × Chars) := do
  let auths ← (← (← fromStr config).get "auths").asObject
  let (_, entry) ← auths.find? fun (key, _) => isLoginFor (registry image) (hostOf key)
  entryLogin decodeBase64 entry

/-! ## Docker's references -/

def isDomainChar (c : Char) : Bool :=
  c.isAlphanum || c = '-' || c = '.' || c = ':' || c = '[' || c = ']'

def isPathChar (c : Char) : Bool :=
  c.isLower || c.isDigit || c = '_' || c = '.' || c = '-'

def isTagChar (c : Char) : Bool :=
  c.isAlphanum || c = '_' || c = '.' || c = '-'

/-- A reference `[domain/]path[:tag][@digest]`. Of the grammar, the fields keep which characters
a part is made of, and what makes a first component a domain; where in a part its separators
may stand, and how long a tag or digest may be, is left open. -/
structure Reference where
  domain : Option Chars := none
  first : Chars
  /-- the other components of the path -/
  more : List Chars := []
  tag : Option Chars := none
  /-- the algorithm, `:` and the hexadecimal digits -/
  digest : Option Chars := none
  domain_valid : ∀ d ∈ domain, d.all isDomainChar ∧ isRegistryHost d
  path_valid : ∀ component ∈ first :: more, component.all isPathChar
  /-- without a domain, the first of several components is none -/
  no_domain : domain = none → more ≠ [] → isRegistryHost first = false
  tag_valid : ∀ t ∈ tag, t.all isTagChar

namespace Reference

variable (r : Reference)

def path : Chars := r.first ++ r.more.flatMap ('/' :: ·)

/-- `[domain/]path` -/
def name : Chars :=
  match r.domain with
  | some d => d ++ '/' :: r.path
  | none => r.path

/-- `[:tag]` -/
def tagText : Chars := r.tag.elim [] (':' :: ·)

/-- `[@digest]` -/
def digestText : Chars := r.digest.elim [] ('@' :: ·)

def text : Chars := r.name ++ (r.tagText ++ r.digestText)

/-- The host that the image is pulled from. -/
def host : Chars := r.domain.getD "docker.io".toList

end Reference

/-! ## Hosts of URLs -/

/-- The host of `[scheme://]host[/path]`; what stands before the first `://` is the scheme. -/
def IsHostOf (url host : Chars) : Prop :=
  '/' ∉ host ∧ ∃ start path, url = start ++ (host ++ path) ∧ (path = [] ∨ path.head? = some '/') ∧
    (start = [] ∧ ¬ "://".toList <:+: url ∨
      ∃ scheme, start = scheme ++ "://".toList ∧ ¬ "://".toList <:+: scheme ++ ":/".toList)

/-! ## Splitting -/

theorem not_mem_of_all {p : Char → Bool} {c : Char} {cs : Chars} (h : cs.all p = true)
    (hc : p c = false) : c ∉ cs := by
  intro hmem
  have htrue := List.all_eq_true.mp h c hmem
  rw [hc] at htrue
  cases htrue

theorem takeWhile_ne_append {c : Char} {front : Chars} (h : c ∉ front) (back : Chars) :
    (front ++ c :: back).takeWhile (· ≠ c) = front := by
  have hne : ∀ x ∈ front, decide (x ≠ c) = true := by
    intro x hx
    exact decide_eq_true fun heq => h (heq ▸ hx)
  rw [List.takeWhile_append_of_pos hne, List.takeWhile_cons_of_neg (by simp), List.append_nil]

theorem takeWhile_ne_self {c : Char} {cs : Chars} (h : c ∉ cs) :
    cs.takeWhile (· ≠ c) = cs := by
  apply List.takeWhile_eq_self_iff.mpr
  intro x hx
  exact decide_eq_true fun heq => h (heq ▸ hx)

theorem splitOnce_append {sep : Char} {front : Chars} (h : sep ∉ front) (back : Chars) :
    splitOnce sep (front ++ sep :: back) = some (front, back) := by
  have hne : ∀ x ∈ front, decide (x ≠ sep) = true := by
    intro x hx
    exact decide_eq_true fun heq => h (heq ▸ hx)
  rw [splitOnce, List.dropWhile_append_of_pos hne, List.dropWhile_cons_of_neg (by simp)]
  show some (_, back) = _
  rw [takeWhile_ne_append h]

theorem splitOnce_none {sep : Char} {cs : Chars} (h : sep ∉ cs) : splitOnce sep cs = none := by
  have hall : cs.dropWhile (· ≠ sep) = [] := by
    apply List.dropWhile_eq_nil_iff.mpr
    intro x hx
    exact decide_eq_true fun heq => h (heq ▸ hx)
  rw [splitOnce, hall]

/-- What follows the last `:`. -/
def afterColon (cs : Chars) : Chars := (cs.reverse.takeWhile (· ≠ ':')).reverse

theorem afterColon_append (front : Chars) {back : Chars} (h : ':' ∉ back) :
    afterColon (front ++ back) = afterColon front ++ back := by
  have hne : ∀ x ∈ back.reverse, decide (x ≠ ':') = true := by
    intro x hx
    exact decide_eq_true fun heq => h (heq ▸ List.mem_reverse.mp hx)
  rw [afterColon, List.reverse_append, List.takeWhile_append_of_pos hne, List.reverse_append,
    List.reverse_reverse, afterColon]

theorem afterColon_colon (front : Chars) {back : Chars} (h : ':' ∉ back) :
    afterColon (front ++ ':' :: back) = back := by
  have hsplit : front ++ ':' :: back = (front ++ [':']) ++ back := by simp
  rw [hsplit, afterColon_append _ h, afterColon, List.reverse_append]
  simp

theorem repository_eq {cs : Chars} (hat : '@' ∉ cs) (digest : Chars)
    (hdigest : digest = [] ∨ digest.head? = some '@') : repository (cs ++ digest) =
      if ':' ∈ cs ∧ '/' ∉ afterColon cs then cs.take (cs.length - (afterColon cs).length - 1)
      else cs := by
  have hcut : (cs ++ digest).takeWhile (· ≠ '@') = cs := by
    rcases hdigest with rfl | hhead
    · rw [List.append_nil, takeWhile_ne_self hat]
    · obtain ⟨rest, rfl⟩ := List.head?_eq_some_iff.mp hhead
      exact takeWhile_ne_append hat rest
  rw [repository, hcut]
  rfl

/-- A `:` after the last `/` starts a tag. -/
theorem repository_tag {name tag digest : Chars} (hname : '@' ∉ name) (hat : '@' ∉ tag)
    (hcolon : ':' ∉ tag) (hslash : '/' ∉ tag)
    (hdigest : digest = [] ∨ digest.head? = some '@') :
    repository (name ++ (':' :: tag ++ digest)) = name := by
  have hboth : '@' ∉ name ++ ':' :: tag := by
    simp [hname, hat]
  rw [← List.append_assoc, repository_eq hboth digest hdigest, afterColon_colon name hcolon,
    if_pos ⟨by simp, hslash⟩]
  have hlength : (name ++ ':' :: tag).length - tag.length - 1 = name.length := by
    rw [List.length_append, List.length_cons]
    omega
  rw [hlength, List.take_left]

/-- A `:` before a `/` is a port. -/
theorem repository_name (front : Chars) {path digest : Chars} (hat : '@' ∉ front ++ path)
    (hcolon : ':' ∉ path) (hport : ':' ∈ front → '/' ∈ path)
    (hdigest : digest = [] ∨ digest.head? = some '@') :
    repository (front ++ path ++ digest) = front ++ path := by
  rw [repository_eq hat digest hdigest]
  apply if_neg
  rintro ⟨hmem, hslash⟩
  have hfront : ':' ∈ front := (List.mem_append.mp hmem).resolve_right hcolon
  rw [afterColon_append front hcolon] at hslash
  exact hslash (List.mem_append_right _ (hport hfront))

namespace Reference

variable {r : Reference}

/-! ## The parts of a reference -/

theorem not_mem_path {c : Char} (hc : isPathChar c = false) (hslash : c ≠ '/') : c ∉ r.path := by
  have hcomponent : ∀ component ∈ r.first :: r.more, c ∉ component :=
    fun component hmem => not_mem_of_all (r.path_valid component hmem) hc
  intro hmem
  rcases List.mem_append.mp hmem with hmem | hmem
  · exact hcomponent _ List.mem_cons_self hmem
  · obtain ⟨component, hmore, hmem⟩ := List.mem_flatMap.mp hmem
    rcases List.mem_cons.mp hmem with hmem | hmem
    · exact hslash hmem
    · exact hcomponent _ (List.mem_cons_of_mem _ hmore) hmem

theorem at_not_mem_name : '@' ∉ r.name := by
  have hpath : '@' ∉ r.path := not_mem_path (by decide) (by decide)
  rw [name]
  cases hdomain : r.domain with
  | none => exact hpath
  | some d =>
      have hd : '@' ∉ d := not_mem_of_all (r.domain_valid d hdomain).1 (by decide)
      simp [hd, hpath]

theorem digestText_cases : r.digestText = [] ∨ r.digestText.head? = some '@' := by
  cases hdigest : r.digest with
  | none => exact .inl (by rw [digestText, hdigest]; rfl)
  | some d => exact .inr (by rw [digestText, hdigest]; rfl)

/-- **`repository` returns `[domain/]path`.** -/
theorem repository_text : repository r.text = r.name := by
  have hat : '@' ∉ r.name := at_not_mem_name
  have hcolon : ':' ∉ r.path := not_mem_path (by decide) (by decide)
  rw [text, tagText]
  cases htag : r.tag with
  | some t =>
      have hvalid := r.tag_valid t htag
      exact repository_tag hat (not_mem_of_all hvalid (by decide))
        (not_mem_of_all hvalid (by decide)) (not_mem_of_all hvalid (by decide)) digestText_cases
  | none =>
      -- the last `:` is that of a port, and the path with a `/` follows it
      show repository (r.name ++ r.digestText) = r.name
      rw [name] at hat ⊢
      cases hdomain : r.domain with
      | none =>
          rw [hdomain] at hat
          exact repository_name [] hat hcolon nofun digestText_cases
      | some d =>
          rw [hdomain] at hat
          refine repository_name d hat ?_ (fun _ => List.mem_cons_self) digestText_cases
          simp [hcolon]

theorem slash_not_mem_first : '/' ∉ r.first :=
  not_mem_of_all (r.path_valid r.first List.mem_cons_self) (by decide)

/-- **`registry` returns the domain, or Docker Hub.** -/
theorem registry_text : registry r.text = r.host := by
  rw [registry, repository_text, name, host]
  cases hdomain : r.domain with
  | some d =>
      obtain ⟨hchars, hhost⟩ := r.domain_valid d hdomain
      have hslash : '/' ∉ d := not_mem_of_all hchars (by decide)
      simp only [splitOnce_append hslash, hhost, if_true, Option.getD_some]
  | none =>
      cases hmore : r.more with
      | nil =>
          have hsingle : r.path = r.first := by rw [path, hmore]; simp
          simp only [hsingle, splitOnce_none slash_not_mem_first, Option.getD_none]
      | cons component rest =>
          have hplain : isRegistryHost r.first = false :=
            r.no_domain hdomain (by rw [hmore]; exact List.cons_ne_nil _ _)
          have hpath : r.path = r.first ++ '/' :: (component ++ rest.flatMap ('/' :: ·)) := by
            rw [path, hmore]
            simp
          simp only [hpath, splitOnce_append slash_not_mem_first, hplain, Option.getD_none,
            Bool.false_eq_true, if_false]

/-- The reference with the tag that is pulled. -/
def tagged (r : Reference) : Reference :=
  if r.tag = none ∧ r.digest = none then
    { r with tag := some "latest".toList, tag_valid := by simp; decide }
  else r

theorem text_eq_name_iff : ('@' ∉ r.text ∧ r.name = r.text) ↔ r.tag = none ∧ r.digest = none := by
  constructor
  · rintro ⟨hat, hname⟩
    have hlength := congrArg List.length hname
    rw [text, List.length_append, List.length_append] at hlength
    constructor
    · cases htag : r.tag with
      | none => rfl
      | some t =>
          -- the text of a tag is longer than nothing
          simp [tagText, htag] at hlength
    · cases hdigest : r.digest with
      | none => rfl
      | some d => simp [digestText, hdigest] at hlength
  · rintro ⟨htag, hdigest⟩
    have hname : r.text = r.name := by
      rw [text, tagText, digestText, htag, hdigest]
      simp
    rw [hname]
    exact ⟨at_not_mem_name, rfl⟩

/-- **`with_default_tag` appends `:latest` when there is neither tag nor digest.** -/
theorem withDefaultTag_text : withDefaultTag r.text = r.tagged.text := by
  rw [withDefaultTag, repository_text, tagged]
  by_cases hplain : r.tag = none ∧ r.digest = none
  · rw [if_pos (text_eq_name_iff.mpr hplain), if_pos hplain]
    obtain ⟨htag, hdigest⟩ := hplain
    show r.text ++ _ = r.name ++ (':' :: "latest".toList ++ r.digestText)
    rw [text, tagText, digestText, htag, hdigest]
    simp
  · rw [if_neg fun h => hplain (text_eq_name_iff.mp h), if_neg hplain]

theorem tagged_tagged : r.tagged.tagged = r.tagged := by
  by_cases hplain : r.tag = none ∧ r.digest = none
  · have htag : r.tagged.tag ≠ none := by
      rw [tagged, if_pos hplain]
      exact nofun
    rw [tagged]
    exact if_neg fun h => htag h.1
  · have hsame : r.tagged = r := if_neg hplain
    rw [hsame, hsame]

theorem name_tagged : r.tagged.name = r.name := by
  rw [tagged]
  split
  · rfl
  · rfl

theorem host_tagged : r.tagged.host = r.host := by
  rw [tagged]
  split
  · rfl
  · rfl

end Reference

/-! ## Logins -/

theorem stripPrefix_append (pre rest : Chars) : stripPrefix pre (pre ++ rest) = some rest := by
  rw [stripPrefix, if_pos (List.isPrefixOf_iff_prefix.mpr (List.prefix_append _ _)),
    List.drop_left]

theorem stripPrefix_none {pre cs : Chars} (h : ¬ pre <+: cs) : stripPrefix pre cs = none :=
  if_neg fun hpre => h (List.isPrefixOf_iff_prefix.mp hpre)

/-- What stands before and after the first `sep`. -/
theorem splitOnceAt_cases {sep : Chars} (hsep : sep ≠ []) : ∀ cs : Chars,
    (splitOnceAt sep cs = none ∧ ¬ sep <:+: cs) ∨
      ∃ front back, splitOnceAt sep cs = some (front, back) ∧ cs = front ++ (sep ++ back) ∧
        ¬ sep <:+: front ++ sep.dropLast := by
  intro cs
  induction cs with
  | nil => exact .inl ⟨rfl, fun h => hsep (List.eq_nil_of_infix_nil h)⟩
  | cons c cs ih =>
      by_cases hpre : sep <+: c :: cs
      · -- it stands at the front
        obtain ⟨back, hback⟩ := hpre
        refine .inr ⟨[], back, ?_, hback.symm, ?_⟩
        · rw [splitOnceAt, ← hback, stripPrefix_append]
        · intro hshort
          have hlength := hshort.length_le
          have hpos : 0 < sep.length := List.length_pos_iff.mpr hsep
          rw [List.nil_append, List.length_dropLast] at hlength
          omega
      · rw [splitOnceAt, stripPrefix_none hpre]
        rcases ih with ⟨hnone, hnot⟩ | ⟨front, back, hsome, hsplit, hnot⟩
        · refine .inl ⟨by rw [hnone]; rfl, fun h => ?_⟩
          exact (List.infix_cons_iff.mp h).elim hpre hnot
        · refine .inr ⟨c :: front, back, by rw [hsome]; rfl, by rw [hsplit]; rfl, fun h => ?_⟩
          rcases List.infix_cons_iff.mp h with hfirst | hlater
          · have hlonger : c :: (front ++ sep.dropLast) <+: c :: cs := by
              obtain ⟨last, hlast⟩ := sep.dropLast_prefix
              rw [hsplit]
              refine ⟨last ++ back, ?_⟩
              calc c :: (front ++ sep.dropLast) ++ (last ++ back)
                  = c :: (front ++ (sep.dropLast ++ last ++ back)) := by simp
                _ = c :: (front ++ (sep ++ back)) := by rw [hlast]
            exact hpre (hfirst.trans hlonger)
          · exact hnot hlater

theorem takeWhile_ne_cases (c : Char) (cs : Chars) : c ∉ cs.takeWhile (· ≠ c) ∧
    ∃ rest, cs = cs.takeWhile (· ≠ c) ++ rest ∧ (rest = [] ∨ rest.head? = some c) := by
  constructor
  · intro hmem
    have hne := List.mem_takeWhile_imp hmem
    simp at hne
  · refine ⟨cs.dropWhile (· ≠ c), List.takeWhile_append_dropWhile.symm, ?_⟩
    cases hrest : cs.dropWhile (· ≠ c) with
    | nil => exact .inl rfl
    | cons x rest =>
        have hstop := List.head?_dropWhile_not (fun x => decide (x ≠ c)) cs
        rw [hrest] at hstop
        simp at hstop
        exact .inr (by simp [hstop])

/-- **`host_of` returns the host of the URL.** -/
theorem isHostOf_hostOf (url : Chars) : IsHostOf url (hostOf url) := by
  have hsep : "://".toList ≠ [] := by decide
  rw [hostOf]
  rcases splitOnceAt_cases hsep url with ⟨hnone, hnot⟩ | ⟨scheme, back, hsome, hurl, hfirst⟩
  · rw [hnone]
    obtain ⟨hslash, path, hsplit, hpath⟩ := takeWhile_ne_cases '/' url
    exact ⟨hslash, [], path, hsplit, hpath, .inl ⟨rfl, hnot⟩⟩
  · rw [hsome]
    obtain ⟨hslash, path, hsplit, hpath⟩ := takeWhile_ne_cases '/' back
    refine ⟨hslash, scheme ++ "://".toList, path, ?_, hpath, .inr ⟨scheme, rfl, hfirst⟩⟩
    show url = scheme ++ "://".toList ++ (back.takeWhile (· ≠ '/') ++ path)
    rw [← hsplit, List.append_assoc]
    exact hurl

/-- Nothing before the first `sep` is another one. -/
theorem length_le_of_first {sep front back front' back' : Chars}
    (heq : front ++ (sep ++ back) = front' ++ (sep ++ back'))
    (hfirst : ¬ sep <:+: front' ++ sep.dropLast) : front'.length ≤ front.length := by
  by_contra hlt
  have hsep : 0 < sep.length := by
    cases sep with
    | nil => exact absurd (List.nil_infix) hfirst
    | cons c cs => exact Nat.succ_pos _
  have hlength : (front ++ sep).length ≤ (front' ++ sep.dropLast).length := by
    rw [List.length_append, List.length_append, List.length_dropLast]
    omega
  have hfront : front ++ sep <+: front' ++ (sep ++ back') :=
    ⟨back, by rw [List.append_assoc]; exact heq⟩
  have hfront' : front' ++ sep.dropLast <+: front' ++ (sep ++ back') := by
    obtain ⟨last, hlast⟩ := sep.dropLast_prefix
    refine ⟨last ++ back', ?_⟩
    calc front' ++ sep.dropLast ++ (last ++ back')
        = front' ++ (sep.dropLast ++ last ++ back') := by simp
      _ = front' ++ (sep ++ back') := by rw [hlast]
  have hinside := List.prefix_of_prefix_length_le hfront hfront' hlength
  exact hfirst ((List.suffix_append front sep).isInfix.trans hinside.isInfix)

theorem takeWhile_ne_path {c : Char} {front path : Chars} (h : c ∉ front)
    (hpath : path = [] ∨ path.head? = some c) : (front ++ path).takeWhile (· ≠ c) = front := by
  rcases hpath with rfl | hhead
  · rw [List.append_nil]
    exact takeWhile_ne_self h
  · obtain ⟨rest, rfl⟩ := List.head?_eq_some_iff.mp hhead
    exact takeWhile_ne_append h rest

/-- A URL has one host. -/
theorem isHostOf_iff {url host : Chars} : IsHostOf url host ↔ hostOf url = host := by
  have hsep : "://".toList ≠ [] := by decide
  constructor
  · rintro ⟨hslash, start, path, hurl, hpath, ⟨rfl, hnot⟩ | ⟨scheme, rfl, hfirst⟩⟩
    · rcases splitOnceAt_cases hsep url with ⟨hnone, -⟩ | ⟨front, back, -, hsplit, -⟩
      · rw [hostOf, hnone]
        show url.takeWhile (· ≠ '/') = host
        rw [hurl]
        exact takeWhile_ne_path hslash hpath
      · exact absurd ⟨front, back, by rw [hsplit, List.append_assoc]⟩ hnot
    · have hwhole : url = scheme ++ ("://".toList ++ (host ++ path)) := by
        rw [hurl, List.append_assoc]
      rcases splitOnceAt_cases hsep url with ⟨-, hnone⟩ | ⟨front, back, hsome, hsplit, hleast⟩
      · exact absurd ⟨scheme, host ++ path, by rw [hwhole, List.append_assoc]⟩ hnone
      · have heq : front ++ ("://".toList ++ back) =
            scheme ++ ("://".toList ++ (host ++ path)) := hsplit.symm.trans hwhole
        have hlength : front.length = scheme.length :=
          Nat.le_antisymm (length_le_of_first heq.symm hleast) (length_le_of_first heq hfirst)
        have hback : back = host ++ path :=
          List.append_cancel_left (List.append_inj heq hlength).2
        rw [hostOf, hsome]
        show back.takeWhile (· ≠ '/') = host
        rw [hback]
        exact takeWhile_ne_path hslash hpath
  · rintro rfl
    exact isHostOf_hostOf url

/-- A login with the URL is for the registry: it names that host, or both are Docker Hub. -/
def IsFor (registry url : Chars) : Prop :=
  ∃ host, IsHostOf url host ∧ (host = registry ∨ isDockerHub host ∧ isDockerHub registry)

theorem isFor_of_isLoginFor {registry url : Chars} (h : isLoginFor registry (hostOf url) = true) :
    IsFor registry url := by
  refine ⟨hostOf url, isHostOf_hostOf url, ?_⟩
  rw [isLoginFor, Bool.or_eq_true, Bool.and_eq_true] at h
  exact h.imp_left of_decide_eq_true

theorem isFor_of_credentialsFor {image : Chars} {credentials : List Credential} {c : Credential}
    (h : credentialsFor image credentials = some c) :
    c ∈ credentials ∧ IsFor (registry image) c.url := by
  have hfound := List.find?_some h
  rw [Bool.and_eq_true] at hfound
  exact ⟨List.mem_of_find?_eq_some h, isFor_of_isLoginFor hfound.2⟩

theorem isFor_of_dockerConfigAuth {fromStr : Chars → Option Json}
    {decodeBase64 : Chars → Option (List UInt8)} {config image : Chars} {login : Chars × Chars}
    (h : dockerConfigAuth fromStr decodeBase64 config image = some login) :
    ∃ value auths key entry, fromStr config = some value ∧
      (value.get "auths").bind Json.asObject = some auths ∧ (key, entry) ∈ auths ∧
      entryLogin decodeBase64 entry = some login ∧ IsFor (registry image) key := by
  obtain ⟨value, hvalue, h⟩ := Option.bind_eq_some_iff.mp h
  obtain ⟨member, hmember, h⟩ := Option.bind_eq_some_iff.mp h
  obtain ⟨auths, hauths, h⟩ := Option.bind_eq_some_iff.mp h
  obtain ⟨⟨key, entry⟩, hentry, hlogin⟩ := Option.bind_eq_some_iff.mp h
  have hfor := List.find?_some hentry
  refine ⟨value, auths, key, entry, hvalue, ?_, List.mem_of_find?_eq_some hentry, hlogin,
    isFor_of_isLoginFor hfor⟩
  rw [hmember]
  exact hauths

/-- **References are split as Docker splits them, and logins stay with their registry.** -/
theorem reference_and_logins (r : Reference) :
    repository r.text = r.name ∧ registry r.text = r.host ∧
    withDefaultTag r.text =
      (if r.tag = none ∧ r.digest = none then r.text ++ ":latest".toList else r.text) ∧
    withDefaultTag (withDefaultTag r.text) = withDefaultTag r.text ∧
    repository (withDefaultTag r.text) = r.name ∧ registry (withDefaultTag r.text) = r.host ∧
    (∀ credentials c, credentialsFor r.text credentials = some c →
      c ∈ credentials ∧ IsFor r.host c.url) ∧
    ∀ fromStr decodeBase64 config login,
      dockerConfigAuth fromStr decodeBase64 config r.text = some login →
        ∃ value auths key entry, fromStr config = some value ∧
          (value.get "auths").bind Json.asObject = some auths ∧ (key, entry) ∈ auths ∧
          entryLogin decodeBase64 entry = some login ∧ IsFor r.host key := by
  have htagged : withDefaultTag r.text = r.tagged.text := Reference.withDefaultTag_text
  have hregistry : registry r.text = r.host := Reference.registry_text
  refine ⟨Reference.repository_text, hregistry, ?_, ?_, ?_, ?_, ?_, ?_⟩
  · rw [withDefaultTag, Reference.repository_text]
    by_cases hplain : r.tag = none ∧ r.digest = none
    · rw [if_pos (Reference.text_eq_name_iff.mpr hplain), if_pos hplain]
    · rw [if_neg fun h => hplain (Reference.text_eq_name_iff.mp h), if_neg hplain]
  · rw [htagged, Reference.withDefaultTag_text, Reference.tagged_tagged]
  · rw [htagged, Reference.repository_text, Reference.name_tagged]
  · rw [htagged, Reference.registry_text, Reference.host_tagged]
  · intro credentials c h
    rw [← hregistry]
    exact isFor_of_credentialsFor h
  · intro fromStr decodeBase64 config login h
    rw [← hregistry]
    exact isFor_of_dockerConfigAuth h

/-- An image of a registry on this host, with a tag and a digest. -/
def localImage : Reference where
  domain := some "localhost:5000".toList
  first := "group".toList
  more := ["app".toList]
  tag := some "1.0".toList
  digest := some "sha256:abc".toList
  domain_valid := by decide
  path_valid := by decide
  no_domain := by decide
  tag_valid := by decide

def hubLogin : Credential := ⟨"registry".toList, "https://index.docker.io/v1/".toList, [], []⟩

def localLogin : Credential := ⟨"registry".toList, "http://localhost:5000".toList, [], []⟩

theorem reference_and_logins_localImage :
    localImage.text = "localhost:5000/group/app:1.0@sha256:abc".toList ∧
    repository localImage.text = "localhost:5000/group/app".toList ∧
    registry localImage.text = "localhost:5000".toList ∧
    credentialsFor localImage.text [hubLogin, localLogin] = some localLogin ∧
    IsFor localImage.host localLogin.url := by
  have hlogin : credentialsFor localImage.text [hubLogin, localLogin] = some localLogin := by
    decide
  obtain ⟨hrepository, hregistry, -, -, -, -, hlogins, -⟩ := reference_and_logins localImage
  exact ⟨rfl, hrepository, hregistry, hlogin, (hlogins _ _ hlogin).2⟩

example : registry "Myhost/app".toList = "Myhost".toList := by decide

end TurboCi
