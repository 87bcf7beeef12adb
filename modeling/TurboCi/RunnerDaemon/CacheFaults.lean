import TurboCi.Lib.Runs

set_option autoImplicit false

/-! # Interrupted uploads and the cache

One key on one host with S3 (`LocalCache::save`, `restore`, `fetch` and `evict` in
`runner_daemon/job_cache.rs`): the host's operations do not overlap, but each may be cut off at
any point or fail at any call. What a cut leaves behind goes on by itself: a write or removal of
the sidecar that was handed to another thread may still happen, in two steps if it is a write,
and a request that was sent may still be applied by S3. Other hosts upload and evictions
remove the archive and then the sidecar, at any time.

The sidecar lags behind the archive. So whatever is cut, the archive is the content that S3
stored under the ETag of the sidecar, or was saved or downloaded after S3 had stored it
(`interrupted_uploads_never_stale`); and while S3's versions move forward, a restore that gets
304 extracts what S3 holds or what this host saved later.
-/

namespace TurboCi

open Runs

namespace CacheFaults

variable {α τ : Type}

inductive Origin where
  | saved
  | downloaded
  deriving DecidableEq

/-- The archive on the host, and how many contents S3 had stored when it was saved here, or
read by the download. -/
structure Archive (α : Type) where
  content : α
  origin : Origin
  time : Nat
  deriving DecidableEq

/-- A change of the sidecar by another thread. -/
inductive Job (τ : Type) where
  /-- `tokio::fs::write`, which truncates the file first -/
  | write (etag : τ) (truncated : Bool)
  | remove
  deriving DecidableEq

inductive Op (α τ : Type) where
  /-- a restore has begun -/
  | restoring
  /-- the archive exists -/
  | existing
  | requesting (etag : Option τ)
  /-- has the object in a temporary file -/
  | downloaded (content : α) (etag : Option τ) (time : Nat)
  /-- waits for the change of the sidecar -/
  | restoreSync
  /-- `fetch` is done; after a 304, what S3 held then -/
  | fetched (notModified : Option α)
  /-- a save archives the workspace -/
  | archiving
  /-- has renamed the archive into place -/
  | renamed
  /-- has sent the archive; whether S3 has stored it -/
  | sending (content : α) (applied : Bool)
  /-- waits for the change of the sidecar -/
  | saveSync
  deriving DecidableEq

/-- What a restore extracted. -/
structure Extraction (α : Type) where
  /-- after a 304, what S3 held then -/
  notModified : Option α
  /-- `none` when there was no archive -/
  archive : Option (Archive α)
  deriving DecidableEq

structure State (α τ : Type) where
  /-- the contents that S3 stored, in order; the last one is the object -/
  stored : List α
  archive : Option (Archive α) := none
  /-- `some none` is a file that holds no whole ETag -/
  sidecar : Option (Option τ) := none
  op : Option (Op α τ) := none
  /-- the change of the sidecar that the operation waits for -/
  own : Option (Job τ) := none
  /-- changes of the sidecar that no operation waits for any more -/
  detached : List (Job τ) := []
  /-- requests on the way to S3 that no operation waits for any more -/
  strays : List α := []
  /-- evictions that have not come to the sidecar -/
  evicting : Nat := 0
  extractions : List (Extraction α) := []
  deriving DecidableEq

inductive Label (α : Type) where
  | beginRestore
  | look
  | readSidecar
  /-- S3 answers the conditional GET, with an ETag header or without -/
  | get (tagged : Bool)
  | failFetch
  | persist
  /-- the operation's change of the sidecar goes on -/
  | perform
  | performFails
  | extract
  | beginSave
  | rename (content : α)
  /-- `put_file` opens the archive and sends it -/
  | send
  /-- S3 stores what the operation sent -/
  | apply
  /-- S3's answer arrives, with an ETag header or without -/
  | answer (tagged : Bool)
  /-- no answer arrives; the upload may be tried again -/
  | attemptFails
  | failUpload
  /-- the operation is cut off -/
  | cut
  | performDetached (k : Nat)
  | loseDetached (k : Nat)
  | applyStray (k : Nat)
  | loseStray (k : Nat)
  /-- another host's upload -/
  | foreign (content : α)
  | evictArchive (removed : Bool)
  | evictSidecar
  deriving DecidableEq

/-- The object in S3. -/
def State.object (s : State α τ) : Option α := s.stored.getLast?

/-- The change of the sidecar after a download or an upload. -/
def Job.of (etag : Option τ) : Job τ :=
  match etag with
  | some etag => .write etag false
  | none => .remove

/-- A step of a change: the sidecar, and what is left to do. -/
def Job.perform : Job τ → Option (Option τ) × Option (Job τ)
  | .write etag false => (some none, some (.write etag true))
  | .write etag true => (some (some etag), none)
  | .remove => (none, none)

/-- The operation after its change of the sidecar. -/
def synced : Option (Op α τ) → Option (Op α τ)
  | some .restoreSync => some (.fetched none)
  | _ => none

/-- The requests that a cut leaves on their way. -/
def straying : Option (Op α τ) → List α
  | some (.sending content false) => [content]
  | _ => []

def step [DecidableEq τ] (tag : α → τ) (s : State α τ) : Label α → Option (State α τ)
  | .beginRestore =>
      match s.op with
      | none => some { s with op := some .restoring }
      | _ => none
  | .look =>
      match s.op with
      | some .restoring =>
          some { s with
            op := some (if s.archive.isSome then .existing else .requesting none) }
      | _ => none
  | .readSidecar =>
      match s.op with
      | some .existing => some { s with op := some (.requesting s.sidecar.join) }
      | _ => none
  | .get tagged =>
      match s.op, s.object with
      | some (.requesting _), none => some { s with op := some (.fetched none) }
      | some (.requesting etag), some content =>
          if etag = some (tag content) then some { s with op := some (.fetched (some content)) }
          else
            some { s with
              op := some (.downloaded content (if tagged then some (tag content) else none)
                s.stored.length) }
      | _, _ => none
  | .failFetch =>
      match s.op with
      | some .restoring | some (.requesting _) | some (.downloaded _ _ _) =>
          some { s with op := some (.fetched none) }
      | _ => none
  | .persist =>
      match s.op with
      | some (.downloaded content etag time) =>
          some { s with
            archive := some ⟨content, .downloaded, time⟩
            own := some (Job.of etag)
            op := some .restoreSync }
      | _ => none
  | .perform =>
      match s.own with
      | some job =>
          some { s with
            sidecar := job.perform.1
            own := job.perform.2
            op := if job.perform.2.isNone then synced s.op else s.op }
      | none => none
  | .performFails =>
      match s.own with
      | some _ => some { s with own := none, op := synced s.op }
      | none => none
  | .extract =>
      match s.op with
      | some (.fetched notModified) =>
          some { s with
            extractions := s.extractions ++ [⟨notModified, s.archive⟩]
            op := none }
      | _ => none
  | .beginSave =>
      match s.op with
      | none => some { s with op := some .archiving }
      | _ => none
  | .rename content =>
      match s.op with
      | some .archiving =>
          some { s with
            archive := some ⟨content, .saved, s.stored.length⟩
            op := some .renamed }
      | _ => none
  | .send =>
      match s.op, s.archive with
      | some .renamed, some archive =>
          some { s with op := some (.sending archive.content false) }
      | _, _ => none
  | .apply =>
      match s.op with
      | some (.sending content false) =>
          some { s with stored := s.stored ++ [content], op := some (.sending content true) }
      | _ => none
  | .answer tagged =>
      match s.op with
      | some (.sending content true) =>
          some { s with
            own := some (Job.of (if tagged then some (tag content) else none))
            op := some .saveSync }
      | _ => none
  | .attemptFails =>
      match s.op with
      | some (.sending content applied) =>
          some { s with
            strays := s.strays ++ straying (some (Op.sending (τ := τ) content applied))
            op := some .renamed }
      | _ => none
  | .failUpload =>
      match s.op with
      | some .renamed => some { s with op := none }
      | _ => none
  | .cut =>
      some { s with
        detached := s.detached ++ s.own.toList
        own := none
        strays := s.strays ++ straying s.op
        op := none }
  | .performDetached k =>
      match s.detached[k]? with
      | some job =>
          some { s with
            sidecar := job.perform.1
            detached := s.detached.eraseIdx k ++ job.perform.2.toList }
      | none => none
  | .loseDetached k =>
      if k < s.detached.length then some { s with detached := s.detached.eraseIdx k } else none
  | .applyStray k =>
      match s.strays[k]? with
      | some content =>
          some { s with stored := s.stored ++ [content], strays := s.strays.eraseIdx k }
      | none => none
  | .loseStray k =>
      if k < s.strays.length then some { s with strays := s.strays.eraseIdx k } else none
  | .foreign content => some { s with stored := s.stored ++ [content] }
  | .evictArchive removed =>
      some { s with
        archive := if removed then none else s.archive
        evicting := s.evicting + 1 }
  | .evictSidecar =>
      if 0 < s.evicting then some { s with sidecar := none, evicting := s.evicting - 1 } else none

/-- A host without an archive, and what S3 holds. -/
def init (object : Option α) : State α τ := { stored := object.toList }

/-! ## The invariant -/

def Job.etag : Job τ → Option τ
  | .write etag _ => some etag
  | .remove => none

/-- The ETag is in the sidecar, or a change that may still happen writes it there. -/
def State.Mentions (s : State α τ) (e : τ) : Prop :=
  s.sidecar = some (some e) ∨ (∃ job ∈ s.own, job.etag = some e) ∨
    ∃ job ∈ s.detached, job.etag = some e

section Invariant

variable (tag : α → τ)

/-- The ETag is that of one of the first `n` contents that S3 stored. -/
def KnownBefore (stored : List α) (n : Nat) (e : τ) : Prop :=
  ∃ i c, i < n ∧ stored[i]? = some c ∧ tag c = e

/-- The archive is the content that S3 stored under the ETag, or was saved or downloaded after
S3 had stored it. -/
def NotOlder (stored : List α) (e : τ) (a : Archive α) : Prop :=
  ∃ i c, stored[i]? = some c ∧ tag c = e ∧ (a.content = c ∨ i < a.time)

/-- The archive was saved, or S3 held it when the download read it. -/
def Archive.Sound (stored : List α) (a : Archive α) : Prop :=
  a.time ≤ stored.length ∧
    (a.origin = .downloaded → ∃ n, a.time = n + 1 ∧ stored[n]? = some a.content)

/-- The archive is as S3's answer takes it to be. -/
def Confirmed (stored : List α) (o : α) (a : Archive α) : Prop :=
  NotOlder tag stored (tag o) a ∧ ∃ k, stored[k]? = some o ∧ a.time ≤ k + 1

def Op.Good (s : State α τ) : Op α τ → Prop
  | .requesting (some e) => ∀ a ∈ s.archive, NotOlder tag s.stored e a
  | .downloaded content etag time =>
      Archive.Sound s.stored ⟨content, .downloaded, time⟩ ∧ (∀ e ∈ etag, e = tag content) ∧
        ∀ e, s.Mentions e → KnownBefore tag s.stored time e
  | .fetched (some o) => ∀ a ∈ s.archive, Confirmed tag s.stored o a
  | .sending content applied =>
      (∀ a ∈ s.archive, a.content = content) ∧
        (applied = true → ∃ i : Nat, s.stored[i]? = some content)
  | _ => True

structure Inv (s : State α τ) : Prop where
  known : ∀ e, s.Mentions e → KnownBefore tag s.stored s.stored.length e
  notOlder : ∀ a ∈ s.archive, ∀ e, s.Mentions e → NotOlder tag s.stored e a
  archive : ∀ a ∈ s.archive, a.Sound s.stored
  op : ∀ op ∈ s.op, op.Good tag s
  extractions : ∀ x ∈ s.extractions, ∀ o ∈ x.notModified, ∀ a ∈ x.archive,
    Confirmed tag s.stored o a ∧ a.Sound s.stored

end Invariant

theorem inv_init (tag : α → τ) (object : Option α) : Inv tag (init object) := by
  constructor <;> simp [init, State.Mentions]

/-! ## Losing things -/

/-- S3 may have stored more, and the rest became less. -/
structure Less (s t : State α τ) : Prop where
  stored : s.stored <+: t.stored
  archive : ∀ a ∈ t.archive, a ∈ s.archive
  mentions : ∀ e, t.Mentions e → s.Mentions e

theorem getElem?_of_prefix {l l' : List α} (h : l <+: l') {i : Nat} {c : α}
    (hc : l[i]? = some c) : l'[i]? = some c := by
  obtain ⟨more, rfl⟩ := h
  obtain ⟨hlt, -⟩ := List.getElem?_eq_some_iff.mp hc
  rw [List.getElem?_append_left hlt]
  exact hc

variable {tag : α → τ}

theorem KnownBefore.mono {l l' : List α} {n n' : Nat} {e : τ} (h : KnownBefore tag l n e)
    (hl : l <+: l') (hn : n ≤ n') : KnownBefore tag l' n' e := by
  obtain ⟨i, c, hi, hc, htag⟩ := h
  exact ⟨i, c, by omega, getElem?_of_prefix hl hc, htag⟩

theorem NotOlder.mono {l l' : List α} {e : τ} {a : Archive α} (h : NotOlder tag l e a)
    (hl : l <+: l') : NotOlder tag l' e a := by
  obtain ⟨i, c, hc, htag, ha⟩ := h
  exact ⟨i, c, getElem?_of_prefix hl hc, htag, ha⟩

theorem Archive.Sound.mono {l l' : List α} {a : Archive α} (h : a.Sound l) (hl : l <+: l') :
    a.Sound l' := by
  refine ⟨h.1.trans hl.length_le, fun horigin => ?_⟩
  obtain ⟨n, htime, hn⟩ := h.2 horigin
  exact ⟨n, htime, getElem?_of_prefix hl hn⟩

theorem Confirmed.mono {l l' : List α} {o : α} {a : Archive α} (h : Confirmed tag l o a)
    (hl : l <+: l') : Confirmed tag l' o a := by
  obtain ⟨hnotOlder, k, hk, htime⟩ := h
  exact ⟨hnotOlder.mono hl, k, getElem?_of_prefix hl hk, htime⟩

theorem Op.Good.less {s t : State α τ} {op : Op α τ} (h : op.Good tag s) (hl : Less s t) :
    op.Good tag t := by
  cases op with
  | requesting etag =>
      cases etag with
      | none => trivial
      | some e => exact fun a ha => (h a (hl.archive a ha)).mono hl.stored
  | downloaded content etag time =>
      exact ⟨h.1.mono hl.stored, h.2.1,
        fun e he => (h.2.2 e (hl.mentions e he)).mono hl.stored le_rfl⟩
  | fetched notModified =>
      cases notModified with
      | none => trivial
      | some o => exact fun a ha => (h a (hl.archive a ha)).mono hl.stored
  | sending content applied =>
      refine ⟨fun a ha => h.1 a (hl.archive a ha), fun happlied => ?_⟩
      obtain ⟨i, hi⟩ := h.2 happlied
      exact ⟨i, getElem?_of_prefix hl.stored hi⟩
  | _ => trivial

/-- **A step that only loses things keeps the invariant**, if the operation and the extraction
it may add are good. -/
theorem Inv.less {s t : State α τ} (h : Inv tag s) (hl : Less s t)
    (hop : ∀ op ∈ t.op, op ∈ s.op ∨ op.Good tag t)
    (hextractions : ∀ x ∈ t.extractions, x ∈ s.extractions ∨
      ∀ o ∈ x.notModified, ∀ a ∈ x.archive, Confirmed tag t.stored o a ∧ a.Sound t.stored) :
    Inv tag t where
  known e he := (h.known e (hl.mentions e he)).mono hl.stored hl.stored.length_le
  notOlder a ha e he := (h.notOlder a (hl.archive a ha) e (hl.mentions e he)).mono hl.stored
  archive a ha := (h.archive a (hl.archive a ha)).mono hl.stored
  op op hmem := (hop op hmem).elim (fun hold => (h.op op hold).less hl) id
  extractions x hx := by
    rcases hextractions x hx with hold | hnew
    · intro o ho a ha
      obtain ⟨hconfirmed, hsound⟩ := h.extractions x hold o ho a ha
      exact ⟨hconfirmed.mono hl.stored, hsound.mono hl.stored⟩
    · exact hnew

/-- The operation moves on, to a good phase or to its end. -/
theorem Inv.enter {s : State α τ} (h : Inv tag s) {op : Option (Op α τ)}
    (hop : ∀ o ∈ op, o.Good tag s) : Inv tag { s with op := op } :=
  h.less ⟨List.prefix_rfl, fun _ ha => ha, fun _ he => he⟩
    (fun o ho => .inr ((hop o ho).less ⟨List.prefix_rfl, fun _ ha => ha, fun _ he => he⟩))
    (fun _ hx => .inl hx)

/-- The operation moves on to a good phase. -/
theorem Inv.enterPhase {s : State α τ} (h : Inv tag s) {op : Op α τ} (hop : op.Good tag s) :
    Inv tag { s with op := some op } := by
  refine h.enter fun o ho => ?_
  obtain rfl := Option.some.inj ho
  exact hop

/-- S3 stores a content. -/
theorem Inv.store {s : State α τ} (h : Inv tag s) (content : α) (strays : List α) :
    Inv tag { s with stored := s.stored ++ [content], strays := strays } :=
  h.less ⟨List.prefix_append _ _, fun _ ha => ha, fun _ he => he⟩ (fun _ ho => .inl ho)
    (fun _ hx => .inl hx)

theorem good_synced {s : State α τ} {op : Option (Op α τ)} : ∀ o ∈ synced op, o.Good tag s := by
  intro o ho
  unfold synced at ho
  split at ho
  · obtain rfl := Option.some.inj ho
    trivial
  · cases ho

/-! ## The changes of the sidecar -/

theorem etag_of_perform {job : Job τ} {e : τ} (h : job.perform.1 = some (some e)) :
    job.etag = some e := by
  cases job with
  | write etag truncated =>
      cases truncated with
      | false => simp [Job.perform] at h
      | true => simpa [Job.perform, Job.etag] using h
  | remove => simp [Job.perform] at h

theorem etag_of_left {job left : Job τ} (h : left ∈ job.perform.2) : left.etag = job.etag := by
  cases job with
  | write etag truncated =>
      cases truncated with
      | false =>
          obtain rfl := Option.some.inj h
          rfl
      | true => cases h
  | remove => cases h

theorem etag_of {etag : Option τ} {e : τ} (h : (Job.of etag).etag = some e) : etag = some e := by
  cases etag with
  | none => cases h
  | some etag => exact h

theorem inv_perform {s : State α τ} (h : Inv tag s) {job : Job τ} (hown : s.own = some job) :
    Inv tag { s with
      sidecar := job.perform.1
      own := job.perform.2
      op := if job.perform.2.isNone then synced s.op else s.op } := by
  have hjob : ∀ e, job.etag = some e → s.Mentions e := fun e he => .inr (.inl ⟨job, hown, he⟩)
  refine h.less ⟨List.prefix_rfl, fun _ ha => ha, ?_⟩ ?_ (fun _ hx => .inl hx)
  · rintro e (hsidecar | ⟨left, hleft, he⟩ | hdetached)
    · exact hjob e (etag_of_perform hsidecar)
    · exact hjob e (etag_of_left hleft ▸ he)
    · exact .inr (.inr hdetached)
  · intro op hop
    simp only at hop
    split at hop
    · exact .inr (good_synced op hop)
    · exact .inl hop

theorem inv_performDetached {s : State α τ} (h : Inv tag s) {k : Nat} {job : Job τ}
    (hjob : s.detached[k]? = some job) :
    Inv tag { s with
      sidecar := job.perform.1
      detached := s.detached.eraseIdx k ++ job.perform.2.toList } := by
  have hmentions : ∀ e, job.etag = some e → s.Mentions e :=
    fun e he => .inr (.inr ⟨job, List.mem_of_getElem? hjob, he⟩)
  refine h.less ⟨List.prefix_rfl, fun _ ha => ha, ?_⟩ (fun _ ho => .inl ho) (fun _ hx => .inl hx)
  rintro e (hsidecar | hown | ⟨left, hleft, he⟩)
  · exact hmentions e (etag_of_perform hsidecar)
  · exact .inr (.inl hown)
  · rcases List.mem_append.mp hleft with hleft | hleft
    · exact .inr (.inr ⟨left, List.mem_of_mem_eraseIdx hleft, he⟩)
    · exact hmentions e (etag_of_left (Option.mem_toList.mp hleft) ▸ he)

/-- What a cut leaves behind was on its way before. -/
theorem inv_cut {s : State α τ} (h : Inv tag s) (strays : List α) :
    Inv tag { s with
      detached := s.detached ++ s.own.toList, own := none, strays := strays, op := none } := by
  refine h.less ⟨List.prefix_rfl, fun _ ha => ha, ?_⟩ (fun _ ho => nomatch ho) (fun _ hx => .inl hx)
  rintro e (hsidecar | ⟨_, hnone, -⟩ | ⟨job, hjob, he⟩)
  · exact .inl hsidecar
  · cases hnone
  · rcases List.mem_append.mp hjob with hjob | hjob
    · exact .inr (.inr ⟨job, hjob, he⟩)
    · exact .inr (.inl ⟨job, Option.mem_toList.mp hjob, he⟩)

/-! ## Downloads and uploads -/

theorem getElem?_of_object {s : State α τ} {content : α} (h : s.object = some content) :
    ∃ k, s.stored.length = k + 1 ∧ s.stored[k]? = some content := by
  rw [State.object, List.getLast?_eq_getElem?] at h
  obtain ⟨hlt, -⟩ := List.getElem?_eq_some_iff.mp h
  exact ⟨s.stored.length - 1, by omega, h⟩

/-- S3 answers 304: the archive is no older than what S3 holds. -/
theorem inv_notModified {s : State α τ} (h : Inv tag s) {content : α}
    (hop : s.op = some (.requesting (some (tag content)))) (hobject : s.object = some content) :
    Inv tag { s with op := some (.fetched (some content)) } := by
  refine h.enterPhase ?_
  intro a ha
  obtain ⟨k, hlength, hk⟩ := getElem?_of_object hobject
  have htime : a.time ≤ s.stored.length := (h.archive a ha).1
  have hnotOlder : NotOlder tag s.stored (tag content) a := h.op _ hop a ha
  exact ⟨hnotOlder, k, hk, by omega⟩

/-- S3 answers with the object. -/
theorem inv_download {s : State α τ} (h : Inv tag s) {content : α} (tagged : Bool)
    (hobject : s.object = some content) :
    Inv tag { s with
      op := some (.downloaded content (if tagged then some (tag content) else none)
        s.stored.length) } := by
  refine h.enterPhase ?_
  obtain ⟨k, hlength, hk⟩ := getElem?_of_object hobject
  refine ⟨⟨le_rfl, fun _ => ⟨k, hlength, hk⟩⟩, fun e he => ?_, h.known⟩
  cases tagged with
  | true => exact (Option.some.inj he).symm
  | false => cases he

/-- The download is renamed into place: what the sidecar says was known when it was read. -/
theorem inv_persist {s : State α τ} (h : Inv tag s) {content : α} {etag : Option τ} {time : Nat}
    (hop : s.op = some (.downloaded content etag time)) :
    Inv tag { s with
      archive := some ⟨content, .downloaded, time⟩
      own := some (Job.of etag)
      op := some .restoreSync } := by
  obtain ⟨hsound, hetag, hbefore⟩ := h.op _ hop
  obtain ⟨n, htime, hn⟩ := hsound.2 rfl
  have hlt : n < s.stored.length := (List.getElem?_eq_some_iff.mp hn).1
  -- an ETag of this state is an old one, or that of the download
  have hcases : ∀ e, State.Mentions { s with
      archive := some ⟨content, .downloaded, time⟩
      own := some (Job.of etag)
      op := some .restoreSync } e → s.Mentions e ∨ tag content = e := by
    rintro e (hsidecar | ⟨job, hjob, he⟩ | hdetached)
    · exact .inl (.inl hsidecar)
    · obtain rfl := Option.some.inj hjob
      exact .inr (hetag e (etag_of he)).symm
    · exact .inl (.inr (.inr hdetached))
  constructor
  · intro e he
    rcases hcases e he with hold | hnew
    · exact h.known e hold
    · exact ⟨n, content, hlt, hn, hnew⟩
  · intro a ha e he
    obtain rfl := Option.some.inj ha
    rcases hcases e he with hold | hnew
    · obtain ⟨i, c, hi, hc, htag⟩ := hbefore e hold
      exact ⟨i, c, hc, htag, .inr hi⟩
    · exact ⟨n, content, hn, hnew, .inl rfl⟩
  · intro a ha
    obtain rfl := Option.some.inj ha
    exact hsound
  · intro op hmem
    obtain rfl := Option.some.inj hmem
    trivial
  · exact h.extractions

/-- A saved archive is younger than everything that S3 has stored. -/
theorem inv_rename {s : State α τ} (h : Inv tag s) (content : α) :
    Inv tag { s with
      archive := some ⟨content, .saved, s.stored.length⟩
      op := some .renamed } := by
  constructor
  · exact h.known
  · intro a ha e he
    obtain rfl := Option.some.inj ha
    obtain ⟨i, c, hi, hc, htag⟩ := h.known e he
    exact ⟨i, c, hc, htag, .inr hi⟩
  · intro a ha
    obtain rfl := Option.some.inj ha
    exact ⟨le_rfl, fun horigin => Origin.noConfusion horigin⟩
  · intro op hmem
    obtain rfl := Option.some.inj hmem
    trivial
  · exact h.extractions

/-- S3 stores what the operation sent. -/
theorem inv_apply {s : State α τ} (h : Inv tag s) {content : α} {applied : Bool}
    (hop : s.op = some (.sending content applied)) :
    Inv tag { s with stored := s.stored ++ [content], op := some (.sending content true) } := by
  have hstored := h.store content s.strays
  refine hstored.enterPhase ?_
  refine ⟨(h.op _ hop).1, fun _ => ⟨s.stored.length, ?_⟩⟩
  simp

/-- S3's answer arrives: the archive is what it stored. -/
theorem inv_answer {s : State α τ} (h : Inv tag s) {content : α} (tagged : Bool)
    (hop : s.op = some (.sending content true)) :
    Inv tag { s with
      own := some (Job.of (if tagged then some (tag content) else none))
      op := some .saveSync } := by
  obtain ⟨harchive, happlied⟩ := h.op _ hop
  obtain ⟨i, hi⟩ := happlied rfl
  have hlt : i < s.stored.length := (List.getElem?_eq_some_iff.mp hi).1
  have hcases : ∀ e, State.Mentions { s with
      own := some (Job.of (if tagged then some (tag content) else none))
      op := some .saveSync } e → s.Mentions e ∨ tag content = e := by
    rintro e (hsidecar | ⟨job, hjob, he⟩ | hdetached)
    · exact .inl (.inl hsidecar)
    · obtain rfl := Option.some.inj hjob
      have hetag := etag_of he
      cases tagged with
      | true => exact .inr (Option.some.inj hetag)
      | false => cases hetag
    · exact .inl (.inr (.inr hdetached))
  constructor
  · intro e he
    rcases hcases e he with hold | hnew
    · exact h.known e hold
    · exact ⟨i, content, hlt, hi, hnew⟩
  · intro a ha e he
    rcases hcases e he with hold | hnew
    · exact h.notOlder a ha e hold
    · exact ⟨i, content, hi, hnew, .inl (harchive a ha)⟩
  · exact h.archive
  · intro op hmem
    obtain rfl := Option.some.inj hmem
    trivial
  · exact h.extractions

/-- **Every step keeps the invariant.** -/
theorem inv_step [DecidableEq τ] {s : State α τ} {l : Label α} {t : State α τ} (h : Inv tag s)
    (hstep : step tag s l = some t) : Inv tag t := by
  cases l with
  | beginRestore | beginSave =>
      simp only [step] at hstep
      split at hstep
      case h_2 => cases hstep
      obtain rfl := Option.some.inj hstep
      exact h.enterPhase trivial
  | look =>
      simp only [step] at hstep
      split at hstep
      case h_2 => cases hstep
      obtain rfl := Option.some.inj hstep
      refine h.enterPhase ?_
      split
      · trivial
      · trivial
  | readSidecar =>
      simp only [step] at hstep
      split at hstep
      case h_2 => cases hstep
      obtain rfl := Option.some.inj hstep
      refine h.enterPhase ?_
      cases hjoin : s.sidecar.join with
      | none => trivial
      | some e => exact fun a ha => h.notOlder a ha e (.inl (Option.join_eq_some_iff.mp hjoin))
  | get tagged =>
      simp only [step] at hstep
      split at hstep
      case h_3 => cases hstep
      · obtain rfl := Option.some.inj hstep
        exact h.enterPhase trivial
      · next etag content hop hobject =>
          split at hstep
          · next hetag =>
              obtain rfl := Option.some.inj hstep
              exact inv_notModified h (hetag ▸ hop) hobject
          · obtain rfl := Option.some.inj hstep
            exact inv_download h tagged hobject
  | failFetch =>
      simp only [step] at hstep
      split at hstep
      case h_4 => cases hstep
      all_goals
        obtain rfl := Option.some.inj hstep
        exact h.enterPhase trivial
  | persist =>
      simp only [step] at hstep
      split at hstep
      case h_2 => cases hstep
      next hop =>
      obtain rfl := Option.some.inj hstep
      exact inv_persist h hop
  | perform =>
      simp only [step] at hstep
      split at hstep
      case h_2 => cases hstep
      next job hown =>
      obtain rfl := Option.some.inj hstep
      exact inv_perform h hown
  | performFails =>
      simp only [step] at hstep
      split at hstep
      case h_2 => cases hstep
      next job hown =>
      obtain rfl := Option.some.inj hstep
      refine h.less ⟨List.prefix_rfl, fun _ ha => ha, ?_⟩
        (fun op hop => .inr (good_synced op hop)) (fun _ hx => .inl hx)
      rintro e (hsidecar | ⟨_, hnone, -⟩ | hdetached)
      · exact .inl hsidecar
      · cases hnone
      · exact .inr (.inr hdetached)
  | extract =>
      simp only [step] at hstep
      split at hstep
      case h_2 => cases hstep
      next notModified hop =>
      obtain rfl := Option.some.inj hstep
      refine h.less ⟨List.prefix_rfl, fun _ ha => ha, fun _ he => he⟩ (fun _ ho => nomatch ho) ?_
      intro x hx
      rcases List.mem_append.mp hx with hold | hnew
      · exact .inl hold
      · obtain rfl := List.mem_singleton.mp hnew
        right
        intro o ho a ha
        obtain rfl : notModified = some o := ho
        exact ⟨h.op _ hop a ha, h.archive a ha⟩
  | rename content =>
      simp only [step] at hstep
      split at hstep
      case h_2 => cases hstep
      obtain rfl := Option.some.inj hstep
      exact inv_rename h content
  | send =>
      simp only [step] at hstep
      split at hstep
      case h_2 => cases hstep
      next archive hop harchive =>
      obtain rfl := Option.some.inj hstep
      refine h.enterPhase ?_
      refine ⟨fun a ha => ?_, fun happlied => Bool.noConfusion happlied⟩
      rw [Option.some.inj (harchive.symm.trans ha)]
  | apply =>
      simp only [step] at hstep
      split at hstep
      case h_2 => cases hstep
      next hop =>
      obtain rfl := Option.some.inj hstep
      exact inv_apply h hop
  | answer tagged =>
      simp only [step] at hstep
      split at hstep
      case h_2 => cases hstep
      next hop =>
      obtain rfl := Option.some.inj hstep
      exact inv_answer h tagged hop
  | attemptFails =>
      simp only [step] at hstep
      split at hstep
      case h_2 => cases hstep
      obtain rfl := Option.some.inj hstep
      refine h.less ⟨List.prefix_rfl, fun _ ha => ha, fun _ he => he⟩ ?_ (fun _ hx => .inl hx)
      intro op hmem
      obtain rfl := Option.some.inj hmem
      exact .inr trivial
  | failUpload =>
      simp only [step] at hstep
      split at hstep
      case h_2 => cases hstep
      obtain rfl := Option.some.inj hstep
      exact h.enter fun op hmem => nomatch hmem
  | cut =>
      obtain rfl := Option.some.inj hstep
      exact inv_cut h _
  | performDetached k =>
      simp only [step] at hstep
      split at hstep
      case h_2 => cases hstep
      next job hjob =>
      obtain rfl := Option.some.inj hstep
      exact inv_performDetached h hjob
  | loseDetached k =>
      obtain ⟨-, rfl⟩ := of_guard hstep
      refine h.less ⟨List.prefix_rfl, fun _ ha => ha, ?_⟩ (fun _ ho => .inl ho)
        (fun _ hx => .inl hx)
      rintro e (hsidecar | hown | ⟨job, hjob, he⟩)
      · exact .inl hsidecar
      · exact .inr (.inl hown)
      · exact .inr (.inr ⟨job, List.mem_of_mem_eraseIdx hjob, he⟩)
  | applyStray k =>
      simp only [step] at hstep
      split at hstep
      case h_2 => cases hstep
      next content hcontent =>
      obtain rfl := Option.some.inj hstep
      exact h.store content _
  | loseStray k =>
      obtain ⟨-, rfl⟩ := of_guard hstep
      exact h.less ⟨List.prefix_rfl, fun _ ha => ha, fun _ he => he⟩ (fun _ ho => .inl ho)
        (fun _ hx => .inl hx)
  | foreign content =>
      obtain rfl := Option.some.inj hstep
      exact h.store content s.strays
  | evictArchive removed =>
      obtain rfl := Option.some.inj hstep
      refine h.less ⟨List.prefix_rfl, fun a ha => ?_, fun _ he => he⟩ (fun _ ho => .inl ho)
        (fun _ hx => .inl hx)
      cases removed with
      | true => cases ha
      | false => exact ha
  | evictSidecar =>
      obtain ⟨-, rfl⟩ := of_guard hstep
      refine h.less ⟨List.prefix_rfl, fun _ ha => ha, ?_⟩ (fun _ ho => .inl ho)
        (fun _ hx => .inl hx)
      rintro e (hnone | hrest)
      · cases hnone
      · exact .inr hrest

/-! ## Versions that move forward -/

/-- What the step lets S3 store. -/
def stores (s : State α τ) : Label α → Option α
  | .apply =>
      match s.op with
      | some (.sending content false) => some content
      | _ => none
  | .applyStray k => s.strays[k]?
  | .foreign content => some content
  | _ => none

/-- What S3 stores is the object that it holds, or new to it. -/
def Forward (s : State α τ) (l : Label α) : Prop :=
  ∀ content ∈ stores s l, s.object = some content ∨ content ∉ s.stored

/-- A content that was replaced does not come back. -/
def Contiguous (stored : List α) : Prop :=
  ∀ i j k : Nat, i ≤ j → j ≤ k → ∀ c, stored[i]? = some c → stored[k]? = some c →
    stored[j]? = some c

theorem stored_step [DecidableEq τ] {s t : State α τ} {l : Label α}
    (h : step tag s l = some t) : t.stored = s.stored ++ (stores s l).toList := by
  cases l with
  | apply =>
      simp only [step] at h
      split at h
      case h_2 => cases h
      next content hop =>
      obtain rfl := Option.some.inj h
      simp [stores, hop]
  | applyStray k =>
      simp only [step] at h
      split at h
      case h_2 => cases h
      next content hcontent =>
      obtain rfl := Option.some.inj h
      simp [stores, hcontent]
  | foreign content =>
      obtain rfl := Option.some.inj h
      simp [stores]
  | _ =>
      simp only [step] at h
      simp only [stores, Option.toList_none, List.append_nil]
      repeat' split at h
      all_goals first
        | (obtain rfl := Option.some.inj h; rfl)
        | cases h

theorem contiguous_concat {stored : List α} {content : α} (h : Contiguous stored)
    (hforward : stored.getLast? = some content ∨ content ∉ stored) :
    Contiguous (stored ++ [content]) := by
  intro i j k hij hjk c hi hk
  by_cases hlt : k < stored.length
  · -- all three were stored before
    rw [List.getElem?_append_left (by omega)] at hi hk ⊢
    exact h i j k hij hjk c hi hk
  · have hk' : k = stored.length := by
      have hle := (List.getElem?_eq_some_iff.mp hk).1
      rw [List.length_append, List.length_singleton] at hle
      omega
    subst hk'
    obtain rfl : content = c := by simpa using hk
    by_cases hj : j < stored.length
    · rw [List.getElem?_append_left (by omega)] at hi ⊢
      have hlast : stored.getLast? = some content :=
        hforward.resolve_right fun hnew => hnew (List.mem_of_getElem? hi)
      rw [List.getLast?_eq_getElem?] at hlast
      exact h i j (stored.length - 1) hij (by omega) content hi hlast
    · have hj' : j = stored.length := by omega
      rw [hj']
      exact hk

theorem contiguous_step [DecidableEq τ] {s : State α τ} {l : Label α} {t : State α τ}
    (h : Contiguous s.stored) (hc : Forward s l) (hstep : step tag s l = some t) :
    Contiguous t.stored := by
  rw [stored_step hstep]
  cases hstores : stores s l with
  | none => simpa using h
  | some content => exact contiguous_concat h (hc content hstores)

theorem contiguous_init (object : Option α) : Contiguous (init object : State α τ).stored := by
  intro i j k hij hjk c hi hk
  have hle : k < object.toList.length := (List.getElem?_eq_some_iff.mp hk).1
  have hone : object.toList.length ≤ 1 := Option.length_toList_le
  obtain rfl : i = j := by omega
  exact hi

/-- **Failed and interrupted uploads never make a restore stale.** In every reachable state the
archive is the content that S3 stored under the sidecar's ETag, or was saved or downloaded
after S3 had stored it. Where contents have ETags of their own and S3's versions move forward,
what a restore extracted after a 304 is what S3 held then, or was saved on this host after S3
had stored that. -/
theorem interrupted_uploads_never_stale [DecidableEq τ] {tag : α → τ} {object : Option α}
    {ls : List (Label α)} {s : State α τ} (hrun : run (step tag) (init object) ls = some s) :
    (∀ a ∈ s.archive, ∀ e, s.sidecar = some (some e) → NotOlder tag s.stored e a) ∧
    (Function.Injective tag → Always (step tag) Forward (init object) ls →
      ∀ x ∈ s.extractions, ∀ o ∈ x.notModified, ∀ a ∈ x.archive,
        a.content = o ∨ (a.origin = .saved ∧ ∃ i < a.time, s.stored[i]? = some o)) := by
  have hi : Inv tag s := invariant (fun _ _ _ hi hs => inv_step hi hs) (inv_init tag object) hrun
  refine ⟨fun a ha e he => hi.notOlder a ha e (.inl he), ?_⟩
  intro hinj hforward x hx o ho a ha
  have hcontiguous : Contiguous s.stored :=
    invariant_of_always (I := fun s => Contiguous s.stored)
      (fun _ _ _ hi hc hs => contiguous_step hi hc hs) (contiguous_init object) hforward hrun
  obtain ⟨⟨⟨i, c, hc, htag, hage⟩, k, hk, hktime⟩, -, hdownloaded⟩ :=
    hi.extractions x hx o ho a ha
  obtain rfl : c = o := hinj htag
  rcases hage with hsame | hlater
  · exact .inl hsame
  · cases horigin : a.origin with
    | saved => exact .inr ⟨rfl, i, hlater, hc⟩
    | downloaded =>
        -- S3 held the object all the time since, also when the download read it
        obtain ⟨n, htime, hn⟩ := hdownloaded horigin
        have hsame : s.stored[n]? = some c := hcontiguous i n k (by omega) (by omega) c hc hk
        exact .inl (Option.some.inj (hn.symm.trans hsame))

instance [DecidableEq α] (s : State α τ) (l : Label α) : Decidable (Forward s l) :=
  match h : stores s l with
  | none => isTrue (by simp [Forward, h])
  | some content =>
      decidable_of_iff (s.object = some content ∨ content ∉ s.stored) (by simp [Forward, h])

/-- After a download a save's upload gets no answer, and the next restore gets 304. -/
def failedUpload : List (Label Nat) :=
  [.beginRestore, .look, .get true, .persist, .perform, .perform, .extract,
    .beginSave, .rename 1, .send, .attemptFails, .failUpload,
    .beginRestore, .look, .readSidecar, .get true, .extract, .applyStray 0]

theorem interrupted_uploads_never_stale_failedUpload :
    ∃ s, run (step id) (init (some 0)) failedUpload = some s ∧ s.stored = [0, 1] ∧
      ∃ a ∈ s.archive, s.sidecar = some (some 0) ∧ NotOlder id s.stored 0 a ∧
        ∃ x ∈ s.extractions, x.notModified = some 0 ∧ x.archive = some a ∧
          (a.content = 0 ∨ (a.origin = .saved ∧ ∃ i < a.time, s.stored[i]? = some 0)) := by
  obtain ⟨s, hs, hfinal⟩ : ∃ s, run (step id) (init (some 0)) failedUpload = some s ∧
      (s.stored, s.archive, s.sidecar, s.extractions) =
        ([0, 1], some ⟨1, .saved, 1⟩, some (some 0),
          [⟨none, some ⟨0, .downloaded, 1⟩⟩, ⟨some 0, some ⟨1, .saved, 1⟩⟩]) :=
    Option.map_eq_some_iff.mp (by decide)
  simp only [Prod.mk.injEq] at hfinal
  obtain ⟨hstored, harchive, hsidecar, hextractions⟩ := hfinal
  have hx : (⟨some 0, some ⟨1, .saved, 1⟩⟩ : Extraction Nat) ∈ s.extractions := by
    simp [hextractions]
  obtain ⟨hnotOlder, hextracted⟩ := interrupted_uploads_never_stale hs
  exact ⟨s, hs, hstored, ⟨1, .saved, 1⟩, harchive, hsidecar,
    hnotOlder _ harchive 0 hsidecar, _, hx, rfl, rfl,
    hextracted Function.injective_id (by decide) _ hx 0 rfl _ rfl⟩

end CacheFaults

end TurboCi
