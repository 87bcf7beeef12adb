import TurboCi.Lib.Runs

set_option autoImplicit false

/-! # The job cache

Archives of one project and key, kept at one path on the runner host with the ETag of their S3
object in a sidecar file, and in an S3 bucket (`runner_daemon/job_cache.rs`,
`runner_daemon/s3.rs`). Restores and saves of concurrent jobs take their steps in any order; one
that fails or is stopped for good takes no more. The contents of the cache are numbered in the
order in which saves rename them into place, after the object that S3 held at the beginning.
Eviction of old archives is off (`max_age` is `None`).

A restore may rename an object that it downloaded over an archive that a save has renamed into
place since; then a later save's object and ETag may already vouch for it (`restores_older`).
Unless a restore does that, an archive is never replaced by an older one, and every restore
extracts what the saves before it have uploaded (`restores_uploaded`).
-/

namespace TurboCi

open Runs

namespace JobCache

variable {α τ : Type}

/-- Position of a content in the order of the renames. -/
abbrev Version := Nat

inductive Source where
  | localCopy
  | s3NotModified
  | s3Downloaded
  deriving DecidableEq

inductive RestorePhase (τ : Type) where
  | started
  /-- the archive exists -/
  | existing
  | requesting (etag : Option τ)
  /-- has the object in a temporary file -/
  | downloaded (version : Version) (etag : Option τ)
  /-- has renamed the temporary file to the archive -/
  | persisted (etag : Option τ)
  /-- `fetch` is done -/
  | fetched (source : Source)
  | finished
  deriving DecidableEq

structure Restore (τ : Type) where
  phase : RestorePhase τ := .started
  /-- the versions whose saves had returned `Some(Ok(()))` when the restore began -/
  uploaded : List Version
  deriving DecidableEq

inductive SavePhase (τ : Type) where
  /-- has renamed its archive into place -/
  | renamed
  /-- has opened the file at the archive's path, to send it -/
  | uploading (version : Version)
  /-- S3 has answered with the ETag of the object -/
  | stored (etag : Option τ)
  /-- the save has returned, `ok` when the upload succeeded -/
  | returned (ok : Bool)
  deriving DecidableEq

structure Save (τ : Type) where
  version : Version
  phase : SavePhase τ := .renamed
  deriving DecidableEq

/-- What a restore extracted, and what there was at that moment. -/
structure Extraction where
  uploaded : List Version
  source : Source
  /-- `none` when there was no archive -/
  version : Option Version
  /-- the number of contents so far -/
  contents : Nat
  object : Option Version
  deriving DecidableEq

structure State (α τ : Type) where
  contents : List α
  archive : Option Version := none
  sidecar : Option τ := none
  /-- the object in S3 -/
  object : Option Version
  restores : List (Restore τ) := []
  saves : List (Save τ) := []
  extractions : List Extraction := []
  deriving DecidableEq

inductive Label (α : Type) where
  | beginRestore
  /-- `path.exists()` -/
  | look (restore : Nat)
  | readSidecar (restore : Nat)
  /-- S3 answers the conditional GET, with an ETag header or without -/
  | get (restore : Nat) (tagged : Bool)
  /-- creating the directory, the request, the download or the rename fails -/
  | failFetch (restore : Nat)
  | persist (restore : Nat)
  /-- the sidecar is written or removed, or that fails -/
  | writeEtag (restore : Nat) (done : Bool)
  | extract (restore : Nat)
  /-- a save renames its archive into place -/
  | rename (content : α)
  /-- `put_file` opens the archive to send it -/
  | upload (save : Nat)
  /-- S3 stores the object and answers, with an ETag header or without, or its answer is lost -/
  | store (save : Nat) (answer : Option Bool)
  /-- an attempt to send the archive fails -/
  | retry (save : Nat)
  /-- `put_file` fails -/
  | failUpload (save : Nat)
  /-- the sidecar is written or removed, or that fails -/
  | saveEtag (save : Nat) (done : Bool)
  deriving DecidableEq

/-- The ETag of a version's object. -/
def State.etag (tag : α → τ) (s : State α τ) (version : Version) : Option τ :=
  s.contents[version]?.map tag

/-- The versions whose saves have returned `Some(Ok(()))`. -/
def State.uploaded (s : State α τ) : List Version :=
  s.saves.filterMap (fun t => match t.phase with
    | .returned true => some t.version
    | _ => none)

def step [DecidableEq τ] (tag : α → τ) (s : State α τ) : Label α → Option (State α τ)
  | .beginRestore => some { s with restores := s.restores ++ [{ uploaded := s.uploaded }] }
  | .look r =>
      match s.restores[r]? with
      | some ⟨.started, uploaded⟩ =>
          some { s with
            restores := s.restores.set r
              ⟨if s.archive.isSome then .existing else .requesting none, uploaded⟩ }
      | _ => none
  | .readSidecar r =>
      match s.restores[r]? with
      | some ⟨.existing, uploaded⟩ =>
          some { s with restores := s.restores.set r ⟨.requesting s.sidecar, uploaded⟩ }
      | _ => none
  | .get r tagged =>
      match s.restores[r]?, s.object with
      | some ⟨.requesting _, uploaded⟩, none =>
          some { s with restores := s.restores.set r ⟨.fetched .localCopy, uploaded⟩ }
      | some ⟨.requesting etag, uploaded⟩, some version =>
          -- `If-None-Match` with the ETag of the object is answered with 304
          if etag.isSome ∧ etag = s.etag tag version then
            some { s with restores := s.restores.set r ⟨.fetched .s3NotModified, uploaded⟩ }
          else
            some { s with
              restores := s.restores.set r
                ⟨.downloaded version (if tagged then s.etag tag version else none), uploaded⟩ }
      | _, _ => none
  | .failFetch r =>
      match s.restores[r]? with
      | some ⟨.started, uploaded⟩ | some ⟨.requesting _, uploaded⟩
      | some ⟨.downloaded _ _, uploaded⟩ =>
          some { s with restores := s.restores.set r ⟨.fetched .localCopy, uploaded⟩ }
      | _ => none
  | .persist r =>
      match s.restores[r]? with
      | some ⟨.downloaded version etag, uploaded⟩ =>
          some { s with
            archive := some version
            restores := s.restores.set r ⟨.persisted etag, uploaded⟩ }
      | _ => none
  | .writeEtag r done =>
      match s.restores[r]? with
      | some ⟨.persisted etag, uploaded⟩ =>
          -- a sidecar that cannot be written is an error, one that cannot be removed is not
          let source := if done ∨ etag.isNone then Source.s3Downloaded else .localCopy
          some { s with
            sidecar := if done then etag else s.sidecar
            restores := s.restores.set r ⟨.fetched source, uploaded⟩ }
      | _ => none
  | .extract r =>
      match s.restores[r]? with
      | some ⟨.fetched source, uploaded⟩ =>
          some { s with
            extractions := s.extractions ++
              [⟨uploaded, source, s.archive, s.contents.length, s.object⟩]
            restores := s.restores.set r ⟨.finished, uploaded⟩ }
      | _ => none
  | .rename content =>
      some { s with
        contents := s.contents ++ [content]
        archive := some s.contents.length
        saves := s.saves ++ [{ version := s.contents.length }] }
  | .upload i =>
      match s.saves[i]?, s.archive with
      | some ⟨version, .renamed⟩, some sent =>
          some { s with saves := s.saves.set i ⟨version, .uploading sent⟩ }
      | _, _ => none
  | .store i answer =>
      match s.saves[i]? with
      | some ⟨version, .uploading sent⟩ =>
          -- a save that got no answer tries again
          let phase := match answer with
            | some tagged => SavePhase.stored (if tagged then s.etag tag sent else none)
            | none => .renamed
          some { s with object := some sent, saves := s.saves.set i ⟨version, phase⟩ }
      | _ => none
  | .retry i =>
      match s.saves[i]? with
      | some ⟨version, .uploading _⟩ =>
          some { s with saves := s.saves.set i ⟨version, .renamed⟩ }
      | _ => none
  | .failUpload i =>
      match s.saves[i]? with
      | some ⟨version, .renamed⟩ =>
          some { s with saves := s.saves.set i ⟨version, .returned false⟩ }
      | _ => none
  | .saveEtag i done =>
      match s.saves[i]? with
      | some ⟨version, .stored etag⟩ =>
          some { s with
            sidecar := if done then etag else s.sidecar
            saves := s.saves.set i ⟨version, .returned true⟩ }
      | _ => none

/-- A host without an archive, and what S3 holds. -/
def init (object : Option α) : State α τ :=
  { contents := object.toList, object := object.map (fun _ => 0) }

/-! ## Restores extract what was uploaded -/

/-- A restore renames the object that it downloaded over a newer archive. -/
def Overwrites (s : State α τ) : Label α → Prop
  | .persist r => ∃ t ∈ s.restores[r]?, match t.phase with
      | .downloaded version _ => ∃ a ∈ s.archive, version < a
      | _ => False
  | _ => False

instance (s : State α τ) : ∀ l, Decidable (Overwrites s l)
  | .persist r =>
      match h : s.restores[r]? with
      | some ⟨.downloaded version _, _⟩ =>
          decidable_of_iff (∃ a ∈ s.archive, version < a) (by simp [Overwrites, h])
      | some ⟨.started, _⟩ | some ⟨.existing, _⟩ | some ⟨.requesting _, _⟩
      | some ⟨.persisted _, _⟩ | some ⟨.fetched _, _⟩ | some ⟨.finished, _⟩
      | none => isFalse (by simp [Overwrites, h])
  | .beginRestore | .look _ | .readSidecar _ | .get _ _ | .failFetch _ | .writeEtag _ _
  | .extract _ | .rename _ | .upload _ | .store _ _ | .retry _ | .failUpload _
  | .saveEtag _ _ => isFalse id

/-- The archive is there, and no older than the version. -/
def Held (archive : Option Version) (version : Version) : Prop := ∃ a ∈ archive, version ≤ a

theorem held_some {a version : Version} : Held (some a) version ↔ version ≤ a := by simp [Held]

/-- The archive existed when the restore looked, so that S3 may answer 304. -/
def RestorePhase.Conditional : RestorePhase τ → Prop
  | .existing | .requesting (some _) | .fetched .s3NotModified => True
  | _ => False

/-- What a restore keeps, by the archive and the number of contents. -/
structure Restore.Good (archive : Option Version) (n : Nat) (t : Restore τ) : Prop where
  uploaded : ∀ version ∈ t.uploaded, Held archive version
  downloaded : ∀ version etag, t.phase = .downloaded version etag → version < n
  conditional : t.phase.Conditional → Held archive 0

structure Save.Good (archive : Option Version) (t : Save τ) : Prop where
  version : Held archive t.version
  uploading : ∀ version, t.phase = .uploading version → Held archive version

/-- The restore extracted no less than what was uploaded before it, and after a 304 no less
than what S3 holds. -/
structure Extraction.Good (e : Extraction) : Prop where
  uploaded : ∀ version ∈ e.uploaded, Held e.version version
  contents : ∀ version ∈ e.version, version < e.contents
  notModified : e.source = .s3NotModified →
    ∃ version, e.version = some version ∧ ∀ o ∈ e.object, o ≤ version

structure Inv (s : State α τ) : Prop where
  archive : ∀ a ∈ s.archive, a < s.contents.length
  object : ∀ o ∈ s.object, o < s.contents.length
  behind : ∀ o ∈ s.object, ∀ a ∈ s.archive, o ≤ a
  fresh : s.archive = none → s.contents.length ≤ 1
  restores : ∀ t ∈ s.restores, t.Good s.archive s.contents.length
  saves : ∀ t ∈ s.saves, t.Good s.archive
  extractions : ∀ e ∈ s.extractions, e.Good

/-! ## Single changes -/

theorem Restore.Good.mono {archive archive' : Option Version} {n n' : Nat} {t : Restore τ}
    (h : t.Good archive n) (harchive : ∀ version, Held archive version → Held archive' version)
    (hn : n ≤ n') : t.Good archive' n' where
  uploaded version hversion := harchive version (h.uploaded version hversion)
  downloaded version etag hphase := (h.downloaded version etag hphase).trans_le hn
  conditional hphase := harchive 0 (h.conditional hphase)

theorem Save.Good.mono {archive archive' : Option Version} {t : Save τ} (h : t.Good archive)
    (harchive : ∀ version, Held archive version → Held archive' version) : t.Good archive' where
  version := harchive _ h.version
  uploading version hphase := harchive version (h.uploading version hphase)

/-- A restore in a phase without a download. -/
theorem Restore.Good.enter {archive : Option Version} {n : Nat} {t : Restore τ}
    (h : t.Good archive n) (phase : RestorePhase τ)
    (hdownloaded : ∀ version etag, phase ≠ .downloaded version etag)
    (hconditional : phase.Conditional → Held archive 0) :
    Restore.Good archive n ⟨phase, t.uploaded⟩ :=
  ⟨h.uploaded, fun version etag hphase => absurd hphase (hdownloaded version etag), hconditional⟩

theorem Save.Good.enter {archive : Option Version} {t : Save τ} (h : t.Good archive)
    (phase : SavePhase τ) (huploading : ∀ version, phase ≠ .uploading version) :
    Save.Good archive ⟨t.version, phase⟩ :=
  ⟨h.version, fun version hphase => absurd hphase (huploading version)⟩

theorem Inv.setRestore {s : State α τ} (h : Inv s) (r : Nat) {t : Restore τ}
    (ht : t.Good s.archive s.contents.length) (sidecar : Option τ) :
    Inv { s with sidecar := sidecar, restores := s.restores.set r t } :=
  ⟨h.archive, h.object, h.behind, h.fresh, forall_set h.restores ht, h.saves, h.extractions⟩

theorem Inv.setSave {s : State α τ} (h : Inv s) (i : Nat) {t : Save τ} (ht : t.Good s.archive)
    (sidecar : Option τ) : Inv { s with sidecar := sidecar, saves := s.saves.set i t } :=
  ⟨h.archive, h.object, h.behind, h.fresh, h.restores, forall_set h.saves ht, h.extractions⟩

/-- A restore moves on without a download, and may write the sidecar. -/
theorem Inv.enterRestore {s : State α τ} (h : Inv s) {r : Nat} {t : Restore τ}
    (ht : s.restores[r]? = some t) (phase : RestorePhase τ)
    (hdownloaded : ∀ version etag, phase ≠ .downloaded version etag)
    (hconditional : phase.Conditional → Held s.archive 0) (sidecar : Option τ) :
    Inv { s with sidecar := sidecar, restores := s.restores.set r ⟨phase, t.uploaded⟩ } := by
  have hold : t.Good s.archive s.contents.length := h.restores t (List.mem_of_getElem? ht)
  exact h.setRestore r (hold.enter phase hdownloaded hconditional) sidecar

/-- A save moves on without opening the archive, and may write the sidecar. -/
theorem Inv.enterSave {s : State α τ} (h : Inv s) {i : Nat} {t : Save τ}
    (ht : s.saves[i]? = some t) (phase : SavePhase τ)
    (huploading : ∀ version, phase ≠ .uploading version) (sidecar : Option τ) :
    Inv { s with sidecar := sidecar, saves := s.saves.set i ⟨t.version, phase⟩ } := by
  have hold : t.Good s.archive := h.saves t (List.mem_of_getElem? ht)
  exact h.setSave i (hold.enter phase huploading) sidecar

theorem inv_init (object : Option α) : Inv (init object : State α τ) where
  archive _ ha := nomatch ha
  object o ho := by
    cases object with
    | none => cases ho
    | some content =>
        obtain rfl := Option.some.inj ho
        exact Nat.zero_lt_one
  behind _ _ _ ha := nomatch ha
  fresh _ := by
    cases object with
    | none => exact Nat.zero_le 1
    | some content => exact le_rfl
  restores _ ht := nomatch ht
  saves _ ht := nomatch ht
  extractions _ he := nomatch he

/-- The saves that returned after an upload are held. -/
theorem Inv.held_uploaded {s : State α τ} (h : Inv s) :
    ∀ version ∈ s.uploaded, Held s.archive version := by
  intro version hversion
  obtain ⟨t, ht, hphase⟩ := List.mem_filterMap.mp hversion
  split at hphase
  · rw [← Option.some.inj hphase]
    exact (h.saves t ht).version
  · cases hphase

/-- A restore replaces the archive by a download that is no older. -/
theorem Inv.persist {s : State α τ} (h : Inv s) {version : Version}
    (hversion : version < s.contents.length) (hnewer : ∀ a ∈ s.archive, a ≤ version) (r : Nat)
    {t : Restore τ} (ht : t.Good s.archive s.contents.length) :
    Inv { s with archive := some version, restores := s.restores.set r t } := by
  have hmono : ∀ w, Held s.archive w → Held (some version) w := by
    rintro w ⟨a, ha, hw⟩
    exact held_some.mpr (hw.trans (hnewer a ha))
  constructor
  case archive =>
    intro a ha
    obtain rfl := Option.some.inj ha
    exact hversion
  case object => exact h.object
  case behind =>
    intro o ho a ha
    obtain rfl := Option.some.inj ha
    cases harchive : s.archive with
    | none =>
        -- nothing was saved here yet, so S3 still holds what it held at the beginning
        have hzero : o = 0 := Nat.lt_one_iff.mp ((h.object o ho).trans_le (h.fresh harchive))
        rw [hzero]
        exact Nat.zero_le version
    | some old =>
        calc
          o ≤ old := h.behind o ho old harchive
          _ ≤ version := hnewer old harchive
  case fresh => nofun
  case restores => exact fun t' ht' => (forall_set h.restores ht t' ht').mono hmono le_rfl
  case saves => exact fun t' ht' => (h.saves t' ht').mono hmono
  case extractions => exact h.extractions

/-- A save replaces the archive by the newest content. -/
theorem Inv.rename {s : State α τ} (h : Inv s) (content : α) :
    Inv { s with
      contents := s.contents ++ [content]
      archive := some s.contents.length
      saves := s.saves ++ [{ version := s.contents.length }] } := by
  have hlength : (s.contents ++ [content]).length = s.contents.length + 1 := List.length_append
  have hmono : ∀ w, Held s.archive w → Held (some s.contents.length) w := by
    rintro w ⟨a, ha, hw⟩
    apply held_some.mpr
    calc
      w ≤ a := hw
      _ ≤ s.contents.length := (h.archive a ha).le
  constructor
  case archive =>
    intro a ha
    obtain rfl := Option.some.inj ha
    rw [hlength]
    exact Nat.lt_succ_self _
  case object =>
    intro o ho
    rw [hlength]
    exact (h.object o ho).trans (Nat.lt_succ_self _)
  case behind =>
    intro o ho a ha
    obtain rfl := Option.some.inj ha
    exact (h.object o ho).le
  case fresh => nofun
  case restores =>
    intro t ht
    apply (h.restores t ht).mono hmono
    rw [hlength]
    exact Nat.le_succ _
  case saves =>
    apply forall_concat
    · exact fun t ht => (h.saves t ht).mono hmono
    · exact ⟨held_some.mpr le_rfl, nofun⟩
  case extractions => exact h.extractions

/-- S3 stores what a save has opened: the archive as it was then, so nothing newer than now. -/
theorem Inv.store {s : State α τ} (h : Inv s) {sent : Version} (hsent : Held s.archive sent)
    (i : Nat) {t : Save τ} (ht : t.Good s.archive) :
    Inv { s with object := some sent, saves := s.saves.set i t } := by
  obtain ⟨a, ha, hle⟩ := hsent
  constructor
  case archive => exact h.archive
  case object =>
    intro o ho
    obtain rfl := Option.some.inj ho
    exact hle.trans_lt (h.archive a ha)
  case behind =>
    intro o ho b hb
    obtain rfl := Option.some.inj ho
    obtain rfl := Option.some.inj (ha.symm.trans hb)
    exact hle
  case fresh => exact h.fresh
  case restores => exact h.restores
  case saves => exact forall_set h.saves ht
  case extractions => exact h.extractions

/-- A restore extracts the archive, which S3 is not ahead of. -/
theorem Inv.extract {s : State α τ} (h : Inv s) {source : Source} {uploaded : List Version}
    (hold : Restore.Good s.archive s.contents.length (⟨.fetched source, uploaded⟩ : Restore τ)) :
    Extraction.Good ⟨uploaded, source, s.archive, s.contents.length, s.object⟩ where
  uploaded := hold.uploaded
  contents := h.archive
  notModified hsource := by
    dsimp only at hsource
    subst hsource
    obtain ⟨a, ha, -⟩ := hold.conditional trivial
    exact ⟨a, ha, fun o ho => h.behind o ho a ha⟩

/-- **Every step that does not overwrite a newer archive keeps the invariant.** -/
theorem inv_step [DecidableEq τ] {tag : α → τ} {s : State α τ} {l : Label α} {s' : State α τ}
    (h : Inv s) (hc : ¬ Overwrites s l) (hstep : step tag s l = some s') : Inv s' := by
  cases l with
  | beginRestore =>
      obtain rfl := Option.some.inj hstep
      refine ⟨h.archive, h.object, h.behind, h.fresh, forall_concat h.restores ?_, h.saves,
        h.extractions⟩
      exact ⟨h.held_uploaded, nofun, False.elim⟩
  | look r =>
      simp only [step] at hstep
      split at hstep
      · next uploaded ht =>
          obtain rfl := Option.some.inj hstep
          refine h.enterRestore ht _ ?_ ?_ s.sidecar
          · split <;> nofun
          · -- the request will be conditional only if the restore has seen an archive
            intro hphase
            split at hphase
            · next hsome =>
                obtain ⟨a, ha⟩ := Option.isSome_iff_exists.mp hsome
                exact ⟨a, ha, Nat.zero_le a⟩
            · exact hphase.elim
      · cases hstep
  | readSidecar r =>
      simp only [step] at hstep
      split at hstep
      · next uploaded ht =>
          obtain rfl := Option.some.inj hstep
          have hold := h.restores _ (List.mem_of_getElem? ht)
          exact h.enterRestore ht (.requesting s.sidecar) nofun
            (fun _ => hold.conditional trivial) s.sidecar
      · cases hstep
  | get r tagged =>
      simp only [step] at hstep
      split at hstep
      · -- S3 has no object: the local copy stands in, if there is one
        next etag uploaded ht _ =>
          obtain rfl := Option.some.inj hstep
          exact h.enterRestore ht (.fetched .localCopy) nofun False.elim s.sidecar
      · next etag uploaded version ht hobject =>
          have hold := h.restores _ (List.mem_of_getElem? ht)
          split at hstep
          · -- 304: the ETag came from a sidecar, so the archive was there
            next hmatch =>
              obtain rfl := Option.some.inj hstep
              obtain ⟨e, rfl⟩ := Option.isSome_iff_exists.mp hmatch.1
              exact h.enterRestore ht (.fetched .s3NotModified) nofun
                (fun _ => hold.conditional trivial) s.sidecar
          · -- 200: the object goes to a temporary file
            obtain rfl := Option.some.inj hstep
            refine h.setRestore r (t := ⟨.downloaded version _, uploaded⟩)
              ⟨hold.uploaded, fun v e hphase => ?_, False.elim⟩ s.sidecar
            rw [← (RestorePhase.downloaded.inj hphase).1]
            exact h.object version hobject
      · cases hstep
  | failFetch r =>
      simp only [step] at hstep
      split at hstep
      · next uploaded ht =>
          obtain rfl := Option.some.inj hstep
          exact h.enterRestore ht (.fetched .localCopy) nofun False.elim s.sidecar
      · next etag uploaded ht =>
          obtain rfl := Option.some.inj hstep
          exact h.enterRestore ht (.fetched .localCopy) nofun False.elim s.sidecar
      · next version etag uploaded ht =>
          obtain rfl := Option.some.inj hstep
          exact h.enterRestore ht (.fetched .localCopy) nofun False.elim s.sidecar
      · cases hstep
  | persist r =>
      simp only [step] at hstep
      split at hstep
      · next version etag uploaded ht =>
          obtain rfl := Option.some.inj hstep
          have hold := h.restores _ (List.mem_of_getElem? ht)
          -- the only step that can put back something older, and the condition rules it out
          have hnewer : ∀ a ∈ s.archive, a ≤ version := by
            intro a ha
            by_contra hlt
            exact hc ⟨_, ht, a, ha, Nat.lt_of_not_le hlt⟩
          have hversion : version < s.contents.length := hold.downloaded version etag rfl
          exact h.persist hversion hnewer r (hold.enter (.persisted etag) nofun False.elim)
      · cases hstep
  | writeEtag r done =>
      simp only [step] at hstep
      split at hstep
      · next etag uploaded ht =>
          obtain rfl := Option.some.inj hstep
          refine h.enterRestore ht (.fetched _) nofun (fun hphase => ?_) _
          split at hphase
          · exact hphase.elim
          · exact hphase.elim
      · cases hstep
  | extract r =>
      simp only [step] at hstep
      split at hstep
      · next source uploaded ht =>
          obtain rfl := Option.some.inj hstep
          have hold := h.restores _ (List.mem_of_getElem? ht)
          have hfinished := hold.enter .finished nofun False.elim
          exact ⟨h.archive, h.object, h.behind, h.fresh, forall_set h.restores hfinished, h.saves,
            forall_concat h.extractions (h.extract hold)⟩
      · cases hstep
  | rename content =>
      obtain rfl := Option.some.inj hstep
      exact h.rename content
  | upload i =>
      simp only [step] at hstep
      split at hstep
      · next version sent ht harchive =>
          obtain rfl := Option.some.inj hstep
          have hold := h.saves _ (List.mem_of_getElem? ht)
          -- what is opened is the archive of this moment, by whichever save it was made
          refine h.setSave i (t := ⟨version, .uploading sent⟩)
            ⟨hold.version, fun v hphase => ?_⟩ s.sidecar
          rw [← SavePhase.uploading.inj hphase]
          exact ⟨sent, harchive, le_rfl⟩
      · cases hstep
  | store i answer =>
      simp only [step] at hstep
      split at hstep
      · next version sent ht =>
          obtain rfl := Option.some.inj hstep
          have hold := h.saves _ (List.mem_of_getElem? ht)
          apply h.store (hold.uploading sent rfl)
          apply hold.enter
          cases answer with
          | none => nofun
          | some tagged => nofun
      · cases hstep
  | retry i =>
      simp only [step] at hstep
      split at hstep
      · next version sent ht =>
          obtain rfl := Option.some.inj hstep
          exact h.enterSave ht .renamed nofun s.sidecar
      · cases hstep
  | failUpload i =>
      simp only [step] at hstep
      split at hstep
      · next version ht =>
          obtain rfl := Option.some.inj hstep
          exact h.enterSave ht (.returned false) nofun s.sidecar
      · cases hstep
  | saveEtag i done =>
      simp only [step] at hstep
      split at hstep
      · next version etag ht =>
          obtain rfl := Option.some.inj hstep
          exact h.enterSave ht (.returned true) nofun _
      · cases hstep

/-- **A restore extracts what was uploaded before it began, if nothing was saved later, and
after a 304 nothing older than the object in S3**, in every run in which no restore renames the
object that it downloaded over a newer archive. -/
theorem restores_uploaded [DecidableEq τ] {tag : α → τ} {object : Option α}
    {ls : List (Label α)} {s : State α τ} (hrun : run (step tag) (init object) ls = some s)
    (hc : Always (step tag) (fun s l => ¬ Overwrites s l) (init object) ls) :
    ∀ e ∈ s.extractions,
      (∀ version ∈ e.uploaded, version + 1 = e.contents → e.version = some version) ∧
      (e.source = .s3NotModified →
        ∃ version, e.version = some version ∧ ∀ o ∈ e.object, o ≤ version) := by
  intro e he
  have hinv : Inv s := invariant_of_always (fun _ _ _ hi hcond hs => inv_step hi hcond hs)
    (inv_init object) hc hrun
  have hgood := hinv.extractions e he
  refine ⟨fun version hversion hlast => ?_, hgood.notModified⟩
  obtain ⟨a, ha, hle⟩ := hgood.uploaded version hversion
  have hlt : a < version + 1 := hlast ▸ hgood.contents a ha
  rw [ha, Nat.le_antisymm hle (Nat.lt_succ_iff.mp hlt)]

/-- A save between two restores, and one while it is about to upload. -/
def savedBetween : List (Label Nat) :=
  [.beginRestore, .look 0, .get 0 true, .persist 0, .writeEtag 0 true, .extract 0, .rename 11,
    .beginRestore, .look 1, .readSidecar 1, .get 1 true, .extract 1, .upload 0,
    .store 0 (some true), .saveEtag 0 true,
    .beginRestore, .look 2, .readSidecar 2, .get 2 true, .extract 2]

theorem restores_uploaded_savedBetween :
    ∃ s : State Nat Nat, run (step id) (init (some 10)) savedBetween = some s ∧
      ∀ e ∈ s.extractions, 1 ∈ e.uploaded → e.version = some 1 := by
  obtain ⟨s, hs, hextractions⟩ : ∃ s : State Nat Nat,
      run (step id) (init (some 10)) savedBetween = some s ∧
        ∀ e ∈ s.extractions, e.contents = 2 ∨ 1 ∉ e.uploaded := by
    refine ⟨_, rfl, ?_⟩
    decide
  refine ⟨s, hs, fun e he huploaded => ?_⟩
  have hlast := (hextractions e he).resolve_right (not_not_intro huploaded)
  exact (restores_uploaded hs (by decide) e he).1 1 huploaded hlast.symm

/-- A save uploads while a restore has its older download still in a temporary file. -/
def savedDuringDownload : List (Label Nat) :=
  [.beginRestore, .look 0, .get 0 true, .rename 11, .upload 0, .store 0 (some true),
    .saveEtag 0 true, .persist 0,
    .beginRestore, .look 1, .readSidecar 1, .get 1 true, .extract 1]

/-- **The older download shadows the upload**: S3 holds the newer object and answers 304. -/
theorem restores_older :
    ∃ s : State Nat Nat, run (step id) (init (some 10)) savedDuringDownload = some s ∧
      s.extractions = [{
        uploaded := [1]
        source := .s3NotModified
        version := some 0
        contents := 2
        object := some 1 }] :=
  Option.map_eq_some_iff.mp (by decide)

end JobCache

end TurboCi
