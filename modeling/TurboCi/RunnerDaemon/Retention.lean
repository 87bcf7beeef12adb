import TurboCi.RunnerDaemon.CacheNames
import TurboCi.RunnerDaemon.Config
import TurboCi.RunnerDaemon.Workspaces

set_option autoImplicit false

/-! # Retention periods

How old an archive of the local cache and a workspace must be for an eviction to remove it
(`runner_daemon/job_cache.rs`, `runner_daemon/executor.rs`, `runner_daemon/mod.rs`). The days of
the configuration become seconds in 64 bits, without a check: from `2^64` seconds on the period
that is applied is shorter than the configured one (`wrapped_lt`), and with `2^57` days it is 0.
Nothing younger than its retention period is removed exactly when both periods have less than
`2^64` seconds (`keepsYoung_iff`).

Removing what is too old may fail; the lists are of what an eviction tries to remove.
-/

namespace TurboCi

open Workspaces (Duration evictionInterval fromSecs maxAge nanosPerSec)

namespace Retention

/-! ## Times -/

/-- A day has as many seconds. -/
def secsPerDay : Nat := 24 * 60 * 60

/-- A `SystemTime`: nanoseconds since the epoch, whose seconds are an `i64`. -/
structure SystemTime where
  nanos : Int
  lower : -(2 ^ 63) * (nanosPerSec : Int) ≤ nanos
  upper : nanos < 2 ^ 63 * (nanosPerSec : Int)
  deriving DecidableEq

/-- `SystemTime::duration_since`, an error for a time that is later. -/
def SystemTime.durationSince (now earlier : SystemTime) : Option Duration :=
  if earlier.nanos ≤ now.nanos then some (now.nanos - earlier.nanos).toNat else none

/-! ## The local cache -/

/-- A file in the directory of a project: the time of its last use, if its metadata can be read,
and the clock when the eviction looks at it. -/
structure CacheEntry where
  name : Chars
  modified : Option SystemTime
  now : SystemTime
  deriving DecidableEq

/-- How long the file was not used, unless its time is in the future. -/
def CacheEntry.age (entry : CacheEntry) : Option Duration :=
  entry.modified.bind entry.now.durationSince

/-- `Path::extension`: what follows the last dot, unless the name begins there. -/
def extension (name : Chars) : Option Chars :=
  if name = "..".toList then none
  else (splitOnce '.' name.reverse).bind fun parts =>
    if parts.2 = [] then none else some parts.1.reverse

def sidecar (archive : Chars) : Chars := archive ++ ".etag".toList

/-- `LocalCache::with_max_age_days`, in wrapping arithmetic. -/
def withMaxAgeDays (days : Nat) : Option Duration :=
  if 0 < days then some (fromSecs (days * 24 * 3600 % 2 ^ 64)) else none

/-- What `LocalCache::evict` removes of the directory of a project. -/
def evict (maxAge : Option Duration) (entries : List CacheEntry) : List Chars :=
  match maxAge with
  | none => []
  | some maxAge => entries.flatMap fun entry =>
      -- a sidecar goes with its archive
      if extension entry.name = some "etag".toList then []
      else if entry.age.any (maxAge < ·) then [entry.name, sidecar entry.name]
      else []

/-! ## The workspaces -/

/-- An entry of the builds root. -/
structure BuildsEntry where
  path : Workspaces.Name
  isDir : Bool
  /-- of a marker whose metadata can be read -/
  marker : Option (Option SystemTime)
  modified : Option SystemTime
  deriving DecidableEq

/-- When the workspace was last used: its marker, or else its modification time. -/
def BuildsEntry.used (entry : BuildsEntry) : Option SystemTime := entry.marker.getD entry.modified

def BuildsEntry.idle (entry : BuildsEntry) (now : SystemTime) : Duration :=
  (entry.used.bind now.durationSince).getD 0

/-- What `ExecutorType::evict_workspaces` removes. -/
def evictWorkspaces (maxAge : Duration) (inUse : List Workspaces.Name) (now : SystemTime)
    (entries : List BuildsEntry) : List Workspaces.Name :=
  (entries.filter fun entry =>
    !inUse.contains entry.path ∧ entry.isDir ∧ maxAge < entry.idle now).map (·.path)

/-- What `RunnerDaemon::evict_workspaces` removes, `since` the last eviction. -/
def evictDue (days : Nat) (since : Option Duration) (inUse : List Workspaces.Name)
    (now : SystemTime) (entries : List BuildsEntry) : List Workspaces.Name :=
  if 0 < days ∧ since.all (fromSecs evictionInterval ≤ ·) then
    evictWorkspaces (fromSecs (maxAge days)) inUse now entries
  else []

/-! ## What is kept -/

section Archives

variable (blake3 : List UInt8 → Digest)

/-- The name of an archive in the directory of its project. -/
def IsArchive (name : Chars) : Prop := ∃ key, name = encodeKey blake3 key ++ ".zip".toList

/-- No archive is removed that was used less than so many days ago. -/
def KeepsArchives (days : Nat) : Prop :=
  ∀ entries : List CacheEntry, (entries.map (·.name)).Nodup →
    ∀ entry ∈ entries, IsArchive blake3 entry.name →
      (∀ age ∈ entry.age, age < fromSecs (days * secsPerDay)) →
      entry.name ∉ evict (withMaxAgeDays days) entries

end Archives

/-- No workspace is removed that was used less than so many days ago. -/
def KeepsWorkspaces (days : Nat) : Prop :=
  ∀ (since : Option Duration) (inUse : List Workspaces.Name) (now : SystemTime)
    (entries : List BuildsEntry), (entries.map (·.path)).Nodup →
    ∀ entry ∈ entries,
      (∀ used ∈ entry.used, ∀ idle ∈ now.durationSince used,
        idle < fromSecs (days * secsPerDay)) →
      entry.path ∉ evictDue days since inUse now entries

/-- Nothing is removed that was used within its retention period. -/
def KeepsYoung (blake3 : List UInt8 → Digest) (config : Config.RunnerConfig) : Prop :=
  KeepsArchives blake3 config.cacheMaxAgeDays ∧
    KeepsWorkspaces config.executor.workspaceMaxAgeDays

/-! ## The period that is applied -/

/-- The seconds of a retention period, as they are computed. -/
def wrapped (days : Nat) : Nat := days * secsPerDay % 2 ^ 64

theorem withMaxAgeDays_eq (days : Nat) :
    withMaxAgeDays days = if 0 < days then some (fromSecs (wrapped days)) else none := by
  have h : days * 24 * 3600 = days * secsPerDay := Nat.mul_assoc days 24 3600
  unfold withMaxAgeDays wrapped
  rw [h]

theorem maxAge_eq (days : Nat) : maxAge days = wrapped days := by
  have h : days * 24 * 60 * 60 = days * secsPerDay := by
    rw [Nat.mul_assoc days, Nat.mul_assoc days]
    rfl
  unfold maxAge wrapped
  rw [h]

theorem wrapped_of_lt {days : Nat} (h : days * secsPerDay < 2 ^ 64) :
    wrapped days = days * secsPerDay := Nat.mod_eq_of_lt h

/-- A period that does not fit becomes shorter. -/
theorem wrapped_lt {days : Nat} (h : 2 ^ 64 ≤ days * secsPerDay) :
    wrapped days < days * secsPerDay := by
  have hmod : wrapped days < 2 ^ 64 := Nat.mod_lt _ (by decide)
  omega

/-! ## Times that tell the periods apart -/

def SystemTime.latest : SystemTime where
  nanos := 2 ^ 63 * nanosPerSec - 1
  lower := by decide
  upper := by decide

/-- The time so long before the latest one. -/
def SystemTime.ago (age : Duration) (h : age < 2 ^ 64 * nanosPerSec) : SystemTime where
  nanos := SystemTime.latest.nanos - age
  lower := by
    have hage : (age : Int) < 2 ^ 64 * nanosPerSec := by exact_mod_cast h
    show -(2 ^ 63) * (nanosPerSec : Int) ≤ 2 ^ 63 * nanosPerSec - 1 - age
    omega
  upper := by
    show 2 ^ 63 * (nanosPerSec : Int) - 1 - age < 2 ^ 63 * nanosPerSec
    omega

theorem SystemTime.durationSince_ago (age : Duration) (h : age < 2 ^ 64 * nanosPerSec) :
    SystemTime.latest.durationSince (SystemTime.ago age h) = some age := by
  have hle : (SystemTime.ago age h).nanos ≤ SystemTime.latest.nanos := by
    show SystemTime.latest.nanos - age ≤ SystemTime.latest.nanos
    omega
  unfold SystemTime.durationSince
  rw [if_pos hle]
  show some (SystemTime.latest.nanos - (SystemTime.latest.nanos - age)).toNat = some age
  rw [sub_sub_cancel, Int.toNat_natCast]

/-- An age between the period that is applied and the one that is configured. -/
theorem exists_age {days : Nat} (h : 2 ^ 64 ≤ days * secsPerDay) :
    ∃ age, age < 2 ^ 64 * nanosPerSec ∧ fromSecs (wrapped days) < age ∧
      age < fromSecs (days * secsPerDay) := by
  have hmod : wrapped days < 2 ^ 64 := Nat.mod_lt _ (by decide)
  have hlt := wrapped_lt h
  refine ⟨fromSecs (wrapped days) + 1, ?_, Nat.lt_succ_self _, ?_⟩ <;>
    unfold fromSecs nanosPerSec <;> omega

theorem days_pos {days : Nat} (h : 2 ^ 64 ≤ days * secsPerDay) : 0 < days := by
  rcases Nat.eq_zero_or_pos days with rfl | hpos
  · rw [Nat.zero_mul] at h
    exact absurd h (by decide)
  · exact hpos

/-! ## Archives -/

theorem extension_zip (stem : Chars) : extension (stem ++ ".zip".toList) ≠ some "etag".toList := by
  have hsplit : splitOnce '.' (stem ++ ".zip".toList).reverse =
      some ("piz".toList, stem.reverse) := by
    rw [List.reverse_append]
    rfl
  have hzip : some "zip".toList ≠ some "etag".toList := by decide
  unfold extension
  rw [hsplit]
  split
  · exact nofun
  · show (if stem.reverse = [] then none else some "zip".toList) ≠ some "etag".toList
    split
    · exact nofun
    · exact hzip

theorem sidecar_ne_zip (archive stem : Chars) : sidecar archive ≠ stem ++ ".zip".toList := by
  intro h
  have hlast := congrArg List.getLast? h
  rw [sidecar, List.getLast?_append, List.getLast?_append] at hlast
  have hchars : some 'g' = some 'p' := hlast
  exact absurd hchars (by decide)

/-- An archive is removed exactly when it is older than the maximal age. -/
theorem mem_evict_iff {blake3 : List UInt8 → Digest} {maxAge : Duration}
    {entries : List CacheEntry} (hnodup : (entries.map (·.name)).Nodup) {entry : CacheEntry}
    (hmem : entry ∈ entries) (harchive : IsArchive blake3 entry.name) :
    entry.name ∈ evict (some maxAge) entries ↔ ∃ age ∈ entry.age, maxAge < age := by
  obtain ⟨key, hname⟩ := harchive
  unfold evict
  rw [List.mem_flatMap]
  constructor
  · rintro ⟨other, hother, hremoved⟩
    split at hremoved
    · exact absurd hremoved List.not_mem_nil
    · split at hremoved
      · next hold =>
          have heq : other = entry := by
            rcases List.mem_pair.mp hremoved with hsame | hside
            · exact List.inj_on_of_nodup_map hnodup hother hmem hsame.symm
            · exact absurd (hside.symm.trans hname) (sidecar_ne_zip _ _)
          obtain ⟨age, hage, hlt⟩ := (Option.any_eq_true _ _).mp hold
          exact ⟨age, heq ▸ hage, of_decide_eq_true hlt⟩
      · exact absurd hremoved List.not_mem_nil
  · rintro ⟨age, hage, hlt⟩
    refine ⟨entry, hmem, ?_⟩
    rw [if_neg (hname ▸ extension_zip _), if_pos]
    · exact List.mem_cons_self
    · rw [hage]
      exact decide_eq_true hlt

theorem keepsArchives_iff (blake3 : List UInt8 → Digest) (days : Nat) :
    KeepsArchives blake3 days ↔ days * secsPerDay < 2 ^ 64 := by
  constructor
  · intro hkeeps
    by_contra hlarge
    have hlarge : 2 ^ 64 ≤ days * secsPerDay := Nat.le_of_not_lt hlarge
    obtain ⟨age, hrange, hold, hyoung⟩ := exists_age hlarge
    -- the only archive of a project, that old
    let entry : CacheEntry :=
      ⟨encodeKey blake3 [] ++ ".zip".toList, some (.ago age hrange), .latest⟩
    have hage : entry.age = some age := SystemTime.durationSince_ago age hrange
    have harchive : IsArchive blake3 entry.name := ⟨[], rfl⟩
    have hnodup : ([entry].map (·.name)).Nodup := List.nodup_singleton _
    refine hkeeps [entry] hnodup entry List.mem_cons_self harchive ?_ ?_
    · intro a ha
      obtain rfl := Option.some.inj (hage.symm.trans ha)
      exact hyoung
    · rw [withMaxAgeDays_eq, if_pos (days_pos hlarge)]
      exact (mem_evict_iff hnodup List.mem_cons_self harchive).mpr ⟨age, hage, hold⟩
  · intro hfits entries hnodup entry hmem harchive hyoung hremoved
    rw [withMaxAgeDays_eq, wrapped_of_lt hfits] at hremoved
    split at hremoved
    · obtain ⟨age, hage, hold⟩ := (mem_evict_iff hnodup hmem harchive).mp hremoved
      exact absurd (hyoung age hage) (Nat.not_lt_of_lt hold)
    · exact absurd hremoved List.not_mem_nil

/-! ## Workspaces -/

/-- A workspace is removed exactly when it is a directory not in use and idle for longer than the
maximal age. -/
theorem mem_evictWorkspaces_iff {maxAge : Duration} {inUse : List Workspaces.Name}
    {now : SystemTime} {entries : List BuildsEntry} (hnodup : (entries.map (·.path)).Nodup)
    {entry : BuildsEntry} (hmem : entry ∈ entries) :
    entry.path ∈ evictWorkspaces maxAge inUse now entries ↔
      entry.path ∉ inUse ∧ entry.isDir ∧ maxAge < entry.idle now := by
  have hfree : entry.path ∉ inUse ↔ !inUse.contains entry.path := by simp
  rw [hfree]
  unfold evictWorkspaces
  rw [List.mem_map]
  constructor
  · rintro ⟨other, hother, hpath⟩
    rw [List.mem_filter, decide_eq_true_eq] at hother
    obtain rfl := List.inj_on_of_nodup_map hnodup hother.1 hmem hpath
    exact hother.2
  · intro hcondition
    exact ⟨entry, List.mem_filter.mpr ⟨hmem, decide_eq_true hcondition⟩, rfl⟩

theorem keepsWorkspaces_iff (days : Nat) :
    KeepsWorkspaces days ↔ days * secsPerDay < 2 ^ 64 := by
  constructor
  · intro hkeeps
    by_contra hlarge
    have hlarge : 2 ^ 64 ≤ days * secsPerDay := Nat.le_of_not_lt hlarge
    obtain ⟨age, hrange, hold, hyoung⟩ := exists_age hlarge
    -- the only workspace, with a marker that old
    let entry : BuildsEntry := ⟨[], true, some (some (.ago age hrange)), none⟩
    have hage : SystemTime.latest.durationSince (.ago age hrange) = some age :=
      SystemTime.durationSince_ago age hrange
    have hidle : entry.idle .latest = age := by
      show (SystemTime.latest.durationSince (.ago age hrange)).getD 0 = age
      rw [hage, Option.getD_some]
    have hnodup : ([entry].map (·.path)).Nodup := List.nodup_singleton _
    refine hkeeps none [] .latest [entry] hnodup entry List.mem_cons_self ?_ ?_
    · intro used hused idle hsince
      obtain rfl := Option.some.inj hused
      obtain rfl := Option.some.inj (hage.symm.trans hsince)
      exact hyoung
    · unfold evictDue
      rw [if_pos ⟨days_pos hlarge, rfl⟩, maxAge_eq,
        mem_evictWorkspaces_iff hnodup List.mem_cons_self, hidle]
      exact ⟨List.not_mem_nil, rfl, hold⟩
  · intro hfits since inUse now entries hnodup entry hmem hyoung hremoved
    unfold evictDue at hremoved
    split at hremoved
    · rw [maxAge_eq, wrapped_of_lt hfits, mem_evictWorkspaces_iff hnodup hmem] at hremoved
      have hidle := hremoved.2.2
      unfold BuildsEntry.idle at hidle
      cases hsince : entry.used.bind now.durationSince with
      | none =>
          rw [hsince] at hidle
          exact absurd hidle (Nat.not_lt_zero _)
      | some idle =>
          rw [hsince] at hidle
          obtain ⟨used, hused, hdur⟩ := Option.bind_eq_some_iff.mp hsince
          exact absurd (hyoung used hused idle hdur) (Nat.not_lt_of_lt hidle)
    · exact absurd hremoved List.not_mem_nil

/-! ## Both periods -/

/-- **Nothing is removed within its retention period exactly when both periods have less than
`2^64` seconds.** -/
theorem keepsYoung_iff (blake3 : List UInt8 → Digest) (config : Config.RunnerConfig) :
    KeepsYoung blake3 config ↔
      config.cacheMaxAgeDays * secsPerDay < 2 ^ 64 ∧
        config.executor.workspaceMaxAgeDays * secsPerDay < 2 ^ 64 := by
  unfold KeepsYoung
  rw [keepsArchives_iff, keepsWorkspaces_iff]

theorem wrappingDays_lt : 2 ^ 57 < 2 ^ 64 := by decide

/-- A configuration that should keep archives and workspaces for `2^57` days. -/
def longRetention : Config.RunnerConfig :=
  { Config.RunnerConfig.default with runnerToken := "glrt-token".toList }.withRetention
    ⟨2 ^ 57, wrappingDays_lt⟩ ⟨2 ^ 57, wrappingDays_lt⟩

/-- **It is accepted, and a second of disuse is too long.** -/
theorem not_keepsYoung_accepted :
    (∀ outside, longRetention.validate outside = .ok ()) ∧
      ∀ blake3, ¬ KeepsArchives blake3 longRetention.cacheMaxAgeDays ∧
        ¬ KeepsWorkspaces longRetention.executor.workspaceMaxAgeDays := by
  let used : SystemTime := ⟨0, by decide, by decide⟩
  let now : SystemTime := ⟨nanosPerSec, by decide, by decide⟩
  refine ⟨fun outside => ?_, fun blake3 => ⟨fun hkeeps => ?_, fun hkeeps => ?_⟩⟩
  · exact (Config.validate_retention outside _ _ _).trans
      (Config.validate_default outside (by decide))
  · have harchive : IsArchive blake3 "default.zip".toList := by
      refine ⟨"default".toList, ?_⟩
      unfold encodeKey
      rw [if_neg (by decide)]
      decide
    refine hkeeps [⟨"default.zip".toList, some used, now⟩] (List.nodup_singleton _) _
      List.mem_cons_self harchive ?_ ?_
    · intro age hage
      obtain rfl := Option.some.inj hage
      decide
    · decide
  · refine hkeeps none [] now [⟨"project-7-0".toList, true, some (some used), some used⟩]
      (List.nodup_singleton _) _ List.mem_cons_self ?_ ?_
    · intro time htime idle hidle
      obtain rfl := Option.some.inj htime
      obtain rfl := Option.some.inj hidle
      decide
    · decide

end Retention

end TurboCi
