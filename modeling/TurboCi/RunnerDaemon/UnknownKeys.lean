import Mathlib.Data.List.Perm.Basic
import TurboCi.Lib.Serde
import TurboCi.RunnerDaemon.Config

set_option autoImplicit false

/-! # Unknown keys of the configuration

`RunnerConfig::parse` warns about the keys of a configuration file that it ignores
(`unknown_keys` in `runner_daemon/config.rs`). They are found by comparing the file with what the
configuration that was read from it is written as. The comparison goes into tables but not into
arrays, so it reports one by one the ignored keys that are not within an array (`walk_eq`), and
all of them when there are none in the tables of `[[executor.docker.services]]`
(`unknownKeys_iff`).

For the comparison the file is parsed a second time, to a `toml::Table`, whose integers are `i64`.
A field of the configuration may be a larger `u64`; then nothing is compared or reported.

A struct is read from a table, by the names of its fields; the syntax of TOML is left out.
-/

namespace TurboCi

open Serde

namespace Config.UnknownKeys

inductive Scalar where
  | string (text : Chars)
  | integer (n : Int)
  | float (x : F64)
  | boolean (b : Bool)
  | datetime (text : Chars)
  deriving DecidableEq

/-! ## The fields -/

section Fields

abbrev Field := Key × Schema Scalar × Option (Data Scalar)

def field (name : String) (schema : Schema Scalar) (default : Data Scalar) : Field :=
  (name.toList, schema, some default)

def required (name : String) (schema : Schema Scalar) : Field := (name.toList, schema, none)

def string : Schema Scalar :=
  .scalar fun
    | .string text => some (.string text)
    | _ => none

def boolean : Schema Scalar :=
  .scalar fun
    | .boolean b => some (.boolean b)
    | _ => none

/-- An integer from a range. -/
def integer (low high : Int) : Schema Scalar :=
  .scalar fun
    | .integer n => if low ≤ n ∧ n ≤ high then some (.integer n) else none
    | _ => none

def u32 : Schema Scalar := integer 0 (2 ^ 32 - 1)

def u64 : Schema Scalar := integer 0 (2 ^ 64 - 1)

def i64 : Schema Scalar := integer (-2 ^ 63) (2 ^ 63 - 1)

variable (asF64 : Int → F64)

/-- An `f64`, read from an integer too. -/
def f64 : Schema Scalar :=
  .scalar fun
    | .float x => some (.float x)
    | .integer n => some (.float (asF64 n))
    | _ => none

def text (s : String) : Data Scalar := .scalar (.string s.toList)

def number (n : Int) : Data Scalar := .scalar (.integer n)

def flag (b : Bool) : Data Scalar := .scalar (.boolean b)

/-- The struct with the defaults of its fields. -/
def defaults (fields : List Field) : Data Scalar :=
  .struct (fields.filterMap fun f => f.2.2.map (f.1, ·))

def s3CacheConfig : List Field := [
  required "url" string,
  required "access_key" string,
  required "secret_key" string,
  field "region" (.option string) .none]

def serviceConfig : List Field := [
  field "name" string (text ""),
  field "alias" (.option string) .none,
  field "entrypoint" (.option (.list string)) .none,
  field "command" (.option (.list string)) .none]

def dockerConfig : List Field := [
  field "builds_dir" (.option string) .none,
  field "default_image" string (text "alpine:latest"),
  field "privileged" boolean (flag false),
  field "volumes" (.list string) (.list []),
  field "network_mode" string (text "bridge"),
  field "pull_policy" string (text "always"),
  field "allowed_pull_policies" (.list string) (.list []),
  field "helper_image" string (text "alpine/git:latest"),
  field "memory" (.option string) .none,
  field "memory_swap" (.option string) .none,
  field "memory_reservation" (.option string) .none,
  field "cpus" (.option (f64 asF64)) .none,
  field "shm_size" (.option string) .none,
  field "oom_score_adjust" (.option i64) .none,
  field "services" (.list (.struct serviceConfig)) (.list []),
  field "auth_config_file" (.option string) .none,
  field "insecure_registries" (.list string) (.list []),
  field "registry_ca" (.map string) (.map [])]

def shellConfig : List Field := [
  field "work_dir" string (text "/tmp/turboci-builds")]

def executorConfig : List Field := [
  field "executor_type" string (text "docker"),
  field "workspace_max_age_days" u64 (number 7),
  field "docker" (.struct (dockerConfig asF64)) (defaults (dockerConfig asF64)),
  field "shell" (.struct shellConfig) (defaults shellConfig)]

def runnerConfig : List Field := [
  field "concurrent" u32 (number 4),
  field "check_interval" u64 (number 3),
  field "runner_token" string (text ""),
  field "gitlab_url" string (text "https://gitlab.com"),
  field "tls_ca_file" (.option string) .none,
  field "proxy" (.option string) .none,
  field "no_proxy" (.option string) .none,
  field "cache_enabled" boolean (flag true),
  field "cache_dir" string (text "/var/lib/turboci/cache"),
  field "cache_max_age_days" u64 (number 14),
  field "state_dir" string (text "/var/lib/turboci"),
  field "environment" (.list string) (.list []),
  field "pre_get_sources_script" (.option string) .none,
  field "post_get_sources_script" (.option string) .none,
  field "pre_build_script" (.option string) .none,
  field "post_build_script" (.option string) .none,
  field "cache_s3" (.option (.struct s3CacheConfig)) .none,
  field "executor" (.struct (executorConfig asF64)) (defaults (executorConfig asF64))]

end Fields

/-! ## The comparison -/

mutual

/-- `walk` of `unknown_keys` -/
def walk : List (Key × Value Scalar) → List (Key × Value Scalar) → Chars → List Chars
  | [], _, _ => []
  | (key, value) :: rest, known, pre =>
      walkValue value (known.lookup key) (pre ++ key) ++ walk rest known pre

/-- What one key of the given table adds, with its path. -/
def walkValue : Value Scalar → Option (Value Scalar) → Chars → List Chars
  | .table given, some (.table known), path => walk given known (path ++ ['.'])
  | _, some _, _ => []
  | _, none, path => [path]

end

/-- An integer of a `toml::Value` is an `i64`. -/
def Scalar.fits : Scalar → Bool
  | .integer n => -2 ^ 63 ≤ n && n < 2 ^ 63
  | _ => true

/-- A `toml::Table`, if its integers fit. -/
def toTable (entries : List (Key × Value Scalar)) : Option (List (Key × Value Scalar)) :=
  if (Value.table entries).all Scalar.fits then some entries else none

/-- `toml::Table::try_from` -/
def tryFrom (config : Data Scalar) : Option (List (Key × Value Scalar)) :=
  match serialize config with
  | some (.table known) => toTable known
  | _ => none

/-- `unknown_keys`, of the table that stands in the file. -/
def unknownKeys (given : List (Key × Value Scalar)) (config : Data Scalar) : List Chars :=
  match toTable given, tryFrom config with
  | some given, some known => walk given known []
  | _, _ => []

/-- `toml::from_str` -/
def fromToml (asF64 : Int → F64) (given : List (Key × Value Scalar)) : Option (Data Scalar) :=
  deserialize (.struct (runnerConfig asF64)) (.table given)

/-- The keys that are ignored when the file is read. -/
def ignoredKeys (asF64 : Int → F64) (given : List (Key × Value Scalar)) : List (List Serde.Step) :=
  ignored (.struct (runnerConfig asF64)) (.table given)

/-! ## Dotted paths -/

/-- The names after the first one. -/
def dottedTail (path : List Serde.Step) : Chars :=
  path.flatMap fun
    | .key name => '.' :: name
    | .item => []

/-- The names of a path to a key, with dots between them. -/
def dotted : List Serde.Step → Chars
  | .key name :: rest => name ++ dottedTail rest
  | .item :: rest => dotted rest
  | [] => []

/-- The key is within an array. -/
def inArray (path : List Serde.Step) : Bool := path.contains .item

def outside (paths : List (List Serde.Step)) : List (List Serde.Step) :=
  paths.filter (!inArray ·)

theorem inArray_cons (name : Key) (path : List Serde.Step) :
    inArray (.key name :: path) = inArray path := by
  have hne : (Step.item == Step.key name) = false := beq_false_of_ne (by simp)
  rw [inArray, inArray, List.contains_cons, hne, Bool.false_or]

theorem outside_map_key (name : Key) (paths : List (List Serde.Step)) :
    outside (paths.map (.key name :: ·)) = (outside paths).map (.key name :: ·) := by
  rw [outside, outside, List.filter_map]
  simp only [Function.comp_def, inArray_cons]

theorem outside_items {items : List (Value Scalar)} {inner : Schema Scalar} :
    outside (items.flatMap fun v => (ignored inner v).map (.item :: ·)) = [] := by
  apply List.filter_eq_nil_iff.mpr
  intro path hpath
  obtain ⟨v, -, hpath⟩ := List.mem_flatMap.mp hpath
  obtain ⟨rest, -, rfl⟩ := List.mem_map.mp hpath
  simp [inArray]

theorem outside_append (paths more : List (List Serde.Step)) :
    outside (paths ++ more) = outside paths ++ outside more := List.filter_append ..

theorem head_of_wasRead {known : List (Key × Value Scalar)} {key : Key} {value : Value Scalar}
    {paths : List (List Serde.Step)} (h : WasRead known key value paths) :
    ∀ path ∈ paths, ∃ rest, path = .key key :: rest := by
  intro path hpath
  cases h with
  | ignored _ => exact ⟨[], List.mem_singleton.mp hpath⟩
  | read _ _ =>
      obtain ⟨rest, -, rfl⟩ := List.mem_map.mp hpath
      exact ⟨rest, rfl⟩

/-! ## What is reported -/

/-- Below a table, the path goes on with a dot. -/
theorem map_dottedTail {known : List (Key × Value Scalar)} {given : List (Key × Value Scalar)}
    {found : Key × Value Scalar → List (List Serde.Step)}
    (hread : ∀ entry ∈ given, WasRead known entry.1 entry.2 (found entry)) (path : Chars) :
    (outside (given.flatMap found)).map (fun p => (path ++ ['.']) ++ dotted p) =
      (outside (given.flatMap found)).map (path ++ dottedTail ·) := by
  apply List.map_congr_left
  intro p hp
  obtain ⟨entry, hentry, hp⟩ := List.mem_flatMap.mp (List.mem_of_mem_filter hp)
  obtain ⟨rest, rfl⟩ := head_of_wasRead (hread entry hentry) p hp
  simp [dotted, dottedTail]

mutual

/-- **The comparison reports what is ignored outside of arrays.** The induction is on the given
value; what an entry of a table was read as is said by `WasRead`. -/
theorem walk_eq : ∀ {given known : List (Key × Value Scalar)}
    {found : Key × Value Scalar → List (List Serde.Step)} (pre : Chars),
    distinctEntries given → (∀ entry ∈ given, WasRead known entry.1 entry.2 (found entry)) →
    walk given known pre = (outside (given.flatMap found)).map (pre ++ dotted ·)
  | [], _, _, _, _, _ => by
      rw [walk]
      rfl
  | (key, value) :: rest, known, found, pre, hdistinct, hread => by
      rw [distinctEntries] at hdistinct
      rw [walk, List.flatMap_cons, outside_append, List.map_append,
        walk_eq pre hdistinct.2 fun entry hentry => hread entry (List.mem_cons_of_mem _ hentry)]
      congr 1
      have hfirst : WasRead known key value (found (key, value)) :=
        hread (key, value) List.mem_cons_self
      revert hfirst
      generalize found (key, value) = paths
      intro hfirst
      cases hfirst with
      | ignored hnone =>
          rw [hnone]
          simp [walkValue, outside, inArray, dotted, dottedTail]
      | read hdata hlookup =>
          rw [hlookup, walkValue_eq (pre ++ key) hdistinct.1 hdata, outside_map_key, List.map_map]
          apply List.map_congr_left
          intro p _
          show pre ++ key ++ dottedTail p = pre ++ (key ++ dottedTail p)
          rw [List.append_assoc]

theorem walkValue_eq : ∀ {value : Value Scalar} {schema : Schema Scalar} {data : Data Scalar}
    (path : Chars), value.Distinct → deserialize schema value = some data →
    walkValue value (serialize data) path =
      (outside (ignored schema value)).map (path ++ dottedTail ·)
  | .scalar x, schema, data, path, _, h => by
      obtain ⟨written, hwritten⟩ := exists_serialize h
      rcases read_cases h with ⟨_, _, -, -, hignored⟩ | ⟨_, _, _, hvalue, -⟩ |
        ⟨_, _, _, hvalue, -⟩ | ⟨_, _, _, hvalue, -⟩
      · rw [hwritten, hignored, walkValue]
        · rfl
        · exact nofun
      · cases hvalue
      · cases hvalue
      · cases hvalue
  | .array items, schema, data, path, _, h => by
      obtain ⟨written, hwritten⟩ := exists_serialize h
      rcases read_cases h with ⟨_, _, hvalue, -⟩ | ⟨_, _, _, hvalue, -, hignored⟩ |
        ⟨_, _, _, hvalue, -⟩ | ⟨_, _, _, hvalue, -⟩
      · cases hvalue
      · obtain rfl := Value.array.inj hvalue
        -- the comparison does not go into an array
        rw [hwritten, hignored, outside_items, walkValue]
        · rfl
        · exact nofun
      · cases hvalue
      · cases hvalue
  | .table given, schema, data, path, hdistinct, h => by
      rw [Value.Distinct] at hdistinct
      have hfound : ∀ entry ∈ given, given.lookup entry.1 = some entry.2 :=
        fun entry hentry => lookup_of_mem hdistinct.1 hentry
      rcases read_cases h with ⟨_, _, hvalue, -⟩ | ⟨_, _, _, hvalue, -⟩ |
        ⟨entries, inner, read, hvalue, hread, hwritten, hignored⟩ |
        ⟨entries, fields, read, hvalue, hread, hwritten, hignored⟩
      · cases hvalue
      · cases hvalue
      · obtain rfl := Value.table.inj hvalue
        have hall : ∀ entry ∈ given, WasRead (serializeEntries read) entry.1 entry.2
            ((ignored inner entry.2).map (.key entry.1 :: ·)) :=
          fun entry hentry => wasRead_entry (hfound entry hentry) hread
        rw [hwritten, hignored, walkValue, walk_eq _ hdistinct.2 hall, map_dottedTail hall]
      · obtain rfl := Value.table.inj hvalue
        have hall : ∀ entry ∈ given, WasRead (serializeEntries read) entry.1 entry.2
            (ignoredField fields entry.1 entry.2) :=
          fun entry hentry => wasRead_field (hfound entry hentry) hread
        rw [hwritten, hignored, walkValue, walk_eq _ hdistinct.2 hall, map_dottedTail hall]

end

section Fits

theorem keeps_string : string.Keeps Scalar.fits := by
  intro x y _ h
  cases x <;> simp at h
  rw [← h]
  rfl

theorem keeps_boolean : boolean.Keeps Scalar.fits := by
  intro x y _ h
  cases x <;> simp at h
  rw [← h]
  rfl

theorem keeps_integer (low high : Int) : (integer low high).Keeps Scalar.fits := by
  intro x y hx h
  cases x with
  | integer n =>
      have hy : .integer n = y := by simpa using (Option.ite_none_right_eq_some.mp h).2
      rw [← hy]
      exact hx
  | string _ => cases h
  | float _ => cases h
  | boolean _ => cases h
  | datetime _ => cases h

theorem keeps_f64 (asF64 : Int → F64) : (f64 asF64).Keeps Scalar.fits := by
  intro x y _ h
  cases x <;> simp at h <;> rw [← h] <;> rfl

/-- The defaults fit, and so does what is read of integers that fit. -/
theorem keeps_runnerConfig (asF64 : Int → F64) :
    (Schema.struct (runnerConfig asF64)).Keeps Scalar.fits := by
  simp only [runnerConfig, executorConfig, dockerConfig, shellConfig, serviceConfig, s3CacheConfig,
    field, required, u32, u64, i64, Schema.Keeps, keepsFields, keeps_string, keeps_boolean,
    keeps_integer, keeps_f64, Option.mem_def, Option.some.injEq, forall_eq', reduceCtorEq,
    false_imp_iff, implies_true, and_true, true_and]
  -- each default is a value that fits
  and_intros <;> rfl

end Fits

/-- Where the file's integers fit, what is ignored outside of arrays is reported. -/
theorem unknownKeys_eq {asF64 : Int → F64} {given : List (Key × Value Scalar)}
    {config : Data Scalar} (hdistinct : (Value.table given).Distinct)
    (hfits : (Value.table given).all Scalar.fits = true) (h : fromToml asF64 given = some config) :
    unknownKeys given config = (outside (ignoredKeys asF64 given)).map dotted := by
  have hconfig := all_deserialize _ (keeps_runnerConfig asF64) hfits h
  rw [Value.Distinct] at hdistinct
  rw [fromToml, deserialize] at h
  obtain ⟨read, hread, rfl⟩ := Option.map_eq_some_iff.mp h
  have hall : ∀ entry ∈ given, WasRead (serializeEntries read) entry.1 entry.2
      (ignoredField (runnerConfig asF64) entry.1 entry.2) :=
    fun entry hentry => wasRead_field (lookup_of_mem hdistinct.1 hentry) hread
  have hknown : (Value.table (serializeEntries read)).all Scalar.fits = true :=
    all_serialize _ hconfig (by rw [serialize])
  have htry : tryFrom (.struct read) = some (serializeEntries read) := by
    rw [tryFrom, serialize]
    exact if_pos hknown
  rw [unknownKeys, toTable, if_pos hfits, htry, ignoredKeys, ignored]
  exact walk_eq [] hdistinct.2 hall

/-- Otherwise nothing is. -/
theorem unknownKeys_of_not_fits {given : List (Key × Value Scalar)} {config : Data Scalar}
    (h : (Value.table given).all Scalar.fits = false) : unknownKeys given config = [] := by
  rw [unknownKeys, toTable, if_neg (by rw [h]; exact Bool.false_ne_true)]

/-- **Every ignored key is reported, and nothing else, as long as none is within an array and all
integers of the file are `i64`.** The arrays with tables are those of
`[[executor.docker.services]]`. -/
theorem unknownKeys_iff (asF64 : Int → F64) (given : List (Key × Value Scalar))
    (config : Data Scalar) (hdistinct : (Value.table given).Distinct)
    (h : fromToml asF64 given = some config) :
    (unknownKeys given config).Perm ((ignoredKeys asF64 given).map dotted) ↔
      ignoredKeys asF64 given = [] ∨ ((Value.table given).all Scalar.fits = true ∧
        ∀ path ∈ ignoredKeys asF64 given, inArray path = false) := by
  by_cases hfits : (Value.table given).all Scalar.fits = true
  · rw [unknownKeys_eq hdistinct hfits h]
    constructor
    · intro hperm
      -- as many keys are outside of arrays as there are at all
      have hlength := hperm.length_eq
      rw [List.length_map, List.length_map, outside] at hlength
      refine .inr ⟨hfits, fun path hpath => ?_⟩
      have hout := List.length_filter_eq_length_iff.mp hlength path hpath
      simpa using hout
    · intro hnone
      have hall : outside (ignoredKeys asF64 given) = ignoredKeys asF64 given := by
        apply List.filter_eq_self.mpr
        intro path hpath
        rcases hnone with hnone | ⟨-, hnone⟩
        · rw [hnone] at hpath
          cases hpath
        · rw [hnone path hpath]
          rfl
      rw [hall]
  · rw [unknownKeys_of_not_fits (Bool.eq_false_iff.mpr hfits), List.nil_perm, List.map_eq_nil_iff]
    exact (or_iff_left fun h => hfits h.1).symm

def scalarText (s : String) : Value Scalar := .scalar (.string s.toList)

/-- A file with a service whose image is set by an unknown key, and other unknown keys. -/
def fileWith (service : List (Key × Value Scalar)) : List (Key × Value Scalar) := [
  ("cache_ttl_seconds".toList, .scalar (.integer 60)),
  ("executor".toList, .table [
    ("docker".toList, .table [
      ("image".toList, scalarText "x"),
      ("services".toList, .array [.table service])])]),
  ("runner_token".toList, scalarText "t")]

theorem distinct_fileWith {service : List (Key × Value Scalar)}
    (h : (Value.table service).Distinct) : (Value.table (fileWith service)).Distinct := by
  have htop : ["cache_ttl_seconds".toList, "executor".toList, "runner_token".toList].Nodup := by
    decide
  have hexecutor : ["docker".toList].Nodup := by decide
  have hdocker : ["image".toList, "services".toList].Nodup := by decide
  exact ⟨htop, trivial, ⟨hexecutor, ⟨hdocker, trivial, ⟨h, trivial⟩, trivial⟩, trivial⟩,
    trivial, trivial⟩

def exactF64 (n : Int) : F64 := .finite n

/-- The file of the repository's test, with a service. -/
theorem unknownKeys_service :
    ∃ config, fromToml exactF64 (fileWith [("name".toList, scalarText "postgres")]) = some config ∧
      (unknownKeys (fileWith [("name".toList, scalarText "postgres")]) config).Perm
        ["cache_ttl_seconds".toList, "executor.docker.image".toList] := by
  obtain ⟨config, hconfig⟩ := Option.isSome_iff_exists.mp (show
    (fromToml exactF64 (fileWith [("name".toList, scalarText "postgres")])).isSome = true by decide)
  have hdistinct : (Value.table (fileWith [("name".toList, scalarText "postgres")])).Distinct :=
    distinct_fileWith ⟨by decide, trivial, trivial⟩
  have hkeys : ignoredKeys exactF64 (fileWith [("name".toList, scalarText "postgres")]) = [
      [.key "cache_ttl_seconds".toList],
      [.key "executor".toList, .key "docker".toList, .key "image".toList]] := by
    decide
  refine ⟨config, hconfig, ?_⟩
  have hreported := (unknownKeys_iff exactF64 _ config hdistinct hconfig).mpr (by
    rw [hkeys]
    refine .inr ⟨by decide, fun path hpath => ?_⟩
    rcases List.mem_cons.mp hpath with rfl | hpath
    · decide
    · rw [List.mem_singleton.mp hpath]
      decide)
  rw [hkeys] at hreported
  exact hreported

/-- A key within a service is ignored and not reported. -/
theorem unknownKey_in_service :
    ∃ service config, (Value.table (fileWith service)).Distinct ∧
      fromToml exactF64 (fileWith service) = some config ∧
      [.key "executor".toList, .key "docker".toList, .key "services".toList, .item,
        .key "imagee".toList] ∈ ignoredKeys exactF64 (fileWith service) ∧
      ¬ (unknownKeys (fileWith service) config).Perm
        ((ignoredKeys exactF64 (fileWith service)).map dotted) := by
  let service := [("imagee".toList, scalarText "postgres:16"), ("name".toList, scalarText "db")]
  obtain ⟨config, hconfig⟩ := Option.isSome_iff_exists.mp (show
    (fromToml exactF64 (fileWith service)).isSome = true by decide)
  have hdistinct : (Value.table (fileWith service)).Distinct :=
    distinct_fileWith ⟨by decide, trivial, trivial, trivial⟩
  have hkeys : ignoredKeys exactF64 (fileWith service) = [
      [.key "cache_ttl_seconds".toList],
      [.key "executor".toList, .key "docker".toList, .key "image".toList],
      [.key "executor".toList, .key "docker".toList, .key "services".toList, .item,
        .key "imagee".toList]] := by
    decide
  refine ⟨service, config, hdistinct, hconfig, ?_, fun hperm => ?_⟩
  · rw [hkeys]
    exact List.mem_cons_of_mem _ (List.mem_cons_of_mem _ (List.mem_singleton_self _))
  · -- two keys are reported of three
    have hlength := hperm.length_eq
    rw [unknownKeys_eq hdistinct (by decide) hconfig, hkeys] at hlength
    revert hlength
    decide

end Config.UnknownKeys

end TurboCi
