import TurboCi.Lib.FileSystem
import TurboCi.Lib.Utf8Lossy
import TurboCi.RunnerDaemon.AppliedConfig

set_option autoImplicit false

/-! # Which configurations are accepted

The values of the configuration that `validate` rejects (`runner_daemon/config.rs`), the location
of an S3 cache among them (`runner_daemon/s3.rs`). The URL parser and the PEM files of registries
are `Outside`.

The retention periods are not looked at (`validate_retention`): with any of them the configuration
is accepted as before.
-/

namespace TurboCi

open FileSystem Utf8

namespace Config

/-- A URL as `Url::parse` takes it apart. -/
structure Url where
  scheme : Chars
  username : Chars := []
  password : Option Chars := none
  host : Option Chars := none
  port : Option Nat := none
  path : Chars := ['/']
  query : Option Chars := none
  fragment : Option Chars := none
  deriving DecidableEq

/-- What `validate` asks the rest of the world. -/
structure Outside where
  parseUrl : Chars → Option Url
  /-- how many certificates a PEM file holds, for a file that can be read -/
  certificates : Chars → Option Nat

/-! ## Errors -/

inductive S3Error where
  | unparsable
  | credentials
  | form (url : Chars)
  | bucketMissing (url : Chars)
  | emptyRegion
  deriving DecidableEq

/-- What is wrong, with the values that the message names. -/
inductive ConfigError where
  | runnerTokenEmpty
  | gitlabUrl (url : Chars)
  | concurrentZero
  | checkIntervalZero
  /-- the value is not shown -/
  | proxy
  | noProxyNeedsProxy
  | unknownUnit (field value : Chars)
  | invalidSize (field value : Chars)
  | sizeTooLarge (field value : Chars)
  | negativeSize
  | swapBelowMemory
  | swapNeedsMemory
  | cpus
  | oomScoreAdjust
  | pullPolicy (policy : Chars)
  | buildsDir (dir : Chars)
  | serviceWithoutName (service : ServiceConfig)
  | volume (volume : Chars)
  | registry (host : Chars)
  | registryCaRelative (file registry : Chars)
  | registryCaUnreadable (file registry : Chars)
  | registryCaEmpty (file registry : Chars)
  | environment (entry : Chars)
  | s3 (e : S3Error)
  | s3Keys
  | executorType (other : Chars)
  deriving DecidableEq

/-- `anyhow::bail!` under a condition. -/
def bailIf {ε : Type} (bad : Bool) (e : ε) : Except ε Unit := if bad then .error e else .ok ()

theorem bailIf_bind_ok {ε α : Type} {bad : Bool} {e : ε} {next : Except ε α} {a : α} :
    (do bailIf bad e; next) = .ok a ↔ bad = false ∧ next = .ok a := by
  cases bad with
  | true => exact ⟨fun h => (by cases h), fun h => (by cases h.1)⟩
  | false => exact ⟨fun h => ⟨rfl, h⟩, fun h => h.2⟩

/-- The first element that is wrong is an error. -/
def bailAt {α ε : Type} (bad : Option α) (e : α → ε) : Except ε Unit :=
  match bad with
  | some a => .error (e a)
  | none => .ok ()

/-! ## The S3 location -/

structure S3Location where
  endpoint : Url
  bucket : List UInt8
  pre : List UInt8
  region : Chars
  deriving DecidableEq

/-- A digit of `from_str_radix(_, 16)`. -/
def hexValue (b : UInt8) : Option UInt8 :=
  if 0x30 ≤ b ∧ b ≤ 0x39 then some (b - 0x30)
  else if 0x41 ≤ b ∧ b ≤ 0x46 then some (b - 0x41 + 10)
  else if 0x61 ≤ b ∧ b ≤ 0x66 then some (b - 0x61 + 10)
  else none

/-- `u8::from_str_radix(hex, 16)` for two bytes, the first of which may be a `+`. -/
def fromStrRadix16 (a b : UInt8) : Option UInt8 :=
  if a = 0x2B then hexValue b
  else (hexValue a).bind fun high => (hexValue b).map fun low => 16 * high + low

/-- The byte that `%` and the next two bytes stand for; a slice would have to end between two
characters. -/
def escaped : List UInt8 → Option UInt8
  | a :: b :: rest =>
      if rest.head?.all isFirst then fromStrRadix16 a b else none
  | _ => none

/-- `percent_decode` up to the reading as UTF-8, skipping the next `k` bytes. -/
def percentDecodeFrom : Nat → List UInt8 → List UInt8
  | _, [] => []
  | k + 1, _ :: rest => percentDecodeFrom k rest
  | 0, b :: rest =>
      match if b = 0x25 then escaped rest else none with
      | some byte => byte :: percentDecodeFrom 2 rest
      | none => b :: percentDecodeFrom 0 rest

/-- `percent_decode` -/
def percentDecode (text : Chars) : List UInt8 :=
  fromUtf8Lossy (percentDecodeFrom 0 (encode text))

/-- `str::trim_matches` -/
def trimMatches (c : Char) (cs : Chars) : Chars :=
  ((cs.dropWhile (· = c)).reverse.dropWhile (· = c)).reverse

/-- `str::strip_suffix` -/
def stripSuffix (suffix cs : Chars) : Option Chars :=
  (stripPrefix suffix.reverse cs.reverse).map List.reverse

/-- The signing region that a host of Amazon names. -/
def hostRegion (host : Chars) : Chars :=
  (((stripSuffix ".amazonaws.com".toList host).bind fun rest =>
    (stripPrefix "s3.".toList rest).or (stripPrefix "s3-".toList rest)).filter
      fun region => region ≠ [] ∧ '.' ∉ region).getD "us-east-1".toList

def S3Location.parse (outside : Outside) (url : Chars) (region : Option Chars) :
    Except S3Error S3Location :=
  match outside.parseUrl url with
  | none => .error .unparsable
  | some parsed => do
      bailIf (parsed.username ≠ [] || parsed.password.isSome) .credentials
      bailIf (!(["http".toList, "https".toList].contains parsed.scheme) || parsed.host.isNone)
        (.form url)
      let path := trimMatches '/' parsed.path
      let (bucket, pre) := (splitOnce '/' path).getD (path, [])
      bailIf (bucket = []) (.bucketMissing url)
      bailIf (region.map trim = some []) .emptyRegion
      return {
        endpoint := { parsed with path := ['/'], query := none, fragment := none }
        bucket := percentDecode bucket
        pre := percentDecode (trimMatches '/' pre)
        region := (region.map trim).getD (hostRegion (parsed.host.getD [])) }

/-! ## Sizes -/

/-- `str::parse::<i64>` for ASCII digits. -/
def parseDigits (digits : Chars) : Option Int :=
  let n := digits.foldl (fun n c => 10 * n + (c.toNat - '0'.toNat)) 0
  if digits ≠ [] ∧ n < 2 ^ 63 then some n else none

/-- The factor of a unit. -/
def multiplier (unit : Chars) : Option Int :=
  if [[], "b".toList].contains unit then some 1
  else if ["k".toList, "kb".toList].contains unit then some (2 ^ 10)
  else if ["m".toList, "mb".toList].contains unit then some (2 ^ 20)
  else if ["g".toList, "gb".toList].contains unit then some (2 ^ 30)
  else none

/-- A size such as `512m` in bytes. -/
def parseSize (field value : Chars) : Except ConfigError Int :=
  let value := (trim value).map Char.toLower
  if value = "-1".toList then .ok (-1)
  else
    match multiplier (value.dropWhile Char.isDigit) with
    | none => .error (.unknownUnit field value)
    | some factor =>
        match parseDigits (value.takeWhile Char.isDigit) with
        | none => .error (.invalidSize field value)
        | some number =>
            if number * factor < 2 ^ 63 then .ok (number * factor)
            else .error (.sizeTooLarge field value)

/-- `DockerConfig::size` -/
def size (field : Chars) (value : Option Chars) : Except ConfigError (Option Int) :=
  match value with
  | none => .ok none
  | some value => (parseSize ("executor.docker.".toList ++ field) value).map some

/-! ## What is accepted -/

/-- `host` or `host:port`, without a scheme or a path. -/
def validRegistry (host : Chars) : Bool :=
  host ≠ [] && '/' ∉ host && !host.any isWhitespace

def DockerConfig.memoryBytes (docker : DockerConfig) : Except ConfigError (Option Int) :=
  size "memory".toList docker.memory

def DockerConfig.memorySwapBytes (docker : DockerConfig) : Except ConfigError (Option Int) :=
  size "memory_swap".toList docker.memorySwap

def DockerConfig.memoryReservationBytes (docker : DockerConfig) :
    Except ConfigError (Option Int) :=
  size "memory_reservation".toList docker.memoryReservation

def DockerConfig.shmSizeBytes (docker : DockerConfig) : Except ConfigError (Option Int) :=
  size "shm_size".toList docker.shmSize

/-- Not finite, not positive or above 1024. -/
def F64.invalidCpus : F64 → Bool
  | .finite value => value ≤ 0 || 1024 < value
  | _ => true

/-- The sizes of a Docker configuration, and how they go together. -/
def DockerConfig.validateSizes (docker : DockerConfig) : Except ConfigError Unit := do
  let memory ← docker.memoryBytes
  let reservation ← docker.memoryReservationBytes
  let shm ← docker.shmSizeBytes
  bailIf ([memory, reservation, shm].any fun size => size.any (· < 0)) .negativeSize
  let swap ← docker.memorySwapBytes
  match swap, memory with
  | some swap, some memory => bailIf (swap ≠ -1 && swap < memory) .swapBelowMemory
  | swap, _ => bailIf (swap.any (· ≠ -1)) .swapNeedsMemory

/-- The file of a registry's CA. -/
def validateRegistryCa (outside : Outside) (ca : Chars × Chars) : Except ConfigError Unit :=
  if isAbsolute ca.2 then
    match outside.certificates ca.2 with
    | none => .error (.registryCaUnreadable ca.2 ca.1)
    | some count => bailIf (count = 0) (.registryCaEmpty ca.2 ca.1)
  else .error (.registryCaRelative ca.2 ca.1)

def DockerConfig.validate (outside : Outside) (docker : DockerConfig) :
    Except ConfigError Unit := do
  docker.validateSizes
  bailIf (docker.cpus.any F64.invalidCpus) .cpus
  bailIf (docker.oomScoreAdjust.any fun score => ¬ (-1000 ≤ score ∧ score ≤ 1000)) .oomScoreAdjust
  bailAt ((docker.pullPolicy :: docker.allowedPullPolicies).find? fun policy =>
    !(["always".toList, "if-not-present".toList, "never".toList].contains policy)) .pullPolicy
  bailAt (docker.buildsDir.filter fun dir => !isAbsolute dir) .buildsDir
  bailAt (docker.services.find? fun service => trim service.name = []) .serviceWithoutName
  bailAt (docker.volumes.find? fun volume => !isAbsolute volume && ':' ∉ volume) .volume
  bailAt ((docker.insecureRegistries ++ docker.registryCa.map (·.1)).find? fun host =>
    !validRegistry host) .registry
  docker.registryCa.forM (validateRegistryCa outside)

/-- `proxy` and `no_proxy` -/
def validateProxy (outside : Outside) (proxy noProxy : Option Chars) : Except ConfigError Unit :=
  match proxy with
  | some proxy =>
      bailIf (!(outside.parseUrl proxy).any fun url =>
        ["http".toList, "https".toList].contains url.scheme && url.host.isSome) .proxy
  | none => bailIf noProxy.isSome .noProxyNeedsProxy

def validateS3 (outside : Outside) (s3 : S3CacheConfig) : Except ConfigError Unit := do
  let _ ← (S3Location.parse outside s3.url s3.region).mapError .s3
  bailIf (trim s3.accessKey = [] || trim s3.secretKey = []) .s3Keys

/-- An entry of `environment` that is not `KEY=value`. -/
def badEntry (entry : Chars) : Bool := (splitOnce '=' entry).all fun kv => trim kv.1 = []

/-- Rejects values that the runner cannot work with. -/
def RunnerConfig.validate (outside : Outside) (config : RunnerConfig) :
    Except ConfigError Unit := do
  bailIf (trim config.runnerToken = []) .runnerTokenEmpty
  bailIf (!("https://".toList.isPrefixOf config.gitlabUrl ||
    "http://".toList.isPrefixOf config.gitlabUrl)) (.gitlabUrl config.gitlabUrl)
  bailIf (config.concurrent = 0) .concurrentZero
  bailIf (config.checkInterval.val = 0) .checkIntervalZero
  validateProxy outside config.proxy config.noProxy
  config.executor.docker.validate outside
  bailAt (config.environment.find? badEntry) .environment
  match config.cacheS3 with
  | some s3 => validateS3 outside s3
  | none => .ok ()
  bailIf (!(["docker".toList, "shell".toList].contains config.executor.executorType))
    (.executorType config.executor.executorType)

/-- The configuration with other retention periods. -/
def RunnerConfig.withRetention (config : RunnerConfig) (cacheDays workspaceDays : U64) :
    RunnerConfig :=
  { config with
    cacheMaxAgeDays := cacheDays
    executor := { config.executor with workspaceMaxAgeDays := workspaceDays } }

/-- **Every retention period is accepted.** -/
theorem validate_retention (outside : Outside) (config : RunnerConfig)
    (cacheDays workspaceDays : U64) :
    (config.withRetention cacheDays workspaceDays).validate outside = config.validate outside :=
  rfl

/-- The defaults lack only the token. -/
theorem validate_default (outside : Outside) {token : Chars} (h : trim token ≠ []) :
    { RunnerConfig.default with runnerToken := token }.validate outside = .ok () := by
  unfold RunnerConfig.validate bailIf
  rw [if_neg (by simpa using h)]
  rfl

end Config

end TurboCi
