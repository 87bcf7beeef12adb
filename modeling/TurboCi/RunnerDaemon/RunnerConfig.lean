import Mathlib.Algebra.Group.Nat.Defs
import TurboCi.Gitlab.Job

set_option autoImplicit false

/-! # The runner's configuration

The TOML configuration with its defaults (`runner_daemon/config.rs`).
-/

namespace TurboCi

namespace Config

/-- An `f64`. -/
inductive F64 where
  | nan
  | infinity (negative : Bool)
  | finite (value : Rat)
  deriving DecidableEq

/-- A `u64`. -/
abbrev U64 := Fin (2 ^ 64)

/-- `[cache_s3]` -/
structure S3CacheConfig where
  url : Chars
  accessKey : Chars
  secretKey : Chars
  region : Option Chars := none
  deriving DecidableEq

/-- A service in `[[executor.docker.services]]`. -/
structure ServiceConfig where
  name : Chars := []
  serviceAlias : Option Chars := none
  entrypoint : Option (List Chars) := none
  command : Option (List Chars) := none
  deriving DecidableEq

structure DockerConfig where
  buildsDir : Option Chars := none
  defaultImage : Chars := "alpine:latest".toList
  privileged : Bool := false
  volumes : List Chars := []
  networkMode : Chars := "bridge".toList
  pullPolicy : Chars := "always".toList
  allowedPullPolicies : List Chars := []
  helperImage : Chars := "alpine/git:latest".toList
  memory : Option Chars := none
  memorySwap : Option Chars := none
  memoryReservation : Option Chars := none
  cpus : Option F64 := none
  shmSize : Option Chars := none
  oomScoreAdjust : Option Int := none
  services : List ServiceConfig := []
  authConfigFile : Option Chars := none
  insecureRegistries : List Chars := []
  /-- in the order of the registries -/
  registryCa : List (Chars × Chars) := []
  deriving DecidableEq

structure ExecutorConfig where
  executorType : Chars := "docker".toList
  /-- workspaces that no job used for this many days are deleted, with 0 every workspace when
  its job ends -/
  workspaceMaxAgeDays : U64 := ⟨7, by decide⟩
  docker : DockerConfig := {}
  shellWorkDir : Chars := "/tmp/turboci-builds".toList

structure RunnerConfig where
  concurrent : Nat := 4
  checkInterval : U64 := ⟨3, by decide⟩
  runnerToken : Chars := []
  gitlabUrl : Chars := "https://gitlab.com".toList
  tlsCaFile : Option Chars := none
  proxy : Option Chars := none
  noProxy : Option Chars := none
  cacheEnabled : Bool := true
  cacheDir : Chars := "/var/lib/turboci/cache".toList
  /-- archives that were not used for this many days are deleted, with 0 none is -/
  cacheMaxAgeDays : U64 := ⟨14, by decide⟩
  stateDir : Chars := "/var/lib/turboci".toList
  environment : List Chars := []
  preGetSourcesScript : Option Chars := none
  postGetSourcesScript : Option Chars := none
  preBuildScript : Option Chars := none
  postBuildScript : Option Chars := none
  cacheS3 : Option S3CacheConfig := none
  executor : ExecutorConfig := {}

/-- `RunnerConfig::default` -/
def RunnerConfig.default : RunnerConfig := {}

end Config

end TurboCi
