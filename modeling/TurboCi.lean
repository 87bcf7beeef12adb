import TurboCi.Security.JobSecrets
import TurboCi.Security.Chunking
import TurboCi.RunnerDaemon.TraceProtocol
import TurboCi.RunnerDaemon.JobRun
import TurboCi.RunnerDaemon.MainLoop
import TurboCi.RunnerDaemon.Workspaces
import TurboCi.Lib.Runs
import TurboCi.Security.StreamLeak
import TurboCi.RunnerDaemon.JobCache
import TurboCi.Lib.PathWalk
import TurboCi.Lib.Confined
import TurboCi.Lib.Prog
import TurboCi.RunnerDaemon.ExtractedLinks
import TurboCi.RunnerDaemon.ExtractedBytes
import TurboCi.RunnerDaemon.Slots
import TurboCi.RunnerDaemon.CacheNames
import TurboCi.RunnerDaemon.StepOutcome
import TurboCi.RunnerDaemon.FinalReport
import TurboCi.RunnerDaemon.Breaker
import TurboCi.RunnerDaemon.CacheFaults
import TurboCi.RunnerDaemon.Docker
import TurboCi.RunnerDaemon.DockerLeftovers
import TurboCi.RunnerDaemon.DockerDaemon
import TurboCi.RunnerDaemon.DockerOwners
import TurboCi.Lib.Layouts
import TurboCi.RunnerDaemon.Collecting
import TurboCi.RunnerDaemon.SaveRestore
import TurboCi.RunnerDaemon.Decoder
import TurboCi.Security.DrawBack
import TurboCi.RunnerDaemon.TraceLimit
import TurboCi.Lib.ShellLex
import TurboCi.RunnerDaemon.Git
import TurboCi.RunnerDaemon.ShellScripts
import TurboCi.RunnerDaemon.FileVariables
import TurboCi.RunnerDaemon.CacheVolumes
import TurboCi.RunnerDaemon.TokenRotation
import TurboCi.RunnerDaemon.Expansion
import TurboCi.RunnerDaemon.JobVariables
import TurboCi.RunnerDaemon.ClonePath
import TurboCi.RunnerDaemon.ServiceEnv
import TurboCi.RunnerDaemon.ServiceSecrets
import TurboCi.RunnerDaemon.ServiceLeaks
import TurboCi.Security.Transparent
import TurboCi.Security.PendingLimit
import TurboCi.RunnerDaemon.Templates
import TurboCi.RunnerDaemon.LastDefinition
import TurboCi.RunnerDaemon.CancelSteps
import TurboCi.RunnerDaemon.TokenTimes
import TurboCi.RunnerDaemon.Config
import TurboCi.RunnerDaemon.Retention
import TurboCi.RunnerDaemon.NoProxy
import TurboCi.Lib.Traced
import TurboCi.Security.MatchRanges
import TurboCi.Lib.NestedWords
import TurboCi.RunnerDaemon.PercentDecode
import TurboCi.RunnerDaemon.ObjectPaths
import TurboCi.RunnerDaemon.GitOptions
import TurboCi.Lib.ShellRun
import TurboCi.RunnerDaemon.CheckoutRuns
import TurboCi.RunnerDaemon.JobTimes
import TurboCi.RunnerDaemon.ImageReferences
import TurboCi.RunnerDaemon.CollectedPaths
import TurboCi.Lib.Serde
import TurboCi.RunnerDaemon.UnknownKeys
import TurboCi.RunnerDaemon.TraceDelivery
import TurboCi.RunnerDaemon.TraceSecrets
import TurboCi.Lib.Attempts
import TurboCi.Gitlab.Client
import TurboCi.Lib.Justified
import TurboCi.RunnerDaemon.RestoreWorkspace
import TurboCi.RunnerDaemon.ShellRunner
import TurboCi.RunnerDaemon.Daemon
import TurboCi.RunnerDaemon.DockerAdmission
import TurboCi.Lib.Restarts
import TurboCi.RunnerDaemon.SystemId
import TurboCi.Upgrade
import TurboCi.RunnerDaemon.JobResults
import TurboCi.RunnerDaemon.Signing
