import TurboCi.Gitlab.Job

set_option autoImplicit false

/-! # Cancellation and shutdown

The two signals that stop jobs: each job's own cancellation (`runner_daemon/cancel.rs`) and the
shutdown mode of the runner (`runner_daemon/mod.rs`). Both only escalate.
-/

namespace TurboCi

/-- `CancelSignal::update`: a weaker state never overrides a stronger one. -/
def RemoteState.update (current state : RemoteState) : RemoteState :=
  if state ≤ current then current else state

theorem RemoteState.update_aborted (state : RemoteState) : aborted.update state = aborted := by
  cases state <;> rfl

/-- How the runner is stopping. -/
inductive Shutdown where
  | running
  /-- take no new jobs, let running jobs finish -/
  | graceful
  /-- take no new jobs, stop running jobs and report them failed -/
  | abort
  deriving DecidableEq

/-- The derived order of the modes. -/
def Shutdown.rank : Shutdown → Nat
  | running => 0
  | graceful => 1
  | abort => 2

/-- `ShutdownHandle::request`: a graceful request never undoes an abort. -/
def Shutdown.request (current mode : Shutdown) : Shutdown :=
  if current.rank < mode.rank then mode else current

end TurboCi
