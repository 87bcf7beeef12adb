import TurboCi.Gitlab.Job

set_option autoImplicit false

/-! # Image references and pull policies

Which reference is pulled for an image name and when (`runner_daemon/image.rs`).
-/

namespace TurboCi

/-- The image name without tag or digest. -/
def repository (image : Chars) : Chars :=
  let withoutDigest := image.takeWhile (· ≠ '@')
  let tag := (withoutDigest.reverse.takeWhile (· ≠ ':')).reverse
  -- a `:` after the last `/` is a tag; before it, a registry port
  if ':' ∈ withoutDigest ∧ '/' ∉ tag then
    withoutDigest.take (withoutDigest.length - tag.length - 1)
  else withoutDigest

/-- The reference to pull: without a tag or digest Docker would pull every tag. -/
def withDefaultTag (image : Chars) : Chars :=
  if '@' ∉ image ∧ repository image = image then image ++ ":latest".toList else image

inductive PullPolicy where
  | always
  | ifNotPresent
  | never
  deriving DecidableEq

namespace PullPolicy

def parse (policy : Chars) : Option PullPolicy :=
  if policy = "always".toList then some .always
  else if policy = "if-not-present".toList then some .ifNotPresent
  else if policy = "never".toList then some .never
  else none

/-- The policies that a job may choose from. -/
def allowedOr (default : Chars) (allowed : List Chars) : List Chars :=
  if allowed = [] then [default] else allowed

/-- The policy for a job image; a job may only pick policies that the runner allows. The failure
names what the job asked for and what is allowed. -/
def resolve (jobPolicies : List Chars) (default : Chars) (allowed : List Chars) :
    Except (List Chars × List Chars) PullPolicy :=
  if jobPolicies = [] then .ok ((parse default).getD .always)
  else
    match (jobPolicies.filter fun p =>
        (allowedOr default allowed).any (· = p)).findSome? parse with
    | some policy => .ok policy
    | none => .error (jobPolicies, allowedOr default allowed)

end PullPolicy

example : withDefaultTag "registry:5000/app".toList = "registry:5000/app:latest".toList := by decide

end TurboCi
