import TypeSearch.Issue.Basic
import TypeSearch.Outcome

/-!
Why a candidate typing is discarded, and how that is reported.
-/

namespace TypeSearch

inductive Failure where
  | mismatch (m : Mismatch)
  | issue (i : Issue)
  /-- All candidates were discarded, the first one because of `cause`. -/
  | noTyping (cause : Option Failure) (pruned : Nat)
  /-- An issue was already written down for it. -/
  | reported
  deriving Repr, Inhabited

namespace Failure

def message : Failure → String
  | mismatch m => m.message
  | issue i => i.cause.message
  | noTyping none _ => "no consistent typing exists"
  | noTyping (some cause) _ => "no consistent typing exists: " ++ cause.message
  | reported => "error already reported"

def origin : Failure → Failure
  | noTyping (some cause) _ => cause.origin
  | failure => failure

def toIssue? (file : String) (place : Option Place) (failure : Failure) : Option Issue :=
  match failure.origin with
  | reported => none
  | issue i => some i
  | mismatch m => some ⟨file, place, .mismatch m⟩
  | noTyping _ _ => some ⟨file, place, .unclassified failure.message⟩

end Failure

namespace Outcome

variable {α : Type}

instance {ε : Type} : MonadExceptOf ε (Outcome ε) where
  throw := failed
  tryCatch outcome handle :=
    match outcome with
    | ok value => ok value
    | failed error => handle error
    | halted cause => halted cause

def asFailure : Outcome Mismatch α → Outcome Failure α := mapError Failure.mismatch

end Outcome

end TypeSearch
