import TypeSearch.Issue.Report

/-!
Ledgers: issues are collected under names. Several names can stand for one account, and what is
posted under one of them is then found under all. A name that nothing was posted under has no
account.
-/

namespace TypeSearch

structure Ledger where
  accounts : List (List Issue) := []
  names : List (String × Nat) := []
  deriving Repr, Inhabited

namespace Ledger

def account? (ledger : Ledger) (name : String) : Option Nat := ledger.names.lookup name

def issues (ledger : Ledger) (name : String) : List Issue :=
  ((ledger.account? name).bind (ledger.accounts[·]?)).getD []

def rename (ledger : Ledger) (name : String) (account : Option Nat) : Ledger :=
  let others := ledger.names.filter (·.1 ≠ name)
  { ledger with names := (account.map (name, ·)).toList ++ others }

def opened (ledger : Ledger) (name : String) (issues : List Issue) : Ledger :=
  { ledger with accounts := ledger.accounts ++ [issues] }.rename name (some ledger.accounts.length)

def post (ledger : Ledger) (source target : String) (issues : List Issue) : Ledger :=
  match ledger.account? source with
  | none => ledger.opened target issues
  | some account =>
    { ledger with accounts := ledger.accounts.modify account (· ++ issues) }.rename target
      (some account)

/-- Posts what is under `other` to the account of `source`; without one, that of `other` serves. -/
def merge (ledger : Ledger) (source other target : String) : Ledger :=
  match ledger.account? source with
  | none => ledger.rename target (ledger.account? other)
  | some _ => ledger.post source target (ledger.issues other)

end Ledger

def Issue.summary (issues : List Issue) : String :=
  let numbered := issues.zipIdx.map fun (issue, i) =>
    "e" ++ i.repr ++ "=[msg=" ++ issue.text ++ "]"
  "[" ++ " ".intercalate numbered ++ "]"

end TypeSearch
