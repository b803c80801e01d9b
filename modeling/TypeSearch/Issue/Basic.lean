import TypeSearch.Facts.Mismatch
import TypeSearch.Source.Span

/-!
Issues: what is wrong with a program, where, and how it is written.
-/

namespace TypeSearch

namespace Issue

inductive Cause where
  | unclassified (text : String)
  | duplicate (name : String) (previous : Option Span)
  /-- `owner` is empty unless the name was looked for in a type or file. -/
  | missing (name owner : String)
  | exportOutside (name : String)
  | importOutside (path : String)
  /-- `source` depends on `target`, and `chain` leads from `target` to `source`. -/
  | cycle (source target : String) (chain : List String)
  | mismatch (m : Mismatch)
  | indeterminate (candidates : List Ty)
  | alternative (name : String)
  | unknownDependency (path : String)
  deriving Repr, Inhabited

namespace Cause

def code : Cause → Nat
  | unclassified _ => 0
  | duplicate _ _ => 1
  | missing _ _ => 2
  | exportOutside _ => 3
  | importOutside _ => 4
  | cycle _ _ _ => 5
  | mismatch _ => 6
  | indeterminate _ => 7
  | alternative _ => 8
  | unknownDependency _ => 9

def name : Cause → String
  | unclassified _ => "unclassified"
  | duplicate _ _ => "duplicate binding"
  | missing _ _ => "missing binding"
  | exportOutside _ => "export outside scope"
  | importOutside _ => "import outside scope"
  | cycle _ _ _ => "cyclic dependency"
  | mismatch _ => "type mismatch"
  | indeterminate _ => "indeterminate type"
  | alternative _ => "alternative bindings"
  | unknownDependency _ => "unknown dependency"

def message : Cause → String
  | unclassified text => "unclassified error: " ++ text
  | duplicate name _ => "'" ++ name ++ "' is already declared in this scope"
  | missing name owner =>
    if owner.isEmpty then "variable '" ++ name ++ "' is not defined"
    else "'" ++ owner ++ "' has no member '" ++ name ++ "'"
  | exportOutside name =>
    "'" ++ name ++ "' cannot be exported: only file and module declarations can be exported"
  | importOutside path => "import of '" ++ path ++ "' must be at the top level of a file"
  | cycle source target chain =>
    "import cycle: '" ++ source ++ "' depends on '" ++ target ++ "' through " ++
      " -> ".intercalate (chain ++ [target])
  | mismatch m => m.message
  | indeterminate [] => "cannot determine the type of this expression"
  | indeterminate candidates =>
    "cannot determine the type of this expression: it could be any of " ++
      ", ".intercalate (candidates.map fun t => "'" ++ t.text ++ "'")
  | alternative name =>
    "every alternative pattern of a case must bind the same names, but this one does not bind " ++
      "'" ++ name ++ "'"
  | unknownDependency path => "cannot find imported file '" ++ path ++ "'"

end Cause

end Issue

structure Issue where
  file : String
  /-- Where that stands which the issue is about; it can come from another file. -/
  place : Option Place
  cause : Issue.Cause
  deriving Repr, Inhabited

namespace Issue

def text (issue : Issue) : String :=
  let code := issue.cause.code.repr
  "(E" ++ String.ofList (List.replicate (3 - code.length) '0') ++ code ++ ") " ++
    issue.cause.message

end Issue

end TypeSearch
